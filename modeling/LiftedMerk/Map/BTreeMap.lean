import Mathlib.Order.Lattice

/-! `std::collections::BTreeMap` as the proof maps use it: entries in strictly ascending key order,
and the runs of entries that a pair of `Bound`s admits. -/

namespace LiftedMerk

/-- `std::ops::Bound`: one end of a range of keys. -/
inductive Bound (κ : Type) where
  | included (key : κ)
  | excluded (key : κ)
  | unbounded
  deriving DecidableEq, Repr

namespace Bound

variable {κ : Type} [LinearOrder κ]

/-- Whether the bound, as the start of a range, admits `key`. -/
def admitsFrom : Bound κ → κ → Bool
  | included start, key => start ≤ key
  | excluded start, key => start < key
  | unbounded, _ => true

/-- Whether the bound, as the end of a range, admits `key`. -/
def admitsTo : Bound κ → κ → Bool
  | included stop, key => key ≤ stop
  | excluded stop, key => key < stop
  | unbounded, _ => true

end Bound

/-- `BTreeMap<K, V>`: its entries in strictly ascending key order, so each key at most once. -/
structure BTreeMap (κ ν : Type) [LinearOrder κ] where
  /-- The entries, as `BTreeMap::iter` yields them. -/
  entries : List (κ × ν)
  /-- The keys strictly ascend. -/
  sorted : entries.Pairwise fun a b => a.1 < b.1

namespace BTreeMap

variable {κ ν : Type} [LinearOrder κ]

/-- `BTreeMap::new`, the map's `Default::default`. -/
def empty : BTreeMap κ ν := ⟨[], .nil⟩

/-- The entries with `(key, value)` put in its place in key order, in place of an entry with the
same key. -/
def insertEntry (key : κ) (value : ν) : List (κ × ν) → List (κ × ν)
  | [] => [(key, value)]
  | (k, v) :: entries =>
    if key < k then (key, value) :: (k, v) :: entries
    else if key = k then (key, value) :: entries
    else (k, v) :: insertEntry key value entries

/-- An entry after the insertion is the inserted one or was there before. -/
theorem mem_insertEntry {key : κ} {value : ν} {e : κ × ν} :
    ∀ {entries : List (κ × ν)}, e ∈ insertEntry key value entries →
      e = (key, value) ∨ e ∈ entries
  | [], mem => .inl (List.mem_singleton.1 mem)
  | (k, v) :: entries, mem => by
    -- Before the first entry, in its place, or among the rest.
    unfold insertEntry at mem
    split_ifs at mem
    · simpa using mem
    · exact (List.mem_cons.1 mem).imp_right (List.mem_cons_of_mem _)
    · rcases List.mem_cons.1 mem with rfl | mem
      · exact .inr (List.mem_cons_self _ _)
      · rcases mem_insertEntry mem with rfl | mem
        · exact .inl rfl
        · exact .inr (List.mem_cons_of_mem _ mem)

/-- The insertion keeps the keys strictly ascending. -/
theorem insertEntry_sorted (key : κ) (value : ν) :
    ∀ {entries : List (κ × ν)}, entries.Pairwise (fun a b => a.1 < b.1) →
      (insertEntry key value entries).Pairwise fun a b => a.1 < b.1
  | [], _ => List.pairwise_singleton _ _
  | (k, v) :: entries, sorted => by
    rw [List.pairwise_cons] at sorted
    unfold insertEntry
    split_ifs with below same
    · -- Before the first entry, and so before all of them.
      refine List.Pairwise.cons (fun e mem => ?_) (List.Pairwise.cons sorted.1 sorted.2)
      rcases List.mem_cons.1 mem with rfl | mem
      · exact below
      · exact lt_trans below (sorted.1 e mem)
    · -- In place of the entry with the same key.
      subst same
      exact List.Pairwise.cons sorted.1 sorted.2
    · -- After the first entry, among the rest.
      refine List.Pairwise.cons (fun e mem => ?_) (insertEntry_sorted key value sorted.2)
      rcases mem_insertEntry mem with rfl | mem
      · exact lt_of_le_of_ne (not_lt.1 below) (Ne.symm same)
      · exact sorted.1 e mem

/-- Inserting a key above every key appends its entry. -/
theorem insertEntry_of_lt {key : κ} {value : ν} :
    ∀ {entries : List (κ × ν)}, (∀ e ∈ entries, e.1 < key) →
      insertEntry key value entries = entries ++ [(key, value)]
  | [], _ => rfl
  | (k, v) :: entries, above => by
    -- The first key is below the new one, so the insertion goes on among the rest.
    have first : k < key := above (k, v) (List.mem_cons_self _ _)
    rw [insertEntry, if_neg (not_lt.2 first.le), if_neg (ne_of_gt first),
      insertEntry_of_lt fun e mem => above e (List.mem_cons_of_mem _ mem)]
    rfl

/-- `BTreeMap::insert`, whose returned old value the proof maps drop. -/
def insert (map : BTreeMap κ ν) (key : κ) (value : ν) : BTreeMap κ ν :=
  ⟨insertEntry key value map.entries, insertEntry_sorted key value map.sorted⟩

/-- `BTreeMap::last_key_value`. -/
def lastKeyValue (map : BTreeMap κ ν) : Option (κ × ν) := map.entries.getLast?

/-- `BTreeMap::get`. -/
def get (map : BTreeMap κ ν) (key : κ) : Option ν :=
  (map.entries.find? fun e => e.1 = key).map Prod.snd

/-- Whether `BTreeMap::range` panics on the bounds: when the start is above the end, or when the
two are equal and both excluded. -/
def rangePanics : Bound κ → Bound κ → Bool
  | .excluded start, .excluded stop => stop ≤ start
  | .included start, .included stop | .included start, .excluded stop
  | .excluded start, .included stop => stop < start
  | _, _ => false

/-- The entries `BTreeMap::range` iterates: those both bounds admit, in key order. -/
def rangeEntries (map : BTreeMap κ ν) (start stop : Bound κ) : List (κ × ν) :=
  map.entries.filter fun e => start.admitsFrom e.1 && stop.admitsTo e.1

/-- An entry of a range is an entry of the map that both bounds admit. -/
@[simp] theorem mem_rangeEntries {map : BTreeMap κ ν} {start stop : Bound κ} {e : κ × ν} :
    e ∈ map.rangeEntries start stop ↔
      e ∈ map.entries ∧ start.admitsFrom e.1 = true ∧ stop.admitsTo e.1 = true := by
  -- The range filters the entries by both bounds.
  simp [rangeEntries]

/-- A range's keys strictly ascend, as the map's do. -/
theorem rangeEntries_sorted (map : BTreeMap κ ν) (start stop : Bound κ) :
    (map.rangeEntries start stop).Pairwise fun a b => a.1 < b.1 :=
  -- A filter keeps the order of what it keeps.
  map.sorted.sublist (List.filter_sublist _)

/-- In entries whose keys strictly ascend, the last entry has the largest key. -/
theorem le_of_getLast? {entries : List (κ × ν)} (sorted : entries.Pairwise fun a b => a.1 < b.1)
    {last : κ × ν} (found : entries.getLast? = some last) {e : κ × ν} (mem : e ∈ entries) :
    e.1 ≤ last.1 := by
  -- Every entry before the last one is below it.
  obtain ⟨init, rfl⟩ := List.getLast?_eq_some_iff.1 found
  rcases List.mem_append.1 mem with mem | mem
  · exact le_of_lt ((List.pairwise_append.1 sorted).2.2 e mem last (List.mem_singleton_self _))
  · rw [List.mem_singleton.1 mem]

/-- In entries whose keys strictly ascend, the first entry has the smallest key. -/
theorem le_of_head? {entries : List (κ × ν)} (sorted : entries.Pairwise fun a b => a.1 < b.1)
    {first : κ × ν} (found : entries.head? = some first) {e : κ × ν} (mem : e ∈ entries) :
    first.1 ≤ e.1 := by
  -- Every entry after the first one is above it.
  obtain ⟨rest, rfl⟩ := List.head?_eq_some_iff.1 found
  rcases List.mem_cons.1 mem with rfl | mem
  · exact le_rfl
  · exact le_of_lt (List.rel_of_pairwise_cons sorted mem)

/-- `BTreeMap::range`, which panics on the bounds `rangePanics` names. -/
def range (map : BTreeMap κ ν) (start stop : Bound κ) : Option (List (κ × ν)) :=
  if rangePanics start stop then none else some (map.rangeEntries start stop)

/-- The last entry of a map is above every other, so a key above it is above all of them. -/
theorem lt_of_lastKeyValue {map : BTreeMap κ ν} {key : κ}
    (above : map.lastKeyValue.all fun e => e.1 < key) : ∀ e ∈ map.entries, e.1 < key := by
  obtain ⟨entries, sorted⟩ := map
  -- Split off the last entry: the others are below it.
  rcases List.eq_nil_or_concat entries with rfl | ⟨init, last, rfl⟩
  · simp
  · simp only [List.concat_eq_append] at sorted above ⊢
    simp only [lastKeyValue] at above
    simp at above
    rw [List.pairwise_append] at sorted
    intro e mem
    rcases List.mem_append.1 mem with mem | mem
    · exact lt_trans (sorted.2.2 e mem last (List.mem_singleton_self _)) above
    · rw [List.mem_singleton.1 mem]
      exact above

/-- A map holds a key's value exactly when `get` finds it. -/
theorem get_eq_some_iff (map : BTreeMap κ ν) (key : κ) (value : ν) :
    map.get key = some value ↔ (key, value) ∈ map.entries := by
  obtain ⟨entries, sorted⟩ := map
  simp only [get]
  induction entries with
  | nil => simp
  | cons e entries ih =>
    rw [List.pairwise_cons] at sorted
    -- The first entry is the only one with its key.
    by_cases found : e.1 = key
    · subst found
      have absent : (e.1, value) ∉ entries := fun mem => lt_irrefl _ (sorted.1 (e.1, value) mem)
      obtain ⟨k, v⟩ := e
      simp [absent, eq_comm]
    · have other : (key, value) ≠ e := fun same => found (same ▸ rfl)
      simp [found, other, ih sorted.2]

/-- A key the map lacks leaves the range from it to itself empty. -/
theorem rangeEntries_self_eq_nil {map : BTreeMap κ ν} {key : κ} (absent : map.get key = none) :
    map.rangeEntries (.included key) (.included key) = [] := by
  -- An entry in the range would have the key itself.
  refine List.eq_nil_iff_forall_not_mem.2 fun ⟨key', value⟩ mem => ?_
  simp only [rangeEntries, List.mem_filter, Bound.admitsFrom, Bound.admitsTo, Bool.and_eq_true,
    decide_eq_true_eq] at mem
  obtain ⟨mem, low, high⟩ := mem
  obtain rfl : key' = key := le_antisymm high low
  simp [(get_eq_some_iff map key' value).2 mem] at absent

end BTreeMap

end LiftedMerk
