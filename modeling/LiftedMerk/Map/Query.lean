import LiftedMerk.Map.Builder

/-! Querying a proof map: a single key, or a range iterated entry by entry, where each entry is
checked for a gap before it and the end of the range for a gap after it. -/

namespace LiftedMerk

/-- `check_end_bound`: an error unless the proof shows that nothing was left out just after the
last key iterated. The next entry above it, if any, must be contiguous, and without one the right
edge must be reached; with no key iterated only the right edge is checked. (A range unbounded
above never makes `BTreeMap::range` panic.) -/
def checkEndBound (prevKey : Option Key) (map : JsMap) : Except Error Unit :=
  let excludedData :=
    match prevKey with
    | none => !map.rightEdge
    | some key =>
      match (map.entries.rangeEntries (.excluded key) .unbounded).head? with
      | none => !map.rightEdge
      | some (_, contiguous, _) => !contiguous
  if excludedData then .error "Proof is missing data for query" else .ok ()

/-- `JsFlatMap`, the iterator over a range of a map: the entries not yet yielded, the last key
yielded, the range's start, and the map it was made from. The source's `JsFlatMap` does not
compile: `JsMap::range` collects it from a `BTreeMap` range, which does not implement that, and
`next` hands the iterator to `check_end_bound`, which takes a `JsMap`. Two choices follow the
spec's account of map queries (§4.3): a new iterator has yielded no key (`prev_key` starts at
`None`), and `check_end_bound` reads the map the range was taken from, kept here as `map`. -/
structure JsFlatMap where
  /-- `inner`: the entries left. -/
  inner : List (Key × Bool × Value)
  /-- `prev_key`. -/
  prevKey : Option Key
  /-- `start_key`. -/
  startKey : Option Key
  /-- The map the range was taken from. -/
  map : JsMap

namespace JsFlatMap

/-- What `next` yields for an entry: its pair, unless the entry is not contiguous and is not the
range's exact start, when data may be missing just before it. -/
def checkEntry (startKey : Option Key) : Key × Bool × Value → Except Error (Key × Value)
  | (key, contiguous, value) =>
    let skipExclusionCheck :=
      match startKey with
      | some startKey => startKey = key
      | none => false
    if !skipExclusionCheck && !contiguous then .error "Proof is missing data for query"
    else .ok (key, value)

/-- What `next` yields once the entries are used up: `check_end_bound`'s error, or the end. -/
def endOfRange (prevKey : Option Key) (map : JsMap) : Option (Except Error (Key × Value)) :=
  match checkEndBound prevKey map with
  | .error err => some (.error err)
  | .ok () => none

/-- `JsFlatMap::next`: the next entry, checked, whose key becomes the last key yielded; once the
entries are used up, what `endOfRange` yields, on every call. -/
def next (flat : JsFlatMap) : Option (Except Error (Key × Value)) × JsFlatMap :=
  match flat.inner with
  | [] => (endOfRange flat.prevKey flat.map, flat)
  | entry :: inner =>
    (some (checkEntry flat.startKey entry), { flat with inner, prevKey := some entry.1 })

/-- The item that the call of `next` after `i` others yields. -/
def call : Nat → JsFlatMap → Option (Except Error (Key × Value))
  | 0, flat => flat.next.1
  | i + 1, flat => call i flat.next.2

/-- The calls before the entries are used up yield them in order, each checked. -/
theorem call_of_lt : ∀ (i : Nat) (flat : JsFlatMap) (h : i < flat.inner.length),
    flat.call i = some (checkEntry flat.startKey flat.inner[i])
  | i, ⟨entry :: inner, prevKey, startKey, map⟩, h => by
    -- The first call yields the first entry, and each later one the next entry left.
    cases i with
    | zero => rfl
    | succ i =>
      exact call_of_lt i ⟨inner, some entry.1, startKey, map⟩ (Nat.lt_of_succ_lt_succ h)

/-- Every call after the entries are used up yields what the end of the range does, from the last
entry's key. -/
theorem call_of_le : ∀ (i : Nat) (flat : JsFlatMap), flat.inner.length ≤ i →
    flat.call i = endOfRange ((flat.inner.getLast?.map Prod.fst).or flat.prevKey) flat.map
  | 0, ⟨[], prevKey, startKey, map⟩, _ => rfl
  | i + 1, ⟨[], prevKey, startKey, map⟩, _ =>
    call_of_le i ⟨[], prevKey, startKey, map⟩ (Nat.zero_le i)
  | i + 1, ⟨entry :: inner, prevKey, startKey, map⟩, h => by
    -- One entry is yielded, and the rest are used up after the other calls.
    refine (call_of_le i ⟨inner, some entry.1, startKey, map⟩
      (Nat.le_of_succ_le_succ h)).trans ?_
    simp only [List.getLast?_cons]
    cases inner.getLast? <;> rfl

/-- An entry that passes its check yields its own pair. -/
theorem checkEntry_ok {startKey : Option Key} {entry : Key × Bool × Value} {pair : Key × Value}
    (passed : checkEntry startKey entry = .ok pair) : pair = (entry.1, entry.2.2) := by
  -- The only `Ok` the check gives is the entry's pair.
  obtain ⟨key, contiguous, value⟩ := entry
  simp only [checkEntry] at passed
  split_ifs at passed
  cases passed
  rfl

/-- The end of a range yields no pair. -/
theorem endOfRange_ne_ok (prevKey : Option Key) (map : JsMap) (pair : Key × Value) :
    endOfRange prevKey map ≠ some (.ok pair) := by
  -- The end yields nothing or the end bound's error.
  unfold endOfRange
  split <;> simp

/-- Every pair a call yields is one of the iterator's entries. -/
theorem call_ok_mem {flat : JsFlatMap} {i : Nat} {key : Key} {value : Value}
    (yielded : flat.call i = some (.ok (key, value))) :
    ∃ contiguous, (key, contiguous, value) ∈ flat.inner := by
  by_cases before : i < flat.inner.length
  · -- A call before the end yields the checked entry at its place.
    rw [call_of_lt i flat before, Option.some.injEq] at yielded
    have same := checkEntry_ok yielded
    generalize found : flat.inner[i] = entry at same
    obtain ⟨key', contiguous, value'⟩ := entry
    simp only [Prod.mk.injEq] at same
    obtain ⟨rfl, rfl⟩ := same
    exact ⟨contiguous, found ▸ List.getElem_mem before⟩
  · rw [call_of_le i flat (not_lt.1 before)] at yielded
    exact (endOfRange_ne_ok _ _ _ yielded).elim

end JsFlatMap

namespace JsMap

/-- `JsMap::range`: the iterator over the entries from `startBound` to `endBound`, both included;
`BTreeMap::range` panics when the start is above the end. The source does not compile (see
`JsFlatMap`); as the spec's account of map queries (§4.3) has it, the iterator starts with no key
yielded and trusts an entry at exactly the start. -/
def range (map : JsMap) (startBound endBound : Key) : Option JsFlatMap :=
  (map.entries.range (.included startBound) (.included endBound)).map fun inner =>
    ⟨inner, none, some startBound, map⟩

/-- `JsMap::get`: the key's value when the map has it. Otherwise the first item of the range from
the key to itself: the end when the proof shows the key absent, and an error when it does not. -/
def get (map : JsMap) (key : Key) : Option (Except Error (Option Value)) :=
  match map.entries.get key with
  | some (_, value) => some (.ok (some value))
  | none => (map.range key key).map fun flat =>
    match flat.next.1 with
    | none => .ok none
    | some (.error err) => .error err
    | some (.ok (_, value)) => .ok (some value)

/-- Every pair a range yields is an entry of the map between the range's bounds. -/
theorem range_ok_mem {map : JsMap} {a b : Key} {flat : JsFlatMap}
    (ranged : map.range a b = some flat) {i : Nat} {key : Key} {value : Value}
    (yielded : flat.call i = some (.ok (key, value))) :
    ∃ contiguous, (key, contiguous, value) ∈ map.entries.entries ∧ a ≤ key ∧ key ≤ b := by
  obtain ⟨contiguous, mem⟩ := JsFlatMap.call_ok_mem yielded
  -- The range's entries are those of the map that both bounds admit.
  simp only [range, BTreeMap.range] at ranged
  split_ifs at ranged
  · cases ranged
  simp only [Option.map_some', Option.some.injEq] at ranged
  subst ranged
  simp only [BTreeMap.rangeEntries, List.mem_filter, Bound.admitsFrom, Bound.admitsTo,
    Bool.and_eq_true, decide_eq_true_eq] at mem
  exact ⟨contiguous, mem.1, mem.2.1, mem.2.2⟩

/-- A value `get` finds is that of an entry of the map with the key. -/
theorem get_ok_mem {map : JsMap} {key : Key} {value : Value}
    (found : map.get key = some (.ok (some value))) :
    ∃ contiguous, (key, contiguous, value) ∈ map.entries.entries := by
  unfold get at found
  cases stored : map.entries.get key with
  | some entry =>
    -- The map has the key.
    obtain ⟨contiguous, value'⟩ := entry
    simp only [stored, Option.some.injEq, Except.ok.injEq] at found
    subst found
    exact ⟨contiguous, (BTreeMap.get_eq_some_iff _ _ _).1 stored⟩
  | none =>
    -- The first item of the range from the key to itself is a pair with the key.
    simp only [stored] at found
    cases ranged : map.range key key with
    | none => simp [ranged] at found
    | some flat =>
      simp only [ranged, Option.map_some', Option.some.injEq] at found
      cases yielded : flat.next.1 with
      | none => simp [yielded] at found
      | some item =>
        rcases item with _ | ⟨key', value'⟩ <;> simp only [yielded, Except.ok.injEq,
          Option.some.injEq, reduceCtorEq] at found
        subst found
        obtain ⟨contiguous, mem, low, high⟩ :=
          range_ok_mem ranged (show flat.call 0 = _ from yielded)
        exact ⟨contiguous, le_antisymm high low ▸ mem⟩

/-- Iterating a range yields its entries, then one end on every later call. With the start above
the end, `range` panics. Otherwise the range holds the `n` entries of the map from `a` to `b`, and
the first `n` calls of `next` yield them in key order, each as its pair, or as an error when it is
not contiguous and its key is not `a`. Every later call yields the same item: the end when
`check_end_bound` passes on the last key yielded, and its error otherwise. -/
theorem range_yields_entries_then_end (map : JsMap) (a b : Key) :
    (b < a → map.range a b = none) ∧
    (a ≤ b → ∃ flat, map.range a b = some flat ∧
      flat.inner = map.entries.rangeEntries (.included a) (.included b) ∧
      (∀ i (h : i < flat.inner.length),
        flat.call i = some (JsFlatMap.checkEntry (some a) flat.inner[i])) ∧
      ∀ i, flat.inner.length ≤ i →
        flat.call i = JsFlatMap.endOfRange (flat.inner.getLast?.map Prod.fst) map) := by
  -- `BTreeMap::range` panics exactly when the end is below the start.
  refine ⟨fun below => by simp [range, BTreeMap.range, BTreeMap.rangePanics, below],
    fun ordered => ⟨⟨map.entries.rangeEntries (.included a) (.included b), none, some a, map⟩,
      by simp [range, BTreeMap.range, BTreeMap.rangePanics, not_lt.2 ordered],
      rfl, fun i h => JsFlatMap.call_of_lt i _ h, fun i h => ?_⟩⟩
  -- The range's iterator starts with no key yielded.
  rw [JsFlatMap.call_of_le i _ h, Option.or_none]

/-- After a range's last entry, an unproven end is reported on every call. The proof
`[KV [1], Hash]`, queried from `[1]` to `[1]`, yields the pair, then an error on every later call:
two errors by the third call, and never the end. -/
theorem range_end_error_repeats :
    ∃ flat, (JsMapBuilder.new.insertAll [.kv [1] [1], .hash []]).1.build.range [1] [1] =
        some flat ∧
      flat.call 0 = some (.ok ([1], [1])) ∧
      ∀ i, flat.call (i + 1) = some (.error "Proof is missing data for query") :=
  -- Every call after the pair ends the range from `[1]`, whose next entry is missing.
  ⟨⟨[([1], true, [1])], none, some [1],
      (JsMapBuilder.new.insertAll [.kv [1] [1], .hash []]).1.build⟩,
    rfl, rfl, fun i => (JsFlatMap.call_of_le (i + 1) _ (by simp)).trans rfl⟩

/-- No hash node of a proof can hide a key from `a` to `b`: after each one the first key revealed
is at most `a`, or before it the last key revealed closes the range off above, as `closes b key`
says. -/
def HidesNoKeyBy (closes : Key → Key → Bool) (a b : Key) (nodes : List Node) : Prop :=
  ∀ i (h : i < nodes.length), nodes[i].isKV = false →
    (kvKeys (nodes.drop (i + 1))).head?.any (· ≤ a) ∨
      (kvKeys (nodes.take i)).getLast?.any (closes b)

/-- Whether a proof hides no key is decided node by node. -/
instance (closes : Key → Key → Bool) (a b : Key) (nodes : List Node) :
    Decidable (HidesNoKeyBy closes a b nodes) :=
  inferInstanceAs (Decidable (∀ i (_ : i < nodes.length), _))

/-- The condition at a hash node, with the proof cut at it. -/
theorem HidesNoKeyBy.at_split {closes : Key → Key → Bool} {a b : Key}
    {nodes before after : List Node} {node : Node}
    (hidesNothing : HidesNoKeyBy closes a b nodes) (split : nodes = before ++ node :: after)
    (hidden : node.isKV = false) :
    (kvKeys after).head?.any (· ≤ a) ∨ (kvKeys before).getLast?.any (closes b) := by
  subst split
  -- The hash node stands at the index of the part before it.
  have cut := hidesNothing before.length (by simp)
    (by rw [List.getElem_append_right (Nat.le_refl _)]; simpa using hidden)
  simpa using cut

/-- No hash node of a proof can hide a key from `a` to `b`, where a revealed key at least `b`
closes the range off above. -/
abbrev HidesNoKey (a b : Key) (nodes : List Node) : Prop :=
  HidesNoKeyBy (· ≤ ·) a b nodes

/-- A range that ends at a revealed key followed by a hash is rejected. The proof
`[KV [1], KV [2], Hash]` hides no key from `[1]` to `[2]`, and the builder accepts it; yet the
range from `[1]` to `[2]` yields both pairs and then an error. `check_end_bound` asks for a
contiguous entry or the right edge after `[2]`, although `[2]` is the range's end. -/
theorem range_rejects_revealed_end :
    HidesNoKey [1] [2] [.kv [1] [1], .kv [2] [2], .hash []] ∧
    (JsMapBuilder.new.insertAll [.kv [1] [1], .kv [2] [2], .hash []]).2 = .ok () ∧
    ∃ flat, (JsMapBuilder.new.insertAll [.kv [1] [1], .kv [2] [2], .hash []]).1.build.range
        [1] [2] = some flat ∧
      flat.call 0 = some (.ok ([1], [1])) ∧ flat.call 1 = some (.ok ([2], [2])) ∧
      flat.call 2 = some (.error "Proof is missing data for query") :=
  -- The only hash node comes after the last key revealed, `[2]`; each call is run.
  ⟨by decide, rfl, _, rfl, rfl, rfl, rfl⟩

/-- Proof nodes abstract a map's entries, in ascending key order: the entries cut into
consecutive blocks, each a single entry given as its `Node::KV`, or a nonempty block given as one
`Node::Hash` or `Node::KVHash`. -/
inductive Abstracts : List (Key × Value) → List Node → Prop
  | nil : Abstracts [] []
  | kv {key : Key} {value : Value} {entries : List (Key × Value)} {nodes : List Node} :
      Abstracts entries nodes → Abstracts ((key, value) :: entries) (.kv key value :: nodes)
  | hash {block entries : List (Key × Value)} {nodes : List Node} (hash : Hash) :
      block ≠ [] → Abstracts entries nodes →
        Abstracts (block ++ entries) (.hash hash :: nodes)
  | kvHash {block entries : List (Key × Value)} {nodes : List Node} (kvHash : Hash) :
      block ≠ [] → Abstracts entries nodes →
        Abstracts (block ++ entries) (.kvHash kvHash :: nodes)

/-- A key hidden behind a hash is reported absent. The proof `[Hash, KV [2]]` abstracts the map
from `[1]` to `[1]` and `[2]` to `[2]`, with `[1]` behind the hash, and the builder accepts it.
Yet `get [1]` answers that `[1]` is absent, and the range from `[1]` to `[1]` ends at once with no
error: with no key yielded, `check_end_bound` only asks for the right edge, which the last pair
reaches. -/
theorem get_reports_hidden_key_absent :
    Abstracts ((BTreeMap.empty.insert [1] [1]).insert [2] [2]).entries [.hash [], .kv [2] [2]] ∧
    ((BTreeMap.empty.insert [1] [1]).insert [2] [2]).get [1] = some [1] ∧
    (JsMapBuilder.new.insertAll [.hash [], .kv [2] [2]]).2 = .ok () ∧
    (JsMapBuilder.new.insertAll [.hash [], .kv [2] [2]]).1.build.get [1] = some (.ok none) ∧
    ∃ flat, (JsMapBuilder.new.insertAll [.hash [], .kv [2] [2]]).1.build.range [1] [1] =
      some flat ∧ flat.call 0 = none :=
  -- The hash node stands for the block holding `[1]`; the rest is run.
  ⟨@Abstracts.hash [([1], [1])] [([2], [2])] _ [] (List.cons_ne_nil _ _) (.kv .nil), rfl, rfl,
    rfl, _, rfl, rfl⟩

/-- Every pair an abstracting proof reveals is an entry of the map. -/
theorem Abstracts.mem {entries : List (Key × Value)} {nodes : List Node}
    (abstracts : Abstracts entries nodes) {key : Key} {value : Value}
    (revealed : Node.kv key value ∈ nodes) : (key, value) ∈ entries := by
  -- A `Node::KV` gives its own entry; a hash node reveals none.
  induction abstracts with
  | nil => cases revealed
  | kv _ ih =>
    rcases List.mem_cons.1 revealed with same | revealed
    · cases same
      exact List.mem_cons_self _ _
    · exact List.mem_cons_of_mem _ (ih revealed)
  | hash _ _ _ ih | kvHash _ _ _ ih =>
    rcases List.mem_cons.1 revealed with same | revealed
    · cases same
    · exact List.mem_append_right _ (ih revealed)

/-- The keys an abstracting proof reveals are some of the map's keys, in their order. -/
theorem Abstracts.kvKeys_sublist {entries : List (Key × Value)} {nodes : List Node}
    (abstracts : Abstracts entries nodes) : (kvKeys nodes).Sublist (entries.map Prod.fst) := by
  -- A `Node::KV` keeps its entry's key, and a hash node drops its block's keys.
  induction abstracts with
  | nil => exact .slnil
  | kv _ ih => exact ih.cons₂ _
  | hash _ _ _ ih | kvHash _ _ _ ih =>
    rw [List.map_append]
    exact ih.trans (List.sublist_append_right _ _)

/-- Proof maps never invent data. For every map and every proof that abstracts it, the builder
accepts the proof; a value `get` returns for a key is the map's value there; and a pair a range
yields is an entry of the map between the range's bounds. -/
theorem abstracting_proof_sound (T : BTreeMap Key Value) (nodes : List Node)
    (abstracts : Abstracts T.entries nodes) :
    (JsMapBuilder.new.insertAll nodes).2 = .ok () ∧
    (∀ key value, (JsMapBuilder.new.insertAll nodes).1.build.get key = some (.ok (some value)) →
      T.get key = some value) ∧
    ∀ a b flat i key value, (JsMapBuilder.new.insertAll nodes).1.build.range a b = some flat →
      flat.call i = some (.ok (key, value)) →
        T.get key = some value ∧ a ≤ key ∧ key ≤ b := by
  -- The revealed keys ascend as the map's do, so the builder accepts the proof and records its
  -- pairs, each of which the map holds.
  have ascends : (kvKeys nodes).Chain' (· < ·) :=
    ((List.pairwise_map.2 T.sorted).sublist abstracts.kvKeys_sublist).chain'
  obtain ⟨succeeds, built⟩ := JsMapBuilder.insertAll_spec nodes JsMapBuilder.new
  have accepted := succeeds.2 (by simpa [JsMapBuilder.new, BTreeMap.lastKeyValue,
    BTreeMap.empty] using ascends)
  have recorded : (JsMapBuilder.new.insertAll nodes).1.build.entries.entries =
      proofEntries true nodes := (built accepted).1
  have held : ∀ key contiguous value,
      (key, contiguous, value) ∈ (JsMapBuilder.new.insertAll nodes).1.build.entries.entries →
        T.get key = some value := fun key contiguous value mem =>
    (BTreeMap.get_eq_some_iff T key value).2 (abstracts.mem (mem_proofEntries (recorded ▸ mem)))
  refine ⟨accepted, fun key value found => ?_, fun a b flat i key value ranged yielded => ?_⟩
  · obtain ⟨contiguous, mem⟩ := get_ok_mem found
    exact held key contiguous value mem
  · obtain ⟨contiguous, mem, low, high⟩ := range_ok_mem ranged yielded
    exact ⟨held key contiguous value mem, low, high⟩

/-- The soundness theorem applies to the proof that hides `[1]` behind a hash. -/
theorem abstracting_proof_sound_hidden :
    (JsMapBuilder.new.insertAll [.hash [], .kv [2] [2]]).2 = .ok () ∧
    (∀ key value,
      (JsMapBuilder.new.insertAll [.hash [], .kv [2] [2]]).1.build.get key =
        some (.ok (some value)) →
        ((BTreeMap.empty.insert [1] [1]).insert [2] [2]).get key = some value) ∧
    ∀ a b flat i key value,
      (JsMapBuilder.new.insertAll [.hash [], .kv [2] [2]]).1.build.range a b = some flat →
      flat.call i = some (.ok (key, value)) →
        ((BTreeMap.empty.insert [1] [1]).insert [2] [2]).get key = some value ∧
          a ≤ key ∧ key ≤ b :=
  -- The proof abstracts the map with the block of `[1]` behind the hash.
  abstracting_proof_sound _ _
    (@Abstracts.hash [([1], [1])] [([2], [2])] _ [] (List.cons_ne_nil _ _) (.kv .nil))

/-- A map whose entries are all contiguous and whose right edge is reached proves every end. -/
theorem checkEndBound_of_contiguous {map : JsMap} (contiguous : ∀ e ∈ map.entries.entries, e.2.1)
    (edge : map.rightEdge) (prevKey : Option Key) : checkEndBound prevKey map = .ok () := by
  -- The entry after the last key, if any, is contiguous; without one, the right edge is reached.
  unfold checkEndBound
  cases prevKey with
  | none => simp [edge]
  | some key =>
    cases next : (map.entries.rangeEntries (.excluded key) .unbounded).head? with
    | none => simp [next, edge]
    | some entry =>
      have mem := List.mem_of_mem_head? next
      simp only [BTreeMap.rangeEntries, List.mem_filter] at mem
      obtain ⟨key', contiguous', value'⟩ := entry
      simpa [next] using contiguous _ mem.1

/-- A map whose entries are the pairs of `T`, all contiguous, with the right edge reached,
answers a range from `a` to `b`, with `a ≤ b`, with `T`'s pairs between them, then the end. -/
theorem range_of_revealed {map : JsMap} {T : BTreeMap Key Value}
    (entries : map.entries.entries = T.entries.map fun pair => (pair.1, true, pair.2))
    (edge : map.rightEdge) {a b : Key} (ordered : a ≤ b) :
    ∃ flat, map.range a b = some flat ∧
      ∀ i, flat.call i = (T.rangeEntries (.included a) (.included b))[i]?.map .ok := by
  have ended := checkEndBound_of_contiguous (fun e mem => by
    obtain ⟨pair, -, rfl⟩ := List.mem_map.1 (entries ▸ mem)
    rfl) edge
  have ranged : map.entries.rangeEntries (.included a) (.included b) =
      (T.rangeEntries (.included a) (.included b)).map fun pair => (pair.1, true, pair.2) := by
    simp [BTreeMap.rangeEntries, entries, List.filter_map, Function.comp_def]
  refine ⟨⟨map.entries.rangeEntries (.included a) (.included b), none, some a, map⟩,
    by simp [range, BTreeMap.range, BTreeMap.rangePanics, not_lt.2 ordered], fun i => ?_⟩
  -- Every entry of the range passes its check, and its end is proven.
  by_cases inside : i < (T.rangeEntries (.included a) (.included b)).length
  · rw [JsFlatMap.call_of_lt i _ (by simpa [ranged] using inside)]
    simp [ranged, inside, JsFlatMap.checkEntry]
  · rw [JsFlatMap.call_of_le i _ (by simpa [ranged] using inside)]
    simp [JsFlatMap.endOfRange, ended, List.getElem?_eq_none (not_lt.1 inside)]

/-- Such a map answers `get` with `T`'s value for the key, or that the key is absent. -/
theorem get_of_revealed {map : JsMap} {T : BTreeMap Key Value}
    (entries : map.entries.entries = T.entries.map fun pair => (pair.1, true, pair.2))
    (edge : map.rightEdge) (key : Key) : map.get key = some (.ok (T.get key)) := by
  have stored : map.entries.get key = (T.get key).map fun value => (true, value) := by
    simp [BTreeMap.get, entries, List.find?_map, Function.comp_def]
  cases held : T.get key with
  | some value => simp [get, stored, held]
  | none =>
    -- For a key the map lacks, the range from the key to itself is empty.
    obtain ⟨flat, ranged, first⟩ := range_of_revealed entries edge (le_refl key)
    have none_first : flat.next.1 = none := by
      simpa [BTreeMap.rangeEntries_self_eq_nil held] using first 0
    simp [get, stored, held, ranged, none_first]

/-- A proof that reveals every pair answers every query. For every map, the proof made of its
pairs alone is accepted. `get` returns each key's value in the map, or that the key is absent.
A range from `a` to `b`, with `a ≤ b`, yields the map's pairs between them in key order, with no
error, and then the end on every later call. -/
theorem revealed_proof_complete (T : BTreeMap Key Value) :
    (JsMapBuilder.new.insertAll (T.entries.map fun pair => .kv pair.1 pair.2)).2 = .ok () ∧
    (∀ key,
      (JsMapBuilder.new.insertAll (T.entries.map fun pair => .kv pair.1 pair.2)).1.build.get key =
        some (.ok (T.get key))) ∧
    ∀ a b, a ≤ b → ∃ flat,
      (JsMapBuilder.new.insertAll (T.entries.map fun pair => .kv pair.1 pair.2)).1.build.range
        a b = some flat ∧
      ∀ i, flat.call i = (T.rangeEntries (.included a) (.included b))[i]?.map .ok := by
  -- The builder accepts the proof, since the map's keys ascend, and records every pair as
  -- contiguous, with the right edge reached.
  obtain ⟨succeeds, built⟩ :=
    JsMapBuilder.insertAll_spec (T.entries.map fun pair => .kv pair.1 pair.2) JsMapBuilder.new
  have accepted := succeeds.2 (by
    simpa [JsMapBuilder.new, BTreeMap.lastKeyValue, BTreeMap.empty, kvKeys_revealed] using
      (List.pairwise_map.2 T.sorted).chain')
  generalize (JsMapBuilder.new.insertAll (T.entries.map fun pair => .kv pair.1 pair.2)) = run
    at accepted built ⊢
  obtain ⟨recorded, edge⟩ := built accepted
  have entries : run.1.build.entries.entries = T.entries.map fun pair => (pair.1, true, pair.2) :=
    recorded.trans (proofEntries_revealed _)
  have reached : run.1.build.rightEdge = true := by
    rw [JsMapBuilder.build, edge, List.getLast?_map]
    cases T.entries.getLast? <;> rfl
  exact ⟨accepted, get_of_revealed entries reached,
    fun _ _ ordered => range_of_revealed entries reached ordered⟩

end JsMap

end LiftedMerk
