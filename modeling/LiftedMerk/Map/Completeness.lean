import Mathlib.Data.List.Sort
import LiftedMerk.Map.Query

/-! A range answer leaves nothing out. A pair of the map hidden behind a hash inside a range leaves
a gap: the first pair the proof reveals above it is not contiguous, and without one the right edge
is not reached. Either the gap's entry fails its check or the end of the range is unproven, so an
answer that yields a pair and ends without error holds every pair of the map in the range. -/

namespace LiftedMerk

namespace BTreeMap

variable {κ ν : Type} [LinearOrder κ]

/-- Two lists of entries whose keys strictly ascend, with the same entries, are equal. -/
theorem eq_of_sorted_of_mem_iff {entries entries' : List (κ × ν)}
    (sorted : entries.Pairwise fun a b => a.1 < b.1)
    (sorted' : entries'.Pairwise fun a b => a.1 < b.1) (same : ∀ e, e ∈ entries ↔ e ∈ entries') :
    entries = entries' := by
  -- Ascending keys make both lists duplicate-free, so they are sorted permutations of each other.
  have nodup : ∀ {l : List (κ × ν)}, l.Pairwise (fun a b => a.1 < b.1) → l.Nodup :=
    fun sorted => sorted.imp fun lt => ne_of_apply_ne Prod.fst (ne_of_lt lt)
  exact @List.eq_of_perm_of_sorted _ (fun a b : κ × ν => a.1 < b.1)
    ⟨fun _ _ lt lt' => (lt_asymm lt lt').elim⟩ _ _
    ((List.perm_ext_iff_of_nodup (nodup sorted) (nodup sorted')).2 same) sorted sorted'

end BTreeMap

namespace JsFlatMap

/-- A non-contiguous entry other than the range's exact start fails its check. -/
theorem checkEntry_gap {start key : Key} {value : Value} (gap : start ≠ key) :
    checkEntry (some start) (key, false, value) ≠ .ok (key, value) := by
  -- Neither the start exemption nor the contiguity flag lets the entry through.
  simp [checkEntry, gap]

/-- The end of a range is `none` exactly when `check_end_bound` passes. -/
theorem endOfRange_eq_none {prevKey : Option Key} {map : JsMap} :
    endOfRange prevKey map = none ↔ checkEndBound prevKey map = .ok () := by
  -- The end turns a failed check into its error.
  rcases checked : checkEndBound prevKey map with _ | ⟨⟩ <;> simp [endOfRange, checked]

/-- The first call is `next`. -/
theorem call_zero (flat : JsFlatMap) : flat.call 0 = flat.next.1 :=
  -- `call` counts the calls of `next`.
  rfl

/-- An iteration that yields `pairs` and then ends has passed every entry's check, yielding the
entries' pairs in order, and found the end of the range proven after the last one. -/
theorem yields_then_ends {flat : JsFlatMap} {pairs : List (Key × Value)}
    (yielded : ∀ i (h : i < pairs.length), flat.call i = some (.ok pairs[i]))
    (ended : flat.call pairs.length = none) :
    (∀ e ∈ flat.inner, checkEntry flat.startKey e = .ok (e.1, e.2.2)) ∧
      pairs = flat.inner.map (fun e => (e.1, e.2.2)) ∧
      checkEndBound ((flat.inner.getLast?.map Prod.fst).or flat.prevKey) flat.map = .ok () := by
  -- Each call before the entries are used up yields one, and none after them yields a pair.
  have long : flat.inner.length ≤ pairs.length := by
    by_contra short
    rw [call_of_lt _ flat (not_le.1 short)] at ended
    cases ended
  have short : pairs.length ≤ flat.inner.length := by
    by_contra long'
    have over := yielded flat.inner.length (not_le.1 long')
    rw [call_of_le _ flat le_rfl] at over
    exact endOfRange_ne_ok _ _ _ over
  have passed : ∀ i (h : i < flat.inner.length) (h' : i < pairs.length),
      checkEntry flat.startKey flat.inner[i] = .ok pairs[i] := fun i h h' =>
    Option.some.inj ((call_of_lt i flat h).symm.trans (yielded i h'))
  refine ⟨fun e mem => ?_, List.ext_getElem (by simp; omega) fun i h _ => ?_,
    endOfRange_eq_none.1 ((call_of_le _ flat long).symm.trans ended)⟩
  · obtain ⟨i, h, rfl⟩ := List.getElem_of_mem mem
    have h' : i < pairs.length := by omega
    rw [passed i h h', checkEntry_ok (passed i h h')]
  · have h' : i < flat.inner.length := by omega
    rw [checkEntry_ok (passed i h' h), List.getElem_map]

end JsFlatMap

namespace JsMap

/-- The builder accepts a proof that abstracts a map, records its entries, and reaches the right
edge when the proof is empty or ends with a pair. -/
theorem Abstracts.built {T : BTreeMap Key Value} {nodes : List Node}
    (abstracts : Abstracts T.entries nodes) :
    (JsMapBuilder.new.insertAll nodes).1.build.entries.entries = proofEntries true nodes ∧
    (JsMapBuilder.new.insertAll nodes).1.build.rightEdge =
      (nodes.getLast?.map Node.isKV).getD true := by
  -- The revealed keys ascend as the map's keys do.
  have ascends : (kvKeys nodes).Chain' (· < ·) :=
    ((List.pairwise_map.2 T.sorted).sublist abstracts.kvKeys_sublist).chain'
  exact JsMapBuilder.built_of_ok ((JsMapBuilder.insertAll_spec nodes JsMapBuilder.new).1.2 (by
    simpa [JsMapBuilder.new, BTreeMap.lastKeyValue, BTreeMap.empty] using ascends))

/-- A pair of the map that an abstracting proof does not reveal lies in the block of one hash
node: the nodes before that node abstract the entries before the block, and the nodes after it
the entries after. -/
theorem Abstracts.hidden {entries : List (Key × Value)} {nodes : List Node}
    (abstracts : Abstracts entries nodes) {key : Key} {value : Value}
    (held : (key, value) ∈ entries) (unrevealed : Node.kv key value ∉ nodes) :
    ∃ before node after entriesBefore block entriesAfter,
      nodes = before ++ node :: after ∧ node.isKV = false ∧
      entries = entriesBefore ++ block ++ entriesAfter ∧ (key, value) ∈ block ∧
      Abstracts entriesBefore before ∧ Abstracts entriesAfter after := by
  induction abstracts with
  | nil => cases held
  | kv rest ih =>
    -- The pair is not the revealed one, so it lies further on.
    have later := (List.mem_cons.1 held).resolve_left fun same => by
      cases same
      exact unrevealed (List.mem_cons_self _ _)
    obtain ⟨before, node, after, entriesBefore, block, entriesAfter, rfl, hidden, rfl, inBlock,
      abstractsBefore, abstractsAfter⟩ := ih later fun r => unrevealed (List.mem_cons_of_mem _ r)
    exact ⟨_ :: before, node, after, _ :: entriesBefore, block, entriesAfter, rfl, hidden, rfl,
      inBlock, .kv abstractsBefore, abstractsAfter⟩
  | @hash first _ _ _ nonempty rest ih | @kvHash first _ _ _ nonempty rest ih =>
    rcases List.mem_append.1 held with inBlock | later
    · -- The pair is in this node's block.
      exact ⟨[], _, _, [], _, _, rfl, rfl, rfl, inBlock, .nil, rest⟩
    · obtain ⟨before, node, after, entriesBefore, block, entriesAfter, rfl, hidden, rfl, inBlock,
        abstractsBefore, abstractsAfter⟩ := ih later fun r => unrevealed (List.mem_cons_of_mem _ r)
      exact ⟨_ :: before, node, after, first ++ entriesBefore, block, entriesAfter, rfl, hidden,
        by simp, inBlock, by constructor <;> assumption, abstractsAfter⟩

/-- `check_end_bound` after a key fails when the entries above the key start with one that is not
contiguous, or, with none above it, when the right edge is unreached. -/
theorem checkEndBound_gap {key : Key} {map : JsMap} {above : List (Key × Bool × Value)}
    (next : map.entries.rangeEntries (.excluded key) .unbounded = above)
    (gap : ∀ e ∈ above.head?, e.2.1 = false) (edge : above = [] → map.rightEdge = false) :
    checkEndBound (some key) map ≠ .ok () := by
  -- The next entry, if any, is not contiguous; without one, the edge is unreached.
  cases above with
  | nil => simp [checkEndBound, next, edge rfl]
  | cons e rest =>
    obtain ⟨k, c, v⟩ := e
    have flag : c = false := gap _ rfl
    simp [checkEndBound, next, flag]

/-- A range of a proof map holds the map's entries between its bounds, from the exact start. -/
theorem range_eq_some {map : JsMap} {a b : Key} {flat : JsFlatMap}
    (ranged : map.range a b = some flat) :
    flat = ⟨map.entries.rangeEntries (.included a) (.included b), none, some a, map⟩ := by
  -- `range` only fails by panicking.
  simp only [range, BTreeMap.range] at ranged
  split_ifs at ranged
  · cases ranged
  simp only [Option.map_some', Option.some.injEq] at ranged
  exact ranged.symm

/-- Behind a hash node hiding a key of a range whose entries all pass their checks, the pairs
revealed after the node lie above the range: the first of them is not contiguous and above the
range's start, so it would fail its check. -/
theorem beyond_of_checked {map : JsMap} {before after : List Node} {key a b : Key}
    (parts : map.entries.entries = proofEntries true before ++ proofEntries false after)
    (above : ∀ e ∈ proofEntries false after, key < e.1) (low : a ≤ key)
    (checked : ∀ e ∈ map.entries.rangeEntries (.included a) (.included b),
      JsFlatMap.checkEntry (some a) e = .ok (e.1, e.2.2)) :
    ∀ e ∈ proofEntries false after, b < e.1 := by
  cases first : proofEntries false after with
  | nil => simp
  | cons f rest =>
    -- The first pair after the node is not contiguous and past the start, so not in the range.
    obtain ⟨k, c, v⟩ := f
    have flag : c = false := proofEntries_false_head after (k, c, v) (by simp [first])
    subst flag
    have past : a < k := lt_of_le_of_lt low (above (k, false, v) (by simp [first]))
    have kBeyond : b < k := lt_of_not_le fun within =>
      JsFlatMap.checkEntry_gap (ne_of_lt past) (checked (k, false, v)
        (by simp [Bound.admitsFrom, Bound.admitsTo, parts, first, le_of_lt past, within]))
    -- The later pairs lie above the first.
    have sortedMap := map.entries.sorted
    rw [parts, first, List.pairwise_append, List.pairwise_cons] at sortedMap
    intro e mem
    rcases List.mem_cons.1 mem with rfl | mem
    · exact kBeyond
    · exact lt_trans kBeyond (sortedMap.2.1.1 e mem)

/-- Behind such a hash node, the entries above the range's last key are the pairs revealed after
the node: the last key lies before the node, and any pair between it and the node would lie in
the range above it. -/
theorem rangeEntries_after_last {map : JsMap} {before after : List Node} {key a b : Key}
    (parts : map.entries.entries = proofEntries true before ++ proofEntries false after)
    (below : ∀ e ∈ proofEntries true before, e.1 < key)
    (above : ∀ e ∈ proofEntries false after, key < e.1) (high : key ≤ b)
    (beyond : ∀ e ∈ proofEntries false after, b < e.1) {last : Key × Bool × Value}
    (found : (map.entries.rangeEntries (.included a) (.included b)).getLast? = some last) :
    map.entries.rangeEntries (.excluded last.1) .unbounded = proofEntries false after := by
  -- The last key of the range is revealed before the node.
  have lastIn := List.mem_of_getLast?_eq_some found
  simp only [BTreeMap.mem_rangeEntries, Bound.admitsFrom, Bound.admitsTo, decide_eq_true_eq]
    at lastIn
  have lastBelow : last.1 < key := by
    rcases List.mem_append.1 (parts ▸ lastIn.1) with mem | mem
    · exact below last mem
    · exact absurd lastIn.2.2 (not_le.2 (beyond last mem))
  -- Every pair after the node is above it; no pair before the node is, or it would be in range.
  rw [BTreeMap.rangeEntries, parts, List.filter_append, List.filter_eq_nil_iff.2,
    List.filter_eq_self.2, List.nil_append]
  · intro e mem
    simp only [Bound.admitsFrom, Bound.admitsTo, Bool.and_true, decide_eq_true_eq]
    exact lt_trans lastBelow (above e mem)
  · intro e mem skipped
    simp only [Bound.admitsFrom, Bound.admitsTo, Bool.and_true, decide_eq_true_eq] at skipped
    have inRange : e ∈ map.entries.rangeEntries (.included a) (.included b) := by
      simp [Bound.admitsFrom, Bound.admitsTo, parts, mem, le_trans lastIn.2.1 (le_of_lt skipped),
        le_trans (le_of_lt (below e mem)) high]
    exact absurd (BTreeMap.le_of_getLast? (map.entries.rangeEntries_sorted _ _) found inRange)
      (not_le.2 skipped)

/-- A check-passing range answer reveals every pair of the map in the range once it yields one.
A pair hidden behind a hash lies below every pair revealed after the hash and above those
revealed before it. The pairs after the hash lie above the range, so the entry after the last key
yielded is the first of them, which is not contiguous, or there is none and the right edge is
unreached: the end is unproven. -/
theorem revealed_of_checked {T : BTreeMap Key Value} {nodes : List Node}
    (abstracts : Abstracts T.entries nodes) {map : JsMap}
    (entries : map.entries.entries = proofEntries true nodes)
    (edge : map.rightEdge = (nodes.getLast?.map Node.isKV).getD true) {a b : Key}
    (checked : ∀ e ∈ map.entries.rangeEntries (.included a) (.included b),
      JsFlatMap.checkEntry (some a) e = .ok (e.1, e.2.2))
    {last : Key × Bool × Value}
    (found : (map.entries.rangeEntries (.included a) (.included b)).getLast? = some last)
    (ended : checkEndBound (some last.1) map = .ok ())
    {key : Key} {value : Value} (held : (key, value) ∈ T.entries) (low : a ≤ key)
    (high : key ≤ b) : Node.kv key value ∈ nodes := by
  by_contra unrevealed
  obtain ⟨before, node, after, entriesBefore, block, entriesAfter, rfl, hidden, split, inBlock,
    abstractsBefore, abstractsAfter⟩ := abstracts.hidden held unrevealed
  have parts : map.entries.entries = proofEntries true before ++ proofEntries false after := by
    rw [entries, proofEntries_append, proofEntries_hidden hidden]
  -- The pairs revealed before the hash are below the hidden key, and those after it above.
  have sorted := T.sorted
  rw [split, List.pairwise_append, List.pairwise_append] at sorted
  have below : ∀ e ∈ proofEntries true before, e.1 < key := fun ⟨_, _, _⟩ mem =>
    sorted.1.2.2 _ (abstractsBefore.mem (mem_proofEntries mem)) _ inBlock
  have above : ∀ e ∈ proofEntries false after, key < e.1 := fun ⟨_, _, _⟩ mem =>
    sorted.2.2 _ (List.mem_append_right _ inBlock) _ (abstractsAfter.mem (mem_proofEntries mem))
  have next := rangeEntries_after_last parts below above high
    (beyond_of_checked parts above low checked) found
  refine checkEndBound_gap next (proofEntries_false_head after) (fun noPair => ?_) ended
  rw [edge, List.getLast?_append_of_ne_nil _ (List.cons_ne_nil _ _)]
  exact last_isKV_of_hidden hidden noPair true

/-- When an abstracting proof reveals every pair of the map in a range, the pairs its built map
holds in the range are the map's pairs there, in order. -/
theorem answer_eq_rangeEntries {T : BTreeMap Key Value} {nodes : List Node}
    (abstracts : Abstracts T.entries nodes) {map : JsMap}
    (entries : map.entries.entries = proofEntries true nodes) {a b : Key}
    (revealed : ∀ key value, (key, value) ∈ T.entries → a ≤ key → key ≤ b →
      Node.kv key value ∈ nodes) :
    (map.entries.rangeEntries (.included a) (.included b)).map (fun e => (e.1, e.2.2)) =
      T.rangeEntries (.included a) (.included b) := by
  -- Both lists strictly ascend in key and hold the same pairs.
  refine BTreeMap.eq_of_sorted_of_mem_iff
    (List.pairwise_map.2 (map.entries.rangeEntries_sorted _ _)) (T.rangeEntries_sorted _ _)
    fun ⟨k, v⟩ => ?_
  simp only [List.mem_map, BTreeMap.mem_rangeEntries, Bound.admitsFrom, decide_eq_true_eq,
    Bound.admitsTo, Prod.mk.injEq, Prod.exists, exists_eq_right_right, exists_and_right,
    Bool.exists_bool, exists_eq_right, and_congr_left_iff, and_imp]
  intro low high
  -- A pair the proof reveals is the map's; a pair of the map in the range is revealed.
  rw [entries]
  constructor
  · rintro (mem | mem) <;> exact abstracts.mem (mem_proofEntries mem)
  · intro held
    obtain ⟨contiguous, mem⟩ := @exists_mem_proofEntries true _ _ _ (revealed k v held low high)
    cases contiguous
    · exact .inl mem
    · exact .inr mem

/-- A proof map's range answer omits nothing. For every map and every proof that abstracts it,
when a range from `a` to `b` yields some pairs and then ends with no error, those pairs are all of
the map's pairs between `a` and `b`, in key order: a pair behind a hash in the range is reported
as missing data. (An answer that yields nothing can still hide pairs.) -/
theorem range_answer_omits_nothing (T : BTreeMap Key Value) (nodes : List Node)
    (abstracts : Abstracts T.entries nodes) {a b : Key} {flat : JsFlatMap}
    (ranged : (JsMapBuilder.new.insertAll nodes).1.build.range a b = some flat)
    {pairs : List (Key × Value)} (nonempty : pairs ≠ [])
    (yielded : ∀ i (h : i < pairs.length), flat.call i = some (.ok pairs[i]))
    (ended : flat.call pairs.length = none) :
    pairs = T.rangeEntries (.included a) (.included b) := by
  obtain ⟨entries, edge⟩ := abstracts.built
  generalize (JsMapBuilder.new.insertAll nodes).1.build = map at entries edge ranged
  obtain ⟨checked, answered, proven⟩ := JsFlatMap.yields_then_ends yielded ended
  simp only [range_eq_some ranged] at checked answered proven
  -- The answer yields a pair, so the range has a last entry, after which the end is proven.
  obtain ⟨last, found⟩ :
      ∃ last, (map.entries.rangeEntries (.included a) (.included b)).getLast? = some last :=
    Option.ne_none_iff_exists'.1 fun noLast => nonempty (by
      rw [answered, List.getLast?_eq_none_iff.1 noLast, List.map_nil])
  rw [found] at proven
  rw [answered]
  exact answer_eq_rangeEntries abstracts entries fun _ _ held low high =>
    revealed_of_checked abstracts entries edge checked found proven held low high

/-- The proof that hides `[1]` behind a hash answers the range from `[2]` to `[3]` with both
pairs, then the end, and so with all of the map's pairs in the range. -/
theorem range_answer_omits_nothing_after_hash :
    ([([2], [2]), ([3], [3])] : List (Key × Value)) =
      (((BTreeMap.empty.insert [1] [1]).insert [2] [2]).insert [3] [3]).rangeEntries
        (.included [2]) (.included [3]) :=
  -- The proof abstracts the map with `[1]` behind the hash; both calls and the end are run.
  @range_answer_omits_nothing (((BTreeMap.empty.insert [1] [1]).insert [2] [2]).insert [3] [3])
    [.hash [], .kv [2] [2], .kv [3] [3]]
    (@Abstracts.hash [([1], [1])] [([2], [2]), ([3], [3])] _ [] (List.cons_ne_nil _ _)
      (.kv (.kv .nil)))
    [2] [3] _ rfl [([2], [2]), ([3], [3])] (List.cons_ne_nil _ _)
    (fun i h => match i, h with
      | 0, _ => rfl
      | 1, _ => rfl
      | _ + 2, h => absurd h (by simp))
    rfl

/-- A range never yields a key twice or out of order. For every map and all bounds, a pair that
a call of `next` yields has a smaller key than every pair a later call yields. -/
theorem range_yields_ascending {map : JsMap} {a b : Key} {flat : JsFlatMap}
    (ranged : map.range a b = some flat) {i j : Nat} (earlier : i < j) {p q : Key × Value}
    (first : flat.call i = some (.ok p)) (second : flat.call j = some (.ok q)) : p.1 < q.1 := by
  -- Only calls before the entries are used up yield pairs: the checked entries at their places.
  have yields : ∀ {k r}, flat.call k = some (.ok r) →
      ∃ h : k < flat.inner.length, r = (flat.inner[k].1, flat.inner[k].2.2) := by
    intro k r yielded
    by_cases inside : k < flat.inner.length
    · rw [JsFlatMap.call_of_lt k flat inside, Option.some.injEq] at yielded
      exact ⟨inside, JsFlatMap.checkEntry_ok yielded⟩
    · rw [JsFlatMap.call_of_le k flat (not_lt.1 inside)] at yielded
      exact (JsFlatMap.endOfRange_ne_ok _ _ _ yielded).elim
  obtain ⟨hi, rfl⟩ := yields first
  obtain ⟨hj, rfl⟩ := yields second
  -- The range's entries strictly ascend.
  have sorted : flat.inner.Pairwise fun e e' => e.1 < e'.1 := by
    rw [range_eq_some ranged]
    exact map.entries.rangeEntries_sorted _ _
  exact List.pairwise_iff_getElem.1 sorted i j hi hj earlier

/-- The range from `[1]` to `[2]` of the proof `[KV [1], KV [2]]` yields `[1]`, then `[2]`. -/
theorem range_yields_ascending_revealed :
    ∃ flat, (JsMapBuilder.new.insertAll [.kv [1] [1], .kv [2] [2]]).1.build.range [1] [2] =
      some flat ∧ flat.call 0 = some (.ok ([1], [1])) ∧ flat.call 1 = some (.ok ([2], [2])) ∧
      ([1] : Key) < [2] :=
  -- The first and the second call are run.
  ⟨_, rfl, rfl, rfl, @range_yields_ascending
    (JsMapBuilder.new.insertAll [.kv [1] [1], .kv [2] [2]]).1.build [1] [2] _ rfl 0 1
    Nat.zero_lt_one ([1], [1]) ([2], [2]) rfl rfl⟩

/-- A range whose entries all pass their checks, and whose end is proven after its last key,
yields its entries' pairs in order, then the end on every later call. -/
theorem range_answer_of_checked {map : JsMap} {a b : Key} (ordered : a ≤ b)
    (checked : ∀ e ∈ map.entries.rangeEntries (.included a) (.included b),
      JsFlatMap.checkEntry (some a) e = .ok (e.1, e.2.2))
    (ended : checkEndBound
      ((map.entries.rangeEntries (.included a) (.included b)).getLast?.map Prod.fst) map =
        .ok ()) :
    ∃ flat, map.range a b = some flat ∧ ∀ i, flat.call i =
      ((map.entries.rangeEntries (.included a) (.included b)).map fun e => (e.1, e.2.2))[i]?.map
        .ok := by
  -- The calls before the entries are used up pass their checks; the later ones find the end.
  refine ⟨⟨map.entries.rangeEntries (.included a) (.included b), none, some a, map⟩,
    by simp [range, BTreeMap.range, BTreeMap.rangePanics, not_lt.2 ordered], fun i => ?_⟩
  by_cases inside : i < (map.entries.rangeEntries (.included a) (.included b)).length
  · rw [JsFlatMap.call_of_lt i _ inside]
    simp [checked _ (List.getElem_mem inside), inside]
  · rw [JsFlatMap.call_of_le i _ (not_lt.1 inside), Option.or_none]
    simp [JsFlatMap.endOfRange, ended, List.getElem?_eq_none (not_lt.1 inside)]

/-- The end of a range with no key yielded asks only for the right edge. -/
theorem endOfRange_none (map : JsMap) : JsFlatMap.endOfRange none map =
    if map.rightEdge then none else some (.error "Proof is missing data for query") := by
  -- `check_end_bound` with no key reads the right edge alone.
  cases edge : map.rightEdge <;> simp [JsFlatMap.endOfRange, checkEndBound, edge]

/-- An answer with no revealed key checks only the right edge. For every proof the builder
accepts, a range from `a` to `b`, with `a ≤ b`, that holds no key the proof reveals yields on
every call the end, when the proof is empty or ends with a `Node::KV`, and otherwise the
missing-data error; `get` of a key the proof does not reveal answers that the key is absent, or
that error, on the same condition. Where the keys lie among the revealed ones is never checked. -/
theorem empty_answer_checks_only_right_edge (nodes : List Node)
    (accepted : (JsMapBuilder.new.insertAll nodes).2 = .ok ()) :
    (∀ a b, a ≤ b → (∀ key ∈ kvKeys nodes, ¬ (a ≤ key ∧ key ≤ b)) → ∃ flat,
      (JsMapBuilder.new.insertAll nodes).1.build.range a b = some flat ∧
      ∀ i, flat.call i = if nodes.getLast?.all Node.isKV then none
        else some (.error "Proof is missing data for query")) ∧
    ∀ key, key ∉ kvKeys nodes →
      (JsMapBuilder.new.insertAll nodes).1.build.get key = some (
        if nodes.getLast?.all Node.isKV then .ok none
        else .error "Proof is missing data for query") := by
  obtain ⟨entries, edge⟩ := JsMapBuilder.built_of_ok accepted
  generalize (JsMapBuilder.new.insertAll nodes).1.build = map at entries edge ⊢
  have reached : map.rightEdge = nodes.getLast?.all Node.isKV := by
    rw [edge]
    cases nodes.getLast? <;> rfl
  -- A range with no revealed key is empty, so its first call is already the end.
  have ended : ∀ a b, map.entries.rangeEntries (.included a) (.included b) = [] → ∀ i,
      (JsFlatMap.call i ⟨map.entries.rangeEntries (.included a) (.included b), none, some a,
        map⟩) = if nodes.getLast?.all Node.isKV then none
          else some (.error "Proof is missing data for query") := by
    intro a b empty i
    rw [JsFlatMap.call_of_le i _ (by simp [empty])]
    simp [empty, endOfRange_none, reached]
  refine ⟨fun a b ordered outside => ?_, fun key unrevealed => ?_⟩
  · have empty : map.entries.rangeEntries (.included a) (.included b) = [] :=
      List.filter_eq_nil_iff.2 fun ⟨k, c, v⟩ mem within => outside k
        (mem_kvKeys (mem_proofEntries (entries ▸ mem)))
        (by simpa [Bound.admitsFrom, Bound.admitsTo] using within)
    exact ⟨_, by simp [range, BTreeMap.range, BTreeMap.rangePanics, not_lt.2 ordered],
      ended a b empty⟩
  · -- The map lacks the key, so `get` answers with the first call of the range at the key.
    have absent : map.entries.get key = none := by
      simp only [BTreeMap.get, Option.map_eq_none', List.find?_eq_none, decide_eq_true_eq]
      intro ⟨k, c, v⟩ mem same
      exact unrevealed (same ▸ mem_kvKeys (mem_proofEntries (entries ▸ mem)))
    have first := ended key key (BTreeMap.rangeEntries_self_eq_nil absent) 0
    rw [JsFlatMap.call_zero] at first
    simp only [get, absent, range, BTreeMap.range, BTreeMap.rangePanics, not_lt.2 (le_refl key),
      decide_False, Bool.false_eq_true, if_false, Option.map_some', first]
    cases nodes.getLast?.all Node.isKV <;> rfl

/-- The proof that reveals `[1]` and hides what follows behind a hash ends with the hash, so it
answers with the missing-data error wherever the empty range or the absent key lies. -/
theorem empty_answer_checks_only_right_edge_hash_last :
    (∀ a b, a ≤ b → (∀ key ∈ kvKeys [.kv [1] [1], .hash []], ¬ (a ≤ key ∧ key ≤ b)) → ∃ flat,
      (JsMapBuilder.new.insertAll [.kv [1] [1], .hash []]).1.build.range a b = some flat ∧
      ∀ i, flat.call i = if [Node.kv [1] [1], .hash []].getLast?.all Node.isKV then none
        else some (.error "Proof is missing data for query")) ∧
    ∀ key, key ∉ kvKeys [.kv [1] [1], .hash []] →
      (JsMapBuilder.new.insertAll [.kv [1] [1], .hash []]).1.build.get key = some (
        if [Node.kv [1] [1], .hash []].getLast?.all Node.isKV then .ok none
        else .error "Proof is missing data for query") :=
  -- The builder accepts the proof.
  empty_answer_checks_only_right_edge [.kv [1] [1], .hash []] rfl

end JsMap

end LiftedMerk
