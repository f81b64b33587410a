import LiftedMerk.Map.Completeness

/-! Which proofs answer a range with no error. The answer checks a gap before each non-contiguous
entry past the range's start, and one just after the last key yielded. A gap that no revealed key
above `b` closes off lies inside the range, so a proof in which every hash node is below the start
or above the end, with the end proven, is answered with all of its pairs in the range. -/

namespace LiftedMerk

namespace JsMap

/-- No hash node of a proof can hide a key from `a` to `b`, counting `b` itself: after each one
the first key revealed is at most `a`, or before it the last key revealed is above `b`. -/
abbrev HidesNoKeyStrictly (a b : Key) (nodes : List Node) : Prop :=
  HidesNoKeyBy (· < ·) a b nodes

/-- A key that `Option.any` finds is the option's value. -/
theorem exists_of_any {key? : Option Key} {p : Key → Bool} (holds : key?.any p = true) :
    ∃ key, key? = some key ∧ p key = true := by
  -- `none` satisfies no `any`.
  cases key? with
  | none => cases holds
  | some key => exact ⟨key, rfl, holds⟩

/-- `check_end_bound` after a key passes when the entry above the key is contiguous, or, with
none above it, when the right edge is reached. -/
theorem checkEndBound_of_next {key : Key} {map : JsMap}
    (next : ∀ e ∈ (map.entries.rangeEntries (.excluded key) .unbounded).head?, e.2.1 = true)
    (edge : map.entries.rangeEntries (.excluded key) .unbounded = [] → map.rightEdge = true) :
    checkEndBound (some key) map = .ok () := by
  -- The entry above the key, if any, is the one `check_end_bound` reads.
  cases above : map.entries.rangeEntries (.excluded key) .unbounded with
  | nil => simp [checkEndBound, above, edge above]
  | cons e rest =>
    obtain ⟨k, c, v⟩ := e
    have contiguous : c = true := next (k, c, v) (by simp [above])
    simp [checkEndBound, above, contiguous]

section Gaps

variable {nodes : List Node} {map : JsMap} (entries : map.entries.entries = proofEntries true nodes)
  (ascending : (kvKeys nodes).Pairwise (· < ·)) {a b : Key}
  (hidesNothing : HidesNoKeyStrictly a b nodes)

include entries

/-- Every key the proof reveals is that of an entry of the map. -/
theorem exists_entry_of_revealed {key : Key} (revealed : key ∈ kvKeys nodes) :
    ∃ e ∈ map.entries.entries, e.1 = key := by
  -- The key's `Node::KV` gives an entry.
  obtain ⟨value, mem⟩ := exists_of_mem_kvKeys revealed
  obtain ⟨contiguous, found⟩ := @exists_mem_proofEntries true _ _ _ mem
  exact ⟨_, entries ▸ found, rfl⟩

include hidesNothing

/-- A right edge left unreached is closed off by a revealed key above `b`. -/
theorem edge_closed_above (edge : map.rightEdge = (nodes.getLast?.map Node.isKV).getD true)
    (unreached : map.rightEdge = false) : ∃ g ∈ map.entries.entries, b < g.1 := by
  -- The proof ends with a node that reveals no pair.
  obtain ⟨node, last⟩ : ∃ node, nodes.getLast? = some node := by
    cases found : nodes.getLast? with
    | none => simp [found, unreached] at edge
    | some node => exact ⟨node, rfl⟩
  have hidden : node.isKV = false := by simpa [last, unreached] using edge.symm
  obtain ⟨before, split⟩ := List.getLast?_eq_some_iff.1 last
  rcases hidesNothing.at_split split hidden with first | last
  · simp [kvKeys] at first
  · obtain ⟨k, found, above⟩ := exists_of_any last
    have revealed : k ∈ kvKeys nodes := by
      rw [split, kvKeys_append]
      exact List.mem_append_left _ (List.mem_of_getLast?_eq_some found)
    obtain ⟨g, memG, rfl⟩ := exists_entry_of_revealed entries revealed
    exact ⟨g, memG, by simpa using above⟩

include ascending

/-- A gap above the range's start is closed off by a revealed key above `b`, below the gap's
entry. -/
theorem gap_closed_above {e : Key × Bool × Value} (mem : e ∈ map.entries.entries)
    (gap : e.2.1 = false) (past : a < e.1) :
    ∃ g ∈ map.entries.entries, b < g.1 ∧ g.1 < e.1 := by
  obtain ⟨key, contiguous, value⟩ := e
  cases gap
  rcases proofEntries_gap (entries ▸ mem) with ⟨⟨⟩, -⟩ | ⟨before, node, after, split, hidden⟩
  rcases hidesNothing.at_split split hidden with first | last
  · -- The first key after the hash is this entry's, above the start.
    simp only [kvKeys_kv, List.head?_cons, Option.any_some, decide_eq_true_eq] at first
    exact absurd first (not_le.2 past)
  · -- The last key before the hash is above `b`, and below this entry's key.
    obtain ⟨k, found, above⟩ := exists_of_any last
    have revealed : k ∈ kvKeys before := List.mem_of_getLast?_eq_some found
    rw [split, kvKeys_append] at ascending
    have below : k < key := (List.pairwise_append.1 ascending).2.2 k revealed key
      (by rw [kvKeys_hidden hidden]; exact List.mem_cons_self _ _)
    obtain ⟨g, memG, rfl⟩ := exists_entry_of_revealed entries
      (by rw [split, kvKeys_append]; exact List.mem_append_left _ revealed)
    exact ⟨g, memG, by simpa using above, below⟩

/-- Every entry of the range passes its check: a gap past the range's start would need a
revealed key above `b` below it. -/
theorem checkEntry_of_hiding_nothing {e : Key × Bool × Value}
    (mem : e ∈ map.entries.rangeEntries (.included a) (.included b)) :
    JsFlatMap.checkEntry (some a) e = .ok (e.1, e.2.2) := by
  obtain ⟨key, contiguous, value⟩ := e
  simp only [BTreeMap.mem_rangeEntries, Bound.admitsFrom, Bound.admitsTo, decide_eq_true_eq] at mem
  obtain ⟨memE, low, high⟩ := mem
  cases contiguous
  · -- A gap is the exact start, or closed off by a key above `b` below the entry.
    rcases eq_or_lt_of_le low with start | past
    · simp [JsFlatMap.checkEntry, start]
    · obtain ⟨g, -, above, below⟩ := gap_closed_above entries ascending hidesNothing memE rfl past
      exact absurd (lt_trans above below) (not_lt.2 high)
  · simp [JsFlatMap.checkEntry]

/-- After the last key of the range the end is proven: the entry above it is no gap, and with
none above it the right edge is reached, since a key above `b` would lie above it. -/
theorem checkEndBound_of_hiding_nothing
    (reached : map.rightEdge = (nodes.getLast?.map Node.isKV).getD true)
    {last : Key × Bool × Value}
    (found : (map.entries.rangeEntries (.included a) (.included b)).getLast? = some last) :
    checkEndBound (some last.1) map = .ok () := by
  have lastIn := List.mem_of_getLast?_eq_some found
  simp only [BTreeMap.mem_rangeEntries, Bound.admitsFrom, Bound.admitsTo, decide_eq_true_eq]
    at lastIn
  have aboveLast : ∀ g ∈ map.entries.entries, b < g.1 →
      g ∈ map.entries.rangeEntries (.excluded last.1) .unbounded := fun g memG above => by
    simpa [Bound.admitsFrom, Bound.admitsTo, memG] using lt_of_le_of_lt lastIn.2.2 above
  refine checkEndBound_of_next (fun f first => ?_) (fun empty => ?_)
  · -- The entry above the last key is no gap: a key above `b` would lie below it.
    have memF := List.mem_of_mem_head? first
    simp only [BTreeMap.mem_rangeEntries, Bound.admitsFrom, Bound.admitsTo, decide_eq_true_eq,
      and_true] at memF
    by_contra gap
    obtain ⟨g, memG, above, below⟩ := gap_closed_above entries ascending hidesNothing memF.1
      (by simpa using gap) (lt_of_le_of_lt lastIn.2.1 memF.2)
    exact absurd (BTreeMap.le_of_head? (map.entries.rangeEntries_sorted _ _) first
      (aboveLast g memG above)) (not_le.2 below)
  · -- Nothing lies above the last key, so no key above `b` closes off an unreached edge.
    by_contra unreached
    obtain ⟨g, memG, above⟩ :=
      edge_closed_above entries hidesNothing reached (by simpa using unreached)
    exact absurd (aboveLast g memG above) (by simp [empty])

/-- The end of the range is proven after its last key, or, with no key in it, by the right edge,
which a proof that reveals no key of the range and ends with a `Node::KV` reaches. -/
theorem rangeEnd_of_hiding_nothing
    (reached : map.rightEdge = (nodes.getLast?.map Node.isKV).getD true)
    (edge : nodes.getLast?.all Node.isKV ∨ ∃ key ∈ kvKeys nodes, a ≤ key ∧ key ≤ b) :
    checkEndBound
      ((map.entries.rangeEntries (.included a) (.included b)).getLast?.map Prod.fst) map =
        .ok () := by
  cases found : (map.entries.rangeEntries (.included a) (.included b)).getLast? with
  | some last => exact checkEndBound_of_hiding_nothing entries ascending hidesNothing reached found
  | none =>
    -- No key is in the range, so none is revealed there and the proof ends with a `Node::KV`.
    have edgeReached : map.rightEdge = true := by
      rcases edge with last | ⟨key, revealed, low, high⟩
      · rw [reached]
        revert last
        cases nodes.getLast? <;> simp
      · obtain ⟨e, memE, rfl⟩ := exists_entry_of_revealed entries revealed
        have inRange : e ∈ map.entries.rangeEntries (.included a) (.included b) := by
          simp [Bound.admitsFrom, Bound.admitsTo, memE, low, high]
        simp [List.getLast?_eq_none_iff.1 found] at inRange
    simp [checkEndBound, edgeReached]

end Gaps

/-- A proof that no hash node can hide a key of a range answers the range with no error. For
every proof the builder accepts and all `a ≤ b`, when after each hash node the first key revealed
is at most `a` or before it the last key revealed is above `b`, and the proof ends with a
`Node::KV` or reveals a key from `a` to `b`, the range yields every pair the proof reveals from
`a` to `b`, in key order, and then the end on every later call. -/
theorem range_complete_of_hiding_nothing (nodes : List Node)
    (accepted : (JsMapBuilder.new.insertAll nodes).2 = .ok ()) {a b : Key} (ordered : a ≤ b)
    (hidesNothing : HidesNoKeyStrictly a b nodes)
    (edge : nodes.getLast?.all Node.isKV ∨ ∃ key ∈ kvKeys nodes, a ≤ key ∧ key ≤ b) :
    ∃ flat, (JsMapBuilder.new.insertAll nodes).1.build.range a b = some flat ∧
      ∀ i, flat.call i = (((JsMapBuilder.new.insertAll nodes).1.build.entries.rangeEntries
        (.included a) (.included b)).map fun e => (e.1, e.2.2))[i]?.map .ok := by
  -- The builder records the proof's entries, whose revealed keys ascend.
  obtain ⟨entries, reached⟩ := JsMapBuilder.built_of_ok accepted
  have ascending : (kvKeys nodes).Pairwise (· < ·) := List.chain'_iff_pairwise.1 (by
    simpa [JsMapBuilder.new, BTreeMap.lastKeyValue, BTreeMap.empty] using
      (JsMapBuilder.insertAll_spec nodes JsMapBuilder.new).1.1 accepted)
  generalize (JsMapBuilder.new.insertAll nodes).1.build = map at entries reached ⊢
  exact range_answer_of_checked ordered
    (fun _ mem => checkEntry_of_hiding_nothing entries ascending hidesNothing mem)
    (rangeEnd_of_hiding_nothing entries ascending hidesNothing reached edge)

/-- The proof `[KV [1], KV [2], KV [3], Hash]` hides no key from `[1]` to `[2]`, with `[3]` above
the end, so the range from `[1]` to `[2]` yields both pairs, then the end. -/
theorem range_complete_of_hiding_nothing_past_end :
    ∃ flat, (JsMapBuilder.new.insertAll
        [.kv [1] [1], .kv [2] [2], .kv [3] [3], .hash []]).1.build.range [1] [2] = some flat ∧
      ∀ i, flat.call i = (((JsMapBuilder.new.insertAll
        [.kv [1] [1], .kv [2] [2], .kv [3] [3], .hash []]).1.build.entries.rangeEntries
          (.included [1]) (.included [2])).map fun e => (e.1, e.2.2))[i]?.map .ok :=
  -- The only hash node follows `[3]`, above the end; `[1]` is revealed in the range.
  range_complete_of_hiding_nothing [.kv [1] [1], .kv [2] [2], .kv [3] [3], .hash []] rfl
    (by decide) (by decide) (.inr ⟨[1], by decide, by decide, by decide⟩)

/-- With no hash node hiding a key of the range, an abstracting proof reveals every pair of the
map in the range: a hidden one would lie behind a hash whose first key after it is above the
pair, and whose last key before it is below the pair. -/
theorem revealed_of_hiding_nothing {T : BTreeMap Key Value} {nodes : List Node}
    (abstracts : Abstracts T.entries nodes) {a b : Key}
    (hidesNothing : HidesNoKeyStrictly a b nodes) {key : Key} {value : Value}
    (held : (key, value) ∈ T.entries) (low : a ≤ key) (high : key ≤ b) :
    Node.kv key value ∈ nodes := by
  by_contra unrevealed
  obtain ⟨before, node, after, entriesBefore, block, entriesAfter, split, hidden, entries, inBlock,
    abstractsBefore, abstractsAfter⟩ := abstracts.hidden held unrevealed
  have sorted := T.sorted
  rw [entries, List.pairwise_append, List.pairwise_append] at sorted
  rcases hidesNothing.at_split split hidden with first | last
  · -- The first key after the hash is above the hidden key, so above `a`.
    obtain ⟨k, found, atMost⟩ := exists_of_any first
    obtain ⟨v, mem⟩ := exists_of_mem_kvKeys (List.mem_of_mem_head? found)
    have above : key < k :=
      sorted.2.2 _ (List.mem_append_right _ inBlock) _ (abstractsAfter.mem mem)
    exact absurd (lt_of_lt_of_le above (by simpa using atMost)) (not_lt.2 low)
  · -- The last key before the hash is below the hidden key, so below `b`.
    obtain ⟨k, found, beyond⟩ := exists_of_any last
    obtain ⟨v, mem⟩ := exists_of_mem_kvKeys (List.mem_of_getLast?_eq_some found)
    have below : k < key := sorted.1.2.2 _ (abstractsBefore.mem mem) _ inBlock
    exact absurd (lt_trans (by simpa using beyond) below) (not_lt.2 high)

/-- A proof that abstracts a map and keeps its hash nodes off a range answers the range with the
map's pairs there. For every map and every proof that abstracts it, and all `a ≤ b`, when no hash
node can hide a key from `a` to `b` and the proof ends with a `Node::KV` or reveals a key from
`a` to `b`, the range yields the map's pairs from `a` to `b` in key order, then the end on every
later call: no error, and no pair left out or made up. -/
theorem abstracting_proof_answers_range (T : BTreeMap Key Value) (nodes : List Node)
    (abstracts : Abstracts T.entries nodes) {a b : Key} (ordered : a ≤ b)
    (hidesNothing : HidesNoKeyStrictly a b nodes)
    (edge : nodes.getLast?.all Node.isKV ∨ ∃ key ∈ kvKeys nodes, a ≤ key ∧ key ≤ b) :
    ∃ flat, (JsMapBuilder.new.insertAll nodes).1.build.range a b = some flat ∧
      ∀ i, flat.call i = (T.rangeEntries (.included a) (.included b))[i]?.map .ok := by
  obtain ⟨entries, reached⟩ := abstracts.built
  have ascending : (kvKeys nodes).Pairwise (· < ·) :=
    (List.pairwise_map.2 T.sorted).sublist abstracts.kvKeys_sublist
  generalize (JsMapBuilder.new.insertAll nodes).1.build = map at entries reached ⊢
  -- The proof's pairs in the range are the map's, and the range is answered with them.
  rw [← answer_eq_rangeEntries abstracts entries fun _ _ held low high =>
    revealed_of_hiding_nothing abstracts hidesNothing held low high]
  exact range_answer_of_checked ordered
    (fun _ mem => checkEntry_of_hiding_nothing entries ascending hidesNothing mem)
    (rangeEnd_of_hiding_nothing entries ascending hidesNothing reached edge)

/-- The proof that hides `[4]` behind a hash answers the range from `[1]` to `[2]` with the map's
two pairs there. -/
theorem abstracting_proof_answers_range_hidden_above :
    ∃ flat, (JsMapBuilder.new.insertAll
        [.kv [1] [1], .kv [2] [2], .kv [3] [3], .hash []]).1.build.range [1] [2] = some flat ∧
      ∀ i, flat.call i = (((((BTreeMap.empty.insert [1] [1]).insert [2] [2]).insert [3] [3]).insert
        [4] [4]).rangeEntries (.included [1]) (.included [2]))[i]?.map .ok :=
  -- The hash node stands for the block holding `[4]`, after `[3]`, above the end.
  abstracting_proof_answers_range _ [.kv [1] [1], .kv [2] [2], .kv [3] [3], .hash []]
    (.kv (.kv (.kv (@Abstracts.hash [([4], [4])] [] _ [] (List.cons_ne_nil _ _) .nil))))
    (by decide) (by decide) (.inr ⟨[1], by decide, by decide, by decide⟩)

end JsMap

end LiftedMerk
