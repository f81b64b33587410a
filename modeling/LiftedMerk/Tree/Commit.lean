import LiftedMerk.Tree.Ops

/-! Committing a tree: children first, then the node's write, then the sink's pruning. -/

namespace LiftedMerk

/-- Modelled from the spec: the `Commit` trait is not in the source. A sink with state `σ`:
`write` persists a node and may fail, and `prune` names the sides whose just-written child
leaves memory. -/
structure Commit (σ : Type) where
  /-- `Commit::write`. -/
  write : σ → Tree → σ × Except Error Unit
  /-- `Commit::prune`, as `(prune_left, prune_right)`. -/
  prune : σ → Tree → Bool × Bool

/-- Modelled from the spec: `NoopCommit`, which writes nothing and never prunes. -/
def noopCommit : Commit Unit := ⟨fun s _ => (s, .ok ()), fun _ _ => (false, false)⟩

namespace Tree

variable {σ : Type} (H : Hasher) (c : Commit σ)

/-- What pruning makes of a slot, `slot.take().map(|link| link.into_pruned())`. -/
def pruneLink : Option Link → Option (Option Link)
  | none => some none
  | some link => link.intoPruned.map some

/-- Pruning one side of the node after its write. -/
def pruneSlot (tree : Tree) (left : Bool) : Option Tree :=
  (pruneLink (tree.link left)).map (tree.setLink left)

/-- The end of `Tree::commit`, once both slots are settled: the write, then the pruning. -/
def writeAndPrune (tree : Tree) (s : σ) : Option (Tree × σ × Except Error Unit) :=
  match c.write s tree with
  | (s, .error err) => some (tree, s, .error err)
  | (s, .ok ()) => do
    let (pruneLeft, pruneRight) := c.prune s tree
    let tree ← if pruneLeft then tree.pruneSlot true else some tree
    let tree ← if pruneRight then tree.pruneSlot false else some tree
    return (tree, s, .ok ())

mutual

/-- `Tree::commit`: settles the left slot, then the right one, then writes and prunes. The node is
returned as it stands afterwards, also when a write failed; a panic is `none`. -/
def commit : Tree → σ → Option (Tree × σ × Except Error Unit)
  | mk kv left right, s =>
    (commitSlot left s).bind fun (left, s, result) =>
      match result with
      | .error err => some (mk kv left right, s, .error err)
      | .ok () =>
        (commitSlot right s).bind fun (right, s, result) =>
          match result with
          | .error err => some (mk kv left right, s, .error err)
          | .ok () => (mk kv left right).writeAndPrune c s

/-- One side of `Tree::commit`: a modified child is taken out of its slot and committed, then
stored with its new hash. A child whose commit fails is not put back. -/
def commitSlot : Option Link → σ → Option (Option Link × σ × Except Error Unit)
  | some (.modified _ childHeights tree), s =>
    (tree.commit s).bind fun (tree, s, result) =>
      match result with
      | .error err => some (none, s, .error err)
      | .ok () => (tree.hash H).map fun hash => (some (.stored hash childHeights tree), s, .ok ())
  | slot, s => some (slot, s, .ok ())

end

end Tree

end LiftedMerk

namespace LiftedMerk

namespace Tree

variable {σ : Type} (H : Hasher) (c : Commit σ)

mutual

/-- What a successful commit makes of a node: its pair stays, and both slots are settled. -/
def Committed : Tree → Tree → Prop
  | mk kv left right, mk kv' left' right' =>
    kv' = kv ∧ Settled left left' ∧ Settled right right'

/-- What a successful commit makes of a slot. A modified child is committed and linked by its new
hash, stored or pruned; a stored child may be pruned; any other slot stays as it was. -/
def Settled : Option Link → Option Link → Prop
  | some (.modified _ childHeights tree), slot =>
    ∃ tree' hash, Committed tree tree' ∧ tree'.hash H = some hash ∧
      (slot = some (.stored hash childHeights tree') ∨
        slot = some (.pruned hash childHeights tree.key))
  | some (.stored hash childHeights tree), slot =>
    slot = some (.stored hash childHeights tree) ∨
      slot = some (.pruned hash childHeights tree.key)
  | slot, slot' => slot' = slot

end

/-- What `commitSlot` makes of a slot when it succeeds: a modified child committed and stored. -/
def SlotCommitted : Option Link → Option Link → Prop
  | some (.modified _ childHeights tree), slot =>
    ∃ tree' hash, Committed H tree tree' ∧ tree'.hash H = some hash ∧
      slot = some (.stored hash childHeights tree')
  | slot, slot' => slot' = slot

/-- What a failed commit leaves of a node: its pair, and each slot as it was, settled, or emptied
where a child's commit failed. -/
def Aborted : Tree → Tree → Prop
  | mk kv left right, mk kv' left' right' =>
    kv' = kv ∧ (left' = left ∨ Settled H left left' ∨ left' = none) ∧
      (right' = right ∨ Settled H right right' ∨ right' = none)

/-- The outcomes `commit` can have on a node: never a panic, the node committed on success, and
aborted on failure. -/
def CommitOutcome (tree : Tree) : Option (Tree × σ × Except Error Unit) → Prop
  | none => False
  | some (tree', _, .ok ()) => Committed H tree tree'
  | some (tree', _, .error _) => Aborted H tree tree'

/-- The outcomes `commitSlot` can have: never a panic, the slot committed on success, and emptied
on failure. -/
def SlotOutcome (slot : Option Link) : Option (Option Link × σ × Except Error Unit) → Prop
  | none => False
  | some (slot', _, .ok ()) => SlotCommitted H slot slot'
  | some (slot', _, .error _) => slot' = none

/-- A slot is empty, hash-only or stored: it holds no modified link. -/
def Unmodified : Option Link → Prop
  | some (.modified ..) => False
  | _ => True

/-- A node whose slots hold no modified link has a hash. -/
theorem hash_isSome_of_clean {kv : KV} {left right : Option Link} (cleanLeft : Unmodified left)
    (cleanRight : Unmodified right) : ∃ hash, (mk kv left right).hash H = some hash := by
  -- Each side's cached hash exists, so the node's hash is computed.
  rcases left with _ | (_ | _ | _) <;> rcases right with _ | (_ | _ | _) <;>
    simp_all [Unmodified, Tree.hash, childHash, Link.hash]

/-- A committed node keeps its pair. -/
theorem Committed.kv_eq {tree tree' : Tree} (committed : Committed H tree tree') :
    tree'.kv = tree.kv := by
  -- The pair is the first thing `Committed` records.
  cases tree; cases tree'
  exact committed.1

/-- A settled slot holds no modified link. -/
theorem Settled.clean {slot slot' : Option Link} (settled : Settled H slot slot') :
    Unmodified slot' := by
  -- Every settled form is empty, hash-only or stored.
  rcases slot with _ | (_ | _ | _) <;> simp only [Settled] at settled
  · subst settled; trivial
  · subst settled; trivial
  · obtain ⟨_, _, _, _, rfl | rfl⟩ := settled <;> trivial
  · rcases settled with rfl | rfl <;> trivial

/-- A failed commit keeps every property of slots that settling keeps and an empty slot has: each
slot is kept, settled or emptied. -/
theorem Aborted.slots {P : Option Link → Prop}
    (settle : ∀ {slot slot'}, Settled H slot slot' → P slot → P slot') (empty : P none)
    {kv kv' : KV} {left right left' right' : Option Link}
    (aborted : Aborted H (mk kv left right) (mk kv' left' right')) (holdsLeft : P left)
    (holdsRight : P right) : P left' ∧ P right' := by
  -- Each of the three things a failed commit can leave in a slot keeps the property.
  have keep : ∀ {slot slot'}, (slot' = slot ∨ Settled H slot slot' ∨ slot' = none) → P slot →
      P slot' := by
    rintro slot slot' (rfl | settled | rfl) holds
    · exact holds
    · exact settle settled holds
    · exact empty
  exact ⟨keep aborted.2.1 holdsLeft, keep aborted.2.2 holdsRight⟩

/-- A committed node has a hash. -/
theorem Committed.hash_isSome {tree tree' : Tree} (committed : Committed H tree tree') :
    ∃ hash, tree'.hash H = some hash := by
  -- Both slots are settled, so neither is modified.
  obtain ⟨kv, left, right⟩ := tree
  obtain ⟨kv', left', right'⟩ := tree'
  exact hash_isSome_of_clean H committed.2.1.clean committed.2.2.clean

/-- A slot `commitSlot` committed is settled, and so is what pruning makes of it. -/
theorem SlotCommitted.settled {slot slot' : Option Link} (committed : SlotCommitted H slot slot') :
    Settled H slot slot' ∧
      ∃ pruned, pruneLink slot' = some pruned ∧ Settled H slot pruned := by
  -- A stored link prunes to a hash-only one with the same hash, heights and key.
  rcases slot with _ | (_ | _ | _) <;> simp only [SlotCommitted] at committed
  · subst committed; simp [Settled, pruneLink]
  · subst committed; simp [Settled, pruneLink, Link.intoPruned]
  · obtain ⟨tree', hash, committed, hashed, rfl⟩ := committed
    refine ⟨⟨tree', hash, committed, hashed, .inl rfl⟩, _, rfl, tree', hash, committed,
      hashed, ?_⟩
    simp [Link.intoPruned, key, committed.kv_eq]
  · subst committed; simp [Settled, pruneLink, Link.intoPruned]

/-- Writing and pruning a node whose slots `commitSlot` committed ends as a commit outcome. -/
theorem writeAndPrune_spec {kv : KV} {left right left' right' : Option Link}
    (committedLeft : SlotCommitted H left left') (committedRight : SlotCommitted H right right')
    (s : σ) : CommitOutcome H (mk kv left right) ((mk kv left' right').writeAndPrune c s) := by
  obtain ⟨settledLeft, prunedLeft, pruneLeft, settledPrunedLeft⟩ := committedLeft.settled
  obtain ⟨settledRight, prunedRight, pruneRight, settledPrunedRight⟩ := committedRight.settled
  unfold writeAndPrune
  -- A failed write leaves both slots settled; a successful one prunes the sides asked for.
  rcases c.write s (mk kv left' right') with ⟨s', _ | ⟨⟩⟩
  · exact ⟨rfl, .inr (.inl settledLeft), .inr (.inl settledRight)⟩
  · rcases decision : c.prune s' (mk kv left' right') with ⟨_ | _, _ | _⟩ <;>
      simp [decision, pruneSlot, setLink, pruneLeft, pruneRight, CommitOutcome, Committed, *]

mutual

/-- `commit` never panics, commits the node when it succeeds, and aborts it when it fails. -/
theorem commit_spec : ∀ (tree : Tree) (s : σ), CommitOutcome H tree (tree.commit H c s)
  | mk kv left right, s => by
    have leftOutcome := commitSlot_spec left s
    rw [commit]
    -- The left slot first: a failure there ends the commit with the right slot untouched.
    rcases hl : commitSlot H c left s with _ | ⟨left', s₁, _ | ⟨⟩⟩ <;>
      simp only [hl, SlotOutcome, Option.some_bind] at leftOutcome ⊢
    · exact ⟨rfl, .inr (.inr leftOutcome), .inl rfl⟩
    have rightOutcome := commitSlot_spec right s₁
    -- Then the right slot, with the left one already settled.
    rcases hr : commitSlot H c right s₁ with _ | ⟨right', s₂, _ | ⟨⟩⟩ <;>
      simp only [hr, SlotOutcome, Option.some_bind] at rightOutcome ⊢
    · exact ⟨rfl, .inr (.inl (leftOutcome.settled H).1), .inr (.inr rightOutcome)⟩
    · exact writeAndPrune_spec H c leftOutcome rightOutcome s₂

/-- `commitSlot` never panics, commits a modified child when it succeeds, and empties the slot
when it fails. -/
theorem commitSlot_spec : ∀ (slot : Option Link) (s : σ),
    SlotOutcome H slot (commitSlot H c slot s)
  | some (.modified _ childHeights tree), s => by
    have treeOutcome := commit_spec tree s
    rw [commitSlot]
    -- A child that commits is clean, so its new hash exists and it is stored under it.
    rcases ht : tree.commit H c s with _ | ⟨tree', s', _ | ⟨⟩⟩ <;>
      simp only [ht, CommitOutcome] at treeOutcome
    · rfl
    · obtain ⟨hash, hashed⟩ := treeOutcome.hash_isSome
      simp only [ht, hashed, Option.some_bind, Option.map_some', SlotOutcome, SlotCommitted]
      exact ⟨tree', hash, treeOutcome, hashed, rfl⟩
  | none, s => by simp [commitSlot, SlotOutcome, SlotCommitted]
  | some (.pruned ..), s => by simp [commitSlot, SlotOutcome, SlotCommitted]
  | some (.stored ..), s => by simp [commitSlot, SlotOutcome, SlotCommitted]

end

/-- `commit` never panics: no modified link's hash is read and no modified link is pruned. -/
theorem commit_isSome (tree : Tree) (s : σ) : ∃ outcome, tree.commit H c s = some outcome := by
  -- A panic is the one outcome `commit_spec` rules out.
  have outcome := commit_spec H c tree s
  revert outcome
  cases tree.commit H c s <;> simp [CommitOutcome]

end Tree

end LiftedMerk
