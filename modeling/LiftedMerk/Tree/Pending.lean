import LiftedMerk.Tree.Reachable
import LiftedMerk.Tree.Writes

/-! Modified links count the writes that committing their child takes, and the counts stay right in
every reachable tree whose sources return nodes with right counts. -/

namespace LiftedMerk

namespace Tree

variable (H : Hasher)

mutual

/-- Every modified link of the tree, also below a stored link, carries the number of nodes that a
commit of its child writes: those reached from the child through modified links. -/
def PendingCounted : Tree → Prop
  | mk _ left right => SlotPendingCounted left ∧ SlotPendingCounted right

/-- The link in a slot, if modified, counts its child's writes, and so on down. -/
def SlotPendingCounted : Option Link → Prop
  | some (.modified pendingWrites _ tree) =>
    pendingWrites = (dirty tree).length ∧ PendingCounted tree
  | some (.stored _ _ tree) => PendingCounted tree
  | _ => True

end

/-- The nodes a source may return for a hash-only link: nodes whose modified links count their
writes. A node decoded from storage has no modified link, so it is one of them. -/
def PendingTrusted (_ : Link) (fetched : Tree) : Prop := PendingCounted fetched

variable {H}

/-- Each slot of a counted node is counted. -/
theorem PendingCounted.slot {tree : Tree} (counted : PendingCounted tree) (left : Bool) :
    SlotPendingCounted (tree.link left) := by
  -- The property of the node is that of both its slots.
  obtain ⟨kv, leftSlot, rightSlot⟩ := tree
  cases left
  · exact counted.2
  · exact counted.1

/-- A child in memory under a counted slot is counted. -/
theorem SlotPendingCounted.child {slot : Option Link} {child : Tree}
    (counted : SlotPendingCounted slot) (found : slot.bind Link.tree = some child) :
    PendingCounted child := by
  -- Only a modified or a stored link has a child in memory.
  rcases slot with _ | (_ | _ | _) <;> simp [Link.tree] at found <;> subst found
  · exact counted.2
  · exact counted

/-- In a counted node, `child_pending_writes` is the number of writes below the side's slot. -/
theorem PendingCounted.childPendingWrites_eq {tree : Tree} (counted : PendingCounted tree)
    (left : Bool) : tree.childPendingWrites left = (dirtySlot (tree.link left)).length := by
  have countedSlot := counted.slot left
  unfold childPendingWrites
  generalize tree.link left = slot at countedSlot ⊢
  -- A modified link carries its child's count; every other slot counts and writes nothing.
  rcases slot with _ | (_ | _ | _) <;> simp [dirtySlot, SlotPendingCounted] at countedSlot ⊢
  exact countedSlot.1

/-- The modified link `attach` makes for a counted child counts the child's writes: its own, and
those of the modified links below it. -/
theorem fromModifiedTree_counted {child : Tree} (counted : PendingCounted child) :
    SlotPendingCounted (some (Link.fromModifiedTree child)) := by
  -- One write for the child, and those its two sides count.
  refine ⟨?_, counted⟩
  obtain ⟨kv, left, right⟩ := child
  simp only [Link.fromModifiedTree, counted.childPendingWrites_eq, dirty, link_mk, if_true,
    Bool.false_eq_true, if_false, List.length_append, List.length_singleton]
  omega

mutual

/-- A commit keeps the counts right: it stores every child it commits, and a stored child keeps
the counts it had. -/
theorem Committed.pendingCounted : ∀ {tree tree' : Tree}, Committed H tree tree' →
    PendingCounted tree → PendingCounted tree'
  | mk _ _ _, mk _ _ _, committed, counted =>
    -- Both slots are settled.
    ⟨committed.2.1.slotPendingCounted counted.1, committed.2.2.slotPendingCounted counted.2⟩

/-- Settling a slot keeps its counts right. -/
theorem Settled.slotPendingCounted : ∀ {slot slot' : Option Link}, Settled H slot slot' →
    SlotPendingCounted slot → SlotPendingCounted slot'
  | some (.modified _ _ _), _, settled, counted => by
    -- The committed child is stored, and keeps the counts its own links had.
    obtain ⟨tree', hash, committed, -, rfl | rfl⟩ := settled
    · exact committed.pendingCounted counted.2
    · trivial
  | some (.stored _ _ _), _, settled, counted => by
    -- A stored link stays as it was or loses its node.
    rcases settled with rfl | rfl
    · exact counted
    · trivial
  | some (.pruned _ _ _), _, settled, _ | none, _, settled, _ => by cases settled; trivial

end

/-- Counted slots are an invariant of the trees reachable with sources that return counted
nodes. -/
theorem slotInvariant_pendingCounted :
    SlotInvariant H PendingTrusted PendingCounted SlotPendingCounted where
  -- `attach` counts the child's writes, and a trusted node is counted.
  slots := Iff.rfl
  empty := trivial
  settle := fun settled counted => settled.slotPendingCounted counted
  attach := fromModifiedTree_counted
  child := fun counted found => counted.child found
  load := fun trusted => trusted

/-- Every reachable tree whose sources return counted nodes is counted. -/
theorem Reachable.pendingCounted {tree : Tree} (reach : Reachable H PendingTrusted tree) :
    PendingCounted tree :=
  -- The run lemma for the invariant of slots.
  reach.invariant slotInvariant_pendingCounted

mutual

/-- Every node in memory in a counted tree is counted. -/
theorem PendingCounted.of_mem_nodes : ∀ {tree node : Tree}, PendingCounted tree →
    node ∈ tree.nodes → PendingCounted node
  | mk _ _ _, _, counted, found => by
    -- The node is the root or lies below one of its sides.
    simp only [nodes, List.mem_cons, List.mem_append] at found
    rcases found with rfl | found | found
    · exact counted
    · exact SlotPendingCounted.of_mem_slotNodes counted.1 found
    · exact SlotPendingCounted.of_mem_slotNodes counted.2 found

/-- Every node in memory below a counted slot is counted. -/
theorem SlotPendingCounted.of_mem_slotNodes : ∀ {slot : Option Link} {node : Tree},
    SlotPendingCounted slot → node ∈ slotNodes slot → PendingCounted node
  -- Only a link with its node in memory has nodes below it.
  | some (.modified _ _ _), _, counted, found => PendingCounted.of_mem_nodes counted.2 found
  | some (.stored _ _ _), _, counted, found => PendingCounted.of_mem_nodes counted found
  | some (.pruned _ _ _), _, _, found => by simp [slotNodes] at found
  | none, _, _, found => by simp [slotNodes] at found

end

/-- The pending-writes counts are right when sources return nodes with right counts. In every
node in memory of a reachable tree, a modified link's `child_pending_writes` is the number of nodes
reached from its child through modified links, the child included; and committing the child with
a sink whose writes succeed calls `write` exactly that many times. -/
theorem reachable_pending_writes_counted {tree node : Tree}
    (reach : Reachable H PendingTrusted tree) (found : node ∈ tree.nodes) {left : Bool}
    {pendingWrites : Nat} {childHeights : UInt8 × UInt8} {child : Tree}
    (linked : node.link left = some (.modified pendingWrites childHeights child))
    {σ : Type} (c : Commit σ) (writes : ∀ s node, (c.write s node).2 = .ok ()) (s : σ) :
    node.childPendingWrites left = (dirty child).length ∧
      ∃ child' s' written,
        child.commit H c.logged (s, []) = some (child', (s', written), .ok ()) ∧
        written.length = node.childPendingWrites left := by
  have counted : node.childPendingWrites left = (dirty child).length := by
    rw [(reach.pendingCounted.of_mem_nodes found).childPendingWrites_eq, linked]
    rfl
  -- The logged commit of the child records one write per node of `dirty`.
  obtain ⟨child', s', written, -, logged, dirtyChild, -⟩ := commit_logged H c writes child s []
  refine ⟨counted, child', s', written, by simpa using logged, ?_⟩
  rw [counted, ← dirtyChild, List.length_map]

/-- A node with a new child attached is reachable, and its modified link counts one write. -/
theorem reachable_pending_writes_counted_attached :
    ((Tree.new concatHasher [0] [0]).setLink true
        (Link.maybeFromModifiedTree (some (Tree.new concatHasher [1] [1])))).childPendingWrites
        true = (dirty (Tree.new concatHasher [1] [1])).length ∧
      ∃ child' s' written,
        (Tree.new concatHasher [1] [1]).commit concatHasher noopCommit.logged ((), []) =
          some (child', (s', written), .ok ()) ∧
        written.length = ((Tree.new concatHasher [0] [0]).setLink true
          (Link.maybeFromModifiedTree (some (Tree.new concatHasher [1] [1])))).childPendingWrites
          true :=
  -- The root reached by one attach, and its left link; the sink writes nothing.
  @reachable_pending_writes_counted concatHasher _ _
    (@Reachable.attach concatHasher PendingTrusted _ _ true (some (Tree.new concatHasher [1] [1]))
      false (.new [0] [0]) (fun _ found => by cases found; exact .new [1] [1]) rfl)
    (List.mem_cons_self _ _) true _ _ (Tree.new concatHasher [1] [1]) rfl _ noopCommit
    (fun _ _ => rfl) ()

/-- A source that returns a node with a miscounted modified link breaks the counts. The root's
left child is committed and pruned, then loaded from a source that returns a node whose modified
link counts five writes over a single new node, which a commit writes once. -/
theorem pending_writes_miscounted_for_unchecked_source :
    ¬ ∀ tree node, Reachable concatHasher (fun _ _ => True) tree → node ∈ tree.nodes →
      ∀ left pendingWrites childHeights child,
        node.link left = some (.modified pendingWrites childHeights child) →
        node.childPendingWrites left = (dirty child).length := by
  intro allCounted
  -- Attach a child, commit with the root's left link pruned, and load it again.
  let pruneRoot : Commit Unit := ⟨fun s _ => (s, .ok ()), fun _ tree => (tree.key = [0], false)⟩
  let leaf := Tree.new concatHasher [2] [2]
  let fetched : Tree := mk ⟨[1], [1], []⟩ (some (.modified 5 (0, 0) leaf)) none
  have root := @Reachable.attach concatHasher (fun _ _ => True) _ _ true
    (some (Tree.new concatHasher [1] [1])) false (.new [0] [0])
    (fun _ found => by cases found; exact .new [1] [1]) rfl
  have committed := @Reachable.commit _ _ Unit _ _ () _ _ pruneRoot root rfl
  have loaded := @Reachable.load _ _ _ _ true _ _ false ⟨fun _ => .ok fetched⟩ committed rfl
    (fun _ _ => trivial) rfl
  -- The fetched node is in memory under the root, and its count is not its child's one write.
  exact absurd (allCounted _ fetched loaded (.tail _ (.head _)) true 5 (0, 0) leaf rfl)
    (by decide)

end Tree

end LiftedMerk
