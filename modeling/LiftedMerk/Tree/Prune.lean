import LiftedMerk.Tree.Commit
import LiftedMerk.Tree.Load

/-! Pruning after a commit loses nothing that loading cannot bring back: a commit that prunes is the
commit that does not, with some stored links made hash-only. -/

namespace LiftedMerk

namespace Tree

/-- Marks on the links below a node, each named by the sides taken from the node to reach it:
the marks below its left link, and those below its right one. The node itself is no link. -/
def joinMarks (left right : List Bool → Bool) : List Bool → Bool
  | [] => false
  | true :: path => left path
  | false :: path => right path

/-- The marks below a link, with the link itself marked as `here` says. -/
def markLink (here : Bool) (below : List Bool → Bool) : List Bool → Bool
  | [] => here
  | side :: path => below (side :: path)

/-- Marking a link as it is already marked changes nothing. -/
theorem markLink_self (marked : List Bool → Bool) : markLink (marked []) marked = marked := by
  -- The empty path reads the mark given, and every other path is passed on.
  funext path
  cases path <;> rfl

mutual

/-- What pruning the marked links makes of a node: each marked stored link below it becomes
hash-only, with its hash, heights and key. -/
def applyPrunes (marked : List Bool → Bool) : Tree → Tree
  | mk kv left right =>
    mk kv (applyPrunesSlot (fun path => marked (true :: path)) left)
      (applyPrunesSlot (fun path => marked (false :: path)) right)

/-- What pruning the marked links makes of a slot, the link itself named by the empty path. -/
def applyPrunesSlot (marked : List Bool → Bool) : Option Link → Option Link
  | some (.stored hash childHeights tree) =>
    if marked [] then some (.pruned hash childHeights tree.key)
    else some (.stored hash childHeights (applyPrunes marked tree))
  | slot => slot

end

/-- Pruning a node prunes each side along the paths below it. -/
@[simp] theorem applyPrunes_mk (marked : List Bool → Bool) (kv : KV) (left right : Option Link) :
    applyPrunes marked (mk kv left right) =
      mk kv (applyPrunesSlot (fun path => marked (true :: path)) left)
        (applyPrunesSlot (fun path => marked (false :: path)) right) := by
  -- The defining equation, stated for `simp`.
  rw [applyPrunes]

/-- Pruning keeps the node's pair. -/
@[simp] theorem kv_applyPrunes (marked : List Bool → Bool) (tree : Tree) :
    (applyPrunes marked tree).kv = tree.kv := by
  -- Pruning rebuilds the node with its pair.
  cases tree
  simp

/-- Pruning keeps the node's key. -/
@[simp] theorem key_applyPrunes (marked : List Bool → Bool) (tree : Tree) :
    (applyPrunes marked tree).key = tree.key := by
  -- The key is the pair's.
  simp [key]

/-- Pruning a slot keeps its cached hash. -/
theorem hash_applyPrunesSlot (marked : List Bool → Bool) (slot : Option Link) :
    (applyPrunesSlot marked slot).elim (some nullHash) Link.hash =
      slot.elim (some nullHash) Link.hash := by
  -- A stored link and the hash-only link it becomes cache the same hash.
  rcases slot with _ | (_ | _ | _) <;> simp only [applyPrunesSlot]
  split <;> rfl

/-- Pruning keeps the node's hash, which reads only the cached hashes of its links. -/
theorem hash_applyPrunes (H : Hasher) (marked : List Bool → Bool) (tree : Tree) :
    (applyPrunes marked tree).hash H = tree.hash H := by
  -- The pair stays, and each side's cached hash stays.
  obtain ⟨kv, left, right⟩ := tree
  simp only [Tree.hash, childHash, applyPrunes_mk, link_mk, if_true, Bool.false_eq_true, if_false,
    hash_applyPrunesSlot, kvHash, kv_mk]

/-- Pruning an unmodified slot after the marked links below it is pruning with the link marked
too. -/
theorem pruneLink_applyPrunesSlot (marked : List Bool → Bool) {slot : Option Link}
    (clean : Unmodified slot) :
    pruneLink (applyPrunesSlot marked slot) =
      some (applyPrunesSlot (markLink true marked) slot) := by
  -- A stored link becomes hash-only under its own key either way; other slots stay.
  rcases slot with _ | (_ | _ | _)
  · rfl
  · rfl
  · exact clean.elim
  · simp only [applyPrunesSlot]
    split <;> simp [pruneLink, Link.intoPruned, markLink]

/-- The prunes of a node never read the mark of the empty path, which names no link of it. -/
@[simp] theorem applyPrunes_markLink (here : Bool) (marked : List Bool → Bool) (tree : Tree) :
    applyPrunes (markLink here marked) tree = applyPrunes marked tree := by
  -- Both sides read only the marks of nonempty paths.
  cases tree
  rfl

mutual

/-- With no marks, nothing is pruned. -/
@[simp] theorem applyPrunes_unmarked : ∀ tree : Tree, applyPrunes (fun _ => false) tree = tree
  | mk kv left right => by
    -- Neither side is pruned.
    simp only [applyPrunes_mk, applyPrunesSlot_unmarked]

/-- With no marks, no slot is pruned. -/
@[simp] theorem applyPrunesSlot_unmarked :
    ∀ slot : Option Link, applyPrunesSlot (fun _ => false) slot = slot
  | some (.stored hash childHeights tree) => by
    -- The stored link is kept, and nothing below it is pruned.
    simp only [applyPrunesSlot, Bool.false_eq_true, if_false, applyPrunes_unmarked tree]
  | none | some (.pruned ..) | some (.modified ..) => rfl

end

mutual

/-- Reloading, below a node, the hash-only links that pruning the marked links made: the first
node is the one before the pruning, the second the one after it. Each marked link is loaded, with
`Tree::load`, from a source that returns the subtree pruned there (an error would be unwrapped,
and panic), and every in-memory child is then reloaded in turn through `Tree::child_mut`. -/
def reload (debug : Bool) (marked : List Bool → Bool) : Tree → Tree → Option Tree
  | mk _ left right, tree => do
    let tree ← reloadSlot debug (fun path => marked (true :: path)) left tree true
    reloadSlot debug (fun path => marked (false :: path)) right tree false

/-- Reloading one side of a node, given the side's slot before the pruning. -/
def reloadSlot (debug : Bool) (marked : List Bool → Bool) :
    Option Link → Tree → Bool → Option Tree
  | some (.stored _ _ reference), tree, left => do
    let tree ← if marked [] then
        match tree.load debug left ⟨fun _ => .ok (applyPrunes marked reference)⟩ with
        | some (tree, .ok ()) => some tree
        | _ => none
      else some tree
    tree.childMut left (reload debug marked reference)
  | _, tree, _ => some tree

end

mutual

/-- Reloading undoes the pruning of the marked links. -/
theorem reload_applyPrunes (debug : Bool) :
    ∀ (marked : List Bool → Bool) (tree : Tree),
      reload debug marked tree (applyPrunes marked tree) = some tree
  | marked, mk kv left right => by
    -- Each side is put back as it was before the pruning, the left one first.
    have reloadLeft := reloadSlot_applyPrunesSlot debug (fun path => marked (true :: path)) left
      (applyPrunes marked (mk kv left right)) true (by simp)
    have reloadRight := reloadSlot_applyPrunesSlot debug (fun path => marked (false :: path))
      right (mk kv left (applyPrunesSlot (fun path => marked (false :: path)) right)) false
      (by simp)
    simp only [applyPrunes_mk, setLink, if_true] at reloadLeft
    simp only [setLink, Bool.false_eq_true, if_false] at reloadRight
    rw [reload, applyPrunes_mk, reloadLeft]
    exact reloadRight

/-- Reloading a side whose slot holds the pruning of `reference` puts `reference` back. -/
theorem reloadSlot_applyPrunesSlot (debug : Bool) :
    ∀ (marked : List Bool → Bool) (reference : Option Link) (tree : Tree) (left : Bool),
      tree.link left = applyPrunesSlot marked reference →
      reloadSlot debug marked reference tree left = some (tree.setLink left reference)
  | marked, some (.stored hash childHeights reference), tree, left, pruned => by
    have reloaded := reload_applyPrunes debug marked reference
    rw [reloadSlot]
    -- A marked link is loaded first, as the stored link it was; then its node is reloaded.
    cases here : marked [] <;> simp only [applyPrunesSlot, here] at pruned <;>
      simp [here, load, pruned, childMut, reloaded]
  | _, none, tree, left, pruned
  | _, some (.pruned ..), tree, left, pruned
  | _, some (.modified ..), tree, left, pruned => by
    simp only [applyPrunesSlot] at pruned
    simp [reloadSlot, ← pruned]

end

variable {σ : Type} (H : Hasher) (c : Commit σ)

/-- With writes that succeed, `writeAndPrune` prunes what the sink marks: a node whose slots are
the marked prunes of unmodified ones ends as the prunes of the node, with the sink's marks added. -/
theorem writeAndPrune_applyPrunes (writes : ∀ s tree, (c.write s tree).2 = .ok ()) (kv : KV)
    {left right : Option Link} (cleanLeft : Unmodified left) (cleanRight : Unmodified right)
    {markedLeft markedRight : List Bool → Bool} (unmarkedLeft : markedLeft [] = false)
    (unmarkedRight : markedRight [] = false) (s : σ) :
    ∃ marked s', (mk kv (applyPrunesSlot markedLeft left)
        (applyPrunesSlot markedRight right)).writeAndPrune c s =
      some (applyPrunes marked (mk kv left right), s', .ok ()) := by
  obtain ⟨s', written⟩ : ∃ s', c.write s (mk kv (applyPrunesSlot markedLeft left)
      (applyPrunesSlot markedRight right)) = (s', .ok ()) := ⟨_, Prod.ext rfl (writes _ _)⟩
  -- The marks are the sink's two decisions on top of the marks below each link.
  rcases decision : c.prune s' (mk kv (applyPrunesSlot markedLeft left)
    (applyPrunesSlot markedRight right)) with ⟨pruneLeft, pruneRight⟩
  have keepLeft : markLink false markedLeft = markedLeft := unmarkedLeft ▸ markLink_self _
  have keepRight : markLink false markedRight = markedRight := unmarkedRight ▸ markLink_self _
  refine ⟨joinMarks (markLink pruneLeft markedLeft) (markLink pruneRight markedRight), s', ?_⟩
  cases pruneLeft <;> cases pruneRight <;>
    simp [writeAndPrune, written, decision, pruneSlot, setLink, pruneLink_applyPrunesSlot,
      cleanLeft, cleanRight, joinMarks, keepLeft, keepRight]

/-- A slot that `commitSlot` settled holds no modified link. -/
theorem commitSlot_unmodified {slot slot' : Option Link} {s s' : σ}
    (committed : commitSlot H c slot s = some (slot', s', .ok ())) : Unmodified slot' := by
  -- A settled slot holds no modified link.
  have outcome := commitSlot_spec H c slot s
  rw [committed] at outcome
  exact (outcome.settled H).1.clean

mutual

/-- With writes that succeed, a commit ends as the commit with the sink that never prunes, with
the links the sink marked pruned. -/
theorem commit_applyPrunes (writes : ∀ s tree, (c.write s tree).2 = .ok ()) :
    ∀ (tree : Tree) (s : σ), ∃ tree' s' committed marked,
      tree.commit H c s = some (tree', s', .ok ()) ∧
      tree.commit H noopCommit () = some (committed, (), .ok ()) ∧
      tree' = applyPrunes marked committed
  | mk kv left right, s => by
    -- Both slots are settled as without pruning, up to the prunes below their links.
    obtain ⟨_, s₁, left', markedLeft, committedLeft, noopLeft, rfl, unmarkedLeft⟩ :=
      commitSlot_applyPrunesSlot writes left s
    obtain ⟨_, s₂, right', markedRight, committedRight, noopRight, rfl, unmarkedRight⟩ :=
      commitSlot_applyPrunesSlot writes right s₁
    -- Then the node is written, and the sink's decisions add the marks on its two links.
    obtain ⟨marked, s₃, done⟩ := writeAndPrune_applyPrunes c writes kv
      (commitSlot_unmodified H _ noopLeft) (commitSlot_unmodified H _ noopRight) unmarkedLeft
      unmarkedRight s₂
    refine ⟨applyPrunes marked (mk kv left' right'), s₃, mk kv left' right', marked, ?_, ?_,
      rfl⟩
    · rw [commit, committedLeft]
      simp [committedRight, done]
    · rw [commit, noopLeft]
      simp only [Option.some_bind, noopRight]
      rfl

/-- With writes that succeed, settling a slot ends as settling it with the sink that never
prunes, with the links the sink marked below the slot's own link pruned. -/
theorem commitSlot_applyPrunesSlot (writes : ∀ s tree, (c.write s tree).2 = .ok ()) :
    ∀ (slot : Option Link) (s : σ), ∃ slot' s' committed marked,
      commitSlot H c slot s = some (slot', s', .ok ()) ∧
      commitSlot H noopCommit slot () = some (committed, (), .ok ()) ∧
      slot' = applyPrunesSlot marked committed ∧ marked [] = false
  | some (.modified _ childHeights tree), s => by
    -- The child commits as without pruning, and its hash is the same either way.
    obtain ⟨_, s', committed, marked, committedTree, noopTree, rfl⟩ :=
      commit_applyPrunes writes tree s
    have outcome := commit_spec H noopCommit tree ()
    rw [noopTree] at outcome
    obtain ⟨hash, hashed⟩ := outcome.hash_isSome
    refine ⟨some (.stored hash childHeights (applyPrunes marked committed)), s',
      some (.stored hash childHeights committed), markLink false marked, ?_, ?_,
      by simp [applyPrunesSlot, markLink], rfl⟩
    · rw [commitSlot, committedTree]
      simp [hash_applyPrunes, hashed]
    · rw [commitSlot, noopTree]
      simp [hashed]
  | none, s =>
    ⟨none, s, none, fun _ => false, by simp [commitSlot], by simp [commitSlot], rfl, rfl⟩
  | some (.pruned hash childHeights key), s =>
    ⟨some (.pruned hash childHeights key), s, some (.pruned hash childHeights key),
      fun _ => false, by simp [commitSlot],
      by simp [commitSlot], rfl, rfl⟩
  | some (.stored hash childHeights tree), s =>
    ⟨some (.stored hash childHeights tree), s, some (.stored hash childHeights tree),
      fun _ => false, by simp [commitSlot],
      by simp [commitSlot], by simp, rfl⟩

end

/-- Pruning is invisible up to reloading. With a sink whose writes succeed, whatever it decides to
prune, the commit succeeds and ends as the commit with the sink that never prunes, except that the
links the sink pruned are hash-only. Loading each of them again, from a source that returns the
subtree pruned there, and reloading the loaded nodes in turn gives back the commit without pruning:
the same keys, values, hashes, heights and link states. The root's hash is the same either way. -/
theorem commit_pruning_reloads (writes : ∀ s tree, (c.write s tree).2 = .ok ()) (tree : Tree)
    (s : σ) (debug : Bool) :
    ∃ tree' s' committed marked,
      tree.commit H c s = some (tree', s', .ok ()) ∧
      tree.commit H noopCommit () = some (committed, (), .ok ()) ∧
      tree' = applyPrunes marked committed ∧
      reload debug marked committed tree' = some committed ∧
      tree'.hash H = committed.hash H := by
  -- The commit is the pruning of the one without pruning, and reloading undoes pruning.
  obtain ⟨_, s', committed, marked, pruning, noop, rfl⟩ := commit_applyPrunes H c writes tree s
  exact ⟨_, s', committed, marked, pruning, noop, rfl, reload_applyPrunes debug marked committed,
    hash_applyPrunes H marked committed⟩

/-- The pruning theorem applies to a node with a modified child, committed by a sink that prunes
both sides of every node it writes. -/
theorem commit_pruning_reloads_child :
    ∃ tree' s' committed marked,
      (mk ⟨[0], [0], []⟩ (some (.modified 1 (0, 0) (mk ⟨[1], [1], []⟩ none none)))
          none).commit concatHasher ⟨fun s _ => (s, .ok ()), fun _ _ => (true, true)⟩ () =
        some (tree', s', .ok ()) ∧
      (mk ⟨[0], [0], []⟩ (some (.modified 1 (0, 0) (mk ⟨[1], [1], []⟩ none none)))
          none).commit concatHasher noopCommit () = some (committed, (), .ok ()) ∧
      tree' = applyPrunes marked committed ∧
      reload true marked committed tree' = some committed ∧
      tree'.hash concatHasher = committed.hash concatHasher :=
  -- Every write succeeds, and both the root's and the child's sides are pruned.
  commit_pruning_reloads concatHasher ⟨fun s _ => (s, .ok ()), fun _ _ => (true, true)⟩
    (fun _ _ => rfl) _ () true

end Tree

end LiftedMerk
