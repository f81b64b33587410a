import LiftedMerk.Tree.Reachable
import Mathlib.Data.Nat.Defs

/-! Links cache their children's heights, and stay right in every reachable tree whose sources
return nodes with right heights. -/

namespace LiftedMerk

namespace Tree

variable (H : Hasher)

mutual

/-- Every link of the tree with a child in memory caches that child's `child_heights()`. -/
def HeightsCached : Tree → Prop
  | mk _ left right => SlotHeightsCached left ∧ SlotHeightsCached right

/-- The link in a slot, if its child is in memory, caches the child's heights, and so on down. -/
def SlotHeightsCached : Option Link → Prop
  | some (.modified _ childHeights tree) | some (.stored _ childHeights tree) =>
    childHeights = tree.childHeights ∧ HeightsCached tree
  | _ => True

end

mutual

/-- The height computed down the tree in natural numbers, where a hash-only link counts one more
than the taller of the heights it caches: the number of levels, with no `u8` bound. -/
def recHeight : Tree → Nat
  | mk _ left right => 1 + max (slotRecHeight left) (slotRecHeight right)

/-- The height of one side, computed down the tree. -/
def slotRecHeight : Option Link → Nat
  | none => 0
  | some (.pruned _ childHeights _) => 1 + max childHeights.1.toNat childHeights.2.toNat
  | some (.modified _ _ tree) | some (.stored _ _ tree) => recHeight tree

end

/-- The nodes a source may return for a hash-only link: nodes whose links cache their heights and
whose own child heights are the link's. -/
def HeightsTrusted (link : Link) (fetched : Tree) : Prop :=
  HeightsCached fetched ∧ fetched.childHeights = link.childHeights

/-- The nodes a source may return for a hash-only link when only their child heights are
checked. -/
def ChildHeightsTrusted (link : Link) (fetched : Tree) : Prop :=
  fetched.childHeights = link.childHeights

variable {H}

/-- Each slot of a node with cached heights has them. -/
theorem HeightsCached.slot {tree : Tree} (cached : HeightsCached tree) (left : Bool) :
    SlotHeightsCached (tree.link left) := by
  -- The property of the node is that of both its slots.
  obtain ⟨kv, leftSlot, rightSlot⟩ := tree
  cases left
  · exact cached.2
  · exact cached.1

/-- A child in memory under a slot with cached heights has them. -/
theorem SlotHeightsCached.child {slot : Option Link} {child : Tree}
    (cached : SlotHeightsCached slot) (found : slot.bind Link.tree = some child) :
    HeightsCached child := by
  -- Only a modified or a stored link has a child in memory.
  rcases slot with _ | (_ | _ | _) <;> simp [Link.tree] at found <;> subst found
  · exact cached.2
  · exact cached.2

/-- Settling a slot keeps the heights its link caches. -/
theorem Settled.childHeights_eq {slot slot' : Option Link} (settled : Settled H slot slot') :
    slot'.map Link.childHeights = slot.map Link.childHeights := by
  -- Every settled form keeps the link's cached heights.
  rcases slot with _ | (_ | _ | _) <;> simp only [Settled] at settled
  · subst settled; rfl
  · subst settled; rfl
  · obtain ⟨_, _, _, _, rfl | rfl⟩ := settled <;> rfl
  · rcases settled with rfl | rfl <;> rfl

/-- A commit keeps a node's child heights. -/
theorem Committed.childHeights_eq {tree tree' : Tree} (committed : Committed H tree tree') :
    tree'.childHeights = tree.childHeights := by
  obtain ⟨kv, left, right⟩ := tree
  obtain ⟨kv', left', right'⟩ := tree'
  have leftHeights := committed.2.1.childHeights_eq
  have rightHeights := committed.2.2.childHeights_eq
  -- Each child height is read from the link's cached heights, which settling keeps.
  rcases left with _ | left <;> rcases left' with _ | left' <;> simp at leftHeights <;>
    rcases right with _ | right <;> rcases right' with _ | right' <;> simp at rightHeights <;>
    simp [childHeights, childHeight, Link.height, leftHeights, rightHeights]

mutual

/-- A commit keeps the cached heights right: each link it settles keeps the heights of a child
whose own heights the commit keeps. -/
theorem Committed.heightsCached : ∀ {tree tree' : Tree}, Committed H tree tree' →
    HeightsCached tree → HeightsCached tree'
  | mk _ _ _, mk _ _ _, committed, cached =>
    -- Both slots are settled.
    ⟨committed.2.1.slotHeightsCached cached.1, committed.2.2.slotHeightsCached cached.2⟩

/-- Settling a slot keeps its cached heights right. -/
theorem Settled.slotHeightsCached : ∀ {slot slot' : Option Link}, Settled H slot slot' →
    SlotHeightsCached slot → SlotHeightsCached slot'
  | some (.modified _ _ _), _, settled, cached => by
    -- The committed child keeps its child heights, which the link cached before.
    obtain ⟨tree', hash, committed, -, rfl | rfl⟩ := settled
    · exact ⟨cached.1.trans committed.childHeights_eq.symm, committed.heightsCached cached.2⟩
    · trivial
  | some (.stored _ _ _), _, settled, cached => by
    -- A stored link stays as it was or loses its node.
    rcases settled with rfl | rfl
    · exact cached
    · trivial
  | some (.pruned _ _ _), _, settled, _ | none, _, settled, _ => by cases settled; trivial

end

/-- Cached heights are an invariant of the trees reachable with sources that return nodes with
right heights. -/
theorem slotInvariant_heightsCached :
    SlotInvariant H HeightsTrusted HeightsCached SlotHeightsCached where
  -- `attach` caches the child's own heights, and a trusted node has the link's.
  slots := Iff.rfl
  empty := trivial
  settle := fun settled cached => settled.slotHeightsCached cached
  attach := fun cached => ⟨rfl, cached⟩
  child := fun cached found => cached.child found
  load := fun ⟨cachedFetched, heights⟩ => ⟨heights.symm, cachedFetched⟩

/-- Every reachable tree whose sources return nodes with right heights has its heights cached. -/
theorem Reachable.heightsCached {tree : Tree} (reach : Reachable H HeightsTrusted tree) :
    HeightsCached tree :=
  -- The run lemma for the invariant of slots.
  reach.invariant slotInvariant_heightsCached

/-- With cached heights, a side's cached height is its child's height. -/
theorem HeightsCached.childHeight_eq {tree child : Tree} (cached : HeightsCached tree)
    {left : Bool} (found : tree.child left = some child) :
    tree.childHeight left = child.height := by
  have cachedSlot := cached.slot left
  unfold Tree.child at found
  unfold childHeight
  generalize tree.link left = slot at found cachedSlot ⊢
  -- The link's height is one more than the taller of the heights it caches, the child's own.
  rcases slot with _ | (_ | _ | _) <;> simp [Link.tree] at found <;> subst found <;>
    simp only [Option.elim_some, Link.height, Link.childHeights, cachedSlot.1, height, childHeights]

/-- `1 + max a b` in `u8` is the sum in natural numbers modulo 256. -/
theorem one_add_max_toNat_mod (a b : UInt8) :
    (1 + max a b).toNat = (1 + max a.toNat b.toNat) % 256 := by
  -- `u8`'s `max` is the maximum of the values, and `u8` addition wraps.
  have le : a ≤ b ↔ a.toNat ≤ b.toNat := BitVec.le_def
  have taller : (max a b).toNat = max a.toNat b.toNat := by
    show (if a ≤ b then b else a).toNat = _
    simp only [le]
    split <;> omega
  show (1 + (max a b).toBitVec).toNat = _
  rw [BitVec.toNat_add]
  show (1 + (max a b).toNat) % 256 = _
  rw [taller]

/-- `1 + max a b` in `u8` is the sum in natural numbers while that stays below 256. -/
theorem one_add_max_toNat {a b : UInt8} (low : 1 + max a.toNat b.toNat < 256) :
    (1 + max a b).toNat = 1 + max a.toNat b.toNat :=
  -- The sum does not wrap.
  (one_add_max_toNat_mod a b).trans (Nat.mod_eq_of_lt low)

mutual

/-- With cached heights, `Tree::height` is the height computed down to the hash-only links, while
that is below 256. -/
theorem HeightsCached.height_toNat : ∀ {tree : Tree}, HeightsCached tree →
    recHeight tree < 256 → tree.height.toNat = recHeight tree
  | mk _ left right, cached, low => by
    simp only [recHeight] at low
    -- Each side is below 255 levels, so its cached height is its height, and the sum is exact.
    have leftHeight := SlotHeightsCached.height_toNat cached.1 (by omega)
    have rightHeight := SlotHeightsCached.height_toNat cached.2 (by omega)
    simp only [height, childHeight, link_mk, if_true, Bool.false_eq_true, if_false]
    rw [one_add_max_toNat (by omega), leftHeight, rightHeight, recHeight]

/-- With cached heights, a slot's cached height is the height computed down from it, while that is
below 256. -/
theorem SlotHeightsCached.height_toNat : ∀ {slot : Option Link}, SlotHeightsCached slot →
    slotRecHeight slot < 256 → (slot.elim 0 Link.height).toNat = slotRecHeight slot
  | none, _, _ => rfl
  | some (.pruned _ _ _), _, low => one_add_max_toNat low
  | some (.modified _ _ tree), cached, low | some (.stored _ _ tree), cached, low => by
    -- The cached heights are the child's, so the link's height is the child's height.
    simp only [Option.elim_some, Link.height, Link.childHeights, slotRecHeight, cached.1] at low ⊢
    exact HeightsCached.height_toNat cached.2 low

end

/-- Cached heights stay coherent when sources return nodes whose links cache their heights and
whose child heights are the link's. Every link with a child in memory caches that child's child
heights, so a side's child height is its child's height. The node's height is the number of levels
down to the hash-only links exactly when that is below 256: a taller tree's `u8` addition
overflows. -/
theorem reachable_heights_cached {tree : Tree} (reach : Reachable H HeightsTrusted tree) :
    HeightsCached tree ∧
      (∀ left child, tree.child left = some child → tree.childHeight left = child.height) ∧
      (tree.height.toNat = recHeight tree ↔ recHeight tree < 256) := by
  have cached := reach.heightsCached
  refine ⟨cached, fun _ _ found => cached.childHeight_eq found, fun exact => ?_,
    cached.height_toNat⟩
  -- A `u8` holds no value from 256 up.
  exact exact ▸ tree.height.toNat_lt_size

/-- The height theorem applies to the three-node tree once a commit has stored its two children,
two levels tall. -/
theorem reachable_heights_cached_committed :
    ∃ tree, (threeNodes concatHasher).commit concatHasher noopCommit () = some (tree, (), .ok ()) ∧
      recHeight tree = 2 ∧ HeightsCached tree ∧
      (∀ left child, tree.child left = some child → tree.childHeight left = child.height) ∧
      (tree.height.toNat = recHeight tree ↔ recHeight tree < 256) :=
  -- The tree is reached by two attaches and a commit that stores both leaves.
  ⟨_, rfl, rfl, reachable_heights_cached
    (@Reachable.commit concatHasher HeightsTrusted Unit _ _ () () (.ok ()) noopCommit
      reachable_threeNodes rfl)⟩

/-- A source checked only for the child heights breaks the cache. It returns, for a hash-only
link caching `(1, 0)`, a node whose left link caches `(0, 0)` over a node with a left child. -/
theorem heights_not_cached_for_unchecked_source :
    ¬ ∀ tree, Reachable concatHasher ChildHeightsTrusted tree → HeightsCached tree := by
  intro allCached
  -- A chain of three nodes, committed with the root's left link pruned, then loaded again.
  let pruneRoot : Commit Unit := ⟨fun s _ => (s, .ok ()), fun _ tree => (tree.key = [0], false)⟩
  let fetched : Tree := mk ⟨[1], [1], []⟩ (some (.stored [] (0, 0)
    (mk ⟨[3], [3], []⟩ (some (.stored [] (0, 0) (mk ⟨[4], [4], []⟩ none none))) none))) none
  let leaf := Tree.new concatHasher [2] [2]
  let child := (Tree.new concatHasher [1] [1]).setLink true (Link.maybeFromModifiedTree (some leaf))
  have reachChild : Reachable concatHasher ChildHeightsTrusted child :=
    @Reachable.attach _ _ _ child true (some leaf) false (.new [1] [1])
      (fun _ found => by cases found; exact .new [2] [2]) rfl
  have root := @Reachable.attach concatHasher ChildHeightsTrusted _ _ true (some child) false
    (.new [0] [0]) (fun _ found => by cases found; exact reachChild) rfl
  have committed := @Reachable.commit _ _ Unit _ _ () _ _ pruneRoot root rfl
  have loaded := @Reachable.load _ _ _ _ true _ _ false ⟨fun _ => .ok fetched⟩ committed rfl
    (fun _ ok => by cases ok; rfl) rfl
  -- The fetched node's left link caches `(0, 0)`, but the node under it has a left child.
  exact absurd (allCached _ loaded).1.2.1.1 (by decide)

end Tree

end LiftedMerk
