import LiftedMerk.Tree.Heights
import Mathlib.Data.Nat.Fib.Basic
import Mathlib.Tactic.NormNum.NatFib

/-! Heights stay far inside `u8` and `i8` in AVL-shaped trees that fit in memory: an AVL tree of
height `h` has at least `fib (h + 2) - 1` nodes, so one with fewer than `2 ^ 64` is at most 92
levels tall. -/

namespace LiftedMerk

namespace Tree

/-- Every side of the node that has a link has its child in memory. -/
def ChildrenLoaded (tree : Tree) : Prop :=
  ∀ left, (tree.child left).isSome = (tree.link left).isSome

/-- Fully in memory: no node in memory has a hash-only link. -/
def InMemory (tree : Tree) : Prop := ∀ node ∈ tree.nodes, node.ChildrenLoaded

/-- The node's child heights, as `child_height` reads them from the links, differ by at most
`slack`. -/
def BalancedWithin (tree : Tree) (slack : Nat) : Prop :=
  (tree.childHeight true).toNat ≤ (tree.childHeight false).toNat + slack ∧
    (tree.childHeight false).toNat ≤ (tree.childHeight true).toNat + slack

/-- AVL-shaped as between two rebalancing steps: every node below the root is balanced within
one, and the root within two. -/
def AvlShaped (tree : Tree) : Prop :=
  tree.BalancedWithin 2 ∧ ∀ node ∈ tree.nodes.tail, node.BalancedWithin 1

/-- The node's height and balance factor are computed without overflow: the height is at most
92 and one more than the taller child, and the balance factor is the difference of the child
heights. -/
def HeightsInRange (tree : Tree) : Prop :=
  tree.height.toNat ≤ 92 ∧
    tree.height.toNat = 1 + max (tree.childHeight true).toNat (tree.childHeight false).toNat ∧
    tree.balanceFactor.toInt = (tree.childHeight false).toNat - (tree.childHeight true).toNat

/-- Whether a node's children are loaded is decided side by side. -/
instance (tree : Tree) : Decidable tree.ChildrenLoaded :=
  inferInstanceAs (Decidable (∀ _, _ = _))

/-- Whether a tree is in memory is decided node by node. -/
instance (tree : Tree) : Decidable tree.InMemory :=
  inferInstanceAs (Decidable (∀ node ∈ tree.nodes, _))

/-- Balance is a comparison of the two child heights. -/
instance (tree : Tree) (slack : Nat) : Decidable (tree.BalancedWithin slack) :=
  inferInstanceAs (Decidable (_ ∧ _))

/-- AVL shape is decided at the root and at every node below it. -/
instance (tree : Tree) : Decidable tree.AvlShaped :=
  inferInstanceAs (Decidable (_ ∧ ∀ node ∈ tree.nodes.tail, _))

/-- `Tree::height` adds without overflow when both child heights are below 255. -/
theorem height_toNat {tree : Tree} (leftLow : (tree.childHeight true).toNat < 255)
    (rightLow : (tree.childHeight false).toNat < 255) :
    tree.height.toNat = 1 + max (tree.childHeight true).toNat (tree.childHeight false).toNat :=
  -- The sum stays below 256.
  one_add_max_toNat (by omega)

/-- `Tree::balance_factor`'s casts to `i8` and its `i8` subtraction are exact when both child
heights are below 128. -/
theorem balanceFactor_toInt {tree : Tree} (leftLow : (tree.childHeight true).toNat < 128)
    (rightLow : (tree.childHeight false).toNat < 128) :
    tree.balanceFactor.toInt = (tree.childHeight false).toNat - (tree.childHeight true).toNat := by
  unfold balanceFactor
  generalize tree.childHeight true = leftHeight at *
  generalize tree.childHeight false = rightHeight at *
  -- Both casts keep their value, and the difference lies within `i8`'s range.
  have leftLow : leftHeight.toBitVec.toNat < 128 := leftLow
  have rightLow : rightHeight.toBitVec.toNat < 128 := rightLow
  show (rightHeight.toBitVec - leftHeight.toBitVec).toInt =
    (rightHeight.toBitVec.toNat : Int) - leftHeight.toBitVec.toNat
  rw [BitVec.toInt_eq_toNat_cond, BitVec.toNat_sub]
  split <;> omega

/-- A node whose children are below 92 levels computes its height and balance factor without
overflow. -/
theorem heightsInRange_of_lt {tree : Tree} (leftLow : (tree.childHeight true).toNat < 92)
    (rightLow : (tree.childHeight false).toNat < 92) : tree.HeightsInRange := by
  -- Below 92 levels both the `u8` sum and the `i8` casts are exact.
  have height := height_toNat (by omega : (tree.childHeight true).toNat < 255) (by omega)
  exact ⟨by omega, height, balanceFactor_toInt (by omega) (by omega)⟩

/-- The AVL step: a node whose children differ in height by at most one, each with at least
`fib (h + 2) - 1` nodes for its height `h`, has at least that many for its own height. -/
theorem fib_height_le_of_balanced {leftHeight rightHeight leftSize rightSize : Nat}
    (leftBalanced : leftHeight ≤ rightHeight + 1) (rightBalanced : rightHeight ≤ leftHeight + 1)
    (leftBound : Nat.fib (leftHeight + 2) ≤ leftSize + 1)
    (rightBound : Nat.fib (rightHeight + 2) ≤ rightSize + 1) :
    Nat.fib (1 + max leftHeight rightHeight + 2) ≤ 1 + leftSize + rightSize + 1 := by
  -- By symmetry the right child is the taller.
  wlog taller : leftHeight ≤ rightHeight generalizing leftHeight rightHeight leftSize rightSize
  · have swapped := this rightBalanced leftBalanced rightBound leftBound (by omega)
    rw [max_comm] at swapped
    omega
  -- The taller child gives `fib (h + 1)`, and the other at least `fib h`.
  calc Nat.fib (1 + max leftHeight rightHeight + 2)
      = Nat.fib (rightHeight + 2) + Nat.fib (rightHeight + 1) := by
        rw [max_eq_right taller, add_comm 1, Nat.fib_add_two, add_comm]
    _ ≤ (rightSize + 1) + Nat.fib (leftHeight + 2) :=
        add_le_add rightBound (Nat.fib_mono (by omega))
    _ ≤ 1 + leftSize + rightSize + 1 := by omega

/-- A height whose AVL node count fits below `2 ^ 64` is below 92: `fib 94` exceeds `2 ^ 64`. -/
theorem height_lt_of_fib_le {height : Nat} (bound : Nat.fib (height + 2) ≤ 2 ^ 64) :
    height < 92 := by
  -- A taller tree would need at least `fib 94 - 1` nodes.
  by_contra! tall
  have big : 2 ^ 64 < Nat.fib 94 := by norm_num
  exact absurd (big.trans_le ((Nat.fib_mono (by omega)).trans bound)) (lt_irrefl _)

mutual

/-- In a subtree fully in memory with cached heights, whose every node below the root is balanced
within one and which has fewer than `2 ^ 64` nodes, every node computes its heights without
overflow; and if the root too is balanced within one, it is below 92 levels, with at least
`fib (h + 2) - 1` nodes for its height `h`. -/
theorem HeightsCached.heightsInRange : ∀ {tree : Tree}, HeightsCached tree →
    InMemory tree → (∀ node ∈ tree.nodes.tail, node.BalancedWithin 1) →
    tree.nodes.length < 2 ^ 64 →
    (∀ node ∈ tree.nodes, node.HeightsInRange) ∧
      (tree.BalancedWithin 1 →
        tree.height.toNat < 92 ∧ Nat.fib (tree.height.toNat + 2) ≤ tree.nodes.length + 1)
  | mk kv left right, cached, loaded, balanced, fits => by
    have size : (mk kv left right).nodes.length =
        1 + (slotNodes left).length + (slotNodes right).length := by
      simp only [nodes, List.length_cons, List.length_append]
      omega
    -- Each side first, with the nodes below it.
    obtain ⟨leftLow, leftBound, leftInRange⟩ := SlotHeightsCached.heightsInRange cached.1
      (loaded _ (List.mem_cons_self _ _) true)
      (fun node found => loaded node (List.mem_cons_of_mem _ (List.mem_append_left _ found)))
      (fun node found => balanced node (List.mem_append_left _ found)) (by omega)
    obtain ⟨rightLow, rightBound, rightInRange⟩ := SlotHeightsCached.heightsInRange cached.2
      (loaded _ (List.mem_cons_self _ _) false)
      (fun node found => loaded node (List.mem_cons_of_mem _ (List.mem_append_right _ found)))
      (fun node found => balanced node (List.mem_append_right _ found)) (by omega)
    -- Then the root, whose children are below 92 levels.
    have rootInRange : (mk kv left right).HeightsInRange := heightsInRange_of_lt leftLow rightLow
    refine ⟨fun node found => ?_, fun rootBalanced => ?_⟩
    · simp only [nodes, List.mem_cons, List.mem_append] at found
      rcases found with rfl | found | found
      · exact rootInRange
      · exact leftInRange node found
      · exact rightInRange node found
    · -- A root within one of balance has the AVL node count for its height.
      have bound := fib_height_le_of_balanced rootBalanced.1 rootBalanced.2 leftBound rightBound
      rw [← rootInRange.2.1, ← size] at bound
      exact ⟨height_lt_of_fib_le (bound.trans (by omega)), bound⟩

/-- The same for the subtree below a loaded slot, whose every node is balanced within one: the
side's height is below 92, with at least `fib (h + 2) - 1` nodes below the slot. -/
theorem SlotHeightsCached.heightsInRange : ∀ {slot : Option Link}, SlotHeightsCached slot →
    (slot.bind Link.tree).isSome = slot.isSome → (∀ node ∈ slotNodes slot, node.ChildrenLoaded) →
    (∀ node ∈ slotNodes slot, node.BalancedWithin 1) → (slotNodes slot).length < 2 ^ 64 →
    (slot.elim 0 Link.height).toNat < 92 ∧
      Nat.fib ((slot.elim 0 Link.height).toNat + 2) ≤ (slotNodes slot).length + 1 ∧
      ∀ node ∈ slotNodes slot, node.HeightsInRange
  | none, _, _, _, _, _ => ⟨by decide, by simp [slotNodes], by simp [slotNodes]⟩
  | some (.pruned _ _ _), _, loaded, _, _, _ => by simp [Link.tree] at loaded
  | some (.modified _ childHeights tree), cached, _, loaded, balanced, fits
  | some (.stored _ childHeights tree), cached, _, loaded, balanced, fits => by
    -- The link caches the child's heights, so its height is the child's.
    have linkHeight : (1 + max childHeights.1 childHeights.2 : UInt8) = tree.height := by
      rw [cached.1]
      rfl
    simp only [Option.elim_some, Link.height, Link.childHeights, linkHeight]
    obtain ⟨inRange, rooted⟩ := HeightsCached.heightsInRange cached.2 loaded
      (fun node found => balanced node (List.mem_of_mem_tail found)) fits
    exact ⟨(rooted (balanced tree (mem_nodes_self tree))).1,
      (rooted (balanced tree (mem_nodes_self tree))).2, inRange⟩

end

/-- Heights stay in range in AVL-shaped trees that fit in memory and whose links cache their
children's heights, as those of every reachable tree do. In a fully in-memory tree with fewer than
`2 ^ 64` nodes, every node below the root balanced within one and the root within two, every
node's height is at most 92, below 128: `height()`'s `u8` addition never overflows, and
`balance_factor()`'s casts to `i8` and `i8` subtraction give exactly the right child height less
the left one. -/
theorem avl_heights_in_range {tree node : Tree} (cached : HeightsCached tree)
    (inMemory : InMemory tree) (fits : tree.nodes.length < 2 ^ 64) (shaped : AvlShaped tree)
    (found : node ∈ tree.nodes) :
    node.height.toNat ≤ 92 ∧
      node.height.toNat = 1 + max (node.childHeight true).toNat (node.childHeight false).toNat ∧
      node.balanceFactor.toInt = (node.childHeight false).toNat - (node.childHeight true).toNat :=
  -- Every node of either side is below the root, so balanced within one; the root's own balance
  -- plays no part.
  (HeightsCached.heightsInRange cached inMemory shaped.2 fits).1 node found

/-- The balanced three-node tree, as two attaches build it, satisfies the height theorem's
conditions, and the theorem applies to its root, two levels tall with balance factor zero. -/
theorem avl_heights_in_range_three :
    (threeNodes concatHasher).height.toNat ≤ 92 ∧
      (threeNodes concatHasher).height.toNat =
        1 + max ((threeNodes concatHasher).childHeight true).toNat
          ((threeNodes concatHasher).childHeight false).toNat ∧
      (threeNodes concatHasher).balanceFactor.toInt =
        ((threeNodes concatHasher).childHeight false).toNat -
          ((threeNodes concatHasher).childHeight true).toNat :=
  -- Its heights are cached, as in every reachable tree, and its shape is checked by evaluation.
  @avl_heights_in_range (threeNodes concatHasher) _
    (@reachable_threeNodes concatHasher HeightsTrusted).heightsCached (by decide)
    (show 3 < 2 ^ 64 by norm_num) (by decide) (List.mem_cons_self _ _)

/-- Without cached heights to rely on, heights overflow. A root whose two stored links cache the
heights `(254, 254)` over single nodes reads child heights of 255 on both sides, so every node is
balanced and the tree is in memory with three nodes; yet `height()` computes `1 + 255`, which
wraps to 0. -/
theorem avl_height_overflows_with_incoherent_cache :
    ¬ ∀ tree, InMemory tree → tree.nodes.length < 2 ^ 64 → AvlShaped tree →
      ∀ node ∈ tree.nodes, node.height.toNat < 128 ∧
        node.height.toNat = 1 + max (node.childHeight true).toNat (node.childHeight false).toNat ∧
        node.balanceFactor.toInt = (node.childHeight false).toNat - (node.childHeight true).toNat
    := by
  intro allInRange
  -- Two stored links cache heights that are not their nodes'.
  let tree := fromFields [0] [0] [] (some (.stored [] (254, 254) (Tree.new concatHasher [1] [1])))
    (some (.stored [] (254, 254) (Tree.new concatHasher [2] [2])))
  have root := allInRange tree (by decide) (show 3 < 2 ^ 64 by norm_num) (by decide) tree
    (List.mem_cons_self _ _)
  exact absurd root.2.1 (by decide)

end Tree

end LiftedMerk
