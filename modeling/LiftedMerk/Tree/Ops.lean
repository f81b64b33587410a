import LiftedMerk.Tree.Node

/-! Attaching and detaching children by value, and the walks built from the two. -/

namespace LiftedMerk

namespace Tree

/-- `Tree::attach`: installs the child, if any, as a modified link in an empty slot. Attaching to
an occupied slot panics, and so does attaching a child with the parent's key when `debug`
(`cfg(debug_assertions)`) makes `debug_assert_ne!` check it. -/
def attach (debug : Bool) (tree : Tree) (left : Bool) (maybeChild : Option Tree) : Option Tree :=
  if debug = true ∧ some tree.key = maybeChild.map Tree.key then none
  else
    match tree.link left with
    | some _ => none
    | none => some (tree.setLink left (Link.maybeFromModifiedTree maybeChild))

/-- `Tree::detach`: empties the slot and returns the child, if it is in memory. A hash-only child
is dropped and not fetched. -/
def detach (tree : Tree) (left : Bool) : Tree × Option Tree :=
  (tree.setLink left none, (tree.link left).bind Link.tree)

/-- `Tree::detach_expect`: `detach`, panicking when no child comes out. -/
def detachExpect (tree : Tree) (left : Bool) : Option (Tree × Tree) :=
  let (parent, maybeChild) := tree.detach left
  maybeChild.map fun child => (parent, child)

/-- `Tree::walk`: detaches the child, and attaches whatever `f` makes of it. -/
def walk (debug : Bool) (tree : Tree) (left : Bool) (f : Option Tree → Option Tree) :
    Option Tree :=
  let (tree, maybeChild) := tree.detach left
  tree.attach debug left (f maybeChild)

/-- `Tree::walk_expect`: `walk` over a child that must be there. -/
def walkExpect (debug : Bool) (tree : Tree) (left : Bool) (f : Tree → Option Tree) :
    Option Tree := do
  let (tree, child) ← tree.detachExpect left
  tree.attach debug left (f child)

/-- An attach succeeds exactly on an empty slot, when the key check passes, and fills that slot. -/
theorem attach_eq_some {debug : Bool} {tree tree' : Tree} {left : Bool}
    {maybeChild : Option Tree} :
    tree.attach debug left maybeChild = some tree' ↔
      ¬ (debug = true ∧ some tree.key = maybeChild.map Tree.key) ∧ tree.link left = none ∧
        tree' = tree.setLink left (Link.maybeFromModifiedTree maybeChild) := by
  -- The key check comes first, then the slot.
  unfold attach
  split
  · simp_all
  · cases tree.link left <;> simp_all [eq_comm]

/-- Attaching and then detaching on one side is a round trip: the detach hands back the parent as
it was before the attach, and the child, or no child. -/
theorem detach_attach {debug : Bool} {tree tree' : Tree} {left : Bool}
    {maybeChild : Option Tree} (attached : tree.attach debug left maybeChild = some tree') :
    tree'.detach left = (tree, maybeChild) := by
  -- The attach filled an empty slot; the detach empties it again and reads the link back.
  obtain ⟨-, empty, rfl⟩ := attach_eq_some.1 attached
  rw [detach, setLink_setLink, link_setLink, if_pos rfl, ← empty, setLink_link]
  cases maybeChild <;> rfl

/-- A new node takes a new child on either side, and gives it back. -/
theorem detach_attach_new :
    (Tree.new concatHasher [0] [0]).attach true true (some (Tree.new concatHasher [1] [1])) =
      some ((Tree.new concatHasher [0] [0]).setLink true
        (Link.maybeFromModifiedTree (some (Tree.new concatHasher [1] [1])))) ∧
    ((Tree.new concatHasher [0] [0]).setLink true
        (Link.maybeFromModifiedTree (some (Tree.new concatHasher [1] [1])))).detach true =
      (Tree.new concatHasher [0] [0], some (Tree.new concatHasher [1] [1])) :=
  -- The attach runs with the key check on, and the round trip applies to its result.
  ⟨rfl, @detach_attach true _ _ _ _ rfl⟩

/-- A walk is a detach followed by an attach on the same side. -/
theorem walk_eq (debug : Bool) (tree : Tree) (left : Bool) (f : Option Tree → Option Tree) :
    tree.walk debug left f = (tree.detach left).1.attach debug left (f (tree.detach left).2) :=
  -- `walk` destructures the detach's pair.
  rfl

/-- An expecting walk is a detach that yields a child, followed by an attach on the same side. -/
theorem walkExpect_eq_some {debug : Bool} {tree tree' : Tree} {left : Bool}
    {f : Tree → Option Tree} (walked : tree.walkExpect debug left f = some tree') :
    ∃ child, (tree.detach left).2 = some child ∧
      (tree.detach left).1.attach debug left (f child) = some tree' := by
  -- `detach_expect` panics unless a child came out.
  unfold walkExpect detachExpect at walked
  cases found : (tree.link left).bind Link.tree with
  | none => simp [detach, found] at walked
  | some child => exact ⟨child, found, by simpa [detach, found] using walked⟩

/-- A root `[1]` with the new nodes `[0]` and `[2]` attached on its left and on its right: the
balanced tree of three nodes that two attaches build. -/
def threeNodes (H : Hasher) : Tree :=
  let left := Link.maybeFromModifiedTree (some (Tree.new H [0] [0]))
  let right := Link.maybeFromModifiedTree (some (Tree.new H [2] [2]))
  ((Tree.new H [1] [1]).setLink true left).setLink false right

end Tree

end LiftedMerk
