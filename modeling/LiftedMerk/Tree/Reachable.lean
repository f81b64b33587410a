import LiftedMerk.Tree.Commit
import LiftedMerk.Tree.Load

/-! The trees a program can hold, and the cached hashes that stay right in every one of them. -/

namespace LiftedMerk

namespace Tree

variable (H : Hasher)

/-- The trees a program holds when it starts from `Tree::new` and uses the tree by value:
`attach`, `detach` (the parent and the child it hands back), `with_value`, `commit` with any sink
(the node as it stands afterwards, after success or failure), and `load` from a source whose
fetched nodes `trusted` admits for the link. `detach_expect`, `walk` and `walk_expect` are made of
these. -/
inductive Reachable (trusted : Link → Tree → Prop) : Tree → Prop
  | new (key : Key) (value : Value) : Reachable trusted (Tree.new H key value)
  | attach {tree tree' : Tree} {left : Bool} {maybeChild : Option Tree} (debug : Bool) :
      Reachable trusted tree → (∀ child ∈ maybeChild, Reachable trusted child) →
      tree.attach debug left maybeChild = some tree' → Reachable trusted tree'
  | detach {tree : Tree} (left : Bool) :
      Reachable trusted tree → Reachable trusted (tree.detach left).1
  | detachChild {tree child : Tree} {left : Bool} :
      Reachable trusted tree → (tree.detach left).2 = some child → Reachable trusted child
  | withValue {tree : Tree} (value : Value) :
      Reachable trusted tree → Reachable trusted (tree.withValue H value)
  | commit {σ : Type} {tree tree' : Tree} {s s' : σ} {result : Except Error Unit}
      (c : Commit σ) :
      Reachable trusted tree → tree.commit H c s = some (tree', s', result) →
      Reachable trusted tree'
  | load {tree tree' : Tree} {left : Bool} {link : Link} {result : Except Error Unit}
      (debug : Bool) (source : Fetch) :
      Reachable trusted tree → tree.link left = some link →
      (∀ fetched, source.fetch link = .ok fetched → trusted link fetched) →
      tree.load debug left source = some (tree', result) → Reachable trusted tree'

variable {H} {trusted : Link → Tree → Prop}

/-- What a property `P` of slots must do for every reachable tree to have it in both slots, as
`Inv` says: hold of an empty slot, survive settling, hold of the modified link `attach` makes for
a child that has `Inv`, pass `Inv` to the child below a slot, and hold of the stored link `load`
makes for a node the source is trusted for. -/
structure SlotInvariant (H : Hasher) (trusted : Link → Tree → Prop) (Inv : Tree → Prop)
    (P : Option Link → Prop) : Prop where
  slots : ∀ {kv : KV} {left right : Option Link}, Inv (mk kv left right) ↔ P left ∧ P right
  empty : P none
  settle : ∀ {slot slot' : Option Link}, Settled H slot slot' → P slot → P slot'
  attach : ∀ {child : Tree}, Inv child → P (some (Link.fromModifiedTree child))
  child : ∀ {slot : Option Link} {child : Tree}, P slot → slot.bind Link.tree = some child →
    Inv child
  load : ∀ {hash : Hash} {childHeights : UInt8 × UInt8} {key : Key} {fetched : Tree},
    trusted (.pruned hash childHeights key) fetched → P (some (.stored hash childHeights fetched))

/-- Filling a slot with a link that has the property keeps the invariant. -/
theorem SlotInvariant.setLink {Inv : Tree → Prop} {P : Option Link → Prop}
    (invariant : SlotInvariant H trusted Inv P) {tree : Tree} (holds : Inv tree) (left : Bool)
    {slot : Option Link} (holdsSlot : P slot) : Inv (tree.setLink left slot) := by
  -- The other slot keeps the property it had.
  obtain ⟨kv, leftSlot, rightSlot⟩ := tree
  have ⟨holdsLeft, holdsRight⟩ := invariant.slots.1 holds
  cases left
  · exact invariant.slots.2 ⟨holdsLeft, holdsSlot⟩
  · exact invariant.slots.2 ⟨holdsSlot, holdsRight⟩

/-- Each slot of a node with the invariant has the property. -/
theorem SlotInvariant.slot {Inv : Tree → Prop} {P : Option Link → Prop}
    (invariant : SlotInvariant H trusted Inv P) {tree : Tree} (holds : Inv tree) (left : Bool) :
    P (tree.link left) := by
  -- The invariant is the property of both slots.
  obtain ⟨kv, leftSlot, rightSlot⟩ := tree
  have ⟨holdsLeft, holdsRight⟩ := invariant.slots.1 holds
  cases left
  · exact holdsRight
  · exact holdsLeft

/-- Every reachable tree has an invariant of its slots. -/
theorem Reachable.invariant {Inv : Tree → Prop} {P : Option Link → Prop}
    (invariant : SlotInvariant H trusted Inv P) {tree : Tree} (reach : Reachable H trusted tree) :
    Inv tree := by
  induction reach with
  | new => exact invariant.slots.2 ⟨invariant.empty, invariant.empty⟩
  | @attach tree tree' left maybeChild debug _ _ attached holds holdsChild =>
    -- The new modified link holds a child with the invariant.
    obtain ⟨-, -, rfl⟩ := attach_eq_some.mp attached
    refine invariant.setLink holds left ?_
    cases maybeChild with
    | none => exact invariant.empty
    | some child => exact invariant.attach (holdsChild child rfl)
  | detach left _ holds => exact invariant.setLink holds left invariant.empty
  | detachChild _ found holds => exact invariant.child (invariant.slot holds _) found
  | @withValue tree value _ holds =>
    obtain ⟨kv, left, right⟩ := tree
    exact invariant.slots.2 (invariant.slots.1 holds)
  | @commit σ tree tree' s s' result c _ committed holds =>
    -- Whether the commit succeeds or fails, each slot is kept, settled or emptied.
    have outcome := commit_spec H c tree s
    rw [committed] at outcome
    obtain ⟨kv, left, right⟩ := tree
    obtain ⟨kv', left', right'⟩ := tree'
    obtain ⟨holdsLeft, holdsRight⟩ := invariant.slots.1 holds
    refine invariant.slots.2 ?_
    rcases result with _ | ⟨⟩
    · exact Aborted.slots H invariant.settle invariant.empty outcome holdsLeft holdsRight
    · exact ⟨invariant.settle outcome.2.1 holdsLeft, invariant.settle outcome.2.2 holdsRight⟩
  | load debug source _ linked trusted loaded holds =>
    -- A load either keeps the node or stores a node the source was trusted for.
    obtain ⟨hash, childHeights, key, found, ⟨-, -, rfl, -⟩ | ⟨fetched, ok, -, -, rfl⟩⟩ :=
      load_eq_some loaded
    · exact holds
    · rw [linked, Option.some.injEq] at found
      subst found
      exact invariant.setLink holds _ (invariant.load (trusted fetched ok))

section Walks

/-- Detaching with `detach_expect` hands back a reachable parent and child. -/
theorem Reachable.detachExpect {tree parent child : Tree} {left : Bool}
    (reach : Reachable H trusted tree) (detached : tree.detachExpect left = some (parent, child)) :
    Reachable H trusted parent ∧ Reachable H trusted child := by
  -- `detach_expect` is `detach` with a child that must come out.
  unfold Tree.detachExpect at detached
  cases found : (tree.detach left).2 with
  | none => simp [found] at detached
  | some child' =>
    simp only [found, Option.map_some', Option.some.injEq, Prod.mk.injEq] at detached
    obtain ⟨rfl, rfl⟩ := detached
    exact ⟨.detach left reach, .detachChild reach found⟩

/-- A walk whose function turns reachable children into reachable ones stays reachable. -/
theorem Reachable.walk {tree tree' : Tree} {left : Bool} {f : Option Tree → Option Tree}
    (debug : Bool) (reach : Reachable H trusted tree)
    (made : ∀ maybeChild, (∀ child ∈ maybeChild, Reachable H trusted child) →
      ∀ child ∈ f maybeChild, Reachable H trusted child)
    (walked : tree.walk debug left f = some tree') : Reachable H trusted tree' :=
  -- The detached child is reachable, hence so is what `f` makes of it.
  .attach debug (.detach left reach)
    (made _ fun _ found => .detachChild reach found) walked

/-- An expecting walk whose function turns reachable children into reachable ones stays
reachable. -/
theorem Reachable.walkExpect {tree tree' : Tree} {left : Bool} {f : Tree → Option Tree}
    (debug : Bool) (reach : Reachable H trusted tree)
    (made : ∀ child, Reachable H trusted child →
      ∀ child' ∈ f child, Reachable H trusted child')
    (walked : tree.walkExpect debug left f = some tree') : Reachable H trusted tree' := by
  -- The same detach-then-attach, through a child that is known to be there.
  obtain ⟨child, found, attached⟩ := walkExpect_eq_some walked
  exact .attach debug (.detach left reach) (made child (.detachChild reach found)) attached

end Walks

/-- The three-node tree is reachable: two attaches, with the key check on, build it. -/
theorem reachable_threeNodes : Reachable H trusted (threeNodes H) :=
  -- The left leaf goes onto a new root, then the right leaf onto the result.
  @Reachable.attach H trusted _ _ false (some (Tree.new H [2] [2])) true
    (@Reachable.attach H trusted _ _ true (some (Tree.new H [0] [0])) true (.new [1] [1])
      (fun _ found => by cases found; exact .new [0] [0]) rfl)
    (fun _ found => by cases found; exact .new [2] [2]) rfl

end Tree

end LiftedMerk
