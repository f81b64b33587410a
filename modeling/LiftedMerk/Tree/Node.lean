import LiftedMerk.Tree.Hash

/-! Tree nodes, the three states of a link to a child, and what a node reports about itself. -/

namespace LiftedMerk

mutual

/-- A node of the binary AVL tree with Merkle hashes (`Tree`, with the fields of `TreeInner`): its
key/value pair and, on each side that has a child, the link to it. -/
inductive Tree where
  | mk (kv : KV) (left right : Option Link)

/-- Modelled from the spec: `tree::link` is not in the source. The state of a child attachment;
every state caches the heights of the child's own children. -/
inductive Link where
  /-- Hash-only: the child is not in memory, and its hash and key are known from a commit. -/
  | pruned (hash : Hash) (childHeights : UInt8 × UInt8) (key : Key)
  /-- In memory with uncommitted changes, and the number of writes committing them takes. -/
  | modified (pendingWrites : Nat) (childHeights : UInt8 × UInt8) (tree : Tree)
  /-- In memory and as last committed, with its hash. -/
  | stored (hash : Hash) (childHeights : UInt8 × UInt8) (tree : Tree)

end

namespace Tree

/-- The node's key/value pair. -/
def kv : Tree → KV
  | mk kv _ _ => kv

/-- `Tree::key`. -/
def key (tree : Tree) : Key := tree.kv.key

/-- `Tree::value`. -/
def value (tree : Tree) : Value := tree.kv.value

/-- `Tree::kv_hash`. -/
def kvHash (tree : Tree) : Hash := tree.kv.hash

/-- `Tree::link`: the link on the given side (`left` or not), if that side has a child. -/
def link : Tree → Bool → Option Link
  | mk _ left right, side => if side then left else right

/-- Assigning a side's slot, `*self.slot_mut(left) = slot`. -/
def setLink : Tree → Bool → Option Link → Tree
  | mk kv left right, side, slot => if side then mk kv slot right else mk kv left slot

/-- A node's pair is the one it was made with. -/
@[simp] theorem kv_mk (kv : KV) (left right : Option Link) : (mk kv left right).kv = kv :=
  -- `kv` reads the node's first field.
  rfl

/-- A node's link on a side is the slot it was made with on that side. -/
@[simp] theorem link_mk (kv : KV) (left right : Option Link) (side : Bool) :
    (mk kv left right).link side = if side then left else right :=
  -- `link` reads the slot of the side.
  rfl

/-- A slot assignment changes that slot only. -/
@[simp] theorem link_setLink (tree : Tree) (left side : Bool) (slot : Option Link) :
    (tree.setLink left slot).link side = if side = left then slot else tree.link side := by
  -- Two sides on each argument, and the node's own slots.
  cases tree
  cases left <;> cases side <;> rfl

/-- A slot assignment keeps the node's pair. -/
@[simp] theorem kv_setLink (tree : Tree) (left : Bool) (slot : Option Link) :
    (tree.setLink left slot).kv = tree.kv := by
  -- Either side's assignment rebuilds the node with its pair.
  cases tree
  cases left <;> rfl

/-- A second assignment to a slot replaces the first. -/
@[simp] theorem setLink_setLink (tree : Tree) (left : Bool) (slot slot' : Option Link) :
    (tree.setLink left slot).setLink left slot' = tree.setLink left slot' := by
  -- The second assignment overwrites the slot the first one filled.
  cases tree
  cases left <;> rfl

/-- Assigning a slot what it holds changes nothing. -/
@[simp] theorem setLink_link (tree : Tree) (left : Bool) :
    tree.setLink left (tree.link left) = tree := by
  -- The slot is rebuilt with its own contents.
  cases tree
  cases left <;> rfl

end Tree

namespace Link

/-- The heights of the linked node's children, which every state caches. -/
def childHeights : Link → UInt8 × UInt8
  | pruned _ childHeights _ | modified _ childHeights _ | stored _ childHeights _ => childHeights

/-- `Link::height`: one more than the taller cached child height, in `u8` arithmetic that wraps
as a release build's does. -/
def height (link : Link) : UInt8 := 1 + max link.childHeights.1 link.childHeights.2

/-- `Link::hash`: the cached hash. A modified link has none yet, and `Link::hash` panics on it. -/
def hash : Link → Option Hash
  | pruned hash _ _ | stored hash _ _ => some hash
  | modified .. => none

/-- `Link::tree`: the linked node, when it is in memory. -/
def tree : Link → Option Tree
  | pruned .. => none
  | modified _ _ tree | stored _ _ tree => some tree

/-- `Link::key`: the linked node's key, which a hash-only link records. -/
def key : Link → Key
  | pruned _ _ key => key
  | modified _ _ tree | stored _ _ tree => tree.key

/-- `Link::into_pruned`: drops a stored node from memory and keeps its hash, heights and key.
Pruning a modified link panics. -/
def intoPruned : Link → Option Link
  | pruned hash childHeights key => some (pruned hash childHeights key)
  | modified .. => none
  | stored hash childHeights tree => some (pruned hash childHeights tree.key)

/-- `Link::is_modified`. -/
def isModified : Link → Bool
  | modified .. => true
  | _ => false

end Link

namespace Tree

variable (H : Hasher)

/-- `Tree::new`: a node with no children. -/
def new (key : Key) (value : Value) : Tree := mk (KV.new H key value) none none

/-- `Tree::from_fields`: a node built from raw fields, which nothing checks. -/
def fromFields (key : Key) (value : Value) (kvHash : Hash) (left right : Option Link) : Tree :=
  mk ⟨key, value, kvHash⟩ left right

/-- `Tree::child`: the child on the given side, when it is in memory. -/
def child (tree : Tree) (left : Bool) : Option Tree := (tree.link left).bind Link.tree

/-- `Tree::child_mut`, with the change the caller makes through the reference it returns: `f`
replaces the in-memory child of the side, and the link keeps its state. With no in-memory child
there is no reference, and the caller's `expect` panics. -/
def childMut (tree : Tree) (left : Bool) (f : Tree → Option Tree) : Option Tree :=
  match tree.link left with
  | some (.stored hash childHeights child) =>
    (f child).map fun child => tree.setLink left (some (.stored hash childHeights child))
  | some (.modified pendingWrites childHeights child) =>
    (f child).map fun child => tree.setLink left (some (.modified pendingWrites childHeights child))
  | _ => none

/-- `Tree::child_hash`: the cached hash of the child, or `NULL_HASH` for a missing child. -/
def childHash (tree : Tree) (left : Bool) : Option Hash :=
  (tree.link left).elim (some nullHash) Link.hash

/-- `Tree::hash`: the node's hash from its pair's hash and its children's cached hashes. -/
def hash (tree : Tree) : Option Hash := do
  return H.nodeHash tree.kvHash (← tree.childHash true) (← tree.childHash false)

/-- `Tree::child_pending_writes`: the count a modified link carries, and zero otherwise. -/
def childPendingWrites (tree : Tree) (left : Bool) : Nat :=
  match tree.link left with
  | some (.modified pendingWrites _ _) => pendingWrites
  | _ => 0

/-- `Tree::child_height`: the height the link caches, or zero for a missing child. -/
def childHeight (tree : Tree) (left : Bool) : UInt8 :=
  (tree.link left).elim 0 Link.height

/-- `Tree::child_heights`. -/
def childHeights (tree : Tree) : UInt8 × UInt8 := (tree.childHeight true, tree.childHeight false)

/-- `Tree::height`: one more than the taller child, in `u8` arithmetic that wraps as a release
build's does. A debug build panics on the overflow instead; the model leaves that out, and the
height theorems say when no overflow happens. -/
def height (tree : Tree) : UInt8 := 1 + max (tree.childHeight true) (tree.childHeight false)

/-- `Tree::balance_factor`: the right child's height less the left's, after casting both from
`u8` to `i8`, in `i8` arithmetic that wraps as a release build's does. -/
def balanceFactor (tree : Tree) : Int8 :=
  let leftHeight : Int8 := ⟨tree.childHeight true⟩
  let rightHeight : Int8 := ⟨tree.childHeight false⟩
  rightHeight - leftHeight

/-- `Tree::with_value`: replaces the root's value, and with it the pair's hash. -/
def withValue : Tree → Value → Tree
  | mk kv left right, value => mk (kv.withValue H value) left right

mutual

/-- The nodes in memory, root first: the root, then those below its left slot and its right one.
No node below a hash-only link is in memory. -/
def nodes : Tree → List Tree
  | mk kv left right => mk kv left right :: (slotNodes left ++ slotNodes right)

/-- The nodes in memory below a slot. -/
def slotNodes : Option Link → List Tree
  | some (.modified _ _ tree) | some (.stored _ _ tree) => nodes tree
  | _ => []

end

/-- The root is the first node in memory. -/
@[simp] theorem mem_nodes_self (tree : Tree) : tree ∈ tree.nodes := by
  -- `nodes` lists the root before the nodes of either side.
  cases tree
  exact List.mem_cons_self _ _

end Tree

namespace Link

/-- Modelled from the spec: `Link::from_modified_tree`, a modified link to a node whose pending
writes are its own and those its modified children carry. -/
def fromModifiedTree (tree : Tree) : Link :=
  modified (1 + tree.childPendingWrites true + tree.childPendingWrites false) tree.childHeights tree

/-- `Link::maybe_from_modified_tree`. -/
def maybeFromModifiedTree (maybeTree : Option Tree) : Option Link :=
  maybeTree.map fromModifiedTree

end Link

end LiftedMerk
