import LiftedMerk.Tree.Reachable

/-! Stored links cache their nodes' hashes in every reachable tree, so a commit ends at the
Merkle root. -/

namespace LiftedMerk

namespace Tree

variable (H : Hasher)

mutual

/-- No link of the tree in memory is modified. -/
def Clean : Tree → Prop
  | mk _ left right => CleanSlot left ∧ CleanSlot right

/-- A slot is empty, hash-only, or stored with a clean node. -/
def CleanSlot : Option Link → Prop
  | some (.modified ..) => False
  | some (.stored _ _ tree) => Clean tree
  | _ => True

end

mutual

/-- Every stored link of the tree in memory caches its node's hash and holds a clean node. -/
def HashesCached : Tree → Prop
  | mk _ left right => SlotHashesCached left ∧ SlotHashesCached right

/-- The stored link in a slot, if any, caches its node's hash and holds a clean node, and so on
through the nodes in memory below. -/
def SlotHashesCached : Option Link → Prop
  | some (.stored hash _ tree) => tree.hash H = some hash ∧ Clean tree ∧ HashesCached tree
  | some (.modified _ _ tree) => HashesCached tree
  | _ => True

end

mutual

/-- The Merkle root: `node_hash` over the pair's hash and each side's root, which is `NULL_HASH`
for a missing child, the cached hash of a hash-only one, and the root of one in memory. -/
def merkleRoot : Tree → Hash
  | mk kv left right => H.nodeHash kv.hash (slotRoot left) (slotRoot right)

/-- The Merkle root of one side. -/
def slotRoot : Option Link → Hash
  | none => nullHash
  | some (.pruned hash _ _) => hash
  | some (.modified _ _ tree) | some (.stored _ _ tree) => merkleRoot tree

end

/-- The nodes a source may return for a hash-only link: clean nodes with cached hashes whose hash
is the link's. Every reachable node without a modified link is one (`Reachable.hashesCached`). -/
def HashTrusted (link : Link) (fetched : Tree) : Prop :=
  HashesCached H fetched ∧ Clean fetched ∧ fetched.hash H = link.hash

variable {H}

/-- A child in memory under a slot with cached hashes has them. -/
theorem SlotHashesCached.child {slot : Option Link} {child : Tree}
    (cached : SlotHashesCached H slot) (found : slot.bind Link.tree = some child) :
    HashesCached H child := by
  -- Only a modified or a stored link has a child in memory.
  rcases slot with _ | (_ | _ | _) <;> simp [Link.tree] at found <;> subst found
  · exact cached
  · exact cached.2.2

/-- An unmodified slot with cached hashes is clean. -/
theorem SlotHashesCached.clean {slot : Option Link} (cached : SlotHashesCached H slot)
    (unmodified : Unmodified slot) : CleanSlot slot := by
  -- A stored link's node is clean by the cache; every other unmodified slot is clean outright.
  rcases slot with _ | (_ | _ | _)
  all_goals first | trivial | exact cached.2.1

/-- A committed node with cached hashes is clean: its slots are settled. -/
theorem Committed.clean {tree tree' : Tree} (committed : Committed H tree tree')
    (cached : HashesCached H tree') : Clean tree' := by
  -- Each settled slot is unmodified, and clean with its cached hashes.
  obtain ⟨kv, left, right⟩ := tree
  obtain ⟨kv', left', right'⟩ := tree'
  exact ⟨cached.1.clean committed.2.1.clean, cached.2.clean committed.2.2.clean⟩

mutual

/-- A commit keeps the cached hashes right: every link it stores caches its new hash. -/
theorem Committed.hashesCached : ∀ {tree tree' : Tree}, Committed H tree tree' →
    HashesCached H tree → HashesCached H tree'
  | mk _ _ _, mk _ _ _, committed, cached =>
    -- Both slots are settled.
    ⟨committed.2.1.slotHashesCached cached.1, committed.2.2.slotHashesCached cached.2⟩

/-- Settling a slot keeps its cached hashes right. -/
theorem Settled.slotHashesCached : ∀ {slot slot' : Option Link}, Settled H slot slot' →
    SlotHashesCached H slot → SlotHashesCached H slot'
  | some (.modified _ _ _), _, settled, cached => by
    -- The child is committed, and stored under the hash of what the commit made of it.
    obtain ⟨tree', hash, committed, hashed, rfl | rfl⟩ := settled
    · have cached' := committed.hashesCached cached
      exact ⟨hashed, committed.clean cached', cached'⟩
    · trivial
  | some (.stored _ _ _), _, settled, cached => by
    -- A stored link stays as it was or loses its node.
    rcases settled with rfl | rfl
    · exact cached
    · trivial
  | some (.pruned _ _ _), _, settled, _ | none, _, settled, _ => by cases settled; trivial

end

mutual

/-- In a clean tree with cached hashes, `Tree::hash` computes the Merkle root. -/
theorem hash_eq_merkleRoot : ∀ {tree : Tree}, HashesCached H tree → Clean tree →
    tree.hash H = some (merkleRoot H tree)
  | mk _ _ _, cached, clean => by
    -- Each side's `child_hash` is the side's root, and `node_hash` combines them as the root does.
    simp only [Tree.hash, childHash, link_mk, if_true, Bool.false_eq_true, if_false,
      slotHash_eq_slotRoot cached.1 clean.1, slotHash_eq_slotRoot cached.2 clean.2, kvHash, kv_mk,
      merkleRoot]
    rfl

/-- In a clean slot with cached hashes, the cached hash is the slot's Merkle root. -/
theorem slotHash_eq_slotRoot :
    ∀ {slot : Option Link}, SlotHashesCached H slot → CleanSlot slot →
      slot.elim (some nullHash) Link.hash = some (slotRoot H slot)
  | none, _, _ => rfl
  | some (.pruned _ _ _), _, _ => rfl
  | some (.stored _ _ _), cached, clean => by
    -- The stored hash is the child's own hash, which is its root one level down.
    simp only [Option.elim_some, Link.hash, slotRoot]
    rw [← hash_eq_merkleRoot cached.2.2 clean]
    exact cached.1.symm
  | some (.modified _ _ _), _, clean => clean.elim

end

/-- Cached hashes are an invariant of the trees reachable with sources that return trusted
nodes. -/
theorem slotInvariant_hashesCached :
    SlotInvariant H (HashTrusted H) (HashesCached H) (SlotHashesCached H) where
  -- A trusted node is clean, and stored under its own hash.
  slots := Iff.rfl
  empty := trivial
  settle := fun settled cached => settled.slotHashesCached cached
  attach := fun cached => cached
  child := fun cached found => cached.child found
  load := fun ⟨cachedFetched, cleanFetched, hashed⟩ => ⟨hashed, cleanFetched, cachedFetched⟩

/-- Every reachable tree has its hashes cached. -/
theorem Reachable.hashesCached {tree : Tree} (reach : Reachable H (HashTrusted H) tree) :
    HashesCached H tree :=
  -- The run lemma for the invariant of slots.
  reach.invariant slotInvariant_hashesCached

/-- Merkle consistency. In every reachable tree each stored link caches its node's hash, and no
modified link lies below a stored one. A commit with any sink never panics (it reads no modified
link's hash and prunes no modified link), and once it succeeds no link in memory is modified and
the node's hash is its Merkle root. -/
theorem reachable_merkle_consistent {tree : Tree} (reach : Reachable H (HashTrusted H) tree) :
    HashesCached H tree ∧
      ∀ {σ : Type} (c : Commit σ) (s : σ), ∃ tree' s' result,
        tree.commit H c s = some (tree', s', result) ∧
          (result = .ok () → Clean tree' ∧ tree'.hash H = some (merkleRoot H tree')) := by
  have cached := reach.hashesCached
  refine ⟨cached, fun c s => ?_⟩
  -- A successful commit keeps the hashes right and settles both slots, so the tree is clean.
  have outcome := commit_spec H c tree s
  rcases committed : tree.commit H c s with _ | ⟨tree', s', _ | ⟨⟩⟩ <;>
    rw [committed] at outcome
  · exact outcome.elim
  · exact ⟨tree', s', _, rfl, fun failed => nomatch failed⟩
  · have cached' := Committed.hashesCached outcome cached
    have clean := outcome.clean cached'
    exact ⟨tree', s', _, rfl, fun _ => ⟨clean, hash_eq_merkleRoot cached' clean⟩⟩

/-- The consistency theorem applies to the three-node tree once a commit has stored its two
children. -/
theorem reachable_merkle_consistent_committed :
    ∃ tree, (threeNodes concatHasher).commit concatHasher noopCommit () = some (tree, (), .ok ()) ∧
      HashesCached concatHasher tree ∧
      ∀ {σ : Type} (c : Commit σ) (s : σ), ∃ tree' s' result,
        tree.commit concatHasher c s = some (tree', s', result) ∧
          (result = .ok () → Clean tree' ∧
            tree'.hash concatHasher = some (merkleRoot concatHasher tree')) :=
  -- The tree is reached by two attaches and a commit that stores both leaves.
  ⟨_, rfl, reachable_merkle_consistent
    (@Reachable.commit concatHasher (HashTrusted concatHasher) Unit _ _ () () (.ok ()) noopCommit
      reachable_threeNodes rfl)⟩

/-- A stored link over a clean node with cached hashes caches the node's Merkle root. -/
theorem SlotHashesCached.stored_root {hash : Hash} {childHeights : UInt8 × UInt8} {tree : Tree}
    (cached : SlotHashesCached H (some (.stored hash childHeights tree))) :
    hash = merkleRoot H tree := by
  -- The cached hash is the node's hash, which is its root.
  have root := hash_eq_merkleRoot cached.2.2 cached.2.1
  rw [cached.1] at root
  exact Option.some.inj root

mutual

/-- A successful commit keeps the Merkle root: each child it commits is stored, or pruned, under
its own hash, which is the root of what the commit made of it. -/
theorem Committed.merkleRoot_eq : ∀ {tree tree' : Tree}, Committed H tree tree' →
    HashesCached H tree → merkleRoot H tree' = merkleRoot H tree
  | mk _ _ _, mk _ _ _, committed, cached => by
    -- The pair stays, and each settled side keeps its root.
    obtain ⟨rfl, settledLeft, settledRight⟩ := committed
    simp only [merkleRoot, settledLeft.slotRoot_eq cached.1, settledRight.slotRoot_eq cached.2]

/-- Settling a slot keeps its Merkle root. -/
theorem Settled.slotRoot_eq : ∀ {slot slot' : Option Link}, Settled H slot slot' →
    SlotHashesCached H slot → slotRoot H slot' = slotRoot H slot
  | some (.modified _ _ _), _, settled, cached => by
    obtain ⟨tree', hash, committed, hashed, rfl | rfl⟩ := settled
    · -- The stored child is the committed one, whose root is the child's.
      exact committed.merkleRoot_eq cached
    · -- The hash-only link keeps the committed child's hash, which is its root.
      have cached' := committed.hashesCached cached
      have root := hash_eq_merkleRoot cached' (committed.clean cached')
      rw [hashed] at root
      exact (Option.some.inj root).trans (committed.merkleRoot_eq cached)
  | some (.stored _ _ _), _, settled, cached => by
    -- A pruned stored link keeps the hash the node had, its root.
    rcases settled with rfl | rfl
    · rfl
    · exact cached.stored_root
  | some (.pruned _ _ _), _, settled, _ | none, _, settled, _ => by cases settled; rfl

end

/-- Assigning a slot something with the same Merkle root keeps the tree's root. -/
theorem merkleRoot_setLink {tree : Tree} {left : Bool} {slot : Option Link}
    (same : slotRoot H slot = slotRoot H (tree.link left)) :
    merkleRoot H (tree.setLink left slot) = merkleRoot H tree := by
  -- The root reads the slot only through its own root.
  obtain ⟨kv, leftSlot, rightSlot⟩ := tree
  cases left <;> simp only [setLink, merkleRoot, link_mk, if_true, Bool.false_eq_true,
    if_false] at same ⊢ <;> rw [same]

/-- Moving nodes between memory and storage keeps the Merkle root. In every reachable tree whose
sources return trusted nodes, a commit that succeeds, with any sink and whatever it prunes, leaves
the tree's Merkle root as it was, and the hash it computes is that root. A load that succeeds from
a source trusted for the link leaves the root as it was too. -/
theorem commit_load_keep_merkleRoot {tree : Tree} (reach : Reachable H (HashTrusted H) tree) :
    (∀ {σ : Type} (c : Commit σ) (s : σ) (tree' : Tree) (s' : σ),
      tree.commit H c s = some (tree', s', .ok ()) →
        merkleRoot H tree' = merkleRoot H tree ∧ tree'.hash H = some (merkleRoot H tree)) ∧
    ∀ (debug left : Bool) (source : Fetch) (tree' : Tree),
      (∀ link fetched, tree.link left = some link → source.fetch link = .ok fetched →
        HashTrusted H link fetched) →
      tree.load debug left source = some (tree', .ok ()) →
        merkleRoot H tree' = merkleRoot H tree := by
  have cached := reach.hashesCached
  refine ⟨fun c s tree' s' committed => ?_, fun debug left source tree' trusted loaded => ?_⟩
  · -- The committed tree has the same root, and its hash is its root.
    have outcome := commit_spec H c tree s
    rw [committed] at outcome
    have root := Committed.merkleRoot_eq outcome cached
    have cached' := Committed.hashesCached outcome cached
    exact ⟨root, root ▸ hash_eq_merkleRoot cached' (outcome.clean cached')⟩
  · -- The fetched node's root is its hash, the one the hash-only link recorded.
    obtain ⟨hash, childHeights, key, found, ⟨_, -, -, failed⟩ | ⟨fetched, ok, -, -, rfl⟩⟩ :=
      load_eq_some loaded
    · cases failed
    obtain ⟨cachedFetched, cleanFetched, hashed⟩ := trusted _ _ found ok
    have root := hash_eq_merkleRoot cachedFetched cleanFetched
    rw [hashed] at root
    exact merkleRoot_setLink (found ▸ (Option.some.inj root).symm)

/-- The root theorem applies to the three-node tree committed by a sink that prunes both sides of
every node it writes, and then to the tree that loading its left child back gives: both keep the
root. -/
theorem commit_load_keep_merkleRoot_reloaded :
    ∃ pruned reloaded,
      (threeNodes concatHasher).commit concatHasher
          ⟨fun s _ => (s, .ok ()), fun _ _ => (true, true)⟩ () = some (pruned, (), .ok ()) ∧
      merkleRoot concatHasher pruned = merkleRoot concatHasher (threeNodes concatHasher) ∧
      pruned.load false true ⟨fun _ => .ok (Tree.new concatHasher [0] [0])⟩ =
        some (reloaded, .ok ()) ∧
      merkleRoot concatHasher reloaded = merkleRoot concatHasher pruned := by
  have reach := @reachable_threeNodes concatHasher (HashTrusted concatHasher)
  let pruneAll : Commit Unit := ⟨fun s _ => (s, .ok ()), fun _ _ => (true, true)⟩
  refine ⟨_, _, rfl, ((commit_load_keep_merkleRoot reach).1 pruneAll () _ () rfl).1, rfl,
    (commit_load_keep_merkleRoot
      (@Reachable.commit _ _ Unit _ _ () () (.ok ()) pruneAll reach rfl)).2 false true
      ⟨fun _ => .ok (Tree.new concatHasher [0] [0])⟩ _ ?_ rfl⟩
  -- The source returns the node the left link was pruned from: clean, and with the link's hash.
  intro link fetched found ok
  cases found
  cases ok
  exact ⟨⟨trivial, trivial⟩, ⟨trivial, trivial⟩, rfl⟩

end Tree

end LiftedMerk
