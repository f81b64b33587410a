import LiftedMerk.Tree.Ops

/-! Loading a hash-only child from a source, which either installs it or changes nothing. -/

namespace LiftedMerk

/-- Modelled from the spec: the `Fetch` trait is not in the source. A source that returns the node
a hash-only link refers to. -/
structure Fetch where
  /-- `Fetch::fetch`. -/
  fetch : Link → Except Error Tree

namespace Tree

/-- `Tree::load`: fetches the child of the side's hash-only link and stores it under the link's
hash and heights. A missing or an in-memory link panics, a failed fetch is returned as it is, and
when `debug` makes `debug_assert_eq!` check it, a fetched node with another key panics. -/
def load (debug : Bool) (tree : Tree) (left : Bool) (source : Fetch) :
    Option (Tree × Except Error Unit) :=
  match tree.link left with
  | some (.pruned hash childHeights key) =>
    match source.fetch (.pruned hash childHeights key) with
    | .error err => some (tree, .error err)
    | .ok fetched =>
      if debug = true ∧ fetched.key ≠ key then none
      else some (tree.setLink left (some (.stored hash childHeights fetched)), .ok ())
  | _ => none

/-- A load that does not panic found a hash-only link, and either failed to fetch and kept the
node, or stored the fetched node under the link's hash and heights. -/
theorem load_eq_some {debug : Bool} {tree tree' : Tree} {left : Bool} {source : Fetch}
    {result : Except Error Unit} (loaded : tree.load debug left source = some (tree', result)) :
    ∃ hash childHeights key, tree.link left = some (.pruned hash childHeights key) ∧
      ((∃ err, source.fetch (.pruned hash childHeights key) = .error err ∧ tree' = tree ∧
          result = .error err) ∨
        ∃ fetched, source.fetch (.pruned hash childHeights key) = .ok fetched ∧
          (debug = true → fetched.key = key) ∧ result = .ok () ∧
          tree' = tree.setLink left (some (.stored hash childHeights fetched))) := by
  -- Only a hash-only link gets past the first match; then the fetch decides.
  unfold load at loaded
  split at loaded
  · rename_i hash childHeights key found
    refine ⟨hash, childHeights, key, found, ?_⟩
    split at loaded
    · simp_all
    · split at loaded
      · simp at loaded
      · simp_all
  · simp at loaded

/-- A fetched node with another key is not rejected with an error. Without debug assertions it is
stored under the link's hash; with them, `load` panics. -/
theorem load_wrong_key_not_rejected :
    (mk ⟨[0], [0], []⟩ (some (.pruned [] (0, 0) [1])) none).load false true
        ⟨fun _ => .ok (mk ⟨[2], [2], []⟩ none none)⟩ =
      some (mk ⟨[0], [0], []⟩ (some (.stored [] (0, 0) (mk ⟨[2], [2], []⟩ none none))) none,
        .ok ()) ∧
    (mk ⟨[0], [0], []⟩ (some (.pruned [] (0, 0) [1])) none).load true true
        ⟨fun _ => .ok (mk ⟨[2], [2], []⟩ none none)⟩ = none :=
  -- Both builds are run on the node with key `[2]` under the link recording `[1]`.
  ⟨rfl, rfl⟩

end Tree

end LiftedMerk
