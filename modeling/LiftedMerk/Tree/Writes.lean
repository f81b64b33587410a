import LiftedMerk.Tree.Commit

/-! What a commit writes: the modified nodes, children first, and nothing it does not settle. -/

namespace LiftedMerk

variable {σ : Type}

/-- The sink `c` with a record of its calls to `write`, made by `record` from the state and the
node of each call, in the order of the calls and failed ones included. -/
def Commit.recording {α : Type} (c : Commit σ) (record : σ → Tree → α) : Commit (σ × List α) where
  write := fun (s, log) tree => (((c.write s tree).1, log ++ [record s tree]), (c.write s tree).2)
  prune := fun (s, _) tree => c.prune s tree

/-- The sink `c` with a log of the nodes it is asked to write, in the order it is asked. -/
def Commit.logged (c : Commit σ) : Commit (σ × List Tree) := c.recording fun _ tree => tree

/-- The sink `c` with a trace of its calls to `write`: each call's state and node. -/
def Commit.traced (c : Commit σ) : Commit (σ × List (σ × Tree)) := c.recording Prod.mk

/-- A trace of calls is a run of the sink from `s` that leaves `s'` and returns `result`: each call
is made from the state the one before it left, and every call returns `Ok` but a last one that
fails, whose error the run returns. -/
inductive Commit.Run (c : Commit σ) : σ → List (σ × Tree) → σ → Except Error Unit → Prop
  | nil (s : σ) : c.Run s [] s (.ok ())
  | fail {s : σ} {node : Tree} {err : Error} : (c.write s node).2 = .error err →
      c.Run s [(s, node)] (c.write s node).1 (.error err)
  | ok {s s' : σ} {node : Tree} {calls : List (σ × Tree)} {result : Except Error Unit} :
      (c.write s node).2 = .ok () → c.Run (c.write s node).1 calls s' result →
      c.Run s ((s, node) :: calls) s' result

/-- A run that succeeds can be followed by any other. -/
theorem Commit.Run.append {c : Commit σ} {s s₁ s₂ : σ} {first rest : List (σ × Tree)}
    {result : Except Error Unit} (run : c.Run s first s₁ (.ok ()))
    (next : c.Run s₁ rest s₂ result) : c.Run s (first ++ rest) s₂ result := by
  -- Only the calls that succeed come before the end of a successful run.
  generalize succeeded : (Except.ok () : Except Error Unit) = ok at run
  induction run with
  | nil => exact next
  | fail _ => cases succeeded
  | ok wrote _ ih => exact .ok wrote (ih next succeeded)

/-- A single call is a run, whatever it returns. -/
theorem Commit.Run.single (c : Commit σ) (s : σ) (node : Tree) :
    c.Run s [(s, node)] (c.write s node).1 (c.write s node).2 := by
  -- A failed call ends the run; a successful one is followed by the empty run.
  rcases wrote : (c.write s node).2 with err | ⟨⟩
  · exact .fail wrote
  · exact .ok wrote (.nil _)

namespace Tree

mutual

/-- The pairs of the nodes a commit writes, in the order it writes them: the nodes reached from
the root through modified links, children first and left before right, and the root last. -/
def dirty : Tree → List KV
  | mk kv left right => dirtySlot left ++ dirtySlot right ++ [kv]

/-- The pairs of the nodes a commit writes below a slot. -/
def dirtySlot : Option Link → List KV
  | some (.modified _ _ tree) => dirty tree
  | _ => []

end

variable (H : Hasher) (c : Commit σ)

/-- Recording the writes changes nothing but the record, which gains the call. -/
theorem writeAndPrune_recording {α : Type} (record : σ → Tree → α) (tree : Tree) (s : σ)
    (log : List α) :
    tree.writeAndPrune (c.recording record) (s, log) =
      (tree.writeAndPrune c s).map fun (tree', s', result) =>
        (tree', (s', log ++ [record s tree]), result) := by
  -- The recording sink answers the write and the pruning as `c` does.
  obtain ⟨write, prune⟩ := c
  unfold writeAndPrune
  simp only [Commit.recording]
  rcases write s tree with ⟨s', _ | ⟨⟩⟩
  · rfl
  · rcases decision : prune s' tree with ⟨_ | _, _ | _⟩ <;>
      simp [decision, Option.map_bind, Function.comp_def]

/-- Logging the writes changes nothing but the log, which gains the node. -/
theorem writeAndPrune_logged (tree : Tree) (s : σ) (log : List Tree) :
    tree.writeAndPrune c.logged (s, log) =
      (tree.writeAndPrune c s).map fun (tree', s', result) =>
        (tree', (s', log ++ [tree]), result) :=
  -- The log records the node of each call.
  writeAndPrune_recording c _ tree s log

/-- Tracing the writes changes nothing but the trace, which gains the call. -/
theorem writeAndPrune_traced (tree : Tree) (s : σ) (trace : List (σ × Tree)) :
    tree.writeAndPrune c.traced (s, trace) =
      (tree.writeAndPrune c s).map fun (tree', s', result) =>
        (tree', (s', trace ++ [(s, tree)]), result) :=
  -- The trace records the state and the node of each call.
  writeAndPrune_recording c _ tree s trace

/-- `writeAndPrune` returns the state and the result of the node's write: pruning only drops
links. -/
theorem writeAndPrune_write {tree tree' : Tree} {s s' : σ} {result : Except Error Unit}
    (done : tree.writeAndPrune c s = some (tree', s', result)) :
    s' = (c.write s tree).1 ∧ result = (c.write s tree).2 := by
  obtain ⟨write, prune⟩ := c
  unfold writeAndPrune at done
  rcases wrote : write s tree with ⟨s₁, _ | ⟨⟩⟩ <;> simp only [wrote] at done ⊢
  · -- A failed write is returned as it is.
    cases done
    exact ⟨rfl, rfl⟩
  · -- Each pruning decision keeps the state and the write's result.
    rcases decision : prune s₁ tree with ⟨_ | _, _ | _⟩ <;>
      simp [decision, Option.bind_eq_some] at done
    · exact ⟨done.2.1.symm, done.2.2.symm⟩
    · obtain ⟨_, _, _, rfl, rfl⟩ := done; exact ⟨rfl, rfl⟩
    · obtain ⟨_, _, _, rfl, rfl⟩ := done; exact ⟨rfl, rfl⟩
    · obtain ⟨_, _, _, _, _, rfl, rfl⟩ := done; exact ⟨rfl, rfl⟩

/-- After a successful write, `writeAndPrune` can only succeed. -/
theorem writeAndPrune_ok {tree tree' : Tree} {s s' : σ} {result : Except Error Unit}
    (written : (c.write s tree).2 = .ok ())
    (done : tree.writeAndPrune c s = some (tree', s', result)) : result = .ok () :=
  -- The result is the write's.
  (writeAndPrune_write c done).2.trans written

/-- The node's write is a run of the sink from the state it is made from. -/
theorem writeAndPrune_run {tree tree' : Tree} {s s' : σ} {result : Except Error Unit}
    (done : tree.writeAndPrune c s = some (tree', s', result)) : c.Run s [(s, tree)] s' result := by
  -- The state and the result are the write's.
  obtain ⟨rfl, rfl⟩ := writeAndPrune_write c done
  exact Commit.Run.single c s tree

mutual

/-- With writes that succeed, a commit succeeds, and the logged sink records the nodes of `dirty`
in its order, each written once both its slots are settled. -/
theorem commit_logged (writes : ∀ s tree, (c.write s tree).2 = .ok ()) :
    ∀ (tree : Tree) (s : σ) (log : List Tree), ∃ tree' s' written,
      tree.commit H c s = some (tree', s', .ok ()) ∧
      tree.commit H c.logged (s, log) = some (tree', (s', log ++ written), .ok ()) ∧
      written.map Tree.kv = dirty tree ∧
      ∀ node ∈ written, Unmodified (node.link true) ∧ Unmodified (node.link false)
  | mk kv left right, s, log => by
    -- The left slot, then the right one, each with the log so far.
    obtain ⟨left', s₁, writtenLeft, committedLeft, loggedLeft, dirtyLeft, settledLeft⟩ :=
      commitSlot_logged writes left s log
    obtain ⟨right', s₂, writtenRight, committedRight, loggedRight, dirtyRight,
      settledRight⟩ :=
      commitSlot_logged writes right s₁ (log ++ writtenLeft)
    have outcomeLeft := commitSlot_spec H c left s
    have outcomeRight := commitSlot_spec H c right s₁
    rw [committedLeft] at outcomeLeft
    rw [committedRight] at outcomeRight
    -- Then the node itself, whose write succeeds, and whose slots are settled.
    have outcome : CommitOutcome H (mk kv left right) ((mk kv left' right').writeAndPrune c s₂) :=
      writeAndPrune_spec H c outcomeLeft outcomeRight s₂
    rcases done : (mk kv left' right').writeAndPrune c s₂ with _ | ⟨tree', s₃, result⟩
    · rw [done] at outcome
      exact outcome.elim
    obtain rfl := writeAndPrune_ok c (writes _ _) done
    refine ⟨tree', s₃, writtenLeft ++ writtenRight ++ [mk kv left' right'], ?_, ?_, ?_, ?_⟩
    · rw [commit, committedLeft]
      simp [committedRight, done]
    · rw [commit, loggedLeft]
      simp [loggedRight, writeAndPrune_logged, done]
    · simp [dirty, dirtyLeft, dirtyRight]
    · intro node written
      simp only [List.mem_append, List.mem_singleton] at written
      rcases written with (written | written) | rfl
      · exact settledLeft node written
      · exact settledRight node written
      · exact ⟨(outcomeLeft.settled H).1.clean, (outcomeRight.settled H).1.clean⟩

/-- With writes that succeed, settling a slot succeeds, and the logged sink records the nodes of
`dirtySlot` in its order. -/
theorem commitSlot_logged (writes : ∀ s tree, (c.write s tree).2 = .ok ()) :
    ∀ (slot : Option Link) (s : σ) (log : List Tree), ∃ slot' s' written,
      commitSlot H c slot s = some (slot', s', .ok ()) ∧
      commitSlot H c.logged slot (s, log) = some (slot', (s', log ++ written), .ok ()) ∧
      written.map Tree.kv = dirtySlot slot ∧
      ∀ node ∈ written, Unmodified (node.link true) ∧ Unmodified (node.link false)
  | some (.modified _ childHeights tree), s, log => by
    -- The child's commit writes its nodes, and the child is stored under its new hash.
    obtain ⟨tree', s', written, committed, logged, dirtyTree, settled⟩ :=
      commit_logged writes tree s log
    have outcome := commit_spec H c tree s
    rw [committed] at outcome
    obtain ⟨hash, hashed⟩ := outcome.hash_isSome
    refine ⟨some (.stored hash childHeights tree'), s', written, ?_, ?_, dirtyTree, settled⟩
    · rw [commitSlot, committed]
      simp [hashed]
    · rw [commitSlot, logged]
      simp [hashed]
  | none, s, log => ⟨none, s, [], by simp [commitSlot], by simp [commitSlot], rfl, by simp⟩
  | some (.pruned hash childHeights key), s, log =>
    ⟨some (.pruned hash childHeights key), s, [], by simp [commitSlot], by simp [commitSlot], rfl,
      by simp⟩
  | some (.stored hash childHeights tree), s, log =>
    ⟨some (.stored hash childHeights tree), s, [], by simp [commitSlot], by simp [commitSlot],
      rfl, by simp⟩

end

/-- A commit writes exactly the modified nodes, children first, and changes nothing else. With a
sink whose writes succeed, the commit succeeds and asks the sink to write, once each and in this
order, the root and the nodes reached from it through modified links, children before parents and
left before right: the logged sink's log has the pairs of `dirty`. Each node is written once both
its slots are settled. Stored and hash-only links keep their hashes and heights, and a stored one
may only be pruned. Every node left in memory keeps its key and value. -/
theorem commit_writes_dirty_nodes (writes : ∀ s tree, (c.write s tree).2 = .ok ()) (tree : Tree)
    (s : σ) :
    ∃ tree' s' written, tree.commit H c s = some (tree', s', .ok ()) ∧
      tree.commit H c.logged (s, []) = some (tree', (s', written), .ok ()) ∧
      written.map Tree.kv = dirty tree ∧
      (∀ node ∈ written, Unmodified (node.link true) ∧ Unmodified (node.link false)) ∧
      Committed H tree tree' := by
  obtain ⟨tree', s', written, committed, logged, dirtyTree, settled⟩ :=
    commit_logged H c writes tree s []
  -- The frame is the commit's outcome, which `commit_spec` describes.
  have outcome := commit_spec H c tree s
  rw [committed] at outcome
  exact ⟨tree', s', written, committed, by simpa using logged, dirtyTree, settled, outcome⟩

/-- The commit theorem applies to the three-node tree and the sink that writes nothing: the two
modified children are written before the root, the left one first. -/
theorem commit_writes_dirty_nodes_three :
    ∃ tree' s' written,
      (threeNodes concatHasher).commit concatHasher noopCommit () = some (tree', s', .ok ()) ∧
      (threeNodes concatHasher).commit concatHasher noopCommit.logged ((), []) =
        some (tree', (s', written), .ok ()) ∧
      written.map Tree.kv = dirty (threeNodes concatHasher) ∧
      (∀ node ∈ written, Unmodified (node.link true) ∧ Unmodified (node.link false)) ∧
      Committed concatHasher (threeNodes concatHasher) tree' ∧
      written.map Tree.key = [[0], [2], [1]] := by
  obtain ⟨tree', s', written, committed, logged, order, settled, frame⟩ :=
    commit_writes_dirty_nodes concatHasher noopCommit (fun _ _ => rfl) (threeNodes concatHasher) ()
  -- The keys are those of `dirty`, children first.
  refine ⟨tree', s', written, committed, logged, order, settled, frame, ?_⟩
  rw [show written.map Tree.key = (written.map Tree.kv).map KV.key by simp [Tree.key], order]
  rfl

/-- A write that fails inside a child's commit loses the child. The root's left slot held a
modified link to a new node; `commit` takes the link out of the slot, the child's write fails, and
the early return drops it, so the slot ends empty and the node is gone from memory. -/
theorem commit_failed_write_drops_child :
    ((Tree.new concatHasher [0] [0]).attach false true (some (Tree.new concatHasher [1] [1]))).bind
      (fun tree => tree.commit concatHasher
        ⟨fun s _ => (s, .error "write failed"), fun _ _ => (false, false)⟩ ()) =
      some (Tree.new concatHasher [0] [0], (), .error "write failed") :=
  -- The attach runs without the key check, and the commit ends at the child's write.
  rfl

/-- A slot that holds no modified link is left as it is, with nothing written. -/
theorem commitSlot_of_unmodified {slot : Option Link} (clean : Unmodified slot) (s : σ) :
    commitSlot H c slot s = some (slot, s, .ok ()) := by
  -- `commitSlot` only acts on a modified link.
  rcases slot with _ | (_ | _ | _)
  · rfl
  · rfl
  · exact clean.elim
  · rfl

mutual

/-- With any sink, a commit's calls to `write` are a run of the sink over a prefix of `dirty`:
all of it when the commit succeeds, and up to the first write that fails, whose error it returns,
when it fails. Tracing the calls changes nothing else. -/
theorem commit_asks_prefix : ∀ (tree : Tree) (s : σ) (trace : List (σ × Tree)),
    ∃ tree' s' calls result,
      tree.commit H c s = some (tree', s', result) ∧
      tree.commit H c.traced (s, trace) = some (tree', (s', trace ++ calls), result) ∧
      c.Run s calls s' result ∧ calls.map (fun call => call.2.kv) <+: dirty tree ∧
      (result = .ok () → calls.map (fun call => call.2.kv) = dirty tree)
  | mk kv left right, s, trace => by
    obtain ⟨left', s₁, callsLeft, resultLeft, plainLeft, tracedLeft, runLeft, prefixLeft,
      doneLeft⟩ := commitSlot_asks_prefix left s trace
    rcases resultLeft with errLeft | ⟨⟩
    · -- A failed write under the left slot ends the commit.
      refine ⟨mk kv left' right, s₁, callsLeft, .error errLeft, ?_, ?_, runLeft,
        prefixLeft.trans ?_, nofun⟩
      · rw [commit, plainLeft]
        rfl
      · rw [commit, tracedLeft]
        rfl
      · rw [dirty, List.append_assoc]
        exact List.prefix_append _ _
    obtain ⟨right', s₂, callsRight, resultRight, plainRight, tracedRight, runRight, prefixRight,
      doneRight⟩ := commitSlot_asks_prefix right s₁ (trace ++ callsLeft)
    have leftCalls : callsLeft.map (fun call => call.2.kv) = dirtySlot left := doneLeft rfl
    have runBoth := runLeft.append runRight
    rcases resultRight with errRight | ⟨⟩
    · -- So does one under the right slot, after the left slot's writes.
      refine ⟨mk kv left' right', s₂, callsLeft ++ callsRight, .error errRight, ?_, ?_, runBoth,
        ?_, nofun⟩
      · rw [commit, plainLeft]
        simp [plainRight]
      · rw [commit, tracedLeft]
        simp [tracedRight]
      · rw [List.map_append, leftCalls, dirty, List.append_assoc]
        exact (List.prefix_append_right_inj _).2 (prefixRight.trans (List.prefix_append _ _))
    -- Both slots are settled, and the node's own write decides.
    have outcomeLeft := commitSlot_spec H c left s
    have outcomeRight := commitSlot_spec H c right s₁
    rw [plainLeft] at outcomeLeft
    rw [plainRight] at outcomeRight
    have outcome : CommitOutcome H (mk kv left right) ((mk kv left' right').writeAndPrune c s₂) :=
      writeAndPrune_spec H c outcomeLeft outcomeRight s₂
    rcases done : (mk kv left' right').writeAndPrune c s₂ with _ | ⟨tree', s₃, result⟩
    · rw [done] at outcome
      exact outcome.elim
    have calls : (callsLeft ++ callsRight ++ [(s₂, mk kv left' right')]).map
        (fun call => call.2.kv) = dirty (mk kv left right) := by
      simp [dirty, leftCalls, doneRight rfl]
    refine ⟨tree', s₃, callsLeft ++ callsRight ++ [(s₂, mk kv left' right')], result, ?_, ?_,
      runBoth.append (writeAndPrune_run c done), calls ▸ List.prefix_refl _, fun _ => calls⟩
    · rw [commit, plainLeft]
      simp [plainRight, done]
    · rw [commit, tracedLeft]
      simp [tracedRight, writeAndPrune_traced, done]

/-- With any sink, settling a slot makes a run of the sink over a prefix of `dirtySlot`, all of it
when it succeeds. -/
theorem commitSlot_asks_prefix : ∀ (slot : Option Link) (s : σ) (trace : List (σ × Tree)),
    ∃ slot' s' calls result,
      commitSlot H c slot s = some (slot', s', result) ∧
      commitSlot H c.traced slot (s, trace) = some (slot', (s', trace ++ calls), result) ∧
      c.Run s calls s' result ∧ calls.map (fun call => call.2.kv) <+: dirtySlot slot ∧
      (result = .ok () → calls.map (fun call => call.2.kv) = dirtySlot slot)
  | some (.modified _ childHeights tree), s, trace => by
    obtain ⟨tree', s', calls, result, plain, traced, run, prefixTree, doneTree⟩ :=
      commit_asks_prefix tree s trace
    rcases result with err | ⟨⟩
    · -- The child is dropped with its failed write.
      exact ⟨none, s', calls, .error err, by rw [commitSlot, plain]; rfl,
        by rw [commitSlot, traced]; rfl, run, prefixTree, nofun⟩
    · -- The committed child has a hash, and is stored under it.
      have outcome := commit_spec H c tree s
      rw [plain] at outcome
      obtain ⟨hash, hashed⟩ := outcome.hash_isSome
      exact ⟨some (.stored hash childHeights tree'), s', calls, .ok (),
        by rw [commitSlot, plain]; simp [hashed], by rw [commitSlot, traced]; simp [hashed], run,
        prefixTree, fun _ => doneTree rfl⟩
  | none, s, trace | some (.pruned ..), s, trace | some (.stored ..), s, trace =>
    -- Any other slot is left as it is, and nothing is written.
    ⟨_, s, [], .ok (), commitSlot_of_unmodified H c (by trivial) _, (by
      rw [List.append_nil]
      exact commitSlot_of_unmodified H c.traced (by trivial) _), .nil s, List.nil_prefix,
      fun _ => rfl⟩

end

/-- A commit writes the modified nodes in order up to the first write that fails. With any sink,
the commit's calls to `write` are a run of the sink: the first is made from the state the commit
is given, each later one from the state the call before it left, and the commit returns the state
the last call left. The nodes asked for are, in order, a prefix of `dirty`: the nodes reached from
the root through modified links, children first and the root last. Every call returns `Ok` but a
last one that fails: a commit that succeeds has asked for all of `dirty`, and one that fails
returns the error of its last call and makes no call after it. Tracing the calls changes neither
the tree, the state nor the result. -/
theorem commit_writes_until_failure (tree : Tree) (s : σ) :
    ∃ tree' s' calls result,
      tree.commit H c s = some (tree', s', result) ∧
      tree.commit H c.traced (s, []) = some (tree', (s', calls), result) ∧
      c.Run s calls s' result ∧ calls.map (fun call => call.2.kv) <+: dirty tree ∧
      (result = .ok () → calls.map (fun call => call.2.kv) = dirty tree) := by
  -- The general statement, with nothing traced before the commit.
  obtain ⟨tree', s', calls, result, plain, traced, rest⟩ := commit_asks_prefix H c tree s []
  exact ⟨tree', s', calls, result, plain, by simpa using traced, rest⟩

/-- A node whose slots hold no modified link is committed by its own write and pruning. -/
theorem commit_of_unmodified {kv : KV} {left right : Option Link} (cleanLeft : Unmodified left)
    (cleanRight : Unmodified right) (s : σ) :
    (mk kv left right).commit H c s = (mk kv left right).writeAndPrune c s := by
  -- Both slots are left as they are, with the state unchanged.
  simp only [commit, commitSlot_of_unmodified H c cleanLeft,
    commitSlot_of_unmodified H c cleanRight, Option.some_bind]

/-- A commit leaves no work behind. After a commit that succeeds, with any sink, committing the
result again, with a sink whose writes succeed, succeeds and writes exactly one node: the
committed tree itself. -/
theorem commit_again_writes_root {tree tree' : Tree} {s s' : σ}
    (committed : tree.commit H c s = some (tree', s', .ok ())) {τ : Type} (c' : Commit τ)
    (writes : ∀ t node, (c'.write t node).2 = .ok ()) (t : τ) :
    ∃ tree'' t', tree'.commit H c'.logged (t, []) = some (tree'', (t', [tree']), .ok ()) := by
  have outcome := commit_spec H c tree s
  rw [committed] at outcome
  obtain ⟨kv, left, right⟩ := tree
  obtain ⟨kv', left', right'⟩ := tree'
  -- Both slots of the committed node are settled, so the second commit only writes the node.
  obtain ⟨-, settledLeft, settledRight⟩ := outcome
  have cleanLeft := settledLeft.clean
  have cleanRight := settledRight.clean
  have again := commit_spec H c' (mk kv' left' right') t
  rw [commit_of_unmodified H c' cleanLeft cleanRight] at again
  rw [commit_of_unmodified H c'.logged cleanLeft cleanRight, writeAndPrune_logged]
  rcases done : (mk kv' left' right').writeAndPrune c' t with _ | ⟨tree'', t', result⟩
  · rw [done] at again
    exact again.elim
  · obtain rfl := writeAndPrune_ok c' (writes _ _) done
    exact ⟨tree'', t', rfl⟩

/-- The three-node tree, committed with the sink that writes nothing, is written once more, and
alone, by a second commit. -/
theorem commit_again_writes_root_three :
    ∃ tree', (threeNodes concatHasher).commit concatHasher noopCommit () =
        some (tree', (), .ok ()) ∧
      ∃ tree'' t', tree'.commit concatHasher noopCommit.logged ((), []) =
        some (tree'', (t', [tree']), .ok ()) :=
  -- The first commit stores both leaves; the second is applied to what it made.
  ⟨_, rfl, @commit_again_writes_root Unit concatHasher noopCommit (threeNodes concatHasher) _ () ()
    rfl Unit noopCommit (fun _ _ => rfl) ()⟩

end Tree

end LiftedMerk
