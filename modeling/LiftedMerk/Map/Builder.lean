import LiftedMerk.Map.BTreeMap
import LiftedMerk.Tree.Hash
import Mathlib.Data.List.Chain
import Mathlib.Data.List.Lex

/-! Building a proof map from a proof's nodes: the pairs it reveals, each flagged by whether nothing
was left out just before it, and whether nothing was left out after the last one. -/

namespace LiftedMerk

/-- Bytes compare as the numbers they hold, so that byte strings, keys among them, compare
lexicographically, as `Ord` does for `Vec<u8>`. -/
instance byteOrder : LinearOrder UInt8 := LinearOrder.lift' UInt8.toNat fun _ _ => UInt8.toNat.inj

/-- Modelled from the spec: `proofs::Node` is not in the source. A node of a proof. -/
inductive Node where
  /-- `Node::Hash`: a subtree given by its hash only. -/
  | hash (hash : Hash)
  /-- `Node::KVHash`: a node given by the hash of its pair only. -/
  | kvHash (kvHash : Hash)
  /-- `Node::KV`: a node's key and value. -/
  | kv (key : Key) (value : Value)

namespace Node

/-- Whether the node reveals a pair, as `Node::KV` does. -/
def isKV : Node → Bool
  | kv .. => true
  | _ => false

/-- The key a `Node::KV` reveals. -/
def key? : Node → Option Key
  | kv key _ => some key
  | _ => none

end Node

/-- `JsMap`: the pairs a proof reveals, by key, each with whether it is contiguous with the pair
before it, and whether nothing was left out after the last one. -/
structure JsMap where
  /-- `entries`: each key's `(contiguous, value)`. -/
  entries : BTreeMap Key (Bool × Value)
  /-- `right_edge`. -/
  rightEdge : Bool

/-- `JsMapBuilder`, the map being built. -/
structure JsMapBuilder where
  /-- The map, the builder's only field. -/
  map : JsMap

namespace JsMapBuilder

/-- `JsMapBuilder::new`: no entries, and the right edge reached. -/
def new : JsMapBuilder := ⟨⟨BTreeMap.empty, true⟩⟩

/-- `JsMapBuilder::insert`: a pair above every key so far is recorded as contiguous when the right
edge was reached, and reaches it; a hash leaves it. A pair out of order is an error, and the
builder is left as it was. -/
def insert (builder : JsMapBuilder) : Node → JsMapBuilder × Except Error Unit
  | .kv key value =>
    if builder.map.entries.lastKeyValue.all fun last => key > last.1 then
      (⟨⟨builder.map.entries.insert key (builder.map.rightEdge, value), true⟩⟩, .ok ())
    else (builder, .error "Expected nodes to be in increasing key order")
  | _ => (⟨{ builder.map with rightEdge := false }⟩, .ok ())

/-- `JsMapBuilder::build`. -/
def build (builder : JsMapBuilder) : JsMap := builder.map

/-- Inserting a proof's nodes one by one, `builder.insert(node)?` for each, up to the first
error. -/
def insertAll (builder : JsMapBuilder) : List Node → JsMapBuilder × Except Error Unit
  | [] => (builder, .ok ())
  | node :: nodes =>
    match builder.insert node with
    | (builder, .ok ()) => builder.insertAll nodes
    | failed => failed

/-- A failed insert leaves the builder as it was. -/
theorem insert_error {builder : JsMapBuilder} {node : Node}
    (failed : (builder.insert node).2 ≠ .ok ()) : (builder.insert node).1 = builder := by
  -- Only a pair out of order fails, before anything is changed.
  cases node with
  | kv key value =>
    simp only [insert] at failed ⊢
    split_ifs at failed ⊢
    · exact (failed rfl).elim
    · rfl
  | hash | kvHash => exact (failed rfl).elim

end JsMapBuilder

/-- The keys a proof's nodes reveal, in order. -/
def kvKeys (nodes : List Node) : List Key := nodes.filterMap Node.key?

/-- The entries a proof's nodes give, in order: the pair of each `Node::KV`, flagged contiguous
when the node before it is a `Node::KV` too, or, for the first node, when `edge` holds. -/
def proofEntries (edge : Bool) (nodes : List Node) : List (Key × Bool × Value) :=
  ((edge :: nodes.map Node.isKV).zip nodes).filterMap fun (contiguous, node) =>
    match node with
    | .kv key value => some (key, contiguous, value)
    | _ => none

/-- A `Node::KV` reveals its key before those of the nodes after it. -/
@[simp] theorem kvKeys_kv (key : Key) (value : Value) (nodes : List Node) :
    kvKeys (.kv key value :: nodes) = key :: kvKeys nodes :=
  -- The filter keeps the node's key.
  rfl

/-- The keys two runs of nodes reveal, one after the other. -/
@[simp] theorem kvKeys_append (nodes nodes' : List Node) :
    kvKeys (nodes ++ nodes') = kvKeys nodes ++ kvKeys nodes' :=
  -- The keys are a `filterMap` of the nodes.
  List.filterMap_append _ _ _

/-- No nodes give no entries. -/
@[simp] theorem proofEntries_nil (edge : Bool) : proofEntries edge [] = [] :=
  -- Nothing is zipped with the flags.
  rfl

/-- A `Node::KV` gives its entry, flagged as `edge` says, and makes the next one contiguous. -/
@[simp] theorem proofEntries_kv (edge : Bool) (key : Key) (value : Value) (nodes : List Node) :
    proofEntries edge (.kv key value :: nodes) = (key, edge, value) :: proofEntries true nodes :=
  -- The node is zipped with `edge`, and the next node with the node's own flag.
  rfl

/-- A node that reveals no pair gives no entry, and the next pair is not contiguous. -/
theorem proofEntries_hidden {node : Node} (hidden : node.isKV = false) (edge : Bool)
    (nodes : List Node) : proofEntries edge (node :: nodes) = proofEntries false nodes := by
  -- A hash node is dropped, and flags the next node with its own `false`.
  cases node <;> first | rfl | cases hidden

/-- A node that reveals no pair reveals no key. -/
theorem kvKeys_hidden {node : Node} (hidden : node.isKV = false) (nodes : List Node) :
    kvKeys (node :: nodes) = kvKeys nodes := by
  -- A hash node is dropped.
  cases node <;> first | rfl | cases hidden

/-- Every entry of a proof is the pair of one of its `Node::KV`s. -/
theorem mem_proofEntries {edge : Bool} {nodes : List Node} {key : Key} {contiguous : Bool}
    {value : Value} (mem : (key, contiguous, value) ∈ proofEntries edge nodes) :
    Node.kv key value ∈ nodes := by
  simp only [proofEntries, List.mem_filterMap] at mem
  obtain ⟨⟨_, node⟩, paired, found⟩ := mem
  -- The entry comes from a node of the proof, which reveals its pair.
  cases node with
  | kv key' value' =>
    simp only [Option.some.injEq, Prod.mk.injEq] at found
    obtain ⟨rfl, -, rfl⟩ := found
    exact (List.of_mem_zip paired).2
  | hash | kvHash => cases found

/-- The key of every `Node::KV` of a proof is revealed. -/
theorem mem_kvKeys {nodes : List Node} {key : Key} {value : Value}
    (revealed : Node.kv key value ∈ nodes) : key ∈ kvKeys nodes :=
  -- The filter keeps the node's key.
  List.mem_filterMap.2 ⟨_, revealed, rfl⟩

/-- Every key a proof reveals is that of one of its `Node::KV`s. -/
theorem exists_of_mem_kvKeys {nodes : List Node} {key : Key} (revealed : key ∈ kvKeys nodes) :
    ∃ value, Node.kv key value ∈ nodes := by
  -- Only a `Node::KV` passes the filter.
  obtain ⟨node, mem, found⟩ := List.mem_filterMap.1 revealed
  cases node with
  | kv key' value => cases found; exact ⟨value, mem⟩
  | hash _ | kvHash _ => cases found

/-- Every `Node::KV` of a proof gives an entry with its pair. -/
theorem exists_mem_proofEntries {edge : Bool} {nodes : List Node} {key : Key} {value : Value}
    (revealed : Node.kv key value ∈ nodes) :
    ∃ contiguous, (key, contiguous, value) ∈ proofEntries edge nodes := by
  -- The node is the first one, or among the rest, which come with some flag.
  induction nodes generalizing edge with
  | nil => cases revealed
  | cons node nodes ih =>
    rcases List.mem_cons.1 revealed with rfl | inRest
    · exact ⟨edge, List.mem_cons_self _ _⟩
    · cases node with
      | kv key' value' =>
        obtain ⟨contiguous, mem⟩ := @ih true inRest
        exact ⟨contiguous, List.mem_cons_of_mem _ mem⟩
      | hash _ | kvHash _ =>
        obtain ⟨contiguous, mem⟩ := @ih false inRest
        exact ⟨contiguous, mem⟩

/-- An entry that is not contiguous comes right after a node that reveals no pair, or, when
`edge` is unset, from the proof's first node. -/
theorem proofEntries_gap {edge : Bool} {nodes : List Node} {key : Key} {value : Value}
    (mem : (key, false, value) ∈ proofEntries edge nodes) :
    (edge = false ∧ nodes.head? = some (.kv key value)) ∨
      ∃ before node after, nodes = before ++ node :: .kv key value :: after ∧
        node.isKV = false := by
  induction nodes generalizing edge with
  | nil => cases mem
  | cons node nodes ih =>
    cases node with
    | kv key' value' =>
      rw [proofEntries_kv] at mem
      rcases List.mem_cons.1 mem with same | later
      · -- The node's own entry, flagged with `edge`.
        simp only [Prod.mk.injEq] at same
        obtain ⟨rfl, rfl, rfl⟩ := same
        exact .inl ⟨rfl, rfl⟩
      · rcases @ih true later with ⟨contiguous, -⟩ | ⟨before, node, after, rfl, hidden⟩
        · cases contiguous
        · exact .inr ⟨_ :: before, node, after, rfl, hidden⟩
    | hash _ | kvHash _ =>
      rcases @ih false mem with ⟨-, first⟩ | ⟨before, node, after, rfl, hidden⟩
      · -- The gap follows this node.
        obtain ⟨after, rfl⟩ := List.head?_eq_some_iff.1 first
        exact .inr ⟨[], _, after, rfl, rfl⟩
      · exact .inr ⟨_ :: before, node, after, rfl, hidden⟩

/-- A proof made of pairs alone reveals their keys. -/
theorem kvKeys_revealed (pairs : List (Key × Value)) :
    kvKeys (pairs.map fun pair => .kv pair.1 pair.2) = pairs.map Prod.fst := by
  -- Every node passes the filter.
  induction pairs with
  | nil => rfl
  | cons pair pairs ih => exact congrArg (pair.1 :: ·) ih

/-- A proof made of pairs alone gives each of them, contiguous. -/
theorem proofEntries_revealed (pairs : List (Key × Value)) :
    proofEntries true (pairs.map fun pair => .kv pair.1 pair.2) =
      pairs.map fun pair => (pair.1, true, pair.2) := by
  -- Every node follows a `Node::KV`, or the edge.
  induction pairs with
  | nil => rfl
  | cons pair pairs ih => exact congrArg ((pair.1, true, pair.2) :: ·) ih

/-- After a node and more, the last node is that of the rest, if any. -/
theorem getLast?_isKV_cons (node : Node) (nodes : List Node) (edge : Bool) :
    ((node :: nodes).getLast?.map Node.isKV).getD edge =
      (nodes.getLast?.map Node.isKV).getD node.isKV := by
  -- The last node of the rest, or the node itself when the rest is empty.
  rw [List.getLast?_cons]
  cases nodes.getLast? <;> rfl

/-- The entries of two runs of nodes: the second run's first pair is contiguous when the first run
ends with a `Node::KV`, or, after an empty first run, when `edge` holds. -/
theorem proofEntries_append (edge : Bool) (nodes nodes' : List Node) :
    proofEntries edge (nodes ++ nodes') = proofEntries edge nodes ++
      proofEntries ((nodes.getLast?.map Node.isKV).getD edge) nodes' := by
  -- Each node of the first run passes its flag on to the next.
  induction nodes generalizing edge with
  | nil => rfl
  | cons node nodes ih =>
    rw [getLast?_isKV_cons, List.cons_append]
    cases node with
    | kv key value => rw [proofEntries_kv, proofEntries_kv, ih]; rfl
    | hash _ | kvHash _ => exact ih false

/-- After a node that reveals no pair, the first pair is not contiguous. -/
theorem proofEntries_false_head (nodes : List Node) :
    ∀ entry ∈ (proofEntries false nodes).head?, entry.2.1 = false := by
  -- Hash nodes pass the unset flag on until the first `Node::KV`.
  induction nodes with
  | nil => simp
  | cons node nodes ih =>
    cases node with
    | kv key value => simp
    | hash _ | kvHash _ => exact ih

/-- A proof that ends with a node revealing no pair, and no pair after it, leaves the right edge
unreached. -/
theorem last_isKV_of_hidden {node : Node} (hidden : node.isKV = false) {nodes : List Node}
    (noPair : proofEntries false nodes = []) (edge : Bool) :
    ((node :: nodes).getLast?.map Node.isKV).getD edge = false := by
  -- Every node after the hidden one hides its pair too.
  induction nodes generalizing node edge with
  | nil => simpa using hidden
  | cons node' nodes ih =>
    rw [getLast?_isKV_cons]
    cases node' with
    | kv key value => simp at noPair
    | hash _ | kvHash _ => apply ih <;> first | rfl | exact noPair

/-- Keys after a map's last entry, if any, ascend exactly when the first is above that entry's
key and the keys from the first on ascend. -/
theorem chain'_after_last {last : Option (Key × Bool × Value)} {key : Key} {keys : List Key} :
    ((last.map Prod.fst).toList ++ key :: keys).Chain' (· < ·) ↔
      (last.all fun last => key > last.1) ∧ (key :: keys).Chain' (· < ·) := by
  -- The last key, if any, is one more link at the front of the chain.
  cases last <;> simp [List.chain'_cons]

namespace JsMapBuilder

/-- What inserting nodes does, from any builder: it succeeds exactly when the revealed keys ascend
strictly from the builder's last key, and then appends the nodes' entries, flagged from the
builder's right edge on, and ends with the right edge of the last node, if any. -/
theorem insertAll_spec (nodes : List Node) : ∀ builder : JsMapBuilder,
    ((builder.insertAll nodes).2 = .ok () ↔
      ((builder.map.entries.lastKeyValue.map Prod.fst).toList ++ kvKeys nodes).Chain' (· < ·)) ∧
    ((builder.insertAll nodes).2 = .ok () →
      (builder.insertAll nodes).1.map.entries.entries =
        builder.map.entries.entries ++ proofEntries builder.map.rightEdge nodes ∧
      (builder.insertAll nodes).1.map.rightEdge =
        (nodes.getLast?.map Node.isKV).getD builder.map.rightEdge) := by
  induction nodes with
  | nil =>
    -- Nothing is inserted, and a list of at most one key ascends.
    intro builder
    cases builder.map.entries.lastKeyValue <;> simp [insertAll, kvKeys]
  | cons node nodes ih =>
    intro ⟨⟨entries, edge⟩⟩
    cases node with
    | kv key value =>
      by_cases above : entries.lastKeyValue.all fun last => key > last.1
      · -- The pair is appended, becomes the last one, and the right edge is reached.
        have appended : BTreeMap.insertEntry key (edge, value) entries.entries =
            entries.entries ++ [(key, edge, value)] :=
          BTreeMap.insertEntry_of_lt (BTreeMap.lt_of_lastKeyValue above)
        obtain ⟨succeeds, built⟩ := ih ⟨⟨entries.insert key (edge, value), true⟩⟩
        simp only [BTreeMap.lastKeyValue, BTreeMap.insert, appended, List.getLast?_append,
          List.getLast?_singleton] at succeeds built
        simp only [insertAll, insert, above, if_true, BTreeMap.insert, appended, kvKeys_kv,
          proofEntries_kv, chain'_after_last, true_and, getLast?_isKV_cons, Node.isKV]
        refine ⟨by simpa using succeeds, fun ok => ?_⟩
        simpa using built ok
      · -- The pair is out of order: the insert fails, and the keys do not ascend.
        simp [insertAll, insert, above, chain'_after_last]
    | hash _ | kvHash _ =>
      -- A hash is no pair: the right edge is left, and the keys and entries come from the rest.
      obtain ⟨succeeds, built⟩ := ih ⟨⟨entries, false⟩⟩
      simp only [insertAll, insert, kvKeys_hidden, proofEntries_hidden, getLast?_isKV_cons,
        Node.isKV]
      exact ⟨succeeds, built⟩

/-- A proof that a new builder accepts builds the map of its entries, the first flagged contiguous,
whose right edge is reached when the proof is empty or ends with a `Node::KV`. -/
theorem built_of_ok {nodes : List Node} (accepted : (new.insertAll nodes).2 = .ok ()) :
    (new.insertAll nodes).1.build.entries.entries = proofEntries true nodes ∧
    (new.insertAll nodes).1.build.rightEdge = (nodes.getLast?.map Node.isKV).getD true :=
  -- A new builder has no last key and the edge flag set.
  (insertAll_spec nodes new).2 accepted

/-- The map builder records exactly the proof's structure. Inserting a proof's nodes one by one
into a new builder succeeds exactly when the keys the proof reveals strictly ascend, and an insert
that fails leaves the builder as it was. When every insert succeeds, the built map's entries are
the pairs the proof reveals, in order, each flagged contiguous exactly when the node before it
reveals a pair too or no node precedes it; and the right edge is reached exactly when the proof is
empty or its last node reveals a pair. -/
theorem insertAll_records_proof (nodes : List Node) :
    ((new.insertAll nodes).2 = .ok () ↔ (kvKeys nodes).Chain' (· < ·)) ∧
    (∀ (builder : JsMapBuilder) (node : Node),
      (builder.insert node).2 ≠ .ok () → (builder.insert node).1 = builder) ∧
    ((new.insertAll nodes).2 = .ok () →
      (new.insertAll nodes).1.build.entries.entries = proofEntries true nodes ∧
      (new.insertAll nodes).1.build.rightEdge = nodes.getLast?.all Node.isKV) := by
  -- The run from any builder, started from the new one, which has no last key.
  obtain ⟨succeeds, built⟩ := insertAll_spec nodes new
  refine ⟨by simpa [new, BTreeMap.lastKeyValue, BTreeMap.empty] using succeeds,
    fun _ _ => insert_error, fun ok => ?_⟩
  obtain ⟨entries, edge⟩ := built ok
  refine ⟨by simpa [new, BTreeMap.empty] using entries, ?_⟩
  rw [build, edge]
  cases nodes.getLast? <;> rfl

/-- The proof of the source's `mapbuilder_build` test: the pair after the hash is not
contiguous. -/
example : (new.insertAll [.kv [1, 2, 3] [1], .hash [], .kv [1, 2, 4] [2]]).1.build.entries.entries =
    [([1, 2, 3], true, [1]), ([1, 2, 4], false, [2])] := by
  decide

end JsMapBuilder

end LiftedMerk
