import Mathlib.Logic.Basic

/-! Keys, values, hashes and errors of tree nodes, and the key/value pair each node owns. -/

namespace LiftedMerk

/-- A key (`tree::Key`), a byte string. -/
abbrev Key := List UInt8

/-- A value (`tree::Value`), a byte string. -/
abbrev Value := List UInt8

/-- A hash (`tree::Hash`), a byte string of `hashLength` bytes. -/
abbrev Hash := List UInt8

/-- An error (`failure::Error`), by its message. -/
abbrev Error := String

/-- Modelled from the spec: `tree::hash` is not in the source. Hashes are twenty bytes long, as the
hashes the tests compare with are. -/
def hashLength : Nat := 20

/-- Modelled from the spec: `NULL_HASH`, the all-zero hash that stands for a missing child. -/
def nullHash : Hash := List.replicate hashLength 0

/-- The hash primitives `kv_hash` and `node_hash`, which the model leaves open. -/
structure Hasher where
  /-- `kv_hash`: the hash of a key/value pair. -/
  kvHash : Key → Value → Hash
  /-- `node_hash`: the hash of a node, from its pair's hash and its two children's hashes. -/
  nodeHash : Hash → Hash → Hash → Hash

/-- A hasher that concatenates its inputs, standing in for `kv_hash` and `node_hash` where a
concrete one is needed. -/
def concatHasher : Hasher :=
  ⟨fun key value => key ++ value, fun kvHash left right => kvHash ++ left ++ right⟩

/-- Modelled from the spec: `tree::kv` is not in the source. A node's key and value, and the
hash of the pair, computed when the pair is made. -/
structure KV where
  /-- The node's key. -/
  key : Key
  /-- The node's value. -/
  value : Value
  /-- The hash of the pair. -/
  hash : Hash
  deriving DecidableEq, Repr

namespace KV

variable (H : Hasher)

/-- `KV::new`: a pair with its hash. -/
def new (key : Key) (value : Value) : KV := ⟨key, value, H.kvHash key value⟩

/-- `KV::with_value`: the same key with a new value, and the new pair's hash. -/
def withValue (kv : KV) (value : Value) : KV := ⟨kv.key, value, H.kvHash kv.key value⟩

/-- Replacing the value keeps the key. -/
@[simp] theorem withValue_key (kv : KV) (value : Value) : (kv.withValue H value).key = kv.key :=
  -- The new pair is made from the old key.
  rfl

end KV

end LiftedMerk
