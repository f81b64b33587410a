import LiftedMerk.Tree.Hash
import LiftedMerk.Tree.Node
import LiftedMerk.Tree.Ops
import LiftedMerk.Tree.Commit
import LiftedMerk.Tree.Load
import LiftedMerk.Tree.Reachable
import LiftedMerk.Tree.Hashes
import LiftedMerk.Tree.Heights
import LiftedMerk.Tree.Balance
import LiftedMerk.Tree.Writes
import LiftedMerk.Tree.Pending
import LiftedMerk.Tree.Prune
import LiftedMerk.Map.BTreeMap
import LiftedMerk.Map.Builder
import LiftedMerk.Map.Query
import LiftedMerk.Map.Completeness
import LiftedMerk.Map.Coverage
