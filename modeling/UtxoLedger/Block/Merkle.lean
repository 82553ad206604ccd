import UtxoLedger.Crypto.Suite
import UtxoLedger.Error

/-!
The Merkle root of a list of identifiers: neighbours are hashed together level by level until one
node is left, and a level of odd length repeats its last node.
-/

namespace UtxoLedger.Merkle

variable [CryptoSuite]

/-- The parent of two nodes. -/
def parent (left right : Digest) : Digest :=
  hash256 (left.toList ++ right.toList)

/-- The level above a level. -/
def level : List Digest → List Digest
  | left :: right :: rest => parent left right :: level rest
  | [last] => [parent last last]
  | [] => []

theorem length_level (nodes : List Digest) : (level nodes).length = (nodes.length + 1) / 2 := by
  induction nodes using level.induct with
  | case1 left right rest ih => simp [level, ih]; omega
  | case2 last => simp [level]
  | case3 => simp [level]

/-- The node that is left when the levels above `first :: rest` have been taken. -/
def rootOf (first : Digest) (rest : List Digest) : Digest :=
  match rest with
  | [] => first
  | second :: more => rootOf (parent first second) (level more)
termination_by rest.length
decreasing_by
  simp only [length_level, List.length_cons]
  omega

/-- The root of a list of identifiers. An empty list has none. -/
def root (ids : List TxId) : Except Error Digest :=
  match ids with
  | [] => .error (.blockValidation .emptyMerkleTree)
  | first :: rest => .ok (rootOf first.bytes (rest.map (·.bytes)))

end UtxoLedger.Merkle
