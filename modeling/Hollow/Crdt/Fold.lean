import Hollow.Crdt.Apply
import Hollow.Lib.JudgedFold
import Hollow.Lib.StableSort

/-! The place of an op in the fold of a server, in which every op is judged against the state just
before it, and a sample world to run the model in. -/

namespace Hollow.Crdt

namespace CrdtOp

def isCheckpoint (op : CrdtOp) : Bool :=
  match op.payload with
  | .serverCheckpoint .. => true
  | _ => false

/-- An op's place in the fold: its stamp, except a checkpoint, which sits at what it covers and
after any op at that same stamp. -/
def foldKey (op : CrdtOp) : Lex (HlcTimestamp × Bool) :=
  match op.payload with
  | .serverCheckpoint _ covers => toLex (covers, true)
  | _ => toLex (op.hlc, false)

def isFounding (op : CrdtOp) : Bool :=
  match op.payload with
  | .serverCreated .. => true
  | _ => false

end CrdtOp

/-- The self-certifying id of the sample server, which "o" founds with the nonce "n". -/
def sampleId : String := "0123456789abcdef0123456789abcdef01234567"

/-- A world without cryptography, to run the model in: a key is its own peer id, every signature
verifies, and a checkpoint's body is whatever the table says. -/
def sampleWorld (parseState : String → Option Snapshot) : World where
  peerIdOf := some
  verifies _ _ _ := true
  deriveServerId owner nonce := if owner = "o" ∧ nonce = "n" then sampleId else ""
  isKey _ := true
  isBase64 _ _ := true
  doorKey := some
  publicOf := id
  resolveIdentity := id
  parseState
  parseLayout _ := none
  followCredentialAdmitsAt _ _ _ _ := true

def sampleOp (author : String) (ms : Nat) (payload : CrdtPayload) : CrdtOp :=
  { serverId := sampleId, hlc := ⟨ms, 0, author⟩, author, payload, auth := some ⟨"", author⟩ }

end Hollow.Crdt
