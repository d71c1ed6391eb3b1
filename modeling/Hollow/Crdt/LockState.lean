import Hollow.Crdt.Operations

/-! The join lock: when a link speaks for the owner or extends another, and the chain, doors and
grants a replica holds. -/

namespace Hollow.Crdt

def maxChain : Nat := 256

/-- Every lock number stays an exact integer in any JSON reader. -/
def maxN : Nat := 2 ^ 53 - 1

def doorsKept : Nat := 8

def grantsPerMaster : Nat := 4

namespace LockLink

def isBase (link : LockLink) : Bool := link.owner.isSome

def payload (link : LockLink) (serverId : String) : String :=
  let head := "hollow-lock1\n" ++ serverId ++ "\n" ++ toString link.n ++ "\n" ++ link.door ++
    "\n" ++ link.change ++ "\n"
  match link.owner with
  | some owner => head ++ "base\n" ++ owner ++ "\n" ++ link.nonce.getD ""
  | none => head ++ "next"

/-- Every field within the one shape the relay stores, before any signature is read. -/
def wellFormed (c : Crypto) (link : LockLink) : Bool :=
  link.n ≤ maxN && (c.doorKey link.door).isSome && c.isKey link.change &&
    c.isBase64 link.sig 88 && link.owner.all c.isKey &&
    link.nonce.all (fun n => n.utf8ByteSize ≤ 64 && n.toList.all isHexDigit) &&
    (link.owner.isSome || link.nonce.isNone)

end LockLink

def signedBy (c : Crypto) (key payload sig : String) : Bool :=
  c.isKey key && c.verifies key sig payload

/-- The owner an owner-signed link speaks for: its key derives the id, a self-certifying server
id hashes from that id and the nonce, and the key signed it. -/
def baseOwner (c : Crypto) (serverId : String) (link : LockLink) : Option String := do
  let ownerKey ← link.owner
  guard (link.wellFormed c)
  let owner ← c.peerIdOf ownerKey
  if isGenesisId serverId then
    let nonce ← link.nonce
    guard (c.deriveServerId owner nonce = serverId)
  guard (signedBy c ownerKey (link.payload serverId) link.sig)
  return owner

def extendsLink (c : Crypto) (serverId : String) (prev next : LockLink) : Bool :=
  !next.isBase && next.wellFormed c && prev.n + 1 ≤ u64Max && prev.n + 1 == next.n &&
    signedBy c prev.change (next.payload serverId) next.sig

structure Door where
  n : Nat
  secret : String
deriving DecidableEq

structure JoinLockState where
  /-- Chain links by number, owner-signed ones included. -/
  links : List LockLink := []
  /-- Door secrets by the door's public half. -/
  doors : Std.ExtTreeMap String Door := ∅
  /-- Sealed change keys: change key, then master, then grants. -/
  grants : Std.ExtTreeMap String (Std.ExtTreeMap String (List String)) := ∅
  doorHlc : Option HlcTimestamp := none
  removalHlc : Option HlcTimestamp := none
deriving DecidableEq

def doorMatches (c : Crypto) (secret : String) (link : LockLink) : Bool :=
  joinSecretShape secret && some (c.publicOf secret) == c.doorKey link.door

def laterOf (stored : Option HlcTimestamp) (hlc : HlcTimestamp) : Option HlcTimestamp :=
  match stored with
  | none => some hlc
  | some h => if hlc > h then some hlc else some h

/-- A stamp pulled back to `maxMs` where it lies beyond. -/
def HlcTimestamp.clampHlc (t : HlcTimestamp) (maxMs : Nat) : HlcTimestamp :=
  if t.physicalMs > maxMs then { t with physicalMs := maxMs } else t

namespace JoinLockState

/-- Whether a link may enter: one already held, the owner's own base, or a successor of a held
link. -/
def linkAllowed (c : Crypto) (s : JoinLockState) (serverId : String) (link : LockLink)
    (owner : String) : Bool :=
  if s.links.contains link then true
  else if link.isBase then baseOwner c serverId link == some owner
  else s.links.any fun prev => extendsLink c serverId prev link

/-- Keeps the links from the newest owner-signed one on, and the doors and grants of the newest
few numbers. -/
def prune (s : JoinLockState) : JoinLockState :=
  let links : List LockLink := match ((s.links.filter LockLink.isBase).map LockLink.n).max? with
    | some baseN => s.links.filter fun l => baseN ≤ l.n
    | none => s.links
  let links := links.drop (links.length - maxChain)
  match (s.doors.toList.map fun d => d.2.n).max? with
  | none => { s with links }
  | some top =>
    let floor := top - doorsKept
    let doors := s.doors.filter fun _ d => floor ≤ d.n
    let live := (links.filter fun l => floor ≤ l.n).map LockLink.change
    { s with links, doors, grants := s.grants.filter fun change _ => live.contains change }

/-- One more grant for a master, the oldest dropped past the ceiling. -/
def addGrant (held : List String) (grant : String) : List String :=
  if held.contains grant then held
  else
    let held := held ++ [grant]
    if held.length > grantsPerMaster then held.drop 1 else held

/-- One more grant of a change key for the master it names. -/
def addGrants (change : String) (all : Std.ExtTreeMap String (Std.ExtTreeMap String (List String)))
    (entry : String × String) : Std.ExtTreeMap String (Std.ExtTreeMap String (List String)) :=
  let byMaster := all.getD change ∅
  all.insert change (byMaster.insert entry.1 (addGrant (byMaster.getD entry.1 []) entry.2))

def apply (c : Crypto) (s : JoinLockState) (link : LockLink) (door : Option String)
    (grants : Std.ExtTreeMap String String) (hlc : HlcTimestamp) : JoinLockState :=
  let s := if s.links.contains link then s else
    { s with links := s.links.takeWhile (fun l => l.n ≤ link.n) ++ link ::
        s.links.dropWhile (fun l => l.n ≤ link.n) }
  let s := match door.filter (doorMatches c · link) with
    | some secret =>
      { s with
        doors := s.doors.insert link.door ⟨link.n, secret⟩
        doorHlc := laterOf s.doorHlc hlc }
    | none => s
  let s := { s with grants := grants.toList.foldl (addGrants link.change) s.grants }
  s.prune

/-- A member left, was removed or banned, or lost its rank. -/
def noteRemoval (s : JoinLockState) (hlc : HlcTimestamp) : JoinLockState :=
  { s with removalHlc := laterOf s.removalHlc hlc }

def clampHlcs (s : JoinLockState) (maxMs : Nat) : JoinLockState :=
  { s with
    doorHlc := s.doorHlc.map (HlcTimestamp.clampHlc · maxMs)
    removalHlc := s.removalHlc.map (HlcTimestamp.clampHlc · maxMs) }

end JoinLockState

end Hollow.Crdt
