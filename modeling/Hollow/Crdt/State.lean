import Hollow.Crdt.Register

/-! The state of a server. `Materialized` is what a checkpoint carries and a rebuild starts over,
`Snapshot` adds what else the persisted JSON holds. Judging and applying an op read and write a
`Snapshot` only, so they are functions of it; the source's methods of the same names act on the
whole state, which also has the log, the clock, the held ops and the signer. -/

namespace Hollow.Crdt

inductive ChannelType where
  | text
  | voice
deriving DecidableEq

inductive ChannelVisibility where
  | everyone
  | moderatorPlus
  | adminPlus
deriving DecidableEq

inductive ChannelPosting where
  | everyone
  | moderatorPlus
  | adminPlus
deriving DecidableEq

structure ChannelInfo where
  channelId : String
  name : String
  category : Option String := none
  channelType : ChannelType := .text
  visibility : ChannelVisibility := .everyone
  posting : ChannelPosting := .everyone
  isPublic : Bool := false
  slowMode : Nat := 0
  mediaOnly : Bool := false
  visibilityLabels : List String := []
  postingLabels : List String := []
  voiceChat : VoiceChat := .server
deriving DecidableEq

namespace ChannelInfo

/-- Whether only some members may see a channel: a tier above everyone, or a label gate. -/
def restricted (ch : ChannelInfo) : Bool :=
  ch.visibility ≠ .everyone || !ch.visibilityLabels.isEmpty

end ChannelInfo

structure MemberInfo where
  peerId : String
  displayName : String
deriving DecidableEq

/-- One stretch of time an identity was a member, `untilMs` being `u64Max` while it still is. -/
structure MemberSpan where
  fromMs : Nat := 0
  untilMs : Nat := 0
  /-- When the ask that opened it was made; 0 for the founder and for seeded spans. -/
  askedAt : Int := 0
  fromHlc : Option HlcTimestamp := none
  /-- Every author that admitted the member while the span was open, with its earliest stamp. -/
  admitted : List (String × HlcTimestamp) := []
deriving DecidableEq

structure LabelInfo where
  labelId : String
  name : String
  color : String
  access : Bool
deriving DecidableEq

structure EmoteInfo where
  name : String
  hash : String
  animated : Bool
deriving DecidableEq

structure StickerInfo where
  hash : String
  name : String
  pack : String
  animated : Bool
  w : Nat
  h : Nat
deriving DecidableEq

inductive ChannelLayoutItem where
  | category (name : String)
  | channel (channelId : String)
  | separator
deriving DecidableEq

/-- What a checkpoint's body replaces and a rebuild starts over from empty. -/
structure Materialized where
  name : AdminLwwReg String := ⟨"", 0, .zero ""⟩
  channels : Map ChannelInfo := ∅
  members : Map MemberInfo := ∅
  roles : Map (AdminLwwReg MemberRole) := ∅
  nicknames : Map (AdminLwwReg String) := ∅
  twitchUsernames : Map (AdminLwwReg String) := ∅
  pinnedMessages : Map (List String) := ∅
  channelLayout : List ChannelLayoutItem := []
  storagePledges : Map (AdminLwwReg Nat) := ∅
  settings : Map (AdminLwwReg String) := ∅
  rolePermissions : Map (AdminLwwReg Nat) := ∅
  bannedMembers : Map (AdminLwwReg Bool) := ∅
  /-- Mute expiry by master, in epoch milliseconds. -/
  mutedMembers : Map (AdminLwwReg Nat) := ∅
  /-- Grant expiry by channel, then master. -/
  channelGrants : Map (Map (AdminLwwReg Nat)) := ∅
  labels : Map LabelInfo := ∅
  labelAssignments : Map (List String) := ∅
  emotes : Map EmoteInfo := ∅
  stickers : Map StickerInfo := ∅
  /-- Set by a deletion and by nothing unset, short of a checkpoint. -/
  deleted : Bool := false
  memberRecord : Map (List MemberSpan) := ∅
  joinSecret : Option (AdminLwwReg String) := none
  joinLock : JoinLockState := {}
deriving DecidableEq

/-- Everything the persisted JSON of a state holds, which is what `lean_snapshot` keeps. -/
structure Snapshot extends Materialized where
  serverId : String
  /-- The owner this replica is anchored to, which never changes once set. -/
  ownerPin : Option String := none
  /-- What the checkpoint this state was last rebased on covers. -/
  checkpointHlc : Option HlcTimestamp := none
  standingFolded : Bool := false
deriving DecidableEq

structure TwitchServerSettings where
  channelId : String
  channelName : String
  minFollowDays : Nat
  requireSub : Bool
  ownerVerify : Bool
deriving DecidableEq

/-- What the state machine is run with: the cryptography, the device-to-master resolver, the JSON
readers, and the check of a Twitch follow credential at a time. -/
structure World extends Crypto where
  resolveIdentity : String → String
  parseState : String → Option Snapshot
  parseLayout : String → Option (List ChannelLayoutItem)
  followCredentialAdmitsAt :
    (entryJson joinerMaster : String) → TwitchServerSettings → (atMs : Nat) → Bool

/-- What a replica's state is rebuilt from. -/
inductive Anchor where
  | legacy
  | genesis
  | checkpoint
deriving DecidableEq

namespace Snapshot

def skeleton (serverId : String) : Snapshot := { serverId }

def anchor (s : Snapshot) : Anchor :=
  if s.checkpointHlc.isSome then .checkpoint
  else if isGenesisId s.serverId then .genesis
  else .legacy

/-- The holder of the owner role, if any. The source takes the first its hash map yields, here the
first by id. -/
def currentOwner (s : Snapshot) : Option String :=
  (s.roles.toList.find? fun e => e.2.value == .owner).map Prod.fst

/-- The owner every founding op, checkpoint and snapshot must name. -/
def anchorOwner (s : Snapshot) : Option String := s.ownerPin.or s.currentOwner

end Snapshot

/-- The earlier stamp for the first entry of `author`, or a new entry at the end. -/
def noteEarliest (author : String) (stamp : HlcTimestamp) :
    List (String × HlcTimestamp) → List (String × HlcTimestamp)
  | [] => [(author, stamp)]
  | e :: rest =>
    if e.1 = author then (if stamp < e.2 then (author, stamp) else e) :: rest
    else e :: noteEarliest author stamp rest

/-- Keeps the earliest admission stamp of `author` in a span, one entry per author. -/
def noteAdmitter (span : MemberSpan) (author : String) (stamp : HlcTimestamp) : MemberSpan :=
  { span with admitted := noteEarliest author stamp span.admitted }

def MemberSpan.isOpen (span : MemberSpan) : Bool := span.untilMs == u64Max

def modifyLast {α : Type} (f : α → α) : List α → List α
  | [] => []
  | [a] => [f a]
  | a :: b :: rest => a :: modifyLast f (b :: rest)

namespace Materialized

def openSpan (m : Materialized) (master : String) (stamp : HlcTimestamp) (askedAt : Int)
    (admitter : Option String) : Materialized :=
  let spans := m.memberRecord.getD master []
  let spans :=
    if spans.getLast?.all (fun s => !s.isOpen) then
      spans ++ [{ fromMs := stamp.physicalMs, untilMs := u64Max, askedAt, fromHlc := some stamp }]
    else spans
  let spans := match admitter with
    | some author => modifyLast (noteAdmitter · author stamp) spans
    | none => spans
  { m with memberRecord := m.memberRecord.insert master spans }

def closeSpan (m : Materialized) (master : String) (atMs : Nat) : Materialized :=
  { m with memberRecord := m.memberRecord.modify master (modifyLast fun s =>
      if s.isOpen then { s with untilMs := max atMs s.fromMs } else s) }

/-- Drops channels under an id no `ChannelAdded` may carry. -/
def retainWellFormedChannels (m : Materialized) : Materialized :=
  { m with channels := m.channels.filter fun id ch => validChannelId id && ch.channelId == id }

/-- Pulls every register back inside the clock bound. -/
def clampFutureHlcs (m : Materialized) (nowMs : Nat) : Materialized :=
  let maxMs := saturatingAdd nowMs maxDriftMs
  { m with
    name := m.name.clampHlc maxMs
    joinSecret := m.joinSecret.map (·.clampHlc maxMs)
    joinLock := m.joinLock.clampHlcs maxMs
    roles := m.roles.clampHlcs maxMs
    nicknames := m.nicknames.clampHlcs maxMs
    twitchUsernames := m.twitchUsernames.clampHlcs maxMs
    storagePledges := m.storagePledges.clampHlcs maxMs
    settings := m.settings.clampHlcs maxMs
    rolePermissions := m.rolePermissions.clampHlcs maxMs
    bannedMembers := m.bannedMembers.clampHlcs maxMs
    mutedMembers := m.mutedMembers.clampHlcs maxMs
    channelGrants := m.channelGrants.map fun _ regs => regs.clampHlcs maxMs }

end Materialized

/-- Slack either side of a membership span when the time of a post is judged. -/
def memberSpanSlackMs : Nat := 10 * 60 * 1000

namespace Snapshot

def wasMemberAt (s : Snapshot) (master : String) (atMs : Nat) : Bool :=
  (s.memberRecord.getD master []).any fun span =>
    span.fromMs - memberSpanSlackMs ≤ atMs &&
      atMs < saturatingAdd span.untilMs memberSpanSlackMs

/-- The founder's seat: name, owner role, membership span, the general channel, the anchor. -/
def seedFounder (s : Snapshot) (name owner : String) (stamp : HlcTimestamp) : Snapshot :=
  let s := { s with
    name := ⟨name, MemberRole.owner.priority, stamp⟩
    members := s.members.insert owner ⟨owner, shortName owner⟩
    roles := s.roles.insert owner ⟨.owner, MemberRole.owner.priority, stamp⟩ }
  let s := { s with toMaterialized := s.openSpan owner stamp 0 none }
  let generalId := generalChannelId s.serverId
  { s with
    channels := s.channels.insertIfNew generalId { channelId := generalId, name := "general" }
    ownerPin := s.ownerPin.or (some owner) }

/-- Replaces everything materialized with a checkpoint's body. The anchor owner is the author of
the checkpoint. -/
def rebaseOn (s : Snapshot) (base : Snapshot) (owner : String) (covers : HlcTimestamp) :
    Snapshot :=
  { s with
    toMaterialized := base.retainWellFormedChannels.clampFutureHlcs covers.physicalMs
    ownerPin := some owner
    checkpointHlc := some covers }

end Snapshot

end Hollow.Crdt
