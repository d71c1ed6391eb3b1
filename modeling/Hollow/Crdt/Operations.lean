import Hollow.Crdt.Text

/-! Operations of a server: their payloads, and the roles and permissions they are judged by.
Cryptography is a parameter, `Crypto`. -/

namespace Hollow.Crdt

inductive MemberRole where
  | owner
  | admin
  | moderator
  | member
deriving DecidableEq, Repr

namespace Permission

def manageServer : Nat := 1
def manageChannels : Nat := 2
def manageRoles : Nat := 4
def kickMembers : Nat := 16
def sendMessages : Nat := 32
def readMessages : Nat := 64
def manageEmotes : Nat := 128
def all : Nat :=
  manageServer ||| manageChannels ||| manageRoles ||| kickMembers ||| sendMessages |||
    readMessages ||| manageEmotes

end Permission

namespace MemberRole

def priority : MemberRole → Nat
  | owner => 3
  | admin => 2
  | moderator => 1
  | member => 0

def asStr : MemberRole → String
  | owner => "owner"
  | admin => "admin"
  | moderator => "moderator"
  | member => "member"

def defaultPermissions : MemberRole → Nat
  | owner => Permission.all
  | admin =>
    Permission.manageServer ||| Permission.manageChannels ||| Permission.manageRoles |||
      Permission.kickMembers ||| Permission.sendMessages ||| Permission.readMessages |||
      Permission.manageEmotes
  | moderator => Permission.kickMembers ||| Permission.sendMessages ||| Permission.readMessages
  | member => Permission.sendMessages ||| Permission.readMessages

def outranks (r other : MemberRole) : Bool := r.priority > other.priority

end MemberRole

/-- A voice channel's text chat: follow the server's setting, or override it. -/
inductive VoiceChat where
  | server
  | on
  | off
deriving DecidableEq, Repr

/-- One link of a join lock's chain: its number, the door key invite links carry, the key that
may sign the next link, and, where the owner signed it, the owner's key and founding nonce. -/
structure LockLink where
  n : Nat
  door : String
  change : String
  sig : String
  owner : Option String
  nonce : Option String
deriving DecidableEq, Repr

structure JoinAsk where
  requestedAt : Int
  sig : String
  pk : String
deriving DecidableEq, Repr

inductive CrdtPayload where
  | serverCreated (name ownerPeerId nonce : String)
  | serverCheckpoint (state : String) (covers : HlcTimestamp)
  | serverRenamed (newName : String)
  | serverSettingChanged (key value : String)
  | joinKeySet (secret : String)
  | joinLock (link : LockLink) (door : Option String) (grants : Std.ExtTreeMap String String)
  | serverDeleted (deletedAt : Int)
  | channelAdded (channelId name : String) (category : Option String) (channelType : String)
  | channelRemoved (channelId : String)
  | channelRenamed (channelId newName : String)
  | memberAdded (peerId displayName : String) (follow : Option String) (ask : Option JoinAsk)
  | memberRemoved (peerId : String)
  | roleChanged (peerId : String) (role : MemberRole) (priority : Nat)
  | nicknameChanged (peerId nickname : String)
  | twitchUsernameChanged (peerId twitchUsername : String)
  | channelLayoutUpdated (layoutJson : String)
  | messagePinned (channelId messageId : String)
  | messageUnpinned (channelId messageId : String)
  | storagePledgeChanged (peerId : String) (pledgeBytes : Nat)
  | rolePermissionsChanged (role : String) (permissions : Nat)
  | labelCreated (labelId name color : String) (access : Bool)
  | labelDeleted (labelId : String)
  | labelUpdated (labelId name color : String) (access : Option Bool)
  | labelAssigned (labelId peerId : String)
  | labelUnassigned (labelId peerId : String)
  | channelVisibilityChanged (channelId visibility : String)
  | channelPostingChanged (channelId posting : String)
  | channelPublicChanged (channelId : String) (isPublic : Bool)
  | channelVisibilityLabelsChanged (channelId : String) (labels : List String)
  | channelPostingLabelsChanged (channelId : String) (labels : List String)
  | channelGrantSet (channelId peerId : String) (expiresAt : Nat)
  | channelGrantRevoked (channelId peerId : String)
  | memberBanned (peerId : String)
  | memberUnbanned (peerId : String)
  | memberMuted (peerId : String) (expiresAt : Nat)
  | memberUnmuted (peerId : String)
  | channelSlowModeChanged (channelId : String) (seconds : Nat)
  | channelMediaOnlyChanged (channelId : String) (mediaOnly : Bool)
  | channelVoiceChatChanged (channelId : String) (mode : VoiceChat)
  | emojiAdded (name hash : String) (animated : Bool)
  | emojiRemoved (name : String)
  | stickerAdded (hash name pack : String) (animated : Bool) (w h : Nat)
  | stickerRemoved (hash : String)
deriving DecidableEq

/-- The author's proof that it wrote an op: a signature and the key it verifies against, both in
base64. -/
structure CrdtAuth where
  sig : String
  pk : String
deriving DecidableEq, Repr

structure CrdtOp where
  serverId : String
  hlc : HlcTimestamp
  author : String
  payload : CrdtPayload
  auth : Option CrdtAuth
deriving DecidableEq

/-- The cryptography the code calls. Keys, signatures and secrets are the texts the code carries;
a text that does not decode gives `none` or `false`. -/
structure Crypto where
  /-- The peer id of a base64 public key. -/
  peerIdOf : String → Option String
  /-- Whether a key, given in base64, made a signature, given in base64, over a text. -/
  verifies : (pk sig text : String) → Bool
  /-- Forty hex digits of the SHA-256 of the owner and the founding nonce. -/
  deriveServerId : (owner nonce : String) → String
  /-- Whether a text is a protobuf Ed25519 public key in base64. -/
  isKey : String → Bool
  /-- Whether a text is base64 of the given length. -/
  isBase64 : (text : String) → (length : Nat) → Bool
  /-- The X25519 key a text carries. -/
  doorKey : String → Option String
  /-- The X25519 public half of a hex secret. -/
  publicOf : String → String

/-- Whether the joiner's own key signed this ask for the server. -/
def JoinAsk.verifies (c : Crypto) (ask : JoinAsk) (serverId joiner : String) : Bool :=
  c.peerIdOf ask.pk == some joiner &&
    c.verifies ask.pk ask.sig
      ("hollow-join-ask1\x00" ++ serverId ++ "\x00" ++ joiner ++ "\x00" ++ toString ask.requestedAt)

end Hollow.Crdt
