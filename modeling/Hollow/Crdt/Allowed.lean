import Hollow.Crdt.State

/-! The permission matrix: when an op may be applied to a state. Every remote ingest, the fold and
local authoring share the one predicate `opAllowed`. -/

namespace Hollow.Crdt

namespace Snapshot

variable (w : World) (s : Snapshot)

def getRole (peerId : String) : MemberRole :=
  (s.roles[w.resolveIdentity peerId]?.map AdminLwwReg.value).getD .member

def isBanned (peerId : String) : Bool :=
  (s.bannedMembers[w.resolveIdentity peerId]?.map AdminLwwReg.value).getD false

def isMember (peerId : String) : Bool := s.members.contains (w.resolveIdentity peerId)

/-- The rank an author writes registers with; an unknown author has none. -/
def authorPriority (author : String) : Nat :=
  (s.roles[w.resolveIdentity author]?.map fun r => r.value.priority).getD 0

/-- The permission bits of a role: all for the owner, a custom mask first, the default after. -/
def permissionsOf (role : MemberRole) : Nat :=
  if role = .owner then Permission.all
  else (s.rolePermissions[role.asStr]?.map AdminLwwReg.value).getD role.defaultPermissions

/-- The role an op's author acts with, read by its own id; `none` for anyone who is not a current
member. -/
def authorRole (author : String) : Option MemberRole :=
  if s.members.contains author then
    some ((s.roles[author]?.map AdminLwwReg.value).getD .member)
  else none

def setting (key : String) : Option String := s.settings[key]?.map AdminLwwReg.value

def isPrivate : Bool := s.setting "is_private" == some "true"

/-- The member ceiling; none where the setting is absent, unreadable or 0. -/
def maxMembers : Option Nat :=
  ((s.setting "max_members").bind (parseUnsigned u32Max)).filter (0 < ·)

/-- The Twitch gate of the settings, `none` where it is off or names no channel. -/
def twitchSettings : Option TwitchServerSettings :=
  if (s.setting "twitch_verification_enabled").getD "" ≠ "true" then none
  else
    let channelId := (s.setting "twitch_channel_id").getD ""
    if channelId = "" then none
    else some {
      channelId
      channelName := (s.setting "twitch_channel_name").getD ""
      minFollowDays :=
        ((s.setting "twitch_min_follow_days").bind (parseUnsigned u32Max)).getD 0
      requireSub := s.setting "twitch_require_sub" == some "true"
      ownerVerify := s.setting "twitch_owner_verify" == some "true" }

/-- Whether `master` is the owner, an admin or a moderator. -/
def holdsModeration (master : String) : Bool :=
  s.members.contains master &&
    (s.roles[master]?).any fun r => r.value.priority ≥ MemberRole.moderator.priority

/-- Never to or from owner, only for a current member, and below the actor's own rank on both ends
unless the actor is the owner. -/
def roleChangeAllowed (actor : MemberRole) (perms : Nat) (target : String) (newRole : MemberRole) :
    Bool :=
  let targetRole := s.getRole w target
  if newRole = .owner ∨ targetRole = .owner ∨ !s.isMember w target then false
  else actor = .owner ||
    (perms &&& Permission.manageRoles != 0 && actor.outranks targetRole && actor.outranks newRole)

/-- Never the owner, and otherwise the permission to kick plus outranking the target. -/
def kickAllowed (actor : MemberRole) (perms : Nat) (target : String) : Bool :=
  let targetRole := s.getRole w target
  targetRole ≠ .owner &&
    (actor = .owner || (perms &&& Permission.kickMembers != 0 && actor.outranks targetRole))

end Snapshot

def retentionChoices : List String := ["permanent", "30d", "90d", "180d", "365d"]

/-- Who may set a setting to a value. -/
def settingAllowedFor (role : MemberRole) (perms : Nat) (key value : String) : Bool :=
  if key = "retention_files" ∨ key = "retention_messages" then
    role = .owner && retentionChoices.contains value
  else if key = "retention_files_since" ∨ key = "retention_messages_since" then
    role = .owner && (parseUnsigned u64Max value).isSome
  else if key = "voice_text_chat" then
    perms &&& Permission.manageChannels != 0 && (value = "true" || value = "false")
  else perms &&& Permission.manageServer != 0

/-- The shape of a sealed change key: two base64 parts joined by a dot. -/
def grantShape (grant : String) : Bool :=
  grant.utf8ByteSize ≤ 160 &&
    match grant.toList.span (· ≠ '.') with
    | (eph, '.' :: ct) =>
      (String.ofList eph).utf8ByteSize == 44 && (String.ofList ct).utf8ByteSize == 64
    | _ => false

/-- Lifting a ban or a mute needs at least the rank that set it. -/
def liftsRegister {V : Type} (role : MemberRole) (reg : Option (AdminLwwReg V)) : Bool :=
  reg.all fun r => role.priority ≥ r.priority

/-- The role a permission change names; the owner's is never changed. -/
def permissionTarget (text : String) : Option MemberRole :=
  if text = "admin" then some .admin
  else if text = "moderator" then some .moderator
  else if text = "member" then some .member
  else none

namespace Snapshot

variable (w : World) (s : Snapshot)

def selfToggles (author target labelId : String) : Bool :=
  author = target && (s.labels[labelId]?).any fun l => !l.access

/-- An owner-signed link only from the owner, any other a successor of a held one, a door only its
own secret, grants only to owners, admins and moderators. -/
def joinLockAllowed (op : CrdtOp) (role : MemberRole) (link : LockLink) (door : Option String)
    (grants : Map String) : Bool :=
  match s.anchorOwner with
  | none => false
  | some owner =>
    role.priority ≥ MemberRole.moderator.priority &&
      (!link.isBase || (role = .owner && op.author = owner)) &&
      s.joinLock.linkAllowed w.toCrypto s.serverId link owner &&
      door.all (doorMatches w.toCrypto · link) &&
      grants.size ≤ 64 &&
      grants.toList.all fun e => grantShape e.2 && s.holdsModeration e.1

/-- The join gates: the joiner's own fresh ask, no ban, and for someone not yet a member an open
server, a free seat and the Twitch gate. -/
def admissionAllowed (author : MemberRole) (op : CrdtOp) (target : String) (follow : Option String)
    (ask : Option JoinAsk) : Bool :=
  match ask.filter (·.verifies w.toCrypto s.serverId target) with
  | none => false
  | some ask =>
    if s.isBanned w target then false
    else if s.isMember w target then true
    else if (s.memberRecord.getD target []).any (ask.requestedAt ≤ ·.askedAt) then false
    else if s.isPrivate || s.maxMembers.any (fun max => s.members.size % 2 ^ 32 ≥ max) then false
    else match s.twitchSettings with
      | none => true
      | some tw =>
        (!tw.ownerVerify || author = .owner) &&
          follow.any fun entry => w.followCredentialAdmitsAt entry target tw op.hlc.physicalMs

/-- Only on an ownerless state, only from the owner it names, and only for the anchor. -/
def foundingAllowed (op : CrdtOp) (owner nonce : String) : Bool :=
  op.author = owner && s.currentOwner.isNone &&
    if isGenesisId s.serverId then w.deriveServerId owner nonce = s.serverId
    else s.ownerPin.all (· = owner)

/-- The holders of the owner role, of which a checkpoint's body has one. -/
def owners : List String :=
  (s.roles.toList.filter fun e => e.2.value == .owner).map Prod.fst

/-- Only from the anchor owner, covering no later than its own stamp and more than the one this
state stands on, and a state of this server whose one owner is its author. -/
def checkpointAllowed (op : CrdtOp) (state : String) (covers : HlcTimestamp) : Bool :=
  let fromAnchor := match s.anchorOwner with
    | some owner => owner = op.author
    | none => !isGenesisId s.serverId
  fromAnchor && covers ≤ op.hlc && s.checkpointHlc.all (· < covers) &&
    match w.parseState state with
    | none => false
    | some base => base.serverId = s.serverId && !base.deleted && base.owners = [op.author]

/-- What a member acting with `role` may do. -/
def allowedAs (role : MemberRole) (op : CrdtOp) : Bool :=
  let perms := s.permissionsOf role
  let has (bits : Nat) : Bool := perms &&& bits != 0
  match op.payload with
  | .serverCreated .. | .serverCheckpoint .. => false
  | .channelAdded channelId .. => has Permission.manageChannels && validChannelId channelId
  | .channelRemoved .. | .channelRenamed .. | .channelLayoutUpdated .. | .messagePinned ..
  | .messageUnpinned .. | .channelVisibilityChanged .. | .channelPostingChanged ..
  | .channelSlowModeChanged .. | .channelMediaOnlyChanged ..
  | .channelVisibilityLabelsChanged .. | .channelPostingLabelsChanged ..
  | .channelGrantSet .. | .channelGrantRevoked .. => has Permission.manageChannels
  | .roleChanged peerId newRole _ => s.roleChangeAllowed w role perms peerId newRole
  | .channelVoiceChatChanged channelId _ =>
    has Permission.manageChannels &&
      (s.channels[channelId]?).any fun c => c.channelType = .voice
  | .serverRenamed .. => has Permission.manageServer
  | .joinKeySet secret => role = .owner && joinSecretShape secret
  | .joinLock link door grants => s.joinLockAllowed w op role link door grants
  | .serverSettingChanged key value => settingAllowedFor role perms key value
  | .memberRemoved peerId =>
    -- anyone but the owner may leave
    if peerId = op.author then role ≠ .owner else s.kickAllowed w role perms peerId
  | .memberBanned peerId | .memberMuted peerId _ => s.kickAllowed w role perms peerId
  | .memberUnbanned peerId =>
    has Permission.kickMembers &&
      liftsRegister role s.bannedMembers[w.resolveIdentity peerId]?
  | .memberUnmuted peerId =>
    s.kickAllowed w role perms peerId &&
      liftsRegister role s.mutedMembers[w.resolveIdentity peerId]?
  | .memberAdded peerId _ follow ask => s.admissionAllowed w role op peerId follow ask
  | .nicknameChanged peerId _ | .twitchUsernameChanged peerId _
  | .storagePledgeChanged peerId _ =>
    peerId = op.author ||
      ((role = .owner || role = .admin) && s.isMember w peerId &&
        role.outranks (s.getRole w peerId))
  | .rolePermissionsChanged target permissions =>
    match permissionTarget target with
    | none => false
    | some target =>
      has Permission.manageRoles && role.outranks target &&
        permissions &&& (perms ^^^ u32Max) == 0
  | .channelPublicChanged channelId isPublic =>
    has Permission.manageChannels &&
      (s.channels[channelId]?).all fun ch =>
        ch.channelType = .text && !(isPublic && ch.restricted)
  | .labelCreated .. | .labelDeleted .. | .labelUpdated .. => has Permission.manageRoles
  | .labelAssigned labelId peerId =>
    s.isMember w peerId &&
      (s.selfToggles op.author peerId labelId || has Permission.manageRoles)
  | .labelUnassigned labelId peerId =>
    s.selfToggles op.author peerId labelId || has Permission.manageRoles
  | .emojiAdded name hash _ =>
    has Permission.manageEmotes && validEmoteName name && validEmoteHash hash
  | .stickerAdded hash name pack _ width height =>
    has Permission.manageEmotes && validEmoteHash hash && validStickerLabel name &&
      validStickerLabel pack && 1 ≤ width && width ≤ 4096 && 1 ≤ height && height ≤ 4096
  | .emojiRemoved .. | .stickerRemoved .. => has Permission.manageEmotes
  | .serverDeleted .. => role = .owner

/-- May the author apply this op to this state? -/
def opAllowed (op : CrdtOp) : Bool :=
  match op.payload with
  | .serverCreated _ ownerPeerId nonce => s.foundingAllowed w op ownerPeerId nonce
  | .serverCheckpoint state covers => s.checkpointAllowed w op state covers
  | _ => (s.authorRole op.author).any fun role => s.allowedAs w role op

end Snapshot

end Hollow.Crdt
