import Hollow.Crdt.Allowed

/-! The state change an op makes, without judging it and without the log. -/

namespace Hollow.Crdt

def maxServerEmotes : Nat := 50

def maxServerStickers : Nat := 50

def ChannelVisibility.ofText (text : String) : ChannelVisibility :=
  if text = "moderator" then .moderatorPlus
  else if text = "admin" then .adminPlus
  else .everyone

def ChannelPosting.ofText (text : String) : ChannelPosting :=
  if text = "moderator" then .moderatorPlus
  else if text = "admin" then .adminPlus
  else .everyone

def ChannelType.ofText (text : String) : ChannelType := if text = "voice" then .voice else .text

/-- Closing a channel takes it off the public list for good. -/
def ChannelInfo.closeIfRestricted (ch : ChannelInfo) : ChannelInfo :=
  { ch with isPublic := ch.isPublic && !ch.restricted }

namespace Materialized

/-- What removing and banning share: the lock is due, the span ends, and every entry of the member
but its labels and its mute goes. -/
def removeMember (m : Materialized) (peerId : String) (stamp : HlcTimestamp) : Materialized :=
  let m := if m.members.contains peerId then { m with joinLock := m.joinLock.noteRemoval stamp }
    else m
  let m := m.closeSpan peerId stamp.physicalMs
  { m with
    members := m.members.erase peerId
    roles := m.roles.erase peerId
    nicknames := m.nicknames.erase peerId
    twitchUsernames := m.twitchUsernames.erase peerId
    storagePledges := m.storagePledges.erase peerId }

def updateChannel (m : Materialized) (channelId : String) (f : ChannelInfo → ChannelInfo) :
    Materialized :=
  { m with channels := m.channels.modify channelId f }

end Materialized

namespace Snapshot

/-- The new role register of a member, and the lock due where a moderator lost that rank. -/
def changeRole (s : Snapshot) (peerId : String) (write : AdminLwwReg MemberRole) : Materialized :=
  let wasModeration :=
    (s.roles[peerId]?).any fun r => r.value.priority ≥ MemberRole.moderator.priority
  let roles := s.roles.mergeAt peerId write
  let isModeration :=
    (roles[peerId]?).any fun r => r.value.priority ≥ MemberRole.moderator.priority
  let joinLock :=
    if wasModeration && !isModeration then s.joinLock.noteRemoval write.hlc else s.joinLock
  { s.toMaterialized with roles, joinLock }

/-- The admission of a member: a span and an entry where there are none, a note of the admitter in
the open span otherwise, and a plain role where there is none. -/
def admitMember (s : Snapshot) (peerId displayName : String) (askedAt : Int) (op : CrdtOp) :
    Materialized :=
  let m :=
    if !s.members.contains peerId then s.openSpan peerId op.hlc askedAt (some op.author)
    else { s.toMaterialized with
      memberRecord := s.memberRecord.modify peerId (modifyLast fun span =>
        if span.isOpen then noteAdmitter span op.author op.hlc else span) }
  { m with
    members := m.members.insertIfNew peerId ⟨peerId, displayName⟩
    roles := m.roles.insertIfNew peerId ⟨.member, MemberRole.member.priority, op.hlc⟩ }

def applyTo (w : World) (s : Snapshot) (op : CrdtOp) : Materialized :=
  let m := s.toMaterialized
  let priority := s.authorPriority w op.author
  match op.payload with
  | .serverCreated .. | .serverCheckpoint .. => m
  | .serverRenamed newName => { m with name := m.name.merge ⟨newName, priority, op.hlc⟩ }
  | .serverSettingChanged key value =>
    { m with settings := m.settings.mergeAt key ⟨value, priority, op.hlc⟩ }
  | .joinKeySet secret =>
    let write := ⟨secret, MemberRole.owner.priority, op.hlc⟩
    { m with joinSecret := some ((m.joinSecret.getD write).merge write) }
  | .joinLock link door grants =>
    { m with joinLock := m.joinLock.apply w.toCrypto link door grants op.hlc }
  | .serverDeleted _ =>
    { m with
      deleted := true
      members := ∅
      roles := ∅
      channels := ∅
      nicknames := ∅
      twitchUsernames := ∅
      storagePledges := ∅
      labelAssignments := ∅ }
  | .channelAdded channelId name category channelType =>
    let info := { channelId, name, category, channelType := .ofText channelType }
    { m with channels := m.channels.insertIfNew channelId info }
  | .channelRemoved channelId => { m with channels := m.channels.erase channelId }
  | .channelRenamed channelId newName =>
    m.updateChannel channelId fun ch => { ch with name := newName }
  | .memberAdded peerId displayName _ ask =>
    s.admitMember peerId displayName ((ask.map JoinAsk.requestedAt).getD 0) op
  | .memberRemoved peerId => m.removeMember peerId op.hlc
  | .channelVisibilityChanged channelId visibility =>
    m.updateChannel channelId fun ch =>
      { ch with visibility := .ofText visibility }.closeIfRestricted
  | .channelPostingChanged channelId posting =>
    m.updateChannel channelId fun ch => { ch with posting := .ofText posting }
  | .channelPublicChanged channelId isPublic =>
    m.updateChannel channelId fun ch =>
      if ch.channelType = .text then { ch with isPublic } else ch
  | .channelSlowModeChanged channelId seconds =>
    m.updateChannel channelId fun ch => { ch with slowMode := seconds }
  | .channelMediaOnlyChanged channelId mediaOnly =>
    m.updateChannel channelId fun ch => { ch with mediaOnly }
  | .channelVoiceChatChanged channelId mode =>
    m.updateChannel channelId fun ch => { ch with voiceChat := mode }
  | .channelVisibilityLabelsChanged channelId labels =>
    m.updateChannel channelId fun ch => { ch with visibilityLabels := labels }.closeIfRestricted
  | .channelPostingLabelsChanged channelId labels =>
    m.updateChannel channelId fun ch => { ch with postingLabels := labels }
  | .channelGrantSet channelId peerId expiresAt =>
    let perChan : Map (AdminLwwReg Nat) := m.channelGrants.getD channelId ∅
    let perChan := perChan.mergeAt peerId ⟨expiresAt, priority, op.hlc⟩
    { m with channelGrants := m.channelGrants.insert channelId perChan }
  | .channelGrantRevoked channelId peerId =>
    let perChan : Map (AdminLwwReg Nat) := m.channelGrants.getD channelId ∅
    let perChan := (perChan.mergeAt peerId ⟨0, priority, op.hlc⟩).filter fun _ r => r.value ≠ 0
    { m with channelGrants :=
        if perChan.isEmpty then m.channelGrants.erase channelId
        else m.channelGrants.insert channelId perChan }
  | .roleChanged peerId role rolePriority => s.changeRole peerId ⟨role, rolePriority, op.hlc⟩
  | .nicknameChanged peerId nickname =>
    { m with nicknames := m.nicknames.mergeAt peerId ⟨nickname, priority, op.hlc⟩ }
  | .twitchUsernameChanged peerId twitchUsername =>
    let write := ⟨twitchUsername, priority, op.hlc⟩
    { m with twitchUsernames := m.twitchUsernames.mergeAt peerId write }
  | .channelLayoutUpdated layoutJson =>
    { m with channelLayout := (w.parseLayout layoutJson).getD m.channelLayout }
  | .messagePinned channelId messageId =>
    let pins := m.pinnedMessages.getD channelId []
    let pins := if pins.contains messageId then pins else pins ++ [messageId]
    { m with pinnedMessages := m.pinnedMessages.insert channelId pins }
  | .messageUnpinned channelId messageId =>
    match m.pinnedMessages[channelId]? with
    | none => m
    | some pins =>
      let pins := pins.filter (· ≠ messageId)
      { m with pinnedMessages :=
          if pins.isEmpty then m.pinnedMessages.erase channelId
          else m.pinnedMessages.insert channelId pins }
  | .storagePledgeChanged peerId pledgeBytes =>
    { m with storagePledges := m.storagePledges.mergeAt peerId ⟨pledgeBytes, priority, op.hlc⟩ }
  | .rolePermissionsChanged role permissions =>
    { m with rolePermissions := m.rolePermissions.mergeAt role ⟨permissions, priority, op.hlc⟩ }
  | .memberBanned peerId =>
    let m := { m with bannedMembers := m.bannedMembers.mergeAt peerId ⟨true, priority, op.hlc⟩ }
    m.removeMember peerId op.hlc
  | .memberUnbanned peerId =>
    { m with bannedMembers :=
        (m.bannedMembers.mergeAt peerId ⟨false, priority, op.hlc⟩).filter fun _ r => r.value }
  | .memberMuted peerId expiresAt =>
    { m with mutedMembers := m.mutedMembers.mergeAt peerId ⟨expiresAt, priority, op.hlc⟩ }
  | .memberUnmuted peerId =>
    { m with mutedMembers :=
        (m.mutedMembers.mergeAt peerId ⟨0, priority, op.hlc⟩).filter fun _ r => r.value ≠ 0 }
  | .labelCreated labelId name color access =>
    { m with labels := m.labels.insertIfNew labelId { labelId, name, color, access } }
  | .labelDeleted labelId =>
    { m with
      labels := m.labels.erase labelId
      labelAssignments := m.labelAssignments.map fun _ ids => ids.filter (· ≠ labelId) }
  | .labelUpdated labelId name color access =>
    { m with labels := m.labels.modify labelId fun l =>
        { l with name, color, access := access.getD l.access } }
  | .labelAssigned labelId peerId =>
    let ids := m.labelAssignments.getD peerId []
    let ids := if ids.contains labelId then ids else ids ++ [labelId]
    { m with labelAssignments := m.labelAssignments.insert peerId ids }
  | .labelUnassigned labelId peerId =>
    match m.labelAssignments[peerId]? with
    | none => m
    | some ids =>
      let ids := ids.filter (· ≠ labelId)
      { m with labelAssignments :=
          if ids.isEmpty then m.labelAssignments.erase peerId
          else m.labelAssignments.insert peerId ids }
  | .emojiAdded name hash animated =>
    if m.emotes.contains name || m.emotes.size < maxServerEmotes then
      { m with emotes := m.emotes.insert name { name, hash, animated } }
    else m
  | .emojiRemoved name => { m with emotes := m.emotes.erase name }
  | .stickerAdded hash name pack animated width height =>
    if m.stickers.contains hash || m.stickers.size < maxServerStickers then
      let info := { hash, name, pack, animated, w := width, h := height }
      { m with stickers := m.stickers.insert hash info }
    else m
  | .stickerRemoved hash => { m with stickers := m.stickers.erase hash }

def applyPayload (w : World) (s : Snapshot) (op : CrdtOp) : Snapshot :=
  match op.payload with
  | .serverCreated name ownerPeerId _ =>
    -- a local replay never seats a second founder
    if s.currentOwner.isNone then s.seedFounder name ownerPeerId op.hlc else s
  | .serverCheckpoint state covers =>
    match w.parseState state with
    | some base => s.rebaseOn base op.author covers
    | none => s
  | _ => { s with toMaterialized := s.applyTo w op }

end Snapshot

end Hollow.Crdt
