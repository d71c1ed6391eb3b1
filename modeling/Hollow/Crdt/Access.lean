import Hollow.Crdt.Asks

/-! Who may see and post in a channel, and what a removed member comes back with. A removal clears
the role, so the role and permissions are those of anyone admitted for the first time; the labels
and channel grants stay, and open what they opened before. -/

namespace Hollow.Crdt

namespace Snapshot

variable (w : World) (s : Snapshot)

def getPermissions (peerId : String) : Nat := s.permissionsOf (s.getRole w peerId)

def hasPermission (peerId : String) (permission : Nat) : Bool :=
  s.getPermissions w peerId &&& permission != 0

def hasChannelGrant (peerId channelId : String) (nowMs : Nat) : Bool :=
  ((s.channelGrants[channelId]?).bind fun grants => grants[w.resolveIdentity peerId]?).any
    fun reg => reg.value > nowMs

def holdsAnyLabel (master : String) (wanted : List String) : Bool :=
  (s.labelAssignments[master]?).any fun held => wanted.any held.contains

/-- The owner always sees, an unexpired grant sees, and a label gate replaces the tier. -/
def canSeeChannelAt (peerId channelId : String) (nowMs : Nat) : Bool :=
  let master := w.resolveIdentity peerId
  let role := s.getRole w master
  if role = .owner then true
  else match s.channels[channelId]? with
    | none => false
    | some ch =>
      if s.hasChannelGrant w master channelId nowMs then true
      else if ch.visibilityLabels ≠ [] then
        role.priority ≥ MemberRole.admin.priority || s.holdsAnyLabel master ch.visibilityLabels
      else match ch.visibility with
        | .everyone => true
        | .moderatorPlus => role.priority ≥ MemberRole.moderator.priority
        | .adminPlus => role.priority ≥ MemberRole.admin.priority

/-- Posting has the shape of seeing, except that everyone still needs the permission to send. -/
def canPostInChannelAt (peerId channelId : String) (nowMs : Nat) : Bool :=
  let master := w.resolveIdentity peerId
  let role := s.getRole w master
  if role = .owner then true
  else match s.channels[channelId]? with
    | none => false
    | some ch =>
      if s.hasChannelGrant w master channelId nowMs then true
      else if ch.postingLabels ≠ [] then
        role.priority ≥ MemberRole.admin.priority || s.holdsAnyLabel master ch.postingLabels
      else match ch.posting with
        | .everyone => s.hasPermission w master Permission.sendMessages
        | .moderatorPlus => role.priority ≥ MemberRole.moderator.priority
        | .adminPlus => role.priority ≥ MemberRole.admin.priority

/-- What `p` may do in one state is what `q` may do in another. -/
structure SameAccess (w : World) (s : Snapshot) (p : String) (t : Snapshot) (q : String) :
    Prop where
  role : s.getRole w p = t.getRole w q
  permissions : s.getPermissions w p = t.getPermissions w q
  see : ∀ channelId nowMs,
    s.canSeeChannelAt w p channelId nowMs = t.canSeeChannelAt w q channelId nowMs
  post : ∀ channelId nowMs,
    s.canPostInChannelAt w p channelId nowMs = t.canPostInChannelAt w q channelId nowMs

/-- An identity the state has no role, label or grant of. -/
structure Unknown (w : World) (s : Snapshot) (q : String) : Prop where
  own : w.resolveIdentity q = q
  roles : s.roles[q]? = none
  labels : s.labelAssignments[q]? = none
  grants : ∀ (channelId : String) grants, s.channelGrants[channelId]? = some grants →
    grants[q]? = none

def plainSees (ch : ChannelInfo) : Bool := ch.visibilityLabels = [] && ch.visibility = .everyone

def plainPosts (ch : ChannelInfo) : Bool :=
  ch.postingLabels = [] && ch.posting = .everyone &&
    s.permissionsOf .member &&& Permission.sendMessages != 0

/-- No label and no grant of `p` opens a channel that is closed to plain members. -/
def LeavesNothing (p : String) : Prop :=
  ∀ channelId ch, s.channels[channelId]? = some ch → ∀ nowMs,
    ((s.hasChannelGrant w p channelId nowMs ∨ s.holdsAnyLabel p ch.visibilityLabels) →
      plainSees ch) ∧
    ((s.hasChannelGrant w p channelId nowMs ∨ s.holdsAnyLabel p ch.postingLabels) →
      s.plainPosts ch)

variable {w s} {p q : String}

section Plain

variable (hown : w.resolveIdentity p = p) (hrole : s.getRole w p = .member)
include hown hrole

theorem canSeeChannelAt_of_member (channelId : String) (nowMs : Nat) :
    s.canSeeChannelAt w p channelId nowMs = (s.channels[channelId]?).any fun ch =>
      plainSees ch || s.hasChannelGrant w p channelId nowMs ||
        s.holdsAnyLabel p ch.visibilityLabels := by
  simp only [canSeeChannelAt, hown, hrole, reduceCtorEq, if_false]
  cases s.channels[channelId]? with
  | none => rfl
  | some ch =>
    by_cases hgrant : s.hasChannelGrant w p channelId nowMs
    · simp [hgrant]
    · by_cases hlabels : ch.visibilityLabels = []
      · cases hvisibility : ch.visibility <;>
          simp [hgrant, hlabels, plainSees, hvisibility, holdsAnyLabel, MemberRole.priority]
      · simp [hgrant, hlabels, plainSees, MemberRole.priority]

theorem canPostInChannelAt_of_member (channelId : String) (nowMs : Nat) :
    s.canPostInChannelAt w p channelId nowMs = (s.channels[channelId]?).any fun ch =>
      s.plainPosts ch || s.hasChannelGrant w p channelId nowMs ||
        s.holdsAnyLabel p ch.postingLabels := by
  simp only [canPostInChannelAt, hown, hrole, reduceCtorEq, if_false]
  cases s.channels[channelId]? with
  | none => rfl
  | some ch =>
    by_cases hgrant : s.hasChannelGrant w p channelId nowMs
    · simp [hgrant]
    · by_cases hlabels : ch.postingLabels = []
      · cases hposting : ch.posting <;>
          simp [hgrant, hlabels, plainPosts, hposting, holdsAnyLabel, MemberRole.priority,
            hasPermission, getPermissions, hrole]
      · simp [hgrant, hlabels, plainPosts, MemberRole.priority]

end Plain

theorem Unknown.hasChannelGrant (h : s.Unknown w q) (channelId : String) (nowMs : Nat) :
    s.hasChannelGrant w q channelId nowMs = false := by
  rw [Snapshot.hasChannelGrant, h.own]
  cases hgrants : s.channelGrants[channelId]? with
  | none => rfl
  | some grants => simp [h.grants channelId grants hgrants]

theorem Unknown.holdsAnyLabel (h : s.Unknown w q) (wanted : List String) :
    s.holdsAnyLabel q wanted = false := by
  simp [Snapshot.holdsAnyLabel, h.labels]

/-- An op that names `p`, a checkpoint by its members or roles. -/
def Names (w : World) (op : CrdtOp) (p : String) : Prop :=
  match op.payload with
  | .serverCreated _ ownerPeerId _ => ownerPeerId = p
  | .serverCheckpoint state _ =>
    ∃ base, w.parseState state = some base ∧ (base.members.contains p ∨ base.roles.contains p)
  | .memberAdded peerId .. | .memberRemoved peerId | .roleChanged peerId ..
  | .nicknameChanged peerId _ | .twitchUsernameChanged peerId _ | .storagePledgeChanged peerId _
  | .labelAssigned _ peerId | .labelUnassigned _ peerId | .channelGrantSet _ peerId _
  | .channelGrantRevoked _ peerId | .memberBanned peerId | .memberUnbanned peerId
  | .memberMuted peerId _ | .memberUnmuted peerId => peerId = p
  | _ => False

theorem roles_applyPayload_of_not_names {op : CrdtOp} (h : s.roles[p]? = none)
    (hnames : ¬ Names w op p ∨ op.payload = .memberUnbanned p) :
    (s.applyPayload w op).roles[p]? = none := by
  rcases applyPayload_cases w s op with hs | ⟨name, owner, nonce, hp, -, hs⟩ |
    ⟨state, covers, base, hp, hparse, hs⟩ | ⟨-, -, hs⟩ <;> rw [hs]
  · exact h
  · have hne : owner ≠ p := by simpa [Names, hp] using hnames
    change (s.roles.insert owner _)[p]? = none
    rw [Map.getElem?_insert, if_neg hne]
    exact h
  · have hnone : base.roles[p]? = none := by
      have hnot : p ∉ base.members ∧ p ∉ base.roles := by simpa [Names, hp, hparse] using hnames
      exact Std.ExtTreeMap.getElem?_eq_none hnot.2
    rw [rebaseOn_roles, Map.clampHlcs, Map.getElem?_map, hnone]
    rfl
  · change (s.applyTo w op).roles[p]? = none
    have hstep : s.Reseats op (s.applyTo w op) := reseats_applyTo
    cases hstep with
    | quiet _ hroles => exact hroles ▸ h
    | delete _ _ _ hroles => simp [hroles]
    | rank peerId _ _ hp _ hroles =>
      have hne : peerId ≠ p := by simpa [Names, hp] using hnames
      rw [hroles, Map.getElem?_mergeAt, if_neg hne]
      exact h
    | seat peerId _ _ _ hp _ hroles =>
      have hne : peerId ≠ p := by simpa [Names, hp] using hnames
      rw [hroles, Map.getElem?_insertIfNew, if_neg hne]
      exact h
    | unseat peerId _ _ hroles =>
      rw [hroles, Map.getElem?_erase, h]
      simp

theorem roles_run_of_not_names {l : List CrdtOp} (h : s.roles[p]? = none)
    (hnames : ∀ op ∈ l, ¬ Names w op p ∨ op.payload = .memberUnbanned p) :
    ((rules w).run s l).roles[p]? = none :=
  JudgedFold.run_induction (P := fun t : Snapshot => t.roles[p]? = none) h
    fun _ op hop ht _ => roles_applyPayload_of_not_names ht (hnames op hop)

theorem roles_of_removal {op : CrdtOp}
    (hp : op.payload = .memberRemoved p ∨ op.payload = .memberBanned p) :
    (s.applyPayload w op).roles[p]? = none := by
  rw [applyPayload_of_not_anchor (by rcases hp with hp | hp <;> simp [CrdtOp.isCheckpoint, hp])
    (by rcases hp with hp | hp <;> simp [CrdtOp.isFounding, hp])]
  change (s.applyTo w op).roles[p]? = none
  have hroles : (s.applyTo w op).roles = s.roles.erase p := by
    rcases hp with hp | hp <;> simp only [applyTo, hp] <;>
      exact Materialized.removeMember_roles
  rw [hroles, Map.getElem?_erase, if_pos rfl]

section Admitted

variable {op : CrdtOp} {displayName : String} {follow : Option String} {ask : Option JoinAsk}
  (hp : op.payload = .memberAdded p displayName follow ask)
include hp

theorem admitted_fields : (s.applyPayload w op).channels = s.channels ∧
    (s.applyPayload w op).rolePermissions = s.rolePermissions ∧
    (s.applyPayload w op).channelGrants = s.channelGrants ∧
    (s.applyPayload w op).labelAssignments = s.labelAssignments := by
  rw [applyPayload_of_not_anchor (by simp [CrdtOp.isCheckpoint, hp])
    (by simp [CrdtOp.isFounding, hp])]
  simp only [applyTo, hp, admitMember]
  split <;> exact ⟨rfl, rfl, rfl, rfl⟩

theorem getRole_admitted (hown : w.resolveIdentity p = p) (hrole : s.roles[p]? = none) :
    (s.applyPayload w op).getRole w p = .member := by
  rw [applyPayload_of_not_anchor (by simp [CrdtOp.isCheckpoint, hp])
    (by simp [CrdtOp.isFounding, hp]), getRole, hown]
  have hstep : s.Reseats op (s.applyTo w op) := reseats_applyTo
  have hroles : (s.applyTo w op).roles =
      s.roles.insertIfNew p ⟨.member, MemberRole.member.priority, op.hlc⟩ := by
    simp only [applyTo, hp, admitMember]
    split <;> rfl
  change ((s.applyTo w op).roles[p]?.map _).getD _ = _
  rw [hroles, Map.getElem?_insertIfNew, if_pos rfl, hrole]
  rfl

end Admitted

section Comparison

variable {add addq : CrdtOp} {displayName displayName' : String} {follow follow' : Option String}
  {ask ask' : Option JoinAsk} (hadd : add.payload = .memberAdded p displayName follow ask)
  (haddq : addq.payload = .memberAdded q displayName' follow' ask')
  (hown : w.resolveIdentity p = p) (hrole : s.roles[p]? = none)
include hadd hown hrole

theorem canSee_admitted (channelId : String) (nowMs : Nat) :
    (s.applyPayload w add).canSeeChannelAt w p channelId nowMs =
      (s.channels[channelId]?).any fun ch => plainSees ch ||
        s.hasChannelGrant w p channelId nowMs || s.holdsAnyLabel p ch.visibilityLabels := by
  obtain ⟨hchannels, -, hgrants, hlabels⟩ := admitted_fields (w := w) (s := s) hadd
  rw [canSeeChannelAt_of_member hown (getRole_admitted hadd hown hrole), hchannels]
  simp only [hasChannelGrant, holdsAnyLabel, hgrants, hlabels]

theorem canPost_admitted (channelId : String) (nowMs : Nat) :
    (s.applyPayload w add).canPostInChannelAt w p channelId nowMs =
      (s.channels[channelId]?).any fun ch => s.plainPosts ch ||
        s.hasChannelGrant w p channelId nowMs || s.holdsAnyLabel p ch.postingLabels := by
  obtain ⟨hchannels, hpermissions, hgrants, hlabels⟩ := admitted_fields (w := w) (s := s) hadd
  rw [canPostInChannelAt_of_member hown (getRole_admitted hadd hown hrole), hchannels]
  simp only [hasChannelGrant, holdsAnyLabel, plainPosts, permissionsOf, hgrants, hlabels,
    hpermissions]

include haddq

/-- Whoever is admitted again fares as a newcomer does exactly when nothing was left of them. -/
theorem sameAccess_iff (hq : s.Unknown w q) :
    SameAccess w (s.applyPayload w add) p (s.applyPayload w addq) q ↔ s.LeavesNothing w p := by
  have hroleP := getRole_admitted hadd hown hrole
  have hroleQ := getRole_admitted haddq hq.own hq.roles
  have hpermsP := (admitted_fields (w := w) (s := s) hadd).2.1
  have hpermsQ := (admitted_fields (w := w) (s := s) haddq).2.1
  constructor
  · intro h channelId ch hch nowMs
    have hsee := h.see channelId nowMs
    have hpost := h.post channelId nowMs
    rw [canSee_admitted hadd hown hrole, canSee_admitted haddq hq.own hq.roles, hch] at hsee
    rw [canPost_admitted hadd hown hrole, canPost_admitted haddq hq.own hq.roles, hch] at hpost
    simp only [Option.any_some, hq.hasChannelGrant, hq.holdsAnyLabel, Bool.or_false] at hsee hpost
    refine ⟨fun hopen => ?_, fun hopen => ?_⟩
    · rw [← hsee]
      rcases hopen with hgrant | hlabel
      · simp [hgrant]
      · simp [hlabel]
    · rw [← hpost]
      rcases hopen with hgrant | hlabel
      · simp [hgrant]
      · simp [hlabel]
  · intro h
    refine ⟨hroleP.trans hroleQ.symm, ?_, fun channelId nowMs => ?_, fun channelId nowMs => ?_⟩
    · simp only [getPermissions, hroleP, hroleQ, permissionsOf, hpermsP, hpermsQ]
    · rw [canSee_admitted hadd hown hrole, canSee_admitted haddq hq.own hq.roles]
      cases hch : s.channels[channelId]? with
      | none => rfl
      | some ch =>
        have hopen := (h channelId ch hch nowMs).1
        simp only [Option.any_some, hq.hasChannelGrant, hq.holdsAnyLabel, Bool.or_false]
        cases hplain : plainSees ch <;> simp_all
    · rw [canPost_admitted hadd hown hrole, canPost_admitted haddq hq.own hq.roles]
      cases hch : s.channels[channelId]? with
      | none => rfl
      | some ch =>
        have hopen := (h channelId ch hch nowMs).2
        simp only [Option.any_some, hq.hasChannelGrant, hq.holdsAnyLabel, Bool.or_false]
        cases hplain : s.plainPosts ch <;> simp_all

end Comparison

/-- Removed or banned and admitted again, with no op naming it in between but the unban, a member
may do what someone admitted for the first time may exactly when no label and no grant it left
behind opens more. -/
theorem comes_back_with_nothing_iff {rm add addq : CrdtOp} {mid : List CrdtOp}
    {displayName displayName' : String} {follow follow' : Option String} {ask ask' : Option JoinAsk}
    (hown : w.resolveIdentity p = p)
    (hrm : rm.payload = .memberRemoved p ∨ rm.payload = .memberBanned p)
    (hremoved : s.opAllowed w rm)
    (hmid : ∀ op ∈ mid, ¬ Names w op p ∨ op.payload = .memberUnbanned p)
    (hadd : add.payload = .memberAdded p displayName follow ask)
    (haddq : addq.payload = .memberAdded q displayName' follow' ask')
    (hq : ((rules w).run s (rm :: mid)).Unknown w q) :
    SameAccess w (((rules w).run s (rm :: mid)).applyPayload w add) p
        (((rules w).run s (rm :: mid)).applyPayload w addq) q ↔
      ((rules w).run s (rm :: mid)).LeavesNothing w p := by
  refine sameAccess_iff hadd haddq hown ?_ hq
  rw [JudgedFold.run_cons, JudgedFold.step_of_allowed (m := rules w) hremoved]
  exact roles_run_of_not_names (roles_of_removal hrm) hmid

theorem leavesNothing_of_bare (hgrants : s.channelGrants = ∅)
    (hlabels : s.labelAssignments[p]? = none) : s.LeavesNothing w p := by
  intro channelId ch _ nowMs
  simp [hasChannelGrant, holdsAnyLabel, hgrants, hlabels]

theorem unknown_of_bare (hown : w.resolveIdentity q = q) (hgrants : s.channelGrants = ∅)
    (hroles : s.roles[q]? = none) (hlabels : s.labelAssignments[q]? = none) : s.Unknown w q :=
  ⟨hown, hroles, hlabels, fun channelId grants h => by simp [hgrants] at h⟩

end Snapshot

/-- The sample server with a channel for those with the label "vip", and the member "p". -/
def gatedOps : List CrdtOp :=
  [sampleOp "o" 1 (.serverCreated "n" "o" "n"), sampleOp "o" 2 (.channelAdded "c" "c" none "text"),
    sampleOp "o" 3 (.labelCreated "vip" "vip" "" true),
    sampleOp "o" 4 (.channelVisibilityLabelsChanged "c" ["vip"]), sampleAdd 5 5]

def sampleAddOther : CrdtOp := sampleOp "o" 9 (.memberAdded "q" "q" none (some ⟨9, "", "q"⟩))

theorem comes_back_with_nothing_iff_unlabelled :
    Snapshot.SameAccess (sampleWorld fun _ => none)
      (((rules (sampleWorld fun _ => none)).run
        ((rules (sampleWorld fun _ => none)).run (.skeleton sampleId) gatedOps)
        [sampleOp "o" 7 (.memberRemoved "p")]).applyPayload (sampleWorld fun _ => none)
          (sampleAdd 9 9)) "p"
      (((rules (sampleWorld fun _ => none)).run
        ((rules (sampleWorld fun _ => none)).run (.skeleton sampleId) gatedOps)
        [sampleOp "o" 7 (.memberRemoved "p")]).applyPayload (sampleWorld fun _ => none)
          sampleAddOther) "q" :=
  (Snapshot.comes_back_with_nothing_iff (p := "p") (q := "q") rfl (.inl rfl) (by decide +kernel)
    (by simp) rfl rfl (Snapshot.unknown_of_bare rfl (by decide +kernel) (by decide +kernel)
      (by decide +kernel))).2
    (Snapshot.leavesNothing_of_bare (by decide +kernel) (by decide +kernel))

/-- A label assigned before the removal opens its channel again after the next admission. -/
theorem not_comes_back_with_nothing_labelled : ¬ ∀ (w : World) (r : Snapshot)
    (l mid : List CrdtOp) (rm add addq : CrdtOp) (p q d d' : String) (f f' : Option String)
    (a a' : Option JoinAsk), r.IsReset → isGenesisId r.serverId → w.resolveIdentity p = p →
    ((rules w).run r l).members.contains p → ((rules w).run r l).opAllowed w rm →
    rm.payload = .memberRemoved p ∨ rm.payload = .memberBanned p →
    (∀ op ∈ mid, ¬ Snapshot.Names w op p ∨ op.payload = .memberUnbanned p) →
    add.payload = .memberAdded p d f a → ((rules w).run r (l ++ rm :: mid)).opAllowed w add →
    addq.payload = .memberAdded q d' f' a' → ((rules w).run r (l ++ rm :: mid)).Unknown w q →
    Snapshot.SameAccess w (((rules w).run r (l ++ rm :: mid)).applyPayload w add) p
      (((rules w).run r (l ++ rm :: mid)).applyPayload w addq) q := by
  intro h
  have hsame := h (sampleWorld fun _ => none) (.skeleton sampleId)
    (gatedOps ++ [sampleOp "o" 6 (.labelAssigned "vip" "p")]) []
    (sampleOp "o" 7 (.memberRemoved "p")) (sampleAdd 9 9) sampleAddOther "p" "q" "p" "q" none none
    (some ⟨9, "", "p"⟩) (some ⟨9, "", "q"⟩) Snapshot.isReset_skeleton (by decide +kernel) rfl
    (by decide +kernel) (by decide +kernel) (.inl rfl) (by simp) rfl (by decide +kernel) rfl
    (Snapshot.unknown_of_bare rfl (by decide +kernel) (by decide +kernel) (by decide +kernel))
  have hsee := hsame.see "c" 0
  revert hsee
  decide +kernel

end Hollow.Crdt
