import Hollow.Crdt.Asks

/-! The owner of a server that is not deleted: one holder of the owner role, the anchor's, who is a
member and not banned. No op but a checkpoint can change that, and a checkpoint's body is held to
the one holder of the role only. -/

namespace Hollow.Crdt

namespace Snapshot

def HoldsOwner (s : Snapshot) (p : String) : Prop :=
  ∃ r, s.roles[p]? = some r ∧ r.value = .owner

def Unbanned (s : Snapshot) (p : String) : Prop :=
  ∀ r, s.bannedMembers[p]? = some r → r.value = false

/-- The one holder of the owner role is the anchor's, a member, and not banned. -/
structure OwnerSeated (s : Snapshot) (owner : String) : Prop where
  only : ∀ p, s.HoldsOwner p ↔ p = owner
  pinned : s.ownerPin = some owner
  member : s.members.contains owner
  unbanned : s.Unbanned owner

variable {w : World} {s : Snapshot} {op : CrdtOp} {owner p : String}

theorem isBanned_eq_false_iff (hown : w.resolveIdentity p = p) :
    s.isBanned w p = false ↔ s.Unbanned p := by
  rw [isBanned, hown, Unbanned]
  cases s.bannedMembers[p]? <;> simp

theorem deleted_applyTo (w : World) (op : CrdtOp) (h : s.deleted) : (s.applyTo w op).deleted := by
  obtain ⟨serverId, hlc, author, payload, auth⟩ := op
  cases payload with
  | roleChanged => exact h
  | memberAdded | messageUnpinned | labelUnassigned | emojiAdded | stickerAdded =>
    simp only [applyTo, admitMember]
    split <;> exact h
  | memberRemoved | memberBanned =>
    simp only [applyTo, Materialized.removeMember]
    split <;> exact h
  | serverDeleted => rfl
  | _ => exact h

theorem bans_applyTo (w : World) (s : Snapshot) (op : CrdtOp) :
    (s.applyTo w op).bannedMembers = s.bannedMembers ∨
    (∃ peerId priority, op.payload = .memberBanned peerId ∧
      (s.applyTo w op).bannedMembers = s.bannedMembers.mergeAt peerId ⟨true, priority, op.hlc⟩) ∨
    ∃ peerId priority, op.payload = .memberUnbanned peerId ∧ (s.applyTo w op).bannedMembers =
      (s.bannedMembers.mergeAt peerId ⟨false, priority, op.hlc⟩).filter fun _ r => r.value := by
  obtain ⟨serverId, hlc, author, payload, auth⟩ := op
  cases payload with
  | roleChanged => exact .inl rfl
  | memberAdded | messageUnpinned | labelUnassigned | emojiAdded | stickerAdded =>
    left
    simp only [applyTo, admitMember]
    split <;> rfl
  | memberRemoved =>
    left
    simp only [applyTo, Materialized.removeMember]
    split <;> rfl
  | memberBanned peerId =>
    refine .inr (.inl ⟨peerId, s.authorPriority w author, rfl, ?_⟩)
    simp only [applyTo, Materialized.removeMember]
    split <;> rfl
  | memberUnbanned peerId => exact .inr (.inr ⟨peerId, _, rfl, rfl⟩)
  | _ => exact .inl rfl

theorem Unbanned.applyTo (h : s.Unbanned p) (hp : op.payload ≠ .memberBanned p) :
    ({ s with toMaterialized := s.applyTo w op } : Snapshot).Unbanned p := by
  intro r hr
  change (s.applyTo w op).bannedMembers[p]? = some r at hr
  rcases bans_applyTo w s op with hbans | ⟨peerId, _, hpayload, hbans⟩ |
    ⟨peerId, _, -, hbans⟩
  · exact h r (hbans ▸ hr)
  · rw [hbans] at hr
    rcases Map.mergeAt_cases hr with hr | ⟨rfl, -⟩
    · exact h r hr
    · exact absurd hpayload hp
  · rw [hbans, Map.getElem?_filter, Option.filter_eq_some_iff] at hr
    rcases Map.mergeAt_cases hr.1 with hr' | ⟨-, rfl⟩
    · exact h r hr'
    · rfl

theorem exists_actor (hallowed : s.opAllowed w op) (hc : op.isCheckpoint = false)
    (hf : op.isFounding = false) :
    ∃ actor, s.authorRole op.author = some actor ∧ s.allowedAs w actor op := by
  rwa [opAllowed_of_not_anchor hc hf, Option.any_eq_true] at hallowed

section Refused

variable (hrole : s.HoldsOwner p)
include hrole

theorem getRole_of_holdsOwner (hown : w.resolveIdentity p = p) : s.getRole w p = .owner := by
  obtain ⟨r, hr, hvalue⟩ := hrole
  rw [getRole, hown, hr]
  exact hvalue

theorem authorRole_of_holdsOwner (hmember : s.members.contains p) :
    s.authorRole p = some .owner := by
  obtain ⟨r, hr, hvalue⟩ := hrole
  rw [authorRole, if_pos hmember, hr]
  exact congrArg some hvalue

/-- No allowed op changes the role of the owner, removes them or bans them. -/
theorem payload_of_opAllowed (hown : w.resolveIdentity p = p) (hmember : s.members.contains p)
    (hallowed : s.opAllowed w op) :
    (∀ role priority, op.payload ≠ .roleChanged p role priority) ∧
      op.payload ≠ .memberRemoved p ∧ op.payload ≠ .memberBanned p := by
  have hget := getRole_of_holdsOwner hrole hown
  have hkick : ∀ actor perms, s.kickAllowed w actor perms p = false := fun actor perms => by
    simp [kickAllowed, hget]
  refine ⟨fun role priority hp => ?_, fun hp => ?_, fun hp => ?_⟩
  all_goals
    obtain ⟨actor, hauthor, hactor⟩ := exists_actor hallowed (by simp [CrdtOp.isCheckpoint, hp])
      (by simp [CrdtOp.isFounding, hp])
    simp only [allowedAs, hp, hkick] at hactor
  · simp [roleChangeAllowed, hget] at hactor
  · -- Leaving is for everyone but the owner.
    split_ifs at hactor with hself
    rw [← hself, authorRole_of_holdsOwner hrole hmember, Option.some.injEq] at hauthor
    simp [← hauthor] at hactor
  · cases hactor

end Refused

theorem OwnerSeated.ownerPinned (h : s.OwnerSeated owner) : s.OwnerPinned := fun p r hr hvalue =>
  ((h.only p).1 ⟨r, hr, hvalue⟩) ▸ h.pinned

/-- One op of any author leaves the owner seated, unless it deletes the server. -/
theorem OwnerSeated.applyTo (h : s.OwnerSeated owner) (hown : w.resolveIdentity owner = owner)
    (hallowed : s.opAllowed w op)
    (hlive : ({ s with toMaterialized := s.applyTo w op } : Snapshot).deleted = false) :
    ({ s with toMaterialized := s.applyTo w op } : Snapshot).OwnerSeated owner := by
  have hholds := (h.only owner).2 rfl
  have hmember := h.member
  obtain ⟨hrank, hremove, hban⟩ := payload_of_opAllowed hholds hown h.member hallowed
  obtain ⟨r, hr, hvalue⟩ := hholds
  obtain ⟨hrole', hmember'⟩ : (s.applyTo w op).roles[owner]? = some r ∧
      (s.applyTo w op).members.contains owner := by
    have hstep : s.Reseats op (s.applyTo w op) := reseats_applyTo
    cases hstep with
    | quiet hmembers hroles => exact ⟨hroles ▸ hr, hmembers ▸ hmember⟩
    | delete _ hp => simp [Snapshot.applyTo, hp] at hlive
    | rank peerId role priority hp hmembers hroles =>
      have hne : peerId ≠ owner := fun heq => hrank role priority (heq ▸ hp)
      refine ⟨?_, hmembers ▸ hmember⟩
      rw [hroles, Map.getElem?_mergeAt, if_neg hne, hr]
    | seat peerId _ _ _ hp hmembers hroles =>
      refine ⟨?_, ?_⟩
      · rw [hroles, Map.getElem?_insertIfNew]
        split_ifs with hpeer
        · rw [hpeer, hr, Option.getD_some]
        · exact hr
      · simp [hmembers, hmember]
    | unseat peerId hp hmembers hroles =>
      have hne : peerId ≠ owner := by
        rintro rfl
        exact hp.elim hremove hban
      refine ⟨?_, ?_⟩
      · rw [hroles, Map.getElem?_erase, if_neg hne, hr]
      · simp [hmembers, hne, hmember]
  have hpinned := h.ownerPinned.applyTo hallowed
  refine ⟨fun p => ⟨?_, ?_⟩, h.pinned, hmember', h.unbanned.applyTo hban⟩
  · rintro ⟨r', hr', hvalue'⟩
    have hpin : s.ownerPin = some p := hpinned p r' hr' hvalue'
    exact Option.some.inj (hpin.symm.trans h.pinned)
  · rintro rfl
    exact ⟨r, hrole', hvalue⟩

/-- A body that seats its author: among its members, under no ban. -/
def SeatsAuthor (base : Snapshot) (author : String) : Prop :=
  base.members.contains author ∧ base.Unbanned author

/-- Every checkpoint of these ops has a body that seats its author. -/
def BodiesSeat (w : World) (ops : List CrdtOp) : Prop :=
  ∀ op ∈ ops, ∀ state covers base, op.payload = .serverCheckpoint state covers →
    w.parseState state = some base → base.SeatsAuthor op.author

variable {base : Snapshot} {covers : HlcTimestamp}

theorem rebaseOn_members : (s.rebaseOn base owner covers).members = base.members := by
  rw [rebaseOn, Materialized.clampFutureHlcs_members, Materialized.retainWellFormedChannels_members]

theorem rebaseOn_bannedMembers :
    (s.rebaseOn base owner covers).bannedMembers =
      base.bannedMembers.clampHlcs (saturatingAdd covers.physicalMs maxDriftMs) := rfl

theorem holdsOwner_rebaseOn (h : base.owners = [owner]) :
    (s.rebaseOn base owner covers).HoldsOwner owner := by
  obtain ⟨r, hr, hvalue⟩ := mem_owners_iff.1 (h.symm ▸ List.mem_singleton_self owner)
  refine ⟨r.clampHlc (saturatingAdd covers.physicalMs maxDriftMs), ?_, ?_⟩
  · rw [rebaseOn_roles, Map.clampHlcs, Map.getElem?_map, hr, Option.map_some]
  · rw [AdminLwwReg.clampHlc_value, hvalue]

theorem unbanned_rebaseOn (h : base.Unbanned p) : (s.rebaseOn base owner covers).Unbanned p := by
  intro r hr
  rw [rebaseOn_bannedMembers, Map.clampHlcs, Map.getElem?_map, Option.map_eq_some_iff] at hr
  obtain ⟨r', hr', rfl⟩ := hr
  rw [AdminLwwReg.clampHlc_value, h r' hr']

theorem ownerSeated_rebaseOn (howners : base.owners = [owner]) (hseats : base.SeatsAuthor owner) :
    (s.rebaseOn base owner covers).OwnerSeated owner where
  only p := by
    constructor
    · rintro ⟨r, hr, hvalue⟩
      have hpin : some owner = some p := ownerPinned_rebaseOn howners p r hr hvalue
      exact (Option.some.inj hpin).symm
    · rintro rfl
      exact holdsOwner_rebaseOn howners
  pinned := rfl
  member := by
    rw [rebaseOn_members]
    exact hseats.1
  unbanned := unbanned_rebaseOn hseats.2

/-- The pin stands, and until the server is deleted the owner is seated. -/
def OwnerFixed (owner : String) (s : Snapshot) : Prop :=
  s.ownerPin = some owner ∧ (s.deleted = false → s.OwnerSeated owner)

theorem OwnerFixed.applyPayload (h : s.OwnerFixed owner) (hown : w.resolveIdentity owner = owner)
    (hallowed : s.opAllowed w op) (hseats : BodiesSeat w [op]) :
    (s.applyPayload w op).OwnerFixed owner := by
  refine ⟨ownerPin_applyPayload h.1 hallowed, fun hlive => ?_⟩
  rcases applyPayload_cases w s op with hs | ⟨name, o, nonce, hp, hnone, hs⟩ |
    ⟨state, covers, base, hp, hparse, hs⟩ | ⟨-, -, hs⟩ <;> rw [hs] at hlive ⊢
  · exact h.2 hlive
  · -- A second founding needs a state without an owner.
    obtain ⟨r, hr, hvalue⟩ := ((h.2 hlive).only owner).2 rfl
    exact absurd hvalue (currentOwner_eq_none_iff.1 hnone owner r hr)
  · rw [opAllowed_of_checkpoint hp, checkpointAllowed_iff, anchorOwner, h.1] at hallowed
    obtain ⟨⟨base', hbody⟩, -, hauthor⟩ := hallowed
    obtain rfl : base' = base := Option.some.inj (hbody.parsed.symm.trans hparse)
    have hauthor : owner = op.author := hauthor
    subst hauthor
    exact ownerSeated_rebaseOn hbody.owners_eq
      (hseats op (List.mem_singleton_self op) state covers base' hp hparse)
  · have hdeleted : s.deleted = false := by
      by_contra hdeleted
      simp [deleted_applyTo w op (by simpa using hdeleted)] at hlive
    exact (h.2 hdeleted).applyTo hown hallowed hlive

theorem ownerFixed_founding {serverId name nonce : String}
    (hp : op.payload = .serverCreated name owner nonce) :
    ((skeleton serverId).applyPayload w op).OwnerFixed owner := by
  have hnone : (skeleton serverId).currentOwner = none := isReset_skeleton.currentOwner
  rw [applyPayload_of_founding hp, hnone]
  refine ⟨rfl, fun _ => ⟨fun p => ?_, rfl, ?_, fun r hr => ?_⟩⟩
  · change (∃ r, ((∅ : Map (AdminLwwReg MemberRole)).insert owner _)[p]? = some r ∧ _) ↔ _
    rw [Map.getElem?_insert]
    split_ifs with howner
    · exact ⟨fun _ => howner.symm, fun _ => ⟨_, rfl, rfl⟩⟩
    · exact ⟨fun ⟨r, hr, _⟩ => by simp at hr, fun heq => absurd heq.symm howner⟩
  · change ((∅ : Map MemberInfo).insert owner _).contains owner
    simp
  · cases hr.symm.trans (show _ = none from Std.ExtTreeMap.getElem?_empty)

/-- From the founding on, whatever is applied where it is allowed: until a deletion the owner is
the founder, seated, as long as the checkpoints seat it. -/
theorem owner_stays_seated {serverId name nonce : String} {founding : CrdtOp} {l : List CrdtOp}
    (hp : founding.payload = .serverCreated name owner nonce)
    (hfounded : (skeleton serverId).opAllowed w founding) (hown : w.resolveIdentity owner = owner)
    (hseats : BodiesSeat w ((rules w).admitted (skeleton serverId) (founding :: l)))
    (hlive : ((rules w).run (skeleton serverId) (founding :: l)).deleted = false) :
    ((rules w).run (skeleton serverId) (founding :: l)).OwnerSeated owner ∧
      ((rules w).run (skeleton serverId) (founding :: l)).isBanned w owner = false := by
  suffices hfixed : ((rules w).run (skeleton serverId) (founding :: l)).OwnerFixed owner from
    ⟨hfixed.2 hlive, (isBanned_eq_false_iff hown).2 (hfixed.2 hlive).unbanned⟩
  rw [JudgedFold.admitted_cons, rules_allowed, if_pos hfounded] at hseats
  rw [JudgedFold.run_cons, JudgedFold.step_of_allowed hfounded, ← JudgedFold.run_admitted]
  refine JudgedFold.run_induction (ownerFixed_founding hp) fun s op hop hs hallowed => ?_
  exact hs.applyPayload hown hallowed fun op' hop' => by
    rw [List.mem_singleton.1 hop']
    exact hseats op (List.mem_cons_of_mem _ hop)

end Snapshot

def unseatedBody : Snapshot :=
  { Snapshot.skeleton sampleId with roles := (∅ : Map _).insert "o" ⟨.owner, 3, ⟨1, 0, "o"⟩⟩ }

def seatedBody : Snapshot :=
  { unseatedBody with members := (∅ : Map _).insert "o" ⟨"o", "o"⟩ }

def seatedRun : List CrdtOp :=
  [sampleOp "o" 1 (.serverCreated "n" "o" "n"), sampleAdd 2 2,
    sampleOp "o" 3 (.serverCheckpoint "" ⟨3, 0, "o"⟩), sampleOp "p" 4 (.memberRemoved "o")]

/-- "o" admits "p", writes a checkpoint that seats itself, and "p" tries to remove it. -/
theorem owner_stays_seated_admission :
    ((rules (sampleWorld fun _ => some seatedBody)).run (.skeleton sampleId) seatedRun).OwnerSeated
      "o" := by
  have hfounding : (sampleOp "o" 1 (.serverCreated "n" "o" "n")).payload =
    .serverCreated "n" "o" "n" := rfl
  refine (Snapshot.owner_stays_seated hfounding (by decide +kernel) rfl ?_ (by decide +kernel)).1
  rintro op hop state covers base hp hparse
  cases hparse
  have hauthors : ((rules (sampleWorld fun _ => some seatedBody)).admitted (.skeleton sampleId)
      seatedRun).all fun op => !op.isCheckpoint || op.author = "o" := by decide +kernel
  have hauthor : op.author = "o" := by
    simpa [CrdtOp.isCheckpoint, hp] using List.all_eq_true.1 hauthors op hop
  rw [hauthor]
  refine ⟨by decide +kernel, fun r hr => absurd hr ?_⟩
  simp [seatedBody, unseatedBody, Snapshot.skeleton]

/-- A checkpoint may seat an owner its own body does not list as a member. -/
theorem not_owner_stays_seated : ¬ ∀ (w : World) (serverId name owner nonce : String)
    (founding : CrdtOp) (l : List CrdtOp), isGenesisId serverId →
    founding.payload = .serverCreated name owner nonce →
    (Snapshot.skeleton serverId).opAllowed w founding → w.resolveIdentity owner = owner →
    ((rules w).run (.skeleton serverId) (founding :: l)).deleted = false →
    ((rules w).run (.skeleton serverId) (founding :: l)).OwnerSeated owner := by
  intro h
  have hseated := h (sampleWorld fun _ => some unseatedBody) sampleId "n" "o" "n"
    (sampleOp "o" 1 (.serverCreated "n" "o" "n"))
    [sampleOp "o" 2 (.serverCheckpoint "" ⟨2, 0, "o"⟩)] (by decide +kernel) rfl (by decide +kernel)
    rfl (by decide +kernel)
  have hmember := hseated.member
  revert hmember
  decide +kernel

end Hollow.Crdt
