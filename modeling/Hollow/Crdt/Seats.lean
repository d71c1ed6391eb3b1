import Hollow.Crdt.Anchored

/-! Who is a member, in which role and since when: what one op can do to that, said once for every
kind of op, and that nobody but the anchor owner ever holds the owner role. -/

namespace Hollow.Crdt

namespace Snapshot

/-- What an op other than a founding or a checkpoint does to the members, their roles and their
record. -/
inductive Reseats (s : Snapshot) (op : CrdtOp) (m : Materialized) : Prop
  | quiet (hmembers : m.members = s.members) (hroles : m.roles = s.roles)
      (hrecord : m.memberRecord = s.memberRecord)
  | delete (deletedAt : Int) (hpayload : op.payload = .serverDeleted deletedAt)
      (hmembers : m.members = ∅) (hroles : m.roles = ∅) (hrecord : m.memberRecord = s.memberRecord)
  | rank (peerId : String) (role : MemberRole) (priority : Nat)
      (hpayload : op.payload = .roleChanged peerId role priority)
      (hmembers : m.members = s.members)
      (hroles : m.roles = s.roles.mergeAt peerId ⟨role, priority, op.hlc⟩)
      (hrecord : m.memberRecord = s.memberRecord)
  | seat (peerId displayName : String) (follow : Option String) (ask : Option JoinAsk)
      (hpayload : op.payload = .memberAdded peerId displayName follow ask)
      (hmembers : m.members = s.members.insertIfNew peerId ⟨peerId, displayName⟩)
      (hroles : m.roles =
        s.roles.insertIfNew peerId ⟨.member, MemberRole.member.priority, op.hlc⟩)
      (hrecord : m.memberRecord = if !s.members.contains peerId then
          (s.openSpan peerId op.hlc ((ask.map JoinAsk.requestedAt).getD 0)
            (some op.author)).memberRecord
        else s.memberRecord.modify peerId (modifyLast fun span =>
          if span.isOpen then noteAdmitter span op.author op.hlc else span))
  | unseat (peerId : String)
      (hpayload : op.payload = .memberRemoved peerId ∨ op.payload = .memberBanned peerId)
      (hmembers : m.members = s.members.erase peerId) (hroles : m.roles = s.roles.erase peerId)
      (hrecord : m.memberRecord = (s.closeSpan peerId op.hlc.physicalMs).memberRecord)

end Snapshot

namespace Materialized

variable {m : Materialized} {peerId : String} {stamp : HlcTimestamp}

theorem removeMember_members : (m.removeMember peerId stamp).members = m.members.erase peerId := by
  unfold removeMember
  split <;> rfl

theorem removeMember_roles : (m.removeMember peerId stamp).roles = m.roles.erase peerId := by
  unfold removeMember
  split <;> rfl

theorem removeMember_memberRecord : (m.removeMember peerId stamp).memberRecord =
    (m.closeSpan peerId stamp.physicalMs).memberRecord := by
  unfold removeMember
  split <;> rfl

end Materialized

namespace Snapshot

variable {w : World} {s : Snapshot} {op : CrdtOp}

theorem reseats_applyTo : s.Reseats op (s.applyTo w op) := by
  obtain ⟨serverId, hlc, author, payload, auth⟩ := op
  cases payload with
  | serverDeleted deletedAt => exact .delete deletedAt rfl rfl rfl rfl
  | roleChanged peerId role priority => exact .rank peerId role priority rfl rfl rfl rfl
  | memberAdded peerId displayName follow ask =>
    refine .seat peerId displayName follow ask rfl ?_ ?_ ?_ <;>
      simp only [applyTo, admitMember] <;> split <;> rfl
  | memberRemoved peerId =>
    exact .unseat peerId (.inl rfl) Materialized.removeMember_members
      Materialized.removeMember_roles Materialized.removeMember_memberRecord
  | memberBanned peerId =>
    exact .unseat peerId (.inr rfl) Materialized.removeMember_members
      Materialized.removeMember_roles Materialized.removeMember_memberRecord
  | messageUnpinned | labelUnassigned | emojiAdded | stickerAdded =>
    refine .quiet ?_ ?_ ?_ <;> simp only [applyTo] <;> split <;> rfl
  | _ => exact .quiet rfl rfl rfl

/-- Nobody but the anchor owner holds the owner role. -/
def OwnerPinned (s : Snapshot) : Prop :=
  ∀ (p : String) (r), s.roles[p]? = some r → r.value = .owner → s.ownerPin = some p

theorem IsReset.ownerPinned (h : s.IsReset) : s.OwnerPinned := by
  intro p r hr
  simp [h.1] at hr

theorem OwnerPinned.currentOwner (h : s.OwnerPinned) {p : String} (hp : s.currentOwner = some p) :
    s.ownerPin = some p := by
  obtain ⟨r, hr, hrole⟩ := role_of_currentOwner hp
  exact h p r hr hrole

theorem newRole_ne_owner {peerId : String} {role : MemberRole} {priority : Nat}
    (hp : op.payload = .roleChanged peerId role priority) (hallowed : s.opAllowed w op) :
    role ≠ .owner := by
  rw [opAllowed_of_not_anchor (by simp [CrdtOp.isCheckpoint, hp])
    (by simp [CrdtOp.isFounding, hp]), Option.any_eq_true] at hallowed
  obtain ⟨actor, -, hactor⟩ := hallowed
  simp only [allowedAs, hp, roleChangeAllowed] at hactor
  rintro rfl
  simp at hactor

/-- No plain op gives the owner role to anyone but the pinned owner. -/
theorem OwnerPinned.applyTo (h : s.OwnerPinned) (hallowed : s.opAllowed w op) :
    ({ s with toMaterialized := s.applyTo w op } : Snapshot).OwnerPinned := by
  intro p r hr hrole
  change (s.applyTo w op).roles[p]? = some r at hr
  change s.ownerPin = some p
  have hstep : s.Reseats op (s.applyTo w op) := reseats_applyTo
  cases hstep with
  | quiet _ hroles => exact h p r (hroles ▸ hr) hrole
  | delete _ _ _ hroles => simp [hroles] at hr
  | rank peerId role priority hp _ hroles =>
    rw [hroles] at hr
    rcases Map.mergeAt_cases hr with hr | ⟨-, rfl⟩
    · exact h p r hr hrole
    · exact absurd hrole (newRole_ne_owner hp hallowed)
  | seat peerId _ _ _ _ _ hroles =>
    rw [hroles, Map.getElem?_insertIfNew] at hr
    split at hr
    · rename_i hpeer
      subst hpeer
      cases hold : s.roles[peerId]? with
      | none =>
        rw [hold, Option.getD_none, Option.some.injEq] at hr
        subst hr
        cases hrole
      | some old =>
        rw [hold, Option.getD_some, Option.some.injEq] at hr
        subst hr
        exact h _ _ hold hrole
    · exact h p r hr hrole
  | unseat peerId _ _ hroles =>
    rw [hroles, Map.getElem?_erase] at hr
    split at hr
    · cases hr
    · exact h p r hr hrole

variable {base : Snapshot} {covers : HlcTimestamp}

@[simp] theorem rebaseOn_roles {owner : String} :
    (s.rebaseOn base owner covers).roles =
      base.roles.clampHlcs (saturatingAdd covers.physicalMs maxDriftMs) := rfl

theorem ownerPinned_rebaseOn {owner : String} (h : base.owners = [owner]) :
    (s.rebaseOn base owner covers).OwnerPinned := by
  intro p r hr hrole
  rw [rebaseOn_roles, Map.clampHlcs, Map.getElem?_map, Option.map_eq_some_iff] at hr
  obtain ⟨r', hr', rfl⟩ := hr
  rw [AdminLwwReg.clampHlc_value] at hrole
  have hmem : p ∈ base.owners := mem_owners_iff.mpr ⟨r', hr', hrole⟩
  rw [h, List.mem_singleton] at hmem
  exact congrArg some hmem.symm

/-- The anchor of a self-certifying server is none but `owner`'s, where only `owner` hashes to the
server's id. -/
structure Anchors (w : World) (owner : String) (s : Snapshot) : Prop where
  owner_unique : isGenesisId s.serverId → ∀ o n, w.deriveServerId o n = s.serverId → o = owner
  pin_eq : isGenesisId s.serverId → ∀ p, s.ownerPin = some p → p = owner
  ownerPinned : s.OwnerPinned

variable {owner : String}

section Anchored

variable (h : s.Anchors w owner)
include h

/-- An allowed founding names the pinned owner, if one is pinned. -/
theorem Anchors.founder {o nonce : String} (hallowed : s.foundingAllowed w op o nonce) :
    s.ownerPin.or (some o) = some o := by
  obtain ⟨-, -, hgate⟩ := foundingAllowed_iff.mp hallowed
  cases hpin : s.ownerPin with
  | none => rfl
  | some p =>
    by_cases hg : isGenesisId s.serverId
    · rw [if_pos hg] at hgate
      rw [Option.some_or, h.pin_eq hg p hpin, h.owner_unique hg o nonce hgate]
    · rw [if_neg hg] at hgate
      rw [Option.some_or, hgate p hpin]

theorem Anchors.seedFounder {name o nonce : String} {stamp : HlcTimestamp}
    (hallowed : s.foundingAllowed w op o nonce) : (s.seedFounder name o stamp).Anchors w owner := by
  have hpin : (s.seedFounder name o stamp).ownerPin = some o := h.founder hallowed
  obtain ⟨-, hnone, hgate⟩ := foundingAllowed_iff.mp hallowed
  refine ⟨h.owner_unique, ?_, ?_⟩
  · intro hg p hp
    rw [hpin, Option.some.injEq] at hp
    rw [seedFounder_serverId] at hg
    rw [if_pos hg] at hgate
    exact hp ▸ h.owner_unique hg o nonce hgate
  · intro p r hr hrole
    have hr' : (s.roles.insert o ⟨.owner, MemberRole.owner.priority, stamp⟩)[p]? = some r := hr
    rw [Map.getElem?_insert] at hr'
    split at hr'
    · rename_i ho
      rw [hpin, ho]
    · exact absurd hrole (currentOwner_eq_none_iff.mp hnone p r hr')

/-- A checkpoint that is allowed rebases onto a body whose owner is the anchor's. -/
theorem Anchors.rebaseOn {state : String} (hparse : w.parseState state = some base)
    (hallowed : s.checkpointAllowed w op state covers) :
    (s.rebaseOn base op.author covers).Anchors w owner := by
  obtain ⟨⟨base', hbody⟩, -, hauthor⟩ := checkpointAllowed_iff.mp hallowed
  obtain rfl : base' = base := Option.some.inj (hbody.parsed.symm.trans hparse)
  refine ⟨h.owner_unique, ?_, ownerPinned_rebaseOn hbody.owners_eq⟩
  intro hg p hp
  have hp' : op.author = p := Option.some.inj hp
  cases hpin : s.ownerPin with
  | some q =>
    rw [anchorOwner, hpin, Option.some_or] at hauthor
    rw [← hp', ← hauthor, h.pin_eq hg q hpin]
  | none =>
    rw [anchorOwner, hpin, Option.none_or] at hauthor
    cases hcur : s.currentOwner with
    | none =>
      rw [hcur] at hauthor
      exact absurd hg hauthor
    | some q => cases hpin.symm.trans (h.ownerPinned.currentOwner hcur)

theorem Anchors.applyPayload (hallowed : s.opAllowed w op) :
    (s.applyPayload w op).Anchors w owner := by
  rcases applyPayload_cases w s op with hs | ⟨name, o, nonce, hp, -, hs⟩ |
    ⟨state, covers, base, hp, hparse, hs⟩ | ⟨-, -, hs⟩ <;> rw [hs]
  · exact h
  · exact h.seedFounder (opAllowed_of_founding hp ▸ hallowed)
  · exact h.rebaseOn hparse (opAllowed_of_checkpoint hp ▸ hallowed)
  · exact ⟨h.owner_unique, h.pin_eq, h.ownerPinned.applyTo hallowed⟩

theorem Anchors.run (l : List CrdtOp) : ((rules w).run s l).Anchors w owner :=
  JudgedFold.run_induction h fun _ _ _ ht hallowed => ht.applyPayload hallowed

end Anchored

end Snapshot

end Hollow.Crdt
