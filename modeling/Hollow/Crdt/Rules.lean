import Hollow.Crdt.Fold

/-! The rules of a server as a judged fold over snapshots, and what judging and applying an op does
to the anchor: the server id, the owner pin and the checkpoint a state stands on. -/

namespace Hollow.Crdt

/-- The fold that judges an op by `opAllowed` and applies it by `applyPayload`. -/
def rules (w : World) : JudgedFold Snapshot CrdtOp where
  allowed s op := s.opAllowed w op
  apply s op := s.applyPayload w op

@[simp] theorem rules_allowed (w : World) (s : Snapshot) (op : CrdtOp) :
    (rules w).allowed s op = s.opAllowed w op := rfl

@[simp] theorem rules_apply (w : World) (s : Snapshot) (op : CrdtOp) :
    (rules w).apply s op = s.applyPayload w op := rfl

namespace CrdtOp

variable {op : CrdtOp}

theorem payload_of_isCheckpoint (h : op.isCheckpoint) :
    ∃ state covers, op.payload = .serverCheckpoint state covers := by
  unfold isCheckpoint at h
  split at h
  · exact ⟨_, _, by assumption⟩
  · cases h

theorem payload_of_isFounding (h : op.isFounding) :
    ∃ name owner nonce, op.payload = .serverCreated name owner nonce := by
  unfold isFounding at h
  split at h
  · exact ⟨_, _, _, by assumption⟩
  · cases h

end CrdtOp

namespace Snapshot

variable {w : World} {s : Snapshot} {op : CrdtOp}

variable {covers : HlcTimestamp} {state name nonce owner : String}

theorem opAllowed_of_checkpoint (h : op.payload = .serverCheckpoint state covers) :
    s.opAllowed w op = s.checkpointAllowed w op state covers := by
  simp [opAllowed, h]

theorem opAllowed_of_founding (h : op.payload = .serverCreated name owner nonce) :
    s.opAllowed w op = s.foundingAllowed w op owner nonce := by
  simp [opAllowed, h]

theorem opAllowed_of_not_anchor (hc : op.isCheckpoint = false) (hf : op.isFounding = false) :
    s.opAllowed w op = (s.authorRole op.author).any fun role => s.allowedAs w role op := by
  unfold CrdtOp.isCheckpoint at hc
  unfold CrdtOp.isFounding at hf
  unfold opAllowed
  split <;> simp_all

theorem applyPayload_of_not_anchor (hc : op.isCheckpoint = false) (hf : op.isFounding = false) :
    s.applyPayload w op = { s with toMaterialized := s.applyTo w op } := by
  unfold CrdtOp.isCheckpoint at hc
  unfold CrdtOp.isFounding at hf
  unfold applyPayload
  split <;> simp_all

theorem applyPayload_of_founding (h : op.payload = .serverCreated name owner nonce) :
    s.applyPayload w op = if s.currentOwner.isNone then s.seedFounder name owner op.hlc else s := by
  simp [applyPayload, h]

theorem applyPayload_of_checkpoint {base : Snapshot}
    (h : op.payload = .serverCheckpoint state covers) (hbase : w.parseState state = some base) :
    s.applyPayload w op = s.rebaseOn base op.author covers := by
  simp [applyPayload, h, hbase]

/-- What a checkpoint must satisfy whatever state it meets. -/
structure CheckpointBody (w : World) (serverId : String) (op : CrdtOp) (state : String)
    (covers : HlcTimestamp) (base : Snapshot) : Prop where
  parsed : w.parseState state = some base
  covers_le : covers ≤ op.hlc
  serverId_eq : base.serverId = serverId
  not_deleted : base.deleted = false
  owners_eq : base.owners = [op.author]

/-- A checkpoint is allowed when its body is one, it covers more than the state stands on, and it
comes from the anchor owner, if that is known. -/
theorem checkpointAllowed_iff :
    s.checkpointAllowed w op state covers ↔
      (∃ base, CheckpointBody w s.serverId op state covers base) ∧
      (∀ b, s.checkpointHlc = some b → b < covers) ∧
      (match s.anchorOwner with
        | some owner => owner = op.author
        | none => ¬ isGenesisId s.serverId) := by
  unfold checkpointAllowed
  constructor
  · intro h
    simp only [Bool.and_eq_true, decide_eq_true_eq] at h
    obtain ⟨⟨⟨hanchor, hle⟩, hbase⟩, hbody⟩ := h
    refine ⟨?_, ?_, ?_⟩
    · cases hparse : w.parseState state with
      | none => simp [hparse] at hbody
      | some base =>
        simp only [hparse, Bool.and_eq_true, Bool.not_eq_true', decide_eq_true_eq] at hbody
        exact ⟨base, hparse, hle, hbody.1.1, hbody.1.2, hbody.2⟩
    · intro b hb
      simpa [hb] using hbase
    · cases howner : s.anchorOwner <;> simp_all
  · rintro ⟨⟨base, hbody⟩, hbase, hanchor⟩
    have hall : s.checkpointHlc.all (· < covers) = true := by
      cases hb : s.checkpointHlc with
      | none => rfl
      | some b => simpa using hbase b hb
    cases howner : s.anchorOwner <;>
      simp_all [hbody.parsed, hbody.covers_le, hbody.serverId_eq, hbody.not_deleted,
        hbody.owners_eq]

theorem foundingAllowed_iff :
    s.foundingAllowed w op owner nonce ↔
      op.author = owner ∧ s.currentOwner = none ∧
        (if isGenesisId s.serverId then w.deriveServerId owner nonce = s.serverId
          else ∀ pin, s.ownerPin = some pin → pin = owner) := by
  unfold foundingAllowed
  by_cases hg : isGenesisId s.serverId
  · simp [hg, and_assoc]
  · cases hpin : s.ownerPin <;> simp [hg, and_assoc]

@[simp] theorem seedFounder_serverId {stamp : HlcTimestamp} :
    (s.seedFounder name owner stamp).serverId = s.serverId := rfl

@[simp] theorem seedFounder_ownerPin {stamp : HlcTimestamp} :
    (s.seedFounder name owner stamp).ownerPin = s.ownerPin.or (some owner) := rfl

/-- The four shapes of a step: no change, the founding, a rebase, or a plain op. -/
theorem applyPayload_cases (w : World) (s : Snapshot) (op : CrdtOp) :
    s.applyPayload w op = s ∨
    (∃ name owner nonce, op.payload = .serverCreated name owner nonce ∧ s.currentOwner = none ∧
      s.applyPayload w op = s.seedFounder name owner op.hlc) ∨
    (∃ state covers base, op.payload = .serverCheckpoint state covers ∧
      w.parseState state = some base ∧ s.applyPayload w op = s.rebaseOn base op.author covers) ∨
    (op.isCheckpoint = false ∧ op.isFounding = false ∧
      s.applyPayload w op = { s with toMaterialized := s.applyTo w op }) := by
  by_cases hc : op.isCheckpoint
  · obtain ⟨state, covers, hp⟩ := CrdtOp.payload_of_isCheckpoint hc
    cases hparse : w.parseState state with
    | none => exact .inl (by simp [applyPayload, hp, hparse])
    | some base =>
      exact .inr (.inr (.inl
        ⟨state, covers, base, hp, hparse, applyPayload_of_checkpoint hp hparse⟩))
  · by_cases hf : op.isFounding
    · obtain ⟨name, owner, nonce, hp⟩ := CrdtOp.payload_of_isFounding hf
      cases howner : s.currentOwner with
      | some o => exact .inl (by simp [applyPayload, hp, howner])
      | none =>
        exact .inr (.inl ⟨name, owner, nonce, hp, rfl, by simp [applyPayload, hp, howner]⟩)
    · rw [Bool.not_eq_true] at hc hf
      exact .inr (.inr (.inr ⟨hc, hf, applyPayload_of_not_anchor hc hf⟩))

@[simp] theorem applyPayload_serverId : (s.applyPayload w op).serverId = s.serverId := by
  rcases applyPayload_cases w s op with h | ⟨_, _, _, -, -, h⟩ | ⟨_, _, _, -, -, h⟩ | ⟨-, -, h⟩ <;>
    rw [h] <;> rfl

end Snapshot

end Hollow.Crdt
