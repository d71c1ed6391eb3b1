import Hollow.Crdt.Owner

/-! Ranks while the owner is silent: nobody rises above the highest rank among the others, and
nobody acts against a member of its own rank or above, or for itself. -/

namespace Hollow.Crdt

namespace Snapshot

/-- The role a register holds, a plain member's where there is none. -/
def heldRole (s : Snapshot) (p : String) : MemberRole :=
  (s.roles[p]?.map AdminLwwReg.value).getD .member

variable {w : World} {s t : Snapshot} {op : CrdtOp} {owner p : String} {k : MemberRole}

theorem heldRole_of_authorRole {role : MemberRole} (h : s.authorRole p = some role) :
    s.members.contains p ∧ s.heldRole p = role := by
  rw [authorRole] at h
  split_ifs at h with hmember
  exact ⟨hmember, Option.some.inj h⟩

/-- The state once the op has done its work on the materialized part. -/
abbrev applied (w : World) (s : Snapshot) (op : CrdtOp) : Snapshot :=
  { s with toMaterialized := s.applyTo w op }

theorem not_anchor_of_author_ne (h : s.Anchors w owner) (hpin : s.ownerPin = some owner)
    (hallowed : s.opAllowed w op) (hauthor : op.author ≠ owner) :
    op.isCheckpoint = false ∧ op.isFounding = false := by
  constructor
  · by_contra hc
    obtain ⟨state, covers, hp⟩ := CrdtOp.payload_of_isCheckpoint (by simpa using hc)
    rw [opAllowed_of_checkpoint hp, checkpointAllowed_iff, anchorOwner, hpin] at hallowed
    exact hauthor hallowed.2.2.symm
  · by_contra hf
    obtain ⟨name, o, nonce, hp⟩ := CrdtOp.payload_of_isFounding (by simpa using hf)
    rw [opAllowed_of_founding hp] at hallowed
    have ho := h.founder hallowed
    rw [hpin, Option.some_or, Option.some.injEq] at ho
    exact hauthor ((foundingAllowed_iff.1 hallowed).1.trans ho.symm)

theorem heldRole_applyTo (w : World) (s : Snapshot) (op : CrdtOp) (p : String) :
    (s.applied w op).heldRole p = s.heldRole p ∨ (s.applied w op).heldRole p = .member ∨
    ∃ role priority, op.payload = .roleChanged p role priority ∧
      (s.applied w op).heldRole p = role := by
  simp only [heldRole]
  have hstep : s.Reseats op (s.applyTo w op) := reseats_applyTo
  cases hstep with
  | quiet _ hroles => exact .inl (by rw [hroles])
  | delete _ _ _ hroles => exact .inr (.inl (by simp [hroles]))
  | rank peerId role priority hp _ hroles =>
    rw [hroles]
    cases hr : (s.roles.mergeAt peerId ⟨role, priority, op.hlc⟩)[p]? with
    | none => exact .inr (.inl rfl)
    | some r =>
      rcases Map.mergeAt_cases hr with hold | ⟨rfl, rfl⟩
      · exact .inl (by rw [hold])
      · exact .inr (.inr ⟨role, priority, hp, rfl⟩)
  | seat peerId _ _ _ _ _ hroles =>
    rw [hroles, Map.getElem?_insertIfNew]
    split_ifs with hpeer
    · subst hpeer
      cases hold : s.roles[peerId]? with
      | none => exact .inr (.inl rfl)
      | some r => exact .inl rfl
    · exact .inl rfl
  | unseat peerId _ _ hroles =>
    rw [hroles, Map.getElem?_erase]
    split_ifs with hpeer
    · exact .inr (.inl rfl)
    · exact .inl rfl

theorem holdsOwner_of_heldRole (h : s.heldRole p = .owner) : s.HoldsOwner p := by
  cases hr : s.roles[p]? with
  | none => simp [heldRole, hr] at h
  | some r =>
    rw [heldRole, hr] at h
    exact ⟨r, hr, h⟩

theorem actor_ne_owner {author : String} {actor : MemberRole} (ha : s.Anchors w owner)
    (hpin : s.ownerPin = some owner) (hauthor : author ≠ owner)
    (hactor : s.authorRole author = some actor) : actor ≠ .owner := by
  rintro rfl
  obtain ⟨r, hr, hvalue⟩ := holdsOwner_of_heldRole (heldRole_of_authorRole hactor).2
  have hpinned := ha.ownerPinned author r hr hvalue
  exact hauthor (Option.some.inj (hpinned.symm.trans hpin))

/-- An op that is no anchor, accepted from an author of a rank below the owner's. -/
structure Acts (w : World) (s : Snapshot) (op : CrdtOp) (actor : MemberRole) : Prop where
  author : s.authorRole op.author = some actor
  allowed : s.allowedAs w actor op
  not_owner : actor ≠ .owner
  applied : s.applyPayload w op = s.applied w op

theorem exists_acts (ha : s.Anchors w owner) (hpin : s.ownerPin = some owner)
    (hallowed : s.opAllowed w op) (hauthor : op.author ≠ owner) : ∃ actor, s.Acts w op actor := by
  obtain ⟨hc, hf⟩ := not_anchor_of_author_ne ha hpin hallowed hauthor
  obtain ⟨actor, hactor, has⟩ := exists_actor hallowed hc hf
  exact ⟨actor, hactor, has, actor_ne_owner ha hpin hauthor hactor,
    applyPayload_of_not_anchor hc hf⟩

def RanksLe (k : MemberRole) (owner : String) (s : Snapshot) : Prop :=
  ∀ p, p ≠ owner → (s.heldRole p).priority ≤ k.priority

theorem Acts.outranks {actor role : MemberRole} {priority : Nat} (h : s.Acts w op actor)
    (hp : op.payload = .roleChanged p role priority) :
    actor.outranks (s.getRole w p) ∧ actor.outranks role := by
  have hallowed := h.allowed
  simp only [allowedAs, hp, roleChangeAllowed] at hallowed
  split_ifs at hallowed
  simp only [Bool.or_eq_true, Bool.and_eq_true, decide_eq_true_eq] at hallowed
  exact (hallowed.resolve_left h.not_owner).imp_left And.right

theorem RanksLe.applyPayload (h : s.RanksLe k owner) (ha : s.Anchors w owner)
    (hpin : s.ownerPin = some owner) (hallowed : s.opAllowed w op) (hauthor : op.author ≠ owner) :
    (s.applyPayload w op).RanksLe k owner := by
  obtain ⟨actor, hacts⟩ := exists_acts ha hpin hallowed hauthor
  rw [hacts.applied]
  intro p hp
  rcases heldRole_applyTo w s op p with hsame | hmember | ⟨role, priority, hpayload, hrole⟩
  · rw [hsame]
    exact h p hp
  · rw [hmember]
    exact Nat.zero_le _
  · have hle := h op.author hauthor
    rw [(heldRole_of_authorRole hacts.author).2] at hle
    rw [hrole]
    exact (of_decide_eq_true (hacts.outranks hpayload).2).le.trans hle

section Run

variable {l : List CrdtOp} (ha : s.Anchors w owner) (hpin : s.ownerPin = some owner)
  (hauthors : ∀ op ∈ l, op.author ≠ owner)
include ha hpin hauthors

end Run

section Single

variable {actor : MemberRole} (h : s.Acts w op actor)
include h

end Single

end Snapshot

namespace Snapshot

end Snapshot

end Hollow.Crdt
