import Hollow.Crdt.Owner

/-! Who is shut out: nobody but the owner a self-certifying id commits to ever owns the server, a
banned identity is never a member of one that is not deleted, and a deleted one stays as it is
unless its owner acts. -/

namespace Hollow.Crdt

namespace Snapshot

variable {w : World} {s : Snapshot} {op : CrdtOp} {owner p : String} {l : List CrdtOp}

/-- On a self-certifying server only the owner its id hashes from ever holds the owner role,
whatever ops and checkpoint bodies come in. -/
theorem only_genesis_owner {serverId : String} (hgenesis : isGenesisId serverId)
    (hunique : ∀ o n, w.deriveServerId o n = serverId → o = owner)
    (hp : ((rules w).run (skeleton serverId) l).HoldsOwner p) : p = owner := by
  have hstart : (skeleton serverId).Anchors w owner :=
    ⟨fun _ => hunique, nofun, isReset_skeleton.ownerPinned⟩
  have hend := hstart.run l
  obtain ⟨r, hr, hvalue⟩ := hp
  refine hend.pin_eq ?_ p (hend.ownerPinned p r hr hvalue)
  exact JudgedFold.run_induction (P := fun t : Snapshot => isGenesisId t.serverId) hgenesis
    fun _ _ _ ht _ => by rwa [rules_apply, applyPayload_serverId]

def NoneBanned (s : Snapshot) : Prop :=
  s.deleted = false → ∀ p, s.members.contains p → s.Unbanned p

/-- A checkpoint's body lists its author among the members, of whom none is banned. -/
def BodyOpen (w : World) (op : CrdtOp) : Prop :=
  ∀ state covers base, op.payload = .serverCheckpoint state covers →
    w.parseState state = some base →
      base.members.contains op.author ∧ ∀ p, base.members.contains p → base.Unbanned p

/-- Whoever an op seats that was not a member is not banned. -/
theorem unbanned_of_admission {displayName : String} {follow : Option String} {ask : Option JoinAsk}
    (hp : op.payload = .memberAdded p displayName follow ask) (hallowed : s.opAllowed w op)
    (hmaster : w.resolveIdentity p = p) : s.Unbanned p := by
  obtain ⟨actor, -, hactor⟩ := exists_actor hallowed (by simp [CrdtOp.isCheckpoint, hp])
    (by simp [CrdtOp.isFounding, hp])
  rw [← isBanned_eq_false_iff hmaster, ← Bool.not_eq_true]
  intro hbanned
  simp only [allowedAs, hp, admissionAllowed, hbanned, if_true] at hactor
  split at hactor <;> cases hactor

/-- No op leaves a banned member: a ban removes them, and an admission refuses the banned. -/
theorem NoneBanned.applyTo (h : s.NoneBanned) (hallowed : s.opAllowed w op)
    (hmaster : ∀ p displayName follow ask, op.payload = .memberAdded p displayName follow ask →
      w.resolveIdentity p = p) :
    ({ s with toMaterialized := s.applyTo w op } : Snapshot).NoneBanned := by
  intro hlive p hp
  change (s.applyTo w op).members.contains p = true at hp
  have hdeleted : s.deleted = false := by
    by_contra hdeleted
    simp [deleted_applyTo w op (by simpa using hdeleted)] at hlive
  have hne : op.payload ≠ .memberBanned p := by
    intro hban
    simp [Snapshot.applyTo, hban, Materialized.removeMember_members] at hp
  refine Unbanned.applyTo ?_ hne
  have hstep : s.Reseats op (s.applyTo w op) := reseats_applyTo
  cases hstep with
  | quiet hmembers => exact h hdeleted p (hmembers ▸ hp)
  | delete _ _ hmembers => simp [hmembers] at hp
  | rank _ _ _ _ hmembers => exact h hdeleted p (hmembers ▸ hp)
  | seat q displayName follow ask hpayload hmembers =>
    rw [hmembers, Map.contains_insertIfNew, Bool.or_eq_true, decide_eq_true_eq] at hp
    rcases hp with rfl | hp
    · exact unbanned_of_admission hpayload hallowed (hmaster _ _ _ _ hpayload)
    · exact h hdeleted p hp
  | unseat q _ hmembers =>
    rw [hmembers, Map.contains_erase, Bool.and_eq_true] at hp
    exact h hdeleted p hp.2

/-- From the founding on, until the server is deleted, no member is banned. -/
theorem no_banned_member {serverId name nonce : String} {founding : CrdtOp}
    (hp : founding.payload = .serverCreated name owner nonce)
    (hfounded : (skeleton serverId).opAllowed w founding) (hown : w.resolveIdentity owner = owner)
    (hmasters : ∀ op ∈ l, ∀ p displayName follow ask,
      op.payload = .memberAdded p displayName follow ask → w.resolveIdentity p = p)
    (hbodies : ∀ op ∈ l, BodyOpen w op) :
    ((rules w).run (skeleton serverId) (founding :: l)).NoneBanned := by
  suffices h : ((rules w).run (skeleton serverId) (founding :: l)).OwnerFixed owner ∧
      ((rules w).run (skeleton serverId) (founding :: l)).NoneBanned from h.2
  rw [JudgedFold.run_cons, JudgedFold.step_of_allowed hfounded]
  have hstart : ((skeleton serverId).applyPayload w founding).NoneBanned := by
    intro _ p _ r hr
    rw [applyPayload_of_founding hp, isReset_skeleton.currentOwner] at hr
    cases hr.symm.trans (show _ = none from Std.ExtTreeMap.getElem?_empty)
  refine JudgedFold.run_induction (P := fun t : Snapshot => t.OwnerFixed owner ∧ t.NoneBanned)
    ⟨ownerFixed_founding hp, hstart⟩ fun s op hop hs hallowed => ?_
  have hbody := hbodies op hop
  refine ⟨hs.1.applyPayload hown hallowed ?_, ?_⟩
  · rintro op' hop' state covers base hp' hparse
    obtain rfl := List.mem_singleton.1 hop'
    obtain ⟨hauthor, hnone⟩ := hbody state covers base hp' hparse
    exact ⟨hauthor, hnone _ hauthor⟩
  rw [rules_apply]
  rcases applyPayload_cases w s op with heq | ⟨name', o, nonce', hp', hnone, heq⟩ |
    ⟨state, covers, base, hp', hparse, heq⟩ | ⟨-, -, heq⟩ <;> rw [heq]
  · exact hs.2
  · -- A second founding needs a state without an owner.
    intro hlive
    obtain ⟨r, hr, hvalue⟩ := ((hs.1.2 hlive).only owner).2 rfl
    exact absurd hvalue (currentOwner_eq_none_iff.1 hnone owner r hr)
  · intro _ p hmember
    rw [rebaseOn_members] at hmember
    exact unbanned_rebaseOn ((hbody state covers base hp' hparse).2 p hmember)
  · exact hs.2.applyTo hallowed (hmasters op hop)

/-- Nobody but the anchor owner acts on a state without members. -/
theorem refused_of_no_members (hempty : s.members = ∅) (hpin : s.ownerPin = some owner)
    (hunique : isGenesisId s.serverId → ∀ o n, w.deriveServerId o n = s.serverId → o = owner)
    (hauthor : op.author ≠ owner) : s.opAllowed w op = false := by
  rw [← Bool.not_eq_true]
  intro hallowed
  by_cases hc : op.isCheckpoint
  · obtain ⟨state, covers, hp⟩ := CrdtOp.payload_of_isCheckpoint hc
    rw [opAllowed_of_checkpoint hp, checkpointAllowed_iff, anchorOwner, hpin] at hallowed
    exact hauthor (show owner = op.author from hallowed.2.2).symm
  by_cases hf : op.isFounding
  · obtain ⟨name, o, nonce, hp⟩ := CrdtOp.payload_of_isFounding hf
    rw [opAllowed_of_founding hp, foundingAllowed_iff] at hallowed
    obtain ⟨rfl, -, hgate⟩ := hallowed
    split_ifs at hgate with hg
    · exact hauthor (hunique hg _ _ hgate)
    · exact hauthor (hgate owner hpin).symm
  · rw [Bool.not_eq_true] at hc hf
    obtain ⟨actor, hactor, -⟩ := exists_actor hallowed hc hf
    simp [authorRole, hempty] at hactor

/-- After a deletion the server stays exactly as it is, whatever ops others than its owner send. -/
theorem deleted_stays {deletion : CrdtOp} {at_ : Int} (hp : deletion.payload = .serverDeleted at_)
    (hallowed : s.opAllowed w deletion) (hpin : s.ownerPin = some owner)
    (hunique : isGenesisId s.serverId → ∀ o n, w.deriveServerId o n = s.serverId → o = owner)
    (hl : ∀ op ∈ l, op.author ≠ owner) :
    (rules w).run s (deletion :: l) = s.applyPayload w deletion ∧
      (s.applyPayload w deletion).deleted ∧ (s.applyPayload w deletion).members = ∅ := by
  have happly : s.applyPayload w deletion = { s with toMaterialized := s.applyTo w deletion } :=
    applyPayload_of_not_anchor (by simp [CrdtOp.isCheckpoint, hp]) (by simp [CrdtOp.isFounding, hp])
  have hempty : (s.applyPayload w deletion).members = ∅ := by
    rw [happly]
    simp [applyTo, hp]
  refine ⟨?_, by rw [happly]; simp [applyTo, hp], hempty⟩
  rw [JudgedFold.run_cons, JudgedFold.step_of_allowed hallowed]
  refine JudgedFold.run_induction (P := fun t => t = s.applyPayload w deletion) rfl ?_
  rintro _ op hop rfl hop'
  rw [rules_allowed, refused_of_no_members hempty (by rw [happly]; exact hpin)
    (by rw [applyPayload_serverId]; exact hunique) (hl op hop)] at hop'
  cases hop'

end Snapshot

theorem only_genesis_owner_founded :
    foundedSample.HoldsOwner "o" ∧ ∀ p, foundedSample.HoldsOwner p → p = "o" := by
  have howner : foundedSample.roles["o"]? =
      some ⟨.owner, MemberRole.owner.priority, ⟨1, 0, "o"⟩⟩ := by decide +kernel
  refine ⟨⟨_, howner, rfl⟩, fun p hp => ?_⟩
  refine Snapshot.only_genesis_owner (by decide +kernel) (fun o n h => ?_) hp
  by_contra hne
  simp [sampleWorld, sampleId, hne] at h

theorem no_banned_member_unbanned :
    ((rules (sampleWorld fun _ => none)).run (.skeleton sampleId)
      [sampleOp "o" 1 (.serverCreated "n" "o" "n"), sampleAdd 2 2,
        sampleOp "o" 3 (.memberBanned "p"), sampleAdd 4 4]).NoneBanned := by
  have hfounding :
      (sampleOp "o" 1 (.serverCreated "n" "o" "n")).payload = .serverCreated "n" "o" "n" := rfl
  exact Snapshot.no_banned_member hfounding (by decide +kernel) rfl (fun _ _ _ _ _ _ _ => rfl)
    fun _ _ _ _ _ _ hparse => by cases hparse

/-- A second founding is refused once the server is deleted. -/
theorem deleted_stays_foundedAgain :
    (rules (sampleWorld fun _ => none)).run foundedSample
        [sampleOp "o" 2 (.serverDeleted 2), sampleOp "p" 3 (.serverCreated "n" "p" "n")] =
      foundedSample.applyPayload (sampleWorld fun _ => none)
        (sampleOp "o" 2 (.serverDeleted 2)) := by
  have hdeletion : (sampleOp "o" 2 (.serverDeleted 2)).payload = .serverDeleted 2 := rfl
  have hpin : foundedSample.ownerPin = some "o" := by decide +kernel
  have hid : foundedSample.serverId ≠ "" := by decide +kernel
  refine (Snapshot.deleted_stays hdeletion (by decide +kernel) hpin (fun _ o n h => ?_)
    (by decide)).1
  by_contra hne
  simp [sampleWorld, hne, hid.symm] at h

end Hollow.Crdt
