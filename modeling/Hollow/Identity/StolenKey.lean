import Hollow.Identity.Finality
import Hollow.Identity.FoldsAlike

/-! The master key alone changes nobody's membership: statements signed by it and by devices a
protected roster does not name are ignored together by the closure, the scope and the count of
removals. -/

namespace Hollow.Identity

variable {w : Checks} {r f : Roster} {firstSeen : String → Option Int} {now : Int} {device : String}

def Roster.Names (r : Roster) (device : String) : Prop :=
  (∃ rec ∈ r.recoveries, device ∈ rec.keep) ∨ (∃ p ∈ r.phraseAdmits, p.device = device) ∨
    (∃ c ∈ r.consents, c.device = device) ∨
    (∃ v ∈ r.vouches, v.device = device ∨ v.voucher = device) ∨
    (∃ p ∈ r.pendings, p.device = device) ∨ (∃ l ∈ r.legacy, l.device = device) ∨
    ∃ rm ∈ r.removals, rm.device = device ∨ rm.remover = device ∨ device ∈ rm.keepVouched

/-- Statements that verify, signed only by the master key and by devices `r` does not name. -/
structure SignedAside (w : Checks) (r f : Roster) : Prop where
  master : f.master = r.master
  verifies : f.accepted w none = f
  recoveries : f.recoveries = []
  phraseAdmits : f.phraseAdmits = []
  consents : ∀ c ∈ f.consents, c.device = r.master ∨ ¬ r.Names c.device
  vouches : ∀ v ∈ f.vouches, v.voucher = r.master ∨ ¬ r.Names v.voucher
  removals : ∀ rm ∈ f.removals, rm.remover = r.master ∨ ¬ r.Names rm.remover

theorem Roster.Verified.rPub_ne_empty (h : r.Verified w)
    (hphrase : r.recoveries ≠ [] ∨ r.phraseAdmits ≠ []) : r.rPub ≠ "" := by
  obtain ⟨raw, now, rfl⟩ := h
  rw [Roster.checked] at hphrase ⊢
  split_ifs at hphrase ⊢
  · have hkey : w.isRecoveryKey raw.rPub ∧ (raw.accepted w now).rPub = raw.rPub := by
      rcases hphrase with hne | hne
      · obtain ⟨rec, hrec⟩ := List.exists_mem_of_ne_nil _ hne
        have hrec := compacted_within.recoveries hrec
        exact ⟨(mem_accepted_recoveries.1 hrec).1, accepted_rPub (.inl (List.ne_nil_of_mem hrec))⟩
      · obtain ⟨p, hp⟩ := List.exists_mem_of_ne_nil _ hne
        have hp := compacted_within.phraseAdmits hp
        exact ⟨(mem_accepted_phraseAdmits.1 hp).1, accepted_rPub (.inr (List.ne_nil_of_mem hp))⟩
    rw [compacted_rPub, hkey.2]
    intro hrPub
    rw [hrPub, w.not_isRecoveryKey_empty] at hkey
    cases hkey.1
  · simp at hphrase

theorem joined_rPub (hrPub : r.rPub ≠ "") : (r.joined f).rPub = r.rPub := by
  rw [Roster.joined]
  dsimp only
  split_ifs with hkey
  · exact (hkey.1.resolve_left hrPub).symm
  · rfl

theorem mem_joined_recoveries (hnone : f.recoveries = []) {rec : Recovery} :
    rec ∈ (r.joined f).recoveries ↔ rec ∈ r.recoveries := by
  rw [Roster.joined]
  dsimp only
  split_ifs
  · rw [mem_pushUnique, hnone]
    simp
  · rfl

theorem mem_joined_phraseAdmits (hnone : f.phraseAdmits = []) {p : PhraseAdmit} :
    p ∈ (r.joined f).phraseAdmits ↔ p ∈ r.phraseAdmits := by
  rw [Roster.joined]
  dsimp only
  split_ifs
  · rw [mem_pushUnique, hnone]
    simp
  · rfl

namespace SignedAside

variable (h : SignedAside w r f)
include h

theorem joined_currentRecovery (hrPub : r.rPub ≠ "") :
    (r.joined f).currentRecovery w = r.currentRecovery w :=
  currentRecovery_congr h.master (joined_rPub hrPub) fun rec => by
    simp only [Roster.Newest, mem_joined_recoveries h.recoveries]

theorem joined_baseRoots (hrPub : r.rPub ≠ "") (hprotected : r.recoveries ≠ []) :
    (r.joined f).baseRoots w = r.baseRoots w := by
  obtain ⟨c, hc⟩ := exists_currentRecovery (w := w) hprotected
  ext device
  rw [mem_baseRoots_of_current hc,
    mem_baseRoots_of_current ((h.joined_currentRecovery hrPub).trans hc)]
  simp only [Roster.Newest, mem_joined_recoveries h.recoveries,
    mem_joined_phraseAdmits h.phraseAdmits]

theorem consented_of_names (hmaster : ¬ r.Names r.master) (hnames : r.Names device)
    (hconsent : device ∈ (r.joined f).consented) : device ∈ r.consented := by
  obtain ⟨c, hc, rfl⟩ := mem_consented.1 hconsent
  rcases mem_pushUnique.1 hc with hc | hc
  · exact mem_consented.2 ⟨c, hc, rfl⟩
  · rcases h.consents c hc with heq | hnot
    · exact absurd (heq ▸ hnames) hmaster
    · exact absurd hnames hnot

/-- What the master key signs without the phrase changes nothing the fold reads. -/
theorem foldsAlike (hrPub : r.rPub ≠ "") (hprotected : r.recoveries ≠ [])
    (hmaster : ¬ r.Names r.master)
    (hwaiting : ∀ ask ∈ f.pendings, ¬ hasMatured firstSeen now ask.device) :
    FoldsAlike w firstSeen now r.Names r (r.joined f) := by
  have hcurrent := h.joined_currentRecovery hrPub
  have hbase : r.base w = (r.joined f).base w := (base_congr hcurrent).symm
  have hconsented : r.consented ⊆ (r.joined f).consented := fun device hdevice => by
    obtain ⟨c, hc, rfl⟩ := mem_consented.1 hdevice
    exact mem_consented.2 ⟨c, mem_pushUnique.2 (.inl hc), rfl⟩
  have hnamed : ∀ device ∈ r.consented, r.Names device := fun device hdevice =>
    .inr (.inr (.inl (mem_consented.1 hdevice)))
  have haside : ∀ signer, r.Names signer → ¬ (signer = r.master ∨ ¬ r.Names signer) :=
    fun signer hnames haside =>
      haside.elim (fun heq => hmaster (heq ▸ hnames)) fun hnot => hnot hnames
  -- What a device that `r` names signed is in `r`.
  have hvouches : ∀ v, r.Names v.voucher → v ∈ (r.joined f).vouches → v ∈ r.vouches :=
    fun v hnames hv => (mem_pushUnique.1 hv).resolve_right fun hv =>
      haside _ hnames (h.vouches v hv)
  have hremovals : ∀ rm, r.Names rm.remover → rm ∈ (r.joined f).removals → rm ∈ r.removals :=
    fun rm hnames hrm => (mem_pushUnique.1 hrm).resolve_right fun hrm =>
      haside _ hnames (h.removals rm hrm)
  have hseeds : r.seeds w = (r.joined f).seeds w := by
    ext device
    rw [mem_seeds, mem_seeds, h.joined_baseRoots hrPub hprotected]
    refine and_congr_right fun hroot => ⟨fun hdevice => hconsented hdevice, fun hdevice => ?_⟩
    obtain ⟨c, hc⟩ := exists_currentRecovery (w := w) hprotected
    refine h.consented_of_names hmaster ?_ hdevice
    rcases (mem_baseRoots_of_current hc).1 hroot with ⟨rec, hrec, hkeep⟩ | ⟨p, hp, -, hdevice⟩
    · exact .inl ⟨rec, hrec.1, hkeep⟩
    · exact .inr (.inl ⟨p, hp, hdevice⟩)
  exact {
    base := hbase
    noWait := congrArg (·.any (·.noWait)) hcurrent.symm
    seeds := hseeds
    seeds_mem := fun device hdevice => hnamed device (mem_seeds.1 hdevice).2
    vouches := fun v hnames => by
      rw [mem_scopeVouches, mem_scopeVouches, ← hbase]
      constructor
      · exact fun ⟨hv, hvBase, hdevice⟩ => ⟨mem_pushUnique.2 (.inl hv), hvBase, hconsented hdevice⟩
      · rintro ⟨hv, hvBase, hdevice⟩
        have hv := hvouches v hnames hv
        exact ⟨hv, hvBase, h.consented_of_names hmaster
          (.inr (.inr (.inr (.inl ⟨v, hv, .inl rfl⟩)))) hdevice⟩
    vouches_mem := fun v hv _ => hnamed v.device (mem_scopeVouches.1 hv).2.2
    removals := fun rm _ hnames => ⟨fun hrm => mem_pushUnique.2 (.inl hrm), hremovals rm hnames⟩
    asked := fun device hmatured => by
      constructor
      · rintro ⟨ask, hask, rfl⟩
        obtain ⟨hask, haskBase, hdevice⟩ := mem_scopePendings.1 hask
        exact ⟨ask, mem_scopePendings.2
          ⟨mem_pushUnique.2 (.inl hask), haskBase.trans hbase, hconsented hdevice⟩, rfl⟩
      · rintro ⟨ask, hask, rfl⟩
        obtain ⟨hask, haskBase, hdevice⟩ := mem_scopePendings.1 hask
        have hask := (mem_pushUnique.1 hask).resolve_right fun hask => hwaiting ask hask hmatured
        refine ⟨ask, mem_scopePendings.2 ⟨hask, haskBase.trans hbase.symm, ?_⟩, rfl⟩
        exact h.consented_of_names hmaster
          (.inr (.inr (.inr (.inr (.inl ⟨ask, hask, rfl⟩))))) hdevice
    asked_mem := fun ask hask _ => hnamed ask.device (mem_scopePendings.1 hask).2.2 }

end SignedAside

/-- With no device that `r` names and no matured ask behind it, whatever the master key signs leaves
the members of a protected roster as they are. -/
theorem masterKey_changes_no_member (hverified : r.Verified w)
    (hprotected : (r.currentRecovery w).isSome) (h : SignedAside w r f)
    (hcaps : (r.joined f).withinCaps)
    (hwaiting : ∀ ask ∈ f.pendings, ¬ hasMatured firstSeen now ask.device)
    (hmaster : ¬ r.Names r.master) :
    ((r.merged w f).fold w firstSeen now).members = (r.fold w firstSeen now).members := by
  have hrecoveries : r.recoveries ≠ [] := fun hnone => by
    rw [currentRecovery_eq_none.2 hnone] at hprotected
    cases hprotected
  have hrPub := hverified.rPub_ne_empty (.inl hrecoveries)
  have hmerged : r.merged w f = (r.joined f).compacted w :=
    if_neg fun hdiffers => hdiffers.2 h.master
  rw [hmerged, (foldsAlike_compacted hcaps).members_eq,
    (h.foldsAlike hrPub hrecoveries hmaster hwaiting).members_eq]

/-- A thief of the master key asks to join, consents with devices of their own, vouches among them
and removes the owner's. -/
def thiefSample : Roster where
  master := "m"
  consents := [⟨"y", "y"⟩, ⟨"z", "z"⟩]
  vouches := [⟨sampleChecks.digest "", "z", "y", "y"⟩]
  pendings := [⟨sampleChecks.digest "", "y", "m"⟩]
  legacy := [⟨"z", "m"⟩]
  removals := [⟨sampleChecks.digest "", "a", "y", [], "y"⟩]

theorem masterKey_changes_no_member_thief :
    ((removedSample.merged sampleChecks thiefSample).fold sampleChecks
      (fun _ => some 0) 1).members =
      (removedSample.fold sampleChecks (fun _ => some 0) 1).members :=
  masterKey_changes_no_member ⟨removedSample, none, by decide +kernel⟩ (by decide +kernel)
    ⟨rfl, by decide +kernel, rfl, rfl, by simp [thiefSample, removedSample, Roster.Names],
      by simp [thiefSample, removedSample, Roster.Names],
      by simp [thiefSample, removedSample, Roster.Names]⟩
    (by decide +kernel) (by decide) (by simp [removedSample, Roster.Names])

def keptMasterSample : Roster where
  master := "m"
  rPub := "k"
  recoveries := [⟨1, ["a", "m"], false, "k", "m"⟩]
  consents := [⟨"a", "a"⟩]

def masterConsentSample : Roster where
  master := "m"
  consents := [⟨"m", "m"⟩]

/-- A phrase that keeps the master id lets the master key consent for it. -/
theorem not_masterKey_changes_no_member_kept : ¬ ∀ (w : Checks) (r f : Roster)
    (firstSeen : String → Option Int) (now : Int), r.Verified w → (r.currentRecovery w).isSome →
    SignedAside w r f → (r.joined f).withinCaps →
    (∀ ask ∈ f.pendings, ¬ hasMatured firstSeen now ask.device) →
    ((r.merged w f).fold w firstSeen now).members = (r.fold w firstSeen now).members := by
  intro h
  have hmembers := h sampleChecks keptMasterSample masterConsentSample (fun _ => none) 0
    ⟨keptMasterSample, none, by decide +kernel⟩ (by decide +kernel)
    ⟨rfl, by decide +kernel, rfl, rfl, by simp [masterConsentSample, keptMasterSample],
      by simp [masterConsentSample], by simp [masterConsentSample]⟩
    (by decide +kernel) (by simp [masterConsentSample])
  revert hmembers
  decide +kernel

end Hollow.Identity
