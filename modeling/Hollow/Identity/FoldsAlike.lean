import Hollow.Identity.Fold
import Hollow.Identity.Settled

/-! When two rosters have the same members: where they agree on what a set of devices says and every
admission path stays within that set. Compaction within the ceilings is such a case. -/

namespace Hollow.Identity

variable {w : Checks} {firstSeen : String → Option Int} {now : Int}

/-- Two rosters alike in what devices with `p` say, where every admission path stays within `p`. -/
structure FoldsAlike (w : Checks) (firstSeen : String → Option Int) (now : Int)
    (p : String → Prop) (a b : Roster) : Prop where
  base : a.base w = b.base w
  noWait : a.noWait w = b.noWait w
  seeds : a.seeds w = b.seeds w
  seeds_mem : ∀ device ∈ a.seeds w, p device
  vouches : ∀ v, p v.voucher → (v ∈ a.scopeVouches w ↔ v ∈ b.scopeVouches w)
  vouches_mem : ∀ v ∈ a.scopeVouches w, p v.voucher → p v.device
  removals : ∀ rm, rm.base = a.base w → p rm.remover → (rm ∈ a.removals ↔ rm ∈ b.removals)
  asked : ∀ device, hasMatured firstSeen now device →
    ((∃ ask ∈ a.scopePendings w, ask.device = device) ↔
      ∃ ask ∈ b.scopePendings w, ask.device = device)
  asked_mem : ∀ ask ∈ a.scopePendings w, hasMatured firstSeen now ask.device → p ask.device

namespace FoldsAlike

variable {p : String → Prop} {a b : Roster} {device : String}
  (h : FoldsAlike w firstSeen now p a b)
include h

theorem symm : FoldsAlike w firstSeen now p b a where
  base := h.base.symm
  noWait := h.noWait.symm
  seeds := h.seeds.symm
  seeds_mem := fun device hdevice => h.seeds_mem device (h.seeds ▸ hdevice)
  vouches := fun v hv => (h.vouches v hv).symm
  vouches_mem := fun v hv hp => h.vouches_mem v ((h.vouches v hp).2 hv) hp
  removals := fun rm hbase hp => (h.removals rm (hbase.trans h.base.symm) hp).symm
  asked := fun device hdevice => (h.asked device hdevice).symm
  asked_mem := fun ask hask hmatured => by
    obtain ⟨ask', hask', hdevice⟩ := (h.asked ask.device hmatured).2 ⟨ask, hask, rfl⟩
    exact hdevice ▸ h.asked_mem ask' hask' (hdevice ▸ hmatured)

theorem reaches {seeds : Finset String} (hseeds : ∀ device ∈ seeds, p device)
    (hreach : Reach.Reaches Vouch.voucher Vouch.device (a.scopeVouches w) seeds device) :
    Reach.Reaches Vouch.voucher Vouch.device (b.scopeVouches w) seeds device ∧ p device :=
  hreach.transfer hseeds fun v hv hp => ⟨(h.vouches v hp).1 hv, h.vouches_mem v hv hp⟩

theorem founded_subset : a.founded w ⊆ b.founded w := by
  intro device hdevice
  have hreach := (h.reaches h.seeds_mem (mem_founded.1 hdevice)).1
  rw [h.seeds] at hreach
  exact mem_founded.2 hreach

theorem founded_eq : a.founded w = b.founded w :=
  h.founded_subset.antisymm h.symm.founded_subset

theorem refused_subset : a.refused w ⊆ b.refused w := by
  intro device hdevice
  obtain ⟨rm, hrm, hbase, hremover, rfl⟩ := mem_refused.1 hdevice
  have hp := (h.reaches h.seeds_mem (mem_founded.1 hremover)).2
  exact mem_refused.2 ⟨rm, (h.removals rm hbase hp).1 hrm, hbase.trans h.base,
    h.founded_eq ▸ hremover, rfl⟩

theorem refused_eq : a.refused w = b.refused w :=
  h.refused_subset.antisymm h.symm.refused_subset

theorem matured_eq :
    a.matured w firstSeen now = b.matured w firstSeen now := by
  ext device
  rw [mem_matured, mem_matured, h.noWait, h.refused_eq]
  constructor
  · exact fun ⟨hask, hrest⟩ => ⟨(h.asked device hrest.2.2).1 hask, hrest⟩
  · exact fun ⟨hask, hrest⟩ => ⟨(h.asked device hrest.2.2).2 hask, hrest⟩

theorem start_mem :
    ∀ device ∈ a.seeds w ∪ a.matured w firstSeen now, p device := by
  intro device hdevice
  rcases Finset.mem_union.1 hdevice with hseed | hmatured
  · exact h.seeds_mem device hseed
  · obtain ⟨⟨ask, hask, rfl⟩, -, -, hmatured⟩ := mem_matured.1 hmatured
    exact h.asked_mem ask hask hmatured

theorem of_mem_rooted (hdevice : device ∈ (a.scope w firstSeen now).rooted) :
    device ∈ (b.scope w firstSeen now).rooted ∧ p device := by
  obtain ⟨hreach, hp⟩ := h.reaches h.start_mem (mem_rooted_scope.1 hdevice)
  rw [h.seeds, h.matured_eq] at hreach
  exact ⟨mem_rooted_scope.2 hreach, hp⟩

theorem counts_of_rooted {rm : Removal} (hrm : rm ∈ a.countingRemovals w firstSeen now)
    (hdevice : rm.device ∈ (a.scope w firstSeen now).rooted) :
    rm ∈ b.countingRemovals w firstSeen now := by
  obtain ⟨hrm, hbase, hremover, -⟩ := mem_countingRemovals.1 hrm
  obtain ⟨hremover, hp⟩ := h.of_mem_rooted hremover
  exact mem_countingRemovals.2 ⟨(h.removals rm hbase hp).1 hrm, hbase.trans h.base, hremover,
    .inl (h.of_mem_rooted hdevice).1⟩

/-- Rosters that fold alike have the same members; one inclusion, by walking the vouches. -/
theorem members_subset :
    (a.fold w firstSeen now).members ⊆ (b.fold w firstSeen now).members := by
  intro device hdevice
  have hrooted := mem_rooted_of_mem_members hdevice
  obtain ⟨hreach, hremoved⟩ := mem_members.1 hdevice
  rw [mem_members]
  constructor
  · -- Every voucher on a path is rooted, so the same removals of it count.
    have hreach' : Reach.Reaches Vouch.voucher Vouch.device
        ((b.scopeVouches w).filter (voucherOk (b.countingRemovals w firstSeen now)))
        (a.seeds w ∪ a.matured w firstSeen now) device := by
      refine (hreach.transfer (p := fun d => d ∈ (a.scope w firstSeen now).rooted)
        (fun d hd => mem_rooted_scope.2 (Reach.reaches_seed hd)) fun v hv hvoucher => ?_).1
      obtain ⟨hv, hok⟩ := List.mem_filter.1 hv
      refine ⟨List.mem_filter.2 ⟨(h.vouches v (h.of_mem_rooted hvoucher).2).1 hv, ?_⟩,
        mem_rooted_scope.2 ((mem_rooted_scope.1 hvoucher).step hv)⟩
      rw [voucherOk_iff] at hok ⊢
      intro rm hrm hvoucher'
      refine hok rm (h.symm.counts_of_rooted hrm ?_) hvoucher'
      rw [hvoucher']
      exact (h.of_mem_rooted hvoucher).1
    rwa [h.seeds, h.matured_eq] at hreach'
  · intro rm hrm hrmDevice
    subst hrmDevice
    exact hremoved rm (h.symm.counts_of_rooted hrm (h.of_mem_rooted hrooted).1) rfl

theorem members_eq :
    (a.fold w firstSeen now).members = (b.fold w firstSeen now).members :=
  h.members_subset.antisymm h.symm.members_subset

end FoldsAlike

section Compacted

variable {r : Roster} {device : String}

theorem withinCaps_iff : r.withinCaps ↔ r.recoveries.length ≤ maxRecoveryTies ∧
    r.phraseAdmits.length ≤ maxPhraseAdmits ∧ r.consents.length ≤ maxConsents ∧
    r.vouches.length ≤ maxVouches ∧ r.pendings.length ≤ maxPending ∧
    r.legacy.length ≤ maxLegacy ∧ r.removals.length ≤ maxRemovals := by
  simp [Roster.withinCaps, and_assoc]

theorem Roster.withinCaps.fits (h : r.withinCaps) : r.Fits := by
  obtain ⟨hrecoveries, hadmits, -, -, hpendings, hlegacy, -⟩ := withinCaps_iff.1 h
  exact ⟨hrecoveries, hadmits, hlegacy, hpendings⟩

theorem stands_step {v : Vouch} (hv : v ∈ r.admitting) (h : r.stands w v.voucher) :
    r.stands w v.device := by
  rw [stands_iff] at h ⊢
  exact h.imp (fun h => h.step hv) fun h => h.step hv

theorem compacted_base (hties : r.recoveries.length ≤ maxRecoveryTies) :
    (r.compacted w).base w = r.base w :=
  base_congr (currentRecovery_settled hties)

theorem consented_compacted (hcaps : r.withinCaps) (hdevice : device ∈ r.consented)
    (hstands : (r.settled w).stands w device) : device ∈ (r.compacted w).consented := by
  rw [← settled_consented (w := w)] at hdevice
  obtain ⟨c, hc, rfl⟩ := mem_consented.1 hdevice
  have hlength : (r.settled w).consents.length ≤ maxConsents := by
    obtain ⟨-, -, hconsents, -⟩ := withinCaps_iff.1 hcaps
    exact length_settled_consents_le.trans hconsents
  refine mem_consented.2 ⟨c, mem_keptConsents hlength hc (.inl ?_), rfl⟩
  exact Option.isSome_iff_ne_none.1 hstands

theorem mem_compacted_vouches (hcaps : r.withinCaps) {v : Vouch} :
    v ∈ (r.compacted w).vouches ↔
      (v ∈ r.vouches ∧ v.base = r.base w) ∧ (r.settled w).stands w v.voucher := by
  have hfits := Roster.withinCaps.fits hcaps
  rw [← mem_settled_vouches hfits]
  exact mem_keptVouches ((length_settled_vouches_le hfits.recoveries).trans
    (withinCaps_iff.1 hcaps).2.2.2.1)

theorem mem_compacted_removals (hcaps : r.withinCaps) {rm : Removal} :
    rm ∈ (r.compacted w).removals ↔
      (rm ∈ r.removals ∧ rm.base = r.base w) ∧ (r.settled w).stands w rm.remover := by
  have hfits := Roster.withinCaps.fits hcaps
  rw [← mem_settled_removals hfits]
  exact mem_keptRemovals ((length_settled_removals_le hfits.recoveries).trans
    (withinCaps_iff.1 hcaps).2.2.2.2.2.2)

/-- Within the caps compaction keeps all that the fold reads. -/
theorem foldsAlike_compacted (hcaps : r.withinCaps) :
    FoldsAlike w firstSeen now (fun device => (r.settled w).stands w device) (r.compacted w) r := by
  have hfits := Roster.withinCaps.fits hcaps
  have hbase := compacted_base (w := w) hfits.recoveries
  have hconsented : (r.compacted w).consented ⊆ r.consented := compacted_within.consented
  have hseed : ∀ device ∈ r.seeds w, (r.settled w).stands w device := fun device hdevice =>
    stands_iff.2 (.inl (Reach.reaches_seed (settled_seeds hfits ▸ hdevice)))
  have hjoin : ∀ ask ∈ r.scopePendings w, (r.settled w).stands w ask.device := fun ask hask => by
    obtain ⟨hask, haskBase, hdevice⟩ := mem_scopePendings.1 hask
    exact stands_iff.2 (.inr (Reach.reaches_seed
      ((mem_settled_joining hfits).2 ⟨⟨ask, hask, haskBase, rfl⟩, hdevice⟩)))
  have hadmitting : ∀ v, v ∈ r.scopeVouches w → (r.settled w).stands w v.voucher →
      (r.settled w).stands w v.device := fun v hv hvoucher =>
    stands_step ((mem_settled_admitting hfits).2 (mem_scopeVouches.1 hv)) hvoucher
  have hscopeVouches : ∀ v, v ∈ (r.compacted w).scopeVouches w → v ∈ r.scopeVouches w :=
    fun v hv => by
      obtain ⟨hv, hvBase, hdevice⟩ := mem_scopeVouches.1 hv
      exact mem_scopeVouches.2 ⟨compacted_within.vouches hv, hvBase.trans hbase, hconsented hdevice⟩
  have hscopePendings : ∀ ask, ask ∈ (r.compacted w).scopePendings w ↔ ask ∈ r.scopePendings w := by
    intro ask
    rw [mem_scopePendings, hbase]
    constructor
    · rintro ⟨hask, haskBase, hdevice⟩
      exact mem_scopePendings.2 ⟨compacted_within.pendings hask, haskBase, hconsented hdevice⟩
    · intro hask
      obtain ⟨hmem, haskBase, hdevice⟩ := mem_scopePendings.1 hask
      exact ⟨(mem_settled_pendings hfits).2 ⟨hmem, haskBase⟩, haskBase,
        consented_compacted hcaps hdevice (hjoin ask hask)⟩
  have hseeds : (r.compacted w).seeds w = r.seeds w := by
    ext device
    have hroots : (r.compacted w).baseRoots w = r.baseRoots w := settled_baseRoots hfits
    constructor
    · intro hdevice
      obtain ⟨hroot, hconsent⟩ := mem_seeds.1 hdevice
      exact mem_seeds.2 ⟨hroots ▸ hroot, hconsented hconsent⟩
    · intro hdevice
      obtain ⟨hroot, hconsent⟩ := mem_seeds.1 hdevice
      exact mem_seeds.2 ⟨hroots ▸ hroot, consented_compacted hcaps hconsent (hseed device hdevice)⟩
  exact {
    base := hbase
    noWait := congrArg (·.any (·.noWait)) (currentRecovery_settled hfits.recoveries)
    seeds := hseeds
    seeds_mem := fun device hdevice => hseed device (hseeds ▸ hdevice)
    vouches := fun v hvoucher => by
      refine ⟨hscopeVouches v, fun hv => ?_⟩
      obtain ⟨hmem, hvBase, hdevice⟩ := mem_scopeVouches.1 hv
      exact mem_scopeVouches.2 ⟨(mem_compacted_vouches hcaps).2 ⟨⟨hmem, hvBase⟩, hvoucher⟩,
        hvBase.trans hbase.symm, consented_compacted hcaps hdevice (hadmitting v hv hvoucher)⟩
    vouches_mem := fun v hv hvoucher => hadmitting v (hscopeVouches v hv) hvoucher
    removals := fun rm hrmBase hremover => ⟨fun hrm => compacted_within.removals hrm, fun hrm =>
      (mem_compacted_removals hcaps).2 ⟨⟨hrm, hrmBase.trans hbase⟩, hremover⟩⟩
    asked := fun device _ => by simp only [hscopePendings]
    asked_mem := fun ask hask _ => hjoin ask ((hscopePendings ask).1 hask) }

end Compacted

end Hollow.Identity
