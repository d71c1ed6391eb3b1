import Hollow.Identity.Union

/-! Families of rosters of one master: what a part of the family says in the family's current base
is in the part's current base too, and signed there by devices that stand. -/

namespace Hollow.Identity

variable {w : Checks} {master key : String} {family part : List Roster} {a b r : Roster}

/-- `b` has the recoveries of `a` and more, under ids that tell their times apart. -/
structure Extends (w : Checks) (a b : Roster) : Prop where
  master : a.master = b.master
  rPub : a.recoveries ≠ [] → a.rPub = b.rPub
  within : a.Within b
  distinct : ∀ rec ∈ b.recoveries, ∀ rec' ∈ b.recoveries,
    baseId w b.master b.rPub rec = baseId w b.master b.rPub rec' → rec.atMs = rec'.atMs

def Roster.HasBase (w : Checks) (r : Roster) (base : String) : Prop :=
  base = legacyBase ∨ ∃ rec ∈ r.recoveries, baseId w r.master r.rPub rec = base

theorem hasBase_base : r.HasBase w (r.base w) := by
  by_cases hnone : r.recoveries = []
  · exact .inl (base_eq_legacy.2 hnone)
  · obtain ⟨c, hc⟩ := exists_currentRecovery (w := w) hnone
    obtain ⟨rec, hnew, hbase⟩ := (currentRecovery_eq_some.1 hc).base_mem
    refine .inr ⟨rec, hnew.1, ?_⟩
    rw [hbase, Roster.base, hc]
    rfl

theorem hasBase_of_eq {base : String} (h : r.base w = base) : r.HasBase w base :=
  h ▸ hasBase_base

namespace Extends

theorem newest_of_baseId (h : Extends w a b) {rec : Recovery} (hrec : rec ∈ a.recoveries)
    (hbase : baseId w a.master a.rPub rec = b.base w) : b.Newest rec := by
  have hne : a.recoveries ≠ [] := List.ne_nil_of_mem hrec
  obtain ⟨c, hc⟩ := exists_currentRecovery (w := w) (List.ne_nil_of_mem (h.within.recoveries hrec))
  obtain ⟨top, htop, htopBase⟩ := (currentRecovery_eq_some.1 hc).base_mem
  have hat : rec.atMs = top.atMs := by
    refine h.distinct rec (h.within.recoveries hrec) top htop.1 ?_
    rw [htopBase, ← h.master, ← h.rPub hne, hbase, Roster.base, hc]
    rfl
  exact ⟨h.within.recoveries hrec, fun other hother => (htop.2 other hother).trans hat.ge⟩

theorem newest (h : Extends w a b) (hbase : a.HasBase w (b.base w)) :
    (∀ rec, a.Newest rec → b.Newest rec) ∧ (a.recoveries = [] → b.recoveries = []) := by
  rcases hbase with hlegacy | ⟨rec, hrec, hbase⟩
  · have hnone := base_eq_legacy.1 hlegacy
    refine ⟨fun rec hrec => ?_, fun _ => hnone⟩
    exact absurd (hnone ▸ h.within.recoveries hrec.1) List.not_mem_nil
  · refine ⟨fun rec' hnew => ?_, fun hnone => absurd hnone (List.ne_nil_of_mem hrec)⟩
    refine ⟨h.within.recoveries hnew.1, fun other hother => ?_⟩
    exact ((h.newest_of_baseId hrec hbase).2 other hother).trans (hnew.2 rec hrec)

/-- A part that holds the whole's base recovery has the whole's base. -/
theorem base_eq (h : Extends w a b) (hbase : a.HasBase w (b.base w)) : a.base w = b.base w := by
  have hnewest := h.newest hbase
  rcases hbase with hlegacy | ⟨rec, hrec, hbase⟩
  · have hnone := base_eq_legacy.1 hlegacy
    have hnone' : a.recoveries = [] := List.eq_nil_of_subset_nil (hnone ▸ h.within.recoveries)
    rw [base_eq_legacy.2 hnone', base_eq_legacy.2 hnone]
  · have hne : a.recoveries ≠ [] := List.ne_nil_of_mem hrec
    have hnew := h.newest_of_baseId hrec hbase
    obtain ⟨c, hc⟩ := exists_currentRecovery (w := w) hne
    obtain ⟨c', hc'⟩ := exists_currentRecovery (w := w) (List.ne_nil_of_mem hnew.1)
    obtain ⟨low, hlow, hlowBase⟩ := (currentRecovery_eq_some.1 hc).base_mem
    have hbases : a.base w = c.base ∧ b.base w = c'.base := by
      rw [Roster.base, Roster.base, hc, hc']
      exact ⟨rfl, rfl⟩
    apply le_antisymm
    · rw [hbases.1, ← hbase]
      exact (currentRecovery_eq_some.1 hc).base_le rec
        ⟨hrec, fun other hother => hnew.2 other (h.within.recoveries hother)⟩
    · rw [hbases.1, hbases.2, ← hlowBase, h.master, h.rPub hne]
      exact (currentRecovery_eq_some.1 hc').base_le low (hnewest.1 low hlow)

/-- A device that stands in a part with the base of the whole stands in the whole. -/
theorem stands (h : Extends w a b) (hbase : a.HasBase w (b.base w)) (hfits : a.Fits)
    (hfits' : b.Fits) {device : String} (hstands : (a.settled w).stands w device) :
    (b.settled w).stands w device := by
  have hbases := h.base_eq hbase
  obtain ⟨hnewest, hlegacy⟩ := h.newest hbase
  have hvouches : (a.settled w).admitting ⊆ (b.settled w).admitting := fun v hv => by
    obtain ⟨hv, hvBase, hdevice⟩ := (mem_settled_admitting hfits).1 hv
    exact (mem_settled_admitting hfits').2
      ⟨h.within.vouches hv, hvBase.trans hbases, h.within.consented hdevice⟩
  have hseeds : (a.settled w).seeds w ⊆ (b.settled w).seeds w := fun device hdevice => by
    rw [settled_seeds hfits] at hdevice
    rw [settled_seeds hfits']
    obtain ⟨hroot, hconsent⟩ := mem_seeds.1 hdevice
    exact mem_seeds.2 ⟨h.within.baseRoots hnewest hlegacy hroot, h.within.consented hconsent⟩
  have hjoining : (a.settled w).joining ⊆ (b.settled w).joining := fun device hdevice => by
    obtain ⟨⟨p, hp, hpBase, hpDevice⟩, hconsent⟩ := (mem_settled_joining hfits).1 hdevice
    exact (mem_settled_joining hfits').2
      ⟨⟨p, h.within.pendings hp, hpBase.trans hbases, hpDevice⟩, h.within.consented hconsent⟩
  rw [stands_iff] at hstands ⊢
  exact hstands.imp (fun h => h.mono hvouches hseeds) fun h => h.mono hvouches hjoining

end Extends

section Member

variable (hcompacted : r.compacted w = r)
include hcompacted

theorem signed_of_compacted : r.Signed w ∧ (∀ v ∈ r.vouches, v.base = r.base w) ∧
    (∀ p ∈ r.pendings, p.base = r.base w) ∧ ∀ rm ∈ r.removals, rm.base = r.base w := by
  have hfits : r.Fits := hcompacted ▸ compacted_fits
  have hvouch : ∀ v ∈ r.vouches, (v ∈ r.vouches ∧ v.base = r.base w) ∧
      (r.settled w).stands w v.voucher := fun v hv => by
    rw [← hcompacted] at hv
    have hv := splitBest_perm.subset (List.mem_of_mem_take (StableSort.mem_sortBy.1 hv))
    obtain ⟨hv, hstands⟩ := mem_rankedVouches.1 hv
    exact ⟨(mem_settled_vouches hfits).1 hv, hstands⟩
  have hremoval : ∀ rm ∈ r.removals, (rm ∈ r.removals ∧ rm.base = r.base w) ∧
      (r.settled w).stands w rm.remover := fun rm hrm => by
    rw [← hcompacted] at hrm
    obtain ⟨hrm, hstands⟩ :=
      mem_rankedRemovals.1 (List.mem_of_mem_take (StableSort.mem_sortBy.1 hrm))
    exact ⟨(mem_settled_removals hfits).1 hrm, hstands⟩
  refine ⟨⟨fun v hv _ => (hvouch v hv).2, fun rm hrm _ => (hremoval rm hrm).2⟩,
    fun v hv => (hvouch v hv).1.2, fun p hp => ?_, fun rm hrm => (hremoval rm hrm).1.2⟩
  rw [← hcompacted] at hp
  exact ((mem_settled_pendings hfits).1 hp).2

end Member

namespace Family

variable (h : Family w master key family)
include h

theorem of_subset (hpart : part ⊆ family) :
    Family w master key part where
  verified := fun r hr => h.verified r (hpart hr)
  compacted := fun r hr => h.compacted r (hpart hr)
  master_eq := fun r hr => h.master_eq r (hpart hr)
  rPub_eq := fun r hr => h.rPub_eq r (hpart hr)
  distinct := fun rec hrec rec' hrec' =>
    h.distinct rec ((unionOf_within hpart).recoveries hrec) rec'
    ((unionOf_within hpart).recoveries hrec')

theorem unionOf_rPub (hr : r ∈ family) (hne : r.rPub ≠ "") :
    (unionOf master family).rPub = key := by
  rw [unionOf]
  cases hfind : (family.map (·.rPub)).find? (· ≠ "") with
  | none =>
    have hnone := List.find?_eq_none.1 hfind r.rPub (List.mem_map_of_mem hr)
    exact absurd hne (by simpa using hnone)
  | some rPub =>
    have hrPub : rPub ≠ "" := by simpa using List.find?_some hfind
    obtain ⟨r', hr', rfl⟩ := List.mem_map.1 (List.mem_of_find?_eq_some hfind)
    exact (h.rPub_eq r' hr').resolve_right hrPub

theorem unionOf_rPub_eq :
    (unionOf master family).rPub = key ∨ (unionOf master family).rPub = "" := by
  by_cases hall : ∀ r ∈ family, r.rPub = ""
  · refine .inr ?_
    have hnone : (family.map (·.rPub)).find? (· ≠ "") = none := by
      simpa [List.find?_eq_none] using hall
    rw [unionOf, hnone]
    rfl
  · push Not at hall
    obtain ⟨r, hr, hne⟩ := hall
    exact .inl (h.unionOf_rPub hr hne)

theorem phrase_rPub (hphrase : (unionOf master family).recoveries ≠ [] ∨
      (unionOf master family).phraseAdmits ≠ []) :
    (unionOf master family).rPub = key ∧ key ≠ "" := by
  have hmember : ∃ r ∈ family, r.recoveries ≠ [] ∨ r.phraseAdmits ≠ [] := by
    rcases hphrase with hne | hne
    · obtain ⟨rec, hrec⟩ := List.exists_mem_of_ne_nil _ hne
      obtain ⟨r, hr, hrec⟩ := List.mem_flatMap.1 (mem_sortSet.1 hrec)
      exact ⟨r, hr, .inl (List.ne_nil_of_mem hrec)⟩
    · obtain ⟨p, hp⟩ := List.exists_mem_of_ne_nil _ hne
      obtain ⟨r, hr, hp⟩ := List.mem_flatMap.1 (mem_sortSet.1 hp)
      exact ⟨r, hr, .inr (List.ne_nil_of_mem hp)⟩
  obtain ⟨r, hr, hphrase⟩ := hmember
  have hne := (h.verified r hr).rPub_ne_empty hphrase
  exact ⟨h.unionOf_rPub hr hne, (h.rPub_eq r hr).resolve_right hne ▸ hne⟩

theorem extends_unionOf (hpart : part ⊆ family) :
    Extends w (unionOf master part) (unionOf master family) where
  master := rfl
  rPub := fun hne => by
    have hne' : (unionOf master family).recoveries ≠ [] := fun hnone =>
      hne (List.eq_nil_of_subset_nil (hnone ▸ (unionOf_within hpart).recoveries))
    rw [((h.of_subset hpart).phrase_rPub (.inl hne)).1, (h.phrase_rPub (.inl hne')).1]
  within := unionOf_within hpart
  distinct := fun rec hrec rec' hrec' => by
    rw [(h.phrase_rPub (.inl (List.ne_nil_of_mem hrec))).1]
    exact h.distinct rec hrec rec' hrec'

theorem extends_member (hr : r ∈ family) :
    Extends w r (unionOf master family) where
  master := h.master_eq r hr
  rPub := fun hne => by
    have hrPub := (h.verified r hr).rPub_ne_empty (.inl hne)
    rw [h.unionOf_rPub hr hrPub, (h.rPub_eq r hr).resolve_right hrPub]
  within := within_unionOf hr
  distinct := (h.extends_unionOf (List.Subset.refl _)).distinct

theorem hasBase_member (hr : r ∈ family) :
    (unionOf master family).HasBase w (r.base w) := by
  rcases hasBase_base (w := w) (r := r) with hlegacy | ⟨rec, hrec, hbase⟩
  · exact .inl hlegacy
  · have hextends := h.extends_member hr
    refine .inr ⟨rec, hextends.within.recoveries hrec, ?_⟩
    rw [← hextends.master, ← hextends.rPub (List.ne_nil_of_mem hrec), hbase]

theorem stands_of_member (hcaps : (unionOf master family).withinCaps) (hr : r ∈ family)
    {base signer : String} (hown : base = r.base w) (hbase : base = (unionOf master family).base w)
    (hsigner : (r.settled w).stands w signer) :
    ((unionOf master family).settled w).stands w signer :=
  (h.extends_member hr).stands (hasBase_of_eq (hown.symm.trans hbase))
    (h.compacted r hr ▸ compacted_fits) (Roster.withinCaps.fits hcaps) hsigner

/-- What a family says in its current base is signed by devices that stand in the union. -/
theorem signed (hcaps : (unionOf master family).withinCaps) : (unionOf master family).Signed w where
  vouches := fun v hv hvBase => by
    obtain ⟨r, hr, hv⟩ := List.mem_flatMap.1 (mem_sortSet.1 hv)
    obtain ⟨hsigned, hbases, -⟩ := signed_of_compacted (h.compacted r hr)
    exact h.stands_of_member hcaps hr (hbases v hv) hvBase (hsigned.vouches v hv (hbases v hv))
  removals := fun rm hrm hrmBase => by
    obtain ⟨r, hr, hrm⟩ := List.mem_flatMap.1 (mem_sortSet.1 hrm)
    obtain ⟨hsigned, -, -, hbases⟩ := signed_of_compacted (h.compacted r hr)
    exact h.stands_of_member hcaps hr (hbases rm hrm) hrmBase
      (hsigned.removals rm hrm (hbases rm hrm))

theorem base_of_member (hpart : part ⊆ family) (hr : r ∈ part) {base : String}
    (hown : base = r.base w) (hbase : base = (unionOf master family).base w) :
    base = (unionOf master part).base w := by
  have hhas := (h.of_subset hpart).hasBase_member hr
  rw [← hown, hbase] at hhas
  rw [hbase, (h.extends_unionOf hpart).base_eq hhas]

/-- A statement of a part that is in the family's current base is in the part's. -/
theorem part_base (hpart : part ⊆ family) :
    (∀ v ∈ (unionOf master part).vouches, v.base = (unionOf master family).base w →
      v.base = (unionOf master part).base w) ∧
    (∀ p ∈ (unionOf master part).pendings, p.base = (unionOf master family).base w →
      p.base = (unionOf master part).base w) ∧
    ∀ rm ∈ (unionOf master part).removals, rm.base = (unionOf master family).base w →
      rm.base = (unionOf master part).base w := by
  refine ⟨fun v hv => ?_, fun p hp => ?_, fun rm hrm => ?_⟩
  · obtain ⟨r, hr, hv⟩ := List.mem_flatMap.1 (mem_sortSet.1 hv)
    exact h.base_of_member hpart hr
      ((signed_of_compacted (h.compacted r (hpart hr))).2.1 v hv)
  · obtain ⟨r, hr, hp⟩ := List.mem_flatMap.1 (mem_sortSet.1 hp)
    exact h.base_of_member hpart hr
      ((signed_of_compacted (h.compacted r (hpart hr))).2.2.1 p hp)
  · obtain ⟨r, hr, hrm⟩ := List.mem_flatMap.1 (mem_sortSet.1 hrm)
    exact h.base_of_member hpart hr
      ((signed_of_compacted (h.compacted r (hpart hr))).2.2.2 rm hrm)

end Family

end Hollow.Identity
