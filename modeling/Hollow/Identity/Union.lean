import Hollow.Identity.StolenKey

/-! The union of a family of rosters of one master, and what compaction makes of it: where every
signer stands and the ceilings hold, only what is superseded is dropped. -/

namespace Hollow.Identity

open StableSort

variable {w : Checks} {r : Roster}

/-- Every vouch and removal of the base is signed by a device that stands. -/
structure Roster.Signed (w : Checks) (r : Roster) : Prop where
  vouches : ∀ v ∈ r.vouches, v.base = r.base w → (r.settled w).stands w v.voucher
  removals : ∀ rm ∈ r.removals, rm.base = r.base w → (r.settled w).stands w rm.remover

/-- The statements of each kind are sorted and without duplicates. -/
structure Roster.Sorted (r : Roster) : Prop where
  recoveries : r.recoveries.Pairwise (· < ·)
  phraseAdmits : r.phraseAdmits.Pairwise (· < ·)
  consents : r.consents.Pairwise (· < ·)
  vouches : r.vouches.Pairwise (· < ·)
  pendings : r.pendings.Pairwise (· < ·)
  legacy : r.legacy.Pairwise (· < ·)
  removals : r.removals.Pairwise (· < ·)

/-- The consents compaction finds of devices that neither stand nor are named. -/
def Roster.unnamedConsents (w : Checks) (r : Roster) : List Consent :=
  let settled := r.settled w
  let kept :=
    { settled with vouches := settled.keptVouches w, removals := settled.keptRemovals w }
  settled.consents.filter fun c => ¬ (ofLex (consentClass (settled.rank w) kept.mentioned c)).1 < 2

theorem sortBy_id_of_perm {α : Type} [LinearOrder α] {l l' : List α} (h : l.Perm l')
    (hsorted : l'.Pairwise (· < ·)) : sortBy id l = l' := by
  have hsame : sortBy id l = sortBy id l' :=
    sortBy_eq_of_perm h fun _ _ _ _ hkey => hkey
  rw [hsame]
  exact sortBy_eq_self (hsorted.imp fun h => h.le)

theorem retainNamed_eq_self {named : Consent → Bool} {unnamed : Nat} {consents : List Consent}
    (h : unnamed + (consents.filter fun c => ¬ named c).length ≤ maxUnnamedConsents) :
    retainNamed named unnamed consents = consents := by
  induction consents generalizing unnamed with
  | nil => rfl
  | cons c consents ih =>
    rw [retainNamed]
    by_cases hnamed : named c
    · rw [if_pos hnamed, ih (by simpa [hnamed] using h)]
    · have hlength : unnamed + 1 + (consents.filter fun c => ¬ named c).length ≤
          maxUnnamedConsents := by
        simp only [List.filter_cons, hnamed] at h
        simp at h ⊢
        omega
      rw [if_neg hnamed, if_pos (by omega), ih hlength]

theorem keptVouches_eq_self (hsorted : r.vouches.Pairwise (· < ·))
    (hlength : r.vouches.length ≤ maxVouches) (hstands : ∀ v ∈ r.vouches, r.stands w v.voucher) :
    r.keptVouches w = r.vouches := by
  have hranked : (r.rankedVouches w).Perm r.vouches := by
    rw [Roster.rankedVouches, List.filter_eq_self.2 hstands, sortSet_eq_self hsorted]
    exact sortBy_perm
  refine sortBy_id_of_perm ?_ hsorted
  rw [List.take_of_length_le ((splitBest_perm.trans hranked).length_eq.le.trans hlength)]
  exact splitBest_perm.trans hranked

theorem keptRemovals_eq_self (hsorted : r.removals.Pairwise (· < ·))
    (hlength : r.removals.length ≤ maxRemovals)
    (hstands : ∀ rm ∈ r.removals, r.stands w rm.remover) : r.keptRemovals w = r.removals := by
  have hranked : (r.rankedRemovals w).Perm r.removals := by
    rw [Roster.rankedRemovals, List.filter_eq_self.2 hstands, sortSet_eq_self hsorted]
    exact sortBy_perm
  refine sortBy_id_of_perm ?_ hsorted
  rw [List.take_of_length_le (hranked.length_eq.le.trans hlength)]
  exact hranked

/-- Consents within both caps are all kept. -/
theorem keptConsents_eq_self {rank : String → WithBot Rank} {mentioned : Finset String}
    {consents : List Consent} (hsorted : consents.Pairwise (· < ·))
    (hlength : consents.length ≤ maxConsents) (hunnamed : (consents.filter fun c =>
      ¬ (ofLex (consentClass rank mentioned c)).1 < 2).length ≤ maxUnnamedConsents) :
    keptConsents rank mentioned consents = consents := by
  have hperm : (sortBy (fun c => toLex (consentClass rank mentioned c, c))
      consents).Perm consents :=
    sortBy_perm
  rw [keptConsents, retainNamed_eq_self]
  · rw [List.take_of_length_le (hperm.length_eq.le.trans hlength)]
    exact sortBy_id_of_perm hperm hsorted
  · rw [Nat.zero_add, (hperm.filter _).length_eq]
    simpa using hunnamed

theorem pairwise_device_lt {consents : List Consent} (hle : consents.Pairwise (· ≤ ·))
    (hchain : consents.IsChain (·.device ≠ ·.device)) :
    consents.Pairwise (·.device < ·.device) := by
  induction consents with
  | nil => exact .nil
  | cons c consents ih =>
    obtain ⟨hfirst, hrest⟩ := List.pairwise_cons.1 hle
    have ih := ih hrest hchain.tail
    refine List.pairwise_cons.2 ⟨?_, ih⟩
    cases consents with
    | nil => simp
    | cons next consents =>
      have hlt : c.device < next.device := lt_of_le_of_ne
        (device_le_of_le (hfirst next List.mem_cons_self)) (List.isChain_cons_cons.1 hchain).1
      intro other hother
      rcases List.mem_cons.1 hother with rfl | hother
      · exact hlt
      · exact hlt.trans ((List.pairwise_cons.1 ih).1 other hother)

theorem settled_devices_sorted : (r.settled w).consents.Pairwise (·.device < ·.device) := by
  have hle : (sortBy id (r.newest.inBase w).consents).Pairwise (· ≤ ·) := sorted_sortBy
  exact pairwise_device_lt (hle.sublist (List.destutter_sublist _ _)) (List.isChain_destutter _ _)

theorem settled_consents_sorted : (r.settled w).consents.Pairwise (· < ·) :=
  settled_devices_sorted.imp fun {_ _} hlt =>
    lt_of_not_ge fun hge => hlt.not_ge (device_le_of_le hge)

theorem sortCap_sorted {α : Type} [LinearOrder α] {l : List α} {cap : Nat} :
    (sortCap l cap).Pairwise (· < ·) :=
  pairwise_sortSet.sublist (List.take_sublist _ _)

theorem newest_recoveries_sorted : r.newest.recoveries.Pairwise (· < ·) := by
  rw [Roster.newest]
  split <;> exact sortCap_sorted

theorem settled_sorted (hvouches : r.vouches.Pairwise (· < ·))
    (hremovals : r.removals.Pairwise (· < ·)) : (r.settled w).Sorted where
  recoveries := by
    rw [settled_recoveries]
    exact newest_recoveries_sorted
  phraseAdmits := sortCap_sorted
  consents := settled_consents_sorted
  vouches := by
    change (r.newest.inBase w).vouches.Pairwise _
    rw [inBase_vouches, newest_eq]
    exact hvouches.filter _
  pendings := sortCap_sorted
  legacy := sortCap_sorted
  removals := by
    change (r.newest.inBase w).removals.Pairwise _
    rw [inBase_removals, newest_eq]
    exact hremovals.filter _

/-- Where every signer stands and the ceilings hold, compaction only settles. -/
theorem compacted_eq_settled (hsorted : r.Sorted) (hsigned : r.Signed w) (hcaps : r.withinCaps)
    (hunnamed : (r.unnamedConsents w).length ≤ maxUnnamedConsents) :
    r.compacted w = r.settled w := by
  have hfits := Roster.withinCaps.fits hcaps
  have hsettled : (r.settled w).Sorted := settled_sorted hsorted.vouches hsorted.removals
  obtain ⟨-, -, hconsents, hvouches, -, -, hremovals⟩ := withinCaps_iff.1 hcaps
  have hkeptVouches : (r.settled w).keptVouches w = (r.settled w).vouches := by
    refine keptVouches_eq_self hsettled.vouches
      ((length_settled_vouches_le hfits.recoveries).trans hvouches) fun v hv => ?_
    obtain ⟨hv, hbase⟩ := (mem_settled_vouches hfits).1 hv
    exact hsigned.vouches v hv hbase
  have hkeptRemovals : (r.settled w).keptRemovals w = (r.settled w).removals := by
    refine keptRemovals_eq_self hsettled.removals
      ((length_settled_removals_le hfits.recoveries).trans hremovals) fun rm hrm => ?_
    obtain ⟨hrm, hbase⟩ := (mem_settled_removals hfits).1 hrm
    exact hsigned.removals rm hrm hbase
  rw [Roster.unnamedConsents, hkeptVouches, hkeptRemovals] at hunnamed
  rw [Roster.compacted, hkeptVouches, hkeptRemovals]
  refine Roster.ext rfl rfl rfl rfl ?_ rfl rfl rfl rfl
  exact keptConsents_eq_self settled_consents_sorted
    (length_settled_consents_le.trans hconsents) hunnamed

theorem sortBy_id_sorted {α : Type} [LinearOrder α] {l : List α} (h : l.Nodup) :
    (sortBy id l).Pairwise (· < ·) := by
  have hle : (sortBy id l).Pairwise (· ≤ ·) := sorted_sortBy
  exact hle.imp₂ (fun {_ _} hle hne => lt_of_le_of_ne hle hne)
    (sortBy_perm.nodup_iff.2 h)

theorem rankedVouches_nodup : (r.rankedVouches w).Nodup :=
  sortBy_perm.nodup_iff.2 nodup_sortSet

theorem rankedRemovals_nodup : (r.rankedRemovals w).Nodup :=
  sortBy_perm.nodup_iff.2 nodup_sortSet

/-- Every list of a compacted roster is sorted. -/
theorem compacted_sorted : (r.compacted w).Sorted where
  recoveries := by
    rw [compacted_recoveries]
    exact newest_recoveries_sorted
  phraseAdmits := sortCap_sorted
  consents := by
    refine sortBy_id_sorted (List.Nodup.sublist (List.take_sublist _ _) ?_)
    refine List.Nodup.sublist retainNamed_sublist (sortBy_perm.nodup_iff.2 ?_)
    exact settled_consents_sorted.imp fun h => h.ne
  vouches := sortBy_id_sorted (List.Nodup.sublist (List.take_sublist _ _)
    (splitBest_perm.nodup_iff.2 rankedVouches_nodup))
  pendings := sortCap_sorted
  legacy := sortCap_sorted
  removals := sortBy_id_sorted (List.Nodup.sublist (List.take_sublist _ _) rankedRemovals_nodup)

section Lists

variable {α : Type} [LinearOrder α] {l l' : List α}

theorem eq_of_sorted_subset (h : l.Pairwise (· < ·)) (h' : l'.Pairwise (· < ·)) (hsub : l ⊆ l')
    (hsub' : l' ⊆ l) : l = l' :=
  eq_of_pairwise_lt h h' fun _ => ⟨fun h => hsub h, fun h => hsub' h⟩

theorem length_le_of_sorted_subset (h : l.Pairwise (· < ·)) (hsub : l ⊆ l') :
    l.length ≤ l'.length :=
  (List.subperm_of_subset (h.imp fun h => h.ne) hsub).length_le

end Lists

/-- Sorted rosters that say the same are equal. -/
theorem Roster.Sorted.ext {r' : Roster} (h : r.Sorted) (h' : r'.Sorted)
    (hmaster : r.master = r'.master) (hrPub : r.rPub = r'.rPub)
    (hsub : r.Within r') (hsub' : r'.Within r) : r = r' :=
  Roster.ext hmaster hrPub
    (eq_of_sorted_subset h.recoveries h'.recoveries hsub.recoveries hsub'.recoveries)
    (eq_of_sorted_subset h.phraseAdmits h'.phraseAdmits hsub.phraseAdmits hsub'.phraseAdmits)
    (eq_of_sorted_subset h.consents h'.consents hsub.consents hsub'.consents)
    (eq_of_sorted_subset h.vouches h'.vouches hsub.vouches hsub'.vouches)
    (eq_of_sorted_subset h.pendings h'.pendings hsub.pendings hsub'.pendings)
    (eq_of_sorted_subset h.legacy h'.legacy hsub.legacy hsub'.legacy)
    (eq_of_sorted_subset h.removals h'.removals hsub.removals hsub'.removals)

theorem Roster.Within.fits {r' : Roster} (h : r.Within r') (hsorted : r.Sorted) (hfits : r'.Fits) :
    r.Fits where
  recoveries := (length_le_of_sorted_subset hsorted.recoveries h.recoveries).trans hfits.recoveries
  phraseAdmits :=
    (length_le_of_sorted_subset hsorted.phraseAdmits h.phraseAdmits).trans hfits.phraseAdmits
  legacy := (length_le_of_sorted_subset hsorted.legacy h.legacy).trans hfits.legacy
  pendings := (length_le_of_sorted_subset hsorted.pendings h.pendings).trans hfits.pendings

theorem compacted_fits : (r.compacted w).Fits where
  recoveries := by
    rw [compacted_recoveries, Roster.newest]
    split <;> exact List.length_take_le _ _
  phraseAdmits := List.length_take_le _ _
  legacy := List.length_take_le _ _
  pendings := List.length_take_le _ _

def unionOf (master : String) (family : List Roster) : Roster where
  master
  rPub := ((family.map (·.rPub)).find? (· ≠ "")).getD ""
  recoveries := sortSet (family.flatMap (·.recoveries))
  phraseAdmits := sortSet (family.flatMap (·.phraseAdmits))
  consents := sortSet (family.flatMap (·.consents))
  vouches := sortSet (family.flatMap (·.vouches))
  pendings := sortSet (family.flatMap (·.pendings))
  legacy := sortSet (family.flatMap (·.legacy))
  removals := sortSet (family.flatMap (·.removals))

/-- Checked and compacted rosters of one master under one recovery key or none, whose base ids tell
the times of their recoveries apart. -/
structure Family (w : Checks) (master key : String) (family : List Roster) : Prop where
  verified : ∀ r ∈ family, r.Verified w
  compacted : ∀ r ∈ family, r.compacted w = r
  master_eq : ∀ r ∈ family, r.master = master
  rPub_eq : ∀ r ∈ family, r.rPub = key ∨ r.rPub = ""
  distinct : ∀ rec ∈ (unionOf master family).recoveries,
    ∀ rec' ∈ (unionOf master family).recoveries,
    baseId w master key rec = baseId w master key rec' → rec.atMs = rec'.atMs

section Union

variable {master key : String} {family part : List Roster}

theorem unionOf_sorted : (unionOf master family).Sorted :=
  ⟨pairwise_sortSet, pairwise_sortSet, pairwise_sortSet, pairwise_sortSet, pairwise_sortSet,
    pairwise_sortSet, pairwise_sortSet⟩

theorem unionOf_within (h : part ⊆ family) :
    (unionOf master part).Within (unionOf master family) := by
  constructor <;>
  · intro statement hmem
    simp only [unionOf, mem_sortSet, List.mem_flatMap] at hmem ⊢
    obtain ⟨r, hr, hmem⟩ := hmem
    exact ⟨r, h hr, hmem⟩

theorem within_unionOf (h : r ∈ family) : r.Within (unionOf master family) := by
  constructor <;>
  · intro statement hmem
    simp only [unionOf, mem_sortSet, List.mem_flatMap]
    exact ⟨r, h, hmem⟩

theorem length_unionOf_le {α : Type} [LinearOrder α] {kind : Roster → List α} {cap : Nat}
    (h : part ⊆ family) (hcap : (sortSet (family.flatMap kind)).length ≤ cap) :
    (sortSet (part.flatMap kind)).length ≤ cap := by
  refine (length_le_of_sorted_subset pairwise_sortSet fun a ha => mem_sortSet.2 ?_).trans hcap
  obtain ⟨r, hr, ha⟩ := List.mem_flatMap.1 (mem_sortSet.1 ha)
  exact List.mem_flatMap.2 ⟨r, h hr, ha⟩

theorem withinCaps_unionOf (h : part ⊆ family) (hcaps : (unionOf master family).withinCaps) :
    (unionOf master part).withinCaps := by
  rw [withinCaps_iff] at hcaps ⊢
  obtain ⟨h₁, h₂, h₃, h₄, h₅, h₆, h₇⟩ := hcaps
  exact ⟨length_unionOf_le h h₁, length_unionOf_le h h₂, length_unionOf_le h h₃,
    length_unionOf_le h h₄, length_unionOf_le h h₅, length_unionOf_le h h₆,
    length_unionOf_le h h₇⟩

end Union

end Hollow.Identity
