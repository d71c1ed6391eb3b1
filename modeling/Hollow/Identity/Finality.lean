import Hollow.Identity.Fold

/-! A removal is final within its base: the device it removes is a member for no observer of any
later roster of the base, whatever is vouched, asked or removed after it. -/

namespace Hollow.Identity

variable {w : Checks} {r r' : Roster} {firstSeen firstSeen' : String → Option Int} {now now' : Int}

theorem Roster.Verified.newest (h : r.Verified w) {rec : Recovery} (hrec : rec ∈ r.recoveries) :
    r.Newest rec := by
  obtain ⟨raw, now, rfl⟩ := h
  rw [Roster.checked] at hrec ⊢
  split_ifs at hrec ⊢
  · exact compacted_newest hrec
  · cases hrec

theorem Roster.Within.founded (h : r.Within r') (hbase : r'.base w = r.base w)
    (hnewest : ∀ rec, r.Newest rec → r'.Newest rec) : r.founded w ⊆ r'.founded w := by
  intro device hdevice
  refine mem_founded.2 ((mem_founded.1 hdevice).mono (fun v hv => ?_) fun d hd => ?_)
  · obtain ⟨hv, hvbase, hconsent⟩ := mem_scopeVouches.1 hv
    exact mem_scopeVouches.2 ⟨h.vouches hv, hvbase.trans hbase.symm, h.consented hconsent⟩
  · have hlegacy : r.recoveries = [] → r'.recoveries = [] := fun hnone =>
      base_eq_legacy.1 (hbase.trans (base_eq_legacy.2 hnone))
    obtain ⟨hroot, hconsent⟩ := mem_seeds.1 hd
    exact mem_seeds.2 ⟨h.baseRoots hnewest hlegacy hroot, h.consented hconsent⟩

/-- A counted removal by a founded device is final: its device is a member for no observer of a
verified roster of the same base that has the statements of this one. -/
theorem removal_final (hverified : r'.Verified w) (h : r.Within r') (hbase : r'.base w = r.base w)
    {rm : Removal} (hcounts : rm ∈ r.countingRemovals w firstSeen now)
    (hfounded : rm.remover ∈ r.founded w) :
    rm.device ∉ (r'.fold w firstSeen' now').members := by
  intro hmember
  obtain ⟨hrm, hrmBase, -, -⟩ := mem_countingRemovals.1 hcounts
  have hfounded' : rm.remover ∈ r'.founded w :=
    h.founded hbase (fun rec hnew => hverified.newest (h.recoveries hnew.1)) hfounded
  -- A member is rooted, so the removal counts here too.
  have hcounts' : rm ∈ r'.countingRemovals w firstSeen' now' :=
    mem_countingRemovals.2 ⟨h.removals hrm, hrmBase.trans hbase.symm,
      mem_rooted_of_mem_founded hfounded', .inl (mem_rooted_of_mem_members hmember)⟩
  exact (mem_members.1 hmember).2 rm hcounts' rfl

def removedSample : Roster where
  master := "m"
  rPub := "k"
  recoveries := [⟨1, ["a", "b"], false, "k", "m"⟩]
  consents := [⟨"a", "a"⟩, ⟨"b", "b"⟩]
  removals := [⟨sampleChecks.digest "", "b", "a", [], "a"⟩]

/-- Afterwards `a` vouches for `b`, `b` asks to join again and removes `a`. -/
def returnedSample : Roster :=
  { removedSample with
    vouches := [⟨sampleChecks.digest "", "b", "a", "a"⟩]
    pendings := [⟨sampleChecks.digest "", "b", "m"⟩]
    removals := [⟨sampleChecks.digest "", "a", "b", [], "b"⟩,
      ⟨sampleChecks.digest "", "b", "a", [], "a"⟩] }

theorem removal_final_returned :
    "b" ∉ (returnedSample.fold sampleChecks (fun _ => some 0) 1000000000).members := by
  have hcounts : ⟨sampleChecks.digest "", "b", "a", [], "a"⟩ ∈
      removedSample.countingRemovals sampleChecks (fun _ => none) 0 := by decide +kernel
  exact removal_final ⟨returnedSample, none, by decide +kernel⟩
    ⟨by decide, by decide, by decide, by decide, by decide, by decide, by decide⟩
    (by decide +kernel) hcounts (by decide +kernel)

end Hollow.Identity
