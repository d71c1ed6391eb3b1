import Hollow.Identity.Places

/-! Compacting twice. The ceilings cut consents by the device's rank and vouches and removals by
their signer's, all by the ranks of the uncut roster. Where more devices stand than consents are
kept, a signer may lose its consent and its statements stay, until the next compaction drops them:
`Roster.Steady` says when nothing is dropped. -/

namespace Hollow.Identity

namespace Roster

variable (w : Checks) (r : Roster)

/-- Whether a device still stands after the cut: its consent stays, and it is rooted, asks to join,
or its best vouch stays. -/
def lasts (device : String) : Bool :=
  r.seated w device && (device ∈ r.seeds w ∪ r.joining ||
    ∃ v ∈ r.firstVouches w, v.device = device ∧ r.isBest w v)

/-- The devices whose consent stays although they no longer stand and no removal names them. -/
def adrift : Finset String :=
  (r.standers w).filter fun device => r.seated w device ∧ ¬ r.lasts w device ∧
    ∀ rm ∈ r.firstRemovals w, rm.device ≠ device

/-- All that the cut keeps is signed by devices that still stand, and few consents are adrift. -/
structure Steady : Prop where
  vouches : ∀ v ∈ r.firstVouches w, r.lasts w v.voucher
  removals : ∀ rm ∈ r.firstRemovals w, r.lasts w rm.remover
  adrift : (r.adrift w).card ≤ maxUnnamedConsents

instance : Decidable (r.Steady w) :=
  decidable_of_iff ((∀ v ∈ r.firstVouches w, r.lasts w v.voucher) ∧
    (∀ rm ∈ r.firstRemovals w, r.lasts w rm.remover) ∧ (r.adrift w).card ≤ maxUnnamedConsents)
    ⟨fun h => ⟨h.1, h.2.1, h.2.2⟩, fun h => ⟨h.vouches, h.removals, h.adrift⟩⟩

/-- The second half of compaction: the ceilings on what the ranks order. -/
def cut : Roster :=
  let kept := { r with vouches := r.keptVouches w, removals := r.keptRemovals w }
  { kept with consents := keptConsents (r.rank w) kept.mentioned r.consents }

end Roster

variable {w : Checks} {r : Roster} {device : String}

theorem compacted_eq_cut : r.compacted w = (r.settled w).cut w := rfl

theorem lasts_iff : r.lasts w device ↔ r.seated w device ∧ (device ∈ r.seeds w ∪ r.joining ∨
    ∃ v ∈ r.firstVouches w, v.device = device ∧ r.isBest w v) := by
  rw [Roster.lasts, Bool.and_eq_true, Bool.or_eq_true, decide_eq_true_eq, decide_eq_true_eq]

theorem seated_iff : r.seated w device ↔ r.stands w device ∧
    (r.ahead w device).card < maxConsents := by
  rw [Roster.seated, Bool.and_eq_true, decide_eq_true_eq]

theorem mem_firstVouches {v : Vouch} : v ∈ r.firstVouches w ↔ v ∈ r.signedVouches w ∧
    ((r.signedVouches w).filter (r.placeKey w · < r.placeKey w v)).card < maxVouches :=
  Finset.mem_filter

theorem exists_best {v : Vouch} (hv : v ∈ r.signedVouches w) (hstands : r.stands w v.device) :
    ∃ best ∈ r.signedVouches w, best.device = v.device ∧ r.isBest w best := by
  obtain ⟨best, hbest, hmin⟩ := Finset.exists_min_image
    ((r.signedVouches w).filter (·.device = v.device)) (r.vouchKey w) ⟨v, by simpa using hv⟩
  obtain ⟨hsigned, hdevice⟩ := Finset.mem_filter.1 hbest
  refine ⟨best, hsigned, hdevice, isBest_iff.2 ⟨hdevice ▸ hstands, fun v' hv' hsame => ?_⟩⟩
  exact hmin v' (Finset.mem_filter.2 ⟨hv', hsame.trans hdevice⟩)

theorem placeKey_best_le {v best : Vouch} (hbest : r.isBest w best) (hv : v ∈ r.signedVouches w)
    (hsame : v.device = best.device) : r.placeKey w best ≤ r.placeKey w v := by
  have hle := (isBest_iff.1 hbest).2 v hv hsame
  rw [Roster.placeKey, Roster.placeKey, hbest]
  cases hother : r.isBest w v with
  | true => exact Prod.Lex.toLex_le_toLex.2 (.inr ⟨rfl, hle⟩)
  | false => exact Prod.Lex.toLex_le_toLex.2 (.inl Bool.false_lt_true)

theorem isBest_of_lt {v best : Vouch} (hbest : r.isBest w best)
    (hlt : r.placeKey w v < r.placeKey w best) : r.isBest w v := by
  by_contra hnot
  rw [Bool.not_eq_true] at hnot
  rw [Roster.placeKey, Roster.placeKey, hbest, hnot] at hlt
  rcases Prod.Lex.toLex_lt_toLex.1 hlt with hlt | ⟨heq, -⟩
  · exact absurd hlt (show ¬ true < false by decide)
  · cases heq

theorem mem_firstVouches_of_le {v v' : Vouch} (h : v ∈ r.firstVouches w)
    (hv' : v' ∈ r.signedVouches w) (hle : r.placeKey w v' ≤ r.placeKey w v) :
    v' ∈ r.firstVouches w := by
  refine mem_firstVouches.2 ⟨hv', lt_of_le_of_lt (Finset.card_le_card ?_) (mem_firstVouches.1 h).2⟩
  exact Finset.monotone_filter_right _ fun _ _ hlt => lt_of_lt_of_le hlt hle

theorem exists_best_first {v : Vouch} (hv : v ∈ r.firstVouches w) (hstands : r.stands w v.device) :
    ∃ best ∈ r.firstVouches w, best.device = v.device ∧ r.isBest w best := by
  have hsigned := (mem_firstVouches.1 hv).1
  obtain ⟨best, hbest, hsame, hisBest⟩ := exists_best hsigned hstands
  exact ⟨best, mem_firstVouches_of_le hv hbest (placeKey_best_le hisBest hsigned hsame.symm), hsame,
    hisBest⟩

theorem exists_voucher (hstands : r.stands w device) (hnot : device ∉ r.seeds w ∪ r.joining) :
    ∃ v ∈ r.signedVouches w, v.device = device ∧ r.rank w v.voucher < r.rank w device := by
  obtain ⟨rank, hrank⟩ := Option.isSome_iff_exists.1 hstands
  obtain ⟨tier, depth, htier, rfl, hfounded, hdepth⟩ := standing_eq_tier.1 hrank
  have hseeds : r.tierSeeds w tier ⊆ r.seeds w ∪ r.joining := by
    cases tier with
    | zero => exact Finset.subset_union_left
    | succ tier => exact Finset.subset_union_right
  cases depth with
  | zero =>
    cases hdepth.walk with
    | seed hseed => exact absurd (hseeds hseed) hnot
  | succ depth =>
    obtain ⟨v, hv, rfl, hvoucher⟩ := hdepth.pred
    have hrankVoucher : r.standing w v.voucher = some (toLex (tier, toLex (depth, v.voucher))) :=
      standing_eq_tier.2 ⟨tier, depth, htier, rfl,
        fun hone hvoucher => hfounded hone (hvoucher.step hv), hvoucher⟩
    refine ⟨v, mem_signedVouches.2 ⟨(List.mem_filter.1 hv).1, ?_⟩, rfl, ?_⟩
    · rw [Roster.stands, hrankVoucher]
      rfl
    · rw [rank_eq_coe hrankVoucher, rank_eq_coe hrank, WithBot.coe_lt_coe]
      refine Prod.Lex.toLex_lt_toLex.2 (.inr ⟨rfl, Prod.Lex.toLex_lt_toLex.2 (.inl ?_)⟩)
      exact Nat.lt_succ_self depth

theorem rank_best_lt {best : Vouch} (hstands : r.stands w best.device)
    (hnot : best.device ∉ r.seeds w ∪ r.joining) (hbest : r.isBest w best) :
    r.rank w best.voucher < r.rank w best.device := by
  obtain ⟨v, hv, hsame, hlt⟩ := exists_voucher hstands hnot
  exact (Prod.Lex.monotone_fst _ _ ((isBest_iff.1 hbest).2 v hv hsame)).trans_lt hlt

theorem ahead_ssubset {other : String} (hstands : r.stands w other)
    (hlt : r.rank w other < r.rank w device) : r.ahead w other ⊂ r.ahead w device := by
  refine Finset.ssubset_iff_of_subset (Finset.monotone_filter_right _ fun _ _ h => h.trans hlt)
    |>.2 ⟨other, Finset.mem_filter.2 ⟨mem_standers.2 hstands, hlt⟩, fun hmem => ?_⟩
  exact (Finset.mem_filter.1 hmem).2.false

theorem cut_within : (r.cut w).Within r where
  recoveries := List.Subset.refl _
  phraseAdmits := List.Subset.refl _
  consents := fun _ h => StableSort.mem_sortBy.1
    (retainNamed_sublist.subset (List.mem_of_mem_take (StableSort.mem_sortBy.1 h)))
  vouches := keptVouches_subset
  pendings := List.Subset.refl _
  legacy := List.Subset.refl _
  removals := keptRemovals_subset

theorem cut_seeds_subset : (r.cut w).seeds w ⊆ r.seeds w := fun _ h =>
  Finset.mem_filter.2 ⟨(Finset.mem_filter.1 h).1, cut_within.consented (Finset.mem_filter.1 h).2⟩

theorem cut_joining_subset : (r.cut w).joining ⊆ r.joining := fun _ h =>
  Finset.mem_filter.2 ⟨(Finset.mem_filter.1 h).1, cut_within.consented (Finset.mem_filter.1 h).2⟩

theorem cut_admitting_subset : (r.cut w).admitting ⊆ r.admitting := fun _ h =>
  List.mem_filter.2 ⟨keptVouches_subset (List.mem_filter.1 h).1,
    decide_eq_true (cut_within.consented (of_decide_eq_true (List.mem_filter.1 h).2))⟩

theorem stands_of_cut (h : (r.cut w).stands w device) : r.stands w device :=
  stands_iff.2 ((stands_iff.1 h).imp (·.mono cut_admitting_subset cut_seeds_subset)
    (·.mono cut_admitting_subset cut_joining_subset))

theorem vouched_of_stands_cut (h : (r.cut w).stands w device)
    (hnot : device ∉ r.seeds w ∪ r.joining) : ∃ v ∈ r.firstVouches w, v.device = device := by
  have hadmitted : ∀ v ∈ (r.cut w).admitting, v ∈ r.firstVouches w := fun v hv =>
    mem_keptVouches_iff.1 (List.mem_filter.1 hv).1
  refine stands_induct (p := fun d => d ∉ r.seeds w ∪ r.joining →
    ∃ v ∈ r.firstVouches w, v.device = d) h (fun d hd hnot => ?_)
    (fun v hv _ => ⟨v, hadmitted v hv, rfl⟩) hnot
  exact absurd (Finset.union_subset_union cut_seeds_subset cut_joining_subset hd) hnot

section Cut

variable (hdevices : r.consents.Pairwise (·.device < ·.device))
include hdevices

theorem mem_cut_consented (hstands : r.stands w device) :
    device ∈ (r.cut w).consented ↔ r.seated w device := by
  obtain ⟨c, hc, rfl⟩ := List.mem_map.1 (List.mem_toFinset.1 (stands_consented hstands))
  rw [Roster.consented, List.mem_toFinset, List.mem_map]
  constructor
  · rintro ⟨c', hc', hsame⟩
    rw [← consent_of_device hdevices (cut_within.consents hc') hc hsame]
    exact (mem_keptConsents_of_stands hdevices (cut_within.consents hc') (hsame ▸ hstands)).1 hc'
  · exact fun hseated => ⟨c, (mem_keptConsents_of_stands hdevices hc hstands).2 hseated, rfl⟩

theorem lasts_of_stands_cut (h : (r.cut w).stands w device) : r.lasts w device := by
  have hstands := stands_of_cut h
  refine lasts_iff.2 ⟨(mem_cut_consented hdevices hstands).1 (stands_consented h), ?_⟩
  by_cases hroot : device ∈ r.seeds w ∪ r.joining
  · exact .inl hroot
  · obtain ⟨v, hv, rfl⟩ := vouched_of_stands_cut h hroot
    exact .inr (exists_best_first hv hstands)

theorem stands_cut_of_rooted (hseated : r.seated w device)
    (hroot : device ∈ r.seeds w ∪ r.joining) : (r.cut w).stands w device := by
  have hconsented := (mem_cut_consented hdevices (seated_iff.1 hseated).1).2 hseated
  refine stands_iff.2 ((Finset.mem_union.1 hroot).imp (fun h => ?_) fun h => ?_)
  · exact Reach.reaches_seed (Finset.mem_filter.2 ⟨(Finset.mem_filter.1 h).1, hconsented⟩)
  · exact Reach.reaches_seed (Finset.mem_filter.2 ⟨(Finset.mem_filter.1 h).1, hconsented⟩)

/-- A device that lasts stands after the cut. -/
theorem stands_cut_of_lasts (h : r.lasts w device) : (r.cut w).stands w device := by
  induction hplace : (r.ahead w device).card using Nat.strong_induction_on generalizing device with
  | _ place ih =>
    obtain ⟨hseated, hway⟩ := lasts_iff.1 h
    by_cases hroot : device ∈ r.seeds w ∪ r.joining
    · exact stands_cut_of_rooted hdevices hseated hroot
    obtain ⟨best, hfirst, rfl, hbest⟩ := hway.resolve_left hroot
    have hsigned := mem_signedVouches.1 (mem_firstVouches.1 hfirst).1
    have hlt := rank_best_lt (isBest_iff.1 hbest).1 hroot hbest
    have hahead := Finset.card_lt_card (ahead_ssubset hsigned.2 hlt)
    have hvoucher : r.lasts w best.voucher := by
      refine lasts_iff.2 ⟨seated_iff.2 ⟨hsigned.2, hahead.trans (seated_iff.1 hseated).2⟩, ?_⟩
      by_cases hroot' : best.voucher ∈ r.seeds w ∪ r.joining
      · exact .inl hroot'
      obtain ⟨v, hv, hdevice, -⟩ := exists_voucher hsigned.2 hroot'
      obtain ⟨best', hbest', hdevice', hisBest⟩ := exists_best hv (hdevice ▸ hsigned.2)
      have hdevice' := hdevice'.trans hdevice
      have hlt' : r.rank w best'.voucher < r.rank w best.voucher := by
        rw [← hdevice'] at hroot' hsigned ⊢
        exact rank_best_lt hsigned.2 hroot' hisBest
      refine .inr ⟨best', mem_firstVouches_of_le hfirst hbest' (le_of_lt ?_), hdevice', hisBest⟩
      rw [Roster.placeKey, Roster.placeKey, hbest, hisBest]
      exact Prod.Lex.toLex_lt_toLex.2 (.inr ⟨rfl, Prod.Lex.toLex_lt_toLex.2 (.inl hlt')⟩)
    refine stands_step (v := best) (List.mem_filter.2 ⟨mem_keptVouches_iff.2 hfirst, ?_⟩)
      (ih _ (hplace ▸ hahead) hvoucher rfl)
    exact decide_eq_true ((mem_cut_consented hdevices (seated_iff.1 hseated).1).2 hseated)

/-- The cut leaves standing just the devices that last. -/
theorem stands_cut_iff : (r.cut w).stands w device ↔ r.lasts w device :=
  ⟨lasts_of_stands_cut hdevices, stands_cut_of_lasts hdevices⟩

end Cut

theorem lasts_of_few (hfew : (r.standers w).card ≤ maxConsents) (hstands : r.stands w device) :
    r.lasts w device := by
  have hahead : r.ahead w device ⊂ r.standers w :=
    Finset.ssubset_iff_of_subset (Finset.filter_subset _ _) |>.2
      ⟨device, mem_standers.2 hstands, fun hmem => (Finset.mem_filter.1 hmem).2.false⟩
  refine lasts_iff.2 ⟨seated_iff.2 ⟨hstands, (Finset.card_lt_card hahead).trans_le hfew⟩, ?_⟩
  by_cases hroot : device ∈ r.seeds w ∪ r.joining
  · exact .inl hroot
  obtain ⟨v, hv, rfl, -⟩ := exists_voucher hstands hroot
  obtain ⟨best, hbest, hdevice, hisBest⟩ := exists_best hv hstands
  refine .inr ⟨best, mem_firstVouches.2 ⟨hbest, ?_⟩, hdevice, hisBest⟩
  -- What goes before it is the best vouch of some standing device, one for each.
  have hinto : ((r.signedVouches w).filter (r.placeKey w · < r.placeKey w best)).card ≤
      (r.standers w).card := by
    have hbests : ∀ v ∈ (r.signedVouches w).filter (r.placeKey w · < r.placeKey w best),
        v ∈ r.signedVouches w ∧ r.isBest w v := fun v hv =>
      ⟨(Finset.mem_filter.1 hv).1, isBest_of_lt hisBest (Finset.mem_filter.1 hv).2⟩
    refine Finset.card_le_card_of_injOn Vouch.device (fun v hv => ?_) fun v hv v' hv' hsame => ?_
    · exact mem_standers.2 (isBest_iff.1 (hbests v hv).2).1
    · obtain ⟨hv, hv_best⟩ := hbests v hv
      obtain ⟨hv', hv'_best⟩ := hbests v' hv'
      exact vouchKey_injective (le_antisymm ((isBest_iff.1 hv_best).2 v' hv' hsame.symm)
        ((isBest_iff.1 hv'_best).2 v hv hsame))
  exact hinto.trans_lt (hfew.trans_lt (by decide))

theorem steady_of_few (hfew : (r.standers w).card ≤ maxConsents) : r.Steady w where
  vouches := fun _ hv => lasts_of_few hfew (mem_signedVouches.1 (mem_firstVouches.1 hv).1).2
  removals := fun _ hrm => lasts_of_few hfew (mem_signedRemovals.1 (Finset.mem_filter.1 hrm).1).2
  adrift := by
    have hnone : r.adrift w = ∅ := by
      refine Finset.filter_eq_empty_iff.2 fun d hd hadrift => hadrift.2.1 ?_
      exact lasts_of_few hfew (mem_standers.1 hd)
    simp [hnone]

/-- The cut changes nothing where every signer stands and few consents are unnamed. -/
theorem cut_eq_self_iff (hkept : r.Kept w) (hconsents : r.consents.length ≤ maxConsents) :
    r.cut w = r ↔ (∀ v ∈ r.vouches, r.stands w v.voucher) ∧
      (∀ rm ∈ r.removals, r.stands w rm.remover) ∧
      (r.consents.filter fun c => ¬ (r.stands w c.device ∨ c.device ∈ r.mentioned)).length ≤
        maxUnnamedConsents := by
  constructor
  · intro h
    have hvouches : r.keptVouches w = r.vouches := congrArg Roster.vouches h
    have hremovals : r.keptRemovals w = r.removals := congrArg Roster.removals h
    have hcut : keptConsents (r.rank w) r.mentioned r.consents = r.consents := by
      have hconsents := congrArg Roster.consents h
      rwa [Roster.cut, hvouches, hremovals] at hconsents
    refine ⟨fun v hv => ?_, fun rm hrm => ?_, ?_⟩
    · exact ((mem_keptVouches hkept.vouches).1 (hvouches.symm ▸ hv)).2
    · exact ((mem_keptRemovals hkept.removals).1 (hremovals.symm ▸ hrm)).2
    · have hunnamed : ((keptConsents (r.rank w) r.mentioned r.consents).filter fun c =>
          ¬ (ofLex (consentClass (r.rank w) r.mentioned c)).1 < 2).length ≤ maxUnnamedConsents :=
        unnamed_keptConsents
      simpa only [hcut, consentClass_named_iff] using hunnamed
  · rintro ⟨hvouches, hremovals, hunnamed⟩
    have hvouches := keptVouches_eq_self hkept.sorted.vouches hkept.vouches hvouches
    have hremovals := keptRemovals_eq_self hkept.sorted.removals hkept.removals hremovals
    rw [Roster.cut, hvouches, hremovals]
    refine Roster.ext rfl rfl rfl rfl ?_ rfl rfl rfl rfl
    refine keptConsents_eq_self hkept.sorted.consents hconsents ?_
    simpa only [consentClass_named_iff] using hunnamed

theorem mem_settled_baseRoots (h : device ∈ (r.settled w).recoveries.flatMap (·.keep) ∨
    device ∈ (r.settled w).phraseAdmits.map (·.device) ∨
    device ∈ (r.settled w).legacy.map (·.device)) : device ∈ (r.settled w).baseRoots w := by
  have hrecoveries : (r.settled w).recoveries = r.newest.recoveries := settled_recoveries
  have hadmits : ∀ p ∈ (r.settled w).phraseAdmits, ∀ c, r.newest.currentRecovery w = some c →
      c.at_ < p.atMs := fun p hp => (mem_inBase_phraseAdmits.1 (sortCap_subset hp)).2
  have hlegacy : ∀ l ∈ (r.settled w).legacy, r.newest.recoveries = [] := fun l hl =>
    (mem_inBase_legacy.1 (sortCap_subset hl)).2
  cases hnow : r.newest.currentRecovery w with
  | none =>
    have hnone := currentRecovery_eq_none.1 hnow
    rw [mem_baseRoots_of_legacy (hrecoveries.trans hnone)]
    rcases h with h | h | h
    · simp [hnone] at h
    · exact .inr (List.mem_map.1 h)
    · exact .inl (List.mem_map.1 h)
  | some c =>
    rw [mem_baseRoots_of_current (currentRecovery_settled_newest.trans hnow)]
    rcases h with h | h | h
    · obtain ⟨rec, hrec, hkeep⟩ := List.mem_flatMap.1 h
      exact .inl ⟨rec, compacted_newest hrec, hkeep⟩
    · obtain ⟨p, hp, hdevice⟩ := List.mem_map.1 h
      exact .inr ⟨p, hp, hadmits p hp c hnow, hdevice⟩
    · obtain ⟨l, hl, -⟩ := List.mem_map.1 h
      rw [currentRecovery_eq_none.2 (hlegacy l hl)] at hnow
      cases hnow

theorem mentioned_cut_iff (hseated : (r.settled w).seated w device)
    (hlasts : ¬ (r.settled w).lasts w device) : device ∈ (r.compacted w).mentioned ↔
      ∃ rm ∈ (r.settled w).firstRemovals w, rm.device = device := by
  have hstands := (seated_iff.1 hseated).1
  have hnotRoot : device ∉ (r.settled w).seeds w ∪ (r.settled w).joining := fun hroot =>
    hlasts (lasts_iff.2 ⟨hseated, .inl hroot⟩)
  rw [Finset.mem_union, not_or] at hnotRoot
  have hbase : device ∉ (r.settled w).baseRoots w := fun h =>
    hnotRoot.1 (Finset.mem_filter.2 ⟨h, stands_consented hstands⟩)
  have hroots := not_or.1 fun h => hbase (mem_settled_baseRoots h)
  have hpendings : device ∉ (r.settled w).pendings.map (·.device) := fun h =>
    hnotRoot.2 (Finset.mem_filter.2 ⟨List.mem_toFinset.2 h, stands_consented hstands⟩)
  have hvouches : device ∉ ((r.settled w).keptVouches w).map (·.device) := fun h => by
    obtain ⟨v, hv, rfl⟩ := List.mem_map.1 h
    exact hlasts (lasts_iff.2
      ⟨hseated, .inr (exists_best_first (mem_keptVouches_iff.1 hv) hstands)⟩)
  rw [compacted_eq_cut, Roster.mentioned, List.mem_toFinset]
  simp only [Roster.cut, List.mem_append, hroots.1, not_or.1 hroots.2, hpendings, hvouches,
    false_or, List.mem_map, mem_keptRemovals_iff]

/-- The consents a compacted roster does not name are within the cap just if those adrift are. -/
theorem unnamed_compacted_iff : ((r.compacted w).consents.filter fun c =>
    ¬ ((r.compacted w).stands w c.device ∨ c.device ∈ (r.compacted w).mentioned)).length ≤
      maxUnnamedConsents ↔ ((r.settled w).adrift w).card ≤ maxUnnamedConsents := by
  have hdevices : (r.settled w).consents.Pairwise (·.device < ·.device) := settled_devices_sorted
  have hstands : ∀ d, (r.compacted w).stands w d ↔ (r.settled w).lasts w d := fun d =>
    stands_cut_iff hdevices
  by_cases hfew : ((r.settled w).standers w).card < maxConsents
  · have hlasts : ∀ d, (r.settled w).lasts w d ↔ (r.settled w).stands w d := fun d =>
      ⟨fun h => (seated_iff.1 (lasts_iff.1 h).1).1, lasts_of_few hfew.le⟩
    refine iff_of_true ?_ ?_
    · have hunnamed : ((r.compacted w).consents.filter fun c => ¬ (ofLex (consentClass
          ((r.settled w).rank w) (r.compacted w).mentioned c)).1 < 2).length ≤ maxUnnamedConsents :=
        unnamed_keptConsents
      simpa only [hstands, hlasts, consentClass_named_iff] using hunnamed
    · exact (steady_of_few hfew.le).adrift
  · -- Every consent that stayed is that of a seated device.
    have hall : ∀ c ∈ (r.compacted w).consents, (r.settled w).stands w c.device := fun c hc => by
      by_contra hnot
      exact hfew (card_standers_lt hdevices hc hnot)
    have hnodup : (r.compacted w).consents.Nodup := compacted_sorted.consents.imp fun h => h.ne
    rw [← List.toFinset_card_of_nodup (hnodup.filter _)]
    have hcard : ((r.compacted w).consents.filter fun c => ¬ ((r.compacted w).stands w c.device ∨
        c.device ∈ (r.compacted w).mentioned)).toFinset.card = ((r.settled w).adrift w).card := by
      refine Finset.card_bij (fun c _ => c.device) ?_ ?_ ?_
      · intro c hc
        simp only [List.mem_toFinset, List.mem_filter, decide_eq_true_eq, not_or, hstands] at hc
        obtain ⟨hc, hlasts, hnamed⟩ := hc
        have hseated := (mem_keptConsents_of_stands hdevices (cut_within.consents hc)
          (hall c hc)).1 hc
        refine Finset.mem_filter.2
          ⟨mem_standers.2 (hall c hc), hseated, hlasts, fun rm hrm heq => ?_⟩
        exact hnamed ((mentioned_cut_iff hseated hlasts).2 ⟨rm, hrm, heq⟩)
      · intro c hc c' hc' hsame
        have hc := (List.mem_filter.1 (List.mem_toFinset.1 hc)).1
        have hc' := (List.mem_filter.1 (List.mem_toFinset.1 hc')).1
        exact consent_of_device hdevices (cut_within.consents hc) (cut_within.consents hc') hsame
      · intro d hd
        obtain ⟨hd, hseated, hlasts, hnamed⟩ := Finset.mem_filter.1 hd
        have hconsented := (mem_cut_consented hdevices (mem_standers.1 hd)).2 hseated
        obtain ⟨c, hc, rfl⟩ := List.mem_map.1 (List.mem_toFinset.1 hconsented)
        refine ⟨c, ?_, rfl⟩
        simp only [List.mem_toFinset, List.mem_filter, decide_eq_true_eq, not_or, hstands]
        refine ⟨hc, hlasts, fun hmentioned => ?_⟩
        obtain ⟨rm, hrm, heq⟩ := (mentioned_cut_iff hseated hlasts).1 hmentioned
        exact hnamed rm hrm heq
    rw [hcard]

theorem length_compacted_consents : (r.compacted w).consents.length ≤ maxConsents :=
  StableSort.sortBy_perm.length_eq.le.trans (List.length_take_le _ _)

theorem cut_compacted_iff : (r.compacted w).cut w = r.compacted w ↔ (r.settled w).Steady w := by
  have hstands : ∀ d, (r.compacted w).stands w d ↔ (r.settled w).lasts w d := fun d =>
    stands_cut_iff settled_devices_sorted
  have hvouches : ∀ v, v ∈ (r.compacted w).vouches ↔ v ∈ (r.settled w).firstVouches w := fun v =>
    mem_keptVouches_iff
  have hremovals : ∀ rm, rm ∈ (r.compacted w).removals ↔ rm ∈ (r.settled w).firstRemovals w :=
    fun rm => mem_keptRemovals_iff
  rw [cut_eq_self_iff kept_compacted length_compacted_consents, unnamed_compacted_iff]
  simp only [hstands, hvouches, hremovals]
  exact ⟨fun h => ⟨h.1, h.2.1, h.2.2⟩, fun h => ⟨h.vouches, h.removals, h.adrift⟩⟩

theorem compacted_compacted_eq : (r.compacted w).compacted w = (r.compacted w).cut w := by
  rw [compacted_eq_cut, settled_compacted]

/-- Compacted twice, any roster is steady. -/
theorem compacted_thrice :
    ((r.compacted w).compacted w).compacted w = (r.compacted w).compacted w := by
  refine compacted_compacted_eq.trans (cut_compacted_iff.2 (steady_of_few ?_))
  rw [settled_compacted]
  refine (Finset.card_le_card (Finset.filter_subset _ _)).trans ?_
  refine (List.toFinset_card_le _).trans ?_
  rw [List.length_map]
  exact length_compacted_consents

/-- Compaction changes nothing the second time exactly when all it keeps is signed by devices that
last and few consents are adrift. -/
theorem compacted_compacted_iff :
    (r.compacted w).compacted w = r.compacted w ↔ (r.settled w).Steady w := by
  rw [compacted_compacted_eq]
  exact cut_compacted_iff

theorem compacted_compacted_roots :
    (rootsSample.compacted sampleChecks).compacted sampleChecks =
      rootsSample.compacted sampleChecks :=
  compacted_compacted_iff.2 (by decide +kernel)

/-- The phrase keeps one device more than consents are kept, and the last in rank vouches for a
device yet to consent. -/
def crowdedSample : Roster where
  master := "m"
  rPub := "k"
  recoveries := [⟨1, (crowdNames maxConsents).take 60, false, "k", "m"⟩,
    ⟨1, "z" :: (crowdNames maxConsents).drop 60, false, "k", "m"⟩]
  consents := ("z" :: crowdNames maxConsents).map fun name => ⟨name, name⟩
  vouches := [⟨sampleChecks.digest "", "y", "z", "z"⟩]

theorem crowdedSample_fits : crowdedSample.Fits := by
  constructor <;> decide +kernel

theorem mem_crowdedSample_seeds (h : device ∈ "z" :: crowdNames maxConsents) :
    device ∈ crowdedSample.seeds sampleChecks := by
  have hnewest : ∀ rec ∈ crowdedSample.recoveries, crowdedSample.Newest rec := by
    have hat : ∀ rec ∈ crowdedSample.recoveries, rec.atMs = 1 := by simp [crowdedSample]
    exact fun rec hrec => ⟨hrec, fun rec' hrec' => ((hat rec' hrec').trans (hat rec hrec).symm).le⟩
  obtain ⟨c, hc⟩ := exists_currentRecovery (w := sampleChecks) (r := crowdedSample)
    (List.cons_ne_nil _ _)
  refine Finset.mem_filter.2 ⟨(mem_baseRoots_of_current hc).2 (.inl ?_), ?_⟩
  · have hkept : device ∈ (crowdNames maxConsents).take 60 ∨
        device ∈ "z" :: (crowdNames maxConsents).drop 60 := by
      rw [List.mem_cons, or_left_comm, ← List.mem_append, List.take_append_drop]
      exact List.mem_cons.1 h
    rcases hkept with hkept | hkept
    · exact ⟨_, hnewest _ List.mem_cons_self, hkept⟩
    · exact ⟨_, hnewest _ (List.mem_cons_of_mem _ List.mem_cons_self), hkept⟩
  · exact List.mem_toFinset.2
      (List.mem_map.2 ⟨⟨device, device⟩, List.mem_map.2 ⟨device, h, rfl⟩, rfl⟩)

theorem standing_of_seed (h : device ∈ r.seeds w) :
    r.standing w device = some (toLex (0, toLex (0, device))) :=
  standing_eq_some.2 (.inl ⟨0, rfl, .seed h, fun _ hm => absurd hm (Nat.not_lt_zero _)⟩)

theorem crowdNames_lt {n : Nat} {name : String} (h : name ∈ crowdNames n) : name < "z" := by
  obtain ⟨i, -, rfl⟩ := List.mem_map.1 h
  rw [String.lt_iff_toList_lt, String.toList_ofList, List.replicate_succ]
  exact List.Lex.rel (by decide)

theorem crowdedSample_standing (h : device ∈ "z" :: crowdNames maxConsents) :
    (crowdedSample.settled sampleChecks).standing sampleChecks device =
      some (toLex (0, toLex (0, device))) := by
  refine standing_of_seed ?_
  rw [settled_seeds crowdedSample_fits]
  exact mem_crowdedSample_seeds h

theorem crowdedSample_not_seated :
    ¬ (crowdedSample.settled sampleChecks).seated sampleChecks "z" := by
  intro hseated
  have hcard : (crowdNames maxConsents).toFinset.card = maxConsents := by
    rw [List.toFinset_card_of_nodup (crowdNames_nodup _)]
    simp [crowdNames]
  refine (seated_iff.1 hseated).2.not_ge (hcard.symm.le.trans (Finset.card_le_card fun d hd => ?_))
  have hd := List.mem_toFinset.1 hd
  have hmine := crowdedSample_standing (List.mem_cons_of_mem _ hd)
  have hlast := crowdedSample_standing List.mem_cons_self
  refine Finset.mem_filter.2 ⟨mem_standers.2 (by simp [Roster.stands, hmine]), ?_⟩
  rw [rank_eq_coe hmine, rank_eq_coe hlast, WithBot.coe_lt_coe]
  refine Prod.Lex.toLex_lt_toLex.2 (.inr ⟨rfl, Prod.Lex.toLex_lt_toLex.2 (.inr ⟨rfl, ?_⟩)⟩)
  exact crowdNames_lt hd

/-- The last of 97 roots loses its consent but not its vouch; a second pass drops the vouch. -/
theorem not_compacted_compacted : ¬ ∀ (w : Checks) (r : Roster),
    (r.compacted w).compacted w = r.compacted w := by
  intro h
  have hsteady := cut_compacted_iff.1
    (compacted_compacted_eq.symm.trans (h sampleChecks crowdedSample))
  have hbase : crowdedSample.base sampleChecks = sampleChecks.digest "" := by decide +kernel
  have hvouches : (crowdedSample.settled sampleChecks).vouches = crowdedSample.vouches := by
    rw [settled_vouches crowdedSample_fits.recoveries, hbase]
    simp [crowdedSample]
  have hsigned : ∀ v ∈ crowdedSample.vouches,
      v ∈ (crowdedSample.settled sampleChecks).signedVouches sampleChecks := by
    intro v hv
    refine mem_signedVouches.2 ⟨hvouches ▸ hv, ?_⟩
    obtain rfl := List.mem_singleton.1 hv
    rw [Roster.stands, crowdedSample_standing List.mem_cons_self]
    rfl
  have hfew : ((crowdedSample.settled sampleChecks).signedVouches sampleChecks).card ≤ 1 := by
    refine (List.toFinset_card_le _).trans ((List.length_filter_le _ _).trans ?_)
    rw [hvouches]
    rfl
  have hfirst := mem_firstVouches.2 ⟨hsigned _ List.mem_cons_self,
    ((Finset.card_le_card (Finset.filter_subset _ _)).trans hfew).trans_lt (by decide)⟩
  exact crowdedSample_not_seated (lasts_iff.1 (hsteady.vouches _ hfirst)).1

end Hollow.Identity
