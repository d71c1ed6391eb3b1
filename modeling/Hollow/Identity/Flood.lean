import Hollow.Identity.FloodRanks

/-! The law of floods: what ranks before a flood's signer stays, except that vouches beyond the best
one of each device give way to the flood's own tree. -/

namespace Hollow.Identity

open StableSort (sortBy)

namespace Roster

variable (w : Checks) (r : Roster) (x : String)

def before (signer : String) : Bool := r.stands w signer && decide (r.rank w signer < r.rank w x)

def earlyVouches : List Vouch := r.vouches.filter (r.before w x ·.voucher)

/-- The best vouch of each standing device, and the others, by rank. -/
def bestSplit : List Vouch × List Vouch := splitBest (r.stands w) [] (r.rankedVouches w)

/-- How many vouches signed before `x` are not the best one of a standing device. -/
def spareVouches : Nat :=
  (r.earlyVouches w x).length -
    (((r.earlyVouches w x).filter (r.stands w ·.device)).map (·.device)).toFinset.card

def vouchedFor : Finset String :=
  ((r.vouches.filter fun v => r.stands w v.voucher && r.stands w v.device).map (·.device)).toFinset

end Roster

/-- What compaction keeps of the signers before `x`, it keeps under the flood. -/
structure FloodLaw (w : Checks) (r : Roster) (x : String) (flood : Flood) : Prop where
  vouches : ∀ v ∈ (r.compacted w).vouches, r.before w x v.voucher →
    v ∈ ((r.flooded flood).compacted w).vouches
  removals : ∀ rm ∈ (r.compacted w).removals, r.before w x rm.remover →
    rm ∈ ((r.flooded flood).compacted w).removals

section SplitBest

variable {stands : String → Bool} {best : List String} {l l' : List Vouch}

theorem splitBest_append (stands : String → Bool) (best : List String) (l l' : List Vouch) :
    ∃ best', splitBest stands best (l ++ l') =
    ((splitBest stands best l).1 ++ (splitBest stands best' l').1,
      (splitBest stands best l).2 ++ (splitBest stands best' l').2) := by
  induction l generalizing best with
  | nil => exact ⟨best, by simp [splitBest]⟩
  | cons v l ih =>
    rw [List.cons_append, splitBest, splitBest]
    split_ifs
    · obtain ⟨best', hbest⟩ := ih (v.device :: best)
      exact ⟨best', by simp [hbest]⟩
    · obtain ⟨best', hbest⟩ := ih best
      exact ⟨best', by simp [hbest]⟩

theorem length_splitBest_fst : (splitBest stands best l).1.length =
    (((l.filter (stands ·.device)).map (·.device)).toFinset \ best.toFinset).card := by
  induction l generalizing best with
  | nil => simp [splitBest]
  | cons v l ih =>
    rw [splitBest]
    by_cases hstands : stands v.device
    · by_cases hbest : v.device ∈ best
      · simp [hstands, hbest, ih, Finset.insert_sdiff_of_mem]
      · have hsplit : ((((v :: l).filter (stands ·.device)).map (·.device)).toFinset \
            best.toFinset) = insert v.device
              ((((l.filter (stands ·.device)).map (·.device)).toFinset \
                (v.device :: best).toFinset)) := by
          ext device
          by_cases hdevice : device = v.device <;> simp [hstands, hbest, hdevice]
        rw [hsplit, Finset.card_insert_of_notMem (by simp)]
        simp [hstands, hbest, ih]
    · simp [hstands, ih]

end SplitBest

theorem subset_take_iff {α : Type} {a b c : List α} {n : Nat} (hnodup : (a ++ b ++ c).Nodup) :
    b ⊆ (a ++ b ++ c).take n ↔ b = [] ∨ a.length + b.length ≤ n := by
  constructor
  · intro hsub
    by_contra hnot
    obtain ⟨hne, hlt⟩ := not_or.1 hnot
    obtain ⟨init, last, rfl⟩ := (List.eq_nil_or_concat b).resolve_left hne
    have hlist : a ++ init.concat last ++ c = (a ++ init) ++ (last :: c) := by simp
    have hlength : n ≤ (a ++ init).length := by
      simp only [List.concat_eq_append, List.length_append, List.length_singleton] at hlt ⊢
      omega
    have hlast := hsub (show last ∈ init.concat last by simp)
    rw [hlist, List.take_append_of_le_length hlength] at hlast
    rw [hlist, List.nodup_append] at hnodup
    exact hnodup.2.2 _ (List.mem_of_mem_take hlast) _ List.mem_cons_self rfl
  · rintro (rfl | hle)
    · exact List.nil_subset _
    · intro v hv
      rw [List.take_append, List.take_of_length_le (by simpa using hle)]
      exact List.mem_append_left _ (List.mem_append_right _ hv)

variable {w : Checks} {r : Roster} {x : String} {flood : Flood} {device : String}

theorem standing_congr {r' : Roster} (hseeds : r.seeds w = r'.seeds w)
    (hjoining : r.joining = r'.joining) (hadmitting : ∀ v, v ∈ r.admitting ↔ v ∈ r'.admitting) :
    r.standing w device = r'.standing w device := by
  have hwalk : ∀ (seeds : Finset String) (d : String) (n : Nat),
      Reach.Walk Vouch.voucher Vouch.device r.admitting seeds n d ↔
        Reach.Walk Vouch.voucher Vouch.device r'.admitting seeds n d := fun seeds d n =>
    ⟨fun h => h.mono (fun v hv => (hadmitting v).1 hv) (Finset.Subset.refl _),
      fun h => h.mono (fun v hv => (hadmitting v).2 hv) (Finset.Subset.refl _)⟩
  refine Option.ext fun rank => ?_
  rw [standing_eq_some, standing_eq_some]
  simp only [Roster.Founded, Reach.Reaches, Reach.depth_iff, hwalk, hseeds, hjoining]

section Kept

variable (hkept : r.Kept w)
include hkept

theorem Roster.Kept.vouch_base {v : Vouch} (h : v ∈ r.vouches) : v.base = r.base w := by
  rw [← hkept.settled] at h
  exact ((mem_settled_vouches hkept.fits).1 h).2

theorem Roster.Kept.removal_base {rm : Removal} (h : rm ∈ r.removals) : rm.base = r.base w := by
  rw [← hkept.settled] at h
  exact ((mem_settled_removals hkept.fits).1 h).2

theorem Roster.Kept.pending_base {p : Pending} (h : p ∈ r.pendings) : p.base = r.base w := by
  rw [← hkept.settled] at h
  exact ((mem_settled_pendings hkept.fits).1 h).2

theorem fits_flooded : (r.flooded flood).Fits :=
  ⟨hkept.fits.recoveries, hkept.fits.phraseAdmits, hkept.fits.legacy, hkept.fits.pendings⟩

theorem mem_flooded_vouches {v : Vouch} : v ∈ ((r.flooded flood).settled w).vouches ↔
    v ∈ (r.flooded (flood.inBase (r.base w))).vouches := by
  have hbase : (r.flooded flood).base w = r.base w := rfl
  rw [mem_settled_vouches (fits_flooded hkept), hbase]
  simp only [Roster.flooded, Flood.inBase, mem_pushUnique, List.mem_filter, decide_eq_true_eq]
  have hbase : v ∈ r.vouches → v.base = r.base w := hkept.vouch_base
  tauto

theorem mem_flooded_removals {rm : Removal} : rm ∈ ((r.flooded flood).settled w).removals ↔
    rm ∈ (r.flooded (flood.inBase (r.base w))).removals := by
  have hbase : (r.flooded flood).base w = r.base w := rfl
  rw [mem_settled_removals (fits_flooded hkept), hbase]
  simp only [Roster.flooded, Flood.inBase, mem_pushUnique, List.mem_filter, decide_eq_true_eq]
  have hbase : rm ∈ r.removals → rm.base = r.base w := hkept.removal_base
  tauto

theorem standing_settled_flooded : ((r.flooded flood).settled w).standing w device =
    (r.flooded (flood.inBase (r.base w))).standing w device := by
  have hfits : (r.flooded flood).Fits := fits_flooded hkept
  have hconsented : ((r.flooded flood).settled w).consented =
      (r.flooded (flood.inBase (r.base w))).consented := settled_consented
  refine standing_congr (settled_seeds hfits) ?_ fun v => ?_
  · ext d
    rw [mem_settled_joining hfits, Roster.joining, Finset.mem_filter, ← hconsented,
      settled_consented, List.mem_toFinset, List.mem_map]
    refine and_congr_left fun _ => exists_congr fun p => ?_
    constructor
    · rintro ⟨hp, -, hdevice⟩
      exact ⟨hp, hdevice⟩
    · rintro ⟨hp, hdevice⟩
      exact ⟨hp, hkept.pending_base hp, hdevice⟩
  · rw [Roster.admitting, Roster.admitting, List.mem_filter, List.mem_filter, hconsented,
      mem_flooded_vouches hkept]

theorem aside_inBase : r.aside x (flood.inBase (r.base w)) = r.aside x flood := by
  rw [Roster.aside, Roster.aside]
  have hvouches : (r.vouches.filter fun v =>
      v.voucher ≠ x && !(flood.inBase (r.base w)).vouches.contains v) =
      r.vouches.filter fun v => v.voucher ≠ x && !flood.vouches.contains v := by
    refine List.filter_congr fun v hv => ?_
    simp [Flood.inBase, hkept.vouch_base hv]
  rw [hvouches]
  rfl

theorem Flood.From.inBase (hfrom : flood.From w r x) : (flood.inBase (r.base w)).From w r x where
  consents := by
    rw [aside_inBase hkept]
    exact hfrom.consents
  vouches := by
    rw [aside_inBase hkept]
    exact fun v hv => hfrom.vouches v (List.mem_filter.1 hv).1
  removals := by
    rw [aside_inBase hkept]
    exact fun rm hrm => hfrom.removals rm (List.mem_filter.1 hrm).1

end Kept

theorem rank_eq_coe {rank : Rank} (h : r.standing w device = some rank) :
    r.rank w device = ((rank : Rank) : WithBot Rank) := h

theorem before_iff {rankX : Rank} (hx : r.standing w x = some rankX) {signer : String} :
    r.before w x signer ↔ ∃ rank < rankX, r.standing w signer = some rank := by
  rw [Roster.before, Bool.and_eq_true, decide_eq_true_eq, rank_eq_coe hx]
  cases hsigner : r.standing w signer with
  | none => simp [Roster.stands, hsigner]
  | some rank =>
    rw [rank_eq_coe hsigner, WithBot.coe_lt_coe]
    simp [Roster.stands, hsigner]

section Early

variable {rankX : Rank} (hkept : r.Kept w) (hfrom : flood.From w r x)
  (hx : r.standing w x = some rankX)
include hkept hfrom hx

variable {signer : String}

theorem before_iff_settled : r.before w x signer ↔
    ∃ rank < rankX, ((r.flooded flood).settled w).standing w signer = some rank := by
  rw [before_iff hx]
  refine exists_congr fun rank => and_congr_right fun hlt => ?_
  rw [standing_settled_flooded hkept, standing_before (hfrom.inBase hkept) hx hlt]

theorem aside_of_before (h : r.before w x signer) :
    (r.aside x flood).stands w signer ∧ signer ≠ x := by
  obtain ⟨rank, hlt, hstanding⟩ := (before_iff_settled hkept hfrom hx).1 h
  rw [standing_settled_flooded hkept] at hstanding
  rw [← aside_inBase hkept]
  exact aside_before (hfrom.inBase hkept) hx hstanding hlt

theorem stands_of_before (h : r.before w x signer) :
    ((r.flooded flood).settled w).stands w signer := by
  obtain ⟨rank, -, hstanding⟩ := (before_iff_settled hkept hfrom hx).1 h
  simp [Roster.stands, hstanding]

theorem rank_lt_of_before {other : String} (h : r.before w x signer)
    (hstands : ((r.flooded flood).settled w).stands w other) (hnot : ¬ r.before w x other) :
    ((r.flooded flood).settled w).rank w signer < ((r.flooded flood).settled w).rank w other := by
  obtain ⟨rank, hlt, hstanding⟩ := (before_iff_settled hkept hfrom hx).1 h
  obtain ⟨rank', hstanding'⟩ := Option.isSome_iff_exists.1 hstands
  have hge : ¬ rank' < rankX := fun hlt' =>
    hnot ((before_iff_settled hkept hfrom hx).2 ⟨rank', hlt', hstanding'⟩)
  rw [rank_eq_coe hstanding, rank_eq_coe hstanding']
  exact WithBot.coe_lt_coe.2 (hlt.trans_le (not_lt.1 hge))

theorem earlyVouches_perm : (((r.flooded flood).settled w).rankedVouches w
    |>.filter (r.before w x ·.voucher)).Perm (r.earlyVouches w x) := by
  have hnodup : r.vouches.Nodup := hkept.sorted.vouches.imp fun h => h.ne
  refine (List.perm_ext_iff_of_nodup (rankedVouches_nodup.filter _) (hnodup.filter _)).2 fun v => ?_
  rw [List.mem_filter, List.mem_filter, mem_rankedVouches, mem_flooded_vouches hkept]
  refine and_congr_left fun hbefore => ⟨fun ⟨hv, _⟩ => ?_, fun hv =>
    ⟨mem_pushUnique.2 (.inl hv), stands_of_before hkept hfrom hx hbefore⟩⟩
  obtain ⟨haside, hne⟩ := aside_of_before hkept hfrom hx hbefore
  refine (mem_pushUnique.1 hv).resolve_right fun hnew => ?_
  exact (hfrom.vouches v (List.mem_filter.1 hnew).1).elim hne fun hnot => hnot haside

theorem earlyRemovals_perm : (((r.flooded flood).settled w).rankedRemovals w
    |>.filter (r.before w x ·.remover)).Perm (r.removals.filter (r.before w x ·.remover)) := by
  have hnodup : r.removals.Nodup := hkept.sorted.removals.imp fun h => h.ne
  refine (List.perm_ext_iff_of_nodup (rankedRemovals_nodup.filter _) (hnodup.filter _)).2
    fun rm => ?_
  rw [List.mem_filter, List.mem_filter, mem_rankedRemovals, mem_flooded_removals hkept]
  refine and_congr_left fun hbefore => ⟨fun ⟨hrm, _⟩ => ?_, fun hrm =>
    ⟨mem_pushUnique.2 (.inl hrm), stands_of_before hkept hfrom hx hbefore⟩⟩
  obtain ⟨haside, hne⟩ := aside_of_before hkept hfrom hx hbefore
  refine (mem_pushUnique.1 hrm).resolve_right fun hnew => ?_
  exact (hfrom.removals rm (List.mem_filter.1 hnew).1).elim hne fun hnot => hnot haside

/-- A flood of `x` does not change which of the devices vouched for before `x` stand. -/
theorem stands_early {v : Vouch} (hv : v ∈ r.earlyVouches w x) :
    ((r.flooded flood).settled w).stands w v.device = r.stands w v.device := by
  obtain ⟨hv, hbefore⟩ := List.mem_filter.1 hv
  obtain ⟨haside, hne⟩ := aside_of_before hkept hfrom hx hbefore
  have hvoucher : r.stands w v.voucher := by
    obtain ⟨rank, -, hrank⟩ := (before_iff hx).1 hbefore
    simp [Roster.stands, hrank]
  have hstands : r.stands w x := by simp [Roster.stands, hx]
  refine Bool.eq_iff_iff.2 ⟨fun h => ?_, fun h => ?_⟩
  · have hdevice : v.device ∈ (r.aside x flood).consented := by
      have hsettled := stands_consented h
      rwa [settled_consented] at hsettled
    refine stands_step (mem_admitting_of_aside hfrom hstands ?_ haside) hvoucher
    have hnew : v ∉ flood.vouches := fun hmem =>
      (hfrom.vouches v hmem).elim hne fun hnot => hnot haside
    exact List.mem_filter.2 ⟨List.mem_filter.2 ⟨hv, by simp [hne, hnew]⟩, by simpa using hdevice⟩
  · refine stands_step ?_ (stands_of_before hkept hfrom hx hbefore)
    rw [mem_settled_admitting (fits_flooded hkept)]
    refine ⟨mem_pushUnique.2 (.inl hv), hkept.vouch_base hv, ?_⟩
    rw [consented_flooded]
    exact Finset.mem_union_left _ (stands_consented h)

/-- The best vouches under a flood and the others, of those signed before `x`. -/
def Roster.earlySplit (w : Checks) (r : Roster) (x : String) (flood : Flood) :
    List Vouch × List Vouch :=
  splitBest (((r.flooded flood).settled w).stands w) []
    ((((r.flooded flood).settled w).rankedVouches w).filter (r.before w x ·.voucher))

omit hkept hfrom hx in
theorem bestSplit_perm : ((r.bestSplit w).1 ++ (r.bestSplit w).2).Perm (r.rankedVouches w) :=
  splitBest_perm

theorem earlySplit_perm : ((r.earlySplit w x flood).1 ++ (r.earlySplit w x flood).2).Perm
    (r.earlyVouches w x) :=
  splitBest_perm.trans (earlyVouches_perm hkept hfrom hx)

theorem bestSplit_flooded : ∃ treeLate restLate, ((r.flooded flood).settled w).bestSplit w =
    ((r.earlySplit w x flood).1 ++ treeLate, (r.earlySplit w x flood).2 ++ restLate) := by
  have hordered := StableSort.filter_append_filter_not
    (p := fun v : Vouch => r.before w x v.voucher)
    (l := ((r.flooded flood).settled w).rankedVouches w) StableSort.sorted_sortBy
    fun v hv v' hv' hbefore hnot => Prod.Lex.toLex_lt_toLex.2
      (.inl (rank_lt_of_before hkept hfrom hx hbefore (mem_rankedVouches.1 hv').2 hnot))
  obtain ⟨best, hbest⟩ := splitBest_append (((r.flooded flood).settled w).stands w) []
    ((((r.flooded flood).settled w).rankedVouches w).filter (r.before w x ·.voucher))
    ((((r.flooded flood).settled w).rankedVouches w).filter fun v => ¬ r.before w x v.voucher)
  rw [hordered] at hbest
  exact ⟨_, _, hbest⟩

theorem length_earlySplit_fst : (r.earlySplit w x flood).1.length =
    (((r.earlyVouches w x).filter (r.stands w ·.device)).map (·.device)).toFinset.card := by
  have hperm := earlyVouches_perm hkept hfrom hx
  rw [Roster.earlySplit, length_splitBest_fst, List.toFinset_nil, Finset.sdiff_empty]
  congr 1
  ext device
  simp only [List.mem_toFinset, List.mem_map, List.mem_filter]
  constructor
  · rintro ⟨v, ⟨hv, hstands⟩, rfl⟩
    have hearly := hperm.subset (List.mem_filter.2 hv)
    exact ⟨v, ⟨hearly, stands_early hkept hfrom hx hearly ▸ hstands⟩, rfl⟩
  · rintro ⟨v, ⟨hv, hstands⟩, rfl⟩
    exact ⟨v, ⟨List.mem_filter.1 (hperm.symm.subset hv),
      (stands_early hkept hfrom hx hv).symm ▸ hstands⟩, rfl⟩

theorem length_earlySplit_snd : (r.earlySplit w x flood).2.length = r.spareVouches w x := by
  have hsum := (earlySplit_perm hkept hfrom hx).length_eq
  rw [List.length_append, length_earlySplit_fst hkept hfrom hx] at hsum
  rw [Roster.spareVouches]
  omega

omit hfrom hx in
theorem length_bestSplit_fst : (((r.flooded flood).settled w).bestSplit w).1.length =
    ((r.flooded (flood.inBase (r.base w))).vouchedFor w).card := by
  have hstands : ∀ d, ((r.flooded flood).settled w).stands w d =
      (r.flooded (flood.inBase (r.base w))).stands w d := fun d => by
    rw [Roster.stands, Roster.stands, standing_settled_flooded hkept]
  rw [Roster.bestSplit, length_splitBest_fst, List.toFinset_nil, Finset.sdiff_empty,
    Roster.vouchedFor]
  congr 1
  ext device
  simp only [List.mem_toFinset, List.mem_map, List.mem_filter, mem_rankedVouches,
    mem_flooded_vouches hkept, hstands, Bool.and_eq_true, and_assoc]

/-- The vouches signed before `x` all stay just when the best ones and the spare ones fit. -/
theorem vouches_kept_iff : (∀ v ∈ r.earlyVouches w x, v ∈ ((r.flooded flood).compacted w).vouches) ↔
    r.spareVouches w x = 0 ∨ ((r.flooded (flood.inBase (r.base w))).vouchedFor w).card +
      r.spareVouches w x ≤ maxVouches := by
  obtain ⟨treeLate, restLate, hsplit⟩ := bestSplit_flooded hkept hfrom hx
  have hearly := earlySplit_perm hkept hfrom hx
  have htree : (((r.flooded flood).settled w).bestSplit w).1.length = _ :=
    length_bestSplit_fst hkept
  have hkeeps : ∀ v, v ∈ ((r.flooded flood).compacted w).vouches ↔
      v ∈ ((r.earlySplit w x flood).1 ++ treeLate ++ (r.earlySplit w x flood).2 ++
        restLate).take maxVouches := fun v => by
    rw [List.append_assoc _ _ restLate]
    change v ∈ sortBy id (((((r.flooded flood).settled w).bestSplit w).1 ++
      (((r.flooded flood).settled w).bestSplit w).2).take maxVouches) ↔ _
    rw [hsplit, StableSort.mem_sortBy]
  have hnodup : ((r.earlySplit w x flood).1 ++ treeLate ++ (r.earlySplit w x flood).2 ++
      restLate).Nodup := by
    have hranked := bestSplit_perm.nodup_iff.2 (rankedVouches_nodup (w := w)
      (r := (r.flooded flood).settled w))
    rwa [hsplit, ← List.append_assoc] at hranked
  rw [hsplit] at htree
  dsimp only at htree
  rw [← htree, ← length_earlySplit_snd hkept hfrom hx, List.length_eq_zero_iff,
    ← subset_take_iff hnodup]
  constructor
  · intro hall v hv
    exact (hkeeps v).1 (hall v (hearly.subset (List.mem_append_right _ hv)))
  · intro hrest v hv
    refine (hkeeps v).2 ((List.mem_append.1 (hearly.symm.subset hv)).elim (fun hv => ?_)
      fun hv => hrest hv)
    -- A best vouch signed before `x` is among the first, of which the roster had few enough.
    have hlength : (r.earlySplit w x flood).1.length ≤ maxVouches := by
      have hsum := hearly.length_eq
      have hfew := (List.length_filter_le (r.before w x ·.voucher) r.vouches).trans hkept.vouches
      rw [List.length_append, Roster.earlyVouches] at hsum
      omega
    rw [List.append_assoc, List.append_assoc, List.take_append, List.take_of_length_le hlength]
    exact List.mem_append_left _ hv

/-- A removal signed before `x` stays. -/
theorem removals_kept {rm : Removal} (hrm : rm ∈ r.removals) (hbefore : r.before w x rm.remover) :
    rm ∈ ((r.flooded flood).compacted w).removals := by
  have hearly := earlyRemovals_perm hkept hfrom hx
  have hlength := (List.length_filter_le (r.before w x ·.remover) r.removals).trans hkept.removals
  change rm ∈ sortBy id ((((r.flooded flood).settled w).rankedRemovals w).take maxRemovals)
  refine StableSort.mem_sortBy.2 (StableSort.mem_take_of_filter
    (p := fun rm : Removal => r.before w x rm.remover) StableSort.sorted_sortBy
    (fun rm hrm rm' hrm' hbefore hnot => Prod.Lex.toLex_lt_toLex.2
      (.inl (rank_lt_of_before hkept hfrom hx hbefore (mem_rankedRemovals.1 hrm').2 hnot))) ?_)
  rw [List.take_of_length_le (hearly.length_eq.le.trans hlength)]
  exact hearly.symm.subset (List.mem_filter.2 ⟨hrm, hbefore⟩)

/-- The law is a matter of room: behind the best vouches, the spare ones before `x` must fit. -/
theorem floodLaw_iff_of_kept : FloodLaw w r x flood ↔ r.spareVouches w x = 0 ∨
    ((r.flooded (flood.inBase (r.base w))).vouchedFor w).card + r.spareVouches w x ≤
      maxVouches := by
  rw [← vouches_kept_iff hkept hfrom hx]
  have hvouches : ∀ v, v ∈ (r.compacted w).vouches ∧ r.before w x v.voucher ↔
      v ∈ r.earlyVouches w x := fun v => by
    change v ∈ (r.settled w).keptVouches w ∧ _ ↔ _
    rw [hkept.settled, mem_keptVouches hkept.vouches, Roster.earlyVouches, List.mem_filter]
    refine and_congr_left fun hbefore => and_iff_left ?_
    exact (Bool.and_eq_true _ _ ▸ hbefore).1
  constructor
  · intro h v hv
    obtain ⟨hv, hbefore⟩ := (hvouches v).2 hv
    exact h.vouches v hv hbefore
  · intro h
    refine ⟨fun v hv hbefore => h v ((hvouches v).1 ⟨hv, hbefore⟩), fun rm hrm hbefore => ?_⟩
    have hrm : rm ∈ r.removals := compacted_within.removals hrm
    exact removals_kept hkept hfrom hx hrm hbefore

end Early

/-- What a flood pushes out of the signers before its own: where the best vouches and the spare
ones signed before do not fit the ceiling, one of the spare vouches. -/
theorem flood_law_iff (hverified : r.Verified w) (hstands : r.stands w x)
    (hfrom : flood.From w r x) : FloodLaw w r x flood ↔ r.spareVouches w x = 0 ∨
      ((r.flooded (flood.inBase (r.base w))).vouchedFor w).card + r.spareVouches w x ≤
        maxVouches := by
  obtain ⟨rankX, hx⟩ := Option.isSome_iff_exists.1 hstands
  exact floodLaw_iff_of_kept hverified.kept hfrom hx

/-- Two roots vouch for one device; a third has vouched for none yet. -/
def rootsSample : Roster where
  master := "m"
  rPub := "k"
  recoveries := [⟨1, ["a", "b", "x"], false, "k", "m"⟩]
  consents := [⟨"a", "a"⟩, ⟨"b", "b"⟩, ⟨"d", "d"⟩, ⟨"x", "x"⟩]
  vouches := [⟨sampleChecks.digest "", "d", "a", "a"⟩, ⟨sampleChecks.digest "", "d", "b", "b"⟩]

def crowdSample (names : List String) : Flood where
  consents := names.map fun name => ⟨name, name⟩
  vouches := names.map fun name => ⟨sampleChecks.digest "", name, "x", "x"⟩

theorem rootsSample_verified : rootsSample.Verified sampleChecks :=
  ⟨rootsSample, none, by decide +kernel⟩

variable {names : List String}

theorem rootsSample_aside
    (h : (rootsSample.aside "x" (crowdSample names)).stands sampleChecks device) :
    device ∈ ["a", "b", "d", "x"] := by
  have hseeds : ∀ d ∈ rootsSample.baseRoots sampleChecks, d ∈ ["a", "b", "d", "x"] := by
    decide +kernel
  have hvouches : ∀ v ∈ rootsSample.vouches, v.device ∈ ["a", "b", "d", "x"] := by decide
  have hstep : ∀ v ∈ (rootsSample.aside "x" (crowdSample names)).admitting,
      v.device ∈ ["a", "b", "d", "x"] := fun v hv =>
    hvouches v (List.mem_filter.1 (List.mem_filter.1 hv).1).1
  refine stands_induct h (fun d hd => ?_) hstep
  rcases Finset.mem_union.1 hd with hd | hd
  · exact hseeds d (Finset.mem_filter.1 hd).1
  · exact absurd (Finset.mem_filter.1 hd).1 (by simp [Roster.aside, rootsSample])

theorem crowdSample_from (h : ∀ name ∈ names, name ∉ ["a", "b", "d", "x"]) :
    (crowdSample names).From sampleChecks rootsSample "x" where
  consents := by
    intro c hc
    obtain ⟨name, hname, rfl⟩ := List.mem_map.1 hc
    exact .inr fun hstands => h name hname (rootsSample_aside hstands)
  vouches := by
    intro v hv
    obtain ⟨name, hname, rfl⟩ := List.mem_map.1 hv
    exact .inl rfl
  removals := by simp [crowdSample]

theorem flood_law_iff_one : FloodLaw sampleChecks rootsSample "x" (crowdSample ["y"]) :=
  (flood_law_iff rootsSample_verified (by decide +kernel) (crowdSample_from (by decide))).2
    (by decide +kernel)

def crowdNames (n : Nat) : List String :=
  (List.range n).map fun i => String.ofList (List.replicate (i + 2) 'q')

theorem crowdNames_nodup (n : Nat) : (crowdNames n).Nodup := by
  refine List.Nodup.map (fun i j hij => ?_) List.nodup_range
  have hlength := congrArg String.length hij
  simpa using hlength

theorem length_of_mem_crowdNames {n : Nat} {name : String} (h : name ∈ crowdNames n) :
    2 ≤ name.length := by
  obtain ⟨i, -, rfl⟩ := List.mem_map.1 h
  simp

abbrev crowded (names : List String) : Roster :=
  rootsSample.flooded ((crowdSample names).inBase (rootsSample.base sampleChecks))

theorem card_vouchedFor_crowd (hnodup : names.Nodup) :
    names.length ≤ ((crowded names).vouchedFor sampleChecks).card := by
  have hbase : rootsSample.base sampleChecks = sampleChecks.digest "" := by decide +kernel
  rw [← List.toFinset_card_of_nodup hnodup]
  refine Finset.card_le_card fun name hname => ?_
  rw [List.mem_toFinset] at hname
  have hvouch : (⟨sampleChecks.digest "", name, "x", "x"⟩ : Vouch) ∈ (crowded names).vouches := by
    simp [Roster.flooded, Flood.inBase, crowdSample, hbase, hname]
  have hconsented : ∀ d ∈ "x" :: names, d ∈ (crowded names).consented := fun d hd => by
    rw [consented_flooded]
    rcases List.mem_cons.1 hd with rfl | hd
    · exact Finset.mem_union_left _ (by decide)
    · exact Finset.mem_union_right _ (by simpa [Flood.inBase, crowdSample] using hd)
  have hx : (crowded names).stands sampleChecks "x" := by
    have hroot : "x" ∈ rootsSample.baseRoots sampleChecks := by decide +kernel
    refine stands_iff.2 (.inl (Reach.reaches_seed (Finset.mem_filter.2 ⟨hroot, ?_⟩)))
    exact hconsented "x" List.mem_cons_self
  have hadmitting : (⟨sampleChecks.digest "", name, "x", "x"⟩ : Vouch) ∈
      (crowded names).admitting :=
    List.mem_filter.2
      ⟨hvouch, decide_eq_true (hconsented name (List.mem_cons_of_mem _ hname))⟩
  rw [Roster.vouchedFor, List.mem_toFinset, List.mem_map]
  refine ⟨_, List.mem_filter.2 ⟨hvouch, ?_⟩, rfl⟩
  rw [Bool.and_eq_true]
  exact ⟨hx, stands_step hadmitting hx⟩

/-- A crowd as large as the cap pushes out a second vouch signed nearer the phrase. -/
theorem not_flood_law_crowd : ¬ ∀ (w : Checks) (r : Roster) (x : String) (flood : Flood),
    r.Verified w → r.stands w x → flood.From w r x →
    (∀ c ∈ flood.consents, consentVerifies w r.master c) →
    (∀ v ∈ flood.vouches, vouchVerifies w r.master v) →
    (∀ rm ∈ flood.removals, removalVerifies w r.master rm) → FloodLaw w r x flood := by
  intro h
  have hnames : ∀ name ∈ crowdNames maxVouches, name ≠ "" ∧ name ∉ ["a", "b", "d", "x"] := by
    intro name hname
    have hlength := length_of_mem_crowdNames hname
    constructor
    · rintro rfl
      simp at hlength
    · intro hmem
      have hone : ∀ d ∈ ["a", "b", "d", "x"], d.length = 1 := by decide
      have := hone name hmem
      omega
  have hfrom := crowdSample_from fun name hname => (hnames name hname).2
  have hstands : rootsSample.stands sampleChecks "x" := by decide +kernel
  obtain ⟨rankX, hx⟩ := Option.isSome_iff_exists.1 hstands
  have hlaw := h sampleChecks rootsSample "x" (crowdSample (crowdNames maxVouches))
    rootsSample_verified hstands hfrom ?_ ?_ ?_
  · rw [floodLaw_iff_of_kept rootsSample_verified.kept hfrom hx] at hlaw
    have hspare : rootsSample.spareVouches sampleChecks "x" = 1 := by decide +kernel
    have hcrowd := card_vouchedFor_crowd (crowdNames_nodup maxVouches)
    have hlength : (crowdNames maxVouches).length = maxVouches := by simp [crowdNames]
    dsimp only [crowded] at hcrowd
    omega
  · intro c hc
    obtain ⟨name, hname, rfl⟩ := List.mem_map.1 hc
    simp [consentVerifies, sampleChecks, (hnames name hname).1]
  · intro v hv
    obtain ⟨name, hname, rfl⟩ := List.mem_map.1 hv
    have hbase : isBaseShape (sampleChecks.digest "") := by decide +kernel
    have hne : name ≠ "x" := fun heq => (hnames name hname).2 (by simp [heq])
    rw [vouchVerifies, hbase]
    simp [sampleChecks, (hnames name hname).1, hne]
  · simp [crowdSample]

end Hollow.Identity
