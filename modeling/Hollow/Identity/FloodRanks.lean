import Hollow.Identity.Union

/-! A flood: statements added to a roster, signed by one device or by devices that stand through it
or through the flood alone. It moves no device that ranks before that one. -/

namespace Hollow.Identity

structure Flood where
  consents : List Consent := []
  vouches : List Vouch := []
  removals : List Removal := []

def Flood.inBase (base : String) (flood : Flood) : Flood :=
  { flood with
    vouches := flood.vouches.filter (·.base = base)
    removals := flood.removals.filter (·.base = base) }

def Roster.flooded (r : Roster) (flood : Flood) : Roster :=
  { r with
    consents := pushUnique r.consents flood.consents
    vouches := pushUnique r.vouches flood.vouches
    removals := pushUnique r.removals flood.removals }

/-- The roster with the consents of a flood and without its vouches and those of `x`. -/
def Roster.aside (r : Roster) (x : String) (flood : Flood) : Roster :=
  { r with
    consents := pushUnique r.consents flood.consents
    vouches := r.vouches.filter fun v => v.voucher ≠ x && !flood.vouches.contains v }

/-- A flood signed by `x` and by devices that stand only through it or through vouches of `x`. -/
structure Flood.From (w : Checks) (r : Roster) (x : String) (flood : Flood) : Prop where
  consents : ∀ c ∈ flood.consents, c.device = x ∨ ¬ (r.aside x flood).stands w c.device
  vouches : ∀ v ∈ flood.vouches, v.voucher = x ∨ ¬ (r.aside x flood).stands w v.voucher
  removals : ∀ rm ∈ flood.removals, rm.remover = x ∨ ¬ (r.aside x flood).stands w rm.remover

variable {w : Checks} {r : Roster} {x : String} {flood : Flood} {device : String}

theorem currentRecovery_compacted :
    (r.compacted w).currentRecovery w = r.newest.currentRecovery w :=
  currentRecovery_settled_newest

theorem base_of_mem_settled_vouches {v : Vouch} (h : v ∈ (r.settled w).vouches) :
    v.base = r.newest.base w := by
  rw [show (r.settled w).vouches = _ from inBase_vouches, List.mem_filter] at h
  exact of_decide_eq_true h.2

theorem base_of_mem_settled_removals {rm : Removal} (h : rm ∈ (r.settled w).removals) :
    rm.base = r.newest.base w := by
  rw [show (r.settled w).removals = _ from inBase_removals, List.mem_filter] at h
  exact of_decide_eq_true h.2

/-- Settling a compacted roster again drops nothing. -/
theorem compacted_within_settled :
    (r.compacted w).Within ((r.compacted w).settled w) := by
  have hfits : (r.compacted w).Fits := compacted_fits
  have hbase : (r.compacted w).base w = r.newest.base w := base_congr currentRecovery_compacted
  exact {
    recoveries := fun rec hrec => by
      rw [settled_recoveries, mem_newest_recoveries hfits.recoveries]
      exact compacted_newest hrec
    phraseAdmits := fun p hp => by
      refine (mem_settled_phraseAdmits hfits).2 ⟨hp, ?_⟩
      rw [currentRecovery_compacted]
      exact (mem_inBase_phraseAdmits.1 (sortCap_subset hp)).2
    consents := fun c hc => by
      have hsettled := StableSort.mem_sortBy.1
        (retainNamed_sublist.subset (List.mem_of_mem_take (StableSort.mem_sortBy.1 hc)))
      refine mem_settled_consents.2 ⟨hc, fun c' hc' hsame => ?_⟩
      exact (mem_settled_consents.1 hsettled).2 c' (compacted_within.consents hc') hsame
    vouches := fun v hv => (mem_settled_vouches hfits).2
      ⟨hv, (base_of_mem_settled_vouches (keptVouches_subset hv)).trans hbase.symm⟩
    pendings := fun p hp => by
      have hsettled := sortCap_subset hp
      rw [inBase_pendings] at hsettled
      refine (mem_settled_pendings hfits).2 ⟨hp, ?_⟩
      simpa [hbase] using (List.mem_filter.1 hsettled).2
    legacy := fun l hl => by
      refine (mem_settled_legacy hfits).2 ⟨hl, ?_⟩
      rw [compacted_recoveries]
      exact (mem_inBase_legacy.1 (sortCap_subset hl)).2
    removals := fun rm hrm => (mem_settled_removals hfits).2
      ⟨hrm, (base_of_mem_settled_removals (keptRemovals_subset hrm)).trans hbase.symm⟩ }

/-- Settling what compaction left changes nothing. -/
theorem settled_compacted : (r.compacted w).settled w = r.compacted w :=
  (settled_sorted compacted_sorted.vouches compacted_sorted.removals).ext compacted_sorted
    settled_master settled_rPub settled_within compacted_within_settled

/-- A roster in the form compaction leaves it in before it ranks the signers. -/
structure Roster.Kept (w : Checks) (r : Roster) : Prop where
  settled : r.settled w = r
  fits : r.Fits
  sorted : r.Sorted
  vouches : r.vouches.length ≤ maxVouches
  removals : r.removals.length ≤ maxRemovals

theorem kept_compacted : (r.compacted w).Kept w where
  settled := settled_compacted
  fits := compacted_fits
  sorted := compacted_sorted
  vouches := StableSort.sortBy_perm.length_eq.le.trans (List.length_take_le _ _)
  removals := StableSort.sortBy_perm.length_eq.le.trans (List.length_take_le _ _)

theorem Roster.Verified.kept (h : r.Verified w) : r.Kept w := by
  obtain ⟨raw, now, rfl⟩ := h
  rw [Roster.checked]
  split_ifs
  · exact kept_compacted
  · have hempty : Roster.compacted w {} = {} := by rfl
    rw [← hempty]
    exact kept_compacted

theorem stands_induct {p : String → Prop} (h : r.stands w device)
    (hseeds : ∀ d ∈ r.seeds w ∪ r.joining, p d) (hstep : ∀ v ∈ r.admitting, p v.device) :
    p device := by
  rcases stands_iff.1 h with h | h
  · exact h.induct (fun d hd => hseeds d (Finset.mem_union_left _ hd)) fun v hv _ _ => hstep v hv
  · exact h.induct (fun d hd => hseeds d (Finset.mem_union_right _ hd)) fun v hv _ _ => hstep v hv

theorem stands_consented (h : r.stands w device) : device ∈ r.consented := by
  refine stands_induct h (fun d hd => ?_) fun v hv => of_decide_eq_true (List.mem_filter.1 hv).2
  exact (Finset.mem_union.1 hd).elim (fun h => (Finset.mem_filter.1 h).2)
    fun h => (Finset.mem_filter.1 h).2

theorem consented_flooded : (r.flooded flood).consented =
    r.consented ∪ (flood.consents.map (·.device)).toFinset := by
  ext device
  simp [Roster.consented, Roster.flooded, or_and_right, exists_or]

theorem admitting_subset_flooded : r.admitting ⊆ (r.flooded flood).admitting := by
  intro v hv
  rw [Roster.admitting, List.mem_filter] at hv ⊢
  refine ⟨mem_pushUnique.2 (.inl hv.1), ?_⟩
  rw [consented_flooded]
  simpa using Or.inl (of_decide_eq_true hv.2)

def Roster.tierSeeds (w : Checks) (r : Roster) : Nat → Finset String
  | 0 => r.seeds w
  | _ + 1 => r.joining

theorem reaches_aside_stands {tier : Nat} (h : Reach.Reaches Vouch.voucher Vouch.device
    (r.aside x flood).admitting ((r.aside x flood).tierSeeds w tier) device) :
    (r.aside x flood).stands w device := by
  cases tier with
  | zero => exact stands_iff.2 (.inl h)
  | succ tier => exact stands_iff.2 (.inr h)

section Ranks

variable (hfrom : flood.From w r x) (hx : r.stands w x)
include hfrom hx

theorem consented_of_aside (h : (r.aside x flood).stands w device) : device ∈ r.consented := by
  have hconsented := stands_consented h
  have hsame : (r.aside x flood).consented = (r.flooded flood).consented := rfl
  rw [hsame, consented_flooded, Finset.mem_union, List.mem_toFinset] at hconsented
  rcases hconsented with hold | hnew
  · exact hold
  · obtain ⟨c, hc, rfl⟩ := List.mem_map.1 hnew
    rcases hfrom.consents c hc with hdevice | hnot
    · exact hdevice ▸ stands_consented hx
    · exact absurd h hnot

theorem filter_consented_flooded {s : Finset String}
    (h : ∀ d ∈ s.filter (· ∈ (r.aside x flood).consented), (r.aside x flood).stands w d) :
    s.filter (· ∈ (r.flooded flood).consented) = s.filter (· ∈ r.consented) := by
  refine Finset.filter_congr fun d hd => ⟨fun hconsented => ?_, fun hconsented => ?_⟩
  · exact consented_of_aside hfrom hx (h d (Finset.mem_filter.2 ⟨hd, hconsented⟩))
  · rw [consented_flooded]
    exact Finset.mem_union_left _ hconsented

theorem seeds_flooded : (r.flooded flood).seeds w = r.seeds w :=
  filter_consented_flooded hfrom hx fun _ hd => stands_iff.2 (.inl (Reach.reaches_seed hd))

theorem joining_flooded : (r.flooded flood).joining = r.joining :=
  filter_consented_flooded hfrom hx fun _ hd => stands_iff.2 (.inr (Reach.reaches_seed hd))

omit hx in
theorem mem_aside_admitting {v : Vouch} (hv : v ∈ (r.flooded flood).admitting)
    (hvoucher : (r.aside x flood).stands w v.voucher) (hne : v.voucher ≠ x) :
    v ∈ (r.aside x flood).admitting := by
  have hsame : (r.aside x flood).consented = (r.flooded flood).consented := rfl
  rw [Roster.admitting, List.mem_filter] at hv ⊢
  have hnew : v ∉ flood.vouches := fun hmem =>
    (hfrom.vouches v hmem).elim hne fun hnot => hnot hvoucher
  have hold : v ∈ r.vouches := (mem_pushUnique.1 hv.1).resolve_right hnew
  exact ⟨List.mem_filter.2 ⟨hold, by simp [hne, hnew]⟩, hsame ▸ hv.2⟩

theorem mem_admitting_of_aside {v : Vouch} (hv : v ∈ (r.aside x flood).admitting)
    (hvoucher : (r.aside x flood).stands w v.voucher) : v ∈ r.admitting := by
  have hdevice := consented_of_aside hfrom hx (stands_step hv hvoucher)
  rw [Roster.admitting, List.mem_filter] at hv ⊢
  exact ⟨(List.mem_filter.1 hv.1).1, by simpa using hdevice⟩

theorem tierSeeds_flooded (tier : Nat) :
    (r.flooded flood).tierSeeds w tier = r.tierSeeds w tier := by
  cases tier with
  | zero => exact seeds_flooded hfrom hx
  | succ tier => exact joining_flooded hfrom hx

theorem tierSeeds_aside (tier : Nat) :
    (r.aside x flood).tierSeeds w tier = r.tierSeeds w tier := by
  rw [← tierSeeds_flooded hfrom hx]
  cases tier <;> rfl

theorem walk_of_aside {tier n : Nat} (h : Reach.Walk Vouch.voucher Vouch.device
    (r.aside x flood).admitting (r.tierSeeds w tier) n device) :
    Reach.Walk Vouch.voucher Vouch.device r.admitting (r.tierSeeds w tier) n device := by
  refine h.transfer fun v hv hreach => mem_admitting_of_aside hfrom hx hv ?_
  rw [← tierSeeds_aside hfrom hx] at hreach
  exact reaches_aside_stands hreach

theorem walk_aside {tier n : Nat}
    (h : Reach.Depth Vouch.voucher Vouch.device (r.flooded flood).admitting
      (r.tierSeeds w tier) device n)
    (hnear : ∀ m, Reach.Walk Vouch.voucher Vouch.device r.admitting (r.tierSeeds w tier) m x →
      n ≤ m ∧ (m = n → device ≠ x)) :
    Reach.Walk Vouch.voucher Vouch.device (r.aside x flood).admitting (r.tierSeeds w tier) n
      device := by
  refine h.old (fun v hv hreach hne => ?_) fun m hwalk => hnear m (walk_of_aside hfrom hx hwalk)
  rw [← tierSeeds_aside hfrom hx] at hreach
  exact mem_aside_admitting hfrom hv (reaches_aside_stands hreach) hne

/-- No nearer than `x`, the depths of a flooded roster are its own. -/
theorem depth_before {tier n : Nat}
    (hnear : ∀ m, Reach.Walk Vouch.voucher Vouch.device r.admitting (r.tierSeeds w tier) m x →
      n ≤ m ∧ (m = n → device ≠ x)) :
    Reach.Depth Vouch.voucher Vouch.device (r.flooded flood).admitting (r.tierSeeds w tier)
        device n ↔
      Reach.Depth Vouch.voucher Vouch.device r.admitting (r.tierSeeds w tier) device n := by
  constructor
  · intro h
    refine ⟨walk_of_aside hfrom hx (walk_aside hfrom hx h hnear), fun m hm hwalk => ?_⟩
    exact h.least m hm (hwalk.mono admitting_subset_flooded (Finset.Subset.refl _))
  · intro h
    refine ⟨h.walk.mono admitting_subset_flooded (Finset.Subset.refl _), fun m hm hwalk => ?_⟩
    obtain ⟨k, hk⟩ := Reach.exists_depth ⟨m, hwalk⟩
    have hkm : k ≤ m := not_lt.1 fun hlt => hk.least m hlt hwalk
    refine h.least k (by omega) (walk_of_aside hfrom hx (walk_aside hfrom hx hk fun j hj => ?_))
    exact ⟨by have := (hnear j hj).1; omega, fun heq => by have := (hnear j hj).1; omega⟩

end Ranks

theorem standing_eq_tier {rank : Rank} : r.standing w device = some rank ↔
    ∃ tier depth, tier ≤ 1 ∧ rank = toLex (tier, toLex (depth, device)) ∧
      (tier = 1 → ¬ r.Founded w device) ∧
      Reach.Depth Vouch.voucher Vouch.device r.admitting (r.tierSeeds w tier) device depth := by
  rw [standing_eq_some]
  constructor
  · rintro (⟨depth, rfl, hdepth⟩ | ⟨depth, rfl, hnot, hdepth⟩)
    · exact ⟨0, depth, by omega, rfl, by simp, hdepth⟩
    · exact ⟨1, depth, le_rfl, rfl, fun _ => hnot, hdepth⟩
  · rintro ⟨tier, depth, htier, rfl, hnot, hdepth⟩
    obtain rfl | rfl : tier = 0 ∨ tier = 1 := by omega
    · exact .inl ⟨depth, rfl, hdepth⟩
    · exact .inr ⟨depth, rfl, hnot rfl, hdepth⟩

/-- Whoever ranks before `x` is reached by a walk no longer than the one to `x`. -/
theorem near_of_lt {rankX : Rank} {tier n : Nat} (hx : r.standing w x = some rankX)
    (hlt : toLex (tier, toLex (n, device)) < rankX) (htier : tier ≤ 1) (m : Nat)
    (hwalk : Reach.Walk Vouch.voucher Vouch.device r.admitting (r.tierSeeds w tier) m x) :
    n ≤ m ∧ (m = n → device ≠ x) := by
  obtain ⟨tierX, depth, htierX, rfl, hnot, hdepth⟩ := standing_eq_tier.1 hx
  have hle : tierX ≤ tier := by
    by_contra hgt
    obtain ⟨rfl, rfl⟩ : tier = 0 ∧ tierX = 1 := by omega
    exact hnot rfl ⟨m, hwalk⟩
  rcases Prod.Lex.toLex_lt_toLex.1 hlt with hlt | ⟨heq, hlt⟩
  · exact absurd hlt (by simpa using hle)
  · obtain rfl : tier = tierX := heq
    have hdm : depth ≤ m := not_lt.1 fun hlt => hdepth.least m hlt hwalk
    rcases Prod.Lex.toLex_lt_toLex.1 hlt with hlt | ⟨heq, hlt⟩
    · have hlt : n < depth := hlt
      exact ⟨by omega, by omega⟩
    · obtain rfl : n = depth := heq
      exact ⟨hdm, fun _ => (show device < x from hlt).ne⟩

section Before

variable {rank rankX : Rank} (hfrom : flood.From w r x) (hx : r.standing w x = some rankX)
include hfrom hx

theorem founded_before {n : Nat} (hlt : toLex (1, toLex (n, device)) < rankX) :
    (r.flooded flood).Founded w device ↔ r.Founded w device := by
  have hstands : r.stands w x := by simp [Roster.stands, hx]
  rw [Roster.Founded, seeds_flooded hfrom hstands]
  refine ⟨fun h => ?_, fun h => h.mono admitting_subset_flooded (Finset.Subset.refl _)⟩
  obtain ⟨k, hk⟩ := Reach.exists_depth h
  have hwalk : Reach.Walk Vouch.voucher Vouch.device (r.aside x flood).admitting
      (r.tierSeeds w 0) k device := by
    refine walk_aside hfrom hstands hk fun m hm => ?_
    have hlt0 : toLex (0, toLex (m + 1, device)) < rankX :=
      lt_trans (Prod.Lex.toLex_lt_toLex.2 (.inl Nat.zero_lt_one)) hlt
    have := (near_of_lt hx hlt0 (by omega) m hm).1
    omega
  exact ⟨k, walk_of_aside hfrom hstands hwalk⟩

/-- A flood moves no device that ranks before its signer. -/
theorem standing_before (hlt : rank < rankX) :
    (r.flooded flood).standing w device = some rank ↔ r.standing w device = some rank := by
  have hstands : r.stands w x := by simp [Roster.stands, hx]
  rw [standing_eq_tier, standing_eq_tier]
  refine exists_congr fun tier => exists_congr fun n => and_congr_right fun htier =>
    and_congr_right fun hrank => ?_
  subst hrank
  rw [tierSeeds_flooded hfrom hstands,
    depth_before hfrom hstands (near_of_lt hx hlt htier)]
  refine and_congr_left fun _ => forall_congr' fun hone => not_congr ?_
  subst hone
  exact founded_before hfrom hx hlt

theorem aside_before (hdevice : (r.flooded flood).standing w device = some rank)
    (hlt : rank < rankX) : (r.aside x flood).stands w device ∧ device ≠ x := by
  have hstands : r.stands w x := by simp [Roster.stands, hx]
  refine ⟨?_, ?_⟩
  · obtain ⟨tier, n, htier, rfl, -, hdepth⟩ := standing_eq_tier.1 hdevice
    rw [tierSeeds_flooded hfrom hstands] at hdepth
    have hwalk := walk_aside hfrom hstands hdepth (near_of_lt hx hlt htier)
    rw [← tierSeeds_aside hfrom hstands] at hwalk
    exact reaches_aside_stands ⟨n, hwalk⟩
  · rintro rfl
    rw [standing_before hfrom hx hlt, hx] at hdevice
    exact hlt.ne' (Option.some.inj hdevice)

end Before

end Hollow.Identity
