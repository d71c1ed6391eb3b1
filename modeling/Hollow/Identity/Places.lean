import Hollow.Identity.Flood

/-! Places in the orders compaction cuts by. Compaction sorts and takes the first so many of each
kind; here what it keeps is said by counting what goes before. -/

namespace Hollow.Identity

open StableSort

namespace Roster

variable (w : Checks) (r : Roster)

def standers : Finset String := r.consented.filter (r.stands w ·)

def ahead (device : String) : Finset String :=
  (r.standers w).filter (r.rank w · < r.rank w device)

/-- Whether a device ranks among as many as consents are kept. -/
def seated (device : String) : Bool :=
  r.stands w device && (r.ahead w device).card < maxConsents

def signedVouches : Finset Vouch := (r.vouches.filter (r.stands w ·.voucher)).toFinset

def signedRemovals : Finset Removal := (r.removals.filter (r.stands w ·.remover)).toFinset

def vouchKey (v : Vouch) : Lex (WithBot Rank × Vouch) := toLex (r.rank w v.voucher, v)

def removalKey (rm : Removal) : Lex (WithBot Rank × Removal) := toLex (r.rank w rm.remover, rm)

/-- Whether a vouch is the best one of a standing device. -/
def isBest (v : Vouch) : Bool :=
  r.stands w v.device &&
    ∀ v' ∈ r.signedVouches w, v'.device = v.device → r.vouchKey w v ≤ r.vouchKey w v'

def placeKey (v : Vouch) : Lex (Bool × Lex (WithBot Rank × Vouch)) :=
  toLex (!r.isBest w v, r.vouchKey w v)

def firstVouches : Finset Vouch :=
  (r.signedVouches w).filter fun v =>
    ((r.signedVouches w).filter (r.placeKey w · < r.placeKey w v)).card < maxVouches

def firstRemovals : Finset Removal :=
  (r.signedRemovals w).filter fun rm =>
    ((r.signedRemovals w).filter (r.removalKey w · < r.removalKey w rm)).card < maxRemovals

end Roster

variable {w : Checks} {r : Roster} {device : String}

@[simp] theorem mem_standers : device ∈ r.standers w ↔ r.stands w device :=
  ⟨fun h => (Finset.mem_filter.1 h).2, fun h => Finset.mem_filter.2 ⟨stands_consented h, h⟩⟩

@[simp] theorem mem_signedVouches {v : Vouch} :
    v ∈ r.signedVouches w ↔ v ∈ r.vouches ∧ r.stands w v.voucher := by
  simp [Roster.signedVouches]

@[simp] theorem mem_signedRemovals {rm : Removal} :
    rm ∈ r.signedRemovals w ↔ rm ∈ r.removals ∧ r.stands w rm.remover := by
  simp [Roster.signedRemovals]

theorem isBest_iff {v : Vouch} : r.isBest w v ↔ r.stands w v.device ∧
    ∀ v' ∈ r.signedVouches w, v'.device = v.device → r.vouchKey w v ≤ r.vouchKey w v' := by
  rw [Roster.isBest, Bool.and_eq_true, decide_eq_true_eq]

theorem vouchKey_injective : Function.Injective (r.vouchKey w) := fun _ _ h =>
  (Prod.mk.inj (toLex.injective h)).2

theorem removalKey_injective : Function.Injective (r.removalKey w) := fun _ _ h =>
  (Prod.mk.inj (toLex.injective h)).2

section SplitBest

variable {κ : Type} [LinearOrder κ] {key : Vouch → κ} {stands : String → Bool} {best : List String}
  {l : List Vouch} {v : Vouch}

/-- A vouch is best when it is the first, by place, for a device that stands. -/
theorem mem_splitBest_fst (h : l.Pairwise (key · < key ·)) :
    v ∈ (splitBest stands best l).1 ↔ v ∈ l ∧ stands v.device ∧ v.device ∉ best ∧
      ∀ v' ∈ l, v'.device = v.device → key v ≤ key v' := by
  induction l generalizing best with
  | nil => simp [splitBest]
  | cons first l ih =>
    obtain ⟨hfirst, hl⟩ := List.pairwise_cons.1 h
    have hnew : v = first → v ∉ l := by
      rintro rfl hv
      exact (hfirst v hv).false
    -- Of another vouch for the same device the first is the better.
    have hmin : v ∈ l → ((∀ v' ∈ first :: l, v'.device = v.device → key v ≤ key v') ↔
        first.device ≠ v.device ∧ ∀ v' ∈ l, v'.device = v.device → key v ≤ key v') := by
      intro hv
      rw [List.forall_mem_cons]
      refine and_congr_left fun _ => ⟨fun hle hsame => ?_, fun hne hsame => absurd hsame hne⟩
      exact (hle hsame).not_gt (hfirst v hv)
    rw [splitBest]
    by_cases htaken : stands first.device && first.device ∉ best
    · rw [if_pos htaken, List.mem_cons, ih hl]
      rw [Bool.and_eq_true, decide_eq_true_eq] at htaken
      by_cases hsame : v = first
      · subst hsame
        simp only [true_or, List.mem_cons, true_and, htaken, not_false_eq_true, true_iff]
        rintro v' (rfl | hv') _
        · exact le_rfl
        · exact (hfirst v' hv').le
      · have hmem : v ∈ first :: l ↔ v ∈ l := List.mem_cons.trans (or_iff_right hsame)
        rw [or_iff_right hsame, hmem]
        refine and_congr_right fun hv => and_congr_right fun _ => ?_
        rw [hmin hv, List.mem_cons, not_or, ne_comm]
        tauto
    · rw [if_neg htaken, ih hl]
      rw [Bool.and_eq_true, decide_eq_true_eq, not_and, not_not] at htaken
      by_cases hsame : v = first
      · refine iff_of_false (fun hv => hnew hsame hv.1) ?_
        rintro ⟨-, hstands, hbest, -⟩
        exact hbest (hsame ▸ htaken (hsame ▸ hstands))
      · rw [List.mem_cons, or_iff_right hsame]
        refine and_congr_right fun hv => ?_
        rw [hmin hv]
        refine and_congr_right fun hstands => and_congr_right fun hbest => ?_
        refine (and_iff_right fun heq => hbest ?_).symm
        exact heq ▸ htaken (heq ▸ hstands)

theorem splitBest_sublist : (splitBest stands best l).1.Sublist l ∧
    (splitBest stands best l).2.Sublist l := by
  induction l generalizing best with
  | nil => simp [splitBest]
  | cons first l ih =>
    rw [splitBest]
    split_ifs
    · exact ⟨ih.1.cons_cons first, ih.2.cons first⟩
    · exact ⟨ih.1.cons first, ih.2.cons_cons first⟩

end SplitBest

theorem rankedVouches_sorted : (r.rankedVouches w).Pairwise (r.vouchKey w · < r.vouchKey w ·) :=
  sorted_lt_sortBy nodup_sortSet fun _ _ h => vouchKey_injective h

theorem rankedRemovals_sorted :
    (r.rankedRemovals w).Pairwise (r.removalKey w · < r.removalKey w ·) :=
  sorted_lt_sortBy nodup_sortSet fun _ _ h => removalKey_injective h

theorem mem_bestSplit_fst {v : Vouch} :
    v ∈ (r.bestSplit w).1 ↔ v ∈ r.signedVouches w ∧ r.isBest w v := by
  rw [Roster.bestSplit, mem_splitBest_fst rankedVouches_sorted, mem_rankedVouches, isBest_iff,
    mem_signedVouches]
  simp only [mem_rankedVouches, mem_signedVouches, List.not_mem_nil, not_false_eq_true, true_and]

theorem bestSplit_sorted : ((r.bestSplit w).1 ++ (r.bestSplit w).2).Pairwise
    (r.placeKey w · < r.placeKey w ·) := by
  have hnodup : ((r.bestSplit w).1 ++ (r.bestSplit w).2).Nodup :=
    bestSplit_perm.nodup_iff.2 rankedVouches_nodup
  have hrest : ∀ v ∈ (r.bestSplit w).2, r.isBest w v = false := by
    intro v hv
    rw [← Bool.not_eq_true]
    intro hbest
    have hsigned := mem_rankedVouches.1 (bestSplit_perm.subset (List.mem_append_right _ hv))
    have htree := mem_bestSplit_fst.2 ⟨mem_signedVouches.2 hsigned, hbest⟩
    exact (List.nodup_append.1 hnodup).2.2 v htree v hv rfl
  refine List.pairwise_append.2 ⟨?_, ?_, fun v hv v' hv' => ?_⟩
  · refine (rankedVouches_sorted.sublist splitBest_sublist.1).imp_of_mem fun {v v'} hv hv' hlt => ?_
    refine Prod.Lex.toLex_lt_toLex.2 (.inr ⟨?_, hlt⟩)
    rw [(mem_bestSplit_fst.1 hv).2, (mem_bestSplit_fst.1 hv').2]
  · refine (rankedVouches_sorted.sublist splitBest_sublist.2).imp_of_mem fun {v v'} hv hv' hlt => ?_
    refine Prod.Lex.toLex_lt_toLex.2 (.inr ⟨?_, hlt⟩)
    rw [hrest v hv, hrest v' hv']
  · refine Prod.Lex.toLex_lt_toLex.2 (.inl ?_)
    rw [(mem_bestSplit_fst.1 hv).2, hrest v' hv']
    exact Bool.false_lt_true

theorem mem_keptVouches_iff {v : Vouch} : v ∈ r.keptVouches w ↔ v ∈ r.firstVouches w := by
  have hmem : ∀ v, v ∈ (r.bestSplit w).1 ++ (r.bestSplit w).2 ↔ v ∈ r.signedVouches w := fun v => by
    rw [bestSplit_perm.mem_iff, mem_rankedVouches, mem_signedVouches]
  rw [Roster.firstVouches, Finset.mem_filter, ← mem_take_iff bestSplit_sorted hmem]
  exact mem_sortBy

theorem mem_keptRemovals_iff {rm : Removal} : rm ∈ r.keptRemovals w ↔ rm ∈ r.firstRemovals w := by
  have hmem : ∀ rm, rm ∈ r.rankedRemovals w ↔ rm ∈ r.signedRemovals w := fun rm => by
    rw [mem_rankedRemovals, mem_signedRemovals]
  rw [Roster.firstRemovals, Finset.mem_filter,
    ← mem_take_iff rankedRemovals_sorted hmem]
  exact mem_sortBy

theorem rank_eq_bot : r.rank w device = ⊥ ↔ ¬ r.stands w device := by
  rw [Roster.stands, Bool.not_eq_true, Option.isSome_eq_false_iff, Option.isNone_iff_eq_none]
  rfl

theorem eq_of_rank_eq {other : String} (h : r.stands w device)
    (hrank : r.rank w device = r.rank w other) : device = other := by
  obtain ⟨rank, hdevice⟩ := Option.isSome_iff_exists.1 h
  have hother : r.standing w other = some rank := hrank.symm.trans hdevice
  obtain ⟨tier, depth, -, rfl, -⟩ := standing_eq_tier.1 hdevice
  obtain ⟨tier', depth', -, hsame, -⟩ := standing_eq_tier.1 hother
  simp only [EmbeddingLike.apply_eq_iff_eq, Prod.mk.injEq] at hsame
  exact hsame.2.2

section Consents

variable {mentioned : Finset String} {c c' : Consent}

theorem consentClass_of_stands (h : r.stands w c.device) :
    consentClass (r.rank w) mentioned c = toLex (0, r.rank w c.device) := by
  obtain ⟨rank, hrank⟩ := Option.isSome_iff_exists.1 h
  have hrank : r.rank w c.device = (rank : WithBot Rank) := hrank
  rw [consentClass, hrank]
  rfl

theorem consentClass_of_not_stands (h : ¬ r.stands w c.device) :
    consentClass (r.rank w) mentioned c =
      if c.device ∈ mentioned then toLex (1, ⊥) else toLex (2, ⊥) := by
  rw [consentClass, rank_eq_bot.2 h]

theorem consentClass_named_iff : (ofLex (consentClass (r.rank w) mentioned c)).1 < 2 ↔
    r.stands w c.device ∨ c.device ∈ mentioned := by
  by_cases hstands : r.stands w c.device
  · simp [consentClass_of_stands hstands, hstands]
  · rw [consentClass_of_not_stands hstands]
    by_cases hmentioned : c.device ∈ mentioned <;> simp [hstands, hmentioned]

theorem consentClass_lt_iff (h : r.stands w c.device) :
    consentClass (r.rank w) mentioned c' < consentClass (r.rank w) mentioned c ↔
      r.stands w c'.device ∧ r.rank w c'.device < r.rank w c.device := by
  rw [consentClass_of_stands h]
  by_cases hstands : r.stands w c'.device
  · rw [consentClass_of_stands hstands, Prod.Lex.toLex_lt_toLex]
    simp [hstands]
  · rw [consentClass_of_not_stands hstands]
    split_ifs <;> simp [Prod.Lex.toLex_lt_toLex, hstands]

theorem length_unnamed_retainNamed (named : Consent → Bool) {unnamed : Nat}
    {consents : List Consent} (h : unnamed ≤ maxUnnamedConsents) :
    unnamed + ((retainNamed named unnamed consents).filter fun c => ¬ named c).length ≤
      maxUnnamedConsents := by
  induction consents generalizing unnamed with
  | nil => simpa [retainNamed] using h
  | cons c consents ih =>
    rw [retainNamed]
    split_ifs with hnamed hroom
    · simpa [hnamed] using ih h
    · have := ih hroom
      simp only [List.filter_cons, hnamed]
      simp at this ⊢
      omega
    · -- Past the ceiling no unnamed consent stays, so the count may as well stop.
      have hfull : ∀ (n : Nat) (l : List Consent), maxUnnamedConsents ≤ n →
          ((retainNamed named n l).filter fun c => ¬ named c) = [] := by
        intro n l
        induction l generalizing n with
        | nil => simp [retainNamed]
        | cons c l ih =>
          intro hn
          rw [retainNamed]
          split_ifs with hnamed
          · simpa [hnamed] using ih n hn
          · omega
          · exact ih (n + 1) (by omega)
      rw [hfull (unnamed + 1) consents (by omega)]
      simpa using h

theorem unnamed_keptConsents {rank : String → WithBot Rank} {consents : List Consent} :
    ((keptConsents rank mentioned consents).filter fun c =>
      ¬ (ofLex (consentClass rank mentioned c)).1 < 2).length ≤ maxUnnamedConsents := by
  rw [keptConsents, (sortBy_perm.filter _).length_eq]
  refine ((List.take_sublist _ _).filter _).length_le.trans ?_
  simpa using length_unnamed_retainNamed
    (fun c => (ofLex (consentClass rank mentioned c)).1 < 2) (Nat.zero_le _)

variable (hdevices : r.consents.Pairwise (·.device < ·.device))

def Roster.consentKey (w : Checks) (r : Roster) (mentioned : Finset String) (c : Consent) :
    Lex (Lex (Nat × WithBot Rank) × Consent) :=
  toLex (consentClass (r.rank w) mentioned c, c)

def Roster.retained (w : Checks) (r : Roster) (mentioned : Finset String) : List Consent :=
  retainNamed (fun c => (ofLex (consentClass (r.rank w) mentioned c)).1 < 2) 0
    (sortBy (r.consentKey w mentioned) r.consents)

theorem mem_retained (hc : c ∈ r.consents) (hstands : r.stands w c.device) :
    c ∈ r.retained w mentioned :=
  mem_retainNamed (mem_sortBy.2 hc)
    (decide_eq_true (consentClass_named_iff.2 (.inl hstands)))

theorem mem_consents_of_retained (h : c ∈ r.retained w mentioned) : c ∈ r.consents :=
  mem_sortBy.1 (retainNamed_sublist.subset h)

include hdevices

theorem consent_of_device (hc : c ∈ r.consents) (hc' : c' ∈ r.consents)
    (h : c.device = c'.device) : c = c' :=
  List.inj_on_of_nodup_map (List.pairwise_map.2 (hdevices.imp fun {_ _} hlt => hlt.ne)) hc hc' h

theorem retained_sorted (mentioned : Finset String) : (r.retained w mentioned).Pairwise
    (r.consentKey w mentioned · < r.consentKey w mentioned ·) := by
  refine List.Pairwise.sublist retainNamed_sublist (sorted_lt_sortBy ?_ fun c c' h => ?_)
  · exact hdevices.imp fun {c c'} hlt heq => hlt.ne (congrArg Consent.device heq)
  · exact (Prod.mk.inj (toLex.injective h)).2

theorem mem_kept_iff : c ∈ keptConsents (r.rank w) mentioned r.consents ↔
    c ∈ r.retained w mentioned ∧ ((r.retained w mentioned).toFinset.filter
      (r.consentKey w mentioned · < r.consentKey w mentioned c)).card < maxConsents := by
  have htake := mem_take_iff (a := c) (n := maxConsents)
    (retained_sorted (w := w) hdevices mentioned) fun c => List.mem_toFinset.symm
  rw [List.mem_toFinset] at htake
  exact mem_sortBy.trans htake

/-- Of the devices that stand, those seated by rank keep their consent. -/
theorem mem_keptConsents_of_stands (hc : c ∈ r.consents) (hstands : r.stands w c.device) :
    c ∈ keptConsents (r.rank w) mentioned r.consents ↔ r.seated w c.device := by
  have hcard : ((r.retained w mentioned).toFinset.filter
      (r.consentKey w mentioned · < r.consentKey w mentioned c)).card =
        (r.ahead w c.device).card := by
    refine Finset.card_bij (fun c' _ => c'.device) ?_ ?_ ?_
    · intro c' hc'
      obtain ⟨hc', hlt⟩ := Finset.mem_filter.1 hc'
      have hc' := mem_consents_of_retained (List.mem_toFinset.1 hc')
      rw [Roster.ahead, Finset.mem_filter, mem_standers]
      rcases Prod.Lex.toLex_lt_toLex.1 hlt with hlt | ⟨heq, hlt⟩
      · exact (consentClass_lt_iff hstands).1 hlt
      · have hclass : consentClass (r.rank w) mentioned c' = toLex (0, r.rank w c.device) :=
          heq.trans (consentClass_of_stands hstands)
        have hstands' : r.stands w c'.device := by
          by_contra hnot
          rw [consentClass_of_not_stands hnot] at hclass
          split_ifs at hclass <;> simp at hclass
        rw [consentClass_of_stands hstands'] at hclass
        have hdevice := eq_of_rank_eq hstands' (Prod.mk.inj (toLex.injective hclass)).2
        exact absurd hlt (consent_of_device hdevices hc' hc hdevice ▸ lt_irrefl _)
    · intro c' hc' c'' hc'' hsame
      exact consent_of_device hdevices
        (mem_consents_of_retained (List.mem_toFinset.1 (Finset.mem_filter.1 hc').1))
        (mem_consents_of_retained (List.mem_toFinset.1 (Finset.mem_filter.1 hc'').1)) hsame
    · intro device hdevice
      obtain ⟨hdevice, hlt⟩ := Finset.mem_filter.1 hdevice
      have hstands' := mem_standers.1 hdevice
      obtain ⟨c', hc', rfl⟩ := List.mem_map.1 (List.mem_toFinset.1 (stands_consented hstands'))
      refine ⟨c', Finset.mem_filter.2 ⟨List.mem_toFinset.2 (mem_retained hc' hstands'), ?_⟩, rfl⟩
      exact Prod.Lex.toLex_lt_toLex.2 (.inl ((consentClass_lt_iff hstands).2 ⟨hstands', hlt⟩))
  rw [mem_kept_iff hdevices, hcard, Roster.seated, Bool.and_eq_true, decide_eq_true_eq]
  exact and_congr_left fun _ => iff_of_true (mem_retained hc hstands) hstands

theorem card_standers_lt (h : c ∈ keptConsents (r.rank w) mentioned r.consents)
    (hnot : ¬ r.stands w c.device) : (r.standers w).card < maxConsents := by
  refine lt_of_le_of_lt (Finset.card_le_card_of_surjOn Consent.device fun device hdevice => ?_)
    ((mem_kept_iff hdevices).1 h).2
  have hstands := mem_standers.1 (Finset.mem_coe.1 hdevice)
  obtain ⟨c', hc', rfl⟩ := List.mem_map.1 (List.mem_toFinset.1 (stands_consented hstands))
  refine ⟨c', Finset.mem_coe.2 (Finset.mem_filter.2
    ⟨List.mem_toFinset.2 (mem_retained hc' hstands), ?_⟩), rfl⟩
  refine Prod.Lex.toLex_lt_toLex.2 (.inl ?_)
  rw [consentClass_of_stands hstands, consentClass_of_not_stands hnot]
  split_ifs <;> simp [Prod.Lex.toLex_lt_toLex]

end Consents

end Hollow.Identity
