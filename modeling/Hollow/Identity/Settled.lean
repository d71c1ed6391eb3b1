import Hollow.Identity.Compact

/-! What compaction keeps of a roster whose kinds fit their ceilings: the newest recoveries, what is
signed in their base by devices that stand, and every consent it names. -/

namespace Hollow.Identity

open StableSort

section Lists

variable {α : Type} [LinearOrder α] {l : List α} {a : α} {cap : Nat}

theorem mem_sortCap (h : l.length ≤ cap) : a ∈ sortCap l cap ↔ a ∈ l := by
  have hlength : (sortSet l).length ≤ cap :=
    ((List.dedup_sublist _).length_le.trans sortBy_perm.length_eq.le).trans h
  rw [sortCap_eq_sortSet hlength, mem_sortSet]

end Lists

section Consents

variable {consents : List Consent} {c : Consent}

theorem device_le_of_le {c' : Consent} (h : c ≤ c') : c.device ≤ c'.device :=
  Prod.Lex.monotone_fst c.key c'.key h

def IsFirst (consents : List Consent) (c : Consent) : Prop :=
  c ∈ consents ∧ ∀ c' ∈ consents, c'.device = c.device → c ≤ c'

/-- Dropping repeats from sorted consents leaves the least of each device. -/
theorem mem_destutter' {first : Consent} (h : (first :: consents).Pairwise (· ≤ ·)) :
    c ∈ consents.destutter' (·.device ≠ ·.device) first ↔ IsFirst (first :: consents) c := by
  induction consents generalizing first with
  | nil => simp +contextual [IsFirst]
  | cons next consents ih =>
    obtain ⟨hfirst, hnext⟩ := List.pairwise_cons.1 h
    have hle := hfirst next List.mem_cons_self
    by_cases hdevice : first.device = next.device
    · have hsub : (first :: consents).Pairwise (· ≤ ·) := List.pairwise_cons.2
        ⟨fun c hc => hfirst c (List.mem_cons_of_mem _ hc), (List.pairwise_cons.1 hnext).2⟩
      rw [List.destutter'_cons_neg _ (not_not.2 hdevice), ih hsub, IsFirst, IsFirst]
      constructor
      · rintro ⟨hmem, hmin⟩
        refine ⟨by grind, fun c' hc' hsame => ?_⟩
        by_cases hc : c' = next
        · subst hc
          exact (hmin first List.mem_cons_self (hdevice.trans hsame)).trans hle
        · exact hmin c' (by grind) hsame
      · rintro ⟨hmem, hmin⟩
        refine ⟨?_, fun c' hc' => hmin c' (by grind)⟩
        by_cases hc : c = next
        · subst hc
          exact List.mem_cons.2 (.inl (le_antisymm (hmin first List.mem_cons_self hdevice) hle))
        · grind
    · have hlt : first.device < next.device := lt_of_le_of_ne (device_le_of_le hle) hdevice
      have hother : ∀ c ∈ next :: consents, first.device ≠ c.device := fun c hc =>
        (hlt.trans_le (by
          rcases List.mem_cons.1 hc with rfl | hc
          · exact le_rfl
          · exact device_le_of_le ((List.pairwise_cons.1 hnext).1 c hc))).ne
      rw [List.destutter'_cons_pos _ hdevice, List.mem_cons, ih hnext, IsFirst, IsFirst]
      constructor
      · rintro (rfl | ⟨hmem, hmin⟩)
        · exact ⟨List.mem_cons_self, fun c' hc' _ => by
            rcases List.mem_cons.1 hc' with rfl | hc'
            · exact le_rfl
            · exact hfirst c' hc'⟩
        · refine ⟨List.mem_cons_of_mem _ hmem, fun c' hc' hsame => ?_⟩
          rcases List.mem_cons.1 hc' with rfl | hc'
          · exact absurd hsame (hother c hmem)
          · exact hmin c' hc' hsame
      · rintro ⟨hmem, hmin⟩
        rcases List.mem_cons.1 hmem with rfl | hmem
        · exact .inl rfl
        · exact .inr ⟨hmem, fun c' hc' => hmin c' (List.mem_cons_of_mem _ hc')⟩

theorem mem_destutter_sortBy :
    c ∈ (sortBy id consents).destutter (·.device ≠ ·.device) ↔ IsFirst consents c := by
  have hsorted : (sortBy id consents).Pairwise (· ≤ ·) := sorted_sortBy
  have hsame : IsFirst (sortBy id consents) c ↔ IsFirst consents c := by
    simp [IsFirst]
  rw [← hsame]
  cases hlist : sortBy id consents with
  | nil => simp [IsFirst]
  | cons first rest => exact mem_destutter' (hlist ▸ hsorted)

theorem exists_isFirst (h : c ∈ consents) : ∃ c', IsFirst consents c' ∧ c'.device = c.device := by
  obtain ⟨c', hc', hmin⟩ :=
    Finset.exists_min_image (consents.toFinset.filter (·.device = c.device)) id
      ⟨c, by simpa using h⟩
  rw [Finset.mem_filter, List.mem_toFinset] at hc'
  refine ⟨c', ⟨hc'.1, fun other hother hsame => ?_⟩, hc'.2⟩
  exact hmin other (by simpa using ⟨hother, hsame.trans hc'.2⟩)

end Consents

section Settled

variable {w : Checks} {r : Roster}

theorem inBase_vouches : (r.inBase w).vouches = r.vouches.filter (·.base = r.base w) := by
  rw [Roster.inBase, Roster.base]
  cases r.currentRecovery w <;> rfl

theorem inBase_pendings : (r.inBase w).pendings = r.pendings.filter (·.base = r.base w) := by
  rw [Roster.inBase, Roster.base]
  cases r.currentRecovery w <;> rfl

theorem inBase_removals : (r.inBase w).removals = r.removals.filter (·.base = r.base w) := by
  rw [Roster.inBase, Roster.base]
  cases r.currentRecovery w <;> rfl

theorem inBase_consents : (r.inBase w).consents = r.consents := by
  rw [Roster.inBase]
  split <;> rfl

theorem mem_inBase_phraseAdmits {p : PhraseAdmit} : p ∈ (r.inBase w).phraseAdmits ↔
    p ∈ r.phraseAdmits ∧ ∀ c, r.currentRecovery w = some c → c.at_ < p.atMs := by
  rw [Roster.inBase]
  cases r.currentRecovery w <;> simp

theorem mem_inBase_legacy {l : LegacyClaim} : l ∈ (r.inBase w).legacy ↔
    l ∈ r.legacy ∧ r.recoveries = [] := by
  rw [← currentRecovery_eq_none (w := w), Roster.inBase]
  cases r.currentRecovery w <;> simp

theorem mem_settled_consents {c : Consent} :
    c ∈ (r.settled w).consents ↔ IsFirst r.consents c := by
  change c ∈ (sortBy id (r.newest.inBase w).consents).destutter _ ↔ _
  rw [inBase_consents, newest_eq]
  exact mem_destutter_sortBy

@[simp] theorem settled_master : (r.settled w).master = r.master := by
  change (r.newest.inBase w).master = _
  rw [inBase_master, newest_eq]

@[simp] theorem settled_rPub : (r.settled w).rPub = r.rPub := by
  change (r.newest.inBase w).rPub = _
  rw [inBase_rPub, newest_eq]

@[simp] theorem settled_recoveries : (r.settled w).recoveries = r.newest.recoveries :=
  inBase_recoveries

theorem currentRecovery_settled_newest :
    (r.settled w).currentRecovery w = r.newest.currentRecovery w :=
  currentRecovery_congr inBase_master inBase_rPub fun rec => by
    rw [Roster.Newest, Roster.Newest, settled_recoveries]

theorem settled_consented : (r.settled w).consented = r.consented := by
  ext device
  simp only [Roster.consented, List.mem_toFinset, List.mem_map, mem_settled_consents]
  constructor
  · rintro ⟨c, hc, rfl⟩
    exact ⟨c, hc.1, rfl⟩
  · rintro ⟨c, hc, rfl⟩
    obtain ⟨c', hc', hdevice⟩ := exists_isFirst hc
    exact ⟨c', hc', hdevice⟩

theorem length_settled_consents_le : (r.settled w).consents.length ≤ r.consents.length := by
  change ((sortBy id (r.newest.inBase w).consents).destutter _).length ≤ _
  rw [inBase_consents, newest_eq]
  exact (List.destutter_sublist _ _).length_le.trans sortBy_perm.length_eq.le

section Ties

variable (hties : r.recoveries.length ≤ maxRecoveryTies)
include hties

theorem mem_newest_recoveries {rec : Recovery} : rec ∈ r.newest.recoveries ↔ r.Newest rec := by
  refine ⟨Newest.of_mem_newest, fun hnew => ?_⟩
  rw [Roster.newest]
  cases hmax : (r.recoveries.map (·.atMs)).max? with
  | none =>
    rw [List.max?_eq_none_iff, List.map_eq_nil_iff] at hmax
    exact absurd (hmax ▸ hnew.1) List.not_mem_nil
  | some at_ =>
    obtain ⟨hmem, hle⟩ := List.max?_eq_some_iff.1 hmax
    obtain ⟨rec', hrec', rfl⟩ := List.mem_map.1 hmem
    have hat : rec.atMs = rec'.atMs :=
      le_antisymm (hle _ (List.mem_map_of_mem hnew.1)) (hnew.2 rec' hrec')
    refine (mem_sortCap ((List.length_filter_le _ _).trans hties)).2 ?_
    exact List.mem_filter.2 ⟨hnew.1, by simpa using hat⟩

theorem newest_newest {rec : Recovery} : r.newest.Newest rec ↔ r.Newest rec := by
  rw [← mem_newest_recoveries hties]
  exact ⟨fun h => h.1, newest_of_mem_newest⟩

theorem currentRecovery_newest : r.newest.currentRecovery w = r.currentRecovery w :=
  currentRecovery_congr (by rw [newest_eq]) (by rw [newest_eq]) fun _ => newest_newest hties

theorem currentRecovery_settled : (r.settled w).currentRecovery w = r.currentRecovery w :=
  currentRecovery_settled_newest.trans (currentRecovery_newest hties)

theorem base_newest : r.newest.base w = r.base w := base_congr (currentRecovery_newest hties)

theorem settled_vouches : (r.settled w).vouches = r.vouches.filter (·.base = r.base w) := by
  change (r.newest.inBase w).vouches = _
  rw [inBase_vouches, base_newest hties, newest_eq]

theorem length_settled_vouches_le : (r.settled w).vouches.length ≤ r.vouches.length := by
  rw [settled_vouches hties]
  exact List.length_filter_le _ _

theorem settled_removals : (r.settled w).removals = r.removals.filter (·.base = r.base w) := by
  change (r.newest.inBase w).removals = _
  rw [inBase_removals, base_newest hties, newest_eq]

theorem length_settled_removals_le : (r.settled w).removals.length ≤ r.removals.length := by
  rw [settled_removals hties]
  exact List.length_filter_le _ _

end Ties

/-- The kinds that no signer's rank cuts fit their ceilings. -/
structure Roster.Fits (r : Roster) : Prop where
  recoveries : r.recoveries.length ≤ maxRecoveryTies
  phraseAdmits : r.phraseAdmits.length ≤ maxPhraseAdmits
  legacy : r.legacy.length ≤ maxLegacy
  pendings : r.pendings.length ≤ maxPending

section Fits

variable (hfits : r.Fits)
include hfits

theorem mem_settled_phraseAdmits {p : PhraseAdmit} : p ∈ (r.settled w).phraseAdmits ↔
    p ∈ r.phraseAdmits ∧ ∀ c, r.currentRecovery w = some c → c.at_ < p.atMs := by
  have hsub : (r.newest.inBase w).phraseAdmits.length ≤ maxPhraseAdmits := by
    refine le_trans ?_ hfits.phraseAdmits
    rw [newest_eq, Roster.inBase]
    split
    · exact List.length_filter_le _ _
    · exact le_rfl
  change p ∈ sortCap (r.newest.inBase w).phraseAdmits _ ↔ _
  rw [mem_sortCap hsub, mem_inBase_phraseAdmits, currentRecovery_newest hfits.recoveries, newest_eq]

theorem mem_settled_legacy {l : LegacyClaim} :
    l ∈ (r.settled w).legacy ↔ l ∈ r.legacy ∧ r.recoveries = [] := by
  have hsub : (r.newest.inBase w).legacy.length ≤ maxLegacy := by
    refine le_trans ?_ hfits.legacy
    rw [newest_eq, Roster.inBase]
    split
    · exact Nat.zero_le _
    · exact le_rfl
  have hsame : r.newest.legacy = r.legacy := by rw [newest_eq]
  change l ∈ sortCap (r.newest.inBase w).legacy _ ↔ _
  rw [mem_sortCap hsub, mem_inBase_legacy, ← currentRecovery_eq_none (w := w),
    currentRecovery_newest hfits.recoveries, currentRecovery_eq_none, hsame]

theorem mem_settled_pendings {p : Pending} :
    p ∈ (r.settled w).pendings ↔ p ∈ r.pendings ∧ p.base = r.base w := by
  have hsame : r.newest.pendings = r.pendings := by rw [newest_eq]
  change p ∈ sortCap (r.newest.inBase w).pendings _ ↔ _
  rw [inBase_pendings, base_newest hfits.recoveries, hsame,
    mem_sortCap ((List.length_filter_le _ _).trans hfits.pendings)]
  simp

theorem mem_settled_vouches {v : Vouch} :
    v ∈ (r.settled w).vouches ↔ v ∈ r.vouches ∧ v.base = r.base w := by
  rw [settled_vouches hfits.recoveries, List.mem_filter, decide_eq_true_eq]

theorem mem_settled_removals {rm : Removal} :
    rm ∈ (r.settled w).removals ↔ rm ∈ r.removals ∧ rm.base = r.base w := by
  rw [settled_removals hfits.recoveries, List.mem_filter, decide_eq_true_eq]

theorem settled_newest {rec : Recovery} : (r.settled w).Newest rec ↔ r.Newest rec := by
  rw [← newest_newest hfits.recoveries, Roster.Newest, Roster.Newest, settled_recoveries]

/-- Settling keeps the roots of the base. -/
theorem settled_baseRoots : (r.settled w).baseRoots w = r.baseRoots w := by
  ext device
  cases hcurrent : r.currentRecovery w with
  | none =>
    have hnone := currentRecovery_eq_none.1 hcurrent
    have hsettled : (r.settled w).recoveries = [] := by
      rw [← currentRecovery_eq_none (w := w), currentRecovery_settled hfits.recoveries, hcurrent]
    rw [mem_baseRoots_of_legacy hnone, mem_baseRoots_of_legacy hsettled]
    simp [mem_settled_legacy hfits, mem_settled_phraseAdmits hfits, hnone, hcurrent]
  | some c =>
    have hsettled := (currentRecovery_settled hfits.recoveries).trans hcurrent
    rw [mem_baseRoots_of_current hcurrent, mem_baseRoots_of_current hsettled]
    simp only [settled_newest hfits, mem_settled_phraseAdmits hfits, hcurrent, Option.some.injEq,
      forall_eq']
    simp [and_assoc]

theorem settled_seeds : (r.settled w).seeds w = r.seeds w := by
  rw [Roster.seeds, Roster.seeds, settled_baseRoots hfits, settled_consented]

theorem mem_settled_admitting {v : Vouch} : v ∈ (r.settled w).admitting ↔
    v ∈ r.vouches ∧ v.base = r.base w ∧ v.device ∈ r.consented := by
  rw [Roster.admitting, List.mem_filter, mem_settled_vouches hfits, settled_consented]
  simp [and_assoc]

theorem mem_settled_joining {device : String} : device ∈ (r.settled w).joining ↔
    (∃ p ∈ r.pendings, p.base = r.base w ∧ p.device = device) ∧ device ∈ r.consented := by
  rw [Roster.joining, settled_consented]
  simp [mem_settled_pendings hfits, and_assoc]

end Fits

theorem mem_rankedVouches {v : Vouch} :
    v ∈ r.rankedVouches w ↔ v ∈ r.vouches ∧ r.stands w v.voucher := by
  simp [Roster.rankedVouches]

theorem mem_rankedRemovals {rm : Removal} :
    rm ∈ r.rankedRemovals w ↔ rm ∈ r.removals ∧ r.stands w rm.remover := by
  simp [Roster.rankedRemovals]

theorem length_sortSet_filter_le {α : Type} [LinearOrder α] {l : List α} {p : α → Bool} :
    (sortSet (l.filter p)).length ≤ l.length :=
  ((List.dedup_sublist _).length_le.trans sortBy_perm.length_eq.le).trans
    (List.length_filter_le _ _)

theorem mem_keptVouches (hvouches : r.vouches.length ≤ maxVouches) {v : Vouch} :
    v ∈ r.keptVouches w ↔ v ∈ r.vouches ∧ r.stands w v.voucher := by
  have hlength : (r.rankedVouches w).length ≤ maxVouches :=
    sortBy_perm.length_eq.le.trans (length_sortSet_filter_le.trans hvouches)
  rw [Roster.keptVouches, mem_sortBy,
    List.take_of_length_le (splitBest_perm.length_eq.le.trans hlength), splitBest_perm.mem_iff,
    mem_rankedVouches]

theorem mem_keptRemovals (hremovals : r.removals.length ≤ maxRemovals) {rm : Removal} :
    rm ∈ r.keptRemovals w ↔ rm ∈ r.removals ∧ r.stands w rm.remover := by
  have hlength : (r.rankedRemovals w).length ≤ maxRemovals :=
    sortBy_perm.length_eq.le.trans (length_sortSet_filter_le.trans hremovals)
  rw [Roster.keptRemovals, mem_sortBy, List.take_of_length_le hlength,
    mem_rankedRemovals]

theorem mem_retainNamed {named : Consent → Bool} {unnamed : Nat} {consents : List Consent}
    {c : Consent} (h : c ∈ consents) (hnamed : named c) :
    c ∈ retainNamed named unnamed consents := by
  induction consents generalizing unnamed with
  | nil => cases h
  | cons c' consents ih =>
    rw [retainNamed]
    rcases List.mem_cons.1 h with rfl | h
    · rw [if_pos hnamed]
      exact List.mem_cons_self
    · split_ifs
      · exact List.mem_cons_of_mem _ (ih h)
      · exact List.mem_cons_of_mem _ (ih h)
      · exact ih h

theorem mem_keptConsents {rank : String → WithBot Rank} {mentioned : Finset String}
    {consents : List Consent} {c : Consent} (hlength : consents.length ≤ maxConsents)
    (h : c ∈ consents) (hnamed : rank c.device ≠ ⊥ ∨ c.device ∈ mentioned) :
    c ∈ keptConsents rank mentioned consents := by
  have hclass : (ofLex (consentClass rank mentioned c)).1 < 2 := by
    rw [consentClass]
    cases hrank : rank c.device with
    | bot => simp [hnamed.resolve_left (not_not.2 hrank)]
    | coe rank => simp
  rw [keptConsents, mem_sortBy, List.take_of_length_le]
  · exact mem_retainNamed (mem_sortBy.2 h) (by simpa using hclass)
  · exact (retainNamed_sublist.length_le.trans sortBy_perm.length_eq.le).trans hlength

end Settled

end Hollow.Identity
