import Hollow.Identity.Family

/-! Merging is a join: whatever the order, grouping and repetition, the merge of a family is what is
left of its union once the superseded statements are dropped. -/

namespace Hollow.Identity

variable {w : Checks} {master key : String} {family left right : List Roster} {r : Roster}

theorem exists_newest_of_mem {rec : Recovery} (h : rec ∈ r.recoveries) :
    ∃ rec, r.Newest rec := by
  obtain ⟨c, hc⟩ := exists_currentRecovery (w := sampleChecks) (List.ne_nil_of_mem h)
  obtain ⟨rec, hnew, -⟩ := (currentRecovery_eq_some.1 hc).base_mem
  exact ⟨rec, hnew⟩

theorem newest_of_within {a b : Roster} {rec : Recovery} (h : b.Newest rec)
    (hsub : a.recoveries ⊆ b.recoveries) (hrec : rec ∈ a.recoveries) : a.Newest rec :=
  ⟨hrec, fun other hother => h.2 other (hsub hother)⟩

abbrev joinedParts (w : Checks) (master : String) (left right : List Roster) : Roster :=
  ((unionOf master left).settled w).joined ((unionOf master right).settled w)

theorem mem_unionOf_append {α : Type} [LinearOrder α] {kind : Roster → List α} {a : α} :
    a ∈ sortSet ((left ++ right).flatMap kind) ↔
      a ∈ sortSet (left.flatMap kind) ∨ a ∈ sortSet (right.flatMap kind) := by
  simp [List.flatMap_append]

theorem getD_find?_append {keys keys' : List String} :
    ((keys ++ keys').find? (· ≠ "")).getD "" =
      if (keys.find? (· ≠ "")).getD "" = "" then (keys'.find? (· ≠ "")).getD ""
      else (keys.find? (· ≠ "")).getD "" := by
  induction keys with
  | nil => simp
  | cons key keys ih =>
    by_cases hkey : key = ""
    · simpa [hkey] using ih
    · simp [hkey]

section Parts

variable (h : Family w master key (left ++ right))
include h

theorem left_family : Family w master key left := h.of_subset (List.subset_append_left _ _)

theorem right_family : Family w master key right := h.of_subset (List.subset_append_right _ _)

theorem no_phrase_of_not_sameKey (hkey : ¬ (((unionOf master left).rPub = "" ∨
      (unionOf master left).rPub = (unionOf master right).rPub) ∧
        (unionOf master right).rPub ≠ "")) :
    (unionOf master right).rPub = "" ∧ (unionOf master right).recoveries = [] ∧
      (unionOf master right).phraseAdmits = [] := by
  have hright := right_family h
  have hempty : (unionOf master right).rPub = "" := by
    by_contra hne
    have hrightKey := hright.unionOf_rPub_eq.resolve_right hne
    rcases (left_family h).unionOf_rPub_eq with hleft | hleft
    · exact hkey ⟨.inr (hleft.trans hrightKey.symm), hne⟩
    · exact hkey ⟨.inl hleft, hne⟩
  refine ⟨hempty, ?_, ?_⟩
  · by_contra hne
    obtain ⟨hrPub, hkey⟩ := hright.phrase_rPub (.inl hne)
    exact hkey (hrPub.symm.trans hempty)
  · by_contra hne
    obtain ⟨hrPub, hkey⟩ := hright.phrase_rPub (.inr hne)
    exact hkey (hrPub.symm.trans hempty)

theorem joinedParts_rPub :
    (joinedParts w master left right).rPub = (unionOf master (left ++ right)).rPub := by
  have hunion : (unionOf master (left ++ right)).rPub =
      if (unionOf master left).rPub = "" then (unionOf master right).rPub
      else (unionOf master left).rPub := by
    simp only [unionOf, List.map_append]
    exact getD_find?_append
  rw [hunion, joinedParts, Roster.joined]
  simp only [settled_rPub]
  rcases (left_family h).unionOf_rPub_eq with hleft | hleft <;>
    rcases (right_family h).unionOf_rPub_eq with hright | hright <;>
    by_cases hkey : key = "" <;> simp [hleft, hright, hkey]

theorem mem_joinedParts_phraseAdmits {p : PhraseAdmit} :
    p ∈ (joinedParts w master left right).phraseAdmits ↔
      p ∈ ((unionOf master left).settled w).phraseAdmits ∨
        p ∈ ((unionOf master right).settled w).phraseAdmits := by
  rw [joinedParts, Roster.joined]
  simp only [settled_rPub]
  split_ifs with hkey
  · exact mem_pushUnique
  · have hnone := (no_phrase_of_not_sameKey h hkey).2.2
    have hsettled : ((unionOf master right).settled w).phraseAdmits = [] :=
      List.eq_nil_of_subset_nil (hnone ▸ settled_within.phraseAdmits)
    simp [hsettled]

theorem mem_joinedParts_recoveries {rec : Recovery} :
    rec ∈ (joinedParts w master left right).recoveries ↔
      rec ∈ ((unionOf master left).settled w).recoveries ∨
        rec ∈ ((unionOf master right).settled w).recoveries := by
  rw [joinedParts, Roster.joined]
  simp only [settled_rPub]
  split_ifs with hkey
  · exact mem_pushUnique
  · have hnone := (no_phrase_of_not_sameKey h hkey).2.1
    have hsettled : ((unionOf master right).settled w).recoveries = [] :=
      List.eq_nil_of_subset_nil (hnone ▸ settled_within.recoveries)
    rw [hsettled]
    simp

theorem joinedParts_within :
    (joinedParts w master left right).Within (unionOf master (left ++ right)) where
  recoveries := fun _ hrec => mem_unionOf_append.2 <|
    ((mem_joinedParts_recoveries h).1 hrec).imp (settled_within.recoveries ·)
      (settled_within.recoveries ·)
  phraseAdmits := fun _ hp => mem_unionOf_append.2 <|
    ((mem_joinedParts_phraseAdmits h).1 hp).imp (settled_within.phraseAdmits ·)
      (settled_within.phraseAdmits ·)
  consents := fun _ hc => mem_unionOf_append.2 <|
    (mem_pushUnique.1 hc).imp (settled_within.consents ·) (settled_within.consents ·)
  vouches := fun _ hv => mem_unionOf_append.2 <|
    (mem_pushUnique.1 hv).imp (settled_within.vouches ·) (settled_within.vouches ·)
  pendings := fun _ hp => mem_unionOf_append.2 <|
    (mem_pushUnique.1 hp).imp (settled_within.pendings ·) (settled_within.pendings ·)
  legacy := fun _ hl => mem_unionOf_append.2 <|
    (mem_pushUnique.1 hl).imp (settled_within.legacy ·) (settled_within.legacy ·)
  removals := fun _ hrm => mem_unionOf_append.2 <|
    (mem_pushUnique.1 hrm).imp (settled_within.removals ·) (settled_within.removals ·)

omit h in
theorem joinedParts_sorted : (joinedParts w master left right).Sorted where
  recoveries := by
    rw [joinedParts, Roster.joined]
    dsimp only
    split_ifs
    · exact pairwise_sortSet
    · exact (settled_sorted pairwise_sortSet pairwise_sortSet).recoveries
  phraseAdmits := by
    rw [joinedParts, Roster.joined]
    dsimp only
    split_ifs
    · exact pairwise_sortSet
    · exact (settled_sorted pairwise_sortSet pairwise_sortSet).phraseAdmits
  consents := pairwise_sortSet
  vouches := pairwise_sortSet
  pendings := pairwise_sortSet
  legacy := pairwise_sortSet
  removals := pairwise_sortSet

variable (hcaps : (unionOf master (left ++ right)).withinCaps)
include hcaps

omit h in
theorem left_caps : (unionOf master left).Fits :=
  Roster.withinCaps.fits (withinCaps_unionOf (List.subset_append_left _ _) hcaps)

omit h in
theorem right_caps : (unionOf master right).Fits :=
  Roster.withinCaps.fits (withinCaps_unionOf (List.subset_append_right _ _) hcaps)

theorem joinedParts_fits : (joinedParts w master left right).Fits :=
  (joinedParts_within h).fits joinedParts_sorted (Roster.withinCaps.fits hcaps)

theorem joinedParts_newest {rec : Recovery} :
    (joinedParts w master left right).Newest rec ↔ (unionOf master (left ++ right)).Newest rec := by
  have hmem : ∀ rec, rec ∈ (joinedParts w master left right).recoveries ↔
      (unionOf master left).Newest rec ∨ (unionOf master right).Newest rec := fun rec => by
    rw [mem_joinedParts_recoveries h, settled_recoveries, settled_recoveries,
      mem_newest_recoveries (left_caps hcaps).recoveries,
      mem_newest_recoveries (right_caps hcaps).recoveries]
  constructor
  · rintro ⟨hrec, hnew⟩
    refine ⟨(joinedParts_within h).recoveries hrec, fun other hother => ?_⟩
    -- The newest recovery of the other's part is among those joined.
    rcases mem_unionOf_append.1 hother with hother | hother
    · obtain ⟨top, htop⟩ := exists_newest_of_mem (r := unionOf master left) hother
      exact (htop.2 other hother).trans (hnew top ((hmem top).2 (.inl htop)))
    · obtain ⟨top, htop⟩ := exists_newest_of_mem (r := unionOf master right) hother
      exact (htop.2 other hother).trans (hnew top ((hmem top).2 (.inr htop)))
  · intro hnew
    refine ⟨(hmem rec).2 ?_, fun other hother =>
      hnew.2 other ((joinedParts_within h).recoveries hother)⟩
    refine (mem_unionOf_append.1 hnew.1).imp (fun hrec => ?_) fun hrec => ?_
    · exact newest_of_within hnew (unionOf_within (List.subset_append_left _ _)).recoveries hrec
    · exact newest_of_within hnew (unionOf_within (List.subset_append_right _ _)).recoveries hrec

theorem joinedParts_currentRecovery : (joinedParts w master left right).currentRecovery w =
    (unionOf master (left ++ right)).currentRecovery w :=
  currentRecovery_congr settled_master (joinedParts_rPub h) fun _ => joinedParts_newest h hcaps

end Parts

/-- A part settles by itself what its family leaves of it. -/
structure PartSettles (w : Checks) (a b : Roster) : Prop where
  phraseAdmits : ∀ p ∈ a.phraseAdmits, (∀ c, b.currentRecovery w = some c → c.at_ < p.atMs) →
    p ∈ (a.settled w).phraseAdmits
  legacy : ∀ l ∈ a.legacy, b.recoveries = [] → l ∈ (a.settled w).legacy
  vouches : ∀ v ∈ a.vouches, v.base = b.base w → v ∈ (a.settled w).vouches
  pendings : ∀ p ∈ a.pendings, p.base = b.base w → p ∈ (a.settled w).pendings
  removals : ∀ rm ∈ a.removals, rm.base = b.base w → rm ∈ (a.settled w).removals

/-- Settling a part of the family drops nothing that settling the union keeps. -/
theorem Family.partSettles {part : List Roster} (h : Family w master key family)
    (hpart : part ⊆ family) (hcaps : (unionOf master family).withinCaps) :
    PartSettles w (unionOf master part) (unionOf master family) := by
  have hfits := Roster.withinCaps.fits (withinCaps_unionOf hpart hcaps)
  have hwithin : (unionOf master part).Within (unionOf master family) := unionOf_within hpart
  obtain ⟨hvouches, hpendings, hremovals⟩ := h.part_base hpart
  exact {
    phraseAdmits := fun p hp hlater => by
      refine (mem_settled_phraseAdmits hfits).2 ⟨hp, fun c hc => ?_⟩
      -- The family's newest recovery is not older than the part's.
      obtain ⟨rec, hnew, -⟩ := (currentRecovery_eq_some.1 hc).base_mem
      have hrec := hwithin.recoveries hnew.1
      obtain ⟨c', hc'⟩ := exists_currentRecovery (w := w) (List.ne_nil_of_mem hrec)
      obtain ⟨top, htop, -⟩ := (currentRecovery_eq_some.1 hc').base_mem
      calc c.at_ = rec.atMs := ((currentRecovery_eq_some.1 hc).at_eq rec hnew).symm
        _ ≤ top.atMs := htop.2 rec hrec
        _ = c'.at_ := (currentRecovery_eq_some.1 hc').at_eq top htop
        _ < p.atMs := hlater c' hc'
    legacy := fun l hl hnone => (mem_settled_legacy hfits).2
      ⟨hl, List.eq_nil_of_subset_nil (hnone ▸ hwithin.recoveries)⟩
    vouches := fun v hv hbase => (mem_settled_vouches hfits).2 ⟨hv, hvouches v hv hbase⟩
    pendings := fun p hp hbase => (mem_settled_pendings hfits).2 ⟨hp, hpendings p hp hbase⟩
    removals := fun rm hrm hbase => (mem_settled_removals hfits).2 ⟨hrm, hremovals rm hrm hbase⟩ }

theorem isFirst_append {consents consents' joined : List Consent} {c : Consent}
    (hjoined : ∀ c, c ∈ joined ↔ IsFirst consents c ∨ IsFirst consents' c) :
    IsFirst joined c ↔ IsFirst (consents ++ consents') c := by
  constructor
  · rintro ⟨hc, hmin⟩
    refine ⟨List.mem_append.2 (((hjoined c).1 hc).imp (·.1) (·.1)), fun other hother hdevice => ?_⟩
    rcases List.mem_append.1 hother with hother | hother
    · obtain ⟨first, hfirst, hsame⟩ := exists_isFirst hother
      exact (hmin first ((hjoined first).2 (.inl hfirst)) (hsame.trans hdevice)).trans
        (hfirst.2 other hother hsame.symm)
    · obtain ⟨first, hfirst, hsame⟩ := exists_isFirst hother
      exact (hmin first ((hjoined first).2 (.inr hfirst)) (hsame.trans hdevice)).trans
        (hfirst.2 other hother hsame.symm)
  · rintro ⟨hc, hmin⟩
    refine ⟨(hjoined c).2 ((List.mem_append.1 hc).imp (fun hc => ⟨hc, fun other hother => ?_⟩)
      fun hc => ⟨hc, fun other hother => ?_⟩), fun other hother => ?_⟩
    · exact hmin other (List.mem_append_left _ hother)
    · exact hmin other (List.mem_append_right _ hother)
    · exact hmin other (List.mem_append.2 (((hjoined other).1 hother).imp (·.1) (·.1)))

theorem IsFirst.congr {consents consents' : List Consent} {c : Consent}
    (h : ∀ c, c ∈ consents ↔ c ∈ consents') : IsFirst consents c ↔ IsFirst consents' c := by
  simp only [IsFirst, h]

theorem joined_and_iff {α : Type} {a : α} {joined union left right left' right' : List α}
    {kept : Prop} (hjoined : a ∈ joined ↔ a ∈ left' ∨ a ∈ right')
    (hunion : a ∈ union ↔ a ∈ left ∨ a ∈ right) (hsub : left' ⊆ left) (hsub' : right' ⊆ right)
    (hleft : a ∈ left → kept → a ∈ left') (hright : a ∈ right → kept → a ∈ right') :
    a ∈ joined ∧ kept ↔ a ∈ union ∧ kept := by
  rw [hjoined, hunion]
  refine and_congr_left fun hkept => or_congr ?_ ?_
  · exact ⟨fun ha => hsub ha, fun ha => hleft ha hkept⟩
  · exact ⟨fun ha => hsub' ha, fun ha => hright ha hkept⟩

/-- Settling the join of two settled parts settles their union. -/
theorem settled_joinedParts (h : Family w master key (left ++ right))
    (hcaps : (unionOf master (left ++ right)).withinCaps) :
    (joinedParts w master left right).settled w = (unionOf master (left ++ right)).settled w := by
  have hfits := Roster.withinCaps.fits hcaps
  have hfits' := joinedParts_fits h hcaps
  have hcurrent := joinedParts_currentRecovery h hcaps
  have hbase := base_congr hcurrent
  have hleft := h.partSettles (List.subset_append_left _ _) hcaps
  have hright := h.partSettles (List.subset_append_right _ _) hcaps
  have hsorted : ((joinedParts w master left right).settled w).Sorted :=
    settled_sorted joinedParts_sorted.vouches joinedParts_sorted.removals
  have hsorted' : ((unionOf master (left ++ right)).settled w).Sorted :=
    settled_sorted unionOf_sorted.vouches unionOf_sorted.removals
  refine Roster.ext (by simp [joinedParts, Roster.joined, unionOf])
    (by rw [settled_rPub, settled_rPub, joinedParts_rPub h])
    (eq_of_pairwise_lt hsorted.recoveries hsorted'.recoveries fun rec => ?_)
    (eq_of_pairwise_lt hsorted.phraseAdmits hsorted'.phraseAdmits fun p => ?_)
    (eq_of_pairwise_lt hsorted.consents hsorted'.consents fun c => ?_)
    (eq_of_pairwise_lt hsorted.vouches hsorted'.vouches fun v => ?_)
    (eq_of_pairwise_lt hsorted.pendings hsorted'.pendings fun p => ?_)
    (eq_of_pairwise_lt hsorted.legacy hsorted'.legacy fun l => ?_)
    (eq_of_pairwise_lt hsorted.removals hsorted'.removals fun rm => ?_)
  · rw [settled_recoveries, settled_recoveries, mem_newest_recoveries hfits.recoveries,
      mem_newest_recoveries hfits'.recoveries, joinedParts_newest h hcaps]
  · rw [mem_settled_phraseAdmits hfits', mem_settled_phraseAdmits hfits, hcurrent]
    exact joined_and_iff (mem_joinedParts_phraseAdmits h) mem_unionOf_append
      settled_within.phraseAdmits settled_within.phraseAdmits (hleft.phraseAdmits p)
      (hright.phraseAdmits p)
  · have hparts : ∀ c, c ∈ (joinedParts w master left right).consents ↔
        IsFirst (unionOf master left).consents c ∨ IsFirst (unionOf master right).consents c :=
      fun c => by
        rw [← mem_settled_consents (w := w), ← mem_settled_consents (w := w)]
        exact mem_pushUnique
    rw [mem_settled_consents, mem_settled_consents, isFirst_append hparts]
    exact IsFirst.congr fun c => List.mem_append.trans mem_unionOf_append.symm
  · rw [mem_settled_vouches hfits', mem_settled_vouches hfits, hbase]
    exact joined_and_iff mem_pushUnique mem_unionOf_append settled_within.vouches
      settled_within.vouches (hleft.vouches v) (hright.vouches v)
  · rw [mem_settled_pendings hfits', mem_settled_pendings hfits, hbase]
    exact joined_and_iff mem_pushUnique mem_unionOf_append settled_within.pendings
      settled_within.pendings (hleft.pendings p) (hright.pendings p)
  · rw [mem_settled_legacy hfits', mem_settled_legacy hfits, ← currentRecovery_eq_none (w := w),
      hcurrent, currentRecovery_eq_none]
    exact joined_and_iff mem_pushUnique mem_unionOf_append settled_within.legacy
      settled_within.legacy (hleft.legacy l) (hright.legacy l)
  · rw [mem_settled_removals hfits', mem_settled_removals hfits, hbase]
    exact joined_and_iff mem_pushUnique mem_unionOf_append settled_within.removals
      settled_within.removals (hleft.removals rm) (hright.removals rm)

inductive MergeTree where
  | roster (r : Roster)
  | merge (left right : MergeTree)

def MergeTree.leaves : MergeTree → List Roster
  | .roster r => [r]
  | .merge left right => left.leaves ++ right.leaves

def MergeTree.eval (w : Checks) : MergeTree → Roster
  | .roster r => r
  | .merge left right => (left.eval w).merged w (right.eval w)

/-- No part of the family has more consents that nothing in the part names than a compaction keeps.
-/
def NamesConsents (w : Checks) (master : String) (family : List Roster) : Prop :=
  ∀ part ⊆ family, ((unionOf master part).unnamedConsents w).length ≤ maxUnnamedConsents

theorem unionOf_singleton (hcompacted : r.compacted w = r) (hmaster : r.master = master) :
    unionOf master [r] = r := by
  have hsorted : r.Sorted := hcompacted ▸ compacted_sorted
  refine unionOf_sorted.ext hsorted hmaster.symm ?_ ?_ (within_unionOf List.mem_cons_self)
  · by_cases hrPub : r.rPub = "" <;> simp [unionOf, hrPub]
  · constructor <;>
    · intro statement hmem
      simpa [unionOf] using hmem

theorem compacted_unionOf (h : Family w master key family)
    (hcaps : (unionOf master family).withinCaps) (hnames : NamesConsents w master family) :
    (unionOf master family).compacted w = (unionOf master family).settled w :=
  compacted_eq_settled unionOf_sorted (h.signed hcaps) hcaps (hnames family (List.Subset.refl _))

/-- Merging in any shape of tree comes to settling the union once. -/
theorem MergeTree.eval_eq (t : MergeTree) (h : Family w master key t.leaves)
    (hcaps : (unionOf master t.leaves).withinCaps) (hnames : NamesConsents w master t.leaves) :
    t.eval w = (unionOf master t.leaves).settled w := by
  induction t with
  | roster r =>
    have hcompacted := h.compacted r List.mem_cons_self
    have hunion : unionOf master [r] = r :=
      unionOf_singleton hcompacted (h.master_eq r List.mem_cons_self)
    have hsettled := compacted_unionOf h hcaps hnames
    rw [MergeTree.leaves, hunion, hcompacted] at hsettled
    rw [MergeTree.eval, MergeTree.leaves, hunion]
    exact hsettled
  | merge left right ihLeft ihRight =>
    rw [MergeTree.leaves] at h hcaps hnames
    have hsubLeft : left.leaves ⊆ left.leaves ++ right.leaves := List.subset_append_left _ _
    have hsubRight : right.leaves ⊆ left.leaves ++ right.leaves := List.subset_append_right _ _
    rw [MergeTree.eval, ihLeft (h.of_subset hsubLeft) (withinCaps_unionOf hsubLeft hcaps)
        (fun part hpart => hnames part (List.Subset.trans hpart hsubLeft)),
      ihRight (h.of_subset hsubRight) (withinCaps_unionOf hsubRight hcaps)
        (fun part hpart => hnames part (List.Subset.trans hpart hsubRight)), Roster.merged,
      if_neg (by simp [unionOf]), MergeTree.leaves, ← compacted_unionOf h hcaps hnames,
      Roster.compacted, Roster.compacted, settled_joinedParts h hcaps]

theorem unionOf_congr {family' : List Roster} (h : Family w master key family)
    (hsame : ∀ r, r ∈ family ↔ r ∈ family') : unionOf master family = unionOf master family' := by
  have hsub : family ⊆ family' := fun r hr => (hsame r).1 hr
  have hsub' : family' ⊆ family := fun r hr => (hsame r).2 hr
  refine unionOf_sorted.ext unionOf_sorted rfl ?_ (unionOf_within hsub) (unionOf_within hsub')
  by_cases hkey : ∃ r ∈ family, r.rPub ≠ ""
  · obtain ⟨r, hr, hne⟩ := hkey
    rw [h.unionOf_rPub hr hne, (h.of_subset hsub').unionOf_rPub (hsub hr) hne]
  · push Not at hkey
    have hnone : ∀ l : List Roster, l ⊆ family → (unionOf master l).rPub = "" := fun l hl => by
      have hfind : (l.map (·.rPub)).find? (· ≠ "") = none := by
        rw [List.find?_eq_none]
        simpa using fun r hr => hkey r (hl hr)
      simp only [unionOf, hfind, Option.getD_none]
    rw [hnone family (List.Subset.refl _), hnone family' hsub']

/-- Merging a family in any order, grouping and repetition gives one roster, and so one fold. -/
theorem merge_join {t t' : MergeTree} (h : Family w master key t.leaves)
    (hcaps : (unionOf master t.leaves).withinCaps) (hnames : NamesConsents w master t.leaves)
    (hsame : ∀ r, r ∈ t.leaves ↔ r ∈ t'.leaves) :
    t.eval w = t'.eval w ∧ ∀ firstSeen now,
      (t.eval w).fold w firstSeen now = (t'.eval w).fold w firstSeen now := by
  have hsub' : t'.leaves ⊆ t.leaves := fun r hr => (hsame r).2 hr
  have heval : t.eval w = t'.eval w := by
    rw [t.eval_eq h hcaps hnames, t'.eval_eq (h.of_subset hsub') (withinCaps_unionOf hsub' hcaps)
      fun part hpart => hnames part (List.Subset.trans hpart hsub'), unionOf_congr h hsame]
  exact ⟨heval, fun _ _ => by rw [heval]⟩

theorem namesConsents_of_few (h : (unionOf master family).consents.length ≤ maxUnnamedConsents) :
    NamesConsents w master family := by
  intro part hpart
  calc ((unionOf master part).unnamedConsents w).length
      ≤ ((unionOf master part).settled w).consents.length := List.length_filter_le _ _
    _ ≤ (unionOf master part).consents.length := length_settled_consents_le
    _ ≤ (unionOf master family).consents.length :=
      (List.subperm_of_subset nodup_sortSet (unionOf_within hpart).consents).length_le
    _ ≤ maxUnnamedConsents := h

/-- The phrase keeps `a`, which vouches for `z` ahead of its consent. -/
def vouchingSample : Roster where
  master := "m"
  rPub := "k"
  recoveries := [⟨1, ["a"], false, "k", "m"⟩]
  consents := [⟨"a", "a"⟩]
  vouches := [⟨sampleChecks.digest "", "z", "a", "a"⟩]

def consentingSample : Roster where
  master := "m"
  consents := [⟨"z", "z"⟩]

def strangersSample : Roster where
  master := "m"
  consents := [⟨"b", "b"⟩, ⟨"c", "c"⟩, ⟨"d", "d"⟩, ⟨"e", "e"⟩, ⟨"f", "f"⟩, ⟨"g", "g"⟩, ⟨"h", "h"⟩,
    ⟨"i", "i"⟩]

theorem vouchingSample_family {family : List Roster}
    (h : ∀ r ∈ family, r = vouchingSample ∨ r = consentingSample ∨ r = strangersSample) :
    Family sampleChecks "m" "k" family where
  verified := fun r hr => by
    rcases h r hr with rfl | rfl | rfl
    · exact ⟨vouchingSample, none, by decide +kernel⟩
    · exact ⟨consentingSample, none, by decide +kernel⟩
    · exact ⟨strangersSample, none, by decide +kernel⟩
  compacted := fun r hr => by
    rcases h r hr with rfl | rfl | rfl <;> decide +kernel
  master_eq := fun r hr => by
    rcases h r hr with rfl | rfl | rfl <;> rfl
  rPub_eq := fun r hr => by
    rcases h r hr with rfl | rfl | rfl <;> decide
  distinct := fun rec hrec rec' hrec' _ => by
    have hat : ∀ rec ∈ (unionOf "m" family).recoveries, rec.atMs = 1 := fun rec hrec => by
      obtain ⟨r, hr, hrec⟩ := List.mem_flatMap.1 (mem_sortSet.1 hrec)
      rcases h r hr with rfl | rfl | rfl <;>
        simp_all [vouchingSample, consentingSample, strangersSample]
    rw [hat rec hrec, hat rec' hrec']

theorem merge_join_repeated :
    (MergeTree.merge (.roster vouchingSample) (.roster consentingSample)).eval sampleChecks =
      (MergeTree.merge (.merge (.roster consentingSample) (.roster vouchingSample))
        (.roster consentingSample)).eval sampleChecks :=
  (merge_join (vouchingSample_family (by simp [MergeTree.leaves])) (by decide +kernel)
    (namesConsents_of_few (by decide +kernel)) (by simp [MergeTree.leaves, or_comm])).1

/-- Strangers' consents crowd one out that a later roster would have named. -/
theorem not_merge_join_strangers : ¬ ∀ (w : Checks) (master key : String) (t t' : MergeTree),
    Family w master key t.leaves → (unionOf master t.leaves).withinCaps →
    (∀ r, r ∈ t.leaves ↔ r ∈ t'.leaves) → t.eval w = t'.eval w := by
  intro h
  have heval := h sampleChecks "m" "k"
    (.merge (.merge (.roster strangersSample) (.roster consentingSample)) (.roster vouchingSample))
    (.merge (.roster strangersSample) (.merge (.roster consentingSample) (.roster vouchingSample)))
    (vouchingSample_family (by simp [MergeTree.leaves])) (by decide +kernel)
    (by simp [MergeTree.leaves])
  revert heval
  decide +kernel

end Hollow.Identity
