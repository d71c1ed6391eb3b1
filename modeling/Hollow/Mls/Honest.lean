import Mathlib.Data.String.Basic
import Hollow.Mls.Codec
import Hollow.Mls.RateCap

/-! The tally an honest committer writes. It is the one its receivers recompute, so that only the
cap on the masters it charges can refuse the commit. A commit must leave some repairs for later
where its leaf would carry too many histories; `fits_without_overflow_iff` says when the repairs
that are left fit. -/

namespace Hollow.Mls

/-- Repaired masters a commit must leave for later: the first ones by id fit, the rest wait. -/
def carriedOverflow (input : RateInput) (charges : Charges) : List String :=
  let kept := ((priorCarried input).filter fun p => !charges.repaired.contains p.1).length
  charges.repaired.drop (maxCarried - kept)

def Charges.without (charges : Charges) (waiting : List String) : Charges :=
  { charges with repaired := charges.repaired.filter fun n => !waiting.contains n }

/-- The epoch is a `u64`, and the ids of masters are of a length a carried entry may name, as the
ids derived from their keys are. -/
structure RateInput.Typed (input : RateInput) : Prop where
  epoch : input.epoch < 256 ^ 8
  ids : ∀ a ∈ input.adds, 0 < a.master.utf8ByteSize ∧ a.master.utf8ByteSize ≤ maxMasterLen

section Honest

variable {isOwner : String → Bool} {input : RateInput} {charged : Charges} {master : String}
  {day : Nat} {t : Tally} {epochs : List Nat} {leaf : LeafRecord}

theorem fits_of_tally (h : leaf.tally = some t) : t.Typed ∧ t.Fits := by
  rw [LeafRecord.tally, leafTally] at h
  split_ifs at h
  obtain ⟨bytes, -, hbytes⟩ := Option.bind_eq_some_iff.1 h
  obtain ⟨htyped, hfits, -⟩ := Tally.decode_eq_some.1 hbytes
  exact ⟨htyped, hfits⟩

theorem fits_of_statement {leaves : List LeafRecord} {s : Statement}
    (h : s ∈ statements leaves master) : s.epochs.length ≤ tallyDepth ∧ U64s s.epochs := by
  obtain ⟨leaf, -, hs⟩ := List.mem_flatMap.1 h
  obtain ⟨-, tally, htally, hs⟩ := LeafRecord.mem_statements.1 hs
  obtain ⟨htyped, hfits⟩ := fits_of_tally htally
  rcases hs with ⟨-, rfl⟩ | ⟨list, hlist, rfl⟩
  · exact ⟨hfits.epochs, htyped.epochs⟩
  · exact ⟨(hfits.entries _ hlist).epochs, htyped.carried _ hlist⟩

theorem fits_of_readHistory (h : readHistory input master = .ok epochs) :
    epochs.length ≤ tallyDepth ∧ U64s epochs := by
  rcases masterTally_eq_list (readHistory_eq_ok h) with ⟨-, rfl⟩ | ⟨s, hs, rfl, -⟩
  · exact ⟨by decide, by simp [U64s]⟩
  · exact fits_of_statement (mem_candidates.1 (mem_of_newest hs)).1

theorem fits_afterCounted (hepoch : input.epoch < 256 ^ 8) (h : U64s epochs) :
    (Tally.afterCounted epochs input.epoch).length ≤ tallyDepth ∧
      U64s (Tally.afterCounted epochs input.epoch) := by
  refine ⟨List.length_take_le _ _, fun e he => ?_⟩
  rcases List.mem_cons.1 (List.mem_of_mem_take he) with rfl | he
  · exact hepoch
  · exact h e he

theorem priorCarried_fits (input : RateInput) :
    (priorCarried input).length ≤ maxCarried ∧ ((priorCarried input).map Prod.fst).Nodup ∧
      ∀ p ∈ priorCarried input, EntryFits p ∧ U64s p.2 := by
  have hkept : ∃ carried : List (String × List Nat), (priorCarried input).Sublist carried ∧
      carried.length ≤ maxCarried ∧ (carried.map Prod.fst).Nodup ∧
        ∀ p ∈ carried, EntryFits p ∧ U64s p.2 := by
    refine ⟨_, List.filter_sublist, ?_⟩
    cases hfind : input.leaves.find? fun l =>
        l.commitWritten && l.identity = some input.committer with
    | none => simp
    | some leaf =>
      cases htally : leaf.tally with
      | none => simp [htally]
      | some tally =>
        obtain ⟨htyped, hfits⟩ := fits_of_tally htally
        rw [Option.bind_some, htally]
        exact ⟨hfits.carried, hfits.named, fun p hp => ⟨hfits.entries p hp, htyped.carried p hp⟩⟩
  obtain ⟨carried, hsub, hlength, hnodup, hentries⟩ := hkept
  exact ⟨hsub.length_le.trans hlength, hnodup.sublist (hsub.map _),
    fun p hp => hentries p (hsub.subset hp)⟩

variable {fresh : List (String × List Nat)} {own : List Nat}

theorem map_fst_repairedHistories {names : List String}
    (h : repairedHistories input names = .ok fresh) : fresh.map Prod.fst = names := by
  induction names generalizing fresh with
  | nil =>
    cases h
    rfl
  | cons n rest ih =>
    rw [repairedHistories] at h
    split at h
    · cases h
    · split at h
      · cases h
      · rename_i carried hcarried
        cases h
        rw [List.map_cons, ih hcarried]

def uncheckedTally (input : RateInput) (charged : Charges) (day : Nat) (own : List Nat)
    (fresh : List (String × List Nat)) : Tally :=
  ⟨day, if charged.committer then Tally.afterCounted own input.epoch else own,
    sortCarried (fresh ++ (priorCarried input).filter fun p => !charged.repaired.contains p.1)⟩

theorem expectedTally_eq (hown : readHistory input input.committer.master = .ok own)
    (hfresh : repairedHistories input charged.repaired = .ok fresh) :
    (∃ t, expectedTally input charged day = .ok t) ↔
      (uncheckedTally input charged day own fresh).Typed ∧
        (uncheckedTally input charged day own fresh).Fits := by
  rw [expectedTally, hown]
  dsimp only
  rw [hfresh]
  dsimp only
  rw [← Tally.isSome_checked, uncheckedTally]
  cases Tally.checked _ <;> simp

theorem expectedTally_spec (h : expectedTally input charged day = .ok t) :
    t.checked = some t ∧ t.refreshedDay = day ∧ sortCarried t.carried = t.carried := by
  rw [expectedTally] at h
  split at h
  · cases h
  · dsimp only at h
    split at h
    · cases h
    · split at h
      · rename_i tally htally
        cases h
        obtain rfl := Tally.checked_eq_some htally
        exact ⟨htally, rfl, StableSort.sortBy_eq_self StableSort.sorted_sortBy⟩
      · cases h

theorem rateRefusal_expectedTally (h : expectedTally input (charges input) day = .ok t) :
    rateRefusal isOwner input (some (some t)) =
      if judges isOwner input then overCap input (charges input) else none := by
  obtain ⟨-, rfl, hsorted⟩ := expectedTally_spec h
  rw [rateRefusal]
  dsimp only
  rw [h]
  simp [hsorted]

theorem capped_of_overCap {why : RateRefusal} (h : overCap input charged = some why) :
    (charged.committer = true ∧
        capped (masterTally input.leaves input.committer.master input.epoch) input.epoch = true) ∨
      ∃ n ∈ charged.repaired,
        capped (masterTally input.leaves n input.epoch) input.epoch = true := by
  rw [overCap] at h
  dsimp only at h
  split_ifs at h with hcommitter
  · exact .inl (Bool.and_eq_true_iff.1 hcommitter)
  · obtain ⟨n, hn, -⟩ := Option.map_eq_some_iff.1 h
    have hcapped := List.find?_some hn
    exact .inr ⟨n, List.mem_of_find?_eq_some hn, hcapped⟩

theorem nodup_repaired (input : RateInput) : (charges input).repaired.Nodup := List.nodup_dedup _

theorem ids_repaired (htyped : input.Typed) {n : String} (hn : n ∈ (charges input).repaired) :
    0 < n.utf8ByteSize ∧ n.utf8ByteSize ≤ maxMasterLen := by
  simp only [charges, List.mem_dedup, StableSort.mem_sortBy, List.mem_map, List.mem_filter] at hn
  obtain ⟨a, ⟨⟨ha, -⟩, -⟩, rfl⟩ := hn
  exact htyped.ids a ha

theorem filter_not_mem_drop {l : List String} (h : l.Nodup) (n : Nat) :
    (l.filter fun a => !(l.drop n).contains a) = l.take n := by
  conv_lhs => arg 2; rw [← List.take_append_drop n l]
  have hdisjoint : List.Disjoint (l.take n) (l.drop n) := List.disjoint_take_drop h le_rfl
  rw [List.filter_append, List.filter_eq_self.2, List.filter_eq_nil_iff.2, List.append_nil]
  · intro a ha
    simpa using ha
  · intro a ha
    simpa using fun hd => hdisjoint ha hd

theorem length_filter_or {α : Type} {p q : α → Bool} (h : ∀ a, p a = true → q a = false)
    (l : List α) :
    (l.filter fun a => p a || q a).length = (l.filter p).length + (l.filter q).length := by
  induction l with
  | nil => rfl
  | cons a l ih =>
    cases hp : p a with
    | true =>
      simp [hp, h a hp, ih]
      omega
    | false =>
      cases hq : q a <;> simp [hp, hq, ih]
      omega

theorem length_kept_without (input : RateInput) (charged : Charges) :
    ((priorCarried input).filter fun p =>
        !(charged.without (carriedOverflow input charged)).repaired.contains p.1).length =
      ((priorCarried input).filter fun p => !charged.repaired.contains p.1).length +
        ((priorCarried input).filter fun p =>
          (carriedOverflow input charged).contains p.1).length := by
  rw [← length_filter_or]
  · refine congrArg List.length (List.filter_congr fun p _ => ?_)
    simp only [Charges.without]
    by_cases hn : p.1 ∈ carriedOverflow input charged <;> simp [hn]
  · intro p hp
    have hout : p.1 ∉ charged.repaired := by simpa using hp
    simpa using fun hover : p.1 ∈ carriedOverflow input charged => hout (List.mem_of_mem_drop hover)

theorem length_without_le_iff (hnodup : charged.repaired.Nodup) :
    (charged.without (carriedOverflow input charged)).repaired.length +
        ((priorCarried input).filter fun p =>
          !(charged.without (carriedOverflow input charged)).repaired.contains p.1).length ≤
          maxCarried ↔
      ∀ n ∈ carriedOverflow input charged, ∀ list, (n, list) ∉ priorCarried input := by
  have hkept : ((priorCarried input).filter fun p => !charged.repaired.contains p.1).length ≤
      maxCarried := (List.length_filter_le _ _).trans (priorCarried_fits input).1
  have hleft : (charged.without (carriedOverflow input charged)).repaired =
      charged.repaired.take (maxCarried -
        ((priorCarried input).filter fun p => !charged.repaired.contains p.1).length) :=
    filter_not_mem_drop hnodup _
  have hback : ((priorCarried input).filter fun p =>
      (carriedOverflow input charged).contains p.1).length = 0 ↔
        ∀ n ∈ carriedOverflow input charged, ∀ list, (n, list) ∉ priorCarried input := by
    rw [List.length_eq_zero_iff, List.filter_eq_nil_iff]
    constructor
    · intro h n hn list hmem
      exact h _ hmem (by simpa using hn)
    · intro h p hp hmem
      exact h p.1 (by simpa using hmem) p.2 hp
  rw [length_kept_without, hleft, List.length_take, ← hback]
  constructor
  · intro hle
    by_contra hne
    -- An overflow fills the list to its limit, so nothing may come back.
    have hover : carriedOverflow input charged ≠ [] := by
      intro hnil
      rw [hnil] at hne
      simp at hne
    have hlong : maxCarried - ((priorCarried input).filter fun p =>
        !charged.repaired.contains p.1).length < charged.repaired.length := by
      by_contra hshort
      exact hover (List.drop_eq_nil_of_le (not_lt.1 hshort))
    omega
  · intro hzero
    omega

theorem nodup_append_kept {prior : List (String × List Nat)} {names : List String}
    (hfresh : fresh.map Prod.fst = names) (hnames : names.Nodup)
    (hprior : (prior.map Prod.fst).Nodup) :
    ((fresh ++ prior.filter fun p => !names.contains p.1).map Prod.fst).Nodup := by
  rw [List.map_append, hfresh, List.nodup_append]
  refine ⟨hnames, hprior.sublist (List.filter_sublist.map _), fun n hn m hm heq => ?_⟩
  obtain ⟨p, hp, rfl⟩ := List.mem_map.1 hm
  have hout : p.1 ∉ names := by simpa using (List.mem_filter.1 hp).2
  exact hout (heq ▸ hn)

/-- An honest tally fits exactly when its repaired and carried masters are few enough. -/
theorem uncheckedTally_fits_iff (htyped : input.Typed) (hday : day < 256 ^ 4)
    (hnodup : charged.repaired.Nodup)
    (hids : ∀ n ∈ charged.repaired, 0 < n.utf8ByteSize ∧ n.utf8ByteSize ≤ maxMasterLen)
    (hown : readHistory input input.committer.master = .ok own)
    (hfresh : repairedHistories input charged.repaired = .ok fresh) :
    (uncheckedTally input charged day own fresh).Typed ∧
        (uncheckedTally input charged day own fresh).Fits ↔
      charged.repaired.length +
        ((priorCarried input).filter fun p => !charged.repaired.contains p.1).length ≤
          maxCarried := by
  obtain ⟨-, hpriorNodup, hprior⟩ := priorCarried_fits input
  have hfst := map_fst_repairedHistories hfresh
  have howns : ∀ list, (list = own ∨ list = Tally.afterCounted own input.epoch) →
      list.length ≤ tallyDepth ∧ U64s list := by
    have hfits := fits_of_readHistory hown
    rintro list (rfl | rfl)
    · exact hfits
    · exact fits_afterCounted htyped.epoch hfits.2
  have hentries : ∀ p ∈ fresh ++ (priorCarried input).filter fun p =>
      !charged.repaired.contains p.1, EntryFits p ∧ U64s p.2 := by
    intro p hp
    rcases List.mem_append.1 hp with hp | hp
    · obtain ⟨hn, history, hread, heq⟩ := (mem_repairedHistories hfresh).1 hp
      have hcounted := fits_afterCounted htyped.epoch (fits_of_readHistory hread).2
      rw [← heq] at hcounted
      exact ⟨⟨(hids p.1 hn).1, (hids p.1 hn).2, hcounted.1⟩, hcounted.2⟩
    · exact hprior p (List.mem_filter.1 hp).1
  have hperm : (uncheckedTally input charged day own fresh).carried.Perm
      (fresh ++ (priorCarried input).filter fun p => !charged.repaired.contains p.1) :=
    StableSort.sortBy_perm
  have hlength : (uncheckedTally input charged day own fresh).carried.length =
      charged.repaired.length +
        ((priorCarried input).filter fun p => !charged.repaired.contains p.1).length := by
    rw [hperm.length_eq, List.length_append, ← hfst, List.length_map]
  have hepochs := howns (uncheckedTally input charged day own fresh).epochs (by
    rw [uncheckedTally]
    dsimp only
    split_ifs
    · exact .inr rfl
    · exact .inl rfl)
  constructor
  · rintro ⟨-, hfits⟩
    exact hlength ▸ hfits.carried
  · intro hle
    refine ⟨⟨hday, hepochs.2, fun p hp => (hentries p (hperm.subset hp)).2⟩,
      ⟨hepochs.1, hlength ▸ hle, ?_, fun p hp => (hentries p (hperm.subset hp)).1⟩⟩
    exact (hperm.map Prod.fst).nodup_iff.2 (nodup_append_kept hfst hnodup hpriorNodup)

theorem fits_without_overflow_iff (htyped : input.Typed) (hday : day < 256 ^ 4)
    (hown : readHistory input input.committer.master = .ok own) (hfresh : repairedHistories input
      ((charges input).without (carriedOverflow input (charges input))).repaired = .ok fresh) :
    (∃ t, expectedTally input
        ((charges input).without (carriedOverflow input (charges input))) day = .ok t) ↔
      ∀ n ∈ carriedOverflow input (charges input), ∀ list, (n, list) ∉ priorCarried input := by
  rw [expectedTally_eq hown hfresh, uncheckedTally_fits_iff htyped hday
    ((nodup_repaired input).filter _) (fun n hn => ids_repaired htyped (List.mem_filter.1 hn).1)
    hown hfresh, length_without_le_iff (nodup_repaired input)]

/-- A commit that carries the expected tally. -/
theorem honest_commit (isOwner : String → Bool) (input : RateInput) (day : Nat) :
    (∀ t, expectedTally input (charges input) day = .ok t →
        Tally.decode t.encode = some t ∧
          ∀ leaf : LeafNode, leaf.declares = true → leaf.extension = some t.encode →
            ∀ why, rateRefusal isOwner input (some (leafTally leaf)) = some why →
              ((charges input).committer = true ∧
                  capped (masterTally input.leaves input.committer.master input.epoch)
                    input.epoch = true) ∨
                ∃ n ∈ (charges input).repaired,
                  capped (masterTally input.leaves n input.epoch) input.epoch = true) ∧
      (input.Typed → day < 256 ^ 4 → ∀ own fresh,
        readHistory input input.committer.master = .ok own →
          repairedHistories input
              ((charges input).without (carriedOverflow input (charges input))).repaired =
            .ok fresh →
          ((∃ t, expectedTally input
              ((charges input).without (carriedOverflow input (charges input))) day = .ok t) ↔
            ∀ n ∈ carriedOverflow input (charges input), ∀ list,
              (n, list) ∉ priorCarried input)) := by
  refine ⟨fun t ht => ?_, fun htyped hday own fresh hown hfresh =>
    fits_without_overflow_iff htyped hday hown hfresh⟩
  obtain ⟨htyped, hfits⟩ := Tally.checked_eq_self_iff.1 (expectedTally_spec ht).1
  have hdecode := Tally.decode_eq_some.2 ⟨htyped, hfits, rfl⟩
  refine ⟨hdecode, fun leaf hdeclares hextension why hwhy => ?_⟩
  have hleaf : leafTally leaf = some t := by
    rw [leafTally, if_pos hdeclares, hextension, Option.bind_some, hdecode]
  rw [hleaf, rateRefusal_expectedTally ht] at hwhy
  split_ifs at hwhy
  exact capped_of_overCap hwhy

end Honest

/-- `c` repairs the device of `n`, which is at its cap. -/
def cappedRepair : RateInput where
  epoch := 10
  leaves := [⟨0, tallied "c1" "c" [], true⟩, ⟨1, tallied "n1" "n" [9, 8, 7], true⟩]
  committer := ⟨"c1", "c"⟩
  adds := [⟨"n1", "n"⟩]
  removes := [⟨"n1", "n"⟩]
  noProposals := false

theorem expectedTally_cappedRepair :
    expectedTally cappedRepair (charges cappedRepair) 1 = .ok ⟨1, [], [("n", [10, 9, 8])]⟩ := by
  decide +kernel

/-- Its tally comes back whole, a refusal of it names a charged master at its cap, and with nothing
to leave for later a tally is still there. -/
theorem honest_commit_cappedRepair :
    Tally.decode (Tally.mk 1 [] [("n", [10, 9, 8])]).encode = some ⟨1, [], [("n", [10, 9, 8])]⟩ ∧
      (∃ n ∈ (charges cappedRepair).repaired,
        capped (masterTally cappedRepair.leaves n 10) 10 = true) ∧
      ∃ t, expectedTally cappedRepair
        ((charges cappedRepair).without (carriedOverflow cappedRepair (charges cappedRepair))) 1 =
          .ok t := by
  obtain ⟨htally, hwaits⟩ := honest_commit (fun _ => false) cappedRepair 1
  obtain ⟨hdecode, hrefused⟩ := htally _ expectedTally_cappedRepair
  refine ⟨hdecode, ?_, ?_⟩
  · have hcharged := hrefused
      (declaring "c1" "c" (some (Tally.encode ⟨1, [], [("n", [10, 9, 8])]⟩)))
      rfl rfl (.repairAtCap "n") (by decide +kernel)
    apply hcharged.resolve_left
    decide +kernel
  · refine (hwaits ⟨by decide, by decide +kernel⟩ (by decide) [] [("n", [10, 9, 8])]
      (by decide +kernel) (by decide +kernel)).2 ?_
    have hnone : carriedOverflow cappedRepair (charges cappedRepair) = [] := by decide +kernel
    simp [hnone]

def crowdChar (i : Nat) : Char := Char.ofNat (256 + i)

/-- Histories of `k` masters and of `z`. -/
def crowd (k : Nat) : Tally :=
  ⟨1, [], ((List.range k).map crowdChar ++ ['z']).map fun c => (String.singleton c, [9])⟩

def crowdLeaf (k : Nat) : LeafRecord := ⟨0, declaring "c1" "c" (some (crowd k).encode), true⟩

/-- `c`, whose leaf carries the histories of the crowd, repairs a device of `a` and one of `z`. -/
def crowdedRepair (k : Nat) : RateInput where
  epoch := 10
  leaves := [crowdLeaf k, ⟨1, tallied "a1" "a" [], false⟩, ⟨2, tallied "z1" "z" [], false⟩]
  committer := ⟨"c1", "c"⟩
  adds := [⟨"a1", "a"⟩, ⟨"z1", "z"⟩]
  removes := [⟨"a1", "a"⟩, ⟨"z1", "z"⟩]
  noProposals := false

section Crowd

variable {k : Nat} (hk : k < maxCarried)
include hk

theorem toNat_crowdChar {i : Nat} (hi : i ∈ List.range k) : (crowdChar i).toNat = 256 + i := by
  have hlt := List.mem_range.1 hi
  have hmax : maxCarried = 1024 := rfl
  have hvalid : (256 + i).isValidChar := .inl (by omega)
  rw [crowdChar, Char.toNat_ofNat, if_pos hvalid]

theorem crowdChar_ne {i : Nat} (hi : i ∈ List.range k) {c : Char} (hc : c.toNat < 256) :
    crowdChar i ≠ c := by
  rintro rfl
  rw [toNat_crowdChar hk hi] at hc
  omega

theorem crowdName_ne {i : Nat} (hi : i ∈ List.range k) (c : Char) (hc : c.toNat < 256) :
    String.singleton (crowdChar i) ≠ String.singleton c := fun h =>
  crowdChar_ne hk hi hc (by simpa using congrArg String.toList h)

theorem crowd_fits : (crowd k).Typed ∧ (crowd k).Fits := by
  have hentry : ∀ p ∈ (crowd k).carried, ∃ c : Char, p = (String.singleton c, [9]) := fun p hp => by
    obtain ⟨c, -, rfl⟩ := List.mem_map.1 hp
    exact ⟨c, rfl⟩
  refine ⟨⟨show 1 < 256 ^ 4 by decide, by simp [crowd, U64s], fun p hp => ?_⟩,
    ⟨Nat.zero_le _, ?_, ?_, fun p hp => ?_⟩⟩
  · obtain ⟨c, rfl⟩ := hentry p hp
    simp [U64s]
  · simpa [crowd] using hk
  · rw [crowd, List.map_map]
    refine List.Nodup.map (fun c d h => by simpa using congrArg String.toList h) ?_
    refine List.nodup_append.2 ⟨List.nodup_range.map_on fun i hi j hj h => ?_,
      List.nodup_singleton _, fun c hc d hd => ?_⟩
    · have hchars := congrArg Char.toNat h
      rw [toNat_crowdChar hk hi, toNat_crowdChar hk hj] at hchars
      omega
    · obtain ⟨i, hi, rfl⟩ := List.mem_map.1 hc
      rw [List.mem_singleton.1 hd]
      exact crowdChar_ne hk hi (by decide)
  · obtain ⟨c, rfl⟩ := hentry p hp
    have hle := Char.utf8Size_le_four c
    have hmax : maxMasterLen = 64 := rfl
    exact ⟨by simpa using Char.utf8Size_pos c, by simp; omega, by simp [tallyDepth]⟩

theorem tally_crowdLeaf : (crowdLeaf k).tally = some (crowd k) :=
  Tally.decode_eq_some.2 ⟨(crowd_fits hk).1, (crowd_fits hk).2, rfl⟩

theorem ne_of_mem_crowd {p : String × List Nat} (hp : p ∈ (crowd k).carried) :
    p.1 ≠ "a" ∧ p.1 ≠ "c" := by
  obtain ⟨c, hc, rfl⟩ := List.mem_map.1 hp
  rcases List.mem_append.1 hc with hc | hc
  · obtain ⟨i, hi, rfl⟩ := List.mem_map.1 hc
    exact ⟨crowdName_ne hk hi 'a' (by decide), crowdName_ne hk hi 'c' (by decide)⟩
  · rw [List.mem_singleton.1 hc]
    decide

theorem priorCarried_crowd : priorCarried (crowdedRepair k) = (crowd k).carried := by
  have hcarried : priorCarried (crowdedRepair k) = 
      (((crowdLeaf k).tally.map (·.carried)).getD []).filter fun p =>
        p.1 ≠ "c" && wellOrdered p.2 10 && p.2.head?.any fun h =>
          10 < Crdt.saturatingAdd h capEpochs := rfl
  rw [hcarried, tally_crowdLeaf hk]
  refine List.filter_eq_self.2 fun p hp => ?_
  have hne := (ne_of_mem_crowd hk hp).2
  obtain ⟨c, -, rfl⟩ := List.mem_map.1 hp
  have hread : (wellOrdered [9] 10 && [9].head?.any fun h =>
    10 < Crdt.saturatingAdd h capEpochs) = true := by decide
  rw [Bool.and_assoc, hread]
  simpa using hne

theorem carriedOverflow_crowd (hfull : k + 1 = maxCarried) :
    carriedOverflow (crowdedRepair k) (charges (crowdedRepair k)) = ["z"] := by
  have hrepaired : (charges (crowdedRepair k)).repaired = ["a", "z"] := by rfl
  have hkept : ((crowd k).carried.filter fun p => !List.contains ["a", "z"] p.1).length = k := by
    rw [crowd, List.map_append, List.filter_append, List.filter_eq_self.2]
    · simp
    · intro p hp
      obtain ⟨c, hc, rfl⟩ := List.mem_map.1 hp
      obtain ⟨i, hi, rfl⟩ := List.mem_map.1 hc
      have ha := crowdName_ne hk hi 'a' (by decide)
      have hz := crowdName_ne hk hi 'z' (by decide)
      simpa using ⟨ha, hz⟩
  rw [carriedOverflow, priorCarried_crowd hk, hrepaired, hkept, ← hfull, Nat.add_sub_cancel_left]
  rfl

theorem readHistory_crowd {n : String} (hn : n = "a" ∨ n = "c") :
    readHistory (crowdedRepair k) n = .ok [] := by
  have hcarried : ((crowd k).carried.filter (·.1 = n)) = [] := by
    refine List.filter_eq_nil_iff.2 fun p hp => ?_
    have hne := ne_of_mem_crowd hk hp
    rcases hn with rfl | rfl
    · simpa using hne.1
    · simpa using hne.2
  have htally := tally_crowdLeaf hk
  have hleaf : (crowdLeaf k).commitWritten = true ∧ (crowdLeaf k).declares = true ∧
      (crowdLeaf k).master = some "c" ∧ (crowdLeaf k).index = 0 := ⟨rfl, rfl, rfl, rfl⟩
  have hstatements : statements (crowdedRepair k).leaves n =
      if n = "c" then [⟨0, false, (crowd k).epochs⟩] else [] := by
    rcases hn with rfl | rfl <;>
      simp [statements, crowdedRepair, LeafRecord.statements, htally, hcarried, hleaf]
  have hreadable : unreadableOwn (crowdedRepair k).leaves n = false := by
    simp [unreadableOwn, crowdedRepair, htally]
  rw [readHistory, masterTally, hreadable, candidates, hstatements]
  rcases hn with rfl | rfl <;> rfl

/-- A leaf that already carries the most masters leaves no room for one more repair. -/
theorem not_fits_crowdedRepair (hfull : k + 1 = maxCarried) {input : RateInput}
    (hinput : input = crowdedRepair k) :
    input.Typed ∧ ∃ own fresh, readHistory input "c" = .ok own ∧
      repairedHistories input ((charges input).without
        (carriedOverflow input (charges input))).repaired = .ok fresh ∧
      ¬ ∃ t, expectedTally input ((charges input).without
        (carriedOverflow input (charges input))) 1 = .ok t := by
  have hwaits := carriedOverflow_crowd hk hfull
  have hown := readHistory_crowd hk (.inr rfl)
  have htyped : (crowdedRepair k).Typed := by
    refine ⟨show 10 < 256 ^ 8 by decide, ?_⟩
    simp only [crowdedRepair]
    decide
  rw [← hinput] at hwaits hown htyped
  have hfresh : repairedHistories input ((charges input).without
      (carriedOverflow input (charges input))).repaired = .ok [("a", [10])] := by
    have hleft : ((charges input).without ["z"]).repaired = ["a"] := by rw [hinput]; rfl
    rw [hwaits, hleft, repairedHistories, hinput, readHistory_crowd hk (.inl rfl)]
    rfl
  refine ⟨htyped, [], _, hown, hfresh, fun hfits => ?_⟩
  have hcommitter : input.committer.master = "c" := by rw [hinput]; rfl
  refine (fits_without_overflow_iff htyped (by decide) (hcommitter ▸ hown) hfresh).1 hfits "z"
    (hwaits ▸ List.mem_cons_self) [9] ?_
  rw [hinput, priorCarried_crowd hk]
  exact List.mem_map_of_mem (List.mem_append_right _ List.mem_cons_self)

end Crowd

/-- A repair of a master at its cap is refused although its committer is below its own; and with
the masters that must wait left out, a leaf can still carry too many histories. -/
theorem not_honest_commit :
    (expectedTally cappedRepair (charges cappedRepair) 1 = .ok ⟨1, [], [("n", [10, 9, 8])]⟩ ∧
      rateRefusal (fun _ => false) cappedRepair (some (some ⟨1, [], [("n", [10, 9, 8])]⟩)) =
        some (.repairAtCap "n") ∧
      capped (masterTally cappedRepair.leaves "c" 10) 10 = false) ∧
    ∃ input, input = crowdedRepair (maxCarried - 1) ∧ input.Typed ∧
      ∃ own fresh, readHistory input "c" = .ok own ∧
        repairedHistories input ((charges input).without
          (carriedOverflow input (charges input))).repaired = .ok fresh ∧
        ¬ ∃ t, expectedTally input ((charges input).without
          (carriedOverflow input (charges input))) 1 = .ok t :=
  ⟨⟨expectedTally_cappedRepair, by decide +kernel, by decide +kernel⟩, _, rfl,
    not_fits_crowdedRepair (by decide) rfl rfl⟩

end Hollow.Mls
