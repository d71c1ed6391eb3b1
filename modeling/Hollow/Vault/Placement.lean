import Hollow.Vault.Repair

/-! Where the shards of a content go. The closest member below its cap takes a shard; the caps are
shares of the pledges rounded up, so together they leave room for every shard. The pledges are added
up in `u64`: a total that does not fit panics where overflow is checked, and wraps elsewhere, to
zero at worst, by which the shares are then divided. -/

namespace Hollow.Vault

open StableSort

variable {h : Digests} {contentId : String} {members members' : List String}
  {pledges : String → Option UInt64} {n : Nat}

def pledged (members : List String) (pledges : String → Option UInt64) : Nat :=
  (members.map fun m => (pledgeOf pledges m).toNat).sum

/-- A share of `n` in proportion to `part` of `whole`, rounded up. -/
def share (n part whole : Nat) : Nat := (n * part + whole - 1) / whole

/-- How a build treats a sum of `u64` that does not fit. -/
inductive Overflow where
  | checked
  | wraps
deriving DecidableEq

def buildPlacements (build : Overflow) (h : Digests) (contentId : String) (members : List String)
    (pledges : String → Option UInt64) (n : Nat) : Except String (List ShardPlacement) :=
  if build = .checked ∧ n ≠ 0 ∧ 2 ^ 64 ≤ pledged members pledges then
    .error "attempt to add with overflow"
  else computeShardPlacements h contentId members pledges n

theorem toNat_sum (l : List UInt64) : l.sum.toNat = (l.map UInt64.toNat).sum % 2 ^ 64 := by
  induction l with
  | nil => rfl
  | cons a l ih => rw [List.sum_cons, List.map_cons, List.sum_cons, UInt64.toNat_add, ih]; omega

theorem sum_eligible : ((eligible members pledges).map fun m => (pledgeOf pledges m).toNat).sum =
    pledged members pledges := by
  rw [eligible, (sortBy_perm.map _).sum_eq, pledged]
  induction members with
  | nil => rfl
  | cons m members ih =>
    by_cases hm : 0 < pledgeOf pledges m
    · rw [List.filter_cons_of_pos (by simpa using hm), List.map_cons, List.sum_cons, ih,
        List.map_cons, List.sum_cons]
    · have hzero : (pledgeOf pledges m).toNat = 0 := by
        rw [UInt64.lt_iff_toNat_lt] at hm
        exact Nat.eq_zero_of_not_pos hm
      rw [List.filter_cons_of_neg (by simpa using hm), ih, List.map_cons, List.sum_cons, hzero,
        Nat.zero_add]

theorem toNat_totalPledge :
    (totalPledge members pledges).toNat = pledged members pledges % 2 ^ 64 := by
  rw [totalPledge, toNat_sum, List.map_map, ← sum_eligible]
  rfl

theorem pledged_perm (hperm : members'.Perm members) :
    pledged members' pledges = pledged members pledges := (hperm.map _).sum_eq

theorem eligible_perm (hperm : members'.Perm members) :
    eligible members' pledges = eligible members pledges :=
  sortBy_eq_of_perm (hperm.filter _) fun _ _ _ _ heq => heq

theorem pledge_le_pledged {m : String} (hm : m ∈ members) :
    (pledgeOf pledges m).toNat ≤ pledged members pledges :=
  List.single_le_sum (fun _ _ => Nat.zero_le _) _ (List.mem_map_of_mem hm)

theorem le_mul_share {n part whole : Nat} (hwhole : 0 < whole) :
    n * part ≤ whole * share n part whole := by
  rw [share]
  have := Nat.div_add_mod (n * part + whole - 1) whole
  have := Nat.mod_lt (n * part + whole - 1) hwhole
  omega

theorem share_le {n part whole : Nat} (hpart : part ≤ whole) (hwhole : 0 < whole) :
    share n part whole ≤ n := by
  rw [share, Nat.div_le_iff_le_mul_add_pred hwhole]
  have := Nat.mul_le_mul_left n hpart
  rw [Nat.mul_comm whole n]
  omega

theorem le_sum_share {α : Type*} (n : Nat) (part : α → Nat) (l : List α)
    (hpos : 0 < (l.map part).sum) :
    n ≤ (l.map fun a => share n (part a) (l.map part).sum).sum := by
  generalize hwhole : (l.map part).sum = whole at hpos
  have hmul : ∀ l : List α, n * (l.map part).sum ≤
      whole * (l.map fun a => share n (part a) whole).sum := by
    intro l
    induction l with
    | nil => simp
    | cons a l ih =>
      rw [List.map_cons, List.sum_cons, List.map_cons, List.sum_cons, Nat.mul_add, Nat.mul_add]
      exact Nat.add_le_add (le_mul_share hpos) ih
  have hl := hmul l
  rw [hwhole, Nat.mul_comm n] at hl
  exact Nat.le_of_mul_le_mul_left hl hpos

/-- The shards handed out so far are counted, and no member is past its cap. -/
structure Placing.Fair (members : List String) (pledges : String → Option UInt64) (n : Nat)
    (state : Placing) : Prop where
  counted : ∀ m, state.assignments m = state.placements.countP (·.targetPeer = m)
  capped : ∀ m ∈ eligible members pledges, state.assignments m ≤ shardCap members pledges n m
  targets : ∀ p ∈ state.placements, p.targetPeer ∈ eligible members pledges

theorem sum_countP_targets {l : List String} (hl : l.Nodup) {ps : List ShardPlacement}
    (hps : ∀ p ∈ ps, p.targetPeer ∈ l) :
    (l.map fun m => ps.countP (·.targetPeer = m)).sum = ps.length := by
  induction ps with
  | nil => simp
  | cons p ps ih =>
    obtain ⟨hp, hps⟩ := List.forall_mem_cons.1 hps
    have hone : (l.map fun m => if p.targetPeer = m then 1 else 0).sum = 1 := by
      rw [← List.sum_toFinset _ hl, Finset.sum_ite_eq, if_pos (List.mem_toFinset.2 hp)]
    simp only [List.countP_cons, decide_eq_true_eq, List.sum_map_add, ih hps, hone,
      List.length_cons]

theorem nodup_eligible (hnodup : members.Nodup) : (eligible members pledges).Nodup :=
  sortBy_perm.nodup_iff.2 (hnodup.filter _)

section Fair

variable {state : Placing} (hstate : state.Fair members pledges n) (hnodup : members.Nodup)
  (hroom : n ≤ ((eligible members pledges).map (shardCap members pledges n)).sum)
include hstate hnodup hroom

theorem Placing.Fair.exists_free (hlt : state.placements.length < n) :
    ∃ m ∈ eligible members pledges, state.assignments m < shardCap members pledges n m := by
  by_contra hfull
  push Not at hfull
  have hsum : ((eligible members pledges).map state.assignments).sum = state.placements.length := by
    rw [← sum_countP_targets (nodup_eligible hnodup) hstate.targets]
    exact congrArg List.sum (List.map_congr_left fun m _ => hstate.counted m)
  have := List.sum_le_sum hfull
  omega

/-- Each shard goes to an eligible member that is below its cap. -/
theorem Placing.Fair.placeShard (hlt : state.placements.length < n) (h : Digests)
    (contentId : String) (idx : Nat) :
    (Vault.placeShard h contentId members pledges n state idx).Fair members pledges n := by
  obtain ⟨m, hm, hfree⟩ := hstate.exists_free hnodup hroom hlt
  unfold Vault.placeShard
  dsimp only
  generalize hscored : sortBy (fun m => (h.shardDigest contentId (UInt16.ofNat idx) ^^^
    h.peerHash m).toNat) (eligible members pledges) = scored
  have hperm : scored.Perm (eligible members pledges) := hscored ▸ sortBy_perm
  have hsome : (scored.find? fun m => state.assignments m < shardCap members pledges n m).isSome :=
    List.find?_isSome.2 ⟨m, hperm.mem_iff.2 hm, by simpa using hfree⟩
  obtain ⟨peer, hpeer⟩ := Option.isSome_iff_exists.1 hsome
  have hmem : peer ∈ eligible members pledges :=
    hperm.mem_iff.1 (List.mem_of_find?_eq_some hpeer)
  have hbelow : state.assignments peer < shardCap members pledges n peer := by
    simpa using List.find?_some hpeer
  rw [hpeer, Option.some_or]
  dsimp only
  refine ⟨fun m => ?_, fun m hm => ?_, ?_⟩
  · by_cases hsame : m = peer
    · subst hsame
      simp [hstate.counted]
    · simp [Function.update_of_ne hsame, hstate.counted, Ne.symm hsame]
  · by_cases hsame : m = peer
    · subst hsame
      simp only [Function.update_self]
      omega
    · simp only [Function.update_of_ne hsame]
      exact hstate.capped m hm
  · intro p hp
    rcases List.mem_append.1 hp with hp | hp
    · exact hstate.targets p hp
    · rw [List.mem_singleton.1 hp]
      exact hmem

theorem Placing.Fair.foldl (heligible : eligible members pledges ≠ []) (idxs : List Nat)
    (hlen : state.placements.length + idxs.length ≤ n) (h : Digests) (contentId : String) :
    (idxs.foldl (Vault.placeShard h contentId members pledges n) state).Fair members pledges n := by
  induction idxs generalizing state with
  | nil => exact hstate
  | cons idx idxs ih =>
    rw [List.length_cons] at hlen
    obtain ⟨p, -, -, hp⟩ := placeShard_eq h contentId n heligible state idx
    refine ih (hstate.placeShard hnodup hroom (by omega) h contentId idx) ?_
    rw [hp, List.length_append, List.length_singleton]
    omega

end Fair

/-- Every index below `n` is placed once, at a member that pledges, and no member has more than its
share of the shards rounded up. -/
structure FairlyPlaced (members : List String) (pledges : String → Option UInt64) (n : Nat)
    (ps : List ShardPlacement) : Prop where
  length : ps.length = n
  below : ∀ p ∈ ps, p.shardIndex.toNat < n
  once : (ps.map (·.shardIndex)).Nodup
  pledging : ∀ p ∈ ps, p.targetPeer ∈ members ∧ 0 < pledgeOf pledges p.targetPeer
  shares : ∀ m ∈ members, ps.countP (·.targetPeer = m) ≤
    max 1 (share n (pledgeOf pledges m).toNat (pledged members pledges))

theorem toNat_index {i : Nat} (hn : n ≤ 65536) (hi : i < n) : (UInt16.ofNat i).toNat = i :=
  UInt16.toNat_ofNat_of_lt' (hi.trans_le hn)

section Fits

variable (hn : n ≤ 65536) (hpos : 0 < pledged members pledges)
  (hfits : pledged members pledges < 2 ^ 64)
include hn hpos hfits

theorem shardCap_eq {m : String} (hm : m ∈ members) : shardCap members pledges n m =
    max (share n (pledgeOf pledges m).toNat (pledged members pledges)) 1 := by
  have hpledge : (pledgeOf pledges m).toNat ≤ pledged members pledges := pledge_le_pledged hm
  have hshare : share n (pledgeOf pledges m).toNat (pledged members pledges) ≤ n :=
    share_le hpledge hpos
  rw [shardCap, toNat_totalPledge, Nat.mod_eq_of_lt hfits, ← share, Nat.mod_eq_of_lt (by omega)]

theorem le_sum_shardCap :
    n ≤ ((eligible members pledges).map (shardCap members pledges n)).sum := by
  have hsum := le_sum_share n (fun m => (pledgeOf pledges m).toNat) (eligible members pledges)
    (by rwa [sum_eligible])
  rw [sum_eligible] at hsum
  refine hsum.trans (List.sum_le_sum fun m hm => ?_)
  rw [shardCap_eq hn hpos hfits (mem_eligible.1 hm).1]
  exact le_max_left _ _

theorem fairlyPlaced_of_fair {state : Placing} (hstate : state.Fair members pledges n)
    (hindices : state.placements.map (·.shardIndex) = (List.range n).map UInt16.ofNat) :
    FairlyPlaced members pledges n state.placements where
  length := by simpa using congrArg List.length hindices
  below p hp := by
    have hmem : p.shardIndex ∈ state.placements.map (·.shardIndex) := List.mem_map_of_mem hp
    rw [hindices] at hmem
    obtain ⟨i, hi, hpi⟩ := List.mem_map.1 hmem
    have hi := List.mem_range.1 hi
    rw [← hpi, toNat_index hn hi]
    exact hi
  once := by
    rw [hindices]
    refine List.Nodup.map_on (fun i hi j hj heq => ?_) List.nodup_range
    have heq := congrArg UInt16.toNat heq
    rwa [toNat_index hn (List.mem_range.1 hi), toNat_index hn (List.mem_range.1 hj)] at heq
  pledging p hp := mem_eligible.1 (hstate.targets p hp)
  shares m hm := by
    by_cases hmem : m ∈ eligible members pledges
    · have hcap := hstate.capped m hmem
      rwa [hstate.counted, shardCap_eq hn hpos hfits hm, max_comm] at hcap
    · have hnone : state.placements.countP (·.targetPeer = m) = 0 := by
        rw [List.countP_eq_zero]
        intro p hp heq
        exact hmem (of_decide_eq_true heq ▸ hstate.targets p hp)
      omega

/-- Pledges that add up are placed, and fairly. -/
theorem computeShardPlacements_fair (h : Digests) (contentId : String) (hnodup : members.Nodup) :
    ∃ ps, computeShardPlacements h contentId members pledges n = .ok ps ∧
      FairlyPlaced members pledges n ps := by
  have heligible : eligible members pledges ≠ [] := by
    intro hnil
    rw [← sum_eligible, hnil] at hpos
    exact absurd hpos (lt_irrefl 0)
  have htotal : totalPledge members pledges ≠ 0 := by
    intro hzero
    have hsum : (totalPledge members pledges).toNat = pledged members pledges :=
      toNat_totalPledge.trans (Nat.mod_eq_of_lt hfits)
    rw [← hsum, hzero] at hpos
    exact absurd hpos (lt_irrefl 0)
  obtain ⟨ps, hindices, -, hps⟩ := foldl_placeShard h contentId n heligible (List.range n)
    ⟨fun _ => 0, []⟩
  have hstart : Placing.Fair members pledges n ⟨fun _ => 0, []⟩ :=
    ⟨fun m => rfl, fun m _ => Nat.zero_le _, fun p hp => nomatch hp⟩
  have hfair := hstart.foldl hnodup (le_sum_shardCap hn hpos hfits) heligible (List.range n)
    (by simp) h contentId
  have hplaced := fairlyPlaced_of_fair hn hpos hfits hfair (by rw [hps]; simpa using hindices)
  unfold computeShardPlacements
  rw [if_neg heligible, if_neg htotal]
  split_ifs with hzero
  · subst hzero
    exact ⟨[], rfl, hplaced⟩
  · exact ⟨_, rfl, hplaced⟩

end Fits

/-- The order in which the members are listed does not matter. -/
theorem computeShardPlacements_perm (hperm : members'.Perm members) :
    computeShardPlacements h contentId members' pledges n =
      computeShardPlacements h contentId members pledges n := by
  have htotal : totalPledge members' pledges = totalPledge members pledges := by
    rw [totalPledge, eligible_perm hperm, totalPledge]
  have hcap : shardCap members' pledges = shardCap members pledges := by
    unfold shardCap
    rw [htotal]
  have hshard : placeShard h contentId members' pledges n =
      placeShard h contentId members pledges n := by
    unfold placeShard
    rw [eligible_perm hperm, hcap]
  unfold computeShardPlacements
  rw [eligible_perm hperm, htotal, hshard]

/-- In every build the placements are computed, fair and the same for every order of the members. -/
def PlacesFairly (h : Digests) (contentId : String) (members : List String)
    (pledges : String → Option UInt64) (n : Nat) : Prop :=
  ∀ build, ∃ ps, buildPlacements build h contentId members pledges n = .ok ps ∧
    FairlyPlaced members pledges n ps ∧
    ∀ members', members'.Perm members →
      buildPlacements build h contentId members' pledges n = .ok ps

/-- Placement is fair just when the pledges add up in `u64`, or nothing is placed. -/
theorem placesFairly_iff (h : Digests) (contentId : String) (n : Nat) (hn : n ≤ 65536)
    (members : List String) (hnodup : members.Nodup) (pledges : String → Option UInt64)
    (hpledge : ∃ m ∈ members, 0 < pledgeOf pledges m) :
    PlacesFairly h contentId members pledges n ↔ n = 0 ∨ pledged members pledges < 2 ^ 64 := by
  constructor
  · intro hfair
    obtain ⟨ps, hps, -⟩ := hfair .checked
    by_contra hover
    rw [not_or, not_lt] at hover
    rw [buildPlacements, if_pos ⟨rfl, hover⟩] at hps
    cases hps
  · intro hfits build
    have hbuild : ∀ members', members'.Perm members →
        buildPlacements build h contentId members' pledges n =
          computeShardPlacements h contentId members pledges n := by
      intro members' hperm
      rw [buildPlacements, if_neg, computeShardPlacements_perm hperm]
      rw [pledged_perm hperm]
      omega
    have hpos : 0 < pledged members pledges := by
      obtain ⟨m, hm, hpos⟩ := hpledge
      exact (UInt64.lt_iff_toNat_lt.1 hpos).trans_le (pledge_le_pledged hm)
    rcases Nat.eq_zero_or_pos n with rfl | hpos'
    · refine ⟨[], ?_, ?_, ?_⟩
      · rw [hbuild members (.refl _)]
        rfl
      · exact ⟨rfl, by simp, by simp, by simp, by simp⟩
      · intro members' hperm
        rw [hbuild members' hperm]
        rfl
    · obtain ⟨ps, hps, hplaced⟩ := computeShardPlacements_fair hn hpos (by omega) h contentId
        hnodup
      refine ⟨ps, (hbuild members (.refl _)).trans hps, hplaced, fun members' hperm => ?_⟩
      exact (hbuild members' hperm).trans hps

theorem placesFairly_three :
    PlacesFairly ⟨fun _ => 0, fun _ => ""⟩ "content" ["a", "b", "c"]
      (fun m => [("a", 1), ("b", 2), ("c", 3)].lookup m) 5 :=
  (placesFairly_iff _ _ 5 (by decide) _ (by decide) _ ⟨"a", by decide⟩).2 (.inr (by decide))

/-- Two pledges of half the range of `u64` divide by zero. -/
theorem not_placesFairly :
    buildPlacements .wraps ⟨fun _ => 0, fun _ => ""⟩ "content" ["a", "b"]
        (fun m => [("a", 0x8000000000000000), ("b", 0x8000000000000000)].lookup m) 1 =
      .error "attempt to divide by zero" ∧
    ¬ ∀ (h : Digests) (contentId : String) (n : Nat) (members : List String)
        (pledges : String → Option UInt64), n ≤ 65536 → members.Nodup →
        (∃ m ∈ members, 0 < pledgeOf pledges m) → PlacesFairly h contentId members pledges n := by
  have hpanic : buildPlacements .wraps ⟨fun _ => 0, fun _ => ""⟩ "content" ["a", "b"]
      (fun m => [("a", 0x8000000000000000), ("b", 0x8000000000000000)].lookup m) 1 =
      .error "attempt to divide by zero" := by decide +kernel
  refine ⟨hpanic, fun hall => ?_⟩
  obtain ⟨ps, hps, -⟩ := hall ⟨fun _ => 0, fun _ => ""⟩ "content" 1 ["a", "b"]
    (fun m => [("a", 0x8000000000000000), ("b", 0x8000000000000000)].lookup m) (by decide)
    (by decide) ⟨"a", by decide +kernel⟩ .wraps
  cases hpanic.symm.trans hps

end Hollow.Vault
