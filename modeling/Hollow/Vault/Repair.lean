import Hollow.Lib.StableSort
import Hollow.Vault.Reconstruct

/-! Vault repair. The scan for content at risk and the plan that rebuilds it both count the records
that are confirmed and online against `k`: the scan reports content below `k`, the plan refuses
it. -/

namespace Hollow.Vault

open StableSort

/-- Which peer should store which shard, as tracked, with the fields repair reads. -/
structure PlacementRecord where
  shardIndex : UInt16
  targetPeer : String
  serverId : String
  confirmed : Bool
deriving DecidableEq

structure UnderReplicatedContent where
  contentId : String
  serverId : String
  k : UInt16
  availableCount : Nat
  totalCount : UInt16
  missingIndices : List UInt16
deriving DecidableEq

structure ShardPlacement where
  shardIndex : UInt16
  targetPeer : String
  shardKey : String
deriving DecidableEq

structure RepairPlan where
  contentId : String
  serverId : String
  missingIndices : List UInt16
  /-- The shards that can be fetched, with their holders. -/
  availableShards : List (UInt16 × String)
  /-- Where the rebuilt shards should be stored. -/
  newTargets : List (UInt16 × String)
deriving DecidableEq

def indicesBelow (n : UInt16) : List UInt16 := (List.range n.toNat).map UInt16.ofNat

def PlacementRecord.available (online : Finset String) (r : PlacementRecord) : Bool :=
  r.confirmed && decide (r.targetPeer ∈ online)

def serverOf (records : List PlacementRecord) : String :=
  (records.head?.map (·.serverId)).getD ""

def scanContent (manifest : VaultManifest) (records : List PlacementRecord)
    (online : Finset String) : Option UnderReplicatedContent :=
  let available := records.countP (·.available online)
  if manifest.k = 0 ∧ manifest.m = 0 then
    if available < 2 ∧ 2 ≤ records.length then
      some {
        contentId := manifest.contentId
        serverId := serverOf records
        k := 0
        availableCount := available
        totalCount := UInt16.ofNat records.length
        missingIndices := (records.filter (!·.available online)).map (·.shardIndex) }
    else none
  else
    -- The addition is one of `u16`.
    let n := manifest.k + manifest.m
    if available < manifest.k.toNat then
      some {
        contentId := manifest.contentId
        serverId := serverOf records
        k := manifest.k
        availableCount := available
        totalCount := n
        missingIndices := (indicesBelow n).filter fun i =>
          !records.any fun r => r.shardIndex == i && r.available online }
    else none

def scanUnderReplicated (manifests : List VaultManifest)
    (placements : String → Option (List PlacementRecord)) (online : Finset String) :
    List UnderReplicatedContent :=
  manifests.filterMap fun manifest =>
    (placements manifest.contentId).bind fun records => scanContent manifest records online

/-- SHA-256 and hex. Two digests compare byte by byte, as the numbers they spell. -/
structure Digests where
  sha256 : List UInt8 → BitVec 256
  hexEncode : BitVec 256 → String

namespace Digests

variable (h : Digests)

def shardDigest (contentId : String) (i : UInt16) : BitVec 256 :=
  h.sha256 (contentId.toUTF8.data.toList ++ [UInt8.ofNat (i.toNat / 256), UInt8.ofNat i.toNat])

def shardKey (contentId : String) (i : UInt16) : String := h.hexEncode (h.shardDigest contentId i)

def peerHash (peer : String) : BitVec 256 := h.sha256 peer.toUTF8.data.toList

end Digests

section Placement

variable (h : Digests) (contentId : String) (members : List String)
  (pledges : String → Option UInt64)

def pledgeOf (member : String) : UInt64 := (pledges member).getD 0

def eligible : List String := sortBy id (members.filter fun m => 0 < pledgeOf pledges m)

/-- The pledges added up in `u64`. -/
def totalPledge : UInt64 := ((eligible members pledges).map (pledgeOf pledges)).sum

/-- A member's weighted share of the shards, rounded up, and at least one. -/
def shardCap (n : Nat) (member : String) : Nat :=
  let total := (totalPledge members pledges).toNat
  max ((n * (pledgeOf pledges member).toNat + total - 1) / total % 2 ^ 64) 1

/-- The shards given to each member so far, and the placements made. -/
structure Placing where
  assignments : String → Nat
  placements : List ShardPlacement

/-- The closest member below its cap takes the shard, the closest of all when none is. -/
def placeShard (n : Nat) (state : Placing) (idx : Nat) : Placing :=
  let shardIdx := UInt16.ofNat idx
  let digest := h.shardDigest contentId shardIdx
  let scored := sortBy (fun m => (digest ^^^ h.peerHash m).toNat) (eligible members pledges)
  let free := scored.find? fun m => state.assignments m < shardCap members pledges n m
  match free.or scored.head? with
  | none => state
  | some peer =>
    { assignments := Function.update state.assignments peer (state.assignments peer + 1)
      placements := state.placements ++ [⟨shardIdx, peer, h.shardKey contentId shardIdx⟩] }

/-- Pledges that add up to nothing in `u64` divide by zero. -/
def computeShardPlacements (n : Nat) : Except String (List ShardPlacement) :=
  if n = 0 then .ok []
  else if eligible members pledges = [] then .ok []
  else if totalPledge members pledges = 0 then .error "attempt to divide by zero"
  else .ok ((List.range n).foldl (placeShard h contentId members pledges n)
    ⟨fun _ => 0, []⟩).placements

/-- A plan, none where the content cannot be rebuilt or misses nothing. -/
def computeRepairPlan (manifest : VaultManifest) (records : List PlacementRecord)
    (online : Finset String) : Except String (Option RepairPlan) :=
  let available := (records.filter (·.available online)).map fun r => (r.shardIndex, r.targetPeer)
  if 0 < manifest.k ∧ available.length < manifest.k.toNat then .ok none
  else
    let n := if 0 < manifest.k then manifest.k.toNat + manifest.m.toNat else records.length
    let missing := (indicesBelow (UInt16.ofNat n)).filter fun i => i ∉ available.map Prod.fst
    if missing = [] then .ok none
    else
      match computeShardPlacements h manifest.contentId members pledges n with
      | .error e => .error e
      | .ok placements =>
        .ok (some {
          contentId := manifest.contentId
          serverId := serverOf records
          missingIndices := missing
          availableShards := available
          newTargets := missing.filterMap fun i =>
            (placements.find? (·.shardIndex = i)).map fun p => (i, p.targetPeer) })

end Placement

variable {h : Digests} {contentId : String} {members : List String}
  {pledges : String → Option UInt64} {manifest : VaultManifest} {manifests : List VaultManifest}
  {records : List PlacementRecord} {placements : String → Option (List PlacementRecord)}
  {online : Finset String} {n : Nat}

@[simp] theorem mem_indicesBelow {n i : UInt16} : i ∈ indicesBelow n ↔ i < n := by
  rw [indicesBelow, List.mem_map]
  constructor
  · rintro ⟨j, hj, rfl⟩
    have hj : j < n.toNat := List.mem_range.1 hj
    rw [UInt16.lt_iff_toNat_lt, UInt16.toNat_ofNat_of_lt' (hj.trans n.toNat_lt)]
    exact hj
  · intro hi
    exact ⟨i.toNat, List.mem_range.2 (UInt16.lt_iff_toNat_lt.1 hi), UInt16.ofNat_toNat⟩

theorem mem_eligible {m : String} :
    m ∈ eligible members pledges ↔ m ∈ members ∧ 0 < pledgeOf pledges m := by
  simp [eligible]

theorem placeShard_eq (h : Digests) (contentId : String) (n : Nat)
    (heligible : eligible members pledges ≠ []) (state : Placing) (idx : Nat) :
    ∃ p : ShardPlacement, p.shardIndex = UInt16.ofNat idx ∧
      p.targetPeer ∈ eligible members pledges ∧
      (placeShard h contentId members pledges n state idx).placements =
        state.placements ++ [p] := by
  unfold placeShard
  dsimp only
  generalize hscored : sortBy (fun m => (h.shardDigest contentId (UInt16.ofNat idx) ^^^
    h.peerHash m).toNat) (eligible members pledges) = scored
  have hperm : scored.Perm (eligible members pledges) := hscored ▸ sortBy_perm
  split
  · rename_i hnone
    have hnil : scored = [] := List.head?_eq_none_iff.1 (Option.or_eq_none_iff.1 hnone).2
    rw [hnil] at hperm
    exact absurd (List.nil_perm.1 hperm) heligible
  · rename_i peer hpeer
    refine ⟨_, rfl, hperm.mem_iff.1 ?_, rfl⟩
    rcases Option.or_eq_some_iff.1 hpeer with hfree | ⟨-, hhead⟩
    · exact List.mem_of_find?_eq_some hfree
    · exact List.mem_of_head? hhead

theorem foldl_placeShard (h : Digests) (contentId : String) (n : Nat)
    (heligible : eligible members pledges ≠ []) (idxs : List Nat) (state : Placing) :
    ∃ ps : List ShardPlacement, ps.map (·.shardIndex) = idxs.map UInt16.ofNat ∧
      (∀ p ∈ ps, p.targetPeer ∈ eligible members pledges) ∧
      (idxs.foldl (placeShard h contentId members pledges n) state).placements =
        state.placements ++ ps := by
  induction idxs generalizing state with
  | nil => exact ⟨[], rfl, by simp, by simp⟩
  | cons idx idxs ih =>
    obtain ⟨p, hindex, htarget, hp⟩ := placeShard_eq h contentId n heligible state idx
    obtain ⟨ps, hindices, htargets, hps⟩ := ih (placeShard h contentId members pledges n state idx)
    refine ⟨p :: ps, ?_, List.forall_mem_cons.2 ⟨htarget, htargets⟩, ?_⟩
    · rw [List.map_cons, List.map_cons, hindex, hindices]
    · rw [List.foldl_cons, hps, hp, List.append_assoc, List.singleton_append]

/-- The indices a plan has to find a place for. -/
def missingIndices (manifest : VaultManifest) (records : List PlacementRecord)
    (online : Finset String) : List UInt16 :=
  (indicesBelow (manifest.k + manifest.m)).filter fun i =>
    i ∉ (records.filter (·.available online)).map (·.shardIndex)

theorem computeRepairPlan_erasure (hk : 0 < manifest.k) :
    computeRepairPlan h members pledges manifest records online =
      if records.countP (·.available online) < manifest.k.toNat then .ok none
      else if missingIndices manifest records online = [] then .ok none
      else
        (computeShardPlacements h manifest.contentId members pledges
          (manifest.k.toNat + manifest.m.toNat)).map fun ps => some {
            contentId := manifest.contentId
            serverId := serverOf records
            missingIndices := missingIndices manifest records online
            availableShards := (records.filter (·.available online)).map fun r =>
              (r.shardIndex, r.targetPeer)
            newTargets := (missingIndices manifest records online).filterMap fun i =>
              (ps.find? (·.shardIndex = i)).map fun p => (i, p.targetPeer) } := by
  have hn : UInt16.ofNat (manifest.k.toNat + manifest.m.toNat) = manifest.k + manifest.m := by
    rw [UInt16.ofNat_add, UInt16.ofNat_toNat, UInt16.ofNat_toNat]
  have hmissing : ((indicesBelow (manifest.k + manifest.m)).filter fun i =>
      i ∉ (records.filter (·.available online)).map
        (Prod.fst ∘ fun r => (r.shardIndex, r.targetPeer))) =
      missingIndices manifest records online := rfl
  unfold computeRepairPlan
  dsimp only
  rw [List.length_map, ← List.countP_eq_length_filter, List.map_map]
  simp only [hk, true_and, if_true, hn, hmissing]
  split_ifs
  · rfl
  · rfl
  · cases computeShardPlacements h manifest.contentId members pledges
      (manifest.k.toNat + manifest.m.toNat) <;> rfl

theorem scanContent_isSome (hk : 0 < manifest.k) :
    (scanContent manifest records online).isSome =
      decide (records.countP (·.available online) < manifest.k.toNat) := by
  have herasure : ¬ (manifest.k = 0 ∧ manifest.m = 0) := fun hzero => by simp [hzero.1] at hk
  unfold scanContent
  dsimp only
  rw [if_neg herasure]
  split_ifs with hfew <;> simp [hfew]

theorem contentId_of_scanContent {item : UnderReplicatedContent}
    (hscan : scanContent manifest records online = some item) :
    item.contentId = manifest.contentId := by
  unfold scanContent at hscan
  dsimp only at hscan
  split_ifs at hscan <;> obtain rfl := Option.some.inj hscan <;> rfl

/-- The scan lists a content just when its own records say it is short. -/
theorem mem_scanUnderReplicated (hunique : (manifests.map (·.contentId)).Nodup)
    (hmem : manifest ∈ manifests) (hrecords : placements manifest.contentId = some records) :
    (∃ item ∈ scanUnderReplicated manifests placements online,
        item.contentId = manifest.contentId) ↔
      (scanContent manifest records online).isSome = true := by
  constructor
  · rintro ⟨item, hitem, hid⟩
    obtain ⟨other, hother, hscan⟩ := List.mem_filterMap.1 hitem
    obtain ⟨rs, hrs, hscan⟩ := Option.bind_eq_some_iff.1 hscan
    have hsame : other = manifest :=
      List.inj_on_of_nodup_map hunique hother hmem ((contentId_of_scanContent hscan).symm.trans hid)
    rw [hsame, hrecords] at hrs
    rw [hsame, ← Option.some.inj hrs] at hscan
    rw [hscan]
    rfl
  · intro hsome
    obtain ⟨item, hitem⟩ := Option.isSome_iff_exists.1 hsome
    refine ⟨item, List.mem_filterMap.2 ⟨manifest, hmem, ?_⟩, contentId_of_scanContent hitem⟩
    rw [hrecords, Option.bind_some, hitem]

def heldIndices (records : List PlacementRecord) (online : Finset String) : Finset UInt16 :=
  ((records.filter (·.available online)).map (·.shardIndex)).toFinset

/-- The indices of the manifest that no online peer is known to hold. -/
def lackingIndices (manifest : VaultManifest) (records : List PlacementRecord)
    (online : Finset String) : Finset Nat :=
  (Finset.range (manifest.k.toNat + manifest.m.toNat)).filter fun i =>
    UInt16.ofNat i ∉ heldIndices records online

def spareMembers (members : List String) (pledges : String → Option UInt64)
    (records : List PlacementRecord) (online : Finset String) : Finset String :=
  (members.filter fun m => 0 < pledgeOf pledges m ∧
    m ∉ (records.filter (·.available online)).map (·.targetPeer)).toFinset

/-- What repair is for: content that misses shards and can be rebuilt is reported, and planned with
each missing index once, at members with no shard of it where they suffice; content that cannot be
rebuilt is not planned. -/
structure Repairs (h : Digests) (members : List String) (pledges : String → Option UInt64)
    (manifests : List VaultManifest) (placements : String → Option (List PlacementRecord))
    (manifest : VaultManifest) (records : List PlacementRecord) (online : Finset String) :
    Prop where
  possible : manifest.k.toNat ≤ (heldIndices records online).card →
    (heldIndices records online).card < manifest.k.toNat + manifest.m.toNat →
    (∃ item ∈ scanUnderReplicated manifests placements online,
        item.contentId = manifest.contentId) ∧
      ∃ plan, computeRepairPlan h members pledges manifest records online = .ok (some plan) ∧
        (∀ i : UInt16, (plan.newTargets.map Prod.fst).count i =
          if i.toNat ∈ lackingIndices manifest records online then 1 else 0) ∧
        ((lackingIndices manifest records online).card ≤
            (spareMembers members pledges records online).card →
          ∀ t ∈ plan.newTargets, t.2 ∈ spareMembers members pledges records online)
  impossible : (heldIndices records online).card < manifest.k.toNat →
    computeRepairPlan h members pledges manifest records online = .ok none

theorem card_heldIndices_le :
    (heldIndices records online).card ≤ records.countP (·.available online) := by
  refine (List.toFinset_card_le _).trans ?_
  rw [List.length_map, List.countP_eq_length_filter]

theorem missingIndices_eq_nil : missingIndices manifest records online = [] ↔
    ∀ i < manifest.k + manifest.m, i ∈ heldIndices records online := by
  simp [missingIndices, heldIndices, List.filter_eq_nil_iff, and_assoc]

theorem computeRepairPlan_eq_none_iff (hk : 0 < manifest.k) :
    computeRepairPlan h members pledges manifest records online = .ok none ↔
      records.countP (·.available online) < manifest.k.toNat ∨
        ∀ i < manifest.k + manifest.m, i ∈ heldIndices records online := by
  rw [computeRepairPlan_erasure hk, ← missingIndices_eq_nil]
  split_ifs with hfew hnothing
  · simp [hfew]
  · simp [hnothing]
  · refine iff_of_false ?_ (not_or.2 ⟨hfew, hnothing⟩)
    cases computeShardPlacements h manifest.contentId members pledges
        (manifest.k.toNat + manifest.m.toNat) <;> simp [Except.map]

/-- Repair works just where nothing is to be repaired: too few records, or all shards held, or
fewer than `k` shards held under a sum of `u16` that leaves no index to miss. -/
theorem repairs_iff (h : Digests) (members : List String) (pledges : String → Option UInt64)
    (manifests : List VaultManifest) (placements : String → Option (List PlacementRecord))
    (manifest : VaultManifest) (records : List PlacementRecord) (online : Finset String)
    (hunique : (manifests.map (·.contentId)).Nodup) (hmem : manifest ∈ manifests)
    (hrecords : placements manifest.contentId = some records)
    (hk : 1 ≤ manifest.k) (_hm : 1 ≤ manifest.m) :
    Repairs h members pledges manifests placements manifest records online ↔
      records.countP (·.available online) < manifest.k.toNat ∨
        manifest.k.toNat + manifest.m.toNat ≤ (heldIndices records online).card ∨
        (heldIndices records online).card < manifest.k.toNat ∧
          ∀ i < manifest.k + manifest.m, i ∈ heldIndices records online := by
  have hk : 0 < manifest.k := by
    rw [UInt16.le_iff_toNat_le] at hk
    exact UInt16.lt_iff_toNat_lt.2 hk
  have hcard : (heldIndices records online).card ≤ records.countP (·.available online) :=
    card_heldIndices_le
  constructor
  · intro hrepairs
    by_cases hfew : (heldIndices records online).card < manifest.k.toNat
    · rcases (computeRepairPlan_eq_none_iff hk).1 (hrepairs.impossible hfew) with hcount | hall
      · exact .inl hcount
      · exact .inr (.inr ⟨hfew, hall⟩)
    · refine .inr (.inl (not_lt.1 fun hlacks => ?_))
      have hreported := (hrepairs.possible (not_lt.1 hfew) hlacks).1
      rw [mem_scanUnderReplicated hunique hmem hrecords, scanContent_isSome hk,
        decide_eq_true_eq] at hreported
      omega
  · intro hcondition
    constructor
    · intro henough hlacks
      rcases hcondition with hcount | hall | ⟨hfew, -⟩ <;> omega
    · intro hfew
      refine (computeRepairPlan_eq_none_iff hk).2 ?_
      rcases hcondition with hcount | hall | ⟨-, hall⟩
      · exact .inl hcount
      · omega
      · exact .inr hall

/-- A file in one data and one parity shard. -/
def pairManifest : VaultManifest where
  contentId := "cid"
  encryptionKey := ""
  nonce := ""
  k := 1
  m := 1
  shardHashes := []

def sampleDigests : Digests where
  sha256 bytes := BitVec.ofNat 256 (bytes.foldl (fun n b => 256 * n + b.toNat) 0)
  hexEncode digest := toString digest.toNat

theorem repairs_of_lostFile : Repairs sampleDigests ["ann", "bob"] (fun _ => some 1) [pairManifest]
    (fun _ => some [⟨0, "ann", "srv", true⟩]) pairManifest [⟨0, "ann", "srv", true⟩] {"bob"} :=
  (repairs_iff _ _ _ _ _ _ _ _ (by decide) List.mem_cons_self rfl (by decide)
    (by decide)).2
    (.inl (by decide))

/-- With its one confirmed shard online the file can be rebuilt, and the scan passes over it. -/
theorem not_repairs : ¬ Repairs sampleDigests ["ann", "bob"] (fun _ => some 1) [pairManifest]
    (fun _ => some [⟨0, "ann", "srv", true⟩]) pairManifest [⟨0, "ann", "srv", true⟩] {"ann"} := by
  intro hrepairs
  obtain ⟨⟨item, hitem, -⟩, -⟩ := hrepairs.possible (by decide) (by decide)
  have hempty : scanUnderReplicated [pairManifest]
      (fun _ => some [⟨0, "ann", "srv", true⟩]) {"ann"} = [] := by decide
  rw [hempty] at hitem
  cases hitem

end Hollow.Vault
