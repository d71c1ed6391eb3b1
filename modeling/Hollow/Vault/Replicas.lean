import Hollow.Vault.Repair

/-! Content replicated in full. Every holder is placed under shard index zero, and the placement
table has one row for a content and index: saving the placements keeps the last holder's alone, and
a scan that asks for two records to watch a content then watches none of it. -/

namespace Hollow.Vault

open StableSort

inductive VaultMode where
  | fullReplication
  | erasureCoding (k m : Nat)

section Placement

variable (h : Digests) (contentId : String) (members : List String)
  (pledges : String → Option UInt64)

def computeFullReplicationPlacements : List ShardPlacement :=
  (eligible members pledges).map fun m => ⟨0, m, h.shardKey contentId 0⟩

def place : VaultMode → Except String (List ShardPlacement)
  | .fullReplication => .ok (computeFullReplicationPlacements h contentId members pledges)
  | .erasureCoding k m => computeShardPlacements h contentId members pledges (k + m)

end Placement

/-- A row of `vault_placement`, whose primary key is the content id and the shard index. -/
structure PlacementRow extends PlacementRecord where
  contentId : String
  shardKey : String
  storedAt : Int

def insertOrReplace (table : List PlacementRow) (row : PlacementRow) : List PlacementRow :=
  table.filter (fun r => ¬(r.contentId = row.contentId ∧ r.shardIndex = row.shardIndex)) ++ [row]

def placementRow (serverId cid : String) (nowSecs : Int) (p : ShardPlacement) : PlacementRow where
  shardIndex := p.shardIndex
  targetPeer := p.targetPeer
  serverId := serverId
  confirmed := false
  contentId := cid
  shardKey := p.shardKey
  storedAt := nowSecs

def savePlacements (serverId cid : String) (nowSecs : Int) (table : List PlacementRow)
    (placements : List ShardPlacement) : List PlacementRow :=
  placements.foldl (fun table p => insertOrReplace table (placementRow serverId cid nowSecs p))
    table

def loadPlacements (table : List PlacementRow) (cid : String) : List PlacementRecord :=
  (sortBy (·.shardIndex.toNat) (table.filter (·.contentId = cid))).map (·.toPlacementRecord)

def PlacementRow.confirm (cid : String) (shardIndex : UInt16) (r : PlacementRow) : PlacementRow :=
  if r.contentId = cid ∧ r.shardIndex = shardIndex then { r with confirmed := true } else r

def confirmPlacement (table : List PlacementRow) (cid : String) (shardIndex : UInt16) :
    List PlacementRow :=
  table.map (·.confirm cid shardIndex)

/-- The table once placements are saved and some of the holders confirmed their copy, which is the
shard of index zero. -/
def afterReplication (placements : List ShardPlacement) (serverId cid : String) (nowSecs : Int)
    (confirming : List String) (table : List PlacementRow) : List PlacementRow :=
  confirming.foldl (fun table _ => confirmPlacement table cid 0)
    (savePlacements serverId cid nowSecs table placements)

variable {h : Digests} {members : List String} {pledges : String → Option UInt64}
  {serverId cid : String} {nowSecs : Int} {table : List PlacementRow} {confirming : List String}

def rowsOf (table : List PlacementRow) (cid : String) : List PlacementRow :=
  table.filter (·.contentId = cid)

theorem rowsOf_insertOrReplace {p : ShardPlacement} (hp : p.shardIndex = 0)
    (hindex : ∀ r ∈ rowsOf table cid, r.shardIndex = 0) :
    rowsOf (insertOrReplace table (placementRow serverId cid nowSecs p)) cid =
      [placementRow serverId cid nowSecs p] := by
  have hold : (table.filter fun r => ¬(r.contentId = cid ∧ r.shardIndex = p.shardIndex)).filter
      (·.contentId = cid) = [] := by
    rw [List.filter_filter, List.filter_eq_nil_iff]
    intro r hr hkeep
    simp only [Bool.and_eq_true, decide_eq_true_eq, not_and] at hkeep
    have hzero := hindex r (List.mem_filter.2 ⟨hr, by simpa using hkeep.1⟩)
    exact hkeep.2 hkeep.1 (hzero.trans hp.symm)
  rw [rowsOf, insertOrReplace, List.filter_append]
  show (table.filter fun r => ¬(r.contentId = cid ∧ r.shardIndex = p.shardIndex)).filter
    (·.contentId = cid) ++ _ = _
  rw [hold]
  simp [placementRow]

theorem rowsOf_savePlacements (hnew : rowsOf table cid = []) (placements : List ShardPlacement)
    (hplacements : ∀ p ∈ placements, p.shardIndex = 0) :
    rowsOf (savePlacements serverId cid nowSecs table placements) cid =
      (placements.getLast?.map (placementRow serverId cid nowSecs)).toList := by
  induction placements using List.reverseRecOn with
  | nil => exact hnew
  | append_singleton placements p ih =>
    have hrows := ih fun q hq => hplacements q (List.mem_append_left _ hq)
    rw [savePlacements, List.foldl_append, List.foldl_cons, List.foldl_nil, ← savePlacements]
    rw [rowsOf_insertOrReplace (hplacements p (by simp)), List.getLast?_append_cons]
    · rfl
    · intro r hr
      rw [hrows] at hr
      obtain ⟨q, hq, rfl⟩ := Option.map_eq_some_iff.1 (Option.mem_toList.1 hr)
      exact hplacements q (List.mem_append_left _ (List.mem_of_getLast? hq))

theorem rowsOf_confirmPlacement {i : UInt16} : rowsOf (confirmPlacement table cid i) cid =
    (rowsOf table cid).map (·.confirm cid i) := by
  rw [rowsOf, confirmPlacement, List.filter_map, rowsOf]
  refine congrArg _ (List.filter_congr fun r _ => ?_)
  simp only [Function.comp_apply, PlacementRow.confirm]
  split <;> rfl

theorem PlacementRow.confirm_confirm (cid : String) (i : UInt16) (r : PlacementRow) :
    (r.confirm cid i).confirm cid i = r.confirm cid i := by
  by_cases hr : r.contentId = cid ∧ r.shardIndex = i <;> simp [confirm, hr]

theorem rowsOf_confirmed (confirming : List String) (table : List PlacementRow) :
    rowsOf (confirming.foldl (fun table _ => confirmPlacement table cid 0) table) cid =
      (rowsOf table cid).map fun r => if confirming.isEmpty then r else r.confirm cid 0 := by
  induction confirming generalizing table with
  | nil => simp
  | cons m confirming ih =>
    rw [List.foldl_cons, ih, rowsOf_confirmPlacement, List.map_map]
    refine List.map_congr_left fun r _ => ?_
    cases confirming with
    | nil => rfl
    | cons => exact r.confirm_confirm cid 0

/-- All replicas share index 0, so the last target's row is the only one kept. -/
theorem loadPlacements_afterReplication {placements : List ShardPlacement}
    (hplace : place h cid members pledges .fullReplication = .ok placements)
    (hnew : rowsOf table cid = []) :
    loadPlacements (afterReplication placements serverId cid nowSecs confirming table) cid =
      ((eligible members pledges).getLast?.map fun m =>
        (⟨0, m, serverId, !confirming.isEmpty⟩ : PlacementRecord)).toList := by
  obtain rfl := Except.ok.inj hplace
  have hindex : ∀ p ∈ computeFullReplicationPlacements h cid members pledges,
      p.shardIndex = 0 := by
    simp [computeFullReplicationPlacements]
  rw [loadPlacements, ← rowsOf, afterReplication, rowsOf_confirmed,
    rowsOf_savePlacements hnew _ hindex, computeFullReplicationPlacements, List.getLast?_map]
  cases (eligible members pledges).getLast? with
  | none => rfl
  | some m =>
    cases confirming <;> simp [sortBy, placementRow, PlacementRow.confirm]

def Reported (manifests : List VaultManifest) (table : List PlacementRow) (online : Finset String)
    (cid : String) : Prop :=
  ∃ item ∈ scanUnderReplicated manifests (fun cid => some (loadPlacements table cid)) online,
    item.contentId = cid

/-- Content replicated in full is watched: each holder has a record of its own, and the scan reports
the content when fewer than two of its holders, where there are two, confirmed and are online. -/
structure Watched (holders confirming : List String) (serverId cid : String)
    (manifests : List VaultManifest) (table : List PlacementRow) : Prop where
  records : (loadPlacements table cid).Perm
    (holders.map fun m => ⟨0, m, serverId, decide (m ∈ confirming)⟩)
  scanned : ∀ online : Finset String, Reported manifests table online cid ↔
    2 ≤ holders.length ∧ holders.countP (fun m => m ∈ confirming ∧ m ∈ online) < 2

theorem not_reported {manifests : List VaultManifest} (manifest : VaultManifest)
    (hunique : (manifests.map (·.contentId)).Nodup) (hmem : manifest ∈ manifests)
    (hfull : manifest.k = 0 ∧ manifest.m = 0)
    (hfew : (loadPlacements table manifest.contentId).length < 2) (online : Finset String) :
    ¬ Reported manifests table online manifest.contentId := by
  rw [Reported, mem_scanUnderReplicated hunique hmem rfl]
  unfold scanContent
  dsimp only
  rw [if_pos hfull, if_neg (by omega)]
  exact Bool.false_ne_true

/-- Content replicated in full is watched just when at most one member pledges storage. -/
theorem watched_iff (h : Digests) (members : List String) (pledges : String → Option UInt64)
    (serverId : String) (nowSecs : Int) (table : List PlacementRow)
    (manifests : List VaultManifest) (manifest : VaultManifest) (confirming : List String)
    (hunique : (manifests.map (·.contentId)).Nodup) (hmem : manifest ∈ manifests)
    (hfull : manifest.k = 0 ∧ manifest.m = 0) (hnew : rowsOf table manifest.contentId = [])
    (hconfirming : ∀ m ∈ confirming, m ∈ eligible members pledges)
    (placements : List ShardPlacement)
    (hplace : place h manifest.contentId members pledges .fullReplication = .ok placements) :
    Watched (eligible members pledges) confirming serverId manifest.contentId manifests
        (afterReplication placements serverId manifest.contentId nowSecs confirming table) ↔
      (eligible members pledges).length ≤ 1 := by
  have hload : loadPlacements (afterReplication placements serverId manifest.contentId nowSecs
      confirming table) manifest.contentId = ((eligible members pledges).getLast?.map fun m =>
        (⟨0, m, serverId, !confirming.isEmpty⟩ : PlacementRecord)).toList :=
    loadPlacements_afterReplication hplace hnew
  have hlen : (loadPlacements (afterReplication placements serverId manifest.contentId
      nowSecs confirming table) manifest.contentId).length < 2 := by
    rw [hload]
    cases (eligible members pledges).getLast? <;> simp
  constructor
  · intro hwatched
    have := hwatched.records.length_eq
    rw [List.length_map] at this
    omega
  · intro hone
    refine ⟨?_, fun online => iff_of_false ?_ (by omega)⟩
    swap
    · exact not_reported manifest hunique hmem hfull hlen online
    rw [hload]
    match heligible : eligible members pledges with
    | [] => simp
    | [m] =>
      have hflag : (!confirming.isEmpty) = decide (m ∈ confirming) := by
        cases confirming with
        | nil => simp
        | cons m' confirming =>
          have hm' : m' = m := by simpa [heligible] using hconfirming m' List.mem_cons_self
          simp [hm']
      simp [hflag]
    | _ :: _ :: _ =>
      rw [heligible] at hone
      simp at hone

def replicatedManifest : VaultManifest := ⟨"content", "", "", 0, 0, []⟩

theorem watched_single_holder :
    Watched ["a"] ["a"] "server" "content" [replicatedManifest]
      (afterReplication [⟨0, "a", ""⟩] "server" "content" 0 ["a"] []) :=
  (watched_iff ⟨fun _ => 0, fun _ => ""⟩ ["a"] (fun _ => some 5) "server" 0 []
    [replicatedManifest] replicatedManifest ["a"] (by simp) (by simp) ⟨rfl, rfl⟩ rfl (by decide)
    _ (by decide +kernel)).2 (by decide)

/-- Two members pledge, and nobody is online: one record is left, and the scan reports nothing. -/
theorem not_watched :
    ¬ ∀ (h : Digests) (members : List String) (pledges : String → Option UInt64)
      (serverId : String) (nowSecs : Int) (table : List PlacementRow)
      (manifests : List VaultManifest) (manifest : VaultManifest) (confirming : List String)
      (placements : List ShardPlacement), members.Nodup →
      2 ≤ (eligible members pledges).length → (manifests.map (·.contentId)).Nodup →
      manifest ∈ manifests → manifest.k = 0 ∧ manifest.m = 0 →
      rowsOf table manifest.contentId = [] →
      (∀ m ∈ confirming, m ∈ eligible members pledges) →
      place h manifest.contentId members pledges .fullReplication = .ok placements →
      Watched (eligible members pledges) confirming serverId manifest.contentId manifests
        (afterReplication placements serverId manifest.contentId nowSecs confirming table) := by
  intro hall
  have hwatched := hall ⟨fun _ => 0, fun _ => ""⟩ ["a", "b"] (fun _ => some 5) "server" 0 []
    [replicatedManifest] replicatedManifest [] [⟨0, "a", ""⟩, ⟨0, "b", ""⟩] (by decide)
    (by decide +kernel) (by simp) (by simp) ⟨rfl, rfl⟩ rfl (by simp) (by decide +kernel)
  have hreported := (hwatched.scanned ∅).2 ⟨by decide +kernel, by decide +kernel⟩
  refine not_reported replicatedManifest (by simp) (by simp) ⟨rfl, rfl⟩ ?_ ∅ hreported
  decide +kernel

end Hollow.Vault
