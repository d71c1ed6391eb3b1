import Mathlib
import Hollow.Lib.Fallible

/-! Vault shards: a file's ciphertext is split into `k` data shards and `m` parity shards, each
packed with a header that describes it, and put together again from what the holders give back. -/

namespace Hollow.Vault

open Fallible (bind_eq_ok)

abbrev Bytes := List UInt8

structure ShardMetadata where
  shardIndex : UInt16
  contentId : String
  k : UInt16
  m : UInt16
  shardSize : UInt32
  totalDataSize : UInt64
  /-- The hash of the shard's own bytes, empty on shards older than the field. -/
  shardSha256 : String
deriving DecidableEq

/-- The libraries the vault calls: SHA-256 and hex, the JSON of a header, the Reed-Solomon code and
AES-GCM. -/
structure Crates where
  sha256Hex : Bytes → String
  hexEncode : Bytes → String
  hexDecode : String → Except String Bytes
  toVec : ShardMetadata → Bytes
  fromSlice : Bytes → Except String ShardMetadata
  reedSolomon : Nat → Nat → Except String Unit
  /-- The parity shards of `k` data shards of one length. -/
  parity : Nat → Nat → List Bytes → List Bytes
  reconstructData : Nat → Nat → List (Option Bytes) → Except String (List (Option Bytes))
  encrypt : Bytes → Bytes → Bytes → Except String Bytes
  decrypt : Bytes → Bytes → Bytes → Except String Bytes

def u32ToLeBytes (n : Nat) : Bytes :=
  [UInt8.ofNat n, UInt8.ofNat (n / 2 ^ 8), UInt8.ofNat (n / 2 ^ 16), UInt8.ofNat (n / 2 ^ 24)]

def u32FromLeBytes (bytes : Bytes) : Nat :=
  bytes.foldr (fun byte rest => byte.toNat + 2 ^ 8 * rest) 0

namespace Crates

variable (c : Crates)

def shardHash (data : Bytes) : String := c.sha256Hex data

def packShard (metadata : ShardMetadata) (shardData : Bytes) : Bytes :=
  let header := c.toVec metadata
  u32ToLeBytes header.length ++ header ++ shardData

def unpackShard (packed : Bytes) : Except String (ShardMetadata × Bytes) :=
  if packed.length < 4 then .error "Packed shard too short: missing header length"
  else
    let headerLen := u32FromLeBytes (packed.take 4)
    if packed.length < 4 + headerLen then
      .error s!"Packed shard too short: need {headerLen} bytes for header, have {packed.length - 4}"
    else
      match c.fromSlice ((packed.drop 4).take headerLen) with
      | .error e => .error s!"Failed to deserialize shard header: {e}"
      | .ok metadata => .ok (metadata, packed.drop (4 + headerLen))

def shardSizeOf (data : Bytes) (k : Nat) : Nat := (data.length + k - 1) / k

/-- A piece of the data, filled up with zeros. -/
def dataShard (data : Bytes) (shardSize i : Nat) : Bytes :=
  let piece := (data.drop (i * shardSize)).take shardSize
  piece ++ List.replicate (shardSize - piece.length) 0

def dataShards (data : Bytes) (k shardSize : Nat) : List Bytes :=
  (List.range k).map (dataShard data shardSize)

def encodeRaw (data : Bytes) (k m : Nat) : Except String (List Bytes) :=
  if k = 0 then .error "k must be at least 1"
  else if m = 0 then .error "m must be at least 1"
  else if data = [] then .error "Data must not be empty"
  else
    let shards := dataShards data k (shardSizeOf data k)
    match c.reedSolomon k m with
    | .error e => .error s!"Reed-Solomon init failed: {e}"
    | .ok () => .ok (shards ++ c.parity k m shards)

def decodeRaw (shards : List (Option Bytes)) (k m totalDataSize : Nat) : Except String Bytes :=
  if shards.length ≠ k + m then
    .error s!"Expected {k + m} shards (k={k} + m={m}), got {shards.length}"
  else if shards.countP (·.isSome) < k then
    .error s!"Not enough shards: need {k}, have {shards.countP (·.isSome)}"
  else
    match c.reedSolomon k m with
    | .error e => .error s!"Reed-Solomon init failed: {e}"
    | .ok () =>
      match c.reconstructData k m shards with
      | .error e => .error s!"Reed-Solomon reconstruct failed: {e}"
      | .ok shards => .ok (((shards.take k).reduceOption.flatten).take totalDataSize)

def shardHeader (data : Bytes) (k m : Nat) (contentId : String) (shards : List Bytes) (i : Nat)
    (shardData : Bytes) : ShardMetadata where
  shardIndex := UInt16.ofNat i
  contentId
  k := UInt16.ofNat k
  m := UInt16.ofNat m
  shardSize := UInt32.ofNat (shards.headD []).length
  totalDataSize := UInt64.ofNat data.length
  shardSha256 := c.shardHash shardData

def encode (data : Bytes) (k m : Nat) (contentId : String) : Except String (List Bytes) :=
  match c.encodeRaw data k m with
  | .error e => .error e
  | .ok shards => .ok (shards.zipIdx.map fun (shardData, i) =>
      c.packShard (c.shardHeader data k m contentId shards i shardData) shardData)

/-- What the loop over the shards of a download keeps. -/
structure Scan where
  totalDataSize : Option UInt64
  expectedShardSize : Option UInt32
  rawShards : List (Option Bytes)
  presentCount : Nat
  badIndices : List Nat

def Scan.start (k m : Nat) : Scan where
  totalDataSize := none
  expectedShardSize := none
  rawShards := List.replicate (k + m) none
  presentCount := 0
  badIndices := []

def hashFails (metadata : ShardMetadata) (shardData : Bytes) : Bool :=
  metadata.shardSha256 != "" && c.shardHash shardData != metadata.shardSha256

/-- The table after a shard whose header passed: a shard that fails its hash counts as missing. -/
def Scan.absorb (scan : Scan) (metadata : ShardMetadata) (shardData : Bytes) : Scan :=
  let scan := { scan with
    expectedShardSize := some (scan.expectedShardSize.getD metadata.shardSize)
    totalDataSize := some (scan.totalDataSize.getD metadata.totalDataSize) }
  let idx := metadata.shardIndex.toNat
  if c.hashFails metadata shardData then { scan with badIndices := scan.badIndices ++ [idx] }
  else { scan with
    rawShards := scan.rawShards.set idx (some shardData)
    presentCount := scan.presentCount + 1 }

def scanShard (k m : Nat) (scan : Scan) (packed : Bytes) : Except String Scan :=
  match c.unpackShard packed with
  | .error e => .error e
  | .ok (metadata, shardData) =>
    if metadata.k.toNat ≠ k ∨ metadata.m.toNat ≠ m then
      .error s!"Shard metadata mismatch: expected k={k}/m={m}, got k={metadata.k}/m={metadata.m}"
    else if metadata.shardSize ≠ scan.expectedShardSize.getD metadata.shardSize then
      .error (s!"Shard size mismatch: expected {scan.expectedShardSize.getD 0}, " ++
        s!"got {metadata.shardSize}")
    else if metadata.totalDataSize ≠ scan.totalDataSize.getD metadata.totalDataSize then
      .error (s!"Total data size mismatch: expected {scan.totalDataSize.getD 0}, " ++
        s!"got {metadata.totalDataSize}")
    else if k + m ≤ metadata.shardIndex.toNat then
      .error s!"Shard index {metadata.shardIndex} out of range for k={k}+m={m}"
    else .ok (Scan.absorb c scan metadata shardData)

def decode (packedShards : List (Option Bytes)) (k m : Nat) : Except String Bytes :=
  if packedShards.length ≠ k + m then
    .error s!"Expected {k + m} shards (k={k} + m={m}), got {packedShards.length}"
  else
    match packedShards.reduceOption.foldlM (c.scanShard k m) (Scan.start k m) with
    | .error e => .error e
    | .ok scan =>
      if scan.presentCount < k then
        if scan.badIndices ≠ [] then
          .error (s!"Not enough shards: need {k}, have {scan.presentCount}. Failed integrity: " ++
            ", ".intercalate (scan.badIndices.map toString))
        else .error s!"Not enough shards: need {k}, have {scan.presentCount}"
      else
        match scan.totalDataSize with
        | none => .error "No shards present to determine total_data_size"
        | some size => c.decodeRaw scan.rawShards k m size.toNat

/-- The shards of `k` pieces of data. -/
def codeword (k m : Nat) (data : List Bytes) : List Bytes := data ++ c.parity k m data

def firstPresent (k : Nat) (shards : List (Option Bytes)) : List (Nat × Bytes) :=
  (shards.zipIdx.filterMap fun (shard, i) => shard.map (i, ·)).take k

/-- At least `k` shards of one length are present and the first `k` are shards of `data`. -/
structure Rebuilds (k m : Nat) (shards : List (Option Bytes)) (data : List Bytes) : Prop where
  enough : k ≤ shards.countP (·.isSome)
  even : ∃ length, 0 < length ∧ (∀ shard ∈ shards.reduceOption, shard.length = length) ∧
    ∀ piece ∈ data, piece.length = length
  count : data.length = k
  agrees : ∀ entry ∈ firstPresent k shards, (c.codeword k m data)[entry.1]? = some entry.2

/-- The Reed-Solomon code of `k` data and `m` parity shards: its rebuild answers with the data
behind the first `k` shards present, and only with it. -/
structure Recovers (k m : Nat) : Prop where
  new : c.reedSolomon k m = .ok ()
  length_parity : ∀ data length, data.length = k → (∀ piece ∈ data, piece.length = length) →
    (c.parity k m data).length = m ∧ ∀ piece ∈ c.parity k m data, piece.length = length
  complete : ∀ shards data, shards.length = k + m → c.Rebuilds k m shards data →
    ∃ out, c.reconstructData k m shards = .ok out ∧ out.take k = data.map some
  sound : ∀ shards out, shards.length = k + m → c.reconstructData k m shards = .ok out →
    ∃ data, out.take k = data.map some ∧ c.Rebuilds k m shards data

/-- Whether a stored shard reads as one of a split. -/
def fits (k m : Nat) (size : UInt32) (total : UInt64) (packed : Bytes) : Bool :=
  match c.unpackShard packed with
  | .error _ => false
  | .ok (metadata, _) => metadata.k.toNat = k ∧ metadata.m.toNat = m ∧ metadata.shardSize = size ∧
      metadata.totalDataSize = total ∧ metadata.shardIndex.toNat < k + m

/-- The index and the data of a shard that does not fail its own hash. -/
def counted (packed : Bytes) : Option (Nat × Bytes) :=
  match c.unpackShard packed with
  | .error _ => none
  | .ok (metadata, shardData) =>
    if c.hashFails metadata shardData then none else some (metadata.shardIndex.toNat, shardData)

/-- For each index the last copy that counts. -/
def standing (k m : Nat) (packed : List Bytes) : List (Option Bytes) :=
  (List.range (k + m)).map fun i =>
    ((packed.filterMap c.counted).reverse.find? (·.1 = i)).map (·.2)

variable {c} {k m : Nat} {size : UInt32} {total : UInt64} {scan scan' : Scan} {packed : Bytes}
  {shards : List Bytes}

theorem scanShard_eq_ok_iff : c.scanShard k m scan packed = .ok scan' ↔
    ∃ metadata shardData, c.unpackShard packed = .ok (metadata, shardData) ∧
      metadata.k.toNat = k ∧ metadata.m.toNat = m ∧
      metadata.shardSize = scan.expectedShardSize.getD metadata.shardSize ∧
      metadata.totalDataSize = scan.totalDataSize.getD metadata.totalDataSize ∧
      metadata.shardIndex.toNat < k + m ∧ scan' = Scan.absorb c scan metadata shardData := by
  rw [scanShard]
  cases c.unpackShard packed with
  | error e => simp
  | ok read =>
    obtain ⟨metadata, shardData⟩ := read
    simp only [Except.ok.injEq, Prod.mk.injEq]
    constructor
    · intro h
      split_ifs at h with h1 h2 h3 h4
      refine ⟨metadata, shardData, ⟨rfl, rfl⟩, ?_⟩
      push Not at h1 h2 h3 h4
      exact ⟨h1.1, h1.2, h2, h3, h4, (Except.ok.inj h).symm⟩
    · rintro ⟨_, _, ⟨rfl, rfl⟩, hk, hm, hsize, htotal, hindex, rfl⟩
      rw [if_neg (by simp [hk, hm]), if_neg (by simpa using hsize), if_neg (by simpa using htotal),
        if_neg (by simpa using hindex)]

/-- The sizes the scan holds the shards to. -/
def Scan.Sized (size : UInt32) (total : UInt64) (scan : Scan) : Prop :=
  scan.expectedShardSize = some size ∧ scan.totalDataSize = some total

theorem absorb_sized {metadata : ShardMetadata} {shardData : Bytes} :
    Scan.Sized (scan.expectedShardSize.getD metadata.shardSize)
      (scan.totalDataSize.getD metadata.totalDataSize) (Scan.absorb c scan metadata shardData) := by
  simp only [Scan.Sized, Scan.absorb]
  split <;> exact ⟨rfl, rfl⟩

theorem fits_of_scanShard (h : c.scanShard k m scan packed = .ok scan') :
    ∃ size total, scan'.Sized size total ∧ c.fits k m size total packed := by
  obtain ⟨metadata, shardData, hread, hk, hm, hsize, htotal, hindex, rfl⟩ :=
    scanShard_eq_ok_iff.1 h
  refine ⟨_, _, absorb_sized, ?_⟩
  simp [fits, hread, hk, hm, hsize.symm, htotal.symm, hindex]

theorem scanShard_keeps (h : c.scanShard k m scan packed = .ok scan')
    (hsized : scan.Sized size total) : scan'.Sized size total := by
  obtain ⟨metadata, shardData, -, -, -, -, -, -, rfl⟩ := scanShard_eq_ok_iff.1 h
  have habsorbed := @absorb_sized c scan metadata shardData
  rwa [hsized.1, hsized.2] at habsorbed

section Run

variable (h : shards.foldlM (c.scanShard k m) scan = .ok scan')
include h

theorem run_keeps (hsized : scan.Sized size total) : scan'.Sized size total := by
  induction shards generalizing scan with
  | nil =>
    obtain rfl : scan = scan' := Except.ok.inj h
    exact hsized
  | cons packed shards ih =>
    obtain ⟨next, hstep, h⟩ := bind_eq_ok.mp h
    exact ih h (scanShard_keeps hstep hsized)

/-- A scan that ends well read every shard as one of the same split. -/
theorem fits_of_run (hsized : scan'.Sized size total) :
    ∀ packed ∈ shards, c.fits k m size total packed := by
  induction shards generalizing scan with
  | nil => simp
  | cons packed shards ih =>
    obtain ⟨next, hstep, h⟩ := bind_eq_ok.mp h
    obtain ⟨size', total', hsized', hfits⟩ := fits_of_scanShard hstep
    have hkept := run_keeps h hsized'
    obtain rfl : size' = size := Option.some.inj (hkept.1.symm.trans hsized.1)
    obtain rfl : total' = total := Option.some.inj (hkept.2.symm.trans hsized.2)
    exact List.forall_mem_cons.2 ⟨hfits, ih h⟩

theorem run_sized (hshards : shards ≠ []) : ∃ size total, scan'.Sized size total := by
  obtain ⟨packed, rest, rfl⟩ := List.exists_cons_of_ne_nil hshards
  obtain ⟨next, hstep, h⟩ := bind_eq_ok.mp h
  obtain ⟨size, total, hsized, -⟩ := fits_of_scanShard hstep
  exact ⟨size, total, run_keeps h hsized⟩

end Run

/-- Writes into a table of shards, the last one to an index staying. -/
def place (table : List (Option Bytes)) (entries : List (Nat × Bytes)) : List (Option Bytes) :=
  entries.foldl (fun table entry => table.set entry.1 (some entry.2)) table

theorem run_of_fits (scan : Scan) (hfits : ∀ packed ∈ shards, c.fits k m size total packed)
    (hsize : ∀ found ∈ scan.expectedShardSize, found = size)
    (htotal : ∀ found ∈ scan.totalDataSize, found = total) :
    ∃ scan', shards.foldlM (c.scanShard k m) scan = .ok scan' ∧
      scan'.rawShards = place scan.rawShards (shards.filterMap c.counted) ∧
      scan'.presentCount = scan.presentCount + (shards.filterMap c.counted).length ∧
      (shards ≠ [] → scan'.totalDataSize = some total) := by
  induction shards generalizing scan with
  | nil => exact ⟨scan, rfl, rfl, rfl, fun h => absurd rfl h⟩
  | cons packed shards ih =>
    have hhead := hfits packed List.mem_cons_self
    rw [fits] at hhead
    cases hread : c.unpackShard packed with
    | error e =>
      rw [hread] at hhead
      cases hhead
    | ok read =>
      obtain ⟨metadata, shardData⟩ := read
      rw [hread] at hhead
      obtain ⟨hk, hm, hmsize, hmtotal, hindex⟩ := of_decide_eq_true hhead
      have hgetSize : scan.expectedShardSize.getD metadata.shardSize = size := by
        cases hscan : scan.expectedShardSize with
        | none => exact hmsize
        | some found => exact hsize found hscan
      have hgetTotal : scan.totalDataSize.getD metadata.totalDataSize = total := by
        cases hscan : scan.totalDataSize with
        | none => exact hmtotal
        | some found => exact htotal found hscan
      have hstep : c.scanShard k m scan packed = .ok (Scan.absorb c scan metadata shardData) :=
        scanShard_eq_ok_iff.2 ⟨metadata, shardData, hread, hk, hm, by rw [hgetSize, hmsize],
          by rw [hgetTotal, hmtotal], hindex, rfl⟩
      have hnext : (Scan.absorb c scan metadata shardData).Sized size total :=
        hgetSize ▸ hgetTotal ▸ absorb_sized
      obtain ⟨scan', hrun, hraw, hcount, -⟩ :=
        ih _ (fun packed hpacked => hfits packed (List.mem_cons_of_mem _ hpacked))
          (by rw [hnext.1]; rintro _ ⟨⟩; rfl) (by rw [hnext.2]; rintro _ ⟨⟩; rfl)
      refine ⟨scan', ?_, ?_, ?_, fun _ => (run_keeps hrun hnext).2⟩
      · rw [List.foldlM_cons, hstep]
        exact hrun
      · rw [hraw]
        cases hfails : c.hashFails metadata shardData with
        | true => simp [counted, hread, hfails, Scan.absorb]
        | false => simp [counted, hread, hfails, Scan.absorb, place]
      · rw [hcount]
        cases hfails : c.hashFails metadata shardData with
        | true => simp [counted, hread, hfails, Scan.absorb]
        | false =>
          simp [counted, hread, hfails, Scan.absorb]
          omega

theorem place_replicate (n : Nat) (entries : List (Nat × Bytes)) :
    place (List.replicate n none) entries =
      (List.range n).map fun i => (entries.reverse.find? (·.1 = i)).map (·.2) := by
  induction entries using List.reverseRecOn with
  | nil =>
    refine List.ext_getElem (by simp [place]) fun i hi hi' => ?_
    simp [place]
  | append_singleton entries entry ih =>
    have hlast : place (List.replicate n none) (entries ++ [entry]) =
        (place (List.replicate n none) entries).set entry.1 (some entry.2) := by
      simp [place]
    rw [hlast, ih]
    refine List.ext_getElem (by simp) fun i hi hi' => ?_
    by_cases h : entry.1 = i
    · simp [h]
    · simp [h, List.getElem_set_ne h]

theorem standing_eq_place : c.standing k m shards =
    place (List.replicate (k + m) none) (shards.filterMap c.counted) := by
  rw [place_replicate, standing]

theorem length_standing : (c.standing k m shards).length = k + m := by simp [standing]

theorem countP_standing_le :
    (c.standing k m shards).countP (·.isSome) ≤ (shards.filterMap c.counted).length := by
  rw [standing, List.countP_map, List.countP_eq_length_filter]
  have hlength : ((shards.filterMap c.counted).map Prod.fst).length =
      (shards.filterMap c.counted).length := List.length_map _
  rw [← hlength]
  refine (List.subperm_of_subset (List.nodup_range.filter _) ?_).length_le
  intro i hi
  obtain ⟨-, hsome⟩ := List.mem_filter.1 hi
  simp only [Function.comp_apply, Option.isSome_map, List.find?_isSome, List.mem_reverse,
    decide_eq_true_eq] at hsome
  obtain ⟨entry, hentry, rfl⟩ := hsome
  exact List.mem_map_of_mem hentry

theorem reduceOption_map_some (data : List Bytes) : (data.map some).reduceOption = data := by
  simp [List.reduceOption]

/-- Decoding answers exactly with the data behind the first `k` shards that are present. -/
theorem decodeRaw_eq_ok_iff (hcode : c.Recovers k m) {table : List (Option Bytes)}
    (hlength : table.length = k + m) {n : Nat} {out : Bytes} :
    c.decodeRaw table k m n = .ok out ↔
      ∃ data, c.Rebuilds k m table data ∧ out = data.flatten.take n := by
  rw [decodeRaw, if_neg (by simpa using hlength), hcode.new]
  constructor
  · intro h
    split_ifs at h with henough
    dsimp only at h
    cases hrebuild : c.reconstructData k m table with
    | error e =>
      rw [hrebuild] at h
      cases h
    | ok out' =>
      rw [hrebuild] at h
      obtain ⟨data, htake, hdata⟩ := hcode.sound table out' hlength hrebuild
      refine ⟨data, hdata, ?_⟩
      rw [← Except.ok.inj h, htake, reduceOption_map_some]
  · rintro ⟨data, hdata, rfl⟩
    obtain ⟨out', hrebuild, htake⟩ := hcode.complete table data hlength hdata
    rw [if_neg (not_lt.2 hdata.enough)]
    simp only [hrebuild, htake, reduceOption_map_some]

/-- Stored shards decode when they read as one split and what stands of them rebuilds. -/
theorem decode_eq_ok_iff (hcode : c.Recovers k m) {slots : List (Option Bytes)}
    (hlength : slots.length = k + m) (hone : ∃ packed ∈ slots.reduceOption,
      ∃ metadata shardData, c.unpackShard packed = .ok (metadata, shardData) ∧
        metadata.shardSize = size ∧ metadata.totalDataSize = total) {out : Bytes} :
    c.decode slots k m = .ok out ↔
      (∀ packed ∈ slots.reduceOption, c.fits k m size total packed) ∧
        ∃ data, c.Rebuilds k m (c.standing k m slots.reduceOption) data ∧
          out = data.flatten.take total.toNat := by
  obtain ⟨witness, hwitness, metadata, shardData, hread, hmsize, hmtotal⟩ := hone
  have hnonempty : slots.reduceOption ≠ [] := List.ne_nil_of_mem hwitness
  have hfits (h : ∀ packed ∈ slots.reduceOption, c.fits k m size total packed) :
      (c.decode slots k m = .ok out ↔
        ∃ data, c.Rebuilds k m (c.standing k m slots.reduceOption) data ∧
          out = data.flatten.take total.toNat) := by
    obtain ⟨scan, hrun, hraw, hcount, htotal⟩ :=
      run_of_fits (Scan.start k m) h (by simp [Scan.start]) (by simp [Scan.start])
    have htable : scan.rawShards = c.standing k m slots.reduceOption := by
      rw [hraw, standing_eq_place]
      rfl
    rw [decode, if_neg (by simpa using hlength), hrun]
    simp only [htotal hnonempty]
    by_cases hpresent : scan.presentCount < k
    · have hfew : (c.standing k m slots.reduceOption).countP (·.isSome) < k := by
        refine lt_of_le_of_lt countP_standing_le ?_
        rw [hcount] at hpresent
        simpa [Scan.start] using hpresent
      rw [if_pos hpresent]
      constructor
      · intro hok
        split_ifs at hok
      · rintro ⟨data, hdata, -⟩
        exact absurd hdata.enough (not_le.2 hfew)
    · rw [if_neg hpresent, htable, decodeRaw_eq_ok_iff hcode length_standing]
  constructor
  · intro hok
    have hall : ∀ packed ∈ slots.reduceOption, c.fits k m size total packed := by
      rw [decode, if_neg (by simpa using hlength)] at hok
      cases hrun : slots.reduceOption.foldlM (c.scanShard k m) (Scan.start k m) with
      | error e =>
        rw [hrun] at hok
        cases hok
      | ok scan =>
        obtain ⟨size', total', hsized⟩ := run_sized hrun hnonempty
        have hall := fits_of_run hrun hsized
        have hfit := hall witness hwitness
        rw [fits, hread] at hfit
        obtain ⟨-, -, hsame, hsame', -⟩ := of_decide_eq_true hfit
        obtain rfl : size' = size := hsame.symm.trans hmsize
        obtain rfl : total' = total := hsame'.symm.trans hmtotal
        exact hall
    exact ⟨hall, (hfits hall).1 hok⟩
  · rintro ⟨hall, hdata⟩
    exact (hfits hall).2 hdata

end Crates

end Hollow.Vault
