import Hollow.Crdt.Text
import Hollow.Vault.Erasure

/-! Downloads from the vault. The manifest's content id decides whether what was rebuilt is the
file, so a download yields the file or an error; which arrays of shards yield the file is settled
here. -/

namespace Hollow.Vault

open Hollow.Crdt

/-- The manifest fields a download reads. -/
structure VaultManifest where
  contentId : String
  encryptionKey : String
  nonce : String
  k : UInt16
  m : UInt16
  /-- The hash of each stored shard, empty in older manifests. -/
  shardHashes : List String

namespace Crates

variable (c : Crates)

def contentId (data : Bytes) : String := c.sha256Hex data

def aesDecrypt (ciphertext key nonce : Bytes) : Except String Bytes :=
  match c.decrypt key nonce ciphertext with
  | .error e => .error s!"AES-256-GCM decryption failed: {e}"
  | .ok plaintext => .ok plaintext

def rebuildCiphertext (manifest : VaultManifest) (packedShards : List (Option Bytes)) :
    Except String Bytes :=
  if manifest.k = 0 ∧ manifest.m = 0 then
    match packedShards.reduceOption.head? with
    | none => .error "No shard data available for replication mode"
    | some shard => .ok shard
  else c.decode packedShards manifest.k.toNat manifest.m.toNat

def reconstructFile (manifest : VaultManifest) (packedShards : List (Option Bytes)) :
    Except String Bytes :=
  match c.hexDecode manifest.encryptionKey with
  | .error e => .error s!"Invalid AES key hex: {e}"
  | .ok key =>
    match c.hexDecode manifest.nonce with
    | .error e => .error s!"Invalid nonce hex: {e}"
    | .ok nonce =>
      if key.length ≠ 32 then .error "AES key must be 32 bytes"
      else if nonce.length ≠ 12 then .error "AES nonce must be 12 bytes"
      else
        match c.rebuildCiphertext manifest packedShards with
        | .error e => .error e
        | .ok ciphertext =>
          if c.contentId ciphertext ≠ manifest.contentId then
            .error "reconstructed content does not match its id"
          else c.aesDecrypt ciphertext key nonce

end Crates

/-- A file as its uploader split it. -/
structure Upload (c : Crates) where
  key : Bytes
  nonce : Bytes
  content : Bytes
  ciphertext : Bytes
  k : Nat
  m : Nat
  shards : List Bytes
  length_key : key.length = 32
  length_nonce : nonce.length = 12
  one_le_k : 1 ≤ k
  one_le_m : 1 ≤ m
  bounded : k + m ≤ 256
  encrypted : c.encrypt key nonce content = .ok ciphertext
  encoded : c.encode ciphertext k m (c.contentId ciphertext) = .ok shards

namespace Upload

variable {c : Crates} (u : Upload c)

def manifest : VaultManifest where
  contentId := c.contentId u.ciphertext
  encryptionKey := c.hexEncode u.key
  nonce := c.hexEncode u.nonce
  k := UInt16.ofNat u.k
  m := UInt16.ofNat u.m
  shardHashes := u.shards.map c.contentId

def pieces : List Bytes := Crates.dataShards u.ciphertext u.k (Crates.shardSizeOf u.ciphertext u.k)

def raw : List Bytes := c.codeword u.k u.m u.pieces

def header (i : Nat) (shardData : Bytes) : ShardMetadata :=
  c.shardHeader u.ciphertext u.k u.m (c.contentId u.ciphertext) u.raw i shardData

/-- What is assumed of the libraries: hex, headers and AES-GCM are read back, no other bytes have
the ciphertext's hash, and any `k` shards give the data. -/
structure Trusts : Prop where
  key_read : c.hexDecode (c.hexEncode u.key) = .ok u.key
  nonce_read : c.hexDecode (c.hexEncode u.nonce) = .ok u.nonce
  header_read : ∀ i shardData, u.raw[i]? = some shardData →
    c.fromSlice (c.toVec (u.header i shardData)) = .ok (u.header i shardData) ∧
      (c.toVec (u.header i shardData)).length < 2 ^ 32
  decrypts : c.decrypt u.key u.nonce u.ciphertext = .ok u.content
  length_lt : u.ciphertext.length < 2 ^ 64
  collision_free : ∀ other, c.contentId other = c.contentId u.ciphertext → other = u.ciphertext
  code : c.Recovers u.k u.m

def shardSize : UInt32 := UInt32.ofNat (u.raw.headD []).length

def totalDataSize : UInt64 := UInt64.ofNat u.ciphertext.length

/-- The slots that hold the shard of their index. -/
def honest (slots : List (Option Bytes)) : List Nat :=
  (List.range (u.k + u.m)).filter fun i => slots[i]? = some u.shards[i]?

/-- Whether a copy that counts is the shard of its slot. -/
def CountsOnlyHonest (slots : List (Option Bytes)) : Prop :=
  ∀ (i : Nat) (packed : Bytes), slots[i]? = some (some packed) →
    u.shards[i]? = some packed ∨ c.counted packed = none

/-- Every filled slot reads as a shard of this split, and the copies that count are of one length,
the first `k` of them the shards of pieces that begin with the ciphertext. -/
structure Unspoiled (slots : List (Option Bytes)) : Prop where
  fits : ∀ packed ∈ slots.reduceOption, c.fits u.k u.m u.shardSize u.totalDataSize packed
  rebuilds : ∃ data, c.Rebuilds u.k u.m (c.standing u.k u.m slots.reduceOption) data ∧
    data.flatten.take u.ciphertext.length = u.ciphertext

end Upload

theorem u32FromLeBytes_toLeBytes {n : Nat} (h : n < 2 ^ 32) :
    u32FromLeBytes (u32ToLeBytes n) = n := by
  simp only [u32FromLeBytes, u32ToLeBytes, List.foldr_cons, List.foldr_nil, UInt8.toNat_ofNat']
  omega

theorem Crates.unpackShard_packShard {c : Crates} {metadata : ShardMetadata} {shardData : Bytes}
    (hread : c.fromSlice (c.toVec metadata) = .ok metadata)
    (hlength : (c.toVec metadata).length < 2 ^ 32) :
    c.unpackShard (c.packShard metadata shardData) = .ok (metadata, shardData) := by
  have htake : (c.packShard metadata shardData).take 4 = u32ToLeBytes (c.toVec metadata).length :=
    rfl
  have hdrop : (c.packShard metadata shardData).drop 4 = c.toVec metadata ++ shardData := rfl
  have hlen : (c.packShard metadata shardData).length =
      4 + (c.toVec metadata).length + shardData.length := by
    simp [packShard, u32ToLeBytes]
    omega
  have hrest : (c.packShard metadata shardData).drop (4 + (c.toVec metadata).length) =
      shardData := by
    rw [← List.drop_drop, hdrop, List.drop_left]
  rw [unpackShard, if_neg (by omega), htake, u32FromLeBytes_toLeBytes hlength]
  simp only
  rw [if_neg (by omega), hdrop, List.take_left, hread, hrest]

namespace Crates

variable {data : Bytes} {shardSize : Nat}

theorem length_dataShard {i : Nat} : (dataShard data shardSize i).length = shardSize := by
  simp [dataShard]

theorem dataShards_succ {k : Nat} :
    dataShards data (k + 1) shardSize =
      dataShard data shardSize 0 :: dataShards (data.drop shardSize) k shardSize := by
  rw [dataShards, List.range_succ_eq_map, List.map_cons, List.map_map, dataShards]
  refine congrArg _ (List.map_congr_left fun i _ => ?_)
  simp [dataShard, Nat.add_mul, Nat.add_comm]

theorem take_flatten_dataShards {k : Nat} (h : data.length ≤ k * shardSize) :
    ((dataShards data k shardSize).flatten).take data.length = data := by
  induction k generalizing data with
  | zero =>
    obtain rfl : data = [] := List.length_eq_zero_iff.1 (by omega)
    rfl
  | succ k ih =>
    rw [dataShards_succ, List.flatten_cons, List.take_append]
    rw [length_dataShard]
    by_cases hshort : data.length ≤ shardSize
    · have hfirst : dataShard data shardSize 0 =
          data ++ List.replicate (shardSize - data.length) 0 := by
        simp [dataShard, List.take_of_length_le hshort]
      rw [hfirst, List.take_left, Nat.sub_eq_zero_of_le hshort, List.take_zero, List.append_nil]
    · have hfirst : dataShard data shardSize 0 = data.take shardSize := by
        simp [dataShard, Nat.min_eq_left (le_of_not_ge hshort)]
      have hlength : (data.drop shardSize).length ≤ k * shardSize := by
        rw [List.length_drop, Nat.sub_le_iff_le_add]
        linarith [Nat.add_mul k 1 shardSize]
      have hrest := ih hlength
      rw [List.length_drop] at hrest
      rw [hfirst, hrest, List.take_take, Nat.min_eq_right (le_of_not_ge hshort),
        List.take_append_drop]

theorem length_le_shards {k : Nat} (hk : 0 < k) : data.length ≤ k * shardSizeOf data k := by
  rw [shardSizeOf]
  have := Nat.lt_mul_div_succ (data.length + k - 1) hk
  rw [Nat.mul_add] at this
  omega

theorem encodeRaw_eq_ok {c : Crates} {k m : Nat} {raw : List Bytes}
    (h : c.encodeRaw data k m = .ok raw) :
    0 < k ∧ data ≠ [] ∧ raw = c.codeword k m (dataShards data k (shardSizeOf data k)) := by
  rw [encodeRaw] at h
  split_ifs at h with hk hm hdata
  cases hnew : c.reedSolomon k m with
  | error e =>
    rw [hnew] at h
    cases h
  | ok new =>
    rw [hnew] at h
    exact ⟨Nat.pos_of_ne_zero hk, hdata, (Except.ok.inj h).symm⟩

end Crates

namespace Upload

variable {c : Crates} {u : Upload c}

theorem encodeRaw_eq : c.encodeRaw u.ciphertext u.k u.m = .ok u.raw := by
  have h := u.encoded
  rw [Crates.encode] at h
  cases hraw : c.encodeRaw u.ciphertext u.k u.m with
  | error e =>
    rw [hraw] at h
    cases h
  | ok raw =>
    rw [(Crates.encodeRaw_eq_ok hraw).2.2]
    rfl

theorem shards_eq : u.shards = u.raw.zipIdx.map fun (shardData, i) =>
    c.packShard (u.header i shardData) shardData := by
  have h := u.encoded
  rw [Crates.encode, encodeRaw_eq] at h
  exact (Except.ok.inj h).symm

theorem toNat_manifest_k : u.manifest.k.toNat = u.k := by
  have := u.bounded
  exact UInt16.toNat_ofNat_of_lt' (by rw [UInt16.size]; omega)

theorem toNat_manifest_m : u.manifest.m.toNat = u.m := by
  have := u.bounded
  exact UInt16.toNat_ofNat_of_lt' (by rw [UInt16.size]; omega)

theorem erasure_manifest : ¬(u.manifest.k = 0 ∧ u.manifest.m = 0) := by
  rintro ⟨hzero, -⟩
  have hk := u.toNat_manifest_k
  rw [hzero] at hk
  exact absurd (hk ▸ u.one_le_k) (by decide)

theorem getElem?_shards (i : Nat) : u.shards[i]? =
    u.raw[i]?.map fun shardData => c.packShard (u.header i shardData) shardData := by
  rw [shards_eq, List.getElem?_map, List.getElem?_zipIdx]
  cases u.raw[i]? <;> simp

theorem pos_shardSizeOf : 0 < Crates.shardSizeOf u.ciphertext u.k := by
  obtain ⟨-, hdata, -⟩ := Crates.encodeRaw_eq_ok u.encodeRaw_eq
  have := List.length_pos_of_ne_nil hdata
  exact Nat.div_pos (by have := u.one_le_k; omega) u.one_le_k

theorem length_pieces : u.pieces.length = u.k := by simp [pieces, Crates.dataShards]

theorem length_of_mem_pieces {piece : Bytes} (h : piece ∈ u.pieces) :
    piece.length = Crates.shardSizeOf u.ciphertext u.k := by
  obtain ⟨i, -, rfl⟩ := List.mem_map.1 h
  exact Crates.length_dataShard

theorem take_flatten_pieces : u.pieces.flatten.take u.ciphertext.length = u.ciphertext :=
  Crates.take_flatten_dataShards (Crates.length_le_shards u.one_le_k)

theorem toNat_shardIndex {i : Nat} {shardData : Bytes} (hi : i < u.k + u.m) :
    (u.header i shardData).shardIndex.toNat = i := by
  have := u.bounded
  exact UInt16.toNat_ofNat_of_lt' (by rw [UInt16.size]; omega)

section

variable (h : u.Trusts)
include h

theorem length_raw : u.raw.length = u.k + u.m := by
  rw [raw, Crates.codeword, List.length_append, length_pieces,
    (h.code.length_parity u.pieces _ length_pieces fun _ => length_of_mem_pieces).1]

theorem length_of_mem_raw {piece : Bytes} (hpiece : piece ∈ u.raw) :
    piece.length = Crates.shardSizeOf u.ciphertext u.k := by
  rcases List.mem_append.1 hpiece with hpiece | hpiece
  · exact length_of_mem_pieces hpiece
  · exact (h.code.length_parity u.pieces _ length_pieces fun _ => length_of_mem_pieces).2 _ hpiece

variable {i : Nat} {slots : List (Option Bytes)}

theorem unpackShard_of_getElem? {packed : Bytes} (hshard : u.shards[i]? = some packed) :
    ∃ shardData, u.raw[i]? = some shardData ∧
      c.unpackShard packed = .ok (u.header i shardData, shardData) := by
  rw [getElem?_shards] at hshard
  obtain ⟨shardData, hraw, rfl⟩ := Option.map_eq_some_iff.1 hshard
  obtain ⟨hread, hlength⟩ := h.header_read i shardData hraw
  exact ⟨shardData, hraw, Crates.unpackShard_packShard hread hlength⟩

theorem lt_of_getElem?_raw {shardData : Bytes} (hraw : u.raw[i]? = some shardData) :
    i < u.k + u.m := by
  rw [← length_raw h]
  exact (List.getElem?_eq_some_iff.1 hraw).1

theorem counted_of_getElem? {packed : Bytes} (hshard : u.shards[i]? = some packed) :
    ∃ shardData, u.raw[i]? = some shardData ∧ c.counted packed = some (i, shardData) := by
  obtain ⟨shardData, hraw, hread⟩ := unpackShard_of_getElem? h hshard
  have hpass : c.hashFails (u.header i shardData) shardData = false := by
    simp [Crates.hashFails, header, Crates.shardHeader]
  refine ⟨shardData, hraw, ?_⟩
  rw [Crates.counted, hread]
  simp only [hpass, toNat_shardIndex (lt_of_getElem?_raw h hraw)]
  rfl

theorem mem_of_mem_honest (hi : i ∈ u.honest slots) :
    ∃ packed, u.shards[i]? = some packed ∧ slots[i]? = some (some packed) := by
  obtain ⟨hrange, hslot⟩ := List.mem_filter.1 hi
  have hraw : i < u.raw.length := by
    rw [length_raw h]
    exact List.mem_range.1 hrange
  have hshard : u.shards[i]? = some (c.packShard (u.header i u.raw[i]) u.raw[i]) := by
    rw [getElem?_shards, List.getElem?_eq_getElem hraw]
    rfl
  refine ⟨_, hshard, ?_⟩
  rw [of_decide_eq_true hslot, hshard]

/-- A file comes back whole, or an error does: the content id is checked. -/
theorem reconstructFile_eq (slots : List (Option Bytes)) : c.reconstructFile u.manifest slots =
    match c.decode slots u.k u.m with
    | .error e => .error e
    | .ok ciphertext =>
      if ciphertext = u.ciphertext then .ok u.content
      else .error "reconstructed content does not match its id" := by
  have hkey : c.hexDecode u.manifest.encryptionKey = .ok u.key := h.key_read
  have hnonce : c.hexDecode u.manifest.nonce = .ok u.nonce := h.nonce_read
  rw [Crates.reconstructFile, hkey]
  simp only [hnonce]
  rw [if_neg (by simp [u.length_key]), if_neg (by simp [u.length_nonce]), Crates.rebuildCiphertext,
    if_neg erasure_manifest, toNat_manifest_k, toNat_manifest_m]
  cases c.decode slots u.k u.m with
  | error e => rfl
  | ok ciphertext =>
    dsimp only
    by_cases hsame : ciphertext = u.ciphertext
    · rw [if_neg (by simp [hsame, manifest]), if_pos hsame, hsame, Crates.aesDecrypt, h.decrypts]
    · have hother : c.contentId ciphertext ≠ u.manifest.contentId :=
        fun heq => hsame (h.collision_free _ heq)
      rw [if_pos hother, if_neg hsame]

theorem eq_content_of_reconstructFile {out : Bytes}
    (hout : c.reconstructFile u.manifest slots = .ok out) : out = u.content := by
  rw [reconstructFile_eq h] at hout
  cases hdecode : c.decode slots u.k u.m with
  | error e =>
    rw [hdecode] at hout
    cases hout
  | ok ciphertext =>
    rw [hdecode] at hout
    dsimp only at hout
    split_ifs at hout
    exact (Except.ok.inj hout).symm

theorem toNat_totalDataSize : u.totalDataSize.toNat = u.ciphertext.length :=
  UInt64.toNat_ofNat_of_lt' h.length_lt

/-- The download of an array with `k` honest slots succeeds just when it is unspoiled. -/
theorem reconstructFile_iff_unspoiled (hlength : slots.length = u.k + u.m)
    (hhonest : u.k ≤ (u.honest slots).length) :
    c.reconstructFile u.manifest slots = .ok u.content ↔ u.Unspoiled slots := by
  have hone : ∃ packed ∈ slots.reduceOption, ∃ metadata shardData,
      c.unpackShard packed = .ok (metadata, shardData) ∧ metadata.shardSize = u.shardSize ∧
        metadata.totalDataSize = u.totalDataSize := by
    obtain ⟨i, hi⟩ := List.exists_mem_of_length_pos (lt_of_lt_of_le u.one_le_k hhonest)
    obtain ⟨packed, hshard, hslot⟩ := mem_of_mem_honest h hi
    obtain ⟨shardData, -, hread⟩ := unpackShard_of_getElem? h hshard
    exact ⟨packed, List.reduceOption_mem_iff.2 (List.mem_of_getElem? hslot), _, _, hread, rfl, rfl⟩
  have hdecode : c.decode slots u.k u.m = .ok u.ciphertext ↔ u.Unspoiled slots := by
    rw [Crates.decode_eq_ok_iff h.code hlength hone, toNat_totalDataSize h]
    constructor
    · rintro ⟨hfits, data, hdata, hout⟩
      exact ⟨hfits, data, hdata, hout.symm⟩
    · rintro ⟨hfits, data, hdata, hout⟩
      exact ⟨hfits, data, hdata, hout.symm⟩
  rw [← hdecode, reconstructFile_eq h]
  cases c.decode slots u.k u.m with
  | error e => simp
  | ok ciphertext => simp

theorem mem_counted (hslots : u.CountsOnlyHonest slots) {entry : Nat × Bytes}
    (hentry : entry ∈ slots.reduceOption.filterMap c.counted) : u.raw[entry.1]? = some entry.2 := by
  obtain ⟨packed, hpacked, hcounted⟩ := List.mem_filterMap.1 hentry
  obtain ⟨i, hi, hget⟩ := List.mem_iff_getElem.1 (List.reduceOption_mem_iff.1 hpacked)
  rcases hslots i packed (by rw [List.getElem?_eq_getElem hi, hget]) with hshard | hnone
  · obtain ⟨shardData, hraw, hcount⟩ := counted_of_getElem? h hshard
    rw [hcount] at hcounted
    cases hcounted
    exact hraw
  · rw [hnone] at hcounted
    cases hcounted

theorem getElem?_raw_of_standing (hslots : u.CountsOnlyHonest slots) {shard : Bytes}
    (hstanding : (c.standing u.k u.m slots.reduceOption)[i]? = some (some shard)) :
    u.raw[i]? = some shard := by
  rw [Crates.standing, List.getElem?_map] at hstanding
  obtain ⟨j, hj, hfind⟩ := Option.map_eq_some_iff.1 hstanding
  obtain ⟨hlt, rfl⟩ := List.getElem?_eq_some_iff.1 hj
  rw [List.getElem_range] at hfind
  obtain ⟨entry, hfound, rfl⟩ := Option.map_eq_some_iff.1 hfind
  have hindex := List.find?_some hfound
  have hmem := List.mem_reverse.1 (List.mem_of_find?_eq_some hfound)
  have hraw := mem_counted h hslots hmem
  rwa [of_decide_eq_true hindex] at hraw

theorem standing_isSome_of_honest (hi : i ∈ u.honest slots) :
    (((slots.reduceOption.filterMap c.counted).reverse.find? (·.1 = i)).map (·.2)).isSome := by
  obtain ⟨packed, hshard, hslot⟩ := mem_of_mem_honest h hi
  obtain ⟨shardData, -, hcounted⟩ := counted_of_getElem? h hshard
  rw [Option.isSome_map, List.find?_isSome]
  refine ⟨(i, shardData), List.mem_reverse.2 (List.mem_filterMap.2 ⟨packed, ?_, hcounted⟩), ?_⟩
  · exact List.reduceOption_mem_iff.2 (List.mem_of_getElem? hslot)
  · simp

/-- Where every other slot is empty, honest or fails its own hash, nothing spoils a download. -/
theorem unspoiled_of_counted
    (hfits : ∀ packed ∈ slots.reduceOption, c.fits u.k u.m u.shardSize u.totalDataSize packed)
    (hslots : u.CountsOnlyHonest slots) (hhonest : u.k ≤ (u.honest slots).length) :
    u.Unspoiled slots := by
  refine ⟨hfits, u.pieces, ⟨?_, ?_, length_pieces, ?_⟩, take_flatten_pieces⟩
  · refine hhonest.trans ?_
    rw [Crates.standing, List.countP_map, honest, ← List.countP_eq_length_filter]
    refine List.countP_mono_left fun i hi hmem => ?_
    exact standing_isSome_of_honest h (List.mem_filter.2 ⟨hi, hmem⟩)
  · refine ⟨_, u.pos_shardSizeOf, fun shard hshard => ?_, fun _ => length_of_mem_pieces⟩
    obtain ⟨i, hi, hget⟩ := List.mem_iff_getElem.1 (List.reduceOption_mem_iff.1 hshard)
    refine length_of_mem_raw h
      (List.mem_of_getElem? (getElem?_raw_of_standing h hslots (i := i) ?_))
    rw [List.getElem?_eq_getElem hi, hget]
  · intro entry hentry
    obtain ⟨⟨shard, i⟩, hmem, hsome⟩ := List.mem_filterMap.1 (List.mem_of_mem_take hentry)
    obtain ⟨found, rfl, rfl⟩ := Option.map_eq_some_iff.1 hsome
    exact getElem?_raw_of_standing h hslots (List.mk_mem_zipIdx_iff_getElem?.1 hmem)

end

/-- With `k` honest shards in their slots a download gives the file exactly when no other slot
spoils it, and whatever the slots hold it gives nothing else. -/
theorem download_iff_unspoiled (u : Upload c) (h : u.Trusts) :
    (∀ slots : List (Option Bytes), slots.length = u.k + u.m → u.k ≤ (u.honest slots).length →
      (c.reconstructFile u.manifest slots = .ok u.content ↔ u.Unspoiled slots)) ∧
    ∀ slots out, c.reconstructFile u.manifest slots = .ok out → out = u.content :=
  ⟨fun _ hlength hhonest => reconstructFile_iff_unspoiled h hlength hhonest,
    fun _ _ hout => eq_content_of_reconstructFile h hout⟩

end Upload

def sampleText (bytes : Bytes) : String := String.ofList (bytes.map fun b => Char.ofNat b.toNat)

/-- The first shard present, where all present are of its length. -/
def sampleRebuild (shards : List (Option Bytes)) : Except String (List (Option Bytes)) :=
  match shards.reduceOption with
  | [] => .error "TooFewShardsPresent"
  | first :: rest =>
    if first ≠ [] ∧ ∀ shard ∈ rest, shard.length = first.length then .ok [some first]
    else .error "IncorrectShardSize"

def sampleHeader (i : UInt16) : ShardMetadata where
  shardIndex := i
  contentId := sampleText [104, 0]
  k := 1
  m := 1
  shardSize := 2
  totalDataSize := 2
  shardSha256 := sampleText [104, 0]

def sampleCrates : Crates where
  sha256Hex := sampleText
  hexEncode := sampleText
  hexDecode text := .ok (text.toList.map fun ch => UInt8.ofNat ch.toNat)
  toVec metadata := [UInt8.ofNat metadata.shardIndex.toNat]
  fromSlice
    | [i] => .ok (sampleHeader i.toUInt16)
    | _ => .error "EOF while parsing a value"
  reedSolomon _ _ := .ok ()
  parity _ _ data := data
  reconstructData _ _ := sampleRebuild
  encrypt _ _ plaintext := .ok (plaintext ++ [0])
  decrypt _ _ ciphertext := .ok ciphertext.dropLast

def sampleShard (i : UInt8) : Bytes := [1, 0, 0, 0, i, 104, 0]

def sampleUpload : Upload sampleCrates where
  key := List.replicate 32 7
  nonce := List.replicate 12 7
  content := [104]
  ciphertext := [104, 0]
  k := 1
  m := 1
  shards := [sampleShard 0, sampleShard 1]
  length_key := by decide
  length_nonce := by decide
  one_le_k := by decide
  one_le_m := by decide
  bounded := by decide
  encrypted := by rfl
  encoded := by rfl

theorem sampleText_injective : Function.Injective sampleText := by
  intro a b h
  have hlist := String.ofList_injective h
  refine List.map_injective_iff.2 (fun x y hxy => ?_) hlist
  have hvalid (x : UInt8) : (Char.ofNat x.toNat).toNat = x.toNat := by
    have := x.toNat_lt
    rw [Char.toNat_ofNat, if_pos (.inl (by omega))]
  exact UInt8.toNat_inj.1 (by rw [← hvalid x, ← hvalid y, hxy])

theorem sampleRebuild_eq_ok {shards out : List (Option Bytes)} :
    sampleRebuild shards = .ok out ↔ ∃ first rest, shards.reduceOption = first :: rest ∧
      first ≠ [] ∧ (∀ shard ∈ rest, shard.length = first.length) ∧ out = [some first] := by
  rw [sampleRebuild]
  cases shards.reduceOption with
  | nil => simp
  | cons first rest =>
    dsimp only
    constructor
    · intro hout
      split_ifs at hout with h
      cases hout
      exact ⟨first, rest, rfl, h.1, h.2, rfl⟩
    · rintro ⟨_, _, hsame, hne, hlength, rfl⟩
      cases hsame
      exact if_pos ⟨hne, hlength⟩

theorem sampleCrates_recovers : sampleCrates.Recovers 1 1 where
  new := rfl
  length_parity data length hdata hlength := ⟨hdata, hlength⟩
  complete shards data hshards hdata := by
    obtain ⟨henough, ⟨length, hpos, heven, hpieces⟩, hcount, hagrees⟩ := hdata
    obtain ⟨piece, rfl⟩ := List.length_eq_one_iff.1 hcount
    obtain ⟨a, b, rfl⟩ := List.length_eq_two.1 hshards
    have hne : piece ≠ [] := List.length_pos_iff.1 (hpieces piece List.mem_cons_self ▸ hpos)
    refine ⟨[some piece], sampleRebuild_eq_ok.2 ?_, rfl⟩
    cases a <;> cases b <;>
      simp_all [List.reduceOption, Crates.firstPresent, Crates.codeword, sampleCrates]
  sound shards out hshards hout := by
    obtain ⟨piece, rest, hpresent, hne, hlength, rfl⟩ := sampleRebuild_eq_ok.1 hout
    obtain ⟨a, b, rfl⟩ := List.length_eq_two.1 hshards
    refine ⟨[piece], rfl, ?_, ⟨_, List.length_pos_iff.2 hne, ?_, by simp⟩, rfl, ?_⟩
    · cases a <;> cases b <;> simp_all [List.reduceOption]
    · simpa [hpresent] using hlength
    · cases a <;> cases b <;>
        simp_all [List.reduceOption, Crates.firstPresent, Crates.codeword, sampleCrates]

theorem sampleUpload_trusts : sampleUpload.Trusts where
  key_read := by rfl
  nonce_read := by rfl
  header_read i shardData hraw := by
    have hrows : sampleUpload.raw = [[104, 0], [104, 0]] := by rfl
    rw [hrows] at hraw
    match i, hraw with
    | 0, hraw =>
      cases hraw
      exact ⟨by rfl, by decide⟩
    | 1, hraw =>
      cases hraw
      exact ⟨by rfl, by decide⟩
  decrypts := by rfl
  length_lt := by decide
  collision_free other h := sampleText_injective h
  code := sampleCrates_recovers

/-- One copy that is no shard at all fails the download of a file whose `k` shards are at hand. -/
theorem not_download_short_copy :
    sampleUpload.Trusts ∧
      sampleUpload.k ≤ (sampleUpload.honest [some (sampleShard 0), some []]).length ∧
      sampleCrates.reconstructFile sampleUpload.manifest [some (sampleShard 0), some []] =
        .error "Packed shard too short: missing header length" :=
  ⟨sampleUpload_trusts, by decide, by rfl⟩

/-- A copy with another's bytes under its header fails its hash and counts as missing. -/
theorem download_iff_unspoiled_substituted :
    let slots := [some [1, 0, 0, 0, 0, 1, 2], some (sampleShard 1)]
    sampleUpload.Trusts ∧ sampleUpload.k ≤ (sampleUpload.honest slots).length ∧
      sampleUpload.Unspoiled slots ∧
      sampleCrates.reconstructFile sampleUpload.manifest slots = .ok sampleUpload.content := by
  have hhonest : sampleUpload.k ≤
      (sampleUpload.honest [some [1, 0, 0, 0, 0, 1, 2], some (sampleShard 1)]).length := by decide
  have hfits : ∀ packed ∈ [some [1, 0, 0, 0, 0, 1, 2], some (sampleShard 1)].reduceOption,
      sampleCrates.fits sampleUpload.k sampleUpload.m sampleUpload.shardSize
        sampleUpload.totalDataSize packed := by decide
  have hslots : sampleUpload.CountsOnlyHonest
      [some [1, 0, 0, 0, 0, 1, 2], some (sampleShard 1)] := by
    intro i packed hslot
    match i, hslot with
    | 0, hslot =>
      cases hslot
      exact .inr (by decide)
    | 1, hslot =>
      cases hslot
      exact .inl rfl
  have hunspoiled := Upload.unspoiled_of_counted sampleUpload_trusts hfits hslots hhonest
  exact ⟨sampleUpload_trusts, hhonest, hunspoiled,
    ((Upload.download_iff_unspoiled sampleUpload sampleUpload_trusts).1 _ rfl hhonest).2 hunspoiled⟩

end Hollow.Vault
