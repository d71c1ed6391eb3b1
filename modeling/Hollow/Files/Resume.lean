import Hollow.Files.Stream

/-! A file pulled from one holder over several streams. The receiver keeps what a broken stream left
and asks again from there; the holder answers every ask with a fresh encryption of the file. -/

namespace Hollow.Files

/-- An authenticated cipher as the pipeline uses it. -/
structure Aead (K N : Type) where
  encrypt : K → N → Bytes → Bytes
  decrypt : K → N → Bytes → Option Bytes

/-- A ciphertext decrypts to what it encrypts and to nothing else, and carries a tag of 16 bytes. -/
structure Aead.Lawful {K N : Type} (A : Aead K N) : Prop where
  decrypt_iff : ∀ key nonce c p, A.decrypt key nonce c = some p ↔ c = A.encrypt key nonce p
  length_encrypt : ∀ key nonce p, (A.encrypt key nonce p).length = p.length + 16

inductive RelayAdmit where
  | start
  | running
  | busy
  deriving DecidableEq

inductive Unavailable where
  | expired
  | gone
  deriving DecidableEq

/-- What a holder knows when a `FileRequest` comes in for a file it has a row of. -/
structure Asked where
  blocked : Bool
  requesterIsMember : Bool
  publicOk : Bool
  ridesRelay : Bool
  relayAdmit : RelayAdmit
  /-- A room to reach the asker through. -/
  inRoom : Bool
  /-- The file's bytes, read from disk. -/
  served : Except Unavailable Bytes

structure FileHeader (K N : Type) where
  aesKey : K
  aesNonce : N
  deriving DecidableEq

inductive Answer (K N : Type) where
  | silent
  | later (verdict : RelayAdmit)
  | unavailable (reason : Unavailable)
  | headerOnly (header : FileHeader K N)
  | dataChannel (header : FileHeader K N)
  | relay (header : FileHeader K N) (frames : List Frame)
  deriving DecidableEq

variable {K N : Type}

/-- The holder's answer; `key` and `nonce` are drawn for this ask. -/
def fileRequest (A : Aead K N) (disk : Disk) (a : Asked) (key : K) (nonce : N) (streamId : String)
    (offset : Nat) : Answer K N :=
  if a.blocked then .silent
  else if !a.requesterIsMember && !a.publicOk then .silent
  else if (0 < offset || a.ridesRelay) && a.relayAdmit ≠ .start then .later a.relayAdmit
  else
    match a.served with
    | .error reason => .unavailable reason
    | .ok file =>
      let ciphertext := A.encrypt key nonce file
      let header : FileHeader K N := ⟨key, nonce⟩
      if 0 < offset || a.ridesRelay then
        if a.inRoom then
          .relay header (wsStreamSend ⟨disk, ciphertext⟩ .file streamId ciphertext.length offset)
        else .headerOnly header
      else .dataChannel header

def keptBytes (pending : Pending) (streamId device : String) : Bytes :=
  (((pending.get streamId).filter (·.sender = device)).map (·.bytes)).getD []

/-- The offset an ask names: only the device already streaming can resume. -/
def dispatchOffset (pending : Pending) (streamId device : String) : Nat :=
  (keptBytes pending streamId device).length

section Pull

variable (A : Aead K N) (disk : Disk) (ceiling : StreamKind → String → Nat)
  (file : Bytes) (streamId device : String)

/-- What the receiver may have of the file between two asks: streams that broke off before their
end, each from the offset its ask named. -/
inductive Interrupted : Pending → Prop where
  | start {pending} : pending.get streamId = none → Interrupted pending
  | stream {pending pending'} {a : Asked} {key : K} {nonce : N} {header : FileHeader K N}
      {frames : List Frame} {arrived : List (Frame × Nat)} : Interrupted pending →
      a.served = .ok file →
      fileRequest A disk a key nonce streamId (dispatchOffset pending streamId device) =
        .relay header frames →
      arrived.map Prod.fst <+: frames →
      receiveAll ceiling device pending arrived = (pending', []) → Interrupted pending'
  /-- Streams of other ids come and go. -/
  | others {pending pending' : Pending} : Interrupted pending →
      pending'.get streamId = pending.get streamId → Interrupted pending'

variable {A disk ceiling file streamId device}

theorem fileRequest_relay {a : Asked} {key : K} {nonce : N} {offset : Nat}
    {header : FileHeader K N} {frames : List Frame} (hserved : a.served = .ok file)
    (h : fileRequest A disk a key nonce streamId offset = .relay header frames) :
    header = ⟨key, nonce⟩ ∧ frames = wsStreamSend ⟨disk, A.encrypt key nonce file⟩ .file streamId
      (A.encrypt key nonce file).length offset := by
  unfold fileRequest at h
  rw [hserved] at h
  split_ifs at h
  simp only [Answer.relay.injEq] at h
  exact ⟨h.1.symm, h.2.symm⟩

theorem keptBytes_of_none {pending : Pending} (h : pending.get streamId = none) :
    keptBytes pending streamId device = [] := by
  simp [keptBytes, h]

theorem Holds.keptBytes {pending : Pending} {total : Nat} {bytes : Bytes}
    (h : Holds pending streamId device total bytes) :
    keptBytes pending streamId device = bytes := by
  obtain ⟨s, hget, hsender, -, rfl⟩ := h
  simp [Files.keptBytes, hget, hsender, Option.filter]

/-- What a device may have of the stream between two asks: nothing, or a part that is short. -/
def Short (total : Nat) (streamId device : String) (pending : Pending) : Prop :=
  pending.get streamId = none ∨ isStreamId streamId ∧ ∃ bytes,
    Holds pending streamId device total bytes ∧ bytes.length < total

variable (ceiling) in
theorem Short.receiveAll {total : Nat} {pending : Pending} {src : Source}
    {arrived : List (Frame × Nat)} (h : Short total streamId device pending)
    (harrived : arrived.map Prod.fst <+: wsStreamSend src .file streamId total
      (dispatchOffset pending streamId device)) :
    pending.get streamId = none ∧ receiveAll ceiling device pending arrived = (pending, []) ∨
      isStreamId streamId ∧ Assembled (receiveAll ceiling device pending arrived) streamId device
        total (keptBytes pending streamId device ++ payloads (arrived.map Prod.fst)) := by
  rcases h with hnone | ⟨hid, bytes, hholds, hlt⟩
  · rw [dispatchOffset, keptBytes_of_none hnone] at harrived
    rw [keptBytes_of_none hnone]
    exact (receiveAll_fresh ceiling rfl hnone harrived).imp_left fun hsame => ⟨hnone, hsame⟩
  · rw [dispatchOffset, hholds.keptBytes] at harrived
    rw [hholds.keptBytes]
    exact .inr ⟨hid, receiveAll_holds ceiling hid hholds rfl hlt harrived⟩

/-- However often a pull broke off, nothing is held for it or less than the encrypted file. -/
theorem Interrupted.short (hA : A.Lawful) {pending : Pending}
    (h : Interrupted A disk ceiling file streamId device pending) :
    Short (file.length + 16) streamId device pending := by
  induction h with
  | start hget => exact .inl hget
  | @stream pending pending' a key nonce header frames arrived _ hserved hanswer harrived
    hreceived ih =>
    obtain ⟨-, rfl⟩ := fileRequest_relay hserved hanswer
    rw [hA.length_encrypt] at harrived
    have hassembled := ih.receiveAll ceiling harrived
    rw [hreceived] at hassembled
    rcases hassembled with ⟨hnone, hsame⟩ | ⟨hid, ⟨-, hholds, hlt⟩ | ⟨⟨-, r, hr, -⟩, -⟩⟩
    · obtain rfl : pending' = pending := congrArg Prod.fst hsame
      exact .inl hnone
    · exact .inr ⟨hid, _, hholds, hlt⟩
    · cases hr
  | others _ hsame ih =>
    simpa only [Short, Holds, hsame] using ih

theorem decrypt_resumed_iff (hA : A.Lawful) {key : K} {nonce : N} {kept : Bytes} :
    A.decrypt key nonce (kept ++ (A.encrypt key nonce file).drop kept.length) = some file ↔
      kept <+: A.encrypt key nonce file := by
  rw [hA.decrypt_iff]
  constructor
  · exact fun h => ⟨_, h⟩
  · intro h
    obtain ⟨rest, hrest⟩ := h
    rw [← hrest, List.drop_left]

section Completed

variable (hA : A.Lawful) {pending pending' : Pending}
  (h : Interrupted A disk ceiling file streamId device pending) {a : Asked} {key : K} {nonce : N}
  {header : FileHeader K N} {frames : List Frame} {arrived : List (Frame × Nat)}
  {r : StreamRequest} (hserved : a.served = .ok file)
  (hanswer : fileRequest A disk a key nonce streamId (dispatchOffset pending streamId device) =
    .relay header frames)
  (harrived : arrived.map Prod.fst = frames)
  (hreceived : receiveAll ceiling device pending arrived = (pending', [r]))
include hA h hserved hanswer harrived hreceived

/-- A completed pull is the kept bytes followed by the rest of the same ciphertext. -/
theorem completed_bytes :
    header = ⟨key, nonce⟩ ∧ r.bytes = keptBytes pending streamId device ++
      (A.encrypt key nonce file).drop (keptBytes pending streamId device).length := by
  obtain ⟨rfl, rfl⟩ := fileRequest_relay hserved hanswer
  have hpay := (congrArg payloads harrived).trans (payloads_wsStreamSend rfl _)
  rw [hA.length_encrypt] at harrived
  have hassembled := (h.short hA).receiveAll ceiling ⟨[], (List.append_nil _).trans harrived⟩
  rw [hreceived, hpay] at hassembled
  rcases hassembled with ⟨-, hsame⟩ | ⟨-, ⟨hnil, -⟩ | ⟨⟨-, r', hr, -, hbytes⟩, -⟩⟩
  · cases hsame
  · cases hnil
  · obtain rfl : r = r' := List.singleton_inj.1 hr
    exact ⟨rfl, hbytes⟩

/-- A pull ends with the file exactly when what was kept at the last ask is the beginning of the
last encryption, as it is when nothing was kept. -/
theorem pulled_file_iff :
    A.decrypt header.aesKey header.aesNonce r.bytes = some file ↔
      keptBytes pending streamId device <+: A.encrypt key nonce file := by
  obtain ⟨rfl, hbytes⟩ := completed_bytes hA h hserved hanswer harrived hreceived
  rw [hbytes]
  exact decrypt_resumed_iff hA

end Completed

end Pull

/-- A cipher for examples: the key is added to every byte and repeated as the tag. -/
def shift : Aead UInt8 Unit where
  encrypt key _ p := p.map (· + key) ++ List.replicate 16 key
  decrypt key _ c :=
    let p := (c.take (c.length - 16)).map (· - key)
    if c = p.map (· + key) ++ List.replicate 16 key then some p else none

theorem shift_lawful : shift.Lawful := by
  refine ⟨fun key _ c p => ?_, fun key _ p => by simp [shift]⟩
  have hback : ∀ p : Bytes, (p.map (· + key)).map (· - key) = p := by
    intro p
    simp [Function.comp_def]
  simp only [shift]
  constructor
  · intro h
    split_ifs at h with hc
    rw [← Option.some.inj h]
    exact hc
  · rintro rfl
    simp [hback]

def wholeReads : Disk := ⟨fun _ cap => cap, fun _ _ => le_rfl, fun _ _ h => h⟩

def sampleStreamId : String := "aaaaaaaaaaaaaaaaaaaaaaaaaaaaaaaaaaaaaaaaaaaaaaaaaaaaaaaaaaaaaaaa"

def sampleAsked (file : Bytes) : Asked :=
  ⟨false, true, false, true, .start, true, .ok file⟩

section Broken

variable {file : Bytes} {ceiling : StreamKind → String → Nat}

def brokenAfterFirst (key : UInt8) (file : Bytes) : Pending :=
  [⟨.file, sampleStreamId, file.length + 16,
    (shift.encrypt key () file).take (wsChunkSize - 73), "d", 0⟩]

theorem keptBytes_brokenAfterFirst (key : UInt8) (file : Bytes) :
    keptBytes (brokenAfterFirst key file) sampleStreamId "d" =
      (shift.encrypt key () file).take (wsChunkSize - 73) :=
  Holds.keptBytes ⟨_, rfl, rfl, rfl, rfl⟩

theorem length_kept (key : UInt8) (hfile : wsChunkSize < file.length) :
    ((shift.encrypt key () file).take (wsChunkSize - 73)).length = wsChunkSize - 73 := by
  rw [List.length_take, shift_lawful.length_encrypt]
  omega

theorem isStreamId_sample : isStreamId sampleStreamId := by decide +kernel

theorem receiveAll_brokenAfterFirst (key : UInt8) (hfile : wsChunkSize < file.length)
    (hceiling : file.length + 16 ≤ ceiling .file sampleStreamId) :
    receiveAll ceiling "d" [] [(.first .file sampleStreamId (file.length + 16)
      ((shift.encrypt key () file).take (wsChunkSize - 73)), 0)] =
      (brokenAfterFirst key file, []) := by
  have hlen := length_kept key hfile
  have hid := isStreamId_sample
  have hopens : openStream ceiling [] "d" .file sampleStreamId (file.length + 16)
      ((shift.encrypt key () file).take (wsChunkSize - 73)) 0 =
      (brokenAfterFirst key file, none) := by
    rw [openStream, hlen, if_neg, if_neg (by omega)]
    · rfl
    · have hshort : ¬ file.length + 16 < wsChunkSize - 73 := by omega
      have hfits : ¬ ceiling .file sampleStreamId < file.length + 16 := by omega
      simp [maxRecvStreamsPerSender, maxRecvStreams, hshort, hfits]
  have hreceive : wsStreamReceive ceiling [] "d" (.first .file sampleStreamId (file.length + 16)
      ((shift.encrypt key () file).take (wsChunkSize - 73))) 0 =
      (brokenAfterFirst key file, none) := by
    rw [wsStreamReceive, if_neg (by simp [idAllowed_of_isStreamId hid, hid])]
    exact hopens
  simp only [receiveAll, hreceive]
  rfl

theorem interrupted_brokenAfterFirst (key : UInt8) (hfile : wsChunkSize < file.length)
    (hceiling : file.length + 16 ≤ ceiling .file sampleStreamId) :
    Interrupted shift wholeReads ceiling file sampleStreamId "d" (brokenAfterFirst key file) := by
  have hstart : Interrupted shift wholeReads ceiling file sampleStreamId "d" [] := .start rfl
  have hanswer : fileRequest shift wholeReads (sampleAsked file) key () sampleStreamId
      (dispatchOffset [] sampleStreamId "d") = .relay ⟨key, ()⟩
        (wsStreamSend ⟨wholeReads, shift.encrypt key () file⟩ .file sampleStreamId
          (shift.encrypt key () file).length 0) := rfl
  refine hstart.stream rfl hanswer ?_ (receiveAll_brokenAfterFirst key hfile hceiling)
  have hcap : min (wsChunkSize - 73) (file.length + 16 - 0) = wsChunkSize - 73 := by omega
  rw [wsStreamSend, sendRelayChunks, shift_lawful.length_encrypt]
  simp only [Bool.not_true, Bool.false_and, Bool.false_eq_true, if_false, Source.next, wholeReads,
    StreamKind.headerSize, if_true, hcap, List.drop_zero, StreamKind.frame, List.map_cons,
    List.map_nil]
  exact ⟨_, rfl⟩

/-- The rest of a stream that broke off after a frame, drawn under another key or the same. -/
theorem resumed_brokenAfterFirst (key key' : UInt8) (hfile : wsChunkSize < file.length)
    (ceiling : StreamKind → String → Nat) : ∃ frames pending' r,
    fileRequest shift wholeReads (sampleAsked file) key' () sampleStreamId
      (dispatchOffset (brokenAfterFirst key file) sampleStreamId "d") = .relay ⟨key', ()⟩ frames ∧
    receiveAll ceiling "d" (brokenAfterFirst key file) (frames.map (·, 0)) = (pending', [r]) ∧
    r.bytes = keptBytes (brokenAfterFirst key file) sampleStreamId "d" ++
      (shift.encrypt key' () file).drop
        (keptBytes (brokenAfterFirst key file) sampleStreamId "d").length := by
  have hlen := length_kept key hfile
  rw [keptBytes_brokenAfterFirst]
  set kept := (shift.encrypt key () file).take (wsChunkSize - 73)
  have hholds : Holds (brokenAfterFirst key file) sampleStreamId "d" (file.length + 16) kept :=
    ⟨_, rfl, rfl, rfl, rfl⟩
  set frames := wsStreamSend ⟨wholeReads, shift.encrypt key' () file⟩ .file sampleStreamId
    (shift.encrypt key' () file).length kept.length with hframes
  have hmap : (frames.map (·, 0)).map Prod.fst = frames := by
    simp [Function.comp_def]
  have hpay : payloads frames = (shift.encrypt key' () file).drop kept.length :=
    payloads_wsStreamSend rfl _
  have hsent : (frames.map (·, 0)).map Prod.fst <+: sendRelayChunks
      ⟨wholeReads, shift.encrypt key' () file⟩ .file sampleStreamId (file.length + 16)
      (file.length + 16 - kept.length + 1) true kept.length := by
    rw [hmap, hframes, shift_lawful.length_encrypt]
    exact List.prefix_rfl
  have hassembled := receiveAll_holds ceiling isStreamId_sample hholds rfl (by omega) hsent
  rw [hmap, hpay] at hassembled
  have hfull : (kept ++ (shift.encrypt key' () file).drop kept.length).length =
      file.length + 16 := by
    rw [List.length_append, List.length_drop, shift_lawful.length_encrypt]
    omega
  rcases hassembled with ⟨-, -, hshort⟩ | ⟨⟨-, r, hr, -, hbytes⟩, -⟩
  · omega
  · refine ⟨frames, _, r, ?_, Prod.ext rfl hr, hbytes⟩
    rw [dispatchOffset, hholds.keptBytes]
    simp [fileRequest, sampleAsked, frames]

end Broken

theorem exists_longFile : ∃ file : Bytes, wsChunkSize < file.length ∧ file.length = 300000 :=
  ⟨List.replicate 300000 0, by rw [List.length_replicate]; decide, List.length_replicate⟩

/-- A stream that broke off after a frame is resumed under the key it began with. -/
theorem pulled_file_iff_resumed : ∃ (file : Bytes) (pending pending' : Pending)
    (frames : List Frame) (r : StreamRequest),
    Interrupted shift wholeReads (fun _ _ => 400000) file sampleStreamId "d" pending ∧
    keptBytes pending sampleStreamId "d" ≠ [] ∧
    receiveAll (fun _ _ => 400000) "d" pending (frames.map (·, 0)) = (pending', [r]) ∧
    shift.decrypt 1 () r.bytes = some file := by
  obtain ⟨file, hlong, hfile⟩ := exists_longFile
  obtain ⟨frames, pending', r, hanswer, hreceived, -⟩ :=
    resumed_brokenAfterFirst 1 1 hlong fun _ _ => 400000
  have hinterrupted : Interrupted shift wholeReads (fun _ _ => 400000) file sampleStreamId "d"
      (brokenAfterFirst 1 file) := interrupted_brokenAfterFirst 1 hlong (by rw [hfile]; decide)
  refine ⟨file, _, pending', frames, r, hinterrupted, fun hnil => ?_, hreceived,
    (pulled_file_iff shift_lawful hinterrupted rfl hanswer (by simp [Function.comp_def])
      hreceived).2 ?_⟩
  · have hlen := length_kept 1 hlong
    rw [← keptBytes_brokenAfterFirst, hnil] at hlen
    exact absurd hlen (by decide)
  · rw [keptBytes_brokenAfterFirst]
    exact List.take_prefix _ _

/-- A stream that broke off after a frame is resumed under another key: the file never comes out. -/
theorem not_pulled_resumed : ∃ (file : Bytes) (pending pending' : Pending) (frames : List Frame)
    (r : StreamRequest),
    Interrupted shift wholeReads (fun _ _ => 400000) file sampleStreamId "d" pending ∧
    fileRequest shift wholeReads (sampleAsked file) 2 () sampleStreamId
      (dispatchOffset pending sampleStreamId "d") = .relay ⟨2, ()⟩ frames ∧
    receiveAll (fun _ _ => 400000) "d" pending (frames.map fun f => (f, 0)) = (pending', [r]) ∧
    shift.decrypt 2 () r.bytes ≠ some file := by
  obtain ⟨file, hlong, hfile⟩ := exists_longFile
  obtain ⟨frames, pending', r, hanswer, hreceived, hbytes⟩ :=
    resumed_brokenAfterFirst 1 2 hlong fun _ _ => 400000
  refine ⟨file, _, pending', frames, r,
    interrupted_brokenAfterFirst 1 hlong (by rw [hfile]; decide),
    hanswer, hreceived, ?_⟩
  rw [hbytes, Ne, decrypt_resumed_iff shift_lawful, keptBytes_brokenAfterFirst]
  -- the two encryptions differ in their first byte
  obtain ⟨b, rest, rfl⟩ : ∃ b rest, file = b :: rest := by
    cases file with
    | nil => simp at hfile
    | cons b rest => exact ⟨b, rest, rfl⟩
  rintro ⟨tail, htail⟩
  have hhead : ((shift.encrypt 1 () (b :: rest)).take (wsChunkSize - 73)).head? = some (b + 1) := by
    rw [List.head?_take, if_neg (by decide)]
    rfl
  have hheads := congrArg List.head? htail
  rw [List.head?_append, hhead, Option.some_or] at hheads
  exact absurd (add_left_cancel (Option.some.inj hheads)) (by decide)

end Hollow.Files
