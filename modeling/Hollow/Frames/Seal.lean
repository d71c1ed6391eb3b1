import Hollow.Identity.Merge
import Hollow.Lib.Fallible
import Hollow.Mls.Codec

/-! The seal of a frame: who sent it, for which room and route, when, and under which nonce. Stamps
are `i64` milliseconds. -/

namespace Hollow.Frames

open Fallible (bind_eq_ok)
open Identity (i64Max i64Min saturatingAdd)
open Mls (toBeBytes fromBeBytes splitBytes splitBytes_eq_some length_toBeBytes toBeBytes_inj
  fromBeBytes_toBeBytes utf8 utf8_inj length_utf8 fromUTF8?_eq_some)

abbrev Bytes := List UInt8

/-- Ed25519 and SHA-256 as the seal uses them: the key a peer id inlines, whether a key signed some
bytes, and a digest. -/
structure Crypto where
  Key : Type
  pubkeyFromPeerId : String → Option Key
  verifyStrict : Key → Bytes → Bytes → Bool
  sha256 : Bytes → Bytes

def magic : Bytes := [0, 0x48, 0x46, 0x31]

/-- The text `hollow-frame1` and a zero byte. -/
def domain : Bytes := utf8 "hollow-frame1" ++ [0]

def routeRoom : String := "*"

def liveSkewMs : Int := 300000

def nonceLen : Nat := 16

def sigLen : Nat := 64

inductive Delivery where
  | room
  | direct (device master : String)

structure Opened where
  tsMs : Int
  nonce : Bytes
  body : Bytes
deriving DecidableEq

inductive Refusal where
  | unsealed
  | malformed
  | notAPeerId
  | badSignature
  | misrouted
  | fromTheFuture
deriving DecidableEq

/-- An `i64` sum or cast, which wraps. -/
def wrapping (n : Int) : Int := n.bmod (2 ^ 64)

def saturatingSub (a b : Int) : Int := max i64Min (min i64Max (a - b))

def stampBytes (tsMs : Int) : Bytes := toBeBytes 8 (tsMs % 2 ^ 64).toNat

def signedBytes (w : Crypto) (room : String) (route : Bytes) (tsMs : Int) (nonce body : Bytes) :
    Bytes :=
  domain ++ toBeBytes 4 room.utf8ByteSize ++ utf8 room ++
    toBeBytes 4 route.length ++ route ++ stampBytes tsMs ++ nonce ++ w.sha256 body

/-- A frame sealed with `sign`; a route longer than a byte can count is cut. -/
def sealAt (w : Crypto) (sign : Bytes → Bytes) (room route : String) (tsMs : Int)
    (nonce body : Bytes) : Bytes :=
  let route := (utf8 route).take 255
  magic ++ stampBytes tsMs ++ nonce ++ [UInt8.ofNat route.length] ++ route ++
    sign (signedBytes w room route tsMs nonce body) ++ body

def split (bytes : Bytes) (n : Nat) : Except Refusal (Bytes × Bytes) :=
  match splitBytes n bytes with
  | some parts => .ok parts
  | none => .error .malformed

def routedHere (route : String) : Delivery → Bool
  | .room => route == routeRoom
  | .direct device master => route == device || route == master

/-- The fields a seal is made of, in the order they stand in the frame. -/
structure Parts where
  tsMs : Int
  nonce : Bytes
  route : String
  sig : Bytes
  body : Bytes

def parse (frame : Bytes) : Except Refusal Parts :=
  if magic <+: frame then do
    let (ts, rest) ← split (frame.drop magic.length) 8
    let (nonce, rest) ← split rest nonceLen
    let (routeLen, rest) ← split rest 1
    let (route, rest) ← split rest (fromBeBytes routeLen)
    match String.fromUTF8? ⟨route.toArray⟩ with
    | none => .error .malformed
    | some route => do
      let (sig, body) ← split rest sigLen
      .ok ⟨wrapping (fromBeBytes ts), nonce, route, sig, body⟩
  else .error .unsealed

/-- `open`: the seal of a frame checked against who the relay says sent it, the room and how it
arrived. -/
def openFrame (w : Crypto) (frame : Bytes) (sender room : String) (delivery : Delivery)
    (nowMs : Int) : Except Refusal Opened := do
  let p ← parse frame
  if routedHere p.route delivery then
    match w.pubkeyFromPeerId sender with
    | none => .error .notAPeerId
    | some key =>
      if w.verifyStrict key (signedBytes w room (utf8 p.route) p.tsMs p.nonce p.body)
          p.sig then
        if p.tsMs > wrapping (nowMs + liveSkewMs) then .error .fromTheFuture
        else .ok ⟨p.tsMs, p.nonce, p.body⟩
      else .error .badSignature
  else .error .misrouted

def isStale (tsMs nowMs : Int) : Bool := saturatingSub nowMs tsMs > liveSkewMs

def I64 (n : Int) : Prop := i64Min ≤ n ∧ n ≤ i64Max

theorem wrapping_of_i64 {n : Int} (h : I64 n) : wrapping n = n := by
  simp only [I64, i64Min, i64Max] at h
  exact Int.bmod_eq_of_le (by omega) (by omega)

theorem wrapping_le {n : Int} (h : i64Min ≤ n) : wrapping n ≤ n := by
  rw [i64Min] at h
  rw [wrapping, Int.bmod_def]
  split <;> omega

theorem split_ok {bytes first rest : Bytes} {n : Nat} :
    split bytes n = .ok (first, rest) ↔ first.length = n ∧ bytes = first ++ rest := by
  rw [split, ← splitBytes_eq_some]
  cases splitBytes n bytes <;> simp

theorem split_append {first rest : Bytes} {n : Nat} (h : first.length = n) :
    split (first ++ rest) n = .ok (first, rest) := split_ok.2 ⟨h, rfl⟩

theorem i64_wrapping (n : Int) : I64 (wrapping n) := by
  have hle := Int.le_bmod (x := n) (m := 2 ^ 64) (by decide)
  have hlt := Int.bmod_lt (x := n) (m := 2 ^ 64) (by decide)
  simp only [I64, i64Min, i64Max, wrapping]
  omega

theorem parse_ok {frame : Bytes} {p : Parts} (h : parse frame = .ok p) :
    p.nonce.length = nonceLen ∧ p.route.utf8ByteSize ≤ 255 ∧ I64 p.tsMs := by
  rw [parse] at h
  split at h
  · simp only [bind_eq_ok, Prod.exists] at h
    obtain ⟨_, _, -, nonce, _, hnonce, count, _, hcount, route, _, hroute, h⟩ := h
    split at h
    · cases h
    · next hutf8 =>
      simp only [bind_eq_ok, Prod.exists] at h
      obtain ⟨_, _, -, h⟩ := h
      rw [← Except.ok.inj h]
      dsimp only
      obtain ⟨b, hb⟩ := List.length_eq_one_iff.1 (split_ok.1 hcount).1
      have hlength := (split_ok.1 hroute).1
      have hlt := b.toNat_lt
      rw [fromUTF8?_eq_some.1 hutf8, length_utf8, hb, fromBeBytes, List.foldl_cons,
        List.foldl_nil] at hlength
      exact ⟨(split_ok.1 hnonce).1, by omega, i64_wrapping _⟩
  · cases h

variable {room : String} {w : Crypto} {tsMs : Int} {nonce : Bytes}

/-- An opened frame has a whole nonce and is not from too far ahead. -/
theorem openFrame_ok {frame : Bytes} {sender : String} {delivery : Delivery} {nowMs : Int}
    {o : Opened} (h : openFrame w frame sender room delivery nowMs = .ok o) :
    o.nonce.length = nonceLen ∧ o.tsMs ≤ wrapping (nowMs + liveSkewMs) := by
  simp only [openFrame, bind_eq_ok] at h
  obtain ⟨p, hp, h⟩ := h
  split at h
  · split at h
    · cases h
    · split at h
      · split at h
        · cases h
        · next hnow =>
          rw [← Except.ok.inj h]
          exact ⟨(parse_ok hp).1, not_lt.1 hnow⟩
      · cases h
  · cases h

theorem wrapping_stampBytes (h : I64 tsMs) : wrapping (fromBeBytes (stampBytes tsMs)) = tsMs := by
  have hnonneg : 0 ≤ tsMs % 2 ^ 64 := Int.emod_nonneg _ (by decide)
  have hlt : tsMs % 2 ^ 64 < 2 ^ 64 := Int.emod_lt_of_pos _ (by decide)
  rw [stampBytes, fromBeBytes_toBeBytes (by omega), Int.toNat_of_nonneg hnonneg]
  exact (Int.emod_bmod tsMs (2 ^ 64)).trans (wrapping_of_i64 h)

theorem parse_sealAt {sign : Bytes → Bytes} {route : String} {body : Bytes}
    (hsign : ∀ bytes, (sign bytes).length = sigLen) (hroute : route.utf8ByteSize ≤ 255)
    (hts : I64 tsMs) (hnonce : nonce.length = nonceLen) :
    parse (sealAt w sign room route tsMs nonce body) =
      .ok ⟨tsMs, nonce, route,
        sign (signedBytes w room (utf8 route) tsMs nonce body), body⟩ := by
  have hlen : (utf8 route).length ≤ 255 := by rwa [length_utf8]
  have hcut : (utf8 route).take 255 = (utf8 route) :=
    List.take_of_length_le hlen
  have hcount : fromBeBytes [UInt8.ofNat (utf8 route).length] =
      (utf8 route).length := by
    simp only [fromBeBytes, List.foldl_cons, List.foldl_nil, UInt8.toNat_ofNat']
    omega
  have hutf8 : String.fromUTF8? ⟨(utf8 route).toArray⟩ = some route := fromUTF8?_eq_some.2 rfl
  simp only [parse, sealAt, hcut, List.append_assoc, List.prefix_append, if_true,
    List.drop_left, split_append (length_toBeBytes 8 _), stampBytes, split_append hnonce,
    split_append (List.length_singleton), hcount, split_append rfl, hutf8, split_append (hsign _),
    bind, Except.bind]
  rw [← stampBytes, wrapping_stampBytes hts]

/-- A sealed frame opens with its body where it is routed to, unless it is too far ahead. -/
theorem openFrame_sealAt {sign : Bytes → Bytes} {sender route : String} {key : w.Key}
    {delivery : Delivery} {nowMs : Int} {body : Bytes} (hkey : w.pubkeyFromPeerId sender = some key)
    (hverify : w.verifyStrict key (signedBytes w room (utf8 route) tsMs nonce body)
      (sign (signedBytes w room (utf8 route) tsMs nonce body)) = true)
    (hsign : ∀ bytes, (sign bytes).length = sigLen) (hroute : route.utf8ByteSize ≤ 255)
    (hrouted : routedHere route delivery = true) (hts : I64 tsMs)
    (hnonce : nonce.length = nonceLen) (hnow : tsMs ≤ wrapping (nowMs + liveSkewMs)) :
    openFrame w (sealAt w sign room route tsMs nonce body) sender room delivery nowMs =
      .ok ⟨tsMs, nonce, body⟩ := by
  simp [openFrame, parse_sealAt hsign hroute hts hnonce, bind, Except.bind, hrouted, hkey, hverify,
    not_lt.2 hnow]

/-- What a device sealed. -/
structure Sealed where
  room : String
  route : String
  tsMs : Int
  nonce : Bytes
  body : Bytes

namespace Sealed

def signed (w : Crypto) (s : Sealed) : Bytes :=
  signedBytes w s.room ((utf8 s.route).take 255) s.tsMs s.nonce s.body

structure Typed (s : Sealed) : Prop where
  room : s.room.utf8ByteSize < 2 ^ 32
  tsMs : I64 s.tsMs
  nonce : s.nonce.length = nonceLen

end Sealed

theorem stampBytes_inj {a b : Int} (ha : I64 a) (hb : I64 b) (h : stampBytes a = stampBytes b) :
    a = b := by
  rw [← wrapping_stampBytes ha, h, wrapping_stampBytes hb]

/-- Every field is of fixed width or has its length before it. -/
theorem signedBytes_inj {room' : String} {route route' : Bytes} {tsMs' : Int}
    {nonce' body body' : Bytes} (hroom : room.utf8ByteSize < 2 ^ 32)
    (hroom' : room'.utf8ByteSize < 2 ^ 32) (hroute : route.length < 2 ^ 32)
    (hroute' : route'.length < 2 ^ 32) (hts : I64 tsMs) (hts' : I64 tsMs')
    (hnonce : nonce.length = nonce'.length)
    (h : signedBytes w room route tsMs nonce body = signedBytes w room' route' tsMs' nonce' body') :
    room = room' ∧ route = route' ∧ tsMs = tsMs' ∧ nonce = nonce' ∧
      w.sha256 body = w.sha256 body' := by
  simp only [signedBytes, List.append_assoc] at h
  obtain ⟨hsize, h⟩ := List.append_inj (List.append_cancel_left h) (by simp [length_toBeBytes])
  have hsize := toBeBytes_inj hroom hroom' hsize
  obtain ⟨hr, h⟩ := List.append_inj h (by rw [length_utf8, length_utf8, hsize])
  obtain ⟨hcount, h⟩ := List.append_inj h (by simp [length_toBeBytes])
  obtain ⟨hroutes, h⟩ := List.append_inj h (toBeBytes_inj hroute hroute' hcount)
  obtain ⟨hstamp, h⟩ := List.append_inj h (by simp [stampBytes, length_toBeBytes])
  obtain ⟨hn, hbody⟩ := List.append_inj h hnonce
  exact ⟨utf8_inj hr, hroutes, stampBytes_inj hts hts' hstamp, hn, hbody⟩

/-- A frame that opens is one its sender sealed: for this room, for a route it arrived by, with the
stamp, the nonce and the digest of the body. -/
theorem opened_was_sealed {w : Crypto} {sealed : Set Sealed} {sender room : String} {key : w.Key}
    {delivery : Delivery} {frame : Bytes} {nowMs : Int} {o : Opened}
    (hkey : w.pubkeyFromPeerId sender = some key)
    (hsigned : ∀ bytes sig, w.verifyStrict key bytes sig → ∃ s ∈ sealed, bytes = s.signed w)
    (htyped : ∀ s ∈ sealed, s.Typed) (hroom : room.utf8ByteSize < 2 ^ 32)
    (h : openFrame w frame sender room delivery nowMs = .ok o) :
    ∃ s ∈ sealed, s.room = room ∧ s.tsMs = o.tsMs ∧ s.nonce = o.nonce ∧
      w.sha256 s.body = w.sha256 o.body ∧
        ∃ route, routedHere route delivery ∧ (utf8 s.route).take 255 = utf8 route := by
  simp only [openFrame, bind_eq_ok, hkey] at h
  obtain ⟨p, hp, h⟩ := h
  obtain ⟨hnonce, hroute, hts⟩ := parse_ok hp
  split_ifs at h with hrouted hverify
  rw [← Except.ok.inj h]
  obtain ⟨s, hs, heq⟩ := hsigned _ _ hverify
  have ht := htyped s hs
  obtain ⟨hr, hroutes, hstamp, hn, hbody⟩ := signedBytes_inj hroom ht.room
    (by rw [length_utf8]; omega) (by rw [List.length_take]; omega) hts ht.tsMs
    (hnonce.trans ht.nonce.symm) heq
  exact ⟨s, hs, hr.symm, hstamp.symm, hn.symm, hbody.symm, p.route, hrouted, hroutes.symm⟩

def openKeys : Crypto := ⟨Unit, fun _ => some (), fun _ _ _ => true, id⟩

def sampleSealed : Sealed := ⟨"lobby", routeRoom, 0, List.replicate nonceLen 0, []⟩

def sampleKeys : Crypto :=
  { openKeys with verifyStrict := fun _ bytes _ => decide (bytes = sampleSealed.signed openKeys) }

theorem signed_sampleKeys : sampleSealed.signed sampleKeys = sampleSealed.signed openKeys := by
  simp only [Sealed.signed, signedBytes]
  rfl

theorem opened_was_sealed_lobby :
    ∃ frame, openFrame sampleKeys frame "alice" "lobby" .room 0 =
        .ok ⟨0, List.replicate nonceLen 0, []⟩ ∧
      ∃ s ∈ ({sampleSealed} : Set Sealed), s.room = "lobby" ∧ s.tsMs = 0 ∧
        s.nonce = List.replicate nonceLen 0 ∧ sampleKeys.sha256 s.body = sampleKeys.sha256 [] ∧
          ∃ route, routedHere route .room ∧ (utf8 s.route).take 255 = utf8 route := by
  have hts : I64 0 := ⟨by decide, by decide⟩
  have hkey : sampleKeys.pubkeyFromPeerId "alice" = some () := rfl
  have hroute : (utf8 routeRoom).take 255 = utf8 routeRoom :=
    List.take_of_length_le (by rw [length_utf8]; decide)
  have hsigned : signedBytes sampleKeys "lobby" (utf8 routeRoom) 0 (List.replicate nonceLen 0) [] =
      sampleSealed.signed openKeys := by
    rw [← signed_sampleKeys, Sealed.signed, sampleSealed, hroute]
  have hopen : openFrame sampleKeys (sealAt sampleKeys (fun _ => List.replicate sigLen 0) "lobby"
      routeRoom 0 (List.replicate nonceLen 0) []) "alice" "lobby" .room 0 =
        .ok ⟨0, List.replicate nonceLen 0, []⟩ :=
    openFrame_sealAt hkey (decide_eq_true hsigned) (fun _ => List.length_replicate) (by decide) rfl
      hts List.length_replicate (by decide)
  refine ⟨_, hopen, opened_was_sealed hkey (fun bytes sig hverify => ?_) ?_ (by decide) hopen⟩
  · exact ⟨_, rfl, (of_decide_eq_true hverify).trans signed_sampleKeys.symm⟩
  · rintro _ rfl
    exact ⟨by decide, hts, List.length_replicate⟩

end Hollow.Frames
