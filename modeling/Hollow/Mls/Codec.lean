import Mathlib.Data.List.Induction
import Hollow.Mls.Tally

/-! The bytes of a tally. `Tally.decode_eq_some` says which bytes decode, and to what: those a tally
within the limits encodes to. The encoder cuts a length to the field that holds it, so that past a
field's range two tallies can share their bytes. -/

namespace Hollow.Mls

variable {bytes rest : List UInt8} {epochs : List Nat} {width n : Nat}

theorem length_toBeBytes (width n : Nat) : (toBeBytes width n).length = width := by
  induction width generalizing n with
  | zero => rfl
  | succ width ih => rw [toBeBytes, List.length_append, ih, List.length_singleton]

theorem fromBeBytes_concat (bytes : List UInt8) (b : UInt8) :
    fromBeBytes (bytes ++ [b]) = fromBeBytes bytes * 256 + b.toNat := by
  simp [fromBeBytes]

theorem fromBeBytes_toBeBytes (h : n < 256 ^ width) : fromBeBytes (toBeBytes width n) = n := by
  induction width generalizing n with
  | zero =>
    have hn : n = 0 := by simpa using h
    rw [hn]
    rfl
  | succ width ih =>
    have hlt : n / 256 < 256 ^ width := by
      rw [pow_succ] at h
      omega
    rw [toBeBytes, fromBeBytes_concat, ih hlt, UInt8.toNat_ofNat']
    omega

theorem fromBeBytes_lt (bytes : List UInt8) : fromBeBytes bytes < 256 ^ bytes.length := by
  induction bytes using List.reverseRecOn with
  | nil => decide
  | append_singleton bytes b ih =>
    have hb := b.toNat_lt
    rw [fromBeBytes_concat, List.length_append, List.length_singleton, pow_succ]
    omega

theorem toBeBytes_fromBeBytes (bytes : List UInt8) :
    toBeBytes bytes.length (fromBeBytes bytes) = bytes := by
  induction bytes using List.reverseRecOn with
  | nil => rfl
  | append_singleton bytes b ih =>
    have hb := b.toNat_lt
    have hhigh : (fromBeBytes bytes * 256 + b.toNat) / 256 = fromBeBytes bytes := by omega
    have hlow : UInt8.ofNat (fromBeBytes bytes * 256 + b.toNat) = b := by
      rw [← UInt8.toNat_inj, UInt8.toNat_ofNat']
      omega
    rw [fromBeBytes_concat, List.length_append, List.length_singleton, toBeBytes, hhigh, ih, hlow]

theorem fromBeBytes_eq_iff :
    bytes.length = width ∧ fromBeBytes bytes = n ↔ n < 256 ^ width ∧ bytes = toBeBytes width n := by
  constructor
  · rintro ⟨rfl, rfl⟩
    exact ⟨fromBeBytes_lt _, (toBeBytes_fromBeBytes _).symm⟩
  · rintro ⟨hn, rfl⟩
    exact ⟨length_toBeBytes _ _, fromBeBytes_toBeBytes hn⟩

theorem toBeBytes_inj {a b : Nat} (ha : a < 256 ^ width) (hb : b < 256 ^ width)
    (h : toBeBytes width a = toBeBytes width b) : a = b := by
  rw [← fromBeBytes_toBeBytes ha, h, fromBeBytes_toBeBytes hb]

theorem splitBytes_eq_some {block : List UInt8} :
    splitBytes n bytes = some (block, rest) ↔ block.length = n ∧ bytes = block ++ rest := by
  rw [splitBytes, List.splitAt_eq]
  constructor
  · intro h
    split_ifs at h with hle
    obtain ⟨rfl, rfl⟩ := Prod.mk.inj (Option.some.inj h)
    exact ⟨List.length_take_of_le hle, (List.take_append_drop n bytes).symm⟩
  · rintro ⟨rfl, rfl⟩
    simp

theorem splitBytes_toBeBytes (width n : Nat) (rest : List UInt8) :
    splitBytes width (toBeBytes width n ++ rest) = some (toBeBytes width n, rest) :=
  splitBytes_eq_some.2 ⟨length_toBeBytes width n, rfl⟩

theorem ofNat_length_inj {a b : Nat} (ha : a < 256) (hb : b < 256)
    (h : UInt8.ofNat a = UInt8.ofNat b) : a = b := by
  have hnat := congrArg UInt8.toNat h
  rwa [UInt8.toNat_ofNat_of_lt' ha, UInt8.toNat_ofNat_of_lt' hb] at hnat

/-- The numbers of a list are `u64`. -/
def U64s (epochs : List Nat) : Prop := ∀ e ∈ epochs, e < 256 ^ 8

theorem u64s_cons {e : Nat} : U64s (e :: epochs) ↔ e < 256 ^ 8 ∧ U64s epochs := List.forall_mem_cons

theorem readEpochs_eq_some :
    readEpochs n bytes = some (epochs, rest) ↔
      epochs.length = n ∧ U64s epochs ∧ bytes = epochs.flatMap (toBeBytes 8) ++ rest := by
  induction n generalizing bytes epochs rest with
  | zero =>
    rw [readEpochs, Option.some_inj, Prod.mk.injEq, List.length_eq_zero_iff]
    constructor
    · rintro ⟨rfl, rfl⟩
      exact ⟨rfl, by simp [U64s], rfl⟩
    · rintro ⟨rfl, -, rfl⟩
      exact ⟨rfl, rfl⟩
  | succ n ih =>
    simp only [readEpochs, Option.bind_eq_bind, Option.bind_eq_some_iff, Prod.exists,
      splitBytes_eq_some, ih, Option.some_inj, Prod.mk.injEq]
    constructor
    · rintro ⟨block, mid, ⟨hblock, rfl⟩, tail, last, ⟨rfl, htail, rfl⟩, rfl, rfl⟩
      obtain ⟨hlt, hbytes⟩ := fromBeBytes_eq_iff.1 ⟨hblock, rfl⟩
      refine ⟨rfl, u64s_cons.2 ⟨hlt, htail⟩, ?_⟩
      rw [List.flatMap_cons, ← hbytes, List.append_assoc]
    · rintro ⟨hlength, hu64, rfl⟩
      cases epochs with
      | nil => cases hlength
      | cons e tail =>
        obtain ⟨hlt, htail⟩ := u64s_cons.1 hu64
        refine ⟨toBeBytes 8 e, tail.flatMap (toBeBytes 8) ++ rest, ⟨length_toBeBytes _ _, ?_⟩, tail,
          rest, ⟨Nat.succ.inj hlength, htail, rfl⟩, ?_, rfl⟩
        · rw [List.flatMap_cons, List.append_assoc]
        · rw [fromBeBytes_toBeBytes hlt]

theorem takeEpochs_eq_some :
    takeEpochs bytes = some (epochs, rest) ↔
      epochs.length ≤ tallyDepth ∧ U64s epochs ∧ bytes = putEpochs epochs ++ rest := by
  cases bytes with
  | nil => simp [takeEpochs, putEpochs]
  | cons b bytes =>
    rw [takeEpochs, putEpochs, List.cons_append, List.cons.injEq]
    constructor
    · intro h
      split_ifs at h with hdepth
      obtain ⟨hlength, hu64, hbytes⟩ := readEpochs_eq_some.1 h
      rw [hlength]
      exact ⟨not_lt.1 hdepth, hu64, (UInt8.ofNat_toNat).symm, hbytes⟩
    · rintro ⟨hlength, hu64, rfl, hbytes⟩
      have hnat : (UInt8.ofNat epochs.length).toNat = epochs.length :=
        UInt8.toNat_ofNat_of_lt' (lt_of_le_of_lt hlength (by decide))
      rw [hnat, if_neg (not_lt.2 hlength)]
      exact readEpochs_eq_some.2 ⟨rfl, hu64, hbytes⟩

theorem takeEpochs_putEpochs (hlen : epochs.length ≤ tallyDepth) (h64 : U64s epochs)
    (rest : List UInt8) : takeEpochs (putEpochs epochs ++ rest) = some (epochs, rest) :=
  takeEpochs_eq_some.2 ⟨hlen, h64, rfl⟩

theorem putEpochs_append_inj {epochs' : List Nat} {rest' : List UInt8} (hlen : epochs.length < 256)
    (hlen' : epochs'.length < 256) (h64 : U64s epochs) (h64' : U64s epochs')
    (h : putEpochs epochs ++ rest = putEpochs epochs' ++ rest') :
    epochs = epochs' ∧ rest = rest' := by
  rw [putEpochs, putEpochs, List.cons_append, List.cons_append, List.cons.injEq] at h
  have hlength := ofNat_length_inj hlen hlen' h.1
  have hread : readEpochs epochs.length (epochs.flatMap (toBeBytes 8) ++ rest) =
      some (epochs, rest) := readEpochs_eq_some.2 ⟨rfl, h64, rfl⟩
  have hread' : readEpochs epochs.length (epochs'.flatMap (toBeBytes 8) ++ rest') =
      some (epochs', rest') := readEpochs_eq_some.2 ⟨hlength.symm, h64', rfl⟩
  rw [h.2, hread'] at hread
  obtain ⟨heq, hrest⟩ := Prod.mk.inj (Option.some.inj hread)
  exact ⟨heq.symm, hrest.symm⟩

def utf8 (s : String) : List UInt8 := s.toUTF8.data.toList

theorem length_utf8 (s : String) : (utf8 s).length = s.utf8ByteSize := by
  rw [utf8, Array.length_toList]
  rfl

theorem utf8_inj {s s' : String} (h : utf8 s = utf8 s') : s = s' :=
  String.toByteArray_inj.1 (ByteArray.ext (Array.toList_inj.1 h))

theorem fromUTF8?_eq_some {s : String} :
    String.fromUTF8? ⟨bytes.toArray⟩ = some s ↔ bytes = utf8 s := by
  rw [String.fromUTF8?]
  constructor
  · intro h
    split_ifs at h with hvalid
    rw [← Option.some.inj h]
    rfl
  · rintro rfl
    have hbytes : (⟨(utf8 s).toArray⟩ : ByteArray) = s.toByteArray := ByteArray.ext rfl
    rw [hbytes, dif_pos s.isValidUTF8]
    rfl

def putCarried (p : String × List Nat) : List UInt8 :=
  UInt8.ofNat p.1.utf8ByteSize :: (utf8 p.1 ++ putEpochs p.2)

/-- An entry of a carried list that the decoder accepts. -/
structure EntryFits (p : String × List Nat) : Prop where
  named : 0 < p.1.utf8ByteSize
  name : p.1.utf8ByteSize ≤ maxMasterLen
  epochs : p.2.length ≤ tallyDepth

namespace Tally

theorem decodeCarried_eq_some {named : List String} {carried : List (String × List Nat)} :
    decodeCarried n named bytes = some (carried, rest) ↔
      carried.length = n ∧ (∀ p ∈ carried, EntryFits p ∧ U64s p.2 ∧ p.1 ∉ named) ∧
        (carried.map Prod.fst).Nodup ∧ bytes = carried.flatMap putCarried ++ rest := by
  induction n generalizing bytes named carried rest with
  | zero =>
    rw [decodeCarried, Option.some_inj, Prod.mk.injEq, List.length_eq_zero_iff]
    constructor
    · rintro ⟨rfl, rfl⟩
      exact ⟨rfl, by simp, List.nodup_nil, rfl⟩
    · rintro ⟨rfl, -, -, rfl⟩
      exact ⟨rfl, rfl⟩
  | succ n ih =>
    cases bytes with
    | nil =>
      rw [decodeCarried]
      refine ⟨fun h => (by cases h), fun h => ?_⟩
      obtain ⟨hlength, -, -, h⟩ := h
      cases carried with
      | nil => cases hlength
      | cons p carried => simp [putCarried] at h
    | cons len bytes =>
      rw [decodeCarried]
      constructor
      · intro h
        split_ifs at h with hlen
        simp only [Option.bind_eq_bind, Option.bind_eq_some_iff, Prod.exists, splitBytes_eq_some,
          fromUTF8?_eq_some] at h
        obtain ⟨_, mid, ⟨hname, rfl⟩, master, rfl, h⟩ := h
        split_ifs at h with hnamed
        simp only [Option.bind_eq_some_iff, Prod.exists, takeEpochs_eq_some, ih, Option.some_inj,
          Prod.mk.injEq] at h
        obtain ⟨list, _, ⟨hdepth, hu64, rfl⟩, tail, _, ⟨rfl, htail, hnodup, rfl⟩, rfl, rfl⟩ := h
        rw [length_utf8] at hname
        rw [not_or, not_lt, ← UInt8.toNat_inj] at hlen
        have hfits : EntryFits (master, list) := ⟨by
          rw [hname]
          exact Nat.pos_of_ne_zero hlen.1, hname ▸ hlen.2, hdepth⟩
        refine ⟨rfl, List.forall_mem_cons.2 ⟨⟨hfits, hu64, hnamed⟩, fun p hp => ?_⟩, ?_, ?_⟩
        · obtain ⟨h₁, h₂, h₃⟩ := htail p hp
          exact ⟨h₁, h₂, fun hmem => h₃ (List.mem_cons_of_mem _ hmem)⟩
        · refine List.nodup_cons.2 ⟨fun hmem => ?_, hnodup⟩
          obtain ⟨p, hp, heq⟩ := List.mem_map.1 hmem
          exact (htail p hp).2.2 (heq ▸ List.mem_cons_self)
        · simp [putCarried, hname]
      · rintro ⟨hlength, hentries, hnodup, hbytes⟩
        cases carried with
        | nil => cases hlength
        | cons p carried =>
          obtain ⟨⟨hfits, hu64, hnamed⟩, htail⟩ := List.forall_mem_cons.1 hentries
          obtain ⟨hfresh, hnodup⟩ := List.nodup_cons.1 hnodup
          rw [List.flatMap_cons, putCarried, List.cons_append, List.cons_append,
            List.cons.injEq] at hbytes
          obtain ⟨rfl, rfl⟩ := hbytes
          have hname := hfits.name
          have hnat : (UInt8.ofNat p.1.utf8ByteSize).toNat = p.1.utf8ByteSize :=
            UInt8.toNat_ofNat_of_lt' (lt_of_le_of_lt hname (by decide))
          have hlen : ¬ (UInt8.ofNat p.1.utf8ByteSize = 0 ∨
              maxMasterLen < (UInt8.ofNat p.1.utf8ByteSize).toNat) := by
            rw [not_or, not_lt, ← UInt8.toNat_inj, hnat]
            exact ⟨hfits.named.ne', hname⟩
          rw [if_neg hlen, hnat]
          have hsplit : splitBytes p.1.utf8ByteSize
              (utf8 p.1 ++ putEpochs p.2 ++ carried.flatMap putCarried ++ rest) =
                some (utf8 p.1, putEpochs p.2 ++ carried.flatMap putCarried ++ rest) :=
            splitBytes_eq_some.2 ⟨length_utf8 _, by simp⟩
          have hrest : decodeCarried n (p.1 :: named) (carried.flatMap putCarried ++ rest) =
              some (carried, rest) := by
            refine ih.2 ⟨Nat.succ.inj hlength, fun q hq => ?_, hnodup, rfl⟩
            obtain ⟨h₁, h₂, h₃⟩ := htail q hq
            refine ⟨h₁, h₂, fun hmem => ?_⟩
            rcases List.mem_cons.1 hmem with heq | hmem
            · exact hfresh (heq ▸ List.mem_map_of_mem hq)
            · exact h₃ hmem
          simp only [List.append_assoc] at hsplit ⊢
          simp [hsplit, fromUTF8?_eq_some.2 rfl, hnamed, takeEpochs_putEpochs hfits.epochs hu64,
            hrest]

/-- The numbers are of the types the source gives them, `u32` and `u64`. -/
structure Typed (t : Tally) : Prop where
  day : t.refreshedDay < 256 ^ 4
  epochs : U64s t.epochs
  carried : ∀ p ∈ t.carried, U64s p.2

structure Fits (t : Tally) : Prop where
  epochs : t.epochs.length ≤ tallyDepth
  carried : t.carried.length ≤ maxCarried
  named : (t.carried.map Prod.fst).Nodup
  entries : ∀ p ∈ t.carried, EntryFits p

/-- Every length fits the field that holds it. -/
structure Counted (t : Tally) : Prop where
  epochs : t.epochs.length < 256
  carried : t.carried.length < 256 ^ 2
  names : ∀ p ∈ t.carried, p.1.utf8ByteSize < 256
  lists : ∀ p ∈ t.carried, p.2.length < 256

variable {t t' : Tally}

theorem Fits.counted (h : t.Fits) : t.Counted where
  epochs := lt_of_le_of_lt h.epochs (by decide)
  carried := lt_of_le_of_lt h.carried (by decide)
  names p hp := lt_of_le_of_lt (h.entries p hp).name (by decide)
  lists p hp := lt_of_le_of_lt (h.entries p hp).epochs (by decide)

theorem encode_eq (t : Tally) :
    t.encode = tallyVersion :: (toBeBytes 4 t.refreshedDay ++ (putEpochs t.epochs ++
      (toBeBytes 2 t.carried.length ++ t.carried.flatMap putCarried))) := by
  have hcarried : ∀ p ∈ t.carried, UInt8.ofNat p.1.utf8ByteSize ::
      (p.1.toUTF8.data.toList ++ putEpochs p.2) = putCarried p := by
    intro p _
    simp [putCarried, utf8]
  simpa [encode] using List.flatMap_congr hcarried

/-- Decoding accepts exactly the encodings of tallies that fit, and inverts them. -/
theorem decode_eq_some {bytes : List UInt8} :
    decode bytes = some t ↔ t.Typed ∧ t.Fits ∧ bytes = t.encode := by
  rw [encode_eq]
  cases bytes with
  | nil => simp [decode]
  | cons version bytes =>
    rw [decode]
    constructor
    · intro h
      split_ifs at h with hversion
      simp only [Option.bind_eq_bind, Option.bind_eq_some_iff, Prod.exists, splitBytes_eq_some,
        takeEpochs_eq_some] at h
      obtain ⟨day, _, ⟨hday, rfl⟩, epochs, _, ⟨hdepth, hu64, rfl⟩, count, _, ⟨hcount, rfl⟩, h⟩ := h
      split_ifs at h with hmax
      simp only [Option.bind_eq_some_iff, Prod.exists, decodeCarried_eq_some] at h
      obtain ⟨carried, last, ⟨hlength, hentries, hnodup, rfl⟩, h⟩ := h
      split_ifs at h with hlast
      obtain rfl := List.isEmpty_iff.1 hlast
      obtain rfl := Option.some.inj h
      obtain ⟨hdaylt, hdayeq⟩ := fromBeBytes_eq_iff.1 ⟨hday, rfl⟩
      obtain ⟨-, rfl⟩ := fromBeBytes_eq_iff.1 ⟨hcount, hlength.symm⟩
      refine ⟨⟨hdaylt, hu64, fun p hp => (hentries p hp).2.1⟩,
        ⟨hdepth, hlength.le.trans (not_lt.1 hmax), hnodup, fun p hp => (hentries p hp).1⟩, ?_⟩
      simp [hversion, ← hdayeq]
    · rintro ⟨htyped, hfits, hbytes⟩
      obtain ⟨rfl, rfl⟩ := List.cons.inj hbytes
      have hcount : t.carried.length < 256 ^ 2 := hfits.counted.carried
      have hcarried : decodeCarried t.carried.length [] (t.carried.flatMap putCarried) =
          some (t.carried, []) :=
        decodeCarried_eq_some.2
          ⟨rfl, fun p hp => ⟨hfits.entries p hp, htyped.carried p hp, by simp⟩,
          hfits.named, by simp⟩
      rw [if_pos rfl]
      simp [splitBytes_toBeBytes, takeEpochs_putEpochs hfits.epochs htyped.epochs,
        fromBeBytes_toBeBytes hcount, fromBeBytes_toBeBytes htyped.day, not_lt.2 hfits.carried,
        hcarried]

theorem checked_eq_self_iff : t.checked = some t ↔ t.Typed ∧ t.Fits := by
  rw [checked]
  split_ifs with h
  · simpa using decode_eq_some.1 h
  · have hnot : ¬ (t.Typed ∧ t.Fits) := fun hfits =>
      h (decode_eq_some.2 ⟨hfits.1, hfits.2, rfl⟩)
    simp [hnot]

theorem isSome_checked : t.checked.isSome ↔ t.Typed ∧ t.Fits := by
  rw [← checked_eq_self_iff, checked]
  split_ifs <;> simp

theorem putCarried_append_inj {p q : String × List Nat} {rest rest' : List UInt8}
    (hp : p.1.utf8ByteSize < 256 ∧ p.2.length < 256 ∧ U64s p.2)
    (hq : q.1.utf8ByteSize < 256 ∧ q.2.length < 256 ∧ U64s q.2)
    (h : putCarried p ++ rest = putCarried q ++ rest') : p = q ∧ rest = rest' := by
  simp only [putCarried, List.cons_append, List.cons.injEq, List.append_assoc] at h
  have hsize := ofNat_length_inj hp.1 hq.1 h.1
  obtain ⟨hname, hlist⟩ := List.append_inj h.2 (by rw [length_utf8, length_utf8, hsize])
  obtain ⟨hepochs, hrest⟩ := putEpochs_append_inj hp.2.1 hq.2.1 hp.2.2 hq.2.2 hlist
  exact ⟨Prod.ext (utf8_inj hname) hepochs, hrest⟩

theorem flatMap_putCarried_inj {carried carried' : List (String × List Nat)}
    (hlength : carried.length = carried'.length)
    (h₁ : ∀ p ∈ carried, p.1.utf8ByteSize < 256 ∧ p.2.length < 256 ∧ U64s p.2)
    (h₂ : ∀ p ∈ carried', p.1.utf8ByteSize < 256 ∧ p.2.length < 256 ∧ U64s p.2)
    (h : carried.flatMap putCarried = carried'.flatMap putCarried) : carried = carried' := by
  induction carried generalizing carried' with
  | nil => exact (List.length_eq_zero_iff.1 hlength.symm).symm
  | cons p carried ih =>
    cases carried' with
    | nil => cases hlength
    | cons q carried' =>
      obtain ⟨hp, h₁⟩ := List.forall_mem_cons.1 h₁
      obtain ⟨hq, htail₂⟩ := List.forall_mem_cons.1 h₂
      obtain ⟨rfl, htail⟩ := putCarried_append_inj hp hq h
      rw [ih (Nat.succ.inj hlength) h₁ htail₂ htail]

theorem encode_inj (ht : t.Typed) (ht' : t'.Typed) (hc : t.Counted) (hc' : t'.Counted)
    (h : t.encode = t'.encode) : t = t' := by
  rw [encode_eq, encode_eq, List.cons.injEq] at h
  obtain ⟨hday, h⟩ := List.append_inj h.2 (by rw [length_toBeBytes, length_toBeBytes])
  obtain ⟨hepochs, h⟩ := putEpochs_append_inj hc.epochs hc'.epochs ht.epochs ht'.epochs h
  obtain ⟨hcount, h⟩ := List.append_inj h (by rw [length_toBeBytes, length_toBeBytes])
  have hcarried := flatMap_putCarried_inj (toBeBytes_inj hc.carried hc'.carried hcount)
    (fun p hp => ⟨hc.names p hp, hc.lists p hp, ht.carried p hp⟩)
    (fun p hp => ⟨hc'.names p hp, hc'.lists p hp, ht'.carried p hp⟩) h
  cases t
  cases t'
  cases toBeBytes_inj ht.day ht'.day hday
  cases hepochs
  cases hcarried
  rfl

/-- Of the tallies whose lengths fit their fields exactly the accepted ones decode, as themselves,
and no two byte strings decode to one tally. -/
theorem codec_bijective :
    (∀ t : Tally, t.Typed → t.Counted → (t.checked.isSome ↔ (decode t.encode).isSome)) ∧
      (∀ t : Tally, t.checked.isSome ↔ t.Typed ∧ t.Fits) ∧
      (∀ t : Tally, t.checked.isSome → decode t.encode = some t) ∧
      ∀ (bytes : List UInt8) (t : Tally), decode bytes = some t → t.encode = bytes := by
  refine ⟨fun t ht hc => ⟨fun h => ?_, fun h => ?_⟩, fun t => isSome_checked, fun t h => ?_,
    fun bytes t h => (decode_eq_some.1 h).2.2.symm⟩
  · obtain ⟨htyped, hfits⟩ := isSome_checked.1 h
    rw [decode_eq_some.2 ⟨htyped, hfits, rfl⟩]
    rfl
  · obtain ⟨t', ht'⟩ := Option.isSome_iff_exists.1 h
    obtain ⟨htyped, hfits, hbytes⟩ := decode_eq_some.1 ht'
    obtain rfl := encode_inj ht htyped hc hfits.counted hbytes
    exact isSome_checked.2 ⟨htyped, hfits⟩
  · obtain ⟨htyped, hfits⟩ := isSome_checked.1 h
    exact decode_eq_some.2 ⟨htyped, hfits, rfl⟩

/-- A tally comes back from its bytes, and one with a fourth epoch is refused by both sides. -/
theorem codec_bijective_fourEpochs :
    decode (Tally.mk 5 [9, 8, 7] [("n", [10, 9])]).encode = some ⟨5, [9, 8, 7], [("n", [10, 9])]⟩ ∧
      ¬ (decode (Tally.mk 5 [9, 8, 7, 6] []).encode).isSome := by
  obtain ⟨hiff, hfits, hback, -⟩ := codec_bijective
  refine ⟨hback _ (by decide +kernel), fun h => ?_⟩
  have hchecked := (hiff _ ⟨by decide, by simp [U64s], by simp⟩
    ⟨by decide, by decide, by simp, by simp⟩).2 h
  exact absurd ((hfits _).1 hchecked).2.epochs (by decide)

def fourCarried : Tally where
  refreshedDay := 0
  epochs := []
  carried := [("a", [0, 0, 0]), (String.ofList (List.replicate 64 'b'), [0, 0, 0]),
    (String.ofList (List.replicate 64 'c'), [0, 0, 0]),
    (String.ofList (List.replicate 50 'd') ++ "\x00\x01x\x00\x01y\x00\x01z", [])]

/-- A master's name of 257 bytes, of which the field keeps a length of 1. -/
def longName : Tally where
  refreshedDay := 0
  epochs := []
  carried :=
    [("a\x03" ++ String.ofList (List.replicate 24 '\x00') ++
        "@" ++ String.ofList (List.replicate 64 'b') ++ "\x03" ++
        String.ofList (List.replicate 24 '\x00') ++
        "@" ++ String.ofList (List.replicate 64 'c') ++ "\x03" ++
        String.ofList (List.replicate 24 '\x00') ++
        ";" ++ String.ofList (List.replicate 50 'd'), []),
      ("x", []), ("y", []), ("z", [])]

/-- The bytes of a name past its field's range are read as entries of their own. -/
theorem not_codec_longName :
    longName.Typed ∧ (decode longName.encode).isSome ∧ ¬ longName.checked.isSome := by
  have hsame : longName.encode = fourCarried.encode := by decide +kernel
  have hfour : fourCarried.Typed ∧ fourCarried.Fits := by
    refine ⟨⟨by decide, by simp [U64s, fourCarried], by simp [U64s, fourCarried]⟩,
      ⟨by decide, by decide, by decide +kernel, fun p hp => ?_⟩⟩
    simp only [fourCarried, List.mem_cons, List.not_mem_nil, or_false] at hp
    rcases hp with rfl | rfl | rfl | rfl <;> exact ⟨by decide +kernel, by decide +kernel, by decide⟩
  refine ⟨⟨by decide, by simp [U64s, longName], by simp [U64s, longName]⟩, ?_, fun h => ?_⟩
  · rw [hsame, decode_eq_some.2 ⟨hfour.1, hfour.2, rfl⟩]
    rfl
  · have hname := ((isSome_checked.1 h).2.entries _ List.mem_cons_self).name
    exact absurd hname (by decide +kernel)

end Tally

end Hollow.Mls
