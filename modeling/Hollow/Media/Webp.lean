import Hollow.Media.Exif

/-! Stripping a WebP, and the chunks its walk meets. A chunk of odd length is padded, and the end of
the file may cut the padding of the last one. -/

namespace Hollow.Media

open Slice

/-- What the loop over the chunks gathers. -/
structure WebpState where
  out : Bytes
  /-- Where the extended header stands in `out`. -/
  vp8x : Option Nat := none
  orientation : Option Nat := none

/-- The end of the chunk at `i`, without and with its padding. -/
def webpChunk (d : Bytes) (riffEnd i : Nat) : Except String (Nat × Nat) :=
  match le32 d (i + 4) with
  | .error e => .error e
  | .ok len =>
    let stop := i + 8 + len
    if stop ≤ riffEnd then .ok (stop, min (stop + len % 2) riffEnd)
    else .error "WebP chunk overruns the file"

def webpStep (d : Bytes) (i stop padded : Nat) (s : WebpState) : WebpState :=
  let kind := slice d i (i + 4)
  if kind = ascii "EXIF" then
    { s with orientation := s.orientation.or (notUpright (slice d (i + 8) stop)) }
  else if kind = ascii "XMP " then s
  else
    { s with
      vp8x := if kind = ascii "VP8X" then some s.out.length else s.vp8x
      out := s.out ++ slice d i padded }

/-- Each chunk is at least eight bytes long, so as much fuel as bytes is enough. -/
def webpLoop (d : Bytes) (riffEnd : Nat) : Nat → Nat → WebpState → Except String WebpState
  | 0, _, s => .ok s
  | fuel + 1, i, s =>
    if i < riffEnd then
      match webpChunk d riffEnd i with
      | .error e => .error e
      | .ok (stop, padded) => webpLoop d riffEnd fuel padded (webpStep d i stop padded s)
    else .ok s

def exifChunkBytes (o : Nat) : Bytes :=
  ascii "EXIF" ++ toLeBytes 4 (orientationTiff o).length ++ orientationTiff o

/-- The bits of the extended header that say there is XMP and Exif, and the Exif chunk. -/
def finishWebp (s : WebpState) : Except String Bytes :=
  match s.vp8x with
  | none => .ok s.out
  | some start =>
    match s.out[start + 8]? with
    | none => .error "truncated VP8X"
    | some flags =>
      let flags := flags &&& ~~~0x0C
      match s.orientation with
      | none => .ok (s.out.set (start + 8) flags)
      | some o => .ok (s.out.set (start + 8) (flags ||| 0x08) ++ exifChunkBytes o)

def stripWebp (d : Bytes) : Except String Bytes := do
  let size ← le32 d 4
  let riffEnd := 8 + size
  if d.length < riffEnd then .error "truncated RIFF"
  -- a slice of the first twelve bytes, which panics
  else if d.length < 12 then .error "range end index 12 out of range"
  else
    let s ← webpLoop d riffEnd riffEnd 12 { out := d.take 12 }
    let out ← finishWebp s
    .ok (splice out 4 (toLeBytes 4 (out.length - 8)))

structure Chunk where
  kind : Bytes
  payload : Bytes
  pad : Bytes
deriving DecidableEq

def Chunk.bytes (c : Chunk) : Bytes :=
  c.kind ++ (toLeBytes 4 c.payload.length ++ (c.payload ++ c.pad))

def walkWebp (d : Bytes) (riffEnd : Nat) : Nat → Nat → Except String (List Chunk)
  | 0, _ => .ok []
  | fuel + 1, i =>
    if i < riffEnd then
      match webpChunk d riffEnd i with
      | .error e => .error e
      | .ok (stop, padded) =>
        (walkWebp d riffEnd fuel padded).map
          (⟨slice d i (i + 4), slice d (i + 8) stop, slice d stop padded⟩ :: ·)
    else .ok []

def webpChunks (d : Bytes) : Except String (List Chunk) := do
  let size ← le32 d 4
  if d.length < 8 + size then .error "truncated RIFF" else walkWebp d (8 + size) (8 + size) 12

structure Chunk.Whole (c : Chunk) : Prop where
  kind : c.kind.length = 4
  payload : c.payload.length < 2 ^ 32
  pad : c.pad.length = c.payload.length % 2

structure Chunk.Cut (c : Chunk) : Prop where
  kind : c.kind.length = 4
  payload : c.payload.length < 2 ^ 32
  odd : c.payload.length % 2 = 1
  pad : c.pad = []

/-- Chunks one after the other, the last one cut or not. -/
def Laid : List Chunk → Prop
  | [] => True
  | [c] => c.Whole ∨ c.Cut
  | c :: cs => c.Whole ∧ Laid cs

theorem le32_eq_ok {d : Bytes} {i n : Nat} :
    le32 d i = .ok n ↔ i + 4 ≤ d.length ∧ n < 2 ^ 32 ∧ slice d i (i + 4) = toLeBytes 4 n := by
  rw [le32, slice?]
  split_ifs with h
  · have hlen : (slice d i (i + 4)).length = 4 := by
      rw [length_slice h.2]
      omega
    simp only [Except.ok.injEq, h.2, true_and]
    constructor
    · rintro rfl
      refine ⟨?_, (toLeBytes_fromLeBytes hlen).symm⟩
      have := Mls.fromBeBytes_lt (slice d i (i + 4)).reverse
      rw [List.length_reverse, hlen] at this
      exact this
    · rintro ⟨hn, hslice⟩
      rw [hslice, fromLeBytes_toLeBytes hn]
  · have hlong : ¬ i + 4 ≤ d.length := fun hle => h ⟨by omega, hle⟩
    simp [hlong]

theorem Chunk.length_bytes {c : Chunk} (h : c.kind.length = 4) :
    c.bytes.length = 8 + c.payload.length + c.pad.length := by
  rw [bytes, List.length_append, List.length_append, List.length_append, length_toLeBytes, h]
  omega

theorem laid_cons {c : Chunk} {cs : List Chunk} :
    Laid (c :: cs) ↔ (c.Whole ∨ c.Cut ∧ cs = []) ∧ Laid cs := by
  cases cs with
  | nil => simp [Laid]
  | cons => simp [Laid]

theorem Laid.kind {c : Chunk} {cs : List Chunk} (h : Laid (c :: cs)) : c.kind.length = 4 := by
  rcases (laid_cons.1 h).1 with hwhole | ⟨hcut, -⟩
  · exact hwhole.kind
  · exact hcut.kind

def chunkBytes (cs : List Chunk) : Bytes := cs.flatMap Chunk.bytes

@[simp] theorem chunkBytes_nil : chunkBytes [] = [] := rfl

@[simp] theorem chunkBytes_cons (c : Chunk) (cs : List Chunk) :
    chunkBytes (c :: cs) = c.bytes ++ chunkBytes cs := rfl

theorem chunkBytes_append (cs cs' : List Chunk) :
    chunkBytes (cs ++ cs') = chunkBytes cs ++ chunkBytes cs' := List.flatMap_append

variable {d : Bytes} {riffEnd fuel i : Nat} {cs : List Chunk}

theorem webpChunk_eq_ok {stop padded : Nat} : webpChunk d riffEnd i = .ok (stop, padded) ↔
    ∃ len, le32 d (i + 4) = .ok len ∧ stop = i + 8 + len ∧ stop ≤ riffEnd ∧
      padded = min (stop + len % 2) riffEnd := by
  rw [webpChunk]
  cases hlen : le32 d (i + 4) with
  | error e => simp
  | ok len =>
    dsimp only
    split_ifs with hle
    · simp only [Except.ok.injEq, Prod.mk.injEq, exists_eq_left']
      constructor
      · rintro ⟨rfl, rfl⟩
        exact ⟨rfl, hle, rfl⟩
      · rintro ⟨rfl, -, rfl⟩
        exact ⟨rfl, rfl⟩
    · simp only [Except.ok.injEq, exists_eq_left', false_iff]
      rintro ⟨rfl, hstop, -⟩
      exact hle hstop

def chunkAt (d : Bytes) (i stop padded : Nat) : Chunk :=
  ⟨slice d i (i + 4), slice d (i + 8) stop, slice d stop padded⟩

theorem bytes_chunkAt {stop padded : Nat} (hriff : riffEnd ≤ d.length)
    (h : webpChunk d riffEnd i = .ok (stop, padded)) :
    (chunkAt d i stop padded).bytes = slice d i padded ∧
      ((chunkAt d i stop padded).Whole ∨ (chunkAt d i stop padded).Cut ∧ padded = riffEnd) ∧
      i < padded ∧ padded ≤ riffEnd := by
  obtain ⟨len, hlen, rfl, hstop, rfl⟩ := webpChunk_eq_ok.1 h
  obtain ⟨hi, hlt, hnum⟩ := le32_eq_ok.1 hlen
  have hkind : (slice d i (i + 4)).length = 4 := by
    rw [length_slice (by omega)]
    omega
  have hpayload : (slice d (i + 8) (i + 8 + len)).length = len := by
    rw [length_slice (by omega)]
    omega
  have hpad : (slice d (i + 8 + len) (min (i + 8 + len + len % 2) riffEnd)).length =
      min (i + 8 + len + len % 2) riffEnd - (i + 8 + len) := length_slice (by omega)
  refine ⟨?_, ?_, by omega, by omega⟩
  · simp only [Chunk.bytes, chunkAt, hpayload]
    rw [← hnum, slice_append_slice (by omega) (by omega), slice_append_slice (by omega) (by omega),
      slice_append_slice (by omega) (by omega)]
  · rcases Nat.lt_or_ge riffEnd (i + 8 + len + len % 2) with hcut | hwhole
    · refine .inr ⟨⟨hkind, by rwa [chunkAt, hpayload], ?_, ?_⟩, by omega⟩
      · rw [chunkAt, hpayload]
        omega
      · simp only [chunkAt]
        exact slice_of_le (by omega)
    · refine .inl ⟨hkind, by rwa [chunkAt, hpayload], ?_⟩
      simp only [chunkAt, hpad, hpayload]
      omega

/-- A walk that ends has cut the file into chunks that lie end to end. -/
theorem laid_of_walkWebp (hriff : riffEnd ≤ d.length) (hfuel : riffEnd - i ≤ fuel)
    (h : walkWebp d riffEnd fuel i = .ok cs) :
    Laid cs ∧ slice d i riffEnd = chunkBytes cs := by
  induction fuel generalizing i cs with
  | zero =>
    cases h
    exact ⟨trivial, slice_of_le (by omega)⟩
  | succ fuel ih =>
    rw [walkWebp] at h
    split_ifs at h with hi
    · cases hchunk : webpChunk d riffEnd i with
      | error e =>
        rw [hchunk] at h
        cases h
      | ok ends =>
        obtain ⟨stop, padded⟩ := ends
        rw [hchunk] at h
        obtain ⟨hbytes, hwhole, hlt, hle⟩ := bytes_chunkAt hriff hchunk
        cases hrest : walkWebp d riffEnd fuel padded with
        | error e =>
          simp [hrest, Except.map] at h
        | ok rest =>
          simp only [hrest, Except.map, Except.ok.injEq] at h
          obtain ⟨hlaid, hslice⟩ := ih (by omega) hrest
          subst h
          refine ⟨laid_cons.2 ⟨hwhole.imp_right fun hcut => ⟨hcut.1, ?_⟩, hlaid⟩, ?_⟩
          · -- nothing follows a cut chunk
            rw [slice_of_le (by omega)] at hslice
            cases rest with
            | nil => rfl
            | cons c rest =>
              have := congrArg List.length hslice
              rw [chunkBytes_cons, List.length_append, Chunk.length_bytes hlaid.kind,
                List.length_nil] at this
              omega
          · rw [chunkBytes_cons, ← hslice]
            show slice d i riffEnd = (chunkAt d i stop padded).bytes ++ _
            rw [hbytes, slice_append_slice hlt.le hle]
    · cases h
      exact ⟨trivial, slice_of_le (by omega)⟩

theorem webpChunk_of_slice {c : Chunk} {rest : Bytes} (hi : i ≤ riffEnd)
    (hriff : riffEnd ≤ d.length) (hc : c.Whole ∨ c.Cut ∧ rest = [])
    (hslice : slice d i riffEnd = c.bytes ++ rest) :
    webpChunk d riffEnd i = .ok (i + 8 + c.payload.length, i + c.bytes.length) ∧
      chunkAt d i (i + 8 + c.payload.length) (i + c.bytes.length) = c ∧
      slice d (i + c.bytes.length) riffEnd = rest := by
  have hkind : c.kind.length = 4 := by
    rcases hc with hwhole | ⟨hcut, -⟩
    · exact hwhole.kind
    · exact hcut.kind
  have hlt : c.payload.length < 2 ^ 32 := by
    rcases hc with hwhole | ⟨hcut, -⟩
    · exact hwhole.payload
    · exact hcut.payload
  have hbytes := Chunk.length_bytes hkind
  have hlen := congrArg List.length hslice
  rw [length_slice hriff, List.length_append] at hlen
  have hparts := hslice
  simp only [Chunk.bytes, List.append_assoc] at hparts
  obtain ⟨-, hfirst, hparts⟩ := (slice_eq_append_iff hi hriff).1 hparts
  rw [hkind] at hfirst hparts
  obtain ⟨-, hnum, hparts⟩ := (slice_eq_append_iff (by omega) hriff).1 hparts
  rw [length_toLeBytes] at hnum hparts
  obtain ⟨-, hpayload, hparts⟩ := (slice_eq_append_iff (by omega) hriff).1 hparts
  obtain ⟨-, hpad, hrest⟩ := (slice_eq_append_iff (by omega) hriff).1 hparts
  have hend : i + 4 + 4 + c.payload.length + c.pad.length = i + c.bytes.length := by omega
  rw [hend] at hpad hrest
  have hnum : le32 d (i + 4) = .ok c.payload.length := le32_eq_ok.2 ⟨by omega, hlt, hnum⟩
  refine ⟨webpChunk_eq_ok.2 ⟨c.payload.length, hnum, rfl, by omega, ?_⟩, ?_, hrest⟩
  · rcases hc with hwhole | ⟨hcut, rfl⟩
    · have := hwhole.pad
      omega
    · have := hcut.odd
      have hnil := congrArg List.length hcut.pad
      rw [List.length_nil] at hlen hnil
      omega
  · have hstop : i + 8 + c.payload.length = i + 4 + 4 + c.payload.length := by omega
    rw [chunkAt, hfirst, hstop, hpad, show i + 8 = i + 4 + 4 from rfl, hpayload]

/-- Chunks that lie end to end are what the walk finds. -/
theorem walkWebp_of_laid (hi : i ≤ riffEnd) (hriff : riffEnd ≤ d.length)
    (hfuel : riffEnd - i ≤ fuel) (hlaid : Laid cs) (hslice : slice d i riffEnd = chunkBytes cs) :
    walkWebp d riffEnd fuel i = .ok cs := by
  induction cs generalizing i fuel with
  | nil =>
    have hlen := congrArg List.length hslice
    rw [length_slice hriff, chunkBytes_nil, List.length_nil] at hlen
    cases fuel with
    | zero => rfl
    | succ fuel => rw [walkWebp, if_neg (by omega)]
  | cons c cs ih =>
    obtain ⟨hc, hcs⟩ := laid_cons.1 hlaid
    have hbytes := Chunk.length_bytes hlaid.kind
    have hlen := congrArg List.length hslice
    rw [length_slice hriff, chunkBytes_cons, List.length_append] at hlen
    obtain ⟨fuel, rfl⟩ : ∃ f, fuel = f + 1 := ⟨fuel - 1, by omega⟩
    have hc : c.Whole ∨ c.Cut ∧ chunkBytes cs = [] :=
      hc.imp_right fun hcut => ⟨hcut.1, by simp [hcut.2]⟩
    obtain ⟨hchunk, hat, hrest⟩ := webpChunk_of_slice hi hriff hc hslice
    have hwalk : walkWebp d riffEnd fuel (i + c.bytes.length) = .ok cs :=
      ih (by omega) (by omega) hcs hrest
    rw [walkWebp, if_pos (by omega), hchunk]
    simp only [hwalk, Except.map, Except.ok.injEq, List.cons.injEq, and_true]
    exact hat

theorem chunkBytes_eq_nil (hlaid : Laid cs) (h : chunkBytes cs = []) : cs = [] := by
  cases cs with
  | nil => rfl
  | cons c cs =>
    have := congrArg List.length h
    rw [chunkBytes_cons, List.length_append, Chunk.length_bytes hlaid.kind, List.length_nil] at this
    omega

theorem webpChunks_eq_ok : webpChunks d = .ok cs ↔ ∃ size, le32 d 4 = .ok size ∧
    8 + size ≤ d.length ∧ Laid cs ∧ slice d 12 (8 + size) = chunkBytes cs := by
  rw [webpChunks]
  cases hsize : le32 d 4 with
  | error e => simp [bind, Except.bind]
  | ok size =>
    simp only [bind, Except.bind, Except.ok.injEq, exists_eq_left']
    split_ifs with hlong
    · simp [Nat.not_le.2 hlong]
    · have hlong := Nat.not_lt.1 hlong
      constructor
      · intro h
        exact ⟨hlong, laid_of_walkWebp hlong (by omega) h⟩
      · rintro ⟨-, hlaid, hslice⟩
        rcases Nat.le_total 12 (8 + size) with hi | hi
        · exact walkWebp_of_laid hi hlong (by omega) hlaid hslice
        · rw [slice_of_le hi] at hslice
          obtain rfl := chunkBytes_eq_nil hlaid hslice.symm
          obtain ⟨fuel, hfuel⟩ : ∃ f, 8 + size = f + 1 := ⟨7 + size, by omega⟩
          rw [hfuel, walkWebp, if_neg (by omega)]

end Hollow.Media
