import Hollow.Media.Webp

/-! What stripping a WebP makes of its chunks, and when that is what it is for. -/

namespace Hollow.Media

open Slice Chunk

variable {d : Bytes} {riffEnd fuel i : Nat} {cs : List Chunk}

def Chunk.kept (c : Chunk) : Bool := c.kind ≠ ascii "EXIF" ∧ c.kind ≠ ascii "XMP "

def Chunk.isVp8x (c : Chunk) : Bool := c.kind = ascii "VP8X"

def absorb (s : WebpState) (c : Chunk) : WebpState :=
  if c.kind = ascii "EXIF" then { s with orientation := s.orientation.or (notUpright c.payload) }
  else if c.kind = ascii "XMP " then s
  else
    { s with
      vp8x := if c.kind = ascii "VP8X" then some s.out.length else s.vp8x
      out := s.out ++ c.bytes }

theorem kinds_differ : ascii "XMP " ≠ ascii "EXIF" ∧ ascii "VP8X" ≠ ascii "EXIF" ∧
    ascii "VP8X" ≠ ascii "XMP " := by
  decide +kernel

theorem Chunk.kind_cases (c : Chunk) : c.kind = ascii "EXIF" ∧ c.kept = false ∨
    c.kind = ascii "XMP " ∧ c.kept = false ∨
    c.kind ≠ ascii "EXIF" ∧ c.kind ≠ ascii "XMP " ∧ c.kept = true := by
  by_cases hexif : c.kind = ascii "EXIF" <;> by_cases hxmp : c.kind = ascii "XMP " <;>
    simp [kept, hexif, hxmp]

variable {c v : Chunk} {flags : UInt8} {f : UInt8 → UInt8} {header : Bytes}

theorem absorb_xmp (s : WebpState) (h : c.kind = ascii "XMP ") : absorb s c = s := by
  rw [absorb, h, if_neg kinds_differ.1, if_pos rfl]

theorem webpLoop_eq (hriff : riffEnd ≤ d.length) (s : WebpState) :
    webpLoop d riffEnd fuel i s = (walkWebp d riffEnd fuel i).map (·.foldl absorb s) := by
  induction fuel generalizing i s with
  | zero => rfl
  | succ fuel ih =>
    rw [webpLoop, walkWebp]
    split_ifs with hi
    · cases hchunk : webpChunk d riffEnd i with
      | error e => rfl
      | ok ends =>
        obtain ⟨stop, padded⟩ := ends
        have hstep : webpStep d i stop padded s = absorb s (chunkAt d i stop padded) := by
          simp only [webpStep, absorb, (bytes_chunkAt hriff hchunk).1]
          rfl
        dsimp only
        rw [ih, hstep]
        cases walkWebp d riffEnd fuel padded <;> rfl
    · rfl

/-- The orientation the loop is left with: the first that is not upright. -/
def notUprightOf (cs : List Chunk) : Option Nat :=
  cs.findSome? fun c => if c.kind = ascii "EXIF" then notUpright c.payload else none

def firstOrientation (cs : List Chunk) : Option Nat :=
  cs.findSome? fun c => if c.kind = ascii "EXIF" then exifOrientation (exifTiff c.payload) else none

theorem foldl_absorb (s : WebpState) :
    (cs.foldl absorb s).out = s.out ++ chunkBytes (cs.filter kept) ∧
      (cs.foldl absorb s).orientation = s.orientation.or (notUprightOf cs) := by
  induction cs generalizing s with
  | nil => simp [notUprightOf]
  | cons c cs ih =>
    rw [List.foldl_cons, (ih _).1, (ih _).2, notUprightOf, notUprightOf, List.findSome?_cons]
    rcases c.kind_cases with ⟨hexif, hkept⟩ | ⟨hxmp, hkept⟩ | ⟨hexif, hxmp, hkept⟩
    · cases hup : notUpright c.payload <;> simp [absorb, hexif, hkept, hup]
    · rw [absorb_xmp s hxmp, List.filter_cons_of_neg (by simp [hkept]),
        if_neg (by rw [hxmp]; exact kinds_differ.1)]
      exact ⟨rfl, rfl⟩
    · simp [absorb, hexif, hxmp, hkept]

theorem foldl_absorb_vp8x_of_none (s : WebpState) (h : ∀ c ∈ cs, c.isVp8x = false) :
    (cs.foldl absorb s).vp8x = s.vp8x := by
  induction cs generalizing s with
  | nil => rfl
  | cons c cs ih =>
    obtain ⟨hc, hcs⟩ := List.forall_mem_cons.1 h
    rw [List.foldl_cons, ih _ hcs]
    have hc : ¬ c.kind = ascii "VP8X" := by simpa [isVp8x] using hc
    rcases c.kind_cases with ⟨hexif, -⟩ | ⟨hxmp, -⟩ | ⟨hexif, hxmp, -⟩
    · simp [absorb, hexif]
    · rw [absorb_xmp s hxmp]
    · simp [absorb, hexif, hxmp, hc]

theorem Chunk.kept_of_isVp8x (h : c.isVp8x = true) : c.kept = true := by
  have hkind : c.kind = ascii "VP8X" := by simpa [isVp8x] using h
  simpa [kept, hkind] using kinds_differ.2

theorem foldl_absorb_vp8x (s : WebpState) {before after : List Chunk} (hv : v.isVp8x = true)
    (hafter : ∀ c ∈ after, c.isVp8x = false) :
    ((before ++ v :: after).foldl absorb s).vp8x =
      some (s.out.length + (chunkBytes (before.filter kept)).length) := by
  rw [List.foldl_append, List.foldl_cons, foldl_absorb_vp8x_of_none _ hafter]
  have hkind : v.kind = ascii "VP8X" := by simpa [isVp8x] using hv
  have hkept : ¬ v.kind = ascii "EXIF" ∧ ¬ v.kind = ascii "XMP " := by
    simpa [kept] using kept_of_isVp8x hv
  rw [absorb, if_neg hkept.1, if_neg hkept.2]
  simp [hkind, (foldl_absorb s).1]

/-- The extended header with the first byte of its payload, its flags, changed. -/
def Chunk.reflag (f : UInt8 → UInt8) (c : Chunk) : Chunk :=
  if c.isVp8x then { c with payload := c.payload.modifyHead f } else c

/-- The flags when there is an Exif chunk, and when there is none. -/
def setFlags (exif : Bool) (flags : UInt8) : UInt8 :=
  if exif then flags &&& ~~~0x0C ||| 0x08 else flags &&& ~~~0x0C

def exifChunk (o : Nat) : Chunk := ⟨ascii "EXIF", orientationTiff o, []⟩

def stripped (cs : List Chunk) : List Chunk :=
  if cs.any isVp8x then
    (cs.filter kept).map (reflag (setFlags (notUprightOf cs).isSome)) ++
      ((notUprightOf cs).map exifChunk).toList
  else cs.filter kept

def webpFile (header : Bytes) (cs : List Chunk) : Bytes :=
  splice (header ++ chunkBytes cs) 4 (toLeBytes 4 ((header ++ chunkBytes cs).length - 8))

theorem bytes_exifChunk (o : Nat) : (exifChunk o).bytes = exifChunkBytes o := by
  simp [Chunk.bytes, exifChunk, exifChunkBytes]

theorem chunkBytes_flags (before after : List Chunk) {rest : Bytes} (hkind : v.kind.length = 4)
    (hpayload : v.payload = flags :: rest) (header : Bytes) :
    ∃ front back : Bytes, front.length = header.length + (chunkBytes before).length + 8 ∧
      ∀ x, header ++ chunkBytes (before ++ { v with payload := x :: rest } :: after) =
        front ++ x :: back := by
  refine ⟨header ++ (chunkBytes before ++ (v.kind ++ toLeBytes 4 v.payload.length)),
    rest ++ (v.pad ++ chunkBytes after), ?_, fun x => ?_⟩
  · simp only [List.length_append, hkind, length_toLeBytes]
    omega
  · simp [chunkBytes_append, Chunk.bytes, hpayload]

theorem set_flags (before after : List Chunk) {rest : Bytes} (hkind : v.kind.length = 4)
    (hpayload : v.payload = flags :: rest) (header : Bytes) :
    (header ++ chunkBytes (before ++ v :: after))[header.length + (chunkBytes before).length + 8]? =
        some flags ∧
      ∀ x, (header ++ chunkBytes (before ++ v :: after)).set
          (header.length + (chunkBytes before).length + 8) x =
        header ++ chunkBytes (before ++ { v with payload := x :: rest } :: after) := by
  obtain ⟨front, back, hlen, hbytes⟩ := chunkBytes_flags before after hkind hpayload header
  have hv : { v with payload := flags :: rest } = v := by rw [← hpayload]
  have hthis := hbytes flags
  rw [hv] at hthis
  rw [hthis, ← hlen]
  refine ⟨by simp, fun x => ?_⟩
  rw [hbytes x, List.set_append_right _ _ le_rfl, Nat.sub_self, List.set_cons_zero]

theorem exists_vp8x (hone : (cs.filter isVp8x).length ≤ 1)
    (hany : cs.any isVp8x = true) : ∃ before v after, cs = before ++ v :: after ∧
      v.isVp8x = true ∧ (∀ c ∈ before, c.isVp8x = false) ∧ ∀ c ∈ after, c.isVp8x = false := by
  obtain ⟨v, hv, hvp8x⟩ := List.any_eq_true.1 hany
  obtain ⟨before, after, rfl⟩ := List.append_of_mem hv
  refine ⟨before, v, after, rfl, hvp8x, ?_⟩
  rw [List.filter_append, List.filter_cons_of_pos hvp8x, List.length_append,
    List.length_cons] at hone
  have hbefore : (before.filter isVp8x).length = 0 := by omega
  have hafter : (after.filter isVp8x).length = 0 := by omega
  simp only [List.length_eq_zero_iff, List.filter_eq_nil_iff, Bool.not_eq_true] at hbefore hafter
  exact ⟨hbefore, hafter⟩

theorem map_reflag_of_none (h : ∀ c ∈ cs, c.isVp8x = false) : cs.map (reflag f) = cs := by
  refine (List.map_congr_left fun c hc => ?_).trans (List.map_id cs)
  rw [reflag, if_neg (by simp [h c hc])]
  rfl

theorem reflag_vp8x {before after : List Chunk} {rest : Bytes} (hv : v.isVp8x = true)
    (hbefore : ∀ c ∈ before, c.isVp8x = false) (hafter : ∀ c ∈ after, c.isVp8x = false)
    (hpayload : v.payload = flags :: rest) :
    ((before ++ v :: after).filter kept).map (reflag f) =
      before.filter kept ++ { v with payload := f flags :: rest } ::
        after.filter kept := by
  have hkept : v.kept = true := kept_of_isVp8x hv
  have hreflag : v.reflag f = { v with payload := f flags :: rest } := by
    rw [reflag, if_pos hv, hpayload, List.modifyHead_cons]
  have hnone : ∀ l : List Chunk, (∀ c ∈ l, c.isVp8x = false) →
      (l.filter kept).map (reflag f) = l.filter kept := fun l hl =>
    map_reflag_of_none fun c hc => hl c (List.mem_of_mem_filter hc)
  rw [List.filter_append, List.filter_cons_of_pos hkept, List.map_append, List.map_cons, hreflag,
    hnone before hbefore, hnone after hafter]

/-- At most one extended header, of at least ten bytes. -/
structure Vp8xSound (cs : List Chunk) : Prop where
  one : (cs.filter isVp8x).length ≤ 1
  long : ∀ c ∈ cs, c.isVp8x = true → 10 ≤ c.payload.length

theorem Laid.kind_of_mem (h : Laid cs) (hc : c ∈ cs) : c.kind.length = 4 := by
  induction cs with
  | nil => cases hc
  | cons c' cs ih =>
    rcases List.mem_cons.1 hc with rfl | hc
    · exact h.kind
    · exact ih (laid_cons.1 h).2 hc

/-- The strip writes the header and the stripped chunks. -/
theorem finishWebp_eq (hlaid : Laid cs) (hsound : Vp8xSound cs) (header : Bytes) :
    finishWebp (cs.foldl absorb { out := header }) = .ok (header ++ chunkBytes (stripped cs)) := by
  unfold finishWebp
  rw [(foldl_absorb _).1, (foldl_absorb _).2, Option.none_or]
  by_cases hany : cs.any isVp8x = true
  · obtain ⟨before, v, after, rfl, hv, hbefore, hafter⟩ := exists_vp8x hsound.one hany
    have hmem : v ∈ before ++ v :: after := by simp
    obtain ⟨flags, rest, hpayload⟩ : ∃ flags rest, v.payload = flags :: rest := by
      have := hsound.long v hmem hv
      exact List.exists_cons_of_ne_nil (List.ne_nil_of_length_pos (by omega))
    have hkept : v.kept = true := kept_of_isVp8x hv
    obtain ⟨hget, hset⟩ := set_flags (before.filter kept) (after.filter kept)
      (hlaid.kind_of_mem hmem) hpayload header
    rw [foldl_absorb_vp8x _ hv hafter, stripped, if_pos hany,
      reflag_vp8x hv hbefore hafter hpayload, List.filter_append, List.filter_cons_of_pos hkept]
    dsimp only
    rw [hget]
    cases notUprightOf (before ++ v :: after) with
    | none => simp [hset, setFlags]
    | some o =>
      dsimp only
      rw [hset]
      simp [setFlags, chunkBytes_append, bytes_exifChunk]
  · have hnone : ∀ c ∈ cs, c.isVp8x = false := by simpa using hany
    rw [foldl_absorb_vp8x_of_none _ hnone, stripped, if_neg hany]

theorem stripWebp_of_chunks (hlong : 12 ≤ d.length) (hchunks : webpChunks d = .ok cs)
    (hsound : Vp8xSound cs) : stripWebp d = .ok (webpFile (d.take 12) (stripped cs)) := by
  obtain ⟨size, hsize, hfits, hlaid, -⟩ := webpChunks_eq_ok.1 hchunks
  have hwalk : walkWebp d (8 + size) (8 + size) 12 = .ok cs := by
    rw [webpChunks, hsize] at hchunks
    simpa [bind, Except.bind, Nat.not_lt.2 hfits] using hchunks
  rw [stripWebp, hsize]
  simp only [bind, Except.bind]
  rw [if_neg (by omega), if_neg (by omega), webpLoop_eq hfits, hwalk]
  simp only [Except.map, finishWebp_eq hlaid hsound]
  rfl

theorem webpChunks_of_stripWebp {out : Bytes} (h : stripWebp d = .ok out) :
    12 ≤ d.length ∧ ∃ cs, webpChunks d = .ok cs := by
  rw [stripWebp] at h
  cases hsize : le32 d 4 with
  | error e => simp [hsize, bind, Except.bind] at h
  | ok size =>
    simp only [hsize, bind, Except.bind] at h
    split_ifs at h with hfits hlong
    have hfits := Nat.not_lt.1 hfits
    rw [webpLoop_eq hfits] at h
    cases hwalk : walkWebp d (8 + size) (8 + size) 12 with
    | error e => simp [hwalk, Except.map] at h
    | ok cs =>
      refine ⟨Nat.not_lt.1 hlong, cs, ?_⟩
      rw [webpChunks, hsize]
      simp only [bind, Except.bind]
      rw [if_neg (by omega), hwalk]

def resized (header : Bytes) (size : Nat) : Bytes :=
  header.take 4 ++ (toLeBytes 4 size ++ header.drop 8)

section Header

variable (h : header.length = 12)

include h

theorem length_resized (size : Nat) : (resized header size).length = 12 := by
  simp [resized, length_toLeBytes, h]

theorem webpFile_eq (cs : List Chunk) :
    webpFile header cs = resized header (4 + (chunkBytes cs).length) ++ chunkBytes cs := by
  have hlen : (header ++ chunkBytes cs).length - 8 = 4 + (chunkBytes cs).length := by
    rw [List.length_append, h]
    omega
  rw [webpFile, splice, hlen, length_toLeBytes, List.take_append_of_le_length (by omega),
    List.drop_append_of_le_length (by omega), resized]
  simp only [List.append_assoc]

theorem length_webpFile (cs : List Chunk) :
    (webpFile header cs).length = 12 + (chunkBytes cs).length := by
  rw [webpFile_eq h, List.length_append, length_resized h]

theorem slice_webpFile (cs : List Chunk) :
    slice (webpFile header cs) 4 8 = toLeBytes 4 (4 + (chunkBytes cs).length) ∧
      slice (webpFile header cs) 12 (12 + (chunkBytes cs).length) = chunkBytes cs := by
  rw [webpFile_eq h]
  constructor
  · rw [resized, List.append_assoc, List.append_assoc]
    exact slice_append (by simp [h]) (by rw [length_toLeBytes])
  · rw [slice, List.drop_left' (length_resized h _), Nat.add_sub_cancel_left, List.take_length]

theorem le32_webpFile_eq_ok {n : Nat} : le32 (webpFile header cs) 4 = .ok n ↔
    n < 2 ^ 32 ∧ toLeBytes 4 (4 + (chunkBytes cs).length) = toLeBytes 4 n := by
  rw [le32_eq_ok, length_webpFile h, (slice_webpFile h cs).1]
  refine and_iff_right ?_
  omega

/-- A file is read back as the chunks it was made of, or others of the same bytes. -/
theorem webpChunks_webpFile (hsize : 4 + (chunkBytes cs).length < 2 ^ 32) {ws : List Chunk} :
    webpChunks (webpFile header cs) = .ok ws ↔ Laid ws ∧ chunkBytes cs = chunkBytes ws := by
  have hle : le32 (webpFile header cs) 4 = .ok (4 + (chunkBytes cs).length) :=
    (le32_webpFile_eq_ok h).2 ⟨hsize, rfl⟩
  have hend : 8 + (4 + (chunkBytes cs).length) = 12 + (chunkBytes cs).length := by omega
  rw [webpChunks_eq_ok]
  simp only [hle, Except.ok.injEq, exists_eq_left', hend, length_webpFile h, le_refl, true_and,
    (slice_webpFile h cs).2]

theorem webpFile_again (cs : List Chunk) :
    webpFile ((webpFile header cs).take 12) cs = webpFile header cs := by
  have htake : (webpFile header cs).take 12 = resized header (4 + (chunkBytes cs).length) := by
    rw [webpFile_eq h, List.take_left' (length_resized h _)]
  rw [htake, webpFile_eq (length_resized h _), webpFile_eq h]
  simp [resized, h, length_toLeBytes, List.drop_append]

end Header

theorem laid_append_singleton : Laid (cs ++ [c]) ↔ (∀ x ∈ cs, x.Whole) ∧ (c.Whole ∨ c.Cut) := by
  induction cs with
  | nil => simp [Laid]
  | cons x cs ih => simp [laid_cons, ih, and_assoc]

theorem Laid.filter (p : Chunk → Bool) (h : Laid cs) : Laid (cs.filter p) := by
  induction cs with
  | nil => trivial
  | cons c cs ih =>
    obtain ⟨hc, hcs⟩ := laid_cons.1 h
    rw [List.filter_cons]
    split_ifs
    · refine laid_cons.2 ⟨hc.imp_right fun hcut => ⟨hcut.1, ?_⟩, ih hcs⟩
      rw [hcut.2, List.filter_nil]
    · exact ih hcs

@[simp] theorem Chunk.kind_reflag (f : UInt8 → UInt8) (c : Chunk) :
    (c.reflag f).kind = c.kind := by
  rw [reflag]
  split_ifs <;> rfl

@[simp] theorem Chunk.pad_reflag (f : UInt8 → UInt8) (c : Chunk) : (c.reflag f).pad = c.pad := by
  rw [reflag]
  split_ifs <;> rfl

@[simp] theorem Chunk.length_payload_reflag (f : UInt8 → UInt8) (c : Chunk) :
    (c.reflag f).payload.length = c.payload.length := by
  rw [reflag]
  split_ifs
  · exact List.length_modifyHead
  · rfl

@[simp] theorem Chunk.isVp8x_reflag (f : UInt8 → UInt8) (c : Chunk) :
    (c.reflag f).isVp8x = c.isVp8x := by
  simp [isVp8x]

@[simp] theorem Chunk.kept_reflag (f : UInt8 → UInt8) (c : Chunk) :
    (c.reflag f).kept = c.kept := by
  simp [kept]

theorem Chunk.whole_reflag : (c.reflag f).Whole ↔ c.Whole := by
  constructor <;> rintro ⟨hkind, hpayload, hpad⟩ <;>
    exact ⟨by simpa using hkind, by simpa using hpayload, by simpa using hpad⟩

theorem Chunk.cut_reflag : (c.reflag f).Cut ↔ c.Cut := by
  constructor <;> rintro ⟨hkind, hpayload, hodd, hpad⟩ <;>
    exact ⟨by simpa using hkind, by simpa using hpayload, by simpa using hodd, by simpa using hpad⟩

theorem laid_map_reflag : Laid (cs.map (reflag f)) ↔ Laid cs := by
  induction cs with
  | nil => rfl
  | cons c cs ih =>
    rw [List.map_cons, laid_cons, laid_cons, whole_reflag, cut_reflag, ih,
      List.map_eq_nil_iff]

theorem length_chunkBytes_map_reflag (f : UInt8 → UInt8) (cs : List Chunk) :
    (chunkBytes (cs.map (reflag f))).length = (chunkBytes cs).length := by
  induction cs with
  | nil => rfl
  | cons c cs ih =>
    simp [ih, Chunk.bytes, length_toLeBytes]

theorem Chunk.reflag_reflag {g : UInt8 → UInt8} (h : ∀ x, g (f x) = g x) (c : Chunk) :
    (c.reflag f).reflag g = c.reflag g := by
  by_cases hc : c.isVp8x = true
  · rw [reflag, isVp8x_reflag, if_pos hc, reflag, if_pos hc, reflag, if_pos hc]
    cases c.payload with
    | nil => rfl
    | cons x rest => simp [h]
  · rw [reflag, isVp8x_reflag, if_neg hc, reflag, if_neg hc, reflag, if_neg hc]

theorem map_reflag_reflag {g : UInt8 → UInt8} (h : ∀ x, g (f x) = g x) (cs : List Chunk) :
    (cs.map (reflag f)).map (reflag g) = cs.map (reflag g) := by
  rw [List.map_map]
  exact List.map_congr_left fun c _ => reflag_reflag h c

theorem setFlags_setFlags (exif exif' : Bool) (flags : UInt8) :
    setFlags exif (setFlags exif' flags) = setFlags exif flags := by
  have hbits : ∀ e e' : Bool, ∀ bits : BitVec 8,
      setFlags e (setFlags e' ⟨bits⟩) = setFlags e ⟨bits⟩ := by
    decide +kernel
  exact hbits exif exif' flags.toBitVec

theorem notUprightOf_range {o : Nat} (h : notUprightOf cs = some o) :
    (1 ≤ o ∧ o ≤ 8) ∧ o ≠ 1 := by
  obtain ⟨c, -, hc⟩ := List.exists_of_findSome?_eq_some h
  split_ifs at hc
  obtain ⟨horientation, hne⟩ := notUpright_eq_some.1 hc
  exact ⟨exifOrientation_range horientation, hne⟩

theorem notUprightOf_append (cs cs' : List Chunk) :
    notUprightOf (cs ++ cs') = (notUprightOf cs).or (notUprightOf cs') :=
  List.findSome?_append

theorem notUprightOf_of_kept (h : ∀ c ∈ cs, c.kept = true) : notUprightOf cs = none := by
  refine List.findSome?_eq_none_iff.2 fun c hc => if_neg ?_
  have hkept := h c hc
  rw [kept, decide_eq_true_eq] at hkept
  exact hkept.1

theorem notUprightOf_exifChunk {o : Nat} (h : (1 ≤ o ∧ o ≤ 8) ∧ o ≠ 1) :
    notUprightOf [exifChunk o] = some o := by
  have hup : notUpright (orientationTiff o) = some o := by
    rw [notUpright_eq_some, exifTiff_orientationTiff, exifOrientation_orientationTiff h.1]
    exact ⟨rfl, h.2⟩
  simp [notUprightOf, exifChunk, hup]

theorem kept_exifChunk (o : Nat) : (exifChunk o).kept = false := by
  simp [kept, exifChunk]

theorem isVp8x_exifChunk (o : Nat) : (exifChunk o).isVp8x = false :=
  decide_eq_false kinds_differ.2.1.symm

theorem whole_exifChunk (o : Nat) : (exifChunk o).Whole := by
  refine ⟨?_, ?_, ?_⟩
  · show (ascii "EXIF").length = 4
    decide +kernel
  · simp [exifChunk, length_orientationTiff]
  · simp [exifChunk, length_orientationTiff]

theorem length_bytes_exifChunk (o : Nat) : (exifChunk o).bytes.length = 34 := by
  rw [length_bytes (whole_exifChunk o).kind]
  simp [exifChunk, length_orientationTiff]

theorem kept_map_reflag (h : c ∈ (cs.filter kept).map (reflag f)) : c.kept = true := by
  obtain ⟨c, hc, rfl⟩ := List.mem_map.1 h
  rw [kept_reflag]
  exact (List.mem_filter.1 hc).2

theorem filter_isVp8x_stripped (cs : List Chunk) :
    ((stripped cs).filter isVp8x).map (·.payload.length) =
      (cs.filter isVp8x).map (·.payload.length) := by
  have hfilter : (cs.filter kept).filter isVp8x = cs.filter isVp8x := by
    rw [List.filter_filter]
    refine List.filter_congr fun c _ => ?_
    cases hc : c.isVp8x with
    | false => rfl
    | true => simp [kept_of_isVp8x hc]
  rw [stripped]
  split_ifs
  · have hreflag : isVp8x ∘ reflag (setFlags (notUprightOf cs).isSome) =
        isVp8x := by
      funext c
      simp
    rw [List.filter_append, List.filter_map, hreflag, hfilter]
    cases notUprightOf cs <;> simp [isVp8x_exifChunk, Function.comp_def]
  · rw [hfilter]

theorem length_filter_isVp8x_stripped (cs : List Chunk) :
    ((stripped cs).filter isVp8x).length = (cs.filter isVp8x).length := by
  simpa using congrArg List.length (filter_isVp8x_stripped cs)

theorem any_isVp8x_stripped (cs : List Chunk) :
    (stripped cs).any isVp8x = cs.any isVp8x := by
  rw [Bool.eq_iff_iff]
  simp only [List.any_eq_true, ← List.countP_pos_iff, List.countP_eq_length_filter,
    length_filter_isVp8x_stripped]

theorem notUprightOf_stripped (h : cs.any isVp8x = true) :
    notUprightOf (stripped cs) = notUprightOf cs := by
  rw [stripped, if_pos h, notUprightOf_append, notUprightOf_of_kept fun c => kept_map_reflag,
    Option.none_or]
  cases ho : notUprightOf cs with
  | none => rfl
  | some o => exact notUprightOf_exifChunk (notUprightOf_range ho)

theorem filter_kept_stripped (h : cs.any isVp8x = true) : (stripped cs).filter kept =
    (cs.filter kept).map (reflag (setFlags (notUprightOf cs).isSome)) := by
  rw [stripped, if_pos h, List.filter_append, List.filter_eq_self.2 fun c => kept_map_reflag]
  cases notUprightOf cs with
  | none => simp
  | some o => simp [kept_exifChunk]

/-- Stripping chunks that are stripped already changes nothing. -/
theorem stripped_stripped (cs : List Chunk) : stripped (stripped cs) = stripped cs := by
  have hagain := any_isVp8x_stripped cs
  by_cases h : cs.any isVp8x = true
  · rw [h] at hagain
    rw [stripped, if_pos hagain, notUprightOf_stripped h, filter_kept_stripped h,
      map_reflag_reflag (setFlags_setFlags _ _), stripped, if_pos h]
  · rw [stripped, if_neg (by rwa [hagain]), stripped, if_neg h, List.filter_filter]
    simp

theorem Vp8xSound.stripped (h : Vp8xSound cs) : Vp8xSound (stripped cs) := by
  refine ⟨(length_filter_isVp8x_stripped cs).trans_le h.one, fun c hc hv => ?_⟩
  have hmem : c.payload.length ∈ (cs.filter isVp8x).map (·.payload.length) := by
    rw [← filter_isVp8x_stripped]
    exact List.mem_map_of_mem (List.mem_filter.2 ⟨hc, hv⟩)
  obtain ⟨c', hc', hlen⟩ := List.mem_map.1 hmem
  obtain ⟨hc', hv'⟩ := List.mem_filter.1 hc'
  exact hlen ▸ h.long c' hc' hv'

def Chunk.unflag (c : Chunk) : Chunk := c.reflag (setFlags false)

/-- The Exif chunk to come out: with an extended header, the first orientation if not upright. -/
def exifOf (cs : List Chunk) : Option Chunk :=
  if cs.any isVp8x then ((firstOrientation cs).filter (· ≠ 1)).map exifChunk else none

/-- `out` is the file of chunks `cs` without its metadata. -/
structure StripsWell (cs : List Chunk) (out : Bytes) : Prop where
  size : le32 out 4 = .ok (out.length - 8)
  chunks : ∃ ws, webpChunks out = .ok ws ∧ ws.map unflag =
    (cs.filter kept).map unflag ++ (exifOf cs).toList
  again : stripWebp out = .ok out

/-- When an Exif chunk is appended, it holds the first orientation, stands behind whole chunks and
leaves a size of four bytes. -/
def Appendable (cs : List Chunk) : Prop :=
  cs.any isVp8x = true → ∀ o, notUprightOf cs = some o → firstOrientation cs = some o ∧
    (∀ c ∈ cs.filter kept, c.Whole) ∧
    4 + (chunkBytes (cs.filter kept)).length + 34 < 2 ^ 32

theorem notUprightOf_of_first {o : Nat} (h : firstOrientation cs = some o) (hne : o ≠ 1) :
    notUprightOf cs = some o := by
  induction cs with
  | nil => simp [firstOrientation] at h
  | cons c cs ih =>
    rw [firstOrientation, List.findSome?_cons] at h
    rw [notUprightOf, List.findSome?_cons]
    by_cases hexif : c.kind = ascii "EXIF"
    · simp only [hexif, if_true] at h ⊢
      cases ho : exifOrientation (exifTiff c.payload) with
      | none =>
        rw [ho] at h
        have hup : notUpright c.payload = none := by simp [notUpright, ho]
        rw [hup]
        exact ih h
      | some p =>
        rw [ho] at h
        cases h
        rw [notUpright_eq_some.2 ⟨ho, hne⟩]
    · simp only [hexif, if_false] at h ⊢
      exact ih h

theorem exifOf_eq (h : Appendable cs) (hany : cs.any isVp8x = true) :
    exifOf cs = (notUprightOf cs).map exifChunk := by
  rw [exifOf, if_pos hany]
  cases ho : notUprightOf cs with
  | some o =>
    have hfirst := (h hany o ho).1
    simp [hfirst, (notUprightOf_range ho).2]
  | none =>
    rw [Option.map_none, Option.map_eq_none_iff, Option.filter_eq_none_iff]
    intro o hfirst
    by_contra hne
    have := notUprightOf_of_first hfirst (by simpa using hne)
    rw [ho] at this
    cases this

theorem length_filter_kept (cs : List Chunk) :
    (chunkBytes (cs.filter kept)).length ≤ (chunkBytes cs).length :=
  (List.filter_sublist.flatMap Chunk.bytes).length_le

theorem laid_stripped (hlaid : Laid cs) (h : Appendable cs) : Laid (stripped cs) := by
  have hkept := hlaid.filter kept
  rw [stripped]
  split_ifs with hany
  · cases ho : notUprightOf cs with
    | none => simpa [laid_map_reflag] using hkept
    | some o =>
      refine laid_append_singleton.2 ⟨fun c hc => ?_, .inl (whole_exifChunk o)⟩
      obtain ⟨x, hx, rfl⟩ := List.mem_map.1 hc
      exact whole_reflag.2 ((h hany o ho).2.1 x hx)
  · exact hkept

theorem size_chunkBytes (h : webpChunks d = .ok cs) : 4 + (chunkBytes cs).length < 2 ^ 32 := by
  obtain ⟨size, hsize, hfits, -, hslice⟩ := webpChunks_eq_ok.1 h
  have hlt := (le32_eq_ok.1 hsize).2.1
  rw [← hslice, length_slice hfits]
  omega

theorem length_stripped {o : Nat} (hany : cs.any isVp8x = true)
    (ho : notUprightOf cs = some o) : (chunkBytes (stripped cs)).length =
      (chunkBytes (cs.filter kept)).length + 34 := by
  rw [stripped, if_pos hany, ho, chunkBytes_append, List.length_append,
    length_chunkBytes_map_reflag]
  simp [length_bytes_exifChunk]

theorem size_stripped (hchunks : webpChunks d = .ok cs) (h : Appendable cs) :
    4 + (chunkBytes (stripped cs)).length < 2 ^ 32 := by
  have hsize := size_chunkBytes hchunks
  have hkept := length_filter_kept cs
  by_cases hany : cs.any isVp8x = true
  · cases ho : notUprightOf cs with
    | none =>
      rw [stripped, if_pos hany, ho, Option.map_none, Option.toList_none, List.append_nil,
        length_chunkBytes_map_reflag]
      omega
    | some o =>
      have hlt := (h hany o ho).2.2
      rw [length_stripped hany ho]
      omega
  · rw [stripped, if_neg hany]
    omega

theorem unflag_exifChunk (o : Nat) : (exifChunk o).unflag = exifChunk o := by
  rw [unflag, reflag, if_neg (by simp [isVp8x_exifChunk])]

theorem length_chunkBytes_map_unflag (cs : List Chunk) :
    (chunkBytes (cs.map unflag)).length = (chunkBytes cs).length :=
  length_chunkBytes_map_reflag _ cs

theorem map_unflag_stripped (h : Appendable cs) : (stripped cs).map unflag =
    (cs.filter kept).map unflag ++ (exifOf cs).toList := by
  rw [stripped]
  split_ifs with hany
  · rw [List.map_append, exifOf_eq h hany]
    congr 1
    · exact map_reflag_reflag (setFlags_setFlags _ _) _
    · cases notUprightOf cs with
      | none => rfl
      | some o => simp [unflag_exifChunk]
  · rw [exifOf, if_neg hany, Option.toList_none, List.append_nil]

theorem length_header (hlong : 12 ≤ d.length) : (d.take 12).length = 12 := by
  rw [List.length_take]
  omega

theorem stripsWell_of_appendable (hlong : 12 ≤ d.length) (hchunks : webpChunks d = .ok cs)
    (hsound : Vp8xSound cs) (h : Appendable cs) :
    StripsWell cs (webpFile (d.take 12) (stripped cs)) := by
  have hheader := length_header hlong
  have hsize := size_stripped hchunks h
  have hlen := length_webpFile hheader (stripped cs)
  obtain ⟨-, -, -, hlaid, -⟩ := webpChunks_eq_ok.1 hchunks
  have hwalk : webpChunks (webpFile (d.take 12) (stripped cs)) = .ok (stripped cs) :=
    (webpChunks_webpFile hheader hsize).2 ⟨laid_stripped hlaid h, rfl⟩
  refine ⟨?_, ⟨stripped cs, hwalk, map_unflag_stripped h⟩, ?_⟩
  · have hfour : 12 + (chunkBytes (stripped cs)).length - 8 =
        4 + (chunkBytes (stripped cs)).length := by omega
    rw [hlen, hfour]
    exact (le32_webpFile_eq_ok hheader).2 ⟨hsize, rfl⟩
  · rw [stripWebp_of_chunks (by omega) hwalk hsound.stripped, stripped_stripped,
      webpFile_again hheader]

/-- A picture strips well only if the Exif chunk it is given can be appended. -/
theorem appendable_of_stripsWell (hlong : 12 ≤ d.length)
    (h : StripsWell cs (webpFile (d.take 12) (stripped cs))) : Appendable cs := by
  intro hany o ho
  have hheader := length_header hlong
  have hstripped := length_stripped hany ho
  have hsize := h.size
  rw [le32_webpFile_eq_ok hheader, length_webpFile hheader] at hsize
  obtain ⟨ws, hwalk, hws⟩ := h.chunks
  obtain ⟨hlaid, hbytes⟩ := (webpChunks_webpFile hheader (by omega)).1 hwalk
  have hexif : (chunkBytes (exifOf cs).toList).length = 34 := by
    have hlen : (chunkBytes (ws.map unflag)).length = _ :=
      congrArg (fun l => (chunkBytes l).length) hws
    simp only [chunkBytes_append, List.length_append, length_chunkBytes_map_unflag] at hlen
    rw [← hbytes] at hlen
    omega
  have hfirst : firstOrientation cs = some o := by
    rw [exifOf, if_pos hany] at hexif
    cases hfirst : firstOrientation cs with
    | none => simp [hfirst] at hexif
    | some p =>
      by_cases hp : p = 1
      · simp [hfirst, hp, Option.filter] at hexif
      · rw [← ho, notUprightOf_of_first hfirst hp]
  refine ⟨hfirst, ?_, by omega⟩
  have hlaid : Laid (ws.map unflag) := laid_map_reflag.2 hlaid
  have hone : exifOf cs = some (exifChunk o) := by
    simp [exifOf, hany, hfirst, (notUprightOf_range ho).2]
  rw [hws, hone, Option.toList_some, laid_append_singleton] at hlaid
  intro c hc
  exact whole_reflag.1 (hlaid.1 _ (List.mem_map_of_mem hc))

/-- A strip does what it is for exactly when the Exif chunk it may append can stand there. -/
theorem stripsWell_iff {out : Bytes} (h : stripWebp d = .ok out) : ∃ cs, webpChunks d = .ok cs ∧
    (Vp8xSound cs → (StripsWell cs out ↔ Appendable cs)) := by
  obtain ⟨hlong, cs, hchunks⟩ := webpChunks_of_stripWebp h
  refine ⟨cs, hchunks, fun hsound => ?_⟩
  rw [stripWebp_of_chunks hlong hchunks hsound] at h
  rw [← Except.ok.inj h]
  exact ⟨appendable_of_stripsWell hlong, stripsWell_of_appendable hlong hchunks hsound⟩

def turnedPicture (pad : Bytes) : List Chunk :=
  [⟨ascii "VP8X", 0x08 :: List.replicate 9 0, []⟩, exifChunk 6, ⟨ascii "VP8 ", [1, 2, 3], pad⟩]

def turnedFile (pad : Bytes) : Bytes :=
  webpFile (ascii "RIFF" ++ [0, 0, 0, 0] ++ ascii "WEBP") (turnedPicture pad)

theorem vp8xSound_turnedPicture (pad : Bytes) : Vp8xSound (turnedPicture pad) := by
  have hkinds : (ascii "EXIF" ≠ ascii "VP8X") ∧ ascii "VP8 " ≠ ascii "VP8X" := by decide +kernel
  constructor
  · simp [turnedPicture, isVp8x, exifChunk, hkinds]
  · simp [turnedPicture, isVp8x, exifChunk, hkinds]

theorem stripsWell_turnedFile : webpChunks (turnedFile [0]) = .ok (turnedPicture [0]) ∧
    ∃ out, stripWebp (turnedFile [0]) = .ok out ∧ StripsWell (turnedPicture [0]) out := by
  have hchunks : webpChunks (turnedFile [0]) = .ok (turnedPicture [0]) := by decide +kernel
  have hstrip : stripWebp (turnedFile [0]) =
      .ok (webpFile ((turnedFile [0]).take 12) (stripped (turnedPicture [0]))) := by
    decide +kernel
  refine ⟨hchunks, _, hstrip, ?_⟩
  obtain ⟨cs, hcs, h⟩ := stripsWell_iff hstrip
  rw [hchunks] at hcs
  obtain rfl := Except.ok.inj hcs
  refine (h (vp8xSound_turnedPicture [0])).2 fun _ o ho => ?_
  have hsix : notUprightOf (turnedPicture [0]) = some 6 := by decide +kernel
  rw [hsix] at ho
  obtain rfl := Option.some.inj ho
  refine ⟨by decide +kernel, fun c hc => ?_, by decide +kernel⟩
  have hwhole : ∀ c ∈ (turnedPicture [0]).filter kept, c.kind.length = 4 ∧
      c.payload.length < 2 ^ 32 ∧ c.pad.length = c.payload.length % 2 := by
    decide +kernel
  exact ⟨(hwhole c hc).1, (hwhole c hc).2.1, (hwhole c hc).2.2⟩

/-- The Exif chunk behind a picture whose padding is cut is read from its second byte on. -/
theorem not_stripsWell : ¬ ∀ d cs out, stripWebp d = .ok out → webpChunks d = .ok cs →
    Vp8xSound cs → StripsWell cs out := by
  intro h
  have hchunks : webpChunks (turnedFile []) = .ok (turnedPicture []) := by decide +kernel
  have hstrip : stripWebp (turnedFile []) =
      .ok (webpFile ((turnedFile []).take 12) (stripped (turnedPicture []))) := by
    decide +kernel
  have hagain := (h _ _ _ hstrip hchunks (vp8xSound_turnedPicture [])).again
  have hoverruns : stripWebp (webpFile ((turnedFile []).take 12) (stripped (turnedPicture []))) =
      .error "WebP chunk overruns the file" := by
    decide +kernel
  rw [hoverruns] at hagain
  cases hagain

end Hollow.Media
