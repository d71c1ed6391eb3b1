import Hollow.Lib.Slice
import Hollow.Words

/-! Numbers in media files, and the one thing kept of a picture's Exif: its orientation. -/

namespace Hollow.Media

open Slice
open Mls (toBeBytes fromBeBytes)

def le32 (d : Bytes) (i : Nat) : Except String Nat :=
  match slice? d i (i + 4) with
  | some b => .ok (fromLeBytes b)
  | none => .error "truncated"

/-- How the numbers of a TIFF block are read. -/
def byteOrder (tiff : Bytes) : Option (Bytes → Nat) :=
  match slice? tiff 0 2 with
  | some order =>
    if order = ascii "II" then some fromLeBytes
    else if order = ascii "MM" then some fromBeBytes
    else none
  | none => none

/-- The Exif orientation, 1 to 8, in a TIFF block. -/
def exifOrientation (tiff : Bytes) : Option Nat := do
  let num ← byteOrder tiff
  let rd (width o : Nat) : Option Nat := (slice? tiff o (o + width)).map num
  let magic ← rd 2 2
  if magic ≠ 42 then none
  else
    let ifd ← rd 4 4
    let n ← rd 2 ifd
    let entry ← ((List.range n).map fun k => ifd + 2 + 12 * k).find? fun e => rd 2 e = some 0x0112
    (rd 2 (entry + 8)).filter fun v => 1 ≤ v ∧ v ≤ 8

def orientationTiff (o : Nat) : Bytes :=
  ascii "MM" ++ [0, 0x2A, 0, 0, 0, 8, 0, 1, 1, 0x12, 0, 3, 0, 0, 0, 1] ++ toBeBytes 2 o ++
    [0, 0, 0, 0, 0, 0]

/-- `Exif` and two zero bytes. -/
def exifPrefix : Bytes := ascii "Exif" ++ [0, 0]

/-- The Exif payload of an APP1 segment or a WebP chunk, past the prefix. -/
def exifTiff (payload : Bytes) : Bytes :=
  if exifPrefix <+: payload then payload.drop exifPrefix.length else payload

/-- The orientation a payload asks for, when it is not upright. -/
def notUpright (payload : Bytes) : Option Nat := (exifOrientation (exifTiff payload)).filter (· ≠ 1)

/-- An orientation that is read is one of the eight the format has. -/
theorem exifOrientation_range {tiff : Bytes} {o : Nat} (h : exifOrientation tiff = some o) :
    1 ≤ o ∧ o ≤ 8 := by
  simp only [exifOrientation, Option.bind_eq_bind, Option.bind_eq_some_iff] at h
  obtain ⟨num, -, magic, -, h⟩ := h
  split at h
  · cases h
  · simp only [Option.bind_eq_some_iff] at h
    obtain ⟨ifd, -, n, -, entry, -, h⟩ := h
    simpa using (Option.filter_eq_some_iff.1 h).2

theorem exifOrientation_orientationTiff {o : Nat} (h : 1 ≤ o ∧ o ≤ 8) :
    exifOrientation (orientationTiff o) = some o := by
  obtain ⟨hlo, hhi⟩ := h
  interval_cases o <;> decide +kernel

theorem notUpright_eq_some {payload : Bytes} {o : Nat} :
    notUpright payload = some o ↔ exifOrientation (exifTiff payload) = some o ∧ o ≠ 1 := by
  simp [notUpright, Option.filter_eq_some_iff]

theorem exifTiff_orientationTiff (o : Nat) : exifTiff (orientationTiff o) = orientationTiff o := by
  have hexif : exifPrefix = [0x45, 0x78, 0x69, 0x66, 0, 0] := by decide +kernel
  have hmm : ascii "MM" = [0x4D, 0x4D] := by decide +kernel
  simp [exifTiff, orientationTiff, hexif, hmm]

theorem length_orientationTiff (o : Nat) : (orientationTiff o).length = 26 := by
  have hmm : (ascii "MM").length = 2 := by decide +kernel
  simp [orientationTiff, hmm, Mls.length_toBeBytes]

end Hollow.Media
