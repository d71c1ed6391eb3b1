import Hollow.Pack.Format

/-! Reading a pack back: what the importer accepts, and when it accepts what the tool built. -/

namespace Hollow.Pack

open Fallible (refuseIf refuseIf_eq_ok bind_eq_ok mapError_eq_ok)

structure VerifiedFile where
  role : Role
  hash : String
  bytes : Bytes
  w : Nat
  h : Nat
  animated : Bool
  deriving DecidableEq

structure VerifiedPack where
  manifest : PackManifest
  files : List VerifiedFile
  deriving DecidableEq

def byName (archive : List ZipEntry) (name : String) : Option ZipEntry :=
  archive.find? (·.name = name)

def readString (bytes : Bytes) : Except String String :=
  match String.fromUTF8? ⟨bytes.toArray⟩ with
  | some raw => .ok raw
  | none => .error "Failed to read the pack manifest: stream did not contain valid UTF-8"

def readManifestFrom (lib : Libraries) (archive : List ZipEntry) : Except String PackManifest :=
  match byName archive manifestName with
  | none => .error "The pack is missing its manifest"
  | some entry => do
    refuseIf (maxManifestBytes < entry.size) "The pack manifest is too large to be real"
    let bytes ← (entry.read (maxManifestBytes + 1)).mapError
      fun e => s!"Failed to read the pack manifest: {e}"
    let raw ← readString bytes
    refuseIf (maxManifestBytes < raw.utf8ByteSize) "The pack manifest is too large to be real"
    let manifest ← (lib.fromJson raw).mapError fun e => s!"Failed to parse the pack manifest: {e}"
    refuseIf (manifest.format ≠ packFormat) "That file is not a Hollow art pack"
    refuseIf (manifest.version = 0 ∨ packVersion < manifest.version)
      "That pack was made by a newer version of Hollow"
    return manifest

def isHashHex (s : String) : Bool :=
  s.utf8ByteSize = 64 && s.toList.all fun c => ('0' ≤ c && c ≤ '9') || ('a' ≤ c && c ≤ 'f')

def readEntry (archive : List ZipEntry) (entry : PackFile) : Except String Bytes :=
  match byName archive (zipPath entry.sha256) with
  | none => .error s!"The pack is missing the file it lists as {entry.role}"
  | some zf => do
    refuseIf (maxFileBytes < zf.size) (overFileLimit entry.role)
    (zf.read (maxFileBytes + 1)).mapError fun e => s!"Failed to read the {entry.role} file: {e}"

/-- What the bytes have to have in common with the manifest. -/
def checkClaims (lib : Libraries) (entry : PackFile) (role : Role) (bytes : Bytes) :
    Except String VerifiedFile := do
  refuseIf (lib.hashHex bytes ≠ entry.sha256)
    s!"The {entry.role} file does not match the hash the pack claims for it"
  refuseIf (entry.bytes ≠ 0 ∧ entry.bytes ≠ bytes.length)
    s!"The {entry.role} file is not the size the pack claims for it"
  let file ← processedFromBytes lib role bytes
  refuseIf ((entry.w ≠ 0 ∨ entry.h ≠ 0) ∧ (entry.w ≠ file.w ∨ entry.h ≠ file.h))
    s!"The {entry.role} file is {file.w}x{file.h}, not the size the pack claims for it"
  refuseIf (entry.animated ≠ file.animated)
    s!"The pack is wrong about whether its {entry.role} file animates"
  return { role := file.role, hash := lib.hashHex bytes, bytes := file.bytes, w := file.w,
           h := file.h, animated := file.animated }

/-- One round of the loop over the listed files; `total` is the bytes read before it. -/
def verifyFile (lib : Libraries) (archive : List ZipEntry) (files : List VerifiedFile)
    (total : Nat) (entry : PackFile) : Except String (VerifiedFile × Nat) := do
  let role ← Role.parse entry.role
  refuseIf (¬ isHashHex entry.sha256) "The pack names a file with a malformed hash"
  refuseIf (entry.path ≠ "" ∧ entry.path ≠ zipPath entry.sha256)
    s!"The pack lists {entry.role} at a path that does not match its hash"
  refuseIf (∃ f ∈ files, f.hash = entry.sha256) "The pack lists the same file twice"
  let bytes ← readEntry archive entry
  refuseIf (maxFileBytes < bytes.length) (overFileLimit entry.role)
  refuseIf (maxTotalBytes < total + bytes.length)
    s!"The pack holds more than {maxTotalBytes / (1024 * 1024)} MB of art"
  let file ← checkClaims lib entry role bytes
  return (file, total + bytes.length)

def verifyFiles (lib : Libraries) (archive : List ZipEntry) :
    List PackFile → List VerifiedFile → Nat → Except String (List VerifiedFile)
  | [], files, _ => .ok files
  | entry :: entries, files, total => do
    let r ← verifyFile lib archive files total entry
    verifyFiles lib archive entries (files ++ [r.1]) r.2

def verifyPack (lib : Libraries) (zipBytes : Bytes) : Except String VerifiedPack := do
  refuseIf (maxPackBytes < zipBytes.length)
    s!"That pack is too large to open (over {maxPackBytes / (1024 * 1024)} MB)"
  let archive ← (lib.zipArchive zipBytes).mapError
    fun e => s!"That file is not a valid art pack: {e}"
  let manifest ← readManifestFrom lib archive
  refuseIf (manifest.files = []) "The pack carries no files"
  refuseIf (maxFiles < manifest.files.length)
    s!"The pack lists {manifest.files.length} files, and a pack carries at most {maxFiles}"
  let files ← verifyFiles lib archive manifest.files [] 0
  return { manifest, files }

/-- An entry as a faithful archive gives it back. -/
def ZipEntry.of (e : String × Bytes) : ZipEntry where
  name := e.1
  size := e.2.length
  read n := .ok (e.2.take n)

/-- The libraries do what they are for on a pack: a hash is 64 hex digits, an archive of distinct
names gives back the entries it was written from, its deflated entries grow by a tenth at most
besides their headers, and the manifest's text is read as the manifest. -/
structure Libraries.FaithfulOn (lib : Libraries) (input : PackInput) : Prop where
  hash_hex : ∀ bytes, isHashHex (lib.hashHex bytes)
  zip_archive : ∀ {bytes}, lib.zipWrite (input.entries lib) = .ok bytes →
    ((input.entries lib).map Prod.fst).Nodup →
      lib.zipArchive bytes = .ok ((input.entries lib).map ZipEntry.of)
  zip_size : ∀ {bytes}, lib.zipWrite (input.entries lib) = .ok bytes → bytes.length ≤
    512 + ((input.entries lib).map fun e =>
      e.2.length + e.2.length / 10 + 2 * e.1.utf8ByteSize + 512).sum
  from_json : lib.fromJson (input.manifest lib).toJson = .ok (input.manifest lib)

def ProcessedFile.verified (f : ProcessedFile) : VerifiedFile where
  role := f.role
  hash := f.hash
  bytes := f.bytes
  w := f.w
  h := f.h
  animated := f.animated

section Checks

variable {lib : Libraries} {archive : List ZipEntry} {files : List VerifiedFile} {total : Nat}
  {f : ProcessedFile}

theorem processedFromBytes_ok {role : Role} {bytes : Bytes}
    (h : processedFromBytes lib role bytes = .ok f) :
    f.role = role ∧ f.bytes = bytes ∧ f.hash = lib.hashHex bytes ∧
      bytes.length ≤ maxFileBytes := by
  simp only [processedFromBytes, bind_eq_ok, refuseIf_eq_ok, exists_const] at h
  obtain ⟨hlen, _, _, shape, _, _, _, _, _, hf⟩ := h
  cases hf
  exact ⟨rfl, rfl, rfl, not_lt.mp hlen⟩

theorem checkClaims_hash {entry : PackFile} {role : Role} {bytes : Bytes} {file : VerifiedFile}
    (h : checkClaims lib entry role bytes = .ok file) : file.hash = entry.sha256 := by
  simp only [checkClaims, bind_eq_ok, refuseIf_eq_ok, exists_const] at h
  obtain ⟨hhash, _, _, _, _, _, hfile⟩ := h
  cases hfile
  exact not_not.mp hhash

theorem verifyFile_hash {entry : PackFile} {r : VerifiedFile × Nat}
    (h : verifyFile lib archive files total entry = .ok r) :
    r.1.hash = entry.sha256 ∧ ∀ f ∈ files, f.hash ≠ entry.sha256 := by
  simp only [verifyFile, bind_eq_ok, refuseIf_eq_ok, exists_const] at h
  obtain ⟨role, _, _, _, hfresh, bytes, _, _, _, file, hfile, hr⟩ := h
  cases hr
  exact ⟨checkClaims_hash hfile, fun f hf heq => hfresh ⟨f, hf, heq⟩⟩

theorem verifyFiles_hashes_nodup {entries : List PackFile} {r : List VerifiedFile}
    (hfiles : (files.map (·.hash)).Nodup)
    (h : verifyFiles lib archive entries files total = .ok r) :
    (files.map (·.hash) ++ entries.map (·.sha256)).Nodup := by
  induction entries generalizing files total with
  | nil => simpa using hfiles
  | cons entry entries ih =>
    obtain ⟨file, hfile, hrest⟩ := bind_eq_ok.mp h
    obtain ⟨hhash, hfresh⟩ := verifyFile_hash hfile
    have hnodup : ((files ++ [file.1]).map (·.hash)).Nodup := by
      rw [List.map_append, List.nodup_append]
      refine ⟨hfiles, List.nodup_singleton _, ?_⟩
      intro a ha b hb
      obtain ⟨f, hf, rfl⟩ := List.mem_map.mp ha
      rw [List.map_singleton, List.mem_singleton, hhash] at hb
      exact hb ▸ hfresh f hf
    simpa [hhash] using ih hnodup hrest

def Processed (lib : Libraries) (f : ProcessedFile) : Prop :=
  processedFromBytes lib f.role f.bytes = .ok f

/-- The archive has the file under the name its hash gives it. -/
def Holds (archive : List ZipEntry) (f : ProcessedFile) : Prop :=
  byName archive (zipPath f.hash) = some (ZipEntry.of (zipPath f.hash, f.bytes))

section Processed

variable (hf : Processed lib f)
include hf

theorem Processed.hash_eq : f.hash = lib.hashHex f.bytes :=
  (processedFromBytes_ok hf).2.2.1

theorem Processed.length_le : f.bytes.length ≤ maxFileBytes :=
  (processedFromBytes_ok hf).2.2.2

theorem readEntry_packFile (ha : Holds archive f) :
    readEntry archive f.packFile = .ok f.bytes := by
  have hlen := hf.length_le
  have hname : byName archive (zipPath f.packFile.sha256) =
      some (ZipEntry.of (zipPath f.hash, f.bytes)) := ha
  rw [readEntry, hname]
  simp only [bind_eq_ok, refuseIf_eq_ok, exists_const, mapError_eq_ok]
  exact ⟨not_lt.mpr hlen, congrArg Except.ok (List.take_of_length_le (Nat.le_succ_of_le hlen))⟩

theorem checkClaims_packFile :
    checkClaims lib f.packFile f.role f.bytes = .ok f.verified := by
  simp only [checkClaims, bind_eq_ok, refuseIf_eq_ok, exists_const]
  refine ⟨?_, ?_, f, hf, ?_, ?_, ?_⟩
  · simp [ProcessedFile.packFile, hf.hash_eq]
  · simp [ProcessedFile.packFile]
  · simp [ProcessedFile.packFile]
  · simp [ProcessedFile.packFile]
  · rw [← hf.hash_eq]
    rfl

theorem verifyFile_packFile (hhash : ∀ bytes, isHashHex (lib.hashHex bytes))
    (ha : Holds archive f) {r : VerifiedFile × Nat} :
    verifyFile lib archive files total f.packFile = .ok r ↔
      (∀ g ∈ files, g.hash ≠ f.hash) ∧ total + f.bytes.length ≤ maxTotalBytes ∧
        (f.verified, total + f.bytes.length) = r := by
  have hrole : Role.parse f.packFile.role = .ok f.role := Role.parse_asStr f.role
  have hhex : isHashHex f.packFile.sha256 := by
    change isHashHex f.hash
    rw [hf.hash_eq]
    exact hhash f.bytes
  have hpath : f.packFile.path = zipPath f.packFile.sha256 := rfl
  have hlen := hf.length_le
  simp only [verifyFile, bind_eq_ok, refuseIf_eq_ok, exists_const, hrole, readEntry_packFile hf ha,
    hhex, hpath, Except.ok.injEq, exists_eq_left', checkClaims_packFile hf, pure, Except.pure,
    not_lt, hlen]
  simp only [ne_eq, not_true_eq_false, and_false, not_false_eq_true, true_and, not_exists, not_and]
  exact Iff.rfl

end Processed

/-- The loop takes listed files exactly when none is listed twice and the bytes fit in all. -/
theorem verifyFiles_packFiles (hhash : ∀ bytes, isHashHex (lib.hashHex bytes))
    {fs : List ProcessedFile} (hfs : ∀ f ∈ fs, Processed lib f ∧ Holds archive f)
    (htotal : total ≤ maxTotalBytes) {r : List VerifiedFile} :
    verifyFiles lib archive (fs.map ProcessedFile.packFile) files total = .ok r ↔
      (∀ f ∈ fs, ∀ g ∈ files, g.hash ≠ f.hash) ∧ (fs.map (·.hash)).Nodup ∧
        total + (fs.map (·.bytes.length)).sum ≤ maxTotalBytes ∧
        files ++ fs.map ProcessedFile.verified = r := by
  induction fs generalizing files total with
  | nil => simp [verifyFiles, htotal]
  | cons f fs ih =>
    obtain ⟨hf, hfs⟩ := List.forall_mem_cons.mp hfs
    simp only [List.map_cons, verifyFiles, bind_eq_ok, verifyFile_packFile hf.1 hhash hf.2,
      List.sum_cons]
    constructor
    · rintro ⟨_, ⟨hfresh, hle, rfl⟩, hrest⟩
      obtain ⟨hlater, hnodup, hsum, hr⟩ := (ih hfs hle).mp hrest
      refine ⟨?_, ?_, ?_, ?_⟩
      · intro g hg e he
        rcases List.mem_cons.mp hg with rfl | hg
        · exact hfresh e he
        · exact hlater g hg e (List.mem_append_left _ he)
      · refine List.nodup_cons.mpr ⟨?_, hnodup⟩
        intro hmem
        obtain ⟨g, hg, heq⟩ := List.mem_map.mp hmem
        exact hlater g hg f.verified (by simp) heq.symm
      · omega
      · simpa using hr
    · rintro ⟨hfresh, hnodup, hsum, hr⟩
      obtain ⟨hnot, hnodup⟩ := List.nodup_cons.mp hnodup
      have hle : total + f.bytes.length ≤ maxTotalBytes := by omega
      refine ⟨_, ⟨hfresh f List.mem_cons_self, hle, rfl⟩, (ih hfs hle).mpr ⟨?_, hnodup, ?_, ?_⟩⟩
      · intro g hg e he
        rcases List.mem_append.mp he with he | he
        · exact hfresh g (List.mem_cons_of_mem f hg) e he
        · rw [List.mem_singleton.mp he]
          exact fun heq => hnot (List.mem_map.mpr ⟨g, hg, heq.symm⟩)
      · omega
      · simpa using hr

end Checks

theorem toList_zipPath (hash : String) :
    (zipPath hash).toList = "files/".toList ++ (hash.toList ++ ".webp".toList) := by
  change ("files/" ++ hash ++ ".webp").toList = _
  rw [String.toList_append, String.toList_append, List.append_assoc]

theorem zipPath_inj {a b : String} : zipPath a = zipPath b ↔ a = b := by
  constructor
  · intro h
    have h := congrArg String.toList h
    rw [toList_zipPath, toList_zipPath, List.append_cancel_left_eq,
      List.append_cancel_right_eq] at h
    exact String.toList_inj.mp h
  · rintro rfl
    rfl

theorem zipPath_ne_manifestName (hash : String) : zipPath hash ≠ manifestName := by
  intro h
  have h := congrArg (·.toList.head?) h
  have hp : "files/".toList = 'f' :: "iles/".toList := by decide +kernel
  have hm : manifestName.toList.head? = some 'p' := by decide +kernel
  simp only [toList_zipPath, hp, hm, List.cons_append, List.head?_cons] at h
  exact absurd h (by decide)

theorem utf8ByteSize_zipPath (hash : String) :
    (zipPath hash).utf8ByteSize = hash.utf8ByteSize + 11 := by
  have h₁ : "files/".utf8ByteSize = 6 := by decide +kernel
  have h₂ : ".webp".utf8ByteSize = 5 := by decide +kernel
  change ("files/" ++ hash ++ ".webp").utf8ByteSize = _
  rw [String.utf8ByteSize_append, String.utf8ByteSize_append, h₁, h₂]
  omega

theorem byName_map_of {entries : List (String × Bytes)} (h : (entries.map Prod.fst).Nodup)
    {e : String × Bytes} (he : e ∈ entries) :
    byName (entries.map ZipEntry.of) e.1 = some (ZipEntry.of e) := by
  induction entries with
  | nil => cases he
  | cons a entries ih =>
    obtain ⟨hnot, hnodup⟩ := List.nodup_cons.mp h
    rw [byName, List.map_cons]
    rcases List.mem_cons.mp he with rfl | he
    · exact List.find?_cons_of_pos (decide_eq_true rfl)
    · have hne : a.1 ≠ e.1 := fun heq => hnot (heq ▸ List.mem_map_of_mem he)
      rw [List.find?_cons_of_neg (by simp [ZipEntry.of, hne])]
      exact ih hnodup he

theorem readString_ascii (s : String) : readString (ascii s) = .ok s := by
  have h : String.fromUTF8? ⟨(ascii s).toArray⟩ = some s := by
    rw [ascii, Array.toArray_toList]
    exact dif_pos s.isValidUTF8
  rw [readString, h]

theorem length_ascii (s : String) : (ascii s).length = s.utf8ByteSize := rfl

namespace PackInput

variable {lib : Libraries} {input : PackInput}

theorem sortedFiles_perm : input.sortedFiles.Perm input.files := StableSort.sortBy_perm

section Names

variable (h : (input.files.map (·.hash)).Nodup)
include h

theorem names_nodup : ((input.entries lib).map Prod.fst).Nodup := by
  rw [entries, List.map_cons, List.map_map, List.nodup_cons]
  constructor
  · intro hmem
    obtain ⟨f, _, hf⟩ := List.mem_map.mp hmem
    exact zipPath_ne_manifestName f.hash hf
  · have hsorted := (sortedFiles_perm.map (·.hash)).nodup_iff.mpr h
    have hpaths := hsorted.map (f := zipPath) fun a b => zipPath_inj.mp
    rwa [List.map_map] at hpaths

theorem holds_of_mem {f : ProcessedFile}
    (hf : f ∈ input.sortedFiles) : Holds ((input.entries lib).map ZipEntry.of) f := by
  refine byName_map_of (names_nodup h) (e := (zipPath f.hash, f.bytes)) ?_
  exact List.mem_cons_of_mem _ (List.mem_map_of_mem hf)

/-- The manifest of a built pack reads back just when it is within its size. -/
theorem readManifestFrom_entries (hlib : lib.FaithfulOn input) {m : PackManifest} :
    readManifestFrom lib ((input.entries lib).map ZipEntry.of) = .ok m ↔
      (input.manifest lib).toJson.utf8ByteSize ≤ maxManifestBytes ∧ input.manifest lib = m := by
  have hnodup : ((input.entries lib).map Prod.fst).Nodup := names_nodup h
  have hname := byName_map_of hnodup (e := (manifestName, ascii (input.manifest lib).toJson))
    List.mem_cons_self
  have hread : lib.fromJson (input.manifest lib).toJson = .ok (input.manifest lib) :=
    hlib.from_json
  have hversion : ¬ ((input.manifest lib).version = 0 ∨
      packVersion < (input.manifest lib).version) := by
    change ¬ (packVersion = 0 ∨ packVersion < packVersion)
    decide
  rw [readManifestFrom, hname]
  simp only [bind_eq_ok, refuseIf_eq_ok, exists_const, mapError_eq_ok, not_lt]
  constructor
  · rintro ⟨hsize, bytes, hbytes, raw, hraw, hrest⟩
    cases hbytes
    rw [List.take_of_length_le (Nat.le_succ_of_le hsize), readString_ascii] at hraw
    cases hraw
    obtain ⟨hle, m', hm', _, _, hm⟩ := hrest
    rw [hread] at hm'
    cases hm'
    cases hm
    exact ⟨hle, rfl⟩
  · rintro ⟨hle, rfl⟩
    have htake : (ascii (input.manifest lib).toJson).take (maxManifestBytes + 1) =
        ascii (input.manifest lib).toJson := List.take_of_length_le (Nat.le_succ_of_le hle)
    refine ⟨hle, _, congrArg Except.ok htake, _, readString_ascii _, hle, _, hread,
      not_not.mpr rfl, hversion, rfl⟩

end Names

theorem utf8ByteSize_of_isHashHex {s : String} (h : isHashHex s) : s.utf8ByteSize = 64 :=
  of_decide_eq_true (Bool.and_eq_true_iff.mp h).1

theorem sum_entry_sizes_le {fs : List ProcessedFile} (h : ∀ f ∈ fs, f.hash.utf8ByteSize = 64) :
    ((fs.map fun f => (zipPath f.hash, f.bytes)).map fun e =>
        e.2.length + e.2.length / 10 + 2 * e.1.utf8ByteSize + 512).sum ≤
      (fs.map (·.bytes.length)).sum + (fs.map (·.bytes.length)).sum / 10 + 662 * fs.length := by
  induction fs with
  | nil => simp
  | cons f fs ih =>
    have ih := ih fun g hg => h g (List.mem_cons_of_mem f hg)
    have hf := h f List.mem_cons_self
    simp only [List.map_cons, List.sum_cons, List.length_cons, utf8ByteSize_zipPath, hf]
    omega

section Written

variable (hlib : lib.FaithfulOn input) (hfiles : ∀ f ∈ input.files, Processed lib f)
  (hcount : input.files.length ≤ maxFiles) {bytes : Bytes}
  (hwrite : lib.zipWrite (input.entries lib) = .ok bytes)
include hlib hfiles hcount hwrite

theorem length_pack_le (htotal : (input.files.map (·.bytes.length)).sum ≤ maxTotalBytes)
    (hmanifest : (input.manifest lib).toJson.utf8ByteSize ≤ maxManifestBytes) :
    bytes.length ≤ maxPackBytes := by
  have hsize := hlib.zip_size hwrite
  have hhash : ∀ f ∈ input.sortedFiles, f.hash.utf8ByteSize = 64 := by
    intro f hf
    rw [(hfiles f (sortedFiles_perm.mem_iff.mp hf)).hash_eq]
    exact utf8ByteSize_of_isHashHex (hlib.hash_hex f.bytes)
  have hsum := sum_entry_sizes_le hhash
  have hname : manifestName.utf8ByteSize = 9 := by decide +kernel
  rw [(sortedFiles_perm.map (·.bytes.length)).sum_eq, sortedFiles_perm.length_eq] at hsum
  rw [entries, List.map_cons, List.sum_cons] at hsize
  simp only [length_ascii, hname] at hsize
  simp only [maxFiles, maxTotalBytes, maxManifestBytes] at hcount htotal hmanifest
  rw [maxPackBytes]
  omega

/-- A written pack is read back exactly when its manifest and its bytes are within the limits. -/
theorem verifyPack_entries (hne : input.files ≠ []) (hnodup : (input.files.map (·.hash)).Nodup)
    {pack : VerifiedPack} :
    verifyPack lib bytes = .ok pack ↔
      (input.manifest lib).toJson.utf8ByteSize ≤ maxManifestBytes ∧
        (input.files.map (·.bytes.length)).sum ≤ maxTotalBytes ∧
        pack = ⟨input.manifest lib, input.sortedFiles.map ProcessedFile.verified⟩ := by
  have harchive := hlib.zip_archive hwrite (names_nodup hnodup)
  have hsorted : ∀ f ∈ input.sortedFiles, Processed lib f :=
    fun f hf => hfiles f (sortedFiles_perm.mem_iff.mp hf)
  have hverify : ∀ r, verifyFiles lib ((input.entries lib).map ZipEntry.of)
      (input.manifest lib).files [] 0 = .ok r ↔
        (input.files.map (·.bytes.length)).sum ≤ maxTotalBytes ∧
          input.sortedFiles.map ProcessedFile.verified = r := by
    intro r
    have hhashes := (sortedFiles_perm.map (·.hash)).nodup_iff.mpr hnodup
    change verifyFiles lib _ (input.sortedFiles.map ProcessedFile.packFile) [] 0 = .ok r ↔ _
    rw [verifyFiles_packFiles hlib.hash_hex (fun f hf => ⟨hsorted f hf, holds_of_mem hnodup hf⟩)
        (Nat.zero_le _), (sortedFiles_perm.map (·.bytes.length)).sum_eq]
    simp [hhashes]
  have hfilesNe : (input.manifest lib).files ≠ [] := by
    intro h
    exact hne (List.perm_nil.mp (List.map_eq_nil_iff.mp h ▸ sortedFiles_perm.symm))
  have hfilesCount : (input.manifest lib).files.length ≤ maxFiles := by
    change (input.sortedFiles.map ProcessedFile.packFile).length ≤ maxFiles
    rwa [List.length_map, sortedFiles_perm.length_eq]
  simp only [verifyPack, bind_eq_ok, refuseIf_eq_ok, exists_const, mapError_eq_ok, not_lt]
  constructor
  · rintro ⟨_, archive, ha, m, hm, _, _, r, hr, hpack⟩
    rw [harchive] at ha
    cases ha
    obtain ⟨hle, rfl⟩ := (readManifestFrom_entries hnodup hlib).mp hm
    obtain ⟨hsum, rfl⟩ := (hverify r).mp hr
    cases hpack
    exact ⟨hle, hsum, rfl⟩
  · rintro ⟨hle, hsum, rfl⟩
    exact ⟨length_pack_le hlib hfiles hcount hwrite hsum hle, _, harchive, _,
      (readManifestFrom_entries hnodup hlib).mpr ⟨hle, rfl⟩, hfilesNe, hfilesCount, _,
      (hverify _).mpr ⟨hsum, rfl⟩, rfl⟩

end Written

end PackInput

theorem verifyPack_hashes_nodup {lib : Libraries} {bytes : Bytes} {pack : VerifiedPack}
    (h : verifyPack lib bytes = .ok pack) : (pack.manifest.files.map (·.sha256)).Nodup := by
  simp only [verifyPack, bind_eq_ok] at h
  obtain ⟨_, _, archive, _, m, _, _, _, _, _, r, hr, hpack⟩ := h
  cases hpack
  have hnil : (([] : List VerifiedFile).map (·.hash)).Nodup := List.nodup_nil
  exact verifyFiles_hashes_nodup hnil hr

theorem buildPack_ok {lib : Libraries} {input : PackInput} {bytes : Bytes} {m : PackManifest}
    (h : buildPack lib input = .ok (bytes, m)) :
    input.files ≠ [] ∧ input.files.length ≤ maxFiles ∧
      lib.zipWrite (input.entries lib) = .ok bytes ∧ m = input.manifest lib := by
  rw [buildPack] at h
  split_ifs at h with hne hcount
  dsimp only at h
  split at h
  · cases h
  split at h
  · cases h
  cases hwrite : lib.zipWrite (input.entries lib) with
  | error e => simp [hwrite, Except.map] at h
  | ok b =>
    simp only [hwrite, Except.map, Except.ok.injEq, Prod.mk.injEq] at h
    exact ⟨hne, not_lt.mp hcount, by rw [h.1], h.2.symm⟩

theorem buildPack_eq_ok {lib : Libraries} {input : PackInput} {bytes : Bytes}
    (hne : input.files ≠ []) (hcount : input.files.length ≤ maxFiles)
    (hpairs : ∀ pair ∈ input.sortedFiles.zip input.sortedFiles.tail,
      pair.1.hash ≠ pair.2.hash ∧ pair.1.role ≠ pair.2.role)
    (hwrite : lib.zipWrite (input.entries lib) = .ok bytes) :
    buildPack lib input = .ok (bytes, input.manifest lib) := by
  have hhash : (input.sortedFiles.zip input.sortedFiles.tail).find?
      (fun pair => pair.1.hash = pair.2.hash) = none :=
    List.find?_eq_none.mpr fun pair hp => by simp [(hpairs pair hp).1]
  have hrole : (input.sortedFiles.zip input.sortedFiles.tail).find?
      (fun pair => pair.1.role = pair.2.role) = none :=
    List.find?_eq_none.mpr fun pair hp => by simp [(hpairs pair hp).2]
  rw [buildPack, if_neg hne, if_neg (not_lt.mpr hcount)]
  simp only [hhash, hrole, hwrite]
  rfl

def GivenBack (lib : Libraries) (input : PackInput) (bytes : Bytes) (m : PackManifest) : Prop :=
  ∃ files, verifyPack lib bytes = .ok ⟨m, files⟩ ∧
    files.Perm (input.files.map ProcessedFile.verified)

/-- The importer's limits that the tool does not keep to. -/
def WithinLimits (lib : Libraries) (input : PackInput) : Prop :=
  (input.files.map (·.hash)).Nodup ∧
    (input.files.map (·.bytes.length)).sum ≤ maxTotalBytes ∧
    (input.manifest lib).toJson.utf8ByteSize ≤ maxManifestBytes

/-- What the tool builds the importer gives back, exactly within the importer's own limits. -/
theorem built_pack_givenBack_iff {lib : Libraries} {input : PackInput}
    (hlib : lib.FaithfulOn input) (hfiles : ∀ f ∈ input.files, Processed lib f) {bytes : Bytes}
    {m : PackManifest} (hbuild : buildPack lib input = .ok (bytes, m)) :
    GivenBack lib input bytes m ↔ WithinLimits lib input := by
  obtain ⟨hne, hcount, hwrite, rfl⟩ := buildPack_ok hbuild
  constructor
  · rintro ⟨files, hverify, _⟩
    -- the archive is known to be faithful for distinct names only
    have hnodup : (input.files.map (·.hash)).Nodup := by
      have h := verifyPack_hashes_nodup hverify
      change ((input.sortedFiles.map ProcessedFile.packFile).map (·.sha256)).Nodup at h
      rw [List.map_map] at h
      exact (PackInput.sortedFiles_perm.map (·.hash)).nodup_iff.mp h
    obtain ⟨hle, hsum, _⟩ :=
      (PackInput.verifyPack_entries hlib hfiles hcount hwrite hne hnodup).mp hverify
    exact ⟨hnodup, hsum, hle⟩
  · rintro ⟨hnodup, hsum, hle⟩
    exact ⟨_, (PackInput.verifyPack_entries hlib hfiles hcount hwrite hne hnodup).mpr
      ⟨hle, hsum, rfl⟩, PackInput.sortedFiles_perm.map _⟩

/-- The low 64 hex digits of the bytes read as one number. -/
def sampleHash (bytes : Bytes) : String :=
  String.ofList <| (List.range 64).map fun i =>
    Nat.digitChar (bytes.foldl (fun h b => 257 * h + b.toNat) 1 / 16 ^ i % 16)

/-- The contents of the entries one after another. -/
def packed (entries : List (String × Bytes)) : Bytes := entries.flatMap Prod.snd

def sampleDecoders : Libraries where
  hashHex := sampleHash
  imageCheck _ := .ok ()
  firstFrame _ := .ok (some (1, 1))
  imageDimensions _ := .ok (1, 1)
  validateFrameCentre _ := .ok ()
  zipWrite _ := .error "not the pack"
  zipArchive _ := .error "not the pack"
  fromJson _ := .error "not the pack"

def sampleLibraries (input : PackInput) : Libraries where
  hashHex := sampleHash
  imageCheck := sampleDecoders.imageCheck
  firstFrame := sampleDecoders.firstFrame
  imageDimensions := sampleDecoders.imageDimensions
  validateFrameCentre := sampleDecoders.validateFrameCentre
  zipWrite entries := .ok (packed entries)
  zipArchive bytes :=
    if bytes = packed (input.entries sampleDecoders) then
      .ok ((input.entries sampleDecoders).map ZipEntry.of)
    else .error "not the pack"
  fromJson text :=
    if text = (input.manifest sampleDecoders).toJson then .ok (input.manifest sampleDecoders)
    else .error "not the pack"

theorem sampleLibraries_manifest (input : PackInput) :
    input.manifest (sampleLibraries input) = input.manifest sampleDecoders := by
  have hid : defaultItemId (sampleLibraries input) = defaultItemId sampleDecoders := rfl
  rw [PackInput.manifest, PackInput.manifest, hid]

theorem sampleLibraries_entries (input : PackInput) :
    input.entries (sampleLibraries input) = input.entries sampleDecoders := by
  rw [PackInput.entries, PackInput.entries, sampleLibraries_manifest]

theorem sampleHash_hex (bytes : Bytes) : isHashHex (sampleHash bytes) := by
  have hdigit : ∀ n < 16, (Nat.digitChar n).utf8Size = 1 ∧
      (('0' ≤ Nat.digitChar n && Nat.digitChar n ≤ '9') ||
        ('a' ≤ Nat.digitChar n && Nat.digitChar n ≤ 'f')) = true := by decide
  have hmod : ∀ n, n % 16 < 16 := fun n => Nat.mod_lt n (by decide)
  have hsize : ∀ l : List Nat, (String.ofList (l.map fun i => Nat.digitChar
      (bytes.foldl (fun h b => 257 * h + b.toNat) 1 / 16 ^ i % 16))).utf8ByteSize = l.length := by
    intro l
    induction l with
    | nil => rfl
    | cons i l ih =>
      rw [String.utf8ByteSize_ofList] at ih ⊢
      rw [List.map_cons, String.utf8Len_cons, ih, (hdigit _ (hmod _)).1, List.length_cons]
  rw [isHashHex, sampleHash, hsize, List.length_range, String.toList_ofList, List.all_map]
  exact List.all_eq_true.2 fun i _ => (hdigit _ (hmod _)).2

theorem length_packed_le (entries : List (String × Bytes)) : (packed entries).length ≤
    512 + (entries.map fun e => e.2.length + e.2.length / 10 + 2 * e.1.utf8ByteSize + 512).sum := by
  rw [packed, List.length_flatMap]
  refine (List.sum_le_sum fun e _ => ?_).trans (Nat.le_add_left _ _)
  omega

theorem sampleLibraries_faithfulOn (input : PackInput) :
    (sampleLibraries input).FaithfulOn input where
  hash_hex := sampleHash_hex
  zip_archive hwrite _ := by
    cases hwrite
    rw [sampleLibraries_entries]
    simp only [sampleLibraries, if_true]
  zip_size hwrite := by
    cases hwrite
    exact length_packed_le _
  from_json := by
    rw [sampleLibraries_manifest]
    simp only [sampleLibraries, if_true]

def sampleWebp (n : Nat) : Bytes :=
  ascii "RIFF" ++ [0, 0, 0, 0] ++ ascii "WEBPVP8X" ++ [10, 0, 0, 0] ++ List.replicate (n + 10) 0

def sampleFile (role : Role) (n : Nat) : ProcessedFile where
  role
  bytes := sampleWebp n
  hash := sampleHash (sampleWebp n)
  w := 1
  h := 1
  animated := false

def sampleInput (license : String) (files : List ProcessedFile) : PackInput where
  title := "Ring of dusk"
  artistName := "Sample Artist"
  artistSlug := "sample"
  artistUrl := "https://example.invalid/sample"
  license
  itemId := none
  kinds := ["frame", "avatar"]
  files

def twoFiles : PackInput :=
  sampleInput "Plain text licence." [sampleFile .frame 0, sampleFile .avatar 1]

def longLicense : PackInput :=
  sampleInput (String.ofList (List.replicate (maxManifestBytes + 1) 'a')) [sampleFile .avatar 0]

theorem built_pack_givenBack_twoFiles :
    (sampleLibraries twoFiles).FaithfulOn twoFiles ∧
      (∀ f ∈ twoFiles.files, Processed (sampleLibraries twoFiles) f) ∧
      ∃ bytes m, buildPack (sampleLibraries twoFiles) twoFiles = .ok (bytes, m) ∧
        GivenBack (sampleLibraries twoFiles) twoFiles bytes m := by
  have hfiles : ∀ f ∈ twoFiles.files, Processed (sampleLibraries twoFiles) f := by
    intro f hf
    rcases List.mem_pair.mp hf with rfl | rfl
    · rfl
    · rfl
  have hbuild : buildPack (sampleLibraries twoFiles) twoFiles =
      .ok (packed (twoFiles.entries (sampleLibraries twoFiles)),
        twoFiles.manifest (sampleLibraries twoFiles)) :=
    buildPack_eq_ok (by decide) (by decide) (by decide +kernel) rfl
  have hlimits : WithinLimits (sampleLibraries twoFiles) twoFiles :=
    ⟨by decide +kernel, by decide +kernel, by decide +kernel⟩
  have hlib := sampleLibraries_faithfulOn twoFiles
  exact ⟨hlib, hfiles, _, _, hbuild, (built_pack_givenBack_iff hlib hfiles hbuild).mpr hlimits⟩

theorem utf8ByteSize_le_members (level : Nat) {items : List String} {m : String} (h : m ∈ items) :
    m.utf8ByteSize ≤ (members level items).utf8ByteSize := by
  induction items with
  | nil => cases h
  | cons a items ih =>
    cases items with
    | nil =>
      cases List.mem_singleton.mp h
      simp only [members, String.utf8ByteSize_append]
      omega
    | cons b items =>
      simp only [members, String.utf8ByteSize_append]
      rcases List.mem_cons.mp h with rfl | h
      · omega
      · have := ih h
        omega

theorem utf8ByteSize_escaped_replicate (n : Nat) :
    (escaped (List.replicate n 'a')).utf8ByteSize = n := by
  induction n with
  | zero => rfl
  | succ n ih =>
    have ha : (escape 'a').utf8ByteSize = 1 := by decide +kernel
    rw [List.replicate_succ, escaped, String.utf8ByteSize_append, ih, ha, Nat.add_comm]

theorem utf8ByteSize_le_jsonObject {level : Nat} {fields : List (String × String)}
    {f : String × String} (h : f ∈ fields) :
    f.2.utf8ByteSize ≤ (jsonObject level fields).utf8ByteSize := by
  have hm := utf8ByteSize_le_members level
    (List.mem_map_of_mem (f := fun f => jsonString f.1 ++ ": " ++ f.2) h)
  simp only [String.utf8ByteSize_append] at hm
  simp only [jsonObject, String.utf8ByteSize_append]
  omega

theorem utf8ByteSize_license_le (m : PackManifest) :
    (jsonString m.license).utf8ByteSize ≤ m.toJson.utf8ByteSize :=
  utf8ByteSize_le_jsonObject (f := ("license", jsonString m.license))
    (.tail _ (.tail _ (.tail _ (.tail _ (.head _)))))

theorem longLicense_toJson (lib : Libraries) :
    maxManifestBytes < (longLicense.manifest lib).toJson.utf8ByteSize := by
  refine lt_of_lt_of_le ?_ (utf8ByteSize_license_le (longLicense.manifest lib))
  have hchars : longLicense.license.toList = List.replicate (maxManifestBytes + 1) 'a' :=
    String.toList_ofList
  change _ < (jsonString longLicense.license).utf8ByteSize
  rw [jsonString, hchars, String.utf8ByteSize_append, String.utf8ByteSize_append,
    utf8ByteSize_escaped_replicate]
  omega

/-- The tool builds a pack whose manifest the importer takes for too large. -/
theorem not_givenBack_longLicense :
    (sampleLibraries longLicense).FaithfulOn longLicense ∧
      (∀ f ∈ longLicense.files, Processed (sampleLibraries longLicense) f) ∧
      ∃ bytes m, buildPack (sampleLibraries longLicense) longLicense = .ok (bytes, m) ∧
        ∀ pack, verifyPack (sampleLibraries longLicense) bytes ≠ .ok pack := by
  have hfiles : ∀ f ∈ longLicense.files, Processed (sampleLibraries longLicense) f := by
    intro f hf
    cases List.mem_singleton.mp hf
    rfl
  have hne : longLicense.files ≠ [] := List.cons_ne_nil _ _
  have hcount : longLicense.files.length ≤ maxFiles := by decide
  have hwrite : (sampleLibraries longLicense).zipWrite (longLicense.entries
    (sampleLibraries longLicense)) = .ok _ := rfl
  have hlib := sampleLibraries_faithfulOn longLicense
  refine ⟨hlib, hfiles, _, _, buildPack_eq_ok hne hcount ?_ hwrite, ?_⟩
  · intro pair hp
    cases hp
  · intro pack hpack
    obtain ⟨hle, _⟩ := (PackInput.verifyPack_entries hlib hfiles hcount hwrite hne
      (List.nodup_singleton _)).mp hpack
    exact absurd hle (not_le.mpr (longLicense_toJson _))

end Hollow.Pack
