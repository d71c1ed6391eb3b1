import Hollow.Lib.Fallible
import Hollow.Lib.Slice
import Hollow.Lib.StableSort
import Hollow.Words

/-! The art pack: a ZIP of a manifest and the WebP files it lists. This module has the roles, the
limits, the manifest and its text, and the checks one file has to pass on either side. -/

namespace Hollow.Pack

open Fallible (refuseIf)
open Slice (slice)
open StableSort (sortBy)

def packFormat : String := "hollowpack"

def packVersion : Nat := 1

def manifestName : String := "pack.json"

def maxFiles : Nat := 8

def maxFileBytes : Nat := 4 * 1024 * 1024

def maxTotalBytes : Nat := 16 * 1024 * 1024

def maxPackBytes : Nat := 20 * 1024 * 1024

def maxManifestBytes : Nat := 64 * 1024

def maxDecodeDim : Nat := 4096

def frameDim : Nat := 512

def avatarDim : Nat := 512

def bannerW : Nat := 1200

def bannerH : Nat := 480

inductive Role where
  | avatar
  | avatarAnim
  | avatarStill
  | banner
  | bannerAnim
  | bannerStill
  | frame
  deriving DecidableEq

namespace Role

def asStr : Role → String
  | avatar => "avatar"
  | avatarAnim => "avatar_anim"
  | avatarStill => "avatar_still"
  | banner => "banner"
  | bannerAnim => "banner_anim"
  | bannerStill => "banner_still"
  | frame => "frame"

def parse (s : String) : Except String Role :=
  if s = "avatar" then .ok avatar
  else if s = "avatar_anim" then .ok avatarAnim
  else if s = "avatar_still" then .ok avatarStill
  else if s = "banner" then .ok banner
  else if s = "banner_anim" then .ok bannerAnim
  else if s = "banner_still" then .ok bannerStill
  else if s = "frame" then .ok frame
  else .error s!"The pack lists a file role this version does not know: {s}"

@[simp] theorem parse_asStr (role : Role) : parse role.asStr = .ok role := by
  cases role <;> decide +kernel

/-- Whether the bytes have to animate; a frame may or may not. -/
def mustAnimate : Role → Option Bool
  | avatarAnim | bannerAnim => some true
  | avatar | avatarStill | banner | bannerStill => some false
  | frame => none

end Role

structure PackFile where
  role : String
  path : String
  sha256 : String
  bytes : Nat
  w : Nat
  h : Nat
  animated : Bool
  deriving DecidableEq

structure PackItemMeta where
  id : String
  title : String
  kinds : List String
  deriving DecidableEq

structure PackArtist where
  name : String
  slug : String
  url : String
  deriving DecidableEq

structure PackManifest where
  format : String
  version : Nat
  item : PackItemMeta
  artist : PackArtist
  license : String
  files : List PackFile
  /-- The text of a reserved JSON value. -/
  ext : String
  deriving DecidableEq

/-! `serde_json::to_vec_pretty`: members on lines of their own, two blanks for each level. -/

def hexDigit (n : Nat) : Char := "0123456789abcdef".toList.getD n '0'

def escape (c : Char) : String :=
  if c = '"' then "\\\""
  else if c = '\\' then "\\\\"
  else if c = '\n' then "\\n"
  else if c = '\r' then "\\r"
  else if c = '\t' then "\\t"
  else if c.toNat = 8 then "\\b"
  else if c.toNat = 12 then "\\f"
  else if c.toNat < 32 then
    "\\u00" ++ String.ofList [hexDigit (c.toNat / 16), hexDigit (c.toNat % 16)]
  else String.ofList [c]

def escaped : List Char → String
  | [] => ""
  | c :: cs => escape c ++ escaped cs

def jsonString (s : String) : String := "\"" ++ escaped s.toList ++ "\""

def indentation (level : Nat) : String := String.ofList (List.replicate (2 * level) ' ')

/-- The members of an array or an object that stands at `level`. -/
def members (level : Nat) : List String → String
  | [] => ""
  | [m] => "\n" ++ indentation (level + 1) ++ m ++ "\n" ++ indentation level
  | m :: ms => "\n" ++ indentation (level + 1) ++ m ++ "," ++ members level ms

def jsonArray (level : Nat) (items : List String) : String := "[" ++ members level items ++ "]"

def jsonObject (level : Nat) (fields : List (String × String)) : String :=
  "\x7b" ++ members level (fields.map fun f => jsonString f.1 ++ ": " ++ f.2) ++ "\x7d"

def PackFile.toJson (f : PackFile) : String :=
  jsonObject 2 [("role", jsonString f.role), ("path", jsonString f.path),
    ("sha256", jsonString f.sha256), ("bytes", toString f.bytes), ("w", toString f.w),
    ("h", toString f.h), ("animated", toString f.animated)]

def PackManifest.toJson (m : PackManifest) : String :=
  jsonObject 0 [("format", jsonString m.format), ("version", toString m.version),
    ("item", jsonObject 1 [("id", jsonString m.item.id), ("title", jsonString m.item.title),
      ("kinds", jsonArray 2 (m.item.kinds.map jsonString))]),
    ("artist", jsonObject 1 [("name", jsonString m.artist.name), ("slug", jsonString m.artist.slug),
      ("url", jsonString m.artist.url)]),
    ("license", jsonString m.license), ("files", jsonArray 1 (m.files.map PackFile.toJson)),
    ("ext", m.ext)]

/-- An entry of an opened archive: the size it declares, and at most so many bytes of it. -/
structure ZipEntry where
  name : String
  size : Nat
  read : Nat → Except String Bytes

/-- What the code calls in other crates: SHA-256 in hex, the image decoders, the ZIP crate and the
JSON reader. -/
structure Libraries where
  hashHex : Bytes → String
  /-- `image_check::check`. -/
  imageCheck : Bytes → Except String Unit
  /-- The size of the first frame of an animation. -/
  firstFrame : Bytes → Except String (Option (Nat × Nat))
  /-- `image_convert::get_image_dimensions`. -/
  imageDimensions : Bytes → Except String (Nat × Nat)
  /-- `image_convert::validate_frame_centre`. -/
  validateFrameCentre : Bytes → Except String Unit
  zipWrite : List (String × Bytes) → Except String Bytes
  zipArchive : Bytes → Except String (List ZipEntry)
  fromJson : String → Except String PackManifest

structure ProcessedFile where
  role : Role
  bytes : Bytes
  hash : String
  w : Nat
  h : Nat
  animated : Bool
  deriving DecidableEq

def zipPath (hash : String) : String := s!"files/{hash}.webp"

def isAnimatedWebp (data : Bytes) : Bool :=
  20 < data.length && slice data 0 4 = ascii "RIFF" && slice data 8 12 = ascii "WEBP" &&
    slice data 12 16 = ascii "VP8X" && data.getD 20 0 &&& 2 ≠ 0

def webpHeaderDimensions (data : Bytes) : Option (Nat × Nat) :=
  if data.length < 20 ∨ slice data 0 4 ≠ ascii "RIFF" ∨ slice data 8 12 ≠ ascii "WEBP" then none
  else
    let fourcc := slice data 12 16
    let payload := data.drop 20
    if fourcc = ascii "VP8X" then
      if payload.length < 10 then none
      else some (fromLeBytes (slice payload 4 7) + 1, fromLeBytes (slice payload 7 10) + 1)
    else if fourcc = ascii "VP8 " then
      if payload.length < 10 ∨ slice payload 3 6 ≠ [0x9D, 0x01, 0x2A] then none
      else
        some (fromLeBytes (slice payload 6 8) % 0x4000, fromLeBytes (slice payload 8 10) % 0x4000)
    else if fourcc = ascii "VP8L" then
      if payload.length < 5 ∨ payload.getD 0 0 ≠ 0x2F then none
      else
        let bits := fromLeBytes (slice payload 1 5)
        some (bits % 0x4000 + 1, bits / 0x4000 % 0x4000 + 1)
    else none

def blobShape (lib : Libraries) (data : Bytes) : Except String (Nat × Nat × Bool) :=
  if data.length < 16 ∨ slice data 0 4 ≠ ascii "RIFF" ∨ slice data 8 12 ≠ ascii "WEBP" then
    .error "A file in this pack is not a WebP image"
  else
    match webpHeaderDimensions data with
    | none => .error "A file in this pack has an unreadable WebP header"
    | some (hdrW, hdrH) =>
      if maxDecodeDim < hdrW ∨ maxDecodeDim < hdrH then
        .error "A file in this pack is too large to decode safely"
      else if isAnimatedWebp data then
        match lib.firstFrame data with
        | .error e => .error s!"Failed to decode an animated file in this pack: {e}"
        | .ok none => .error "An animated file in this pack has no frames"
        | .ok (some (w, h)) =>
          if w = 0 ∨ h = 0 then .error "A file in this pack has zero dimensions"
          else .ok (w, h, true)
      else
        match lib.imageDimensions data with
        | .error e => .error s!"Failed to decode a file in this pack: {e}"
        | .ok (w, h) =>
          if w = 0 ∨ h = 0 then .error "A file in this pack has zero dimensions"
          else .ok (w, h, false)

def checkRoleCeiling (role : Role) (w h : Nat) : Except String Unit :=
  match role with
  | .frame =>
    if w ≠ h then .error "The frame file has to be square"
    else if frameDim < w then
      .error s!"The frame file is {w}x{h}, over the {frameDim}px frame ceiling"
    else .ok ()
  | .avatar | .avatarAnim | .avatarStill =>
    if w ≠ h then .error s!"The {role.asStr} file has to be square"
    else if avatarDim < w then
      .error s!"The {role.asStr} file is {w}x{h}, over the {avatarDim}px avatar ceiling"
    else .ok ()
  | .banner | .bannerAnim | .bannerStill =>
    if bannerW < w ∨ bannerH < h then
      .error s!"The {role.asStr} file is {w}x{h}, over the {bannerW}x{bannerH} banner ceiling"
    else .ok ()

def checkRoleShape (role : Role) (w h : Nat) (animated : Bool) : Except String Unit :=
  match role.mustAnimate with
  | some expected =>
    if animated = expected then checkRoleCeiling role w h
    else if expected then .error s!"The {role.asStr} file in this pack does not animate"
    else .error s!"The {role.asStr} file in this pack has to be a still"
  | none => checkRoleCeiling role w h

def overFileLimit (role : String) : String :=
  s!"The {role} file in this pack is over the {maxFileBytes / (1024 * 1024)} MB limit"

def checkFrame (lib : Libraries) (role : Role) (bytes : Bytes) : Except String Unit :=
  if role = .frame then lib.validateFrameCentre bytes else .ok ()

/-- A file taken as it is: checked and hashed, never encoded again. -/
def processedFromBytes (lib : Libraries) (role : Role) (bytes : Bytes) :
    Except String ProcessedFile := do
  refuseIf (maxFileBytes < bytes.length) (overFileLimit role.asStr)
  (lib.imageCheck bytes).mapError fun e => s!"The {role.asStr} file in this pack {e}"
  let shape ← blobShape lib bytes
  checkRoleShape role shape.1 shape.2.1 shape.2.2
  checkFrame lib role bytes
  return { role, bytes, hash := lib.hashHex bytes, w := shape.1, h := shape.2.1,
           animated := shape.2.2 }

structure PackInput where
  title : String
  artistName : String
  artistSlug : String
  artistUrl : String
  license : String
  itemId : Option String
  kinds : List String
  files : List ProcessedFile

def defaultItemId (lib : Libraries) (files : List ProcessedFile) : String :=
  let hashes := sortBy String.toList (files.map (·.hash))
  String.ofList ((lib.hashHex (ascii ("\n".intercalate hashes))).toList.take 16)

def ProcessedFile.packFile (f : ProcessedFile) : PackFile where
  role := f.role.asStr
  path := zipPath f.hash
  sha256 := f.hash
  bytes := f.bytes.length
  w := f.w
  h := f.h
  animated := f.animated

namespace PackInput

def sortedFiles (input : PackInput) : List ProcessedFile :=
  sortBy (fun f => toLex (f.role.asStr.toList, f.hash.toList)) input.files

def manifest (lib : Libraries) (input : PackInput) : PackManifest where
  format := packFormat
  version := packVersion
  item :=
    { id := input.itemId.getD (defaultItemId lib input.sortedFiles)
      title := input.title
      -- `Vec::dedup`: neighbours only
      kinds := input.kinds.destutter (· ≠ ·) }
  artist := { name := input.artistName, slug := input.artistSlug, url := input.artistUrl }
  license := input.license
  files := input.sortedFiles.map ProcessedFile.packFile
  ext := "\x7b\x7d"

/-- What goes into the ZIP. -/
def entries (lib : Libraries) (input : PackInput) : List (String × Bytes) :=
  (manifestName, ascii (input.manifest lib).toJson) ::
    input.sortedFiles.map fun f => (zipPath f.hash, f.bytes)

end PackInput

def buildPack (lib : Libraries) (input : PackInput) : Except String (Bytes × PackManifest) :=
  if input.files = [] then .error "A pack needs at least one file"
  else if maxFiles < input.files.length then .error s!"A pack carries at most {maxFiles} files"
  else
    let pairs := input.sortedFiles.zip input.sortedFiles.tail
    match pairs.find? fun pair => pair.1.hash = pair.2.hash with
    | some pair => .error (s!"Two files in this pack are byte identical ({pair.1.hash}). " ++
        "Each file has to be distinct art.")
    | none =>
      match pairs.find? fun pair => pair.1.role = pair.2.role with
      | some pair => .error ("A pack carries one file per role, and two " ++
          s!"{pair.1.role.asStr} files were given. Two avatars are two packs, not one.")
      | none => (lib.zipWrite (input.entries lib)).map fun bytes => (bytes, input.manifest lib)

end Hollow.Pack
