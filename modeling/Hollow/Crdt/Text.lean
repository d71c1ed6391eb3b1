import Hollow.Crdt.Hlc

/-! The shapes the rules ask of texts: server and channel ids, emote names and hashes, sticker
labels, hex secrets, and numbers as `str::parse` reads them. Lengths are in bytes, as in the
source. -/

namespace Hollow.Crdt

def isLowercaseHexDigit (c : Char) : Bool := c.isDigit || ('a' ≤ c && c ≤ 'f')

def isHexDigit (c : Char) : Bool := isLowercaseHexDigit c || ('A' ≤ c && c ≤ 'F')

def genesisIdLen : Nat := 40

/-- Whether a server id has the self-certifying shape, which obliges its founding op to hash
to it. -/
def isGenesisId (serverId : String) : Bool :=
  serverId.utf8ByteSize == genesisIdLen && serverId.toList.all isLowercaseHexDigit

def legacyIdLen : Nat := 32

def validServerId (serverId : String) : Bool :=
  isGenesisId serverId ||
    (serverId.utf8ByteSize == legacyIdLen && serverId.toList.all isLowercaseHexDigit)

def validChannelId (id : String) : Bool :=
  1 ≤ id.utf8ByteSize && id.utf8ByteSize ≤ 64 &&
    id.toList.all fun c => c.isAlphanum || c == '-' || c == '_'

def validEmoteName (name : String) : Bool :=
  2 ≤ name.utf8ByteSize && name.utf8ByteSize ≤ 24 &&
    name.toList.all fun c => c.isLower || c.isDigit || c == '_'

def validEmoteHash (hash : String) : Bool :=
  hash.utf8ByteSize == 64 && hash.toList.all isLowercaseHexDigit

/-- `char::is_control`: the code points of general category `Cc`. -/
def isControl (c : Char) : Bool := c.toNat < 0x20 || (0x7f ≤ c.toNat && c.toNat ≤ 0x9f)

def maxStickerLabel : Nat := 32

def validStickerLabel (label : String) : Bool :=
  label.length ≤ maxStickerLabel && !label.toList.any isControl

def joinSecretShape (secret : String) : Bool :=
  secret.utf8ByteSize == 64 && secret.toList.all isHexDigit

def decimalValue (digits : List Char) : Nat :=
  digits.foldl (fun n c => n * 10 + (c.toNat - '0'.toNat)) 0

/-- `str::parse` at an unsigned type whose greatest value is `limit`: an optional plus sign and
at least one digit. -/
def parseUnsigned (limit : Nat) (text : String) : Option Nat :=
  let digits := match text.toList with
    | '+' :: rest => rest
    | all => all
  if digits.isEmpty || !digits.all Char.isDigit || limit < decimalValue digits then none
  else some (decimalValue digits)

/-- The first `n` characters; server and peer ids are ASCII, so these are bytes. -/
def takeChars (n : Nat) (text : String) : String := String.ofList (text.toList.take n)

def shortName (peerId : String) : String :=
  if peerId.utf8ByteSize > 12 then takeChars 12 peerId ++ "..." else peerId

def generalChannelId (serverId : String) : String := takeChars 8 serverId ++ "-general"

end Hollow.Crdt
