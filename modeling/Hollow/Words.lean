import Hollow.Mls.Codec

/-! Bytes, and words with the low byte first. -/

namespace Hollow

open Mls (toBeBytes fromBeBytes length_toBeBytes fromBeBytes_toBeBytes)

abbrev Bytes := List UInt8

def fromLeBytes (bytes : Bytes) : Nat := fromBeBytes bytes.reverse

/-- `n` as `width` bytes, the low one first. -/
def toLeBytes (width n : Nat) : Bytes := (toBeBytes width n).reverse

def ascii (text : String) : Bytes := text.toUTF8.data.toList

theorem fromLeBytes_toLeBytes {width n : Nat} (h : n < 256 ^ width) :
    fromLeBytes (toLeBytes width n) = n := by
  rw [fromLeBytes, toLeBytes, List.reverse_reverse, fromBeBytes_toBeBytes h]

theorem length_toLeBytes (width n : Nat) : (toLeBytes width n).length = width := by
  rw [toLeBytes, List.length_reverse, length_toBeBytes]

/-- Bytes survive the trip through the number they spell. -/
theorem toLeBytes_fromLeBytes {bytes : Bytes} {width : Nat} (h : bytes.length = width) :
    toLeBytes width (fromLeBytes bytes) = bytes := by
  subst h
  rw [toLeBytes, fromLeBytes, ← List.length_reverse, Mls.toBeBytes_fromBeBytes,
    List.reverse_reverse]

end Hollow
