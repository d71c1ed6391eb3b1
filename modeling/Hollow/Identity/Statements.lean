import Hollow.Lib.StableSort

/-! The statements a roster is made of: which devices are one identity's, each signed and each
verifiable alone. Statements are sorted by their fields in order, as the source derives it. Times
are `i64` in the source. -/

namespace Hollow.Identity

section Sorted

variable {α : Type} [LinearOrder α]

def sortSet (l : List α) : List α := (StableSort.sortBy id l).dedup

def pushUnique (into incoming : List α) : List α := sortSet (into ++ incoming)

def sortCap (l : List α) (cap : Nat) : List α := (sortSet l).take cap

variable {l l' : List α} {a : α} {cap : Nat}

@[simp] theorem mem_sortSet : a ∈ sortSet l ↔ a ∈ l := by
  rw [sortSet, List.mem_dedup, StableSort.mem_sortBy]

@[simp] theorem mem_pushUnique : a ∈ pushUnique l l' ↔ a ∈ l ∨ a ∈ l' := by
  rw [pushUnique, mem_sortSet, List.mem_append]

theorem pairwise_sortSet : (sortSet l).Pairwise (· < ·) := by
  have hsorted : (sortSet l).Pairwise (· ≤ ·) :=
    (StableSort.sorted_sortBy (α := α)).sublist (List.dedup_sublist _)
  exact hsorted.imp₂ (fun {_ _} hle hne => lt_of_le_of_ne hle hne) (List.nodup_dedup _)

theorem nodup_sortSet : (sortSet l).Nodup := List.nodup_dedup _

/-- Sorted lists of the same statements are equal. -/
theorem eq_of_pairwise_lt (h : l.Pairwise (· < ·)) (h' : l'.Pairwise (· < ·))
    (hmem : ∀ a, a ∈ l ↔ a ∈ l') : l = l' := by
  have hperm : l.Perm l' := (List.perm_ext_iff_of_nodup (h.imp fun h => h.ne)
    (h'.imp fun h => h.ne)).2 hmem
  exact hperm.eq_of_pairwise (fun a b _ _ hab hba => le_antisymm hab hba) (h.imp fun h => h.le)
    (h'.imp fun h => h.le)

theorem sortSet_eq_self (h : l.Pairwise (· < ·)) : sortSet l = l :=
  eq_of_pairwise_lt pairwise_sortSet h fun _ => mem_sortSet

theorem sortCap_eq_sortSet (h : (sortSet l).length ≤ cap) : sortCap l cap = sortSet l :=
  List.take_of_length_le h

end Sorted

/-- The device's own key agrees to belong to this master. -/
structure Consent where
  device : String
  sig : String

/-- The phrase starts a new base keeping exactly `keep`. -/
structure Recovery where
  atMs : Int
  keep : List String
  noWait : Bool
  sigR : String
  sigM : String

/-- The phrase was typed on `device`. -/
structure PhraseAdmit where
  atMs : Int
  device : String
  sigR : String
  sigM : String

/-- Device `by` admits `device` into `base`. -/
structure Vouch where
  base : String
  device : String
  voucher : String
  sig : String

/-- `device` asks to join `base` with nobody vouching. -/
structure Pending where
  base : String
  device : String
  sigM : String

/-- A device that was this identity's before there were rosters. -/
structure LegacyClaim where
  device : String
  sigM : String

/-- Device `remover` removes `device` from `base`, keeping the listed devices that `device` had
vouched for. -/
structure Removal where
  base : String
  device : String
  remover : String
  keepVouched : List String
  sig : String

def Consent.key (c : Consent) : Lex (String × String) := toLex (c.device, c.sig)

def Recovery.key (r : Recovery) :
    Lex (Int × Lex (List String × Lex (Bool × Lex (String × String)))) :=
  toLex (r.atMs, toLex (r.keep, toLex (r.noWait, toLex (r.sigR, r.sigM))))

def PhraseAdmit.key (p : PhraseAdmit) : Lex (Int × Lex (String × Lex (String × String))) :=
  toLex (p.atMs, toLex (p.device, toLex (p.sigR, p.sigM)))

def Vouch.key (v : Vouch) : Lex (String × Lex (String × Lex (String × String))) :=
  toLex (v.base, toLex (v.device, toLex (v.voucher, v.sig)))

def Pending.key (p : Pending) : Lex (String × Lex (String × String)) :=
  toLex (p.base, toLex (p.device, p.sigM))

def LegacyClaim.key (l : LegacyClaim) : Lex (String × String) := toLex (l.device, l.sigM)

def Removal.key (r : Removal) :
    Lex (String × Lex (String × Lex (String × Lex (List String × String)))) :=
  toLex (r.base, toLex (r.device, toLex (r.remover, toLex (r.keepVouched, r.sig))))

theorem Consent.key_injective : Function.Injective Consent.key := by
  rintro ⟨⟩ ⟨⟩ h
  simpa [Consent.key] using h

theorem Recovery.key_injective : Function.Injective Recovery.key := by
  rintro ⟨⟩ ⟨⟩ h
  simpa [Recovery.key] using h

theorem PhraseAdmit.key_injective : Function.Injective PhraseAdmit.key := by
  rintro ⟨⟩ ⟨⟩ h
  simpa [PhraseAdmit.key] using h

theorem Vouch.key_injective : Function.Injective Vouch.key := by
  rintro ⟨⟩ ⟨⟩ h
  simpa [Vouch.key] using h

theorem Pending.key_injective : Function.Injective Pending.key := by
  rintro ⟨⟩ ⟨⟩ h
  simpa [Pending.key] using h

theorem LegacyClaim.key_injective : Function.Injective LegacyClaim.key := by
  rintro ⟨⟩ ⟨⟩ h
  simpa [LegacyClaim.key] using h

theorem Removal.key_injective : Function.Injective Removal.key := by
  rintro ⟨⟩ ⟨⟩ h
  simpa [Removal.key] using h

instance : LinearOrder Consent := LinearOrder.lift' _ Consent.key_injective

instance : LinearOrder Recovery := LinearOrder.lift' _ Recovery.key_injective

instance : LinearOrder PhraseAdmit := LinearOrder.lift' _ PhraseAdmit.key_injective

instance : LinearOrder Vouch := LinearOrder.lift' _ Vouch.key_injective

instance : LinearOrder Pending := LinearOrder.lift' _ Pending.key_injective

instance : LinearOrder LegacyClaim := LinearOrder.lift' _ LegacyClaim.key_injective

instance : LinearOrder Removal := LinearOrder.lift' _ Removal.key_injective

def consentPayload (master device : String) : String :=
  "hollow-id1-join:" ++ master ++ ":" ++ device

def recoveryPayload (master rPub : String) (atMs : Int) (keep : List String) (noWait : Bool) :
    String :=
  "hollow-id1-recovery:" ++ master ++ ":" ++ rPub ++ ":" ++ toString atMs ++ ":" ++
    ",".intercalate (sortSet keep) ++ (if noWait then ":nowait" else "")

def phraseAdmitPayload (master rPub : String) (atMs : Int) (device : String) : String :=
  "hollow-id1-radmit:" ++ master ++ ":" ++ rPub ++ ":" ++ toString atMs ++ ":" ++ device

def vouchPayload (master base device : String) : String :=
  "hollow-id1-admit:" ++ master ++ ":" ++ base ++ ":" ++ device

def pendingPayload (master base device : String) : String :=
  "hollow-id1-pending:" ++ master ++ ":" ++ base ++ ":" ++ device

def legacyPayload (master device : String) : String :=
  "hollow-id1-legacy:" ++ master ++ ":" ++ device

def removalPayload (master base device : String) (keepVouched : List String) : String :=
  "hollow-id1-remove:" ++ master ++ ":" ++ base ++ ":" ++ device ++ ":" ++
    ",".intercalate (sortSet keepVouched)

def legacyBase : String := "legacy"

def isBaseShape (base : String) : Bool :=
  base = legacyBase ||
    (base.utf8ByteSize = 32 && base.toList.all fun c =>
      ('0' ≤ c && c ≤ '9') || ('a' ≤ c && c ≤ 'f'))

/-- The keys, signatures and digests. A key that does not decode verifies nothing; a digest is given
as its first 16 bytes in hex. -/
structure Checks where
  isKey : String → Bool
  isRecoveryKey : String → Bool
  verifyBy : String → String → String → Bool
  verifyByKey : String → String → String → Bool
  digest : String → String
  isKey_of_verifyBy : ∀ id payload sig, verifyBy id payload sig = true → isKey id = true
  isRecoveryKey_of_verifyByKey : ∀ key payload sig, verifyByKey key payload sig = true →
    isRecoveryKey key = true
  not_isRecoveryKey_empty : isRecoveryKey "" = false
  digest_length : ∀ payload, (digest payload).length = 32

/-- Checks under which the signer's name is the signature, for examples. -/
def sampleChecks : Checks where
  isKey := fun id => id ≠ ""
  isRecoveryKey := fun key => key ≠ ""
  verifyBy := fun id _ sig => id ≠ "" && sig = id
  verifyByKey := fun key _ sig => key ≠ "" && sig = key
  digest := fun _ => "00000000000000000000000000000000"
  isKey_of_verifyBy := fun id _ _ h => by simp_all
  isRecoveryKey_of_verifyByKey := fun key _ _ h => by simp_all
  not_isRecoveryKey_empty := by simp
  digest_length := fun _ => by decide

end Hollow.Identity
