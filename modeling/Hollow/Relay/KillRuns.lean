import Mathlib
import Hollow.Relay.KillRoom

/-! The proven slots, and what holds in every run of the list. -/

namespace Hollow.Relay.KillList

variable {k k' : KillList} {target t : String} {e e' : Entry} {d : Deposit} {storedAt : Int}

structure ProvenMirrors (k : KillList) : Prop where
  ledger : k.provenLedger.Sound
  listed : ∀ t share weight, k.provenLedger.Lists t share weight ↔
    weight = 1 ∧ ∃ e, k.proven.lookup t = some e ∧ e.share = share

theorem ProvenMirrors.mem (hk : ProvenMirrors k) :
    t ∈ k.proven ↔ ∃ x ∈ k.provenLedger.entries, x.key = t := by
  rw [← AList.lookup_isSome, Option.isSome_iff_exists]
  constructor
  · rintro ⟨e, he⟩
    obtain ⟨x, hx, hkey, -⟩ := (hk.listed t e.share 1).mpr ⟨rfl, e, he, rfl⟩
    exact ⟨x, hx, hkey⟩
  · rintro ⟨x, hx, rfl⟩
    obtain ⟨-, e, he, -⟩ := (hk.listed _ _ _).mp ⟨x, hx, rfl, rfl, rfl⟩
    exact ⟨e, he⟩

theorem ProvenMirrors.put (hk : ProvenMirrors k) : ProvenMirrors (k.putProven d storedAt) := by
  refine ⟨hk.ledger.put, fun t share weight => ?_⟩
  have hput : (k.putProven d storedAt).provenLedger = k.provenLedger.put d.target d.share 1 := rfl
  rw [hput, FairShare.lists_put, hk.listed]
  by_cases h : t = d.target
  · subst h
    simp only [putProven, AList.lookup_insert, Option.some_inj, exists_eq_left', ne_eq, not_true,
      and_false, true_and, false_or]
    exact ⟨fun h => ⟨h.2, h.1.symm⟩, fun h => ⟨h.2.symm, h.1⟩⟩
  · simp [putProven, AList.lookup_insert_ne h, h]

theorem ProvenMirrors.drop (hk : ProvenMirrors k) : ProvenMirrors (k.dropProven target).2 := by
  refine ⟨hk.ledger.remove, fun t share weight => ?_⟩
  have hremove : (k.dropProven target).2.provenLedger = k.provenLedger.remove target := rfl
  rw [hremove, FairShare.lists_remove, hk.listed]
  by_cases h : t = target
  · subst h
    simp [dropProven]
  · simp [dropProven, AList.lookup_erase_ne h, h]

theorem size_putProven (hk : ProvenMirrors k) : (k.putProven d storedAt).provenLedger.size =
    if d.target ∈ k.proven then k.provenLedger.size else k.provenLedger.size + 1 := by
  simp only [putProven, FairShare.size, FairShare.put, List.length_append, List.length_singleton]
  split_ifs with h
  · obtain ⟨x, hx, hkey⟩ := hk.mem.mp h
    rw [← hkey]
    exact hk.ledger.size_remove hx
  · rw [FairShare.remove_of_not_mem fun x hx hkey => h (hk.mem.mpr ⟨x, hx, hkey⟩)]

theorem trimProven_of_le (hsize : k.provenLedger.size ≤ maxProven) (fuel : Nat) :
    k.trimProven fuel = k := by
  cases fuel with
  | zero => rfl
  | succ fuel => exact if_pos hsize

theorem trimProven_succ (hsize : maxProven < k.provenLedger.size) (fuel : Nat) :
    ∃ x, k.provenLedger.Picks k.provenLedger.entries x ∧
      k.trimProven (fuel + 1) = (k.dropProven x.key).2.trimProven fuel := by
  rw [trimProven, if_neg (not_le.mpr hsize)]
  cases hvictim : k.provenLedger.victim with
  | none =>
    have hempty := FairShare.scan_eq_none.mp hvictim
    simp [FairShare.size, hempty] at hsize
  | some victim =>
    obtain ⟨x, hx, rfl⟩ := FairShare.picks_of_scan hvictim
    exact ⟨x, hx, rfl⟩

theorem insertProven_cases (hk : ProvenMirrors k) (hsize : k.provenLedger.size ≤ maxProven) :
    k.insertProven d storedAt = k.putProven d storedAt ∧
      (k.putProven d storedAt).provenLedger.size ≤ maxProven ∨
    d.target ∉ k.proven ∧ k.provenLedger.size = maxProven ∧
      ∃ x, (k.putProven d storedAt).provenLedger.Picks
          (k.putProven d storedAt).provenLedger.entries x ∧
        k.insertProven d storedAt = ((k.putProven d storedAt).dropProven x.key).2 := by
  have hinsert : k.insertProven d storedAt =
      (k.putProven d storedAt).trimProven (k.putProven d storedAt).provenLedger.size := rfl
  have hput := @size_putProven k d storedAt hk
  rcases le_or_gt (k.putProven d storedAt).provenLedger.size maxProven with hle | hlt
  · exact .inl ⟨hinsert.trans (trimProven_of_le hle _), hle⟩
  · have hnew : d.target ∉ k.proven := fun h => by
      rw [hput, if_pos h] at hlt
      omega
    rw [if_neg hnew] at hput
    have hfull : k.provenLedger.size = maxProven := by omega
    obtain ⟨x, hx, hgo⟩ := trimProven_succ hlt k.provenLedger.size
    have hrest : ((k.putProven d storedAt).dropProven x.key).2.provenLedger.size ≤ maxProven := by
      have := hk.put.ledger.size_remove hx.mem
      simp only [dropProven]
      omega
    refine .inr ⟨hnew, hfull, x, hx, ?_⟩
    rw [hinsert, hput, hgo, trimProven_of_le hrest]

/-- What the list keeps, but for the cap on the proven slots. -/
structure Sound (k : KillList) : Prop where
  mirrors : Mirrors k
  caps : Caps k
  provenMirrors : ProvenMirrors k
  blobs : ∀ t, ∀ e ∈ k.slots t, e.blob ≠ "" ∧ e.blob.utf8ByteSize ≤ maxBlobBytes
  provenBlobs : ∀ t e, k.proven.lookup t = some e →
    t ≠ "" ∧ e.blob ≠ "" ∧ e.blob.utf8ByteSize ≤ maxBlobBytes

structure Kept (k : KillList) : Prop extends Sound k where
  provenCap : k.provenLedger.size ≤ maxProven

theorem Deposit.fits_iff : d.fits ↔
    d.target ≠ "" ∧ d.blob ≠ "" ∧ d.blob.utf8ByteSize ≤ maxBlobBytes := by
  simp [fits, and_assoc]

theorem kept_empty : Kept {} where
  mirrors := by
    constructor <;> simp [slots, Dict.noEmpty_empty, FairShare.Lists, FairShare.sound_empty]
  caps := by
    constructor <;> simp [slots, issuerCount, FairShare.size]
  provenMirrors := ⟨FairShare.sound_empty, by simp [FairShare.Lists]⟩
  blobs := by simp [slots]
  provenBlobs := by simp
  provenCap := Nat.zero_le _

section Kept

variable (hk : Kept k)

include hk

theorem Kept.of_proven_eq (hm : Mirrors k') (hc : Caps k')
    (hblobs : ∀ t, ∀ e ∈ k'.slots t, e.blob ≠ "" ∧ e.blob.utf8ByteSize ≤ maxBlobBytes)
    (hproven : k'.proven = k.proven) (hledger : k'.provenLedger = k.provenLedger) : Kept k' := by
  refine ⟨⟨hm, hc, ⟨?_, ?_⟩, hblobs, ?_⟩, ?_⟩
  · rw [hledger]
    exact hk.provenMirrors.ledger
  · rw [hledger, hproven]
    exact hk.provenMirrors.listed
  · rw [hproven]
    exact hk.provenBlobs
  · rw [hledger]
    exact hk.provenCap

theorem Kept.inserts (hfits : d.fits) (storedAt : Int) :
    Inserted k d storedAt (k.insert d storedAt) :=
  insert_spec hk.mirrors hk.caps (Deposit.fits_iff.mp hfits).1

theorem Kept.insert (hfits : d.fits) : Kept (k.insert d storedAt) := by
  have h := hk.inserts hfits storedAt
  refine hk.of_proven_eq h.mirrors h.caps (fun t e he => ?_) h.proven h.provenLedger
  rcases h.entries t e he with he | ⟨seq, rfl⟩
  · exact hk.blobs t e he
  · exact (Deposit.fits_iff.mp hfits).2

theorem Kept.removeIf {pred : Entry → Bool} : Kept (k.removeIf target pred).2 :=
  have hs := shrinks_removeIf
  hk.of_proven_eq hk.mirrors.removeIf (hk.caps.shrinks hs)
    (fun t e he => hk.blobs t e ((hs.slots t).subset he)) hs.proven hs.provenLedger

end Kept

theorem Mirrors.withProven (hk : Mirrors k) {nextSeq : Nat} (hnext : k.nextSeq ≤ nextSeq)
    {proven : Dict String Entry} {provenLedger : FairShare String} :
    Mirrors { k with nextSeq, proven, provenLedger } :=
  ⟨hk.filled, hk.named, hk.single, hk.seqs, fun t e he => (hk.recent t e he).trans hnext,
    hk.issuing, hk.distinct, hk.issuers, hk.targets, hk.ledger, hk.listed⟩

theorem Sound.dropProven (hk : Sound k) : Sound (k.dropProven target).2 where
  mirrors := hk.mirrors.withProven le_rfl
  caps := ⟨hk.caps.issuer, hk.caps.target, hk.caps.list⟩
  provenMirrors := hk.provenMirrors.drop
  blobs := hk.blobs
  provenBlobs := fun t e he => by
    by_cases h : t = target
    · subst h
      simp only [KillList.dropProven, AList.lookup_erase, reduceCtorEq] at he
    · simp only [KillList.dropProven, AList.lookup_erase_ne h] at he
      exact hk.provenBlobs t e he

theorem Kept.dropProven (hk : Kept k) : Kept (k.dropProven target).2 :=
  ⟨hk.toSound.dropProven, (List.length_filter_le _ _).trans hk.provenCap⟩

theorem Sound.putProven (hk : Sound k) (hfits : d.fits) : Sound (k.putProven d storedAt) where
  mirrors := hk.mirrors.withProven (Nat.le_succ _)
  caps := ⟨hk.caps.issuer, hk.caps.target, hk.caps.list⟩
  provenMirrors := hk.provenMirrors.put
  blobs := hk.blobs
  provenBlobs := fun t e he => by
    by_cases h : t = d.target
    · subst h
      simp only [KillList.putProven, AList.lookup_insert, Option.some_inj] at he
      exact he ▸ Deposit.fits_iff.mp hfits
    · simp only [KillList.putProven, AList.lookup_insert_ne h] at he
      exact hk.provenBlobs t e he

theorem Kept.insertProven (hk : Kept k) (hfits : d.fits) : Kept (k.insertProven d storedAt) := by
  have hput := @Sound.putProven k d storedAt hk.toSound hfits
  rcases @insertProven_cases k d storedAt hk.provenMirrors hk.provenCap with
    ⟨heq, hsize⟩ | ⟨hnew, hfull, x, hx, heq⟩
  · rw [heq]
    exact ⟨hput, hsize⟩
  · rw [heq]
    refine ⟨hput.dropProven, ?_⟩
    have hsize := @size_putProven k d storedAt hk.provenMirrors
    have hremove := hput.provenMirrors.ledger.size_remove hx.mem
    rw [if_neg hnew] at hsize
    simp only [KillList.dropProven]
    omega

inductive Op
  | deposit (d : Deposit) (now nowWallMs : Int)
  | depositProven (d : Deposit) (now nowWallMs : Int)
  | ack (target : String)
  | ackOne (target issuer : String) (issuedAtMs : Int)
  | sweep (now : Int)

def apply (k : KillList) : Op → KillList
  | .deposit d now nowWallMs => (k.deposit d now nowWallMs).2
  | .depositProven d now nowWallMs => (k.depositProven d now nowWallMs).2
  | .ack target => (k.ack target).2
  | .ackOne target issuer issuedAtMs => (k.ackOne target issuer issuedAtMs).2
  | .sweep now => (k.sweep now).2

def run (k : KillList) (ops : List Op) : KillList := ops.foldl apply k

/-- A row of a snapshot, and whether it is of a proven slot. -/
structure Saved where
  deposit : Deposit
  storedAt : Int
  proven : Bool

def start (saved : List Saved) : KillList :=
  saved.foldl (fun (k : KillList) r =>
    if r.proven then k.restoreProven r.deposit r.storedAt else k.restore r.deposit r.storedAt) {}

theorem deposit_cases (now nowWallMs : Int) : (k.deposit d now nowWallMs).2 = k ∨
    d.fits ∧ (k.deposit d now nowWallMs).2 = k.insert d now := by
  rw [KillList.deposit]
  by_cases hfits : d.fits
  · simp only [hfits, Bool.not_true, Bool.false_eq_true, if_false, true_and]
    split_ifs
    · exact .inl rfl
    · exact .inl rfl
    · exact .inr rfl
  · simp [hfits]

theorem Kept.proven_deposit (hk : Kept k) (now nowWallMs : Int) :
    (k.deposit d now nowWallMs).2.proven = k.proven := by
  rcases @deposit_cases k d now nowWallMs with h | ⟨hfits, h⟩
  · rw [h]
  · rw [h, (hk.inserts hfits now).proven]

theorem depositProven_cases (now nowWallMs : Int) : (k.depositProven d now nowWallMs).2 = k ∨
    d.fits ∧ (∀ e, k.proven.lookup d.target = some e → e.issuedAtMs < d.issuedAtMs) ∧
      (k.depositProven d now nowWallMs).2 = k.insertProven d now := by
  rw [KillList.depositProven]
  by_cases hfits : d.fits
  · simp only [hfits, Bool.not_true, Bool.false_eq_true, if_false, true_and]
    split_ifs with hwall hnewer
    · exact .inl rfl
    · exact .inl rfl
    · refine .inr ⟨fun e he => ?_, rfl⟩
      rw [he] at hnewer
      simpa using hnewer
  · simp [hfits]

theorem ack_cases : (k.ack target).2 = (k.dropProven target).2 ∨
    (k.ack target).2 = ((k.dropProven target).2.removeIf target fun _ => true).2 := by
  rw [ack]
  by_cases h : target ∈ (k.dropProven target).2.entries
  · refine .inr ?_
    simp only [if_pos h]
    simp [KillList.removeIf, Dict.setBucket]
  · exact .inl (by simp only [if_neg h])

theorem ackOne_cases (issuer : String) (issuedAtMs : Int) :
    ∃ pred, (k.ackOne target issuer issuedAtMs).2 = (k.removeIf target pred).2 ∨
      (k.ackOne target issuer issuedAtMs).2 = ((k.dropProven target).2.removeIf target pred).2 ∧
        ∃ e, k.proven.lookup target = some e ∧ e.issuer = issuer ∧ e.issuedAtMs = issuedAtMs := by
  refine ⟨fun e => e.issuer = issuer ∧ e.issuedAtMs = issuedAtMs, ?_⟩
  rw [ackOne]
  cases hslot : k.proven.lookup target with
  | none => exact .inl rfl
  | some e =>
    by_cases h : e.issuer = issuer ∧ e.issuedAtMs = issuedAtMs
    · refine .inr ⟨?_, e, rfl, h⟩
      simp only [Option.any_some, h, and_self, decide_true, if_true]
    · refine .inl ?_
      simp only [Option.any_some, decide_eq_true_eq, if_neg h]

theorem sweepTarget_cases (now : Int) :
    sweepTarget now k target = (k.removeIf target (aged now)).2 ∨
      sweepTarget now k target = ((k.removeIf target (aged now)).2.dropProven target).2 ∧
        ∃ e, k.proven.lookup target = some e ∧ aged now e := by
  rw [sweepTarget, shrinks_removeIf.proven]
  split_ifs with h
  · obtain ⟨e, he, haged⟩ := (Option.any_eq_true _ _).mp h
    exact .inr ⟨rfl, e, he, haged⟩
  · exact .inl rfl

theorem Kept.sweepTarget (hk : Kept k) (now : Int) : Kept (sweepTarget now k target) := by
  rcases @sweepTarget_cases k target now with h | ⟨h, -⟩
  · rw [h]
    exact hk.removeIf
  · rw [h]
    exact hk.removeIf.dropProven

theorem Kept.apply (hk : Kept k) (op : Op) : Kept (k.apply op) := by
  cases op with
  | deposit d now nowWallMs =>
    rcases @deposit_cases k d now nowWallMs with h | ⟨hfits, h⟩
    · rwa [KillList.apply, h]
    · rw [KillList.apply, h]
      exact hk.insert hfits
  | depositProven d now nowWallMs =>
    rcases @depositProven_cases k d now nowWallMs with h | ⟨hfits, -, h⟩
    · rwa [KillList.apply, h]
    · rw [KillList.apply, h]
      exact hk.insertProven hfits
  | ack target =>
    rcases @ack_cases k target with h | h
    · rw [KillList.apply, h]
      exact hk.dropProven
    · rw [KillList.apply, h]
      exact hk.dropProven.removeIf
  | ackOne target issuer issuedAtMs =>
    obtain ⟨pred, h | ⟨h, -⟩⟩ := @ackOne_cases k target issuer issuedAtMs
    · rw [KillList.apply, h]
      exact hk.removeIf
    · rw [KillList.apply, h]
      exact hk.dropProven.removeIf
  | sweep now =>
    exact List.foldlRecOn (motive := fun s : Nat × KillList => Kept s.2) _ _ hk
      fun s hs target _ => hs.sweepTarget now

theorem Kept.run (hk : Kept k) (ops : List Op) : Kept (k.run ops) :=
  List.foldlRecOn (motive := Kept) ops _ hk fun _ hk op _ => hk.apply op

theorem kept_start (saved : List Saved) : Kept (start saved) := by
  refine List.foldlRecOn (motive := Kept) saved _ kept_empty fun k hk r _ => ?_
  rw [restoreProven, restore]
  cases hfits : r.deposit.fits
  · simpa using hk
  · simp only [Bool.not_true, Bool.false_eq_true, if_false]
    split_ifs
    · exact hk.insertProven hfits
    · exact hk.insert hfits

/-- The operation takes the order `e` out of the proven slot of `t`. -/
def Leaves (k : KillList) (t : String) (e : Entry) : Op → Prop
  | .deposit _ _ _ => False
  | .depositProven d _ _ => d.target ∉ k.proven ∧ k.provenLedger.size = maxProven
  | .ack target => target = t
  | .ackOne target issuer issuedAtMs => target = t ∧ e.issuer = issuer ∧ e.issuedAtMs = issuedAtMs
  | .sweep now => aged now e

/-- An order that is `e`, or newer. -/
def Entry.UpTo (e e' : Entry) : Prop := e' = e ∨ e.issuedAtMs < e'.issuedAtMs

theorem Entry.UpTo.trans {e e' e'' : Entry} (h : e.UpTo e') (h' : e'.UpTo e'') : e.UpTo e'' := by
  rcases h with rfl | h
  · exact h'
  · rcases h' with rfl | h'
    · exact .inr h
    · exact .inr (h.trans h')

theorem lookup_dropProven (h : t ≠ target) :
    (k.dropProven target).2.proven.lookup t = k.proven.lookup t :=
  AList.lookup_erase_ne h

theorem lookup_sweep (now : Int) (he : k.proven.lookup t = some e) :
    (k.sweep now).2.proven.lookup t = some e ∨
      (k.sweep now).2.proven.lookup t = none ∧ aged now e := by
  refine List.foldlRecOn (motive := fun s : Nat × KillList => s.2.proven.lookup t = some e ∨
    s.2.proven.lookup t = none ∧ aged now e) _ _ (.inl he) fun s hs target _ => ?_
  simp only
  rcases @sweepTarget_cases s.2 target now with h | ⟨h, e', he', haged⟩
  · rwa [h, shrinks_removeIf.proven]
  · rw [h]
    by_cases hsame : t = target
    · subst hsame
      refine .inr ⟨AList.lookup_erase _ _, ?_⟩
      rcases hs with hs | hs
      · rw [hs, Option.some_inj] at he'
        exact he' ▸ haged
      · exact hs.2
    · rwa [lookup_dropProven hsame, shrinks_removeIf.proven]

/-- A proven kill stays or is renewed, unless the op is one that it may leave by. -/
theorem lookup_apply (hk : Kept k) (op : Op) (he : k.proven.lookup t = some e) :
    (∃ e', (k.apply op).proven.lookup t = some e' ∧ e.UpTo e') ∨
      (k.apply op).proven.lookup t = none ∧ Leaves k t e op := by
  have hstays : ∀ {k' : KillList}, k'.proven = k.proven →
      ∃ e', k'.proven.lookup t = some e' ∧ e.UpTo e' := fun h => ⟨e, h ▸ he, .inl rfl⟩
  cases op with
  | deposit d now nowWallMs => exact .inl (hstays (hk.proven_deposit now nowWallMs))
  | depositProven d now nowWallMs =>
    rw [KillList.apply]
    rcases @depositProven_cases k d now nowWallMs with h | ⟨-, hnewer, h⟩
    · exact .inl (hstays (congrArg KillList.proven h))
    · have hput : ∃ e', (k.putProven d now).proven.lookup t = some e' ∧ e.UpTo e' := by
        by_cases hsame : t = d.target
        · subst hsame
          exact ⟨_, AList.lookup_insert _, .inr (hnewer e he)⟩
        · exact ⟨e, (AList.lookup_insert_ne hsame).trans he, .inl rfl⟩
      rw [h]
      rcases @insertProven_cases k d now hk.provenMirrors hk.provenCap with
        ⟨heq, -⟩ | ⟨hnew, hfull, x, -, heq⟩
      · rw [heq]
        exact .inl hput
      · rw [heq]
        by_cases hsame : t = x.key
        · subst hsame
          exact .inr ⟨AList.lookup_erase _ _, hnew, hfull⟩
        · rw [lookup_dropProven hsame]
          exact .inl hput
  | ack target =>
    have hproven : (k.ack target).2.proven = (k.dropProven target).2.proven := by
      rcases @ack_cases k target with h | h
      · rw [h]
      · rw [h, shrinks_removeIf.proven]
    rw [KillList.apply, hproven]
    by_cases hsame : t = target
    · subst hsame
      exact .inr ⟨AList.lookup_erase _ _, rfl⟩
    · rw [lookup_dropProven hsame]
      exact .inl ⟨e, he, .inl rfl⟩
  | ackOne target issuer issuedAtMs =>
    rw [KillList.apply]
    obtain ⟨pred, h | ⟨h, e', he', hnames⟩⟩ := @ackOne_cases k target issuer issuedAtMs
    · rw [h]
      exact .inl (hstays shrinks_removeIf.proven)
    · rw [h, shrinks_removeIf.proven]
      by_cases hsame : t = target
      · subst hsame
        rw [he, Option.some_inj] at he'
        exact .inr ⟨AList.lookup_erase _ _, rfl, he' ▸ hnames⟩
      · rw [lookup_dropProven hsame]
        exact .inl ⟨e, he, .inl rfl⟩
  | sweep now =>
    rcases lookup_sweep now he with h | h
    · exact .inl ⟨e, h, .inl rfl⟩
    · exact .inr h

theorem lookup_run (hk : Kept k) (ops : List Op) (he : k.proven.lookup t = some e) :
    (∃ e', (k.run ops).proven.lookup t = some e' ∧ e.UpTo e') ∨
      ∃ before op after e', ops = before ++ op :: after ∧
        (k.run before).proven.lookup t = some e' ∧ e.UpTo e' ∧ Leaves (k.run before) t e' op := by
  induction ops using List.reverseRecOn with
  | nil => exact .inl ⟨e, he, .inl rfl⟩
  | append_singleton ops op ih =>
    have hrun : k.run (ops ++ [op]) = (k.run ops).apply op := by simp [KillList.run]
    rcases ih with ⟨e', he', hup⟩ | ⟨before, op', after, e', rfl, hrest⟩
    · rcases lookup_apply (hk.run ops) op he' with ⟨e'', he'', hup'⟩ | ⟨-, hleaves⟩
      · exact .inl ⟨e'', hrun ▸ he'', hup.trans hup'⟩
      · exact .inr ⟨ops, op, [], e', rfl, he', hup, hleaves⟩
    · exact .inr ⟨before, op', after ++ [op], e', by simp, hrest⟩

theorem fair_deposit (hk : Kept k) (now nowWallMs : Int) (he : e ∈ k.slots t)
    (hne : e.issuer ≠ d.issuer) (hgone : e ∉ (k.deposit d now nowWallMs).2.slots t) :
    GivesWay k d t e := by
  rcases @deposit_cases k d now nowWallMs with h | ⟨hfits, h⟩
  · rw [h] at hgone
    exact absurd he hgone
  · rw [h] at hgone
    exact (hk.inserts hfits now).fair t e he hne hgone

/-- A proven kill gives way only to a share that holds no more. -/
theorem fair_depositProven (hk : Kept k) (now nowWallMs : Int) (ht : t ≠ d.target)
    (he : k.proven.lookup t = some e)
    (hgone : (k.depositProven d now nowWallMs).2.proven.lookup t = none) :
    (k.putProven d now).provenLedger.held d.share ≤
      (k.putProven d now).provenLedger.held e.share := by
  have hput : (k.putProven d now).proven.lookup t = some e :=
    (AList.lookup_insert_ne ht).trans he
  rcases @depositProven_cases k d now nowWallMs with h | ⟨-, -, h⟩
  · rw [h, he] at hgone
    cases hgone
  · rw [h] at hgone
    rcases @insertProven_cases k d now hk.provenMirrors hk.provenCap with
      ⟨heq, -⟩ | ⟨-, -, x, hx, heq⟩
    · rw [heq, hput] at hgone
      cases hgone
    · obtain rfl : t = x.key := by
        by_contra hne
        rw [heq, lookup_dropProven hne, hput] at hgone
        cases hgone
      obtain ⟨-, e', he', hshare⟩ := (hk.provenMirrors.put.listed _ _ _).mp
        ⟨x, hx.mem, rfl, rfl, rfl⟩
      rw [hput, Option.some_inj] at he'
      rw [he', hshare]
      exact hx.held_le d.share

/-- The list of destroy orders in every run: its caps hold and its indexes mirror its entries, an
opaque deposit leaves the proven slots alone, a proven stamp only rises until it is acked, expires
or meets the cap, and the cap that takes another's order for a deposit takes it from a share that
holds as much there as the depositor's. -/
theorem destroy_orders_kept (saved : List Saved) (ops : List Op) :
    let k := (start saved).run ops
    Kept k ∧
    (∀ d now nowWallMs, (k.deposit d now nowWallMs).2.proven = k.proven) ∧
    (∀ more t e, k.proven.lookup t = some e →
      (∃ e', (k.run more).proven.lookup t = some e' ∧ e.UpTo e') ∨
        ∃ before op after e', more = before ++ op :: after ∧
          (k.run before).proven.lookup t = some e' ∧ e.UpTo e' ∧ Leaves (k.run before) t e' op) ∧
    (∀ (d : Deposit) now nowWallMs t, ∀ e ∈ k.slots t, e.issuer ≠ d.issuer →
      e ∉ (k.deposit d now nowWallMs).2.slots t → GivesWay k d t e) ∧
    ∀ (d : Deposit) now nowWallMs,
      (∀ t, (k.depositProven d now nowWallMs).2.slots t = k.slots t) ∧
      ∀ t e, t ≠ d.target → k.proven.lookup t = some e →
        (k.depositProven d now nowWallMs).2.proven.lookup t = none →
          (k.putProven d now).provenLedger.held d.share ≤
            (k.putProven d now).provenLedger.held e.share := by
  intro k
  have hk : Kept k := (kept_start saved).run ops
  refine ⟨hk, fun _ => hk.proven_deposit, fun more t e he => lookup_run hk more he,
    fun d now nowWallMs t e he hne hgone => fair_deposit hk now nowWallMs he hne hgone,
    fun d now nowWallMs => ⟨fun t => ?_, fun t e ht he hgone =>
      fair_depositProven hk now nowWallMs ht he hgone⟩⟩
  rcases @depositProven_cases k d now nowWallMs with h | ⟨-, -, h⟩
  · rw [h]
  · rw [h]
    rcases @insertProven_cases k d now hk.provenMirrors hk.provenCap with
      ⟨heq, -⟩ | ⟨-, -, x, -, heq⟩ <;> rw [heq] <;> rfl

end Hollow.Relay.KillList
