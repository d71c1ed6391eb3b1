import Hollow.Identity.Compact

/-! Checking a roster as it arrives and folding one roster into another. -/

namespace Hollow.Identity

open StableSort (sortBy)

def maxRemovalKeep : Nat := 16

def maxKeep : Nat := 64

def maxFutureSkewMs : Int := 10 * 60 * 1000

def i64Max : Int := 2 ^ 63 - 1

def i64Min : Int := -2 ^ 63

def saturatingAdd (a b : Int) : Int := max i64Min (min i64Max (a + b))

/-- Whether a phrase statement is not dated more than the skew past the clock, if there is one. -/
def fresh (now : Option Int) (atMs : Int) : Bool :=
  now.all fun now => atMs ≤ saturatingAdd now maxFutureSkewMs

section Verifies

variable (w : Checks) (master rPub : String) (now : Option Int)

def recoveryVerifies (rec : Recovery) : Bool :=
  let keep := sortSet rec.keep
  let payload := recoveryPayload master rPub rec.atMs keep rec.noWait
  fresh now rec.atMs && keep = rec.keep && !keep.isEmpty && keep.length ≤ maxKeep &&
    keep.all w.isKey && w.verifyByKey rPub payload rec.sigR && w.verifyBy master payload rec.sigM

def phraseAdmitVerifies (p : PhraseAdmit) : Bool :=
  let payload := phraseAdmitPayload master rPub p.atMs p.device
  fresh now p.atMs && w.isKey p.device && w.verifyByKey rPub payload p.sigR &&
    w.verifyBy master payload p.sigM

def consentVerifies (c : Consent) : Bool :=
  w.verifyBy c.device (consentPayload master c.device) c.sig

def vouchVerifies (v : Vouch) : Bool :=
  isBaseShape v.base && w.isKey v.device && v.device ≠ v.voucher &&
    w.verifyBy v.voucher (vouchPayload master v.base v.device) v.sig

def pendingVerifies (p : Pending) : Bool :=
  isBaseShape p.base && w.isKey p.device &&
    w.verifyBy master (pendingPayload master p.base p.device) p.sigM

def legacyVerifies (l : LegacyClaim) : Bool :=
  w.isKey l.device && w.verifyBy master (legacyPayload master l.device) l.sigM

def removalVerifies (rm : Removal) : Bool :=
  let keep := sortSet rm.keepVouched
  isBaseShape rm.base && w.isKey rm.device && keep = rm.keepVouched &&
    keep.length ≤ maxRemovalKeep && keep.all w.isKey &&
    w.verifyBy rm.remover (removalPayload master rm.base rm.device keep) rm.sig

end Verifies

namespace Roster

variable (w : Checks) (r : Roster)

/-- The statements that verify for this master. Without a clock the roster is one this node already
holds: its times were judged before, and its recovery key stays pinned. -/
def accepted (now : Option Int) : Roster :=
  let recoveries := if w.isRecoveryKey r.rPub
    then r.recoveries.filter (recoveryVerifies w r.master r.rPub now) else []
  let phraseAdmits := if w.isRecoveryKey r.rPub
    then r.phraseAdmits.filter (phraseAdmitVerifies w r.master r.rPub now) else []
  { master := r.master
    rPub := if now = none ∨ recoveries ≠ [] ∨ phraseAdmits ≠ [] then r.rPub else ""
    recoveries
    phraseAdmits
    consents := r.consents.filter (consentVerifies w r.master)
    vouches := r.vouches.filter (vouchVerifies w r.master)
    pendings := r.pendings.filter (pendingVerifies w r.master)
    legacy := r.legacy.filter (legacyVerifies w r.master)
    removals := r.removals.filter (removalVerifies w r.master) }

def checked (now : Option Int) : Roster :=
  if w.isKey r.master then (r.accepted w now).compacted w else {}

/-- The statements of both. Phrase statements under another recovery key than ours are left out. -/
def joined (incoming : Roster) : Roster :=
  let sameKey := (r.rPub = "" ∨ r.rPub = incoming.rPub) ∧ incoming.rPub ≠ ""
  { master := incoming.master
    rPub := if sameKey then incoming.rPub else r.rPub
    recoveries := if sameKey then pushUnique r.recoveries incoming.recoveries else r.recoveries
    phraseAdmits :=
      if sameKey then pushUnique r.phraseAdmits incoming.phraseAdmits else r.phraseAdmits
    consents := pushUnique r.consents incoming.consents
    vouches := pushUnique r.vouches incoming.vouches
    pendings := pushUnique r.pendings incoming.pendings
    legacy := pushUnique r.legacy incoming.legacy
    removals := pushUnique r.removals incoming.removals }

def merged (incoming : Roster) : Roster :=
  if r.master ≠ "" ∧ incoming.master ≠ r.master then r else (r.joined incoming).compacted w

/-- Without the pending joins of `base` that are not kept. -/
def trimmed (base : String) (kept : List Pending) : Roster :=
  { r with pendings := r.pendings.filter fun p => p.base ≠ base || kept.contains p }

def asks (incoming : Roster) (base : String) : List Pending :=
  sortSet ((r.pendings ++ incoming.pendings).filter (·.base = base))

/-- `merged` for a holder that keeps a clock of pending joins: past their ceiling, joins give way by
when this holder first saw them. -/
def mergedByFirstSight (incoming : Roster) (firstSeen : String → String → Option Int) : Roster :=
  let merged := r.merged w incoming
  if r.master ≠ "" ∧ incoming.master ≠ r.master then merged
  else
    let base := merged.base w
    let asks := r.asks incoming base
    if asks.length ≤ maxPending then merged
    else
      let seen := fun p : Pending => (firstSeen p.base p.device).getD i64Max
      let kept := (sortBy (fun p => toLex (seen p, p)) asks).take maxPending
      (r.trimmed base kept).merged w (incoming.trimmed base kept)

/-- A roster as this node holds it: checked when it arrived, or again later. -/
def Verified : Prop := ∃ (raw : Roster) (now : Option Int), r = raw.checked w now

end Roster

section Accepted

variable {w : Checks} {r : Roster} {now : Option Int}

theorem mem_accepted_recoveries {rec : Recovery} : rec ∈ (r.accepted w now).recoveries ↔
    w.isRecoveryKey r.rPub ∧ rec ∈ r.recoveries ∧ recoveryVerifies w r.master r.rPub now rec := by
  change rec ∈ (if w.isRecoveryKey r.rPub then _ else []) ↔ _
  split_ifs with hkey <;> simp [hkey]

theorem mem_accepted_phraseAdmits {p : PhraseAdmit} : p ∈ (r.accepted w now).phraseAdmits ↔
    w.isRecoveryKey r.rPub ∧ p ∈ r.phraseAdmits ∧
      phraseAdmitVerifies w r.master r.rPub now p := by
  change p ∈ (if w.isRecoveryKey r.rPub then _ else []) ↔ _
  split_ifs with hkey <;> simp [hkey]

/-- A roster accepted with a statement of the phrase keeps its recovery key. -/
theorem accepted_rPub
    (h : (r.accepted w now).recoveries ≠ [] ∨ (r.accepted w now).phraseAdmits ≠ []) :
    (r.accepted w now).rPub = r.rPub :=
  if_pos (.inr h)

end Accepted

end Hollow.Identity
