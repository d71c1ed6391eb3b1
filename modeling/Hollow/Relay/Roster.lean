import Hollow.Identity.Fold

/-! The relay's copy of the roster rules (`roster.h`), loop for loop over its own containers: sets
and maps are filled as the loops fill them, vectors are sorted under the comparisons it passes. The
statements, payloads and checks are the ones it shares with the client. -/

namespace Hollow.Relay.Rosters

open Hollow.Identity
open StableSort (sortBy)

section Vectors

variable {α : Type} [LinearOrder α]

def sortUnique (v : List α) : List α := (sortBy id v).destutter (· ≠ ·)

def resized (v : List α) (cap : Nat) : List α := if v.length > cap then v.take cap else v

def sortCap (v : List α) (cap : Nat) : List α := resized (sortUnique v) cap

def pushUnique (into incoming : List α) : List α := sortUnique (into ++ incoming)

/-- `std::stable_sort`: an element goes before the first it is not greater than. -/
def stableSort (less : α → α → Bool) (v : List α) : List α :=
  v.insertionSort fun a b => less b a = false

/-- Compares by a key first, then by the elements themselves. -/
def lessBy {κ : Type} [LinearOrder κ] (key : α → κ) (a b : α) : Bool :=
  if key a ≠ key b then key a < key b else a < b

end Vectors

section Base

variable (w : Checks) (r : Roster)

def newestAt (first : Recovery) (recoveries : List Recovery) : Int :=
  recoveries.foldl (fun at_ rec => max at_ rec.atMs) first.atMs

/-- What one tied recovery adds to the current one; `first` until one was seen. -/
def addTie (id : Recovery → String) (at_ : Int) (scan : Bool × Current) (rec : Recovery) :
    Bool × Current :=
  let (first, cur) := scan
  if rec.atMs ≠ at_ then scan
  else
    (false, { cur with
      base := if first ∨ id rec < cur.base then id rec else cur.base
      keep := cur.keep ∪ rec.keep.toFinset
      noWait := cur.noWait || rec.noWait })

def currentRecovery : Option Current :=
  match r.recoveries with
  | [] => none
  | first :: _ =>
    let at_ := newestAt first r.recoveries
    some (r.recoveries.foldl (addTie (baseId w r.master r.rPub) at_)
      (true, { base := "", at_, keep := ∅, noWait := false })).2

def base : String :=
  match currentRecovery w r with
  | some cur => cur.base
  | none => legacyBase

def consented : Finset String := r.consents.foldl (fun out k => insert k.device out) ∅

def baseRoots : Finset String :=
  match currentRecovery w r with
  | some cur =>
    r.phraseAdmits.foldl (fun roots p => if cur.at_ < p.atMs then insert p.device roots else roots)
      cur.keep
  | none =>
    r.phraseAdmits.foldl (fun roots p => insert p.device roots)
      (r.legacy.foldl (fun roots l => insert l.device roots) ∅)

end Base

/-- One tier's loop: the ranks given so far, the devices of this depth, and the depth. -/
structure Climb where
  rank : String → Option (Nat × Nat)
  frontier : Finset String
  depth : Nat

def vouchees (r : Roster) (voucher : String) : Finset String :=
  r.vouches.foldl (fun out v =>
    if v.device ∈ consented r ∧ v.voucher = voucher then insert v.device out else out) ∅

def Climb.step (r : Roster) (tier : Nat) (c : Climb) : Climb :=
  let rank := fun device => if device ∈ c.frontier then some (tier, c.depth) else c.rank device
  { rank
    frontier := (c.frontier.biUnion (vouchees r)).filter fun device => (rank device).isNone
    depth := c.depth + 1 }

/-- The loop, at most `fuel` times. -/
def Climb.run (r : Roster) (tier : Nat) : Nat → Climb → Climb
  | 0, c => c
  | fuel + 1, c => if c.frontier = ∅ then c else Climb.run r tier fuel (c.step r tier)

/-- The ranks once a tier grown from `seed` is added. -/
def climb (r : Roster) (tier : Nat) (seed : Finset String) (rank : String → Option (Nat × Nat)) :
    String → Option (Nat × Nat) :=
  (Climb.run r tier ((r.vouches.filter (·.device ∈ consented r)).length + 1)
    { rank, frontier := seed.filter fun device => (rank device).isNone, depth := 0 }).rank

def standing (w : Checks) (r : Roster) (device : String) : WithBot Rank :=
  let seed0 := (baseRoots w r).filter (· ∈ consented r)
  let seed1 := r.pendings.foldl (fun out p =>
    if p.device ∈ consented r then insert p.device out else out) ∅
  let rank := climb r 1 seed1 (climb r 0 seed0 fun _ => none)
  match rank device with
  | some (tier, depth) => some (toLex (tier, toLex (depth, device)))
  | none => ⊥

/-- The best vouches, the others, and the devices that have a best one. -/
def addVouch (stand : String → WithBot Rank) (split : List Vouch × List Vouch × Finset String)
    (v : Vouch) : List Vouch × List Vouch × Finset String :=
  let (tree, rest, best) := split
  if stand v.device ≠ ⊥ ∧ v.device ∉ best then (tree ++ [v], rest, insert v.device best)
  else (tree, rest ++ [v], best)

def klass (stand : String → WithBot Rank) (mentioned : Finset String) (k : Consent) :
    Lex (Nat × WithBot Rank) :=
  if stand k.device ≠ ⊥ then toLex (0, stand k.device)
  else if k.device ∈ mentioned then toLex (1, ⊥)
  else toLex (2, ⊥)

/-- The consents kept, and how many unnamed ones were met. -/
def addConsent (klass : Consent → Lex (Nat × WithBot Rank)) (kept : List Consent × Nat)
    (k : Consent) : List Consent × Nat :=
  let (keep, unnamed) := kept
  if (ofLex (klass k)).1 = 2 then
    if unnamed + 1 > maxUnnamedConsents then (keep, unnamed + 1) else (keep ++ [k], unnamed + 1)
  else (keep ++ [k], unnamed)

section Compaction

variable (w : Checks) (r : Roster)

def newest : Roster :=
  match r.recoveries with
  | [] => { r with recoveries := sortCap r.recoveries maxRecoveryTies }
  | first :: _ =>
    let at_ := newestAt first r.recoveries
    { r with
      recoveries := sortCap (r.recoveries.filter fun rec => ¬ rec.atMs ≠ at_) maxRecoveryTies }

def settled : Roster :=
  let r := newest r
  let cur := currentRecovery w r
  let base := base w r
  let phraseAdmits := match cur with
    | some cur => r.phraseAdmits.filter fun p => ¬ ¬ cur.at_ < p.atMs
    | none => r.phraseAdmits
  let legacy := match cur with
    | some _ => []
    | none => r.legacy
  { r with
    phraseAdmits := sortCap phraseAdmits maxPhraseAdmits
    legacy := sortCap legacy maxLegacy
    vouches := r.vouches.filter fun v => ¬ v.base ≠ base
    pendings := sortCap (r.pendings.filter fun p => ¬ p.base ≠ base) maxPending
    removals := r.removals.filter fun x => ¬ x.base ≠ base
    consents := (sortBy id r.consents).destutter (·.device ≠ ·.device) }

def keptVouches (stand : String → WithBot Rank) (vouches : List Vouch) : List Vouch :=
  let vouches := stableSort (lessBy (stand ·.voucher))
    (sortUnique (vouches.filter (stand ·.voucher ≠ ⊥)))
  let split := vouches.foldl (addVouch stand) ([], [], ∅)
  sortBy id (resized (split.1 ++ split.2.1) maxVouches)

def keptRemovals (stand : String → WithBot Rank) (removals : List Removal) : List Removal :=
  let removals := stableSort (lessBy (stand ·.remover))
    (sortUnique (removals.filter (stand ·.remover ≠ ⊥)))
  sortBy id (resized removals maxRemovals)

def mentioned : Finset String :=
  let out := r.recoveries.foldl (fun out x => out ∪ x.keep.toFinset) ∅
  let out := r.phraseAdmits.foldl (fun out p => insert p.device out) out
  let out := r.pendings.foldl (fun out p => insert p.device out) out
  let out := r.legacy.foldl (fun out l => insert l.device out) out
  let out := r.vouches.foldl (fun out v => insert v.device out) out
  r.removals.foldl (fun out x => insert x.device out) out

def keptConsents (stand : String → WithBot Rank) (mentioned : Finset String)
    (consents : List Consent) : List Consent :=
  let klass := klass stand mentioned
  let consents := stableSort (lessBy klass) consents
  let kept := consents.foldl (addConsent klass) ([], 0)
  sortBy id (resized kept.1 maxConsents)

def compacted : Roster :=
  let r := settled w r
  let stand := standing w r
  let kept :=
    { r with vouches := keptVouches stand r.vouches, removals := keptRemovals stand r.removals }
  { kept with consents := keptConsents stand (mentioned kept) r.consents }

end Compaction

section Merging

variable (w : Checks) (r : Roster)

/-- The statements that verify. One that is in `known` skips its signature check; phrase statements
only while `known` pins the same key. -/
def accepted (now : Int) (known : Option Roster) : Roster :=
  let m := r.master
  let fresh := fun at_ : Int => at_ ≤ now + maxFutureSkewMs
  let phraseKnown := known.filter fun known => known.rPub = r.rPub
  let recoveries := r.recoveries.filter fun rec =>
    let keep := sortUnique rec.keep
    let p := recoveryPayload m r.rPub rec.atMs keep rec.noWait
    (fresh rec.atMs ∧ keep = rec.keep ∧ keep ≠ [] ∧ keep.length ≤ maxKeep ∧ keep.all w.isKey) ∧
      (phraseKnown.any (rec ∈ ·.recoveries) ∨
        w.verifyByKey r.rPub p rec.sigR ∧ w.verifyBy m p rec.sigM)
  let phraseAdmits := r.phraseAdmits.filter fun pa =>
    let p := phraseAdmitPayload m r.rPub pa.atMs pa.device
    (fresh pa.atMs ∧ w.isKey pa.device) ∧
      (phraseKnown.any (pa ∈ ·.phraseAdmits) ∨
        w.verifyByKey r.rPub p pa.sigR ∧ w.verifyBy m p pa.sigM)
  { master := m
    rPub := if recoveries ≠ [] ∨ phraseAdmits ≠ [] then r.rPub else ""
    recoveries
    phraseAdmits
    consents := r.consents.filter fun k =>
      known.any (k ∈ ·.consents) ∨ w.verifyBy k.device (consentPayload m k.device) k.sig
    vouches := r.vouches.filter fun v =>
      (isBaseShape v.base ∧ w.isKey v.device ∧ v.device ≠ v.voucher) ∧
        (known.any (v ∈ ·.vouches) ∨ w.verifyBy v.voucher (vouchPayload m v.base v.device) v.sig)
    pendings := r.pendings.filter fun p =>
      (isBaseShape p.base ∧ w.isKey p.device) ∧
        (known.any (p ∈ ·.pendings) ∨ w.verifyBy m (pendingPayload m p.base p.device) p.sigM)
    legacy := r.legacy.filter fun l =>
      w.isKey l.device ∧
        (known.any (l ∈ ·.legacy) ∨ w.verifyBy m (legacyPayload m l.device) l.sigM)
    removals := r.removals.filter fun x =>
      let keep := sortUnique x.keepVouched
      (isBaseShape x.base ∧ w.isKey x.device ∧ keep = x.keepVouched ∧
          keep.length ≤ maxRemovalKeep ∧ keep.all w.isKey) ∧
        (known.any (x ∈ ·.removals) ∨
          w.verifyBy x.remover (removalPayload m x.base x.device keep) x.sig) }

def verified (now : Int) (known : Option Roster) : Roster :=
  if ¬ w.isKey r.master then {} else compacted w (accepted w r now known)

def merged (incoming : Roster) : Roster :=
  if r.master ≠ "" ∧ incoming.master ≠ r.master then r
  else
    let out := { r with master := incoming.master }
    let out :=
      if (out.rPub = "" ∨ out.rPub = incoming.rPub) ∧ incoming.rPub ≠ "" then
        { out with
          rPub := incoming.rPub
          recoveries := pushUnique out.recoveries incoming.recoveries
          phraseAdmits := pushUnique out.phraseAdmits incoming.phraseAdmits }
      else out
    compacted w { out with
      consents := pushUnique out.consents incoming.consents
      vouches := pushUnique out.vouches incoming.vouches
      pendings := pushUnique out.pendings incoming.pendings
      legacy := pushUnique out.legacy incoming.legacy
      removals := pushUnique out.removals incoming.removals }

def trim (base : String) (kept : List Pending) : Roster :=
  { r with pendings := r.pendings.filter fun p => ¬ (p.base = base ∧ p ∉ kept) }

def mergedByFirstSight (incoming : Roster) (firstSeen : String → String → Option Int) : Roster :=
  let out := merged w r incoming
  if r.master ≠ "" ∧ incoming.master ≠ r.master then out
  else
    let b := base w out
    let asks := sortUnique (r.pendings.filter (·.base = b) ++ incoming.pendings.filter (·.base = b))
    if asks.length ≤ maxPending then out
    else
      let seen := fun p : Pending => (firstSeen p.base p.device).getD i64Max
      let kept := (stableSort (fun x y => seen x < seen y) asks).take maxPending
      merged w (trim r b kept) (trim incoming b kept)

end Merging

/-- One pass of a closure loop over the vouches. -/
def sweep (ok : Vouch → Bool) (vs : List Vouch) (set : Finset String) : Finset String :=
  vs.foldl (fun set v =>
    if v.voucher ∉ set then set else if ok v then insert v.device set else set) set

/-- The closure loop, at most `fuel` passes. -/
def grow (ok : Vouch → Bool) (vs : List Vouch) : Nat → Finset String → Finset String
  | 0, set => set
  | fuel + 1, set =>
    let after := sweep ok vs set
    if after.card = set.card then after else grow ok vs fuel after

def addRemoval (acc : (String → Option String) × (String → Option (Finset String))) (x : Removal) :
    (String → Option String) × (String → Option (Finset String)) :=
  let (removed, keptBy) := acc
  let keep := x.keepVouched.toFinset
  (match removed x.device with
    | some _ => removed
    | none => Function.update removed x.device (some x.remover),
   match keptBy x.device with
    | none => Function.update keptBy x.device (some keep)
    | some before => Function.update keptBy x.device (some (before.filter (· ∈ keep))))

def fold (w : Checks) (r : Roster) (firstSeen : String → Option Int) (now : Int) : RosterState :=
  let cons := consented r
  let cur := currentRecovery w r
  let base := base w r
  let noWait := cur.any (·.noWait)
  let roots := (baseRoots w r).filter (· ∈ cons)
  let vs := r.vouches.filter fun v => v.base = base ∧ v.device ∈ cons
  let ps := r.pendings.filter fun p => p.base = base ∧ p.device ∈ cons
  let vouchClosure := grow (fun _ => true) vs (vs.length + 1)
  let founded := vouchClosure roots
  let refused : Finset String := r.removals.foldl (fun out x =>
    if x.base = base ∧ x.remover ∈ founded then insert x.device out else out) ∅
  let matured : Finset String := ps.foldl (fun out p =>
    if noWait ∨ p.device ∈ refused then out
    else if (firstSeen p.device).any (· ≤ now - pendingMaturityMs) then insert p.device out
    else out) ∅
  let rooted := vouchClosure (roots ∪ matured)
  let asked : Finset String := ps.foldl (fun out p => insert p.device out) ∅
  let counted := r.removals.foldl (fun acc x =>
    if x.base ≠ base ∨ x.remover ∉ rooted then acc
    else if x.device ∉ rooted ∧ x.device ∉ asked then acc
    else addRemoval acc x) (fun _ => none, fun _ => none)
  let removed := counted.1
  let ok := fun v : Vouch =>
    if (removed v.voucher).isNone then true
    else (counted.2 v.voucher).any (v.device ∈ ·)
  let valid := grow ok vs (vs.length + 1) (roots ∪ matured)
  { base
    protected_ := cur.isSome
    noWait
    members := valid.filter fun device => (removed device).isNone
    removed
    pending := asked.filter fun device => device ∉ valid ∧ (removed device).isNone }

end Hollow.Relay.Rosters
