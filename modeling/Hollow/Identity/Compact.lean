import Hollow.Identity.Standing

/-! Compaction: what the current base supersedes is dropped, statements are sorted and the ceilings
applied. A vouch or removal stays only when its signer stands, and gives way by its signer's rank;
each standing device's best vouch stays before all others. -/

namespace Hollow.Identity

open StableSort

def maxVouches : Nat := 128

def maxRemovals : Nat := 96

def maxRecoveryTies : Nat := 4

def maxPhraseAdmits : Nat := 64

def maxLegacy : Nat := 64

def maxPending : Nat := 16

def maxConsents : Nat := 96

def maxUnnamedConsents : Nat := 8

/-- The first vouch of each standing device not in `best`, and the others, both in order. -/
def splitBest (stands : String → Bool) : List String → List Vouch → List Vouch × List Vouch
  | _, [] => ([], [])
  | best, v :: vs =>
    if stands v.device && v.device ∉ best then
      let split := splitBest stands (v.device :: best) vs
      (v :: split.1, split.2)
    else
      let split := splitBest stands best vs
      (split.1, v :: split.2)

/-- Standing devices by rank, then devices a statement names, then the others. -/
def consentClass (rank : String → WithBot Rank) (mentioned : Finset String) (c : Consent) :
    Lex (Nat × WithBot Rank) :=
  match rank c.device with
  | some rank => toLex (0, some rank)
  | none => if c.device ∈ mentioned then toLex (1, ⊥) else toLex (2, ⊥)

/-- All consents but those past the ceiling that nothing names, of which `unnamed` went before. -/
def retainNamed (named : Consent → Bool) : Nat → List Consent → List Consent
  | _, [] => []
  | unnamed, c :: cs =>
    if named c then c :: retainNamed named unnamed cs
    else if unnamed + 1 ≤ maxUnnamedConsents then c :: retainNamed named (unnamed + 1) cs
    else retainNamed named (unnamed + 1) cs

def keptConsents (rank : String → WithBot Rank) (mentioned : Finset String)
    (consents : List Consent) : List Consent :=
  let named := fun c => (ofLex (consentClass rank mentioned c)).1 < 2
  let ordered := sortBy (fun c => toLex (consentClass rank mentioned c, c)) consents
  sortBy id ((retainNamed named 0 ordered).take maxConsents)

namespace Roster

variable (w : Checks) (r : Roster)

def newest : Roster :=
  match (r.recoveries.map (·.atMs)).max? with
  | some at_ =>
    { r with recoveries := sortCap (r.recoveries.filter (·.atMs = at_)) maxRecoveryTies }
  | none => { r with recoveries := sortCap r.recoveries maxRecoveryTies }

def inBase : Roster :=
  match r.currentRecovery w with
  | some c =>
    { r with
      phraseAdmits := r.phraseAdmits.filter (c.at_ < ·.atMs)
      legacy := []
      vouches := r.vouches.filter (·.base = c.base)
      pendings := r.pendings.filter (·.base = c.base)
      removals := r.removals.filter (·.base = c.base) }
  | none =>
    { r with
      vouches := r.vouches.filter (·.base = legacyBase)
      pendings := r.pendings.filter (·.base = legacyBase)
      removals := r.removals.filter (·.base = legacyBase) }

/-- What compaction ranks: all kinds but vouches and removals sorted and within their ceilings, one
consent a device. -/
def settled : Roster :=
  let r := r.newest.inBase w
  { r with
    phraseAdmits := sortCap r.phraseAdmits maxPhraseAdmits
    legacy := sortCap r.legacy maxLegacy
    pendings := sortCap r.pendings maxPending
    consents := (sortBy id r.consents).destutter (·.device ≠ ·.device) }

def rank (device : String) : WithBot Rank := r.standing w device

def rankedVouches : List Vouch :=
  sortBy (fun v => toLex (r.rank w v.voucher, v))
    (sortSet (r.vouches.filter (r.stands w ·.voucher)))

def rankedRemovals : List Removal :=
  sortBy (fun rm => toLex (r.rank w rm.remover, rm))
    (sortSet (r.removals.filter (r.stands w ·.remover)))

def keptVouches : List Vouch :=
  let split := splitBest (r.stands w) [] (r.rankedVouches w)
  sortBy id ((split.1 ++ split.2).take maxVouches)

def keptRemovals : List Removal := sortBy id ((r.rankedRemovals w).take maxRemovals)

def mentioned : Finset String :=
  (r.recoveries.flatMap (·.keep) ++ r.phraseAdmits.map (·.device) ++ r.pendings.map (·.device) ++
    r.legacy.map (·.device) ++ r.vouches.map (·.device) ++ r.removals.map (·.device)).toFinset

def compacted : Roster :=
  let settled := r.settled w
  let kept :=
    { settled with vouches := settled.keptVouches w, removals := settled.keptRemovals w }
  { kept with consents := keptConsents (settled.rank w) kept.mentioned settled.consents }

/-- Whether every kind fits its ceiling, as any compacted roster does. -/
def withinCaps : Bool :=
  r.recoveries.length ≤ maxRecoveryTies && r.phraseAdmits.length ≤ maxPhraseAdmits &&
    r.consents.length ≤ maxConsents && r.vouches.length ≤ maxVouches &&
    r.pendings.length ≤ maxPending && r.legacy.length ≤ maxLegacy &&
    r.removals.length ≤ maxRemovals

end Roster

section Settled

variable {w : Checks} {r : Roster}

theorem newest_eq : r.newest = { r with recoveries := r.newest.recoveries } := by
  rw [Roster.newest]
  split <;> rfl

/-- What `newest` keeps of the recoveries is no older than any of them. -/
theorem Newest.of_mem_newest {rec : Recovery} (h : rec ∈ r.newest.recoveries) : r.Newest rec := by
  rw [Roster.newest] at h
  cases hmax : (r.recoveries.map (·.atMs)).max? with
  | none =>
    rw [List.max?_eq_none_iff, List.map_eq_nil_iff] at hmax
    simp [hmax, sortCap, sortSet, sortBy] at h
  | some at_ =>
    rw [hmax] at h
    have hrec := mem_sortSet.1 (List.mem_of_mem_take h)
    obtain ⟨hrec, hat⟩ := List.mem_filter.1 hrec
    refine ⟨hrec, fun rec' hrec' => ?_⟩
    rw [of_decide_eq_true hat]
    exact (List.max?_eq_some_iff.1 hmax).2 _ (List.mem_map_of_mem hrec')

@[simp] theorem inBase_recoveries : (r.inBase w).recoveries = r.recoveries := by
  rw [Roster.inBase]
  split <;> rfl

@[simp] theorem compacted_recoveries : (r.compacted w).recoveries = r.newest.recoveries :=
  inBase_recoveries

theorem newest_of_mem_newest {rec : Recovery} (h : rec ∈ r.newest.recoveries) :
    r.newest.Newest rec :=
  ⟨h, fun rec' hrec' => (Newest.of_mem_newest h).2 rec' (Newest.of_mem_newest hrec').1⟩

theorem compacted_newest {rec : Recovery} (h : rec ∈ (r.compacted w).recoveries) :
    (r.compacted w).Newest rec := by
  rw [Roster.Newest, compacted_recoveries] at *
  exact newest_of_mem_newest h

@[simp] theorem inBase_master : (r.inBase w).master = r.master := by
  rw [Roster.inBase]
  split <;> rfl

@[simp] theorem inBase_rPub : (r.inBase w).rPub = r.rPub := by
  rw [Roster.inBase]
  split <;> rfl

@[simp] theorem compacted_master : (r.compacted w).master = r.master := by
  change (r.newest.inBase w).master = _
  rw [inBase_master, newest_eq]

@[simp] theorem compacted_rPub : (r.compacted w).rPub = r.rPub := by
  change (r.newest.inBase w).rPub = _
  rw [inBase_rPub, newest_eq]

theorem sortCap_subset {α : Type} [LinearOrder α] {l : List α} {cap : Nat} : sortCap l cap ⊆ l :=
  fun _ h => mem_sortSet.1 (List.mem_of_mem_take h)

theorem splitBest_perm {stands : String → Bool} {best : List String} {vouches : List Vouch} :
    ((splitBest stands best vouches).1 ++ (splitBest stands best vouches).2).Perm vouches := by
  induction vouches generalizing best with
  | nil => simp [splitBest]
  | cons v vouches ih =>
    rw [splitBest]
    split_ifs
    · exact List.Perm.cons v ih
    · exact List.perm_middle.trans (ih.cons v)

theorem retainNamed_sublist {named : Consent → Bool} {unnamed : Nat} {consents : List Consent} :
    (retainNamed named unnamed consents).Sublist consents := by
  induction consents generalizing unnamed with
  | nil => simp [retainNamed]
  | cons c consents ih =>
    rw [retainNamed]
    split_ifs
    · exact ih.cons_cons c
    · exact ih.cons_cons c
    · exact ih.cons c

theorem settled_within : (r.settled w).Within r := by
  have hnewest : r.newest.recoveries ⊆ r.recoveries := fun rec h => (Newest.of_mem_newest h).1
  have hbase : (r.newest.inBase w).Within r := by
    rw [newest_eq, Roster.inBase]
    split
    · exact ⟨hnewest, List.filter_subset_self _, List.Subset.refl _, List.filter_subset_self _,
        List.filter_subset_self _, List.nil_subset _, List.filter_subset_self _⟩
    · exact ⟨hnewest, List.Subset.refl _, List.Subset.refl _, List.filter_subset_self _,
        List.filter_subset_self _, List.Subset.refl _, List.filter_subset_self _⟩
  exact {
    recoveries := hbase.recoveries
    phraseAdmits := fun _ h => hbase.phraseAdmits (sortCap_subset h)
    consents := fun _ h =>
      hbase.consents (mem_sortBy.1 ((List.destutter_sublist _ _).subset h))
    vouches := hbase.vouches
    pendings := fun _ h => hbase.pendings (sortCap_subset h)
    legacy := fun _ h => hbase.legacy (sortCap_subset h)
    removals := hbase.removals }

theorem keptVouches_subset : r.keptVouches w ⊆ r.vouches := fun v h => by
  have h := splitBest_perm.subset (List.mem_of_mem_take (mem_sortBy.1 h))
  exact (List.mem_filter.1 (mem_sortSet.1 (mem_sortBy.1 h))).1

theorem keptRemovals_subset : r.keptRemovals w ⊆ r.removals := fun rm h => by
  have h := mem_sortBy.1 (List.mem_of_mem_take (mem_sortBy.1 h))
  exact (List.mem_filter.1 (mem_sortSet.1 h)).1

/-- Compaction invents nothing: each statement it keeps was there. -/
theorem compacted_within : (r.compacted w).Within r := {
  recoveries := settled_within.recoveries
  phraseAdmits := settled_within.phraseAdmits
  consents := fun _ h => settled_within.consents (mem_sortBy.1
    (retainNamed_sublist.subset (List.mem_of_mem_take (mem_sortBy.1 h))))
  vouches := fun _ h => settled_within.vouches (keptVouches_subset h)
  pendings := settled_within.pendings
  legacy := settled_within.legacy
  removals := fun _ h => settled_within.removals (keptRemovals_subset h) }

end Settled

end Hollow.Identity
