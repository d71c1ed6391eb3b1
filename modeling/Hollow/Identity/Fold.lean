import Hollow.Identity.Merge

/-! The fold: who belongs to an identity now, for one observer. -/

namespace Hollow.Identity

def pendingMaturityMs : Int := 7 * 24 * 60 * 60 * 1000

/-- What a roster says at one moment, for one observer. -/
structure RosterState where
  base : String
  protected_ : Bool
  noWait : Bool
  members : Finset String
  /-- Removed device to the device that removed it. -/
  removed : String → Option String
  pending : Finset String

/-- What one fold works from: the current base, its roots and matured joins, the vouches and joins
it reads, and who may sign a removal. -/
structure Scope where
  base : String
  noWait : Bool
  roots : Finset String
  matured : Finset String
  vouches : List Vouch
  pendings : List Pending
  rooted : Finset String

/-- `seed` and every device a member of the result vouched for, removals ignored. -/
def vouchClosure (vouches : List Vouch) (seed : Finset String) : Finset String :=
  Reach.closure Vouch.voucher Vouch.device vouches seed

/-- A pending join nobody answered counts after this long. -/
def hasMatured (firstSeen : String → Option Int) (now : Int) (device : String) : Bool :=
  (firstSeen device).any fun seen => saturatingAdd seen pendingMaturityMs ≤ now

def noteRemoved (removed : String → Option String) (rm : Removal) : String → Option String :=
  if (removed rm.device).isSome then removed
  else Function.update removed rm.device (some rm.remover)

def removedBy (removals : List Removal) : String → Option String :=
  removals.foldl noteRemoved fun _ => none

/-- The vouchees every removal of a device keeps. -/
def noteKept (kept : String → Option (Finset String)) (rm : Removal) :
    String → Option (Finset String) :=
  Function.update kept rm.device <| match kept rm.device with
    | some keep => some (keep ∩ rm.keepVouched.toFinset)
    | none => some rm.keepVouched.toFinset

def keptBy (removals : List Removal) : String → Option (Finset String) :=
  removals.foldl noteKept fun _ => none

/-- A removed voucher's vouches count only where its removers kept them. -/
def voucherOk (removals : List Removal) (v : Vouch) : Bool :=
  (removedBy removals v.voucher).isNone || (keptBy removals v.voucher).any (v.device ∈ ·)

namespace Roster

variable (w : Checks) (r : Roster)

def scopeVouches : List Vouch :=
  r.vouches.filter fun v => v.base = r.base w ∧ v.device ∈ r.consented

def scopePendings : List Pending :=
  r.pendings.filter fun p => p.base = r.base w ∧ p.device ∈ r.consented

/-- The devices that belong without anyone waiting, removals ignored. -/
def founded : Finset String := vouchClosure (r.scopeVouches w) (r.seeds w)

/-- The devices one of them removed. -/
def refused : Finset String :=
  ((r.removals.filter fun rm => rm.base = r.base w ∧ rm.remover ∈ r.founded w).map
    (·.device)).toFinset

def noWait : Bool := (r.currentRecovery w).any (·.noWait)

section Observer

variable (firstSeen : String → Option Int) (now : Int)

def matured : Finset String :=
  (((r.scopePendings w).filter fun p => !r.noWait w && p.device ∉ r.refused w &&
    hasMatured firstSeen now p.device).map (·.device)).toFinset

def scope : Scope where
  base := r.base w
  noWait := r.noWait w
  roots := r.seeds w
  matured := r.matured w firstSeen now
  vouches := r.scopeVouches w
  pendings := r.scopePendings w
  rooted := vouchClosure (r.scopeVouches w) (r.seeds w ∪ r.matured w firstSeen now)

end Observer

/-- The removals that count: in the base, signed by a rooted device, of a rooted device or one
asking to join. -/
def countingRemovalsIn (scope : Scope) : List Removal :=
  let asked := (scope.pendings.map (·.device)).toFinset
  r.removals.filter fun rm => rm.base = scope.base ∧ rm.remover ∈ scope.rooted ∧
    (rm.device ∈ scope.rooted ∨ rm.device ∈ asked)

variable (firstSeen : String → Option Int) (now : Int)

def countingRemovals : List Removal := r.countingRemovalsIn (r.scope w firstSeen now)

def fold : RosterState :=
  let scope := r.scope w firstSeen now
  let asked := (scope.pendings.map (·.device)).toFinset
  let removals := r.countingRemovalsIn scope
  let removed := removedBy removals
  let valid := vouchClosure (scope.vouches.filter (voucherOk removals))
    (scope.roots ∪ scope.matured)
  { base := scope.base
    protected_ := (r.currentRecovery w).isSome
    noWait := scope.noWait
    members := valid.filter fun device => (removed device).isNone
    removed
    pending := asked.filter fun device => device ∉ valid ∧ (removed device).isNone }

end Roster

section Removed

variable {removals : List Removal} {device : String}

theorem isSome_noteRemoved {removed : String → Option String} {rm : Removal} :
    (noteRemoved removed rm device).isSome ↔ (removed device).isSome ∨ rm.device = device := by
  rw [noteRemoved]
  by_cases hdevice : rm.device = device
  · subst hdevice
    split_ifs with hremoved
    · simp [hremoved]
    · simp
  · split_ifs
    · simp [hdevice]
    · rw [Function.update_of_ne (Ne.symm hdevice)]
      simp [hdevice]

theorem isSome_foldl_noteRemoved {removed : String → Option String} :
    (removals.foldl noteRemoved removed device).isSome ↔
      (removed device).isSome ∨ ∃ rm ∈ removals, rm.device = device := by
  induction removals generalizing removed with
  | nil => simp
  | cons rm removals ih =>
    rw [List.foldl_cons, ih, isSome_noteRemoved]
    simp [or_assoc]

theorem isSome_removedBy : (removedBy removals device).isSome ↔
    ∃ rm ∈ removals, rm.device = device := by
  rw [removedBy, isSome_foldl_noteRemoved]
  simp

theorem isNone_removedBy : (removedBy removals device).isNone ↔
    ∀ rm ∈ removals, rm.device ≠ device := by
  have hsome : (removedBy removals device).isSome ↔ ∃ rm ∈ removals, rm.device = device :=
    isSome_removedBy
  cases hremoved : removedBy removals device with
  | none => simpa [hremoved] using hsome
  | some remover => simpa [hremoved] using hsome

theorem any_foldl_noteKept {kept : String → Option (Finset String)} {other : String} :
    (removals.foldl noteKept kept device).any (other ∈ ·) ↔
      ((kept device).any (other ∈ ·) ∨ kept device = none ∧ ∃ rm ∈ removals, rm.device = device) ∧
        ∀ rm ∈ removals, rm.device = device → other ∈ rm.keepVouched := by
  induction removals generalizing kept with
  | nil => simp
  | cons rm removals ih =>
    rw [List.foldl_cons, ih, noteKept]
    by_cases hdevice : rm.device = device
    · subst hdevice
      cases hkept : kept rm.device with
      | some keep => simp [and_assoc]
      | none => simp
    · rw [Function.update_of_ne (Ne.symm hdevice)]
      simp [hdevice]

theorem voucherOk_iff {v : Vouch} : voucherOk removals v ↔
    ∀ rm ∈ removals, rm.device = v.voucher → v.device ∈ rm.keepVouched := by
  rw [voucherOk, Bool.or_eq_true, isNone_removedBy, keptBy, any_foldl_noteKept]
  constructor
  · rintro (hnone | ⟨-, hkeep⟩)
    · exact fun rm hrm hdevice => absurd hdevice (hnone rm hrm)
    · exact hkeep
  · intro hkeep
    by_cases hsome : ∃ rm ∈ removals, rm.device = v.voucher
    · exact .inr ⟨.inr ⟨rfl, hsome⟩, hkeep⟩
    · exact .inl fun rm hrm hdevice => hsome ⟨rm, hrm, hdevice⟩

end Removed

section Members

variable {w : Checks} {r : Roster} {firstSeen : String → Option Int} {now : Int} {device : String}

theorem mem_seeds : device ∈ r.seeds w ↔ device ∈ r.baseRoots w ∧ device ∈ r.consented := by
  rw [Roster.seeds, Finset.mem_filter]

theorem mem_consented : device ∈ r.consented ↔ ∃ c ∈ r.consents, c.device = device := by
  simp [Roster.consented]

theorem mem_scopeVouches {v : Vouch} : v ∈ r.scopeVouches w ↔
    v ∈ r.vouches ∧ v.base = r.base w ∧ v.device ∈ r.consented := by
  simp [Roster.scopeVouches]

theorem mem_scopePendings {p : Pending} : p ∈ r.scopePendings w ↔
    p ∈ r.pendings ∧ p.base = r.base w ∧ p.device ∈ r.consented := by
  simp [Roster.scopePendings]

theorem mem_founded : device ∈ r.founded w ↔
    Reach.Reaches Vouch.voucher Vouch.device (r.scopeVouches w) (r.seeds w) device := by
  rw [Roster.founded, vouchClosure, Reach.mem_closure]

theorem mem_refused : device ∈ r.refused w ↔
    ∃ rm ∈ r.removals, rm.base = r.base w ∧ rm.remover ∈ r.founded w ∧ rm.device = device := by
  simp [Roster.refused, and_assoc]

/-- A pending device matures by waiting, unless it was refused or waiting is switched off. -/
theorem mem_matured : device ∈ r.matured w firstSeen now ↔
    (∃ p ∈ r.scopePendings w, p.device = device) ∧ r.noWait w = false ∧ device ∉ r.refused w ∧
      hasMatured firstSeen now device := by
  simp only [Roster.matured, List.mem_toFinset, List.mem_map, List.mem_filter, Bool.and_eq_true,
    Bool.not_eq_true', decide_eq_true_eq]
  constructor
  · rintro ⟨p, ⟨hp, ⟨hwait, hrefused⟩, hmatured⟩, rfl⟩
    exact ⟨⟨p, hp, rfl⟩, hwait, hrefused, hmatured⟩
  · rintro ⟨⟨p, hp, rfl⟩, hwait, hrefused, hmatured⟩
    exact ⟨p, ⟨hp, ⟨hwait, hrefused⟩, hmatured⟩, rfl⟩

theorem mem_rooted_scope : device ∈ (r.scope w firstSeen now).rooted ↔
    Reach.Reaches Vouch.voucher Vouch.device (r.scopeVouches w)
      (r.seeds w ∪ r.matured w firstSeen now) device := by
  rw [Roster.scope, vouchClosure, Reach.mem_closure]

theorem mem_countingRemovals {rm : Removal} : rm ∈ r.countingRemovals w firstSeen now ↔
    rm ∈ r.removals ∧ rm.base = r.base w ∧ rm.remover ∈ (r.scope w firstSeen now).rooted ∧
      (rm.device ∈ (r.scope w firstSeen now).rooted ∨
        ∃ p ∈ r.scopePendings w, p.device = rm.device) := by
  simp [Roster.countingRemovals, Roster.countingRemovalsIn, Roster.scope]

/-- The members are those reached from the roots through vouches that still count, less
the removed. -/
theorem mem_members : device ∈ (r.fold w firstSeen now).members ↔
    Reach.Reaches Vouch.voucher Vouch.device
      ((r.scopeVouches w).filter (voucherOk (r.countingRemovals w firstSeen now)))
      (r.seeds w ∪ r.matured w firstSeen now) device ∧
    ∀ rm ∈ r.countingRemovals w firstSeen now, rm.device ≠ device := by
  rw [Roster.fold, Finset.mem_filter, vouchClosure, Reach.mem_closure, isNone_removedBy]
  rfl

theorem mem_rooted_of_mem_members (h : device ∈ (r.fold w firstSeen now).members) :
    device ∈ (r.scope w firstSeen now).rooted :=
  mem_rooted_scope.2 ((mem_members.1 h).1.mono (List.filter_subset_self _) (Finset.Subset.refl _))

theorem mem_rooted_of_mem_founded (h : device ∈ r.founded w) :
    device ∈ (r.scope w firstSeen now).rooted :=
  mem_rooted_scope.2 ((mem_founded.1 h).mono (List.Subset.refl _) Finset.subset_union_left)

end Members

end Hollow.Identity
