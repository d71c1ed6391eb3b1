import Hollow.Lib.Reach
import Hollow.Identity.Statements

/-! Rosters, the base they are in, and which devices stand in it: every device with an admission
path, removals ignored and every pending join counted. A device is ranked by its tier (grown from
the roots or from pending joins), its distance in vouches, and its id. -/

namespace Hollow.Identity

@[ext] structure Roster where
  master : String := ""
  rPub : String := ""
  recoveries : List Recovery := []
  phraseAdmits : List PhraseAdmit := []
  consents : List Consent := []
  vouches : List Vouch := []
  pendings : List Pending := []
  legacy : List LegacyClaim := []
  removals : List Removal := []
deriving DecidableEq

@[ext] structure Current where
  base : String
  at_ : Int
  keep : Finset String
  noWait : Bool
deriving DecidableEq

/-- A standing device's place: tier, depth, then its id. -/
abbrev Rank : Type := Lex (Nat × Lex (Nat × String))

variable (w : Checks) (r : Roster)

/-- The id device statements use to name a recovery's base. -/
def baseId (master rPub : String) (rec : Recovery) : String :=
  w.digest (recoveryPayload master rPub rec.atMs rec.keep rec.noWait)

namespace Roster

/-- The newest recovery: its base id, the lowest of a tie, and what the tie keeps. -/
def currentRecovery : Option Current :=
  match (r.recoveries.map (·.atMs)).max? with
  | none => none
  | some at_ =>
    let ties := r.recoveries.filter (·.atMs = at_)
    match (ties.map (baseId w r.master r.rPub)).min? with
    | none => none
    | some base =>
      some { base, at_, keep := (ties.flatMap (·.keep)).toFinset, noWait := ties.any (·.noWait) }

def base : String := ((r.currentRecovery w).map (·.base)).getD legacyBase

/-- The devices the phrase (or, in a legacy base, the master) roots in the base, consent not yet
checked. -/
def baseRoots : Finset String :=
  match r.currentRecovery w with
  | some c => c.keep ∪ ((r.phraseAdmits.filter (c.at_ < ·.atMs)).map (·.device)).toFinset
  | none => (r.legacy.map (·.device)).toFinset ∪ (r.phraseAdmits.map (·.device)).toFinset

def consented : Finset String := (r.consents.map (·.device)).toFinset

def admitting : List Vouch := r.vouches.filter (·.device ∈ r.consented)

def seeds : Finset String := (r.baseRoots w).filter (· ∈ r.consented)

def joining : Finset String := (r.pendings.map (·.device)).toFinset.filter (· ∈ r.consented)

/-- The levels of the search from the roots, and of the one from pending joins over what it left. -/
def rankedLevels : List (Finset String) × List (Finset String) :=
  let rooted := Reach.search Vouch.voucher Vouch.device r.admitting ∅ (r.seeds w)
  (rooted, Reach.search Vouch.voucher Vouch.device r.admitting (rooted.foldr (· ∪ ·) ∅) r.joining)

def standing (device : String) : Option Rank :=
  let levels := r.rankedLevels w
  match Reach.levelOf levels.1 device with
  | some depth => some (toLex (0, toLex (depth, device)))
  | none => (Reach.levelOf levels.2 device).map fun depth => toLex (1, toLex (depth, device))

def stands (device : String) : Bool := (r.standing w device).isSome

end Roster

section Current

variable {w r} {r' : Roster} {c : Current}

def Roster.Newest (r : Roster) (rec : Recovery) : Prop :=
  rec ∈ r.recoveries ∧ ∀ rec' ∈ r.recoveries, rec'.atMs ≤ rec.atMs

/-- What the newest recoveries of a roster say. -/
structure Roster.IsCurrent (w : Checks) (r : Roster) (c : Current) : Prop where
  at_eq : ∀ rec, r.Newest rec → rec.atMs = c.at_
  base_mem : ∃ rec, r.Newest rec ∧ baseId w r.master r.rPub rec = c.base
  base_le : ∀ rec, r.Newest rec → c.base ≤ baseId w r.master r.rPub rec
  keep_iff : ∀ device, device ∈ c.keep ↔ ∃ rec, r.Newest rec ∧ device ∈ rec.keep
  noWait_iff : c.noWait ↔ ∃ rec, r.Newest rec ∧ rec.noWait

theorem Roster.IsCurrent.unique {c' : Current} (h : r.IsCurrent w c) (h' : r.IsCurrent w c') :
    c = c' := by
  obtain ⟨rec, hnew, hbase⟩ := h.base_mem
  obtain ⟨rec', hnew', hbase'⟩ := h'.base_mem
  refine Current.ext (le_antisymm ?_ ?_) ((h.at_eq _ hnew).symm.trans (h'.at_eq _ hnew))
    (Finset.ext fun d => (h.keep_iff d).trans (h'.keep_iff d).symm)
    (Bool.eq_iff_iff.2 (h.noWait_iff.trans h'.noWait_iff.symm))
  · exact hbase' ▸ h.base_le _ hnew'
  · exact hbase ▸ h'.base_le _ hnew

theorem currentRecovery_eq_none : r.currentRecovery w = none ↔ r.recoveries = [] := by
  rw [Roster.currentRecovery]
  cases hmax : (r.recoveries.map (·.atMs)).max? with
  | none => simpa using hmax
  | some at_ =>
    have hmem := List.mem_map.1 (List.max?_mem hmax)
    obtain ⟨rec, hrec, hat⟩ := hmem
    have hne : r.recoveries ≠ [] := List.ne_nil_of_mem hrec
    simp only [hne, iff_false]
    cases hmin : ((r.recoveries.filter (·.atMs = at_)).map (baseId w r.master r.rPub)).min? with
    | none =>
      rw [List.min?_eq_none_iff, List.map_eq_nil_iff, List.filter_eq_nil_iff] at hmin
      exact absurd (by simpa using hat) (hmin rec hrec)
    | some base => simp

/-- The current recovery gathers what all the newest recoveries say. -/
theorem isCurrent_of_currentRecovery (h : r.currentRecovery w = some c) : r.IsCurrent w c := by
  rw [Roster.currentRecovery] at h
  cases hmax : (r.recoveries.map (·.atMs)).max? with
  | none => simp [hmax] at h
  | some at_ =>
    obtain ⟨hat, hle⟩ := List.max?_eq_some_iff.1 hmax
    obtain ⟨newest, hnewest, rfl⟩ := List.mem_map.1 hat
    have hties : ∀ rec, rec ∈ r.recoveries.filter (·.atMs = newest.atMs) ↔ r.Newest rec := by
      intro rec
      rw [List.mem_filter, decide_eq_true_eq]
      refine and_congr_right fun hrec => ⟨fun hat rec' hrec' => ?_, fun hnew => ?_⟩
      · exact hat ▸ hle _ (List.mem_map_of_mem hrec')
      · exact le_antisymm (hle _ (List.mem_map_of_mem hrec)) (hnew _ hnewest)
    cases hmin : ((r.recoveries.filter (·.atMs = newest.atMs)).map
        (baseId w r.master r.rPub)).min? with
    | none => simp [hmax, hmin] at h
    | some base =>
      simp only [hmax, hmin, Option.some.injEq] at h
      subst h
      obtain ⟨hbase, hbase_le⟩ := List.min?_eq_some_iff.1 hmin
      obtain ⟨rec, hrec, hbase⟩ := List.mem_map.1 hbase
      exact {
        at_eq := fun rec hnew => by simpa using (List.mem_filter.1 ((hties rec).2 hnew)).2
        base_mem := ⟨rec, (hties rec).1 hrec, hbase⟩
        base_le := fun rec hnew => hbase_le _ (List.mem_map_of_mem ((hties rec).2 hnew))
        keep_iff := fun device => by simp [← hties]
        noWait_iff := by simp [← hties, and_assoc] }

theorem currentRecovery_eq_some : r.currentRecovery w = some c ↔ r.IsCurrent w c := by
  refine ⟨isCurrent_of_currentRecovery, fun h => ?_⟩
  obtain ⟨rec, hnew, -⟩ := h.base_mem
  cases hcurrent : r.currentRecovery w with
  | none =>
    rw [currentRecovery_eq_none] at hcurrent
    exact absurd (hcurrent ▸ hnew.1) List.not_mem_nil
  | some c' => rw [(isCurrent_of_currentRecovery hcurrent).unique h]

theorem currentRecovery_congr (hmaster : r.master = r'.master) (hrPub : r.rPub = r'.rPub)
    (h : ∀ rec, r.Newest rec ↔ r'.Newest rec) : r.currentRecovery w = r'.currentRecovery w := by
  cases hcurrent : r'.currentRecovery w with
  | none =>
    rw [currentRecovery_eq_none] at hcurrent ⊢
    by_contra hne
    obtain ⟨c, hc⟩ := Option.ne_none_iff_exists'.1 (currentRecovery_eq_none (w := w).not.2 hne)
    obtain ⟨rec, hnew, -⟩ := (currentRecovery_eq_some.1 hc).base_mem
    exact absurd (hcurrent ▸ ((h rec).1 hnew).1) List.not_mem_nil
  | some c =>
    have hc := currentRecovery_eq_some.1 hcurrent
    exact currentRecovery_eq_some.2 {
      at_eq := fun rec hnew => hc.at_eq rec ((h rec).1 hnew)
      base_mem := by simpa only [h, hmaster, hrPub] using hc.base_mem
      base_le := by simpa only [h, hmaster, hrPub] using hc.base_le
      keep_iff := by simpa only [h] using hc.keep_iff
      noWait_iff := by simpa only [h] using hc.noWait_iff }

theorem base_congr (h : r.currentRecovery w = r'.currentRecovery w) : r.base w = r'.base w := by
  rw [Roster.base, Roster.base, h]

theorem baseId_ne_legacy {master rPub : String} {rec : Recovery} :
    baseId w master rPub rec ≠ legacyBase := by
  intro h
  have hlength := congrArg String.length h
  rw [baseId, w.digest_length] at hlength
  exact absurd hlength (by decide)

theorem base_eq_legacy : r.base w = legacyBase ↔ r.recoveries = [] := by
  rw [← currentRecovery_eq_none (w := w), Roster.base]
  cases hcurrent : r.currentRecovery w with
  | none => simp
  | some c =>
    obtain ⟨rec, -, hbase⟩ := (currentRecovery_eq_some.1 hcurrent).base_mem
    simpa [← hbase] using baseId_ne_legacy

theorem exists_currentRecovery (h : r.recoveries ≠ []) : ∃ c, r.currentRecovery w = some c :=
  Option.ne_none_iff_exists'.1 (currentRecovery_eq_none.not.2 h)

theorem mem_baseRoots_of_current {device : String} (h : r.currentRecovery w = some c) :
    device ∈ r.baseRoots w ↔ (∃ rec, r.Newest rec ∧ device ∈ rec.keep) ∨
      ∃ p ∈ r.phraseAdmits, c.at_ < p.atMs ∧ p.device = device := by
  rw [Roster.baseRoots, h, ← (currentRecovery_eq_some.1 h).keep_iff]
  simp [and_assoc]

theorem mem_baseRoots_of_legacy {device : String} (h : r.recoveries = []) :
    device ∈ r.baseRoots w ↔
      (∃ l ∈ r.legacy, l.device = device) ∨ ∃ p ∈ r.phraseAdmits, p.device = device := by
  rw [Roster.baseRoots, currentRecovery_eq_none.2 h]
  simp

structure Roster.Within (r r' : Roster) : Prop where
  recoveries : r.recoveries ⊆ r'.recoveries
  phraseAdmits : r.phraseAdmits ⊆ r'.phraseAdmits
  consents : r.consents ⊆ r'.consents
  vouches : r.vouches ⊆ r'.vouches
  pendings : r.pendings ⊆ r'.pendings
  legacy : r.legacy ⊆ r'.legacy
  removals : r.removals ⊆ r'.removals

theorem Roster.Within.consented (h : r.Within r') : r.consented ⊆ r'.consented := by
  intro device
  simp only [Roster.consented, List.mem_toFinset, List.mem_map]
  exact fun ⟨c, hc, hdevice⟩ => ⟨c, h.consents hc, hdevice⟩

theorem Roster.Within.baseRoots (h : r.Within r') (hnewest : ∀ rec, r.Newest rec → r'.Newest rec)
    (hlegacy : r.recoveries = [] → r'.recoveries = []) : r.baseRoots w ⊆ r'.baseRoots w := by
  intro device hdevice
  by_cases hnone : r.recoveries = []
  · rw [mem_baseRoots_of_legacy (hlegacy hnone)]
    rcases (mem_baseRoots_of_legacy hnone).1 hdevice with ⟨l, hl, hl'⟩ | ⟨p, hp, hp'⟩
    · exact .inl ⟨l, h.legacy hl, hl'⟩
    · exact .inr ⟨p, h.phraseAdmits hp, hp'⟩
  · obtain ⟨c, hc⟩ := exists_currentRecovery (w := w) hnone
    obtain ⟨rec, hnew, -⟩ := (currentRecovery_eq_some.1 hc).base_mem
    obtain ⟨c', hc'⟩ := exists_currentRecovery (w := w)
      (List.ne_nil_of_mem (h.recoveries hnew.1))
    have hat : c.at_ = c'.at_ := ((currentRecovery_eq_some.1 hc).at_eq rec hnew).symm.trans
      ((currentRecovery_eq_some.1 hc').at_eq rec (hnewest rec hnew))
    rw [mem_baseRoots_of_current hc']
    rcases (mem_baseRoots_of_current hc).1 hdevice with ⟨rec, hrec, hkeep⟩ | ⟨p, hp, hlt, hp'⟩
    · exact .inl ⟨rec, hnewest rec hrec, hkeep⟩
    · exact .inr ⟨p, h.phraseAdmits hp, hat ▸ hlt, hp'⟩

end Current

section Rank

variable {w r} {device : String} {depth : Nat}

abbrev Roster.Founded (w : Checks) (r : Roster) (device : String) : Prop :=
  Reach.Reaches Vouch.voucher Vouch.device r.admitting (r.seeds w) device

abbrev Roster.Joins (r : Roster) (device : String) : Prop :=
  Reach.Reaches Vouch.voucher Vouch.device r.admitting r.joining device

theorem mem_foldr_union {levels : List (Finset String)} :
    device ∈ levels.foldr (· ∪ ·) ∅ ↔ ∃ level ∈ levels, device ∈ level := by
  induction levels with
  | nil => simp
  | cons level levels ih => simp [ih]

theorem levelOf_rooted : Reach.levelOf (r.rankedLevels w).1 device = some depth ↔
    Reach.Depth Vouch.voucher Vouch.device r.admitting (r.seeds w) device depth := by
  rw [Roster.rankedLevels, Reach.levelOf_search (by simp)]
  simp

theorem mem_rooted : device ∈ (r.rankedLevels w).1.foldr (· ∪ ·) ∅ ↔ r.Founded w device := by
  rw [mem_foldr_union]
  constructor
  · rintro ⟨level, hlevel, hmem⟩
    obtain ⟨n, hn⟩ : ∃ n, Reach.levelOf (r.rankedLevels w).1 device = some n := by
      rw [← Option.isSome_iff_exists, Reach.levelOf, List.findIdx?_isSome, List.any_eq_true]
      exact ⟨level, hlevel, by simpa using hmem⟩
    exact ⟨n, (levelOf_rooted.1 hn).walk⟩
  · intro h
    obtain ⟨n, hn⟩ := Reach.exists_depth h
    have hlevel := levelOf_rooted.2 hn
    rw [Reach.levelOf, List.findIdx?_eq_some_iff_getElem] at hlevel
    obtain ⟨hlt, hmem, -⟩ := hlevel
    exact ⟨_, List.getElem_mem hlt, by simpa using hmem⟩

theorem levelOf_joining : Reach.levelOf (r.rankedLevels w).2 device = some depth ↔
    ¬ r.Founded w device ∧
      Reach.Depth Vouch.voucher Vouch.device r.admitting r.joining device depth := by
  have hclosed : ∀ v ∈ r.admitting, v.voucher ∈ (r.rankedLevels w).1.foldr (· ∪ ·) ∅ →
      v.device ∈ (r.rankedLevels w).1.foldr (· ∪ ·) ∅ := fun v hv hmem =>
    mem_rooted.2 ((mem_rooted.1 hmem).step hv)
  rw [← mem_rooted]
  exact Reach.levelOf_search hclosed

/-- A device's rank is its tier, its depth in the tree of vouches and its id. -/
theorem standing_eq_some {rank : Rank} : r.standing w device = some rank ↔
    (∃ depth, rank = toLex (0, toLex (depth, device)) ∧
      Reach.Depth Vouch.voucher Vouch.device r.admitting (r.seeds w) device depth) ∨
    (∃ depth, rank = toLex (1, toLex (depth, device)) ∧ ¬ r.Founded w device ∧
      Reach.Depth Vouch.voucher Vouch.device r.admitting r.joining device depth) := by
  rw [Roster.standing]
  cases hrooted : Reach.levelOf (r.rankedLevels w).1 device with
  | some depth =>
    have hdepth := levelOf_rooted.1 hrooted
    simp only [Option.some.injEq]
    constructor
    · rintro rfl
      exact .inl ⟨depth, rfl, hdepth⟩
    · rintro (⟨depth', rfl, hdepth'⟩ | ⟨-, -, hnot, -⟩)
      · rw [hdepth.unique hdepth']
      · exact absurd ⟨depth, hdepth.walk⟩ hnot
  | none =>
    have hnot : ¬ r.Founded w device := fun h => by
      obtain ⟨depth, hdepth⟩ := Reach.exists_depth h
      rw [levelOf_rooted.2 hdepth] at hrooted
      cases hrooted
    simp only [Option.map_eq_some_iff]
    constructor
    · rintro ⟨depth, hjoining, rfl⟩
      exact .inr ⟨depth, rfl, levelOf_joining.1 hjoining⟩
    · rintro (⟨depth, -, hdepth⟩ | ⟨depth, rfl, -, hdepth⟩)
      · exact absurd ⟨depth, hdepth.walk⟩ hnot
      · exact ⟨depth, levelOf_joining.2 ⟨hnot, hdepth⟩, rfl⟩

theorem stands_iff : r.stands w device ↔ r.Founded w device ∨ r.Joins device := by
  rw [Roster.stands, Option.isSome_iff_exists]
  constructor
  · rintro ⟨rank, hrank⟩
    rcases standing_eq_some.1 hrank with ⟨depth, -, hdepth⟩ | ⟨depth, -, -, hdepth⟩
    · exact .inl ⟨depth, hdepth.walk⟩
    · exact .inr ⟨depth, hdepth.walk⟩
  · intro h
    by_cases hfounded : r.Founded w device
    · obtain ⟨depth, hdepth⟩ := Reach.exists_depth hfounded
      exact ⟨_, standing_eq_some.2 (.inl ⟨depth, rfl, hdepth⟩)⟩
    · obtain ⟨depth, hdepth⟩ := Reach.exists_depth (h.resolve_left hfounded)
      exact ⟨_, standing_eq_some.2 (.inr ⟨depth, rfl, hfounded, hdepth⟩)⟩

end Rank

end Hollow.Identity
