import Mathlib
import Hollow.Identity.FloodRanks
import Hollow.Lib.Delimited
import Hollow.Lib.Dict
import Hollow.Relay.RosterAgrees

/-! The roster the relay holds for one master (`roster_book.h`). Every roster shown on a join is
folded into it, and the relay notes when it first saw each pending join. Over any run of shows the
first recovery key stays, the current recovery never gets older, and nobody belongs by a pending
join that was not held, in the current base, for `pendingMaturityMs`. -/

namespace Hollow.Relay.RosterBook

open Hollow.Identity
open Hollow.Relay.Rosters (mergedByFirstSight verified)

structure Held where
  roster : Roster
  /-- When each pending join was first seen, by `seenKey`. -/
  seenMs : Dict String Int := ∅

def seenKey (base device : String) : String := base ++ "|" ++ device

def Held.fold (w : Checks) (h : Held) (now : Int) : RosterState :=
  Rosters.fold w h.roster (fun d => h.seenMs.lookup (seenKey (Rosters.base w h.roster) d)) now

/-- The first sight of each pending join; a device that stopped asking is forgotten. -/
def firstSights (pendings : List Pending) (before : Dict String Int) (now : Int) :
    Dict String Int :=
  (∅ : Dict String Int).extend
    ((pendings.map fun p => seenKey p.base p.device).map fun key =>
      (key, (before.lookup key).getD now))

structure Showing where
  shown : Roster
  device : String
  now : Int

structure Shown where
  member : Bool := false
  /-- The held roster changed. -/
  changed : Bool := false
  state : Option RosterState := none

section Show

variable (w : Checks) (master : String)

def heldOrNamed (record : Option Held) : Held := record.getD { roster := { master } }

def accepted (record : Option Held) (s : Showing) : Roster :=
  verified w s.shown s.now (record.map (·.roster))

def folded (record : Option Held) (s : Showing) : Held :=
  let held := heldOrNamed master record
  let merged := mergedByFirstSight w held.roster (accepted w record s)
    fun base d => held.seenMs.lookup (seenKey base d)
  { roster := merged, seenMs := firstSights merged.pendings held.seenMs s.now }

/-- `show`: what it reports and the record it leaves. A roster for another master, or one past any
ceiling, changes nothing and counts nobody. -/
def showRoster (record : Option Held) (s : Showing) : Shown × Option Held :=
  if s.shown.master ≠ master ∨ ¬ s.shown.withinCaps then ({}, record)
  else
    let before := heldOrNamed master record
    let held := folded w master record s
    let state := held.fold w s.now
    ({ member := s.device ∈ state.members
       changed := held.roster ≠ before.roster ∨ ¬ held.seenMs.entries.Perm before.seenMs.entries
       state := some state }, some held)

def run (shows : List Showing) : Option Held :=
  shows.foldl (fun record s => (showRoster w master record s).2) none

end Show

section Run

variable {w : Checks} {master : String}

theorem showRoster_of_fits {record : Option Held} {s : Showing} (hmaster : s.shown.master = master)
    (hcaps : s.shown.withinCaps) :
    (showRoster w master record s).2 = some (folded w master record s) := by
  rw [showRoster, if_neg (not_or.mpr ⟨not_not.mpr hmaster, not_not.mpr hcaps⟩)]

theorem showRoster_cases (record : Option Held) (s : Showing) :
    (showRoster w master record s).2 = record ∨
    s.shown.master = master ∧
      (showRoster w master record s).2 = some (folded w master record s) := by
  by_cases hfits : s.shown.master = master ∧ s.shown.withinCaps
  · exact .inr ⟨hfits.1, showRoster_of_fits hfits.1 hfits.2⟩
  · rw [showRoster, if_pos (not_and_or.mp hfits)]
    exact .inl rfl

@[simp] theorem run_concat {shows : List Showing} {s : Showing} :
    run w master (shows ++ [s]) = (showRoster w master (run w master shows) s).2 := by
  simp [run]

theorem run_append_induct {P : Option Held → Prop} {shows later : List Showing}
    (hstep : ∀ record s, P record → P (showRoster w master record s).2)
    (hstart : P (run w master shows)) : P (run w master (shows ++ later)) := by
  induction later using List.reverseRecOn with
  | nil => rwa [List.append_nil]
  | append_singleton later s ih =>
    rw [← List.append_assoc, run_concat]
    exact hstep _ _ ih

end Run

theorem isBaseShape_no_bar {base : String} (h : isBaseShape base) : '|' ∉ base.toList := by
  simp only [isBaseShape, Bool.or_eq_true, Bool.and_eq_true, decide_eq_true_eq,
    List.all_eq_true] at h
  rcases h with rfl | ⟨-, hhex⟩
  · decide
  · intro hbar
    exact absurd (hhex '|' hbar) (by decide)

theorem seenKey_inj {base base' device device' : String} (hshape : isBaseShape base)
    (hshape' : isBaseShape base') (h : seenKey base device = seenKey base' device') :
    base = base' ∧ device = device' := by
  have hlists := congrArg String.toList h
  have hbar : "|".toList = ['|'] := by decide
  simp only [seenKey, String.toList_append, List.append_assoc, hbar, List.singleton_append]
    at hlists
  obtain ⟨hbase, hdevice⟩ :=
    Delimited.field_inj (isBaseShape_no_bar hshape) (isBaseShape_no_bar hshape') hlists
  exact ⟨String.toList_injective hbase, String.toList_injective hdevice⟩

theorem lookup_firstSights {pendings : List Pending} (before : Dict String Int) (now : Int)
    {p : Pending} (hp : p ∈ pendings) :
    (firstSights pendings before now).lookup (seenKey p.base p.device) =
      some ((before.lookup (seenKey p.base p.device)).getD now) :=
  Dict.lookup_extend_map_of_mem (fun key => (before.lookup key).getD now)
    (List.mem_map_of_mem hp)

theorem exists_pending_of_lookup {pendings : List Pending} {before : Dict String Int} {now t : Int}
    {key : String} (h : (firstSights pendings before now).lookup key = some t) :
    ∃ p ∈ pendings, seenKey p.base p.device = key := by
  by_contra hnone
  have hkey : key ∉ pendings.map fun p => seenKey p.base p.device := by
    simpa using hnone
  rw [firstSights, Dict.lookup_extend_map_of_not_mem _ hkey] at h
  cases h

section Merge

variable {w : Checks} {r incoming : Roster} {firstSeen : String → String → Option Int}

theorem mergedByFirstSight_induct {P : Roster → Prop} (hmerged : P (r.merged w incoming))
    (htrimmed : ∀ base kept, P ((r.trimmed base kept).merged w (incoming.trimmed base kept))) :
    P (mergedByFirstSight w r incoming firstSeen) := by
  rw [Rosters.mergedByFirstSight_eq, Roster.mergedByFirstSight]
  dsimp only
  split_ifs
  · exact hmerged
  · exact hmerged
  · exact htrimmed _ _

theorem merged_master (h : incoming.master = r.master ∨ incoming.master = "") :
    (r.merged w incoming).master = r.master := by
  rw [Roster.merged]
  split_ifs with hother
  · rfl
  · rw [compacted_master]
    change incoming.master = r.master
    rcases h with h | h
    · exact h
    · by_contra hne
      exact hother ⟨fun hempty => hne (h.trans hempty.symm), hne⟩

theorem merged_rPub (h : incoming.master = r.master ∨ incoming.rPub = "") :
    (r.merged w incoming).rPub = if r.rPub = "" then incoming.rPub else r.rPub := by
  rw [Roster.merged]
  by_cases hother : r.master ≠ "" ∧ incoming.master ≠ r.master
  · rw [if_pos hother, h.resolve_left hother.2]
    split_ifs with hempty <;> simp [hempty]
  · rw [if_neg hother, compacted_rPub, Roster.joined]
    by_cases hempty : r.rPub = "" <;> by_cases hkey : incoming.rPub = "" <;>
      simp [hempty, hkey]
    exact fun h => h.symm

/-- A recovery at least as new as `t`. -/
def Renewed (r : Roster) (t : Int) : Prop := ∃ rec ∈ r.recoveries, t ≤ rec.atMs

theorem Renewed.compacted {t : Int} (h : Renewed r t) : Renewed (r.compacted w) t := by
  obtain ⟨rec, hrec, hat⟩ := h
  rw [Renewed, compacted_recoveries, Roster.newest]
  cases hmax : (r.recoveries.map (·.atMs)).max? with
  | none =>
    rw [List.max?_eq_none_iff, List.map_eq_nil_iff] at hmax
    exact absurd hrec (hmax ▸ List.not_mem_nil)
  | some top =>
    obtain ⟨hmem, hle⟩ := List.max?_eq_some_iff.mp hmax
    obtain ⟨newest, hnewest, rfl⟩ := List.mem_map.mp hmem
    -- the ties at the newest time are capped, but the cap leaves one
    have hties : newest ∈ sortSet (r.recoveries.filter (·.atMs = newest.atMs)) :=
      mem_sortSet.mpr (List.mem_filter.mpr ⟨hnewest, decide_eq_true rfl⟩)
    have hne : sortCap (r.recoveries.filter (·.atMs = newest.atMs)) maxRecoveryTies ≠ [] := by
      rw [sortCap, ne_eq, List.take_eq_nil_iff, not_or]
      exact ⟨by decide, List.ne_nil_of_mem hties⟩
    obtain ⟨kept, hkept⟩ := List.exists_mem_of_ne_nil _ hne
    have htime : kept.atMs = newest.atMs :=
      of_decide_eq_true (List.mem_filter.mp (sortCap_subset hkept)).2
    exact ⟨kept, hkept, htime ▸ hat.trans (hle _ (List.mem_map_of_mem hrec))⟩

theorem Renewed.merged {t : Int} (h : Renewed r t) : Renewed (r.merged w incoming) t := by
  rw [Roster.merged]
  split_ifs
  · exact h
  · refine Renewed.compacted ?_
    obtain ⟨rec, hrec, hat⟩ := h
    refine ⟨rec, ?_, hat⟩
    rw [Roster.joined]
    dsimp only
    split_ifs
    · exact mem_pushUnique.mpr (.inl hrec)
    · exact hrec

theorem renewed_of_current {c : Current} (h : r.currentRecovery w = some c) : Renewed r c.at_ := by
  obtain ⟨rec, hnew, -⟩ := (currentRecovery_eq_some.mp h).base_mem
  exact ⟨rec, hnew.1, ((currentRecovery_eq_some.mp h).at_eq rec hnew).ge⟩

theorem Renewed.current {t : Int} (h : Renewed r t) :
    ∃ c, r.currentRecovery w = some c ∧ t ≤ c.at_ := by
  obtain ⟨rec, hrec, hat⟩ := h
  obtain ⟨c, hc⟩ := exists_currentRecovery (w := w) (List.ne_nil_of_mem hrec)
  obtain ⟨top, htop, -⟩ := (currentRecovery_eq_some.mp hc).base_mem
  exact ⟨c, hc, (hat.trans (htop.2 rec hrec)).trans_eq
    ((currentRecovery_eq_some.mp hc).at_eq top htop)⟩

/-- The pending joins a roster holds are of its own base, and name a base as such. -/
structure InBase (w : Checks) (r : Roster) : Prop where
  base : ∀ p ∈ r.pendings, p.base = r.base w
  shape : ∀ p ∈ r.pendings, isBaseShape p.base

theorem compacted_pending_base {p : Pending} (hp : p ∈ (r.compacted w).pendings) :
    p.base = (r.compacted w).base w := by
  have hbase : (r.compacted w).base w = r.newest.base w := base_congr currentRecovery_compacted
  have hp : p ∈ (r.newest.inBase w).pendings := sortCap_subset hp
  rw [inBase_pendings] at hp
  exact (of_decide_eq_true (List.mem_filter.mp hp).2).trans hbase.symm

theorem InBase.merged (h : InBase w r) (hincoming : ∀ p ∈ incoming.pendings, isBaseShape p.base) :
    InBase w (r.merged w incoming) := by
  rw [Roster.merged]
  split_ifs
  · exact h
  · refine ⟨fun p => compacted_pending_base, fun p hp => ?_⟩
    rcases mem_pushUnique.mp (compacted_within.pendings hp) with hp | hp
    · exact h.shape p hp
    · exact hincoming p hp

end Merge

/-- A record as shows leave it. -/
structure Sound (w : Checks) (master : String) (h : Held) : Prop where
  master : h.roster.master = master
  inBase : InBase w h.roster
  seen : ∀ key, (h.seenMs.lookup key).isSome ↔
    ∃ p ∈ h.roster.pendings, seenKey p.base p.device = key

section Shows

variable {w : Checks} {master : String} {record : Option Held} {s : Showing} {h : Held}

theorem accepted_master (hheld : (heldOrNamed master record).roster.master = master)
    (hshown : s.shown.master = master) :
    (accepted w record s).master = (heldOrNamed master record).roster.master ∨
      (accepted w record s).master = "" ∧ (accepted w record s).rPub = "" := by
  rw [accepted, verified, hheld]
  split_ifs
  · refine .inl (Eq.trans ?_ hshown)
    rw [Rosters.compacted_eq, compacted_master]
    rfl
  · exact .inr ⟨rfl, rfl⟩

theorem accepted_shape : ∀ p ∈ (accepted w record s).pendings, isBaseShape p.base := by
  intro p hp
  rw [accepted, verified] at hp
  split_ifs at hp
  · rw [Rosters.compacted_eq] at hp
    have hp := (List.mem_filter.mp (compacted_within.pendings hp)).2
    exact (of_decide_eq_true hp).1.1
  · cases hp

theorem sound_named : Sound w master (heldOrNamed master none) :=
  ⟨rfl, ⟨fun _ hp => (List.not_mem_nil hp).elim, fun _ hp => (List.not_mem_nil hp).elim⟩,
    fun key => by simp [heldOrNamed]⟩

theorem folded_induct {P : Roster → Prop}
    (hmerged : P ((heldOrNamed master record).roster.merged w (accepted w record s)))
    (htrimmed : ∀ base kept, P (((heldOrNamed master record).roster.trimmed base kept).merged w
      ((accepted w record s).trimmed base kept))) :
    P (folded w master record s).roster := by
  have hroster : (folded w master record s).roster = mergedByFirstSight w
      (heldOrNamed master record).roster (accepted w record s)
      fun base d => (heldOrNamed master record).seenMs.lookup (seenKey base d) := rfl
  rw [hroster]
  exact mergedByFirstSight_induct hmerged htrimmed

def pinned (record : Option Held) : String := (record.map (·.roster.rPub)).getD ""

theorem folded_rPub (hheld : (heldOrNamed master record).roster.master = master)
    (hshown : s.shown.master = master) : (folded w master record s).roster.rPub =
      if pinned record = "" then (accepted w record s).rPub else pinned record := by
  have hmaster := (accepted_master (w := w) hheld hshown).imp_right And.right
  have hpinned : pinned record = (heldOrNamed master record).roster.rPub := by cases record <;> rfl
  rw [hpinned]
  refine folded_induct (P := fun r => r.rPub = _) (merged_rPub hmaster) fun base kept => ?_
  exact merged_rPub (r := (heldOrNamed master record).roster.trimmed base kept) hmaster

theorem folded_renewed {t : Int} (h : Renewed (heldOrNamed master record).roster t) :
    Renewed (folded w master record s).roster t :=
  folded_induct (P := (Renewed · t)) h.merged
    fun base kept => Renewed.merged (r := (heldOrNamed master record).roster.trimmed base kept) h

/-- Showing a roster leaves a sound record. -/
theorem folded_sound (hheld : Sound w master (heldOrNamed master record))
    (hshown : s.shown.master = master) : Sound w master (folded w master record s) where
  master := by
    have hmaster := (accepted_master (w := w) hheld.master hshown).imp_right And.left
    refine Eq.trans ?_ hheld.master
    refine folded_induct (P := fun r => r.master = (heldOrNamed master record).roster.master)
      (merged_master hmaster) fun base kept => ?_
    exact merged_master (r := (heldOrNamed master record).roster.trimmed base kept) hmaster
  inBase := by
    refine folded_induct (P := InBase w) (hheld.inBase.merged accepted_shape) fun base kept => ?_
    refine InBase.merged ⟨fun p hp => ?_, fun p hp => ?_⟩ fun p hp => ?_
    · exact hheld.inBase.base p (List.mem_filter.mp hp).1
    · exact hheld.inBase.shape p (List.mem_filter.mp hp).1
    · exact accepted_shape p (List.mem_filter.mp hp).1
  seen := fun key => by
    refine ⟨fun hkey => ?_, ?_⟩
    · obtain ⟨t, ht⟩ := Option.isSome_iff_exists.mp hkey
      exact exists_pending_of_lookup ht
    · rintro ⟨p, hp, rfl⟩
      exact Option.isSome_iff_exists.mpr ⟨_, lookup_firstSights _ _ hp⟩

theorem run_sound {shows : List Showing} :
    Sound w master (heldOrNamed master (run w master shows)) := by
  rw [← List.nil_append shows]
  refine run_append_induct (P := fun record => Sound w master (heldOrNamed master record))
    (fun record s h => ?_) sound_named
  rcases showRoster_cases (w := w) record s with heq | ⟨hshown, heq⟩ <;> rw [heq]
  · exact h
  · exact folded_sound h hshown

end Shows

/-- The record holds a pending join of the device in `base`, its current base. -/
def Asks (w : Checks) (record : Option Held) (base device : String) : Prop :=
  ∃ h, record = some h ∧ h.roster.base w = base ∧
    ∃ p ∈ h.roster.pendings, p.base = base ∧ p.device = device

def firstSeen (record : Option Held) (base device : String) : Option Int :=
  record.bind (·.seenMs.lookup (seenKey base device))

/-- The relay first saw the device ask in `base` at `t`, and `base` was current and the pending join
held after every show since. -/
def AskedSince (w : Checks) (master : String) (shows : List Showing) (base device : String)
    (t : Int) : Prop :=
  ∃ before s after, shows = before ++ s :: after ∧ s.now = t ∧
    ¬ Asks w (run w master before) base device ∧
    ∀ l, l <+: after → Asks w (run w master (before ++ s :: l)) base device

section Sights

variable {w : Checks} {master base device : String} {record : Option Held} {s : Showing}
  {shows : List Showing}

section Show

variable (hsound : Sound w master (heldOrNamed master record))
  (hasks' : Asks w (showRoster w master record s).2 base device)
include hsound hasks'

theorem firstSeen_showRoster (hasks : Asks w record base device) :
    firstSeen (showRoster w master record s).2 base device = firstSeen record base device := by
  rcases showRoster_cases (w := w) record s with heq | ⟨-, heq⟩
  · rw [heq]
  · obtain ⟨h, rfl, -, p, hp, rfl, rfl⟩ := hasks
    obtain ⟨h', hh', -, p', hp', hbase, hdevice⟩ := hasks'
    obtain rfl : folded w master (some h) s = h' := Option.some_inj.mp (heq.symm.trans hh')
    obtain ⟨t, ht⟩ := Option.isSome_iff_exists.mp ((hsound.seen _).mpr ⟨p, hp, rfl⟩)
    have hfirst := lookup_firstSights h.seenMs s.now hp'
    rw [hbase, hdevice] at hfirst
    have ht : h.seenMs.lookup (seenKey p.base p.device) = some t := ht
    rw [ht] at hfirst
    rw [heq]
    exact hfirst.trans ht.symm

theorem firstSeen_showRoster_of_new (hasks : ¬ Asks w record base device) :
    firstSeen (showRoster w master record s).2 base device = some s.now := by
  rcases showRoster_cases (w := w) record s with heq | ⟨hshown, heq⟩
  · exact absurd (heq ▸ hasks') hasks
  · obtain ⟨h', hh', -, p', hp', rfl, rfl⟩ := hasks'
    obtain rfl : folded w master record s = h' := Option.some_inj.mp (heq.symm.trans hh')
    have hshape := (folded_sound hsound hshown).inBase.shape p' hp'
    have hnew : (heldOrNamed master record).seenMs.lookup (seenKey p'.base p'.device) = none := by
      by_contra hsome
      obtain ⟨p, hp, hkey⟩ := (hsound.seen _).mp (Option.isSome_iff_ne_none.mpr hsome)
      obtain ⟨hbase, hdevice⟩ := seenKey_inj (hsound.inBase.shape p hp) hshape hkey
      cases record with
      | none => cases hp
      | some h =>
        exact hasks ⟨h, rfl, (hsound.inBase.base p hp).symm.trans hbase, p, hp, hbase, hdevice⟩
    have hfirst := lookup_firstSights (heldOrNamed master record).seenMs s.now hp'
    rw [hnew] at hfirst
    rw [heq]
    exact hfirst

end Show

/-- Whoever asks in the current base has asked, without a break, since it was first seen. -/
theorem askedSince_of_asks (h : Asks w (run w master shows) base device) :
    ∃ t, firstSeen (run w master shows) base device = some t ∧
      AskedSince w master shows base device t := by
  induction shows using List.reverseRecOn with
  | nil =>
    obtain ⟨held, hheld, -⟩ := h
    cases hheld
  | append_singleton shows s ih =>
    by_cases hbefore : Asks w (run w master shows) base device
    · obtain ⟨t, ht, before, first, after, rfl, hnow, hnot, hsince⟩ := ih hbefore
      refine ⟨t, ?_, before, first, after ++ [s], by simp, hnow, hnot, fun l hl => ?_⟩
      · rw [run_concat] at h ⊢
        rw [firstSeen_showRoster run_sound h hbefore, ht]
      · rcases List.prefix_concat_iff.mp hl with rfl | hl
        · simpa using h
        · exact hsince l hl
    · refine ⟨s.now, ?_, shows, s, [], rfl, rfl, hbefore, fun l hl => ?_⟩
      · rw [run_concat] at h ⊢
        exact firstSeen_showRoster_of_new run_sound h hbefore
      · rw [List.prefix_nil] at hl
        rw [hl]
        exact h

theorem firstSeen_stays {later : List Showing}
    (h : ∀ l, l <+: later → Asks w (run w master (shows ++ l)) base device) :
    firstSeen (run w master (shows ++ later)) base device =
      firstSeen (run w master shows) base device := by
  induction later using List.reverseRecOn with
  | nil => rw [List.append_nil]
  | append_singleton later s ih =>
    have hlater := h (later ++ [s]) (List.prefix_refl _)
    rw [← List.append_assoc, run_concat] at hlater ⊢
    rw [firstSeen_showRoster run_sound hlater (h later (List.prefix_append _ _))]
    exact ih fun l hl => h l (hl.trans (List.prefix_append _ _))

end Sights

theorem exists_mem_of_mem_foldl {α β : Type} {step : Finset α → β → Finset α} {q : β → Prop} {a : α}
    (hstep : ∀ s b, a ∈ step s b → a ∈ s ∨ q b) {l : List β} {s : Finset α}
    (h : a ∈ l.foldl step s) : a ∈ s ∨ ∃ b ∈ l, q b := by
  induction l generalizing s with
  | nil => exact .inl h
  | cons b l ih =>
    rcases ih h with h | ⟨c, hc, hq⟩
    · exact (hstep s b h).imp_right fun hq => ⟨b, List.mem_cons_self, hq⟩
    · exact .inr ⟨c, List.mem_cons_of_mem b hc, hq⟩

/-- Whoever the fold admits was founded, or is vouched for from a pending that was waited out. -/
theorem mem_fold_members {w : Checks} {r : Roster} {firstSeen : String → Option Int} {now : Int}
    {device : String} (h : device ∈ (Rosters.fold w r firstSeen now).members) :
    device ∈ r.founded w ∨ ∃ asker t, (∃ p ∈ r.scopePendings w, p.device = asker) ∧
      firstSeen asker = some t ∧ t ≤ now - pendingMaturityMs ∧
      Reach.Reaches Vouch.voucher Vouch.device (r.scopeVouches w) {asker} device := by
  obtain ⟨hvalid, -⟩ := Finset.mem_filter.mp h
  rw [Rosters.grow_eq, vouchClosure, Reach.mem_closure, Rosters.consented_eq, Rosters.base_eq,
    Rosters.baseRoots_eq] at hvalid
  obtain ⟨root, hroot, hreach⟩ :=
    (hvalid.mono (List.filter_subset_self _) (Finset.Subset.refl _)).exists_seed
  rcases Finset.mem_union.mp hroot with hroot | hmatured
  · refine .inl (mem_founded.mpr (hreach.mono (List.Subset.refl _) ?_))
    exact Finset.singleton_subset_iff.mpr hroot
  · obtain ⟨p, hp, hdevice, t, ht, hripe⟩ :=
      (exists_mem_of_mem_foldl (q := fun p : Pending => p.device = root ∧
          ∃ t, firstSeen p.device = some t ∧ t ≤ now - pendingMaturityMs) (fun out p hin => by
        split_ifs at hin with _ hany
        · exact .inl hin
        · rcases Finset.mem_insert.mp hin with hdevice | hin
          · obtain ⟨t, ht, hripe⟩ := (Option.any_eq_true _ _).mp hany
            exact .inr ⟨hdevice.symm, t, ht, of_decide_eq_true hripe⟩
          · exact .inl hin
        · exact .inl hin) hmatured).resolve_left (Finset.notMem_empty _)
    exact .inr ⟨root, t, ⟨p, hp, hdevice⟩, hdevice ▸ ht, hripe, hreach⟩

section Keeps

variable (w : Checks) (master : String) (shows : List Showing)

def currentRecovery (record : Option Held) : Option Current :=
  record.bind (Rosters.currentRecovery w ·.roster)

/-- A pending join of the device in the current base was held for `pendingMaturityMs`. -/
def Ripe (h : Held) (device : String) (now : Int) : Prop :=
  ∃ t, t + pendingMaturityMs ≤ now ∧ AskedSince w master shows (Rosters.base w h.roster) device t

structure Keeps : Prop where
  /-- The first recovery key that verifies is pinned. -/
  pin : ∀ before s after, shows = before ++ s :: after → s.shown.master = master →
    s.shown.withinCaps → pinned (run w master before) = "" →
    (accepted w (run w master before) s).rPub ≠ "" →
    pinned (run w master shows) = (accepted w (run w master before) s).rPub
  pinStays : ∀ before after, shows = before ++ after → pinned (run w master before) ≠ "" →
    pinned (run w master shows) = pinned (run w master before)
  recoveryTime : ∀ before after c, shows = before ++ after →
    currentRecovery w (run w master before) = some c →
    ∃ c', currentRecovery w (run w master shows) = some c' ∧ c.at_ ≤ c'.at_
  firstSeen : ∀ before after base device, shows = before ++ after →
    (∀ l, l <+: after → Asks w (run w master (before ++ l)) base device) →
    firstSeen (run w master shows) base device = firstSeen (run w master before) base device
  /-- Who belongs without being rooted was vouched for by a device whose pending join ripened, or
  is that device. -/
  ripe : ∀ h now device, run w master shows = some h → device ∈ (h.fold w now).members →
    device ∉ h.roster.founded w →
    ∃ asker, Ripe w master shows h asker now ∧
      Reach.Reaches Vouch.voucher Vouch.device (h.roster.scopeVouches w) {asker} device
  /-- With no vouch for it, it is that device. -/
  onlyPending : ∀ h now device, run w master shows = some h → device ∈ (h.fold w now).members →
    device ∉ h.roster.seeds w → (∀ v ∈ h.roster.scopeVouches w, v.device ≠ device) →
    Ripe w master shows h device now

end Keeps

section Kept

variable {w : Checks} {master : String} {shows : List Showing}

theorem pinned_showRoster_of_fits (record : Option Held) {s : Showing}
    (hsound : Sound w master (heldOrNamed master record)) (hmaster : s.shown.master = master)
    (hcaps : s.shown.withinCaps) : pinned (showRoster w master record s).2 =
      if pinned record = "" then (accepted w record s).rPub else pinned record := by
  rw [showRoster_of_fits hmaster hcaps]
  exact folded_rPub hsound.master hmaster

theorem pinned_showRoster {record : Option Held} {s : Showing}
    (hsound : Sound w master (heldOrNamed master record)) (hpin : pinned record ≠ "") :
    pinned (showRoster w master record s).2 = pinned record := by
  rcases showRoster_cases (w := w) record s with heq | ⟨hmaster, heq⟩ <;> rw [heq]
  exact (folded_rPub hsound.master hmaster).trans (if_neg hpin)

theorem pinned_append (later : List Showing) (hpin : pinned (run w master shows) ≠ "") :
    pinned (run w master (shows ++ later)) = pinned (run w master shows) := by
  induction later using List.reverseRecOn with
  | nil => rw [List.append_nil]
  | append_singleton later s ih =>
    rw [← List.append_assoc, run_concat, pinned_showRoster run_sound (ih ▸ hpin), ih]

theorem renewed_append (later : List Showing) {t : Int}
    (h : ∃ held, run w master shows = some held ∧ Renewed held.roster t) :
    ∃ held, run w master (shows ++ later) = some held ∧ Renewed held.roster t := by
  refine run_append_induct (P := fun record => ∃ held, record = some held ∧ Renewed held.roster t)
    (fun record s => ?_) h
  rintro ⟨held, rfl, hrenewed⟩
  rcases showRoster_cases (w := w) (some held) s with heq | ⟨-, heq⟩
  · exact ⟨held, heq, hrenewed⟩
  · exact ⟨_, heq, folded_renewed hrenewed⟩

theorem ripe_of_mem_members {h : Held} {now : Int} {device : String}
    (hrun : run w master shows = some h) (hmember : device ∈ (h.fold w now).members)
    (hfounded : device ∉ h.roster.founded w) :
    ∃ asker, Ripe w master shows h asker now ∧
      Reach.Reaches Vouch.voucher Vouch.device (h.roster.scopeVouches w) {asker} device := by
  obtain ⟨asker, t, ⟨p, hp, hdevice⟩, ht, hripe, hreach⟩ :=
    (mem_fold_members hmember).resolve_left hfounded
  obtain ⟨hp, hbase, -⟩ := mem_scopePendings.mp hp
  have hasks : Asks w (run w master shows) (Rosters.base w h.roster) asker :=
    ⟨h, hrun, Rosters.base_eq.symm, p, hp, hbase.trans Rosters.base_eq.symm, hdevice⟩
  obtain ⟨t', ht', hsince⟩ := askedSince_of_asks hasks
  rw [hrun] at ht'
  obtain rfl : t = t' := Option.some_inj.mp (ht.symm.trans ht')
  exact ⟨asker, ⟨t, by omega, hsince⟩, hreach⟩

/-- What the record keeps over every run of shows. -/
theorem record_keeps : Keeps w master shows where
  pin := by
    rintro before s after rfl hmaster hcaps hnone hkey
    have hshow := pinned_showRoster_of_fits (run w master before) run_sound hmaster hcaps
    rw [if_pos hnone, ← run_concat] at hshow
    have hrun := pinned_append after (hshow ▸ hkey)
    rw [List.append_assoc, List.singleton_append] at hrun
    exact hrun.trans hshow
  pinStays := by
    rintro before after rfl hpin
    exact pinned_append after hpin
  recoveryTime := by
    rintro before after c rfl hc
    obtain ⟨held, hheld, hc⟩ := Option.bind_eq_some_iff.mp hc
    rw [Rosters.currentRecovery_eq] at hc
    obtain ⟨held', hheld', hrenewed⟩ :=
      renewed_append after ⟨held, hheld, renewed_of_current hc⟩
    obtain ⟨c', hc', hat⟩ := hrenewed.current (w := w)
    refine ⟨c', ?_, hat⟩
    rw [currentRecovery, hheld', Option.bind_some, Rosters.currentRecovery_eq, hc']
  firstSeen := by
    rintro before after base device rfl h
    exact firstSeen_stays h
  ripe := fun h now device hrun hmember hfounded => ripe_of_mem_members hrun hmember hfounded
  onlyPending := by
    intro h now device hrun hmember hseeds hvouch
    have hfounded : device ∉ h.roster.founded w := fun hfounded =>
      hseeds ((mem_founded.mp hfounded).mem_of_no_edge hvouch)
    obtain ⟨asker, hripe, hreach⟩ := ripe_of_mem_members hrun hmember hfounded
    obtain rfl : device = asker := Finset.mem_singleton.mp (hreach.mem_of_no_edge hvouch)
    exact hripe

def askingLaptop (now : Int) : Showing where
  shown := {
    master := "master"
    consents := [⟨"laptop", "laptop"⟩]
    pendings := [⟨legacyBase, "laptop", "master"⟩] }
  device := "laptop"
  now

def laptopShows : List Showing := [askingLaptop 0, askingLaptop pendingMaturityMs]

/-- It belongs once its pending join was held for `pendingMaturityMs`. -/
theorem record_keeps_askingLaptop :
    ∃ h, run sampleChecks "master" laptopShows = some h ∧
      "laptop" ∈ (h.fold sampleChecks pendingMaturityMs).members ∧
      "laptop" ∉ (h.fold sampleChecks (pendingMaturityMs - 1)).members ∧
      Ripe sampleChecks "master" laptopShows h "laptop" pendingMaturityMs := by
  have hmember : ∀ h ∈ run sampleChecks "master" laptopShows,
      "laptop" ∈ (h.fold sampleChecks pendingMaturityMs).members ∧
      "laptop" ∉ (h.fold sampleChecks (pendingMaturityMs - 1)).members ∧
      "laptop" ∉ h.roster.seeds sampleChecks ∧ h.roster.scopeVouches sampleChecks = [] := by
    decide +kernel
  obtain ⟨h, hrun⟩ : ∃ h, run sampleChecks "master" laptopShows = some h :=
    Option.isSome_iff_exists.mp (by decide +kernel)
  obtain ⟨hin, hout, hseeds, hvouches⟩ := hmember h hrun
  refine ⟨h, hrun, hin, hout, record_keeps.onlyPending h _ "laptop" hrun hin hseeds ?_⟩
  rw [hvouches]
  exact fun _ hv => absurd hv List.not_mem_nil

end Kept

end Hollow.Relay.RosterBook
