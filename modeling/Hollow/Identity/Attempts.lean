import Mathlib

/-! Pacing for secrets typed at a device's prompts: the count of misses kept on disk, and the wait
it asks for, measured on the boot clock. A try is charged before it is made and refunded when it
proved nothing. Times are milliseconds. -/

namespace Hollow.Identity.Attempts

/-- What a refused try answers, before the seconds still to wait. -/
def marker : String := "too_many_attempts"

def free : Nat := 4

def maxFailures : Nat := 2 ^ 32 - 1

/-- The wait after so many misses in a row, in seconds. -/
def waitSecs (failures : Nat) : Nat :=
  match failures - free with
  | 0 => 0
  | 1 => 30
  | 2 => 60
  | 3 => 5 * 60
  | 4 => 15 * 60
  | _ => 60 * 60

structure Clock where
  wallMs : Int
  bootMs : Int

/-- The count on disk; no file stands for the default. -/
structure State where
  failures : Nat := 0
  wallMs : Int := 0
  bootMs : Option Int := none
deriving DecidableEq

/-- The part of the wait that has passed, unless the boot clock went back. -/
def elapsedMs (s : State) (now : Clock) : Option Int :=
  s.bootMs.bind fun boot => if boot ≤ now.bootMs then some (now.bootMs - boot) else none

/-- The seconds still due, and the count, whose wait starts again after a reboot. -/
def remainingLocked (s : State) (now : Clock) : Nat × State :=
  let waitMs : Int := waitSecs s.failures * 1000
  if waitMs = 0 then (0, s)
  else
    match elapsedMs s now with
    | some elapsed => (((max (waitMs - elapsed) 0).toNat + 999) / 1000, s)
    | none => (((max waitMs 0).toNat + 999) / 1000,
        { s with wallMs := now.wallMs, bootMs := some now.bootMs })

/-- A try paid for: the count before it. -/
structure Charge where
  before : State
deriving DecidableEq

def charge (s : State) (now : Clock) : Except String Charge × State :=
  let due := remainingLocked s now
  if due.1 = 0 then
    (.ok ⟨due.2⟩, ⟨min (due.2.failures + 1) maxFailures, now.wallMs, some now.bootMs⟩)
  else
    let secs := due.1
    (.error s!"{marker}: {secs}", due.2)

def refund (s : State) (c : Charge) : State :=
  let back :=
    if s.failures = min (c.before.failures + 1) maxFailures then c.before
    else { s with failures := s.failures - 1 }
  if back.failures = 0 then {} else back

def succeeded (_ : State) : State := {}

structure Made where
  token : Charge
  /-- It was not refunded. -/
  live : Bool := true
  /-- It was made since the last success. -/
  recent : Bool := true

/-- The device, with the real time. `charges` and `last` are history. -/
structure Device where
  file : State := {}
  real : Int
  boot : Int
  /-- What the boot clock read when it was last reset, until it is read again. -/
  unread : Option Int := none
  charges : List Made := []
  /-- The number the last charge brought the count to, and when, until a refund or a success. -/
  last : Option (Nat × Int) := none

inductive Event where
  | pass (ms : Nat)
  | reboot (boot : Int)
  | remaining (wall : Int)
  | charge (wall : Int)
  | refund (i : Nat)
  | succeeded

namespace Device

/-- The charges since the last success that were not refunded. -/
def number (d : Device) : Nat := d.charges.countP fun c => c.live && c.recent

def clock (d : Device) (wall : Int) : Clock := ⟨wall, d.boot⟩

def accepts (d : Device) (wall : Int) : Bool := (charge d.file (d.clock wall)).1.isOk

def step (d : Device) : Event → Device
  | .pass ms => { d with real := d.real + ms, boot := d.boot + ms }
  | .reboot boot => { d with boot, unread := some d.boot }
  | .remaining wall => { d with file := (remainingLocked d.file (d.clock wall)).2, unread := none }
  | .charge wall =>
    match charge d.file (d.clock wall) with
    | (.ok token, file) =>
      let charges := d.charges ++ [⟨token, true, true⟩]
      { d with
        file, charges, unread := none
        last := some (charges.countP fun c => c.live && c.recent, d.real) }
    | (.error _, file) => { d with file, unread := none }
  | .refund i =>
    match d.charges[i]? with
    | some c =>
      if c.live then
        { d with
          file := refund d.file c.token
          charges := d.charges.set i { c with live := false }
          last := none }
      else d
    | none => d
  | .succeeded =>
    { d with
      file := succeeded d.file
      charges := d.charges.map fun c => { c with recent := false }
      last := none }

def run (d : Device) (events : List Event) : Device := events.foldl step d

end Device

/-- A boot clock that was reset is read before it passes its old value. -/
def Event.InTime (d : Device) : Event → Prop
  | .reboot _ | .remaining _ | .charge _ => ∀ old ∈ d.unread, d.boot < old
  | _ => True

/-- The count has room for a charge, and a refund is of a charge since the last success. -/
def Event.Meets (d : Device) : Event → Prop
  | .charge _ => d.file.failures < maxFailures
  | .refund i => ∀ c ∈ d.charges[i]?, c.live → c.recent
  | _ => True

/-- A condition on every step of a run. -/
def Device.Along (P : Device → Event → Prop) : Device → List Event → Prop
  | _, [] => True
  | d, e :: events => P d e ∧ Device.Along P (d.step e) events

/-- The count is right, and a charge that is accepted comes after the wait. -/
structure Device.Holds (d : Device) : Prop where
  counts : d.file.failures = d.number
  paced : ∀ n t wall, d.last = some (n, t) → (∀ old ∈ d.unread, d.boot < old) → d.accepts wall →
    t + waitSecs n * 1000 ≤ d.real

/-- The stamp of the last charge: what the boot clock shows to have passed since has passed. -/
def Device.Stamped (d : Device) (t : Int) : Prop :=
  ∃ stamp, d.file.bootMs = some stamp ∧ t ≤ d.real ∧ (d.unread.getD d.boot) - stamp ≤ d.real - t

structure Device.Kept (d : Device) : Prop where
  counts : d.file.failures = d.number
  tokens : ∀ c ∈ d.charges, c.token.before.failures < maxFailures
  stamped : ∀ n t, d.last = some (n, t) → d.file.failures = n ∧ d.Stamped t

variable {d : Device} {s : State} {now : Clock} {n i : Nat} {t : Int}

theorem remainingLocked_cases (s : State) (now : Clock) :
    (remainingLocked s now).2 = s ∨
      (remainingLocked s now).2 = { s with wallMs := now.wallMs, bootMs := some now.bootMs } := by
  rw [remainingLocked]
  split_ifs
  · exact .inl rfl
  · split
    · exact .inl rfl
    · exact .inr rfl

/-- An attempt is let through only once the whole wait has passed on the boot clock. -/
theorem wait_le_of_remaining (h : (remainingLocked s now).1 = 0) {stamp : Int}
    (hstamp : s.bootMs = some stamp) :
    waitSecs s.failures = 0 ∨ waitSecs s.failures * 1000 ≤ now.bootMs - stamp := by
  rw [remainingLocked] at h
  by_cases hwait : (waitSecs s.failures : Int) * 1000 = 0
  · exact .inl (by omega)
  right
  rw [if_neg hwait, elapsedMs, hstamp, Option.bind_some] at h
  by_cases hboot : stamp ≤ now.bootMs
  · rw [if_pos hboot] at h
    dsimp only at h
    omega
  · rw [if_neg hboot] at h
    dsimp only at h
    omega

theorem charge_ok (h : (remainingLocked s now).1 = 0) :
    charge s now = (.ok ⟨(remainingLocked s now).2⟩,
      ⟨min ((remainingLocked s now).2.failures + 1) maxFailures, now.wallMs, some now.bootMs⟩) := by
  rw [charge]
  exact if_pos h

theorem charge_refused (h : (remainingLocked s now).1 ≠ 0) :
    ∃ text, charge s now = (.error text, (remainingLocked s now).2) := by
  rw [charge]
  exact ⟨_, if_neg h⟩

namespace Device

theorem accepts_iff {wall : Int} :
    d.accepts wall ↔ (remainingLocked d.file (d.clock wall)).1 = 0 := by
  rw [accepts]
  by_cases h : (remainingLocked d.file (d.clock wall)).1 = 0
  · rw [charge_ok h]
    exact iff_of_true rfl h
  · obtain ⟨text, hcharge⟩ := charge_refused h
    rw [hcharge]
    exact iff_of_false nofun h

theorem boot_le_getD (h : ∀ old ∈ d.unread, d.boot < old) : d.boot ≤ d.unread.getD d.boot := by
  cases hunread : d.unread with
  | none => exact le_rfl
  | some old => exact (h old hunread).le

theorem Kept.holds (h : d.Kept) : d.Holds := by
  refine ⟨h.counts, fun n t wall hlast hread haccepts => ?_⟩
  obtain ⟨rfl, stamp, hstamp, hle, hpassed⟩ := h.stamped n t hlast
  rcases wait_le_of_remaining (accepts_iff.1 haccepts) hstamp with hzero | hwait
  · rw [hzero]
    simpa using hle
  · dsimp only [clock] at hwait
    have hboot := boot_le_getD hread
    omega

theorem failures_remaining : (remainingLocked s now).2.failures = s.failures := by
  rcases remainingLocked_cases s now with h | h
  · rw [h]
  · rw [h]

theorem Stamped.read (h : d.Stamped t) (hread : ∀ old ∈ d.unread, d.boot < old) (wall : Int) :
    Stamped { d with file := (remainingLocked d.file (d.clock wall)).2, unread := none } t := by
  obtain ⟨stamp, hstamp, hle, hpassed⟩ := h
  rcases remainingLocked_cases d.file (d.clock wall) with hfile | hfile
  · refine ⟨stamp, by rw [hfile]; exact hstamp, hle, ?_⟩
    dsimp only [Option.getD_none]
    have hboot := boot_le_getD hread
    omega
  · refine ⟨d.boot, by rw [hfile]; rfl, hle, ?_⟩
    dsimp only [Option.getD_none]
    omega

theorem Kept.read (h : d.Kept) (hread : ∀ old ∈ d.unread, d.boot < old) (wall : Int) :
    Kept { d with file := (remainingLocked d.file (d.clock wall)).2, unread := none } := by
  refine ⟨failures_remaining.trans h.counts, h.tokens, fun n t hlast => ?_⟩
  obtain ⟨hn, hstamped⟩ := h.stamped n t hlast
  exact ⟨failures_remaining.trans hn, hstamped.read hread wall⟩

theorem failures_refund {c : Charge} (h : c.before.failures < maxFailures) :
    (refund s c).failures = s.failures - 1 := by
  have hsum : min (c.before.failures + 1) maxFailures = c.before.failures + 1 := Nat.min_eq_left h
  rw [refund, hsum]
  by_cases hsame : s.failures = c.before.failures + 1
  · rw [if_pos hsame, hsame]
    split_ifs with hzero
    · exact hzero.symm
    · rfl
  · rw [if_neg hsame]
    dsimp only
    split_ifs with hzero
    · exact hzero.symm
    · rfl

theorem Kept.charge (h : d.Kept) (hread : ∀ old ∈ d.unread, d.boot < old) (wall : Int)
    (hroom : d.file.failures < maxFailures) : (d.step (.charge wall)).Kept := by
  rw [step]
  by_cases hdue : (remainingLocked d.file (d.clock wall)).1 = 0
  · rw [charge_ok hdue]
    dsimp only
    have hnumber (token : Charge) : (d.charges ++ [(⟨token, true, true⟩ : Made)]).countP
        (fun c => c.live && c.recent) = d.number + 1 := by
      simp [number]
    have hcounts : min ((remainingLocked d.file (d.clock wall)).2.failures + 1) maxFailures =
        d.number + 1 := by
      rw [failures_remaining, Nat.min_eq_left hroom, h.counts]
    refine ⟨hcounts.trans (hnumber _).symm, fun c hc => ?_, fun n t hlast => ?_⟩
    · rcases List.mem_append.1 hc with hc | hc
      · exact h.tokens c hc
      · obtain rfl := List.mem_singleton.1 hc
        exact failures_remaining.symm ▸ hroom
    · obtain ⟨rfl, rfl⟩ := Prod.mk.inj (Option.some.inj hlast)
      exact ⟨hcounts.trans (hnumber _).symm, d.boot, rfl, Int.le_refl _, by simp⟩
  · obtain ⟨text, hcharge⟩ := charge_refused hdue
    rw [hcharge]
    exact h.read hread wall

theorem Kept.refund (h : d.Kept) (hrecent : ∀ c ∈ d.charges[i]?, c.live → c.recent) :
    (d.step (.refund i)).Kept := by
  rw [step]
  cases hc : d.charges[i]? with
  | none => exact h
  | some c =>
    dsimp only
    split_ifs with hlive
    · obtain ⟨hlt, hget⟩ := List.getElem?_eq_some_iff.1 hc
      have hmem : c ∈ d.charges := hget ▸ List.getElem_mem hlt
      have hnumber : (d.charges.set i { c with live := false }).countP
          (fun c => c.live && c.recent) = d.number - 1 := by
        rw [List.countP_set hlt, hget]
        simp [number, hlive, hrecent c hc hlive]
      refine ⟨?_, fun c' hc' => ?_, nofun⟩
      · exact (failures_refund (h.tokens c hmem)).trans (h.counts ▸ hnumber.symm)
      · rcases List.mem_or_eq_of_mem_set hc' with hc' | rfl
        · exact h.tokens c' hc'
        · exact h.tokens c hmem
    · exact h

/-- Every event keeps the file's count of misses, restarts and refunds included. -/
theorem Kept.step {e : Event} (h : d.Kept) (htime : e.InTime d) (hmeets : e.Meets d) :
    (d.step e).Kept := by
  cases e with
  | pass ms =>
    refine ⟨h.counts, h.tokens, fun n t hlast => ?_⟩
    obtain ⟨hn, stamp, hstamp, hle, hpassed⟩ := h.stamped n t hlast
    refine ⟨hn, stamp, hstamp, ?_, ?_⟩
    · dsimp only [Device.step]
      omega
    · dsimp only [Device.step]
      cases hunread : d.unread with
      | none =>
        rw [hunread] at hpassed
        dsimp only [Option.getD_none] at hpassed ⊢
        omega
      | some old =>
        rw [hunread] at hpassed
        dsimp only [Option.getD_some] at hpassed ⊢
        omega
  | reboot boot =>
    refine ⟨h.counts, h.tokens, fun n t hlast => ?_⟩
    obtain ⟨hn, stamp, hstamp, hle, hpassed⟩ := h.stamped n t hlast
    refine ⟨hn, stamp, hstamp, hle, ?_⟩
    dsimp only [Device.step, Option.getD_some]
    have hboot := boot_le_getD htime
    omega
  | remaining wall => exact h.read htime wall
  | charge wall => exact h.charge htime wall hmeets
  | refund i => exact h.refund hmeets
  | succeeded =>
    refine ⟨?_, fun c hc => ?_, nofun⟩
    · simp [Device.step, number, succeeded, List.countP_map, Function.comp_def]
    · obtain ⟨made, hmade, rfl⟩ := List.mem_map.1 hc
      exact h.tokens made hmade

theorem Kept.run {events : List Event} (h : d.Kept) (htime : Along (fun d e => e.InTime d) d events)
    (hmeets : Along (fun d e => e.Meets d) d events) : (d.run events).Kept := by
  induction events generalizing d with
  | nil => exact h
  | cons e events ih => exact ih (h.step htime.1 hmeets.1) htime.2 hmeets.2

def start (real boot : Int) : Device := { real, boot }

theorem kept_start (real boot : Int) : (start real boot).Kept := ⟨rfl, nofun, nofun⟩

end Device

/-- In every run from a fresh device the file counts the charges since the last success that were
not refunded, and no charge is taken before the wait of that number has passed. -/
theorem attempts_hold (real boot : Int) (events : List Event)
    (htime : Device.Along (fun d e => e.InTime d) (.start real boot) events)
    (hmeets : Device.Along (fun d e => e.Meets d) (.start real boot) events) :
    ((Device.start real boot).run events).Holds :=
  ((Device.kept_start real boot).run htime hmeets).holds

/-- A success, six tries of which the second is refunded, and a reboot. -/
def missesThenReboot : List Event :=
  [.charge 0, .succeeded, .charge 0, .charge 0, .refund 2, .charge 0, .charge 0, .charge 0,
    .charge 0, .pass 1000, .reboot 0, .remaining 0, .pass 30000]

theorem attempts_hold_missesThenReboot :
    ((Device.start 5000 5000).run missesThenReboot).Holds ∧
      ((Device.start 5000 5000).run missesThenReboot).number = 5 := by
  refine ⟨attempts_hold 5000 5000 missesThenReboot ?_ ?_, by decide +kernel⟩
  · simp only [missesThenReboot, Device.Along, Event.InTime, true_and, and_true]
    decide +kernel
  · simp only [missesThenReboot, Device.Along, Event.Meets, and_true]
    decide +kernel

/-- A charge from before a success is refunded after it: the charge made since is taken back. -/
theorem refund_takes_later_charge :
    ((Device.start 0 0).run [.charge 0, .succeeded, .charge 0, .refund 0]).file.failures = 0 ∧
      ((Device.start 0 0).run [.charge 0, .succeeded, .charge 0, .refund 0]).number = 1 := by
  decide +kernel

end Hollow.Identity.Attempts
