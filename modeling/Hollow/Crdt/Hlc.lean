import Mathlib

/-! Hybrid logical clock stamps and the clock that mints them. A stamp is ordered by its
millisecond, then its counter, then its actor. Times are natural numbers below `2 ^ 64`; the
operations that saturate in the source saturate here. -/

namespace Hollow.Crdt

/-- `u64::MAX`, also the end of a membership span that is still open. -/
def u64Max : Nat := 2 ^ 64 - 1

def u32Max : Nat := 2 ^ 32 - 1

def saturatingAdd (a b : Nat) : Nat := min (a + b) u64Max

/-- How far ahead of the wall clock a remote stamp may sit: five minutes. -/
def maxDriftMs : Nat := 5 * 60 * 1000

structure HlcTimestamp where
  physicalMs : Nat
  counter : Nat
  actor : String
deriving DecidableEq, Repr

namespace HlcTimestamp

def zero (actor : String) : HlcTimestamp := ⟨0, 0, actor⟩

def key (t : HlcTimestamp) : Lex (Nat × Lex (Nat × String)) :=
  toLex (t.physicalMs, toLex (t.counter, t.actor))

theorem key_injective : Function.Injective key := by
  rintro ⟨p, c, a⟩ ⟨p', c', a'⟩ h
  simp only [key, toLex_inj, Prod.mk.injEq] at h
  simp [h]

instance : LinearOrder HlcTimestamp := LinearOrder.lift' key key_injective

theorem lt_iff {t u : HlcTimestamp} :
    t < u ↔ t.physicalMs < u.physicalMs ∨ t.physicalMs = u.physicalMs ∧
      (t.counter < u.counter ∨ t.counter = u.counter ∧ t.actor < u.actor) := by
  change key t < key u ↔ _
  simp [key, Prod.Lex.lt_iff]

/-- The millisecond and counter of a stamp, which a clock compares. -/
def point (t : HlcTimestamp) : Lex (Nat × Nat) := toLex (t.physicalMs, t.counter)

theorem lt_of_point_lt {t u : HlcTimestamp} (h : t.point < u.point) : t < u := by
  rw [lt_iff]
  rcases Prod.Lex.toLex_lt_toLex.mp h with h | ⟨h, h'⟩
  · exact .inl h
  · exact .inr ⟨h, .inl h'⟩

end HlcTimestamp

/-- How many counter lanes the devices of one identity spread over. -/
def lanes : Nat := 2 ^ 24

structure Hlc where
  latest : HlcTimestamp
  actor : String
  /-- `none` is the clock without lanes of older clients. -/
  lane : Option Nat
deriving DecidableEq, Repr

/-- The stamp right after `(physicalMs, counter)`; a full counter steps the millisecond. -/
def successor (physicalMs counter : Nat) : Nat × Nat :=
  if counter + 1 ≤ u32Max then (physicalMs, counter + 1) else (saturatingAdd physicalMs 1, 0)

namespace Hlc

def seeded (actor : String) (lane : Option Nat) (wall : Nat) : Hlc :=
  { latest := ⟨wall, 0, actor⟩, actor, lane }

def stepTo (h : Hlc) (point : Nat × Nat) : Hlc :=
  { h with latest := ⟨point.1, point.2, h.actor⟩ }

def nextInLane (lane counter : Nat) : Nat :=
  let inBlock := counter - counter % lanes + lane
  if inBlock > counter then inBlock else inBlock + lanes

/-- The first stamp after `(physicalMs, counter)` that is this clock's to mint. -/
def nextAfter (h : Hlc) (physicalMs counter : Nat) : Nat × Nat :=
  match h.lane with
  | none => successor physicalMs counter
  | some lane =>
    let next := nextInLane lane counter
    if next ≤ u32Max then (physicalMs, next) else (saturatingAdd physicalMs 1, lane)

/-- Mints the next stamp at the wall clock reading `wall`. -/
def nowAt (h : Hlc) (wall : Nat) : HlcTimestamp × Hlc :=
  let next :=
    if wall > h.latest.physicalMs then (wall, h.lane.getD 0)
    else h.nextAfter h.latest.physicalMs h.latest.counter
  let h := h.stepTo next
  (h.latest, h)

/-- Takes note of a remote stamp, unless it lies too far in the future. -/
def witnessAt (h : Hlc) (other : HlcTimestamp) (wall : Nat) : Hlc :=
  if other.physicalMs > wall + maxDriftMs then h
  else if h.lane.isSome then
    if toLex (h.latest.physicalMs, h.latest.counter) < toLex (other.physicalMs, other.counter) then
      h.stepTo (other.physicalMs, other.counter)
    else h
  else
    let maxPhysical := max (max wall h.latest.physicalMs) other.physicalMs
    let next :=
      if maxPhysical = h.latest.physicalMs ∧ maxPhysical = other.physicalMs then
        successor maxPhysical (max h.latest.counter other.counter)
      else if maxPhysical = h.latest.physicalMs then successor maxPhysical h.latest.counter
      else if maxPhysical = other.physicalMs then successor maxPhysical other.counter
      else (maxPhysical, 0)
    h.stepTo next

theorem lt_nextInLane (lane counter : Nat) : counter < nextInLane lane counter := by
  have hmod : counter % lanes < lanes := Nat.mod_lt _ (by decide)
  unfold nextInLane
  dsimp only
  split <;> omega

theorem lt_nextAfter (h : Hlc) {physicalMs : Nat} (counter : Nat) (hroom : physicalMs < u64Max) :
    toLex (physicalMs, counter) < toLex (h.nextAfter physicalMs counter) ∧
      (h.nextAfter physicalMs counter).1 ≤ physicalMs + 1 := by
  have hstep : saturatingAdd physicalMs 1 = physicalMs + 1 := by
    simp only [saturatingAdd]
    omega
  rw [Prod.Lex.toLex_lt_toLex]
  cases hlane : h.lane with
  | none =>
    by_cases hfull : counter + 1 ≤ u32Max
    · simp [nextAfter, hlane, successor, hfull]
    · simp [nextAfter, hlane, successor, hfull, hstep]
  | some lane =>
    by_cases hfull : nextInLane lane counter ≤ u32Max
    · simp [nextAfter, hlane, hfull, lt_nextInLane]
    · simp [nextAfter, hlane, hfull, hstep]

/-- A minted timestamp lies above the latest one, at the wall or a millisecond past the latest. -/
theorem lt_nowAt (h : Hlc) (wall : Nat) (hroom : h.latest.physicalMs < u64Max) :
    h.latest.point < (h.nowAt wall).1.point ∧
      (h.nowAt wall).1.physicalMs ≤ max wall (h.latest.physicalMs + 1) := by
  unfold nowAt
  dsimp only
  split
  · rename_i hwall
    exact ⟨Prod.Lex.toLex_lt_toLex.mpr (.inl hwall), le_max_left _ _⟩
  · obtain ⟨hlt, hle⟩ := h.lt_nextAfter h.latest.counter hroom
    exact ⟨hlt, hle.trans (le_max_right _ _)⟩

/-- Witnessing never moves the clock back, and catches up with what is within the drift. -/
theorem witnessAt_latest {h : Hlc} (hlane : h.lane.isSome) (other : HlcTimestamp) (wall : Nat) :
    (h.witnessAt other wall).lane = h.lane ∧
      h.latest.point ≤ (h.witnessAt other wall).latest.point ∧
      (other.physicalMs ≤ wall + maxDriftMs →
        other.point ≤ (h.witnessAt other wall).latest.point) := by
  unfold witnessAt
  split
  · rename_i hfar
    exact ⟨rfl, le_rfl, fun hle => absurd hle (by omega)⟩
  · split
    · rename_i hlt
      exact ⟨rfl, hlt.le, fun _ => le_rfl⟩
    · rename_i hlt
      exact ⟨rfl, le_rfl, fun _ => not_lt.mp hlt⟩

end Hlc

end Hollow.Crdt
