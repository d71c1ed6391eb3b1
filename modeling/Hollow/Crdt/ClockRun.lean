import Hollow.Crdt.Hlc

/-! Whole runs of a device's clock. Every stamp it mints lies past all it minted or accepted before,
until the millisecond reaches the end of its type, and in the clock's own lane, so that two devices
of one identity never mint the same stamp. -/

namespace Hollow.Crdt

inductive ClockCall where
  | now (wall : Nat)
  | witness (other : HlcTimestamp) (wall : Nat)

def ClockCall.wall : ClockCall → Nat
  | .now wall => wall
  | .witness _ wall => wall

/-- A stamp that a clock minted, or that it was shown and did not reject. -/
inductive Sighting where
  | minted (t : HlcTimestamp)
  | accepted (t : HlcTimestamp)

def Sighting.stamp : Sighting → HlcTimestamp
  | .minted t => t
  | .accepted t => t

namespace Hlc

def call (h : Hlc) : ClockCall → Hlc × List Sighting
  | .now wall => ((h.nowAt wall).2, [.minted (h.nowAt wall).1])
  | .witness other wall =>
    (h.witnessAt other wall, if other.physicalMs ≤ wall + maxDriftMs then [.accepted other] else [])

def sightings : Hlc → List ClockCall → List Sighting
  | _, [] => []
  | h, c :: calls => (h.call c).2 ++ (h.call c).1.sightings calls

variable {h : Hlc} {lane : Nat}

variable {c : ClockCall} {t : HlcTimestamp} {calls : List ClockCall} {wall : Nat}

theorem now_of_minted (ht : .minted t ∈ (h.call c).2) : ∃ wall, t = (h.nowAt wall).1 := by
  cases c with
  | now wall => exact ⟨wall, by simpa [call] using ht⟩
  | witness other wall =>
    simp only [call] at ht
    split at ht <;> simp at ht

theorem call_lane (c : ClockCall) (hlane : h.lane = some lane) : (h.call c).1.lane = some lane := by
  cases c with
  | now wall => exact hlane
  | witness other wall =>
    have hsome : h.lane.isSome := by rw [hlane]; rfl
    exact (witnessAt_latest hsome other wall).1.trans hlane

theorem nextInLane_mod (hlt : lane < lanes) (counter : Nat) :
    nextInLane lane counter % lanes = lane := by
  have hblock : (counter - counter % lanes) % lanes = 0 :=
    Nat.mod_eq_zero_of_dvd (Nat.dvd_sub_mod counter)
  have hbase : (counter - counter % lanes + lane) % lanes = lane := by
    rw [Nat.add_mod, hblock, Nat.zero_add, Nat.mod_mod, Nat.mod_eq_of_lt hlt]
  unfold nextInLane
  dsimp only
  split
  · exact hbase
  · rw [Nat.add_mod_right, hbase]

theorem nowAt_counter_mod (hlane : h.lane = some lane) (hlt : lane < lanes) (wall : Nat) :
    (h.nowAt wall).1.counter % lanes = lane := by
  unfold nowAt
  dsimp only
  split
  · simp only [stepTo, hlane, Option.getD_some, Nat.mod_eq_of_lt hlt]
  · simp only [stepTo, nextAfter, hlane]
    split
    · exact nextInLane_mod hlt _
    · exact Nat.mod_eq_of_lt hlt

theorem counter_mod_of_minted (hlane : h.lane = some lane) (hlt : lane < lanes)
    (ht : .minted t ∈ h.sightings calls) : t.counter % lanes = lane := by
  induction calls generalizing h with
  | nil => simp [sightings] at ht
  | cons c calls ih =>
    rw [sightings, List.mem_append] at ht
    rcases ht with ht | ht
    · obtain ⟨wall, rfl⟩ := now_of_minted ht
      exact nowAt_counter_mod hlane hlt wall
    · exact ih (call_lane c hlane) ht

/-- Wherever the run leads, the clock stays short of its end: each mint can take it one millisecond
past the last stamp or the wall clock, and a remote stamp no further than the drift bound. -/
structure HasRoomFor (h : Hlc) (calls : List ClockCall) : Prop where
  latest : h.latest.physicalMs + calls.length ≤ u64Max
  walls : ∀ c ∈ calls, c.wall + maxDriftMs + calls.length ≤ u64Max

theorem HasRoomFor.call (hroom : h.HasRoomFor (c :: calls)) (hlane : h.lane.isSome) :
    (h.call c).1.HasRoomFor calls := by
  have hlatest := hroom.latest
  have hwall := hroom.walls c List.mem_cons_self
  rw [List.length_cons] at hlatest hwall
  refine ⟨?_, fun c' hc' => ?_⟩
  · cases c with
    | now wall =>
      have hle := (h.lt_nowAt wall (by omega)).2
      change (h.nowAt wall).1.physicalMs + calls.length ≤ u64Max
      change wall + maxDriftMs + (calls.length + 1) ≤ u64Max at hwall
      omega
    | witness other wall =>
      change (h.witnessAt other wall).latest.physicalMs + calls.length ≤ u64Max
      change wall + maxDriftMs + (calls.length + 1) ≤ u64Max at hwall
      unfold witnessAt
      rw [if_pos hlane]
      split
      · omega
      · split
        · simp only [stepTo]
          omega
        · omega
  · have hc := hroom.walls c' (List.mem_cons_of_mem c hc')
    rw [List.length_cons] at hc
    omega

theorem point_le_call (hlane : h.lane.isSome) (c : ClockCall) {a : Sighting}
    (ha : a ∈ (h.call c).2) : a.stamp.point ≤ (h.call c).1.latest.point := by
  cases c with
  | now wall =>
    simp only [call, List.mem_singleton] at ha
    exact ha ▸ le_rfl
  | witness other wall =>
    simp only [call] at ha ⊢
    split at ha
    · rename_i hnear
      rw [List.mem_singleton.mp ha]
      exact (witnessAt_latest hlane other wall).2.2 hnear
    · cases ha

theorem latest_le_call (hroom : h.HasRoomFor (c :: calls)) (hlane : h.lane.isSome) :
    h.latest.point ≤ (h.call c).1.latest.point := by
  cases c with
  | now wall =>
    have hlatest := hroom.latest
    rw [List.length_cons] at hlatest
    exact (h.lt_nowAt wall (by omega)).1.le
  | witness other wall => exact (witnessAt_latest hlane other wall).2.1

theorem latest_lt_of_minted (hlane : h.lane.isSome) (hroom : h.HasRoomFor calls)
    (ht : .minted t ∈ h.sightings calls) : h.latest.point < t.point := by
  induction calls generalizing h with
  | nil => simp [sightings] at ht
  | cons c calls ih =>
    obtain ⟨lane, hsome⟩ := Option.isSome_iff_exists.mp hlane
    rw [sightings, List.mem_append] at ht
    rcases ht with ht | ht
    · obtain ⟨wall, rfl⟩ := now_of_minted ht
      have hlatest := hroom.latest
      rw [List.length_cons] at hlatest
      exact (h.lt_nowAt wall (by omega)).1
    · have hlane' : (h.call c).1.lane.isSome := by rw [call_lane c hsome]; rfl
      exact (latest_le_call hroom hlane).trans_lt (ih hlane' (hroom.call hlane) ht)

/-- In a run, what is minted is later than everything sighted before it. -/
def Climbs (sightings : List Sighting) : Prop :=
  sightings.Pairwise fun a b => ∀ t, b = .minted t → a.stamp < t

/-- While the clock has room, what it mints lies above all it minted or witnessed before. -/
theorem climbs_sightings (hlane : h.lane.isSome) (hroom : h.HasRoomFor calls) :
    Climbs (h.sightings calls) := by
  induction calls generalizing h with
  | nil => exact List.Pairwise.nil
  | cons c calls ih =>
    obtain ⟨lane, hsome⟩ := Option.isSome_iff_exists.mp hlane
    have hlane' : (h.call c).1.lane.isSome := by rw [call_lane c hsome]; rfl
    have hroom' := hroom.call hlane
    refine List.pairwise_append.mpr ⟨?_, ih hlane' hroom', ?_⟩
    · -- a call sights at most one stamp
      cases c with
      | now wall => exact List.pairwise_singleton _ _
      | witness other wall =>
        simp only [call]
        split
        · exact List.pairwise_singleton _ _
        · exact List.Pairwise.nil
    · rintro a ha b hb t rfl
      have hbefore := point_le_call hlane c ha
      have hafter := latest_lt_of_minted hlane' hroom' hb
      exact HlcTimestamp.lt_of_point_lt (hbefore.trans_lt hafter)

/-- A run of fewer calls than it takes to reach the end of the millisecond climbs, every stamp it
mints is in the clock's lane, and no clock of another lane ever mints one of them, whatever the two
clocks are shown. -/
theorem minted_climb_in_lane {calls : List ClockCall} (hlane : h.lane = some lane)
    (hlt : lane < lanes) (hlatest : h.latest.physicalMs < 2 ^ 63)
    (hwalls : ∀ c ∈ calls, c.wall < 2 ^ 63) :
    (calls.length + maxDriftMs ≤ 2 ^ 63 → Climbs (h.sightings calls)) ∧
    (∀ t, .minted t ∈ h.sightings calls → t.counter % lanes = lane) ∧
    ∀ (sibling : Hlc) (lane' : Nat) (calls' : List ClockCall), sibling.lane = some lane' →
      lane' < lanes → lane' ≠ lane → ∀ t t', .minted t ∈ h.sightings calls →
        .minted t' ∈ sibling.sightings calls' → t ≠ t' := by
  refine ⟨fun hlen => ?_, fun t ht => counter_mod_of_minted hlane hlt ht, ?_⟩
  · refine climbs_sightings (by rw [hlane]; rfl) ⟨?_, fun c hc => ?_⟩
    · unfold u64Max
      omega
    · have hwall := hwalls c hc
      unfold u64Max
      omega
  · rintro sibling lane' calls' hlane' hlt' hne t t' ht ht' rfl
    have hmine := counter_mod_of_minted hlane hlt ht
    have htheirs := counter_mod_of_minted hlane' hlt' ht'
    exact hne (htheirs.symm.trans hmine)

theorem minted_climb_in_lane_seeded :
    Climbs ((seeded "o" (some 5) 7).sightings
      [.now 7, .witness ⟨9, 4, "p"⟩ 8, .now 8, .witness ⟨10 ^ 9, 0, "p"⟩ 8, .now 12]) :=
  (minted_climb_in_lane (show (seeded "o" (some 5) 7).lane = some 5 from rfl) (by decide)
    (by decide) (by decide)).1 (by decide)

structure InRange (h : Hlc) : Prop where
  physicalMs : h.latest.physicalMs ≤ u64Max
  counter : h.latest.counter ≤ u32Max
  lane : h.lane.getD 0 < lanes

theorem InRange.nowAt (hr : h.InRange) (hwall : wall ≤ u64Max) : (h.nowAt wall).2.InRange := by
  have hlanes : lanes ≤ u32Max := by decide
  have hlt := hr.lane
  have hend : saturatingAdd h.latest.physicalMs 1 ≤ u64Max := min_le_right _ _
  unfold Hlc.nowAt
  dsimp only
  split
  · exact ⟨hwall, hlt.le.trans hlanes, hlt⟩
  · refine ⟨?_, ?_, hlt⟩
    · simp only [stepTo, nextAfter, successor]
      cases h.lane <;> dsimp only <;> split <;> first | exact hr.physicalMs | exact hend
    · cases hl : h.lane with
      | none =>
        simp only [stepTo, nextAfter, successor, hl]
        split
        · assumption
        · exact Nat.zero_le _
      | some lane =>
        rw [hl, Option.getD_some] at hlt
        simp only [stepTo, nextAfter, hl]
        split
        · assumption
        · exact hlt.le.trans hlanes

theorem length_sightings_replicate_now (wall n : Nat) :
    (h.sightings (List.replicate n (.now wall))).length = n := by
  induction n generalizing h with
  | zero => rfl
  | succ n ih => rw [List.replicate_succ, sightings, List.length_append, ih]; exact Nat.add_comm 1 n

theorem inRange_sightings_replicate_now (hwall : wall ≤ u64Max) (hr : h.InRange) {n : Nat}
    {a : Sighting} (ha : a ∈ h.sightings (List.replicate n (.now wall))) :
    ∃ t, a = .minted t ∧ t.physicalMs ≤ u64Max ∧ t.counter ≤ u32Max := by
  induction n generalizing h with
  | zero => cases ha
  | succ n ih =>
    rw [List.replicate_succ, sightings, List.mem_append] at ha
    rcases ha with ha | ha
    · have hr' := hr.nowAt hwall
      exact ⟨(h.nowAt wall).1, List.mem_singleton.mp ha, hr'.physicalMs, hr'.counter⟩
    · exact ih (hr.nowAt hwall) ha

theorem actor_sightings_replicate_now {n : Nat} {a : Sighting}
    (ha : a ∈ h.sightings (List.replicate n (.now wall))) : a.stamp.actor = h.actor := by
  induction n generalizing h with
  | zero => cases ha
  | succ n ih =>
    rw [List.replicate_succ, sightings, List.mem_append] at ha
    rcases ha with ha | ha
    · rw [List.mem_singleton.mp ha]
      rfl
    · exact ih (h := (h.nowAt wall).2) ha

theorem length_le_of_nodup_of_le {points : List (Nat × Nat)} {a b : Nat} (hnodup : points.Nodup)
    (hle : ∀ p ∈ points, p.1 ≤ a ∧ p.2 ≤ b) : points.length ≤ (a + 1) * (b + 1) := by
  have hsub : points.toFinset ⊆ Finset.range (a + 1) ×ˢ Finset.range (b + 1) := by
    intro p hp
    obtain ⟨ha, hb⟩ := hle p (List.mem_toFinset.mp hp)
    rw [Finset.mem_product, Finset.mem_range, Finset.mem_range]
    exact ⟨Nat.lt_add_one_of_le ha, Nat.lt_add_one_of_le hb⟩
  have hcard := Finset.card_le_card hsub
  rwa [List.toFinset_card_of_nodup hnodup, Finset.card_product, Finset.card_range,
    Finset.card_range] at hcard

/-- A clock asked often enough at one wall time runs out of timestamps and repeats. -/
theorem not_climbs_sightings_replicate_now {n : Nat} (hwall : wall ≤ u64Max) (hr : h.InRange)
    (hn : (u64Max + 1) * (u32Max + 1) < n) :
    ¬ Climbs (h.sightings (List.replicate n (.now wall))) := by
  intro hclimbs
  set l := h.sightings (List.replicate n (.now wall)) with hl
  have hminted : ∀ a ∈ l, ∃ t, a = .minted t ∧ t.physicalMs ≤ u64Max ∧ t.counter ≤ u32Max :=
    fun a ha => inRange_sightings_replicate_now hwall hr (hl ▸ ha)
  let point (a : Sighting) : Nat × Nat := (a.stamp.physicalMs, a.stamp.counter)
  have hactor : ∀ a ∈ l, a.stamp.actor = h.actor := by
    intro a ha
    exact actor_sightings_replicate_now (hl ▸ ha)
  have hnodup : (l.map point).Nodup := by
    refine List.pairwise_map.mpr (List.Pairwise.imp_of_mem ?_ hclimbs)
    intro a b ha hb hlt heq
    obtain ⟨t, rfl, -⟩ := hminted b hb
    have hsame : a.stamp = t := by
      obtain ⟨hp, hc⟩ := Prod.mk.inj heq
      have hact := (hactor a ha).trans (hactor _ hb).symm
      cases hs : a.stamp
      cases t
      simp_all [Sighting.stamp]
    exact lt_irrefl t (hsame ▸ hlt t rfl)
  have hbound : ∀ p ∈ l.map point, p.1 ≤ u64Max ∧ p.2 ≤ u32Max := by
    intro p hp
    obtain ⟨a, ha, hap⟩ := List.mem_map.mp hp
    obtain ⟨t, rfl, ht⟩ := hminted a ha
    exact hap ▸ ht
  have hlen := length_le_of_nodup_of_le hnodup hbound
  rw [List.length_map, hl, length_sightings_replicate_now] at hlen
  omega

/-- Asked for a stamp often enough at one wall clock reading, a clock runs into the end of the
millisecond and mints a stamp no later than one before. -/
theorem not_climbs_of_endless_run :
    let calls := List.replicate (2 ^ 96 + 1) (ClockCall.now 0)
    (∀ c ∈ calls, c.wall < 2 ^ 63) ∧ ¬ Climbs ((seeded "o" (some 0) 0).sightings calls) := by
  refine ⟨fun c hc => ?_, ?_⟩
  · rw [List.eq_of_mem_replicate hc]
    decide
  · exact not_climbs_sightings_replicate_now (by decide) ⟨by decide, by decide, by decide⟩
      (by unfold u64Max u32Max; norm_num)

end Hlc

end Hollow.Crdt
