import Hollow.Mls.PastRows

/-! What memory and disk hold of past epochs between saves: what is on disk together with what the
next save will write is what memory holds. One lemma for each step that can change it. -/

namespace Hollow.Mls.Past

open Dict StableSort PastEpochs

variable {unpack : Bytes → Option (List (Bytes × Bytes))}

section Window

variable {ring : List PastEpoch} {new p : PastEpoch} {epochs : List Nat} {e : Nat}

/-- The ring of a group with a new past epoch in it, before the window is cut. -/
def keepSorted (ring : List PastEpoch) (new : PastEpoch) : List PastEpoch :=
  sortBy (·.epoch) (ring.eraseP (·.epoch = new.epoch) ++ [new])

section Distinct

variable (h : (ring.map (·.epoch)).Nodup)
include h

theorem mem_eraseP_epoch : p ∈ ring.eraseP (·.epoch = e) ↔ p ∈ ring ∧ p.epoch ≠ e := by
  induction ring with
  | nil => simp
  | cons q ring ih =>
    obtain ⟨hnot, hnodup⟩ := List.nodup_cons.mp h
    by_cases hq : q.epoch = e
    · rw [List.eraseP_cons_of_pos (by simpa using hq)]
      constructor
      · intro hp
        refine ⟨List.mem_cons_of_mem q hp, fun heq => hnot ?_⟩
        exact List.mem_map.mpr ⟨p, hp, heq.trans hq.symm⟩
      · rintro ⟨hp, hne⟩
        exact (List.mem_cons.mp hp).resolve_left fun heq => hne (heq ▸ hq)
    · rw [List.eraseP_cons_of_neg (by simpa using hq), List.mem_cons, List.mem_cons, ih hnodup]
      constructor
      · rintro (rfl | ⟨hp, hne⟩)
        · exact ⟨.inl rfl, hq⟩
        · exact ⟨.inr hp, hne⟩
      · rintro ⟨rfl | hp, hne⟩
        · exact .inl rfl
        · exact .inr ⟨hp, hne⟩

theorem mem_keepSorted : p ∈ keepSorted ring new ↔ p ∈ ring ∧ p.epoch ≠ new.epoch ∨ p = new := by
  rw [keepSorted, mem_sortBy, List.mem_append, mem_eraseP_epoch h, List.mem_singleton]

theorem mem_epochs_keepSorted :
    e ∈ (keepSorted ring new).map (·.epoch) ↔ e ∈ ring.map (·.epoch) ∨ e = new.epoch := by
  simp only [List.mem_map, mem_keepSorted h]
  constructor
  · rintro ⟨p, ⟨hp, _⟩ | rfl, rfl⟩
    · exact .inl ⟨p, hp, rfl⟩
    · exact .inr rfl
  · rintro (⟨p, hp, rfl⟩ | rfl)
    · by_cases hne : p.epoch = new.epoch
      · exact ⟨new, .inr rfl, hne.symm⟩
      · exact ⟨p, .inl ⟨hp, hne⟩, rfl⟩
    · exact ⟨new, .inr rfl, rfl⟩

theorem epochs_keepSorted_ordered : ((keepSorted ring new).map (·.epoch)).Pairwise (· < ·) := by
  have hnodup : ((keepSorted ring new).map (·.epoch)).Nodup := by
    rw [keepSorted, (sortBy_perm.map PastEpoch.epoch).nodup_iff, List.map_append, List.nodup_append]
    refine ⟨h.sublist (List.eraseP_sublist.map _), List.nodup_singleton _, ?_⟩
    intro a ha b hb
    obtain ⟨p, hp, rfl⟩ := List.mem_map.mp ha
    rw [List.map_singleton, List.mem_singleton] at hb
    exact hb ▸ ((mem_eraseP_epoch h).mp hp).2
  have hsorted : ((keepSorted ring new).map (·.epoch)).Pairwise (· ≤ ·) :=
    List.pairwise_map.mpr sorted_sortBy
  exact (hsorted.and hnodup).imp fun h => lt_of_le_of_ne h.1 h.2

end Distinct

theorem mem_window (h : epochs.Pairwise (· < ·)) {n : Nat} (he : e ∈ epochs) :
    e ∈ epochs.drop (epochs.length - n) ∨
      (epochs.drop (epochs.length - n)).length = n ∧
        ∀ a ∈ epochs.drop (epochs.length - n), e < a := by
  rw [← List.take_append_drop (epochs.length - n) epochs] at h he
  rcases List.mem_append.mp he with htake | hdrop
  · refine .inr ⟨?_, fun a ha => (List.pairwise_append.mp h).2.2 e htake a ha⟩
    have hpos := List.length_pos_of_mem htake
    rw [List.length_take] at hpos
    rw [List.length_drop]
    omega
  · exact .inl hdrop

theorem mem_drop_of_le (h : epochs.Pairwise (· < ·)) {n a : Nat} (ha : a ∈ epochs.drop n)
    (he : e ∈ epochs) (hle : a ≤ e) : e ∈ epochs.drop n ∧ e ∉ epochs.take n := by
  rw [← List.take_append_drop n epochs] at h he
  have hnot : e ∉ epochs.take n := fun htake =>
    absurd ((List.pairwise_append.mp h).2.2 e htake a ha) (not_lt.mpr hle)
  exact ⟨(List.mem_append.mp he).resolve_left hnot, hnot⟩

end Window

/-- The ring of a group: at most the newest three of the epochs kept, oldest first, below the epoch
the group is at. -/
structure Windowed (unpack : Bytes → Option (List (Bytes × Bytes))) (ring : List PastEpoch)
    (current : Nat) (kept : List Nat) : Prop where
  ordered : (ring.map (·.epoch)).Pairwise (· < ·)
  window : (ring.map (·.epoch)).length ≤ maxPastEpochs
  below : ∀ e ∈ ring.map (·.epoch), e < current
  newest : ∀ e ∈ kept, e ∈ ring.map (·.epoch) ∨
    (ring.map (·.epoch)).length = maxPastEpochs ∧ ∀ a ∈ ring.map (·.epoch), e < a
  sound : ∀ p ∈ ring, p.Sound unpack

structure Wf (unpack : Bytes → Option (List (Bytes × Bytes))) (past : PastEpochs)
    (current : String → Nat) (kept : String → List Nat) : Prop where
  dormant : past.dormant = ∅
  group : ∀ g, Windowed unpack (past.ring g) (current g) (kept g)

/-- The disk has the packed row of a past epoch and the rows laid over it. -/
def OnDisk (disk : Disk) (scope : Scope) (p : PastEpoch) : Prop :=
  (disk.rowsOf scope).lookup packedKey = some p.packed ∧
    ∀ k ≠ packedKey, (disk.rowsOf scope).lookup k = p.overrides.lookup k

/-- What the next save has to write of a group is marked. -/
structure TrackedAt (past : PastEpochs) (disk : Disk) (g : String) : Prop where
  saved : ∀ p ∈ past.ring g, p.packedUnsaved = false →
    (g, p.epoch) ∉ past.cleared ∧ OnDisk disk (g, p.epoch) p
  fresh : ∀ p ∈ past.ring g, p.packedUnsaved = true →
    (g, p.epoch) ∈ past.cleared ∨ disk.lookup (g, p.epoch) = none
  gone : ∀ e, e ∉ past.epochs g → (g, e) ∈ past.cleared ∨ disk.lookup (g, e) = none

abbrev Tracked (past : PastEpochs) (disk : Disk) : Prop := ∀ g, TrackedAt past disk g

/-- The disk has just what memory holds. -/
structure Mirrors (unpack : Bytes → Option (List (Bytes × Bytes))) (past : PastEpochs)
    (disk : Disk) : Prop where
  held : ∀ g, ∀ p ∈ past.ring g, OnDisk disk (g, p.epoch) p ∧
    ∀ k, p.rows unpack k = (p.stored unpack).lookup k
  gone : ∀ g e, e ∉ past.epochs g → disk.lookup (g, e) = none

section Ring

variable {ring : List PastEpoch} {current : Nat} {kept : List Nat}

theorem windowed_nil : Windowed unpack [] current [] :=
  ⟨List.Pairwise.nil, Nat.zero_le _, by simp, by simp, by simp⟩

theorem Windowed.nodup (h : Windowed unpack ring current kept) : (ring.map (·.epoch)).Nodup :=
  h.ordered.imp ne_of_lt

theorem Windowed.map (h : Windowed unpack ring current kept) {f : PastEpoch → PastEpoch}
    (hepoch : ∀ p, (f p).epoch = p.epoch)
    (hsound : ∀ p, p.Sound unpack → (f p).Sound unpack) :
    Windowed unpack (ring.map f) current kept := by
  have hepochs : (ring.map f).map (·.epoch) = ring.map (·.epoch) := by
    rw [List.map_map]
    exact List.map_congr_left fun p _ => hepoch p
  refine ⟨hepochs ▸ h.ordered, hepochs ▸ h.window, hepochs ▸ h.below, hepochs ▸ h.newest,
    fun q hq => ?_⟩
  obtain ⟨p, hp, rfl⟩ := List.mem_map.mp hq
  exact hsound p (h.sound p hp)

theorem Windowed.advance (h : Windowed unpack ring current kept) {at_ : Nat}
    (hle : current ≤ at_) : Windowed unpack ring at_ kept :=
  { h with below := fun e he => (h.below e he).trans_le hle }

end Ring

section Steps

variable {past : PastEpochs} {disk : Disk} {current : String → Nat} {kept : String → List Nat}
  {g g' : String} {now : Nat}

/-- A group stays tracked when what its epochs have on disk and whether they are cleared stays. -/
theorem TrackedAt.map {past' : PastEpochs} (h : TrackedAt past disk g) {f : PastEpoch → PastEpoch}
    (hring : past'.ring g = (past.ring g).map f)
    (hcleared : ∀ e, (g, e) ∈ past'.cleared ↔ (g, e) ∈ past.cleared)
    (hf : ∀ p, (f p).epoch = p.epoch ∧ (f p).packed = p.packed ∧
      (f p).packedUnsaved = p.packedUnsaved ∧ (f p).overrides = p.overrides) :
    TrackedAt past' disk g := by
  refine ⟨fun q hq hs => ?_, fun q hq hs => ?_, fun e he => ?_⟩
  · obtain ⟨p, hp, rfl⟩ := List.mem_map.mp (hring ▸ hq)
    obtain ⟨hepoch, hpacked, hunsaved, hover⟩ := hf p
    rw [hepoch, hcleared, OnDisk, hpacked, hover]
    exact h.saved p hp (hunsaved ▸ hs)
  · obtain ⟨p, hp, rfl⟩ := List.mem_map.mp (hring ▸ hq)
    obtain ⟨hepoch, -, hunsaved, -⟩ := hf p
    rw [hepoch, hcleared]
    exact h.fresh p hp (hunsaved ▸ hs)
  · rw [hcleared]
    refine h.gone e fun hmem => he ?_
    obtain ⟨p, hp, rfl⟩ := List.mem_map.mp hmem
    rw [epochs, hring, ← (hf p).1]
    exact List.mem_map_of_mem (List.mem_map_of_mem hp)

theorem TrackedAt.congr {past' : PastEpochs} (h : TrackedAt past disk g)
    (hring : past'.ring g = past.ring g)
    (hcleared : ∀ e, (g, e) ∈ past'.cleared ↔ (g, e) ∈ past.cleared) : TrackedAt past' disk g :=
  h.map (hring.trans (List.map_id _).symm) hcleared fun _ => ⟨rfl, rfl, rfl, rfl⟩

theorem ring_insert_self (ring : List PastEpoch) :
    ({ past with held := past.held.insert g ring } : PastEpochs).ring g = ring := by
  rw [PastEpochs.ring, AList.lookup_insert]
  rfl

theorem ring_insert_ne (ring : List PastEpoch) (h : g' ≠ g) :
    ({ past with held := past.held.insert g ring } : PastEpochs).ring g' = past.ring g' := by
  rw [PastEpochs.ring, AList.lookup_insert_ne h]
  rfl

/-! A late frame. -/

theorem ring_open (epoch : Nat) (writes : List (Bytes × Option Bytes)) :
    ∃ f : PastEpoch → PastEpoch,
      (past.open_ unpack g epoch now writes).ring g' = (past.ring g').map f ∧
      ∀ p, f p = p ∨ f p = p.open_ unpack now writes := by
  rw [PastEpochs.open_]
  split_ifs with he
  · by_cases hg : g' = g
    · subst hg
      refine ⟨_, ring_insert_self _, fun p => ?_⟩
      split_ifs
      · exact .inr rfl
      · exact .inl rfl
    · exact ⟨id, (ring_insert_ne _ hg).trans (List.map_id _).symm, fun _ => .inl rfl⟩
  · exact ⟨id, (List.map_id _).symm, fun _ => .inl rfl⟩

theorem Wf.open_ (h : Wf unpack past current kept) (epoch : Nat)
    {writes : List (Bytes × Option Bytes)}
    (hwrites : ∀ row ∈ writes, row.1 ≠ packedKey ∧ row.2 ≠ some []) :
    Wf unpack (past.open_ unpack g epoch now writes) current kept := by
  refine ⟨?_, fun g' => ?_⟩
  · rw [PastEpochs.open_]
    split_ifs <;> exact h.dormant
  · obtain ⟨f, hring, hf⟩ := ring_open epoch writes
    rw [hring]
    refine (h.group g').map (fun p => ?_) fun p hp => ?_
    · rcases hf p with heq | heq <;> rw [heq]
      rfl
    · rcases hf p with heq | heq <;> rw [heq]
      · exact hp
      · exact hp.open_ hwrites

theorem Tracked.open_ (h : Tracked past disk) (epoch : Nat) (writes : List (Bytes × Option Bytes)) :
    Tracked (past.open_ unpack g epoch now writes) disk := by
  intro g'
  obtain ⟨f, hring, hf⟩ := ring_open epoch writes
  refine (h g').map hring (fun e => ?_) fun p => ?_
  · rw [PastEpochs.open_]
    split_ifs <;> rfl
  · rcases hf p with heq | heq <;> rw [heq] <;> exact ⟨rfl, rfl, rfl, rfl⟩

/-! A group that is dropped. -/

theorem ring_dropGroup_self : (past.dropGroup g).ring g = [] := by
  rw [PastEpochs.ring, dropGroup, AList.lookup_erase]
  rfl

theorem ring_dropGroup_ne (h : g' ≠ g) : (past.dropGroup g).ring g' = past.ring g' := by
  rw [PastEpochs.ring, dropGroup, AList.lookup_erase_ne h]
  rfl

theorem mem_cleared_dropGroup {e : Nat} (h : past.dormant = ∅) :
    (g', e) ∈ (past.dropGroup g).cleared ↔
      (g', e) ∈ past.cleared ∨ g' = g ∧ e ∈ past.epochs g := by
  simp [dropGroup, h, eq_comm, and_comm]

theorem Wf.dropGroup (h : Wf unpack past current kept) (g : String) :
    Wf unpack (past.dropGroup g) (Function.update current g 0) (Function.update kept g []) := by
  refine ⟨?_, fun g' => ?_⟩
  · rw [PastEpochs.dropGroup, h.dormant]
    rfl
  · by_cases hg : g' = g
    · subst hg
      rw [ring_dropGroup_self, Function.update_self, Function.update_self]
      exact windowed_nil
    · rw [ring_dropGroup_ne hg, Function.update_of_ne hg, Function.update_of_ne hg]
      exact h.group g'

theorem Tracked.dropGroup (h : Tracked past disk) (hdormant : past.dormant = ∅) (g : String) :
    Tracked (past.dropGroup g) disk := by
  intro g'
  by_cases hg : g' = g
  · subst hg
    refine ⟨by simp [ring_dropGroup_self], by simp [ring_dropGroup_self], fun e _ => ?_⟩
    rw [mem_cleared_dropGroup hdormant]
    by_cases hmem : e ∈ past.epochs g'
    · exact .inl (.inr ⟨rfl, hmem⟩)
    · exact ((h g').gone e hmem).imp_left .inl
  · exact (h g').congr (ring_dropGroup_ne hg) fun e => by simp [mem_cleared_dropGroup hdormant, hg]

/-! A capture that is kept. -/

def Capture.pastEpoch (c : Capture) : PastEpoch :=
  ⟨c.epoch, c.packed, true, extend ∅ c.secrets, none⟩

theorem Capture.sound_pastEpoch {c : Capture} (hc : ∀ row ∈ c.secrets, row.1 ≠ packedKey) :
    c.pastEpoch.Sound unpack where
  packed := lookup_extend_of_not_mem fun v hv => hc _ hv rfl
  opened _ ho := by cases ho

section Keep

variable {c : Capture} {at_ : Nat}

def keepRing (ring : List PastEpoch) (c : Capture) : List PastEpoch :=
  (keepSorted ring c.pastEpoch).drop ((keepSorted ring c.pastEpoch).length - maxPastEpochs)

def keepEpochs (ring : List PastEpoch) (c : Capture) : List Nat :=
  (keepSorted ring c.pastEpoch).map (·.epoch)

theorem epochs_keepRing (ring : List PastEpoch) (c : Capture) : (keepRing ring c).map (·.epoch) =
    (keepEpochs ring c).drop ((keepEpochs ring c).length - maxPastEpochs) := by
  rw [keepRing, keepEpochs, List.map_drop, List.length_map]

theorem ring_keep_self (h : c.epoch < at_) :
    (past.keep g (some c) at_).ring g = keepRing (past.ring g) c := by
  rw [PastEpochs.keep, Option.filter_some_pos (by simpa using h)]
  exact ring_insert_self _

theorem ring_keep_ne (capture : Option Capture) (hg : g' ≠ g) :
    (past.keep g capture at_).ring g' = past.ring g' := by
  rw [PastEpochs.keep]
  split
  · rfl
  · exact ring_insert_ne _ hg

theorem mem_cleared_keep (h : c.epoch < at_) {e : Nat} :
    (g', e) ∈ (past.keep g (some c) at_).cleared ↔ (g', e) ∈ past.cleared ∨
      g' = g ∧ (e = c.epoch ∧ e ∈ past.epochs g ∨
        e ∈ (keepEpochs (past.ring g) c).take
          ((keepEpochs (past.ring g) c).length - maxPastEpochs)) := by
  have hgone : e ∈ ((past.ring g).find? (·.epoch = c.epoch)).toList.map (·.epoch) ↔
      e = c.epoch ∧ e ∈ past.epochs g := by
    cases hfind : (past.ring g).find? (·.epoch = c.epoch) with
    | none =>
      refine ⟨fun he => absurd he List.not_mem_nil, fun ⟨he, hmem⟩ => ?_⟩
      obtain ⟨p, hp, rfl⟩ := List.mem_map.mp hmem
      exact absurd he (by simpa using List.find?_eq_none.mp hfind p hp)
    | some p =>
      have hp : p.epoch = c.epoch := by simpa using List.find?_some hfind
      simp only [Option.toList_some, List.map_singleton, List.mem_singleton, hp]
      refine ⟨fun he => ⟨he, ?_⟩, fun he => he.1⟩
      exact he ▸ hp ▸ List.mem_map_of_mem (List.mem_of_find?_eq_some hfind)
  have hpair : ∀ l : List Nat, (g', e) ∈ l.map (fun epoch => (g, epoch)) ↔ g' = g ∧ e ∈ l := by
    simp [eq_comm, and_comm]
  have hcleared : (past.keep g (some c) at_).cleared = past.cleared ++
      (((past.ring g).find? (·.epoch = c.epoch)).toList.map (·.epoch) ++
        ((keepSorted (past.ring g) c.pastEpoch).take
          ((keepSorted (past.ring g) c.pastEpoch).length - maxPastEpochs)).map
            (·.epoch)).map fun epoch => (g, epoch) := by
    rw [PastEpochs.keep, Option.filter_some_pos (by simpa using h)]
    rfl
  rw [hcleared, List.mem_append, hpair, List.mem_append, hgone, keepEpochs, List.map_take,
    List.length_map]

theorem Wf.advance (h : Wf unpack past current kept) (at_ : Nat) :
    Wf unpack past (Function.update current g (max (current g) at_)) kept := by
  refine ⟨h.dormant, fun g' => (h.group g').advance ?_⟩
  by_cases hg : g' = g
  · subst hg
    rw [Function.update_self]
    exact Nat.le_max_left _ _
  · rw [Function.update_of_ne hg]

section Windowed

variable {ring : List PastEpoch} {at_ : Nat} {kept : List Nat}
  (h : Windowed unpack ring at_ kept)

include h

theorem Windowed.mem_keepEpochs {e : Nat} :
    e ∈ keepEpochs ring c ↔ e ∈ ring.map (·.epoch) ∨ e = c.epoch :=
  mem_epochs_keepSorted h.nodup

theorem Windowed.keepEpochs_ordered : (keepEpochs ring c).Pairwise (· < ·) :=
  epochs_keepSorted_ordered h.nodup

/-- A kept epoch that is not in the ring was pushed out by newer ones that fill it. -/
theorem Windowed.newest_keep {e : Nat} (he : e ∈ kept ∨ e = c.epoch) :
    e ∈ (keepRing ring c).map (·.epoch) ∨
      ((keepRing ring c).map (·.epoch)).length = maxPastEpochs ∧
        ∀ a ∈ (keepRing ring c).map (·.epoch), e < a := by
  rw [epochs_keepRing]
  have hordered : (keepEpochs ring c).Pairwise (· < ·) := h.keepEpochs_ordered
  by_cases hmem : e ∈ keepEpochs ring c
  · exact mem_window hordered hmem
  · rw [h.mem_keepEpochs, not_or] at hmem
    obtain ⟨hfull, holder⟩ := (h.newest e (he.resolve_right hmem.2)).resolve_left hmem.1
    have hold : ring.map (·.epoch) ⊆ keepEpochs ring c := fun a ha => h.mem_keepEpochs.mpr (.inl ha)
    have hlength := (h.nodup.subperm hold).length_le
    have hwindow : ((keepEpochs ring c).drop
        ((keepEpochs ring c).length - maxPastEpochs)).length = maxPastEpochs := by
      rw [List.length_drop]
      omega
    refine .inr ⟨hwindow, fun a ha => ?_⟩
    rcases h.mem_keepEpochs.mp (List.mem_of_mem_drop ha) with ha' | rfl
    · exact holder a ha'
    · by_contra hle
      -- then the new epoch is the oldest of all, and the window has no room for it
      have hsmall : ∀ b ∈ ring.map (·.epoch), c.epoch < b := fun b hb =>
        lt_of_le_of_lt (not_lt.mp hle) (holder b hb)
      have hsubset : c.epoch :: ring.map (·.epoch) ⊆ (keepEpochs ring c).drop
          ((keepEpochs ring c).length - maxPastEpochs) := by
        refine List.cons_subset.mpr ⟨ha, fun b hb => ?_⟩
        exact (mem_drop_of_le hordered ha (hold hb) (hsmall b hb).le).1
      have hnodup : (c.epoch :: ring.map (·.epoch)).Nodup :=
        List.nodup_cons.mpr ⟨fun hc => lt_irrefl _ (hsmall _ hc), h.nodup⟩
      have hcount := (hnodup.subperm hsubset).length_le
      rw [hwindow, List.length_cons, hfull] at hcount
      exact absurd hcount (Nat.not_succ_le_self _)

/-- The window of a group moves on with a new past epoch. -/
theorem Windowed.keep {current : Nat} (hlt : c.epoch < current)
    (hc : ∀ row ∈ c.secrets, row.1 ≠ packedKey) :
    Windowed unpack (keepRing ring c) (max at_ current) (kept ++ [c.epoch]) where
  ordered := by
    rw [epochs_keepRing]
    exact h.keepEpochs_ordered.sublist (List.drop_sublist _ _)
  window := by
    rw [epochs_keepRing, List.length_drop]
    omega
  below e he := by
    rw [epochs_keepRing] at he
    rcases h.mem_keepEpochs.mp (List.mem_of_mem_drop he) with he | rfl
    · exact (h.below e he).trans_le (Nat.le_max_left _ _)
    · exact hlt.trans_le (Nat.le_max_right _ _)
  newest e he := h.newest_keep ((List.mem_append.mp he).imp_right List.mem_singleton.mp)
  sound p hp := by
    rcases (mem_keepSorted h.nodup).mp (List.mem_of_mem_drop hp) with ⟨hp, _⟩ | rfl
    · exact h.sound p hp
    · exact Capture.sound_pastEpoch hc

end Windowed

theorem Wf.keep (h : Wf unpack past current kept) (hlt : c.epoch < at_)
    (hc : ∀ row ∈ c.secrets, row.1 ≠ packedKey) :
    Wf unpack (past.keep g (some c) at_) (Function.update current g (max (current g) at_))
      (Function.update kept g (kept g ++ [c.epoch])) := by
  refine ⟨?_, fun g' => ?_⟩
  · rw [PastEpochs.keep]
    split <;> exact h.dormant
  · by_cases hg : g' = g
    · subst hg
      rw [ring_keep_self hlt, Function.update_self, Function.update_self]
      exact (h.group g').keep hlt hc
    · rw [ring_keep_ne _ hg, Function.update_of_ne hg, Function.update_of_ne hg]
      exact h.group g'

/-- After an epoch is kept, what the next save has to write is still marked. -/
theorem Tracked.keep (h : Tracked past disk) (hwf : Wf unpack past current kept)
    (hlt : c.epoch < at_) : Tracked (past.keep g (some c) at_) disk := by
  intro g'
  by_cases hg : g' = g
  · subst hg
    have hwindow := hwf.group g'
    refine ⟨fun p hp hs => ?_, fun p hp hs => ?_, fun e he => ?_⟩
    · rw [ring_keep_self hlt] at hp
      have hdrop : p.epoch ∈ (keepRing (past.ring g') c).map (·.epoch) := List.mem_map_of_mem hp
      rw [epochs_keepRing] at hdrop
      rcases (mem_keepSorted hwindow.nodup).mp (List.mem_of_mem_drop hp) with ⟨hp, hne⟩ | rfl
      · obtain ⟨hnot, hdisk⟩ := (h g').saved p hp hs
        refine ⟨fun hmem => ?_, hdisk⟩
        rcases (mem_cleared_keep hlt).mp hmem with hmem | ⟨_, ⟨heq, _⟩ | htake⟩
        · exact hnot hmem
        · exact hne heq
        · exact (mem_drop_of_le hwindow.keepEpochs_ordered hdrop (List.mem_of_mem_drop hdrop)
            le_rfl).2 htake
      · cases hs
    · rw [ring_keep_self hlt] at hp
      rw [mem_cleared_keep hlt]
      rcases (mem_keepSorted hwindow.nodup).mp (List.mem_of_mem_drop hp) with ⟨hp, _⟩ | rfl
      · exact ((h g').fresh p hp hs).imp_left .inl
      · by_cases hmem : c.epoch ∈ past.epochs g'
        · exact .inl (.inr ⟨rfl, .inl ⟨rfl, hmem⟩⟩)
        · exact ((h g').gone c.epoch hmem).imp_left .inl
    · rw [epochs, ring_keep_self hlt, epochs_keepRing] at he
      rw [mem_cleared_keep hlt]
      by_cases hmem : e ∈ keepEpochs (past.ring g') c
      · rw [← List.take_append_drop ((keepEpochs (past.ring g') c).length - maxPastEpochs)
          (keepEpochs (past.ring g') c)] at hmem
        exact .inl (.inr ⟨rfl, .inr ((List.mem_append.mp hmem).resolve_right he)⟩)
      · rw [hwindow.mem_keepEpochs, not_or] at hmem
        exact ((h g').gone e hmem.1).imp_left .inl
  · exact (h g').congr (ring_keep_ne _ hg) fun e => by simp [mem_cleared_keep hlt, hg]

end Keep

/-! A save. -/

theorem epochs_taken : (past.taken now).epochs g = past.epochs g := by
  rw [epochs, ring_taken, List.map_map]
  rfl

theorem Wf.taken (h : Wf unpack past current kept) (now : Nat) :
    Wf unpack (past.taken now) current kept := by
  refine ⟨h.dormant, fun g => ?_⟩
  rw [ring_taken]
  exact (h.group g).map (fun _ => rfl) fun _ hp => hp.taken

theorem mem_filter_save (h : Wf unpack past current kept) {p : PastEpoch} (hp : p ∈ past.ring g)
    {whole : Bool} {r : Bytes × Bytes} :
    r ∈ ((past.save whole).rows.filter (·.1 = (g, p.epoch))).map (·.2) ↔ r ∈ p.savedRows whole := by
  constructor
  · intro hr
    obtain ⟨⟨s, r'⟩, hmem, rfl⟩ := List.mem_map.mp hr
    obtain ⟨hmem, hs⟩ := List.mem_filter.mp hmem
    obtain rfl : s = (g, p.epoch) := of_decide_eq_true hs
    obtain ⟨q, hq, heq, hsaved⟩ := mem_save_rows.mp hmem
    obtain rfl := List.inj_on_of_nodup_map (h.group g).nodup hq hp heq
    exact hsaved
  · intro hr
    refine List.mem_map.mpr ⟨((g, p.epoch), r), List.mem_filter.mpr ⟨?_, decide_eq_true rfl⟩, rfl⟩
    exact mem_save_rows.mpr ⟨p, hp, rfl, hr⟩

theorem changed_value {p : PastEpoch} {k v : Bytes} (h : (k, v) ∈ p.changed) :
    ∃ o, p.opened = some o ∧ k ∈ o.dirty ∧ v = (o.values.lookup k).getD [] := by
  rw [PastEpoch.changed] at h
  cases hp : p.opened with
  | none =>
    rw [hp] at h
    cases h
  | some o =>
    rw [hp] at h
    obtain ⟨a, ha, heq⟩ := List.mem_map.mp h
    cases heq
    exact ⟨o, rfl, ha, rfl⟩

theorem changed_one {p : PastEpoch} {k : Bytes} (v w : Bytes) (hv : (k, v) ∈ p.changed)
    (hw : (k, w) ∈ p.changed) : v = w := by
  obtain ⟨o, ho, _, rfl⟩ := changed_value hv
  obtain ⟨o', ho', _, rfl⟩ := changed_value hw
  rw [ho] at ho'
  cases ho'
  rfl

theorem Tracked.onDisk_taken (h : Tracked past disk) (hwf : Wf unpack past current kept)
    {p : PastEpoch} (hp : p ∈ past.ring g) (whole : Bool) (now : Nat) :
    OnDisk (disk.write (past.save whole)) (g, p.epoch) (p.taken now) := by
  have hsound := (hwf.group g).sound p hp
  have hfree : (p.taken now).overrides.lookup packedKey = none := hsound.taken.packed
  by_cases hfull : (whole || p.packedUnsaved) = true
  · -- the scope is empty before the packed row and all the rows over it are put
    have hfresh : (g, p.epoch) ∈ (past.save whole).cleared ∨ disk.lookup (g, p.epoch) = none := by
      cases whole with
      | true =>
        refine .inl (List.mem_append_right _ ?_)
        exact mem_heldScopes.mpr (List.mem_map_of_mem hp)
      | false => exact ((h g).fresh p hp hfull).imp_left (List.mem_append_left _)
    have hrows : p.savedRows whole = (packedKey, p.packed) :: (p.taken now).overrides.pairs := by
      rw [PastEpoch.savedRows, if_pos hfull]
      rfl
    have hmem : ∀ r, r ∈ ((past.save whole).rows.filter (·.1 = (g, p.epoch))).map (·.2) ↔
        r = (packedKey, p.packed) ∨ r ∈ (p.taken now).overrides.pairs := by
      intro r
      rw [mem_filter_save hwf hp, hrows, List.mem_cons]
    have hnot : ∀ v, (packedKey, v) ∉ (p.taken now).overrides.pairs := by
      intro v hv
      rw [mem_pairs, hfree] at hv
      cases hv
    rw [OnDisk, Disk.rowsOf_write_of_fresh hfresh]
    refine ⟨?_, fun k hk => ?_⟩
    · refine lookup_extend_of_mem ((hmem _).mpr (.inl rfl)) fun w hw => ?_
      rcases (hmem _).mp hw with heq | hw
      · exact (Prod.mk.inj heq).2
      · exact absurd hw (hnot w)
    · have hpairs : ∀ v, (k, v) ∈ ((past.save whole).rows.filter (·.1 = (g, p.epoch))).map (·.2) ↔
          (k, v) ∈ (p.taken now).overrides.pairs := by
        intro v
        rw [hmem]
        exact or_iff_right fun heq => hk (Prod.mk.inj heq).1
      rw [lookup_extend_congr (e := ∅) rfl hpairs, lookup_extend_pairs]
      · simp
      · intro v w hv hw
        rw [mem_pairs] at hv hw
        exact Option.some_inj.mp (hv.symm.trans hw)
  · -- only what changed since the last save is put
    obtain ⟨rfl, hunsaved⟩ : whole = false ∧ p.packedUnsaved = false := by
      simpa using hfull
    obtain ⟨hcleared, hpacked, hdisk⟩ := (h g).saved p hp hunsaved
    have hcleared : (g, p.epoch) ∉ (past.save false).cleared := by
      change _ ∉ past.cleared ++ []
      rwa [List.append_nil]
    have hrows : ∀ k v, (k, v) ∈ ((past.save false).rows.filter (·.1 = (g, p.epoch))).map (·.2) ↔
        (k, v) ∈ p.changed := by
      intro k v
      rw [mem_filter_save hwf hp, PastEpoch.savedRows, hunsaved]
      rfl
    rw [OnDisk, Disk.rowsOf_write_of_kept hcleared rfl]
    refine ⟨?_, fun k hk => ?_⟩
    · refine (lookup_extend_of_not_mem fun v hv => ?_).trans hpacked
      obtain ⟨o, ho, hmem, _⟩ := changed_value ((hrows _ v).mp hv)
      exact (hsound.opened o ho).packed hmem
    · exact lookup_extend_congr (hdisk k hk) (hrows k) changed_one

theorem Tracked.mirrors_taken (h : Tracked past disk) (hwf : Wf unpack past current kept)
    (whole : Bool) (now : Nat) :
    Mirrors unpack (past.taken now) (disk.write (past.save whole)) := by
  refine ⟨fun g q hq => ?_, fun g e he => ?_⟩
  · rw [ring_taken] at hq
    obtain ⟨p, hp, rfl⟩ := List.mem_map.mp hq
    have hsound := (hwf.group g).sound p hp
    refine ⟨h.onDisk_taken hwf hp whole now, fun k => ?_⟩
    rw [hsound.lookup_stored_taken, hsound.rows_taken]
  · rw [epochs_taken] at he
    refine Disk.lookup_write_of_fresh (fun r hr => ?_) ?_
    · obtain ⟨p, hp, rfl, _⟩ := mem_save_rows.mp hr
      exact he (List.mem_map_of_mem hp)
    · exact ((h g).gone e he).imp_left (List.mem_append_left _)

theorem Mirrors.tracked_taken (h : Mirrors unpack (past.taken now) disk) :
    Tracked (past.taken now) disk := by
  have hsaved : ∀ g, ∀ q ∈ (past.taken now).ring g, q.packedUnsaved = false := by
    intro g q hq
    rw [ring_taken] at hq
    obtain ⟨p, _, rfl⟩ := List.mem_map.mp hq
    rfl
  refine fun g => ⟨fun q hq _ => ⟨List.not_mem_nil, (h.held g q hq).1⟩, fun q hq hs => ?_,
    fun e he => .inr (h.gone g e he)⟩
  rw [hsaved g q hq] at hs
  cases hs

end Steps

end Hollow.Mls.Past
