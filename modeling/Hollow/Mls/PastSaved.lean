import Hollow.Mls.PastSteps

/-! Past epochs across a restart: it gives back the past epochs as they stood at the last save. -/

namespace Hollow.Mls.Past

open Dict StableSort

variable {unpack : Bytes → Option (List (Bytes × Bytes))}

/-- What OpenMLS never does: no row of its own has the packed row's key, and none is empty. -/
def Event.Meets : Event → Prop
  | .keep _ capture _ => ∀ c ∈ capture, ∀ row ∈ c.secrets, row.1 ≠ packedKey
  | .open_ _ _ _ writes => ∀ row ∈ writes, row.1 ≠ packedKey ∧ row.2 ≠ some []
  | .dropGroup _ | .save _ _ => True

instance (event : Event) : Decidable event.Meets :=
  match event with
  | .keep _ capture _ =>
    inferInstanceAs (Decidable (∀ c ∈ capture, ∀ row ∈ c.secrets, row.1 ≠ packedKey))
  | .open_ _ _ _ writes =>
    inferInstanceAs (Decidable (∀ row ∈ writes, row.1 ≠ packedKey ∧ row.2 ≠ some []))
  | .dropGroup _ => .isTrue trivial
  | .save _ _ => .isTrue trivial

structure Inv (unpack : Bytes → Option (List (Bytes × Bytes))) (m : Machine) : Prop where
  wf : Wf unpack m.memory m.current m.kept
  tracked : Tracked m.memory m.disk
  savedWf : Wf unpack m.savedMemory m.savedCurrent m.savedKept
  mirrors : Mirrors unpack m.savedMemory m.disk

theorem Inv.init : Inv unpack {} := by
  have hwf : Wf unpack {} (fun _ => 0) fun _ => [] := ⟨rfl, fun _ => windowed_nil⟩
  have hring : ∀ g, ∀ p, p ∉ PastEpochs.ring {} g := fun _ _ => List.not_mem_nil
  exact ⟨hwf, fun g => ⟨fun p hp => absurd hp (hring g p), fun p hp => absurd hp (hring g p),
    fun _ _ => .inr rfl⟩, hwf, ⟨fun g p hp => absurd hp (hring g p), fun _ _ _ => rfl⟩⟩

/-- Every event keeps memory and disk in step. -/
theorem Inv.step {m : Machine} (h : Inv unpack m) {event : Event} (hevent : event.Meets) :
    Inv unpack (m.step unpack event) := by
  cases event with
  | keep group capture current =>
    cases hc : capture.filter (·.epoch < current) with
    | none =>
      have hmemory : m.memory.keep group capture current = m.memory := by
        rw [PastEpochs.keep, hc]
      have hkept : Function.update m.kept group (m.kept group ++ []) = m.kept := by
        rw [List.append_nil, Function.update_eq_self]
      refine ⟨?_, ?_, h.savedWf, h.mirrors⟩
      · simp only [Machine.step, hmemory, hc, Option.toList_none, List.map_nil, hkept]
        exact h.wf.advance current
      · simp only [Machine.step, hmemory]
        exact h.tracked
    | some c =>
      obtain ⟨rfl, hlt⟩ := Option.filter_eq_some_iff.mp hc
      have hlt : c.epoch < current := of_decide_eq_true hlt
      refine ⟨?_, h.tracked.keep h.wf hlt, h.savedWf, h.mirrors⟩
      simp only [Machine.step, hc, Option.toList_some, List.map_singleton]
      exact h.wf.keep hlt (hevent c rfl)
  | open_ group epoch now writes =>
    exact ⟨h.wf.open_ epoch hevent, h.tracked.open_ epoch writes, h.savedWf, h.mirrors⟩
  | dropGroup group =>
    exact ⟨h.wf.dropGroup group, h.tracked.dropGroup h.wf.dormant group, h.savedWf, h.mirrors⟩
  | save whole now =>
    have hmirrors := h.tracked.mirrors_taken h.wf whole now
    exact ⟨h.wf.taken now, hmirrors.tracked_taken, h.wf.taken now, hmirrors⟩

theorem Inv.run {m : Machine} (h : Inv unpack m) {events : List Event}
    (hevents : ∀ event ∈ events, event.Meets) : Inv unpack (m.run unpack events) := by
  induction events generalizing m with
  | nil => exact h
  | cons event events ih =>
    exact ih (h.step (hevents event List.mem_cons_self))
      fun e he => hevents e (List.mem_cons_of_mem event he)

section Restore

variable {scopes : List (Scope × Rows)} {loaded : String → Option Nat} {past : PastEpochs}
  {g : String} {current : Nat}

def restored (stored : Nat × Rows) : PastEpoch :=
  ⟨stored.1, (stored.2.lookup packedKey).getD [], false, stored.2.erase packedKey, none⟩

def storedOf (scopes : List (Scope × Rows)) (g : String) : List (Nat × Rows) :=
  sortBy (OrderDual.toDual ·.1) ((scopes.filter (·.1.1 = g)).map fun s => (s.1.2, s.2))

theorem foldl_restoreEpoch {stored : List (Nat × Rows)} {acc : List PastEpoch × List Scope}
    (hroom : acc.1.length + stored.length ≤ maxPastEpochs)
    (hstored : ∀ s ∈ stored, s.1 < current ∧ (s.2.lookup packedKey).isSome) :
    (stored.foldl (PastEpochs.restoreEpoch g current) acc).1 =
      (stored.map restored).reverse ++ acc.1 := by
  induction stored generalizing acc with
  | nil => rfl
  | cons s stored ih =>
    obtain ⟨hlt, hpacked⟩ := hstored s List.mem_cons_self
    obtain ⟨packed, hpacked⟩ := Option.isSome_iff_exists.mp hpacked
    rw [List.length_cons] at hroom
    have hstep : PastEpochs.restoreEpoch g current acc s = (restored s :: acc.1, acc.2) := by
      rw [PastEpochs.restoreEpoch, hpacked]
      dsimp only
      rw [if_pos ⟨hlt, by omega⟩, restored, hpacked]
      rfl
    rw [List.foldl_cons, hstep, ih (by rw [List.length_cons]; omega)
      fun t ht => hstored t (List.mem_cons_of_mem s ht), List.map_cons, List.reverse_cons,
      List.append_assoc]
    rfl

theorem ring_restoreGroup_ne {g' : String} (hg : g ≠ g') :
    (PastEpochs.restoreGroup loaded scopes past g').ring g = past.ring g := by
  rw [PastEpochs.restoreGroup]
  cases loaded g' with
  | none => rfl
  | some current =>
    dsimp only
    split_ifs
    · rfl
    · rw [PastEpochs.ring, AList.lookup_insert_ne hg]
      rfl

theorem ring_foldl_restoreGroup_of_not_mem {groups : List String} (hg : g ∉ groups) :
    (groups.foldl (PastEpochs.restoreGroup loaded scopes) past).ring g = past.ring g := by
  induction groups generalizing past with
  | nil => rfl
  | cons g' groups ih =>
    rw [List.mem_cons, not_or] at hg
    rw [List.foldl_cons, ih hg.2, ring_restoreGroup_ne hg.1]

theorem ring_restoreGroup_self (hloaded : loaded g = some current) (hpast : past.ring g = []) :
    (PastEpochs.restoreGroup loaded scopes past g).ring g =
      ((storedOf scopes g).foldl (PastEpochs.restoreEpoch g current) ([], past.cleared)).1 := by
  rw [PastEpochs.restoreGroup, hloaded]
  dsimp only
  rw [← storedOf]
  split_ifs with hnil
  · rw [hnil]
    exact hpast
  · rw [PastEpochs.ring, AList.lookup_insert]
    rfl

theorem ring_restore (current : Nat) (hloaded : storedOf scopes g ≠ [] → loaded g = some current)
    (hroom : (storedOf scopes g).length ≤ maxPastEpochs)
    (hstored : ∀ s ∈ storedOf scopes g, s.1 < current ∧ (s.2.lookup packedKey).isSome) :
    (PastEpochs.restore {} scopes loaded).ring g = ((storedOf scopes g).map restored).reverse := by
  rw [PastEpochs.restore]
  by_cases hg : g ∈ (scopes.map (·.1.1)).dedup
  · obtain ⟨before, after, hsplit⟩ := List.append_of_mem hg
    have hnodup := List.nodup_dedup (scopes.map (·.1.1))
    rw [hsplit, List.nodup_append, List.nodup_cons] at hnodup
    have hbefore : g ∉ before := fun hm => hnodup.2.2 g hm g List.mem_cons_self rfl
    have hne : storedOf scopes g ≠ [] := by
      obtain ⟨s, hs, rfl⟩ := List.mem_map.mp (List.mem_dedup.mp hg)
      have hmem : (s.1.2, s.2) ∈ storedOf scopes s.1.1 := by
        rw [storedOf, mem_sortBy]
        exact List.mem_map.mpr ⟨s, List.mem_filter.mpr ⟨hs, decide_eq_true rfl⟩, rfl⟩
      exact List.ne_nil_of_mem hmem
    rw [hsplit, List.foldl_append, List.foldl_cons,
      ring_foldl_restoreGroup_of_not_mem hnodup.2.1.1, ring_restoreGroup_self (hloaded hne)
        (ring_foldl_restoreGroup_of_not_mem hbefore),
      foldl_restoreEpoch (by rw [List.length_nil]; omega) hstored, List.append_nil]
  · have hnil : storedOf scopes g = [] := by
      by_contra hne
      obtain ⟨s, hs⟩ := List.exists_mem_of_ne_nil _ hne
      rw [storedOf, mem_sortBy] at hs
      obtain ⟨t, ht, _⟩ := List.mem_map.mp hs
      obtain ⟨ht, heq⟩ := List.mem_filter.mp ht
      exact hg (List.mem_dedup.mpr (List.mem_map.mpr ⟨t, ht, of_decide_eq_true heq⟩))
    rw [hnil, ring_foldl_restoreGroup_of_not_mem hg]
    rfl

theorem mem_storedOf {disk : Disk} {e : Nat} {rows : Rows} :
    (e, rows) ∈ storedOf disk.pairs g ↔ disk.lookup (g, e) = some rows := by
  rw [storedOf, mem_sortBy, ← mem_pairs]
  constructor
  · intro h
    obtain ⟨⟨⟨g', e'⟩, rows'⟩, hs, heq⟩ := List.mem_map.mp h
    obtain ⟨hpair, hg⟩ := List.mem_filter.mp hs
    obtain rfl : g' = g := of_decide_eq_true hg
    cases heq
    exact hpair
  · intro h
    exact List.mem_map.mpr ⟨((g, e), rows), List.mem_filter.mpr ⟨h, decide_eq_true rfl⟩, rfl⟩

theorem storedOf_ordered (disk : Disk) (g : String) :
    ((storedOf disk.pairs g).reverse.map (·.1)).Pairwise (· < ·) := by
  have hkeys : ((disk.pairs.filter (·.1.1 = g)).map (·.1)).Nodup :=
    (nodup_keys_pairs disk).sublist (List.filter_sublist.map _)
  have hnodup : ((storedOf disk.pairs g).map (·.1)).Nodup := by
    rw [storedOf, (sortBy_perm.map Prod.fst).nodup_iff, List.map_map]
    have h := hkeys.map_on (f := Prod.snd) fun a ha b hb hab => by
      obtain ⟨s, hs, rfl⟩ := List.mem_map.mp ha
      obtain ⟨t, ht, rfl⟩ := List.mem_map.mp hb
      have hs := of_decide_eq_true (List.mem_filter.mp hs).2
      have ht := of_decide_eq_true (List.mem_filter.mp ht).2
      exact Prod.ext (hs.trans ht.symm) hab
    rwa [List.map_map] at h
  have hsorted : ((storedOf disk.pairs g).map (·.1)).Pairwise fun a b => b ≤ a := by
    rw [List.pairwise_map, storedOf]
    exact (sorted_sortBy : (sortBy (fun s : Nat × Rows => OrderDual.toDual s.1) _).Pairwise _)
  rw [List.map_reverse, List.pairwise_reverse]
  exact (hsorted.and hnodup).imp fun h => lt_of_le_of_ne h.1 (Ne.symm h.2)

/-- The past epochs of a group with the rows a late frame finds in each, oldest first. -/
def PastEpochs.view (unpack : Bytes → Option (List (Bytes × Bytes))) (past : PastEpochs)
    (g : String) : List (Nat × (Bytes → Option Bytes)) :=
  (past.ring g).map fun p => (p.epoch, p.rows unpack)

theorem Mirrors.storedOf_epochs {disk : Disk} {kept : String → List Nat} {at_ : String → Nat}
    (h : Mirrors unpack past disk) (hwf : Wf unpack past at_ kept) (g : String) :
    (storedOf disk.pairs g).reverse.map (·.1) = past.epochs g := by
  refine List.Perm.eq_of_pairwise' (storedOf_ordered disk g) (hwf.group g).ordered ?_
  refine (List.perm_ext_iff_of_nodup ((storedOf_ordered disk g).imp ne_of_lt)
    (hwf.group g).nodup).mpr fun e => ?_
  rw [List.map_reverse, List.mem_reverse, List.mem_map]
  constructor
  · rintro ⟨⟨e', rows⟩, hs, rfl⟩
    rw [mem_storedOf] at hs
    by_contra he
    rw [h.gone g e' he] at hs
    cases hs
  · intro he
    obtain ⟨p, hp, rfl⟩ := List.mem_map.mp he
    have hpacked := (h.held g p hp).1.1
    rw [Disk.rowsOf] at hpacked
    cases hrows : disk.lookup (g, p.epoch) with
    | none =>
      rw [hrows] at hpacked
      cases hpacked
    | some rows => exact ⟨(p.epoch, rows), mem_storedOf.mpr hrows, rfl⟩

/-- What the disk mirrors is what a restart shows. -/
theorem Mirrors.view_restore {disk : Disk} {kept : String → List Nat} {at_ : String → Nat}
    (h : Mirrors unpack past disk) (hwf : Wf unpack past at_ kept)
    (hloaded : ∀ g, past.ring g ≠ [] → ∃ current, loaded g = some current ∧ at_ g ≤ current) :
    (PastEpochs.restore {} disk.pairs loaded).view unpack = past.view unpack := by
  funext g
  have hepochs := h.storedOf_epochs hwf g
  have hmem : ∀ s ∈ storedOf disk.pairs g, s.2 = disk.rowsOf (g, s.1) ∧
      ∃ p ∈ past.ring g, p.epoch = s.1 := by
    intro s hs
    have hrows := mem_storedOf.mp (show (s.1, s.2) ∈ _ from hs)
    have he : s.1 ∈ past.epochs g := by
      rw [← hepochs]
      exact List.mem_map_of_mem (List.mem_reverse.mpr hs)
    refine ⟨?_, List.mem_map.mp he⟩
    rw [Disk.rowsOf, hrows]
    rfl
  have hring : (PastEpochs.restore {} disk.pairs loaded).ring g =
      ((storedOf disk.pairs g).map restored).reverse := by
    by_cases hnil : past.ring g = []
    · have hstored : storedOf disk.pairs g = [] := by
        rw [PastEpochs.epochs, hnil] at hepochs
        simpa using hepochs
      exact ring_restore 0 (fun hne => absurd hstored hne) (by simp [hstored]) (by simp [hstored])
    · obtain ⟨current, hcurrent, hle⟩ := hloaded g hnil
      refine ring_restore current (fun _ => hcurrent) ?_ fun s hs => ?_
      · have hlength := congrArg List.length hepochs
        rw [List.length_map, List.length_reverse] at hlength
        exact hlength ▸ (hwf.group g).window
      · obtain ⟨hrows, p, hp, hepoch⟩ := hmem s hs
        refine ⟨lt_of_lt_of_le (hepoch ▸ (hwf.group g).below _ (List.mem_map_of_mem hp)) hle, ?_⟩
        rw [hrows, ← hepoch, (h.held g p hp).1.1]
        rfl
  -- both sides list, epoch by epoch, what the disk gives back
  let shown : Nat → Nat × (Bytes → Option Bytes) := fun e =>
    (e, (restored (e, disk.rowsOf (g, e))).rows unpack)
  have hleft : (PastEpochs.restore {} disk.pairs loaded).view unpack g =
      (past.epochs g).map shown := by
    rw [PastEpochs.view, hring, ← hepochs, ← List.map_reverse, List.map_map, List.map_map]
    refine List.map_congr_left fun s hs => ?_
    have hs := (hmem s (List.mem_reverse.mp hs)).1
    change (s.1, (restored (s.1, s.2)).rows unpack) =
      (s.1, (restored (s.1, disk.rowsOf (g, s.1))).rows unpack)
    rw [hs]
  have hright : past.view unpack g = (past.epochs g).map shown := by
    rw [PastEpochs.view, PastEpochs.epochs, List.map_map]
    refine List.map_congr_left fun p hp => ?_
    obtain ⟨⟨hpacked, hdisk⟩, hrows⟩ := h.held g p hp
    refine Prod.ext rfl (funext fun k => ?_)
    dsimp only
    rw [hrows k]
    refine PastEpoch.stored_congr ?_ (fun k => ?_) k
    · dsimp only [restored]
      rw [hpacked]
      rfl
    · by_cases hk : k = packedKey
      · subst hk
        rw [((hwf.group g).sound p hp).packed]
        exact (AList.lookup_erase packedKey (disk.rowsOf (g, p.epoch))).symm
      · rw [← hdisk k hk]
        exact (AList.lookup_erase_ne hk).symm
  rw [hleft, hright]

end Restore

/-- After any run, a restart with the groups of the last save loaded, none behind the epoch it was
at then, gives back the past epochs held at that save, each with its rows: at most the newest three
kept of a group, below the epoch it is at. -/
theorem restart_gives_back (events : List Event) (hevents : ∀ event ∈ events, event.Meets)
    (loaded : String → Option Nat)
    (hloaded : ∀ g, (Machine.run unpack {} events).savedMemory.ring g ≠ [] →
      ∃ current, loaded g = some current ∧
        (Machine.run unpack {} events).savedCurrent g ≤ current) :
    let m := Machine.run unpack {} events
    (PastEpochs.restore {} m.disk.pairs loaded).view unpack = m.savedMemory.view unpack ∧
      ∀ g, (m.savedMemory.epochs g).length ≤ maxPastEpochs ∧
        (∀ e ∈ m.savedMemory.epochs g, e < m.savedCurrent g) ∧
        ∀ e ∈ m.savedKept g, e ∈ m.savedMemory.epochs g ∨
          (m.savedMemory.epochs g).length = maxPastEpochs ∧
            ∀ a ∈ m.savedMemory.epochs g, e < a := by
  have hinv : Inv unpack (Machine.run unpack {} events) := Inv.init.run hevents
  exact ⟨hinv.mirrors.view_restore hinv.savedWf hloaded, fun g =>
    ⟨(hinv.savedWf.group g).window, (hinv.savedWf.group g).below, (hinv.savedWf.group g).newest⟩⟩

def lateFrame : List Event :=
  [.keep "srv" (some ⟨1, [7], [([1], [2])]⟩) 2, .keep "srv" (some ⟨2, [8], [([1], [3])]⟩) 3,
    .save false 0, .open_ "srv" 1 5 [([1], some [9]), ([4], none)], .save false 700_000]

theorem restart_gives_back_lateFrame :
    let m := Machine.run (fun _ => some [([4], [6])]) {} lateFrame
    (∀ event ∈ lateFrame, event.Meets) ∧ m.savedMemory.epochs "srv" = [1, 2] ∧
      (PastEpochs.restore {} m.disk.pairs fun _ => some 3).view (fun _ => some [([4], [6])]) =
        m.savedMemory.view fun _ => some [([4], [6])] := by
  have hevents : ∀ event ∈ lateFrame, event.Meets := by decide +kernel
  refine ⟨hevents, by decide +kernel, ?_⟩
  refine (restart_gives_back lateFrame hevents _ fun g _ => ⟨3, rfl, ?_⟩).1
  simp only [lateFrame, Machine.run, List.foldl_cons, List.foldl_nil, Machine.step,
    Function.update_self, Function.update_idem, Function.update_apply]
  split <;> decide

/-- A past epoch kept after the last save is not on disk. -/
theorem restart_loses_unsaved :
    let events := [Event.keep "srv" (some ⟨1, [7], []⟩) 2]
    let m := Machine.run (fun _ => some []) {} events
    (∀ event ∈ events, event.Meets) ∧ m.memory.epochs "srv" = [1] ∧
      (PastEpochs.restore {} m.disk.pairs fun _ => some 2).epochs "srv" = [] := by
  decide +kernel

end Hollow.Mls.Past
