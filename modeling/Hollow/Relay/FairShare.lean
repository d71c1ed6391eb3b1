import Mathlib

/-! The ledger that says who gives way when a relay table anyone may write to is full: the share
that holds the most, with its least recently used entry. The ordered indexes of the source are
recounted here from the entries. -/

namespace Hollow.Relay

structure Entry (κ : Type) where
  key : κ
  share : Nat
  weight : Nat
  tick : Nat
deriving DecidableEq

structure FairShare (κ : Type) where
  entries : List (Entry κ) := []
  tick : Nat := 0
deriving DecidableEq

namespace FairShare

variable {κ : Type} [DecidableEq κ]

def contains (f : FairShare κ) (key : κ) : Bool := f.entries.any (·.key = key)

def remove (f : FairShare κ) (key : κ) : FairShare κ :=
  { f with entries := f.entries.filter (·.key ≠ key) }

/-- A key already held moves to the new share and takes the new weight. -/
def put (f : FairShare κ) (key : κ) (share weight : Nat) : FairShare κ where
  entries := (f.remove key).entries ++ [⟨key, share, weight, f.tick + 1⟩]
  tick := f.tick + 1

def touch (f : FairShare κ) (key : κ) : FairShare κ :=
  if f.contains key then
    { entries := f.entries.map fun e => if e.key = key then { e with tick := f.tick + 1 } else e
      tick := f.tick + 1 }
  else f

/-- A new weight for a key, which keeps its share and when it was last used. -/
def reweigh (f : FairShare κ) (key : κ) (weight : Nat) : FairShare κ :=
  { f with entries := f.entries.map fun e => if e.key = key then { e with weight } else e }

def total (f : FairShare κ) : Nat := (f.entries.map (·.weight)).sum

def size (f : FairShare κ) : Nat := f.entries.length

def held (f : FairShare κ) (share : Nat) : Nat :=
  ((f.entries.filter (·.share = share)).map (·.weight)).sum

def shareOf (f : FairShare κ) (key : κ) : Option Nat :=
  (f.entries.find? (·.key = key)).map (·.share)

/-- The least recently used entry of the share that holds the most. -/
def victim (f : FairShare κ) : Option κ := do
  let heaviest ← f.entries.argmax fun e => toLex (f.held e.share, e.share)
  let oldest ← (f.entries.filter (·.share = heaviest.share)).argmin (·.tick)
  return oldest.key

def victimExcept (f : FairShare κ) (spare : κ) : Option κ := do
  let others := f.entries.filter (·.key ≠ spare)
  let heaviest ← others.argmax fun e => toLex (f.held e.share, e.share)
  let oldest ← (others.filter (·.share = heaviest.share)).argmin (·.tick)
  return oldest.key

/-- One entry a key, and every use at a tick of its own. -/
structure Sound (f : FairShare κ) : Prop where
  keys : (f.entries.map (·.key)).Nodup
  ticks : (f.entries.map (·.tick)).Nodup
  le : ∀ e ∈ f.entries, e.tick ≤ f.tick

section Entries

variable {f : FairShare κ} {key : κ} {share weight s : Nat} {e e' : Entry κ}

omit [DecidableEq κ] in
theorem Sound.key_inj (hf : f.Sound) (he : e ∈ f.entries) (he' : e' ∈ f.entries)
    (h : e.key = e'.key) : e = e' :=
  List.inj_on_of_nodup_map hf.keys he he' h

omit [DecidableEq κ] in
theorem Sound.tick_inj (hf : f.Sound) (he : e ∈ f.entries) (he' : e' ∈ f.entries)
    (h : e.tick = e'.tick) : e = e' :=
  List.inj_on_of_nodup_map hf.ticks he he' h

theorem contains_iff : f.contains key ↔ ∃ e ∈ f.entries, e.key = key := by
  simp [contains]

theorem mem_remove : e ∈ (f.remove key).entries ↔ e ∈ f.entries ∧ e.key ≠ key := by
  simp [remove]

theorem mem_put : e ∈ (f.put key share weight).entries ↔
    e ∈ f.entries ∧ e.key ≠ key ∨ e = ⟨key, share, weight, f.tick + 1⟩ := by
  rw [put, List.mem_append, mem_remove, List.mem_singleton]

theorem remove_of_not_mem (h : ∀ e ∈ f.entries, e.key ≠ key) : f.remove key = f := by
  have hall : f.entries.filter (·.key ≠ key) = f.entries :=
    List.filter_eq_self.mpr fun e he => decide_eq_true (h e he)
  rw [remove, hall]

omit [DecidableEq κ] in
theorem sound_empty : Sound (κ := κ) {} := ⟨List.nodup_nil, List.nodup_nil, by simp⟩

section Kept

variable (hf : f.Sound)
include hf

theorem Sound.remove : (f.remove key).Sound where
  keys := hf.keys.sublist (List.filter_sublist.map _)
  ticks := hf.ticks.sublist (List.filter_sublist.map _)
  le := fun e he => hf.le e (mem_remove.mp he).1

/-- A put replaces the entry of its key and gives it a tick of its own. -/
theorem Sound.put : (f.put key share weight).Sound where
  keys := by
    rw [FairShare.put, List.map_append, List.nodup_append]
    refine ⟨hf.remove.keys, List.nodup_singleton _, ?_⟩
    simp only [List.mem_map, List.mem_singleton, List.map_cons, List.map_nil]
    rintro _ ⟨e, he, rfl⟩ _ rfl
    exact (mem_remove.mp he).2
  ticks := by
    rw [FairShare.put, List.map_append, List.nodup_append]
    refine ⟨hf.remove.ticks, List.nodup_singleton _, ?_⟩
    simp only [List.mem_map, List.mem_singleton, List.map_cons, List.map_nil]
    rintro _ ⟨e, he, rfl⟩ _ rfl
    have := hf.le e (mem_remove.mp he).1
    omega
  le := by
    intro e he
    rcases mem_put.mp he with ⟨he, -⟩ | rfl
    · exact (hf.le e he).trans (Nat.le_succ _)
    · exact le_rfl

theorem Sound.reweigh : (f.reweigh key weight).Sound where
  keys := by
    rw [FairShare.reweigh, List.map_map]
    refine (congrArg List.Nodup (List.map_congr_left fun e _ => ?_)).mpr hf.keys
    rw [Function.comp_apply]
    split_ifs <;> rfl
  ticks := by
    rw [FairShare.reweigh, List.map_map]
    refine (congrArg List.Nodup (List.map_congr_left fun e _ => ?_)).mpr hf.ticks
    rw [Function.comp_apply]
    split_ifs <;> rfl
  le := by
    intro e he
    obtain ⟨e', he', rfl⟩ := List.mem_map.mp he
    split_ifs <;> exact hf.le e' he'

theorem Sound.touch : (f.touch key).Sound := by
  rw [FairShare.touch]
  split_ifs with hheld
  swap
  · exact hf
  refine ⟨?_, ?_, ?_⟩
  · rw [List.map_map]
    refine (congrArg List.Nodup (List.map_congr_left fun e _ => ?_)).mpr hf.keys
    rw [Function.comp_apply]
    split_ifs <;> rfl
  · rw [List.map_map]
    refine List.Nodup.map_on ?_ (List.Nodup.of_map _ hf.keys)
    intro e he e' he' h
    have hle := hf.le e he
    have hle' := hf.le e' he'
    simp only [Function.comp_apply] at h
    split_ifs at h with hkey hkey' hkey'
    · exact hf.key_inj he he' (hkey.trans hkey'.symm)
    · simp only at h
      omega
    · simp only at h
      omega
    · exact hf.tick_inj he he' h
  · intro e he
    obtain ⟨e', he', rfl⟩ := List.mem_map.mp he
    split_ifs
    · exact le_rfl
    · exact (hf.le e' he').trans (Nat.le_succ _)

theorem Sound.perm_remove (he : e ∈ f.entries) :
    f.entries.Perm (e :: (f.remove e.key).entries) := by
  have hone : f.entries.filter (·.key = e.key) = [e] := by
    refine List.perm_singleton.mp ((List.perm_ext_iff_of_nodup ?_ (List.nodup_singleton e)).mpr ?_)
    · exact (List.Nodup.of_map _ hf.keys).filter _
    · intro e'
      rw [List.mem_filter, decide_eq_true_eq, List.mem_singleton]
      exact ⟨fun h => hf.key_inj h.1 he h.2, by rintro rfl; exact ⟨he, rfl⟩⟩
  have hsplit := (List.filter_append_perm (fun e' => decide (e'.key = e.key)) f.entries).symm
  rw [hone] at hsplit
  refine hsplit.trans (List.Perm.of_eq ?_)
  rw [FairShare.remove, List.singleton_append]
  congr 2
  funext e'
  simp

theorem Sound.total_remove (he : e ∈ f.entries) : (f.remove e.key).total + e.weight = f.total := by
  have := ((hf.perm_remove he).map (·.weight)).sum_eq
  rw [List.map_cons, List.sum_cons] at this
  rw [total, total, this, add_comm]

theorem Sound.size_remove (he : e ∈ f.entries) : (f.remove e.key).size + 1 = f.size := by
  have := (hf.perm_remove he).length_eq
  rw [List.length_cons] at this
  rw [size, size, this]

theorem Sound.held_remove (he : e ∈ f.entries) :
    (f.remove e.key).held s + (if e.share = s then e.weight else 0) = f.held s := by
  have := (((hf.perm_remove he).filter (·.share = s)).map (·.weight)).sum_eq
  rw [held, held, this, List.filter_cons]
  by_cases hs : e.share = s <;> simp [hs, add_comm]

end Kept

theorem touch_map {β : Type} {g : Entry κ → β} (hg : ∀ e tick, g { e with tick } = g e) :
    (f.touch key).entries.map g = f.entries.map g := by
  rw [touch]
  split_ifs
  · rw [List.map_map]
    refine List.map_congr_left fun e _ => ?_
    rw [Function.comp_apply]
    split_ifs
    · exact hg e _
    · rfl
  · rfl

theorem total_touch : (f.touch key).total = f.total :=
  congrArg List.sum (touch_map fun _ _ => rfl)

omit [DecidableEq κ] in
theorem le_held (he : e ∈ f.entries) : e.weight ≤ f.held e.share :=
  List.single_le_sum (by simp) _ (List.mem_map_of_mem (List.mem_filter.mpr ⟨he, by simp⟩))

end Entries

/-- The ledger has an entry of the key, in that share and of that weight. -/
def Lists (f : FairShare κ) (key : κ) (share weight : Nat) : Prop :=
  ∃ e ∈ f.entries, e.key = key ∧ e.share = share ∧ e.weight = weight

section Rows

variable {f : FairShare κ} {key k : κ} {share weight s w : Nat}

theorem lists_remove : (f.remove key).Lists k s w ↔ f.Lists k s w ∧ k ≠ key := by
  constructor
  · rintro ⟨e, he, rfl, hrow⟩
    exact ⟨⟨e, (mem_remove.mp he).1, rfl, hrow⟩, (mem_remove.mp he).2⟩
  · rintro ⟨⟨e, he, rfl, hrow⟩, hne⟩
    exact ⟨e, mem_remove.mpr ⟨he, hne⟩, rfl, hrow⟩

theorem lists_put : (f.put key share weight).Lists k s w ↔
    f.Lists k s w ∧ k ≠ key ∨ k = key ∧ s = share ∧ w = weight := by
  constructor
  · rintro ⟨e, he, rfl, rfl, rfl⟩
    rcases mem_put.mp he with ⟨he, hne⟩ | rfl
    · exact .inl ⟨⟨e, he, rfl, rfl, rfl⟩, hne⟩
    · exact .inr ⟨rfl, rfl, rfl⟩
  · rintro (⟨⟨e, he, rfl, hrow⟩, hne⟩ | ⟨rfl, rfl, rfl⟩)
    · exact ⟨e, mem_put.mpr (.inl ⟨he, hne⟩), rfl, hrow⟩
    · exact ⟨_, mem_put.mpr (.inr rfl), rfl, rfl, rfl⟩

theorem lists_reweigh : (f.reweigh key weight).Lists k s w ↔
    f.Lists k s w ∧ k ≠ key ∨ k = key ∧ w = weight ∧ ∃ w', f.Lists k s w' := by
  constructor
  · rintro ⟨_, hmem, hkey, hshare, hweight⟩
    obtain ⟨e, he, rfl⟩ := List.mem_map.mp hmem
    split_ifs at hkey hshare hweight with h
    · exact .inr ⟨hkey ▸ h, hweight.symm, e.weight, e, he, hkey, hshare, rfl⟩
    · exact .inl ⟨⟨e, he, hkey, hshare, hweight⟩, hkey ▸ h⟩
  · rintro (⟨⟨e, he, hkey, hshare, hweight⟩, hne⟩ | ⟨rfl, rfl, w', e, he, hkey, hshare, -⟩)
    · refine ⟨_, List.mem_map_of_mem he, ?_⟩
      rw [if_neg (hkey ▸ hne)]
      exact ⟨hkey, hshare, hweight⟩
    · refine ⟨_, List.mem_map_of_mem he, ?_⟩
      rw [if_pos hkey]
      exact ⟨hkey, hshare, rfl⟩

omit [DecidableEq κ] in
theorem Sound.rows_perm (hf : f.Sound) {rows : List (κ × Nat × Nat)} (hnodup : rows.Nodup)
    (h : ∀ k s w, f.Lists k s w ↔ (k, s, w) ∈ rows) :
    (f.entries.map fun e => (e.key, e.share, e.weight)).Perm rows := by
  refine (List.perm_ext_iff_of_nodup ?_ hnodup).mpr fun r => ?_
  · refine List.Nodup.of_map (fun r : κ × Nat × Nat => r.1) ?_
    rw [List.map_map]
    exact hf.keys
  · rw [← h, List.mem_map]
    simp only [Prod.ext_iff, Lists]

end Rows

/-- The least recently used of `others` in the share, among theirs, that holds the most. -/
structure Picks (f : FairShare κ) (others : List (Entry κ)) (e : Entry κ) : Prop where
  mem : e ∈ others
  heaviest : ∀ e' ∈ others, toLex (f.held e'.share, e'.share) ≤ toLex (f.held e.share, e.share)
  oldest : ∀ e' ∈ others, e'.share = e.share → e.tick ≤ e'.tick

section Victim

variable {f : FairShare κ} {key spare : κ} {others : List (Entry κ)} {e e' : Entry κ}

omit [DecidableEq κ] in
theorem Picks.share_eq (h : f.Picks others e) (h' : f.Picks others e') : e.share = e'.share := by
  have hle := le_antisymm (h'.heaviest e h.mem) (h.heaviest e' h'.mem)
  exact congrArg (fun p => (ofLex p).2) hle

omit [DecidableEq κ] in
theorem Picks.unique (hf : f.Sound) (hothers : others ⊆ f.entries) (h : f.Picks others e)
    (h' : f.Picks others e') : e = e' :=
  hf.tick_inj (hothers h.mem) (hothers h'.mem) (le_antisymm (h.oldest e' h'.mem (h'.share_eq h))
    (h'.oldest e h.mem (h.share_eq h')))

omit [DecidableEq κ] in
theorem Picks.held_le (h : f.Picks f.entries e) (share : Nat) : f.held share ≤ f.held e.share := by
  by_cases hshare : ∃ e' ∈ f.entries, e'.share = share
  · obtain ⟨e', he', rfl⟩ := hshare
    have hle := Prod.Lex.monotone_fst _ _ (h.heaviest e' he')
    exact hle
  · have hnone : f.entries.filter (·.share = share) = [] :=
      List.filter_eq_nil_iff.mpr fun e' he' hsame => hshare ⟨e', he', of_decide_eq_true hsame⟩
    rw [held, hnone]
    exact Nat.zero_le _

def scan (f : FairShare κ) (others : List (Entry κ)) : Option κ := do
  let heaviest ← others.argmax fun e => toLex (f.held e.share, e.share)
  let oldest ← (others.filter (·.share = heaviest.share)).argmin (·.tick)
  return oldest.key

omit [DecidableEq κ] in
theorem picks_of_scan (h : f.scan others = some key) : ∃ e, f.Picks others e ∧ e.key = key := by
  obtain ⟨heaviest, hheaviest, h⟩ := Option.bind_eq_some_iff.mp h
  obtain ⟨oldest, holdest, h⟩ := Option.bind_eq_some_iff.mp h
  have hmem := List.mem_filter.mp (List.argmin_mem holdest)
  have hshare : oldest.share = heaviest.share := of_decide_eq_true hmem.2
  refine ⟨oldest, ⟨hmem.1, fun e he => ?_, fun e he hsame => ?_⟩, Option.some_inj.mp h⟩
  · rw [hshare]
    exact List.le_of_mem_argmax (f := fun e : Entry κ => toLex (f.held e.share, e.share)) he
      hheaviest
  · exact List.le_of_mem_argmin
      (List.mem_filter.mpr ⟨he, decide_eq_true (hsame.trans hshare)⟩) holdest

omit [DecidableEq κ] in
theorem scan_eq_none : f.scan others = none ↔ others = [] := by
  constructor
  · intro h
    by_contra hne
    cases hheaviest : others.argmax fun e => toLex (f.held e.share, e.share) with
    | none => exact hne (List.argmax_eq_none.mp hheaviest)
    | some heaviest =>
      have hmem : heaviest ∈ others.filter (·.share = heaviest.share) :=
        List.mem_filter.mpr ⟨List.argmax_mem hheaviest, decide_eq_true rfl⟩
      cases holdest : (others.filter (·.share = heaviest.share)).argmin (·.tick) with
      | none => exact List.ne_nil_of_mem hmem (List.argmin_eq_none.mp holdest)
      | some oldest => simp [scan, hheaviest, holdest] at h
  · rintro rfl
    rfl

omit [DecidableEq κ] in
theorem victim_eq_scan : f.victim = f.scan f.entries := rfl

omit [DecidableEq κ] in
theorem scan_eq_some (hf : f.Sound) (hothers : others ⊆ f.entries) :
    f.scan others = some key ↔ ∃ e, f.Picks others e ∧ e.key = key := by
  refine ⟨picks_of_scan, ?_⟩
  rintro ⟨e, he, rfl⟩
  cases hscan : f.scan others with
  | none =>
    rw [scan_eq_none] at hscan
    exact absurd he.mem (hscan ▸ List.not_mem_nil)
  | some key =>
    obtain ⟨e', he', rfl⟩ := picks_of_scan hscan
    rw [he.unique hf hothers he']

end Victim

end FairShare
end Hollow.Relay
