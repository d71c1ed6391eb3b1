import Mathlib

/-! A sum over a sliding window, kept in as many slots as the window has periods. A slot is used
again for a later period; amounts come in the order of their periods. -/

namespace SlotWindow

structure Slot where
  /-- The period the slot counts, `-1` before its first. -/
  idx : Int := -1
  w : Int := 0
deriving DecidableEq

variable {n : Nat} [NeZero n]

def pos (n : Nat) [NeZero n] (idx : Nat) : Fin n := Fin.ofNat n idx

def empty : Fin n → Slot := fun _ => {}

def add (slots : Fin n → Slot) (idx : Nat) (w : Int) : Fin n → Slot :=
  let s := slots (pos n idx)
  let s := if s.idx ≠ idx then { idx, w := 0 } else s
  Function.update slots (pos n idx) { s with w := s.w + w }

/-- Whether a slot is in the window that ends with the period `idx`. -/
def Slot.counts (s : Slot) (n idx : Nat) : Prop := 0 ≤ s.idx ∧ s.idx ≤ idx ∧ idx - s.idx < n

instance (s : Slot) (n idx : Nat) : Decidable (s.counts n idx) :=
  inferInstanceAs (Decidable (_ ∧ _ ∧ _))

def sum (slots : Fin n → Slot) (idx : Nat) : Int :=
  ∑ j, if (slots j).counts n idx then (slots j).w else 0

variable {slots : Fin n → Slot} {idx last : Nat} {w : Int}

/-- Every slot is empty or counts one of its own periods, none after `last`. -/
def Placed (slots : Fin n → Slot) (last : Nat) : Prop :=
  ∀ j, (slots j).idx = -1 ∨ ∃ k : Nat, (slots j).idx = k ∧ pos n k = j ∧ k ≤ last

theorem placed_empty : Placed (empty : Fin n → Slot) last := fun _ => .inl rfl

theorem Placed.mono {last' : Nat} (h : Placed slots last) (hle : last ≤ last') :
    Placed slots last' := fun j =>
  (h j).imp_right fun ⟨k, hk, hpos, hlast⟩ => ⟨k, hk, hpos, hlast.trans hle⟩

theorem add_self : add slots idx w (pos n idx) =
    { idx, w := (if (slots (pos n idx)).idx = idx then (slots (pos n idx)).w else 0) + w } := by
  rw [add, Function.update_self]
  by_cases h : (slots (pos n idx)).idx = idx <;> simp [h]

theorem add_of_ne {j : Fin n} (h : j ≠ pos n idx) : add slots idx w j = slots j := by
  rw [add, Function.update_of_ne h]

theorem Placed.add (h : Placed slots idx) : Placed (add slots idx w) idx := by
  intro j
  by_cases hj : j = pos n idx
  · subst hj
    exact .inr ⟨idx, by rw [add_self], rfl, le_rfl⟩
  · rw [add_of_ne hj]
    exact h j

theorem add_le_of_pos_eq {i k : Nat} (hpos : pos n k = pos n i) (hlt : k < i) : k + n ≤ i := by
  have hmod : k % n = i % n := by simpa [pos, Fin.ofNat] using hpos
  obtain ⟨c, hc⟩ := (Nat.modEq_iff_dvd' hlt.le).mp hmod
  have hpos : 0 < c := Nat.pos_of_ne_zero fun h => by simp [h] at hc; omega
  have := Nat.le_mul_of_pos_right n hpos
  omega

theorem sum_add {i : Nat} (h : Placed slots i) (hle : i ≤ idx) :
    sum (add slots i w) idx = sum slots idx + if idx < i + n then w else 0 := by
  have hrest : ∑ j ∈ Finset.univ.erase (pos n i),
      (if (add slots i w j).counts n idx then (add slots i w j).w else 0) =
      ∑ j ∈ Finset.univ.erase (pos n i), if (slots j).counts n idx then (slots j).w else 0 :=
    Finset.sum_congr rfl fun j hj => by rw [add_of_ne (Finset.ne_of_mem_erase hj)]
  rw [sum, sum, ← Finset.add_sum_erase _ _ (Finset.mem_univ (pos n i)), hrest,
    ← Finset.add_sum_erase _ (fun j => if (slots j).counts n idx then (slots j).w else 0)
      (Finset.mem_univ (pos n i)), add_self]
  suffices hslot : (if Slot.counts ⟨i, w⟩ n idx then
      (if (slots (pos n i)).idx = i then (slots (pos n i)).w else 0) + w else 0) =
      (if (slots (pos n i)).counts n idx then (slots (pos n i)).w else 0) +
        if idx < i + n then w else 0 by
    rw [add_right_comm, ← hslot]
    rfl
  have hnew : Slot.counts ⟨i, w⟩ n idx ↔ idx < i + n := by
    simp only [Slot.counts]
    omega
  simp only [hnew]
  by_cases hsame : (slots (pos n i)).idx = i
  · have hcounts : (slots (pos n i)).counts n idx ↔ idx < i + n := by
      rw [Slot.counts, hsame]
      omega
    simp only [hsame, hcounts, if_true]
    split_ifs <;> simp
  · -- what the slot held before is out of the window
    have hcounts : ¬ (slots (pos n i)).counts n idx := by
      rcases h (pos n i) with hempty | ⟨k, hk, hpos, hki⟩
      · simp [Slot.counts, hempty]
      · have hlt : k < i := lt_of_le_of_ne hki fun heq => hsame (by rw [hk, heq])
        have := add_le_of_pos_eq hpos hlt
        rw [Slot.counts, hk]
        omega
    simp only [hsame, hcounts, if_false, zero_add]

def run (n : Nat) [NeZero n] (adds : List (Nat × Int)) : Fin n → Slot :=
  adds.foldl (fun slots a => add slots a.1 a.2) empty

theorem run_concat {adds : List (Nat × Int)} {a : Nat × Int} :
    run n (adds ++ [a]) = add (run n adds) a.1 a.2 := by
  simp [run]

theorem placed_run {adds : List (Nat × Int)} (hsorted : adds.Pairwise (·.1 ≤ ·.1))
    (hlast : ∀ a ∈ adds, a.1 ≤ last) : Placed (run n adds) last := by
  induction adds using List.reverseRecOn generalizing last with
  | nil => exact placed_empty
  | append_singleton adds a ih =>
    rw [List.pairwise_append] at hsorted
    have hbefore : Placed (run n adds) a.1 :=
      ih hsorted.1 fun b hb => hsorted.2.2 b hb a List.mem_cons_self
    rw [run_concat]
    exact hbefore.add.mono (hlast a (by simp))

/-- The slots sum exactly the amounts added in the last `n` indices. -/
theorem sum_run {adds : List (Nat × Int)} (hsorted : adds.Pairwise (·.1 ≤ ·.1))
    (hidx : ∀ a ∈ adds, a.1 ≤ idx) :
    sum (run n adds) idx = ((adds.filter (idx < ·.1 + n)).map (·.2)).sum := by
  induction adds using List.reverseRecOn with
  | nil => simp [run, sum, empty, Slot.counts]
  | append_singleton adds a ih =>
    rw [List.pairwise_append] at hsorted
    have hplaced : Placed (run n adds) a.1 :=
      placed_run hsorted.1 fun b hb => hsorted.2.2 b hb a List.mem_cons_self
    have hbefore := ih hsorted.1 fun b hb => hidx b (List.mem_append_left _ hb)
    rw [run_concat, sum_add hplaced (hidx a (by simp)), hbefore, List.filter_append,
      List.map_append, List.sum_append]
    by_cases hin : idx < a.1 + n <;> simp [hin]

end SlotWindow
