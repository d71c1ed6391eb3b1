import Mathlib.Data.Finset.Sort
import Mathlib.Data.List.MinMax

/-! What a scan of an ordered list or set finds first. -/

namespace OrderedScan

variable {α β : Type*} {r : α → α → Prop} {l : List α} {a b : α}

theorem find?_first {p : α → Bool} (hl : l.Pairwise r) (h : l.find? p = some a) (hb : b ∈ l)
    (hp : p b) : a = b ∨ r a b := by
  induction l with
  | nil => cases hb
  | cons x l ih =>
    rw [List.pairwise_cons] at hl
    rw [List.find?_cons] at h
    split at h
    · cases h
      rcases List.mem_cons.mp hb with rfl | hb
      · exact .inl rfl
      · exact .inr (hl.1 b hb)
    · rename_i hx
      rcases List.mem_cons.mp hb with rfl | hb
      · rw [hp] at hx
        cases hx
      · exact ih hl.2 h hb

/-- A scan answers with the first element, in the order, that has an answer. -/
theorem findSome?_first {f : α → Option β} {c : β} (hl : l.Pairwise r)
    (h : l.findSome? f = some c) :
    ∃ a ∈ l, f a = some c ∧ ∀ b ∈ l, (f b).isSome → a = b ∨ r a b := by
  induction l with
  | nil => cases h
  | cons x l ih =>
    rw [List.pairwise_cons] at hl
    rw [List.findSome?_cons] at h
    split at h
    · rename_i d hx
      cases h
      refine ⟨x, List.mem_cons_self, hx, fun b hb _ => ?_⟩
      rcases List.mem_cons.mp hb with rfl | hb
      · exact .inl rfl
      · exact .inr (hl.1 b hb)
    · rename_i hx
      obtain ⟨a, ha, hfa, hfirst⟩ := ih hl.2 h
      refine ⟨a, List.mem_cons_of_mem x ha, hfa, fun b hb hsome => ?_⟩
      rcases List.mem_cons.mp hb with rfl | hb
      · rw [hx] at hsome
        cases hsome
      · exact hfirst b hb hsome

variable [LinearOrder α] {s : Finset α}

theorem find?_sort_le {p : α → Bool} (h : (s.sort (· ≤ ·)).find? p = some a) :
    a ∈ s ∧ p a ∧ ∀ b ∈ s, p b → a ≤ b := by
  refine ⟨(Finset.mem_sort _).mp (List.mem_of_find?_eq_some h), List.find?_some h, ?_⟩
  intro b hb hp
  rcases find?_first (Finset.pairwise_sort s (· ≤ ·)) h ((Finset.mem_sort (· ≤ ·)).mpr hb) hp
    with rfl | hle
  · exact le_rfl
  · exact hle

theorem findSome?_sort_ge {f : α → Option β} {c : β} (h : (s.sort (· ≥ ·)).findSome? f = some c) :
    ∃ a ∈ s, f a = some c ∧ ∀ b ∈ s, (f b).isSome → b ≤ a := by
  obtain ⟨a, ha, hfa, hfirst⟩ := findSome?_first (Finset.pairwise_sort s (· ≥ ·)) h
  refine ⟨a, (Finset.mem_sort _).mp ha, hfa, fun b hb hsome => ?_⟩
  rcases hfirst b ((Finset.mem_sort _).mpr hb) hsome with rfl | hle
  · exact le_rfl
  · exact hle

theorem find?_sort_map (l : List β) (f : β → α) (p : α → Bool) :
    ((l.map f).toFinset.sort (· ≤ ·)).find? p = ((l.filter fun b => p (f b)).argmin f).map f := by
  cases hfind : ((l.map f).toFinset.sort (· ≤ ·)).find? p with
  | none =>
    have hnone : l.filter (fun b => p (f b)) = [] := by
      refine List.filter_eq_nil_iff.mpr fun b hb hp => ?_
      have hmem : f b ∈ (l.map f).toFinset := List.mem_toFinset.mpr (List.mem_map_of_mem hb)
      exact List.find?_eq_none.mp hfind _ ((Finset.mem_sort (· ≤ ·)).mpr hmem) hp
    simp [hnone]
  | some a =>
    obtain ⟨hmem, hp, hleast⟩ := find?_sort_le hfind
    obtain ⟨b, hb, rfl⟩ := List.mem_map.mp (List.mem_toFinset.mp hmem)
    have hpass : b ∈ l.filter fun b => p (f b) := List.mem_filter.mpr ⟨hb, hp⟩
    cases hmin : (l.filter fun b => p (f b)).argmin f with
    | none =>
      rw [List.argmin_eq_none] at hmin
      rw [hmin] at hpass
      cases hpass
    | some b' =>
      obtain ⟨hb', hp'⟩ := List.mem_filter.mp (List.argmin_mem hmin)
      have hle := hleast (f b') (List.mem_toFinset.mpr (List.mem_map_of_mem hb')) hp'
      exact congrArg some (le_antisymm hle (List.le_of_mem_argmin hpass hmin))

theorem head?_sort_ge_map (l : List β) (f : β → α) :
    ((l.map f).toFinset.sort (· ≥ ·)).head? = (l.argmax f).map f := by
  cases hhead : ((l.map f).toFinset.sort (· ≥ ·)).head? with
  | none =>
    rw [List.head?_eq_none_iff] at hhead
    have hnone : l.argmax f = none := by
      refine List.argmax_eq_none.mpr (List.eq_nil_iff_forall_not_mem.mpr fun b hb => ?_)
      have hmem : f b ∈ (l.map f).toFinset := List.mem_toFinset.mpr (List.mem_map_of_mem hb)
      rw [← Finset.mem_sort (· ≥ ·), hhead] at hmem
      cases hmem
    rw [hnone]
    rfl
  | some a =>
    obtain ⟨rest, hsort⟩ := List.head?_eq_some_iff.mp hhead
    have hsorted := Finset.pairwise_sort (l.map f).toFinset (· ≥ ·)
    have hgreatest : ∀ b ∈ l, f b ≤ a := by
      intro b hb
      have hmem : f b ∈ (l.map f).toFinset := List.mem_toFinset.mpr (List.mem_map_of_mem hb)
      rw [← Finset.mem_sort (· ≥ ·), hsort] at hmem
      rw [hsort] at hsorted
      rcases List.mem_cons.mp hmem with heq | hmem
      · exact heq.le
      · exact (List.pairwise_cons.mp hsorted).1 _ hmem
    have hmem : a ∈ (l.map f).toFinset := by
      rw [← Finset.mem_sort (· ≥ ·), hsort]
      exact List.mem_cons_self
    obtain ⟨b, hb, rfl⟩ := List.mem_map.mp (List.mem_toFinset.mp hmem)
    cases hmax : l.argmax f with
    | none =>
      rw [List.argmax_eq_none] at hmax
      rw [hmax] at hb
      cases hb
    | some b' =>
      exact congrArg some (le_antisymm (List.le_of_mem_argmax hb hmax)
        (hgreatest b' (List.argmax_mem hmax)))

end OrderedScan
