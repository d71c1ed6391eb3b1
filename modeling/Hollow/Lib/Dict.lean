import Mathlib.Data.List.AList

/-! Finite maps with values of one type, and rows put into them one after another. -/

abbrev Dict (κ β : Type) := AList fun _ : κ => β

namespace Dict

variable {κ β : Type} [DecidableEq κ] {d : Dict κ β} {rows : List (κ × β)} {k : κ} {v : β}

def pairs (d : Dict κ β) : List (κ × β) := d.entries.map fun e => (e.1, e.2)

/-- `d` with the rows put into it; of two rows with one key the later stays. -/
def extend (d : Dict κ β) (rows : List (κ × β)) : Dict κ β :=
  rows.foldl (fun d r => d.insert r.1 r.2) d

theorem mem_pairs : (k, v) ∈ d.pairs ↔ d.lookup k = some v := by
  rw [pairs, List.mem_map, ← Option.mem_def, AList.mem_lookup_iff]
  constructor
  · rintro ⟨⟨a, b⟩, he, heq⟩
    cases heq
    exact he
  · exact fun he => ⟨_, he, rfl⟩

theorem lookup_insert_ite (d : Dict κ β) (k k' : κ) (v : β) :
    (d.insert k v).lookup k' = if k' = k then some v else d.lookup k' := by
  split_ifs with h
  · rw [h, AList.lookup_insert]
  · exact AList.lookup_insert_ne h

theorem lookup_erase_ite (d : Dict κ β) (k k' : κ) :
    (d.erase k).lookup k' = if k' = k then none else d.lookup k' := by
  split_ifs with h
  · rw [h, AList.lookup_erase]
  · exact AList.lookup_erase_ne h

omit [DecidableEq κ] in
theorem nodup_keys_pairs (d : Dict κ β) : (d.pairs.map Prod.fst).Nodup := by
  rw [pairs, List.map_map]
  exact d.keys_nodup

section Foldl

variable {f : Dict κ β → κ × β → Dict κ β}
  (hf : ∀ d r, k ≠ r.1 → (f d r).lookup k = d.lookup k)
include hf

theorem lookup_foldl_of_not_mem (h : ∀ v, (k, v) ∉ rows) :
    (rows.foldl f d).lookup k = d.lookup k := by
  induction rows generalizing d with
  | nil => rfl
  | cons r rows ih =>
    have hne : k ≠ r.1 := fun heq => h r.2 (heq ▸ List.mem_cons_self)
    exact (ih fun v hv => h v (List.mem_cons_of_mem r hv)).trans (hf d r hne)

theorem lookup_foldl_of_mem {o : Option β} (hv : ∀ d, (f d (k, v)).lookup k = o)
    (h : (k, v) ∈ rows) (hone : ∀ w, (k, w) ∈ rows → w = v) :
    (rows.foldl f d).lookup k = o := by
  induction rows generalizing d with
  | nil => cases h
  | cons r rows ih =>
    by_cases hlater : (k, v) ∈ rows
    · exact ih hlater fun w hw => hone w (List.mem_cons_of_mem r hw)
    · have hr : (k, v) = r := (List.mem_cons.mp h).resolve_right hlater
      have hnot : ∀ w, (k, w) ∉ rows := by
        intro w hw
        obtain rfl := hone w (List.mem_cons_of_mem r hw)
        exact hlater hw
      subst hr
      exact (lookup_foldl_of_not_mem hf hnot).trans (hv d)

end Foldl

theorem lookup_extend_of_not_mem (h : ∀ v, (k, v) ∉ rows) :
    (d.extend rows).lookup k = d.lookup k :=
  lookup_foldl_of_not_mem (fun _ _ hne => AList.lookup_insert_ne hne) h

theorem lookup_extend_of_mem (h : (k, v) ∈ rows) (hone : ∀ w, (k, w) ∈ rows → w = v) :
    (d.extend rows).lookup k = some v :=
  lookup_foldl_of_mem (fun _ _ hne => AList.lookup_insert_ne hne) (fun _ => AList.lookup_insert _)
    h hone

theorem lookup_extend_pairs (e : Dict κ β) :
    (d.extend e.pairs).lookup k = (e.lookup k).or (d.lookup k) := by
  cases he : e.lookup k with
  | none =>
    refine lookup_extend_of_not_mem fun v hv => ?_
    rw [mem_pairs, he] at hv
    cases hv
  | some v =>
    refine lookup_extend_of_mem (mem_pairs.mpr he) fun w hw => ?_
    rw [mem_pairs, he] at hw
    exact (Option.some_inj.mp hw).symm

/-- Rows that agree on a key extend a dictionary alike at that key. -/
theorem lookup_extend_congr {e : Dict κ β} {rows' : List (κ × β)}
    (hd : d.lookup k = e.lookup k) (hrows : ∀ v, (k, v) ∈ rows ↔ (k, v) ∈ rows')
    (hone : ∀ v w, (k, v) ∈ rows' → (k, w) ∈ rows' → v = w) :
    (d.extend rows).lookup k = (e.extend rows').lookup k := by
  by_cases h : ∃ v, (k, v) ∈ rows'
  · obtain ⟨v, hv⟩ := h
    rw [lookup_extend_of_mem ((hrows v).mpr hv) fun w hw => hone w v ((hrows w).mp hw) hv,
      lookup_extend_of_mem hv fun w hw => hone w v hw hv]
  · rw [lookup_extend_of_not_mem fun v hv => h ⟨v, (hrows v).mp hv⟩,
      lookup_extend_of_not_mem fun v hv => h ⟨v, hv⟩, hd]

theorem lookup_extend_map_of_mem {keys : List κ} (f : κ → β) (h : k ∈ keys) :
    (d.extend (keys.map fun k => (k, f k))).lookup k = some (f k) := by
  refine lookup_extend_of_mem (List.mem_map.mpr ⟨k, h, rfl⟩) fun w hw => ?_
  obtain ⟨a, _, ha⟩ := List.mem_map.mp hw
  cases ha
  rfl

theorem lookup_extend_map_of_not_mem {keys : List κ} (f : κ → β) (h : k ∉ keys) :
    (d.extend (keys.map fun k => (k, f k))).lookup k = d.lookup k := by
  refine lookup_extend_of_not_mem fun v hv => ?_
  obtain ⟨a, ha, heq⟩ := List.mem_map.mp hv
  cases heq
  exact h ha

end Dict
