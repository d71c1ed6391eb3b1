import Mathlib

/-! Fields joined by a separator. Where no field holds the separator, a joined text is read back in
one way only; what comes after the last field may hold it. -/

namespace Delimited

variable {α : Type*}

/-- Fields, each closed by the separator, and a rest. -/
def encode (sep : α) (fields : List (List α)) (rest : List α) : List α :=
  fields.foldr (fun field rest => field ++ sep :: rest) rest

variable {sep : α} {fields fields' : List (List α)} {field field' rest rest' : List α}

@[simp] theorem encode_nil : encode sep [] rest = rest := rfl

@[simp] theorem encode_cons :
    encode sep (field :: fields) rest = field ++ sep :: encode sep fields rest := rfl

theorem field_inj (h : sep ∉ field) (h' : sep ∉ field')
    (heq : field ++ sep :: rest = field' ++ sep :: rest') : field = field' ∧ rest = rest' := by
  induction field generalizing field' with
  | nil =>
    cases field' with
    | nil => exact ⟨rfl, List.tail_eq_of_cons_eq heq⟩
    | cons a field' =>
      obtain rfl : sep = a := List.head_eq_of_cons_eq heq
      exact absurd List.mem_cons_self h'
  | cons b field ih =>
    cases field' with
    | nil =>
      obtain rfl : b = sep := List.head_eq_of_cons_eq heq
      exact absurd List.mem_cons_self h
    | cons a field' =>
      obtain rfl : b = a := List.head_eq_of_cons_eq heq
      obtain ⟨rfl, rfl⟩ := ih (fun hm => h (List.mem_cons_of_mem _ hm))
        (fun hm => h' (List.mem_cons_of_mem _ hm)) (List.tail_eq_of_cons_eq heq)
      exact ⟨rfl, rfl⟩

theorem last_inj (h : sep ∉ field) (h' : sep ∉ field')
    (heq : rest ++ sep :: field = rest' ++ sep :: field') : rest = rest' ∧ field = field' := by
  have hreverse := congrArg List.reverse heq
  simp only [List.reverse_append, List.reverse_cons, List.append_assoc, List.singleton_append]
    at hreverse
  obtain ⟨hfield, hrest⟩ := field_inj (by simpa using h) (by simpa using h') hreverse
  exact ⟨List.reverse_injective hrest, List.reverse_injective hfield⟩

/-- Fields free of the separator can be read back from their encoding. -/
theorem encode_inj (hlength : fields.length = fields'.length) (h : ∀ field ∈ fields, sep ∉ field)
    (h' : ∀ field ∈ fields', sep ∉ field)
    (heq : encode sep fields rest = encode sep fields' rest') :
    fields = fields' ∧ rest = rest' := by
  induction fields generalizing fields' with
  | nil =>
    obtain rfl : fields' = [] := List.length_eq_zero_iff.1 hlength.symm
    exact ⟨rfl, heq⟩
  | cons field fields ih =>
    cases fields' with
    | nil => cases hlength
    | cons field' fields' =>
      obtain ⟨rfl, htail⟩ := field_inj (h field List.mem_cons_self) (h' field' List.mem_cons_self)
        heq
      obtain ⟨rfl, rfl⟩ := ih (by simpa using hlength)
        (fun f hf => h f (List.mem_cons_of_mem _ hf))
        (fun f hf => h' f (List.mem_cons_of_mem _ hf)) htail
      exact ⟨rfl, rfl⟩

end Delimited
