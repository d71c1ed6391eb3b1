import Hollow.Lib.Dict

/-! Maps of lists that keep no empty list: an absent key and an empty list are one. -/

namespace Dict

variable {κ α : Type} [DecidableEq κ]

def bucket (d : Dict κ (List α)) (k : κ) : List α := (d.lookup k).getD []

def setBucket (d : Dict κ (List α)) (k : κ) (l : List α) : Dict κ (List α) :=
  if l.isEmpty then d.erase k else d.insert k l

def NoEmpty (d : Dict κ (List α)) : Prop := ∀ k l, d.lookup k = some l → l ≠ []

variable {d : Dict κ (List α)} {k k' : κ} {l : List α}

@[simp] theorem bucket_setBucket : (d.setBucket k l).bucket k = l := by
  rw [setBucket]
  cases l <;> simp [bucket]

theorem bucket_setBucket_ne (h : k' ≠ k) : (d.setBucket k l).bucket k' = d.bucket k' := by
  rw [setBucket]
  cases l <;> simp [bucket, h]

@[simp] theorem bucket_empty : bucket (∅ : Dict κ (List α)) k = [] := rfl

theorem noEmpty_empty : NoEmpty (∅ : Dict κ (List α)) := by simp [NoEmpty]

/-- Writing a bucket never leaves an empty one behind. -/
theorem NoEmpty.setBucket (h : d.NoEmpty) : (d.setBucket k l).NoEmpty := by
  intro k' l' hl'
  rw [Dict.setBucket] at hl'
  by_cases hk : k' = k
  · subst hk
    cases l with
    | nil => simp at hl'
    | cons a l =>
      simp only [List.isEmpty_cons, Bool.false_eq_true, if_false, AList.lookup_insert,
        Option.some.injEq] at hl'
      exact hl' ▸ List.cons_ne_nil a l
  · cases l with
    | nil =>
      rw [List.isEmpty_nil, if_pos rfl, AList.lookup_erase_ne hk] at hl'
      exact h k' l' hl'
    | cons a l =>
      simp only [List.isEmpty_cons, Bool.false_eq_true, if_false, AList.lookup_insert_ne hk] at hl'
      exact h k' l' hl'

end Dict
