import Mathlib

/-! Folds that judge. A machine holds a predicate that says which inputs a state takes and the
change an accepted input makes. A run applies a list of inputs in order and skips each one that the
state it meets refuses. -/

/-- Which inputs a state takes, and what an input it takes changes. -/
structure JudgedFold (σ α : Type*) where
  allowed : σ → α → Bool
  apply : σ → α → σ

namespace JudgedFold

variable {σ α : Type*} (m : JudgedFold σ α)

def step (s : σ) (a : α) : σ := if m.allowed s a then m.apply s a else s

def run (s : σ) (l : List α) : σ := l.foldl m.step s

def admitted : σ → List α → List α
  | _, [] => []
  | s, a :: l => if m.allowed s a then a :: admitted (m.apply s a) l else admitted s l

/-- Every input is taken by the state it meets. -/
def Accepted : σ → List α → Prop
  | _, [] => True
  | s, a :: l => m.allowed s a ∧ Accepted (m.apply s a) l

variable {m} {s t : σ} {a : α} {l l' : List α}

@[simp] theorem run_nil : m.run s [] = s := rfl

theorem run_cons : m.run s (a :: l) = m.run (m.step s a) l := rfl

@[simp] theorem step_of_allowed (h : m.allowed s a) : m.step s a = m.apply s a := if_pos h

@[simp] theorem step_of_refused (h : m.allowed s a = false) : m.step s a = s := by simp [step, h]

@[simp] theorem admitted_nil : m.admitted s [] = [] := rfl

theorem admitted_cons :
    m.admitted s (a :: l) =
      if m.allowed s a then a :: m.admitted (m.apply s a) l else m.admitted s l := rfl

/-- Refused ops leave no trace. -/
theorem run_admitted : m.run s (m.admitted s l) = m.run s l := by
  induction l generalizing s with
  | nil => rfl
  | cons a l ih =>
    rw [admitted_cons, run_cons]
    by_cases h : m.allowed s a
    · rw [if_pos h, run_cons, step_of_allowed h, ih]
    · rw [if_neg h, ih, step_of_refused (by simpa using h)]

/-- The invariant rule: what every allowed step keeps holds after the run. -/
theorem run_induction {P : σ → Prop} (h0 : P s)
    (hstep : ∀ s a, a ∈ l → P s → m.allowed s a → P (m.apply s a)) : P (m.run s l) := by
  induction l generalizing s with
  | nil => exact h0
  | cons a l ih =>
    rw [run_cons]
    refine ih ?_ fun s b hb => hstep s b (List.mem_cons_of_mem a hb)
    by_cases h : m.allowed s a
    · rw [step_of_allowed h]
      exact hstep s a List.mem_cons_self h0 h
    · rwa [step_of_refused (by simpa using h)]

end JudgedFold
