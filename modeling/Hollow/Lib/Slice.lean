import Mathlib

/-! Parts of a list by position, and lists written over a part. -/

namespace Slice

variable {α : Type*} {d d' mid post l : List α} {i j k : Nat}

def slice (d : List α) (i j : Nat) : List α := (d.drop i).take (j - i)

/-- The part from `i` to `j`, when it lies in `d`. -/
def slice? (d : List α) (i j : Nat) : Option (List α) :=
  if i ≤ j ∧ j ≤ d.length then some (slice d i j) else none

/-- `d` with `l` written over what stands at `i`. -/
def splice (d : List α) (i : Nat) (l : List α) : List α := d.take i ++ l ++ d.drop (i + l.length)

theorem length_slice (h : j ≤ d.length) : (slice d i j).length = j - i := by
  rw [slice, List.length_take, List.length_drop]
  omega

@[simp] theorem slice_of_le (h : j ≤ i) : slice d i j = [] := by
  rw [slice, Nat.sub_eq_zero_of_le h, List.take_zero]

/-- Adjacent slices join. -/
theorem slice_append_slice (hij : i ≤ j) (hjk : j ≤ k) :
    slice d i j ++ slice d j k = slice d i k := by
  have hsplit : k - i = j - i + (k - j) := by omega
  have hdrop : d.drop j = (d.drop i).drop (j - i) := by
    rw [List.drop_drop]
    congr 1
    omega
  rw [slice, slice, slice, hsplit, List.take_add, hdrop]

theorem slice_append (hi : d.length = i) (hj : i + mid.length = j) :
    slice (d ++ (mid ++ post)) i j = mid := by
  subst hi hj
  rw [slice, List.drop_left, Nat.add_sub_cancel_left, List.take_left]

theorem slice_eq_append_iff (hi : i ≤ k) (hk : k ≤ d.length) :
    slice d i k = mid ++ post ↔
      i + mid.length ≤ k ∧ slice d i (i + mid.length) = mid ∧
      slice d (i + mid.length) k = post := by
  constructor
  · intro h
    have hlen := congrArg List.length h
    rw [length_slice hk, List.length_append] at hlen
    have hle : i + mid.length ≤ k := by omega
    rw [← slice_append_slice (Nat.le_add_right i mid.length) hle] at h
    have hmid : (slice d i (i + mid.length)).length = mid.length := by
      rw [length_slice (hle.trans hk)]
      omega
    exact ⟨hle, List.append_inj h hmid⟩
  · rintro ⟨hle, hmid, hpost⟩
    rw [← slice_append_slice (Nat.le_add_right i mid.length) hle, hmid, hpost]

end Slice
