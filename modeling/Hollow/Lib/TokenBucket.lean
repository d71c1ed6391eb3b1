import Mathlib

/-! Token buckets. Two buckets of one rate and one cap, filled at different moments, keep a bound on
how far one may lag behind the other. -/

namespace TokenBucket

/-- The level after a time, never above the cap. -/
def fill (rate cap level elapsed : Int) : Int := min (level + elapsed * rate) cap

/-- The level after a payment, never below the floor. -/
def pay (floor level units : Int) : Int := max (level - units) floor

variable {rate cap floor u v elapsed elapsed' lag lag' units units' : Int}

theorem fill_le_cap : fill rate cap u elapsed ≤ cap := min_le_right _ _

theorem fill_mono (h : u ≤ v) : fill rate cap u elapsed ≤ fill rate cap v elapsed :=
  min_le_min_right cap (by linarith)

/-- A bucket ahead of another by at most a lag's refill stays so as both fill. -/
theorem fill_le_fill (hrate : 0 ≤ rate) (h : u ≤ v + lag * rate)
    (helapsed : elapsed + lag ≤ elapsed' + lag') (hlag : 0 ≤ lag') :
    fill rate cap u elapsed ≤ fill rate cap v elapsed' + lag' * rate := by
  rw [fill, fill, ← min_add_add_right]
  refine le_min ?_ ?_
  · calc min (u + elapsed * rate) cap ≤ u + elapsed * rate := min_le_left _ _
      _ ≤ v + (elapsed + lag) * rate := by linarith
      _ ≤ v + (elapsed' + lag') * rate := by gcongr
      _ = v + elapsed' * rate + lag' * rate := by ring
  · calc min (u + elapsed * rate) cap ≤ cap := min_le_right _ _
      _ ≤ cap + lag' * rate := le_add_of_nonneg_right (mul_nonneg hlag hrate)

theorem pay_le_pay {k : Int} (h : u ≤ v + k) (hk : 0 ≤ k) (hunits : units' ≤ units) :
    pay floor u units ≤ pay floor v units' + k := by
  rw [pay, pay]
  refine max_le ?_ ?_
  · have := le_max_left (v - units') floor
    linarith
  · have := le_max_right (v - units') floor
    linarith

theorem floor_le_pay : floor ≤ pay floor u units := le_max_right _ _

theorem fill_min (hrate : 0 ≤ rate) {most : Int} (hmost : cap ≤ u + most * rate) :
    fill rate cap u (min elapsed most) = fill rate cap u elapsed := by
  rcases le_total elapsed most with h | h
  · rw [min_eq_left h]
  · rw [min_eq_right h, fill, fill, min_eq_right hmost, min_eq_right]
    have := mul_le_mul_of_nonneg_right h hrate
    linarith

end TokenBucket
