import Dvcs.Instant

/-!
This module contains the way of whole seconds into moments and back.
-/

namespace Dvcs

namespace Instant

theorem wholeSeconds_mul (s : Int) : wholeSeconds (s * 1000000) = s := by
  have hnat : (s * 1000000).natAbs = s.natAbs * 1000000 := Int.natAbs_mul ..
  unfold wholeSeconds
  dsimp only
  rw [hnat]
  generalize hscale : Nat.pow 2 (52 - Nat.log2 (s.natAbs * 1000000 / 1000000)) = scale
  have hpos : 0 < scale := by
    rw [← hscale]
    exact Nat.pow_pos (by decide)
  rw [Nat.mul_right_comm]
  rw [Nat.mul_mod_left, Nat.mul_div_cancel _ (by decide : 0 < 1000000)]
  simp only [Nat.mul_zero, Nat.zero_lt_succ, decide_true, Bool.true_or, ↓reduceIte]
  rw [Nat.mul_div_cancel _ hpos]
  split <;> omega

/-- Moments without a fraction of a second. -/
def IsWhole (i : Instant) : Prop := i.micros % microsPerSecond = 0

theorem micros_of_isWhole {i : Instant} (h : i.IsWhole) : i.micros = i.seconds * 1000000 := by
  have hmul : i.micros / 1000000 * 1000000 = i.micros :=
    Int.ediv_mul_cancel (Int.dvd_of_emod_eq_zero h)
  have hseconds := wholeSeconds_mul (i.micros / 1000000)
  rw [hmul] at hseconds
  rw [seconds, hseconds, hmul]

theorem inCalendar_iff (micros : Int) :
    inCalendar micros = true ↔
      -62135596800000000 ≤ micros ∧ micros < 253402300800000000 := by
  unfold inCalendar
  rw [Bool.and_eq_true, decide_eq_true_eq, decide_eq_true_eq]
  rfl

theorem seconds_bounds {i : Instant} (h : i.IsWhole) :
    firstSecond ≤ i.seconds ∧ i.seconds ≤ lastSecond := by
  have hvalid := (inCalendar_iff i.micros).1 i.valid
  have hmicros := micros_of_isWhole h
  unfold firstSecond lastSecond
  omega

theorem ofSeconds_of_bounds {s : Int} (h : firstSecond ≤ s ∧ s ≤ lastSecond) :
    ∃ i : Instant, ofSeconds s = .ok i ∧ i.micros = s * 1000000 := by
  have hvalid : inCalendar (s * microsPerSecond) = true := by
    rw [inCalendar_iff]
    unfold firstSecond lastSecond at h
    unfold microsPerSecond
    omega
  exact ⟨⟨s * microsPerSecond, hvalid⟩, by simp [ofSeconds, hvalid], rfl⟩

theorem ofSeconds_seconds {i : Instant} (h : i.IsWhole) : ofSeconds i.seconds = .ok i := by
  obtain ⟨j, hj, hmicros⟩ := ofSeconds_of_bounds (seconds_bounds h)
  rw [hj]
  rw [← micros_of_isWhole h] at hmicros
  cases i
  cases j
  simp_all

end Instant

end Dvcs
