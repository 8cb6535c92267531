import XMach.Kern.Clock
import Mathlib.Algebra.Order.Ring.Int
import Mathlib.Tactic.Ring

/-!
# A gradual adjustment of the time

An adjustment that is not negative is rounded to a multiple of `tickdelta`, which each tick then
takes off, so that nothing is left in the end (`Steps`). A negative one is a large unsigned number:
it is always taken for a big one, and it is rounded to a multiple of ten times `tickadj` as such.
Since 5 does not divide `2 ^ 32`, what this leaves of it as an `int` is no multiple of the step
(`OffStep`): `timedelta` goes back and forth over zero forever.
-/

namespace XMach.Clock

variable {s s₀ : State} {adj : TimeValue} {usec a d t : ℤ} {k n : ℕ}

theorem TimeValue.addUsec_micros (v : TimeValue) (m : ℤ) : (v.addUsec m).micros = v.micros + m := by
  unfold addUsec micros
  split <;> simp only <;> omega

theorem int_of_lt (hlo : -2 ^ 31 ≤ a) (hhi : a < 2 ^ 31) : int a = a :=
  Int.bmod_eq_of_le (by omega) (by omega)

theorem int_of_ge (hlo : 2 ^ 31 ≤ a) (hhi : a < 2 ^ 32) : int a = a - 2 ^ 32 := by
  rw [int, Int.bmod_def]
  split <;> omega

theorem ticks_succ : ticks usec (n + 1) s = clockInterrupt usec (ticks usec n s) :=
  Function.iterate_succ_apply' _ _ _

/-- The step that is meant for an adjustment. -/
def delta (a : ℤ) : ℤ := if bigadj < a.natAbs then 10 * tickadj else tickadj

theorem delta_pos (a : ℤ) : 0 < delta a := by
  unfold delta
  split <;> decide

/-- The adjustment, rounded toward zero to a multiple of the step. -/
def rounded (a : ℤ) : ℤ := a.tdiv (delta a) * delta a

/-- The adjustment `adj` comes to an end. -/
structure Converges (usec : ℤ) (adj : TimeValue) (s₀ : State) : Prop where
  ends : ∃ n, ∀ m, n ≤ m → (ticks usec m s₀).timedelta = 0
  advanced : ∀ n, (ticks usec n s₀).timedelta = 0 →
    (ticks usec n s₀).time.micros = s₀.time.micros + n * usec + rounded adj.micros
  /-- the part that is not yet applied -/
  old : ∀ n adj', (hostAdjustTime adj' (ticks usec n s₀)).2.micros =
    rounded adj.micros - ((ticks usec n s₀).time.micros - s₀.time.micros - n * usec)

section Steps

/-- `k` steps of `d` are left. -/
structure Left (d : ℤ) (k : ℕ) (s : State) : Prop where
  tickdelta : s.tickdelta = d
  timedelta : s.timedelta = k * d
  bound : k * d < 2 ^ 31

theorem Left.tick (usec : ℤ) (hd : 0 < d) (h : Left d k s) :
    Left d (k - 1) (clockInterrupt usec s) ∧
    (clockInterrupt usec s).time.micros = s.time.micros + usec + (min k 1 : ℕ) * d := by
  obtain ⟨htick, htime, hbound⟩ := h
  unfold clockInterrupt
  cases k with
  | zero =>
    rw [if_pos (by rw [htime]; simp)]
    refine ⟨⟨htick, htime, hbound⟩, ?_⟩
    rw [TimeValue.addUsec_micros]
    simp
  | succ k =>
    have hk : ((k + 1 : ℕ) : ℤ) * d = k * d + d := by push_cast; ring
    have hnonneg : 0 ≤ (k : ℤ) * d := Int.mul_nonneg (Int.natCast_nonneg k) hd.le
    rw [if_neg (by omega), if_neg (by omega)]
    refine ⟨⟨htick, ?_, by simp only [Nat.add_sub_cancel]; omega⟩, ?_⟩
    · simp only [Nat.add_sub_cancel]
      rw [int_of_lt (by omega) (by omega)]
      omega
    · simp only [TimeValue.addUsec_micros, htick]
      rw [Nat.min_eq_right (by omega)]
      push_cast
      ring

theorem Left.ticks (usec : ℤ) (hd : 0 < d) (h : Left d k s) (n : ℕ) :
    Left d (k - n) (ticks usec n s) ∧
    (Clock.ticks usec n s).time.micros = s.time.micros + n * usec + (min k n : ℕ) * d := by
  induction n with
  | zero => exact ⟨h, by simp [Clock.ticks]⟩
  | succ n ih =>
    rw [ticks_succ]
    obtain ⟨hleft, htime⟩ := ih.1.tick usec hd
    refine ⟨by rw [Nat.sub_add_eq]; exact hleft, ?_⟩
    have hmin : ((min k (n + 1) : ℕ) : ℤ) = (min k n : ℕ) + (min (k - n) 1 : ℕ) := by omega
    rw [htime, ih.2, hmin]
    push_cast
    ring

/-- The old adjustment is what is left. -/
theorem old_micros (adj' : TimeValue) : (hostAdjustTime adj' s).2.micros = s.timedelta := by
  have := Int.tdiv_mul_add_tmod s.timedelta 1000000
  simpa [hostAdjustTime, TimeValue.micros] using this

theorem Left.converges (h : Left (delta adj.micros) k s₀)
    (hk : k * delta adj.micros = rounded adj.micros) : Converges usec adj s₀ := by
  have hd := delta_pos adj.micros
  have hrun (n : ℕ) := h.ticks usec hd n
  have hzero (n : ℕ) (hn : (Clock.ticks usec n s₀).timedelta = 0) : k ≤ n := by
    rw [(hrun n).1.timedelta] at hn
    have := (Int.mul_eq_zero.1 hn).resolve_right hd.ne'
    omega
  refine ⟨⟨k, fun m hm => ?_⟩, fun n hn => ?_, fun n adj' => ?_⟩
  · rw [(hrun m).1.timedelta, Nat.sub_eq_zero_of_le hm]
    simp
  · rw [(hrun n).2, Nat.min_eq_left (hzero n hn), hk]
  · have hsplit : (k : ℤ) = (k - n : ℕ) + (min k n : ℕ) := by omega
    rw [old_micros, (hrun n).1.timedelta, (hrun n).2, ← hk, hsplit]
    ring

end Steps

section Adjust

/-- What `timedelta` becomes is a multiple of `tickdelta` as an unsigned number. -/
theorem hostAdjustTime_eq : (hostAdjustTime adj s).1 = { s with
    tickdelta := choose s (unsigned adj.micros)
    timedelta := int ((unsigned adj.micros / unsigned (choose s (unsigned adj.micros)) *
      unsigned (choose s (unsigned adj.micros)) : ℕ)) } := by
  unfold hostAdjustTime TimeValue.micros
  simp only
  split
  · rfl
  · next h => rw [Nat.div_mul_cancel (Nat.dvd_of_mod_eq_zero (not_not.1 h))]

theorem unsigned_nat (h₀ : 0 ≤ a) (h : a < 2 ^ 32) : (unsigned a : ℤ) = a := by
  unfold unsigned
  omega

theorem choose_of_nonneg (hs : s.timedelta = 0) (h₀ : 0 ≤ a) (h : a < 2 ^ 31) :
    choose s (unsigned a) = delta a := by
  have hcast := unsigned_nat h₀ (by omega)
  have hbig : unsigned bigadj = 1000000 := rfl
  unfold choose delta
  rw [if_pos hs, hbig]
  split <;> split <;> simp only [bigadj] at * <;> omega

/-- A negative adjustment is taken for a big one. -/
theorem choose_of_neg (hs : s.timedelta = 0) (hlo : -2 ^ 31 < a) (hneg : a < 0) :
    choose s (unsigned a) = 10 * tickadj := by
  have hbig : unsigned bigadj = 1000000 := rfl
  have ha : unsigned a > 1000000 := by unfold unsigned; omega
  rw [choose, if_pos hs, hbig, if_pos ha]

theorem left_of_nonneg (hs : s.timedelta = 0) (h₀ : 0 ≤ adj.micros) (h : adj.micros < 2 ^ 31) :
    ∃ k, Left (delta adj.micros) k (hostAdjustTime adj s).1 ∧
    k * delta adj.micros = rounded adj.micros := by
  have hd := delta_pos adj.micros
  have hd' : delta adj.micros < 2 ^ 32 := by unfold delta; split <;> decide
  have hcast := unsigned_nat h₀ (by omega)
  have hstep := unsigned_nat hd.le hd'
  have hdiv : ((unsigned adj.micros / unsigned (delta adj.micros) : ℕ) : ℤ) * delta adj.micros =
      rounded adj.micros := by
    rw [rounded, Int.tdiv_eq_ediv_of_nonneg h₀, Int.natCast_div, hcast, hstep]
  have hle : rounded adj.micros ≤ adj.micros := by
    rw [rounded, Int.tdiv_eq_ediv_of_nonneg h₀]
    exact Int.ediv_mul_le _ hd.ne'
  have hnonneg : 0 ≤ rounded adj.micros := by
    rw [← hdiv]
    exact Int.mul_nonneg (Int.natCast_nonneg _) hd.le
  refine ⟨unsigned adj.micros / unsigned (delta adj.micros), ⟨?_, ?_, by omega⟩, hdiv⟩
  · rw [hostAdjustTime_eq, choose_of_nonneg hs h₀ h]
  · rw [hostAdjustTime_eq, choose_of_nonneg hs h₀ h]
    simp only
    rw [Int.natCast_mul, hstep, hdiv, int_of_lt (by omega) (by omega)]

/-- `timedelta` is below the step, and is no multiple of it. -/
structure OffStep (s : State) : Prop where
  tickdelta : s.tickdelta = 50
  rest : s.timedelta % 50 = 4
  bound : -2 ^ 31 ≤ s.timedelta ∧ s.timedelta < 50

theorem OffStep.tick (h : OffStep s) : OffStep (clockInterrupt usec s) := by
  obtain ⟨htick, hrest, hbound⟩ := h
  unfold clockInterrupt
  rw [if_neg (by omega)]
  split
  · refine ⟨htick, ?_, ?_⟩ <;> simp only [htick] <;> rw [int_of_lt (by omega) (by omega)] <;> omega
  · refine ⟨htick, ?_, ?_⟩ <;> simp only [htick] <;> rw [int_of_lt (by omega) (by omega)] <;> omega

theorem OffStep.ticks (usec : ℤ) (h : OffStep s) (n : ℕ) : OffStep (ticks usec n s) := by
  induction n with
  | zero => exact h
  | succ n ih =>
    rw [ticks_succ]
    exact ih.tick

theorem hostAdjustTime_of_neg (hs : s.timedelta = 0) (hlo : -2 ^ 31 < adj.micros)
    (hneg : adj.micros < 0) : (hostAdjustTime adj s).1.tickdelta = 50 ∧
      (hostAdjustTime adj s).1.timedelta = int ((adj.micros + 2 ^ 32) / 50 * 50) := by
  have hcast : (unsigned adj.micros : ℤ) = adj.micros + 2 ^ 32 := by unfold unsigned; omega
  have hstep : unsigned (10 * tickadj) = 50 := rfl
  have hround : ((unsigned adj.micros / 50 * 50 : ℕ) : ℤ) =
    (adj.micros + 2 ^ 32) / 50 * 50 := by omega
  rw [hostAdjustTime_eq, choose_of_neg hs hlo hneg, hstep, hround]
  exact ⟨rfl, rfl⟩

theorem Converges.nonneg (hs : s.timedelta = 0) (hlo : -2 ^ 31 < adj.micros)
    (h : Converges usec adj (hostAdjustTime adj s).1) : 0 ≤ adj.micros := by
  by_contra hneg
  obtain ⟨htick, htime⟩ := hostAdjustTime_of_neg hs hlo (not_le.1 hneg)
  generalize (hostAdjustTime adj s).1 = s₀ at h htick htime
  by_cases hsmall : (adj.micros + 2 ^ 32) / 50 * 50 < 2 ^ 31
  · -- the unsigned number is rounded below `2 ^ 31`: the adjustment is applied forwards
    have ha : adj.micros = -2147483647 := by omega
    rw [ha] at htime
    have hleft : Left 50 42949672 s₀ := ⟨htick, htime, by decide⟩
    obtain ⟨hend, hmicros⟩ := hleft.ticks usec (by decide) 42949672
    have hadvanced := h.advanced 42949672 (by rw [hend.timedelta]; rfl)
    have hrounded : rounded (-2147483647) = -2147483600 := by decide
    rw [ha, hrounded, hmicros] at hadvanced
    rw [Nat.min_self] at hadvanced
    omega
  · have hval : s₀.timedelta = (adj.micros + 2 ^ 32) / 50 * 50 - 2 ^ 32 := by
      rw [htime, int_of_ge (by omega) (by omega)]
    have hoff : OffStep s₀ := ⟨htick, by omega, by omega⟩
    obtain ⟨n, hn⟩ := h.ends
    have hzero := hn n le_rfl
    have hrest := (hoff.ticks usec n).rest
    rw [hzero] at hrest
    cases hrest

end Adjust

/-- An adjustment that is made while none is pending comes to an end if it is not negative, and only
then. -/
theorem adjustment_converges (hs : s.timedelta = 0) (hlo : -2 ^ 31 < adj.micros)
    (hhi : adj.micros < 2 ^ 31) : Converges usec adj (hostAdjustTime adj s).1 ↔ 0 ≤ adj.micros := by
  refine ⟨Converges.nonneg hs hlo, fun h₀ => ?_⟩
  obtain ⟨k, hleft, hk⟩ := left_of_nonneg hs h₀ hhi
  exact hleft.converges hk

/-- Twelve microseconds are applied as two steps of five. -/
theorem adjustment_converges_twelve :
    ∃ s : State, (hostAdjustTime ⟨0, 12⟩ s).1.timedelta = 10 ∧
    Converges 10000 ⟨0, 12⟩ (hostAdjustTime ⟨0, 12⟩ s).1 :=
  ⟨⟨⟨1000, 0⟩, 0, 0⟩, by decide, (adjustment_converges rfl (by decide) (by decide)).2 (by decide)⟩

/-- One microsecond back: after any number of ticks, `timedelta` is not zero. -/
theorem negative_adjustment_stays :
    ∃ s : State, s.timedelta = 0 ∧ (hostAdjustTime ⟨0, -1⟩ s).1.timedelta = -46 ∧
      ¬Converges 10000 ⟨0, -1⟩ (hostAdjustTime ⟨0, -1⟩ s).1 := by
  refine ⟨⟨⟨1000, 0⟩, 0, 0⟩, rfl, by decide, fun h => ?_⟩
  have hoff : OffStep (hostAdjustTime ⟨0, -1⟩ ⟨⟨1000, 0⟩, 0, 0⟩).1 := ⟨rfl, by decide, by decide⟩
  obtain ⟨n, hn⟩ := h.ends
  have hrest := (hoff.ticks 10000 n).rest
  rw [hn n le_rfl] at hrest
  cases hrest

end XMach.Clock
