import Mathlib.Tactic.Linarith
import XMach.Kern.Priority

/-!
# The base priority over a depression

While a thread is depressed its base priority is the one to restore, and every call but two leaves
it there. `thread_depress_priority` saves the priority of a thread that is depressed already, and
`compute_priority` writes the one to restore from it when the thread changes to timesharing; both
are the lowest priority then.
-/

namespace XMach.Sched

variable {th th' : Thread} {pri p : ℤ} {setMax : Bool} {calls : List Call}

@[simp] theorem invalidPri_eq_false : invalidPri p = false ↔ 0 ≤ p ∧ p < 32 := by
  simp [invalidPri]

/-- Of a thread that is not depressed only the effective priority is computed. -/
theorem computePriority_eq (th : Thread) (h : th.depressPriority < 0) :
    ∃ v, computePriority th = { th with schedPri := v } := by
  cases hpolicy : th.policy with
  | timeshare =>
      exact ⟨doPriorityComputation th, by simp only [computePriority, hpolicy, if_pos h, setPri]⟩
  | fixedpri => exact ⟨th.priority, by simp only [computePriority, hpolicy, setPri]⟩

theorem base_of_neg (h : th.depressPriority < 0) : base th = th.priority := if_pos h

theorem base_of_nonneg (h : 0 ≤ th.depressPriority) : base th = th.depressPriority :=
  if_neg (by omega)

theorem Kept.of_neg (hd : th.depressPriority < 0) (hp : th.priority = pri)
    (hm : th.maxPriority ≤ pri) (hv : invalidPri pri = false) : Kept pri th :=
  ⟨(base_of_neg hd).trans hp, hm, hv, fun h => by omega⟩

theorem Kept.of_nonneg (hd : th.depressPriority = pri) (hm : th.maxPriority ≤ pri)
    (hv : invalidPri pri = false) (h31 : th.priority = 31 ∧ th.schedPri = 31) : Kept pri th := by
  rw [invalidPri_eq_false] at hv
  exact ⟨(base_of_nonneg (by omega)).trans hd, hm, by simpa using hv, fun _ => h31⟩

section

variable (h : Kept pri th)
include h

theorem Kept.priority (hrun : threadPriority p setMax th = some th') : Kept p th' := by
  by_cases hvalid : invalidPri p = true
  · simp [threadPriority, hvalid] at hrun
  by_cases hmax : p < th.maxPriority
  · simp [threadPriority, hvalid, hmax] at hrun
  simp only [threadPriority, if_neg hvalid, if_neg hmax, Option.some.injEq] at hrun
  obtain rfl := hrun
  have hv : invalidPri p = false := by simpa using hvalid
  by_cases hd : th.depressPriority ≥ 0
  · rw [if_pos hd]
    split_ifs
    · exact .of_nonneg rfl le_rfl hv (h.depressed hd)
    · exact .of_nonneg rfl (not_lt.1 hmax) hv (h.depressed hd)
  · obtain ⟨v, hcompute⟩ := computePriority_eq { th with priority := p } (not_le.1 hd)
    rw [if_neg hd, hcompute]
    split_ifs
    · exact .of_neg (not_le.1 hd) rfl le_rfl hv
    · exact .of_neg (not_le.1 hd) rfl (not_lt.1 hmax) hv

theorem Kept.maxPriority (hrun : threadMaxPriority p th = some th') : Kept (Max.max pri p) th' := by
  simp only [threadMaxPriority] at hrun
  split_ifs at hrun with hvalid hpri hd
  · -- a depressed thread is at the lowest priority, so this one is not
    have hv : invalidPri p = false := by simpa using hvalid
    have hdepress : th.depressPriority < 0 := by
      by_contra hd
      have := (h.depressed (not_lt.1 hd)).1
      simp only [invalidPri_eq_false] at hv hpri
      omega
    have hle : pri ≤ p := by
      rw [← h.eq, base_of_neg hdepress]
      exact le_of_lt hpri
    obtain ⟨v, hcompute⟩ :=
      computePriority_eq { th with maxPriority := p, priority := p } hdepress
    cases hrun
    rw [max_eq_right hle, hcompute]
    exact .of_neg hdepress rfl le_rfl hv
  · have hle : pri ≤ p := by
      rw [← h.eq, base_of_nonneg hd.1]
      exact le_of_lt hd.2
    cases hrun
    rw [max_eq_right hle]
    exact .of_nonneg rfl le_rfl (by simpa using hvalid) (h.depressed hd.1)
  · have hle : p ≤ pri := by
      rw [← h.eq]
      rcases lt_or_ge th.depressPriority 0 with hneg | hnonneg
      · rw [base_of_neg hneg]
        exact not_lt.1 hpri
      · rw [base_of_nonneg hnonneg]
        exact not_lt.1 fun hlt => hd ⟨hnonneg, hlt⟩
    cases hrun
    rw [max_eq_left hle]
    exact ⟨h.eq, hle, h.valid, h.depressed⟩

theorem Kept.depressPriority : Kept pri (threadDepressPriority th) ↔
    Call.depressPriority.careful th := by
  have hv := h.valid
  rw [invalidPri_eq_false] at hv
  rcases lt_or_ge th.depressPriority 0 with hneg | hnonneg
  · have hpri : th.priority = pri := (base_of_neg hneg).symm.trans h.eq
    exact iff_of_true (.of_nonneg hpri h.max h.valid ⟨rfl, rfl⟩) fun hd => absurd hd (not_le.2 hneg)
  · obtain ⟨hpri, -⟩ := h.depressed hnonneg
    have hbase : base (threadDepressPriority th) = 31 := by
      rw [base, threadDepressPriority, hpri]
      rfl
    constructor
    · intro h' _
      rw [h.eq, ← h'.eq, hbase]
    · intro hcareful
      have h31 : pri = 31 := h.eq.symm.trans (hcareful hnonneg)
      exact .of_nonneg (hpri.trans h31.symm) h.max h.valid ⟨rfl, rfl⟩

theorem Kept.depressAbort : Kept pri (threadDepressAbort th) := by
  unfold threadDepressAbort
  split_ifs with hd
  · obtain ⟨v, hcompute⟩ :=
      computePriority_eq { th with
        priority := th.depressPriority
        depressPriority := -1 } neg_one_lt_zero
    rw [hcompute]
    exact .of_neg neg_one_lt_zero ((base_of_nonneg hd).symm.trans h.eq) h.max h.valid
  · exact h

theorem Kept.updatePriority (usage : BitVec 32) : Kept pri (updatePriority usage th) := by
  simp only [Sched.updatePriority]
  split_ifs with hd
  · exact .of_neg hd.2 ((base_of_neg hd.2).symm.trans h.eq) h.max h.valid
  · exact ⟨h.eq, h.max, h.valid, h.depressed⟩

theorem Kept.policy {policies : Policy → Bool} {new : Policy}
    (hrun : threadPolicy policies new th = some th') :
    Kept pri th' ↔ (Call.policy policies new).careful th := by
  unfold threadPolicy at hrun
  split_ifs at hrun with hsame hallowed
  · cases hrun
    exact iff_of_true h fun hnew _ hchange => absurd (hsame.symm.trans hnew) hchange
  · cases hrun
    rcases lt_or_ge th.depressPriority 0 with hneg | hnonneg
    · obtain ⟨v, hcompute⟩ := computePriority_eq { th with policy := new } hneg
      rw [hcompute]
      exact iff_of_true (.of_neg hneg ((base_of_neg hneg).symm.trans h.eq) h.max h.valid)
        fun _ hd => absurd hd (not_le.2 hneg)
    · obtain ⟨hpri, hsched⟩ := h.depressed hnonneg
      cases new with
      | fixedpri =>
        refine iff_of_true ?_ fun hnew => nomatch hnew
        exact .of_nonneg ((base_of_nonneg hnonneg).symm.trans h.eq) h.max h.valid ⟨hpri, hpri⟩
      | timeshare =>
        -- what is written is computed from the depressed priority
        have hcompute : computePriority { th with policy := .timeshare } =
            { th with policy := .timeshare, depressPriority := 31 } := by
          simp only [computePriority, if_neg (not_lt.2 hnonneg), doPriorityComputation, hpri,
            Thread.mk.injEq, true_and, and_self, and_true]
          exact min_eq_left (by omega)
        rw [hcompute]
        constructor
        · intro h' _ _ _ _
          rw [h.eq, ← h'.eq]
          rfl
        · intro hcareful
          have h31 : pri = 31 :=
            h.eq.symm.trans (hcareful rfl hnonneg (fun he => hsame he.symm)
              (by simpa using hallowed))
          exact .of_nonneg h31.symm h.max h.valid ⟨hpri, hsched⟩

/-- A call leaves the thread as intended exactly if it is careful. -/
theorem Kept.apply (c : Call) : Kept (c.intended th pri) (c.apply th) ↔ c.careful th := by
  unfold Call.apply Call.intended
  cases c with
  | priority p setMax =>
    refine iff_of_true ?_ trivial
    cases hrun : (Call.priority p setMax).run th with
    | none => exact h
    | some th' => exact h.priority hrun
  | maxPriority p =>
    refine iff_of_true ?_ trivial
    cases hrun : (Call.maxPriority p).run th with
    | none => exact h
    | some th' => exact h.maxPriority hrun
  | policy policies new =>
    cases hrun : (Call.policy policies new).run th with
    | none =>
      refine iff_of_true h fun hnew _ hchange hallowed => ?_
      obtain rfl := hnew
      simp only [Call.run, threadPolicy, if_neg hchange.symm, hallowed] at hrun
      cases hrun
    | some th' => exact h.policy hrun
  | depressPriority => exact h.depressPriority
  | depressAbort => exact iff_of_true h.depressAbort trivial
  | depressTimeout => exact iff_of_true h.depressAbort trivial
  | updatePriority usage => exact iff_of_true (h.updatePriority usage) trivial

end

/-- One call keeps the base priority if and only if it is careful, and so every run of careful calls
leaves the intended base priority, at or below the maximum one, with a depression showing in the
priority and the effective priority only. -/
theorem base_priority_kept (th : Thread) (pri : ℤ) (h : Kept pri th) :
    (∀ c : Call, Kept (c.intended th pri) (c.apply th) ↔ c.careful th) ∧
    (∀ calls : List Call, carefulRun th calls →
    Kept (run th pri calls).2 (run th pri calls).1) := by
  refine ⟨h.apply, fun calls hcalls => ?_⟩
  induction calls generalizing th pri with
  | nil => exact h
  | cons c calls ih =>
    obtain ⟨hc, hrest⟩ := hcalls
    exact ih _ _ ((h.apply c).2 hc) hrest

/-- A thread at 12 that is set to 10, depressed, set to 20 meanwhile, and restored. -/
theorem base_priority_kept_depressed :
    let calls := [Call.priority 10 false, .depressPriority, .priority 20 true, .depressAbort]
    Kept (run ⟨12, 6, 12, -1, .timeshare, 0⟩ 12 calls).2
      (run ⟨12, 6, 12, -1, .timeshare, 0⟩ 12 calls).1 :=
  (base_priority_kept ⟨12, 6, 12, -1, .timeshare, 0⟩ 12 ⟨rfl, by decide, rfl,
    fun h => by simp at h⟩).2
    [.priority 10 false, .depressPriority, .priority 20 true, .depressAbort]
    ⟨trivial, fun h => absurd h (by decide), trivial, trivial, trivial⟩

/-- The priority 10 is gone after a depression within a depression, and after a change to
timesharing. -/
theorem depression_loses_priority :
    base (run ⟨10, 6, 10, -1, .timeshare, 0⟩ 10 [.depressPriority, .depressPriority,
    .depressAbort]).1 = 31 ∧ base (run ⟨10, 6, 10, -1, .fixedpri, 0⟩ 10
      [.depressPriority, .policy (fun _ => true) .timeshare, .depressTimeout]).1 = 31 := by
  decide

end XMach.Sched
