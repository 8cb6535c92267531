import Mathlib.Algebra.Order.BigOperators.Group.Finset
import Mathlib.Tactic.Linarith
import XMach.Kern.RunQueue
import XMach.Lib.Totals

/-!
# What the hint of a run queue is worth

The count is that of the queued threads, and no queue before `low` has a thread: that much holds
over all operations, so that the search for a thread always finds the best one. Selection leaves
`low` at a queue that is not empty, but `rem_runq` and the scan do not look at it.
-/

namespace XMach.Sched

open Function

variable {T : Type} {rq rq' : RunQueue T} {th : T} {i j pri : ℕ}

namespace RunQueue

/-- What holds of a run queue at any time. -/
structure Counted (rq : RunQueue T) : Prop where
  count : rq.count = rq.total List.length
  low : ∀ i, i < rq.low ∨ nrqs ≤ i → rq.runq i = []

/-- The hint is that of the first queue that is not empty. -/
def Exact (rq : RunQueue T) : Prop := 0 < rq.count → rq.runq rq.low ≠ []

theorem whichq_lt (pri : ℕ) : whichq pri < nrqs := by
  unfold whichq nrqs
  split_ifs <;> omega

@[simp] theorem set_runq (q : List T) : (rq.set i q).runq j = if j = i then q else rq.runq j := by
  simp [set, update_apply]

theorem total_set (hi : i < nrqs) (q : List T) (m : List T → ℕ) :
    (rq.set i q).total m + m (rq.runq i) = rq.total m + m q :=
  sum_update (Finset.mem_range.2 hi) rq.runq q m

theorem le_total (rq : RunQueue T) (hi : i < nrqs) (m : List T → ℕ) : m (rq.runq i) ≤ rq.total m :=
  Finset.single_le_sum (f := fun i => m (rq.runq i)) (fun _ _ => Nat.zero_le _)
    (Finset.mem_range.2 hi)

theorem Counted.nil_of_zero (h : Counted rq) (h0 : rq.count = 0) (i : ℕ) : rq.runq i = [] := by
  by_cases hi : i < nrqs
  · have := rq.le_total hi List.length
    rw [← h.count, h0] at this
    exact List.length_eq_zero_iff.1 (Nat.le_zero.1 this)
  · exact h.low i (.inr (not_lt.1 hi))

theorem Counted.lt_of_ne_nil (h : Counted rq) (hi : rq.runq i ≠ []) : rq.low ≤ i ∧ i < nrqs := by
  by_contra hcon
  exact hi (h.low i (by omega))

theorem Counted.pos_of_ne_nil (h : Counted rq) (hi : rq.runq i ≠ []) : 0 < rq.count :=
  Nat.pos_of_ne_zero fun h0 => hi (h.nil_of_zero h0 i)

section Enqueue

theorem Counted.enqueue (h : Counted rq) : Counted (rq.enqueue th pri) := by
  refine ⟨?_, fun i hi => ?_⟩
  · have := rq.total_set (whichq_lt pri) (rq.runq (whichq pri) ++ [th]) List.length
    rw [List.length_append, List.length_singleton] at this
    change rq.count + 1 = (rq.set _ _).total _
    rw [h.count]
    omega
  · have hw := whichq_lt pri
    change (rq.set _ _).runq i = []
    simp only [RunQueue.enqueue] at hi
    rw [set_runq, if_neg (by split_ifs at hi <;> omega)]
    split_ifs at hi with hlow
    · rcases hlow with hlow | h0
      · exact h.low i (by omega)
      · exact h.nil_of_zero h0 i
    · exact h.low i hi

/-- A thread that goes to the hint or before it makes the hint exact. -/
theorem exact_enqueue : Exact (rq.enqueue th pri) ↔ Exact rq ∨ whichq pri ≤ rq.low := by
  unfold Exact
  simp only [RunQueue.enqueue, Nat.succ_pos, true_imp_iff, set_runq]
  by_cases hlow : whichq pri < rq.low ∨ rq.count = 0
  · simp only [if_pos hlow, if_true, ne_eq, List.append_eq_nil_iff, List.cons_ne_self, and_false,
      not_false_eq_true, true_iff]
    rcases hlow with hlow | h0
    · exact .inr hlow.le
    · exact .inl fun hpos => absurd h0 hpos.ne'
  · have hpos : 0 < rq.count := by omega
    rw [if_neg hlow]
    by_cases heq : rq.low = whichq pri
    · simp [heq]
    · rw [if_neg heq]
      constructor
      · exact fun hne => .inl fun _ => hne
      · rintro (hne | hle)
        · exact hne hpos
        · omega

end Enqueue

section Shrink

/-- Threads have only been taken off. -/
def Shrinks (rq' rq : RunQueue T) : Prop := ∀ i, (rq'.runq i).Sublist (rq.runq i)

theorem Shrinks.nil (h : Shrinks rq' rq) (hi : rq.runq i = []) : rq'.runq i = [] :=
  List.sublist_nil.1 (hi ▸ h i)

variable [DecidableEq T]

theorem queueOf_some (h : rq.queueOf th = some i) : i < nrqs ∧ th ∈ rq.runq i := by
  obtain ⟨hmem, hlt, -⟩ := List.find?_range_eq_some.1 h
  exact ⟨List.mem_range.1 hlt, of_decide_eq_true hmem⟩

theorem queueOf_none (h : rq.queueOf th = none) (hi : i < nrqs) : th ∉ rq.runq i := by
  have := List.find?_eq_none.1 h i (List.mem_range.2 hi)
  simpa using this

theorem shrinks_remRunq : Shrinks (rq.remRunq th) rq := by
  intro j
  unfold remRunq
  cases rq.queueOf th with
  | none => exact .refl _
  | some i =>
    change ((rq.set _ _).runq j).Sublist _
    rw [set_runq]
    split_ifs with hj
    · rw [hj]
      exact List.erase_sublist
    · exact .refl _

theorem Counted.remRunq (h : Counted rq) : Counted (rq.remRunq th) := by
  refine ⟨?_, fun i hi => shrinks_remRunq.nil (h.low i ?_)⟩
  · unfold RunQueue.remRunq
    cases hq : rq.queueOf th with
    | none => exact h.count
    | some i =>
      obtain ⟨hi, hmem⟩ := queueOf_some hq
      have := rq.total_set hi ((rq.runq i).erase th) List.length
      have hpos := List.length_pos_of_mem hmem
      rw [List.length_erase_of_mem hmem] at this
      change rq.count - 1 = (rq.set _ _).total _
      rw [h.count]
      omega
  · unfold RunQueue.remRunq at hi
    cases hq : rq.queueOf th <;> rw [hq] at hi <;> exact hi

/-- `rem_runq` spoils the hint when it takes the last thread of that queue. -/
theorem exact_remRunq (h : Counted rq) (he : Exact rq) :
    Exact (rq.remRunq th) ↔ (rq.runq rq.low = [th] → rq.count = 1) := by
  unfold RunQueue.remRunq
  cases hq : rq.queueOf th with
  | none =>
    refine iff_of_true he fun hlow => ?_
    have hlt := (h.lt_of_ne_nil (i := rq.low) (by rw [hlow]; exact List.cons_ne_nil _ _)).2
    exact absurd (by rw [hlow]; exact List.mem_singleton_self th) (queueOf_none hq hlt)
  | some i =>
    obtain ⟨hi, hmem⟩ := queueOf_some hq
    have hne : rq.runq i ≠ [] := List.ne_nil_of_mem hmem
    have hpos := h.pos_of_ne_nil hne
    change (0 < rq.count - 1 → (rq.set _ _).runq rq.low ≠ []) ↔ _
    rw [set_runq]
    constructor
    · intro hexact hlow
      by_contra hcount
      refine hexact (by omega) ?_
      have hfirst : rq.low = i := by
        have hle := (h.lt_of_ne_nil hne).1
        by_contra hlt
        have := (List.find?_range_eq_some.1 hq).2.2 rq.low (by omega)
        rw [hlow] at this
        simp at this
      rw [if_pos hfirst, ← hfirst, hlow]
      simp
    · intro hcareful hcount
      split_ifs with hlow
      · intro hnil
        have hsingle : rq.runq i = [th] := by
          have hlen := List.length_erase_of_mem hmem
          rw [hnil, List.length_nil] at hlen
          obtain ⟨x, hx⟩ := List.length_eq_one_iff.1 (show (rq.runq i).length = 1 by
            have := List.length_pos_of_mem hmem
            omega)
          rw [hx, List.mem_singleton] at hmem
          rw [hx, hmem]
        have := hcareful (by rw [hlow, hsingle])
        omega
      · exact he hpos

end Shrink

section Choose

theorem firstFrom_some (h : rq.firstFrom i = some j) :
    i ≤ j ∧ j < nrqs ∧ rq.runq j ≠ [] ∧ ∀ k, i ≤ k → k < j → rq.runq k = [] := by
  obtain ⟨hj, hlt, hbefore⟩ := List.find?_range_eq_some.1 h
  simp only [Bool.and_eq_true, decide_eq_true_eq, Bool.not_eq_true',
    List.isEmpty_eq_false_iff] at hj
  refine ⟨hj.1, List.mem_range.1 hlt, hj.2, fun k hik hk => ?_⟩
  have := hbefore k hk
  simpa [hik] using this

theorem exists_firstFrom (hi : i ≤ j) (hj : j < nrqs) (hne : rq.runq j ≠ []) :
    ∃ k, rq.firstFrom i = some k := by
  refine Option.isSome_iff_exists.1 (List.find?_isSome.2 ⟨j, List.mem_range.2 hj, ?_⟩)
  simp [hi, hne]

theorem Counted.exists_ne_nil (h : Counted rq) (hpos : 0 < rq.count) :
    ∃ j, rq.low ≤ j ∧ j < nrqs ∧ rq.runq j ≠ [] := by
  rw [h.count] at hpos
  obtain ⟨j, hj, hlen⟩ := Finset.exists_ne_zero_of_sum_ne_zero hpos.ne'
  have hne : rq.runq j ≠ [] := fun hnil => hlen (by rw [hnil]; rfl)
  obtain ⟨hle, hlt⟩ := h.lt_of_ne_nil hne
  exact ⟨j, hle, hlt, hne⟩

/-- The thread is the head of queue `i`, the first one that is not empty. -/
structure Taken (rq : RunQueue T) (th : T) (rq' : RunQueue T) (i : ℕ) : Prop where
  head : rq.runq i = th :: rq'.runq i
  first : ∀ k < i, rq.runq k = []
  shrinks : Shrinks rq' rq
  counted : Counted rq'

theorem Counted.takeHead (h : Counted rq) (accurate : Bool) (hne : rq.runq i ≠ [])
    (hfirst : ∀ k < i, rq.runq k = []) :
    ∃ th rq', rq.takeHead accurate i = some (th, rq') ∧ Taken rq th rq' i ∧
    (accurate = true → Exact rq') := by
  obtain ⟨th, q, hq⟩ := List.exists_cons_of_ne_nil hne
  have hi := (h.lt_of_ne_nil hne).2
  set rq₁ : RunQueue T := { rq.set i q with count := rq.count - 1, low := i } with hrq₁
  have hrunq : ∀ j, rq₁.runq j = if j = i then q else rq.runq j := fun j => set_runq q
  have hcount : rq₁.count = rq₁.total List.length := by
    have := rq.total_set hi q List.length
    rw [hq, List.length_cons] at this
    change rq.count - 1 = (rq.set i q).total _
    rw [h.count]
    omega
  have hlow : ∀ j, j < i ∨ nrqs ≤ j → rq₁.runq j = [] := fun j hj => by
    rw [hrunq, if_neg (by omega)]
    rcases hj with hj | hj
    · exact hfirst j hj
    · exact h.low j (.inr hj)
  have hshrinks : Shrinks rq₁ rq := fun j => by
    rw [hrunq]
    split_ifs with hj
    · rw [hj, hq]
      exact List.sublist_cons_self th q
    · exact .refl _
  have hhead : rq.runq i = th :: rq₁.runq i := by
    rw [hrunq, if_pos rfl, hq]
  have hcounted : Counted rq₁ := ⟨hcount, hlow⟩
  unfold RunQueue.takeHead
  rw [hq]
  simp only [← hrq₁]
  by_cases hacc : accurate = true ∧ 0 < rq₁.count
  · obtain ⟨j, hij, hj, hjne⟩ := hcounted.exists_ne_nil hacc.2
    obtain ⟨k, hk⟩ := exists_firstFrom hij hj hjne
    obtain ⟨hik, hkn, hkne, hbetween⟩ := firstFrom_some hk
    rw [if_pos hacc, hk]
    refine ⟨th, { rq₁ with low := k }, rfl, ⟨hhead, hfirst, hshrinks, hcount, fun j hj => ?_⟩,
      fun _ _ => hkne⟩
    rcases lt_or_ge j i with hlt | hle
    · exact hlow j (.inl hlt)
    · rcases hj with hj | hj
      · exact hbetween j hle hj
      · exact hlow j (.inr hj)
  · rw [if_neg hacc]
    exact ⟨th, rq₁, rfl, ⟨hhead, hfirst, hshrinks, hcounted⟩, fun ha hpos => absurd ⟨ha, hpos⟩ hacc⟩

/-- A choice from queues that are not empty does not panic, and finds the head of the first one. -/
theorem Counted.choose (h : Counted rq) (accurate : Bool) (hpos : 0 < rq.count) :
    ∃ th rq' i, rq.choose accurate = some (th, rq') ∧ Taken rq th rq' i ∧
    (accurate = true → Exact rq') := by
  obtain ⟨j, hlj, hj, hjne⟩ := h.exists_ne_nil hpos
  obtain ⟨i, hi⟩ := exists_firstFrom hlj hj hjne
  obtain ⟨hli, -, hne, hbetween⟩ := firstFrom_some hi
  have hfirst : ∀ k < i, rq.runq k = [] := fun k hk => by
    rcases lt_or_ge k rq.low with hlt | hle
    · exact h.low k (.inl hlt)
    · exact hbetween k hle hk
  obtain ⟨th, rq', htake, htaken, hexact⟩ := h.takeHead accurate hne hfirst
  exact ⟨th, rq', i, by rw [RunQueue.choose, hi]; exact htake, htaken, hexact⟩

theorem Counted.select (h : Counted rq) (accurate : Bool) (hpos : 0 < rq.count) :
    ∃ th rq' i, rq.select accurate = some (th, rq') ∧ Taken rq th rq' i ∧
    (accurate = true → Exact rq') := by
  unfold RunQueue.select
  by_cases hnil : rq.runq rq.low = []
  · have h' : Counted { rq with low := rq.low + 1 } := by
      refine ⟨h.count, fun k hk => ?_⟩
      by_cases heq : k = rq.low
      · exact heq ▸ hnil
      · change k < rq.low + 1 ∨ nrqs ≤ k at hk
        exact h.low k (by omega)
    obtain ⟨th, rq', i, hchoose, htaken, hexact⟩ := h'.choose accurate hpos
    rw [hnil]
    exact ⟨th, rq', i, hchoose, ⟨htaken.head, htaken.first, htaken.shrinks, htaken.counted⟩, hexact⟩
  · obtain ⟨th, rq', htake, htaken, hexact⟩ :=
      h.takeHead accurate hnil fun k hk => h.low k (.inl hk)
    rw [if_neg (by simpa using hnil)]
    exact ⟨th, rq', rq.low, htake, htaken, hexact⟩

end Choose

section Scan

variable {isStuck : T → Bool} {n room : ℕ} {q : List T}

theorem scanQueue_sublist : (scanQueue isStuck room q).1.Sublist q := by
  fun_induction scanQueue isStuck room q with
  | case1 => exact .refl _
  | case2 => exact .refl _
  | case3 room th q hs left taken heq ih =>
    rw [heq] at ih
    exact ih.cons th
  | case4 room th q hs left taken heq ih =>
    rw [heq] at ih
    exact ih.cons_cons th

theorem scanQueue_length :
    (scanQueue isStuck room q).1.length + (scanQueue isStuck room q).2.length = q.length := by
  fun_induction scanQueue isStuck room q with
  | case1 => rfl
  | case2 => rfl
  | case3 room th q hs left taken heq ih =>
    rw [heq] at ih
    simp only [List.length_cons] at ih ⊢
    omega
  | case4 room th q hs left taken heq ih =>
    rw [heq] at ih
    simp only [List.length_cons] at ih ⊢
    omega

theorem scanQueue_nil : (scanQueue isStuck room q).1 = [] ↔ q.all isStuck = true ∧
    q.length ≤ room := by
  fun_induction scanQueue isStuck room q with
  | case1 => simp
  | case2 q hne =>
    cases q with
    | nil => exact absurd rfl hne
    | cons th q => simp
  | case3 room th q hs left taken heq ih =>
    rw [heq] at ih
    simpa [hs] using ih
  | case4 room th q hs left taken heq ih => simp [hs]

theorem scanFrom_of_lt (rq : RunQueue T) (hj : j < i) :
    (scanFrom isStuck n i room rq).1.runq j = rq.runq j := by
  induction n generalizing i room rq with
  | zero => rfl
  | succ n ih =>
    refine (ih _ (Nat.lt_succ_of_lt hj)).trans ?_
    change (rq.set i _).runq j = _
    rw [set_runq, if_neg hj.ne]

theorem scanFrom_head (rq : RunQueue T) :
    (scanFrom isStuck (n + 1) i room rq).1.runq i = (scanQueue isStuck room (rq.runq i)).1 := by
  refine (scanFrom_of_lt _ (Nat.lt_succ_self i)).trans ?_
  change (rq.set i _).runq i = _
  rw [set_runq, if_pos rfl]

/-- The scan leaves nothing in the queues from `i` on exactly if all their threads are stuck and
there is room for them. -/
theorem scanFrom_nil (isStuck : T → Bool) (n i room : ℕ) (rq : RunQueue T) :
    (∀ j < n, (scanFrom isStuck n i room rq).1.runq (i + j) = []) ↔
      (∀ j < n, (rq.runq (i + j)).all isStuck = true) ∧ ∑ j ∈ Finset.range n,
      (rq.runq (i + j)).length ≤ room := by
  induction n generalizing i room rq with
  | zero => simp
  | succ n ih =>
    set r := scanQueue isStuck room (rq.runq i) with hr
    have hlen : r.1.length + r.2.length = (rq.runq i).length := scanQueue_length
    have hfirst : r.1 = [] ↔ (rq.runq i).all isStuck = true ∧ (rq.runq i).length ≤ room :=
      scanQueue_nil
    set rq₁ : RunQueue T := { rq.set i r.1 with count := rq.count - r.2.length } with hrq₁
    have hrest : ∀ j, rq₁.runq (i + 1 + j) = rq.runq (i + (j + 1)) := fun j => by
      change (rq.set i r.1).runq _ = _
      rw [set_runq, if_neg (by omega), Nat.add_right_comm, Nat.add_assoc]
    have ih := ih (i + 1) (room - r.2.length) rq₁
    simp only [hrest] at ih
    rw [Nat.forall_lt_succ_left, Nat.forall_lt_succ_left, Finset.sum_range_succ']
    simp only [Nat.add_zero]
    rw [scanFrom_head, ← hr]
    change (_ ∧ ∀ j < n, (scanFrom isStuck n (i + 1) (room - r.2.length) rq₁).1.runq (i + (j + 1)) =
      []) ↔ _
    simp only [Nat.add_right_comm i 1, Nat.add_assoc i] at ih
    rw [ih]
    constructor
    · rintro ⟨hnil, hall, hsum⟩
      obtain ⟨hstuck, hroom⟩ := hfirst.1 hnil
      rw [hnil, List.length_nil] at hlen
      exact ⟨⟨hstuck, hall⟩, by omega⟩
    · rintro ⟨⟨hstuck, hall⟩, hsum⟩
      have hnil := hfirst.2 ⟨hstuck, by omega⟩
      rw [hnil, List.length_nil] at hlen
      exact ⟨hnil, hall, by omega⟩

/-- The scan takes threads off and counts them; the hint it does not touch. -/
theorem scanFrom_spec (rq : RunQueue T) (isStuck : T → Bool) (room : ℕ) (hi : i + n ≤ nrqs)
    (h : rq.count = rq.total List.length) :
    Shrinks (scanFrom isStuck n i room rq).1 rq ∧ (scanFrom isStuck n i room rq).1.low = rq.low ∧
      (scanFrom isStuck n i room rq).1.count =
      (scanFrom isStuck n i room rq).1.total List.length := by
  induction n generalizing i room rq with
  | zero => exact ⟨fun _ => .refl _, rfl, h⟩
  | succ n ih =>
    set r := scanQueue isStuck room (rq.runq i) with hr
    have hlen : r.1.length + r.2.length = (rq.runq i).length := scanQueue_length
    have hcount : rq.count - r.2.length = (rq.set i r.1).total List.length := by
      have := rq.total_set (show i < nrqs by omega) r.1 List.length
      rw [h]
      omega
    obtain ⟨hshrinks, hlow, hcount⟩ :=
      ih { rq.set i r.1 with count := rq.count - r.2.length } (room - r.2.length) (i := i + 1)
        (by omega) hcount
    refine ⟨fun j => (hshrinks j).trans ?_, hlow, hcount⟩
    change ((rq.set i r.1).runq j).Sublist _
    rw [set_runq]
    split_ifs with hj
    · rw [hj]
      exact scanQueue_sublist
    · exact .refl _

theorem doRunqScan_spec (h : Counted rq) (isStuck : T → Bool) (room : ℕ) :
    Shrinks (rq.doRunqScan isStuck room).1 rq ∧
    (rq.doRunqScan isStuck room).1.low = rq.low ∧ Counted (rq.doRunqScan isStuck room).1 := by
  unfold doRunqScan
  split_ifs with h0
  · exact ⟨fun _ => .refl _, rfl, h⟩
  · obtain ⟨j, hj, hlt, -⟩ := h.exists_ne_nil (Nat.pos_of_ne_zero h0)
    obtain ⟨hshrinks, hlow, hcount⟩ := scanFrom_spec rq isStuck room
      (show rq.low + (nrqs - rq.low) ≤ nrqs by omega) h.count
    exact ⟨hshrinks, hlow, hcount, fun k hk => hshrinks.nil (h.low k (hlow ▸ hk))⟩

theorem doRunqScan_nil (h : Counted rq) : (∀ i, (rq.doRunqScan isStuck room).1.runq i = []) ↔
    rq.count ≤ room ∧ ∀ i, (rq.runq i).all isStuck = true := by
  obtain ⟨hshrinks, -, -⟩ := doRunqScan_spec h isStuck room
  by_cases h0 : rq.count = 0
  · have hnil := h.nil_of_zero h0
    exact iff_of_true (fun i => hshrinks.nil (hnil i)) ⟨by omega, fun i => by rw [hnil i]; rfl⟩
  · obtain ⟨j, hj, hlt, -⟩ := h.exists_ne_nil (Nat.pos_of_ne_zero h0)
    have hscan := scanFrom_nil isStuck (nrqs - rq.low) rq.low room rq
    have hempty : ∑ k ∈ Finset.range rq.low, (rq.runq k).length = 0 :=
      Finset.sum_eq_zero fun k hk => by rw [h.low k (.inl (Finset.mem_range.1 hk))]; rfl
    have hcount : rq.count = ∑ k ∈ Finset.range (nrqs - rq.low), (rq.runq (rq.low + k)).length := by
      have hsplit := Finset.sum_range_add (fun k => (rq.runq k).length) rq.low (nrqs - rq.low)
      rw [Nat.add_sub_cancel' (hj.trans hlt.le), hempty, Nat.zero_add] at hsplit
      exact h.count.trans hsplit
    -- what is outside of the queues that are scanned is empty before
    have houtside : ∀ {P : List T → Prop}, P [] → ∀ {rq' : RunQueue T}, Shrinks rq' rq →
        ((∀ k, P (rq'.runq k)) ↔ ∀ k < nrqs - rq.low, P (rq'.runq (rq.low + k))) := by
      intro P hP rq' hs
      refine ⟨fun hall k _ => hall _, fun hall k => ?_⟩
      by_cases hk : rq.low ≤ k ∧ k < nrqs
      · simpa [Nat.add_sub_cancel' hk.1] using hall (k - rq.low) (by omega)
      · rw [hs.nil (h.low k (by omega))]
        exact hP
    rw [houtside (P := (· = [])) rfl hshrinks,
      houtside (P := fun q => q.all isStuck = true) rfl fun _ => .refl _,
      hcount, and_comm, ← hscan, doRunqScan, if_neg h0]

/-- The scan leaves the hint exact unless it takes all threads of the queue at `low` and not all
others. -/
theorem exact_doRunqScan (h : Counted rq) : Exact (rq.doRunqScan isStuck room).1 ↔
    ((rq.runq rq.low).all isStuck = true → (rq.runq rq.low).length ≤ room →
      rq.count ≤ room ∧ ∀ i, (rq.runq i).all isStuck = true) := by
  obtain ⟨hshrinks, hlow, hcounted⟩ := doRunqScan_spec h isStuck room
  have hzero : (rq.doRunqScan isStuck room).1.count = 0 ↔ ∀ i,
    (rq.doRunqScan isStuck room).1.runq i = [] :=
    ⟨hcounted.nil_of_zero,
      fun hnil => hcounted.count.trans (Finset.sum_eq_zero fun i _ => by rw [hnil i]; rfl)⟩
  have hqueue : (rq.doRunqScan isStuck room).1.runq rq.low = [] ↔
      (rq.runq rq.low).all isStuck = true ∧ (rq.runq rq.low).length ≤ room := by
    unfold doRunqScan
    split_ifs with h0
    · rw [h.nil_of_zero h0]
      simp
    · obtain ⟨j, hj, hlt, -⟩ := h.exists_ne_nil (Nat.pos_of_ne_zero h0)
      obtain ⟨n, hn⟩ := Nat.exists_eq_succ_of_ne_zero (show nrqs - rq.low ≠ 0 by omega)
      rw [hn, scanFrom_head, scanQueue_nil]
  rw [← doRunqScan_nil h, ← hzero, ← and_imp, ← hqueue, Exact, hlow, Nat.pos_iff_ne_zero]
  exact not_imp_not

end Scan

end RunQueue

section Runs

open RunQueue

variable [DecidableEq T] {s s' : Ready T} {op : Op T} {strict : Bool}

/-- What holds of the ready threads at any time. -/
structure Ready.Inv (s : Ready T) : Prop where
  counted : Counted s.rq
  once : ∀ th, s.rq.total (List.count th) ≤ 1
  placed : ∀ i, ∀ th ∈ s.rq.runq i, i = whichq (s.schedPri th)

theorem Shrinks.total_le (h : Shrinks rq' rq) (th : T) :
    rq'.total (List.count th) ≤ rq.total (List.count th) :=
  Finset.sum_le_sum fun i _ => (h i).count_le th

theorem Ready.Inv.shrink (h : s.Inv) (hc : Counted rq) (hs : Shrinks rq s.rq) :
    Ready.Inv { s with rq } :=
  ⟨hc, fun th => (Shrinks.total_le hs th).trans (h.once th),
    fun i th hmem => h.placed i th ((hs i).subset hmem)⟩

/-- A thread that is on no queue can be put on the one for any priority. -/
theorem Ready.Inv.enqueue (hc : Counted rq) (honce : ∀ u, rq.total (List.count u) ≤ 1)
    (hplaced : ∀ i, ∀ u ∈ rq.runq i, i = whichq (s.schedPri u))
    (hout : rq.total (List.count th) = 0) :
    Ready.Inv ⟨rq.enqueue th pri, update s.schedPri th pri⟩ := by
  have hrunq : ∀ i, (rq.enqueue th pri).runq i =
      if i = whichq pri then rq.runq (whichq pri) ++ [th] else rq.runq i := fun i => set_runq _
  have hnot : ∀ i, th ∉ rq.runq i := fun i hmem => by
    have hi := (hc.lt_of_ne_nil (List.ne_nil_of_mem hmem)).2
    have := rq.le_total hi (List.count th)
    have := List.count_pos_iff.2 hmem
    omega
  refine ⟨hc.enqueue, fun u => ?_, fun i u hu => ?_⟩
  · have hset := rq.total_set (whichq_lt pri) (rq.runq (whichq pri) ++ [th]) (List.count u)
    rw [List.count_append, List.count_singleton] at hset
    change (rq.set _ _).total _ ≤ 1
    have := honce u
    by_cases hu : th = u
    · subst hu
      simp only [beq_self_eq_true, if_true] at hset
      omega
    · simp only [beq_iff_eq, hu, if_false] at hset
      omega
  · rw [hrunq] at hu
    change i = whichq (update s.schedPri th pri u)
    by_cases huth : u = th
    · subst huth
      rw [update_self]
      split_ifs at hu with hi
      · exact hi
      · exact absurd hu (hnot i)
    · rw [update_of_ne huth]
      split_ifs at hu with hi
      · rw [List.mem_append, List.mem_singleton, or_iff_left huth] at hu
        rw [hi]
        exact hplaced _ u hu
      · exact hplaced i u hu

theorem total_eq_zero (hq : rq.queueOf th = none) : rq.total (List.count th) = 0 :=
  Finset.sum_eq_zero fun _ hi => List.count_eq_zero.2 (queueOf_none hq (Finset.mem_range.1 hi))

theorem total_remRunq (h : rq.total (List.count th) ≤ 1) :
    (rq.remRunq th).total (List.count th) = 0 := by
  unfold remRunq
  cases hq : rq.queueOf th with
  | none => exact total_eq_zero hq
  | some i =>
    obtain ⟨hi, hmem⟩ := queueOf_some hq
    have hset := rq.total_set hi ((rq.runq i).erase th) (List.count th)
    rw [List.count_erase_self] at hset
    have := List.count_pos_iff.2 hmem
    change (rq.set _ _).total _ = 0
    omega

theorem Ready.Inv.step (h : s.Inv) (hrun : op.run s = some s') : s'.Inv := by
  cases op with
  | setrun th pri =>
    simp only [Op.run] at hrun
    split_ifs at hrun with hq
    cases hrun
    exact .enqueue h.counted h.once h.placed (total_eq_zero (not_not.1 hq))
  | setPri th pri =>
    simp only [Op.run] at hrun
    split_ifs at hrun with hq
    · cases hrun
      refine ⟨h.counted, h.once, fun i u hu => ?_⟩
      have hi := (h.counted.lt_of_ne_nil (List.ne_nil_of_mem hu)).2
      have hne : u ≠ th := fun heq => queueOf_none hq hi (heq ▸ hu)
      change i = whichq (update s.schedPri th pri u)
      rw [update_of_ne hne]
      exact h.placed i u hu
    · cases hrun
      have h' := h.shrink h.counted.remRunq (shrinks_remRunq : Shrinks (s.rq.remRunq th) s.rq)
      exact .enqueue h'.counted h'.once h'.placed (total_remRunq (h.once th))
  | remRunq th =>
    cases hrun
    exact h.shrink h.counted.remRunq shrinks_remRunq
  | select =>
    simp only [Op.run] at hrun
    split_ifs at hrun with h0
    · exact Option.some.inj hrun ▸ h
    · obtain ⟨th, rq', i, hsel, htaken, -⟩ := h.counted.select true (Nat.pos_of_ne_zero h0)
      rw [hsel] at hrun
      cases hrun
      exact h.shrink htaken.counted htaken.shrinks
  | choosePset =>
    simp only [Op.run] at hrun
    split_ifs at hrun with h0
    · exact Option.some.inj hrun ▸ h
    · obtain ⟨th, rq', i, hsel, htaken, -⟩ := h.counted.choose true (Nat.pos_of_ne_zero h0)
      rw [hsel] at hrun
      cases hrun
      exact h.shrink htaken.counted htaken.shrinks
  | scan isStuck room =>
    cases hrun
    obtain ⟨hshrinks, -, hcounted⟩ := doRunqScan_spec h.counted isStuck room
    exact h.shrink hcounted hshrinks

/-- An operation leaves the hint exact if and only if it is careful. -/
theorem Ready.Inv.exact_step (h : s.Inv) (he : Exact s.rq) (hrun : op.run s = some s') :
    Exact s'.rq ↔ op.careful s := by
  cases op with
  | setrun th pri =>
    simp only [Op.run] at hrun
    split_ifs at hrun with hq
    cases hrun
    exact iff_of_true (exact_enqueue.2 (.inl he)) trivial
  | setPri th pri =>
    simp only [Op.run] at hrun
    split_ifs at hrun with hq
    · cases hrun
      refine iff_of_true he fun hlow => ?_
      have hlt :=
        (h.counted.lt_of_ne_nil (i := s.rq.low) (by rw [hlow]; exact List.cons_ne_nil _ _)).2
      exact absurd (by rw [hlow]; exact List.mem_singleton_self th) (queueOf_none hq hlt)
    · cases hrun
      have hlow : (s.rq.remRunq th).low = s.rq.low := by
        unfold remRunq
        cases s.rq.queueOf th <;> rfl
      rw [exact_enqueue, exact_remRunq h.counted he, hlow]
      constructor
      · rintro (hone | hle) hsingle hcount
        · exact absurd (hone hsingle) hcount.ne'
        · exact hle
      · intro hcareful
        by_cases hcase : s.rq.runq s.rq.low = [th] ∧ 1 < s.rq.count
        · exact .inr (hcareful hcase.1 hcase.2)
        · refine .inl fun hsingle => ?_
          have hpos := h.counted.pos_of_ne_nil (i := s.rq.low)
            (by rw [hsingle]; exact List.cons_ne_nil _ _)
          have : ¬1 < s.rq.count := fun hlt => hcase ⟨hsingle, hlt⟩
          omega
  | remRunq th =>
    cases hrun
    exact exact_remRunq h.counted he
  | select =>
    refine iff_of_true ?_ trivial
    simp only [Op.run] at hrun
    split_ifs at hrun with h0
    · exact Option.some.inj hrun ▸ he
    · obtain ⟨th, rq', i, hsel, -, hexact⟩ := h.counted.select true (Nat.pos_of_ne_zero h0)
      rw [hsel] at hrun
      exact Option.some.inj hrun ▸ hexact rfl
  | choosePset =>
    refine iff_of_true ?_ trivial
    simp only [Op.run] at hrun
    split_ifs at hrun with h0
    · exact Option.some.inj hrun ▸ he
    · obtain ⟨th, rq', i, hsel, -, hexact⟩ := h.counted.choose true (Nat.pos_of_ne_zero h0)
      rw [hsel] at hrun
      exact Option.some.inj hrun ▸ hexact rfl
  | scan isStuck room =>
    cases hrun
    exact exact_doRunqScan h.counted

theorem Reached.inv (h : Reached strict s) : s.Inv ∧ (strict = true → Exact s.rq) := by
  induction h with
  | init schedPri =>
    refine ⟨⟨⟨?_, fun _ _ => rfl⟩, fun th => ?_, fun i th hmem => nomatch hmem⟩,
      fun _ hpos => nomatch hpos⟩
    · exact (Finset.sum_eq_zero fun _ _ => rfl).symm
    · exact (Finset.sum_eq_zero fun _ _ => rfl).trans_le (Nat.zero_le 1)
  | step op _ hrun hc ih =>
    exact ⟨ih.1.step hrun, fun hs => (ih.1.exact_step (ih.2 hs) hrun).2 (hc hs)⟩

/-- With an exact hint and no thread bound to the processor, a context switch in the first quantum
of a thread of fixed priority is to a better one. -/
theorem csw_to_better (h : s.Inv) (he : Exact s.rq) {schedPri : ℕ}
    (hcsw : cswNeeded false .fixedpri schedPri true 0 s.rq = true) :
    ∃ th rq', s.rq.select true = some (th, rq') ∧ whichq (s.schedPri th) < schedPri := by
  have hlow : 0 < s.rq.count ∧ s.rq.low < schedPri := by
    simpa [cswNeeded] using hcsw
  obtain ⟨th, rq', i, hsel, htaken, -⟩ := h.counted.select true hlow.1
  have hi : ¬s.rq.low < i := fun hlt => he hlow.1 (htaken.first _ hlt)
  have hplaced := h.placed i th (by rw [htaken.head]; exact List.mem_cons_self)
  exact ⟨th, rq', hsel, by omega⟩

/-- The count and the bound hold in every state; the hint is exact after an operation if and only if
the operation is careful, and in all states that careful operations lead to. There a context switch
that a thread of fixed priority needs in its first quantum, without having to stop and with no
thread bound to the processor, is to a queued thread of better priority. -/
theorem fixed_priority_order :
    (∀ s : Ready T, Reached false s → Counted s.rq ∧
      ∀ (op : Op T) (s' : Ready T), op.run s = some s' → Exact s.rq →
    (Exact s'.rq ↔ op.careful s)) ∧ (∀ s : Ready T, Reached true s → Counted s.rq ∧ Exact s.rq ∧
      ∀ schedPri, cswNeeded false .fixedpri schedPri true 0 s.rq = true →
        ∃ th rq', s.rq.select true = some (th, rq') ∧ whichq (s.schedPri th) < schedPri) := by
  refine ⟨fun s hs => ?_, fun s hs => ?_⟩
  · obtain ⟨hinv, -⟩ := hs.inv
    exact ⟨hinv.counted, fun op s' hrun he => hinv.exact_step he hrun⟩
  · obtain ⟨hinv, hexact⟩ := hs.inv
    exact ⟨hinv.counted, hexact rfl, fun schedPri => csw_to_better hinv (hexact rfl)⟩

/-- Two threads at 5 and one at 20 are queued, and one of those at 5 is taken off. A running thread
at 10 then gives way to the other. -/
theorem fixed_priority_order_removed :
    let rq : RunQueue (Fin 3) := (((RunQueue.empty.enqueue 0 5).enqueue 1 5).enqueue 2 20).remRunq 0
    let pri : Fin 3 → ℕ := update (update (update (fun _ => 0) 0 5) 1 5) 2 20
    ∃ th rq', rq.select true = some (th, rq') ∧ whichq (pri th) < 10 :=
  ((fixed_priority_order (T := Fin 3)).2 _
    (.step (.remRunq 0)
    (.step (.setrun 2 20) (.step (.setrun 1 5) (.step (.setrun 0 5) (.init fun _ => 0) rfl
      fun _ => trivial) rfl fun _ => trivial) rfl fun _ => trivial) rfl
      fun _ hlow => absurd hlow (by decide))).2.2 10 (by decide)

/-- The one thread at 5 is taken off its queue while one at 20 is left. A running thread of fixed
priority 10 is then said to need a context switch in its first quantum, and gives way to the one at
20. A thread bound to the processor has the same effect, whatever its priority. -/
theorem worse_thread_selected :
    let s : Option (Ready Bool) := do
      let s ← (Op.setrun true 5).run ⟨.empty, fun _ => 0⟩
      let s ← (Op.setrun false 20).run s
      (Op.remRunq true).run s
    (∃ r, s = some r ∧ r.rq.count = 1 ∧ r.rq.runq r.rq.low = [] ∧
      cswNeeded false .fixedpri 10 true 0 r.rq = true ∧
      (r.rq.select true).map Prod.fst = some false ∧ r.schedPri false = 20) ∧
    cswNeeded false .fixedpri 10 true 1 (RunQueue.empty : RunQueue Bool) = true :=
  ⟨⟨_, rfl, by decide, by decide, by decide, by decide, by decide⟩, by decide⟩

end Runs

end XMach.Sched
