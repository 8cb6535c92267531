import Mathlib.Tactic.Linarith
import XMach.Kern.EventCount

/-!
# Who waits for an event counter

As long as nobody aborts or terminates the thread that waits, the counter is -1 exactly while a
thread is on record, that thread sleeps for the counter, and a signal wakes it. `evc_notify_abort`
takes the thread off the record before it is woken, and in a termination only after that, so that a
signal in between is lost on the thread or meets one that does not wait.
-/

namespace XMach.Evc

variable {T : Type} [DecidableEq T] {s s' : State T} {t u : T} {th : Thread} {a : Act T}

theorem int_eq {n : ℤ} (hl : -2 ^ 31 ≤ n) (hu : n < 2 ^ 31) : int n = n := by
  unfold int
  rw [Int.bmod_def]
  split_ifs <;> omega

theorem int_overflow : int (2 ^ 31 - 1 + 1) = -2 ^ 31 := by decide

@[simp] theorem set_thread : (s.set t th).thread u = if u = t then th else s.thread u := by
  simp [State.set, Function.update_apply]

/-- A change to a thread that does not begin or end a wait for the counter. -/
theorem Good.set (h : Good s)
    (hsame : (th.wait = true ∧ th.inEvc = true) ↔
    ((s.thread t).wait = true ∧ (s.thread t).inEvc = true)) : Good (s.set t th) := by
  refine ⟨fun u => ?_, h.count, h.bound, h.account⟩
  rw [set_thread]
  split_ifs with hu
  · rw [hu, hsame]
    exact h.waiting t
  · exact h.waiting u

omit [DecidableEq T] in
theorem Good.not_inEvc (h : Good s) (hn : s.waitingThread = none) (t : T) :
    ¬((s.thread t).wait = true ∧ (s.thread t).inEvc = true) := fun hw => by
  have := (h.waiting t).2 hw
  rw [hn] at this
  cases this

/-- The thread that goes to sleep is the one that the counter knows. -/
theorem Good.enter (h : Good s) (hn : s.waitingThread = none) (u : T) :
    (s.enter t).waitingThread = some u ↔
      ((s.enter t).thread u).wait = true ∧ ((s.enter t).thread u).inEvc = true := by
  change some t = some u ↔ ((s.set t _).thread u).wait = true ∧ ((s.set t _).thread u).inEvc = true
  rw [set_thread, Option.some.injEq]
  split_ifs with hu
  · exact iff_of_true hu.symm ⟨rfl, rfl⟩
  · exact iff_of_false (fun htu => hu htu.symm) (h.not_inEvc hn u)

theorem Good.evcWait (h : Good s) (t : T) : Good (evcWait s t) := by
  have hb := h.bound
  have ha := h.account
  unfold Evc.evcWait
  split_ifs with hpos hn
  · have hnone : ¬s.waitingThread ≠ none := fun hne => by
      have := h.count.1 hne
      omega
    refine ⟨h.waiting, iff_of_false hnone (by simp only; omega),
      ⟨by simp only; omega, by simp only; omega⟩, ?_⟩
    simp only [Nat.cast_add, Nat.cast_one]
    omega
  · have hzero : s.count = 0 := by
      have : s.count ≠ -1 := fun hc => h.count.2 hc hn
      omega
    have hcount : int (s.count - 1) = -1 := by
      rw [hzero]
      decide
    refine ⟨h.enter hn, iff_of_true (Option.some_ne_none t) hcount, ?_, ?_⟩
    · simp only [hcount]
      decide
    · change (s.signals : ℤ) = s.returns + max (int (s.count - 1)) 0
      rw [hcount, ha, hzero]
      rfl
  · exact h

theorem Good.evcWaitClear (h : Good s) (t : T) : Good (evcWaitClear s t) := by
  unfold Evc.evcWaitClear
  split_ifs with hn
  · exact ⟨h.enter hn, iff_of_true (Option.some_ne_none t) rfl, by simp only; decide, rfl⟩
  · exact h

/-- A signal finds a thread that waits, and leaves the books right unless the counter overflows. -/
theorem Good.evcSignal (h : Good s) : ∃ s', evcSignal s = some s' ∧
    (Good s' ↔ s.count < 2 ^ 31 - 1) := by
  have hb := h.bound
  have ha := h.account
  unfold Evc.evcSignal
  cases hw : s.waitingThread with
  | none =>
    refine ⟨_, rfl, ?_⟩
    have hne : s.count ≠ -1 := fun hc => h.count.2 hc hw
    constructor
    · intro h'
      by_contra hover
      obtain hmax : s.count = 2 ^ 31 - 1 := by omega
      have := h'.bound.1
      simp only [hmax, int_overflow] at this
      omega
    · intro hlt
      have hint : int (s.count + 1) = s.count + 1 := int_eq (by omega) (by omega)
      refine ⟨fun u => hw ▸ h.waiting u, ?_, ?_, ?_⟩
      · simp only [hint]
        exact iff_of_false (fun hcon => hcon rfl) (by omega)
      · simp only [hint]
        omega
      · simp only [hint, Nat.cast_add, Nat.cast_one]
        omega
  | some t =>
    have hcount : s.count = -1 := h.count.1 (by rw [hw]; exact Option.some_ne_none t)
    have hwait := (h.waiting t).1 hw
    have hint : int (s.count + 1) = 0 := by
      rw [hcount]
      decide
    simp only [hwait.1, if_true]
    refine ⟨_, rfl, iff_of_true ⟨fun u => ?_, ?_, ?_, ?_⟩ (by omega)⟩
    · change none = some u ↔ ((s.set t _).thread u).wait = true ∧
        ((s.set t _).thread u).inEvc = true
      rw [set_thread]
      split_ifs with hu
      · exact iff_of_false (fun hcon => nomatch hcon) fun hcon => nomatch hcon.1
      · refine iff_of_false (fun hcon => nomatch hcon) fun hcon => hu ?_
        exact Option.some.inj (((h.waiting u).2 hcon).symm.trans hw)
    · exact iff_of_false (fun hcon => hcon rfl) (by simp only [State.set, hint]; omega)
    · simp only [State.set, hint]
      omega
    · simp only [State.set, hint, Nat.cast_add, Nat.cast_one]
      omega

/-- A section leaves the books right if and only if it is careful. -/
theorem Good.step (h : Good s) (hs : step s a = some s') : Good s' ↔ a.careful s := by
  cases a with
  | evcWait t =>
    simp only [Evc.step] at hs
    split_ifs at hs
    exact iff_of_true (Option.some.inj hs ▸ h.evcWait t) trivial
  | evcWaitClear t =>
    simp only [Evc.step] at hs
    split_ifs at hs
    exact iff_of_true (Option.some.inj hs ▸ h.evcWaitClear t) trivial
  | evcSignal =>
    obtain ⟨s₁, hs₁, hiff⟩ := h.evcSignal
    obtain rfl := Option.some.inj (hs₁.symm.trans hs)
    exact hiff
  | notifyAbort t =>
    cases hs
    unfold evcNotifyAbort
    split_ifs with hw
    · refine iff_of_false (fun h' => ?_) fun hne => hne hw
      exact h'.not_inEvc rfl t ((h.waiting t).1 hw)
    · exact iff_of_true h hw
  | interrupt t =>
    simp only [Evc.step] at hs
    split_ifs at hs with hwait
    · simp only [Bool.and_eq_true, Bool.not_eq_true'] at hwait
      cases hs
      by_cases hw : s.waitingThread = some t
      · refine iff_of_false (fun h' => ?_) fun hunint => ?_
        · have := ((h'.waiting t).1 hw).1
          simp [Thread.awaken] at this
        · rw [hunint hw] at hwait
          exact nomatch hwait.2
      · refine iff_of_true (h.set ?_) fun hcon => absurd hcon hw
        exact iff_of_false (fun hcon => nomatch hcon.1) fun hcon => hw ((h.waiting t).2 hcon)
    · cases hs
      refine iff_of_true h fun hw => ?_
      have := ((h.waiting t).1 hw).1
      simpa [this] using hwait
  | forceRun t =>
    simp only [Evc.step] at hs
    split_ifs at hs
    exact iff_of_true (Option.some.inj hs ▸ h.set Iff.rfl) trivial
  | suspend t => exact iff_of_true (Option.some.inj hs ▸ h.set Iff.rfl) trivial
  | resume t => exact iff_of_true (Option.some.inj hs ▸ h.set Iff.rfl) trivial
  | stop t =>
    simp only [Evc.step] at hs
    split_ifs at hs
    exact iff_of_true (Option.some.inj hs ▸ h.set Iff.rfl) trivial
  | blockElsewhere t interruptible =>
    simp only [Evc.step] at hs
    split_ifs at hs with hactive
    refine iff_of_true (Option.some.inj hs ▸ h.set ?_) trivial
    simp only [Thread.active, Bool.and_eq_true, Bool.not_eq_true'] at hactive
    exact iff_of_false (fun hcon => nomatch hcon.2) fun hcon => by simp [hactive.2] at hcon
  | wakeElsewhere t =>
    simp only [Evc.step] at hs
    split_ifs at hs with hwait
    refine iff_of_true (Option.some.inj hs ▸ h.set ?_) trivial
    simp only [Bool.and_eq_true, Bool.not_eq_true'] at hwait
    exact iff_of_false (fun hcon => nomatch hcon.1) fun hcon => by simp [hwait.2] at hcon

theorem Reached.good {s₀ : State T} (h : Reached s₀ s) (h₀ : Good s₀) : Good s := by
  induction h with
  | refl => exact h₀
  | step a _ hc hs ih => exact (ih.step hs).2 hc

/-- A section keeps the books of the counter if and only if it is careful, and in every state that
careful sections lead to they are right: the thread on record is the one that sleeps for the
counter, which is -1 just then; a signal does not panic and wakes that thread; and the signals since
the counter was cleared are those that have ended a wait and those that are pending. -/
theorem counter_knows_waiter (s₀ : State T) (h₀ : Good s₀) :
    (∀ (a : Act T) (s' : State T), step s₀ a = some s' → (Good s' ↔ a.careful s₀)) ∧
    (∀ s, Reached s₀ s →
      (∀ t, s.waitingThread = some t ↔
        s.count = -1 ∧ (s.thread t).wait = true ∧ (s.thread t).inEvc = true) ∧
      (∃ s', evcSignal s = some s' ∧ ∀ t, (s.thread t).wait = true → (s.thread t).inEvc = true →
        (s'.thread t).wait = false) ∧
      (s.signals : ℤ) = s.returns + max s.count 0) := by
  refine ⟨fun a s' hs => h₀.step hs, fun s hs => ?_⟩
  have h := hs.good h₀
  refine ⟨fun t =>
    ⟨fun hw => ⟨h.count.1 (by rw [hw]; exact Option.some_ne_none t), (h.waiting t).1 hw⟩,
    fun hw => (h.waiting t).2 hw.2⟩, ?_, h.account⟩
  obtain ⟨s', hsig, -⟩ := h.evcSignal
  refine ⟨s', hsig, fun t hwait hin => ?_⟩
  have hw := (h.waiting t).2 ⟨hwait, hin⟩
  simp only [evcSignal, hw, hwait, if_true] at hsig
  cases hsig
  change ((s.set t _).thread t).wait = false
  rw [set_thread, if_pos rfl]
  rfl

/-- A running thread and a counter nobody waits for. -/
def quiet : State Unit := ⟨0, none, fun _ => ⟨true, false, false, false, false⟩, 0, 0⟩

theorem quiet_good : Good quiet :=
  ⟨fun _ => iff_of_false (fun h => nomatch h) (fun h => nomatch h.1),
    iff_of_false (fun h => h rfl) (by decide), by decide, rfl⟩

/-- The thread waits and is woken by a signal. -/
theorem counter_knows_waiter_quiet :
    let s := evcWait quiet ()
    ∃ s', evcSignal s = some s' ∧ ∀ t, (s.thread t).wait = true → (s.thread t).inEvc = true →
      (s'.thread t).wait = false :=
  ((counter_knows_waiter quiet quiet_good).2 _
    (.step (.evcWait ()) .refl trivial rfl)).2.1

/-- A thread that waits is terminated: it is halted, and a signal before its deallocation panics. A
thread that is aborted goes on sleeping while a signal counts as pending. -/
theorem abort_misses_counter :
    (do let s ← step quiet (.evcWait ())
        let s ← step s (.suspend ())
        let s ← step s (.interrupt ())
        step s .evcSignal).isNone ∧
    (do let s ← step quiet (.evcWait ())
        let s ← step s (.notifyAbort ())
        let s ← step s .evcSignal
        pure (s.count, (s.thread ()).wait, (s.thread ()).inEvc, s.waitingThread)) =
        some (1, true, true, none) := by
  decide

end XMach.Evc
