import Mathlib.Tactic.Common
import XMach.Lites.Spl

/-!
# Who holds the master mutex

Between calls the level and the master lock of a thread say whether it holds the mutex. A call of
`spl_n` keeps that unless it runs the network handlers, which it does behind `master_unlock` while
the level is still raised; `timeout` keeps it unless it runs the function itself, as an interrupt.
-/

namespace XMach.Spl

variable {th : Thread} {level : ℤ} {netisr expired : Bool} {f g handlers : Code} {p : Prog}

/-- All that the code does is in order. -/
def Good (f : Code) (th : Thread) : Prop := ∀ e ∈ (f th).2, e.Ok

def Legal (f : Code) (th : Thread) : Prop := ∀ e ∈ (f th).2, e.Legal

@[simp] theorem andThen_fst : ((f.andThen g) th).1 = (g (f th).1).1 := rfl

theorem good_andThen : Good (f.andThen g) th ↔ Good f th ∧ Good g (f th).1 := List.forall_mem_append

theorem legal_andThen : Legal (f.andThen g) th ↔ Legal f th ∧ Legal g (f th).1 :=
  List.forall_mem_append

@[simp] theorem good_skip : Good skip th := nofun

@[simp] theorem good_setIpl : Good (setIpl level) th := nofun

theorem good_emit {e : Thread → Event} : Good (emit e) th ↔ (e th).Ok := List.forall_mem_singleton

theorem legal_emit {e : Thread → Event} : Legal (emit e) th ↔ (e th).Legal :=
  List.forall_mem_singleton

theorem good_masterLock : Good masterLock th ↔ th.held = false := List.forall_mem_singleton

theorem good_masterUnlock : Good masterUnlock th ↔ th.held = true := List.forall_mem_singleton

theorem good_returns : Good returns th ↔ th.Ok := List.forall_mem_singleton

@[simp] theorem returns_fst : (returns th).1 = th := rfl

@[simp] theorem emit_fst {e : Thread → Event} : (emit e th).1 = th := rfl

section SplN

/-- The thread at a level, with the mutex where that asks for it. -/
def Thread.raised (th : Thread) (level : ℤ) : Thread :=
  ⟨level, th.masterLock, decide (level > 0) || th.masterLock⟩

theorem raised_ok : (th.raised level).Ok := by simp [Thread.Ok, Thread.raised]

theorem Thread.Ok.held_eq (h : th.Ok) : th.held = (decide (th.ipl > 0) || th.masterLock) := by
  rw [Bool.eq_iff_iff, Bool.or_eq_true, decide_eq_true_eq]
  exact h

/-- Behind `master_unlock` nothing takes the mutex before `dosoftnet` begins. -/
theorem softnet_bad (hipl : th.ipl > 0) (hheld : th.held = false) :
    ¬ Good (softnet handlers) th := by
  intro hgood
  have hsplnet : (splN 2 skip th).1.held = false := by
    simp [splN, Int.not_le.2 hipl, setIpl, hheld]
  have hdosoftnet := (good_andThen.1 (good_andThen.1 hgood).1).2
  have hbegin : Good (emit fun th => .softnet th.held) (splN 2 skip th).1 :=
    (good_andThen.1 hdosoftnet).1
  rw [good_emit, hsplnet] at hbegin
  cases hbegin

theorem splN_of_drops (hd : th.drops level) (hnet : netisr = true) :
    ¬ Good (splN level (atZero netisr handlers)) th := by
  obtain ⟨hlevel, hipl, hmaster⟩ := hd
  have hcode : splN level (atZero netisr handlers) th =
      ((masterUnlock.andThen (softnet handlers)).andThen (setIpl level)) th := by
    rw [splN, if_neg fun hup => absurd hup.1 (Int.not_lt.2 hlevel), if_pos ⟨hlevel, hipl, hmaster⟩,
      hnet, atZero, if_pos rfl]
  have hbad : ¬ Good (softnet handlers) { th with held := false } := softnet_bad hipl rfl
  intro hgood
  unfold Good at hgood
  rw [hcode] at hgood
  exact hbad (good_andThen.1 (good_andThen.1 hgood).1).2

theorem splN_spec (hok : th.Ok) (hnet : ¬ (netisr = true ∧ th.drops level)) :
    (splN level (atZero netisr handlers) th).1 = th.raised level ∧
    Good (splN level (atZero netisr handlers)) th := by
  have hheld := hok.held_eq
  unfold Good splN
  split_ifs with hup hdown
  · obtain ⟨hlevel, hipl, hmaster⟩ := hup
    rw [hmaster, decide_eq_false (by omega)] at hheld
    constructor
    · simp [masterLock, setIpl, Thread.raised, hlevel]
    · exact good_andThen.2 ⟨good_masterLock.2 hheld, good_setIpl⟩
  · have hzero : netisr = false := by
      rw [← Bool.not_eq_true]
      exact fun htrue => hnet ⟨htrue, hdown⟩
    obtain ⟨hlevel, hipl, hmaster⟩ := hdown
    rw [hmaster, decide_eq_true hipl] at hheld
    rw [hzero]
    constructor
    · simp [masterUnlock, atZero, skip, setIpl, Thread.raised, hmaster, hlevel]
    · exact good_andThen.2 ⟨good_andThen.2 ⟨good_masterUnlock.2 hheld, good_skip⟩, good_setIpl⟩
  · refine ⟨?_, good_setIpl⟩
    simp only [setIpl, Thread.raised, hheld]
    congr 1
    rcases hm : th.masterLock with _ | _
    · have hsame : level > 0 ↔ th.ipl > 0 := by
        simp only [hm, and_true, not_and, Int.not_le, Int.not_lt] at hup hdown
        omega
      simp only [hsame]
    · simp

theorem splN_skip (hok : th.Ok) (hlevel : level > 0) :
    (splN level skip th).1 = th.raised level ∧ Good (splN level skip) th :=
  @splN_spec th level false skip hok fun hnet => absurd hnet.2.1 (Int.not_le.2 hlevel)

/-- `spl_n` is in order exactly if it does not run the network handlers. -/
theorem good_splN (hok : th.Ok) :
    Good (splN level (atZero netisr handlers)) th ↔ ¬ (netisr = true ∧ th.drops level) :=
  ⟨fun hgood hbad => splN_of_drops hbad.2 hbad.1 hgood, fun hnet => (splN_spec hok hnet).2⟩

end SplN

section Calls

theorem unixMaster_fst :
    (unixMaster th).1 = { th with masterLock := true, held := decide (th.ipl = 0) || th.held } := by
  by_cases hzero : th.ipl = 0 <;> simp [unixMaster, setMaster, atLevelZero, masterLock, skip, hzero]

theorem unixRelease_fst :
    (unixRelease th).1 = { th with
      masterLock := false
      held := !decide (th.ipl = 0) && th.held } := by
  by_cases hzero :
    th.ipl = 0 <;> simp [unixRelease, setMaster, atLevelZero, masterUnlock, skip, hzero]

theorem good_atLevelZero : Good (atLevelZero f) th ↔ (th.ipl = 0 → Good f th) := by
  by_cases hzero : th.ipl = 0 <;> simp [Good, atLevelZero, skip, hzero]

@[simp] theorem good_setMaster {b : Bool} : Good (setMaster b) th := nofun

theorem good_unixMaster (hok : th.Ok) (hlegal : Legal unixMaster th) :
    Good (unixMaster.andThen returns) th ↔ 0 ≤ th.ipl := by
  have hmaster : th.masterLock = false := by
    have := legal_emit.1 (legal_andThen.1 hlegal).1
    simpa [Event.Legal] using this
  have hheld := hok.held_eq
  have hlock : Good unixMaster th := by
    refine good_andThen.2 ⟨good_emit.2 trivial,
      good_andThen.2 ⟨good_atLevelZero.2 fun hzero => ?_, good_setMaster⟩⟩
    rw [emit_fst] at hzero ⊢
    rw [good_masterLock, hheld, hmaster, hzero]
    rfl
  rw [good_andThen, good_returns, unixMaster_fst, and_iff_right hlock]
  simp only [Thread.Ok, hheld, hmaster, Bool.or_false, Bool.or_eq_true, decide_eq_true_eq, or_true,
    iff_true]
  omega

theorem good_unixRelease (hok : th.Ok) (hlegal : Legal unixRelease th) :
    Good (unixRelease.andThen returns) th ↔ 0 ≤ th.ipl := by
  have hmaster : th.masterLock = true := legal_emit.1 (legal_andThen.1 hlegal).1
  have hheld := hok.held_eq
  have hlock : Good unixRelease th := by
    refine good_andThen.2 ⟨good_emit.2 trivial,
      good_andThen.2 ⟨good_atLevelZero.2 fun _ => ?_, good_setMaster⟩⟩
    rw [good_masterUnlock, emit_fst, hheld, hmaster, Bool.or_true]
  rw [good_andThen, good_returns, unixRelease_fst, and_iff_right hlock]
  simp only [Thread.Ok, hheld, hmaster,
    Bool.or_true, Bool.and_true, Bool.not_eq_true', decide_eq_false_iff_not,
    Bool.false_eq_true, or_false]
  omega

/-- The thread between two interrupts. -/
def Thread.between (th : Thread) : Thread := ⟨-1, th.masterLock, th.masterLock⟩

theorem between_ok : th.between.Ok := by simp [Thread.Ok, Thread.between]

theorem interruptExit_fst (hok : th.Ok) (hnet : ¬ (netisr = true ∧ th.drops 0)) :
    (interruptExit (atZero netisr handlers) th).1 = th.between := by
  simp only [interruptExit, andThen_fst, returns_fst, (splN_spec hok hnet).1]
  simp [setIpl, Thread.raised, Thread.between]

theorem good_interruptExit (hok : th.Ok) :
    Good (interruptExit (atZero netisr handlers)) th ↔ ¬ (netisr = true ∧ th.drops 0) := by
  rw [interruptExit, good_andThen, good_andThen, good_splN hok, and_iff_left good_setIpl,
    and_iff_left_iff_imp]
  intro hnet
  rw [(splN_spec hok hnet).1, good_returns]
  exact raised_ok

/-- The function is called with the level raised, and what it leaves is what the interrupt ends
with. -/
theorem good_didTimeout (hok : th.Ok) (hf : Good f (th.raised 1) → (f (th.raised 1)).1.Ok) :
    Good (didTimeout f (atZero netisr handlers)) th ↔
      Good f (th.raised 1) ∧ ¬ (netisr = true ∧ (f (th.raised 1)).1.drops 0) := by
  have henter := splN_skip hok Int.one_pos
  rw [didTimeout, good_andThen, good_andThen, good_andThen, good_andThen, good_returns]
  simp only [andThen_fst, returns_fst, henter.1, henter.2, raised_ok, true_and]
  refine and_congr_right fun hgood => ?_
  rw [good_interruptExit (hf hgood), and_iff_left_iff_imp]
  intro hnet
  rw [interruptExit_fst (hf hgood) hnet, good_returns]
  exact between_ok

theorem didTimeout_fst (hok : th.Ok) (hf : (f (th.raised 1)).1.Ok)
    (hnet : ¬ (netisr = true ∧ (f (th.raised 1)).1.drops 0)) :
    (didTimeout f (atZero netisr handlers) th).1 = (f (th.raised 1)).1.between := by
  simp only [didTimeout, andThen_fst, returns_fst, (splN_skip hok Int.one_pos).1,
    interruptExit_fst hf hnet]

theorem between_eq_iff (hok : th.Ok) {th' : Thread} :
    th'.between = th ↔ th.ipl = -1 ∧ th'.masterLock = th.masterLock := by
  have hheld := hok.held_eq
  rcases th with ⟨ipl, master, held⟩
  simp only [Thread.between, Thread.mk.injEq] at hheld ⊢
  constructor
  · rintro ⟨rfl, rfl, -⟩
    exact ⟨rfl, rfl⟩
  · rintro ⟨rfl, rfl⟩
    refine ⟨rfl, rfl, ?_⟩
    rw [hheld]
    simp

/-- A timeout is in order if the element is put into the queue, or between interrupts with a
function that is in order itself. -/
theorem good_timeout (hok : th.Ok) (hf : Good f (th.raised 1) → (f (th.raised 1)).1.Ok) :
    Good (timeout expired f (atZero netisr handlers)) th ↔
      (expired = true → th.ipl = -1 ∧ Good f (th.raised 1) ∧
      (f (th.raised 1)).1.masterLock = th.masterLock ∧
        ¬ (netisr = true ∧ (f (th.raised 1)).1.drops 0)) := by
  have hlog : Good (timeout expired f (atZero netisr handlers)) th ↔
      Good (if expired then didTimeout f (atZero netisr handlers) else skip) th ∧
        ((if expired then didTimeout f (atZero netisr handlers) else skip) th).1 = th := by
    refine good_andThen.trans (and_congr_right fun _ => ?_)
    rw [good_emit]
    rfl
  rw [hlog]
  rcases expired with _ | _
  · simp [skip]
  · simp only [if_true, true_imp_iff]
    rw [good_didTimeout hok hf]
    constructor
    · rintro ⟨⟨hgood, hnet⟩, hsame⟩
      rw [didTimeout_fst hok (hf hgood) hnet, between_eq_iff hok] at hsame
      exact ⟨hsame.1, hgood, hsame.2, hnet⟩
    · rintro ⟨hipl, hgood, hmaster, hnet⟩
      refine ⟨⟨hgood, hnet⟩, ?_⟩
      rw [didTimeout_fst hok (hf hgood) hnet, between_eq_iff hok]
      exact ⟨hipl, hmaster⟩

end Calls

section Programs

theorem good_call : Good ((f.andThen returns).andThen g) th ↔ (Good f th ∧ (f th).1.Ok) ∧
    Good g (f th).1 := by
  rw [good_andThen, good_andThen, good_returns, andThen_fst, returns_fst]

theorem legal_call : Legal ((f.andThen returns).andThen g) th → Legal f th ∧ Legal g (f th).1 := by
  rw [legal_andThen, legal_andThen, andThen_fst, returns_fst]
  exact fun h => ⟨h.1.1, h.2⟩

theorem exec_ok (hok : th.Ok) (hgood : Good p.exec th) : (p.exec th).1.Ok := by
  induction p generalizing th with
  | done => exact hok
  | splN _ _ _ _ _ ih | interruptEnter _ _ _ _ _ ih | interruptExit _ _ _ _ _ ih | unixMaster _ ih
  | unixRelease _ ih | timeout _ _ _ _ _ _ _ ih =>
    obtain ⟨⟨-, hreturned⟩, hrest⟩ := good_call.1 hgood
    exact ih hreturned hrest

theorem good_call_iff {c : Prop} (hlegal : Legal ((f.andThen returns).andThen p.exec) th)
    (hcall : Good f th ∧ (f th).1.Ok ↔ c)
    (ih : ∀ {th : Thread}, th.Ok → Legal p.exec th → (Good p.exec th ↔ p.Careful th)) :
    Good ((f.andThen returns).andThen p.exec) th ↔ c ∧ p.Careful (f th).1 := by
  rw [good_call, ← hcall]
  exact and_congr_right fun hreturned => ih hreturned.2 (legal_call hlegal).2

theorem good_exec_iff (hok : th.Ok) (hlegal : Legal p.exec th) : Good p.exec th ↔ p.Careful th := by
  induction p generalizing th with
  | done => exact iff_of_true good_skip trivial
  | splN level netisr soft rest _ ih | interruptEnter level netisr soft rest _ ih =>
    refine good_call_iff hlegal ?_ ih
    rw [good_splN hok, and_iff_left_iff_imp]
    intro hnet
    rw [(splN_spec hok hnet).1]
    exact raised_ok
  | interruptExit level netisr soft rest _ ih =>
    refine good_call_iff hlegal ?_ ih
    rw [good_interruptExit hok, and_iff_left_iff_imp]
    intro hnet
    rw [interruptExit_fst hok hnet]
    exact between_ok
  | unixMaster rest ih =>
    refine good_call_iff hlegal ?_ ih
    have hcall := good_unixMaster hok (legal_call hlegal).1
    rwa [good_andThen, good_returns] at hcall
  | unixRelease rest ih =>
    refine good_call_iff hlegal ?_ ih
    have hcall := good_unixRelease hok (legal_call hlegal).1
    rwa [good_andThen, good_returns] at hcall
  | timeout expired f netisr soft rest ihf _ ih =>
    refine good_call_iff hlegal ?_ ih
    have henter := (splN_skip hok Int.one_pos).1
    have hcall : Good (Spl.timeout expired f.exec (atZero netisr soft.exec)) th ↔ _ :=
      good_timeout hok (exec_ok raised_ok)
    rw [henter]
    rcases expired with _ | _
    · rw [hcall]
      simp [timeout, skip, hok]
    · -- the log of the function is a part of the log of the call
      have hlegalf : Legal f.exec (th.raised 1) := by
        have hdid := (legal_andThen.1 (legal_call hlegal).1).1
        rw [if_pos rfl, didTimeout, legal_andThen, legal_andThen] at hdid
        have hbody := hdid.1.2
        rwa [andThen_fst, returns_fst, henter] at hbody
      simp only [true_imp_iff] at hcall ⊢
      rw [hcall, ← ihf raised_ok hlegalf, and_iff_left_iff_imp]
      rintro ⟨hipl, hgood, hmaster, hnet⟩
      have hafter : (Spl.timeout true f.exec (atZero netisr soft.exec) th).1 = th := by
        simp only [Spl.timeout, andThen_fst, emit_fst, if_true]
        rw [didTimeout_fst hok (exec_ok raised_ok hgood) hnet, between_eq_iff hok]
        exact ⟨hipl, hmaster⟩
      rw [hafter]
      exact hok

end Programs

/-- In every run in which no assertion fails, all calls keep to what the lock is for, and
`dosoftnet` runs with the mutex held, exactly if the run is a careful one. -/
theorem master_mutex_held_iff (p : Prog) (th : Thread) (hok : th.Ok)
    (hlegal : ∀ e ∈ (p.exec th).2, e.Legal) : (∀ e ∈ (p.exec th).2, e.Ok) ↔ p.Careful th :=
  good_exec_iff hok hlegal

/-- A system call that raises the level, sets a timeout and gives up the master lock in between. -/
theorem master_mutex_held_iff_syscall :
    let p : Prog := .unixMaster (.splN 5 false .done (.timeout false .done false .done (.unixRelease
      (.splN 0 false .done .done))))
    ∀ e ∈ (p.exec ⟨0, false, false⟩).2, e.Ok := by
  refine (master_mutex_held_iff _ ⟨0, false, false⟩ (by decide) (by decide)).2 ?_
  simp [Prog.Careful, Thread.drops, unixMaster, unixRelease, atLevelZero, Code.andThen, emit,
    masterLock, setMaster, splN, setIpl, timeout, skip]

/-- Lowering the level with `netisr` set runs `dosoftnet` without the mutex, and a timeout that is
expired leaves its caller below level 0. -/
theorem dosoftnet_without_mutex :
    let lower : Prog := .splN 5 false .done (.splN 0 true .done .done)
    let late : Prog := .timeout true .done false .done .done
    (∀ e ∈ (lower.exec ⟨0, false, false⟩).2, e.Legal) ∧
      (∀ e ∈ (late.exec ⟨0, false, false⟩).2, e.Legal) ∧
      Event.softnet false ∈ (lower.exec ⟨0, false, false⟩).2 ∧
      Event.timedOut ⟨0, false, false⟩ ⟨-1, false, false⟩ ∈ (late.exec ⟨0, false, false⟩).2 ∧
      ¬ ∀ p : Prog, (∀ e ∈ (p.exec ⟨0, false, false⟩).2, e.Legal) →
      ∀ e ∈ (p.exec ⟨0, false, false⟩).2, e.Ok := by
  refine ⟨by decide, by decide, by decide, by decide, fun hall => ?_⟩
  exact absurd (hall (.splN 5 false .done (.splN 0 true .done .done)) (by decide)) (by decide)

end XMach.Spl
