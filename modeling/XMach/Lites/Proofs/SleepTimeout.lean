import XMach.Lites.Proofs.Sleep

/-!
# Timeouts

A timeout of a thread is the one of the wait that it is in, as long as none is left over from
another wait. One may be: the timer sets the event at any moment up to the end of a wait and even
later, and it is cleared only by a wait that finds it under `pk->lock` (`timeout_left_over`).
-/

namespace XMach.Sleep

variable {T R : Type*} {s s' : State T R} {t u : T} {pk : Pk R} {w : Wait R} {a : Act T R} {c : ℕ}

theorem Wait.Due.mono {m n : ℕ} (h : w.Due m) (hle : m ≤ n) : w.Due n := by
  obtain ⟨d, hd, hm⟩ := h
  exact ⟨d, hd, Nat.le_trans hm hle⟩

/-- The phases in which the timer element of the wait may be active. -/
def Phase.arms : Phase R → Option (Wait R)
  | .armed w | .blocked w | .seen w _ | .leaving w _ => some w
  | _ => none

theorem Phase.wait_of_arms {p : Phase R} (h : p.arms = some w) : p.wait = some w := by
  cases p <;> first | exact h | cases h

/-- The thread has found a timeout. -/
def Phase.timedOut : Phase R → Bool
  | .seen _ events => events.timeout
  | .leaving _ .wouldBlock | .returned _ .wouldBlock => true
  | _ => false

structure TimedOk (now : ℕ) (popped : Prop) (pk : Pk R) : Prop where
  due : ∀ w, pk.phase.wait = some w → pk.event.timeout = true ∨ popped ∨ pk.phase.timedOut = true →
    w.Due now
  telt : ∀ d, pk.telt = some d → ∃ w, pk.phase.arms = some w ∧ w.timeout = some d

def Timed (s : State T R) : Prop := ∀ t, TimedOk s.now (s.popped = some t) (s.pk t)

theorem TimedOk.mono {m n : ℕ} {p q : Prop} (h : TimedOk m p pk) (hle : m ≤ n) (hp : q → p) :
    TimedOk n q pk :=
  ⟨fun w hw ht => (h.due w hw (ht.imp_right (.imp_left hp))).mono hle, h.telt⟩

theorem Timed.noSpuriousTimeout (h : Timed s) : NoSpuriousTimeout s := fun t w hw =>
  (h t).due w (by rw [hw]; rfl) (.inr (.inr (by rw [hw]; rfl)))

theorem Timed.isOwned (h : Timed s) : Owned s := fun t w hw ht => (h t).due w hw (ht.imp_right .inl)

theorem Timed.congr (h : Timed s) (hnow : s'.now = s.now) (hpopped : s'.popped = s.popped)
    (hpk : ∀ t, ∃ wchan condition, s'.pk t = { s.pk t with wchan, condition }) : Timed s' := by
  intro t
  obtain ⟨wchan, condition, hpk⟩ := hpk t
  rw [hnow, hpopped, hpk]
  exact ⟨(h t).due, (h t).telt⟩

theorem Timed.telt_eq (h : Timed s) (hw : (s.pk t).phase.wait = some w) {d : ℕ}
    (hd : (s.pk t).telt = some d) : w.timeout = some d := by
  obtain ⟨w', harms, htimeout⟩ := (h t).telt d hd
  rw [Phase.wait_of_arms harms] at hw
  exact Option.some.inj hw ▸ htimeout

theorem Timed.telt_none (h : Timed s) (harms : (s.pk t).phase.arms = none) :
    (s.pk t).telt = none := by
  rcases hd : (s.pk t).telt with _ | d
  · rfl
  · obtain ⟨w, hw, -⟩ := (h t).telt d hd
    rw [harms] at hw
    cases hw

theorem timed_initial : Timed (initial : State T R) := fun _ => ⟨nofun, nofun⟩

section Steps

variable [DecidableEq T]

theorem Timed.put (h : Timed s) (ht : TimedOk s.now (s.popped = some t) pk) : Timed (s.put t pk) :=
  (Function.forall_update_iff s.pk fun u pk => TimedOk s.now (s.popped = some u) pk).2 ⟨ht,
    fun u _ => h u⟩

theorem Timed.go (h : Timed s) (hw : (s.pk t).phase.wait = some w) (hphase : pk.phase.wait = some w)
    (hevent : pk.event.timeout = true → (s.pk t).event.timeout = true)
    (hfound : pk.phase.timedOut = true → w.Due s.now)
    (htelt : ∀ d, pk.telt = some d → pk.phase.arms = some w ∧ w.timeout = some d) :
    Timed (s.put t pk) := by
  refine h.put ⟨fun w' hw' ht => ?_, fun d hd => ⟨w, htelt d hd⟩⟩
  obtain rfl := Option.some.inj (hw'.symm.trans hphase)
  rcases ht with ht | ht | ht
  · exact (h t).due _ hw (.inl (hevent ht))
  · exact (h t).due _ hw (.inr (.inl ht))
  · exact hfound ht

theorem Timed.activate (h : Timed s) (hphase : (s.pk t).phase = .enter w) :
    Timed (s.activate t w) := by
  have hw : (s.pk t).phase.wait = some w := congrArg Phase.wait hphase
  have hnone := h.telt_none (by rw [hphase]; rfl)
  unfold State.activate
  rcases htimeout : w.timeout with _ | d
  · exact h.go hw rfl id nofun fun d hd => absurd (hnone.symm.trans hd) nofun
  · dsimp only
    split_ifs with hlt
    · exact h.go hw rfl id (fun _ => ⟨d, htimeout, Nat.le_of_lt hlt⟩) fun d hd =>
        absurd (hnone.symm.trans hd) nofun
    · refine h.go hw rfl id nofun fun d' hd' => ⟨rfl, ?_⟩
      exact htimeout.trans hd'

theorem Timed.checkEvents [DecidableEq R] (h : Timed s) (hphase : (s.pk t).phase = .armed w) :
    Timed (s.checkEvents t w) := by
  have hw : (s.pk t).phase.wait = some w := congrArg Phase.wait hphase
  have htelt : ∀ d, (s.pk t).telt = some d → w.timeout = some d := fun d => h.telt_eq hw
  unfold State.checkEvents
  dsimp only
  split_ifs with hany
  · refine h.go hw rfl id (fun hfound => ?_) fun d hd => ⟨rfl, htelt d hd⟩
    -- the events that were found are events of the thread
    exact (h t).due w hw (.inl (Bool.and_eq_true_iff.1 hfound).1)
  · exact Timed.go (w := w) (s := (s.setWaiters _ _).setHolder _ _) h hw rfl id nofun fun d hd =>
      ⟨rfl, htelt d hd⟩

theorem Timed.consume (h : Timed s) {events : Events} (hphase : (s.pk t).phase = .seen w events) :
    Timed (s.consume t w events) := by
  have hw : (s.pk t).phase.wait = some w := congrArg Phase.wait hphase
  have htelt : ∀ d, (s.pk t).telt = some d → w.timeout = some d := fun d => h.telt_eq hw
  unfold State.consume
  dsimp only
  split_ifs with htimeout hexit
  · refine h.go hw rfl nofun (fun _ => ?_) fun d hd => ⟨rfl, htelt d hd⟩
    exact (h t).due w hw (.inr (.inr (by rw [hphase]; exact htimeout)))
  · exact h.go hw rfl id nofun fun d hd => ⟨rfl, htelt d hd⟩
  · exact h.go hw rfl id nofun fun d hd => ⟨rfl, htelt d hd⟩

theorem Timed.start (h : Timed s) (hout : (s.pk t).phase = .out) (hphase : pk.phase = .enter w)
    (hevent : pk.event = (s.pk t).event) (htelt : pk.telt = (s.pk t).telt)
    (hclear : (s.pk t).event.timeout = true ∨ s.popped = some t → w.Due s.now) :
    Timed (s.put t pk) := by
  refine h.put ⟨fun w' hw' ht => ?_, fun d hd => ?_⟩
  · rw [hphase] at hw' ht
    cases hw'
    rcases ht with ht | ht | ht
    · exact hclear (.inl (hevent ▸ ht))
    · exact hclear (.inr ht)
    · cases ht
  · obtain ⟨w', harms, -⟩ := (h t).telt d (htelt ▸ hd)
    rw [hout] at harms
    cases harms

theorem Timed.out (h : Timed s) (hphase : pk.phase = .out) (htelt : pk.telt = none) :
    Timed (s.put t pk) := by
  refine h.put ⟨fun w hw => ?_, fun d hd => ?_⟩
  · rw [hphase] at hw
    cases hw
  · rw [htelt] at hd
    cases hd

theorem Timed.finish (h : Timed s) {err : Err} (hphase : (s.pk t).phase = .returned w err) :
    Timed (s.finish t w err) := by
  have hw : (s.pk t).phase.wait = some w := congrArg Phase.wait hphase
  have hnone := h.telt_none (by rw [hphase]; rfl)
  unfold State.finish
  split
  · split_ifs
    · exact h.go hw rfl id nofun fun d hd => absurd (hnone.symm.trans hd) nofun
    · exact Timed.out (s := s.setQueue _ _) h rfl hnone
  · exact h.out rfl hnone

theorem Timed.signalThread [DecidableEq R] (h : Timed s) : Timed (s.signalThread u) := by
  unfold State.signalThread
  rcases (s.pk u).condition with _ | c
  · exact h
  · exact h

end Steps

section Run

variable [DecidableEq T] [DecidableEq R]

theorem Timed.step (h : Timed s) (hc : a.Clear s) (hs : step s a = some s') : Timed s' := by
  cases step_taken hs with
  | lock t m hout hfree => exact h
  | unlock t m hout hm => exact h
  | register t hout => exact h.out hout (h.telt_none (by rw [hout]; rfl))
  | tsleepAbs t chan pri timeout hout hm =>
      exact Timed.start (s := s.setQueue _ _) h hout rfl rfl rfl hc
  | pkConditionWait t r timeout mask hout hm => exact h.start hout rfl rfl rfl hc
  | activate t w hphase => exact h.activate hphase
  | checkEvents t w hphase => exact h.checkEvents hphase
  | consume t w events hphase => exact h.consume hphase
  | resume t w hphase hnot hfree =>
    have hw : (s.pk t).phase.wait = some w := congrArg Phase.wait hphase
    exact Timed.go (w := w) (s := s.setHolder _ _) h hw rfl id nofun fun d hd =>
      ⟨rfl, h.telt_eq hw hd⟩
  | deactivate t w err hphase =>
    have hw : (s.pk t).phase.wait = some w := congrArg Phase.wait hphase
    refine h.go hw rfl id (fun hfound => ?_) nofun
    refine (h t).due w hw (.inr (.inr ?_))
    rw [hphase]
    cases err <;> first | rfl | cases hfound
  | finish t w err hphase => exact h.finish hphase
  | wakeup t chan hout hm =>
    unfold State.wakeup
    dsimp only
    split_ifs
    · refine h.congr rfl rfl fun t => ?_
      dsimp only
      split_ifs <;> exact ⟨_, _, rfl⟩
    · exact h
  | threadUnsleep t u hout hm =>
    unfold State.threadUnsleep
    split
    · exact h
    · exact Timed.put (s := s.setQueue _ _) h ⟨(h u).due, (h u).telt⟩
  | signal t r => exact h
  | broadcast t r => exact h
  | pkWakeup u e =>
    refine Timed.signalThread (h.put ⟨fun w hw ht => (h u).due w hw ?_, (h u).telt⟩)
    cases e <;> exact ht
  | tick n => exact fun t => (h t).mono (Nat.le_add_right _ _) id
  | pop u d htelt hd =>
    obtain ⟨w, harms, htimeout⟩ := (h u).telt d htelt
    have hdue : w.Due s.now := ⟨d, htimeout, hd⟩
    refine (Function.forall_update_iff s.pk fun t pk => TimedOk s.now (some u = some t) pk).2 ⟨?_,
      fun t hne => ?_⟩
    · refine ⟨fun w' hw' _ => ?_, nofun⟩
      rw [Phase.wait_of_arms harms] at hw'
      exact Option.some.inj hw' ▸ hdue
    · exact (h t).mono (Nat.le_refl _) fun heq => absurd (Option.some.inj heq).symm hne
  | fire u hpopped =>
    have hput : Timed (s.put u { s.pk u with event := { (s.pk u).event with timeout := true } }) :=
      h.put ⟨fun w hw _ => (h u).due w hw (.inr (.inl hpopped)), (h u).telt⟩
    exact fun t => (hput.signalThread (u := u) t).mono (Nat.le_refl _) nofun

theorem timed_reach (h : (machine T R).Reach (fun s a => a.Clear s) s) : Timed s :=
  h.inv (by rintro _ rfl; exact timed_initial) fun _ _ _ h hc hs => h.step hc hs

theorem Timed.owned_iff (h : Timed s) (hs : Sleep.step s a = some s') : Owned s' ↔ a.Clear s := by
  refine ⟨fun howned => ?_, fun hc => (h.step hc hs).isOwned⟩
  cases step_taken hs with
  | tsleepAbs t chan pri timeout =>
    have := howned t ⟨.chan chan, timeout, priMask pri⟩
    simp only [State.tsleepAbs, put_self] at this
    exact this rfl
  | pkConditionWait t r timeout mask =>
    have := howned t ⟨.resource r, timeout, mask⟩
    simp only [put_self] at this
    exact this rfl
  | _ => trivial

/-- No timeout is spurious in a run in which each wait starts without one that is left over, and
from a state of such a run these are the steps after which a timeout of a thread is that of its
wait. -/
theorem clear_waits_time_out (h : (machine T R).Reach (fun s a => a.Clear s) s) :
    NoSpuriousTimeout s ∧ ∀ a s', step s a = some s' → (Owned s' ↔ a.Clear s) :=
  ⟨(timed_reach h).noSpuriousTimeout, fun _ _ hs => (timed_reach h).owned_iff hs⟩

/-- A wait that times out. -/
theorem clear_waits_time_out_once :
    ∃ s : State Bool Unit, (∃ w, (s.pk true).phase = .returned w .wouldBlock) ∧
      NoSpuriousTimeout s ∧ ∀ a s', step s a = some s' → (Owned s' ↔ a.Clear s) :=
  ⟨_, ⟨_, rfl⟩, clear_waits_time_out <| (Machine.Reach.start rfl
    |>.step (.lock true .master) trivial rfl |>.step (.tsleepAbs true 1 0 (some 5))
      (by rintro (h | h) <;> cases h) rfl
    |>.step (.activate true) trivial rfl |>.step (.checkEvents true) trivial rfl |>.step (.tick 5)
      trivial rfl
    |>.step (.pop true) trivial rfl |>.step .fire trivial rfl |>.step (.resume true) trivial rfl
    |>.step (.deactivate true) trivial rfl |>.step (.finish true) trivial rfl |>.step (.tick 1)
      trivial rfl
    |>.step (.activate true) trivial rfl)⟩

/-- A wait that has no timeout has returned `EWOULDBLOCK`. -/
def State.timedOut (s : State Bool Unit) : Bool :=
  match (s.pk true).phase with
  | .returned w .wouldBlock => w.timeout.isNone
  | _ => false

/-- The resource is signalled, then the timer expires, and the next wait, which has no timeout,
returns `EWOULDBLOCK`. -/
theorem timeout_left_over :
    ¬∀ s : State Bool Unit, (machine Bool Unit).Reach Machine.Any s → NoSpuriousTimeout s := by
  intro h
  let wait (timeout : Option ℕ) : List (Act Bool Unit) :=
    [.pkConditionWait true () timeout .none, .activate true, .checkEvents true]
  obtain ⟨s, hs, hp⟩ := Machine.Reach.exists_run (M := machine Bool Unit)
    (p := State.timedOut) rfl
    (Machine.along_any _ _ (.lock true (.resource ()) :: wait
      (some 5) ++ [.lock false (.resource ()),
      .signal false (), .unlock false (.resource ()), .resume true, .tick 5, .pop true, .fire,
      .deactivate true,
      .finish true] ++ wait none ++ [.consume true, .deactivate true])) (by decide)
  unfold State.timedOut at hp
  split at hp
  · next w hphase =>
    obtain ⟨d, hd, -⟩ := h s hs true w hphase
    rw [hd] at hp
    cases hp
  · cases hp

end Run

end XMach.Sleep
