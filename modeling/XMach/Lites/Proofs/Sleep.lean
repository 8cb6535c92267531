import Mathlib.Data.List.Nodup
import Mathlib.Tactic.Common
import XMach.Lites.Sleep

/-!
# Wakeups

A thread in a sleep condition has its channel, and no event that it does not ignore, as long as
nobody takes the channel away without a signal: `thread_unsleep` does (`unsleep_leaves_thread`).
-/

namespace XMach.Sleep

open Function

variable {T R : Type*} {s s' : State T R} {t u : T} {pk : Pk R} {w : Wait R} {a : Act T R} {c : ℕ}

/-- The phases in which the thread has the mutex of the wait. -/
def Phase.holds : Phase R → Option (Wait R)
  | .out | .blocked _ => none
  | .enter w | .armed w | .seen w _ | .leaving w _ | .returned w _ => some w

/-- The phases between the test of the channel and the condition. -/
def Phase.starts : Phase R → Option (Wait R)
  | .enter w | .armed w => some w
  | _ => none

theorem Phase.holds_of_starts {p : Phase R} (h : p.starts = some w) : p.holds = some w := by
  cases p <;> first | exact h | cases h

theorem Phase.wait_of_holds {p : Phase R} (h : p.holds = some w) :
    p.wait = some w ∧ ∀ w', p ≠ .blocked w' := by
  cases p <;> first | exact ⟨h, nofun⟩ | cases h

section Invariant

structure ThreadOk (s : State T R) (t : T) (pk : Pk R) : Prop where
  queued : ∀ i, t ∈ s.sleepQueue i ↔ ∃ c, pk.wchan = some c ∧ sleepHash c = i
  waiting : ∀ c, t ∈ s.waiters c → ∃ w, pk.phase = .blocked w ∧ w.place.cond = c ∧
    pk.condition = some c ∧
    (pk.event.without w.mask).any = false ∧ ∀ ch, w.place = .chan ch → pk.wchan ≠ none
  sleeping : ∀ c, pk.wchan = some c → ∃ w, pk.phase.wait = some w ∧ w.place = .chan c
  held : ∀ w, pk.phase.holds = some w → s.holder w.place.mutex = some t
  fresh : ∀ w c, pk.phase.starts = some w → w.place = .chan c → pk.wchan = some c

structure Inv (s : State T R) : Prop where
  thread : ∀ t, ThreadOk s t (s.pk t)
  nodupQueue : ∀ i, (s.sleepQueue i).Nodup
  nodupWaiters : ∀ c, (s.waiters c).Nodup

/-- What a step of `t` leaves to the other threads. -/
structure Frame (s s' : State T R) (t : T) : Prop where
  pk : ∀ u, u ≠ t → s'.pk u = s.pk u
  queue : ∀ u, u ≠ t → ∀ i, u ∈ s'.sleepQueue i ↔ u ∈ s.sleepQueue i
  waiters : ∀ u, u ≠ t → ∀ c, u ∈ s'.waiters c → u ∈ s.waiters c
  holder : ∀ u, u ≠ t → ∀ m, s.holder m = some u → s'.holder m = some u

theorem Inv.noLostWakeup (h : Inv s) : NoLostWakeup s where
  queued t i := (h.thread t).queued i
  signalled t i ht := by
    obtain ⟨w, hphase, hcond, -, hevent, hchan⟩ := (h.thread t).waiting _ ht
    rcases hplace : w.place with ch | r
    · refine ⟨hchan ch hplace, fun w' hw' => ?_⟩
      rw [hphase] at hw'
      cases hw'
      exact hevent
    · rw [hplace] at hcond
      cases hcond

theorem Inv.frame (h : Inv s) (hf : Frame s s' t) (ht : ThreadOk s' t (s'.pk t))
    (hq : ∀ i, (s'.sleepQueue i).Nodup) (hw : ∀ c, (s'.waiters c).Nodup) : Inv s' := by
  refine ⟨fun u => ?_, hq, hw⟩
  by_cases hne : u = t
  · exact hne ▸ ht
  · have hu := h.thread u
    rw [hf.pk u hne]
    exact ⟨fun i => (hf.queue u hne i).trans (hu.queued i),
      fun c hc => hu.waiting c (hf.waiters u hne c hc),
      hu.sleeping, fun w hw => hf.holder u hne _ (hu.held w hw), hu.fresh⟩

theorem Inv.timer (h : Inv s) (hq : s'.sleepQueue = s.sleepQueue) (hw : s'.waiters = s.waiters)
    (hh : s'.holder = s.holder) (hpk : ∀ t, ∃ telt, s'.pk t = { s.pk t with telt }) : Inv s' := by
  refine ⟨fun t => ?_, hq ▸ h.nodupQueue, hw ▸ h.nodupWaiters⟩
  have ht := h.thread t
  obtain ⟨telt, htelt⟩ := hpk t
  rw [htelt]
  exact ⟨hq ▸ ht.queued, hw ▸ ht.waiting, ht.sleeping, hh ▸ ht.held, ht.fresh⟩

theorem ThreadOk.not_waiting (h : ThreadOk s t pk) (hne : ∀ w, pk.phase ≠ .blocked w) (c : Cond R) :
    t ∉ s.waiters c := by
  intro hc
  obtain ⟨w, hphase, -⟩ := h.waiting c hc
  exact hne w hphase

theorem ThreadOk.wchan_out (h : ThreadOk s t pk) (hout : pk.phase = .out) : pk.wchan = none := by
  rcases hw : pk.wchan with _ | c
  · rfl
  · obtain ⟨w, hphase, -⟩ := h.sleeping c hw
    rw [hout] at hphase
    cases hphase

theorem ThreadOk.wchan_eq (h : ThreadOk s t pk) (hc : pk.wchan = some c)
    (hw : pk.phase.wait = some w) : w.place = .chan c := by
  obtain ⟨w', hw', hplace⟩ := h.sleeping c hc
  rw [hw] at hw'
  exact Option.some.inj hw' ▸ hplace

/-- The thread that runs with the master mutex is the only one that may be on its way to a sleep
condition. -/
theorem Inv.not_starts (h : Inv s) (hout : (s.pk t).phase = .out)
    (hmaster : s.holder .master = some t)
    (hw : (s.pk u).phase.starts = some w) : ∀ c, w.place ≠ .chan c := by
  intro c hplace
  have hheld := (h.thread u).held w (Phase.holds_of_starts hw)
  rw [hplace] at hheld
  obtain rfl : t = u := Option.some.inj (hmaster.symm.trans hheld)
  rw [hout] at hw
  cases hw

theorem Inv.free_of_none (h : Inv s) {m : Mutex R} (hm : s.holder m = none) :
    ∀ u w, (s.pk u).phase.holds = some w → w.place.mutex ≠ m := by
  rintro u w hw rfl
  have := (h.thread u).held w hw
  rw [hm] at this
  cases this

theorem Inv.free_of_idle (h : Inv s) {m : Mutex R} (hm : s.holder m = some t)
    (ht : (s.pk t).phase.holds = none) :
    ∀ u w, (s.pk u).phase.holds = some w → w.place.mutex ≠ m := by
  rintro u w hw rfl
  have hu := (h.thread u).held w hw
  obtain rfl : t = u := Option.some.inj (hm.symm.trans hu)
  rw [ht] at hw
  cases hw

theorem setQueue_mem {i j : Fin 64} {l : List T} (hl : u ∈ l ↔ u ∈ s.sleepQueue i) :
    u ∈ (s.setQueue i l).sleepQueue j ↔ u ∈ s.sleepQueue j := by
  show u ∈ update s.sleepQueue i l j ↔ _
  by_cases hj : j = i
  · subst hj
    rwa [update_self]
  · rw [update_of_ne hj]

theorem inv_initial : Inv (initial : State T R) :=
  ⟨fun _ => ⟨fun _ => iff_of_false nofun (by rintro ⟨c, hc, -⟩; cases hc), nofun, nofun, nofun,
    nofun⟩, fun _ => List.nodup_nil, fun _ => List.nodup_nil⟩

end Invariant

section Own

variable [DecidableEq T]

@[simp] theorem put_self : (s.put t pk).pk t = pk := update_self ..

theorem frame_put : Frame s (s.put t pk) t where
  pk _ hne := update_of_ne hne ..
  queue _ _ _ := Iff.rfl
  waiters _ _ _ := id
  holder _ _ _ := id

/-- A thread that is not in a condition goes on, with its channel. -/
theorem Inv.put (h : Inv s) (hwchan : pk.wchan = (s.pk t).wchan) (hnot : ∀ c, t ∉ s.waiters c)
    (hwait : (s.pk t).wchan ≠ none → pk.phase.wait = (s.pk t).phase.wait)
    (hheld : ∀ w, pk.phase.holds = some w → s.holder w.place.mutex = some t)
    (hfresh : ∀ w c, pk.phase.starts = some w → w.place = .chan c → pk.wchan = some c) :
    Inv (s.put t pk) := by
  have ht := h.thread t
  refine h.frame frame_put ?_ h.nodupQueue h.nodupWaiters
  rw [put_self]
  refine ⟨fun i => hwchan ▸ ht.queued i, fun c hc => absurd hc (hnot c), fun c hc => ?_, hheld,
    hfresh⟩
  rw [hwchan] at hc
  rw [hwait (by rw [hc]; nofun)]
  exact ht.sleeping c hc

theorem Inv.go (h : Inv s) {p : Phase R} (hheld : (s.pk t).phase.holds = some w)
    (hwchan : pk.wchan = (s.pk t).wchan) (hphase : pk.phase = p) (hwait : p.wait = some w)
    (hstarts : ∀ w', p.starts = some w' → (s.pk t).phase.starts = some w') : Inv (s.put t pk) := by
  have ht := h.thread t
  have hhas := Phase.wait_of_holds hheld
  refine h.put hwchan (ht.not_waiting hhas.2) (fun _ => ?_)
    (fun w' hw' => ?_) fun w' c hw' hplace => ?_
  · rw [hphase, hwait, hhas.1]
  · have hsame := (Phase.wait_of_holds hw').1
    rw [hphase, hwait] at hsame
    cases hsame
    exact ht.held w hheld
  · rw [hwchan]
    exact ht.fresh w' c (hstarts w' (hphase ▸ hw')) hplace

theorem runs_iff {m : Mutex R} [DecidableEq R] : s.runs t m = true ↔ (s.pk t).phase = .out ∧
    s.holder m = some t := by
  unfold State.runs
  rw [Bool.and_eq_true, decide_eq_true_eq]
  refine and_congr_left fun _ => ?_
  rcases (s.pk t).phase with _ | _ | _ | _ | _ | _ | _ <;> simp

end Own

section Mutexes

variable [DecidableEq R]

theorem setWaiters_self {c : Cond R} {l : List T} : (s.setWaiters c l).waiters c = l :=
  update_self ..

theorem setWaiters_of_ne {c c' : Cond R} {l : List T} (hne : c' ≠ c) :
    (s.setWaiters c l).waiters c' = s.waiters c' := update_of_ne hne ..

/-- The mutex is not the one of a thread that needs it for its wait. -/
theorem Inv.setHolder (h : Inv s) {m : Mutex R} {o : Option T}
    (hfree : ∀ u w, (s.pk u).phase.holds = some w → w.place.mutex ≠ m) : Inv (s.setHolder m o) := by
  refine ⟨fun u => ?_, h.nodupQueue, h.nodupWaiters⟩
  have hu := h.thread u
  refine ⟨hu.queued, hu.waiting, hu.sleeping, fun w hw => ?_, hu.fresh⟩
  exact (update_of_ne (hfree u w hw) ..).trans (hu.held w hw)

theorem Inv.setWaiters (h : Inv s) {c : Cond R} {l : List T} (hl : l.Sublist (s.waiters c)) :
    Inv (s.setWaiters c l) := by
  have hsub : ∀ c', ((s.setWaiters c l).waiters c').Sublist (s.waiters c') :=
    (forall_update_iff s.waiters fun c' l => l.Sublist (s.waiters c')).2 ⟨hl, fun c' _ => .refl _⟩
  refine ⟨fun u => ?_, h.nodupQueue, fun c' => (h.nodupWaiters c').sublist (hsub c')⟩
  have hu := h.thread u
  exact ⟨hu.queued, fun c' hc' => hu.waiting c' ((hsub c').subset hc'), hu.sleeping, hu.held,
    hu.fresh⟩

theorem Inv.addWaiter (h : Inv s) (hphase : (s.pk t).phase = .blocked w)
    (hnot : t ∉ s.waiters w.place.cond)
    (hcond : (s.pk t).condition = some w.place.cond)
    (hevent : ((s.pk t).event.without w.mask).any = false)
    (hchan : ∀ ch, w.place = .chan ch → (s.pk t).wchan ≠ none) :
    Inv (s.setWaiters w.place.cond (s.waiters w.place.cond ++ [t])) := by
  refine ⟨fun u => ?_, h.nodupQueue, ?_⟩
  · have hu := h.thread u
    refine ⟨hu.queued, fun c hc => ?_, hu.sleeping, hu.held, hu.fresh⟩
    by_cases hcw : c = w.place.cond
    · subst hcw
      rw [setWaiters_self] at hc
      rcases List.mem_append.1 hc with hc | hc
      · exact hu.waiting _ hc
      · obtain rfl := List.mem_singleton.1 hc
        exact ⟨w, hphase, rfl, hcond, hevent, hchan⟩
    · rw [setWaiters_of_ne hcw] at hc
      exact hu.waiting c hc
  · refine (forall_update_iff s.waiters fun _ l => l.Nodup).2 ⟨?_, fun c _ => h.nodupWaiters c⟩
    exact List.nodup_append_comm.1 (List.nodup_cons.2 ⟨hnot, h.nodupWaiters _⟩)

theorem Inv.resume [DecidableEq T] (h : Inv s) (hphase : (s.pk t).phase = .blocked w)
    (hnot : t ∉ s.waiters w.place.cond) (hfree : s.holder w.place.mutex = none) :
    Inv (s.resume t w) := by
  have hall : ∀ c, t ∉ s.waiters c := by
    intro c hc
    obtain ⟨w', hw', hcond, -⟩ := (h.thread t).waiting c hc
    rw [hphase] at hw'
    cases hw'
    exact hnot (hcond ▸ hc)
  refine (h.setHolder (h.free_of_none hfree)).put rfl hall (fun _ => ?_) (fun w' hw' => ?_) nofun
  · exact (congrArg Phase.wait hphase).symm
  · cases hw'
    exact update_self ..

theorem Inv.checkEvents [DecidableEq T] (h : Inv s) (hphase : (s.pk t).phase = .armed w) :
    Inv (s.checkEvents t w) := by
  have ht := h.thread t
  have hnot : ∀ c, t ∉ s.waiters c := ht.not_waiting (by rw [hphase]; nofun)
  have hheld : s.holder w.place.mutex = some t := ht.held w (by rw [hphase]; rfl)
  have hfresh := ht.fresh w
  rw [hphase] at hfresh
  have hwait : ∀ p : Phase R, p.wait = some w → p.wait = (s.pk t).phase.wait := by
    rw [hphase]
    exact fun p => id
  unfold State.checkEvents
  dsimp only
  split_ifs with hany
  · refine h.put rfl hnot (fun _ => hwait _ rfl) (fun w' hw' => ?_) nofun
    cases hw'
    exact hheld
  · -- the thread waits first, then it is in the condition, then the mutex is free
    have hblocked :
      Inv (s.put t { s.pk t with condition := some w.place.cond, phase := .blocked w }) :=
      h.put rfl hnot (fun _ => hwait _ rfl) nofun nofun
    have hadd := hblocked.addWaiter (t := t) (w := w) (by rw [put_self]) (hnot _) (by rw [put_self])
      (by rw [put_self]; exact Bool.eq_false_iff.2 hany) fun ch hch => by
        rw [put_self, hfresh ch rfl hch]
        nofun
    refine hadd.setHolder (hadd.free_of_idle (t := t) hheld ?_)
    show ((s.put t _).pk t).phase.holds = none
    rw [put_self]
    rfl

end Mutexes

section Queues

variable [DecidableEq T]

theorem Inv.tsleepAbs (h : Inv s) {chan pri : ℕ} {timeout : Option ℕ} (hout : (s.pk t).phase = .out)
    (hmaster : s.holder .master = some t) : Inv (s.tsleepAbs t chan pri timeout) := by
  have ht := h.thread t
  have hnone := ht.wchan_out hout
  have hfresh : ∀ i, t ∉ s.sleepQueue i := by
    intro i hi
    obtain ⟨c, hc, -⟩ := (ht.queued i).1 hi
    rw [hnone] at hc
    cases hc
  have hnot := ht.not_waiting (by rw [hout]; nofun)
  refine h.frame (t := t) ⟨fun u hne => update_of_ne hne .., fun u hne i => ?_, fun _ _ _ => id,
    fun _ _ _ => id⟩ ?_ ?_ h.nodupWaiters
  · exact setQueue_mem (by simp [hne])
  · unfold State.tsleepAbs
    rw [put_self]
    refine ⟨fun i => ?_, fun c hc => absurd hc (hnot c), fun c hc => ?_, fun w hw => ?_,
      fun w c hw hc => ?_⟩
    · show t ∈ update s.sleepQueue (sleepHash chan) _ i ↔ _
      by_cases hi : i = sleepHash chan
      · subst hi
        simp
      · rw [update_of_ne hi]
        simp [hfresh i, Ne.symm hi]
    · exact ⟨_, rfl, Option.some.inj hc ▸ rfl⟩
    · cases hw
      exact hmaster
    · cases hw
      exact congrArg some (Place.chan.inj hc)
  · refine (forall_update_iff s.sleepQueue fun _ l => l.Nodup).2 ⟨?_, fun i _ => h.nodupQueue i⟩
    exact List.nodup_append_comm.1 (List.nodup_cons.2 ⟨hfresh _, h.nodupQueue _⟩)

theorem Inv.dequeue (h : Inv s) (hc : (s.pk t).wchan = some c) (hnone : pk.wchan = none)
    (hnot : ∀ c, t ∉ s.waiters c) (hheld : ∀ w, pk.phase.holds = some w →
    s.holder w.place.mutex = some t)
    (hfresh : ∀ w c, pk.phase.starts = some w → w.place ≠ .chan c) :
    Inv ((s.setQueue (sleepHash c) ((s.sleepQueue (sleepHash c)).erase t)).put t pk) := by
  have ht := h.thread t
  refine h.frame (t := t) ⟨fun u hne => update_of_ne hne .., fun u hne i => ?_, fun _ _ _ => id,
    fun _ _ _ => id⟩ ?_ ?_ h.nodupWaiters
  · exact setQueue_mem (List.mem_erase_of_ne hne)
  · rw [put_self]
    refine ⟨fun i => ?_, fun c hc => absurd hc (hnot c), fun c hc => ?_, hheld,
      fun w c hw hplace => absurd hplace (hfresh w c hw)⟩
    · rw [hnone]
      refine iff_of_false ?_ (by rintro ⟨c, hc, -⟩; cases hc)
      show t ∉ update s.sleepQueue (sleepHash c) _ i
      by_cases hi : i = sleepHash c
      · subst hi
        rw [update_self]
        exact (h.nodupQueue _).not_mem_erase
      · rw [update_of_ne hi, ht.queued i]
        rintro ⟨c', hc', rfl⟩
        rw [hc] at hc'
        exact hi (Option.some.inj hc' ▸ rfl)
    · rw [hnone] at hc
      cases hc
  · exact (forall_update_iff s.sleepQueue fun _ l => l.Nodup).2
      ⟨(h.nodupQueue _).erase t, fun i _ => h.nodupQueue i⟩

theorem Inv.finish (h : Inv s) {err : Err} (hphase : (s.pk t).phase = .returned w err) :
    Inv (s.finish t w err) := by
  have ht := h.thread t
  have hnot := ht.not_waiting (by rw [hphase]; nofun)
  have hheld : s.holder w.place.mutex = some t := ht.held w (by rw [hphase]; rfl)
  rcases hw : (s.pk t).wchan with _ | c
  · have hgone : Inv (s.put t { s.pk t with phase := .out }) :=
      h.put rfl hnot (fun hne => absurd hw hne) nofun nofun
    unfold State.finish
    rw [hw]
    rcases w.place <;> exact hgone
  · have hplace := ht.wchan_eq hw (congrArg Phase.wait hphase)
    unfold State.finish
    rw [hw, hplace]
    dsimp only
    split_ifs with herr
    · refine h.put rfl hnot (fun _ => (congrArg Phase.wait hphase).symm)
        (fun w' hw' => ?_) fun w' c' hw' hc' => ?_
      · cases hw'
        exact hheld
      · cases hw'
        rw [hplace] at hc'
        cases hc'
        exact hw
    · exact h.dequeue hw rfl hnot nofun nofun

theorem Inv.threadUnsleep (h : Inv s) (hout : (s.pk t).phase = .out)
    (hmaster : s.holder .master = some t)
    (hc : ∀ i, u ∉ s.waiters (.sleep i)) : Inv (s.threadUnsleep u) := by
  unfold State.threadUnsleep
  rcases hw : (s.pk u).wchan with _ | c
  · exact h
  · have hu := h.thread u
    refine h.dequeue hw rfl (fun c' hc' => ?_) hu.held fun w c' hw' =>
      h.not_starts hout hmaster hw' c'
    -- a thread with a channel is in no condition but that of the channel
    obtain ⟨w, hphase, hcond, -⟩ := hu.waiting c' hc'
    have hplace := hu.wchan_eq hw (congrArg Phase.wait hphase)
    rw [hplace] at hcond
    exact hc _ (hcond ▸ hc')

/-- All threads with the channel lose it, and nobody is left in its condition. -/
theorem Inv.wakeup [DecidableEq R] (h : Inv s) {chan : ℕ} (hout : (s.pk t).phase = .out)
    (hmaster : s.holder .master = some t) : Inv (s.wakeup chan) := by
  unfold State.wakeup
  dsimp only
  split_ifs with hany
  swap
  · exact h
  refine ⟨fun u => ?_, ?_, ?_⟩
  · have hu := h.thread u
    have hqueue : ∀ i, u ∈ update s.sleepQueue (sleepHash chan)
        ((s.sleepQueue (sleepHash chan)).filter fun t => !decide ((s.pk t).wchan = some chan)) i ↔
        u ∈ s.sleepQueue i ∧ (s.pk u).wchan ≠ some chan := by
      intro i
      by_cases hi : i = sleepHash chan
      · subst hi
        rw [update_self, List.mem_filter]
        simp
      · rw [update_of_ne hi]
        refine (and_iff_left_of_imp fun hmem hchan => ?_).symm
        obtain ⟨c, hc, rfl⟩ := (hu.queued i).1 hmem
        rw [hchan] at hc
        exact hi (Option.some.inj hc ▸ rfl)
    have hwait : ∀ c, u ∈ update s.waiters (.sleep (sleepHash chan)) [] c →
        u ∈ s.waiters c ∧ c ≠ .sleep (sleepHash chan) := by
      intro c hc
      by_cases heq : c = .sleep (sleepHash chan)
      · rw [heq, update_self] at hc
        cases hc
      · rw [update_of_ne heq] at hc
        exact ⟨hc, heq⟩
    dsimp only
    split_ifs with hwoken
    · have hchan : (s.pk u).wchan = some chan := of_decide_eq_true hwoken.2
      refine ⟨fun i => ?_, fun c hc => ?_, nofun, hu.held,
        fun w c hw hplace => absurd hplace (h.not_starts hout hmaster hw c)⟩
      · refine (hqueue i).trans (iff_of_false (fun hq => hq.2 hchan) ?_)
        rintro ⟨c, hc, -⟩
        cases hc
      · obtain ⟨hc, hne⟩ := hwait c hc
        obtain ⟨w, hphase, hcond, -⟩ := hu.waiting c hc
        rw [hu.wchan_eq hchan (congrArg Phase.wait hphase)] at hcond
        exact absurd hcond.symm hne
    · have hchan : (s.pk u).wchan ≠ some chan := fun hchan =>
        hwoken ⟨(hu.queued _).2 ⟨chan, hchan, rfl⟩, decide_eq_true hchan⟩
      exact ⟨fun i => ((hqueue i).trans (and_iff_left hchan)).trans (hu.queued i),
        fun c hc => hu.waiting c (hwait c hc).1, hu.sleeping, hu.held, hu.fresh⟩
  · exact (forall_update_iff s.sleepQueue fun _ l => l.Nodup).2
      ⟨(h.nodupQueue _).filter _, fun i _ => h.nodupQueue i⟩
  · exact (forall_update_iff s.waiters fun _ l => l.Nodup).2
      ⟨List.nodup_nil, fun c _ => h.nodupWaiters c⟩

/-- A thread that is in its condition is lost when its channel is taken away. -/
theorem Inv.lost_of_unsleep (h : Inv s) {i : Fin 64} (hu : u ∈ s.waiters (.sleep i)) :
    ¬NoLostWakeup (s.threadUnsleep u) := by
  intro hlost
  obtain ⟨hsome, -⟩ := h.noLostWakeup.signalled u i hu
  unfold State.threadUnsleep at hlost
  rcases hw : (s.pk u).wchan with _ | c
  · exact hsome hw
  · rw [hw] at hlost
    refine (hlost.signalled u i hu).1 ?_
    dsimp only
    rw [put_self]

end Queues

section Events

variable [DecidableEq T] [DecidableEq R]

theorem signalThread_pk : (s.signalThread u).pk = s.pk := by
  unfold State.signalThread
  rcases (s.pk u).condition <;> rfl

/-- The thread is not in a condition any more: the pointer says which one it can be in. -/
theorem Inv.signalThread (h : Inv s) : Inv (s.signalThread u) ∧ ∀ c,
    u ∉ (s.signalThread u).waiters c := by
  have hu := h.thread u
  unfold State.signalThread
  rcases hcond : (s.pk u).condition with _ | c
  · refine ⟨h, fun c hc => ?_⟩
    obtain ⟨w, -, -, hptr, -⟩ := hu.waiting c hc
    rw [hcond] at hptr
    cases hptr
  · refine ⟨h.setWaiters List.erase_sublist, fun c' hc' => ?_⟩
    by_cases hne : c' = c
    · rw [hne, setWaiters_self] at hc'
      exact (h.nodupWaiters c).not_mem_erase hc'
    · rw [setWaiters_of_ne hne] at hc'
      obtain ⟨w, -, -, hptr, -⟩ := hu.waiting c' hc'
      rw [hcond] at hptr
      exact hne (Option.some.inj hptr).symm

/-- The order of the two parts of `pk_wakeup` does not matter. -/
theorem signalThread_put (hcond : pk.condition = (s.pk u).condition) :
    (s.put u pk).signalThread u = (s.signalThread u).put u pk := by
  unfold State.signalThread
  rw [put_self, hcond]
  rcases (s.pk u).condition <;> rfl

theorem Inv.raise (h : Inv s) (e : Events) :
    Inv ((s.put u { s.pk u with event := e }).signalThread u) := by
  obtain ⟨hs, hnot⟩ := h.signalThread (u := u)
  have hu := hs.thread u
  rw [signalThread_put (by rfl)]
  refine hs.put ?_ hnot ?_ ?_ ?_
  all_goals rw [signalThread_pk] at *
  · exact fun _ => rfl
  · exact hu.held
  · exact hu.fresh

end Events

section Run

variable [DecidableEq T] [DecidableEq R]

/-- What a step can do, and when. -/
inductive Taken (s : State T R) : Act T R → State T R → Prop
  | lock (t : T) (m : Mutex R) (hout : (s.pk t).phase = .out) (hfree : s.holder m = none) :
    Taken s (.lock t m) (s.setHolder m (some t))
  | unlock (t : T) (m : Mutex R) (hout : (s.pk t).phase = .out) (hm : s.holder m = some t) :
    Taken s (.unlock t m) (s.setHolder m none)
  | register (t : T) (hout : (s.pk t).phase = .out) : Taken s (.register t)
      (s.put t { s.pk t with event := .none })
  | tsleepAbs (t : T) (chan : ℕ) (pri : ℕ) (timeout : Option ℕ) (hout : (s.pk t).phase = .out)
    (hm : s.holder .master = some t) :
    Taken s (.tsleepAbs t chan pri timeout) (s.tsleepAbs t chan pri timeout)
  | pkConditionWait (t : T) (r : R) (timeout : Option ℕ) (mask : Events)
    (hout : (s.pk t).phase = .out) (hm : s.holder (.resource r) = some t) :
    Taken s (.pkConditionWait t r timeout mask)
    (s.put t { s.pk t with phase := .enter ⟨.resource r, timeout, mask⟩ })
  | activate (t : T) (w : Wait R) (hphase : (s.pk t).phase = .enter w) :
      Taken s (.activate t) (s.activate t w)
  | checkEvents (t : T) (w : Wait R) (hphase : (s.pk t).phase = .armed w) :
      Taken s (.checkEvents t) (s.checkEvents t w)
  | consume (t : T) (w : Wait R) (events : Events) (hphase : (s.pk t).phase = .seen w events) :
    Taken s (.consume t) (s.consume t w events)
  | resume (t : T) (w : Wait R) (hphase : (s.pk t).phase = .blocked w)
    (hnot : t ∉ s.waiters w.place.cond)
    (hfree : s.holder w.place.mutex = none) : Taken s (.resume t) (s.resume t w)
  | deactivate (t : T) (w : Wait R) (err : Err) (hphase : (s.pk t).phase = .leaving w err) :
    Taken s (.deactivate t) (s.deactivate t w err)
  | finish (t : T) (w : Wait R) (err : Err) (hphase : (s.pk t).phase = .returned w err) :
    Taken s (.finish t) (s.finish t w err)
  | wakeup (t : T) (chan : ℕ) (hout : (s.pk t).phase = .out) (hm : s.holder .master = some t) :
    Taken s (.wakeup t chan) (s.wakeup chan)
  | threadUnsleep (t : T) (u : T) (hout : (s.pk t).phase = .out) (hm : s.holder .master = some t) :
    Taken s (.threadUnsleep t u) (s.threadUnsleep u)
  | signal (t : T) (r : R) : Taken s (.signal t r)
      (s.setWaiters (.resource r) (s.waiters (.resource r)).tail)
  | broadcast (t : T) (r : R) : Taken s (.broadcast t r) (s.setWaiters (.resource r) [])
  | pkWakeup (u : T) (e : Event) : Taken s (.pkWakeup u e) (s.pkWakeup u e)
  | tick (n : ℕ) : Taken s (.tick n) { s with now := s.now + n }
  | pop (u : T) (d : ℕ) (htelt : (s.pk u).telt = some d) (hd : d ≤ s.now) :
    Taken s (.pop u) { s.put u { s.pk u with telt := none } with popped := some u }
  | fire (u : T) (hpopped : s.popped = some u) :
      Taken s .fire { s.pkWakeupFromTimer u with popped := none }

theorem step_taken (hs : step s a = some s') : Taken s a s' := by
  rcases a with ⟨t, m⟩ | ⟨t, m⟩ | t | ⟨t, chan, pri, timeout⟩ | ⟨t, r, timeout,
    mask⟩ | t | t | t | t | t | t |
    ⟨t, chan⟩ | ⟨t, u⟩ | ⟨t, r⟩ | ⟨t, r⟩ | ⟨u, e⟩ | n | u | _ <;>
    simp only [step, Option.ite_none_right_eq_some, Option.some.injEq, runs_iff] at hs
  case lock =>
    split at hs
    · next hout hfree => exact Option.some.inj hs ▸ .lock t m hout hfree
    · cases hs
  case unlock =>
    obtain ⟨⟨hout, hm⟩, rfl⟩ := hs
    exact .unlock t m hout hm
  case register =>
    split at hs
    · next hout => exact Option.some.inj hs ▸ .register t hout
    · cases hs
  case tsleepAbs =>
    obtain ⟨⟨-, hout, hm⟩, rfl⟩ := hs
    exact .tsleepAbs t chan pri timeout hout hm
  case pkConditionWait =>
    obtain ⟨⟨hout, hm⟩, rfl⟩ := hs
    exact .pkConditionWait t r timeout mask hout hm
  case activate =>
    split at hs
    · next w hphase => exact Option.some.inj hs ▸ .activate t w hphase
    · cases hs
  case checkEvents =>
    split at hs
    · next w hphase => exact Option.some.inj hs ▸ .checkEvents t w hphase
    · cases hs
  case consume =>
    split at hs
    · next w events hphase => exact Option.some.inj hs ▸ .consume t w events hphase
    · cases hs
  case resume =>
    split at hs
    · next w hphase =>
      obtain ⟨⟨hnot, hfree⟩, hs⟩ := Option.ite_none_right_eq_some.1 hs
      exact Option.some.inj hs ▸ .resume t w hphase hnot hfree
    · cases hs
  case deactivate =>
    split at hs
    · next w err hphase => exact Option.some.inj hs ▸ .deactivate t w err hphase
    · cases hs
  case finish =>
    split at hs
    · next w err hphase => exact Option.some.inj hs ▸ .finish t w err hphase
    · cases hs
  case wakeup =>
    obtain ⟨⟨hout, hm⟩, rfl⟩ := hs
    exact .wakeup t chan hout hm
  case threadUnsleep =>
    obtain ⟨⟨hout, hm⟩, rfl⟩ := hs
    exact .threadUnsleep t u hout hm
  case signal => exact hs.2 ▸ .signal t r
  case broadcast => exact hs.2 ▸ .broadcast t r
  case pkWakeup => exact hs ▸ .pkWakeup u e
  case tick => exact hs ▸ .tick n
  case pop =>
    split at hs
    · next d htelt hnone =>
      obtain ⟨hd, hs⟩ := Option.ite_none_right_eq_some.1 hs
      exact Option.some.inj hs ▸ .pop u d htelt hd
    · cases hs
  case fire =>
    obtain ⟨u, hu, rfl⟩ := Option.map_eq_some_iff.1 hs
    exact .fire u hu

theorem Inv.step (h : Inv s) (hc : a.Signalled s) (hs : step s a = some s') : Inv s' := by
  have awake : ∀ t, (s.pk t).phase = .out → ∀ c, t ∉ s.waiters c := fun t hout =>
    (h.thread t).not_waiting (by rw [hout]; nofun)
  cases step_taken hs with
  | lock t m hout hfree => exact h.setHolder (h.free_of_none hfree)
  | unlock t m hout hm => exact h.setHolder (h.free_of_idle hm (by rw [hout]; rfl))
  | register t hout =>
    exact h.put rfl (awake t hout) (fun _ => rfl) (h.thread t).held (h.thread t).fresh
  | tsleepAbs t chan pri timeout hout hm => exact h.tsleepAbs hout hm
  | pkConditionWait t r timeout mask hout hm =>
    refine h.put rfl (awake t hout) (fun hne => absurd ((h.thread t).wchan_out hout) hne)
      (fun w hw => ?_)
      fun w c hw hc => ?_
    · cases hw
      exact hm
    · cases hw
      cases hc
  | activate t w hphase =>
    have hheld : (s.pk t).phase.holds = some w := congrArg Phase.holds hphase
    have hstarts : (s.pk t).phase.starts = some w := congrArg Phase.starts hphase
    unfold State.activate
    split
    · exact h.go hheld rfl rfl rfl fun w' hw' => hstarts.trans hw'
    · split_ifs
      · exact h.go hheld rfl rfl rfl nofun
      · exact h.go hheld rfl rfl rfl fun w' hw' => hstarts.trans hw'
  | checkEvents t w hphase => exact h.checkEvents hphase
  | consume t w events hphase =>
    have hheld : (s.pk t).phase.holds = some w := congrArg Phase.holds hphase
    unfold State.consume
    dsimp only
    split_ifs <;> exact h.go hheld rfl rfl rfl nofun
  | resume t w hphase hnot hfree => exact h.resume hphase hnot hfree
  | deactivate t w err hphase => exact h.go (congrArg Phase.holds hphase) rfl rfl rfl nofun
  | finish t w err hphase => exact h.finish hphase
  | wakeup t chan hout hm => exact h.wakeup hout hm
  | threadUnsleep t u hout hm => exact h.threadUnsleep hout hm hc
  | signal t r => exact h.setWaiters (List.tail_sublist _)
  | broadcast t r => exact h.setWaiters (List.nil_sublist _)
  | pkWakeup u e => exact h.raise _
  | tick n => exact h.timer rfl rfl rfl fun t => ⟨_, rfl⟩
  | pop u d htelt hd =>
    refine h.timer rfl rfl rfl ?_
    exact (forall_update_iff s.pk fun t pk => ∃ telt, pk = { s.pk t with telt }).2
      ⟨⟨_, rfl⟩, fun t _ => ⟨_, rfl⟩⟩
  | fire u hpopped => exact (h.raise _).timer rfl rfl rfl fun t => ⟨_, rfl⟩

theorem inv_reach (h : (machine T R).Reach (fun s a => a.Signalled s) s) : Inv s :=
  h.inv (by rintro _ rfl; exact inv_initial) fun _ _ _ h hc hs => h.step hc hs

theorem Inv.noLostWakeup_iff (h : Inv s) (hs : Sleep.step s a = some s') :
    NoLostWakeup s' ↔ a.Signalled s := by
  refine ⟨fun hlost => ?_, fun hc => (h.step hc hs).noLostWakeup⟩
  cases step_taken hs with
  | threadUnsleep t u => exact fun i hu => h.lost_of_unsleep hu hlost
  | _ => trivial

/-- No wakeup is lost in a run in which `thread_unsleep` is not called for a thread in its
condition, and from a state of such a run these are the steps that lose none. -/
theorem careful_wakeup_not_lost (h : (machine T R).Reach (fun s a => a.Signalled s) s) :
    NoLostWakeup s ∧ ∀ a s', step s a = some s' → (NoLostWakeup s' ↔ a.Signalled s) :=
  ⟨(inv_reach h).noLostWakeup, fun _ _ hs => (inv_reach h).noLostWakeup_iff hs⟩

/-- Two threads on channels with one condition: a wakeup of one channel signals both. -/
theorem careful_wakeup_not_lost_shared :
    ∃ s : State (Fin 3) Unit, ((s.pk 0).wchan = none ∧ (s.pk 1).wchan = some 2 ∧
    1 ∉ s.waiters (.sleep 0)) ∧
      NoLostWakeup s ∧ ∀ a s', step s a = some s' → (NoLostWakeup s' ↔ a.Signalled s) :=
  ⟨_, ⟨rfl, rfl, List.not_mem_nil⟩, careful_wakeup_not_lost <| (Machine.Reach.start rfl
    |>.step (.lock 0 .master) trivial rfl |>.step (.tsleepAbs 0 1 0 none) trivial rfl |>.step
      (.activate 0) trivial rfl
    |>.step (.checkEvents 0) trivial rfl |>.step (.lock 1 .master) trivial rfl
    |>.step (.tsleepAbs 1 2 0 none) trivial rfl |>.step (.activate 1) trivial rfl |>.step
      (.checkEvents 1) trivial rfl
    |>.step (.lock 2 .master) trivial rfl |>.step (.wakeup 2 1) trivial rfl)⟩

/-- The thread sleeps on in its condition, and is not on the queue. -/
theorem unsleep_leaves_thread :
    ¬∀ s : State Bool Unit, (machine Bool Unit).Reach Machine.Any s → NoLostWakeup s := by
  intro h
  obtain ⟨s, hs, hp⟩ := Machine.Reach.exists_run (M := machine Bool Unit)
    (p := fun s => true ∈ s.waiters (.sleep 0) ∧ (s.pk true).wchan = none) rfl
    (Machine.along_any _ _ [.lock true .master, .tsleepAbs true 1 0 none, .activate true,
      .checkEvents true, .lock false .master, .threadUnsleep false true]) (by decide)
  obtain ⟨hmem, hnone⟩ := of_decide_eq_true hp
  exact ((h s hs).signalled true 0 hmem).1 hnone

end Run

end XMach.Sleep
