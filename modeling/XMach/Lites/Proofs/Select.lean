import Mathlib.Tactic.Common
import XMach.Lites.Select

/-!
# No lost select

An object remembers one thread only: `selrecord` looks at the channel of its caller, which is not
asleep, and not at that of the thread in `si_pk`, so a collision is never noted and the first thread
is forgotten (`second_select_forgets_first`). As long as no thread registers over one that waits,
none is lost.
-/

namespace XMach.Select

open Function

variable {T S P : Type*} {s s' : State T S P} {t u : T} {sip : S} {th : Thread P} {a : Act T S P}
  {ncoll : ℕ}

section Fields

@[simp] theorem put_self [DecidableEq T] : (s.put t th).thread t = th := update_self ..

theorem not_pending (hscan : ∀ n, th.phase ≠ .scan n) (hasleep : th.phase ≠ .asleep) :
    ¬th.Pending := by
  rintro (⟨⟨n, hn⟩, -⟩ | ⟨ha, -⟩)
  · exact hscan n hn
  · exact hasleep ha

theorem not_pending_wchan (hphase : th.phase = .asleep) (hwchan : th.wchan ≠ some .selwait) :
    ¬th.Pending := by
  rintro (⟨⟨n, hn⟩, -⟩ | ⟨-, hw⟩)
  · rw [hphase] at hn
    cases hn
  · exact hwchan hw

theorem pRef_pos [DecidableEq P] [Fintype T] {p : P} (hp : (s.thread t).proc = some p) :
    0 < s.pRef p := by
  have : 0 < Fintype.card { t // (s.thread t).proc = some p } := Fintype.card_pos_iff.2 ⟨⟨t, hp⟩⟩
  unfold State.pRef
  omega

end Fields

structure Inv (s : State T S P) : Prop where
  attended : Attended s
  served : ∀ t, s.woken t = true → ¬(s.thread t).Pending
  calm : ∀ t, (s.thread t).phase ≠ .asleep → (s.thread t).wchan ≠ some .selwait
  coll : ∀ sip, (s.sel sip).coll = false
  proc : ∀ t, (s.thread t).phase ≠ .out → (s.thread t).proc.isSome = true

theorem Inv.noLostSelect (h : Inv s) : NoLostSelect s := by
  intro t ht
  have hn := h.served t ht
  refine ⟨fun hp => hn (.inr hp), fun n hphase => .inl ?_⟩
  rw [← Bool.not_eq_true]
  exact fun hflag => hn (.inl ⟨⟨n, hphase⟩, hflag⟩)

theorem wakeup_pending {c : Chan} (hp : ((s.wakeup c).thread t).Pending) :
    (s.thread t).Pending := by
  unfold State.wakeup at hp
  dsimp only at hp
  split_ifs at hp
  · rcases hp with hscan | ⟨-, hw⟩
    · exact .inl hscan
    · cases hw
  · exact hp

theorem Inv.selectKludgeWakeup (h : Inv s) : Inv s.selectKludgeWakeup := by
  have hsub : ∀ u, (s.selectKludgeWakeup.thread u).Pending → (s.thread u).Pending :=
    fun u => wakeup_pending
  refine ⟨fun u sip hreg hu => h.attended u sip hreg (hsub u hu),
    fun u hw hu => h.served u hw (hsub u hu), fun u => ?_, h.coll, fun u => ?_⟩
  all_goals
    unfold State.selectKludgeWakeup State.wakeup
    dsimp only
    split_ifs
  · nofun
  · exact h.calm u
  · exact h.proc u
  · exact h.proc u

theorem Inv.of_pending (h : Inv s) (hp : (s.thread t).Pending) :
    (∀ sip, s.reg t sip = true → (s.sel sip).pk = some t) ∧ ¬s.woken t = true :=
  ⟨fun sip hreg => h.attended t sip hreg hp, fun hw => h.served t hw hp⟩

theorem inv_initial : Inv (initial : State T S P) :=
  ⟨nofun, nofun, fun _ _ => nofun, fun _ => rfl, fun _ hne => absurd rfl hne⟩

section Threads

variable [DecidableEq T]

/-- A thread that is to wait is remembered by the objects that it has registered with. -/
theorem Inv.put (h : Inv s)
    (hpend : th.Pending → (∀ sip, s.reg t sip = true → (s.sel sip).pk = some t) ∧ ¬s.woken t = true)
    (hcalm : th.phase ≠ .asleep → th.wchan ≠ some .selwait)
    (hproc : th.phase ≠ .out → th.proc.isSome = true) : Inv (s.put t th) where
  attended u sip := (forall_update_iff s.thread fun u th => s.reg u sip = true → th.Pending →
      (s.sel sip).pk = some u).2 ⟨fun hreg hp => (hpend hp).1 sip hreg,
      fun u _ => h.attended u sip⟩ u
  served := (forall_update_iff s.thread fun u th => s.woken u = true → ¬th.Pending).2
    ⟨fun hw hp => (hpend hp).2 hw, fun u _ => h.served u⟩
  calm := (forall_update_iff s.thread fun _ th => th.phase ≠ .asleep → th.wchan ≠ some .selwait).2
    ⟨hcalm, fun u _ => h.calm u⟩
  coll := h.coll
  proc := (forall_update_iff s.thread fun _ th => th.phase ≠ .out → th.proc.isSome = true).2
    ⟨hproc, fun u _ => h.proc u⟩

/-- A step of a thread that is afterwards neither in a scan nor asleep. -/
theorem Inv.put_idle (h : Inv s) (hscan : ∀ n, th.phase ≠ .scan n) (hasleep : th.phase ≠ .asleep)
    (hcalm : th.wchan ≠ some .selwait) (hproc : th.phase ≠ .out → th.proc.isSome = true) :
    Inv (s.put t th) :=
  h.put (fun hp => absurd hp (not_pending hscan hasleep)) (fun _ => hcalm) hproc

theorem Inv.forget (h : Inv s) :
    Inv { s with reg := update s.reg t fun _ => false, woken := update s.woken t false } := by
  refine ⟨fun u sip hreg => ?_, fun u hw => ?_, h.calm, h.coll, h.proc⟩
  · rcases eq_or_ne u t with rfl | hne
    · simp at hreg
    · exact h.attended u sip (by simpa [hne] using hreg)
  · rcases eq_or_ne u t with rfl | hne
    · simp at hw
    · exact h.served u (by simpa [hne] using hw)

theorem Inv.setFlag (h : Inv s) (hphase : (s.thread t).phase = .counted ncoll) :
    Inv (s.setFlag t ncoll) := by
  have hcalm := h.calm t (by rw [hphase]; nofun)
  have hproc := h.proc t (by rw [hphase]; nofun)
  refine (h.forget (t := t)).put (t := t) (fun _ => ⟨fun sip hreg => ?_, fun hw => ?_⟩)
    (fun _ => hcalm) fun _ => hproc
  · simp at hreg
  · simp at hw

theorem Inv.check (h : Inv s) (hphase : (s.thread t).phase = .scan ncoll) (immediate : Bool) :
    Inv (s.check t ncoll immediate) := by
  have hcalm := h.calm t (by rw [hphase]; nofun)
  have hproc := h.proc t (by rw [hphase]; nofun)
  unfold State.check
  dsimp only
  split_ifs with hback himm
  · exact h.put (fun hp => absurd hp (not_pending nofun nofun)) (fun _ => hcalm) fun _ => hproc
  · exact h.put (fun hp => absurd hp (not_pending nofun nofun)) (fun _ => hcalm) fun _ => hproc
  · -- with the flag set it waited before
    simp only [Bool.or_eq_true, Bool.not_eq_true', not_or, Bool.not_eq_false] at hback
    exact h.put (fun _ => h.of_pending (.inl ⟨⟨_, hphase⟩, hback.1⟩))
      (fun hne => absurd rfl hne) fun _ => hproc

end Threads

section Record

variable [DecidableEq T] [DecidableEq S]

/-- The caller is not asleep, so the object remembers it in any case. -/
theorem Inv.selrecord_eq (h : Inv s) (hphase : (s.thread t).phase = .scan ncoll) :
    (s.selrecord t sip).sel = update s.sel sip ⟨some t, false⟩ := by
  have hcalm := h.calm t (by rw [hphase]; nofun)
  have hcoll := h.coll sip
  unfold State.selrecord
  dsimp only
  rw [if_neg hcalm, ite_self, hcoll]
  split_ifs with hpk
  · rw [← hpk, ← hcoll]
    exact (update_eq_self sip s.sel).symm
  · rfl

theorem selrecord_thread : (s.selrecord t sip).thread = s.thread := by
  unfold State.selrecord
  dsimp only
  split_ifs <;> rfl

theorem selrecord_woken : (s.selrecord t sip).woken = s.woken := by
  unfold State.selrecord
  dsimp only
  split_ifs <;> rfl

theorem selrecord_reg : (s.selrecord t sip).reg = update s.reg t (update (s.reg t) sip true) := by
  unfold State.selrecord
  dsimp only
  split_ifs <;> rfl

theorem selrecord_reg_of_ne {u : T} {sip' : S} (hne : u ≠ t ∨ sip' ≠ sip) :
    (s.selrecord t sip).reg u sip' = s.reg u sip' := by
  rw [selrecord_reg]
  rcases eq_or_ne u t with rfl | hu
  · rw [update_self, update_of_ne (hne.resolve_left (not_not.2 rfl))]
  · rw [update_of_ne hu]

theorem Inv.selrecord_attended_iff (h : Inv s) (hphase : (s.thread t).phase = .scan ncoll) :
    Attended (s.selrecord t sip) ↔ (Act.selrecord t sip).Careful s := by
  constructor
  · intro hatt u hpk hne hreg hpend
    have hlost := hatt u sip ((selrecord_reg_of_ne (.inl hne)).trans hreg)
      (selrecord_thread (s := s) ▸ hpend)
    rw [h.selrecord_eq hphase, update_self] at hlost
    exact hne (Option.some.inj hlost).symm
  · intro hc u sip' hreg hpend
    rw [selrecord_thread] at hpend
    rw [h.selrecord_eq hphase]
    rcases eq_or_ne sip' sip with rfl | hsip
    · rw [update_self]
      by_contra hne
      have hut : u ≠ t := fun heq => hne (heq ▸ rfl)
      rw [selrecord_reg_of_ne (.inl hut)] at hreg
      exact hc u (h.attended u sip' hreg hpend) hut hreg hpend
    · rw [update_of_ne hsip]
      rw [selrecord_reg_of_ne (.inr hsip)] at hreg
      exact h.attended u sip' hreg hpend

theorem Inv.selrecord (h : Inv s) (hphase : (s.thread t).phase = .scan ncoll)
    (hc : (Act.selrecord t sip).Careful s) : Inv (s.selrecord t sip) := by
  refine ⟨(h.selrecord_attended_iff hphase).2 hc, ?_, ?_, fun sip' => ?_, ?_⟩
  · rw [selrecord_thread, selrecord_woken]
    exact h.served
  · rw [selrecord_thread]
    exact h.calm
  · rw [h.selrecord_eq hphase]
    rcases eq_or_ne sip' sip with rfl | hsip
    · rw [update_self]
    · rw [update_of_ne hsip]
      exact h.coll sip'
  · rw [selrecord_thread]
    exact h.proc

end Record

/-- The thread that the object remembers does not wait any more. -/
theorem Inv.unsleep [DecidableEq T] [DecidableEq P] [Fintype T] (h : Inv s) :
    Inv (s.unsleep u) ∧ ¬((s.unsleep u).thread u).Pending := by
  unfold State.unsleep
  dsimp only
  rcases hproc : (s.thread u).proc with _ | p
  · have hout : (s.thread u).phase = .out := by
      by_contra hne
      have := h.proc u hne
      rw [hproc] at this
      cases this
    refine ⟨h, not_pending (fun n => ?_) ?_⟩
    all_goals
      rw [hout]
      nofun
  · dsimp only
    rw [if_pos (pRef_pos hproc)]
    split_ifs with hw
    · have hasleep : (s.thread u).phase = .asleep := by
        by_contra hne
        exact h.calm u hne hw
      have hnot : ¬{ s.thread u with wchan := none }.Pending := not_pending_wchan hasleep nofun
      refine ⟨h.put (fun hp => absurd hp hnot) (fun _ => nofun) fun _ => rfl, ?_⟩
      rwa [put_self]
    · have hnot : ¬{ s.thread u with flag := false }.Pending := by
        rintro (⟨-, hflag⟩ | ⟨-, hsel⟩)
        · cases hflag
        · exact hw hsel
      refine ⟨h.put (fun hp => absurd hp hnot) (h.calm u) fun _ => rfl, ?_⟩
      rwa [put_self]

section Wakeup

variable [DecidableEq T] [DecidableEq P] [Fintype T]

theorem unsleep_frame (s : State T S P) (u : T) (sel : S → Selinfo T) (woken : T → Bool) :
    { s with sel := sel, woken := woken }.unsleep u = { s.unsleep u with
      sel := sel
      woken := woken } := by
  unfold State.unsleep
  dsimp only
  rcases (s.thread u).proc with _ | p
  · rfl
  · dsimp only
    have href : { s with sel := sel, woken := woken }.pRef p = s.pRef p := rfl
    rw [href]
    split_ifs <;> rfl

theorem unsleep_same (s : State T S P) (u : T) :
    (s.unsleep u).sel = s.sel ∧ (s.unsleep u).reg = s.reg ∧ (s.unsleep u).woken = s.woken := by
  unfold State.unsleep
  dsimp only
  rcases (s.thread u).proc with _ | p
  · exact ⟨rfl, rfl, rfl⟩
  · dsimp only
    split_ifs <;> exact ⟨rfl, rfl, rfl⟩

theorem Inv.selwakeup [DecidableEq S] (h : Inv s) : Inv (s.selwakeup sip) := by
  unfold State.selwakeup
  dsimp only
  rcases hpk : (s.sel sip).pk with _ | u
  · -- nobody is remembered, so nobody waits
    refine ⟨h.attended, fun t hw hp => ?_, h.calm, h.coll, h.proc⟩
    rcases Bool.or_eq_true_iff.1 hw with hw | hreg
    · exact h.served t hw hp
    · have := h.attended t sip hreg hp
      rw [hpk] at this
      cases this
  · dsimp only
    rw [if_neg (by rw [h.coll sip]; nofun)]
    obtain ⟨hu, hnot⟩ := h.unsleep (u := u)
    obtain ⟨hsel, hreg, hwoken⟩ := unsleep_same s u
    -- a thread that still waits is remembered by another object
    have hother : ∀ t, ((s.unsleep u).thread t).Pending → ¬s.reg t sip = true := by
      intro t hp hr
      have hrem := hu.attended t sip (hreg ▸ hr) hp
      rw [hsel, hpk] at hrem
      exact hnot (Option.some.inj hrem ▸ hp)
    rw [State.setSel, unsleep_frame s u]
    refine ⟨fun t sip' hr hp => ?_, fun t hw hp => ?_, hu.calm, fun sip' => ?_, hu.proc⟩
    · have hne : sip' ≠ sip := by
        rintro rfl
        exact hother t hp (hreg ▸ hr)
      dsimp only
      rw [update_of_ne hne, ← hsel]
      exact hu.attended t sip' hr hp
    · rcases Bool.or_eq_true_iff.1 hw with hw | hr
      · exact hu.served t (hwoken ▸ hw) hp
      · exact hother t hp hr
    · dsimp only
      rcases eq_or_ne sip' sip with rfl | hne
      · rw [update_self]
        exact h.coll sip'
      · rw [update_of_ne hne]
        exact h.coll sip'

end Wakeup

section Run

variable [DecidableEq T] [DecidableEq S] [DecidableEq P] [Fintype T]

theorem Inv.step (h : Inv s) (hc : a.Careful s) (hs : step s a = some s') : Inv s' := by
  have awake : ∀ {t : T} {ph : Phase}, (s.thread t).phase = ph → ph ≠ .asleep →
    (s.thread t).wchan ≠ some .selwait :=
    fun {t ph} hph hne => h.calm t (hph ▸ hne)
  have serves : ∀ {t : T} {ph : Phase}, (s.thread t).phase = ph → ph ≠ .out →
    (s.thread t).proc.isSome = true :=
    fun {t ph} hph hne => h.proc t (hph ▸ hne)
  rcases a with ⟨t, p⟩ | t | t | t | t | ⟨t, sip⟩ | t | ⟨t, imm⟩ | t | ⟨t, again⟩ | t | ⟨t,
    chan⟩ | ⟨p, n⟩ | sip | _ <;>
    simp only [Select.step, Option.ite_none_right_eq_some, Option.some.injEq] at hs
  case register =>
    obtain ⟨⟨hph, -⟩, rfl⟩ := hs
    exact h.put_idle (by rw [hph]; nofun) (by rw [hph]; nofun) (awake hph nofun) fun _ => rfl
  case deregister =>
    obtain ⟨hph, rfl⟩ := hs
    exact h.put_idle (by rw [hph]; nofun) (by rw [hph]; nofun)
      (awake hph nofun) fun hne => absurd hph hne
  case enter =>
    obtain ⟨⟨hph, hsome⟩, rfl⟩ := hs
    exact h.put_idle nofun nofun (awake hph nofun) fun _ => hsome
  case readNcoll =>
    obtain ⟨hph, rfl⟩ := hs
    exact h.put_idle nofun nofun (awake hph nofun) fun _ => serves hph nofun
  case setFlag =>
    split at hs
    · next n hph =>
      cases hs
      exact h.setFlag hph
    · cases hs
  case selrecord =>
    split at hs
    · next n hph =>
      cases hs
      exact h.selrecord hph hc
    · cases hs
  case ready =>
    split at hs
    · next n hph =>
      cases hs
      exact h.put_idle nofun nofun (awake hph nofun) fun _ => serves hph nofun
    · cases hs
  case check =>
    split at hs
    · next n hph =>
      cases hs
      exact h.check hph imm
    · cases hs
  case resume =>
    obtain ⟨⟨hph, hwchan⟩, rfl⟩ := hs
    exact h.put_idle nofun nofun (by rw [hwchan]; nofun) fun _ => serves hph nofun
  case interrupted =>
    obtain ⟨hph, rfl⟩ := hs
    refine h.put_idle (fun n => ?_) ?_ nofun fun _ => serves hph nofun <;> cases again <;> nofun
  case finish =>
    obtain ⟨hph, rfl⟩ := hs
    exact h.put_idle nofun nofun (awake hph nofun) fun hne => absurd rfl hne
  case elsewhere =>
    obtain ⟨hph, rfl⟩ := hs
    refine h.put (fun hp => h.of_pending ?_) (fun _ => by cases chan <;> nofun) (h.proc t)
    rcases hp with hscan | ⟨hasleep, -⟩
    · exact .inl hscan
    · exact absurd hasleep hph
  case others =>
    obtain rfl := hs
    exact ⟨h.attended, h.served, h.calm, h.coll, h.proc⟩
  case selwakeup =>
    obtain rfl := hs
    exact h.selwakeup
  case selectKludgeWakeup =>
    obtain rfl := hs
    exact h.selectKludgeWakeup

theorem inv_reach (h : (machine T S P).Reach (fun s a => a.Careful s) s) : Inv s :=
  h.inv (by rintro _ rfl; exact inv_initial) fun _ _ _ h hc hs => h.step hc hs

theorem Inv.attended_iff (h : Inv s) (hs : Select.step s a = some s') :
    Attended s' ↔ a.Careful s := by
  by_cases hrec : ∃ t sip, a = .selrecord t sip
  · obtain ⟨t, sip, rfl⟩ := hrec
    simp only [Select.step] at hs
    split at hs
    · next n hph =>
      cases hs
      exact h.selrecord_attended_iff hph
    · cases hs
  · have hc : a.Careful s := by
      rcases a with _ | _ | _ | _ | _ | ⟨t, sip⟩ | _ | _ | _ | _ | _ | _ | _ | _ | _
      case selrecord => exact absurd ⟨t, sip, rfl⟩ hrec
      all_goals trivial
    exact iff_of_true (h.step hc hs).attended hc

/-- No select is lost in a run in which no thread registers over one that waits, and from a state of
such a run these are the steps that leave every thread that waits remembered. -/
theorem careful_select_not_lost (h : (machine T S P).Reach (fun s a => a.Careful s) s) :
    NoLostSelect s ∧ ∀ a s', step s a = some s' → (Attended s' ↔ a.Careful s) :=
  ⟨(inv_reach h).noLostSelect, fun _ _ hs => (inv_reach h).attended_iff hs⟩

/-- A thread that sleeps is woken by the object that it has registered with. -/
theorem careful_select_not_lost_asleep :
    ∃ s : State Bool Unit Unit, (s.woken true = true ∧ (s.thread true).phase = .asleep) ∧
      NoLostSelect s ∧ ∀ a s', step s a = some s' → (Attended s' ↔ a.Careful s) :=
  ⟨_, ⟨rfl, rfl⟩, careful_select_not_lost <| (Machine.Reach.start rfl
    |>.step (.register true ()) trivial rfl |>.step (.enter true) trivial rfl |>.step
      (.readNcoll true) trivial rfl
    |>.step (.setFlag true) trivial rfl |>.step (.selrecord true ()) nofun rfl |>.step
      (.check true false) trivial rfl
    |>.step (.selwakeup ()) trivial rfl)⟩

/-- The thread that `selrecord` finds asleep is forgotten, and sleeps on after the wakeup. -/
theorem second_select_forgets_first :
    ¬∀ s : State Bool Unit Unit, (machine Bool Unit Unit).Reach Machine.Any s → NoLostSelect s := by
  intro h
  let select (t : Bool) : List (Act Bool Unit Unit) :=
    [.register t (), .enter t, .readNcoll t, .setFlag t, .selrecord t (), .check t false]
  obtain ⟨s, hs, hp⟩ := Machine.Reach.exists_run (M := machine Bool Unit Unit)
    (p := fun s => s.woken true && (s.thread true).phase = .asleep &&
      (s.thread true).wchan = some .selwait) rfl
    (Machine.along_any _ _ (select true ++ select false ++ [.selwakeup ()])) (by decide)
  simp only [Bool.and_eq_true, decide_eq_true_eq] at hp
  exact (h s hs true hp.1.1).1 ⟨hp.1.2, hp.2⟩

end Run

end XMach.Select
