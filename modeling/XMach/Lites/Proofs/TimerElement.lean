import Mathlib.Data.List.Nodup
import Mathlib.Tactic.Common
import XMach.Lites.TimerElement

/-!
# Elements are used while they are lent

An element on the queue is lent to the timer for an activation whose function was not called yet,
and so is the one that the timer thread has taken off the queue, until the owner deactivates it: the
active flag is clear then, and the owner has the element back while the timer thread still reads it
(`deactivated_element_read`).
-/

namespace XMach.TimerElement

open Function

variable {E : Type*} {s s' : State E} {e e' : E} {x : Elt} {i : ℕ} {a : Act E}

/-- The function of the activation was not called, and the element not removed. -/
def State.Due (s : State E) (i : ℕ) : Prop := s.ran i = 0 ∧ s.gone i = false

/-- What holds of an element in memory. -/
structure EltOk (s : State E) (x : Elt) : Prop where
  due : x.active = true → ∃ i, x.act = some i ∧ s.Due i
  fresh : ∀ i, x.act = some i → i < s.next

/-- The element that the timer thread has at hand. -/
def Popped (s : State E) (e : E) (i : ℕ) : Prop :=
  ∃ x, s.elt e = some x ∧ x.act = some i ∧ x.active = false ∧ s.Due i

def Running (s : State E) (e : E) (i : ℕ) : Prop :=
  ∃ x, s.elt e = some x ∧ x.act = some i ∧ x.active = false ∧ x.kind.isWait = false

structure Inv (s : State E) : Prop where
  nodup : s.queue.Nodup
  queued : ∀ e, e ∈ s.queue ↔ ∃ x, s.elt e = some x ∧ x.active = true
  elt : ∀ e x, s.elt e = some x → EltOk s x
  unique : ∀ e e' x x' i, s.elt e = some x → s.elt e' = some x' → x.act = some i →
    x'.act = some i → e = e'
  popped : ∀ e i, s.phase = .popped e i → Popped s e i
  running : ∀ e i, s.phase = .running e i → Running s e i
  notLost : s.phase ≠ .lost
  unborn : ∀ i, s.next ≤ i → s.Due i
  sound : Sound s

theorem Inv.held (h : Inv s) : Held s := by
  intro e i hphase
  obtain ⟨x, hx, hact, -⟩ := h.popped e i hphase
  rw [hx]
  exact hact

theorem EltOk.inactive (h : EltOk s x) (hact : x.act = none) : x.active = false := by
  rw [← Bool.not_eq_true]
  intro hactive
  obtain ⟨i, hi, -⟩ := h.due hactive
  rw [hact] at hi
  cases hi

section Ghosts

theorem Inv.goto (h : Inv s) {p : Phase E} (hpopped : ∀ e i, p = .popped e i → Popped s e i)
    (hrunning : ∀ e i, p = .running e i → Running s e i) (hlost : p ≠ .lost) :
    Inv { s with phase := p } :=
  ⟨h.nodup, h.queued, fun e x hx => ⟨(h.elt e x hx).due, (h.elt e x hx).fresh⟩, h.unique, hpopped,
    hrunning, hlost, h.unborn, ⟨h.sound.once, h.sound.late, h.sound.misused⟩⟩

theorem Inv.clock (h : Inv s) {now : Timer.Timeval} : Inv { s with now := now } :=
  ⟨h.nodup, h.queued, fun e x hx => ⟨(h.elt e x hx).due, (h.elt e x hx).fresh⟩, h.unique, h.popped,
    h.running, h.notLost, h.unborn, ⟨h.sound.once, h.sound.late, h.sound.misused⟩⟩

theorem Inv.number (h : Inv s) : Inv { s with next := s.next + 1 } :=
  ⟨h.nodup, h.queued,
    fun e x hx => ⟨(h.elt e x hx).due, fun i hi => Nat.lt_succ_of_lt ((h.elt e x hx).fresh i hi)⟩,
    h.unique, h.popped, h.running, h.notLost, fun i hi => h.unborn i (Nat.le_of_succ_le hi),
    ⟨h.sound.once, h.sound.late, h.sound.misused⟩⟩

/-- The history of an activation that the timer has no element for is written. -/
theorem Inv.history (h : Inv s) {ran : ℕ → ℕ} {gone : ℕ → Bool} (hlt : i < s.next)
    (honce : ran i ≤ 1) (hsame : ∀ j, j ≠ i → ran j = s.ran j ∧ gone j = s.gone j)
    (hactive : ∀ e x, s.elt e = some x → x.active = true → x.act ≠ some i)
    (hpopped : ∀ e, s.phase ≠ .popped e i) : Inv { s with ran := ran, gone := gone } := by
  have hdue : ∀ j, j ≠ i → s.Due j → State.Due { s with ran := ran, gone := gone } j := by
    intro j hj hd
    obtain ⟨hran, hgone⟩ := hsame j hj
    exact ⟨hran.trans hd.1, hgone.trans hd.2⟩
  refine ⟨h.nodup, h.queued, fun e x hx => ⟨fun ha => ?_, (h.elt e x hx).fresh⟩, h.unique,
    fun e j hp => ?_, h.running,
    h.notLost, fun j hj => hdue j (Nat.ne_of_gt (Nat.lt_of_lt_of_le hlt hj)) (h.unborn j hj), ?_⟩
  · obtain ⟨j, hj, hd⟩ := (h.elt e x hx).due ha
    exact ⟨j, hj, hdue j (fun heq => hactive e x hx ha (heq ▸ hj)) hd⟩
  · obtain ⟨x, hx, hact, hin, hd⟩ := h.popped e j hp
    exact ⟨x, hx, hact, hin, hdue j (fun heq => hpopped e (heq ▸ hp)) hd⟩
  · refine ⟨fun j => ?_, h.sound.late, h.sound.misused⟩
    by_cases hj : j = i
    · exact hj ▸ honce
    · exact Nat.le_trans (Nat.le_of_eq (hsame j hj).1) (h.sound.once j)

theorem Inv.call (h : Inv s) (hdue : s.Due i) (hlt : i < s.next)
    (hactive : ∀ e x, s.elt e = some x → x.active = true → x.act ≠ some i)
    (hpopped : ∀ e, s.phase ≠ .popped e i) : Inv (s.call i) := by
  have hlate : s.late = (s.late || s.gone i) := by rw [hdue.2, Bool.or_false]
  unfold State.call
  rw [← hlate]
  refine h.history hlt ?_ (fun j hj => ⟨update_of_ne hj .., rfl⟩) hactive hpopped
  rw [update_self, hdue.1]

theorem Inv.owned (h : Inv s) (hx : s.elt e = some x) (hact : x.act = none) :
    e ∉ s.queue ∧ (∀ i, s.phase ≠ .popped e i) ∧ ∀ i, s.phase ≠ .running e i := by
  refine ⟨fun he => ?_, fun i hphase => ?_, fun i hphase => ?_⟩
  · obtain ⟨x', hx', hactive⟩ := (h.queued e).1 he
    obtain rfl := Option.some.inj (hx.symm.trans hx')
    rw [(h.elt e x hx).inactive hact] at hactive
    cases hactive
  · obtain ⟨x', hx', hact', -⟩ := h.popped e i hphase
    obtain rfl := Option.some.inj (hx.symm.trans hx')
    rw [hact] at hact'
    cases hact'
  · obtain ⟨x', hx', hact', -⟩ := h.running e i hphase
    obtain rfl := Option.some.inj (hx.symm.trans hx')
    rw [hact] at hact'
    cases hact'

theorem Inv.not_at_hand (h : Inv s) (hx : s.elt e = some x) (hactive : x.active = true) :
    (∀ i, s.phase ≠ .popped e i) ∧ ∀ i, s.phase ≠ .running e i := by
  constructor
  all_goals intro i hphase
  · obtain ⟨x', hx', -, hin, -⟩ := h.popped e i hphase
    obtain rfl := Option.some.inj (hx.symm.trans hx')
    rw [hactive] at hin
    cases hin
  · obtain ⟨x', hx', -, hin, -⟩ := h.running e i hphase
    obtain rfl := Option.some.inj (hx.symm.trans hx')
    rw [hactive] at hin
    cases hin

theorem Inv.invoke (h : Inv s) (hphase : s.phase = .popped e i) : Inv (s.invoke e i) := by
  obtain ⟨x, hx, hi, hin, hdue⟩ := h.popped e i hphase
  have hmisused : s.misused = (s.misused || decide (x.act ≠ some i)) := by
    rw [hi, decide_eq_false (not_not.2 rfl), Bool.or_false]
  -- no other element is lent for the activation
  have hother : ∀ e' x', s.elt e' = some x' → x'.active = true → x'.act ≠ some i := by
    intro e' x' hx' ha hi'
    obtain rfl := h.unique e' e x' x i hx' hx hi' hi
    obtain rfl := Option.some.inj (hx.symm.trans hx')
    rw [hin] at ha
    cases ha
  have hlt := (h.elt e x hx).fresh i hi
  unfold State.invoke
  rw [hx]
  dsimp only
  rw [← hmisused, hi]
  dsimp only
  split_ifs with hwait
  · exact (h.goto (p := .scan) nofun nofun nofun).call hdue hlt hother nofun
  · refine (h.goto (p := .running e i) nofun (fun e' j hp => ?_) nofun).call hdue hlt hother nofun
    cases hp
    exact ⟨x, hx, hi, hin, Bool.eq_false_iff.2 hwait⟩

end Ghosts

section Memory

variable [DecidableEq E]

theorem put_self {o : Option Elt} : (s.put e o).elt e = o := update_self ..

theorem put_of_ne {o : Option Elt} (hne : e' ≠ e) : (s.put e o).elt e' = s.elt e' :=
  update_of_ne hne ..

theorem Popped.put {o : Option Elt} (h : Popped s e' i) (hne : e' ≠ e) :
    Popped (s.put e o) e' i := by
  obtain ⟨x, hx, hrest⟩ := h
  exact ⟨x, (put_of_ne hne).trans hx, hrest⟩

theorem Running.put {o : Option Elt} (h : Running s e' i) (hne : e' ≠ e) :
    Running (s.put e o) e' i := by
  obtain ⟨x, hx, hrest⟩ := h
  exact ⟨x, (put_of_ne hne).trans hx, hrest⟩

/-- The owner writes to the memory of an element that the timer does not have. -/
theorem Inv.put (h : Inv s) {o : Option Elt} (hq : e ∉ s.queue)
    (hpopped : ∀ i, s.phase ≠ .popped e i)
    (hrunning : ∀ i, s.phase ≠ .running e i)
    (hnew : ∀ x, o = some x → x.act = none ∧ x.active = false) : Inv (s.put e o) := by
  have hback : ∀ e' x i, (s.put e o).elt e' = some x → x.act = some i → s.elt e' = some x := by
    intro e' x i hx hact
    by_cases hne : e' = e
    · subst hne
      rw [put_self] at hx
      rw [(hnew x hx).1] at hact
      cases hact
    · rwa [put_of_ne hne] at hx
  refine ⟨h.nodup, fun e' => ?_, fun e' x hx => ⟨fun hactive => ?_, fun i hi => ?_⟩, ?_, ?_, ?_,
    h.notLost, h.unborn, ⟨h.sound.once, h.sound.late, h.sound.misused⟩⟩
  · by_cases hne : e' = e
    · subst hne
      rw [put_self]
      refine iff_of_false hq ?_
      rintro ⟨x, hx, hactive⟩
      rw [(hnew x hx).2] at hactive
      cases hactive
    · rw [put_of_ne hne]
      exact h.queued e'
  · by_cases hne : e' = e
    · subst hne
      rw [put_self] at hx
      rw [(hnew x hx).2] at hactive
      cases hactive
    · rw [put_of_ne hne] at hx
      exact (h.elt e' x hx).due hactive
  · exact (h.elt e' x (hback e' x i hx hi)).fresh i hi
  · intro e₁ e₂ x₁ x₂ i h₁ h₂ hi₁ hi₂
    exact h.unique e₁ e₂ x₁ x₂ i (hback e₁ x₁ i h₁ hi₁) (hback e₂ x₂ i h₂ hi₂) hi₁ hi₂
  · exact fun e' i hphase => (h.popped e' i hphase).put fun heq => hpopped i (heq ▸ hphase)
  · exact fun e' i hphase => (h.running e' i hphase).put fun heq => hrunning i (heq ▸ hphase)

theorem Inv.unqueue (h : Inv s) (hx : s.elt e = some x) (hactive : x.active = true) :
    Inv { s.put e (some { x with active := false }) with queue := s.queue.erase e } := by
  obtain ⟨hpopped, hrunning⟩ := h.not_at_hand hx hactive
  have hok := h.elt e x hx
  -- whatever is lent afterwards was lent before, for the same activation
  have hback : ∀ e' x', (s.put e (some { x with active := false })).elt e' = some x' →
      ∃ y, s.elt e' = some y ∧ y.act = x'.act ∧ (x'.active = true → y = x') := by
    intro e' x' hx'
    by_cases hne : e' = e
    · subst hne
      rw [put_self] at hx'
      cases hx'
      exact ⟨x, hx, rfl, nofun⟩
    · rw [put_of_ne hne] at hx'
      exact ⟨x', hx', rfl, fun _ => rfl⟩
  refine ⟨h.nodup.erase e, fun e' => ?_, fun e' x' hx' => ⟨fun ha => ?_, fun i hi => ?_⟩, ?_, ?_,
    ?_, h.notLost, h.unborn, ⟨h.sound.once, h.sound.late, h.sound.misused⟩⟩
  · rw [h.nodup.mem_erase_iff]
    by_cases hne : e' = e
    · subst hne
      dsimp only
      rw [put_self]
      refine iff_of_false (fun hcon => hcon.1 rfl) ?_
      rintro ⟨x', hx', ha⟩
      rw [← Option.some.inj hx'] at ha
      cases ha
    · dsimp only
      rw [put_of_ne hne, ← h.queued e']
      exact and_iff_right hne
  · obtain ⟨y, hy, -, heq⟩ := hback e' x' hx'
    obtain rfl := heq ha
    exact (h.elt e' y hy).due ha
  · obtain ⟨y, hy, hact, -⟩ := hback e' x' hx'
    exact (h.elt e' y hy).fresh i (hact.trans hi)
  · intro e₁ e₂ x₁ x₂ i h₁ h₂ hi₁ hi₂
    obtain ⟨y₁, hy₁, ha₁, -⟩ := hback e₁ x₁ h₁
    obtain ⟨y₂, hy₂, ha₂, -⟩ := hback e₂ x₂ h₂
    exact h.unique e₁ e₂ y₁ y₂ i hy₁ hy₂ (ha₁.trans hi₁) (ha₂.trans hi₂)
  · exact fun e' i hphase => (h.popped e' i hphase).put fun heq => hpopped i (heq ▸ hphase)
  · exact fun e' i hphase => (h.running e' i hphase).put fun heq => hrunning i (heq ▸ hphase)

/-- An element that is off the queue and not at hand is given back; its activation may be marked as
removed. -/
theorem Inv.giveBack (h : Inv s) (gone : ℕ → Bool) {o : Option Elt} (hx : s.elt e = some x)
    (hin : x.active = false) (hi : x.act = some i) (hpopped : ∀ i, s.phase ≠ .popped e i)
    (hrunning : ∀ i, s.phase ≠ .running e i)
    (hnew : ∀ x, o = some x → x.act = none ∧ x.active = false)
    (hgone : ∀ j, j ≠ i → gone j = s.gone j) : Inv { s.put e o with gone := gone } := by
  have hq : e ∉ s.queue := by
    intro he
    obtain ⟨x', hx', ha⟩ := (h.queued e).1 he
    obtain rfl := Option.some.inj (hx.symm.trans hx')
    rw [hin] at ha
    cases ha
  have hother : ∀ e' x', (s.put e o).elt e' = some x' → x'.act ≠ some i := by
    intro e' x' hx' hi'
    by_cases hne : e' = e
    · subst hne
      rw [put_self] at hx'
      rw [(hnew x' hx').1] at hi'
      cases hi'
    · rw [put_of_ne hne] at hx'
      exact hne (h.unique e' e x' x i hx' hx hi' hi)
  have hp := h.put hq hpopped hrunning hnew
  refine hp.history (i := i) ((h.elt e x hx).fresh i hi) (hp.sound.once i)
    (fun j hj => ⟨rfl, hgone j hj⟩)
    (fun e' x' hx' _ => hother e' x' hx') fun e' hphase => ?_
  obtain ⟨x', hx', hi', -⟩ := hp.popped e' i hphase
  exact hother e' x' hx' hi'

theorem Inv.activate (h : Inv s) (hx : s.elt e = some x) (hact : x.act = none) :
    Inv (s.activate e x) := by
  obtain ⟨hq, hpopped, hrunning⟩ := h.owned hx hact
  have hmem : ∀ e', e' ∈ (s.activate e x).queue ↔ e' = e ∨ e' ∈ s.queue :=
    fun e' => List.mem_orderedInsert _
  have hself : (s.activate e x).elt e = some { x with active := true, act := some s.next } :=
    put_self
  have hold : ∀ e', e' ≠ e → (s.activate e x).elt e' = s.elt e' := fun e' hne => put_of_ne hne
  -- the number is new, so no other element has it
  have hnext : ∀ e' x' i, e' ≠ e → (s.activate e x).elt e' = some x' → x'.act = some i →
    i ≠ s.next := by
    intro e' x' i hne hx' hi
    rw [hold e' hne] at hx'
    exact Nat.ne_of_lt ((h.elt e' x' hx').fresh i hi)
  refine ⟨?_, fun e' => ?_, fun e' x' hx' => ?_, fun e₁ e₂ x₁ x₂ i h₁ h₂ hi₁ hi₂ => ?_,
    fun e' i hphase => (h.popped e' i hphase).put fun heq => hpopped i (heq ▸ hphase),
    fun e' i hphase => (h.running e' i hphase).put fun heq => hrunning i (heq ▸ hphase), h.notLost,
    fun i hi => h.unborn i (Nat.le_of_succ_le hi), ⟨h.sound.once, h.sound.late, h.sound.misused⟩⟩
  · exact ((List.perm_orderedInsert _ e s.queue).nodup_iff).2 (List.nodup_cons.2 ⟨hq, h.nodup⟩)
  · rw [hmem]
    by_cases hne : e' = e
    · subst hne
      rw [hself]
      exact iff_of_true (.inl rfl) ⟨_, rfl, rfl⟩
    · rw [hold e' hne, ← h.queued e']
      exact or_iff_right hne
  · by_cases hne : e' = e
    · subst hne
      obtain rfl := Option.some.inj (hself.symm.trans hx')
      refine ⟨fun _ => ⟨s.next, rfl, h.unborn s.next (Nat.le_refl _)⟩, fun i hi => ?_⟩
      cases hi
      exact Nat.lt_succ_self _
    · rw [hold e' hne] at hx'
      exact ⟨(h.elt e' x' hx').due, fun i hi => Nat.lt_succ_of_lt ((h.elt e' x' hx').fresh i hi)⟩
  · by_cases hne₁ : e₁ = e <;> by_cases hne₂ : e₂ = e
    · rw [hne₁, hne₂]
    · subst hne₁
      obtain rfl := Option.some.inj (hself.symm.trans h₁)
      exact absurd (Option.some.inj hi₁).symm (hnext e₂ x₂ i hne₂ h₂ hi₂)
    · subst hne₂
      obtain rfl := Option.some.inj (hself.symm.trans h₂)
      exact absurd (Option.some.inj hi₂).symm (hnext e₁ x₁ i hne₁ h₁ hi₁)
    · rw [hold e₁ hne₁] at h₁
      rw [hold e₂ hne₂] at h₂
      exact h.unique e₁ e₂ x₁ x₂ i h₁ h₂ hi₁ hi₂

end Memory

section Steps

variable [DecidableEq E]

/-- An active element is removed and given back, and may then be freed. -/
theorem Inv.remove (h : Inv s) {o : Option Elt} (hx : s.elt e = some x) (hactive : x.active = true)
    (hi : x.act = some i) (hnew : ∀ x, o = some x → x.act = none ∧ x.active = false) :
    Inv { s.put e o with queue := s.queue.erase e, gone := update s.gone i true } := by
  obtain ⟨hpopped, hrunning⟩ := h.not_at_hand hx hactive
  have hback := (h.unqueue hx hactive).giveBack (update s.gone i true)
    (x := { x with active := false })
    put_self rfl hi hpopped hrunning hnew fun j hj => update_of_ne hj ..
  unfold State.put at hback ⊢
  rwa [update_idem] at hback

theorem Inv.deactivate (h : Inv s) (hx : s.elt e = some x) (hwait : x.kind.isWait = true)
    (hact : x.act ≠ none) (hc : ∀ i, s.phase ≠ .popped e i) : Inv (s.deactivate e x) := by
  obtain ⟨i, hi⟩ := Option.ne_none_iff_exists'.1 hact
  unfold State.deactivate
  dsimp only
  rw [hi]
  split_ifs with hactive
  · exact h.remove hx hactive hi (by rintro _ ⟨⟩; exact ⟨rfl, rfl⟩)
  · refine h.giveBack s.gone hx (Bool.eq_false_iff.2 hactive) hi hc (fun j hphase => ?_)
      (by rintro _ ⟨⟩; exact ⟨rfl, rfl⟩) fun _ _ => rfl
    obtain ⟨x', hx', -, -, hkind⟩ := h.running e j hphase
    obtain rfl := Option.some.inj (hx.symm.trans hx')
    rw [hwait] at hkind
    cases hkind

theorem Inv.untimeout (h : Inv s) {f context : ℕ} : Inv (s.untimeout f context) := by
  unfold State.untimeout
  split
  · exact h
  · next e hfind =>
    obtain ⟨x, hx, hactive⟩ := (h.queued e).1 (List.mem_of_find?_eq_some hfind)
    obtain ⟨i, hi, -⟩ := (h.elt e x hx).due hactive
    rw [hx]
    dsimp only
    unfold State.deactivate
    dsimp only
    rw [if_pos hactive, hi]
    exact h.remove (o := none) hx hactive hi nofun

theorem Inv.expired (h : Inv s) (hx : s.elt e = some x) (hact : x.act = none) :
    Inv (s.expired e x) := by
  unfold State.expired
  rcases x.kind with pk | ⟨f, context⟩
  · exact h.number
  · obtain ⟨hq, hpopped, hrunning⟩ := h.owned hx hact
    have hnew : ∀ e' x', s.elt e' = some x' → x'.act ≠ some s.next := by
      intro e' x' hx' hi
      exact Nat.lt_irrefl _ ((h.elt e' x' hx').fresh s.next hi)
    have hcall : Inv ({ s with next := s.next + 1 }.call s.next) := by
      refine h.number.call (h.unborn s.next (Nat.le_refl _)) (Nat.lt_succ_self _)
        (fun e' x' hx' _ => hnew e' x' hx') ?_
      intro e' hphase
      obtain ⟨x', hx', hi, -⟩ := h.popped e' s.next hphase
      exact hnew e' x' hx' hi
    exact hcall.put hq hpopped hrunning nofun

theorem Inv.scan (h : Inv s) : Inv s.scan := by
  rcases hq : s.queue with _ | ⟨e, queue⟩
  · simp only [State.scan, hq]
    exact hq ▸ h.goto nofun nofun nofun
  · obtain ⟨x, hx, hactive⟩ := (h.queued e).1 (hq ▸ List.mem_cons_self)
    obtain ⟨i, hi, hdue⟩ := (h.elt e x hx).due hactive
    by_cases hlt : s.now.lt x.timeout = true
    · simp only [State.scan, hq, hx, if_pos hlt]
      exact hq ▸ h.goto nofun nofun nofun
    · have herase : s.queue.erase e = queue := by rw [hq, List.erase_cons_head]
      have hun := h.unqueue hx hactive
      rw [herase] at hun
      have hgoto := hun.goto (p := .popped e i) (by
        rintro _ _ ⟨⟩
        exact ⟨_, put_self, hi, rfl, hdue⟩) nofun nofun
      simpa only [State.scan, hq, hx, if_neg hlt, hi, Option.getD_some] using hgoto

theorem Inv.finish (h : Inv s) (hphase : s.phase = .running e i) : Inv (s.finish e i) := by
  obtain ⟨x, hx, hi, hin, -⟩ := h.running e i hphase
  have hmisused : s.misused = (s.misused || decide ((s.elt e).bind Elt.act ≠ some i)) := by
    rw [hx, Option.bind_some, hi, decide_eq_false (not_not.2 rfl), Bool.or_false]
  unfold State.finish
  rw [← hmisused]
  exact (h.goto (p := .scan) nofun nofun nofun).giveBack s.gone (o := none) hx hin hi nofun nofun
    nofun fun _ _ => rfl

theorem Inv.step (h : Inv s) (hc : a.Careful s) (hs : step s a = some s') : Inv s' := by
  rcases a with ⟨e, kind, timeout⟩ | e | e | e | e | ⟨f, context⟩ | now | _ | _ | _ | _ <;>
    simp only [TimerElement.step, Option.ite_none_right_eq_some, Option.some.injEq] at hs
  case create =>
    split at hs
    · next hx =>
      cases hs
      refine h.put (fun he => ?_) (fun i hphase => ?_) (fun i hphase => ?_)
        (by rintro _ ⟨⟩; exact ⟨rfl, rfl⟩)
      · obtain ⟨x, hx', -⟩ := (h.queued e).1 he
        rw [hx] at hx'
        cases hx'
      · obtain ⟨x, hx', -⟩ := h.popped e i hphase
        rw [hx] at hx'
        cases hx'
      · obtain ⟨x, hx', -⟩ := h.running e i hphase
        rw [hx] at hx'
        cases hx'
    · cases hs
  case destroy =>
    split at hs
    · next x hx =>
      obtain ⟨hact, hs⟩ := Option.ite_none_right_eq_some.1 hs
      cases hs
      obtain ⟨hq, hpopped, hrunning⟩ := h.owned hx hact
      exact h.put hq hpopped hrunning nofun
    · cases hs
  case activate =>
    split at hs
    · next x hx =>
      obtain ⟨hact, hs⟩ := Option.ite_none_right_eq_some.1 hs
      cases hs
      exact h.activate hx hact
    · cases hs
  case expired =>
    split at hs
    · next x hx =>
      obtain ⟨⟨hact, -⟩, hs⟩ := Option.ite_none_right_eq_some.1 hs
      cases hs
      exact h.expired hx hact
    · cases hs
  case deactivate =>
    split at hs
    · next x hx =>
      obtain ⟨⟨hwait, hact⟩, hs⟩ := Option.ite_none_right_eq_some.1 hs
      cases hs
      exact h.deactivate hx hwait hact hc
    · cases hs
  case untimeout =>
    obtain rfl := hs
    exact h.untimeout
  case clock =>
    obtain rfl := hs
    exact h.clock
  case scan =>
    obtain ⟨-, rfl⟩ := hs
    exact h.scan
  case wake =>
    obtain ⟨-, rfl⟩ := hs
    exact h.goto nofun nofun nofun
  case invoke =>
    split at hs
    · next e i hphase =>
      cases hs
      exact h.invoke hphase
    · cases hs
  case finish =>
    split at hs
    · next e i hphase =>
      cases hs
      exact h.finish hphase
    · cases hs

theorem inv_reach (h : (machine E).Reach (fun s a => a.Careful s) s) : Inv s := by
  refine h.inv ?_ fun _ _ _ h hc hs => h.step hc hs
  rintro _ rfl
  refine ⟨.nil, fun _ => iff_of_false nofun ?_, nofun, nofun, nofun, nofun, nofun,
    fun _ _ => ⟨rfl, rfl⟩, ⟨fun _ => Nat.zero_le _, rfl, rfl⟩⟩
  rintro ⟨x, hx, -⟩
  cases hx

theorem Inv.held_iff (h : Inv s) (hs : TimerElement.step s a = some s') :
    Held s' ↔ a.Careful s := by
  refine ⟨fun hheld => ?_, fun hc => (h.step hc hs).held⟩
  rcases a with _ | _ | _ | _ | e | _ | _ | _ | _ | _ | _
  case deactivate =>
    simp only [TimerElement.step] at hs
    split at hs
    · next x hx =>
      obtain ⟨-, hs⟩ := Option.ite_none_right_eq_some.1 hs
      cases hs
      intro i hphase
      -- the owner has the element back while the timer thread has it at hand
      obtain ⟨x', hx', -, hin, -⟩ := h.popped e i hphase
      obtain rfl := Option.some.inj (hx.symm.trans hx')
      have hlent := hheld e i
      simp only [State.deactivate, hin, Bool.false_eq_true, if_false, put_self] at hlent
      cases hlent hphase
    · cases hs
  all_goals trivial

/-- The timer uses elements only while they are lent to it, in a run in which none is deactivated
while the timer thread is about to call its function; and from a state of such a run these are the
steps after which the element that the timer thread has at hand is still lent. -/
theorem careful_elements_sound (h : (machine E).Reach (fun s a => a.Careful s) s) :
    Sound s ∧ ∀ a s', step s a = some s' → (Held s' ↔ a.Careful s) :=
  ⟨(inv_reach h).sound, fun _ _ hs => (inv_reach h).held_iff hs⟩

end Steps

/-- The function of an element is called, then its owner deactivates it and leaves. -/
theorem careful_elements_sound_wait :
    ∃ s : State Unit, (s.ran 0 = 1 ∧ s.elt () = none) ∧
      Sound s ∧ ∀ a s', step s a = some s' → (Held s' ↔ a.Careful s) :=
  ⟨_, ⟨rfl, rfl⟩, careful_elements_sound <| (Machine.Reach.start rfl
    |>.step (.create () (.wait 1) ⟨5, 0⟩) trivial rfl |>.step (.activate ()) trivial rfl
    |>.step (.clock ⟨5, 0⟩) trivial rfl |>.step .scan trivial rfl |>.step .invoke trivial rfl
    |>.step (.deactivate ()) (fun _ => nofun) rfl |>.step (.destroy ()) trivial rfl)⟩

/-- `timer_element_deactivate` returns `FALSE`, and the timer thread then reads the function of the
element. -/
theorem deactivated_element_read : ¬∀ s : State Unit, (machine Unit).Reach Machine.Any s →
    Sound s := by
  intro h
  obtain ⟨s, hs, hp⟩ := Machine.Reach.exists_run (M := machine Unit) (p := fun s => s.misused) rfl
    (Machine.along_any _ _ [.create () (.wait 1) ⟨5, 0⟩, .activate (), .clock ⟨5, 0⟩, .scan,
      .deactivate (), .destroy (), .invoke]) (by decide)
  exact absurd ((h s hs).misused.symm.trans hp) nofun

end XMach.TimerElement
