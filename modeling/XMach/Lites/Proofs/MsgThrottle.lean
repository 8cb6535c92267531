import Mathlib.Algebra.BigOperators.Group.Finset.Piecewise
import Mathlib.Data.Fintype.Basic
import XMach.Lib.Totals
import XMach.Lites.MsgThrottle

/-!
# The throttle counts the cprocs that hold a slot

The queues are right in every run (`Wf`): a cproc is on the queue of an entry if and only if it
waits there, and then it holds no entry. The count of an entry is right (`Tight`) as long as
`cthread_msg_busy` is called for the entry that the cproc holds: the call clears `p->busy` whatever
it points to, and takes the slot from the entry of its argument.
-/

namespace XMach.Throttle

variable {P : Type*} [DecidableEq P] {s s' : State P} {p : P} {c : Cproc} {e f : ℕ}
  {en : PortEntry P} {min max : ℤ}

section Definitions

/-- A cproc on its way to a slot, which holds no entry. -/
def Pc.free : Pc → Bool
  | .msgActive _ | .sending _ _ | .sent _ _ | .queued _ | .slot _ _ => true
  | _ => false

/-- The limit that a call has been given for the entry. -/
def Pc.limit (e : ℕ) : Pc → Option ℤ
  | .machMsg f max _ | .sending f max | .sent f max => if f = e then some max else none
  | _ => none

def Pc.hasSlot (e : ℕ) : Pc → Bool
  | .slot f _ => f = e
  | _ => false

/-- What a cproc counts for an entry. -/
def Cproc.share (e : ℕ) (c : Cproc) : ℕ :=
  (if c.busy = some e then 1 else 0) + if c.pc.hasSlot e then 1 else 0

/-- The queue of an entry, if there is one. -/
def State.queueOf (s : State P) (e : ℕ) : List P := (s.entry e).elim [] PortEntry.queue

def State.heldOf (s : State P) (e : ℕ) : ℤ := (s.entry e).elim 0 PortEntry.held

def State.count [Fintype P] (s : State P) (e : ℕ) : ℕ := ∑ p, (s.cproc p).share e

/-- The queues and the cprocs agree. -/
structure Wf (s : State P) : Prop where
  nodup : ∀ f, (s.queueOf f).Nodup
  queue : ∀ f p, p ∈ s.queueOf f ↔ (s.cproc p).pc = .queued f
  free : ∀ p, (s.cproc p).pc.free → (s.cproc p).busy = none

/-- What the calls of a cproc have been given for an entry: the limit, and with `cthread_msg_busy`
the entry if and only if the cproc holds it. -/
structure Cproc.Fits (e : ℕ) (max : ℤ) (c : Cproc) : Prop where
  limit : ∀ m, c.pc.limit e = some m → m = max
  same : ∀ f, c.pc = .msgBusy f → ∃ g, c.busy = some g ∧ (g = e ↔ f = e)

structure Tight [Fintype P] (e : ℕ) (min max : ℤ) (s : State P) : Prop where
  limits : ∀ en, s.entry e = some en → en.min = min ∧ en.max = max
  held : s.heldOf e = s.count e
  le : s.heldOf e ≤ max
  queued : s.queueOf e ≠ [] → min ≤ s.heldOf e
  fits : ∀ p, (s.cproc p).Fits e max

end Definitions

section State

theorem forall_put {Q : Cproc → Prop} (h : ∀ q, Q (s.cproc q)) (hc : Q c) (q : P) :
    Q ((s.put p c).cproc q) := by
  by_cases hq : q = p
  · subst hq
    rwa [State.put_cproc_self]
  · rw [State.put_cproc_of_ne s c hq]
    exact h q

@[simp] theorem queueOf_put : (s.put p c).queueOf f = s.queueOf f := rfl

@[simp] theorem heldOf_put : (s.put p c).heldOf f = s.heldOf f := rfl

omit [DecidableEq P] in
theorem queueOf_eq (h : s.entry f = some en) : s.queueOf f = en.queue := by
  unfold State.queueOf
  rw [h]
  rfl

omit [DecidableEq P] in
theorem heldOf_eq (h : s.entry f = some en) : s.heldOf f = en.held := by
  unfold State.heldOf
  rw [h]
  rfl

omit [DecidableEq P] in
@[simp] theorem queueOf_setEntry_self : (s.setEntry f en).queueOf f = en.queue :=
  queueOf_eq (s.setEntry_entry_self f en)

omit [DecidableEq P] in
@[simp] theorem heldOf_setEntry_self : (s.setEntry f en).heldOf f = en.held :=
  heldOf_eq (s.setEntry_entry_self f en)

omit [DecidableEq P] in
theorem queueOf_setEntry_of_ne (h : e ≠ f) : (s.setEntry f en).queueOf e = s.queueOf e := by
  unfold State.queueOf
  rw [s.setEntry_entry_of_ne en h]

omit [DecidableEq P] in
theorem heldOf_setEntry_of_ne (h : e ≠ f) : (s.setEntry f en).heldOf e = s.heldOf e := by
  unfold State.heldOf
  rw [s.setEntry_entry_of_ne en h]

omit [DecidableEq P] in
theorem queueOf_setEntry (h : en.queue = s.queueOf f) (e : ℕ) :
    (s.setEntry f en).queueOf e = s.queueOf e := by
  by_cases he : e = f
  · rw [he, queueOf_setEntry_self, h]
  · exact queueOf_setEntry_of_ne he

theorem count_put [Fintype P] (s : State P) (p : P) (c : Cproc) (e : ℕ) :
    (s.put p c).count e + (s.cproc p).share e = s.count e + c.share e :=
  sum_update (Finset.mem_univ p) s.cproc c (Cproc.share e)

omit [DecidableEq P] in
@[simp] theorem count_setEntry [Fintype P] : (s.setEntry f en).count e = s.count e := rfl

omit [DecidableEq P] in
theorem getPortEntry_spec (s : State P) (port : ℕ) (min max : ℤ) :
    ((s.getPortEntry port min max).cproc = s.cproc) ∧
    (∀ f, (s.getPortEntry port min max).queueOf f = s.queueOf f) ∧
      (∀ f, (s.getPortEntry port min max).heldOf f = s.heldOf f) ∧
      ∀ f en, (s.getPortEntry port min max).entry f = some en → s.entry f = some en ∨
        (f = port ∧ en.min = min ∧ en.max = max) := by
  unfold State.getPortEntry
  cases hport : s.entry port with
  | some en => exact ⟨rfl, fun _ => rfl, fun _ => rfl, fun f en hf => .inl hf⟩
  | none =>
    refine ⟨rfl, fun f => ?_, fun f => ?_, fun f en hf => ?_⟩
    · exact queueOf_setEntry (by unfold State.queueOf; rw [hport]; rfl) f
    · by_cases hf : f = port
      · rw [hf, heldOf_setEntry_self]
        unfold State.heldOf
        rw [hport]
        rfl
      · exact heldOf_setEntry_of_ne hf
    · by_cases hf' : f = port
      · subst hf'
        dsimp only at hf
        rw [State.setEntry_entry_self] at hf
        cases hf
        exact .inr ⟨rfl, rfl, rfl⟩
      · dsimp only at hf
        rw [State.setEntry_entry_of_ne _ _ hf'] at hf
        exact .inl hf

omit [DecidableEq P] in
theorem getPortEntry_entry (s : State P) (port : ℕ) (min max : ℤ) :
    (∀ f en, s.entry f = some en → (s.getPortEntry port min max).entry f = some en) ∧
      ∃ en, (s.getPortEntry port min max).entry port = some en := by
  unfold State.getPortEntry
  cases hport : s.entry port with
  | some en => exact ⟨fun f en hf => hf, en, hport⟩
  | none =>
    refine ⟨fun f en hf => ?_, _, State.setEntry_entry_self _ _ _⟩
    have hne : f ≠ port := by
      rintro rfl
      rw [hport] at hf
      cases hf
    exact (State.setEntry_entry_of_ne _ _ hne).trans hf

/-- A slot is handed to a queued cproc, or given back; it is given back only if that leaves enough
or nobody waits. -/
theorem msgBusy_cases (s : State P) (p : P) (f : ℕ) (en : PortEntry P) (pc : Pc) :
    (∃ new queue, en.queue = new :: queue ∧ en.held ≤ en.min ∧
      s.msgBusy p f en pc = ((s.put p ⟨none, pc⟩).setEntry f { en with queue := queue }).put new
        ⟨((s.put p ⟨none, pc⟩).cproc new).busy, .slot f false⟩) ∨
    ((en.queue = [] ∨ en.min < en.held) ∧
      s.msgBusy p f en pc = (s.put p ⟨none, pc⟩).setEntry f { en with held := en.held - 1 }) := by
  obtain ⟨queue, min, max, held⟩ := en
  unfold State.msgBusy
  dsimp only
  by_cases hle : held ≤ min
  · rw [if_pos hle]
    cases queue with
    | nil => exact .inr ⟨.inl rfl, rfl⟩
    | cons new queue => exact .inl ⟨new, queue, rfl, hle, rfl⟩
  · rw [if_neg hle]
    exact .inr ⟨.inr (by omega), rfl⟩

/-- The entry keeps its limits, and as long as cprocs wait it does not fall below its minimum. -/
theorem msgBusy_entry (s : State P) (p : P) (f : ℕ) (en : PortEntry P) (pc : Pc) :
    (∀ e, e ≠ f → (s.msgBusy p f en pc).entry e = s.entry e) ∧
      ∃ en', (s.msgBusy p f en pc).entry f = some en' ∧ en'.min = en.min ∧ en'.max = en.max ∧
      en'.held ≤ en.held ∧
        (en'.queue ≠ [] → en.queue ≠ [] ∧ (en'.held = en.held ∨ en.min ≤ en'.held)) := by
  rcases msgBusy_cases s p f en pc with ⟨new, queue, hqueue, -, heq⟩ | ⟨hwhy, heq⟩
  · rw [heq]
    refine ⟨fun e he => State.setEntry_entry_of_ne _ _ he, _, State.setEntry_entry_self _ _ _, rfl,
      rfl, ?_, fun _ => ⟨?_, .inl rfl⟩⟩
    · exact Int.le_refl _
    · rw [hqueue]
      exact List.cons_ne_nil _ _
  · rw [heq]
    refine ⟨fun e he => State.setEntry_entry_of_ne _ _ he, _, State.setEntry_entry_self _ _ _, rfl,
      rfl, ?_, fun hne => ⟨hne, .inr ?_⟩⟩
    · dsimp only
      omega
    · have := hwhy.resolve_left hne
      dsimp only
      omega

theorem msgBusy_fits (h : ∀ q, (s.cproc q).Fits e max) {pc : Pc}
    (hpc : (⟨none, pc⟩ : Cproc).Fits e max) (q : P) :
    ((s.msgBusy p f en pc).cproc q).Fits e max := by
  rcases msgBusy_cases s p f en pc with ⟨new, queue, -, -, heq⟩ | ⟨-, heq⟩
  · rw [heq]
    exact forall_put (forall_put h hpc) ⟨by rintro _ ⟨⟩, by rintro _ ⟨⟩⟩ q
  · rw [heq]
    exact forall_put h hpc q

end State

section Queues

omit [DecidableEq P] in
/-- One cproc goes on, and the queues are the same for the others. -/
theorem Wf.update (h : Wf s) (hcproc : ∀ q, q ≠ p → s'.cproc q = s.cproc q)
    (hqueue : ∀ f q, q ≠ p → (q ∈ s'.queueOf f ↔ q ∈ s.queueOf f))
    (hnodup : ∀ f, (s'.queueOf f).Nodup) (hp : ∀ f, p ∈ s'.queueOf f ↔ (s'.cproc p).pc = .queued f)
    (hfree : (s'.cproc p).pc.free → (s'.cproc p).busy = none) : Wf s' where
  nodup := hnodup
  queue f q := by
    by_cases hq : q = p
    · rw [hq]
      exact hp f
    · rw [hqueue f q hq, hcproc q hq]
      exact h.queue f q
  free q := by
    by_cases hq : q = p
    · rw [hq]
      exact hfree
    · rw [hcproc q hq]
      exact h.free q

theorem Wf.put (h : Wf s) (hqueue : ∀ f, s'.queueOf f = s.queueOf f)
    (hcproc : s'.cproc = (s.put p c).cproc)
    (hold : ∀ f, (s.cproc p).pc ≠ .queued f) (hnew : ∀ f, c.pc ≠ .queued f)
    (hfree : c.pc.free → c.busy = none) : Wf s' := by
  have hself : s'.cproc p = c := by rw [hcproc, State.put_cproc_self]
  refine h.update (p := p) (fun q hq => ?_) (fun f q _ => ?_) (fun f => ?_) (fun f => ?_) ?_
  · rw [hcproc, State.put_cproc_of_ne s c hq]
  · rw [hqueue]
  · rw [hqueue]
    exact h.nodup f
  · rw [hqueue, hself, h.queue]
    exact iff_of_false (hold f) (hnew f)
  · rwa [hself]

/-- The section of `cthread_msg_busy` takes a cproc off the queue, or none. -/
theorem Wf.msgBusy (h : Wf s) (hen : s.entry f = some en) (hold : ∀ g, (s.cproc p).pc ≠ .queued g)
    {pc : Pc} (hnew : ∀ g, pc ≠ .queued g) : Wf (s.msgBusy p f en pc) := by
  have hput : Wf (s.put p ⟨none, pc⟩) := h.put (fun _ => rfl) rfl hold hnew fun _ => rfl
  have hdec : Wf ((s.put p ⟨none, pc⟩).setEntry f { en with held := en.held - 1 }) :=
    h.put (queueOf_setEntry (queueOf_eq hen).symm) rfl hold hnew fun _ => rfl
  rcases msgBusy_cases s p f en pc with ⟨new, queue, hqueue, -, heq⟩ | ⟨-, heq⟩
  · rw [heq]
    have hq : (s.put p ⟨none, pc⟩).queueOf f =
      new :: queue := by rw [queueOf_put, queueOf_eq hen, hqueue]
    have hnodup := hput.nodup f
    rw [hq] at hnodup
    have hpc : ((s.put p ⟨none, pc⟩).cproc new).pc = .queued f :=
      (hput.queue f new).mp (hq ▸ List.mem_cons_self)
    refine hput.update (p := new) (fun q hne => ?_) (fun g q hne => ?_) (fun g => ?_)
      (fun g => ?_) ?_
    · rw [State.put_cproc_of_ne _ _ hne, State.setEntry_cproc]
    · rw [queueOf_put]
      by_cases hg : g = f
      · rw [hg, queueOf_setEntry_self, hq, List.mem_cons]
        exact ⟨.inr, fun h => h.resolve_left hne⟩
      · rw [queueOf_setEntry_of_ne hg]
    · rw [queueOf_put]
      by_cases hg : g = f
      · rw [hg, queueOf_setEntry_self]
        exact (List.nodup_cons.mp hnodup).2
      · rw [queueOf_setEntry_of_ne hg]
        exact hput.nodup g
    · rw [State.put_cproc_self, queueOf_put]
      refine iff_of_false ?_ (by rintro ⟨⟩)
      by_cases hg : g = f
      · rw [hg, queueOf_setEntry_self]
        exact (List.nodup_cons.mp hnodup).1
      · rw [queueOf_setEntry_of_ne hg, hput.queue, hpc]
        rintro ⟨⟩
        exact hg rfl
    · rw [State.put_cproc_self]
      intro _
      exact hput.free new (by rw [hpc]; rfl)
  · rw [heq]
    exact hdec

/-- A cproc that is on no queue takes a slot, or goes to the queue. -/
theorem Wf.take (h : Wf s) (hen : s.entry f = some en) (hold : ∀ g, (s.cproc p).pc ≠ .queued g)
    (hbusy : (s.cproc p).busy = none) (max : ℤ) (send : Bool) : Wf (s.take p f en max send) := by
  unfold State.take
  by_cases hfull : en.held ≥ max
  · rw [if_pos hfull]
    have hnot : p ∉ s.queueOf f := fun hp => hold f ((h.queue f p).mp hp)
    refine h.update (p := p) (fun q hne => ?_) (fun g q hne => ?_) (fun g => ?_) (fun g => ?_) ?_
    · rw [State.put_cproc_of_ne _ _ hne, State.setEntry_cproc]
    · rw [queueOf_put]
      by_cases hg : g = f
      · rw [hg, queueOf_setEntry_self, queueOf_eq hen, List.mem_cons]
        exact ⟨fun h => h.resolve_left hne, .inr⟩
      · rw [queueOf_setEntry_of_ne hg]
    · rw [queueOf_put]
      by_cases hg : g = f
      · rw [hg, queueOf_setEntry_self]
        rw [queueOf_eq hen] at hnot
        exact List.nodup_cons.mpr ⟨hnot, queueOf_eq hen ▸ h.nodup f⟩
      · rw [queueOf_setEntry_of_ne hg]
        exact h.nodup g
    · rw [State.put_cproc_self, queueOf_put]
      by_cases hg : g = f
      · rw [hg, queueOf_setEntry_self]
        exact iff_of_true List.mem_cons_self rfl
      · rw [queueOf_setEntry_of_ne hg, h.queue]
        exact iff_of_false (hold g) fun heq => hg (Pc.queued.inj heq).symm
    · rw [State.put_cproc_self]
      exact fun _ => hbusy
  · rw [if_neg hfull]
    exact h.put (queueOf_setEntry (queueOf_eq hen).symm) rfl hold (fun g => by rintro ⟨⟩) fun _ =>
      hbusy

end Queues

section Counts

theorem Cproc.share_of_not_slot {c : Cproc} (h : c.pc.hasSlot e = false) :
    c.share e = if c.busy = some e then 1 else 0 := by
  unfold share
  rw [h]
  rfl

theorem Cproc.share_slot {c : Cproc} {send : Bool} (hbusy : c.busy = none)
    (hpc : c.pc = .slot f send) : c.share e = if f = e then 1 else 0 := by
  unfold share Pc.hasSlot
  rw [hbusy, hpc]
  simp

variable [Fintype P]

theorem count_of_cproc (hcproc : s'.cproc = (s.put p c).cproc) (e : ℕ) :
    s'.count e + (s.cproc p).share e = s.count e + c.share e := by
  rw [← count_put s p c e]
  unfold State.count
  rw [hcproc]

/-- A cproc goes on with what it counts, and the entry is as before. -/
theorem Tight.move (h : Tight e min max s) (hcproc : s'.cproc = (s.put p c).cproc)
    (hlimits : ∀ en, s'.entry e = some en → en.min = min ∧ en.max = max)
    (hheld : s'.heldOf e = s.heldOf e)
    (hqueue : s'.queueOf e = s.queueOf e) (hshare : c.share e = (s.cproc p).share e)
    (hfits : c.Fits e max) : Tight e min max s' where
  limits := hlimits
  held := by
    have hcount := count_of_cproc hcproc e
    rw [hheld, h.held]
    omega
  le := hheld ▸ h.le
  queued := by
    rw [hheld, hqueue]
    exact h.queued
  fits := by
    rw [hcproc]
    exact forall_put h.fits hfits

theorem Tight.change (h : Tight e min max s) {en' : PortEntry P}
    (hcproc : s'.cproc = (s.put p c).cproc)
    (hentry : s'.entry e = some en') (hlimits : en'.min = min ∧ en'.max = max)
    (hheld : en'.held + (s.cproc p).share e = s.heldOf e + c.share e) (hle : en'.held ≤ max)
    (hqueued : en'.queue ≠ [] → min ≤ en'.held) (hfits : c.Fits e max) : Tight e min max s' where
  limits en hen := by
    obtain rfl := Option.some.inj (hentry.symm.trans hen)
    exact hlimits
  held := by
    have hcount := count_of_cproc hcproc e
    have := h.held
    rw [heldOf_eq hentry]
    omega
  le := by rwa [heldOf_eq hentry]
  queued := by rwa [heldOf_eq hentry, queueOf_eq hentry]
  fits := by
    rw [hcproc]
    exact forall_put h.fits hfits

theorem Tight.take (h : Tight e min max s) (hmm : min ≤ max) (hen : s.entry f = some en) {m : ℤ}
    (hm : f = e → m = max) (hbusy : (s.cproc p).busy = none)
    (hslot : (s.cproc p).pc.hasSlot e = false)
    (send : Bool) : Tight e min max (s.take p f en m send) := by
  have hold : (s.cproc p).share e = 0 := by rw [Cproc.share_of_not_slot hslot, hbusy]; rfl
  have hqueued : (⟨(s.cproc p).busy, .queued f⟩ : Cproc).share e = 0 := by
    rw [Cproc.share_of_not_slot rfl, hbusy]
    rfl
  have htaken : (⟨(s.cproc p).busy, .slot f send⟩ : Cproc).share e = if f = e then 1 else 0 :=
    Cproc.share_slot hbusy rfl
  unfold State.take
  by_cases hfe : f = e
  · subst hfe
    obtain rfl := hm rfl
    have hheld := heldOf_eq hen
    have hle := h.le
    by_cases hfull : en.held ≥ m
    · rw [if_pos hfull]
      refine h.change rfl (State.setEntry_entry_self _ _ _) (h.limits en hen) ?_ (hheld ▸ hle) ?_ ?_
      · rw [hold, hqueued, hheld]
      · exact fun _ => hmm.trans hfull
      · exact ⟨by rintro _ ⟨⟩, by rintro _ ⟨⟩⟩
    · rw [if_neg hfull]
      refine h.change rfl (State.setEntry_entry_self _ _ _) (h.limits en hen) ?_ ?_ ?_ ?_
      · rw [hold, htaken, hheld, if_pos rfl]
        simp
      · dsimp only
        omega
      · intro hne
        have := h.queued (by rwa [queueOf_eq hen])
        dsimp only
        omega
      · exact ⟨by rintro _ ⟨⟩, by rintro _ ⟨⟩⟩
  · have hother : ∀ en', (s.setEntry f en').entry e = s.entry e := fun en' =>
      State.setEntry_entry_of_ne s en' (Ne.symm hfe)
    split
    · refine h.move rfl (by rw [State.put_entry, hother]; exact h.limits) ?_ ?_ ?_
        ⟨by rintro _ ⟨⟩, by rintro _ ⟨⟩⟩
      · exact heldOf_setEntry_of_ne (Ne.symm hfe)
      · exact queueOf_setEntry_of_ne (Ne.symm hfe)
      · rw [hqueued, hold]
    · refine h.move rfl (by rw [State.put_entry, hother]; exact h.limits) ?_ ?_ ?_
        ⟨by rintro _ ⟨⟩, by rintro _ ⟨⟩⟩
      · exact heldOf_setEntry_of_ne (Ne.symm hfe)
      · exact queueOf_setEntry_of_ne (Ne.symm hfe)
      · rw [htaken, hold, if_neg hfe]

/-- What the section of `cthread_msg_busy` does to the difference of the count and the cprocs that
are counted. -/
theorem heldOf_sub_count_msgBusy (hwf : Wf s) (hen : s.entry f = some en)
    (hnot : (s.cproc p).pc ≠ .queued f) {pc : Pc} (hpc : pc.hasSlot e = false) :
    (s.msgBusy p f en pc).heldOf e - (s.msgBusy p f en pc).count e =
      s.heldOf e - s.count e + (s.cproc p).share e - (if f = e then 1 else 0 : ℕ) := by
  have hcount := count_put s p ⟨none, pc⟩ e
  have hgone : (⟨none, pc⟩ : Cproc).share e = 0 := Cproc.share_of_not_slot hpc
  rw [hgone] at hcount
  rcases msgBusy_cases s p f en pc with ⟨new, queue, hqueue, -, heq⟩ | ⟨-, heq⟩
  · have hpcnew : (s.cproc new).pc = .queued f :=
      (hwf.queue f new).mp (by rw [queueOf_eq hen, hqueue]; exact List.mem_cons_self)
    have hne : new ≠ p := fun h => hnot (h ▸ hpcnew)
    have hbnew : (s.cproc new).busy = none := hwf.free new (by rw [hpcnew]; rfl)
    have hnew : (s.cproc new).share e = 0 := by
      rw [Cproc.share_of_not_slot (by rw [hpcnew]; rfl), hbnew]
      rfl
    rw [heq, State.put_cproc_of_ne _ _ hne, hbnew]
    have hcount' :=
      count_put ((s.put p ⟨none, pc⟩).setEntry f { en with
                                                   queue := queue }) new ⟨none, .slot f false⟩ e
    rw [State.setEntry_cproc, State.put_cproc_of_ne _ _ hne, hnew, count_setEntry,
      Cproc.share_slot rfl rfl] at hcount'
    have hheld : ((s.put p ⟨none, pc⟩).setEntry f { en with queue := queue }).heldOf e =
      s.heldOf e := by
      by_cases hfe : f = e
      · rw [← hfe, heldOf_setEntry_self, heldOf_eq hen]
      · exact heldOf_setEntry_of_ne (Ne.symm hfe)
    rw [heldOf_put, hheld]
    omega
  · rw [heq, count_setEntry]
    by_cases hfe : f = e
    · rw [← hfe, heldOf_setEntry_self, heldOf_eq hen, if_pos rfl]
      rw [← hfe] at hcount
      dsimp only
      omega
    · rw [heldOf_setEntry_of_ne (Ne.symm hfe), heldOf_put, if_neg hfe]
      omega

/-- The slot that a cproc gives up is the one that is counted off or handed on. -/
theorem Tight.msgBusy (h : Tight e min max s) (hwf : Wf s) (hen : s.entry f = some en) {g : ℕ}
    (hbusy : (s.cproc p).busy = some g) (hsame : g = e ↔ f = e)
    (hslot : (s.cproc p).pc.hasSlot e = false)
    (hnot : (s.cproc p).pc ≠ .queued f) {pc : Pc} (hpc : pc.hasSlot e = false)
    (hfits : (⟨none, pc⟩ : Cproc).Fits e max) : Tight e min max (s.msgBusy p f en pc) := by
  have hshare : (s.cproc p).share e = if f = e then 1 else 0 := by
    rw [Cproc.share_of_not_slot hslot, hbusy]
    by_cases hfe : f = e
    · rw [if_pos hfe, hsame.mpr hfe, if_pos rfl]
    · rw [if_neg hfe, if_neg fun heq => hfe (hsame.mp (Option.some.inj heq))]
  have hheld := heldOf_sub_count_msgBusy hwf hen hnot hpc
  rw [hshare, h.held] at hheld
  obtain ⟨hother, en', hself, hmin, hmax, hle, hqueued⟩ := msgBusy_entry s p f en pc
  have hall := h.le
  by_cases hfe : f = e
  · subst hfe
    have hlimits := h.limits en hen
    rw [heldOf_eq hen] at hall
    refine ⟨fun en₁ hen₁ => ?_, by omega, ?_, fun hne => ?_, msgBusy_fits h.fits hfits⟩
    · obtain rfl := Option.some.inj (hself.symm.trans hen₁)
      rwa [hmin, hmax]
    · rw [heldOf_eq hself]
      omega
    · rw [queueOf_eq hself] at hne
      obtain ⟨hold, henough⟩ := hqueued hne
      have := h.queued (by rwa [queueOf_eq hen])
      rw [heldOf_eq hen] at this
      rw [heldOf_eq hself]
      omega
  · have hsame' := hother e (Ne.symm hfe)
    refine ⟨fun en₁ hen₁ => h.limits en₁ (hsame' ▸ hen₁), by omega, ?_, ?_,
      msgBusy_fits h.fits hfits⟩
    · unfold State.heldOf
      rw [hsame']
      exact hall
    · unfold State.heldOf State.queueOf
      rw [hsame']
      exact h.queued

theorem Tight.msgActive (h : Tight e min max s) (hen : s.entry f = some en)
    (hbusy : (s.cproc p).busy = none)
    (hslot : (s.cproc p).pc.hasSlot e = false) : Tight e min max (s.msgActive p f en) := by
  have hold : (s.cproc p).share e = 0 := by rw [Cproc.share_of_not_slot hslot, hbusy]; rfl
  have hfits : ∀ busy, (⟨busy, .out⟩ : Cproc).Fits e max :=
    fun _ => ⟨by rintro _ ⟨⟩, by rintro _ ⟨⟩⟩
  unfold State.msgActive
  by_cases hroom : en.held < en.max
  · rw [if_pos hroom]
    by_cases hfe : f = e
    · subst hfe
      have hheld := heldOf_eq hen
      obtain ⟨-, hmax⟩ := h.limits en hen
      refine h.change rfl (State.setEntry_entry_self _ _ _) (h.limits en hen) ?_ ?_ (fun hne => ?_)
        (hfits _)
      · rw [hold, Cproc.share_of_not_slot rfl, if_pos rfl, hheld]
        simp
      · dsimp only
        omega
      · have := h.queued (by rwa [queueOf_eq hen])
        dsimp only
        omega
    · refine h.move rfl ?_ (heldOf_setEntry_of_ne (Ne.symm hfe))
        (queueOf_setEntry_of_ne (Ne.symm hfe)) ?_ (hfits _)
      · intro en' hen'
        rw [State.put_entry, State.setEntry_entry_of_ne _ _ (Ne.symm hfe)] at hen'
        exact h.limits en' hen'
      · rw [hold, Cproc.share_of_not_slot rfl, if_neg fun heq => hfe (Option.some.inj heq)]
  · rw [if_neg hroom]
    refine h.move rfl h.limits rfl rfl ?_ (hfits _)
    rw [hold, Cproc.share_of_not_slot rfl, hbusy]
    rfl

end Counts

section Runs

def Call.port : Call → ℕ
  | .msgBusy port _ _ | .msgActive port _ _ | .machMsg port _ _ _ => port

def Call.limits : Call → ℤ × ℤ
  | .msgBusy _ min max | .msgActive _ min max | .machMsg _ min max _ => (min, max)

/-- The calls for the entry pass its limits. -/
def Passes (e : ℕ) (min max : ℤ) : Act P → Prop
  | .call _ c => c.port = e → c.limits = (min, max)
  | _ => True

/-- `cthread_msg_busy` is called for the entry if and only if the cproc holds it. -/
def Careful (e : ℕ) (s : State P) : Act P → Prop
  | .call p (.msgBusy port _ _) => ∀ op, (s.cproc p).busy = some op → (op = e ↔ port = e)
  | _ => True

instance (e : ℕ) (min max : ℤ) (a : Act P) : Decidable (Passes e min max a) :=
  match a with
  | .call _ c => inferInstanceAs (Decidable (c.port = e → c.limits = (min, max)))
  | .go _ | .fail _ => isTrue trivial

instance (e : ℕ) (s : State P) (a : Act P) : Decidable (Careful e s a) :=
  match a with
  | .call p (.msgBusy port _ _) =>
    match h : (s.cproc p).busy with
    | none => isTrue fun op hop => by cases h.symm.trans hop
    | some op =>
      decidable_of_iff (op = e ↔ port = e)
        ⟨fun hsame op' hop => Option.some.inj (h.symm.trans hop) ▸ hsame, fun hcare => hcare op h⟩
  | .call _ (.msgActive _ _ _) | .call _ (.machMsg _ _ _ _) | .go _ | .fail _ => isTrue trivial

variable [Fintype P] {a : Act P}

theorem call_inv (hwf : Wf s) (h : Tight e min max s) {port : ℕ} {m n : ℤ} {pc : Pc}
    (hout : (s.cproc p).pc = .out) (hpass : port = e → (m, n) = (min, max))
    (hqueued : ∀ f, pc ≠ .queued f)
    (hfree : pc.free → (s.cproc p).busy = none) (hslot : pc.hasSlot e = false)
    (hfits : (⟨(s.cproc p).busy, pc⟩ : Cproc).Fits e max) :
    Wf ((s.getPortEntry port m n).put p ⟨(s.cproc p).busy, pc⟩) ∧
      Tight e min max ((s.getPortEntry port m n).put p ⟨(s.cproc p).busy, pc⟩) := by
  obtain ⟨hcproc, hqueue, hheld, hentry⟩ := getPortEntry_spec s port m n
  have hput : ((s.getPortEntry port m n).put p ⟨(s.cproc p).busy, pc⟩).cproc =
      (s.put p ⟨(s.cproc p).busy, pc⟩).cproc := by
    unfold State.put
    rw [hcproc]
  refine ⟨hwf.put hqueue hput (fun f => by rw [hout]; rintro ⟨⟩) hqueued hfree, ?_⟩
  refine h.move hput (fun en hen => ?_) (hheld e) (hqueue e) ?_ hfits
  · rcases hentry e en hen with hold | ⟨hport, hmin, hmax⟩
    · exact h.limits en hold
    · obtain ⟨rfl, rfl⟩ := Prod.mk.inj (hpass hport.symm)
      exact ⟨hmin, hmax⟩
  · rw [Cproc.share_of_not_slot hslot, Cproc.share_of_not_slot (by rw [hout]; rfl)]

theorem step_call (hwf : Wf s) (h : Tight e min max s) {call : Call} (hout : (s.cproc p).pc = .out)
    (hpass : Passes e min max (.call p call)) (hcare : Careful e s (.call p call)) :
    Wf (XMach.Throttle.call s p call) ∧ Tight e min max (XMach.Throttle.call s p call) := by
  cases call with
  | msgBusy port m n =>
    unfold XMach.Throttle.call
    dsimp only
    cases hbusy : (s.cproc p).busy with
    | none => exact ⟨hwf, h⟩
    | some op =>
      rw [if_pos Option.isSome_some, ← hbusy]
      refine call_inv hwf h hout hpass (fun f => by rintro ⟨⟩)
        (by rintro ⟨⟩) rfl ⟨by rintro _ ⟨⟩, ?_⟩
      rintro f ⟨⟩
      exact ⟨op, hbusy, hcare op hbusy⟩
  | msgActive port m n =>
    unfold XMach.Throttle.call
    dsimp only
    cases hbusy : (s.cproc p).busy with
    | none =>
      rw [if_neg (by rintro ⟨⟩), ← hbusy]
      exact call_inv hwf h hout hpass (fun f => by rintro ⟨⟩)
        (fun _ => hbusy) rfl ⟨by rintro _ ⟨⟩, by rintro _ ⟨⟩⟩
    | some op => exact ⟨hwf, h⟩
  | machMsg port m n send =>
    refine call_inv hwf h hout hpass (fun f => by rintro ⟨⟩)
      (by rintro ⟨⟩) rfl ⟨fun k hk => ?_, by rintro _ ⟨⟩⟩
    unfold Pc.limit at hk
    dsimp only at hk
    split at hk
    · next hport =>
      cases hk
      exact (Prod.mk.inj (hpass hport)).2
    · cases hk

theorem put_inv (hwf : Wf s) (h : Tight e min max s) (hold : ∀ f, (s.cproc p).pc ≠ .queued f)
    (hnew : ∀ f, c.pc ≠ .queued f) (hfree : c.pc.free → c.busy = none)
    (hshare : c.share e = (s.cproc p).share e)
    (hfits : c.Fits e max) : Wf (s.put p c) ∧ Tight e min max (s.put p c) :=
  ⟨hwf.put (fun _ => rfl) rfl hold hnew hfree, h.move rfl h.limits rfl rfl hshare hfits⟩

theorem step_go (hmm : min ≤ max) (hwf : Wf s) (h : Tight e min max s) (hs : go s p = some s') :
    Wf s' ∧ Tight e min max s' := by
  have hfits := h.fits p
  have hfree := hwf.free p
  unfold go at hs
  dsimp only at hs
  cases hpc : (s.cproc p).pc with
  | out => rw [hpc] at hs; cases hs
  | queued f => rw [hpc] at hs; cases hs
  | msgBusy f =>
    rw [hpc] at hs
    obtain ⟨en, hen, rfl⟩ := Option.map_eq_some_iff.mp hs
    obtain ⟨g, hbusy, hsame⟩ := hfits.same f hpc
    exact ⟨hwf.msgBusy hen (fun g => by rw [hpc]; rintro ⟨⟩) (fun g => by rintro ⟨⟩),
      h.msgBusy hwf hen hbusy hsame (by rw [hpc]; rfl)
      (by rw [hpc]; rintro ⟨⟩) rfl ⟨by rintro _ ⟨⟩, by rintro _ ⟨⟩⟩⟩
  | msgActive f =>
    rw [hpc] at hs
    obtain ⟨en, hen, rfl⟩ := Option.map_eq_some_iff.mp hs
    have hbusy := hfree (by rw [hpc]; rfl)
    refine ⟨?_, h.msgActive hen hbusy (by rw [hpc]; rfl)⟩
    unfold State.msgActive
    split
    · exact hwf.put (queueOf_setEntry (queueOf_eq hen).symm) rfl (fun g => by rw [hpc]; rintro ⟨⟩)
        (fun g => by rintro ⟨⟩) (by rintro ⟨⟩)
    · exact hwf.put (fun _ => rfl) rfl (fun g => by rw [hpc]; rintro ⟨⟩) (fun g => by rintro ⟨⟩)
        (by rintro ⟨⟩)
  | machMsg f m send =>
    rw [hpc] at hs
    dsimp only at hs
    have hold : ∀ g, (s.cproc p).pc ≠ .queued g := fun g => by rw [hpc]; rintro ⟨⟩
    have hm : f = e → m = max := fun hfe => hfits.limit m (by rw [hpc]; exact if_pos hfe)
    cases hbusy : (s.cproc p).busy with
    | some op =>
      rw [hbusy] at hs
      dsimp only at hs
      split at hs
      · -- the other entry is given up, and the call begins again without it
        obtain ⟨en, hen, rfl⟩ := Option.map_eq_some_iff.mp hs
        refine ⟨hwf.msgBusy hen hold (fun g => by rintro ⟨⟩),
          h.msgBusy hwf hen hbusy Iff.rfl (by rw [hpc]; rfl) (hold op) rfl ⟨?_, by rintro _ ⟨⟩⟩⟩
        rw [← hpc]
        exact hfits.limit
      · cases hs
        refine put_inv hwf h hold (fun g => by rintro ⟨⟩)
          (by rintro ⟨⟩) ?_ ⟨by rintro _ ⟨⟩, by rintro _ ⟨⟩⟩
        rw [Cproc.share_of_not_slot rfl, Cproc.share_of_not_slot (by rw [hpc]; rfl), hbusy]
    | none =>
      rw [hbusy] at hs
      obtain ⟨en, hen, hs⟩ := Option.map_eq_some_iff.mp hs
      split at hs
      · subst hs
        refine put_inv hwf h hold (fun g => by rintro ⟨⟩)
          (fun _ => rfl) ?_ ⟨fun k hk => ?_, by rintro _ ⟨⟩⟩
        · rw [Cproc.share_of_not_slot rfl, Cproc.share_of_not_slot (by rw [hpc]; rfl), hbusy]
        · exact hfits.limit k (by rw [hpc]; exact hk)
      · subst hs
        exact ⟨hwf.take hen hold hbusy m send, h.take hmm hen hm hbusy (by rw [hpc]; rfl) send⟩
  | sending f m =>
    rw [hpc] at hs
    cases hs
    refine put_inv hwf h (fun g => by rw [hpc]; rintro ⟨⟩) (fun g => by rintro ⟨⟩)
      (fun _ => hfree (by rw [hpc]; rfl)) ?_ ⟨fun k hk => ?_, by rintro _ ⟨⟩⟩
    · rw [Cproc.share_of_not_slot rfl, Cproc.share_of_not_slot (by rw [hpc]; rfl)]
    · exact hfits.limit k (by rw [hpc]; exact hk)
  | sent f m =>
    rw [hpc] at hs
    obtain ⟨en, hen, rfl⟩ := Option.map_eq_some_iff.mp hs
    have hbusy := hfree (by rw [hpc]; rfl)
    have hm : f = e → m = max := fun hfe => hfits.limit m (by rw [hpc]; exact if_pos hfe)
    exact ⟨hwf.take hen (fun g => by rw [hpc]; rintro ⟨⟩) hbusy m false,
      h.take hmm hen hm hbusy (by rw [hpc]; rfl) false⟩
  | slot f send =>
    rw [hpc] at hs
    cases hs
    refine put_inv hwf h (fun g => by rw [hpc]; rintro ⟨⟩) (fun g => by rintro ⟨⟩) (by rintro ⟨⟩) ?_
      ⟨by rintro _ ⟨⟩, by rintro _ ⟨⟩⟩
    rw [Cproc.share_of_not_slot rfl, Cproc.share_slot (hfree (by rw [hpc]; rfl)) hpc]
    simp
  | receiving f send =>
    rw [hpc] at hs
    cases hs
    refine put_inv hwf h (fun g => by rw [hpc]; rintro ⟨⟩) (fun g => by rintro ⟨⟩) (by rintro ⟨⟩) ?_
      ⟨by rintro _ ⟨⟩, by rintro _ ⟨⟩⟩
    rw [Cproc.share_of_not_slot rfl, Cproc.share_of_not_slot (by rw [hpc]; rfl)]

theorem step_inv (hmm : min ≤ max) (hwf : Wf s) (h : Tight e min max s) (hpass : Passes e min max a)
    (hcare : Careful e s a) (hs : step s a = some s') : Wf s' ∧ Tight e min max s' := by
  cases a with
  | call p call =>
    unfold step at hs
    dsimp only at hs
    split at hs
    · next hout =>
      cases hs
      exact step_call hwf h hout hpass hcare
    · cases hs
  | go p => exact step_go hmm hwf h hs
  | fail p =>
    unfold step at hs
    dsimp only at hs
    split at hs
    · next f m hpc =>
      cases hs
      refine put_inv hwf h (fun g => by rw [hpc]; rintro ⟨⟩) (fun g => by rintro ⟨⟩)
        (by rintro ⟨⟩) ?_
        ⟨by rintro _ ⟨⟩, by rintro _ ⟨⟩⟩
      rw [Cproc.share_of_not_slot rfl, Cproc.share_of_not_slot (by rw [hpc]; rfl)]
    · cases hs

theorem reach_inv (hmin : 0 ≤ max) (hmm : min ≤ max)
    (h : (machine P).Reach (fun s a => Passes e min max a ∧ Careful e s a) s) :
    Wf s ∧ Tight e min max s := by
  refine h.inv (fun s hstart => ?_) fun s a s' hinv hc hs => step_inv hmm hinv.1 hinv.2 hc.1 hc.2 hs
  obtain ⟨hentry, hcproc⟩ := hstart
  have hqueue : ∀ f, s.queueOf f = [] := fun f => by unfold State.queueOf; rw [hentry]; rfl
  have hheld : s.heldOf e = 0 := by unfold State.heldOf; rw [hentry]; rfl
  refine ⟨⟨fun f => ?_, fun f p => ?_, fun p _ => ?_⟩,
    ⟨fun en hen => ?_, ?_, ?_, fun hne => ?_, fun p => ?_⟩⟩
  · rw [hqueue]
    exact List.nodup_nil
  · rw [hqueue, hcproc]
    exact iff_of_false List.not_mem_nil (by rintro ⟨⟩)
  · rw [hcproc]
  · rw [hentry] at hen
    cases hen
  · rw [hheld]
    unfold State.count
    simp [hcproc, Cproc.share, Pc.hasSlot]
  · rwa [hheld]
  · exact absurd (hqueue e) hne
  · rw [hcproc]
    exact ⟨by rintro _ ⟨⟩, by rintro _ ⟨⟩⟩

/-- What is said of an entry. -/
structure Throttled (e : ℕ) (min max : ℤ) (s : State P) (en : PortEntry P) : Prop where
  held : en.held = ((Finset.univ.filter fun p => (s.cproc p).busy = some e).card +
    (Finset.univ.filter fun p => (s.cproc p).pc.hasSlot e).card : ℕ)
  nonneg : 0 ≤ en.held
  le : en.held ≤ max
  queued : ∀ p, p ∈ en.queue → min ≤ en.held

omit [DecidableEq P] in
theorem count_eq (s : State P) (e : ℕ) :
    s.count e = (Finset.univ.filter fun p => (s.cproc p).busy = some e).card +
      (Finset.univ.filter fun p => (s.cproc p).pc.hasSlot e).card := by
  rw [Finset.card_filter, Finset.card_filter, ← Finset.sum_add_distrib]
  rfl

omit [DecidableEq P] in
theorem Tight.throttled (h : Tight e min max s) (hen : s.entry e = some en) :
    Throttled e min max s en := by
  have hheld := h.held
  rw [heldOf_eq hen] at hheld
  refine ⟨by rw [hheld, count_eq], by omega, ?_, fun p hp => ?_⟩
  · rw [← heldOf_eq hen]
    exact h.le
  · rw [← heldOf_eq hen]
    apply h.queued
    rw [queueOf_eq hen]
    exact List.ne_nil_of_mem hp

theorem Tight.exists_entry (h : Tight e min max s) (hbusy : (s.cproc p).busy = some e) :
    ∃ en, s.entry e = some en := by
  cases hen : s.entry e with
  | some en => exact ⟨en, rfl⟩
  | none =>
    have hheld : s.heldOf e = 0 := by
      unfold State.heldOf
      rw [hen]
      rfl
    have hcount := count_put s p ⟨none, .out⟩ e
    have hgone : (⟨none, .out⟩ : Cproc).share e = 0 := Cproc.share_of_not_slot rfl
    have hshare : 1 ≤ (s.cproc p).share e := by
      unfold Cproc.share
      rw [if_pos hbusy]
      omega
    have := h.held
    omega

/-- The section of `cthread_msg_busy` for the entry instead of the one that the cproc holds, or for
another one instead of the entry. -/
theorem heldOf_ne_count (hwf : Wf s) (hheld : s.heldOf e = s.count e) {port op : ℕ}
    (hen : s.entry port = some en)
    (hc : s.cproc p = ⟨some op, .msgBusy port⟩) (hwrong : ¬ (op = e ↔ port = e)) :
    (s.msgBusy p port en .out).heldOf e ≠ (s.msgBusy p port en .out).count e := by
  have hnot : (s.cproc p).pc ≠ .queued port := by
    rw [hc]
    rintro ⟨⟩
  have hdefect := heldOf_sub_count_msgBusy hwf hen hnot (rfl : Pc.out.hasSlot e = false)
  have hshare : (s.cproc p).share e = if op = e then 1 else 0 := by
    rw [hc, Cproc.share_of_not_slot rfl]
    simp
  rw [hshare, hheld] at hdefect
  by_cases hport : port = e
  · rw [if_pos hport, if_neg fun hop => hwrong (iff_of_true hop hport)] at hdefect
    omega
  · rw [if_neg hport, if_pos (not_not.mp fun hop => hwrong (iff_of_false hop hport))] at hdefect
    omega

/-- A cproc that calls `cthread_msg_busy` in such a way leaves a wrong count. -/
theorem careless (hwf : Wf s) (h : Tight e min max s) {port op : ℕ} (m n : ℤ)
    (hout : (s.cproc p).pc = .out)
    (hbusy : (s.cproc p).busy = some op) (hwrong : ¬ (op = e ↔ port = e)) :
    ∃ s', (machine P).run s [.call p (.msgBusy port m n), .go p] = some s' ∧
      ∃ en, s'.entry e = some en ∧ ¬ Throttled e min max s' en := by
  obtain ⟨hcproc, hqueue, hheld, -⟩ := getPortEntry_spec s port m n
  obtain ⟨hkept, en₁, hen₁⟩ := getPortEntry_entry s port m n
  have hcall : call s p (.msgBusy port m n) =
    (s.getPortEntry port m n).put p ⟨some op, .msgBusy port⟩ := by
    simp [call, hbusy]
  have hput : ((s.getPortEntry port m n).put p ⟨some op, .msgBusy port⟩).cproc =
      (s.put p ⟨some op, .msgBusy port⟩).cproc := by
    unfold State.put
    rw [hcproc]
  have hcount := count_of_cproc hput e
  rw [Cproc.share_of_not_slot (by rw [hout]; rfl : (s.cproc p).pc.hasSlot e = false), hbusy,
    Cproc.share_of_not_slot rfl] at hcount
  -- after the call, with the entry found or made
  generalize ht : (s.getPortEntry port m n).put p ⟨some op, .msgBusy port⟩ = t at hcall hput hcount
  have hwft : Wf t :=
    hwf.put (fun f => by rw [← ht]; exact hqueue f) hput (fun f => by rw [hout]; rintro ⟨⟩)
      (fun f => by rintro ⟨⟩)
      (by rintro ⟨⟩)
  have hent : t.entry port = some en₁ := by rw [← ht]; exact hen₁
  have hct : t.cproc p = ⟨some op, .msgBusy port⟩ := by rw [hput, State.put_cproc_self]
  have hheldt : t.heldOf e = t.count e := by
    rw [Nat.add_right_cancel hcount, ← h.held, ← hheld e, ← ht]
    rfl
  obtain ⟨en, hen⟩ : ∃ en, (t.msgBusy p port en₁ .out).entry e = some en := by
    obtain ⟨hother, en', hself, -⟩ := msgBusy_entry t p port en₁ .out
    by_cases hport : port = e
    · exact ⟨en', hport ▸ hself⟩
    · have hop : op = e := not_not.mp fun hop => hwrong (iff_of_false hop hport)
      obtain ⟨en, hen⟩ := h.exists_entry (hop ▸ hbusy)
      refine ⟨en, ?_⟩
      rw [hother e (Ne.symm hport), ← ht]
      exact hkept e en hen
  refine ⟨t.msgBusy p port en₁ .out, ?_, en, hen, fun hthrottled => ?_⟩
  · simp [Machine.run, machine, step, hout, hcall, go, hct, hent]
  · have hright := hthrottled.held
    rw [← count_eq, ← heldOf_eq hen] at hright
    exact heldOf_ne_count hwft hheldt hent hct hwrong hright

/-- An entry counts the cprocs that hold a slot of it, in every run in which `cthread_msg_busy` is
called for the entry that the cproc holds; the first call that is not makes the count wrong. -/
theorem throttle_right (e : ℕ) {min max : ℤ} (hmin : 1 ≤ min) (hmax : min ≤ max) (s : State P)
    (h : (machine P).Reach (fun s a => Passes e min max a ∧ Careful e s a) s) :
    (∀ en, s.entry e = some en → Throttled e min max s en) ∧
      ∀ p port m n, (s.cproc p).pc = .out → ¬ Careful e s (.call p (.msgBusy port m n)) →
        ∃ s', (machine P).run s [.call p (.msgBusy port m n), .go p] = some s' ∧
          ∃ en, s'.entry e = some en ∧ ¬ Throttled e min max s' en := by
  obtain ⟨hwf, htight⟩ := reach_inv (by omega) hmax h
  refine ⟨fun en hen => htight.throttled hen, fun p port m n hout hcare => ?_⟩
  simp only [Careful, not_forall] at hcare
  obtain ⟨op, hbusy, hwrong⟩ := hcare
  exact careless hwf htight m n hout hbusy hwrong

/-- Before any call. -/
def noEntries (P : Type*) : State P := ⟨fun _ => none, fun _ => ⟨none, .out⟩⟩

omit [Fintype P] in
theorem start_noEntries : (machine P).start (noEntries P) := ⟨fun _ => rfl, fun _ => rfl⟩

/-- Three cprocs and a port with the limit 1: while the first one receives the others wait, and with
`cthread_msg_busy` it hands its slot to the last one. -/
theorem throttle_right_three : ∃ s : State (Fin 3),
    (∃ en, s.entry 7 = some en ∧ en.held = 1 ∧ Throttled 7 1 1 s en) ∧
    (s.cproc 0).busy = none ∧ (s.cproc 1).pc = .queued 7 ∧ (s.cproc 2).pc = .slot 7 false := by
  have hrun : ((machine (Fin 3)).run (noEntries _) [.call 0 (.machMsg 7 1 1 false), .go 0,
      .go 0, .go 0,
      .call 1 (.machMsg 7 1 1 false), .go 1, .call 2 (.machMsg 7 1 1 false), .go 2,
      .call 0 (.msgBusy 7 1 1),
      .go 0]).map (fun s => decide ((s.entry 7).map PortEntry.held = some 1 ∧
      (s.cproc 0).busy = none ∧
        (s.cproc 1).pc = .queued 7 ∧ (s.cproc 2).pc = .slot 7 false)) = some true := by
    decide
  obtain ⟨s, hs, hp⟩ :=
    Machine.Reach.exists_run (C := fun s a => Passes 7 1 1 a ∧ Careful 7 s a) start_noEntries
    (by decide) hrun
  obtain ⟨hheld, hcprocs⟩ := of_decide_eq_true hp
  obtain ⟨en, hen, hheld⟩ := Option.map_eq_some_iff.mp hheld
  exact ⟨s, ⟨en, hen, hheld, (throttle_right 7 (by decide) (by decide) s hs).1 en hen⟩, hcprocs⟩

/-- A cproc that holds the entry of one port calls `cthread_msg_busy` for another one, whose count
becomes negative. -/
theorem other_port_negative : ∃ s : State (Fin 1),
    (machine (Fin 1)).Reach (fun _ a => Passes 8 1 1 a) s ∧
    ∃ en, s.entry 8 = some en ∧ en.held = -1 ∧ ¬ Throttled 8 1 1 s en := by
  have hrun : ((machine (Fin 1)).run (noEntries _) [.call 0 (.machMsg 7 1 1 false), .go 0,
      .go 0, .go 0,
      .call 0 (.msgBusy 8 1 1), .go 0]).map (fun s =>
        decide ((s.entry 8).map PortEntry.held = some (-1))) = some true := by
    decide
  obtain ⟨s, hs, hp⟩ := Machine.Reach.exists_run (C := fun _ a => Passes 8 1 1 a) start_noEntries
    (by decide) hrun
  obtain ⟨en, hen, hheld⟩ := Option.map_eq_some_iff.mp (of_decide_eq_true hp)
  refine ⟨s, hs, en, hen, hheld, fun h => ?_⟩
  have := h.nonneg
  omega

end Runs

end XMach.Throttle
