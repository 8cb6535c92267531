import Mathlib.Tactic.Common
import XMach.Lites.PortObject

/-!
# The lives of port objects

A thread that has a name with a message, or that shuts an object down, finds the object of that name
still there: an object is freed only when all messages that were taken from its port are handled,
and by the one thread that took it out of the hash table. What the name leads to after a no-senders
notification has deactivated the object is another matter (`notification_destroys_other`).
-/

namespace XMach.PortObject

open Function

variable {T : Type} [DecidableEq T] {s s' s₁ : State T} {t u : T} {a : Act T} {o o' : Obj}
  {port q r : ℕ} {found : Option ℕ} {p : Pending} {f : Obj → Option Obj} {force : Bool}

section Frame

omit [DecidableEq T] in
@[simp] theorem put_obj_self : (s.put q o).obj q = o := update_self ..

omit [DecidableEq T] in
theorem put_obj_of_ne (hne : r ≠ q) : (s.put q o).obj r = s.obj r := update_of_ne hne ..

@[simp] theorem goto_thread_self : (s.goto t p).thread t = p := update_self ..

theorem goto_obj : (s.goto t p).obj = s.obj := rfl

theorem goto_thread_of_ne (hne : u ≠ t) : (s.goto t p).thread u = s.thread u := update_of_ne hne ..

omit [DecidableEq T] in
@[simp] theorem put_put : (s.put q o).put q o' = s.put q o' := by
  simp only [State.put, update_idem]

omit [DecidableEq T] in
theorem put_self : s.put q (s.obj q) = s := by
  simp only [State.put, update_eq_self]

theorem unlocked_eq (h : o.locked = false) : { o with locked := false } = o := by
  rw [← h]

omit [DecidableEq T] in
theorem bucket_eq (hb : ∀ b, s.bucket b = false) (k : ℕ) :
    update (update s.bucket k true) k false = s.bucket := by
  rw [update_idem, update_eq_self_iff, hb]

end Frame

section Specs

omit [DecidableEq T] in
theorem lock_spec (h : s.lock q = some s₁) :
    (s.obj q).locked = false ∧ s₁ = s.put q { s.obj q with locked := true } := by
  unfold State.lock at h
  split_ifs at h with hl
  exact ⟨by simpa using hl, (Option.some.inj h).symm⟩

omit [DecidableEq T] in
theorem hashLookupLocked_spec (hb : ∀ b, s.bucket b = false)
    (h : hashLookupLocked s port = some (s₁, found)) :
    (found = none ∧ s.hash port = none ∧ s₁ = s) ∨
    ∃ q, found = some q ∧ s.hash port = some q ∧ (s.obj q).locked = false ∧
      s₁ = { s with bucket := update s.bucket (portHash port) true }.put q
        { s.obj q with locked := true } := by
  unfold hashLookupLocked State.lockBucket at h
  rw [if_neg (by simp [hb])] at h
  rcases hq : s.hash port with _ | q
  · simp only [Option.bind_eq_bind, Option.bind_some, hq] at h
    cases h
    refine .inl ⟨rfl, rfl, ?_⟩
    simp only [State.hashRelease, bucket_eq hb]
  · simp only [Option.bind_eq_bind, Option.bind_some, hq] at h
    obtain ⟨s₂, hlock, h⟩ := Option.bind_eq_some_iff.1 h
    obtain ⟨hl, rfl⟩ := lock_spec hlock
    cases h
    exact .inr ⟨q, rfl, rfl, hl, rfl⟩

omit [DecidableEq T] in
theorem withObject_spec (hb : ∀ b, s.bucket b = false) (h : withObject s port f = some s') :
    s' = s ∨ ∃ q o, s.hash port = some q ∧ (s.obj q).locked = false ∧
      f { s.obj q with locked := true } = some o ∧ s' = s.put q { o with locked := false } := by
  unfold withObject hashLookup at h
  simp only [Option.bind_eq_bind, Option.bind_eq_some_iff, Prod.exists] at h
  obtain ⟨s₁, found, ⟨s₂, found', hlookup, hrel⟩, h⟩ := h
  rcases hashLookupLocked_spec hb hlookup with ⟨rfl, -, rfl⟩ | ⟨q, rfl, hq, hl, rfl⟩
  · cases hrel
    exact .inl (Option.some.inj h).symm
  · cases hrel
    simp only [Option.bind_eq_some_iff] at h
    obtain ⟨o, ho, h⟩ := h
    refine .inr ⟨q, o, hq, hl, ?_, ?_⟩
    · simpa [State.hashRelease, State.put] using ho
    · rw [← Option.some.inj h]
      simp [State.hashRelease, State.put, State.unlock, bucket_eq hb]

theorem beginShutdown_spec (hb : ∀ b, s.bucket b = false)
    (h : beginShutdown s t port force = some s') :
    (s' = s.goto t .idle ∧ ∀ q, s.hash port = some q → (s.obj q).state = .active) ∨
    ∃ q, s.hash port = some q ∧ (s.obj q).locked = false ∧
        ((s.obj q).state = .active ∧ force = true ∨ (s.obj q).state = .inactive) ∧
      s' = ({ s with hash := update s.hash port none }.put q
        { s.obj q with inSet := false, state := (s.obj q).state.closed, locked := false }).goto t
          (.closing port (s.obj q).dequeued q) := by
  unfold beginShutdown at h
  simp only [Option.bind_eq_bind, Option.bind_eq_some_iff, Prod.exists] at h
  obtain ⟨s₁, found, hlookup, h⟩ := h
  rcases hashLookupLocked_spec hb hlookup with ⟨rfl, hnone, rfl⟩ | ⟨q, rfl, hq, hl, rfl⟩
  · refine .inl ⟨(Option.some.inj h).symm, fun q hq => ?_⟩
    rw [hnone] at hq
    cases hq
  · simp only [put_obj_self] at h
    split_ifs at h with hforce hstate
    · simp only [Bool.and_eq_true, decide_eq_true_eq] at hforce
      refine .inl ⟨?_, fun r hr => ?_⟩
      · rw [← Option.some.inj h]
        simp only [State.hashRelease, State.unlock, State.put, bucket_eq hb, update_self,
          update_idem, unlocked_eq hl, update_eq_self]
      · obtain rfl := Option.some.inj (hq.symm.trans hr)
        exact hforce.1
    · refine .inr ⟨q, hq, hl, ?_, ?_⟩
      · simp only [Bool.and_eq_true, Bool.or_eq_true, decide_eq_true_eq, not_and, Bool.not_eq_true,
          Bool.not_eq_false'] at hforce hstate
        exact hstate.imp_left fun ha => ⟨ha, by simpa using hforce ha⟩
      · rw [← Option.some.inj h]
        simp only [hashRemove, State.hashRelease, State.unlock, State.put, bucket_eq hb,
          update_self, update_idem]

theorem finish_spec (h : finish s t = some s') : ∃ port n id q, s.thread t = .closing port n id ∧
    s.heap port = some q ∧ (s.obj q).locked = false ∧ n ≤ (s.obj q).seqno ∧
    ((s.obj q).state = .dead ∧
    s' = ((s.put q { s.obj q with locked := true }).free q).goto t .idle ∨
      (s.obj q).state ≠ .dead ∧ s' = s.goto t .idle) := by
  unfold finish at h
  split at h
  · rename_i port n id hth
    simp only [Option.bind_eq_bind, Option.bind_eq_some_iff] at h
    obtain ⟨q, hq, s₁, hlock, h⟩ := h
    obtain ⟨hl, rfl⟩ := lock_spec hlock
    simp only [put_obj_self] at h
    split_ifs at h with hlt hdead
    · exact ⟨port, n, id, q, hth, hq, hl, Nat.le_of_not_lt hlt,
        .inl ⟨hdead, (Option.some.inj h).symm⟩⟩
    · refine ⟨port, n, id, q, hth, hq, hl, Nat.le_of_not_lt hlt, .inr ⟨hdead, ?_⟩⟩
      rw [← Option.some.inj h, State.unlock, put_obj_self, put_put, unlocked_eq hl, put_self]
  · cases h

/-- The object at the name goes over to the next message. -/
theorem handle_spec (h : handle s t = some s') : ∃ port n k id q,
    s.thread t = .message port n k id ∧
    s.heap port = some q ∧ (s.obj q).locked = false ∧ (s.obj q).seqno = n ∧ ∃ state locked p,
      s' = (s.put q { s.obj q with seqno := n + 1, state := state, locked := locked }).goto t p ∧
      ((state = (s.obj q).state ∧ locked = false ∧ p = .idle ∧ k = none) ∨
      ((s.obj q).state = .shutdown ∧ state = .dead ∧ locked = false ∧ p = .idle) ∨
      ∃ m, k = some m ∧ (s.obj q).state = .active ∧
        ((state = .active ∧ locked = true ∧ p = .idle ∧ m < (s.obj q).mscount) ∨
          (state = .inactive ∧ locked = false ∧ p = .notified port id ∧
          (s.obj q).mscount ≤ m))) := by
  unfold handle at h
  split at h
  · rename_i port n k id hth
    simp only [Option.bind_eq_bind, Option.bind_eq_some_iff] at h
    obtain ⟨q, hq, s₁, hlock, h⟩ := h
    obtain ⟨hl, rfl⟩ := lock_spec hlock
    simp only [put_obj_self] at h
    by_cases hn : (s.obj q).seqno = n
    swap
    · rw [if_pos hn] at h
      cases h
    rw [if_neg (not_not.2 hn)] at h
    refine ⟨port, n, k, id, q, hth, hq, hl, hn, ?_⟩
    rcases k with _ | m
    · simp only at h
      split_ifs at h
      refine ⟨_, _, _, ?_, .inl ⟨rfl, rfl, rfl, rfl⟩⟩
      rw [← Option.some.inj h]
      simp [State.unlock, hn]
    · simp only at h
      by_cases hgc : (s.obj q).type.has .gc = true
      swap
      · rw [if_neg hgc] at h
        cases h
      rw [if_pos hgc] at h
      split at h
      · rename_i hstate
        refine ⟨_, _, _, ?_, .inr (.inl ⟨hstate, rfl, rfl, rfl⟩)⟩
        rw [← Option.some.inj h]
        simp [State.unlock, hn]
      · rename_i hstate
        split_ifs at h with hm
        · refine ⟨_, _, _, ?_, .inr (.inr ⟨m, rfl, hstate, .inl ⟨rfl, rfl, rfl, hm⟩⟩)⟩
          rw [← Option.some.inj h]
          simp [hn, hstate]
        · refine ⟨_, _, _, ?_,
            .inr (.inr ⟨m, rfl, hstate, .inr ⟨rfl, rfl, rfl, Nat.le_of_not_lt hm⟩⟩)⟩
          rw [← Option.some.inj h]
          simp [State.unlock, hn]
      · cases h
  · cases h

omit [DecidableEq T] in
theorem deadName_spec (hb : ∀ b, s.bucket b = false) (h : deadName s port = some s') :
    s' = s ∨ ∃ q, s.hash port = some q ∧ (s.obj q).state = .senderAlive ∧
      s' = ({ s with hash := update s.hash port none }.put q
        { s.obj q with state := .senderDead, locked := true }).free q := by
  unfold deadName at h
  simp only [Option.bind_eq_bind, Option.bind_eq_some_iff, Prod.exists] at h
  obtain ⟨s₁, found, hlookup, h⟩ := h
  rcases hashLookupLocked_spec hb hlookup with ⟨rfl, -, rfl⟩ | ⟨q, rfl, hq, hl, rfl⟩
  · exact .inl (Option.some.inj h).symm
  · simp only [put_obj_self] at h
    split_ifs at h with hstate
    simp only [Bool.and_eq_true, decide_eq_true_eq] at hstate
    refine .inr ⟨q, hq, hstate.1.1.1.1, ?_⟩
    rw [← Option.some.inj h]
    simp [hashRemove, State.hashRelease, State.put, bucket_eq hb]

/-- The state with a new object. -/
def State.added (s : State T) (o : Obj) : State T :=
  { s with
    next := s.next + 1
    obj := update s.obj s.next o
    heap := update s.heap o.name (some s.next)
    hash := update s.hash o.name (some s.next) }

omit [DecidableEq T] in
theorem create_spec (hb : ∀ b, s.bucket b = false) (h : create s o = some s') :
    s.heap o.name = none ∧ s' = s.added o := by
  unfold create hashEnter State.lockBucket at h
  split_ifs at h with hfree hbucket
  · cases h
  · refine ⟨hfree, ?_⟩
    rw [← Option.some.inj h]
    simp only [State.hashRelease, bucket_eq hb, State.added]

omit [DecidableEq T] in
theorem added_obj_self : (s.added o).obj s.next = o := update_self ..

omit [DecidableEq T] in
theorem added_obj_of_ne (hr : r ≠ s.next) : (s.added o).obj r = s.obj r := update_of_ne hr ..

omit [DecidableEq T] in
theorem added_map_of_ne {name : ℕ} {f : ℕ → Option ℕ} (hnone : f name = none) (hr : r ≠ s.next) :
    update f name (some s.next) port = some r ↔ f port = some r := by
  by_cases hport : port = name
  · rw [hport, hnone, update_self]
    exact iff_of_false (fun hcon => hr (Option.some.inj hcon).symm) nofun
  · rw [update_of_ne hport]

/-- What a call on an object from the hash table leaves as it is. -/
structure Kept (o o' : Obj) : Prop where
  name : o'.name = o.name
  seqno : o'.seqno = o.seqno
  dequeued : o'.dequeued = o.dequeued
  inSet : o'.inSet = o.inSet
  frees : o'.frees = o.frees
  derefs : o'.derefs = o.derefs
  state : o'.state = o.state ∨ o.state = .inactive ∧ o'.state = .active

theorem makeSend_kept {kr : Bool} (h : makeSend kr o = some o') : Kept o o' := by
  unfold makeSend at h
  split_ifs at h with hassert <;> cases h
  · exact ⟨rfl, rfl, rfl, rfl, rfl, rfl, .inl rfl⟩
  · exact ⟨rfl, rfl, rfl, rfl, rfl, rfl, .inl rfl⟩
  · refine ⟨rfl, rfl, rfl, rfl, rfl, rfl, ?_⟩
    simp only [Bool.and_eq_true, Bool.or_eq_true, decide_eq_true_eq] at hassert
    exact hassert.2.imp (fun ha => ha.symm) fun hi => ⟨hi, rfl⟩
  · exact ⟨rfl, rfl, rfl, rfl, rfl, rfl, .inl rfl⟩

theorem copySend_kept (h : copySend o = some o') : Kept o o' := by
  unfold copySend at h
  split_ifs at h <;> cases h <;> exact ⟨rfl, rfl, rfl, rfl, rfl, rfl, .inl rfl⟩

theorem sendLookup_kept (h : sendLookup o = some o') : Kept o o' := by
  unfold sendLookup at h
  split_ifs at h <;> cases h <;> exact ⟨rfl, rfl, rfl, rfl, rfl, rfl, .inl rfl⟩

end Specs

/-- The object is in the hash table as long as it lives. -/
def Status.isOpen : Status → Bool
  | .active | .inactive | .senderAlive => true
  | _ => false

/-- What only one thread has: a message of an object, or its shutdown. -/
def Pending.key : Pending → Option (ℕ × Option ℕ)
  | .message _ n _ q => some (q, some n)
  | .closing _ _ q => some (q, none)
  | _ => none

/-- What a thread may rely on in its phase. -/
def State.Backs (s : State T) : Pending → Prop
  | .message port n _ q => s.heap port = some q ∧ (s.obj q).seqno ≤ n ∧ n < (s.obj q).dequeued
  | .closing port n q => s.heap port = some q ∧ (s.obj q).state.isOpen = false ∧
      (s.obj q).dequeued = n
  | _ => True

structure Obj.Ok (o : Obj) : Prop where
  once : o.derefs = o.frees ∧ o.frees ≤ 1
  inSet : o.inSet = true → o.state = .active ∨ o.state = .inactive
  sender : o.state = .senderAlive → o.dequeued = 0
  seqno : o.seqno ≤ o.dequeued

structure Inv (s : State T) : Prop where
  buckets : ∀ b, s.bucket b = false
  live : ∀ port q, s.heap port = some q ↔ q < s.next ∧ (s.obj q).name = port ∧ (s.obj q).frees = 0
  hashed : ∀ port q, s.hash port = some q ↔ s.heap port = some q ∧ (s.obj q).state.isOpen = true
  objs : ∀ q, (s.obj q).Ok
  backed : ∀ t, s.Backs (s.thread t)
  keys : ∀ t u k, (s.thread t).key = some k → (s.thread u).key = some k → t = u

section Keeps

omit [DecidableEq T] in
theorem Inv.name_eq (h : Inv s) (hq : s.heap port = some q) : (s.obj q).name = port :=
  ((h.live port q).1 hq).2.1

omit [DecidableEq T] in
theorem Inv.of_message (h : Inv s) {n : ℕ} (hu : (s.thread u).key = some (q, some n)) :
    (s.obj q).seqno ≤ n ∧ n < (s.obj q).dequeued := by
  have hb := h.backed u
  rcases hth : s.thread u with _ | ⟨port, n, k, r⟩ | _ | ⟨port, n,
    r⟩ <;> rw [hth] at hu hb <;> cases hu
  exact hb.2

omit [DecidableEq T] in
theorem Inv.of_closing (h : Inv s) (hu : (s.thread u).key = some (q, none)) :
    (s.obj q).state.isOpen = false := by
  have hb := h.backed u
  rcases hth : s.thread u with _ | ⟨port, n, k, r⟩ | _ | ⟨port, n,
    r⟩ <;> rw [hth] at hu hb <;> cases hu
  exact hb.2.1

theorem Inv.goto (h : Inv s) (hp : s.Backs p) (hkey : ∀ u ≠ t, ∀ k, p.key = some k →
    (s.thread u).key ≠ some k) : Inv (s.goto t p) := by
  refine ⟨h.buckets, h.live, h.hashed, h.objs, fun u => ?_, fun u v k hu hv => ?_⟩
  · by_cases hut : u = t
    · rw [hut, goto_thread_self]
      exact hp
    · rw [goto_thread_of_ne hut]
      exact h.backed u
  · by_cases hut : u = t <;> by_cases hvt : v = t
    · rw [hut, hvt]
    · rw [hut, goto_thread_self] at hu
      rw [goto_thread_of_ne hvt] at hv
      exact absurd hv (hkey v hvt k hu)
    · rw [hvt, goto_thread_self] at hv
      rw [goto_thread_of_ne hut] at hu
      exact absurd hu (hkey u hut k hv)
    · rw [goto_thread_of_ne hut] at hu
      rw [goto_thread_of_ne hvt] at hv
      exact h.keys u v k hu hv

theorem Inv.rest (h : Inv s) (hp : p.key = none) : Inv (s.goto t p) := by
  refine h.goto ?_ fun u _ k hk => absurd (hp.symm.trans hk) nofun
  cases p with
  | idle | notified => trivial
  | message | closing => cases hp

omit [DecidableEq T] in
theorem Inv.change (h : Inv s) (q : ℕ) (hrest : s'.bucket = s.bucket ∧ s'.thread = s.thread)
    (hother : ∀ r, r ≠ q → s'.obj r = s.obj r ∧ (r < s'.next ↔ r < s.next) ∧
      ∀ port, (s'.heap port = some r ↔ s.heap port = some r) ∧
      (s'.hash port = some r ↔ s.hash port = some r))
    (hlive : ∀ port, s'.heap port = some q ↔ q < s'.next ∧ (s'.obj q).name = port ∧
    (s'.obj q).frees = 0)
    (hhash : ∀ port, s'.hash port = some q ↔ s'.heap port = some q ∧ (s'.obj q).state.isOpen = true)
    (hok : (s'.obj q).Ok) (hback : ∀ t x, (s.thread t).key = some (q, x) → s'.Backs (s.thread t)) :
    Inv s' := by
  refine ⟨hrest.1 ▸ h.buckets, fun port r => ?_, fun port r => ?_, fun r => ?_, fun t => ?_,
    hrest.2 ▸ h.keys⟩
  · by_cases hr : r = q
    · exact hr ▸ hlive port
    · obtain ⟨hobj, hnext, hmaps⟩ := hother r hr
      rw [(hmaps port).1, hnext, hobj, h.live]
  · by_cases hr : r = q
    · exact hr ▸ hhash port
    · obtain ⟨hobj, -, hmaps⟩ := hother r hr
      rw [(hmaps port).1, (hmaps port).2, hobj, h.hashed]
  · by_cases hr : r = q
    · exact hr ▸ hok
    · rw [(hother r hr).1]
      exact h.objs r
  · rw [hrest.2]
    have hb := h.backed t
    rcases hth : s.thread t with _ | ⟨port, n, k, r⟩ | _ | ⟨port, n, r⟩
    · trivial
    · by_cases hr : r = q
      · exact hth ▸ hback t (some n) (by rw [hth, ← hr]; rfl)
      · obtain ⟨hobj, -, hmaps⟩ := hother r hr
        rw [hth] at hb
        simpa only [State.Backs, hobj, hmaps] using hb
    · trivial
    · by_cases hr : r = q
      · exact hth ▸ hback t none (by rw [hth, ← hr]; rfl)
      · obtain ⟨hobj, -, hmaps⟩ := hother r hr
        rw [hth] at hb
        simpa only [State.Backs, hobj, hmaps] using hb

omit [DecidableEq T] in
theorem removed_hash {port' : ℕ} (h : update s.hash port none port' = some q) :
    port' ≠ port ∧ s.hash port' = some q := by
  by_cases hport : port' = port
  · rw [hport, update_self] at h
    cases h
  · rw [update_of_ne hport] at h
    exact ⟨hport, h⟩

omit [DecidableEq T] in
/-- A live object changes: it is in the hash table as long as it is open, no message is passed over,
and none is given out when it is not open. -/
theorem Inv.put (h : Inv s) (hash : ℕ → Option ℕ) (hq : s.heap (s.obj q).name = some q)
    (hname : o'.name = (s.obj q).name) (hfrees : o'.frees = (s.obj q).frees) (hok : o'.Ok)
    (hopen : o'.state.isOpen = true → (s.obj q).state.isOpen = true)
    (hhash : hash = if o'.state.isOpen = (s.obj q).state.isOpen then s.hash
      else update s.hash (s.obj q).name none)
    (hseq : o'.seqno = (s.obj q).seqno ∨
      o'.seqno = (s.obj q).seqno + 1 ∧ ∀ t, (s.thread t).key ≠ some (q, some (s.obj q).seqno))
    (hdeq : o'.dequeued = (s.obj q).dequeued ∨
      (s.obj q).dequeued ≤ o'.dequeued ∧ (s.obj q).state.isOpen = true) :
    Inv ({ s with hash := hash }.put q o') := by
  refine h.change q ⟨rfl, rfl⟩ (fun r hr => ⟨put_obj_of_ne hr, Iff.rfl, fun port => ⟨Iff.rfl, ?_⟩⟩)
    (fun port => ?_)
    (fun port => ?_) (by rwa [put_obj_self]) fun t x ht => ?_
  · change hash port = some r ↔ _
    rw [hhash]
    split_ifs
    · rfl
    · refine ⟨fun hcon => (removed_hash hcon).2, fun hcon => ?_⟩
      rw [update_of_ne (fun hport => hr ?_), hcon]
      exact Option.some.inj (((h.hashed _ r).1 (hport ▸ hcon)).1.symm.trans hq)
  · rw [put_obj_self, hname, hfrees]
    exact h.live port q
  · change hash port = some q ↔ _
    rw [put_obj_self, hhash]
    split_ifs with heq
    · rw [heq]
      exact h.hashed port q
    · have hclosed : o'.state.isOpen = false := by
        by_contra hno
        rw [Bool.not_eq_false] at hno
        exact heq (hno.trans (hopen hno).symm)
      refine iff_of_false (fun hcon => ?_) fun hcon => by simp [hclosed] at hcon
      obtain ⟨hport, hcon⟩ := removed_hash hcon
      exact hport (h.name_eq ((h.hashed port q).1 hcon).1).symm
  · have hb := h.backed t
    rcases hth : s.thread t with _ | ⟨port, n, k, r⟩ | _ | ⟨port, n,
      r⟩ <;> rw [hth] at ht hb <;> cases ht
    · simp only [State.Backs, put_obj_self]
      refine ⟨hb.1, ?_, ?_⟩
      · rcases hseq with hseq | ⟨hseq, hno⟩
        · exact hseq ▸ hb.2.1
        · have hne : (s.obj q).seqno ≠ n := fun heq => hno t (by rw [hth, heq]; rfl)
          exact hseq ▸ Nat.lt_of_le_of_ne hb.2.1 hne
      · rcases hdeq with hdeq | ⟨hdeq, -⟩
        · exact hdeq ▸ hb.2.2
        · exact Nat.lt_of_lt_of_le hb.2.2 hdeq
    · simp only [State.Backs, put_obj_self]
      refine ⟨hb.1, ?_, ?_⟩
      · by_contra hno
        rw [Bool.not_eq_false] at hno
        exact absurd (hopen hno) (by simp [hb.2.1])
      · rcases hdeq with hdeq | ⟨-, hopen⟩
        · exact hdeq.trans hb.2.2
        · exact absurd hopen (by simp [hb.2.1])

omit [DecidableEq T] in
theorem free_obj_of_ne (hr : r ≠ q) : (s.free q).obj r = s.obj r := update_of_ne hr ..

section

variable (h : Inv s)
include h

omit [DecidableEq T] in
theorem Inv.free (hq : s.heap (s.obj q).name = some q) (hclosed : (s.obj q).state.isOpen = false)
    (hnone : ∀ t x, (s.thread t).key ≠ some (q, x)) : Inv (s.free q) := by
  have hfrees := ((h.live _ _).1 hq).2.2
  have hself : (s.free q).obj q = { s.obj q with
    frees := (s.obj q).frees + 1
    derefs := (s.obj q).derefs + 1 } :=
    update_self ..
  have hheap : ∀ port, (s.free q).heap port ≠ some q := fun port hcon => by
    by_cases hport : port = (s.obj q).name
    · simp [State.free, hport] at hcon
    · simp only [State.free, update_of_ne hport] at hcon
      exact hport (h.name_eq hcon).symm
  refine h.change q ⟨rfl, rfl⟩ (fun r hr => ⟨free_obj_of_ne hr, Iff.rfl, fun port => ⟨?_, Iff.rfl⟩⟩)
    (fun port => ?_)
    (fun port => ?_) ?_ fun t x ht => absurd ht (hnone t x)
  · by_cases hport : port = (s.obj q).name
    · refine iff_of_false (by simp [State.free, hport]) fun hcon => hr ?_
      exact Option.some.inj ((hport ▸ hcon).symm.trans hq)
    · simp only [State.free, update_of_ne hport]
  · refine iff_of_false (hheap port) fun hcon => ?_
    rw [hself] at hcon
    exact absurd hcon.2.2 (by simp)
  · refine iff_of_false (fun hcon => ?_) fun hcon => hheap port hcon.1
    exact absurd ((h.hashed port q).1 hcon).2 (by simp [hclosed])
  · rw [hself]
    have hok := h.objs q
    exact ⟨⟨by simp [hok.once.1], by simp [hfrees]⟩, hok.inSet, hok.sender, hok.seqno⟩

omit [DecidableEq T] in
theorem Inv.create (hs : create s o = some s') (hok : o.Ok) (hfrees : o.frees = 0)
    (hopen : o.state.isOpen = true) : Inv s' := by
  obtain ⟨hfree, rfl⟩ := create_spec h.buckets hs
  have hnew : ∀ port, s.heap port ≠ some s.next :=
    fun port hcon => Nat.lt_irrefl _ ((h.live port _).1 hcon).1
  have hnohash : s.hash o.name = none := by
    by_contra hsome
    obtain ⟨r, hr⟩ := Option.ne_none_iff_exists'.1 hsome
    rw [((h.hashed _ r).1 hr).1] at hfree
    cases hfree
  refine h.change s.next ⟨rfl, rfl⟩ (fun r hr => ⟨added_obj_of_ne hr, ?_,
    fun port => ⟨added_map_of_ne hfree hr,
    added_map_of_ne hnohash hr⟩⟩) (fun port => ?_) (fun port => ?_) (by rwa [added_obj_self]) fun t
    x ht => ?_
  · exact ⟨fun hlt => Nat.lt_of_le_of_ne (Nat.le_of_lt_succ hlt) hr, Nat.lt_succ_of_lt⟩
  · simp only [State.added, update_apply, if_true]
    split_ifs with hport
    · exact iff_of_true rfl ⟨Nat.lt_succ_self _, hport.symm, hfrees⟩
    · exact iff_of_false (hnew port) fun hcon => hport hcon.2.1.symm
  · simp only [State.added, update_apply, if_true]
    split_ifs with hport
    · exact iff_of_true rfl ⟨rfl, hopen⟩
    · exact iff_of_false (fun hcon => hnew port ((h.hashed port _).1 hcon).1) fun hcon =>
        hnew port hcon.1
  · have hb := h.backed t
    rcases hth : s.thread t with _ | ⟨port, n, k, r⟩ | _ | ⟨port, n,
      r⟩ <;> rw [hth] at ht hb <;> cases ht
    · exact absurd hb.1 (hnew port)
    · exact absurd hb.1 (hnew port)

omit [DecidableEq T] in
theorem Inv.of_hash (hq : s.hash port = some q) :
    s.heap (s.obj q).name = some q ∧ (s.obj q).name = port ∧ (s.obj q).state.isOpen = true := by
  obtain ⟨hheap, hopen⟩ := (h.hashed port q).1 hq
  have hname := h.name_eq hheap
  exact ⟨hname ▸ hheap, hname, hopen⟩

omit [DecidableEq T] in
theorem Inv.withObject (hf : ∀ o o', f o = some o' → Kept o o')
    (hs : withObject s port f = some s') : Inv s' := by
  obtain rfl | ⟨q, o, hq, -, ho, rfl⟩ := withObject_spec h.buckets hs
  · exact h
  obtain ⟨hheap, -, -⟩ := h.of_hash hq
  have hk := hf _ _ ho
  have hok := h.objs q
  have hstate : o.state.isOpen = (s.obj q).state.isOpen := by
    rcases hk.state with heq | ⟨hi, ha⟩
    · rw [heq]
    · rw [ha, show (s.obj q).state = _ from hi]
      rfl
  refine h.put s.hash hheap hk.name hk.frees ⟨?_, fun hset => ?_, fun hsend => ?_,
    ?_⟩ (fun hopen => hstate ▸ hopen)
    (if_pos hstate).symm (.inl hk.seqno) (.inl hk.dequeued)
  · exact ⟨hk.derefs.trans (hok.once.1.trans hk.frees.symm), hk.frees ▸ hok.once.2⟩
  · rcases hk.state with heq | ⟨-, ha⟩
    · exact heq ▸ hok.inSet (hk.inSet ▸ hset)
    · exact .inl ha
  · rcases hk.state with heq | ⟨-, ha⟩
    · exact hk.dequeued.trans (hok.sender (heq ▸ hsend))
    · exact absurd (ha.symm.trans hsend) nofun
  · exact hk.seqno ▸ hk.dequeued ▸ hok.seqno

theorem Inv.dequeue {k : Option ℕ} (hs : step s (.dequeue t q k) = some s') : Inv s' := by
  simp only [step, PortObject.dequeue] at hs
  split_ifs at hs with hif
  obtain ⟨hlt, hfrees, hset⟩ := hif
  have hok := h.objs q
  have hheap : s.heap (s.obj q).name = some q := (h.live _ _).2 ⟨hlt, rfl, hfrees⟩
  have hopen : (s.obj q).state.isOpen = true := by
    rcases hok.inSet hset with ha | hi
    · rw [ha]; rfl
    · rw [hi]; rfl
  split at hs
  · cases hs
    have hput : Inv (s.put q { s.obj q with dequeued := (s.obj q).dequeued + 1 }) := by
      refine h.put s.hash hheap rfl rfl ⟨hok.once, hok.inSet, fun hsend => ?_,
        Nat.le_succ_of_le hok.seqno⟩ id
        (if_pos rfl).symm (.inl rfl) (.inr ⟨Nat.le_succ _, hopen⟩)
      rcases hok.inSet hset with ha | hi
      · exact absurd (ha.symm.trans hsend) nofun
      · exact absurd (hi.symm.trans hsend) nofun
    refine hput.goto ⟨hheap, ?_, ?_⟩ fun u _ key hkey hu => ?_
    · rw [put_obj_self]
      exact hok.seqno
    · rw [put_obj_self]
      exact Nat.lt_succ_self _
    · -- the numbers given out before are smaller
      cases hkey
      exact Nat.lt_irrefl _ (h.of_message hu).2
  · cases hs

theorem Inv.handle (hs : handle s t = some s') : Inv s' := by
  obtain ⟨port, n, k, id, q, hth, hq, -, hn, state, locked, p, rfl, hcases⟩ := handle_spec hs
  have hb := h.backed t
  rw [hth] at hb
  obtain rfl : id = q := Option.some.inj (hb.1.symm.trans hq)
  have hok := h.objs id
  have hkey : p.key = none := by
    rcases hcases with ⟨-, -, rfl, -⟩ | ⟨-, -, -, rfl⟩ | ⟨m, -, -,
      ⟨-, -, rfl, -⟩ | ⟨-, -, rfl, -⟩⟩ <;> rfl
  have hstate : state.isOpen = (s.obj id).state.isOpen := by
    rcases hcases with ⟨rfl, -⟩ | ⟨hst, rfl, -⟩ | ⟨m, -, hst, ⟨rfl, -⟩ | ⟨rfl, -⟩⟩
    · rfl
    all_goals rw [hst]
    all_goals rfl
  have hset : (s.obj id).inSet = true → state = .active ∨ state = .inactive := fun hset => by
    rcases hcases with ⟨rfl, -⟩ | ⟨hst, rfl, -⟩ | ⟨m, -, hst, ⟨rfl, -⟩ | ⟨rfl, -⟩⟩
    · exact hok.inSet hset
    · rcases hok.inSet hset with ha | hi
      · exact absurd (hst.symm.trans ha) nofun
      · exact absurd (hst.symm.trans hi) nofun
    · exact .inl rfl
    · exact .inr rfl
  have hsend : state = .senderAlive → (s.obj id).dequeued = 0 := fun hsend => by
    rcases hcases with ⟨rfl, -⟩ | ⟨-, rfl, -⟩ | ⟨m, -, -, ⟨rfl, -⟩ | ⟨rfl, -⟩⟩
    · exact hok.sender hsend
    all_goals cases hsend
  have hheap : s.heap (s.obj id).name = some id := (h.name_eq hq).symm ▸ hq
  refine (h.rest (t := t) hkey).put s.hash hheap rfl rfl ⟨hok.once, hset, hsend,
    ?_⟩ (fun hopen => hstate ▸ hopen)
    (if_pos hstate).symm (.inr ⟨congrArg (· + 1) hn.symm, fun u hu => ?_⟩) (.inl rfl)
  · exact hb.2.2
  · by_cases hut : u = t
    · rw [hut, goto_thread_self, hkey] at hu
      cases hu
    · rw [goto_thread_of_ne hut] at hu
      refine hut (h.keys u t _ hu ?_)
      rw [hth]
      exact congrArg (fun m => some (id, some m)) hn.symm

theorem Inv.beginShutdown (hs : beginShutdown s t port force = some s') : Inv s' := by
  obtain ⟨rfl, -⟩ | ⟨q, hq, -, hstate, rfl⟩ := beginShutdown_spec h.buckets hs
  · exact h.rest rfl
  obtain ⟨hheap, hname, hopen⟩ := h.of_hash hq
  have hok := h.objs q
  have hclosed : (s.obj q).state.closed.isOpen = false := by
    unfold Status.closed
    split_ifs <;> rfl
  have hput : Inv ({ s with hash := update s.hash port none }.put q
      { s.obj q with inSet := false, state := (s.obj q).state.closed, locked := false }) := by
    refine h.put _ hheap rfl rfl ⟨hok.once, nofun, fun hsend => ?_,
      hok.seqno⟩ (fun hcon => ?_) ?_ (.inl rfl) (.inl rfl)
    · rw [show (s.obj q).state.closed = _ from hsend] at hclosed
      cases hclosed
    · exact absurd (hclosed.symm.trans hcon) nofun
    · rw [if_neg (by rw [hopen]; exact fun hcon => absurd (hclosed.symm.trans hcon) nofun), hname]
  refine hput.goto ⟨hname ▸ hheap, ?_, ?_⟩ fun u _ key hkey hu => ?_
  · rw [put_obj_self]
    exact hclosed
  · rw [put_obj_self]
  · -- nobody else shuts it down, since it was open
    cases hkey
    exact absurd (hopen.symm.trans (h.of_closing hu)) nofun

theorem Inv.finish (hs : finish s t = some s') : Inv s' := by
  obtain ⟨port, n, id, q, hth, hq, -, hn, ⟨hdead, rfl⟩ | ⟨-, rfl⟩⟩ := finish_spec hs
  swap
  · exact h.rest rfl
  have hb := h.backed t
  rw [hth] at hb
  obtain rfl : id = q := Option.some.inj (hb.1.symm.trans hq)
  have hok := h.objs id
  have hheap : s.heap (s.obj id).name = some id := (h.name_eq hq).symm ▸ hq
  have hlock : Inv ((s.goto t .idle).put id { s.obj id with locked := true }) :=
    (h.rest rfl).put s.hash hheap rfl rfl ⟨hok.once, hok.inSet, hok.sender,
      hok.seqno⟩ (fun ho => ho) (if_pos rfl).symm (.inl rfl)
      (.inl rfl)
  refine hlock.free ?_ ?_ fun u x hu => ?_
  · rw [put_obj_self]
    exact hheap
  · rw [put_obj_self]
    exact hb.2.1
  · change ((s.goto t .idle).thread u).key = _ at hu
    by_cases hut : u = t
    · rw [hut, goto_thread_self] at hu
      cases hu
    · rw [goto_thread_of_ne hut] at hu
      rcases x with _ | n'
      · exact hut (h.keys u t (id, none) hu (by rw [hth]; rfl))
      · -- every message that was given out is handled
        have := h.of_message hu
        have := hb.2.2
        omega

omit [DecidableEq T] in
theorem Inv.deadName (hs : deadName s port = some s') : Inv s' := by
  obtain rfl | ⟨q, hq, hstate, rfl⟩ := deadName_spec h.buckets hs
  · exact h
  obtain ⟨hheap, hname, hopen⟩ := h.of_hash hq
  have hok := h.objs q
  have hput : Inv ({ s with hash := update s.hash port none }.put q
      { s.obj q with state := .senderDead, locked := true }) := by
    refine h.put _ hheap rfl rfl ⟨hok.once, fun hset => ?_, nofun, hok.seqno⟩ nofun ?_ (.inl rfl)
      (.inl rfl)
    · rcases hok.inSet hset with ha | hi
      · exact absurd (hstate.symm.trans ha) nofun
      · exact absurd (hstate.symm.trans hi) nofun
    · rw [if_neg (by rw [hopen]; nofun), hname]
  refine hput.free ?_ ?_ fun u x hu => ?_
  · rw [put_obj_self]
    exact hheap
  · rw [put_obj_self]
    rfl
  · rcases x with _ | n
    · exact absurd (hopen.symm.trans (h.of_closing hu)) nofun
    · exact Nat.not_lt_zero _ (hok.sender hstate ▸ (h.of_message hu).2)

theorem Inv.of_step (hs : step s a = some s') : Inv s' := by
  cases a with
  | allocateReceive port type =>
    refine h.create hs ⟨⟨rfl, Nat.zero_le _⟩, fun _ => ?_, fun hsend => ?_, Nat.le_refl _⟩ rfl ?_
    · simp only
      split_ifs
      · exact .inr rfl
      · exact .inl rfl
    · rfl
    · simp only
      split_ifs <;> rfl
  | enterSend port type => exact h.create hs ⟨⟨rfl, Nat.zero_le _⟩,
      nofun, fun _ => rfl, Nat.le_refl _⟩ rfl rfl
  | makeSend port kr => exact h.withObject (fun _ _ => makeSend_kept) hs
  | copySend port => exact h.withObject (fun _ _ => copySend_kept) hs
  | sendLookup port => exact h.withObject (fun _ _ => sendLookup_kept) hs
  | deadName name => exact h.deadName hs
  | dequeue t q k => exact h.dequeue hs
  | handle t => exact h.handle hs
  | shutdown t port force =>
    simp only [step] at hs
    split at hs
    · exact h.beginShutdown hs
    · cases hs
  | shutdownNotified t =>
    simp only [step] at hs
    split at hs
    · exact h.beginShutdown hs
    · cases hs
  | finish t => exact h.finish hs

end

end Keeps

omit [DecidableEq T] in
theorem inv_init : Inv (init : State T) :=
  ⟨fun _ => rfl, fun _ _ => iff_of_false nofun fun h => Nat.not_lt_zero _ h.1,
    fun _ _ => iff_of_false nofun nofun,
    fun _ => ⟨⟨rfl, Nat.zero_le _⟩, nofun, nofun, Nat.le_refl _⟩, fun _ => trivial, nofun⟩

theorem Reached.inv {C : State T → Act T → Prop} (h : Reached C s) : Inv s := by
  induction h with
  | init => exact inv_init
  | step a _ _ hs ih => exact ih.of_step hs

section Reclamation

/-- What a thread can get at is an object that has not been freed, and none is freed or lets go of
what it stands for twice. -/
structure Safe (s : State T) : Prop where
  message : ∀ t port n k q, s.thread t = .message port n k q → s.heap port = some q
  closing : ∀ t port n q, s.thread t = .closing port n q → s.heap port = some q
  hashed : ∀ port q, s.hash port = some q → s.heap port = some q
  live : ∀ port q, s.heap port = some q → (s.obj q).frees = 0
  once : ∀ q, (s.obj q).frees ≤ 1 ∧ (s.obj q).derefs ≤ 1

omit [DecidableEq T] in
theorem Inv.safe (h : Inv s) : Safe s := by
  refine ⟨fun t port n k q hth => ?_, fun t port n q hth => ?_,
    fun port q hq => ((h.hashed port q).1 hq).1,
    fun port q hq => ((h.live port q).1 hq).2.2, fun q => ⟨(h.objs q).once.2, ?_⟩⟩
  · have hb := h.backed t
    rw [hth] at hb
    exact hb.1
  · have hb := h.backed t
    rw [hth] at hb
    exact hb.1
  · rw [(h.objs q).once.1]
    exact (h.objs q).once.2

/-- What the name of a notification leads to. -/
def Own (s : State T) : Prop := ∀ t port id q, s.thread t = .notified port id →
    s.hash port = some q → q = id

omit [DecidableEq T] in
/-- Entries of the table only go, and the thread that changes its phase has no notification of its
own. -/
theorem Own.mono (h : Own s) (hhash : ∀ port q, s'.hash port = some q → s.hash port = some q)
    (hth : ∀ u port id, s'.thread u = .notified port id → s.thread u = .notified port id) :
    Own s' :=
  fun u port id q hu hq => h u port id q (hth u port id hu) (hhash port q hq)

theorem goto_notified {id : ℕ} (hp : ∀ port id, p ≠ .notified port id)
    (hu : (s.goto t p).thread u = .notified port id) : s.thread u = .notified port id := by
  by_cases hut : u = t
  · rw [hut, goto_thread_self] at hu
    exact absurd hu (hp port id)
  · rwa [goto_thread_of_ne hut] at hu

omit [DecidableEq T] in
theorem Own.create (h : Own s) (hi : Inv s) (hs : create s o = some s')
    (hspare : ∀ t id, s.thread t ≠ .notified o.name id) : Own s' := by
  obtain ⟨-, rfl⟩ := create_spec hi.buckets hs
  intro u port id q hu hq
  have hport : port ≠ o.name := fun heq => hspare u id (heq ▸ hu)
  exact h u port id q hu ((update_of_ne hport ..).symm.trans hq)

omit [DecidableEq T] in
theorem Own.withObject (h : Own s) (hi : Inv s) (hs : withObject s port f = some s') : Own s' := by
  obtain rfl | ⟨q, o, -, -, -, rfl⟩ := withObject_spec hi.buckets hs
  · exact h
  · exact h

theorem Own.beginShutdown (h : Own s) (hi : Inv s) (hs : beginShutdown s t port force = some s') :
    Own s' := by
  obtain ⟨rfl, -⟩ | ⟨q, -, -, -, rfl⟩ := beginShutdown_spec hi.buckets hs
  · exact h.mono (fun _ _ => id) fun _ _ _ => goto_notified nofun
  · exact h.mono (fun _ _ hq => (removed_hash hq).2) fun _ _ _ => goto_notified nofun

theorem Own.of_step (h : Own s) (hi : Inv s) (hc : a.sparing s) (hs : step s a = some s') :
    Own s' := by
  cases a with
  | allocateReceive port type | enterSend port type => exact h.create hi hs hc
  | makeSend port kr | copySend port | sendLookup port => exact h.withObject hi hs
  | deadName name =>
    obtain rfl | ⟨q, -, -, rfl⟩ := deadName_spec hi.buckets hs
    · exact h
    · exact h.mono (fun _ _ hq => (removed_hash hq).2) fun _ _ _ => id
  | dequeue t q k =>
    simp only [step, dequeue] at hs
    split_ifs at hs
    split at hs
    · cases hs
      exact h.mono (fun _ _ => id) fun _ _ _ => goto_notified nofun
    · cases hs
  | handle t =>
    obtain ⟨port, n, k, id, q, hth, hq, -, -, state, locked, p, rfl, hcases⟩ := handle_spec hs
    have hb := hi.backed t
    rw [hth] at hb
    intro u port' id' r hu hr
    by_cases hut : u = t
    · -- the object of the message is there
      rw [hut, goto_thread_self] at hu
      rcases hcases with ⟨-, -, rfl, -⟩ | ⟨-, -, -, rfl⟩ | ⟨m, -, -,
        ⟨-, -, rfl, -⟩ | ⟨-, -, rfl, -⟩⟩ <;> cases hu
      exact Option.some.inj (((hi.hashed port r).1 hr).1.symm.trans hb.1)
    · rw [goto_thread_of_ne hut] at hu
      exact h u port' id' r hu hr
  | shutdown t port force =>
    simp only [step] at hs
    split at hs
    · exact h.beginShutdown hi hs
    · cases hs
  | shutdownNotified t =>
    simp only [step] at hs
    split at hs
    · exact h.beginShutdown hi hs
    · cases hs
  | finish t =>
    obtain ⟨port, n, id, q, -, -, -, -, ⟨-, rfl⟩ | ⟨-, rfl⟩⟩ := finish_spec hs
    · exact h.mono (fun _ _ => fun hq => hq) fun _ _ _ => goto_notified nofun
    · exact h.mono (fun _ _ => fun hq => hq) fun _ _ _ => goto_notified nofun

theorem Reached.own (h : Reached Act.sparing s) : Own s := by
  induction h with
  | init => exact nofun
  | step a h hc hs ih => exact ih.of_step h.inv hc hs

/-- The shutdown of a notification takes down what it finds under the name, unless that is
active. -/
theorem notified_closing {id : ℕ} (h : Inv s) (hth : s.thread t = .notified port id)
    (hs : step s (.shutdownNotified t) = some s') (q : ℕ) :
    (∃ n, s'.thread t = .closing port n q) ↔ s.hash port = some q ∧ (s.obj q).state ≠ .active := by
  simp only [step, hth] at hs
  obtain ⟨rfl, hactive⟩ | ⟨r, hr, -, hstate, rfl⟩ := beginShutdown_spec h.buckets hs
  · simp only [goto_thread_self]
    exact iff_of_false (fun ⟨_, hcon⟩ => nomatch hcon) fun hq => hq.2 (hactive q hq.1)
  · simp only [goto_thread_self]
    have hinactive := hstate.resolve_left fun hforce => nomatch hforce.2
    constructor
    · rintro ⟨n, hcon⟩
      cases hcon
      exact ⟨hr, hinactive ▸ nofun⟩
    · rintro ⟨hq, -⟩
      obtain rfl := Option.some.inj (hr.symm.trans hq)
      exact ⟨_, rfl⟩

/-- In every run no object is got at once it is freed, nor freed twice; and the shutdown that a
notification issues is for the object of the notification as long as no object is made under the
name in between. -/
theorem reclamation_safe (s : State T) :
    (Reached (fun _ _ => True) s → Safe s ∧
      ∀ t port id s', s.thread t = .notified port id → step s (.shutdownNotified t) = some s' →
        ((∀ n q, s'.thread t = .closing port n q → q = id) ↔
          ∀ q, s.hash port = some q → (s.obj q).state ≠ .active → q = id)) ∧
    (Reached Act.sparing s →
      ∀ t port id s', s.thread t = .notified port id → step s (.shutdownNotified t) = some s' →
        ∀ n q, s'.thread t = .closing port n q → q = id) := by
  refine ⟨fun h =>
    ⟨h.inv.safe, fun t port id s' hth hs => ⟨fun hq q hhash hstate => ?_, fun hq n q hclose => ?_⟩⟩,
    fun h t port id s' hth hs n q hclose => ?_⟩
  · obtain ⟨n, hn⟩ := (notified_closing h.inv hth hs q).2 ⟨hhash, hstate⟩
    exact hq n q hn
  · obtain ⟨hhash, hstate⟩ := (notified_closing h.inv hth hs q).1 ⟨n, hclose⟩
    exact hq q hhash hstate
  · exact h.own t port id q hth ((notified_closing h.inv hth hs q).1 ⟨n, hclose⟩).1

theorem reclamation_safe_notified : ∃ s s' : State Unit, Reached Act.sparing s ∧
    s.thread () = .notified 64 0 ∧
    step s (.shutdownNotified ()) = some s' ∧ ∀ n q, s'.thread () = .closing 64 n q → q = 0 := by
  have h₀ : Reached Act.sparing (init : State Unit) := .init
  have h₁ := h₀.step (.allocateReceive 64 .process) nofun rfl
  have h₂ := h₁.step (.makeSend 64 false) trivial rfl
  have h₃ := h₂.step (.dequeue () 0 (some 1)) trivial rfl
  have h₄ := h₃.step (.handle ()) trivial rfl
  exact ⟨_, _, h₄, rfl, rfl, (reclamation_safe _).2 h₄ () 64 0 _ rfl rfl⟩

/-- A handler has deactivated an object; before it goes on another thread shuts the object down, and
the address is used again: the new object is shut down and freed. -/
theorem notification_destroys_other :
    ((run (init : State Bool) [.allocateReceive 64 .process, .makeSend 64 false,
    .dequeue true 0 (some 1), .handle true,
        .shutdown false 64 true, .finish false, .allocateReceive 64 .process]).map fun s =>
      s.thread true) = some (.notified 64 0) ∧
    ((run (init : State Bool) [.allocateReceive 64 .process, .makeSend 64 false,
    .dequeue true 0 (some 1), .handle true,
        .shutdown false 64 true, .finish false, .allocateReceive 64 .process,
      .shutdownNotified true]).map fun s => s.thread true) = some (.closing 64 0 1) :=
  ⟨rfl, rfl⟩

end Reclamation

section Balance

/-- Objects that live are unlocked, those that were shut down wait for a thread, and messages that
were given out are with a thread. -/
structure Books (s : State T) : Prop where
  unlocked : ∀ port q, s.heap port = some q → (s.obj q).locked = false
  pending : ∀ port q, s.heap port = some q → (s.obj q).state.isOpen = false → ∃ t,
    (s.thread t).key = some (q, none)
  counted : ∀ port q n, s.heap port = some q → (s.obj q).seqno ≤ n → n < (s.obj q).dequeued →
    ∃ t, (s.thread t).key = some (q, some n)

omit [DecidableEq T] in
theorem Books.update (h : Books s) (q : ℕ)
    (hother : ∀ port r, r ≠ q → s'.heap port = some r → s.heap port = some r ∧ s'.obj r = s.obj r)
    (hkeys : ∀ u k, k.1 ≠ q → (s.thread u).key = some k → (s'.thread u).key = some k)
    (hq : ∀ port, s'.heap port = some q → (s'.obj q).locked = false ∧
      ((s'.obj q).state.isOpen = false → ∃ t, (s'.thread t).key = some (q, none)) ∧
      ∀ n, (s'.obj q).seqno ≤ n → n < (s'.obj q).dequeued → ∃ t,
    (s'.thread t).key = some (q, some n)) : Books s' := by
  refine ⟨fun port r hr => ?_, fun port r hr hclosed => ?_, fun port r n hr hle hlt => ?_⟩
  all_goals
    by_cases hrq : r = q
    · subst hrq
      first
      | exact (hq port hr).1
      | exact (hq port hr).2.1 hclosed
      | exact (hq port hr).2.2 n hle hlt
    obtain ⟨hheap, hobj⟩ := hother port r hrq hr
  · rw [hobj]
    exact h.unlocked port r hheap
  · rw [hobj] at hclosed
    obtain ⟨t, ht⟩ := h.pending port r hheap hclosed
    exact ⟨t, hkeys t _ hrq ht⟩
  · rw [hobj] at hle hlt
    obtain ⟨t, ht⟩ := h.counted port r n hheap hle hlt
    exact ⟨t, hkeys t _ hrq ht⟩

theorem goto_key (hnone : (s.thread t).key = none) {k : ℕ × Option ℕ}
    (hu : (s.thread u).key = some k) : ((s.goto t p).thread u).key = some k := by
  have hut : u ≠ t := fun heq => by
    rw [heq, hnone] at hu
    cases hu
  rwa [goto_thread_of_ne hut]

variable (h : Inv s) (hb : Books s)

include h hb

omit [DecidableEq T] in
theorem Books.create (hs : create s o = some s') (hl : o.locked = false)
    (hopen : o.state.isOpen = true) (hd : o.dequeued = 0) : Books s' := by
  obtain ⟨hfree, rfl⟩ := create_spec h.buckets hs
  refine hb.update s.next (fun port r hr hheap => ⟨(added_map_of_ne hfree hr).1 hheap,
    added_obj_of_ne hr⟩)
    (fun _ _ _ => id) fun port _ => ?_
  rw [added_obj_self]
  exact ⟨hl, fun hclosed => absurd (hopen.symm.trans hclosed) nofun,
    fun n _ hlt => absurd (hd ▸ hlt) (Nat.not_lt_zero n)⟩

omit [DecidableEq T] in
theorem Books.withObject (hf : ∀ o o', f o = some o' → Kept o o')
    (hs : withObject s port f = some s') : Books s' := by
  obtain rfl | ⟨q, o, hq, -, ho, rfl⟩ := withObject_spec h.buckets hs
  · exact hb
  have hk := hf _ _ ho
  obtain ⟨hheap, -, hopen⟩ := h.of_hash hq
  refine hb.update q (fun port r hr hheap => ⟨hheap, put_obj_of_ne hr⟩)
    (fun _ _ _ => id) fun port _ => ?_
  rw [put_obj_self]
  refine ⟨rfl, fun hclosed => ?_, fun n hle hlt => ?_⟩
  · rcases hk.state with heq | ⟨-, ha⟩
    · change o.state.isOpen = false at hclosed
      rw [heq] at hclosed
      exact absurd (hopen.symm.trans hclosed) nofun
    · rw [show o.state = _ from ha] at hclosed
      cases hclosed
  · exact hb.counted _ q n hheap (hk.seqno ▸ hle) (hk.dequeued ▸ hlt)

omit [DecidableEq T] in
theorem Books.gone (q : ℕ)
    (hheap : s'.heap = Function.update s.heap (s.obj q).name none)
    (hobj : ∀ r, r ≠ q → s'.obj r = s.obj r)
    (hkeys : ∀ u k, k.1 ≠ q → (s.thread u).key = some k → (s'.thread u).key = some k) :
    Books s' := by
  refine hb.update q (fun port r hr hcon => ⟨?_, hobj r hr⟩) hkeys fun port hcon => ?_
  · rw [hheap] at hcon
    by_cases hport : port = (s.obj q).name
    · rw [hport, update_self] at hcon
      cases hcon
    · rwa [update_of_ne hport] at hcon
  · rw [hheap] at hcon
    by_cases hport : port = (s.obj q).name
    · rw [hport, update_self] at hcon
      cases hcon
    · rw [update_of_ne hport] at hcon
      exact absurd (h.name_eq hcon).symm hport

omit [DecidableEq T] in
theorem Books.deadName (hs : deadName s port = some s') : Books s' := by
  obtain rfl | ⟨q, -, -, rfl⟩ := deadName_spec h.buckets hs
  · exact hb
  · refine hb.gone h q ?_ (fun r hr => ?_) fun _ _ _ => id
    · simp only [State.free, put_obj_self]
      rfl
    · rw [free_obj_of_ne hr, put_obj_of_ne hr]

theorem Books.dequeue {k : Option ℕ} (hs : step s (.dequeue t q k) = some s') : Books s' := by
  simp only [step, PortObject.dequeue] at hs
  split_ifs at hs with hif
  split at hs
  · rename_i hidle
    cases hs
    have hheap : s.heap (s.obj q).name = some q := (h.live _ _).2 ⟨hif.1, rfl, hif.2.1⟩
    have hnone : (s.thread t).key = none := by rw [hidle]; rfl
    refine hb.update q (fun port r hr hheap => ⟨hheap, put_obj_of_ne hr⟩)
      (fun u k' _ => goto_key hnone) fun port _ => ?_
    rw [goto_obj, put_obj_self]
    refine ⟨hb.unlocked _ q hheap, fun hclosed => ?_, fun n hle hlt => ?_⟩
    · obtain ⟨u, hu⟩ := hb.pending _ q hheap hclosed
      exact ⟨u, goto_key hnone hu⟩
    · rcases Nat.lt_succ_iff_lt_or_eq.1 hlt with hlt | rfl
      · obtain ⟨u, hu⟩ := hb.counted _ q n hheap hle hlt
        exact ⟨u, goto_key hnone hu⟩
      · exact ⟨t, by rw [goto_thread_self]; rfl⟩
  · cases hs

theorem Books.beginShutdown (hnone : (s.thread t).key = none)
    (hs : beginShutdown s t port force = some s') : Books s' := by
  obtain ⟨rfl, -⟩ | ⟨q, hq, -, -, rfl⟩ := beginShutdown_spec h.buckets hs
  · refine ⟨hb.unlocked, fun port q hq hclosed => ?_, fun port q n hq hle hlt => ?_⟩
    · obtain ⟨u, hu⟩ := hb.pending port q hq hclosed
      exact ⟨u, goto_key hnone hu⟩
    · obtain ⟨u, hu⟩ := hb.counted port q n hq hle hlt
      exact ⟨u, goto_key hnone hu⟩
  · obtain ⟨hheap, -, -⟩ := h.of_hash hq
    refine hb.update q (fun port r hr hheap => ⟨hheap, put_obj_of_ne hr⟩)
      (fun u k _ => goto_key hnone) fun port _ => ?_
    rw [goto_obj, put_obj_self]
    refine ⟨rfl, fun _ => ⟨t, by rw [goto_thread_self]; rfl⟩, fun n hle hlt => ?_⟩
    obtain ⟨u, hu⟩ := hb.counted _ q n hheap hle hlt
    exact ⟨u, goto_key hnone hu⟩

theorem Books.handle (hs : handle s t = some s') : Books s' ↔ (Act.handle t).balanced s := by
  obtain ⟨port, n, k, id, q, hth, hq, -, hn, state, locked, p, rfl, hcases⟩ := handle_spec hs
  have hback := h.backed t
  rw [hth] at hback
  obtain rfl : id = q := Option.some.inj (hback.1.symm.trans hq)
  have hkey : (s.thread t).key = some (id, some n) := by rw [hth]; rfl
  have hkeep : ∀ u k', k' ≠ (id, some n) → (s.thread u).key = some k' →
    ((s.goto t p).thread u).key = some k' := by
    intro u k' hne hu
    have hut : u ≠ t := fun heq => hne (Option.some.inj (hu.symm.trans (heq ▸ hkey)))
    rwa [goto_thread_of_ne hut]
  have hbooks : locked = false → Books ((s.put id
      { s.obj id with seqno := n + 1, state := state, locked := locked }).goto t p) := by
    intro hl
    refine hb.update id (fun port r hr hheap => ⟨hheap, put_obj_of_ne hr⟩)
      (fun u k' hne => hkeep u k' fun heq => hne (heq ▸ rfl)) fun port' _ => ?_
    rw [goto_obj, put_obj_self]
    refine ⟨hl, fun hclosed => ?_, fun m hle hlt => ?_⟩
    · have hold : (s.obj id).state.isOpen = false := by
        rcases hcases with ⟨rfl, -⟩ | ⟨hst, -⟩ | ⟨m, -, -, ⟨rfl, -⟩ | ⟨rfl, -⟩⟩
        · exact hclosed
        · rw [hst]; rfl
        · cases hclosed
        · cases hclosed
      obtain ⟨u, hu⟩ := hb.pending port id hq hold
      exact ⟨u, hkeep u _ nofun hu⟩
    · have hle' : n + 1 ≤ m := hle
      obtain ⟨u, hu⟩ := hb.counted port id m hq (hn ▸ Nat.le_of_succ_le hle') hlt
      refine ⟨u, hkeep u _ (fun heq => ?_) hu⟩
      have : m = n := Option.some.inj (congrArg Prod.snd heq)
      omega
  constructor
  · intro hbooks' port' n' m' id' q' hth' hq' hactive
    rw [hth] at hth'
    cases hth'
    obtain rfl := Option.some.inj (hq.symm.trans hq')
    rcases hcases with ⟨-, -, -, hk⟩ | ⟨hst, -⟩ | ⟨m, hk, -, ⟨-, rfl, -⟩ | ⟨-, -, -, hm⟩⟩
    · cases hk
    · exact absurd (hst.symm.trans hactive) nofun
    · have := hbooks'.unlocked port id hq
      rw [goto_obj, put_obj_self] at this
      cases this
    · cases hk
      exact hm
  · intro hbal
    refine hbooks ?_
    rcases hcases with ⟨-, hl, -⟩ | ⟨-, -, hl, -⟩ | ⟨m, rfl, hst, ⟨-, -, -, hm⟩ | ⟨-, hl, -⟩⟩
    · exact hl
    · exact hl
    · exact absurd hm (Nat.not_lt.2 (hbal port n m id id hth hq hst))
    · exact hl

theorem Books.finish (hs : finish s t = some s') : Books s' ↔ (Act.finish t).balanced s := by
  obtain ⟨port, n, id, q, hth, hq, -, hn, hcases⟩ := finish_spec hs
  have hback := h.backed t
  rw [hth] at hback
  obtain rfl : id = q := Option.some.inj (hback.1.symm.trans hq)
  have hkey : (s.thread t).key = some (id, none) := by rw [hth]; rfl
  rcases hcases with ⟨hdead, rfl⟩ | ⟨hdead, rfl⟩
  · refine iff_of_true (hb.gone h id ?_ (fun r hr => ?_) fun u k hne hu => ?_) fun port' n' id' q'
      hth' hq' => ?_
    · simp only [State.free, State.goto, put_obj_self]
      rfl
    · exact (free_obj_of_ne hr).trans (put_obj_of_ne hr)
    · have hut : u ≠ t := fun heq => hne (by
        rw [heq, hkey] at hu
        exact congrArg Prod.fst (Option.some.inj hu).symm)
      rwa [goto_thread_of_ne hut]
    · rw [hth] at hth'
      cases hth'
      exact Option.some.inj (hq.symm.trans hq') ▸ hdead
  · refine iff_of_false (fun hbooks => ?_) fun hbal => hdead (hbal port n id id hth hq)
    obtain ⟨u, hu⟩ := hbooks.pending port id hq hback.2.1
    by_cases hut : u = t
    · rw [hut, goto_thread_self] at hu
      cases hu
    · rw [goto_thread_of_ne hut] at hu
      exact hut (h.keys u t _ hu hkey)

theorem Books.of_step (hs : step s a = some s') : Books s' ↔ a.balanced s := by
  cases a with
  | allocateReceive port type =>
    refine iff_of_true (hb.create h hs rfl ?_ rfl) trivial
    simp only
    split_ifs <;> rfl
  | enterSend port type => exact iff_of_true (hb.create h hs rfl rfl rfl) trivial
  | makeSend port kr => exact iff_of_true (hb.withObject h (fun _ _ => makeSend_kept) hs) trivial
  | copySend port => exact iff_of_true (hb.withObject h (fun _ _ => copySend_kept) hs) trivial
  | sendLookup port => exact iff_of_true (hb.withObject h (fun _ _ => sendLookup_kept) hs) trivial
  | deadName name => exact iff_of_true (hb.deadName h hs) trivial
  | dequeue t q k => exact iff_of_true (hb.dequeue h hs) trivial
  | handle t => exact hb.handle h hs
  | shutdown t port force =>
    simp only [step] at hs
    split at hs
    · rename_i hidle
      exact iff_of_true (hb.beginShutdown h (by rw [hidle]; rfl) hs) trivial
    · cases hs
  | shutdownNotified t =>
    simp only [step] at hs
    split at hs
    · rename_i hnotified
      exact iff_of_true (hb.beginShutdown h (by rw [hnotified]; rfl) hs) trivial
    · cases hs
  | finish t => exact hb.finish h hs

/-- The shutdown of an object all of whose messages are handled can go on. -/
theorem Books.ready (hq : s.heap port = some q) (hclosed : (s.obj q).state.isOpen = false)
    (hnone : ∀ t port n k, s.thread t ≠ .message port n k q) :
    ∃ t port n s', s.thread t = .closing port n q ∧ step s (.finish t) = some s' := by
  obtain ⟨t, ht⟩ := hb.pending port q hq hclosed
  have hback := h.backed t
  rcases hth : s.thread t with _ | ⟨port', n, k, r⟩ | _ | ⟨port', n,
    r⟩ <;> rw [hth] at ht hback <;> cases ht
  have hle : n ≤ (s.obj q).seqno := by
    by_contra hlt
    obtain ⟨u, hu⟩ := hb.counted port q (s.obj q).seqno hq (Nat.le_refl _)
      (by have := hback.2.2; omega)
    rcases hthu : s.thread u with _ | ⟨port'', n', k', r⟩ | _ | ⟨port'', n',
      r⟩ <;> rw [hthu] at hu <;> cases hu
    exact hnone u port'' _ k' hthu
  have hl := hb.unlocked port q hq
  have hstep : ∃ s', step s (.finish t) = some s' := by
    simp only [step, PortObject.finish, hth, hback.1, State.lock, hl, Option.bind_eq_bind,
      Option.bind_some, Bool.false_eq_true, if_false, put_obj_self, if_neg (Nat.not_lt.2 hle)]
    split_ifs
    · exact ⟨_, rfl⟩
    · exact ⟨_, rfl⟩
  exact ⟨t, port', n, hstep.imp fun _ hs => ⟨hth, hs⟩⟩

end Balance

end XMach.PortObject
