import Mathlib.Tactic.Common
import Mathlib.Tactic.Linarith
import XMach.Lites.Timer

/-!
# The timer thread does not oversleep

As long as the timeouts are normal the order of the queue is that of the times, and the thread is
blocked no longer than up to the first of them unless a message is on the way. A `select` of more
than `infinite_time` sets a timeout that is not normal, and the thread oversleeps
(`infinite_select_oversleeps`).
-/

namespace XMach.Timer

open Function

section Timevals

variable {t u d : Timeval} {x : ℤ}

theorem int32_eq (hl : -2 ^ 31 ≤ x) (hu : x < 2 ^ 31) : int32 x = x := by
  rw [int32, Int.bmod_eq_of_le] <;> omega

theorem lt_iff (ht : t.Normal) (hu : u.Normal) : t.lt u = true ↔ t.micros < u.micros := by
  have h₁ := ht.usec
  have h₂ := hu.usec
  unfold Timeval.lt Timeval.micros
  split_ifs <;> rw [decide_eq_true_eq] <;> omega

theorem fix_eq (ht : t.Normal) : t.fix = t := by
  obtain ⟨-, h0, h1⟩ := ht
  have hneg : ¬t.usec < 0 := by omega
  have hge : ¬t.usec ≥ 1000000 := by omega
  unfold Timeval.fix
  dsimp only
  rw [if_neg hneg, if_neg hge]

/-- One carry is enough for the sum of two normal parts. -/
theorem fix_of_carry (hl : -2 ^ 31 ≤ t.sec) (hneg' : t.usec < 0 → -2 ^ 31 < t.sec)
    (hu : t.sec < 2 ^ 31)
    (hge' : t.usec ≥ 1000000 → t.sec + 1 < 2 ^ 31) (h0 : -1000000 ≤ t.usec)
    (h1 : t.usec < 2000000) : t.fix.Normal ∧ t.fix.micros = t.micros := by
  unfold Timeval.fix
  by_cases hneg : t.usec < 0
  · have hsec : int32 (t.sec - 1) = t.sec - 1 := int32_eq (by omega) (by omega)
    have husec : int32 (t.usec + 1000000) = t.usec + 1000000 := int32_eq (by omega) (by omega)
    dsimp only
    rw [if_pos hneg, hsec, husec]
    dsimp only
    rw [if_neg (by omega)]
    refine ⟨⟨⟨?_, ?_⟩, ?_, ?_⟩, ?_⟩
    all_goals
      simp only [Timeval.micros]
      omega
  · dsimp only
    rw [if_neg hneg]
    split_ifs with hge
    · have hsec : int32 (t.sec + 1) = t.sec + 1 := int32_eq (by omega) (by omega)
      have husec : int32 (t.usec - 1000000) = t.usec - 1000000 := int32_eq (by omega) (by omega)
      rw [hsec, husec]
      refine ⟨⟨⟨?_, ?_⟩, ?_, ?_⟩, ?_⟩
      all_goals
        simp only [Timeval.micros]
        omega
    · exact ⟨⟨⟨by omega, by omega⟩, by omega, by omega⟩, rfl⟩

theorem add_spec (ht : t.Normal) (h0 : 0 ≤ d.usec) (h1 : d.usec < 1000000)
    (hl : -2 ^ 31 ≤ t.sec + d.sec)
    (hu : t.sec + d.sec + 1 < 2 ^ 31) : (t.add d).Normal ∧
    (t.add d).micros = t.micros + d.micros := by
  obtain ⟨-, hu0, hu1⟩ := ht
  have hsec : int32 (t.sec + d.sec) = t.sec + d.sec := int32_eq hl (by omega)
  have husec : int32 (t.usec + d.usec) = t.usec + d.usec := int32_eq (by omega) (by omega)
  unfold Timeval.add
  rw [hsec, husec]
  obtain ⟨hnormal, hmicros⟩ :=
    fix_of_carry (t := ⟨t.sec + d.sec, t.usec + d.usec⟩) hl (fun hneg => by
    dsimp only at hneg
    omega) (by dsimp only; omega) (fun _ => hu) (by dsimp only; omega) (by dsimp only; omega)
  refine ⟨hnormal, hmicros.trans ?_⟩
  simp only [Timeval.micros]
  omega

theorem sub_spec (ht : t.Normal) (hu : u.Normal) (h0 : 0 ≤ u.sec) (hlt : u.micros < t.micros) :
    (t.sub u).Normal ∧ 0 ≤ (t.sub u).sec ∧ (t.sub u).micros = t.micros - u.micros := by
  obtain ⟨⟨-, ht1⟩, hu0, hu1⟩ := ht
  obtain ⟨-, hv0, hv1⟩ := hu
  simp only [Timeval.micros] at hlt
  have hsec : int32 (t.sec - u.sec) = t.sec - u.sec := int32_eq (by omega) (by omega)
  have husec : int32 (t.usec - u.usec) = t.usec - u.usec := int32_eq (by omega) (by omega)
  unfold Timeval.sub
  rw [hsec, husec]
  obtain ⟨hnormal, hmicros⟩ := fix_of_carry (t := ⟨t.sec - u.sec, t.usec - u.usec⟩)
    (by dsimp only; omega) (fun _ => by dsimp only; omega) (by dsimp only; omega) (fun hge => by
      dsimp only at hge
      omega) (by dsimp only; omega) (by dsimp only; omega)
  have husec' := hnormal.usec
  simp only [Timeval.micros] at hmicros ⊢
  exact ⟨hnormal, by omega, by omega⟩

/-- The milliseconds are cut off, and once more when they do not fit in 32 bits. -/
theorem msgTimeo_le (hd : d.Normal) (h0 : 0 ≤ d.sec) :
    (msgTimeo d : ℤ) * 1000 + d.micros % 1000 ≤ d.micros := by
  obtain ⟨-, hu0, hu1⟩ := hd
  have hdiv : Int.tdiv d.usec 1000 = d.usec / 1000 := Int.tdiv_eq_ediv_of_nonneg hu0
  have hms : 0 ≤ d.sec * 1000 + d.usec / 1000 := by omega
  have hmod : (d.sec * 1000 + d.usec / 1000) % 2 ^ 32 ≤ d.sec * 1000 + d.usec / 1000 := by omega
  unfold msgTimeo Timeval.micros
  rw [hdiv, Int.toNat_of_nonneg (Int.emod_nonneg _ (by norm_num))]
  omega

end Timevals

section Queue

variable {E : Type*} {key : E → ℤ} {r : E → E → Prop} [DecidableRel r] {e : E} {q : List E}

theorem pairwise_orderedInsert (hr : ∀ b ∈ q, r e b ↔ key e < key b)
    (h : q.Pairwise fun a b => key a ≤ key b) :
    (q.orderedInsert r e).Pairwise fun a b => key a ≤ key b := by
  induction q with
  | nil => exact List.pairwise_singleton ..
  | cons b q ih =>
    obtain ⟨hb, hq⟩ := List.pairwise_cons.1 h
    rw [List.orderedInsert_cons]
    split_ifs with hlt
    · have hle := le_of_lt ((hr b List.mem_cons_self).1 hlt)
      refine List.pairwise_cons.2 ⟨fun c hc => ?_, h⟩
      rcases List.mem_cons.1 hc with rfl | hc
      · exact hle
      · exact hle.trans (hb c hc)
    · refine List.pairwise_cons.2 ⟨fun c hc => ?_,
        ih (fun c hc => hr c (List.mem_cons_of_mem b hc)) hq⟩
      rcases (List.mem_orderedInsert r).1 hc with rfl | hc
      · exact not_lt.1 fun hlt' => hlt ((hr b List.mem_cons_self).2 hlt')
      · exact hb c hc

end Queue

variable {E : Type*} {s s' : State E} {e : E} {t : Timeval} {a : Act E}

/-- The next wakeup is not before `bound`, and no element is before the next wakeup. -/
structure Ahead (s : State E) (bound : ℤ) : Prop where
  normal : s.nextWakeup.Normal
  bound : bound ≤ s.nextWakeup.micros
  first : ∀ e ∈ s.queue, s.nextWakeup.micros ≤ (s.timeout e).micros

structure Inv (s : State E) : Prop where
  sorted : s.queue.Pairwise fun a b => (s.timeout a).micros ≤ (s.timeout b).micros
  nodup : s.queue.Nodup
  active : ∀ e, s.active e = true ↔ e ∈ s.queue
  normal : ∀ e ∈ s.queue, (s.timeout e).Normal
  clock : s.now.Normal ∧ 0 ≤ s.now.sec
  ready : ∀ r m, s.phase = .ready r m → s.Pending ∨ s.queue = [] ∨
    Ahead s (r.micros + m * 1000 + (s.nextWakeup.micros - r.micros) % 1000)
  blocked : ∀ t m, s.phase = .blocked t m → s.Pending ∨ s.queue = [] ∨ Ahead s (t.micros + m * 1000)

theorem Inv.punctual (h : Inv s) : Punctual s := by
  refine ⟨h.sorted, h.active, fun t m hphase => ?_⟩
  rcases h.blocked t m hphase with hp | hnil | hahead
  · exact .inl hp
  · rw [hnil]
    exact .inr nofun
  · exact .inr fun e he => hahead.bound.trans (hahead.first e he)

/-- Only the clock, the port and the adjustments change, and a message stays on its way. -/
theorem Inv.outside (h : Inv s) (htimeout : s'.timeout = s.timeout) (hactive : s'.active = s.active)
    (hqueue : s'.queue = s.queue) (hnext : s'.nextWakeup = s.nextWakeup)
    (hphase : s'.phase = s.phase)
    (hclock : s'.now.Normal ∧ 0 ≤ s'.now.sec) (hpending : s.Pending → s'.Pending) : Inv s' := by
  have hahead : ∀ b, Ahead s b → Ahead s' b := fun b hb => by
    refine ⟨?_, ?_, ?_⟩
    · rw [hnext]
      exact hb.normal
    · rw [hnext]
      exact hb.bound
    · rw [hnext, hqueue, htimeout]
      exact hb.first
  refine ⟨?_, ?_, ?_, ?_, hclock, fun r m hr => ?_, fun t m ht => ?_⟩
  · rw [hqueue, htimeout]
    exact h.sorted
  · rw [hqueue]
    exact h.nodup
  · rw [hqueue, hactive]
    exact h.active
  · rw [hqueue, htimeout]
    exact h.normal
  · rw [hnext, hqueue]
    exact (h.ready r m (hphase ▸ hr)).imp hpending (.imp_right (hahead _))
  · rw [hqueue]
    exact (h.blocked t m (hphase ▸ ht)).imp hpending (.imp_right (hahead _))

theorem Inv.awake (h : Inv s) {p : Phase E} {n : ℕ} (hr : ∀ r m, p ≠ .ready r m)
    (hb : ∀ t m, p ≠ .blocked t m) : Inv { s with phase := p, msgs := n } :=
  ⟨h.sorted, h.nodup, h.active, h.normal, h.clock, fun r m hp => absurd hp (hr r m),
    fun t m hp => absurd hp (hb t m)⟩

theorem Inv.enter (h : Inv s) {r : Timeval} {m : ℕ} (hphase : s.phase = .ready r m)
    (hc : Act.enter.Careful s) : Inv { s with phase := .blocked s.now m } := by
  refine ⟨h.sorted, h.nodup, h.active, h.normal, h.clock, nofun, fun t m' ht => ?_⟩
  cases ht
  refine (h.ready r m hphase).imp_right fun hq => ?_
  by_cases hnil : s.queue = []
  · exact .inl hnil
  · have hahead := hq.resolve_left hnil
    have hnow := hc r m hphase hnil
    have hbound := hahead.bound
    exact .inr ⟨hahead.normal, by dsimp only; omega, hahead.first⟩

theorem Inv.remove (h : Inv s) {q : List E} (hq : q.Sublist s.queue) {active : E → Bool}
    (hactive : ∀ e, active e = true ↔ e ∈ q) : Inv { s with active := active, queue := q } := by
  have hmem := hq.subset
  have hahead : ∀ b, s.queue = [] ∨ Ahead s b → q = [] ∨
    Ahead { s with active := active, queue := q } b := by
    rintro b (hnil | hb)
    · rw [hnil] at hq
      exact .inl (List.sublist_nil.1 hq)
    · exact .inr ⟨hb.normal, hb.bound, fun e he => hb.first e (hmem he)⟩
  exact ⟨h.sorted.sublist hq, h.nodup.sublist hq, hactive, fun e he => h.normal e (hmem he),
    h.clock,
    fun r m hr => (h.ready r m hr).imp_right (hahead _),
    fun t m ht => (h.blocked t m ht).imp_right (hahead _)⟩

section Steps

variable [DecidableEq E]

theorem Inv.deactivate (h : Inv s) : Inv (s.deactivate e) := by
  unfold State.deactivate
  split_ifs
  · refine h.remove List.erase_sublist fun u => ?_
    rw [h.nodup.mem_erase_iff]
    by_cases hu : u = e
    · subst hu
      simp
    · rw [update_of_ne hu, h.active u]
      exact (and_iff_right hu).symm
  · exact h

/-- An element that is not before the next wakeup needs no message. -/
theorem Inv.activate (h : Inv s) (hactive : ¬s.active e = true) (ht : t.Normal) :
    Inv (s.activate e t) := by
  have hnew : e ∉ s.queue := fun he => hactive ((h.active e).2 he)
  have hold : ∀ u ∈ s.queue, update s.timeout e t u = s.timeout u := fun u hu =>
    update_of_ne (ne_of_mem_of_not_mem hu hnew) ..
  have hself : update s.timeout e t e = t := update_self ..
  have hmem : ∀ u, u ∈ (s.activate e t).queue ↔ u = e ∨ u ∈ s.queue :=
    fun u => List.mem_orderedInsert _
  have hcases : ∀ {p : Timeval → Prop}, p t → (∀ u ∈ s.queue, p (s.timeout u)) →
      ∀ u ∈ (s.activate e t).queue, p ((s.activate e t).timeout u) := by
    intro p hp hq u hu
    show p (update s.timeout e t u)
    rcases (hmem u).1 hu with rfl | hu
    · rwa [hself]
    · rw [hold u hu]
      exact hq u hu
  have hahead : ∀ b, s.Pending ∨ s.queue = [] ∨ Ahead s b →
      (s.activate e t).Pending ∨ (s.activate e t).queue = [] ∨ Ahead (s.activate e t) b := by
    intro b hb
    by_cases hwake : (s.queue.isEmpty || t.lt s.nextWakeup) = true
    · refine .inl (.inr (.inl ?_))
      simp only [State.activate, hwake, if_true]
      exact Nat.succ_pos _
    · have hsending : (s.activate e t).sending = s.sending := if_neg hwake
      simp only [Bool.or_eq_true, List.isEmpty_iff, not_or] at hwake
      rcases hb with hp | hnil | hb
      · refine .inl ?_
        unfold State.Pending
        rw [hsending]
        exact hp
      · exact absurd hnil hwake.1
      · have hle : s.nextWakeup.micros ≤ t.micros :=
          not_lt.1 fun hlt => hwake.2 ((lt_iff ht hb.normal).2 hlt)
        exact .inr (.inr ⟨hb.normal, hb.bound,
          hcases (p := fun u => s.nextWakeup.micros ≤ u.micros) hle hb.first⟩)
  refine ⟨?_, ?_, fun u => ?_, hcases ht h.normal, h.clock, fun r m hr => hahead _ (h.ready r m hr),
    fun t' m ht' => hahead _ (h.blocked t' m ht')⟩
  · refine pairwise_orderedInsert (fun b hb => ?_) (h.sorted.imp_of_mem fun {a b} ha hb hab => ?_)
    · dsimp only [State.activate]
      rw [hself, hold b hb]
      exact lt_iff ht (h.normal b hb)
    · dsimp only [State.activate]
      rw [hold a ha, hold b hb]
      exact hab
  · exact ((List.perm_orderedInsert _ e s.queue).nodup_iff).2 (List.nodup_cons.2 ⟨hnew, h.nodup⟩)
  · rw [hmem]
    dsimp only [State.activate]
    by_cases hu : u = e
    · subst hu
      simp
    · rw [update_of_ne hu, h.active u]
      exact (or_iff_right hu).symm

theorem Inv.fixTimeouts (h : Inv s) {d : Timeval} (hc : (Act.fixTimeouts d : Act E).Careful s) :
    Inv (s.fixTimeouts d) := by
  obtain ⟨⟨h0, h1⟩, hrange⟩ := hc
  have hspec : ∀ e ∈ s.queue, ((s.fixTimeouts d).timeout e).Normal ∧
      ((s.fixTimeouts d).timeout e).micros = (s.timeout e).micros + d.micros := by
    intro e he
    obtain ⟨hnormal, hmicros⟩ := add_spec (h.normal e he) h0 h1 (hrange e he).1 (hrange e he).2
    have htimeout : (s.fixTimeouts d).timeout e = (s.timeout e).add d :=
      (if_pos he).trans (fix_eq hnormal)
    rw [htimeout]
    exact ⟨hnormal, hmicros⟩
  have hpending : (s.fixTimeouts d).Pending := .inr (.inl (Nat.succ_pos _))
  refine ⟨h.sorted.imp_of_mem fun {a b} ha hb hab => ?_, h.nodup, h.active,
    fun e he => (hspec e he).1, h.clock, fun _ _ _ => .inl hpending, fun _ _ _ => .inl hpending⟩
  rw [(hspec a ha).2, (hspec b hb).2]
  omega

theorem scan_nil (hq : s.queue = []) :
    s.scan = { s with
      nextWakeup := s.now.add infiniteTime
      phase := .ready s.now (msgTimeo infiniteTime) } := by
  simp only [State.scan, hq]

theorem scan_later {q : List E} (hq : s.queue = e :: q) (hlt : s.now.lt (s.timeout e) = true) :
    s.scan =
      { s with
        nextWakeup := s.timeout e
        phase := .ready s.now (msgTimeo ((s.timeout e).sub s.now)) } := by
  simp only [State.scan, hq, hlt, if_true]

theorem scan_expired {q : List E} (hq : s.queue = e :: q) (hlt : ¬s.now.lt (s.timeout e) = true) :
    s.scan = { s with active := update s.active e false, queue := q, phase := .popped e } := by
  simp only [State.scan, hq, if_neg hlt]

/-- The thread is to sleep up to the first timeout, or has taken it off the queue. -/
theorem Inv.scan (h : Inv s) : Inv s.scan := by
  rcases hq : s.queue with _ | ⟨e, queue⟩
  · rw [scan_nil hq]
    exact ⟨h.sorted, h.nodup, h.active, h.normal, h.clock, fun _ _ _ => .inr (.inl hq), nofun⟩
  have he : e ∈ s.queue := by
    rw [hq]
    exact List.mem_cons_self
  by_cases hlt : s.now.lt (s.timeout e) = true
  · rw [scan_later hq hlt]
    rw [lt_iff h.clock.1 (h.normal e he)] at hlt
    obtain ⟨hdiff, hsec, hmicros⟩ := sub_spec (h.normal e he) h.clock.1 h.clock.2 hlt
    have hms := msgTimeo_le hdiff hsec
    rw [hmicros] at hms
    obtain ⟨hfirst, -⟩ := List.pairwise_cons.1 (hq ▸ h.sorted)
    refine ⟨h.sorted, h.nodup, h.active,
      h.normal, h.clock, fun r m hr => .inr (.inr ⟨h.normal e he, ?_, ?_⟩), nofun⟩
    · cases hr
      dsimp only
      omega
    · intro u hu
      rcases List.mem_cons.1 (hq ▸ hu) with rfl | hu
      · exact le_rfl
      · exact hfirst u hu
  · rw [scan_expired hq hlt]
    obtain ⟨hnot, -⟩ := List.nodup_cons.1 (hq ▸ h.nodup)
    have hactive : ∀ u, update s.active e false u = true ↔ u ∈ queue := by
      intro u
      by_cases hu : u = e
      · subst hu
        simpa using hnot
      · rw [update_of_ne hu, h.active u, hq, List.mem_cons]
        exact or_iff_right hu
    have hsub : queue.Sublist s.queue := by
      rw [hq]
      exact List.sublist_cons_self e queue
    exact (h.remove hsub hactive).awake (n := s.msgs) nofun nofun

theorem clockOk_iff {now : Timeval} : clockOk now = true ↔ now.Normal ∧ 0 ≤ now.sec := by
  rw [clockOk, Bool.and_eq_true, decide_eq_true_eq, decide_eq_true_eq, and_comm]

theorem Inv.step (h : Inv s) (hc : a.Careful s) (hs : step s a = some s') : Inv s' := by
  rcases a with ⟨e, timeout⟩ | e | p | now | ⟨now, delta⟩ | delta | _ | _ | _ | _ | _ | _ <;>
    simp only [Timer.step, Option.ite_none_left_eq_some, Option.ite_none_right_eq_some,
      Option.some.injEq] at hs
  case activate =>
    obtain ⟨hactive, rfl⟩ := hs
    exact h.activate hactive hc
  case deactivate =>
    obtain rfl := hs
    exact h.deactivate
  case untimeout =>
    obtain rfl := hs
    unfold State.untimeout
    split
    · exact h
    · exact h.deactivate
  case tick =>
    obtain ⟨hclock, rfl⟩ := hs
    rw [Bool.and_eq_true, clockOk_iff] at hclock
    exact h.outside rfl rfl rfl rfl rfl hclock.1 id
  case setTime =>
    obtain ⟨hclock, rfl⟩ := hs
    exact h.outside rfl rfl rfl rfl rfl (clockOk_iff.1 hclock) fun _ => .inr (.inr nofun)
  case fixTimeouts =>
    obtain ⟨-, rfl⟩ := hs
    exact h.fixTimeouts hc
  case wakeup =>
    obtain ⟨-, rfl⟩ := hs
    exact h.outside rfl rfl rfl rfl rfl h.clock fun _ =>
      .inl (lt_min (Nat.succ_pos _) (Nat.succ_pos _))
  case scan =>
    split at hs
    · cases hs
      exact h.scan
    · cases hs
  case done =>
    split at hs
    · cases hs
      exact h.awake (n := s.msgs) nofun nofun
    · cases hs
  case enter =>
    split at hs
    · next r m hphase =>
      cases hs
      exact h.enter hphase hc
    · cases hs
  case receive =>
    split at hs
    · obtain ⟨-, hs⟩ := Option.ite_none_left_eq_some.1 hs
      cases hs
      exact h.awake nofun nofun
    · cases hs
  case timedOut =>
    split at hs
    · cases hs
      exact h.awake (n := s.msgs) nofun nofun
    · cases hs

theorem inv_reach (h : (machine E).Reach (fun s a => a.Careful s) s) : Inv s := by
  refine h.inv ?_ fun _ _ _ h hc hs => h.step hc hs
  rintro _ ⟨now, hnow, rfl⟩
  exact ⟨.nil, .nil, fun _ => iff_of_false nofun nofun, nofun, clockOk_iff.1 hnow, nofun, nofun⟩

/-- The timer thread does not oversleep. -/
theorem careful_timer_punctual (h : (machine E).Reach (fun s a => a.Careful s) s) : Punctual s :=
  (inv_reach h).punctual

end Steps

theorem start_thousand : (machine Bool).start (initial ⟨1000, 0⟩) := ⟨⟨1000, 0⟩, by decide, rfl⟩

/-- The thread blocks for an element that is ten seconds ahead. -/
theorem careful_timer_punctual_ahead :
    ∃ s : State Bool,
      (s.phase = .blocked ⟨1000, 0⟩ 10000 ∧ s.queue = [true] ∧ s.msgs = 0 ∧ s.sending = 0) ∧
      Punctual s :=
  ⟨_, ⟨rfl, rfl, rfl, rfl⟩, careful_timer_punctual <| (Machine.Reach.start start_thousand
    |>.step (.activate true ⟨1010, 0⟩)
      (show Timeval.Normal _ by decide) rfl |>.step .wakeup trivial rfl
    |>.step .scan trivial rfl |>.step .enter (by rintro _ _ ⟨⟩ _; decide) rfl |>.step .receive
      trivial rfl
    |>.step .scan trivial rfl |>.step .enter (by rintro _ _ ⟨⟩ _; decide) rfl)⟩

/-- The thread is blocked past the time of an element, and nothing is on the way to wake it. -/
def State.oversleeps (s : State Bool) : Bool :=
  match s.phase with
  | .blocked t m => s.msgs = 0 ∧ s.sending = 0 ∧ s.adjusting = [] ∧
    ∃ e ∈ s.queue, (s.timeout e).micros < t.micros + m * 1000
  | _ => false

/-- The timeout that `s_select` sets for more than `infinite_time` is not normal: an element that is
due two thousand seconds earlier stands behind it. -/
theorem infinite_select_oversleeps :
    ¬∀ s : State Bool, (machine Bool).Reach Machine.Any s → Punctual s := by
  intro h
  obtain ⟨s, hs, hp⟩ := Machine.Reach.exists_run (M := machine Bool)
    (p := State.oversleeps) start_thousand
    (Machine.along_any _ _ [.activate true (infiniteTime.add ⟨1000, 0⟩), .wakeup,
      .activate false ⟨1049577, 0⟩, .scan, .enter, .receive, .scan, .enter]) (by decide)
  unfold State.oversleeps at hp
  split at hp
  · next t m hphase =>
    obtain ⟨hmsgs, hsending, hadjusting, e, he, hlt⟩ := of_decide_eq_true hp
    rcases (h s hs).blocked t m hphase with hpending | hall
    · rcases hpending with hpos | hpos | hne
      · exact absurd hmsgs (Nat.ne_of_gt hpos)
      · exact absurd hsending (Nat.ne_of_gt hpos)
      · exact hne hadjusting
    · exact absurd (hall e he) (not_le.2 hlt)
  · cases hp

end XMach.Timer
