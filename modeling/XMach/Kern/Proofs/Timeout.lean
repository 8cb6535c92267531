import XMach.Kern.Timeout

/-!
# Each timeout happens once, and in time

While no deadline reaches the sentinel, the `ticks` of an element in the queue are behind its
deadline by what the tick count has gone through since it was zero (`Inv.pending`), so that the
comparisons of `unsigned` numbers are those of deadlines. The walk of `set_timeout` then stops at
the right place (`insert_spec`), and a turn of `softclock` takes an element off or finds that none
is due (`Inv.softclockTurn`). The number of elements that are due bounds the turns (`Inv.turns_le`).
-/

namespace XMach.Timeout

open Function

variable {E : Type*} {s s' : State E} {e x : E} {a : Act E} {ticks : E → ℕ} {t n : ℕ}
  {queue : List E} {log : List (Event E)} {ev : Event E}

section Loops

theorem insert_spec (ht : t < sentinel) (ticks : E → ℕ) (e : E) : ∀ queue :
    List E, ∃ l r, queue = l ++ r ∧
    insert ticks e t queue = some (l ++ e :: r) ∧ (∀ x ∈ l, ticks x ≤ t) ∧ ∀ x ∈ r.head?,
    t < ticks x
  | [] => ⟨[], [], rfl, if_pos ht, by simp, by simp⟩
  | next :: queue => by
    rw [insert]
    split
    · next hlt => exact ⟨[], next :: queue, rfl, rfl, by simp, by simpa using hlt⟩
    · next hge =>
      obtain ⟨l, r, rfl, hins, hl, hr⟩ := insert_spec ht ticks e queue
      refine ⟨next :: l, r, rfl, by rw [hins]; rfl, ?_, hr⟩
      rw [List.forall_mem_cons]
      exact ⟨not_lt.1 hge, hl⟩

/-- What holds of the first element of an ordered queue holds of the others. -/
theorem lt_of_head (hsorted : queue.Pairwise (ticks · ≤ ticks ·))
    (hhead : ∀ x ∈ queue.head?, t < ticks x) : ∀ x ∈ queue, t < ticks x := by
  cases queue with
  | nil => simp
  | cons y queue =>
    have hy : t < ticks y := hhead y rfl
    rw [List.forall_mem_cons]
    exact ⟨hy, fun x hx => hy.trans_le ((List.pairwise_cons.1 hsorted).1 x hx)⟩

end Loops

variable [DecidableEq E]

theorem pairwise_insert {l r : List E} (hsorted : (l ++ r).Pairwise (ticks · ≤ ticks ·))
    (hne : ∀ x ∈ l ++ r, x ≠ e) (hl : ∀ x ∈ l, ticks x ≤ t) (hr : ∀ x ∈ r, t < ticks x) :
    (l ++ e :: r).Pairwise (update ticks e t · ≤ update ticks e t ·) := by
  obtain ⟨hsl, hsr, hlr⟩ := List.pairwise_append.1 hsorted
  have hl' : ∀ x ∈ l, update ticks e t x = ticks x :=
    fun x hx => update_of_ne (hne x (List.mem_append_left _ hx)) _ _
  have hr' : ∀ x ∈ r, update ticks e t x = ticks x :=
    fun x hx => update_of_ne (hne x (List.mem_append_right _ hx)) _ _
  have he' : update ticks e t e = t := update_self ..
  refine List.pairwise_append.2 ⟨?_, List.pairwise_cons.2 ⟨fun x hx => ?_, ?_⟩, fun x hx y hy => ?_⟩
  · exact hsl.imp_of_mem fun hx hy hle => by rw [hl' _ hx, hl' _ hy]; exact hle
  · rw [he', hr' x hx]
    exact (hr x hx).le
  · exact hsr.imp_of_mem fun hx hy hle => by rw [hr' _ hx, hr' _ hy]; exact hle
  · rw [hl' x hx]
    rcases List.mem_cons.1 hy with rfl | hy
    · rw [he']
      exact hl x hx
    · rw [hr' y hy]
      exact hlr x hx y hy

section Log

theorem pending_append : pending (log ++ [ev]) e = ev.after e (pending log e) := by
  rw [pending, List.foldl_append]
  rfl

theorem Punctual.append (h : Punctual log) (hev : ev.Timely (pending log)) :
    Punctual (log ++ [ev]) := by
  intro before ev' after heq
  rcases List.eq_nil_or_concat after with rfl | ⟨after, last, rfl⟩
  · obtain ⟨rfl, hlast⟩ := List.append_inj' heq rfl
    rw [← (List.cons.inj hlast).1]
    exact hev
  · rw [List.concat_eq_append, ← List.cons_append, ← List.append_assoc] at heq
    exact h before ev' after (List.append_inj' heq rfl).1

end Log

structure Inv (s : State E) : Prop where
  elapsed : s.elapsedTicks < 2 ^ 32
  count : s.elapsedTicks ≤ s.count
  nodup : s.queue.Nodup
  set : ∀ e, s.set e = true ↔ e ∈ s.queue
  sorted : s.queue.Pairwise (s.ticks · ≤ s.ticks ·)
  last : ∀ e ∈ s.queue, s.ticks e < sentinel
  /-- the ticks of an element are its deadline, in the count that starts again at zero -/
  pending : ∀ e, pending s.log e = if e ∈ s.queue then some (s.ticks e + (s.count - s.elapsedTicks))
    else none
  punctual : Punctual s.log
  soft : s.soft = true → s.elapsedTicks ≠ sentinel

section Steps

theorem Inv.setTimeout {interval : ℕ} (h : Inv s) (hset : s.set e = false)
    (hlt : s.elapsedTicks + interval < sentinel) : ∃ s', setTimeout s e interval = some s' ∧
    Inv s' := by
  have hmod : (interval + s.elapsedTicks) % 2 ^ 32 = s.elapsedTicks + interval := by
    rw [Nat.add_comm, Nat.mod_eq_of_lt]
    exact hlt.trans (by decide)
  have he : e ∉ s.queue := by
    intro hmem
    rw [(h.set e).2 hmem] at hset
    cases hset
  obtain ⟨l, r, hq, hins, hl, hhead⟩ := insert_spec hlt s.ticks e s.queue
  have hcount := h.count
  obtain ⟨helapsed, -, hnodup, hiff, hsorted, hlast, hpending, hpunctual, hsoft⟩ := h
  rw [hq] at hsorted hnodup
  have hr := lt_of_head (List.pairwise_append.1 hsorted).2.1 hhead
  have hne : ∀ x ∈ l ++ r, x ≠ e := by
    rintro x hx rfl
    exact he (hq ▸ hx)
  have hother : ∀ x ∈ l ++ r, update s.ticks e (s.elapsedTicks + interval) x = s.ticks x :=
    fun x hx => update_of_ne (hne x hx) _ _
  have hmem : ∀ x, x ∈ l ++ e :: r ↔ x = e ∨ x ∈ s.queue := by
    intro x
    rw [hq, List.mem_append, List.mem_append, List.mem_cons]
    tauto
  simp only [Timeout.setTimeout, hmod, hins, Option.map_some]
  refine ⟨_, rfl, helapsed, hcount, ?_, fun x => ?_, ?_, fun x hx => ?_, fun x => ?_,
    hpunctual.append trivial, hsoft⟩
  · rw [List.nodup_middle, List.nodup_cons]
    exact ⟨fun h => hne e h rfl, hnodup⟩
  · rw [hmem]
    by_cases hx : x = e
    · simp [hx]
    · simp only [update_of_ne hx, hiff, hx, false_or]
  · exact pairwise_insert hsorted hne hl hr
  · show update s.ticks e (s.elapsedTicks + interval) x < sentinel
    rcases (hmem x).1 hx with rfl | hx
    · rw [update_self]
      exact hlt
    · rw [hother x (hq ▸ hx)]
      exact hlast x hx
  · show _ = if x ∈ l ++ e :: r then
      some (update s.ticks e (s.elapsedTicks + interval) x + (s.count - s.elapsedTicks)) else none
    rw [pending_append, hpending, Event.after]
    by_cases hx : x = e
    · subst hx
      rw [if_pos rfl, if_pos ((hmem x).2 (.inl rfl)), update_self]
      congr 1
      omega
    · rw [if_neg (Ne.symm hx), update_of_ne hx]
      simp only [hmem, hx, false_or]

theorem Inv.remove (h : Inv s) (e : E) (hafter : ∀ x d, ev.after x d = if e = x then none else d)
    (htimely : ev.Timely (Timeout.pending s.log)) :
    Inv { s with queue := s.queue.erase e, set := update s.set e false, log := s.log ++ [ev] } := by
  obtain ⟨helapsed, hcount, hnodup, hiff, hsorted, hlast, hpending, hpunctual, hsoft⟩ := h
  have hmem : ∀ x, x ∈ s.queue.erase e ↔ x ≠ e ∧ x ∈ s.queue := fun x => hnodup.mem_erase_iff
  refine ⟨helapsed, hcount, hnodup.erase e, fun x => ?_, hsorted.erase e, fun x hx => ?_,
    fun x => ?_, hpunctual.append htimely, hsoft⟩
  · show update s.set e false x = true ↔ x ∈ s.queue.erase e
    rw [hmem]
    by_cases hx : x = e
    · simp [hx]
    · rw [update_of_ne hx, hiff]
      exact (and_iff_right hx).symm
  · exact hlast x ((hmem x).1 hx).2
  · show _ = if x ∈ s.queue.erase e then _ else _
    rw [pending_append, hpending, hafter]
    by_cases hx : x = e
    · subst hx
      rw [if_pos rfl, if_neg (fun hx => ((hmem x).1 hx).1 rfl)]
    · rw [if_neg (Ne.symm hx)]
      simp only [hmem, ne_eq, hx, not_false_eq_true, true_and]

theorem Inv.resetTimeout (h : Inv s) (e : E) : Inv (resetTimeout s e).1 := by
  unfold Timeout.resetTimeout
  split
  · exact h.remove e (fun _ _ => rfl) trivial
  · next hset =>
    refine { h with pending := fun x => ?_, punctual := h.punctual.append trivial }
    show _ = if x ∈ s.queue then _ else _
    rw [pending_append, h.pending, Event.after]
    split
    · next heq =>
      subst heq
      rw [if_neg (fun hx => hset ((h.set e).2 hx))]
    · rfl

/-- A turn calls the function of an element that is due, or none is. -/
theorem Inv.softclockTurn (h : Inv s) (hrun : s.soft = true) :
    ∃ s', softclockTurn s = some s' ∧ Inv s' ∧
    (s'.soft = false ∨ s'.soft = true ∧ s.due = s'.due + 1) := by
  have hlt : s.elapsedTicks < sentinel := by
    have := h.elapsed
    have := h.soft hrun
    unfold sentinel at *
    omega
  have hcount := h.count
  unfold Timeout.softclockTurn
  by_cases hfirst : s.first > s.elapsedTicks
  · rw [if_pos hfirst]
    have hhead : ∀ x ∈ s.queue.head?, s.elapsedTicks < s.ticks x := by
      intro x hx
      unfold State.first at hfirst
      split at hfirst
      · next hnil => simp [hnil] at hx
      · next e queue hcons =>
        rw [hcons] at hx
        cases hx
        exact hfirst
    refine ⟨_, rfl, { h with
      pending := fun x => by rw [pending_append, h.pending]; rfl
      punctual := h.punctual.append fun x d hd => ?_
      soft := by rintro ⟨⟩ }, .inl rfl⟩
    rw [h.pending] at hd
    split at hd
    · next hx =>
      have := lt_of_head h.sorted hhead x hx
      cases hd
      omega
    · cases hd
  · rw [if_neg hfirst]
    unfold State.first at hfirst
    split at hfirst
    · exact absurd hlt hfirst
    · next e queue hcons =>
      have hmem : e ∈ s.queue := by rw [hcons]; exact List.mem_cons_self
      have hdue : Event.Timely (Timeout.pending s.log) (.called e s.count) :=
        ⟨_, by rw [h.pending, if_pos hmem]; rfl, by omega⟩
      have hinv := h.remove e (fun _ _ => rfl) hdue
      rw [hcons, List.erase_cons_head] at hinv
      refine ⟨_, rfl, hinv, .inr ⟨hrun, ?_⟩⟩
      unfold State.due
      rw [hcons, List.countP_cons_of_pos (by simpa using hfirst)]

theorem Inv.tick (h : Inv s) (hempty : s.elapsedTicks = sentinel → s.queue = []) {soft : Bool}
    (hsoft : soft = true → s.elapsedTicks + 1 ≠ sentinel) :
    Inv { s with
      elapsedTicks := (s.elapsedTicks + 1) % 2 ^ 32
      count := s.count + 1
      soft := soft } := by
  obtain ⟨helapsed, hcount, hnodup, hiff, hsorted, hlast, hpending, hpunctual, -⟩ := h
  have hle : (s.elapsedTicks + 1) % 2 ^ 32 ≤ s.count + 1 := (Nat.mod_le _ _).trans (by omega)
  refine ⟨Nat.mod_lt _ (by decide), hle, hnodup, hiff, hsorted, hlast, fun x => ?_, hpunctual,
    fun hrun => ?_⟩
  swap
  · have := hsoft hrun
    simp only [sentinel] at *
    omega
  show Timeout.pending s.log x = _
  rw [hpending]
  by_cases hmax : s.elapsedTicks = sentinel
  · rw [hempty hmax]
    rfl
  · have hmod : (s.elapsedTicks + 1) % 2 ^ 32 = s.elapsedTicks + 1 :=
      Nat.mod_eq_of_lt (by unfold sentinel at hmax; omega)
    simp only [hmod, Nat.add_sub_add_right]

/-- A call that may be made returns, and keeps the invariant. -/
theorem Inv.step (h : Inv s) (ha : a.Allowed s) (hc : a.Careful s) :
    ∃ s', Timeout.step s a = some s' ∧ Inv s' := by
  cases a with
  | setTimeout e interval => exact h.setTimeout ha.1 hc.1
  | resetTimeout e => exact ⟨_, rfl, h.resetTimeout e⟩
  | clockInterrupt basepri =>
    simp only [Timeout.step, clockInterrupt]
    split
    · next hsoft => exact ⟨_, rfl, h.tick hc.1 fun _ => hc.2 (.inl hsoft.2)⟩
    · exact ⟨_, rfl, h.tick hc.1 fun hrun => hc.2 (.inr hrun)⟩
  | softclock => exact ⟨_, rfl, { h with soft := fun _ => hc }⟩
  | softclockTurn =>
    obtain ⟨s', hs', hinv, -⟩ := h.softclockTurn ha
    exact ⟨s', hs', hinv⟩

/-- The turns that are left. -/
def State.left (s : State E) : ℕ := if s.soft then s.due + 1 else 0

theorem setTimeout_left {interval : ℕ} (h : Inv s) (hset : s.set e = false)
    (hc : (Act.setTimeout e interval).Careful s) (hs : setTimeout s e interval = some s') :
    s'.left = s.left := by
  obtain ⟨hlt, hlater⟩ := hc
  have hmod : (interval + s.elapsedTicks) % 2 ^ 32 = s.elapsedTicks + interval := by
    rw [Nat.add_comm, Nat.mod_eq_of_lt]
    exact hlt.trans (by decide)
  obtain ⟨l, r, hq, hins, -⟩ := insert_spec hlt s.ticks e s.queue
  simp only [setTimeout, hmod, hins, Option.map_some, Option.some_inj] at hs
  subst hs
  unfold State.left
  dsimp only
  split
  · next hrun =>
    -- the new element is not due, and the others are as before
    have hne : ∀ x ∈ l ++ r, x ≠ e := by
      rintro x hx rfl
      rw [(h.set x).2 (hq ▸ hx)] at hset
      cases hset
    have hcongr : ∀ q : List E, (∀ x ∈ q, x ∈ l ++ r) →
        q.countP (fun x => update s.ticks e (s.elapsedTicks + interval) x ≤ s.elapsedTicks) =
          q.countP fun x => s.ticks x ≤ s.elapsedTicks := fun q hsub =>
      List.countP_congr fun x hx => by rw [update_of_ne (hne x (hsub x hx))]
    have hpos := hlater hrun
    simp only [State.due, hq, List.countP_append]
    rw [List.countP_cons_of_neg (by simpa using by omega), hcongr l fun x => List.mem_append_left _,
      hcongr r fun x => List.mem_append_right _]
  · rfl

theorem Inv.left_le (h : Inv s) (ha : a.Allowed s) (hc : a.Careful s) (hbetween : a.Between)
    (hs : Timeout.step s a = some s') :
    s'.left + (if a = .softclockTurn then 1 else 0) ≤ s.left := by
  cases a with
  | setTimeout e interval => exact (setTimeout_left h ha.1 hc hs).le
  | resetTimeout e =>
    cases hs
    unfold Timeout.resetTimeout
    split
    · unfold State.left State.due
      dsimp only
      split
      · exact Nat.succ_le_succ (List.erase_sublist.countP_le)
      · rfl
    · rfl
  | clockInterrupt basepri => exact hbetween.elim
  | softclock => exact hbetween.elim
  | softclockTurn =>
    obtain ⟨s₁, hs₁, -, hdue⟩ := h.softclockTurn ha
    obtain rfl := Option.some.inj (hs₁.symm.trans hs)
    rw [if_pos rfl]
    unfold State.left
    rw [if_pos (show s.soft = true from ha)]
    rcases hdue with hdone | ⟨hrun, hdue⟩
    · rw [hdone]
      exact Nat.succ_le_succ (Nat.zero_le _)
    · rw [if_pos hrun, hdue]

theorem Inv.turns_le (h : Inv s) {acts : List (Act E)}
    (hc : (machine E).Along (fun s a => a.Allowed s ∧ a.Careful s) s acts)
    (hr : (machine E).run s acts = some s')
    (hbetween : ∀ a ∈ acts, a.Between) : acts.count .softclockTurn ≤ s.left := by
  induction acts generalizing s with
  | nil => exact Nat.zero_le _
  | cons a acts ih =>
    obtain ⟨hfirst, hrest⟩ := List.forall_mem_cons.1 hbetween
    obtain ⟨s₁, hs₁, hr⟩ := Option.bind_eq_some_iff.1 hr
    obtain ⟨s₂, hs₂, hinv⟩ := h.step hc.1.1 hc.1.2
    obtain rfl := Option.some.inj (hs₂.symm.trans hs₁)
    have hle := ih hinv (hc.2 s₂ hs₁) hr hrest
    have hstep := h.left_le hc.1.1 hc.1.2 hfirst hs₁
    rw [List.count_cons]
    simp only [beq_iff_eq]
    omega

theorem inv_reach (h : (machine E).Reach (fun s a => a.Allowed s ∧ a.Careful s) s) : Inv s := by
  refine h.inv ?_ ?_
  · rintro _ ⟨n, hn, rfl⟩
    refine ⟨hn, le_rfl, .nil, fun _ => ?_, .nil, nofun, fun _ => rfl, ?_, by rintro ⟨⟩⟩
    · exact iff_of_false Bool.false_ne_true List.not_mem_nil
    · intro before ev after heq
      exact absurd heq (by simp [initial])
  · intro s a s' h hc hs
    obtain ⟨s₁, hs₁, h₁⟩ := h.step hc.1 hc.2
    obtain rfl := Option.some.inj (hs₁.symm.trans hs)
    exact h₁

theorem Inv.right (h : Inv s) : Right (fun s a => a.Allowed s ∧ a.Careful s) s := by
  refine ⟨⟨s.queue.map fun e => s.ticks e + (s.count - s.elapsedTicks), ?_, ?_⟩, ?_, h.punctual,
    ?_, ?_⟩
  · rw [List.map_map]
    refine List.map_congr_left fun e he => ?_
    rw [h.pending, if_pos he]
    rfl
  · exact List.pairwise_map.2 (h.sorted.imp fun hle => Nat.add_le_add_right hle _)
  · refine List.pairwise_append.2 ⟨List.pairwise_map.2 h.sorted, List.pairwise_singleton _ _, ?_⟩
    rintro _ ht _ hlast
    obtain ⟨e, he, rfl⟩ := List.mem_map.1 ht
    rw [List.mem_singleton.1 hlast]
    exact (h.last e he).le
  · intro a hc
    obtain ⟨s', hs', -⟩ := h.step hc.1 hc.2
    exact ⟨s', hs'⟩
  · intro acts s' hc hr hbetween
    refine (h.turns_le hc hr hbetween).trans ?_
    unfold State.left
    split
    · exact le_rfl
    · exact Nat.zero_le _

end Steps

/-- The timeouts are right in a run of calls that are careful. -/
theorem careful_timeouts_right (h : (machine E).Reach (fun s a => a.Allowed s ∧ a.Careful s) s) :
    Right (fun s a => a.Allowed s ∧ a.Careful s) s :=
  (inv_reach h).right

/-- Two elements are set; the function of the one with the earlier deadline is called, and sets it
again. -/
theorem careful_timeouts_right_two :
    ∃ s : State Bool, (s.queue = [true, false] ∧
        s.log = [.set true 7, .set false 6, .called false 6, .set false 9, .done 6]) ∧
      Right (fun s a => a.Allowed s ∧ a.Careful s) s :=
  ⟨_, ⟨rfl, rfl⟩, careful_timeouts_right <|
    (Machine.Reach.start (M := machine Bool) ⟨5, by decide, rfl⟩
    |>.step (.setTimeout true 2) ⟨⟨rfl, by decide⟩, by decide⟩ rfl
    |>.step (.setTimeout false 1) ⟨⟨rfl, by decide⟩, by decide⟩ rfl
    |>.step (.clockInterrupt true) ⟨fun _ => rfl, by decide⟩ rfl
    |>.step .softclockTurn ⟨by exact rfl, trivial⟩ rfl
    |>.step (.setTimeout false 3) ⟨⟨rfl, by decide⟩, by decide⟩ rfl
    |>.step .softclockTurn ⟨by exact rfl, trivial⟩ rfl)⟩

/-- A deadline that is the sentinel's: `set_timeout` does not return. -/
theorem set_timeout_spins : ¬∀ s : State Unit, (machine Unit).Reach (fun s a => a.Allowed s) s →
    Right (fun s a => a.Allowed s) s := by
  intro h
  have hright := h _ (.start ⟨1, by decide, rfl⟩)
  obtain ⟨s', hs'⟩ := hright.returns (.setTimeout () (2 ^ 32 - 2)) ⟨rfl, by decide⟩
  cases hs'

end XMach.Timeout
