import Mathlib.Tactic.Common
import XMach.Lites.LazyUrefs

/-!
# The references of a lazy send right

The entry for the name has the references that the server answers for, and the surplus. The two are
kept together as long as `mach_port_mod_refs` succeeds, which it does for a send right with enough
room; the surplus of a dead name is never released (`dead_name_keeps_surplus`).
-/

namespace XMach.LazyUrefs

open PortObject (PortType Flag)

variable {s s' : State} {e : Entry} {right : Right} {d : ℤ} {a : Act} {x n : ℕ}

section Delta

theorem delta_neg (hright : e.right = right) (hle : n ≤ e.urefs) (hpos : e.urefs ≠ 0) :
    e.delta right (-n) = (.success, { e with urefs := e.urefs - n }) := by
  unfold Entry.delta
  rw [if_neg hpos, if_neg (not_not.2 hright), if_neg (by omega), if_neg (by omega)]
  congr 2
  omega

theorem delta_pos (hright : e.right = .send) (hle : e.urefs + 1 + n ≤ portUrefsMax)
    (hpos : e.urefs ≠ 0) : e.delta .send n = (.success, { e with urefs := e.urefs + n }) := by
  unfold Entry.delta
  rw [if_neg hpos, if_neg (not_not.2 hright), if_neg (by omega), if_pos rfl, if_neg (by omega)]
  congr 2

theorem delta_other (hright : e.right ≠ right) (hpos : e.urefs ≠ 0) :
    e.delta right d = (.invalidRight, e) := by
  unfold Entry.delta
  rw [if_neg hpos, if_pos hright]

theorem delta_overflow (hright : e.right = .send) (hn : 0 < n)
    (hgt : portUrefsMax < e.urefs + 1 + n)
    (hpos : e.urefs ≠ 0) : e.delta .send n = (.urefsOverflow, e) := by
  unfold Entry.delta
  rw [if_neg hpos, if_neg (not_not.2 hright), if_neg (by omega), if_pos rfl, if_pos (by omega)]

theorem negated_nonpos (hx : x ≤ lazyUrefsLimit) : negated x ≤ 0 := by
  have hsmall : x ≤ 10000 := hx
  rw [negated, Int.bmod_eq_of_le] <;> omega

end Delta

/-- What holds of a state beside the balance. -/
structure Inv (s : State) : Prop extends Balanced s where
  isLazy : s.type.has .lazy = true
  base : s.extra.isSome = true → 0 < s.base
  alive : s.entry.right = .send → s.notice = 0
  notice : s.notice ≤ 1

section Steps

variable (h : Inv s)
include h

theorem Inv.small (hx : s.extra = some x) : x ≤ lazyUrefsLimit := by
  have hlimit := h.limit
  rw [hx, Option.getD_some] at hlimit
  omega

theorem Inv.urefs_eq (hx : s.extra = some x) :
    s.entry.urefs = s.base + (s.received + s.notice) + s.produced + x ∧ 0 < s.base ∧
    s.entry.urefs ≠ 0 := by
  have hurefs := h.urefs
  have hbase := h.base (by rw [hx]; rfl)
  rw [hx, Option.getD_some] at hurefs
  omega

theorem Inv.receive :
    Balanced { s with entry := s.entry.copyout, received := s.received + 1 } ↔
    Act.receive.Careful s := by
  have hurefs := h.urefs
  unfold Entry.copyout
  simp only [Act.Careful]
  split_ifs with hmax
  · refine iff_of_false (fun hb => ?_) (not_not.2 hmax)
    have := hb.urefs
    simp only at this
    omega
  · refine iff_of_true ⟨?_, h.limit⟩ hmax
    simp only
    omega

theorem Inv.sendLookup (hr : s.received ≠ 0) : Balanced (sendLookup s) ↔
    Act.sendLookup.Careful s := by
  unfold LazyUrefs.sendLookup Act.Careful
  rcases hx : s.extra with _ | x
  · exact iff_of_true h.toBalanced nofun
  · have hsmall := h.small hx
    obtain ⟨hurefs, -, hpos⟩ := h.urefs_eq hx
    have hnext : (x + 1) % 2 ^ 32 = x + 1 :=
      Nat.mod_eq_of_lt (by unfold lazyUrefsLimit at hsmall; omega)
    simp only [h.isLazy, Bool.and_true, hnext, Option.some.injEq]
    by_cases hc : s.type.has .consume = true
    swap
    · rw [if_neg hc]
      exact iff_of_true h.toBalanced fun _ hcon => absurd hcon hc
    rw [if_pos hc]
    split_ifs with hgt
    · have hfull : x = lazyUrefsLimit := by omega
      have hless : (x + 1 + (2 ^ 32 - lazyUrefsDelta)) % 2 ^ 32 = 8001 := by rw [hfull]; rfl
      rw [hfull] at hurefs
      unfold lazyUrefsLimit at hurefs
      rw [hless]
      by_cases hsend : s.entry.right = .send
      · refine iff_of_true ⟨?_, ?_⟩ fun _ _ => hsend
        · rw [delta_neg hsend (by unfold lazyUrefsDelta; omega) hpos]
          simp only [lazyUrefsDelta, Option.getD_some]
          omega
        · simp only [Option.getD_some, lazyUrefsLimit]
          omega
      · refine iff_of_false (fun hb => ?_) fun hcon => hsend (hcon hfull hc)
        have := hb.urefs
        rw [delta_other hsend hpos] at this
        simp only [Option.getD_some] at this
        omega
    · refine iff_of_true ⟨?_, ?_⟩ fun hfull => ?_
      · simp only [Option.getD_some]
        omega
      · simp only [Option.getD_some]
        omega
      · omega

theorem Inv.copySend : Balanced (copySend s) ↔ Act.copySend.Careful s := by
  unfold LazyUrefs.copySend Act.Careful
  rcases hx : s.extra with _ | x
  · exact iff_of_true h.toBalanced nofun
  · have hsmall := h.small hx
    obtain ⟨hurefs, -, hpos⟩ := h.urefs_eq hx
    unfold lazyUrefsLimit at hsmall
    simp only [h.isLazy, if_true, Option.some.injEq]
    by_cases hzero : x = 0
    · rw [if_pos hzero]
      by_cases hroom : s.entry.right = .send ∧ s.entry.urefs + 1 + lazyUrefsDelta ≤ portUrefsMax
      · simp only [delta_pos hroom.1 hroom.2 hpos, if_true]
        have hless : (x + lazyUrefsDelta + (2 ^ 32 - 1)) % 2 ^ 32 = 1999 := by rw [hzero]; rfl
        have hdelta : lazyUrefsDelta = 2000 := rfl
        rw [hless]
        refine iff_of_true ⟨?_, ?_⟩ fun _ => hroom
        · show s.entry.urefs + lazyUrefsDelta =
            s.base + (s.received + s.notice) + (s.produced + 1) + 1999
          omega
        · show 1999 ≤ lazyUrefsLimit
          unfold lazyUrefsLimit
          omega
      · -- the surplus is counted down from nothing
        obtain ⟨kr, hne, hkr⟩ : ∃ kr, kr ≠ .success ∧
          s.entry.delta .send lazyUrefsDelta = (kr, s.entry) := by
          by_cases hsend : s.entry.right = .send
          · have hgt : portUrefsMax < s.entry.urefs + 1 + lazyUrefsDelta :=
              Nat.lt_of_not_le fun hle => hroom ⟨hsend, hle⟩
            exact ⟨.urefsOverflow, nofun, delta_overflow hsend (Nat.succ_pos 1999) hgt hpos⟩
          · exact ⟨.invalidRight, nofun, delta_other hsend hpos⟩
        simp only [hkr, if_neg hne]
        refine iff_of_false (fun hb => ?_) fun hcon => hroom (hcon hzero)
        have := hb.limit
        simp only [hzero, lazyUrefsLimit, Option.getD_some] at this
        omega
    · rw [if_neg hzero]
      have hless : (x + (2 ^ 32 - 1)) % 2 ^ 32 = x - 1 := by omega
      refine iff_of_true ⟨?_, ?_⟩ fun hcon => absurd hcon hzero
      · simp only [hless, Option.getD_some]
        omega
      · simp only [hless, Option.getD_some, lazyUrefsLimit]
        omega

theorem Inv.deadName (hnotice : s.notice ≠ 0) : Balanced (deadName s) ↔ Act.deadName.Careful s := by
  unfold LazyUrefs.deadName Act.Careful
  rcases hx : s.extra with _ | x
  · exact iff_of_true h.toBalanced nofun
  · obtain ⟨hurefs, hbase, -⟩ := h.urefs_eq hx
    have hone := h.notice
    -- `delta` is not positive, whatever the surplus
    have hkept : ∀ e, deleteExtraUrefs e x = e := fun e => if_pos (negated_nonpos (h.small hx))
    have hsurplus : (∀ y, some x = some y → y = 0) ↔ x = 0 := by simp
    simp only [hkept, hsurplus]
    split_ifs
    · constructor
      · intro hb
        have := hb.urefs
        simp only [Entry.drop, Option.getD_none] at this
        omega
      · rintro rfl
        refine ⟨?_, Nat.zero_le _⟩
        simp only [Entry.drop, Option.getD_none]
        omega
    · constructor
      · intro hb
        have := hb.urefs
        simp only [Option.getD_none] at this
        omega
      · rintro rfl
        exact ⟨by simpa using hurefs, Nat.zero_le _⟩

/-- A step keeps the books exactly if it is a careful one. -/
theorem Inv.balanced_iff (hs : step s a = some s') : Balanced s' ↔ a.Careful s := by
  rcases a with _ | _ | _ | _ | _ | _ | _ <;> simp only [step, Option.ite_none_left_eq_some,
    Option.ite_none_right_eq_some, Option.some.injEq] at hs
  case receive =>
    obtain ⟨-, rfl⟩ := hs
    exact h.receive
  case sendLookup =>
    obtain ⟨hr, rfl⟩ := hs
    exact h.sendLookup hr
  case copySend =>
    obtain rfl := hs
    exact h.copySend
  case move =>
    obtain ⟨hp, rfl⟩ := hs
    have hurefs := h.urefs
    refine iff_of_true ⟨?_, h.limit⟩ trivial
    simp only [Entry.drop]
    omega
  case keep =>
    obtain ⟨hp, rfl⟩ := hs
    have hurefs := h.urefs
    refine iff_of_true ⟨?_, h.limit⟩ trivial
    simp only
    omega
  case die =>
    obtain ⟨hsend, rfl⟩ := hs
    have hurefs := h.urefs
    have hnone := h.alive hsend
    refine iff_of_true ⟨?_, h.limit⟩ trivial
    simp only
    omega
  case deadName =>
    obtain ⟨hn, rfl⟩ := hs
    exact h.deadName hn

end Steps

section Frame

@[simp] theorem drop_right (e : Entry) : e.drop.right = e.right := rfl

@[simp] theorem copyout_right (e : Entry) : e.copyout.right = e.right := by
  unfold Entry.copyout
  split_ifs <;> rfl

@[simp] theorem delta_right (e : Entry) (right : Right) (d : ℤ) :
    (e.delta right d).2.right = e.right := by
  unfold Entry.delta
  split_ifs <;> rfl

@[simp] theorem deleteExtraUrefs_right (e : Entry) (x : ℕ) :
    (deleteExtraUrefs e x).right = e.right := by
  unfold deleteExtraUrefs
  dsimp only
  split_ifs <;> simp

/-- What the calls for a living object leave alone. -/
structure Kept (s s' : State) : Prop where
  right : s'.entry.right = s.entry.right
  type : s'.type = s.type
  extra : s'.extra.isSome = s.extra.isSome
  base : s'.base = s.base
  notice : s'.notice = s.notice

theorem sendLookup_kept (s : State) : Kept s (sendLookup s) := by
  unfold sendLookup
  rcases hx : s.extra with _ | x
  · exact ⟨rfl, rfl, rfl, rfl, rfl⟩
  · dsimp only
    split_ifs <;> constructor <;> simp [hx]

theorem copySend_kept (s : State) : Kept s (copySend s) := by
  unfold copySend
  rcases hx : s.extra with _ | x
  · exact ⟨rfl, rfl, rfl, rfl, rfl⟩
  · dsimp only
    split_ifs <;> constructor <;> simp [hx]

theorem Inv.kept (h : Inv s) (hk : Kept s s') (hb : Balanced s') : Inv s' :=
  ⟨hb, hk.type ▸ h.isLazy, fun hx => hk.base ▸ h.base (hk.extra ▸ hx),
    fun hr => hk.notice ▸ h.alive (hk.right ▸ hr), hk.notice ▸ h.notice⟩

theorem deadName_right (s : State) : (deadName s).entry.right = s.entry.right := by
  unfold deadName
  rcases s.extra with _ | x
  · rfl
  · dsimp only
    split_ifs <;> simp

theorem deadName_type (s : State) : (deadName s).type = s.type := by
  unfold deadName
  rcases s.extra with _ | x
  · rfl
  · dsimp only
    split_ifs <;> rfl

theorem deadName_extra (s : State) : (deadName s).extra = none := by
  unfold deadName
  rcases hx : s.extra with _ | x
  · exact hx
  · rfl

theorem deadName_notice (s : State) : (deadName s).notice ≤ s.notice := by
  unfold deadName
  rcases s.extra with _ | x
  · exact Nat.le_refl _
  · dsimp only
    split_ifs <;> simp

end Frame

theorem Inv.step (h : Inv s) (hc : a.Careful s) (hs : step s a = some s') : Inv s' := by
  have hb := (h.balanced_iff hs).2 hc
  rcases a with _ | _ | _ | _ | _ | _ | _ <;> simp only [LazyUrefs.step,
    Option.ite_none_left_eq_some, Option.ite_none_right_eq_some, Option.some.injEq] at hs
  case receive =>
    obtain ⟨-, rfl⟩ := hs
    exact h.kept ⟨copyout_right _, rfl, rfl, rfl, rfl⟩ hb
  case sendLookup =>
    obtain ⟨-, rfl⟩ := hs
    exact h.kept (sendLookup_kept s) hb
  case copySend =>
    obtain rfl := hs
    exact h.kept (copySend_kept s) hb
  case move =>
    obtain ⟨-, rfl⟩ := hs
    exact h.kept ⟨rfl, rfl, rfl, rfl, rfl⟩ hb
  case keep =>
    obtain ⟨-, rfl⟩ := hs
    exact h.kept ⟨rfl, rfl, rfl, rfl, rfl⟩ hb
  case die =>
    obtain ⟨-, rfl⟩ := hs
    exact ⟨hb, h.isLazy, h.base, nofun, Nat.le_refl _⟩
  case deadName =>
    obtain ⟨hn, rfl⟩ := hs
    refine ⟨hb, (deadName_type s).symm ▸ h.isLazy, ?_, fun hr => ?_,
      Nat.le_trans (deadName_notice s) h.notice⟩
    · rw [deadName_extra]
      nofun
    · exact absurd (h.alive (deadName_right s ▸ hr)) hn

theorem inv_start (h : machine.start s) : Inv s := by
  obtain ⟨type, n, hn, -, hlazy, rfl⟩ := h
  exact ⟨⟨rfl, Nat.zero_le _⟩, hlazy, fun _ => hn, fun _ => rfl, Nat.zero_le _⟩

theorem inv_reach (h : machine.Reach (fun s a => a.Careful s) s) : Inv s :=
  h.inv (fun _ => inv_start) fun _ _ _ h hc hs => h.step hc hs

/-- The references are balanced in every state that careful steps lead to, and from there a step
keeps them so exactly if it is careful. -/
theorem careful_urefs_balanced (h : machine.Reach (fun s a => a.Careful s) s) :
    Balanced s ∧ ∀ a s', step s a = some s' → (Balanced s' ↔ a.Careful s) :=
  ⟨(inv_reach h).toBalanced, fun _ _ hs => (inv_reach h).balanced_iff hs⟩

theorem start_task : machine.start (enterSend .task 1) := ⟨.task, 1, by decide, by decide, rfl, rfl⟩

/-- A right comes in and is consumed, the surplus is used for one that goes out. -/
theorem careful_urefs_balanced_task :
    Balanced ⟨⟨.deadName, 0⟩, .task, none, 0, 0, 0, 0⟩ ∧ ∀ a s',
      step ⟨⟨.deadName, 0⟩, .task, none, 0, 0, 0, 0⟩ a = some s' →
        (Balanced s' ↔ a.Careful ⟨⟨.deadName, 0⟩, .task, none, 0, 0, 0, 0⟩) :=
  careful_urefs_balanced <| (Machine.Reach.start start_task
    |>.step .receive (show 1 + 1 ≠ portUrefsMax by decide) rfl |>.step .sendLookup nofun rfl |>.step
      .copySend nofun rfl
    |>.step .move trivial rfl |>.step .die trivial rfl |>.step .deadName (by rintro x ⟨⟩; rfl) rfl)

/-- After the notification the surplus stays in the entry. -/
theorem dead_name_keeps_surplus : ¬∀ s, machine.Reach Machine.Any s → Balanced s := by
  intro h
  have hrun : machine.Reach Machine.Any ⟨⟨.deadName, 1⟩, .task, none, 0, 0, 0, 0⟩ :=
    Machine.Reach.start start_task |>.step .receive trivial rfl |>.step .sendLookup trivial rfl
      |>.step .die trivial rfl |>.step .deadName trivial rfl
  exact absurd (h _ hrun).urefs (by decide)

end XMach.LazyUrefs
