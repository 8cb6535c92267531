import XMach.Vm.Paging
import XMach.Lib.Machine

/-!
# Those who wait for paging activity

A thread that sleeps on the paging event of an object has found the count of the object above zero,
and `vm_object_paging_end` wakes it before it leaves the count at zero. What can leave a sleeper
with a count of zero is a step that does not wake: `paging_in_progress--`, which
`vm_fault_wire_fast` does and no other operation (`lowers_mem_code`), and an increment that
overflows. A run without either is right as long as `vm_fault_wire_fast` does not work on an object
together with an operation that may wait for it (`reachable_awaited`), and `wireFast_strands` is a
run of two threads in which it does.
-/

namespace XMach.Paging

open Function

variable {s s' : State} {t o object : ℕ} {i : Instr} {code code' rest : List Instr} {e : Event}
  {f : Fault} {topPage : Option ℕ} {destroyed : List Destroyed}

section Code

/-- The count of no object is lowered without `vm_object_paging_end`. -/
def Plain (code : List Instr) : Prop := ∀ o, .lowers o ∉ code

@[simp] theorem plain_nil : Plain [] := by simp [Plain]

@[simp] theorem plain_cons : Plain (i :: code) ↔ (∀ o, i ≠ .lowers o) ∧ Plain code := by
  simp [Plain, forall_and, eq_comm]

@[simp] theorem plain_append : Plain (code ++ code') ↔ Plain code ∧ Plain code' := by
  simp [Plain, forall_and]

@[simp] theorem plain_deallocate (destroyed : List Destroyed) : Plain (deallocate destroyed) := by
  simp [Plain, deallocate, terminate, pageoutPage]

@[simp] theorem plain_cleanup (object : ℕ) (topPage : Option ℕ) :
    Plain (cleanup object topPage) := by
  cases topPage <;> simp [cleanup]

@[simp] theorem plain_finish (r : Option Result) : Plain (finish r) := by
  unfold finish
  split <;> simp

@[simp] theorem plain_after {path : Path} : Plain (Path.after code path).1 ↔ Plain code ∧
    Plain path.1 :=
  plain_append

@[simp] theorem plain_giveUp (object : ℕ) (topPage : Option ℕ) (r : Result) :
    Plain (giveUp object topPage r).1 := plain_cleanup object topPage

theorem plain_push (pushes : List Push) (object : ℕ) (topPage : Option ℕ) :
    Plain (push f object topPage pushes).1 := by
  fun_induction push f object topPage pushes <;> simp_all [backoff, pageoutPage]

theorem plain_found (object : ℕ) (topPage : Option ℕ) : Plain (found f object topPage).1 := by
  unfold found
  split_ifs <;> simp [plain_push]

theorem plain_zeroFill (object : ℕ) (converts : Bool) : Plain (zeroFill f object converts).1 := by
  unfold zeroFill
  split_ifs <;> simp [plain_found]

theorem plain_search (views : List View) (object : ℕ) (topPage : Option ℕ) :
    Plain (search f views object topPage).1 := by
  have hdescend : ∀ object next, Plain (descend f object next) := by
    intro object next
    unfold descend
    split_ifs <;> simp
  fun_induction search f views object topPage <;>
    simp_all [backoff, sendFailed, plain_found, plain_zeroFill]

theorem plain_copySlowly (destroyed : List Destroyed) (fs : List Fault) :
    Plain (copySlowly destroyed fs) := by
  induction fs with
  | nil => exact plain_deallocate destroyed
  | cons f fs ih =>
    unfold copySlowly
    split <;> simp [faultPage, plain_search, ih]

/-- The bare `--` is that of `vm_fault_wire_fast`, on its object. -/
theorem lowers_mem_code (op : Op) (o : ℕ) :
    .lowers o ∈ op.code ↔ ∃ destroyed, op = .wireFast o destroyed := by
  have hplain : ∀ {code}, Plain code → (Instr.lowers o ∈ code ↔ False) :=
    fun h => iff_of_false (h o) id
  cases op with
  | wireFast object destroyed =>
    have := plain_deallocate destroyed o
    simp [Op.code, wireFast, this, eq_comm]
  | fault f destroyed =>
    rw [hplain]
    · simp
    · simp only [Op.code, fault]
      split <;> simp [faultPage, plain_search]
  | copySlowly src fs destroyed =>
    simp [Op.code, hplain (plain_copySlowly _ _)]
  | deallocate destroyed =>
    simp [Op.code, hplain (plain_deallocate _)]
  | destroy object destroyed =>
    simp [Op.code, memoryObjectDestroy, hplain (plain_deallocate _)]

end Code

section Steps

/-- Whoever sleeps on the paging event of an object waits for activity that there is. -/
def Awaited (s : State) : Prop := ∀ t o, s.asleep t = some o → 0 < (s.pagingInProgress o).toNat

/-- The sleepers have left a note. -/
def Wanted (s : State) : Prop := ∀ t o, s.asleep t = some o → s.wanted o = true

def Awake (s : State) (o : ℕ) : Prop := ∀ t, s.asleep t ≠ some o

/-- The sleepers are in `vm_object_paging_wait`. -/
def Waiting (s : State) : Prop := ∀ t o, s.asleep t = some o → .waits o ∈ s.code t

/-- No thread is in `vm_fault_wire_fast` on an object that another one may come to wait for. -/
def Apart (s : State) : Prop := ∀ t u o, t ≠ u → .lowers o ∈ s.code t → .waits o ∉ s.code u

/-- An operation is called only if it does not bring `vm_fault_wire_fast` on an object together with
a wait for it in another thread, and a paging operation begins only while the count is below its
largest. -/
def Careful (s : State) : Event → Prop
  | .start t op => ∀ u o, u ≠ t → (.lowers o ∈ op.code → .waits o ∉ s.code u) ∧
      (.waits o ∈ op.code → .lowers o ∉ s.code u)
  | .run t => ∀ o rest, s.code t = .begins o :: rest → (s.pagingInProgress o).toNat < 65535

theorem toNat_pos {a : BitVec 16} : 0 < a.toNat ↔ a ≠ 0 := by
  rw [Nat.pos_iff_ne_zero, ne_eq, ne_eq, ← BitVec.toNat_inj]
  rfl

theorem awaited_iff_ne : Awaited s ↔ ∀ t o, s.asleep t = some o → s.pagingInProgress o ≠ 0 := by
  simp only [Awaited, toNat_pos]

theorem awaited_setCount (h : Awaited s) (object : ℕ) (count : BitVec 16) (t : ℕ)
    (rest : List Instr) :
    Awaited (goto t rest (setCount object count s)) ↔ (count = 0 → Awake s object) := by
  rw [awaited_iff_ne] at h ⊢
  constructor
  · intro h' hzero u hu
    refine h' u object hu ?_
    show update s.pagingInProgress object count object = 0
    rw [update_self, hzero]
  · intro hcount u o hu
    show update s.pagingInProgress object count o ≠ 0
    by_cases ho : o = object
    · subst ho
      rw [update_self]
      intro hzero
      exact hcount hzero u hu
    · rw [update_of_ne ho]
      exact h u o hu

/-- Nobody sleeps on the event of an object any more when those who wanted it have been woken. -/
theorem wakeup_asleep (h : Wanted s) {u : ℕ} (hu : (wakeup object s).asleep u = some o) :
    s.asleep u = some o ∧ o ≠ object := by
  unfold wakeup at hu
  split_ifs at hu with hwanted
  · by_cases hobject : s.asleep u = some object
    · cases (if_pos hobject).symm.trans hu
    · have hsleep : s.asleep u = some o := (if_neg hobject).symm.trans hu
      exact ⟨hsleep, fun ho => hobject (ho ▸ hsleep)⟩
  · refine ⟨hu, ?_⟩
    rintro rfl
    exact hwanted (h u o hu)

theorem wakeup_pagingInProgress : (wakeup object s).pagingInProgress = s.pagingInProgress := by
  unfold wakeup
  split_ifs <;> rfl

theorem wakeup_wanted (ho : o ≠ object) : (wakeup object s).wanted o = s.wanted o := by
  unfold wakeup
  split_ifs
  · exact update_of_ne ho _ _
  · rfl

theorem exec_wanted (h : Wanted s) (t : ℕ) (rest : List Instr) (i : Instr) :
    Wanted (exec s t rest i) := by
  cases i with
  | begins object => exact h
  | lowers object => exact h
  | ends object =>
    simp only [exec]
    split_ifs
    · intro u o hu
      obtain ⟨hsleep, ho⟩ := wakeup_asleep (by exact h) hu
      rw [wakeup_wanted ho]
      exact h u o hsleep
    · exact h
  | waits object =>
    simp only [exec]
    split_ifs
    · exact h
    · intro u o hu
      by_cases ho : o = object
      · rw [ho]
        exact update_self ..
      · refine (update_of_ne ho _ _).trans ?_
        by_cases hut : u = t
        · subst hut
          exact absurd (Option.some.inj ((update_self u _ s.asleep).symm.trans hu)).symm ho
        · exact h u o ((update_of_ne hut _ _).symm.trans hu)

/-- An instruction keeps the sleepers right, if those that do not wake anybody leave no count at
zero that somebody sleeps on. -/
theorem exec_awaited (hwanted : Wanted s) (h : Awaited s) (t : ℕ) (rest : List Instr) (i : Instr)
    (hbegins : ∀ o, i = .begins o → s.pagingInProgress o + 1 ≠ 0)
    (hlowers : ∀ o, i = .lowers o → Awake s o) :
    Awaited (exec s t rest i) := by
  cases i with
  | begins object =>
    exact (awaited_setCount h object _ t rest).2 fun hzero => absurd hzero (hbegins object rfl)
  | lowers object => exact (awaited_setCount h object _ t rest).2 fun _ => hlowers object rfl
  | ends object =>
    simp only [exec]
    split_ifs with hzero
    · rw [awaited_iff_ne] at h ⊢
      intro u o hu
      obtain ⟨hsleep, ho⟩ := wakeup_asleep (by exact hwanted) hu
      rw [wakeup_pagingInProgress]
      show update s.pagingInProgress object _ o ≠ 0
      rw [update_of_ne ho]
      exact h u o hsleep
    · refine (awaited_setCount h object _ t rest).2 fun hcount => absurd ?_ hzero
      show update s.pagingInProgress object _ object = 0
      rw [update_self, hcount]
  | waits object =>
    simp only [exec]
    split_ifs with hzero
    · exact h
    · rw [awaited_iff_ne] at h ⊢
      intro u o hu
      by_cases hut : u = t
      · subst hut
        obtain rfl := Option.some.inj ((update_self u _ s.asleep).symm.trans hu)
        exact hzero
      · exact h u o ((update_of_ne hut _ _).symm.trans hu)

theorem exec_code (t : ℕ) (rest : List Instr) (i : Instr) :
    ((exec s t rest i).code = update s.code t rest ∧
      ∀ u o, (exec s t rest i).asleep u = some o → s.asleep u = some o) ∨
    ∃ o, i = .waits o ∧ (exec s t rest i).code = s.code ∧
      (exec s t rest i).asleep = update s.asleep t (some o) := by
  cases i with
  | begins object => exact .inl ⟨rfl, fun u o hu => hu⟩
  | lowers object => exact .inl ⟨rfl, fun u o hu => hu⟩
  | ends object =>
    left
    simp only [exec, wakeup]
    split_ifs
    · refine ⟨rfl, fun u o hu => ?_⟩
      by_cases hobject : s.asleep u = some object
      · cases (if_pos hobject).symm.trans hu
      · exact (if_neg hobject).symm.trans hu
    · exact ⟨rfl, fun u o hu => hu⟩
    · exact ⟨rfl, fun u o hu => hu⟩
  | waits object =>
    simp only [exec]
    split_ifs
    · exact .inl ⟨rfl, fun u o hu => hu⟩
    · exact .inr ⟨object, rfl, rfl, rfl⟩

/-- What a step of a thread leaves of its code and that of the others. -/
theorem mem_exec_code {u : ℕ} {j : Instr} (hcode : s.code t = i :: rest)
    (h : j ∈ (exec s t rest i).code u) : j ∈ s.code u := by
  rcases exec_code (s := s) t rest i with ⟨hupd, -⟩ | ⟨-, -, hsame, -⟩
  · rw [hupd] at h
    by_cases hu : u = t
    · subst hu
      rw [update_self] at h
      rw [hcode]
      exact List.mem_cons_of_mem _ h
    · rwa [update_of_ne hu] at h
  · rwa [hsame] at h

theorem exec_waiting (h : Waiting s) (hcode : s.code t = i :: rest) (hawake : s.asleep t = none) :
    Waiting (exec s t rest i) := by
  intro u o hu
  rcases exec_code (s := s) t rest i with ⟨hupd, hsleep⟩ | ⟨o', rfl, hsame, hsleep⟩
  · have hu' := hsleep u o hu
    have hne : u ≠ t := by
      rintro rfl
      rw [hawake] at hu'
      cases hu'
    rw [hupd, update_of_ne hne]
    exact h u o hu'
  · rw [hsame]
    rw [hsleep] at hu
    by_cases hut : u = t
    · subst hut
      rw [update_self] at hu
      cases hu
      rw [hcode]
      exact List.mem_cons_self
    · rw [update_of_ne hut] at hu
      exact h u o hu

end Steps

section Runs

/-- What holds in the states of a careful run. -/
structure Inv (s : State) : Prop where
  wanted : Wanted s
  waiting : Waiting s
  apart : Apart s
  awaited : Awaited s

theorem Inv.start (h : Inv s) {op : Op} (hidle : s.code t = []) (hcare : Careful s (.start t op)) :
    Inv (goto t op.code s) := by
  refine ⟨h.wanted, fun u o hu => ?_, fun u v o hne hu hv => ?_, h.awaited⟩
  · have hmem := h.waiting u o hu
    have hne : u ≠ t := by
      rintro rfl
      rw [hidle] at hmem
      cases hmem
    exact (congrArg (Instr.waits o ∈ ·) (update_of_ne hne op.code s.code)).mpr hmem
  · have hold : ∀ {w}, w ≠ t → (goto t op.code s).code w = s.code w := fun hw => update_of_ne hw _ _
    have hnew : (goto t op.code s).code t = op.code := update_self ..
    by_cases hut : u = t
    · subst hut
      rw [hnew] at hu
      rw [hold hne.symm] at hv
      exact (hcare v o hne.symm).1 hu hv
    · rw [hold hut] at hu
      by_cases hvt : v = t
      · subst hvt
        rw [hnew] at hv
        exact (hcare u o hne).2 hv hu
      · rw [hold hvt] at hv
        exact h.apart u v o hne hu hv

theorem Inv.exec (h : Inv s) (hcode : s.code t = i :: rest) (hawake : s.asleep t = none)
    (hcare : Careful s (.run t)) : Inv (exec s t rest i) := by
  refine ⟨exec_wanted h.wanted t rest i, exec_waiting h.waiting hcode hawake,
    fun u v o hne hu hv => ?_,
    exec_awaited h.wanted h.awaited t rest i (fun o hi hzero => ?_) fun o hi u hu => ?_⟩
  · exact h.apart u v o hne (mem_exec_code hcode hu) (mem_exec_code hcode hv)
  · subst hi
    have hlt := hcare o rest hcode
    have hnat := congrArg BitVec.toNat hzero
    rw [BitVec.toNat_add] at hnat
    exact absurd hnat (by simp; omega)
  · -- a sleeper is another thread, which is in `vm_object_paging_wait`
    subst hi
    have hne : t ≠ u := by
      rintro rfl
      rw [hawake] at hu
      cases hu
    refine h.apart t u o hne ?_ (h.waiting u o hu)
    rw [hcode]
    exact List.mem_cons_self

theorem inv_step (h : Inv s) (hcare : Careful s e) (hstep : step s e = some s') : Inv s' := by
  cases e with
  | start t op =>
    simp only [step] at hstep
    split_ifs at hstep with hidle
    cases hstep
    exact h.start hidle hcare
  | run t =>
    simp only [step] at hstep
    split_ifs at hstep with hawake
    cases hcode : s.code t with
    | nil =>
      rw [hcode] at hstep
      cases hstep
    | cons i rest =>
      rw [hcode] at hstep
      cases hstep
      exact h.exec hcode hawake hcare

def machine : Machine State Event := ⟨(· = initial), step⟩

/-- In every state of a careful run those who sleep wait for activity that there is. What is
careful concerns `vm_fault_wire_fast` only, since every other decrement is that of
`vm_object_paging_end`. -/
theorem reachable_awaited (h : machine.Reach Careful s) :
    Awaited s ∧ ∀ (op : Op) o, .lowers o ∈ op.code ↔ ∃ destroyed, op = .wireFast o destroyed := by
  refine ⟨(h.inv (I := Inv) ?_ fun _ _ _ hi hc hs => inv_step hi hc hs).awaited, lowers_mem_code⟩
  rintro s rfl
  exact ⟨nofun, nofun, nofun, nofun⟩

/-- A page that is there is found at once. -/
def foundAtOnce : Fault where
  firstObject := 7
  write := false
  mustBeResident := false
  views := [⟨some ⟨false, false, false, false, false⟩, none, true, true, true, false, true, true,
    .success, .awakened⟩]
  copies := true
  pushes := [⟨none, true, none, true, true, false, [], .awakened⟩]

/-- A fault on an object, and a thread that destroys its memory object meanwhile and sleeps. A third
wires a page of another object. -/
def awaited : List Event :=
  [.start 2 (.wireFast 8 []), .run 2, .start 0 (.fault foundAtOnce []), .run 0,
    .start 1 (.destroy 7 []), .run 1]

theorem reachable_awaited_destroy : ∃ s, machine.run initial awaited = some s ∧
    s.asleep 1 = some 7 ∧ Awaited s := by
  have hfault : (Op.fault foundAtOnce []).code = [.begins 7, .ends 7] := rfl
  have hwire : (Op.wireFast 8 []).code = [.begins 8, .lowers 8] := rfl
  have hdestroy : (Op.destroy 7 []).code = [.waits 7] := rfl
  have hcare : machine.Along Careful initial awaited := by
    simp [Machine.Along, awaited, machine, step, Careful, initial, hfault, hwire, hdestroy, goto,
      exec, setCount, update_apply]
    intro u _
    split_ifs <;> simp
  obtain ⟨s, hrun, hsleep⟩ : ∃ s, machine.run initial awaited = some s ∧ s.asleep 1 = some 7 :=
    ⟨_, rfl, rfl⟩
  exact ⟨s, hrun, hsleep, (reachable_awaited ((Machine.Reach.start rfl).run hcare hrun)).1⟩

/-- One thread wires a page of an object while another destroys its memory object. -/
def stranded : List Event :=
  [.start 0 (.wireFast 7 []), .run 0, .start 1 (.destroy 7 []), .run 1, .run 0]

/-- The thread that destroys sleeps, and there is no activity that it could wait for. -/
theorem wireFast_strands : ∃ s, machine.run initial stranded = some s ∧ s.asleep 1 = some 7 ∧
    (s.pagingInProgress 7).toNat = 0 := by
  refine ⟨(machine.run initial stranded).get (by rfl), (Option.some_get _).symm, ?_, ?_⟩
  · rfl
  · rfl

end Runs

end XMach.Paging
