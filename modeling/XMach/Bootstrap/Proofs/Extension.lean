import XMach.Bootstrap.Extension
import XMach.Bootstrap.Proofs.BlockMap
import XMach.Lib.Outcome

/-!
# Extensions of one paging object by several threads

A thread that finds its page past the end of the object extends it later, to a size that it has
chosen for its page alone. Sizes up to the limit are doubled from the current one and never shrink
it. Beyond the limit the new size is that of the page, rounded up, whatever the object has by then:
a smaller one cuts the map off, and the copy runs past its end. In a run without such an extension
the map only grows, and a thread extends it once at most.
-/

namespace XMach.Extension

open DefaultPager Function

variable {α : Type} {parts : Parts α} {pager : Dpager} {m : BlockMap} {f g n old new : ℕ}

/-- A map with the entries of another one, and no fewer pages. -/
structure Grown (m m' : BlockMap) : Prop where
  size : m.size ≤ m'.size
  entries : ∀ f, m.get f ≠ noBlock → m'.get f = m.get f

theorem Grown.refl (m : BlockMap) : Grown m m := ⟨le_rfl, fun _ _ => rfl⟩

/-- Every store is into the map that is allocated. -/
def Filled.Inside (x : Filled) : Prop := ∀ i ∈ x.stores, i < x.length

section Extend

/-- An extension does not shrink the map exactly if it is by doubling, or to a size that is no
smaller. -/
theorem le_newSize_iff : old ≤ newSize old (f + 1) ↔
    (maxDoubled ≤ f → old ≤ roundupToPagemap (f + 1)) := by
  unfold newSize
  split_ifs with h
  · exact iff_of_true (le_doubled _ _ _) fun hf => absurd hf (not_le.2 h)
  · exact ⟨fun hle _ => hle, fun hle => hle (Nat.le_of_lt_succ (not_le.1 h))⟩

theorem grown_extend (h : m.size ≤ newSize m.size n) : Grown m (m.extend n) where
  size := h.trans_eq BlockMap.size_extend.symm
  entries f hf := by
    rw [BlockMap.get_extend, if_pos ((BlockMap.lt_size_of_get hf).trans_le h)]

theorem inside_fill (h : old ≤ new) : (fill old new).Inside := by
  intro i hi
  rcases List.mem_append.1 hi with hi | hi
  · exact (List.mem_range.1 hi).trans_le h
  · have := (List.mem_range'_1.1 hi).2
    show i < new
    omega

theorem indirectEntries_ge {k : ℕ} (h : k * pagemapEntries ≤ n) : k ≤ indirectEntries n := by
  unfold indirectEntries pagemapEntries at *
  omega

/-- The stores of an extension that does not shrink the map are in the maps that it allocates. -/
theorem inside_fills (h : m.size ≤ newSize m.size n) : ∀ x ∈ fills m n, x.Inside := by
  cases m with
  | indirect ms hi =>
    rw [fills]
    refine List.forall_mem_singleton.2 (inside_fill ?_)
    exact indirectEntries_ge h
  | direct es hd =>
    rw [fills]
    split_ifs with hn
    · have hle : es.length ≤ pagemapEntries := Nat.le_of_dvd (by decide) hd
      rw [List.forall_mem_cons, List.forall_mem_singleton]
      exact ⟨inside_fill hle, inside_fill (lt_indirectEntries hn).le⟩
    · exact List.forall_mem_singleton.2 (inside_fill h)

end Extend

section Turn

/-- After the loop a block is recorded for the page if it had none, and nothing else. -/
theorem blockFor_spec (parts : Parts α) (hf : f < pager.map.size) :
    Ends (blockFor parts pager f)
      (fun r => r.2.2.map.size = pager.map.size ∧ Grown pager.map r.2.2.map) fun _ => True := by
  have hpages : f ∈ (pager.map.touch f).pages := BlockMap.mem_pages_touch hf
  have htouch : Grown pager.map (pager.map.touch f) :=
    ⟨BlockMap.size_touch.ge, fun g _ => BlockMap.get_touch⟩
  unfold blockFor
  simp only
  split_ifs with hget
  · exact ⟨BlockMap.size_touch, htouch⟩
  · have hroom : Ends (getRoom parts pager.curPartition) (fun _ => True) fun _ => True := by
      cases getRoom parts pager.curPartition <;> trivial
    refine hroom.bind ?_
    rintro ⟨off, cur, parts₁⟩ -
    cases off with
    | none => exact ⟨BlockMap.size_touch, htouch⟩
    | some b =>
      have hsize : ((pager.map.touch f).put f ⟨BitVec.ofNat 24 b, cur⟩).size = pager.map.size :=
        BlockMap.size_put.trans BlockMap.size_touch
      refine ⟨hsize, hsize.ge, fun g hg => ?_⟩
      rw [BlockMap.get_put hpages, BlockMap.get_touch]
      split_ifs with heq
      · subst heq
        rw [BlockMap.get_touch] at hget
        exact absurd hg hget
      · rfl

/-- The thread goes on to extend an object that does not have its page, or is done with one that
has. -/
structure Turned (pager : Dpager) (f : ℕ) (r : Parts α × Dpager × Pc) : Prop where
  grown : Grown pager.map r.2.1.map
  pc : r.2.2 = .extend f ∨ f < r.2.1.map.size ∧ r.2.2 = .wrote f
  ends : f < pager.map.size → r.2.2 = .wrote f

theorem turn_spec (parts : Parts α) (pager : Dpager) (f : ℕ) :
    Ends (turn parts pager f) (Turned pager f) fun _ => True := by
  unfold turn
  split_ifs with hsize
  · exact ⟨.refl _, .inl rfl, fun hf => absurd hf (not_lt.2 hsize)⟩
  · have hf := not_le.1 hsize
    refine (blockFor_spec parts hf).bind ?_
    rintro ⟨b, parts₁, pager₁⟩ ⟨hsame, hgrown⟩
    exact ⟨hgrown, .inr ⟨hf.trans_eq hsame.symm, rfl⟩, fun _ => rfl⟩

theorem enter_spec (parts : Parts α) (pager : Dpager) (f : ℕ) :
    Ends (enter parts pager f)
      (fun r => Grown pager.map r.2.1.map ∧
        (r.2.2 = .out ∨ r.2.2 = .extend f ∨ f < r.2.1.map.size ∧ r.2.2 = .wrote f)) fun _ =>
        True := by
  have hfind : Ends (findPartition parts pager f) (fun _ => True) fun _ => True := by
    cases findPartition parts pager f <;> trivial
  unfold enter
  refine hfind.bind fun cur _ => ?_
  split_ifs with hno
  · exact ⟨.refl _, .inl rfl⟩
  · exact (turn_spec parts _ f).imp fun r hr => ⟨hr.grown, .inr hr.pc⟩

theorem turn_of_le {cur : PIndex} (h : m.size ≤ f) :
    turn parts ⟨m, cur⟩ f = .ok (parts, ⟨m, cur⟩, .extend f) :=
  if_pos h

theorem turn_of_lt {cur : PIndex} (h : f < m.size) :
    turn parts ⟨m, cur⟩ f = (blockFor parts ⟨m, cur⟩ f).map fun r => (r.2.1, r.2.2, .wrote f) := by
  rw [turn, if_neg (not_le.2 h)]
  cases blockFor parts ⟨m, cur⟩ f <;> rfl

/-- The steps of a thread one after the other. -/
def alone (parts : Parts α) (pager : Dpager) (f : ℕ) : Except Stop (Parts α × Dpager) := do
  let (parts, pager, pc) ← enter parts pager f
  if pc = .extend f then
    let (parts, pager, _) ← turn parts { pager with map := pager.map.extend (f + 1) } f
    return (parts, pager)
  else return (parts, pager)

theorem pagerWriteOffset_eq (parts : Parts α) (pager : Dpager) (offset : BitVec 32) :
    pagerWriteOffset parts pager offset = (findPartition parts pager (atop offset.toNat)).bind
      fun cur => if noPartition cur then .ok (noBlock, parts, pager)
      else blockFor parts ⟨extendFor pager.map (atop offset.toNat), cur⟩ (atop offset.toNat) := rfl

/-- A call that no other comes between is `pager_write_offset`. -/
theorem alone_eq (parts : Parts α) (pager : Dpager) (offset : BitVec 32) :
    alone parts pager (atop offset.toNat) = (pagerWriteOffset parts pager offset).map Prod.snd := by
  rw [pagerWriteOffset_eq]
  unfold alone enter
  generalize atop offset.toNat = f
  cases findPartition parts pager f with
  | error e => rfl
  | ok cur =>
    by_cases hno : noPartition cur
    · simp only [Except.bind, bind, if_pos hno, pure, Except.pure]
      rfl
    · simp only [Except.bind, bind, if_neg hno]
      unfold extendFor
      rcases Nat.lt_or_ge f pager.map.size with hf | hf
      · rw [turn_of_lt hf, if_neg (not_le.2 hf)]
        cases blockFor parts ⟨pager.map, cur⟩ f <;> rfl
      · have hlt : f < (pager.map.extend (f + 1)).size := by
          rw [BlockMap.size_extend]
          exact le_newSize pager.map.size_pos
        rw [turn_of_le hf, if_pos hf]
        simp only [if_true]
        rw [turn_of_lt hlt]
        cases blockFor parts ⟨pager.map.extend (f + 1), cur⟩ f <;> rfl

end Turn

variable {T : Type*} [DecidableEq T] {s s' : State T α} {t : T} {a : Act T α}

/-- What a step does to the object: its size does not decrease, what is recorded stays, and no store
is outside of a map. -/
structure StepRight (s : State T α) (a : Act T α) (s' : State T α) : Prop extends
    Grown s.pager.map s'.pager.map where
  stores : ∀ x ∈ a.fills s, x.Inside

/-- Every step that is permitted is right; a thread that is back from `pager_extend` has its page in
the object, so that it leaves the loop, and it still has it then. -/
structure Right (C : State T α → Act T α → Prop) (s : State T α) : Prop where
  steps : ∀ a s', C s a → step s a = some s' → StepRight s a s'
  ends : ∀ t f s', s.pc t = .again f → step s (.lock t) = some s' → s'.pc t = .wrote f
  page : ∀ t f, s.pc t = .again f ∨ s.pc t = .wrote f → f < s.pager.map.size

/-- The page of a thread that has extended the object or has left the loop is in the object. -/
def Inv (s : State T α) : Prop :=
  ∀ t f, s.pc t = .again f ∨ s.pc t = .wrote f → f < s.pager.map.size

section Steps

/-- A step is of a thread, which goes on, or of others on the partitions. -/
theorem step_cases (h : step s a = some s') :
    (∃ t offset, a = .call t offset ∧ s'.pager = s.pager ∧
      s'.pc = update s.pc t (.enter (atop offset.toNat))) ∨
    (∃ t f r, a = .lock t ∧ s.pc t = .enter f ∧ enter s.parts s.pager f = .ok r ∧
      s' = s.unlock t r) ∨
    (∃ t f r, a = .lock t ∧ s.pc t = .again f ∧ turn s.parts s.pager f = .ok r ∧
      s' = s.unlock t r) ∨
    (∃ t f, a = .extend t ∧ s.pc t = .extend f ∧
      s' = s.unlock t (s.parts, { s.pager with map := s.pager.map.extend (f + 1) }, .again f)) ∨
    ∃ parts, a = .others parts ∧ s'.pager = s.pager ∧ s'.pc = s.pc := by
  have hok : ∀ {x : Except Stop (Parts α × Dpager × Pc)} {t},
      x.toOption.map (s.unlock t) = some s' → ∃ r, x = .ok r ∧ s' = s.unlock t r := by
    intro x t hx
    cases x with
    | ok r => exact ⟨r, rfl, (Option.some.inj hx).symm⟩
    | error e => cases hx
  cases a with
  | call t offset =>
    rw [step] at h
    split_ifs at h
    cases h
    exact .inl ⟨t, offset, rfl, rfl, rfl⟩
  | lock t =>
    rw [step] at h
    split at h
    · next f hpc =>
      obtain ⟨r, hr, hs⟩ := hok h
      exact .inr (.inl ⟨t, f, r, rfl, hpc, hr, hs⟩)
    · next f hpc =>
      obtain ⟨r, hr, hs⟩ := hok h
      exact .inr (.inr (.inl ⟨t, f, r, rfl, hpc, hr, hs⟩))
    all_goals cases h
  | extend t =>
    rw [step] at h
    split at h
    · next f hpc => exact .inr (.inr (.inr (.inl ⟨t, f, rfl, hpc, (Option.some.inj h).symm⟩)))
    all_goals cases h
  | others parts =>
    cases h
    exact .inr (.inr (.inr (.inr ⟨parts, rfl, rfl, rfl⟩)))

omit [DecidableEq T] in
theorem fills_extend (hpc : s.pc t = .extend f) :
    (Act.extend t).fills s = fills s.pager.map (f + 1) := by
  rw [Act.fills, hpc]

/-- A step with the condition keeps the entries and the size. -/
theorem stepRight_of_careful (hc : a.Careful s) (h : step s a = some s') : StepRight s a s' := by
  rcases step_cases h with ⟨t, offset, rfl, hpager, -⟩ | ⟨t, f, r, rfl, hpc, hr, rfl⟩ | ⟨t, f, r,
    rfl, hpc, hr, rfl⟩
    | ⟨t, f, rfl, hpc, rfl⟩ | ⟨parts, rfl, hpager, -⟩
  · exact ⟨by rw [hpager]; exact .refl _, by rintro x ⟨⟩⟩
  · exact ⟨((enter_spec _ _ _).of_eq hr).1, by rintro x ⟨⟩⟩
  · exact ⟨((turn_spec _ _ _).of_eq hr).grown, by rintro x ⟨⟩⟩
  · have hle := le_newSize_iff.2 (hc f hpc)
    refine ⟨grown_extend hle, ?_⟩
    rw [fills_extend hpc]
    exact inside_fills hle
  · exact ⟨by rw [hpager]; exact .refl _, by rintro x ⟨⟩⟩

/-- Where the thread of a step is after it. -/
theorem Inv.unlock (h : Inv s) {r : Parts α × Dpager × Pc}
    (hsize : s.pager.map.size ≤ r.2.1.map.size)
    (hpc : ∀ f, r.2.2 = .again f ∨ r.2.2 = .wrote f → f < r.2.1.map.size) : Inv (s.unlock t r) := by
  intro u f hu
  by_cases hut : u = t
  · subst hut
    have hself : (s.unlock u r).pc u = r.2.2 := update_self ..
    rw [hself] at hu
    exact hpc f hu
  · have hother : (s.unlock t r).pc u = s.pc u := update_of_ne hut ..
    rw [hother] at hu
    exact (h u f hu).trans_le hsize

theorem Inv.step (h : Inv s) (hc : a.Careful s) (hs : step s a = some s') : Inv s' := by
  have hright := stepRight_of_careful hc hs
  rcases step_cases hs with ⟨t, offset, rfl, hpager, hpc⟩ | ⟨t, f, r, rfl, hpc, hr, rfl⟩ | ⟨t, f, r,
    rfl, hpc, hr, rfl⟩
    | ⟨t, f, rfl, hpc, rfl⟩ | ⟨parts, rfl, hpager, hpc⟩
  · intro u f hu
    rw [hpager]
    rw [hpc] at hu
    by_cases hut : u = t
    · subst hut
      rw [update_self] at hu
      rcases hu with hu | hu <;> cases hu
    · rw [update_of_ne hut] at hu
      exact h u f hu
  · refine h.unlock hright.size fun g hg => ?_
    rcases ((enter_spec _ _ _).of_eq hr).2 with hout | hext | ⟨hf, hwrote⟩
    · rw [hout] at hg
      rcases hg with hg | hg <;> cases hg
    · rw [hext] at hg
      rcases hg with hg | hg <;> cases hg
    · rw [hwrote] at hg
      rcases hg with hg | hg
      · cases hg
      · cases hg
        exact hf
  · refine h.unlock hright.size fun g hg => ?_
    rcases ((turn_spec _ _ _).of_eq hr).pc with hext | ⟨hf, hwrote⟩
    · rw [hext] at hg
      rcases hg with hg | hg <;> cases hg
    · rw [hwrote] at hg
      rcases hg with hg | hg
      · cases hg
      · cases hg
        exact hf
  · refine h.unlock hright.size fun g hg => ?_
    rcases hg with hg | hg
    · cases hg
      show f < (s.pager.map.extend (f + 1)).size
      rw [BlockMap.size_extend]
      exact le_newSize s.pager.map.size_pos
    · cases hg
  · intro u f hu
    rw [hpager]
    rw [hpc] at hu
    exact h u f hu

theorem inv_reach (h : (machine T α).Reach (fun s a => a.Careful s) s) : Inv s := by
  refine h.inv (fun s hstart t f hpc => ?_) fun s a s' hi hc hs => hi.step hc hs
  have hout : s.pc t = .out := hstart t
  rw [hout] at hpc
  rcases hpc with hpc | hpc <;> cases hpc

end Steps

/-- In a run in which no extension is to a smaller size, the object only grows and every thread gets
its page. -/
theorem careful_extensions_right (h : (machine T α).Reach (fun s a => a.Careful s) s) :
    Right (fun s a => a.Careful s) s := by
  have hinv := inv_reach h
  refine ⟨fun a s' hc hs => stepRight_of_careful hc hs, fun t f s' hpc hs => ?_, hinv⟩
  rcases step_cases hs with ⟨_, _, hno, -⟩ | ⟨u, g, r, hact, hpc', -, -⟩ |
    ⟨u, g, r, hact, hpc', hr, rfl⟩ | ⟨_, _, hno, -⟩ | ⟨_, hno, -⟩
  · cases hno
  · cases hact
    rw [hpc] at hpc'
    cases hpc'
  · cases hact
    rw [hpc] at hpc'
    cases hpc'
    have hself : (s.unlock t r).pc t = r.2.2 := update_self ..
    rw [hself]
    exact ((turn_spec _ _ _).of_eq hr).ends (hinv t f (.inl hpc))
  · cases hno
  · cases hno

/-- An object of one page, and a partition of two pages. -/
def onePage : State Bool Unit :=
  ⟨[some (newPart [1#8] 0x2000#32 fun _ => ())], ⟨BlockMap.fresh 1, 0⟩, fun _ => .out⟩

/-- The offset of a page. -/
def offsetOf (f : ℕ) : BitVec 32 := BitVec.ofNat 32 (ptoa f)

/-- Two threads find that their pages are not in the object, and extend it one after the other, the
larger page last. -/
theorem careful_extensions_right_two :
    ∃ s : State Bool Unit, (s.pager.map.size = 5056 ∧ s.pc true = .wrote 2000 ∧
      s.pc false = .wrote 5000) ∧ Right (fun s a => a.Careful s) s := by
  refine ⟨_, ⟨?_, ?_, ?_⟩, careful_extensions_right <|
    (Machine.Reach.start (M := machine Bool Unit) (s := onePage) fun _ => rfl)
    |>.step (.call true (offsetOf 2000)) trivial rfl
    |>.step (.call false (offsetOf 5000)) trivial rfl
    |>.step (.lock true) trivial rfl |>.step (.lock false) trivial rfl
    |>.step (.extend true) (by intro f hf; cases hf; decide) rfl
    |>.step (.extend false) (by intro f hf; cases hf; decide) rfl
    |>.step (.lock false) trivial rfl |>.step (.lock true) trivial rfl⟩
  · decide
  · decide
  · decide

/-- The larger page is in the object, and the other thread is about to extend it. -/
def State.late (s : State Bool Unit) : Bool :=
  s.pager.map.size = 5056 ∧ s.pager.map.get 5000 = ⟨0, 0⟩ ∧ s.pc true = .extend 2000

/-- With the smaller page last, the map is cut off, and the block of the larger page is lost. -/
theorem late_extension_cuts :
    ¬∀ s : State Bool Unit, (machine Bool Unit).Reach Machine.Any s → Right Machine.Any s := by
  intro h
  obtain ⟨s, hs, hp⟩ := Machine.Reach.exists_run (M := machine Bool Unit) (p := State.late)
    (s := onePage) (fun _ => rfl)
    (Machine.along_any _ _ [.call true (offsetOf 2000), .call false (offsetOf 5000), .lock true,
      .lock false, .extend false, .lock false]) (by decide)
  obtain ⟨hsize, -, hpc⟩ := of_decide_eq_true hp
  have hstep : step s (.extend true)
      = some (s.unlock true (s.parts, { s.pager with map := s.pager.map.extend 2001 },
        .again 2000)) := by
    rw [step, hpc]
  have hgrown := ((h s hs).steps _ _ trivial hstep).size
  have hnew : (s.pager.map.extend 2001).size = 2048 := by
    rw [BlockMap.size_extend, hsize]
    decide
  have hle : s.pager.map.size ≤ (s.pager.map.extend 2001).size := hgrown
  omega

end XMach.Extension
