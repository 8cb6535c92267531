import XMach.Vm.Overwrite
import XMach.Vm.Proofs.Denote

/-!
# What is checked before memory is written over

The first pass of `vm_map_copy_overwrite` counts `size` down over the entries of the destination. An
attempt that passes has found `size` bytes that may be written to (`attempt_spec`), so the pass
checks the whole destination as long as each attempt begins with the size of the copy. An attempt
that waits at a later entry leaves less to the next one, which then begins at the first entry again;
one that finds the first entry in transition waits there.
-/

namespace XMach.Vm

open Region

variable {m m' : VmMap} {maps : List VmMap} {l : List VmMapEntry} {e : VmMapEntry} {a dst size : ℕ}

/-- Each address of the range is mapped by an entry that may be written to and is not in
transition. -/
def Writable (l : List VmMapEntry) (dst size : ℕ) : Prop :=
  ∀ a, dst ≤ a → a < dst + size → ∃ e ∈ l, Covers e a ∧ e.protection &&& vmProtWrite ≠ 0 ∧
    e.inTransition = false

theorem overwriteCheck_writable (ho : Ordered (e :: l))
    (h : (overwriteCheck size (e :: l)).1 = .ok) : Writable (e :: l) e.vmeStart size := by
  induction l generalizing e size with
  | nil =>
    intro a h₁ h₂
    rw [overwriteCheck] at h
    split_ifs at h with hw ht hsize
    refine ⟨e, List.mem_cons_self, ⟨h₁, ?_⟩, hw, by simpa using ht⟩
    simp only [stop_entry]
    omega
  | cons next rest ih =>
    intro a h₁ h₂
    obtain ⟨hne, -, hrest⟩ := ordered_cons.1 ho
    simp only [start_entry, stop_entry] at hne
    rw [overwriteCheck] at h
    split_ifs at h with hw ht hsize hnext
    · refine ⟨e, List.mem_cons_self, ⟨h₁, ?_⟩, hw, by simpa using ht⟩
      simp only [stop_entry]
      omega
    · have hadj : next.vmeStart = e.vmeEnd := not_not.1 hnext
      by_cases ha : a < e.vmeEnd
      · exact ⟨e, List.mem_cons_self, ⟨h₁, ha⟩, hw, by simpa using ht⟩
      · obtain ⟨x, hx, hok⟩ := ih hrest h a (by omega) (by omega)
        exact ⟨x, List.mem_cons_of_mem _ hx, hok⟩

/-- Asking for a wakeup changes nothing that is mapped. -/
theorem pageAt_overwriteCheck (size : ℕ) (l : List VmMapEntry) (a : ℕ) :
    pageAt (overwriteCheck size l).2 a = pageAt l a := by
  fun_induction overwriteCheck size l with
  | case1 => rfl
  | case2 => rfl
  | case3 size e l =>
    rw [pageAt_cons, pageAt_cons]
    rfl
  | case4 => rfl
  | case5 => rfl
  | case6 => rfl
  | case7 size e _ _ _ next rest _ r ih =>
    rw [pageAt_cons, pageAt_cons, ih]

theorem overwriteCheck_error {kr : KernReturn} (h : (overwriteCheck size l).1 = .error kr) :
    kr ≠ .success := by
  fun_induction overwriteCheck size l with
  | case1 => cases h; simp
  | case2 => cases h; simp
  | case3 => cases h
  | case4 => cases h
  | case5 => cases h; simp
  | case6 => cases h; simp
  | case7 size e _ _ _ next rest _ r ih => exact ih h

/-- What an attempt at the first pass has found. -/
def Pass.Ok (m : VmMap) (dst size : ℕ) : Pass → Prop
  | .returns kr m' => kr ≠ .success ∧ m'.denote = m.denote
  | .waits m' _ => m'.denote = m.denote
  | .passes m' before after => m'.entries = before ++ after ∧ Writable m'.entries dst size ∧
      m'.denote = m.denote

theorem attempt_spec (hm : WellFormed m) (hh : Linked m.entries m.hint) (dst size : ℕ) :
    ∃ p, overwriteAttempt dst size m = some p ∧ p.Ok m dst size := by
  obtain ⟨r, m₁, hseek⟩ := seek_total hh dst
  have hs := seek_spec hm hseek
  have hden : m₁.denote = m.denote := funext hs.recut.denote
  unfold overwriteAttempt
  rw [hseek, Option.bind_eq_bind, Option.bind_some]
  simp only
  by_cases hfound : r.found = true
  · rw [if_pos hfound]
    obtain ⟨e, rest, hafter, hstart⟩ := hs.found hfound
    cases hcheck : (overwriteCheck size r.after).1 with
    | error kr =>
      exact ⟨_, rfl, overwriteCheck_error hcheck, hden⟩
    | waits =>
      refine ⟨_, rfl, funext fun a => ?_⟩
      rw [← hden, VmMap.denote, VmMap.denote, ← hs.split, pageAt_or, pageAt_or,
        pageAt_overwriteCheck]
    | ok =>
      refine ⟨_, rfl, hs.split.symm, fun a h₁ h₂ => ?_, hden⟩
      have ho := (hs.recut.wellFormed hm).ordered
      rw [← hs.split, hafter] at ho
      rw [hafter] at hcheck
      obtain ⟨x, hx, hrest⟩ := overwriteCheck_writable ho.right hcheck a (hstart.trans_le h₁)
        (hstart ▸ h₂)
      refine ⟨x, ?_, hrest⟩
      rw [← hs.split, hafter]
      exact List.mem_append_right _ hx
  · rw [if_neg hfound]
    exact ⟨_, rfl, by simp, hden⟩

/-- If anything of the destination is in transition, the entry at its first address is. -/
def FirstInTransit (dst size : ℕ) (m : VmMap) : Prop :=
  (∃ e ∈ m.entries, e.inTransition = true ∧ dst < e.vmeEnd ∧ e.vmeStart < dst + size) →
    ∃ e ∈ m.entries, e.inTransition = true ∧ Covers e dst

/-- The first pass waits for an entry that begins before the end of what it checks. -/
theorem overwriteCheck_waits (ho : Ordered (e :: l)) (hsize : 0 < size)
    (h : (overwriteCheck size (e :: l)).1 = .waits) :
    ∃ y ∈ e :: l, y.inTransition = true ∧ e.vmeStart ≤ y.vmeStart ∧
    y.vmeStart < e.vmeStart + size := by
  induction l generalizing e size with
  | nil =>
    rw [overwriteCheck] at h
    split_ifs at h with hw ht
    exact ⟨e, List.mem_cons_self, ht, le_rfl, by omega⟩
  | cons next rest ih =>
    obtain ⟨hne, -, hrest⟩ := ordered_cons.1 ho
    simp only [start_entry, stop_entry] at hne
    rw [overwriteCheck] at h
    split_ifs at h with hw ht hle hnext
    · exact ⟨e, List.mem_cons_self, ht, le_rfl, by omega⟩
    · obtain ⟨y, hy, hyt, h₁, h₂⟩ := ih hrest (by omega) h
      exact ⟨y, List.mem_cons_of_mem _ hy, hyt, by omega, by omega⟩

theorem Piece.inTransition_eq {e' : VmMapEntry} (h : Piece e e') :
    e'.inTransition = e.inTransition := by
  rw [h.same]

/-- Where the entries of a map are cut, what covers an address is a piece of what covered it. -/
theorem recut_covers (hm : WellFormed m) (hcut : Recut Piece m m') :
    (∃ e ∈ m'.entries, e.inTransition = true ∧ Covers e a) ↔
      ∃ e ∈ m.entries, e.inTransition = true ∧ Covers e a := by
  have hrel := hcut.cuts.regionAt a
  have hm' := hcut.wellFormed hm
  constructor
  · rintro ⟨e, he, ht, hcov⟩
    rw [hm'.ordered.regionAt_eq_some.2 ⟨he, hcov⟩] at hrel
    generalize hx : regionAt m.entries a = x at hrel
    cases hrel with
    | some hr =>
      obtain ⟨hmem, hcov'⟩ := mem_of_regionAt hx
      exact ⟨_, hmem, hr.1.inTransition_eq.symm.trans ht, hcov'⟩
  · rintro ⟨e, he, ht, hcov⟩
    rw [hm.ordered.regionAt_eq_some.2 ⟨he, hcov⟩] at hrel
    generalize hx : regionAt m'.entries a = x at hrel
    cases hrel with
    | some hr =>
      obtain ⟨hmem, hcov'⟩ := mem_of_regionAt hx
      exact ⟨_, hmem, hr.1.inTransition_eq.trans ht, hcov'⟩

/-- An attempt that waits has counted nothing when the first entry is the one in transition. -/
theorem attempt_left (hm : WellFormed m) (hfirst : FirstInTransit dst size m) (hsize : 0 < size)
    {left : ℕ} (h : overwriteAttempt dst size m = some (.waits m' left)) : left = size := by
  unfold overwriteAttempt at h
  obtain ⟨⟨r, m₁⟩, hseek, h⟩ := Option.bind_eq_some_iff.1 h
  have hs := seek_spec hm hseek
  have ho := (hs.recut.wellFormed hm).ordered
  simp only at h
  split_ifs at h with hfound
  · obtain ⟨e, rest, hafter, hstart⟩ := hs.found hfound
    rw [← hs.split, hafter] at ho
    rw [hafter] at h
    have hcov : Covers e dst := ⟨hstart.le, hstart ▸ ho.right.nonempty e List.mem_cons_self⟩
    split at h
    · cases h
    · rename_i hwaits
      obtain ⟨-, rfl⟩ := Pass.waits.inj (Option.some.inj h)
      obtain ⟨y, hy, hyt, h₁, h₂⟩ := overwriteCheck_waits ho.right hsize hwaits
      have hcovy : Covers y y.vmeStart := ⟨le_rfl, ho.right.nonempty y hy⟩
      have hmem : ∀ x ∈ e :: rest, x ∈ m₁.entries := fun x hx => by
        rw [← hs.split, hafter]
        exact List.mem_append_right _ hx
      obtain ⟨y₀, hy₀, hyt₀, hcov₀⟩ := (recut_covers hm hs.recut).1 ⟨y, hmem y hy, hyt, hcovy⟩
      have hle₀ : y₀.vmeStart ≤ y.vmeStart := hcov₀.1
      have hlt₀ : y.vmeStart < y₀.vmeEnd := hcov₀.2
      obtain ⟨x, hx, hxt, hcovx⟩ :=
        (recut_covers hm hs.recut).2 (hfirst ⟨y₀, hy₀, hyt₀, by omega, by omega⟩)
      obtain rfl : x = e :=
        (hs.recut.wellFormed hm).ordered.loose.eq_of_covers hx (hmem e List.mem_cons_self)
          hcovx hcov
      unfold overwriteLeft
      exact if_pos (.inr (.inl hxt))
    · cases h
  · cases h

/-- A map as the routine finds it. -/
def Sound (m : VmMap) : Prop := WellFormed m ∧ Linked m.entries m.hint

theorem pass_spec (hmaps : ∀ M ∈ m :: maps, Sound M) (hsize : 0 < size)
    (hw : ∀ M ∈ (m :: maps).dropLast, FirstInTransit dst size M) :
    ∃ rest M p, Current (m :: maps) rest M ∧ overwritePass dst size m maps = some p ∧
    p.Ok M dst size := by
  induction maps generalizing m with
  | nil =>
    obtain ⟨hm, hh⟩ := hmaps m List.mem_cons_self
    obtain ⟨p, hp, hok⟩ := attempt_spec hm hh dst size
    exact ⟨[], m, p, current_self m [], hp, hok⟩
  | cons m' maps ih =>
    obtain ⟨hm, hh⟩ := hmaps m List.mem_cons_self
    obtain ⟨p, hp, hok⟩ := attempt_spec hm hh dst size
    rw [overwritePass, hp, Option.bind_some]
    cases p with
    | returns kr m₁ => exact ⟨m' :: maps, m, _, current_self m _, rfl, hok⟩
    | passes m₁ before after => exact ⟨m' :: maps, m, _, current_self m _, rfl, hok⟩
    | waits m₁ left =>
      rw [List.dropLast_cons_cons] at hw
      obtain rfl := attempt_left hm (hw m List.mem_cons_self) hsize hp
      obtain ⟨rest, M, p, hcur, hpass, hok'⟩ := ih (fun M hM => hmaps M (List.mem_cons_of_mem _ hM))
        fun M hM => hw M (List.mem_cons_of_mem _ hM)
      exact ⟨rest, M, p, hcur.cons m, hpass, hok'⟩

/-- `vm_map_copy_overwrite` gets to its second pass only with a destination that it may write to as
a whole, and otherwise has changed nothing, whatever happens to the map while it waits, if it finds
the first entry in transition each time that it finds one so. -/
theorem overwrite_checked (hmaps : ∀ M ∈ m :: maps, Sound M) {copy : VmMapCopy}
    (hw : ∀ M ∈ (m :: maps).dropLast, FirstInTransit dst copy.size M)
    (temporary : MapObject → Bool) : ∃ rest M, Current (m :: maps) rest M ∧
      ((∃ kr m', vmMapCopyOverwriteWaiting m maps dst copy temporary = some (.done kr, m') ∧
          (kr = .success → copy.size = 0) ∧ m'.denote = M.denote) ∨
        (∃ m', vmMapCopyOverwriteWaiting m maps dst copy temporary = some (.waits, m') ∧
        m'.denote = M.denote) ∨
        ∃ (m' : VmMap) (before after : List VmMapEntry), m'.entries = before ++ after ∧
          Writable m'.entries dst copy.size ∧ m'.denote = M.denote ∧
          vmMapCopyOverwriteWaiting m maps dst copy temporary =
            some (m'.overwriteFrom temporary copy.entries dst before after)) := by
  unfold vmMapCopyOverwriteWaiting
  split_ifs with halign hzero
  · exact ⟨maps, m, current_self m maps, .inl ⟨_, _, rfl, by simp, rfl⟩⟩
  · exact ⟨maps, m, current_self m maps, .inl ⟨_, _, rfl, fun _ => hzero, rfl⟩⟩
  obtain ⟨rest, M, p, hcur, hpass, hok⟩ := pass_spec hmaps (Nat.pos_of_ne_zero hzero) hw
  refine ⟨rest, M, hcur, ?_⟩
  rw [hpass]
  cases p with
  | returns kr m₁ => exact .inl ⟨kr, m₁, rfl, fun h => absurd h hok.1, hok.2⟩
  | waits m₁ left => exact .inr (.inl ⟨m₁, rfl, hok⟩)
  | passes m₁ before after => exact .inr (.inr ⟨m₁, before, after, hok.1, hok.2.1, hok.2.2, rfl⟩)

section Examples

/-- Two pages, the second of them in transition. -/
def pagesInTransit : VmMap :=
  { vmMapCreate 0 65536 with
    entries := [(allocateRequest 4096 false).newEntry 0 16384 20480,
      { (allocateRequest 4096 false).newEntry 1 20480 24576 with inTransition := true }]
    hdr := ⟨2, 2⟩
    size := 8192
    hint := some 0 }

/-- The first page alone. -/
def pageLeft : VmMap :=
  { vmMapCreate 0 65536 with
    entries := [(allocateRequest 4096 false).newEntry 0 16384 20480]
    hdr := ⟨1, 2⟩
    size := 4096
    hint := some 0 }

/-- Pages of another object. -/
def pagesCopy (size : ℕ) : VmMapCopy :=
  ⟨0, size, [{ (allocateRequest size false).newEntry 0 0 size with object := .vmObject 7 }]⟩

theorem pageLeft_sound : Sound pageLeft := by
  refine ⟨⟨⟨List.pairwise_singleton _ _, ?_⟩, ?_, rfl, rfl, by decide⟩, _,
    List.mem_singleton_self _, rfl⟩
  · simp [pageLeft, EnterRequest.newEntry]
  · simp [pageLeft, vmMapCreate, EnterRequest.newEntry]

/-- The first page gets the memory of the copy, and there is a second one to come if the copy has
two. -/
theorem overwriteLoop_pageLeft (size : ℕ) (hsize : 4096 ≤ size) :
    overwriteLoop (fun _ => true) (pagesCopy size).entries 16384 pageLeft.entries pageLeft.hdr =
      (.done (if 4096 < size then .invalidAddress else .success),
        [{ (allocateRequest 4096 false).newEntry 0 16384 20480 with object := .vmObject 7 }],
        pageLeft.hdr) := by
  rcases hsize.lt_or_eq with hlt | rfl
  · simp [overwriteLoop, pagesCopy, pageLeft, EnterRequest.newEntry, allocateRequest, copyClip,
      VmMapEntry.clipEnd,
      VmMapEntry.replaceable, VmMapEntry.install, vmProtDefault, vmProtRead, vmProtWrite,
      hsize.not_gt, hlt]
  · simp [overwriteLoop, pagesCopy, pageLeft, EnterRequest.newEntry, allocateRequest, copyClip,
      VmMapEntry.replaceable, VmMapEntry.install, vmProtDefault, vmProtRead, vmProtWrite]

/-- The first page while it is in transition. -/
def pageInTransit : VmMap :=
  { pageLeft with
    entries := [{ (allocateRequest 4096 false).newEntry 0 16384 20480 with inTransition := true }] }

theorem pageInTransit_sound : Sound pageInTransit := by
  refine ⟨⟨⟨List.pairwise_singleton _ _, ?_⟩, ?_, rfl, rfl, by decide⟩, _,
    List.mem_singleton_self _, rfl⟩
  · simp [pageInTransit, EnterRequest.newEntry]
  · simp [pageInTransit, pageLeft, vmMapCreate, EnterRequest.newEntry]

/-- The routine waits for the page, and writes it over once it has been found to be writable. -/
theorem overwrite_checked_pageLeft : ∃ (m' : VmMap) (before after : List VmMapEntry),
    Writable m'.entries 16384 4096 ∧
    vmMapCopyOverwriteWaiting pageInTransit [pageLeft] 16384 (pagesCopy 4096) (fun _ => true) =
      some (m'.overwriteFrom (fun _ => true) (pagesCopy 4096).entries 16384 before after) := by
  have hmaps : ∀ M ∈ [pageInTransit, pageLeft], Sound M :=
    List.forall_mem_cons.2 ⟨pageInTransit_sound, List.forall_mem_singleton.2 pageLeft_sound⟩
  have hwaits : ∀ M ∈ [pageInTransit, pageLeft].dropLast,
    FirstInTransit 16384 (pagesCopy 4096).size M :=
    List.forall_mem_singleton.2 fun _ => ⟨_, List.mem_singleton_self _, rfl, by decide⟩
  have hdone : (vmMapCopyOverwriteWaiting pageInTransit [pageLeft] 16384 (pagesCopy 4096) fun _ =>
      true).map (·.1) = some (.done .success) := by
    have hpass :
        (vmMapCopyOverwriteWaiting pageInTransit [pageLeft] 16384 (pagesCopy 4096) fun _ => true) =
        some (pageLeft.overwriteFrom (fun _ => true) (pagesCopy 4096).entries 16384 []
          pageLeft.entries) := rfl
    rw [hpass, VmMap.overwriteFrom, overwriteLoop_pageLeft 4096 le_rfl]
    rfl
  obtain ⟨rest, M, -, ⟨kr, m', hcall, hkr, -⟩ | ⟨m', hcall, -⟩ | ⟨m', before, after, -, hok, -,
    hcall⟩⟩ :=
    overwrite_checked hmaps hwaits fun _ => true
  · rw [hcall] at hdone
    obtain rfl := Overwritten.done.inj (Option.some.inj hdone)
    exact absurd (hkr rfl) (by decide)
  · rw [hcall] at hdone
    cases hdone
  · exact ⟨m', before, after, hok, hcall⟩

/-- While the routine waits for the second page, having counted the first one, that page goes away.
The first page is written over, and then an error is returned. -/
theorem overwrite_of_missing_page : ∃ m',
    vmMapCopyOverwriteWaiting pagesInTransit [pageLeft] 16384 (pagesCopy 8192) (fun _ => true) =
      some (.done .invalidAddress, m') ∧ ¬ Writable pageLeft.entries 16384 8192 ∧
      m'.denote 16384 ≠ pageLeft.denote 16384 := by
  refine ⟨{ pageLeft with
    entries := [{ (allocateRequest 4096 false).newEntry 0 16384 20480 with object := .vmObject 7 }]
    }, ?_, fun h => ?_, by decide⟩
  · exact congrArg (fun x => some (x.1, { pageLeft with entries := x.2.1, hdr := x.2.2 }))
      (overwriteLoop_pageLeft 8192 (by decide))
  · obtain ⟨e, he, hcov, -⟩ := h 20480 (by decide) (by decide)
    rw [List.mem_singleton.1 he] at hcov
    exact absurd hcov.2 (by decide)

end Examples

end XMach.Vm
