import XMach.Vm.Overwrite
import XMach.Vm.Proofs.Fork

/-!
# Trimming the entries of a map

Most calls only cut entries, drop them and take rights from them: `Trim` says this of two lists of
entries, and it composes. The lists stay in order. Entries may be empty here, since a request whose
size rounds to zero makes such ones.
-/

namespace XMach.Vm

open Region

variable {V : Type} {m m' : VmMap} {l l' l₁ l₂ l₁' l₂' before after : List VmMapEntry}
  {e e' c : VmMapEntry} {a : ℕ} {p q r : VmProt}

section Bits

/-- `p` has no bit that `q` has not. -/
def Subset (p q : VmProt) : Prop := p &&& ~~~q = 0

instance : Decidable (Subset p q) := inferInstanceAs (Decidable (_ = _))

theorem subset_iff : Subset p q ↔ ∀ i, p.getLsbD i = true → q.getLsbD i = true := by
  unfold Subset
  constructor
  · intro h i hp
    have hi : (p &&& ~~~q).getLsbD i = false := by rw [h]; simp
    have hlt : i < 32 := BitVec.lt_of_getLsbD hp
    simpa [hp, hlt] using hi
  · intro h
    refine BitVec.eq_of_getLsbD_eq fun i hi => ?_
    have := h i
    simp only [BitVec.getLsbD_and, BitVec.getLsbD_not, hi, decide_true, Bool.true_and,
      BitVec.ofNat_eq_ofNat, BitVec.getLsbD_zero, Bool.and_eq_false_imp, Bool.not_eq_false']
    exact this

theorem Subset.refl (p : VmProt) : Subset p p := subset_iff.2 fun _ => id

theorem Subset.trans (h : Subset p q) (h' : Subset q r) : Subset p r :=
  subset_iff.2 fun i hi => subset_iff.1 h' i (subset_iff.1 h i hi)

/-- The current protection is within the maximum, but for `VM_PROT_NOTIFY`. -/
def VmMapEntry.Bounded (e : VmMapEntry) : Prop :=
  Subset e.protection (e.maxProtection ||| vmProtNotify)

instance : Decidable e.Bounded := inferInstanceAs (Decidable (Subset _ _))

theorem subset_default : Subset vmProtDefault (vmProtAll ||| vmProtNotify) := by decide

/-- `e'` has no page with more rights than `e`. -/
structure Narrower (e e' : VmMapEntry) : Prop where
  max : e'.vmeStart < e'.vmeEnd → Subset e'.maxProtection e.maxProtection
  bounded : e.Bounded → e'.Bounded

theorem Narrower.of_eq (hp : e'.protection = e.protection)
    (hm : e'.maxProtection = e.maxProtection) : Narrower e e' :=
  ⟨fun _ => by rw [hm]; exact .refl _, fun h => by unfold VmMapEntry.Bounded; rw [hp, hm]; exact h⟩

end Bits

section Trim

/-- `c` lies within `e`, and has no more rights. -/
structure Under (e c : VmMapEntry) : Prop where
  start_le : e.vmeStart ≤ c.vmeStart
  end_le : c.vmeEnd ≤ e.vmeEnd
  narrower : Narrower e c

theorem Under.trans (h : Under e e') (h' : Under e' c) : Under e c := by
  obtain ⟨hs, he, hn⟩ := h
  obtain ⟨hs', he', hn'⟩ := h'
  exact ⟨hs.trans hs', he'.trans he, fun hlt => (hn'.max hlt).trans (hn.max (by omega)),
    fun hb => hn'.bounded (hn.bounded hb)⟩

theorem Under.of_eq (hs : e'.vmeStart = e.vmeStart) (he : e'.vmeEnd = e.vmeEnd)
    (hp : e'.protection = e.protection) (hm : e'.maxProtection = e.maxProtection) : Under e e' :=
  ⟨hs.ge, he.le, .of_eq hp hm⟩

/-- Everything in `l'` lies under something in `l`, in order when that is. -/
structure Trim (l l' : List VmMapEntry) : Prop where
  loose : Loose l → Loose l'
  under : ∀ e' ∈ l', ∃ e ∈ l, Under e e'

theorem Trim.refl (l : List VmMapEntry) : Trim l l :=
  ⟨id, fun e he => ⟨e, he, .of_eq rfl rfl rfl rfl⟩⟩

theorem Trim.trans (h : Trim l₁ l) (h' : Trim l l₂) : Trim l₁ l₂ := by
  refine ⟨fun ho => h'.loose (h.loose ho), fun c hc => ?_⟩
  obtain ⟨e, he, hu⟩ := h'.under c hc
  obtain ⟨e₁, he₁, hu₁⟩ := h.under e he
  exact ⟨e₁, he₁, hu₁.trans hu⟩

theorem Trim.nil (l : List VmMapEntry) : Trim l [] := ⟨fun _ => loose_nil, by simp⟩

theorem Trim.append (h₁ : Trim l₁ l₁') (h₂ : Trim l₂ l₂') : Trim (l₁ ++ l₂) (l₁' ++ l₂') := by
  refine ⟨fun ho => ?_, fun c hc => ?_⟩
  · obtain ⟨ho₁, ho₂, ho⟩ := loose_append.1 ho
    refine loose_append.2 ⟨h₁.loose ho₁, h₂.loose ho₂, fun x hx y hy => ?_⟩
    obtain ⟨x₀, hx₀, hux⟩ := h₁.under x hx
    obtain ⟨y₀, hy₀, huy⟩ := h₂.under y hy
    exact hux.end_le.trans ((ho x₀ hx₀ y₀ hy₀).trans huy.start_le)
  · rcases List.mem_append.1 hc with hc | hc
    · obtain ⟨e, he, hu⟩ := h₁.under c hc
      exact ⟨e, List.mem_append_left _ he, hu⟩
    · obtain ⟨e, he, hu⟩ := h₂.under c hc
      exact ⟨e, List.mem_append_right _ he, hu⟩

theorem Trim.behind (before : List VmMapEntry) (h : Trim after l') :
    Trim (before ++ after) (before ++ l') :=
  (Trim.refl before).append h

theorem Trim.cons {new : List VmMapEntry} (hnew : Trim [e] new) (h : Trim l l') :
    Trim (e :: l) (new ++ l') :=
  hnew.append h

theorem trim_single (hs : e'.vmeStart = e.vmeStart) (he : e'.vmeEnd = e.vmeEnd)
    (hn : Narrower e e') : Trim [e] [e'] := by
  refine ⟨fun ho => loose_singleton ?_, fun c hc => ?_⟩
  · have := ho.le e (by simp)
    simp only [start_entry, stop_entry] at this ⊢
    omega
  · obtain rfl := List.mem_singleton.1 hc
    exact ⟨e, by simp, hs.ge, he.le, hn⟩

theorem trim_cut {x : ℕ} {c d : VmMapEntry} (hc : c.vmeStart = e.vmeStart ∧ c.vmeEnd = x)
    (hd : d.vmeStart = x ∧ d.vmeEnd = e.vmeEnd) (hx : e.vmeStart ≤ x ∧ x ≤ e.vmeEnd)
    (hnc : Narrower e c) (hnd : Narrower e d) : Trim [e] [c, d] := by
  refine ⟨fun _ => ⟨?_, fun y hy => ?_⟩, fun y hy => ?_⟩
  · simp only [List.pairwise_cons, List.mem_singleton, forall_eq, start_entry, stop_entry,
      hc.2, hd.1]
    simp
  · simp only [List.mem_cons, List.not_mem_nil, or_false] at hy
    rcases hy with rfl | rfl <;> simp only [start_entry, stop_entry] <;> omega
  · simp only [List.mem_cons, List.not_mem_nil, or_false] at hy
    rcases hy with rfl | rfl
    · exact ⟨e, by simp, hc.1.ge, by omega, hnc⟩
    · exact ⟨e, by simp, by omega, hd.2.le, hnd⟩

theorem trim_clipStart {x n : ℕ} (h : e.vmeStart ≤ x) (h' : x ≤ e.vmeEnd) :
    Trim [e] [(e.clipStart x n).1, (e.clipStart x n).2] :=
  trim_cut ⟨rfl, rfl⟩ ⟨rfl, rfl⟩ ⟨h, h'⟩ (.of_eq rfl rfl) (.of_eq rfl rfl)

theorem trim_clipEnd {x n : ℕ} (h : e.vmeStart ≤ x) (h' : x ≤ e.vmeEnd) :
    Trim [e] [(e.clipEnd x n).1, (e.clipEnd x n).2] :=
  trim_cut ⟨rfl, rfl⟩ ⟨rfl, rfl⟩ ⟨h, h'⟩ (.of_eq rfl rfl) (.of_eq rfl rfl)

theorem Trim.keep (hs : e'.vmeStart = e.vmeStart) (he : e'.vmeEnd = e.vmeEnd) (hn : Narrower e e')
    (h : Trim l l') : Trim (e :: l) (e' :: l') :=
  .cons (trim_single hs he hn) h

theorem Trim.drop (e : VmMapEntry) (h : Trim l l') : Trim (e :: l) l' := .cons (.nil [e]) h

end Trim

section Calls

/-- What a routine starts from, in a map that may have empty entries. -/
structure Cleared (m m' : VmMap) (a : ℕ) (r : Lookup) : Prop where
  trim : Trim m.entries m'.entries
  /-- The parts have the rights of what they are parts of. -/
  same : ∀ c ∈ m'.entries, ∃ e ∈ m.entries, Under e c ∧ c.maxProtection = e.maxProtection
  split : r.before ++ r.after = m'.entries
  before : ∀ e ∈ r.before, e.vmeEnd ≤ a
  after : ∀ e ∈ r.after, a ≤ e.vmeStart
  minOffset : m'.minOffset = m.minOffset
  maxOffset : m'.maxOffset = m.maxOffset

theorem seek_cleared (ho : Loose m.entries) {r : Lookup} (h : m.seek a = some (r, m')) :
    Cleared m m' a r := by
  unfold VmMap.seek at h
  obtain ⟨⟨r₁, m₁⟩, hlook, h⟩ := Option.bind_eq_some_iff.1 h
  obtain ⟨hloc, hhint⟩ := lookup_spec ho hlook
  have hl : r₁.before ++ r₁.after = m₁.entries := by rw [hhint.entries, hloc.split]
  have hkeep : ∀ c ∈ m₁.entries, ∃ e ∈ m.entries, Under e c ∧ c.maxProtection = e.maxProtection :=
    fun c hc => ⟨c, hhint.entries ▸ hc, .of_eq rfl rfl rfl rfl, rfl⟩
  rw [← hhint.entries, ← hl] at ho
  simp only at h
  split at h
  · rename_i e rest hf hafter
    obtain ⟨e', rest', hrest, hs, he⟩ := hloc.found hf
    obtain ⟨rfl, rfl⟩ : e = e' ∧ rest = rest' := by simpa [hafter] using hrest
    rw [hafter] at ho hl
    have hlater : ∀ x ∈ rest, e.vmeEnd ≤ x.vmeStart := fun x hx => ho.right.stop_le hx
    split_ifs at h with hlt
    · cases h
      refine ⟨?_, fun c hc => ?_, by simp, ?_, ?_, hhint.minOffset, hhint.maxOffset⟩
      · rw [← hhint.entries, ← hl]
        exact .behind _ (.cons (trim_clipStart hs he.le) (.refl rest))
      · rw [← hhint.entries, ← hl]
        simp only [List.mem_append, List.mem_cons] at hc
        rcases hc with hc | rfl | rfl | hc
        · exact ⟨c, by simp [hc], .of_eq rfl rfl rfl rfl, rfl⟩
        · exact ⟨e, by simp, ⟨le_rfl, he.le, .of_eq rfl rfl⟩, rfl⟩
        · exact ⟨e, by simp, ⟨hs, le_rfl, .of_eq rfl rfl⟩, rfl⟩
        · exact ⟨c, by simp [hc], .of_eq rfl rfl rfl rfl, rfl⟩
      · exact List.forall_mem_append.2 ⟨hloc.before, by simp [VmMapEntry.clipStart]⟩
      · refine List.forall_mem_cons.2 ⟨le_rfl, fun x hx => ?_⟩
        have := hlater x hx
        omega
    · cases h
      refine ⟨by rw [hhint.entries]; exact .refl _, hkeep, by rw [hafter]; exact hl,
        hloc.before, ?_, hhint.minOffset, hhint.maxOffset⟩
      rw [hafter]
      refine List.forall_mem_cons.2 ⟨by omega, fun x hx => ?_⟩
      have := hlater x hx
      omega
  · rename_i hnot
    obtain ⟨rfl, rfl⟩ := Prod.mk.inj (Option.some.inj h)
    have hf : r₁.found = false := by
      rw [Bool.eq_false_iff]
      intro hf
      obtain ⟨e, rest, hrest, -⟩ := hloc.found hf
      exact hnot e rest hf hrest
    exact ⟨by rw [hhint.entries]; exact .refl _, hkeep, hl, hloc.before,
      fun x hx => (hloc.free hf x hx).le, hhint.minOffset, hhint.maxOffset⟩

/-- The walk over a range, when what it does to the entries of the range takes rights from them
only. -/
theorem forRange_trim {f : VmMapEntry → VmMapEntry} (hf : KeepsBounds f) {end_ : ℕ} (ho : Loose l)
    (hn : ∀ e ∈ l, ∀ c, e.vmeStart < end_ → c.vmeStart = e.vmeStart → c.vmeEnd ≤ e.vmeEnd →
    c.protection = e.protection →
      c.maxProtection = e.maxProtection → Narrower c (f c)) (h : Hdr) :
    Trim l (forRange end_ f l h).1 := by
  induction l with
  | nil => exact .refl []
  | cons e l ih =>
    have hle := ho.le e (by simp)
    simp only [start_entry, stop_entry] at hle
    unfold forRange
    split_ifs with hlt hclip
    · have hc := hn e (by simp) (e.clipEnd end_ h.zone).1 hlt rfl hclip.le rfl rfl
      refine .trans (l := (e.clipEnd end_ h.zone).1 :: (e.clipEnd end_ h.zone).2 :: l)
        (.cons (trim_clipEnd hlt.le hclip.le) (.refl l)) ?_
      exact .keep (hf _).1 (hf _).2 hc (.refl _)
    · have hc := hn e (by simp) e hlt rfl le_rfl rfl rfl
      exact .keep (hf e).1 (hf e).2 hc (ih ho.tail fun x hx => hn x (List.mem_cons_of_mem _ hx))
    · exact .refl _

theorem deleteLoop_trim (stays : VmMapEntry → Bool) (end_ : ℕ) (l : List VmMapEntry) (h : Hdr)
    (size : ℕ) : Trim l (deleteLoop stays end_ l h size).2.1 := by
  induction l generalizing h size with
  | nil => exact .refl []
  | cons e l ih =>
    unfold deleteLoop
    split_ifs with hlt hclip htrans hstays htrans hstays
    · refine .trans (l := (e.clipEnd end_ h.zone).1 :: (e.clipEnd end_ h.zone).2 :: l)
        (.cons (trim_clipEnd hlt.le hclip.le) (.refl l)) ?_
      exact .keep rfl rfl (.of_eq rfl rfl) (.refl _)
    · exact .cons (trim_clipEnd hlt.le hclip.le) (.refl l)
    · refine .trans (l := (e.clipEnd end_ h.zone).1 :: (e.clipEnd end_ h.zone).2 :: l)
        (.cons (trim_clipEnd hlt.le hclip.le) (.refl l)) ?_
      exact .drop _ (.refl _)
    · exact .keep rfl rfl (.of_eq rfl rfl) (.refl l)
    · exact .cons (.refl [e]) (ih h size)
    · exact .drop e (ih _ _)
    · exact .refl _

theorem clearMarks_trim (end_ : ℕ) (l : List VmMapEntry) : Trim l (clearMarks end_ l) := by
  induction l with
  | nil => exact .refl []
  | cons e l ih =>
    unfold clearMarks
    split_ifs
    · exact .keep rfl rfl (.of_eq rfl rfl) ih
    · exact .refl _

theorem clearMark_trim (p : ℕ) (l : List VmMapEntry) : Trim l (clearMark p l) := by
  induction l with
  | nil => exact .refl []
  | cons e l ih =>
    unfold clearMark at ih ⊢
    rw [List.map_cons]
    split_ifs
    · exact .keep rfl rfl (.of_eq rfl rfl) ih
    · exact .keep rfl rfl (.of_eq rfl rfl) ih

theorem copyNonblocking_narrower {h : Objects V} {n : ℕ} {r : VmMapEntry × VmMapEntry × Objects V}
    (hr : copyNonblocking h e n = some r) : Narrower e r.1 ∧ Narrower e r.2.1 := by
  unfold copyNonblocking at hr
  split_ifs at hr
  obtain ⟨c, -, rfl⟩ := Option.map_eq_some_iff.1 hr
  exact ⟨.of_eq rfl rfl, .of_eq rfl rfl⟩

theorem copyinEntry_narrower (zero : V) (h : Objects V) (e : VmMapEntry) :
    Narrower e (copyinEntry zero h e).1 ∧ Narrower e (copyinEntry zero h e).2.1 := by
  unfold copyinEntry
  split
  · rename_i r hr
    exact copyNonblocking_narrower hr
  · refine ⟨.of_eq rfl rfl, ?_⟩
    unfold copyinBlocking
    split
    · split_ifs <;> exact .of_eq rfl rfl
    · exact .of_eq rfl rfl

/-- The walk of `vm_map_copyin` trims the source, and so is the copy that it makes. -/
theorem copyinLoop_trim (zero : V) (srcEnd : ℕ) (l : List VmMapEntry) (srcStart : ℕ)
    (hle : srcStart ≤ srcEnd) (hdr : Hdr) (h : Objects V) :
    Trim l (copyinLoop zero srcEnd l srcStart hdr h).2.1 ∧
      ∀ copy, (copyinLoop zero srcEnd l srcStart hdr h).1 = some copy →
        Trim l copy ∧ ∀ c ∈ copy, c.vmeEnd ≤ srcEnd := by
  induction l generalizing srcStart h with
  | nil => exact ⟨.refl [], by simp [copyinLoop]⟩
  | cons e l ih =>
    unfold copyinLoop
    by_cases hbad : e.vmeStart ≠ srcStart ∨ e.protection &&& vmProtRead = 0
    · rw [if_pos hbad]
      exact ⟨.refl _, by simp⟩
    rw [if_neg hbad]
    have hs : e.vmeStart = srcStart := by
      by_contra hne
      exact hbad (.inl hne)
    by_cases hclip : srcEnd < e.vmeEnd
    · rw [if_pos hclip]
      simp only
      have hcut : Trim (e :: l)
        ((e.clipEnd srcEnd hdr.zone).1 :: (e.clipEnd srcEnd hdr.zone).2 :: l) :=
        .cons (trim_clipEnd (by omega) hclip.le) (.refl l)
      obtain ⟨⟨h₁, h₂⟩, h₃, h₄⟩ := copyinEntry_bounds zero h (e.clipEnd srcEnd hdr.zone).1
      obtain ⟨hn, hn'⟩ := copyinEntry_narrower zero h (e.clipEnd srcEnd hdr.zone).1
      refine ⟨hcut.trans (.keep h₁ h₂ hn (.refl _)), fun copy hcopy => ?_⟩
      cases hcopy
      refine ⟨hcut.trans (.keep h₃ h₄ hn' (.nil _)), fun c hc => ?_⟩
      obtain rfl := List.mem_singleton.1 hc
      exact h₄.le
    · rw [if_neg hclip]
      simp only
      obtain ⟨⟨h₁, h₂⟩, h₃, h₄⟩ := copyinEntry_bounds zero h e
      obtain ⟨hn, hn'⟩ := copyinEntry_narrower zero h e
      by_cases hend : srcEnd ≤ e.vmeEnd
      · rw [if_pos hend]
        refine ⟨.keep h₁ h₂ hn (.refl l), fun copy hcopy => ?_⟩
        cases hcopy
        refine ⟨.keep h₃ h₄ hn' (.nil l), fun c hc => ?_⟩
        obtain rfl := List.mem_singleton.1 hc
        exact h₄.le.trans (by omega)
      · rw [if_neg hend]
        obtain ⟨ht, hcopies⟩ := ih e.vmeEnd (by omega) (copyinEntry zero h e).2.2
        split
        · rename_i copy l₁ hdr₁ heap₁ hrec
          rw [hrec] at ht hcopies
          refine ⟨.keep h₁ h₂ hn ht, fun copy' hcopy => ?_⟩
          cases hcopy
          obtain ⟨htc, hle⟩ := hcopies copy rfl
          exact ⟨.keep h₃ h₄ hn' htc, List.forall_mem_cons.2 ⟨h₄.le.trans (by omega), hle⟩⟩
        · rename_i l₁ hdr₁ heap₁ hrec
          rw [hrec] at ht
          exact ⟨.keep h₁ h₂ hn ht, by simp⟩

/-- What `vm_map_copyin` does to the source, and where the copy lies. -/
theorem copyin_cleared (ho : Loose m.entries) {zero : V} {h h' : Objects V} {start len : ℕ}
    {copy : Option VmMapCopy} (hc : vmMapCopyin zero m h start len = some (copy, m', h')) :
    Trim m.entries m'.entries ∧ (m'.minOffset = m.minOffset ∧ m'.maxOffset = m.maxOffset) ∧
      ∀ c, copy = some c → Trim m.entries c.entries ∧
        ∀ x ∈ c.entries, start ≤ x.vmeStart ∧ x.vmeEnd ≤ (start + len) % 2 ^ 32 := by
  unfold vmMapCopyin at hc
  simp only at hc
  split_ifs at hc with hwrap
  · cases hc
    exact ⟨.refl _, ⟨rfl, rfl⟩, by simp⟩
  obtain ⟨⟨r, m₁⟩, hseek, hc⟩ := Option.bind_eq_some_iff.1 hc
  have hs := seek_cleared ho hseek
  simp only at hc
  split_ifs at hc with hf
  · obtain ⟨ht, hcopy⟩ :=
      copyinLoop_trim zero ((start + len) % 2 ^ 32) r.after start (by omega) m₁.hdr h
    set q := copyinLoop zero ((start + len) % 2 ^ 32) r.after start m₁.hdr h with hq
    obtain ⟨rfl, rfl, -⟩ : q.1.map (fun entries => (⟨start, len, entries⟩ : VmMapCopy)) = copy ∧
        { m₁ with entries := r.before ++ q.2.1, hdr := q.2.2.1 } = m' ∧ q.2.2.2 = h' := by
      simpa using hc
    have hsplit := hs.trim
    rw [← hs.split] at hsplit
    refine ⟨hsplit.trans (.behind _ ht), ⟨hs.minOffset, hs.maxOffset⟩, fun c hmap => ?_⟩
    obtain ⟨entries, hentries, rfl⟩ := Option.map_eq_some_iff.1 hmap
    obtain ⟨htc, hle⟩ := hcopy entries hentries
    refine ⟨hsplit.trans ((Trim.nil r.before).append htc), fun x hx => ⟨?_, hle x hx⟩⟩
    obtain ⟨y, hy, hu⟩ := htc.under x hx
    exact (hs.after y hy).trans hu.start_le
  · cases hc
    exact ⟨hs.trim, ⟨hs.minOffset, hs.maxOffset⟩, by simp⟩

theorem overwriteCheck_trim (size : ℕ) (l : List VmMapEntry) :
    Trim l (overwriteCheck size l).2 := by
  fun_induction overwriteCheck size l with
  | case1 => exact .refl _
  | case2 => exact .refl _
  | case3 => exact .keep rfl rfl (.of_eq rfl rfl) (.refl _)
  | case4 => exact .refl _
  | case5 => exact .refl _
  | case6 => exact .refl _
  | case7 size e _ _ _ next rest _ r ih => exact .keep rfl rfl (.of_eq rfl rfl) ih

/-- The second pass of `vm_map_copy_overwrite` keeps the attributes of the destination. -/
theorem overwriteLoop_trim (temporary : MapObject → Bool) (copy : List VmMapEntry) (start : ℕ)
    (l : List VmMapEntry) (hdr : Hdr) : Trim l (overwriteLoop temporary copy start l hdr).2.1 := by
  fun_induction overwriteLoop temporary copy start l hdr with
  | case1 => exact .refl _
  | case2 => exact .refl _
  | case3 => exact .refl _
  | case4 => exact .refl _
  | case5 start c copy e l hdr _ _ hlt k _ r ih =>
    refine .trans (l := k.1 :: k.2 :: l) (.cons (trim_clipEnd (by omega) (by omega)) (.refl l)) ?_
    exact .keep rfl rfl (.of_eq rfl rfl) ih
  | case6 start c copy e l hdr _ _ hlt k =>
    exact .cons (trim_clipEnd (by omega) (by omega)) (.refl l)
  | case7 start c copy e l hdr _ _ _ k _ r ih => exact .keep rfl rfl (.of_eq rfl rfl) ih
  | case8 => exact .refl _

end Calls

end XMach.Vm
