import XMach.Vm.Proofs.Run

/-!
# What an address map means

A map stands for a partial function from addresses to what is mapped there (`VmMap.denote`).
Clipping and `vm_map_simplify` change how the function is written down and not the function;
`vm_map_protect` and `vm_map_inherit` update it point by point on their range, and `vm_map_delete`
removes the range from its domain.
-/

namespace XMach.Vm

open Region

/-- What is mapped at an address. -/
structure Page where
  object : MapObject
  offset : ℕ
  protection : VmProt
  maxProtection : VmProt
  inheritance : VmInherit
  needsCopy : Bool
  wiredCount : BitVec 16
  userWiredCount : BitVec 16
  deriving DecidableEq

def VmMapEntry.page (e : VmMapEntry) (a : ℕ) : Page where
  object := e.object
  offset := e.offsetAt a
  protection := e.protection
  maxProtection := e.maxProtection
  inheritance := e.inheritance
  needsCopy := e.needsCopy
  wiredCount := e.wiredCount
  userWiredCount := e.userWiredCount

/-- What a list of entries maps at an address. -/
def pageAt (l : List VmMapEntry) (a : ℕ) : Option Page := (regionAt l a).map (·.page a)

def VmMap.denote (m : VmMap) (a : ℕ) : Option Page := pageAt m.entries a

section Current

variable {m M : VmMap} {maps others : List VmMap}

/-- Of the maps that a routine finds each time that it has the lock, the last one that is not still
to come. -/
def Current (maps others : List VmMap) (M : VmMap) : Prop := ∃ used, maps = used ++ M :: others

theorem current_self (m : VmMap) (others : List VmMap) : Current (m :: others) others m := ⟨[], rfl⟩

theorem Current.next (h : Current maps (m :: others) M) : Current maps others m := by
  obtain ⟨used, rfl⟩ := h
  exact ⟨used ++ [M], by simp⟩

theorem Current.cons (h : Current maps others M) (m : VmMap) : Current (m :: maps) others M := by
  obtain ⟨used, rfl⟩ := h
  exact ⟨m :: used, rfl⟩

theorem Current.mem (h : Current maps others M) : M ∈ maps := by
  obtain ⟨used, rfl⟩ := h
  simp

end Current

variable {m m' : VmMap} {l l' before after : List VmMapEntry} {e e' : VmMapEntry} {a start end_ : ℕ}
  {kr : KernReturn} {f : VmMapEntry → VmMapEntry} {g : Page → Page} {newProt : VmProt}

section Pointwise

/-- The entry maps its addresses as another one does. -/
def SamePages (e e' : VmMapEntry) : Prop := ∀ a, Covers e' a → e'.page a = e.page a

theorem Piece.samePages (h : Piece e e') : SamePages e e' := by
  intro a ha
  unfold VmMapEntry.page
  rw [h.offset a ha.1, h.same]

theorem pageAt_cuts (h : Cuts SamePages l l') (a : ℕ) : pageAt l' a = pageAt l a := by
  unfold pageAt
  have hrel := h.regionAt a
  generalize regionAt l a = x at hrel ⊢
  generalize regionAt l' a = y at hrel ⊢
  cases hrel with
  | none => rfl
  | some hr => exact congrArg some (hr.1 a hr.2)

theorem Recut.denote (h : Recut Piece m m') (a : ℕ) : m'.denote a = m.denote a :=
  pageAt_cuts (h.cuts.mono fun _ _ _ hp => hp.samePages) a

theorem pageAt_or (l₁ l₂ : List VmMapEntry) (a : ℕ) :
    pageAt (l₁ ++ l₂) a = (pageAt l₁ a).or (pageAt l₂ a) := by
  unfold pageAt
  rw [regionAt_append]
  cases regionAt l₁ a <;> rfl

/-- Below `start` a map shows what is before the position, and from there on what is behind it. -/
theorem pageAt_append (hb : ∀ e ∈ before, e.vmeEnd ≤ start) (ha : ∀ e ∈ after, start ≤ e.vmeStart)
    (a : ℕ) : pageAt (before ++ after) a = if a < start then pageAt before a
    else pageAt after a := by
  unfold pageAt
  rw [regionAt_append]
  split_ifs with h
  · rw [regionAt_of_lt_start (l := after) fun x hx => lt_of_lt_of_le h (ha x hx), Option.or_none]
  · rw [regionAt_of_stop_le (l := before) fun x hx => (hb x hx).trans (not_lt.1 h), Option.none_or]

theorem pageAt_rangeChange (hf : ∀ e a, (f e).page a = g (e.page a)) (hb : KeepsBounds f)
    (h : Cuts (RangeChange end_ f) l l') (a : ℕ) :
    pageAt l' a = if a < end_ then (pageAt l a).map g else pageAt l a := by
  unfold pageAt
  have hrel := h.regionAt a
  generalize regionAt l a = x at hrel ⊢
  generalize regionAt l' a = y at hrel ⊢
  cases hrel with
  | none => simp
  | @some e e' hr =>
    obtain ⟨hchange, hcov⟩ := hr
    rcases hchange with ⟨hend, p, hp, rfl⟩ | ⟨hstart, hp⟩
    · have hlt : a < end_ := lt_of_lt_of_le hcov.2 hend
      have hcovp : Covers p a := by
        unfold Covers at hcov ⊢
        simpa only [start_entry, stop_entry, (hb p).1, (hb p).2] using hcov
      simp only [if_pos hlt, Option.map_some, hf, hp.samePages a hcovp]
    · have hge : ¬ a < end_ := not_lt.2 (hstart.trans hcov.1)
      simp only [if_neg hge, Option.map_some, hp.samePages a hcov]

end Pointwise

section Clip

theorem clipStart_denote (hl : m.entries = before ++ e :: after) (h : start < e.vmeEnd) (a : ℕ) :
    (m.clipStart before e after start).denote a = m.denote a :=
  (recut_clipStart hl h).denote a

theorem clipEnd_denote (hl : m.entries = before ++ e :: after) (h : e.vmeStart < end_) (a : ℕ) :
    (m.clipEnd before e after end_).denote a = m.denote a :=
  (recut_clipEnd hl h).denote a

/-- Two neighbours that `vm_map_simplify` merges are pieces of the entry it makes of them. -/
theorem merge_samePages {prev this : VmMapEntry} (hmerge : prev.mergesWith this = true)
    (hadj : this.vmeStart = prev.vmeEnd) (hp : prev.vmeStart ≤ prev.vmeEnd) :
    SamePages { prev with vmeEnd := this.vmeEnd } prev ∧
      SamePages { prev with vmeEnd := this.vmeEnd } this := by
  refine ⟨fun a _ => rfl, fun a ha => ?_⟩
  simp only [VmMapEntry.mergesWith, decide_eq_true_eq] at hmerge
  obtain ⟨-, -, -, -, hinh, hprot, hmax, hwired, huser, hcopy, hobj, hoff, -⟩ := hmerge
  have hoffset : this.offsetAt a = prev.offsetAt a :=
    offsetAt_of_offset hp hadj hoff.symm (hadj ▸ ha.1)
  unfold VmMapEntry.page
  rw [hoffset]
  simp only [hinh, hprot, hmax, hwired, huser, hcopy, hobj]
  rfl

theorem simplify_total (h : Linked m.entries m.hint) (start : ℕ) :
    ∃ m', vmMapSimplify m start = some m' := by
  obtain ⟨r, m₁, hlook⟩ := lookup_total h start
  unfold vmMapSimplify
  rw [hlook, Option.bind_eq_bind, Option.bind_some]
  simp only
  split
  · split_ifs <;> exact ⟨_, rfl⟩
  · exact ⟨_, rfl⟩

theorem simplify_denote (hm : WellFormed m) (h : vmMapSimplify m start = some m') (a : ℕ) :
    m'.denote a = m.denote a := by
  obtain ⟨m₁, hhint, hcases⟩ := simplify_cases hm.ordered.loose h
  have hden : m₁.denote a = m.denote a := by rw [VmMap.denote, hhint.entries, VmMap.denote]
  rcases hcases with rfl | ⟨before, prev, this, rest, hl, hs, hmerge, rfl⟩
  · exact hden
  have ho := (hhint.wellFormed hm).ordered
  rw [hl] at ho
  obtain ⟨hp, hpl, hot⟩ := ordered_cons.1 ho.right
  have hle := hpl this List.mem_cons_self
  have ht := (ordered_cons.1 hot).1
  simp only [start_entry, stop_entry] at hp hle ht
  have hadj : this.vmeStart = prev.vmeEnd := by omega
  obtain ⟨hs₁, hs₂⟩ := merge_samePages hmerge hadj hp.le
  rw [← hden]
  -- the old list is a cut of the new one
  refine Eq.symm (pageAt_cuts ?_ a)
  rw [hl]
  refine .append (.refl fun x _ a _ => rfl) (.split hs₁ hs₂ rfl hadj.symm rfl ?_ ?_
    (.refl fun x _ a _ => rfl))
  · simp only [start_entry]
    omega
  · simp only [start_entry, stop_entry]
    omega

end Clip

section Update

/-- What `vm_map_protect` does to a page. -/
def Page.setProtection (newProt : VmProt) (setMax : Bool) (p : Page) : Page :=
  if setMax then { p with maxProtection := newProt, protection := newProt &&& p.protection }
  else { p with protection := newProt }

def Page.setInheritance (new : VmInherit) (p : Page) : Page := { p with inheritance := new }

theorem page_setProtection (newProt : VmProt) (setMax : Bool) (e : VmMapEntry) (a : ℕ) :
    (e.setProtection newProt setMax).page a = (e.page a).setProtection newProt setMax := by
  unfold VmMapEntry.setProtection Page.setProtection
  split_ifs <;> rfl

theorem denote_forRange {r : Lookup} (end_ : ℕ) (hf : ∀ e a, (f e).page a = g (e.page a))
    (hb : KeepsBounds f) (hm : WellFormed m) (hs : Sought m m' start r) (a : ℕ) :
    pageAt (r.before ++ (forRange end_ f r.after m'.hdr).1) a =
      if start ≤ a ∧ a < end_ then (m.denote a).map g else m.denote a := by
  have ho := (hs.recut.wellFormed hm).ordered
  rw [← hs.split] at ho
  obtain ⟨hc, -⟩ := forRange_spec hb end_ ho.right m'.hdr
  have hden : m.denote a = if a < start then pageAt r.before a else pageAt r.after a := by
    rw [← hs.recut.denote a, VmMap.denote, ← hs.split, pageAt_append hs.before hs.after]
  rw [pageAt_append hs.before (hc.start_ge hs.after), hden, pageAt_rangeChange hf hb hc]
  by_cases h₁ : a < start
  · simp only [if_pos h₁, if_neg (fun h : start ≤ a ∧ a < end_ => absurd h.1 (not_le.2 h₁))]
  · by_cases h₂ : a < end_
    · simp only [if_neg h₁, if_pos h₂, if_pos (⟨not_lt.1 h₁, h₂⟩ : start ≤ a ∧ a < end_)]
    · simp only [if_neg h₁, if_neg h₂, if_neg (fun h : start ≤ a ∧ a < end_ => h₂ h.2)]

theorem protectCheck_cases (h : protectCheck end_ newProt l = some kr) :
    kr = .protectionFailure ∨ kr = .invalidArgument := by
  induction l with
  | nil => simp [protectCheck] at h
  | cons e l ih =>
    unfold protectCheck at h
    split_ifs at h
    · exact .inr (Option.some.inj h).symm
    · exact .inl (Option.some.inj h).symm
    · exact ih h

/-- The result of `vm_map_protect` is success with the new protection, or an error without any
effect. -/
theorem protect_spec {setMax : Bool} (hm : WellFormed m)
    (h : vmMapProtect m start end_ newProt setMax = some (kr, m')) :
    (kr = .success ∨ kr = .protectionFailure ∨ kr = .invalidArgument) ∧
      ∀ a, m'.denote a = if kr = .success ∧ (m.rangeCheck start end_).1 ≤ a ∧
          a < (m.rangeCheck start end_).2 then
        (m.denote a).map (Page.setProtection newProt setMax) else m.denote a := by
  unfold vmMapProtect at h
  generalize m.rangeCheck start end_ = range at h ⊢
  obtain ⟨⟨r, m₁⟩, hseek, h⟩ := Option.bind_eq_some_iff.1 h
  have hs := seek_spec hm hseek
  simp only at h
  split at h
  · rename_i kr' hcheck
    cases h
    have hkr := protectCheck_cases hcheck
    refine ⟨.inr hkr, fun a => ?_⟩
    rw [hs.recut.denote, if_neg]
    rintro ⟨rfl, -⟩
    rcases hkr with h | h <;> cases h
  · cases h
    refine ⟨.inl rfl, fun a => ?_⟩
    refine (denote_forRange _ (page_setProtection newProt setMax)
      (keepsBounds_setProtection newProt setMax) hm hs a).trans ?_
    simp

theorem protect_total (h : Linked m.entries m.hint) (start end_ : ℕ) (newProt : VmProt)
    (setMax : Bool) : ∃ kr m', vmMapProtect m start end_ newProt setMax = some (kr, m') := by
  obtain ⟨r, m₁, hseek⟩ := seek_total h (m.rangeCheck start end_).1
  unfold vmMapProtect
  simp only [hseek, Option.bind_eq_bind, Option.bind_some]
  split
  · exact ⟨_, _, rfl⟩
  · exact ⟨_, _, rfl⟩

theorem inherit_spec {new : VmInherit} (hm : WellFormed m)
    (h : vmMapInherit m start end_ new = some (kr, m')) :
    kr = .success ∧ ∀ a, m'.denote a = if (m.rangeCheck start end_).1 ≤ a ∧
          a < (m.rangeCheck start end_).2 then
        (m.denote a).map (Page.setInheritance new) else m.denote a := by
  unfold vmMapInherit at h
  generalize m.rangeCheck start end_ = range at h ⊢
  obtain ⟨⟨r, m₁⟩, hseek, h⟩ := Option.bind_eq_some_iff.1 h
  have hs := seek_spec hm hseek
  cases h
  exact ⟨rfl, denote_forRange _ (fun _ _ => rfl) (keepsBounds_setInheritance new) hm hs⟩

theorem inherit_total (h : Linked m.entries m.hint) (start end_ : ℕ) (new : VmInherit) :
    ∃ kr m', vmMapInherit m start end_ new = some (kr, m') := by
  obtain ⟨r, m₁, hseek⟩ := seek_total h (m.rangeCheck start end_).1
  unfold vmMapInherit
  simp only [hseek, Option.bind_eq_bind, Option.bind_some]
  exact ⟨_, _, rfl⟩

end Update

section Delete

variable {stays : VmMapEntry → Bool}

/-- The entry at an address is one that `vm_map_entry_delete` leaves. -/
def staysAt (stays : VmMapEntry → Bool) (l : List VmMapEntry) (a : ℕ) : Bool :=
  (regionAt l a).any stays

theorem pageAt_cons : pageAt (e :: l) a = if Covers e a then some (e.page a) else pageAt l a := by
  unfold pageAt
  rw [regionAt_cons]
  split_ifs <;> rfl

theorem staysAt_cons :
    staysAt stays (e :: l) a = if Covers e a then stays e else staysAt stays l a := by
  unfold staysAt
  rw [regionAt_cons]
  split_ifs <;> rfl

theorem regionAt_of_lt (h : ∀ e ∈ l, start ≤ e.vmeStart) (ha : a < start) : regionAt l a = none :=
  regionAt_of_lt_start fun x hx => lt_of_lt_of_le ha (h x hx)

theorem deleteLoop_done (hgo : ∀ e ∈ l, e.vmeStart < end_ → e.inTransition = false) (h : Hdr)
    (size : ℕ) : (deleteLoop stays end_ l h size).1 = false := by
  induction l generalizing h size with
  | nil => rfl
  | cons e l ih =>
    have ih := ih fun x hx => hgo x (List.mem_cons_of_mem _ hx)
    unfold deleteLoop
    by_cases h₁ : e.vmeStart < end_
    · simp only [if_pos h₁, hgo e List.mem_cons_self h₁, Bool.false_eq_true, if_false]
      split_ifs
      · rfl
      · rfl
      · exact ih _ _
      · exact ih _ _
    · simp only [if_neg h₁]

/-- What the walk of `vm_map_delete` leaves when it gets to the end of the range. -/
theorem pageAt_deleteLoop (ho : Ordered l) {h : Hdr} {size : ℕ}
    (hdone : (deleteLoop stays end_ l h size).1 = false) (a : ℕ) :
    pageAt (deleteLoop stays end_ l h size).2.1 a =
      if a < end_ ∧ staysAt stays l a = false then none else pageAt l a := by
  induction l generalizing h size with
  | nil => simp [deleteLoop, pageAt]
  | cons e l ih =>
    obtain ⟨he, hl, ho'⟩ := ordered_cons.1 ho
    simp only [start_entry, stop_entry] at he hl
    have hnone : a < e.vmeEnd → regionAt l a = none := fun ha => regionAt_of_lt hl ha
    have hout : ¬ Covers e a → a < e.vmeEnd → pageAt (e :: l) a = none := by
      intro hc ha
      rw [pageAt_cons, if_neg hc, pageAt, hnone ha]
      rfl
    unfold deleteLoop at hdone ⊢
    by_cases h₁ : e.vmeStart < end_
    · simp only [if_pos h₁] at hdone ⊢
      by_cases h₂ : end_ < e.vmeEnd
      · simp only [if_pos h₂] at hdone ⊢
        have hcut : Cuts SamePages (e :: l)
          ((e.clipEnd end_ h.zone).1 :: (e.clipEnd end_ h.zone).2 :: l) := by
          have hp := piece_clipEnd (n := h.zone) h₁.le
          exact .split hp.1.samePages hp.2.samePages rfl rfl rfl h₁ h₂ (.refl fun x _ a _ => rfl)
        have hfront : Covers (e.clipEnd end_ h.zone).1 a ↔ Covers e a ∧ a < end_ := by
          simp only [Covers, VmMapEntry.clipEnd, start_entry, stop_entry]
          omega
        split_ifs at hdone ⊢ with htrans hstays hin hin
        · -- the entry stays, in two pieces
          rw [pageAt_cuts hcut, hout _ (by omega)]
          intro hc
          rw [staysAt_cons, if_pos hc, hstays] at hin
          cases hin.2
        · exact pageAt_cuts hcut a
        · rw [pageAt, regionAt_of_lt _ hin.1]
          · rfl
          · refine List.forall_mem_cons.2 ⟨le_rfl, fun x hx => ?_⟩
            have := hl x hx
            omega
        · rw [← pageAt_cuts hcut a, pageAt_cons (e := (e.clipEnd end_ h.zone).1), if_neg]
          rw [hfront]
          rintro ⟨hc, hlt⟩
          refine hin ⟨hlt, ?_⟩
          rw [staysAt_cons, if_pos hc]
          simpa using hstays
      · simp only [if_neg h₂] at hdone ⊢
        split_ifs at hdone with htrans hstays
        · simp only [htrans, hstays, Bool.false_eq_true, if_false, if_true]
          rw [pageAt_cons, staysAt_cons, pageAt_cons]
          by_cases hc : Covers e a
          · simp only [if_pos hc, hstays, Bool.true_eq_false, and_false, if_false]
          · simp only [if_neg hc]
            exact ih ho' hdone
        · simp only [htrans, hstays, Bool.false_eq_true, if_false]
          rw [ih ho' hdone, staysAt_cons, pageAt_cons]
          by_cases hc : Covers e a
          · -- the entry goes, and no other one is there
            have hreg := hnone hc.2
            have hlt : a < end_ := lt_of_lt_of_le hc.2 (not_lt.1 h₂)
            simp only [if_pos hc, staysAt, hreg, hstays, hlt, Option.any_none, and_self, if_true]
          · simp only [if_neg hc]
    · simp only [if_neg h₁]
      split_ifs with hin
      · exact hout (fun hc => h₁ (lt_of_le_of_lt hc.1 hin.1)) (by omega)
      · rfl

/-- `vm_map_delete` from a position on, for the addresses behind what is before it. -/
theorem denote_deleteFrom (hm : WellFormed m) (hl : before ++ after = m.entries)
    (hb : ∀ e ∈ before, e.vmeEnd ≤ a) (hdone : (m.deleteFrom stays end_ before after).1 = false) :
    (m.deleteFrom stays end_ before after).2.denote a =
      if a < end_ ∧ staysAt stays m.entries a = false then none else m.denote a := by
  have ho := hm.ordered
  rw [← hl] at ho
  have hbefore : regionAt before a = none := regionAt_of_stop_le hb
  have hpage : ∀ l, pageAt (before ++ l) a = pageAt l a := by
    intro l
    unfold pageAt
    rw [regionAt_append, hbefore, Option.none_or]
  have hstay : staysAt stays m.entries a = staysAt stays after a := by
    unfold staysAt
    rw [← hl, regionAt_append, hbefore, Option.none_or]
  have hden : m.denote a = pageAt after a := by
    rw [VmMap.denote, ← hl, hpage]
  rw [hstay, hden, ← pageAt_deleteLoop ho.right hdone]
  exact hpage _

theorem Piece.stays_eq (h : Piece e e') (kernelMap : Bool) (persistent : ProjectedOn → Bool) :
    e'.stays kernelMap persistent = e.stays kernelMap persistent := by
  rw [h.same]
  rfl

theorem staysAt_cuts (h : Cuts Piece l l') (kernelMap : Bool) (persistent : ProjectedOn → Bool)
    (a : ℕ) : staysAt (VmMapEntry.stays kernelMap persistent) l' a =
      staysAt (VmMapEntry.stays kernelMap persistent) l a := by
  unfold staysAt
  have hrel := h.regionAt a
  generalize regionAt l a = x at hrel ⊢
  generalize regionAt l' a = y at hrel ⊢
  cases hrel with
  | none => rfl
  | some hr => exact hr.1.stays_eq kernelMap persistent

/-- `vm_map_delete` when it gets to the end of the range without waiting. -/
theorem delete_pages {kernelMap : Bool} {persistent : ProjectedOn → Bool} (hm : WellFormed m)
    (h : vmMapDelete m start end_ (VmMapEntry.stays kernelMap persistent) = some (false, m'))
    (a : ℕ) : m'.denote a = if start ≤ a ∧ a < end_ ∧
        staysAt (VmMapEntry.stays kernelMap persistent) m.entries a = false then none
        else m.denote a := by
  unfold vmMapDelete at h
  obtain ⟨⟨r, m₁⟩, hseek, h⟩ := Option.bind_eq_some_iff.1 h
  obtain ⟨free, -, h⟩ := Option.bind_eq_some_iff.1 h
  have hdone := congrArg Prod.fst (Option.some.inj h)
  obtain rfl := congrArg Prod.snd (Option.some.inj h)
  have hs := seek_spec hm hseek
  have hm₁ := hs.recut.wellFormed hm
  have hm₂ : WellFormed (m₁.repairHints r start free) :=
    ⟨hm₁.ordered, hm₁.bounds, hm₁.nentries, hm₁.size, hm₁.max_lt⟩
  by_cases ha : start ≤ a
  · rw [denote_deleteFrom hm₂ hs.split (fun x hx => (hs.before x hx).trans ha) hdone]
    have hstay := staysAt_cuts hs.recut.cuts kernelMap persistent a
    have hden := hs.recut.denote a
    simp only [ha, true_and, ← hstay, ← hden]
    rfl
  · -- the walk does not change what lies before the range
    rw [if_neg fun hin => ha hin.1, ← hs.recut.denote a]
    have ho := hm₁.ordered
    rw [← hs.split] at ho
    obtain ⟨c, hcut, hsub, -⟩ :=
      deleteLoop_spec (VmMapEntry.stays kernelMap persistent) end_ ho.right m₁.hdr
      m₁.size (by rw [hm₁.size, ← hs.split, total_append]; omega) (size_lt hm₁)
    have hafter :
        ∀ x ∈ (deleteLoop (VmMapEntry.stays kernelMap persistent) end_ r.after m₁.hdr m₁.size).2.1,
        start ≤ x.vmeStart := fun x hx => hcut.start_ge hs.after x (hsub.subset hx)
    have hlt : a < start := not_le.1 ha
    refine (pageAt_append hs.before hafter a).trans ?_
    rw [if_pos hlt, VmMap.denote, ← hs.split, pageAt_append hs.before hs.after, if_pos hlt]

/-- `vm_map_delete` when it gets to the end of the range after it waited. -/
theorem deleteResume_pages (hm : WellFormed m)
    (h : vmMapDeleteResume m start end_ stays = some (false, m')) (ha : start ≤ a) :
    m'.denote a = if a < end_ ∧ staysAt stays m.entries a = false then none else m.denote a := by
  unfold vmMapDeleteResume at h
  obtain ⟨⟨r, m₁⟩, hlook, h⟩ := Option.bind_eq_some_iff.1 h
  have hdone := congrArg Prod.fst (Option.some.inj h)
  obtain rfl := congrArg Prod.snd (Option.some.inj h)
  obtain ⟨hloc, hhint⟩ := lookup_spec hm.ordered.loose hlook
  have hsplit : r.before ++ r.after = m₁.entries := by rw [hhint.entries, hloc.split]
  rw [denote_deleteFrom (hhint.wellFormed hm) hsplit (fun x hx =>
    (hloc.before x hx).trans ha) hdone]
  unfold VmMap.denote
  rw [hhint.entries]

/-- `vm_map_delete` gets to the end of a range in which nothing is in transition. -/
theorem delete_total (hm : WellFormed m) (hc : CachesLinked m) (stays : VmMapEntry → Bool)
    (hgo : ∀ e ∈ m.entries, e.vmeStart < end_ → start < e.vmeEnd → e.inTransition = false) :
    ∃ m', vmMapDelete m start end_ stays = some (false, m') := by
  obtain ⟨r, m₁, hseek⟩ := seek_total hc.1 start
  have hs := seek_spec hm hseek
  obtain ⟨free, hfree⟩ : ∃ free, m₁.startOf m₁.firstFree = some free :=
    startOf_total (hs.firstFree ▸ hs.held.linked hc.2)
  have hgo₁ : ∀ e ∈ r.after, e.vmeStart < end_ → e.inTransition = false := by
    intro x hx hlt
    have hmem : x ∈ m₁.entries := by
      rw [← hs.split]
      exact List.mem_append_right _ hx
    obtain ⟨e, he, hp, h₁, h₂⟩ := hs.recut.cuts.exists_of_mem hmem
    have := hs.after x hx
    have := (hs.recut.wellFormed hm).ordered.nonempty x hmem
    simp only [start_entry, stop_entry] at *
    rw [hp.same]
    exact hgo e he (by omega) (by omega)
  refine ⟨((m₁.repairHints r start free).deleteFrom stays end_ r.before r.after).2, ?_⟩
  unfold vmMapDelete
  simp only [hseek, hfree, Option.bind_eq_bind, Option.bind_some]
  exact congrArg some (Prod.ext (deleteLoop_done hgo₁ _ _) rfl)

/-- `vm_map_delete` of a range in which nothing is in transition and nothing stays. -/
theorem delete_denote (hm : WellFormed m) (hc : CachesLinked m) (kernelMap : Bool)
    (persistent : ProjectedOn → Bool) (hgo : ∀ e ∈ m.entries, e.vmeStart < end_ → start < e.vmeEnd →
      e.inTransition = false ∧ e.stays kernelMap persistent = false) :
    ∃ m', vmMapDelete m start end_ (VmMapEntry.stays kernelMap persistent) = some (false, m') ∧
      ∀ a, m'.denote a = if start ≤ a ∧ a < end_ then none else m.denote a := by
  obtain ⟨m', h⟩ := delete_total hm hc (VmMapEntry.stays kernelMap persistent)
    fun e he h₁ h₂ => (hgo e he h₁ h₂).1
  refine ⟨m', h, fun a => ?_⟩
  rw [delete_pages hm h a]
  by_cases hin : start ≤ a ∧ a < end_
  · have hstay : staysAt (VmMapEntry.stays kernelMap persistent) m.entries a = false := by
      unfold staysAt
      cases hreg : regionAt m.entries a with
      | none => rfl
      | some e =>
        obtain ⟨he, hcov⟩ := mem_of_regionAt hreg
        exact (hgo e he (lt_of_le_of_lt hcov.1 hin.2) (lt_of_le_of_lt hin.1 hcov.2)).2
    rw [if_pos hin, if_pos ⟨hin.1, hin.2, hstay⟩]
  · rw [if_neg hin, if_neg fun h => hin ⟨h.1, h.2.1⟩]

end Delete

/-- The meaning of a map under its routines, on a range of it: clipping and `vm_map_simplify` leave
it, `vm_map_protect` and `vm_map_inherit` update exactly the mapped addresses of the range when they
succeed, and `vm_map_protect` changes nothing when it does not. `vm_map_delete` removes exactly the
range, when no entry in it is in transition or maps a projected buffer that is not persistent. -/
theorem pointwise_semantics (hm : WellFormed m) (hc : CachesLinked m) (hlo : m.minOffset ≤ start)
    (hle : start ≤ end_) (hhi : end_ ≤ m.maxOffset) :
    (∀ before e after, m.entries = before ++ e :: after → ∀ x, e.vmeStart < x → x < e.vmeEnd →
      (m.clipStart before e after x).denote = m.denote ∧
      (m.clipEnd before e after x).denote = m.denote) ∧
    (∃ m', vmMapSimplify m start = some m' ∧ m'.denote = m.denote) ∧
    (∀ newProt setMax, ∃ kr m', vmMapProtect m start end_ newProt setMax = some (kr, m') ∧
      (kr = .success ∨ kr = .protectionFailure ∨ kr = .invalidArgument) ∧
      ∀ a, m'.denote a = if kr = .success ∧ start ≤ a ∧ a < end_ then
        (m.denote a).map (Page.setProtection newProt setMax) else m.denote a) ∧
    (∀ new, ∃ m', vmMapInherit m start end_ new = some (.success, m') ∧
      ∀ a, m'.denote a = if start ≤ a ∧ a < end_ then
        (m.denote a).map (Page.setInheritance new) else m.denote a) ∧
    (∀ kernelMap persistent, (∀ e ∈ m.entries, e.vmeStart < end_ → start < e.vmeEnd →
        e.inTransition = false ∧ e.stays kernelMap persistent = false) →
      ∃ m', vmMapDelete m start end_ (VmMapEntry.stays kernelMap persistent) = some (false, m') ∧
        ∀ a, m'.denote a = if start ≤ a ∧ a < end_ then none else m.denote a) := by
  refine ⟨fun before e after hl x h₁ h₂ => ⟨?_, ?_⟩, ?_, fun newProt setMax => ?_, fun new => ?_,
    fun kernelMap persistent hgo => ?_⟩
  · exact funext (clipStart_denote hl h₂)
  · exact funext (clipEnd_denote hl h₁)
  · obtain ⟨m', h⟩ := simplify_total hc.1 start
    exact ⟨m', h, funext (simplify_denote hm h)⟩
  · obtain ⟨kr, m', h⟩ := protect_total hc.1 start end_ newProt setMax
    have hspec := protect_spec hm h
    rw [rangeCheck_of_within hlo hhi hle] at hspec
    exact ⟨kr, m', h, hspec⟩
  · obtain ⟨kr, m', h⟩ := inherit_total hc.1 start end_ new
    obtain ⟨rfl, hspec⟩ := inherit_spec hm h
    rw [rangeCheck_of_within hlo hhi hle] at hspec
    exact ⟨m', h, hspec⟩
  · exact delete_denote hm hc kernelMap persistent hgo

section Examples

theorem gapMap_wellFormed : WellFormed gapMap :=
  enter_wellFormed (create_wellFormed (by decide)) (by decide) (by decide) enter_gapMap

theorem gapMap_cachesLinked : CachesLinked gapMap := ⟨⟨_, List.mem_singleton_self _, rfl⟩, trivial⟩

/-- The second of four pages is deleted, the first one stays. -/
theorem pointwise_semantics_gapMap : ∃ m',
    vmMapDelete gapMap 20480 24576 (VmMapEntry.stays false fun _ => false) = some (false, m') ∧
      m'.denote 20480 = none ∧ m'.denote 16384 = gapMap.denote 16384 ∧
      gapMap.denote 16384 ≠ none := by
  have hgo : ∀ e ∈ gapMap.entries, e.vmeStart < 24576 → 20480 < e.vmeEnd →
      e.inTransition = false ∧ e.stays false (fun _ => false) = false := by
    intro e he _ _
    rw [List.mem_singleton.1 he]
    exact ⟨rfl, rfl⟩
  obtain ⟨-, -, -, -, hdelete⟩ := pointwise_semantics gapMap_wellFormed gapMap_cachesLinked
    (show gapMap.minOffset ≤ 20480 by decide) (show 20480 ≤ 24576 by decide) (by decide)
  obtain ⟨m', h, hden⟩ := hdelete false (fun _ => false) hgo
  exact ⟨m', h, by rw [hden]; rfl, by rw [hden]; rfl, by decide⟩

/-- A task's map with a page of a projected buffer, whose entry in the kernel map is the one at
7. -/
def projectedMap : VmMap :=
  { vmMapCreate 0 65536 with
    entries := [{ wiredEntry 0 16384 20480 with
      object := .vmObject 0
      projectedOn := .kernelEntry 7 }]
    hdr := ⟨1, 1⟩
    size := 4096 }

/-- The kernel's entry is not persistent. Nothing in the range is in transition, and what
`vm_map_delete` leaves still maps the page. -/
theorem delete_keeps_projected : ∃ m', WellFormed projectedMap ∧ CachesLinked projectedMap ∧
    (∀ e ∈ projectedMap.entries, e.inTransition = false) ∧
    vmMapDelete projectedMap 16384 20480
      (VmMapEntry.stays false fun p => decide (p ≠ .kernelEntry 7)) = some (false, m') ∧
    m'.denote 16384 ≠ none := by
  have hwf : WellFormed projectedMap := by
    refine ⟨⟨?_, ?_⟩, ?_, rfl, rfl, by decide⟩
    · exact List.pairwise_singleton _ _
    · intro e he
      rw [List.mem_singleton.1 he]
      decide
    · intro e he
      rw [List.mem_singleton.1 he]
      decide
  have hnone : ∀ e ∈ projectedMap.entries, e.inTransition = false := by
    intro e he
    rw [List.mem_singleton.1 he]
    rfl
  have h : ((vmMapDelete projectedMap 16384
    20480 (VmMapEntry.stays false fun p => decide (p ≠ .kernelEntry 7))).map fun r =>
      (r.1, (r.2.denote 16384).isSome)) = some (false, true) := by decide
  obtain ⟨⟨waits, m'⟩, hm, heq⟩ := Option.map_eq_some_iff.1 h
  obtain ⟨rfl, hsome⟩ := Prod.mk.inj heq
  exact ⟨m', hwf, ⟨trivial, trivial⟩, hnone, hm, Option.isSome_iff_ne_none.1 hsome⟩

end Examples

end XMach.Vm
