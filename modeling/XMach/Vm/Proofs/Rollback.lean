import XMach.Vm.Proofs.Wire

/-!
# Wiring is all or nothing

`vm_map_pageable_common` either leaves the counts of every page as they were or takes those of each
page of its range, all of which is mapped then, one step further. A step up is one as long as the
counts do not wrap.
-/

namespace XMach.Vm

open Region

variable {m m' : VmMap} {l : List VmMapEntry} {e : VmMapEntry} {a start end_ n : ℕ} {user : Bool}
  {access : VmProt} {kr : KernReturn} {c c' : BitVec 16 × BitVec 16}

section Mapped

/-- Up to the end of the range each entry goes on where the one before it ended. -/
def Unbroken (end_ : ℕ) : List VmMapEntry → Prop
  | [] => True
  | e :: l => e.vmeStart < end_ → holeBehind e.vmeEnd end_ l = false ∧
      (e.vmeEnd < end_ → Unbroken end_ l)

theorem Unbroken.covers (h : Unbroken end_ (e :: l)) (hs : e.vmeStart ≤ a) (ha : a < end_) :
    ∃ x ∈ e :: l, Covers x a := by
  induction l generalizing e with
  | nil =>
    obtain ⟨hhole, -⟩ := h (by omega)
    refine ⟨e, List.mem_cons_self, hs, ?_⟩
    simp only [holeBehind, Bool.and_true, decide_eq_false_iff_not] at hhole
    simp only [stop_entry]
    omega
  | cons next rest ih =>
    obtain ⟨hhole, hrest⟩ := h (by omega)
    by_cases hlt : a < e.vmeEnd
    · exact ⟨e, List.mem_cons_self, hs, hlt⟩
    · -- the address is behind the entry, and the next one starts where it ends
      have hend : e.vmeEnd < end_ := by omega
      simp only [holeBehind, decide_eq_true hend, Bool.true_and, decide_eq_false_iff_not] at hhole
      obtain ⟨x, hx, hcov⟩ := ih (hrest hend) (by omega)
      exact ⟨x, List.mem_cons_of_mem _ hx, hcov⟩

theorem unwireCheck_unbroken (h : unwireCheck user end_ l = true) : Unbroken end_ l := by
  induction l with
  | nil => trivial
  | cons e l ih =>
    intro hlt
    rw [unwireCheck, if_pos hlt] at h
    split_ifs at h with hbad
    rw [not_or, not_or, Bool.not_eq_true] at hbad
    exact ⟨hbad.2.1, fun _ => ih h⟩

theorem wireLoop_unbroken {passed : List VmMapEntry} {h : Hdr}
    (hw : (wireLoop user access start end_ passed l h n).1 = true) : Unbroken end_ l := by
  induction l generalizing passed h n with
  | nil => trivial
  | cons e l ih =>
    intro hlt
    rw [wireLoop, if_pos hlt] at hw
    by_cases hclip : end_ < e.vmeEnd
    · exact ⟨by simp [holeBehind, hclip.le], fun hend => by omega⟩
    · rw [if_neg hclip] at hw
      simp only at hw
      split_ifs at hw with hbad
      rw [not_or, Bool.not_eq_true] at hbad
      exact ⟨hbad.1, fun _ => ih hw⟩

theorem countsAt_isSome (he : e ∈ l) (hc : Covers e a) : ∃ c, countsAt l a = some c := by
  unfold countsAt
  cases h : regionAt l a with
  | none => exact absurd hc (regionAt_eq_none.1 h e he)
  | some x => exact ⟨_, rfl⟩

theorem pageable_mapped (hm : WellFormed m)
    (h : vmMapPageable m start end_ access user n = some (.success, m'))
    (hlo : (m.rangeCheck start end_).1 ≤ a) (hhi : a < (m.rangeCheck start end_).2) :
    ∃ c, countsAt m.entries a = some c := by
  unfold vmMapPageable at h
  generalize m.rangeCheck start end_ = range at h hlo hhi
  simp only at h
  by_cases haccess : access = vmProtNone
  · rw [if_pos haccess] at h
    obtain ⟨⟨r, m₁⟩, hseek, h⟩ := Option.bind_eq_some_iff.1 h
    have hs := seek_spec hm hseek
    simp only at h
    split_ifs at h with hfound hcheck
    · cases h
    · cases h
    · obtain ⟨e, rest, hafter, hstart⟩ := hs.found (by simpa using hfound)
      have hun := unwireCheck_unbroken (by simpa using hcheck)
      rw [hafter] at hun
      obtain ⟨x, hx, hcov⟩ := hun.covers (hstart.trans_le hlo) hhi
      have hmem : x ∈ m₁.entries := by
        rw [← hs.split, hafter]
        exact List.mem_append_right _ hx
      obtain ⟨c, hc⟩ := countsAt_isSome hmem hcov
      rw [countsAt_eq_denote, hs.recut.denote, ← countsAt_eq_denote] at hc
      exact ⟨c, hc⟩
  · rw [if_neg haccess] at h
    obtain ⟨⟨r, m₁⟩, hlook, h⟩ := Option.bind_eq_some_iff.1 h
    obtain ⟨hloc, -⟩ := lookup_spec hm.ordered.loose hlook
    simp only at h
    by_cases hfound : r.found = false
    · rw [if_pos hfound] at h
      cases h
    · rw [if_neg hfound] at h
      obtain ⟨hkr, -⟩ := Prod.mk.inj (Option.some.inj h)
      split_ifs at hkr with hw
      obtain ⟨e, rest, hafter, hstart, -⟩ := hloc.found (by simpa using hfound)
      have hun := wireLoop_unbroken hw
      rw [hafter] at hun
      obtain ⟨x, hx, hcov⟩ := hun.covers (hstart.trans hlo) hhi
      refine countsAt_isSome (e := x) ?_ hcov
      rw [← hloc.split, hafter]
      exact List.mem_append_right _ hx

end Mapped

section Counts

theorem Torn.countsAt_eq {at_ : ℕ} {before rest : List VmMapEntry} {x front empty back : VmMapEntry}
    (h : Torn m m' at_ before x front empty back rest) (a : ℕ) :
    countsAt m'.entries a = countsAt m.entries a := by
  obtain ⟨hs, hlt⟩ := h.inside
  have hfront : Covers front a ↔ x.vmeStart ≤ a ∧ a < at_ := by
    simp only [Covers, start_entry, stop_entry, h.front.1, h.front.2.1]
  have hempty : ¬ Covers empty a := by
    simp only [Covers, start_entry, stop_entry, h.empty.1, h.empty.2]
    omega
  have hback : Covers back a ↔ at_ ≤ a ∧ a < x.vmeEnd := by
    simp only [Covers, start_entry, stop_entry, h.back.1, h.back.2.1]
  have hx : Covers x a ↔ Covers front a ∨ Covers back a := by
    rw [hfront, hback]
    simp only [Covers, start_entry, stop_entry]
    omega
  unfold countsAt
  rw [h.new, h.old, regionAt_append, regionAt_append]
  cases regionAt before a with
  | some y => rfl
  | none =>
    rw [Option.none_or, Option.none_or, regionAt_cons, regionAt_cons, regionAt_cons, regionAt_cons,
      if_neg hempty]
    by_cases h₁ : Covers front a
    · rw [if_pos h₁, if_pos (hx.2 (.inl h₁)), Option.map_some, Option.map_some, h.front.2.2]
    · rw [if_neg h₁]
      by_cases h₂ : Covers back a
      · rw [if_pos h₂, if_pos (hx.2 (.inr h₂)), Option.map_some, Option.map_some, h.back.2.2]
      · rw [if_neg h₂, if_neg (mt hx.1 (not_or.2 ⟨h₁, h₂⟩))]

theorem pageable_counts (hm : WellFormed m)
    (h : vmMapPageable m start end_ access user n = some (kr, m')) (a : ℕ) : countsAt m'.entries a =
      if kr = .success ∧ (m.rangeCheck start end_).1 ≤ a ∧ a < (m.rangeCheck start end_).2 then
        (countsAt m.entries a).map (if access = vmProtNone then unwireCounts user
      else wireCounts user) else countsAt m.entries a := by
  by_cases hnot : access ≠ vmProtNone → NotInside m (m.rangeCheck start end_)
  · exact (pageable_spec hm hnot h).2.1 a
  · rw [Classical.not_imp] at hnot
    obtain ⟨heq, before, x, front, empty, back, rest, ht⟩ := pageable_torn hm hnot.1 hnot.2 h
    rw [ht.countsAt_eq, if_neg (by omega)]

/-- The second pair of counts is one wiring above the first. -/
def OneMore (user : Bool) (c c' : BitVec 16 × BitVec 16) : Prop :=
  if user then c'.2.toNat = c.2.toNat + 1 ∧ c'.1.toNat = c.1.toNat + if c.2 = 0 then 1 else 0
  else c'.1.toNat = c.1.toNat + 1 ∧ c'.2 = c.2

theorem oneMore_wireCounts_iff : OneMore user c (wireCounts user c) ↔ CountsFit user c := by
  obtain ⟨wired, byUser⟩ := c
  have hw := wired.isLt
  have hu := byUser.isLt
  unfold OneMore wireCounts CountsFit
  cases user with
  | false =>
    simp only [Bool.false_eq_true, if_false, toNat_add_one, and_true]
    omega
  | true =>
    simp only [if_true, eq_zero_iff_toNat, toNat_add_one]
    by_cases hzero : byUser.toNat = 0
    · simp only [if_pos hzero, toNat_add_one]
      omega
    · simp only [if_neg hzero]
      omega

theorem oneMore_unwireCounts (hwired : c.1 ≠ 0) (huser : user = true → c.2 ≠ 0) :
    OneMore user (unwireCounts user c) c := by
  obtain ⟨wired, byUser⟩ := c
  have hw := wired.isLt
  have hu := byUser.isLt
  rw [Ne, eq_zero_iff_toNat] at hwired
  unfold OneMore unwireCounts
  cases user with
  | false =>
    simp only [Bool.false_eq_true, if_false, toNat_sub_one, and_true] at hwired ⊢
    omega
  | true =>
    have huser := huser rfl
    rw [Ne, eq_zero_iff_toNat] at huser
    simp only [if_true, eq_zero_iff_toNat, toNat_sub_one] at hwired huser ⊢
    by_cases hzero : (65535 + byUser.toNat) % 65536 = 0
    · simp only [if_pos hzero, toNat_sub_one]
      omega
    · simp only [if_neg hzero]
      omega

/-- Down one step for unwiring, up one for wiring. -/
def Stepped (access : VmProt) (user : Bool) (c c' : BitVec 16 × BitVec 16) : Prop :=
  if access = vmProtNone then OneMore user c' c else OneMore user c c'

theorem pageable_total (hh : Linked m.entries m.hint) (start end_ : ℕ) (access : VmProt)
    (user : Bool) (n : ℕ) : ∃ kr m', vmMapPageable m start end_ access user n = some (kr, m') := by
  unfold vmMapPageable
  simp only
  split_ifs
  · obtain ⟨r, m₁, hseek⟩ := seek_total hh (m.rangeCheck start end_).1
    rw [hseek, Option.bind_eq_bind, Option.bind_some]
    simp only
    split_ifs <;> exact ⟨_, _, rfl⟩
  · obtain ⟨r, m₁, hlook⟩ := lookup_total hh (m.rangeCheck start end_).1
    rw [hlook, Option.bind_eq_bind, Option.bind_some]
    simp only
    split_ifs <;> exact ⟨_, _, rfl⟩

/-- A call that fails leaves the counts of every page, and one that succeeds leaves those outside
its range and takes those of each page of the range one step on, if and only if none of them is at
its bound. -/
theorem wiring_rolls_back (hm : WellFormed m) (hh : Linked m.entries m.hint) (start end_ : ℕ)
    (access : VmProt) (user : Bool) (n : ℕ) :
    ∃ kr m', vmMapPageable m start end_ access user n = some (kr, m') ∧
      (∀ a, kr ≠ .success ∨ ¬ ((m.rangeCheck start end_).1 ≤ a ∧ a < (m.rangeCheck start end_).2) →
        countsAt m'.entries a = countsAt m.entries a) ∧
      (kr = .success → ∀ a, (m.rangeCheck start end_).1 ≤ a → a < (m.rangeCheck start end_).2 →
        ∃ c c', countsAt m.entries a = some c ∧ countsAt m'.entries a = some c' ∧
          (Stepped access user c c' ↔ (access ≠ vmProtNone → CountsFit user c))) := by
  obtain ⟨kr, m', h⟩ := pageable_total hh start end_ access user n
  refine ⟨kr, m', h, fun a hout => ?_, ?_⟩
  · rw [pageable_counts hm h a, if_neg]
    rintro ⟨hkr, hin⟩
    rcases hout with hout | hout
    · exact hout hkr
    · exact hout hin
  · rintro rfl a hlo hhi
    obtain ⟨c, hc⟩ := pageable_mapped hm h hlo hhi
    have hcounts := pageable_counts hm h a
    rw [if_pos ⟨rfl, hlo, hhi⟩, hc, Option.map_some] at hcounts
    refine ⟨c, _, hc, hcounts, ?_⟩
    unfold Stepped
    by_cases haccess : access = vmProtNone
    · rw [if_pos haccess, if_pos haccess]
      obtain ⟨hwired, huser⟩ :=
        (pageable_spec hm (fun hne => absurd haccess hne) h).2.2 rfl haccess a c hlo hhi hc
      exact ⟨fun _ hne => absurd haccess hne, fun _ => oneMore_unwireCounts hwired huser⟩
    · rw [if_neg haccess, if_neg haccess, oneMore_wireCounts_iff]
      exact ⟨fun hfit _ => hfit, fun hfit => hfit haccess⟩

/-- The first wiring of four pages by a user. -/
theorem wiring_rolls_back_once : ∃ m', vmMapPageable (wiredMap 0 0) 16384 32768 vmProtRead true 0 =
    some (.success, m') ∧ ∃ c', countsAt m'.entries 16384 = some c' ∧ OneMore true (0, 0) c' := by
  obtain ⟨kr, m', h, -, hstep⟩ := wiring_rolls_back (wiredMap_wellFormed 0 0)
    ⟨_, List.mem_singleton_self _, rfl⟩ 16384 32768 vmProtRead true 0
  obtain ⟨rfl, -⟩ := Prod.mk.inj (Option.some.inj (h.symm.trans (wire_wiredMap 0 0)))
  obtain ⟨c, c', hc, hc', hiff⟩ := hstep rfl 16384 (by decide) (by decide)
  have hzero : countsAt (wiredMap 0 0).entries 16384 = some (0, 0) := by decide
  obtain rfl := Option.some.inj (hc.symm.trans hzero)
  refine ⟨m', h, c', hc', ?_⟩
  have hs := hiff.2 fun _ => ⟨by decide, fun _ => by decide⟩
  rwa [Stepped, if_neg (by decide)] at hs

/-- A page that users have wired 65535 times is wired once more, and its `user_wired_count` is
zero. -/
theorem wiring_wraps_count : WellFormed (wiredMap 1 65535) ∧
    Linked (wiredMap 1 65535).entries (wiredMap 1 65535).hint ∧
    ∃ m', vmMapPageable (wiredMap 1 65535) 16384 32768 vmProtRead true 0 = some (.success, m') ∧
      countsAt (wiredMap 1 65535).entries 16384 = some (1, 65535) ∧
      countsAt m'.entries 16384 = some (1, 0) :=
  ⟨wiredMap_wellFormed 1 65535, ⟨_, List.mem_singleton_self _, rfl⟩, _,
    wire_wiredMap 1 65535, by decide, by decide⟩

end Counts

end XMach.Vm
