import Mathlib.Logic.Relation
import XMach.Vm.Wire
import XMach.Vm.Proofs.Denote

/-!
# The wire counts

A successful call of `vm_map_pageable_common` changes both counts of exactly the pages of its range,
and a call that fails changes none. The counts are 16 bits wide and no call looks whether they still
fit: they are the outstanding wirings as long as no wiring meets a count of 65535, and from then on
they are not.
-/

namespace XMach.Vm

open Region

variable {m m' : VmMap} {l l' passed : List VmMapEntry} {e e' : VmMapEntry} {a start end_ : ℕ}

section Counts

/-- `wired_count` and `user_wired_count`. -/
def VmMapEntry.counts (e : VmMapEntry) : BitVec 16 × BitVec 16 := (e.wiredCount, e.userWiredCount)

def wireCounts (user : Bool) (c : BitVec 16 × BitVec 16) : BitVec 16 × BitVec 16 :=
  if user then (if c.2 = 0 then c.1 + 1 else c.1, c.2 + 1) else (c.1 + 1, c.2)

def unwireCounts (user : Bool) (c : BitVec 16 × BitVec 16) : BitVec 16 × BitVec 16 :=
  if user then (if c.2 - 1 = 0 then c.1 - 1 else c.1, c.2 - 1) else (c.1 - 1, c.2)

@[simp] theorem counts_wire (user : Bool) : (e.wire user).counts = wireCounts user e.counts := by
  cases user <;> rfl

@[simp] theorem counts_unwire (user : Bool) :
    (e.unwire user).counts = unwireCounts user e.counts := by
  cases user <;> rfl

theorem unwireCounts_wireCounts (user : Bool) (c : BitVec 16 × BitVec 16) :
    unwireCounts user (wireCounts user c) = c := by
  obtain ⟨wired, byUser⟩ := c
  unfold unwireCounts wireCounts
  cases user with
  | false => simp only [Bool.false_eq_true, if_false, BitVec.add_sub_cancel]
  | true =>
    by_cases h : byUser = 0
    · simp only [if_true, h, BitVec.add_sub_cancel]
    · simp only [if_true, if_neg h, BitVec.add_sub_cancel]

theorem keepsBounds_wire (user : Bool) : KeepsBounds (VmMapEntry.wire user) := by
  intro e
  unfold VmMapEntry.wire
  split_ifs <;> exact ⟨rfl, rfl⟩

theorem keepsBounds_unwire (user : Bool) : KeepsBounds (VmMapEntry.unwire user) := by
  intro e
  unfold VmMapEntry.unwire
  split_ifs <;> exact ⟨rfl, rfl⟩

/-- Making an object for an entry changes neither its place nor its counts. -/
theorem withObject_spec (e : VmMapEntry) (n : ℕ) : (e.withObject n).vmeStart = e.vmeStart ∧
    (e.withObject n).vmeEnd = e.vmeEnd ∧ (e.withObject n).counts = e.counts := by
  unfold VmMapEntry.withObject
  split_ifs <;> exact ⟨rfl, rfl, rfl⟩

/-- The counts of the entry at an address. -/
def countsAt (l : List VmMapEntry) (a : ℕ) : Option (BitVec 16 × BitVec 16) :=
  (regionAt l a).map VmMapEntry.counts

/-- The entry was cut from another one, and its counts were changed by `f` if it lies in the
range. -/
def Rewired (start end_ : ℕ) (f : BitVec 16 × BitVec 16 → BitVec 16 × BitVec 16)
    (e e' : VmMapEntry) : Prop :=
  (start ≤ e'.vmeStart ∧ e'.vmeEnd ≤ end_ ∧ e'.counts = f e.counts) ∨
    ((e'.vmeEnd ≤ start ∨ end_ ≤ e'.vmeStart) ∧ e'.counts = e.counts)

theorem countsAt_retile {f : BitVec 16 × BitVec 16 → BitVec 16 × BitVec 16}
    (h : Retile (Rewired start end_ f) l l') (a : ℕ) :
    countsAt l' a = if start ≤ a ∧ a < end_ then (countsAt l a).map f else countsAt l a := by
  unfold countsAt
  have hrel := h.regionAt a
  generalize regionAt l a = x at hrel ⊢
  generalize regionAt l' a = y at hrel ⊢
  cases hrel with
  | none => simp
  | @some e e' hr =>
    obtain ⟨hchange, hs, he⟩ := hr
    simp only [start_entry, stop_entry] at hs he
    rcases hchange with ⟨h₁, h₂, hc⟩ | ⟨hout, hc⟩
    · rw [if_pos ⟨by omega, by omega⟩, Option.map_some, Option.map_some, Option.map_some, hc]
    · rw [if_neg (by omega), Option.map_some, Option.map_some, hc]

theorem countsAt_same (h : Retile (fun x y => y.counts = x.counts) l l') (a : ℕ) :
    countsAt l' a = countsAt l a := by
  unfold countsAt
  have hrel := h.regionAt a
  generalize regionAt l a = x at hrel ⊢
  generalize regionAt l' a = y at hrel ⊢
  cases hrel with
  | none => rfl
  | some hr => rw [Option.map_some, Option.map_some, hr.1]

theorem countsAt_eq_denote (m : VmMap) (a : ℕ) :
    countsAt m.entries a = (m.denote a).map fun p => (p.wiredCount, p.userWiredCount) := by
  unfold countsAt VmMap.denote pageAt
  cases regionAt m.entries a <;> rfl

end Counts

section Walk

variable {user : Bool} {access : VmProt}

theorem undoWire_of_le (h : ∀ x ∈ l, x.vmeEnd ≤ start) : undoWire user start l = l := by
  cases l with
  | nil => rfl
  | cons e l =>
    have := h e List.mem_cons_self
    rw [undoWire, if_neg (by omega)]

@[simp] theorem undoWire_length (user : Bool) (start : ℕ) :
    ∀ l : List VmMapEntry, (undoWire user start l).length = l.length
  | [] => rfl
  | e :: l => by
    rw [undoWire]
    split_ifs
    · rw [List.length_cons, List.length_cons, undoWire_length]
    · rfl

/-- The pieces of an entry that is wired from `start` on. -/
theorem wireEntry_spec (user : Bool) (n : ℕ) (h : Hdr) (hne : e.vmeStart < e.vmeEnd)
    (hstart : start < e.vmeEnd) (hend : e.vmeEnd ≤ end_) :
    Tiles (wireEntry user start n e h).1.reverse e.vmeStart e.vmeEnd ∧
      (∀ y ∈ (wireEntry user start n e h).1.reverse, Rewired start end_ (wireCounts user) e y) ∧
      (wireEntry user start n e h).2.nentries - (wireEntry user start n e h).1.length =
      h.nentries - 1 := by
  obtain ⟨hs, he, hc⟩ := withObject_spec e n
  unfold wireEntry
  simp only
  split_ifs with hlt
  · set c := (e.withObject n).clipStart start h.zone with hcdef
    have hb := keepsBounds_wire user c.2
    have hcounts : c.1.counts = e.counts := hc
    have hwired : (c.2.wire user).counts = wireCounts user e.counts := by
      rw [counts_wire]
      exact congrArg _ hc
    have hs₂ : (c.2.wire user).vmeStart = start := hb.1
    have he₂ : (c.2.wire user).vmeEnd = e.vmeEnd := hb.2.trans he
    refine ⟨⟨hs, hlt, hs₂, ?_, he₂⟩, ?_, ?_⟩
    · simp only [start_entry, stop_entry]
      omega
    · simp only [List.reverse_cons, List.reverse_nil, List.nil_append, List.singleton_append,
        List.forall_mem_cons]
      exact ⟨.inr ⟨.inl le_rfl, hcounts⟩, .inl ⟨by omega, by omega, hwired⟩, by simp⟩
    · simp only [Hdr.link_nentries, List.length_cons, List.length_nil]
      push_cast
      omega
  · have hb := keepsBounds_wire user (e.withObject n)
    have hwired : ((e.withObject n).wire user).counts =
      wireCounts user e.counts := by rw [counts_wire, hc]
    have hs₂ : ((e.withObject n).wire user).vmeStart = e.vmeStart := hb.1.trans hs
    have he₂ : ((e.withObject n).wire user).vmeEnd = e.vmeEnd := hb.2.trans he
    refine ⟨⟨hs₂, ?_, he₂⟩, ?_, ?_⟩
    · simp only [start_entry, stop_entry]
      omega
    · simp only [List.reverse_singleton, List.mem_singleton, forall_eq]
      exact .inl ⟨by omega, by omega, hwired⟩
    · simp

/-- Undoing the wiring of an entry gives pieces with the counts that it had. -/
theorem undoWire_wireEntry (user : Bool) (n : ℕ) (h : Hdr) (hne : e.vmeStart < e.vmeEnd)
    (hstart : start < e.vmeEnd) (hpassed : e.vmeStart < start → ∀ x ∈ passed, x.vmeEnd ≤ start) :
    ∃ b, undoWire user start ((wireEntry user start n e h).1 ++ passed) =
    b.reverse ++ undoWire user start passed ∧
      Tiles b e.vmeStart e.vmeEnd ∧ ∀ y ∈ b, y.counts = e.counts := by
  obtain ⟨hs, he, hc⟩ := withObject_spec e n
  unfold wireEntry
  simp only
  split_ifs with hlt
  · set c := (e.withObject n).clipStart start h.zone with hcdef
    have hb := keepsBounds_wire user c.2
    have hb' := keepsBounds_unwire user (c.2.wire user)
    have hcounts : ((c.2.wire user).unwire user).counts = e.counts := by
      rw [counts_unwire, counts_wire, unwireCounts_wireCounts]
      exact hc
    have hend : c.2.vmeEnd = e.vmeEnd := he
    have hfront : c.1.vmeEnd = start := rfl
    refine ⟨[c.1, (c.2.wire user).unwire user], ?_, ?_, ?_⟩
    · rw [List.cons_append, List.cons_append, undoWire, if_pos (by omega), undoWire,
        if_neg (by omega), undoWire_of_le (hpassed (by omega))]
      rfl
    · simp only [Tiles, start_entry, stop_entry, hb'.1, hb'.2, hb.1, hb.2]
      exact ⟨hs, by rw [hfront]; exact hlt, rfl, by rw [hend]; exact hstart, hend⟩
    · simp only [List.forall_mem_cons]
      exact ⟨hc, hcounts, by simp⟩
  · have hb := keepsBounds_wire user (e.withObject n)
    have hb' := keepsBounds_unwire user ((e.withObject n).wire user)
    refine ⟨[((e.withObject n).wire user).unwire user], ?_, ?_, ?_⟩
    · rw [List.cons_append, undoWire, if_pos (by omega)]
      rfl
    · simp only [Tiles, start_entry, stop_entry, hb'.1, hb'.2, hb.1, hb.2]
      omega
    · simp only [List.mem_singleton, forall_eq]
      rw [counts_unwire, counts_wire, unwireCounts_wireCounts, hc]

theorem wireLoop_counted (user : Bool) (access : VmProt) (start end_ : ℕ)
    (passed l : List VmMapEntry)
    (h : Hdr) (n : ℕ) : (wireLoop user access start end_ passed l h n).2.2.nentries -
      (wireLoop user access start end_ passed l h n).2.1.length =
      h.nentries - (passed.length + l.length) := by
  have hentry : ∀ (e : VmMapEntry) (h : Hdr) (n : ℕ), (wireEntry user start n e h).2.nentries -
      (wireEntry user start n e h).1.length = h.nentries - 1 := by
    intro e h n
    unfold wireEntry
    simp only
    split_ifs
    · simp only [Hdr.link_nentries, List.length_cons, List.length_nil]
      push_cast
      omega
    · simp
  induction l generalizing passed h n with
  | nil => simp [wireLoop]
  | cons e l ih =>
    unfold wireLoop
    by_cases h₁ : e.vmeStart < end_
    · rw [if_pos h₁]
      by_cases h₂ : end_ < e.vmeEnd
      · rw [if_pos h₂]
        have := hentry (e.clipEnd end_ h.zone).1 h.link n
        rw [Hdr.link_nentries] at this
        simp only
        split_ifs <;>
          simp only [List.length_append, List.length_reverse, undoWire_length, List.length_cons] <;>
          push_cast <;> omega
      · rw [if_neg h₂]
        have := hentry e h n
        simp only
        split_ifs
        · simp only [List.length_append, List.length_reverse, undoWire_length, List.length_cons]
          push_cast
          omega
        · rw [ih]
          simp only [List.length_append, List.length_cons]
          push_cast
          omega
    · rw [if_neg h₁]
      simp

theorem wireLoop_success {h h' : Hdr} {n : ℕ} {out : List VmMapEntry} (ho : Ordered l)
    (hstart : ∀ e ∈ l, start < e.vmeEnd) (hnot : ∀ e ∈ l, e.vmeStart < start → start < end_)
    (hw : wireLoop user access start end_ passed l h n = (true, out, h')) :
    ∃ l', out = passed.reverse ++ l' ∧ Retile (Rewired start end_ (wireCounts user)) l l' := by
  have hbehind : ∀ l : List VmMapEntry, Ordered l → (∀ x ∈ l, end_ ≤ x.vmeStart) →
      Retile (Rewired start end_ (wireCounts user)) l l := fun l ho hl =>
    .refl ho fun x hx => .inr ⟨.inr (hl x hx), rfl⟩
  induction l generalizing passed h n with
  | nil =>
    obtain rfl : passed.reverse = out := by simpa [wireLoop] using (congrArg (·.2.1) hw)
    exact ⟨[], by simp, .nil⟩
  | cons e l ih =>
    obtain ⟨hne, hl, ho'⟩ := ordered_cons.1 ho
    simp only [start_entry, stop_entry] at hne hl
    obtain ⟨hs, hstart'⟩ := List.forall_mem_cons.1 hstart
    obtain ⟨hnot₁, hnot'⟩ := List.forall_mem_cons.1 hnot
    unfold wireLoop at hw
    by_cases h₁ : e.vmeStart < end_
    · rw [if_pos h₁] at hw
      by_cases h₂ : end_ < e.vmeEnd
      · rw [if_pos h₂] at hw
        simp only at hw
        split_ifs at hw with hprot
        · cases (Prod.mk.inj hw).1
        · -- the walk ends with what is cut off
          obtain rfl := (Prod.mk.inj (Prod.mk.inj hw).2).1
          have hlt : start < end_ := by
            by_contra hge
            exact hge (hnot₁ (by omega))
          obtain ⟨ht, hR, -⟩ :=
            wireEntry_spec (e := (e.clipEnd end_ h.zone).1) user n h.link h₁ hlt le_rfl
          refine ⟨((wireEntry user start n (e.clipEnd end_ h.zone).1 h.link).1.reverse ++
            [(e.clipEnd end_ h.zone).2]) ++ l, by simp, .cons ?_ ?_ (hbehind l ho' fun x hx => ?_)⟩
          · exact ht.append ⟨rfl, h₂, rfl⟩
          · rw [List.forall_mem_append]
            refine ⟨fun y hy => hR y hy, ?_⟩
            simp only [List.mem_singleton, forall_eq]
            exact .inr ⟨.inr le_rfl, rfl⟩
          · have := hl x hx
            omega
      · rw [if_neg h₂] at hw
        simp only at hw
        split_ifs at hw with hprot
        · cases (Prod.mk.inj hw).1
        · obtain ⟨l', rfl, hr⟩ := ih ho' hstart' hnot' hw
          obtain ⟨ht, hR, -⟩ := wireEntry_spec user n h hne hs (not_lt.1 h₂)
          exact ⟨(wireEntry user start n e h).1.reverse ++ l', by simp, .cons ht hR hr⟩
    · rw [if_neg h₁] at hw
      obtain rfl := (Prod.mk.inj (Prod.mk.inj hw).2).1
      refine ⟨e :: l, rfl, hbehind _ ho (List.forall_mem_cons.2 ⟨not_lt.1 h₁, fun x hx => ?_⟩)⟩
      have := hl x hx
      omega

/-- A walk that does not get to the end has restored the counts. `orig` are the entries that it
passed, as they were. -/
theorem wireLoop_failure {h h' : Hdr} {n : ℕ} {orig out : List VmMapEntry} (ho : Ordered l)
    (hstart : ∀ e ∈ l, start < e.vmeEnd) (hnot : ∀ e ∈ l, e.vmeStart < start → start < end_)
    (hpassed : ∀ e ∈ l, e.vmeStart < start → ∀ x ∈ passed, x.vmeEnd ≤ start)
    (horig : Retile (fun x y => y.counts = x.counts) orig (undoWire user start passed).reverse)
    (hw : wireLoop user access start end_ passed l h n = (false, out, h')) :
    Retile (fun x y => y.counts = x.counts) (orig ++ l) out := by
  have hrefl : ∀ l : List VmMapEntry, Ordered l → Retile (fun x y => y.counts = x.counts) l l :=
    fun l ho => .refl ho fun _ _ => rfl
  induction l generalizing passed h n orig with
  | nil => cases (Prod.mk.inj hw).1
  | cons e l ih =>
    obtain ⟨hne, hl, ho'⟩ := ordered_cons.1 ho
    simp only [start_entry, stop_entry] at hne hl
    obtain ⟨hs, hstart'⟩ := List.forall_mem_cons.1 hstart
    obtain ⟨hnot₁, hnot'⟩ := List.forall_mem_cons.1 hnot
    have hpassed₁ := hpassed e List.mem_cons_self
    unfold wireLoop at hw
    by_cases h₁ : e.vmeStart < end_
    · rw [if_pos h₁] at hw
      by_cases h₂ : end_ < e.vmeEnd
      · rw [if_pos h₂] at hw
        simp only at hw
        split_ifs at hw with hprot
        · obtain rfl := (Prod.mk.inj (Prod.mk.inj hw).2).1
          have hlt : start < end_ := by
            by_contra hge
            exact hge (hnot₁ (by omega))
          obtain ⟨b, hb, ht, hR⟩ := undoWire_wireEntry (e :=
            (e.clipEnd end_ h.zone).1) user n h.link h₁ hlt
            hpassed₁
          rw [hb, List.reverse_append, List.reverse_reverse, List.append_assoc]
          have hblock : Retile (fun x y : VmMapEntry => y.counts = x.counts) (e :: l)
              ((b ++ [(e.clipEnd end_ h.zone).2]) ++ l) := by
            refine .cons (ht.append ⟨rfl, h₂, rfl⟩) ?_ (hrefl l ho')
            rw [List.forall_mem_append]
            exact ⟨hR, by simp only [List.mem_singleton, forall_eq]; rfl⟩
          have := horig.append hblock
          simpa using this
        · cases (Prod.mk.inj hw).1
      · rw [if_neg h₂] at hw
        obtain ⟨b, hb, ht, hR⟩ := undoWire_wireEntry user n h hne hs hpassed₁
        have hblock : Retile (fun x y : VmMapEntry => y.counts = x.counts) (orig ++ [e])
            (undoWire user start ((wireEntry user start n e h).1 ++ passed)).reverse := by
          rw [hb, List.reverse_append, List.reverse_reverse]
          refine horig.append ?_
          have : Retile (fun x y : VmMapEntry => y.counts = x.counts) [e] (b ++ []) :=
            .cons ht hR .nil
          simpa using this
        simp only at hw
        split_ifs at hw with hprot
        · obtain rfl := (Prod.mk.inj (Prod.mk.inj hw).2).1
          have := hblock.append (hrefl l ho')
          simpa using this
        · -- the entries behind this one start behind the start of the range
          have hafter : ∀ x ∈ l, ¬ x.vmeStart < start := by
            intro x hx
            have := hl x hx
            omega
          have := ih ho' hstart' hnot' (fun x hx hlt => absurd hlt (hafter x hx)) hblock hw
          simpa using this
    · rw [if_neg h₁] at hw
      cases (Prod.mk.inj hw).1

end Walk

section Pageable

variable {user : Bool} {access : VmProt} {n : ℕ} {kr : KernReturn}

theorem WellFormed.retile {R : VmMapEntry → VmMapEntry → Prop} (hm : WellFormed m)
    (hr : Retile R m.entries m'.entries) (hn : Counted m.hdr m.entries m'.hdr m'.entries)
    (hmin : m'.minOffset = m.minOffset) (hmax : m'.maxOffset = m.maxOffset)
    (hsize : m'.size = m.size) : WellFormed m' := by
  refine ⟨hr.ordered hm.ordered, fun e he => ?_, ?_, ?_, hmax ▸ hm.max_lt⟩
  · rw [hmin, hmax]
    exact ⟨hr.start_ge (fun x hx => (hm.bounds x hx).1) e he,
      hr.stop_le (fun x hx => (hm.bounds x hx).2) e he⟩
  · have := hm.nentries
    unfold Counted at hn
    omega
  · rw [hsize, hm.size, hr.total_eq]

/-- The first pass of unwiring finds each entry of the range wired. -/
theorem unwireCheck_spec (h : unwireCheck user end_ l = true) (ho : Ordered l) :
    ∀ e ∈ l, e.vmeStart < end_ → e.wiredCount ≠ 0 ∧ (user = true → e.userWiredCount ≠ 0) := by
  induction l with
  | nil => simp
  | cons e l ih =>
    obtain ⟨hne, hl, ho'⟩ := ordered_cons.1 ho
    simp only [start_entry, stop_entry] at hne hl
    unfold unwireCheck at h
    split_ifs at h with h₁ h₂
    · rw [not_or, not_or, not_and] at h₂
      exact List.forall_mem_cons.2 ⟨fun _ => ⟨h₂.1, h₂.2.2⟩, ih h ho'⟩
    · refine List.forall_mem_cons.2 ⟨fun hlt => absurd hlt h₁, fun x hx hlt => ?_⟩
      have := hl x hx
      omega

/-- What unwiring does to a page. -/
def Page.unwire (user : Bool) (p : Page) : Page :=
  { p with
    wiredCount := (unwireCounts user (p.wiredCount, p.userWiredCount)).1
    userWiredCount := (unwireCounts user (p.wiredCount, p.userWiredCount)).2 }

theorem page_unwire (user : Bool) (e : VmMapEntry) (a : ℕ) :
    (e.unwire user).page a = (e.page a).unwire user := by
  cases user <;> rfl

/-- No wiring of an empty range begins inside an entry. -/
def NotInside (m : VmMap) (range : ℕ × ℕ) : Prop :=
  ∀ e ∈ m.entries, e.vmeStart < range.1 → range.1 < e.vmeEnd → range.1 < range.2

/-- What `vm_map_pageable_common` does to the counts. -/
theorem pageable_spec (hm : WellFormed m)
    (hnot : access ≠ vmProtNone → NotInside m (m.rangeCheck start end_))
    (h : vmMapPageable m start end_ access user n = some (kr, m')) :
    WellFormed m' ∧
      (∀ a, countsAt m'.entries a =
        if kr = .success ∧ (m.rangeCheck start end_).1 ≤ a ∧ a < (m.rangeCheck start end_).2 then
          (countsAt m.entries a).map (if access = vmProtNone then unwireCounts user
        else wireCounts user) else countsAt m.entries a) ∧
      (kr = .success → access = vmProtNone → ∀ a c, (m.rangeCheck start end_).1 ≤ a →
        a < (m.rangeCheck start end_).2 → countsAt m.entries a = some c →
        c.1 ≠ 0 ∧ (user = true → c.2 ≠ 0)) := by
  unfold vmMapPageable at h
  generalize m.rangeCheck start end_ = range at h hnot ⊢
  simp only at h
  split_ifs at h with haccess
  · obtain ⟨⟨r, m₁⟩, hseek, h⟩ := Option.bind_eq_some_iff.1 h
    have hs := seek_spec hm hseek
    have hm₁ := hs.recut.wellFormed hm
    have hcounts₁ : ∀ a, countsAt m₁.entries a = countsAt m.entries a := by
      intro a
      rw [countsAt_eq_denote, countsAt_eq_denote, hs.recut.denote]
    have ho := hm₁.ordered
    rw [← hs.split] at ho
    simp only at h
    split_ifs at h with hfound hcheck
    · cases h
      exact ⟨hm₁, fun a => by simp [hcounts₁], by simp⟩
    · cases h
      exact ⟨hm₁, fun a => by simp [hcounts₁], by simp⟩
    · cases h
      obtain ⟨hc, hn⟩ := forRange_spec (keepsBounds_unwire user) range.2 ho.right m₁.hdr
      have hwired := unwireCheck_spec (by simpa using hcheck) ho.right
      refine ⟨?_, fun a => ?_, fun _ _ a c ha hlt hac => ?_⟩
      · exact (recut_behind (R := fun _ _ => True) hs.split.symm (fun _ _ => trivial)
          (hc.mono fun _ _ _ _ => trivial) hn).wellFormed hm₁
      · have hden := denote_forRange range.2 (page_unwire user) (keepsBounds_unwire user) hm hs a
        rw [countsAt_eq_denote, countsAt_eq_denote]
        refine (congrArg (Option.map _) hden).trans ?_
        simp only [true_and, if_pos haccess]
        split_ifs
        · cases m.denote a <;> rfl
        · rfl
      · rw [← hcounts₁, ← hs.split, countsAt, regionAt_append,
          regionAt_of_stop_le fun x hx => (hs.before x hx).trans ha, Option.none_or] at hac
        obtain ⟨e, hreg, rfl⟩ := Option.map_eq_some_iff.1 hac
        obtain ⟨he, hcov⟩ := mem_of_regionAt hreg
        exact hwired e he (lt_of_le_of_lt hcov.1 hlt)
  · obtain ⟨⟨r, m₁⟩, hlook, h⟩ := Option.bind_eq_some_iff.1 h
    obtain ⟨hloc, hhint⟩ := lookup_spec hm.ordered.loose hlook
    have hm₁ := hhint.wellFormed hm
    simp only at h
    by_cases hfound : r.found = false
    · rw [if_pos hfound] at h
      cases h
      exact ⟨hm₁, fun a => by simp [hhint.entries], by simp⟩
    · rw [if_neg hfound] at h
      cases h
      set w := wireLoop user access range.1 range.2 r.before.reverse r.after m₁.hdr n with hwdef
      have hn : Counted m₁.hdr m₁.entries w.2.2 w.2.1 := by
        have hlen := wireLoop_counted user access range.1 range.2 r.before.reverse r.after m₁.hdr n
        rw [List.length_reverse] at hlen
        unfold Counted
        rw [hhint.entries, ← hloc.split, List.length_append]
        push_cast
        exact hlen
      have ho := hm.ordered
      rw [← hloc.split] at ho
      have hstart := hloc.lt_end_of_found hm.ordered (by simpa using hfound)
      have hnot' : ∀ x ∈ r.after, x.vmeStart < range.1 → range.1 < range.2 := by
        intro x hx hxs
        refine hnot haccess x ?_ hxs (hstart x hx)
        rw [← hloc.split]
        exact List.mem_append_right _ hx
      have hbefore : ∀ x ∈ r.before.reverse, x.vmeEnd ≤ range.1 :=
        fun x hx => hloc.before x (List.mem_reverse.1 hx)
      cases hdone : w.1 with
      | true =>
        have hw : wireLoop user access range.1 range.2 r.before.reverse r.after m₁.hdr n =
          (true, w.2.1, w.2.2) :=
          Prod.ext hdone rfl
        obtain ⟨l', hout, hr⟩ := wireLoop_success ho.right hstart hnot' hw
        have hretile : Retile (Rewired range.1 range.2 (wireCounts user)) m.entries w.2.1 := by
          rw [← hloc.split, hout, List.reverse_reverse]
          exact .append (.refl ho.left fun x hx => .inr ⟨.inl (hloc.before x hx), rfl⟩) hr
        refine ⟨hm₁.retile (by rw [hhint.entries]; exact hretile) hn rfl rfl rfl, fun a => ?_,
          fun _ hacc => absurd hacc haccess⟩
        rw [countsAt_retile hretile a]
        simp [haccess]
      | false =>
        have hw : wireLoop user access range.1 range.2 r.before.reverse r.after m₁.hdr n =
          (false, w.2.1, w.2.2) :=
          Prod.ext hdone rfl
        have horig : Retile (fun x y => y.counts = x.counts) r.before
            (undoWire user range.1 r.before.reverse).reverse := by
          rw [undoWire_of_le hbefore, List.reverse_reverse]
          exact .refl ho.left fun _ _ => rfl
        have hout := wireLoop_failure ho.right hstart hnot' (fun _ _ _ => hbefore) horig hw
        rw [hloc.split] at hout
        refine ⟨hm₁.retile (by rw [hhint.entries]; exact hout) hn rfl rfl rfl, fun a => ?_, by simp⟩
        rw [countsAt_same hout a]
        simp

/-- A wiring of an empty range that begins inside an entry cuts the entry in two and puts one
without a page in between; only that one is counted. -/
structure Torn (m m' : VmMap) (at_ : ℕ) (before : List VmMapEntry) (x front empty back : VmMapEntry)
    (rest : List VmMapEntry) : Prop where
  old : m.entries = before ++ x :: rest
  new : m'.entries = before ++ front :: empty :: back :: rest
  inside : x.vmeStart < at_ ∧ at_ < x.vmeEnd
  front : front.vmeStart = x.vmeStart ∧ front.vmeEnd = at_ ∧ front.counts = x.counts
  empty : empty.vmeStart = at_ ∧ empty.vmeEnd = at_
  back : back.vmeStart = at_ ∧ back.vmeEnd = x.vmeEnd ∧ back.counts = x.counts

theorem pageable_torn (hm : WellFormed m) (haccess : access ≠ vmProtNone)
    (hnot : ¬ NotInside m (m.rangeCheck start end_))
    (h : vmMapPageable m start end_ access user n = some (kr, m')) :
    (m.rangeCheck start end_).2 = (m.rangeCheck start end_).1 ∧
      ∃ before x front empty back rest,
      Torn m m' (m.rangeCheck start end_).1 before x front empty back rest := by
  have hle : (m.rangeCheck start end_).1 ≤ (m.rangeCheck start end_).2 := by
    unfold VmMap.rangeCheck
    simp only
    split_ifs <;> omega
  unfold vmMapPageable at h
  generalize m.rangeCheck start end_ = range at h hnot hle
  unfold NotInside at hnot
  push Not at hnot
  obtain ⟨e, he, h₁, h₂, h₃⟩ := hnot
  obtain heq : range.2 = range.1 := by omega
  rw [if_neg haccess] at h
  obtain ⟨⟨r, m₁⟩, hlook, h⟩ := Option.bind_eq_some_iff.1 h
  obtain ⟨hloc, hhint⟩ := lookup_spec hm.ordered.loose hlook
  have hfound : r.found = true := by
    by_contra hf
    have hmem := he
    rw [← hloc.split] at hmem
    rcases List.mem_append.1 hmem with hb | ha
    · have := hloc.before e hb
      omega
    · have := hloc.free (by simpa using hf) e ha
      omega
  obtain ⟨x, rest, hafter, hx₁, hx₂⟩ := hloc.found hfound
  have hold : m.entries = r.before ++ x :: rest := by rw [← hloc.split, hafter]
  have hxm : x ∈ m.entries := by
    rw [hold]
    exact List.mem_append_right _ List.mem_cons_self
  have hex : x = e := by
    have h₁ := hm.ordered.regionAt_eq_some.2 ⟨hxm, (⟨hx₁, hx₂⟩ : Covers x range.1)⟩
    have h₂ := hm.ordered.regionAt_eq_some.2 ⟨he,
      (⟨by simp only [start_entry]; omega, h₂⟩ : Covers e range.1)⟩
    exact Option.some.inj (h₁.symm.trans h₂)
  subst hex
  simp only [hfound, Bool.true_eq_false, if_false] at h
  cases h
  refine ⟨heq, ?_⟩
  rw [hafter, heq]
  unfold wireLoop
  rw [if_pos h₁, if_pos h₂]
  obtain ⟨hs, hend, hcounts⟩ := withObject_spec (x.clipEnd range.1 m₁.hdr.zone).1 n
  have hstart : ((x.clipEnd range.1 m₁.hdr.zone).1.withObject n).vmeStart < range.1 := by
    rw [hs]
    exact h₁
  set c := ((x.clipEnd range.1 m₁.hdr.zone).1.withObject n).clipStart range.1 m₁.hdr.link.zone
    with hcdef
  have hb := keepsBounds_wire user c.2
  have hempty : (c.2.wire user).vmeStart = range.1 ∧ (c.2.wire user).vmeEnd = range.1 :=
    ⟨hb.1, hb.2.trans hend⟩
  have hw : wireEntry user range.1 n (x.clipEnd range.1 m₁.hdr.zone).1 m₁.hdr.link =
      ([c.2.wire user, c.1], m₁.hdr.link.link) := by
    unfold wireEntry
    rw [if_pos hstart]
  have hundo : undoWire user range.1 (c.2.wire user :: c.1 :: r.before.reverse) =
      c.2.wire user :: c.1 :: r.before.reverse := by
    rw [undoWire, if_neg (by omega)]
  refine ⟨r.before, x, c.1, c.2.wire user, (x.clipEnd range.1 m₁.hdr.zone).2, rest, hold, ?_,
    ⟨h₁, h₂⟩, ⟨hs, rfl, hcounts⟩, hempty, rfl, rfl, rfl⟩
  simp only [hw, List.cons_append, List.nil_append]
  split_ifs
  · rw [hundo]
    simp
  · simp

/-- A wiring of an empty range that begins inside an entry leaves an entry without a page. -/
theorem pageable_empty (hm : WellFormed m) (haccess : access ≠ vmProtNone)
    (hnot : ¬ NotInside m (m.rangeCheck start end_))
    (h : vmMapPageable m start end_ access user n = some (kr, m')) :
    ∃ e ∈ m'.entries, e.vmeStart = e.vmeEnd := by
  obtain ⟨-, before, x, front, empty, back, rest, ht⟩ := pageable_torn hm haccess hnot h
  refine ⟨empty, ?_, ht.empty.1.trans ht.empty.2.symm⟩
  rw [ht.new]
  simp

end Pageable

section Outstanding

variable {user : Bool} {access : VmProt} {n : ℕ} {kr : KernReturn} {w : Wirings}

/-- Both counts are what they stand for. -/
def CountsRight (c : BitVec 16 × BitVec 16) (byUser byKernel : ℕ) : Prop :=
  c.2.toNat = byUser ∧ c.1.toNat = byKernel + if 0 < byUser then 1 else 0

/-- Each entry has pages, and its counts are the outstanding wirings of each of them. -/
def Consistent (m : VmMap) (w : Wirings) : Prop :=
  ∀ e ∈ m.entries, e.vmeStart < e.vmeEnd ∧ ∀ a, Covers e a → CountsRight e.counts (w.user a)
    (w.kernel a)

/-- One more wiring fits into the counts. -/
def CountsFit (user : Bool) (c : BitVec 16 × BitVec 16) : Prop :=
  if user then c.2.toNat < 65535 ∧ (c.2 = 0 → c.1.toNat < 65535) else c.1.toNat < 65535

/-- The kernel has a wiring of its own to take back. -/
def Matched (user : Bool) (c : BitVec 16 × BitVec 16) : Prop :=
  user = false → c.2 ≠ 0 → 1 < c.1.toNat

/-- One more wiring of the range fits, one less is of a wiring that there has been, and no wiring of
an empty range tears an entry apart. -/
def Fits (m : VmMap) (range : ℕ × ℕ) (access : VmProt) (user : Bool) (kr : KernReturn) : Prop :=
  (access ≠ vmProtNone → NotInside m range) ∧ (kr = .success → range.1 < range.2 →
    ∀ e ∈ m.entries, e.vmeStart < range.2 → range.1 < e.vmeEnd →
      if access = vmProtNone then Matched user e.counts else CountsFit user e.counts)

theorem consistent_iff (ho : Ordered m.entries) : Consistent m w ↔
    ∀ a c, countsAt m.entries a = some c → CountsRight c (w.user a) (w.kernel a) := by
  constructor
  · intro h a c hc
    obtain ⟨e, hreg, rfl⟩ := Option.map_eq_some_iff.1 hc
    obtain ⟨he, hcov⟩ := mem_of_regionAt hreg
    exact (h e he).2 a hcov
  · intro h e he
    refine ⟨ho.nonempty e he, fun a ha => h a _ ?_⟩
    rw [countsAt, ho.regionAt_eq_some.2 ⟨he, ha⟩, Option.map_some]

theorem toNat_add_one (x : BitVec 16) : (x + 1).toNat = (x.toNat + 1) % 65536 :=
  BitVec.toNat_add x 1

theorem toNat_sub_one (x : BitVec 16) : (x - 1).toNat = (65535 + x.toNat) % 65536 :=
  BitVec.toNat_sub x 1

theorem eq_zero_iff_toNat (x : BitVec 16) : x = 0 ↔ x.toNat = 0 := by
  rw [← BitVec.toNat_inj]
  rfl

theorem countsRight_wire {c : BitVec 16 × BitVec 16} {u k : ℕ} (h : CountsRight c u k)
    (user : Bool) :
    CountsRight (wireCounts user c) (if user then u + 1 else u) (if user then k else k + 1) ↔
      CountsFit user c := by
  obtain ⟨wired, byUser⟩ := c
  obtain ⟨h₁, h₂⟩ := h
  have hw := wired.isLt
  have hu := byUser.isLt
  unfold CountsRight wireCounts CountsFit
  cases user with
  | false =>
    simp only [Bool.false_eq_true, if_false, toNat_add_one] at h₁ h₂ ⊢
    split_ifs at h₂ ⊢ <;> omega
  | true =>
    simp only [if_true, eq_zero_iff_toNat, toNat_add_one] at h₁ h₂ ⊢
    by_cases hzero : byUser.toNat = 0
    · simp only [if_pos hzero, toNat_add_one]
      split_ifs at h₂ ⊢ <;> omega
    · simp only [if_neg hzero]
      split_ifs at h₂ ⊢ <;> omega

theorem countsRight_unwire {c : BitVec 16 × BitVec 16} {u k : ℕ} (h : CountsRight c u k)
    (user : Bool) (hwired : c.1 ≠ 0) (huser : user = true → c.2 ≠ 0) :
    CountsRight (unwireCounts user c) (if user then u - 1 else u) (if user then k else k - 1) ↔
      Matched user c := by
  obtain ⟨wired, byUser⟩ := c
  obtain ⟨h₁, h₂⟩ := h
  have hw := wired.isLt
  have hu := byUser.isLt
  rw [Ne, eq_zero_iff_toNat] at hwired
  unfold CountsRight unwireCounts Matched
  cases user with
  | false =>
    simp only [Bool.false_eq_true, if_false, toNat_sub_one, Ne, eq_zero_iff_toNat] at h₁ h₂ hwired ⊢
    split_ifs at h₂ ⊢ <;> simp <;> omega
  | true =>
    have huser := huser rfl
    rw [Ne, eq_zero_iff_toNat] at huser
    simp only [if_true, eq_zero_iff_toNat, toNat_sub_one] at h₁ h₂ hwired huser ⊢
    by_cases hzero : (65535 + byUser.toNat) % 65536 = 0
    · simp only [if_pos hzero, toNat_sub_one]
      split_ifs at h₂ ⊢ <;> simp <;> omega
    · simp only [if_neg hzero]
      split_ifs at h₂ ⊢ <;> simp <;> omega

/-- A wiring or an unwiring of an entry keeps its counts right exactly when it fits or is
matched. -/
theorem countsRight_outstanding {c : BitVec 16 × BitVec 16} {u k : ℕ} (h : CountsRight c u k)
    (hun : access = vmProtNone → c.1 ≠ 0 ∧ (user = true → c.2 ≠ 0)) :
    CountsRight ((if access = vmProtNone then unwireCounts user else wireCounts user) c)
        (if user then outstanding access u else u) (if user then k else outstanding access k) ↔
      if access = vmProtNone then Matched user c else CountsFit user c := by
  unfold outstanding
  split_ifs with haccess huser huser
  · simpa [huser] using countsRight_unwire h user (hun haccess).1 (hun haccess).2
  · simpa [huser] using countsRight_unwire h user (hun haccess).1 (hun haccess).2
  · simpa [huser] using countsRight_wire h user
  · simpa [huser] using countsRight_wire h user

theorem after_user (w : Wirings) (kr : KernReturn) (access : VmProt) (user : Bool) (range : ℕ × ℕ)
    (a : ℕ) :
    (w.after kr access user range).user a = (if kr = .success ∧ range.1 ≤ a ∧ a < range.2 then
      (if user then outstanding access (w.user a) else w.user a) else w.user a) ∧
    (w.after kr access user range).kernel a = (if kr = .success ∧ range.1 ≤ a ∧ a < range.2 then
      (if user then w.kernel a else outstanding access (w.kernel a)) else w.kernel a) := by
  unfold Wirings.after Wirings.change
  by_cases hkr : kr = .success
  · cases user <;> simp [hkr]
  · simp [hkr]

/-- A call that does not tear an entry apart keeps the counts right exactly when it fits. -/
theorem call_consistent_iff (hm : WellFormed m) (hc : Consistent m w)
    (hnot : access ≠ vmProtNone → NotInside m (m.rangeCheck start end_))
    (h : vmMapPageable m start end_ access user n = some (kr, m')) :
    WellFormed m' ∧ (Consistent m' (w.after kr access user (m.rangeCheck start end_)) ↔
      Fits m (m.rangeCheck start end_) access user kr) := by
  obtain ⟨hm', hcounts, hwired⟩ := pageable_spec hm hnot h
  refine ⟨hm', ?_⟩
  rw [consistent_iff hm'.ordered]
  have hc' := (consistent_iff hm.ordered).1 hc
  have hafter := after_user w kr access user (m.rangeCheck start end_)
  constructor
  · refine fun hright => ⟨hnot, fun hkr hlt e he h₁ h₂ => ?_⟩
    have hne := hm.ordered.nonempty e he
    simp only [start_entry, stop_entry] at hne
    -- an address of the entry that lies in the range
    obtain ⟨a, hcov, hin⟩ : ∃ a, Covers e a ∧ (m.rangeCheck start end_).1 ≤ a ∧
      a < (m.rangeCheck start end_).2 := by
      by_cases hs : e.vmeStart < (m.rangeCheck start end_).1
      · exact ⟨(m.rangeCheck start end_).1, ⟨hs.le, h₂⟩, le_rfl, hlt⟩
      · exact ⟨e.vmeStart, ⟨le_rfl, hne⟩, not_lt.1 hs, h₁⟩
    have hreg : countsAt m.entries a = some e.counts := by
      rw [countsAt, hm.ordered.regionAt_eq_some.2 ⟨he, hcov⟩, Option.map_some]
    have hcond : kr = .success ∧ (m.rangeCheck start end_).1 ≤ a ∧
      a < (m.rangeCheck start end_).2 := ⟨hkr, hin⟩
    have hnew := hright a _ (by rw [hcounts, if_pos hcond, hreg, Option.map_some])
    rw [(hafter a).1, (hafter a).2, if_pos hcond, if_pos hcond] at hnew
    exact (countsRight_outstanding (hc' a _ hreg) fun hnone =>
      hwired hkr hnone a _ hin.1 hin.2 hreg).1 hnew
  · intro hfit a c hac
    rw [hcounts] at hac
    rw [(hafter a).1, (hafter a).2]
    by_cases hin : kr = .success ∧ (m.rangeCheck start end_).1 ≤ a ∧ a < (m.rangeCheck start end_).2
    · rw [if_pos hin] at hac
      obtain ⟨c₀, hc₀, rfl⟩ := Option.map_eq_some_iff.1 hac
      obtain ⟨e, hreg, rfl⟩ := Option.map_eq_some_iff.1 hc₀
      obtain ⟨he, hcov⟩ := mem_of_regionAt hreg
      rw [if_pos hin, if_pos hin]
      refine (countsRight_outstanding (hc' a _ hc₀) fun hnone =>
        hwired hin.1 hnone a _ hin.2.1 hin.2.2 hc₀).2
        (hfit.2 hin.1 (hin.2.1.trans_lt hin.2.2) e he ?_ ?_)
      · exact lt_of_le_of_lt hcov.1 hin.2.2
      · exact lt_of_le_of_lt hin.2.1 hcov.2
    · rw [if_neg hin] at hac
      rw [if_neg hin, if_neg hin]
      exact hc' a c hac

/-- A call keeps the counts right exactly when it fits. -/
theorem pageable_fits_iff (hm : WellFormed m) (hc : Consistent m w)
    (h : vmMapPageable m start end_ access user n = some (kr, m')) :
    Consistent m' (w.after kr access user (m.rangeCheck start end_)) ↔
      Fits m (m.rangeCheck start end_) access user kr := by
  by_cases hnot : access ≠ vmProtNone → NotInside m (m.rangeCheck start end_)
  · exact (call_consistent_iff hm hc hnot h).2
  · obtain ⟨haccess, hnot⟩ := Classical.not_imp.1 hnot
    refine ⟨fun hright => ?_, fun hfit => absurd (hfit.1 haccess) hnot⟩
    obtain ⟨e, he, heq⟩ := pageable_empty hm haccess hnot h
    exact absurd (hright e he).1 (by omega)

theorem consistent_of_denote (hm : WellFormed m) (hm' : WellFormed m') (hc : Consistent m w)
    (h : ∀ a, m'.denote a = m.denote a) : Consistent m' w := by
  rw [consistent_iff hm'.ordered]
  intro a c hac
  rw [countsAt_eq_denote, h, ← countsAt_eq_denote] at hac
  exact (consistent_iff hm.ordered).1 hc a c hac

/-- Each step that fits keeps the counts right. -/
theorem WireStep.consistent {s t : VmMap × Wirings} (h : WireStep Fits s t) (hm : WellFormed s.1)
    (hc : Consistent s.1 s.2) : WellFormed t.1 ∧ Consistent t.1 t.2 := by
  cases h with
  | pageable h hfit =>
    obtain ⟨hm', hiff⟩ := call_consistent_iff hm hc hfit.1 h
    exact ⟨hm', hiff.2 hfit⟩
  | clipStart hl hs =>
    have hr := recut_clipStart hl hs
    exact ⟨hr.wellFormed hm, consistent_of_denote hm (hr.wellFormed hm) hc hr.denote⟩
  | clipEnd hl hs =>
    have hr := recut_clipEnd hl hs
    exact ⟨hr.wellFormed hm, consistent_of_denote hm (hr.wellFormed hm) hc hr.denote⟩
  | simplify h =>
    have hm' := simplify_wellFormed hm h
    exact ⟨hm', consistent_of_denote hm hm' hc (simplify_denote hm h)⟩

theorem run_consistent {s t : VmMap × Wirings} (h : Relation.ReflTransGen (WireStep Fits) s t)
    (hm : WellFormed s.1) (hc : Consistent s.1 s.2) : WellFormed t.1 ∧ Consistent t.1 t.2 := by
  induction h with
  | refl => exact ⟨hm, hc⟩
  | tail _ hstep ih => exact hstep.consistent ih.1 ih.2

/-- Along every run whose calls fit, the counts of each entry are the outstanding wirings of its
pages; and a call that does not fit makes them wrong. -/
theorem wire_counts_right (hm : WellFormed m) (hc : Consistent m w) {t : VmMap × Wirings}
    (h : Relation.ReflTransGen (WireStep Fits) (m, w) t) :
    Consistent t.1 t.2 ∧ ∀ start end_ access user n kr m',
      vmMapPageable t.1 start end_ access user n = some (kr, m') →
      (Consistent m' (t.2.after kr access user (t.1.rangeCheck start end_)) ↔
        Fits t.1 (t.1.rangeCheck start end_) access user kr) := by
  obtain ⟨hm', hc'⟩ := run_consistent h hm hc
  exact ⟨hc', fun start end_ access user n kr m' hcall => pageable_fits_iff hm' hc' hcall⟩

section Examples

/-- One entry of four pages with the given counts. -/
def wiredMap (wired byUser : BitVec 16) : VmMap :=
  { vmMapCreate 0 65536 with
    entries := [{ (allocateRequest 16384 false).newEntry 0 16384 32768 with
      object := .vmObject 0
      wiredCount := wired
      userWiredCount := byUser }]
    hdr := ⟨1, 1⟩
    size := 16384
    hint := some 0 }

theorem wiredMap_wellFormed (wired byUser : BitVec 16) : WellFormed (wiredMap wired byUser) where
  ordered := ⟨List.pairwise_singleton _ _, by simp [wiredMap, EnterRequest.newEntry]⟩
  bounds := by simp [wiredMap, vmMapCreate, EnterRequest.newEntry]
  nentries := rfl
  size := by
    have hone : ∀ e : VmMapEntry, e.vmeStart = 16384 → e.vmeEnd = 32768 → total [e] = 16384 := by
      intro e hs he
      simp only [total_cons, total_nil, start_entry, stop_entry, hs, he]
    exact (hone _ rfl rfl).symm
  max_lt := by simp [wiredMap, vmMapCreate]

/-- The pages of `wiredMap` are wired `k` times by users. -/
def wiredTimes (k : ℕ) : Wirings where
  user a := if 16384 ≤ a ∧ a < 32768 then k else 0
  kernel _ := 0

theorem wiredMap_consistent : Consistent (wiredMap 0 0) (wiredTimes 0) := by
  intro e he
  rw [List.mem_singleton.1 he]
  exact ⟨(by decide : 16384 < 32768), fun a _ => by simp [wiredTimes, CountsRight,
    VmMapEntry.counts]⟩

theorem wire_wiredMap (wired byUser : BitVec 16) :
    vmMapPageable (wiredMap wired byUser) 16384 32768 vmProtRead true 0 =
      some (.success, wiredMap (if byUser = 0 then wired + 1 else wired) (byUser + 1)) := by
  have haccess : vmProtRead ≠ vmProtNone := by decide
  have hprot : vmProtDefault &&& vmProtRead = vmProtRead := by decide
  simp [vmMapPageable, VmMap.rangeCheck, wiredMap, vmMapCreate, vmMapLookupEntry, position, cut,
    wireLoop,
    wireEntry, VmMapEntry.withObject, EnterRequest.newEntry, allocateRequest, haccess, hprot,
    holeBehind, VmMapEntry.wire]

theorem wiredTimes_after (wired byUser : BitVec 16) (k : ℕ) :
    (wiredTimes k).after .success vmProtRead true
    ((wiredMap wired byUser).rangeCheck 16384 32768) = wiredTimes (k + 1) := by
  have haccess : vmProtRead ≠ vmProtNone := by decide
  unfold Wirings.after Wirings.change wiredTimes
  simp only [VmMap.rangeCheck, wiredMap, vmMapCreate, outstanding, haccess, if_true, if_false,
    true_and, Wirings.mk.injEq]
  refine ⟨funext fun a => ?_, by simp⟩
  by_cases ha : 16384 ≤ a ∧ a < 32768 <;> simp [ha]

/-- One more wiring of the pages of `wiredMap`. -/
theorem wireStep_wiredMap {ok : VmMap → ℕ × ℕ → VmProt → Bool → KernReturn → Prop}
    (wired byUser : BitVec 16)
    (k : ℕ) (hok : ok (wiredMap wired byUser) ((wiredMap wired byUser).rangeCheck 16384 32768)
      vmProtRead true .success) :
    WireStep ok (wiredMap wired byUser, wiredTimes k)
      (wiredMap (if byUser = 0 then wired + 1 else wired) (byUser + 1), wiredTimes (k + 1)) := by
  have hstep := WireStep.pageable (w := wiredTimes k) (wire_wiredMap wired byUser) hok
  rwa [wiredTimes_after] at hstep

theorem wire_counts_right_once : Consistent (wiredMap 1 1) (wiredTimes 1) := by
  have hfits : Fits (wiredMap 0 0)
    ((wiredMap 0 0).rangeCheck 16384 32768) vmProtRead true .success := by
    refine ⟨fun _ e he h₁ h₂ => ?_, fun _ _ e he _ _ => ?_⟩
    · exact (by decide : 16384 < 32768)
    · rw [List.mem_singleton.1 he]
      exact ⟨by decide, fun _ => by decide⟩
  have hstep := wireStep_wiredMap 0 0 0 hfits
  exact (wire_counts_right (wiredMap_wellFormed 0 0) wiredMap_consistent (.single hstep)).1

theorem run_wiredMap (k : ℕ) (hk : k ≤ 65536) :
    Relation.ReflTransGen (WireStep fun _ _ _ _ _ => True) (wiredMap 0 0, wiredTimes 0)
      (wiredMap (if k = 0 then 0 else 1) (BitVec.ofNat 16 k), wiredTimes k) := by
  induction k with
  | zero => exact .refl
  | succ k ih =>
    have hstep : WireStep (fun _ _ _ _ _ => True) _ _ :=
      wireStep_wiredMap (if k = 0 then 0 else 1) (BitVec.ofNat 16 k) k trivial
    have hzero : BitVec.ofNat 16 k = 0 ↔ k = 0 := by
      rw [eq_zero_iff_toNat, BitVec.toNat_ofNat]
      omega
    have hwired : (if BitVec.ofNat 16 k = 0 then (if k = 0 then 0 else 1) + 1
        else (if k = 0 then 0 else 1) : BitVec 16) = 1 := by
      simp only [hzero]
      split_ifs <;> rfl
    have hsucc : BitVec.ofNat 16 k + 1 = BitVec.ofNat 16 (k + 1) := (BitVec.ofNat_add k 1).symm
    rw [hwired, hsucc] at hstep
    have hrun := (ih (by omega)).tail hstep
    rw [if_neg (Nat.succ_ne_zero k)]
    exact_mod_cast hrun

/-- After 65536 wirings of a page by users, all of them successful, its `user_wired_count` is
zero. -/
theorem wirings_wrap : ∃ m w, WellFormed (wiredMap 0 0) ∧ Consistent (wiredMap 0 0) (wiredTimes 0) ∧
    Relation.ReflTransGen (WireStep fun _ _ _ _ _ => True) (wiredMap 0 0, wiredTimes 0) (m, w) ∧
    ∃ e ∈ m.entries, Covers e 16384 ∧ e.userWiredCount = 0 ∧ w.user 16384 = 65536 :=
  ⟨_, _, wiredMap_wellFormed 0 0, wiredMap_consistent, run_wiredMap 65536 le_rfl, _,
    List.mem_singleton_self _, ⟨le_rfl, (by decide : 16384 < 32768)⟩, rfl, rfl⟩

end Examples

end Outstanding

end XMach.Vm
