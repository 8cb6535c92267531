import XMach.Vm.Proofs.Map

/-!
# Lookups do not depend on the hint

What a lookup says about the position it returns leaves one position in a well-formed map
(`Located.unique`). So a search from the header, from an entry below the address and from one above
it all end there.
-/

namespace XMach.Vm

open Region

variable {m : VmMap} {l : List VmMapEntry} {a : ℕ} {r r' : Lookup}

/-- The entry that contains the address, or else the last one that starts at or below it. -/
structure Lookup.Right (l : List VmMapEntry) (a : ℕ) (r : Lookup) : Prop where
  found_iff : r.found = true ↔ ∃ e ∈ l, Covers e a
  found : r.found = true → ∃ e ∈ l, Covers e a ∧ r.entry = some e.ptr ∧ ∀ e' ∈ l,
    Covers e' a → e' = e
  free : r.found = false → r.entry = lastPtr (l.filter fun e => e.vmeStart ≤ a)

theorem Located.lt_end (h : Located l a r) (ho : Ordered l) {e : VmMapEntry} (he : e ∈ r.after) :
    a < e.vmeEnd := by
  have ho' := ho
  rw [← h.split] at ho'
  have hlt : e.vmeStart < e.vmeEnd := ho.nonempty e (h.split ▸ List.mem_append_right _ he)
  rcases hf : r.found with _ | _
  · have := h.free hf e he
    omega
  · obtain ⟨x, rest, hafter, -, hx⟩ := h.found hf
    rw [hafter] at he ho'
    rcases List.mem_cons.1 he with rfl | he
    · exact hx
    · have hle : x.vmeEnd ≤ e.vmeStart := (ordered_cons.1 ho'.right).2.1 e he
      omega

theorem Located.before_eq (h : Located l a r) (ho : Ordered l) :
    r.before = l.filter fun e => e.vmeEnd ≤ a := by
  have hbefore : r.before.filter (fun e => e.vmeEnd ≤ a) = r.before :=
    List.filter_eq_self.2 fun e he => decide_eq_true (h.before e he)
  have hafter : r.after.filter (fun e => e.vmeEnd ≤ a) = [] :=
    List.filter_eq_nil_iff.2 fun e he => by simpa using h.lt_end ho he
  rw [← h.split, List.filter_append, hbefore, hafter, List.append_nil]

theorem Located.found_iff (h : Located l a r) : r.found = true ↔ ∃ e ∈ l, Covers e a := by
  constructor
  · intro hf
    obtain ⟨e, rest, hafter, hs, he⟩ := h.found hf
    exact ⟨e, by rw [← h.split, hafter]; simp, hs, he⟩
  · rintro ⟨e, he, hs, hlt⟩
    simp only [start_entry, stop_entry] at hs hlt
    by_contra hf
    rw [← h.split] at he
    rcases List.mem_append.1 he with hb | ha
    · have := h.before e hb
      omega
    · have := h.free (Bool.not_eq_true _ ▸ hf) e ha
      omega

theorem Located.unique (h : Located l a r) (h' : Located l a r') (ho : Ordered l) : r = r' := by
  have hbefore : r.before = r'.before := (h.before_eq ho).trans (h'.before_eq ho).symm
  have hafter : r.after = r'.after := by
    have hsplit := h.split.trans h'.split.symm
    rw [hbefore] at hsplit
    exact List.append_cancel_left hsplit
  have hfound : r.found = r'.found := Bool.eq_iff_iff.2 (h.found_iff.trans h'.found_iff.symm)
  rcases r with ⟨f, b, af⟩
  rcases r' with ⟨f', b', af'⟩
  obtain rfl : f = f' := hfound
  obtain rfl : b = b' := hbefore
  obtain rfl : af = af' := hafter
  rfl

theorem covers_unique (ho : Ordered l) {e e' : VmMapEntry} (he : e ∈ l) (he' : e' ∈ l)
    (hc : Covers e a) (hc' : Covers e' a) : e = e' :=
  Option.some.inj ((ho.regionAt_eq_some.2 ⟨he, hc⟩).symm.trans (ho.regionAt_eq_some.2 ⟨he', hc'⟩))

theorem Located.right (h : Located l a r) (ho : Ordered l) : r.Right l a := by
  refine ⟨h.found_iff, fun hf => ?_, fun hf => ?_⟩
  · obtain ⟨e, rest, hafter, hs, hlt⟩ := h.found hf
    have he : e ∈ l := by
      rw [← h.split, hafter]
      simp
    have hentry : r.entry = some e.ptr := by
      unfold Lookup.entry
      rw [if_pos hf, hafter]
      rfl
    exact ⟨e, he, ⟨hs, hlt⟩, hentry, fun e' he' hc' => covers_unique ho he' he hc' ⟨hs, hlt⟩⟩
  · have hbefore : r.before.filter (fun e => e.vmeStart ≤ a) = r.before := by
      refine List.filter_eq_self.2 fun e he => decide_eq_true ?_
      have hlt : e.vmeStart < e.vmeEnd := ho.nonempty e (h.split ▸ List.mem_append_left _ he)
      have := h.before e he
      omega
    have hafter : r.after.filter (fun e => e.vmeStart ≤ a) = [] :=
      List.filter_eq_nil_iff.2 fun e he => by simpa using h.free hf e he
    unfold Lookup.entry
    rw [if_neg (by simp [hf]), ← h.split, List.filter_append, hbefore, hafter, List.append_nil]

/-- Whatever the hint, a lookup ends with the entry that contains the address, or with the last one
below it, and changes nothing but the hint. -/
theorem lookup_independent_of_hint (hm : WellFormed m) (a : ℕ) :
    ∃ r : Lookup, r.Right m.entries a ∧ ∀ p, Linked m.entries p →
      ∃ m', vmMapLookupEntry (m.saveHint p) a = some (r, m') ∧ OnlyHint (m.saveHint p) m' := by
  have hlook : ∀ p, Linked m.entries p → ∃ r m', vmMapLookupEntry (m.saveHint p) a = some (r, m') ∧
      Located m.entries a r ∧ OnlyHint (m.saveHint p) m' := by
    intro p hp
    obtain ⟨r, m', hr⟩ := lookup_total (m := m.saveHint p) hp a
    exact ⟨r, m', hr, lookup_spec (m := m.saveHint p) hm.ordered.loose hr⟩
  obtain ⟨r, -, -, hloc, -⟩ := hlook none trivial
  refine ⟨r, hloc.right hm.ordered, fun p hp => ?_⟩
  obtain ⟨r', m', hr, hloc', hhint⟩ := hlook p hp
  obtain rfl := hloc.unique hloc' hm.ordered
  exact ⟨m', hr, hhint⟩

/-- A map of sixteen pages with one page mapped and, behind a gap, two more. -/
def twoPieces : VmMap :=
  { vmMapCreate 0 65536 with
    entries := [(allocateRequest 4096 false).newEntry 0 4096 8192,
      (allocateRequest 8192 false).newEntry 1 16384 24576]
    hdr := ⟨2, 2⟩
    size := 12288 }

theorem twoPieces_wellFormed : WellFormed twoPieces where
  ordered := ordered_cons.2 ⟨by decide, by decide,
    ordered_cons.2 ⟨by decide, by decide, ordered_nil⟩⟩
  bounds := by decide
  nentries := rfl
  size := by decide
  max_lt := by decide

/-- In the gap, from the header and from the entries on both sides of it. -/
theorem lookup_independent_of_hint_gap :
    WellFormed twoPieces ∧ ∃ r : Lookup, r.Right twoPieces.entries 12288 ∧ ∀ p,
    Linked twoPieces.entries p →
      ∃ m', vmMapLookupEntry (twoPieces.saveHint p) 12288 = some (r, m') ∧
      OnlyHint (twoPieces.saveHint p) m' :=
  ⟨twoPieces_wellFormed, lookup_independent_of_hint twoPieces_wellFormed 12288⟩

end XMach.Vm
