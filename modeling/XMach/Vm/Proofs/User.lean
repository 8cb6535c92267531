import XMach.Vm.User
import XMach.Vm.Proofs.Enter

/-!
# What the range requests reach

Which pages of `[start, start + size)`, taken without wrap-around, a successful request has its
effect on. `vm_allocate` maps them unless `round_page(size)` wraps to zero. The other requests reach
the pages below `round_page(start + size)`, which are all of them as long as that does not wrap, and
`vm_deallocate` leaves projected buffers that are not persistent.
-/

namespace XMach.Vm

open Region

variable {m m' : VmMap} {before after : List VmMapEntry} {a x start end_ size : ℕ}

/-- The page of an address meets the range. -/
def Touches (start size a : ℕ) : Prop := ∃ y, start ≤ y ∧ y < start + size ∧
    y / pageSize = a / pageSize

theorem Touches.truncPage_le (h : Touches start size a) : truncPage start ≤ a := by
  obtain ⟨y, h₁, -, h₃⟩ := h
  unfold truncPage
  unfold pageSize at h₃ ⊢
  omega

/-- Without wrap-around the pages that the range meets are those before `round_page(start +
size)`. -/
theorem Touches.lt_rangeEnd (h : Touches start size a)
    (hnowrap : start + size ≤ 2 ^ 32 - pageSize) : a < rangeEnd start size := by
  obtain ⟨y, -, h₂, h₃⟩ := h
  unfold rangeEnd roundPage truncPage
  unfold pageSize at h₃ hnowrap ⊢
  omega

theorem roundPage_eq_zero (h : 2 ^ 32 - pageSize < size) (hlt : size < 2 ^ 32) :
    roundPage size = 0 := by
  unfold roundPage truncPage
  unfold pageSize at h ⊢
  omega

theorem le_roundPage (h : size ≤ 2 ^ 32 - pageSize) : size ≤ roundPage size := by
  unfold roundPage truncPage
  unfold pageSize at h ⊢
  omega

section Allocate

theorem pageAt_of_end_le {l : List VmMapEntry} (h : ∀ e ∈ l, e.vmeEnd ≤ a) : pageAt l a = none := by
  unfold pageAt
  rw [regionAt_of_stop_le h]
  rfl

theorem Gap.denote_eq_none (hg : Gap m before after start size) (h₁ : start ≤ x)
    (h₂ : x < start + size) : m.denote x = none := by
  rw [VmMap.denote, hg.split, pageAt_or, pageAt_of_end_le fun e he => (hg.before e he).trans h₁,
    Option.none_or, pageAt, regionAt_of_lt hg.after h₂]
  rfl

/-- A successful `vm_allocate` maps the range that it returns, where nothing was mapped before,
exactly when the size does not round up to zero. -/
theorem allocate_whole (hm : WellFormed m) (hpos : 0 < size) (hsize : size < 2 ^ 32)
    {anywhere grows : Bool} (h : vmAllocate m start size anywhere grows = some (.success a, m')) :
    ((∀ x, a ≤ x → x < a + size → m.denote x = none ∧ m'.denote x ≠ none) ∧
      ∀ e ∈ m'.entries, e.vmeStart < e.vmeEnd) ↔ size ≤ 2 ^ 32 - pageSize := by
  unfold vmAllocate at h
  rw [if_neg hpos.ne'] at h
  have hspec :=
    enter_spec hm.laid (show (allocateRequest (roundPage size) anywhere).size < 2 ^ 32 from
    roundPage_lt size) h
  obtain ⟨m₁, hhint, ⟨-, hno⟩ | ⟨before, after, start', hg, -, hreply, hplace⟩⟩ := hspec
  · exact absurd rfl (hno a)
  · obtain rfl : a = start' := Reply.success.inj hreply
    have hden : ∀ x, m₁.denote x = m.denote x := by
      intro x
      unfold VmMap.denote
      rw [hhint.entries]
    have hm₁ := hhint.wellFormed hm
    obtain ⟨e, -, hplaced⟩ := place_denote hm₁.laid hg grows
    refine ⟨fun hmap => ?_, fun hle => ⟨fun x h₁ h₂ => ?_, ?_⟩⟩
    · by_contra hwrap
      have hzero : (allocateRequest (roundPage size) anywhere).size = 0 :=
        roundPage_eq_zero (not_le.1 hwrap) hsize
      obtain ⟨hnone, hsome⟩ := hmap.1 a le_rfl (by omega)
      refine hsome ?_
      rw [hplace, hplaced, if_neg (by omega), hden, hnone]
    · have hround : size ≤ (allocateRequest (roundPage size) anywhere).size := le_roundPage hle
      rw [← hden]
      refine ⟨hg.denote_eq_none h₁ (by omega), ?_⟩
      rw [hplace, hplaced, if_pos ⟨h₁, by omega⟩]
      simp
    · have hround : size ≤ (allocateRequest (roundPage size) anywhere).size := le_roundPage hle
      have hwf := place_wellFormed hm₁ (lt_of_lt_of_le hpos hround) hg grows
      rw [hplace]
      exact hwf.ordered.nonempty

end Allocate

section Range

theorem mapped_bounds (hm : WellFormed m) (h : m.denote a ≠ none) :
    m.minOffset ≤ a ∧ a < m.maxOffset := by
  unfold VmMap.denote pageAt at h
  cases hreg : regionAt m.entries a with
  | none => simp [hreg] at h
  | some e =>
    obtain ⟨he, hcov⟩ := mem_of_regionAt hreg
    exact ⟨(hm.bounds e he).1.trans hcov.1, lt_of_lt_of_le hcov.2 (hm.bounds e he).2⟩

/-- A page of the range in the bounds of the map is handled exactly when it lies before
`round_page(start + size)`. -/
theorem in_rangeCheck_iff (ht : Touches start size a) (hlo : m.minOffset ≤ a)
    (hhi : a < m.maxOffset) : (m.rangeCheck (truncPage start) (rangeEnd start size)).1 ≤ a ∧
      (a < (m.rangeCheck (truncPage start) (rangeEnd start size)).2 ↔ a < rangeEnd start size) := by
  have hstart := ht.truncPage_le
  unfold VmMap.rangeCheck
  simp only
  split_ifs <;> omega

/-- A successful `vm_deallocate`, with or without having waited, leaves nothing mapped in the range
exactly when it reaches each mapped page of it and none is of a projected buffer that stays. -/
theorem deallocate_whole {kernelMap : Bool} {persistent : ProjectedOn → Bool} (hm : WellFormed m)
    (hpos : 0 < size)
    (h : vmDeallocate m start size (VmMapEntry.stays kernelMap persistent) = some (false, m') ∨
      vmDeallocateResume m start size (VmMapEntry.stays kernelMap persistent) = some (false, m')) :
    (∀ x, Touches start size x → m.minOffset ≤ x → x < m.maxOffset → m'.denote x = none) ↔
      ∀ x, Touches start size x → m.denote x ≠ none → x < rangeEnd start size ∧
        staysAt (VmMapEntry.stays kernelMap persistent) m.entries x = false := by
  have hpages : ∀ x, Touches start size x → m.minOffset ≤ x → x < m.maxOffset → m'.denote x =
      if x < rangeEnd start size ∧
        staysAt (VmMapEntry.stays kernelMap persistent) m.entries x = false then none
      else m.denote x := by
    intro x ht h₁ h₂
    obtain ⟨hlo, hhi⟩ := in_rangeCheck_iff ht h₁ h₂
    rcases h with h | h
    · unfold vmDeallocate at h
      rw [if_neg hpos.ne'] at h
      rw [delete_pages hm h x]
      simp only [hlo, hhi, true_and]
    · rw [deleteResume_pages hm h hlo]
      simp only [hhi]
  refine ⟨fun hnone x ht hx => ?_, fun hall x ht h₁ h₂ => ?_⟩
  · obtain ⟨h₁, h₂⟩ := mapped_bounds hm hx
    by_contra hin
    have hpage := hpages x ht h₁ h₂
    rw [if_neg hin, hnone x ht h₁ h₂] at hpage
    exact hx hpage.symm
  · rw [hpages x ht h₁ h₂]
    by_cases hx : m.denote x = none
    · rw [hx, ite_self]
    · rw [if_pos (hall x ht hx)]

/-- An update of every page before `round_page(start + size)` is one of the whole range exactly when
the mapped pages that it does not reach need none. -/
theorem update_whole {g : Page → Page} {P : Page → Prop} (hm : WellFormed m) (hP : ∀ p, P (g p))
    (h : ∀ x, m'.denote x = if (m.rangeCheck (truncPage start) (rangeEnd start size)).1 ≤ x ∧
      x < (m.rangeCheck (truncPage start) (rangeEnd start size)).2 then (m.denote x).map g
    else m.denote x) : (∀ x p, Touches start size x → m'.denote x = some p → P p) ↔
      ∀ x p, Touches start size x → m.denote x = some p → x < rangeEnd start size ∨ P p := by
  have hpages : ∀ x p, Touches start size x → m.denote x = some p →
      m'.denote x = if x < rangeEnd start size then some (g p) else some p := by
    intro x p ht hp
    obtain ⟨h₁, h₂⟩ := mapped_bounds hm (by rw [hp]; simp)
    obtain ⟨hlo, hhi⟩ := in_rangeCheck_iff ht h₁ h₂
    rw [h, hp]
    simp only [hlo, hhi, true_and, Option.map_some]
  refine ⟨fun hall x p ht hp => ?_, fun hall x p ht hp => ?_⟩
  · by_cases hlt : x < rangeEnd start size
    · exact .inl hlt
    · refine .inr (hall x p ht ?_)
      rw [hpages x p ht hp, if_neg hlt]
  · cases hq : m.denote x with
    | none =>
      rw [h, hq, Option.map_none, ite_self] at hp
      cases hp
    | some q =>
      have hpage := hpages x q ht hq
      rw [hp] at hpage
      split_ifs at hpage with hlt
      · cases hpage
        exact hP q
      · cases hpage
        exact (hall x p ht hq).resolve_left hlt

theorem projectedBufferInRange_spec {kernelMap projected : Bool} (hm : WellFormed m)
    (h : projectedBufferInRange kernelMap m start end_ = some (projected, m')) : OnlyHint m m' := by
  unfold projectedBufferInRange at h
  split_ifs at h
  · cases h
    exact .refl m
  · obtain ⟨⟨r, m₁⟩, hlook, h⟩ := Option.bind_eq_some_iff.1 h
    cases h
    exact (lookup_spec hm.ordered.loose hlook).2

theorem OnlyHint.denote (h : OnlyHint m m') (x : ℕ) : m'.denote x = m.denote x := by
  unfold VmMap.denote
  rw [h.entries]

theorem OnlyHint.rangeCheck (h : OnlyHint m m') (start end_ : ℕ) :
    m'.rangeCheck start end_ = m.rangeCheck start end_ := by
  unfold VmMap.rangeCheck
  rw [h.minOffset, h.maxOffset]

/-- The page has the protection that `vm_protect` sets. -/
def Page.HasProtection (newProt : VmProt) (setMax : Bool) (p : Page) : Prop :=
  if setMax then p.maxProtection = newProt ∧ newProt &&& p.protection = p.protection
  else p.protection = newProt

theorem hasProtection_setProtection (newProt : VmProt) (setMax : Bool) (p : Page) :
    (p.setProtection newProt setMax).HasProtection newProt setMax := by
  unfold Page.HasProtection Page.setProtection
  split_ifs
  · refine ⟨rfl, ?_⟩
    rw [← BitVec.and_assoc, BitVec.and_self]
  · rfl

theorem protect_whole {kernelMap setMax : Bool} {newProt : VmProt} (hm : WellFormed m)
    (h : vmProtect kernelMap m start size setMax newProt = some (.success, m')) :
    (∀ x p, Touches start size x → m'.denote x = some p → p.HasProtection newProt setMax) ↔
      ∀ x p, Touches start size x → m.denote x = some p →
        x < rangeEnd start size ∨ p.HasProtection newProt setMax := by
  unfold vmProtect at h
  split_ifs at h
  · cases (Prod.mk.inj (Option.some.inj h)).1
  · obtain ⟨⟨projected, m₁⟩, hproj, h⟩ := Option.bind_eq_some_iff.1 h
    have hhint := projectedBufferInRange_spec hm hproj
    simp only at h
    split_ifs at h
    · cases (Prod.mk.inj (Option.some.inj h)).1
    · refine update_whole hm (hasProtection_setProtection newProt setMax) fun x => ?_
      rw [(protect_spec (hhint.wellFormed hm) h).2 x, hhint.denote, hhint.rangeCheck]
      simp only [true_and]

theorem inherit_whole {kernelMap : Bool} {newInheritance : ℕ} (hm : WellFormed m)
    (h : vmInherit kernelMap m start size newInheritance = some (.success, m')) :
    (∀ x p, Touches start size x → m'.denote x = some p →
        VmInherit.ofNat? newInheritance = some p.inheritance) ↔
      ∀ x p, Touches start size x → m.denote x = some p →
        x < rangeEnd start size ∨ VmInherit.ofNat? newInheritance = some p.inheritance := by
  unfold vmInherit at h
  split at h
  · cases (Prod.mk.inj (Option.some.inj h)).1
  · rename_i new hnew
    obtain ⟨⟨projected, m₁⟩, hproj, h⟩ := Option.bind_eq_some_iff.1 h
    have hhint := projectedBufferInRange_spec hm hproj
    simp only at h
    split_ifs at h
    · cases (Prod.mk.inj (Option.some.inj h)).1
    · refine update_whole hm (g := Page.setInheritance new) (fun p => hnew) fun x => ?_
      rw [(inherit_spec (hhint.wellFormed hm) h).2 x, hhint.denote, hhint.rangeCheck]

end Range

/-- What each range request reaches. The conditions on the pages of the last three hold whenever
`start + size` does not come close to the end of the address space and no projected buffer stays. -/
theorem range_requests_whole (hm : WellFormed m) (hpos : 0 < size) (hsize : size < 2 ^ 32) :
    (∀ anywhere grows a m', vmAllocate m start size anywhere grows = some (.success a, m') →
      (((∀ x, a ≤ x → x < a + size → m.denote x = none ∧ m'.denote x ≠ none) ∧
        ∀ e ∈ m'.entries, e.vmeStart < e.vmeEnd) ↔ size ≤ 2 ^ 32 - pageSize)) ∧
    (∀ kernelMap persistent m',
      vmDeallocate m start size (VmMapEntry.stays kernelMap persistent) = some (false, m') ∨
        vmDeallocateResume m start size (VmMapEntry.stays kernelMap persistent) = some (false, m') →
      ((∀ x, Touches start size x → m.minOffset ≤ x → x < m.maxOffset → m'.denote x = none) ↔
        ∀ x, Touches start size x → m.denote x ≠ none → x < rangeEnd start size ∧
          staysAt (VmMapEntry.stays kernelMap persistent) m.entries x = false)) ∧
    (∀ kernelMap setMax newProt m',
      vmProtect kernelMap m start size setMax newProt = some (.success, m') →
      ((∀ x p, Touches start size x → m'.denote x = some p → p.HasProtection newProt setMax) ↔
        ∀ x p, Touches start size x → m.denote x = some p →
          x < rangeEnd start size ∨ p.HasProtection newProt setMax)) ∧
    (∀ kernelMap newInheritance m',
      vmInherit kernelMap m start size newInheritance = some (.success, m') →
      ((∀ x p, Touches start size x → m'.denote x = some p →
          VmInherit.ofNat? newInheritance = some p.inheritance) ↔
        ∀ x p, Touches start size x → m.denote x = some p →
          x < rangeEnd start size ∨ VmInherit.ofNat? newInheritance = some p.inheritance)) ∧
    (start + size ≤ 2 ^ 32 - pageSize → ∀ x, Touches start size x → x < rangeEnd start size) := by
  refine ⟨fun _ _ _ _ h => ?_, fun _ _ _ h => ?_, fun _ _ _ _ h => ?_, fun _ _ _ h => ?_,
    fun hnowrap x ht => ?_⟩
  · exact allocate_whole hm hpos hsize h
  · exact deallocate_whole hm hpos h
  · exact protect_whole hm h
  · exact inherit_whole hm h
  · exact ht.lt_rangeEnd hnowrap

section Examples

/-- The four pages of `gapMap` are deallocated, and the last of them is not mapped any more. -/
theorem range_requests_whole_gapMap : ∃ m',
    vmDeallocate gapMap 16384 16384 (VmMapEntry.stays false fun _ => false) = some (false, m') ∧
      m'.denote 28672 = none := by
  have h :
      ((vmDeallocate gapMap 16384 16384 (VmMapEntry.stays false fun _ => false)).map Prod.fst) =
      some false := by decide
  obtain ⟨⟨waits, m'⟩, hm', rfl⟩ := Option.map_eq_some_iff.1 h
  obtain ⟨-, hdealloc, -, -, hend⟩ := @range_requests_whole gapMap 16384 16384 gapMap_wellFormed
    (by decide) (by decide)
  refine ⟨m', hm',
    (hdealloc false (fun _ => false) m' (.inl hm')).2 (fun x ht hx => ⟨?_, ?_⟩) 28672 ?_ ?_ ?_⟩
  · exact hend (by decide) x ht
  · -- nothing in the map is projected
    unfold staysAt
    cases hreg : regionAt gapMap.entries x with
    | none => rfl
    | some e =>
      rw [List.mem_singleton.1 (mem_of_regionAt hreg).1]
      rfl
  · exact ⟨28672, by decide, by decide, rfl⟩
  · decide
  · decide

/-- `vm_allocate` of all but a few bytes of the address space makes an empty entry and says it has
mapped them; `vm_deallocate` and `vm_protect` of a range beyond the last address succeed without
effect. -/
theorem wrapped_requests_lost :
    (∃ m', vmAllocate (vmMapCreate 0 65536) 0 4294963201 true false = some (.success 0, m') ∧
      m'.denote 0 = none ∧ ∃ e ∈ m'.entries, e.vmeStart = e.vmeEnd) ∧
    (∃ m', vmDeallocate gapMap 16384 4294950912 (VmMapEntry.stays false fun _ => false) =
      some (false, m') ∧ Touches 16384 4294950912 16384 ∧ m'.denote 16384 ≠ none) ∧
    (∃ m', vmProtect false gapMap 16384 4294950912 false vmProtRead = some (.success, m') ∧
      (m'.denote 16384).map Page.protection = some vmProtDefault) := by
  have h₁ : ((vmAllocate (vmMapCreate 0 65536) 0 4294963201 true false).map fun r =>
      (r.1, r.2.denote 0, r.2.entries.map fun e => (e.vmeStart, e.vmeEnd))) =
      some (.success 0, none, [(0, 0)]) := by decide
  have h₂ :
      ((vmDeallocate gapMap 16384 4294950912 (VmMapEntry.stays false fun _ => false)).map fun r =>
      (r.1, (r.2.denote 16384).isSome)) = some (false, true) := by decide
  have h₃ : ((vmProtect false gapMap 16384 4294950912 false vmProtRead).map fun r =>
      (r.1, (r.2.denote 16384).map Page.protection)) =
      some (.success, some vmProtDefault) := by decide
  refine ⟨?_, ?_, ?_⟩
  · obtain ⟨⟨reply, m'⟩, hm', heq⟩ := Option.map_eq_some_iff.1 h₁
    obtain ⟨rfl, hnone, hentries⟩ : reply = .success 0 ∧ m'.denote 0 = none ∧
        (m'.entries.map fun e => (e.vmeStart, e.vmeEnd)) = [(0, 0)] := by simpa using heq
    obtain ⟨e, he, hbounds⟩ :=
      List.mem_map.1 (show (0, 0) ∈ _ from hentries ▸ List.mem_singleton_self _)
    obtain ⟨hs, hend⟩ := Prod.mk.inj hbounds
    exact ⟨m', hm', hnone, e, he, hs.trans hend.symm⟩
  · obtain ⟨⟨waits, m'⟩, hm', heq⟩ := Option.map_eq_some_iff.1 h₂
    obtain ⟨rfl, hsome⟩ := Prod.mk.inj heq
    exact ⟨m', hm', ⟨16384, by decide, by decide, rfl⟩, Option.isSome_iff_ne_none.1 hsome⟩
  · obtain ⟨⟨kr, m'⟩, hm', heq⟩ := Option.map_eq_some_iff.1 h₃
    obtain ⟨rfl, hprot⟩ := Prod.mk.inj heq
    exact ⟨m', hm', hprot⟩

end Examples

end XMach.Vm
