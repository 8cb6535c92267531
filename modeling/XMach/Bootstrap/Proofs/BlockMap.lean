import XMach.Bootstrap.DefaultPager

/-!
# Block maps

What the operations do to the entries of a block map, of one or of two levels. `get` finds `noBlock`
past the size of the map, and an extension loses what is past its new size.
-/

namespace XMach.DefaultPager

section Sizes

theorem doubled_ge {new k i : ℕ} (h : new ≤ 2 ^ k * i) : new ≤ doubled new k i := by
  induction k generalizing i with
  | zero => simpa [doubled] using h
  | succ k ih =>
    rw [doubled]
    split_ifs with hlt
    · refine ih (h.trans_eq ?_)
      rw [Nat.pow_succ, Nat.mul_assoc]
    · exact not_lt.1 hlt

/-- Sizes stay powers of 2 up to `PAGEMAP_ENTRIES` and multiples of it. -/
theorem doubled_multiple (new k : ℕ) {i : ℕ} (h : i ∣ pagemapEntries ∨ pagemapEntries ∣ i) :
    doubled new k i ∣ pagemapEntries ∨ pagemapEntries ∣ doubled new k i := by
  induction k generalizing i with
  | zero => exact h
  | succ k ih =>
    rw [doubled]
    split_ifs
    · refine ih ?_
      unfold pagemapEntries at *
      rcases h with ⟨c, hc⟩ | h
      · have hi : i ≤ 64 := Nat.le_of_dvd (by decide) ⟨c, hc⟩
        interval_cases i <;> omega
      · exact .inr (h.mul_left 2)
    · exact h

theorem roundup_ge (n : ℕ) : n ≤ roundupToPagemap n := by
  unfold roundupToPagemap pagemapEntries
  omega

theorem le_newSize {old new : ℕ} (h : 0 < old) : new ≤ newSize old new := by
  unfold newSize
  split_ifs with hnew
  · refine doubled_ge (hnew.trans ?_)
    unfold maxDoubled atop pageSize
    omega
  · exact roundup_ge new

/-- A size of two levels is a multiple of `PAGEMAP_ENTRIES`. -/
theorem indirectEntries_newSize {old new : ℕ} (h : old ∣ pagemapEntries ∨ pagemapEntries ∣ old)
    (hlarge : pagemapEntries < newSize old new) :
    indirectEntries (newSize old new) * pagemapEntries = newSize old new := by
  have hdvd : pagemapEntries ∣ newSize old new := by
    unfold newSize at hlarge ⊢
    split_ifs at hlarge ⊢
    · rcases doubled_multiple new 10 h with hd | hd
      · have := Nat.le_of_dvd (by decide) hd
        omega
      · exact hd
    · exact Nat.dvd_mul_left _ _
  obtain ⟨c, hc⟩ := hdvd
  rw [hc]
  unfold indirectEntries
  unfold pagemapEntries at *
  omega

end Sizes

section Lists

variable {β : Type} {l : List β} {n i j : ℕ} {x : β}

theorem getD_resize : (resize l n x).getD i x = if i < n then l.getD i x else x := by
  unfold resize
  simp only [List.getD_eq_getElem?_getD, List.getElem?_append, List.length_take, List.getElem?_take,
    List.getElem?_replicate]
  split_ifs <;> first | rfl | simp_all

theorem getD_modify_map (ms : List (Option β)) (F : β → β) :
    (ms.modify i (Option.map F)).getD j none = if i = j then (ms.getD j none).map F
    else ms.getD j none := by
  simp only [List.getD_eq_getElem?_getD, List.getElem?_modify]
  split_ifs
  · cases ms[j]? <;> rfl
  · cases ms[j]? <;> rfl

end Lists

namespace BlockMap

variable {m : BlockMap} {f g n : ℕ} {b : DpMap} {es : List DpMap} {hd : es.length ∣ pagemapEntries}
  {ms : List (Option PageMap)} {hi : 1 < ms.length}

section Equations

theorem size_direct : (direct es hd).size = es.length := rfl

theorem size_indirect : (indirect ms hi).size = ms.length * pagemapEntries := rfl

theorem get_direct : (direct es hd).get f = es.getD f noBlock := rfl

theorem get_indirect :
    (indirect ms hi).get f = entryIn (ms.getD (f / pagemapEntries) none) (f % pagemapEntries) := rfl

theorem entryIn_freshMap (i : ℕ) : entryIn (some freshMap) i = noBlock := by
  simp only [entryIn, freshMap, List.getD_eq_getElem?_getD, List.getElem?_replicate]
  split_ifs <;> rfl

theorem size_pos (m : BlockMap) : 0 < m.size := by
  cases m with
  | direct es h => exact Nat.pos_of_dvd_of_pos h (by decide)
  | indirect ms h => exact Nat.mul_pos (by omega) (by decide)

theorem get_of_size_le (h : m.size ≤ f) : m.get f = noBlock := by
  cases m with
  | direct es hd =>
    rw [size_direct] at h
    rw [get_direct, List.getD_eq_getElem?_getD, List.getElem?_eq_none h, Option.getD_none]
  | indirect ms hi =>
    have hlen : ms.length ≤ f / pagemapEntries := (Nat.le_div_iff_mul_le (by decide)).2 h
    rw [get_indirect, List.getD_eq_getElem?_getD, List.getElem?_eq_none hlen, Option.getD_none,
      entryIn]

theorem mem_pages_direct : f ∈ (direct es hd).pages ↔ f < es.length := List.mem_range

theorem mem_pages_indirect :
    f ∈ (indirect ms hi).pages ↔ (ms.getD (f / pagemapEntries) none).isSome := by
  unfold pages
  simp only [List.mem_flatMap, List.mem_range]
  constructor
  · rintro ⟨i, hi, hf⟩
    split_ifs at hf with hsome
    · obtain ⟨j, hj, rfl⟩ := List.mem_map.1 hf
      have hj' := List.mem_range.1 hj
      have hdiv : (i * pagemapEntries + j) / pagemapEntries = i := by
        unfold pagemapEntries at *
        omega
      rw [hdiv]
      exact hsome
    · simp at hf
  · intro hsome
    refine ⟨f / pagemapEntries, ?_, ?_⟩
    · by_contra hge
      rw [List.getD_eq_getElem?_getD, List.getElem?_eq_none (not_lt.1 hge)] at hsome
      simp at hsome
    · rw [if_pos hsome, List.mem_map]
      refine ⟨f % pagemapEntries, List.mem_range.2 (Nat.mod_lt _ (by decide)), ?_⟩
      exact Nat.div_add_mod' f pagemapEntries

theorem nodup_pages (m : BlockMap) : m.pages.Nodup := by
  cases m with
  | direct es hd => exact List.nodup_range
  | indirect ms hi =>
    refine List.nodup_flatMap.2 ⟨fun i _ => ?_, ?_⟩
    · split_ifs
      · exact List.nodup_range.map fun a b hab => Nat.add_left_cancel hab
      · exact List.nodup_nil
    · refine List.nodup_range.imp fun {i j} hij => ?_
      intro f hf hf'
      refine hij ?_
      have hpage : ∀ k, f ∈ (if (ms.getD k none).isSome then
          (List.range pagemapEntries).map (k * pagemapEntries + ·) else []) →
            k = f / pagemapEntries := by
        intro k hk
        split_ifs at hk
        · obtain ⟨l, hl, rfl⟩ := List.mem_map.1 hk
          have hl' := List.mem_range.1 hl
          unfold pagemapEntries at *
          omega
        · simp at hk
      rw [hpage i hf, hpage j hf']

theorem lt_size_of_get (h : m.get f ≠ noBlock) : f < m.size := by
  by_contra hge
  exact h (get_of_size_le (not_lt.1 hge))

theorem mem_pages_of_get (h : m.get f ≠ noBlock) : f ∈ m.pages := by
  cases m with
  | direct es hd => exact mem_pages_direct.2 (lt_size_of_get h)
  | indirect ms hi =>
    rw [mem_pages_indirect]
    rw [get_indirect] at h
    cases hm : ms.getD (f / pagemapEntries) none with
    | none =>
      rw [hm] at h
      exact absurd rfl h
    | some m => rfl

end Equations

section Touch

@[simp] theorem size_touch : (m.touch f).size = m.size := by
  cases m with
  | direct es hd => rfl
  | indirect ms hi => exact congrArg (· * pagemapEntries) List.length_set

@[simp] theorem get_touch : (m.touch f).get g = m.get g := by
  cases m with
  | direct es hd => rfl
  | indirect ms hi =>
    rw [touch, get_indirect, get_indirect]
    simp only [List.getD_eq_getElem?_getD, List.getElem?_set]
    by_cases hfg : f / pagemapEntries = g / pagemapEntries
    · rw [if_pos hfg, hfg]
      by_cases hlt : g / pagemapEntries < ms.length
      · rw [if_pos hlt, Option.getD_some]
        cases hm : (ms[g / pagemapEntries]?).getD none with
        | some m => rfl
        | none => exact entryIn_freshMap _
      · rw [if_neg hlt, List.getElem?_eq_none (not_lt.1 hlt)]
    · rw [if_neg hfg]

theorem mem_pages_touch (h : f < m.size) : f ∈ (m.touch f).pages := by
  cases m with
  | direct es hd => exact mem_pages_direct.2 h
  | indirect ms hi =>
    have hlt : f / pagemapEntries < ms.length := (Nat.div_lt_iff_lt_mul (by decide)).2 h
    rw [touch, mem_pages_indirect, List.getD_eq_getElem?_getD, List.getElem?_set_self hlt]
    rfl

end Touch

section Put

@[simp] theorem size_put : (m.put f b).size = m.size := by
  cases m with
  | direct es hd => exact List.length_set
  | indirect ms hi => exact congrArg (· * pagemapEntries) (List.length_modify _ _ _)

theorem entryIn_set (m : PageMap) {i j : ℕ} (hi : i < pagemapEntries) :
    entryIn (some (m.set i b)) j = if i = j then b else entryIn (some m) j := by
  have hlt : i < m.1.length := hi.trans_eq m.2.symm
  simp only [entryIn, PageMap.set, List.getD_eq_getElem?_getD, List.getElem?_set, hlt, if_true]
  split_ifs <;> rfl

theorem get_put (h : f ∈ m.pages) : (m.put f b).get g = if f = g then b else m.get g := by
  cases m with
  | direct es hd =>
    rw [mem_pages_direct] at h
    rw [put, get_direct, get_direct]
    simp only [List.getD_eq_getElem?_getD, List.getElem?_set, if_pos h]
    split_ifs <;> rfl
  | indirect ms hi =>
    rw [mem_pages_indirect] at h
    rw [put, get_indirect, get_indirect, getD_modify_map]
    by_cases hfg : f / pagemapEntries = g / pagemapEntries
    · have heq : f = g ↔ f % pagemapEntries = g % pagemapEntries := by
        rw [Bitmap.eq_iff_div_mod (w := pagemapEntries), and_iff_right hfg]
      obtain ⟨m, hm⟩ := Option.isSome_iff_exists.1 h
      rw [if_pos hfg, ← hfg, hm, Option.map_some, entryIn_set m (Nat.mod_lt _ (by decide))]
      simp only [heq]
    · have hne : f ≠ g := fun h => hfg (by rw [h])
      rw [if_neg hne, if_neg hfg]

@[simp] theorem mem_pages_put : g ∈ (m.put f b).pages ↔ g ∈ m.pages := by
  cases m with
  | direct es hd => rw [put, mem_pages_direct, mem_pages_direct, List.length_set]
  | indirect ms hi =>
    rw [put, mem_pages_indirect, mem_pages_indirect, getD_modify_map]
    split_ifs
    · rw [Option.isSome_map]
    · rfl

end Put

section Extend

theorem lt_size_indirect (h : 1 < ms.length) : pagemapEntries < ms.length * pagemapEntries := by
  unfold pagemapEntries
  omega

theorem size_extend : (m.extend n).size = newSize m.size n := by
  cases m with
  | indirect ms hi =>
    rw [extend, size_indirect, size_indirect, length_resize]
    exact indirectEntries_newSize (.inr (Nat.dvd_mul_left _ _))
      (newSize_large (lt_size_indirect hi))
  | direct es hd =>
    rw [extend, size_direct]
    split_ifs with hn
    · have hlarge := lt_indirectEntries hn
      rw [size_indirect, List.length_cons, List.length_replicate, Nat.sub_add_cancel hlarge.le]
      exact indirectEntries_newSize (.inl hd) hn
    · rw [size_direct, length_resize]

/-- A direct map, when it has become the first of the second level. -/
theorem get_firstLevel (hle : es.length ≤ pagemapEntries) {k : ℕ}
    {h : 1 < (some (firstLevel es) :: List.replicate k none).length} :
    (indirect (some (firstLevel es) :: List.replicate k none) h).get f = es.getD f noBlock := by
  rw [get_indirect]
  rcases Nat.lt_or_ge f pagemapEntries with hlt | hge
  · rw [Nat.div_eq_of_lt hlt, Nat.mod_eq_of_lt hlt, List.getD_cons_zero, entryIn, firstLevel,
      getD_resize, if_pos hlt]
  · -- the other maps of the second level are not there
    obtain ⟨i, hi⟩ : ∃ i, f / pagemapEntries = i + 1 :=
      Nat.exists_eq_succ_of_ne_zero (Nat.div_pos hge (by decide)).ne'
    rw [hi, List.getD_cons_succ]
    simp only [List.getD_eq_getElem?_getD, List.getElem?_replicate,
      List.getElem?_eq_none (hle.trans hge), Option.getD_none]
    split_ifs <;> rfl

theorem get_extend : (m.extend n).get f = if f < newSize m.size n then m.get f else noBlock := by
  split_ifs with hf
  · cases m with
    | indirect ms hi =>
      rw [size_indirect] at hf
      have hlt : f / pagemapEntries < indirectEntries (newSize (ms.length * pagemapEntries) n) := by
        rw [Nat.div_lt_iff_lt_mul (by decide), indirectEntries_newSize (.inr (Nat.dvd_mul_left _ _))
          (newSize_large (lt_size_indirect hi))]
        exact hf
      rw [extend, get_indirect, get_indirect, getD_resize, if_pos hlt]
    | direct es hd =>
      rw [size_direct] at hf
      rw [extend]
      split_ifs with hn
      · exact get_firstLevel (Nat.le_of_dvd (by decide) hd)
      · rw [get_direct, get_direct, getD_resize, if_pos hf]
  · exact get_of_size_le (by rw [size_extend]; exact not_lt.1 hf)

theorem lt_size_extendFor : f < (extendFor m f).size := by
  unfold extendFor
  split_ifs with h
  · rw [size_extend]
    exact le_newSize m.size_pos
  · exact not_le.1 h

theorem size_le_extendFor : m.size ≤ (extendFor m f).size := by
  unfold extendFor
  split_ifs with h
  · have hle : f + 1 ≤ newSize m.size (f + 1) := le_newSize m.size_pos
    rw [size_extend]
    omega
  · exact le_rfl

@[simp] theorem get_extendFor : (extendFor m f).get g = m.get g := by
  unfold extendFor
  split_ifs with h
  · rw [get_extend]
    split_ifs with hg
    · rfl
    · have hle : f + 1 ≤ newSize m.size (f + 1) := le_newSize m.size_pos
      exact (get_of_size_le (by omega)).symm
  · rfl

theorem size_fresh (n : ℕ) : (fresh n).size = newSize 1 n := by
  unfold fresh
  split_ifs with hn
  · rw [size_indirect, List.length_replicate]
    exact indirectEntries_newSize (.inl (one_dvd _)) hn
  · rw [size_direct, List.length_replicate]

@[simp] theorem get_fresh : (fresh n).get f = noBlock := by
  unfold fresh
  split_ifs
  · rw [get_indirect]
    simp only [List.getD_eq_getElem?_getD, List.getElem?_replicate]
    split_ifs <;> rfl
  · rw [get_direct]
    simp only [List.getD_eq_getElem?_getD, List.getElem?_replicate]
    split_ifs <;> rfl

end Extend

end BlockMap

end XMach.DefaultPager
