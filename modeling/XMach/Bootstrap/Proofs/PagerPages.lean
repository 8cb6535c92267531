import XMach.Bootstrap.Proofs.BlockMap
import Mathlib.Algebra.Ring.Nat

/-!
# The pages that the default pager reports

`pager_pages` finds every page that has a block, and its count is the one of `pager_allocated`. The
offset is moved outside of the loop over a map, so all the pages of one map are given the same
offset, and the next map comes a page later. What is stored is right for a page exactly if it is the
first of its map and there is no map before.
-/

namespace XMach.DefaultPager

open Function

/-- The pages that have a block, from the lowest on. -/
def BlockMap.allocated (m : BlockMap) : List ℕ :=
  (List.range m.size).filter fun f => m.get f ≠ noBlock

/-- The count is right, the offsets of the lowest pages are stored in ascending order, and the other
routines that look into the map agree. -/
structure PagesRight (pager : Dpager) (numpages : ℕ) : Prop where
  actual : (pagerPages pager numpages).actual = pager.map.allocated.length
  pages : (pagerPages pager numpages).pages = (pager.map.allocated.take numpages).map ptoa
  ascending : (pagerPages pager numpages).pages.Pairwise (· < ·)
  allocated : pagerAllocated pager = ptoa (pagerPages pager numpages).actual
  reads : ∀ f < pager.map.size, ∃ block, pagerReadOffset pager (BitVec.ofNat 32 (ptoa f)) =
    .ok block ∧ (block ≠ noBlock ↔ f ∈ pager.map.allocated)

/-- The page is the first of its map, and no map comes before. -/
def BlockMap.Leads : BlockMap → ℕ → Prop
  | direct _ _, f => f = 0
  | indirect ms _, f => f % pagemapEntries = 0 ∧ ∀ i < f / pagemapEntries, ms.getD i none = none

section Loops

variable {numpages offset : ℕ} {es : List DpMap} {ms : List (Option PageMap)}

/-- What is found when the offsets of a list of pages have been passed on. -/
def foundOf (numpages : ℕ) (offsets : List ℕ) : Found := ⟨offsets.length, offsets.take numpages⟩

theorem foundOf_nil : foundOf numpages [] = ⟨0, []⟩ := by
  rw [foundOf, List.take_nil, List.length_nil]

theorem foundOf_add (offsets : List ℕ) :
    (foundOf numpages offsets).add numpages offset = foundOf numpages (offsets ++ [offset]) := by
  unfold foundOf Found.add
  rw [List.length_append, List.length_singleton, List.take_append]
  split_ifs with hroom
  · have hlen : 0 < numpages - offsets.length := Nat.sub_pos_of_lt hroom
    rw [List.take_of_length_le (l := [offset]) hlen]
  · rw [Nat.sub_eq_zero_of_le (not_lt.1 hroom), List.take_zero, List.append_nil]

/-- The pages of a map that have a block. -/
def blocksOf (es : List DpMap) : List ℕ := (List.range es.length).filter fun f =>
    es.getD f noBlock ≠ noBlock

theorem blocksOf_cons (e : DpMap) (es : List DpMap) :
    blocksOf (e :: es) = (if e = noBlock then [] else [0]) ++ (blocksOf es).map Nat.succ := by
  unfold blocksOf
  rw [List.length_cons, List.range_succ_eq_map, List.filter_cons, List.filter_map]
  by_cases he : e = noBlock
  · simp [he, comp_def]
  · simp [he, comp_def]

theorem pagesIn_eq (offsets : List ℕ) :
    pagesIn numpages offset es (foundOf numpages offsets)
      = foundOf numpages (offsets ++ (blocksOf es).map fun _ => offset) := by
  induction es generalizing offsets with
  | nil => simp [pagesIn, blocksOf]
  | cons e es ih =>
    rw [pagesIn, blocksOf_cons]
    split_ifs with he
    · rw [ih, List.nil_append, List.map_map]
      rfl
    · rw [foundOf_add, ih, List.append_assoc, List.map_append, List.map_map]
      rfl

theorem allocatedIn_eq (n : ℕ) : allocatedIn es n = n + (blocksOf es).length := by
  induction es generalizing n with
  | nil => rfl
  | cons e es ih =>
    rw [allocatedIn, ih, blocksOf_cons, List.length_append, List.length_map]
    split_ifs
    · rw [List.length_nil, Nat.zero_add]
    · rw [List.length_singleton, Nat.add_assoc]

/-- The pages of second-level maps that have a block. -/
def blocksOfAll (ms : List (Option PageMap)) : List ℕ :=
  (List.range (ms.length * pagemapEntries)).filter fun f =>
    entryIn (ms.getD (f / pagemapEntries) none) (f % pagemapEntries) ≠ noBlock

theorem nextMap (f : ℕ) : (pagemapEntries + f) / pagemapEntries = f / pagemapEntries + 1 := by
  rw [Nat.add_comm, Nat.add_div_right _ (by decide)]

theorem blocksOfAll_cons (m : Option PageMap) (ms : List (Option PageMap)) :
    blocksOfAll (m :: ms)
      = ((List.range pagemapEntries).filter fun f => entryIn m f ≠ noBlock)
        ++ (blocksOfAll ms).map (pagemapEntries + ·) := by
  have hlen : (m :: ms).length * pagemapEntries = pagemapEntries + ms.length * pagemapEntries := by
    rw [List.length_cons, Nat.succ_mul, Nat.add_comm]
  unfold blocksOfAll
  rw [hlen, List.range_add, List.filter_append, List.filter_map]
  refine congrArg₂ (· ++ ·) (List.filter_congr fun f hf => ?_)
    (congrArg _ (List.filter_congr fun f _ => ?_))
  · have hlt : f < pagemapEntries := List.mem_range.1 hf
    rw [Nat.div_eq_of_lt hlt, Nat.mod_eq_of_lt hlt, List.getD_cons_zero]
  · rw [comp_apply, nextMap, Nat.add_mod_left, List.getD_cons_succ]

theorem blocksOf_pageMap (m : PageMap) :
    ((List.range pagemapEntries).filter fun f => entryIn (some m) f ≠ noBlock) = blocksOf m.1 := by
  unfold blocksOf
  rw [m.2]
  rfl

theorem filter_entryIn_none :
    ((List.range pagemapEntries).filter fun f => entryIn none f ≠ noBlock) = [] := by
  rw [List.filter_eq_nil_iff]
  intro f _
  simp [entryIn]

/-- How many pages the offset has been moved by before it comes to a map. -/
def pagesBefore : List (Option PageMap) → ℕ → ℕ
  | [], _ => 0
  | _ :: _, 0 => 0
  | none :: ms, i + 1 => pagemapEntries + pagesBefore ms i
  | some _ :: ms, i + 1 => 1 + pagesBefore ms i

theorem pagesBefore_zero : pagesBefore ms 0 = 0 := by
  cases ms <;> rfl

theorem ptoa_zero : ptoa 0 = 0 := by
  rw [ptoa, Nat.zero_mul, Nat.zero_mod]

theorem nextOffset_ptoa (k n : ℕ) : nextOffset (ptoa k) n = ptoa (k + n) := by
  unfold nextOffset ptoa
  rw [Nat.mod_add_mod, Nat.add_mul, Nat.mul_comm pageSize n]

theorem foldl_pagesStep (k : ℕ) (offsets : List ℕ) :
    (ms.foldl (pagesStep numpages) (ptoa k, foundOf numpages offsets)).2
      = foundOf numpages (offsets ++
        (blocksOfAll ms).map fun f => ptoa (k + pagesBefore ms (f / pagemapEntries))) := by
  induction ms generalizing k offsets with
  | nil => simp [blocksOfAll]
  | cons m ms ih =>
    rw [List.foldl_cons, blocksOfAll_cons]
    cases m with
    | none =>
      rw [pagesStep, nextOffset_ptoa, ih, filter_entryIn_none, List.nil_append, List.map_map]
      simp only [comp_def, nextMap, pagesBefore, Nat.add_assoc]
    | some m =>
      have hfirst :
        ((blocksOf m.1).map fun f => ptoa (k + pagesBefore (some m :: ms) (f / pagemapEntries)))
          = (blocksOf m.1).map fun _ => ptoa k := by
        refine List.map_congr_left fun f hf => ?_
        have hlt : f < pagemapEntries := by
          rw [← m.2]
          exact List.mem_range.1 (List.mem_filter.1 hf).1
        rw [Nat.div_eq_of_lt hlt, pagesBefore_zero, Nat.add_zero]
      rw [pagesStep, nextOffset_ptoa, pagesIn_eq, ih, blocksOf_pageMap, List.map_append, hfirst,
        List.map_map, List.append_assoc]
      simp only [comp_def, nextMap, pagesBefore, Nat.add_assoc]

theorem allocatedInAll_eq (n : ℕ) : allocatedInAll ms n = n + (blocksOfAll ms).length := by
  induction ms generalizing n with
  | nil => rfl
  | cons m ms ih =>
    rw [blocksOfAll_cons, List.length_append, List.length_map]
    cases m with
    | none => rw [allocatedInAll, ih, filter_entryIn_none, List.length_nil, Nat.zero_add]
    | some m => rw [allocatedInAll, allocatedIn_eq, ih, blocksOf_pageMap, Nat.add_assoc]

/-- A map that is not there counts for all of its pages, one that is there only for one. -/
theorem pagesBefore_le (ms : List (Option PageMap)) (i : ℕ) :
    pagesBefore ms i ≤ i * pagemapEntries := by
  induction ms, i using pagesBefore.induct with
  | case1 i => exact Nat.zero_le _
  | case2 m ms => exact Nat.zero_le _
  | case3 ms i ih =>
    rw [pagesBefore, Nat.succ_mul]
    omega
  | case4 m ms i ih =>
    rw [pagesBefore, Nat.succ_mul]
    unfold pagemapEntries at *
    omega

theorem pagesBefore_eq_iff {i : ℕ} (hi : i ≤ ms.length) :
    pagesBefore ms i = i * pagemapEntries ↔ ∀ j < i, ms.getD j none = none := by
  induction ms, i using pagesBefore.induct with
  | case1 i =>
    obtain rfl : i = 0 := Nat.le_zero.1 hi
    simp [pagesBefore]
  | case2 m ms => simp [pagesBefore]
  | case3 ms i ih =>
    rw [pagesBefore, Nat.succ_mul, Nat.add_comm pagemapEntries, Nat.add_right_cancel_iff,
      ih (Nat.le_of_succ_le_succ hi), Nat.forall_lt_succ_left']
    simp
  | case4 m ms i ih =>
    rw [pagesBefore, Nat.succ_mul]
    have hle := pagesBefore_le ms i
    constructor
    · intro h
      unfold pagemapEntries at *
      omega
    · intro h
      have := h 0 (Nat.succ_pos i)
      cases this

end Loops

section Pages

variable {pager : Dpager} {m : BlockMap} {numpages f : ℕ}

/-- The page whose offset is passed on for a page. -/
def BlockMap.toldPage : BlockMap → ℕ → ℕ
  | direct _ _, _ => 0
  | indirect ms _, f => pagesBefore ms (f / pagemapEntries)

theorem BlockMap.toldPage_direct {es : List DpMap} {h : es.length ∣ pagemapEntries} :
    (direct es h).toldPage f = 0 := rfl

theorem BlockMap.toldPage_indirect {ms : List (Option PageMap)} {h : 1 < ms.length} :
    (indirect ms h).toldPage f = pagesBefore ms (f / pagemapEntries) := rfl

theorem pagerPages_eq (pager : Dpager) (numpages : ℕ) :
    pagerPages pager numpages
      = foundOf numpages (pager.map.allocated.map fun f => ptoa (pager.map.toldPage f)) := by
  obtain ⟨m, cur⟩ := pager
  cases m with
  | direct es h =>
    have hloop := @pagesIn_eq numpages 0 es []
    rw [foundOf_nil, List.nil_append] at hloop
    simp only [BlockMap.toldPage_direct, ptoa_zero]
    exact hloop
  | indirect ms h =>
    have hloop := @foldl_pagesStep numpages ms 0 []
    rw [foundOf_nil, List.nil_append, ptoa_zero] at hloop
    simp only [Nat.zero_add] at hloop
    exact hloop

theorem pagerAllocated_eq (pager : Dpager) :
    pagerAllocated pager = ptoa pager.map.allocated.length := by
  obtain ⟨m, cur⟩ := pager
  cases m with
  | direct es h => exact congrArg ptoa ((allocatedIn_eq 0).trans (Nat.zero_add _))
  | indirect ms h => exact congrArg ptoa ((allocatedInAll_eq 0).trans (Nat.zero_add _))

theorem toldPage_le (m : BlockMap) (f : ℕ) : m.toldPage f ≤ f := by
  cases m with
  | direct es h => exact Nat.zero_le f
  | indirect ms h => exact (pagesBefore_le ms _).trans (Nat.div_mul_le_self f pagemapEntries)

/-- The offset of a page is its own exactly if it leads. -/
theorem toldPage_eq_iff (hf : f < m.size) : m.toldPage f = f ↔ m.Leads f := by
  cases m with
  | direct es h => exact eq_comm
  | indirect ms h =>
    have hi : f / pagemapEntries ≤ ms.length :=
      (Nat.div_lt_of_lt_mul (by rw [Nat.mul_comm]; exact hf)).le
    have hle := pagesBefore_le ms (f / pagemapEntries)
    have hdiv := Nat.div_add_mod' f pagemapEntries
    have htold : (BlockMap.indirect ms h).toldPage f = f
        ↔ f % pagemapEntries = 0 ∧ pagesBefore ms (f / pagemapEntries) =
          f / pagemapEntries * pagemapEntries := by
      rw [BlockMap.toldPage_indirect]
      omega
    exact htold.trans (and_congr_right' (pagesBefore_eq_iff hi))

theorem ptoa_of_lt (hf : f < 2 ^ 20) : ptoa f = f * pageSize :=
  Nat.mod_eq_of_lt (by unfold pageSize; omega)

theorem ptoa_lt_ptoa {g : ℕ} (hg : g < 2 ^ 20) (h : f < g) : ptoa f < ptoa g := by
  rw [ptoa_of_lt hg, ptoa_of_lt (h.trans hg)]
  exact Nat.mul_lt_mul_of_pos_right h (by decide)

theorem ptoa_inj {g : ℕ} (hf : f < 2 ^ 20) (hg : g < 2 ^ 20) : ptoa f = ptoa g ↔ f = g := by
  refine ⟨fun h => ?_, fun h => h ▸ rfl⟩
  rcases lt_trichotomy f g with hlt | heq | hlt
  · exact absurd h (ptoa_lt_ptoa hg hlt).ne
  · exact heq
  · exact absurd h (ptoa_lt_ptoa hf hlt).ne'

theorem mem_allocated : f ∈ m.allocated ↔ f < m.size ∧ m.get f ≠ noBlock := by
  unfold BlockMap.allocated
  rw [List.mem_filter, List.mem_range, decide_eq_true_iff]

theorem allocated_pairwise (m : BlockMap) : m.allocated.Pairwise (· < ·) :=
  List.pairwise_lt_range.filter _

/-- `pager_read_offset` gives the entry of a page. -/
theorem pagerReadOffset_ptoa (hsize : pager.map.size ≤ 2 ^ 20) (hf : f < pager.map.size) :
    pagerReadOffset pager (BitVec.ofNat 32 (ptoa f)) = .ok (pager.map.get f) := by
  have hpage : atop (BitVec.ofNat 32 (ptoa f)).toNat = f := by
    rw [ptoa_of_lt (hf.trans_le hsize), BitVec.toNat_ofNat]
    unfold atop pageSize
    omega
  unfold pagerReadOffset
  rw [hpage, if_neg (not_le.2 hf)]

/-- `pager_pages` is right exactly if each page it has room for is the first of its map and has no
map before it. -/
theorem pagerPages_right (hsize : pager.map.size ≤ 2 ^ 20) :
    PagesRight pager numpages ↔ ∀ f ∈ pager.map.allocated.take numpages, pager.map.Leads f := by
  have hlt : ∀ f ∈ pager.map.allocated.take numpages, f < pager.map.size := fun f hf =>
    (mem_allocated.1 (List.mem_of_mem_take hf)).1
  have htold : ∀ f ∈ pager.map.allocated.take numpages,
      (ptoa (pager.map.toldPage f) = ptoa f ↔ pager.map.Leads f) := by
    intro f hf
    have hpage := (hlt f hf).trans_le hsize
    rw [ptoa_inj ((toldPage_le _ f).trans_lt hpage) hpage, toldPage_eq_iff (hlt f hf)]
  have hpages : (pagerPages pager numpages).pages
      = (pager.map.allocated.take numpages).map fun f => ptoa (pager.map.toldPage f) := by
    rw [pagerPages_eq, foundOf, List.map_take]
  constructor
  · intro h f hf
    have heq := hpages.symm.trans h.pages
    exact (htold f hf).1 (List.map_inj_left.1 heq f hf)
  · intro h
    have heq : (pagerPages pager numpages).pages =
      (pager.map.allocated.take numpages).map ptoa := by
      rw [hpages]
      exact List.map_congr_left fun f hf => (htold f hf).2 (h f hf)
    have hactual : (pagerPages pager numpages).actual = pager.map.allocated.length := by
      rw [pagerPages_eq, foundOf, List.length_map]
    refine ⟨hactual, heq, ?_, ?_, fun f hf => ⟨_, pagerReadOffset_ptoa hsize hf, ?_⟩⟩
    · rw [heq, List.pairwise_map]
      refine ((allocated_pairwise pager.map).take).imp_of_mem fun {f g} _ hg hfg => ?_
      exact ptoa_lt_ptoa ((hlt g hg).trans_le hsize) hfg
    · rw [hactual, pagerAllocated_eq]
    · rw [mem_allocated]
      exact ⟨fun hne => ⟨hf, hne⟩, fun hmem => hmem.2⟩

/-- An object of two second-level maps, of which only the second is there. -/
def secondMap (block : DpMap) : Dpager := ⟨((BlockMap.fresh 128).touch 64).put 64 block, 0⟩

/-- The first page of the second map. -/
theorem pagerPages_right_sixtyFour :
    pagerPages (secondMap ⟨5, 0⟩) 8 = ⟨1, [64 * 4096]⟩ ∧ PagesRight (secondMap ⟨5, 0⟩) 8 := by
  refine ⟨by decide, (pagerPages_right (by decide)).2 fun f hf => ?_⟩
  have hpages : (secondMap ⟨5, 0⟩).map.allocated.take 8 = [64] := by decide
  rw [hpages, List.mem_singleton] at hf
  subst hf
  exact ⟨rfl, by decide⟩

/-- Two pages of a map with one level: the offset of both is 0. -/
theorem pagerPages_repeats : ∃ pager : Dpager, pager.map.size ≤ 2 ^ 20 ∧
    pagerPages pager 2 = ⟨2, [0, 0]⟩ ∧ ¬ PagesRight pager 2 := by
  refine ⟨⟨((BlockMap.fresh 2).put 0 ⟨5, 0⟩).put 1 ⟨6, 0⟩, 0⟩, by decide, by decide, fun h => ?_⟩
  have hascending := h.ascending
  revert hascending
  decide

end Pages

section Sizes

variable {m : BlockMap} {new k i f : ℕ}

theorem doubled_le : doubled new k i ≤ max i (2 * new) := by
  induction k generalizing i with
  | zero => exact le_max_left _ _
  | succ k ih =>
    rw [doubled]
    split_ifs with hi
    · exact ih.trans (max_le ((Nat.mul_le_mul_left 2 hi.le).trans (le_max_right _ _))
        (le_max_right _ _))
    · exact le_max_left _ _

theorem newSize_le (hi : i ≤ 2 ^ 20) (hnew : new ≤ 2 ^ 20) : newSize i new ≤ 2 ^ 20 := by
  unfold newSize
  split_ifs with hle
  · refine doubled_le.trans (max_le hi ?_)
    unfold maxDoubled atop pageSize at hle
    omega
  · unfold roundupToPagemap pagemapEntries
    omega

theorem atop_le (offset : BitVec 32) : atop offset.toNat < 2 ^ 20 := by
  have := offset.isLt
  unfold atop pageSize
  omega

/-- A new object has no more pages than 32 bits can address. -/
theorem size_pagerAlloc_le (part : PIndex) (size : BitVec 32) :
    (pagerAlloc part size).map.size ≤ 2 ^ 20 := by
  refine (BlockMap.size_fresh _).trans_le (newSize_le (by decide) (atop_le size).le)

/-- And it does not get more of them when it is extended for an offset. -/
theorem size_extendFor_le (hsize : m.size ≤ 2 ^ 20) (offset : BitVec 32) :
    (extendFor m (atop offset.toNat)).size ≤ 2 ^ 20 := by
  unfold extendFor
  split_ifs
  · rw [BlockMap.size_extend]
    exact newSize_le hsize (atop_le offset)
  · exact hsize

end Sizes

end XMach.DefaultPager
