import XMach.Bootstrap.Proofs.Objects
import XMach.Lib.Totals

/-!
# Room for the pages of a partition

`pager_realloc` moves the pages of an object one by one to partitions that `choose_partition` finds.
It comes to its end exactly if the pages of the object on the partition are no more than the blocks
that the others have to spare (`pagerRealloc_room`).
-/

namespace XMach.DefaultPager

open Function

variable {α : Type}

/-- How many blocks of a partition `choose_partition` gives for single pages: `ptoa` of a multiple
of `2 ^ 20` is 0. -/
def spare : Option (Part α) → ℕ
  | none => 0
  | some part => if part.goingAway then 0 else part.free % 2 ^ 20

/-- The room that there is in the other partitions. -/
def room (parts : Parts α) (pindex : ℕ) : ℕ :=
  ∑ i ∈ (Finset.range parts.length).erase pindex, spare (parts.getD i none)

/-- The pages of an object that are in a partition. -/
def pagesOn (map : BlockMap) (pindex : PIndex) : ℕ :=
  map.pages.countP fun f => (map.get f).pIndex = pindex

section Room

variable {parts parts' : Parts α} {part old : Part α} {pindex : PIndex} {i k : ℕ}

theorem ptoa_eq (n : ℕ) : ptoa n = n % 2 ^ 20 * 4096 := by
  unfold ptoa pageSize
  omega

theorem usable_iff (part : Part α) (haway : part.goingAway = false) :
    ptoa 1 ≤ ptoa part.free ↔ 0 < spare (some part) := by
  rw [ptoa_eq, ptoa_eq, spare, if_neg (by rw [haway]; exact Bool.false_ne_true)]
  omega

theorem chooseFrom_none {size : ℕ} (k : ℕ) (l : Parts α) (h : chooseFrom size pindex k l = .ok none)
    (j : ℕ)
    (hj : slot l j = some part) (hne : k + j ≠ pindex.toNat) (haway : part.goingAway = false) :
    ptoa part.free < size := by
  induction l generalizing k j with
  | nil => cases hj
  | cons x rest ih =>
    rw [chooseFrom.eq_def] at h
    simp only at h
    cases j with
    | zero =>
      have hx : x = some part := hj
      subst hx
      rw [if_neg (by rw [← Nat.add_zero k]; exact hne)] at h
      simp only [haway, Bool.false_eq_true, if_false] at h
      split_ifs at h with hlock hroom
      · cases h
      · exact not_le.1 hroom
    | succ j =>
      have hrest : chooseFrom size pindex (k + 1) rest = .ok none := by
        split_ifs at h with hcur
        · exact h
        · cases x with
          | none => exact h
          | some part' =>
            simp only at h
            split_ifs at h with _ _ hroom
            · exact h
            · cases h
            · exact h
      exact ih (k + 1) hrest j hj (by omega)

theorem room_eq (parts : Parts α) (k : ℕ) :
    room parts k = ∑ i ∈ (Finset.range parts.length).erase k, spare (slot parts i) := rfl

/-- One partition changes, and the room by what it has to spare. -/
theorem room_update (hlen : parts'.length = parts.length) (hi : slot parts i = some old)
    (hslot : slot parts' = update (slot parts) i (some part)) (hne : i ≠ k) :
    room parts' k + spare (some old) = room parts k + spare (some part) := by
  have hmem : i ∈ (Finset.range parts.length).erase k :=
    Finset.mem_erase.2 ⟨hne, Finset.mem_range.2 (lt_of_slot hi)⟩
  rw [room_eq, room_eq, hlen, hslot, ← hi]
  exact sum_update hmem (slot parts) (some part) spare

theorem room_update_self (hlen : parts'.length = parts.length) {x : Option (Part α)}
    (hslot : slot parts' = update (slot parts) k x) : room parts' k = room parts k := by
  rw [room_eq, room_eq, hlen]
  refine Finset.sum_congr rfl fun j hj => ?_
  rw [hslot, update_of_ne (Finset.ne_of_mem_erase hj)]

/-- What is done to a partition without a change to what it has to spare. -/
theorem room_congr (hlen : parts'.length = parts.length) (hi : slot parts i = some old)
    (hslot : slot parts' = update (slot parts) i (some part))
    (hspare : spare (some part) = spare (some old)) : room parts' k = room parts k := by
  by_cases hne : i = k
  · subst hne
    exact room_update_self hlen hslot
  · have := room_update hlen hi hslot hne
    omega

theorem spare_take (part : Part α) (b : ℕ) (hpos : 0 < spare (some part)) :
    spare (some (part.take b).unlock) + 1 = spare (some part) := by
  have haway : ¬ part.goingAway = true := by
    intro haway
    rw [spare, if_pos haway] at hpos
    exact absurd hpos (lt_irrefl 0)
  have haway' : ¬ (part.take b).unlock.goingAway = true := haway
  have hfree : (part.take b).unlock.free = part.free - 1 := rfl
  rw [spare, if_neg haway] at hpos
  rw [spare, spare, if_neg haway, if_neg haway', hfree]
  omega

/-- A partition is chosen for a page if there is one with room. -/
theorem choosePartition_room (hgood : Good (slot parts)) (hindex : ¬ noPartition pindex) :
    Ends (choosePartition parts (ptoa 1) pindex)
      (fun r => (noPartition r.1 → room parts pindex.toNat = 0 ∧ r.2 = parts) ∧
        (¬ noPartition r.1 → ∃ part, slot parts r.1.toNat = some part ∧ r.1.toNat ≠ pindex.toNat ∧
          0 < spare (some part) ∧ r.2 = lockPart parts r.1.toNat)) fun _ => True := by
  unfold choosePartition
  refine ((chooseFrom_spec (ptoa 1) pindex 0 parts).with_eq.mono (fun _ hr => hr) fun _ _ =>
    trivial).bind ?_
  rintro o ⟨ho, heq⟩
  cases o with
  | none =>
    refine ⟨fun _ => ⟨Finset.sum_eq_zero fun j hj => ?_, rfl⟩, fun hno => absurd rfl hno⟩
    change spare (slot parts j) = 0
    cases hj' : slot parts j with
    | none => rfl
    | some part =>
      by_cases haway : part.goingAway = true
      · exact if_pos haway
      · have hlt := chooseFrom_none 0 parts heq j hj'
          (by rw [Nat.zero_add]; exact Finset.ne_of_mem_erase hj)
          (Bool.eq_false_iff.2 haway)
        by_contra hpos
        exact absurd ((usable_iff part (Bool.eq_false_iff.2 haway)).2 (Nat.pos_of_ne_zero hpos))
          (not_le.2 hlt)
  | some i =>
    obtain ⟨-, hne, part, hpart, haway, -, hroom⟩ := ho i rfl
    have hpart' : slot parts i = some part := hpart
    have hlt := hgood.lt hpart'
    have hnat : (BitVec.ofNat 8 i).toNat = i := by
      rw [BitVec.toNat_ofNat, Nat.mod_eq_of_lt (by omega)]
    have hvalid : ¬ noPartition (BitVec.ofNat 8 i) := by
      intro hno
      have : (BitVec.ofNat 8 i).toNat = 255 := congrArg BitVec.toNat hno
      omega
    refine ⟨fun hno => absurd hno hvalid, fun _ => ⟨part, ?_, ?_,
      (usable_iff part haway).1 hroom, ?_⟩⟩
    · simp only [hnat]
      exact hpart'
    · simp only [hnat]
      exact hne
    · simp only [hnat]
      exact if_neg hindex

theorem room_allocPage {x : PIndex} {r : Option ℕ × Parts α} {b : ℕ} (h : AllocPage parts x r)
    (hr : r.1 = some b)
    (hne : x.toNat ≠ k) (hpart : slot parts x.toNat = some part) (hpos : 0 < spare (some part)) :
    room r.2 k + 1 = room parts k := by
  cases h with
  | refused h => cases hr
  | full part' h hfree => cases hr
  | taken part' b' h hvalid haway hfree hb hclear =>
    rw [hpart] at h
    cases h
    have hroom := room_update length_setPart hpart (slot_setPart (part.take b').unlock hpart) hne
    have hspare := spare_take part b' hpos
    simp only
    omega

theorem writeBlock_room (parts : Parts α) (block : DpMap) (page : α) (k : ℕ) :
    Ends (writeBlock parts block page) (fun parts' => room parts' k = room parts k) fun _ =>
    True := by
  unfold writeBlock
  refine ((partOf_spec parts block.pIndex.toNat).mono (fun _ hr => hr) fun _ _ => trivial).bind ?_
  intro part hpart
  split_ifs
  · trivial
  · exact room_congr length_setPart hpart (slot_setPart _ hpart) rfl

/-- A page that is moved takes one block of the room, and if there is none it is not moved. -/
theorem pagerMovePage_room (hwf : PartsWf parts) (hgood : Good (slot parts)) {block : DpMap}
    (hindex : ¬ noPartition block.pIndex) :
    Ends (pagerMovePage parts block)
      (fun r => (r.1 = noBlock → room parts block.pIndex.toNat = 0) ∧
        (r.1 ≠ noBlock → room r.2 block.pIndex.toNat + 1 = room parts block.pIndex.toNat))
      fun _ => True := by
  unfold pagerMovePage
  refine (choosePartition_room hgood hindex).with_eq.bind ?_
  rintro ⟨x, parts₁⟩ ⟨⟨hnone, hsome⟩, heq⟩
  have hcur := ((choosePartition_spec parts (ptoa 1) block.pIndex).of_eq heq).curOk
  simp only at hnone hsome hcur ⊢
  split_ifs with hx
  · obtain ⟨hroom, rfl⟩ := hnone hx
    exact ⟨fun _ => hroom, fun hno => absurd rfl hno⟩
  · obtain ⟨part, hpart, hne, hpos, rfl⟩ := hsome hx
    have hlocked : slot (lockPart parts x.toNat) x.toNat = some { part with locked := true } := by
      rw [slot_lockPart hpart, update_self]
    have hroom₁ : room (lockPart parts x.toNat) block.pIndex.toNat =
      room parts block.pIndex.toNat :=
      room_congr length_lockPart hpart (slot_lockPart hpart) rfl
    have hwf₁ : PartsWf (lockPart parts x.toNat) := by
      unfold PartsWf
      rw [core_lockPart hpart]
      exact hwf
    refine ((pagerAllocPage_spec false hwf₁.slot (hcur.congr length_lockPart)).mono (fun _ hr => hr)
      fun _ _ => trivial).bind ?_
    rintro ⟨off, parts₂⟩ halloc
    cases off with
    | none => trivial
    | some b =>
      have hroom₂ := room_allocPage halloc rfl hne hlocked hpos
      simp only at hroom₂ ⊢
      refine Ends.bind (Q := fun _ => True)
        (by cases readBlock parts₂ block <;> trivial) fun page _ => ?_
      refine ((pagerDeallocPage_spec parts₂ _ _ false).mono (fun _ hr => hr) fun _ _ =>
        trivial).bind ?_
      rintro parts₃ ⟨part₃, hpart₃, -, rfl⟩
      have hroom₃ :=
        room_update_self length_setPart (slot_setPart (part₃.give block.pOffset.toNat) hpart₃)
      refine (writeBlock_room _ _ page block.pIndex.toNat).bind fun parts₄ hroom₄ => ?_
      refine ⟨fun hno => absurd hno (ne_noBlock_of_index hx), fun _ => ?_⟩
      simp only
      omega

section Realloc

variable {queue : List ℕ} {blocks : ℕ → ℕ → DpMap} {p : ℕ} {map : BlockMap} {c : ℕ → ℕ → Option α}
  {pager : Dpager}

/-- The loops of `pager_realloc` come to their end exactly if there is room for the pages of the
list that are in the partition. -/
theorem moveAll_room (h : Holds True queue blocks p parts map c) (hp : p ∈ queue)
    (hindex : ¬ noPartition pindex) {fs : List ℕ} (hnodup : fs.Nodup) :
    Ends (moveAll pindex fs map parts)
      (fun r => r.1 = true ↔
        (fs.countP fun f => (map.get f).pIndex = pindex) ≤ room parts pindex.toNat)
      fun _ => True := by
  induction fs generalizing map parts with
  | nil => exact iff_of_true rfl (Nat.zero_le _)
  | cons f fs ih =>
    obtain ⟨hnot, hnodup⟩ := List.nodup_cons.1 hnodup
    rw [moveAll]
    split_ifs with hf
    · have hget : map.get f ≠ noBlock := by
        intro hno
        rw [hno] at hf
        exact hindex (hf ▸ rfl)
      have hroom := pagerMovePage_room h.wf (h.good trivial)
        (show ¬ noPartition (map.get f).pIndex by rw [hf]; exact hindex)
      refine ((pagerMovePage_spec h hp fun _ => hget).with_eq.mono (fun _ hr => hr) fun _ _ =>
        trivial).bind ?_
      rintro ⟨new, parts₁⟩ ⟨hmoved, heq⟩
      obtain ⟨hnone, hsome⟩ := hroom.of_eq heq
      rw [hf] at hnone hsome
      rw [List.countP_cons_of_pos (by simpa using hf)]
      simp only at hnone hsome ⊢
      split_ifs with hnew
      · refine iff_of_false Bool.false_ne_true ?_
        have := hnone hnew
        omega
      · rcases hmoved with ⟨hno, -⟩ | ⟨-, hpages, -, -, hholds⟩
        · exact absurd hno hnew
        · have hrest : (fs.countP fun g => ((map.put f new).get g).pIndex = pindex)
              = fs.countP fun g => (map.get g).pIndex = pindex := by
            refine List.countP_congr fun g hg => ?_
            have hne : f ≠ g := by
              rintro rfl
              exact hnot hg
            rw [BlockMap.get_put hpages, if_neg hne]
          have hone := hsome hnew
          have hloop := ih hholds hnodup
          simp only at hloop hone
          rw [hrest] at hloop
          refine hloop.imp fun r hr => hr.trans ?_
          omega
    · rw [List.countP_cons_of_neg (by simpa using hf)]
      exact ih h hnodup

/-- An object is moved exactly if there is room for its pages. -/
theorem pagerRealloc_room (h : Holds True queue blocks p parts pager.map c) (hp : p ∈ queue)
    (hindex : ¬ noPartition pindex) :
    Ends (pagerRealloc parts pager pindex)
      (fun r => r.1 = true ↔ pagesOn pager.map pindex ≤ room parts pindex.toNat) fun _ => True := by
  unfold pagerRealloc
  refine (moveAll_room h hp hindex (BlockMap.nodup_pages _)).bind ?_
  rintro ⟨ok, map₁, parts₁⟩ hiff
  simp only at hiff ⊢
  split_ifs with hok
  · refine Ends.bind (Q := fun _ => True)
      (by cases choosePartition parts₁ 0 pIndexInvalid <;> trivial) ?_
    exact fun r _ => (iff_of_true rfl hok).trans hiff
  · exact (iff_of_false Bool.false_ne_true hok).trans hiff

end Realloc

end Room

end XMach.DefaultPager
