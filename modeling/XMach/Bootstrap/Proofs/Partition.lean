import XMach.Bootstrap.Proofs.BlockMap
import XMach.Lib.Outcome

/-!
# Partitions

What the operations on partitions do, seen without the locks (`core`), and when they wait (`Good`).
A partition's books say how many of its blocks are free, and no bit is set past its last block, so
that the allocator finds a block below that.
-/

namespace XMach.DefaultPager

open Function

variable {α : Type}

section Slots

variable {parts : Parts α} {part old : Part α} {i j : ℕ}

/-- The partition in a slot. -/
def slot (parts : Parts α) (i : ℕ) : Option (Part α) := parts.getD i none

theorem slot_eq_none (h : parts.length ≤ i) : slot parts i = none := by
  unfold slot
  rw [List.getD_eq_getElem?_getD, List.getElem?_eq_none h, Option.getD_none]

theorem lt_of_slot (h : slot parts i = some part) : i < parts.length := by
  by_contra hge
  rw [slot_eq_none (not_lt.1 hge)] at h
  cases h

theorem slot_set {x : Option (Part α)} (h : i < parts.length) :
    slot (parts.set i x) = update (slot parts) i x := by
  funext j
  unfold slot
  rw [List.getD_eq_getElem?_getD, List.getElem?_set, update_apply]
  by_cases hij : i = j
  · subst hij
    simp [h]
  · rw [if_neg hij, if_neg (Ne.symm hij), List.getD_eq_getElem?_getD]

@[simp] theorem length_setPart : (setPart parts i part).length = parts.length := List.length_set

@[simp] theorem length_lockPart : (lockPart parts i).length = parts.length :=
  List.length_modify _ _ _

theorem slot_setPart (part : Part α) (h : slot parts i = some old) :
    slot (setPart parts i part) = update (slot parts) i (some part) := slot_set (lt_of_slot h)

theorem slot_lockPart (h : slot parts i = some part) :
    slot (lockPart parts i) = update (slot parts) i (some { part with locked := true }) := by
  funext j
  unfold lockPart slot
  rw [getD_modify_map, update_apply]
  by_cases hij : i = j
  · subst hij
    have h' : parts.getD i none = some part := h
    rw [if_pos rfl, if_pos rfl, h', Option.map_some]
  · rw [if_neg hij, if_neg (Ne.symm hij)]

theorem partOf_eq (h : slot parts i = some part) : partOf parts i = .ok part := by
  have h' : parts.getD i none = some part := h
  unfold partOf
  rw [h']

theorem partOf_spec (parts : Parts α) (i : ℕ) :
    Ends (partOf parts i) (fun part => slot parts i = some part)
      fun e => e = .panic ∧ slot parts i = none := by
  unfold partOf slot
  cases h : parts.getD i none with
  | none => exact ⟨rfl, rfl⟩
  | some part => rfl

end Slots

section Core

variable {parts : Parts α} {part old : Part α} {i j : ℕ} {σ : ℕ → Option (Part α)}

def Part.unlock (part : Part α) : Part α := { part with locked := false }

/-- The partitions without their locks. -/
def core (parts : Parts α) (i : ℕ) : Option (Part α) := (slot parts i).map Part.unlock

theorem core_of_slot (h : slot parts i = some part) : core parts i = some part.unlock := by
  unfold core
  rw [h, Option.map_some]

theorem exists_slot_of_core (h : core parts i = some part) :
    ∃ old, slot parts i = some old ∧ old.unlock = part := Option.map_eq_some_iff.1 h

theorem core_update {x : Option (Part α)} {parts' : Parts α}
    (h : slot parts' = update (slot parts) i x) :
    core parts' = update (core parts) i (x.map Part.unlock) := by
  funext j
  unfold core
  rw [h, update_apply, update_apply]
  split_ifs <;> rfl

theorem core_relock (h : slot parts i = some old) (hpart : part.unlock = old.unlock) :
    core (setPart parts i part) = core parts := by
  rw [core_update (slot_setPart _ h), Option.map_some, hpart, ← core_of_slot h, update_eq_self]

theorem core_lockPart (h : slot parts i = some part) : core (lockPart parts i) = core parts := by
  rw [core_update (slot_lockPart h), Option.map_some]
  have : core parts i = some part.unlock := core_of_slot h
  change update (core parts) i (some part.unlock) = _
  rw [← this, update_eq_self]

/-- The partitions that can be used are unlocked, and none is in a slot that does not fit in 8
bits. -/
structure Good (σ : ℕ → Option (Part α)) : Prop where
  unlocked : ∀ i part, σ i = some part → part.goingAway = false → part.locked = false
  small : ∀ i, 255 ≤ i → σ i = none

theorem Good.lt (h : Good σ) (hi : σ i = some part) : i < 255 := by
  by_contra hge
  rw [h.small i (not_lt.1 hge)] at hi
  cases hi

theorem Good.update (h : Good σ) (hi : σ i = some old)
    (hlock : part.goingAway = false → part.locked = false) : Good (update σ i (some part)) := by
  constructor
  · intro j part' hj haway
    rw [update_apply] at hj
    split_ifs at hj
    · cases hj
      exact hlock haway
    · exact h.unlocked j part' hj haway
  · intro j hj
    have hlt := h.lt hi
    rw [update_of_ne (by omega)]
    exact h.small j hj

end Core

section Books

variable {bk : Books} {b : ℕ}

/-- The free blocks are those whose bits are clear, and no bit is set behind the last block. -/
structure BooksWf (bk : Books) : Prop where
  words : bk.bitmap.length = howmany bk.totalSize 32
  tail : ∀ i, bk.totalSize ≤ i → Bitmap.bit bk.bitmap i = false
  count : Bitmap.count bk.bitmap bk.totalSize + bk.free = bk.totalSize
  fits : bk.totalSize < 2 ^ 24

def Books.take (bk : Books) (b : ℕ) : Books :=
  { bk with bitmap := Bitmap.setBit bk.bitmap b, free := bk.free - 1 }

def Books.give (bk : Books) (b : ℕ) : Books :=
  { bk with bitmap := Bitmap.clearBit bk.bitmap b, free := bk.free + 1 }

section

variable (h : BooksWf bk)
include h

theorem BooksWf.lt_words (hb : b < bk.totalSize) : b < bk.bitmap.length * 32 := by
  rw [h.words]
  unfold howmany
  omega

theorem BooksWf.lt_of_bit (hb : Bitmap.bit bk.bitmap b = true) : b < bk.totalSize := by
  by_contra hge
  rw [h.tail b (not_lt.1 hge)] at hb
  cases hb

theorem BooksWf.bit_take (hb : b < bk.totalSize) (j : ℕ) :
    Bitmap.bit (bk.take b).bitmap j = (decide (b = j) || Bitmap.bit bk.bitmap j) :=
  Bitmap.bit_setBit (by decide) (h.lt_words hb)

theorem BooksWf.bit_give (hb : b < bk.totalSize) (j : ℕ) :
    Bitmap.bit (bk.give b).bitmap j = (!decide (b = j) && Bitmap.bit bk.bitmap j) :=
  Bitmap.bit_clearBit (by decide) (h.lt_words hb)

theorem BooksWf.take (hb : b < bk.totalSize) (hclear : Bitmap.bit bk.bitmap b = false)
    (hfree : 0 < bk.free) : BooksWf (bk.take b) := by
  refine ⟨Bitmap.length_setBit.trans h.words, fun i hi => ?_, ?_, h.fits⟩
  · have hle : bk.totalSize ≤ i := hi
    rw [h.bit_take hb, h.tail i hle]
    simp only [Bool.or_false, decide_eq_false_iff_not]
    omega
  · have hcount := Bitmap.count_setBit (by decide) (h.lt_words hb) hb hclear
    have := h.count
    simp only [Books.take]
    omega

theorem BooksWf.give (hset : Bitmap.bit bk.bitmap b = true) : BooksWf (bk.give b) := by
  have hb := h.lt_of_bit hset
  refine ⟨Bitmap.length_clearBit.trans h.words, fun i hi => ?_, ?_, h.fits⟩
  · have hle : bk.totalSize ≤ i := hi
    rw [h.bit_give hb, h.tail i hle, Bool.and_false]
  · have hcount := Bitmap.count_clearBit (by decide) (h.lt_words hb) hb hset
    have := h.count
    simp only [Books.give]
    omega

/-- While a block is free the words of the bitmap are not all full. -/
theorem BooksWf.firstWord_isSome (hfree : 0 < bk.free) : (Bitmap.firstWord bk.bitmap).isSome := by
  rw [Option.isSome_iff_ne_none]
  intro hnone
  obtain ⟨i, hi, hclear⟩ := Bitmap.exists_clear bk.bitmap bk.totalSize (by
    have := h.count
    omega)
  rw [Bitmap.bit_of_firstWord_none (by decide) hnone (h.lt_words hi)] at hclear
  cases hclear

theorem BooksWf.firstClear (hfree : 0 < bk.free) {e bit : ℕ}
    (he : Bitmap.firstWord bk.bitmap = some e)
    (hb : Bitmap.firstBit (Bitmap.word bk.bitmap e) = some bit) :
    e * 32 + bit < bk.totalSize ∧ Bitmap.bit bk.bitmap (e * 32 + bit) = false := by
  obtain ⟨-, hclear, hbefore⟩ := Bitmap.firstClear_spec (by decide) he hb
  refine ⟨?_, hclear⟩
  obtain ⟨i, hi, hic⟩ := Bitmap.exists_clear bk.bitmap bk.totalSize (by
    have := h.count
    omega)
  by_contra hge
  rw [hbefore i (by omega)] at hic
  cases hic

end

theorem booksWf_new (name : List (BitVec 8)) (size : BitVec 32) (data : ℕ → α) :
    BooksWf (newPart name size data).toBooks := by
  refine ⟨List.length_replicate, fun i _ => Bitmap.bit_replicate_zero, ?_, ?_⟩
  · have hzero :
      Bitmap.count (newPart name size data).bitmap (newPart name size data).totalSize = 0 :=
      Bitmap.count_eq_zero fun i _ => Bitmap.bit_replicate_zero
    rw [hzero]
    exact Nat.zero_add _
  · have := size.isLt
    simp only [newPart, atop, pageSize]
    omega

end Books

section Choose

variable {parts : Parts α} {size : ℕ} {curPart : PIndex}

/-- A partition that can be used, with a block free. -/
def Usable (size : ℕ) (part : Part α) : Prop :=
  part.goingAway = false ∧ part.locked = false ∧ size ≤ ptoa part.free

theorem chooseFrom_spec (size : ℕ) (curPart : PIndex) (k : ℕ) (l : Parts α) :
    Ends (chooseFrom size curPart k l)
      (fun o => ∀ i ∈ o, k ≤ i ∧ i ≠ curPart.toNat ∧ ∃ part, slot l (i - k) = some part ∧
      Usable size part)
      fun _ => ∃ j part, slot l j = some part ∧ part.goingAway = false ∧ part.locked = true := by
  induction l generalizing k with
  | nil =>
    intro i hi
    cases hi
  | cons x rest ih =>
    -- the slots behind this one
    have hrest : Ends (chooseFrom size curPart (k + 1) rest)
        (fun o => ∀ i ∈ o, k ≤ i ∧ i ≠ curPart.toNat ∧
          ∃ part, slot (x :: rest) (i - k) = some part ∧ Usable size part)
        fun _ => ∃ j part, slot (x :: rest) j = some part ∧ part.goingAway = false ∧
          part.locked = true := by
      refine (ih (k + 1)).mono (fun o ho i hi => ?_) fun e he => ?_
      · obtain ⟨hle, hne, part, hpart, husable⟩ := ho i hi
        refine ⟨by omega, hne, part, ?_, husable⟩
        obtain ⟨d, rfl⟩ := Nat.exists_eq_add_of_le hle
        rw [show k + 1 + d - k = d + 1 by omega]
        rw [show k + 1 + d - (k + 1) = d by omega] at hpart
        exact hpart
      · obtain ⟨j, part, hj, hpart⟩ := he
        exact ⟨j + 1, part, hj, hpart⟩
    rw [chooseFrom.eq_def]
    simp only
    split_ifs with hcur
    · exact hrest
    · cases x with
      | none => exact hrest
      | some part =>
        simp only
        split_ifs with haway hlock hroom
        · exact hrest
        · exact ⟨0, part, rfl, Bool.eq_false_iff.2 haway, hlock⟩
        · intro i hi
          obtain rfl : k = i := Option.some.inj hi
          refine ⟨le_rfl, hcur, part, ?_, Bool.eq_false_iff.2 haway,
            Bool.eq_false_iff.2 hlock, hroom⟩
          rw [Nat.sub_self]
          rfl
        · exact hrest

/-- What `choose_partition` returns: nothing, or the slot of a partition with room, cut to 8
bits. -/
def Chosen (parts : Parts α) (size : ℕ) (curPart x : PIndex) (parts' : Parts α) : Prop :=
  (x = pIndexInvalid ∧ parts' = parts) ∨
    ∃ i part, slot parts i = some part ∧ Usable size part ∧ i ≠ curPart.toNat ∧
      x = BitVec.ofNat 8 i ∧ parts' = if noPartition curPart then parts else lockPart parts i

theorem choosePartition_spec (parts : Parts α) (size : ℕ) (curPart : PIndex) :
    Ends (choosePartition parts size curPart) (fun r => Chosen parts size curPart r.1 r.2)
      fun _ => ¬ Good (slot parts) := by
  unfold choosePartition
  refine ((chooseFrom_spec size curPart 0 parts).mono (fun o ho => ho) fun e he hgood => ?_).bind
    fun o ho => ?_
  · obtain ⟨j, part, hj, haway, hlock⟩ := he
    rw [hgood.unlocked j part hj haway] at hlock
    cases hlock
  · cases o with
    | none => exact .inl ⟨rfl, rfl⟩
    | some i =>
      obtain ⟨-, hne, part, hpart, husable⟩ := ho i rfl
      exact .inr ⟨i, part, hpart, husable, hne, rfl, rfl⟩

/-- A partition index that is in the list, or invalid. -/
def CurOk (parts : Parts α) (x : PIndex) : Prop := noPartition x ∨ x.toNat < parts.length

variable {x : PIndex} {parts' : Parts α}

section

variable (h : Chosen parts size curPart x parts')
include h

theorem Chosen.core : core parts' = core parts := by
  rcases h with ⟨-, rfl⟩ | ⟨i, part, hpart, -, -, -, rfl⟩
  · rfl
  · split_ifs
    · rfl
    · exact core_lockPart hpart

theorem Chosen.length : parts'.length = parts.length := by
  rcases h with ⟨-, rfl⟩ | ⟨i, part, hpart, -, -, -, rfl⟩
  · rfl
  · split_ifs
    · rfl
    · exact length_lockPart

theorem Chosen.curOk : CurOk parts x := by
  rcases h with ⟨rfl, -⟩ | ⟨i, part, hpart, -, -, rfl, -⟩
  · exact .inl rfl
  · refine .inr (lt_of_le_of_lt ?_ (lt_of_slot hpart))
    rw [BitVec.toNat_ofNat]
    exact Nat.mod_le _ _

end

end Choose

section Pages

variable {parts : Parts α} {pindex : PIndex}

def Part.take (part : Part α) (b : ℕ) : Part α := { part with toBooks := part.toBooks.take b }

def Part.give (part : Part α) (b : ℕ) : Part α := { part with toBooks := part.toBooks.give b }

/-- What `pager_alloc_page` returns. -/
inductive AllocPage (parts : Parts α) (pindex : PIndex) : Option ℕ × Parts α → Prop
  | refused (h : ∀ part, slot parts pindex.toNat = some part → noPartition pindex ∨
    part.goingAway = true) : AllocPage parts pindex (none, parts)
  | full (part : Part α) (h : slot parts pindex.toNat = some part) (hfree : part.free = 0) :
    AllocPage parts pindex (none, setPart parts pindex.toNat part.unlock)
  | taken (part : Part α) (b : ℕ) (h : slot parts pindex.toNat = some part)
    (hindex : ¬ noPartition pindex)
    (haway : part.goingAway = false) (hfree : 0 < part.free) (hb : b < part.totalSize)
    (hclear : Bitmap.bit part.bitmap b = false) :
    AllocPage parts pindex (some b, setPart parts pindex.toNat (part.take b).unlock)

/-- `pager_alloc_page` never panics, and a block that it returns is below `total_size`. -/
theorem pagerAllocPage_spec (lockIt : Bool)
    (hwf : ∀ i part, slot parts i = some part → BooksWf part.toBooks) (hcur : CurOk parts pindex) :
    Ends (pagerAllocPage parts pindex lockIt) (AllocPage parts pindex) fun e => e = .wait ∧
    lockIt = true ∧
      ∃ part, slot parts pindex.toNat = some part ∧ part.goingAway = false ∧
      part.locked = true := by
  unfold pagerAllocPage
  split_ifs with hindex
  · exact .refused fun part _ => .inl hindex
  · unfold partitionOf
    rw [if_pos (hcur.resolve_left hindex)]
    have hslot : slot parts pindex.toNat = parts.getD pindex.toNat none := rfl
    refine Ends.bind (Q := fun o => o = slot parts pindex.toNat) hslot.symm fun o ho => ?_
    cases o with
    | none =>
      refine .refused fun part hpart => ?_
      rw [← ho] at hpart
      cases hpart
    | some part =>
      have hpart : slot parts pindex.toNat = some part := ho.symm
      have hbooks := hwf _ _ hpart
      have hwords : part.bitmap.take (howmany part.totalSize 32) = part.bitmap := by
        rw [← hbooks.words, List.take_length]
      simp only [hwords]
      split_ifs with haway hlock hfree
      · refine .refused fun part' hpart' => ?_
        rw [hpart] at hpart'
        cases hpart'
        exact .inr haway
      · exact ⟨rfl, hlock.1, part, hpart, Bool.eq_false_iff.2 haway, hlock.2⟩
      · exact .full part hpart hfree
      · have hpos : 0 < part.free := Nat.pos_of_ne_zero hfree
        obtain ⟨e, he⟩ := Option.isSome_iff_exists.1 (hbooks.firstWord_isSome hpos)
        obtain ⟨bit, hbit⟩ := Option.isSome_iff_exists.1 (Bitmap.firstBit_isSome he)
        obtain ⟨hb, hclear⟩ := hbooks.firstClear hpos he hbit
        rw [he]
        simp only [hbit]
        exact .taken part (e * 32 + bit) hpart hindex (Bool.eq_false_iff.2 haway) hpos hb hclear

/-- What `pager_dealloc_page` does with a block of the partition. -/
theorem pagerDeallocPage_spec (parts : Parts α) (pindex : PIndex) (page : ℕ) (lockIt : Bool) :
    Ends (pagerDeallocPage parts pindex page lockIt)
      (fun parts' => ∃ part, slot parts pindex.toNat = some part ∧ page < part.totalSize ∧
        parts' = setPart parts pindex.toNat (part.give page))
      fun _ => ∀ part, slot parts pindex.toNat = some part → ¬ noPartition pindex →
        page < part.totalSize → lockIt = true ∧ part.locked = true := by
  unfold pagerDeallocPage
  split_ifs with hindex
  · exact fun part _ hnot => absurd hindex hnot
  · refine ((partOf_spec parts pindex.toNat).mono (fun part hpart => hpart) fun e he part hpart =>
      ?_).bind
      fun part hpart => ?_
    · rw [he.2] at hpart
      cases hpart
    · split_ifs with hpage hlock
      · intro part' hpart' _ hlt
        rw [hpart] at hpart'
        cases hpart'
        omega
      · intro part' hpart' _ _
        rw [hpart] at hpart'
        cases hpart'
        exact hlock
      · exact ⟨part, hpart, not_le.1 hpage, rfl⟩

end Pages

section Room

variable {parts parts' : Parts α} {x curPart : PIndex} {b : ℕ} {G : Prop} {r : Option ℕ × Parts α}

/-- A block was taken from a partition that is not going away. -/
def TakenFrom (parts : Parts α) (x : PIndex) (b : ℕ) (parts' : Parts α) : Prop :=
  ¬ noPartition x ∧ ∃ part, core parts x.toNat = some part ∧ part.goingAway = false ∧
    0 < part.free ∧ b < part.totalSize ∧ Bitmap.bit part.bitmap b = false ∧
    core parts' = update (core parts) x.toNat (some (part.take b))

/-- The books of all partitions are right. -/
def PartsWf (parts : Parts α) : Prop := ∀ i part, core parts i = some part → BooksWf part.toBooks

theorem PartsWf.slot (h : PartsWf parts) (i : ℕ) (part : Part α) (hi : slot parts i = some part) :
    BooksWf part.toBooks := h i part.unlock (core_of_slot hi)

theorem AllocPage.none_core (h : AllocPage parts x r) (hr : r.1 = none) :
    core r.2 = core parts := by
  cases h with
  | refused h => rfl
  | full part h hfree => exact core_relock h rfl
  | taken part b h hindex haway hfree hb hclear => cases hr

theorem AllocPage.taken_core (h : AllocPage parts x r) (hr : r.1 = some b) :
    TakenFrom parts x b r.2 := by
  cases h with
  | refused h => cases hr
  | full part h hfree => cases hr
  | taken part b' h hindex haway hfree hb hclear =>
    cases hr
    refine ⟨hindex, part.unlock, core_of_slot h, haway, hfree, hb, hclear, ?_⟩
    exact core_update (slot_setPart _ h)

theorem AllocPage.exists_part (h : AllocPage parts x r) (hr : r.1 = some b) :
    ∃ part, slot parts x.toNat = some part ∧ b < part.totalSize := by
  cases h with
  | refused h => cases hr
  | full part h hfree => cases hr
  | taken part b' h hindex haway hfree hb hclear =>
    cases hr
    exact ⟨part, h, hb⟩

theorem AllocPage.length (h : AllocPage parts x r) : r.2.length = parts.length := by
  cases h with
  | refused h => rfl
  | full part h hfree => exact length_setPart
  | taken part b h hindex haway hfree hb hclear => exact length_setPart

theorem AllocPage.good (h : AllocPage parts x r) (hg : Good (slot parts)) : Good (slot r.2) := by
  cases h with
  | refused h => exact hg
  | full part h hfree =>
    simp only [slot_setPart _ h]
    exact hg.update h fun _ => rfl
  | taken part b h hindex haway hfree hb hclear =>
    simp only [slot_setPart _ h]
    exact hg.update h fun _ => rfl

/-- One partition, which has a block free, is locked. -/
def LockedAt (parts : Parts α) (x : PIndex) : Prop :=
  ¬ noPartition x ∧ ∃ part, slot parts x.toNat = some part ∧ part.goingAway = false ∧
    0 < part.free ∧ Good (update (slot parts) x.toNat (some part.unlock))

theorem Chosen.lockedAt (h : Chosen parts (ptoa 1) curPart x parts') (hg : Good (slot parts))
    (hcur : ¬ noPartition curPart) : (noPartition x ∧ parts' = parts) ∨ LockedAt parts' x := by
  rcases h with ⟨rfl, rfl⟩ | ⟨i, part, hi, ⟨haway, -, hroom⟩, -, rfl, rfl⟩
  · exact .inl ⟨rfl, rfl⟩
  · have hlt := hg.lt hi
    have hnat : (BitVec.ofNat 8 i).toNat = i := by
      rw [BitVec.toNat_ofNat, Nat.mod_eq_of_lt (by omega)]
    rw [if_neg hcur]
    refine .inr ⟨fun hno => ?_, { part with locked := true }, ?_, haway, ?_, ?_⟩
    · have : (BitVec.ofNat 8 i).toNat = 255 := congrArg BitVec.toNat hno
      omega
    · rw [hnat, slot_lockPart hi, update_self]
    · by_contra hfree
      have hzero : part.free = 0 := by
        simp only [not_lt, Nat.le_zero] at hfree
        exact hfree
      rw [hzero] at hroom
      exact absurd hroom (by decide)
    · rw [hnat, slot_lockPart hi, update_idem]
      exact hg.update hi fun _ => rfl

theorem AllocPage.of_lockedAt (h : AllocPage parts x r) (hl : LockedAt parts x) :
    r.1.isSome ∧ Good (slot r.2) := by
  obtain ⟨hx, part, hpart, haway, hfree, hgood⟩ := hl
  cases h with
  | refused h =>
    rcases h part hpart with hno | hno
    · exact absurd hno hx
    · rw [haway] at hno
      cases hno
  | full part' h hzero =>
    rw [hpart] at h
    cases h
    omega
  | taken part' b h hindex haway' hfree' hb hclear =>
    refine ⟨rfl, ?_⟩
    simp only [slot_setPart _ h]
    rw [← update_idem (a := x.toNat) (v := some part.unlock)]
    exact hgood.update (update_self ..) fun _ => rfl

theorem TakenFrom.partsWf (h : TakenFrom parts x b parts') (hwf : PartsWf parts) :
    PartsWf parts' := by
  obtain ⟨-, part, hpart, -, hfree, hb, hclear, hcore⟩ := h
  intro i part' hi
  rw [hcore, update_apply] at hi
  split_ifs at hi
  · cases hi
    exact (hwf _ _ hpart).take hb hclear hfree
  · exact hwf i part' hi

/-- What `getRoom` returns: the partitions are the same, or a block was taken. -/
structure Room (G : Prop) (parts : Parts α) (r : Option ℕ × PIndex × Parts α) : Prop where
  length : r.2.2.length = parts.length
  cur : CurOk parts r.2.1
  good : G → Good (slot r.2.2)
  same : r.1 = none → core r.2.2 = core parts
  taken : ∀ b, r.1 = some b → TakenFrom parts r.2.1 b r.2.2

theorem CurOk.congr (h : CurOk parts x) (hlen : parts'.length = parts.length) : CurOk parts' x := by
  unfold CurOk at *
  rw [hlen]
  exact h

theorem TakenFrom.congr {parts₁ : Parts α} (h : TakenFrom parts₁ x b parts')
    (hcore : core parts₁ = core parts) : TakenFrom parts x b parts' := by
  unfold TakenFrom at *
  rw [hcore] at h
  exact h

theorem getRoom_spec (hwf : PartsWf parts) (hcur : CurOk parts curPart)
    (hvalid : ¬ noPartition curPart)
    (hgood : G → Good (slot parts)) : Ends (getRoom parts curPart) (Room G parts) fun _ => ¬ G := by
  unfold getRoom
  refine ((pagerAllocPage_spec _ hwf.slot hcur).mono (fun r hr => hr) ?_).bind ?_
  · rintro e ⟨-, -, part, hpart, haway, hlock⟩ hG
    rw [(hgood hG).unlocked _ _ hpart haway] at hlock
    cases hlock
  rintro ⟨off, parts₁⟩ halloc
  have hlen := halloc.length
  simp only at hlen ⊢
  split_ifs with hsome
  · obtain ⟨b, rfl⟩ := Option.isSome_iff_exists.1 hsome
    refine ⟨hlen, hcur, fun hG => halloc.good (hgood hG), fun hno => ?_, fun b' hb' => ?_⟩
    · cases hno
    · exact halloc.taken_core hb'
  · -- the partition is full, or going away
    have hnone : off = none := by
      cases off with
      | none => rfl
      | some b => exact absurd rfl hsome
    have hcore : core parts₁ = core parts := halloc.none_core hnone
    have hgood₁ : G → Good (slot parts₁) := fun hG => halloc.good (hgood hG)
    refine ((choosePartition_spec parts₁ (ptoa 1) curPart).mono (fun r hr => hr)
      fun e he hG => he (hgood₁ hG)).bind ?_
    rintro ⟨x, parts₂⟩ hchosen
    have hlen₂ := hchosen.length
    have hcore₂ : core parts₂ = core parts := hchosen.core.trans hcore
    simp only at hlen₂ hcore₂ ⊢
    split_ifs with hx
    · refine ⟨hlen₂.trans hlen, hcur, fun hG => ?_, fun _ => hcore₂, fun b hb => by cases hb⟩
      rcases hchosen.lockedAt (hgood₁ hG) hvalid with ⟨-, rfl⟩ | hl
      · exact hgood₁ hG
      · exact absurd hx hl.1
    · have hwf₂ : PartsWf parts₂ := by
        unfold PartsWf
        rw [hcore₂]
        exact hwf
      refine ((pagerAllocPage_spec _ hwf₂.slot (hchosen.curOk.congr hlen₂)).mono (fun r hr => hr)
        ?_).bind ?_
      · rintro e ⟨-, hlock, -⟩
        cases hlock
      rintro ⟨off₂, parts₃⟩ halloc₂
      have hlen₃ := halloc₂.length
      simp only at hlen₃ ⊢
      refine ⟨hlen₃.trans (hlen₂.trans hlen), ?_, fun hG => ?_, fun hno => ?_, fun b hb => ?_⟩
      · exact hchosen.curOk.congr hlen.symm
      · rcases hchosen.lockedAt (hgood₁ hG) hvalid with ⟨hno, -⟩ | hl
        · exact absurd hno hx
        · exact (halloc₂.of_lockedAt hl).2
      · exact (halloc₂.none_core hno).trans hcore₂
      · exact (halloc₂.taken_core hb).congr hcore₂

end Room

end XMach.DefaultPager
