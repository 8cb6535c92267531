import Mathlib.Data.BitVec
import XMach.Device.Cirbuf
import XMach.Lib.Ring

/-!
# A terminal's queue is a queue

The routines that move several characters do what the ones for a single character do when they are
called so many times (`qToB_eq`, `bToQ_eq`, `ndflush_eq`): a turn of a loop moves the characters up
to where the buffer or its contents end, and the loop goes on from the start of the buffer. So it is
enough that `putc` and `getc` are those of a queue. The count of characters is right as long as it
is one that a `short` can be (`cirbuf_refines`).
-/

namespace XMach.CharQueue

variable {s s' : State} {l : List Character} {n : ℕ}

section Iterate

/-- `getc` is called until it returns -1, but at most so many times. -/
def getcs : ℕ → State → State × List Character
  | 0, s => (s, [])
  | k + 1, s =>
    if (getc s).2 = -1 then (s, [])
    else ((getcs k (getc s).1).1, BitVec.ofInt 8 (getc s).2 :: (getcs k (getc s).1).2)

/-- `putc` is called for each of the characters, with the number of those that are not entered. -/
def putcs : List Character → State → State × ℤ
  | [], s => (s, 0)
  | c :: cs, s =>
    let r := putc (c.signExtend 32) s
    ((putcs cs r.1).1, r.2 + (putcs cs r.1).2)

/-- The pointers are in the buffer. -/
structure InBuffer (cb : Cirbuf) : Prop where
  cfLower : cb.cStart ≤ cb.cCf
  cfUpper : cb.cCf < cb.cEnd
  clLower : cb.cStart ≤ cb.cCl
  clUpper : cb.cCl < cb.cEnd

theorem getc_of_empty (h : s.cb.cCf = s.cb.cCl) : getc s = (s, -1) := if_pos h

theorem getc_of_ne (h : s.cb.cCf ≠ s.cb.cCl) :
    getc s = ({ s with cb := s.cb.skip 1 }, ((s.mem s.cb.cCf).toNat : ℤ)) := if_neg h

theorem getcs_of_empty (h : s.cb.cCf = s.cb.cCl) (k : ℕ) : getcs k s = (s, []) := by
  cases k with
  | zero => rfl
  | succ k => rw [getcs, getc_of_empty h, if_pos rfl]

theorem getcs_succ (h : s.cb.cCf ≠ s.cb.cCl) (k : ℕ) :
    getcs (k + 1) s = ((getcs k { s with cb := s.cb.skip 1 }).1,
      s.mem s.cb.cCf :: (getcs k { s with cb := s.cb.skip 1 }).2) := by
  rw [getcs, getc_of_ne h, if_neg (by dsimp only; omega)]
  rw [BitVec.ofInt_natCast, BitVec.ofNat_toNat, BitVec.setWidth_eq]

/-- The read pointer comes to the end of the buffer with the last of the characters at most. -/
theorem getcs_segment {k : ℕ} (hend : s.cb.cCf + k ≤ s.cb.cEnd)
    (hcl : ∀ j : ℕ, j < k → s.cb.cCf + j ≠ s.cb.cCl) (hpos : 0 < k) :
    getcs k s = ({ s with cb := s.cb.skip k }, (List.range k).map fun j :
    ℕ => s.mem (s.cb.cCf + j)) := by
  induction k generalizing s with
  | zero => omega
  | succ k ih =>
    have hne := hcl 0 hpos
    rw [Int.natCast_zero, add_zero] at hne
    rw [getcs_succ hne, List.range_succ_eq_map, List.map_cons, List.map_map, Int.natCast_zero,
      add_zero]
    rcases Nat.eq_zero_or_pos k with rfl | hk
    · rfl
    · -- the next character is behind this one
      have hcf : (s.cb.skip 1).cCf = s.cb.cCf + 1 := if_neg (by omega)
      have hskip : (s.cb.skip 1).skip k = s.cb.skip (k + 1 : ℕ) := by
        unfold Cirbuf.skip at hcf ⊢
        dsimp only at hcf ⊢
        rw [hcf]
        push_cast
        rw [BitVec.ofInt_add, add_comm (k : ℤ), ← add_assoc, add_comm (BitVec.ofInt 16 (k : ℤ)),
          sub_sub]
        rfl
      have hend' : (s.cb.skip 1).cCf + k ≤ s.cb.cEnd := by
        rw [hcf]
        push_cast at hend
        omega
      have hcl' : ∀ j : ℕ, j < k → (s.cb.skip 1).cCf + j ≠ s.cb.cCl := by
        intro j hj heq
        refine hcl (j + 1) (by omega) ?_
        rw [← heq, hcf]
        push_cast
        omega
      rw [ih (s := { s with cb := s.cb.skip 1 }) hend' hcl' hk]
      dsimp only
      rw [hskip, hcf]
      congr 2
      refine List.map_congr_left fun j _ => ?_
      rw [Function.comp_apply, add_assoc]
      push_cast
      rw [add_comm (1 : ℤ)]

theorem getcs_add {a : ℕ} (b : ℕ) (h : (getcs a s).2.length = a) :
    getcs (a + b) s = ((getcs b (getcs a s).1).1, (getcs a s).2 ++ (getcs b (getcs a s).1).2) := by
  induction a generalizing s with
  | zero => rw [Nat.zero_add, getcs, List.nil_append]
  | succ a ih =>
    have hne : s.cb.cCf ≠ s.cb.cCl := by
      intro heq
      rw [getcs_of_empty heq] at h
      cases h
    rw [getcs_succ hne] at h ⊢
    rw [Nat.add_right_comm, getcs_succ hne, ih (by simpa using h), List.cons_append]

end Iterate

section Read

/-- What a turn of `q_to_b` or of `ndflush` does. -/
theorem readable_spec (h : InBuffer s.cb) (hne : s.cb.cCl ≠ s.cb.cCf) (count : ℤ)
    (hcount : 0 < count) :
    0 < s.cb.readable count ∧ s.cb.readable count ≤ count ∧
    InBuffer (s.cb.skip (s.cb.readable count)) ∧
      getcs (s.cb.readable count).toNat s = ({ s with cb := s.cb.skip (s.cb.readable count) },
        (List.range (s.cb.readable count).toNat).map fun j : ℕ => s.mem (s.cb.cCf + j)) := by
  obtain ⟨h₁, h₂, h₃, h₄⟩ := h
  have hi : 0 < s.cb.readable count ∧ s.cb.readable count ≤ count ∧
      s.cb.cCf + s.cb.readable count ≤ s.cb.cEnd ∧
      (s.cb.cCf < s.cb.cCl → s.cb.cCf + s.cb.readable count ≤ s.cb.cCl) := by
    unfold Cirbuf.readable
    dsimp only
    split_ifs <;> omega
  obtain ⟨hpos, hle, hend, hcl⟩ := hi
  generalize s.cb.readable count = i at hpos hle hend hcl ⊢
  obtain ⟨k, rfl⟩ := Int.eq_ofNat_of_zero_le hpos.le
  refine ⟨hpos, hle, ⟨?_, ?_, h₃, h₄⟩, ?_⟩
  · show s.cb.cStart ≤ if s.cb.cCf + k = s.cb.cEnd then s.cb.cStart else s.cb.cCf + k
    split_ifs <;> omega
  · show (if s.cb.cCf + k = s.cb.cEnd then s.cb.cStart else s.cb.cCf + k) < s.cb.cEnd
    split_ifs <;> omega
  · rw [Int.toNat_natCast]
    exact getcs_segment hend (fun j hj => by omega) (by omega)

theorem qToBFrom_eq {turns : ℕ} (h : InBuffer s.cb) {count : ℤ} (hcount : 0 ≤ count)
    (hturns : count.toNat < turns) : qToBFrom turns s count = some (getcs count.toNat s) := by
  induction turns generalizing s count with
  | zero => omega
  | succ turns ih =>
    unfold qToBFrom
    split
    case isTrue hstop =>
      rcases hstop with rfl | hempty
      · rfl
      · rw [getcs_of_empty hempty.symm]
    case isFalse hgo =>
      obtain ⟨hzero, hne⟩ := not_or.1 hgo
      obtain ⟨hpos, hle, hin, hseg⟩ := readable_spec h hne count (by omega)
      dsimp only
      rw [if_neg (by omega),
        ih (s := { s with cb := s.cb.skip (s.cb.readable count) }) hin (by omega) (by omega)]
      have hsplit : count.toNat =
        (s.cb.readable count).toNat + (count - s.cb.readable count).toNat := by omega
      rw [hsplit, getcs_add _ (by rw [hseg, List.length_map, List.length_range]), hseg]
      rfl

/-- `ndflush` goes through the buffer as `q_to_b` does. -/
theorem ndflushFrom_of_qToBFrom {turns : ℕ} {count : ℤ} {r : State × List Character}
    (h : qToBFrom turns s count = some r) : ndflushFrom turns s count = some r.1 := by
  induction turns generalizing s count r with
  | zero => cases h
  | succ turns ih =>
    unfold qToBFrom at h
    unfold ndflushFrom
    dsimp only at h ⊢
    split_ifs at h ⊢
    · cases h
      rfl
    · obtain ⟨r, hr, rfl⟩ := Option.map_eq_some_iff.1 h
      exact (ih hr).trans rfl

/-- `q_to_b` is `getc`, called so many times. -/
theorem qToB_eq (h : InBuffer s.cb) {count : ℤ} (hcount : 0 ≤ count) :
    qToB s count = some (getcs count.toNat s) :=
  qToBFrom_eq h hcount (Nat.lt_succ_self _)

theorem ndflush_eq (h : InBuffer s.cb) {count : ℤ} (hcount : 0 ≤ count) :
    ndflush s count = some (getcs count.toNat s).1 :=
  ndflushFrom_of_qToBFrom (qToBFrom_eq h hcount (by omega))

end Read

section Write

/-- The write pointer after `putc`. -/
def Cirbuf.nextCl (cb : Cirbuf) (i : ℤ) : ℤ := if cb.cCl + i = cb.cEnd then cb.cStart
    else cb.cCl + i

/-- The buffer when `i` characters have been written side by side. -/
def State.fill (s : State) (cp : ℕ → Character) (i : ℤ) : State :=
  ⟨bcopy s.mem cp s.cb.cCl i, { s.cb with
    cCl := s.cb.nextCl i
    cCc := s.cb.cCc + BitVec.ofInt 16 i }⟩

theorem putc_of_full (c : BitVec 32) (h : s.cb.nextCl 1 = s.cb.cCf) : putc c s = (s, 1) := if_pos h

theorem setWidth_signExtend (c : Character) : (c.signExtend 32).setWidth 8 = c := by
  ext i hi
  simp only [BitVec.getElem_setWidth, BitVec.getLsbD_signExtend]
  rw [if_pos (by omega)]
  simp [show i < 32 by omega, BitVec.getLsbD_eq_getElem hi]

theorem putc_of_ne (cp : ℕ → Character) (h : s.cb.nextCl 1 ≠ s.cb.cCf) :
    putc ((cp 0).signExtend 32) s = (s.fill cp 1, 0) := by
  have hmem : bcopy s.mem cp s.cb.cCl 1 = fun a => if a = s.cb.cCl then cp 0 else s.mem a := by
    funext a
    unfold bcopy
    by_cases ha : a = s.cb.cCl
    · rw [if_pos ha, if_pos (by omega), ha, sub_self]
      rfl
    · rw [if_neg ha, if_neg (by omega)]
  unfold putc State.fill
  rw [hmem, setWidth_signExtend]
  exact if_neg h

theorem putcs_append (a b : List Character) (s : State) :
    putcs (a ++ b) s = ((putcs b (putcs a s).1).1, (putcs a s).2 + (putcs b (putcs a s).1).2) := by
  induction a generalizing s with
  | nil => rw [List.nil_append, putcs, zero_add]
  | cons c a ih => rw [List.cons_append, putcs, ih, putcs, add_assoc]

theorem putcs_of_full (h : s.cb.nextCl 1 = s.cb.cCf) (cs : List Character) :
    putcs cs s = (s, (cs.length : ℤ)) := by
  induction cs with
  | nil => rfl
  | cons c cs ih =>
    rw [putcs, putc_of_full _ h, ih, List.length_cons]
    push_cast
    rw [add_comm]

theorem bcopy_succ (mem : ℤ → Character) (cp : ℕ → Character) (dst : ℤ) (k : ℕ) :
    bcopy (bcopy mem cp dst 1) (fun j => cp (1 + j))
    (dst + 1) k = bcopy mem cp dst (k + 1 : ℕ) := by
  funext a
  unfold bcopy
  push_cast
  by_cases ha : a = dst
  · rw [if_neg (by omega), if_pos (by omega), if_pos (by omega)]
  · by_cases hin : dst ≤ a ∧ a < dst + (k + 1)
    · rw [if_pos (by omega), if_pos hin]
      congr 1
      omega
    · rw [if_neg (by omega), if_neg (by omega), if_neg hin]

/-- The write pointer comes to the end of the buffer with the last of the characters at most. -/
theorem putcs_segment {k : ℕ} {cp : ℕ → Character} (hend : s.cb.cCl + k ≤ s.cb.cEnd)
    (hcf : ∀ j : ℕ, 0 < j → j ≤ k → s.cb.nextCl j ≠ s.cb.cCf) (hpos : 0 < k) :
    putcs ((List.range k).map cp) s = (s.fill cp k, 0) := by
  induction k generalizing s cp with
  | zero => omega
  | succ k ih =>
    have hne : s.cb.nextCl 1 ≠ s.cb.cCf := hcf 1 Nat.one_pos (by omega)
    rw [List.range_succ_eq_map, List.map_cons, List.map_map, putcs, putc_of_ne cp hne]
    dsimp only
    rcases Nat.eq_zero_or_pos k with rfl | hk
    · rfl
    · have hcl : s.cb.nextCl 1 = s.cb.cCl + 1 := if_neg (by push_cast at hend; omega)
      have hnext : ∀ j : ℤ, (s.fill cp 1).cb.nextCl j = s.cb.nextCl (j + 1) := by
        intro j
        show (if s.cb.nextCl 1 + j = s.cb.cEnd then s.cb.cStart else s.cb.nextCl 1 + j) = _
        rw [hcl, add_assoc, add_comm 1 j]
        rfl
      have hend' : (s.fill cp 1).cb.cCl + k ≤ s.cb.cEnd := by
        show s.cb.nextCl 1 + k ≤ s.cb.cEnd
        push_cast at hend
        omega
      have hcf' : ∀ j : ℕ, 0 < j → j ≤ k → (s.fill cp 1).cb.nextCl j ≠ s.cb.cCf := by
        intro j _ hj
        rw [hnext]
        exact_mod_cast hcf (j + 1) (by omega) (by omega)
      have hfill : (s.fill cp 1).fill (fun j => cp (1 + j)) k = s.fill cp (k + 1 : ℕ) := by
        unfold State.fill at hnext ⊢
        dsimp only at hnext ⊢
        rw [hnext, hcl, bcopy_succ]
        push_cast
        rw [BitVec.ofInt_add, add_comm (BitVec.ofInt 16 (k : ℤ)), add_assoc]
        rfl
      have hcomp : cp ∘ Nat.succ = fun j => cp (1 + j) := by
        funext j
        rw [Function.comp_apply, Nat.add_comm]
      rw [hcomp, ih hend' hcf' hk, hfill, add_zero]

/-- What a turn of `b_to_q` does. -/
theorem writable_spec (h : InBuffer s.cb) (hne : s.cb.cCl ≠ s.cb.limit) (count : ℤ)
    (hcount : 0 < count) (cp : ℕ → Character) :
    0 < s.cb.writable count ∧ s.cb.writable count ≤ count ∧
    InBuffer (s.fill cp (s.cb.writable count)).cb ∧
      putcs ((List.range (s.cb.writable count).toNat).map cp) s =
      (s.fill cp (s.cb.writable count), 0) := by
  obtain ⟨h₁, h₂, h₃, h₄⟩ := h
  have hi : 0 < s.cb.writable count ∧ s.cb.writable count ≤ count ∧
      s.cb.cCl + s.cb.writable count ≤ s.cb.cEnd ∧
      ∀ j, 0 < j → j ≤ s.cb.writable count → s.cb.nextCl j ≠ s.cb.cCf := by
    unfold Cirbuf.writable Cirbuf.nextCl Cirbuf.limit at *
    dsimp only
    refine ⟨?_, ?_, ?_, fun j hj hji => ?_⟩
    all_goals split_ifs at * <;> omega
  obtain ⟨hpos, hle, hend, hcf⟩ := hi
  generalize s.cb.writable count = i at hpos hle hend hcf ⊢
  obtain ⟨k, rfl⟩ := Int.eq_ofNat_of_zero_le hpos.le
  refine ⟨hpos, hle, ⟨h₁, h₂, ?_, ?_⟩, ?_⟩
  · show s.cb.cStart ≤ s.cb.nextCl k
    unfold Cirbuf.nextCl
    split_ifs <;> omega
  · show s.cb.nextCl k < s.cb.cEnd
    unfold Cirbuf.nextCl
    split_ifs <;> omega
  · rw [Int.toNat_natCast]
    exact putcs_segment hend (fun j hj hjk => hcf j (by omega) (by omega)) (by omega)

theorem nextCl_of_limit (h : InBuffer s.cb) (hlim : s.cb.cCl = s.cb.limit) :
    s.cb.nextCl 1 = s.cb.cCf := by
  obtain ⟨h₁, h₂, -, -⟩ := h
  unfold Cirbuf.limit at hlim
  unfold Cirbuf.nextCl
  split_ifs at * <;> omega

theorem bToQFrom_eq {turns : ℕ} (h : InBuffer s.cb)
  {cp : ℕ → Character} {count : ℤ} (hcount : 0 ≤ count)
    (hturns : count.toNat < turns) :
    bToQFrom turns cp count s = some (putcs ((List.range count.toNat).map cp) s) := by
  induction turns generalizing s count cp with
  | zero => omega
  | succ turns ih =>
    unfold bToQFrom
    split
    case isTrue hstop =>
      rcases hstop with rfl | hfull
      · rfl
      · rw [putcs_of_full (nextCl_of_limit h hfull),
          List.length_map, List.length_range, Int.toNat_of_nonneg hcount]
    case isFalse hgo =>
      obtain ⟨hzero, hne⟩ := not_or.1 hgo
      obtain ⟨hpos, hle, hin, hseg⟩ := writable_spec h hne count (by omega) cp
      dsimp only
      rw [if_neg (by omega)]
      have hrest : bToQFrom turns (fun j => cp ((s.cb.writable count).toNat + j))
        (count - s.cb.writable count)
          (s.fill cp (s.cb.writable count)) = _ := ih hin (by omega) (by omega)
      refine Eq.trans hrest ?_
      have hsplit :
        count.toNat = (s.cb.writable count).toNat + (count - s.cb.writable count).toNat := by omega
      rw [hsplit, List.range_add, List.map_append, List.map_map, putcs_append, hseg, zero_add]
      rfl

/-- `b_to_q` is `putc`, called for each of the characters. -/
theorem bToQ_eq (h : InBuffer s.cb) (cp : ℕ → Character) {count : ℤ} (hcount : 0 ≤ count) :
    bToQ cp count s = some (putcs ((List.range count.toNat).map cp) s) :=
  bToQFrom_eq h hcount (Nat.lt_succ_self _)

end Write

section Queue

/-- The characters that the buffer holds are those of the list, but the count may have wrapped. -/
structure Contents (n : ℕ) (s : State) (l : List Character) : Prop where
  holds : Ring.Holds s.mem s.cb.cStart s.cb.cEnd s.cb.cCf s.cb.cCl l
  size : s.cb.cEnd - s.cb.cStart = n
  count : s.cb.cCc = BitVec.ofInt 16 l.length

theorem Contents.inBuffer (h : Contents n s l) : InBuffer s.cb :=
  ⟨h.holds.lower, h.holds.upper, h.holds.last_mem.1, h.holds.last_mem.2⟩

theorem contents_cbAlloc (mem : ℤ → Character) (buf : ℤ) (hn : 0 < n) :
    Contents n (cbAlloc mem buf n) [] where
  holds := by
    refine .nil mem le_rfl ?_
    show buf < buf + n
    omega
  size := by
    show buf + n - buf = n
    omega
  count := rfl

theorem Contents.cleared (h : Contents n s l) : Contents n (cbClear s) [] where
  holds := .nil s.mem le_rfl (h.holds.lower.trans_lt h.holds.upper)
  size := h.size
  count := rfl

theorem Contents.length_lt (h : Contents n s l) : l.length < n := by
  have hroom := h.holds.room
  rw [h.size] at hroom
  exact_mod_cast hroom

theorem Contents.putc_of_lt (h : Contents n s l) (hlt : l.length + 1 < n) (c : BitVec 32) :
    Contents n (putc c s).1 (l ++ [c.setWidth 8]) ∧ (putc c s).2 = 0 := by
  have hroom : (l.length : ℤ) + 1 < s.cb.cEnd - s.cb.cStart := by
    rw [h.size]
    exact_mod_cast hlt
  have hne : s.cb.nextCl 1 ≠ s.cb.cCf := fun heq => hroom.ne (h.holds.full_iff.1 heq)
  have hputc : putc c s = (⟨fun a => if a = s.cb.cCl then c.setWidth 8 else s.mem a,
      { s.cb with cCl := s.cb.nextCl 1, cCc := s.cb.cCc + 1 }⟩, 0) := if_neg hne
  rw [hputc]
  refine ⟨⟨h.holds.push hroom (if_pos rfl) fun a ha => if_neg ha, h.size, ?_⟩, rfl⟩
  show s.cb.cCc + 1 = _
  rw [h.count, List.length_append, List.length_singleton]
  push_cast
  rw [BitVec.ofInt_add]
  rfl

theorem Contents.putc_at_full (h : Contents n s l) (hfull : l.length + 1 = n) (c : BitVec 32) :
    putc c s = (s, 1) := by
  refine putc_of_full c (h.holds.full_iff.2 ?_)
  rw [h.size]
  exact_mod_cast hfull

theorem Contents.pop {c : Character} (h : Contents n s (c :: l)) :
    Contents n { s with cb := s.cb.skip 1 } l ∧ s.mem s.cb.cCf = c ∧ s.cb.cCf ≠ s.cb.cCl := by
  obtain ⟨hc, hrest⟩ := h.holds.pop
  refine ⟨⟨hrest, h.size, ?_⟩, hc, fun heq => List.cons_ne_nil c l (h.holds.eq_nil_iff.2 heq)⟩
  show s.cb.cCc - BitVec.ofInt 16 1 = _
  rw [h.count, List.length_cons]
  push_cast
  rw [BitVec.ofInt_add]
  exact add_sub_cancel_right _ _

theorem Contents.getc_of_nil (h : Contents n s []) : s.cb.cCf = s.cb.cCl := h.holds.eq_nil_iff.1 rfl

theorem Contents.getcs_spec (h : Contents n s l) (k : ℕ) :
    Contents n (getcs k s).1 (l.drop k) ∧ (getcs k s).2 = l.take k := by
  induction k generalizing s l with
  | zero => exact ⟨h, rfl⟩
  | succ k ih =>
    cases l with
    | nil =>
      rw [getcs_of_empty h.getc_of_nil]
      exact ⟨h, rfl⟩
    | cons c l =>
      obtain ⟨hrest, hc, hne⟩ := h.pop
      obtain ⟨hcontents, hchars⟩ := ih hrest
      rw [getcs_succ hne, List.drop_succ_cons, List.take_succ_cons, hchars, hc]
      exact ⟨hcontents, rfl⟩

theorem Contents.putcs_spec (h : Contents n s l) (cs : List Character) :
    Contents n (putcs cs s).1 (l ++ cs.take (n - 1 - l.length)) ∧
      (putcs cs s).2 = (cs.length - (n - 1 - l.length) : ℕ) := by
  induction cs generalizing s l with
  | nil =>
    rw [List.take_nil, List.append_nil, List.length_nil, Nat.zero_sub]
    exact ⟨h, rfl⟩
  | cons c cs ih =>
    have hlt := h.length_lt
    rcases Nat.lt_or_ge (l.length + 1) n with hroom | hfull
    · obtain ⟨hput, hzero⟩ := h.putc_of_lt hroom (c.signExtend 32)
      rw [setWidth_signExtend] at hput
      obtain ⟨hcontents, hleft⟩ := ih hput
      have hroom' : n - 1 - l.length = n - 1 - (l ++ [c]).length + 1 := by
        rw [List.length_append, List.length_singleton]
        omega
      rw [putcs, hroom', List.take_succ_cons, List.length_cons, Nat.add_sub_add_right]
      rw [List.append_assoc, List.singleton_append] at hcontents
      exact ⟨hcontents, by rw [hzero, hleft, zero_add]⟩
    · have hputcs := putcs_of_full (h.holds.full_iff.2 (by rw [h.size]; omega)) (c :: cs)
      rw [show n - 1 - l.length = 0 by omega, List.take_zero, List.append_nil, Nat.sub_zero]
      exact ⟨hputcs ▸ h, congrArg Prod.snd hputcs⟩

theorem scan_spec (mem : ℤ → Character) (mask : BitVec 32) (k : ℕ) (cp : ℤ) :
    ∃ i : ℕ, i ≤ k ∧ scan mem mask k cp = cp + i ∧
    (∀ j : ℕ, j < i → matchesMask (mem (cp + j)) mask = false) ∧
      (i < k → matchesMask (mem (cp + i)) mask = true) := by
  induction k generalizing cp with
  | zero =>
    exact ⟨0, le_rfl, (add_zero cp).symm, fun j hj => absurd hj (Nat.not_lt_zero j),
      fun h => absurd h (lt_irrefl 0)⟩
  | succ k ih =>
    unfold scan
    split
    case isTrue hmatch =>
      exact ⟨0, Nat.zero_le _, (add_zero cp).symm, fun j hj => absurd hj (Nat.not_lt_zero j),
        fun _ => by
        rw [Int.natCast_zero, add_zero]; exact hmatch⟩
    case isFalse hmatch =>
      obtain ⟨i, hi, hscan, hbefore, hat⟩ := ih (cp + 1)
      have hshift : ∀ j : ℕ, cp + 1 + j = cp + (j + 1 : ℕ) := by
        intro j
        push_cast
        omega
      refine ⟨i + 1, Nat.succ_le_succ hi, hscan.trans (hshift i), fun j hj => ?_, fun hlt => ?_⟩
      · cases j with
        | zero =>
          rw [Int.natCast_zero, add_zero]
          simpa using hmatch
        | succ j =>
          rw [← hshift]
          exact hbefore j (by omega)
      · rw [← hshift]
        exact hat (by omega)

end Queue

section Refinement

/-- The number of characters that the routine is given is one. -/
def Op.Counts : Op → Prop
  | .qToB count | .bToQ _ count | .ndflush count => 0 ≤ count
  | .putc _ | .getc | .ndqb _ | .cbClear => True

/-- What an operation makes of a queue of at most `cap` characters. -/
def queueNext (cap : ℕ) (l : List Character) : Op → List Character
  | .putc c => if l.length < cap then l ++ [c.setWidth 8] else l
  | .getc => l.tail
  | .qToB count => l.drop count.toNat
  | .bToQ cp count => l ++ ((List.range count.toNat).map cp).take (cap - l.length)
  | .ndqb _ => l
  | .ndflush count => l.drop count.toNat
  | .cbClear => []

/-- What it returns. The characters that `ndqb` counts lie side by side in memory and do not match
the mask; the next one does, if it is in the queue and not at the start of the buffer. -/
def Answers (cap : ℕ) (s : State) (l : List Character) (r : Reply) : Op → Prop
  | .putc _ => r.value = if l.length < cap then 0 else 1
  | .getc => r.value = l.head?.elim (-1) fun c => (c.toNat : ℤ)
  | .qToB count => r.chars = l.take count.toNat ∧ r.value = r.chars.length
  | .bToQ _ count => r.value = (count.toNat - (cap - l.length) : ℕ)
  | .ndqb mask => ∃ k : ℕ, r.value = k ∧ k ≤ l.length ∧
    (∀ j c, j < k → l[j]? = some c → s.mem (s.cb.cCf + j) = c ∧
    (mask ≠ 0 → matchesMask c mask = false)) ∧
    ∀ c, l[k]? = some c → s.cb.cCf + k = s.cb.cEnd ∨ (mask ≠ 0 ∧ matchesMask c mask = true)
  | .ndflush _ | .cbClear => True

/-- The routines for several characters do what those for one do. -/
def Iterates (s s' : State) (r : Reply) : Op → Prop
  | .qToB count => (s', r.chars) = getcs count.toNat s
  | .bToQ cp count => (s', r.value) = putcs ((List.range count.toNat).map cp) s
  | .ndflush count => s' = (getcs count.toNat s).1
  | .putc _ | .getc | .ndqb _ | .cbClear => True

theorem Contents.ndqb_answers (h : Contents n s l) (mask : BitVec 32) :
    Answers (n - 1) s l ⟨ndqb s mask, []⟩ (.ndqb mask) := by
  have hlen := h.holds.length_eq
  have hlo := h.holds.last_mem.1
  have hhi := h.holds.upper
  -- the characters up to the limit lie side by side
  obtain ⟨k, hk, hkl, hkend, hkall⟩ : ∃ k : ℕ,
      (if s.cb.cCl < s.cb.cCf then s.cb.cEnd else s.cb.cCl) - s.cb.cCf = k ∧ k ≤ l.length ∧
      s.cb.cCf + k ≤ s.cb.cEnd ∧ (k < l.length → s.cb.cCf + k = s.cb.cEnd) := by
    have hupper := h.holds.last_mem.2
    refine ⟨((if s.cb.cCl < s.cb.cCf then s.cb.cEnd else s.cb.cCl) - s.cb.cCf).toNat, ?_⟩
    split_ifs at hlen ⊢ <;> omega
  have hcell : ∀ j c, j < k → l[j]? = some c → s.mem (s.cb.cCf + j) = c := by
    intro j c hj hc
    obtain ⟨hj', rfl⟩ := List.getElem?_eq_some_iff.1 hc
    exact h.holds.contiguous hj' (by omega)
  unfold ndqb
  dsimp only [Answers]
  rw [hk, Int.toNat_natCast]
  split
  case isTrue hmask =>
    refine ⟨k, rfl, hkl, fun j c hj hc => ⟨hcell j c hj hc, fun hne => absurd hmask hne⟩,
      fun c hc => .inl ?_⟩
    exact hkall (List.getElem?_eq_some_iff.1 hc).1
  case isFalse hmask =>
    obtain ⟨i, hi, hscan, hbefore, hat⟩ := scan_spec s.mem mask k s.cb.cCf
    refine ⟨i, by rw [hscan, add_sub_cancel_left], hi.trans hkl, fun j c hj hc => ?_,
      fun c hc => ?_⟩
    · have hmem := hcell j c (hj.trans_le hi) hc
      exact ⟨hmem, fun _ => hmem ▸ hbefore j hj⟩
    · rcases hi.lt_or_eq with hlt | rfl
      · exact .inr ⟨hmask, hcell i c hlt hc ▸ hat hlt⟩
      · exact .inl (hkall (List.getElem?_eq_some_iff.1 hc).1)

theorem Contents.stepped (h : Contents n s l) {op : Op} (hop : op.Counts) :
    ∃ s' r, step s op = some (s', r) ∧ Contents n s' (queueNext (n - 1) l op) ∧
      Answers (n - 1) s l r op ∧ Iterates s s' r op := by
  have hlt := h.length_lt
  cases op with
  | putc c =>
    refine ⟨_, _, rfl, ?_⟩
    dsimp only [queueNext, Answers]
    rcases Nat.lt_or_ge l.length (n - 1) with hroom | hfull
    · obtain ⟨hput, hzero⟩ := h.putc_of_lt (by omega) c
      rw [if_pos hroom, if_pos hroom]
      exact ⟨hput, hzero, trivial⟩
    · rw [if_neg (by omega), if_neg (by omega), h.putc_at_full (by omega) c]
      exact ⟨h, rfl, trivial⟩
  | getc =>
    refine ⟨_, _, rfl, ?_⟩
    cases l with
    | nil =>
      rw [getc_of_empty h.getc_of_nil]
      exact ⟨h, rfl, trivial⟩
    | cons c l =>
      obtain ⟨hrest, hc, hne⟩ := h.pop
      rw [getc_of_ne hne, hc]
      exact ⟨hrest, rfl, trivial⟩
  | qToB count =>
    obtain ⟨hcontents, hchars⟩ := h.getcs_spec count.toNat
    have hstep : step s (.qToB count) =
        some ((getcs count.toNat s).1, ⟨(getcs count.toNat s).2.length,
        (getcs count.toNat s).2⟩) := by
      rw [step, qToB_eq h.inBuffer hop]
      rfl
    exact ⟨_, _, hstep, hcontents, ⟨hchars, rfl⟩, rfl⟩
  | bToQ cp count =>
    obtain ⟨hcontents, hleft⟩ := h.putcs_spec ((List.range count.toNat).map cp)
    rw [List.length_map, List.length_range] at hleft
    have hstep : step s (.bToQ cp count) = some ((putcs ((List.range count.toNat).map cp) s).1,
        ⟨(putcs ((List.range count.toNat).map cp) s).2, []⟩) := by
      rw [step, bToQ_eq h.inBuffer cp hop]
      rfl
    exact ⟨_, _, hstep, hcontents, hleft, rfl⟩
  | ndqb mask => exact ⟨_, _, rfl, h, h.ndqb_answers mask, trivial⟩
  | ndflush count =>
    have hstep : step s (.ndflush count) = some ((getcs count.toNat s).1, ⟨0, []⟩) := by
      rw [step, ndflush_eq h.inBuffer hop]
      rfl
    exact ⟨_, _, hstep, (h.getcs_spec count.toNat).1, trivial, rfl⟩
  | cbClear => exact ⟨_, _, rfl, h.cleared, trivial, trivial⟩

/-- The buffer is a queue with these characters, and says how many there are. -/
structure Queue (n : ℕ) (s : State) (l : List Character) : Prop where
  holds : Ring.Holds s.mem s.cb.cStart s.cb.cEnd s.cb.cCf s.cb.cCl l
  size : s.cb.cEnd - s.cb.cStart = n
  count : s.cb.cCc.toInt = l.length

theorem Contents.queue (h : Contents n s l) (hn : n ≤ 32768) : Queue n s l where
  holds := h.holds
  size := h.size
  count := by
    have hlt := h.length_lt
    rw [h.count, BitVec.toInt_ofInt]
    exact Int.bmod_eq_of_le (by omega) (by omega)

theorem reach_contents (hn : 0 < n) (hs : (machine n).Reach (fun _ op => op.Counts) s) :
    ∃ l, Contents n s l := by
  refine hs.inv (I := fun s => ∃ l, Contents n s l) ?_ ?_
  · rintro _ ⟨mem, buf, rfl⟩
    exact ⟨[], contents_cbAlloc mem buf hn⟩
  · rintro s op s' ⟨l, hl⟩ hop hstep
    obtain ⟨s₁, r, hr, hcontents, -⟩ := hl.stepped hop
    obtain ⟨⟨s₂, r'⟩, hr', rfl⟩ := Option.map_eq_some_iff.1 hstep
    cases hr.symm.trans hr'
    exact ⟨_, hcontents⟩

/-- The buffer is a bounded queue, whatever is done with it, if and only if its count can be a
`short`. -/
theorem cirbuf_refines (n : ℕ) (hn : 2 ≤ n) :
    (∀ s, (machine n).Reach (fun _ op => op.Counts) s → ∃ l, Queue n s l ∧ ∀ op : Op, op.Counts →
      ∃ s' r, step s op = some (s', r) ∧ Queue n s' (queueNext (n - 1) l op) ∧
        Answers (n - 1) s l r op ∧ Iterates s s' r op) ↔ n ≤ 32768 := by
  constructor
  · intro h
    by_contra hlarge
    -- one character more than a `short` can count
    obtain ⟨l, hl, hops⟩ := h (cbAlloc (fun _ => 0) 0 n) (.start ⟨_, _, rfl⟩)
    obtain rfl : l = [] := hl.holds.eq_nil_iff.2 rfl
    obtain ⟨s', r, -, hs', -⟩ := hops (.bToQ (fun _ => 0) 32768) (Int.natCast_nonneg 32768)
    have hcount := hs'.count
    have hlength : (queueNext (n - 1) [] (.bToQ (fun _ => 0) 32768)).length = 32768 := by
      simp only [queueNext, List.nil_append, List.length_take, List.length_map, List.length_range,
        List.length_nil]
      omega
    rw [hlength] at hcount
    have hshort := BitVec.toInt_lt (x := s'.cb.cCc)
    omega
  · intro hshort s hs
    obtain ⟨l, hl⟩ := reach_contents (by omega) hs
    refine ⟨l, hl.queue hshort, fun op hop => ?_⟩
    obtain ⟨s', r, hstep, hs', hanswers, hiterates⟩ := hl.stepped hop
    exact ⟨s', r, hstep, hs'.queue hshort, hanswers, hiterates⟩

/-- A buffer for three characters that has one. -/
def oneCharacter : State := (putc 0x41 (cbAlloc (fun _ => 0) 0x1000 4)).1

theorem cirbuf_refines_four : ∃ l, Queue 4 oneCharacter l ∧ ∀ op : Op, op.Counts →
    ∃ s' r, step oneCharacter op = some (s', r) ∧ Queue 4 s' (queueNext 3 l op) ∧
      Answers 3 oneCharacter l r op ∧ Iterates oneCharacter s' r op :=
  (cirbuf_refines 4 (by decide)).2 (by decide) _
    ((Machine.Reach.start (M := machine 4) ⟨fun _ => 0, 0x1000, rfl⟩).step (.putc 0x41) trivial rfl)

/-- All characters are entered, and the count is negative. -/
theorem count_of_large_buffer : ∃ s r,
    step (cbAlloc (fun _ => 0) 0x1000 32769) (.bToQ (fun _ => 0x41) 32768) = some (s, r) ∧
      r.value = 0 ∧ s.cb.cCc.toInt = -32768 := ⟨_, _, rfl, rfl, by decide⟩

end Refinement

end XMach.CharQueue
