import Mathlib.Data.BitVec
import XMach.Lites.UserCopy

/-!
# Which strings `copyinstr` copies

A turn of the loop reads up to `cur_max` bytes in all, not `cur_max` more, and `cur_max` is at most
the size of a page. So the first two turns read as many bytes as a page has, or as the caller
allows, and later turns read nothing (`At`): they only look for a page that cannot be read. A longer
string is never found.
-/

namespace XMach.UserCopy

variable {u : UserSpace} {src : Addr} {maxLen k : ℕ} {wants : Bool} {s : State} {r : Copied}

section Bytes

/-- The bytes of the string. -/
def UserSpace.at (u : UserSpace) (src : Addr) (i : ℕ) : Byte := u.byte (src + BitVec.ofNat 32 i)

theorem copyBytes_spec (data : ℕ → Byte) (n cp : ℕ) :
    (copyBytes data n cp = ((List.range n).map fun j => data (cp + j), false) ∧ ∀ j < n,
    data (cp + j) ≠ 0) ∨ ∃ i < n, data (cp + i) = 0 ∧ (∀ j < i, data (cp + j) ≠ 0) ∧
      copyBytes data n cp = ((List.range (i + 1)).map fun j => data (cp + j), true) := by
  induction n generalizing cp with
  | zero => exact .inl ⟨rfl, fun j hj => absurd hj (Nat.not_lt_zero j)⟩
  | succ n ih =>
    have hshift : ∀ j, cp + 1 + j = cp + (j + 1) := fun j => by omega
    have hrange : ∀ m, (List.range (m + 1)).map (fun j => data (cp + j)) =
        data cp :: (List.range m).map fun j => data (cp + 1 + j) := by
      intro m
      rw [List.range_succ_eq_map, List.map_cons, List.map_map, Nat.add_zero]
      refine congrArg _ (List.map_congr_left fun j _ => ?_)
      rw [Function.comp_apply, hshift]
    by_cases hzero : data cp = 0
    · refine .inr ⟨0, Nat.succ_pos n, hzero, fun j hj => absurd hj (Nat.not_lt_zero j), ?_⟩
      rw [copyBytes, if_pos hzero, hrange, hzero]
      rfl
    · have hcons : ∀ {m}, (∀ j < m, data (cp + 1 + j) ≠ 0) → ∀ j < m + 1, data (cp + j) ≠ 0 := by
        intro m hm j hj
        cases j with
        | zero => exact hzero
        | succ j =>
          rw [← hshift]
          exact hm j (by omega)
      rw [copyBytes, if_neg hzero]
      rcases ih (cp + 1) with ⟨hcopy, hnone⟩ | ⟨i, hi, hat, hbefore, hcopy⟩
      · left
        rw [hcopy, hrange]
        exact ⟨rfl, hcons hnone⟩
      · refine .inr ⟨i + 1, Nat.succ_lt_succ hi, by rw [← hshift]; exact hat, hcons hbefore, ?_⟩
        rw [hcopy, hrange (i + 1)]

end Bytes

section Pages

/-- How many bytes of its page are behind the address. -/
def room (src : Addr) : ℕ := 4096 - src.toNat % 4096

/-- How many bytes a turn may look at. -/
def width (src : Addr) : ℕ → ℕ
  | 0 => room src
  | _ + 1 => 4096

/-- Which byte the `k`th turn begins with. -/
def offs (src : Addr) : ℕ → ℕ
  | 0 => 0
  | k + 1 => room src + k * 4096

/-- How many bytes have been read before the `k`th turn, if the caller allows as many. -/
def cap (src : Addr) : ℕ → ℕ
  | 0 => 0
  | k + 1 => width src k

/-- Where the `k`th turn begins. -/
def pageAt (src : Addr) (k : ℕ) : Addr := src + BitVec.ofNat 32 (offs src k)

theorem room_pos (src : Addr) : 0 < room src ∧ room src ≤ 4096 := by
  unfold room
  omega

theorem cap_le_width (src : Addr) (k : ℕ) : cap src k ≤ width src k := by
  have := room_pos src
  match k with
  | 0 => exact Nat.zero_le _
  | 1 => exact this.2
  | k + 2 => exact le_rfl

theorem width_le (src : Addr) (k : ℕ) : width src k ≤ 4096 := by
  cases k with
  | zero => exact (room_pos src).2
  | succ k => exact le_rfl

theorem cap_le_offs (src : Addr) (k : ℕ) : cap src k ≤ offs src k := by
  have := room_pos src
  match k with
  | 0 => exact le_rfl
  | 1 => exact Nat.le_add_right _ _
  | k + 2 =>
    show 4096 ≤ room src + (k + 1) * 4096
    omega

/-- Only the first two turns read bytes, and these are the next ones. -/
theorem offs_eq_cap (src : Addr) (k : ℕ) (h : cap src k < width src k) :
    offs src k = cap src k := by
  match k with
  | 0 => rfl
  | 1 =>
    show room src + 0 * 4096 = room src
    omega
  | k + 2 => exact absurd h (lt_irrefl 4096)

theorem offs_mono (src : Addr) {k k' : ℕ} (h : k ≤ k') : offs src k ≤ offs src k' := by
  cases k with
  | zero => exact Nat.zero_le _
  | succ k =>
    cases k' with
    | zero => omega
    | succ k' =>
      simp only [offs]
      omega

theorem toNat_vmPageSize : vmPageSize.toNat = 4096 := rfl

theorem toNat_truncPage (a : Addr) : (truncPage a).toNat = a.toNat - a.toNat % 4096 := by
  have hlt := a.isLt
  rw [truncPage, BitVec.toNat_sub, BitVec.toNat_umod, toNat_vmPageSize]
  omega

theorem truncPage_add (src : Addr) (k : ℕ) :
    truncPage (pageAt src k) + vmPageSize = pageAt src (k + 1) ∧
      (pageAt src (k + 1) - pageAt src k).toNat = width src k := by
  have hlt := src.isLt
  have hstop : truncPage (pageAt src k) + vmPageSize = pageAt src (k + 1) := by
    apply BitVec.eq_of_toNat_eq
    rw [BitVec.toNat_add, toNat_truncPage, toNat_vmPageSize]
    cases k with
    | zero =>
      simp only [pageAt, offs, room, BitVec.toNat_add, BitVec.toNat_ofNat]
      omega
    | succ k =>
      simp only [pageAt, offs, room, BitVec.toNat_add, BitVec.toNat_ofNat]
      omega
  refine ⟨hstop, ?_⟩
  have hsub : pageAt src (k + 1) - pageAt src k =
    BitVec.ofNat 32 (offs src (k + 1)) - BitVec.ofNat 32 (offs src k) :=
    add_sub_add_left_eq_sub _ _ _
  rw [hsub, BitVec.toNat_sub]
  cases k with
  | zero =>
    simp only [offs, width, room, BitVec.toNat_ofNat]
    omega
  | succ k =>
    simp only [offs, width, BitVec.toNat_ofNat]
    omega

/-- The bytes from one turn to the next are on one page. -/
theorem truncPage_of_mem {i : ℕ} (hlo : offs src k ≤ i) (hhi : i < offs src (k + 1)) :
    truncPage (src + BitVec.ofNat 32 i) = truncPage (pageAt src k) := by
  have hlt := src.isLt
  apply BitVec.eq_of_toNat_eq
  rw [toNat_truncPage, toNat_truncPage]
  cases k with
  | zero =>
    simp only [pageAt, offs, room, BitVec.toNat_add, BitVec.toNat_ofNat] at hlo hhi ⊢
    omega
  | succ k =>
    simp only [pageAt, offs, room, BitVec.toNat_add, BitVec.toNat_ofNat] at hlo hhi ⊢
    omega

theorem exists_offs (src : Addr) (i : ℕ) : ∃ k, offs src k ≤ i ∧ i < offs src (k + 1) := by
  rcases Nat.lt_or_ge i (room src) with h | h
  · exact ⟨0, Nat.zero_le _, Nat.lt_add_right _ h⟩
  · refine ⟨(i - room src) / 4096 + 1, ?_, ?_⟩
    · simp only [offs]
      omega
    · simp only [offs]
      omega

end Pages

section Turns

/-- The loop before its `k`th turn, if there was no zero. -/
structure At (u : UserSpace) (src : Addr) (maxLen k : ℕ) (s : State) : Prop where
  page : s.src = pageAt src k
  count : s.count = min (cap src k) maxLen
  written : s.written = (List.range s.count).map (u.at src)
  nonzero : ∀ j < s.count, u.at src j ≠ 0
  deallocated : s.deallocated = s.reads

theorem at_start (u : UserSpace) (src : Addr) (maxLen : ℕ) :
    At u src maxLen 0 ⟨src, 0, [], 0, 0⟩ where
  page := (BitVec.add_zero src).symm
  count := (Nat.zero_min maxLen).symm
  written := rfl
  nonzero j hj := absurd hj (Nat.not_lt_zero j)
  deallocated := rfl

/-- What has been copied when byte `i` is the first that is zero. -/
def found (u : UserSpace) (src : Addr) (wants : Bool) (i reads : ℕ) : Copied :=
  ⟨none, if wants then some (i + 1) else none, (List.range (i + 1)).map (u.at src), reads, reads⟩

theorem turn_unreadable (h : At u src maxLen k s) (hlt : s.count < maxLen)
    (hpage : u.readable (truncPage (pageAt src k)) = false) (turns : ℕ) :
    copyinstrFrom u maxLen wants (turns + 1) s =
    some ⟨some .efault, none, s.written, s.reads, s.deallocated⟩ := by
  rw [copyinstrFrom, if_pos hlt, h.page]
  dsimp only
  rw [vmRead, hpage]
  rfl

theorem turn_readable (wants : Bool) (h : At u src maxLen k s) (hlt : s.count < maxLen)
    (hpage : u.readable (truncPage (pageAt src k)) = true) :
    (∃ i, s.count ≤ i ∧ i < min (cap src (k + 1)) maxLen ∧
      u.at src i = 0 ∧ (∀ j < i, u.at src j ≠ 0) ∧
      ∀ turns, copyinstrFrom u maxLen wants (turns + 1) s =
        some (found u src wants i (s.reads + 1))) ∨
    ∃ s', At u src maxLen (k + 1) s' ∧
      ∀ turns, copyinstrFrom u maxLen wants (turns + 1) s =
        copyinstrFrom u maxLen wants turns s' := by
  obtain ⟨hstop, hwidth⟩ := truncPage_add src k
  have hcap := cap_le_width src k
  have hcount := h.count
  -- the bytes of the buffer are those that come next
  have hbyte : ∀ j < min (width src k) maxLen - s.count,
      u.byte (truncPage s.src + BitVec.ofNat 32 ((s.src - truncPage s.src).toNat + j)) =
        u.at src (s.count + j) := by
    intro j hj
    have hoffs : offs src k = s.count := by
      have := offs_eq_cap src k (by omega)
      omega
    rw [BitVec.ofNat_add, BitVec.ofNat_toNat,
      BitVec.setWidth_eq, ← add_assoc, add_sub_cancel, h.page, pageAt,
      add_assoc, ← BitVec.ofNat_add, hoffs]
    rfl
  have hmin : (if width src k > maxLen then maxLen else width src k) =
    min (width src k) maxLen := by
    split_ifs <;> omega
  have hturn : ∀ turns, copyinstrFrom u maxLen wants (turns + 1) s =
      let r := copyBytes (fun i => u.byte (truncPage s.src + BitVec.ofNat 32 i))
        (min (width src k) maxLen - s.count)
        (s.src - truncPage s.src).toNat
      if r.2 then
        some ⟨none, if wants then some (s.count + r.1.length) else none,
          s.written ++ r.1, s.reads + 1,
          s.deallocated + 1⟩
      else copyinstrFrom u maxLen wants turns
        ⟨pageAt src (k + 1), s.count + r.1.length,
          s.written ++ r.1, s.reads + 1, s.deallocated + 1⟩ := by
    intro turns
    rw [copyinstrFrom, if_pos hlt]
    dsimp only
    rw [vmRead, if_pos (by rw [h.page]; exact hpage)]
    dsimp only
    rw [h.page, hstop, hwidth, hmin]
  rcases copyBytes_spec (fun i => u.byte (truncPage s.src + BitVec.ofNat 32 i))
    (min (width src k) maxLen - s.count)
    (s.src - truncPage s.src).toNat with ⟨hcopy, hnone⟩ | ⟨i, hi, hzero, hbefore, hcopy⟩
  · right
    have hlength : s.count + (min (width src k) maxLen - s.count) =
      min (cap src (k + 1)) maxLen := by
      rw [show cap src (k + 1) = width src k from rfl]
      omega
    have hwritten : s.written ++ (List.range (min (width src k) maxLen - s.count)).map (fun j =>
        u.byte (truncPage s.src + BitVec.ofNat 32 ((s.src - truncPage s.src).toNat + j))) =
        (List.range (min (cap src (k + 1)) maxLen)).map (u.at src) := by
      rw [h.written, ← hlength, List.range_add, List.map_append, List.map_map]
      exact congrArg _ (List.map_congr_left fun j hj => hbyte j (List.mem_range.1 hj))
    refine ⟨⟨pageAt src (k + 1), min (cap src (k + 1)) maxLen,
      (List.range (min (cap src (k + 1)) maxLen)).map (u.at src), s.reads + 1, s.deallocated + 1⟩,
      ⟨rfl, rfl, rfl, fun j hj => ?_, congrArg (· + 1) h.deallocated⟩, fun turns => ?_⟩
    · dsimp only at hj
      rcases Nat.lt_or_ge j s.count with hj' | hj'
      · exact h.nonzero j hj'
      · have hlast := hnone (j - s.count) (by omega)
        rw [hbyte _ (by omega), Nat.add_sub_cancel' hj'] at hlast
        exact hlast
    · rw [hturn, hcopy]
      dsimp only
      rw [if_neg Bool.false_ne_true, List.length_map, List.length_range, hlength, hwritten]
  · left
    have hwritten : s.written ++ (List.range (i + 1)).map (fun j =>
        u.byte (truncPage s.src + BitVec.ofNat 32 ((s.src - truncPage s.src).toNat + j))) =
        (List.range (s.count + i + 1)).map (u.at src) := by
      rw [h.written, Nat.add_assoc, List.range_add (n := s.count), List.map_append, List.map_map]
      refine congrArg _ (List.map_congr_left fun j hj => hbyte j ?_)
      have := List.mem_range.1 hj
      omega
    rw [hbyte i hi] at hzero
    refine ⟨s.count + i, Nat.le_add_right _ _, ?_, hzero, fun j hj => ?_, fun turns => ?_⟩
    · rw [show cap src (k + 1) = width src k from rfl]
      omega
    · rcases Nat.lt_or_ge j s.count with hj' | hj'
      · exact h.nonzero j hj'
      · have hlast := hbefore (j - s.count) (by omega)
        rw [hbyte _ (by omega), Nat.add_sub_cancel' hj'] at hlast
        exact hlast
    · rw [hturn, hcopy]
      dsimp only
      rw [if_pos rfl, hwritten, h.deallocated, List.length_map, List.length_range, ← Nat.add_assoc]
      rfl

theorem turn_last (hge : maxLen ≤ s.count) (turns : ℕ) :
    copyinstrFrom u maxLen wants (turns + 1) s =
    some ⟨some .enoent, none, s.written, s.reads, s.deallocated⟩ := by
  rw [copyinstrFrom, if_neg (Nat.not_lt.2 hge)]

end Turns

section Strings

/-- The page with byte `i` can be read. -/
def UserSpace.readableAt (u : UserSpace) (src : Addr) (i : ℕ) : Bool :=
  u.readable (truncPage (src + BitVec.ofNat 32 i))

/-- A page that must be read before a zero has been found cannot be. -/
def NeedsUnreadable (u : UserSpace) (src : Addr) (maxLen : ℕ) : Prop :=
  ∃ i < maxLen, (∀ j < i, u.at src j ≠ 0) ∧ u.readableAt src i = false

/-- The string ends with byte `i`, and can be read. -/
structure EndsAt (u : UserSpace) (src : Addr) (maxLen i : ℕ) : Prop where
  lt : i < maxLen
  zero : u.at src i = 0
  before : ∀ j < i, u.at src j ≠ 0
  readable : ∀ j ≤ i, u.readableAt src j = true

/-- What a call is to have done when it returns. -/
structure Copied.Right (u : UserSpace) (src : Addr) (maxLen : ℕ) (wants : Bool) (r : Copied) :
  Prop where
  deallocated : r.deallocated = r.reads
  written : r.written.length ≤ maxLen
  efault : r.result = some .efault ↔ NeedsUnreadable u src maxLen
  copied : ∀ i, EndsAt u src maxLen i → r.result = none ∧
    r.written = (List.range (i + 1)).map (u.at src) ∧
    r.lenCopied = if wants then some (i + 1) else none
  fails : (¬∃ i, EndsAt u src maxLen i) → r.result ≠ none

theorem EndsAt.unique {i j : ℕ} (hi : EndsAt u src maxLen i) (hj : EndsAt u src maxLen j) :
    i = j := by
  rcases Nat.lt_trichotomy i j with h | h | h
  · exact absurd hi.zero (hj.before i h)
  · exact h
  · exact absurd hj.zero (hi.before j h)

theorem EndsAt.readable_needed {i : ℕ} (h : EndsAt u src maxLen i) :
    ¬NeedsUnreadable u src maxLen := by
  rintro ⟨j, -, hbefore, hpage⟩
  rcases Nat.lt_or_ge i j with hlt | hge
  · exact hbefore i hlt h.zero
  · rw [h.readable j hge] at hpage
    cases hpage

theorem found_right {i reads : ℕ} (h : EndsAt u src maxLen i) :
    (found u src wants i reads).Right u src maxLen wants where
  deallocated := rfl
  written := by
    rw [found, List.length_map, List.length_range]
    exact h.lt
  efault := iff_of_false (by rintro ⟨⟩) h.readable_needed
  copied j hj := by
    obtain rfl := h.unique hj
    exact ⟨rfl, rfl, rfl⟩
  fails hno := absurd ⟨i, h⟩ hno

theorem readable_of_needed {i : ℕ} (hneeds : ¬NeedsUnreadable u src maxLen) (hi : i < maxLen)
    (hbefore : ∀ j < i, u.at src j ≠ 0) : u.readableAt src i = true := by
  by_contra hpage
  exact hneeds ⟨i, hi, hbefore, by simpa using hpage⟩

theorem endsAt_of_needed {i : ℕ} (hneeds : ¬NeedsUnreadable u src maxLen) (hi : i < maxLen)
    (hzero : u.at src i = 0) (hbefore : ∀ j < i, u.at src j ≠ 0) : EndsAt u src maxLen i :=
  ⟨hi, hzero, hbefore, fun _ hj => readable_of_needed hneeds (hj.trans_lt hi) fun m hm =>
    hbefore m (hm.trans_le hj)⟩

theorem At.length_written (h : At u src maxLen k s) : s.written.length ≤ maxLen := by
  have := h.count
  rw [h.written, List.length_map, List.length_range]
  omega

theorem last_right (h : At u src maxLen k s) (hge : maxLen ≤ s.count)
    (hneeds : ¬NeedsUnreadable u src maxLen) :
    Copied.Right u src maxLen wants ⟨some .enoent, none, s.written, s.reads, s.deallocated⟩ where
  deallocated := h.deallocated
  written := h.length_written
  efault := iff_of_false (by rintro ⟨⟩) hneeds
  copied i hi := absurd hi.zero (h.nonzero i (hi.lt.trans_le hge))
  fails _ := by rintro ⟨⟩

theorem unreadable_right (h : At u src maxLen k s) (hneeds : NeedsUnreadable u src maxLen) :
    Copied.Right u src maxLen wants ⟨some .efault, none, s.written, s.reads, s.deallocated⟩ where
  deallocated := h.deallocated
  written := h.length_written
  efault := iff_of_true rfl hneeds
  copied i hi := absurd hneeds hi.readable_needed
  fails _ := by rintro ⟨⟩

/-- The pages before the first one that cannot be read are gone through. -/
theorem reaches_unreadable {i K : ℕ} (wants : Bool) (hi : i < maxLen)
    (hbefore : ∀ j < i, u.at src j ≠ 0)
    (hK : offs src K ≤ i) (hpage : u.readable (truncPage (pageAt src K)) = false)
    (hpages : ∀ k < K, u.readable (truncPage (pageAt src k)) = true) (hk : k ≤ K)
    (h : At u src maxLen k s) :
    ∃ turns s', At u src maxLen K s' ∧ copyinstrFrom u maxLen wants turns s =
      some ⟨some .efault, none, s'.written, s'.reads, s'.deallocated⟩ := by
  have hcount := h.count
  have hle := cap_le_offs src k
  have hmono := offs_mono src hk
  -- by induction on the pages that are left
  induction hn : K - k generalizing k s with
  | zero =>
    obtain rfl : k = K := by omega
    exact ⟨1, s, h, turn_unreadable h (by omega) hpage 0⟩
  | succ n ih =>
    have hlt : k < K := by omega
    have hmono' : offs src (k + 1) ≤ offs src K := offs_mono src hlt
    have hle' := cap_le_offs src (k + 1)
    rcases turn_readable wants h (by omega)
      (hpages k hlt) with ⟨j, -, hj, hzero, -, -⟩ | ⟨s', hs', hloop⟩
    · exact absurd hzero (hbefore j (by omega))
    · obtain ⟨turns, s'', hs'', hrest⟩ := ih hlt hs' hs'.count hle' hmono' (by omega)
      exact ⟨turns + 1, s'', hs'', (hloop turns).trans hrest⟩

theorem right_of_unreadable (hneeds : NeedsUnreadable u src maxLen) (h : At u src maxLen 0 s) :
    ∃ turns r, copyinstrFrom u maxLen wants turns s = some r ∧ r.Right u src maxLen wants := by
  have ⟨i, hi, hbefore, hpage⟩ := hneeds
  obtain ⟨k, hlo, hhi⟩ := exists_offs src i
  rw [UserSpace.readableAt, truncPage_of_mem hlo hhi] at hpage
  have hex : ∃ k, u.readable (truncPage (pageAt src k)) = false := ⟨k, hpage⟩
  have hfirst : ∀ k < Nat.find hex, u.readable (truncPage (pageAt src k)) = true := by
    intro k hk
    simpa using Nat.find_min hex hk
  have hle := (offs_mono src (Nat.find_min' hex hpage)).trans hlo
  obtain ⟨turns, s', hs', hloop⟩ :=
    reaches_unreadable wants hi hbefore hle (Nat.find_spec hex) hfirst
    (Nat.zero_le _) h
  exact ⟨turns, _, hloop, unreadable_right hs' hneeds⟩

theorem turn_right (hneeds : ¬NeedsUnreadable u src maxLen) (h : At u src maxLen k s)
    (hoffs : offs src k = cap src k) (hnext : ∀ s', At u src maxLen (k + 1) s' →
      ∃ turns r, copyinstrFrom u maxLen wants turns s' = some r ∧ r.Right u src maxLen wants) :
    ∃ turns r, copyinstrFrom u maxLen wants turns s = some r ∧ r.Right u src maxLen wants := by
  rcases Nat.lt_or_ge s.count maxLen with hlt | hge
  · have hcount := h.count
    have hpage : u.readableAt src (offs src k) = true :=
      readable_of_needed hneeds (by omega) fun j hj => h.nonzero j (by omega)
    rcases turn_readable wants h hlt hpage with ⟨i, -, hi, hzero, hbefore, hloop⟩ | ⟨s', hs', hloop⟩
    · exact ⟨1, _, hloop 0, found_right (endsAt_of_needed hneeds (by omega) hzero hbefore)⟩
    · obtain ⟨turns, r, hrest, hr⟩ := hnext s' hs'
      exact ⟨turns + 1, r, (hloop turns).trans hrest, hr⟩
  · exact ⟨1, _, turn_last hge 0, last_right h hge hneeds⟩

theorem right_of_short (hneeds : ¬NeedsUnreadable u src maxLen)
    (hshort : maxLen ≤ 4096 ∨ ∃ i < 4096, u.at src i = 0) (h : At u src maxLen 0 s) :
    ∃ turns r, copyinstrFrom u maxLen wants turns s = some r ∧ r.Right u src maxLen wants := by
  refine turn_right hneeds h rfl fun s₁ h₁ => turn_right hneeds h₁ ?_ fun s₂ h₂ => ?_
  · show room src + 0 * 4096 = room src
    omega
  · -- the bytes of a page have been read, or all that the caller allows
    have hcount : s₂.count = min 4096 maxLen := h₂.count
    rcases hshort with hle | ⟨i, hi, hzero⟩
    · exact ⟨1, _, turn_last (by omega) 0, last_right h₂ (by omega) hneeds⟩
    · rcases Nat.lt_or_ge i maxLen with hlt | hge
      · exact absurd hzero (h₂.nonzero i (by omega))
      · exact ⟨1, _, turn_last (by omega) 0, last_right h₂ (by omega) hneeds⟩

/-- Once the bytes of a page have been read, only a page that cannot be read ends the loop. -/
theorem stuck {turns : ℕ} (hlong : 4096 < maxLen) (hnone : ∀ i < 4096, u.at src i ≠ 0)
    (h : At u src maxLen k s) (hr : copyinstrFrom u maxLen wants turns s = some r) :
    r.result = some .efault ∧ ∃ k, u.readable (truncPage (pageAt src k)) = false := by
  induction turns generalizing k s with
  | zero => cases hr
  | succ turns ih =>
    have hcount := h.count
    have hcap := (cap_le_width src k).trans (width_le src k)
    have hlt : s.count < maxLen := by omega
    cases hpage : u.readable (truncPage (pageAt src k)) with
    | false =>
      rw [turn_unreadable h hlt hpage] at hr
      cases hr
      exact ⟨rfl, k, hpage⟩
    | true =>
      rcases turn_readable wants h hlt hpage with ⟨i, -, hi, hzero, -, -⟩ | ⟨s', hs', hloop⟩
      · have := width_le src k
        exact absurd hzero (hnone i (lt_of_lt_of_le hi ((min_le_left _ _).trans this)))
      · rw [hloop] at hr
        exact ih hs' hr

/-- A string of the user is copied as it should be if and only if no more bytes are allowed than a
page has, it is shorter than a page, or a page cannot be read that must be. -/
theorem copyinstr_right (u : UserSpace) (mem : ℕ → Byte) (src : Addr) (maxLen : ℕ) (wants : Bool) :
    (∃ turns r, copyinstr true u mem src maxLen wants turns = some r ∧ r.Right u src maxLen wants) ↔
      maxLen ≤ 4096 ∨ (∃ i < 4096, u.at src i = 0) ∨ NeedsUnreadable u src maxLen := by
  have hcall : ∀ turns, copyinstr true u mem src maxLen wants turns =
      copyinstrFrom u maxLen wants turns ⟨src, 0, [], 0, 0⟩ := fun _ => rfl
  simp only [hcall]
  have hstart := at_start u src maxLen
  constructor
  · rintro ⟨turns, r, hr, hright⟩
    by_contra hno
    rw [not_or, not_or, not_exists] at hno
    obtain ⟨hlong, hnone, hneeds⟩ := hno
    obtain ⟨hefault, -⟩ := stuck (Nat.lt_of_not_le hlong)
      (fun i hi hzero => hnone i ⟨hi, hzero⟩) hstart hr
    exact hneeds (hright.efault.1 hefault)
  · intro h
    by_cases hneeds : NeedsUnreadable u src maxLen
    · exact right_of_unreadable hneeds hstart
    · refine right_of_short hneeds ?_ hstart
      rcases h with h | h | h
      · exact .inl h
      · exact .inr h
      · exact absurd h hneeds

/-- A string of 5000 bytes in a task that has all its pages, up to `VM_MAX_ADDRESS`. -/
def longString : UserSpace :=
  ⟨fun a => if a = 5000 then 0 else 0x61, fun a => decide (a < 0xc0000000)⟩

/-- Whatever the number of turns, the call does not copy the string: it fails when it comes to the
end of the address space. -/
theorem long_string_never_copied : EndsAt longString 0 8192 5000 ∧
    ∀ turns r, copyinstr true longString (fun _ => 0) 0 8192 true turns = some r →
    r.result = some .efault := by
  have hnone : ∀ i < 5000, longString.at 0 i ≠ 0 := by
    intro i hi
    have hne : (0 : Addr) + BitVec.ofNat 32 i ≠ 5000 := by
      rw [zero_add]
      intro heq
      have hnat : i % 4294967296 = 5000 := congrArg BitVec.toNat heq
      omega
    have hbyte : longString.at 0 i = 0x61 := if_neg hne
    rw [hbyte]
    decide
  refine ⟨⟨by decide, rfl, hnone, fun j hj => ?_⟩, fun turns r hr => ?_⟩
  · refine decide_eq_true (BitVec.lt_def.2 ?_)
    rw [toNat_truncPage, zero_add, BitVec.toNat_ofNat]
    change _ < 3221225472
    omega
  · exact (stuck (by decide) (fun i hi => hnone i (by omega)) (at_start longString 0 8192) hr).1

end Strings

end XMach.UserCopy
