import XMach.Lites.PageOut

/-!
# Which page-outs write exactly the page

The length of the write is what is left of the file behind the offset, and not at most a page. The
file system writes all of it (`writeBlocks_spec`), so that it is right only where the page is the
last one of the file, or for a length that is a page by chance, when its upper bits are lost.
-/

namespace XMach.PageOut

open FileCache (CacheState)

variable {fs : Fs} {mem : ℕ → Byte} {w : Writing} {file : File}

section Write

/-- What has been written when there is nothing left: `resid` bytes from `base` on to `offset`. -/
structure Written (mem : ℕ → Byte) (base offset resid : ℕ) (file : File) (reads : List (ℕ × ℕ))
    (w : Writing) : Prop where
  data : ∀ a, w.file.data a = if offset ≤ a ∧ a < offset + resid then mem (base + (a - offset))
    else file.data a
  size : w.file.size = if 0 < resid then max file.size (offset + resid) else file.size
  kept : ∀ x ∈ reads, x ∈ w.reads
  within : ∀ x ∈ w.reads, x ∈ reads ∨ (base ≤ x.1 ∧ x.1 + x.2 ≤ base + resid)
  last : 0 < resid → ∃ x ∈ w.reads, x.1 + x.2 = base + resid

theorem written_nothing (mem : ℕ → Byte) (w : Writing) :
    Written mem w.uio.base w.uio.offset 0 w.file w.reads w where
  data a := by rw [if_neg (by omega)]
  size := rfl
  kept x hx := hx
  within x hx := .inl hx
  last h := absurd h (Nat.lt_irrefl 0)

/-- A turn of the loop writes up to the end of the block, which is at least a byte. -/
theorem xfersize_spec (fs : Fs) (offset : ℕ) {resid : ℕ} (h : 0 < resid) :
    ∃ cnt : ℕ, (if (resid : ℤ) < fs.bsize - (offset % fs.bsize : ℕ) then (resid : ℤ)
      else fs.bsize - (offset % fs.bsize : ℕ)) = cnt ∧ 0 < cnt ∧ cnt ≤ resid := by
  have hmod := Nat.mod_lt offset fs.bsize_pos
  by_cases hlt : (resid : ℤ) < fs.bsize - (offset % fs.bsize : ℕ)
  · exact ⟨resid, by rw [if_pos hlt], h, Nat.le_refl _⟩
  · exact ⟨fs.bsize - offset % fs.bsize, by rw [if_neg hlt]; omega, by omega, by omega⟩

theorem uiomove_eq {uio : Uio} {reads : List (ℕ × ℕ)} {resid cnt : ℕ} (hresid : uio.resid = resid)
    (hle : cnt ≤ resid) :
    uiomove mem cnt ⟨file, uio, reads⟩ =
      ⟨⟨fun a => if uio.offset ≤ a ∧ a < uio.offset + cnt then mem (uio.base + (a - uio.offset))
          else file.data a, file.size⟩,
        ⟨uio.base + cnt, (resid - cnt : ℕ), uio.offset + cnt⟩, (uio.base, cnt) :: reads⟩ := by
  have hcnt : (if uio.resid > cnt then (cnt : ℤ) else uio.resid).toNat = cnt := by
    split <;> omega
  have hrest : uio.resid - cnt = (resid - cnt : ℕ) := by omega
  unfold uiomove
  simp only [hcnt, hrest]

/-- The rest after the first `cnt` bytes. -/
theorem Written.cons {base offset resid cnt size : ℕ} {reads : List (ℕ × ℕ)} {data : ℕ → Byte}
    {w' : Writing} (hcnt : 0 < cnt) (hle : cnt ≤ resid) (hdata : ∀ a, data a =
      if offset ≤ a ∧ a < offset + cnt then mem (base + (a - offset)) else file.data a)
    (hsize : size = max file.size (offset + cnt))
    (h : Written mem (base + cnt) (offset + cnt) (resid - cnt) ⟨data,
    size⟩ ((base, cnt) :: reads) w') : Written mem base offset resid file reads w' where
  data a := by
    rw [h.data]
    dsimp only
    rw [hdata]
    by_cases hlt : a < offset + cnt
    · rw [if_neg (by omega)]
      by_cases hfirst : offset ≤ a
      · rw [if_pos ⟨hfirst, hlt⟩, if_pos ⟨hfirst, by omega⟩]
      · rw [if_neg (by omega), if_neg (by omega)]
    · by_cases hlast : a < offset + resid
      · rw [if_pos (by omega), if_pos (by omega),
          show base + cnt + (a - (offset + cnt)) = base + (a - offset) by omega]
      · rw [if_neg (by omega), if_neg (by omega), if_neg (by omega)]
  size := by
    rw [h.size, hsize, if_pos (Nat.lt_of_lt_of_le hcnt hle)]
    dsimp only
    split <;> omega
  kept x hx := h.kept x (List.mem_cons_of_mem _ hx)
  within x hx := by
    rcases h.within x hx with hold | hnew
    · rcases List.mem_cons.mp hold with rfl | hold
      · exact .inr ⟨Nat.le_refl _, by omega⟩
      · exact .inl hold
    · exact .inr (by omega)
  last _ := by
    by_cases hmore : 0 < resid - cnt
    · obtain ⟨x, hx, hend⟩ := h.last hmore
      exact ⟨x, hx, by omega⟩
    · exact ⟨(base, cnt), h.kept _ List.mem_cons_self, by dsimp only; omega⟩

/-- The loop writes all that is left, and every turn writes at least a byte. -/
theorem writeBlocks_spec (fs : Fs) (mem : ℕ → Byte) {turns resid : ℕ} (hturns : resid ≤ turns)
    (hresid : w.uio.resid = resid) :
    Written mem w.uio.base w.uio.offset resid w.file w.reads (writeBlocks fs mem turns w) := by
  induction turns generalizing w resid with
  | zero =>
    obtain rfl : resid = 0 := by omega
    exact written_nothing mem w
  | succ turns ih =>
    unfold writeBlocks
    by_cases hmore : w.uio.resid > 0
    · rw [if_pos hmore]
      dsimp only
      obtain ⟨cnt, hcnt, hpos, hle⟩ := xfersize_spec fs w.uio.offset (by omega : 0 < resid)
      rw [hresid, hcnt]
      rw [uiomove_eq hresid hle]
      have hrest := fun file => @ih ⟨file,
        ⟨w.uio.base + cnt, (resid - cnt : ℕ), w.uio.offset + cnt⟩,
        (w.uio.base, cnt) :: w.reads⟩ (resid - cnt) (by omega) rfl
      refine Written.cons hpos hle (fun a => rfl) ?_ (hrest _)
      dsimp only
      split <;> omega
    · obtain rfl : resid = 0 := by omega
      rw [if_neg hmore]
      exact written_nothing mem w

/-- A length that is an `int` is written as a whole. -/
theorem vnPageinout_spec (fs : Fs) (mem : ℕ → Byte) (base : ℕ) {len : BitVec 32} {offset : ℕ}
    (file : File) (hlen : len.toNat < 0x80000000) (hmax : offset + len.toNat ≤ fs.maxFileSize) :
    Written mem base offset len.toNat file [] (vnPageinout fs mem base len offset file) := by
  have hint : len.toInt = len.toNat := BitVec.toInt_eq_toNat_of_lt (by omega)
  unfold vnPageinout ffsWrite
  rw [if_neg (by dsimp only; omega)]
  have hturns : len.toNat ≤ len.toInt.toNat := by omega
  exact @writeBlocks_spec ⟨file, ⟨base, len.toInt, offset⟩, []⟩ fs mem _ _ hturns hint

/-- A larger one is negative, and nothing is written. -/
theorem vnPageinout_negative (fs : Fs) (mem : ℕ → Byte) (base : ℕ) {len : BitVec 32} (offset : ℕ)
    (file : File)
    (hlen : 0x80000000 ≤ len.toNat) : (vnPageinout fs mem base len offset file).file = file := by
  have hneg : len.toInt.toNat = 0 := by
    rw [BitVec.toInt_eq_toNat_cond, if_neg (by omega)]
    omega
  unfold vnPageinout ffsWrite
  split
  · rfl
  · rw [hneg]
    rfl

end Write

section Request

/-- What a page-out is to do to a file that is mapped by a pager of its size. -/
structure Right (mem : ℕ → Byte) (file : File) (memoryControl offset data length : ℕ) (e : Effect) :
  Prop where
  bytes : ∀ a, e.file.data a =
    if offset ≤ a ∧ a < min (offset + length) file.size then mem (data + (a - offset))
    else file.data a
  size : e.file.size = file.size
  reads : ∀ x ∈ e.reads, data ≤ x.1 ∧ x.1 + x.2 ≤ data + length
  deallocated : e.deallocated = [(data, length)]
  consumed : e.consumed = [memoryControl]

variable {pager : Pager} {state : CacheState} {offset : BitVec 32} {data : ℕ} {bytes : ℕ → Byte}

theorem Written.right {resid length : ℕ} {control offset : ℕ}
    (h : Written mem data offset resid file [] w)
    (hresid : resid = min length (file.size - offset)) :
    Right mem file control offset data length ⟨w.file, w.reads, [(data, length)], [control]⟩ where
  bytes a := by
    rw [h.data]
    by_cases ha : offset ≤ a ∧ a < offset + resid
    · rw [if_pos ha, if_pos (by omega)]
    · rw [if_neg ha, if_neg (by omega)]
  size := by
    rw [h.size]
    split <;> omega
  reads x hx := by
    rcases h.within x hx with hnone | hin
    · cases hnone
    · omega
  deallocated := rfl
  consumed := rfl

theorem dataWrite_eq (fs : Fs) (mem bytes : ℕ → Byte)
    (hstate : state = .moWrite ∨ state = .moCleaning) :
    dataWrite fs mem (some ⟨⟨bytes, pager.size⟩, state, some pager⟩) pager.controlPort offset data
        pager.pageSize =
      some ⟨(if offset.toNat > pager.size then ⟨⟨bytes, pager.size⟩, ⟨data, 0, offset.toNat⟩, []⟩
          else vnPageinout fs mem data (BitVec.ofNat 32 (pager.size - offset.toNat)) offset.toNat
            ⟨bytes, pager.size⟩ : Writing).file,
        (if offset.toNat > pager.size then ⟨⟨bytes, pager.size⟩, ⟨data, 0, offset.toNat⟩, []⟩
          else vnPageinout fs mem data (BitVec.ofNat 32 (pager.size - offset.toNat)) offset.toNat
            ⟨bytes, pager.size⟩ : Writing).reads,
        [(data, pager.pageSize.toNat)], [pager.controlPort]⟩ := by
  unfold dataWrite
  simp [hstate]

/-- A page-out writes exactly the page if and only if the page reaches to the end of the file, or
the rest of the file has the length of a page in 32 bits. -/
theorem dataWrite_right (fs : Fs) (pager : Pager) (hstate : state = .moWrite ∨ state = .moCleaning)
    (hmax : pager.size ≤ fs.maxFileSize) (hpage : 0 < pager.pageSize.toInt) (offset : BitVec 32)
    (data : ℕ) : (∀ mem bytes, ∃ e,
      dataWrite fs mem (some ⟨⟨bytes, pager.size⟩, state, some pager⟩) pager.controlPort offset data
          pager.pageSize = some e ∧
        Right mem ⟨bytes, pager.size⟩ pager.controlPort offset.toNat data pager.pageSize.toNat e) ↔
      pager.size ≤ offset.toNat + pager.pageSize.toNat ∨
        (pager.size - offset.toNat) % 0x100000000 = pager.pageSize.toNat := by
  obtain ⟨hpos, hlt⟩ : 0 < pager.pageSize.toNat ∧ pager.pageSize.toNat < 0x80000000 := by
    rw [BitVec.toInt_eq_toNat_cond] at hpage
    split at hpage <;> omega
  have zero_ne_one : (0 : Byte) ≠ 1 := by decide
  have hlen : (BitVec.ofNat 32 (pager.size - offset.toNat)).toNat =
    (pager.size - offset.toNat) % 0x100000000 :=
    BitVec.toNat_ofNat _ _
  constructor
  · intro h
    by_contra hcond
    -- memory and file differ in every byte
    obtain ⟨e, heq, hright⟩ := h (fun _ => 1) (fun _ => 0)
    rw [dataWrite_eq fs _ _ hstate, if_neg (by omega)] at heq
    cases heq
    have hbyte := hright.bytes (offset.toNat + pager.pageSize.toNat - 1)
    rw [if_pos (by dsimp only; omega)] at hbyte
    dsimp only at hbyte
    by_cases hneg : 0x80000000 ≤ (BitVec.ofNat 32 (pager.size - offset.toNat)).toNat
    · rw [vnPageinout_negative fs _ _ _ _ hneg] at hbyte
      exact absurd hbyte zero_ne_one
    · have hw := vnPageinout_spec fs (fun _ => 1) data ⟨fun _ => 0, pager.size⟩ (by omega)
        (by omega :
          offset.toNat + (BitVec.ofNat 32 (pager.size - offset.toNat)).toNat ≤ fs.maxFileSize)
      rw [hlen] at hw
      rcases Nat.lt_or_ge ((pager.size - offset.toNat) % 0x100000000) pager.pageSize.toNat with
        hshort | hlong
      · -- the last byte of the page is not written
        rw [hw.data, if_neg (by omega)] at hbyte
        exact absurd hbyte zero_ne_one
      · -- bytes behind the page are read
        obtain ⟨x, hx, hend⟩ := hw.last (by omega)
        have := hright.reads x hx
        omega
  · intro hcond mem bytes
    refine ⟨_, dataWrite_eq fs mem bytes hstate, ?_⟩
    by_cases hbeyond : offset.toNat > pager.size
    · rw [if_pos hbeyond]
      exact (written_nothing mem ⟨_, ⟨data, 0, offset.toNat⟩, []⟩).right (by dsimp only; omega)
    · rw [if_neg hbeyond]
      have hw := vnPageinout_spec fs mem data ⟨bytes, pager.size⟩ (by omega)
        (by omega :
          offset.toNat + (BitVec.ofNat 32 (pager.size - offset.toNat)).toNat ≤ fs.maxFileSize)
      rw [hlen] at hw
      exact hw.right (by dsimp only; omega)

/-- A file system with blocks of two pages. -/
def someFs : Fs := ⟨8192, 0x7fffffff, by decide⟩

/-- The last page of a file, half of which is in the file. -/
theorem dataWrite_right_last : ∃ e,
    dataWrite someFs (fun _ => 1)
        (some ⟨⟨fun _ => 0, 6144⟩, .moWrite, some ⟨7, 4096, 6144⟩⟩) 7 4096 0x10000 4096 = some e ∧
      Right (fun _ => 1) ⟨fun _ => 0, 6144⟩ 7 4096 0x10000 4096 e :=
  (dataWrite_right someFs ⟨7, 4096, 6144⟩ (.inl rfl) (by decide) (by decide) 4096 0x10000).mpr
    (.inl (by decide)) (fun _ => 1) (fun _ => 0)

/-- The first of two pages: the second page of the file is written from memory behind the data. -/
theorem first_page_overwrites : ∃ e,
    dataWrite someFs (fun _ => 1)
        (some ⟨⟨fun _ => 0, 8192⟩, .moWrite, some ⟨7, 4096, 8192⟩⟩) 7 0 0x10000 4096 = some e ∧
      e.reads = [(0x10000, 8192)] ∧ e.file.data 4096 = 1 ∧
      ¬ Right (fun _ => 1) ⟨fun _ => 0, 8192⟩ 7 0 0x10000 4096 e := by
  refine ⟨_, rfl, rfl, rfl, fun h => ?_⟩
  have := h.bytes 4096
  exact absurd this (by decide)

end Request

end XMach.PageOut
