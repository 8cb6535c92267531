import XMach.Bootstrap.PagingFile
import XMach.Bootstrap.Proofs.Ext2File
import XMach.Lib.BlockTable

/-!
# Where paging reads and writes

The array of a paging file has the disk blocks of its files, one file behind the other (`Records`).
A transfer begins at the sector of its offset, and it has at most the size of a block, also when it
does not begin with one: so it may go on into the disk block behind, which is that of the next block
of the file only by chance (`paging_isolated`).
-/

namespace XMach.PagingFile

open Bytes
open BlockTable (place)
open Ext2File (Code Volume fsNotInFile treeBlock SmallIndex Sound)

section Build

/-- A paging file while it is built: with the kind it was opened as, and the disk blocks of what was
added, none for a hole. -/
structure Built where
  fdp : FileDirect
  isStructured : Bool
  blocks : List (Option ℕ)

/-- The disk block of a block of a file, if it is not a hole. -/
def ownBlock (v : Volume) (i : ℕ) : Option ℕ := (treeBlock v i).filter fun b => b ≠ 0

/-- The disk blocks when something is added: all whole blocks of a file, and those of a device
instead. -/
def Contents.record : Contents → List (Option ℕ) → List (Option ℕ)
  | .ext2 v _, blocks => blocks ++ (List.range (v.iSize / v.blockSize)).map (ownBlock v)
  | .device (.ok (deviceSize, _)), _ => (List.range (deviceSize / vmPageSize)).map some
  | .device (.error _), blocks => blocks

/-- A paging file is opened, and files are added, each with the outcome of the allocation. -/
def machine : Machine Built (File × Option Code) where
  start b := b.blocks = [] ∧ ∃ dev readFs, ext2OpenFileDirect dev b.isStructured readFs = .ok b.fdp
  step b a :=
    match ext2AddFileDirect b.fdp a.1 a.2 with
    | .ok fdp => some { b with fdp := fdp, blocks := a.1.contents.record b.blocks }
    | .error (.code _) => some b
    | .error _ => none

/-- What is added is of the kind that was opened; the index blocks of a file are in the first 2 GB
and its cache is in order, and a device has records of 512 bytes. -/
def Proper (b : Built) (a : File × Option Code) : Prop :=
  match a.1.contents with
  | .ext2 v s => b.isStructured = true ∧ SmallIndex v ∧ Sound v s []
  | .device status => b.isStructured = false ∧ ∀ deviceSize recordSize,
      status = .ok (deviceSize, recordSize) → deviceSize < 0x100000000 ∧ recordSize = devBsize

/-- The block size and its shifts. -/
structure Shifts (fdp : FileDirect) : Prop where
  bsize : fdp.fdBsize = 1024 ∧ fdp.fdBshift = 10 ∨ fdp.fdBsize = 2048 ∧ fdp.fdBshift = 11 ∨
    fdp.fdBsize = 4096 ∧ fdp.fdBshift = 12

theorem Shifts.eq {fdp : FileDirect} (h : Shifts fdp) (x : ℕ) :
    x <<< fdp.fdBshift = x * fdp.fdBsize ∧
    x >>> fdp.fdBshift = x / fdp.fdBsize ∧ x &&& (fdp.fdBsize - 1) = x % fdp.fdBsize := by
  rcases h.bsize with ⟨hsize, hshift⟩ | ⟨hsize, hshift⟩ | ⟨hsize, hshift⟩
  · rw [hsize, hshift]
    exact ⟨Nat.shiftLeft_eq x 10, Nat.shiftRight_eq_div_pow x 10,
      Nat.and_two_pow_sub_one_eq_mod x 10⟩
  · rw [hsize, hshift]
    exact ⟨Nat.shiftLeft_eq x 11, Nat.shiftRight_eq_div_pow x 11,
      Nat.and_two_pow_sub_one_eq_mod x 11⟩
  · rw [hsize, hshift]
    exact ⟨Nat.shiftLeft_eq x 12, Nat.shiftRight_eq_div_pow x 12,
      Nat.and_two_pow_sub_one_eq_mod x 12⟩

/-- The structure has what was added. -/
structure Records (b : Built) : Prop where
  shifts : Shifts b.fdp
  /-- once there is something -/
  sectors : b.blocks ≠ [] → devBsize <<< b.fdp.fdFsbtodb = b.fdp.fdBsize
  size : word (b.fdp.fdSize <<< b.fdp.fdBshift) = word (b.blocks.length * b.fdp.fdBsize)
  structured : b.isStructured = true → devBsize <<< b.fdp.fdFsbtodb = b.fdp.fdBsize ∧
    b.fdp.fdSize = b.blocks.length ∧ b.blocks.length ≤ 0x20200000 ∧ some 0 ∉ b.blocks ∧
    b.fdp.fdBlocks = if b.blocks = [] then none else some (b.blocks.map fun x => x.getD 0)
  device : b.isStructured = false → b.fdp.fdBlocks = none ∧ b.fdp.fdBsize = vmPageSize ∧
    ∃ n, b.blocks = (List.range n).map some

variable {b b' : Built} {v : Volume} {s : Ext2File.State} {fp : File} {outcome : Option Code}

theorem records_start (h : machine.start b) : Records b := by
  obtain ⟨hblocks, dev, readFs, hopen⟩ := h
  unfold ext2OpenFileDirect at hopen
  cases hkind : b.isStructured with
  | false =>
    rw [hkind] at hopen
    have hfdp : b.fdp = ⟨dev, none, 0, vmPageSize, 12, 0⟩ := (Except.ok.inj hopen).symm
    refine ⟨⟨?_⟩, fun hne => absurd hblocks hne, ?_, fun h => ?_, fun _ => ⟨?_, ?_, 0, hblocks⟩⟩
    · rw [hfdp]
      exact .inr (.inr ⟨rfl, rfl⟩)
    · rw [hfdp, hblocks]
      rfl
    · rw [hkind] at h
      cases h
    · rw [hfdp]
    · rw [hfdp]
  | true =>
    rw [hkind] at hopen
    rcases readFs with rc | ⟨bsize, hbsize⟩
    · cases hopen
    · rcases hbsize with rfl | rfl | rfl
      all_goals
        have hfdp := (Except.ok.inj hopen).symm
        refine ⟨⟨?_⟩, fun hne => absurd hblocks hne, ?_, fun _ => ⟨?_, ?_, ?_, ?_, ?_⟩, fun h => ?_⟩
        · rw [hfdp]
          first | exact .inl ⟨rfl,
            rfl⟩ | exact .inr (.inl ⟨rfl, rfl⟩) | exact .inr (.inr ⟨rfl, rfl⟩)
        · rw [hfdp, hblocks]
          rfl
        · rw [hfdp]
          rfl
        · rw [hfdp, hblocks]
          rfl
        · rw [hblocks]
          decide
        · rw [hblocks]
          exact List.not_mem_nil
        · rw [hfdp, hblocks]
          rfl
        · rw [hkind] at h
          cases h

theorem mapBlocks_spec (hsmall : SmallIndex v) (hsound : Sound v s []) {n i : ℕ}
    (hlt : i + n ≤ 0x400000) {blocks : List ℕ} (h : (mapBlocks v n i s).1 = .ok blocks) :
    blocks.map some = (List.range' i n).map (treeBlock v) := by
  induction n generalizing i s blocks with
  | zero =>
    cases h
    rfl
  | succ n ih =>
    have hi : i < 0x400000 := by omega
    obtain ⟨out, s₁, target, hmap, hwalked, htree⟩ :=
      Ext2File.blockMap_spec hsound hi (hsmall.path hi)
    unfold mapBlocks at h
    rw [hmap] at h
    rcases out with rc | block
    · cases h
    · obtain ⟨rfl, hsound₁, -⟩ := hwalked.ok block rfl
      dsimp only at h
      rcases hrest : mapBlocks v n (i + 1) s₁ with ⟨_ | rest, s₂⟩
      · rw [hrest] at h
        cases h
      · rw [hrest] at h
        cases h
        have hnext := ih hsound₁ (i := i + 1) (by omega) (congrArg Prod.fst hrest)
        rw [List.range'_succ, List.map_cons, List.map_cons, htree, hnext]

/-- As they are in the array, with 0 for a hole. -/
theorem own_of_mapBlocks (hsmall : SmallIndex v) (hsound : Sound v s []) {n : ℕ}
    (hlt : n ≤ 0x400000) {blocks : List ℕ} (h : (mapBlocks v n 0 s).1 = .ok blocks) :
    blocks = ((List.range n).map (ownBlock v)).map fun x => x.getD 0 := by
  have hmap := mapBlocks_spec hsmall hsound (i := 0) (by omega) h
  have hget : blocks = (blocks.map some).map fun x => ((x.filter fun b => b ≠ 0).getD 0) := by
    rw [List.map_map]
    refine (List.map_id blocks).symm.trans (List.map_congr_left fun b _ => ?_)
    by_cases hb : b = 0
    · rw [hb]
      rfl
    · simp [Option.filter, hb]
  rw [hget, hmap, List.map_map, List.map_map, List.range_eq_range']
  rfl

theorem numBlocks_lt (v : Volume) : v.iSize / v.blockSize < 0x400000 := by
  have hsize := v.iSize_lt
  rcases v.blockSize_eq with h | h | h <;> rw [h] <;> omega

theorem ownBlock_ne_zero (v : Volume) (i : ℕ) : ownBlock v i ≠ some 0 := by
  unfold ownBlock
  intro h
  have hzero := (Option.filter_eq_some_iff.mp h).2
  simp at hzero

/-- The old addresses are those of what was added before. -/
theorem Records.oldBlocks_eq (h : Records b) (hkind : b.isStructured = true) :
    (b.fdp.fdBlocks.getD []).length = b.fdp.fdSize ∧
    oldBlocks b.fdp = .ok (b.blocks.map fun x => x.getD 0) := by
  obtain ⟨-, hsize, -, -, hblocks⟩ := h.structured hkind
  unfold oldBlocks
  rw [hblocks, hsize]
  by_cases hnil : b.blocks = []
  · rw [if_pos hnil, hnil]
    exact ⟨rfl, rfl⟩
  · rw [if_neg hnil]
    refine ⟨List.length_map _, ?_⟩
    dsimp only
    rw [List.length_map, if_neg (Nat.lt_irrefl _), ← List.length_map (fun x : Option ℕ => x.getD 0),
      List.take_length]

/-- Two arrays are in the address space at once, unless the new one is empty. -/
theorem vmAllocate_none {outcome : Option Code} {used size : ℕ}
    (h : vmAllocate outcome used size = none) : size = 0 ∨ used + size ≤ 0x100000000 := by
  unfold vmAllocate at h
  split at h
  · rename_i hzero
    exact .inl hzero
  · split at h
    · cases h
    · rename_i hle
      exact .inr (Nat.le_of_not_lt hle)

/-- A file is added: its blocks come behind the others. -/
theorem add_ext2 (h : Records b) (hkind : b.isStructured = true) (hsmall : SmallIndex v)
    (hsound : Sound v s []) (hcontents : fp.contents = .ext2 v s) :
    (∃ rc, ext2AddFileDirect b.fdp fp outcome = .error (.code rc)) ∨
      ∃ fdp, ext2AddFileDirect b.fdp fp outcome = .ok fdp ∧
        Records { b with fdp := fdp, blocks := fp.contents.record b.blocks } := by
  obtain ⟨hsectors, hsize, hbound, hnonzero, -⟩ := h.structured hkind
  obtain ⟨hlength, hold⟩ := h.oldBlocks_eq hkind
  have hnum := numBlocks_lt v
  unfold ext2AddFileDirect
  rw [hcontents]
  dsimp only
  split
  · exact .inl ⟨_, rfl⟩
  split
  · exact .inl ⟨_, rfl⟩
  rename_i hbsize
  generalize hn : v.iSize / v.blockSize = n at hnum ⊢
  have hword : word ((n + b.fdp.fdSize) * 4) = (n + b.fdp.fdSize) * 4 := by
    unfold word
    omega
  rw [hword, hlength]
  rcases halloc : vmAllocate outcome (b.fdp.fdSize * 4) ((n + b.fdp.fdSize) * 4) with _ | rc
  swap
  · exact .inl ⟨rc, rfl⟩
  dsimp only
  rw [if_neg (not_not.mpr rfl)]
  rcases hmap : (mapBlocks v n 0 s).1 with rc | new
  · exact .inl ⟨rc, rfl⟩
  dsimp only
  have hnew := own_of_mapBlocks hsmall hsound (by omega) hmap
  rw [hold]
  refine .inr ⟨_, rfl, ?_⟩
  have hfits := vmAllocate_none halloc
  have hrecord :
    (Contents.ext2 v s).record b.blocks = b.blocks ++ (List.range n).map (ownBlock v) := by
    rw [← hn]
    rfl
  have hlen : (b.blocks ++ (List.range n).map (ownBlock v)).length = b.fdp.fdSize + n := by
    rw [List.length_append, List.length_map, List.length_range, hsize]
  have hsum : word (b.fdp.fdSize + n) = b.fdp.fdSize + n := by
    unfold word
    omega
  have hnil : (n + b.fdp.fdSize) * 4 = 0 ↔ b.blocks ++ (List.range n).map (ownBlock v) = [] := by
    rw [← List.length_eq_zero_iff, hlen]
    omega
  rw [hrecord, hsum]
  refine ⟨⟨h.shifts.bsize⟩, fun _ => hsectors, ?_, fun _ => ⟨hsectors, hlen.symm, ?_, ?_, ?_⟩,
    fun hdevice => ?_⟩
  · dsimp only
    rw [hlen, (h.shifts.eq _).1]
  · dsimp only
    rw [hlen]
    omega
  · refine fun hmem => (List.mem_append.mp hmem).elim hnonzero fun hown => ?_
    obtain ⟨i, -, hi⟩ := List.mem_map.mp hown
    exact ownBlock_ne_zero v i hi
  · dsimp only
    rw [List.map_append, ← hnew]
    exact if_congr hnil rfl rfl
  · rw [hkind] at hdevice
    cases hdevice

/-- A device is added: all its blocks. -/
theorem add_device {status : Except Code (ℕ × ℕ)} (h : Records b) (hkind : b.isStructured = false)
    (hstatus : ∀ deviceSize recordSize, status = .ok (deviceSize, recordSize) →
      deviceSize < 0x100000000 ∧ recordSize = devBsize) (hcontents : fp.contents = .device status) :
    (∃ rc, ext2AddFileDirect b.fdp fp outcome = .error (.code rc)) ∨
      ∃ fdp, ext2AddFileDirect b.fdp fp outcome = .ok fdp ∧
        Records { b with fdp := fdp, blocks := fp.contents.record b.blocks } := by
  obtain ⟨hblocks, hbsize, -⟩ := h.device hkind
  unfold ext2AddFileDirect
  rw [hcontents]
  split
  · exact .inl ⟨_, rfl⟩
  rcases status with rc | ⟨deviceSize, recordSize⟩
  · exact .inl ⟨rc, rfl⟩
  obtain ⟨hlt, rfl⟩ := hstatus _ _ rfl
  have hshift : b.fdp.fdBshift = 12 := by
    rcases h.shifts.bsize with ⟨hsize, hshift⟩ | ⟨hsize, hshift⟩ | ⟨-, hshift⟩
    · exact absurd (hsize.symm.trans hbsize) (by decide)
    · exact absurd (hsize.symm.trans hbsize) (by decide)
    · exact hshift
  rw [hbsize]
  refine .inr ⟨_, rfl, ⟨.inr (.inr ⟨rfl, hshift⟩)⟩, fun _ => rfl, ?_, fun hstructured => ?_,
    fun _ => ⟨hblocks, rfl, _, rfl⟩⟩
  · dsimp only [Contents.record]
    rw [List.length_map, List.length_range, hshift]
    unfold word sar vmPageSize
    rw [Nat.shiftLeft_eq, Nat.shiftRight_eq_div_pow, Nat.shiftRight_eq_div_pow]
    split <;> omega
  · rw [hkind] at hstructured
    cases hstructured

/-- What is added properly is added or refused, and the structure has it. -/
theorem records_step {a : File × Option Code} (h : Records b) (hproper : Proper b a) :
    ∃ b', machine.step b a = some b' ∧ Records b' := by
  have hadd : (∃ rc, ext2AddFileDirect b.fdp a.1 a.2 = .error (.code rc)) ∨
      ∃ fdp, ext2AddFileDirect b.fdp a.1 a.2 = .ok fdp ∧
        Records { b with fdp := fdp, blocks := a.1.contents.record b.blocks } := by
    unfold Proper at hproper
    rcases hcontents : a.1.contents with status | ⟨v, s⟩
    · rw [hcontents] at hproper
      rw [← hcontents]
      exact add_device h hproper.1 hproper.2 hcontents
    · rw [hcontents] at hproper
      rw [← hcontents]
      exact add_ext2 h hproper.1 hproper.2.1 hproper.2.2 hcontents
  dsimp only [machine]
  rcases hadd with ⟨rc, heq⟩ | ⟨fdp, heq, hrecords⟩
  · rw [heq]
    exact ⟨b, rfl, h⟩
  · rw [heq]
    exact ⟨_, rfl, hrecords⟩

theorem records_reach (h : machine.Reach Proper b) : Records b := by
  refine h.inv (fun _ => records_start) fun b a b' hb hproper hstep => ?_
  obtain ⟨b₁, heq, hrecords⟩ := records_step hb hproper
  cases hstep.symm.trans heq
  exact hrecords

end Build

section Access

variable {b : Built} {offset size : ℕ} {fdp : FileDirect} {o : Outcome}

/-- The number of bytes that the device transfers in a call. -/
def transferred (fdp : FileDirect) (o : Outcome) (offset size : ℕ) : ℕ :=
  match request fdp offset size with
  | .error _ => 0
  | .ok (_, size) => min o.count size

/-- The sectors that a call reads or writes. -/
def accessed (fdp : FileDirect) (o : Outcome) (offset size : ℕ) : List ℕ :=
  match request fdp offset size with
  | .error _ => []
  | .ok (recnum, size) => (List.range ((min o.count size + (devBsize - 1)) / devBsize)).map fun k =>
      recnum + k

theorem read_accessed {disk disk' : Disk} (h : ∀ a, a / devBsize ∈ accessed fdp o offset size →
    disk a = disk' a) :
    ext2PageReadFileDirect fdp disk o offset size =
    ext2PageReadFileDirect fdp disk' o offset size := by
  unfold accessed at h
  unfold ext2PageReadFileDirect
  rcases hrequest : request fdp offset size with stop | ⟨recnum, n⟩
  · rfl
  · rw [hrequest] at h
    dsimp only at h ⊢
    rcases o.rc with _ | rc
    · refine congrArg Except.ok (List.map_congr_left fun i hi =>
        h _ (List.mem_map.mpr ⟨i / devBsize, ?_, ?_⟩))
      · have hi := List.mem_range.mp hi
        unfold devBsize
        exact List.mem_range.mpr (by omega)
      · unfold devBsize
        omega
    · rfl

theorem write_eq (disk : Disk) (a n : ℕ) (addr : ℕ → Byte) (x : ℕ) :
    write disk a ((List.range n).map addr) x = if a ≤ x ∧
    x < a + n then addr (x - a) else disk x := by
  unfold write
  by_cases hle : a ≤ x
  · rw [if_pos hle, List.getElem?_map]
    by_cases hlt : x < a + n
    · rw [if_pos ⟨hle, hlt⟩, List.getElem?_range (by omega)]
      rfl
    · rw [if_neg fun h => hlt h.2, List.getElem?_eq_none (by rw [List.length_range]; omega)]
      rfl
  · rw [if_neg hle, if_neg fun h => hle h.1]

theorem written_disk (disk : Disk) (addr : ℕ → Byte) (fdp : FileDirect) (o : Outcome)
    (offset size : ℕ) : (ext2PageWriteFileDirect fdp disk o offset addr size).2 =
      match request fdp offset size with
      | .error _ => disk
      | .ok (recnum, size) => write disk (recnum * devBsize)
          ((List.range (min o.count size)).map addr) := by
  unfold ext2PageWriteFileDirect
  rcases request fdp offset size with stop | ⟨recnum, n⟩
  · rfl
  · dsimp only
    rcases o.rc with _ | rc <;> rfl

theorem write_accessed (disk : Disk) (addr : ℕ → Byte) {a : ℕ}
    (h : a / devBsize ∉ accessed fdp o offset size) :
    (ext2PageWriteFileDirect fdp disk o offset addr size).2 a = disk a := by
  unfold accessed at h
  rw [written_disk]
  rcases hrequest : request fdp offset size with stop | ⟨recnum, n⟩
  · rfl
  · rw [hrequest] at h
    dsimp only at h ⊢
    rw [write_eq, if_neg]
    rintro ⟨hle, hlt⟩
    refine h (List.mem_map.mpr ⟨a / devBsize - recnum, ?_, ?_⟩)
    · unfold devBsize at *
      exact List.mem_range.mpr (by omega)
    · unfold devBsize at *
      omega

/-- The sectors of a block. -/
def Built.width (b : Built) : ℕ := b.fdp.fdBsize / devBsize

theorem Records.width_eq (h : Records b) : b.fdp.fdBsize = devBsize * b.width ∧ 0 < b.width := by
  unfold Built.width devBsize
  rcases h.shifts.bsize with ⟨hsize, -⟩ | ⟨hsize, -⟩ | ⟨hsize, -⟩ <;> rw [hsize] <;> decide

theorem Records.sector_eq (h : Records b) (offset : ℕ) :
    offset / b.fdp.fdBsize = offset / devBsize / b.width ∧
      offset % b.fdp.fdBsize / devBsize = offset / devBsize % b.width := by
  rw [h.width_eq.1]
  exact ⟨(Nat.div_div_eq_div_mul _ _ _).symm, Nat.mod_mul_right_div_self _ _ _⟩

theorem Records.fsbtodb_eq (h : Records b) (hne : b.blocks ≠ []) (block : ℕ) :
    fdirFsbtodb b.fdp block = word (block * b.width) := by
  have hsectors := h.sectors hne
  rw [h.width_eq.1, Nat.shiftLeft_eq] at hsectors
  unfold fdirFsbtodb
  rw [Nat.shiftLeft_eq, Nat.eq_of_mul_eq_mul_left (by decide : 0 < devBsize) hsectors]

theorem Records.diskBlock_some (h : Records b) {i block : ℕ}
    (hi : b.blocks[i]? = some (some block)) : diskBlock b.fdp i = .ok block := by
  have hmem : some block ∈ b.blocks := List.mem_of_getElem? hi
  unfold diskBlock
  cases hkind : b.isStructured with
  | true =>
    obtain ⟨-, -, -, hnonzero, hblocks⟩ := h.structured hkind
    have hzero : block ≠ 0 := by
      rintro rfl
      exact hnonzero hmem
    rw [hblocks, if_neg (List.ne_nil_of_mem hmem)]
    dsimp only
    rw [List.getElem?_map, hi]
    exact if_neg hzero
  | false =>
    obtain ⟨hblocks, -, n, hrange⟩ := h.device hkind
    rw [hblocks]
    rw [hrange, List.getElem?_map] at hi
    obtain ⟨x, hx, heq⟩ := Option.map_eq_some_iff.mp hi
    obtain ⟨hlt, hget⟩ := List.getElem?_eq_some_iff.mp hx
    rw [List.getElem_range] at hget
    rw [hget]
    exact congrArg Except.ok (Option.some.inj heq)

theorem Records.diskBlock_none (h : Records b) {i : ℕ} (hi : b.blocks[i]? = some none) :
    diskBlock b.fdp i = .error (.code fsNotInFile) := by
  have hmem : none ∈ b.blocks := List.mem_of_getElem? hi
  unfold diskBlock
  cases hkind : b.isStructured with
  | true =>
    obtain ⟨-, -, -, -, hblocks⟩ := h.structured hkind
    rw [hblocks, if_neg (List.ne_nil_of_mem hmem)]
    dsimp only
    rw [List.getElem?_map, hi]
    rfl
  | false =>
    obtain ⟨-, -, n, hrange⟩ := h.device hkind
    rw [hrange] at hmem
    obtain ⟨x, -, hx⟩ := List.mem_map.mp hmem
    cases hx

/-- An offset is refused that is not below the size, as far as it has 32 bits. -/
theorem Records.request_refused (h : Records b) (hoffset : offset % devBsize = 0)
    (hsize : size % devBsize = 0) (hge : word (b.blocks.length * b.fdp.fdBsize) ≤ offset) :
    request b.fdp offset size = .error (.code fsNotInFile) := by
  unfold request
  rw [if_neg (by rintro (hne | hne); exacts [hne hoffset, hne hsize]), h.size, if_pos hge]

/-- Otherwise the array is looked at. -/
theorem Records.request_eq (h : Records b) (hoffset : offset % devBsize = 0)
    (hsize : size % devBsize = 0) (hlt : offset < word (b.blocks.length * b.fdp.fdBsize)) :
    request b.fdp offset size = (diskBlock b.fdp (offset / b.fdp.fdBsize)).bind fun block =>
      .ok (word (word (block * b.width) + offset % b.fdp.fdBsize / devBsize),
      min size b.fdp.fdBsize) := by
  have hne : b.blocks ≠ [] := by
    intro hnil
    rw [hnil, List.length_nil, Nat.zero_mul] at hlt
    exact absurd hlt (Nat.not_lt_zero _)
  have hmin : (if size > b.fdp.fdBsize then b.fdp.fdBsize else size) = min size b.fdp.fdBsize := by
    split <;> omega
  unfold request fdirLblkno fdirBlkoff btodb
  rw [if_neg (by rintro (hne | hne); exacts [hne hoffset, hne hsize]), h.size,
    if_neg (Nat.not_le.mpr hlt),
    (h.shifts.eq offset).2.1, (h.shifts.eq offset).2.2, hmin, Nat.shiftRight_eq_div_pow]
  simp only [h.fsbtodb_eq hne]
  rfl

theorem Records.block_at (h : Records b) (hlt : offset < word (b.blocks.length * b.fdp.fdBsize)) :
    ∃ block, b.blocks[offset / b.fdp.fdBsize]? = some block := by
  have hpos : 0 < b.fdp.fdBsize := by
    rw [h.width_eq.1]
    exact Nat.mul_pos (by decide) h.width_eq.2
  have hindex : offset / b.fdp.fdBsize < b.blocks.length :=
    (Nat.div_lt_iff_lt_mul hpos).mpr (Nat.lt_of_lt_of_le hlt (Nat.mod_le _ _))
  exact ⟨_, List.getElem?_eq_getElem hindex⟩

/-- The place on the disk of a byte of the file. -/
def Built.bytePlace (b : Built) (i : ℕ) : Option ℕ :=
  (place b.blocks b.width (i / devBsize)).map fun sector => sector * devBsize + i % devBsize

/-- What a call at an offset does. -/
structure Isolated (b : Built) (offset size : ℕ) : Prop where
  /-- offsets at or beyond the size are refused -/
  refused : b.blocks.length * b.fdp.fdBsize ≤ offset → ∀ disk o addr,
    ext2PageReadFileDirect b.fdp disk o offset size = .error (.code fsNotInFile) ∧
      ext2PageWriteFileDirect b.fdp disk o offset addr size = (.error (.code fsNotInFile), disk)
  /-- a request is made or refused -/
  stops : ∀ stop, request b.fdp offset size = .error stop → stop = .code fsNotInFile
  /-- the sectors are those of the bytes in the file, in order -/
  sectors : ∀ o, (accessed b.fdp o offset size).map some =
    (List.range (accessed b.fdp o offset size).length).map fun k =>
    place b.blocks b.width (offset / devBsize + k)
  /-- they are in no other block -/
  own : ∀ o, ∀ sector ∈ accessed b.fdp o offset size, some (sector / b.width) ∈ b.blocks
  read : ∀ disk o bytes, ext2PageReadFileDirect b.fdp disk o offset size = .ok bytes →
    bytes.map some = (List.range bytes.length).map fun i => (b.bytePlace (offset + i)).map disk
  written : ∀ disk o addr, ∀ i < transferred b.fdp o offset size, ∃ a,
    b.bytePlace (offset + i) = some a ∧
    (ext2PageWriteFileDirect b.fdp disk o offset addr size).2 a = addr i
  kept : ∀ disk o addr a, (∀ i < transferred b.fdp o offset size,
    b.bytePlace (offset + i) ≠ some a) →
    (ext2PageWriteFileDirect b.fdp disk o offset addr size).2 a = disk a

/-- A call that asks for something, at an offset in a block, has the number of the sector in 32
bits, and it does not reach beyond the block, or the next block of the file is the next one on the
disk. -/
def Fits (b : Built) (offset size : ℕ) : Prop :=
  offset < word (b.blocks.length * b.fdp.fdBsize) → 0 < size →
    ∀ block, b.blocks[offset / b.fdp.fdBsize]? = some (some block) →
      block * b.width + offset % b.fdp.fdBsize / devBsize < 0x100000000 ∧
        (offset % b.fdp.fdBsize + min size b.fdp.fdBsize ≤ b.fdp.fdBsize ∨
          b.blocks[offset / b.fdp.fdBsize + 1]? = some (some (block + 1)))

theorem isolated_of_refused (h : request b.fdp offset size = .error (.code fsNotInFile)) :
    Isolated b offset size := by
  have haccessed : ∀ o, accessed b.fdp o offset size = [] := fun o => by
    unfold accessed
    rw [h]
  have hread : ∀ disk o, ext2PageReadFileDirect b.fdp disk o offset size =
    .error (.code fsNotInFile) := by
    intro disk o
    unfold ext2PageReadFileDirect
    rw [h]
  have hwrite : ∀ disk o addr, ext2PageWriteFileDirect b.fdp disk o offset addr size =
      (.error (.code fsNotInFile), disk) := by
    intro disk o addr
    unfold ext2PageWriteFileDirect
    rw [h]
  refine ⟨fun _ disk o addr => ⟨hread disk o, hwrite disk o addr⟩, ?_, ?_, ?_, ?_, ?_, ?_⟩
  · intro stop hstop
    cases h.symm.trans hstop
    rfl
  · intro o
    rw [haccessed]
    rfl
  · intro o sector hsector
    rw [haccessed] at hsector
    exact absurd hsector List.not_mem_nil
  · intro disk o bytes hbytes
    cases (hread disk o).symm.trans hbytes
  · intro disk o addr i hi
    unfold transferred at hi
    rw [h] at hi
    exact absurd hi (Nat.not_lt_zero i)
  · intro disk o addr a _
    rw [hwrite]

/-- The sectors from one on are those of the file. -/
def Follows (b : Built) (offset recnum n : ℕ) : Prop :=
  ∀ k < n, place b.blocks b.width (offset / devBsize + k) = some (recnum + k)

theorem Follows.byte {recnum n i : ℕ} (h : Follows b offset recnum n)
    (hoffset : offset % devBsize = 0)
    (hi : i < n * devBsize) : b.bytePlace (offset + i) = some (recnum * devBsize + i) := by
  have hdiv : (offset + i) / devBsize = offset / devBsize + i / devBsize ∧
    (offset + i) % devBsize = i % devBsize := by
    unfold devBsize at *
    omega
  unfold Built.bytePlace
  rw [hdiv.1, hdiv.2, h (i / devBsize) (Nat.div_lt_of_lt_mul (Nat.mul_comm n devBsize ▸ hi))]
  refine congrArg some ?_
  show (recnum + i / devBsize) * devBsize + i % devBsize = recnum * devBsize + i
  unfold devBsize
  omega

/-- A request for such sectors is isolated. -/
theorem isolated_of_follows {recnum n : ℕ} (hwidth : 0 < b.width) (hoffset : offset % devBsize = 0)
    (hinside : offset < b.blocks.length * b.fdp.fdBsize) (hn : n % devBsize = 0)
    (hrequest : request b.fdp offset size = .ok (recnum, n))
    (h : Follows b offset recnum (n / devBsize)) : Isolated b offset size := by
  have hcount : ∀ o : Outcome, (min o.count n + (devBsize - 1)) / devBsize ≤ n / devBsize :=
    fun o => by
    unfold devBsize at *
    omega
  have hbytes : n / devBsize * devBsize = n := by
    unfold devBsize at *
    omega
  have haccessed : ∀ o, accessed b.fdp o offset size =
      (List.range ((min o.count n + (devBsize - 1)) / devBsize)).map fun k => recnum + k :=
      fun o => by
    unfold accessed
    rw [hrequest]
  have htransferred : ∀ o, transferred b.fdp o offset size = min o.count n := fun o => by
    unfold transferred
    rw [hrequest]
  have hdisk : ∀ disk o addr a, (ext2PageWriteFileDirect b.fdp disk o offset addr size).2 a =
      if recnum * devBsize ≤ a ∧ a < recnum * devBsize + min o.count n then
        addr (a - recnum * devBsize)
      else disk a := by
    intro disk o addr a
    rw [written_disk, hrequest]
    exact write_eq _ _ _ _ _
  refine ⟨fun hge => absurd hinside (Nat.not_lt.mpr hge), ?_, ?_, ?_, ?_, ?_, ?_⟩
  · intro stop hstop
    cases hrequest.symm.trans hstop
  · intro o
    rw [haccessed, List.length_map, List.length_range, List.map_map]
    refine List.map_congr_left fun k hk => (h k ?_).symm
    exact Nat.lt_of_lt_of_le (List.mem_range.mp hk) (hcount o)
  · intro o sector hsector
    rw [haccessed] at hsector
    obtain ⟨k, hk, rfl⟩ := List.mem_map.mp hsector
    exact BlockTable.mem_of_place hwidth
      (h k (Nat.lt_of_lt_of_le (List.mem_range.mp hk) (hcount o)))
  · intro disk o bytes hok
    unfold ext2PageReadFileDirect at hok
    rw [hrequest] at hok
    dsimp only at hok
    split at hok
    · cases hok
    · cases hok
      unfold Bytes.read
      rw [List.length_map, List.length_range, List.map_map]
      refine List.map_congr_left fun i hi => ?_
      have hi := List.mem_range.mp hi
      rw [h.byte hoffset (by rw [hbytes]; omega)]
      rfl
  · intro disk o addr i hi
    rw [htransferred] at hi
    refine ⟨_, h.byte hoffset (by rw [hbytes]; omega), ?_⟩
    rw [hdisk, if_pos ⟨Nat.le_add_right _ _, Nat.add_lt_add_left hi _⟩, Nat.add_sub_cancel_left]
  · intro disk o addr a hother
    rw [hdisk, if_neg]
    rintro ⟨hle, hlt⟩
    have hi : a - recnum * devBsize < min o.count n := by omega
    refine hother (a - recnum * devBsize) (by rw [htransferred]; exact hi) ?_
    rw [h.byte hoffset (by rw [hbytes]; omega), Nat.add_sub_cancel' hle]

/-- An isolated request is for such sectors. -/
theorem follows_of_isolated {recnum n : ℕ} (hn : n % devBsize = 0)
    (hrequest : request b.fdp offset size = .ok (recnum, n)) (h : Isolated b offset size) :
    Follows b offset recnum (n / devBsize) := by
  -- the device transfers all
  have hall := h.sectors ⟨n, none⟩
  have hcount : (min n n + (devBsize - 1)) / devBsize = n / devBsize := by
    unfold devBsize at *
    omega
  unfold accessed at hall
  rw [hrequest] at hall
  dsimp only at hall
  rw [hcount, List.length_map, List.length_range, List.map_map] at hall
  exact fun k hk => (List.map_inj_left.mp hall k (List.mem_range.mpr hk)).symm

/-- A transfer reaches beyond its block by sectors as by bytes. -/
theorem Records.in_block_iff (h : Records b) {n : ℕ} (hoffset : offset % devBsize = 0)
    (hn : n % devBsize = 0) :
    offset / devBsize % b.width + n / devBsize ≤ b.width ↔
    offset % b.fdp.fdBsize + n ≤ b.fdp.fdBsize := by
  obtain ⟨hbsize, -⟩ := h.width_eq
  have haligned : offset % b.fdp.fdBsize % devBsize = 0 := by
    rw [hbsize, Nat.mod_mul_right_mod]
    exact hoffset
  rw [← (h.sector_eq offset).2]
  generalize offset % b.fdp.fdBsize = off at haligned ⊢
  rw [hbsize]
  unfold devBsize at *
  omega

theorem word_sector_iff (x y : ℕ) : word (word x + y) = x + y ↔ x + y < 0x100000000 := by
  unfold word
  omega

/-- Paging at an offset reads and writes just the sectors of the file there, if and only if the
transfer fits. -/
theorem paging_isolated (h : machine.Reach Proper b) (hoffset : offset % devBsize = 0)
    (hsize : size % devBsize = 0) : Isolated b offset size ↔ Fits b offset size := by
  have hrecords := records_reach h
  obtain ⟨hbsize, hwidth⟩ := hrecords.width_eq
  by_cases hge : word (b.blocks.length * b.fdp.fdBsize) ≤ offset
  · exact ⟨fun _ hlt => absurd hge (Nat.not_le.mpr hlt),
      fun _ => isolated_of_refused (hrecords.request_refused hoffset hsize hge)⟩
  have hlt := Nat.lt_of_not_le hge
  have hinside : offset < b.blocks.length * b.fdp.fdBsize := Nat.lt_of_lt_of_le hlt (Nat.mod_le _ _)
  have hrequest := hrecords.request_eq hoffset hsize hlt
  obtain ⟨hole | block, hblock⟩ := hrecords.block_at hlt
  · -- a hole is refused as well
    rw [hrecords.diskBlock_none hblock] at hrequest
    refine ⟨fun _ _ _ block hsome => ?_, fun _ => isolated_of_refused hrequest⟩
    cases hblock.symm.trans hsome
  rw [hrecords.diskBlock_some hblock] at hrequest
  have hrequest : request b.fdp offset size =
      .ok (word (word (block * b.width) + offset % b.fdp.fdBsize / devBsize),
      min size b.fdp.fdBsize) := hrequest
  have hn : min size b.fdp.fdBsize % devBsize = 0 := by
    rw [hbsize]
    unfold devBsize at *
    omega
  have hfollows : Isolated b offset size ↔ Follows b offset
      (word (word (block * b.width) + offset % b.fdp.fdBsize / devBsize))
        (min size b.fdp.fdBsize / devBsize) :=
    ⟨follows_of_isolated hn hrequest, isolated_of_follows hwidth hoffset hinside hn hrequest⟩
  rw [hfollows]
  rcases Nat.eq_zero_or_pos size with rfl | hpos
  · -- nothing is transferred
    refine ⟨fun _ _ hpos => absurd hpos (Nat.lt_irrefl 0), fun _ k hk => ?_⟩
    rw [Nat.zero_min, Nat.zero_div] at hk
    exact absurd hk (Nat.not_lt_zero k)
  obtain ⟨hdiv, hmod⟩ := hrecords.sector_eq offset
  have hsome : b.blocks[offset / devBsize / b.width]? = some (some block) := hdiv ▸ hblock
  have hfirst : 0 < min size b.fdp.fdBsize / devBsize := by
    rw [hbsize]
    unfold devBsize at *
    omega
  have hle : min size b.fdp.fdBsize / devBsize ≤ b.width := by
    rw [hbsize]
    unfold devBsize at *
    omega
  have hrun := BlockTable.place_run_iff (r :=
    word (word (block * b.width) + offset % b.fdp.fdBsize / devBsize)) hsome
    hfirst hle
  refine (Iff.trans hrun ?_ : Follows b offset _ _ ↔ _)
  rw [← hmod, word_sector_iff, hmod, hrecords.in_block_iff hoffset hn, ← hdiv, ← hmod]
  refine ⟨fun hfits _ _ block' hblock' => ?_, fun hfits => hfits hlt hpos block hblock⟩
  cases hblock.symm.trans hblock'
  exact hfits

/-- A file of the disk blocks 7 and 9 has been added. -/
def twoAdded : Built := ⟨⟨0, some [7, 9], 2, 1024, 10, 1⟩, true, [some 7, some 9]⟩

theorem twoAdded_reach : machine.Reach Proper twoAdded := by
  have hstart : machine.start ⟨⟨0, none, 0, 1024, 10, 1⟩, true, []⟩ :=
    ⟨rfl, 0, .ok ⟨1024, .inl rfl⟩, rfl⟩
  refine .step (⟨0, .ext2 Ext2File.twoBlocks (Ext2File.opened [])⟩, none) (.start hstart) ?_ rfl
  exact ⟨rfl, Ext2File.twoBlocks_smallIndex, Sound.start (Ext2File.opened_start [])⟩

/-- The second sector of the first block. -/
theorem paging_isolated_sector : machine.Reach Proper twoAdded ∧ Isolated twoAdded 512 512 := by
  refine ⟨twoAdded_reach, (paging_isolated twoAdded_reach rfl rfl).mpr fun _ _ block hblock => ?_⟩
  cases hblock
  exact ⟨by decide, .inl (by decide)⟩

/-- Two sectors from there: the second one is of the disk block 8, which is not one of the file, and
a write changes it. -/
theorem next_block_written : machine.Reach Proper twoAdded ∧
    accessed twoAdded.fdp ⟨1024, none⟩ 512 1024 = [15, 16] ∧ some 8 ∉ twoAdded.blocks ∧
    (ext2PageWriteFileDirect twoAdded.fdp (fun _ => 0) ⟨1024, none⟩ 512 (fun _ => 1) 1024).2
    (8 * 1024) = 1 ∧ ¬Isolated twoAdded 512 1024 := by
  refine ⟨twoAdded_reach, by decide, by decide, by decide +kernel, fun h => ?_⟩
  exact absurd (h.own ⟨1024, none⟩ 16 (by decide)) (by decide)

end Access

end XMach.PagingFile
