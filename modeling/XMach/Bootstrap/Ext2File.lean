import Mathlib.Logic.Function.Basic
import XMach.Lib.Bytes
import XMach.Lib.Machine

/-!
# Reading an ext2 file in the bootstrap task

`ext2_read_file` with `buf_read_file` and `block_map` of `ext2_file_io.c`. A block is read from the
device into a new region of memory; the file keeps a data block and an index block of each level. A
region is its address, and 0 is none; the device returns a region of the size that was asked for, or
fails with a code. `vm_allocate` succeeds. Block numbers, offsets and sizes have 32 bits, and a
block number of -1 is `0xffffffff`. `bad` says that a region was used or deallocated that was not
there; no step reads it.
-/

namespace XMach.Ext2File

open Bytes Function

abbrev Code := { rc : ℕ // rc ≠ 0 }

/-- `FS_NOT_IN_FILE` -/
def fsNotInFile : Code := ⟨5005, by decide⟩

/-- -1 as a block number -/
def noBlock : ℕ := 0xffffffff

/-- What does not change while the file is open. -/
structure Volume where
  /-- the bytes of the device -/
  dev : ℕ → Byte
  /-- `EXT2_BLOCK_SIZE` -/
  blockSize : ℕ
  /-- `i_block` -/
  iBlock : ℕ → ℕ
  /-- `i_size` -/
  iSize : ℕ
  blockSize_eq : blockSize = 1024 ∨ blockSize = 2048 ∨ blockSize = 4096
  iSize_lt : iSize < 0x100000000

structure Region where
  size : ℕ
  bytes : ℕ → Byte

/-- `struct file` -/
structure File where
  fBuf : ℕ
  fBufSize : ℕ
  fBufBlkno : ℕ
  fBlk : ℕ → ℕ
  fBlksize : ℕ → ℕ
  fBlkno : ℕ → ℕ

structure State where
  file : File
  live : ℕ → Option Region
  /-- the next address that is free -/
  next : ℕ
  /-- the failures of the next device reads; all others succeed -/
  fails : List (Option Code)
  bad : Bool

namespace State

def vmAllocate (s : State) (r : Region) : ℕ × State :=
  (s.next, { s with live := update s.live s.next (some r), next := s.next + 1 })

/-- There is nothing at address 0 to deallocate. -/
def vmDeallocate (s : State) (addr size : ℕ) : State :=
  match s.live addr with
  | none => { s with bad := s.bad || addr != 0 }
  | some r => { s with live := update s.live addr none, bad := s.bad || r.size != size }

/-- The bytes of a region, for a use of it. -/
def use (s : State) (addr : ℕ) : (ℕ → Byte) × State :=
  match s.live addr with
  | none => (fun _ => 0, { s with bad := true })
  | some r => (r.bytes, s)

end State

variable (v : Volume)

/-- `NINDIR` -/
def nindir : ℕ := v.blockSize / 4

/-- `f_nindir[level]` -/
def fNindir : ℕ → ℕ
  | 0 => nindir v
  | level + 1 => fNindir level * nindir v

/-- `fsbtodb`: the product and the division are those of `int`, and the record number is not
negative. -/
def fsbtodb (b : ℕ) : ℕ :=
  let x := b * v.blockSize % 0x100000000
  if x < 0x80000000 then x / 512 else (0x100000000 - (0x100000000 - x) / 512) % 0x100000000

/-- `device_read` of some bytes at a record. -/
def deviceRead (s : State) (recnum size : ℕ) : Except Code ℕ × State :=
  match s.fails with
  | some rc :: fails => (.error rc, { s with fails := fails })
  | none :: fails =>
    let (addr, s) := { s with fails := fails }.vmAllocate ⟨size, fun i => v.dev (recnum * 512 + i)⟩
    (.ok addr, s)
  | [] =>
    let (addr, s) := s.vmAllocate ⟨size, fun i => v.dev (recnum * 512 + i)⟩
    (.ok addr, s)

/-- The blocks in `olddata` that have a size are freed. -/
def freeOld (s : State) : List (ℕ × ℕ) → State
  | [] => s
  | (data, size) :: old => freeOld (if size ≠ 0 then s.vmDeallocate data size else s) old

/-- The index block of a level is replaced in the cache. -/
def State.cache (s : State) (level data size blkno : ℕ) : State :=
  { s with
    file := { s.file with
      fBlk := update s.file.fBlk level data
      fBlksize := update s.file.fBlksize level size
      fBlkno := update s.file.fBlkno level blkno } }

/-- The loop of `block_map` over the levels, downwards from the one below the first argument. -/
def mapLevels : ℕ → ℕ → ℕ → List (ℕ × ℕ) → State → Except Code ℕ × State
  | 0, _, ind, old, s => (.ok ind, freeOld s old)
  | level + 1, fileBlock, ind, old, s =>
    -- the index, and the block in what is left below the level
    let idx := if level > 0 then fileBlock / fNindir v (level - 1) else fileBlock
    let rest := if level > 0 then fileBlock % fNindir v (level - 1) else fileBlock
    if ind = 0 then (.ok 0, freeOld s old)
    else if s.file.fBlkno level = ind then
      let (bytes, s) := s.use (s.file.fBlk level)
      mapLevels level rest (get32 bytes (4 * idx)) old s
    else
      match deviceRead v s (fsbtodb v ind) v.blockSize with
      | (.error rc, s) => (.error rc, s)
      | (.ok data, s) =>
        let old := (s.file.fBlk level, s.file.fBlksize level) :: old
        let (bytes, s) := (s.cache level data v.blockSize ind).use data
        mapLevels level rest (get32 bytes (4 * idx)) old s

/-- The level of a block behind the direct ones, and its number there. -/
def findLevel (fileBlock : ℕ) : Option (ℕ × ℕ) :=
  if fileBlock < fNindir v 0 then some (0, fileBlock)
  else if fileBlock - fNindir v 0 < fNindir v 1 then some (1, fileBlock - fNindir v 0)
  else if fileBlock - fNindir v 0 - fNindir v 1 < fNindir v 2 then
    some (2, fileBlock - fNindir v 0 - fNindir v 1)
  else none

def blockMap (s : State) (fileBlock : ℕ) : Except Code ℕ × State :=
  if fileBlock < 12 then (.ok (v.iBlock fileBlock), s)
  else
    match findLevel v (fileBlock - 12) with
    | none => (.error fsNotInFile, s)
    | some (level, rest) => mapLevels v (level + 1) rest (v.iBlock (level + 12)) [] s

/-- The data block becomes the one in the cache. -/
def State.setBuf (s : State) (data size blkno : ℕ) : State :=
  { s with file := { s.file with fBuf := data, fBufSize := size, fBufBlkno := blkno } }

/-- A data block is looked up and read. -/
def readBlock (s : State) (fileBlock : ℕ) : Except Code Unit × State :=
  match blockMap v s fileBlock with
  | (.error rc, s) => (.error rc, s)
  | (.ok diskBlock, s) =>
    let s := if s.file.fBuf ≠ 0 then s.vmDeallocate s.file.fBuf s.file.fBufSize else s
    if diskBlock = 0 then
      let (data, s) := s.vmAllocate ⟨v.blockSize, fun _ => 0⟩
      (.ok (), s.setBuf data v.blockSize fileBlock)
    else
      match deviceRead v s (fsbtodb v diskBlock) v.blockSize with
      | (.error rc, s) => (.error rc, s)
      | (.ok data, s) => (.ok (), s.setBuf data v.blockSize fileBlock)

/-- `buf_read_file`: the offset in the buffer, and the size of the remainder. -/
def bufReadFile (s : State) (offset : ℕ) : Except Code (ℕ × ℕ) × State :=
  if offset ≥ v.iSize then (.error fsNotInFile, s)
  else
    let off := offset % v.blockSize
    let fileBlock := offset / v.blockSize
    let (rc, s) := if fileBlock ≠ s.file.fBufBlkno then readBlock v s fileBlock else (.ok (), s)
    match rc with
    | .error rc => (.error rc, s)
    | .ok () =>
      let size := v.blockSize - off
      (.ok (off, if size > v.iSize - offset then v.iSize - offset else size), s)

/-- What `ext2_read_file` returns, the bytes that it has copied and the residual. -/
structure Result where
  rc : Option Code
  copied : List Byte
  resid : ℕ

/-- The loop of `ext2_read_file`, for at most as many turns. -/
def readFrom : ℕ → State → ℕ → ℕ → List Byte → Option (Result × State)
  | 0, _, _, _, _ => none
  | turns + 1, s, offset, size, copied =>
    if size ≠ 0 then
      match bufReadFile v s offset with
      | (.error rc, s) => some (⟨some rc, copied, size⟩, s)
      | (.ok (off, bufSize), s) =>
        let csize := if size > bufSize then bufSize else size
        if csize = 0 then some (⟨none, copied, size⟩, s)
        else
          let (bytes, s) := s.use s.file.fBuf
          readFrom turns s (offset + csize) (size - csize) (copied ++ read bytes off csize)
    else some (⟨none, copied, 0⟩, s)

/-- `ext2_read_file`. Each turn copies a byte. -/
def ext2ReadFile (s : State) (offset size : ℕ) : Option (Result × State) :=
  readFrom v (size + 1) s offset size []

/-- An open file without buffers, and a sequence of reads of an offset and a size.
`free_file_buffers` leaves the old sizes of the index blocks. -/
def machine : Machine State (ℕ × ℕ) where
  start s := s.file.fBuf = 0 ∧ s.file.fBufBlkno = noBlock ∧
    (∀ l, s.file.fBlk l = 0 ∧ s.file.fBlkno l = noBlock) ∧ (∀ p, s.live p = none) ∧ 0 < s.next ∧
    s.bad = false
  step s a := (ext2ReadFile v s a.1 a.2).map Prod.snd

end XMach.Ext2File
