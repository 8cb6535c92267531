import XMach.Bootstrap.Ext2File

/-!
# Paging files

`ext2_open_file_direct`, `ext2_add_file_direct`, `ext2_page_read_file_direct` and
`ext2_page_write_file_direct` of `ext2_file_io.c`. A file or a device is opened for paging, with the
numbers of its disk blocks in an array; the default pager then reads and writes at an offset in it.
Numbers have 32 bits. A sector of the disk has `DEV_BSIZE` bytes, and the device transfers some of
the bytes that it is asked for. That `ext2_add_file_direct` empties the cache of the file and
deallocates the old array is left out.
-/

namespace XMach.PagingFile

open Bytes
open Ext2File (Code Volume fsNotInFile blockMap)

def devBsize : ℕ := 512

def vmPageSize : ℕ := 4096

/-- `FS_INVALID_FS` -/
def fsInvalidFs : Code := ⟨5004, by decide⟩

/-- `KERN_NO_SPACE` -/
def kernNoSpace : Code := ⟨3, by decide⟩

/-- Why a call does not do its work. -/
inductive Stop
  | panic
  /-- an access outside of an array, or a division by 0 -/
  | fault
  /-- the call does not return -/
  | hang
  /-- the code that is returned -/
  | code (rc : Code)
  deriving DecidableEq

def word (n : ℕ) : ℕ := n % 0x100000000

/-- The shift to the right of an `int`. -/
def sar (n k : ℕ) : ℕ := if n < 0x80000000 then n >>> k else 0xffffffff - (0xffffffff - n) >>> k

/-- The quotient of a positive `long` and an `int`. -/
def quotient (a n : ℕ) : Except Stop ℕ :=
  if n = 0 then .error .fault
  else if n < 0x80000000 then .ok (a / n)
  else .ok (word (0x100000000 - a / (0x100000000 - n)))

/-- The loop of `log2`, for at most as many turns. -/
def log2From : ℕ → ℕ → ℕ → Except Stop ℕ
  | 0, _, _ => .error .hang
  | turns + 1, i, n => if n &&& 1 = 0 then log2From turns (i + 1) (n >>> 1) else .ok i

/-- `log2`, which does not return if there is no bit in the number. -/
def log2 (n : ℕ) : Except Stop ℕ := log2From 32 0 n

/-- `struct file_direct` -/
structure FileDirect where
  fdDev : ℕ
  /-- none is a null pointer -/
  fdBlocks : Option (List ℕ)
  fdSize : ℕ
  fdBsize : ℕ
  fdBshift : ℕ
  fdFsbtodb : ℕ

/-- `EXT2_BLOCK_SIZE` -/
abbrev BlockSize := { n : ℕ // n = 1024 ∨ n = 2048 ∨ n = 4096 }

/-- `ext2_open_file_direct`, with what `read_fs` finds. -/
def ext2OpenFileDirect (dev : ℕ) (isStructured : Bool) (readFs : Except Code BlockSize) :
    Except Stop FileDirect :=
  if !isStructured then do
    let shift ← log2 vmPageSize
    pure ⟨dev, none, 0, vmPageSize, shift, 0⟩
  else
    match readFs with
    | .error rc => .error (.code rc)
    | .ok bsize => do
      let shift ← log2 bsize
      let fsbtodb ← log2 (bsize / devBsize)
      pure ⟨dev, none, 0, bsize, shift, fsbtodb⟩

/-- What an open file is: a device, with what `device_get_status` returns as its size and the size
of a record, or a file in a file system. -/
inductive Contents
  | device (status : Except Code (ℕ × ℕ))
  | ext2 (v : Volume) (s : Ext2File.State)

/-- `struct file` -/
structure File where
  fDev : ℕ
  contents : Contents

/-- `vm_allocate` beside an array of a size, in an address space of 32 bits: it may fail, also with
enough space. -/
def vmAllocate (outcome : Option Code) (used size : ℕ) : Option Code :=
  if size = 0 then none
  else if 0x100000000 < used + size then some kernNoSpace
  else outcome

/-- The disk blocks of some blocks of a file from one on. -/
def mapBlocks (v : Volume) : ℕ → ℕ → Ext2File.State → Except Code (List ℕ) × Ext2File.State
  | 0, _, s => (.ok [], s)
  | n + 1, i, s =>
    match blockMap v s i with
    | (.error rc, s) => (.error rc, s)
    | (.ok diskBlock, s) =>
      match mapBlocks v n (i + 1) s with
      | (.error rc, s) => (.error rc, s)
      | (.ok blocks, s) => (.ok (diskBlock :: blocks), s)

/-- The addresses that are copied from the old array; a new one has zeros. -/
def oldBlocks (fdp : FileDirect) : Except Stop (List ℕ) :=
  match fdp.fdBlocks with
  | none => .ok (List.replicate fdp.fdSize 0)
  | some blocks => if blocks.length < fdp.fdSize then .error .fault
      else .ok (blocks.take fdp.fdSize)

/-- `ext2_add_file_direct`; it changes nothing if it returns a code. -/
def ext2AddFileDirect (fdp : FileDirect) (fp : File) (outcome : Option Code) :
    Except Stop FileDirect :=
  if fdp.fdDev ≠ fp.fDev then .error (.code fsInvalidFs)
  else
    match fp.contents with
    | .device (.error rc) => .error (.code rc)
    | .device (.ok (deviceSize, recordSize)) => do
      let fsbtodb ← log2 (← quotient fdp.fdBsize recordSize)
      pure { fdp with fdSize := sar deviceSize fdp.fdBshift, fdFsbtodb := fsbtodb }
    | .ext2 v s =>
      if fdp.fdBsize ≠ v.blockSize then .error (.code fsInvalidFs)
      else
        let numBlocks := v.iSize / v.blockSize
        let size := word ((numBlocks + fdp.fdSize) * 4)
        match vmAllocate outcome ((fdp.fdBlocks.getD []).length * 4) size with
        | some rc => .error (.code rc)
        | none =>
          -- the array is too small for the addresses
          if size ≠ (numBlocks + fdp.fdSize) * 4 then .error .fault
          else
            match (mapBlocks v numBlocks 0 s).1 with
            | .error rc => .error (.code rc)
            | .ok new => do
              let old ← oldBlocks fdp
              pure { fdp with
                -- an array of size 0 is at address 0
                fdBlocks := if size = 0 then none else some (old ++ new)
                fdSize := word (fdp.fdSize + numBlocks) }

section Access

def fdirBlkoff (fdp : FileDirect) (offset : ℕ) : ℕ := offset &&& (fdp.fdBsize - 1)

def fdirLblkno (fdp : FileDirect) (offset : ℕ) : ℕ := offset >>> fdp.fdBshift

def fdirFsbtodb (fdp : FileDirect) (block : ℕ) : ℕ := word (block <<< fdp.fdFsbtodb)

def btodb (byteOffset : ℕ) : ℕ := byteOffset >>> 9

/-- The disk block of a block; `file_is_device` if there is no array. -/
def diskBlock (fdp : FileDirect) (fileBlock : ℕ) : Except Stop ℕ :=
  match fdp.fdBlocks with
  | none => .ok fileBlock
  | some blocks =>
    match blocks[fileBlock]? with
    | none => .error .fault
    | some block => if block = 0 then .error (.code fsNotInFile) else .ok block

/-- What `ext2_page_read_file_direct` and `ext2_page_write_file_direct` ask the device for: the
record number and the size. -/
def request (fdp : FileDirect) (offset size : ℕ) : Except Stop (ℕ × ℕ) :=
  if offset % devBsize ≠ 0 ∨ size % devBsize ≠ 0 then .error .panic
  else if offset ≥ word (fdp.fdSize <<< fdp.fdBshift) then .error (.code fsNotInFile)
  else do
    let block ← diskBlock fdp (fdirLblkno fdp offset)
    let size := if size > fdp.fdBsize then fdp.fdBsize else size
    pure (word (fdirFsbtodb fdp block + btodb (fdirBlkoff fdp offset)), size)

/-- What the device does: how many bytes it transfers, at most those it was asked for, and what it
returns. -/
structure Outcome where
  count : ℕ
  rc : Option Code

/-- The bytes of the disk. -/
abbrev Disk := ℕ → Byte

/-- `ext2_page_read_file_direct`: the bytes that were read. -/
def ext2PageReadFileDirect (fdp : FileDirect) (disk : Disk) (o : Outcome) (offset size : ℕ) :
    Except Stop (List Byte) :=
  match request fdp offset size with
  | .error stop => .error stop
  | .ok (recnum, size) =>
    match o.rc with
    | some rc => .error (.code rc)
    | none => .ok (read disk (recnum * devBsize) (min o.count size))

/-- `ext2_page_write_file_direct` of the bytes at an address: how many were written, and the
disk. -/
def ext2PageWriteFileDirect (fdp : FileDirect) (disk : Disk) (o : Outcome) (offset : ℕ)
    (addr : ℕ → Byte) (size : ℕ) : Except Stop ℕ × Disk :=
  match request fdp offset size with
  | .error stop => (.error stop, disk)
  | .ok (recnum, size) =>
    let written := min o.count size
    let disk := write disk (recnum * devBsize) ((List.range written).map addr)
    match o.rc with
    | some rc => (.error (.code rc), disk)
    | none => (.ok written, disk)

end Access

end XMach.PagingFile
