import Mathlib.Data.Int.Notation
import XMach.Lites.FileCache

/-!
# Pages that the kernel writes back to a file

`seqnos_memory_object_data_write` of the server, down to the loop of the file system over the blocks
of the file. The offset and the length are words of 32 bits, the size of the file is an `off_t`, and
what is left to be written is an `int`. The blocks can be allocated and written, each as large as
the file has become, and there is no limit for the process but that of the file system.
-/

namespace XMach.PageOut

open FileCache (CacheState)

abbrev Byte := BitVec 8

/-- An inode. -/
structure File where
  data : ℕ → Byte
  size : ℕ

structure Fs where
  bsize : ℕ
  maxFileSize : ℕ
  bsize_pos : 0 < bsize

/-- `struct uio`, for a write from the server's memory with one `struct iovec`, so that `iov_len` is
`uio_resid`. -/
structure Uio where
  base : ℕ
  resid : ℤ
  offset : ℕ

/-- A write to a file on its way, with the ranges of memory that have been read. -/
structure Writing where
  file : File
  uio : Uio
  reads : List (ℕ × ℕ)

/-- `uiomove` of `n` bytes to where the file is written. -/
def uiomove (mem : ℕ → Byte) (n : ℤ) (w : Writing) : Writing :=
  let cnt := (if w.uio.resid > n then n else w.uio.resid).toNat
  { file :=
      { w.file with
        data := fun a =>
          if w.uio.offset ≤ a ∧ a < w.uio.offset + cnt then mem (w.uio.base + (a - w.uio.offset))
          else w.file.data a }
    uio := ⟨w.uio.base + cnt, w.uio.resid - cnt, w.uio.offset + cnt⟩
    reads := (w.uio.base, cnt) :: w.reads }

/-- The loop of `ffs_write`, for at most as many turns. -/
def writeBlocks (fs : Fs) (mem : ℕ → Byte) : ℕ → Writing → Writing
  | 0, w => w
  | turns + 1, w =>
    if w.uio.resid > 0 then
      let blkoffset := w.uio.offset % fs.bsize
      let xfersize : ℤ := if w.uio.resid < fs.bsize - blkoffset then w.uio.resid
        else fs.bsize - blkoffset
      -- the file grows if the block ends behind it
      let size := if w.uio.offset + xfersize > w.file.size then w.uio.offset + xfersize.toNat
        else w.file.size
      writeBlocks fs mem turns (uiomove mem xfersize { w with
        file := { w.file with size := size } })
    else w

/-- `ffs_write`. The sum is one of 64 bits; if it is too large, the result is `EFBIG`. -/
def ffsWrite (fs : Fs) (mem : ℕ → Byte) (uio : Uio) (file : File) : Writing :=
  if (uio.offset + uio.resid) % 0x10000000000000000 > fs.maxFileSize then ⟨file, uio, []⟩
  else writeBlocks fs mem uio.resid.toNat ⟨file, uio, []⟩

/-- `vn_pageinout` with `UIO_WRITE`. Its length is an `int`. -/
def vnPageinout (fs : Fs) (mem : ℕ → Byte) (base : ℕ) (len : BitVec 32) (offset : ℕ) (file : File) :
    Writing :=
  ffsWrite fs mem ⟨base, len.toInt, offset⟩ file

/-- `struct vn_pager`. -/
structure Pager where
  controlPort : ℕ
  pageSize : BitVec 32
  size : ℕ

structure Vnode where
  file : File
  vCacheState : CacheState
  /-- `v_vmdata` -/
  pager : Option Pager

/-- What a request has done. -/
structure Effect where
  file : File
  /-- The ranges of memory that were read. -/
  reads : List (ℕ × ℕ)
  /-- The regions that were deallocated. -/
  deallocated : List (ℕ × ℕ)
  /-- The control ports of which a right was consumed. -/
  consumed : List ℕ

/-- `seqnos_memory_object_data_write`, for the vnode that the port stands for. `none` is a panic. -/
def dataWrite (fs : Fs) (mem : ℕ → Byte) (vn : Option Vnode) (memoryControl : ℕ)
    (offset : BitVec 32) (data : ℕ) (length : BitVec 32) : Option Effect := do
  let vn ← vn
  let pager ← vn.pager
  if pager.controlPort = memoryControl ∧ pager.pageSize = length ∧
      (vn.vCacheState = .moWrite ∨ vn.vCacheState = .moCleaning) then
    let w :=
      if offset.toNat > pager.size then ⟨vn.file, ⟨data, 0, offset.toNat⟩, []⟩
      else
        let wlen := BitVec.ofNat 32 (pager.size - offset.toNat)
        vnPageinout fs mem data wlen offset.toNat vn.file
    some ⟨w.file, w.reads, [(data, length.toNat)], [memoryControl]⟩
  else none

end XMach.PageOut
