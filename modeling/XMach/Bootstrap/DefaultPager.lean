import XMach.Lib.Bitmap
import Mathlib.Logic.Function.Basic
import Mathlib.Tactic.IntervalCases

/-!
# The storage of the default pager

`bootstrap/default_pager.c`: paging partitions with a bitmap each, and paging objects whose pages
are found through a block map of one or two levels. A partition is an array of pages. What an
operation does besides (messages to the console, the accounting of `overcommitted`) is left out, and
`kalloc` always finds memory.
-/

namespace XMach.DefaultPager

/-- Why an operation does not return: it calls `panic`, or follows a null pointer, or waits for a
lock that nobody gives back. -/
inductive Stop
  | panic
  | wait
  deriving DecidableEq, Repr

def pageSize : ℕ := 4096

def atop (a : ℕ) : ℕ := a / pageSize

/-- In 32 bits. -/
def ptoa (p : ℕ) : ℕ := p * pageSize % 2 ^ 32

section Partitions

/-- What a partition keeps of its blocks. -/
structure Books where
  totalSize : ℕ
  free : ℕ
  bitmap : List (BitVec 32)

/-- `struct part`, with its pages and whether somebody holds `p_lock`. -/
structure Part (α : Type) extends Books where
  id : BitVec 32
  goingAway : Bool
  locked : Bool
  data : ℕ → α

variable {α : Type}

/-- `all_partitions.partition_list`. -/
abbrev Parts (α : Type) := List (Option (Part α))

abbrev PIndex := BitVec 8

/-- `P_INDEX_INVALID`. -/
def pIndexInvalid : PIndex := 255#8

def noPartition (x : PIndex) : Prop := x = pIndexInvalid

instance (x : PIndex) : Decidable (noPartition x) := inferInstanceAs (Decidable (_ = _))

/-- `partition_of`. -/
def partitionOf (parts : Parts α) (x : ℕ) : Except Stop (Option (Part α)) :=
  if x < parts.length then .ok (parts.getD x none) else .error .panic

/-- `partition_of`, for a partition that is used at once. -/
def partOf (parts : Parts α) (x : ℕ) : Except Stop (Part α) :=
  match parts.getD x none with
  | some part => .ok part
  | none => .error .panic

def setPart (parts : Parts α) (x : ℕ) (part : Part α) : Parts α := parts.set x (some part)

/-- `part_id`. -/
def partId (name : List (BitVec 8)) : BitVec 32 :=
  (name.foldl (fun id c => id + c.setWidth 32) 0) <<< 8 |||
    name.foldl (fun xorid c => xorid ^^^ c.setWidth 32) 0

/-- `howmany`. -/
def howmany (a b : ℕ) : ℕ := (a + b - 1) / b

/-- A partition with all of its blocks free. -/
def newPart (name : List (BitVec 8)) (size : BitVec 32) (data : ℕ → α) : Part α where
  totalSize := atop size.toNat
  free := atop size.toNat
  bitmap := List.replicate (howmany (atop size.toNat) 32) 0
  id := partId name
  goingAway := false
  locked := false
  data := data

/-- `create_paging_partition`: the first slot that is not used, or one of a list of twice the
size. -/
def createPagingPartition (parts : Parts α) (part : Part α) : Parts α :=
  match parts.findIdx? Option.isNone with
  | some i => setPart parts i part
  | none =>
    let n := if parts.length = 0 then 2 else 2 * parts.length
    setPart (parts ++ List.replicate (n - parts.length) none) parts.length part

/-- The loop of `choose_partition`, from slot `i` on. -/
def chooseFrom (size : ℕ) (curPart : PIndex) : ℕ → Parts α → Except Stop (Option ℕ)
  | _, [] => .ok none
  | i, slot :: rest =>
    -- the undesirable one
    if i = curPart.toNat then chooseFrom size curPart (i + 1) rest
    else
      match slot with
      | none => chooseFrom size curPart (i + 1) rest
      | some part =>
        if part.goingAway then chooseFrom size curPart (i + 1) rest
        else if part.locked then .error .wait
        else if size ≤ ptoa part.free then .ok (some i)
        else chooseFrom size curPart (i + 1) rest

/-- The lock of a partition is taken. -/
def lockPart (parts : Parts α) (i : ℕ) : Parts α :=
  parts.modify i (Option.map fun part => { part with locked := true })

/-- `choose_partition`: the partition is returned locked, unless `curPart` is invalid. Its slot is
cut to 8 bits. -/
def choosePartition (parts : Parts α) (size : ℕ) (curPart : PIndex) :
    Except Stop (PIndex × Parts α) := do
  match ← chooseFrom size curPart 0 parts with
  | none => return (pIndexInvalid, parts)
  | some i => return (BitVec.ofNat 8 i, if noPartition curPart then parts else lockPart parts i)

/-- `pager_alloc_page`: the number of the block, or `none` for `NO_BLOCK`. -/
def pagerAllocPage (parts : Parts α) (pindex : PIndex) (lockIt : Bool) :
    Except Stop (Option ℕ × Parts α) :=
  if noPartition pindex then .ok (none, parts)
  else do
    match ← partitionOf parts pindex.toNat with
    | none => return (none, parts)
    | some part =>
      if part.goingAway then return (none, parts)
      else if lockIt ∧ part.locked then throw .wait
      else if part.free = 0 then
        return (none, setPart parts pindex.toNat { part with locked := false })
      else
        match Bitmap.firstWord (part.bitmap.take (howmany part.totalSize 32)) with
        | none => throw .panic
        | some e =>
          match Bitmap.firstBit (Bitmap.word part.bitmap e) with
          | none => throw .panic
          | some b =>
            return (some (e * 32 + b), setPart parts pindex.toNat
              { part with
                bitmap := Bitmap.setBit part.bitmap (e * 32 + b)
                free := part.free - 1
                locked := false })

/-- `pager_dealloc_page`. -/
def pagerDeallocPage (parts : Parts α) (pindex : PIndex) (page : ℕ) (lockIt : Bool) :
    Except Stop (Parts α) :=
  if noPartition pindex then .error .panic
  else do
    let part ← partOf parts pindex.toNat
    if part.totalSize ≤ page then throw .panic
    else if lockIt ∧ part.locked then throw .wait
    else return (setPart parts pindex.toNat
      { part with bitmap := Bitmap.clearBit part.bitmap page, free := part.free + 1 })

end Partitions

section BlockMaps

/-- The `block` of a `union dp_map`. -/
structure DpMap where
  pOffset : BitVec 24
  pIndex : PIndex
  deriving DecidableEq, Repr

/-- `NO_BLOCK`, all of whose bits are set. -/
def noBlock : DpMap := ⟨BitVec.allOnes 24, BitVec.allOnes 8⟩

/-- `PAGEMAP_ENTRIES`. -/
def pagemapEntries : ℕ := 64

/-- A second-level map. -/
abbrev PageMap := { es : List DpMap // es.length = pagemapEntries }

/-- A second-level map without a block. -/
def freshMap : PageMap := ⟨List.replicate pagemapEntries noBlock, List.length_replicate⟩

def PageMap.set (m : PageMap) (i : ℕ) (b : DpMap) : PageMap :=
  ⟨m.1.set i b, by rw [List.length_set]; exact m.2⟩

/-- The block map of a paging object. Its size in pages is a power of 2 with one level, and a
multiple of `PAGEMAP_ENTRIES` with two. -/
inductive BlockMap
  | direct (es : List DpMap) (h : es.length ∣ pagemapEntries)
  | indirect (ms : List (Option PageMap)) (h : 1 < ms.length)

/-- `pager->size`. -/
def BlockMap.size : BlockMap → ℕ
  | direct es _ => es.length
  | indirect ms _ => ms.length * pagemapEntries

/-- An entry of a second-level map that may not be there. -/
def entryIn : Option PageMap → ℕ → DpMap
  | none, _ => noBlock
  | some m, i => m.1.getD i noBlock

/-- The entry of a page, `noBlock` where there is none. -/
def BlockMap.get : BlockMap → ℕ → DpMap
  | direct es _, f => es.getD f noBlock
  | indirect ms _, f => entryIn (ms.getD (f / pagemapEntries) none) (f % pagemapEntries)

/-- The second-level map of a page is allocated. -/
def BlockMap.touch : BlockMap → ℕ → BlockMap
  | direct es h, _ => direct es h
  | indirect ms h, f =>
    indirect (ms.set (f / pagemapEntries)
      (some ((ms.getD (f / pagemapEntries) none).getD freshMap))) (by rwa [List.length_set])

/-- The entry of a page, whose second-level map is there, is written. -/
def BlockMap.put : BlockMap → ℕ → DpMap → BlockMap
  | direct es h, f, b => direct (es.set f b) (by rwa [List.length_set])
  | indirect ms h, f, b =>
    indirect (ms.modify (f / pagemapEntries) (Option.map fun m => m.set (f % pagemapEntries) b))
      (by rwa [List.length_modify])

/-- The pages that have an entry, in the order of the loops over the map. -/
def BlockMap.pages : BlockMap → List ℕ
  | direct es _ => List.range es.length
  | indirect ms _ => (List.range ms.length).flatMap fun i =>
    if (ms.getD i none).isSome then (List.range pagemapEntries).map (i * pagemapEntries + ·) else []

/-- `atop(max_doubled_size)`. -/
def maxDoubled : ℕ := atop (4 * 1024 * 1024)

/-- The loop that doubles a size until it covers `new`, of which there are at most ten rounds. -/
def doubled (new : ℕ) : ℕ → ℕ → ℕ
  | 0, i => i
  | k + 1, i => if i < new then doubled new k (2 * i) else i

/-- `ROUNDUP_TO_PAGEMAP`. -/
def roundupToPagemap (npgs : ℕ) : ℕ := (npgs + pagemapEntries - 1) / pagemapEntries * pagemapEntries

/-- `INDIRECT_PAGEMAP_ENTRIES`. -/
def indirectEntries (npgs : ℕ) : ℕ := (npgs - 1) / pagemapEntries + 1

/-- The size of a map that had `old` pages and gets `new`. -/
def newSize (old new : ℕ) : ℕ := if new ≤ maxDoubled then doubled new 10 old
    else roundupToPagemap new

theorem le_doubled (new k i : ℕ) : i ≤ doubled new k i := by
  induction k generalizing i with
  | zero => exact Nat.le_refl i
  | succ k ih =>
    rw [doubled]
    split_ifs
    · exact (Nat.le_mul_of_pos_left i (by decide)).trans (ih (2 * i))
    · exact Nat.le_refl i

theorem doubled_dvd {new k i : ℕ} (h : i ∣ pagemapEntries)
    (hle : doubled new k i ≤ pagemapEntries) : doubled new k i ∣ pagemapEntries := by
  induction k generalizing i with
  | zero => exact h
  | succ k ih =>
    rw [doubled] at hle ⊢
    split_ifs at hle ⊢
    · refine ih ?_ hle
      have hi : 2 * i ≤ pagemapEntries := (le_doubled new k (2 * i)).trans hle
      unfold pagemapEntries at *
      obtain ⟨c, hc⟩ := h
      have hlt : i ≤ 32 := by omega
      interval_cases i <;> omega
    · exact h

theorem lt_indirectEntries {n : ℕ} (h : pagemapEntries < n) : 1 < indirectEntries n := by
  unfold indirectEntries pagemapEntries at *
  omega

theorem newSize_large {old new : ℕ} (h : pagemapEntries < old) :
    pagemapEntries < newSize old new := by
  unfold newSize
  split_ifs with hnew
  · exact h.trans_le (le_doubled _ _ _)
  · unfold maxDoubled atop pageSize at hnew
    unfold roundupToPagemap pagemapEntries
    omega

theorem newSize_dvd {old new : ℕ} (h : old ∣ pagemapEntries)
    (hle : newSize old new ≤ pagemapEntries) : newSize old new ∣ pagemapEntries := by
  unfold newSize at *
  split_ifs at hle ⊢ with hnew
  · exact doubled_dvd h hle
  · unfold maxDoubled atop pageSize at hnew
    unfold roundupToPagemap pagemapEntries at hle
    omega

/-- A list of exactly `n` entries: those of `l`, and `x` behind them. -/
def resize {β : Type} (l : List β) (n : ℕ) (x : β) : List β :=
  l.take n ++ List.replicate (n - l.length) x

theorem length_resize {β : Type} (l : List β) (n : ℕ) (x : β) : (resize l n x).length = n := by
  simp only [resize, List.length_append, List.length_take, List.length_replicate]
  omega

/-- A direct map of a multiple of its size, as the first of the second level. -/
def firstLevel (es : List DpMap) : PageMap :=
  ⟨resize es pagemapEntries noBlock, length_resize _ _ _⟩

/-- `pager_extend`: what the new map holds. All entries of the old one are copied, so that those
past the end of a map that is smaller are stored behind it. -/
def BlockMap.extend (m : BlockMap) (new : ℕ) : BlockMap :=
  match m with
  | .indirect ms h =>
    .indirect (resize ms (indirectEntries (newSize (ms.length * pagemapEntries) new)) none) (by
      rw [length_resize]
      refine lt_indirectEntries (newSize_large ?_)
      unfold pagemapEntries
      omega)
  | .direct es h =>
    if hn : pagemapEntries < newSize es.length new then
      -- the direct map becomes the first of the second level
      .indirect (some (firstLevel es)
        :: List.replicate (indirectEntries (newSize es.length new) - 1) none) (by
        have := lt_indirectEntries hn
        rw [List.length_cons, List.length_replicate]
        omega)
    else .direct (resize es (newSize es.length new) noBlock) (by
      rw [length_resize]
      exact newSize_dvd h (not_lt.1 hn))

/-- The map of a new object of so many pages. -/
def BlockMap.fresh (npgs : ℕ) : BlockMap :=
  if hn : pagemapEntries < newSize 1 npgs then
    .indirect (List.replicate (indirectEntries (newSize 1 npgs)) none) (by
      rw [List.length_replicate]
      exact lt_indirectEntries hn)
  else .direct (List.replicate (newSize 1 npgs) noBlock) (by
    rw [List.length_replicate]
    exact newSize_dvd (one_dvd _) (not_lt.1 hn))

end BlockMaps

section Objects

variable {α : Type}

/-- `struct dpager`. -/
structure Dpager where
  map : BlockMap
  curPartition : PIndex

/-- `pager_alloc`. -/
def pagerAlloc (part : PIndex) (size : BitVec 32) : Dpager := ⟨.fresh (atop size.toNat), part⟩

/-- `pager_port_alloc`: the partition is chosen for the size, or else just any. -/
def pagerPortAlloc (parts : Parts α) (size : BitVec 32) : Except Stop Dpager := do
  let (part, _) ← choosePartition parts size.toNat pIndexInvalid
  if noPartition part then
    let (part, _) ← choosePartition parts 0 pIndexInvalid
    return pagerAlloc part size
  else return pagerAlloc part size

/-- `pager_read_offset`. -/
def pagerReadOffset (pager : Dpager) (offset : BitVec 32) : Except Stop DpMap :=
  if pager.map.size ≤ atop offset.toNat then .error .panic
  else .ok (pager.map.get (atop offset.toNat))

/-- The loop of `pager_allocated` over the entries of a map. -/
def allocatedIn : List DpMap → ℕ → ℕ
  | [], asize => asize
  | e :: es, asize => allocatedIn es (if e = noBlock then asize else asize + 1)

/-- The loop of `pager_allocated` over the second-level maps. -/
def allocatedInAll : List (Option PageMap) → ℕ → ℕ
  | [], asize => asize
  | none :: ms, asize => allocatedInAll ms asize
  | some m :: ms, asize => allocatedInAll ms (allocatedIn m.1 asize)

/-- `pager_allocated`. -/
def pagerAllocated (pager : Dpager) : ℕ :=
  match pager.map with
  | .indirect ms _ => ptoa (allocatedInAll ms 0)
  | .direct es _ => ptoa (allocatedIn es 0)

/-- What the loops of `pager_pages` carry: `actual`, and the offsets that are stored. -/
structure Found where
  actual : ℕ
  pages : List ℕ
  deriving DecidableEq, Repr

/-- A page is counted, and stored if there is room for it. -/
def Found.add (numpages offset : ℕ) (r : Found) : Found where
  actual := r.actual + 1
  pages := if r.actual < numpages then r.pages ++ [offset] else r.pages

/-- The loop of `pager_pages` over the entries of a map. The offset stays as it is. -/
def pagesIn (numpages offset : ℕ) : List DpMap → Found → Found
  | [], r => r
  | e :: es, r => pagesIn numpages offset es (if e = noBlock then r else r.add numpages offset)

/-- An offset goes on by so many pages, in 32 bits. -/
def nextOffset (offset npgs : ℕ) : ℕ := (offset + pageSize * npgs) % 2 ^ 32

/-- The loop of `pager_pages` over the second-level maps goes on to the next. After a map that is
there, the offset goes on by one page. -/
def pagesStep (numpages : ℕ) (x : ℕ × Found) : Option PageMap → ℕ × Found
  | none => (nextOffset x.1 pagemapEntries, x.2)
  | some m => (nextOffset x.1 1, pagesIn numpages x.1 m.1 x.2)

/-- `pager_pages`. -/
def pagerPages (pager : Dpager) (numpages : ℕ) : Found :=
  match pager.map with
  | .indirect ms _ => (ms.foldl (pagesStep numpages) (0, ⟨0, []⟩)).2
  | .direct es _ => pagesIn numpages 0 es ⟨0, []⟩

/-- `pager_release_offset`. -/
def pagerReleaseOffset (parts : Parts α) (pager : Dpager) (offset : BitVec 32) :
    Except Stop (Parts α × Dpager) := do
  let entry := pager.map.get (atop offset.toNat)
  let parts ← pagerDeallocPage parts entry.pIndex entry.pOffset.toNat true
  return (parts, { pager with map := pager.map.put (atop offset.toNat) noBlock })

/-- The partition that an object without one gets when it is written. -/
def findPartition (parts : Parts α) (pager : Dpager) (fPage : ℕ) : Except Stop PIndex :=
  if noPartition pager.curPartition then do
    let size := if pager.map.size < fPage then fPage else pager.map.size
    let (newPart, _) ← choosePartition parts (ptoa size) pIndexInvalid
    if noPartition newPart then
      let (newPart, _) ← choosePartition parts (ptoa 1) pIndexInvalid
      return newPart
    else return newPart
  else .ok pager.curPartition

/-- The object is extended to have a page. -/
def extendFor (map : BlockMap) (fPage : ℕ) : BlockMap :=
  if map.size ≤ fPage then map.extend (fPage + 1) else map

/-- A block for a page: from the partition of the object, or else from another one, which then
becomes that of the object. -/
def getRoom (parts : Parts α) (curPartition : PIndex) :
    Except Stop (Option ℕ × PIndex × Parts α) := do
  let (off, parts) ← pagerAllocPage parts curPartition true
  if off.isSome then return (off, curPartition, parts)
  else
    let (newPart, parts) ← choosePartition parts (ptoa 1) curPartition
    if noPartition newPart then return (none, curPartition, parts)
    else
      let (off, parts) ← pagerAllocPage parts newPart false
      return (off, newPart, parts)

/-- `pager_write_offset`: the block of the page, `noBlock` when there is no room for it. -/
def pagerWriteOffset (parts : Parts α) (pager : Dpager) (offset : BitVec 32) :
    Except Stop (DpMap × Parts α × Dpager) := do
  let fPage := atop offset.toNat
  let curPartition ← findPartition parts pager fPage
  if noPartition curPartition then return (noBlock, parts, pager)
  else
    let map := (extendFor pager.map fPage).touch fPage
    if map.get fPage ≠ noBlock then return (map.get fPage, parts, ⟨map, curPartition⟩)
    else
      let (off, curPartition, parts) ← getRoom parts curPartition
      match off with
      | none => return (noBlock, parts, ⟨map, curPartition⟩)
      | some off =>
        let block : DpMap := ⟨BitVec.ofNat 24 off, curPartition⟩
        return (block, parts, ⟨map.put fPage block, curPartition⟩)

/-- The blocks of a list of pages are freed. -/
def deallocPages (map : BlockMap) : List ℕ → Parts α → Except Stop (Parts α)
  | [], parts => .ok parts
  | f :: fs, parts =>
    if map.get f = noBlock then deallocPages map fs parts
    else do
      let parts ← pagerDeallocPage parts (map.get f).pIndex (map.get f).pOffset.toNat true
      deallocPages map fs parts

/-- `pager_dealloc`. -/
def pagerDealloc (parts : Parts α) (pager : Dpager) : Except Stop (Parts α) :=
  deallocPages pager.map pager.map.pages parts

/-- `p_read`, of a whole page. -/
def readBlock (parts : Parts α) (block : DpMap) : Except Stop α := do
  let part ← partOf parts block.pIndex.toNat
  if part.totalSize ≤ block.pOffset.toNat then throw .panic
  else return part.data block.pOffset.toNat

/-- `p_write`, of a whole page. -/
def writeBlock (parts : Parts α) (block : DpMap) (page : α) : Except Stop (Parts α) := do
  let part ← partOf parts block.pIndex.toNat
  if part.totalSize ≤ block.pOffset.toNat then throw .panic
  else return (setPart parts block.pIndex.toNat
    { part with data := Function.update part.data block.pOffset.toNat page })

/-- `pager_move_page`: the new block, or `noBlock`. -/
def pagerMovePage (parts : Parts α) (block : DpMap) : Except Stop (DpMap × Parts α) := do
  let (newPindex, parts) ← choosePartition parts (ptoa 1) block.pIndex
  if noPartition newPindex then return (noBlock, parts)
  else
    let (newOffset, parts) ← pagerAllocPage parts newPindex false
    match newOffset with
    | none => throw .panic
    | some newOffset =>
      let page ← readBlock parts block
      let parts ← pagerDeallocPage parts block.pIndex block.pOffset.toNat false
      let parts ← writeBlock parts ⟨BitVec.ofNat 24 newOffset, newPindex⟩ page
      return (⟨BitVec.ofNat 24 newOffset, newPindex⟩, parts)

/-- The loops of `pager_realloc`: whether all the pages could be moved, and those that were. -/
def moveAll (pindex : PIndex) : List ℕ → BlockMap → Parts α →
    Except Stop (Bool × BlockMap × Parts α)
  | [], map, parts => .ok (true, map, parts)
  | f :: fs, map, parts =>
    if (map.get f).pIndex = pindex then do
      let (block, parts) ← pagerMovePage parts (map.get f)
      if block = noBlock then return (false, map, parts)
      else moveAll pindex fs (map.put f block) parts
    else moveAll pindex fs map parts

/-- `pager_realloc`. -/
def pagerRealloc (parts : Parts α) (pager : Dpager) (pindex : PIndex) :
    Except Stop (Bool × Parts α × Dpager) := do
  let (ok, map, parts) ← moveAll pindex pager.map.pages pager.map parts
  if ok then
    let (part, _) ← choosePartition parts 0 pIndexInvalid
    return (true, parts, ⟨map, part⟩)
  else return (false, parts, ⟨map, pager.curPartition⟩)

/-- `default_read`: the page, or `none` for `PAGER_ABSENT`. -/
def defaultRead (parts : Parts α) (pager : Dpager) (offset : BitVec 32) (deallocate : Bool) :
    Except Stop (Option α × Parts α × Dpager) := do
  let block ← pagerReadOffset pager offset
  if block = noBlock then return (none, parts, pager)
  else
    let page ← readBlock parts block
    if deallocate then
      let (parts, pager) ← pagerReleaseOffset parts pager offset
      return (some page, parts, pager)
    else return (some page, parts, pager)

/-- `default_write`: whether the page was written. -/
def defaultWrite (parts : Parts α) (pager : Dpager) (page : α) (offset : BitVec 32) :
    Except Stop (Bool × Parts α × Dpager) := do
  let (block, parts, pager) ← pagerWriteOffset parts pager offset
  if block = noBlock then return (false, parts, pager)
  else
    let parts ← writeBlock parts block page
    return (true, parts, pager)

/-- `default_has_page`. -/
def defaultHasPage (pager : Dpager) (offset : BitVec 32) : Except Stop Bool := do
  let block ← pagerReadOffset pager offset
  return block ≠ noBlock

end Objects

section Server

variable {α : Type}

/-- `struct dstruct`, as far as it is about storage. -/
structure Dstruct where
  dpager : Dpager
  errors : ℕ

/-- The partitions, the objects in `all_pagers`, and the partition that is being destroyed, with the
objects that may still have pages there. -/
structure State (α : Type) where
  parts : Parts α
  queue : List ℕ
  object : ℕ → Dstruct
  going : Option (ℕ × List ℕ)

/-- What a request is answered with. -/
inductive Answer (α : Type)
  | done
  | provided (page : α)
  | unavailable
  | error
  deriving DecidableEq

inductive Act (α : Type)
  | createPartition (name : List (BitVec 8)) (size : BitVec 32) (data : ℕ → α)
  | create (p : ℕ) (size : BitVec 32)
  | noSenders (p : ℕ)
  | dataRequest (p : ℕ) (offset : BitVec 32) (write : Bool)
  | dataInitialize (p : ℕ) (offset : BitVec 32) (pages : List α)
  | dataWrite (p : ℕ) (offset : BitVec 32) (pages : List α)
  | extend (p : ℕ) (new : ℕ)
  | destroyPartition (name : List (BitVec 8))
  | relocate

/-- An object and the partitions after an operation on it. -/
def State.put (s : State α) (p : ℕ) (parts : Parts α) (ds : Dstruct) : State α :=
  { s with parts := parts, object := Function.update s.object p ds }

/-- The loop of `data_write` over the pages. -/
def writePages (s : State α) (p : ℕ) (offset : BitVec 32) : List α → Except Stop (State α)
  | [] => .ok s
  | page :: pages => do
    let (ok, parts, dpager) ← defaultWrite s.parts (s.object p).dpager page offset
    writePages (s.put p parts ⟨dpager, if ok then (s.object p).errors else (s.object p).errors + 1⟩)
      p (offset + 4096#32) pages

/-- The loop of `data_initialize`, which leaves out the pages that are there. -/
def initializePages (s : State α) (p : ℕ) (offset : BitVec 32) : List α → Except Stop (State α)
  | [] => .ok s
  | page :: pages => do
    let has ← defaultHasPage (s.object p).dpager offset
    if has then initializePages s p (offset + 4096#32) pages
    else
      let (ok, parts, dpager) ← defaultWrite s.parts (s.object p).dpager page offset
      initializePages (s.put p parts ⟨dpager, if ok then (s.object p).errors
        else (s.object p).errors + 1⟩) p (offset + 4096#32) pages

/-- `data_request`. -/
def dataRequest (s : State α) (p : ℕ) (offset : BitVec 32) (write : Bool) :
    Except Stop (State α × Answer α) :=
  if (s.object p).errors ≠ 0 then .ok (s, .error)
  else do
    let (page, parts, dpager) ← defaultRead s.parts (s.object p).dpager offset write
    let answer := match page with
      | some page => Answer.provided page
      | none => .unavailable
    return (s.put p parts { s.object p with dpager := dpager }, answer)

/-- `default_pager_no_senders`, and what `pager_dealloc` does in it. -/
def noSenders (s : State α) (p : ℕ) : Except Stop (State α) := do
  let parts ← pagerDealloc s.parts (s.object p).dpager
  return { s with parts := parts, queue := s.queue.erase p }

/-- A partition is taken away while its pages are moved. -/
def leave (part : Part α) : Part α := { part with goingAway := true, locked := true }

/-- The first part of `destroy_paging_partition`: the partition is found, and locked. -/
def destroyPartition (s : State α) (name : List (BitVec 8)) : Except Stop (State α) :=
  match s.parts.findIdx? (fun slot => slot.any fun part => part.id = partId name) with
  | none => .ok s
  | some pindex => do
    let part ← partOf s.parts pindex
    if part.locked then throw .wait
    else return { s with
      parts := setPart s.parts pindex (leave part)
      going := some (pindex, s.queue) }

/-- The rest of it, object by object. When one cannot be moved the partition is put back in, and
stays locked. -/
def relocate (s : State α) : Except Stop (State α) :=
  match s.going with
  | none => .ok s
  | some (pindex, []) => .ok { s with parts := s.parts.set pindex none, going := none }
  | some (pindex, p :: rest) => do
    let (ok, parts, dpager) ← pagerRealloc s.parts (s.object p).dpager (BitVec.ofNat 8 pindex)
    let s' := s.put p parts { s.object p with dpager := dpager }
    if ok then return { s' with going := some (pindex, rest) }
    else
      let part ← partOf parts pindex
      return { s' with
        parts := setPart parts pindex { part with goingAway := false }
        going := none }

def exec (s : State α) : Act α → Except Stop (State α × Answer α)
  | .createPartition name size data =>
    .ok ({ s with parts := createPagingPartition s.parts (newPart name size data) }, .done)
  | .create p size => do
    let dpager ← pagerPortAlloc s.parts size
    return ({ s with queue := s.queue ++ [p], object := Function.update s.object p ⟨dpager, 0⟩ },
      .done)
  | .noSenders p => do return (← noSenders s p, .done)
  | .dataRequest p offset write => dataRequest s p offset write
  | .dataInitialize p offset pages => do return (← initializePages s p offset pages, .done)
  | .dataWrite p offset pages => do return (← writePages s p offset pages, .done)
  | .extend p new =>
    let dpager := (s.object p).dpager
    .ok (s.put p s.parts { s.object p with dpager := { dpager with map := dpager.map.extend new } },
      .done)
  | .destroyPartition name => do return (← destroyPartition s name, .done)
  | .relocate => do return (← relocate s, .done)

/-- An object is made or goes away while `all_pagers` is not locked, and one partition is destroyed
at a time. -/
def Enabled (s : State α) : Act α → Prop
  | .createPartition _ _ _ => True
  | .create p _ => p ∉ s.queue ∧ s.going = none
  | .noSenders p => p ∈ s.queue ∧ s.going = none
  | .dataRequest p _ _ | .dataInitialize p _ _ | .dataWrite p _ _ | .extend p _ => p ∈ s.queue
  | .destroyPartition _ => s.going = none
  | .relocate => s.going ≠ none

/-- Before any partition is made. -/
def initial : State α := ⟨[], [], fun _ => ⟨⟨.fresh 0, pIndexInvalid⟩, 0⟩, none⟩

/-- The answers to a list of requests, and the state then. -/
def run : State α → List (Act α) → Except Stop (State α × List (Answer α))
  | s, [] => .ok (s, [])
  | s, a :: acts => do
    let (s, answer) ← exec s a
    let (s, answers) ← run s acts
    return (s, answer :: answers)

end Server

end XMach.DefaultPager
