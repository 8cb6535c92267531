import XMach.Bootstrap.Ext2File
import XMach.Lib.Slots

/-!
# What is read of an ext2 file

The blocks in the cache are those of the disk, each in a region of its own (`Sound`). While the
index blocks are walked, the ones that have been replaced are in flight; they are freed at the end,
and lost if the device fails before. A data block is freed before the next one is read, and the file
keeps its address if the device fails. Which blocks are read follows from the inode and from what is
in the cache, and so does whether a failure does harm (`Careful`).
-/

namespace XMach.Ext2File

open Bytes Function

variable (v : Volume)

section Tree

/-- The bytes of a block of the disk. -/
def diskBlock (b : ℕ) : ℕ → Byte := fun i => v.dev (b * v.blockSize + i)

/-- An entry of an index block. -/
def entry (b k : ℕ) : ℕ := get32 (diskBlock v b) (4 * k)

/-- The block at the end of a path through index blocks; 0 is a hole. -/
def descend : ℕ → List ℕ → ℕ
  | b, [] => b
  | b, k :: ks => if b = 0 then 0 else descend (entry v b k) ks

/-- The way to a block of the file: the block in the inode, and the indices from there. -/
def treePath (fileBlock : ℕ) : Option (ℕ × List ℕ) :=
  let n := nindir v
  if fileBlock < 12 then some (v.iBlock fileBlock, [])
  else if fileBlock < 12 + n then some (v.iBlock 12, [fileBlock - 12])
  else if fileBlock < 12 + n + n * n then
    let r := fileBlock - 12 - n
    some (v.iBlock 13, [r / n, r % n])
  else if fileBlock < 12 + n + n * n + n * n * n then
    let r := fileBlock - 12 - n - n * n
    some (v.iBlock 14, [r / (n * n), r / n % n, r % n])
  else none

/-- The disk block of a block of the file, by the inode. -/
def treeBlock (fileBlock : ℕ) : Option ℕ := (treePath v fileBlock).map fun p => descend v p.1 p.2

/-- The index blocks on a path, with their levels. -/
def indexBlocks : ℕ → List ℕ → List (ℕ × ℕ)
  | _, [] => []
  | b, k :: ks => if b = 0 then [] else (ks.length, b) :: indexBlocks (entry v b k) ks

/-- Those on the way to a block of the file. -/
def indexPath (fileBlock : ℕ) : List (ℕ × ℕ) :=
  (treePath v fileBlock).elim [] fun p => indexBlocks v p.1 p.2

/-- The bytes of a block of the file. -/
def blockBytes (b : ℕ) : ℕ → Byte := if b = 0 then fun _ => 0 else diskBlock v b

def fileByte (i : ℕ) : Byte :=
  match treeBlock v (i / v.blockSize) with
  | some b => blockBytes v b (i % v.blockSize)
  | none => 0

/-- The blocks of the inode: data blocks at level 0, index blocks above. -/
inductive InTree : ℕ → ℕ → Prop
  | direct {i : ℕ} (h : i < 12) : InTree 0 (v.iBlock i)
  | root {l : ℕ} (h : l < 3) : InTree (l + 1) (v.iBlock (l + 12))
  | entry {l b k : ℕ} (h : InTree (l + 1) b) (hb : b ≠ 0) (hk : k < nindir v) :
      InTree l (entry v b k)

/-- The index blocks of the file are in the first 2 GB of the disk. -/
def SmallIndex : Prop := ∀ l b, InTree v (l + 1) b → b * v.blockSize < 0x80000000

variable {v}

theorem blockSize_pos : 0 < v.blockSize := by
  rcases v.blockSize_eq with h | h | h <;> omega

theorem nindir_pos : 0 < nindir v := by
  unfold nindir
  rcases v.blockSize_eq with h | h | h <;> omega

theorem fNindir_pos (l : ℕ) : 0 < fNindir v l := by
  induction l with
  | zero => exact nindir_pos
  | succ l ih => exact Nat.mul_pos ih nindir_pos

/-- The indices on the way down. -/
def indices (v : Volume) : ℕ → ℕ → List ℕ
  | 0, _ => []
  | level + 1, fileBlock =>
    (if level > 0 then fileBlock / fNindir v (level - 1) else fileBlock) ::
      indices v level (if level > 0 then fileBlock % fNindir v (level - 1) else fileBlock)

theorem index_lt {level fileBlock : ℕ} (h : fileBlock < fNindir v level) :
    (if level > 0 then fileBlock / fNindir v (level - 1) else fileBlock) < nindir v := by
  cases level with
  | zero => exact h
  | succ level =>
    rw [if_pos (Nat.succ_pos level)]
    exact Nat.div_lt_of_lt_mul h

/-- The levels that `block_map` finds are those of the inode. -/
theorem treePath_eq {fileBlock level rest : ℕ} (hge : ¬ fileBlock < 12)
    (h : findLevel v (fileBlock - 12) = some (level, rest)) :
    level < 3 ∧ rest < fNindir v level ∧
      treePath v fileBlock = some (v.iBlock (level + 12), indices v (level + 1) rest) := by
  unfold findLevel at h
  have h1 : fNindir v 1 = nindir v * nindir v := rfl
  have h2 : fNindir v 2 = nindir v * nindir v * nindir v := rfl
  have h0 : fNindir v 0 = nindir v := rfl
  unfold treePath
  rw [h0, h1, h2] at h
  dsimp only
  rw [if_neg hge]
  split at h
  · next hlt =>
    cases h
    exact ⟨by omega, hlt, by rw [if_pos (by omega)]; rfl⟩
  · split at h
    · next hlt =>
      cases h
      exact ⟨by omega, hlt, by rw [if_neg (by omega), if_pos (by omega)]; rfl⟩
    · split at h
      · next hlt =>
        cases h
        refine ⟨by omega, hlt, ?_⟩
        rw [if_neg (by omega), if_neg (by omega), if_pos (by omega)]
        have hmid : ∀ r, r % (nindir v * nindir v) / nindir v = r / nindir v % nindir v := fun r =>
          Nat.mod_mul_right_div_self r _ _
        have hlow : ∀ r, r % (nindir v * nindir v) % nindir v = r % nindir v := fun r =>
          Nat.mod_mod_of_dvd r (Nat.dvd_mul_left _ _)
        rw [← hmid, ← hlow]
        rfl
      · cases h

/-- The triple indirect blocks reach beyond 4 GB. -/
theorem findLevel_isSome {fileBlock : ℕ} (h : fileBlock < 0x400000) :
    ∃ r, findLevel v fileBlock = some r := by
  have hn : 256 ≤ nindir v := by
    unfold nindir
    rcases v.blockSize_eq with h | h | h <;> omega
  have h2 : 256 * 256 * 256 ≤ fNindir v 2 := Nat.mul_le_mul (Nat.mul_le_mul hn hn) hn
  unfold findLevel
  split
  · exact ⟨_, rfl⟩
  · split
    · exact ⟨_, rfl⟩
    · rw [if_pos (by omega)]
      exact ⟨_, rfl⟩

theorem length_indices (levels fileBlock : ℕ) : (indices v levels fileBlock).length = levels := by
  induction levels generalizing fileBlock with
  | zero => rfl
  | succ level ih => rw [indices, List.length_cons, ih]

theorem lt_of_mem_indexBlocks {b : ℕ} {ks : List ℕ} {e : ℕ × ℕ} (h : e ∈ indexBlocks v b ks) :
    e.1 < ks.length := by
  induction ks generalizing b with
  | nil => cases h
  | cons k ks ih =>
    unfold indexBlocks at h
    split at h
    · cases h
    · rcases List.mem_cons.mp h with rfl | h
      · exact Nat.lt_succ_self _
      · exact Nat.lt_succ_of_lt (ih h)

theorem level_lt {levels fileBlock b : ℕ} {e : ℕ × ℕ}
    (h : e ∈ indexBlocks v b (indices v levels fileBlock)) : e.1 < levels := by
  have hlt := lt_of_mem_indexBlocks h
  rwa [length_indices] at hlt

theorem SmallIndex.of_mem (hsmall : SmallIndex v) {levels ind fileBlock : ℕ}
    (hind : InTree v levels ind)
    (hblock : levels ≠ 0 → fileBlock < fNindir v (levels - 1)) {e : ℕ × ℕ}
    (he : e ∈ indexBlocks v ind (indices v levels fileBlock)) : e.2 * v.blockSize < 0x80000000 := by
  induction levels generalizing ind fileBlock with
  | zero => cases he
  | succ level ih =>
    have hlt : fileBlock < fNindir v level := hblock (Nat.succ_ne_zero _)
    rw [indices, indexBlocks] at he
    split at he
    · cases he
    · next hzero =>
      rcases List.mem_cons.mp he with rfl | he
      · exact hsmall level ind hind
      · refine ih (hind.entry hzero (index_lt hlt)) (fun hlevel => ?_) he
        rw [if_pos (Nat.pos_of_ne_zero hlevel)]
        exact Nat.mod_lt _ (fNindir_pos _)

theorem SmallIndex.path (hsmall : SmallIndex v) {fileBlock : ℕ} (hlt : fileBlock < 0x400000) :
    ∀ e ∈ indexPath v fileBlock, e.2 * v.blockSize < 0x80000000 := by
  unfold indexPath
  by_cases hdirect : fileBlock < 12
  · rw [treePath, if_pos hdirect]
    rintro _ ⟨⟩
  · obtain ⟨⟨level, rest⟩, hlevel⟩ := findLevel_isSome (v := v)
      (by omega : fileBlock - 12 < 0x400000)
    obtain ⟨hlt3, hrest, hpath⟩ := treePath_eq hdirect hlevel
    rw [hpath]
    exact fun e he => hsmall.of_mem (InTree.root hlt3) (fun _ => hrest) he

/-- The record of a block in the first 2 GB of the disk. -/
theorem fsbtodb_mul {b : ℕ} (h : b * v.blockSize < 0x80000000) :
    fsbtodb v b * 512 = b * v.blockSize := by
  unfold fsbtodb
  dsimp only
  rw [Nat.mod_eq_of_lt (by omega), if_pos h]
  apply Nat.div_mul_cancel
  have : 512 ∣ v.blockSize := by rcases v.blockSize_eq with h | h | h <;> rw [h] <;> decide
  exact Nat.dvd_mul_left_of_dvd this b

end Tree

section Invariant

/-- The regions that the file holds: the data block, and an index block for each level. -/
def ptr (f : File) : Option (Fin 3) → ℕ
  | none => f.fBuf
  | some l => f.fBlk l

/-- The replaced blocks that are to be freed. -/
def flight (old : List (ℕ × ℕ)) : List ℕ := (old.map Prod.fst).filter fun p => p ≠ 0

/-- The cache has blocks of the disk, and the blocks in `old` are to be freed. -/
structure Sound (s : State) (old : List (ℕ × ℕ)) : Prop where
  owns : Owns (ptr s.file) (flight old) s.live s.next
  sizes : ∀ e ∈ old, e.1 ≠ 0 → e.2 ≠ 0 ∧ ∀ r, s.live e.1 = some r → r.size = e.2
  data : s.file.fBuf ≠ 0 → s.file.fBufSize = v.blockSize ∧
    ∃ b, treeBlock v s.file.fBufBlkno = some b ∧
    s.live s.file.fBuf = some ⟨v.blockSize, blockBytes v b⟩
  noData : s.file.fBuf = 0 → s.file.fBufBlkno = noBlock
  index : ∀ l : Fin 3, s.file.fBlk l ≠ 0 → s.file.fBlksize l = v.blockSize ∧
    s.live (s.file.fBlk l) = some ⟨v.blockSize, diskBlock v (s.file.fBlkno l)⟩
  noIndex : ∀ l : Fin 3, s.file.fBlk l = 0 → s.file.fBlkno l = noBlock
  good : s.bad = false

variable {v} {s s' : State} {old : List (ℕ × ℕ)} {b : ℕ}

theorem flight_cons_zero (size : ℕ) : flight ((0, size) :: old) = flight old := rfl

theorem flight_cons {data size : ℕ} (h : data ≠ 0) :
    flight ((data, size) :: old) = data :: flight old := by
  unfold flight
  rw [List.map_cons, List.filter_cons_of_pos (by simpa using h)]

theorem mem_flight {e : ℕ × ℕ} (h : e ∈ old) (hne : e.1 ≠ 0) : e.1 ∈ flight old :=
  List.mem_filter.mpr ⟨List.mem_map_of_mem h, by simpa using hne⟩

/-- Some device reads that have all succeeded. -/
def Quiet (n : ℕ) (fails fails' : List (Option Code)) : Prop := (∀ f ∈ fails.take n, f = none) ∧
    fails' = fails.drop n

theorem Quiet.refl (fails : List (Option Code)) : Quiet 0 fails fails := ⟨by rintro _ ⟨⟩, rfl⟩

theorem deviceRead_cases (hsmall : b * v.blockSize < 0x80000000) :
    (∃ rc fails, s.fails = some rc :: fails ∧
      deviceRead v s (fsbtodb v b) v.blockSize = (.error rc, { s with fails := fails })) ∨
    ∃ fails, Quiet 1 s.fails fails ∧
      deviceRead v s (fsbtodb v b) v.blockSize = (.ok s.next,
        { s with
          live := update s.live s.next (some ⟨v.blockSize, diskBlock v b⟩)
          next := s.next + 1
          fails := fails }) := by
  have hbytes : (fun i => v.dev (fsbtodb v b * 512 + i)) = diskBlock v b := by
    rw [fsbtodb_mul hsmall]
    rfl
  unfold deviceRead State.vmAllocate
  rw [hbytes]
  obtain ⟨file, live, next, fails, bad⟩ := s
  cases fails with
  | nil => exact .inr ⟨[], ⟨by rintro _ ⟨⟩, rfl⟩, rfl⟩
  | cons f fails =>
    cases f with
    | some rc => exact .inl ⟨rc, fails, rfl, rfl⟩
    | none => exact .inr ⟨fails, ⟨by simp, rfl⟩, rfl⟩

theorem Sound.alloc (h : Sound v s old) (r : Region) (hsize : r.size ≠ 0)
    (fails : List (Option Code)) :
    Sound v { s with live := update s.live s.next (some r), next := s.next + 1, fails := fails }
      ((s.next, r.size) :: old) where
  owns := by
    rw [flight_cons (Nat.ne_of_gt h.owns.pos)]
    exact h.owns.alloc r
  sizes e he hne := by
    dsimp only
    rcases List.mem_cons.mp he with rfl | he
    · refine ⟨hsize, fun r' hr' => ?_⟩
      rw [update_self] at hr'
      rw [Option.some.inj hr']
    · obtain ⟨r₁, hr₁⟩ := h.owns.inFlight e.1 (mem_flight he hne)
      rw [update_of_ne (h.owns.ne_next hr₁)]
      exact h.sizes e he hne
  data hbuf := by
    have hne : s.file.fBuf ≠ s.next := h.owns.ptr_ne_next none
    dsimp only
    rw [update_of_ne hne]
    exact h.data hbuf
  noData := h.noData
  index l hl := by
    have hne : s.file.fBlk l ≠ s.next := h.owns.ptr_ne_next (some l)
    dsimp only
    rw [update_of_ne hne]
    exact h.index l hl
  noIndex := h.noIndex
  good := h.good

theorem Sound.free {data size : ℕ} (h : Sound v s ((data, size) :: old)) (hne : data ≠ 0) :
    Sound v (s.vmDeallocate data size) old ∧ (s.vmDeallocate data size).file = s.file ∧
      (s.vmDeallocate data size).fails = s.fails := by
  have howns := h.owns
  rw [flight_cons hne] at howns
  obtain ⟨r, hr⟩ := howns.inFlight data List.mem_cons_self
  have hrsize := (h.sizes _ List.mem_cons_self hne).2 r hr
  unfold State.vmDeallocate
  rw [hr]
  refine ⟨⟨howns.free, fun e he hne' => ?_, fun hbuf => ?_, h.noData, fun l hl => ?_, h.noIndex,
    ?_⟩, rfl, rfl⟩
  · have : e.1 ≠ data := by
      rintro rfl
      exact (List.nodup_cons.mp howns.nodup).1 (mem_flight he hne')
    dsimp only
    rw [update_of_ne this]
    exact h.sizes e (List.mem_cons_of_mem _ he) hne'
  · have hne : s.file.fBuf ≠ data := howns.apart data List.mem_cons_self none
    dsimp only
    rw [update_of_ne hne]
    exact h.data hbuf
  · have hne : s.file.fBlk l ≠ data := howns.apart data List.mem_cons_self (some l)
    dsimp only
    rw [update_of_ne hne]
    exact h.index l hl
  · simp [h.good, hrsize]

theorem Sound.free_zero {size : ℕ} (h : Sound v s ((0, size) :: old)) :
    Sound v s old ∧ s.vmDeallocate 0 size = s := by
  have hlive : s.live 0 = none := by
    by_contra hne
    obtain ⟨r, hr⟩ := Option.ne_none_iff_exists'.mp hne
    exact absurd (h.owns.below 0 r hr).1 (Nat.lt_irrefl 0)
  refine ⟨{ h with sizes := fun e he => h.sizes e (List.mem_cons_of_mem _ he) }, ?_⟩
  unfold State.vmDeallocate
  rw [hlive]
  simp

theorem Sound.freeOld (h : Sound v s old) :
    Sound v (freeOld s old) [] ∧ (Ext2File.freeOld s old).file = s.file ∧
    (Ext2File.freeOld s old).fails = s.fails := by
  induction old generalizing s with
  | nil => exact ⟨h, rfl, rfl⟩
  | cons e old ih =>
    obtain ⟨data, size⟩ := e
    unfold Ext2File.freeOld
    by_cases hzero : data = 0
    · subst hzero
      obtain ⟨hrest, hsame⟩ := h.free_zero
      rw [hsame, ite_self]
      exact ih hrest
    · rw [if_pos (h.sizes _ List.mem_cons_self hzero).1]
      obtain ⟨hfree, hfile, hfails⟩ := h.free hzero
      obtain ⟨hrest, hfile', hfails'⟩ := ih hfree
      exact ⟨hrest, hfile'.trans hfile, hfails'.trans hfails⟩

/-- An index block in flight is stored, and the one that it replaces is in flight. -/
theorem Sound.cache {level data ind : ℕ} (h : Sound v s ((data, v.blockSize) :: old))
    (hlevel : level < 3) (hdata : s.live data = some ⟨v.blockSize, diskBlock v ind⟩) :
    Sound v (s.cache level data v.blockSize ind)
    ((s.file.fBlk level, s.file.fBlksize level) :: old) := by
  have hpos : data ≠ 0 := fun hzero => absurd (h.owns.below data _ hdata).1 (by omega)
  have howns := h.owns
  rw [flight_cons hpos] at howns
  have hptr : ptr (s.cache level data v.blockSize ind).file =
      update (ptr s.file) (some ⟨level, hlevel⟩) data := by
    funext k
    cases k with
    | none => rfl
    | some l =>
      by_cases hl : l = ⟨level, hlevel⟩
      · rw [hl, update_self]
        exact update_self _ _ _
      · rw [update_of_ne (fun h => hl (Option.some.inj h))]
        exact update_of_ne (fun h => hl (Fin.ext h)) _ _
  have hother : ∀ l : Fin 3, l ≠ ⟨level, hlevel⟩ → (l : ℕ) ≠ level := fun l hl h => hl (Fin.ext h)
  refine ⟨?_, fun e he hne => ?_, h.data, h.noData, fun l hl => ?_, fun l hl => ?_, h.good⟩
  · rw [hptr]
    have hswap := howns.swap (some ⟨level, hlevel⟩) hpos
    by_cases hzero : s.file.fBlk level = 0
    · rw [hzero, flight_cons_zero]
      rwa [if_pos (show ptr s.file (some ⟨level, hlevel⟩) = 0 from hzero)] at hswap
    · rw [flight_cons hzero]
      rwa [if_neg (show ¬ ptr s.file (some ⟨level, hlevel⟩) = 0 from hzero)] at hswap
  · rcases List.mem_cons.mp he with rfl | he
    · obtain ⟨hsize, hlive⟩ := h.index ⟨level, hlevel⟩ hne
      refine ⟨by rw [hsize]; exact Nat.ne_of_gt blockSize_pos, fun r hr => ?_⟩
      obtain rfl := Option.some.inj (hlive.symm.trans hr)
      exact hsize.symm
    · exact h.sizes e (List.mem_cons_of_mem _ he) hne
  · by_cases hl' : l = ⟨level, hlevel⟩
    · subst hl'
      simp only [State.cache, update_self]
      exact ⟨trivial, hdata⟩
    · simp only [State.cache, update_of_ne (hother l hl')] at hl ⊢
      exact h.index l hl
  · by_cases hl' : l = ⟨level, hlevel⟩
    · subst hl'
      simp only [State.cache, update_self] at hl
      exact absurd hl hpos
    · simp only [State.cache, update_of_ne (hother l hl')] at hl ⊢
      exact h.noIndex l hl

theorem Sound.not_forget (h : Sound v s old) (hne : flight old ≠ []) : ¬ Sound v s [] := by
  intro hforget
  have howns := h.owns
  obtain ⟨p, rest, hp⟩ := List.exists_cons_of_ne_nil hne
  rw [hp] at howns
  exact howns.not_forget hforget.owns

end Invariant

section Cached

/-- What is in the cache, and the outcomes of the next device reads: an index block for each level,
and a block of the file. -/
structure Cached where
  index : ℕ → Option ℕ
  data : Option ℕ
  fails : List (Option Code)

def State.cached (s : State) : Cached where
  index l := if s.file.fBlk l = 0 then none else some (s.file.fBlkno l)
  data := if s.file.fBuf = 0 then none else some s.file.fBufBlkno
  fails := s.fails

/-- The index blocks of a path that are not in the cache. -/
def missing (index : ℕ → Option ℕ) (path : List (ℕ × ℕ)) : List (ℕ × ℕ) :=
  path.filter fun e => index e.1 ≠ some e.2

/-- The cache once all blocks of a path are in it. -/
def loaded (index : ℕ → Option ℕ) : List (ℕ × ℕ) → ℕ → Option ℕ
  | [] => index
  | e :: path => loaded (update index e.1 (some e.2)) path

variable {index : ℕ → Option ℕ} {path : List (ℕ × ℕ)} {l b n m k : ℕ}
  {fails fails' fails'' : List (Option Code)} {rc : Code}

theorem missing_cons_hit (h : index l = some b) :
    missing index ((l, b) :: path) = missing index path :=
  List.filter_cons_of_neg (by simp [h])

theorem missing_cons_miss (h : index l ≠ some b) :
    missing index ((l, b) :: path) = (l, b) :: missing index path :=
  List.filter_cons_of_pos (by simp [h])

theorem missing_update (h : ∀ e ∈ path, e.1 < l) (x : Option ℕ) :
    missing (update index l x) path = missing index path :=
  List.filter_congr fun e he => by rw [update_of_ne (Nat.ne_of_lt (h e he))]

theorem Quiet.trans (h : Quiet n fails fails') (h' : Quiet m fails' fails'') :
    Quiet (n + m) fails fails'' := by
  obtain ⟨hn, rfl⟩ := h
  obtain ⟨hm, rfl⟩ := h'
  refine ⟨fun f hf => ?_, List.drop_drop ..⟩
  rw [List.take_add] at hf
  exact (List.mem_append.mp hf).elim (hn f) (hm f)

/-- Where the first failure is. -/
theorem Quiet.eq_append (h : Quiet k fails (some rc :: fails')) :
    fails = fails.take k ++ some rc :: fails' ∧ (fails.take k).length = k := by
  have heq : fails = fails.take k ++ some rc :: fails' := by rw [h.2, List.take_append_drop]
  refine ⟨heq, ?_⟩
  have hlen := congrArg List.length h.2
  rw [List.length_cons, List.length_drop] at hlen
  rw [List.length_take]
  omega

theorem findIdx?_quiet (h : Quiet n fails fails') : (fails.take n).findIdx? Option.isSome = none :=
  List.findIdx?_eq_none_iff.mpr fun f hf => by rw [h.1 f hf]; rfl

theorem findIdx?_failed (h : Quiet k fails (some rc :: fails')) (hlt : k < n) :
    (fails.take n).findIdx? Option.isSome = some k := by
  obtain ⟨heq, hlen⟩ := h.eq_append
  have htake : fails.take n = fails.take k ++ some rc :: fails'.take (n - k - 1) := by
    have htake := congrArg (List.take n) heq
    rwa [List.take_append, List.take_take, Nat.min_eq_right (Nat.le_of_lt hlt), hlen,
      show n - k = (n - k - 1) + 1 by omega, List.take_succ_cons] at htake
  rw [htake, List.findIdx?_append, findIdx?_quiet h, List.findIdx?_cons]
  simp [hlen]

theorem Quiet.not_failed (h : Quiet n fails fails') (h' : Quiet k fails (some rc :: fails')) :
    False := by
  obtain ⟨heq, hlen⟩ := h'.eq_append
  have hdrop := congrArg List.length h.2
  have hlength := congrArg List.length heq
  rw [List.length_drop] at hdrop
  rw [List.length_append, hlen, List.length_cons] at hlength
  have hmem : some rc ∈ fails.take n := by
    rw [heq, List.take_append, hlen]
    refine List.mem_append_right _ ?_
    rw [show n - k = (n - k - 1) + 1 by omega, List.take_succ_cons]
    exact List.mem_cons_self
  cases h.1 _ hmem

end Cached

section Map

variable {v} {s s' : State} {old path : List (ℕ × ℕ)} {fails : List (Option Code)} {rc : Code}

theorem Sound.congr_fails (h : Sound v s old) (fails : List (Option Code)) :
    Sound v { s with fails := fails } old :=
  { h with }

theorem Sound.of_flight_nil (h : Sound v s old) (hnil : flight old = []) : Sound v s [] :=
  { h with
    owns := by
      have howns := h.owns
      rwa [hnil] at howns
    sizes := by rintro _ ⟨⟩ }

theorem ne_noBlock {b : ℕ} (hlt : b * v.blockSize < 0x80000000) : b ≠ noBlock := by
  rintro rfl
  unfold noBlock at hlt
  rcases v.blockSize_eq with h | h | h <;> omega

theorem Sound.index_eq_some (h : Sound v s old) {level b : ℕ} (hlevel : level < 3)
    (hb : b ≠ noBlock) : s.cached.index level = some b ↔ s.file.fBlkno level = b := by
  unfold State.cached
  dsimp only
  split
  · next hzero =>
    have hnone : s.file.fBlkno level = noBlock := h.noIndex ⟨level, hlevel⟩ hzero
    rw [hnone]
    exact ⟨by rintro ⟨⟩, fun heq => absurd heq.symm hb⟩
  · exact Option.some_inj

/-- What a walk through the index blocks of a path has done. A failure does no harm if nothing is in
flight, and nothing was in the cache where blocks of the path have been read. -/
structure Walked (v : Volume) (path : List (ℕ × ℕ)) (target : ℕ) (old : List (ℕ × ℕ)) (s : State)
    (out : Except Code ℕ) (s' : State) : Prop where
  data : s'.cached.data = s.cached.data
  good : s'.bad = false
  ok : ∀ b, out = .ok b → b = target ∧ Sound v s' [] ∧
    s'.cached.index = loaded s.cached.index path ∧
    Quiet (missing s.cached.index path).length s.fails s'.fails
  error : ∀ rc, out = .error rc → ∃ k < (missing s.cached.index path).length,
    Quiet k s.fails (some rc :: s'.fails) ∧
      (Sound v s' [] ↔ flight old = [] ∧ ∀ e ∈ (missing s.cached.index path).take k,
      s.cached.index e.1 = none)

theorem Walked.done (h : Sound v s old) (target : ℕ) : Walked v [] target old s (.ok target)
    (freeOld s old) := by
  obtain ⟨hsound, hfile, hfails⟩ := h.freeOld
  refine ⟨by unfold State.cached; rw [hfile], hsound.good, ?_, by rintro _ ⟨⟩⟩
  rintro _ ⟨⟩
  refine ⟨rfl, hsound, by unfold State.cached; rw [hfile]; rfl, ?_⟩
  rw [hfails]
  exact Quiet.refl _

theorem Walked.hit {level ind target : ℕ} {out : Except Code ℕ}
    (hhit : s.cached.index level = some ind)
    (h : Walked v path target old s out s') :
    Walked v ((level, ind) :: path) target old s out s' := by
  refine ⟨h.data, h.good, fun b hb => ?_, ?_⟩
  · rw [missing_cons_hit hhit, loaded, ← hhit, update_eq_self]
    exact h.ok b hb
  · rw [missing_cons_hit hhit]
    exact h.error

theorem Walked.fail {level ind target : ℕ} (h : Sound v s old)
    (hmiss : s.cached.index level ≠ some ind) (hfails : s.fails = some rc :: fails) :
    Walked v ((level, ind) :: path) target old s (.error rc) { s with fails := fails } := by
  refine ⟨rfl, h.good, by rintro _ ⟨⟩, ?_⟩
  rintro _ ⟨⟩
  rw [missing_cons_miss hmiss, List.length_cons]
  refine ⟨0, Nat.succ_pos _, ⟨by rintro _ ⟨⟩, hfails.symm⟩, fun hsound => ⟨?_, by rintro _ ⟨⟩⟩,
    fun hnil => ?_⟩
  · by_contra hne
    exact (h.congr_fails fails).not_forget hne hsound
  · exact (h.congr_fails fails).of_flight_nil hnil.1

theorem Walked.miss {level target ind : ℕ} {out : Except Code ℕ} {t : State}
    (hmiss : s.cached.index level ≠ some ind) (hbelow : ∀ e ∈ path, e.1 < level)
    (hindex : t.cached.index = update s.cached.index level (some ind))
    (hdata : t.cached.data = s.cached.data) (hfails : Quiet 1 s.fails t.fails)
    (h : Walked v path target ((s.file.fBlk level, s.file.fBlksize level) :: old) t out s') :
    Walked v ((level, ind) :: path) target old s out s' := by
  have hmissing :
    missing t.cached.index path =
      missing s.cached.index path := by rw [hindex, missing_update hbelow]
  refine ⟨h.data.trans hdata, h.good, fun b hb => ?_, fun rc hrc => ?_⟩ <;>
    rw [missing_cons_miss hmiss, List.length_cons]
  · obtain ⟨htarget, hsound, hloaded, hquiet⟩ := h.ok b hb
    rw [hmissing] at hquiet
    refine ⟨htarget, hsound, by rw [hloaded, hindex]; rfl, ?_⟩
    rw [Nat.add_comm]
    exact hfails.trans hquiet
  · obtain ⟨k, hk, hquiet, hiff⟩ := h.error rc hrc
    rw [hmissing] at hk hiff
    refine ⟨k + 1, by omega, by rw [Nat.add_comm]; exact hfails.trans hquiet, hiff.trans ?_⟩
    -- the block that was replaced is in flight, if there was one
    have hnone : s.cached.index level = none ↔ s.file.fBlk level = 0 := by simp [State.cached]
    have hkept : ∀ e ∈ (missing s.cached.index path).take k,
      t.cached.index e.1 = s.cached.index e.1 := fun e he => by
      rw [hindex, update_of_ne
        (Nat.ne_of_lt (hbelow e (List.mem_filter.mp (List.mem_of_mem_take he)).1))]
    rw [List.take_succ_cons, List.forall_mem_cons, hnone,
      forall₂_congr fun e he => by rw [hkept e he]]
    by_cases hzero : s.file.fBlk level = 0
    · rw [hzero, flight_cons_zero]
      exact ⟨fun ⟨hnil, hrest⟩ => ⟨hnil, rfl, hrest⟩, fun ⟨hnil, _, hrest⟩ => ⟨hnil, hrest⟩⟩
    · rw [flight_cons hzero]
      exact iff_of_false (fun hall => List.cons_ne_nil _ _ hall.1) fun hall => hzero hall.2.1

theorem cached_cache (s : State) (level ind : ℕ) {data size : ℕ} (hne : data ≠ 0) :
    (s.cache level data size ind).cached.index = update s.cached.index level (some ind) := by
  funext l
  unfold State.cached State.cache
  by_cases hl : l = level
  · simp [hl, hne]
  · simp [update_of_ne hl]

theorem use_eq {addr : ℕ} {r : Region} (h : s.live addr = some r) : s.use addr = (r.bytes, s) := by
  unfold State.use
  rw [h]

theorem mapLevels_spec {levels fileBlock ind : ℕ} (hlevels : levels ≤ 3) (h : Sound v s old)
    (hsmall : ∀ e ∈ indexBlocks v ind (indices v levels fileBlock),
    e.2 * v.blockSize < 0x80000000) : ∃ out s', mapLevels v levels fileBlock ind old s = (out, s') ∧
      Walked v (indexBlocks v ind (indices v levels fileBlock))
        (descend v ind (indices v levels fileBlock)) old s out s' := by
  induction levels generalizing fileBlock ind old s with
  | zero => exact ⟨_, _, rfl, Walked.done h ind⟩
  | succ level ih =>
    rw [indices, indexBlocks, descend] at *
    unfold mapLevels
    dsimp only
    by_cases hzero : ind = 0
    · rw [if_pos hzero, if_pos hzero, if_pos hzero]
      exact ⟨_, _, rfl, Walked.done h 0⟩
    · rw [if_neg hzero] at hsmall
      rw [if_neg hzero, if_neg hzero, if_neg hzero]
      obtain ⟨hdisk, hsmall⟩ := List.forall_mem_cons.mp hsmall
      rw [length_indices] at *
      have hcached := h.index_eq_some (show level < 3 from hlevels) (ne_noBlock hdisk)
      by_cases hhit : s.file.fBlkno level = ind
      · rw [if_pos hhit]
        have hne : s.file.fBlk level ≠ 0 := fun hempty =>
          ne_noBlock hdisk (hhit.symm.trans (h.noIndex ⟨level, hlevels⟩ hempty))
        obtain ⟨-, hlive⟩ := h.index ⟨level, hlevels⟩ hne
        rw [use_eq hlive]
        dsimp only
        rw [hhit]
        obtain ⟨out, s', heq, hwalked⟩ := ih (by omega) h hsmall
        exact ⟨out, s', heq, hwalked.hit (hcached.mpr hhit)⟩
      · rw [if_neg hhit]
        have hmiss : s.cached.index level ≠ some ind := fun heq => hhit (hcached.mp heq)
        rcases deviceRead_cases (s := s) hdisk with ⟨rc, fails, hfails, heq⟩ | ⟨fails, hquiet, heq⟩
        · rw [heq]
          exact ⟨_, _, rfl, Walked.fail h hmiss hfails⟩
        · rw [heq]
          have halloc := h.alloc ⟨v.blockSize, diskBlock v ind⟩ (Nat.ne_of_gt blockSize_pos) fails
          have hdata : update s.live s.next (some ⟨v.blockSize, diskBlock v ind⟩) s.next =
              some ⟨v.blockSize, diskBlock v ind⟩ := update_self _ _ _
          have hcache := halloc.cache (show level < 3 from hlevels) hdata
          obtain ⟨out, s', heq', hwalked⟩ := ih (by omega) hcache hsmall
          refine ⟨out, s', ?_, .miss hmiss (fun _ => level_lt) ?_ ?_ ?_ hwalked⟩
          · rw [← heq']
            dsimp only
            rw [use_eq (s := State.cache _ _ _ _ _) (r := ⟨v.blockSize, diskBlock v ind⟩)
              (by exact hdata)]
            rfl
          · exact cached_cache _ _ _ (Nat.ne_of_gt h.owns.pos)
          · rfl
          · exact hquiet

end Map

section Read

variable {v} {s s' : State} {fileBlock : ℕ}

/-- `block_map` finds the block of the inode. -/
theorem blockMap_spec (h : Sound v s []) (hlt : fileBlock < 0x400000)
    (hsmall : ∀ e ∈ indexPath v fileBlock, e.2 * v.blockSize < 0x80000000) :
    ∃ out s' target, blockMap v s fileBlock = (out, s') ∧
    Walked v (indexPath v fileBlock) target [] s out s' ∧
      treeBlock v fileBlock = some target := by
  unfold blockMap
  by_cases hdirect : fileBlock < 12
  · have hpath : treePath v fileBlock = some (v.iBlock fileBlock, []) := if_pos hdirect
    rw [if_pos hdirect, indexPath, treeBlock, hpath]
    exact ⟨_, _, _, rfl, Walked.done h _, rfl⟩
  · rw [if_neg hdirect]
    obtain ⟨⟨level, rest⟩, hlevel⟩ := findLevel_isSome (v := v)
      (by omega : fileBlock - 12 < 0x400000)
    obtain ⟨hlt3, hrest, hpath⟩ := treePath_eq hdirect hlevel
    rw [indexPath, hpath] at hsmall
    rw [hlevel, indexPath, treeBlock, hpath]
    obtain ⟨out, s', heq, hwalked⟩ := mapLevels_spec (by omega) h hsmall
    exact ⟨out, s', _, heq, hwalked, rfl⟩

/-- The device reads for a block of the file that is not in the cache. -/
def reads (v : Volume) (c : Cached) (fileBlock : ℕ) : ℕ :=
  (missing c.index (indexPath v fileBlock)).length + if treeBlock v fileBlock = some 0 then 0 else 1

/-- The cache when a block of the file has been read. -/
def Cached.after (v : Volume) (c : Cached) (fileBlock : ℕ) : Cached :=
  ⟨loaded c.index (indexPath v fileBlock), some fileBlock, c.fails.drop (reads v c fileBlock)⟩

/-- The failure of one of the reads for a block does no harm: if it is one of an index block,
nothing was in the cache at the levels that have been read before, and if it is the one of the data
block, there was no other one. -/
def Harmless (v : Volume) (c : Cached) (fileBlock k : ℕ) : Prop :=
  if k < (missing c.index (indexPath v fileBlock)).length then
    ∀ e ∈ (missing c.index (indexPath v fileBlock)).take k, c.index e.1 = none
  else c.data = none

/-- The first device read that fails while some blocks of the file are read, in order, does no
harm. -/
def CarefulBlocks (v : Volume) : List ℕ → Cached → Prop
  | [], _ => True
  | fileBlock :: rest, c =>
    if c.data = some fileBlock then CarefulBlocks v rest c
    else match (c.fails.take (reads v c fileBlock)).findIdx? Option.isSome with
      | some k => Harmless v c fileBlock k
      | none => CarefulBlocks v rest (c.after v fileBlock)

theorem freeBuf_spec (h : Sound v s []) {t : State}
    (ht : t = if s.file.fBuf ≠ 0 then s.vmDeallocate s.file.fBuf s.file.fBufSize else s) :
    t.file = s.file ∧ t.next = s.next ∧ t.fails = s.fails ∧ t.bad = false ∧
      t.live = if s.file.fBuf = 0 then s.live else update s.live s.file.fBuf none := by
  by_cases hbuf : s.file.fBuf = 0
  · rw [if_neg (fun hne => hne hbuf)] at ht
    rw [if_pos hbuf, ht]
    exact ⟨rfl, rfl, rfl, h.good, rfl⟩
  · obtain ⟨hsize, b, -, hlive⟩ := h.data hbuf
    rw [if_pos hbuf] at ht
    unfold State.vmDeallocate at ht
    rw [hlive] at ht
    rw [if_neg hbuf, ht]
    exact ⟨rfl, rfl, rfl, by simp [h.good, hsize], rfl⟩

/-- A data block in a new region replaces the one that was freed. -/
theorem Sound.setBuf (h : Sound v s []) {b : ℕ} (htree : treeBlock v fileBlock = some b) {t : State}
    (hfile : t.file = s.file) (hgood : t.bad = false) (hnext : t.next = s.next + 1)
    (hlive : t.live = update (if s.file.fBuf = 0 then s.live else update s.live s.file.fBuf none)
      s.next (some ⟨v.blockSize, blockBytes v b⟩)) :
    Sound v (t.setBuf s.next v.blockSize fileBlock) [] := by
  have hpos : s.next ≠ 0 := Nat.ne_of_gt h.owns.pos
  have hnew : s.file.fBuf ≠ s.next := h.owns.ptr_ne_next none
  have hptr : ptr (t.setBuf s.next v.blockSize fileBlock).file =
    update (ptr s.file) none s.next := by
    funext k
    cases k with
    | none =>
      rw [update_self]
      rfl
    | some l =>
      rw [update_of_ne (by rintro ⟨⟩)]
      unfold State.setBuf ptr
      rw [hfile]
  have hindex : ∀ l : Fin 3, s.file.fBlk l ≠ 0 → t.live (s.file.fBlk l) = s.live (s.file.fBlk l) :=
    fun l hl => by
    have hne : s.file.fBlk l ≠ s.next := h.owns.ptr_ne_next (some l)
    have hne' : s.file.fBlk l ≠ s.file.fBuf := fun heq => by cases h.owns.inj (some l) none hl heq
    rw [hlive, update_of_ne hne]
    split
    · rfl
    · exact update_of_ne hne' _ _
  refine ⟨?_, by rintro _ ⟨⟩, fun _ => ⟨rfl, b, htree, ?_⟩, fun hzero => absurd hzero hpos,
    fun l hl => ?_, fun l hl => ?_, hgood⟩
  · have hswap := (h.owns.alloc ⟨v.blockSize, blockBytes v b⟩).swap none hpos
    rw [hptr]
    show Owns _ [] t.live t.next
    rw [hlive, hnext]
    by_cases hbuf : s.file.fBuf = 0
    · rw [if_pos hbuf]
      rwa [if_pos (show ptr s.file none = 0 from hbuf)] at hswap
    · rw [if_neg hbuf, update_comm hnew]
      rw [if_neg (show ¬ ptr s.file none = 0 from hbuf)] at hswap
      exact hswap.free
  · show t.live s.next = _
    rw [hlive, update_self]
  · have hl' : s.file.fBlk l ≠ 0 := by rwa [← hfile]
    obtain ⟨hsize, hcached⟩ := h.index l hl'
    unfold State.setBuf
    dsimp only
    rw [hfile, hindex l hl']
    exact ⟨hsize, hcached⟩
  · have hl' : s.file.fBlk l = 0 := by rwa [← hfile]
    unfold State.setBuf
    dsimp only
    rw [hfile]
    exact h.noIndex l hl'

/-- A block of the file and the index blocks on the way to it are in the first 2 GB of the disk. -/
def SmallBlock (v : Volume) (fileBlock : ℕ) : Prop :=
  (∀ e ∈ indexPath v fileBlock, e.2 * v.blockSize < 0x80000000) ∧
    ∀ b ∈ treeBlock v fileBlock, b * v.blockSize < 0x80000000

/-- What the reading of a data block has done. -/
structure BlockRead (v : Volume) (fileBlock : ℕ) (s : State) (out : Except Code Unit) (s' : State) :
  Prop where
  good : s'.bad = false
  ok : out = .ok () → Sound v s' [] ∧ s'.cached = s.cached.after v fileBlock ∧
    Quiet (reads v s.cached fileBlock) s.fails s'.fails
  error : ∀ rc, out = .error rc → ∃ k < reads v s.cached fileBlock,
    Quiet k s.fails (some rc :: s'.fails) ∧ (Sound v s' [] ↔ Harmless v s.cached fileBlock k)

theorem BlockRead.read (h : Sound v s []) {b : ℕ} (htree : treeBlock v fileBlock = some b)
    {c : Cached}
    (hindex : s.cached.index = loaded c.index (indexPath v fileBlock)) {t : State}
    (hfile : t.file = s.file) (hgood : t.bad = false) (hnext : t.next = s.next + 1)
    (hlive : t.live = update (if s.file.fBuf = 0 then s.live else update s.live s.file.fBuf none)
      s.next (some ⟨v.blockSize, blockBytes v b⟩)) (hquiet :
      Quiet (reads v c fileBlock) c.fails t.fails) :
    Sound v (t.setBuf s.next v.blockSize fileBlock) [] ∧
      (t.setBuf s.next v.blockSize fileBlock).cached = c.after v fileBlock := by
  refine ⟨h.setBuf htree hfile hgood hnext hlive, ?_⟩
  have hne : s.next ≠ 0 := Nat.ne_of_gt h.owns.pos
  unfold Cached.after
  rw [← hindex, ← hquiet.2]
  unfold State.cached State.setBuf
  simp only [hfile, if_neg hne]

theorem readBlock_spec (h : Sound v s []) (hlt : fileBlock < 0x400000)
    (hsmall : SmallBlock v fileBlock) :
    ∃ out s', readBlock v s fileBlock = (out, s') ∧ BlockRead v fileBlock s out s' := by
  obtain ⟨out, s₁, target, heq, hwalked, htree⟩ := blockMap_spec h hlt hsmall.1
  unfold readBlock
  rw [heq]
  cases out with
  | error rc =>
    obtain ⟨k, hk, hquiet, hiff⟩ := hwalked.error rc rfl
    refine ⟨_, _, rfl, hwalked.good, by rintro ⟨⟩, ?_⟩
    rintro _ ⟨⟩
    refine ⟨k, Nat.lt_add_right _ hk, hquiet, ?_⟩
    rw [hiff, Harmless, if_pos hk]
    exact and_iff_right rfl
  | ok b =>
    obtain ⟨rfl, hsound, hindex, hquiet⟩ := hwalked.ok b rfl
    dsimp only
    generalize ht :
      (if s₁.file.fBuf ≠ 0 then s₁.vmDeallocate s₁.file.fBuf s₁.file.fBufSize else s₁) = t
    obtain ⟨hfile, hnext, hfails, hgood, hlive⟩ := freeBuf_spec hsound ht.symm
    have hreads : reads v s.cached fileBlock =
        (missing s.cached.index (indexPath v fileBlock)).length + if b = 0 then 0 else 1 := by
      rw [reads, htree]
      simp only [Option.some_inj]
    by_cases hhole : b = 0
    · rw [if_pos hhole] at hreads ⊢
      have hquiet' : Quiet (reads v s.cached fileBlock) s.fails t.fails := by rwa [hreads, hfails]
      have hbytes : blockBytes v b = fun _ => 0 := if_pos hhole
      obtain ⟨hread, hafter⟩ :=
        BlockRead.read (t := (t.vmAllocate ⟨v.blockSize, fun _ => 0⟩).2) hsound htree hindex
        hfile hgood (congrArg (· + 1) hnext) (by rw [← hlive, ← hnext, hbytes]; rfl) hquiet'
      rw [← hnext] at hread hafter
      exact ⟨_, _, rfl, hgood, fun _ => ⟨hread, hafter, hquiet'⟩, by rintro _ ⟨⟩⟩
    · rw [if_neg hhole] at hreads ⊢
      rcases deviceRead_cases (s := t) (hsmall.2 b htree) with ⟨rc, fails, hrc, hread⟩ | ⟨fails,
        hq, hread⟩
      · rw [hread]
        rw [hfails] at hrc
        rw [hrc] at hquiet
        refine ⟨_, _, rfl, hgood, by rintro ⟨⟩, ?_⟩
        rintro _ ⟨⟩
        refine ⟨_, by rw [hreads]; exact Nat.lt_succ_self _, hquiet, ?_⟩
        rw [Harmless, if_neg (Nat.lt_irrefl _), ← hwalked.data]
        have hnone : s₁.cached.data = none ↔ s₁.file.fBuf = 0 := by simp [State.cached]
        rw [hnone]
        constructor
        · -- the buffer has been freed, and the file still has its address
          intro hsound'
          by_contra hbuf
          obtain ⟨-, b', -, hlive'⟩ := hsound'.data (by dsimp only; rwa [hfile])
          dsimp only at hlive'
          rw [hfile, hlive, if_neg hbuf, update_self] at hlive'
          cases hlive'
        · intro hbuf
          rw [if_neg (fun hne => hne hbuf)] at ht
          rw [← ht]
          exact hsound.congr_fails fails
      · rw [hread]
        rw [hfails] at hq
        have hquiet' : Quiet (reads v s.cached fileBlock) s.fails fails := by
          rw [hreads]
          exact hquiet.trans hq
        have hbytes : blockBytes v b = diskBlock v b := if_neg hhole
        obtain ⟨hsound', hafter⟩ := BlockRead.read (t := { t with
            live := update t.live t.next (some ⟨v.blockSize, diskBlock v b⟩)
            next := t.next + 1
            fails := fails }) hsound htree hindex hfile hgood (congrArg (· + 1) hnext)
          (by dsimp only; rw [← hlive, ← hnext, hbytes]) hquiet'
        rw [← hnext] at hsound' hafter
        exact ⟨_, _, rfl, hgood, fun _ => ⟨hsound', hafter, hquiet'⟩, by rintro _ ⟨⟩⟩

/-- What `buf_read_file` has done for an offset in the file. -/
structure BufRead (v : Volume) (offset : ℕ) (s : State) (out : Except Code (ℕ × ℕ)) (s' : State) :
  Prop where
  good : s'.bad = false
  ok : ∀ p, out = .ok p →
    p = (offset % v.blockSize, min (v.blockSize - offset % v.blockSize) (v.iSize - offset)) ∧
    Sound v s' [] ∧ s'.cached.data = some (offset / v.blockSize) ∧ (∃ n, Quiet n s.fails s'.fails) ∧
    ∀ rest, CarefulBlocks v (offset / v.blockSize :: rest) s.cached ↔ CarefulBlocks v rest s'.cached
  error : ∀ rc, out = .error rc → (∃ k, Quiet k s.fails (some rc :: s'.fails)) ∧
    ∀ rest, CarefulBlocks v (offset / v.blockSize :: rest) s.cached ↔ Sound v s' []

theorem fileBlock_lt {offset : ℕ} (h : offset < v.iSize) : offset / v.blockSize < 0x400000 := by
  have := v.iSize_lt
  apply Nat.div_lt_of_lt_mul
  rcases v.blockSize_eq with h | h | h <;> omega

theorem Sound.data_eq_some (h : Sound v s []) (hlt : fileBlock < 0x400000) :
    s.cached.data = some fileBlock ↔ fileBlock = s.file.fBufBlkno := by
  unfold State.cached
  dsimp only
  split
  · next hzero =>
    rw [h.noData hzero]
    refine ⟨by rintro ⟨⟩, ?_⟩
    rintro rfl
    exact absurd hlt (by decide)
  · exact Option.some_inj.trans eq_comm

theorem bufReadFile_spec (h : Sound v s []) {offset : ℕ} (hlt : offset < v.iSize)
    (hsmall : SmallBlock v (offset / v.blockSize)) :
    ∃ out s', bufReadFile v s offset = (out, s') ∧ BufRead v offset s out s' := by
  have hsize : ∀ n : ℕ, (if n > v.iSize - offset then v.iSize - offset else n) =
    min n (v.iSize - offset) := by
    intro n
    split <;> omega
  have hcached := h.data_eq_some (fileBlock_lt hlt)
  unfold bufReadFile
  rw [if_neg (Nat.not_le.mpr hlt)]
  dsimp only
  by_cases hhit : offset / v.blockSize = s.file.fBufBlkno
  · have hdata := hcached.mpr hhit
    rw [if_neg (fun hne => hne hhit)]
    refine ⟨_, _, rfl, h.good, ?_, by rintro _ ⟨⟩⟩
    rintro _ ⟨⟩
    refine ⟨by rw [hsize], h, hdata, ⟨0, Quiet.refl _⟩, fun rest => ?_⟩
    rw [CarefulBlocks, if_pos hdata]
  · have hdata : ¬ s.cached.data = some (offset / v.blockSize) := fun heq => hhit (hcached.mp heq)
    rw [if_pos hhit]
    obtain ⟨out, s', heq, hread⟩ := readBlock_spec h (fileBlock_lt hlt) hsmall
    rw [heq]
    cases out with
    | error rc =>
      obtain ⟨k, hk, hquiet, hiff⟩ := hread.error rc rfl
      refine ⟨_, _, rfl, hread.good, by rintro _ ⟨⟩, ?_⟩
      rintro _ ⟨⟩
      refine ⟨⟨k, hquiet⟩, fun rest => ?_⟩
      rw [CarefulBlocks, if_neg hdata, hiff]
      simp only [State.cached] at hk ⊢
      rw [findIdx?_failed hquiet hk]
    | ok u =>
      obtain ⟨hsound, hafter, hquiet⟩ := hread.ok rfl
      refine ⟨_, _, rfl, hread.good, ?_, by rintro _ ⟨⟩⟩
      rintro _ ⟨⟩
      refine ⟨by rw [hsize], hsound, by rw [hafter]; rfl, ⟨_, hquiet⟩, fun rest => ?_⟩
      rw [CarefulBlocks, if_neg hdata, hafter]
      simp only [State.cached] at hquiet ⊢
      rw [findIdx?_quiet hquiet]

end Read

section Calls

variable {v} {s s' : State} {offset size : ℕ}

/-- The blocks of the file that a call reads. -/
def blocks (v : Volume) (offset size : ℕ) : List ℕ :=
  if size = 0 ∨ v.iSize ≤ offset then []
  else List.range' (offset / v.blockSize)
    ((min (offset + size) v.iSize - 1) / v.blockSize - offset / v.blockSize + 1)

/-- What a call reads of the disk is in the first 2 GB. -/
def Small (v : Volume) (a : ℕ × ℕ) : Prop := ∀ fileBlock ∈ blocks v a.1 a.2, SmallBlock v fileBlock

/-- If a device read fails in a call, it does no harm. -/
def Careful (v : Volume) (s : State) (a : ℕ × ℕ) : Prop :=
  CarefulBlocks v (blocks v a.1 a.2) s.cached

theorem blocks_eq {n : ℕ} (hsize : size ≠ 0) (hlt : offset < v.iSize)
    (hn : n = min size (min (v.blockSize - offset % v.blockSize) (v.iSize - offset))) :
    blocks v offset size = offset / v.blockSize :: blocks v (offset + n) (size - n) := by
  unfold blocks
  rw [if_neg (by omega), List.range'_succ]
  congr 1
  have hmod : offset % v.blockSize < v.blockSize := Nat.mod_lt _ blockSize_pos
  by_cases hend : size - n = 0 ∨ v.iSize ≤ offset + n
  · rw [if_pos hend]
    have hlast : (min (offset + size) v.iSize - 1) / v.blockSize = offset / v.blockSize := by
      rcases v.blockSize_eq with h | h | h <;> rw [h] at hn hmod ⊢ <;> omega
    rw [hlast, Nat.sub_self]
    rfl
  · rw [if_neg hend]
    have hnext : (offset + n) / v.blockSize = offset / v.blockSize + 1 := by
      rcases v.blockSize_eq with h | h | h <;> rw [h] at hn hmod ⊢ <;> omega
    have hsame : offset + n + (size - n) = offset + size := by omega
    have hle : offset / v.blockSize + 1 ≤ (min (offset + size) v.iSize - 1) / v.blockSize := by
      rw [← hnext]
      exact Nat.div_le_div_right (by omega)
    rw [hnext, hsame]
    congr 1
    omega

/-- What a call has done that has copied some bytes already. -/
structure Called (v : Volume) (offset size : ℕ) (copied : List Byte) (s : State) (res : Result)
    (s' : State) : Prop where
  good : s'.bad = false
  ok : res.rc = none → res.copied = copied ++ read (fileByte v) offset size ∧ res.resid = 0 ∧
    (∃ n, Quiet n s.fails s'.fails) ∧ (size ≠ 0 → offset + size ≤ v.iSize)
  error : ∀ rc, res.rc = some rc →
    (rc = fsNotInFile ∧ v.iSize < offset + size ∧ ∃ n, Quiet n s.fails s'.fails) ∨
      ∃ k, Quiet k s.fails (some rc :: s'.fails)

theorem read_buffer {n : ℕ} (h : Sound v s []) (hdata : s.cached.data = some (offset / v.blockSize))
    (hn : n ≤ v.blockSize - offset % v.blockSize) :
    ∃ bytes, s.use s.file.fBuf = (bytes, s) ∧ read bytes (offset % v.blockSize) n =
    read (fileByte v) offset n := by
  have hbuf : s.file.fBuf ≠ 0 := fun hzero => by simp [State.cached, hzero] at hdata
  have hblkno : s.file.fBufBlkno = offset / v.blockSize := by simpa [State.cached, hbuf] using hdata
  obtain ⟨-, b, htree, hlive⟩ := h.data hbuf
  refine ⟨blockBytes v b, use_eq hlive, List.map_congr_left fun i hi => ?_⟩
  have hi' := List.mem_range.mp hi
  have hsplit : offset + i = v.blockSize * (offset / v.blockSize) + (offset % v.blockSize + i) := by
    rw [← Nat.add_assoc, Nat.div_add_mod]
  have hin : offset % v.blockSize + i < v.blockSize := by omega
  have hdiv : (offset + i) / v.blockSize = offset / v.blockSize := by
    rw [hsplit, Nat.mul_add_div blockSize_pos, Nat.div_eq_of_lt hin, Nat.add_zero]
  have hmod : (offset + i) % v.blockSize = offset % v.blockSize + i := by
    rw [hsplit, Nat.mul_add_mod, Nat.mod_eq_of_lt hin]
  unfold fileByte
  rw [hdiv, hmod, ← hblkno, htree]

theorem readFrom_spec {turns : ℕ}
  (offset : ℕ) (copied : List Byte) (h : Sound v s []) (hturns : size < turns)
    (hsmall : Small v (offset, size)) :
    ∃ res s', readFrom v turns s offset size copied = some (res, s') ∧
      Called v offset size copied s res s' ∧
      (Sound v s' [] ↔ Careful v s (offset, size)) := by
  induction turns generalizing s offset size copied with
  | zero => omega
  | succ turns ih =>
    unfold readFrom
    by_cases hsize : size = 0
    · rw [if_neg (fun hne => hne hsize)]
      refine ⟨_, _, rfl,
        ⟨h.good, fun _ => ⟨?_, rfl,
          ⟨0, Quiet.refl _⟩, fun hne => absurd hsize hne⟩, by rintro _ ⟨⟩⟩, ?_⟩
      · rw [hsize, read_zero, List.append_nil]
      · rw [Careful, blocks, if_pos (.inl hsize)]
        exact iff_of_true h trivial
    · rw [if_pos hsize]
      by_cases hge : v.iSize ≤ offset
      · rw [bufReadFile, if_pos hge]
        refine ⟨_, _, rfl, ⟨h.good, by rintro ⟨⟩, ?_⟩, ?_⟩
        · rintro _ ⟨⟩
          exact .inl ⟨rfl, by omega, 0, Quiet.refl _⟩
        · rw [Careful, blocks, if_pos (.inr hge)]
          exact iff_of_true h trivial
      have hlt := Nat.lt_of_not_le hge
      have hblocks := blocks_eq (v := v) hsize hlt rfl
      rw [Small, hblocks] at hsmall
      obtain ⟨hfirst, hrest⟩ := List.forall_mem_cons.mp hsmall
      rw [Careful, hblocks]
      obtain ⟨out, s₁, heq, hbuf⟩ := bufReadFile_spec h hlt hfirst
      rw [heq]
      cases out with
      | error rc =>
        obtain ⟨hfails, hiff⟩ := hbuf.error rc rfl
        refine ⟨_, _, rfl, ⟨hbuf.good, by rintro ⟨⟩, ?_⟩, (hiff _).symm⟩
        rintro _ ⟨⟩
        exact .inr hfails
      | ok p =>
        obtain ⟨rfl, hsound, hdata, ⟨n, hquiet⟩, hiff⟩ := hbuf.ok p rfl
        have hmod : offset % v.blockSize < v.blockSize := Nat.mod_lt _ blockSize_pos
        have hmin : ∀ m, (if size > m then m else size) = min size m := fun m => by split <;> omega
        dsimp only
        rw [hmin, if_neg (by omega)]
        obtain ⟨bytes, huse, hbytes⟩ := read_buffer hsound hdata
          (Nat.le_trans (Nat.min_le_right size _) (Nat.min_le_left _ (v.iSize - offset)))
        rw [huse]
        dsimp only
        rw [hbytes, hiff]
        obtain ⟨res, s', hrun, hcalled, hiff'⟩ := ih _ _ hsound (by omega) hrest
        refine ⟨res, s', hrun, ⟨hcalled.good, fun hrc => ?_, fun rc hrc => ?_⟩, hiff'⟩
        · obtain ⟨hcopied, hresid, ⟨m, hquiet'⟩, hend⟩ := hcalled.ok hrc
          refine ⟨?_, hresid, ⟨_, hquiet.trans hquiet'⟩, fun _ => by omega⟩
          rw [hcopied, List.append_assoc, ← read_add, Nat.add_sub_cancel' (Nat.min_le_left _ _)]
        · rcases hcalled.error rc hrc with ⟨hcode, hbeyond, m, hquiet'⟩ | ⟨k, hfails⟩
          · exact .inl ⟨hcode, by omega, _, hquiet.trans hquiet'⟩
          · exact .inr ⟨_, hquiet.trans hfails⟩

theorem Sound.start (h : (machine v).start s) : Sound v s [] := by
  obtain ⟨hbuf, hblkno, hblk, hlive, hnext, hgood⟩ := h
  have hptr : ∀ k, ptr s.file k = 0 := by
    intro k
    cases k with
    | none => exact hbuf
    | some l => exact (hblk l).1
  have hnone : ∀ (p : ℕ) (r : Region) (P : Prop), s.live p = some r → P := by
    intro p r P hp
    rw [hlive p] at hp
    cases hp
  refine ⟨⟨fun k hk => absurd (hptr k) hk, by rintro _ ⟨⟩, fun p r => hnone p r _,
    fun k _ hk => absurd (hptr k) hk,
    by rintro _ ⟨⟩, List.nodup_nil, fun p r => hnone p r _, hnext⟩, by rintro _ ⟨⟩,
    fun hne => absurd hbuf hne,
    fun _ => hblkno, fun l hl => absurd (hblk l).1 hl, fun l _ => (hblk l).2, hgood⟩

theorem Sound.reach (h : (machine v).Reach (fun s a => Small v a ∧ Careful v s a) s) :
    Sound v s [] := by
  refine h.inv (fun _ => Sound.start) ?_
  rintro s ⟨offset, size⟩ s' hsound ⟨hsmall, hcareful⟩ hstep
  obtain ⟨res, s₁, heq, -, hiff⟩ := readFrom_spec offset [] hsound (Nat.lt_succ_self size) hsmall
  have hs : s₁ = s' := by
    have hstep' : (ext2ReadFile v s offset size).map Prod.snd = some s' := hstep
    rw [ext2ReadFile, heq] at hstep'
    exact Option.some.inj hstep'
  rw [← hs]
  exact hiff.mpr hcareful

/-- In every run of careful calls for blocks in the first 2 GB of a disk, each such call returns; if
it returns 0 it has copied the bytes of the file, and if it goes beyond the end, or the device
fails, it says so. No call uses or frees what has been freed. The cache stays right, and no region
is lost, if and only if the call is careful. -/
theorem ext2_read_right (h : (machine v).Reach (fun s a => Small v a ∧ Careful v s a) s)
    (hsmall : Small v (offset, size)) :
    ∃ res s', ext2ReadFile v s offset size = some (res, s') ∧ s'.bad = false ∧
      (res.rc = none → res.copied = read (fileByte v) offset size ∧ res.resid = 0) ∧
      (size ≠ 0 → v.iSize < offset + size → (∃ n, Quiet n s.fails s'.fails) →
      res.rc = some fsNotInFile) ∧
      ((∃ n, Quiet n s.fails s'.fails) ∨ ∃ k rc, res.rc = some rc ∧
      Quiet k s.fails (some rc :: s'.fails)) ∧ (Sound v s' [] ↔ Careful v s (offset, size)) := by
  obtain ⟨res, s', heq, hcalled, hiff⟩ := readFrom_spec offset [] (Sound.reach h)
    (Nat.lt_succ_self size) hsmall
  refine ⟨res, s', heq, hcalled.good, fun hrc => ?_, fun hsize hbeyond hquiet => ?_, ?_, hiff⟩
  · obtain ⟨hcopied, hresid, -⟩ := hcalled.ok hrc
    exact ⟨hcopied, hresid⟩
  · cases hrc : res.rc with
    | none =>
      have := (hcalled.ok hrc).2.2.2 hsize
      omega
    | some rc =>
      rcases hcalled.error rc hrc with ⟨hcode, -⟩ | ⟨k, hfails⟩
      · rw [hcode]
      · exact (hquiet.choose_spec.not_failed hfails).elim
  · cases hrc : res.rc with
    | none => exact .inl (hcalled.ok hrc).2.2.1
    | some rc =>
      rcases hcalled.error rc hrc with ⟨-, -, hquiet⟩ | ⟨k, hfails⟩
      · exact .inl hquiet
      · exact .inr ⟨k, rc, rfl, hfails⟩

/-- A file of two blocks. -/
def twoBlocks : Volume where
  dev i := BitVec.ofNat 8 (i / 1024)
  blockSize := 1024
  iBlock i := if i = 0 then 7 else if i = 1 then 9 else 0
  iSize := 2048
  blockSize_eq := .inl rfl
  iSize_lt := by decide

/-- An open file of which nothing has been read. -/
def opened (fails : List (Option Code)) : State where
  file := ⟨0, 0, noBlock, fun _ => 0, fun _ => 0, fun _ => noBlock⟩
  live _ := none
  next := 1
  fails := fails
  bad := false

theorem opened_start (fails : List (Option Code)) : (machine v).start (opened fails) :=
  ⟨rfl, rfl, fun _ => ⟨rfl, rfl⟩, fun _ => rfl, Nat.one_pos, rfl⟩

theorem twoBlocks_smallIndex : SmallIndex twoBlocks := by
  have hzero : ∀ l b, InTree twoBlocks l b → l ≠ 0 → b = 0 := by
    intro l b h
    induction h with
    | direct h => exact fun hne => absurd rfl hne
    | root h => exact fun _ => rfl
    | entry h hb hk ih => exact absurd (ih (Nat.succ_ne_zero _)) hb
  intro l b h
  rw [hzero _ b h (Nat.succ_ne_zero l)]
  decide

/-- The first read has failed. -/
theorem ext2_read_right_two :
    (machine twoBlocks).Reach (fun s a => Small twoBlocks a ∧ Careful twoBlocks s a) (opened []) ∧
    ∃ res s', ext2ReadFile twoBlocks (opened []) 1000 1000 = some (res, s') ∧ s'.bad = false ∧
      (res.rc = none → res.copied = read (fileByte twoBlocks) 1000 1000 ∧ res.resid = 0) := by
  have hsmall : ∀ n < 2, SmallBlock twoBlocks n := by
    unfold SmallBlock
    decide
  have hreach : (machine twoBlocks).Reach (fun s a => Small twoBlocks a ∧ Careful twoBlocks s a)
    (opened []) := by
    refine .step (0, 1) (.start (opened_start [some ⟨2500, by decide⟩])) ⟨fun n hn => ?_, rfl⟩ rfl
    obtain rfl := List.mem_singleton.mp hn
    exact hsmall 0 (by decide)
  have hsmall' : Small twoBlocks (1000, 1000) := by
    intro n hn
    have hmem : n ∈ [0, 1] := hn
    exact hsmall n (by simp at hmem; omega)
  obtain ⟨res, s', heq, hgood, hok, -⟩ := ext2_read_right hreach hsmall'
  exact ⟨hreach, res, s', heq, hgood, hok⟩

/-- A byte of the first block is read, the device fails in the second block, and the first block is
read again: it has been freed, and is taken from the cache. -/
theorem freed_block_is_read : (machine twoBlocks).start (opened [none, some ⟨2500, by decide⟩]) ∧
    ((machine twoBlocks).run (opened [none, some ⟨2500, by decide⟩]) [(0, 1), (1024, 1)]).map
    State.bad = some false ∧
    ((machine twoBlocks).run (opened [none, some ⟨2500, by decide⟩]) [(0, 1), (1024, 1),
      (0, 1)]).map State.bad = some true :=
  ⟨opened_start _, by decide, by decide⟩

end Calls

end XMach.Ext2File
