import XMach.Bootstrap.Proofs.Accounting

/-!
# Operations on paging objects

What each operation does to the contents `c` of the objects, when the accounts are right before it.
`G` is that nothing is in the way: under it an operation returns, and without it what it returns is
as good.
-/

namespace XMach.DefaultPager

open Function

variable {α : Type} {G : Prop} {queue : List ℕ} {blocks : ℕ → ℕ → DpMap} {p f g i b : ℕ}
  {parts parts' parts'' : Parts α} {map map' map'' : BlockMap} {c : ℕ → ℕ → Option α}
  {pager : Dpager} {offset : BitVec 32} {x : PIndex}

section Blocks

/-- A partition that is being taken away. -/
def Going (parts : Parts α) (i : ℕ) : Prop := ∃ part, core parts i = some part ∧
    part.goingAway = true

/-- The same partitions, with the same ones being taken away, and no lock left behind. -/
structure Steady (parts parts' : Parts α) : Prop where
  length : parts'.length = parts.length
  going : ∀ i, Going parts' i ↔ Going parts i
  good : Good (slot parts) → Good (slot parts')

theorem Steady.trans (h : Steady parts parts') (h' : Steady parts' parts'') :
    Steady parts parts'' :=
  ⟨h'.length.trans h.length, fun i => (h'.going i).trans (h.going i), fun hg => h'.good (h.good hg)⟩

/-- Partitions change, but none of them starts or ends to be taken away. -/
theorem going_update {part part' : Part α}
    (hcore : core parts' = update (core parts) i (some part'))
    (hi : core parts i = some part) (haway : part'.goingAway = part.goingAway) (j : ℕ) :
    Going parts' j ↔ Going parts j := by
  unfold Going
  rw [hcore]
  by_cases hij : j = i
  · subst hij
    rw [update_self, hi]
    simp only [Option.some.injEq, exists_eq_left']
    rw [haway]
  · rw [update_of_ne hij]

theorem Steady.setPart {part part' : Part α} (hi : slot parts i = some part)
    (haway : part'.goingAway = part.goingAway) (hlock : part'.locked = part.locked) :
    Steady parts (setPart parts i part') := by
  refine ⟨length_setPart, going_update (core_update (slot_setPart _ hi)) (core_of_slot hi) haway,
    fun hg => ?_⟩
  rw [slot_setPart _ hi]
  refine hg.update hi fun hno => ?_
  rw [hlock]
  exact hg.unlocked i part hi (haway.symm.trans hno)

theorem Backed.slot {e : DpMap} (h : Backed (core parts) e) :
    ∃ part, DefaultPager.slot parts e.pIndex.toNat = some part ∧
      Bitmap.bit part.bitmap e.pOffset.toNat = true := by
  obtain ⟨-, part, hpart, hbit⟩ := h
  obtain ⟨old, hold, rfl⟩ := exists_slot_of_core hpart
  exact ⟨old, hold, hbit⟩

variable (h : Keeps (core parts) queue blocks c) (hp : p ∈ queue) (hf : blocks p f ≠ noBlock)

include h hp hf

theorem Keeps.part : ∃ part, slot parts (blocks p f).pIndex.toNat = some part ∧
    (blocks p f).pOffset.toNat < part.totalSize := by
  obtain ⟨part, hpart, hbit⟩ := (h.backed p hp f hf).slot
  exact ⟨part, hpart, (PartsWf.slot h.wf _ _ hpart).lt_of_bit hbit⟩

theorem Keeps.read : ∃ page, readBlock parts (blocks p f) = .ok page ∧ c p f = some page := by
  obtain ⟨part, hpart, hoff⟩ := h.part hp hf
  refine ⟨part.data (blocks p f).pOffset.toNat, ?_, ?_⟩
  · unfold readBlock
    rw [partOf_eq hpart]
    exact if_neg (not_le.2 hoff)
  · rw [← h.stores p hp f, value_of_ne hf, core_of_slot hpart]
    rfl

theorem Keeps.write (page : α) : ∃ parts', writeBlock parts (blocks p f) page = .ok parts' ∧
    Steady parts parts' ∧ Keeps (core parts') queue blocks (upd c p f (some page)) := by
  obtain ⟨part, hpart, hoff⟩ := h.part hp hf
  refine ⟨setPart parts (blocks p f).pIndex.toNat
    { part with data := update part.data (blocks p f).pOffset.toNat page }, ?_,
    .setPart hpart rfl rfl, ?_⟩
  · unfold writeBlock
    rw [partOf_eq hpart]
    exact if_neg (not_le.2 hoff)
  · rw [core_update (slot_setPart _ hpart)]
    exact h.store hp hf (core_of_slot hpart) page

theorem Keeps.dealloc (lockIt : Bool) :
    Ends (pagerDeallocPage parts (blocks p f).pIndex (blocks p f).pOffset.toNat lockIt)
      (fun parts' => Steady parts parts' ∧
      Keeps (core parts') queue (upd blocks p f noBlock) (upd c p f none))
      fun _ => lockIt = true ∧ (Good (slot parts) → Going parts (blocks p f).pIndex.toNat) := by
  refine (pagerDeallocPage_spec parts (blocks p f).pIndex (blocks p f).pOffset.toNat lockIt).mono ?_
    ?_
  · rintro parts' ⟨part, hpart, -, rfl⟩
    refine ⟨.setPart hpart rfl rfl, ?_⟩
    rw [core_update (slot_setPart _ hpart)]
    exact h.give hp hf (core_of_slot hpart)
  · intro e he
    obtain ⟨part, hpart, hoff⟩ := h.part hp hf
    obtain ⟨hlk, hlocked⟩ := he part hpart (h.backed p hp f hf).index hoff
    refine ⟨hlk, fun hg => ⟨part.unlock, core_of_slot hpart, ?_⟩⟩
    by_contra haway
    rw [hg.unlocked _ _ hpart (Bool.eq_false_iff.2 haway)] at hlocked
    cases hlocked

end Blocks

section Holds

/-- A block is not in a partition. -/
def AwayFrom (i : ℕ) (e : DpMap) : Prop := e ≠ noBlock → e.pIndex.toNat ≠ i

/-- No block comes into a partition that is being taken away. -/
structure Kept (parts parts' : Parts α) (map map' : BlockMap) : Prop where
  length : parts'.length = parts.length
  going : ∀ i, Going parts' i ↔ Going parts i
  stay : ∀ i, Going parts i → ∀ g, AwayFrom i (map.get g) → AwayFrom i (map'.get g)

/-- The object `p` has this map, beside the blocks of the other ones. -/
structure Holds (G : Prop) (queue : List ℕ) (blocks : ℕ → ℕ → DpMap) (p : ℕ) (parts : Parts α)
    (map : BlockMap) (c : ℕ → ℕ → Option α) : Prop where
  keeps : Keeps (core parts) queue (update blocks p map.get) c
  good : G → Good (slot parts)

theorem Kept.refl (hget : ∀ g, map'.get g = map.get g) : Kept parts parts map map' := by
  refine ⟨rfl, fun _ => Iff.rfl, fun i _ g hg => ?_⟩
  rw [hget]
  exact hg

theorem Kept.trans (h : Kept parts parts' map map') (h' : Kept parts' parts'' map' map'') :
    Kept parts parts'' map map'' := by
  refine ⟨h'.length.trans h.length, fun i => (h'.going i).trans (h.going i), fun i hi g hg => ?_⟩
  exact h'.stay i ((h.going i).2 hi) g (h.stay i hi g hg)

theorem Kept.of_core (hcore : core parts' = core parts) (hlen : parts'.length = parts.length)
    (hget : ∀ g, map'.get g = map.get g) : Kept parts parts' map map' := by
  refine ⟨hlen, fun i => ?_, fun i _ g hg => ?_⟩
  · unfold Going
    rw [hcore]
  · rw [hget]
    exact hg

section

variable (h : Holds G queue blocks p parts map c)
include h

theorem Holds.congr (hcore : core parts' = core parts) (hget : ∀ g, map'.get g = map.get g)
    (hgood : G → Good (slot parts')) : Holds G queue blocks p parts' map' c := by
  refine ⟨?_, hgood⟩
  rw [hcore, funext hget]
  exact h.keeps

theorem Holds.wf : PartsWf parts := h.keeps.wf

theorem Holds.backed (hp : p ∈ queue) (hf : map.get f ≠ noBlock) :
    Backed (core parts) (map.get f) := by
  have := h.keeps.backed p hp f
  rw [update_self] at this
  exact this hf

theorem Holds.value (hp : p ∈ queue) : DefaultPager.value (core parts) (map.get f) = c p f := by
  have := h.keeps.stores p hp f
  rw [update_self] at this
  exact this

end

theorem get_put_eq {b : DpMap} (h : f ∈ map.pages) : (map.put f b).get = update map.get f b := by
  funext g
  rw [BlockMap.get_put h, update_apply]
  simp only [eq_comm]

/-- The blocks of the objects when one entry is written. -/
theorem update_put {b : DpMap} (h : f ∈ map.pages) : update blocks p (map.put f b).get
    = upd (update blocks p map.get) p f b := by
  rw [get_put_eq h, upd_update]

end Holds

section Read

theorem update_get (blocks : ℕ → ℕ → DpMap) (p : ℕ) (map : BlockMap) (f : ℕ) :
    update blocks p map.get p f = map.get f := by rw [update_self]

theorem Steady.kept (h : Steady parts parts') : Kept parts parts' map map :=
  ⟨h.length, h.going, fun _ _ _ hg => hg⟩

theorem Holds.read (h : Holds G queue blocks p parts map c) (hp : p ∈ queue)
    (hf : map.get f ≠ noBlock) : ∃ page, readBlock parts (map.get f) = .ok page ∧
    c p f = some page := by
  rw [← update_get blocks p map f] at hf
  obtain ⟨page, hread, hpage⟩ := h.keeps.read hp hf
  rw [update_get] at hread
  exact ⟨page, hread, hpage⟩

theorem Holds.write (h : Holds G queue blocks p parts map c) (hp : p ∈ queue)
    (hf : map.get f ≠ noBlock) (page : α) :
    ∃ parts', writeBlock parts (map.get f) page = .ok parts' ∧
      Kept parts parts' map map ∧ Holds G queue blocks p parts' map (upd c p f (some page)) := by
  rw [← update_get blocks p map f] at hf
  obtain ⟨parts', hwrite, hsteady, hkeeps⟩ := h.keeps.write hp hf page
  rw [update_get] at hwrite
  exact ⟨parts', hwrite, hsteady.kept, hkeeps, fun hG => hsteady.good (h.good hG)⟩

theorem Holds.dealloc (h : Holds G queue blocks p parts map c) (hp : p ∈ queue)
    (hf : map.get f ≠ noBlock) (hlock : G → ¬ Going parts (map.get f).pIndex.toNat) :
    Ends (pagerDeallocPage parts (map.get f).pIndex (map.get f).pOffset.toNat true)
      (fun parts' => Kept parts parts' map (map.put f noBlock) ∧
        Holds G queue blocks p parts' (map.put f noBlock) (upd c p f none)) fun _ => ¬ G := by
  have hpages := BlockMap.mem_pages_of_get hf
  have hdealloc := h.keeps.dealloc hp (f := f) (by rw [update_get]; exact hf) true
  rw [update_get] at hdealloc
  refine hdealloc.mono ?_ fun e he hG => hlock hG (he.2 (h.good hG))
  rintro parts' ⟨hsteady, hkeeps⟩
  refine ⟨⟨hsteady.length, hsteady.going, fun i _ g hg => ?_⟩, ?_,
    fun hG => hsteady.good (h.good hG)⟩
  · rw [BlockMap.get_put hpages]
    split_ifs
    · exact fun hno => absurd rfl hno
    · exact hg
  · rw [update_put hpages]
    exact hkeeps

theorem pagerReadOffset_spec (pager : Dpager) (offset : BitVec 32) :
    Ends (pagerReadOffset pager offset) (fun e => e = pager.map.get (atop offset.toNat))
      fun _ => pager.map.size ≤ atop offset.toNat := by
  unfold pagerReadOffset
  split_ifs with hlarge
  · exact hlarge
  · rfl

/-- `default_read`. With `deallocate` the page is absent afterwards. -/
theorem defaultRead_spec (h : Holds G queue blocks p parts pager.map c) (hp : p ∈ queue)
    (deallocate : Bool) (hsize : G → atop offset.toNat < pager.map.size)
    (hlock : G → deallocate = true → ∀ i, ¬ Going parts i) :
    Ends (defaultRead parts pager offset deallocate)
      (fun r => r.1 = c p (atop offset.toNat) ∧ Kept parts r.2.1 pager.map r.2.2.map ∧
        r.2.2.curPartition = pager.curPartition ∧
        Holds G queue blocks p r.2.1 r.2.2.map
          (if deallocate then upd c p (atop offset.toNat) none else c)) fun _ => ¬ G := by
  unfold defaultRead
  refine ((pagerReadOffset_spec pager offset).mono (fun _ hr => hr)
    fun e he hG => not_lt.2 he (hsize hG)).bind ?_
  rintro e rfl
  by_cases hnone : pager.map.get (atop offset.toNat) = noBlock
  · -- an absent page stays so
    have habsent : c p (atop offset.toNat) = none := by rw [← h.value hp, hnone, value_noBlock]
    rw [if_pos hnone]
    refine ⟨habsent.symm, .refl fun _ => rfl, rfl, ?_⟩
    split_ifs
    · rw [upd_eq_self habsent]
      exact h
    · exact h
  · obtain ⟨page, hread, hpage⟩ := h.read hp hnone
    rw [if_neg hnone, hread]
    refine Ends.bind (Q := fun x => x = page) rfl ?_
    rintro x rfl
    cases deallocate with
    | true =>
      unfold pagerReleaseOffset
      simp only [if_true, bind_assoc]
      refine (h.dealloc hp hnone fun hG => hlock hG rfl _).bind ?_
      rintro parts' ⟨hkept, hholds⟩
      exact ⟨hpage.symm, hkept, rfl, hholds⟩
    | false => exact ⟨hpage.symm, .refl fun _ => rfl, rfl, h⟩

end Read

section Write

theorem TakenFrom.awayFrom (h : TakenFrom parts x b parts') (hi : Going parts i) :
    AwayFrom i ⟨BitVec.ofNat 24 b, x⟩ := by
  obtain ⟨-, part, hpart, haway, -⟩ := h
  obtain ⟨part', hpart', haway'⟩ := hi
  rintro - rfl
  rw [hpart] at hpart'
  cases hpart'
  rw [haway] at haway'
  cases haway'

theorem Holds.taken (h : Holds G queue blocks p parts map c) (hp : p ∈ queue)
    (hf : map.get f = noBlock)
    (hpages : f ∈ map.pages) (htaken : TakenFrom parts x b parts')
    (hlen : parts'.length = parts.length)
    (hgood : G → Good (slot parts')) : Kept parts parts' map (map.put f ⟨BitVec.ofNat 24 b, x⟩) ∧
      ∃ v, Holds G queue blocks p parts' (map.put f ⟨BitVec.ofNat 24 b, x⟩)
      (upd c p f (some v)) := by
  have haway := fun i hi => htaken.awayFrom (i := i) hi
  obtain ⟨hx, part, hpart, -, hfree, hb, hclear, hcore⟩ := htaken
  refine ⟨⟨hlen, going_update hcore hpart rfl, fun i hi g hg => ?_⟩, ?_⟩
  · rw [BlockMap.get_put hpages]
    split_ifs
    · exact haway i hi
    · exact hg
  · obtain ⟨v, hkeeps⟩ := h.keeps.take hp (f := f) (by rw [update_self]; exact hf) hx hpart
      hfree hb hclear
    refine ⟨v, ?_, hgood⟩
    rw [hcore, update_put hpages]
    exact hkeeps

theorem findPartition_spec (hcur : CurOk parts pager.curPartition) (f : ℕ) :
    Ends (findPartition parts pager f) (CurOk parts) fun _ => ¬ Good (slot parts) := by
  unfold findPartition
  by_cases hno : noPartition pager.curPartition
  · rw [if_pos hno]
    refine (choosePartition_spec parts _ pIndexInvalid).bind ?_
    rintro ⟨x, parts₁⟩ hchosen
    simp only
    split_ifs with hx
    · refine (choosePartition_spec parts _ pIndexInvalid).bind ?_
      rintro ⟨y, parts₂⟩ hchosen₂
      exact hchosen₂.curOk
    · exact hchosen.curOk
  · rw [if_neg hno]
    exact hcur

/-- What `pager_write_offset` returns: no block, with everything as before, or the block of the
page. -/
structure Wrote (G : Prop) (queue : List ℕ) (blocks : ℕ → ℕ → DpMap) (p f : ℕ) (parts : Parts α)
    (map : BlockMap) (c : ℕ → ℕ → Option α) (r : DpMap × Parts α × Dpager) : Prop where
  kept : Kept parts r.2.1 map r.2.2.map
  cur : CurOk parts r.2.2.curPartition
  size : map.size ≤ r.2.2.map.size
  failed : r.1 = noBlock → Holds G queue blocks p r.2.1 r.2.2.map c
  block : r.1 ≠ noBlock → r.2.2.map.get f = r.1 ∧
    ∃ v, Holds G queue blocks p r.2.1 r.2.2.map (upd c p f (some v))

theorem pagerWriteOffset_spec (h : Holds G queue blocks p parts pager.map c) (hp : p ∈ queue)
    (hcur : CurOk parts pager.curPartition) :
    Ends (pagerWriteOffset parts pager offset)
      (Wrote G queue blocks p (atop offset.toNat) parts pager.map c) fun _ => ¬ G := by
  unfold pagerWriteOffset
  refine ((findPartition_spec hcur _).mono (fun _ hr => hr) fun e he hG => he (h.good hG)).bind
    fun x hx => ?_
  have hsame : ∀ g, ((extendFor pager.map (atop offset.toNat)).touch (atop offset.toNat)).get g
      = pager.map.get g := by simp
  have hpages : atop offset.toNat ∈
      ((extendFor pager.map (atop offset.toNat)).touch (atop offset.toNat)).pages :=
    BlockMap.mem_pages_touch BlockMap.lt_size_extendFor
  have hsize :
    pager.map.size ≤ ((extendFor pager.map (atop offset.toNat)).touch
      (atop offset.toNat)).size := by
    rw [BlockMap.size_touch]
    exact BlockMap.size_le_extendFor
  simp only
  generalize (extendFor pager.map (atop offset.toNat)).touch (atop offset.toNat) =
    map at hsame hpages hsize ⊢
  have hmap : Holds G queue blocks p parts map c := h.congr rfl hsame h.good
  split_ifs with hno hget
  · exact ⟨.refl fun _ => rfl, hcur, le_rfl, fun _ => h, fun hne => absurd rfl hne⟩
  · -- the page has a block
    refine ⟨.refl hsame, hx, hsize, fun hnone => absurd hnone hget, fun _ => ⟨rfl, ?_⟩⟩
    obtain ⟨page, -, hpage⟩ := hmap.read hp hget
    refine ⟨page, ?_⟩
    rw [upd_eq_self hpage]
    exact hmap
  · -- there is no room, or a block is taken
    refine (getRoom_spec h.wf hx hno h.good).bind ?_
    rintro ⟨off, y, parts₁⟩ hroom
    have hlen := hroom.length
    cases off with
    | none =>
      refine ⟨.of_core (hroom.same rfl) hlen hsame, hroom.cur, hsize, fun _ => ?_,
        fun hne => absurd rfl hne⟩
      exact hmap.congr (hroom.same rfl) (fun _ => rfl) hroom.good
    | some b =>
      have htaken := hroom.taken b rfl
      obtain ⟨hkept, v, hholds⟩ := hmap.taken hp (not_not.1 hget) hpages htaken hlen hroom.good
      refine ⟨(Kept.refl hsame).trans hkept, hroom.cur, hsize.trans_eq BlockMap.size_put.symm,
        fun heq => ?_, fun _ => ⟨?_, v, hholds⟩⟩
      · exact absurd heq (ne_noBlock_of_index htaken.1)
      · simp only
        rw [BlockMap.get_put hpages, if_pos rfl]

/-- `default_write`: the page is stored, or there is no room for it. -/
theorem defaultWrite_spec (h : Holds G queue blocks p parts pager.map c) (hp : p ∈ queue)
    (hcur : CurOk parts pager.curPartition) (page : α) :
    Ends (defaultWrite parts pager page offset)
      (fun r => Kept parts r.2.1 pager.map r.2.2.map ∧ CurOk parts r.2.2.curPartition ∧
        pager.map.size ≤ r.2.2.map.size ∧
        Holds G queue blocks p r.2.1 r.2.2.map
          (if r.1 then upd c p (atop offset.toNat) (some page) else c)) fun _ => ¬ G := by
  unfold defaultWrite
  refine (pagerWriteOffset_spec h hp hcur).bind ?_
  rintro ⟨e, parts₁, pager₁⟩ hwrote
  simp only
  split_ifs with hnone
  · exact ⟨hwrote.kept, hwrote.cur, hwrote.size, hwrote.failed hnone⟩
  · obtain ⟨hget, v, hholds⟩ := hwrote.block hnone
    have hget' : pager₁.map.get (atop offset.toNat) = e := hget
    obtain ⟨parts₂, hstore, hkept, hholds₂⟩ := hholds.write hp (by rw [hget']; exact hnone) page
    rw [hget'] at hstore
    rw [hstore]
    refine ⟨hwrote.kept.trans hkept, hwrote.cur, hwrote.size, ?_⟩
    have hupd : upd (upd c p (atop offset.toNat) (some v)) p (atop offset.toNat) (some page)
        = upd c p (atop offset.toNat) (some page) := by
      funext q g
      unfold upd
      split_ifs <;> rfl
    rw [hupd] at hholds₂
    exact hholds₂

end Write

section Move

/-- A page is moved to a block that was taken for it. Until its old block is freed the new one is
recorded for the first page past the end of the object. -/
theorem Holds.moved (h : Holds G queue blocks p parts map c) (hp : p ∈ queue)
    (hf : map.get f ≠ noBlock)
    (htaken : TakenFrom parts x b parts') (hlen : parts'.length = parts.length)
    (hgood : G → Good (slot parts')) : Ends (do
        let page ← readBlock parts' (map.get f)
        let parts ← pagerDeallocPage parts' (map.get f).pIndex (map.get f).pOffset.toNat false
        let parts ← writeBlock parts ⟨BitVec.ofNat 24 b, x⟩ page
        return ((⟨BitVec.ofNat 24 b, x⟩ : DpMap), parts))
      (fun r => r.1 = ⟨BitVec.ofNat 24 b, x⟩ ∧ Kept parts r.2 map (map.put f r.1) ∧
        Holds G queue blocks p r.2 (map.put f r.1) c) fun _ => False := by
  have hpages := BlockMap.mem_pages_of_get hf
  have hsize := BlockMap.lt_size_of_get hf
  have haway := fun i hi => htaken.awayFrom (i := i) hi
  obtain ⟨hx, part, hpart, -, hfree, hb, hclear, hcore⟩ := htaken
  generalize hnew : (⟨BitVec.ofNat 24 b, x⟩ : DpMap) = new
  have hne : new ≠ noBlock := by
    rw [← hnew]
    exact ne_noBlock_of_index hx
  -- the page past the end
  obtain ⟨k, hk⟩ : ∃ k, k = map.size := ⟨_, rfl⟩
  have hkf : k ≠ f := by omega
  have hknone : update blocks p map.get p k = noBlock := by
    rw [update_get]
    exact BlockMap.get_of_size_le hk.ge
  have hck : c p k = none := by
    rw [← h.keeps.stores p hp k, hknone, value_noBlock]
  obtain ⟨v, hkeeps⟩ := h.keeps.take hp hknone hx hpart hfree hb hclear
  rw [← hcore, hnew] at hkeeps
  have hold : upd (update blocks p map.get) p k new p f = map.get f := by
    rw [upd_of_ne fun hc => hkf hc.2.symm, update_get]
  obtain ⟨page, hread, hpage⟩ := hkeeps.read hp (f := f) (by rw [hold]; exact hf)
  rw [upd_of_ne fun hc => hkf hc.2.symm] at hpage
  rw [hold] at hread
  rw [hread]
  have hdealloc := hkeeps.dealloc hp (f := f) (by rw [hold]; exact hf) false
  rw [hold] at hdealloc
  refine Ends.bind (Q := fun y => y = page) rfl ?_
  rintro y rfl
  refine (hdealloc.mono (fun _ hr => hr) fun e he => by cases he.1).bind ?_
  rintro parts₁ ⟨hsteady₁, hkeeps₁⟩
  have hghost : upd (upd (update blocks p map.get) p k new) p f noBlock p k = new := by
    rw [upd_of_ne fun hc => hkf hc.2, upd_self]
  obtain ⟨parts₂, hwrite, hsteady₂, hkeeps₂⟩ := hkeeps₁.write hp (f := k)
    (by rw [hghost]; exact hne) y
  rw [hghost] at hwrite
  rw [hwrite]
  have hsteady := hsteady₁.trans hsteady₂
  have hrename := hkeeps₂.rename (f := f) (g := k) hp upd_self
  have hblocks : upd (upd (upd (upd (update blocks p map.get) p k new) p f noBlock) p f
      (upd (upd (update blocks p map.get) p k new) p f noBlock p k)) p k noBlock
      = update blocks p (map.put f new).get := by
    rw [hghost, update_put hpages]
    funext q g
    unfold upd
    split_ifs with h₁ h₂ h₃ <;> first | rfl | skip
    · exact absurd (h₁.2.symm.trans h₂.2) hkf
    · rw [h₁.1, h₁.2]
      exact hknone.symm
  have hc : upd (upd (upd (upd (upd c p k (some v)) p f none) p k (some y)) p f
      (upd (upd (upd c p k (some v)) p f none) p k (some y) p k)) p k none = c := by
    rw [upd_self]
    funext q g
    unfold upd
    split_ifs with h₁ h₂ <;> first | rfl | skip
    · rw [h₁.1, h₁.2]
      exact hck.symm
    · rw [h₂.1, h₂.2]
      exact hpage.symm
  rw [hblocks, hc] at hrename
  refine ⟨rfl, ⟨hsteady.length.trans hlen, fun i => ?_, fun i hi g hg => ?_⟩, hrename, fun hG => ?_⟩
  · exact (hsteady.going i).trans (going_update hcore hpart rfl i)
  · rw [BlockMap.get_put hpages]
    split_ifs
    · rw [← hnew]
      exact haway i hi
    · exact hg
  · exact hsteady.good (hgood hG)

/-- `NO_BLOCK` is past the end of any partition. -/
theorem readBlock_noBlock (hwf : PartsWf parts) :
    Ends (readBlock parts noBlock) (fun _ => False) fun _ => True := by
  unfold readBlock
  refine ((partOf_spec parts _).mono (fun _ hr => hr) fun _ _ => trivial).bind fun part hpart => ?_
  have hfits := (hwf.slot _ _ hpart).fits
  rw [if_pos]
  · trivial
  · have : noBlock.pOffset.toNat = 2 ^ 24 - 1 := by decide
    omega

/-- `pager_move_page`: the page has a new block and holds the same, or there is no room. -/
theorem pagerMovePage_spec (h : Holds G queue blocks p parts map c) (hp : p ∈ queue)
    (hf : G → map.get f ≠ noBlock) :
    Ends (pagerMovePage parts (map.get f))
      (fun r => (r.1 = noBlock ∧ Kept parts r.2 map map ∧ Holds G queue blocks p r.2 map c) ∨
        (r.1 ≠ noBlock ∧ f ∈ map.pages ∧ (∀ i, Going parts i → AwayFrom i r.1) ∧
          Kept parts r.2 map (map.put f r.1) ∧ Holds G queue blocks p r.2 (map.put f r.1) c))
      fun _ => ¬ G := by
  unfold pagerMovePage
  refine ((choosePartition_spec parts (ptoa 1) (map.get f).pIndex).mono (fun _ hr => hr)
    fun e he hG => he (h.good hG)).bind ?_
  rintro ⟨x, parts₁⟩ hchosen
  have hlen₁ := hchosen.length
  have hcore₁ : core parts₁ = core parts := hchosen.core
  -- under `G` the new partition is locked now
  have hlocked : G → (noPartition x ∧ parts₁ = parts) ∨ LockedAt parts₁ x :=
    fun hG => hchosen.lockedAt (h.good hG) (h.backed hp (hf hG)).index
  simp only at hlen₁ hcore₁ ⊢
  split_ifs with hx
  · have hgood₁ : G → Good (slot parts₁) := by
      intro hG
      rcases hlocked hG with ⟨-, rfl⟩ | hl
      · exact h.good hG
      · exact absurd hx hl.1
    exact .inl ⟨rfl, .of_core hcore₁ hlen₁ fun _ => rfl, h.congr hcore₁ (fun _ => rfl) hgood₁⟩
  · have hwf₁ : PartsWf parts₁ := by
      unfold PartsWf
      rw [hcore₁]
      exact h.wf
    refine ((pagerAllocPage_spec _ hwf₁.slot (hchosen.curOk.congr hlen₁)).mono (fun _ hr => hr)
      ?_).bind ?_
    · rintro e ⟨-, hlock, -⟩
      cases hlock
    rintro ⟨off, parts₂⟩ halloc
    have hlen₂ := halloc.length
    have hgood₂ : G → off.isSome ∧ Good (slot parts₂) := by
      intro hG
      rcases hlocked hG with ⟨hno, -⟩ | hl
      · exact absurd hno hx
      · exact halloc.of_lockedAt hl
    cases off with
    | none =>
      intro hG
      have := (hgood₂ hG).1
      cases this
    | some b =>
      have htaken : TakenFrom parts x b parts₂ := (halloc.taken_core rfl).congr hcore₁
      simp only at hlen₂ ⊢
      by_cases hnone : map.get f = noBlock
      · rw [hnone]
        refine ((readBlock_noBlock (htaken.partsWf h.wf)).mono (fun _ hr => hr)
          fun _ _ hG => hf hG hnone).bind fun _ hno => hno.elim
      · have hmoved := h.moved hp hnone htaken (hlen₂.trans hlen₁) fun hG => (hgood₂ hG).2
        refine hmoved.mono ?_ fun _ hno => hno.elim
        rintro ⟨new, parts₃⟩ ⟨hnew, hkept, hholds⟩
        simp only at hnew hkept hholds ⊢
        subst hnew
        exact .inr ⟨ne_noBlock_of_index htaken.1, BlockMap.mem_pages_of_get hnone,
          fun i hi => htaken.awayFrom hi, hkept, hholds⟩

/-- The loops of `pager_realloc`. When they go through, no page of the list is in the partition. -/
theorem moveAll_spec (h : Holds G queue blocks p parts map c) (hp : p ∈ queue) {pindex : PIndex}
    (hindex : G → ¬ noPartition pindex) (fs : List ℕ) :
    Ends (moveAll pindex fs map parts)
      (fun r => Kept parts r.2.2 map r.2.1 ∧ Holds G queue blocks p r.2.2 r.2.1 c ∧
        (∀ g, g ∈ r.2.1.pages ↔ g ∈ map.pages) ∧
        (r.1 = true → Going parts pindex.toNat → ∀ f ∈ fs, AwayFrom pindex.toNat (r.2.1.get f)))
      fun _ => ¬ G := by
  induction fs generalizing map parts with
  | nil => exact ⟨.refl fun _ => rfl, h, fun _ => Iff.rfl, by simp⟩
  | cons f fs ih =>
    rw [moveAll]
    split_ifs with hf
    · have hget : G → map.get f ≠ noBlock :=
        fun hG => ne_noBlock_of_index (by rw [hf]; exact hindex hG)
      refine (pagerMovePage_spec h hp hget).bind ?_
      rintro ⟨new, parts₁⟩ hmoved
      simp only
      split_ifs with hnew
      · rcases hmoved with ⟨-, hkept, hholds⟩ | ⟨hne, -⟩
        · exact ⟨hkept, hholds, fun _ => Iff.rfl, fun hno => by cases hno⟩
        · exact absurd hnew hne
      · rcases hmoved with ⟨hno, -⟩ | ⟨-, hpages, haway, hkept, hholds⟩
        · exact absurd hno hnew
        · refine (ih hholds).imp ?_
          rintro r ⟨hkept', hholds', hpages', hrest⟩
          refine ⟨hkept.trans hkept', hholds', fun g => (hpages' g).trans BlockMap.mem_pages_put,
            fun hok hgo => List.forall_mem_cons.2 ⟨?_, hrest hok ((hkept.going _).2 hgo)⟩⟩
          refine hkept'.stay _ ((hkept.going _).2 hgo) f ?_
          rw [BlockMap.get_put hpages, if_pos rfl]
          exact haway _ hgo
    · refine (ih h).imp ?_
      rintro r ⟨hkept, hholds, hpages, hrest⟩
      refine ⟨hkept, hholds, hpages, fun hok hgo => List.forall_mem_cons.2 ⟨?_, hrest hok hgo⟩⟩
      exact hkept.stay _ hgo f fun _ heq => hf (BitVec.eq_of_toNat_eq heq)

/-- `pager_realloc`: when it returns true, the object has no page in the partition. -/
theorem pagerRealloc_spec (h : Holds G queue blocks p parts pager.map c) (hp : p ∈ queue)
    {pindex : PIndex} (hindex : G → ¬ noPartition pindex) (hcur : CurOk parts pager.curPartition) :
    Ends (pagerRealloc parts pager pindex)
      (fun r => Kept parts r.2.1 pager.map r.2.2.map ∧ CurOk parts r.2.2.curPartition ∧
        Holds G queue blocks p r.2.1 r.2.2.map c ∧
        (r.1 = true → Going parts pindex.toNat → ∀ f, AwayFrom pindex.toNat (r.2.2.map.get f)))
      fun _ => ¬ G := by
  unfold pagerRealloc
  refine (moveAll_spec h hp hindex pager.map.pages).bind ?_
  rintro ⟨ok, map₁, parts₁⟩ ⟨hkept, hholds, hpages, haway⟩
  have hall : ok = true → Going parts pindex.toNat → ∀ f, AwayFrom pindex.toNat (map₁.get f) := by
    intro hok hgo f hf
    exact haway hok hgo f ((hpages f).1 (BlockMap.mem_pages_of_get hf)) hf
  simp only
  split_ifs with hok
  · refine ((choosePartition_spec parts₁ 0 pIndexInvalid).mono (fun _ hr => hr)
      fun e he hG => he (hholds.good hG)).bind ?_
    rintro ⟨x, parts₂⟩ hchosen
    exact ⟨hkept, hchosen.curOk.congr hkept.length.symm, hholds, fun _ => hall hok⟩
  · exact ⟨hkept, hcur, hholds, fun hno => by cases hno⟩

end Move

section Dealloc

/-- The entries of a map that are in a list of pages. -/
def entriesIn (map : BlockMap) (fs : List ℕ) (g : ℕ) : DpMap :=
  if g ∈ fs then map.get g else noBlock

/-- The pages of an object are freed one by one, and then it has none. -/
theorem deallocPages_spec {fs : List ℕ} (hnodup : fs.Nodup)
    (h : Keeps (core parts) queue (update blocks p (entriesIn map fs)) c) (hp : p ∈ queue)
    (hgood : G → Good (slot parts)) (hgoing : G → ∀ i, ¬ Going parts i) :
    Ends (deallocPages map fs parts)
      (fun parts' => Steady parts parts' ∧
        Keeps (core parts') queue (update blocks p fun _ => noBlock) (update c p fun _ => none))
      fun _ => ¬ G := by
  induction fs generalizing parts c with
  | nil =>
    have hrow : entriesIn map [] = fun _ => noBlock := by
      funext g
      exact if_neg List.not_mem_nil
    rw [hrow] at h
    refine ⟨⟨rfl, fun _ => Iff.rfl, fun hg => hg⟩, ?_⟩
    have hc : ∀ q ∈ queue, ∀ f, update c p (fun _ => none) q f = c q f := by
      intro q hq f
      by_cases hqp : q = p
      · subst hqp
        rw [update_self, ← h.stores q hq f, update_self, value_noBlock]
      · rw [update_of_ne hqp]
    exact ⟨h.toAccounts, fun q hq f => (h.stores q hq f).trans (hc q hq f).symm⟩
  | cons f fs ih =>
    obtain ⟨hnot, hnodup⟩ := List.nodup_cons.1 hnodup
    have hself : update blocks p (entriesIn map (f :: fs)) p f = map.get f := by
      rw [update_self]
      exact if_pos List.mem_cons_self
    have hrow : upd (update blocks p (entriesIn map (f :: fs))) p f noBlock
        = update blocks p (entriesIn map fs) := by
      rw [upd_update]
      congr 1
      funext g
      rw [update_apply]
      unfold entriesIn
      by_cases hg : g = f
      · subst hg
        rw [if_pos rfl, if_neg hnot]
      · rw [if_neg hg]
        simp only [List.mem_cons, hg, false_or]
    rw [deallocPages]
    split_ifs with hf
    · refine ih hnodup ?_ hgood hgoing
      rw [← hrow, upd_eq_self (hself.trans hf)]
      exact h
    · have hdealloc := h.dealloc hp (f := f) (by rw [hself]; exact hf) true
      rw [hself, hrow] at hdealloc
      refine (hdealloc.mono (fun _ hr => hr) fun e he hG => hgoing hG _ (he.2 (hgood hG))).bind ?_
      rintro parts₁ ⟨hsteady, hkeeps⟩
      refine (ih hnodup hkeeps (fun hG => hsteady.good (hgood hG))
        fun hG i hi => hgoing hG i ((hsteady.going i).1 hi)).imp ?_
      rintro parts₂ ⟨hsteady₂, hkeeps₂⟩
      refine ⟨hsteady.trans hsteady₂, ?_⟩
      have hc : update (upd c p f none) p (fun _ => (none : Option α))
          = update c p fun _ => none := by
        funext q g
        by_cases hqp : q = p
        · subst hqp
          rw [update_self, update_self]
        · rw [update_of_ne hqp, update_of_ne hqp, upd_of_ne fun hc => hqp hc.1]
      rw [hc] at hkeeps₂
      exact hkeeps₂

theorem pagerDealloc_spec (h : Holds G queue blocks p parts pager.map c) (hp : p ∈ queue)
    (hgoing : G → ∀ i, ¬ Going parts i) :
    Ends (pagerDealloc parts pager)
      (fun parts' => Steady parts parts' ∧
        Keeps (core parts') queue (update blocks p fun _ => noBlock) (update c p fun _ => none))
      fun _ => ¬ G := by
  have hrow : entriesIn pager.map pager.map.pages = pager.map.get := by
    funext g
    unfold entriesIn
    split_ifs with hg
    · rfl
    · by_contra hne
      exact hg (BlockMap.mem_pages_of_get (Ne.symm hne))
  refine deallocPages_spec (BlockMap.nodup_pages _) ?_ hp h.good hgoing
  rw [hrow]
  exact h.keeps

end Dealloc

end XMach.DefaultPager
