import XMach.Bootstrap.Proofs.Room

/-!
# Runs of the default pager

`Sound` is the invariant of the server: the accounts, what the pages hold, and that a partition that
is being destroyed gets no block from the objects that are done with it. A step keeps it unless an
extension gives an object a smaller map (`accounted_of_reach`). In a run of `Careful` steps every
step returns, and the requests are answered as a map from offsets to pages would (`run_refines`).
-/

namespace XMach.DefaultPager

open Function

variable {α : Type} {G : Prop} {s s' : State α} {c : ℕ → ℕ → Option α} {p i : ℕ}

section Sound

/-- The blocks that the objects record. -/
def recs (s : State α) (p f : ℕ) : DpMap := (s.object p).dpager.map.get f

structure Sound (G : Prop) (s : State α) (c : ℕ → ℕ → Option α) : Prop where
  keeps : Keeps (core s.parts) s.queue (recs s) c
  good : G → Good (slot s.parts)
  cur : ∀ p ∈ s.queue, CurOk s.parts (s.object p).dpager.curPartition
  nodup : s.queue.Nodup
  going : ∀ i rest, s.going = some (i, rest) → Going s.parts i ∧ (∀ p ∈ rest, p ∈ s.queue) ∧
    ∀ p ∈ s.queue, p ∉ rest → ∀ f, AwayFrom i (recs s p f)
  away : ∀ i, Going s.parts i → ∃ rest, s.going = some (i, rest)

theorem recs_put (p : ℕ) (parts : Parts α) (ds : Dstruct) :
    recs (s.put p parts ds) = update (recs s) p ds.dpager.map.get := by
  funext q f
  unfold recs State.put
  by_cases hq : q = p
  · subst hq
    simp only [update_self]
  · simp only [update_of_ne hq]

theorem Sound.mono {G' : Prop} (h : Sound G s c) (hG : G' → G) : Sound G' s c :=
  ⟨h.keeps, fun hG' => h.good (hG hG'), h.cur, h.nodup, h.going, h.away⟩

theorem Sound.not_going (h : Sound G s c) (hgoing : s.going = none) (i : ℕ) :
    ¬ Going s.parts i := by
  intro hi
  obtain ⟨rest, hrest⟩ := h.away i hi
  rw [hgoing] at hrest
  cases hrest

theorem Sound.holds (h : Sound G s c) (p : ℕ) :
    Holds G s.queue (recs s) p s.parts (s.object p).dpager.map c := by
  refine ⟨?_, h.good⟩
  have hself : update (recs s) p (s.object p).dpager.map.get = recs s :=
    update_eq_self p (recs s)
  rw [hself]
  exact h.keeps

theorem sound_initial : Sound G (initial : State α) fun _ _ => none := by
  have hcore : core (initial : State α).parts = fun _ => none := by
    funext i
    rfl
  have hslot : slot (initial : State α).parts = fun _ => none := by
    funext i
    rfl
  refine ⟨⟨⟨?_, by simp [initial], ?_, by simp [initial]⟩, by simp [initial]⟩, fun _ => ⟨?_, ?_⟩,
    by simp [initial], List.nodup_nil, by simp [initial], ?_⟩
  · simp [hcore]
  · simp [hcore]
  · simp [hslot]
  · simp [hslot]
  · rintro i ⟨part, hpart, -⟩
    rw [hcore] at hpart
    cases hpart

theorem Sound.put (h : Sound G s c) {c' : ℕ → ℕ → Option α} {parts : Parts α} (ds : Dstruct)
    (hkept : Kept s.parts parts (s.object p).dpager.map ds.dpager.map)
    (hcur : CurOk s.parts ds.dpager.curPartition)
    (hholds : Holds G s.queue (recs s) p parts ds.dpager.map c') :
    Sound G (s.put p parts ds) c' := by
  refine ⟨?_, hholds.good, fun q hq => ?_, h.nodup, fun i rest hgo => ?_, fun i hi => ?_⟩
  · rw [recs_put]
    exact hholds.keeps
  · refine CurOk.congr ?_ hkept.length
    unfold State.put
    by_cases hqp : q = p
    · subst hqp
      simp only [update_self]
      exact hcur
    · simp only [update_of_ne hqp]
      exact h.cur q hq
  · obtain ⟨hgoing, hrest, haway⟩ := h.going i rest hgo
    refine ⟨(hkept.going i).2 hgoing, hrest, fun q hq hnot f => ?_⟩
    rw [recs_put]
    by_cases hqp : q = p
    · subst hqp
      rw [update_self]
      exact hkept.stay i hgoing f (haway q hq hnot f)
    · rw [update_of_ne hqp]
      exact haway q hq hnot f
  · exact h.away i ((hkept.going i).1 hi)

end Sound

section Requests

/-- What `data_write` makes of the contents. -/
def storePages (c : ℕ → ℕ → Option α) (p : ℕ) (offset : BitVec 32) : List α → ℕ → ℕ → Option α
  | [] => c
  | page :: pages => storePages (upd c p (atop offset.toNat) (some page)) p (offset + 4096#32) pages

/-- What `data_initialize` makes of them: a page that is there stays as it is. -/
def storeAbsent (c : ℕ → ℕ → Option α) (p : ℕ) (offset : BitVec 32) : List α → ℕ → ℕ → Option α
  | [] => c
  | page :: pages =>
    storeAbsent (if (c p (atop offset.toNat)).isSome then c
      else upd c p (atop offset.toNat) (some page)) p (offset + 4096#32) pages

/-- The pages are within the size of an object. -/
def InRange (size : ℕ) (offset : BitVec 32) : List α → Prop
  | [] => True
  | _ :: pages => atop offset.toNat < size ∧ InRange size (offset + 4096#32) pages

theorem inRange_mono {size size' : ℕ} (hle : size ≤ size') (offset : BitVec 32) (pages : List α)
    (h : InRange size offset pages) : InRange size' offset pages := by
  induction pages generalizing offset with
  | nil => trivial
  | cons page pages ih => exact ⟨h.1.trans_le hle, ih _ h.2⟩

/-- Objects keep their number of errors, but for one that may have more. -/
structure SameBut (p : ℕ) (s s' : State α) : Prop where
  queue : s'.queue = s.queue
  going : s'.going = s.going
  errors : ∀ q, q ≠ p → (s'.object q).errors = (s.object q).errors
  more : (s.object p).errors ≤ (s'.object p).errors

theorem SameBut.refl (s : State α) (p : ℕ) : SameBut p s s := ⟨rfl, rfl, fun _ _ => rfl, le_rfl⟩

theorem SameBut.trans {s'' : State α} (h : SameBut p s s') (h' : SameBut p s' s'') :
    SameBut p s s'' :=
  ⟨h'.queue.trans h.queue, h'.going.trans h.going,
    fun q hq => (h'.errors q hq).trans (h.errors q hq), h.more.trans h'.more⟩

theorem sameBut_put {parts : Parts α} {ds : Dstruct} (hle : (s.object p).errors ≤ ds.errors) :
    SameBut p s (s.put p parts ds) := by
  refine ⟨rfl, rfl, fun q hq => ?_, ?_⟩
  · simp only [State.put, update_of_ne hq]
  · simp only [State.put, update_self]
    exact hle

theorem writePage_spec (h : Sound G s c) (hp : p ∈ s.queue) (page : α) (offset : BitVec 32) :
    Ends (defaultWrite s.parts (s.object p).dpager page offset)
      (fun r => ∀ s₁, s₁ = s.put p r.2.1
          ⟨r.2.2, if r.1 then (s.object p).errors else (s.object p).errors + 1⟩ →
        SameBut p s s₁ ∧ (s.object p).dpager.map.size ≤ (s₁.object p).dpager.map.size ∧
        Sound G s₁ (if r.1 then upd c p (atop offset.toNat) (some page) else c) ∧
        ((s₁.object p).errors = (s.object p).errors → r.1 = true)) fun _ => ¬ G := by
  refine (defaultWrite_spec (h.holds p) hp (h.cur p hp) page).imp ?_
  rintro ⟨ok, parts, dpager⟩ ⟨hkept, hcur, hsize, hholds⟩ s₁ rfl
  refine ⟨sameBut_put ?_, ?_, h.put _ hkept hcur hholds, fun herr => ?_⟩
  · simp only
    split_ifs <;> omega
  · simp only [State.put, update_self]
    exact hsize
  · simp only [State.put, update_self] at herr
    split_ifs at herr with hok
    · exact hok
    · omega

theorem writePages_spec (h : Sound G s c) (hp : p ∈ s.queue) (offset : BitVec 32) (pages : List α) :
    Ends (writePages s p offset pages)
      (fun s' => SameBut p s s' ∧ ∃ c', Sound G s' c' ∧
        ((s'.object p).errors = (s.object p).errors → c' = storePages c p offset pages)) fun _ =>
        ¬ G := by
  induction pages generalizing s c offset with
  | nil => exact ⟨.refl s p, c, h, fun _ => rfl⟩
  | cons page pages ih =>
    rw [writePages]
    refine (writePage_spec h hp page offset).bind ?_
    rintro ⟨ok, parts, dpager⟩ hpage
    obtain ⟨hsame, -, hsound, hok⟩ := hpage _ rfl
    refine (ih hsound (by rw [hsame.queue]; exact hp) (offset + 4096#32)).imp ?_
    rintro s' ⟨hsame', c', hsound', hc'⟩
    refine ⟨hsame.trans hsame', c', hsound', fun herr => ?_⟩
    have hle := hsame.more
    have hle' := hsame'.more
    have hok' : ok = true := hok (by omega)
    rw [hc' (by omega), hok']
    rfl

theorem initializePages_spec (h : Sound G s c) (hp : p ∈ s.queue) (offset : BitVec 32)
    (pages : List α) (hrange : G → InRange (s.object p).dpager.map.size offset pages) :
    Ends (initializePages s p offset pages)
      (fun s' => SameBut p s s' ∧ ∃ c', Sound G s' c' ∧
        ((s'.object p).errors = (s.object p).errors → c' = storeAbsent c p offset pages)) fun _ =>
        ¬ G := by
  induction pages generalizing s c offset with
  | nil => exact ⟨.refl s p, c, h, fun _ => rfl⟩
  | cons page pages ih =>
    rw [initializePages]
    have hhas : Ends (defaultHasPage (s.object p).dpager offset)
        (fun b => b = (c p (atop offset.toNat)).isSome) fun _ => ¬ G := by
      unfold defaultHasPage
      refine ((pagerReadOffset_spec (s.object p).dpager offset).mono (fun _ hr => hr)
        fun e he hG => not_lt.2 he (hrange hG).1).bind ?_
      rintro e rfl
      have hiff : (c p (atop offset.toNat)).isSome ↔ recs s p (atop offset.toNat) ≠ noBlock :=
        h.keeps.isSome_iff hp
      simp only [Ends.pure_iff]
      rw [Bool.eq_iff_iff, hiff, decide_eq_true_eq]
      rfl
    refine hhas.bind ?_
    rintro b rfl
    split_ifs with hsome
    · refine (ih h hp (offset + 4096#32) fun hG => (hrange hG).2).imp ?_
      rintro s' ⟨hsame, c', hsound, hc'⟩
      refine ⟨hsame, c', hsound, fun herr => ?_⟩
      rw [hc' herr, storeAbsent, if_pos hsome]
    · refine (writePage_spec h hp page offset).bind ?_
      rintro ⟨ok, parts, dpager⟩ hpage
      obtain ⟨hsame, hsize, hsound, hok⟩ := hpage _ rfl
      refine (ih hsound (by rw [hsame.queue]; exact hp) (offset + 4096#32) fun hG => ?_).imp ?_
      · exact inRange_mono hsize _ _ (hrange hG).2
      · rintro s' ⟨hsame', c', hsound', hc'⟩
        refine ⟨hsame.trans hsame', c', hsound', fun herr => ?_⟩
        have hle := hsame.more
        have hle' := hsame'.more
        have hok' : ok = true := hok (by omega)
        rw [hc' (by omega), hok', storeAbsent, if_neg hsome]
        rfl

end Requests

section Partitions

/-- The slot that a new partition gets. -/
def slotFor (parts : Parts α) : ℕ := (parts.findIdx? Option.isNone).getD parts.length

theorem slot_createPagingPartition (parts : Parts α) (part : Part α) :
    slot parts (slotFor parts) = none ∧
      slot (createPagingPartition parts part) = update (slot parts) (slotFor parts) (some part) ∧
      parts.length ≤ (createPagingPartition parts part).length := by
  unfold slotFor createPagingPartition
  cases hfind : parts.findIdx? Option.isNone with
  | some i =>
    obtain ⟨hlt, hnone, -⟩ := List.findIdx?_eq_some_iff_getElem.1 hfind
    refine ⟨?_, slot_set hlt, length_setPart.ge⟩
    simp only [Option.getD_some]
    unfold slot
    rw [List.getD_eq_getElem?_getD, List.getElem?_eq_getElem hlt, Option.getD_some]
    simpa using hnone
  | none =>
    simp only [Option.getD_none]
    have hlen : parts.length < (if parts.length = 0 then 2 else 2 * parts.length) := by
      split_ifs <;> omega
    generalize (if parts.length = 0 then 2 else 2 * parts.length) = n at hlen
    refine ⟨slot_eq_none le_rfl, ?_, ?_⟩
    · unfold setPart
      rw [slot_set (by rw [List.length_append, List.length_replicate]; omega)]
      congr 1
      -- the new slots are empty
      funext j
      unfold slot
      simp only [List.getD_eq_getElem?_getD, List.getElem?_append, List.getElem?_replicate]
      split_ifs with h₁ h₂
      · rfl
      · rw [List.getElem?_eq_none (not_lt.1 h₁)]
        rfl
      · rw [List.getElem?_eq_none (not_lt.1 h₁)]
    · rw [length_setPart, List.length_append]
      exact Nat.le_add_right _ _

theorem Sound.parts (h : Sound G s c) {parts : Parts α}
    (hkeeps : Keeps (core parts) s.queue (recs s) c)
    (hgood : G → Good (slot parts)) (hlen : s.parts.length ≤ parts.length)
    (hgoing : ∀ i, Going parts i ↔ Going s.parts i) : Sound G { s with parts := parts } c := by
  refine ⟨hkeeps, hgood, fun p hp => ?_, h.nodup, fun i rest hgo => ?_, fun i hi => ?_⟩
  · exact (h.cur p hp).imp_right fun hlt => hlt.trans_le hlen
  · exact ⟨(hgoing i).2 (h.going i rest hgo).1, (h.going i rest hgo).2⟩
  · exact h.away i ((hgoing i).1 hi)

theorem Sound.createPartition (h : Sound G s c) (name : List (BitVec 8)) (size : BitVec 32)
    (data : ℕ → α) (hslot : G → slotFor s.parts < 255) :
    Sound G { s with parts := createPagingPartition s.parts (newPart name size data) } c := by
  obtain ⟨hnone, hslots, hlen⟩ := slot_createPagingPartition s.parts (newPart name size data)
  have hcore := core_update hslots
  have hnone' : core s.parts (slotFor s.parts) = none := by
    unfold core
    rw [hnone, Option.map_none]
  refine h.parts ?_ (fun hG => ?_) hlen fun i => ?_
  · rw [hcore]
    exact h.keeps.addPart hnone' (booksWf_new name size data) fun b => Bitmap.bit_replicate_zero
  · rw [hslots]
    have hg := h.good hG
    have hlt := hslot hG
    refine ⟨fun i part hi haway => ?_, fun i hi => ?_⟩
    · rw [update_apply] at hi
      split_ifs at hi
      · cases hi
        rfl
      · exact hg.unlocked i part hi haway
    · rw [update_of_ne (by omega)]
      exact hg.small i hi
  · unfold Going
    rw [hcore]
    by_cases hi : i = slotFor s.parts
    · subst hi
      rw [update_self, hnone']
      simp [newPart, Part.unlock]
    · rw [update_of_ne hi]

theorem pagerPortAlloc_spec (parts : Parts α) (size : BitVec 32) :
    Ends (pagerPortAlloc parts size) (fun d => CurOk parts d.curPartition ∧ ∀ f,
      d.map.get f = noBlock) fun _ => ¬ Good (slot parts) := by
  unfold pagerPortAlloc
  refine (choosePartition_spec parts size.toNat pIndexInvalid).bind ?_
  rintro ⟨x, parts₁⟩ hchosen
  simp only
  split_ifs
  · refine (choosePartition_spec parts 0 pIndexInvalid).bind ?_
    rintro ⟨y, parts₂⟩ hchosen₂
    exact ⟨hchosen₂.curOk, fun f => BlockMap.get_fresh⟩
  · exact ⟨hchosen.curOk, fun f => BlockMap.get_fresh⟩

theorem Sound.create (h : Sound G s c) (hp : p ∉ s.queue) (hgoing : s.going = none) {d : Dpager}
    (hcur : CurOk s.parts d.curPartition) (hget : ∀ f, d.map.get f = noBlock) :
    Sound G { s with queue := s.queue ++ [p], object := update s.object p ⟨d, 0⟩ }
      (update c p fun _ => none) := by
  have hrecs : recs { s with queue := s.queue ++ [p], object := update s.object p ⟨d, 0⟩ }
      = update (recs s) p d.map.get := recs_put p s.parts ⟨d, 0⟩
  refine ⟨?_, h.good, fun q hq => ?_, ?_, fun i rest hgo => ?_, h.away⟩
  · rw [hrecs]
    exact h.keeps.create hp hget
  · by_cases hqp : q = p
    · subst hqp
      simp only [update_self]
      exact hcur
    · simp only [update_of_ne hqp]
      rcases List.mem_append.1 hq with hq | hq
      · exact h.cur q hq
      · exact absurd (List.mem_singleton.1 hq) hqp
  · exact List.nodup_append.2 ⟨h.nodup, List.nodup_singleton p, fun a ha b hb hab => hp (by
      rw [List.mem_singleton.1 hb] at hab
      exact hab ▸ ha)⟩
  · rw [hgoing] at hgo
    cases hgo

theorem noSenders_spec (h : Sound G s c) (hp : p ∈ s.queue) (hgoing : s.going = none) :
    Ends (noSenders s p)
      (fun s' => Sound G s' (update c p fun _ => none) ∧ s'.object = s.object ∧
        s'.queue = s.queue.erase p) fun _ => ¬ G := by
  have hnogo := h.not_going hgoing
  unfold noSenders
  refine (pagerDealloc_spec (h.holds p) hp fun _ => hnogo).bind ?_
  rintro parts ⟨hsteady, hkeeps⟩
  refine ⟨⟨?_, fun hG => hsteady.good (h.good hG), fun q hq => ?_, h.nodup.erase p,
    fun i rest hgo => ?_, fun i hi => ?_⟩, rfl, rfl⟩
  · -- the map of the object is gone with it
    have herase := hkeeps.erase (p := p) fun f => by rw [update_self]
    have hne : ∀ q ∈ s.queue.erase p, q ≠ p := fun q hq heq => by
      rw [heq] at hq
      exact h.nodup.not_mem_erase hq
    refine ⟨⟨herase.wf, fun q hq f hf => ?_, fun i part hi b hb => ?_,
      fun q hq r hr f g hf heq => ?_⟩, fun q hq f => ?_⟩
    · have := herase.backed q hq f
      rw [update_of_ne (hne q hq)] at this
      exact this hf
    · obtain ⟨q, hq, f, hf⟩ := herase.recorded i part hi b hb
      rw [update_of_ne (hne q hq)] at hf
      exact ⟨q, hq, f, hf⟩
    · have := herase.once q hq r hr f g
      rw [update_of_ne (hne q hq), update_of_ne (hne r hr)] at this
      exact this hf heq
    · have := herase.stores q hq f
      rw [update_of_ne (hne q hq)] at this
      exact this
  · exact (h.cur q (List.mem_of_mem_erase hq)).congr hsteady.length
  · change s.going = some (i, rest) at hgo
    rw [hgoing] at hgo
    cases hgo
  · exact absurd ((hsteady.going i).1 hi) (hnogo i)

/-- The map that an object gets is not smaller than the one it has. -/
def Grows (map : BlockMap) (new : ℕ) : Prop := map.size ≤ newSize map.size new

instance (map : BlockMap) (new : ℕ) : Decidable (Grows map new) :=
  inferInstanceAs (Decidable (_ ≤ _))

theorem Grows.get_extend {map : BlockMap} {new : ℕ} (h : Grows map new) (f : ℕ) :
    (map.extend new).get f = map.get f := by
  rw [BlockMap.get_extend]
  split_ifs with hf
  · rfl
  · exact (BlockMap.get_of_size_le (h.trans (not_lt.1 hf))).symm

theorem Sound.extend (h : Sound G s c) (hp : p ∈ s.queue) {new : ℕ}
    (hgrows : Grows (s.object p).dpager.map new) :
    Sound G (s.put p s.parts
      { s.object p with
        dpager := { (s.object p).dpager with map := (s.object p).dpager.map.extend new } }) c :=
  h.put _ (.refl hgrows.get_extend) (h.cur p hp) ((h.holds p).congr rfl hgrows.get_extend h.good)

end Partitions

section Destroy

theorem exists_slot_of_findIdx? {parts : Parts α} {q : Option (Part α) → Bool} {pindex : ℕ}
    (hq : q none = false)
    (hfind : parts.findIdx? q = some pindex) : ∃ part, slot parts pindex = some part := by
  obtain ⟨hlt, hany, -⟩ := List.findIdx?_eq_some_iff_getElem.1 hfind
  cases hx : parts[pindex] with
  | none =>
    rw [hx, hq] at hany
    cases hany
  | some part =>
    refine ⟨part, ?_⟩
    unfold slot
    rw [List.getD_eq_getElem?_getD, List.getElem?_eq_getElem hlt, Option.getD_some, hx]

theorem Sound.mark (h : Sound G s c) (hgoing : s.going = none) {pindex : ℕ} {part part' : Part α}
    (hpart : slot s.parts pindex = some part) (hbooks : part'.toBooks = part.toBooks)
    (hdata : part'.data = part.data) (haway : part'.goingAway = true) :
    Sound G { s with
      parts := setPart s.parts pindex part'
      going := some (pindex, s.queue) } c := by
  have hnogo := h.not_going hgoing
  have hcore := core_update (slot_setPart part' hpart)
  have hgo : ∀ i, Going (setPart s.parts pindex part') i ↔ i = pindex := by
    intro i
    constructor
    · rintro ⟨part₁, hpart₁, haway₁⟩
      by_contra hne
      rw [hcore, update_of_ne hne] at hpart₁
      exact hnogo i ⟨part₁, hpart₁, haway₁⟩
    · rintro rfl
      exact ⟨part'.unlock, by rw [hcore, update_self, Option.map_some], haway⟩
  refine ⟨?_, fun hG => ?_, fun p hp => ?_, h.nodup, ?_, fun i hi => ?_⟩
  · rw [hcore]
    exact h.keeps.same (core_of_slot hpart) hbooks hdata
  · rw [slot_setPart _ hpart]
    refine (h.good hG).update hpart fun hno => ?_
    rw [haway] at hno
    cases hno
  · exact (h.cur p hp).congr length_setPart
  · intro i rest heq
    cases heq
    exact ⟨(hgo pindex).2 rfl, fun p hp => hp, fun p hp hnot => absurd hp hnot⟩
  · rw [(hgo i).1 hi]
    exact ⟨s.queue, rfl⟩

theorem destroyPartition_spec (h : Sound G s c) (hgoing : s.going = none) (name : List (BitVec 8)) :
    Ends (destroyPartition s name)
      (fun s' => Sound G s' c ∧ s'.object = s.object ∧ s'.queue = s.queue) fun _ => ¬ G := by
  unfold destroyPartition
  cases hfind : s.parts.findIdx? (fun slot => slot.any fun part => part.id = partId name) with
  | none => exact ⟨h, rfl, rfl⟩
  | some pindex =>
    obtain ⟨part, hpart⟩ := exists_slot_of_findIdx? rfl hfind
    have haway : part.goingAway = false :=
      Bool.eq_false_iff.2 fun haway =>
        h.not_going hgoing pindex ⟨part.unlock, core_of_slot hpart, haway⟩
    simp only [partOf_eq hpart]
    refine Ends.bind (Q := fun x => x = part) rfl ?_
    rintro x rfl
    split_ifs with hlock
    · intro hG
      rw [(h.good hG).unlocked _ _ hpart haway] at hlock
      cases hlock
    · exact ⟨h.mark hgoing hpart rfl rfl rfl, rfl, rfl⟩

/-- There is room in the other partitions for the pages of the object that is next. -/
def HasRoom (s : State α) : Prop :=
  match s.going with
  | some (pindex, p :: _) =>
    pagesOn (s.object p).dpager.map (BitVec.ofNat 8 pindex) ≤ room s.parts pindex
  | some (_, []) | none => True

instance (s : State α) : Decidable (HasRoom s) :=
  match h : s.going with
  | some (pindex, p :: _) => decidable_of_iff
    (pagesOn (s.object p).dpager.map (BitVec.ofNat 8 pindex) ≤ room s.parts pindex)
    (by rw [HasRoom, h])
  | some (_, []) => isTrue (by rw [HasRoom, h]; trivial)
  | none => isTrue (by rw [HasRoom, h]; trivial)

theorem relocate_spec (h : Sound G s c) :
    Ends (relocate s)
      (fun s' => Sound (G ∧ HasRoom s) s' c ∧ s'.queue = s.queue ∧
        ∀ q, (s'.object q).errors = (s.object q).errors) fun _ => ¬ G := by
  unfold relocate
  cases hgoing : s.going with
  | none =>
    exact ⟨h.mono fun hG => hG.1, rfl, fun _ => rfl⟩
  | some x =>
    obtain ⟨pindex, rest⟩ := x
    obtain ⟨⟨part, hpart, haway⟩, hrest, hdone⟩ := h.going pindex rest hgoing
    cases rest with
    | nil =>
      -- the partition is empty and goes away
      obtain ⟨old, hold, -⟩ := exists_slot_of_core hpart
      have hslots : slot (s.parts.set pindex none) = update (slot s.parts) pindex none :=
        slot_set (lt_of_slot hold)
      have hcore := core_update hslots
      have hnogo : ∀ i, ¬ Going (s.parts.set pindex none) i := by
        rintro i ⟨part', hpart', haway'⟩
        rw [hcore, update_apply] at hpart'
        split_ifs at hpart' with hi
        · cases hpart'
        · obtain ⟨rest', hrest'⟩ := h.away i ⟨part', hpart', haway'⟩
          rw [hgoing] at hrest'
          exact hi (Prod.mk.inj (Option.some.inj hrest')).1.symm
      refine ⟨⟨?_, fun hG => ?_, fun p hp => ?_, h.nodup, ?_, fun i hi => absurd hi (hnogo i)⟩, rfl,
        fun _ => rfl⟩
      · rw [hcore]
        exact h.keeps.removePart fun p hp f hf => hdone p hp List.not_mem_nil f hf
      · have hg := h.good hG.1
        rw [hslots]
        refine ⟨fun i part' hi hno => ?_, fun i hi => ?_⟩
        · rw [update_apply] at hi
          split_ifs at hi
          exact hg.unlocked i part' hi hno
        · rw [update_apply]
          split_ifs
          · rfl
          · exact hg.small i hi
      · exact (h.cur p hp).congr List.length_set
      · intro i rest' heq
        cases heq
    | cons p rest =>
      have hp : p ∈ s.queue := hrest p List.mem_cons_self
      have hindex : G → ¬ noPartition (BitVec.ofNat 8 pindex) := by
        intro hG hno
        obtain ⟨old, hold, -⟩ := exists_slot_of_core hpart
        have hlt := (h.good hG).lt hold
        have hnat : (BitVec.ofNat 8 pindex).toNat = 255 := congrArg BitVec.toNat hno
        rw [BitVec.toNat_ofNat, Nat.mod_eq_of_lt (by omega)] at hnat
        omega
      refine (pagerRealloc_spec (h.holds p) hp hindex (h.cur p hp)).with_eq.bind ?_
      rintro ⟨ok, parts, dpager⟩ ⟨⟨hkept, hcur, hholds, hleft⟩, hrealloc⟩
      have hmoves : G ∧ HasRoom s → ok = true := by
        rintro ⟨hG, hroom⟩
        obtain ⟨old, hold, -⟩ := exists_slot_of_core hpart
        have hlt := (h.good hG).lt hold
        have hnat : (BitVec.ofNat 8 pindex).toNat = pindex := by
          rw [BitVec.toNat_ofNat, Nat.mod_eq_of_lt (by omega)]
        have hiff := (pagerRealloc_room ((h.mono fun _ => hG).holds p) hp (hindex hG)).of_eq
          hrealloc
        rw [hnat] at hiff
        rw [HasRoom, hgoing] at hroom
        exact hiff.2 hroom
      have hput := h.put { s.object p with dpager := dpager } hkept hcur hholds
      have hobj : ∀ q, ((s.put p parts { s.object p with dpager := dpager }).object q).errors
          = (s.object q).errors := by
        intro q
        by_cases hq : q = p
        · subst hq
          simp only [State.put, update_self]
        · simp only [State.put, update_of_ne hq]
      simp only
      split_ifs with hok
      · refine ⟨⟨hput.keeps, fun hG => hput.good hG.1, hput.cur, hput.nodup, ?_, fun i hi => ?_⟩,
          rfl, hobj⟩
        · intro i rest' heq
          cases heq
          obtain ⟨hgo, -, hdone'⟩ := hput.going pindex (p :: rest) hgoing
          refine ⟨hgo, fun q hq => hrest q (List.mem_cons_of_mem _ hq), fun q hq hnot f => ?_⟩
          by_cases hqp : q = p
          · -- this object is done
            subst hqp
            change AwayFrom pindex (recs (s.put q parts { s.object q with dpager := dpager }) q f)
            rw [recs_put, update_self]
            by_cases hsmall : pindex < 256
            · have hnat : (BitVec.ofNat 8 pindex).toNat = pindex := by
                rw [BitVec.toNat_ofNat, Nat.mod_eq_of_lt (by omega)]
              rw [hnat] at hleft
              exact hleft hok ⟨part, hpart, haway⟩ f
            · intro _ heq'
              have := (dpager.map.get f).pIndex.isLt
              omega
          · exact hdone' q hq (fun hmem => (List.mem_cons.1 hmem).elim hqp hnot) f
        · obtain ⟨rest', hrest'⟩ := hput.away i hi
          have heq : s.going = some (i, rest') := hrest'
          rw [hgoing] at heq
          cases heq
          exact ⟨rest, rfl⟩
      · -- the partition is put back in
        obtain ⟨part', hpart', haway'⟩ := (hkept.going pindex).2 ⟨part, hpart, haway⟩
        obtain ⟨old, hold, holdeq⟩ := exists_slot_of_core hpart'
        simp only [partOf_eq hold]
        have hcore := core_update (slot_setPart { old with goingAway := false } hold)
        have hnogo : ∀ i, ¬ Going (setPart parts pindex { old with goingAway := false }) i := by
          rintro i ⟨part₁, hpart₁, haway₁⟩
          rw [hcore, update_apply] at hpart₁
          split_ifs at hpart₁ with hi
          · cases hpart₁
            cases haway₁
          · obtain ⟨rest', hrest'⟩ := hput.away i ⟨part₁, hpart₁, haway₁⟩
            have heq : s.going = some (i, rest') := hrest'
            rw [hgoing] at heq
            exact hi (Prod.mk.inj (Option.some.inj heq)).1.symm
        refine ⟨⟨?_, fun hG => ?_, fun q hq => ?_, hput.nodup, fun i rest' heq => ?_,
          fun i hi => absurd hi (hnogo i)⟩, rfl, hobj⟩
        · change Keeps (core (setPart parts pindex _)) _ (recs (s.put p parts _)) c
          rw [hcore]
          exact hput.keeps.same (core_of_slot hold) rfl rfl
        · exact absurd (hmoves hG) hok
        · exact (hput.cur q hq).congr length_setPart
        · cases heq

end Destroy

section Steps

variable {a : Act α}

/-- What a step needs for no block to be lost, and nothing to be stored behind a map. -/
def Safe (s : State α) : Act α → Prop
  | .extend p new => Grows (s.object p).dpager.map new
  | _ => True

/-- What a step needs for it to return. -/
def Careful (s : State α) : Act α → Prop
  | .createPartition _ _ _ => slotFor s.parts < 255
  | .dataRequest p offset write =>
    atop offset.toNat < (s.object p).dpager.map.size ∧ (write = true → s.going = none)
  | .dataInitialize p offset pages => InRange (s.object p).dpager.map.size offset pages
  | .extend p new => Grows (s.object p).dpager.map new
  | .relocate => HasRoom s
  | _ => True

/-- What the requests make of the contents. -/
def absStep (c : ℕ → ℕ → Option α) : Act α → ℕ → ℕ → Option α
  | .create p _ | .noSenders p => update c p fun _ => none
  | .dataRequest p offset write => if write then upd c p (atop offset.toNat) none else c
  | .dataInitialize p offset pages => storeAbsent c p offset pages
  | .dataWrite p offset pages => storePages c p offset pages
  | .createPartition _ _ _ | .extend _ _ | .destroyPartition _ | .relocate => c

/-- How they are answered. -/
def absAnswer (c : ℕ → ℕ → Option α) : Act α → Answer α
  | .dataRequest p offset _ =>
    match c p (atop offset.toNat) with
    | some page => .provided page
    | none => .unavailable
  | _ => .done

/-- No write has failed. -/
def Clean (s : State α) : Prop := ∀ p ∈ s.queue, (s.object p).errors = 0

/-- No write of the step fails. -/
def NoFail (s s' : State α) : Prop := ∀ p ∈ s.queue, (s'.object p).errors ≤ (s.object p).errors

/-- What a step does. -/
structure Stepped (G : Prop) (s : State α) (a : Act α) (c : ℕ → ℕ → Option α)
    (r : State α × Answer α) (c' : ℕ → ℕ → Option α) : Prop where
  sound : Sound G r.1 c'
  fresh : ∀ p ∈ r.1.queue, p ∈ s.queue ∨ (r.1.object p).errors = 0
  contents : Clean s → NoFail s r.1 → c' = absStep c a
  answer : Clean s → r.2 = absAnswer c a

theorem dataRequest_spec (h : Sound G s c) (hp : p ∈ s.queue) (offset : BitVec 32) (write : Bool)
    (hcare : G → Careful s (.dataRequest p offset write)) :
    Ends (dataRequest s p offset write)
      (fun r => ∃ c', Stepped G s (.dataRequest p offset write) c r c') fun _ => ¬ G := by
  unfold dataRequest
  split_ifs with herr
  · refine ⟨c, h, fun q hq => .inl hq, fun hclean _ => ?_, fun hclean => ?_⟩
    · exact absurd (hclean p hp) herr
    · exact absurd (hclean p hp) herr
  · have hnogo : G → write = true → ∀ i, ¬ Going s.parts i :=
      fun hG hw => h.not_going ((hcare hG).2 hw)
    refine (defaultRead_spec (h.holds p) hp write (fun hG => (hcare hG).1) hnogo).bind ?_
    intro r hr
    obtain ⟨page, parts, dpager⟩ := r
    obtain ⟨hpage, hkept, hcur, hholds⟩ := hr
    have hcur' : CurOk s.parts dpager.curPartition := by
      have heq : dpager.curPartition = (s.object p).dpager.curPartition := hcur
      rw [heq]
      exact h.cur p hp
    refine ⟨_, h.put _ hkept hcur' hholds, fun q hq => .inl hq, fun _ _ => rfl, fun _ => ?_⟩
    have hpage' : page = c p (atop offset.toNat) := hpage
    rw [hpage']
    rfl

theorem exec_spec (h : Sound G s c)
  (hen : Enabled s a) (hsafe : Safe s a) (hcare : G → Careful s a) :
    Ends (exec s a) (fun r => ∃ c', Stepped G s a c r c') fun _ => ¬ G := by
  cases a with
  | createPartition name size data =>
    exact ⟨c, h.createPartition name size data hcare,
      fun q hq => .inl hq, fun _ _ => rfl, fun _ => rfl⟩
  | create q size =>
    refine ((pagerPortAlloc_spec s.parts size).mono (fun _ hr => hr) fun e he hG =>
      he (h.good hG)).bind ?_
    intro d hd
    refine ⟨_, h.create hen.1 hen.2 hd.1 hd.2, fun r hr => ?_, fun _ _ => rfl, fun _ => rfl⟩
    rcases List.mem_append.1 hr with hr | hr
    · exact .inl hr
    · right
      rw [List.mem_singleton.1 hr]
      simp only [update_self]
  | noSenders q =>
    refine (noSenders_spec h hen.1 hen.2).bind ?_
    intro s' hs'
    refine ⟨_, hs'.1, fun r hr => ?_, fun _ _ => rfl, fun _ => rfl⟩
    have hr' : r ∈ s'.queue := hr
    rw [hs'.2.2] at hr'
    exact .inl (List.mem_of_mem_erase hr')
  | dataRequest q offset write => exact dataRequest_spec h hen offset write hcare
  | dataInitialize q offset pages =>
    refine (initializePages_spec h hen offset pages hcare).bind ?_
    intro s' hs'
    obtain ⟨hsame, c', hsound, hc'⟩ := hs'
    refine ⟨c', hsound, fun r hr => .inl ?_, fun _ hno => ?_, fun _ => rfl⟩
    · rw [← hsame.queue]
      exact hr
    · exact hc' (le_antisymm (hno q hen) hsame.more)
  | dataWrite q offset pages =>
    refine (writePages_spec h hen offset pages).bind ?_
    intro s' hs'
    obtain ⟨hsame, c', hsound, hc'⟩ := hs'
    refine ⟨c', hsound, fun r hr => .inl ?_, fun _ hno => ?_, fun _ => rfl⟩
    · rw [← hsame.queue]
      exact hr
    · exact hc' (le_antisymm (hno q hen) hsame.more)
  | extend q new =>
    exact ⟨c, h.extend hen hsafe, fun r hr => .inl hr, fun _ _ => rfl, fun _ => rfl⟩
  | destroyPartition name =>
    refine (destroyPartition_spec h hen name).bind ?_
    intro s' hs'
    refine ⟨c, hs'.1, fun r hr => .inl ?_, fun _ _ => rfl, fun _ => rfl⟩
    rw [← hs'.2.2]
    exact hr
  | relocate =>
    refine (relocate_spec h).bind ?_
    intro s' hs'
    obtain ⟨hsound, hqueue, -⟩ := hs'
    refine ⟨c, hsound.mono fun hG => ⟨hG, hcare hG⟩,
      fun r hr => .inl ?_, fun _ _ => rfl, fun _ => rfl⟩
    rw [← hqueue]
    exact hr

end Steps

section Accounting

variable {a : Act α}

/-- The states that are reached by steps that lose no block. -/
inductive Reach : State α → Prop
  | initial : Reach initial
  | step (s s' : State α) (a : Act α) (answer : Answer α) (h : Reach s) (hen : Enabled s a)
    (hsafe : Safe s a) (hexec : exec s a = .ok (s', answer)) : Reach s'

/-- The page of the object has the block of the partition. -/
def RecordedAt (s : State α) (i b : ℕ) (pf : ℕ × ℕ) : Prop :=
  pf.1 ∈ s.queue ∧ recs s pf.1 pf.2 ≠ noBlock ∧ (recs s pf.1 pf.2).pIndex.toNat = i ∧
    (recs s pf.1 pf.2).pOffset.toNat = b

/-- No bit is set behind the last block of a partition, the set bits are the blocks that are not
free, each is recorded for one page of one object, and no other block is. -/
structure Accounted (s : State α) : Prop where
  tail : ∀ i part, slot s.parts i = some part → ∀ b, part.totalSize ≤ b →
    Bitmap.bit part.bitmap b = false
  count : ∀ i part, slot s.parts i = some part →
    Bitmap.count part.bitmap part.totalSize = part.totalSize - part.free
  bit : ∀ i part, slot s.parts i = some part → ∀ b,
    Bitmap.bit part.bitmap b = true ↔ ∃! pf, RecordedAt s i b pf
  inPart : ∀ i b pf, RecordedAt s i b pf → ∃ part, slot s.parts i = some part

theorem Sound.accounted (h : Sound G s c) : Accounted s := by
  have hwf : ∀ i part, slot s.parts i = some part → BooksWf part.toBooks :=
    fun i part hi => PartsWf.slot h.keeps.wf i part hi
  -- a block that is recorded is in its partition, with its bit set
  have hbacked : ∀ i b pf, RecordedAt s i b pf →
      ∃ part, slot s.parts i = some part ∧ Bitmap.bit part.bitmap b = true := by
    intro i b pf hpf
    obtain ⟨hq, hne, hi, hb⟩ := hpf
    have := (h.keeps.backed pf.1 hq pf.2 hne).slot
    rw [hi, hb] at this
    exact this
  refine ⟨fun i part hi => (hwf i part hi).tail, fun i part hi => ?_, fun i part hi b => ?_,
    fun i b pf hpf => ?_⟩
  · have := (hwf i part hi).count
    omega
  · constructor
    · intro hbit
      obtain ⟨p, hp, f, hf⟩ := h.keeps.recorded i part.unlock (core_of_slot hi) b hbit
      refine ⟨(p, f), ⟨hp, hf⟩, fun pf hpf => ?_⟩
      have heq : recs s pf.1 pf.2 = recs s p f :=
        DpMap.ext_toNat (hpf.2.2.1.trans hf.2.1.symm) (hpf.2.2.2.trans hf.2.2.symm)
      obtain ⟨hpp, hff⟩ := h.keeps.once pf.1 hpf.1 p hp pf.2 f hpf.2.1 heq
      exact Prod.ext hpp hff
    · intro hex
      obtain ⟨pf, hpf, -⟩ := hex
      obtain ⟨part', hpart', hbit⟩ := hbacked i b pf hpf
      rw [hi] at hpart'
      cases hpart'
      exact hbit
  · obtain ⟨part, hpart, -⟩ := hbacked i b pf hpf
    exact ⟨part, hpart⟩

theorem Reach.sound (h : Reach s) : ∃ c, Sound False s c := by
  induction h with
  | initial => exact ⟨_, sound_initial⟩
  | step s s' a answer h hen hsafe hexec ih =>
    obtain ⟨c, hsound⟩ := ih
    obtain ⟨c', hstep⟩ := (exec_spec hsound hen hsafe fun hno => hno.elim).of_eq hexec
    exact ⟨c', hstep.sound⟩

/-- Steps that the callers may make, and that lose no block. -/
def SafeRun : State α → List (Act α) → Prop
  | _, [] => True
  | s, a :: acts => Enabled s a ∧ Safe s a ∧ Ends (exec s a)
      (fun r => SafeRun r.1 acts) fun _ => True

theorem Reach.run {acts : List (Act α)} {answers : List (Answer α)} (h : Reach s)
    (hsafe : SafeRun s acts) (hrun : run s acts = .ok (s', answers)) : Reach s' := by
  induction acts generalizing s answers with
  | nil =>
    obtain ⟨rfl, -⟩ := Prod.mk.inj (Except.ok.inj hrun)
    exact h
  | cons a acts ih =>
    obtain ⟨hen, hsafe, hrest⟩ := hsafe
    rw [DefaultPager.run] at hrun
    obtain ⟨⟨s₁, answer⟩, hexec, hrun⟩ := bind_eq_ok.1 hrun
    obtain ⟨⟨s₂, answers₂⟩, hrun₁, heq⟩ := bind_eq_ok.1 hrun
    obtain ⟨rfl, -⟩ := Prod.mk.inj (Except.ok.inj heq)
    exact ih (.step s s₁ a answer h hen hsafe hexec) (hrest.of_eq hexec) hrun₁

/-- The block that a page past the new size of its object had is not recorded any more. -/
theorem Sound.lost (h : Sound G s c) (hp : p ∈ s.queue) {new f : ℕ}
    (hf : newSize (s.object p).dpager.map.size new ≤ f) (hget : recs s p f ≠ noBlock) :
    ¬ Accounted (s.put p s.parts { s.object p with
      dpager := { (s.object p).dpager with map := (s.object p).dpager.map.extend new } }) := by
  intro hacc
  obtain ⟨part, hpart, hbit⟩ := (h.keeps.backed p hp f hget).slot
  obtain ⟨pf, hpf, -⟩ := (hacc.bit _ part hpart _).1 hbit
  obtain ⟨hq, hne, hi, hb⟩ := hpf
  rw [recs_put] at hne hi hb
  by_cases hqp : pf.1 = p
  · -- the object has the block at no other page
    rw [hqp, update_self] at hne hi hb
    simp only [BlockMap.get_extend] at hne hi hb
    split_ifs at hne hi hb with hlt
    · obtain ⟨-, heq⟩ := h.keeps.once p hp p hp pf.2 f hne (DpMap.ext_toNat hi hb)
      omega
    · exact hne rfl
  · rw [update_of_ne hqp] at hne hi hb
    exact hqp (h.keeps.once pf.1 hq p hp pf.2 f hne (DpMap.ext_toNat hi hb)).1

/-- In every state that is reached without a smaller map the books of the partitions are right.
`pager_alloc_page` finds a block below `total_size` there, or none, and does not panic. -/
theorem accounted_of_reach (s : State α) (h : Reach s) : Accounted s ∧
    (∀ pindex lockIt, CurOk s.parts pindex → pagerAllocPage s.parts pindex lockIt ≠ .error .panic ∧
      ∀ b parts, pagerAllocPage s.parts pindex lockIt = .ok (some b, parts) →
        ∃ part, slot s.parts pindex.toNat = some part ∧ b < part.totalSize) ∧
    ∀ p ∈ s.queue, CurOk s.parts (s.object p).dpager.curPartition := by
  obtain ⟨c, hsound⟩ := h.sound
  refine ⟨hsound.accounted, fun pindex lockIt hcur => ?_, hsound.cur⟩
  · have hspec := pagerAllocPage_spec lockIt (PartsWf.slot hsound.keeps.wf) hcur
    refine ⟨fun hpanic => ?_, fun b parts hok => ?_⟩
    · rw [hpanic] at hspec
      cases hspec.1
    · obtain ⟨part, hpart⟩ := (hspec.of_eq hok).exists_part rfl
      exact ⟨part, hpart⟩

instance (s : State α) : (a : Act α) → Decidable (Enabled s a)
  | .createPartition _ _ _ => inferInstanceAs (Decidable True)
  | .create _ _ | .noSenders _ => inferInstanceAs (Decidable (_ ∧ _))
  | .dataRequest _ _ _ | .dataInitialize _ _ _ | .dataWrite _ _ _ | .extend _ _ =>
    inferInstanceAs (Decidable (_ ∈ _))
  | .destroyPartition _ => inferInstanceAs (Decidable (s.going = none))
  | .relocate => inferInstanceAs (Decidable (¬ s.going = none))

instance (s : State α) : (a : Act α) → Decidable (Safe s a)
  | .extend p new => inferInstanceAs (Decidable (Grows (s.object p).dpager.map new))
  | .createPartition _ _ _ | .create _ _ | .noSenders _ | .dataRequest _ _ _ | .dataInitialize _ _ _
  | .dataWrite _ _ _ | .destroyPartition _ | .relocate => inferInstanceAs (Decidable True)

instance decidableSafeRun : (s : State α) → (acts : List (Act α)) → Decidable (SafeRun s acts)
  | _, [] => inferInstanceAs (Decidable True)
  | s, a :: acts =>
    have := fun r : State α × Answer α => decidableSafeRun r.1 acts
    inferInstanceAs
      (Decidable (Enabled s a ∧
        Safe s a ∧ Ends (exec s a) (fun r => SafeRun r.1 acts) fun _ => True))

/-- A partition of 4 blocks, and an object of 8 megabytes whose page 2000 is written. -/
def largeObject : List (Act ℕ) :=
  [.createPartition [] 0x4000#32 fun _ => 0, .create 0 0x800000#32, .dataWrite 0 0x7d0000#32 [7]]

/-- The object is there, and the block of its page is taken. -/
def hasPage (r : State ℕ × List (Answer ℕ)) : Prop :=
  0 ∈ r.1.queue ∧ recs r.1 0 2000 = ⟨0#24, 0#8⟩ ∧ newSize (r.1.object 0).dpager.map.size 1101 ≤ 2000

instance (r : State ℕ × List (Answer ℕ)) : Decidable (hasPage r) :=
  inferInstanceAs (Decidable (_ ∧ _ ∧ _))

theorem reach_largeObject : ∃ s : State ℕ, Reach s ∧ 0 ∈ s.queue ∧ recs s 0 2000 = ⟨0#24, 0#8⟩ ∧
    newSize (s.object 0).dpager.map.size 1101 ≤ 2000 := by
  have hsafe : SafeRun initial largeObject := by decide +kernel
  have hends : Ends (run initial largeObject) hasPage fun _ => False := by decide +kernel
  obtain ⟨r, hrun, hpage⟩ := hends.returns fun _ hno => hno
  exact ⟨r.1, Reach.initial.run hsafe hrun, hpage⟩

theorem accounted_of_reach_page : ∃ s : State ℕ, Reach s ∧ recs s 0 2000 = ⟨0#24, 0#8⟩ ∧
    Accounted s := by
  obtain ⟨s, hreach, -, hpage, -⟩ := reach_largeObject
  exact ⟨s, hreach, hpage, (accounted_of_reach s hreach).1⟩

/-- `pager_extend` is called for page 1100 of the object, as it is when a write to that page finds
the object still small and is overtaken by the one to page 2000: the object shrinks, and its block
is lost. -/
theorem extend_loses_block : ∃ s s' : State ℕ, Reach s ∧ Enabled s (.extend 0 1101) ∧
    exec s (.extend 0 1101) = .ok (s', .done) ∧ ¬ Accounted s' := by
  obtain ⟨s, hreach, hqueue, hpage, hlost⟩ := reach_largeObject
  obtain ⟨c, hsound⟩ := hreach.sound
  exact ⟨s, _, hreach, hqueue, rfl, hsound.lost hqueue hlost (by rw [hpage]; decide)⟩

end Accounting

section Refinement

/-- The contents after a list of requests. -/
def absRun (acts : List (Act α)) : ℕ → ℕ → Option α := acts.foldl absStep fun _ _ => none

/-- The answers to them. -/
def absAnswers : (ℕ → ℕ → Option α) → List (Act α) → List (Answer α)
  | _, [] => []
  | c, a :: acts => absAnswer c a :: absAnswers (absStep c a) acts

/-- Steps that the callers may make and that are careful, none of whose writes fails. -/
def CarefulRun : State α → List (Act α) → Prop
  | _, [] => True
  | s, a :: acts => Enabled s a ∧ Careful s a ∧
    Ends (exec s a) (fun r => NoFail s r.1 ∧ CarefulRun r.1 acts) fun _ => True

theorem Careful.safe {a : Act α} (h : Careful s a) : Safe s a := by
  cases a with
  | extend p new => exact h
  | createPartition | create | noSenders | dataRequest | dataInitialize | dataWrite
  | destroyPartition | relocate => trivial

theorem CarefulRun.refines {acts : List (Act α)} (h : CarefulRun s acts) (hs : Sound True s c)
    (hclean : Clean s) : ∃ s', run s acts = .ok (s', absAnswers c acts) ∧
      Sound True s' (acts.foldl absStep c) := by
  induction acts generalizing s c with
  | nil => exact ⟨s, rfl, hs⟩
  | cons a acts ih =>
    obtain ⟨hen, hcare, hrest⟩ := h
    obtain ⟨r, hexec, c', hstep⟩ :=
      (exec_spec hs hen hcare.safe fun _ => hcare).returns fun _ hno => hno trivial
    obtain ⟨hfail, hrest⟩ := hrest.of_eq hexec
    have hclean' : Clean r.1 := by
      intro q hq
      rcases hstep.fresh q hq with hold | hnew
      · exact Nat.le_zero.1 ((hfail q hold).trans_eq (hclean q hold))
      · exact hnew
    have hsound := hstep.sound
    rw [hstep.contents hclean hfail] at hsound
    obtain ⟨s', hrun, hs'⟩ := ih hrest hsound hclean'
    refine ⟨s', ?_, hs'⟩
    rw [run, hexec]
    change (run r.1 acts >>= fun x => pure (x.1, r.2 :: x.2)) = _
    rw [hrun, hstep.answer hclean]
    rfl

/-- A run of careful steps returns. The requests are answered as the map from offsets to pages says
that the writes make, and the blocks of each object hold that map then. -/
theorem run_refines (acts : List (Act α)) (h : CarefulRun initial acts) :
    ∃ s : State α, run initial acts = .ok (s, absAnswers (fun _ _ => none) acts) ∧
      ∀ p ∈ s.queue, ∀ f, value (slot s.parts) (recs s p f) = absRun acts p f := by
  have hclean : Clean (initial : State α) := by
    intro p hp
    cases hp
  obtain ⟨s, hrun, hs⟩ := h.refines sound_initial hclean
  refine ⟨s, hrun, fun p hp f => ?_⟩
  have hvalue : value (core s.parts) (recs s p f) = value (slot s.parts) (recs s p f) := by
    unfold value core
    simp only [Option.map_map]
    rfl
  exact hvalue.symm.trans (hs.keeps.stores p hp f)

instance decidableInRange (size : ℕ) : (offset : BitVec 32) → (pages : List α) →
    Decidable (InRange size offset pages)
  | _, [] => inferInstanceAs (Decidable True)
  | offset, _ :: pages =>
    have := decidableInRange size (offset + 4096#32) pages
    inferInstanceAs (Decidable (_ ∧ _))

instance (s : State α) : (a : Act α) → Decidable (Careful s a)
  | .createPartition _ _ _ => inferInstanceAs (Decidable (slotFor s.parts < 255))
  | .dataRequest p offset write => inferInstanceAs (Decidable
    (atop offset.toNat < (s.object p).dpager.map.size ∧ (write = true → s.going = none)))
  | .dataInitialize p offset pages => decidableInRange (s.object p).dpager.map.size offset pages
  | .extend p new => inferInstanceAs (Decidable (Grows (s.object p).dpager.map new))
  | .relocate => inferInstanceAs (Decidable (HasRoom s))
  | .create _ _ | .noSenders _ | .dataWrite _ _ _ | .destroyPartition _ =>
      inferInstanceAs (Decidable True)

instance (s s' : State α) : Decidable (NoFail s s') :=
  inferInstanceAs (Decidable (∀ p ∈ s.queue, (s'.object p).errors ≤ (s.object p).errors))

instance decidableCarefulRun : (s : State α) → (acts : List (Act α)) → Decidable (CarefulRun s acts)
  | _, [] => inferInstanceAs (Decidable True)
  | s, a :: acts =>
    have := fun r : State α × Answer α => decidableCarefulRun r.1 acts
    inferInstanceAs (Decidable (Enabled s a ∧ Careful s a ∧
      Ends (exec s a) (fun r => NoFail s r.1 ∧ CarefulRun r.1 acts) fun _ => True))

/-- Two objects share a partition, which is destroyed when a second one is there. -/
def moved : List (Act ℕ) :=
  [.createPartition [1#8] 0x4000#32 fun _ => 0, .create 0 0x3000#32, .create 1 0x1000#32,
    .dataWrite 0 0x1000#32 [7, 8], .dataInitialize 1 0#32 [5], .dataInitialize 0 0x1000#32 [9],
    .createPartition [2#8] 0x4000#32 fun _ => 0, .destroyPartition [1#8], .relocate, .relocate,
    .relocate,
    .dataWrite 1 0x9000#32 [6], .dataRequest 0 0x1000#32 false, .dataRequest 0 0#32 false,
    .dataRequest 1 0x9000#32 true, .dataRequest 1 0x9000#32 false]

theorem run_refines_moved : CarefulRun initial moved ∧
    ∃ s, run initial moved = .ok (s, absAnswers (fun _ _ => none) moved) := by
  have h : CarefulRun initial moved := by decide +kernel
  obtain ⟨s, hrun, -⟩ := run_refines moved h
  exact ⟨h, s, hrun⟩

/-- A request for the page behind the last one of an object stops the pager. -/
theorem dataRequest_panics : ∃ (acts : List (Act ℕ)) (s : State ℕ) (answers : List (Answer ℕ)),
    CarefulRun initial acts ∧ run initial acts = .ok (s, answers) ∧
      Enabled s (.dataRequest 0 0x1000#32 false) ∧
      exec s (.dataRequest 0 0x1000#32 false) = .error .panic := by
  refine ⟨[.createPartition [] 0x4000#32 fun _ => 0, .create 0 0x1000#32], _, _, by decide +kernel,
    rfl, ?_, rfl⟩
  decide +kernel

end Refinement

end XMach.DefaultPager
