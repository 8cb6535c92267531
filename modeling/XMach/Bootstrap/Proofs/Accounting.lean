import XMach.Bootstrap.Proofs.Partition

/-!
# Blocks and who has them

`Accounts`: a bit of a bitmap is set exactly when one page of one object has the block. `Keeps` adds
what the pages hold. Each operation on objects is followed by an update of both, at the page it is
about; a page that is moved has its new block recorded for a page past the end of the object until
the old one is freed.
-/

namespace XMach.DefaultPager

open Function

variable {α : Type}

section Update

variable {β : Type} {c : ℕ → ℕ → β} {p q f g : ℕ} {x : β}

/-- A change at one page of one object. -/
def upd (c : ℕ → ℕ → β) (p f : ℕ) (x : β) (q g : ℕ) : β := if q = p ∧ g = f then x else c q g

@[simp] theorem upd_self : upd c p f x p f = x := if_pos ⟨rfl, rfl⟩

theorem upd_of_ne (h : ¬ (q = p ∧ g = f)) : upd c p f x q g = c q g := if_neg h

theorem upd_eq_self (h : c p f = x) : upd c p f x = c := by
  funext q g
  by_cases hqg : q = p ∧ g = f
  · obtain ⟨rfl, rfl⟩ := hqg
    rw [upd_self, h]
  · exact upd_of_ne hqg

theorem upd_update (row : ℕ → β) :
    upd (update c p row) p f x = update c p (update row f x) := by
  funext q g
  unfold upd
  by_cases hq : q = p
  · subst hq
    by_cases hg : g = f
    · subst hg
      simp
    · simp [hg]
  · simp [hq]

end Update

section Accounts

/-- The page of an object has the block. -/
structure Backed (σ : ℕ → Option (Part α)) (block : DpMap) : Prop where
  index : ¬ noPartition block.pIndex
  bit : ∃ part, σ block.pIndex.toNat = some part ∧ Bitmap.bit part.bitmap block.pOffset.toNat = true

/-- The books of the partitions are right, and the blocks that are not free are each recorded
once. -/
structure Accounts (σ : ℕ → Option (Part α)) (queue : List ℕ) (blocks : ℕ → ℕ → DpMap) : Prop where
  wf : ∀ i part, σ i = some part → BooksWf part.toBooks
  backed : ∀ p ∈ queue, ∀ f, blocks p f ≠ noBlock → Backed σ (blocks p f)
  recorded : ∀ i part, σ i = some part → ∀ b, Bitmap.bit part.bitmap b = true →
    ∃ p ∈ queue, ∃ f, blocks p f ≠ noBlock ∧ (blocks p f).pIndex.toNat = i ∧
    (blocks p f).pOffset.toNat = b
  once : ∀ p ∈ queue, ∀ q ∈ queue, ∀ f g, blocks p f ≠ noBlock → blocks p f = blocks q g →
    p = q ∧ f = g

variable {σ : ℕ → Option (Part α)} {queue : List ℕ} {blocks : ℕ → ℕ → DpMap} {part part' : Part α}
  {p q f g i b : ℕ} {x : PIndex}

theorem DpMap.ext_toNat {e e' : DpMap} (hi : e.pIndex.toNat = e'.pIndex.toNat)
    (ho : e.pOffset.toNat = e'.pOffset.toNat) : e = e' := by
  cases e
  cases e'
  simp only [DpMap.mk.injEq]
  exact ⟨BitVec.eq_of_toNat_eq ho, BitVec.eq_of_toNat_eq hi⟩

theorem ne_noBlock_of_index {e : DpMap} (h : ¬ noPartition e.pIndex) : e ≠ noBlock := by
  rintro rfl
  exact h (by decide)

section

variable (h : Accounts σ queue blocks)
include h

theorem Accounts.wf_update (hwf : BooksWf part'.toBooks) (j : ℕ) (part : Part α)
    (hj : update σ i (some part') j = some part) : BooksWf part.toBooks := by
  rw [update_apply] at hj
  split_ifs at hj
  · cases hj
    exact hwf
  · exact h.wf j part hj

theorem Accounts.same (hi : σ i = some part) (hbooks : part'.toBooks = part.toBooks) :
    Accounts (update σ i (some part')) queue blocks := by
  refine ⟨h.wf_update (by rw [hbooks]; exact h.wf i part hi), fun p hp f hf => ?_,
    fun j part₁ hj b hb => ?_, h.once⟩
  · obtain ⟨hindex, part₁, hpart₁, hbit⟩ := h.backed p hp f hf
    refine ⟨hindex, ?_⟩
    by_cases hij : (blocks p f).pIndex.toNat = i
    · refine ⟨part', by rw [hij, update_self], ?_⟩
      rw [hij, hi] at hpart₁
      cases hpart₁
      rw [hbooks]
      exact hbit
    · exact ⟨part₁, by rw [update_of_ne hij]; exact hpart₁, hbit⟩
  · rw [update_apply] at hj
    split_ifs at hj with hij
    · cases hj
      subst hij
      rw [hbooks] at hb
      exact h.recorded j part hi b hb
    · exact h.recorded j part₁ hj b hb

theorem Accounts.take (hp : p ∈ queue) (hf : blocks p f = noBlock) (hx : ¬ noPartition x)
    (hi : σ x.toNat = some part) (hfree : 0 < part.free) (hb : b < part.totalSize)
    (hclear : Bitmap.bit part.bitmap b = false) :
    Accounts (update σ x.toNat (some (part.take b))) queue
      (upd blocks p f ⟨BitVec.ofNat 24 b, x⟩) := by
  have hwf := h.wf _ part hi
  have hoff : (BitVec.ofNat 24 b).toNat = b := by
    have := hwf.fits
    rw [BitVec.toNat_ofNat, Nat.mod_eq_of_lt (by omega)]
  have hnew : (⟨BitVec.ofNat 24 b, x⟩ : DpMap) ≠ noBlock := ne_noBlock_of_index hx
  -- the block was not recorded before
  have hfresh : ∀ q ∈ queue, ∀ g, blocks q g ≠ (⟨BitVec.ofNat 24 b, x⟩ : DpMap) := by
    intro q hq g heq
    obtain ⟨-, part₁, hpart₁, hbit⟩ := h.backed q hq g (by rw [heq]; exact hnew)
    rw [heq] at hpart₁ hbit
    simp only [hoff] at hbit
    rw [hi] at hpart₁
    cases hpart₁
    rw [hclear] at hbit
    cases hbit
  refine ⟨h.wf_update (hwf.take hb hclear hfree), fun q hq g hg => ?_, fun j part₁ hj b' hb' => ?_,
    fun q hq r hr g k hg heq => ?_⟩
  · by_cases hqg : q = p ∧ g = f
    · obtain ⟨rfl, rfl⟩ := hqg
      rw [upd_self]
      refine ⟨hx, part.take b, update_self .., ?_⟩
      simp only [Part.take, hoff]
      rw [hwf.bit_take hb]
      simp
    · rw [upd_of_ne hqg] at hg ⊢
      obtain ⟨hindex, part₁, hpart₁, hbit⟩ := h.backed q hq g hg
      refine ⟨hindex, ?_⟩
      by_cases hij : (blocks q g).pIndex.toNat = x.toNat
      · rw [hij, hi] at hpart₁
        cases hpart₁
        refine ⟨part.take b, by rw [hij, update_self], ?_⟩
        rw [Part.take, hwf.bit_take hb, hbit, Bool.or_true]
      · exact ⟨part₁, by rw [update_of_ne hij]; exact hpart₁, hbit⟩
  · -- a bit that was set before, or the new one
    have hold : ∀ part₂, σ j = some part₂ → Bitmap.bit part₂.bitmap b' = true →
        ∃ q ∈ queue, ∃ g, upd blocks p f ⟨BitVec.ofNat 24 b, x⟩ q g ≠ noBlock ∧
          (upd blocks p f ⟨BitVec.ofNat 24 b, x⟩ q g).pIndex.toNat = j ∧
          (upd blocks p f ⟨BitVec.ofNat 24 b, x⟩ q g).pOffset.toNat = b' := by
      intro part₂ hj₂ hb₂
      obtain ⟨q, hq, g, hg, hidx, hof⟩ := h.recorded j part₂ hj₂ b' hb₂
      have hne : ¬ (q = p ∧ g = f) := by
        rintro ⟨rfl, rfl⟩
        exact hg hf
      exact ⟨q, hq, g, by rw [upd_of_ne hne]; exact ⟨hg, hidx, hof⟩⟩
    rw [update_apply] at hj
    split_ifs at hj with hij
    · cases hj
      subst hij
      rw [Part.take, hwf.bit_take hb, Bool.or_eq_true, decide_eq_true_eq] at hb'
      rcases hb' with rfl | hb'
      · exact ⟨p, hp, f, by rw [upd_self]; exact ⟨hnew, rfl, hoff⟩⟩
      · exact hold part hi hb'
    · exact hold part₁ hj hb'
  · by_cases hqg : q = p ∧ g = f
    · obtain ⟨rfl, rfl⟩ := hqg
      by_cases hrk : r = q ∧ k = g
      · exact ⟨hrk.1.symm, hrk.2.symm⟩
      · rw [upd_self, upd_of_ne hrk] at heq
        exact absurd heq.symm (hfresh r hr k)
    · rw [upd_of_ne hqg] at hg heq
      by_cases hrk : r = p ∧ k = f
      · obtain ⟨rfl, rfl⟩ := hrk
        rw [upd_self] at heq
        exact absurd heq (hfresh q hq g)
      · rw [upd_of_ne hrk] at heq
        exact h.once q hq r hr g k hg heq

theorem Accounts.give (hp : p ∈ queue) (hf : blocks p f ≠ noBlock)
    (hi : σ (blocks p f).pIndex.toNat = some part) :
    Accounts (update σ (blocks p f).pIndex.toNat (some (part.give (blocks p f).pOffset.toNat)))
      queue (upd blocks p f noBlock) := by
  have hwf := h.wf _ part hi
  have hset : Bitmap.bit part.bitmap (blocks p f).pOffset.toNat = true := by
    obtain ⟨-, part₁, hpart₁, hbit⟩ := h.backed p hp f hf
    rw [hi] at hpart₁
    cases hpart₁
    exact hbit
  have hlt := hwf.lt_of_bit hset
  have hne : ∀ q g, upd blocks p f noBlock q g ≠ noBlock →
      ¬ (q = p ∧ g = f) ∧ upd blocks p f noBlock q g = blocks q g := by
    intro q g hqg
    have hnot : ¬ (q = p ∧ g = f) := by
      rintro ⟨rfl, rfl⟩
      exact hqg upd_self
    exact ⟨hnot, upd_of_ne hnot⟩
  refine ⟨h.wf_update (hwf.give hset), fun q hq g hg => ?_, fun j part₁ hj b' hb' => ?_,
    fun q hq r hr g k hg heq => ?_⟩
  · obtain ⟨hnot, hold⟩ := hne q g hg
    rw [hold] at hg ⊢
    obtain ⟨hindex, part₁, hpart₁, hbit⟩ := h.backed q hq g hg
    refine ⟨hindex, ?_⟩
    by_cases hij : (blocks q g).pIndex.toNat = (blocks p f).pIndex.toNat
    · rw [hij, hi] at hpart₁
      cases hpart₁
      refine ⟨part.give _, by rw [hij, update_self], ?_⟩
      have hoff : (blocks p f).pOffset.toNat ≠ (blocks q g).pOffset.toNat := by
        intro heq
        obtain ⟨rfl, rfl⟩ := h.once q hq p hp g f hg (DpMap.ext_toNat hij heq.symm)
        exact hnot ⟨rfl, rfl⟩
      rw [Part.give, hwf.bit_give hlt, hbit]
      simp [hoff]
    · exact ⟨part₁, by rw [update_of_ne hij]; exact hpart₁, hbit⟩
  · have hold : ∀ part₂, σ j = some part₂ → Bitmap.bit part₂.bitmap b' = true →
        ¬ (j = (blocks p f).pIndex.toNat ∧ b' = (blocks p f).pOffset.toNat) →
        ∃ q ∈ queue, ∃ g, upd blocks p f noBlock q g ≠ noBlock ∧
          (upd blocks p f noBlock q g).pIndex.toNat = j ∧
          (upd blocks p f noBlock q g).pOffset.toNat = b' := by
      intro part₂ hj₂ hb₂ hnot
      obtain ⟨q, hq, g, hg, hidx, hof⟩ := h.recorded j part₂ hj₂ b' hb₂
      have hqg : ¬ (q = p ∧ g = f) := by
        rintro ⟨rfl, rfl⟩
        exact hnot ⟨hidx.symm, hof.symm⟩
      exact ⟨q, hq, g, by rw [upd_of_ne hqg]; exact ⟨hg, hidx, hof⟩⟩
    rw [update_apply] at hj
    split_ifs at hj with hij
    · cases hj
      subst hij
      rw [Part.give, hwf.bit_give hlt, Bool.and_eq_true, Bool.not_eq_true',
        decide_eq_false_iff_not] at hb'
      exact hold part hi hb'.2 fun hc => hb'.1 hc.2.symm
    · exact hold part₁ hj hb' fun hc => hij hc.1
  · obtain ⟨-, hold⟩ := hne q g hg
    obtain ⟨-, hold'⟩ := hne r k (heq ▸ hg)
    rw [hold] at hg
    rw [hold, hold'] at heq
    exact h.once q hq r hr g k hg heq

theorem Accounts.rename (hp : p ∈ queue) (hf : blocks p f = noBlock) :
    Accounts σ queue (upd (upd blocks p f (blocks p g)) p g noBlock) := by
  by_cases hfg : f = g
  · subst hfg
    rw [upd_eq_self (c := upd blocks p f (blocks p f)) (by rw [upd_self, hf]), upd_eq_self rfl]
    exact h
  -- where a block is recorded now
  have hnew : ∀ q k, upd (upd blocks p f (blocks p g)) p g noBlock q k =
      if q = p ∧ k = g then noBlock else if q = p ∧ k = f then blocks p g else blocks q k := by
    intro q k
    rfl
  have hback : ∀ q k, upd (upd blocks p f (blocks p g)) p g noBlock q k ≠ noBlock →
      ∃ k', upd (upd blocks p f (blocks p g)) p g noBlock q k = blocks q k' ∧
        ((q = p ∧ k = f ∧ k' = g) ∨ (¬ (q = p ∧ k = f) ∧ ¬ (q = p ∧ k = g) ∧ k' = k)) := by
    intro q k hk
    rw [hnew] at hk ⊢
    split_ifs at hk ⊢ with h₁ h₂
    · exact absurd rfl hk
    · exact ⟨g, by rw [h₂.1], .inl ⟨h₂.1, h₂.2, rfl⟩⟩
    · exact ⟨k, rfl, .inr ⟨h₂, h₁, rfl⟩⟩
  refine ⟨h.wf, fun q hq k hk => ?_, fun j part₁ hj b' hb' => ?_, fun q hq r hr k l hk heq => ?_⟩
  · obtain ⟨k', hk', -⟩ := hback q k hk
    rw [hk'] at hk ⊢
    exact h.backed q hq k' hk
  · obtain ⟨q, hq, k, hk, hidx, hof⟩ := h.recorded j part₁ hj b' hb'
    by_cases hqk : q = p ∧ k = g
    · obtain ⟨rfl, rfl⟩ := hqk
      refine ⟨q, hq, f, ?_⟩
      rw [hnew, if_neg fun hc => hfg hc.2, if_pos ⟨rfl, rfl⟩]
      exact ⟨hk, hidx, hof⟩
    · have hqf : ¬ (q = p ∧ k = f) := by
        rintro ⟨rfl, rfl⟩
        exact hk hf
      refine ⟨q, hq, k, ?_⟩
      rw [hnew, if_neg hqk, if_neg hqf]
      exact ⟨hk, hidx, hof⟩
  · obtain ⟨k', hk', hkc⟩ := hback q k hk
    obtain ⟨l', hl', hlc⟩ := hback r l (heq ▸ hk)
    rw [hk'] at hk
    rw [hk', hl'] at heq
    obtain ⟨rfl, rfl⟩ := h.once q hq r hr k' l' hk heq
    refine ⟨rfl, ?_⟩
    rcases hkc with ⟨hqp, rfl, hkg⟩ | ⟨hqf, hqg, rfl⟩
    · rcases hlc with ⟨-, rfl, -⟩ | ⟨-, hlg, hll⟩
      · rfl
      · exact absurd ⟨hqp, hll.symm.trans hkg⟩ hlg
    · rcases hlc with ⟨hqp, -, hlg⟩ | ⟨-, -, hll⟩
      · exact absurd ⟨hqp, hlg⟩ hqg
      · exact hll

theorem Accounts.create (hp : p ∉ queue) {row : ℕ → DpMap} (hrow : ∀ f, row f = noBlock) :
    Accounts σ (queue ++ [p]) (update blocks p row) := by
  have hsame : ∀ q g, update blocks p row q g ≠ noBlock → q ≠ p ∧
      update blocks p row q g = blocks q g := by
    intro q g hg
    by_cases hq : q = p
    · subst hq
      rw [update_self] at hg
      exact absurd (hrow g) hg
    · exact ⟨hq, by rw [update_of_ne hq]⟩
  have hmem : ∀ q, q ∈ queue ++ [p] → q ≠ p → q ∈ queue := by
    intro q hq hne
    rcases List.mem_append.1 hq with hq | hq
    · exact hq
    · exact absurd (List.mem_singleton.1 hq) hne
  refine ⟨h.wf, fun q hq g hg => ?_, fun j part₁ hj b' hb' => ?_, fun q hq r hr g k hg heq => ?_⟩
  · obtain ⟨hne, hold⟩ := hsame q g hg
    rw [hold] at hg ⊢
    exact h.backed q (hmem q hq hne) g hg
  · obtain ⟨q, hq, g, hg⟩ := h.recorded j part₁ hj b' hb'
    have hne : q ≠ p := by
      rintro rfl
      exact hp hq
    refine ⟨q, List.mem_append_left _ hq, g, ?_⟩
    rw [update_of_ne hne]
    exact hg
  · obtain ⟨hne, hold⟩ := hsame q g hg
    obtain ⟨hne', hold'⟩ := hsame r k (heq ▸ hg)
    rw [hold] at hg
    rw [hold, hold'] at heq
    exact h.once q (hmem q hq hne) r (hmem r hr hne') g k hg heq

theorem Accounts.erase (hp : ∀ f, blocks p f = noBlock) : Accounts σ (queue.erase p) blocks := by
  refine ⟨h.wf, fun q hq => h.backed q (List.mem_of_mem_erase hq), fun j part₁ hj b' hb' => ?_,
    fun q hq r hr => h.once q (List.mem_of_mem_erase hq) r (List.mem_of_mem_erase hr)⟩
  obtain ⟨q, hq, g, hg, hidx⟩ := h.recorded j part₁ hj b' hb'
  have hne : q ≠ p := by
    rintro rfl
    exact hg (hp g)
  exact ⟨q, (List.mem_erase_of_ne hne).2 hq, g, hg, hidx⟩

theorem Accounts.addPart (hi : σ i = none) (hwf : BooksWf part.toBooks)
    (hclear : ∀ b, Bitmap.bit part.bitmap b = false) :
    Accounts (update σ i (some part)) queue blocks := by
  refine ⟨h.wf_update hwf, fun q hq g hg => ?_, fun j part₁ hj b' hb' => ?_, h.once⟩
  · obtain ⟨hindex, part₁, hpart₁, hbit⟩ := h.backed q hq g hg
    refine ⟨hindex, part₁, ?_, hbit⟩
    rw [update_of_ne]
    · exact hpart₁
    · intro heq
      rw [heq, hi] at hpart₁
      cases hpart₁
  · rw [update_apply] at hj
    split_ifs at hj with hij
    · cases hj
      rw [hclear] at hb'
      cases hb'
    · exact h.recorded j part₁ hj b' hb'

theorem Accounts.removePart (hi : ∀ p ∈ queue, ∀ f, blocks p f ≠ noBlock →
    (blocks p f).pIndex.toNat ≠ i) : Accounts (update σ i none) queue blocks := by
  refine ⟨fun j part₁ hj => ?_, fun q hq g hg => ?_, fun j part₁ hj b' hb' => ?_, h.once⟩
  · rw [update_apply] at hj
    split_ifs at hj
    exact h.wf j part₁ hj
  · obtain ⟨hindex, part₁, hpart₁, hbit⟩ := h.backed q hq g hg
    exact ⟨hindex, part₁, by rw [update_of_ne (hi q hq g hg)]; exact hpart₁, hbit⟩
  · rw [update_apply] at hj
    split_ifs at hj
    exact h.recorded j part₁ hj b' hb'

end

end Accounts

section Contents

variable {σ : ℕ → Option (Part α)} {queue : List ℕ} {blocks : ℕ → ℕ → DpMap} {part part' : Part α}
  {p q f g i b : ℕ} {x : PIndex} {c : ℕ → ℕ → Option α}

/-- What a block holds. -/
def value (σ : ℕ → Option (Part α)) (e : DpMap) : Option α :=
  if e = noBlock then none else (σ e.pIndex.toNat).map fun part => part.data e.pOffset.toNat

/-- The accounts, and what the pages of the objects hold. -/
structure Keeps (σ : ℕ → Option (Part α)) (queue : List ℕ) (blocks : ℕ → ℕ → DpMap)
    (c : ℕ → ℕ → Option α) : Prop extends Accounts σ queue blocks where
  stores : ∀ p ∈ queue, ∀ f, value σ (blocks p f) = c p f

@[simp] theorem value_noBlock : value σ noBlock = none := if_pos rfl

theorem value_of_ne {e : DpMap} (h : e ≠ noBlock) :
    value σ e = (σ e.pIndex.toNat).map fun part => part.data e.pOffset.toNat := if_neg h

theorem value_update (part' : Part α) (hi : σ i = some part) (hdata : part'.data = part.data)
    (e : DpMap) : value (update σ i (some part')) e = value σ e := by
  unfold value
  by_cases hie : e.pIndex.toNat = i
  · rw [hie, update_self, hi, Option.map_some, Option.map_some, hdata]
  · rw [update_of_ne hie]

theorem value_upd (e : DpMap) (q g : ℕ) :
    value σ (upd blocks p f e q g) = upd (fun q g => value σ (blocks q g)) p f (value σ e) q g := by
  unfold upd
  split_ifs <;> rfl

section

variable (h : Keeps σ queue blocks c)
include h

theorem Keeps.stores_upd {e : DpMap} {y : Option α} (he : value σ e = y) (hq : q ∈ queue) :
    value σ (upd blocks p f e q g) = upd c p f y q g := by
  rw [value_upd]
  by_cases hqg : q = p ∧ g = f
  · obtain ⟨rfl, rfl⟩ := hqg
    rw [upd_self, upd_self, he]
  · rw [upd_of_ne hqg, upd_of_ne hqg]
    exact h.stores q hq g

theorem Keeps.same (hi : σ i = some part) (hbooks : part'.toBooks = part.toBooks)
    (hdata : part'.data = part.data) : Keeps (update σ i (some part')) queue blocks c := by
  refine ⟨h.toAccounts.same hi hbooks, fun q hq g => ?_⟩
  rw [value_update part' hi hdata]
  exact h.stores q hq g

theorem Keeps.take (hp : p ∈ queue) (hf : blocks p f = noBlock) (hx : ¬ noPartition x)
    (hi : σ x.toNat = some part) (hfree : 0 < part.free) (hb : b < part.totalSize)
    (hclear : Bitmap.bit part.bitmap b = false) :
    ∃ v, Keeps (update σ x.toNat (some (part.take b))) queue
      (upd blocks p f ⟨BitVec.ofNat 24 b, x⟩) (upd c p f (some v)) := by
  refine ⟨part.data (BitVec.ofNat 24 b).toNat, h.toAccounts.take hp hf hx hi hfree hb hclear, ?_⟩
  intro q hq g
  rw [value_update (part.take b) hi rfl]
  refine h.stores_upd ?_ hq
  rw [value_of_ne (ne_noBlock_of_index hx), hi, Option.map_some]

theorem Keeps.give (hp : p ∈ queue) (hf : blocks p f ≠ noBlock)
    (hi : σ (blocks p f).pIndex.toNat = some part) :
    Keeps (update σ (blocks p f).pIndex.toNat (some (part.give (blocks p f).pOffset.toNat))) queue
      (upd blocks p f noBlock) (upd c p f none) := by
  refine ⟨h.toAccounts.give hp hf hi, fun q hq g => ?_⟩
  rw [value_update (part.give (blocks p f).pOffset.toNat) hi rfl]
  exact h.stores_upd value_noBlock hq

theorem Keeps.rename (hp : p ∈ queue) (hf : blocks p f = noBlock) :
    Keeps σ queue (upd (upd blocks p f (blocks p g)) p g noBlock)
    (upd (upd c p f (c p g)) p g none) := by
  refine ⟨h.toAccounts.rename hp hf, fun q hq k => ?_⟩
  unfold upd
  split_ifs
  · exact value_noBlock
  · exact h.stores p hp g
  · exact h.stores q hq k

theorem Keeps.store (hp : p ∈ queue) (hf : blocks p f ≠ noBlock)
    (hi : σ (blocks p f).pIndex.toNat = some part) (page : α) :
    Keeps (update σ (blocks p f).pIndex.toNat
        (some { part with data := update part.data (blocks p f).pOffset.toNat page })) queue blocks
      (upd c p f (some page)) := by
  refine ⟨h.toAccounts.same hi rfl, fun q hq g => ?_⟩
  by_cases hqg : q = p ∧ g = f
  · obtain ⟨rfl, rfl⟩ := hqg
    rw [upd_self, value_of_ne hf, update_self, Option.map_some]
    simp only [update_self]
  · rw [upd_of_ne hqg, ← h.stores q hq g]
    by_cases hg : blocks q g = noBlock
    · rw [hg, value_noBlock, value_noBlock]
    · rw [value_of_ne hg, value_of_ne hg]
      by_cases hij : (blocks q g).pIndex.toNat = (blocks p f).pIndex.toNat
      · have hoff : (blocks q g).pOffset.toNat ≠ (blocks p f).pOffset.toNat := by
          intro heq
          exact hqg (h.once q hq p hp g f hg (DpMap.ext_toNat hij heq))
        rw [hij, update_self, hi, Option.map_some, Option.map_some]
        simp only [update_of_ne hoff]
      · rw [update_of_ne hij]

theorem Keeps.create (hp : p ∉ queue) {row : ℕ → DpMap} (hrow : ∀ f, row f = noBlock) :
    Keeps σ (queue ++ [p]) (update blocks p row) (update c p fun _ => none) := by
  refine ⟨h.toAccounts.create hp hrow, fun q hq g => ?_⟩
  by_cases hqp : q = p
  · subst hqp
    rw [update_self, update_self, hrow, value_noBlock]
  · rw [update_of_ne hqp, update_of_ne hqp]
    rcases List.mem_append.1 hq with hq | hq
    · exact h.stores q hq g
    · exact absurd (List.mem_singleton.1 hq) hqp

theorem Keeps.erase (hp : ∀ f, blocks p f = noBlock) : Keeps σ (queue.erase p) blocks c :=
  ⟨h.toAccounts.erase hp, fun q hq => h.stores q (List.mem_of_mem_erase hq)⟩

theorem Keeps.addPart (hi : σ i = none) (hwf : BooksWf part.toBooks)
    (hclear : ∀ b, Bitmap.bit part.bitmap b = false) :
    Keeps (update σ i (some part)) queue blocks c := by
  refine ⟨h.toAccounts.addPart hi hwf hclear, fun q hq g => ?_⟩
  rw [← h.stores q hq g]
  by_cases hg : blocks q g = noBlock
  · rw [hg, value_noBlock, value_noBlock]
  · obtain ⟨-, part₁, hpart₁, -⟩ := h.backed q hq g hg
    have hne : (blocks q g).pIndex.toNat ≠ i := by
      intro heq
      rw [heq, hi] at hpart₁
      cases hpart₁
    rw [value_of_ne hg, value_of_ne hg, update_of_ne hne]

theorem Keeps.removePart (hi : ∀ p ∈ queue, ∀ f, blocks p f ≠ noBlock →
    (blocks p f).pIndex.toNat ≠ i) : Keeps (update σ i none) queue blocks c := by
  refine ⟨h.toAccounts.removePart hi, fun q hq g => ?_⟩
  rw [← h.stores q hq g]
  by_cases hg : blocks q g = noBlock
  · rw [hg, value_noBlock, value_noBlock]
  · rw [value_of_ne hg, value_of_ne hg, update_of_ne (hi q hq g hg)]

theorem Keeps.isSome_iff (hp : p ∈ queue) : (c p f).isSome ↔ blocks p f ≠ noBlock := by
  rw [← h.stores p hp f]
  constructor
  · intro hsome heq
    rw [heq, value_noBlock] at hsome
    cases hsome
  · intro hne
    obtain ⟨-, part, hpart, -⟩ := h.backed p hp f hne
    rw [value_of_ne hne, hpart]
    rfl

end

end Contents

end XMach.DefaultPager
