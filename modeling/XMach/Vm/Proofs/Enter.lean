import XMach.Vm.Proofs.Denote

/-!
# Entering a range

How `vm_map_enter` is left (`EnterExit.Right`): a request that fails leaves the map as it is, one
that succeeds adds its range to what the map means. The exit at which the alignment wraps is the one
that forgets the lock.

The search for space finds the lowest place when none is left below its starting point
(`findSpace_lowest`).
-/

namespace XMach.Vm

open Region

/-- Where the search ended. -/
def Space.start : Space → Option ℕ
  | .found _ _ start => some start
  | _ => none

def Reply.address : Reply → Option ℕ
  | .success a => some a
  | _ => none

variable {m m' : VmMap} {before after : List VmMapEntry} {a start size mask x k : ℕ}
  {r : EnterRequest} {grows : Bool} {reply : Reply}

section Alignment

theorem compl_and_self (h : mask < 2 ^ 32) : (2 ^ 32 - 1 - mask) &&& mask = 0 := by
  apply Nat.eq_of_testBit_eq
  intro i
  rw [Nat.sub_sub, Nat.add_comm 1 mask, Nat.testBit_and, Nat.testBit_two_pow_sub_succ h]
  cases mask.testBit i <;> simp

theorem alignUp_and (h : mask < 2 ^ 32) (start : ℕ) : alignUp start mask &&& mask = 0 := by
  unfold alignUp
  rw [Nat.and_assoc, compl_and_self h, Nat.and_zero]

/-- The upper bits of an address are its multiple of `2 ^ k`. -/
theorem and_high_bits (hk : k ≤ 32) (hx : x < 2 ^ 32) :
    x &&& (2 ^ 32 - 1 - (2 ^ k - 1)) = x / 2 ^ k * 2 ^ k := by
  have hpos := Nat.two_pow_pos k
  have hle : 2 ^ k ≤ 2 ^ 32 := Nat.pow_le_pow_right (by decide) hk
  apply Nat.eq_of_testBit_eq
  intro i
  rw [Nat.sub_sub, Nat.add_comm 1 (2 ^ k - 1), Nat.testBit_and,
    Nat.testBit_two_pow_sub_succ (by omega),
    Nat.testBit_mul_two_pow, Nat.testBit_div_two_pow, Nat.testBit_two_pow_sub_one]
  by_cases hi : k ≤ i
  · rw [Nat.sub_add_cancel hi]
    by_cases h32 : i < 32
    · simp [hi, h32]
    · have hzero : x.testBit i = false :=
        Nat.testBit_lt_two_pow (hx.trans_le (Nat.pow_le_pow_right (by decide) (not_lt.1 h32)))
      simp [hzero]
  · simp [hi, not_le.1 hi]

/-- A mask of `k` bits aligns an address to the next multiple of `2 ^ k`. -/
theorem alignUp_least (hk : k ≤ 32) (hx : x &&& (2 ^ k - 1) = 0) (hle : start ≤ x)
    (hlt : x < 2 ^ 32) : start ≤ alignUp start (2 ^ k - 1) ∧ alignUp start (2 ^ k - 1) ≤ x := by
  have hpos := Nat.two_pow_pos k
  rw [Nat.and_two_pow_sub_one_eq_mod] at hx
  obtain ⟨q, rfl⟩ := Nat.dvd_of_mod_eq_zero hx
  -- beyond the last multiple of `2 ^ k` there is no such `x`
  have hsum : start + (2 ^ k - 1) < 2 ^ 32 := by
    obtain ⟨d, hd⟩ := pow_dvd_pow 2 hk
    rw [hd] at hlt ⊢
    have hqd : q + 1 ≤ d := Nat.lt_of_mul_lt_mul_left hlt
    have := Nat.mul_le_mul_left (2 ^ k) hqd
    rw [Nat.mul_add, Nat.mul_one] at this
    omega
  unfold alignUp
  rw [Nat.mod_eq_of_lt hsum, and_high_bits hk hsum]
  have hdiv := Nat.div_add_mod (start + (2 ^ k - 1)) (2 ^ k)
  have hmod := Nat.mod_lt (start + (2 ^ k - 1)) hpos
  rw [Nat.mul_comm] at hdiv
  refine ⟨by omega, ?_⟩
  rw [Nat.mul_comm (2 ^ k) q]
  refine Nat.mul_le_mul_right _ (Nat.le_of_lt_succ ?_)
  rw [Nat.div_lt_iff_lt_mul hpos, Nat.succ_mul, Nat.mul_comm q]
  omega

end Alignment

section Search

/-- A request of the size and alignment may have the range from the address on. -/
structure FitsAt (m : VmMap) (size mask address : ℕ) : Prop where
  aligned : address &&& mask = 0
  lo : m.minOffset ≤ address
  hi : address + size ≤ m.maxOffset
  free : ∀ e ∈ m.entries, e.vmeEnd ≤ address ∨ address + size ≤ e.vmeStart

/-- The lowest address that fits, or none because nothing fits. -/
def Lowest (m : VmMap) (size mask : ℕ) : Option ℕ → Prop
  | some s => FitsAt m size mask s ∧ ∀ x, FitsAt m size mask x → s ≤ x
  | none => ∀ x, ¬ FitsAt m size mask x

theorem findSpace_aligned (hmask : mask < 2 ^ 32) {max s : ℕ} {before' after' : List VmMapEntry}
    (h : findSpace max size mask before after start = .found before' after' s) :
    s &&& mask = 0 := by
  induction after generalizing before start with
  | nil =>
    rw [findSpace] at h
    simp only at h
    split_ifs at h
    cases h
    exact alignUp_and hmask _
  | cons next rest ih =>
    rw [findSpace] at h
    simp only at h
    split_ifs at h
    · cases h
      exact alignUp_and hmask _
    · exact ih h

theorem Gap.fits (hg : Gap m before after start size) (ha : start &&& mask = 0) :
    FitsAt m size mask start := by
  refine ⟨ha, hg.lo, hg.hi, fun e he => ?_⟩
  rw [hg.split] at he
  rcases List.mem_append.1 he with he | he
  · exact .inl (hg.before e he)
  · exact .inr (hg.after e he)

theorem findSpace_start_le (ho : Loose after) (ha : ∀ e ∈ after, start ≤ e.vmeEnd) {max s : ℕ}
    (h : (findSpace max size mask before after start).start = some s) : start ≤ s := by
  induction after generalizing before start with
  | nil =>
    rw [findSpace] at h
    simp only at h
    split_ifs at h with hwrap
    · cases h
    · cases h
    · cases h
      exact not_lt.1 hwrap
  | cons next rest ih =>
    rw [findSpace] at h
    simp only at h
    split_ifs at h with hwrap
    · cases h
    · cases h
    · cases h
      exact not_lt.1 hwrap
    · refine (ha next List.mem_cons_self).trans (ih ho.tail (fun e he => ?_) h)
      exact (ho.stop_le he).trans (ho.le e (List.mem_cons_of_mem _ he))

/-- The search passes nothing that fits. -/
theorem findSpace_le (hmax : m.maxOffset < 2 ^ 32) (hk : k ≤ 32) (hx : FitsAt m size (2 ^ k - 1) x)
    (hl : m.entries = before ++ after) (hle : start ≤ x) :
    ∃ s, (findSpace m.maxOffset size (2 ^ k - 1) before after start).start = some s ∧ s ≤ x := by
  have hhi := hx.hi
  induction after generalizing before start with
  | nil =>
    obtain ⟨h₁, h₂⟩ := alignUp_least hk hx.aligned hle (by omega)
    have hmod : (alignUp start (2 ^ k - 1) + size) % 2 ^ 32 = alignUp start (2 ^ k - 1) + size :=
      Nat.mod_eq_of_lt (by omega)
    rw [findSpace]
    simp only
    rw [if_neg (by omega), hmod, if_neg (by omega)]
    exact ⟨_, rfl, h₂⟩
  | cons next rest ih =>
    obtain ⟨h₁, h₂⟩ := alignUp_least hk hx.aligned hle (by omega)
    have hmod : (alignUp start (2 ^ k - 1) + size) % 2 ^ 32 = alignUp start (2 ^ k - 1) + size :=
      Nat.mod_eq_of_lt (by omega)
    rw [findSpace]
    simp only
    rw [if_neg (by omega), hmod, if_neg (by omega)]
    by_cases hend : alignUp start (2 ^ k - 1) + size ≤ next.vmeStart
    · rw [if_pos hend]
      exact ⟨_, rfl, h₂⟩
    · -- the next entry starts before the end of what is tried, so `x` is behind it
      rw [if_neg hend]
      refine ih (by rw [hl, List.append_assoc, List.singleton_append]) ?_
      have := hx.free next (by rw [hl]; simp)
      omega

/-- The search finds the lowest address that fits, when nothing fits below its starting point. -/
theorem findSpace_lowest (hm : Laid m) (hk : k ≤ 32) (hsize : size < 2 ^ 32)
    (hl : m.entries = before ++ after) (hb : ∀ e ∈ before, e.vmeEnd ≤ start)
    (hlo : m.minOffset ≤ start) (hnone : ∀ x, FitsAt m size (2 ^ k - 1) x → start ≤ x) :
    Lowest m size (2 ^ k - 1)
    (findSpace m.maxOffset size (2 ^ k - 1) before after start).start := by
  have hmask : 2 ^ k - 1 < 2 ^ 32 := by
    have hle : 2 ^ k ≤ 2 ^ 32 := Nat.pow_le_pow_right (by decide) hk
    have := Nat.two_pow_pos k
    omega
  cases hspace : findSpace m.maxOffset size (2 ^ k - 1) before after start with
  | found b c s =>
    refine ⟨(findSpace_spec hm hsize hl hb hlo hspace).fits (findSpace_aligned hmask hspace),
      fun x hx => ?_⟩
    obtain ⟨s', hs', hle⟩ := findSpace_le hm.max_lt hk hx hl (hnone x hx)
    rw [hspace] at hs'
    cases hs'
    exact hle
  | wrapped =>
    intro x hx
    obtain ⟨s', hs', -⟩ := findSpace_le hm.max_lt hk hx hl (hnone x hx)
    rw [hspace] at hs'
    cases hs'
  | full =>
    intro x hx
    obtain ⟨s', hs', -⟩ := findSpace_le hm.max_lt hk hx hl (hnone x hx)
    rw [hspace] at hs'
    cases hs'

theorem fromFirstFree_total (h : Linked m.entries m.firstFree) :
    ∃ before after start, m.fromFirstFree = some (before, after, start) := by
  obtain ⟨⟨before, after⟩, hc⟩ : ∃ c, behind m.entries m.firstFree = some c := by
    cases hf : m.firstFree with
    | none => exact ⟨_, rfl⟩
    | some p =>
      rw [hf] at h
      obtain ⟨c, hc⟩ := cut_total h
      exact ⟨_, by rw [behind, hc]; rfl⟩
  unfold VmMap.fromFirstFree
  rw [hc, Option.bind_eq_bind, Option.bind_some]
  simp only
  split <;> exact ⟨_, _, _, rfl⟩

theorem fromFirstFree_after (hm : Laid m) (h : m.fromFirstFree = some (before, after, start)) :
    ∀ e ∈ after, start ≤ e.vmeStart := by
  unfold VmMap.fromFirstFree at h
  obtain ⟨⟨b, c⟩, hbehind, h⟩ := Option.bind_eq_some_iff.1 h
  have hsplit : b ++ c = m.entries := behind_spec hbehind
  simp only at h
  intro e he
  split at h
  · cases h
    exact hm.lo e (hsplit ▸ List.mem_append_right _ he)
  · rename_i last hlast
    cases h
    have ho := hm.loose
    rw [← hsplit] at ho
    exact (loose_append.1 ho).2.2 last (List.mem_of_getLast? hlast) e he

/-- `vm_map_enter` from the bottom of the map. -/
theorem enter_address (h : m.fromFirstFree = some (before, after, start)) (hany : r.anywhere = true)
    (ha : a ≤ m.minOffset) (hmax : m.minOffset ≤ m.maxOffset) (grows : Bool) : ∃ reply m',
    vmMapEnter m a r grows = some (reply, m') ∧
      reply.address = (findSpace m.maxOffset r.size r.mask before after start).start := by
  have hfirst : (if a < m.minOffset then m.minOffset else a) = m.minOffset := by
    split_ifs <;> omega
  unfold vmMapEnter vmMapEnterExit
  rw [if_pos hany]
  simp only
  rw [hfirst, if_neg (not_lt.2 hmax), VmMap.searchStart, if_pos rfl, h]
  simp only [Option.map_some, Option.bind_eq_bind, Option.bind_some]
  cases findSpace m.maxOffset r.size r.mask before after start with
  | found b c s => exact ⟨_, _, rfl, rfl⟩
  | wrapped => exact ⟨_, _, rfl, rfl⟩
  | full =>
    simp only
    split_ifs <;> exact ⟨_, _, rfl, rfl⟩

theorem enter_above_max (hany : r.anywhere = true) (ha : a ≤ m.minOffset)
    (hmax : m.maxOffset < m.minOffset)
    (grows : Bool) : vmMapEnter m a r grows = some (.error .noSpace, m) := by
  have hfirst : (if a < m.minOffset then m.minOffset else a) = m.minOffset := by
    split_ifs <;> omega
  unfold vmMapEnter vmMapEnterExit
  rw [if_pos hany]
  simp only
  rw [hfirst, if_pos hmax]
  rfl

theorem findEntry_address (h : m.fromFirstFree = some (before, after, start)) (size mask : ℕ)
    (object : MapObject) : ∃ found m', vmMapFindEntry m size mask object = some (found, m') ∧
      found.map (·.1) = (findSpace m.maxOffset size mask before after start).start := by
  unfold vmMapFindEntry
  rw [h, Option.bind_eq_bind, Option.bind_some]
  simp only
  cases findSpace m.maxOffset size mask before after start with
  | found b c s =>
    simp only
    split
    · split_ifs <;> exact ⟨_, _, rfl, rfl⟩
    · exact ⟨_, _, rfl, rfl⟩
  | wrapped => exact ⟨_, _, rfl, rfl⟩
  | full => exact ⟨_, _, rfl, rfl⟩

theorem copyout_address (h : m.fromFirstFree = some (before, after, start)) (c : VmMapCopy) :
    ∃ reply m', vmMapCopyout m c = some (reply, m') ∧
      reply.address =
      (findSpace m.maxOffset (copySpan c.offset c.size) 0 before after start).start.map
        fun s => (s + (c.offset - c.copyStart)) % 2 ^ 32 := by
  unfold vmMapCopyout
  rw [h, Option.bind_eq_bind, Option.bind_some]
  simp only
  cases findSpace m.maxOffset (copySpan c.offset c.size) 0 before after start with
  | found b c s => exact ⟨_, _, rfl, rfl⟩
  | wrapped =>
    simp only
    split_ifs <;> exact ⟨_, _, rfl, rfl⟩
  | full =>
    simp only
    split_ifs <;> exact ⟨_, _, rfl, rfl⟩

theorem copyoutPageListPlace_address (h : m.fromFirstFree = some (before, after, start))
    (size newObject : ℕ)
    (sole : Bool) : ∃ reply m', copyoutPageListPlace m size newObject sole = some (reply, m') ∧
      reply.address = (findSpace m.maxOffset size 0 before after start).start := by
  unfold copyoutPageListPlace
  rw [h, Option.bind_eq_bind, Option.bind_some]
  simp only
  cases findSpace m.maxOffset size 0 before after start with
  | found b c s =>
    simp only
    split
    · split_ifs <;> exact ⟨_, _, rfl, rfl⟩
    · exact ⟨_, _, rfl, rfl⟩
  | wrapped =>
    simp only
    split_ifs <;> exact ⟨_, _, rfl, rfl⟩
  | full =>
    simp only
    split_ifs <;> exact ⟨_, _, rfl, rfl⟩

end Search

section Wrap

/-- The addresses that a search from `x` on tries: `x`, and the end of each entry behind it. -/
def Tries (l : List VmMapEntry) (x s : ℕ) : Prop := s = x ∨ ∃ e ∈ l, x ≤ e.vmeStart ∧ s = e.vmeEnd

/-- The aligned range from `s` on lies below `top`, and an entry behind `s` starts before its
end. -/
def Passes (l : List VmMapEntry) (top size mask s : ℕ) : Prop :=
  s ≤ alignUp s mask ∧ alignUp s mask + size ≤ top ∧
    ∃ e ∈ l, s ≤ e.vmeStart ∧ e.vmeStart < alignUp s mask + size

/-- A search from `x` on comes to an address whose alignment is below it, and passes all before. -/
def Wraps (l : List VmMapEntry) (top size mask x : ℕ) : Prop :=
  ∃ s, Tries l x s ∧ alignUp s mask < s ∧ ∀ t < s, Tries l x t → Passes l top size mask t

theorem Tries.le {l : List VmMapEntry} {s : ℕ} (ho : Loose l) (h : Tries l x s) : x ≤ s := by
  rcases h with rfl | ⟨e, he, hle, rfl⟩
  · exact le_rfl
  · exact hle.trans (ho.le e he)

/-- The entries before `x` make no difference. -/
theorem wraps_append {top : ℕ} (ho : Ordered (before ++ after)) (hb : ∀ e ∈ before, e.vmeEnd ≤ x) :
    Wraps (before ++ after) top size mask x ↔ Wraps after top size mask x := by
  have hbehind : ∀ y, x ≤ y → ∀ e ∈ before ++ after, y ≤ e.vmeStart → e ∈ after := by
    intro y hy e he hle
    rcases List.mem_append.1 he with he | he
    · have := hb e he
      have := ho.left.nonempty e he
      simp only [start_entry, stop_entry] at this
      omega
    · exact he
  have htries : ∀ s, Tries (before ++ after) x s ↔ Tries after x s := by
    refine fun s => or_congr_right ⟨fun ⟨e, he, hle, hs⟩ => ?_, fun ⟨e, he, hle, hs⟩ => ?_⟩
    · exact ⟨e, hbehind x le_rfl e he hle, hle, hs⟩
    · exact ⟨e, List.mem_append_right _ he, hle, hs⟩
  have hpasses :
    ∀ s, x ≤ s → (Passes (before ++ after) top size mask s ↔ Passes after top size mask s) := by
    refine fun s hs => and_congr_right fun _ => and_congr_right fun _ => ?_
    refine ⟨fun ⟨e, he, hle, hlt⟩ => ?_, fun ⟨e, he, hle, hlt⟩ => ?_⟩
    · exact ⟨e, hbehind s hs e he hle, hle, hlt⟩
    · exact ⟨e, List.mem_append_right _ he, hle, hlt⟩
  refine exists_congr fun s => and_congr (htries s) (and_congr_right fun _ => ?_)
  refine forall_congr' fun t => imp_congr_right fun _ => ?_
  rw [htries t]
  exact imp_congr_right fun h => hpasses t (h.le ho.right.loose)

/-- What does not wrap goes on from the address that is passed to the end of the next entry. -/
theorem wraps_cons {top : ℕ} {e : VmMapEntry} (ho : Ordered (e :: after)) (hs : start ≤ e.vmeStart)
    (hle : start ≤ alignUp start mask) : Wraps (e :: after) top size mask start ↔
      Passes (e :: after) top size mask start ∧ Wraps after top size mask e.vmeEnd := by
  have he : e.vmeStart < e.vmeEnd := ho.nonempty e List.mem_cons_self
  have hrest : ∀ y ∈ after, e.vmeEnd ≤ y.vmeStart := fun y hy => ho.loose.stop_le hy
  have htail := (ordered_cons.1 ho).2.2
  -- what is tried from the end of the entry on, and what is tried from the start on
  have htries : ∀ s, Tries (e :: after) start s ↔ s = start ∨ Tries after e.vmeEnd s := by
    refine fun s => or_congr_right ⟨?_, ?_⟩
    · rintro ⟨y, hy, -, rfl⟩
      rcases List.mem_cons.1 hy with rfl | hy
      · exact .inl rfl
      · exact .inr ⟨y, hy, hrest y hy, rfl⟩
    · rintro (rfl | ⟨y, hy, hle, rfl⟩)
      · exact ⟨e, List.mem_cons_self, hs, rfl⟩
      · exact ⟨y, List.mem_cons_of_mem _ hy, by omega, rfl⟩
  have hpasses : ∀ s, e.vmeEnd ≤ s →
      (Passes (e :: after) top size mask s ↔ Passes after top size mask s) := by
    refine fun s hes => and_congr_right fun _ => and_congr_right fun _ => ?_
    refine ⟨fun ⟨y, hy, hys, hlt⟩ => ?_, fun ⟨y, hy, hys, hlt⟩ =>
      ⟨y, List.mem_cons_of_mem _ hy, hys, hlt⟩⟩
    rcases List.mem_cons.1 hy with rfl | hy
    · omega
    · exact ⟨y, hy, hys, hlt⟩
  constructor
  · rintro ⟨s, hts, hwrap, hall⟩
    rcases (htries s).1 hts with rfl | hts
    · omega
    · have hes := hts.le htail.loose
      refine ⟨hall start (by omega) (.inl rfl), s, hts, hwrap, fun t hlt htt => ?_⟩
      exact (hpasses t (htt.le htail.loose)).1 (hall t hlt ((htries t).2 (.inr htt)))
  · rintro ⟨hpass, s, hts, hwrap, hall⟩
    refine ⟨s, (htries s).2 (.inr hts), hwrap, fun t hlt htt => ?_⟩
    rcases (htries t).1 htt with rfl | htt
    · exact hpass
    · exact (hpasses t (htt.le htail.loose)).2 (hall t hlt htt)

theorem wraps_of_lt {top : ℕ} (ho : Loose after) (h : alignUp start mask < start) :
    Wraps after top size mask start :=
  ⟨start, .inl rfl, h, fun _ hlt ht => absurd (ht.le ho) (not_le.2 hlt)⟩

/-- The search comes to the alignment that wraps, for the addresses that it tries. -/
theorem findSpace_wrapped_iff {top : ℕ} (hmax : top < 2 ^ 32) (hsize : size < 2 ^ 32)
    (ho : Ordered after) (ha : ∀ e ∈ after, start ≤ e.vmeStart) :
    findSpace top size mask before after start = .wrapped ↔ Wraps after top size mask start := by
  induction after generalizing before start with
  | nil =>
    rw [findSpace]
    simp only
    split_ifs with hwrap
    · exact ⟨fun _ => wraps_of_lt loose_nil hwrap, fun _ => rfl⟩
    all_goals
      refine ⟨by rintro ⟨⟩, ?_⟩
      rintro ⟨s, rfl | ⟨e, he, -⟩, h, -⟩
      · exact absurd h hwrap
      · cases he
  | cons next rest ih =>
    have hnext := ha next List.mem_cons_self
    have hlt := alignUp_lt start mask
    rw [findSpace]
    simp only
    split_ifs with hwrap hfull hfound
    · exact ⟨fun _ => wraps_of_lt ho.loose hwrap, fun _ => rfl⟩
    · rw [wraps_cons ho hnext (not_lt.1 hwrap)]
      refine ⟨by rintro ⟨⟩, fun h => ?_⟩
      have := h.1.2.1
      omega
    · rw [wraps_cons ho hnext (not_lt.1 hwrap)]
      refine ⟨by rintro ⟨⟩, fun h => ?_⟩
      obtain ⟨-, htop, e, he, -, hlt'⟩ := h.1
      rcases List.mem_cons.1 he with rfl | he
      · omega
      · have : next.vmeStart ≤ e.vmeStart := ho.start_le he
        omega
    · have hrest : ∀ e ∈ rest, next.vmeEnd ≤ e.vmeStart := fun e he => ho.loose.stop_le he
      rw [wraps_cons ho hnext (not_lt.1 hwrap), ih (ordered_cons.1 ho).2.2 hrest]
      refine (and_iff_right ⟨not_lt.1 hwrap, by omega, next, List.mem_cons_self, hnext, ?_⟩).symm
      omega

/-- `p->vme_end`; a search from the header on begins at `min_offset`. -/
def VmMap.endOf (m : VmMap) : Option ℕ → Option ℕ
  | none => some m.minOffset
  | some p => (m.entries.find? fun e => decide (e.ptr = p)).map (·.vmeEnd)

/-- Where a search begins: at the bottom of the map it is the end of the `first_free` entry,
elsewhere the address, or the end of the entry that contains it. -/
def VmMap.begins (m : VmMap) (a : ℕ) : Option ℕ :=
  if a = m.minOffset then m.endOf m.firstFree
  else some (((regionAt m.entries a).map (·.vmeEnd)).getD a)

theorem cut_find {p : ℕ} {l : List VmMapEntry} {c : List VmMapEntry × List VmMapEntry}
    (h : cut p l = some c) : c.2.head? = l.find? fun e => decide (e.ptr = p) := by
  induction l generalizing c with
  | nil => cases h
  | cons e l ih =>
    rw [cut] at h
    split_ifs at h with hp
    · cases h
      simp [hp]
    · obtain ⟨d, hd, rfl⟩ := Option.map_eq_some_iff.1 h
      rw [List.find?_cons_of_neg (by simpa using hp), ← ih hd]

theorem fromFirstFree_endOf (h : m.fromFirstFree = some (before, after, start)) :
    m.endOf m.firstFree = some start := by
  unfold VmMap.fromFirstFree at h
  obtain ⟨⟨b, c⟩, hbehind, h⟩ := Option.bind_eq_some_iff.1 h
  unfold behind at hbehind
  split at hbehind
  · rename_i hfree
    cases hbehind
    cases h
    rw [hfree]
    rfl
  · rename_i p hfree
    obtain ⟨d, hcut, hd⟩ := Option.map_eq_some_iff.1 hbehind
    obtain ⟨-, e, rest, hrest, -⟩ := cut_spec hcut
    have hfind := cut_find hcut
    rw [hrest] at hfind hd
    cases hd
    obtain ⟨-, -, rfl⟩ : d.1 ++ [e] = before ∧ rest = after ∧ e.vmeEnd = start := by simpa using h
    rw [hfree, VmMap.endOf, ← hfind]
    rfl

/-- The search begins where `begins` says, with everything behind it still to come. -/
theorem searchStart_begins (hm : WellFormed m)
    (h : m.searchStart a = some ((before, after, start), m')) :
    m.begins a = some start ∧ ∀ e ∈ after, start ≤ e.vmeStart := by
  unfold VmMap.searchStart at h
  unfold VmMap.begins
  split_ifs at h ⊢ with hmin
  · obtain ⟨c, hc, h⟩ := Option.map_eq_some_iff.1 h
    cases h
    exact ⟨fromFirstFree_endOf hc, fromFirstFree_after hm.laid hc⟩
  · obtain ⟨⟨r, m₁⟩, hlook, h⟩ := Option.bind_eq_some_iff.1 h
    obtain ⟨hloc, -⟩ := lookup_spec hm.ordered.loose hlook
    have ho := hm.ordered
    rw [← hloc.split] at ho ⊢
    simp only at h
    split at h
    · rename_i e rest hf hafter
      obtain ⟨⟨rfl, rfl, rfl⟩, rfl⟩ : (r.before ++ [e] = before ∧ rest = after ∧ e.vmeEnd = start) ∧
        m₁ = m' := by
        simpa using h
      obtain ⟨e', rest', hafter', hcov⟩ := hloc.found hf
      obtain ⟨rfl, -⟩ := List.cons.inj (hafter.symm.trans hafter')
      rw [hafter] at ho ⊢
      rw [ho.regionAt_eq_some.2 ⟨by simp, hcov⟩]
      exact ⟨rfl, fun y hy => ho.right.loose.stop_le hy⟩
    · rename_i hnot
      obtain ⟨⟨rfl, rfl, rfl⟩, rfl⟩ : (r.before = before ∧ r.after = after ∧ a = start) ∧
        m₁ = m' := by
        simpa using h
      have hf : r.found = false := by
        by_contra hf
        obtain ⟨e, rest, hafter, -⟩ := hloc.found (by simpa using hf)
        exact hnot e rest (by simpa using hf) hafter
      rw [regionAt_append, regionAt_of_stop_le hloc.before, regionAt_of_lt_start (hloc.free hf)]
      exact ⟨rfl, fun e he => (hloc.free hf e he).le⟩

end Wrap

section Exits

/-- The search for space comes to an address whose alignment, in 32 bits, is below it. -/
def AlignmentWraps (m : VmMap) (a : ℕ) (r : EnterRequest) : Prop :=
  r.anywhere = true ∧ max m.minOffset a ≤ m.maxOffset ∧ ∃ x, m.begins (max m.minOffset a) = some x ∧
    Wraps m.entries m.maxOffset r.size r.mask x

/-- What is added: an entry of the request, or more of the entry in front of the range. -/
def EnterRequest.Maps (r : EnterRequest) (m : VmMap) (start : ℕ) (grows : Bool) (e : VmMapEntry) :
    Prop :=
  e = r.newEntry m.hdr.zone start (start + r.size) ∨ e ∈ m.entries ∧ r.extends e start grows = true

/-- The entry has what the request asks for. -/
def EnterRequest.Grants (r : EnterRequest) (e : VmMapEntry) : Prop :=
  e.protection = r.curProtection ∧ e.maxProtection = r.maxProtection ∧
    e.inheritance = r.inheritance ∧ e.wiredCount = 0

theorem EnterRequest.Maps.grants {e : VmMapEntry} (h : r.Maps m start grows e) : r.Grants e := by
  rcases h with rfl | ⟨-, h⟩
  · exact ⟨rfl, rfl, rfl, rfl⟩
  · simp only [EnterRequest.extends, decide_eq_true_eq] at h
    obtain ⟨-, -, -, -, hinh, hprot, hmax, hwired, -⟩ := h
    exact ⟨hprot, hmax, hinh, hwired⟩

/-- The exits of `vm_map_enter` but for the lock: an error changes nothing but the hint, and success
adds the range and nothing else. -/
structure EnterExit.Right (m : VmMap) (a : ℕ) (r : EnterRequest) (grows : Bool) (x : EnterExit) :
  Prop where
  failed : (∀ s, x.reply ≠ .success s) → x.map = m.saveHint x.map.hint
  entered : ∀ s, x.reply = .success s → FitsAt m r.size r.mask s ∧ (r.anywhere = false → s = a) ∧
    ∃ e, r.Maps m s grows e ∧ r.Grants e ∧ ∀ y, x.map.denote y =
      if s ≤ y ∧ y < s + r.size then some (e.page y) else m.denote y

theorem Gap.denote_insert (hg : Gap m before after start size) {e : VmMapEntry}
    (hs : e.vmeStart = start)
    (he : e.vmeEnd = start + size) (y : ℕ) : pageAt (before ++ e :: after) y =
      if start ≤ y ∧ y < start + size then some (e.page y) else m.denote y := by
  have hafter : ∀ e ∈ after, start ≤ e.vmeStart := fun e he => by
    have := hg.after e he
    omega
  have hcov : Covers e y ↔ start ≤ y ∧ y < start + size := by
    unfold Covers
    simp only [start_entry, stop_entry, hs, he]
  unfold VmMap.denote
  rw [hg.split, pageAt_append hg.before hafter,
    pageAt_append hg.before (List.forall_mem_cons.2 ⟨hs.ge, hafter⟩), pageAt_cons]
  by_cases hy : y < start
  · rw [if_pos hy, if_pos hy, if_neg (by omega)]
  · rw [if_neg hy, if_neg hy]
    by_cases hin : start ≤ y ∧ y < start + size
    · rw [if_pos hin, if_pos (hcov.2 hin)]
    · rw [if_neg hin, if_neg (mt hcov.1 hin)]

theorem Gap.denote_extend (hg : Gap m before after start size) (hm : Laid m) {e : VmMapEntry}
    (hlast : before.getLast? = some e) (hend : e.vmeEnd = start) (y : ℕ) :
    pageAt (before.dropLast ++ { e with vmeEnd := start + size } :: after) y =
      if start ≤ y ∧ y < start + size then some (e.page y) else m.denote y := by
  have hl : m.entries = before.dropLast ++ e :: after := by
    rw [hg.split]
    nth_rewrite 1 [dropLast_append_of_getLast hlast]
    simp
  have ho := hm.loose
  rw [hl] at ho
  have hle : e.vmeStart ≤ e.vmeEnd := ho.le e (by simp)
  have hbefore : ∀ x ∈ before.dropLast, x.vmeEnd ≤ e.vmeStart := fun x hx =>
    (loose_append.1 ho).2.2 x hx e List.mem_cons_self
  have hafter : ∀ x ∈ after, e.vmeStart ≤ x.vmeStart := fun x hx => ho.right.start_le hx
  have hcov : Covers e y ↔ e.vmeStart ≤ y ∧ y < start := by
    unfold Covers
    simp only [start_entry, stop_entry, hend]
  have hcov' : Covers { e with vmeEnd := start + size } y ↔ e.vmeStart ≤ y ∧ y < start + size :=
    Iff.rfl
  have hsplit : ∀ n : VmMapEntry, n.vmeStart = e.vmeStart →
      pageAt (before.dropLast ++ n :: after) y =
      if y < e.vmeStart then pageAt before.dropLast y else pageAt (n :: after) y := fun n hn =>
    pageAt_append hbefore (List.forall_mem_cons.2 ⟨hn.ge, hafter⟩) y
  unfold VmMap.denote
  rw [hl, hsplit e rfl, hsplit { e with vmeEnd := start + size } rfl, pageAt_cons, pageAt_cons]
  by_cases hy : y < e.vmeStart
  · rw [if_pos hy, if_pos hy, if_neg (by omega)]
  rw [if_neg hy, if_neg hy]
  by_cases hin : start ≤ y ∧ y < start + size
  · rw [if_pos hin, if_pos (hcov'.2 (by omega))]
    rfl
  rw [if_neg hin]
  by_cases hlt : y < start
  · rw [if_pos (hcov.2 (by omega)), if_pos (hcov'.2 (by omega))]
    rfl
  · rw [if_neg (mt hcov.1 (by omega)), if_neg (mt hcov'.1 (by omega))]

theorem place_denote (hm : Laid m) (hg : Gap m before after start r.size) (grows : Bool) :
    ∃ e, r.Maps m start grows e ∧ ∀ y, (m.place before after start r grows).denote y =
      if start ≤ y ∧ y < start + r.size then some (e.page y) else m.denote y := by
  have hmod := hg.mod_eq hm
  have hinsert : ∃ e, r.Maps m start grows e ∧ ∀ y,
      (m.insertEntry before after start (start + r.size) r).denote y =
        if start ≤ y ∧ y < start + r.size then some (e.page y) else m.denote y :=
    ⟨_, .inl rfl, fun y => hg.denote_insert rfl rfl y⟩
  unfold VmMap.place
  rw [hmod]
  simp only
  split
  · rename_i entry hlast
    split_ifs with hext
    · have hend : entry.vmeEnd = start := by
        simp only [EnterRequest.extends, decide_eq_true_eq] at hext
        exact hext.2.1
      refine ⟨entry, .inr ⟨?_, hext⟩, fun y => hg.denote_extend hm hlast hend y⟩
      rw [hg.split]
      exact List.mem_append_left _ (List.mem_of_getLast? hlast)
    · exact hinsert
  · exact hinsert

theorem searchStart_total (hc : CachesLinked m) (a : ℕ) : ∃ c, m.searchStart a = some c := by
  unfold VmMap.searchStart
  split_ifs
  · obtain ⟨before, after, start, h⟩ := fromFirstFree_total hc.2
    exact ⟨_, by rw [h]; rfl⟩
  · obtain ⟨l, m₁, hlook⟩ := lookup_total hc.1 a
    rw [hlook, Option.bind_eq_bind, Option.bind_some]
    simp only
    split <;> exact ⟨_, rfl⟩

theorem first_eq_max (m : VmMap) (a : ℕ) : (if a < m.minOffset then m.minOffset else a) =
    max m.minOffset a := by
  split_ifs <;> omega

/-- The exit at the alignment is the one that leaves the map locked. -/
theorem enterExit_locked (hm : WellFormed m) (hc : CachesLinked m) (a : ℕ) {r : EnterRequest}
    (hsize : r.size < 2 ^ 32) (grows : Bool) : ∃ x, vmMapEnterExit m a r grows = some x ∧
      (x.locked = true ↔ AlignmentWraps m a r) := by
  unfold vmMapEnterExit AlignmentWraps
  cases hany : r.anywhere with
  | true =>
    simp only [if_true, first_eq_max, true_and]
    by_cases hmax : m.maxOffset < max m.minOffset a
    · rw [if_pos hmax]
      exact ⟨_, rfl, by simp, fun h => absurd h.1 (not_le.2 hmax)⟩
    · obtain ⟨⟨⟨before, after, start⟩, m₁⟩, hs⟩ := searchStart_total hc (max m.minOffset a)
      obtain ⟨hhint, hl, hb, -⟩ := searchStart_spec hm.laid (le_max_left _ a) hs
      obtain ⟨hbegins, ha⟩ := searchStart_begins hm hs
      have ho := hm.ordered
      rw [hhint.entries] at hl
      rw [hl] at ho
      have hiff : findSpace m.maxOffset r.size r.mask before after start = .wrapped ↔
          Wraps after m.maxOffset r.size r.mask start :=
          findSpace_wrapped_iff hm.max_lt hsize ho.right ha
      rw [← wraps_append ho hb, ← hl] at hiff
      rw [if_neg hmax, hs]
      simp only [Option.bind_eq_bind, Option.bind_some, hhint.maxOffset, hbegins, Option.some.injEq,
        exists_eq_left', not_lt.1 hmax, true_and, ← hiff]
      cases findSpace m.maxOffset r.size r.mask before after start with
      | found b c s => exact ⟨_, rfl, by simp⟩
      | wrapped => exact ⟨_, rfl, by simp⟩
      | full =>
        simp only
        split_ifs <;> exact ⟨_, rfl, by simp⟩
  | false =>
    simp only [Bool.false_eq_true, if_false, false_and, iff_false]
    split_ifs
    · exact ⟨_, rfl, by simp⟩
    · exact ⟨_, rfl, by simp⟩
    · obtain ⟨l, m₁, hlook⟩ := lookup_total hc.1 a
      rw [hlook]
      simp only [Option.bind_eq_bind, Option.bind_some]
      split_ifs
      · exact ⟨_, rfl, by simp⟩
      · split
        · exact ⟨_, rfl, by simp⟩
        · split_ifs <;> exact ⟨_, rfl, by simp⟩

/-- Where `vm_map_enter` puts a request, it is aligned. -/
theorem enterExit_aligned (hmask : r.mask < 2 ^ 32) {x : EnterExit} {s : ℕ}
    (h : vmMapEnterExit m a r grows = some x) (hs : x.reply = .success s) : s &&& r.mask = 0 := by
  unfold vmMapEnterExit at h
  cases hany : r.anywhere with
  | true =>
    rw [if_pos hany] at h
    simp only at h
    generalize (if a < m.minOffset then m.minOffset else a) = first at h
    by_cases hmax : m.maxOffset < first
    · rw [if_pos hmax] at h
      cases h
      cases hs
    rw [if_neg hmax] at h
    obtain ⟨⟨⟨before, after, start⟩, m₁⟩, -, h⟩ := Option.bind_eq_some_iff.1 h
    simp only at h
    split at h
    · cases h
      cases hs
    · split_ifs at h <;> obtain rfl := Option.some.inj h <;> cases hs
    · rename_i hspace
      cases h
      cases hs
      exact findSpace_aligned hmask hspace
  | false =>
    rw [if_neg (by simp [hany])] at h
    by_cases hbits : a &&& r.mask ≠ 0
    · rw [if_pos hbits] at h
      cases h
      cases hs
    · rw [if_neg hbits] at h
      simp only at h
      obtain rfl : a = s := by
        split_ifs at h
        · cases h
          cases hs
        · obtain ⟨⟨l, m₁⟩, -, h⟩ := Option.bind_eq_some_iff.1 h
          simp only at h
          split_ifs at h
          · cases h
            cases hs
          · split at h
            · cases h
              exact Reply.success.inj hs
            · split_ifs at h <;> obtain rfl := Option.some.inj h
              · cases hs
              · exact Reply.success.inj hs
      exact not_not.1 hbits

/-- Each exit of `vm_map_enter` is right, and it leaves the map unlocked if and only if the search
comes to no address whose alignment wraps. -/
theorem enter_exits (hm : WellFormed m) (hc : CachesLinked m) (a : ℕ) {r : EnterRequest}
    (hsize : r.size < 2 ^ 32)
    (hmask : r.mask < 2 ^ 32) (grows : Bool) : ∃ x, vmMapEnterExit m a r grows = some x ∧
      x.Right m a r grows ∧ (x.locked = false ↔ ¬ AlignmentWraps m a r) := by
  obtain ⟨x, hx, hlocked⟩ := enterExit_locked hm hc a hsize grows
  have henter : vmMapEnter m a r grows = some (x.reply, x.map) := by
    unfold vmMapEnter
    rw [hx]
    rfl
  refine ⟨x, hx, ⟨fun hfail => ?_, fun s hs => ?_⟩, by rw [← hlocked, Bool.not_eq_true]⟩
  · obtain ⟨m₁, hhint, ⟨hmap, -⟩ | ⟨_, _, start, -, -, hreply, -⟩⟩ :=
      enter_spec hm.laid hsize henter
    · rw [hmap]
      exact hhint.eq
    · exact absurd hreply (hfail start)
  · obtain ⟨m₁, hhint, ⟨-, hno⟩ | ⟨before, after, start, hg, hat, hreply, hmap⟩⟩ :=
      enter_spec hm.laid hsize henter
    · exact absurd hs (hno s)
    · obtain rfl : start = s := Reply.success.inj (hreply.symm.trans hs)
      have hfits := hg.fits (enterExit_aligned hmask hx hs)
      obtain ⟨e, he, hdenote⟩ := place_denote (hhint.laid hm.laid) hg grows
      rw [hhint.eq] at hfits he
      refine ⟨⟨hfits.aligned, hfits.lo, hfits.hi, hfits.free⟩, hat, e, he, he.grants, fun y => ?_⟩
      rw [hmap, hdenote y, VmMap.denote, hhint.entries]
      rfl

/-- A page behind the four of the map is entered without an exit that keeps the lock. -/
theorem enter_exits_gapMap : ∃ x, vmMapEnterExit gapMap 32768 (allocateRequest 4096 true) false =
    some x ∧ x.Right gapMap 32768 (allocateRequest 4096 true) false ∧ x.locked = false := by
  obtain ⟨x, hx, hright, -⟩ := enter_exits gapMap_wellFormed gapMap_cachesLinked 32768
    (r := allocateRequest 4096 true) (by decide) (by decide) false
  have hlocked : (vmMapEnterExit gapMap 32768 (allocateRequest 4096 true) false).map (·.locked) =
    some false := by
    decide
  rw [hx] at hlocked
  exact ⟨x, hx, hright, Option.some.inj hlocked⟩

/-- A mask of all bits aligns every address to 0. -/
theorem masked_enter_keeps_lock : WellFormed gapMap ∧ CachesLinked gapMap ∧
    ∃ x, vmMapEnterExit gapMap 4096 { allocateRequest 4096 true with mask := 2 ^ 32 - 1 } false =
      some x ∧ x.reply = .error .noSpace ∧ x.locked = true := by
  have h : (vmMapEnterExit gapMap 4096 { allocateRequest 4096 true with
    mask := 2 ^ 32 - 1 } false).map
      (fun x => (x.reply, x.locked)) = some (.error .noSpace, true) := by decide
  obtain ⟨x, hx, h⟩ := Option.map_eq_some_iff.1 h
  obtain ⟨hreply, hlocked⟩ := Prod.mk.inj h
  exact ⟨gapMap_wellFormed, gapMap_cachesLinked, x, hx, hreply, hlocked⟩

end Exits

end XMach.Vm
