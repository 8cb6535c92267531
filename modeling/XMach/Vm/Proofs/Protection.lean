import XMach.Vm.Proofs.Trim
import XMach.Vm.Protection

/-!
# Protections stay within their maximum

The calls that put memory into a map replace some entries by others between two addresses
(`Kept.replace`), and the others trim it. Both keep the order of the map, so that a lookup finds
what it should, and both keep the bound on protections and give no page more than it had.
-/

namespace XMach.Vm

open Region

variable {V : Type} {m m' : VmMap} {l before after rest : List VmMapEntry} {e c : VmMapEntry}
  {a end_ size : ℕ} {reply : Reply} {newProt : VmProt} {stays : VmMapEntry → Bool} {w : Bool}

section Kept

/-- No page that is mapped before and after has got a right. -/
def NoGain (l l' : List VmMapEntry) : Prop :=
  ∀ a, ∀ e ∈ l, ∀ e' ∈ l', Covers e a → Covers e' a → Subset e'.maxProtection e.maxProtection

/-- What each call comes to. -/
structure Kept (m m' : VmMap) : Prop where
  laid : Laid m'
  noGain : NoGain m.entries m'.entries
  bounded : (∀ e ∈ m.entries, e.Bounded) → ∀ e ∈ m'.entries, e.Bounded

theorem Trim.kept (h : Trim m.entries m'.entries) (hm : Laid m) (hmin : m'.minOffset = m.minOffset)
    (hmax : m'.maxOffset = m.maxOffset) : Kept m m' := by
  refine ⟨⟨h.loose hm.loose, fun c hc => ?_, hmax ▸ hm.max_lt⟩, fun a e he c hc hea hca => ?_,
    fun hb c hc => ?_⟩
  · obtain ⟨e, he, hu⟩ := h.under c hc
    rw [hmin]
    exact (hm.lo e he).trans hu.start_le
  · -- the entry that it lies under covers the page as well, and no other one does
    obtain ⟨e₀, he₀, hu⟩ := h.under c hc
    have hcov : Covers e₀ a := ⟨hu.start_le.trans hca.1, lt_of_lt_of_le hca.2 hu.end_le⟩
    obtain rfl := hm.loose.eq_of_covers he he₀ hea hcov
    exact hu.narrower.max (lt_of_le_of_lt hca.1 hca.2)
  · obtain ⟨e, he, hu⟩ := h.under c hc
    exact hu.narrower.bounded (hb e he)

theorem OnlyHint.kept (h : OnlyHint m m') (hm : Laid m) : Kept m m' :=
  Trim.kept (by rw [h.entries]; exact .refl _) hm h.minOffset h.maxOffset

/-- The hint makes no difference to what a call comes to. -/
theorem OnlyHint.kept_trans {m₁ : VmMap} (h : OnlyHint m m₁) (hk : Kept m₁ m') : Kept m m' :=
  ⟨hk.laid, h.entries ▸ hk.noGain, h.entries ▸ hk.bounded⟩

/-- Entries between two addresses become others, which have no more rights where there were some. -/
theorem Kept.replace (hm : Laid m) (mid mid' : List VmMapEntry) (lo hi : ℕ)
    (hl : m.entries = before ++ (mid ++ after)) (hl' : m'.entries = before ++ (mid' ++ after))
    (hmin : m'.minOffset = m.minOffset) (hmax : m'.maxOffset = m.maxOffset) (hloose : Loose mid')
    (hin : ∀ y ∈ mid', lo ≤ y.vmeStart ∧ y.vmeEnd ≤ hi) (hb : ∀ x ∈ before, x.vmeEnd ≤ lo)
    (ha : ∀ x ∈ after, hi ≤ x.vmeStart) (hlo : m.minOffset ≤ lo) (hle : lo ≤ hi)
    (hmid : ∀ x ∈ mid, ∀ y ∈ mid', Subset y.maxProtection x.maxProtection)
    (hbound : (∀ e ∈ m.entries, e.Bounded) → ∀ y ∈ mid', y.Bounded) : Kept m m' := by
  have ho := hm.loose
  rw [hl] at ho
  obtain ⟨hob, hoa, -⟩ := loose_append.1 ho
  have hold : ∀ y ∈ m'.entries, y ∈ mid' ∨ y ∈ m.entries := fun y hy => by
    rw [hl'] at hy
    rw [hl]
    simp only [List.mem_append] at hy ⊢
    tauto
  refine ⟨⟨?_, fun y hy => ?_, hmax ▸ hm.max_lt⟩, fun a x hx y hy hxa hya => ?_, fun hbd y hy => ?_⟩
  · rw [hl']
    refine loose_append.2 ⟨hob, loose_append.2 ⟨hloose, hoa.right, fun x hx y hy => ?_⟩,
      fun x hx y hy => ?_⟩
    · exact (hin x hx).2.trans (ha y hy)
    · rcases List.mem_append.1 hy with hy | hy
      · exact (hb x hx).trans (hin y hy).1
      · exact (hb x hx).trans (hle.trans (ha y hy))
  · rw [hmin]
    rcases hold y hy with hy | hy
    · exact hlo.trans (hin y hy).1
    · exact hm.lo y hy
  · rcases hold y hy with hy | hy
    · have hyin := hin y hy
      have hx' := hx
      simp only [hl, List.mem_append] at hx'
      have hya₁ := hya.1
      have hya₂ := hya.2
      have hxa₁ := hxa.1
      have hxa₂ := hxa.2
      simp only [start_entry, stop_entry] at hya₁ hya₂ hxa₁ hxa₂
      rcases hx' with hx' | hx' | hx'
      · have := hb x hx'
        omega
      · exact hmid x hx' y hy
      · have := ha x hx'
        omega
    · obtain rfl := hm.loose.eq_of_covers hx hy hxa hya
      exact .refl _
  · rcases hold y hy with hy | hy
    · exact hbound hbd y hy
    · exact hbd y hy

variable {start size : ℕ}

theorem adopt_bounded (adjustment : ℕ) (l : List VmMapEntry) (n : ℕ) :
    ∀ e ∈ adopt adjustment l n, e.Bounded := by
  induction l generalizing n with
  | nil => simp [adopt]
  | cons c l ih => exact List.forall_mem_cons.2 ⟨subset_default, ih (n + 1)⟩

theorem Gap.insert_kept (hg : Gap m before after start size) (hm : Laid m) (hs : e.vmeStart = start)
    (he : e.vmeEnd = start + size) (hb : e.Bounded) (hentries : m'.entries = before ++ e :: after)
    (hmin : m'.minOffset = m.minOffset) (hmax : m'.maxOffset = m.maxOffset) : Kept m m' := by
  refine .replace hm []
    [e] start (start + size) hg.split hentries hmin hmax (loose_singleton ?_) ?_ hg.before
    hg.after hg.lo (Nat.le_add_right _ _) (by simp) fun _ => by simpa using hb
  · simp only [start_entry, stop_entry]
    omega
  · intro y hy
    obtain rfl := List.mem_singleton.1 hy
    omega

theorem Gap.extend_kept (hg : Gap m before after start size) (hm : Laid m)
    (hlast : before.getLast? = some e)
    (hend : e.vmeEnd = start) (hs : c.vmeStart = e.vmeStart) (he : c.vmeEnd = start + size)
    (hp : c.protection = e.protection) (hmaxp : c.maxProtection = e.maxProtection)
    (hentries : m'.entries = before.dropLast ++ c :: after) (hmin : m'.minOffset = m.minOffset)
    (hmax : m'.maxOffset = m.maxOffset) : Kept m m' := by
  have hl : m.entries = before.dropLast ++ ([e] ++ after) := by
    rw [hg.split, ← List.append_assoc, ← dropLast_append_of_getLast hlast]
  have hmem : e ∈ m.entries := by rw [hl]; simp
  have hle := hm.loose.le e hmem
  simp only [start_entry, stop_entry] at hle
  have ho := hm.loose
  rw [hl] at ho
  refine .replace hm [e] [c] e.vmeStart (start + size) hl hentries hmin hmax (loose_singleton ?_) ?_
    (fun x hx => (loose_append.1 ho).2.2 x hx e (by simp)) hg.after (hm.lo e hmem) (by omega) ?_ ?_
  · simp only [start_entry, stop_entry]
    omega
  · intro y hy
    obtain rfl := List.mem_singleton.1 hy
    omega
  · intro x hx y hy
    obtain rfl := List.mem_singleton.1 hx
    obtain rfl := List.mem_singleton.1 hy
    rw [hmaxp]
    exact .refl _
  · intro hb y hy
    obtain rfl := List.mem_singleton.1 hy
    exact (Narrower.of_eq hp hmaxp).bounded (hb e hmem)

theorem enter_kept (hm : Laid m) {r : EnterRequest} (hsize : r.size < 2 ^ 32) {grows : Bool}
    (hb : ∀ x, reply = .success x → Subset r.curProtection (r.maxProtection ||| vmProtNotify))
    (h : vmMapEnter m a r grows = some (reply, m')) : Kept m m' := by
  obtain ⟨m₁, hhint, ⟨rfl, -⟩ | ⟨before, after, start, hg, -, hreply, rfl⟩⟩ := enter_spec hm hsize h
  · exact hhint.kept hm
  have hm₁ := hhint.laid hm
  have hmod := hg.mod_eq hm₁
  have hinsert : Kept m₁ (m₁.insertEntry before after start ((start + r.size) % 2 ^ 32) r) :=
    hg.insert_kept hm₁ (e := r.newEntry m₁.hdr.zone start ((start + r.size) % 2 ^ 32)) rfl hmod
      (hb start hreply) rfl rfl rfl
  refine hhint.kept_trans ?_
  unfold VmMap.place
  split
  · rename_i entry hlast
    split_ifs with hext
    · have hend : entry.vmeEnd = start := by
        simp only [EnterRequest.extends, decide_eq_true_eq] at hext
        exact hext.2.1
      exact hg.extend_kept hm₁ hlast hend (c := { entry with vmeEnd := (start + r.size) % 2 ^ 32 })
        rfl hmod rfl rfl
        rfl rfl rfl
    · exact hinsert
  · exact hinsert

theorem copyout_kept (hm : Laid m) {c : VmMapCopy} (hc : c.Valid)
    (h : vmMapCopyout m c = some (reply, m')) : Kept m m' := by
  obtain rfl | ⟨before, after, start, _, hg, -, rfl, rfl⟩ := copyout_spec hm h
  · exact (Trim.refl _).kept hm rfl rfl
  · obtain ⟨hord, hin, -⟩ := (copyout_tiles hc hg hm.max_lt m.hdr.zone).ordered
    exact .replace hm [] _ start _ hg.split (by simp) rfl rfl hord.loose hin hg.before
      hg.after hg.lo
      (Nat.le_add_right _ _) (by simp) fun _ => adopt_bounded _ _ _

theorem copyoutPageListPlace_kept (hm : Laid m) (hsize : size < 2 ^ 32) {object : ℕ} {sole : Bool}
    (h : copyoutPageListPlace m size object sole = some (reply, m')) : Kept m m' := by
  obtain ⟨rfl, -⟩ | ⟨before, after, start, hg, -, -, rfl | ⟨last, hlast, htakes, rfl⟩⟩ :=
    copyoutPageListPlace_spec hm hsize h
  · exact (Trim.refl _).kept hm rfl rfl
  · exact hg.insert_kept hm (e :=
      pagesEntry m.hdr.zone start ((start + size) % 2 ^ 32) object m.wiringRequired)
      rfl (hg.mod_eq hm) subset_default rfl rfl rfl
  · have hend : last.vmeEnd = start := by
      simp only [VmMapEntry.takesPages, decide_eq_true_eq] at htakes
      exact htakes.1
    obtain ⟨hs, he⟩ := withPages_bounds (e := last) ((start + size) % 2 ^ 32) object
    have hbits : (last.withPages ((start + size) % 2 ^ 32) object).protection = last.protection ∧
        (last.withPages ((start + size) % 2 ^ 32) object).maxProtection = last.maxProtection := by
      unfold VmMapEntry.withPages
      split <;> exact ⟨rfl, rfl⟩
    exact hg.extend_kept hm hlast hend hs (he.trans (hg.mod_eq hm)) hbits.1 hbits.2 rfl rfl rfl

theorem simplify_kept (hm : Laid m) (h : vmMapSimplify m a = some m') : Kept m m' := by
  obtain ⟨m₁, hhint, rfl | ⟨before, prev, this, rest, hl, hs, hsame, rfl⟩⟩ :=
    simplify_cases hm.loose h
  · exact hhint.kept hm
  have hm₁ := hhint.laid hm
  change m₁.entries = before ++ ([prev, this] ++ rest) at hl
  simp only [VmMapEntry.mergesWith, decide_eq_true_eq] at hsame
  obtain ⟨-, -, -, -, -, hp, hmax, -⟩ := hsame
  have ho := hm₁.loose
  rw [hl] at ho
  obtain ⟨-, hop, hbp⟩ := loose_append.1 ho
  have hadj := hop.stop_le (List.mem_append_left rest (List.mem_singleton_self this))
  have hple := hop.le prev (by simp)
  have htle := hop.le this (by simp)
  simp only [start_entry, stop_entry] at hadj hple htle
  have hmem : prev ∈ m₁.entries := by rw [hl]; simp
  refine hhint.kept_trans (.replace hm₁ [prev, this] [{ prev with vmeEnd := this.vmeEnd }]
    prev.vmeStart
    this.vmeEnd hl rfl rfl rfl (loose_singleton ?_) ?_ (fun x hx => hbp x hx prev (by simp))
    (fun x hx => hop.tail.stop_le hx) (hm₁.lo prev hmem) (by omega) ?_ ?_)
  · simp only [start_entry, stop_entry]
    omega
  · intro y hy
    obtain rfl := List.mem_singleton.1 hy
    exact ⟨le_rfl, le_rfl⟩
  · intro x hx y hy
    obtain rfl := List.mem_singleton.1 hy
    simp only [List.mem_cons, List.not_mem_nil, or_false] at hx
    rcases hx with rfl | rfl
    · exact .refl _
    · rw [← hmax]
      exact .refl _
  · intro hb y hy
    obtain rfl := List.mem_singleton.1 hy
    exact hb prev hmem

/-- The first pass of `vm_map_protect` has looked at every entry of the range. -/
theorem protectCheck_spec (ho : Loose l) (h : protectCheck end_ newProt l = none) :
    ∀ e ∈ l, e.vmeStart < end_ → Subset newProt (vmProtNotify ||| e.maxProtection) := by
  induction l with
  | nil => simp
  | cons e l ih =>
    unfold protectCheck at h
    split_ifs at h with hlt hsub hprot
    · refine List.forall_mem_cons.2 ⟨fun _ => subset_iff.2 fun i hi => ?_, ih ho.tail h⟩
      rw [not_not] at hprot
      have := congrArg (fun p : VmProt => p.getLsbD i) hprot
      simpa [hi] using this
    · intro x hx hxlt
      rcases List.mem_cons.1 hx with rfl | hx
      · exact absurd hxlt hlt
      · have := ho.start_le hx
        simp only [start_entry] at this
        omega

theorem setProtection_narrower {setMax : Bool}
    (hp : Subset newProt (vmProtNotify ||| c.maxProtection))
    (hn : setMax = true → c.vmeStart < c.vmeEnd →
    Subset (newProt &&& vmProtNotify) c.maxProtection) :
    Narrower c (c.setProtection newProt setMax) := by
  cases setMax with
  | true =>
    refine ⟨fun hlt => subset_iff.2 fun i hi => ?_, fun _ => subset_iff.2 fun i hi => ?_⟩
    · have h₁ := subset_iff.1 hp i hi
      have h₂ := subset_iff.1 (hn rfl hlt) i
      simp only [VmMapEntry.setProtection, if_true] at hi
      simp only [BitVec.getLsbD_or, BitVec.getLsbD_and, hi, Bool.true_and, Bool.or_eq_true] at h₁ h₂
      exact h₁.elim h₂ id
    · simp only [VmMapEntry.setProtection, if_true, BitVec.getLsbD_and, BitVec.getLsbD_or,
        Bool.and_eq_true, Bool.or_eq_true] at hi ⊢
      exact .inl hi.1
  | false =>
    refine ⟨fun _ => .refl _, fun _ => ?_⟩
    have hcomm : vmProtNotify ||| c.maxProtection = c.maxProtection ||| vmProtNotify :=
      BitVec.or_comm _ _
    rw [hcomm] at hp
    exact hp

theorem protect_kept (hm : Laid m) {setMax : Bool} {kr : KernReturn}
    (hn : setMax = true → kr = .success → ∀ e ∈ m.entries,
      e.Meets (m.rangeCheck start end_).1 (m.rangeCheck start end_).2 →
      Subset (newProt &&& vmProtNotify) e.maxProtection)
    (h : vmMapProtect m start end_ newProt setMax = some (kr, m')) : Kept m m' := by
  unfold vmMapProtect at h
  simp only at h
  obtain ⟨⟨r, m₁⟩, hseek, h⟩ := Option.bind_eq_some_iff.1 h
  have hs := seek_cleared hm.loose hseek
  simp only at h
  split at h
  · cases h
    exact hs.trim.kept hm hs.minOffset hs.maxOffset
  · rename_i hcheck
    cases h
    have ht := hs.trim
    rw [← hs.split] at ht
    have ho := (ht.loose hm.loose).right
    refine (ht.trans
      (.behind _ (forRange_trim (keepsBounds_setProtection newProt setMax) ho ?_ _))).kept hm
      hs.minOffset hs.maxOffset
    intro x hx c hlt hcs hce hcp hcm
    refine setProtection_narrower (hcm ▸ protectCheck_spec ho hcheck x hx hlt) fun hmax hne => ?_
    -- what the entry was cut from has a page in the range
    obtain ⟨e, he, hu, heq⟩ := hs.same x (by rw [← hs.split]; exact List.mem_append_right _ hx)
    have hafter := hs.after x hx
    have hue := hu.end_le
    have hus := hu.start_le
    rw [hcm, heq]
    exact hn hmax rfl e he (by unfold VmMapEntry.Meets; omega)

theorem inherit_kept (hm : Laid m) {new : VmInherit} {kr : KernReturn}
    (h : vmMapInherit m start end_ new = some (kr, m')) : Kept m m' := by
  unfold vmMapInherit at h
  simp only at h
  obtain ⟨⟨r, m₁⟩, hseek, h⟩ := Option.bind_eq_some_iff.1 h
  have hs := seek_cleared hm.loose hseek
  cases h
  have ht := hs.trim
  rw [← hs.split] at ht
  exact (ht.trans
    (.behind _ (forRange_trim (keepsBounds_setInheritance new) (ht.loose hm.loose).right
    (fun _ _ _ _ _ _ _ _ => .of_eq rfl rfl) _))).kept hm hs.minOffset hs.maxOffset

theorem projectedBufferInRange_onlyHint (hm : Laid m) {kernelMap b : Bool}
    (h : projectedBufferInRange kernelMap m start end_ = some (b, m')) : OnlyHint m m' := by
  unfold projectedBufferInRange at h
  split_ifs at h
  · cases h
    exact .refl m
  · obtain ⟨⟨r, m₁⟩, hlook, h⟩ := Option.bind_eq_some_iff.1 h
    cases h
    exact (lookup_spec hm.loose hlook).2

theorem deleteFrom_trim (stays : VmMapEntry → Bool) (end_ : ℕ) (before after : List VmMapEntry) :
    Trim (before ++ after) (m.deleteFrom stays end_ before after).2.entries :=
  .behind _ (deleteLoop_trim stays end_ after m.hdr m.size)

theorem delete_trim (ho : Loose m.entries) (h : vmMapDelete m start end_ stays = some (w, m')) :
    Trim m.entries m'.entries ∧
      m'.minOffset = m.minOffset ∧ m'.maxOffset = m.maxOffset := by
  unfold vmMapDelete at h
  obtain ⟨⟨r, m₁⟩, hseek, h⟩ := Option.bind_eq_some_iff.1 h
  obtain ⟨free, -, h⟩ := Option.bind_eq_some_iff.1 h
  have hs := seek_cleared ho hseek
  obtain rfl := congrArg Prod.snd (Option.some.inj h)
  have ht := hs.trim
  rw [← hs.split] at ht
  exact ⟨ht.trans (deleteFrom_trim stays end_ r.before r.after), hs.minOffset, hs.maxOffset⟩

theorem deleteResume_kept (hm : Laid m) (h : vmMapDeleteResume m start end_ stays = some (w, m')) :
    Kept m m' := by
  unfold vmMapDeleteResume at h
  obtain ⟨⟨r, m₁⟩, hlook, h⟩ := Option.bind_eq_some_iff.1 h
  obtain ⟨hloc, hhint⟩ := lookup_spec hm.loose hlook
  obtain rfl := congrArg Prod.snd (Option.some.inj h)
  have ht := deleteFrom_trim (m := m₁) stays end_ r.before r.after
  rw [hloc.split] at ht
  exact ht.kept hm hhint.minOffset hhint.maxOffset

theorem copyoutPageListDone_kept (hm : Laid m) {ok : Bool}
    (h : copyoutPageListDone m start end_ ok stays = some (w, m')) : Kept m m' := by
  unfold copyoutPageListDone at h
  obtain ⟨⟨r, m₁⟩, hlook, h⟩ := Option.bind_eq_some_iff.1 h
  obtain ⟨hloc, hhint⟩ := lookup_spec hm.loose hlook
  have ht : Trim m.entries (r.before ++ clearMarks end_ r.after) := by
    rw [← hloc.split]
    exact .behind _ (clearMarks_trim end_ r.after)
  simp only at h
  split_ifs at h
  · cases h
    exact ht.kept hm hhint.minOffset hhint.maxOffset
  · obtain ⟨ht', hmin, hmax⟩ := delete_trim (ht.loose hm.loose) h
    exact (ht.trans ht').kept hm (hmin.trans hhint.minOffset) (hmax.trans hhint.maxOffset)

theorem clipStart_trim (hl : m.entries = before ++ e :: after) (h : a < e.vmeEnd) :
    Trim m.entries (m.clipStart before e after a).entries := by
  rw [hl]
  unfold VmMap.clipStart
  split_ifs with hlt
  · exact .behind _ (.cons (trim_clipStart hlt.le h.le) (.refl after))
  · exact .refl _

theorem clipEnd_trim (hl : m.entries = before ++ e :: after) (h : e.vmeStart ≤ a) :
    Trim m.entries (m.clipEnd before e after a).entries := by
  rw [hl]
  unfold VmMap.clipEnd
  split_ifs with hlt
  · exact .behind _ (.cons (trim_clipEnd h hlt.le) (.refl after))
  · exact .refl _

section Overwrite

variable {temporary : MapObject → Bool} {copy : List VmMapEntry} {r : Overwritten}

theorem overwriteFrom_trim (m : VmMap) (temporary : MapObject → Bool) (copy : List VmMapEntry)
    (start : ℕ) (before after : List VmMapEntry) :
    Trim (before ++ after) (m.overwriteFrom temporary copy start before after).2.entries :=
  .behind _ (overwriteLoop_trim temporary copy start after m.hdr)

theorem copyOverwrite_kept (hm : Laid m) {c : VmMapCopy}
    (h : vmMapCopyOverwrite m a c temporary = some (r, m')) : Kept m m' := by
  unfold vmMapCopyOverwrite at h
  split_ifs at h
  · cases h
    exact (Trim.refl _).kept hm rfl rfl
  · cases h
    exact (Trim.refl _).kept hm rfl rfl
  obtain ⟨⟨k, m₁⟩, hseek, h⟩ := Option.bind_eq_some_iff.1 h
  have hs := seek_cleared hm.loose hseek
  have ht := hs.trim
  simp only at h
  split_ifs at h
  · rw [← hs.split] at ht
    split at h
    · cases h
      exact hs.trim.kept hm hs.minOffset hs.maxOffset
    · cases h
      exact (ht.trans (.behind _ (overwriteCheck_trim c.size k.after))).kept hm hs.minOffset
        hs.maxOffset
    · obtain rfl := congrArg Prod.snd (Option.some.inj h)
      exact (ht.trans (overwriteFrom_trim m₁ temporary _ _ k.before k.after)).kept hm hs.minOffset
        hs.maxOffset
  · cases h
    exact ht.kept hm hs.minOffset hs.maxOffset

theorem overwriteNext_kept (hm : Laid m) (hcut : cut e.ptr m.entries = some (before, e :: rest))
    (hs : e.vmeStart = start) (h : overwriteNext m e.ptr start size copy temporary = some (r, m')) :
    Kept m m' := by
  unfold overwriteNext at h
  rw [hcut, Option.bind_eq_bind, Option.bind_some] at h
  obtain rfl := congrArg Prod.snd (Option.some.inj h)
  have hclip := clipEnd_trim (a := start + size) (cut_spec hcut).1.symm (by omega)
  have hbounds : (m.clipEnd before e rest (start + size)).minOffset = m.minOffset ∧
      (m.clipEnd before e rest (start + size)).maxOffset = m.maxOffset := by
    unfold VmMap.clipEnd
    split_ifs <;> exact ⟨rfl, rfl⟩
  have hover := overwriteFrom_trim (m.clipEnd before e rest (start + size)) temporary
    (copyRest size copy)
    (start + size) ((m.clipEnd before e rest (start + size)).entries.take (before.length + 1))
    ((m.clipEnd before e rest (start + size)).entries.drop (before.length + 1))
  rw [List.take_append_drop] at hover
  exact (hclip.trans hover).kept hm hbounds.1 hbounds.2

theorem overwriteResume_kept (hm : Laid m)
    (h : overwriteResume m start size copy temporary = some (r, m')) : Kept m m' := by
  unfold overwriteResume at h
  obtain ⟨⟨k, m₁⟩, hseek, h⟩ := Option.bind_eq_some_iff.1 h
  have hs := seek_cleared hm.loose hseek
  have ht := hs.trim
  simp only at h
  split_ifs at h
  · obtain rfl := congrArg Prod.snd (Option.some.inj h)
    rw [← hs.split] at ht
    exact (ht.trans (overwriteFrom_trim m₁ temporary _ _ k.before k.after)).kept hm hs.minOffset
      hs.maxOffset
  · cases h
    exact ht.kept hm hs.minOffset hs.maxOffset

end Overwrite

end Kept

section Fork

/-- What holds while `vm_map_fork` walks over the map `m`. -/
structure ForkKept (m : VmMap) (s : ForkState V) : Prop where
  trim : Trim m.entries s.old.entries
  oldBounds : s.old.minOffset = m.minOffset ∧ s.old.maxOffset = m.maxOffset
  split : s.old.entries = s.before ++ s.after
  loose : Loose s.new.entries
  /-- The new map has nothing yet at the place where the walk is, or behind it. -/
  behind : ∀ c ∈ s.new.entries, ∀ e ∈ s.after, c.vmeEnd ≤ e.vmeStart
  under : ∀ c ∈ s.new.entries, ∃ e ∈ m.entries, Under e c
  newBounds : s.new.minOffset = m.minOffset ∧ s.new.maxOffset = m.maxOffset

variable {zero : V} {s s' : ForkState V}

/-- The new map gets entries between two addresses, and the walk goes on behind them. -/
theorem ForkKept.append (hk : ForkKept m s) (lo hi : ℕ) (new : List VmMapEntry) (hloose : Loose new)
    (hin : ∀ c ∈ new, lo ≤ c.vmeStart ∧ c.vmeEnd ≤ hi) (hle : lo ≤ hi)
    (hunder : ∀ c ∈ new, ∃ e ∈ m.entries, Under e c)
    (hbefore : ∀ c ∈ s.new.entries, c.vmeEnd ≤ lo) (hafter : ∀ e ∈ s'.after, hi ≤ e.vmeStart)
    (htrim : Trim m.entries s'.old.entries)
    (hold : s'.old.minOffset = m.minOffset ∧ s'.old.maxOffset = m.maxOffset)
    (hsplit : s'.old.entries = s'.before ++ s'.after) (hnew : s'.new = s.new.appendEntries new) :
    ForkKept m s' := by
  have hentries : s'.new.entries = s.new.entries ++ new := by rw [hnew]; rfl
  refine ⟨htrim, hold, hsplit, ?_, fun c hc e he => ?_,
    fun c hc => ?_, by rw [hnew]; exact hk.newBounds⟩
  · rw [hentries]
    exact loose_append.2 ⟨hk.loose, hloose, fun x hx y hy => (hbefore x hx).trans (hin y hy).1⟩
  · rw [hentries] at hc
    rcases List.mem_append.1 hc with hc | hc
    · exact (hbefore c hc).trans (hle.trans (hafter e he))
    · exact (hin c hc).2.trans (hafter e he)
  · rw [hentries] at hc
    exact (List.mem_append.1 hc).elim (hk.under c) (hunder c)

/-- A round at one entry that gives the new map one entry in the same place. -/
theorem ForkKept.advance (hk : ForkKept m s) (hm : Laid m) (hafter : s.after = e :: rest)
    {r : VmMapEntry × VmMapEntry × Objects V}
    (hsrc : r.1.vmeStart = e.vmeStart ∧ r.1.vmeEnd = e.vmeEnd)
    (hnew : r.2.1.vmeStart = e.vmeStart ∧ r.2.1.vmeEnd = e.vmeEnd)
    (hn : Narrower e r.1 ∧ Narrower e r.2.1) (size : ℕ) : ForkKept m (s.advance size rest r) := by
  have hl : s.old.entries = s.before ++ e :: rest := by rw [hk.split, hafter]
  have ho := hk.trim.loose hm.loose
  rw [hl] at ho
  have hle := ho.right.le e (by simp)
  simp only [start_entry, stop_entry] at hle
  obtain ⟨e₀, he₀, hu⟩ := hk.trim.under e (by rw [hl]; simp)
  have ht := hk.trim
  rw [hl] at ht
  refine hk.append e.vmeStart e.vmeEnd [r.2.1] (loose_singleton ?_) ?_ hle ?_ ?_ ?_
    (ht.trans (.behind _ (.keep hsrc.1 hsrc.2 hn.1 (.refl rest)))) hk.oldBounds
      (by simp [ForkState.advance]) rfl
  · simp only [start_entry, stop_entry]
    omega
  · intro c hc
    obtain rfl := List.mem_singleton.1 hc
    omega
  · intro c hc
    obtain rfl := List.mem_singleton.1 hc
    exact ⟨e₀, he₀, hu.trans ⟨hnew.1.ge, hnew.2.le, hn.2⟩⟩
  · exact fun c hc => hk.behind c hc e (by rw [hafter]; simp)
  · exact fun x hx => ho.right.stop_le hx

theorem renumber_trim (l : List VmMapEntry) (n : ℕ) : Trim l (renumber l n) := by
  induction l generalizing n with
  | nil => exact .refl []
  | cons e l ih => exact .keep rfl rfl (.of_eq rfl rfl) (ih (n + 1))

theorem forkCopyin_kept (hk : ForkKept m s) (hm : Laid m) (hafter : s.after = e :: rest)
    (h : forkCopyin zero s e = some s') : ForkKept m s' := by
  have hmem : e ∈ s.old.entries := by rw [hk.split, hafter]; simp
  have hol := hk.trim.loose hm.loose
  have hle := hol.le e hmem
  simp only [start_entry, stop_entry] at hle
  have hbehind : ∀ c ∈ s.new.entries, c.vmeEnd ≤ e.vmeStart :=
    fun c hc => hk.behind c hc e (by rw [hafter]; simp)
  unfold forkCopyin at h
  obtain ⟨⟨copy, old, heap⟩, hcopyin, h⟩ := Option.bind_eq_some_iff.1 h
  obtain ⟨ht, hbounds, hcopy⟩ := copyin_cleared hol hcopyin
  have hbounds' : old.minOffset = m.minOffset ∧ old.maxOffset = m.maxOffset :=
    ⟨hbounds.1.trans hk.oldBounds.1, hbounds.2.trans hk.oldBounds.2⟩
  have ho := ht.loose hol
  simp only at h
  cases copy with
  | none =>
    obtain ⟨⟨r, old₁⟩, hlook, h⟩ := Option.bind_eq_some_iff.1 h
    obtain ⟨hloc, hhint⟩ := lookup_spec ho hlook
    cases h
    refine ⟨by rw [hhint.entries]; exact hk.trim.trans ht,
      ⟨hhint.minOffset.trans hbounds'.1, hhint.maxOffset.trans hbounds'.2⟩, by rw [hhint.entries,
      hloc.split], hk.loose, fun c hc x hx => (hbehind c hc).trans ?_, hk.under, hk.newBounds⟩
    -- the walk comes back to the entry, or to what is left of it
    have hend : e.vmeStart < x.vmeEnd ∨ e.vmeStart ≤ x.vmeStart := by
      cases hf : r.found with
      | true =>
        obtain ⟨y, ys, hys, -, hy⟩ := hloc.found hf
        rw [← hloc.split, hys] at ho
        rw [hys] at hx
        rcases List.mem_cons.1 hx with rfl | hx
        · exact .inl hy
        · have := ho.right.stop_le hx
          simp only [start_entry, stop_entry] at this
          omega
      | false => exact .inr (hloc.free hf x hx).le
    obtain ⟨x₀, hx₀, hu⟩ := ht.under x (by rw [← hloc.split]; exact List.mem_append_right _ hx)
    rcases hend with hend | hstart
    · have := hol.start_le_of_lt_stop hmem hx₀ (lt_of_lt_of_le hend hu.end_le)
      exact this.trans hu.start_le
    · exact hstart
  | some copy =>
    obtain ⟨⟨r, old₁⟩, hseek, h⟩ := Option.bind_eq_some_iff.1 h
    have hs := seek_cleared ho hseek
    cases h
    obtain ⟨htc, hin⟩ := hcopy copy rfl
    have hnew := (hk.trim.trans htc).trans (renumber_trim copy.entries s.new.hdr.zone)
    refine hk.append e.vmeStart (e.vmeStart + (e.vmeEnd - e.vmeStart)) _ (hnew.loose hm.loose) ?_
      (by omega)
      hnew.under hbehind hs.after ((hk.trim.trans ht).trans hs.trim)
      ⟨hs.minOffset.trans hbounds'.1, hs.maxOffset.trans hbounds'.2⟩ hs.split.symm rfl
    intro c hc
    obtain ⟨x, hx, hu⟩ := (renumber_trim copy.entries s.new.hdr.zone).under c hc
    have := hin x hx
    have := hu.start_le
    have := hu.end_le
    have := Nat.mod_le (e.vmeStart + (e.vmeEnd - e.vmeStart)) (2 ^ 32)
    omega

theorem shareEntry_narrower (h : Objects V) (e : VmMapEntry) (n : ℕ) :
    Narrower e (shareEntry h e n).1 ∧ Narrower e (shareEntry h e n).2.1 := by
  have hbits : (objectToShare h e).1.protection = e.protection ∧
      (objectToShare h e).1.maxProtection = e.maxProtection := by
    unfold objectToShare
    simp only
    split
    · split_ifs <;> exact ⟨rfl, rfl⟩
    · exact ⟨rfl, rfl⟩
  exact ⟨.of_eq hbits.1 hbits.2, .of_eq hbits.1 hbits.2⟩

theorem forkStep_kept (hm : Laid m) (hk : ForkKept m s) (hafter : s.after = e :: rest)
    (h : forkStep zero s e rest = some s') : ForkKept m s' := by
  obtain rfl | ⟨r, hr, rfl⟩ | h := forkStep_cases h
  · exact ⟨hk.trim, hk.oldBounds, by simp [hk.split, hafter], hk.loose,
      fun c hc x hx => hk.behind c hc x (by rw [hafter]; exact List.mem_cons_of_mem _ hx), hk.under,
      hk.newBounds⟩
  · refine hk.advance hm hafter (round_bounds hr).1 (round_bounds hr).2 ?_ _
    rcases hr with rfl | hr
    · exact shareEntry_narrower _ _ _
    · exact copyNonblocking_narrower hr
  · exact forkCopyin_kept hk hm hafter h

/-- `vm_map_fork` trims the old map, and the new one has no rights that the old one has not. -/
theorem fork_kept (hm : Laid m) {fuel : ℕ} {h h' : Objects V} {child : VmMap}
    (hfork : vmMapFork zero fuel m h = some (child, m', h')) :
    Kept m m' ∧ Laid child ∧ ((∀ e ∈ m.entries, e.Bounded) → ∀ c ∈ child.entries, c.Bounded) := by
  have hstart : ForkKept m (forkStart m h) :=
    ⟨.refl _, ⟨rfl, rfl⟩, rfl, loose_nil, by simp [forkStart, vmMapCreate], by simp [forkStart,
      vmMapCreate], rfl, rfl⟩
  obtain ⟨s, hk, rfl, rfl⟩ := fork_induct hfork hstart (forkStep_kept hm)
  refine ⟨hk.trim.kept hm hk.oldBounds.1 hk.oldBounds.2, ⟨hk.loose, fun c hc => ?_, ?_⟩,
    fun hb c hc => ?_⟩
  · obtain ⟨e, he, hu⟩ := hk.under c hc
    change s.new.minOffset ≤ _
    rw [hk.newBounds.1]
    exact (hm.lo e he).trans hu.start_le
  · change s.new.maxOffset < _
    rw [hk.newBounds.2]
    exact hm.max_lt
  · obtain ⟨e, he, hu⟩ := hk.under c hc
    exact hu.narrower.bounded (hb e he)

end Fork

section Run

theorem map_kept (hm : Laid m) {address mask inheritance : ℕ} {anywhere grows : Bool}
    {source : MapSource} {cur max : VmProt} (hcareful : ∀ x, reply = .success x → Subset cur max)
    (h : vmMap m address size mask anywhere source cur max inheritance grows = some (reply, m')) :
    Kept m m' := by
  have hbound : ∀ x, reply = .success x → Subset cur (max ||| vmProtNotify) := fun x hx =>
    subset_iff.2 fun i hi => by
      rw [BitVec.getLsbD_or, subset_iff.1 (hcareful x hx) i hi, Bool.true_or]
  have hsame : Kept m m := (Trim.refl _).kept hm rfl rfl
  unfold vmMap at h
  split_ifs at h
  · cases h
    exact hsame
  split at h
  · cases h
    exact hsame
  · simp only at h
    split at h
    · refine enter_kept hm ?_ hbound h
      exact roundPage_lt size
    · cases h
      exact hsame
    · refine enter_kept hm ?_ hbound h
      exact roundPage_lt size

theorem UserStep.kept (hm : Laid m) (h : UserStep true m m') : Kept m m' := by
  have hsame : Kept m m := (Trim.refl _).kept hm rfl rfl
  cases h with
  | allocate h =>
    unfold vmAllocate at h
    split_ifs at h
    · cases h
      exact hsame
    all_goals
      refine enter_kept hm ?_ (fun _ _ => subset_default) h
      exact roundPage_lt _
  | map hcareful h => exact map_kept hm (hcareful rfl) h
  | protect hcareful h =>
    unfold vmProtect at h
    split_ifs at h
    · cases h
      exact hsame
    · obtain ⟨⟨b, m₁⟩, hbuf, h⟩ := Option.bind_eq_some_iff.1 h
      have hhint := projectedBufferInRange_onlyHint hm hbuf
      simp only at h
      split_ifs at h
      · cases h
        exact hhint.kept hm
      · refine hhint.kept_trans (protect_kept (hhint.laid hm) ?_ h)
        rw [hhint.eq]
        exact hcareful rfl
  | inherit h =>
    unfold vmInherit at h
    split at h
    · cases h
      exact hsame
    · obtain ⟨⟨b, m₁⟩, hbuf, h⟩ := Option.bind_eq_some_iff.1 h
      have hhint := projectedBufferInRange_onlyHint hm hbuf
      simp only at h
      split_ifs at h
      · cases h
        exact hhint.kept hm
      · exact hhint.kept_trans (inherit_kept (hhint.laid hm) h)
  | deallocate h =>
    unfold vmDeallocate at h
    split_ifs at h
    · cases h
      exact hsame
    · obtain ⟨ht, hmin, hmax⟩ := delete_trim hm.loose h
      exact ht.kept hm hmin hmax
  | deallocateResume h => exact deleteResume_kept hm h
  | copyin h =>
    obtain ⟨ht, hbounds, -⟩ := copyin_cleared hm.loose h
    exact ht.kept hm hbounds.1 hbounds.2
  | overwrite h => exact copyOverwrite_kept hm h
  | overwriteNext hcut hs _ h => exact overwriteNext_kept hm hcut hs h
  | overwriteResume h => exact overwriteResume_kept hm h
  | copyout hvalid h => exact copyout_kept hm hvalid h
  | copyoutObject hsize h => exact enter_kept hm hsize (fun _ _ => subset_default) h
  | copyoutPageListPlace hsize h => exact copyoutPageListPlace_kept hm hsize h
  | copyoutPageListAtOnce => exact (clearMark_trim _ _).kept hm rfl rfl
  | copyoutPageListDone h => exact copyoutPageListDone_kept hm h
  | clipStart hl hlt =>
    refine (clipStart_trim hl hlt).kept hm ?_ ?_ <;> unfold VmMap.clipStart <;> split_ifs <;> rfl
  | clipEnd hl hlt =>
    refine (clipEnd_trim hl hlt.le).kept hm ?_ ?_ <;> unfold VmMap.clipEnd <;> split_ifs <;> rfl
  | simplify h => exact simplify_kept hm h
  | fork h => exact (fork_kept hm h).1

theorem UserMap.laid_bounded (h : UserMap true m) : Laid m ∧ ∀ e ∈ m.entries, e.Bounded := by
  induction h with
  | create min max hmax => exact ⟨⟨loose_nil, by simp [vmMapCreate], hmax⟩, by simp [vmMapCreate]⟩
  | step _ hstep ih =>
    obtain ⟨hlaid, hb⟩ := ih
    have hk := hstep.kept hlaid
    exact ⟨hk.laid, hk.bounded hb⟩
  | fork _ hfork ih =>
    obtain ⟨hlaid, hb⟩ := ih
    obtain ⟨-, hchild, hcb⟩ := fork_kept hlaid hfork
    exact ⟨hchild, hcb hb⟩

/-- Where the calls keep to the two conditions, each protection is within its maximum and no call
gives a page a right. -/
theorem protections_bounded (h : UserMap true m) :
    (∀ e ∈ m.entries, e.Bounded) ∧ ∀ m', UserStep true m m' → NoGain m.entries m'.entries :=
  ⟨h.laid_bounded.2, fun _ hstep => (hstep.kept h.laid_bounded.1).noGain⟩

/-- Four pages that are allocated, one of which is then made read-only for good. -/
theorem protections_bounded_readOnly : ∃ m, UserMap true m ∧ m.entries.length = 3 ∧
    (∀ e ∈ m.entries, e.Bounded) ∧ ∀ m', UserStep true m m' → NoGain m.entries m'.entries := by
  have h : ((vmAllocate (vmMapCreate 0 65536) 16384 16384 false false).bind fun r =>
      (vmProtect false r.2 20480 4096 true vmProtRead).map fun q => (q.1, q.2.entries.length)) =
      some (.success, 3) := by decide
  obtain ⟨⟨reply, m₁⟩, hm₁, h⟩ := Option.bind_eq_some_iff.1 h
  obtain ⟨⟨kr, m⟩, hm, heq⟩ := Option.map_eq_some_iff.1 h
  have hrun : UserMap true m := by
    refine .step (.step (.create 0 65536 (by decide)) (.allocate hm₁))
      (.protect (fun _ _ _ e _ _ => ?_) hm)
    rw [show vmProtRead &&& vmProtNotify = 0 by decide]
    simp
  exact ⟨m, hrun, (Prod.mk.inj heq).2, protections_bounded hrun⟩

/-- `vm_map` maps a page for all access with a maximum of reading. -/
theorem map_exceeds_maximum : ∃ m, UserMap false m ∧ ∃ e ∈ m.entries, ¬ e.Bounded := by
  have h :
      ((vmMap (vmMapCreate 0 65536) 16384 4096 0 false .null vmProtAll vmProtRead 1 false).map
        fun r =>
      r.2.entries.map fun e => decide e.Bounded) = some [false] := by decide
  obtain ⟨⟨reply, m⟩, hm, heq⟩ := Option.map_eq_some_iff.1 h
  have hmem : false ∈ m.entries.map fun e => decide e.Bounded := by
    rw [heq]
    simp
  obtain ⟨e, he, hb⟩ := List.mem_map.1 hmem
  exact ⟨m, .step (.create 0 65536 (by decide)) (.map (by simp) hm), e, he, of_decide_eq_false hb⟩

end Run

end XMach.Vm
