import Mathlib.Data.List.Nodup
import Mathlib.Data.List.Perm.Subperm
import XMach.Vm.Proofs.Caches
import XMach.Vm.Proofs.Enter

/-!
# Nothing is free below `first_free`

The searches for space begin behind the `first_free` entry, so they miss nothing as long as all
addresses up to its end are mapped (`Packed`). The routines keep that, with four exceptions
(`Gapless`): `vm_map_find_entry` leads `first_free` to what it has found, also when it has passed a
hole; a resumed delete leaves it where it is; and so do the two routines that unlink the entry of a
projected buffer in the kernel map.
-/

namespace XMach.Vm

open Region

variable {m m' m₁ : VmMap} {l before after rest : List VmMapEntry} {e e' n : VmMapEntry}
  {a x y z start end_ size mask p object : ℕ} {r : Lookup} {reply : Reply}
  {stays : VmMapEntry → Bool} {w resident : Bool} {ok : VmMap → Risk → Prop}

section Packed

/-- All addresses of the map below `x` are mapped. -/
def Full (m : VmMap) (x : ℕ) : Prop := ∀ a, m.minOffset ≤ a → a < x → ∃ e ∈ m.entries, Covers e a

/-- The structures of the entries are different ones, and nothing is free below the end of the
`first_free` entry. -/
structure Packed (m : VmMap) : Prop where
  nodup : (m.entries.map VmMapEntry.ptr).Nodup
  fresh : ∀ p ∈ m.entries.map VmMapEntry.ptr, p < m.hdr.zone
  full : ∀ p, m.firstFree = some p → ∃ e ∈ m.entries, e.ptr = p ∧ Full m e.vmeEnd

theorem Full.mono (h : Full m x) (hmin : m'.minOffset = m.minOffset)
    (hc : ∀ e ∈ m.entries, ∀ a, Covers e a → ∃ e' ∈ m'.entries, Covers e' a) (hx : y ≤ x) :
    Full m' y := by
  intro a hlo hlt
  obtain ⟨e, he, hcov⟩ := h a (hmin ▸ hlo) (by omega)
  exact hc e he a hcov

theorem Full.le (h : Full m x) (hx : y ≤ x) : Full m y :=
  h.mono rfl (fun e he _ hc => ⟨e, he, hc⟩) hx

theorem Packed.eq_of_ptr (h : Packed m) (he : e ∈ m.entries) (he' : e' ∈ m.entries)
    (hp : e.ptr = e'.ptr) : e = e' :=
  List.inj_on_of_nodup_map h.nodup he he' hp

theorem Packed.startOf (h : Packed m) (he : e ∈ m.entries) :
    m.startOf (some e.ptr) = some e.vmeStart := by
  obtain ⟨x, hx⟩ : ∃ x, m.entries.find? (fun x => decide (x.ptr = e.ptr)) = some x := by
    rw [← Option.isSome_iff_exists, List.find?_isSome]
    exact ⟨e, he, by simp⟩
  have hp : x.ptr = e.ptr := by simpa using List.find?_some hx
  obtain rfl := h.eq_of_ptr (List.mem_of_find?_eq_some hx) he hp
  rw [VmMap.startOf, hx]
  rfl

/-- Entries that are linked newly have other addresses than those that are linked. -/
theorem Packed.addresses (h : Packed m) (hz : m.hdr.zone ≤ z)
    (hs : (l.map VmMapEntry.ptr).Subperm
      (m.entries.map VmMapEntry.ptr ++ List.range' m.hdr.zone (z - m.hdr.zone))) :
    (l.map VmMapEntry.ptr).Nodup ∧ ∀ p ∈ l.map VmMapEntry.ptr, p < z := by
  refine ⟨?_, fun p hp => ?_⟩
  · obtain ⟨k, hperm, hsub⟩ := hs
    refine hperm.nodup_iff.1 (hsub.nodup (List.nodup_append.2 ⟨h.nodup, List.nodup_range', ?_⟩))
    rintro p hp q hq rfl
    have := h.fresh p hp
    have := (List.mem_range'_1.1 hq).1
    omega
  · rcases List.mem_append.1 (hs.subset hp) with hp | hp
    · exact (h.fresh p hp).trans_le hz
    · have := (List.mem_range'_1.1 hp).2
      omega

theorem Carries.packed (h : Carries m m') (hp : Packed m) : Packed m' := by
  obtain ⟨hnodup, hfresh⟩ := hp.addresses h.held.zone h.held.ptrs.subperm
  refine ⟨hnodup, hfresh, fun p hfree => ?_⟩
  obtain ⟨e, he, rfl, hfull⟩ := hp.full p (h.firstFree ▸ hfree)
  obtain ⟨e', he', hptr, hle⟩ := h.held.ends e he
  exact ⟨e', he', hptr, hfull.mono h.minOffset h.held.covers hle⟩

/-- Nothing is free up to the end of the entry before a position, when that is the `first_free`
entry. -/
theorem Packed.full_before (h : Packed m) (hl : m.entries = before ++ after)
    (hfree : m.firstFree = lastPtr before) (hle : start ≤ m.endBefore before) : Full m start := by
  unfold VmMap.endBefore at hle
  split at hle
  · exact fun a hlo hlt => absurd hlt (by omega)
  · rename_i last hlast
    obtain ⟨e, he, hp, hfull⟩ := h.full last.ptr (by rw [hfree, lastPtr, hlast]; rfl)
    have hmem : last ∈ m.entries := by
      rw [hl]
      exact List.mem_append_left _ (List.mem_of_getLast? hlast)
    obtain rfl := h.eq_of_ptr he hmem hp
    exact hfull.le hle

/-- New entries fill a gap; `first_free` stays, or it is the last one of them and the gap begins
where nothing is free before. -/
theorem Packed.insert (h : Packed m) (hg : Gap m before after start size) {new : List VmMapEntry}
    (ht : Tiles new start (start + size))
    (hptrs : new.map VmMapEntry.ptr = List.range' m.hdr.zone new.length)
    (hl : m'.entries = before ++ new ++ after) (hz : m'.hdr.zone = m.hdr.zone + new.length)
    (hmin : m'.minOffset = m.minOffset)
    (hfree : m'.firstFree = m.firstFree ∨ m'.firstFree = lastPtr new ∧ Full m start) :
    Packed m' := by
  have hkeep : ∀ e ∈ m.entries, e ∈ m'.entries := by
    rw [hg.split, hl]
    intro e he
    rcases List.mem_append.1 he with he | he <;> simp [he]
  have hcov : ∀ e ∈ m.entries, ∀ a, Covers e a → ∃ e' ∈ m'.entries, Covers e' a :=
    fun e he _ hc => ⟨e, hkeep e he, hc⟩
  obtain ⟨hnodup, hfresh⟩ := h.addresses (l := m'.entries) (z := m'.hdr.zone) (by omega) <| by
    rw [hl, hg.split, hz, Nat.add_sub_cancel_left, ← hptrs]
    simp only [List.map_append, List.append_assoc]
    exact (List.perm_append_comm.append_left _).subperm
  refine ⟨hnodup, hfresh, fun p hp => ?_⟩
  rcases hfree with heq | ⟨heq, hfull⟩
  · obtain ⟨e, he, hptr, hfull⟩ := h.full p (heq ▸ hp)
    exact ⟨e, hkeep e he, hptr, hfull.mono hmin hcov le_rfl⟩
  · obtain ⟨e, he, rfl⟩ := Option.map_eq_some_iff.1 (heq ▸ hp)
    have hmem := List.mem_of_getLast? he
    refine ⟨e, by rw [hl]; simp [hmem], rfl, fun a hlo hlt => ?_⟩
    rcases lt_or_ge a start with ha | ha
    · exact hfull.mono hmin hcov le_rfl a hlo ha
    · obtain ⟨y, hy, hc⟩ := ht.exists_covers ha (hlt.trans_le (ht.ordered.2.1 e hmem).2)
      exact ⟨y, by rw [hl]; simp [hy], hc⟩

theorem Packed.insertOne (h : Packed m) (hg : Gap m before after start size) (hpos : 0 < size)
    (hn : n.ptr = m.hdr.zone) (hs : n.vmeStart = start) (he : n.vmeEnd = start + size)
    (hl : m'.entries = before ++ n :: after) (hz : m'.hdr = m.hdr.link)
    (hmin : m'.minOffset = m.minOffset)
    (hfree : m'.firstFree = m.firstFree ∨ m'.firstFree = some m.hdr.zone ∧ Full m start) :
    Packed m' := by
  have ht : Tiles [n] start (start + size) := by
    refine ⟨hs, ?_, he⟩
    simp only [start_entry, stop_entry]
    omega
  refine h.insert hg ht (by simp [hn]) (by simp [hl]) (by rw [hz]; rfl) hmin ?_
  simpa [lastPtr, hn] using hfree

theorem Packed.extend (h : Packed m) (ho : Loose m.entries) (hl : m.entries = before ++ after)
    (hlast : before.getLast? = some e) (hn : n.ptr = e.ptr) (hs : n.vmeStart = e.vmeStart)
    (he : e.vmeEnd ≤ n.vmeEnd) (hl' : m'.entries = before.dropLast ++ n :: after)
    (hz : m'.hdr = m.hdr) (hmin : m'.minOffset = m.minOffset)
    (hfree : m'.firstFree = m.firstFree ∨ m'.firstFree = some e.ptr ∧ Full m e.vmeEnd) :
    Packed m' := by
  have hsplit : m.entries = before.dropLast ++ e :: after := by
    rw [hl]
    nth_rewrite 1 [dropLast_append_of_getLast hlast]
    simp
  have hmem : n ∈ m'.entries := by simp [hl']
  have hle := ho.le e (by simp [hsplit])
  simp only [start_entry, stop_entry] at hle
  have hkeep : ∀ y ∈ m.entries, y = e ∨ y ∈ m'.entries := by
    intro y hy
    rw [hsplit] at hy
    rcases List.mem_append.1 hy with hy | hy
    · exact .inr (by simp [hl', hy])
    · exact (List.mem_cons.1 hy).imp_right fun hy => by simp [hl', hy]
  have hcov : ∀ y ∈ m.entries, ∀ a, Covers y a → ∃ y' ∈ m'.entries, Covers y' a := by
    intro y hy a hc
    rcases hkeep y hy with rfl | hy
    · exact ⟨n, hmem, by simpa [hs] using hc.1, hc.2.trans_le he⟩
    · exact ⟨y, hy, hc⟩
  have hlong : Full m e.vmeEnd → Full m' n.vmeEnd := by
    intro hfull a hlo hlt
    rcases lt_or_ge a e.vmeEnd with ha | ha
    · exact hfull.mono hmin hcov le_rfl a hlo ha
    · exact ⟨n, hmem, by simp only [start_entry]; omega, hlt⟩
  have hptrs : m'.entries.map VmMapEntry.ptr =
    m.entries.map VmMapEntry.ptr := by simp [hl', hsplit, hn]
  refine ⟨hptrs ▸ h.nodup, by rw [hptrs, hz]; exact h.fresh, fun p hp => ?_⟩
  rcases hfree with heq | ⟨heq, hfull⟩
  · obtain ⟨y, hy, hptr, hfull⟩ := h.full p (heq ▸ hp)
    rcases hkeep y hy with rfl | hy'
    · exact ⟨n, hmem, hn.trans hptr, hlong hfull⟩
    · exact ⟨y, hy', hptr, hfull.mono hmin hcov le_rfl⟩
  · exact ⟨n, hmem, by rw [hn]; exact Option.some.inj (heq.symm.trans hp), hlong hfull⟩

/-- Entries are unlinked behind the one that `first_free` leads to then. -/
theorem Packed.cut (h : Packed m) (ho : Loose m.entries) (hl : before ++ after = m.entries)
    (hl' : m'.entries = before ++ l) (hz : m.hdr.zone ≤ m'.hdr.zone)
    (hs : (l.map VmMapEntry.ptr).Subperm
      (after.map VmMapEntry.ptr ++ List.range' m.hdr.zone (m'.hdr.zone - m.hdr.zone)))
    (hmin : m'.minOffset = m.minOffset)
    (hfree : ∀ p, m'.firstFree = some p → ∃ e ∈ before, e.ptr = p ∧ Full m e.vmeEnd) :
    Packed m' := by
  obtain ⟨hnodup, hfresh⟩ := h.addresses (l := m'.entries) hz <| by
    rw [hl', ← hl, List.map_append, List.map_append, List.append_assoc]
    exact (List.subperm_append_left _).2 hs
  refine ⟨hnodup, hfresh, fun p hp => ?_⟩
  obtain ⟨e, he, hptr, hfull⟩ := hfree p hp
  refine ⟨e, by simp [hl', he], hptr, fun a hlo hlt => ?_⟩
  obtain ⟨y, hy, hc⟩ := hfull a (hmin ▸ hlo) hlt
  rw [← hl] at hy ho
  rcases List.mem_append.1 hy with hy | hy
  · exact ⟨y, by simp [hl', hy], hc⟩
  · have hle := (loose_append.1 ho).2.2 e he y hy
    have := hc.1
    simp only [start_entry, stop_entry] at hle this
    omega

end Packed

section Calls

theorem place_packed (h : Packed m) (hm : WellFormed m) {r : EnterRequest} (hpos : 0 < r.size)
    (hg : Gap m before after start r.size) (grows : Bool) :
    Packed (m.place before after start r grows) := by
  have hmod := hg.mod_eq hm.laid
  have hinsert : Packed (m.insertEntry before after start ((start + r.size) % 2 ^ 32) r) := by
    refine h.insertOne hg hpos rfl rfl hmod rfl rfl rfl ?_
    change (if _ then _ else _) = _ ∨ (if _ then _ else _) = _ ∧ _
    split_ifs with hfree
    · exact .inr ⟨rfl, h.full_before hg.split hfree.1 hfree.2⟩
    · exact .inl rfl
  unfold VmMap.place
  split
  · rename_i entry hlast
    split_ifs with hext
    · simp only [EnterRequest.extends, decide_eq_true_eq] at hext
      refine h.extend (n := { entry with vmeEnd := (start + r.size) % 2 ^ 32 }) hm.ordered.loose
        hg.split hlast
        rfl rfl ?_ rfl rfl rfl (.inl rfl)
      simp only [hmod]
      omega
    · exact hinsert
  · exact hinsert

theorem enter_packed (h : Packed m) (hm : WellFormed m) {r : EnterRequest} (hpos : 0 < r.size)
    (hsize : r.size < 2 ^ 32) {grows : Bool} (he : vmMapEnter m a r grows = some (reply, m')) :
    Packed m' := by
  obtain ⟨m₁, hhint, ⟨rfl, -⟩ | ⟨before, after, start, hg, -, -, rfl⟩⟩ :=
    enter_spec hm.laid hsize he
  · exact hhint.carries.packed h
  · exact place_packed (hhint.carries.packed h) (hhint.wellFormed hm) hpos hg grows

theorem copyout_packed (h : Packed m) (hm : WellFormed m) {c : VmMapCopy} (hc : c.Valid)
    (hout : vmMapCopyout m c = some (reply, m')) : Packed m' := by
  obtain rfl | ⟨before, after, start, _, hg, hle, rfl, rfl⟩ := copyout_spec hm.laid hout
  · exact h
  have hptrs : ∀ (adjustment : ℕ) (l : List VmMapEntry) (k : ℕ),
      (adopt adjustment l k).map VmMapEntry.ptr = List.range' k l.length := by
    intro adjustment l
    induction l with
    | nil => exact fun _ => rfl
    | cons e l ih => exact fun k => congrArg (k :: ·) (ih (k + 1))
  refine h.insert hg (copyout_tiles hc hg hm.max_lt m.hdr.zone) ?_ rfl ?_ rfl ?_
  · rw [hptrs, adopt_length]
  · rw [adopt_length]
    rfl
  · change (if _ then _ else _) = _ ∨ (if _ then _ else _) = _ ∧ _
    split_ifs with hfree
    · exact .inr ⟨rfl, h.full_before hg.split hfree hle⟩
    · exact .inl rfl

theorem copyoutPageListPlace_packed (h : Packed m) (hm : WellFormed m) (hpos : 0 < size)
    (hsize : size < 2 ^ 32)
    {sole : Bool} (hout : copyoutPageListPlace m size object sole = some (reply, m')) :
    Packed m' := by
  obtain ⟨rfl, -⟩ | ⟨before, after, start, hg, hle, -, rfl | ⟨last, hlast, htakes, rfl⟩⟩ :=
    copyoutPageListPlace_spec hm.laid hsize hout
  · exact h
  · refine h.insertOne hg hpos rfl rfl (hg.mod_eq hm.laid) rfl rfl rfl ?_
    change (if _ then _ else _) = _ ∨ (if _ then _ else _) = _ ∧ _
    split_ifs with hfree
    · exact .inr ⟨rfl, h.full_before hg.split hfree hle⟩
    · exact .inl rfl
  · simp only [VmMapEntry.takesPages, decide_eq_true_eq] at htakes
    have hwith := withPages_bounds (e := last) ((start + size) % 2 ^ 32) object
    refine h.extend hm.ordered.loose hg.split hlast (withPages_ptr last _ object) hwith.1 ?_ rfl rfl
      rfl (.inl rfl)
    rw [hwith.2, hg.mod_eq hm.laid]
    omega

/-- The search behind the `first_free` entry finds the lowest address that fits. -/
theorem Packed.lowest (h : Packed m) (hm : Laid m) (hpos : 0 < size) (hsize : size < 2 ^ 32) {k : ℕ}
    (hk : k ≤ 32) (hfirst : m.fromFirstFree = some (before, after, start)) :
    Lowest m size (2 ^ k - 1)
    (findSpace m.maxOffset size (2 ^ k - 1) before after start).start := by
  obtain ⟨hl, hb, hlo⟩ := fromFirstFree_spec hm hfirst
  obtain ⟨hfree, hstart⟩ := fromFirstFree_behind hfirst
  refine findSpace_lowest hm hk hsize hl hb hlo fun x hx => ?_
  by_contra hlt
  obtain ⟨e, he, hc⟩ := h.full_before hl hfree hstart.le x hx.lo (not_le.1 hlt)
  have hfits := hx.free e he
  have := hc.1
  have := hc.2
  simp only [start_entry, stop_entry] at *
  omega

/-- `vm_map_find_entry` leads `first_free` to the lowest place, which must have nothing free before
it. -/
theorem findEntry_packed (h : Packed m) (hm : WellFormed m) (hc : CachesLinked m) {k : ℕ}
    (hk : k ≤ 32) (hpos : 0 < size) (hsize : size < 2 ^ 32)
    (hok : ∀ x, Lowest m size (2 ^ k - 1) (some x) → Full m x) {obj : MapObject}
    {found : Option (ℕ × ℕ)}
    (hfind : vmMapFindEntry m size (2 ^ k - 1) obj = some (found, m')) : Packed m' := by
  obtain ⟨b, c, s, hfirst⟩ := fromFirstFree_total hc.2
  obtain ⟨found', m'', hfind', haddr⟩ := findEntry_address hfirst size (2 ^ k - 1) obj
  obtain ⟨rfl, rfl⟩ := Prod.mk.inj (Option.some.inj (hfind.symm.trans hfind'))
  have hlow : Lowest m size (2 ^ k - 1) (found.map (·.1)) :=
    haddr ▸ h.lowest hm.laid hpos hsize hk hfirst
  obtain ⟨-, rfl⟩ | ⟨before, after, start, hg, ⟨rfl, rfl⟩ | ⟨entry, hlast, hgrows, rfl, rfl⟩⟩ :=
    findEntry_spec hm hsize hfind
  · exact h
  · exact h.insertOne hg hpos rfl rfl (hg.mod_eq hm.laid) rfl rfl rfl (.inr ⟨rfl, hok start hlow⟩)
  · simp only [VmMapEntry.growsFor, decide_eq_true_eq] at hgrows
    have hend := hgrows.2.1
    refine h.extend (n := { entry with vmeEnd := (start + size) % 2 ^ 32 }) hm.ordered.loose
      hg.split hlast
      rfl rfl ?_ rfl rfl rfl (.inr ⟨rfl, hend ▸ hok start hlow⟩)
    simp only [hg.mod_eq hm.laid]
    omega

theorem deleteLoop_ptrs (stays : VmMapEntry → Bool) (end_ : ℕ) (l : List VmMapEntry) (h : Hdr)
    (size : ℕ) : h.zone ≤ (deleteLoop stays end_ l h size).2.2.1.zone ∧
      ((deleteLoop stays end_ l h size).2.1.map VmMapEntry.ptr).Subperm (l.map VmMapEntry.ptr ++
        List.range' h.zone ((deleteLoop stays end_ l h size).2.2.1.zone - h.zone)) := by
  -- an entry is clipped at the end of the range
  have hclip : ∀ (e : VmMapEntry) (l : List VmMapEntry),
    (e.ptr :: h.zone :: l.map VmMapEntry.ptr).Subperm
      (e.ptr :: l.map VmMapEntry.ptr ++ List.range' h.zone (h.zone + 1 - h.zone)) := by
    intro e l
    rw [Nat.add_sub_cancel_left]
    exact ((@List.perm_append_comm _ [h.zone] _).cons e.ptr).subperm
  induction l generalizing h size with
  | nil => exact ⟨le_rfl, by simp [deleteLoop]⟩
  | cons e l ih =>
    unfold deleteLoop
    simp only
    split_ifs
    · exact ⟨Nat.le_succ _, hclip e l⟩
    · exact ⟨Nat.le_succ _, hclip e l⟩
    · exact ⟨Nat.le_succ _, (List.sublist_cons_self _ _).subperm.trans (hclip e l)⟩
    · exact ⟨le_rfl, by simpa using List.Subperm.refl _⟩
    · obtain ⟨hz, hs⟩ := ih h size hclip
      exact ⟨hz, (List.subperm_cons e.ptr).2 hs⟩
    · obtain ⟨hz, hs⟩ := ih h.unlink _ hclip
      exact ⟨hz, hs.trans (List.sublist_cons_self _ _).subperm⟩
    · exact ⟨le_rfl, by simpa using List.Subperm.refl _⟩

theorem delete_packed (hp : Packed m) (hm : WellFormed m)
    (h : vmMapDelete m a end_ stays = some (w, m')) : Packed m' := by
  unfold vmMapDelete at h
  obtain ⟨⟨r, m₁⟩, hseek, h⟩ := Option.bind_eq_some_iff.1 h
  obtain ⟨free, hfree, h⟩ := Option.bind_eq_some_iff.1 h
  have hs := seek_spec hm hseek
  have hp₁ := hs.carries.packed hp
  have hm₁ := hs.recut.wellFormed hm
  obtain rfl : ((m₁.repairHints r a free).deleteFrom stays end_ r.before r.after).2 = m' :=
    congrArg Prod.snd (Option.some.inj h)
  obtain ⟨hz, hsub⟩ := deleteLoop_ptrs stays end_ r.after m₁.hdr m₁.size
  refine hp₁.cut hm₁.ordered.loose hs.split rfl hz hsub rfl fun p hptr => ?_
  change (if a ≤ free then lastPtr r.before else m₁.firstFree) = some p at hptr
  split_ifs at hptr with hle
  · -- the entry before the range lies before the one that `first_free` led to
    obtain ⟨last, hlast, rfl⟩ := Option.map_eq_some_iff.1 hptr
    have hmem := List.mem_of_getLast? hlast
    have hlt := hs.before last hmem
    refine ⟨last, hmem, rfl, ?_⟩
    cases hf : m₁.firstFree with
    | none =>
      rw [hf] at hfree
      obtain rfl : m₁.minOffset = free := Option.some.inj hfree
      exact fun b hlo hb => absurd hb (by omega)
    | some q =>
      obtain ⟨e, he, rfl, hfull⟩ := hp₁.full q hf
      rw [hf, hp₁.startOf he] at hfree
      have hlong := hm₁.ordered.nonempty e he
      cases hfree
      simp only [start_entry, stop_entry] at hlong
      exact hfull.le (by omega)
  · obtain ⟨e, he, rfl, hfull⟩ := hp₁.full p hptr
    rw [hptr, hp₁.startOf he] at hfree
    cases hfree
    rw [← hs.split] at he
    rcases List.mem_append.1 he with he | he
    · exact ⟨e, he, rfl, hfull⟩
    · exact absurd (hs.after e he) hle

/-- A resumed delete does not look at `first_free`, which must not lead behind its start. -/
theorem deleteResume_packed (hp : Packed m) (hm : WellFormed m)
    (hok : ∀ e ∈ m.entries, m.firstFree = some e.ptr → e.vmeEnd ≤ start)
    (h : vmMapDeleteResume m start end_ stays = some (w, m')) : Packed m' := by
  unfold vmMapDeleteResume at h
  obtain ⟨⟨r, m₁⟩, hlook, h⟩ := Option.bind_eq_some_iff.1 h
  obtain ⟨hloc, hhint⟩ := lookup_spec hm.ordered.loose hlook
  have hp₁ := hhint.carries.packed hp
  obtain rfl : (m₁.deleteFrom stays end_ r.before r.after).2 = m' :=
    congrArg Prod.snd (Option.some.inj h)
  obtain ⟨hz, hsub⟩ := deleteLoop_ptrs stays end_ r.after m₁.hdr m₁.size
  have hl : r.before ++ r.after = m₁.entries := by rw [hhint.entries, hloc.split]
  refine hp₁.cut (hhint.wellFormed hm).ordered.loose hl rfl hz hsub rfl fun p hptr => ?_
  obtain ⟨e, he, rfl, hfull⟩ := hp₁.full p hptr
  have hle := hok e (hhint.entries ▸ he) (hhint.firstFree.symm.trans hptr)
  rw [← hl] at he
  rcases List.mem_append.1 he with he | he
  · exact ⟨e, he, rfl, hfull⟩
  · cases hf : r.found with
    | true =>
      have := hloc.lt_end_of_found hm.ordered hf e he
      omega
    | false =>
      have := hloc.free hf e he
      have hlong := hm.ordered.nonempty e (by rw [← hloc.split]; exact List.mem_append_right _ he)
      simp only [start_entry, stop_entry] at hlong
      omega

theorem unlinkEntry_packed (hp : Packed m) (ho : Loose m.entries)
    (hl : m.entries = before ++ e :: rest)
    {q : Option ℕ} (hq : ∀ p, q = some p → ∃ x ∈ before, x.ptr = p ∧ Full m x.vmeEnd) :
    Packed (unlinkEntry { m with firstFree := q } before e rest) :=
  hp.cut ho hl.symm rfl le_rfl
    ((List.sublist_cons_self _ _).trans (List.sublist_append_left _ _)).subperm rfl hq

/-- The `first_free` entry ends before the entry at `k`. -/
def VmMap.FreeBefore (m : VmMap) (k : ℕ) : Prop :=
  ∀ e ∈ m.entries, m.firstFree = some e.ptr → ∀ x ∈ m.entries, x.ptr = k → e.vmeEnd ≤ x.vmeStart

theorem VmMap.FreeBefore.full (h : m.FreeBefore e.ptr) (hp : Packed m) (hm : WellFormed m)
    (hl : m.entries = before ++ e :: rest) (hfree : m.firstFree = some p) :
    ∃ x ∈ before, x.ptr = p ∧ Full m x.vmeEnd := by
  obtain ⟨x, hx, rfl, hfull⟩ := hp.full p hfree
  have hle := h x hx hfree e (by simp [hl]) rfl
  have hlong := hm.ordered.nonempty x hx
  have ho := hm.ordered
  rw [hl] at hx ho
  simp only [start_entry, stop_entry] at hlong
  rcases List.mem_append.1 hx with hx | hx
  · exact ⟨x, hx, rfl, hfull⟩
  rcases List.mem_cons.1 hx with rfl | hx
  · omega
  · have := ho.right.start_le hx
    simp only [start_entry] at this
    omega

theorem projectedDeallocateKernel_packed (hp : Packed m) (hm : WellFormed m) {k : ℕ} {sole : Bool}
    (hok : m.firstFree = some k ∨ m.FreeBefore k)
    (h : projectedDeallocateKernel m k sole resident = some m') : Packed m' := by
  unfold projectedDeallocateKernel at h
  obtain ⟨c, hcut, h⟩ := Option.bind_eq_some_iff.1 h
  obtain ⟨-, e, rest, hrest, -⟩ := cut_spec hcut
  simp only [hrest] at h
  split_ifs at h
  · obtain ⟨before, e, rest, hcut', hl, rfl, -, rfl⟩ := entryDelete_spec h
    obtain rfl : (before, e :: rest) = c := Option.some.inj (hcut'.symm.trans hcut)
    have ho := hm.ordered.loose
    refine unlinkEntry_packed hp ho hl fun p hptr => ?_
    split_ifs at hptr with hfree
    · -- the entry before the one that is unlinked
      obtain ⟨last, hlast, rfl⟩ := Option.map_eq_some_iff.1 hptr
      obtain ⟨x, hx, hxp, hfull⟩ := hp.full _ hfree
      obtain rfl := hp.eq_of_ptr hx (by rw [show m.entries = _ from hl]; simp) hxp
      have hmem := List.mem_of_getLast? hlast
      have hle := ho.le x hx
      rw [show m.entries = _ from hl] at ho
      exact ⟨last, hmem, rfl,
        hfull.le (((loose_append.1 ho).2.2 last hmem x List.mem_cons_self).trans hle)⟩
    · exact (hok.resolve_left hfree).full hp hm hl hptr
  · cases h
    exact hp

theorem simplify_packed (hp : Packed m) (hm : WellFormed m) (h : vmMapSimplify m a = some m') :
    Packed m' := by
  obtain ⟨m₁, hhint, rfl | ⟨before, prev, this, rest, hl, hle, -, rfl⟩⟩ :=
    simplify_cases hm.ordered.loose h
  · exact hhint.carries.packed hp
  have hp₁ := hhint.carries.packed hp
  have ho := (hhint.wellFormed hm).ordered
  rw [hl] at ho
  have hprev := ho.nonempty prev (by simp)
  have hthis := ho.nonempty this (by simp)
  have hnext := ho.right.loose.stop_le (List.mem_cons_self (a := this))
  simp only [start_entry, stop_entry] at hprev hthis hnext
  set merged : VmMapEntry := { prev with vmeEnd := this.vmeEnd } with hmerged
  have hmem : merged ∈ before ++ merged :: rest := by simp
  have hcov : ∀ y ∈ m₁.entries, ∀ b, Covers y b → ∃ y' ∈ before ++ merged :: rest, Covers y' b := by
    intro y hy b hc
    rw [hl] at hy
    simp only [List.mem_append, List.mem_cons] at hy
    rcases hy with hy | rfl | rfl | hy
    · exact ⟨y, by simp [hy], hc⟩
    · exact ⟨merged, hmem, hc.1, hc.2.trans_le (by simp only [stop_entry, hmerged]; omega)⟩
    · exact ⟨merged, hmem, le_trans (by simp only [start_entry, hmerged]; omega) hc.1, hc.2⟩
    · exact ⟨y, by simp [hy], hc⟩
  obtain ⟨hnodup, hfresh⟩ := hp₁.addresses (l := before ++ merged :: rest) le_rfl <| by
    rw [hl, Nat.sub_self, List.range'_zero, List.append_nil]
    simp only [List.map_append, List.map_cons]
    exact ((List.Sublist.refl _).append (.cons_cons _ (List.sublist_cons_self _ _))).subperm
  refine ⟨hnodup, hfresh, fun p hptr => ?_⟩
  change (if m₁.firstFree = some this.ptr then some prev.ptr else m₁.firstFree) = some p at hptr
  split_ifs at hptr with hfree
  · obtain ⟨e, he, hep, hfull⟩ := hp₁.full _ hfree
    obtain rfl := hp₁.eq_of_ptr he (by simp [hl]) hep
    exact ⟨merged, hmem, Option.some.inj hptr, hfull.mono rfl hcov le_rfl⟩
  · obtain ⟨e, he, rfl, hfull⟩ := hp₁.full p hptr
    rw [hl] at he
    simp only [List.mem_append, List.mem_cons] at he
    rcases he with he | rfl | rfl | he
    · exact ⟨e, by simp [he], rfl, hfull.mono rfl hcov le_rfl⟩
    · refine ⟨merged, hmem, rfl, fun b hlo hb => ?_⟩
      rcases lt_or_ge b e.vmeEnd with hlt | hge
      · have hkept : Full { m₁ with entries := before ++ merged :: rest } e.vmeEnd :=
          hfull.mono rfl hcov le_rfl
        exact hkept b hlo hlt
      · exact ⟨merged, hmem, by simp only [start_entry, hmerged]; omega, hb⟩
    · exact absurd hptr hfree
    · exact ⟨e, by simp [he], rfl, hfull.mono rfl hcov le_rfl⟩

theorem fork_new_packed {V : Type} {zero : V} {h h' : Objects V} {fuel : ℕ} {child : VmMap}
    (hfork : vmMapFork zero fuel m h = some (child, m', h')) : Packed child := by
  have hstart : Packed (forkStart m h).new ∧ (forkStart m h).new.firstFree = none :=
    ⟨⟨.nil, by simp [forkStart, vmMapCreate], by simp [forkStart, vmMapCreate]⟩, rfl⟩
  obtain ⟨s, ⟨hp, hfree⟩, rfl, -⟩ :=
    fork_induct (P := fun s => Packed s.new ∧ s.new.firstFree = none) hfork hstart
    fun {s s' e rest} hnew _ hstep => by
      obtain ⟨hp, hfree⟩ := hnew
      obtain heq | ⟨l, hptrs, heq⟩ := forkStep_new hstep
      · rw [heq]
        exact ⟨hp, hfree⟩
      obtain ⟨hnodup, hfresh⟩ := hp.addresses (l := s.new.entries ++ l)
        (Nat.le_add_right _ l.length) <| by
        rw [Nat.add_sub_cancel_left, List.map_append, hptrs]
      rw [heq]
      exact ⟨⟨hnodup, hfresh, fun p hp => absurd (hfree.symm.trans hp) (by simp)⟩, hfree⟩
  exact ⟨hp.nodup, hp.fresh, fun p hp => absurd (hfree.symm.trans hp) (by simp)⟩

end Calls

section Run

/-- The calls that pass no hole: what `vm_map_find_entry` finds has nothing free before it; and what
a resumed delete or a routine for projected buffers unlinks does not lie before the `first_free`
entry. -/
def Gapless (m : VmMap) : Risk → Prop
  | .findEntry size mask => ∃ k ≤ 32, mask = 2 ^ k - 1 ∧ ∀ x, Lowest m size mask (some x) → Full m x
  | .resume start _ _ => ∀ e ∈ m.entries, m.firstFree = some e.ptr → e.vmeEnd ≤ start
  | .allocateFailed k => m.FreeBefore k
  | .deallocateKernel k => m.firstFree = some k ∨ m.FreeBefore k
  | _ => True

theorem Call.packed (h : Call ok m m') (hok : ∀ m c, ok m c → Careful m c ∧ Gapless m c)
    (hm : WellFormed m) (hc : CachesLinked m) (hp : Packed m) : Packed m' := by
  cases h with
  | enter hpos hlt h => exact enter_packed hp hm hpos hlt h
  | findEntry hpos hlt hr h =>
    obtain ⟨k, hk, rfl, hfull⟩ := (hok _ _ hr).2
    exact findEntry_packed hp hm hc hk hpos hlt hfull h
  | protect h => exact (protect_carries hm h).packed hp
  | inherit h => exact (inherit_carries hm h).packed hp
  | submap _ _ h => exact (submap_carries hm h).packed hp
  | delete h => exact delete_packed hp hm h
  | remove h => exact delete_packed hp hm h
  | copyout hcopy h => exact copyout_packed hp hm hcopy h
  | copyoutObject hpos hlt h => exact enter_packed hp hm hpos hlt h
  | copyoutPageListPlace hpos hlt h => exact copyoutPageListPlace_packed hp hm hpos hlt h
  | copyoutPageListAtOnce => exact (clearMark_carries m _).packed hp
  | copyoutPageListDone h =>
    obtain ⟨m₁, hcarries, hm₁, rfl | h⟩ := copyoutPageListDone_cases hm h
    · exact hcarries.packed hp
    · exact delete_packed (hcarries.packed hp) hm₁ h
  | simplify h => exact simplify_packed hp hm h
  | clipStart hl => exact (clipStart_carries hl _).packed hp
  | clipEnd hl => exact (clipEnd_carries hl _).packed hp
  | forkNew _ h => exact fork_new_packed h
  | forkOld _ h => exact (fork_carries hm h).2.packed hp
  | forkShared hf he hs hproj => exact absurd ((hok _ _ hf).1 _ he hs) hproj

theorem Stretch.packed (h : Stretch ok m m') (hok : ∀ m c, ok m c → Careful m c ∧ Gapless m c)
    (hm : WellFormed m) (hc : CachesLinked m) (hp : Packed m) : Packed m' := by
  have hfound : ∀ {size : ℕ} {found : Option (ℕ × ℕ)} {m₁ : VmMap}, 0 < roundPage size →
      ok m (.findEntry (roundPage size) 0) →
      vmMapFindEntry m (roundPage size) 0 .null = some (found, m₁) → Packed m₁ := by
    intro size found m₁ hpos hr hfind
    obtain ⟨k, hk, hmask, hfull⟩ := (hok _ _ hr).2
    rw [hmask] at hfind hfull
    exact findEntry_packed hp hm hc hk hpos (roundPage_lt size) hfull hfind
  cases h with
  | step h =>
    cases h with
    | call h => exact h.packed hok hm hc hp
    | deleteResume hr h => exact deleteResume_packed hp hm (hok _ _ hr).2 h
    | stray hs => exact absurd hc hs
  | pageable _ h => exact (pageable_carries hm h).packed hp
  | projectedAllocateKernel hpos hr h =>
    obtain ⟨-, m₁, hfind, hcarries⟩ := projectedAllocateKernel_spec hm hpos h
    exact hcarries.packed (hfound hpos hr hfind)
  | projectedAllocateFailed hr h =>
    obtain ⟨before, e, rest, -, hl, rfl, -, rfl⟩ := entryDelete_spec h
    exact unlinkEntry_packed hp hm.ordered.loose hl fun p hfree =>
      (hok _ _ hr).2.full hp hm hl hfree
  | lookup h => exact (lookup_spec hm.ordered.loose h).2.carries.packed hp
  | projectedMapUser hpos hr h =>
    obtain ⟨-, m₁, hfind, hcarries⟩ := projectedMapUser_spec hm hpos h
    exact hcarries.packed (hfound hpos hr hfind)
  | projectedDeallocateUser hr h =>
    obtain ⟨m₁, hrefused, hhint⟩ := projectedDeallocateUser_refused hm hc (hok _ _ hr).1
    rw [hrefused] at h
    cases h
    exact hhint.carries.packed hp
  | projectedDeallocatePart hr h =>
    obtain ⟨m₁, hrefused, -⟩ := projectedDeallocateUser_refused hm hc (hok _ _ hr).1
    rw [hrefused] at h
    cases h
  | projectedDeallocateKernel hr h => exact projectedDeallocateKernel_packed hp hm (hok _ _ hr).2 h
  | freed hr hgone => exact absurd (hr.elim (fun h => (hok _ _ h).1.1) fun h =>
      (hok _ _ h).1.1) hgone

/-- In every map that a run comes to whose calls are careful and pass no hole, each search for space
returns the lowest address that fits, and none only when nothing fits. -/
theorem space_search_lowest {min max : ℕ} (hmax : max < 2 ^ 32)
    (h : Relation.ReflTransGen (Stretch fun m c => Careful m c ∧
    Gapless m c) (vmMapCreate min max) m) : ∀ size, 0 < size → size < 2 ^ 32 → ∀ k ≤ 32,
      (∀ a ≤ m.minOffset, ∀ r : EnterRequest, r.anywhere = true → r.size = size →
      r.mask = 2 ^ k - 1 → ∀ grows,
        ∃ reply m', vmMapEnter m a r grows = some (reply, m') ∧
        Lowest m size (2 ^ k - 1) reply.address) ∧
      (∀ object, ∃ found m', vmMapFindEntry m size (2 ^ k - 1) object = some (found, m') ∧
        Lowest m size (2 ^ k - 1) (found.map (·.1))) ∧
      (∀ c : VmMapCopy, copySpan c.offset c.size = size → ∃ reply m' s,
      vmMapCopyout m c = some (reply, m') ∧
        reply.address = s.map (fun s => (s + (c.offset - c.copyStart)) % 2 ^ 32) ∧
        Lowest m size 0 s) ∧
      (∀ object offset grows, ∃ reply m', vmMapCopyoutObject m object offset size grows =
        some (reply, m') ∧ Lowest m size 0 reply.address) ∧
      (∀ newObject sole, ∃ reply m', copyoutPageListPlace m size newObject sole = some (reply, m') ∧
        Lowest m size 0 reply.address) := by
  obtain ⟨hm, hc, hp⟩ : WellFormed m ∧ CachesLinked m ∧ Packed m := by
    induction h with
    | refl =>
      exact ⟨create_wellFormed hmax, ⟨trivial, trivial⟩,
        .nil, by simp [vmMapCreate], by simp [vmMapCreate]⟩
    | tail _ hstep ih =>
      obtain ⟨hm, hc, hp⟩ := ih
      obtain ⟨hm', hc'⟩ := hstep.linked (fun _ _ h => h.1) hm hc
      exact ⟨hm', hc', hstep.packed (fun _ _ h => h) hm hc hp⟩
  obtain ⟨before, after, start, hfirst⟩ := fromFirstFree_total hc.2
  intro size hpos hsize k hk
  have hlow : ∀ j ≤ 32, Lowest m size (2 ^ j - 1) _ :=
    fun j hj => hp.lowest hm.laid hpos hsize hj hfirst
  have henter : ∀ j ≤ 32, ∀ a ≤ m.minOffset, ∀ r : EnterRequest, r.anywhere = true → r.size = size →
      r.mask = 2 ^ j - 1 → ∀ grows, ∃ reply m', vmMapEnter m a r grows = some (reply, m') ∧
        Lowest m size (2 ^ j - 1) reply.address := by
    rintro j hj a ha r hany rfl hmask grows
    rcases le_or_gt m.minOffset m.maxOffset with hle | hgt
    · obtain ⟨reply, m', he, haddr⟩ := enter_address hfirst hany ha hle grows
      rw [hmask] at haddr
      exact ⟨reply, m', he, haddr ▸ hlow j hj⟩
    · refine ⟨_, _, enter_above_max hany ha hgt grows, fun x hx => ?_⟩
      have := hx.lo
      have := hx.hi
      omega
  refine ⟨henter k hk, fun object => ?_, fun c hspan => ?_, fun object offset grows => ?_,
    fun newObject sole => ?_⟩
  · obtain ⟨found, m', he, haddr⟩ := findEntry_address hfirst size (2 ^ k - 1) object
    exact ⟨found, m', he, haddr ▸ hlow k hk⟩
  · subst hspan
    obtain ⟨reply, m', he, haddr⟩ := copyout_address hfirst c
    exact ⟨reply, m', _, he, haddr, hlow 0 (Nat.zero_le 32)⟩
  · exact henter 0 (Nat.zero_le 32) 0 (Nat.zero_le _) _ rfl rfl rfl grows
  · obtain ⟨reply, m', he, haddr⟩ := copyoutPageListPlace_address hfirst size newObject sole
    exact ⟨reply, m', he, haddr ▸ hlow 0 (Nat.zero_le 32)⟩

/-- A map of four pages with the second one mapped, so that two pages do not fit in front of it. -/
def secondPage : VmMap :=
  { vmMapCreate 0 16384 with
    entries := [(allocateRequest 4096 false).newEntry 0 4096 8192]
    hdr := ⟨1, 1⟩
    size := 4096
    hint := some 0 }

theorem enter_secondPage :
    vmMapEnter (vmMapCreate 0 16384) 4096 (allocateRequest 4096 false) false =
    some (.success 4096, secondPage) := by decide

/-- `vm_map_find_entry` takes the first page, which has nothing before it, and then the third one is
found. -/
theorem space_search_lowest_secondPage : ∃ m reply m',
    vmMapFindEntry secondPage 4096 0 .null = some (some (0, 1), m) ∧
      vmMapEnter m 0 (allocateRequest 4096 true) false = some (reply, m') ∧
      Lowest m 4096 0 reply.address := by
  obtain ⟨⟨found, m⟩, hfind, heq⟩ := Option.map_eq_some_iff.1 (show
    (vmMapFindEntry secondPage 4096 0 .null).map (·.1) = some (some (0, 1)) by decide)
  obtain rfl : found = some (0, 1) := heq
  have hfits : FitsAt secondPage 4096 0 0 :=
    ⟨rfl, le_rfl, by decide, fun e he => .inr (by rw [List.mem_singleton.1 he]; decide)⟩
  have hgapless : Gapless secondPage (.findEntry 4096 0) := by
    refine ⟨0, by decide, rfl, fun x hx a _ hlt => ?_⟩
    have := hx.2 0 hfits
    omega
  have hrun : Relation.ReflTransGen (Stretch fun m c => Careful m c ∧ Gapless m c)
    (vmMapCreate 0 16384) m :=
    .tail (.single (.step (.call (.enter (by decide) (by decide) enter_secondPage))))
      (.step (.call (.findEntry (by decide) (by decide) ⟨trivial, hgapless⟩ hfind)))
  obtain ⟨reply, m', henter, hlow⟩ :=
    (space_search_lowest (by decide) hrun 4096 (by decide) (by decide) 0
    (by decide)).1 0 (Nat.zero_le _) (allocateRequest 4096 true) rfl rfl rfl false
  exact ⟨m, reply, m', hfind, henter, hlow⟩

/-- `vm_map_find_entry` passes the first page, which is too small, and leaves `first_free` behind
it; then there is no space for a page although the first one is free. -/
theorem find_entry_loses_page : ∃ m found m',
    Relation.ReflTransGen (Stretch Careful) (vmMapCreate 0 16384) m ∧
    vmMapFindEntry secondPage 8192 0 .null = some (found, m) ∧
    vmMapEnter m 0 (allocateRequest 4096 true) false = some (.error .noSpace, m') ∧
    FitsAt m 4096 0 0 := by
  have h : ((vmMapFindEntry secondPage 8192 0 .null).bind fun f =>
      (vmMapEnter f.2 0 (allocateRequest 4096 true) false).map fun g =>
        (g.1, f.2.minOffset, f.2.maxOffset, f.2.entries.map fun e => e.vmeStart)) =
      some (.error .noSpace, 0, 16384, [4096, 8192]) := by decide
  obtain ⟨⟨found, m⟩, hfind, h⟩ := Option.bind_eq_some_iff.1 h
  obtain ⟨⟨reply, m'⟩, henter, h⟩ := Option.map_eq_some_iff.1 h
  obtain ⟨rfl, hmin, hmax, hstarts⟩ : reply = .error .noSpace ∧ m.minOffset = 0 ∧
      m.maxOffset = 16384 ∧ m.entries.map (fun e => e.vmeStart) = [4096, 8192] := by simpa using h
  have hsecond : Stretch Careful (vmMapCreate 0 16384) secondPage :=
    .step (.call (.enter (by decide) (by decide) enter_secondPage))
  refine ⟨m, found, m',
    .tail (.single hsecond) (.step (.call (.findEntry (by decide) (by decide) trivial hfind))),
    hfind, henter, Nat.and_zero 0, hmin.le, by omega, fun e he => .inr ?_⟩
  have hmem : e.vmeStart ∈ m.entries.map fun e => e.vmeStart := List.mem_map_of_mem he
  rw [hstarts] at hmem
  rcases List.mem_cons.1 hmem with hs | hs
  · omega
  · have := List.mem_singleton.1 hs
    omega

end Run

end XMach.Vm
