import XMach.Vm.Run

/-!
# Address maps stay well formed

A map is well formed when its entries are disjoint, in order and inside the bounds of the map, and
the two counters agree with the list. The lemmas take the routines apart into what they do to the
list: look up (`Located`, `Sought`), cut (`Region.Cuts`), put in (`WellFormed.insert`,
`WellFormed.extend`) and take out (`deleteLoop_spec`).
-/

namespace XMach.Vm

open Region

structure WellFormed (m : VmMap) : Prop where
  /-- No entry is empty, and each ends before the next one starts. -/
  ordered : Ordered m.entries
  bounds : ∀ e ∈ m.entries, m.minOffset ≤ e.vmeStart ∧ e.vmeEnd ≤ m.maxOffset
  nentries : m.hdr.nentries = m.entries.length
  size : m.size = total m.entries
  /-- The bound is an address. -/
  max_lt : m.maxOffset < 2 ^ 32

/-- What looking up addresses and searching for space rest on. -/
structure Laid (m : VmMap) : Prop where
  loose : Loose m.entries
  lo : ∀ e ∈ m.entries, m.minOffset ≤ e.vmeStart
  max_lt : m.maxOffset < 2 ^ 32

variable {m m' : VmMap} {l l' before after : List VmMapEntry} {e e' : VmMapEntry}
  {a b end_ start size mask x : ℕ} {reply : Reply} {r : EnterRequest} {p : Option ℕ}
  {grows w : Bool}
  {stays : VmMapEntry → Bool} {c : List VmMapEntry × List VmMapEntry} {kr : KernReturn}

theorem WellFormed.laid (hm : WellFormed m) : Laid m :=
  ⟨hm.ordered.loose, fun e he => (hm.bounds e he).1, hm.max_lt⟩

@[simp] theorem start_entry : Region.start e = e.vmeStart := rfl

@[simp] theorem stop_entry : Region.stop e = e.vmeEnd := rfl

@[simp] theorem Hdr.link_nentries (h : Hdr) : h.link.nentries = h.nentries + 1 := rfl

@[simp] theorem Hdr.unlink_nentries (h : Hdr) : h.unlink.nentries = h.nentries - 1 := rfl

section Lookup

variable {p : Option ℕ}

@[simp] theorem saveHint_hdr : (m.saveHint p).hdr = m.hdr := rfl

theorem cut_spec {p : ℕ} (h : cut p l = some c) : c.1 ++ c.2 = l ∧ ∃ e rest, c.2 = e :: rest ∧
    e.ptr = p := by
  induction l generalizing c with
  | nil => simp [cut] at h
  | cons e l ih =>
    rw [cut] at h
    split_ifs at h with hp
    · cases h
      exact ⟨rfl, e, l, rfl, hp⟩
    · obtain ⟨c', hc', rfl⟩ := Option.map_eq_some_iff.1 h
      obtain ⟨hl, hhead⟩ := ih hc'
      exact ⟨by rw [List.cons_append, hl], hhead⟩

theorem search_spec (a : ℕ) (l : List VmMapEntry) :
    (search a l).1 ++ (search a l).2 = l ∧ (∀ e ∈ (search a l).1, e.vmeEnd ≤ a) ∧
      ∀ e rest, (search a l).2 = e :: rest → a < e.vmeEnd := by
  induction l with
  | nil => simp [search]
  | cons e l ih =>
    unfold search
    split_ifs with h
    · refine ⟨rfl, by simp, ?_⟩
      rintro e' rest ⟨⟩
      exact h
    · obtain ⟨hl, hb, ha⟩ := ih
      exact ⟨by rw [List.cons_append, hl], List.forall_mem_cons.2 ⟨by omega, hb⟩, ha⟩

theorem position_spec (h : position l p = some c) : c.1 ++ c.2 = l ∧ (c.2 = [] → l = []) := by
  cases p with
  | none =>
    cases h
    exact ⟨rfl, id⟩
  | some p =>
    obtain ⟨hl, e, rest, hc, -⟩ := cut_spec h
    exact ⟨hl, fun hn => by rw [hc] at hn; cases hn⟩

/-- What `vm_map_lookup_entry` says about the position it returns. -/
structure Located (l : List VmMapEntry) (a : ℕ) (r : Lookup) : Prop where
  split : r.before ++ r.after = l
  before : ∀ e ∈ r.before, e.vmeEnd ≤ a
  found : r.found = true → ∃ e rest, r.after = e :: rest ∧ e.vmeStart ≤ a ∧ a < e.vmeEnd
  free : r.found = false → ∀ e ∈ r.after, a < e.vmeStart

theorem located_at (ho : Loose (before ++ after)) (hb : ∀ e ∈ before, e.vmeEnd ≤ a)
    (ha : ∀ e rest, after = e :: rest → a < e.vmeEnd) :
    Located (before ++ after) a (Lookup.at a before after) := by
  refine ⟨rfl, hb, fun hf => ?_, fun hf => ?_⟩
  · cases after with
    | nil => simp [Lookup.at] at hf
    | cons e rest => exact ⟨e, rest, rfl, by simpa [Lookup.at] using hf, ha e rest rfl⟩
  · cases after with
    | nil => simp [Lookup.at]
    | cons e rest =>
      have he : a < e.vmeStart := by simpa [Lookup.at] using hf
      refine List.forall_mem_cons.2 ⟨he, fun x hx => ?_⟩
      have := ho.right.start_le hx
      simp only [start_entry] at this
      omega

theorem linked_lastPtr (l : List VmMapEntry) : Linked l (lastPtr l) := by
  unfold lastPtr
  cases h : l.getLast? with
  | none => trivial
  | some e => exact ⟨e, List.mem_of_getLast? h, rfl⟩

theorem Linked.mono (h : Linked l p) (hl : ∀ e ∈ l, ∃ e' ∈ l', e'.ptr = e.ptr) : Linked l' p := by
  cases p with
  | none => trivial
  | some p =>
    obtain ⟨e, he, rfl⟩ := h
    exact hl e he

theorem Linked.append_left (h : Linked l p) : Linked (l ++ l') p :=
  h.mono fun e he => ⟨e, List.mem_append_left _ he, rfl⟩

theorem Lookup.linked_entry (r : Lookup) : Linked (r.before ++ r.after) r.entry := by
  unfold Lookup.entry
  split_ifs
  · cases h : r.after with
    | nil => trivial
    | cons e rest => exact ⟨e, by simp, rfl⟩
  · exact (linked_lastPtr _).append_left

/-- Nothing but the hint has changed, and it leads into the map if it has. -/
structure OnlyHint (m m' : VmMap) : Prop where
  eq : m' = m.saveHint m'.hint
  linked : m'.hint = m.hint ∨ Linked m.entries m'.hint

theorem OnlyHint.refl (m : VmMap) : OnlyHint m m := ⟨rfl, .inl rfl⟩

theorem OnlyHint.entries (h : OnlyHint m m') : m'.entries = m.entries := by rw [h.eq]; rfl

theorem OnlyHint.minOffset (h : OnlyHint m m') : m'.minOffset = m.minOffset := by rw [h.eq]; rfl

theorem OnlyHint.maxOffset (h : OnlyHint m m') : m'.maxOffset = m.maxOffset := by rw [h.eq]; rfl

/-- `vm_map_lookup_entry` finds the entry that contains an address or the place where none does, and
touches nothing but the hint. -/
theorem lookup_spec (ho : Loose m.entries) {r : Lookup}
    (h : vmMapLookupEntry m a = some (r, m')) : Located m.entries a r ∧ OnlyHint m m' := by
  unfold vmMapLookupEntry at h
  obtain ⟨⟨before, cur⟩, hcur, h⟩ := Option.bind_eq_some_iff.1 h
  obtain ⟨hsplit, hempty⟩ := position_spec hcur
  simp only at hsplit hempty
  cases cur with
  | nil =>
    obtain ⟨rfl, rfl⟩ : (⟨false, [], []⟩ : Lookup) = r ∧ m.saveHint none = m' := by
      simpa using h
    rw [hempty rfl]
    exact ⟨⟨rfl, by simp, by simp, by simp⟩, rfl, .inr trivial⟩
  | cons e rest =>
    have hlinked : ∀ r : Lookup, r.before ++ r.after = m.entries → Linked m.entries r.entry :=
      fun r hr => hr ▸ r.linked_entry
    rw [← hsplit] at ho hlinked ⊢
    have hbefore : ∀ x ∈ before, x.vmeEnd ≤ e.vmeStart := fun x hx =>
      (loose_append.1 ho).2.2 x hx e List.mem_cons_self
    have he : e.vmeStart ≤ e.vmeEnd := ho.le e (by simp)
    simp only at h
    split_ifs at h with h₁ h₂
    · cases h
      refine ⟨⟨rfl, fun x hx => (hbefore x hx).trans h₁, fun _ => ⟨e, rest, rfl, h₁, h₂⟩, by simp⟩,
        rfl, .inl rfl⟩
    · obtain ⟨hs, hsb, hsa⟩ := search_spec a (e :: rest)
      set s := search a (e :: rest)
      obtain ⟨rfl, rfl⟩ : Lookup.at a (before ++ s.1) s.2 = r ∧
          m.saveHint (Lookup.at a (before ++ s.1) s.2).entry = m' := by simpa using h
      have hl : before ++ e :: rest = (before ++ s.1) ++ s.2 := by rw [List.append_assoc, hs]
      have hlink := hlinked (Lookup.at a (before ++ s.1) s.2) hl.symm
      rw [hsplit] at hlink
      rw [hl] at ho ⊢
      exact ⟨located_at ho (List.forall_mem_append.2 ⟨fun x hx => (hbefore x hx).trans h₁, hsb⟩)
        hsa, rfl, .inr hlink⟩
    · obtain ⟨hs, hsb, hsa⟩ := search_spec a (before ++ [e])
      set s := search a (before ++ [e])
      obtain ⟨rfl, rfl⟩ : Lookup.at a s.1 (s.2 ++ rest) = r ∧
          m.saveHint (Lookup.at a s.1 (s.2 ++ rest)).entry = m' := by simpa using h
      have hl : before ++ e :: rest = s.1 ++ (s.2 ++ rest) := by
        rw [← List.append_assoc, hs, List.append_assoc, List.singleton_append]
      have hlink := hlinked (Lookup.at a s.1 (s.2 ++ rest)) hl.symm
      rw [hsplit] at hlink
      rw [hl] at ho ⊢
      refine ⟨located_at ho hsb fun x xs hx => ?_, rfl, .inr hlink⟩
      cases hs2 : s.2 with
      | cons y ys =>
        rw [hs2] at hx
        obtain ⟨rfl, -⟩ : y = x ∧ _ := by simpa using hx
        exact hsa y ys hs2
      | nil =>
        -- the hint starts after the address, so the search does not pass it
        rw [hs2, List.append_nil] at hs
        have := hsb e (by rw [hs]; simp)
        omega

theorem cut_total {p : ℕ} (h : ∃ e ∈ l, e.ptr = p) : ∃ c, cut p l = some c := by
  induction l with
  | nil => simp at h
  | cons e l ih =>
    unfold cut
    split_ifs with hp
    · exact ⟨_, rfl⟩
    · obtain ⟨x, hx, hxp⟩ := h
      rcases List.mem_cons.1 hx with rfl | hx
      · exact absurd hxp hp
      · obtain ⟨c, hc⟩ := ih ⟨x, hx, hxp⟩
        exact ⟨_, by rw [hc]; rfl⟩

theorem position_total (h : Linked l p) : ∃ c, position l p = some c := by
  cases p with
  | none => exact ⟨_, rfl⟩
  | some p => exact cut_total h

theorem lookup_total (h : Linked m.entries m.hint) (a : ℕ) : ∃ r m',
    vmMapLookupEntry m a = some (r, m') := by
  obtain ⟨⟨before, cur⟩, hc⟩ := position_total h
  unfold vmMapLookupEntry
  rw [hc, Option.bind_eq_bind, Option.bind_some]
  cases cur with
  | nil => exact ⟨_, _, rfl⟩
  | cons e rest =>
    simp only
    split_ifs <;> exact ⟨_, _, rfl⟩

theorem startOf_total (h : Linked m.entries p) : ∃ s, m.startOf p = some s := by
  cases p with
  | none => exact ⟨_, rfl⟩
  | some p =>
    obtain ⟨e, he, hp⟩ := h
    cases hfind : m.entries.find? (fun e => decide (e.ptr = p)) with
    | none => exact absurd hp (by simpa using List.find?_eq_none.1 hfind e he)
    | some x => exact ⟨x.vmeStart, by simp [VmMap.startOf, hfind]⟩

end Lookup

section Clip

/-- `e'` is `e`, or a part of it with the same attributes, backed by the same part of the object. -/
structure Piece (e e' : VmMapEntry) : Prop where
  same : e' = { e with
    ptr := e'.ptr
    vmeStart := e'.vmeStart
    vmeEnd := e'.vmeEnd
    offset := e'.offset }
  offset : ∀ a, e'.vmeStart ≤ a → e'.offsetAt a = e.offsetAt a

theorem Piece.refl (e : VmMapEntry) : Piece e e := ⟨rfl, fun _ _ => rfl⟩

theorem offsetAt_of_offset (hx : e.vmeStart ≤ x) (hs : e'.vmeStart = x)
    (ho : e'.offset = e.offsetAt x) (ha : x ≤ a) : e'.offsetAt a = e.offsetAt a := by
  unfold VmMapEntry.offsetAt at ho ⊢
  rw [hs, ho]
  omega

variable {x n : ℕ}

@[simp] theorem clipEnd_fst_start : (e.clipEnd x n).1.vmeStart = e.vmeStart := rfl

@[simp] theorem clipEnd_fst_end : (e.clipEnd x n).1.vmeEnd = x := rfl

theorem piece_clipStart (hx : e.vmeStart ≤ x) :
    Piece e (e.clipStart x n).1 ∧ Piece e (e.clipStart x n).2 :=
  ⟨⟨rfl, fun _ _ => rfl⟩, ⟨rfl, fun _ => offsetAt_of_offset hx rfl rfl⟩⟩

theorem piece_clipEnd (hx : e.vmeStart ≤ x) :
    Piece e (e.clipEnd x n).1 ∧ Piece e (e.clipEnd x n).2 :=
  ⟨⟨rfl, fun _ _ => rfl⟩, ⟨rfl, fun _ => offsetAt_of_offset hx rfl rfl⟩⟩

/-- As many entries were linked as `nentries` was raised by. -/
def Counted (h : Hdr) (l : List VmMapEntry) (h' : Hdr) (l' : List VmMapEntry) : Prop :=
  h'.nentries - l'.length = h.nentries - l.length

/-- The map was changed in its links and hints only, and its entries were cut. -/
structure Recut (R : VmMapEntry → VmMapEntry → Prop) (m m' : VmMap) : Prop where
  cuts : Cuts R m.entries m'.entries
  counted : Counted m.hdr m.entries m'.hdr m'.entries
  minOffset : m'.minOffset = m.minOffset
  maxOffset : m'.maxOffset = m.maxOffset
  size : m'.size = m.size

theorem Recut.wellFormed {R : VmMapEntry → VmMapEntry → Prop} (h : Recut R m m')
    (hm : WellFormed m) : WellFormed m' := by
  refine ⟨h.cuts.ordered hm.ordered, fun e he => ?_, ?_, ?_, h.maxOffset ▸ hm.max_lt⟩
  · rw [h.minOffset, h.maxOffset]
    exact ⟨h.cuts.start_ge (fun x hx => (hm.bounds x hx).1) e he,
      h.cuts.stop_le (fun x hx => (hm.bounds x hx).2) e he⟩
  · have := h.counted
    have := hm.nentries
    unfold Counted at *
    omega
  · rw [h.size, hm.size, h.cuts.total_eq]

theorem recut_saveHint (m : VmMap) (p : Option ℕ) : Recut Piece m (m.saveHint p) :=
  ⟨.refl fun e _ => Piece.refl e, rfl, rfl, rfl, rfl⟩

theorem OnlyHint.wellFormed (h : OnlyHint m m') (hm : WellFormed m) : WellFormed m' := by
  rw [h.eq]
  exact (recut_saveHint m _).wellFormed hm

/-- A list that is changed in place: an entry keeps its address and ends no later, what is new has
its address from the zone, and what was mapped still is. -/
structure Held (h : Hdr) (l : List VmMapEntry) (h' : Hdr) (l' : List VmMapEntry) : Prop where
  zone : h.zone ≤ h'.zone
  ptrs : (l'.map VmMapEntry.ptr).Perm
    (l.map VmMapEntry.ptr ++ List.range' h.zone (h'.zone - h.zone))
  ends : ∀ e ∈ l, ∃ e' ∈ l', e'.ptr = e.ptr ∧ e'.vmeEnd ≤ e.vmeEnd
  covers : ∀ e ∈ l, ∀ a, Covers e a → ∃ e' ∈ l', Covers e' a

section Held

variable {h h' h'' : Hdr} {l'' k : List VmMapEntry}

theorem held_of_perm (h : Hdr) (hl : l.Perm l') : Held h l h l' :=
  ⟨le_rfl, by simpa using (hl.map _).symm, fun e he => ⟨e, hl.subset he, rfl, le_rfl⟩,
    fun e he _ hc => ⟨e, hl.subset he, hc⟩⟩

theorem Held.refl (h : Hdr) (l : List VmMapEntry) : Held h l h l := held_of_perm h (.refl l)

theorem Held.trans (h₁ : Held h l h' l') (h₂ : Held h' l' h'' l'') : Held h l h'' l'' := by
  have hz := h₁.zone
  have hz' := h₂.zone
  refine ⟨hz.trans hz', ?_, fun e he => ?_, fun e he a hc => ?_⟩
  · have hrange := @List.range'_append h.zone (h'.zone - h.zone) (h''.zone - h'.zone) 1
    rw [one_mul, show h.zone + (h'.zone - h.zone) = h'.zone by omega,
      show h'.zone - h.zone + (h''.zone - h'.zone) = h''.zone - h.zone by omega] at hrange
    rw [← hrange, ← List.append_assoc]
    exact h₂.ptrs.trans (h₁.ptrs.append_right _)
  · obtain ⟨x, hx, hp, hle⟩ := h₁.ends e he
    obtain ⟨y, hy, hp', hle'⟩ := h₂.ends x hx
    exact ⟨y, hy, hp'.trans hp, hle'.trans hle⟩
  · obtain ⟨x, hx, hcx⟩ := h₁.covers e he a hc
    exact h₂.covers x hx a hcx

theorem Held.behind (k : List VmMapEntry) (hl : Held h l h' l') : Held h (k ++ l) h' (k ++ l') := by
  refine ⟨hl.zone, by simpa using hl.ptrs.append_left _, fun e he => ?_, fun e he a hc => ?_⟩
  · rcases List.mem_append.1 he with he | he
    · exact ⟨e, List.mem_append_left _ he, rfl, le_rfl⟩
    · obtain ⟨x, hx, hend⟩ := hl.ends e he
      exact ⟨x, List.mem_append_right _ hx, hend⟩
  · rcases List.mem_append.1 he with he | he
    · exact ⟨e, List.mem_append_left _ he, hc⟩
    · obtain ⟨x, hx, hcx⟩ := hl.covers e he a hc
      exact ⟨x, List.mem_append_right _ hx, hcx⟩

theorem Held.ahead (hl : Held h l h' l') (k : List VmMapEntry) : Held h (l ++ k) h' (l' ++ k) :=
  ((held_of_perm h List.perm_append_comm).trans (hl.behind k)).trans
    (held_of_perm h' List.perm_append_comm)

theorem Held.linked (hl : Held h l h' l') (hp : Linked l p) : Linked l' p :=
  hp.mono fun e he => (hl.ends e he).imp fun _ hx => ⟨hx.1, hx.2.1⟩

/-- The fields of one entry are changed. -/
theorem held_one (h : Hdr) (hp : e'.ptr = e.ptr) (hs : e'.vmeStart = e.vmeStart)
    (he : e'.vmeEnd = e.vmeEnd) : Held h [e] h [e'] := by
  refine ⟨le_rfl, by simp [hp], fun x hx => ?_, fun x hx a hc => ?_⟩
  · rw [List.mem_singleton.1 hx]
    exact ⟨e', List.mem_cons_self, hp, he.le⟩
  · rw [List.mem_singleton.1 hx] at hc
    exact ⟨e', List.mem_cons_self, by unfold Covers at *; simpa [hs, he] using hc⟩

theorem Held.cons (hone : Held h [e] h [e']) (hl : Held h l h' l') :
    Held h (e :: l) h' (e' :: l') :=
  (hone.ahead l).trans (hl.behind [e'])

/-- The part behind `x` keeps the address of the entry. -/
theorem clipStart_held (h : Hdr) (e : VmMapEntry) (x : ℕ) :
    Held h [e] h.link [(e.clipStart x h.zone).1, (e.clipStart x h.zone).2] := by
  refine ⟨Nat.le_succ _, ?_, fun y hy => ?_, fun y hy a hc => ?_⟩
  · rw [show h.link.zone - h.zone = 1 from Nat.add_sub_cancel_left ..]
    exact .swap _ _ _
  · rw [List.mem_singleton.1 hy]
    exact ⟨_, List.mem_cons_of_mem _ List.mem_cons_self, rfl, le_rfl⟩
  · rw [List.mem_singleton.1 hy] at hc
    rcases lt_or_ge a x with hlt | hge
    · exact ⟨_, List.mem_cons_self, hc.1, hlt⟩
    · exact ⟨_, List.mem_cons_of_mem _ List.mem_cons_self, hge, hc.2⟩

/-- The part before `x` keeps the address of the entry. -/
theorem clipEnd_held (h : Hdr) (hx : x ≤ e.vmeEnd) :
    Held h [e] h.link [(e.clipEnd x h.zone).1, (e.clipEnd x h.zone).2] := by
  refine ⟨Nat.le_succ _, ?_, fun y hy => ?_, fun y hy a hc => ?_⟩
  · rw [show h.link.zone - h.zone = 1 from Nat.add_sub_cancel_left ..]
    exact .refl _
  · rw [List.mem_singleton.1 hy]
    exact ⟨_, List.mem_cons_self, rfl, hx⟩
  · rw [List.mem_singleton.1 hy] at hc
    rcases lt_or_ge a x with hlt | hge
    · exact ⟨_, List.mem_cons_self, hc.1, hlt⟩
    · exact ⟨_, List.mem_cons_of_mem _ List.mem_cons_self, hge, hc.2⟩

end Held

/-- Nothing from the entry on that was found ends before the address. -/
theorem Located.lt_end_of_found {r : Lookup} (h : Located l a r) (ho : Ordered l)
    (hf : r.found = true) : ∀ x ∈ r.after, a < x.vmeEnd := by
  obtain ⟨e, rest, hafter, -, hlt⟩ := h.found hf
  rw [← h.split] at ho
  have hor := ho.right
  rw [hafter] at hor ⊢
  refine List.forall_mem_cons.2 ⟨hlt, fun x hx => ?_⟩
  have h₁ := (ordered_cons.1 hor).2.1 x hx
  have h₂ := hor.nonempty x (List.mem_cons_of_mem _ hx)
  simp only [start_entry, stop_entry] at h₁ h₂
  omega

/-- What a routine starts from: the range begins with the first entry of `after`. -/
structure Sought (m m' : VmMap) (a : ℕ) (r : Lookup) : Prop where
  split : r.before ++ r.after = m'.entries
  before : ∀ e ∈ r.before, e.vmeEnd ≤ a
  after : ∀ e ∈ r.after, a ≤ e.vmeStart
  found : r.found = true → ∃ e rest, r.after = e :: rest ∧ e.vmeStart = a
  free : r.found = false → ∀ e ∈ m.entries, ¬ Covers e a
  recut : Recut Piece m m'
  firstFree : m'.firstFree = m.firstFree
  hint : m'.hint = m.hint ∨ Linked m'.entries m'.hint
  held : Held m.hdr m.entries m'.hdr m'.entries

theorem seek_spec (hm : WellFormed m) {r : Lookup} (h : m.seek a = some (r, m')) :
    Sought m m' a r := by
  unfold VmMap.seek at h
  obtain ⟨⟨r₁, m₁⟩, hlook, h⟩ := Option.bind_eq_some_iff.1 h
  obtain ⟨hloc, hhint⟩ := lookup_spec hm.ordered.loose hlook
  have heq := hhint.eq
  have hlink₁ : m₁.hint = m.hint ∨ Linked m.entries m₁.hint := hhint.linked
  simp only at h
  have ho := hm.ordered
  rw [← hloc.split] at ho
  split at h
  · rename_i e after hf hafter
    obtain ⟨e', rest, hrest, hs, he⟩ := hloc.found hf
    obtain ⟨rfl, rfl⟩ : e = e' ∧ after = rest := by simpa [hafter] using hrest
    rw [hafter] at ho
    have hlater : ∀ x ∈ after, e.vmeEnd ≤ x.vmeStart := (ordered_cons.1 ho.right).2.1
    split_ifs at h with hlt
    · cases h
      have hheld : Held m.hdr m.entries m₁.hdr.link (r₁.before ++ (e.clipStart a m₁.hdr.zone).1 ::
          (e.clipStart a m₁.hdr.zone).2 :: after) := by
        rw [← hloc.split, hafter, show m₁.hdr = m.hdr by rw [heq]; rfl]
        exact ((clipStart_held m.hdr e a).ahead after).behind r₁.before
      refine ⟨by simp, ?_, ?_, fun _ => ⟨_, _, rfl, rfl⟩, by simp, ?_, by rw [heq]; rfl,
        hlink₁.imp_right hheld.linked, hheld⟩
      · exact List.forall_mem_append.2 ⟨hloc.before, by simp [VmMapEntry.clipStart]⟩
      · refine List.forall_mem_cons.2 ⟨le_rfl, fun x hx => ?_⟩
        have := hlater x hx
        omega
      · rw [heq]
        refine ⟨?_, ?_, rfl, rfl, rfl⟩
        · rw [← hloc.split, hafter]
          refine .append (.refl fun x _ => Piece.refl x) ?_
          have hp := piece_clipStart (n := m.hdr.zone) hlt.le
          exact .split hp.1 hp.2 rfl rfl rfl hlt he (.refl fun x _ => Piece.refl x)
        · rw [← hloc.split, hafter]
          simp only [Counted, Hdr.link_nentries, saveHint_hdr, List.length_append, List.length_cons]
          push_cast
          omega
    · cases h
      rw [heq]
      refine ⟨hloc.split, hloc.before, ?_, fun _ => ⟨e, after, hafter, by omega⟩,
        by simp [hf], recut_saveHint m _, rfl, hlink₁, .refl _ _⟩
      rw [hafter]
      refine List.forall_mem_cons.2 ⟨by omega, fun x hx => ?_⟩
      have := hlater x hx
      omega
  · rename_i hnot
    obtain ⟨rfl, rfl⟩ := Prod.mk.inj (Option.some.inj h)
    have hf : r₁.found = false := by
      rw [Bool.eq_false_iff]
      intro hf
      obtain ⟨e, rest, hrest, -⟩ := hloc.found hf
      exact hnot e rest hf hrest
    rw [heq]
    refine ⟨hloc.split, hloc.before, fun e he => (hloc.free hf e he).le, by simp [hf],
      fun _ e he hc => ?_, recut_saveHint m _, rfl, hlink₁, .refl _ _⟩
    rw [← hloc.split] at he
    rcases List.mem_append.1 he with he | he
    · exact absurd hc.2 (not_lt.2 (hloc.before e he))
    · exact absurd hc.1 (not_le.2 (hloc.free hf e he))

theorem seek_total (h : Linked m.entries m.hint) (a : ℕ) : ∃ r m', m.seek a = some (r, m') := by
  obtain ⟨r, m', hlook⟩ := lookup_total h a
  unfold VmMap.seek
  rw [hlook, Option.bind_eq_bind, Option.bind_some]
  simp only
  split
  · split_ifs <;> exact ⟨_, _, rfl⟩
  · exact ⟨_, _, rfl⟩

end Clip

section Range

/-- What the walk over a range does to an entry: what lies before the end of the range is changed by
`f`, and the rest is only cut off. -/
def RangeChange (end_ : ℕ) (f : VmMapEntry → VmMapEntry) (e e' : VmMapEntry) : Prop :=
  (e'.vmeEnd ≤ end_ ∧ ∃ p, Piece e p ∧ e' = f p) ∨ (end_ ≤ e'.vmeStart ∧ Piece e e')

/-- The change leaves the entry where it is. -/
def KeepsBounds (f : VmMapEntry → VmMapEntry) : Prop :=
  ∀ e, (f e).vmeStart = e.vmeStart ∧ (f e).vmeEnd = e.vmeEnd

theorem forRange_spec {f : VmMapEntry → VmMapEntry} (hf : KeepsBounds f) (end_ : ℕ) (ho : Ordered l)
    (h : Hdr) : Cuts (RangeChange end_ f) l (forRange end_ f l h).1 ∧
      Counted h l (forRange end_ f l h).2 (forRange end_ f l h).1 := by
  induction l with
  | nil => exact ⟨.nil, rfl⟩
  | cons e l ih =>
    obtain ⟨he, hl, ho'⟩ := ordered_cons.1 ho
    simp only [start_entry, stop_entry] at he hl
    unfold forRange
    split_ifs with h₁ h₂
    · -- the entry goes beyond the range: the walk ends with what is cut off
      have hp := piece_clipEnd (n := h.zone) h₁.le
      refine ⟨.split (.inl ⟨by rw [(hf _).2]; rfl, _, hp.1, rfl⟩) (.inr ⟨le_rfl, hp.2⟩)
        (hf _).1 (hf _).2 rfl h₁ h₂ (.refl fun x hx => .inr ⟨?_, Piece.refl x⟩), ?_⟩
      · have := hl x hx
        omega
      · simp only [Counted, Hdr.link_nentries, List.length_cons]
        push_cast
        omega
    · obtain ⟨hc, hn⟩ := ih ho'
      refine ⟨.keep (.inl ⟨by rw [(hf e).2]; omega, e, Piece.refl e, rfl⟩) (hf e).1 (hf e).2 hc, ?_⟩
      simp only [Counted, List.length_cons] at hn ⊢
      push_cast
      omega
    · refine ⟨.refl fun x hx => .inr ⟨?_, Piece.refl x⟩, rfl⟩
      rcases List.mem_cons.1 hx with rfl | hx
      · omega
      · have := hl x hx
        omega

theorem keepsBounds_setProtection (newProt : VmProt) (setMax : Bool) :
    KeepsBounds (VmMapEntry.setProtection newProt setMax) := by
  intro e
  unfold VmMapEntry.setProtection
  split_ifs <;> exact ⟨rfl, rfl⟩

theorem keepsBounds_setInheritance (new : VmInherit) :
    KeepsBounds (VmMapEntry.setInheritance new) :=
  fun _ => ⟨rfl, rfl⟩

/-- A walk over the part of a map behind a position cuts the map. -/
theorem recut_behind {R : VmMapEntry → VmMapEntry → Prop} {after' : List VmMapEntry} {h : Hdr}
    (hl : m.entries = before ++ after) (hR : ∀ e ∈ before, R e e) (hc : Cuts R after after')
    (hn : Counted m.hdr after h after') :
    Recut R m { m with entries := before ++ after', hdr := h } := by
  refine ⟨by rw [hl]; exact .append (.refl hR) hc, ?_, rfl, rfl, rfl⟩
  simp only [Counted, hl, List.length_append] at hn ⊢
  push_cast
  omega

theorem protect_wellFormed (hm : WellFormed m) {newProt : VmProt} {setMax : Bool}
    (h : vmMapProtect m a end_ newProt setMax = some (kr, m')) : WellFormed m' := by
  unfold vmMapProtect at h
  obtain ⟨⟨r, m₁⟩, hseek, h⟩ := Option.bind_eq_some_iff.1 h
  have hs := seek_spec hm hseek
  have hm₁ := hs.recut.wellFormed hm
  simp only at h
  split at h
  · cases h
    exact hm₁
  · cases h
    have ho := hm₁.ordered
    rw [← hs.split] at ho
    obtain ⟨hc, hn⟩ := forRange_spec (keepsBounds_setProtection newProt setMax) _ ho.right m₁.hdr
    exact (recut_behind (R := fun _ _ => True) hs.split.symm (fun _ _ => trivial)
      (hc.mono fun _ _ _ _ => trivial) hn).wellFormed hm₁

theorem inherit_wellFormed (hm : WellFormed m) {new : VmInherit}
    (h : vmMapInherit m a end_ new = some (kr, m')) : WellFormed m' := by
  unfold vmMapInherit at h
  obtain ⟨⟨r, m₁⟩, hseek, h⟩ := Option.bind_eq_some_iff.1 h
  have hs := seek_spec hm hseek
  have hm₁ := hs.recut.wellFormed hm
  cases h
  have ho := hm₁.ordered
  rw [← hs.split] at ho
  obtain ⟨hc, hn⟩ := forRange_spec (keepsBounds_setInheritance new) _ ho.right m₁.hdr
  exact (recut_behind (R := fun _ _ => True) hs.split.symm (fun _ _ => trivial)
    (hc.mono fun _ _ _ _ => trivial) hn).wellFormed hm₁

end Range

section Insert

theorem WellFormed.insert (hm : WellFormed m) {new : List VmMapEntry}
    (hl : m.entries = before ++ after)
    (ht : Tiles new start end_) (hb : ∀ e ∈ before, e.vmeEnd ≤ start)
    (ha : ∀ e ∈ after, end_ ≤ e.vmeStart)
    (hlo : m.minOffset ≤ start) (hhi : end_ ≤ m.maxOffset)
    (hentries : m'.entries = before ++ (new ++ after))
    (hn : m'.hdr.nentries = m.hdr.nentries + new.length)
    (hsize : m'.size = (m.size + (end_ - start)) % 2 ^ 32) (hmin : m'.minOffset = m.minOffset)
    (hmax' : m'.maxOffset = m.maxOffset) : WellFormed m' := by
  obtain ⟨hnew, hin, hse, htot⟩ := ht.ordered
  have ho := hm.ordered
  rw [hl] at ho
  have hbounds : ∀ e ∈ m'.entries, m'.minOffset ≤ e.vmeStart ∧ e.vmeEnd ≤ m'.maxOffset := by
    intro e he
    rw [hmin, hmax']
    rw [hentries, List.mem_append, List.mem_append] at he
    rcases he with he | he | he
    · exact hm.bounds e (by rw [hl]; exact List.mem_append_left _ he)
    · have := hin e he
      simp only [start_entry, stop_entry] at this
      omega
    · exact hm.bounds e (by rw [hl]; exact List.mem_append_right _ he)
  have hordered : Ordered m'.entries := by
    rw [hentries]
    refine ordered_append.2 ⟨ho.left, ordered_append.2 ⟨hnew, ho.right, fun x hx y hy => ?_⟩,
      fun x hx y hy => ?_⟩
    · exact (hin x hx).2.trans (ha y hy)
    · rcases List.mem_append.1 hy with hy | hy
      · exact (hb x hx).trans (hin y hy).1
      · exact (ordered_append.1 ho).2.2 x hx y hy
  have htotal : total m'.entries = m.size + (end_ - start) := by
    rw [hm.size, hentries, hl]
    simp only [total_append, htot]
    omega
  have hmax := hm.max_lt
  refine ⟨hordered, hbounds, ?_, ?_, hmax' ▸ hmax⟩
  · rw [hn, hm.nentries, hentries, hl]
    simp only [List.length_append]
    push_cast
    omega
  · have := hordered.total_le (fun x hx => (hbounds x hx).1) (fun x hx => (hbounds x hx).2)
      (by omega)
    rw [hsize, ← htotal]
    exact Nat.mod_eq_of_lt (by omega)

theorem WellFormed.extend (hm : WellFormed m) (hl : m.entries = before ++ e :: after)
    (hs : e'.vmeStart = e.vmeStart) (he : e'.vmeEnd = end_) (hle : e.vmeEnd ≤ end_)
    (ha : ∀ x ∈ after, end_ ≤ x.vmeStart) (hhi : end_ ≤ m.maxOffset)
    (hentries : m'.entries = before ++ e' :: after) (hn : m'.hdr.nentries = m.hdr.nentries)
    (hsize : m'.size = (m.size + (end_ - e.vmeEnd)) % 2 ^ 32) (hmin : m'.minOffset = m.minOffset)
    (hmax' : m'.maxOffset = m.maxOffset) : WellFormed m' := by
  have ho := hm.ordered
  rw [hl] at ho
  obtain ⟨hob, hoe, hba⟩ := ordered_append.1 ho
  obtain ⟨hne, -, hoa⟩ := ordered_cons.1 hoe
  simp only [start_entry, stop_entry] at hne
  have hbounds : ∀ x ∈ m'.entries, m'.minOffset ≤ x.vmeStart ∧ x.vmeEnd ≤ m'.maxOffset := by
    intro x hx
    rw [hmin, hmax']
    rw [hentries, List.mem_append, List.mem_cons] at hx
    rcases hx with hx | rfl | hx
    · exact hm.bounds x (by rw [hl]; exact List.mem_append_left _ hx)
    · have := hm.bounds e (by rw [hl]; simp)
      omega
    · exact hm.bounds x (by rw [hl]; simp [hx])
  have hordered : Ordered m'.entries := by
    rw [hentries]
    refine ordered_append.2 ⟨hob, ordered_cons.2 ⟨?_, fun x hx => ?_, hoa⟩, fun x hx y hy => ?_⟩
    · simp only [start_entry, stop_entry]
      omega
    · have := ha x hx
      simp only [start_entry, stop_entry]
      omega
    · rcases List.mem_cons.1 hy with rfl | hy
      · have := hba x hx e List.mem_cons_self
        simp only [start_entry, stop_entry] at this ⊢
        omega
      · exact hba x hx y (List.mem_cons_of_mem _ hy)
  have htotal : total m'.entries = m.size + (end_ - e.vmeEnd) := by
    rw [hm.size, hentries, hl]
    simp only [total_append, total_cons, start_entry, stop_entry]
    omega
  have hin := hm.bounds e (by rw [hl]; simp)
  have hmax := hm.max_lt
  refine ⟨hordered, hbounds, ?_, ?_, hmax' ▸ hmax⟩
  · rw [hn, hm.nentries, hentries, hl]
    simp
  · have := hordered.total_le (fun x hx => (hbounds x hx).1) (fun x hx => (hbounds x hx).2)
      (by omega)
    rw [hsize, ← htotal]
    exact Nat.mod_eq_of_lt (by omega)

/-- A gap that the search for space has found. -/
structure Gap (m : VmMap) (before after : List VmMapEntry) (start size : ℕ) : Prop where
  split : m.entries = before ++ after
  before : ∀ e ∈ before, e.vmeEnd ≤ start
  after : ∀ e ∈ after, start + size ≤ e.vmeStart
  lo : m.minOffset ≤ start
  hi : start + size ≤ m.maxOffset

theorem alignUp_lt (start mask : ℕ) : alignUp start mask < 2 ^ 32 := by
  unfold alignUp
  exact lt_of_le_of_lt Nat.and_le_left (Nat.mod_lt _ (Nat.two_pow_pos 32))

theorem roundPage_lt (x : ℕ) : roundPage x < 2 ^ 32 :=
  lt_of_le_of_lt (Nat.sub_le _ _) (Nat.mod_lt _ (Nat.two_pow_pos 32))

theorem Laid.min_le_end (hm : Laid m) : ∀ e ∈ m.entries, m.minOffset ≤ e.vmeEnd :=
  fun e he => (hm.lo e he).trans (hm.loose.le e he)

theorem findSpace_spec (hm : Laid m) (hsize : size < 2 ^ 32) {before' after' : List VmMapEntry}
    {start' : ℕ}
    (hl : m.entries = before ++ after) (hb : ∀ e ∈ before, e.vmeEnd ≤ start)
    (hlo : m.minOffset ≤ start)
    (h : findSpace m.maxOffset size mask before after start = .found before' after' start') :
    Gap m before' after' start' size := by
  have ho := hm.loose
  induction after generalizing before start with
  | nil =>
    rw [findSpace] at h
    simp only at h
    split_ifs at h with h₁ h₂
    cases h
    have := alignUp_lt start mask
    exact ⟨hl, fun e he => (hb e he).trans (not_lt.1 h₁), by simp, by omega, by omega⟩
  | cons next rest ih =>
    rw [findSpace] at h
    simp only at h
    split_ifs at h with h₁ h₂ h₃
    · cases h
      have := alignUp_lt start mask
      refine ⟨hl, fun e he => (hb e he).trans (not_lt.1 h₁), ?_, by omega, by omega⟩
      rw [hl] at ho
      refine List.forall_mem_cons.2 ⟨by omega, fun e he => ?_⟩
      have hse := ho.right.start_le he
      simp only [start_entry] at hse
      omega
    · have hmem : next ∈ m.entries := by rw [hl]; simp
      refine ih (by rw [hl]; simp) ?_ (hm.min_le_end next hmem) h
      refine List.forall_mem_append.2 ⟨fun e he => ?_, by simp⟩
      have hlt := ho.le next hmem
      rw [hl] at ho
      have := (loose_append.1 ho).2.2 e he next List.mem_cons_self
      simp only [start_entry, stop_entry] at this hlt
      omega

theorem behind_spec (h : behind l p = some c) : c.1 ++ c.2 = l := by
  cases p with
  | none =>
    cases h
    rfl
  | some p =>
    obtain ⟨d, hd, rfl⟩ := Option.map_eq_some_iff.1 h
    rw [List.append_assoc, List.take_append_drop]
    exact (cut_spec hd).1

/-- Everything before the last entry of a list ends before it does. -/
theorem end_le_getLast (ho : Loose before) (h : before.getLast? = some e) :
    ∀ x ∈ before, x.vmeEnd ≤ e.vmeEnd := by
  obtain ⟨l, rfl⟩ := List.getLast?_eq_some_iff.1 h
  intro x hx
  rcases List.mem_append.1 hx with hx | hx
  · have := (loose_append.1 ho).2.2 x hx e (by simp)
    have := ho.le e (by simp)
    simp only [start_entry, stop_entry] at *
    omega
  · simp only [List.mem_singleton] at hx
    rw [hx]

theorem fromFirstFree_spec (hm : Laid m) (h : m.fromFirstFree = some (before, after, start)) :
    m.entries = before ++ after ∧ (∀ e ∈ before, e.vmeEnd ≤ start) ∧ m.minOffset ≤ start := by
  unfold VmMap.fromFirstFree at h
  obtain ⟨⟨b, c⟩, hbehind, h⟩ := Option.bind_eq_some_iff.1 h
  have hsplit := behind_spec hbehind
  have ho := hm.loose
  rw [← hsplit] at ho
  simp only at h
  split at h
  · rename_i hlast
    cases h
    rw [List.getLast?_eq_none_iff] at hlast
    exact ⟨hsplit.symm, by simp [hlast], le_rfl⟩
  · rename_i e hlast
    cases h
    refine ⟨hsplit.symm, end_le_getLast ho.left hlast, hm.min_le_end e ?_⟩
    rw [← hsplit]
    exact List.mem_append_left _ (List.mem_of_getLast? hlast)

theorem dropLast_append_of_getLast (h : before.getLast? = some e) :
    before = before.dropLast ++ [e] := by
  obtain ⟨l, rfl⟩ := List.getLast?_eq_some_iff.1 h
  simp

theorem Gap.insert_wellFormed (hg : Gap m before after start size) (hm : WellFormed m)
    (hsize : 0 < size)
    (hs : e.vmeStart = start) (he : e.vmeEnd = start + size)
    (hentries : m'.entries = before ++ e :: after)
    (hn : m'.hdr.nentries = m.hdr.nentries + 1) (hsize' : m'.size = (m.size + size) % 2 ^ 32)
    (hmin : m'.minOffset = m.minOffset) (hmax' : m'.maxOffset = m.maxOffset) : WellFormed m' := by
  have ht : Tiles [e] start (start + size) := by
    refine ⟨hs, ?_, he⟩
    simp only [start_entry, stop_entry]
    omega
  exact hm.insert hg.split ht hg.before hg.after hg.lo hg.hi (by simpa using hentries) hn
    (by rw [hsize', Nat.add_sub_cancel_left]) hmin hmax'

theorem Gap.extend_wellFormed {n : VmMapEntry} (hg : Gap m before after start size)
    (hm : WellFormed m)
    (hlast : before.getLast? = some e) (hend : e.vmeEnd = start) (hs : n.vmeStart = e.vmeStart)
    (he : n.vmeEnd = start + size) (hentries : m'.entries = before.dropLast ++ n :: after)
    (hcount : m'.hdr.nentries = m.hdr.nentries) (hsize' : m'.size = (m.size + size) % 2 ^ 32)
    (hmin : m'.minOffset = m.minOffset) (hmax' : m'.maxOffset = m.maxOffset) : WellFormed m' := by
  have hl : m.entries = before.dropLast ++ e :: after := by
    rw [hg.split]
    nth_rewrite 1 [dropLast_append_of_getLast hlast]
    simp
  refine hm.extend hl hs he (by omega) hg.after hg.hi hentries hcount ?_ hmin hmax'
  rw [hsize', hend, Nat.add_sub_cancel_left]

theorem Gap.mod_eq (hg : Gap m before after start size) (hm : Laid m) :
    (start + size) % 2 ^ 32 = start + size :=
  Nat.mod_eq_of_lt (lt_of_le_of_lt hg.hi hm.max_lt)

theorem place_wellFormed (hm : WellFormed m) (hsize : 0 < r.size)
    (hg : Gap m before after start r.size)
    (grows : Bool) : WellFormed (m.place before after start r grows) := by
  have hmod := hg.mod_eq hm.laid
  have hinsert : WellFormed (m.insertEntry before after start ((start + r.size) % 2 ^ 32) r) :=
    hg.insert_wellFormed hm hsize (e := r.newEntry m.hdr.zone start ((start + r.size) % 2 ^ 32))
      rfl hmod rfl rfl rfl rfl rfl
  unfold VmMap.place
  split
  · rename_i entry hlast
    split_ifs with hext
    · have hend : entry.vmeEnd = start := by
        simp only [EnterRequest.extends, decide_eq_true_eq] at hext
        exact hext.2.1
      refine hg.extend_wellFormed hm hlast hend (n :=
        { entry with vmeEnd := (start + r.size) % 2 ^ 32 })
        rfl hmod rfl rfl ?_ rfl rfl
      simp only [hmod, hend, Nat.add_sub_cancel_left]
    · exact hinsert
  · exact hinsert

theorem OnlyHint.laid (h : OnlyHint m m') (hm : Laid m) : Laid m' := by
  rw [h.eq]
  exact ⟨hm.loose, hm.lo, hm.max_lt⟩

/-- Where `vm_map_enter` begins to search lies behind everything before it. -/
theorem searchStart_spec (hm : Laid m) (ha : m.minOffset ≤ a)
    (h : m.searchStart a = some ((before, after, start), m')) :
    OnlyHint m m' ∧ m'.entries = before ++ after ∧ (∀ e ∈ before, e.vmeEnd ≤ start) ∧
      m'.minOffset ≤ start := by
  unfold VmMap.searchStart at h
  split_ifs at h with hmin
  · obtain ⟨c, hc, h⟩ := Option.map_eq_some_iff.1 h
    cases h
    exact ⟨.refl m, fromFirstFree_spec hm hc⟩
  · obtain ⟨⟨r, m₁⟩, hlook, h⟩ := Option.bind_eq_some_iff.1 h
    obtain ⟨hloc, hhint⟩ := lookup_spec hm.loose hlook
    have hm₁ := hhint.laid hm
    simp only at h
    split at h
    · rename_i e rest hf hafter
      obtain ⟨⟨rfl, rfl, rfl⟩, rfl⟩ : (r.before ++ [e] = before ∧ rest = after ∧ e.vmeEnd = start) ∧
        m₁ = m' := by
        simpa using h
      have hsplit : m₁.entries = r.before ++ [e] ++ rest := by
        rw [hhint.entries, ← hloc.split, hafter]
        simp
      have ho := hm₁.loose
      rw [hsplit] at ho
      refine ⟨hhint, hsplit, end_le_getLast ho.left (by simp), hm₁.min_le_end e ?_⟩
      rw [hsplit]
      simp
    · obtain ⟨⟨rfl, rfl, rfl⟩, rfl⟩ : (r.before = before ∧ r.after = after ∧ a = start) ∧
        m₁ = m' := by
        simpa using h
      exact ⟨hhint, by rw [hhint.entries, hloc.split],
        hloc.before, by rw [hhint.minOffset]; exact ha⟩

/-- `vm_map_enter` puts the request into a gap, or leaves the map as it is but for the hint. -/
def Entered (m m' : VmMap) (a : ℕ) (r : EnterRequest) (grows : Bool) (reply : Reply) : Prop :=
  ∃ m₁, OnlyHint m m₁ ∧ ((m' = m₁ ∧ ∀ x, reply ≠ .success x) ∨
    ∃ before after start, Gap m₁ before after start r.size ∧ (r.anywhere = false → start = a) ∧
      reply = .success start ∧ m' = m₁.place before after start r grows)

theorem enterAnywhere_spec (hm : Laid m) (hany : r.anywhere = true) (hsize : r.size < 2 ^ 32)
    {x : EnterExit}
    (h : vmMapEnterExit m a r grows = some x) : Entered m x.map a r grows x.reply := by
  unfold vmMapEnterExit at h
  rw [if_pos hany] at h
  simp only at h
  set first := if a < m.minOffset then m.minOffset else a with hfirst
  have hlo : m.minOffset ≤ first := by
    rw [hfirst]
    split_ifs <;> omega
  split at h
  · cases h
    exact ⟨m, .refl m, .inl ⟨rfl, by simp⟩⟩
  · obtain ⟨⟨⟨before, after, start⟩, m₁⟩, hstart, h⟩ := Option.bind_eq_some_iff.1 h
    obtain ⟨hhint, hl, hb, hlo₁⟩ := searchStart_spec hm hlo hstart
    have hm₁ := hhint.laid hm
    refine ⟨m₁, hhint, ?_⟩
    simp only at h
    split at h
    · cases h
      exact .inl ⟨rfl, by simp⟩
    · split_ifs at h <;> obtain rfl := Option.some.inj h <;>
        exact .inl ⟨rfl, by simp⟩
    · rename_i before' after' start' hspace
      cases h
      exact .inr ⟨before', after', start', findSpace_spec hm₁ hsize hl hb hlo₁ hspace,
        by simp [hany], rfl, rfl⟩

theorem enterAt_spec (hm : Laid m) (hany : r.anywhere = false) (hsize : r.size < 2 ^ 32)
    {x : EnterExit}
    (h : vmMapEnterExit m a r grows = some x) : Entered m x.map a r grows x.reply := by
  unfold vmMapEnterExit at h
  rw [if_neg (by simp [hany])] at h
  by_cases hmask : a &&& r.mask ≠ 0
  · rw [if_pos hmask] at h
    cases h
    exact ⟨m, .refl m, .inl ⟨rfl, by simp⟩⟩
  rw [if_neg hmask] at h
  simp only at h
  split_ifs at h with hrange
  · cases h
    exact ⟨m, .refl m, .inl ⟨rfl, by simp⟩⟩
  · obtain ⟨⟨r₁, m₁⟩, hlook, h⟩ := Option.bind_eq_some_iff.1 h
    obtain ⟨hloc, hhint⟩ := lookup_spec hm.loose hlook
    refine ⟨m₁, hhint, ?_⟩
    have hm₁ := hhint.laid hm
    simp only at h
    split_ifs at h with hf
    · cases h
      exact .inl ⟨rfl, by simp⟩
    · -- the request does not wrap
      have hmod : (a + r.size) % 2 ^ 32 = a + r.size := Nat.mod_eq_of_lt (by omega)
      rw [hmod] at hrange h
      have hsplit : m₁.entries = r₁.before ++ r₁.after := by rw [hhint.entries, hloc.split]
      have hlo := hhint.minOffset
      have hhi := hhint.maxOffset
      have hgap : (∀ e ∈ r₁.after, a + r.size ≤ e.vmeStart) → Gap m₁ r₁.before r₁.after a r.size :=
        fun hafter => ⟨hsplit, hloc.before, hafter, by omega, by omega⟩
      split at h
      · rename_i hafter
        cases h
        refine .inr ⟨r₁.before, r₁.after, a, hgap (by simp [hafter]), fun _ => rfl,
          rfl, by rw [hafter]⟩
      · rename_i next rest hafter
        split_ifs at h with hnext
        · cases h
          exact .inl ⟨rfl, by simp⟩
        · cases h
          refine .inr ⟨r₁.before, r₁.after, a, hgap fun e he => ?_, fun _ => rfl,
            rfl, by rw [hafter]⟩
          rw [hafter] at he
          have ho := hm₁.loose
          rw [hsplit, hafter] at ho
          rcases List.mem_cons.1 he with rfl | he
          · omega
          · have := ho.right.start_le he
            simp only [start_entry] at this
            omega

theorem enter_spec (hm : Laid m) (hsize : r.size < 2 ^ 32)
    (h : vmMapEnter m a r grows = some (reply, m')) : Entered m m' a r grows reply := by
  obtain ⟨x, hx, h⟩ := Option.map_eq_some_iff.1 h
  cases h
  cases hany : r.anywhere with
  | true => exact enterAnywhere_spec hm hany hsize hx
  | false => exact enterAt_spec hm hany hsize hx

theorem enter_wellFormed (hm : WellFormed m) (hpos : 0 < r.size) (hsize : r.size < 2 ^ 32)
    (h : vmMapEnter m a r grows = some (reply, m')) : WellFormed m' := by
  obtain ⟨m₁, hhint, ⟨rfl, -⟩ | ⟨before, after, start, hg, -, -, rfl⟩⟩ := enter_spec hm.laid hsize h
  · exact hhint.wellFormed hm
  · exact place_wellFormed (hhint.wellFormed hm) hpos hg grows

/-- `vm_map_find_entry` puts a wired entry into a gap, or makes the entry before the gap longer. -/
theorem findEntry_spec (hm : WellFormed m) {object : MapObject} (hsize : size < 2 ^ 32)
    {r : Option (ℕ × ℕ)} (h : vmMapFindEntry m size mask object = some (r, m')) :
    (r = none ∧ m' = m) ∨ ∃ before after start, Gap m before after start size ∧
      ((r = some (start, m.hdr.zone) ∧ m' = m.insertWired before after start size) ∨
        ∃ entry, before.getLast? = some entry ∧ entry.growsFor object start ∧
          r = some (start, entry.ptr) ∧ m' = { m with
            entries := before.dropLast ++ { entry with vmeEnd := (start + size) % 2 ^ 32 } :: after
            size := (m.size + size) % 2 ^ 32
            firstFree := some entry.ptr
            hint := some entry.ptr }) := by
  unfold vmMapFindEntry at h
  obtain ⟨⟨before, after, start⟩, hfirst, h⟩ := Option.bind_eq_some_iff.1 h
  obtain ⟨hl, hb, hlo⟩ := fromFirstFree_spec hm.laid hfirst
  simp only at h
  split at h
  · rename_i before' after' start' hspace
    refine .inr ⟨before', after', start', findSpace_spec hm.laid hsize hl hb hlo hspace, ?_⟩
    split at h
    · rename_i entry hlast
      split_ifs at h with hgrows
      · cases h
        exact .inr ⟨entry, hlast, hgrows, rfl, rfl⟩
      · cases h
        exact .inl ⟨rfl, rfl⟩
    · cases h
      exact .inl ⟨rfl, rfl⟩
  · cases h
    exact .inl ⟨rfl, rfl⟩

theorem findEntry_wellFormed (hm : WellFormed m) {object : MapObject} (hpos : 0 < size)
    (hsize : size < 2 ^ 32) {r : Option (ℕ × ℕ)}
    (h : vmMapFindEntry m size mask object = some (r, m')) : WellFormed m' := by
  obtain ⟨-, rfl⟩ | ⟨before, after, start, hg, ⟨-, rfl⟩ | ⟨entry, hlast, hgrows, -, rfl⟩⟩ :=
    findEntry_spec hm hsize h
  · exact hm
  · exact hg.insert_wellFormed hm hpos rfl (hg.mod_eq hm.laid) rfl rfl rfl rfl rfl
  · have hend : entry.vmeEnd = start := by
      simp only [VmMapEntry.growsFor, decide_eq_true_eq] at hgrows
      exact hgrows.2.1
    exact hg.extend_wellFormed hm hlast hend
      (n := { entry with vmeEnd := (start + size) % 2 ^ 32 }) rfl (hg.mod_eq hm.laid) rfl rfl rfl
        rfl rfl

end Insert

section Copyout

variable {before after : List VmMapEntry} {start size : ℕ}

theorem fromFirstFree_behind (h : m.fromFirstFree = some (before, after, start)) :
    m.firstFree = lastPtr before ∧ start = m.endBefore before := by
  unfold VmMap.fromFirstFree at h
  obtain ⟨⟨b, c⟩, hbehind, h⟩ := Option.bind_eq_some_iff.1 h
  have hptr : m.firstFree = lastPtr b := by
    unfold behind at hbehind
    split at hbehind
    · rename_i hfree
      cases hbehind
      exact hfree
    · rename_i p hfree
      obtain ⟨d, hcut, hd⟩ := Option.map_eq_some_iff.1 hbehind
      obtain ⟨-, e, rest, hrest, hp⟩ := cut_spec hcut
      rw [hrest] at hd
      cases hd
      simp [lastPtr, hfree, hp]
  simp only at h
  unfold VmMap.endBefore
  split at h
  · cases h
    exact ⟨hptr, by simp [*]⟩
  · cases h
    exact ⟨hptr, by simp [*]⟩

/-- A search without alignment finds the place directly behind an entry. -/
theorem findSpace_le_endBefore {max : ℕ} {before' after' : List VmMapEntry}
    (hs : start ≤ m.endBefore before)
    (h : findSpace max size 0 before after start = .found before' after' x) :
    x ≤ m.endBefore before' := by
  have halign : ∀ y, alignUp y 0 ≤ y := fun y => Nat.and_le_left.trans (Nat.mod_le _ _)
  induction after generalizing before start with
  | nil =>
    rw [findSpace] at h
    simp only at h
    split_ifs at h
    cases h
    exact (halign start).trans hs
  | cons next rest ih =>
    rw [findSpace] at h
    simp only at h
    split_ifs at h
    · cases h
      exact (halign start).trans hs
    · exact ih (by simp [VmMap.endBefore]) h

theorem copySpan_lt (offset size : ℕ) : copySpan offset size < 2 ^ 32 :=
  Nat.mod_lt _ (Nat.two_pow_pos 32)

theorem adopt_length (adjustment : ℕ) : ∀ (l : List VmMapEntry) (n : ℕ),
    (adopt adjustment l n).length = l.length
  | [], _ => rfl
  | _ :: l, n => by rw [adopt, List.length_cons, List.length_cons, adopt_length adjustment l]

theorem adopt_tiles {adjustment c d : ℕ} (start n : ℕ) (ht : Tiles l c d)
    (hadj : ∀ x, c ≤ x → x ≤ d → (x + adjustment) % 2 ^ 32 = start + (x - c)) :
    Tiles (adopt adjustment l n) start (start + (d - c)) := by
  induction l generalizing c start n with
  | nil =>
    obtain rfl : c = d := ht
    simp [adopt, Tiles]
  | cons e l ih =>
    obtain ⟨hs, he, hl⟩ := ht
    simp only [start_entry, stop_entry] at hs he hl
    have hle := hl.ordered.2.2.1
    have hstart := hadj e.vmeStart (by omega) (by omega)
    have hend := hadj e.vmeEnd (by omega) (by omega)
    refine ⟨?_, ?_, ?_⟩
    · simp only [start_entry]
      omega
    · simp only [start_entry, stop_entry]
      omega
    · have := ih (start + (e.vmeEnd - c)) (n + 1) hl fun x hx hxd => by
        have := hadj x (by omega) hxd
        omega
      simp only [stop_entry, hend]
      rwa [show start + (e.vmeEnd - c) + (d - e.vmeEnd) = start + (d - c) by omega] at this

theorem copyout_tiles {c : VmMapCopy} (hc : c.Valid)
    (hg : Gap m before after start (copySpan c.offset c.size))
    (hmax : m.maxOffset < 2 ^ 32) (n : ℕ) :
    Tiles (adopt ((start + 2 ^ 32 - c.copyStart) % 2 ^ 32) c.entries n) start
      (start + copySpan c.offset c.size) := by
  have hhi := hg.hi
  have hstart : c.copyStart ≤ c.offset := Nat.sub_le _ _
  have hoffset := hc.offset_lt
  have hadj : ∀ x, c.copyStart ≤ x → x ≤ c.copyStart + copySpan c.offset c.size →
      (x + (start + 2 ^ 32 - c.copyStart) % 2 ^ 32) % 2 ^ 32 = start + (x - c.copyStart) := by
    intro x hx hxd
    omega
  have ht := adopt_tiles start n hc.tiles hadj
  rwa [Nat.add_sub_cancel_left] at ht

/-- `vm_map_copyout` puts the entries of the copy into a gap of the map, or does nothing. -/
theorem copyout_spec (hm : Laid m) {c : VmMapCopy} (h : vmMapCopyout m c = some (reply, m')) :
    m' = m ∨ ∃ before after start new, Gap m before after start (copySpan c.offset c.size) ∧
      start ≤ m.endBefore before ∧
      new = adopt ((start + 2 ^ 32 - c.copyStart) % 2 ^ 32) c.entries m.hdr.zone ∧ m' = { m with
        entries := before ++ new ++ after
        hdr := m.hdr.linkAll c.entries.length
        size := (m.size + copySpan c.offset c.size) % 2 ^ 32
        firstFree := if m.firstFree = lastPtr before then lastPtr new else m.firstFree
        hint := lastPtr new } := by
  unfold vmMapCopyout at h
  obtain ⟨⟨before, after, start⟩, hfirst, h⟩ := Option.bind_eq_some_iff.1 h
  obtain ⟨hl, hb, hlo⟩ := fromFirstFree_spec hm hfirst
  simp only at h
  split at h
  · rename_i before' after' start' hspace
    cases h
    exact .inr ⟨before', after', start', _, findSpace_spec hm (copySpan_lt _ _) hl hb hlo hspace,
      findSpace_le_endBefore (fromFirstFree_behind hfirst).2.le hspace, rfl, rfl⟩
  · split_ifs at h <;> obtain ⟨-, rfl⟩ := Prod.mk.inj (Option.some.inj h) <;> exact .inl rfl

theorem copyout_wellFormed (hm : WellFormed m) {c : VmMapCopy} (hc : c.Valid)
    (h : vmMapCopyout m c = some (reply, m')) : WellFormed m' := by
  obtain rfl | ⟨before, after, start, _, hg, -, rfl, rfl⟩ := copyout_spec hm.laid h
  · exact hm
  · have ht := copyout_tiles hc hg hm.max_lt m.hdr.zone
    refine hm.insert hg.split ht hg.before hg.after hg.lo hg.hi (by simp) ?_
      (by rw [Nat.add_sub_cancel_left]) rfl rfl
    rw [adopt_length]
    rfl

/-- `vm_map_copyout_page_list` makes an entry for the pages, or makes the one before longer. -/
theorem copyoutPageListPlace_spec (hm : Laid m) (hsize : size < 2 ^ 32) {object : ℕ} {sole : Bool}
    (h : copyoutPageListPlace m size object sole = some (reply, m')) :
    (m' = m ∧ ∀ x, reply ≠ .success x) ∨ ∃ before after start, Gap m before after start size ∧
      start ≤ m.endBefore before ∧ reply = .success start ∧
      (m' = m.insertPages before after start size object ∨
        ∃ last, before.getLast? = some last ∧ last.takesPages start m.wiringRequired sole ∧
          m' = { m with
            entries := before.dropLast ++
              last.withPages ((start + size) % 2 ^ 32) object :: after
            size := (m.size + size) % 2 ^ 32
            hint := some last.ptr }) := by
  unfold copyoutPageListPlace at h
  obtain ⟨⟨before, after, start⟩, hfirst, h⟩ := Option.bind_eq_some_iff.1 h
  obtain ⟨hl, hb, hlo⟩ := fromFirstFree_spec hm hfirst
  simp only at h
  split at h
  · rename_i before' after' start' hspace
    have hg := findSpace_spec hm hsize hl hb hlo hspace
    have hle := findSpace_le_endBefore (fromFirstFree_behind hfirst).2.le hspace
    split at h
    · rename_i last hlast
      split_ifs at h with htakes
      · cases h
        exact .inr ⟨_, _, _, hg, hle, rfl, .inr ⟨last, hlast, htakes, rfl⟩⟩
      · cases h
        exact .inr ⟨_, _, _, hg, hle, rfl, .inl rfl⟩
    · cases h
      exact .inr ⟨_, _, _, hg, hle, rfl, .inl rfl⟩
  · split_ifs at h <;> obtain ⟨rfl, rfl⟩ := Prod.mk.inj (Option.some.inj h) <;>
      exact .inl ⟨rfl, by simp⟩

theorem withPages_bounds (end_ object : ℕ) :
    (e.withPages end_ object).vmeStart = e.vmeStart ∧ (e.withPages end_ object).vmeEnd = end_ := by
  unfold VmMapEntry.withPages
  split <;> exact ⟨rfl, rfl⟩

theorem copyoutPageListPlace_wellFormed (hm : WellFormed m) (hpos : 0 < size)
    (hsize : size < 2 ^ 32)
    {object : ℕ} {sole : Bool} (h : copyoutPageListPlace m size object sole = some (reply, m')) :
    WellFormed m' := by
  obtain ⟨rfl, -⟩ | ⟨before, after, start, hg, -, -, rfl | ⟨last, hlast, htakes, rfl⟩⟩ :=
    copyoutPageListPlace_spec hm.laid hsize h
  · exact hm
  · exact hg.insert_wellFormed hm hpos rfl (hg.mod_eq hm.laid) rfl rfl rfl rfl rfl
  · have hend : last.vmeEnd = start := by
      simp only [VmMapEntry.takesPages, decide_eq_true_eq] at htakes
      exact htakes.1
    have hwith := withPages_bounds (e := last) ((start + size) % 2 ^ 32) object
    exact hg.extend_wellFormed hm hlast hend hwith.1 (hwith.2.trans (hg.mod_eq hm.laid)) rfl rfl rfl
      rfl rfl

theorem WellFormed.congr (hm : WellFormed m) (hc : Cuts (fun _ _ => True) m.entries m'.entries)
    (hlen : m'.entries.length = m.entries.length) (hdr : m'.hdr = m.hdr) (hsize : m'.size = m.size)
    (hmin : m'.minOffset = m.minOffset) (hmax : m'.maxOffset = m.maxOffset) : WellFormed m' :=
  Recut.wellFormed ⟨hc, by rw [Counted, hdr, hlen], hmin, hmax, hsize⟩ hm

theorem clearMarks_cuts (end_ : ℕ) : ∀ l : List VmMapEntry,
    Cuts (fun _ _ => True) l (clearMarks end_ l) ∧ (clearMarks end_ l).length = l.length
  | [] => ⟨.nil, rfl⟩
  | e :: l => by
    unfold clearMarks
    obtain ⟨hc, hlen⟩ := clearMarks_cuts end_ l
    split_ifs
    · exact ⟨.keep trivial rfl rfl hc, by rw [List.length_cons, List.length_cons, hlen]⟩
    · exact ⟨.refl fun _ _ => trivial, rfl⟩

theorem clearMark_cuts (p : ℕ) : ∀ l : List VmMapEntry,
    Cuts (fun _ _ => True) l (clearMark p l) ∧ (clearMark p l).length = l.length
  | [] => ⟨.nil, rfl⟩
  | e :: l => by
    obtain ⟨hc, hlen⟩ := clearMark_cuts p l
    refine ⟨?_, by simp [clearMark]⟩
    unfold clearMark at hc ⊢
    rw [List.map_cons]
    split_ifs
    · exact .keep trivial rfl rfl hc
    · exact .keep trivial rfl rfl hc

end Copyout

section Delete

/-- The walk of `vm_map_delete` leaves pieces of the entries it walks over, and keeps the two
counters in step with them. -/
theorem deleteLoop_spec (stays : VmMapEntry → Bool) (end_ : ℕ) (ho : Ordered l) (h : Hdr) (size : ℕ)
    (hsize : total l ≤ size) (hlt : size < 2 ^ 32) :
    ∃ c, Cuts (fun _ _ => True) l c ∧ (deleteLoop stays end_ l h size).2.1.Sublist c ∧
      Counted h l (deleteLoop stays end_ l h size).2.2.1 (deleteLoop stays end_ l h size).2.1 ∧
      (deleteLoop stays end_ l h size).2.2.2 + total l =
      size + total (deleteLoop stays end_ l h size).2.1 := by
  have hrefl : ∀ l : List VmMapEntry, Cuts (fun _ _ => True) l l :=
    fun _ => .refl fun _ _ => trivial
  induction l generalizing h size with
  | nil => exact ⟨[], .nil, .slnil, rfl, rfl⟩
  | cons e l ih =>
    obtain ⟨he, -, ho'⟩ := ordered_cons.1 ho
    simp only [start_entry, stop_entry] at he
    rw [total_cons] at hsize
    simp only [start_entry, stop_entry] at hsize
    unfold deleteLoop
    by_cases h₁ : e.vmeStart < end_
    · rw [if_pos h₁]
      by_cases h₂ : end_ < e.vmeEnd
      · -- what is cut off ends the walk
        rw [if_pos h₂]
        have hcut : Cuts (fun _ _ => True) (e :: l)
            ((e.clipEnd end_ h.zone).1 :: (e.clipEnd end_ h.zone).2 :: l) :=
          .split trivial trivial rfl rfl rfl h₁ h₂ (hrefl l)
        have hlink : Counted h (e :: l) h.link
            ((e.clipEnd end_ h.zone).1 :: (e.clipEnd end_ h.zone).2 :: l) := by
          simp only [Counted, Hdr.link_nentries, List.length_cons]
          push_cast
          omega
        simp only
        split_ifs with htrans hstays
        · have hcut' : Cuts (fun _ _ => True) (e :: l)
              ({ (e.clipEnd end_ h.zone).1 with
                needsWakeup := true } :: (e.clipEnd end_ h.zone).2 :: l) :=
            .split trivial trivial rfl rfl rfl h₁ h₂ (hrefl l)
          exact ⟨_, hcut', .refl _, hlink, by simp [VmMapEntry.clipEnd]; omega⟩
        · exact ⟨_, hcut, .refl _, hlink, by simp [VmMapEntry.clipEnd]; omega⟩
        · refine ⟨_, hcut, List.sublist_cons_self _ _, ?_, ?_⟩
          · simp only [Counted, Hdr.unlink_nentries, Hdr.link_nentries, List.length_cons]
            push_cast
            omega
          · simp only [VmMapEntry.clipEnd, total_cons, start_entry, stop_entry]
            omega
      · rw [if_neg h₂]
        split_ifs with htrans hstays
        · have hkeep : Cuts (fun _ _ => True) (e :: l) ({ e with needsWakeup := true } :: l) :=
            .keep trivial rfl rfl (hrefl l)
          exact ⟨_, hkeep, .refl _, rfl, by simp⟩
        · obtain ⟨c, hc, hsub, hn, hs⟩ := ih ho' h size (by omega) hlt
          refine ⟨e :: c, .keep trivial rfl rfl hc, hsub.cons_cons e, ?_, ?_⟩
          · simp only [Counted, List.length_cons] at hn ⊢
            push_cast
            omega
          · simp only [total_cons, start_entry, stop_entry]
            omega
        · obtain ⟨less, hless⟩ : ∃ s, (size + 2 ^ 32 - (e.vmeEnd - e.vmeStart)) % 2 ^ 32 = s :=
            ⟨_, rfl⟩
          rw [hless]
          obtain ⟨c, hc, hsub, hn, hs⟩ := ih ho' h.unlink less (by omega) (by omega)
          refine ⟨e :: c, .keep trivial rfl rfl hc, hsub.cons e, ?_, ?_⟩
          · simp only [Counted, Hdr.unlink_nentries, List.length_cons] at hn ⊢
            push_cast
            omega
          · simp only [total_cons, start_entry, stop_entry]
            omega
    · rw [if_neg h₁]
      exact ⟨e :: l, hrefl _, .refl _, rfl, rfl⟩

theorem size_lt (hm : WellFormed m) : m.size < 2 ^ 32 := by
  have hmax := hm.max_lt
  by_cases hmm : m.minOffset ≤ m.maxOffset
  · have := hm.ordered.total_le (fun x hx => (hm.bounds x hx).1)
      (fun x hx => (hm.bounds x hx).2) hmm
    rw [hm.size]
    omega
  · have hnil : m.entries = [] := by
      rw [List.eq_nil_iff_forall_not_mem]
      intro e he
      have := hm.bounds e he
      have := hm.ordered.nonempty e he
      simp only [start_entry, stop_entry] at this
      omega
    rw [hm.size, hnil]
    exact Nat.two_pow_pos 32

theorem deleteFrom_wellFormed (hm : WellFormed m) (hl : before ++ after = m.entries)
    (stays : VmMapEntry → Bool) (end_ : ℕ) :
    WellFormed (m.deleteFrom stays end_ before after).2 := by
  have ho := hm.ordered
  rw [← hl] at ho
  have htotal : total before + total after = m.size := by rw [hm.size, ← hl, total_append]
  obtain ⟨c, hc, hsub, hn, hs⟩ := deleteLoop_spec stays end_ ho.right m.hdr m.size
    (by omega) (size_lt hm)
  have hcut : Cuts (fun _ _ => True) m.entries (before ++ c) := by
    rw [← hl]
    exact .append (.refl fun _ _ => trivial) hc
  have hsub' : (before ++ (deleteLoop stays end_ after m.hdr m.size).2.1).Sublist (before ++ c) :=
    (List.Sublist.refl before).append hsub
  refine ⟨(hcut.ordered hm.ordered).sublist hsub', fun e he => ?_, ?_, ?_, hm.max_lt⟩
  · exact ⟨hcut.start_ge (fun x hx => (hm.bounds x hx).1) e (hsub'.subset he),
      hcut.stop_le (fun x hx => (hm.bounds x hx).2) e (hsub'.subset he)⟩
  · have hcount := hm.nentries
    rw [← hl] at hcount
    simp only [VmMap.deleteFrom, Counted, List.length_append] at hn hcount ⊢
    push_cast at hcount ⊢
    omega
  · simp only [VmMap.deleteFrom, total_append]
    omega

/-- `vm_map_delete` finds the range, repairs the hints and walks. -/
theorem delete_spec (hm : WellFormed m) (h : vmMapDelete m a end_ stays = some (w, m')) :
    ∃ r m₁ free, Sought m m₁ a r ∧
      m₁.startOf m₁.firstFree = some free ∧
      (m₁.repairHints r a free).deleteFrom stays end_ r.before r.after = (w, m') := by
  unfold vmMapDelete at h
  obtain ⟨⟨r, m₁⟩, hseek, h⟩ := Option.bind_eq_some_iff.1 h
  obtain ⟨free, hfree, h⟩ := Option.bind_eq_some_iff.1 h
  exact ⟨r, m₁, free, seek_spec hm hseek, hfree, Option.some.inj h⟩

theorem WellFormed.repairHints (hm : WellFormed m) (r : Lookup) (start free : ℕ) :
    WellFormed (m.repairHints r start free) :=
  ⟨hm.ordered, hm.bounds, hm.nentries, hm.size, hm.max_lt⟩

theorem delete_wellFormed (hm : WellFormed m) (h : vmMapDelete m a end_ stays = some (w, m')) :
    WellFormed m' := by
  obtain ⟨r, m₁, free, hs, -, hdel⟩ := delete_spec hm h
  obtain rfl : _ = m' := congrArg Prod.snd hdel
  exact deleteFrom_wellFormed ((hs.recut.wellFormed hm).repairHints r a free) hs.split stays end_

theorem deleteResume_wellFormed (hm : WellFormed m)
    (h : vmMapDeleteResume m a end_ stays = some (w, m')) : WellFormed m' := by
  unfold vmMapDeleteResume at h
  obtain ⟨⟨r, m₁⟩, hlook, h⟩ := Option.bind_eq_some_iff.1 h
  obtain ⟨hloc, hhint⟩ := lookup_spec hm.ordered.loose hlook
  obtain rfl : (m₁.deleteFrom stays end_ r.before r.after).2 = m' :=
    congrArg Prod.snd (Option.some.inj h)
  exact deleteFrom_wellFormed (hhint.wellFormed hm) (hloc.split.trans hhint.entries.symm) stays end_

theorem copyoutPageListDone_wellFormed (hm : WellFormed m) {ok : Bool}
    (h : copyoutPageListDone m a end_ ok stays = some (w, m')) : WellFormed m' := by
  unfold copyoutPageListDone at h
  obtain ⟨⟨r, m₁⟩, hlook, h⟩ := Option.bind_eq_some_iff.1 h
  obtain ⟨hloc, hhint⟩ := lookup_spec hm.ordered.loose hlook
  have hm₁ := hhint.wellFormed hm
  simp only at h
  by_cases hf : r.found
  · rw [if_pos hf] at h
    have hm₂ : WellFormed { m₁ with entries := r.before ++ clearMarks end_ r.after } := by
      have hl : m₁.entries = r.before ++ r.after := by rw [hhint.entries, hloc.split]
      obtain ⟨hc, hlen⟩ := clearMarks_cuts end_ r.after
      refine hm₁.congr ?_ ?_ rfl rfl rfl rfl
      · rw [hl]
        exact .append (.refl fun _ _ => trivial) hc
      · rw [hl, List.length_append, List.length_append, hlen]
    split_ifs at h
    · cases h
      exact hm₂
    · exact delete_wellFormed hm₂ h
  · rw [if_neg hf] at h
    cases h

end Delete

section Simplify

/-- `vm_map_simplify` looks the address up, and the entry there joins its neighbour or nothing
changes. -/
theorem simplify_cases (ho : Loose m.entries) (h : vmMapSimplify m a = some m') :
    ∃ m₁, OnlyHint m m₁ ∧
    (m' = m₁ ∨ ∃ before prev this rest, m₁.entries = before ++ prev :: this :: rest ∧
      this.vmeStart ≤ prev.vmeEnd ∧ prev.mergesWith this = true ∧
      m' = { m₁ with
        entries := before ++ { prev with vmeEnd := this.vmeEnd } :: rest
        hdr := m₁.hdr.unlink
        firstFree := if m₁.firstFree = some this.ptr then some prev.ptr else m₁.firstFree
        hint := some prev.ptr }) := by
  unfold vmMapSimplify at h
  obtain ⟨⟨r, m₁⟩, hlook, h⟩ := Option.bind_eq_some_iff.1 h
  obtain ⟨hloc, hhint⟩ := lookup_spec ho hlook
  refine ⟨m₁, hhint, ?_⟩
  simp only at h
  split at h
  · rename_i prev this rest hf hprev hafter
    by_cases hmerge : prev.vmeEnd = a ∧ prev.mergesWith this = true
    · rw [if_pos hmerge] at h
      obtain ⟨e, rest', heq, hs, he⟩ := hloc.found hf
      obtain ⟨rfl, rfl⟩ : this = e ∧ rest = rest' := by simpa [hafter] using heq
      refine .inr ⟨r.before.dropLast, prev, this, rest, ?_, hmerge.1 ▸ hs, hmerge.2,
        (Option.some.inj h).symm⟩
      rw [hhint.entries, ← hloc.split, hafter]
      nth_rewrite 1 [dropLast_append_of_getLast hprev]
      simp
    · rw [if_neg hmerge] at h
      exact .inl (Option.some.inj h).symm
  · exact .inl (Option.some.inj h).symm

theorem simplify_wellFormed (hm : WellFormed m) (h : vmMapSimplify m a = some m') :
    WellFormed m' := by
  obtain ⟨m₁, hhint, rfl | ⟨before, prev, this, rest, hl, hs, -, rfl⟩⟩ :=
    simplify_cases hm.ordered.loose h
  · exact hhint.wellFormed hm
  have hm₁ := hhint.wellFormed hm
  have ho := hm₁.ordered
  rw [hl] at ho
  obtain ⟨hob, hop, hbp⟩ := ordered_append.1 ho
  obtain ⟨hp, hpl, hot⟩ := ordered_cons.1 hop
  obtain ⟨ht, htl, hor⟩ := ordered_cons.1 hot
  -- the two neighbours abut
  have hadj := hpl this List.mem_cons_self
  simp only [start_entry, stop_entry] at hp ht hadj
  have hb := hm₁.bounds
  rw [hl] at hb
  have hprevin := hb prev (by simp)
  have hthisin := hb this (by simp)
  refine ⟨?_, fun x hx => ?_, ?_, ?_, hm₁.max_lt⟩
  · refine ordered_append.2 ⟨hob, ordered_cons.2 ⟨?_, htl, hor⟩, fun x hx y hy => ?_⟩
    · simp only [start_entry, stop_entry]
      omega
    · rcases List.mem_cons.1 hy with rfl | hy
      · exact hbp x hx prev List.mem_cons_self
      · exact hbp x hx y (by simp [hy])
  · simp only [List.mem_append, List.mem_cons] at hx
    rcases hx with hx | rfl | hx
    · exact hb x (by simp [hx])
    · exact ⟨hprevin.1, hthisin.2⟩
    · exact hb x (by simp [hx])
  · have := hm₁.nentries
    rw [hl] at this
    simp only [Hdr.unlink, List.length_append, List.length_cons] at this ⊢
    push_cast at this ⊢
    omega
  · have := hm₁.size
    rw [hl] at this
    simp only [total_append, total_cons, start_entry, stop_entry] at this ⊢
    omega

end Simplify

section Submap

theorem recut_clipEnd (hl : m.entries = before ++ e :: after) (hs : e.vmeStart < end_) :
    Recut Piece m (m.clipEnd before e after end_) := by
  unfold VmMap.clipEnd
  split_ifs with h
  · have hp := piece_clipEnd (e := e) (n := m.hdr.zone) hs.le
    refine recut_behind hl (fun e _ => Piece.refl e)
      (.split hp.1 hp.2 rfl rfl rfl hs h (.refl fun e _ => Piece.refl e)) ?_
    simp only [Counted, Hdr.link_nentries, List.length_cons]
    push_cast
    omega
  · exact recut_behind (h := m.hdr) hl (fun e _ => Piece.refl e) (.refl fun e _ => Piece.refl e) rfl

theorem recut_clipStart (hl : m.entries = before ++ e :: after) (hs : start < e.vmeEnd) :
    Recut Piece m (m.clipStart before e after start) := by
  unfold VmMap.clipStart
  split_ifs with h
  · have hp := piece_clipStart (e := e) (n := m.hdr.zone) h.le
    refine recut_behind hl (fun e _ => Piece.refl e)
      (.split hp.1 hp.2 rfl rfl rfl h hs (.refl fun e _ => Piece.refl e)) ?_
    simp only [Counted, Hdr.link_nentries, List.length_cons]
    push_cast
    omega
  · exact recut_behind (h := m.hdr) hl (fun e _ => Piece.refl e) (.refl fun e _ => Piece.refl e) rfl

theorem rangeCheck_of_within (hlo : m.minOffset ≤ start) (hhi : end_ ≤ m.maxOffset)
    (hle : start ≤ end_) : m.rangeCheck start end_ = (start, end_) := by
  unfold VmMap.rangeCheck
  simp only [if_neg (not_lt.2 hlo), if_neg (not_lt.2 hhi), if_neg (not_lt.2 hle)]

/-- `vm_map_submap` on a range of the map whose start is mapped. -/
theorem submap_wellFormed (hm : WellFormed m) {submap submapObject : ℕ} {untouched : Bool}
    (hlo : m.minOffset ≤ start) (hlt : start < end_) (hhi : end_ ≤ m.maxOffset)
    (hmapped : ∃ e ∈ m.entries, Covers e start)
    (h : vmMapSubmap m start end_ submap submapObject untouched = some (kr, m')) :
    WellFormed m' := by
  unfold vmMapSubmap at h
  rw [rangeCheck_of_within hlo hhi hlt.le] at h
  obtain ⟨⟨r, m₁⟩, hseek, h⟩ := Option.bind_eq_some_iff.1 h
  have hs := seek_spec hm hseek
  have hm₁ := hs.recut.wellFormed hm
  obtain ⟨x, hx, hcov⟩ := hmapped
  have hf : r.found = true := by
    by_contra hf
    exact hs.free (by simpa using hf) x hx hcov
  obtain ⟨e, rest, hafter, hes⟩ := hs.found hf
  simp only [hafter] at h
  have hl : m₁.entries = r.before ++ e :: rest := by rw [← hafter, hs.split]
  have hm₂ := (recut_clipEnd hl (show e.vmeStart < end_ by omega)).wellFormed hm₁
  set m₂ := m₁.clipEnd r.before e rest end_ with hm₂def
  split at h
  · cases h
  · rename_i e₂ rest₂ hdrop
    have hl₂ : m₂.entries = r.before ++ e₂ :: rest₂ := by
      rw [← hdrop]
      have htake : m₂.entries.take r.before.length = r.before := by
        rw [hm₂def]
        unfold VmMap.clipEnd
        split_ifs <;> simp
      calc m₂.entries = m₂.entries.take r.before.length ++ m₂.entries.drop r.before.length :=
            (List.take_append_drop _ _).symm
        _ = r.before ++ m₂.entries.drop r.before.length := by rw [htake]
    split_ifs at h
    · cases h
      refine hm₂.congr ?_ ?_ rfl rfl rfl rfl
      · rw [hl₂]
        exact .append (.refl fun _ _ => trivial) (.keep trivial rfl rfl (.refl fun _ _ => trivial))
      · rw [hl₂]
        simp
    · obtain ⟨-, rfl⟩ := Prod.mk.inj (Option.some.inj h)
      exact hm₂

end Submap

end XMach.Vm
