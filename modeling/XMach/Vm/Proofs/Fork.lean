import XMach.Vm.Fork
import XMach.Vm.Proofs.Map

/-!
# A forked map is well formed

The new map grows at its end, and what it has got so far lies before the entry of the old map that
the walk is at.
-/

namespace XMach.Vm

open Region

variable {V : Type} {zero : V} {m m' : VmMap} {l l' rest : List VmMapEntry} {e : VmMapEntry}
  {h h' : Objects V} {r : VmMapEntry × VmMapEntry × Objects V} {start : ℕ}

section Copyin

theorem copyNonblocking_bounds {n : ℕ} (hr : copyNonblocking h e n = some r) :
    (r.1.vmeStart = e.vmeStart ∧ r.1.vmeEnd = e.vmeEnd) ∧
      r.2.1.vmeStart = e.vmeStart ∧ r.2.1.vmeEnd = e.vmeEnd := by
  unfold copyNonblocking at hr
  split_ifs at hr
  obtain ⟨c, -, rfl⟩ := Option.map_eq_some_iff.1 hr
  exact ⟨⟨rfl, rfl⟩, rfl, rfl⟩

theorem copyinBlocking_bounds (h : Objects V) (e : VmMapEntry) :
    (copyinBlocking zero h e).1.vmeStart = e.vmeStart ∧
    (copyinBlocking zero h e).1.vmeEnd = e.vmeEnd := by
  unfold copyinBlocking
  split
  · split_ifs <;> exact ⟨rfl, rfl⟩
  · exact ⟨rfl, rfl⟩

/-- Neither the entry that is copied nor its copy moves. -/
theorem copyinEntry_bounds (zero : V) (h : Objects V) (e : VmMapEntry) :
    ((copyinEntry zero h e).1.vmeStart = e.vmeStart ∧ (copyinEntry zero h e).1.vmeEnd = e.vmeEnd) ∧
      (copyinEntry zero h e).2.1.vmeStart = e.vmeStart ∧
      (copyinEntry zero h e).2.1.vmeEnd = e.vmeEnd := by
  unfold copyinEntry
  split
  · rename_i r hr
    exact copyNonblocking_bounds hr
  · exact ⟨⟨rfl, rfl⟩, copyinBlocking_bounds h e⟩

/-- The walk of `vm_map_copyin` cuts the source, and a copy that it makes is without gaps. -/
theorem copyinLoop_spec (zero : V) (srcEnd : ℕ) (ho : Ordered l) (srcStart : ℕ)
    (hlt : srcStart < srcEnd) (hdr : Hdr) (h : Objects V) :
    Cuts (fun _ _ => True) l (copyinLoop zero srcEnd l srcStart hdr h).2.1 ∧
      Counted hdr l (copyinLoop zero srcEnd l srcStart hdr h).2.2.1
      (copyinLoop zero srcEnd l srcStart hdr h).2.1 ∧
      ∀ copy, (copyinLoop zero srcEnd l srcStart hdr h).1 = some copy →
      Tiles copy srcStart srcEnd := by
  have hrefl : ∀ l : List VmMapEntry, Cuts (fun _ _ => True) l l :=
    fun _ => .refl fun _ _ => trivial
  induction l generalizing srcStart h with
  | nil => exact ⟨.nil, rfl, by simp [copyinLoop]⟩
  | cons e l ih =>
    obtain ⟨he, -, ho'⟩ := ordered_cons.1 ho
    simp only [start_entry, stop_entry] at he
    unfold copyinLoop
    by_cases hbad : e.vmeStart ≠ srcStart ∨ e.protection &&& vmProtRead = 0
    · rw [if_pos hbad]
      exact ⟨hrefl _, rfl, by simp⟩
    rw [if_neg hbad]
    have hs : e.vmeStart = srcStart := by
      by_contra hne
      exact hbad (.inl hne)
    by_cases hclip : srcEnd < e.vmeEnd
    · rw [if_pos hclip]
      simp only
      obtain ⟨⟨h₁, h₂⟩, h₃, h₄⟩ := copyinEntry_bounds zero h (e.clipEnd srcEnd hdr.zone).1
      refine ⟨.split trivial trivial h₁ h₂ rfl (by simp [VmMapEntry.clipEnd]; omega) hclip
        (hrefl l), ?_, ?_⟩
      · simp only [Counted, Hdr.link_nentries, List.length_cons]
        push_cast
        omega
      · rintro copy ⟨⟩
        refine ⟨h₃.trans hs, ?_, h₄⟩
        simp only [start_entry, stop_entry, h₃, h₄, clipEnd_fst_start, clipEnd_fst_end]
        omega
    · rw [if_neg hclip]
      simp only
      obtain ⟨⟨h₁, h₂⟩, h₃, h₄⟩ := copyinEntry_bounds zero h e
      have hhead : start (copyinEntry zero h e).2.1 < stop (copyinEntry zero h e).2.1 := by
        simp only [start_entry, stop_entry, h₃, h₄]
        exact he
      by_cases hend : srcEnd ≤ e.vmeEnd
      · rw [if_pos hend]
        refine ⟨.keep trivial h₁ h₂ (hrefl l), rfl, ?_⟩
        rintro copy ⟨⟩
        refine ⟨h₃.trans hs, hhead, ?_⟩
        simp only [Tiles, stop_entry, h₄]
        omega
      · rw [if_neg hend]
        obtain ⟨hc, hn, ht⟩ := ih ho' e.vmeEnd (by omega) (copyinEntry zero h e).2.2
        split
        · rename_i copy l₁ hdr₁ heap₁ hrec
          rw [hrec] at hc hn ht
          refine ⟨.keep trivial h₁ h₂ hc, ?_, ?_⟩
          · simp only [Counted, List.length_cons] at hn ⊢
            push_cast
            omega
          · rintro copy' ⟨⟩
            refine ⟨h₃.trans hs, hhead, ?_⟩
            rw [stop_entry, h₄]
            exact ht copy rfl
        · rename_i l₁ hdr₁ heap₁ hrec
          rw [hrec] at hc hn
          refine ⟨.keep trivial h₁ h₂ hc, ?_, by simp⟩
          simp only [Counted, List.length_cons] at hn ⊢
          push_cast
          omega

/-- `vm_map_copyin` clips the source at both ends of the range at most, and copies the whole
range. -/
theorem copyin_spec (hm : WellFormed m) {len : ℕ} {copy : Option VmMapCopy} (hpos : 0 < len)
    (hlt : start + len < 2 ^ 32) (hc : vmMapCopyin zero m h start len = some (copy, m', h')) :
    WellFormed m' ∧ (m'.minOffset = m.minOffset ∧ m'.maxOffset = m.maxOffset) ∧
      (∀ x ∈ m'.entries, x.vmeEnd ≤ start ∨ start ≤ x.vmeStart) ∧
      ∀ c, copy = some c → Tiles c.entries start (start + len) := by
  unfold vmMapCopyin at hc
  simp only [Nat.mod_eq_of_lt hlt] at hc
  rw [if_neg (by omega)] at hc
  obtain ⟨⟨r, m₁⟩, hseek, hc⟩ := Option.bind_eq_some_iff.1 hc
  have hs := seek_spec hm hseek
  have hm₁ := hs.recut.wellFormed hm
  have hb₁ : m₁.minOffset = m.minOffset ∧ m₁.maxOffset = m.maxOffset :=
    ⟨hs.recut.minOffset, hs.recut.maxOffset⟩
  simp only at hc
  by_cases hf : r.found
  · rw [if_pos hf] at hc
    have ho := hm₁.ordered
    rw [← hs.split] at ho
    obtain ⟨hcuts, hn, ht⟩ := copyinLoop_spec zero (start + len) ho.right start (by omega) m₁.hdr h
    set q := copyinLoop zero (start + len) r.after start m₁.hdr h with hq
    obtain ⟨rfl, rfl, -⟩ : q.1.map (fun entries => (⟨start, len, entries⟩ : VmMapCopy)) = copy ∧
        { m₁ with entries := r.before ++ q.2.1, hdr := q.2.2.1 } = m' ∧ q.2.2.2 = h' := by
      simpa using hc
    refine ⟨(recut_behind (R := fun _ _ => True) hs.split.symm (fun _ _ => trivial) hcuts
      hn).wellFormed hm₁, hb₁, fun x hx => ?_, fun c hcopy => ?_⟩
    · rcases List.mem_append.1 hx with hx | hx
      · exact .inl (hs.before x hx)
      · exact .inr (hcuts.start_ge hs.after x hx)
    · obtain ⟨entries, hentries, rfl⟩ := Option.map_eq_some_iff.1 hcopy
      exact ht entries hentries
  · rw [if_neg hf] at hc
    cases hc
    refine ⟨hm₁, hb₁, fun x hx => ?_, by simp⟩
    rw [← hs.split] at hx
    rcases List.mem_append.1 hx with hx | hx
    · exact .inl (hs.before x hx)
    · exact .inr (hs.after x hx)

end Copyin

section Fork

/-- What holds while the walk is going on. -/
structure ForkInv (s : ForkState V) : Prop where
  old : WellFormed s.old
  split : s.old.entries = s.before ++ s.after
  ordered : Ordered s.new.entries
  bounds : ∀ c ∈ s.new.entries, s.new.minOffset ≤ c.vmeStart ∧ c.vmeEnd ≤ s.new.maxOffset
  /-- The new map has nothing yet at the place where the walk is, or behind it. -/
  behind : ∀ c ∈ s.new.entries, ∀ e ∈ s.after, c.vmeEnd ≤ e.vmeStart
  nentries : s.new.hdr.nentries = s.new.entries.length
  size : s.newSize = total s.new.entries
  min_eq : s.new.minOffset = s.old.minOffset
  max_eq : s.new.maxOffset = s.old.maxOffset

variable {s s' : ForkState V}

theorem forkInv_start (hm : WellFormed m) (h : Objects V) :
    ForkInv (forkStart m h) :=
  ⟨hm, rfl, ordered_nil, by simp [forkStart, vmMapCreate], by simp [forkStart, vmMapCreate],
    rfl, rfl, rfl, rfl⟩

/-- The new map gets entries that fill a range of the old one, and the walk goes on behind it. -/
theorem ForkInv.append (hi : ForkInv s) {end_ : ℕ} {new : List VmMapEntry}
    (ht : Tiles new start end_) (hlo : s.old.minOffset ≤ start) (hhi : end_ ≤ s.old.maxOffset)
    (hstart : ∀ c ∈ s.new.entries, c.vmeEnd ≤ start) (hold : WellFormed s'.old)
    (hsplit : s'.old.entries = s'.before ++ s'.after) (hafter : ∀ e ∈ s'.after, end_ ≤ e.vmeStart)
    (hmin : s'.old.minOffset = s.old.minOffset) (hmax : s'.old.maxOffset = s.old.maxOffset)
    (hnew : s'.new = s.new.appendEntries new)
    (hsize : s'.newSize = (s.newSize + (end_ - start)) % 2 ^ 32) : ForkInv s' := by
  obtain ⟨hnewo, hin, hse, htot⟩ := ht.ordered
  have hordered : Ordered s'.new.entries := by
    rw [hnew]
    exact ordered_append.2 ⟨hi.ordered, hnewo, fun x hx y hy => (hstart x hx).trans (hin y hy).1⟩
  have hbounds : ∀ c ∈ s'.new.entries, s'.new.minOffset ≤ c.vmeStart ∧
    c.vmeEnd ≤ s'.new.maxOffset := by
    intro c hc
    rw [hnew] at hc ⊢
    change s.new.minOffset ≤ _ ∧ _ ≤ s.new.maxOffset
    rcases List.mem_append.1 hc with hc | hc
    · exact hi.bounds c hc
    · have := hin c hc
      have := hi.min_eq
      have := hi.max_eq
      simp only [start_entry, stop_entry] at *
      omega
  have htotal : total s'.new.entries = s.newSize + (end_ - start) := by
    rw [hnew, hi.size]
    simp only [VmMap.appendEntries, total_append, htot]
  refine ⟨hold, hsplit, hordered, hbounds, fun c hc e he => ?_, ?_, ?_, ?_, ?_⟩
  · have hle : c.vmeEnd ≤ end_ := by
      rw [hnew] at hc
      rcases List.mem_append.1 hc with hc | hc
      · exact (hstart c hc).trans hse
      · exact (hin c hc).2
    exact hle.trans (hafter e he)
  · rw [hnew]
    simp only [VmMap.appendEntries, Hdr.linkAll, hi.nentries, List.length_append]
    push_cast
    rfl
  · have := hordered.total_le (fun x hx => (hbounds x hx).1) (fun x hx => (hbounds x hx).2) (by
      rw [hnew]
      change s.new.minOffset ≤ s.new.maxOffset
      rw [hi.min_eq, hi.max_eq]
      omega)
    have hlt := hi.old.max_lt
    have : s'.new.maxOffset = s.old.maxOffset := by rw [hnew]; exact hi.max_eq
    rw [hsize, ← htotal]
    exact Nat.mod_eq_of_lt (by omega)
  · rw [hnew, hmin]
    exact hi.min_eq
  · rw [hnew, hmax]
    exact hi.max_eq

/-- A round at one entry that gives the new map one entry in the same place. -/
theorem ForkInv.advance (hi : ForkInv s) (hafter : s.after = e :: rest)
    (hsrc : r.1.vmeStart = e.vmeStart ∧ r.1.vmeEnd = e.vmeEnd)
    (hnew : r.2.1.vmeStart = e.vmeStart ∧ r.2.1.vmeEnd = e.vmeEnd) :
    ForkInv (s.advance (e.vmeEnd - e.vmeStart) rest r) := by
  have hl : s.old.entries = s.before ++ e :: rest := by rw [hi.split, hafter]
  have ho := hi.old.ordered
  rw [hl] at ho
  obtain ⟨he, hlater, -⟩ := ordered_cons.1 ho.right
  have hb := hi.old.bounds e (by rw [hl]; simp)
  have ht : Tiles [r.2.1] e.vmeStart e.vmeEnd := by
    refine ⟨hnew.1, ?_, hnew.2⟩
    simp only [start_entry, stop_entry, hnew.1, hnew.2]
    exact he
  have hold : WellFormed { s.old with entries := s.before ++ r.1 :: rest } := by
    refine hi.old.congr ?_ (by rw [hl]; simp) rfl rfl rfl rfl
    rw [hl]
    exact .append (.refl fun _ _ => trivial)
      (.keep trivial hsrc.1 hsrc.2 (.refl fun _ _ => trivial))
  exact hi.append ht hb.1 hb.2 (fun c hc => hi.behind c hc e (by rw [hafter]; simp)) hold
    (by simp [ForkState.advance]) hlater rfl rfl rfl rfl

theorem objectToShare_bounds (h : Objects V) (e : VmMapEntry) :
    (objectToShare h e).1.vmeStart = e.vmeStart ∧ (objectToShare h e).1.vmeEnd = e.vmeEnd := by
  unfold objectToShare
  simp only
  split
  · split_ifs <;> exact ⟨rfl, rfl⟩
  · exact ⟨rfl, rfl⟩

theorem shareEntry_bounds (h : Objects V) (e : VmMapEntry) (n : ℕ) :
    ((shareEntry h e n).1.vmeStart = e.vmeStart ∧ (shareEntry h e n).1.vmeEnd = e.vmeEnd) ∧
      (shareEntry h e n).2.1.vmeStart = e.vmeStart ∧ (shareEntry h e n).2.1.vmeEnd = e.vmeEnd :=
  ⟨objectToShare_bounds h e, objectToShare_bounds h e⟩

theorem renumber_tiles {b : ℕ} : ∀ {l : List VmMapEntry} {a : ℕ} (n : ℕ), Tiles l a b →
    Tiles (renumber l n) a b
  | [], _, _, h => h
  | _ :: _, _, n, ⟨hs, he, hl⟩ => ⟨hs, he, renumber_tiles (n + 1) hl⟩

theorem forkCopyin_inv (hi : ForkInv s)
  (hafter : s.after = e :: rest) (h : forkCopyin zero s e = some s') :
    ForkInv s' := by
  have hl : s.old.entries = s.before ++ e :: rest := by rw [hi.split, hafter]
  have hb := hi.old.bounds e (by rw [hl]; simp)
  have he := hi.old.ordered.nonempty e (by rw [hl]; simp)
  simp only [start_entry, stop_entry] at he
  have hlt := hi.old.max_lt
  have hbehind : ∀ c ∈ s.new.entries, c.vmeEnd ≤ e.vmeStart :=
    fun c hc => hi.behind c hc e (by rw [hafter]; simp)
  unfold forkCopyin at h
  obtain ⟨⟨copy, old, heap⟩, hcopyin, h⟩ := Option.bind_eq_some_iff.1 h
  obtain ⟨hold, ⟨hmin, hmax⟩, hcut, htiles⟩ := copyin_spec hi.old (by omega) (by omega) hcopyin
  simp only at h
  cases copy with
  | none =>
    obtain ⟨⟨r, old₁⟩, hlook, h⟩ := Option.bind_eq_some_iff.1 h
    obtain ⟨hloc, hhint⟩ := lookup_spec hold.ordered.loose hlook
    cases h
    refine ⟨hhint.wellFormed hold, by rw [hhint.entries, hloc.split],
      hi.ordered, hi.bounds, fun c hc x hx => ?_, hi.nentries, hi.size,
      by rw [hhint.minOffset, hmin];
          exact hi.min_eq, by rw [hhint.maxOffset, hmax]; exact hi.max_eq⟩
    -- `vm_map_copyin` has clipped the old map at the start of the entry
    have hstart : e.vmeStart ≤ x.vmeStart := by
      have hmem : x ∈ old.entries := by
        rw [← hloc.split]
        exact List.mem_append_right _ hx
      rcases hcut x hmem with hend | hstart
      · cases hfound : r.found with
        | true =>
          obtain ⟨y, ys, hys, hy₁, hy₂⟩ := hloc.found hfound
          have ho := hold.ordered
          rw [← hloc.split, hys] at ho
          rw [hys] at hx
          rcases List.mem_cons.1 hx with rfl | hx
          · omega
          · have := ho.right.start_le hx
            have := ho.nonempty x (by simp [hx])
            have := (ordered_cons.1 ho.right).2.1 x hx
            simp only [start_entry, stop_entry] at *
            omega
        | false => exact (hloc.free hfound x hx).le
      · exact hstart
    exact (hbehind c hc).trans hstart
  | some copy =>
    obtain ⟨⟨r, old₁⟩, hseek, h⟩ := Option.bind_eq_some_iff.1 h
    have hs := seek_spec hold hseek
    cases h
    have ht := renumber_tiles s.new.hdr.zone (htiles copy rfl)
    refine hi.append ht hb.1 (by omega) hbehind (hs.recut.wellFormed hold) hs.split.symm hs.after
      (hs.recut.minOffset.trans hmin) (hs.recut.maxOffset.trans hmax) rfl ?_
    rw [Nat.add_sub_cancel_left]

theorem forkStep_cases (h : forkStep zero s e rest = some s') :
    s' = { s with before := s.before ++ [e], after := rest } ∨
      (∃ r, (r = shareEntry s.heap e s.new.hdr.zone ∨
      copyNonblocking s.heap e s.new.hdr.zone = some r) ∧
        s' = s.advance (e.vmeEnd - e.vmeStart) rest r) ∨ forkCopyin zero s e = some s' := by
  unfold forkStep at h
  simp only at h
  split at h
  · cases h
  split at h
  · exact .inl (Option.some.inj h).symm
  · split_ifs at h
    exact .inr (.inl ⟨_, .inl rfl, (Option.some.inj h).symm⟩)
  · split at h
    · rename_i r hr
      exact .inr (.inl ⟨r, .inr hr, (Option.some.inj h).symm⟩)
    · exact .inr (.inr h)

theorem round_bounds {n : ℕ} (hr : r = shareEntry h e n ∨ copyNonblocking h e n = some r) :
    (r.1.vmeStart = e.vmeStart ∧ r.1.vmeEnd = e.vmeEnd) ∧ r.2.1.vmeStart = e.vmeStart ∧
    r.2.1.vmeEnd = e.vmeEnd := by
  rcases hr with rfl | hr
  · exact shareEntry_bounds h e n
  · exact copyNonblocking_bounds hr

theorem forkStep_inv (hi : ForkInv s) (hafter : s.after = e :: rest)
    (h : forkStep zero s e rest = some s') : ForkInv s' := by
  obtain rfl | ⟨r, hr, rfl⟩ | h := forkStep_cases h
  · exact ⟨hi.old, by simp [hi.split, hafter], hi.ordered, hi.bounds,
      fun c hc x hx => hi.behind c hc x (by rw [hafter]; exact List.mem_cons_of_mem _ hx),
      hi.nentries, hi.size, hi.min_eq, hi.max_eq⟩
  · exact hi.advance hafter (round_bounds hr).1 (round_bounds hr).2
  · exact forkCopyin_inv hi hafter h

theorem forkLoop_induct {P : ForkState V → Prop}
    (hstep : ∀ {s s' e rest}, P s → s.after = e :: rest → forkStep zero s e rest = some s' → P s') :
    ∀ {fuel : ℕ} {s s' : ForkState V}, P s → forkLoop zero fuel s = some s' → P s'
  | 0, s, s', hs, h => by
    unfold forkLoop at h
    split_ifs at h
    cases h
    exact hs
  | fuel + 1, s, s', hs, h => by
    unfold forkLoop at h
    split at h
    · cases h
      exact hs
    · rename_i e rest hafter
      obtain ⟨s₁, hround, h⟩ := Option.bind_eq_some_iff.1 h
      exact forkLoop_induct hstep (hstep hs hafter hround) h

/-- What every round keeps holds when `vm_map_fork` is done. -/
theorem fork_induct {P : ForkState V → Prop} {fuel : ℕ} {child : VmMap}
    (hfork : vmMapFork zero fuel m h = some (child, m', h')) (hstart : P (forkStart m h))
    (hstep : ∀ {s s' e rest}, P s → s.after = e :: rest → forkStep zero s e rest = some s' → P s') :
    ∃ s, P s ∧ { s.new with size := s.newSize } = child ∧ s.old = m' := by
  obtain ⟨s, hloop, heq⟩ := Option.map_eq_some_iff.1 hfork
  simp only [Prod.mk.injEq] at heq
  exact ⟨s, forkLoop_induct hstep hstart hloop, heq.1, heq.2.1⟩

theorem fork_wellFormed (hm : WellFormed m) {fuel : ℕ} {child : VmMap}
    (hfork : vmMapFork zero fuel m h = some (child, m', h')) :
    WellFormed child ∧ WellFormed m' := by
  obtain ⟨s, hi, rfl, rfl⟩ := fork_induct hfork (forkInv_start hm h) forkStep_inv
  exact ⟨⟨hi.ordered, hi.bounds, hi.nentries, hi.size, hi.max_eq ▸ hi.old.max_lt⟩, hi.old⟩

end Fork

end XMach.Vm
