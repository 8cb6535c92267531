import XMach.Vm.Copyin
import XMach.Vm.Proofs.Fork
import XMach.Vm.Proofs.User

/-!
# What a copied range is

Each round of `vm_map_copyin` either ends the call or leaves it at the entry that begins where the
copy ends (`CopyinInv`), with fewer entries to come or with one change of the map by others fewer.
So the call returns, and on success it has copied each page of the range from a map in which it
could be read.

This rests on the end of the range being an address behind its start. Where `round_page` wraps, the
range ends at 0 and is never finished, or in the page that it starts in.
-/

namespace XMach.Vm

open Region

variable {m m' M : VmMap} {maps others : List VmMap} {before rest : List VmMapEntry}
  {e src new : VmMapEntry} {a start : ℕ} {o : Copying} {c : CopyinCall} {s : CopyinState}

section Mapping

/-- A page but for whether it is copied before it is written to. -/
def Page.dropCopy (p : Page) : Page := { p with needsCopy := false }

/-- Both maps mean the same but for `needs_copy`. -/
def SameMapping (m m' : VmMap) : Prop := ∀ a,
    (m'.denote a).map Page.dropCopy = (m.denote a).map Page.dropCopy

theorem SameMapping.refl (m : VmMap) : SameMapping m m := fun _ => rfl

theorem SameMapping.trans (h : SameMapping M m) (h' : SameMapping m m') : SameMapping M m' :=
  fun a => (h' a).trans (h a)

theorem Recut.sameMapping (h : Recut Piece m m') : SameMapping m m' := fun a => by rw [h.denote a]

/-- What holds of the page of an address, whatever its `needs_copy`. -/
theorem SameMapping.exists_page {P : Page → Prop}
    (hP : ∀ p q : Page, p.dropCopy = q.dropCopy → P p → P q)
    (h : SameMapping m m') (hp : ∃ p, m'.denote a = some p ∧ P p) :
    ∃ p, m.denote a = some p ∧ P p := by
  obtain ⟨p, hp, hP'⟩ := hp
  have ha := h a
  rw [hp, Option.map_some] at ha
  obtain ⟨q, hq, heq⟩ := Option.map_eq_some_iff.1 ha.symm
  exact ⟨q, hq, hP p q heq.symm hP'⟩

/-- The address is mapped and can be read. -/
def Readable (m : VmMap) (a : ℕ) : Prop := ∃ p, m.denote a = some p ∧
    p.protection &&& vmProtRead ≠ 0

/-- There is a submap at the address. -/
def SubMapAt (m : VmMap) (a : ℕ) : Prop := ∃ p, m.denote a = some p ∧ ∃ k, p.object = .subMap k

theorem SameMapping.readable (h : SameMapping m m') (hr : Readable m' a) : Readable m a := by
  refine h.exists_page (fun p q heq hp => ?_) hr
  have hprot : p.dropCopy.protection = q.dropCopy.protection := congrArg Page.protection heq
  rwa [← show p.protection = q.protection from hprot]

theorem SameMapping.subMapAt (h : SameMapping m m') (hr : SubMapAt m' a) : SubMapAt m a := by
  refine h.exists_page (fun p q heq hp => ?_) hr
  have hobj : p.dropCopy.object = q.dropCopy.object := congrArg Page.object heq
  rwa [← show p.object = q.object from hobj]

theorem denote_of_mem (hm : WellFormed m) (he : e ∈ m.entries) (hc : Covers e a) :
    m.denote a = some (e.page a) := by
  unfold VmMap.denote pageAt
  rw [hm.ordered.regionAt_eq_some.2 ⟨he, hc⟩, Option.map_some]

theorem readable_of_mem (hm : WellFormed m) (he : e ∈ m.entries) (hc : Covers e a)
    (hr : e.protection &&& vmProtRead ≠ 0) : Readable m a :=
  ⟨_, denote_of_mem hm he hc, hr⟩

theorem sameMapping_mark (hm : WellFormed m) (hl : m.entries = before ++ e :: rest) (b : Bool) :
    WellFormed { m with entries := before ++ { e with needsCopy := b } :: rest } ∧
      SameMapping m { m with entries := before ++ { e with needsCopy := b } :: rest } := by
  have hcuts : Cuts (fun _ _ => True) m.entries (before ++ { e with needsCopy := b } :: rest) := by
    rw [hl]
    exact .append (.refl fun _ _ => trivial) (.keep trivial rfl rfl (.refl fun _ _ => trivial))
  refine ⟨hm.congr hcuts (by simp [hl]) rfl rfl rfl rfl, fun a => ?_⟩
  unfold VmMap.denote pageAt
  rw [hl, regionAt_append, regionAt_append, regionAt_cons, regionAt_cons]
  cases regionAt before a with
  | some x => rfl
  | none =>
    rw [Option.none_or, Option.none_or]
    by_cases hc : Covers e a
    · have hc' : Covers { e with needsCopy := b } a := hc
      rw [if_pos hc, if_pos hc']
      rfl
    · have hc' : ¬ Covers { e with needsCopy := b } a := hc
      rw [if_neg hc, if_neg hc']

end Mapping

section Round

-- the sums in them are not to be unfolded where addresses are compared
attribute [local irreducible] CopyinCall.srcStart CopyinCall.srcEnd

/-- The maps of a call: well formed, with a hint that leads to an entry, and without submaps in the
range. -/
structure Usable (c : CopyinCall) (m : VmMap) : Prop where
  wellFormed : WellFormed m
  hint : Linked m.entries m.hint
  plain : ∀ a, c.srcStart ≤ a → a = c.srcStart ∨ a < c.srcEnd → ¬ SubMapAt m a

/-- Where the loop is: at the entry that begins where the copy ends. -/
structure CopyinInv (maps : List VmMap) (c : CopyinCall) (s : CopyinState) : Prop where
  split : s.map.entries = s.before ++ s.after
  wellFormed : WellFormed s.map
  head : ∃ e rest, s.after = e :: rest ∧ e.vmeStart = s.srcStart
  current : ∃ M, Current maps s.others M ∧ SameMapping M s.map
  copy : Tiles s.copy c.srcStart s.srcStart
  lt : s.srcStart < c.srcEnd
  read : ∀ a, c.srcStart ≤ a → a < s.srcStart → ∃ M ∈ maps, Readable M a

structure CopyinResult.Right (maps : List VmMap) (c : CopyinCall) (r : CopyinResult) : Prop where
  success : r.kr = .success → ∃ copy, r.copy = some copy ∧ copy.offset = c.srcAddr ∧
    copy.size = c.len ∧
    Tiles copy.entries c.srcStart c.srcEnd ∧ ∀ a, c.srcStart ≤ a → a < c.srcEnd → ∃ M ∈ maps,
    Readable M a
  failed : r.kr ≠ .success → ∃ others M, Current maps others M ∧ SameMapping M r.map

theorem right_of_error {kr : KernReturn} (hkr : kr ≠ .success) (h : Current maps others M)
    (hs : SameMapping M m) : CopyinResult.Right maps c ⟨kr, none, m⟩ :=
  ⟨fun h => absurd h hkr, fun _ => ⟨others, M, h, hs⟩⟩

/-- Fewer changes by others to come, or as many and fewer entries. -/
def Less (p q : ℕ × ℕ) : Prop := Prod.Lex (· < ·) (· < ·) p q

def CopyinState.todo (s : CopyinState) : ℕ × ℕ := (s.others.length, s.after.length)

/-- The call ends as it should, or goes on with less to do than before. -/
def RoundOk (maps : List VmMap) (c : CopyinCall) (todo : ℕ × ℕ) : CopyinState ⊕ CopyinResult → Prop
  | .inl s => CopyinInv maps c s ∧ Less s.todo todo
  | .inr r => r.Right maps c

/-- What is at hand when a copy of an entry is linked. -/
structure Linking (maps : List VmMap) (c : CopyinCall) (copy : List VmMapEntry) (start : ℕ)
    (m : VmMap)
    (before : List VmMapEntry) (src : VmMapEntry) (rest : List VmMapEntry) (new : VmMapEntry)
    (others : List VmMap) : Prop where
  split : m.entries = before ++ src :: rest
  wellFormed : WellFormed m
  current : ∃ M, Current maps others M ∧ SameMapping M m
  copy : Tiles copy c.srcStart start
  srcStart : src.vmeStart = start
  newStart : new.vmeStart = start
  lt : start < new.vmeEnd
  le : new.vmeEnd ≤ c.srcEnd
  read : ∀ a, c.srcStart ≤ a → a < new.vmeEnd → ∃ M ∈ maps, Readable M a

theorem Linking.ok {copy : List VmMapEntry}
    (h : Linking maps c copy start m before src rest new others)
    {todo : ℕ × ℕ} (htodo : new.vmeEnd < c.srcEnd → Less (others.length, rest.length) todo) :
    RoundOk maps c todo (copySuccessful c copy m before src rest new others) := by
  obtain ⟨M, hM, hsame⟩ := h.current
  have htiles : Tiles (copy ++ [new]) c.srcStart new.vmeEnd := by
    refine h.copy.append ⟨h.newStart, ?_, rfl⟩
    simp only [start_entry, stop_entry, h.newStart]
    exact h.lt
  have hmem : src ∈ m.entries := by
    rw [h.split]
    exact List.mem_append_right _ List.mem_cons_self
  have hmin := (h.wellFormed.bounds src hmem).1
  have hlt := h.lt
  have hstart := h.srcStart
  unfold copySuccessful
  simp only
  by_cases hdone : c.srcEnd ≤ new.vmeEnd ∧ c.srcEnd ≠ 0
  · rw [if_pos hdone]
    have hend : new.vmeEnd = c.srcEnd := le_antisymm h.le hdone.1
    rw [hend] at htiles
    refine ⟨fun _ => ⟨_, rfl, rfl, rfl, htiles, fun a h₁ h₂ => h.read a h₁ (hend ▸ h₂)⟩,
      fun hne => absurd rfl hne⟩
  rw [if_neg hdone]
  have hgo : new.vmeEnd < c.srcEnd := by
    have := h.le
    omega
  cases rest with
  | nil =>
    -- the header begins at the lower bound of the map
    have hheader : m.minOffset ≠ new.vmeEnd := by omega
    rw [if_pos hheader]
    exact right_of_error (by simp) hM hsame
  | cons next rest =>
    by_cases hnext : next.vmeStart ≠ new.vmeEnd
    · rw [if_pos hnext]
      exact right_of_error (by simp) hM hsame
    · rw [if_neg hnext]
      refine ⟨⟨?_, h.wellFormed, ⟨next, rest, rfl, not_not.1 hnext⟩, ⟨M, hM, hsame⟩, htiles, hgo,
        h.read⟩, htodo hgo⟩
      rw [h.split]
      simp

theorem newEntry_bounds (o : Copying) (e : VmMapEntry) :
    (o.newEntry e).vmeStart = e.vmeStart ∧ (o.newEntry e).vmeEnd = e.vmeEnd := by
  unfold Copying.newEntry
  split_ifs <;> exact ⟨rfl, rfl⟩

theorem clipped_bounds (e : VmMapEntry) (end_ zone : ℕ) :
    (if end_ < e.vmeEnd then (e.clipEnd end_ zone).1 else e).vmeStart = e.vmeStart ∧
      (if end_ < e.vmeEnd then (e.clipEnd end_ zone).1 else e).vmeEnd = min e.vmeEnd end_ := by
  split_ifs with h
  · exact ⟨rfl, (min_eq_right h.le).symm⟩
  · exact ⟨rfl, (min_eq_left (not_lt.1 h)).symm⟩

theorem clipEnd_entries (m : VmMap) (before : List VmMapEntry) (e : VmMapEntry)
    (rest : List VmMapEntry) (end_ : ℕ) : (m.clipEnd before e rest end_).entries = before ++
      (if end_ < e.vmeEnd then (e.clipEnd end_ m.hdr.zone).1 else e) ::
        (if end_ < e.vmeEnd then (e.clipEnd end_ m.hdr.zone).2 :: rest else rest) := by
  unfold VmMap.clipEnd
  split_ifs <;> rfl

theorem Usable.not_subMap (hu : Usable c M) (hsame : SameMapping M m) (hm : WellFormed m)
    (he : e ∈ m.entries)
    (hlo : c.srcStart ≤ e.vmeStart) (hhi : e.vmeStart = c.srcStart ∨ e.vmeStart < c.srcEnd) :
    e.isSubMap = false := by
  by_contra hsub
  refine hu.plain e.vmeStart hlo hhi
    (hsame.subMapAt ⟨_, denote_of_mem hm he ⟨le_rfl, hm.ordered.nonempty e he⟩, ?_⟩)
  unfold VmMapEntry.isSubMap at hsub
  cases hobj : e.object with
  | null => simp [hobj] at hsub
  | vmObject x => simp [hobj] at hsub
  | subMap k => exact ⟨k, hobj⟩

theorem CopyinInv.round (hi : CopyinInv maps c s) (hmaps : ∀ M ∈ maps, Usable c M) (o : Copying) :
    ∃ out, copyinRound o c s = some out ∧ RoundOk maps c s.todo out := by
  obtain ⟨e, tail, hafter, hstart⟩ := hi.head
  obtain ⟨M, hM, hsame⟩ := hi.current
  have hl : s.map.entries = s.before ++ e :: tail := by rw [hi.split, hafter]
  have he : e ∈ s.map.entries := by
    rw [hl]
    exact List.mem_append_right _ List.mem_cons_self
  have hne : e.vmeStart < e.vmeEnd := hi.wellFormed.ordered.nonempty e he
  have hlt := hi.lt
  have hle := hi.copy.ordered.2.2.1
  have hplain := (hmaps M hM.mem).not_subMap hsame hi.wellFormed he (by omega) (.inr (by omega))
  unfold copyinRound
  rw [hafter]
  simp only [hplain, Bool.false_eq_true, if_false]
  by_cases hread : e.protection &&& vmProtRead = 0
  · rw [if_pos hread]
    exact ⟨_, rfl, right_of_error (by simp) hM hsame⟩
  rw [if_neg hread]
  -- the entry, clipped to the range
  have hbefore : e.vmeStart < c.srcEnd := by omega
  have hrecut := recut_clipEnd hl hbefore
  have hentries := clipEnd_entries s.map s.before e tail c.srcEnd
  set m₁ := s.map.clipEnd s.before e tail c.srcEnd
  set src := if c.srcEnd < e.vmeEnd then (e.clipEnd c.srcEnd s.map.hdr.zone).1 else e with hsrc
  set rest := if c.srcEnd < e.vmeEnd then (e.clipEnd c.srcEnd s.map.hdr.zone).2 :: tail
    else tail with hrest
  obtain ⟨hsrcStart, hsrcEnd⟩ : src.vmeStart = e.vmeStart ∧ src.vmeEnd = min e.vmeEnd c.srcEnd :=
    clipped_bounds e _ _
  rw [hstart] at hsrcStart
  obtain ⟨hnewStart, hnewEnd⟩ := newEntry_bounds o src
  have hm₁ := hrecut.wellFormed hi.wellFormed
  have hsame₁ := hsame.trans hrecut.sameMapping
  -- the pages of the entry can be read
  have hpages : ∀ a, c.srcStart ≤ a → a < src.vmeEnd → ∃ M ∈ maps, Readable M a := by
    intro a h₁ h₂
    rcases lt_or_ge a s.srcStart with ha | ha
    · exact hi.read a h₁ ha
    · have hcov : Covers e a := by
        refine ⟨hstart.trans_le ha, ?_⟩
        simp only [stop_entry]
        omega
      exact ⟨M, hM.mem, hsame.readable (readable_of_mem hi.wellFormed he hcov hread)⟩
  have hlinking : Linking maps c s.copy s.srcStart m₁ s.before src rest (o.newEntry src) s.others :=
    ⟨hentries, hm₁, ⟨M, hM, hsame₁⟩, hi.copy, hsrcStart,
      hnewStart.trans hsrcStart, by omega, by omega, fun a h₁ h₂ => hpages a h₁ (hnewEnd ▸ h₂)⟩
  -- when the call goes on nothing was clipped
  have hless : src.vmeEnd < c.srcEnd → rest.length < s.after.length := fun h => by
    rw [hrest, if_neg (by omega), hafter]
    exact Nat.lt_succ_self _
  by_cases hblocks : o.blocks src = true
  · rw [if_pos hblocks]
    cases hothers : s.others with
    | nil =>
      refine ⟨_, rfl, Linking.ok (hothers ▸ hlinking) fun h => ?_⟩
      rw [CopyinState.todo, hothers]
      exact .right _ (hless (hnewEnd ▸ h))
    | cons m₂ others =>
      have hcur := (hothers ▸ hM).next
      have hu := hmaps m₂ hcur.mem
      have hfewer : ∀ n, Less (others.length, n) s.todo := fun n => by
        rw [CopyinState.todo, hothers]
        exact .left _ _ (Nat.lt_succ_self _)
      obtain ⟨r, m₃, hseek⟩ := seek_total hu.hint s.srcStart
      have hs := seek_spec hu.wellFormed hseek
      have hm₃ := hs.recut.wellFormed hu.wellFormed
      have hsame₃ := hs.recut.sameMapping
      simp only [hseek, Option.bind_eq_bind, Option.bind_some]
      rcases hfound : r.found with _ | _
      · exact ⟨_, rfl, right_of_error (by simp) hcur hsame₃⟩
      obtain ⟨src', rest', hafter', hstart'⟩ := hs.found hfound
      have hsplit : m₃.entries = r.before ++ src' :: rest' := by rw [← hs.split, hafter']
      rw [hafter']
      simp only
      split_ifs with hverify hshort
      · refine ⟨_, rfl,
          ⟨⟨hsplit, hm₃, ⟨src', rest', rfl, hstart'⟩, ⟨m₂, hcur, hsame₃⟩, hi.copy, hi.lt, hi.read⟩,
          hfewer _⟩⟩
      · have hne' : src'.vmeStart < src'.vmeEnd := by
          refine hm₃.ordered.nonempty src' ?_
          rw [hsplit]
          exact List.mem_append_right _ List.mem_cons_self
        have hcut : Linking maps c s.copy s.srcStart m₃ r.before src' rest'
            { o.newEntry src with vmeEnd := src'.vmeEnd } others :=
          ⟨hsplit, hm₃, ⟨m₂, hcur, hsame₃⟩, hi.copy, hstart', hlinking.newStart, hstart' ▸ hne',
            hshort.le.trans hlinking.le, fun a h₁ h₂ => hlinking.read a h₁ (lt_trans h₂ hshort)⟩
        exact ⟨_, rfl, hcut.ok fun _ => hfewer _⟩
      · exact ⟨_, rfl, Linking.ok ⟨hsplit, hm₃, ⟨m₂, hcur, hsame₃⟩, hi.copy, hstart',
          hlinking.newStart, hlinking.lt, hlinking.le, hlinking.read⟩ fun _ => hfewer _⟩
  · rw [if_neg hblocks]
    obtain ⟨hm₂, hsame₂⟩ :=
      sameMapping_mark hm₁ hentries (src.needsCopy || o.srcNeedsCopy src.object)
    have hmarked : Linking maps c s.copy s.srcStart _ s.before
        { src with needsCopy := src.needsCopy || o.srcNeedsCopy src.object } rest (o.newEntry src)
          s.others :=
      ⟨rfl, hm₂, ⟨M, hM, hsame₁.trans hsame₂⟩, hi.copy, hsrcStart, hlinking.newStart, hlinking.lt,
        hlinking.le, hlinking.read⟩
    exact ⟨_, rfl, hmarked.ok fun h => .right _ (hless (hnewEnd ▸ h))⟩

/-- The loop returns, with the right result. -/
theorem CopyinInv.run (hmaps : ∀ M ∈ maps, Usable c M) (o : Copying) (s : CopyinState)
    (hi : CopyinInv maps c s) : ∃ n r, copyinRun o c n s = some (.inr r) ∧ r.Right maps c := by
  obtain ⟨out, hround, hok⟩ := hi.round hmaps o
  cases out with
  | inr r =>
    refine ⟨1, r, ?_, hok⟩
    rw [copyinRun, hround]
    rfl
  | inl s' =>
    obtain ⟨hi', hless⟩ := hok
    obtain ⟨n, r, hrun, hright⟩ := CopyinInv.run hmaps o s' hi'
    refine ⟨n + 1, r, ?_, hright⟩
    rw [copyinRun, hround]
    exact hrun
termination_by s.todo
decreasing_by exact hless

theorem copyin_ahead (hm : Usable c m) (hothers : ∀ M ∈ others, Usable c M) (hlen : c.len ≠ 0)
    (hlt : c.srcStart < c.srcEnd) (o : Copying) :
    ∃ n r, vmMapCopyinBytes o c n m others = some (.inr r) ∧ r.Right (m :: others) c := by
  obtain ⟨r, m₁, hseek⟩ := seek_total hm.hint c.srcStart
  have hs := seek_spec hm.wellFormed hseek
  unfold vmMapCopyinBytes copyinStart
  simp only [hlen, if_false, hlt.not_ge, false_and, hseek, Option.bind_eq_bind, Option.bind_some]
  by_cases hfound : r.found = true
  · rw [if_pos hfound]
    obtain ⟨e, rest, hafter, hstart⟩ := hs.found hfound
    have hi : CopyinInv (m :: others) c ⟨m₁, r.before, r.after, c.srcStart, [], others⟩ :=
      ⟨hs.split.symm, hs.recut.wellFormed hm.wellFormed, ⟨e, rest, hafter, hstart⟩,
        ⟨m, current_self m others, hs.recut.sameMapping⟩, rfl, hlt,
        fun a h₁ h₂ => absurd h₁ (not_le.2 h₂)⟩
    exact hi.run (List.forall_mem_cons.2 ⟨hm, hothers⟩) o
  · rw [if_neg hfound]
    exact ⟨0, _, rfl, right_of_error (by simp) (current_self m others) hs.recut.sameMapping⟩

theorem copyin_unreadable (hm : Usable c m) (others : List VmMap) (hlen : c.len ≠ 0)
    (hread : ¬ Readable m c.srcStart) (o : Copying) :
    ∃ n r, vmMapCopyinBytes o c n m others = some (.inr r) ∧ r.kr ≠ .success ∧
    SameMapping m r.map := by
  obtain ⟨r, m₁, hseek⟩ := seek_total hm.hint c.srcStart
  have hs := seek_spec hm.wellFormed hseek
  have hm₁ := hs.recut.wellFormed hm.wellFormed
  have hsame := hs.recut.sameMapping
  unfold vmMapCopyinBytes copyinStart
  simp only [hlen, if_false]
  split_ifs with hrange
  · exact ⟨0, _, rfl, by simp, .refl m⟩
  simp only [hseek, Option.bind_eq_bind, Option.bind_some]
  by_cases hfound : r.found = true
  · rw [if_pos hfound]
    obtain ⟨e, rest, hafter, hstart⟩ := hs.found hfound
    have he : e ∈ m₁.entries := by
      rw [← hs.split, hafter]
      exact List.mem_append_right _ List.mem_cons_self
    have hprot : e.protection &&& vmProtRead = 0 := by
      by_contra hprot
      refine hread (hsame.readable (readable_of_mem hm₁ he ⟨hstart.le, ?_⟩ hprot))
      exact hstart ▸ hm₁.ordered.nonempty e he
    refine ⟨1, ⟨.protectionFailure, none, m₁⟩, ?_, by simp, hsame⟩
    simp only [Option.bind_some, copyinRun, copyinRound, hafter,
      hm.not_subMap hsame hm₁ he hstart.ge (.inl hstart), Bool.false_eq_true,
      if_false, if_pos hprot]
  · rw [if_neg hfound]
    exact ⟨0, _, rfl, by simp, hsame⟩

end Round

section Pages

attribute [local irreducible] CopyinCall.srcStart CopyinCall.srcEnd

variable {V : Type}

/-- A copy but for its objects. -/
def VmMapCopy.ranges (k : VmMapCopy) : ℕ × ℕ × List (ℕ × ℕ) :=
  (k.offset, k.size, k.entries.map fun e => (e.vmeStart, e.vmeEnd))

/-- The round at an entry that can be read, while nothing changes the map. -/
theorem copyinRound_alone (o : Copying) (m : VmMap) (before rest copy : List VmMapEntry) (start : ℕ)
    (hplain : e.isSubMap = false) (hread : e.protection &&& vmProtRead ≠ 0) :
    ∃ m' src rest' new, m'.minOffset = m.minOffset ∧ (e.vmeEnd ≤ c.srcEnd → rest' = rest) ∧
      new.vmeStart = e.vmeStart ∧ new.vmeEnd = min e.vmeEnd c.srcEnd ∧
      copyinRound o c ⟨m, before, e :: rest, start, copy, []⟩ =
        some (copySuccessful c copy m' before src rest' new []) := by
  have hmin : (m.clipEnd before e rest c.srcEnd).minOffset = m.minOffset := by
    unfold VmMap.clipEnd
    split_ifs <;> rfl
  obtain ⟨hstart, hend⟩ := clipped_bounds e c.srcEnd m.hdr.zone
  unfold copyinRound
  simp only [hplain, hread, Bool.false_eq_true, if_false]
  generalize (if c.srcEnd < e.vmeEnd then (e.clipEnd c.srcEnd m.hdr.zone).1 else e) = src at *
  obtain ⟨h₁, h₂⟩ := newEntry_bounds o src
  cases o.blocks src with
  | true => exact ⟨_, _, _, _, hmin, fun hle => if_neg hle.not_gt, h₁.trans hstart,
      h₂.trans hend, rfl⟩
  | false => exact ⟨_, _, _, _, by exact hmin, fun hle => if_neg hle.not_gt, h₁.trans hstart,
      h₂.trans hend, rfl⟩

/-- The loop and the walk of a fork come to the same ranges. -/
theorem copyinRun_walk (o : Copying) (zero : V) {l : List VmMapEntry} (copy : List VmMapEntry)
    (hdr : Hdr) (h : Objects V) (hmin : ∀ e ∈ l, m.minOffset < e.vmeEnd)
    (hplain : ∀ e ∈ l, e.vmeStart < c.srcEnd → e.isSubMap = false) (hlt : start < c.srcEnd)
    (hhead : ∃ e rest, l = e :: rest ∧ e.vmeStart = start) :
    ∃ r, copyinRun o c l.length ⟨m, before, l, start, copy, []⟩ = some (.inr r) ∧
      r.copy.map VmMapCopy.ranges = (copyinLoop zero c.srcEnd l start hdr h).1.map fun k =>
        VmMapCopy.ranges ⟨c.srcAddr, c.len, copy ++ k⟩ := by
  induction l generalizing m before start copy hdr h with
  | nil =>
    obtain ⟨_, _, ⟨⟩, -⟩ := hhead
  | cons e rest ih =>
    obtain ⟨_, _, ⟨⟩, rfl⟩ := hhead
    rw [List.length_cons, copyinRun, copyinLoop]
    have hsub := hplain e List.mem_cons_self hlt
    by_cases hread : e.protection &&& vmProtRead = 0
    · simp [copyinRound, hsub, hread]
    obtain ⟨m', src, rest', new, hm', hrest, hstart, hend, hround⟩ :=
      copyinRound_alone (c := c) o m before rest copy e.vmeStart hsub hread
    rw [hround, Option.bind_some, if_neg (not_or.2 ⟨not_not.2 rfl, hread⟩)]
    unfold copySuccessful
    rcases le_or_gt c.srcEnd e.vmeEnd with hle | hgt
    · -- the last round
      rw [min_eq_right hle] at hend
      rw [if_pos ⟨hend.ge, by omega⟩]
      refine ⟨_, rfl, ?_⟩
      split_ifs with hclip
      · obtain ⟨-, h₁, h₂⟩ := copyinEntry_bounds zero h (e.clipEnd c.srcEnd hdr.zone).1
        simp [VmMapCopy.ranges, hstart, hend, h₁, h₂]
      · obtain ⟨-, h₁, h₂⟩ := copyinEntry_bounds zero h e
        simp [VmMapCopy.ranges, hstart, hend, h₁, h₂]
        omega
    · obtain rfl := hrest hgt.le
      rw [min_eq_left hgt.le] at hend
      rw [if_neg (by omega), if_neg hgt.not_gt]
      dsimp only
      obtain ⟨-, h₁, h₂⟩ := copyinEntry_bounds zero h e
      cases rest' with
      | nil =>
        have hlow := hmin e List.mem_cons_self
        rw [if_pos (by dsimp only; omega)]
        exact ⟨_, rfl, by simp [copyinLoop, hgt.not_ge]⟩
      | cons e' rest =>
        by_cases hnext : e'.vmeStart = e.vmeEnd
        · rw [if_neg (by simp [hnext, hend])]
          obtain ⟨r, hrun, hcopy⟩ := ih (copy ++ [new]) hdr (copyinEntry zero h e).2.2
            (fun e he => hm' ▸ hmin e (List.mem_cons_of_mem _ he))
              (fun e he => hplain e (List.mem_cons_of_mem _ he))
            (hend.trans_lt hgt) ⟨e', rest, rfl, hnext.trans hend.symm⟩
          refine ⟨r, hrun, hcopy.trans ?_⟩
          rw [hend]
          cases copyinLoop zero c.srcEnd (e' :: rest) e.vmeEnd hdr (copyinEntry zero h e).2.2 with
          | mk k tail => cases k <;> simp [hgt.not_ge, VmMapCopy.ranges, hstart, hend, h₁, h₂]
        · rw [if_pos (by simp [hnext, hend])]
          exact ⟨_, rfl, by simp [copyinLoop, hgt.not_ge, hnext]⟩

/-- A fork's copy of a range of whole pages is the copy of its bytes: both are made or none, and
their entries have the same ranges. -/
theorem copyinBytes_pages (hm : Usable c m) (o : Copying) (zero : V) (h : Objects V)
    (haddr : c.srcAddr % pageSize = 0) (hpages : c.len % pageSize = 0) (hlen : c.len ≠ 0)
    (hsum : c.srcAddr + c.len < 2 ^ 32) :
    ∃ n r copy m' h', vmMapCopyinBytes o c n m [] = some (.inr r) ∧
      vmMapCopyin zero m h c.srcAddr c.len = some (copy, m', h') ∧
      r.copy.map VmMapCopy.ranges = copy.map VmMapCopy.ranges := by
  have hstart : c.srcStart = c.srcAddr := by
    unfold CopyinCall.srcStart truncPage
    omega
  have hend : c.srcEnd = (c.srcAddr + c.len) % 2 ^ 32 := by
    unfold CopyinCall.srcEnd roundPage truncPage
    unfold pageSize at *
    omega
  have hlt : c.srcStart < c.srcEnd := by omega
  obtain ⟨r, m₁, hseek⟩ := seek_total hm.hint c.srcStart
  have hs := seek_spec hm.wellFormed hseek
  have hm₁ := hs.recut.wellFormed hm.wellFormed
  unfold vmMapCopyinBytes copyinStart vmMapCopyin
  rw [← hend, ← hstart, if_neg hlen, if_neg (fun hle => hle.1.not_gt hlt), if_neg hlt.not_ge, hseek]
  simp only [Option.bind_eq_bind, Option.bind_some]
  by_cases hfound : r.found = true
  · have hmem : ∀ x ∈ r.after, x ∈ m₁.entries := fun x hx => hs.split ▸ List.mem_append_right _ hx
    have hmin : ∀ x ∈ r.after, m₁.minOffset < x.vmeEnd := fun x hx =>
      (hm₁.bounds x (hmem x hx)).1.trans_lt (hm₁.ordered.nonempty x (hmem x hx))
    have hplain : ∀ x ∈ r.after, x.vmeStart < c.srcEnd → x.isSubMap = false := fun x hx hlt =>
      hm.not_subMap hs.recut.sameMapping hm₁ (hmem x hx) (hs.after x hx) (.inr hlt)
    obtain ⟨out, hrun, hcopy⟩ := copyinRun_walk o zero [] m₁.hdr h hmin hplain hlt (hs.found hfound)
    rw [if_pos hfound, if_pos hfound]
    refine ⟨_, out, _, _, _, hrun, rfl, ?_⟩
    rw [hcopy, Option.map_map, hstart]
    rfl
  · rw [if_neg hfound, if_neg hfound]
    exact ⟨0, _, _, _, _, rfl, rfl, rfl⟩

end Pages

section Bytes

/-- The range ends behind its start, or is refused at once, or begins where nothing can be read. -/
def CopyinCall.Safe (c : CopyinCall) (m : VmMap) : Prop :=
  c.srcAddr + c.len ≤ 2 ^ 32 - pageSize ∨ (c.srcEnd ≤ c.srcStart ∧ c.srcStart ≠ 0) ∨
    ¬ Readable m c.srcStart

/-- The pages from `src_start` to `src_end` are those that the bytes meet. -/
theorem touches_iff (hsum : c.srcAddr + c.len ≤ 2 ^ 32 - pageSize) (hlen : c.len ≠ 0) :
    Touches c.srcAddr c.len a ↔ c.srcStart ≤ a ∧ a < c.srcEnd := by
  refine ⟨fun h => ⟨h.truncPage_le, h.lt_rangeEnd hsum⟩, fun ⟨h₁, h₂⟩ => ?_⟩
  unfold CopyinCall.srcStart truncPage at h₁
  unfold CopyinCall.srcEnd roundPage truncPage at h₂
  unfold Touches
  unfold pageSize at *
  exact ⟨max c.srcAddr (a - a % 4096), by omega, by omega, by omega⟩

/-- `vm_map_copyin` of bytes returns, whatever the others do meanwhile. On success the copy has the
pages that the bytes meet, in order and without an empty entry, each from a map in which it could be
read, and on failure the map means what it meant. -/
def CopyinRight (c : CopyinCall) (m : VmMap) : Prop :=
  ∀ others, (∀ M ∈ others, Usable c M) → ∀ o, ∃ n r,
    vmMapCopyinBytes o c n m others = some (.inr r) ∧
    (r.kr = .success → 0 < c.len → c.srcAddr + c.len ≤ 2 ^ 32 ∧ ∃ copy, r.copy = some copy ∧
      copy.offset = c.srcAddr ∧ copy.size = c.len ∧ Ordered copy.entries ∧
      (∀ a, (∃ e ∈ copy.entries, Covers e a) ↔ Touches c.srcAddr c.len a) ∧
      ∀ a, Touches c.srcAddr c.len a → ∃ M ∈ m :: others, Readable M a) ∧
    (r.kr ≠ .success → ∃ rest M, Current (m :: others) rest M ∧ SameMapping M r.map)

theorem copyinRight_of_safe (hm : Usable c m) (hsafe : c.Safe m) : CopyinRight c m := by
  intro others hothers o
  by_cases hlen : c.len = 0
  · refine ⟨0, ⟨.success, none, m⟩, ?_, fun _ hpos => by omega, fun hne => absurd rfl hne⟩
    simp [vmMapCopyinBytes, copyinStart, hlen]
  rcases hsafe with hsum | ⟨hle, hne⟩ | hread
  · have hlt : c.srcStart < c.srcEnd := by
      obtain ⟨h₁, h₂⟩ :=
        (touches_iff (a := c.srcAddr) hsum hlen).1 ⟨c.srcAddr, le_rfl, by omega, rfl⟩
      omega
    obtain ⟨n, r, hr, hright⟩ := copyin_ahead hm hothers hlen hlt o
    refine ⟨n, r, hr, fun hkr _ => ⟨by omega, ?_⟩, hright.failed⟩
    obtain ⟨copy, hcopy, hoff, hsize, htiles, hreads⟩ := hright.success hkr
    obtain ⟨hordered, hbounds, -⟩ := htiles.ordered
    refine ⟨copy, hcopy, hoff, hsize, hordered, fun a => ?_, fun a ha => ?_⟩
    · rw [touches_iff hsum hlen]
      constructor
      · rintro ⟨e, he, h₁, h₂⟩
        obtain ⟨hlo, hhi⟩ := hbounds e he
        exact ⟨hlo.trans h₁, lt_of_lt_of_le h₂ hhi⟩
      · rintro ⟨h₁, h₂⟩
        exact htiles.exists_covers h₁ h₂
    · obtain ⟨h₁, h₂⟩ := (touches_iff hsum hlen).1 ha
      exact hreads a h₁ h₂
  · refine ⟨0, ⟨.invalidAddress, none, m⟩, ?_, by simp,
      fun _ => ⟨others, m, current_self m others, .refl m⟩⟩
    simp [vmMapCopyinBytes, copyinStart, hlen, hle, hne]
  · obtain ⟨n, r, hr, hkr, hsame⟩ := copyin_unreadable hm others hlen hread o
    exact ⟨n, r, hr, fun h => absurd h hkr, fun _ => ⟨others, m, current_self m others, hsame⟩⟩

/-- The loop is at an entry that begins at address 0 and can be copied. -/
def AtZero (s : CopyinState) : Prop :=
  s.others = [] ∧ ∃ e rest, s.after = e :: rest ∧ e.vmeStart = 0 ∧ 0 < e.vmeEnd ∧
    e.isSubMap = false ∧ e.protection &&& vmProtRead ≠ 0

/-- A range that ends at 0 cuts the entry off at its start, and the next one begins where the copy
ends. -/
theorem AtZero.round (h : AtZero s) (hend : c.srcEnd = 0) (o : Copying) :
    ∃ s', copyinRound o c s = some (.inl s') ∧ AtZero s' := by
  obtain ⟨hothers, e, rest, hafter, hs, hlt, hsub, hread⟩ := h
  have hnew : (o.newEntry (e.clipEnd 0 s.map.hdr.zone).1).vmeEnd = 0 := (newEntry_bounds _ _).2
  have hnext : (e.clipEnd 0 s.map.hdr.zone).2.vmeStart = 0 := rfl
  have hzero (m : VmMap) (src : VmMapEntry) : ∃ s', copySuccessful c s.copy m s.before src
      ((e.clipEnd 0 s.map.hdr.zone).2 :: rest) (o.newEntry (e.clipEnd 0 s.map.hdr.zone).1)
        [] = .inl s' ∧ AtZero s' := by
    unfold copySuccessful
    simp only [hend, hnew, hnext, ne_eq, not_true_eq_false, and_false, if_false]
    exact ⟨_, rfl, rfl, (e.clipEnd 0 s.map.hdr.zone).2, rest, rfl, hnext, hlt, hsub, hread⟩
  unfold copyinRound
  rw [hafter]
  simp only [hsub, Bool.false_eq_true, if_false, if_neg hread, hend, if_pos hlt, hothers]
  split
  · obtain ⟨s', hs', hz⟩ := hzero (s.map.clipEnd s.before e rest 0) (e.clipEnd 0 s.map.hdr.zone).1
    exact ⟨s', congrArg some hs', hz⟩
  · obtain ⟨s', hs', hz⟩ := hzero _ _
    exact ⟨s', congrArg some hs', hz⟩

theorem AtZero.run (h : AtZero s) (hend : c.srcEnd = 0) (o : Copying) (n : ℕ) :
    ∃ s', copyinRun o c n s = some (.inl s') := by
  induction n generalizing s with
  | zero => exact ⟨s, rfl⟩
  | succ n ih =>
    obtain ⟨s', hround, hs'⟩ := h.round hend o
    obtain ⟨s'', hrun⟩ := ih hs'
    refine ⟨s'', ?_⟩
    rw [copyinRun, hround]
    exact hrun

/-- The call comes to its loop when it is not refused and something can be read at its start. -/
theorem copyinStart_readable (hm : Usable c m) (hlen : c.len ≠ 0)
    (hgo : ¬ (c.srcEnd ≤ c.srcStart ∧ (c.srcEnd < c.srcStart ∨ c.srcStart ≠ 0)))
    (hread : Readable m c.srcStart) : ∃ m₁ before e rest, (∀ others, copyinStart c m others =
        some (.inl ⟨m₁, before, e :: rest, c.srcStart, [], others⟩)) ∧
      e.vmeStart = c.srcStart ∧ c.srcStart < e.vmeEnd ∧ e.isSubMap = false ∧
      e.protection &&& vmProtRead ≠ 0 := by
  obtain ⟨r, m₁, hseek⟩ := seek_total hm.hint c.srcStart
  have hs := seek_spec hm.wellFormed hseek
  have hm₁ := hs.recut.wellFormed hm.wellFormed
  have hsame := hs.recut.sameMapping
  have hfound : r.found = true := by
    by_contra hnot
    obtain ⟨p, hp, -⟩ := hread
    obtain ⟨e, hreg, -⟩ := Option.map_eq_some_iff.1 hp
    obtain ⟨he, hcov⟩ := mem_of_regionAt hreg
    exact hs.free (by simpa using hnot) e he hcov
  obtain ⟨e, rest, hafter, hstart⟩ := hs.found hfound
  have he : e ∈ m₁.entries := by
    rw [← hs.split, hafter]
    exact List.mem_append_right _ List.mem_cons_self
  have hlt : c.srcStart < e.vmeEnd := hstart ▸ hm₁.ordered.nonempty e he
  have hback : SameMapping m₁ m := fun a => (hsame a).symm
  obtain ⟨p, hp, hprot⟩ := hback.readable hread
  rw [denote_of_mem hm₁ he ⟨hstart.le, hlt⟩] at hp
  cases hp
  refine ⟨m₁, r.before, e, rest, fun others => ?_, hstart, hlt,
    hm.not_subMap hsame hm₁ he hstart.ge (.inl hstart), hprot⟩
  unfold copyinStart
  rw [if_neg hlen, if_neg hgo, hseek]
  simp [hfound, hafter]

/-- What the loop returns does not depend on how many rounds it is given. -/
theorem copyinRun_unique {n k : ℕ} {r r' : CopyinResult} (h : copyinRun o c n s = some (.inr r))
    (h' : copyinRun o c k s = some (.inr r')) : r = r' := by
  induction n generalizing s k with
  | zero => cases h
  | succ n ih =>
    cases k with
    | zero => cases h'
    | succ k =>
      rw [copyinRun] at h h'
      obtain ⟨out, hout, h⟩ := Option.bind_eq_some_iff.1 h
      rw [hout, Option.bind_some] at h'
      cases out with
      | inl s' => exact ih h h'
      | inr r₀ =>
        cases h
        cases h'
        rfl

theorem copyinBytes_unique {n k : ℕ} {r r' : CopyinResult}
    (h : vmMapCopyinBytes o c n m others = some (.inr r))
    (h' : vmMapCopyinBytes o c k m others = some (.inr r')) : r = r' := by
  rw [vmMapCopyinBytes] at h h'
  obtain ⟨out, hout, h⟩ := Option.bind_eq_some_iff.1 h
  rw [hout, Option.bind_some] at h'
  cases out with
  | inl s => exact copyinRun_unique h h'
  | inr r₀ =>
    cases h
    cases h'
    rfl

/-- Objects whose copies block. -/
def slowly : Copying :=
  ⟨fun _ => false, fun _ => true, fun _ => true, fun e => (e.object, e.offset)⟩

def rangeEntry (object start end_ : ℕ) : VmMapEntry :=
  { (allocateRequest (end_ - start) false).newEntry 0 start end_ with object := .vmObject object }

/-- A map with one object, from one address to another. -/
def rangeMap (object start end_ : ℕ) : VmMap :=
  { vmMapCreate 0 (2 ^ 32 - 1) with
    entries := [rangeEntry object start end_]
    hdr := ⟨1, 1⟩
    size := end_ - start }

theorem rangeMap_usable {object end_ : ℕ} (hlt : start < end_) (hend : end_ < 2 ^ 32) :
    Usable c (rangeMap object start end_) where
  wellFormed := by
    refine ⟨ordered_cons.2 ⟨hlt, by simp, ordered_nil⟩, fun e he => ?_, rfl, ?_, ?_⟩
    · rw [List.mem_singleton.1 he]
      show 0 ≤ start ∧ end_ ≤ 2 ^ 32 - 1
      omega
    · exact (Nat.add_zero _).symm
    · show 2 ^ 32 - 1 < 2 ^ 32
      omega
  hint := trivial
  plain := by
    rintro a - - ⟨p, hp, k, hk⟩
    obtain ⟨e, hreg, rfl⟩ := Option.map_eq_some_iff.1 hp
    obtain ⟨he, -⟩ := mem_of_regionAt hreg
    rw [List.mem_singleton.1 he] at hk
    cases hk

theorem seek_rangeMap (object : ℕ) {end_ : ℕ} (hlt : start < end_) :
    (rangeMap object start end_).seek start =
    some (⟨true, [], [rangeEntry object start end_]⟩, rangeMap object start end_) := by
  simp [VmMap.seek, vmMapLookupEntry, rangeMap, rangeEntry, vmMapCreate, position,
    EnterRequest.newEntry, hlt]

theorem srcEnd_lt (c : CopyinCall) : c.srcEnd < 2 ^ 32 := by
  unfold CopyinCall.srcEnd roundPage truncPage
  exact lt_of_le_of_lt (Nat.sub_le _ _) (Nat.mod_lt _ (by decide))

section Around

attribute [local irreducible] CopyinCall.srcStart CopyinCall.srcEnd

/-- A range that goes round the address space is copied when the map changes to one that has its
last part. -/
theorem copyin_goes_round (hm : Usable c m) (hlen : c.len ≠ 0) (hlt : c.srcStart < c.srcEnd)
    (hread : Readable m c.srcStart) :
    ∃ M r, Usable c M ∧ vmMapCopyinBytes slowly c 2 m [M] = some (.inr r) ∧ r.kr = .success := by
  obtain ⟨m₁, before, e, rest, hstart, hes, hee, hsub, hprot⟩ := copyinStart_readable hm hlen
    (fun h => absurd h.1 (not_le.2 hlt)) hread
  -- an object that is not the one at the start of the range
  obtain ⟨k, hk⟩ : ∃ k, e.object ≠ .vmObject k := by
    cases e.object with
    | null => exact ⟨0, nofun⟩
    | vmObject x => exact ⟨x + 1, by simp⟩
    | subMap x => exact ⟨0, nofun⟩
  refine ⟨rangeMap k c.srcStart c.srcEnd, ?_⟩
  have hblocks (x : VmMapEntry) : slowly.blocks x = true := by simp [Copying.blocks, slowly]
  have hfirst : copyinRound slowly c ⟨m₁, before, e :: rest, c.srcStart, [],
      [rangeMap k c.srcStart c.srcEnd]⟩ =
      some (.inl ⟨rangeMap k c.srcStart c.srcEnd, [], [rangeEntry k c.srcStart c.srcEnd],
        c.srcStart, [], []⟩) := by
    have hobject : (if c.srcEnd < e.vmeEnd then (e.clipEnd c.srcEnd m₁.hdr.zone).1 else e).object =
      e.object := by
      split <;> rfl
    have hother : MapObject.vmObject k ≠ (if c.srcEnd < e.vmeEnd then
        (e.clipEnd c.srcEnd m₁.hdr.zone).1
        else e).object := fun heq => hk (hobject.symm.trans heq.symm)
    unfold copyinRound
    simp only [hsub, Bool.false_eq_true, if_false, if_neg hprot, hblocks, if_true,
      seek_rangeMap k hlt, Option.bind_eq_bind, Option.bind_some]
    exact if_pos (Or.inr (Or.inl hother))
  have hsecond : ∃ r, copyinRound slowly c ⟨rangeMap k c.srcStart c.srcEnd, [],
      [rangeEntry k c.srcStart c.srcEnd], c.srcStart, [], []⟩ = some (.inr r) ∧
      r.kr = .success := by
    have hread : ¬ ((rangeEntry k c.srcStart c.srcEnd).protection &&& vmProtRead = 0) := by
      show ¬ (vmProtDefault &&& vmProtRead = 0)
      decide
    have hsub : (rangeEntry k c.srcStart c.srcEnd).isSubMap = false := rfl
    have hend : (rangeEntry k c.srcStart c.srcEnd).vmeEnd = c.srcEnd := rfl
    have hnew := (newEntry_bounds slowly (rangeEntry k c.srcStart c.srcEnd)).2
    have hpos : c.srcEnd ≠ 0 := by omega
    unfold copyinRound copySuccessful
    simp only [hsub, Bool.false_eq_true, if_false, if_neg hread, hblocks, if_true, hend, lt_irrefl,
      hnew, le_refl, true_and, ne_eq, hpos, not_false_eq_true]
    exact ⟨_, rfl, rfl⟩
  obtain ⟨r, hr, hkr⟩ := hsecond
  refine ⟨r, rangeMap_usable hlt (srcEnd_lt c), ?_, hkr⟩
  rw [vmMapCopyinBytes, hstart]
  simp [copyinRun, hfirst, hr]

end Around

/-- Where the end of the range wraps, it is at address 0 unless the range itself goes round. -/
theorem srcEnd_wraps (hsum : 2 ^ 32 - pageSize < c.srcAddr + c.len)
    (hle : c.srcAddr + c.len ≤ 2 ^ 32) : c.srcEnd = 0 := by
  unfold CopyinCall.srcEnd roundPage truncPage
  unfold pageSize at *
  omega

/-- The call does what it should, whatever the others do, if and only if its range is safe. -/
theorem copyin_right (hm : Usable c m) (haddr : c.srcAddr < 2 ^ 32) :
    CopyinRight c m ↔ c.Safe m := by
  refine ⟨fun h => ?_, copyinRight_of_safe hm⟩
  by_contra hnot
  rw [CopyinCall.Safe, not_or, not_or, not_not] at hnot
  obtain ⟨hsum, hgo, hread⟩ := hnot
  have hlen : c.len ≠ 0 := by
    intro hzero
    refine hgo ⟨?_, ?_⟩
    · rw [srcEnd_wraps (by omega) (by omega)]
      exact Nat.zero_le _
    · unfold CopyinCall.srcStart truncPage
      unfold pageSize at *
      omega
  rcases lt_or_ge c.srcStart c.srcEnd with hlt | hge
  · obtain ⟨M, r, hM, hrun, hkr⟩ := copyin_goes_round hm hlen hlt hread
    obtain ⟨n, r', hrun', hok, -⟩ := h [M] (List.forall_mem_singleton.2 hM) slowly
    obtain rfl := copyinBytes_unique hrun hrun'
    obtain ⟨hle, -⟩ := hok hkr (Nat.pos_of_ne_zero hlen)
    have hend := srcEnd_wraps (not_le.1 hsum) hle
    omega
  · have hstart : c.srcStart = 0 := by
      by_contra hne
      exact hgo ⟨hge, hne⟩
    have hend : c.srcEnd = 0 := by omega
    obtain ⟨m₁, before, e, rest, hloop, hes, hee, hsub, hprot⟩ :=
      copyinStart_readable hm hlen (by omega) hread
    obtain ⟨n, r, hrun, -⟩ := h [] (by simp) slowly
    have hzero : AtZero ⟨m₁, before, e :: rest, c.srcStart, [], []⟩ :=
      ⟨rfl, e, rest, rfl, hes.trans hstart, by omega, hsub, hprot⟩
    obtain ⟨s, hs⟩ := hzero.run hend slowly n
    rw [vmMapCopyinBytes, hloop, Option.bind_some] at hrun
    cases hs.symm.trans hrun

section Examples

/-- Objects that are copied without blocking. -/
def quickly : Copying :=
  ⟨fun _ => true, fun _ => true, fun _ => true, fun e => (e.object, e.offset)⟩

/-- A map with its first page. -/
def firstPage : VmMap :=
  { vmMapCreate 0 65536 with
    entries := [(allocateRequest 4096 false).newEntry 0 0 4096]
    hdr := ⟨1, 1⟩
    size := 4096
    hint := some 0
    firstFree := some 0 }

theorem enter_firstPage : vmMapEnter (vmMapCreate 0 65536) 0 (allocateRequest 4096 false) false =
    some (.success 0, firstPage) := by decide

theorem firstPage_usable : Usable c firstPage where
  wellFormed := enter_wellFormed (create_wellFormed (by decide)) (by decide)
    (by decide) enter_firstPage
  hint := ⟨_, List.mem_singleton_self _, rfl⟩
  plain := by
    rintro a - - ⟨p, hp, k, hk⟩
    obtain ⟨e, hreg, rfl⟩ := Option.map_eq_some_iff.1 hp
    obtain ⟨he, -⟩ := mem_of_regionAt hreg
    rw [List.mem_singleton.1 he] at hk
    cases hk

/-- Half of the first page is copied. -/
theorem copyin_right_firstPage : ∃ n r copy, vmMapCopyinBytes quickly ⟨0, 2048⟩ n firstPage [] =
    some (.inr r) ∧
    r.kr = .success ∧ r.copy = some copy ∧ copy.size = 2048 ∧ Ordered copy.entries := by
  have hright : CopyinRight ⟨0, 2048⟩ firstPage :=
    (copyin_right firstPage_usable (by decide)).2 (.inl (by decide))
  obtain ⟨n, r, hr, hok, -⟩ := hright [] (by simp) quickly
  obtain ⟨r', hr', hkr⟩ : ∃ r', vmMapCopyinBytes quickly ⟨0, 2048⟩ 1 firstPage [] = some (.inr r') ∧
      r'.kr = .success := ⟨_, rfl, by decide⟩
  obtain rfl := copyinBytes_unique hr' hr
  obtain ⟨-, copy, hcopy, -, hsize, hordered, -⟩ := hok hkr (by decide)
  exact ⟨n, r', copy, hr, hkr, hcopy, hsize, hordered⟩

/-- All bytes but one from address 0 on are never copied, and from the second half of the page on, a
range that goes round the address space and ends in the first half is copied as that page. -/
theorem copyin_wraps :
    (∀ n, ∃ s, vmMapCopyinBytes quickly ⟨0, 2 ^ 32 - 1⟩ n firstPage [] = some (.inl s)) ∧
      ∃ r copy, vmMapCopyinBytes quickly ⟨2048, 2 ^ 32 - 1024⟩ 1 firstPage [] = some (.inr r) ∧
        r.kr = .success ∧ r.copy = some copy ∧ copy.size = 2 ^ 32 - 1024 ∧
        copy.entries.map (fun e => (e.vmeStart, e.vmeEnd)) = [(0, 4096)] := by
  refine ⟨fun n => ?_, ?_⟩
  · have hend : CopyinCall.srcEnd ⟨0, 2 ^ 32 - 1⟩ = 0 := by decide
    have hseek : firstPage.seek 0 = some (⟨true, [], firstPage.entries⟩, firstPage) := by decide
    have hzero : AtZero ⟨firstPage, [], firstPage.entries, 0, [], []⟩ :=
      ⟨rfl, _, [], rfl, rfl, by decide, rfl, by decide⟩
    obtain ⟨s, hs⟩ := hzero.run hend quickly n
    have hstart : copyinStart ⟨0, 2 ^ 32 - 1⟩ firstPage [] =
        some (.inl ⟨firstPage, [], firstPage.entries, 0, [], []⟩) := by
      unfold copyinStart
      rw [if_neg (by decide), if_neg (by decide),
        show CopyinCall.srcStart ⟨0, 2 ^ 32 - 1⟩ = 0 from rfl, hseek]
      rfl
    refine ⟨s, ?_⟩
    rw [vmMapCopyinBytes, hstart]
    exact hs
  · have h : ((vmMapCopyinBytes quickly ⟨2048, 2 ^ 32 - 1024⟩ 1 firstPage []).bind fun out =>
        out.getRight?.bind fun r => r.copy.map fun copy =>
          (r.kr, copy.size, copy.entries.map fun e => (e.vmeStart, e.vmeEnd))) =
        some (.success, 2 ^ 32 - 1024, [(0, 4096)]) := by decide
    obtain ⟨out, hout, h⟩ := Option.bind_eq_some_iff.1 h
    obtain ⟨r, hr, h⟩ := Option.bind_eq_some_iff.1 h
    obtain ⟨copy, hcopy, h⟩ := Option.map_eq_some_iff.1 h
    obtain ⟨hkr, hsize, hentries⟩ : r.kr = .success ∧ copy.size = 2 ^ 32 - 1024 ∧
        copy.entries.map (fun e => (e.vmeStart, e.vmeEnd)) = [(0, 4096)] := by simpa using h
    rw [Sum.getRight?_eq_some_iff] at hr
    exact ⟨r, copy, hr ▸ hout, hkr, hcopy, hsize, hentries⟩

end Examples

end Bytes

end XMach.Vm
