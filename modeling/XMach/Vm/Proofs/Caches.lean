import Mathlib.Logic.Relation
import XMach.Vm.Projected
import XMach.Vm.Proofs.Wire

/-!
# The cached pointers lead into the map

`map->hint` and `map->first_free` lead to the header or to a linked entry while the map is unlocked.
Entries keep their addresses through clipping and every change of their fields, so only unlinking is
a danger. `vm_map_delete` leads both pointers away from the range before it walks; after a wait it
does not do so again, and the projected buffers unlink entries on their own. As long as both
pointers lead into the map every lookup in it is defined, and it stays well formed.
-/

namespace XMach.Vm

open Region

variable {m m' m₁ : VmMap} {l l' l'' before after rest : List VmMapEntry} {e : VmMapEntry}
  {a start end_ size p object : ℕ} {r : Lookup} {kr : KernReturn} {f : VmMapEntry → VmMapEntry}
  {reply : Reply} {stays : VmMapEntry → Bool} {w resident : Bool} {ok : VmMap → Risk → Prop}

section PtrsKept

/-- The entries that were linked still are. -/
def PtrsKept (l l' : List VmMapEntry) : Prop := ∀ e ∈ l, ∃ e' ∈ l', e'.ptr = e.ptr

theorem PtrsKept.refl (l : List VmMapEntry) : PtrsKept l l := fun e he => ⟨e, he, rfl⟩

theorem PtrsKept.append {k k' : List VmMapEntry} (h : PtrsKept l l') (h' : PtrsKept k k') :
    PtrsKept (l ++ k) (l' ++ k') := by
  intro e he
  rcases List.mem_append.1 he with he | he
  · obtain ⟨e', he', hp⟩ := h e he
    exact ⟨e', List.mem_append_left _ he', hp⟩
  · obtain ⟨e', he', hp⟩ := h' e he
    exact ⟨e', List.mem_append_right _ he', hp⟩

theorem PtrsKept.cons {e' : VmMapEntry} (hp : e'.ptr = e.ptr) (h : PtrsKept l l') :
    PtrsKept (e :: l) (e' :: l') := by
  intro x hx
  rcases List.mem_cons.1 hx with rfl | hx
  · exact ⟨e', List.mem_cons_self, hp⟩
  · obtain ⟨x', hx', hxp⟩ := h x hx
    exact ⟨x', List.mem_cons_of_mem _ hx', hxp⟩

theorem PtrsKept.skip {e' : VmMapEntry} (h : PtrsKept l l') : PtrsKept l (e' :: l') := by
  intro x hx
  obtain ⟨x', hx', hxp⟩ := h x hx
  exact ⟨x', List.mem_cons_of_mem _ hx', hxp⟩

/-- Both pointers lead into a map that has all entries it had before, if they did so then or are
new. -/
theorem CachesLinked.of_kept (h : CachesLinked m) (hk : PtrsKept m.entries m'.entries)
    (hhint : m'.hint = m.hint ∨ Linked m'.entries m'.hint)
    (hfree : m'.firstFree = m.firstFree ∨ Linked m'.entries m'.firstFree) : CachesLinked m' := by
  refine ⟨?_, ?_⟩
  · rcases hhint with heq | hl
    · rw [heq]
      exact h.1.mono hk
    · exact hl
  · rcases hfree with heq | hl
    · rw [heq]
      exact h.2.mono hk
    · exact hl

theorem OnlyHint.firstFree (h : OnlyHint m m') : m'.firstFree = m.firstFree := by
  rw [h.eq]
  rfl

/-- The entries are changed in place, `first_free` stays and the hint leads into the map if it
did. -/
structure Carries (m m' : VmMap) : Prop where
  held : Held m.hdr m.entries m'.hdr m'.entries
  minOffset : m'.minOffset = m.minOffset
  firstFree : m'.firstFree = m.firstFree
  hint : m'.hint = m.hint ∨ Linked m'.entries m'.hint

theorem Carries.refl (m : VmMap) : Carries m m := ⟨.refl _ _, rfl, rfl, .inl rfl⟩

theorem Carries.trans (h : Carries m m₁) (h' : Carries m₁ m') : Carries m m' := by
  refine ⟨h.held.trans h'.held, h'.minOffset.trans h.minOffset, h'.firstFree.trans h.firstFree, ?_⟩
  rcases h'.hint with heq | hl
  · rw [heq]
    exact h.hint.imp_right h'.held.linked
  · exact .inr hl

theorem Carries.cachesLinked (h : Carries m m') (hc : CachesLinked m) : CachesLinked m' :=
  hc.of_kept (fun e he => (h.held.ends e he).imp fun _ hx => ⟨hx.1, hx.2.1⟩) h.hint
    (.inl h.firstFree)

theorem OnlyHint.carries (h : OnlyHint m m') : Carries m m' := by
  refine ⟨?_, by rw [h.eq]; rfl, h.firstFree, ?_⟩
  · rw [h.eq]
    exact .refl _ _
  · rw [h.entries]
    exact h.linked

theorem Sought.carries (h : Sought m m' a r) : Carries m m' :=
  ⟨h.held, h.recut.minOffset, h.firstFree, h.hint⟩

/-- A walk over the entries from the one that was looked up. -/
theorem Sought.carries_walk (hs : Sought m m₁ a r) {h : Hdr} (hl : Held m₁.hdr r.after h after) :
    Carries m { m₁ with entries := r.before ++ after, hdr := h } := by
  refine hs.carries.trans ⟨?_, rfl, rfl, .inl rfl⟩
  rw [← hs.split]
  exact hl.behind _

end PtrsKept

section Walks

theorem held_map (hf : ∀ h e, Held h [e] h [f e]) (h : Hdr) : ∀ l :
    List VmMapEntry, Held h l h (l.map f)
  | [] => .refl h []
  | e :: l => .cons (hf h e) (held_map hf h l)

theorem forRange_held (hf : ∀ h e, Held h [e] h [f e]) (end_ : ℕ) (h : Hdr) :
    ∀ l : List VmMapEntry, Held h l (forRange end_ f l h).2 (forRange end_ f l h).1
  | [] => .refl h []
  | e :: l => by
    unfold forRange
    split_ifs with _ hclip
    · exact ((clipEnd_held h hclip.le).trans (.cons (hf _ _) (.refl _ _))).ahead l
    · exact .cons (hf h e) (forRange_held hf end_ h l)
    · exact .refl h _

theorem wire_held (user : Bool) (h : Hdr) (e : VmMapEntry) : Held h [e] h [e.wire user] := by
  cases user <;> exact held_one h rfl rfl rfl

theorem unwire_held (user : Bool) (h : Hdr) (e : VmMapEntry) : Held h [e] h [e.unwire user] := by
  cases user <;> exact held_one h rfl rfl rfl

theorem withObject_held (n : ℕ) (h : Hdr) (e : VmMapEntry) : Held h [e] h [e.withObject n] := by
  unfold VmMapEntry.withObject
  split_ifs <;> exact held_one h rfl rfl rfl

theorem wireEntry_held (user : Bool) (start n : ℕ) (e : VmMapEntry) (h : Hdr) :
    Held h [e] (wireEntry user start n e h).2 (wireEntry user start n e h).1 := by
  refine (withObject_held n h e).trans ?_
  unfold wireEntry
  simp only
  split_ifs
  · refine (clipStart_held h _ start).trans ((held_of_perm _ (.swap _ _ _)).trans ?_)
    exact .cons (wire_held user _ _) (.refl _ _)
  · exact wire_held user h _

theorem undoWire_held (user : Bool) (start : ℕ) (h : Hdr) :
    ∀ l : List VmMapEntry, Held h l h (undoWire user start l)
  | [] => .refl h []
  | e :: l => by
    unfold undoWire
    split_ifs
    · exact .cons (unwire_held user h e) (undoWire_held user start h l)
    · exact .refl h _

theorem held_reverse (h : Hdr) (l : List VmMapEntry) : Held h l h l.reverse :=
  held_of_perm h (List.reverse_perm l).symm

theorem wireLoop_held (user : Bool) (access : VmProt) (start end_ : ℕ) (passed l : List VmMapEntry)
    (h : Hdr) (n : ℕ) : Held h (passed ++ l) (wireLoop user access start end_ passed l h n).2.2
      (wireLoop user access start end_ passed l h n).2.1 := by
  -- the pieces of an entry go in front of those that were passed
  have hpassed : ∀ (e : VmMapEntry) (h : Hdr) (n : ℕ) (passed l : List VmMapEntry),
    Held h (passed ++ e :: l)
      (wireEntry user start n e h).2 (((wireEntry user start n e h).1 ++ passed) ++ l) := by
    intro e h n passed l
    rw [List.append_cons]
    refine Held.ahead (.trans (held_of_perm h List.perm_append_comm) ?_) l
    exact (wireEntry_held user start n e h).ahead passed
  induction l generalizing passed h n with
  | nil =>
    rw [List.append_nil]
    exact held_reverse h passed
  | cons e l ih =>
    unfold wireLoop
    simp only
    split_ifs with _ hclip
    · have hcut := ((clipEnd_held h hclip.le).ahead l).behind passed
      exact (hcut.trans (hpassed _ _ n passed _)).trans
        (((undoWire_held user start _ _).trans (held_reverse _ _)).ahead _)
    · have hcut := ((clipEnd_held h hclip.le).ahead l).behind passed
      exact (hcut.trans (hpassed _ _ n passed _)).trans ((held_reverse _ _).ahead _)
    · exact (hpassed e h n passed l).trans
        (((undoWire_held user start _ _).trans (held_reverse _ _)).ahead l)
    · exact (hpassed e h n passed l).trans (ih _ _ _)
    · exact (held_reverse h passed).ahead _

/-- The walk of `vm_map_delete` keeps what it does not unlink. -/
theorem deleteLoop_kept (stays : VmMapEntry → Bool) (end_ : ℕ) (l : List VmMapEntry) (h : Hdr)
    (size : ℕ) : ∀ e ∈ l, e.ptr ∈ deleted stays end_ l ∨
      ∃ e' ∈ (deleteLoop stays end_ l h size).2.1, e'.ptr = e.ptr := by
  induction l generalizing h size with
  | nil => simp
  | cons e l ih =>
    have htail : ∀ (k : List VmMapEntry), (∀ x ∈ l, x ∈ k) → ∀ x ∈ l, ∃ e' ∈ k, e'.ptr = x.ptr :=
      fun k hk x hx => ⟨x, hk x hx, rfl⟩
    have hstop : ∀ (k : List VmMapEntry) {e' : VmMapEntry}, e'.ptr = e.ptr →
        (∀ x ∈ l, x ∈ e' :: k) →
        ∀ x ∈ e :: l, x.ptr ∈ [] ∨ ∃ y ∈ e' :: k, y.ptr = x.ptr := fun k e' he hk =>
      List.forall_mem_cons.2 ⟨.inr ⟨e', List.mem_cons_self, he⟩, fun x hx => .inr (htail _ hk x hx)⟩
    unfold deleteLoop deleted
    simp only
    split_ifs
    · exact hstop _ rfl fun y hy => by simp [hy]
    · exact hstop _ rfl fun y hy => by simp [hy]
    · refine List.forall_mem_cons.2 ⟨.inl List.mem_cons_self, fun x hx => .inr ?_⟩
      exact htail _ (fun y hy => by simp [hy]) x hx
    · exact hstop _ rfl fun y hy => by simp [hy]
    · refine List.forall_mem_cons.2 ⟨.inr ⟨_, List.mem_cons_self, rfl⟩, fun x hx => ?_⟩
      rcases ih h size x hx with hd | ⟨x', hx', hp⟩
      · exact .inl hd
      · exact .inr ⟨x', List.mem_cons_of_mem _ hx', hp⟩
    · refine List.forall_mem_cons.2 ⟨.inl List.mem_cons_self, fun x hx => ?_⟩
      rcases ih h.unlink _ x hx with hd | hk
      · exact .inl (List.mem_cons_of_mem _ hd)
      · exact .inr hk
    · exact hstop _ rfl fun y hy => by simp [hy]

theorem clearMarks_held (end_ : ℕ) (h : Hdr) : ∀ l : List VmMapEntry, Held h l h (clearMarks end_ l)
  | [] => .refl h []
  | e :: l => by
    unfold clearMarks
    split_ifs
    · exact .cons (held_one h rfl rfl rfl) (clearMarks_held end_ h l)
    · exact .refl h _

theorem ptrsKept_replaceLast {n : VmMapEntry} (hlast : before.getLast? = some e)
    (hp : n.ptr = e.ptr) : PtrsKept (before ++ after) (before.dropLast ++ n :: after) := by
  have hl : before ++ after = before.dropLast ++ e :: after := by
    nth_rewrite 1 [dropLast_append_of_getLast hlast]
    simp
  rw [hl]
  exact .append (.refl _) (.cons hp (.refl after))

end Walks

section Calls

theorem insertEntry_cachesLinked (hc : CachesLinked m) (hl : m.entries = before ++ after)
    (r : EnterRequest) : CachesLinked (m.insertEntry before after start end_ r) := by
  have hnew : Linked (m.insertEntry before after start end_ r).entries (some m.hdr.zone) :=
    ⟨r.newEntry m.hdr.zone start end_, by simp [VmMap.insertEntry], rfl⟩
  refine hc.of_kept ?_ (.inr hnew) ?_
  · rw [hl]
    exact .append (.refl _) (.skip (.refl _))
  · by_cases h : m.firstFree = lastPtr before ∧ start ≤ m.endBefore before
    · right
      have heq : (m.insertEntry before after start end_ r).firstFree = some m.hdr.zone := if_pos h
      rw [heq]
      exact hnew
    · exact .inl (if_neg h)

theorem enter_cachesLinked (hm : WellFormed m) (hc : CachesLinked m) {r : EnterRequest}
    (hsize : r.size < 2 ^ 32) {grows : Bool} (h : vmMapEnter m a r grows = some (reply, m')) :
    CachesLinked m' := by
  obtain ⟨m₁, hhint, ⟨rfl, -⟩ | ⟨before, after, start, hg, -, -, rfl⟩⟩ := enter_spec hm.laid hsize h
  · exact hhint.carries.cachesLinked hc
  · have hc₁ := hhint.carries.cachesLinked hc
    unfold VmMap.place
    split
    · rename_i entry hlast
      split_ifs
      · refine hc₁.of_kept ?_ (.inl rfl) (.inl rfl)
        rw [hg.split]
        exact ptrsKept_replaceLast hlast rfl
      · exact insertEntry_cachesLinked hc₁ hg.split r
    · exact insertEntry_cachesLinked hc₁ hg.split r

theorem findEntry_cachesLinked (hm : WellFormed m) (hc : CachesLinked m) {mask : ℕ}
    {object : MapObject}
    (hsize : size < 2 ^ 32) {r : Option (ℕ × ℕ)}
    (h : vmMapFindEntry m size mask object = some (r, m')) : CachesLinked m' := by
  obtain ⟨-, rfl⟩ | ⟨before, after, start, hg, ⟨-, rfl⟩ | ⟨entry, hlast, -, -, rfl⟩⟩ :=
    findEntry_spec hm hsize h
  · exact hc
  · have hnew : Linked (m.insertWired before after start size).entries (some m.hdr.zone) :=
      ⟨wiredEntry m.hdr.zone start ((start + size) % 2 ^ 32), by simp [VmMap.insertWired], rfl⟩
    exact ⟨hnew, hnew⟩
  · have hlinked :
      Linked (before.dropLast ++ { entry with vmeEnd := (start + size) % 2 ^ 32 } :: after)
        (some entry.ptr) := ⟨_, List.mem_append_right _ List.mem_cons_self, rfl⟩
    exact ⟨hlinked, hlinked⟩

theorem setProtection_held (newProt : VmProt) (setMax : Bool) (h : Hdr) (e : VmMapEntry) :
    Held h [e] h [e.setProtection newProt setMax] := by
  unfold VmMapEntry.setProtection
  split_ifs <;> exact held_one h rfl rfl rfl

theorem protect_carries (hm : WellFormed m) {newProt : VmProt} {setMax : Bool}
    (h : vmMapProtect m start end_ newProt setMax = some (kr, m')) : Carries m m' := by
  unfold vmMapProtect at h
  obtain ⟨⟨r, m₁⟩, hseek, h⟩ := Option.bind_eq_some_iff.1 h
  have hs := seek_spec hm hseek
  simp only at h
  split at h
  · cases h
    exact hs.carries
  · cases h
    exact hs.carries_walk (forRange_held (setProtection_held newProt setMax) _ _ _)

theorem inherit_carries (hm : WellFormed m) {new : VmInherit}
    (h : vmMapInherit m start end_ new = some (kr, m')) : Carries m m' := by
  unfold vmMapInherit at h
  obtain ⟨⟨r, m₁⟩, hseek, h⟩ := Option.bind_eq_some_iff.1 h
  cases h
  exact (seek_spec hm hseek).carries_walk
    (forRange_held (f := VmMapEntry.setInheritance new) (fun h _ => held_one h rfl rfl rfl) _ _ _)

theorem clipStart_carries (hl : m.entries = before ++ e :: after) (start : ℕ) :
    Carries m (m.clipStart before e after start) := by
  unfold VmMap.clipStart
  split_ifs <;> refine ⟨?_, rfl, rfl, .inl rfl⟩ <;> rw [hl]
  · exact ((clipStart_held m.hdr e start).ahead after).behind before
  · exact .refl _ _

theorem clipEnd_carries (hl : m.entries = before ++ e :: after) (end_ : ℕ) :
    Carries m (m.clipEnd before e after end_) := by
  unfold VmMap.clipEnd
  split_ifs with hlt <;> refine ⟨?_, rfl, rfl, .inl rfl⟩ <;> rw [hl]
  · exact ((clipEnd_held m.hdr hlt.le).ahead after).behind before
  · exact .refl _ _

theorem submap_carries (hm : WellFormed m) {submap : ℕ} {untouched : Bool}
    (h : vmMapSubmap m start end_ submap object untouched = some (kr, m')) : Carries m m' := by
  unfold vmMapSubmap at h
  obtain ⟨⟨r, m₁⟩, hseek, h⟩ := Option.bind_eq_some_iff.1 h
  have hs := seek_spec hm hseek
  simp only at h
  split at h
  · split_ifs at h
    cases h
    exact hs.carries
  · rename_i e rest hafter
    have hl : m₁.entries = r.before ++ e :: rest := by rw [← hafter, hs.split]
    have hc₂ := hs.carries.trans (clipEnd_carries hl (m.rangeCheck start end_).2)
    set m₂ := m₁.clipEnd r.before e rest (m.rangeCheck start end_).2 with hm₂
    split at h
    · cases h
    · rename_i e₂ rest₂ hdrop
      split_ifs at h
      · cases h
        refine hc₂.trans ⟨?_, rfl, rfl, .inl rfl⟩
        have htake : m₂.entries.take r.before.length = r.before := by
          rw [hm₂]
          unfold VmMap.clipEnd
          split_ifs <;> simp
        have hl₂ : m₂.entries = r.before ++ e₂ :: rest₂ := by
          rw [← List.take_append_drop r.before.length m₂.entries, htake, hdrop]
        rw [hl₂]
        refine Held.behind r.before (Held.cons (held_one m₂.hdr ?_ ?_ ?_) (.refl _ _)) <;> rfl
      · obtain ⟨-, rfl⟩ := Prod.mk.inj (Option.some.inj h)
        exact hc₂

/-- An entry that starts before an address stands before the position of the address. -/
theorem linked_before_of_startOf {p : Option ℕ} {free : ℕ} (hl : before ++ after = m.entries)
    (ha : ∀ e ∈ after, start ≤ e.vmeStart) (h : m.startOf p = some free) (hlt : free < start) :
    Linked before p := by
  cases p with
  | none => trivial
  | some p =>
    obtain ⟨e, he, rfl⟩ := Option.map_eq_some_iff.1 h
    have hp : e.ptr = p := by simpa using List.find?_some he
    have hmem := List.mem_of_find?_eq_some he
    rw [← hl] at hmem
    rcases List.mem_append.1 hmem with hb | hafter
    · exact ⟨e, hb, hp⟩
    · have := ha e hafter
      omega

theorem lookup_hint_of_not_found (h : vmMapLookupEntry m a = some (r, m')) (hf : r.found = false) :
    m'.hint = lastPtr r.before := by
  unfold vmMapLookupEntry at h
  obtain ⟨⟨before, cur⟩, -, h⟩ := Option.bind_eq_some_iff.1 h
  simp only at h
  split at h
  · cases h
    rfl
  · split_ifs at h
    · cases h
      cases hf
    all_goals
      cases h
      simp only [VmMap.saveHint, Lookup.entry]
      rw [if_neg (by simpa using hf)]

theorem seek_hint_of_not_found (h : m.seek a = some (r, m')) (hf : r.found = false) :
    m'.hint = lastPtr r.before := by
  unfold VmMap.seek at h
  obtain ⟨⟨r₁, m₁⟩, hlook, h⟩ := Option.bind_eq_some_iff.1 h
  simp only at h
  split at h
  · rename_i hfound hafter
    split_ifs at h
    · cases h
      cases hf
    · cases h
      rw [hfound] at hf
      cases hf
  · cases h
    exact lookup_hint_of_not_found hlook hf

/-- `vm_map_delete` leads both pointers to entries before the range. -/
theorem delete_cachesLinked (hm : WellFormed m) (h : vmMapDelete m a end_ stays = some (w, m')) :
    CachesLinked m' := by
  unfold vmMapDelete at h
  obtain ⟨⟨r, m₁⟩, hseek, h⟩ := Option.bind_eq_some_iff.1 h
  obtain ⟨free, hfree, h⟩ := Option.bind_eq_some_iff.1 h
  have hs := seek_spec hm hseek
  obtain rfl : ((m₁.repairHints r a free).deleteFrom stays end_ r.before r.after).2 = m' :=
    congrArg Prod.snd (Option.some.inj h)
  have hlast : Linked (r.before ++ (deleteLoop stays end_ r.after m₁.hdr m₁.size).2.1)
    (lastPtr r.before) :=
    (linked_lastPtr r.before).append_left
  refine ⟨?_, ?_⟩
  · change Linked _ (if r.found then lastPtr r.before else m₁.hint)
    split_ifs with hf
    · exact hlast
    · -- the lookup has saved the entry before the gap
      rw [seek_hint_of_not_found hseek (by simpa using hf)]
      exact hlast
  · change Linked _ (if a ≤ free then lastPtr r.before else m₁.firstFree)
    split_ifs with hle
    · exact hlast
    · exact (linked_before_of_startOf hs.split hs.after hfree (not_le.1 hle)).append_left

theorem copyout_cachesLinked (hm : WellFormed m) (hc : CachesLinked m) {c : VmMapCopy}
    (h : vmMapCopyout m c = some (reply, m')) : CachesLinked m' := by
  obtain rfl | ⟨before, after, start, new, hg, -, -, rfl⟩ := copyout_spec hm.laid h
  · exact hc
  · have hnew : Linked (before ++ new ++ after) (lastPtr new) :=
      (linked_lastPtr new).mono fun e he => ⟨e, by simp [he], rfl⟩
    refine hc.of_kept ?_ (.inr hnew) ?_
    · rw [hg.split]
      intro e he
      exact ⟨e, by rcases List.mem_append.1 he with he | he <;> simp [he], rfl⟩
    · by_cases hfree : m.firstFree = lastPtr before
      · right
        simp only [if_pos hfree]
        exact hnew
      · exact .inl (if_neg hfree)

theorem withPages_ptr (e : VmMapEntry) (end_ object : ℕ) :
    (e.withPages end_ object).ptr = e.ptr := by
  unfold VmMapEntry.withPages
  split <;> rfl

theorem copyoutPageListPlace_cachesLinked (hm : WellFormed m) (hc : CachesLinked m) {sole : Bool}
    (hsize : size < 2 ^ 32) (h : copyoutPageListPlace m size object sole = some (reply, m')) :
    CachesLinked m' := by
  obtain ⟨rfl, -⟩ | ⟨before, after, start, hg, -, -, rfl | ⟨last, hlast, -, rfl⟩⟩ :=
    copyoutPageListPlace_spec hm.laid hsize h
  · exact hc
  · have hnew : Linked (m.insertPages before after start size object).entries (some m.hdr.zone) :=
      ⟨pagesEntry m.hdr.zone start ((start + size) % 2 ^ 32) object m.wiringRequired,
        by simp [VmMap.insertPages], rfl⟩
    refine hc.of_kept ?_ (.inr hnew) ?_
    · rw [hg.split]
      exact .append (.refl _) (.skip (.refl _))
    · by_cases hfree : m.firstFree = lastPtr before
      · right
        have heq : (m.insertPages before after start size object).firstFree = some m.hdr.zone :=
          if_pos hfree
        rw [heq]
        exact hnew
      · exact .inl (if_neg hfree)
  · have hptr := withPages_ptr last ((start + size) % 2 ^ 32) object
    refine hc.of_kept ?_ (.inr ⟨_, List.mem_append_right _ List.mem_cons_self, hptr⟩) (.inl rfl)
    rw [hg.split]
    exact ptrsKept_replaceLast hlast hptr

/-- The marks of the pages are cleared, and when they are not ready they are deleted. -/
theorem copyoutPageListDone_cases (hm : WellFormed m) {ok : Bool}
    (h : copyoutPageListDone m a end_ ok stays = some (w, m')) :
    ∃ m₁, Carries m m₁ ∧ WellFormed m₁ ∧
      (m' = m₁ ∨ vmMapDelete m₁ a end_ stays = some (w, m')) := by
  unfold copyoutPageListDone at h
  obtain ⟨⟨r, m₁⟩, hlook, h⟩ := Option.bind_eq_some_iff.1 h
  obtain ⟨hloc, hhint⟩ := lookup_spec hm.ordered.loose hlook
  simp only at h
  by_cases hf : r.found
  · rw [if_pos hf] at h
    have hl : m₁.entries = r.before ++ r.after := by rw [hhint.entries, hloc.split]
    obtain ⟨hcuts, hlen⟩ := clearMarks_cuts end_ r.after
    refine ⟨{ m₁ with entries := r.before ++ clearMarks end_ r.after },
      hhint.carries.trans ⟨?_, rfl, rfl, .inl rfl⟩, ?_, ?_⟩
    · rw [hl]
      exact (clearMarks_held end_ _ r.after).behind _
    · refine (hhint.wellFormed hm).congr ?_ (by simp [hl, hlen]) rfl rfl rfl rfl
      rw [hl]
      exact .append (.refl fun _ _ => trivial) hcuts
    · split_ifs at h
      · cases h
        exact .inl rfl
      · exact .inr h
  · rw [if_neg hf] at h
    cases h

theorem clearMark_carries (m : VmMap) (last : ℕ) :
    Carries m { m with entries := clearMark last m.entries } := by
  refine ⟨held_map (fun h e => ?_) _ _, rfl, rfl, .inl rfl⟩
  split_ifs <;> exact held_one h rfl rfl rfl

/-- `vm_map_simplify` leads both pointers to the entry that stays. -/
theorem simplify_cachesLinked (hm : WellFormed m) (hc : CachesLinked m)
    (h : vmMapSimplify m a = some m') : CachesLinked m' := by
  obtain ⟨m₁, hhint, rfl | ⟨before, prev, this, rest, hl, -, -, rfl⟩⟩ :=
    simplify_cases hm.ordered.loose h
  · exact hhint.carries.cachesLinked hc
  have hlinked : Linked (before ++ { prev with vmeEnd := this.vmeEnd } :: rest) (some prev.ptr) :=
    ⟨_, List.mem_append_right _ List.mem_cons_self, rfl⟩
  refine ⟨hlinked, ?_⟩
  by_cases hfree : m₁.firstFree = some this.ptr
  · simp only [if_pos hfree]
    exact hlinked
  · simp only [if_neg hfree]
    have hfirst := (hhint.carries.cachesLinked hc).2
    rw [hl] at hfirst
    cases hp : m₁.firstFree with
    | none => trivial
    | some p =>
      rw [hp] at hfree hfirst
      obtain ⟨x, hx, rfl⟩ := hfirst
      simp only [List.mem_append, List.mem_cons] at hx
      rcases hx with hx | rfl | rfl | hx
      · exact ⟨x, by simp [hx], rfl⟩
      · exact hlinked
      · exact absurd rfl hfree
      · exact ⟨x, by simp [hx], rfl⟩

end Calls

section Fork

variable {V : Type} {zero : V} {s s' : ForkState V} {h h' : Objects V}

theorem copyNonblocking_held {n : ℕ} {r : VmMapEntry × VmMapEntry × Objects V} (hdr : Hdr)
    (hr : copyNonblocking h e n = some r) : Held hdr [e] hdr [r.1] := by
  unfold copyNonblocking at hr
  split_ifs at hr
  obtain ⟨c, -, rfl⟩ := Option.map_eq_some_iff.1 hr
  exact held_one hdr rfl rfl rfl

theorem copyinEntry_held (zero : V) (h : Objects V) (hdr : Hdr) (e : VmMapEntry) :
    Held hdr [e] hdr [(copyinEntry zero h e).1] := by
  unfold copyinEntry
  split
  · rename_i r hr
    exact copyNonblocking_held hdr hr
  · exact .refl hdr _

theorem copyinLoop_held (zero : V) (srcEnd : ℕ) : ∀ (l : List VmMapEntry) (srcStart : ℕ) (hdr : Hdr)
    (h : Objects V), Held hdr l (copyinLoop zero srcEnd l srcStart hdr h).2.2.1
      (copyinLoop zero srcEnd l srcStart hdr h).2.1
  | [], _, hdr, _ => .refl hdr []
  | e :: l, srcStart, hdr, h => by
    unfold copyinLoop
    by_cases hbad : e.vmeStart ≠ srcStart ∨ e.protection &&& vmProtRead = 0
    · rw [if_pos hbad]
      exact .refl hdr _
    rw [if_neg hbad]
    by_cases hclip : srcEnd < e.vmeEnd
    · rw [if_pos hclip]
      exact ((clipEnd_held hdr hclip.le).trans
        (.cons (copyinEntry_held zero h _ _) (.refl _ _))).ahead l
    rw [if_neg hclip]
    by_cases hend : srcEnd ≤ e.vmeEnd
    · simp only [if_pos hend]
      exact (copyinEntry_held zero h hdr e).ahead l
    simp only [if_neg hend]
    have ih := copyinLoop_held zero srcEnd l e.vmeEnd hdr (copyinEntry zero h e).2.2
    split
    · rename_i hrec
      rw [hrec] at ih
      exact .cons (copyinEntry_held zero h hdr e) ih
    · rename_i hrec
      rw [hrec] at ih
      exact .cons (copyinEntry_held zero h hdr e) ih

theorem copyin_carries (hm : WellFormed m) {len : ℕ} {copy : Option VmMapCopy}
    (hcopy : vmMapCopyin zero m h start len = some (copy, m', h')) : Carries m m' := by
  unfold vmMapCopyin at hcopy
  simp only at hcopy
  by_cases hle : (start + len) % 2 ^ 32 ≤ start
  · rw [if_pos hle] at hcopy
    cases hcopy
    exact .refl m
  rw [if_neg hle] at hcopy
  obtain ⟨⟨r, m₁⟩, hseek, hcopy⟩ := Option.bind_eq_some_iff.1 hcopy
  have hs := seek_spec hm hseek
  simp only at hcopy
  by_cases hf : r.found
  · rw [if_pos hf] at hcopy
    obtain rfl : { m₁ with
        entries := r.before ++ (copyinLoop zero ((start + len) % 2 ^ 32) r.after start m₁.hdr h).2.1
        hdr := (copyinLoop zero ((start + len) % 2 ^ 32) r.after start m₁.hdr h).2.2.1 } = m' :=
      congrArg (fun x => x.2.1) (Option.some.inj hcopy)
    exact hs.carries_walk (copyinLoop_held zero _ _ _ _ _)
  · rw [if_neg hf] at hcopy
    obtain rfl : m₁ = m' := congrArg (fun x => x.2.1) (Option.some.inj hcopy)
    exact hs.carries

theorem advance_carries (hi : ForkInv s) (hafter : s.after = e :: rest)
    {r : VmMapEntry × VmMapEntry × Objects V} (hr : Held s.old.hdr [e] s.old.hdr [r.1]) :
    Carries s.old (s.advance size rest r).old := by
  refine ⟨?_, rfl, rfl, .inl rfl⟩
  rw [hi.split, hafter]
  exact (hr.ahead rest).behind s.before

theorem forkCopyin_carries (hi : ForkInv s) (hafter : s.after = e :: rest)
    (h : forkCopyin zero s e = some s') : Carries s.old s'.old := by
  have hmem : e ∈ s.old.entries := by
    rw [hi.split, hafter]
    simp
  have hb := hi.old.bounds e hmem
  have he := hi.old.ordered.nonempty e hmem
  have hlt := hi.old.max_lt
  simp only [start_entry, stop_entry] at he
  unfold forkCopyin at h
  obtain ⟨⟨copy, old, heap⟩, hcopyin, h⟩ := Option.bind_eq_some_iff.1 h
  have hold := (copyin_spec hi.old (by omega) (by omega) hcopyin).1
  have hc₁ := copyin_carries hi.old hcopyin
  simp only at h
  cases copy with
  | none =>
    obtain ⟨⟨r, old₁⟩, hlook, h⟩ := Option.bind_eq_some_iff.1 h
    cases h
    exact hc₁.trans (lookup_spec hold.ordered.loose hlook).2.carries
  | some copy =>
    obtain ⟨⟨r, old₁⟩, hseek, h⟩ := Option.bind_eq_some_iff.1 h
    cases h
    exact hc₁.trans (seek_spec hold hseek).carries

theorem shareEntry_held (h : Objects V) (e : VmMapEntry) (n : ℕ) (hdr : Hdr) :
    Held hdr [e] hdr [(shareEntry h e n).1] := by
  unfold shareEntry objectToShare
  simp only
  split
  · split_ifs <;> exact held_one hdr rfl rfl rfl
  · exact held_one hdr rfl rfl rfl

theorem forkStep_carries (hi : ForkInv s) (hafter : s.after = e :: rest)
    (h : forkStep zero s e rest = some s') : Carries s.old s'.old := by
  obtain rfl | ⟨r, hr, rfl⟩ | h := forkStep_cases h
  · exact .refl _
  · refine advance_carries hi hafter ?_
    rcases hr with rfl | hr
    · exact shareEntry_held _ _ _ _
    · exact copyNonblocking_held _ hr
  · exact forkCopyin_carries hi hafter h

theorem renumber_ptrs : ∀ (l : List VmMapEntry) (n : ℕ),
    (renumber l n).map VmMapEntry.ptr = List.range' n (renumber l n).length
  | [], _ => rfl
  | _ :: l, n => congrArg (n :: ·) (renumber_ptrs l (n + 1))

/-- The new map gets entries from the zone, and its hints stay at its header. -/
theorem forkStep_new (h : forkStep zero s e rest = some s') : s'.new = s.new ∨
    ∃ l : List VmMapEntry, l.map VmMapEntry.ptr = List.range' s.new.hdr.zone l.length ∧
      s'.new = s.new.appendEntries l := by
  obtain rfl | ⟨r, hr, rfl⟩ | h := forkStep_cases h
  · exact .inl rfl
  · refine .inr ⟨[r.2.1], ?_, rfl⟩
    rcases hr with rfl | hr
    · rfl
    · unfold copyNonblocking at hr
      split_ifs at hr
      obtain ⟨c, -, rfl⟩ := Option.map_eq_some_iff.1 hr
      rfl
  · unfold forkCopyin at h
    obtain ⟨⟨copy, old, heap⟩, -, h⟩ := Option.bind_eq_some_iff.1 h
    cases copy with
    | none =>
      obtain ⟨⟨r, old₁⟩, -, h⟩ := Option.bind_eq_some_iff.1 h
      cases h
      exact .inl rfl
    | some copy =>
      obtain ⟨⟨r, old₁⟩, -, h⟩ := Option.bind_eq_some_iff.1 h
      cases h
      exact .inr ⟨_, renumber_ptrs _ _, rfl⟩

theorem fork_carries (hm : WellFormed m) {fuel : ℕ} {child : VmMap}
    (hfork : vmMapFork zero fuel m h = some (child, m', h')) :
    CachesLinked child ∧ Carries m m' := by
  have hstart : ForkInv (forkStart m h) ∧ Carries m (forkStart m h).old ∧
      (forkStart m h).new.hint = none ∧ (forkStart m h).new.firstFree = none :=
    ⟨forkInv_start hm h, .refl m, rfl, rfl⟩
  obtain ⟨s, ⟨-, hold, hhint, hfree⟩, rfl, rfl⟩ :=
      fork_induct (P := fun s => ForkInv s ∧ Carries m s.old ∧
      s.new.hint = none ∧ s.new.firstFree = none) hfork hstart fun ⟨hi, hc, hnew⟩ hafter hstep => by
    refine ⟨forkStep_inv hi hafter hstep, hc.trans (forkStep_carries hi hafter hstep), ?_⟩
    obtain heq | ⟨l, -, heq⟩ := forkStep_new hstep <;> rw [heq] <;> exact hnew
  refine ⟨⟨?_, ?_⟩, hold⟩
  · simp only [hhint]
    trivial
  · simp only [hfree]
    trivial

end Fork

theorem Call.cachesLinked (h : Call ok m m') (hok : ∀ m c, ok m c → Careful m c) (hm : WellFormed m)
    (hc : CachesLinked m) : CachesLinked m' := by
  cases h with
  | enter _ hlt h => exact enter_cachesLinked hm hc hlt h
  | findEntry _ hlt _ h => exact findEntry_cachesLinked hm hc hlt h
  | protect h => exact (protect_carries hm h).cachesLinked hc
  | inherit h => exact (inherit_carries hm h).cachesLinked hc
  | submap _ _ h => exact (submap_carries hm h).cachesLinked hc
  | delete h => exact delete_cachesLinked hm h
  | remove h => exact delete_cachesLinked hm h
  | copyout _ h => exact copyout_cachesLinked hm hc h
  | copyoutObject _ hlt h => exact enter_cachesLinked hm hc hlt h
  | copyoutPageListPlace _ hlt h => exact copyoutPageListPlace_cachesLinked hm hc hlt h
  | copyoutPageListAtOnce => exact (clearMark_carries m _).cachesLinked hc
  | copyoutPageListDone h =>
    obtain ⟨m₁, hcarries, hm₁, rfl | h⟩ := copyoutPageListDone_cases hm h
    · exact hcarries.cachesLinked hc
    · exact delete_cachesLinked hm₁ h
  | simplify h => exact simplify_cachesLinked hm hc h
  | clipStart hl => exact (clipStart_carries hl _).cachesLinked hc
  | clipEnd hl => exact (clipEnd_carries hl _).cachesLinked hc
  | forkNew _ h => exact (fork_carries hm h).1
  | forkOld _ h => exact (fork_carries hm h).2.cachesLinked hc
  | forkShared hf he hs hp => exact absurd (hok _ _ hf _ he hs) hp

theorem pageable_carries (hm : WellFormed m) {access : VmProt} {user : Bool} {n : ℕ}
    (h : vmMapPageable m start end_ access user n = some (kr, m')) : Carries m m' := by
  unfold vmMapPageable at h
  simp only at h
  by_cases haccess : access = vmProtNone
  · rw [if_pos haccess] at h
    obtain ⟨⟨r, m₁⟩, hseek, h⟩ := Option.bind_eq_some_iff.1 h
    have hs := seek_spec hm hseek
    simp only at h
    split_ifs at h
    · cases h
      exact hs.carries
    · cases h
      exact hs.carries
    · cases h
      exact hs.carries_walk (forRange_held (unwire_held user) _ _ _)
  · rw [if_neg haccess] at h
    obtain ⟨⟨r, m₁⟩, hlook, h⟩ := Option.bind_eq_some_iff.1 h
    obtain ⟨hloc, hhint⟩ := lookup_spec hm.ordered.loose hlook
    simp only at h
    by_cases hf : r.found = false
    · rw [if_pos hf] at h
      cases h
      exact hhint.carries
    · rw [if_neg hf] at h
      cases h
      refine hhint.carries.trans ⟨?_, rfl, rfl, .inl rfl⟩
      rw [hhint.entries, ← hloc.split]
      exact ((held_reverse _ _).ahead _).trans (wireLoop_held user access _ _ _ _ _ _)

section Unlinking

theorem search_split (hb : ∀ e ∈ before, e.vmeEnd ≤ a) (ha : ∀ e ∈ after, a < e.vmeEnd) :
    search a (before ++ after) = (before, after) := by
  induction before with
  | nil =>
    cases after with
    | nil => rfl
    | cons e l => rw [List.nil_append, search, if_pos (ha e List.mem_cons_self)]
  | cons e l ih =>
    rw [List.cons_append, search, if_neg (not_lt.2 (hb e List.mem_cons_self)),
      ih fun x hx => hb x (List.mem_cons_of_mem _ hx)]

/-- The hint that a lookup leaves: the header, the entry that it found, or the one before the
gap. -/
theorem lookup_hint (hm : WellFormed m) (h : vmMapLookupEntry m a = some (r, m')) :
    m'.hint = none ∨ (∃ e ∈ m.entries, Covers e a ∧ m'.hint = some e.ptr) ∨
    m'.hint = lastPtr r.before := by
  cases hf : r.found with
  | false => exact .inr (.inr (lookup_hint_of_not_found h hf))
  | true =>
    obtain ⟨hloc, -⟩ := lookup_spec hm.ordered.loose h
    obtain ⟨e, rest, hafter, hcov⟩ := hloc.found hf
    have he : e ∈ m.entries := by
      rw [← hloc.split, hafter]
      simp
    have hentry : r.entry = some e.ptr := by
      unfold Lookup.entry
      rw [hf, hafter]
      rfl
    unfold vmMapLookupEntry at h
    obtain ⟨⟨before, cur⟩, hpos, h⟩ := Option.bind_eq_some_iff.1 h
    simp only at h
    split at h
    · cases h
      exact .inl rfl
    · split_ifs at h
      · -- the entry at the hint contains the address, and the hint stays
        cases h
        cases hafter
        cases hhint : m.hint with
        | none => exact .inl rfl
        | some p =>
          rw [hhint] at hpos
          obtain ⟨-, e', rest', hrest, hp⟩ := cut_spec hpos
          cases hrest
          exact .inr (.inl ⟨_, he, hcov, by rw [hp]⟩)
      all_goals
        cases h
        exact .inr (.inl ⟨e, he, hcov, hentry⟩)

theorem deleteResume_cachesLinked (hm : WellFormed m) (hc : CachesLinked m)
    (hok : Careful m (.resume start end_ stays))
    (h : vmMapDeleteResume m start end_ stays = some (w, m')) : CachesLinked m' := by
  unfold vmMapDeleteResume at h
  obtain ⟨⟨r, m₁⟩, hlook, h⟩ := Option.bind_eq_some_iff.1 h
  obtain ⟨hloc, hhint⟩ := lookup_spec hm.ordered.loose hlook
  obtain rfl : (m₁.deleteFrom stays end_ r.before r.after).2 = m' :=
    congrArg Prod.snd (Option.some.inj h)
  have hafter : (search start m.entries).2 = r.after := by
    rw [← hloc.split, search_split hloc.before fun e he => ?_]
    cases hf : r.found with
    | true =>
      obtain ⟨e₀, rest, hrest, -, hlt⟩ := hloc.found hf
      have ho := hm.ordered
      rw [← hloc.split, hrest] at ho
      rw [hrest] at he
      rcases List.mem_cons.1 he with rfl | he
      · exact hlt
      · exact (hlt.trans_le (ho.right.loose.stop_le he)).trans_le
          (ho.right.loose.le e (List.mem_cons_of_mem _ he))
    | false =>
      have hle := hm.ordered.loose.le e (by rw [← hloc.split]; exact List.mem_append_right _ he)
      exact (hloc.free hf e he).trans_le hle
  simp only [Careful, hafter] at hok
  have hkeep : ∀ e ∈ m.entries, e.ptr ∉ deleted stays end_ r.after →
      Linked (m₁.deleteFrom stays end_ r.before r.after).2.entries (some e.ptr) := by
    intro e he hgone
    rw [← hloc.split] at he
    rcases List.mem_append.1 he with he | he
    · exact ⟨e, List.mem_append_left _ he, rfl⟩
    · rcases deleteLoop_kept stays end_ r.after m₁.hdr m₁.size e he with hd | ⟨e', he', hptr⟩
      · exact absurd hd hgone
      · exact ⟨e', List.mem_append_right _ he', hptr⟩
  refine ⟨?_, ?_⟩
  · change Linked _ m₁.hint
    rcases lookup_hint hm hlook with hnone | ⟨e, he, hcov, hsome⟩ | hlast
    · rw [hnone]
      trivial
    · rw [hsome]
      exact hkeep e he fun hgone => (hok _ hgone).2 e he hcov rfl
    · rw [hlast]
      exact (linked_lastPtr r.before).append_left
  · change Linked _ m₁.firstFree
    rw [hhint.firstFree]
    cases hfree : m.firstFree with
    | none => trivial
    | some p =>
      have hlinked := hc.2
      rw [hfree] at hlinked
      obtain ⟨e, he, rfl⟩ := hlinked
      exact hkeep e he fun hgone => (hok _ hgone).1 hfree

theorem unlinkEntry_wellFormed (hm : WellFormed m) (hl : m.entries = before ++ e :: rest) :
    WellFormed (unlinkEntry m before e rest) := by
  have hsub : (before ++ rest).Sublist m.entries := by
    rw [hl]
    exact (List.Sublist.refl before).append (List.sublist_cons_self e rest)
  have hn := hm.nentries
  have hs := hm.size
  have hlt := size_lt hm
  rw [hl] at hn hs
  simp only [total_append, total_cons, start_entry, stop_entry] at hs
  refine ⟨hm.ordered.sublist hsub, fun x hx => hm.bounds x (hsub.subset hx), ?_, ?_, hm.max_lt⟩
  · simp only [unlinkEntry, Hdr.unlink, List.length_append, List.length_cons] at hn ⊢
    push_cast at hn ⊢
    omega
  · simp only [unlinkEntry, total_append]
    omega

theorem unlinkEntry_cachesLinked (hc : CachesLinked m) (hl : m.entries = before ++ e :: rest)
    (hok : m.hint ≠ some e.ptr ∧ m.firstFree ≠ some e.ptr) :
    CachesLinked (unlinkEntry m before e rest) := by
  have hkeep : ∀ q, q ≠ some e.ptr → Linked m.entries q → Linked (before ++ rest) q := by
    intro q hq hlinked
    cases q with
    | none => trivial
    | some q =>
      obtain ⟨x, hx, rfl⟩ := hlinked
      rw [hl] at hx
      simp only [List.mem_append, List.mem_cons] at hx
      rcases hx with hx | rfl | hx
      · exact ⟨x, List.mem_append_left _ hx, rfl⟩
      · exact absurd rfl hq
      · exact ⟨x, List.mem_append_right _ hx, rfl⟩
  exact ⟨hkeep _ hok.1 hc.1, hkeep _ hok.2 hc.2⟩

theorem entryDelete_spec (h : vmMapEntryDelete m p resident = some m') : ∃ before e rest,
    cut p m.entries = some (before, e :: rest) ∧ m.entries = before ++ e :: rest ∧ e.ptr = p ∧
      e.unwires resident = true ∧ m' = unlinkEntry m before e rest := by
  unfold vmMapEntryDelete at h
  obtain ⟨c, hcut, h⟩ := Option.bind_eq_some_iff.1 h
  obtain ⟨hl, e, rest, hrest, hp⟩ := cut_spec hcut
  rw [hrest] at h
  simp only at h
  split_ifs at h with hunwires
  refine ⟨c.1, e, rest, ?_, by rw [← hl, hrest], hp, hunwires, (Option.some.inj h).symm⟩
  rw [hcut, ← hrest]

theorem entryDelete_linked (hm : WellFormed m) (hc : CachesLinked m)
    (hok : m.hint ≠ some p ∧ m.firstFree ≠ some p) (h : vmMapEntryDelete m p resident = some m') :
    WellFormed m' ∧ CachesLinked m' := by
  obtain ⟨before, e, rest, -, hl, rfl, -, rfl⟩ := entryDelete_spec h
  exact ⟨unlinkEntry_wellFormed hm hl, unlinkEntry_cachesLinked hc hl hok⟩

end Unlinking

section ProjectedBuffers

theorem updateEntry_cuts (hf : KeepsBounds f) (p : ℕ) :
    ∀ l : List VmMapEntry, Cuts (fun _ _ => True) l (updateEntry p f l) ∧
      (updateEntry p f l).length = l.length
  | [] => ⟨.nil, rfl⟩
  | e :: l => by
    obtain ⟨hc, hlen⟩ := updateEntry_cuts hf p l
    refine ⟨?_, by simp [updateEntry]⟩
    unfold updateEntry at hc ⊢
    rw [List.map_cons]
    split_ifs
    · exact .keep trivial (hf e).1 (hf e).2 hc
    · exact .keep trivial rfl rfl hc

/-- An update of the fields of an entry moves nothing and keeps its address. -/
theorem updateEntry_spec (hf : KeepsBounds f) (hptr : ∀ e, (f e).ptr = e.ptr) (p : ℕ)
    (hm : WellFormed m) : WellFormed { m with entries := updateEntry p f m.entries } ∧
      Carries m { m with entries := updateEntry p f m.entries } := by
  obtain ⟨hcuts, hlen⟩ := updateEntry_cuts hf p m.entries
  refine ⟨hm.congr hcuts hlen rfl rfl rfl rfl, held_map (fun h e => ?_) _ _, rfl, rfl, .inl rfl⟩
  split_ifs
  · exact held_one h (hptr e) (hf e).1 (hf e).2
  · exact .refl h _

theorem projectedAllocateKernel_spec (hm : WellFormed m) {persistence : Bool} {r : Option (ℕ × ℕ)}
    (hpos : 0 < roundPage size)
    (h : projectedAllocateKernel m size object persistence = some (r, m')) :
    WellFormed m' ∧ ∃ m₁, vmMapFindEntry m (roundPage size) 0 .null = some (r, m₁) ∧
    Carries m₁ m' := by
  unfold projectedAllocateKernel at h
  obtain ⟨⟨found, m₁⟩, hfind, h⟩ := Option.bind_eq_some_iff.1 h
  have hm₁ := findEntry_wellFormed hm hpos (roundPage_lt size) hfind
  cases found with
  | none =>
    obtain ⟨rfl, rfl⟩ := Prod.mk.inj (Option.some.inj h)
    exact ⟨hm₁, m₁, hfind, .refl m₁⟩
  | some found =>
    cases h
    refine (updateEntry_spec ?_ ?_ found.2 hm₁).imp_right fun hc => ⟨m₁, hfind, hc⟩
    · exact fun _ => ⟨rfl, rfl⟩
    · exact fun _ => rfl

theorem projectedMapUser_spec (hm : WellFormed m) {p : Projection} {r : Option (ℕ × ℕ)}
    (hpos : 0 < roundPage size) (h : projectedMapUser m size p = some (r, m')) :
    WellFormed m' ∧ ∃ m₁, vmMapFindEntry m (roundPage size) 0 .null = some (r, m₁) ∧
    Carries m₁ m' := by
  unfold projectedMapUser at h
  obtain ⟨⟨found, m₁⟩, hfind, h⟩ := Option.bind_eq_some_iff.1 h
  have hm₁ := findEntry_wellFormed hm hpos (roundPage_lt size) hfind
  cases found with
  | none =>
    obtain ⟨rfl, rfl⟩ := Prod.mk.inj (Option.some.inj h)
    exact ⟨hm₁, m₁, hfind, .refl m₁⟩
  | some found =>
    cases h
    refine (updateEntry_spec ?_ ?_ found.2 hm₁).imp_right fun hc => ⟨m₁, hfind, hc⟩
    · exact fun _ => ⟨rfl, rfl⟩
    · exact fun _ => rfl

theorem leaveFirstFree_spec (hm : WellFormed m) (hc : CachesLinked m)
    (hl : before ++ after = m.entries) :
    WellFormed (m.leaveFirstFree before p) ∧ CachesLinked (m.leaveFirstFree before p) := by
  refine ⟨⟨hm.ordered, hm.bounds, hm.nentries, hm.size, hm.max_lt⟩, hc.1, ?_⟩
  change Linked m.entries (if m.firstFree = some p then lastPtr before else m.firstFree)
  split_ifs
  · rw [← hl]
    exact (linked_lastPtr before).append_left
  · exact hc.2

/-- A call that the condition allows is refused. -/
theorem projectedDeallocateUser_refused (hm : WellFormed m) (hc : CachesLinked m)
    (hok : Careful m (.deallocateUser start end_)) :
    ∃ m', projectedDeallocateUser m start end_ = some (.invalidArgument, m') ∧ OnlyHint m m' := by
  obtain ⟨r, m', hlook⟩ := lookup_total hc.1 start
  obtain ⟨hloc, hhint⟩ := lookup_spec hm.ordered.loose hlook
  refine ⟨m', ?_, hhint⟩
  unfold projectedDeallocateUser
  rw [hlook, Option.bind_eq_bind, Option.bind_some]
  simp only
  split
  · rename_i e rest hf hafter
    obtain ⟨e', rest', hafter', hcov⟩ := hloc.found hf
    obtain ⟨rfl, -⟩ := List.cons.inj (hafter.symm.trans hafter')
    exact if_pos (hok e (by rw [← hloc.split, hafter]; simp) hcov)
  · rfl

theorem cut_before {c : List VmMapEntry × List VmMapEntry} (h : cut p l = some c) :
    ∀ e ∈ c.1, e.ptr ≠ p := by
  induction l generalizing c with
  | nil => cases h
  | cons e l ih =>
    rw [cut] at h
    split_ifs at h with hp
    · cases h
      simp
    · obtain ⟨d, hd, rfl⟩ := Option.map_eq_some_iff.1 h
      exact List.forall_mem_cons.2 ⟨hp, ih hd⟩

theorem lastPtr_ne {q : ℕ} (h : ∀ e ∈ before, e.ptr ≠ q) : lastPtr before ≠ some q := by
  intro heq
  obtain ⟨e, he, hp⟩ := Option.map_eq_some_iff.1 heq
  exact h e (List.mem_of_getLast? he) hp

theorem projectedDeallocateKernel_linked (hm : WellFormed m) (hc : CachesLinked m) {k : ℕ}
    {sole : Bool}
    (hok : Careful m (.deallocateKernel k))
    (h : projectedDeallocateKernel m k sole resident = some m') :
    WellFormed m' ∧ CachesLinked m' := by
  unfold projectedDeallocateKernel at h
  obtain ⟨c, hcut, h⟩ := Option.bind_eq_some_iff.1 h
  obtain ⟨hl, e, rest, hrest, -⟩ := cut_spec hcut
  simp only [hrest] at h
  split_ifs at h
  · obtain ⟨hm₁, hc₁⟩ := leaveFirstFree_spec (p := k) hm hc hl
    refine entryDelete_linked hm₁ hc₁ ⟨hok.2, ?_⟩ h
    change (if m.firstFree = some k then lastPtr c.1 else m.firstFree) ≠ some k
    split_ifs with hfree
    · exact lastPtr_ne (cut_before hcut)
    · exact hfree
  · cases h
    exact ⟨hm, hc⟩

end ProjectedBuffers

section Run

theorem Step.linked (h : Step ok m m') (hok : ∀ m c, ok m c → Careful m c) (hm : WellFormed m)
    (hc : CachesLinked m) : WellFormed m' ∧ CachesLinked m' := by
  cases h with
  | call h => exact ⟨h.wellFormed hok hm, h.cachesLinked hok hm hc⟩
  | deleteResume hr h =>
    exact ⟨deleteResume_wellFormed hm h, deleteResume_cachesLinked hm hc (hok _ _ hr) h⟩
  | stray hs => exact absurd hc hs

theorem Reachable.linked (h : Reachable ok m) (hok : ∀ m c, ok m c → Careful m c) :
    WellFormed m ∧ CachesLinked m := by
  induction h with
  | create min max hmax => exact ⟨create_wellFormed hmax, trivial, trivial⟩
  | step _ hstep ih => exact hstep.linked hok ih.1 ih.2

theorem Stretch.linked (h : Stretch ok m m') (hok : ∀ m c, ok m c → Careful m c) (hm : WellFormed m)
    (hc : CachesLinked m) : WellFormed m' ∧ CachesLinked m' := by
  cases h with
  | step h => exact h.linked hok hm hc
  | pageable hlt h =>
    exact ⟨(pageable_spec hm (fun haccess e _ _ _ => hlt haccess) h).1,
      (pageable_carries hm h).cachesLinked hc⟩
  | projectedAllocateKernel hpos _ h =>
    obtain ⟨hm', m₁, hfind, hcarries⟩ := projectedAllocateKernel_spec hm hpos h
    exact ⟨hm', hcarries.cachesLinked (findEntry_cachesLinked hm hc (roundPage_lt _) hfind)⟩
  | projectedAllocateFailed hr h => exact entryDelete_linked hm hc (hok _ _ hr).2 h
  | lookup h =>
    have hhint := (lookup_spec hm.ordered.loose h).2
    exact ⟨hhint.wellFormed hm, hhint.carries.cachesLinked hc⟩
  | projectedMapUser hpos _ h =>
    obtain ⟨hm', m₁, hfind, hcarries⟩ := projectedMapUser_spec hm hpos h
    exact ⟨hm', hcarries.cachesLinked (findEntry_cachesLinked hm hc (roundPage_lt _) hfind)⟩
  | projectedDeallocateUser hr h =>
    obtain ⟨m₁, hrefused, hhint⟩ := projectedDeallocateUser_refused hm hc (hok _ _ hr)
    rw [hrefused] at h
    cases h
    exact ⟨hhint.wellFormed hm, hhint.carries.cachesLinked hc⟩
  | projectedDeallocatePart hr h =>
    obtain ⟨m₁, hrefused, -⟩ := projectedDeallocateUser_refused hm hc (hok _ _ hr)
    rw [hrefused] at h
    cases h
  | projectedDeallocateKernel hr h => exact projectedDeallocateKernel_linked hm hc (hok _ _ hr) h
  | freed hr hgone => exact absurd (hr.elim (fun h => (hok _ _ h).1) fun h => (hok _ _ h).1) hgone

/-- Both cached pointers of a map lead to its header or to a linked entry, after any run of the
routines whose calls are careful. -/
theorem caches_linked {min max : ℕ} (hmax : max < 2 ^ 32)
    (h : Relation.ReflTransGen (Stretch Careful) (vmMapCreate min max) m) : CachesLinked m := by
  suffices hboth : WellFormed m ∧ CachesLinked m from hboth.2
  induction h with
  | refl => exact ⟨create_wellFormed hmax, trivial, trivial⟩
  | tail _ hstep ih => exact hstep.linked (fun _ _ h => h) ih.1 ih.2

/-- A delete that goes on behind a wait finds nothing at its start, and unlinks the entry of
`gapMap`. -/
theorem caches_linked_resumed : ∃ m, vmMapDeleteResume gapMap 8192 32768 (fun _ => false) =
    some (false, m) ∧ m.entries = [] ∧ CachesLinked m := by
  obtain ⟨⟨w, m⟩, hm, heq⟩ := Option.map_eq_some_iff.1 (show
    ((vmMapDeleteResume gapMap 8192 32768 fun _ => false).map fun r => (r.1, r.2.entries)) =
      some (false, []) by decide)
  obtain ⟨rfl, hentries⟩ := Prod.mk.inj heq
  have hok : Careful gapMap (.resume 8192 32768 fun _ => false) := by
    refine fun p _ => ⟨(Option.some_ne_none p).symm, fun e he hcov => ?_⟩
    rw [List.mem_singleton.1 he] at hcov
    exact absurd hcov.1 (by decide)
  exact ⟨m, hm, hentries, caches_linked (by decide)
    (.tail (.single (.step (.call (.enter (by decide) (by decide) enter_gapMap))))
    (.step (.deleteResume hok hm)))⟩

/-- One page of a projected buffer. -/
def bufferPage : Projection where
  object := .vmObject 0
  offset := 0
  kernelEntry := 0
  protection := vmProtDefault
  inheritance := .none
  wiredCount := 1

/-- A task's map with that page. -/
def bufferMap : VmMap :=
  { vmMapCreate 0 65536 with
    entries := [{ wiredEntry 0 0 4096 with
      object := .vmObject 0
      projectedOn := .kernelEntry 0
      maxProtection := vmProtDefault
      inheritance := .none }]
    hdr := ⟨1, 1⟩
    size := 4096
    hint := some 0
    firstFree := some 0 }

/-- `projected_buffer_deallocate` saves the entry as the hint when it looks the entry up, and
unlinks it. -/
theorem deallocated_buffer_is_hint : ∃ m, Relation.ReflTransGen (Stretch fun m c => Careful m c ∨
      ∃ start end_, c = .deallocateUser start end_) (vmMapCreate 0 65536) m ∧ ¬ CachesLinked m := by
  have hmap : projectedMapUser (vmMapCreate 0 65536) 4096 bufferPage =
    some (some (0, 0), bufferMap) := by decide
  have hdealloc : projectedDeallocateUser bufferMap 0 4096 =
      some (.success, { vmMapCreate 0 65536 with hdr := ⟨0, 1⟩, hint := some 0 }) := by decide
  refine ⟨_, .tail (.single (.projectedMapUser (by decide) (.inl trivial) hmap))
    (.projectedDeallocateUser (.inr ⟨_, _, rfl⟩) hdealloc), fun hc => ?_⟩
  obtain ⟨e, he, -⟩ := hc.1
  cases he

end Run

end XMach.Vm
