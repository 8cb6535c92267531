import XMach.Ipc.Splay

/-!
# The unassembled splay tree is a sorted finite map

The entries in symmetric order never change under splaying (`primLookup_entries`), so the three
trees a lookup leaves behind are the same sorted list cut in three. What every operation assumes and
restores is `Focused`: the list is sorted, the left tree is below the name of the last lookup, the
right tree above it, and the root of the middle tree is either that name or has no child on the side
where the name would be. With it, the entry at the root is the one to return, to delete or to split
at, and the two bounds are read off the root and the two links.
-/

namespace XMach.Ipc

variable {α : Type*}
  {name k : MachPort} {t : IpcSplayTree α} {l : List (MachPort × α)} {e : α} {s : Split α}
  {r : Tree α}

/-- The names strictly increase. -/
def SortedEntries (l : List (MachPort × α)) : Prop := l.Pairwise (fun a b => a.1 < b.1)

/-- The binding of `name` in a list of entries. -/
def lookupEntries (l : List (MachPort × α)) (name : MachPort) : Option α :=
  (l.find? (fun p => p.1 == name)).map Prod.snd

section Lists

theorem sorted_append {l' : List (MachPort × α)} : SortedEntries (l ++ l') ↔
      SortedEntries l ∧ SortedEntries l' ∧ ∀ a ∈ l, ∀ b ∈ l', a.1 < b.1 :=
  List.pairwise_append

theorem sorted_cons {p : MachPort × α} : SortedEntries (p :: l) ↔ (∀ b ∈ l, p.1 < b.1) ∧
    SortedEntries l :=
  List.pairwise_cons

theorem lookupEntries_append (l l' : List (MachPort × α)) (name : MachPort) :
    lookupEntries (l ++ l') name = (lookupEntries l name).or (lookupEntries l' name) := by
  unfold lookupEntries
  rw [List.find?_append]
  cases l.find? (fun p => p.1 == name) <;> rfl

theorem lookupEntries_cons (p : MachPort × α) (l : List (MachPort × α)) (name : MachPort) :
    lookupEntries (p :: l) name = if p.1 = name then some p.2 else lookupEntries l name := by
  unfold lookupEntries
  by_cases h : p.1 = name <;> simp [h]

@[simp] theorem lookupEntries_nil (name : MachPort) :
    lookupEntries ([] : List (MachPort × α)) name = none := rfl

theorem lookupEntries_eq_none : lookupEntries l name = none ↔ ∀ p ∈ l, p.1 ≠ name := by
  simp [lookupEntries]

theorem mem_of_lookupEntries (h : lookupEntries l name = some e) : (name, e) ∈ l := by
  unfold lookupEntries at h
  obtain ⟨p, hp, rfl⟩ := Option.map_eq_some_iff.1 h
  have hmem := List.mem_of_find?_eq_some hp
  have hname : p.1 = name := by simpa using List.find?_some hp
  rw [← hname]
  exact hmem

theorem lookupEntries_of_lt (h : ∀ p ∈ l, p.1 < name) : lookupEntries l name = none :=
  lookupEntries_eq_none.2 fun p hp => (h p hp).ne

theorem lookupEntries_of_gt (h : ∀ p ∈ l, name < p.1) : lookupEntries l name = none :=
  lookupEntries_eq_none.2 fun p hp => (h p hp).ne'

end Lists

section Trees

@[simp] theorem plugLeft_entries : ∀ (L : List (LeftLink α)) (t : Tree α),
    (plugLeft L t).entries = leftEntries L ++ t.entries
  | [], t => rfl
  | f :: L, t => by
    rw [plugLeft, plugLeft_entries L]
    simp [leftEntries, Tree.entries]

@[simp] theorem plugRight_entries : ∀ (R : List (RightLink α)) (t : Tree α),
    (plugRight R t).entries = t.entries ++ rightEntries R
  | [], t => by simp [plugRight, rightEntries]
  | f :: R, t => by
    rw [plugRight, plugRight_entries R]
    simp [rightEntries, Tree.entries]

theorem entries_of_isNull {t : Tree α} (h : t.isNull = true) : t.entries = [] := by
  cases t with
  | null => rfl
  | node l k e r => simp [Tree.isNull] at h

@[simp] theorem assemble_entries (s : Split α) :
    (ipcSplayPrimAssemble s).entries =
      if s.tree.isNull then []
      else leftEntries s.ltree ++ (s.tree.entries ++ rightEntries s.rtree) := by
  rcases s with ⟨t, L, R⟩
  cases t <;> simp [ipcSplayPrimAssemble, Tree.entries, Tree.isNull]

theorem assemble_isNull (s : Split α) : (ipcSplayPrimAssemble s).isNull = s.tree.isNull := by
  rcases s with ⟨t, L, R⟩
  cases t <;> rfl

/-- The name is at the root of the tree, or the root has no child on the side of the name. -/
def AtTop (name : MachPort) : Tree α → Prop
  | .null => False
  | .node l k _ r => name = k ∨ (name < k ∧ l = .null) ∨ (k < name ∧ r = .null)

/-- The entries of the three trees, left to right. -/
def Split.entries (s : Split α) : List (MachPort × α) :=
  leftEntries s.ltree ++ (s.tree.entries ++ rightEntries s.rtree)

/-- A pass of the splay moves entries between the three trees and never reorders them. -/
theorem primLookup_entries (name : MachPort) :
    ∀ (t : Tree α) (L : List (LeftLink α)) (R : List (RightLink α)),
      (ipcSplayPrimLookup name t L R).entries = (⟨t, L, R⟩ : Split α).entries := by
  intro t L R
  fun_induction ipcSplayPrimLookup name t L R <;>
    simp_all [Split.entries, leftEntries, rightEntries, Tree.entries]

/-- A splay stops at the name, or where the name's side has no child. -/
theorem primLookup_atTop (name : MachPort) :
    ∀ (t : Tree α) (L : List (LeftLink α)) (R : List (RightLink α)), t.isNull = false →
      AtTop name (ipcSplayPrimLookup name t L R).tree := by
  intro t L R
  fun_induction ipcSplayPrimLookup name t L R with
  | case1 L R => simp [Tree.isNull]
  | case2 => simp_all [AtTop]
  | case3 => simp_all [AtTop]
  | case4 k e r L R hne hlt ll lk le lr h ih => exact fun _ => ih h.2
  | case5 k e r L R hne hlt ll lk le lr h h' ih => exact fun _ => ih h'.2
  | case6 k e r L R hne hlt ll lk le lr h h' ih => exact fun _ => ih rfl
  | case7 l k e L R hne hlt =>
    exact fun _ => .inr (.inr ⟨lt_of_le_of_ne (not_lt.1 hlt) (Ne.symm hne), rfl⟩)
  | case8 l k e L R hne hlt rl rk re rr h ih => exact fun _ => ih h.2
  | case9 l k e L R hne hlt rl rk re rr h h' ih => exact fun _ => ih h'.2
  | case10 l k e L R hne hlt rl rk re rr h h' ih => exact fun _ => ih rfl

/-- Splaying keeps the left tree below the name and the right tree above it. -/
theorem primLookup_sides (name : MachPort) :
    ∀ (t : Tree α) (L : List (LeftLink α)) (R : List (RightLink α)),
      SortedEntries t.entries →
      (∀ p ∈ leftEntries L, p.1 < name) → (∀ p ∈ rightEntries R, name < p.1) →
      (∀ p ∈ leftEntries (ipcSplayPrimLookup name t L R).ltree, p.1 < name) ∧
        ∀ p ∈ rightEntries (ipcSplayPrimLookup name t L R).rtree, name < p.1 := by
  intro t L R
  fun_induction ipcSplayPrimLookup name t L R with
  | case1 L R => exact fun _ hL hR => ⟨hL, hR⟩
  | case2 => exact fun _ hL hR => ⟨hL, hR⟩
  | case3 => exact fun _ hL hR => ⟨hL, hR⟩
  | case4 k e r L R hne hlt ll lk le lr h ih =>
    intro hs hL hR
    simp only [Tree.entries, List.append_assoc, List.cons_append, sorted_append, sorted_cons,
      List.mem_append, List.mem_cons] at hs
    refine ih hs.1 hL fun p hp => ?_
    simp only [rightEntries, Tree.entries, List.cons_append, List.mem_cons, List.mem_append] at hp
    rcases hp with rfl | (hp | rfl | hp) | hp
    · exact h.1
    · exact h.1.trans (hs.2.1.1 p (.inl hp))
    · exact hlt
    · exact hlt.trans (hs.2.1.2.2.1.1 p hp)
    · exact hR p hp
  | case5 k e r L R hne hlt ll lk le lr h h' ih =>
    intro hs hL hR
    simp only [Tree.entries, List.append_assoc, List.cons_append, sorted_append, sorted_cons,
      List.mem_append, List.mem_cons] at hs
    refine ih hs.2.1.2.1 (fun p hp => ?_) fun p hp => ?_
    · simp only [leftEntries, List.mem_append, List.mem_singleton] at hp
      rcases hp with hp | hp | rfl
      · exact hL p hp
      · exact (hs.2.2 p hp _ (.inl rfl)).trans h'.1
      · exact h'.1
    · simp only [rightEntries, List.cons_append, List.mem_cons, List.mem_append] at hp
      rcases hp with rfl | hp | hp
      · exact hlt
      · exact hlt.trans (hs.2.1.2.2.1.1 p hp)
      · exact hR p hp
  | case6 k e r L R hne hlt ll lk le lr h h' ih =>
    intro hs hL hR
    rw [Tree.entries, sorted_append, sorted_cons] at hs
    refine ih hs.1 hL fun p hp => ?_
    simp only [rightEntries, List.cons_append, List.mem_cons, List.mem_append] at hp
    rcases hp with rfl | hp | hp
    · exact hlt
    · exact hlt.trans (hs.2.1.1 p hp)
    · exact hR p hp
  | case7 => exact fun _ hL hR => ⟨hL, hR⟩
  | case8 l k e L R hne hlt rl rk re rr h ih =>
    intro hs hL hR
    have hk : k < name := lt_of_le_of_ne (not_lt.1 hlt) (Ne.symm hne)
    simp only [Tree.entries, sorted_append, sorted_cons, List.mem_append, List.mem_cons] at hs
    refine ih hs.2.1.2.2.1.2 (fun p hp => ?_) hR
    simp only [leftEntries, Tree.entries, List.append_assoc, List.cons_append, List.mem_append,
      List.mem_cons, List.not_mem_nil, or_false] at hp
    rcases hp with hp | hp | rfl | hp | rfl
    · exact hL p hp
    · exact (hs.2.2 p hp _ (.inl rfl)).trans hk
    · exact hk
    · exact (hs.2.1.2.2.2 p hp _ (.inl rfl)).trans h.1
    · exact h.1
  | case9 l k e L R hne hlt rl rk re rr h h' ih =>
    intro hs hL hR
    have hk : k < name := lt_of_le_of_ne (not_lt.1 hlt) (Ne.symm hne)
    simp only [Tree.entries, sorted_append, sorted_cons, List.mem_append, List.mem_cons] at hs
    refine ih hs.2.1.2.1 (fun p hp => ?_) fun p hp => ?_
    · simp only [leftEntries, List.mem_append, List.mem_singleton] at hp
      rcases hp with hp | hp | rfl
      · exact hL p hp
      · exact (hs.2.2 p hp _ (.inl rfl)).trans hk
      · exact hk
    · simp only [rightEntries, List.cons_append, List.mem_cons, List.mem_append] at hp
      rcases hp with rfl | hp | hp
      · exact h'.1
      · exact h'.1.trans (hs.2.1.2.2.1.1 p hp)
      · exact hR p hp
  | case10 l k e L R hne hlt rl rk re rr h h' ih =>
    intro hs hL hR
    have hk : k < name := lt_of_le_of_ne (not_lt.1 hlt) (Ne.symm hne)
    rw [Tree.entries, sorted_append, sorted_cons] at hs
    refine ih hs.2.1.2 (fun p hp => ?_) hR
    simp only [leftEntries, List.mem_append, List.mem_singleton] at hp
    rcases hp with hp | hp | rfl
    · exact hL p hp
    · exact (hs.2.2 p hp _ List.mem_cons_self).trans hk
    · exact hk

end Trees

section Focus

/-- The three trees as a lookup of `name` leaves them. -/
structure Focused (name : MachPort) (s : Split α) : Prop where
  sorted : SortedEntries s.entries
  left : ∀ p ∈ leftEntries s.ltree, p.1 < name
  right : ∀ p ∈ rightEntries s.rtree, name < p.1
  top : AtTop name s.tree

/-- What every operation assumes of a tree and restores. -/
def IpcSplayTree.Wf (t : IpcSplayTree α) : Prop :=
  t.istRoot.isNull = false → Focused t.istName t.split

theorem entries_of_root (h : t.istRoot.isNull = false) : t.entries = t.split.entries := by
  unfold IpcSplayTree.entries
  rcases hr : t.istRoot with _ | ⟨l, k, e, r⟩
  · simp [hr, Tree.isNull] at h
  · simp [Split.entries, IpcSplayTree.split, hr]

theorem entries_of_null (h : t.istRoot.isNull = true) : t.entries = [] := by
  unfold IpcSplayTree.entries
  rcases hr : t.istRoot with _ | ⟨l, k, e, r⟩
  · rfl
  · simp [hr, Tree.isNull] at h

theorem Focused.isNull (h : Focused name s) : s.tree.isNull = false := by
  have ht := h.top
  rcases hs : s.tree with _ | ⟨l, k, e, r⟩
  · simp [hs, AtTop] at ht
  · rfl

theorem sorted_entries (h : t.Wf) : SortedEntries t.entries := by
  rcases hn : t.istRoot.isNull with _ | _
  · rw [entries_of_root hn]
    exact (h hn).sorted
  · rw [entries_of_null hn]
    exact List.Pairwise.nil

/-- Whether or not the last lookup was of the same name, what follows the guard is the tree splayed
at the name. -/
theorem seek_focused (h : t.Wf) (hn : t.istRoot.isNull = false) (name : MachPort) :
    Focused name (ipcSplaySeek t name) ∧ (ipcSplaySeek t name).entries = t.entries := by
  rw [entries_of_root hn]
  have hf := h hn
  unfold ipcSplaySeek
  split_ifs with hne
  · have hent : (ipcSplayPrimAssemble t.split).entries = t.split.entries := by
      rw [assemble_entries]
      simp [IpcSplayTree.split, hn, Split.entries]
    have hsplit := primLookup_entries name (ipcSplayPrimAssemble t.split) [] []
    have hent' : (⟨ipcSplayPrimAssemble t.split, [], []⟩ : Split α).entries = t.split.entries := by
      rw [← hent]
      simp [Split.entries, leftEntries, rightEntries]
    rw [hent'] at hsplit
    have hsides := primLookup_sides name (ipcSplayPrimAssemble t.split) [] []
      (by rw [hent]; exact hf.sorted) (by simp [leftEntries]) (by simp [rightEntries])
    refine ⟨⟨by rw [hsplit]; exact hf.sorted, hsides.1, hsides.2, ?_⟩, hsplit⟩
    exact primLookup_atTop name _ _ _ (by rw [assemble_isNull]; exact hn)
  · have hname : t.istName = name := not_not.1 hne
    rw [← hname]
    exact ⟨hf, rfl⟩

/-- The parts of a splayed tree around its root: what is smaller than the root, and what is
larger. -/
theorem Focused.around (h : Focused name s) {l : Tree α} (hs : s.tree = .node l k e r) :
    SortedEntries (leftEntries s.ltree ++ l.entries) ∧
      SortedEntries (r.entries ++ rightEntries s.rtree) ∧
      (∀ p ∈ leftEntries s.ltree ++ l.entries, p.1 < k) ∧
      ∀ p ∈ r.entries ++ rightEntries s.rtree, k < p.1 := by
  have hsort := h.sorted
  rw [Split.entries, hs, Tree.entries] at hsort
  have hassoc : leftEntries s.ltree ++ (l.entries ++ (k, e) :: r.entries ++ rightEntries s.rtree)
      = (leftEntries s.ltree ++ l.entries) ++ (k, e) :: (r.entries ++ rightEntries s.rtree) := by
    simp
  rw [hassoc, sorted_append, sorted_cons] at hsort
  exact ⟨hsort.1, hsort.2.1.2, fun p hp => hsort.2.2 p hp _ List.mem_cons_self, hsort.2.1.1⟩

theorem Split.entries_of_tree {l : Tree α} (hs : s.tree = .node l k e r) :
    s.entries = (leftEntries s.ltree ++ l.entries) ++ (k, e) :: (r.entries ++ rightEntries s.rtree)
    := by
  simp [Split.entries, hs, Tree.entries]

theorem Focused.left_of_lt (h : Focused name s) {l : Tree α} (hs : s.tree = .node l k e r)
    (hk : name < k) : l = .null := by
  have ht := h.top
  rw [hs] at ht
  rcases ht with rfl | ⟨-, rfl⟩ | ⟨hlt, -⟩
  · exact absurd hk (lt_irrefl _)
  · rfl
  · exact absurd hk (lt_asymm hlt)

theorem Focused.right_of_lt (h : Focused name s) {l : Tree α} (hs : s.tree = .node l k e r)
    (hk : k < name) : r = .null := by
  have ht := h.top
  rw [hs] at ht
  rcases ht with rfl | ⟨hlt, -⟩ | ⟨-, rfl⟩
  · exact absurd hk (lt_irrefl _)
  · exact absurd hk (lt_asymm hlt)
  · rfl

/-- The name is bound exactly when it is at the root. -/
theorem Focused.lookup (h : Focused name s) {l : Tree α} (hs : s.tree = .node l k e r) :
    lookupEntries s.entries name = if name = k then some e else none := by
  have ⟨_, _, hlt, hgt⟩ := h.around hs
  rw [Split.entries_of_tree hs, lookupEntries_append, lookupEntries_cons]
  rcases lt_trichotomy name k with hk | rfl | hk
  · obtain rfl := h.left_of_lt hs hk
    have h1 : lookupEntries (leftEntries s.ltree ++ (Tree.null : Tree α).entries) name = none :=
      lookupEntries_of_lt (by simpa [Tree.entries] using h.left)
    have h2 : lookupEntries (r.entries ++ rightEntries s.rtree) name = none :=
      lookupEntries_of_gt fun p hp => hk.trans (hgt p hp)
    rw [h1, h2]
    simp [hk.ne, hk.ne']
  · have h1 : lookupEntries (leftEntries s.ltree ++ l.entries) name = none :=
      lookupEntries_of_lt hlt
    simp [h1]
  · have h1 : lookupEntries (leftEntries s.ltree ++ l.entries) name = none :=
      lookupEntries_of_lt fun p hp => (hlt p hp).trans hk
    obtain rfl := h.right_of_lt hs hk
    have h2 : lookupEntries ((Tree.null : Tree α).entries ++ rightEntries s.rtree) name = none :=
      lookupEntries_of_gt (by simpa [Tree.entries] using h.right)
    rw [h1, h2]
    simp [hk.ne, hk.ne']

theorem ofRoot_spec (t : IpcSplayTree α) (root : Tree α) (h : SortedEntries root.entries) :
    (t.ofRoot root).Wf ∧ (t.ofRoot root).entries = root.entries := by
  rcases root with _ | ⟨l, k, e, r⟩
  · exact ⟨fun hn => by simp [IpcSplayTree.ofRoot, Tree.isNull] at hn,
      entries_of_null (by simp [IpcSplayTree.ofRoot, Tree.isNull])⟩
  · have hent : (t.ofRoot (.node l k e r)).entries = (Tree.node l k e r).entries := by
      rw [entries_of_root rfl]
      simp [IpcSplayTree.ofRoot, IpcSplayTree.split, Split.entries, leftEntries, rightEntries]
    refine ⟨fun _ => ⟨?_, by simp [IpcSplayTree.ofRoot, IpcSplayTree.split, leftEntries],
      by simp [IpcSplayTree.ofRoot, IpcSplayTree.split, rightEntries], .inl rfl⟩, hent⟩
    rw [← entries_of_root rfl, hent]
    exact h

theorem seek_cases (h : t.Wf) (hn : t.istRoot.isNull = false) (name : MachPort) :
    ∃ l k e r, (ipcSplaySeek t name).tree = .node l k e r ∧ Focused name (ipcSplaySeek t name) ∧
      t.entries = (leftEntries (ipcSplaySeek t name).ltree ++ l.entries) ++
        (k, e) :: (r.entries ++ rightEntries (ipcSplaySeek t name).rtree) := by
  obtain ⟨hf, hent⟩ := seek_focused h hn name
  rcases hs : (ipcSplaySeek t name).tree with _ | ⟨l, k, e, r⟩
  · have := hf.isNull
    simp [hs, Tree.isNull] at this
  · exact ⟨l, k, e, r, rfl, hf, by rw [← hent, Split.entries_of_tree hs]⟩

end Focus

section Operations

theorem IpcSplayTree.root_cases (t : IpcSplayTree α) : (t.istRoot = .null ∧ t.entries = []) ∨
    ∃ l k e r, t.istRoot = .node l k e r ∧ t.istRoot.isNull = false := by
  rcases hr : t.istRoot with _ | ⟨l, k, e, r⟩
  · exact .inl ⟨rfl, entries_of_null (by rw [hr]; rfl)⟩
  · exact .inr ⟨l, k, e, r, rfl, rfl⟩

theorem splayTreeLookup_spec (h : t.Wf) (name : MachPort) :
    (ipcSplayTreeLookup t name).1 = t.find name ∧ (ipcSplayTreeLookup t name).2.Wf ∧
      (ipcSplayTreeLookup t name).2.entries = t.entries := by
  have hfind : t.find name = lookupEntries t.entries name := rfl
  rcases t.root_cases with ⟨hr, hent⟩ | ⟨tl, tk, te, tr, hr, hn⟩
  · simp [ipcSplayTreeLookup, hr, hfind, hent, h]
  · obtain ⟨l, k, e, r, hs, hf, hent⟩ := seek_cases h hn name
    have hlook := hf.lookup hs
    rw [Split.entries_of_tree hs, ← hent] at hlook
    simp only [ipcSplayTreeLookup, hr, hs, hfind, hlook, true_and]
    refine ⟨fun _ => ?_, ?_⟩
    · have hsplit : (⟨name, Tree.node l k e r, (ipcSplaySeek t name).ltree,
          (ipcSplaySeek t name).rtree⟩ : IpcSplayTree α).split = ipcSplaySeek t name := by
        rw [← hs]; rfl
      rw [hsplit]
      exact hf
    · rw [hent]
      simp [IpcSplayTree.entries, Tree.entries]

theorem splayTreeInsert_spec (h : t.Wf) (e' : α) (hnone : t.find name = none) :
    (ipcSplayTreeInsert t name e').Wf ∧ ∃ l r, t.entries = l ++ r ∧
      (ipcSplayTreeInsert t name e').entries = l ++ (name, e') :: r ∧
      (∀ p ∈ l, p.1 < name) ∧ ∀ p ∈ r, name < p.1 := by
  have hfind : t.find name = lookupEntries t.entries name := rfl
  have hwhole : ∀ L R : Tree α, SortedEntries (L.entries ++ (name, e') :: R.entries) →
      (⟨name, .node L name e' R, [], []⟩ : IpcSplayTree α).Wf ∧
        (⟨name, .node L name e' R, [], []⟩ : IpcSplayTree α).entries
          = L.entries ++ (name, e') :: R.entries := by
    intro L R hLR
    exact ofRoot_spec t (.node L name e' R) hLR
  rcases t.root_cases with ⟨hr, hent⟩ | ⟨tl, tk, te, tr, hr, hn⟩
  · have hw := hwhole .null .null (by simp [Tree.entries, SortedEntries])
    simp only [ipcSplayTreeInsert, hr]
    exact ⟨hw.1, [], [], by simp [hent], by simp [hw.2, Tree.entries], by simp, by simp⟩
  · obtain ⟨l, k, e, r, hs, hf, hent⟩ := seek_cases h hn name
    obtain ⟨hsl, hsr, hlt, hgt⟩ := hf.around hs
    have hlook := hf.lookup hs
    rw [Split.entries_of_tree hs, ← hent, ← hfind, hnone] at hlook
    have hne : name ≠ k := by rintro rfl; simp at hlook
    simp only [ipcSplayTreeInsert, hr, hs]
    rcases lt_or_gt_of_ne hne with hk | hk
    · obtain rfl := hf.left_of_lt hs hk
      have hR : ∀ p ∈ (k, e) :: (r.entries ++ rightEntries (ipcSplaySeek t name).rtree),
          name < p.1 := by
        intro p hp
        rcases List.mem_cons.1 hp with rfl | hp
        · exact hk
        · exact hk.trans (hgt p hp)
      have hw := hwhole (plugLeft (ipcSplaySeek t name).ltree .null)
        (plugRight (ipcSplaySeek t name).rtree (.node .null k e r)) (by
          simp only [plugLeft_entries, plugRight_entries, Tree.entries, List.append_nil,
            List.nil_append, List.cons_append] at hsl ⊢
          rw [sorted_append, sorted_cons, sorted_cons]
          refine ⟨hsl, ⟨hR, hgt, hsr⟩, fun p hp q hq => ?_⟩
          rcases List.mem_cons.1 hq with rfl | hq
          · exact hf.left p hp
          · exact (hf.left p hp).trans (hR q hq))
      rw [if_pos hk]
      refine ⟨hw.1, leftEntries (ipcSplaySeek t name).ltree,
        (k, e) :: (r.entries ++ rightEntries (ipcSplaySeek t name).rtree), ?_, ?_, hf.left, hR⟩
      · simpa [Tree.entries] using hent
      · simpa [Tree.entries] using hw.2
    · obtain rfl := hf.right_of_lt hs hk
      have hL : ∀ p ∈ leftEntries (ipcSplaySeek t name).ltree ++ l.entries ++ [(k, e)],
          p.1 < name := by
        intro p hp
        rcases List.mem_append.1 hp with hp | hp
        · exact (hlt p hp).trans hk
        · rw [List.mem_singleton.1 hp]
          exact hk
      have hw := hwhole (plugLeft (ipcSplaySeek t name).ltree (.node l k e .null))
        (plugRight (ipcSplaySeek t name).rtree .null) (by
          simp only [plugLeft_entries, plugRight_entries, Tree.entries, List.nil_append] at hsr ⊢
          rw [sorted_append, sorted_cons, ← List.append_assoc]
          refine ⟨?_, ⟨hf.right, hsr⟩, fun p hp q hq => ?_⟩
          · rw [sorted_append]
            refine ⟨hsl, List.pairwise_singleton _ _, fun p hp q hq => ?_⟩
            rw [List.mem_singleton.1 hq]
            exact hlt p hp
          · rcases List.mem_cons.1 hq with rfl | hq
            · exact hL p hp
            · exact (hL p hp).trans (hf.right q hq))
      rw [if_neg (lt_asymm hk)]
      refine ⟨hw.1, leftEntries (ipcSplaySeek t name).ltree ++ l.entries ++ [(k, e)],
        rightEntries (ipcSplaySeek t name).rtree, ?_, ?_, hL, hf.right⟩
      · simpa [Tree.entries] using hent
      · simpa [Tree.entries] using hw.2

/-- Splaying at the largest name leaves nothing right of the root, so a tree of larger names can be
hung there. -/
theorem hang_right {root saved : Tree α} (hroot : SortedEntries root.entries)
    (hn : root.isNull = false) (hlt : ∀ p ∈ root.entries, p.1 < MachPort.dead) :
    ((ipcSplayPrimAssemble (ipcSplayPrimLookup MachPort.dead root [] [])).setRchild
      saved).entries = root.entries ++ saved.entries := by
  have hent := primLookup_entries MachPort.dead root [] []
  have hent' : (⟨root, [], []⟩ : Split α).entries = root.entries := by
    simp [Split.entries, leftEntries, rightEntries]
  rw [hent'] at hent
  obtain ⟨-, hright⟩ := primLookup_sides MachPort.dead root [] [] hroot
    (by simp [leftEntries]) (by simp [rightEntries])
  have htop := primLookup_atTop MachPort.dead root [] [] hn
  have hmax : ∀ n : MachPort, ¬ MachPort.dead < n := by
    intro n hlt
    have := Fin.lt_def.1 hlt
    simp only [MachPort.dead] at this
    omega
  generalize ipcSplayPrimLookup MachPort.dead root [] [] = s at hent hright htop ⊢
  have hnil : rightEntries s.rtree = [] := by
    rcases hr : rightEntries s.rtree with _ | ⟨p, _⟩
    · rfl
    · exact absurd (hright p (by simp [hr])) (hmax _)
  rcases hs : s.tree with _ | ⟨l, k, e, r⟩
  · simp [hs, AtTop] at htop
  · rw [Split.entries_of_tree hs, hnil] at hent
    have hr : r.entries = [] := by
      rw [hs] at htop
      rcases htop with rfl | ⟨hlt', -⟩ | ⟨-, rfl⟩
      · exact absurd (hlt (MachPort.dead, e) (by rw [← hent]; simp)) (lt_irrefl _)
      · exact absurd hlt' (hmax _)
      · rfl
    rcases s with ⟨t, L, R⟩
    obtain rfl : t = .node l k e r := hs
    simp [ipcSplayPrimAssemble, Tree.setRchild, Tree.entries, ← hent, hr]

theorem joinSides_entries (root saved : Tree α) (name : MachPort)
    (hroot : SortedEntries root.entries) (hlt : ∀ p ∈ root.entries, p.1 < name) :
    (if root.isNull then saved
      else if saved.isNull then root
      else (ipcSplayPrimAssemble (ipcSplayPrimLookup MachPort.dead root [] [])).setRchild
        saved).entries = root.entries ++ saved.entries := by
  split_ifs with h1 h2
  · simp [entries_of_isNull h1]
  · simp [entries_of_isNull h2]
  · refine hang_right hroot (by simpa using h1) fun p hp => lt_of_lt_of_le (hlt p hp) ?_
    rw [Fin.le_def]
    simp only [MachPort.dead]
    omega

theorem splayTreeDelete_spec (h : t.Wf) {e' : α} (hsome : t.find name = some e') :
    (ipcSplayTreeDelete t name).Wf ∧ ∃ l r, t.entries = l ++ (name, e') :: r ∧
      (ipcSplayTreeDelete t name).entries = l ++ r ∧
      (∀ p ∈ l, p.1 < name) ∧ ∀ p ∈ r, name < p.1 := by
  have hfind : t.find name = lookupEntries t.entries name := rfl
  have hn : t.istRoot.isNull = false := by
    rcases hn : t.istRoot.isNull with _ | _
    · rfl
    · rw [hfind, entries_of_null hn] at hsome
      simp at hsome
  obtain ⟨l, k, e, r, hs, hf, hent⟩ := seek_cases h hn name
  obtain ⟨hsl, hsr, hlt, hgt⟩ := hf.around hs
  have hlook := hf.lookup hs
  rw [Split.entries_of_tree hs, ← hent, ← hfind, hsome] at hlook
  have hk : name = k := by
    by_contra hne
    simp [hne] at hlook
  subst hk
  obtain rfl : e' = e := by simpa using hlook
  have hL : (plugLeft (ipcSplaySeek t name).ltree l).entries
      = leftEntries (ipcSplaySeek t name).ltree ++ l.entries := plugLeft_entries _ _
  have hR : (plugRight (ipcSplaySeek t name).rtree r).entries
      = r.entries ++ rightEntries (ipcSplaySeek t name).rtree := plugRight_entries _ _
  have hjoin := joinSides_entries (plugLeft (ipcSplaySeek t name).ltree l)
    (plugRight (ipcSplaySeek t name).rtree r) name
    (by rw [hL]; exact hsl) (by rw [hL]; exact hlt)
  have hsorted : SortedEntries (leftEntries (ipcSplaySeek t name).ltree ++ l.entries ++
      (r.entries ++ rightEntries (ipcSplaySeek t name).rtree)) :=
    sorted_append.2 ⟨hsl, hsr, fun a ha b hb => (hlt a ha).trans (hgt b hb)⟩
  rw [hL, hR] at hjoin
  have hw := ofRoot_spec t _ (by rw [hjoin]; exact hsorted)
  simp only [ipcSplayTreeDelete, hs]
  exact ⟨hw.1, _, _, hent, by rw [hw.2, hjoin], hlt, hgt⟩

theorem splayTreeInit_spec (t : IpcSplayTree α) :
    (ipcSplayTreeInit t).Wf ∧ (ipcSplayTreeInit t).entries = [] :=
  ⟨fun hn => by simp [ipcSplayTreeInit, Tree.isNull] at hn, rfl⟩

theorem splayTreeSplit_spec (h : t.Wf) (small : IpcSplayTree α) (name : MachPort) :
    (ipcSplayTreeSplit t small name).1.Wf ∧ (ipcSplayTreeSplit t small name).2.Wf ∧
      t.entries = (ipcSplayTreeSplit t small name).2.entries ++
        (ipcSplayTreeSplit t small name).1.entries ∧
      (∀ p ∈ (ipcSplayTreeSplit t small name).2.entries, p.1 < name) ∧
      ∀ p ∈ (ipcSplayTreeSplit t small name).1.entries, name ≤ p.1 := by
  rcases t.root_cases with ⟨hr, hent⟩ | ⟨tl, tk, te, tr, hr, hn⟩
  · simp only [ipcSplayTreeSplit, hr]
    refine ⟨h, (splayTreeInit_spec small).1, ?_, ?_, ?_⟩ <;>
      simp [hent, (splayTreeInit_spec small).2]
  · obtain ⟨l, k, e, r, hs, hf, hent⟩ := seek_cases h hn name
    obtain ⟨hsl, hsr, hlt, hgt⟩ := hf.around hs
    simp only [ipcSplayTreeSplit, hr, hs]
    split_ifs with hk
    · obtain rfl := hf.right_of_lt hs hk
      have hR : (plugRight (ipcSplaySeek t name).rtree (Tree.null : Tree α)).entries
          = rightEntries (ipcSplaySeek t name).rtree := by simp [Tree.entries]
      have hbig := ofRoot_spec t (plugRight (ipcSplaySeek t name).rtree .null)
        (by rw [hR]; simpa [Tree.entries] using hsr)
      have hL : (Tree.node (plugLeft (ipcSplaySeek t name).ltree l) k e .null).entries
          = leftEntries (ipcSplaySeek t name).ltree ++ l.entries ++ [(k, e)] := by
        simp [Tree.entries]
      have hsmall := ofRoot_spec small
        (.node (plugLeft (ipcSplaySeek t name).ltree l) k e .null) (by
          rw [hL, sorted_append]
          refine ⟨hsl, List.pairwise_singleton _ _, fun p hp q hq => ?_⟩
          rw [List.mem_singleton.1 hq]
          exact hlt p hp)
      rw [hR] at hbig
      rw [hL] at hsmall
      refine ⟨hbig.1, hsmall.1, ?_, ?_, ?_⟩
      · change t.entries = (small.ofRoot (.node _ _ _ _)).entries ++ (t.ofRoot _).entries
        rw [hbig.2, hsmall.2, hent]
        simp [Tree.entries]
      · intro p hp
        have hp' : p ∈ leftEntries (ipcSplaySeek t name).ltree ++ l.entries ++ [(k, e)] := by
          rw [← hsmall.2]; exact hp
        rcases List.mem_append.1 hp' with hp | hp
        · exact (hlt p hp).trans hk
        · rw [List.mem_singleton.1 hp]
          exact hk
      · intro p hp
        rw [hbig.2] at hp
        exact (hf.right p hp).le
    · have hL : (plugLeft (ipcSplaySeek t name).ltree l).entries
          = leftEntries (ipcSplaySeek t name).ltree ++ l.entries := plugLeft_entries _ _
      have hsmall := ofRoot_spec small (plugLeft (ipcSplaySeek t name).ltree l)
        (by rw [hL]; exact hsl)
      rw [hL] at hsmall
      have hbig : (⟨name, .node .null k e r, [], (ipcSplaySeek t name).rtree⟩ :
          IpcSplayTree α).entries =
          (k, e) :: (r.entries ++ rightEntries (ipcSplaySeek t name).rtree)
          := by simp [IpcSplayTree.entries, leftEntries, Tree.entries]
      have hkn : name ≤ k := not_lt.1 hk
      refine ⟨fun hnn => ⟨?_, by simp [IpcSplayTree.split, leftEntries], hf.right, ?_⟩,
        hsmall.1, ?_, ?_, ?_⟩
      · rw [← entries_of_root hnn, hbig, sorted_cons]
        exact ⟨hgt, hsr⟩
      · rcases hkn.lt_or_eq with hlt' | heq
        · exact .inr (.inl ⟨hlt', rfl⟩)
        · exact .inl heq
      · rw [hsmall.2, hbig, hent]
      · intro p hp
        rw [hsmall.2] at hp
        rcases hkn.lt_or_eq with hlt' | rfl
        · obtain rfl := hf.left_of_lt hs hlt'
          exact hf.left p (by simpa [Tree.entries] using hp)
        · exact hlt p hp
      · intro p hp
        rw [hbig] at hp
        rcases List.mem_cons.1 hp with rfl | hp
        · exact hkn
        · exact hkn.trans (hgt p hp).le

theorem not_lt_null (n : MachPort) : ¬ n < MachPort.null := by
  intro h
  exact absurd (Fin.lt_def.1 h) (by simp [MachPort.null])

theorem splayTreeJoin_spec {small : IpcSplayTree α} (h : t.Wf) (hsm : small.Wf)
    (hord : ∀ p ∈ small.entries, ∀ q ∈ t.entries, p.1 < q.1) :
    (ipcSplayTreeJoin t small).1.Wf ∧ (ipcSplayTreeJoin t small).2.Wf ∧
      (ipcSplayTreeJoin t small).1.entries = small.entries ++ t.entries ∧
      (ipcSplayTreeJoin t small).2.entries = [] := by
  rcases hsr : small.istRoot with _ | ⟨sl, sk, se, sr⟩
  · have hent : small.entries = [] := entries_of_null (by rw [hsr]; rfl)
    simp only [ipcSplayTreeJoin, hsr]
    exact ⟨h, hsm, by simp [hent], hent⟩
  · have hsn : small.istRoot.isNull = false := by rw [hsr]; rfl
    have hroot : (ipcSplayPrimAssemble small.split).entries = small.entries := by
      rw [assemble_entries, entries_of_root hsn]
      simp [IpcSplayTree.split, hsr, Tree.isNull, Split.entries]
    have hinit := splayTreeInit_spec small
    rcases t.root_cases with ⟨hr, hent⟩ | ⟨tl, tk, te, tr, hr, hn⟩
    · have hw := ofRoot_spec t (ipcSplayPrimAssemble small.split)
        (by rw [hroot]; exact sorted_entries hsm)
      simp only [ipcSplayTreeJoin, hsr, hr]
      exact ⟨hw.1, hinit.1, by rw [hw.2, hroot, hent, List.append_nil], hinit.2⟩
    · obtain ⟨l, k, e, r, hs, hf, hent⟩ := seek_cases h hn MachPort.null
      have hleft : leftEntries (ipcSplaySeek t MachPort.null).ltree = [] := by
        rcases hl : leftEntries (ipcSplaySeek t MachPort.null).ltree with _ | ⟨p, _⟩
        · rfl
        · exact absurd (hf.left p (by simp [hl])) (not_lt_null _)
      obtain ⟨p, hp⟩ : ∃ p, p ∈ small.entries := by
        refine ⟨(sk, se), ?_⟩
        simp [IpcSplayTree.entries, hsr, Tree.entries]
      have hk : MachPort.null < k := by
        refine lt_of_le_of_lt (Fin.zero_le p.1) (hord p hp (k, e) ?_)
        rw [hent]
        simp
      obtain rfl := hf.left_of_lt hs hk
      have htree : ((ipcSplayPrimAssemble (ipcSplaySeek t MachPort.null)).setLchild
          (ipcSplayPrimAssemble small.split)).entries = small.entries ++ t.entries := by
        rw [hent, hleft, ← hroot]
        rcases hsk : ipcSplaySeek t MachPort.null with ⟨tree, L, R⟩
        rw [hsk] at hs
        simp only [] at hs
        subst hs
        simp [ipcSplayPrimAssemble, Tree.setLchild, Tree.entries]
      have hw := ofRoot_spec t ((ipcSplayPrimAssemble
        (ipcSplaySeek t MachPort.null)).setLchild (ipcSplayPrimAssemble small.split)) (by
          rw [htree]
          exact sorted_append.2 ⟨sorted_entries hsm, sorted_entries h, hord⟩)
      simp only [ipcSplayTreeJoin, hsr, hr]
      exact ⟨hw.1, hinit.1, by rw [hw.2, htree], hinit.2⟩

/-- The greatest name that is at most `name`, or `MACH_PORT_LARGEST` when there is none. -/
def IsLower (l : List (MachPort × α)) (name lower : MachPort) : Prop :=
  ((∃ p ∈ l, p.1 = lower) ∧ lower ≤ name ∧ ∀ p ∈ l, p.1 ≤ name → p.1 ≤ lower) ∨
    (lower = MachPort.dead ∧ ∀ p ∈ l, name < p.1)

/-- The least name that is at least `name`, or `MACH_PORT_SMALLEST` when there is none. -/
def IsUpper (l : List (MachPort × α)) (name upper : MachPort) : Prop :=
  ((∃ p ∈ l, p.1 = upper) ∧ name ≤ upper ∧ ∀ p ∈ l, name ≤ p.1 → upper ≤ p.1) ∨
    (upper = MachPort.null ∧ ∀ p ∈ l, p.1 < name)

/-- The first link of the left tree holds its greatest name. -/
theorem leftLink_isLower {f : LeftLink α} {L : List (LeftLink α)}
    (hs : SortedEntries (leftEntries (f :: L)))
    (hlt : ∀ p ∈ leftEntries (f :: L), p.1 < name) {right : List (MachPort × α)}
    (hgt : ∀ p ∈ right, name < p.1) : IsLower (leftEntries (f :: L) ++ right) name f.name := by
  have hmem : (f.name, f.entry) ∈ leftEntries (f :: L) := by simp [leftEntries]
  refine .inl ⟨⟨_, List.mem_append_left _ hmem, rfl⟩, (hlt _ hmem).le, fun p hp hle => ?_⟩
  rcases List.mem_append.1 hp with hp | hp
  · rw [leftEntries, ← List.append_assoc, sorted_append] at hs
    rw [leftEntries, ← List.append_assoc, List.mem_append, List.mem_singleton] at hp
    rcases hp with hp | rfl
    · exact (hs.2.2 p hp _ (List.mem_singleton_self _)).le
    · exact le_rfl
  · exact absurd hle (not_le.2 (hgt p hp))

/-- The first link of the right tree holds its least name. -/
theorem rightLink_isUpper {f : RightLink α} {R : List (RightLink α)}
    (hs : SortedEntries (rightEntries (f :: R))) (hgt : ∀ p ∈ rightEntries (f :: R), name < p.1)
    {left : List (MachPort × α)} (hlt : ∀ p ∈ left, p.1 < name) :
    IsUpper (left ++ rightEntries (f :: R)) name f.name := by
  have hmem : (f.name, f.entry) ∈ rightEntries (f :: R) := by simp [rightEntries]
  refine .inl ⟨⟨_, List.mem_append_right _ hmem, rfl⟩, (hgt _ hmem).le, fun p hp hle => ?_⟩
  rcases List.mem_append.1 hp with hp | hp
  · exact absurd hle (not_le.2 (hlt p hp))
  · rw [rightEntries, List.cons_append, sorted_cons] at hs
    rw [rightEntries, List.cons_append, List.mem_cons] at hp
    rcases hp with rfl | hp
    · exact le_rfl
    · exact (hs.1 p hp).le

theorem Focused.isLower (h : Focused name s) {l : Tree α} (hs : s.tree = .node l k e r) :
    IsLower s.entries name (if k ≤ name then k
      else match s.ltree with
        | [] => MachPort.dead
        | f :: _ => f.name) := by
  obtain ⟨hsl, -, hlt, hgt⟩ := h.around hs
  have hent := Split.entries_of_tree hs
  split_ifs with hk
  · refine .inl ⟨⟨(k, e), by simp [hent], rfl⟩, hk, fun p hp hle => ?_⟩
    rw [hent, List.mem_append, List.mem_cons] at hp
    rcases hp with hp | rfl | hp
    · exact (hlt p hp).le
    · exact le_rfl
    · rcases hk.lt_or_eq with hk' | rfl
      · obtain rfl := h.right_of_lt hs hk'
        exact absurd hle (not_le.2 (h.right p (by simpa [Tree.entries] using hp)))
      · exact absurd hle (not_le.2 (hgt p hp))
  · have hk' : name < k := not_le.1 hk
    obtain rfl := h.left_of_lt hs hk'
    have hright : ∀ p ∈ (k, e) :: (r.entries ++ rightEntries s.rtree), name < p.1 := by
      intro p hp
      rcases List.mem_cons.1 hp with rfl | hp
      · exact hk'
      · exact hk'.trans (hgt p hp)
    have hleft := h.left
    simp only [Tree.entries, List.append_nil] at hent hsl
    rw [hent]
    generalize s.ltree = links at hsl hleft ⊢
    rcases links with _ | ⟨f, L⟩
    · exact .inr ⟨rfl, by simpa [leftEntries] using hright⟩
    · exact leftLink_isLower hsl hleft hright

theorem Focused.isUpper (h : Focused name s) {l : Tree α} (hs : s.tree = .node l k e r) :
    IsUpper s.entries name (if name ≤ k then k
      else match s.rtree with
        | [] => MachPort.null
        | f :: _ => f.name) := by
  obtain ⟨-, hsr, hlt, hgt⟩ := h.around hs
  have hent := Split.entries_of_tree hs
  split_ifs with hk
  · refine .inl ⟨⟨(k, e), by simp [hent], rfl⟩, hk, fun p hp hle => ?_⟩
    rw [hent, List.mem_append, List.mem_cons] at hp
    rcases hp with hp | rfl | hp
    · rcases hk.lt_or_eq with hk' | rfl
      · obtain rfl := h.left_of_lt hs hk'
        exact absurd hle (not_le.2 (h.left p (by simpa [Tree.entries] using hp)))
      · exact absurd hle (not_le.2 (hlt p hp))
    · exact le_rfl
    · exact (hgt p hp).le
  · have hk' : k < name := not_le.1 hk
    obtain rfl := h.right_of_lt hs hk'
    have hleft : ∀ p ∈ leftEntries s.ltree ++ l.entries ++ [(k, e)], p.1 < name := by
      intro p hp
      rcases List.mem_append.1 hp with hp | hp
      · exact (hlt p hp).trans hk'
      · rw [List.mem_singleton.1 hp]
        exact hk'
    have hright := h.right
    simp only [Tree.entries, List.nil_append] at hent hsr
    rw [hent, ← List.singleton_append, ← List.append_assoc]
    generalize s.rtree = links at hsr hright ⊢
    rcases links with _ | ⟨f, R⟩
    · exact .inr ⟨rfl, by simpa [rightEntries] using hleft⟩
    · exact rightLink_isUpper hsr hright hleft

theorem splayTreeBounds_spec (h : t.Wf) (name : MachPort) : (ipcSplayTreeBounds t name).2.Wf ∧
      (ipcSplayTreeBounds t name).2.entries = t.entries ∧
      IsLower t.entries name (ipcSplayTreeBounds t name).1.1 ∧
      IsUpper t.entries name (ipcSplayTreeBounds t name).1.2 := by
  rcases t.root_cases with ⟨hr, hent⟩ | ⟨tl, tk, te, tr, hr, hn⟩
  · simp [ipcSplayTreeBounds, hr, h, hent, IsLower, IsUpper]
  · obtain ⟨l, k, e, r, hs, hf, hent⟩ := seek_cases h hn name
    have hlower := hf.isLower hs
    have hupper := hf.isUpper hs
    rw [(seek_focused h hn name).2] at hlower hupper
    obtain ⟨-, hwf, hentries⟩ := splayTreeLookup_spec h name
    simp only [ipcSplayTreeLookup, hr, hs] at hwf hentries
    simp only [ipcSplayTreeBounds, hr, hs]
    exact ⟨hwf, hentries, hlower, hupper⟩

theorem splayTreePick_spec (t : IpcSplayTree α) :
    (ipcSplayTreePick t = none ↔ t.entries = []) ∧
      ∀ p, ipcSplayTreePick t = some p → p ∈ t.entries := by
  rcases hr : t.istRoot with _ | ⟨l, k, e, r⟩
  · simp [ipcSplayTreePick, IpcSplayTree.entries, hr]
  · simp [ipcSplayTreePick, IpcSplayTree.entries, hr, Tree.entries]

end Operations

section Refinement

/-- The trees that operations make, starting from an initialised one. Insertion is of a name that is
not present, deletion of one that is, and the trees that are joined have ordered ranges; `small` in
a split is any memory, since the split initialises it. Picking changes nothing. -/
inductive Reachable : IpcSplayTree α → Prop
  | init (t : IpcSplayTree α) : Reachable (ipcSplayTreeInit t)
  | lookup {t : IpcSplayTree α} (name : MachPort) :
      Reachable t → Reachable (ipcSplayTreeLookup t name).2
  | insert {t : IpcSplayTree α} (name : MachPort) (e : α) :
      Reachable t → t.find name = none → Reachable (ipcSplayTreeInsert t name e)
  | delete {t : IpcSplayTree α} (name : MachPort) (e : α) :
      Reachable t → t.find name = some e → Reachable (ipcSplayTreeDelete t name)
  | splitLarge {t : IpcSplayTree α} (small : IpcSplayTree α) (name : MachPort) :
      Reachable t → Reachable (ipcSplayTreeSplit t small name).1
  | splitSmall {t : IpcSplayTree α} (small : IpcSplayTree α) (name : MachPort) :
      Reachable t → Reachable (ipcSplayTreeSplit t small name).2
  | join {t small : IpcSplayTree α} : Reachable t → Reachable small →
      (∀ p ∈ small.entries, ∀ q ∈ t.entries, p.1 < q.1) → Reachable (ipcSplayTreeJoin t small).1
  | joinSmall {t small : IpcSplayTree α} : Reachable t → Reachable small →
      (∀ p ∈ small.entries, ∀ q ∈ t.entries, p.1 < q.1) → Reachable (ipcSplayTreeJoin t small).2
  | bounds {t : IpcSplayTree α} (name : MachPort) :
      Reachable t → Reachable (ipcSplayTreeBounds t name).2

theorem Reachable.wf (h : Reachable t) : t.Wf := by
  induction h with
  | init t => exact (splayTreeInit_spec t).1
  | lookup name _ ih => exact (splayTreeLookup_spec ih name).2.1
  | insert name e _ hnone ih => exact (splayTreeInsert_spec ih e hnone).1
  | delete name e _ hsome ih => exact (splayTreeDelete_spec ih hsome).1
  | splitLarge small name _ ih => exact (splayTreeSplit_spec ih small name).1
  | splitSmall small name _ ih => exact (splayTreeSplit_spec ih small name).2.1
  | join _ _ hord ih ihs => exact (splayTreeJoin_spec ih ihs hord).1
  | joinSmall _ _ hord ih ihs => exact (splayTreeJoin_spec ih ihs hord).2.1
  | bounds name _ ih => exact (splayTreeBounds_spec ih name).1

/-- What the operations do, said of the finite map `find` and of the multiset of entries. -/
structure RefinesMap (t : IpcSplayTree α) : Prop where
  sorted : SortedEntries t.entries
  lookup : ∀ name, (ipcSplayTreeLookup t name).1 = t.find name ∧
    (ipcSplayTreeLookup t name).2.entries = t.entries
  insert : ∀ name e, t.find name = none →
    (∀ n, (ipcSplayTreeInsert t name e).find n = if n = name then some e else t.find n) ∧
      (ipcSplayTreeInsert t name e).entries.Perm ((name, e) :: t.entries)
  delete : ∀ name e, t.find name = some e →
    (∀ n, (ipcSplayTreeDelete t name).find n = if n = name then none else t.find n) ∧
      t.entries.Perm ((name, e) :: (ipcSplayTreeDelete t name).entries)
  split : ∀ small name,
    (∀ n, (ipcSplayTreeSplit t small name).2.find n = if n < name then t.find n else none) ∧
      (∀ n, (ipcSplayTreeSplit t small name).1.find n = if n < name then none else t.find n) ∧
      t.entries.Perm ((ipcSplayTreeSplit t small name).2.entries ++
        (ipcSplayTreeSplit t small name).1.entries)
  join : ∀ small, Reachable small → (∀ p ∈ small.entries, ∀ q ∈ t.entries, p.1 < q.1) →
    (∀ n, small.find n = none ∨ t.find n = none) ∧
      (∀ n, (ipcSplayTreeJoin t small).1.find n = (small.find n).or (t.find n)) ∧
      (ipcSplayTreeJoin t small).1.entries.Perm (small.entries ++ t.entries) ∧
      (ipcSplayTreeJoin t small).2.entries = []
  bounds : ∀ name, (ipcSplayTreeBounds t name).2.entries = t.entries ∧
    IsLower t.entries name (ipcSplayTreeBounds t name).1.1 ∧
    IsUpper t.entries name (ipcSplayTreeBounds t name).1.2
  pick : (ipcSplayTreePick t = none ↔ t.entries = []) ∧
    ∀ p, ipcSplayTreePick t = some p → t.find p.1 = some p.2

theorem find_eq (t : IpcSplayTree α) (name : MachPort) :
    t.find name = lookupEntries t.entries name := rfl

theorem lookupEntries_insert {r : List (MachPort × α)} (hl : ∀ p ∈ l, p.1 < name) (e : α)
    (n : MachPort) : lookupEntries (l ++ (name, e) :: r) n =
      if n = name then some e else lookupEntries (l ++ r) n := by
  rw [lookupEntries_append, lookupEntries_cons, lookupEntries_append]
  split_ifs with h1 h2 h2
  · subst h2
    simp [lookupEntries_of_lt hl]
  · exact absurd h1.symm h2
  · exact absurd h2.symm h1
  · rfl

theorem lookupEntries_side {r : List (MachPort × α)} (hl : ∀ p ∈ l, p.1 < name)
    (hr : ∀ p ∈ r, name ≤ p.1)
    (n : MachPort) : lookupEntries l n = (if n < name then lookupEntries (l ++ r) n else none) ∧
      lookupEntries r n = if n < name then none else lookupEntries (l ++ r) n := by
  rw [lookupEntries_append]
  split_ifs with hn
  · have hnone : lookupEntries r n = none :=
      lookupEntries_of_gt fun p hp => lt_of_lt_of_le hn (hr p hp)
    simp [hnone]
  · have hnone : lookupEntries l n = none :=
      lookupEntries_of_lt fun p hp => lt_of_lt_of_le (hl p hp) (not_lt.1 hn)
    simp [hnone]

theorem lookupEntries_of_mem (h : SortedEntries l) {p : MachPort × α} (hp : p ∈ l) :
    lookupEntries l p.1 = some p.2 := by
  obtain ⟨l₁, l₂, rfl⟩ := List.append_of_mem hp
  rw [sorted_append] at h
  rw [lookupEntries_insert fun q hq => h.2.2 q hq p List.mem_cons_self, if_pos rfl]

theorem splayTree_refinesMap {t : IpcSplayTree α} (h : Reachable t) : RefinesMap t where
  sorted := sorted_entries h.wf
  lookup name := by
    obtain ⟨hfind, -, hent⟩ := splayTreeLookup_spec h.wf name
    exact ⟨hfind, hent⟩
  insert name e hnone := by
    obtain ⟨-, l, r, ht, ht', hl, -⟩ := splayTreeInsert_spec h.wf e hnone
    refine ⟨fun n => ?_, ?_⟩
    · rw [find_eq, find_eq, ht', ht]
      exact lookupEntries_insert hl e n
    · rw [ht', ht]
      exact List.perm_middle
  delete name e hsome := by
    obtain ⟨-, l, r, ht, ht', hl, hr⟩ := splayTreeDelete_spec h.wf hsome
    refine ⟨fun n => ?_, ?_⟩
    · rw [find_eq, find_eq, ht', ht, lookupEntries_insert hl]
      split_ifs with hn
      · subst hn
        rw [lookupEntries_append, lookupEntries_of_lt hl, lookupEntries_of_gt hr]
        rfl
      · rfl
    · rw [ht', ht]
      exact List.perm_middle
  split small name := by
    obtain ⟨-, -, ht, hlt, hge⟩ := splayTreeSplit_spec h.wf small name
    have hside := lookupEntries_side hlt hge
    rw [← ht] at hside
    exact ⟨fun n => (hside n).1, fun n => (hside n).2, ht ▸ List.Perm.refl _⟩
  join small hsm hord := by
    obtain ⟨-, -, ht, hempty⟩ := splayTreeJoin_spec h.wf hsm.wf hord
    refine ⟨fun n => ?_, fun n => ?_, ht ▸ List.Perm.refl _, hempty⟩
    · rcases hfind : small.find n with _ | e
      · exact .inl rfl
      · refine .inr (lookupEntries_eq_none.2 fun q hq => ?_)
        exact (hord (n, e) (mem_of_lookupEntries hfind) q hq).ne'
    · rw [find_eq, ht, lookupEntries_append]
      rfl
  bounds name := (splayTreeBounds_spec h.wf name).2
  pick := ⟨(splayTreePick_spec t).1, fun p hp =>
    lookupEntries_of_mem (sorted_entries h.wf) ((splayTreePick_spec t).2 p hp)⟩

/-- A tree of three names after a lookup of a name that is not there. -/
theorem splayTree_refinesMap_three : RefinesMap
    (ipcSplayTreeLookup (ipcSplayTreeInsert (ipcSplayTreeInsert (ipcSplayTreeInsert
      (ipcSplayTreeInit (⟨0, .null, [], []⟩ : IpcSplayTree Nat)) 40 1) 7 2) 90 3) 50).2 :=
  splayTree_refinesMap (.lookup 50 (.insert 90 3 (.insert 7 2 (.insert 40 1 (.init _)
    (by decide)) (by decide)) (by decide)))

end Refinement

end XMach.Ipc
