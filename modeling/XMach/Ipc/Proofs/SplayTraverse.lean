import XMach.Ipc.Proofs.Splay

/-!
# Traversals of the splay tree

A traversal goes through the entries in order. What it has gone through and kept is on the left of
the cursor, what it has not reached is on the right, and a deletion takes out the current entry
only. Since the entries are sorted, the comparison of names on the way back finds the field of the
parent that holds the link (`traverseBack_spec`).
-/

namespace XMach.Ipc

variable {α : Type*}

section Cursor

/-- The entries left of the current subtree. -/
def beforeParents : List (ParentLink α) → List (MachPort × α)
  | [] => []
  | .lchild _ _ _ :: ps => beforeParents ps
  | .rchild l k e :: ps => beforeParents ps ++ (l.entries ++ [(k, e)])

/-- The entries right of the current subtree. -/
def afterParents : List (ParentLink α) → List (MachPort × α)
  | [] => []
  | .lchild k e r :: ps => (k, e) :: r.entries ++ afterParents ps
  | .rchild _ _ _ :: ps => afterParents ps

/-- The entries a traversal has gone through and kept. -/
def Traversal.before : Traversal α → List (MachPort × α)
  | .inl c => beforeParents c.parents ++ c.lchild.entries
  | .inr t => t.entries

/-- The current entry and those after it. -/
def Traversal.rest : Traversal α → List (MachPort × α)
  | .inl c => (c.name, c.entry) :: (c.rchild.entries ++ afterParents c.parents)
  | .inr _ => []

theorem traverseLeft_spec : ∀ (l : Tree α) (k : MachPort) (e : α) (r : Tree α)
    (ps : List (ParentLink α)),
    Traversal.before (.inl (traverseLeft l k e r ps)) = beforeParents ps ∧
    Traversal.rest (.inl (traverseLeft l k e r ps))
      = (Tree.node l k e r).entries ++ afterParents ps
  | .null, k, e, r, ps => by
    simp [traverseLeft, Traversal.before, Traversal.rest, Tree.entries]
  | .node ll lk le lr, k, e, r, ps => by
    obtain ⟨h1, h2⟩ := traverseLeft_spec ll lk le lr (.lchild k e r :: ps)
    rw [traverseLeft, h1, h2]
    simp [beforeParents, afterParents, Tree.entries]

/-- One entry of a stretch of a sorted list, between what is before and after the stretch. -/
theorem sorted_around {l x r : List (MachPort × α)} {p : MachPort × α}
    (hs : SortedEntries (l ++ (x ++ r))) (hp : p ∈ x) : SortedEntries (l ++ p :: r) :=
  hs.sublist (((List.singleton_sublist.2 hp).append_right r).append_left l)

theorem traverseBack_spec : ∀ (ps : List (ParentLink α)) (p : MachPort × α) (t : Tree α),
    SortedEntries (beforeParents ps ++ p :: afterParents ps) →
    ∃ tr, traverseBack p.1 t ps = some tr ∧ tr.before = beforeParents ps ++ t.entries ∧
      tr.rest = afterParents ps
  | [], p, t, _ => ⟨.inr t, rfl, rfl, rfl⟩
  | .lchild k e r :: ps, p, t, hs => by
    have hlt : p.1 < k := (sorted_cons.1 (sorted_append.1 hs).2.1).1 (k, e) (by simp [afterParents])
    exact ⟨.inl ⟨t, k, e, r, ps⟩, if_pos hlt, rfl, rfl⟩
  | .rchild l k e :: ps, p, t, hs => by
    have hlt : k < p.1 := (sorted_append.1 hs).2.2 (k, e)
      (by simp [beforeParents]) p List.mem_cons_self
    have hs' : SortedEntries (beforeParents ps ++ (k, e) :: afterParents ps) := by
      refine sorted_around (x := l.entries ++ (k, e) :: [p]) (hs.sublist ?_) (by simp)
      simp [beforeParents, afterParents]
    obtain ⟨tr, htr, hbefore, hrest⟩ := traverseBack_spec ps (k, e) (.node l k e t) hs'
    refine ⟨tr, (if_neg (not_lt.2 hlt.le)).trans htr, ?_, hrest⟩
    rw [hbefore]
    simp [beforeParents, Tree.entries]

theorem traverseRight_spec (l : Tree α) (k : MachPort) (e : α) (r : Tree α)
    (ps : List (ParentLink α))
    (hs : SortedEntries (beforeParents ps ++ (k, e) :: afterParents ps)) :
    ∃ tr, traverseRight l k e r ps = some tr ∧
      tr.before = beforeParents ps ++ (l.entries ++ [(k, e)]) ∧
      tr.rest = r.entries ++ afterParents ps := by
  cases r with
  | null =>
    obtain ⟨tr, htr, h1, h2⟩ := traverseBack_spec ps (k, e) (.node l k e .null) hs
    refine ⟨tr, htr, ?_, ?_⟩
    · simp [h1, Tree.entries]
    · simp [h2, Tree.entries]
  | node rl rk re rr =>
    obtain ⟨h1, h2⟩ := traverseLeft_spec rl rk re rr (.rchild l k e :: ps)
    exact ⟨_, rfl, h1, h2⟩

theorem traverseStart_spec (t : IpcSplayTree α) :
    (ipcSplayTraverseStart t).before = [] ∧ (ipcSplayTraverseStart t).rest = t.entries := by
  have hent : t.entries = (ipcSplayPrimAssemble t.split).entries := by
    cases hr : t.istRoot.isNull with
    | true =>
      have hnull : (ipcSplayPrimAssemble t.split).isNull = true := by
        rw [assemble_isNull]
        exact hr
      rw [entries_of_null hr, entries_of_isNull hnull]
    | false =>
      have hnull : t.split.tree.isNull = false := hr
      rw [entries_of_root hr, assemble_entries, hnull]
      rfl
  rw [hent]
  unfold ipcSplayTraverseStart
  cases ipcSplayPrimAssemble t.split with
  | null => simp [Traversal.before, Traversal.rest, Tree.entries]
  | node l k e r =>
    obtain ⟨h1, h2⟩ := traverseLeft_spec l k e r []
    simp only [h1, h2]
    simp [beforeParents, afterParents]

/-- The splay for the largest name makes the last of the entries the root, with the others on its
left. -/
theorem largest_spec {l : Tree α} {k : MachPort} (hs : SortedEntries l.entries)
    (hlt : ∀ p ∈ l.entries, p.1 < k) (hl : l.isNull = false) :
    ∃ l' k' e' r', ipcSplayPrimAssemble (ipcSplayPrimLookup MachPort.dead l [] [])
        = .node l' k' e' r' ∧ l.entries = l'.entries ++ [(k', e')] := by
  have hdead : ∀ p ∈ l.entries, p.1 < MachPort.dead := by
    intro p hp
    refine lt_of_lt_of_le (hlt p hp) ?_
    rw [Fin.le_def]
    simp only [MachPort.dead]
    omega
  have hhang : ((ipcSplayPrimAssemble (ipcSplayPrimLookup MachPort.dead l [] [])).setRchild
      .null).entries = l.entries ++ Tree.null.entries := hang_right hs hl hdead
  cases hasm : ipcSplayPrimAssemble (ipcSplayPrimLookup MachPort.dead l [] []) with
  | null =>
    rw [hasm] at hhang
    cases l with
    | null => cases hl
    | node => simp [Tree.setRchild, Tree.entries] at hhang
  | node l' k' e' r' =>
    rw [hasm] at hhang
    exact ⟨l', k', e', r', rfl, by simpa [Tree.setRchild, Tree.entries] using hhang.symm⟩

/-- The current entry is kept or taken out, and the cursor goes on to the next one. -/
theorem traverseNext_spec (c : Cursor α) (delete : Bool)
    (hs : SortedEntries (Traversal.before (.inl c) ++ Traversal.rest (.inl c))) :
    ∃ tr, ipcSplayTraverseNext c delete = some tr ∧
      tr.before = Traversal.before (.inl c) ++ (if delete then [] else [(c.name, c.entry)]) ∧
      tr.rest = c.rchild.entries ++ afterParents c.parents := by
  rcases c with ⟨l, k, e, r, ps⟩
  -- every entry of the current subtree is between the entries on its left and on its right
  have haround : ∀ p ∈ (Tree.node l k e r).entries,
    SortedEntries (beforeParents ps ++ p :: afterParents ps) := by
    intro p hp
    refine sorted_around (x := (Tree.node l k e r).entries) (hs.sublist ?_) hp
    simp [Traversal.before, Traversal.rest, Tree.entries]
  have hself := haround (k, e) (by simp [Tree.entries])
  cases delete with
  | false =>
    obtain ⟨tr, htr, h1, h2⟩ := traverseRight_spec l k e r ps hself
    exact ⟨tr, htr, h1.trans (by simp [Traversal.before]), h2⟩
  | true =>
    cases l with
    | null =>
      cases r with
      | null =>
        obtain ⟨tr, htr, h1, h2⟩ := traverseBack_spec ps (k, e) .null hself
        exact ⟨tr, htr, h1.trans (by simp [Traversal.before, Tree.entries]),
          h2.trans (by simp [Tree.entries])⟩
      | node rl rk re rr =>
        obtain ⟨h1, h2⟩ := traverseLeft_spec rl rk re rr ps
        exact ⟨_, rfl, h1.trans (by simp [Traversal.before, Tree.entries]), h2⟩
    | node ll lk le lr =>
      cases r with
      | null =>
        obtain ⟨tr, htr, h1, h2⟩ := traverseBack_spec ps (lk, le) (.node ll lk le lr)
          (haround (lk, le) (by simp [Tree.entries]))
        exact ⟨tr, htr, h1.trans (by simp [Traversal.before, Tree.entries]),
          h2.trans (by simp [Tree.entries])⟩
      | node rl rk re rr =>
        have hsorted := sorted_append.1 hs
        have hlt : ∀ p ∈ (Tree.node ll lk le lr).entries, p.1 < k := fun p hp =>
          hsorted.2.2 p (List.mem_append_right _ hp) (k, e) (by simp [Traversal.rest])
        obtain ⟨l', k', e', r', hasm, hent⟩ := largest_spec (sorted_append.1 hsorted.1).2.1 hlt rfl
        have hmem : (k', e') ∈ (Tree.node (.node ll lk le lr) k e (.node rl rk re rr)).entries := by
          rw [Tree.entries, hent]
          simp
        obtain ⟨tr, htr, h1, h2⟩ :=
          traverseRight_spec l' k' e' (.node rl rk re rr) ps (haround _ hmem)
        refine ⟨tr, ?_, h1.trans (by simp [Traversal.before, hent]), h2⟩
        simp only [ipcSplayTraverseNext, if_true, hasm]
        exact htr

end Cursor

section Loop

variable {σ : Type*} (body : σ → MachPort → α → σ × Bool)

/-- What a loop keeps, and its last state. -/
def keepEntries : List (MachPort × α) → σ → List (MachPort × α) × σ
  | [], s => ([], s)
  | (k, e) :: l, s =>
    let (kept, s') := keepEntries l (body s k e).1
    (if (body s k e).2 then kept else (k, e) :: kept, s')

theorem keepEntries_sublist : ∀ (l : List (MachPort × α)) (s : σ),
    (keepEntries body l s).1.Sublist l
  | [], _ => List.Sublist.refl _
  | (k, e) :: l, s => by
    have ih := keepEntries_sublist l (body s k e).1
    simp only [keepEntries]
    split_ifs
    · exact ih.cons _
    · exact ih.cons_cons _

theorem splayForEach_spec : ∀ (n : Nat) (tr : Traversal α) (s : σ), tr.rest.length ≤ n →
    SortedEntries (tr.before ++ tr.rest) →
    ∃ root, splayForEach body n tr s = some (root, (keepEntries body tr.rest s).2) ∧
      root.entries = tr.before ++ (keepEntries body tr.rest s).1
  | n, .inr t, s, _, _ => by
    refine ⟨t, ?_, ?_⟩
    · cases n <;> rfl
    · simp [Traversal.before, Traversal.rest, keepEntries]
  | 0, .inl c, s, hn, _ => by simp [Traversal.rest] at hn
  | n + 1, .inl c, s, hn, hs => by
    obtain ⟨tr, htr, hbefore, hrest⟩ := traverseNext_spec c (body s c.name c.entry).2 hs
    have hlen : tr.rest.length ≤ n := by
      rw [hrest]
      simpa [Traversal.rest] using hn
    have hsorted : SortedEntries (tr.before ++ tr.rest) := by
      rw [hbefore, hrest]
      refine hs.sublist ?_
      rw [List.append_assoc]
      refine List.Sublist.append_left ?_ _
      simp only [Traversal.rest]
      split_ifs
      · exact List.sublist_cons_self _ _
      · exact List.Sublist.refl _
    obtain ⟨root, hroot, hent⟩ := splayForEach_spec n tr (body s c.name c.entry).1 hlen hsorted
    rw [hrest] at hroot hent
    refine ⟨root, ?_, ?_⟩
    · rw [splayForEach, htr, Option.bind_some, hroot]
      simp [Traversal.rest, keepEntries]
    · rw [hent, hbefore]
      simp only [Traversal.rest, keepEntries]
      split_ifs <;> simp

theorem splayForEach_tree {t : IpcSplayTree α} (h : t.Wf) (s : σ) {n : Nat}
    (hn : t.entries.length ≤ n) :
    ∃ root, splayForEach body n (ipcSplayTraverseStart t) s
        = some (root, (keepEntries body t.entries s).2) ∧
      (ipcSplayTraverseFinish t root).Wf ∧
      (ipcSplayTraverseFinish t root).entries = (keepEntries body t.entries s).1 := by
  obtain ⟨hbefore, hrest⟩ := traverseStart_spec t
  have hsorted := sorted_entries h
  obtain ⟨root, hroot, hent⟩ := splayForEach_spec body n (ipcSplayTraverseStart t) s
    (by rw [hrest]; exact hn) (by rw [hbefore, hrest]; exact hsorted)
  rw [hrest] at hroot hent
  rw [hbefore, List.nil_append] at hent
  obtain ⟨hwf, hents⟩ := ofRoot_spec t root (hent ▸ hsorted.sublist (keepEntries_sublist _ _ _))
  exact ⟨root, hroot, hwf, hents.trans hent⟩

/-- The state after a visit to an entry, whether the entry is kept or not. -/
def visit (s : σ) (p : MachPort × α) : σ := (body s p.1 p.2).1

theorem keepEntries_state : ∀ (l : List (MachPort × α)) (s : σ),
    (keepEntries body l s).2 = l.foldl (visit body) s
  | [], _ => rfl
  | (k, e) :: l, s => keepEntries_state l (body s k e).1

/-- An entry is kept when the body says so in the state that the entries before it have left. -/
theorem mem_keepEntries {p : MachPort × α} : ∀ {l : List (MachPort × α)} {s : σ},
    p ∈ (keepEntries body l s).1 ↔ ∃ before after, l = before ++ p :: after ∧
      (body (before.foldl (visit body) s) p.1 p.2).2 = false
  | [], s => by simp [keepEntries]
  | (k, e) :: l, s => by
    have ih : p ∈ (keepEntries body l (body s k e).1).1 ↔ _ := mem_keepEntries
    have hmem : p ∈ (keepEntries body ((k, e) :: l) s).1 ↔
        ((body s k e).2 = false ∧ p = (k, e)) ∨ p ∈ (keepEntries body l (body s k e).1).1 := by
      cases hdel : (body s k e).2 <;> simp [keepEntries, hdel]
    rw [hmem, ih]
    constructor
    · rintro (⟨hkeep, rfl⟩ | ⟨before, after, rfl, hkeep⟩)
      · exact ⟨[], l, rfl, hkeep⟩
      · exact ⟨(k, e) :: before, after, rfl, hkeep⟩
    · rintro ⟨before, after, hl, hkeep⟩
      cases before with
      | nil =>
        cases hl
        exact .inl ⟨hkeep, rfl⟩
      | cons q before =>
        cases hl
        exact .inr ⟨before, after, rfl, hkeep⟩

/-- A loop over a tree, with any body: the entries are visited in the order of their names, each of
them once, and the tree that is left finds those that the body did not delete. -/
structure Traversed (t : IpcSplayTree α) (s : σ) : Prop where
  ordered : SortedEntries t.entries
  ends : ∃ root, splayForEach body t.entries.length (ipcSplayTraverseStart t) s
      = some (root, t.entries.foldl (visit body) s) ∧
    (ipcSplayTraverseFinish t root).Wf ∧
    ∀ name e, (ipcSplayTraverseFinish t root).find name = some e ↔
      ∃ before after, t.entries = before ++ (name, e) :: after ∧
        (body (before.foldl (visit body) s) name e).2 = false

theorem splayTree_traversed {t : IpcSplayTree α} (h : Reachable t) (s : σ) :
    Traversed body t s where
  ordered := sorted_entries h.wf
  ends := by
    obtain ⟨root, hroot, hwf, hent⟩ := splayForEach_tree body h.wf s le_rfl
    refine ⟨root, ?_, hwf, fun name e => ?_⟩
    · rw [hroot, keepEntries_state]
    · have hsorted := sorted_entries hwf
      rw [← mem_keepEntries body, ← hent, find_eq]
      exact ⟨mem_of_lookupEntries, fun hmem => lookupEntries_of_mem hsorted hmem⟩

/-- Three names, of which the loop deletes the one whose entry is 1. -/
theorem splayTree_traversed_three : Traversed (fun (s : Nat) _ e => (s + e, e == 1))
    (ipcSplayTreeInsert (ipcSplayTreeInsert (ipcSplayTreeInsert
      (ipcSplayTreeInit (⟨0, .null, [], []⟩ : IpcSplayTree Nat)) 40 1) 7 2) 90 3) 0 :=
  splayTree_traversed _ (.insert 90 3 (.insert 7 2 (.insert 40 1 (.init _)
    (by decide)) (by decide)) (by decide)) 0

end Loop

end XMach.Ipc
