import Mathlib.Algebra.Ring.Nat
import Mathlib.Data.List.Sort
import Mathlib.Order.Fin.Basic

/-!
# The splay tree of a name space

`ipc_splay.c` keeps the entries whose names do not fit the table in a splay tree that is stored
unassembled: between two operations the tree is the middle tree of the last top-down splay
(`istRoot`), the left tree, all of whose names are smaller, and the right tree, all of whose names
are larger. The left tree ends in a link, the `ite_rchild` field of its largest entry, which is not
initialised; `ist_ltreep` points to it. Here the left tree is the list of the entries on its right
spine, the one that holds the link first, so that storing through `ist_ltreep` is `plugLeft`, and
`ist_ltreep == &ist_ltree` is the empty list. The right tree is its mirror image.
-/

namespace XMach

/-- `mach_port_t`: a 32-bit name. -/
abbrev MachPort := Fin 4294967296

namespace MachPort

instance : NeZero 4294967296 := ⟨by decide⟩

/-- `MACH_PORT_NULL`, and `MACH_PORT_SMALLEST` of the splay tree. -/
def null : MachPort := 0

/-- `MACH_PORT_DEAD`, and `MACH_PORT_LARGEST` of the splay tree: `~0`. -/
def dead : MachPort := 4294967295

end MachPort

namespace Ipc

/-- A tree of `ipc_tree_entry`s; `entry` is what the caller keeps in `ite_entry`. -/
inductive Tree (α : Type*)
  | null : Tree α
  | node (lchild : Tree α) (name : MachPort) (entry : α) (rchild : Tree α) : Tree α
  deriving DecidableEq, Repr

/-- An entry of the left tree's right spine: its `ite_rchild` is the link. -/
structure LeftLink (α : Type*) where
  lchild : Tree α
  name : MachPort
  entry : α
  deriving DecidableEq, Repr

/-- An entry of the right tree's left spine: its `ite_lchild` is the link. -/
structure RightLink (α : Type*) where
  name : MachPort
  entry : α
  rchild : Tree α
  deriving DecidableEq, Repr

variable {α : Type*}

namespace Tree

def isNull : Tree α → Bool
  | null => true
  | node .. => false

/-- The entries of a tree in symmetric order. -/
def entries : Tree α → List (MachPort × α)
  | null => []
  | node l k e r => l.entries ++ (k, e) :: r.entries

end Tree

/-- `*ltreep = tree`, read back from `ltree`. -/
def plugLeft : List (LeftLink α) → Tree α → Tree α
  | [], t => t
  | f :: L, t => plugLeft L (.node f.lchild f.name f.entry t)

/-- `*rtreep = tree`, read back from `rtree`. -/
def plugRight : List (RightLink α) → Tree α → Tree α
  | [], t => t
  | f :: R, t => plugRight R (.node t f.name f.entry f.rchild)

def leftEntries : List (LeftLink α) → List (MachPort × α)
  | [] => []
  | f :: L => leftEntries L ++ (f.lchild.entries ++ [(f.name, f.entry)])

def rightEntries : List (RightLink α) → List (MachPort × α)
  | [] => []
  | f :: R => (f.name, f.entry) :: f.rchild.entries ++ rightEntries R

/-- The three trees `ipc_splay_prim_lookup` returns. -/
structure Split (α : Type*) where
  tree : Tree α
  ltree : List (LeftLink α)
  rtree : List (RightLink α)
  deriving DecidableEq, Repr

/-- The loop of `ipc_splay_prim_lookup`. A pass of the loop that goes left looks at the left child:
it rotates right and links right (zig-zig), links right and then left (zig-zag), or only links
right; a pass that goes right is the mirror image. -/
def ipcSplayPrimLookup (name : MachPort) :
    Tree α → List (LeftLink α) → List (RightLink α) → Split α
  | .null, L, R => ⟨.null, L, R⟩
  | .node l k e r, L, R =>
    if name = k then ⟨.node l k e r, L, R⟩
    else if name < k then
      match l with
      | .null => ⟨.node .null k e r, L, R⟩
      | .node ll lk le lr =>
        if name < lk ∧ ll.isNull = false then
          ipcSplayPrimLookup name ll L (⟨lk, le, .node lr k e r⟩ :: R)
        else if lk < name ∧ lr.isNull = false then
          ipcSplayPrimLookup name lr (⟨ll, lk, le⟩ :: L) (⟨k, e, r⟩ :: R)
        else ipcSplayPrimLookup name (.node ll lk le lr) L (⟨k, e, r⟩ :: R)
    else
      match r with
      | .null => ⟨.node l k e .null, L, R⟩
      | .node rl rk re rr =>
        if rk < name ∧ rr.isNull = false then
          ipcSplayPrimLookup name rr (⟨.node l k e rl, rk, re⟩ :: L) R
        else if name < rk ∧ rl.isNull = false then
          ipcSplayPrimLookup name rl (⟨l, k, e⟩ :: L) (⟨rk, re, rr⟩ :: R)
        else ipcSplayPrimLookup name (.node rl rk re rr) (⟨l, k, e⟩ :: L) R

/-- `ipc_splay_prim_assemble`: the middle tree's children go to the links, and the two trees become
its children. -/
def ipcSplayPrimAssemble : Split α → Tree α
  | ⟨.null, _, _⟩ => .null
  | ⟨.node l k e r, L, R⟩ => .node (plugLeft L l) k e (plugRight R r)

/-- `struct ipc_splay_tree`. When `istRoot` is null the tree has no entries, whatever the other
fields hold. -/
structure IpcSplayTree (α : Type*) where
  istName : MachPort
  istRoot : Tree α
  istLtree : List (LeftLink α)
  istRtree : List (RightLink α)
  deriving DecidableEq, Repr

namespace IpcSplayTree

/-- The three trees, as `ipc_splay_prim_assemble` takes them. -/
def split (t : IpcSplayTree α) : Split α := ⟨t.istRoot, t.istLtree, t.istRtree⟩

/-- The entries held, in symmetric order. -/
def entries (t : IpcSplayTree α) : List (MachPort × α) :=
  match t.istRoot with
  | .null => []
  | .node l k e r =>
    leftEntries t.istLtree ++ ((Tree.node l k e r).entries ++ rightEntries t.istRtree)

/-- The finite map the tree stands for. -/
def find (t : IpcSplayTree α) (name : MachPort) : Option α :=
  (t.entries.find? (fun p => p.1 == name)).map Prod.snd

end IpcSplayTree

/-- `ipc_splay_tree_init`. The fields other than the root are left as they were. -/
def ipcSplayTreeInit (t : IpcSplayTree α) : IpcSplayTree α := { t with istRoot := .null }

/-- An assembled tree as the tail of `ipc_splay_tree_delete`, `_split` and `_join` stores it: looked
up last at its root, with empty left and right trees. -/
def IpcSplayTree.ofRoot (t : IpcSplayTree α) : Tree α → IpcSplayTree α
  | .null => { t with istRoot := .null }
  | .node l k e r => ⟨k, .node l k e r, [], []⟩

/-- The test `ist_name != name` that guards assembling and splaying again at `name`. -/
def ipcSplaySeek (t : IpcSplayTree α) (name : MachPort) : Split α :=
  if t.istName ≠ name then ipcSplayPrimLookup name (ipcSplayPrimAssemble t.split) [] []
  else t.split

/-- `ipc_splay_tree_pick`. -/
def ipcSplayTreePick (t : IpcSplayTree α) : Option (MachPort × α) :=
  match t.istRoot with
  | .null => none
  | .node _ k e _ => some (k, e)

/-- `ipc_splay_tree_lookup`. -/
def ipcSplayTreeLookup (t : IpcSplayTree α) (name : MachPort) : Option α × IpcSplayTree α :=
  match t.istRoot with
  | .null => (none, t)
  | .node .. =>
    let s := ipcSplaySeek t name
    let t' : IpcSplayTree α := ⟨name, s.tree, s.ltree, s.rtree⟩
    match s.tree with
    | .null => (none, t')
    | .node _ k e _ => (if name = k then some e else none, t')

/-- `ipc_splay_tree_insert`. -/
def ipcSplayTreeInsert (t : IpcSplayTree α) (name : MachPort) (entry : α) : IpcSplayTree α :=
  match t.istRoot with
  | .null => ⟨name, .node .null name entry .null, [], []⟩
  | .node .. =>
    let s := ipcSplaySeek t name
    match s.tree with
    | .null => ⟨name, .node .null name entry .null, [], []⟩
    | .node l k e r =>
      let (ltree, rtree) :=
        if name < k then (plugLeft s.ltree .null, plugRight s.rtree (.node l k e r))
        else (plugLeft s.ltree (.node l k e r), plugRight s.rtree .null)
      ⟨name, .node ltree name entry rtree, [], []⟩

/-- The right child's slot of a root that has none: `root->ite_rchild = saved`. -/
def Tree.setRchild : Tree α → Tree α → Tree α
  | .null, _ => .null
  | .node l k e _, t => .node l k e t

/-- The left child's slot of a root that has none: `root->ite_lchild = sroot`. -/
def Tree.setLchild : Tree α → Tree α → Tree α
  | .null, _ => .null
  | .node _ k e r, t => .node t k e r

/-- `ipc_splay_tree_delete`: the entry at `name` is freed and its two sides are joined, with the
largest entry of the left side splayed to the root. -/
def ipcSplayTreeDelete (t : IpcSplayTree α) (name : MachPort) : IpcSplayTree α :=
  let s := ipcSplaySeek t name
  match s.tree with
  | .null => t
  | .node l _ _ r =>
    let root := plugLeft s.ltree l
    let saved := plugRight s.rtree r
    let root' :=
      if root.isNull then saved
      else if saved.isNull then root
      else (ipcSplayPrimAssemble (ipcSplayPrimLookup MachPort.dead root [] [])).setRchild saved
    t.ofRoot root'

/-- `ipc_splay_tree_split`: the pair of the tree and of `small`, which gets the names smaller than
`name`. -/
def ipcSplayTreeSplit (t small : IpcSplayTree α) (name : MachPort) :
    IpcSplayTree α × IpcSplayTree α :=
  match t.istRoot with
  | .null => (t, ipcSplayTreeInit small)
  | .node .. =>
    let s := ipcSplaySeek t name
    match s.tree with
    | .null => (t, ipcSplayTreeInit small)
    | .node l k e r =>
      if k < name then
        (t.ofRoot (plugRight s.rtree .null), ⟨k, .node (plugLeft s.ltree l) k e r, [], []⟩)
      else
        (⟨name, .node .null k e r, [], s.rtree⟩, small.ofRoot (plugLeft s.ltree l))

/-- `ipc_splay_tree_join`: the entries of `small` go below the smallest entry of the tree, and
`small` is left empty. -/
def ipcSplayTreeJoin (t small : IpcSplayTree α) : IpcSplayTree α × IpcSplayTree α :=
  match small.istRoot with
  | .null => (t, small)
  | .node .. =>
    let sroot := ipcSplayPrimAssemble small.split
    match t.istRoot with
    | .null => (t.ofRoot sroot, ipcSplayTreeInit small)
    | .node .. =>
      let s := ipcSplaySeek t MachPort.null
      (t.ofRoot ((ipcSplayPrimAssemble s).setLchild sroot), ipcSplayTreeInit small)

/-- `ipc_splay_tree_bounds`: the bounds and the tree splayed at `name`. The names under `ist_ltreep`
and `ist_rtreep` are those of the first links. -/
def ipcSplayTreeBounds (t : IpcSplayTree α) (name : MachPort) :
    (MachPort × MachPort) × IpcSplayTree α :=
  match t.istRoot with
  | .null => ((MachPort.dead, MachPort.null), t)
  | .node .. =>
    let s := ipcSplaySeek t name
    let t' : IpcSplayTree α := ⟨name, s.tree, s.ltree, s.rtree⟩
    match s.tree with
    | .null => ((MachPort.dead, MachPort.null), t')
    | .node _ k _ _ =>
      let lower :=
        if k ≤ name then k
        else match s.ltree with
          | [] => MachPort.dead
          | f :: _ => f.name
      let upper :=
        if name ≤ k then k
        else match s.rtree with
          | [] => MachPort.null
          | f :: _ => f.name
      ((lower, upper), t')

/-- A link from an entry back to its parent during a traversal: the field that pointed to the entry
holds the link, and the parent keeps the rest. -/
inductive ParentLink (α : Type*)
  | lchild (name : MachPort) (entry : α) (rchild : Tree α)
  | rchild (lchild : Tree α) (name : MachPort) (entry : α)

/-- What `ipc_splay_traverse_start` and `ipc_splay_traverse_next` leave in `ist_ltree` and
`ist_rtree`: the current entry with its children, and the way back to the root. -/
structure Cursor (α : Type*) where
  lchild : Tree α
  name : MachPort
  entry : α
  rchild : Tree α
  parents : List (ParentLink α)

/-- The next entry, or the root when the traversal is over. -/
abbrev Traversal (α : Type*) := Cursor α ⊕ Tree α

/-- The state `traverse_left`. -/
def traverseLeft : Tree α → MachPort → α → Tree α → List (ParentLink α) → Cursor α
  | .null, k, e, r, parents => ⟨.null, k, e, r, parents⟩
  | .node ll lk le lr, k, e, r, parents => traverseLeft ll lk le lr (.lchild k e r :: parents)

/-- The state `traverse_back`, with the name of the entry that it goes back from. Which field of the
parent is restored is decided by a comparison of the names; there is no result if it is not the
field that holds the link. -/
def traverseBack : MachPort → Tree α → List (ParentLink α) → Option (Traversal α)
  | _, t, [] => some (.inr t)
  | name, t, .lchild k e r :: parents => if name < k then some (.inl ⟨t, k, e, r, parents⟩)
      else none
  | name, t, .rchild l k e :: parents => if name < k then none
      else traverseBack k (.node l k e t) parents

/-- The state `traverse_right`. -/
def traverseRight (l : Tree α) (k : MachPort) (e : α) :
    Tree α → List (ParentLink α) → Option (Traversal α)
  | .null, parents => traverseBack k (.node l k e .null) parents
  | .node rl rk re rr, parents => some (.inl (traverseLeft rl rk re rr (.rchild l k e :: parents)))

/-- `ipc_splay_traverse_start`. -/
def ipcSplayTraverseStart (t : IpcSplayTree α) : Traversal α :=
  match ipcSplayPrimAssemble t.split with
  | .null => .inr .null
  | .node l k e r => .inl (traverseLeft l k e r [])

/-- `ipc_splay_traverse_next`. With `delete` the current entry is freed and the tree patched; its
left children have been traversed. -/
def ipcSplayTraverseNext (c : Cursor α) (delete : Bool) : Option (Traversal α) :=
  if delete then
    match c.lchild, c.rchild with
    | .null, .null => traverseBack c.name .null c.parents
    | .null, .node rl rk re rr => some (.inl (traverseLeft rl rk re rr c.parents))
    | .node ll lk le lr, .null => traverseBack lk (.node ll lk le lr) c.parents
    | .node ll lk le lr, .node rl rk re rr =>
      match ipcSplayPrimAssemble (ipcSplayPrimLookup MachPort.dead (.node ll lk le lr) [] []) with
      | .null => none
      | .node l k e _ => traverseRight l k e (.node rl rk re rr) c.parents
  else traverseRight c.lchild c.name c.entry c.rchild c.parents

/-- `ipc_splay_traverse_finish`. -/
def ipcSplayTraverseFinish (t : IpcSplayTree α) (root : Tree α) : IpcSplayTree α := t.ofRoot root

/-- A loop over the entries with `ipc_splay_traverse_start` and `ipc_splay_traverse_next`. The body
gets the entry and says whether to delete it. -/
def splayForEach {σ : Type*} (body : σ → MachPort → α → σ × Bool) :
    Nat → Traversal α → σ → Option (Tree α × σ)
  | _, .inr root, s => some (root, s)
  | 0, .inl _, _ => none
  | n + 1, .inl c, s =>
    (ipcSplayTraverseNext c (body s c.name c.entry).2).bind fun tr =>
      splayForEach body n tr (body s c.name c.entry).1

end Ipc

end XMach
