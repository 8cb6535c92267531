import XMach.Vm.Proofs.Caches
import XMach.Vm.Proofs.Enter

/-!
# Allocating a projected buffer

`projected_buffer_allocate` enters its object in both maps, or gives up. When the task's map is the
one without space it deletes the wired entry of the kernel map before there are pages to unwire.
-/

namespace XMach.Vm

open Region

variable {m m' kernel user : VmMap} {before after : List VmMapEntry} {start size object : ℕ}

/-- The entry that is made next is none of the map, and the object is new to it. -/
structure Unused (m : VmMap) (object : ℕ) : Prop where
  ptr : ∀ e ∈ m.entries, e.ptr ≠ m.hdr.zone
  object : ∀ e ∈ m.entries, e.object ≠ .vmObject object

/-- Nothing that is free behind the `first_free` entry has room for the pages. -/
def NoSpace (m : VmMap) (size : ℕ) : Prop :=
  ∀ x free, m.endOf m.firstFree = some free → free ≤ x → ¬ FitsAt m (roundPage size) 0 x

/-- The entries of a map that name an object. -/
def naming (object : ℕ) (m : VmMap) : ℕ := m.entries.countP fun e => e.object = .vmObject object

/-- The map has one entry more, for all of the object. -/
def Added (m m' : VmMap) (size object : ℕ) : Prop :=
  ∃ before e after, m.entries = before ++ after ∧ m'.entries = before ++ e :: after ∧
    e.vmeEnd = e.vmeStart + roundPage size ∧ e.object = .vmObject object ∧ e.offset = 0

/-- The map is as it was, but for which of its entries the cached pointers lead to. -/
def Untouched (m m' : VmMap) : Prop :=
  m'.denote = m.denote ∧ m'.hdr.nentries = m.hdr.nentries ∧ CachesLinked m'

def AllOrNothing (kernel user : VmMap) (size object : ℕ) (kr : KernReturn) (b : Buffer) : Prop :=
  if kr = .success then
    Added kernel b.kernel size object ∧ Added user b.user size object ∧
      b.refs = naming object b.kernel + naming object b.user
  else Untouched kernel b.kernel ∧ Untouched user b.user ∧ b.refs = 0

section Entry

theorem updateEntry_of_ne {f : VmMapEntry → VmMapEntry} {p : ℕ} {l : List VmMapEntry}
    (h : ∀ e ∈ l, e.ptr ≠ p) : updateEntry p f l = l := by
  unfold updateEntry
  rw [List.map_congr_left fun e he => if_neg (h e he), List.map_id']

theorem updateEntry_insert {f : VmMapEntry → VmMapEntry} {e : VmMapEntry}
    (h : ∀ x ∈ before ++ after, x.ptr ≠ e.ptr) :
    updateEntry e.ptr f (before ++ e :: after) = before ++ f e :: after := by
  obtain ⟨hb, ha⟩ := List.forall_mem_append.1 h
  have hbefore : updateEntry e.ptr f before = before := updateEntry_of_ne hb
  have hafter : updateEntry e.ptr f after = after := updateEntry_of_ne ha
  unfold updateEntry at hbefore hafter ⊢
  rw [List.map_append, List.map_cons, if_pos rfl, hbefore, hafter]

/-- Without an object `vm_map_find_entry` extends no entry. -/
theorem findNull_spec (hm : WellFormed m) (hc : CachesLinked m) (size : ℕ) :
    NoSpace m size ∧ vmMapFindEntry m (roundPage size) 0 .null = some (none, m) ∨
      ¬ NoSpace m size ∧ ∃ before after start, Gap m before after start (roundPage size) ∧
        vmMapFindEntry m (roundPage size) 0 .null =
          some (some (start, m.hdr.zone), m.insertWired before after start (roundPage size)) := by
  obtain ⟨b, c, free, hfirst⟩ := fromFirstFree_total hc.2
  have hend := fromFirstFree_endOf hfirst
  obtain ⟨hl, hb, hlo⟩ := fromFirstFree_spec hm.laid hfirst
  have ho := hm.ordered.loose
  rw [hl] at ho
  obtain ⟨found, m', h, haddr⟩ := findEntry_address hfirst (roundPage size) 0 .null
  obtain ⟨rfl, rfl⟩ | ⟨before, after, start, hg, ⟨rfl, rfl⟩ | ⟨entry, -, hgrows, -⟩⟩ :=
    findEntry_spec hm (roundPage_lt size) h
  · refine .inl ⟨fun x y hy hle hfits => ?_, h⟩
    obtain rfl := Option.some.inj (hend.symm.trans hy)
    obtain ⟨s, hs, -⟩ := findSpace_le (k := 0) hm.max_lt (Nat.zero_le 32) hfits hl hle
    cases hs.symm.trans haddr.symm
  · refine .inr ⟨fun hno => hno start free hend ?_ (hg.fits (Nat.and_zero start)), before, after,
      start, hg, h⟩
    refine findSpace_start_le ho.right (fun e he => ?_) haddr.symm
    exact (fromFirstFree_after hm.laid hfirst e he).trans (ho.right.le e he)
  · simp [VmMapEntry.growsFor] at hgrows

/-- The entry is made and its fields are set, or the map has no space. -/
def EntryMade (m : VmMap) (size object : ℕ) (r : Option (Option (ℕ × ℕ) × VmMap)) : Prop :=
  (NoSpace m size ∧ r = some (none, m)) ∨ (¬ NoSpace m size ∧ ∃ start m',
    r = some (some (start, m.hdr.zone), m') ∧ Added m m' size object ∧ naming object m' = 1)

theorem Gap.added (hg : Gap m before after start (roundPage size)) (hm : WellFormed m)
    (hu : Unused m object)
    {e : VmMapEntry} (hend : e.vmeEnd = (e.vmeStart + roundPage size) % 2 ^ 32)
    (hs : e.vmeStart = start)
    (hobject : e.object = .vmObject object) (hoffset : e.offset = 0)
    (he : m'.entries = before ++ e :: after) : Added m m' size object ∧ naming object m' = 1 := by
  have hold : ∀ x ∈ before ++ after, x.object ≠ .vmObject object :=
    fun x hx => hu.object x (hg.split ▸ hx)
  refine ⟨⟨before, e, after, hg.split, he, ?_, hobject, hoffset⟩, ?_⟩
  · rw [hend, hs, hg.mod_eq hm.laid]
  · have hzero : ∀ l : List VmMapEntry, (∀ x ∈ l, x.object ≠ .vmObject object) →
        l.countP (fun e => e.object = .vmObject object) = 0 := fun l hl =>
      List.countP_eq_zero.2 fun x hx => by simpa using hl x hx
    obtain ⟨hb, ha⟩ := List.forall_mem_append.1 hold
    unfold naming
    rw [he, List.countP_append, List.countP_cons_of_pos (by simpa using hobject), hzero _ hb,
      hzero _ ha]

/-- What both halves of `projected_buffer_allocate` share: `f` sets the fields of the new entry. -/
theorem made_of_update (hm : WellFormed m) (hc : CachesLinked m) (hu : Unused m object)
    {f : VmMapEntry → VmMapEntry} (hf : KeepsBounds f)
    (hobject : ∀ e, (f e).object = .vmObject object)
    (hoffset : ∀ e, e.offset = 0 → (f e).offset = 0) :
    EntryMade m size object ((vmMapFindEntry m (roundPage size) 0 .null).bind fun r =>
      match r.1 with
      | none => some (none, r.2)
      | some (addr, p) => some (some (addr, p),
          { r.2 with entries := updateEntry p f r.2.entries })) := by
  rcases findNull_spec hm hc size with ⟨hno, hfind⟩ | ⟨hspace, before, after, start, hg, hfind⟩
  · rw [hfind]
    exact .inl ⟨hno, rfl⟩
  · rw [hfind]
    have hentries :
        updateEntry m.hdr.zone f (m.insertWired before after start (roundPage size)).entries =
        before ++ f (wiredEntry m.hdr.zone start ((start + roundPage size) % 2 ^ 32)) :: after :=
      updateEntry_insert (e := wiredEntry m.hdr.zone start _) fun x hx => hu.ptr x (hg.split ▸ hx)
    have hmade :
        Added m { m.insertWired before after start (roundPage size) with
          entries :=
            updateEntry m.hdr.zone f (m.insertWired before after start (roundPage size)).entries }
          size object ∧
        naming object { m.insertWired before after start (roundPage size) with
          entries :=
            updateEntry m.hdr.zone f (m.insertWired before after start (roundPage size)).entries
          } = 1 :=
      hg.added hm hu (by rw [(hf _).1, (hf _).2]; rfl) (hf _).1 (hobject _) (hoffset _ rfl) hentries
    exact .inr ⟨hspace, start, _, rfl, hmade⟩

theorem allocateKernel_made (hm : WellFormed m) (hc : CachesLinked m) (hu : Unused m object)
    (size : ℕ)
    (persistence : Bool) :
    EntryMade m size object (projectedAllocateKernel m size object persistence) :=
  made_of_update hm hc hu (f := fun e =>
    { e with
      object := .vmObject object
      projectedOn := if persistence then e.projectedOn else .nonPersistent })
    (fun _ => ⟨rfl, rfl⟩) (fun _ => rfl) (fun _ he => he)

theorem mapUser_made (hm : WellFormed m) (hc : CachesLinked m) (hu : Unused m object) (size : ℕ)
    {p : Projection} (hobject : p.object = .vmObject object) (hoffset : p.offset = 0) :
    EntryMade m size object (projectedMapUser m size p) :=
  made_of_update hm hc hu (f := fun e =>
    { e with
      object := p.object
      offset := p.offset
      projectedOn := .kernelEntry p.kernelEntry
      protection := p.protection
      maxProtection := p.protection
      inheritance := p.inheritance
      wiredCount := p.wiredCount })
    (fun _ => ⟨rfl, rfl⟩) (fun _ => hobject) (fun _ _ => hoffset)

end Entry

theorem untouched_refl (hc : CachesLinked m) : Untouched m m := ⟨rfl, rfl, hc⟩

/-- `projected_buffer_allocate` comes to a result that is all or nothing if and only if it is not
the task's map alone that has no space. -/
theorem buffer_all_or_nothing (hk : WellFormed kernel) (hck : CachesLinked kernel)
    (huk : Unused kernel object)
    (hu : WellFormed user) (hcu : CachesLinked user) (huu : Unused user object) (size : ℕ)
    (persistence : Bool) (protection : VmProt) (inheritance : VmInherit) :
    (∃ kr b, projectedBufferAllocate kernel user size object persistence protection inheritance =
    some (kr, b) ∧
      AllOrNothing kernel user size object kr b) ↔ (NoSpace user size → NoSpace kernel size) := by
  unfold projectedBufferAllocate
  rcases allocateKernel_made hk hck huk size persistence with
    ⟨hno, hfind⟩ | ⟨hspace, start, kernel₁, hfind, haddk, honek⟩
  · -- nothing has been done but to make the object
    rw [hfind]
    refine ⟨fun _ _ => hno, fun _ => ⟨_, _, rfl, ?_⟩⟩
    rw [AllOrNothing, if_neg (by simp)]
    exact ⟨untouched_refl hck, untouched_refl hcu, rfl⟩
  rw [hfind]
  simp only [Option.bind_eq_bind, Option.bind_some]
  rcases mapUser_made hu hcu huu size
      (p := ⟨.vmObject object, 0, kernel.hdr.zone, protection, inheritance, 1⟩) rfl rfl with
    ⟨hno, hfindu⟩ | ⟨hspaceu, start', user₁, hfindu, haddu, honeu⟩
  · -- the kernel stops in `vm_fault_unwire`, or the object is given back twice
    rw [hfindu]
    simp only [Option.bind_some]
    refine ⟨?_, fun h => absurd (h hno) hspace⟩
    rintro ⟨kr, b, h, hall⟩
    obtain ⟨kernel', -, h⟩ := Option.bind_eq_some_iff.1 h
    cases h
    rw [AllOrNothing, if_neg (by simp)] at hall
    have hrefs : (1 - 1 - 1 : ℤ) = 0 := hall.2.2
    omega
  · rw [hfindu]
    refine ⟨fun _ hno => absurd hno hspaceu, fun _ => ⟨_, _, rfl, ?_⟩⟩
    rw [AllOrNothing, if_pos rfl]
    refine ⟨haddk, haddu, ?_⟩
    rw [honek, honeu]
    rfl

section Examples

theorem unused_create (min max object : ℕ) : Unused (vmMapCreate min max) object :=
  ⟨List.forall_mem_nil _, List.forall_mem_nil _⟩

/-- A page in two empty maps. -/
theorem buffer_all_or_nothing_page : ∃ kr b,
    projectedBufferAllocate (vmMapCreate 0 65536)
    (vmMapCreate 0 65536) 4096 0 true vmProtDefault .none =
      some (kr, b) ∧ AllOrNothing (vmMapCreate 0 65536) (vmMapCreate 0 65536) 4096 0 kr b := by
  have hm : WellFormed (vmMapCreate 0 65536) := create_wellFormed (by decide)
  exact (buffer_all_or_nothing hm ⟨trivial, trivial⟩ (unused_create 0 65536 0) hm ⟨trivial, trivial⟩
    (unused_create 0 65536 0) 4096 true vmProtDefault .none).2 fun hno => hno

/-- A task's map without space: `vm_fault_unwire` does not find the page of the entry in the kernel
map. -/
theorem failed_buffer_stops : WellFormed (vmMapCreate 0 65536) ∧ WellFormed (vmMapCreate 0 0) ∧
    projectedBufferAllocate (vmMapCreate 0 65536)
    (vmMapCreate 0 0) 4096 0 true vmProtDefault .none = none :=
  ⟨create_wellFormed (by decide), create_wellFormed (by decide), by decide⟩

end Examples

end XMach.Vm
