import Mathlib.Tactic.Common
import XMach.Lites.FileCache

/-!
# The buffers and the pages of a file are coherent

The state of the vnode bounds what the kernel has and will get from the requests that it has not
handled: write access is granted in `VC_MO_WRITE` only, and the reply to a request ends the
transition that the request began. This is kept by every step but those that `Act.Careful` excludes,
and a write to a file that is mapped for writing is one of them (`mapped_write_asserts`).
-/

namespace XMach.FileCache

section Kernel

variable {k : Kernel} {r q : Request} {rs : List Request} {G : Request → Prop} {vc : CacheState}

def Request.ReadOnly (r : Request) : Prop := r = .supply ∨ r = .grantRead

/-- Without a reply. -/
def Request.Grant (r : Request) : Prop := r ≠ .clean ∧ r ≠ .flush

/-- The kernel has and gets read access at most. -/
structure Clean (k : Kernel) : Prop where
  access : k.access ≠ .write
  dirty : k.dirty = false
  requests : ∀ r ∈ k.requests, r.ReadOnly
  replies : k.replies = 0

structure Quiet (k : Kernel) : Prop extends Clean k where
  idle : k.Idle

/-- The request `q` will be answered; what the kernel gets before it meets `G`. -/
inductive Awaits (k : Kernel) (q : Request) (G : Request → Prop) : Prop
  | asked (before after : List Request) (hr : k.requests = before ++ q :: after)
      (hG : ∀ r ∈ before, G r) (hafter : ∀ r ∈ after, r.ReadOnly) (h0 : k.replies = 0)
  | answered (hr : ∀ r ∈ k.requests, r.ReadOnly) (hacc : k.access ≠ .write) (h1 : k.replies = 1)

/-- What each state of the vnode says about the kernel. -/
def KernelOk (k : Kernel) : CacheState → Prop
  | .free | .read => Clean k
  | .bufWrite => Quiet k
  | .moWrite => (∀ r ∈ k.requests, r.Grant) ∧ k.replies = 0
  | .moCleaning => Awaits k .clean Request.Grant
  | .moFlushing => k.access ≠ .write ∧ k.dirty = false ∧ Awaits k .flush Request.ReadOnly

theorem Request.ReadOnly.grant (h : r.ReadOnly) : r.Grant := by
  rcases h with rfl | rfl <;> exact ⟨nofun, nofun⟩

theorem quiet_unused : Quiet Kernel.unused := ⟨⟨nofun, rfl, nofun, rfl⟩, rfl, rfl⟩

theorem KernelOk.dirty (h : KernelOk k vc) (hd : k.dirty = true) :
    vc = .moWrite ∨ vc = .moCleaning := by
  rcases vc
  case free | read => exact absurd (h.dirty.symm.trans hd) nofun
  case bufWrite => exact absurd (h.dirty.symm.trans hd) nofun
  case moWrite => exact .inl rfl
  case moCleaning => exact .inr rfl
  case moFlushing => exact absurd (h.2.1.symm.trans hd) nofun

theorem KernelOk.write (h : KernelOk k vc) (hw : k.access = .write) :
    vc = .moWrite ∨ vc = .moCleaning := by
  rcases vc
  case free | read => exact absurd hw h.access
  case bufWrite => exact absurd hw h.access
  case moWrite => exact .inl rfl
  case moCleaning => exact .inr rfl
  case moFlushing => exact absurd hw h.1

/-- The kernel may return pages, and pages become dirty where it may write. -/
theorem Awaits.setDirty (h : Awaits k q G) (d : Bool) : Awaits { k with dirty := d } q G := by
  rcases h with ⟨before, after, hr, hG, hafter, h0⟩ | ⟨hr, hacc, h1⟩
  · exact .asked before after hr hG hafter h0
  · exact .answered hr hacc h1

theorem KernelOk.setDirty (h : KernelOk k vc) (hvc : vc = .moWrite ∨ vc = .moCleaning) (d : Bool) :
    KernelOk { k with dirty := d } vc := by
  rcases hvc with rfl | rfl
  · exact h
  · exact Awaits.setDirty h d

theorem Access.ne_write {a b : Access} (hr : a.rank ≤ b.rank) (hb : b ≠ .write) : a ≠ .write := by
  rintro rfl
  rcases b
  case write => exact hb rfl
  all_goals exact absurd hr (by decide)

theorem Clean.giveUp (h : Clean k) {a : Access} (ha : a.rank ≤ k.access.rank) :
    Clean { k with access := a } :=
  ⟨Access.ne_write ha h.access, h.dirty, h.requests, h.replies⟩

theorem Quiet.giveUp (h : Quiet k) {a : Access} (ha : a.rank ≤ k.access.rank) :
    Quiet { k with access := a } := by
  refine ⟨h.toClean.giveUp ha, ?_, h.idle.2⟩
  rw [h.idle.1] at ha
  rcases a
  case none => rfl
  all_goals exact absurd ha (by decide)

theorem Awaits.giveUp (h : Awaits k q G) {a : Access} (ha : a.rank ≤ k.access.rank) :
    Awaits { k with access := a } q G := by
  rcases h with ⟨before, after, hr, hG, hafter, h0⟩ | ⟨hr, hacc, h1⟩
  · exact .asked before after hr hG hafter h0
  · exact .answered hr (Access.ne_write ha hacc) h1

theorem KernelOk.giveUp (h : KernelOk k vc) {a : Access} (ha : a.rank ≤ k.access.rank) :
    KernelOk { k with access := a } vc := by
  rcases vc
  case free | read => exact Clean.giveUp h ha
  case bufWrite => exact Quiet.giveUp h ha
  case moWrite => exact h
  case moCleaning => exact Awaits.giveUp h ha
  case moFlushing => exact ⟨Access.ne_write ha h.1, h.2.1, h.2.2.giveUp ha⟩

/-- A grant of read access leaves what the kernel has below write access. -/
theorem handle_readOnly (hr : r.ReadOnly) (hacc : k.access ≠ .write) :
    (k.handle r).access ≠ .write := by
  rcases hr with rfl | rfl
  all_goals
    show (if k.access = .none then Access.read else k.access) ≠ .write
    split
    · exact nofun
    · exact hacc

theorem handle_grant (hr : r.Grant) : ∃ a, k.handle r = { k with access := a } := by
  rcases r
  case clean => exact absurd rfl hr.1
  case flush => exact absurd rfl hr.2
  all_goals exact ⟨_, rfl⟩

theorem Clean.handle (h : Clean k) (hk : k.requests = r :: rs) :
    Clean ({ k with requests := rs }.handle r) := by
  have hr : r.ReadOnly := h.requests r (by simp [hk])
  obtain ⟨a, ha⟩ := handle_grant (k := { k with requests := rs }) hr.grant
  have hacc := handle_readOnly (k := { k with requests := rs }) hr h.access
  rw [ha] at hacc ⊢
  exact ⟨hacc, h.dirty, fun r' hr' => h.requests r' (by simp [hk, hr']), h.replies⟩

theorem Awaits.handle (h : Awaits k q G) (hq : q = .clean ∨ q = .flush) (hG : ∀ r, G r → r.Grant)
    (hk : k.requests = r :: rs) : Awaits ({ k with requests := rs }.handle r) q G := by
  rcases h with ⟨before, after, hr, hbefore, hafter, h0⟩ | ⟨hr, hacc, h1⟩
  · rcases before with _ | ⟨r', before⟩
    -- the request itself is next
    · obtain ⟨rfl, rfl⟩ := List.cons.inj (hk.symm.trans hr)
      rcases hq with rfl | rfl
      · refine .answered hafter ?_ (congrArg (· + 1) h0)
        show (if k.access = .write then Access.read else k.access) ≠ .write
        split
        · exact nofun
        · assumption
      · exact .answered hafter nofun (congrArg (· + 1) h0)
    · obtain ⟨rfl, hrs⟩ := List.cons.inj (hk.symm.trans hr)
      obtain ⟨a, ha⟩ := handle_grant (k := { k with requests := rs }) (hG r (hbefore r (.head _)))
      rw [ha]
      exact .asked before after hrs (fun r' hr' => hbefore r' (.tail _ hr')) hafter h0
  · have hro : r.ReadOnly := hr r (by simp [hk])
    obtain ⟨a, ha⟩ := handle_grant (k := { k with requests := rs }) hro.grant
    have hacc' := handle_readOnly (k := { k with requests := rs }) hro hacc
    rw [ha] at hacc' ⊢
    exact .answered (fun r' hr' => hr r' (by simp [hk, hr'])) hacc' h1

/-- Before a flush is answered the kernel gets read access at most. -/
theorem Awaits.handle_flush (h : Awaits k .flush Request.ReadOnly) (hacc : k.access ≠ .write)
    (hd : k.dirty = false) (hk : k.requests = r :: rs) :
    ({ k with requests := rs }.handle r).access ≠ .write ∧
    ({ k with requests := rs }.handle r).dirty = false := by
  have hr : r.ReadOnly ∨ r = .flush := by
    rcases h with ⟨before, after, hr, hbefore, -, -⟩ | ⟨hr, -, -⟩
    · rcases before with _ | ⟨r', before⟩
      · exact .inr (List.cons.inj (hk.symm.trans hr)).1
      · obtain ⟨rfl, -⟩ := List.cons.inj (hk.symm.trans hr)
        exact .inl (hbefore r (.head _))
    · exact .inl (hr r (by simp [hk]))
  rcases hr with hr | rfl
  · refine ⟨handle_readOnly hr hacc, ?_⟩
    obtain ⟨a, ha⟩ := handle_grant (k := { k with requests := rs }) hr.grant
    rw [ha]
    exact hd
  · exact ⟨nofun, hd⟩

theorem KernelOk.handle (h : KernelOk k vc) (hk : k.requests = r :: rs) :
    KernelOk ({ k with requests := rs }.handle r) vc := by
  rcases vc
  case free | read => exact Clean.handle h hk
  case bufWrite => exact absurd (h.idle.2.symm.trans hk) nofun
  case moWrite =>
    obtain ⟨a, ha⟩ := handle_grant (k := { k with requests := rs }) (h.1 r (by simp [hk]))
    rw [ha]
    exact ⟨fun r' hr' => h.1 r' (by simp [hk, hr']), h.2⟩
  case moCleaning => exact Awaits.handle h (.inl rfl) (fun _ => id) hk
  case moFlushing =>
    obtain ⟨hacc, hd⟩ := h.2.2.handle_flush h.1 h.2.1 hk
    exact ⟨hacc, hd, h.2.2.handle (.inr rfl) (fun _ => Request.ReadOnly.grant) hk⟩

theorem forall_mem_snoc {P : Request → Prop} (h : ∀ r ∈ rs, P r) (hr : P r) :
    ∀ r' ∈ rs ++ [r], P r' :=
  List.forall_mem_append.2 ⟨h, List.forall_mem_singleton.2 hr⟩

theorem Clean.send (h : Clean k) (hr : r.ReadOnly) :
    Clean { k with requests := k.requests ++ [r] } :=
  ⟨h.access, h.dirty, forall_mem_snoc h.requests hr, h.replies⟩

theorem Awaits.send (h : Awaits k q G) (hr : r.ReadOnly) :
    Awaits { k with requests := k.requests ++ [r] } q G := by
  rcases h with ⟨before, after, hreq, hG, hafter, h0⟩ | ⟨hreq, hacc, h1⟩
  · exact .asked before (after ++ [r]) (by simp [hreq]) hG (forall_mem_snoc hafter hr) h0
  · exact .answered (forall_mem_snoc hreq hr) hacc h1

/-- A request that gives read access may be sent unless the server writes. -/
theorem KernelOk.send (h : KernelOk k vc) (hvc : vc ≠ .bufWrite) (hr : r.ReadOnly) :
    KernelOk { k with requests := k.requests ++ [r] } vc := by
  rcases vc
  case free | read => exact Clean.send h hr
  case bufWrite => exact absurd rfl hvc
  case moWrite => exact ⟨forall_mem_snoc h.1 hr.grant, h.2⟩
  case moCleaning => exact Awaits.send h hr
  case moFlushing => exact ⟨h.1, h.2.1, h.2.2.send hr⟩

/-- Write access may be granted when no transition is going on. -/
theorem KernelOk.toMoWrite (h : KernelOk k vc) (hvc : vc.transit = false) :
    KernelOk k .moWrite := by
  rcases vc
  case free | read => exact ⟨fun r hr => (h.requests r hr).grant, h.replies⟩
  case bufWrite => exact ⟨fun r hr => (h.requests r hr).grant, h.replies⟩
  case moWrite => exact h
  all_goals cases hvc

theorem KernelOk.clean (h : KernelOk k vc) (hvc : vc = .free ∨ vc = .read ∨ vc = .bufWrite) :
    Clean k := by
  rcases hvc with rfl | rfl | rfl
  · exact h
  · exact h
  · exact Quiet.toClean h

end Kernel

section Server

variable {v v' : Vnode} {op : Op} {k : Vnode → Vnode × Phase} {P : Vnode × Phase → Prop}

structure VnodeOk (v : Vnode) : Prop where
  failed : v.failed = false
  kernel : KernelOk v.toKernel v.vc
  /-- without a memory object there is nothing to wait for -/
  closed : v.control = none → Quiet v.toKernel ∧ v.vc.transit = false

theorem VnodeOk.control (h : VnodeOk v) (hvc : v.vc.transit = true) : v.control ≠ none := by
  intro hnone
  rw [(h.closed hnone).2] at hvc
  cases hvc

/-- Without a memory object the state may be anything but a transition. -/
theorem VnodeOk.toFree (h : VnodeOk v) (hc : v.control = none) : VnodeOk { v with vc := .free } :=
  ⟨h.failed, (h.closed hc).1.toClean, fun _ => ⟨(h.closed hc).1, rfl⟩⟩

theorem VnodeOk.toRead (h : VnodeOk v) (hvc : v.vc = .free) : VnodeOk { v with vc := .read } :=
  ⟨h.failed, h.kernel.clean (.inl hvc), fun hc => ⟨(h.closed hc).1, rfl⟩⟩

theorem VnodeOk.toBufWrite (h : VnodeOk v) (hvc : v.vc = .free) (hidle : v.toKernel.Idle) :
    VnodeOk { v with vc := .bufWrite } :=
  ⟨h.failed, ⟨h.kernel.clean (.inl hvc), hidle⟩, fun hc => ⟨(h.closed hc).1, rfl⟩⟩

theorem VnodeOk.toCleaning (h : VnodeOk v) (hvc : v.vc = .moWrite) (hc : v.control ≠ none) :
    VnodeOk ({ v with vc := .moCleaning }.send .clean) := by
  have hk := h.kernel
  rw [hvc] at hk
  exact ⟨h.failed, .asked v.requests [] rfl hk.1 nofun hk.2, fun hnone => absurd hnone hc⟩

theorem VnodeOk.toFlushing (h : VnodeOk v) (hvc : v.vc = .read) (hc : v.control ≠ none) :
    VnodeOk ({ v with vc := .moFlushing }.send .flush) := by
  have hk := h.kernel.clean (.inr (.inl hvc))
  exact ⟨h.failed, ⟨hk.access, hk.dirty, .asked v.requests [] rfl hk.requests nofun hk.replies⟩,
    fun hnone => absurd hnone hc⟩

/-- `vn_pager_revoke_write` leaves the state free, as it is, or begins to clean. -/
theorem VnodeOk.revokeWrite (h : VnodeOk v) :
    VnodeOk v.revokeWrite ∧ (v.revokeWrite.vc = .free ∧ v.vc.transit = false ∨ v.vc ≠ .moWrite ∧
      v.revokeWrite = v ∨ v.vc = .moWrite ∧ v.revokeWrite.vc = .moCleaning) := by
  unfold Vnode.revokeWrite
  split
  · next hc => exact ⟨h.toFree hc, .inl ⟨rfl, (h.closed hc).2⟩⟩
  · next hc =>
    split
    · next hvc => exact ⟨h, .inr (.inl ⟨hvc, rfl⟩)⟩
    · next hvc =>
      have hvc := not_not.1 hvc
      exact ⟨h.toCleaning hvc hc, .inr (.inr ⟨hvc, rfl⟩)⟩

theorem revocable_revokeWrite (h : v.Revocable) : v.revokeWrite.Revocable := by
  unfold Vnode.revokeWrite
  split
  · exact fun _ => .inl rfl
  · next hc =>
    rw [if_pos (by rcases h hc with hvc | hvc <;> simp [hvc])]
    exact h

theorem VnodeOk.revokeRead (h : VnodeOk v) (hread : v.control ≠ none → v.vc = .read) :
    VnodeOk v.revokeRead ∧ (v.revokeRead.vc = .free ∧ v.revokeRead.toKernel.Idle ∨
    v.revokeRead.vc = .moFlushing) := by
  unfold Vnode.revokeRead
  split
  · next hc => exact ⟨h.toFree hc, .inl ⟨rfl, (h.closed hc).1.idle⟩⟩
  · next hc =>
    rw [if_neg (not_not.2 (hread hc))]
    exact ⟨h.toFlushing (hread hc) hc, .inr rfl⟩

/-- A pass of the loop goes on with a state that needs no revocation, or sleeps in a transition. -/
theorem VnodeOk.revokeWriteAndWait (h : VnodeOk v)
    (hk : ∀ v', VnodeOk v' → v'.vc = .free ∧ v.vc.transit = false ∨ v' = v ∧
      (v.vc = .read ∨ v.vc = .bufWrite) → P (k v'))
    (hsleep : ∀ v', VnodeOk v' → v'.vc = .moCleaning ∧ (v.vc = .moWrite ∨ v.vc = .moCleaning) ∨
      v'.vc = .moFlushing → P (v', .asleep op)) : P (v.revokeWriteAndWait op k) := by
  unfold Vnode.revokeWriteAndWait
  split
  · next hvc =>
    rcases hvc with hvc | hvc
    · exact hk v h (.inl ⟨hvc, by rw [hvc]; rfl⟩)
    · exact hk v h (.inr ⟨rfl, hvc⟩)
  · next hvc =>
    obtain ⟨hok, ⟨hfree, ht⟩ | ⟨hne, heq⟩ | ⟨hw, hclean⟩⟩ := h.revokeWrite
    · rw [if_neg (by rw [hfree]; exact Bool.false_ne_true)]
      exact hk _ hok (.inl ⟨hfree, ht⟩)
    · rw [heq]
      -- the state is none of those that leave the loop
      have ht : v.vc = .moCleaning ∨ v.vc = .moFlushing := by
        rcases hx : v.vc <;> simp_all
      rcases ht with ht | ht
      · rw [if_pos (by rw [ht]; rfl)]
        exact hsleep v h (.inl ⟨ht, .inr ht⟩)
      · rw [if_pos (by rw [ht]; rfl)]
        exact hsleep v h (.inr ht)
    · rw [if_pos (by rw [hclean]; rfl)]
      exact hsleep _ hok (.inl ⟨hclean, .inl hw⟩)

theorem VnodeOk.revokeReadAndWait (h : VnodeOk v) (hrev : v.Revocable)
    (hk : ∀ v', VnodeOk v' → v'.vc = .free → v' = v ∨ v'.toKernel.Idle → P (k v'))
    (hsleep : ∀ v', VnodeOk v' → v'.vc = .moFlushing → P (v', .asleep op)) :
    P (v.revokeReadAndWait op k) := by
  unfold Vnode.revokeReadAndWait
  split
  · next hvc => exact hk v h hvc (.inl rfl)
  · next hvc =>
    obtain ⟨hok, ⟨hfree, hidle⟩ | hflush⟩ := h.revokeRead fun hc => (hrev hc).resolve_left hvc
    · rw [if_neg (by rw [hok.failed]; exact Bool.false_ne_true),
        if_neg (by rw [hfree]; exact Bool.false_ne_true)]
      exact hk _ hok hfree (.inr hidle)
    · rw [if_neg (by rw [hok.failed]; exact Bool.false_ne_true), if_pos (by rw [hflush]; rfl)]
      exact hsleep _ hok hflush

/-- Destruction leaves nothing behind. -/
theorem VnodeOk.destroy (h : VnodeOk v) (hvc : v.vc = .free) :
    VnodeOk v.destroy.1 ∧ v.destroy.1.vc = .free ∧ v.destroy.2 = .out := by
  unfold Vnode.destroy
  split
  · exact ⟨⟨h.failed, quiet_unused.toClean, fun _ => ⟨quiet_unused, rfl⟩⟩, rfl, rfl⟩
  · exact ⟨h, hvc, rfl⟩

end Server

section Steps

variable {T : Type*} [DecidableEq T] {s s' : State T} {t : T} {a : Act T} {v : Vnode} {op : Op}
  {write : Bool} {c : ℕ}

structure Inv (s : State T) : Prop where
  vn : VnodeOk s.vn
  moWrite : s.vn.vc = .moWrite ∨ s.vn.vc = .moCleaning → s.NoBufferIO
  read : s.vn.vc = .read → s.NoWriter

omit [DecidableEq T] in
theorem State.NoBufferIO.noWriter (h : s.NoBufferIO) : s.NoWriter := fun t => (h t).2

omit [DecidableEq T] in
theorem Inv.coherent (h : Inv s) : Coherent s := by
  refine ⟨h.vn.failed, fun hvc => ?_, h.moWrite,
    fun hvc => ⟨(h.vn.kernel.clean (.inr (.inl hvc))).access, h.read hvc⟩⟩
  have hk := h.vn.kernel
  rw [hvc] at hk
  exact hk.idle.1

/-- The other threads are where they were, and this one is where the state lets it be. -/
theorem Inv.set {r : Vnode × Phase} (hv : VnodeOk r.1)
    (hw : r.1.vc = .moWrite ∨ r.1.vc = .moCleaning → s.NoBufferIO ∧ r.2 ≠ .reading ∧ r.2 ≠ .writing)
    (hr : r.1.vc = .read → s.NoWriter ∧ r.2 ≠ .writing) : Inv (s.set t r) := by
  refine ⟨hv, fun hvc => ?_, fun hvc => ?_⟩
  · exact (Function.forall_update_iff s.phase fun _ p => p ≠ .reading ∧ p ≠ .writing).2
      ⟨(hw hvc).2, fun t' _ => (hw hvc).1 t'⟩
  · exact (Function.forall_update_iff s.phase fun _ p => p ≠ .writing).2 ⟨(hr hvc).2,
      fun t' _ => (hr hvc).1 t'⟩

/-- A thread that neither reads nor writes, in a state that the vnode was in before. -/
theorem Inv.goto (h : Inv s) {p : Phase} (hv : VnodeOk v) (hvc : v.vc = s.vn.vc)
    (hread : p ≠ .reading) (hwrite : p ≠ .writing) : Inv (s.set t (v, p)) := by
  refine .set hv (fun hw => ⟨h.moWrite ?_, hread, hwrite⟩) fun hr =>
    ⟨h.read (hvc.symm.trans hr), hwrite⟩
  rwa [← hvc]

theorem Inv.setFree {p : Phase} (hv : VnodeOk v) (hvc : v.vc = .free) : Inv (s.set t (v, p)) := by
  refine .set hv (fun hw => ?_) fun hr => ?_
  · rcases hw with hw | hw <;> cases hvc.symm.trans hw
  · cases hvc.symm.trans hr

theorem Inv.asleep (h : Inv s) (hv : VnodeOk v)
    (hvc : v.vc = .moCleaning ∧ (s.vn.vc = .moWrite ∨ s.vn.vc = .moCleaning) ∨ v.vc = .moFlushing) :
    Inv (s.set t (v, .asleep op)) := by
  rcases hvc with ⟨hclean, hw⟩ | hflush
  · exact .set hv (fun _ => ⟨h.moWrite hw, nofun, nofun⟩) fun hr => nomatch hclean.symm.trans hr
  · refine .set hv (fun hw => ?_) fun hr => nomatch hflush.symm.trans hr
    rcases hw with hw | hw <;> cases hflush.symm.trans hw

theorem Inv.setReading (hv : VnodeOk v) (hvc : v.vc = .read ∨ v.vc = .bufWrite)
    (hr : v.vc = .read → s.NoWriter) : Inv (s.set t (v, .reading)) := by
  refine .set hv (fun hw => ?_) fun hread => ⟨hr hread, nofun⟩
  rcases hvc with hvc | hvc <;> rcases hw with hw | hw <;> cases hvc.symm.trans hw

theorem Inv.setWriting (hv : VnodeOk v) (hvc : v.vc = .bufWrite) : Inv (s.set t (v, .writing)) := by
  refine .set hv (fun hw => ?_) fun hr => nomatch hvc.symm.trans hr
  rcases hw with hw | hw <;> cases hvc.symm.trans hw

theorem Inv.bufRead (h : Inv s) (hc : s.vn.vc = .free → s.NoWriter) :
    Inv (s.set t s.vn.bufRead) := by
  unfold Vnode.bufRead
  split
  · next hvc => exact .setReading h.vn (.inl hvc) h.read
  · next hvc => exact .setReading h.vn (.inr hvc) h.read
  · next hvc => exact .setReading (h.vn.toRead hvc) (.inl rfl) fun _ => hc hvc
  · next hread hbuf hfree =>
    refine h.vn.revokeWriteAndWait (P := fun r => Inv (s.set t r))
      (fun v' hv' hvc => ?_) fun v' => h.asleep
    rcases hvc with ⟨hvc, ht⟩ | ⟨-, hvc | hvc⟩
    · -- the memory object is gone, and what was written through it
      have hw : s.vn.vc = .moWrite := by
        rcases hx : s.vn.vc <;> simp_all [CacheState.transit]
      exact .setReading (hv'.toRead hvc) (.inl rfl) fun _ => (h.moWrite (.inl hw)).noWriter
    · exact absurd hvc hread
    · exact absurd hvc hbuf

/-- The loop in `vn_cache_state_buf_write`. -/
theorem Inv.revokeForWrite (h : Inv s) (hrev : s.vn.Revocable)
    (hidle : s.vn.vc = .free → s.vn.toKernel.Idle) :
    Inv (s.set t (s.vn.revokeReadAndWait .bufWrite Vnode.toBufWrite)) := by
  refine h.vn.revokeReadAndWait (P := fun r => Inv (s.set t r)) hrev (fun v' hv' hvc hor => ?_)
    fun v' hv' hvc => h.asleep hv' (.inr hvc)
  refine .setWriting (hv'.toBufWrite hvc ?_) rfl
  rcases hor with rfl | hor
  · exact hidle hvc
  · exact hor

theorem Inv.bufWrite (h : Inv s) (hc : s.vn.vc ≠ .bufWrite → s.vn.Revocable ∧
    (s.vn.vc = .free → s.vn.toKernel.Idle)) : Inv (s.set t s.vn.bufWrite) := by
  unfold Vnode.bufWrite
  split
  · next hvc => exact .setWriting h.vn hvc
  · next hvc => exact .setWriting (h.vn.toBufWrite hvc ((hc (by rw [hvc]; exact nofun)).2 hvc)) rfl
  · next hbuf _ => exact h.revokeForWrite (hc hbuf).1 (hc hbuf).2

theorem Inv.revokeWriteAndWait (h : Inv s) :
    Inv (s.set t (s.vn.revokeWriteAndWait .revokeWrite fun v => (v, .out))) := by
  refine h.vn.revokeWriteAndWait (P := fun r => Inv (s.set t r))
    (fun v' hv' hvc => ?_) fun v' => h.asleep
  rcases hvc with ⟨hvc, -⟩ | ⟨rfl, -⟩
  · exact .setFree hv' hvc
  · exact h.goto hv' rfl nofun nofun

theorem Inv.revokeWrite (h : Inv s) : Inv (s.set t (s.vn.revokeWrite, .out)) := by
  obtain ⟨hok, ⟨hfree, -⟩ | ⟨-, heq⟩ | ⟨hw, hclean⟩⟩ := h.vn.revokeWrite
  · exact .setFree hok hfree
  · exact h.goto hok (by rw [heq]) nofun nofun
  · exact .set hok (fun _ => ⟨h.moWrite (.inl hw), nofun, nofun⟩) fun hr =>
      nomatch hclean.symm.trans hr

theorem Inv.revokeReadAndWait (h : Inv s) (hrev : s.vn.Revocable) :
    Inv (s.set t (s.vn.revokeReadAndWait .revokeRead fun v => (v, .out))) :=
  h.vn.revokeReadAndWait (P := fun r => Inv (s.set t r)) hrev (fun _ hv' hvc _ => .setFree hv' hvc)
    fun _ hv' hvc => h.asleep hv' (.inr hvc)

theorem Inv.revokeRead (h : Inv s) (hread : s.vn.control ≠ none → s.vn.vc = .read) :
    Inv (s.set t (s.vn.revokeRead, .out)) := by
  obtain ⟨hok, ⟨hfree, -⟩ | hflush⟩ := h.vn.revokeRead hread
  · exact .setFree hok hfree
  · refine .set hok (fun hw => ?_) fun hr => nomatch hflush.symm.trans hr
    rcases hw with hw | hw <;> cases hflush.symm.trans hw

theorem Inv.destroyLoop (h : Inv s) (hv : VnodeOk v) (hrev : v.Revocable) :
    Inv (s.set t (v.revokeReadAndWait .vgone Vnode.destroy)) := by
  refine hv.revokeReadAndWait (P := fun r => Inv (s.set t r)) hrev (fun v' hv' hvc _ => ?_)
    fun v' hv' hvc => h.asleep hv' (.inr hvc)
  obtain ⟨hok, hfree, -⟩ := hv'.destroy hvc
  exact .setFree hok hfree

theorem VnodeOk.grant (h : VnodeOk v) {vc : CacheState} (hk : KernelOk v.toKernel vc)
    (hvc : vc.transit = false)
    {r : Request} (hsend : KernelOk { v.toKernel with requests := v.requests ++ [r] } vc) :
    VnodeOk ({ v with vc := vc }.sendTo c r) := by
  unfold Vnode.sendTo
  split
  · next hc => exact ⟨h.failed, hsend, fun hnone => nomatch hc.symm.trans hnone⟩
  · exact ⟨h.failed, hk, fun hnone => ⟨(h.closed hnone).1, hvc⟩⟩

theorem sendTo_vc {r : Request} : (v.sendTo c r).vc = v.vc := by
  unfold Vnode.sendTo
  split <;> rfl

theorem dataUnlock_write (ht : v.vc.transit = false) (ha : v.alive c = true) :
    v.dataUnlock true c = ({ v with vc := .moWrite }.sendTo c .grantWrite, .out) := by
  unfold Vnode.dataUnlock
  rw [if_neg (by rw [ht]; exact Bool.false_ne_true)]
  exact if_pos ha

theorem dataUnlock_read (ht : v.vc.transit = false) (ha : v.alive c = true) :
    v.dataUnlock false c =
      ({ v with vc := if v.vc = CacheState.moWrite then CacheState.moWrite else .read }.sendTo c
      .grantRead, .out) := by
  unfold Vnode.dataUnlock
  rw [if_neg (by rw [ht]; exact Bool.false_ne_true)]
  rcases hvc : v.vc
  all_goals exact if_pos ha

theorem Inv.unlockRead (h : Inv s) (ht : s.vn.vc.transit = false)
    (hr : s.vn.vc = .free ∨ s.vn.vc = .bufWrite → s.NoWriter) :
    Inv (s.set t ({ s.vn with
      vc := if s.vn.vc = CacheState.moWrite then CacheState.moWrite else .read }.sendTo c
        .grantRead, .out)) := by
  by_cases hvc : s.vn.vc = .moWrite
  · rw [if_pos hvc]
    have hk : KernelOk s.vn.toKernel .moWrite := hvc ▸ h.vn.kernel
    exact h.goto (h.vn.grant hk rfl (hk.send nofun (.inr rfl)))
      (sendTo_vc.trans hvc.symm) nofun nofun
  · rw [if_neg hvc]
    have hsettled : s.vn.vc = .free ∨ s.vn.vc = .read ∨ s.vn.vc = .bufWrite := by
      rcases hx : s.vn.vc <;> simp_all [CacheState.transit]
    have hk : KernelOk s.vn.toKernel .read := h.vn.kernel.clean hsettled
    refine .set (h.vn.grant hk rfl (hk.send nofun (.inr rfl))) (fun hw => ?_) fun _ => ⟨?_, nofun⟩
    · rw [sendTo_vc] at hw
      rcases hw with hw | hw <;> cases hw
    · rcases hsettled with hvc | hvc | hvc
      · exact hr (.inl hvc)
      · exact h.read hvc
      · exact hr (.inr hvc)

theorem Inv.unlockWrite (h : Inv s) (ht : s.vn.vc.transit = false)
    (hw : s.vn.vc ≠ .moWrite → s.NoBufferIO) :
    Inv (s.set t ({ s.vn with vc := .moWrite }.sendTo c .grantWrite, .out)) := by
  have hk := h.vn.kernel.toMoWrite ht
  refine .set (h.vn.grant hk rfl ⟨forall_mem_snoc hk.1 ⟨nofun, nofun⟩, hk.2⟩)
    (fun _ => ⟨?_, nofun, nofun⟩) fun hr => ?_
  · by_cases hvc : s.vn.vc = .moWrite
    · exact h.moWrite (.inl hvc)
    · exact hw hvc
  · rw [sendTo_vc] at hr
    cases hr

theorem Inv.dataUnlock (h : Inv s) (hc : s.vn.vc.transit = false → s.Unlockable write c) :
    Inv (s.set t (s.vn.dataUnlock write c)) := by
  rcases ht : s.vn.vc.transit with _ | _
  · obtain ⟨halive, hw, hr⟩ := hc ht
    rcases write with _ | _
    · rw [dataUnlock_read ht halive]
      exact h.unlockRead ht (hr rfl)
    · rw [dataUnlock_write ht halive]
      exact h.unlockWrite ht (hw rfl)
  · unfold Vnode.dataUnlock
    rw [if_pos ht]
    exact h.goto h.vn rfl nofun nofun

theorem Inv.wake (h : Inv s) (hphase : s.phase t = .asleep op) (hc : (Act.wake t).Careful s) :
    Inv (s.set t (s.vn.wake op)) := by
  unfold Vnode.wake
  split
  · exact h.goto h.vn rfl nofun nofun
  · next ht =>
    have hc := hc (Bool.eq_false_iff.2 ht)
    rw [hphase] at hc
    rcases op with _ | _ | _ | _ | ⟨write, c⟩
    case bufRead => exact h.bufRead hc
    case bufWrite => exact h.revokeForWrite hc.1 hc.2
    case revokeWrite => exact h.revokeWriteAndWait
    case revokeRead => exact h.revokeReadAndWait hc
    case vgone => exact h.destroyLoop h.vn hc
    case dataUnlock => exact h.dataUnlock fun _ => hc

theorem Inv.dataSupply (h : Inv s) {ok : Bool} (ha : s.vn.alive c = true)
    (hvc : ok = true → s.vn.control = some c → s.vn.vc ≠ .bufWrite) :
    Inv (s.set t (s.vn.dataSupply c ok, .out)) := by
  unfold Vnode.dataSupply
  rw [if_pos ha]
  split
  · next hok =>
    refine h.goto ?_ sendTo_vc nofun nofun
    unfold Vnode.sendTo
    split
    · next hcontrol =>
      exact ⟨h.vn.failed, h.vn.kernel.send (hvc hok hcontrol) (.inl rfl),
        fun hnone => nomatch hcontrol.symm.trans hnone⟩
    · exact h.vn
  · exact h.goto h.vn rfl nofun nofun

omit [DecidableEq T] in
/-- A step of the kernel, with a vnode in a state that it was in before. -/
theorem Inv.setVn (h : Inv s) (hv : VnodeOk v) (hvc : v.vc = s.vn.vc) : Inv { s with vn := v } :=
  ⟨hv, fun hw => h.moWrite (by rwa [← hvc]), fun hr => h.read (hvc.symm.trans hr)⟩

omit [DecidableEq T] in
theorem Inv.dataWrite (h : Inv s) (hd : s.vn.dirty = true) (hc : s.vn.control.isSome = true)
    (more : Bool) : Inv { s with vn := s.vn.dataWrite more } := by
  have hvc := h.vn.kernel.dirty hd
  have heq : s.vn.dataWrite more = { s.vn with dirty := more } := if_pos hvc
  rw [heq]
  refine h.setVn ⟨h.vn.failed, h.vn.kernel.setDirty hvc more, fun hnone => ?_⟩ rfl
  rw [hnone] at hc
  cases hc

omit [DecidableEq T] in
/-- A reply is owed in a transition only, and only one. -/
theorem Inv.lockCompleted (h : Inv s) (hc : s.vn.control.isSome = true) (hr : s.vn.replies ≠ 0)
    (hd : s.vn.dirty = false) : Inv { s with vn := s.vn.lockCompleted } := by
  have hopen : ∀ {p : Prop}, s.vn.control = none → p := fun hnone => by rw [hnone] at hc; cases hc
  have hk := h.vn.kernel
  unfold Vnode.lockCompleted
  rcases hvc : s.vn.vc <;> rw [hvc] at hk
  case free | read => exact absurd hk.replies hr
  case bufWrite => exact absurd hk.replies hr
  case moWrite => exact absurd hk.2 hr
  case moCleaning =>
    rcases hk with ⟨_, _, -, -, -, h0⟩ | ⟨hreq, hacc, h1⟩
    · exact absurd h0 hr
    · refine ⟨⟨h.vn.failed, ⟨hacc, hd, hreq, ?_⟩, hopen⟩, nofun,
        fun _ => (h.moWrite (.inr hvc)).noWriter⟩
      exact congrArg (· - 1) h1
  case moFlushing =>
    rcases hk.2.2 with ⟨_, _, -, -, -, h0⟩ | ⟨hreq, hacc, h1⟩
    · exact absurd h0 hr
    · exact ⟨⟨h.vn.failed, ⟨hacc, hd, hreq, congrArg (· - 1) h1⟩, hopen⟩, nofun, nofun⟩

omit [DecidableEq T] in
theorem Inv.handle (h : Inv s) {r : Request} {rs : List Request} (hreq : s.vn.requests = r :: rs) :
    Inv { s with
      vn := { s.vn with toKernel := { s.vn.toKernel with requests := rs }.handle r } } := by
  refine h.setVn ⟨h.vn.failed, h.vn.kernel.handle hreq, fun hnone => ?_⟩ rfl
  exact nomatch (h.vn.closed hnone).1.idle.2.symm.trans hreq

omit [DecidableEq T] in
theorem Inv.soil (h : Inv s) (hw : s.vn.access = .write) :
    Inv { s with vn := { s.vn with dirty := true } } := by
  refine h.setVn ⟨h.vn.failed, h.vn.kernel.setDirty (h.vn.kernel.write hw) true,
    fun hnone => ?_⟩ rfl
  exact nomatch (h.vn.closed hnone).1.idle.1.symm.trans hw

omit [DecidableEq T] in
theorem Inv.giveUp (h : Inv s) {acc : Access} (hacc : acc.rank ≤ s.vn.access.rank) :
    Inv { s with vn := { s.vn with access := acc } } :=
  h.setVn ⟨h.vn.failed, h.vn.kernel.giveUp hacc, fun hnone =>
    ⟨(h.vn.closed hnone).1.giveUp hacc, (h.vn.closed hnone).2⟩⟩ rfl

omit [DecidableEq T] in
theorem Inv.terminate (h : Inv s) : Inv { s with vn := s.vn.terminate } := by
  refine ⟨⟨h.vn.failed, quiet_unused.toClean, fun _ => ⟨quiet_unused, rfl⟩⟩, fun hw => ?_, nofun⟩
  rcases hw with hw | hw <;> cases hw

theorem Inv.act (h : Inv s) (hc : a.Careful s) (hs : FileCache.act s a = some s') : Inv s' := by
  rcases a with t | t | ⟨t, wait⟩ | ⟨t, wait⟩ | t | t | t | _ | _ | t | ⟨t, ok⟩ | ⟨t,
    write⟩ | more | _ | _ | _ | _ |
    acc <;> simp only [FileCache.act] at hs
  case bufRead =>
    obtain ⟨-, ⟨⟩⟩ := Option.ite_none_right_eq_some.1 hs
    exact h.bufRead hc
  case bufWrite =>
    obtain ⟨-, ⟨⟩⟩ := Option.ite_none_right_eq_some.1 hs
    exact h.bufWrite hc
  case revokeWrite =>
    obtain ⟨-, ⟨⟩⟩ := Option.ite_none_right_eq_some.1 hs
    rcases wait with _ | _
    · exact h.revokeWrite
    · exact h.revokeWriteAndWait
  case revokeRead =>
    obtain ⟨-, ⟨⟩⟩ := Option.ite_none_right_eq_some.1 hs
    rcases wait with _ | _
    · exact h.revokeRead fun hopen => (hc.1 hopen).resolve_left (hc.2 rfl hopen)
    · exact h.revokeReadAndWait hc.1
  case vgone =>
    obtain ⟨-, ⟨⟩⟩ := Option.ite_none_right_eq_some.1 hs
    exact h.destroyLoop h.vn.revokeWrite.1 (revocable_revokeWrite hc)
  case wake =>
    split at hs
    · next op hphase =>
      cases hs
      exact h.wake hphase hc
    · cases hs
  case ioDone =>
    obtain ⟨-, ⟨⟩⟩ := Option.ite_none_right_eq_some.1 hs
    exact h.goto h.vn rfl nofun nofun
  case create =>
    obtain ⟨-, ⟨⟩⟩ := Option.ite_none_left_eq_some.1 hs
    exact h.setVn ⟨h.vn.failed, h.vn.kernel, h.vn.closed⟩ rfl
  case init =>
    obtain ⟨-, ⟨⟩⟩ := Option.ite_none_right_eq_some.1 hs
    exact h.setVn ⟨h.vn.failed, h.vn.kernel, nofun⟩ rfl
  case dataRequest =>
    split at hs
    · cases hs
      exact h.goto h.vn rfl nofun nofun
    · cases hs
  case dataSupply =>
    split at hs
    · next c hphase =>
      cases hs
      exact h.dataSupply (hc c hphase).1 (hc c hphase).2
    · cases hs
  case dataUnlock =>
    split at hs
    · next c _ hcontrol =>
      cases hs
      exact h.dataUnlock fun ht => hc ht c hcontrol
    · cases hs
  case dataWrite =>
    obtain ⟨⟨hopen, hd⟩, ⟨⟩⟩ := Option.ite_none_right_eq_some.1 hs
    exact h.dataWrite hd hopen more
  case lockCompleted =>
    obtain ⟨⟨hopen, hr, hd⟩, ⟨⟩⟩ := Option.ite_none_right_eq_some.1 hs
    exact h.lockCompleted hopen hr hd
  case terminate =>
    obtain ⟨-, ⟨⟩⟩ := Option.ite_none_right_eq_some.1 hs
    exact h.terminate
  case handle =>
    split at hs
    · cases hs
    · next r rs hreq =>
      cases hs
      exact h.handle hreq
  case soil =>
    obtain ⟨hw, ⟨⟩⟩ := Option.ite_none_right_eq_some.1 hs
    exact h.soil hw
  case giveUp =>
    obtain ⟨hacc, ⟨⟩⟩ := Option.ite_none_right_eq_some.1 hs
    exact h.giveUp hacc

theorem inv_reach (h : (machine T).Reach (fun s a => a.Careful s) s) : Inv s := by
  refine h.inv ?_ fun s a s' h hc hs => h.act hc (Option.ite_none_left_eq_some.1 hs).2
  rintro _ rfl
  exact ⟨⟨rfl, quiet_unused.toClean, fun _ => ⟨quiet_unused, rfl⟩⟩, fun _ _ => ⟨nofun, nofun⟩,
    fun _ _ => nofun⟩

end Steps

section Transitions

variable {T : Type*} [DecidableEq T] {s s' : State T} {a : Act T} {v : Vnode} {op : Op}
  {k : Vnode → Vnode × Phase}

theorem VnodeOk.revokeWrite_transit (h : VnodeOk v) (ht : v.vc.transit = true) :
    v.revokeWrite = v := by
  unfold Vnode.revokeWrite
  rw [if_neg (h.control ht), if_pos]
  rintro hvc
  rw [hvc] at ht
  cases ht

theorem VnodeOk.revokeRead_transit (h : VnodeOk v) (ht : v.vc.transit = true) :
    v.revokeRead = v.fail := by
  unfold Vnode.revokeRead
  rw [if_neg (h.control ht), if_pos]
  rintro hvc
  rw [hvc] at ht
  cases ht

theorem VnodeOk.revokeWriteAndWait_transit (h : VnodeOk v) (ht : v.vc.transit = true) :
    v.revokeWriteAndWait op k = (v, .asleep op) := by
  unfold Vnode.revokeWriteAndWait
  simp only [h.revokeWrite_transit ht, ht, if_true]
  rw [if_neg]
  rintro (hvc | hvc | hvc) <;> rw [hvc] at ht <;> cases ht

theorem VnodeOk.revokeReadAndWait_transit (h : VnodeOk v) (ht : v.vc.transit = true) :
    v.revokeReadAndWait op k = (v.fail, .out) := by
  unfold Vnode.revokeReadAndWait
  rw [if_neg, h.revokeRead_transit ht]
  · rfl
  · intro hvc
    rw [hvc] at ht
    cases ht

theorem VnodeOk.bufRead_transit (h : VnodeOk v) (ht : v.vc.transit = true) :
    v.bufRead = (v, .asleep .bufRead) := by
  unfold Vnode.bufRead
  split
  · next hvc => rw [hvc] at ht; cases ht
  · next hvc => rw [hvc] at ht; cases ht
  · next hvc => rw [hvc] at ht; cases ht
  · exact h.revokeWriteAndWait_transit ht

theorem VnodeOk.bufWrite_transit (h : VnodeOk v) (ht : v.vc.transit = true) :
    v.bufWrite = (v.fail, .out) := by
  unfold Vnode.bufWrite
  split
  · next hvc => rw [hvc] at ht; cases ht
  · next hvc => rw [hvc] at ht; cases ht
  · exact h.revokeReadAndWait_transit ht

omit [DecidableEq T] in
theorem dataSupply_vc {c : ℕ} {ok : Bool} : (v.dataSupply c ok).vc = v.vc := by
  unfold Vnode.dataSupply
  split
  · split
    · exact sendTo_vc
    · rfl
  · rfl

/-- A transition ends with the reply of the kernel or with the memory object. -/
theorem Inv.transit_kept (h : Inv s) (ht : s.vn.vc.transit = true)
    (hs : FileCache.act s a = some s') (ha : ¬a.Ends) : s'.vn.vc = s.vn.vc := by
  rcases a with t | t | ⟨t, wait⟩ | ⟨t, wait⟩ | t | t | t | _ | _ | t | ⟨t, ok⟩ | ⟨t,
    write⟩ | more | _ | _ | _ | _ |
    acc <;> simp only [FileCache.act] at hs
  case bufRead =>
    obtain ⟨-, ⟨⟩⟩ := Option.ite_none_right_eq_some.1 hs
    rw [h.vn.bufRead_transit ht]
    rfl
  case bufWrite =>
    obtain ⟨-, ⟨⟩⟩ := Option.ite_none_right_eq_some.1 hs
    rw [h.vn.bufWrite_transit ht]
    rfl
  case revokeWrite =>
    obtain ⟨-, ⟨⟩⟩ := Option.ite_none_right_eq_some.1 hs
    rw [h.vn.revokeWriteAndWait_transit ht, h.vn.revokeWrite_transit ht]
    rcases wait with _ | _ <;> rfl
  case revokeRead =>
    obtain ⟨-, ⟨⟩⟩ := Option.ite_none_right_eq_some.1 hs
    rw [h.vn.revokeReadAndWait_transit ht, h.vn.revokeRead_transit ht]
    rcases wait with _ | _ <;> rfl
  case vgone =>
    obtain ⟨-, ⟨⟩⟩ := Option.ite_none_right_eq_some.1 hs
    rw [h.vn.revokeWrite_transit ht, h.vn.revokeReadAndWait_transit ht]
    rfl
  case wake =>
    split at hs
    · next op _ =>
      cases hs
      have hwake : s.vn.wake op = (s.vn, .asleep op) := if_pos ht
      rw [hwake]
      rfl
    · cases hs
  case dataSupply =>
    split at hs
    · cases hs
      exact dataSupply_vc
    · cases hs
  case dataUnlock =>
    split at hs
    · next c _ _ =>
      cases hs
      have hunlock : s.vn.dataUnlock write c = (s.vn, .asleep (.dataUnlock write c)) := if_pos ht
      rw [hunlock]
      rfl
    · cases hs
  case dataWrite =>
    obtain ⟨⟨-, hd⟩, ⟨⟩⟩ := Option.ite_none_right_eq_some.1 hs
    have hwrite : s.vn.dataWrite more = { s.vn with dirty := more } := if_pos (h.vn.kernel.dirty hd)
    rw [hwrite]
  case lockCompleted | terminate => exact absurd trivial ha
  -- the other steps do not touch the state
  all_goals
    split at hs
    all_goals cases hs
    all_goals rfl

/-- The buffers and the pages are coherent in a run in which read access is revoked in `VC_READ`
only, access is given while no buffer input or output is in the way, and the server writes after the
kernel has lost its access; and a transition is left by the reply to its request or with the memory
object. -/
theorem careful_cache_coherent (h : (machine T).Reach (fun s a => a.Careful s) s) :
    Coherent s ∧ ∀ a s', step s a = some s' → s.vn.vc.transit = true → ¬a.Ends →
    s'.vn.vc = s.vn.vc :=
  ⟨(inv_reach h).coherent,
    fun _ _ hs ht => (inv_reach h).transit_kept ht (Option.ite_none_left_eq_some.1 hs).2⟩

end Transitions

/-- A mapped file is written by the kernel, read by the server after the pages were returned, and
then written by the server after they were flushed. -/
theorem careful_cache_coherent_shared :
    ∃ s : State Unit, (s.vn.vc = .bufWrite ∧ s.vn.control = some 0 ∧ s.phase () = .writing) ∧
      Coherent s ∧ ∀ a s', step s a = some s' → s.vn.vc.transit = true → ¬a.Ends →
      s'.vn.vc = s.vn.vc :=
  ⟨_, ⟨rfl, rfl, rfl⟩, careful_cache_coherent <| (Machine.Reach.start rfl
    |>.step .create trivial rfl |>.step .init trivial rfl |>.step (.dataRequest ()) trivial rfl
    |>.step (.dataSupply () true) (fun c hc => ⟨by cases hc; rfl, nofun⟩) rfl
    |>.step .handle trivial rfl
    |>.step (.dataUnlock () true)
      (fun _ c hc => ⟨by cases hc; rfl, fun _ _ _ => ⟨nofun, nofun⟩, nofun⟩) rfl
    |>.step .handle trivial rfl |>.step .soil trivial rfl
    |>.step (.bufRead ()) nofun rfl |>.step .handle trivial rfl
    |>.step (.dataWrite false) trivial rfl |>.step .lockCompleted trivial rfl
    |>.step (.wake ()) (fun _ => nofun) rfl |>.step (.ioDone ()) trivial rfl
    |>.step (.bufWrite ()) (fun _ => ⟨fun _ => .inr rfl, nofun⟩) rfl
    |>.step .handle trivial rfl |>.step .lockCompleted trivial rfl
    |>.step (.wake ()) (by exact fun _ => ⟨fun _ => .inl rfl, fun _ => ⟨rfl, rfl⟩⟩) rfl)⟩

/-- A file that is mapped and written through the mapping is then written by the server:
`vn_pager_revoke_read` finds `VC_MO_WRITE`. -/
theorem mapped_write_asserts : ¬∀ s : State Unit, (machine Unit).Reach Machine.Any s →
    Coherent s := by
  intro h
  obtain ⟨s, hs, hp⟩ := Machine.Reach.exists_run (M := machine Unit) (p := fun s => s.vn.failed) rfl
    (Machine.along_any _ _ [.create, .init, .dataRequest (), .dataSupply () true, .handle,
      .dataUnlock () true, .bufWrite ()]) (by decide)
  exact absurd ((h s hs).failed.symm.trans hp) nofun

end XMach.FileCache
