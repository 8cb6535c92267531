import XMach.Ipc.KmsgBody

/-!
# Where the port slots of a message body are

A pass of `ipc_kmsg_copyin_body` that accepts an item touches the slots `objects[0..number)` at most
(`copyinPorts_slots`), after a check of the item's byte length against the rest of the message, or
after an allocation of that many bytes. The byte length is computed in 32 bits: it covers the slots
unless `number * size + 7` wraps (`byteLength_covers`), and that is the exact condition under which
the walk stays inside the message and the buffers (`copyinBody_bounds_iff`). A port item of
`2 ^ 27` ports has a byte length of zero, so it is accepted at the very end of a message, and its
ports are read, copied in and written past it (`copyinBody_overrun`).
-/

namespace XMach.Ipc

/-- The bytes of the message that an item asks for, in unbounded arithmetic: its data, or the
pointer to it. -/
def Item.claimed (it : Item) : Nat :=
  if it.isInline then roundWord ((it.number * it.size + 7) / 8) else 4

/-- An accepted item's byte count did not wrap; other than for ports a wrap is harmless when the
data is out of line, or fits the message all the same. -/
def Item.NoWrap (it : Item) : Prop :=
  it.taken = true → it.number * it.size + 7 < 4294967296 ∨
    (it.isPort = false ∧ (it.isInline = false ∨ it.claimed ≤ it.room))

variable {σ : Type*} (K : BodyKernel σ) {kmsg : Kmsg} {taddr saddr : Nat} {complex : Bool}
  {s s' : BodyState σ} {code : MachMsgReturn} {it : Item}

/-- The port slots are in bounds, the ports fit the byte length that was checked or allocated, and
an item that asks for more than the rest of the message is refused. -/
structure BodyBounds (kmsg : Kmsg) (o : BodyOutcome σ) : Prop where
  slots : ∀ it ∈ o.items, ∀ a ∈ it.slots, it.base ≤ a ∧ a + 4 ≤ it.limit
  ports : ∀ it ∈ o.items, it.taken = true → it.isPort = true → 4 * it.number ≤ it.length
  tooSmall : ∀ it ∈ o.items, it.room < it.claimed → it.taken = false ∧ o.code = .sendMsgTooSmall
  cleaned : o.code = .sendMsgTooSmall →
    ∃ s taddr, o.st = ipcKmsgCleanPartial K kmsg s taddr false 0

section Arithmetic

theorem byteLength_of_lt {number size : Nat} (h : number * size + 7 < 4294967296) :
    byteLength number size = (number * size + 7) / 8 := by
  rw [byteLength, Nat.mod_eq_of_lt h]

/-- The byte length of `number` ports holds them exactly when the bit count does not wrap. -/
theorem byteLength_covers (number : Nat) :
    4 * number ≤ byteLength number 32 ↔ number * 32 + 7 < 4294967296 := by
  constructor
  · intro h
    unfold byteLength at h
    have := Nat.mod_lt (number * 32 + 7) (by decide : 0 < 4294967296)
    omega
  · intro h
    rw [byteLength_of_lt h]
    omega

theorem le_roundWord (n : Nat) : n ≤ roundWord n := by
  unfold roundWord
  omega

end Arithmetic

section Pass

theorem copyinPorts_slots (dest : Word) (name objects : Nat) :
    ∀ (n i : Nat) (s : BodyState σ), ∀ a ∈ (copyinPorts K dest name objects n i s).slots,
      objects + 4 * i ≤ a ∧ a + 4 ≤ objects + 4 * (i + n)
  | 0, i, s => by simp [copyinPorts]
  | n + 1, i, s => by
    intro a ha
    have ih := copyinPorts_slots dest name objects n (i + 1)
    have hrest : ∀ s', a = objects + 4 * i ∨
        a ∈ (copyinPorts K dest name objects n (i + 1) s').slots →
        objects + 4 * i ≤ a ∧ a + 4 ≤ objects + 4 * (i + (n + 1)) := by
      rintro s' (rfl | ha)
      · omega
      · have := ih s' a ha
        omega
    simp only [copyinPorts] at ha
    split at ha
    · split at ha
      · rw [List.mem_singleton] at ha
        exact hrest s (.inl ha)
      · exact hrest _ (List.mem_cons.1 ha)
    · exact hrest _ (List.mem_cons.1 ha)

/-- What an item that was accepted has passed. -/
structure Item.Accepted (it : Item) : Prop where
  length : it.length = byteLength it.number it.size
  size : it.isPort = true → it.size = 32
  room : (if it.isInline then roundWord it.length else 4) ≤ it.room
  slots : ∃ objects, (∀ a ∈ it.slots, objects ≤ a ∧ a + 4 ≤ objects + 4 * it.number) ∧
    it.base ≤ objects ∧ objects + (if it.isInline then it.room else it.length) = it.limit
  ports : it.isPort = false → it.slots = []

/-- What one that was not has run into. -/
structure Item.Refused (kmsg : Kmsg) (it : Item) (p : Pass σ) : Prop where
  slots : it.slots = []
  stop : ∃ code s taddr, p = .stop code (ipcKmsgCleanPartial K kmsg s taddr false 0) ∧
    (code = .sendMsgTooSmall ∨ it.claimed ≤ it.room)

theorem copyinItemPorts_slots (kmsg : Kmsg) (taddr : Nat) (type : TypeSpec) (objects saddr : Nat)
    (complex : Bool) (s : BodyState σ) :
    (∀ a ∈ (copyinItemPorts K kmsg taddr type objects saddr complex s).1,
      objects ≤ a ∧ a + 4 ≤ objects + 4 * type.number) ∧
      (MachMsgType.portAny type.name = false →
        (copyinItemPorts K kmsg taddr type objects saddr complex s).1 = []) := by
  simp only [copyinItemPorts]
  split
  · next hport =>
    have hslots := copyinPorts_slots K kmsg.msghRemotePort type.name objects type.number 0
      (storeTypeName s taddr type.header.msgtLongform (ipcObjectCopyinType type.name))
    simp only [Nat.mul_zero, Nat.add_zero, Nat.zero_add] at hslots
    split <;> exact ⟨hslots, by simp [hport]⟩
  · simp

/-- The port loop never returns `MACH_SEND_MSG_TOO_SMALL`. -/
theorem copyinItemPorts_code {type : TypeSpec} {objects : Nat}
    (h : (copyinItemPorts K kmsg taddr type objects saddr complex s).2 = .stop code s') :
    code = .sendInvalidRight := by
  simp only [copyinItemPorts] at h
  split at h
  · split at h
    · simp only [Pass.stop.injEq] at h
      exact h.1.symm
    · simp at h
  · simp at h

/-- The cases of one pass: no item, a refused one, or an accepted one. -/
theorem copyinItem_cases (hstart : kmsg.saddr ≤ taddr) (complex : Bool) (s : BodyState σ) :
    ((copyinItem K kmsg taddr complex s).1 = none ∧ ∃ code s',
        (copyinItem K kmsg taddr complex s).2
          = .stop code (ipcKmsgCleanPartial K kmsg s' taddr false 0)) ∨
      (∃ it, (copyinItem K kmsg taddr complex s).1 = some it ∧ it.taken = false ∧
        it.Refused K kmsg (copyinItem K kmsg taddr complex s).2) ∨
      ∃ it, (copyinItem K kmsg taddr complex s).1 = some it ∧ it.taken = true ∧ it.Accepted ∧
        ∀ code s', (copyinItem K kmsg taddr complex s).2 = .stop code s' →
          code = .sendInvalidRight := by
  have hsaddr := readType_saddr s.mem taddr
  simp only [copyinItem]
  split
  · exact .inl ⟨rfl, _, _, rfl⟩
  · next hfit =>
    split
    · exact .inl ⟨rfl, _, _, rfl⟩
    · next hvalid =>
      have hsize : MachMsgType.portAny (readType s.mem taddr).name = true →
          (readType s.mem taddr).size = 32 := by
        intro hport
        simp only [invalidType, hport, Bool.true_and, Bool.or_eq_true, not_or] at hvalid
        simpa using hvalid.1.1.1
      have hend : (readType s.mem taddr).saddr ≤ kmsg.eaddr := by
        simp only [readType] at hsaddr ⊢
        split at hsaddr <;> simp_all <;> omega
      split
      · next hin =>
        split
        · exact .inr (.inl ⟨_, rfl, rfl, rfl, _, _, _, rfl, .inl rfl⟩)
        · next hroom =>
          obtain ⟨hslots, hnil⟩ := copyinItemPorts_slots K kmsg taddr (readType s.mem taddr)
            (readType s.mem taddr).saddr _ complex s
          refine .inr (.inr ⟨_, rfl, rfl, ⟨rfl, hsize, ?_, ⟨_, hslots, ?_, ?_⟩, hnil⟩, ?_⟩)
          · simpa [hin] using hroom
          · simp only
            omega
          · simp only [hin, if_true]
            omega
          · exact fun _ _ => copyinItemPorts_code K
      · next hout =>
        split
        · exact .inr (.inl ⟨_, rfl, rfl, rfl, _, _, _, rfl, .inl rfl⟩)
        · next hroom =>
          split
          · refine .inr (.inl ⟨_, rfl, rfl, rfl, _, _, _, rfl, .inr ?_⟩)
            simpa [Item.claimed, hout] using hroom
          · next data s' _ =>
            obtain ⟨hslots, hnil⟩ := copyinItemPorts_slots K kmsg taddr (readType s.mem taddr)
              data.toNat _ true (s'.store (readType s.mem taddr).saddr data)
            refine .inr (.inr ⟨_, rfl, rfl, ⟨rfl, hsize, ?_, ⟨_, hslots, le_rfl, ?_⟩, hnil⟩, ?_⟩)
            · simpa [hout] using hroom
            · simp [hout]
            · exact fun _ _ => copyinItemPorts_code K

/-- An accepted item is in bounds exactly when its byte count did not wrap harmfully. -/
theorem Item.Accepted.noWrap_iff (h : it.Accepted) (ht : it.taken = true) :
    it.NoWrap ↔ (∀ a ∈ it.slots, it.base ≤ a ∧ a + 4 ≤ it.limit) ∧
      (it.isPort = true → 4 * it.number ≤ it.length) ∧ it.claimed ≤ it.room := by
  have hport : it.isPort = true →
      (4 * it.number ≤ it.length ↔ it.number * it.size + 7 < 4294967296) := by
    intro hp
    rw [h.length, h.size hp]
    exact byteLength_covers it.number
  constructor
  · intro hw
    obtain ⟨objects, hslots, hbase, hlimit⟩ := h.slots
    have hroom := h.room
    rcases hw ht with hlt | ⟨hp, hfit⟩
    · have hlen : it.length = (it.number * it.size + 7) / 8 := by
        rw [h.length, byteLength_of_lt hlt]
      have hcl : it.claimed ≤ it.room := by
        rw [Item.claimed, ← hlen]
        exact hroom
      refine ⟨fun a ha => ?_, fun hp => (hport hp).2 hlt, hcl⟩
      have ha' := hslots a ha
      have hp : it.isPort = true := by
        by_contra hp
        simp [h.ports (by simpa using hp)] at ha
      have hcover := (hport hp).2 hlt
      have hle : it.length ≤ if it.isInline then it.room else it.length := by
        split_ifs with hin
        · exact (le_roundWord it.length).trans (by simpa [hin] using hroom)
        · exact le_rfl
      generalize (if it.isInline then it.room else it.length) = w at hlimit hle
      omega
    · refine ⟨by simp [h.ports hp], by simp [hp], ?_⟩
      rcases hfit with hout | hfit
      · simpa [Item.claimed, hout] using hroom
      · exact hfit
  · rintro ⟨-, hports, hfit⟩ -
    rcases hp : it.isPort with _ | _
    · exact .inr ⟨rfl, .inr hfit⟩
    · exact .inl ((hport hp).1 (hports hp))

end Pass

section Loop

/-- The clauses of `BodyBounds` when an accepted item comes before the others. -/
theorem bodyBounds_cons (h : it.Accepted) (ht : it.taken = true) {o : BodyOutcome σ}
    (ho : BodyBounds K kmsg o ↔ ∀ i ∈ o.items, i.NoWrap) :
    BodyBounds K kmsg { o with items := it :: o.items } ↔ ∀ i ∈ it :: o.items, i.NoWrap := by
  rw [List.forall_mem_cons, h.noWrap_iff ht, ← ho]
  constructor
  · intro hb
    refine ⟨⟨hb.slots it List.mem_cons_self, hb.ports it List.mem_cons_self ht, ?_⟩, ?_⟩
    · by_contra hlt
      have := (hb.tooSmall it List.mem_cons_self (not_le.1 hlt)).1
      simp [ht] at this
    · exact ⟨fun i hi => hb.slots i (List.mem_cons_of_mem _ hi),
        fun i hi => hb.ports i (List.mem_cons_of_mem _ hi),
        fun i hi => hb.tooSmall i (List.mem_cons_of_mem _ hi), hb.cleaned⟩
  · rintro ⟨⟨hslots, hports, hfit⟩, hb⟩
    refine ⟨?_, ?_, ?_, hb.cleaned⟩
    · exact List.forall_mem_cons.2 ⟨hslots, hb.slots⟩
    · exact List.forall_mem_cons.2 ⟨fun _ => hports, hb.ports⟩
    · exact List.forall_mem_cons.2 ⟨fun hlt => absurd hfit (not_le.2 hlt), hb.tooSmall⟩

theorem copyinBodyLoop_bounds (kmsg : Kmsg) (saddr : Nat) (complex : Bool) (s : BodyState σ) :
    kmsg.saddr ≤ saddr → (BodyBounds K kmsg (copyinBodyLoop K kmsg saddr complex s) ↔
      ∀ it ∈ (copyinBodyLoop K kmsg saddr complex s).items, it.NoWrap) := by
  fun_induction copyinBodyLoop K kmsg saddr complex s with
  | case1 saddr complex s hlt item code s' hstop =>
    intro hstart
    rcases copyinItem_cases K hstart complex s with
      ⟨hn, code', s'', hp⟩ | ⟨it, hi, ht, hr⟩ | ⟨it, hi, ht, ha, hcode⟩
    · simp only [item, hn, Option.toList_none]
      rw [hp, Pass.stop.injEq] at hstop
      exact ⟨by simp, fun _ => ⟨by simp, by simp, by simp, fun _ => ⟨_, _, hstop.2.symm⟩⟩⟩
    · obtain ⟨code', s'', taddr, hp, hclaim⟩ := hr.stop
      rw [hp, Pass.stop.injEq] at hstop
      obtain ⟨rfl, rfl⟩ := hstop
      simp only [item, hi, Option.toList_some, List.mem_singleton, forall_eq]
      refine ⟨fun _ h => by simp [ht] at h, fun _ => ⟨?_, ?_, ?_, fun _ => ⟨_, _, rfl⟩⟩⟩
      · simp [hr.slots]
      · simp [ht]
      · simp only [List.mem_singleton, forall_eq]
        intro hlt'
        exact ⟨ht, hclaim.resolve_right (not_le.2 hlt')⟩
    · simp only [item, hi, Option.toList_some]
      have hc := hcode code s' hstop
      refine bodyBounds_cons K ha ht (o := ⟨code, s', []⟩) ⟨by simp, fun _ => ?_⟩
      exact ⟨by simp, by simp, by simp, by simp [hc]⟩
  | case2 saddr complex s hlt item saddr' complex' s' hnext hadv rest ih =>
    intro hstart
    rcases copyinItem_cases K hstart complex s with
      ⟨hn, code', s'', hp⟩ | ⟨it, hi, ht, hr⟩ | ⟨it, hi, ht, ha, hcode⟩
    · simp [hp] at hnext
    · obtain ⟨code', s'', taddr, hp, -⟩ := hr.stop
      simp [hp] at hnext
    · simp only [item, hi, Option.toList_some, List.singleton_append]
      exact bodyBounds_cons K ha ht (ih (by omega))
  | case3 saddr complex s hend =>
    exact fun _ => ⟨by simp, fun _ => ⟨by simp, by simp, by simp, by simp⟩⟩

/-- The walk over a message's body stays inside the message and the buffers allocated for it, and
refuses what does not fit, exactly when no accepted item's bit count wraps. -/
theorem copyinBody_bounds_iff (kmsg : Kmsg) (s : BodyState σ) :
    BodyBounds K kmsg (ipcKmsgCopyinBody K kmsg s) ↔
      ∀ it ∈ (ipcKmsgCopyinBody K kmsg s).items, it.NoWrap :=
  copyinBodyLoop_bounds K kmsg kmsg.saddr false s le_rfl

/-- A kernel that copies in as many rights as its state says. -/
def countingKernel : BodyKernel Nat where
  ipcObjectCopyin k _ _ := if k = 0 then (none, k) else (some 0x5000, k - 1)
  ipcPortCheckCircularity k _ _ := (false, k)
  ipcObjectDestroy k _ _ := k
  kalloc k _ := (0, k)
  kfree k _ _ := k
  copyinmap k _ _ := (none, k)
  vmDeallocate k _ _ := (false, k)
  vmMapCopyin k _ _ _ := (none, k)
  vmMapCopyinPageList k _ _ _ _ := (none, k)
  vmMapCopyDiscard k _ := k

/-- A message that ends with a long-form descriptor of `2 ^ 27` in-line ports of type
`MACH_MSG_TYPE_COPY_SEND`; the memory after it holds other data. -/
def wrappingKmsg : Kmsg := ⟨0, 36, 0x4000, 0, false, false⟩

def wrappingMem (a : Nat) : Word :=
  if a = 24 then 0x30000000 else if a = 28 then 0x00200013 else if a = 32 then 0x08000000
  else 0x107

theorem copyinBodyLoop_stop (hlt : saddr < kmsg.eaddr)
    (h : (copyinItem K kmsg saddr complex s).2 = .stop code s') :
    copyinBodyLoop K kmsg saddr complex s
      = ⟨code, s', (copyinItem K kmsg saddr complex s).1.toList⟩ := by
  rw [copyinBodyLoop, if_pos hlt]
  split
  · next hstop =>
    obtain ⟨rfl, rfl⟩ := Pass.stop.inj (hstop.symm.trans h)
    rfl
  · next hnext => simp [hnext] at h

/-- The walk accepts the descriptor, reads the word after the message as a port name and replaces it
by a right. -/
theorem copyinBody_overrun :
    ¬ BodyBounds countingKernel wrappingKmsg
        (ipcKmsgCopyinBody countingKernel wrappingKmsg ⟨wrappingMem, 1, 0⟩) ∧
      wrappingKmsg.eaddr = 36 ∧
      (ipcKmsgCopyinBody countingKernel wrappingKmsg ⟨wrappingMem, 1, 0⟩).code
        = .sendInvalidRight ∧
      (ipcKmsgCopyinBody countingKernel wrappingKmsg ⟨wrappingMem, 1, 0⟩).st.mem 36 = 0x5000 := by
  have hpass : (copyinItem countingKernel wrappingKmsg 24 false ⟨wrappingMem, 1, 0⟩).2
      = .stop .sendInvalidRight (ipcKmsgCleanPartial countingKernel wrappingKmsg
        (copyinPorts countingKernel 0x4000 19 36 134217728 0
          (storeTypeName ⟨wrappingMem, 1, 0⟩ 24 true 17)).st 24 true 1) := by rfl
  have hrun := copyinBodyLoop_stop countingKernel (by decide : 24 < wrappingKmsg.eaddr) hpass
  have hitems : (ipcKmsgCopyinBody countingKernel wrappingKmsg ⟨wrappingMem, 1, 0⟩).items
      = [⟨true, true, 134217728, 32, 0, 0, true, 24, 36, [36, 40]⟩] := congrArg _ hrun
  refine ⟨fun h => ?_, rfl, congrArg _ hrun, congrArg (fun o => o.st.mem 36) hrun⟩
  have hslot := h.slots _ (by rw [hitems]; exact List.mem_singleton_self _) 36 (by decide)
  simp at hslot

end Loop

end XMach.Ipc
