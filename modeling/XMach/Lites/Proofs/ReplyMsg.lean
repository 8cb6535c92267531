import XMach.Lites.ReplyMsg

/-!
# The emulator makes the writes that the server has asked for

A message is a list of descriptors and at most one that is still open (`Holds`). Output goes to the
end of the open descriptor, or closes it and opens another one; the bytes of the closed descriptors
stay where they are, in the message and in the pages out of line, and the emulator reads them from
there in their order (`scan_encoded`).
-/

namespace XMach.ReplyMsg

open Bytes

section Pages

theorem mem_pagesOf {addr size p : ℕ} :
    p ∈ pagesOf addr size ↔ 0 < size ∧ addr / 4096 ≤ p ∧ p < (addr + size + 4095) / 4096 := by
  unfold pagesOf
  by_cases h : size = 0
  · simp [h]
  · rw [if_neg h, List.mem_range'_1]
    omega

theorem pagesOf_zero (addr : ℕ) : pagesOf addr 0 = [] := rfl

theorem nodup_pagesOf (addr size : ℕ) : (pagesOf addr size).Nodup := by
  unfold pagesOf
  split
  · exact List.nodup_nil
  · exact List.nodup_range'

theorem page_mem_pagesOf {addr size i : ℕ} (h : addr ≤ i) (hi : i < addr + size) :
    i / 4096 ∈ pagesOf addr size := by
  rw [mem_pagesOf]
  omega

theorem pagesOf_subset {addr addr' size size' : ℕ} (h : addr ≤ addr')
    (hend : addr' + size' ≤ addr + size) : ∀ p ∈ pagesOf addr' size', p ∈ pagesOf addr size := by
  intro p hp
  rw [mem_pagesOf] at hp ⊢
  omega

/-- The pages of a region are those that are used and those that are trimmed. -/
theorem pagesOf_trim {addr number total : ℕ} (halign : addr % 4096 = 0) (hpos : 0 < number)
    (hle : number ≤ total) (hlt : total < 0x80000000) :
    pagesOf addr total =
      pagesOf addr number ++ pagesOf (addr + roundPage number) (total - roundPage number) := by
  have hround : roundPage number = (number + 4095) / 4096 * 4096 := by
    unfold roundPage
    rw [Nat.mod_eq_of_lt (by omega)]
  by_cases hall : total ≤ roundPage number
  · rw [Nat.sub_eq_zero_of_le hall, pagesOf_zero, List.append_nil]
    unfold pagesOf
    rw [if_neg (by omega), if_neg (by omega)]
    congr 1
    omega
  · unfold pagesOf
    rw [if_neg (by omega), if_neg (by omega), if_neg (by omega)]
    have hnext : (addr + roundPage number) / 4096 =
        addr / 4096 + 1 * ((addr + number + 4095) / 4096 - addr / 4096) := by
      omega
    rw [hnext, List.range'_append]
    congr 1
    omega

end Pages

section Writes

theorem userWrites_append (addr : ℕ) (bs cs : List Byte) :
    userWrites addr (bs ++ cs) = userWrites addr bs ++ userWrites (addr + bs.length) cs := by
  induction bs generalizing addr with
  | nil => rfl
  | cons b bs ih =>
    rw [List.cons_append, userWrites, userWrites, ih, List.cons_append, List.length_cons,
      show addr + 1 + bs.length = addr + (bs.length + 1) by omega]

theorem userWrites_mod (addr : ℕ) (bs : List Byte) :
    userWrites (addr % 0x100000000) bs = userWrites addr bs := by
  induction bs generalizing addr with
  | nil => rfl
  | cons b bs ih =>
    rw [userWrites, userWrites, ← ih (addr % 0x100000000 + 1), ← ih (addr + 1), Nat.mod_mod,
      Nat.mod_add_mod]

end Writes

section Descriptors

/-- A descriptor: the address in the user, the address of the data if it is out of line, and the
data. -/
structure Desc where
  addr : ℕ
  ool : Option ℕ
  bytes : List Byte

namespace Desc

/-- The bytes that it takes in the message. -/
def len (d : Desc) : ℕ :=
  match d.ool with
  | none => 20 + (d.bytes.length + 3) / 4 * 4
  | some _ => 24

/-- The pages out of line of its first bytes. -/
def region (d : Desc) (n : ℕ) : List ℕ :=
  match d.ool with
  | none => []
  | some data => pagesOf data n

def pages (d : Desc) : List ℕ := d.region d.bytes.length

def writes (d : Desc) : List (ℕ × Byte) := userWrites d.addr d.bytes

/-- It stands at a place of the message. -/
structure At (d : Desc) (msg mem : ℕ → Byte) (off : ℕ) : Prop where
  addr : get32 msg (off + 4) = d.addr
  number : get32 msg (off + 16) = d.bytes.length
  inline : d.ool = none → get32 msg (off + 8) = dataTypeInline ∧
    read msg (off + 20) d.bytes.length = d.bytes
  ooline : ∀ data, d.ool = some data →
    get32 msg (off + 8) = dataTypeOoline ∧ get32 msg (off + 20) = data ∧
    read mem data d.bytes.length = d.bytes

variable {d : Desc} {msg msg' mem mem' : ℕ → Byte} {off : ℕ}

theorem len_of_none (h : d.ool = none) : d.len = 20 + (d.bytes.length + 3) / 4 * 4 := by
  unfold len
  rw [h]

theorem len_of_some {data : ℕ} (h : d.ool = some data) : d.len = 24 := by
  unfold len
  rw [h]

theorem region_of_none (h : d.ool = none) (n : ℕ) : d.region n = [] := by
  unfold region
  rw [h]

theorem region_of_some {data : ℕ} (h : d.ool = some data) (n : ℕ) :
    d.region n = pagesOf data n := by
  unfold region
  rw [h]

theorem len_ge (d : Desc) : 20 ≤ d.len := by
  unfold len
  split <;> omega

theorem At.congr (h : d.At msg mem off) (hmsg : ∀ i, off ≤ i → i < off + d.len → msg' i = msg i)
    (hmem : ∀ i, i / 4096 ∈ d.pages → mem' i = mem i) : d.At msg' mem' off := by
  have hlen := d.len_ge
  have hword : ∀ k, k + 4 ≤ 20 → get32 msg' (off + k) = get32 msg (off + k) := fun k hk =>
    get32_congr fun i hi hi' => hmsg i (by omega) (by omega)
  refine ⟨by rw [hword 4 (by omega), h.addr], by rw [hword 16 (by omega), h.number],
    fun hnone => ?_, fun data hsome => ?_⟩
  · obtain ⟨htype, hread⟩ := h.inline hnone
    rw [len_of_none hnone] at hmsg
    refine ⟨by rw [hword 8 (by omega), htype], ?_⟩
    rw [read_congr fun i hi hi' => hmsg i (by omega) (by omega), hread]
  · obtain ⟨htype, hdata, hread⟩ := h.ooline data hsome
    rw [len_of_some hsome] at hmsg
    refine ⟨by rw [hword 8 (by omega), htype], ?_, ?_⟩
    · rw [get32_congr fun i hi hi' => hmsg i (by omega) (by omega), hdata]
    · rw [read_congr fun i hi hi' => hmem i ?_, hread]
      rw [pages, region_of_some hsome]
      exact page_mem_pagesOf hi hi'

end Desc

/-- The descriptors stand one behind the other. -/
def Encoded (msg mem : ℕ → Byte) : ℕ → List Desc → ℕ → Prop
  | off, [], stop => off = stop
  | off, d :: ds, stop => d.At msg mem off ∧ Encoded msg mem (off + d.len) ds stop

variable {msg msg' mem mem' : ℕ → Byte} {off stop : ℕ} {ds : List Desc} {d : Desc}

theorem Encoded.le (h : Encoded msg mem off ds stop) : off ≤ stop := by
  induction ds generalizing off with
  | nil => exact Nat.le_of_eq h
  | cons d ds ih =>
    have := ih h.2
    omega

theorem Encoded.congr (h : Encoded msg mem off ds stop) (hmsg : ∀ i, i < stop → msg' i = msg i)
    (hmem : ∀ i, i / 4096 ∈ ds.flatMap Desc.pages → mem' i = mem i) :
    Encoded msg' mem' off ds stop := by
  induction ds generalizing off with
  | nil => exact h
  | cons d ds ih =>
    have hle := h.2.le
    refine ⟨h.1.congr (fun i _ hi => hmsg i (by omega)) fun i hi => hmem i ?_,
      ih h.2 fun i hi => hmem i ?_⟩
    · exact List.mem_flatMap.mpr ⟨d, List.mem_cons_self, hi⟩
    · rw [List.flatMap_cons]
      exact List.mem_append_right _ hi

theorem Encoded.snoc (h : Encoded msg mem off ds stop) (hd : d.At msg mem stop) :
    Encoded msg mem off (ds ++ [d]) (stop + d.len) := by
  induction ds generalizing off with
  | nil =>
    obtain rfl : off = stop := h
    exact ⟨hd, rfl⟩
  | cons c ds ih => exact ⟨h.1, ih h.2⟩

end Descriptors

section Scan

variable {msg mem : ℕ → Byte} {stop : ℕ} {ds : List Desc}

def Desc.freed (d : Desc) : List (ℕ × ℕ) :=
  match d.ool with
  | none => []
  | some data => [(data, d.bytes.length)]

/-- The emulator makes the writes of the descriptors, deallocates what is out of line, and comes to
the end. -/
theorem scan_encoded (r : Scan) (h : Encoded msg mem r.start ds stop) (halign : r.start % 4 = 0)
    {turns : ℕ} (hturns : ds.length < turns) :
    scan msg mem stop turns r =
      some ⟨r.writes ++ ds.flatMap Desc.writes, r.freed ++ ds.flatMap Desc.freed, stop⟩ := by
  induction ds generalizing r turns with
  | nil =>
    obtain ⟨turns, rfl⟩ : ∃ k, turns = k + 1 :=
      ⟨turns - 1, by rw [List.length_nil] at hturns; omega⟩
    obtain ⟨writes, freed, start⟩ := r
    obtain rfl : start = stop := h
    simp [scan]
  | cons d ds ih =>
    obtain ⟨turns, rfl⟩ : ∃ k, turns = k + 1 := ⟨turns - 1, by omega⟩
    obtain ⟨hd, hrest⟩ := h
    have hle := hrest.le
    have hlen := d.len_ge
    unfold scan
    rw [if_pos (by omega), if_neg (by omega)]
    dsimp only
    rw [hd.addr]
    cases hool : d.ool with
    | none =>
      obtain ⟨htype, hread⟩ := hd.inline hool
      rw [Desc.len_of_none hool] at hrest
      have hnext : (r.start + 8 + 12 + d.bytes.length + 3) / 4 * 4 =
        r.start + (20 + (d.bytes.length + 3) / 4 * 4) := by
        omega
      rw [htype, show msgtLongform dataTypeInline = true from rfl,
        show msgtInline dataTypeInline = true from rfl,
        if_pos rfl, if_pos rfl, if_pos rfl, hd.number, hread, hnext]
      rw [ih _ hrest (by dsimp only; omega) (by rw [List.length_cons] at hturns; omega)]
      simp [Desc.writes, Desc.freed, hool]
    | some data =>
      obtain ⟨htype, hdata, hread⟩ := hd.ooline data hool
      rw [Desc.len_of_some hool] at hrest
      rw [htype, show msgtLongform dataTypeOoline = true from rfl,
        show msgtInline dataTypeOoline = false from rfl,
        if_pos rfl, if_pos rfl, if_neg Bool.false_ne_true, hd.number]
      rw [show r.start + 8 + 12 = r.start + 20 from rfl, hdata, hread]
      rw [ih _ hrest (by dsimp only; omega) (by rw [List.length_cons] at hturns; omega)]
      simp [Desc.writes, Desc.freed, hool]

end Scan

section Open

variable {s t : State} {ds : List Desc} {op : Option Desc} {d : Desc}

/-- The descriptor at the end of the message, with the space that is reserved for it. -/
structure Opened (s : State) (d : Desc) : Prop where
  stands : d.At s.msg s.mem s.size
  le : d.bytes.length ≤ s.current
  pos : 0 < s.current
  lt : s.current < 0x80000000
  room : s.size + 24 ≤ 8192
  inline : d.ool = none → s.size + s.current ≤ bsdRepSizeMax
  ooline : ∀ data, d.ool = some data → data % 4096 = 0 ∧ data + s.current ≤ 0x100000000

/-- The pages that the reply needs. -/
def needed (s : State) (ds : List Desc) (op : Option Desc) : List ℕ :=
  ds.flatMap Desc.pages ++ op.elim [] fun d => d.region s.current

/-- A message of closed descriptors, and perhaps an open one. -/
structure Holds (s : State) (ds : List Desc) (op : Option Desc) : Prop where
  encoded : Encoded s.msg s.mem sizeofBsdReply ds s.size
  bound : s.size ≤ 8192
  opened : ∀ d, op = some d → Opened s d
  closed : op = none → s.current = 0
  live : ∀ p, s.live p = true ↔ p ∈ needed s ds op
  nodup : (needed s ds op).Nodup
  strayed : s.strayed = false
  misfreed : s.misfreed = false
  complex : ∀ d ∈ ds, d.ool ≠ none → s.complex = true

theorem Opened.ddInline (h : Opened s d) : s.ddInline = d.ool.isNone := by
  unfold State.ddInline
  cases hool : d.ool with
  | none => rw [(h.stands.inline hool).1]; rfl
  | some data => rw [(h.stands.ooline data hool).1]; rfl

theorem Opened.ddNumber (h : Opened s d) : s.ddNumber = d.bytes.length := h.stands.number

theorem Opened.ddAddr (h : Opened s d) : s.ddAddr = d.addr := h.stands.addr

theorem Opened.ddData (h : Opened s d) {data : ℕ} (hool : d.ool = some data) : s.ddData = data :=
  (h.stands.ooline data hool).2.1

theorem vmDeallocate_zero (s : State) (addr : ℕ) : s.vmDeallocate addr 0 = s := by
  simp [State.vmDeallocate, pagesOf_zero]

theorem finishDataDesc_inline (h : Opened s d) (hne : d.bytes ≠ []) (hool : d.ool = none) :
    s.finishDataDesc = { s with size := s.size + d.len, current := 0 } := by
  have hpos := List.length_pos_iff.mpr hne
  have hroom := h.inline hool
  have hle := h.le
  unfold bsdRepSizeMax sizeofBsdReply sizeofDataDesc at hroom
  have hsize :
      (s.size + (d.bytes.length + 3) % 0x100000000 / 4 * 4 + (sizeofDataDesc - 4)) % 0x100000000 =
      s.size + d.len := by
    rw [Desc.len_of_none hool]
    unfold sizeofDataDesc
    omega
  unfold State.finishDataDesc
  rw [h.ddInline, hool, h.ddNumber]
  dsimp only
  rw [Option.isNone_none, if_pos rfl, if_pos hpos]
  unfold State.incrMsgSize
  rw [hsize]

theorem finishDataDesc_ooline (h : Opened s d) (hne : d.bytes ≠ []) {data : ℕ}
    (hool : d.ool = some data) :
    s.finishDataDesc =
      { s.vmDeallocate (data + roundPage d.bytes.length) (s.current - roundPage d.bytes.length) with
        size := s.size + d.len, current := 0, complex := true } := by
  have hpos := List.length_pos_iff.mpr hne
  have hroom := h.room
  have hle := h.le
  have hlt := h.lt
  obtain ⟨-, hend⟩ := h.ooline data hool
  unfold State.finishDataDesc
  rw [h.ddInline, hool, h.ddNumber, h.ddData hool]
  rw [Option.isNone_some, if_neg Bool.false_ne_true, Desc.len_of_some hool]
  have htrim : (if roundPage d.bytes.length < s.current then
        s.vmDeallocate ((data + roundPage d.bytes.length) % 0x100000000)
          (s.current - roundPage d.bytes.length)
      else s) =
      s.vmDeallocate (data + roundPage d.bytes.length) (s.current - roundPage d.bytes.length) := by
    split
    · rw [Nat.mod_eq_of_lt (by omega)]
    · rw [Nat.sub_eq_zero_of_le (by omega), vmDeallocate_zero]
  dsimp only
  rw [htrim, if_pos hpos]
  unfold State.incrMsgSize State.vmDeallocate sizeofDataDesc
  dsimp only
  rw [Nat.mod_eq_of_lt (by omega)]

theorem Holds.finish (h : Holds s ds (some d)) (hne : d.bytes ≠ []) :
    Holds s.finishDataDesc (ds ++ [d]) none := by
  have hopen := h.opened d rfl
  have hpos := List.length_pos_iff.mpr hne
  have hroom := hopen.room
  cases hool : d.ool with
  | none =>
    have hmax := hopen.inline hool
    have hle := hopen.le
    have hlen := Desc.len_of_none hool
    have hneeded : needed { s with size := s.size + d.len, current := 0 }
      (ds ++ [d]) none = needed s ds (some d) := by
      simp [needed, Desc.pages, Desc.region_of_none hool]
    rw [finishDataDesc_inline hopen hne hool]
    unfold bsdRepSizeMax sizeofBsdReply sizeofDataDesc at hmax
    refine ⟨h.encoded.snoc hopen.stands, by dsimp only; omega, by rintro _ ⟨⟩, fun _ => rfl, ?_, ?_,
      h.strayed, h.misfreed, fun e he hout => ?_⟩
    · rw [hneeded]
      exact h.live
    · rw [hneeded]
      exact h.nodup
    · rcases List.mem_append.mp he with he | he
      · exact h.complex e he hout
      · rw [List.mem_singleton.mp he] at hout
        exact absurd hool hout
  | some data =>
    obtain ⟨halign, -⟩ := hopen.ooline data hool
    have hlen := Desc.len_of_some hool
    -- the pages of the region are those of the data, and the rest, which is trimmed
    generalize hrest : pagesOf (data + roundPage d.bytes.length)
      (s.current - roundPage d.bytes.length) = rest
    have hneeded : needed s ds (some d) = (ds ++ [d]).flatMap Desc.pages ++ rest := by
      simp [needed, Desc.pages, Desc.region_of_some hool,
        pagesOf_trim halign hpos hopen.le hopen.lt, hrest]
    have hlive := h.live
    have hnodup := h.nodup
    rw [hneeded] at hlive hnodup
    obtain ⟨hkept, -, hdisjoint⟩ := List.nodup_append.mp hnodup
    rw [finishDataDesc_ooline hopen hne hool]
    unfold State.vmDeallocate
    rw [hrest]
    refine ⟨h.encoded.snoc hopen.stands, by dsimp only; omega, by rintro _ ⟨⟩, fun _ => rfl,
      fun p => ?_, ?_, h.strayed, ?_, fun _ _ _ => rfl⟩
    · simp only [needed, Option.elim_none, List.append_nil, Bool.and_eq_true, hlive p,
        List.mem_append, Bool.not_eq_true', List.contains_eq_mem, decide_eq_false_iff_not]
      constructor
      · rintro ⟨hp | hp, hnot⟩
        · exact hp
        · exact absurd hp hnot
      · intro hp
        exact ⟨.inl hp, fun hr => hdisjoint p hp p hr rfl⟩
    · simpa [needed] using hkept
    · rw [h.misfreed, Bool.false_or, List.any_eq_false]
      intro p hp
      simp [(hlive p).mpr (List.mem_append_right _ hp)]

theorem setDesc_spec (s : State) {userAddr type number : ℕ} (haddr : userAddr < 0x100000000)
    (htype : type < 0x100000000) (hnumber : number < 0x100000000) :
    get32 (s.setDesc userAddr type number).msg (s.size + 4) = userAddr ∧
      get32 (s.setDesc userAddr type number).msg (s.size + 8) = type ∧
      get32 (s.setDesc userAddr type number).msg (s.size + 16) = number ∧
      ∀ i, i < s.size → (s.setDesc userAddr type number).msg i = s.msg i := by
  unfold State.setDesc
  refine ⟨?_, ?_, ?_, fun i hi => ?_⟩
  · rw [get32_put32_of_lt (by omega), get32_put32_of_lt (by omega), get32_put32_of_lt (by omega),
      get32_put32_self _ _ haddr]
  · rw [get32_put32_of_lt (by omega), get32_put32_of_lt (by omega), get32_put32_self _ _ htype]
  · exact get32_put32_self _ _ hnumber
  · dsimp only
    rw [put32_of_lt (by omega), put32_of_lt (by omega), put32_of_lt (by omega),
      put32_of_lt (by omega), put32_of_lt (by omega)]

theorem setData_spec (s : State) {userAddr data : ℕ} {bytes : List Byte}
    (haddr : userAddr < 0x100000000)
    (hdata : data < 0x100000000) (hlen : bytes.length < 0x100000000)
    (hread : read s.mem data bytes.length = bytes) : (⟨userAddr, some data, bytes⟩ : Desc).At
        ((s.setDesc userAddr dataTypeOoline bytes.length).setData data).msg s.mem s.size ∧
      ∀ i, i < s.size → ((s.setDesc userAddr dataTypeOoline bytes.length).setData data).msg i =
      s.msg i := by
  obtain ⟨haddr', htype, hnumber, hframe⟩ :=
    setDesc_spec s haddr (by decide : dataTypeOoline < 0x100000000) hlen
  unfold State.setData
  refine ⟨⟨?_, ?_, by rintro ⟨⟩, ?_⟩, fun i hi => ?_⟩
  · exact (get32_put32_of_lt (by dsimp only [State.setDesc]; omega)).trans haddr'
  · exact (get32_put32_of_lt (by dsimp only [State.setDesc]; omega)).trans hnumber
  · rintro _ ⟨⟩
    refine ⟨(get32_put32_of_lt (by dsimp only [State.setDesc]; omega)).trans htype, ?_, hread⟩
    exact get32_put32_self _ _ hdata
  · exact (put32_of_lt (by dsimp only [State.setDesc]; omega)).trans (hframe i hi)

/-- A region that `vm_allocate` returns: whole pages that the reply does not have. -/
structure Fresh (s : State) (addr : BitVec 32) (size : ℕ) : Prop where
  aligned : addr.toNat % 4096 = 0
  fits : addr.toNat + size ≤ 0x100000000
  free : ∀ p ∈ pagesOf addr.toNat size, s.live p = false

theorem Holds.newDesc_inline (h : Holds s ds none) {userAddr size : ℕ}
    (haddr : userAddr < 0x100000000)
    (hpos : 0 < size) (hroom : s.size + 24 ≤ 8192) (hmax : s.size + size ≤ bsdRepSizeMax) :
    Holds { s.setDesc userAddr dataTypeInline 0 with
      current := size } ds (some ⟨userAddr, none, []⟩) := by
  obtain ⟨haddr', htype, hnumber, hframe⟩ :=
    setDesc_spec s haddr (by decide : dataTypeInline < 0x100000000)
    (by decide : 0 < 0x100000000)
  have hneeded : needed { s.setDesc userAddr dataTypeInline 0 with current := size } ds
      (some ⟨userAddr, none, []⟩) = needed s ds none := rfl
  unfold bsdRepSizeMax sizeofBsdReply sizeofDataDesc at hmax
  refine ⟨h.encoded.congr hframe fun _ _ => rfl, h.bound, ?_, by rintro ⟨⟩, ?_, ?_, h.strayed,
    h.misfreed, h.complex⟩
  · rintro _ ⟨⟩
    refine ⟨⟨haddr', hnumber, fun _ => ⟨htype, rfl⟩, by rintro _ ⟨⟩⟩, Nat.zero_le _, hpos, ?_,
      hroom, fun _ => ?_, by rintro _ ⟨⟩⟩
    · dsimp only
      omega
    · exact hmax
  · rw [hneeded]
    exact h.live
  · rw [hneeded]
    exact h.nodup

theorem Holds.newDesc_ooline (h : Holds s ds none) {userAddr total : ℕ} {addr : BitVec 32}
    (haddr : userAddr < 0x100000000) (hpos : 0 < total) (hlt : total < 0x80000000)
    (hroom : s.size + 24 ≤ 8192) (hfresh : Fresh s addr total) :
    Holds { ((s.vmAllocate total (.success addr)).1.setDesc userAddr dataTypeOoline 0).setData
    addr.toNat with
      current := total } ds (some ⟨userAddr, some addr.toNat, []⟩) := by
  obtain ⟨hstands, hframe⟩ := setData_spec (s.vmAllocate total (.success addr)).1 haddr addr.isLt
    (by decide : ([] : List Byte).length < 0x100000000) rfl
  have hneeded : ∀ t : State, t.current = total →
      needed t ds (some ⟨userAddr, some addr.toNat, []⟩) =
      needed s ds none ++ pagesOf addr.toNat total :=
    fun t ht => by simp [needed, Desc.region, ht]
  refine ⟨h.encoded.congr hframe fun _ _ => rfl, h.bound, ?_, by rintro ⟨⟩, fun p => ?_, ?_,
    h.strayed, h.misfreed, h.complex⟩
  · rintro _ ⟨⟩
    refine ⟨hstands, Nat.zero_le _, hpos, hlt, hroom, by rintro ⟨⟩, ?_⟩
    rintro _ ⟨⟩
    exact ⟨hfresh.aligned, hfresh.fits⟩
  · rw [hneeded _ rfl, List.mem_append, ← h.live p]
    simp [State.setData, State.setDesc, State.vmAllocate]
  · rw [hneeded _ rfl, List.nodup_append]
    refine ⟨h.nodup, nodup_pagesOf _ _, ?_⟩
    rintro p hp _ hq rfl
    have hlive := (h.live p).mpr hp
    rw [hfresh.free p hq] at hlive
    cases hlive

/-- Bytes are copied behind the data of the open descriptor, in the message. -/
theorem Holds.fill_inline (h : Holds s ds (some d)) (hool : d.ool = none) {bs : List Byte}
    (hne : bs ≠ []) (hfits : d.bytes.length + bs.length ≤ s.current) :
    Holds ((s.bcopy bs (.msg (s.size + 20 + d.bytes.length))).extendCurrentOutput bs.length) ds
      (some { d with bytes := d.bytes ++ bs }) := by
  have hopen := h.opened d rfl
  have hmax := hopen.inline hool
  have hpos := List.length_pos_iff.mpr hne
  unfold bsdRepSizeMax sizeofBsdReply sizeofDataDesc at hmax
  have hinside : s.inside bs.length (.msg (s.size + 20 + d.bytes.length)) = true := by
    simp only [State.inside, decide_eq_true_eq]
    omega
  have hnumber : get32 (write s.msg (s.size + 20 + d.bytes.length) bs)
    (s.size + 16) = d.bytes.length := by
    rw [get32_congr fun i hi hi' => write_of_lt (by omega)]
    exact hopen.ddNumber
  have hframe : ∀ i, i < s.size → put32 (write s.msg (s.size + 20 + d.bytes.length) bs)
    (s.size + 16)
      (d.bytes.length + bs.length) i = s.msg i := fun i hi => by
    rw [put32_of_lt (by omega), write_of_lt (by omega)]
  have heq : (s.bcopy bs (.msg (s.size + 20 + d.bytes.length))).extendCurrentOutput bs.length =
      { s with
        msg := put32 (write s.msg (s.size + 20 + d.bytes.length) bs) (s.size + 16)
          (d.bytes.length + bs.length) } := by
    unfold State.bcopy State.extendCurrentOutput State.ddNumber
    dsimp only
    rw [if_pos (by omega), hinside, hnumber, Nat.mod_eq_of_lt (by omega)]
    simp
  obtain ⟨htype, hread⟩ := hopen.stands.inline hool
  have hstands :
      ({ d with
         bytes := d.bytes ++ bs } : Desc).At (put32 (write s.msg (s.size + 20 + d.bytes.length) bs)
      (s.size + 16) (d.bytes.length + bs.length)) s.mem s.size := by
    refine ⟨?_, ?_, fun _ => ⟨?_, ?_⟩, fun data hdata => ?_⟩
    · rw [get32_put32_of_lt (by omega), get32_congr fun i hi hi' => write_of_lt (by omega)]
      exact hopen.stands.addr
    · rw [get32_put32_self _ _ (by omega), List.length_append]
    · rw [get32_put32_of_lt (by omega), get32_congr fun i hi hi' => write_of_lt (by omega)]
      exact htype
    · rw [read_congr fun i hi hi' => put32_of_ge (by omega), List.length_append, read_add,
        read_write, read_congr fun i hi hi' => write_of_lt (by omega), hread]
    · exact absurd (hool.symm.trans hdata) (by rintro ⟨⟩)
  rw [heq]
  refine ⟨h.encoded.congr hframe fun _ _ => rfl, h.bound, ?_, by rintro ⟨⟩, h.live, h.nodup,
    h.strayed, h.misfreed, h.complex⟩
  rintro _ ⟨⟩
  refine ⟨hstands, ?_, hopen.pos, hopen.lt, hopen.room, hopen.inline, hopen.ooline⟩
  rw [List.length_append]
  exact hfits

/-- Bytes are copied behind the data of the open descriptor, out of line. -/
theorem Holds.fill_ooline (h : Holds s ds (some d)) {data : ℕ} (hool : d.ool = some data)
    {bs : List Byte} (hne : bs ≠ []) (hfits : d.bytes.length + bs.length ≤ s.current) :
    Holds ((s.bcopy bs (.mem (data + d.bytes.length))).extendCurrentOutput bs.length) ds
      (some { d with bytes := d.bytes ++ bs }) := by
  have hopen := h.opened d rfl
  have hlt := hopen.lt
  have hpos := List.length_pos_iff.mpr hne
  have hregion : ∀ p ∈ pagesOf data s.current, p ∈ needed s ds (some d) := fun p hp => by
    unfold needed
    rw [Option.elim_some, Desc.region_of_some hool]
    exact List.mem_append_right _ hp
  have hinside : s.inside bs.length (.mem (data + d.bytes.length)) = true := by
    simp only [State.inside, hopen.ddData hool, decide_eq_true_eq, List.all_eq_true]
    refine ⟨by omega, by omega, fun p hp => (h.live p).mpr (hregion p ?_)⟩
    exact pagesOf_subset (by omega) (by omega) p hp
  have hframe : ∀ i, i < s.size → put32 s.msg (s.size + 16)
    (d.bytes.length + bs.length) i = s.msg i := fun i hi =>
    put32_of_lt (by omega)
  have hmem : ∀ i, i / 4096 ∈ ds.flatMap Desc.pages →
    write s.mem (data + d.bytes.length) bs i = s.mem i := by
    intro i hi
    have hdisjoint := (List.nodup_append.mp h.nodup).2.2
    rw [Option.elim_some, Desc.region_of_some hool] at hdisjoint
    rcases Nat.lt_or_ge i (data + d.bytes.length) with hlow | hlow
    · exact write_of_lt hlow
    · rcases Nat.lt_or_ge i (data + d.bytes.length + bs.length) with hhigh | hhigh
      · exact absurd rfl (hdisjoint _ hi _ (page_mem_pagesOf (by omega) (by omega)))
      · exact write_of_ge hhigh
  have heq : (s.bcopy bs (.mem (data + d.bytes.length))).extendCurrentOutput bs.length =
      { s with msg := put32 s.msg (s.size + 16) (d.bytes.length + bs.length)
               mem := write s.mem (data + d.bytes.length) bs } := by
    have hnumber := hopen.ddNumber
    unfold State.ddNumber at hnumber
    unfold State.bcopy State.extendCurrentOutput State.ddNumber
    dsimp only
    rw [if_pos (by omega), hinside, hnumber, Nat.mod_eq_of_lt (by omega)]
    simp
  obtain ⟨htype, hdata, hread⟩ := hopen.stands.ooline data hool
  have hstands :
    ({ d with
       bytes := d.bytes ++ bs } : Desc).At (put32 s.msg (s.size + 16) (d.bytes.length + bs.length))
      (write s.mem (data + d.bytes.length) bs) s.size := by
    refine ⟨?_, ?_, fun hnone => ?_, fun data' hdata' => ?_⟩
    · rw [get32_put32_of_lt (by omega)]
      exact hopen.stands.addr
    · rw [get32_put32_self _ _ (by omega), List.length_append]
    · exact absurd (hool.symm.trans hnone) (by rintro ⟨⟩)
    · obtain rfl := Option.some.inj (hool.symm.trans hdata')
      refine ⟨by rw [get32_put32_of_lt (by omega), htype], by rw [get32_put32_of_ge (by omega),
        hdata], ?_⟩
      rw [List.length_append, read_add, read_write,
        read_congr fun i hi hi' => write_of_lt (by omega), hread]
  rw [heq]
  refine ⟨h.encoded.congr hframe hmem, h.bound, ?_, by rintro ⟨⟩, h.live, h.nodup, h.strayed,
    h.misfreed, h.complex⟩
  rintro _ ⟨⟩
  refine ⟨hstands, ?_, hopen.pos, hopen.lt, hopen.room, hopen.inline, hopen.ooline⟩
  rw [List.length_append]
  exact hfits

end Open

section Runs

variable {s t : State} {ds : List Desc} {w : List (ℕ × Byte)}

def Op.writes : Op → List (ℕ × Byte)
  | .output o => userWrites o.addr.toNat o.bytes
  | .moveout _ addr bytes => userWrites addr.toNat bytes

/-- Sizes are less than 2 GB, and `vm_allocate` does not fail where the memory is needed; a region
that is moved out is not one of the reply yet. -/
def Good (s : State) : Op × Alloc → Prop
  | (.output o, alloc) => o.totalSize < 0x80000000 ∧
    (o.size ≠ 0 → s.reuses o.addr.toNat o.size = false → s.finishReplyMsg.outOfLine o.size = true →
      ∃ addr, alloc = .success addr ∧ Fresh s.finishReplyMsg addr o.totalSize)
  | (.moveout data _ bytes, _) => bytes.length < 0x80000000 ∧
    data.toNat + bytes.length ≤ 0x100000000 ∧
    ∀ p ∈ pagesOf data.toNat bytes.length, s.finishReplyMsg.live p = false

/-- The message holds the writes that have been asked for. -/
def Inv (s : State) (w : List (ℕ × Byte)) : Prop :=
  ∃ ds op, Holds s ds op ∧ (∀ d, op = some d → d.bytes ≠ []) ∧
    w = (ds ++ op.toList).flatMap Desc.writes

theorem Inv.finish (h : Inv s w) : ∃ ds, Holds s.finishReplyMsg ds none ∧
    w = ds.flatMap Desc.writes := by
  obtain ⟨ds, op, hholds, hne, rfl⟩ := h
  unfold State.finishReplyMsg
  cases op with
  | none =>
    rw [if_neg (by rw [hholds.closed rfl]; exact fun h => h rfl)]
    exact ⟨ds, hholds, by simp⟩
  | some d =>
    rw [if_pos (Nat.ne_of_gt (hholds.opened d rfl).pos)]
    exact ⟨ds ++ [d], hholds.finish (hne d rfl), rfl⟩

theorem Inv.reuse (h : Inv s w) (o : Output) (hsize : o.size ≠ 0)
    (hsmall : o.totalSize < 0x80000000)
    (hreuse : s.reuses o.addr.toNat o.size = true) (alloc : Alloc) :
    ∃ t, output s o alloc = some t ∧ Inv t (w ++ userWrites o.addr.toNat o.bytes) := by
  obtain ⟨ds, op, hholds, hne, rfl⟩ := h
  have hle := o.le_size
  have hle' := o.le_totalSize
  have hdecide := of_decide_eq_true hreuse
  cases op with
  | none => exact absurd (hholds.closed rfl) hdecide.1
  | some d =>
    have hopen := hholds.opened d rfl
    have hlen := hopen.le
    have hlt := hopen.lt
    obtain ⟨-, haddr, hfits⟩ := hdecide
    rw [hopen.ddNumber, hopen.ddAddr] at haddr
    rw [hopen.ddNumber, Nat.mod_eq_of_lt (by omega)] at hfits
    have hwrites : (ds ++ (some d).toList).flatMap Desc.writes ++ userWrites o.addr.toNat o.bytes =
        (ds ++ (some { d with bytes := d.bytes ++ o.bytes }).toList).flatMap Desc.writes := by
      simp [Desc.writes, userWrites_append, haddr, userWrites_mod]
    have hnil : ∀ c, some { d with bytes := d.bytes ++ o.bytes } = some c → c.bytes ≠ [] := by
      rintro _ ⟨⟩
      exact List.append_ne_nil_of_right_ne_nil _ (o.ne_nil hsize)
    unfold output State.extendReplyMsg
    rw [if_neg hsize, if_pos hreuse, hopen.ddInline, hopen.ddNumber]
    cases hool : d.ool with
    | none => exact ⟨_, rfl, ds, _, hholds.fill_inline hool (o.ne_nil hsize) (by omega), hnil,
        hwrites⟩
    | some data =>
      obtain ⟨-, hend⟩ := hopen.ooline data hool
      rw [hopen.ddData hool, Nat.mod_eq_of_lt (by omega)]
      exact ⟨_, rfl, ds, _, hholds.fill_ooline hool (o.ne_nil hsize) (by omega), hnil, hwrites⟩

theorem output_new (h : Holds s ds none) (o : Output) (hsize : o.size ≠ 0)
    (hsmall : o.totalSize < 0x80000000)
    {alloc : Alloc} (halloc : s.outOfLine o.size = true → ∃ addr, alloc = .success addr ∧
    Fresh s addr o.totalSize) (hs : (s.newDesc o.addr.toNat o.size o.totalSize alloc).map (fun r =>
      (r.1.bcopy o.bytes r.2).extendCurrentOutput o.bytes.length) = some t) :
    Inv t (ds.flatMap Desc.writes ++ userWrites o.addr.toNat o.bytes) := by
  have hle := o.le_size
  have hle' := o.le_totalSize
  have hbound := h.bound
  have hwrites : ∀ ool, ds.flatMap Desc.writes ++ userWrites o.addr.toNat o.bytes =
      (ds ++ (some (⟨o.addr.toNat, ool, o.bytes⟩ : Desc)).toList).flatMap Desc.writes :=
      fun ool => by
    simp [Desc.writes]
  have hnil : ∀ ool c, some (⟨o.addr.toNat, ool, o.bytes⟩ : Desc) = some c → c.bytes ≠ [] := by
    rintro ool _ ⟨⟩
    exact o.ne_nil hsize
  unfold State.newDesc at hs
  split at hs
  · cases hs
  · next hroom =>
    have hroom' : s.size + 24 ≤ 8192 := by
      unfold sizeofDataDesc at hroom
      omega
    split at hs
    · next hout =>
      obtain ⟨addr, rfl, hfresh⟩ := halloc hout
      cases hs
      have hnew := h.newDesc_ooline o.addr.isLt (by omega) hsmall hroom' hfresh
      exact ⟨ds, _, hnew.fill_ooline rfl (o.ne_nil hsize) (by dsimp only; simp; omega), hnil _,
        hwrites _⟩
    · next hin =>
      cases hs
      have hmax : s.size + o.size ≤ bsdRepSizeMax := by
        unfold State.outOfLine at hin
        simp only [decide_eq_true_eq] at hin
        omega
      have hnew := h.newDesc_inline o.addr.isLt (Nat.pos_of_ne_zero hsize) hroom' hmax
      exact ⟨ds, _, hnew.fill_inline rfl (o.ne_nil hsize) (by dsimp only; simp; omega), hnil _,
        hwrites _⟩

theorem Holds.moveout (h : Holds s ds none) {data addr : BitVec 32} {bytes : List Byte}
    (hlen : bytes.length < 0x80000000) (hfree : ∀ p ∈ pagesOf data.toNat bytes.length,
    s.live p = false) (hroom : s.size + 24 ≤ 8192) {u : State} (hu : u = { s with
      mem := write s.mem data.toNat bytes
      live := fun p => s.live p || (pagesOf data.toNat bytes.length).contains p }) :
    Holds { ((u.setDesc addr.toNat dataTypeOoline bytes.length).setData data.toNat).incrMsgSize 4
      with complex := true } (ds ++ [⟨addr.toNat, some data.toNat, bytes⟩]) none := by
  have hsize : u.size = s.size := by rw [hu]
  obtain ⟨hstands, hframe⟩ :=
    setData_spec u addr.isLt data.isLt (by omega : bytes.length < 0x100000000)
    (by rw [hu]; exact read_write _ _ _)
  rw [hsize] at hstands hframe
  have hmem : ∀ i, i / 4096 ∈ ds.flatMap Desc.pages → u.mem i = s.mem i := by
    intro i hi
    rw [hu]
    dsimp only
    rcases Nat.lt_or_ge i data.toNat with hlow | hlow
    · exact write_of_lt hlow
    · rcases Nat.lt_or_ge i (data.toNat + bytes.length) with hhigh | hhigh
      · have hlive := (h.live _).mpr (List.mem_append_left _ hi)
        rw [hfree _ (page_mem_pagesOf hlow hhigh)] at hlive
        cases hlive
      · exact write_of_ge hhigh
  have hneeded : ∀ t : State, needed t (ds ++ [⟨addr.toNat, some data.toNat, bytes⟩]) none =
      needed s ds none ++ pagesOf data.toNat bytes.length := fun t => by
    simp [needed, Desc.pages, Desc.region]
  have hnext : (u.size + (4 + 3) % 0x100000000 / 4 * 4 + (sizeofDataDesc - 4)) % 0x100000000 =
    s.size + 24 := by
    rw [hsize]
    unfold sizeofDataDesc
    omega
  have hencoded :=
    (h.encoded.congr (fun i hi => (hframe i hi).trans (by rw [hu])) hmem).snoc hstands
  unfold State.incrMsgSize
  refine ⟨?_, ?_, by rintro _ ⟨⟩, fun _ => ?_, fun p => ?_, ?_, ?_, ?_, fun _ _ _ => rfl⟩
  · dsimp only [State.setData, State.setDesc]
    rw [hnext]
    exact hencoded
  · dsimp only [State.setData, State.setDesc]
    rw [hnext]
    exact hroom
  · rw [hu]
    exact h.closed rfl
  · rw [hneeded, List.mem_append, ← h.live p, hu]
    simp [State.setData, State.setDesc]
  · rw [hneeded, List.nodup_append]
    refine ⟨h.nodup, nodup_pagesOf _ _, ?_⟩
    rintro p hp _ hq rfl
    have hlive := (h.live p).mpr hp
    rw [hfree p hq] at hlive
    cases hlive
  · rw [hu]
    exact h.strayed
  · rw [hu]
    exact h.misfreed

theorem Inv.step (h : Inv s w) {a : Op × Alloc} (hgood : Good s a) (hs : step s a = some t) :
    Inv t (w ++ a.1.writes) := by
  obtain ⟨op, alloc⟩ := a
  cases op with
  | output o =>
    obtain ⟨hsmall, halloc⟩ := hgood
    unfold ReplyMsg.step at hs
    by_cases hsize : o.size = 0
    · have hnil : o.bytes = [] := List.length_eq_zero_iff.mp (by have := o.le_size; omega)
      have hsame : t = s := by
        simp only [output, State.extendReplyMsg, if_pos hsize, hnil, State.bcopy,
          State.extendCurrentOutput, write_nil] at hs
        simpa using hs.symm
      simpa [hsame, Op.writes, hnil, userWrites] using h
    · cases hreuse : s.reuses o.addr.toNat o.size with
      | true =>
        obtain ⟨t', heq, hinv⟩ := h.reuse o hsize hsmall hreuse alloc
        obtain rfl := Option.some.inj (heq.symm.trans hs)
        exact hinv
      | false =>
        obtain ⟨ds, hholds, rfl⟩ := h.finish
        refine output_new hholds o hsize hsmall (halloc hsize hreuse) ?_
        rw [← hs]
        unfold output State.extendReplyMsg
        dsimp only
        rw [if_neg hsize, if_neg (by rw [hreuse]; exact Bool.false_ne_true)]
        cases s.finishReplyMsg.newDesc o.addr.toNat o.size o.totalSize alloc <;> rfl
  | moveout data addr bytes =>
    obtain ⟨hlen, -, hfree⟩ := hgood
    obtain ⟨ds, hholds, rfl⟩ := h.finish
    unfold ReplyMsg.step ReplyMsg.moveout at hs
    dsimp only at hs
    split at hs
    · cases hs
    · next hroom =>
      cases hs
      have hbound := hholds.bound
      refine ⟨ds ++ [⟨addr.toNat, some data.toNat, bytes⟩], none,
        hholds.moveout hlen hfree ?_ rfl, by rintro _ ⟨⟩, ?_⟩
      · unfold sizeofDataDesc at hroom
        omega
      · simp [Op.writes, Desc.writes]

theorem Inv.run (h : Inv s w) {acts : List (Op × Alloc)} (hgood : machine.Along Good s acts)
    (hs : machine.run s acts = some t) : Inv t (w ++ (acts.map Prod.fst).flatMap Op.writes) := by
  induction acts generalizing s w with
  | nil =>
    cases hs
    simpa using h
  | cons a acts ih =>
    obtain ⟨u, hstep, hrest⟩ := Option.bind_eq_some_iff.mp hs
    have := ih (h.step hgood.1 hstep) (hgood.2 u hstep) hrest
    rwa [List.map_cons, List.flatMap_cons, ← List.append_assoc]

theorem inv_start (h : machine.start s) : Inv s [] := by
  obtain ⟨hsize, hcurrent, hlive, hstrayed, hmisfreed⟩ := h
  refine ⟨[], none, ⟨hsize.symm, ?_, by rintro _ ⟨⟩, fun _ => hcurrent, fun p => ?_, List.nodup_nil,
    hstrayed, hmisfreed, by rintro _ ⟨⟩⟩, by rintro _ ⟨⟩, rfl⟩
  · rw [hsize]
    decide
  · rw [hlive]
    exact iff_of_false Bool.false_ne_true List.not_mem_nil

end Runs

section RoundTrip

/-- The bytes of vectors in the user. -/
def addresses (iov : Iov) : List ℕ :=
  iov.flatMap fun v => (List.range v.2.toNat).map fun i => (v.1.toNat + i) % 0x100000000

/-- The writes that a call asks for. -/
def Call.writes : Call → List (ℕ × Byte)
  | .copyout bytes addr => userWrites addr.toNat bytes
  | .uiomove bytes iov => (addresses iov).zip bytes
  | .ureadc c iov => (addresses iov).zip [c]
  | .moveout _ addr bytes => userWrites addr.toNat bytes

theorem zip_range (addr n : ℕ) (bytes : List Byte) :
    ((List.range n).map fun i => (addr + i) % 0x100000000).zip bytes =
    userWrites addr (bytes.take n) := by
  induction n generalizing addr bytes with
  | zero => simp [userWrites]
  | succ n ih =>
    cases bytes with
    | nil => simp [userWrites]
    | cons b bytes =>
      rw [List.range_succ_eq_map, List.map_cons, List.zip_cons_cons, List.take_succ_cons,
        userWrites, ← ih, List.map_map]
      congr 3
      funext i
      rw [Function.comp_apply, Nat.succ_eq_add_one, show addr + (i + 1) = addr + 1 + i by omega]

theorem zip_append_take {α β : Type*} (xs ys : List α) (zs : List β) :
    (xs ++ ys).zip zs = xs.zip zs ++ ys.zip (zs.drop xs.length) := by
  induction xs generalizing zs with
  | nil => rfl
  | cons x xs ih =>
    cases zs with
    | nil => simp
    | cons z zs => rw [List.cons_append, List.zip_cons_cons, ih]; rfl

theorem writes_uiomove (bytes : List Byte) (iov : Iov) :
    (uiomove bytes iov).flatMap (fun o => userWrites o.addr.toNat o.bytes) =
    (addresses iov).zip bytes := by
  induction iov generalizing bytes with
  | nil => cases bytes <;> rfl
  | cons v iov ih =>
    obtain ⟨base, len⟩ := v
    have hcons : addresses ((base, len) :: iov) =
        ((List.range len.toNat).map fun i => (base.toNat + i) % 0x100000000) ++ addresses iov := rfl
    rw [hcons, zip_append_take, zip_range, List.length_map, List.length_range]
    cases bytes with
    | nil => simp [uiomove, userWrites]
    | cons b bytes =>
      unfold uiomove
      split
      · next hzero =>
        rw [ih, hzero]
        rfl
      · rw [List.flatMap_cons, ih]

theorem writes_ureadc {c : Byte} {iov : Iov} {o : Output} (h : ureadc c iov = some o) :
    userWrites o.addr.toNat o.bytes = (addresses iov).zip [c] := by
  induction iov with
  | nil => cases h
  | cons v iov ih =>
    obtain ⟨base, len⟩ := v
    have hcons : addresses ((base, len) :: iov) =
        ((List.range len.toNat).map fun i => (base.toNat + i) % 0x100000000) ++ addresses iov := rfl
    rw [hcons, zip_append_take, zip_range, List.length_map, List.length_range]
    unfold ureadc at h
    split at h
    · next hzero =>
      rw [ih h, hzero]
      rfl
    · next hpos =>
      cases h
      rw [List.take_of_length_le (by simp; omega), List.drop_of_length_le (by simp; omega)]
      simp

theorem writes_ops {call : Call} {l : List Op} (h : ops call = some l) :
    l.flatMap Op.writes = call.writes := by
  cases call with
  | copyout bytes addr =>
    cases h
    simp [Op.writes, Call.writes, copyout]
  | uiomove bytes iov =>
    cases h
    rw [List.flatMap_map]
    exact writes_uiomove bytes iov
  | ureadc c iov =>
    obtain ⟨o, ho, rfl⟩ := Option.map_eq_some_iff.mp h
    rw [List.flatMap_cons, List.flatMap_nil, List.append_nil]
    exact writes_ureadc ho
  | moveout data addr bytes =>
    cases h
    simp [Op.writes, Call.writes]

theorem writes_calls {calls : List Call} {l : List (List Op)} (h : calls.mapM ops = some l) :
    l.flatten.flatMap Op.writes = calls.flatMap Call.writes := by
  induction calls generalizing l with
  | nil =>
    cases h
    rfl
  | cons call calls ih =>
    rw [List.mapM_cons] at h
    obtain ⟨l₁, h₁, h⟩ := Option.bind_eq_some_iff.mp h
    obtain ⟨l₂, h₂, h⟩ := Option.bind_eq_some_iff.mp h
    cases h
    rw [List.flatten_cons, List.flatMap_append, writes_ops h₁, ih h₂, List.flatMap_cons]

/-- The server has kept to the message and to its pages. -/
structure Kept (s : State) : Prop where
  size : s.size ≤ 8192
  strayed : s.strayed = false
  misfreed : s.misfreed = false

theorem Inv.kept {s : State} {w : List (ℕ × Byte)} (h : Inv s w) : Kept s := by
  obtain ⟨ds, op, hholds, -⟩ := h
  exact ⟨hholds.bound, hholds.strayed, hholds.misfreed⟩

/-- The emulator makes the writes in their order and comes to the end of the message; it
deallocates the pages that the server has not, each once. A message with regions out of line is
marked complex. -/
structure Right (s : State) (w : List (ℕ × Byte)) : Prop where
  kept : Kept s
  scanned : ∃ turns freed, scan s.msg s.mem s.size turns ⟨[], [], sizeofBsdReply⟩ =
    some ⟨w, freed, s.size⟩ ∧ (freed.flatMap fun r => pagesOf r.1 r.2).Nodup ∧
    (∀ p, s.live p = true ↔ p ∈ freed.flatMap fun r => pagesOf r.1 r.2) ∧
    (freed ≠ [] → s.complex = true)

theorem flatMap_freed (ds : List Desc) :
    (ds.flatMap Desc.freed).flatMap (fun r => pagesOf r.1 r.2) = ds.flatMap Desc.pages := by
  rw [List.flatMap_assoc]
  congr 1
  funext d
  unfold Desc.freed Desc.pages Desc.region
  cases d.ool <;> simp

theorem Inv.right {s : State} {w : List (ℕ × Byte)} (h : Inv s w) : Right s.finishReplyMsg w := by
  obtain ⟨ds, hholds, rfl⟩ := h.finish
  have hneeded : needed s.finishReplyMsg ds none = ds.flatMap Desc.pages := by simp [needed]
  refine ⟨⟨hholds.bound, hholds.strayed, hholds.misfreed⟩, ds.length + 1, ds.flatMap Desc.freed, ?_,
    ?_, ?_, fun hne => ?_⟩
  · rw [scan_encoded ⟨[], [], sizeofBsdReply⟩ hholds.encoded rfl (Nat.lt_succ_self _)]
    rfl
  · rw [flatMap_freed, ← hneeded]
    exact hholds.nodup
  · rw [flatMap_freed, ← hneeded]
    exact hholds.live
  · obtain ⟨r, hr⟩ := List.exists_mem_of_ne_nil _ hne
    obtain ⟨d, hd, hr⟩ := List.mem_flatMap.mp hr
    refine hholds.complex d hd fun hnone => ?_
    unfold Desc.freed at hr
    rw [hnone] at hr
    cases hr

/-- Every reply is right if its sizes are less than 2 GB and `vm_allocate` does not fail. -/
theorem reply_right {s : State} (hstart : machine.start s) {calls : List Call} {l : List (List Op)}
    (hops : calls.mapM ops = some l) {acts : List (Op × Alloc)}
    (hacts : acts.map Prod.fst = l.flatten) (hgood : machine.Along Good s acts) :
    (∀ acts' t, acts' <+: acts → machine.run s acts' = some t → Kept t) ∧
      ∀ t, machine.run s acts = some t → Right t.finishReplyMsg (calls.flatMap Call.writes) := by
  refine ⟨fun acts' t hpre hrun => ?_, fun t hrun => ?_⟩
  · obtain ⟨rest, rfl⟩ := hpre
    exact ((inv_start hstart).run (Machine.Along.of_append hgood) hrun).kept
  · have h := (inv_start hstart).run hgood hrun
    rw [List.nil_append, hacts, writes_calls hops] at h
    exact h.right

/-- A reply without data. -/
def emptyReply : State :=
  ⟨fun _ => 0, sizeofBsdReply, false, 0, fun _ => 0, fun _ => false, false, false⟩

/-- Two bytes with `copyout`, which go in the message, and one with `ureadc` of a large read, which
goes out of line: of the four pages that are allocated for the read the emulator receives one. -/
theorem reply_right_two : ∃ o t, ureadc 3 [(0x1002, 0x4000)] = some o ∧
    machine.run emptyReply [(.output (copyout [1, 2] 0x1000), .failure 0),
    (.output o, .success 0x5000)] = some t ∧
      t.finishReplyMsg.complex = true ∧ t.finishReplyMsg.live 5 = true ∧
      t.finishReplyMsg.live 6 = false ∧
      Right t.finishReplyMsg [(0x1000, 1), (0x1001, 2), (0x1002, 3)] := by
  have hops : ([.copyout [1, 2] 0x1000, .ureadc 3 [(0x1002, 0x4000)]] : List Call).mapM ops =
    some _ := rfl
  have hgood : machine.Along Good emptyReply [(.output (copyout [1, 2] 0x1000), .failure 0),
      (.output ⟨0x1002, 0x4000, 0x4000, [3], by decide, by decide, by decide⟩,
      .success 0x5000)] := by
    refine ⟨⟨by decide, fun _ _ hout => absurd hout (by decide)⟩, fun s hs => ?_⟩
    cases hs
    exact ⟨⟨by decide, fun _ _ _ => ⟨_, rfl, by decide, by decide, by decide⟩⟩, fun _ _ => trivial⟩
  have hright := (reply_right ⟨rfl, rfl, fun _ => rfl, rfl, rfl⟩ hops rfl hgood).2 _ rfl
  rw [← writes_calls hops] at hright
  exact ⟨_, _, rfl, rfl, by decide, by decide, by decide, hright⟩

/-- A character of a large read, for which there is no memory: it is written to an address that was
not reserved. -/
theorem failed_allocation_strays : ∃ o t, ureadc 7 [(0x1000, 0x7fffffff)] = some o ∧
    machine.run emptyReply [(.output o, .failure 0x5000)] = some t ∧ t.strayed = true ∧
      t.mem 0x5000 = 7 ∧ t.live 5 = false :=
  ⟨_, _, rfl, rfl, by decide, by decide, by decide⟩

end RoundTrip

end XMach.ReplyMsg
