import Mathlib.Tactic.Linarith
import XMach.Device.Bpf

/-!
# What the check of a program is worth

`bpf_validate` keeps conditional jumps forward and inside the program, which ends with a return, and
it checks the memory that `BPF_ST` and `BPF_LD` name and division by a constant. So a step from an
instruction that it has accepted can go wrong only where it looks at nothing: an unconditional jump
back, the memory of the index register, and loads whose test wraps.
-/

namespace XMach.Bpf

variable {α : Type} {len i n bound j : ℕ} {p before : Insn} {f rest : List Insn} {s : State}
  {env : Env} {op : Op} {m : Option ℕ} {k : Word} {size : Size}

section Decode

def Op.returns : Op → Bool
  | .retK | .retA | .retMatchImm => true
  | _ => false

/-- The codes that `bpf_validate` knows an instruction by. -/
def Op.agrees (code : BitVec 16) : Op → Bool
  | .retMatchImm => code = 0x1e
  | .jump _ _ => bpfClass code = 0x05 && code &&& 0xf0 ≠ 0x00
  | .ldMem => bpfClass code = 0x00 && code &&& 0xe0 = 0x60
  | .st => bpfClass code = 0x02
  | .alu .div .k => code = 0x34
  | _ => true

theorem mem_of_lookup {β : Type} [BEq α] [LawfulBEq α] {a : α} {b : β} {l : List (α × β)}
    (h : l.lookup a = some b) : (a, b) ∈ l := by
  induction l with
  | nil => cases h
  | cons e l ih =>
    rw [List.lookup_cons] at h
    split at h
    next heq =>
      obtain rfl := eq_of_beq heq
      cases h
      exact List.mem_cons_self
    next => exact List.mem_cons_of_mem _ (ih h)

theorem agrees_of_decode (h : decode p.code = some op) :
    op.agrees p.code = true ∧ (op.returns = true ∨ bpfClass p.code ≠ 0x06) := by
  have hall : ∀ e ∈ opcodes, e.2.agrees e.1 = true ∧
    (e.2.returns = true ∨ bpfClass e.1 ≠ 0x06) := by decide
  exact hall _ (mem_of_lookup h)

end Decode

section Validate

/-- What is known of an instruction of an accepted program. -/
structure Checked (len i : ℕ) (p : Insn) : Prop where
  jump : checkJump len i p = true
  mem : checkMem p = true
  div : checkDiv p = true
  keys : p.code = 0x1e → p.jt.toNat ≤ nNetHashKeys

theorem checked_of_validateFrom {keys : ℕ} {found : Option ℕ}
    (h : validateFrom len i keys found rest = some m) (hp : rest[n]? = some p) :
    p.code = bpfKey ∨ Checked len (i + n) p := by
  fun_induction validateFrom len i keys found rest generalizing n with
  | case1 => cases hp
  | case2 => cases h
  | case3 i keys found q rest hkey ih =>
    cases n with
    | zero =>
      cases hp
      exact .inl hkey
    | succ n => simpa only [Nat.add_assoc, Nat.add_comm 1] using ih h hp
  | case4 => cases h
  | case5 => cases h
  | case6 i found q rest hcheck hmatch hkeys ih =>
    cases n with
    | zero =>
      cases hp
      simp only [Bool.and_eq_true] at hcheck
      exact .inr ⟨hcheck.1.1, hcheck.1.2, hcheck.2, fun _ => by omega⟩
    | succ n => simpa only [Nat.add_assoc, Nat.add_comm 1] using ih h hp
  | case7 i found q rest hcheck hmatch ih =>
    cases n with
    | zero =>
      cases hp
      simp only [Bool.and_eq_true] at hcheck
      exact .inr ⟨hcheck.1.1, hcheck.1.2, hcheck.2, fun h => absurd h hmatch⟩
    | succ n => simpa only [Nat.add_assoc, Nat.add_comm 1] using ih h hp
  | case8 => cases h

theorem validate_checked (h : bpfValidate before f = some m) (hi : 1 ≤ i) (hp : f[i]? = some p) :
    p.code = bpfKey ∨ Checked f.length i p := by
  unfold bpfValidate at h
  split at h
  next => cases h
  next found hfrom =>
    obtain ⟨n, rfl⟩ := Nat.exists_eq_add_of_le hi
    refine checked_of_validateFrom hfrom (n := n) ?_
    rw [List.getElem?_tail, Nat.add_comm]
    exact hp

theorem validate_last (h : bpfValidate before f = some m) (hp : f[i]? = some p)
    (hclass : bpfClass p.code ≠ 0x06) : i + 1 < f.length := by
  have hi : i < f.length := (List.getElem?_eq_some_iff.1 hp).1
  by_contra hlast
  unfold bpfValidate at h
  split at h
  next => cases h
  next found hfrom =>
    have hget : f.getLastD before = p := by
      obtain rfl : i = f.length - 1 := by omega
      rw [List.getLastD_eq_getLast?, List.getLast?_eq_getElem?, hp]
      rfl
    rw [hget, if_neg hclass] at h
    cases h

end Validate

section Step

/-- A turn returns, or goes forward in the program. -/
def Forward (len : ℕ) (s : State) : Except Fault Next → Prop
  | .error _ => False
  | .ok (.ret _ _) => True
  | .ok (.more s') => s.pc < s'.pc ∧ s'.pc < len

theorem forward_readAt {fault : Fault} {array : ℕ → α} {g : α → State}
    (hg : ∀ v, (g v).pc = s.pc + 1) (hlen : s.pc + 1 < len) :
    Forward len s (readAt fault bound array j >>= fun v => pure (.more (g v))) ↔ j < bound := by
  unfold readAt
  split_ifs with hj
  · refine iff_of_true ⟨?_, ?_⟩ hj <;> rw [hg] <;> omega
  · exact iff_of_false (fun h => h) hj

theorem load_eq (fault : Fault) (bytes : ℕ → BitVec 8) (h : k.toNat + size.bytes ≤ bound) :
    ∃ v, load fault bound bytes k size = .ok v := by
  unfold load
  rw [if_pos h]
  cases size with
  | w => exact ⟨_, rfl⟩
  | h => exact ⟨_, rfl⟩
  | b => exact ⟨_, rfl⟩

theorem forward_load {fault : Fault} {bytes : ℕ → BitVec 8} {g : Word → State}
    (hg : ∀ v, (g v).pc = s.pc + 1) (hlen : s.pc + 1 < len) :
    Forward len s (load fault bound bytes k size >>= fun v => pure (.more (g v))) ↔
    k.toNat + size.bytes ≤ bound := by
  by_cases h : k.toNat + size.bytes ≤ bound
  · obtain ⟨v, hv⟩ := load_eq fault bytes h
    rw [hv]
    refine iff_of_true ⟨?_, ?_⟩ h <;> rw [hg] <;> omega
  · unfold load
    rw [if_neg h]
    exact iff_of_false (fun h => h) h

theorem wraps_iff : size.wraps k = true ↔ size ≠ .b ∧ 2 ^ 32 ≤ k.toNat + size.bytes := by
  rw [Size.wraps, Bool.and_eq_true, decide_eq_true_eq, decide_eq_true_eq]

/-- The test is that of the array, modulo `2 ^ 32` but for bytes. -/
theorem fits_iff_mod : size.fits k bound = true ↔
    (if size = .b then k.toNat + size.bytes else (k.toNat + size.bytes) % 2 ^ 32) ≤ bound := by
  cases size with
  | w => exact decide_eq_true_iff
  | h => exact decide_eq_true_iff
  | b => exact decide_eq_true_iff

/-- Without a wrap the test for the load is that of the array. -/
theorem fits_iff (h : size.wraps k = false) : size.fits k bound = true ↔
    k.toNat + size.bytes ≤ bound := by
  rw [← Bool.not_eq_true, wraps_iff] at h
  rw [fits_iff_mod]
  split_ifs with hb
  · rfl
  · rw [Nat.mod_eq_of_lt (not_le.1 fun hle => h ⟨hb, hle⟩)]

/-- With one the test is passed, and the load is not in the array. -/
theorem wraps_fits (h : size.wraps k = true) (hbound : 4 ≤ bound) (hlt : bound < 2 ^ 32) :
    size.fits k bound = true ∧ ¬k.toNat + size.bytes ≤ bound := by
  obtain ⟨hb, hwraps⟩ := wraps_iff.1 h
  have hk := k.isLt
  have hbytes : size.bytes ≤ 4 := by cases size <;> decide
  rw [fits_iff_mod, if_neg hb]
  omega

theorem not_wraps_of_not_fits (h : ¬size.fits k bound = true) (hbound : 4 ≤ bound)
    (hlt : bound < 2 ^ 32) : size.wraps k = false := by
  by_contra hwraps
  exact h (wraps_fits (Bool.not_eq_false _ ▸ hwraps) hbound hlt).1

/-- A load whose test is passed is in the array exactly if the sum in the test does not wrap. -/
theorem forward_tested {fault : Fault} {bytes : ℕ → BitVec 8} {g : Word → State}
    (hfits : size.fits k bound = true) (hbound : 4 ≤ bound) (hlt : bound < 2 ^ 32)
    (hg : ∀ v, (g v).pc = s.pc + 1) (hlen : s.pc + 1 < len) :
    Forward len s (load fault bound bytes k size >>= fun v => pure (.more (g v))) ↔
    size.wraps k = false := by
  rw [forward_load hg hlen]
  cases hwraps : size.wraps k with
  | false => exact iff_of_true ((fits_iff hwraps).1 hfits) rfl
  | true => exact iff_of_false (wraps_fits hwraps hbound hlt).2 Bool.noConfusion

/-- What fits in the packet is far from the header, whose addresses begin at `dlbase`. -/
theorem not_wraps_header (h : size.wraps k = false) (hfits : size.fits k netRcvMax = true) :
    size.wraps (k - dlbase) = false := by
  rw [fits_iff h] at hfits
  have hbytes : size.bytes ≤ 4 := by cases size <;> decide
  have hsub : (k - dlbase).toNat = (2 ^ 32 - 0x40000000 + k.toNat) % 2 ^ 32 := BitVec.toNat_sub _ _
  rw [← Bool.not_eq_true, wraps_iff, hsub]
  unfold netRcvMax at hfits
  omega

theorem readAt_eq (fault : Fault) (array : ℕ → α) (h : j < bound) :
    readAt fault bound array j = .ok (array j) :=
  if_pos h

theorem bpfHash_eq (keys : ℕ → Word) (hn : n ≤ memwords) : ∃ hval, bpfHash n keys = .ok hval := by
  have hsum : ∀ m ≤ n, ∃ v : Word, (m.rec (pure (0 : Word)) fun i sum => do
      let hval ← sum
      let key ← readAt .mem memwords keys i
      pure (hval + key) : Except Fault Word) = .ok v := by
    intro m hm
    induction m with
    | zero => exact ⟨0, rfl⟩
    | succ m ih =>
      obtain ⟨v, hv⟩ := ih (by omega)
      exact ⟨v + keys m, by simp only [hv, readAt_eq .mem keys (show m < memwords by omega)]; rfl⟩
  obtain ⟨v, hv⟩ := hsum n le_rfl
  exact ⟨v.toNat % netHashSize, by rw [bpfHash, hv]; rfl⟩

theorem sameKeys_eq (keys : ℕ → Word) (entp : HashEntry) (h : j + n ≤ nNetHashKeys) :
    ∃ b, sameKeys keys entp n j = .ok b := by
  induction n generalizing j with
  | zero => exact ⟨true, rfl⟩
  | succ n ih =>
    have hkeys : nNetHashKeys ≤ memwords := by decide
    rw [sameKeys, readAt_eq .mem keys (by omega), readAt_eq .keys entp.keys (by omega)]
    change ∃ b, (if keys j ≠ entp.keys j then pure false else sameKeys keys entp n (j + 1)) =
      Except.ok b
    split_ifs with hne
    · exact ⟨false, rfl⟩
    · exact ih (by omega)

theorem findEntry_eq (keys : ℕ → Word) (h : n ≤ nNetHashKeys) (l : List HashEntry) :
    ∃ r, findEntry keys n l = .ok r := by
  induction l with
  | nil => exact ⟨none, rfl⟩
  | cons entp l ih =>
    obtain ⟨b, hb⟩ := sameKeys_eq keys entp (j := 0) (n := n) (by omega)
    rw [findEntry, hb]
    cases b with
    | true => exact ⟨some entp, rfl⟩
    | false => exact ih

theorem bpfMatch_eq (hash : HashHeader) (keys : ℕ → Word) (h : n ≤ nNetHashKeys) :
    ∃ r, bpfMatch hash n keys = .ok r := by
  unfold bpfMatch
  split_ifs
  · exact ⟨none, rfl⟩
  · obtain ⟨hval, hhash⟩ := bpfHash_eq keys (h.trans (by decide))
    obtain ⟨r, hr⟩ := findEntry_eq keys h (hash.table hval)
    exact ⟨r, by rw [hhash]; exact hr⟩

theorem mem_of_checkMem (h : checkMem p = true)
    (hclass : bpfClass p.code = 0x02 ∨ (bpfClass p.code = 0x00 ∧ p.code &&& 0xe0 = 0x60)) :
    p.k.toNat < memwords := by
  unfold checkMem at h
  rw [if_pos hclass, Bool.not_eq_true', Bool.or_eq_false_iff, decide_eq_false_iff_not,
    decide_eq_false_iff_not] at h
  have hint := BitVec.toInt_eq_toNat_cond p.k
  split_ifs at hint <;> omega

theorem forward_next {s' : State} (hs' : s'.pc = s.pc + 1) (hlen : s.pc + 1 < len) :
    Forward len s (.ok (.more s')) :=
  ⟨by omega, by omega⟩

theorem jump_inside (h : checkJump len i p = true) (hclass : bpfClass p.code = 0x05)
    (hop : p.code &&& 0xf0 ≠ 0x00) : i + 1 + p.jt.toNat < len ∧ i + 1 + p.jf.toNat < len := by
  unfold checkJump at h
  rw [if_pos hclass, if_neg hop] at h
  simpa using h

/-- A turn from an accepted instruction returns or goes forward exactly if the instruction is
careful. -/
theorem exec_forward (hpc : s.pc = i) (hc : Checked len i p)
    (hlast : bpfClass p.code ≠ 0x06 → i + 1 < len) :
    Forward len s (exec env p s) ↔ careful len p s = true := by
  unfold exec careful
  cases hop : decode p.code with
  | none => exact iff_of_true trivial rfl
  | some op =>
    obtain ⟨hagree, hreturns⟩ := agrees_of_decode hop
    have hlen : op.returns = false → s.pc + 1 < len := fun hret => by
      rcases hreturns with htrue | hclass
      · rw [hret] at htrue
        cases htrue
      · have := hlast hclass
        omega
    cases op with
    | retK => exact iff_of_true trivial rfl
    | retA => exact iff_of_true trivial rfl
    | retMatchImm =>
      obtain ⟨r, hr⟩ := bpfMatch_eq env.hash s.mem (hc.keys (of_decide_eq_true hagree))
      simp only [hr]
      cases r with
      | none => exact iff_of_true trivial trivial
      | some entp => exact iff_of_true trivial trivial
    | ldAbs size =>
      simp only
      rw [Bool.and_eq_true, Bool.not_eq_true', Bool.not_eq_true']
      split_ifs with hdata hheader
      · rw [forward_tested hdata (by decide) (by decide) (fun _ => rfl) (hlen rfl)]
        exact ⟨fun h => ⟨h, not_wraps_header h hdata⟩, And.left⟩
      · rw [forward_tested hheader (by decide) (by decide) (fun _ => rfl) (hlen rfl)]
        exact (and_iff_right (not_wraps_of_not_fits hdata (by decide) (by decide))).symm
      · exact iff_of_true trivial ⟨not_wraps_of_not_fits hdata (by decide) (by decide),
          not_wraps_of_not_fits hheader (by decide) (by decide)⟩
    | ldInd size =>
      simp only
      rw [Bool.not_eq_true']
      split_ifs with hdata
      · exact forward_tested hdata (by decide) (by decide) (fun _ => rfl) (hlen rfl)
      · exact iff_of_true trivial (not_wraps_of_not_fits hdata (by decide) (by decide))
    | ldxMsh =>
      simp only
      split_ifs with hdata
      · refine (forward_load (fun _ => rfl) (hlen rfl)).trans (iff_of_true ?_ trivial)
        exact of_decide_eq_true hdata
      · exact iff_of_true trivial trivial
    | ldMem =>
      have hk := mem_of_checkMem hc.mem (.inr (by simpa [Op.agrees] using hagree))
      exact (forward_readAt (fun _ => rfl) (hlen rfl)).trans (iff_of_true hk rfl)
    | st =>
      have hk := mem_of_checkMem hc.mem (.inl (of_decide_eq_true hagree))
      exact (forward_readAt (fun _ => rfl) (hlen rfl)).trans (iff_of_true hk rfl)
    | ldxMem => exact (forward_readAt (fun _ => rfl) (hlen rfl)).trans decide_eq_true_iff.symm
    | stx => exact (forward_readAt (fun _ => rfl) (hlen rfl)).trans decide_eq_true_iff.symm
    | ja =>
      simp only [Forward, Bool.and_eq_true, decide_eq_true_eq]
      exact and_congr_left fun _ => by omega
    | jump test src =>
      have hjump : bpfClass p.code = 0x05 ∧
        p.code &&& 0xf0 ≠ 0x00 := by simpa [Op.agrees] using hagree
      obtain ⟨hjt, hjf⟩ := jump_inside hc.jump hjump.1 hjump.2
      refine iff_of_true ?_ rfl
      simp only [Forward]
      split_ifs <;> omega
    | alu op src =>
      cases op with
      | div =>
        cases src with
        | k =>
          have hk : p.k ≠ 0 := fun hk => by
            have hdiv := hc.div
            rw [checkDiv, hk, of_decide_eq_true hagree] at hdiv
            cases hdiv
          simp only [if_neg hk]
          exact iff_of_true (forward_next rfl (hlen rfl)) trivial
        | x =>
          simp only
          split_ifs
          · exact iff_of_true trivial trivial
          · exact iff_of_true (forward_next rfl (hlen rfl)) trivial
      | _ => exact iff_of_true (forward_next rfl (hlen rfl)) rfl
    | _ => exact iff_of_true (forward_next rfl (hlen rfl)) rfl

theorem step_forward (h : bpfValidate before f = some m) (hpc : 1 ≤ s.pc) (hend : s.pc < f.length) :
    Forward f.length s (step env f s) ↔ ∀ p, f[s.pc.toNat]? = some p →
    careful f.length p s = true := by
  obtain ⟨p, hp⟩ : ∃ p, f[s.pc.toNat]? = some p := ⟨_, List.getElem?_eq_getElem (by omega)⟩
  unfold step
  rw [if_neg (by omega), hp]
  simp only [Option.some.injEq, forall_eq']
  rcases validate_checked h (by omega) hp with hkey | hchecked
  · have hnone : decode p.code = none := by
      rw [hkey]
      decide
    rw [exec, careful, hnone]
    exact iff_of_true trivial rfl
  · exact exec_forward (by omega) hchecked fun hclass => validate_last h hp hclass

end Step

section Run

/-- The run goes forward in the program as long as its instructions are careful, and so comes to its
end. -/
theorem run_ends (h : bpfValidate before f = some m) (hpc : 1 ≤ s.pc) (hend : s.pc < f.length)
    (hn : f.length ≤ s.pc + n)
    (hcareful : ∀ s', Reaches env f s s' → ∀ p, f[s'.pc.toNat]? = some p →
    careful f.length p s' = true) : ∃ r, bpfDoFilter env f n s = some (.ok r) := by
  induction n generalizing s with
  | zero => omega
  | succ n ih =>
    have hstep : Forward f.length s (step env f s) :=
      (step_forward h hpc hend).2 (hcareful s (.refl s))
    rw [bpfDoFilter]
    cases hs : step env f s with
    | error fault =>
      rw [hs] at hstep
      exact hstep.elim
    | ok next =>
      rw [hs] at hstep
      cases next with
      | ret count entp => exact ⟨(count, entp), rfl⟩
      | more s' =>
        obtain ⟨hforward, hend'⟩ := hstep
        exact ih (by omega) hend' (by omega) fun s'' hr => hcareful s'' (.step hs hr)

/-- There is nothing to run behind `BPF_BEGIN`. -/
theorem run_empty (h : bpfValidate before f = some m) (hpc : s.pc = 1) (hlen : f.length ≤ 1)
    (hbegin : env.ragged = true → ∀ p, f[0]? = some p → p.code = bpfBegin) :
    bpfDoFilter env f 1 s = some (.ok (0, none)) := by
  have hnone : f[s.pc.toNat]? = none := List.getElem?_eq_none (by omega)
  have hragged : ¬(env.ragged && s.pc = f.length) = true := by
    intro hr
    simp only [Bool.and_eq_true, decide_eq_true_eq] at hr
    obtain ⟨p, hp⟩ : ∃ p, f[0]? = some p := ⟨_, List.getElem?_eq_getElem (by omega)⟩
    have := validate_last h hp (by rw [hbegin hr.1 p hp]; decide)
    omega
  rw [bpfDoFilter, step, if_neg (by omega), hnone]
  simp only [if_neg hragged]

/-- In an accepted program a turn returns or goes forward inside it if and only if the instruction
is careful, and a run all of whose instructions are so ends without an access out of range. -/
theorem accepted_program_in_range (before : Insn) (f : List Insn) (m : Option ℕ)
    (h : bpfValidate before f = some m) :
    (∀ (env : Env) (s : State), 1 ≤ s.pc → s.pc < f.length →
      (Forward f.length s (step env f s) ↔ ∀ p, f[s.pc.toNat]? = some p →
      careful f.length p s = true)) ∧
    (∀ (env : Env) (s : State), s.pc = 1 → (env.ragged = true → ∀ p, f[0]? = some p →
    p.code = bpfBegin) →
      (∀ s', Reaches env f s s' → ∀ p, f[s'.pc.toNat]? = some p → careful f.length p s' = true) →
      ∃ n r, bpfDoFilter env f n s = some (.ok r)) := by
  refine ⟨fun env s hpc hend => step_forward h hpc hend, fun env s hpc hbegin hcareful => ?_⟩
  by_cases hlen : f.length ≤ 1
  · exact ⟨1, _, run_empty h hpc hlen hbegin⟩
  · exact ⟨f.length, run_ends h (by omega) (by omega) (by omega) hcareful⟩

/-- The filter for packets of one protocol: the type is the half word at 12 of the header. -/
def protocolFilter : List Insn :=
  [⟨bpfBegin, 0, 0, 0⟩, ⟨0x28, 0, 0, dlbase + 12⟩, ⟨0x15, 0, 1, 0x800⟩, ⟨0x06, 0, 0, 0xffffffff⟩,
    ⟨0x06, 0, 0, 0⟩]

theorem accepted_program_in_range_protocol :
    ∃ n r, bpfDoFilter ⟨fun _ => 0, 60, fun _ => 8, false, ⟨0, fun _ => []⟩, true⟩ protocolFilter n
      ⟨1, 0, 0, fun _ => 0⟩ = some (.ok r) := by
  refine (accepted_program_in_range ⟨0, 0, 0, 0⟩ protocolFilter none (by decide)).2 _ _ rfl
    (fun _ p hp => ?_)
    fun s' _ p hp => ?_
  · cases hp
    rfl
  · have hmem := List.mem_of_getElem? hp
    simp only [protocolFilter, List.mem_cons, List.not_mem_nil, or_false] at hmem
    rcases hmem with rfl | rfl | rfl | rfl | rfl <;> rfl

/-- Programs that are accepted: one that stores the index register behind the memory, one that loads
the word at -4, and one that jumps to itself. -/
theorem accepted_program_out_of_range :
    let begin' : Insn := ⟨bpfBegin, 0, 0, 0⟩
    let ret : Insn := ⟨0x06, 0, 0, 0⟩
    let store : List Insn := [begin', ⟨0x03, 0, 0, 16⟩, ret]
    let word : List Insn := [begin', ⟨0x20, 0, 0, 0xfffffffc⟩, ret]
    let loop : List Insn := [begin', ⟨0x05, 0, 0, 0xffffffff⟩, ret]
    (bpfValidate ret store = some none ∧ ∀ env a x mem,
      bpfDoFilter env store 1 ⟨1, a, x, mem⟩ = some (.error .mem)) ∧
    (bpfValidate ret word = some none ∧ ∀ env a x mem,
      bpfDoFilter env word 1 ⟨1, a, x, mem⟩ = some (.error .data)) ∧
    (bpfValidate ret loop = some none ∧ ∀ env a x mem n,
    bpfDoFilter env loop n ⟨1, a, x, mem⟩ = none) := by
  refine ⟨⟨by decide, fun _ _ _ _ => rfl⟩, ⟨by decide, fun _ _ _ _ => rfl⟩, by decide,
    fun env a x mem n => ?_⟩
  induction n with
  | zero => rfl
  | succ n ih => exact ih

end Run

end XMach.Bpf
