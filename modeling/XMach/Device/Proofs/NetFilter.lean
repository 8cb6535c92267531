import Mathlib.Tactic.Linarith
import XMach.Device.NetFilter

/-!
# What the check of a filter is worth

`parse_net_filter` keeps a stack pointer of its own, which is never above that of `net_do_filter`.
So no push goes past the start of the stack, and what is in the filter itself is in range. The other
end of the stack is not checked: the bound that is compared with is not that of the stack, and the
operators that may return take a value more than is reckoned with.
-/

namespace XMach.Net

variable {α : Type} {p : Packet} {st : Stack} {filter rest : List FilterWord} {w lit : FilterWord}
  {c d j sp : ℤ}

section Word

/-- The run is out of range exactly if the depth is not kept, and otherwise its result satisfies
`P`. -/
def Goes (depth : Option ℤ) (P : ℤ → α → Prop) (r : Except Fault α) : Prop :=
  match depth with
  | none => r = .error .underflow
  | some j => ∃ x, r = .ok x ∧ P j x

theorem access_eq (h : 0 ≤ sp) :
    access sp = if sp ≤ netFilterStackDepth then .ok () else .error .underflow := by
  unfold access
  rw [if_neg (by omega)]
  split_ifs with hlow hle hle
  · omega
  · rfl
  · rfl
  · omega

theorem goes_read {P : ℤ → α → Prop} {f : BitVec 32 → Except Fault α} (h : 0 ≤ sp)
    (hf : sp ≤ netFilterStackDepth → ∃ x, f (st sp) = .ok x ∧ P j x) :
    Goes (notBelow sp j) P (st.read sp >>= f) := by
  unfold Stack.read notBelow
  rw [access_eq h]
  split_ifs with hle
  · exact hf hle
  · rfl

theorem goes_write {P : ℤ → α → Prop} {f : Stack → Except Fault α} {v : BitVec 32} (h : 0 ≤ sp)
    (hf : ∀ st', ∃ x, f st' = .ok x ∧ P j x) : Goes (notBelow sp j) P (st.write sp v >>= f) := by
  unfold Stack.write notBelow
  rw [access_eq h]
  split_ifs with hle
  · exact hf _
  · rfl

theorem fetch_spec {arg : NetfArg} (hc : checkArg c arg = some d) (hd : 2 ≤ d) (hle : c ≤ sp) :
    Goes (argDepth sp arg) (fun j r => r.isSome = present p (st sp) arg ∧
      ∀ v i, r = some (v, i) → i = j ∧ d + 1 ≤ j) (fetch p st sp lit arg) := by
  cases arg with
  | nopush =>
    cases hc
    exact goes_read (by omega) fun _ => ⟨_, rfl, rfl, by rintro _ _ ⟨⟩; exact ⟨rfl, by omega⟩⟩
  | pushind =>
    cases hc
    refine goes_read (by omega) fun _ => ?_
    split_ifs with hwords
    · exact ⟨none, rfl, (decide_eq_false (not_lt.2 hwords)).symm, nofun⟩
    · rw [Packet.dataWord, if_pos (not_le.1 hwords)]
      exact ⟨_, rfl,
        (decide_eq_true (not_le.1 hwords)).symm, by rintro _ _ ⟨⟩; exact ⟨rfl, by omega⟩⟩
  | pushhdrind =>
    cases hc
    refine goes_read (by omega) fun _ => ?_
    split_ifs with hwords
    · exact ⟨none, rfl, (decide_eq_false (not_lt.2 hwords)).symm, nofun⟩
    · rw [Packet.headerWord, if_pos (not_le.1 hwords)]
      exact ⟨_, rfl,
        (decide_eq_true (not_le.1 hwords)).symm, by rintro _ _ ⟨⟩; exact ⟨rfl, by omega⟩⟩
  | pushzero =>
    cases hc
    exact ⟨_, rfl, rfl, by rintro _ _ ⟨⟩; exact ⟨rfl, by omega⟩⟩
  | pushlit =>
    cases hc
    exact ⟨_, rfl, rfl, by rintro _ _ ⟨⟩; exact ⟨rfl, by omega⟩⟩
  | pushword n =>
    cases hc
    simp only [fetch]
    split_ifs with hwords
    · exact ⟨none, rfl, (decide_eq_false (not_lt.2 hwords)).symm, nofun⟩
    · rw [Packet.dataWord, if_pos (not_le.1 hwords)]
      exact ⟨_, rfl,
        (decide_eq_true (not_le.1 hwords)).symm, by rintro _ _ ⟨⟩; exact ⟨rfl, by omega⟩⟩
  | pushhdr n =>
    simp only [checkArg] at hc
    split_ifs at hc with hn
    cases hc
    simp only [fetch]
    rw [Packet.headerWord, if_pos (not_le.1 hn)]
    exact ⟨_, rfl, rfl, by rintro _ _ ⟨⟩; exact ⟨rfl, by omega⟩⟩
  | pushstk n =>
    simp only [checkArg] at hc
    split_ifs at hc with hn
    cases hc
    exact goes_read (by omega) fun _ => ⟨_, rfl, rfl, by rintro _ _ ⟨⟩; exact ⟨rfl, by omega⟩⟩

theorem goes_combine {f : BitVec 32 → BitVec 32} (h : 0 ≤ sp) :
    Goes (notBelow sp sp) (fun j n => ∀ st' i, n = .more st' i → i = j) (combine st sp f) := by
  refine goes_read h fun hle => ?_
  rw [Stack.write, access_eq h, if_pos hle]
  exact ⟨_, rfl, by rintro _ _ ⟨⟩; rfl⟩

theorem goes_test {stop : BitVec 32 → Bool} {result : Bool} (h : 0 ≤ sp) :
    Goes (notBelow sp (sp + 1)) (fun j n => ∀ st' i, n = .more st' i → i = j)
    (test st sp stop result) := by
  refine goes_read h fun _ => ⟨_, rfl, fun st' i hn => ?_⟩
  split_ifs at hn
  cases hn
  rfl

theorem checkOp_low {op : Option NetfOp} (hc : checkOp c op = some d) : 2 ≤ c ∧ 0 ≤ d := by
  unfold checkOp at hc
  split_ifs at hc
  · cases hc
    omega
  · obtain ⟨-, -, rfl⟩ := Option.map_eq_some_iff.1 hc
    omega

theorem operate_spec {op : Option NetfOp} {arg : BitVec 32} (hc : checkOp c op = some d)
    (hle : c + 1 ≤ sp) :
    Goes (opDepth sp op) (fun j n => ∀ st' i, n = .more st' i → i = j) (operate st sp arg op) := by
  have hlow := (checkOp_low hc).1
  cases op with
  | none => exact ⟨_, rfl, by rintro _ _ ⟨⟩; rfl⟩
  | some op =>
    cases op with
    | nop => exact goes_write (by omega) fun st' => ⟨_, rfl, by rintro _ _ ⟨⟩; rfl⟩
    | cor => exact goes_test (by omega)
    | cand => exact goes_test (by omega)
    | cnor => exact goes_test (by omega)
    | cnand => exact goes_test (by omega)
    | _ => exact goes_combine (by omega)

/-- The pointer of `parse_net_filter` stays below that of the run. -/
theorem opDepth_le {op : Option NetfOp} (hc : checkOp c op = some d) (hle : c + 1 ≤ sp)
    (hj : opDepth sp op = some j) : d ≤ j := by
  have hnext : ∀ {k n : ℤ}, notBelow k n = some j → n = j := fun h => by
    unfold notBelow at h
    split_ifs at h
    exact Option.some.inj h
  unfold checkOp at hc
  split_ifs at hc with hlow hnop hhigh
  · cases hc
    subst hnop
    have := hnext hj
    omega
  · obtain ⟨op, rfl, rfl⟩ := Option.map_eq_some_iff.1 hc
    cases op with
    | nop => exact absurd rfl hnop
    | _ =>
      have := hnext hj
      omega

/-- A word is executed in range exactly if it is careful, and then the depth is the reckoned one. -/
theorem execute_spec (p : Packet) (lit : FilterWord) (st : Stack) (hc : checkWord w c = some d)
    (hle : c ≤ sp) (filter : List FilterWord) :
    (careful p st sp (w :: filter) = false ∧ execute p w lit st sp = .error .underflow) ∨
    (careful p st sp (w :: filter) = true ∧ ∃ n, execute p w lit st sp = .ok n ∧
      ∀ st' i, n = .more st' i → nextDepth w sp = some i ∧ d ≤ i) := by
  obtain ⟨b, harg, hop⟩ := Option.bind_eq_some_iff.1 hc
  have hfetch : Goes _ _ (fetch p st sp lit (netfArg w)) := fetch_spec harg (checkOp_low hop).1 hle
  simp only [careful]
  unfold execute nextDepth
  cases hj : argDepth sp (netfArg w) with
  | none =>
    rw [hj] at hfetch
    exact .inl ⟨rfl, by rw [show fetch p st sp lit (netfArg w) = _ from hfetch]; rfl⟩
  | some j =>
    rw [hj] at hfetch
    obtain ⟨r, hr, hpresent, hnext⟩ := hfetch
    rw [Option.any_some, hr, ← hpresent]
    cases r with
    | none => exact .inr ⟨rfl, .ret false, rfl, nofun⟩
    | some vi =>
      obtain ⟨hi, hdj⟩ := hnext vi.1 vi.2 rfl
      have hoper : Goes _ _ (operate st j vi.1 (netfOp w)) := operate_spec hop hdj
      cases hk : opDepth j (netfOp w) with
      | none =>
        rw [hk] at hoper
        exact .inl ⟨rfl, by rw [← hi] at hoper; exact hoper⟩
      | some k =>
        rw [hk] at hoper
        obtain ⟨n, hn, hmore⟩ := hoper
        refine .inr ⟨rfl, n, by rw [← hi] at hn; exact hn, fun st' i hni => ?_⟩
        rw [hmore st' i hni, Option.bind_some, hk]
        exact ⟨rfl, opDepth_le hop hdj hk⟩

theorem checkWord_pos (hc : checkWord w c = some d) : 0 ≤ d := by
  obtain ⟨b, -, hop⟩ := Option.bind_eq_some_iff.1 hc
  exact (checkOp_low hop).2

end Word

section Run

theorem reaches_word (hlit : netfArg w ≠ .pushlit) {st'' : Stack} {sp'' : ℤ} :
    Reaches p (w :: filter) st sp rest st'' sp'' ↔ (rest = w :: filter ∧ st'' = st ∧ sp'' = sp) ∨
      ∃ st' sp', execute p w 0 st sp = .ok (.more st' sp') ∧
      Reaches p filter st' sp' rest st'' sp'' := by
  constructor
  · rintro (_ | ⟨-, h, hrest⟩ | ⟨harg, -, -⟩)
    · exact .inl ⟨rfl, rfl, rfl⟩
    · exact .inr ⟨_, _, h, hrest⟩
    · exact absurd harg hlit
  · rintro (⟨rfl, rfl, rfl⟩ | ⟨st', sp', h, hrest⟩)
    · exact .refl _ _ _
    · exact .word hlit h hrest

theorem reaches_literal (hlit : netfArg w = .pushlit) {st'' : Stack} {sp'' : ℤ} :
    Reaches p (w :: lit :: filter) st sp rest st'' sp'' ↔
    (rest = w :: lit :: filter ∧ st'' = st ∧ sp'' = sp) ∨
      ∃ st' sp', execute p w lit st sp = .ok (.more st' sp') ∧
      Reaches p filter st' sp' rest st'' sp'' := by
  constructor
  · rintro (_ | ⟨harg, -, -⟩ | ⟨-, h, hrest⟩)
    · exact .inl ⟨rfl, rfl, rfl⟩
    · exact absurd hlit harg
    · exact .inr ⟨_, _, h, hrest⟩
  · rintro (⟨rfl, rfl, rfl⟩ | ⟨st', sp', h, hrest⟩)
    · exact .refl _ _ _
    · exact .literal hlit h hrest

/-- One turn of the loop: `words` are those of the turn and of what follows, `filter` what
follows. -/
theorem turn_iff {words : List FilterWord} (hc : checkWord w c = some d) (hle : c ≤ sp)
    (hreach : ∀ {rest st'' sp''}, Reaches p (w :: words) st sp rest st'' sp'' ↔
      (rest = w :: words ∧ st'' = st ∧ sp'' = sp) ∨
      ∃ st' sp', execute p w lit st sp = .ok (.more st' sp') ∧
      Reaches p filter st' sp' rest st'' sp'')
    (ih : ∀ st' sp', d ≤ sp' → ((∃ b, netDoFilterFrom p filter st' sp' = .ok b) ↔
      ∀ rest st'' sp'', Reaches p filter st' sp' rest st'' sp'' →
    careful p st'' sp'' rest = true)) : (∃ b, (execute p w lit st sp >>= fun n => match n with
        | .ret result => pure result
        | .more st sp => netDoFilterFrom p filter st sp) = .ok b) ↔
      ∀ rest st'' sp'', Reaches p (w :: words) st sp rest st'' sp'' →
      careful p st'' sp'' rest = true := by
  rcases execute_spec p lit st hc hle words with ⟨hcare, herr⟩ | ⟨hcare, n, hn, hnext⟩
  · rw [herr]
    refine iff_of_false nofun fun h => ?_
    exact Bool.false_ne_true (hcare.symm.trans (h _ _ _ (hreach.2 (.inl ⟨rfl, rfl, rfl⟩))))
  · simp only [hreach]
    rw [hn]
    cases n with
    | ret b =>
      refine iff_of_true ⟨b, rfl⟩ ?_
      rintro _ _ _ (⟨rfl, rfl, rfl⟩ | ⟨_, _, ⟨⟩, -⟩)
      exact hcare
    | more st' sp' =>
      refine (ih st' sp' (hnext _ _ rfl).2).trans ⟨?_,
        fun h _ _ _ hr => h _ _ _ (.inr ⟨_, _, rfl, hr⟩)⟩
      rintro h _ _ _ (⟨rfl, rfl, rfl⟩ | ⟨_, _, ⟨⟩, hr⟩)
      · exact hcare
      · exact h _ _ _ hr

theorem end_iff (h : 0 ≤ sp) : (∃ b, netDoFilterFrom p [] st sp = .ok b) ↔
    sp ≤ netFilterStackDepth := by
  rw [netDoFilterFrom, Stack.read, access_eq h]
  split_ifs with hle
  · exact iff_of_true ⟨_, rfl⟩ hle
  · exact iff_of_false nofun hle

/-- The run of a filter that has passed the check is in range exactly if all words that it comes to
are careful. -/
theorem run_iff (hparse : parseNetFilterFrom filter c = true) (hle : c ≤ sp) (hlow : 0 ≤ c) :
    (∃ b, netDoFilterFrom p filter st sp = .ok b) ↔
      ∀ rest st' sp', Reaches p filter st sp rest st' sp' → careful p st' sp' rest = true := by
  fun_induction parseNetFilterFrom filter c generalizing st sp with
  | case1 c =>
    rw [end_iff (by omega)]
    constructor
    · rintro h _ _ _ ⟨⟩
      exact decide_eq_true h
    · exact fun h => of_decide_eq_true (h _ _ _ (.refl [] st sp))
  | case2 => cases hparse
  | case3 => cases hparse
  | case4 w c d hcheck lit filter harg ih =>
    rw [netDoFilterFrom]
    · exact turn_iff hcheck hle (reaches_literal harg) fun _ _ hd =>
        ih hparse hd (checkWord_pos hcheck)
    · exact harg
  | case5 w c d hcheck filter hnil hcons ih =>
    have hlit : netfArg w ≠ .pushlit := fun harg => by
      cases filter with
      | nil => exact hnil harg rfl
      | cons lit filter => exact hcons lit filter harg rfl
    rw [netDoFilterFrom]
    · exact turn_iff hcheck hle (reaches_word hlit) fun _ _ hd =>
        ih hparse hd (checkWord_pos hcheck)
    · exact fun harg => absurd harg hlit
    · exact fun _ _ harg => absurd harg hlit

theorem depthAfter_word (hlit : netfArg w ≠ .pushlit) :
    depthAfter (w :: filter) sp = (nextDepth w sp).bind (depthAfter filter) := by
  rw [depthAfter]
  cases nextDepth w sp with
  | none => rfl
  | some j =>
    simp only [Option.bind_some]
    split
    next harg => exact absurd harg hlit
    next => rfl

theorem depthAfter_literal (hlit : netfArg w = .pushlit) :
    depthAfter (w :: lit :: filter) sp = (nextDepth w sp).bind (depthAfter filter) := by
  rw [depthAfter]
  cases nextDepth w sp with
  | none => rfl
  | some j => simp only [hlit, Option.bind_some]

theorem parse_word (hlit : netfArg w ≠ .pushlit) (h : parseNetFilterFrom (w :: filter) c = true) :
    ∃ d, checkWord w c = some d ∧ parseNetFilterFrom filter d = true := by
  rw [parseNetFilterFrom] at h
  split at h
  next => cases h
  next d hcheck =>
    refine ⟨d, hcheck, ?_⟩
    split at h
    next harg => exact absurd harg hlit
    next harg => exact absurd harg hlit
    next => exact h

theorem parse_literal (hlit : netfArg w = .pushlit)
    (h : parseNetFilterFrom (w :: lit :: filter) c = true) :
    ∃ d, checkWord w c = some d ∧ parseNetFilterFrom filter d = true := by
  rw [parseNetFilterFrom] at h
  split at h
  next => cases h
  next d hcheck =>
    simp only [hlit] at h
    exact ⟨d, hcheck, h⟩

theorem nextDepth_of_execute {st' : Stack} (hc : checkWord w c = some d) (hle : c ≤ sp)
    (h : execute p w lit st sp = .ok (.more st' j)) : nextDepth w sp = some j ∧ d ≤ j := by
  rcases execute_spec p lit st hc hle [] with ⟨-, herr⟩ | ⟨-, n, hn, hnext⟩
  · rw [herr] at h
    cases h
  · exact hnext st' j (Except.ok.inj (hn.symm.trans h))

/-- The stack pointer is the one that can be reckoned from the words that have been executed. -/
theorem reaches_depth {st' : Stack} (hr : Reaches p filter st sp rest st' j)
    (hparse : parseNetFilterFrom filter c = true) (hle : c ≤ sp) :
    depthAfter filter sp = depthAfter rest j ∧
      ∃ words, filter = words ++ rest ∧ depthAfter words sp = some j := by
  induction hr generalizing c with
  | refl filter st sp => exact ⟨rfl, [], rfl, rfl⟩
  | word hlit h _ ih =>
    obtain ⟨d, hcheck, hrest⟩ := parse_word hlit hparse
    obtain ⟨hnext, hd⟩ := nextDepth_of_execute hcheck hle h
    obtain ⟨hafter, words, rfl, hwords⟩ := ih hrest hd
    rw [depthAfter_word hlit, hnext]
    exact ⟨hafter, _ :: words, rfl, by rw [depthAfter_word hlit, hnext]; exact hwords⟩
  | literal hlit h _ ih =>
    obtain ⟨d, hcheck, hrest⟩ := parse_literal hlit hparse
    obtain ⟨hnext, hd⟩ := nextDepth_of_execute hcheck hle h
    obtain ⟨hafter, words, rfl, hwords⟩ := ih hrest hd
    rw [depthAfter_literal hlit, hnext]
    exact ⟨hafter, _ :: _ :: words, rfl, by rw [depthAfter_literal hlit, hnext]; exact hwords⟩

theorem careful_of_depthKept (h : depthKept filter sp = true) : careful p st sp filter = true := by
  unfold depthKept at h
  cases filter with
  | nil => exact h
  | cons w filter =>
    rw [depthAfter] at h
    cases hnext : nextDepth w sp with
    | none =>
      rw [hnext] at h
      cases h
    | some j =>
      obtain ⟨k, harg, hop⟩ := Option.bind_eq_some_iff.1 hnext
      simp [careful, harg, hop]

/-- A filter that has been accepted always comes to an end, and its run is in range if and only if
no word that it comes to takes anything from below the bottom of the stack. How deep the stack is
there depends on the words before it alone, and a filter all of whose words keep the depth has no
other runs. -/
theorem accepted_filter_in_range (filter : List FilterWord) (hparse : parseNetFilter filter = true)
    (p : Packet) (stack : Stack) :
    let start : Stack := fun i => if i = netFilterStackDepth then 1 else stack i
    ((∃ b, netDoFilter p filter stack = .ok b) ↔
      ∀ rest st sp, Reaches p filter start netFilterStackDepth rest st sp →
      careful p st sp rest = true) ∧
    (∀ rest st sp, Reaches p filter start netFilterStackDepth rest st sp →
      ∃ words, filter = words ++ rest ∧ depthAfter words netFilterStackDepth = some sp) ∧
    (depthKept filter netFilterStackDepth = true → ∃ b, netDoFilter p filter stack = .ok b) := by
  intro start
  have hrun : (∃ b, netDoFilter p filter stack = .ok b) ↔ _ := run_iff hparse le_rfl (by decide)
  refine ⟨hrun, fun rest st sp hr => (reaches_depth hr hparse le_rfl).2,
    fun hkept => hrun.2 fun rest st sp hr => ?_⟩
  refine careful_of_depthKept ?_
  rw [depthKept, ← (reaches_depth hr hparse le_rfl).1]
  exact hkept

/-- A filter that looks for the value 2 in the second word of the packet. -/
theorem accepted_filter_in_range_word :
    ∃ b, netDoFilter ⟨fun n => n, 8, fun _ => 0⟩ [17, 0x401, 2] (fun _ => 0) = .ok b :=
  (accepted_filter_in_range [17, 0x401, 2] (by decide) _ _).2.2 (by decide)

/-- `NETF_NOPUSH | NETF_AND` is accepted, and takes its second operand from below the stack. -/
theorem and_underflows : parseNetFilter [0x1800] = true ∧
    ∀ p stack, netDoFilter p [0x1800] stack = .error .underflow :=
  ⟨by decide, fun _ _ => rfl⟩

end Run

end XMach.Net
