import Mathlib.Algebra.Order.BigOperators.Group.Finset
import Mathlib.Tactic.Linarith
import XMach.Kern.Lock
import XMach.Lib.Totals

/-!
# What a sleep lock guarantees

The counters of the lock are the numbers of holds of each kind, and of the threads that have taken a
flag and wait for the others. A thread has its reads above its recursive holds, and these above the
one they rest on: that is the order in which `lock_done` gives them back. The flags keep the others
out, and a thread sleeps only while the lock is in use.
-/

namespace XMach.SleepLock

variable {T : Type} [DecidableEq T] [Fintype T] {s s' : State T} {t u : T} {th : Thread}
  {l : Lock T} {a : Act T} {holds rest : List Hold} {hold : Hold}

omit [Fintype T] in
@[simp] theorem update_self : (s.update l t th).thread t = th := Function.update_self ..

omit [Fintype T] in
theorem update_of_ne (hne : u ≠ t) : (s.update l t th).thread u = s.thread u :=
  Function.update_of_ne hne ..

section Total

def total (s : State T) (m : Thread → ℕ) : ℕ := ∑ t, m (s.thread t)

theorem total_update (s : State T) (l : Lock T) (t : T) (th : Thread) (m : Thread → ℕ) :
    total (s.update l t th) m + m (s.thread t) = total s m + m th :=
  sum_update (Finset.mem_univ t) s.thread th m

theorem total_succ (l : Lock T) {m : Thread → ℕ} (th : Thread) (hm : m th = m (s.thread t) + 1) :
    total (s.update l t th) m = total s m + 1 := by
  have := total_update s l t th m
  omega

omit [DecidableEq T] in
theorem le_total (s : State T) (t : T) (m : Thread → ℕ) : m (s.thread t) ≤ total s m :=
  Finset.single_le_sum (f := fun t => m (s.thread t)) (fun _ _ => Nat.zero_le _) (Finset.mem_univ t)

theorem add_le_total (s : State T) (hne : u ≠ t) (m : Thread → ℕ) :
    m (s.thread t) + m (s.thread u) ≤ total s m := by
  have h := Finset.add_sum_erase Finset.univ (fun t => m (s.thread t)) (Finset.mem_univ t)
  have hle := Finset.single_le_sum (f := fun t => m (s.thread t)) (fun _ _ => Nat.zero_le _)
    (Finset.mem_erase.2 ⟨hne, Finset.mem_univ u⟩)
  unfold total
  omega

end Total

def Hold.rank : Hold → ℕ
  | .read => 0
  | .again => 1
  | .upgrade => 2
  | .write => 3

def Thread.count (h : Hold) (th : Thread) : ℕ := th.holds.count h

/-- The thread has `want_write`, or `want_upgrade`, with or without the hold that it is for. -/
def Thread.flag (p : Phase) (h : Hold) (th : Thread) : ℕ :=
  (if th.phase = p then 1 else 0) + th.count h

/-- The holds are in the order in which they are given back, and recursion rests on a hold for
writing. -/
structure Ordered (holds : List Hold) : Prop where
  sorted : holds.Pairwise fun a b => a.rank ≤ b.rank
  based : .again ∈ holds → .upgrade ∈ holds ∨ .write ∈ holds

def Lock.inUse (l : Lock T) : Prop := l.wantWrite = true ∨ l.wantUpgrade = true ∨ l.readCount ≠ 0

/-- The counters and the holds agree. -/
structure Books (s : State T) : Prop where
  reads : s.lock.readCount = total s (Thread.count .read)
  agains : s.lock.recursionDepth = total s (Thread.count .again)
  write : total s (Thread.flag .drain .write) = s.lock.wantWrite.toNat
  upgrade : total s (Thread.flag .upgrade .upgrade) = s.lock.wantUpgrade.toNat
  small : s.lock.readCount < 2 ^ 16 ∧ s.lock.recursionDepth < 2 ^ 12
  ordered : ∀ t, Ordered (s.thread t).holds
  excl : ∀ t u, (s.thread t).Writes → u ≠ t → (s.thread u).holds = []
  recursive : ∀ t, .again ∈ (s.thread t).holds → s.lock.thread = some t ∧
    (s.thread t).phase ≠ .upgrade
  upgrading : ∀ t u, (s.thread t).phase = .upgrade → u ≠ t → ¬(s.thread u).Writes

/-- Besides, a thread that sleeps is known to the lock, which is in use. -/
structure Inv (s : State T) : Prop extends Books s where
  asleep : ∀ t, (s.thread t).asleep = true → s.lock.waiting = true
  use : s.lock.waiting = true → s.lock.inUse

/-- What has to be known when a section changes the lock and one thread. -/
theorem Books.update (h : Books s) (hthread : l.thread = s.lock.thread)
    (hr : l.readCount + (s.thread t).count .read = s.lock.readCount + th.count .read)
    (ha : l.recursionDepth + (s.thread t).count .again = s.lock.recursionDepth + th.count .again)
    (hw : l.wantWrite.toNat + (s.thread t).flag .drain .write =
    s.lock.wantWrite.toNat + th.flag .drain .write)
    (hu : l.wantUpgrade.toNat + (s.thread t).flag .upgrade .upgrade =
      s.lock.wantUpgrade.toNat + th.flag .upgrade .upgrade)
    (hsmall : l.readCount < 2 ^ 16 ∧ l.recursionDepth < 2 ^ 12) (ho : Ordered th.holds)
    (hrec : .again ∈ th.holds → s.lock.thread = some t ∧ th.phase ≠ .upgrade)
    (hexcl : th.Writes → ∀ u ≠ t, (s.thread u).holds = [] ∧ (s.thread u).phase ≠ .upgrade)
    (hheld : th.holds ≠ [] ∨ th.phase = .upgrade → ∀ u ≠ t, ¬(s.thread u).Writes) :
    Books (s.update l t th) := by
  refine ⟨?_, ?_, ?_, ?_, hsmall, fun u => ?_, fun u v hwrites hne => ?_, fun u hagain => ?_,
    fun u v hphase hne => ?_⟩
  · have := total_update s l t th (Thread.count .read)
    have := h.reads
    change l.readCount = _
    omega
  · have := total_update s l t th (Thread.count .again)
    have := h.agains
    change l.recursionDepth = _
    omega
  · have := total_update s l t th (Thread.flag .drain .write)
    have := h.write
    change _ = l.wantWrite.toNat
    omega
  · have := total_update s l t th (Thread.flag .upgrade .upgrade)
    have := h.upgrade
    change _ = l.wantUpgrade.toNat
    omega
  · by_cases hut : u = t
    · rw [hut, update_self]
      exact ho
    · rw [update_of_ne hut]
      exact h.ordered u
  · by_cases hut : u = t
    · subst hut
      rw [update_self] at hwrites
      rw [update_of_ne hne]
      exact (hexcl hwrites v hne).1
    · rw [update_of_ne hut] at hwrites
      by_cases hvt : v = t
      · subst hvt
        rw [update_self]
        by_contra hne'
        exact hheld (.inl hne') u hut hwrites
      · rw [update_of_ne hvt]
        exact h.excl u v hwrites hne
  · change l.thread = some u ∧ _
    rw [hthread]
    by_cases hut : u = t
    · subst hut
      rw [update_self] at hagain ⊢
      exact hrec hagain
    · rw [update_of_ne hut] at hagain ⊢
      exact h.recursive u hagain
  · by_cases hut : u = t
    · subst hut
      rw [update_self] at hphase
      rw [update_of_ne hne]
      exact hheld (.inr hphase) v hne
    · rw [update_of_ne hut] at hphase
      by_cases hvt : v = t
      · subst hvt
        rw [update_self]
        exact fun hwrites => (hexcl hwrites u hut).2 hphase
      · rw [update_of_ne hvt]
        exact h.upgrading u v hphase hne

theorem Books.sleeping (hb : Books (s.update l t th)) (h : Inv s)
    (hawake : th.asleep = true → l.waiting = true)
    (hwaiting : s.lock.waiting = true → l.waiting = true) (huse : l.waiting = true → l.inUse) :
    Inv (s.update l t th) := by
  refine ⟨hb, fun u hsleep => ?_, huse⟩
  by_cases hut : u = t
  · rw [hut, update_self] at hsleep
    exact hawake hsleep
  · rw [update_of_ne hut] at hsleep
    exact hwaiting (h.asleep u hsleep)

omit [DecidableEq T] in
theorem Books.wakeup (h : Books s) (ha : ∀ t, (s.thread t).asleep = true → s.lock.waiting = true) :
    Inv s.wakeup := by
  unfold State.wakeup
  split_ifs with hw
  · exact ⟨⟨h.reads, h.agains, h.write, h.upgrade, h.small, h.ordered, h.excl, h.recursive,
      h.upgrading⟩, fun _ hs => Bool.noConfusion hs, fun hs => Bool.noConfusion hs⟩
  · exact ⟨h, fun t hs => absurd (ha t hs) hw, fun hs => absurd hs hw⟩

section Facts

theorem Ordered.read (h : Ordered rest) : Ordered (.read :: rest) :=
  ⟨List.pairwise_cons.2 ⟨fun _ _ => Nat.zero_le _, h.sorted⟩, fun ha => by
    simpa using h.based (by simpa using ha)⟩

theorem Ordered.tail (h : Ordered (hold :: rest)) : Ordered rest := by
  obtain ⟨hle, hsorted⟩ := List.pairwise_cons.1 h.sorted
  refine ⟨hsorted, fun ha => ?_⟩
  have hrank : hold.rank ≤ 1 := hle _ ha
  have hb := h.based (List.mem_cons_of_mem _ ha)
  cases hold <;> simp_all [Hold.rank]

/-- A recursive hold may be added just above holds for writing. -/
theorem ordered_again (h : Ordered rest) : Ordered (.again :: rest) ↔ rest ≠ [] ∧ .read ∉ rest := by
  constructor
  · intro h'
    obtain ⟨hle, -⟩ := List.pairwise_cons.1 h'.sorted
    refine ⟨?_, fun hread => absurd (hle _ hread) (by decide)⟩
    rintro rfl
    simpa using h'.based (by simp)
  · rintro ⟨hne, hread⟩
    have hrank : ∀ x ∈ rest, x ≠ .read := fun x hx heq => hread (heq ▸ hx)
    refine ⟨List.pairwise_cons.2 ⟨fun x hx => ?_, h.sorted⟩, fun _ => ?_⟩
    · have := hrank x hx
      cases x <;> simp_all [Hold.rank]
    · obtain ⟨x, hx⟩ := List.exists_mem_of_ne_nil rest hne
      have := hrank x hx
      cases x with
      | read => exact absurd rfl this
      | again => simpa using h.based hx
      | upgrade => exact .inl (List.mem_cons_of_mem _ hx)
      | write => exact .inr (List.mem_cons_of_mem _ hx)

theorem not_writes_iff : ¬th.Writes ↔ ∀ x ∈ th.holds, x = .read := by
  unfold Thread.Writes
  push Not
  rfl

omit [DecidableEq T] in
theorem Books.no_upgrade (h : Books s) (hu : s.lock.wantUpgrade = false) (t : T) :
    (s.thread t).phase ≠ .upgrade ∧ .upgrade ∉ (s.thread t).holds := by
  have hle := le_total s t (Thread.flag .upgrade .upgrade)
  rw [h.upgrade, hu] at hle
  simp only [Thread.flag, Thread.count, Bool.toNat_false] at hle
  refine ⟨fun hp => ?_, List.count_eq_zero.1 (by omega)⟩
  rw [if_pos hp] at hle
  omega

omit [DecidableEq T] in
/-- Every hold for writing rests on one that has a flag. -/
theorem Books.not_writes (h : Books s) (hu : s.lock.wantUpgrade = false)
    (hnw : .write ∉ (s.thread t).holds) : ¬(s.thread t).Writes := by
  have hnu := (h.no_upgrade hu t).2
  rw [not_writes_iff]
  intro x hx
  cases x with
  | read => rfl
  | again => exact ((h.ordered t).based hx).elim (absurd · hnu) (absurd · hnw)
  | upgrade => exact absurd hx hnu
  | write => exact absurd hx hnw

omit [DecidableEq T] in
theorem Books.no_write (h : Books s) (hw : s.lock.wantWrite = false) (t : T) :
    .write ∉ (s.thread t).holds := by
  have hle := le_total s t (Thread.flag .drain .write)
  rw [h.write, hw] at hle
  simp only [Thread.flag, Thread.count, Bool.toNat_false] at hle
  exact List.count_eq_zero.1 (by omega)

omit [DecidableEq T] in
theorem Books.no_read (h : Books s) (h0 : s.lock.readCount = 0) (t : T) :
    .read ∉ (s.thread t).holds := by
  have := le_total s t (Thread.count .read)
  rw [← h.reads, h0] at this
  exact List.count_eq_zero.1 (Nat.le_zero.1 this)

omit [DecidableEq T] in
theorem Books.holds_eq_nil (h : Books s) (h0 : s.lock.readCount = 0) (hnw : ¬(s.thread t).Writes) :
    (s.thread t).holds = [] := by
  by_contra hne
  obtain ⟨x, hx⟩ := List.exists_mem_of_ne_nil _ hne
  exact h.no_read h0 t (not_writes_iff.1 hnw x hx ▸ hx)

omit [DecidableEq T] in
theorem Books.flag_of_writes (h : Books s) (hw : (s.thread t).Writes) :
    s.lock.wantWrite = true ∨ s.lock.wantUpgrade = true := by
  by_contra hno
  simp only [not_or, Bool.not_eq_true] at hno
  exact h.not_writes hno.2 (h.no_write hno.1 t) hw

omit [DecidableEq T] in
theorem Books.alone (h : Books s) (hw : (s.thread t).Writes) (u : T) (hne : u ≠ t) :
    (s.thread u).holds = [] ∧ (s.thread u).phase ≠ .upgrade :=
  ⟨h.excl t u hw hne, fun hp => h.upgrading u t hp hne.symm hw⟩

omit [DecidableEq T] in
theorem Books.not_writes_of_held (h : Books s) (hheld : (s.thread t).holds ≠ []) (u : T)
    (hne : u ≠ t) : ¬(s.thread u).Writes := fun hw => hheld (h.excl u t hw hne.symm)

theorem Ordered.count_eq_zero {x : Hold} (h : Ordered (hold :: rest)) (hx : x.rank < hold.rank) :
    (hold :: rest).count x = 0 := by
  obtain ⟨hle, -⟩ := List.pairwise_cons.1 h.sorted
  rw [List.count_eq_zero]
  intro hmem
  rcases List.mem_cons.1 hmem with rfl | hmem
  · exact lt_irrefl _ hx
  · exact absurd (hle x hmem) (by omega)

omit [DecidableEq T] in
theorem Books.sole (h : Books s) (hw : (s.thread t).Writes) :
    s.lock.readCount = (s.thread t).count .read ∧
    s.lock.recursionDepth = (s.thread t).count .again ∧
      s.lock.wantUpgrade.toNat = (s.thread t).flag .upgrade .upgrade := by
  rw [h.reads, h.agains, ← h.upgrade]
  refine ⟨Finset.sum_eq_single t (fun u _ hne => ?_) ?_,
    Finset.sum_eq_single t (fun u _ hne => ?_) ?_, Finset.sum_eq_single t (fun u _ hne => ?_) ?_⟩
  case refine_1 | refine_3 => simp [Thread.count, (h.alone hw u hne).1]
  case refine_5 => simp [Thread.flag, Thread.count, h.alone hw u hne]
  all_goals exact fun hno => absurd (Finset.mem_univ t) hno

end Facts

section Sections

variable {p q : Phase} {r : ℕ}

/-- One more read is right unless the counter overflows or another thread has the lock for
writing. -/
theorem Inv.addRead (h : Inv s) (hth : s.thread t = ⟨p, holds, false⟩)
    (hp : p = .idle ∨ p = .wantRead) :
    Inv (s.addRead t holds) ↔ s.lock.readCount < 2 ^ 16 - 1 ∧ ∀ u ≠ t, ¬(s.thread u).Writes := by
  have hs := h.small
  constructor
  · intro h'
    have hreads : inc 16 s.lock.readCount = s.lock.readCount + 1 := by
      have htotal := total_succ { s.lock with readCount := inc 16 s.lock.readCount }
        (m := Thread.count .read) (t := t)
        ⟨.idle, .read :: holds, false⟩ (by rw [hth]; exact List.count_cons_self)
      rw [h.reads, ← htotal, ← h.reads]
      exact h'.reads
    unfold inc at hreads
    refine ⟨by omega, fun u hne hw => ?_⟩
    have hnil := h'.excl u t (by rwa [State.addRead, update_of_ne hne]) hne.symm
    rw [State.addRead, update_self] at hnil
    cases hnil
  · rintro ⟨hlt, hnw⟩
    have hinc : inc 16 s.lock.readCount = s.lock.readCount + 1 := Nat.mod_eq_of_lt (by omega)
    have hwrites : Thread.Writes ⟨.idle, .read :: holds, false⟩ → (s.thread t).Writes := by
      rintro ⟨x, hx, hne⟩
      rw [hth]
      exact ⟨x, (List.mem_cons.1 hx).resolve_left hne, hne⟩
    refine Books.sleeping (h.update rfl ?_ ?_ ?_ ?_ ⟨by simp only [hinc]; omega, hs.2⟩ ?_ ?_
      (fun hw => h.alone (hwrites hw)) fun _ => hnw) h (fun hs => nomatch hs) id
      fun _ => .inr (.inr (by simp only [hinc]; omega))
    · simp only [hth, hinc, Thread.count, List.count_cons_self]
      omega
    · simp [hth, Thread.count]
    · rcases hp with rfl | rfl <;> simp [hth, Thread.count, Thread.flag]
    · rcases hp with rfl | rfl <;> simp [hth, Thread.count, Thread.flag]
    · have := h.ordered t
      rw [hth] at this
      exact this.read
    · intro ha
      have := h.recursive t (by rw [hth]; simpa using ha)
      exact ⟨this.1, fun hcon => nomatch hcon⟩

/-- One more recursive hold is right just above holds for writing, unless the counter overflows. -/
theorem Inv.again (h : Inv s) (hth : s.thread t = ⟨.idle, holds, false⟩)
  (hthread : s.lock.thread = some t)
    (hrest : Ordered rest) (hsub : rest ⊆ holds)
      (hr : r + holds.count .read = s.lock.readCount + rest.count .read)
    (hc : ∀ x ≠ .read, rest.count x = holds.count x) (hsmall : r < 2 ^ 16) :
    Inv (s.update { s.lock with readCount := r, recursionDepth := inc 12 s.lock.recursionDepth } t
      ⟨.idle, .again :: rest, false⟩) ↔
      rest ≠ [] ∧ .read ∉ rest ∧ s.lock.recursionDepth < 2 ^ 12 - 1 := by
  have hs := h.small
  constructor
  · intro h'
    have ho := h'.ordered t
    rw [update_self] at ho
    obtain ⟨hne, hread⟩ := (ordered_again hrest).1 ho
    have hagains : inc 12 s.lock.recursionDepth = s.lock.recursionDepth + 1 := by
      have htotal := total_succ { s.lock with
        readCount := r
        recursionDepth := inc 12 s.lock.recursionDepth }
        (m := Thread.count .again) (t := t) ⟨.idle, .again :: rest, false⟩
        (by rw [hth]; exact List.count_cons_self.trans (by rw [hc .again (by decide)]; rfl))
      rw [h.agains, ← htotal, ← h.agains]
      exact h'.agains
    unfold inc at hagains
    exact ⟨hne, hread, by omega⟩
  · rintro ⟨hne, hread, hlt⟩
    have hinc : inc 12 s.lock.recursionDepth = s.lock.recursionDepth + 1 :=
      Nat.mod_eq_of_lt (by omega)
    have hwrites : (s.thread t).Writes := by
      obtain ⟨x, hx⟩ := List.exists_mem_of_ne_nil rest hne
      rw [hth]
      exact ⟨x, hsub hx, fun heq => hread (heq ▸ hx)⟩
    have hheld : (s.thread t).holds ≠ [] := by
      obtain ⟨x, hx, -⟩ := hwrites
      exact List.ne_nil_of_mem hx
    refine Books.sleeping (h.update rfl ?_ ?_ ?_ ?_ ⟨hsmall, by simp only [hinc]; omega⟩
      ((ordered_again hrest).2 ⟨hne, hread⟩) (fun _ => ⟨hthread, fun hcon => nomatch hcon⟩)
      (fun _ => h.alone hwrites) fun _ => h.not_writes_of_held hheld)
        h (fun hs => nomatch hs) id fun _ => ?_
    · simpa [hth, Thread.count] using hr
    · simp only [hth, hinc, Thread.count, List.count_cons_self, hc .again (by decide)]
      omega
    · simp [hth, Thread.count, Thread.flag, hc .write (by decide)]
    · simp [hth, Thread.count, Thread.flag, hc .upgrade (by decide)]
    · rcases h.flag_of_writes hwrites with hw | hu
      · exact .inl hw
      · exact .inr (.inl hu)

theorem Inv.await (h : Inv s) {b : Bool} (hth : s.thread t = ⟨p, holds, false⟩)
    (hp : q = p ∨ (p = .idle ∧ (q = .wantWrite ∨ q = .wantRead))) (hb : l = s.lock ∧ b = false ∨
      l = { s.lock with waiting := true } ∧ s.lock.inUse) : Inv (s.update l t ⟨q, holds, b⟩) := by
  have hholds : (s.thread t).holds = holds := by rw [hth]
  have hup : q = .upgrade → (s.thread t).phase = .upgrade := by
    rcases hp with rfl | ⟨rfl, rfl | rfl⟩ <;> simp [hth]
  have hsame : ∀ p' x, Thread.flag p' x ⟨q, holds, b⟩ = (s.thread t).flag p' x ∨
    (p' ≠ .drain ∧ p' ≠ .upgrade) := by
    intro p' x
    rcases hp with rfl | ⟨rfl, rfl | rfl⟩ <;> cases p' <;> simp [hth, Thread.flag, Thread.count]
  have hw := (hsame .drain .write).resolve_right (by decide)
  have hu := (hsame .upgrade .upgrade).resolve_right (by decide)
  have hwrites : Thread.Writes ⟨q, holds, b⟩ → (s.thread t).Writes := fun hw => by
    rw [hth]
    exact hw
  have ho : Ordered holds := hholds ▸ h.ordered t
  have hrec : .again ∈ holds → s.lock.thread = some t ∧ q ≠ .upgrade := fun ha => by
    obtain ⟨hthread, hne⟩ := h.recursive t (hholds ▸ ha)
    exact ⟨hthread, fun hq => hne (hup hq)⟩
  have hheld : holds ≠ [] ∨ q = .upgrade → ∀ u ≠ t, ¬(s.thread u).Writes := by
    rintro (hne | hq) u hut
    · exact h.not_writes_of_held (hholds ▸ hne) u hut
    · exact h.upgrading t u (hup hq) hut
  obtain ⟨rfl, rfl⟩ | ⟨rfl, huse⟩ := hb
  · exact Books.sleeping (h.update rfl (by rw [hth]; rfl) (by rw [hth]; rfl) (by rw [hw])
      (by rw [hu]) h.small ho hrec
      (fun hw => h.alone (hwrites hw)) hheld) h (fun hs => nomatch hs) id h.use
  · exact Books.sleeping (h.update rfl (by rw [hth]; rfl) (by rw [hth]; rfl) (by rw [hw])
      (by rw [hu]) h.small ho hrec
      (fun hw => h.alone (hwrites hw)) hheld) h (fun _ => rfl) (fun _ => rfl) fun _ => huse

theorem Inv.claim (h : Inv s) (hth : s.thread t = ⟨.wantWrite, holds, false⟩)
    (hw : s.lock.wantWrite = false) :
    Inv (s.update { s.lock with wantWrite := true } t ⟨.drain, holds, false⟩) := by
  have hholds : (s.thread t).holds = holds := by rw [hth]
  refine Books.sleeping (h.update rfl (by rw [hth]; rfl) (by rw [hth]; rfl) ?_ ?_ h.small
    (hholds ▸ h.ordered t)
    (fun ha => ⟨(h.recursive t (hholds ▸ ha)).1, nofun⟩)
    (fun hw => h.alone (by rw [hth]; exact hw)) ?_)
    h (fun hs => nomatch hs) id fun _ => .inl rfl
  · simp [hth, hw, Thread.flag, Thread.count, Nat.add_comm]
  · simp [hth, Thread.flag, Thread.count]
  · rintro (hne | hp)
    · exact h.not_writes_of_held (hholds ▸ hne)
    · cases hp

/-- The lock is free, but for the flag that the thread has itself. -/
theorem Inv.takeWrite (h : Inv s) (hth : s.thread t = ⟨p, holds, false⟩) (h0 : s.lock.readCount = 0)
    (hu : s.lock.wantUpgrade = false)
    (hp : p = .idle ∧ s.lock.wantWrite = false ∨ p = .drain ∧ s.lock.wantWrite = true) :
    Inv (s.update { s.lock with wantWrite := true } t ⟨.idle, .write :: holds, false⟩) := by
  have hnone : ∀ u, (s.thread u).holds = [] := by
    intro u
    refine h.holds_eq_nil h0 (h.not_writes hu ?_)
    rcases hp with ⟨-, hw⟩ | ⟨hp, hw⟩
    · exact h.no_write hw u
    · -- the only flag is that of `t`
      have hone := h.write
      have hle : (s.thread u).count .write + 1 ≤ total s (Thread.flag .drain .write) := by
        by_cases hut : u = t
        · have := le_total s t (Thread.flag .drain .write)
          rw [hut]
          simp only [Thread.flag, hth, hp, if_true] at this ⊢
          omega
        · have := add_le_total s hut (Thread.flag .drain .write)
          simp only [Thread.flag, hth, hp, if_true] at this ⊢
          omega
      rw [hone, hw] at hle
      exact List.count_eq_zero.1 (Nat.le_zero.1 (Nat.le_of_succ_le_succ hle))
  have hnil : holds = [] := by simpa [hth] using hnone t
  subst hnil
  refine Books.sleeping (h.update rfl (by rw [hth]; rfl) (by rw [hth]; rfl) ?_ ?_ h.small
    ⟨List.pairwise_singleton _ _, fun ha => by simp at ha⟩ (fun ha => by simp at ha)
    (fun _ u _ => ⟨hnone u, (h.no_upgrade hu u).1⟩) ?_) h (fun hs => nomatch hs) id fun _ =>
    .inl rfl
  · rcases hp with ⟨rfl, hw⟩ | ⟨rfl, hw⟩ <;> simp [hth, hw, Thread.flag, Thread.count]
  · rcases hp with ⟨rfl, -⟩ | ⟨rfl, -⟩ <;> simp [hth, Thread.flag, Thread.count]
  · rintro - u - ⟨x, hx, -⟩
    rw [hnone u] at hx
    cases hx

theorem Inv.upgraded (h : Inv s) (hth : s.thread t = ⟨.upgrade, holds, false⟩)
    (h0 : s.lock.readCount = 0) : Inv (s.update s.lock t ⟨.idle, .upgrade :: holds, false⟩) := by
  have hholds : (s.thread t).holds = holds := by rw [hth]
  have hphase : (s.thread t).phase = .upgrade := by rw [hth]
  have hread : .read ∉ holds := hholds ▸ h.no_read h0 t
  have hagain : .again ∉ holds := fun ha => (h.recursive t (hholds ▸ ha)).2 hphase
  refine Books.sleeping (h.update rfl (by rw [hth]; rfl) (by rw [hth]; rfl) ?_ ?_ h.small ⟨?_,
    ?_⟩ ?_ ?_ fun _ u hne => h.upgrading t u hphase hne) h (fun hs => nomatch hs) id h.use
  · simp [hth, Thread.flag, Thread.count]
  · simp only [hth, Thread.flag, Thread.count, List.count_cons_self, if_true, reduceCtorEq,
      if_false]
    omega
  · refine List.pairwise_cons.2 ⟨fun x hx => ?_, hholds ▸ (h.ordered t).sorted⟩
    cases x with
    | read => exact absurd hx hread
    | again => exact absurd hx hagain
    | upgrade | write => decide
  · exact fun _ => .inl List.mem_cons_self
  · exact fun ha => absurd (by simpa using ha) hagain
  · intro _ u hne
    refine ⟨h.holds_eq_nil h0 (h.upgrading t u hphase hne), fun hp => ?_⟩
    -- two threads cannot both have `want_upgrade`
    have hle := add_le_total s hne (Thread.flag .upgrade .upgrade)
    rw [h.upgrade] at hle
    simp only [Thread.flag, hphase, hp, if_true] at hle
    have := Bool.toNat_le s.lock.wantUpgrade
    omega

omit [DecidableEq T] in
theorem Books.dec_read (h : Books s) (hth : s.thread t = ⟨p, .read :: rest, false⟩) :
    dec 16 s.lock.readCount + 1 = s.lock.readCount := by
  have hle := le_total s t (Thread.count .read)
  simp only [← h.reads, hth, Thread.count, List.count_cons_self] at hle
  have := h.small.1
  unfold dec
  omega

theorem Books.pop (h : Books s) (hth : s.thread t = ⟨.idle, hold :: rest, false⟩) (hp : p ≠ .drain)
    (hthread : l.thread = s.lock.thread)
    (hr : l.readCount + (hold :: rest).count .read = s.lock.readCount + rest.count .read)
    (ha : l.recursionDepth + (hold :: rest).count .again =
    s.lock.recursionDepth + rest.count .again)
    (hw : l.wantWrite.toNat + (hold :: rest).count .write =
    s.lock.wantWrite.toNat + rest.count .write)
    (hu : l.wantUpgrade.toNat + (hold :: rest).count .upgrade =
      s.lock.wantUpgrade.toNat + (if p = .upgrade then 1 else 0) + rest.count .upgrade)
    (hsmall : l.readCount < 2 ^ 16 ∧ l.recursionDepth < 2 ^ 12)
    (hq : p = .upgrade → s.lock.thread ≠ some t) : Books (s.update l t ⟨p, rest, false⟩) := by
  have hholds : (s.thread t).holds = hold :: rest := by rw [hth]
  have hheld : (s.thread t).holds ≠ [] := hholds ▸ List.cons_ne_nil _ _
  refine h.update hthread (by simpa [hth, Thread.count] using hr)
    (by simpa [hth, Thread.count] using ha)
    (by simpa [hth, Thread.flag, Thread.count, hp] using hw) ?_ hsmall
      ((hholds ▸ h.ordered t : Ordered _).tail) ?_ ?_
    fun _ => h.not_writes_of_held hheld
  · simp only [hth, Thread.flag, Thread.count, reduceCtorEq, if_false]
    omega
  · intro hmem
    have := (h.recursive t (hholds ▸ List.mem_cons_of_mem _ hmem)).1
    exact ⟨this, fun hp => hq hp this⟩
  · rintro ⟨x, hx, hne⟩
    exact h.alone ⟨x, hholds ▸ List.mem_cons_of_mem _ hx, hne⟩

theorem Books.dropRead (h : Books s) (hth : s.thread t = ⟨.idle, .read :: rest, false⟩) :
    Books (s.update { s.lock with readCount := dec 16 s.lock.readCount } t ⟨.idle, rest,
    false⟩) := by
  have hdec := h.dec_read hth
  have hsmall := h.small.1
  refine h.pop hth nofun rfl ?_ rfl rfl rfl ⟨?_, h.small.2⟩ nofun
  · simp only [List.count_cons_self]
    omega
  · simp only
    omega

section Top

variable (hth : s.thread t = ⟨.idle, hold :: rest, false⟩)

include hth

omit [DecidableEq T] in
theorem Books.no_reads (h : Books s) (hne : hold ≠ .read) : s.lock.readCount = 0 := by
  have ho : Ordered (hold :: rest) := by simpa [hth] using h.ordered t
  rw [(h.sole (t := t) ⟨hold, by simp [hth], hne⟩).1, hth]
  refine ho.count_eq_zero ?_
  cases hold with
  | read => exact absurd rfl hne
  | again | upgrade | write => decide

omit [DecidableEq T] in
/-- What `lower` gives back is the hold on top, for writing. -/
theorem Books.lower (h : Books s) (hne : hold ≠ .read)
    (hd : l.recursionDepth = s.lock.recursionDepth)
    (hw : l.wantWrite = s.lock.wantWrite) (hu : l.wantUpgrade = s.lock.wantUpgrade) :
    l.lower.thread = l.thread ∧ l.lower.readCount = l.readCount ∧ l.lower.waiting = l.waiting ∧
      l.lower.recursionDepth + (hold :: rest).count .again =
      s.lock.recursionDepth + rest.count .again ∧
      l.lower.wantWrite.toNat + (hold :: rest).count .write =
      s.lock.wantWrite.toNat + rest.count .write ∧
      l.lower.wantUpgrade.toNat + (hold :: rest).count .upgrade =
        s.lock.wantUpgrade.toNat + rest.count .upgrade ∧
      l.lower.recursionDepth < 2 ^ 12 := by
  have ho : Ordered (hold :: rest) := by simpa [hth] using h.ordered t
  obtain ⟨-, hdepth, hup⟩ := h.sole (t := t) ⟨hold, by simp [hth], hne⟩
  simp only [hth, Thread.flag, Thread.count, reduceCtorEq, if_false, Nat.zero_add] at hdepth hup
  have hsmall := h.small.2
  unfold Lock.lower
  rw [hd, hu]
  cases hold with
  | read => exact absurd rfl hne
  | again =>
    rw [List.count_cons_self] at hdepth
    rw [if_pos (by omega)]
    simp only [hw, dec, List.count_cons_self, List.count_cons_of_ne, ne_eq, reduceCtorEq,
      not_false_eq_true, true_and]
    omega
  | upgrade =>
    have hd0 := ho.count_eq_zero (x := .again) (by decide)
    rw [List.count_cons_self] at hup
    have hset : s.lock.wantUpgrade = true := by
      by_contra hno
      rw [Bool.not_eq_true] at hno
      rw [hno] at hup
      exact absurd hup (by simp)
    rw [if_neg (by omega), if_pos hset]
    simp only [hw, hset, List.count_cons_self, List.count_cons_of_ne, ne_eq, reduceCtorEq,
      not_false_eq_true, true_and, Bool.toNat_false, Bool.toNat_true]
    omega
  | write =>
    have hd0 := ho.count_eq_zero (x := .again) (by decide)
    have hu0 := ho.count_eq_zero (x := .upgrade) (by decide)
    have hset : s.lock.wantWrite = true := by
      by_contra hno
      rw [Bool.not_eq_true] at hno
      exact h.no_write hno t (by simp [hth])
    have hclear : s.lock.wantUpgrade = false := by
      by_contra hno
      rw [Bool.not_eq_false] at hno
      rw [hno, hu0] at hup
      exact absurd hup (by simp)
    rw [if_neg (by omega), if_neg (by simp [hclear])]
    have hle := le_total s t (Thread.flag .drain .write)
    rw [h.write, hset] at hle
    simp only [hth, Thread.flag, Thread.count, List.count_cons_self, reduceCtorEq, if_false] at hle
    simp only [hset, List.count_cons_self, List.count_cons_of_ne, ne_eq, reduceCtorEq,
      not_false_eq_true, true_and, Bool.toNat_false, Bool.toNat_true]
    omega

/-- `lock_done` gives back the hold on top. -/
theorem Books.release (h : Books s) :
    Books (s.update s.lock.release t ⟨.idle, rest, false⟩) ∧
    s.lock.release.waiting = s.lock.waiting := by
  by_cases hread : hold = .read
  · subst hread
    have hdec := h.dec_read hth
    have hrel : s.lock.release = { s.lock with readCount := dec 16 s.lock.readCount } :=
      if_pos (by omega)
    rw [hrel]
    exact ⟨h.dropRead hth, rfl⟩
  · have h0 := h.no_reads hth hread
    have hrel : s.lock.release = s.lock.lower := if_neg (by omega)
    rw [hrel]
    obtain ⟨hthread, hr, hwait, ha, hw, hu, hd⟩ := h.lower hth hread rfl rfl rfl
    refine ⟨h.pop hth nofun hthread ?_ ha hw (by simpa using hu) ⟨hr ▸ h.small.1, hd⟩ nofun, hwait⟩
    rw [hr, List.count_cons_of_ne hread]

theorem Books.writeToRead (h : Books s) (hne : hold ≠ .read) :
    Books (s.update ({ s.lock with readCount := inc 16 s.lock.readCount }).lower t
        ⟨.idle, .read :: rest, false⟩) ∧
      ({ s.lock with readCount := inc 16 s.lock.readCount } : Lock T).lower.waiting =
      s.lock.waiting := by
  have ho : Ordered (hold :: rest) := by simpa [hth] using h.ordered t
  have hwrites : (s.thread t).Writes := ⟨hold, by simp [hth], hne⟩
  have hholds : (s.thread t).holds = hold :: rest := by rw [hth]
  have h0 := h.no_reads hth hne
  have h1 : inc 16 s.lock.readCount = 1 := by rw [h0]; rfl
  obtain ⟨hthread, hr, hwait, ha, hw, hu, hd⟩ := h.lower hth hne
    (l := { s.lock with readCount := inc 16 s.lock.readCount }) rfl rfl rfl
  replace hr := hr.trans h1
  refine ⟨h.update hthread ?_ ?_ ?_ ?_ ⟨?_, hd⟩ ho.tail.read ?_ (fun _ => h.alone hwrites)
    fun _ => h.not_writes_of_held (hholds ▸ List.cons_ne_nil _ _), hwait⟩
  · rw [hr, h0]
    simp only [hth, Thread.count, List.count_cons_of_ne hne, List.count_cons_self]
    omega
  · simpa [hth, Thread.count] using ha
  · simpa [hth, Thread.flag, Thread.count] using hw
  · simpa [hth, Thread.flag, Thread.count] using hu
  · exact hr ▸ by norm_num
  · intro hmem
    have hmem' : Hold.again ∈ rest := by simpa using hmem
    exact ⟨(h.recursive t (hholds ▸ List.mem_cons_of_mem _ hmem')).1, nofun⟩

end Top

theorem Inv.asleep_update (h : Inv s)
    (hs : ((s.update l t ⟨p, rest, false⟩).thread u).asleep = true) : s.lock.waiting = true := by
  by_cases hut : u = t
  · rw [hut, update_self] at hs
    cases hs
  · rw [update_of_ne hut] at hs
    exact h.asleep u hs

/-- The threads that sleep are woken unless readers remain. -/
theorem Inv.done (h : Inv s) (hs' : s' = s.update l t ⟨p, rest, false⟩)
    (hb : Books (s.update l t ⟨p, rest, false⟩)) (hwait : l.waiting = s.lock.waiting) :
    Inv (if s'.lock.readCount = 0 then s'.wakeup else s') := by
  subst hs'
  split_ifs with h0
  · exact hb.wakeup fun u hs => hwait.trans (h.asleep_update hs)
  · exact hb.sleeping h (fun hs => nomatch hs) (fun hs => hwait.trans hs) fun _ => .inr (.inr h0)

end Sections

section Steps

variable (h : Inv s)

include h

theorem Inv.recurse (hth : s.thread t = ⟨.idle, holds, false⟩) (hthread : s.lock.thread = some t) :
    Inv (s.recurse t holds) ↔ holds ≠ [] ∧ .read ∉ holds ∧ s.lock.recursionDepth < 2 ^ 12 - 1 :=
  h.again hth hthread (by simpa [hth] using h.ordered t)
    (List.Subset.refl _) rfl (fun _ _ => rfl) h.small.1

omit h [Fintype T] in
/-- A count that has been set before does not matter to the recursive hold. -/
theorem recurse_setReads (s : State T) (r : ℕ) (t : T) (holds : List Hold) :
    ({ s with lock := { s.lock with readCount := r } } : State T).recurse t holds =
      s.update { s.lock with readCount := r, recursionDepth := inc 12 s.lock.recursionDepth } t
        ⟨.idle, .again :: holds, false⟩ := rfl

theorem Inv.recurse_read (hth : s.thread t = ⟨.idle, .read :: rest, false⟩)
    (hthread : s.lock.thread = some t) :
    Inv (({ s with lock := { s.lock with readCount := dec 16 s.lock.readCount } } : State T).recurse
      t rest) ↔ rest ≠ [] ∧ .read ∉ rest ∧ s.lock.recursionDepth < 2 ^ 12 - 1 := by
  have hdec := h.dec_read hth
  have hsmall := h.small.1
  have ho : Ordered (.read :: rest) := by simpa [hth] using h.ordered t
  have hcount : dec 16 s.lock.readCount + (Hold.read :: rest).count .read =
    s.lock.readCount + rest.count .read := by
    rw [List.count_cons_self]
    omega
  rw [recurse_setReads]
  exact h.again hth hthread ho.tail (List.subset_cons_self _ _) hcount
    (fun x hx => (List.count_cons_of_ne hx.symm).symm) (by omega)

theorem Inv.upgrade_wait (hth : s.thread t = ⟨.idle, .read :: rest, false⟩)
    (hthread : s.lock.thread ≠ some t) (hu : s.lock.wantUpgrade = false) :
    Inv (s.update { s.lock with readCount := dec 16 s.lock.readCount, wantUpgrade := true } t
      ⟨.upgrade, rest, false⟩) := by
  have hdec := h.dec_read hth
  have hsmall := h.small.1
  refine Books.sleeping (h.pop hth nofun rfl ?_ rfl rfl ?_ ⟨?_, h.small.2⟩ fun _ => hthread) h
    (fun hs => nomatch hs) id fun _ => .inr (.inl rfl)
  · simp only [List.count_cons_self]
    omega
  · simp [hu, List.count_cons_of_ne, Nat.add_comm]
  · simp only
    omega

omit [DecidableEq T] in
theorem Inv.setThread {o : Option T} (ho : ∀ u, .again ∈ (s.thread u).holds → o = some u) :
    Inv ({ s with lock := { s.lock with thread := o } } : State T) :=
  ⟨⟨h.reads, h.agains, h.write, h.upgrade, h.small, h.ordered, h.excl,
    fun u ha => ⟨ho u ha, (h.recursive u ha).2⟩, h.upgrading⟩, h.asleep, h.use⟩

omit h [Fintype T] in
/-- An upgrade, with the read hold given back in the state that it is made in. -/
theorem call_lockReadToWrite (s : State T) (t : T) (rest : List Hold) :
    call s (.read :: rest) (.lockReadToWrite t) =
      if s.lock.thread = some t then
        some (({ s with lock := { s.lock with readCount := dec 16 s.lock.readCount } } :
          State T).recurse t rest)
      else if s.lock.wantUpgrade = true then
        let s' :=
          s.update { s.lock with readCount := dec 16 s.lock.readCount } t ⟨.idle, rest, false⟩
        some (if s'.lock.readCount = 0 then s'.wakeup else s')
      else some (s.update { s.lock with
        readCount := dec 16 s.lock.readCount
        wantUpgrade := true } t ⟨.upgrade, rest, false⟩) := by
  -- with any count, so that `dec` is not computed
  have hany (r : ℕ) :
      (let s₁ : State T := { s with lock := { s.lock with readCount := r } }
       if s₁.lock.thread = some t then some (s₁.recurse t rest)
       else if s₁.lock.wantUpgrade then
         let s₂ := s₁.update s₁.lock t ⟨.idle, rest, false⟩
         some (if s₂.lock.readCount = 0 then s₂.wakeup else s₂)
       else some (s₁.update { s₁.lock with wantUpgrade := true } t ⟨.upgrade, rest, false⟩)) =
      if s.lock.thread = some t then
        some (({ s with lock := { s.lock with readCount := r } } : State T).recurse t rest)
      else if s.lock.wantUpgrade = true then
        let s' := s.update { s.lock with readCount := r } t ⟨.idle, rest, false⟩
        some (if s'.lock.readCount = 0 then s'.wakeup else s')
      else some (s.update { s.lock with
        readCount := r
        wantUpgrade := true } t ⟨.upgrade, rest, false⟩) := rfl
  exact hany (dec 16 s.lock.readCount)

omit h [Fintype T] in
theorem call_lockTryReadToWrite (s : State T) (t : T) (rest : List Hold) :
    call s (.read :: rest) (.lockTryReadToWrite t) =
      if s.lock.thread = some t then
        some (({ s with lock := { s.lock with readCount := dec 16 s.lock.readCount } } :
      State T).recurse t rest) else if s.lock.wantUpgrade = true then some s
      else some (s.update { s.lock with
        readCount := dec 16 s.lock.readCount
        wantUpgrade := true } t ⟨.upgrade, rest, false⟩) := by
  have hany (r : ℕ) :
      (let s₁ : State T := { s with lock := { s.lock with readCount := r } }
       if s.lock.thread = some t then some (s₁.recurse t rest)
       else if s.lock.wantUpgrade then some s
       else some (s₁.update { s₁.lock with wantUpgrade := true } t ⟨.upgrade, rest, false⟩)) =
      if s.lock.thread = some t then
        some (({ s with lock := { s.lock with readCount := r } } : State T).recurse t rest)
      else if s.lock.wantUpgrade = true then some s
      else some (s.update { s.lock with
        readCount := r
        wantUpgrade := true } t ⟨.upgrade, rest, false⟩) := rfl
  exact hany (dec 16 s.lock.readCount)

theorem Inv.of_call (hth : s.thread a.thread = ⟨.idle, holds, false⟩)
    (hs : call s holds a = some s') : Inv s' ↔ a.careful s := by
  cases a with
  | lockWrite t =>
    change s.thread t = _ at hth
    have hc : (Act.lockWrite t).careful s ↔ (s.lock.thread = some t → holds ≠ [] ∧ .read ∉ holds ∧
        s.lock.recursionDepth < 2 ^ 12 - 1) := by
      simp only [Act.careful, Act.addsRead, false_imp_iff, true_and, hth]
    rw [hc]
    simp only [call] at hs
    split_ifs at hs with ht <;> cases hs
    · rw [h.recurse hth ht]
      exact ⟨fun hi _ => hi, fun hi => hi ht⟩
    · exact iff_of_true (h.await hth (.inr ⟨rfl, .inl rfl⟩) (.inl ⟨rfl, rfl⟩)) fun ht' =>
        absurd ht' ht
  | lockTryWrite t =>
    change s.thread t = _ at hth
    have hc : (Act.lockTryWrite t).careful s ↔
        (s.lock.thread = some t → holds ≠ [] ∧ .read ∉ holds ∧
        s.lock.recursionDepth < 2 ^ 12 - 1) := by
      simp only [Act.careful, Act.addsRead, false_imp_iff, true_and, hth]
    rw [hc]
    simp only [call] at hs
    split_ifs at hs with ht hfree <;> cases hs
    · rw [h.recurse hth ht]
      exact ⟨fun hi _ => hi, fun hi => hi ht⟩
    · exact iff_of_true h fun ht' => absurd ht' ht
    · simp only [Bool.or_eq_true, decide_eq_true_eq, not_or, Bool.not_eq_true, not_not] at hfree
      obtain ⟨⟨hw, hu⟩, h0⟩ := hfree
      exact iff_of_true (h.takeWrite hth h0 hu (.inl ⟨rfl, hw⟩)) fun ht' => absurd ht' ht
  | lockRead t =>
    change s.thread t = _ at hth
    simp only [call] at hs
    simp only [Act.careful, Act.addsRead]
    split_ifs at hs with ht <;> cases hs
    · rw [h.addRead hth (.inl rfl)]
      exact ⟨fun hi => ⟨fun _ => hi.1, fun _ => hi.2⟩, fun hi => ⟨hi.1 ht, hi.2 ht⟩⟩
    · exact iff_of_true (h.await hth (.inr ⟨rfl, .inr rfl⟩) (.inl ⟨rfl, rfl⟩))
        ⟨fun ht' => absurd ht' ht, fun ht' => absurd ht' ht⟩
  | lockTryRead t =>
    change s.thread t = _ at hth
    simp only [call] at hs
    simp only [Act.careful, Act.addsRead]
    split_ifs at hs with ht hfree <;> cases hs
    · rw [h.addRead hth (.inl rfl)]
      exact ⟨fun hi => ⟨fun _ => hi.1, fun _ => hi.2⟩, fun hi => ⟨hi.1 (.inl ht), hi.2 ht⟩⟩
    · rw [Bool.or_eq_true] at hfree
      exact iff_of_true h ⟨fun hor => (hor.resolve_left ht hfree).elim, fun ht' => absurd ht' ht⟩
    · rw [Bool.or_eq_true] at hfree
      obtain ⟨hw, hu⟩ := not_or.1 hfree
      rw [h.addRead hth (.inl rfl)]
      have hnw : ∀ u ≠ t, ¬(s.thread u).Writes := fun u _ =>
        h.not_writes (by simpa using hu) (h.no_write (by simpa using hw) u)
      exact ⟨fun hi => ⟨fun _ => hi.1, fun ht' => absurd ht' ht⟩,
        fun hi => ⟨hi.1 (.inr hfree), hnw⟩⟩
  | lockReadToWrite t =>
    match holds, hth, hs with
    | .read :: rest, hth, hs =>
      change s.thread t = _ at hth
      have hc : (Act.lockReadToWrite t).careful s ↔
          (s.lock.thread = some t → rest ≠ [] ∧ .read ∉ rest ∧
          s.lock.recursionDepth < 2 ^ 12 - 1) := by
        simp only [Act.careful, Act.addsRead, false_imp_iff, true_and, hth, List.tail_cons]
      rw [hc]
      rw [call_lockReadToWrite] at hs
      by_cases ht : s.lock.thread = some t
      · rw [if_pos ht] at hs
        cases hs
        rw [h.recurse_read hth ht]
        exact ⟨fun hi _ => hi, fun hi => hi ht⟩
      · refine iff_of_true ?_ fun ht' => absurd ht' ht
        rw [if_neg ht] at hs
        by_cases hu : s.lock.wantUpgrade = true
        · rw [if_pos hu] at hs
          rw [← Option.some.inj hs]
          exact h.done rfl (h.dropRead hth) rfl
        · rw [if_neg hu] at hs
          cases hs
          exact h.upgrade_wait hth ht (by simpa using hu)
  | lockTryReadToWrite t =>
    match holds, hth, hs with
    | .read :: rest, hth, hs =>
      change s.thread t = _ at hth
      have hc : (Act.lockTryReadToWrite t).careful s ↔
          (s.lock.thread = some t → rest ≠ [] ∧ .read ∉ rest ∧
          s.lock.recursionDepth < 2 ^ 12 - 1) := by
        simp only [Act.careful, Act.addsRead, false_imp_iff, true_and, hth, List.tail_cons]
      rw [hc]
      rw [call_lockTryReadToWrite] at hs
      split_ifs at hs with ht hu <;> cases hs
      · rw [h.recurse_read hth ht]
        exact ⟨fun hi _ => hi, fun hi => hi ht⟩
      · exact iff_of_true h fun ht' => absurd ht' ht
      · refine iff_of_true ?_ fun ht' => absurd ht' ht
        exact h.upgrade_wait hth ht (by simpa using hu)
  | lockWriteToRead t =>
    match holds, hth, hs with
    | hold :: rest, hth, hs =>
      change s.thread t = _ at hth
      have hne : hold ≠ .read := by
        rintro rfl
        cases hs
      have h0 : s.lock.readCount = 0 := h.no_reads hth hne
      obtain ⟨hb, hwait⟩ := h.writeToRead hth hne
      have hs' : s' =
          (s.update ({ s.lock with readCount := inc 16 s.lock.readCount } : Lock T).lower t
          ⟨.idle, .read :: rest, false⟩).wakeup := by
        cases hold <;> first | exact absurd rfl hne | exact (Option.some.inj hs).symm
      rw [hs']
      exact iff_of_true (hb.wakeup fun u hs => hwait.trans (h.asleep_update hs))
        ⟨fun _ => by rw [h0]; norm_num, trivial⟩
  | lockDone t =>
    match holds, hth, hs with
    | hold :: rest, hth, hs =>
      change s.thread t = _ at hth
      rw [← Option.some.inj hs]
      obtain ⟨hb, hwait⟩ := h.release hth
      exact iff_of_true (h.done rfl hb hwait) ⟨False.elim, trivial⟩
  | lockSetRecursive t =>
    simp only [call] at hs
    split_ifs at hs with hw
    cases hs
    simp only [Bool.and_eq_true, List.any_eq_true, decide_eq_true_eq] at hw
    obtain ⟨⟨x, hx, hne⟩, -⟩ := hw
    refine iff_of_true (h.setThread fun u ha => ?_) ⟨False.elim, trivial⟩
    by_contra hut
    have hnil := h.excl t u ⟨x, by rw [show s.thread t = _ from hth]; exact hx, hne⟩ fun he =>
      hut (he ▸ rfl)
    rw [hnil] at ha
    cases ha
  | lockClearRecursive t =>
    simp only [call] at hs
    split_ifs at hs with ht h0 <;> cases hs
    · refine iff_of_true (h.setThread fun u ha => ?_) ⟨False.elim, trivial⟩
      have hle := le_total s u (Thread.count .again)
      rw [← h.agains, h0] at hle
      exact absurd ha (List.count_eq_zero.1 (Nat.le_zero.1 hle))
    · exact iff_of_true h ⟨False.elim, trivial⟩
  | proceed t | sleep t => cases hs

theorem Inv.of_proceed {p : Phase} (hth : s.thread t = ⟨p, holds, false⟩)
    (hb : s.lock.blocks p = false)
    (hs : proceed s t holds p = some s') : Inv s' ↔ (Act.proceed t).careful s := by
  have hc : (Act.proceed t).careful s ↔ (p = .wantRead → s.lock.readCount < 2 ^ 16 - 1) := by
    simp only [Act.careful, Act.addsRead, hth, and_true]
  rw [hc]
  cases p with
  | idle => cases hs
  | wantWrite =>
    cases hs
    exact iff_of_true (h.claim hth hb) nofun
  | drain =>
    cases hs
    simp only [Lock.blocks, Bool.or_eq_false_iff, decide_eq_false_iff_not, not_not] at hb
    have hw : s.lock.wantWrite = true := by
      have hle := le_total s t (Thread.flag .drain .write)
      rw [h.write, hth] at hle
      by_contra hno
      rw [Bool.not_eq_true] at hno
      simp [hno, Thread.flag] at hle
    have htake := h.takeWrite hth hb.1 hb.2 (.inr ⟨rfl, hw⟩)
    rw [← congrArg (fun b => ({ s.lock with wantWrite := b } : Lock T)) hw] at htake
    exact iff_of_true htake nofun
  | wantRead =>
    cases hs
    simp only [Lock.blocks, Bool.or_eq_false_iff] at hb
    rw [h.addRead hth (.inr rfl)]
    exact ⟨fun hi _ => hi.1, fun hi => ⟨hi rfl, fun u _ => h.not_writes hb.2 (h.no_write hb.1 u)⟩⟩
  | upgrade =>
    cases hs
    simp only [Lock.blocks, decide_eq_false_iff_not, not_not] at hb
    exact iff_of_true (h.upgraded hth hb) nofun

theorem Inv.of_sleep {p : Phase} (hth : s.thread t = ⟨p, holds, false⟩)
    (hb : s.lock.blocks p = true) :
    Inv (s.update { s.lock with waiting := true } t ⟨p, holds, true⟩) := by
  refine h.await hth (.inl rfl) (.inr ⟨rfl, ?_⟩)
  cases p with
  | idle => cases hb
  | wantWrite => exact .inl hb
  | drain =>
    simp only [Lock.blocks, Bool.or_eq_true, decide_eq_true_eq] at hb
    exact .inr hb.symm
  | wantRead =>
    simp only [Lock.blocks, Bool.or_eq_true] at hb
    exact hb.imp_right .inl
  | upgrade => exact .inr (.inr (by simpa [Lock.blocks] using hb))

/-- A section keeps the books exactly if it is a careful one. -/
theorem Inv.of_step (hs : step s a = some s') : Inv s' ↔ a.careful s := by
  rcases hth : s.thread a.thread with ⟨p, holds, b⟩
  have hb : b = false := by
    by_contra hb
    rw [Bool.not_eq_false] at hb
    simp [step, hth, hb] at hs
  subst hb
  simp only [step, hth, Bool.false_eq_true, if_false] at hs
  cases a with
  | proceed t =>
    simp only at hs
    split_ifs at hs with hblock
    exact h.of_proceed hth (by simpa using hblock) hs
  | sleep t =>
    simp only at hs
    split_ifs at hs with hblock
    cases hs
    exact iff_of_true (h.of_sleep hth hblock) ⟨False.elim, trivial⟩
  | _ =>
    simp only at hs
    split_ifs at hs with hidle
    subst hidle
    exact h.of_call hth hs

omit [DecidableEq T] in
theorem Inv.user (huse : s.lock.inUse) :
    ∃ u, (s.thread u).holds ≠ [] ∨ (s.thread u).phase = .drain ∨ (s.thread u).phase = .upgrade := by
  have hsome : ∀ m : Thread → ℕ, total s m ≠ 0 → ∃ u, m (s.thread u) ≠ 0 := fun m hne => by
    obtain ⟨u, -, hu⟩ := Finset.exists_ne_zero_of_sum_ne_zero hne
    exact ⟨u, hu⟩
  have hheld : ∀ u x, (s.thread u).holds.count x ≠ 0 → (s.thread u).holds ≠ [] :=
    fun u x hne hnil => by
    simp [hnil] at hne
  rcases huse with hw | hu | hr
  · obtain ⟨u, hu⟩ := hsome (Thread.flag .drain .write) (by rw [h.write, hw]; decide)
    by_cases hp : (s.thread u).phase = .drain
    · exact ⟨u, .inr (.inl hp)⟩
    · exact ⟨u, .inl (hheld u .write (by simpa [Thread.flag, Thread.count, hp] using hu))⟩
  · obtain ⟨u, hu⟩ := hsome (Thread.flag .upgrade .upgrade) (by rw [h.upgrade, hu]; decide)
    by_cases hp : (s.thread u).phase = .upgrade
    · exact ⟨u, .inr (.inr hp)⟩
    · exact ⟨u, .inl (hheld u .upgrade (by simpa [Thread.flag, Thread.count, hp] using hu))⟩
  · obtain ⟨u, hu⟩ := hsome (Thread.count .read) (by rwa [← h.reads])
    exact ⟨u, .inl (hheld u .read hu)⟩

omit [DecidableEq T] in
theorem Inv.sound : Sound s := ⟨h.excl, h.reads, fun t hs => h.user (h.use (h.asleep t hs))⟩

end Steps

omit [DecidableEq T] in
theorem inv_init : Inv (init : State T) := by
  have hzero : ∀ m : Thread → ℕ, m ⟨.idle, [], false⟩ = 0 → total (init : State T) m = 0 :=
    fun m hm =>
    Finset.sum_eq_zero fun t _ => hm
  refine ⟨⟨(hzero _ rfl).symm, (hzero _ rfl).symm, hzero _ rfl, hzero _ rfl,
    ⟨Nat.two_pow_pos 16, Nat.two_pow_pos 12⟩, fun t => ⟨.nil, nofun⟩, ?_,
    nofun, nofun⟩, nofun, nofun⟩
  exact fun t u _ _ => rfl

theorem Reached.inv (hr : Reached s) : Inv s := by
  induction hr with
  | init => exact inv_init
  | step a _ hc hs ih => exact (ih.of_step hs).2 hc

end XMach.SleepLock
