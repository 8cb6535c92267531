import XMach.Kern.MappedTime

/-!
# What the mapped time shows

The seconds are stored last and checked first. While a call has loaded the seconds of the system
time, the update before has the same seconds (`Inv.loaded`); if the system time has others, then
`check_seconds` has, too, unless they are yet to be stored. So the microseconds that it loads are
those of one update with the seconds that it has loaded, or the check fails.
-/

namespace XMach.MappedTime

open Clock (TimeValue)

variable {s s' : State} {a : Act} {clock : Clock.State} {c : ℤ}

/-- A call returns what was published in its last iteration. -/
def Consistent (s : State) : Prop := ∀ v, s.reader = .returned v → v ∈ s.window

/-- How far the update is. -/
def Stored (s : State) : Prop :=
  match s.pending with
  | none => s.mtime = ⟨s.clock.time.seconds, s.clock.time.microseconds, s.clock.time.seconds⟩ ∧
    s.published = s.clock.time
  | some .check => s.mtime = ⟨s.published.seconds, s.published.microseconds, s.published.seconds⟩
  | some .microseconds => s.mtime = ⟨s.published.seconds, s.published.microseconds,
      s.clock.time.seconds⟩
  | some .seconds => s.mtime = ⟨s.published.seconds, s.clock.time.microseconds,
      s.clock.time.seconds⟩

/-- What a call has loaded. -/
def Loaded (s : State) : Prop :=
  match s.reader with
  | .loaded c => s.clock.time.seconds = c → s.published.seconds = c
  | .both c m => ⟨c, m⟩ ∈ s.window ∨ (s.clock.time.seconds ≠ c ∧ s.mtime.checkSeconds ≠ c)
  | .returned v => v ∈ s.window
  | _ => True

structure Inv (s : State) : Prop where
  stored : Stored s
  loaded : Loaded s

theorem watch_eq : s.watch = { s with window := s.watch.window } := by
  unfold State.watch
  split <;> rfl

theorem mem_watch {v : TimeValue} (h : v ∈ s.window) : v ∈ s.watch.window := by
  unfold State.watch
  split
  · exact List.mem_append_left _ h
  · exact h

theorem mem_watch_of_shows {v : TimeValue} (hr : s.reader.seconds?.isSome = true)
    (h : v ∈ s.shows) : v ∈ s.watch.window := by
  unfold State.watch
  rw [if_pos hr]
  exact List.mem_append_right _ h

theorem Inv.watch (h : Inv s) : Inv s.watch := by
  obtain ⟨hstored, hloaded⟩ := h
  rw [watch_eq]
  refine ⟨hstored, ?_⟩
  unfold Loaded at hloaded ⊢
  cases hr : s.reader with
  | outside | start => trivial
  | loaded c =>
    rw [hr] at hloaded
    exact hloaded
  | both c m =>
    rw [hr] at hloaded
    exact hloaded.imp_left mem_watch
  | returned v =>
    rw [hr] at hloaded
    exact mem_watch hloaded

section Steps

theorem Inv.update (h : Inv s) (hc : clock.time.seconds = s.clock.time.seconds ∨
    s.reader.seconds? ≠ some clock.time.seconds) (hs : s.update clock = some s') : Inv s' := by
  obtain ⟨hnone, hs⟩ := Option.ite_none_right_eq_some.1 hs
  cases hs
  obtain ⟨hstored, hloaded⟩ := h
  unfold Stored at hstored
  rw [hnone] at hstored
  obtain ⟨hmtime, hpublished⟩ := hstored
  refine Inv.watch ⟨?_, ?_⟩
  · show s.mtime = _
    rw [hmtime, hpublished]
  unfold Loaded at hloaded ⊢
  cases hr : s.reader with
  | outside | start => trivial
  | loaded c =>
    rw [hr] at hc
    intro heq
    rcases hc with hsame | hne
    · rw [hpublished, ← hsame]
      exact heq
    · exact absurd (congrArg some heq.symm) hne
  | both c m =>
    rw [hr] at hc hloaded
    refine hloaded.imp_right fun ⟨hsec, hcheck⟩ => ⟨fun heq => ?_, hcheck⟩
    rcases hc with hsame | hne
    · exact hsec (hsame.symm.trans heq)
    · exact hne (congrArg some heq.symm)
  | returned v =>
    rw [hr] at hloaded
    exact hloaded

/-- A store leaves of the check and of what is published either what was there or the system
time's. -/
theorem Loaded.store {t : State} (h : Loaded s) (hreader : t.reader = s.reader)
    (hwindow : t.window = s.window)
    (hclock : t.clock = s.clock) (hpublished : t.published = s.published ∨
    t.published = s.clock.time)
    (hcheck : t.mtime.checkSeconds = s.mtime.checkSeconds ∨
    t.mtime.checkSeconds = s.clock.time.seconds) : Loaded t := by
  unfold Loaded at h ⊢
  rw [hreader, hwindow, hclock]
  cases hr : s.reader with
  | outside | start => trivial
  | loaded c =>
    rw [hr] at h
    intro heq
    rcases hpublished with hpub | hpub <;> rw [hpub]
    · exact h heq
    · exact heq
  | both c m =>
    rw [hr] at h
    refine h.imp_right fun ⟨hsec, hne⟩ => ⟨hsec, ?_⟩
    rcases hcheck with hch | hch <;> rw [hch]
    · exact hne
    · exact hsec
  | returned v =>
    rw [hr] at h
    exact h

theorem Inv.store (h : Inv s) (hs : s.store = some s') : Inv s' := by
  obtain ⟨hstored, hloaded⟩ := h
  unfold State.store at hs
  unfold Stored at hstored
  split at hs <;> rename_i hp <;> rw [hp] at hstored
  · cases hs
  all_goals obtain rfl := Option.some.inj hs
  · refine Inv.watch ⟨?_, hloaded.store rfl rfl rfl (.inl rfl) (.inr rfl)⟩
    simp only [Stored, hstored]
  · refine Inv.watch ⟨?_, hloaded.store rfl rfl rfl (.inl rfl) (.inl rfl)⟩
    simp only [Stored, hstored]
  · refine Inv.watch ⟨?_, hloaded.store rfl rfl rfl (.inr rfl) (.inl rfl)⟩
    simp only [Stored, hstored, and_self]

theorem Stored.seconds (h : Stored s) : s.mtime.seconds = s.published.seconds := by
  unfold Stored at h
  split at h
  · rw [h.1, h.2]
  all_goals rw [h]

/-- The microseconds belong to the seconds that were loaded before, or the check is going to
fail. -/
theorem Inv.shows_or (h : Inv s) (hr : s.reader = .loaded c) :
    ⟨c, s.mtime.microseconds⟩ ∈ s.shows ∨
    (s.clock.time.seconds ≠ c ∧ s.mtime.checkSeconds ≠ c) := by
  obtain ⟨hstored, hloaded⟩ := h
  simp only [Loaded, hr] at hloaded
  have hshows (hc : s.mtime.seconds = c) (h : s.mtime.time = s.clock.time ∨
      s.mtime.time = s.published) : ⟨c, s.mtime.microseconds⟩ ∈ s.shows := by
    rw [State.shows, if_pos h, List.mem_singleton, Mapped.time, hc]
  have hseconds := hstored.seconds
  unfold Stored at hstored
  by_cases hsec : s.clock.time.seconds = c
  · -- the update before has the same seconds
    refine .inl (hshows (hseconds.trans (hloaded hsec)) ?_)
    split at hstored
    · exact .inl (by rw [hstored.1]; rfl)
    · exact .inr (by rw [hstored]; rfl)
    · exact .inr (by rw [hstored]; rfl)
    · refine .inl ?_
      rw [hstored, Mapped.time, hloaded hsec, ← hsec]
  split at hstored
  · exact .inr ⟨hsec, by rw [hstored.1]; exact hsec⟩
  · by_cases hpub : s.published.seconds = c
    · exact .inl (hshows (hseconds.trans hpub) (.inr (by rw [hstored]; rfl)))
    · exact .inr ⟨hsec, by rw [hstored]; exact hpub⟩
  · exact .inr ⟨hsec, by rw [hstored]; exact hsec⟩
  · exact .inr ⟨hsec, by rw [hstored]; exact hsec⟩

theorem Inv.setClock (h : Inv s) (htime : clock.time = s.clock.time) : Inv { s with clock } := by
  obtain ⟨hstored, hloaded⟩ := h
  unfold Stored at hstored
  unfold Loaded at hloaded
  constructor
  · unfold Stored
    simp only [htime]
    exact hstored
  · unfold Loaded
    simp only [htime]
    exact hloaded

theorem Stored.read {r : Reader} {w : List TimeValue} (h : Stored s) :
    Stored { s with reader := r, window := w } := h

theorem Inv.step (h : Inv s) (hc : a.Careful s) (hs : MappedTime.step s a = some s') : Inv s' := by
  cases a with
  | clockInterrupt usec => exact h.update hc hs
  | hostSetTime newTime => exact h.update hc hs
  | hostAdjustTime adj =>
    cases hs
    exact h.setClock (Clock.hostAdjustTime_time adj s.clock)
  | store => exact h.store hs
  | hostGetTime =>
    simp only [MappedTime.step] at hs
    split at hs
    · cases hs
      exact ⟨h.stored, trivial⟩
    · cases hs
      exact ⟨h.stored, trivial⟩
    · cases hs
  | loadSeconds =>
    simp only [MappedTime.step] at hs
    split at hs
    · cases hs
      exact Inv.watch ⟨h.stored.read, fun _ => h.stored.seconds.symm⟩
    · cases hs
  | loadMicroseconds =>
    simp only [MappedTime.step] at hs
    split at hs
    · next c hr =>
      cases hs
      rw [watch_eq]
      exact ⟨h.stored, (h.shows_or hr).imp_left (mem_watch_of_shows rfl)⟩
    · cases hs
  | loadCheck =>
    simp only [MappedTime.step] at hs
    split at hs
    · next c m hr =>
      have hloaded := h.loaded
      simp only [Loaded, hr] at hloaded
      split at hs <;> obtain rfl := Option.some.inj hs
      · next heq => exact ⟨h.stored, hloaded.resolve_right fun hne => hne.2 heq.symm⟩
      · exact ⟨h.stored, trivial⟩
    · cases hs

theorem inv_reach (h : machine.Reach (fun s a => a.Careful s) s) : Inv s := by
  refine h.inv ?_ fun _ _ _ h hc hs => h.step hc hs
  rintro _ ⟨clock, rfl⟩
  exact ⟨⟨rfl, rfl⟩, trivial⟩

end Steps

/-- A call returns what was published in its last iteration, in a run in which no update brings back
the seconds that the call has loaded. -/
theorem careful_reads_consistent (h : machine.Reach (fun s a => a.Careful s) s) : Consistent s := by
  intro v hv
  have hloaded := (inv_reach h).loaded
  simp only [Loaded, hv] at hloaded
  exact hloaded

def clockAtTen : Clock.State := ⟨⟨10, 5⟩, 0, 0⟩

/-- A tick between the loads, and the clock set back by a second. -/
theorem careful_reads_consistent_back :
    ∃ s : State, (s.reader = .returned ⟨9, 10007⟩ ∧ s.published = ⟨9, 7⟩) ∧ Consistent s :=
  ⟨_, ⟨rfl, rfl⟩, careful_reads_consistent <| (Machine.Reach.start (M := machine) ⟨clockAtTen, rfl⟩
    |>.step .hostGetTime (by decide) rfl |>.step .loadSeconds (by decide) rfl
    |>.step (.hostSetTime ⟨9, 7⟩)
      (by decide) rfl |>.step .store (by decide) rfl |>.step .store (by decide) rfl
    |>.step .loadMicroseconds (by decide) rfl |>.step .store (by decide) rfl |>.step .loadCheck
      (by decide) rfl
    |>.step .loadSeconds (by decide) rfl |>.step (.clockInterrupt 10000) (by decide) rfl
    |>.step .store (by decide) rfl |>.step .store (by decide) rfl |>.step .loadMicroseconds
      (by decide) rfl
    |>.step .loadCheck (by decide) rfl)⟩

def State.torn (s : State) : Bool := s.reader = .returned ⟨10, 7⟩ ∧ ⟨10, 7⟩ ∉ s.window

/-- The clock is set back and then to the seconds that were loaded: the call returns them with the
microseconds of the time between. -/
theorem set_back_reads_torn : ¬∀ s, machine.Reach Machine.Any s → Consistent s := by
  intro h
  obtain ⟨s, hs, hp⟩ := Machine.Reach.exists_run (M := machine) (p := State.torn) ⟨clockAtTen, rfl⟩
    (Machine.along_any _ _ [.hostGetTime, .loadSeconds, .hostSetTime ⟨9, 7⟩, .store, .store,
      .loadMicroseconds, .store, .hostSetTime ⟨10, 3⟩, .store, .loadCheck]) (by decide)
  obtain ⟨hreturned, hwindow⟩ := of_decide_eq_true hp
  exact hwindow (h s hs _ hreturned)

end XMach.MappedTime
