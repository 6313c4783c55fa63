import AesdChar.FileBuild.Threads

/-!
# The mutex around the data file

As long as every `fopen` gives a stream, `list_mutex` is held by exactly the thread between its lock
and its unlock in `readfile` or `writefile`. The first `fopen` that fails leaves the function with the
mutex locked: nobody is between the two then, nobody can lock any more, and every later call waits
for ever (`run_access`, `wedged_for_ever`). So the mutex is free whenever no thread is in a call
exactly if no `fopen` has failed (`mutex_free_iff`).
-/

namespace AesdChar
open Mutex

variable {s s' : FileServer} {l : FileLabel} {o : Event} {file : Option (List UInt8)}
  {acts acts' : List FileLabel} {outs outs' : List Event} {guard : FileServer → FileLabel → Prop}

/-- The thread is behind the lock in `readfile` or `writefile`, and not yet behind the unlock. -/
def FileServer.HoldsMutex (s : FileServer) (t : FileThread) : Prop :=
  ∃ call, s.callOf t = some call ∧ call.point ≠ .lock

/-- An `fopen` in `readfile` or `writefile` has failed. -/
def FailedOpen (acts : List FileLabel) : Prop :=
  ∃ l ∈ acts, ∃ t, l.calling = some (t, .fopen false)

theorem not_failedOpen {acts : List FileLabel}
    (h : ∀ l ∈ acts, l.calling.map Prod.snd ≠ some (.fopen false)) : ¬ FailedOpen acts := by
  rintro ⟨l, hl, t, ht⟩
  exact h l hl (by rw [ht, Option.map_some])

/-- Nobody is behind the lock, and the mutex is locked. -/
def FileServer.Wedged (s : FileServer) : Prop :=
  s.disk.list_mutex ≠ none ∧ ∀ t, ¬ s.HoldsMutex t

theorem Begins.holds_iff {t : FileThread} {produced : List (List UInt8)}
    (h : Begins produced (s.callOf t) (s'.callOf t)) : s'.HoldsMutex t ↔ s.HoldsMutex t := by
  unfold FileServer.HoldsMutex
  rcases h with ⟨heq, -⟩ | ⟨hnone, job, hstart, -⟩
  · rw [heq]
  · rw [hnone, hstart]
    constructor
    · rintro ⟨call, hcall, hne⟩
      obtain rfl := Option.some.inj hcall
      exact absurd rfl hne
    · rintro ⟨call, hcall, -⟩
      cases hcall

theorem holds_of_others {t u : FileThread} (h : ∀ u, u ≠ t → s'.callOf u = s.callOf u) (hu : u ≠ t) :
    s'.HoldsMutex u ↔ s.HoldsMutex u := by
  unfold FileServer.HoldsMutex
  rw [h u hu]

theorem holds_iff_of_call {t : FileThread} {r : CallResult} (h : s'.callOf t = r.call) :
    s'.HoldsMutex t ↔ ∃ call, r.call = some call ∧ call.point ≠ .lock := by
  unfold FileServer.HoldsMutex
  rw [h]

/-- A step in which no `fopen` fails hands the mutex over, and the one in which it does leaves the
server wedged. -/
theorem step_tracks (hs : Tracks s.disk.list_mutex s.HoldsMutex) (h : s.step l = some (s', o)) :
    ((∀ t, l.calling ≠ some (t, .fopen false)) ∧ Tracks s'.disk.list_mutex s'.HoldsMutex) ∨
      ((∃ t, l.calling = some (t, .fopen false)) ∧ s'.Wedged) := by
  rcases step_calls h with ⟨t, c, call, d, r, hl, hcall, hdisk, rfl, hafter, hothers⟩ |
    ⟨hnone, hdisk, hbegins⟩
  · have hothers' : ∀ u, u ≠ t → (s'.HoldsMutex u ↔ s.HoldsMutex u) := fun u => holds_of_others hothers
    have hafter' := holds_iff_of_call hafter
    have hbefore : s.HoldsMutex t ↔ call.point ≠ .lock := by
      unfold FileServer.HoldsMutex
      rw [hcall]
      constructor
      · rintro ⟨call', heq, hne⟩
        obtain rfl := Option.some.inj heq
        exact hne
      · exact fun hne => ⟨call, rfl, hne⟩
    -- what the step does to this thread and the mutex
    have hkeep : ∀ call', r.call = some call' → call.point ≠ .lock → call'.point ≠ .lock →
        s'.disk.list_mutex = s.disk.list_mutex → Tracks s'.disk.list_mutex s'.HoldsMutex := by
      intro call' hr hp hp' hmutex
      rw [hmutex]
      refine hs.step (.keep ?_) hothers'
      rw [hafter', hbefore]
      exact iff_of_true ⟨call', hr, hp'⟩ hp
    have hne : ∀ {b : CallAction}, b ≠ .fopen false → l.calling = some (t, b) →
        ∀ u, l.calling ≠ some (u, .fopen false) := by
      intro b hb hl u hu
      rw [hl] at hu
      exact hb (Prod.mk.inj (Option.some.inj hu)).2
    generalize hd : s'.disk = d at *
    cases Disk.stepped_of_step hdisk with
    | lock hpoint hfree =>
      refine Or.inl ⟨hne (by simp) hl, hs.step (.take (hafter'.2 ⟨_, rfl, by simp⟩) hfree) hothers'⟩
    | opened hpoint hopen =>
      exact Or.inl ⟨hne (by simp) hl, hkeep _ rfl (by simp [hpoint]) (by simp) (Disk.fopen_mutex hopen)⟩
    | failed hpoint =>
      have hheld : s.disk.list_mutex = some t := (hs t).2 (hbefore.2 (by simp [hpoint]))
      refine Or.inr ⟨⟨t, hl⟩, by rw [hd, hheld]; simp, fun u hu => ?_⟩
      by_cases hut : u = t
      · subst hut
        obtain ⟨call', hcall', -⟩ := hafter'.1 hu
        cases hcall'
      · have hu' := (hs u).2 ((hothers' u hut).1 hu)
        exact hut (Option.some.inj (hu'.symm.trans hheld))
    | transfer hpoint hmoved =>
      exact Or.inl ⟨hne (by simp) hl,
        hkeep _ rfl (by simp [hpoint]) (by simp) (Disk.transfer_mutex hmoved)⟩
    | fclose hpoint =>
      exact Or.inl ⟨hne (by simp) hl, hkeep _ rfl (by simp [hpoint]) (by simp) rfl⟩
    | unlock hpoint hheld =>
      refine Or.inl ⟨hne (by simp) hl, hs.step (.give ?_ hheld) hothers'⟩
      rw [hafter']
      rintro ⟨call', hcall', -⟩
      cases hcall'
  · left
    refine ⟨fun t => by simp [hnone], ?_⟩
    have hmutex : s'.disk.list_mutex = s.disk.list_mutex := by
      rcases hdisk with hsame | ⟨-, hsame⟩
      · rw [hsame]
      · rw [hsame]
        rfl
    intro u
    rw [hmutex, (hbegins u).holds_iff]
    exact hs u

theorem step_wedged (hs : s.Wedged) (h : s.step l = some (s', o)) : l.calling = none ∧ s'.Wedged := by
  obtain ⟨hlocked, hnobody⟩ := hs
  rcases step_calls h with ⟨t, c, call, d, r, hl, hcall, hdisk, -⟩ | ⟨hnone, hdisk, hbegins⟩
  · have hpoint : call.point = .lock := by
      by_contra hne
      exact hnobody t ⟨call, hcall, hne⟩
    cases Disk.stepped_of_step hdisk with
    | lock _ hfree => exact absurd hfree hlocked
    | opened hp => simp [hpoint] at hp
    | failed hp => simp [hpoint] at hp
    | transfer hp => simp [hpoint] at hp
    | fclose hp => simp [hpoint] at hp
    | unlock hp => simp [hpoint] at hp
  · refine ⟨hnone, ?_, fun t ht => hnobody t ((hbegins t).holds_iff.1 ht)⟩
    rcases hdisk with hsame | ⟨-, hsame⟩
    · rwa [hsame]
    · rwa [hsame]

theorem run_access (hrun : fileMachine.Run guard (.init file) acts outs s) :
    (¬ FailedOpen acts ∧ Tracks s.disk.list_mutex s.HoldsMutex) ∨ (FailedOpen acts ∧ s.Wedged) := by
  refine hrun.invariant (I := fun acts _ s => (¬ FailedOpen acts ∧
    Tracks s.disk.list_mutex s.HoldsMutex) ∨ (FailedOpen acts ∧ s.Wedged)) ?_ ?_
  · left
    refine ⟨by simp [FailedOpen], fun t => iff_of_false (by simp [FileServer.init]) ?_⟩
    rintro ⟨call, hcall, -⟩
    cases t <;> simp [FileServer.init, FileServer.callOf, TimerPoint.call] at hcall
  · rintro acts - s l s' o hs - hstep
    have hconcat : FailedOpen (acts ++ [l]) ↔
        FailedOpen acts ∨ ∃ t, l.calling = some (t, .fopen false) := by
      simp [FailedOpen, or_and_right, exists_or]
    rw [hconcat]
    rcases hs with ⟨hnot, htracks⟩ | ⟨hfailed, hwedged⟩
    · rcases step_tracks htracks hstep with ⟨hno, htracks'⟩ | ⟨hfail, hwedged⟩
      · exact Or.inl ⟨not_or.2 ⟨hnot, fun ⟨t, ht⟩ => hno t ht⟩, htracks'⟩
      · exact Or.inr ⟨Or.inr hfail, hwedged⟩
    · exact Or.inr ⟨Or.inl hfailed, (step_wedged hwedged hstep).2⟩

/-- Whatever happens after that, nobody goes on in a call. -/
theorem wedged_for_ever (hs : s.Wedged) (hrun : fileMachine.Run guard s acts outs s') :
    s'.Wedged ∧ ∀ l ∈ acts, l.calling = none := by
  refine hrun.invariant (I := fun acts _ s => s.Wedged ∧ ∀ l ∈ acts, l.calling = none)
    ⟨hs, by simp⟩ ?_
  rintro acts - s l s' o ⟨hs, hacts⟩ - hstep
  obtain ⟨hnone, hs'⟩ := step_wedged hs hstep
  refine ⟨hs', fun m hm => ?_⟩
  rcases List.mem_append.1 hm with hm | hm
  · exact hacts m hm
  · rw [List.mem_singleton.1 hm]
    exact hnone

/-- **File access wedges the server as soon as an `fopen` fails**: after every run, when no thread is
in `readfile` or `writefile`, `list_mutex` is free exactly if no `fopen` has failed. Without a failure
it is held by exactly the thread that is behind its lock; after one, no call takes another step, however
the run goes on. -/
theorem mutex_free_iff (hrun : fileMachine.Run guard (.init file) acts outs s) :
    ((∀ t, s.callOf t = none) → (s.disk.list_mutex = none ↔ ¬ FailedOpen acts)) ∧
    (¬ FailedOpen acts → Tracks s.disk.list_mutex s.HoldsMutex) ∧
    (FailedOpen acts → ∀ guard' acts' outs' s', fileMachine.Run guard' s acts' outs' s' →
      ∀ l ∈ acts', l.calling = none) := by
  rcases run_access hrun with ⟨hnot, htracks⟩ | ⟨hfailed, hwedged⟩
  · refine ⟨fun hout => iff_of_true (htracks.eq_none_iff.2 ?_) hnot, fun _ => htracks,
      fun hfailed => absurd hfailed hnot⟩
    rintro t ⟨call, hcall, -⟩
    rw [hout t] at hcall
    cases hcall
  · exact ⟨fun _ => iff_of_false hwedged.1 (not_not.2 hfailed), fun hnot => absurd hfailed hnot,
      fun _ guard' acts' outs' s' hrun' => (wedged_for_ever hwedged hrun').2⟩

theorem mutex_free_iff_one_line : ∃ acts outs s,
    fileMachine.Run (fun _ _ => True) (.init none) acts outs s ∧ s.disk.current = timestamp [] ∧
      s.disk.list_mutex = none := by
  set acts : List FileLabel :=
    [.checkRunning, .usleep [], .call .lock, .call (.fopen true), .call (.transfer 11), .call .fclose,
      .call .unlock].map .timer
  obtain ⟨⟨s, outs⟩, hexec, heval⟩ := Option.map_eq_some_iff.1
    (show (fileMachine.execGuarded (fun _ _ => True) (.init none) acts).map
      (fun r => (r.1.disk.current, r.1.timer, r.1.workers.length)) =
        some (timestamp [], .checkRunning, 0) by decide +kernel)
  obtain ⟨hcurrent, hrest⟩ := Prod.mk.inj heval
  obtain ⟨htimer, hlen⟩ := Prod.mk.inj hrest
  have hrun := Machine.Run.of_execGuarded hexec
  have hout : ∀ t, s.callOf t = none := by
    intro t
    cases t with
    | timer => exact congrArg TimerPoint.call htimer
    | worker i =>
      show s.workers[i]?.bind _ = none
      rw [List.getElem?_eq_none (by simp_all)]
      rfl
  exact ⟨acts, outs, s, hrun, hcurrent, ((mutex_free_iff hrun).1 hout).2 (not_failedOpen (by decide))⟩

/-- The timer cannot open the file: nobody is in a call then, and the mutex is locked. -/
theorem mutex_locked_by_failed_open : ¬ ∀ acts outs s,
    fileMachine.Run (fun _ _ => True) (.init none) acts outs s → (∀ t, s.callOf t = none) →
      s.disk.list_mutex = none := by
  intro h
  obtain ⟨⟨s, outs⟩, hexec, heval⟩ := Option.map_eq_some_iff.1
    (show (fileMachine.execGuarded (fun _ _ => True) (.init none)
      ([.checkRunning, .usleep [], .call .lock, .call (.fopen false)].map .timer)).map
        (fun r => (r.1.disk.list_mutex, r.1.timer, r.1.workers.length)) =
          some (some .timer, .checkRunning, 0) by decide +kernel)
  obtain ⟨hmutex, hrest⟩ := Prod.mk.inj heval
  obtain ⟨htimer, hlen⟩ := Prod.mk.inj hrest
  have hfree := h _ outs s (Machine.Run.of_execGuarded hexec) (fun t => by
    cases t with
    | timer => exact congrArg TimerPoint.call htimer
    | worker i =>
      show s.workers[i]?.bind _ = none
      rw [List.getElem?_eq_none (by simp_all)]
      rfl)
  rw [hfree] at hmutex
  cases hmutex

end AesdChar
