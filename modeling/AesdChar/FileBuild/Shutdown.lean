import AesdChar.FileBuild.Access

/-!
# How the file build shuts down

`cleanupsignal` removes the data file and clears `running`; the main thread leaves its loop then and
waits for the timer. Every step that is taken without `running`, but for one more signal, leaves less to
do (`step_left_lt`), so behind the last signal the process comes to its end, or to rest, after a bounded
number of steps in any order of the threads (`shuts_down`). It rests without an end only when an `fopen`
has failed and the timer waits for the mutex that this left locked, and there it stays for ever. The file
that the signal removes is enough: a worker that is about to read it cannot open it any more
(`shutdown_hangs`).
-/

namespace AesdChar
open CInt CString Mutex

variable {s s' : FileServer} {l : FileLabel} {o : Event} {i : ℕ} {w w' : FileWorker} {a : FileAction}
  {file : Option (List UInt8)} {acts acts' : List FileLabel} {outs outs' : List Event}
  {guard : FileServer → FileLabel → Prop}

/-- No signal comes. -/
def Unsignalled (l : FileLabel) : Prop := l ≠ .unlink ∧ l ≠ .stop

instance (l : FileLabel) : Decidable (Unsignalled l) := inferInstanceAs (Decidable (_ ∧ _))

/-! ### What is left to do -/

/-- How many steps a call has left. -/
def CallPoint.left : CallPoint → ℕ
  | .lock => 5
  | .fopen => 4
  | .transfer => 3
  | .fclose => 2
  | .unlock => 1

/-- How many steps a worker has left at most, when `running` is cleared. -/
def FilePoint.left : FilePoint → ℕ
  | .malloc => 22
  | .recv => 21
  | .writefile call => 15 + call.point.left
  | .strchr => 15
  | .readfile call => 9 + call.point.left
  | .send => 9
  | .checkRunning => 8
  | .free => 7
  | .lockList => 6
  | .finish => 5
  | .unlockList => 4
  | .done => 0

def TimerPoint.left : TimerPoint → ℕ
  | .usleep => 7
  | .writefile call => 1 + call.point.left
  | .checkRunning => 1
  | .done => 0

/-- How many steps the main thread has left at most in its loop, with those of a worker that it
starts. -/
def MainPoint.left : MainPoint → ℕ
  | .accept => 32
  | .lockCreate => 31
  | .createNode => 30
  | .unlockCreate => 29
  | .spawn => 28
  | .lockAppend => 5
  | .unlockAppend => 4
  | .lockSweep => 3
  | .unlockSweep => 2
  | .checkRunning => 1
  | .exited => 0

def FileServer.left (s : FileServer) : ℕ :=
  s.main.left + (s.workers.map (·.point.left)).sum + s.timer.left + s.alive.toNat

theorem Disk.Stepped.left_lt {d d' : Disk} {t : FileThread} {call : FileCall} {c : CallAction}
    {r : CallResult} (h : d.Stepped t call c d' r) :
    ∀ call', r.call = some call' → call'.point.left < call.point.left := by
  intro call' hcall
  cases h with
  | lock hpoint | opened hpoint | transfer hpoint | fclose hpoint =>
    obtain rfl := Option.some.inj hcall
    simp [hpoint, CallPoint.left]
  | failed | unlock => cases hcall

theorem CallPoint.left_pos (p : CallPoint) : 0 < p.left := by cases p <;> decide

theorem FileWorker.Steps.left_lt {c : Option ℕ} (h : w.Steps false c a w') :
    w'.point.left < w.point.left := by
  cases h with
  | goesOn _ hrunning => cases hrunning
  | malloc hpoint | refused hpoint | stopped hpoint | failed hpoint | ended hpoint | received hpoint
  | found hpoint | notFound hpoint | notSent hpoint | sentNothing hpoint | sent hpoint
  | sentBeyond hpoint | free hpoint | finish hpoint =>
    simp [hpoint, FilePoint.left, CallPoint.left, FileCall.start, FileWorker.goto]

theorem FileWorker.Resumes.left_lt {d d' : Disk} {t : FileThread} {call : FileCall} {c : CallAction}
    {r : CallResult} (h : w.Resumes r w') (hcall : w.call = some call)
    (hstep : d.Stepped t call c d' r) : w'.point.left < w.point.left := by
  have hlt := hstep.left_lt
  have hpos := call.point.left_pos
  unfold FileWorker.call at hcall
  cases h with
  | writing hpoint =>
    rw [hpoint] at hcall ⊢
    obtain rfl := Option.some.inj hcall
    exact Nat.add_lt_add_left (hlt _ rfl) 15
  | reading hpoint =>
    rw [hpoint] at hcall ⊢
    obtain rfl := Option.some.inj hcall
    exact Nat.add_lt_add_left (hlt _ rfl) 9
  | written hpoint | unread hpoint | loaded hpoint =>
    rw [hpoint] at hcall ⊢
    obtain rfl := Option.some.inj hcall
    simp only [FileWorker.goto, FilePoint.left]
    omega

theorem workerStep_left_lt (hrunning : s.running = false) (hw : s.workers[i]? = some w)
    (h : s.workerStep i w a = some s') : s'.left < s.left ∧ s'.running = s.running := by
  have hput : ∀ (d : Disk) (m : Option Thread) (w' : FileWorker), w'.point.left < w.point.left →
      (({ s with disk := d, listMutex := m } : FileServer).put i w').left < s.left := by
    intro d m w' hlt
    have hold : (s.workers.map (·.point.left))[i]? = some w.point.left := by
      rw [List.getElem?_map, hw]
      rfl
    have hsum := List.sum_set_lt hold hlt
    unfold FileServer.left FileServer.put
    rw [List.map_set]
    simp only
    omega
  rcases FileServer.workerStep_cases h with ⟨c, call, d, r, w', rfl, hcall, hdisk, hresume, rfl⟩ |
    ⟨w', hstep, rfl⟩ | ⟨rfl, hpoint, -, rfl⟩ | ⟨rfl, hpoint, -, rfl⟩
  · exact ⟨hput d s.listMutex w' ((FileWorker.resumes_of_resume hresume).left_lt hcall
      (Disk.stepped_of_step hdisk)), rfl⟩
  · rw [hrunning] at hstep
    exact ⟨hput s.disk s.listMutex w' (FileWorker.steps_of_step hstep).left_lt, rfl⟩
  · exact ⟨hput s.disk _ _ (by simp [hpoint, FileWorker.goto, FilePoint.left]), rfl⟩
  · exact ⟨hput s.disk _ _ (by simp [hpoint, FileWorker.goto, FilePoint.left]), rfl⟩

theorem timerStep_left_lt (hrunning : s.running = false) {b : TimerAction}
    (h : s.timerStep b = some s') : s'.left < s.left ∧ s'.running = s.running := by
  have htimer : ∀ (d : Disk) (p : TimerPoint), p.left < s.timer.left →
      ({ s with disk := d, timer := p } : FileServer).left < s.left := by
    intro d p hlt
    unfold FileServer.left
    simp only
    omega
  cases b with
  | checkRunning =>
    obtain ⟨hpoint, h⟩ := Option.ite_none_right_eq_some.1 h
    obtain rfl := Option.some.inj h
    refine ⟨htimer s.disk _ ?_, rfl⟩
    rw [hpoint, hrunning]
    decide
  | usleep outtext =>
    obtain ⟨⟨hpoint, -⟩, h⟩ := Option.ite_none_right_eq_some.1 h
    obtain rfl := Option.some.inj h
    refine ⟨htimer s.disk _ ?_, rfl⟩
    simp [hpoint, TimerPoint.left, CallPoint.left, FileCall.start]
  | call c =>
    obtain ⟨call, hcall, h⟩ := Option.bind_eq_some_iff.1 h
    obtain ⟨⟨d, r⟩, hdisk, rfl⟩ := Option.map_eq_some_iff.1 h
    refine ⟨htimer d _ ?_, rfl⟩
    have hlt := (Disk.stepped_of_step hdisk).left_lt
    have hpos := call.point.left_pos
    cases htp : s.timer with
    | writefile call' =>
      rw [htp] at hcall
      obtain rfl : call' = call := Option.some.inj hcall
      cases r with
      | inside call'' => exact Nat.add_lt_add_left (hlt _ rfl) 1
      | returned moved =>
        simp only [TimerPoint.left]
        omega
    | _ =>
      rw [htp] at hcall
      cases hcall

theorem mainStep_left_lt (hrunning : s.running = false) (halive : s.alive = true) {b : MainAction}
    {t : Server} (hpoint : s.main = b.point) (h : s.accepting.mainStep b = some t) :
    (s.accept b t).left < s.left := by
  have hnone : s.accepting.workers = [] := rfl
  have hmain : t.main.left + t.workers.length * 22 < b.point.left := by
    cases b with
    | checkRunning =>
      obtain rfl := Option.some.inj h
      have hstopped : s.accepting.running = false := hrunning
      simp [hstopped, hnone, MainPoint.left, MainAction.point]
    | accept accepted =>
      cases accepted <;>
      · obtain rfl := Option.some.inj h
        simp [hnone, MainPoint.left, MainAction.point]
    | createNode granted =>
      obtain rfl := Option.some.inj h
      cases granted <;> simp [hnone, MainPoint.left, MainAction.point]
    | spawn created =>
      cases created with
      | true =>
        obtain ⟨c, -, rfl⟩ := Option.map_eq_some_iff.1 h
        simp [hnone, MainPoint.left, MainAction.point]
      | false =>
        obtain rfl := Option.some.inj h
        simp [hnone, MainPoint.left, MainAction.point]
    | lockCreate | unlockCreate | lockAppend | unlockAppend | lockSweep | unlockSweep =>
      obtain ⟨-, rfl⟩ := Option.ite_some_none_eq_some.1 h
      simp [hnone, MainPoint.left, MainAction.point]
  have hstarted : ((t.workers.map fun w => FileWorker.start w.clientSocket).map (·.point.left)).sum =
      t.workers.length * 22 := by
    simp [Function.comp_def, FileWorker.start, FilePoint.left]
  have halive' := Bool.toNat_le (b != .createNode false)
  unfold FileServer.left FileServer.accept
  rw [hpoint, halive, List.map_append, List.sum_append, hstarted, Bool.toNat_true]
  simp only
  omega

/-- Every step leaves less to do, and `running` cleared. -/
theorem step_left_lt (hrunning : s.running = false) (hl : Unsignalled l)
    (h : s.step l = some (s', o)) : s'.left < s.left ∧ s'.running = false := by
  rcases FileServer.step_cases h with ⟨b, t, rfl, hpoint, ht, rfl, -⟩ | ⟨rfl, -, -, rfl, -⟩ |
    ⟨i, a, w, rfl, hw, hworker, -⟩ | ⟨b, rfl, htimer, -⟩ | ⟨rfl, -, -⟩ | ⟨rfl, -, -⟩
  · obtain ⟨⟨halive, -⟩, -⟩ := Option.ite_none_right_eq_some.1 h
    exact ⟨mainStep_left_lt hrunning halive hpoint ht, hrunning⟩
  · obtain ⟨⟨halive, -⟩, -⟩ := Option.ite_none_right_eq_some.1 h
    exact ⟨by simp [FileServer.left, halive], hrunning⟩
  · obtain ⟨hlt, hsame⟩ := workerStep_left_lt hrunning hw hworker
    exact ⟨hlt, hsame.trans hrunning⟩
  · obtain ⟨hlt, hsame⟩ := timerStep_left_lt hrunning htimer
    exact ⟨hlt, hsame.trans hrunning⟩
  · exact absurd rfl hl.1
  · exact absurd rfl hl.2

/-! ### The mutex of the node list -/

/-- Who is between a lock and an unlock of `listMutex`. -/
def FileServer.HoldsList (s : FileServer) : Thread → Prop
  | .main => s.main.holdsList = true
  | .worker i => ∃ w, s.workers[i]? = some w ∧ w.point ∈ [.finish, .unlockList]

theorem holdsList_put (hw : s.workers[i]? = some w) (w' : FileWorker) (j : ℕ) :
    (s.put i w').HoldsList (.worker j) ↔
      if j = i then w'.point ∈ [.finish, .unlockList] else s.HoldsList (.worker j) := by
  have hlt : i < s.workers.length := (List.getElem?_eq_some_iff.1 hw).1
  show (∃ u, (s.workers.set i w')[j]? = some u ∧ _) ↔ _
  by_cases hji : j = i
  · subst hji
    simp [hlt]
  · rw [if_neg hji, List.getElem?_set_ne (Ne.symm hji)]
    rfl

theorem holdsList_accept (b : MainAction) (t : Server) (j : ℕ) :
    (s.accept b t).HoldsList (.worker j) ↔ s.HoldsList (.worker j) := by
  show (∃ u, (s.workers ++ t.workers.map fun w => FileWorker.start w.clientSocket)[j]? = some u ∧ _) ↔ _
  by_cases hj : j < s.workers.length
  · rw [List.getElem?_append_left hj]
    rfl
  · rw [List.getElem?_append_right (by omega), List.getElem?_map]
    constructor
    · rintro ⟨u, hu, hpoint⟩
      obtain ⟨x, -, rfl⟩ := Option.map_eq_some_iff.1 hu
      simp [FileWorker.start] at hpoint
    · rintro ⟨u, hu, -⟩
      rw [List.getElem?_eq_none (by omega)] at hu
      cases hu

theorem accept_tracks_list {b : MainAction} {t : Server} (hpoint : s.main = b.point)
    (h : s.accepting.mainStep b = some t) (halive : (s.accept b t).alive = true)
    (hs : Tracks s.listMutex s.HoldsList) :
    Tracks (s.accept b t).listMutex (s.accept b t).HoldsList := by
  have hhand : Handover .main s.listMutex t.listMutex (s.main.holdsList = true)
      (t.main.holdsList = true) := by
    by_cases hexited : t.main = .exited
    · -- the loop is left without the mutex, unless the process ends
      cases b with
      | checkRunning =>
        obtain rfl := Option.some.inj h
        refine .keep ?_
        rw [hexited, hpoint]
        decide
      | createNode granted =>
        cases granted with
        | true =>
          obtain rfl := Option.some.inj h
          cases hexited
        | false => cases halive
      | spawn created =>
        cases created with
        | true =>
          obtain ⟨c, -, rfl⟩ := Option.map_eq_some_iff.1 h
          cases hexited
        | false =>
          obtain rfl := Option.some.inj h
          refine .keep ?_
          rw [hexited, hpoint]
          decide
      | accept accepted =>
        cases accepted <;>
        · obtain rfl := Option.some.inj h
          cases hexited
      | lockCreate | unlockCreate | lockAppend | unlockAppend | lockSweep | unlockSweep =>
        obtain ⟨-, rfl⟩ := Option.ite_some_none_eq_some.1 h
        cases hexited
    · exact (mainStep_moves hpoint h).list hexited
  refine hs.step hhand fun u hu => ?_
  cases u with
  | main => exact absurd rfl hu
  | worker j => exact holdsList_accept b t j

theorem worker_tracks_list (hw : s.workers[i]? = some w) (h : s.workerStep i w a = some s')
    (hs : Tracks s.listMutex s.HoldsList) : Tracks s'.listMutex s'.HoldsList := by
  have hself : s.HoldsList (.worker i) ↔ w.point ∈ [.finish, .unlockList] := by
    simp [FileServer.HoldsList, hw]
  have hput : ∀ (d : Disk) (m : Option Thread) (w' : FileWorker),
      Handover (.worker i) s.listMutex m (w.point ∈ [.finish, .unlockList])
        (w'.point ∈ [.finish, .unlockList]) →
      Tracks m (({ s with disk := d, listMutex := m } : FileServer).put i w').HoldsList := by
    intro d m w' hhand
    have hiff := fun j => holdsList_put (s := { s with disk := d, listMutex := m }) hw w' j
    refine hs.step (t := .worker i) ?_ fun u hu => ?_
    · rw [hself, hiff, if_pos rfl]
      exact hhand
    · cases u with
      | main => rfl
      | worker j =>
        rw [hiff, if_neg fun hji => hu (by rw [hji])]
        rfl
  rcases FileServer.workerStep_cases h with ⟨c, call, d, r, w', rfl, hcall, hdisk, hresume, rfl⟩ |
    ⟨w', hstep, rfl⟩ | ⟨rfl, hpoint, hfree, rfl⟩ | ⟨rfl, hpoint, hheld, rfl⟩
  · refine hput d s.listMutex w' (.keep ?_)
    cases FileWorker.resumes_of_resume hresume with
    | writing hpoint | written hpoint | reading hpoint | unread hpoint | loaded hpoint =>
      simp [hpoint, FileWorker.goto]
  · refine hput s.disk s.listMutex w' (.keep ?_)
    cases FileWorker.steps_of_step hstep with
    | malloc hpoint | refused hpoint | goesOn hpoint | stopped hpoint | failed hpoint | ended hpoint
    | received hpoint | found hpoint | notFound hpoint | notSent hpoint | sentNothing hpoint
    | sent hpoint | sentBeyond hpoint | free hpoint | finish hpoint => simp [hpoint, FileWorker.goto]
  · exact hput s.disk _ _ (.take (by simp [FileWorker.goto]) hfree)
  · exact hput s.disk _ _ (.give (by simp [FileWorker.goto]) hheld)

theorem run_list_access (hrun : fileMachine.Run guard (.init file) acts outs s) (halive : s.alive = true) :
    Tracks s.listMutex s.HoldsList := by
  refine hrun.invariant (I := fun _ _ s => s.alive = true → Tracks s.listMutex s.HoldsList) ?_ ?_ halive
  · intro _ t
    cases t with
    | main => simp [FileServer.init, FileServer.HoldsList, MainPoint.holdsList]
    | worker i => simp [FileServer.init, FileServer.HoldsList]
  · rintro - - s l s' o hs - hstep halive
    rcases FileServer.step_cases hstep with ⟨b, t, rfl, hpoint, ht, rfl, -⟩ | ⟨rfl, -, -, rfl, -⟩ |
      ⟨i, a, w, rfl, hw, hworker, -⟩ | ⟨b, rfl, htimer, -⟩ | ⟨rfl, rfl, -⟩ | ⟨rfl, rfl, -⟩
    · obtain ⟨⟨hbefore, -⟩, -⟩ := Option.ite_none_right_eq_some.1 hstep
      exact accept_tracks_list hpoint ht halive (hs hbefore)
    · cases halive
    · obtain ⟨hbefore, -⟩ := Option.ite_none_right_eq_some.1 hstep
      exact worker_tracks_list hw hworker (hs hbefore)
    · obtain ⟨hbefore, -⟩ := Option.ite_none_right_eq_some.1 hstep
      obtain ⟨d, p, rfl⟩ := FileServer.timerStep_eq htimer
      exact hs hbefore
    · exact hs halive
    · exact hs halive

/-! ### The end -/

/-- A worker that reads the file has room for what it gets. -/
def FileWorker.Roomy (w : FileWorker) : Prop :=
  ∀ call, w.point = .readfile call → (∃ b, w.buffer = some b ∧ b.size = BUFFERSIZE) ∧
    call.job = .read BUFFERSIZE ∧ call.moved.length ≤ BUFFERSIZE

theorem FileWorker.roomy_of_ne (h : ∀ call, w.point ≠ .readfile call) : w.Roomy :=
  fun call hpoint => absurd hpoint (h call)

theorem FileWorker.Resumes.roomy {d d' : Disk} {t : FileThread} {call : FileCall} {c : CallAction}
    {r : CallResult} (h : w.Resumes r w') (hcall : w.call = some call)
    (hstep : d.Stepped t call c d' r) (hw : w.Roomy) : w'.Roomy := by
  cases h with
  | writing hpoint | written hpoint | unread hpoint | loaded hpoint =>
    exact FileWorker.roomy_of_ne (by simp [FileWorker.goto])
  | reading hpoint =>
    rename_i current call'
    unfold FileWorker.call at hcall
    rw [hpoint] at hcall
    obtain rfl : current = call := Option.some.inj hcall
    obtain ⟨hbuffer, hjob, hmoved⟩ := hw current hpoint
    rintro call'' hpoint''
    obtain rfl : call' = call'' := FilePoint.readfile.inj hpoint''
    refine ⟨hbuffer, ?_⟩
    cases hstep with
    | lock | opened | fclose => exact ⟨hjob, hmoved⟩
    | transfer hp htransfer =>
      refine ⟨hjob, ?_⟩
      rw [hjob] at htransfer
      obtain ⟨hn, heq⟩ := Option.ite_some_none_eq_some.1 htransfer
      obtain ⟨rfl, -⟩ := Prod.mk.inj heq
      exact (List.length_take_le _ _).trans (hn.trans (min_le_left _ _))

theorem run_roomy (hrun : fileMachine.Run guard (.init file) acts outs s) (hw : s.workers[i]? = some w) :
    w.Roomy := by
  induction hrun generalizing w with
  | nil => simp [FileServer.init] at hw
  | snoc _ _ hstep ih =>
    cases workerStep_of_step hstep hw with
    | stays hw _ => exact ih hw
    | starts c hw =>
      subst hw
      exact FileWorker.roomy_of_ne (by simp [FileWorker.start])
    | moves hw hsteps =>
      cases hsteps with
      | found hpoint hb =>
        rintro call hpoint'
        obtain rfl := FilePoint.readfile.inj hpoint'
        refine ⟨⟨.zeroed BUFFERSIZE, ?_, rfl⟩, rfl, Nat.zero_le _⟩
        show Option.map _ _ = _
        rw [hb, Option.map_some]
      | malloc | refused | goesOn | stopped | failed | ended | received | notFound | notSent
      | sentNothing | sent | sentBeyond | free | finish =>
        exact FileWorker.roomy_of_ne (by simp [FileWorker.goto])
    | calls hw hcall hstepped hresumes => exact hresumes.roomy hcall hstepped (ih hw)
    | locks hw ha =>
      rcases ha with ⟨-, rfl⟩ | ⟨-, rfl⟩ <;> exact FileWorker.roomy_of_ne (by simp [FileWorker.goto])

theorem call_possible {d : Disk} {t : FileThread} {call : FileCall} (hlock : call.point ≠ .lock)
    (hheld : d.list_mutex = some t) :
    ∃ c d' r, d.step t call c = some (d', r) ∧ (r = .returned (some call.moved) ∨
      r = .returned none ∨ ∃ call', r = .inside call') := by
  cases hpoint : call.point with
  | lock => exact absurd hpoint hlock
  | fopen => exact ⟨.fopen false, d, _, if_pos hpoint, Or.inr (Or.inl rfl)⟩
  | transfer =>
    have hzero : ∃ r, d.transfer call.stream 0 call.job = some r := by
      cases call.job with
      | read size => simp [Disk.transfer]
      | write data => simp [Disk.transfer]
    obtain ⟨⟨moved, d'⟩, hmoved⟩ := hzero
    refine ⟨.transfer 0, d', .inside { call with point := .fclose, moved := moved }, ?_,
      Or.inr (Or.inr ⟨_, rfl⟩)⟩
    simp [Disk.step, hpoint, hmoved]
  | fclose => exact ⟨.fclose, d, _, if_pos hpoint, Or.inr (Or.inr ⟨_, rfl⟩)⟩
  | unlock => exact ⟨.unlock, _, _, if_pos ⟨hpoint, hheld⟩, Or.inl rfl⟩

theorem worker_call_possible (hroomy : w.Roomy) {call : FileCall} (hcall : w.call = some call)
    (hlock : call.point ≠ .lock) (hheld : s.disk.list_mutex = some (.worker i)) :
    ∃ c s', s.workerStep i w (.call c) = some s' := by
  obtain ⟨c, d, r, hstep, hr⟩ := call_possible hlock hheld
  have hresume : ∃ w', w.resume r = some w' := by
    unfold FileWorker.call at hcall
    unfold FileWorker.resume
    cases hpoint : w.point with
    | writefile current =>
      rcases hr with rfl | rfl | ⟨call', rfl⟩ <;> exact ⟨_, rfl⟩
    | readfile current =>
      rw [hpoint] at hcall
      obtain rfl : current = call := Option.some.inj hcall
      obtain ⟨⟨b, hb, hsize⟩, -, hmoved⟩ := hroomy current hpoint
      rcases hr with rfl | rfl | ⟨call', rfl⟩
      · have hput : ∃ b', b.put 0 current.moved = some b' :=
          ⟨_, dif_pos ⟨le_refl 0, by simpa [hsize] using hmoved⟩⟩
        obtain ⟨b', hb'⟩ := hput
        simp [FileWorker.loaded, hb, hb']
      · exact ⟨_, rfl⟩
      · exact ⟨_, rfl⟩
    | _ =>
      rw [hpoint] at hcall
      cases hcall
  obtain ⟨w', hw'⟩ := hresume
  refine ⟨c, ({ s with disk := d } : FileServer).put i w', ?_⟩
  simp only [FileServer.workerStep, hcall, hstep, hw', Option.bind_some, Option.map_some]

theorem exited_of_stuck (hrun : fileMachine.Run guard (.init file) acts outs s) (halive : s.alive = true)
    (hstuck : ∀ l, Unsignalled l → s.step l = none) : s.main = .exited := by
  have htracks := run_list_access hrun halive
  have hmain : ∀ b t, s.main = b.point → s.accepting.mainStep b ≠ some t := by
    intro b t hpoint ht
    have hnone := hstuck (.main b) ⟨by simp, by simp⟩
    simp [FileServer.step, FileServer.mainStep, halive, hpoint, ht] at hnone
  have hheld : s.main.holdsList = true → s.listMutex = some .main := (htracks .main).2
  -- who waits for `listMutex` waits for a worker, and that one can go on
  have hfree : s.main.holdsList = false → s.listMutex = none := by
    intro hout
    rw [htracks.eq_none_iff]
    intro t ht
    cases t with
    | main =>
      rw [FileServer.HoldsList, hout] at ht
      cases ht
    | worker i =>
      obtain ⟨w, hw, hpoint⟩ := ht
      have hlist := (htracks (.worker i)).2 ⟨w, hw, hpoint⟩
      simp only [List.mem_cons, List.not_mem_nil, or_false] at hpoint
      rcases hpoint with hpoint | hpoint
      · have hnone := hstuck (.worker i .finish) ⟨by simp, by simp⟩
        simp [FileServer.step, halive, hw, FileServer.workerStep, FileWorker.step, hpoint] at hnone
      · have hnone := hstuck (.worker i .unlockList) ⟨by simp, by simp⟩
        simp [FileServer.step, halive, hw, FileServer.workerStep, hpoint, hlist] at hnone
  cases hpoint : s.main with
  | exited => rfl
  | checkRunning => exact absurd rfl (hmain .checkRunning _ hpoint)
  | accept => exact absurd rfl (hmain (.accept false) _ hpoint)
  | createNode => exact absurd rfl (hmain (.createNode true) _ hpoint)
  | spawn => exact absurd rfl (hmain (.spawn false) _ hpoint)
  | lockCreate => exact absurd (if_pos (hfree (by rw [hpoint]; rfl))) (hmain .lockCreate _ hpoint)
  | lockAppend => exact absurd (if_pos (hfree (by rw [hpoint]; rfl))) (hmain .lockAppend _ hpoint)
  | lockSweep => exact absurd (if_pos (hfree (by rw [hpoint]; rfl))) (hmain .lockSweep _ hpoint)
  | unlockCreate => exact absurd (if_pos (hheld (by rw [hpoint]; rfl))) (hmain .unlockCreate _ hpoint)
  | unlockAppend => exact absurd (if_pos (hheld (by rw [hpoint]; rfl))) (hmain .unlockAppend _ hpoint)
  | unlockSweep => exact absurd (if_pos (hheld (by rw [hpoint]; rfl))) (hmain .unlockSweep _ hpoint)

/-- The main thread waits for the timer, and the timer for a mutex that nobody gives back. -/
structure FileServer.Hangs (s : FileServer) : Prop where
  alive : s.alive = true
  main : s.main = .exited
  timer : ∃ call, s.timer = .writefile call
  wedged : s.Wedged

/-- When nothing can go on any more, the process has ended, or it hangs. -/
theorem hangs_of_stuck (hrun : fileMachine.Run guard (.init file) acts outs s)
    (hstuck : ∀ l, Unsignalled l → s.step l = none) :
    s.alive = false ∨ FailedOpen acts ∧ s.Hangs := by
  by_cases halive : s.alive = true
  swap
  · exact Or.inl (by simpa using halive)
  right
  have hmain := exited_of_stuck hrun halive hstuck
  have htimer : ∀ b, s.timerStep b = none := by
    intro b
    have hnone := hstuck (.timer b) ⟨by simp, by simp⟩
    simpa [FileServer.step, halive] using hnone
  have hcalling : ∃ call, s.timer = .writefile call := by
    cases hpoint : s.timer with
    | checkRunning =>
      have hnone := htimer .checkRunning
      simp [FileServer.timerStep, hpoint] at hnone
    | usleep =>
      have hnone := htimer (.usleep [])
      simp [FileServer.timerStep, hpoint] at hnone
    | writefile call => exact ⟨call, rfl⟩
    | done =>
      have hnone := hstuck .join ⟨by simp, by simp⟩
      simp [FileServer.step, halive, hmain, hpoint] at hnone
  obtain ⟨call, hcall⟩ := hcalling
  have hcallOf : s.callOf .timer = some call := congrArg TimerPoint.call hcall
  rcases run_access hrun with ⟨-, htracks⟩ | ⟨hfailed, hwedged⟩
  swap
  · exact ⟨hfailed, halive, hmain, ⟨call, hcall⟩, hwedged⟩
  -- without a failure the holder of the mutex, or else the timer, can go on
  exfalso
  have hlock : call.point = .lock := by
    by_contra hne
    obtain ⟨c, d, r, hstep, -⟩ := call_possible hne ((htracks .timer).2 ⟨call, hcallOf, hne⟩)
    have hnone := htimer (.call c)
    simp [FileServer.timerStep, hcall, TimerPoint.call, hstep] at hnone
  have hfree : s.disk.list_mutex = none := by
    rw [htracks.eq_none_iff]
    rintro t ⟨call', hcall', hne⟩
    cases t with
    | timer =>
      obtain rfl : call = call' := Option.some.inj (hcallOf.symm.trans hcall')
      exact hne hlock
    | worker i =>
      obtain ⟨w, hw, hcall''⟩ := Option.bind_eq_some_iff.1 hcall'
      obtain ⟨c, s', hs'⟩ := worker_call_possible (run_roomy hrun hw) hcall'' hne
        ((htracks (.worker i)).2 ⟨call', hcall', hne⟩)
      have hnone := hstuck (.worker i (.call c)) ⟨by simp, by simp⟩
      simp [FileServer.step, halive, hw, hs'] at hnone
  have hnone := htimer (.call .lock)
  simp [FileServer.timerStep, hcall, TimerPoint.call, Disk.step, hlock, hfree] at hnone

theorem FileServer.Hangs.forever (hs : s.Hangs) (hrun : fileMachine.Run guard s acts outs s') :
    s'.Hangs := by
  refine hrun.invariant (I := fun _ _ s => s.Hangs) hs ?_
  rintro - - s l s' o ⟨halive, hmain, ⟨call, htimer⟩, hwedged⟩ - hstep
  obtain ⟨hnone, hwedged'⟩ := step_wedged hwedged hstep
  rcases FileServer.step_cases hstep with ⟨b, t, rfl, hpoint, -⟩ | ⟨rfl, -, hdone, -⟩ |
    ⟨i, a, w, rfl, hw, hworker, -⟩ | ⟨b, rfl, htimerStep, -⟩ | ⟨rfl, rfl, -⟩ | ⟨rfl, rfl, -⟩
  · rw [hmain] at hpoint
    cases b <;> cases hpoint
  · rw [htimer] at hdone
    cases hdone
  · rcases FileServer.workerStep_cases hworker with ⟨c, call', d, r, w', rfl, -⟩ |
      ⟨w', -, rfl⟩ | ⟨-, -, -, rfl⟩ | ⟨-, -, -, rfl⟩
    · cases hnone
    · exact ⟨halive, hmain, ⟨call, htimer⟩, hwedged'⟩
    · exact ⟨halive, hmain, ⟨call, htimer⟩, hwedged'⟩
    · exact ⟨halive, hmain, ⟨call, htimer⟩, hwedged'⟩
  · cases b with
    | call c => cases hnone
    | checkRunning =>
      obtain ⟨hpoint, -⟩ := Option.ite_none_right_eq_some.1 htimerStep
      rw [htimer] at hpoint
      cases hpoint
    | usleep outtext =>
      obtain ⟨⟨hpoint, -⟩, -⟩ := Option.ite_none_right_eq_some.1 htimerStep
      rw [htimer] at hpoint
      cases hpoint
  · exact ⟨halive, hmain, ⟨call, htimer⟩, hwedged'⟩
  · exact ⟨halive, hmain, ⟨call, htimer⟩, hwedged'⟩

/-- **How the file build shuts down**: once `running` is cleared, in any reachable state, no more than
`FileServer.left` steps are possible besides further signals, in any order of the threads, and when only
those are possible the process has ended; unless an `fopen` has failed and the timer waits for the mutex,
and then the process never ends, whatever happens. -/
theorem shuts_down (hrun : fileMachine.Run guard (.init file) acts outs s) (hstop : s.running = false)
    (hrun' : fileMachine.Run (fun _ l => Unsignalled l) s acts' outs' s') :
    acts'.length ≤ s.left ∧ ((∀ l, Unsignalled l → s'.step l = none) →
      s'.alive = false ∨ FailedOpen (acts ++ acts') ∧
        ∀ guard' acts'' outs'' s'', fileMachine.Run guard' s' acts'' outs'' s'' → s''.Hangs) := by
  constructor
  · have hleft := hrun'.length_add_rank_le (I := fun s => s.running = false) FileServer.left hstop (by
      rintro s l s' o hs hl hstep
      exact (step_left_lt hs hl hstep).symm)
    omega
  · intro hstuck
    have hall : fileMachine.Run (fun _ _ => True) (.init file) (acts ++ acts') (outs ++ outs') s' :=
      (hrun.mono fun _ _ _ => trivial).append (hrun'.mono fun _ _ _ => trivial)
    rcases hangs_of_stuck hall hstuck with hended | ⟨hfailed, hhangs⟩
    · exact Or.inl hended
    · exact Or.inr ⟨hfailed, fun _ _ _ _ h => hhangs.forever h⟩

theorem shutdown_hangs : ∃ acts outs s acts' outs' s',
    fileMachine.Run (fun _ _ => True) (.init none) acts outs s ∧ ¬ FailedOpen acts ∧ s.running = false ∧
      fileMachine.Run (fun _ l => Unsignalled l) s acts' outs' s' ∧ s'.Hangs ∧
      acts'.length ≤ s.left := by
  set acts : List FileLabel := accepting ++ .worker 0 (.malloc true) :: receivingPiece 0 [97, 10] ++
    workerMoving 0 2 ++ [.timer .checkRunning, .unlink, .stop] with hacts
  set acts' : List FileLabel :=
    [.strchr, .call .lock, .call (.fopen false), .send none, .checkRunning, .free].map (.worker 0) ++
      [.timer (.usleep []), .main .checkRunning] with hacts'
  obtain ⟨⟨s, outs⟩, hexec, heval⟩ := Option.map_eq_some_iff.1
    (show (fileMachine.execGuarded (fun _ _ => True) (.init none) acts).map
      (fun r => (r.1.running, (fileMachine.execGuarded (fun _ l => Unsignalled l) r.1 acts').map
        fun r => (r.1.alive, r.1.main, r.1.timer))) = some (false, some (true, .exited,
          .writefile (.start (.write (timestamp []))))) by decide +kernel)
  obtain ⟨hstop, heval⟩ := Prod.mk.inj heval
  obtain ⟨⟨s', outs'⟩, hexec', hend⟩ := Option.map_eq_some_iff.1 heval
  obtain ⟨halive, hmain, htimer⟩ : s'.alive = true ∧ s'.main = .exited ∧
      s'.timer = .writefile (.start (.write (timestamp []))) := by simpa using hend
  have hrun := Machine.Run.of_execGuarded hexec
  have hrun' := Machine.Run.of_execGuarded hexec'
  have hnot : ¬ FailedOpen acts := not_failedOpen (by decide)
  have hfailed : FailedOpen (acts ++ acts') :=
    ⟨.worker 0 (.call (.fopen false)), by simp [hacts'], .worker 0, rfl⟩
  have hall : fileMachine.Run (fun _ _ => True) (.init none) (acts ++ acts') (outs ++ outs') s' :=
    hrun.append (hrun'.mono fun _ _ _ => trivial)
  have hwedged : s'.Wedged := by
    rcases run_access hall with ⟨hno, -⟩ | ⟨-, hwedged⟩
    · exact absurd hfailed hno
    · exact hwedged
  exact ⟨acts, outs, s, acts', outs', s', hrun, hnot, hstop, hrun',
    ⟨halive, hmain, ⟨_, htimer⟩, hwedged⟩, (shuts_down hrun hstop hrun').1⟩

end AesdChar
