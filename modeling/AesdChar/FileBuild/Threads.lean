import AesdChar.FileBuild.System
import AesdChar.Server.Receiving

/-!
# One thread at a time, in the file build

What a single step of the server can do (`FileServer.step_cases`), and what it does to the calls of
`readfile` and `writefile`: one thread goes on in its call and the others stay where they are, or no
thread does and a call can only begin (`step_calls`). The accept loop is that of the device build, so
worker `i` serves connection `i` here too (`run_file_sockets`).
-/

namespace AesdChar
open CInt CString

variable {s s' : FileServer} {l : FileLabel} {o : Event} {i : ℕ} {w w' : FileWorker} {a : FileAction}
  {file : Option (List UInt8)} {acts : List FileLabel} {outs : List Event}
  {guard : FileServer → FileLabel → Prop}

theorem FileServer.step_cases (h : s.step l = some (s', o)) :
    (∃ a t, l = .main a ∧ s.main = a.point ∧ s.accepting.mainStep a = some t ∧ s' = s.accept a t ∧
      o = .quiet) ∨
    (l = .join ∧ s.main = .exited ∧ s.timer = .done ∧ s' = { s with alive := false } ∧ o = .quiet) ∨
    (∃ i a w, l = .worker i a ∧ s.workers[i]? = some w ∧ s.workerStep i w a = some s' ∧
      o = s.event w a) ∨
    (∃ a, l = .timer a ∧ s.timerStep a = some s' ∧ o = .quiet) ∨
    (l = .unlink ∧ s' = { s with disk := s.disk.unlink } ∧ o = .quiet) ∨
    (l = .stop ∧ s' = { s with running := false } ∧ o = .quiet) := by
  cases l with
  | main a =>
    left
    obtain ⟨⟨-, hpoint⟩, h⟩ := Option.ite_none_right_eq_some.1 h
    obtain ⟨s₁, hs₁, heq⟩ := Option.map_eq_some_iff.1 h
    obtain ⟨rfl, rfl⟩ := Prod.mk.inj heq
    obtain ⟨t, ht, rfl⟩ := Option.map_eq_some_iff.1 hs₁
    exact ⟨a, t, rfl, hpoint, ht, rfl, rfl⟩
  | join =>
    right; left
    obtain ⟨⟨-, hmain, htimer⟩, h⟩ := Option.ite_none_right_eq_some.1 h
    obtain ⟨rfl, rfl⟩ := Prod.mk.inj (Option.some.inj h)
    exact ⟨rfl, hmain, htimer, rfl, rfl⟩
  | worker i a =>
    right; right; left
    obtain ⟨-, h⟩ := Option.ite_none_right_eq_some.1 h
    obtain ⟨w, hw, h⟩ := Option.bind_eq_some_iff.1 h
    obtain ⟨s₁, hs₁, heq⟩ := Option.map_eq_some_iff.1 h
    obtain ⟨rfl, rfl⟩ := Prod.mk.inj heq
    exact ⟨i, a, w, rfl, hw, hs₁, rfl⟩
  | timer a =>
    right; right; right; left
    obtain ⟨-, h⟩ := Option.ite_none_right_eq_some.1 h
    obtain ⟨s₁, hs₁, heq⟩ := Option.map_eq_some_iff.1 h
    obtain ⟨rfl, rfl⟩ := Prod.mk.inj heq
    exact ⟨a, rfl, hs₁, rfl⟩
  | unlink =>
    right; right; right; right; left
    obtain ⟨rfl, rfl⟩ := Prod.mk.inj (Option.some.inj h)
    exact ⟨rfl, rfl, rfl⟩
  | stop =>
    right; right; right; right; right
    obtain ⟨rfl, rfl⟩ := Prod.mk.inj (Option.some.inj h)
    exact ⟨rfl, rfl, rfl⟩

theorem FileServer.workerStep_cases (h : s.workerStep i w a = some s') :
    (∃ c call d r w', a = .call c ∧ w.call = some call ∧
      s.disk.step (.worker i) call c = some (d, r) ∧ w.resume r = some w' ∧
      s' = { s with disk := d }.put i w') ∨
    (∃ w', w.step s.running s.clientSocket a = some w' ∧ s' = s.put i w') ∨
    (a = .lockList ∧ w.point = .lockList ∧ s.listMutex = none ∧
      s' = { s with listMutex := some (.worker i) }.put i (w.goto .finish)) ∨
    (a = .unlockList ∧ w.point = .unlockList ∧ s.listMutex = some (.worker i) ∧
      s' = { s with listMutex := none }.put i (w.goto .done)) := by
  have hlocal : (w.step s.running s.clientSocket a).map (s.put i) = some s' →
      ∃ w', w.step s.running s.clientSocket a = some w' ∧ s' = s.put i w' := by
    intro h
    obtain ⟨w', hw', rfl⟩ := Option.map_eq_some_iff.1 h
    exact ⟨w', hw', rfl⟩
  cases a with
  | call c =>
    left
    obtain ⟨call, hcall, h⟩ := Option.bind_eq_some_iff.1 h
    obtain ⟨⟨d, r⟩, hdisk, h⟩ := Option.bind_eq_some_iff.1 h
    obtain ⟨w', hw', rfl⟩ := Option.map_eq_some_iff.1 h
    exact ⟨c, call, d, r, w', rfl, hcall, hdisk, hw', rfl⟩
  | lockList =>
    right; right; left
    obtain ⟨⟨hpoint, hfree⟩, h⟩ := Option.ite_none_right_eq_some.1 h
    exact ⟨rfl, hpoint, hfree, (Option.some.inj h).symm⟩
  | unlockList =>
    right; right; right
    obtain ⟨⟨hpoint, hheld⟩, h⟩ := Option.ite_none_right_eq_some.1 h
    exact ⟨rfl, hpoint, hheld, (Option.some.inj h).symm⟩
  | _ =>
    right; left
    exact hlocal h

theorem FileServer.timerStep_eq {b : TimerAction} (h : s.timerStep b = some s') :
    ∃ d p, s' = { s with disk := d, timer := p } := by
  cases b with
  | checkRunning | usleep =>
    obtain ⟨-, h⟩ := Option.ite_none_right_eq_some.1 h
    obtain rfl := Option.some.inj h
    exact ⟨_, _, rfl⟩
  | call c =>
    obtain ⟨call, -, h⟩ := Option.bind_eq_some_iff.1 h
    obtain ⟨r, -, rfl⟩ := Option.map_eq_some_iff.1 h
    exact ⟨_, _, rfl⟩

/-! ### A worker -/

/-- What becomes of a worker that does something for itself. -/
inductive FileWorker.Steps (running : Bool) (c : Option ℕ) (w : FileWorker) : FileAction → FileWorker → Prop
  | malloc (hpoint : w.point = .malloc) : Steps running c w (.malloc true)
      { w with buffer := some (.zeroed BUFFERSIZE), point := .checkRunning }
  | refused (hpoint : w.point = .malloc) : Steps running c w (.malloc false)
      { w with finished := true, point := .done }
  | goesOn (hpoint : w.point = .checkRunning) (hrunning : running = true) :
      Steps running c w .checkRunning (w.memset.goto .recv)
  | stopped (hpoint : w.point = .checkRunning) (hrunning : running = false) :
      Steps running c w .checkRunning (w.goto .free)
  | failed (hpoint : w.point = .recv) : Steps running c w (.recv none) (w.goto .free)
  | ended (hpoint : w.point = .recv) {b b' : Buffer} (hb : w.buffer = some b)
      (hput : b.put 0 [] = some b') :
      Steps running c w (.recv (some [])) { w with buffer := some b', point := .free }
  | received (hpoint : w.point = .recv) {xs data : List UInt8} {b b' : Buffer} (hne : xs ≠ [])
      (hlen : xs.length ≤ BUFFERSIZE - 1) (hb : w.buffer = some b) (hput : b.put 0 xs = some b')
      (hdata : b'.front xs.length = some data) : Steps running c w (.recv (some xs))
        { w with buffer := some b', point := .writefile (.start (.write data)) }
  | found (hpoint : w.point = .strchr) {b : Buffer} {text : List UInt8} (hb : w.buffer = some b)
      (htext : b.cstring = some text) (hnl : newline ∈ text) : Steps running c w .strchr
        { w.memset with point := .readfile (.start (.read BUFFERSIZE)) }
  | notFound (hpoint : w.point = .strchr) {b : Buffer} {text : List UInt8} (hb : w.buffer = some b)
      (htext : b.cstring = some text) (hnl : newline ∉ text) :
      Steps running c w .strchr (w.goto .checkRunning)
  | notSent (hpoint : w.point = .send) : Steps running c w (.send none) (w.goto .checkRunning)
  | sentNothing (hpoint : w.point = .send) : Steps running c w (.send (some 0)) (w.goto .checkRunning)
  | sent (hpoint : w.point = .send) {n : ℕ} {data : List UInt8} (hpos : 0 < n)
      (hdata : w.sendData = some data) (hle : n ≤ data.length) :
      Steps running c w (.send (some n)) (w.goto .free)
  | sentBeyond (hpoint : w.point = .send) {b : Buffer} {sent : List UInt8} (hb : w.buffer = some b)
      (hlarge : b.size < toSize w.bytesRead) (hover : b.Overrun sent) :
      Steps running c w (.sendBeyond sent) (w.goto .free)
  | free (hpoint : w.point = .free) : Steps running c w .free { w with buffer := none, point := .lockList }
  | finish (hpoint : w.point = .finish) : Steps running c w .finish
      { w with finished := true, point := .unlockList }

theorem FileWorker.steps_of_step {running : Bool} {c : Option ℕ} (h : w.step running c a = some w') :
    w.Steps running c a w' := by
  unfold FileWorker.step at h
  split at h
  · rename_i granted hpoint
    cases granted with
    | true =>
      obtain rfl := Option.some.inj h
      exact .malloc hpoint
    | false =>
      obtain rfl := Option.some.inj h
      exact .refused hpoint
  · rename_i hpoint
    obtain rfl := Option.some.inj h
    cases running with
    | true => exact .goesOn hpoint rfl
    | false => exact .stopped hpoint rfl
  · rename_i received hpoint
    cases received with
    | none =>
      obtain rfl := Option.some.inj h
      exact .failed hpoint
    | some xs =>
      obtain ⟨hlen, h⟩ := Option.ite_none_right_eq_some.1 h
      obtain ⟨b, hb, h⟩ := Option.bind_eq_some_iff.1 h
      obtain ⟨b', hput, h⟩ := Option.bind_eq_some_iff.1 h
      by_cases hnil : xs = []
      · subst hnil
        have heq := Option.some.inj ((if_pos rfl).symm.trans h)
        rw [← heq]
        exact .ended hpoint hb hput
      · rw [if_neg hnil] at h
        obtain ⟨data, hdata, rfl⟩ := Option.map_eq_some_iff.1 h
        exact .received hpoint hnil hlen hb hput hdata
  · rename_i hpoint
    obtain ⟨b, hb, h⟩ := Option.bind_eq_some_iff.1 h
    obtain ⟨text, htext, rfl⟩ := Option.map_eq_some_iff.1 h
    split
    · rename_i hnl
      exact .found hpoint hb htext hnl
    · rename_i hnl
      exact .notFound hpoint hb htext hnl
  · rename_i sent hpoint
    cases sent with
    | none =>
      obtain rfl := Option.some.inj h
      exact .notSent hpoint
    | some n =>
      obtain ⟨-, -, h⟩ := Option.bind_eq_some_iff.1 h
      obtain ⟨data, hdata, h⟩ := Option.bind_eq_some_iff.1 h
      obtain ⟨hle, rfl⟩ := Option.ite_some_none_eq_some.1 h
      by_cases hpos : 0 < n
      · rw [if_pos hpos]
        exact .sent hpoint hpos hdata hle
      · obtain rfl : n = 0 := by omega
        exact .sentNothing hpoint
  · rename_i sent hpoint
    obtain ⟨-, -, h⟩ := Option.bind_eq_some_iff.1 h
    obtain ⟨b, hb, h⟩ := Option.bind_eq_some_iff.1 h
    obtain ⟨⟨hlarge, hover⟩, rfl⟩ := Option.ite_some_none_eq_some.1 h
    exact .sentBeyond hpoint hb hlarge hover
  · rename_i hpoint
    obtain rfl := Option.some.inj h
    exact .free hpoint
  · rename_i hpoint
    obtain rfl := Option.some.inj h
    exact .finish hpoint
  · cases h

/-- What becomes of a worker whose call goes on or returns. -/
inductive FileWorker.Resumes (w : FileWorker) : CallResult → FileWorker → Prop
  | writing {call call' : FileCall} (hpoint : w.point = .writefile call) :
      Resumes w (.inside call') (w.goto (.writefile call'))
  | written {call : FileCall} {moved : Option (List UInt8)} (hpoint : w.point = .writefile call) :
      Resumes w (.returned moved) (w.goto .strchr)
  | reading {call call' : FileCall} (hpoint : w.point = .readfile call) :
      Resumes w (.inside call') (w.goto (.readfile call'))
  | unread {call : FileCall} (hpoint : w.point = .readfile call) :
      Resumes w (.returned none) { w with bytesRead := -1, point := .send }
  | loaded {call : FileCall} {xs : List UInt8} {b b' : Buffer} (hpoint : w.point = .readfile call)
      (hb : w.buffer = some b) (hput : b.put 0 xs = some b') : Resumes w (.returned (some xs))
        { w with buffer := some b', bytesRead := xs.length, point := .send }

theorem FileWorker.resumes_of_resume {r : CallResult} (h : w.resume r = some w') : w.Resumes r w' := by
  unfold FileWorker.resume at h
  split at h
  · rename_i hpoint
    obtain rfl := Option.some.inj h
    exact .writing hpoint
  · rename_i hpoint
    obtain rfl := Option.some.inj h
    exact .written hpoint
  · rename_i hpoint
    obtain rfl := Option.some.inj h
    exact .reading hpoint
  · rename_i call moved hpoint
    unfold FileWorker.loaded at h
    split at h
    · obtain rfl := Option.some.inj h
      exact .unread hpoint
    · obtain ⟨b, hb, h⟩ := Option.bind_eq_some_iff.1 h
      obtain ⟨b', hput, rfl⟩ := Option.map_eq_some_iff.1 h
      exact .loaded hpoint hb hput
  · cases h

theorem FileWorker.Steps.clientSocket_eq {running : Bool} {c : Option ℕ} (h : w.Steps running c a w') :
    w'.clientSocket = w.clientSocket := by
  cases h <;> rfl

theorem FileWorker.Resumes.clientSocket_eq {r : CallResult} (h : w.Resumes r w') :
    w'.clientSocket = w.clientSocket := by
  cases h <;> rfl

/-- What a step does to worker `i`, who is `w` behind it: nothing, or `w` is new, or it moved. -/
inductive FileServer.WorkerStep (s : FileServer) (i : ℕ) (w' : FileWorker) : FileLabel → Prop
  | stays {l : FileLabel} (hw : s.workers[i]? = some w') (hl : ∀ a, l ≠ .worker i a) : WorkerStep s i w' l
  | starts {l : FileLabel} (c : ℕ) (hw : w' = .start c) : WorkerStep s i w' l
  | moves {w : FileWorker} {a : FileAction} (hw : s.workers[i]? = some w)
      (hsteps : w.Steps s.running s.clientSocket a w') : WorkerStep s i w' (.worker i a)
  | calls {w : FileWorker} {c : CallAction} {call : FileCall} {d : Disk} {r : CallResult}
      (hw : s.workers[i]? = some w) (hcall : w.call = some call)
      (hstep : s.disk.Stepped (.worker i) call c d r) (hresumes : w.Resumes r w') :
      WorkerStep s i w' (.worker i (.call c))
  | locks {w : FileWorker} {a : FileAction} (hw : s.workers[i]? = some w)
      (ha : a = .lockList ∧ w' = w.goto .finish ∨ a = .unlockList ∧ w' = w.goto .done) :
      WorkerStep s i w' (.worker i a)

theorem workerStep_of_step (h : s.step l = some (s', o)) (hw' : s'.workers[i]? = some w') :
    s.WorkerStep i w' l := by
  rcases FileServer.step_cases h with ⟨b, t, rfl, -, ht, rfl, -⟩ | ⟨rfl, -, -, rfl, -⟩ |
    ⟨j, a, w, rfl, hw, hworker, -⟩ | ⟨b, rfl, htimer, -⟩ | ⟨rfl, rfl, -⟩ | ⟨rfl, rfl, -⟩
  · have hlist : (s.workers ++ t.workers.map fun w => FileWorker.start w.clientSocket)[i]? = some w' := hw'
    by_cases hi : i < s.workers.length
    · rw [List.getElem?_append_left hi] at hlist
      exact .stays hlist (by simp)
    · rw [List.getElem?_append_right (by omega), List.getElem?_map] at hlist
      obtain ⟨u, -, rfl⟩ := Option.map_eq_some_iff.1 hlist
      exact .starts u.clientSocket rfl
  · exact .stays hw' (by simp)
  · have hother : ∀ u : FileWorker, (s.workers.set j u)[i]? = some w' →
        (j = i ∧ u = w') ∨ (j ≠ i ∧ s.workers[i]? = some w') := by
      intro u hu
      by_cases hj : j = i
      · subst hj
        rw [List.getElem?_set_self (List.getElem?_eq_some_iff.1 hw).1] at hu
        exact Or.inl ⟨rfl, Option.some.inj hu⟩
      · rw [List.getElem?_set_ne hj] at hu
        exact Or.inr ⟨hj, hu⟩
    have hstays : j ≠ i ∧ s.workers[i]? = some w' → s.WorkerStep i w' (.worker j a) := fun h =>
      .stays h.2 fun b hb => h.1 (FileLabel.worker.inj hb).1
    rcases FileServer.workerStep_cases hworker with ⟨c, call, d, r, u, rfl, hcall, hdisk, hresume, rfl⟩ |
      ⟨u, hstep, rfl⟩ | ⟨rfl, -, -, rfl⟩ | ⟨rfl, -, -, rfl⟩
    · rcases hother u hw' with ⟨rfl, rfl⟩ | h
      · exact .calls hw hcall (Disk.stepped_of_step hdisk) (FileWorker.resumes_of_resume hresume)
      · exact hstays h
    · rcases hother u hw' with ⟨rfl, rfl⟩ | h
      · exact .moves hw (FileWorker.steps_of_step hstep)
      · exact hstays h
    · rcases hother _ hw' with ⟨rfl, rfl⟩ | h
      · exact .locks hw (Or.inl ⟨rfl, rfl⟩)
      · exact hstays h
    · rcases hother _ hw' with ⟨rfl, rfl⟩ | h
      · exact .locks hw (Or.inr ⟨rfl, rfl⟩)
      · exact hstays h
  · obtain ⟨d, p, rfl⟩ := FileServer.timerStep_eq htimer
    exact .stays hw' (by simp)
  · exact .stays hw' (by simp)
  · exact .stays hw' (by simp)

/-! ### Connections -/

/-- The accept loop, and the sockets of the workers. -/
def FileServer.connections (s : FileServer) : Server :=
  { s.accepting with workers := s.workers.map fun w => .start w.clientSocket }

theorem Server.Sockets.of_eq {r t : Server} (hr : r.Sockets)
    (hworkers : t.workers.map (·.clientSocket) = r.workers.map (·.clientSocket))
    (hmain : t.main = r.main)
    (hlast : t.clientSocket = r.clientSocket) (haccepted : t.accepted = r.accepted) : t.Sockets := by
  have hlength : t.workers.length = r.workers.length := by
    simpa using congrArg List.length hworkers
  refine ⟨fun i w hw => ?_, ?_, ?_⟩
  · have hsocket : (r.workers.map (·.clientSocket))[i]? = some w.clientSocket := by
      rw [← hworkers, List.getElem?_map, hw, Option.map_some]
    rw [List.getElem?_map] at hsocket
    obtain ⟨u, hu, heq⟩ := Option.map_eq_some_iff.1 hsocket
    rw [← heq]
    exact hr.worker i u hu
  · rw [hmain, hlast, hlength]
    exact hr.last
  · rw [hmain, haccepted, hlength]
    exact hr.accepted

theorem mainStep_with {r t : Server} {b : MainAction} (workers : List Worker) (hr : r.workers = [])
    (h : r.mainStep b = some t) :
    { r with workers := workers }.mainStep b = some { t with workers := workers ++ t.workers } := by
  cases b with
  | checkRunning | createNode granted =>
    obtain rfl := Option.some.inj h
    show some _ = some _
    simp only [hr, List.append_nil]
  | accept accepted =>
    cases accepted <;>
    · obtain rfl := Option.some.inj h
      show some _ = some _
      simp only [hr, List.append_nil]
  | spawn created =>
    cases created with
    | true =>
      obtain ⟨c, hc, rfl⟩ := Option.map_eq_some_iff.1 h
      refine Option.map_eq_some_iff.2 ⟨c, hc, ?_⟩
      simp only [hr, List.nil_append]
    | false =>
      obtain rfl := Option.some.inj h
      show some _ = some _
      simp only [hr, List.append_nil]
  | lockCreate | unlockCreate | lockAppend | unlockAppend | lockSweep | unlockSweep =>
    obtain ⟨hlock, rfl⟩ := Option.ite_some_none_eq_some.1 h
    refine (if_pos hlock).trans ?_
    simp only [hr, List.append_nil]

theorem accept_sockets {b : MainAction} {t : Server} (hpoint : s.main = b.point)
    (h : s.accepting.mainStep b = some t) (hs : s.connections.Sockets) :
    (s.accept b t).connections.Sockets := by
  refine (mainStep_sockets hpoint (mainStep_with _ rfl h) hs).of_eq ?_ rfl rfl rfl
  show ((s.workers ++ t.workers.map _).map _).map _ = (s.workers.map _ ++ t.workers).map _
  simp [FileWorker.start, Worker.start]

theorem put_sockets (hw : s.workers[i]? = some w) (hsocket : w'.clientSocket = w.clientSocket)
    (hs : s.connections.Sockets) : (s.put i w').connections.Sockets := by
  refine hs.of_eq ?_ rfl rfl rfl
  show ((s.workers.set i w').map _).map _ = (s.workers.map _).map _
  rw [List.map_map, List.map_map]
  apply List.ext_getElem?
  intro j
  rw [List.getElem?_map, List.getElem?_map]
  by_cases hij : i = j
  · subst hij
    rw [List.getElem?_set_self (List.getElem?_eq_some_iff.1 hw).1, hw, Option.map_some, Option.map_some]
    exact congrArg some hsocket
  · rw [List.getElem?_set_ne hij]

theorem step_sockets (hs : s.connections.Sockets) (h : s.step l = some (s', o)) :
    s'.connections.Sockets := by
  rcases FileServer.step_cases h with ⟨b, t, -, hpoint, ht, rfl, -⟩ | ⟨-, -, -, rfl, -⟩ |
    ⟨i, a, w, -, hw, hworker, -⟩ | ⟨b, -, htimer, -⟩ | ⟨-, rfl, -⟩ | ⟨-, rfl, -⟩
  · exact accept_sockets hpoint ht hs
  · exact hs.of_eq rfl rfl rfl rfl
  · rcases FileServer.workerStep_cases hworker with ⟨-, -, d, r, w', -, -, -, hresume, rfl⟩ |
      ⟨w', hstep, rfl⟩ | ⟨-, -, -, rfl⟩ | ⟨-, -, -, rfl⟩
    · exact (put_sockets hw (FileWorker.resumes_of_resume hresume).clientSocket_eq hs).of_eq
        rfl rfl rfl rfl
    · exact put_sockets hw (FileWorker.steps_of_step hstep).clientSocket_eq hs
    · exact (put_sockets hw (show (w.goto .finish).clientSocket = _ from rfl) hs).of_eq rfl rfl rfl rfl
    · exact (put_sockets hw (show (w.goto .done).clientSocket = _ from rfl) hs).of_eq rfl rfl rfl rfl
  · obtain ⟨d, p, rfl⟩ := FileServer.timerStep_eq htimer
    exact hs.of_eq rfl rfl rfl rfl
  · exact hs.of_eq rfl rfl rfl rfl
  · exact hs.of_eq rfl rfl rfl rfl

theorem run_file_sockets (hrun : fileMachine.Run guard (.init file) acts outs s) :
    s.connections.Sockets := by
  refine hrun.invariant (I := fun _ _ s => s.connections.Sockets) ?_ fun _ _ _ _ _ _ hs _ hstep =>
    step_sockets hs hstep
  exact sockets_init.of_eq rfl rfl rfl rfl

theorem file_socket (hs : s.connections.Sockets) (hw : s.workers[i]? = some w) : w.clientSocket = i := by
  refine hs.worker i (.start w.clientSocket) ?_
  show (s.workers.map _)[i]? = _
  rw [List.getElem?_map, hw, Option.map_some]

/-! ### Calls -/

/-- A call is where it was, or begins with what the step hands over. -/
def Begins (produced : List (List UInt8)) (before after : Option FileCall) : Prop :=
  (after = before ∧ produced = []) ∨
    (before = none ∧ ∃ job : Job, after = some (.start job) ∧ job.data.toList = produced)

theorem FileWorker.Resumes.call_eq {r : CallResult} (h : w.Resumes r w') : w'.call = r.call := by
  cases h <;> rfl

theorem FileWorker.Steps.begins {running : Bool} {c : Option ℕ} (h : w.Steps running c a w') :
    Begins a.produced w.call w'.call := by
  cases h with
  | received hpoint hne _ _ hput hdata =>
    right
    refine ⟨by rw [FileWorker.call, hpoint], _, rfl, ?_⟩
    obtain rfl := Option.some.inj (hdata.symm.trans (Buffer.front_of_put hput))
    exact (if_neg hne).symm
  | found hpoint => exact Or.inr ⟨by rw [FileWorker.call, hpoint], _, rfl, rfl⟩
  | malloc hpoint | refused hpoint | goesOn hpoint | stopped hpoint | failed hpoint | ended hpoint
  | notFound hpoint | notSent hpoint | sentNothing hpoint | sent hpoint | sentBeyond hpoint
  | free hpoint | finish hpoint => exact Or.inl ⟨show none = w.call by rw [FileWorker.call, hpoint], rfl⟩

theorem callOf_put (hw : s.workers[i]? = some w) (w' : FileWorker) (u : FileThread) :
    (s.put i w').callOf u = if u = .worker i then w'.call else s.callOf u := by
  cases u with
  | timer => rfl
  | worker j =>
    unfold FileServer.callOf FileServer.put
    simp only
    by_cases hij : i = j
    · subst hij
      rw [if_pos rfl, List.getElem?_set_self (List.getElem?_eq_some_iff.1 hw).1]
      rfl
    · rw [if_neg (fun h => hij (FileThread.worker.inj h).symm), List.getElem?_set_ne hij]

theorem callOf_accept (b : MainAction) (t : Server) (u : FileThread) :
    (s.accept b t).callOf u = s.callOf u := by
  cases u with
  | timer => rfl
  | worker j =>
    unfold FileServer.callOf FileServer.accept
    simp only
    by_cases hj : j < s.workers.length
    · rw [List.getElem?_append_left hj]
    · have hnone : s.workers[j]? = none := List.getElem?_eq_none (by omega)
      rw [List.getElem?_append_right (by omega), List.getElem?_map, hnone]
      cases t.workers[j - s.workers.length]? with
      | none => rfl
      | some w => rfl

theorem worker_calls (hw : s.workers[i]? = some w) (h : s.workerStep i w a = some s') :
    (∃ c call d r, a = .call c ∧ s.callOf (.worker i) = some call ∧
      s.disk.step (.worker i) call c = some (d, r) ∧ s'.disk = d ∧ s'.callOf (.worker i) = r.call ∧
      ∀ u, u ≠ .worker i → s'.callOf u = s.callOf u) ∨
    ((FileLabel.worker i a).calling = none ∧ s'.disk = s.disk ∧
      ∀ u, Begins ((FileLabel.worker i a).produced u) (s.callOf u) (s'.callOf u)) := by
  have hself : s.callOf (.worker i) = w.call := by
    show s.workers[i]?.bind _ = _
    rw [hw, Option.bind_some]
  -- the others stay where they are, and so does this one unless it begins a call
  have hbegins : ∀ w', Begins a.produced w.call w'.call →
      ∀ u, Begins ((FileLabel.worker i a).produced u) (s.callOf u) ((s.put i w').callOf u) := by
    intro w' hw' u
    rw [callOf_put hw]
    by_cases hu : u = .worker i
    · subst hu
      rw [if_pos rfl, hself]
      exact (show (FileLabel.worker i a).produced (.worker i) = a.produced from if_pos rfl) ▸ hw'
    · rw [if_neg hu]
      refine Or.inl ⟨rfl, ?_⟩
      cases u with
      | timer => rfl
      | worker j => exact if_neg fun hij => hu (by rw [hij])
  rcases FileServer.workerStep_cases h with ⟨c, call, d, r, w', rfl, hcall, hdisk, hresume, rfl⟩ |
    ⟨w', hstep, rfl⟩ | ⟨rfl, hpoint, -, rfl⟩ | ⟨rfl, hpoint, -, rfl⟩
  · left
    have hput : ∀ u, ({ s with disk := d }.put i w').callOf u = (s.put i w').callOf u := by
      intro u
      cases u <;> rfl
    refine ⟨c, call, d, r, rfl, hself.trans hcall, hdisk, rfl, ?_, fun u hu => ?_⟩
    · rw [hput, callOf_put hw, if_pos rfl]
      exact (FileWorker.resumes_of_resume hresume).call_eq
    · rw [hput, callOf_put hw, if_neg hu]
  · right
    refine ⟨?_, rfl, hbegins w' (FileWorker.steps_of_step hstep).begins⟩
    cases a with
    | call c => cases FileWorker.steps_of_step hstep
    | _ => rfl
  · right
    refine ⟨rfl, rfl, fun u => ?_⟩
    have hput := hbegins (w.goto .finish)
      (Or.inl ⟨show none = w.call by rw [FileWorker.call, hpoint], rfl⟩) u
    cases u <;> exact hput
  · right
    refine ⟨rfl, rfl, fun u => ?_⟩
    have hput := hbegins (w.goto .done)
      (Or.inl ⟨show none = w.call by rw [FileWorker.call, hpoint], rfl⟩) u
    cases u <;> exact hput

theorem timer_calls {b : TimerAction} (h : s.timerStep b = some s') :
    (∃ c call d r, b = .call c ∧ s.callOf .timer = some call ∧ s.disk.step .timer call c = some (d, r) ∧
      s'.disk = d ∧ s'.callOf .timer = r.call ∧ ∀ u, u ≠ .timer → s'.callOf u = s.callOf u) ∨
    ((FileLabel.timer b).calling = none ∧ s'.disk = s.disk ∧
      ∀ u, Begins ((FileLabel.timer b).produced u) (s.callOf u) (s'.callOf u)) := by
  have hbegins : ∀ p : TimerPoint, Begins b.produced s.timer.call p.call →
      ∀ u, Begins ((FileLabel.timer b).produced u) (s.callOf u) ({ s with timer := p }.callOf u) := by
    intro p hp u
    cases u with
    | timer => exact hp
    | worker j => exact Or.inl ⟨rfl, rfl⟩
  cases b with
  | checkRunning =>
    right
    obtain ⟨hpoint, h⟩ := Option.ite_none_right_eq_some.1 h
    obtain rfl := Option.some.inj h
    refine ⟨rfl, rfl, hbegins _ (Or.inl ⟨?_, rfl⟩)⟩
    rw [hpoint]
    split <;> rfl
  | usleep outtext =>
    right
    obtain ⟨⟨hpoint, -⟩, h⟩ := Option.ite_none_right_eq_some.1 h
    obtain rfl := Option.some.inj h
    exact ⟨rfl, rfl, hbegins _ (Or.inr ⟨by rw [hpoint]; rfl, _, rfl, rfl⟩)⟩
  | call c =>
    left
    obtain ⟨call, hcall, h⟩ := Option.bind_eq_some_iff.1 h
    obtain ⟨⟨d, r⟩, hdisk, rfl⟩ := Option.map_eq_some_iff.1 h
    refine ⟨c, call, d, r, rfl, hcall, hdisk, rfl, ?_, fun u hu => ?_⟩
    · cases r <;> rfl
    · cases u with
      | timer => exact absurd rfl hu
      | worker j => rfl

/-- **The calls in a step**: one thread goes on in its call, and the others stay where they are; or
nobody goes on, and a call can only begin, with what the step hands over. -/
theorem step_calls (h : s.step l = some (s', o)) :
    (∃ t c call d r, l.calling = some (t, c) ∧ s.callOf t = some call ∧
      s.disk.step t call c = some (d, r) ∧ s'.disk = d ∧ s'.callOf t = r.call ∧
      ∀ u, u ≠ t → s'.callOf u = s.callOf u) ∨
    (l.calling = none ∧ (s'.disk = s.disk ∨ l = .unlink ∧ s'.disk = s.disk.unlink) ∧
      ∀ u, Begins (l.produced u) (s.callOf u) (s'.callOf u)) := by
  rcases FileServer.step_cases h with ⟨b, t, rfl, -, -, rfl, -⟩ | ⟨rfl, -, -, rfl, -⟩ |
    ⟨i, a, w, rfl, hw, hworker, -⟩ | ⟨b, rfl, htimer, -⟩ | ⟨rfl, rfl, -⟩ | ⟨rfl, rfl, -⟩
  · exact Or.inr ⟨rfl, Or.inl rfl, fun u => Or.inl ⟨callOf_accept b t u, by cases u <;> rfl⟩⟩
  · exact Or.inr ⟨rfl, Or.inl rfl, fun u => Or.inl (by cases u <;> exact ⟨rfl, rfl⟩)⟩
  · rcases worker_calls hw hworker with ⟨c, call, d, r, rfl, hrest⟩ | ⟨hnone, hdisk, hbegins⟩
    · exact Or.inl ⟨_, c, call, d, r, rfl, hrest⟩
    · exact Or.inr ⟨hnone, Or.inl hdisk, hbegins⟩
  · rcases timer_calls htimer with ⟨c, call, d, r, rfl, hrest⟩ | ⟨hnone, hdisk, hbegins⟩
    · exact Or.inl ⟨_, c, call, d, r, rfl, hrest⟩
    · exact Or.inr ⟨hnone, Or.inl hdisk, hbegins⟩
  · exact Or.inr ⟨rfl, Or.inr ⟨rfl, rfl⟩, fun u => Or.inl (by cases u <;> exact ⟨rfl, rfl⟩)⟩
  · exact Or.inr ⟨rfl, Or.inl rfl, fun u => Or.inl (by cases u <;> exact ⟨rfl, rfl⟩)⟩

end AesdChar
