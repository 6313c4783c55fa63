import AesdChar.Base.Mutex
import AesdChar.Server.System

/-!
# One thread at a time

What a single step of the server can do: a step of the main thread, of the signal handler or of one
worker (`Server.step_cases`). The step of a worker leaves the other threads alone, takes or gives
back a mutex as its points say, makes at most one call to the driver, and touches what the thread
received only in its own receive loop (`workerStep_moves`). So both mutexes exclude each other's
holders in every run, and are free when no thread is at a point that holds them (`run_exclusive`).
-/

namespace AesdChar
open CInt CString Mutex

variable {k : KernelLimits} {s s' : Server} {l : Label} {o : Event} {i : ℕ} {a : Action}
  {w w' : Worker}

theorem Server.step_cases (h : s.step k l = some (s', o)) :
    (∃ a, l = .main a ∧ s.main = a.point ∧ s.mainStep a = some s' ∧ o = .quiet) ∨
    (∃ i a w, l = .worker i a ∧ s.main ≠ .exited ∧ s.workers[i]? = some w ∧ w.point = a.point ∧
      s.workerStep k i w a = some s' ∧ o = w.event a) ∨
    (l = .unlink ∧ s' = { s with nodePresent := false } ∧ o = .quiet) ∨
    (l = .stop ∧ s' = { s with running := false } ∧ o = .quiet) := by
  cases l with
  | main a =>
    left
    simp only [Server.step] at h
    split at h
    · rename_i hpoint
      obtain ⟨t, ht, heq⟩ := Option.map_eq_some_iff.1 h
      obtain ⟨rfl, rfl⟩ := Prod.mk.inj heq
      exact ⟨a, rfl, hpoint, ht, rfl⟩
    · cases h
  | worker i a =>
    right
    left
    simp only [Server.step] at h
    split at h
    · cases h
    · rename_i hmain
      obtain ⟨w, hw, h⟩ := Option.bind_eq_some_iff.1 h
      split at h
      · rename_i hpoint
        obtain ⟨t, ht, heq⟩ := Option.map_eq_some_iff.1 h
        obtain ⟨rfl, rfl⟩ := Prod.mk.inj heq
        exact ⟨i, a, w, rfl, hmain, hw, hpoint, ht, rfl⟩
      · cases h
  | unlink =>
    obtain ⟨rfl, rfl⟩ := Prod.mk.inj (Option.some.inj h)
    exact Or.inr (Or.inr (Or.inl ⟨rfl, rfl, rfl⟩))
  | stop =>
    obtain ⟨rfl, rfl⟩ := Prod.mk.inj (Option.some.inj h)
    exact Or.inr (Or.inr (Or.inr ⟨rfl, rfl, rfl⟩))

/-! ### Points -/

/-- Where `socketThread` can go on from a point. -/
def Point.next : Point → List Point
  | .malloc => [.checkRunning, .done]
  | .checkRunning => [.recv, .lockOpen]
  | .recv => [.checkRunning, .realloc, .lockOpen]
  | .realloc => [.checkRunning, .done]
  | .lockOpen => [.open]
  | .open => [.unlockOpen]
  | .unlockOpen => [.dispatch]
  | .dispatch => [.lockSeek, .lockWrite, .free]
  | .lockSeek => [.ioctl]
  | .ioctl => [.seekRead]
  | .seekRead => [.seekSend, .unlockSeek]
  | .seekSend => [.seekRead, .unlockSeek]
  | .unlockSeek => [.free]
  | .lockWrite => [.write]
  | .write => [.lseek]
  | .lseek => [.read]
  | .read => [.send, .unlockWrite]
  | .send => [.read]
  | .unlockWrite => [.free]
  | .free => [.lockList]
  | .lockList => [.finish]
  | .finish => [.unlockList]
  | .unlockList => [.done]
  | .done => []

/-- The points between a lock and an unlock of `file_mutex`. -/
def Point.holdsFile : Point → Bool
  | .open | .unlockOpen | .ioctl | .seekRead | .seekSend | .unlockSeek | .write | .lseek | .read
  | .send | .unlockWrite => true
  | _ => false

/-- The points between the lock and the unlock of `listMutex`. -/
def Point.holdsList : Point → Bool
  | .finish | .unlockList => true
  | _ => false

/-- The points of the main thread between a lock and an unlock of `listMutex`. -/
def MainPoint.holdsList : MainPoint → Bool
  | .createNode | .unlockCreate | .unlockAppend | .unlockSweep => true
  | _ => false

/-- A point behind the receive loop. -/
def Point.Late (p : Point) : Prop :=
  p ≠ .malloc ∧ p ≠ .checkRunning ∧ p ≠ .recv ∧ p ≠ .realloc

instance (p : Point) : Decidable p.Late := inferInstanceAs (Decidable (_ ∧ _))

/-- A point that is no operation on a mutex. -/
def Point.Quiet (p : Point) : Prop := ∀ q ∈ p.next, q.holdsFile = p.holdsFile ∧ q.holdsList = p.holdsList

instance (p : Point) : Decidable p.Quiet := inferInstanceAs (Decidable (∀ q ∈ p.next, _))

theorem Point.Late.next {p q : Point} (hp : p.Late) (hq : q ∈ p.next) : q.Late := by
  have hall : ∀ q ∈ p.next, p.Late → q.Late := by cases p <;> decide
  exact hall q hq hp

/-- Behind the receive loop: what the thread received stayed the same, or was freed. -/
structure Worker.SameInput (w w' : Worker) : Prop where
  late : w.point.Late
  clientSocket : w'.clientSocket = w.clientSocket
  buffer : ∀ b, w'.buffer = some b → w.buffer = some b
  bufferSize : w'.bufferSize = w.bufferSize
  totalBytesRead : w'.totalBytesRead = w.totalBytesRead

theorem Worker.sameInput_goto {q : Point} (h : w.point.Late) : w.SameInput (w.goto q) :=
  ⟨h, rfl, fun _ hb => hb, rfl, rfl⟩

/-- Nothing was called, or one valid call that writes only what worker `w` has to write. -/
def Server.Calls (k : KernelLimits) (s : Server) (device : System) (i : ℕ) (w : Worker) (a : Action) :
    Prop :=
  device = s.device ∨
    ∃ c r, c.Valid k ∧ s.device.step k (i, c) = some (device, r) ∧
      ∀ data env, c = .write data env →
        a = .write env ∧ w.fileFd = .device ∧ w.writeData k = some data

/-- Worker `i`, who is `w`, goes on as `w'`. -/
structure Server.Moves (k : KernelLimits) (s s' : Server) (i : ℕ) (w w' : Worker) (a : Action) :
    Prop where
  workers : s'.workers = s.workers.set i w'
  nodePresent : s'.nodePresent = s.nodePresent
  running : s'.running = s.running
  main : s'.main = s.main
  accepted : s'.accepted = s.accepted
  clientSocket : s'.clientSocket = s.clientSocket
  next : w'.point ∈ w.point.next
  file : Handover (.worker i) s.fileMutex s'.fileMutex (w.point.holdsFile = true)
    (w'.point.holdsFile = true)
  list : Handover (.worker i) s.listMutex s'.listMutex (w.point.holdsList = true)
    (w'.point.holdsList = true)
  input : w.step s.running a = some w' ∨ w.SameInput w'
  device : s.Calls k s'.device i w a

/-! ### The actions of a worker -/

section Moves

theorem Worker.step_next {running : Bool} (h : w.step running a = some w') :
    w'.point ∈ a.point.next ∧ a.point.Quiet := by
  cases a with
  | malloc granted =>
    cases granted with
    | true =>
      obtain rfl := Option.some.inj h
      exact ⟨by simp [Action.point, Point.next], by decide⟩
    | false =>
      obtain rfl := Option.some.inj h
      exact ⟨by simp [Action.point, Point.next], by decide⟩
  | checkRunning =>
    obtain rfl := Option.some.inj h
    cases running with
    | true => exact ⟨by simp [Action.point, Point.next, Worker.goto], by decide⟩
    | false => exact ⟨by simp [Action.point, Point.next, Worker.goto], by decide⟩
  | recv received =>
    refine ⟨?_, (by decide : Point.Quiet .recv)⟩
    cases received with
    | none =>
      obtain rfl := Option.some.inj h
      simp [Action.point, Point.next]
    | some xs =>
      simp only [Worker.step, Worker.receive] at h
      split at h
      · obtain ⟨b, -, h⟩ := Option.bind_eq_some_iff.1 h
        obtain ⟨b', -, h⟩ := Option.bind_eq_some_iff.1 h
        split at h
        · obtain rfl := Option.some.inj h
          simp [Action.point, Point.next, Worker.goto]
        · obtain ⟨text, -, rfl⟩ := Option.map_eq_some_iff.1 h
          split_ifs <;> simp [Action.point, Point.next, Worker.goto]
      · cases h
  | realloc tail =>
    refine ⟨?_, (by decide : Point.Quiet .realloc)⟩
    obtain ⟨b, -, h⟩ := Option.bind_eq_some_iff.1 h
    cases tail with
    | none =>
      obtain rfl := Option.some.inj h
      simp [Action.point, Point.next]
    | some tail =>
      simp only at h
      split at h
      · obtain rfl := Option.some.inj h
        simp [Action.point, Point.next]
      · cases h
  | dispatch =>
    refine ⟨?_, by decide⟩
    obtain ⟨b, -, h⟩ := Option.bind_eq_some_iff.1 h
    obtain ⟨text, -, rfl⟩ := Option.map_eq_some_iff.1 h
    split
    · simp [Action.point, Point.next, Worker.goto]
    · split <;> simp [Action.point, Point.next, Worker.goto]
  | seekSend sent =>
    refine ⟨?_, (by decide : Point.Quiet .seekSend)⟩
    cases sent with
    | none =>
      obtain rfl := Option.some.inj h
      simp [Action.point, Point.next, Worker.goto]
    | some n =>
      obtain ⟨-, rfl⟩ := Option.ite_some_none_eq_some.1 h
      simp [Action.point, Point.next, Worker.goto]
  | send sent =>
    refine ⟨?_, (by decide : Point.Quiet .send)⟩
    cases sent with
    | none =>
      obtain rfl := Option.some.inj h
      simp [Action.point, Point.next, Worker.goto]
    | some n =>
      obtain ⟨-, rfl⟩ := Option.ite_some_none_eq_some.1 h
      simp [Action.point, Point.next, Worker.goto]
  | free =>
    obtain rfl := Option.some.inj h
    exact ⟨by simp [Action.point, Point.next], by decide⟩
  | finish =>
    obtain rfl := Option.some.inj h
    exact ⟨by simp [Action.point, Point.next], by decide⟩
  | _ => cases h

theorem Server.moves_quiet {device : System} (hquiet : w.point.Quiet)
    (hnext : w'.point ∈ w.point.next) (hin : w.step s.running a = some w' ∨ w.SameInput w')
    (hcalls : s.Calls k device i w a) :
    s.Moves k ({ s with device := device }.put i w') i w w' a :=
  ⟨rfl, rfl, rfl, rfl, rfl, rfl, hnext, .keep (by rw [(hquiet _ hnext).1]),
    .keep (by rw [(hquiet _ hnext).2]), hin, hcalls⟩

theorem local_moves (hpoint : w.point = a.point)
    (h : (w.step s.running a).map (s.put i) = some s') : ∃ w', s.Moves k s' i w w' a := by
  obtain ⟨w', hw', rfl⟩ := Option.map_eq_some_iff.1 h
  obtain ⟨hnext, hquiet⟩ := Worker.step_next hw'
  rw [← hpoint] at hnext hquiet
  exact ⟨w', Server.moves_quiet hquiet hnext (Or.inl hw') (Or.inl rfl)⟩

theorem put_moves (hquiet : w.point.Quiet) (hnext : w'.point ∈ w.point.next)
    (hin : w.SameInput w') : ∃ w'', s.Moves k (s.put i w') i w w'' a :=
  ⟨w', Server.moves_quiet hquiet hnext (Or.inr hin) (Or.inl rfl)⟩

theorem onDevice_moves {c : Call} {next : Reply → Worker} (hquiet : w.point.Quiet)
    (hnext : ∀ r, (next r).point ∈ w.point.next ∧ w.SameInput (next r)) (hc : c.Valid k)
    (hwrite : ∀ data env, c = .write data env →
      a = .write env ∧ w.fileFd = .device ∧ w.writeData k = some data)
    (h : s.onDevice k i c next = some s') : ∃ w', s.Moves k s' i w w' a := by
  obtain ⟨⟨device, r⟩, hstep, rfl⟩ := Option.map_eq_some_iff.1 h
  exact ⟨next r, Server.moves_quiet hquiet (hnext r).1 (Or.inr (hnext r).2)
    (Or.inr ⟨c, r, hc, hstep, hwrite⟩)⟩

theorem openFile_moves {fd : Fd} (hpoint : w.point = .open) (h : s.openFile k i w fd = some s') :
    ∃ w', s.Moves k s' i w w' a := by
  have hquiet : w.point.Quiet := hpoint ▸ (by decide : Point.Quiet .open)
  have hnext : Point.unlockOpen ∈ w.point.next := hpoint ▸ (by decide : _ ∈ Point.next .open)
  have hin : w.SameInput { w with fileFd := fd, point := .unlockOpen } :=
    ⟨hpoint ▸ (by decide : Point.Late .open), rfl, fun _ hb => hb, rfl, rfl⟩
  cases fd with
  | bad =>
    obtain rfl := Option.some.inj h
    exact put_moves hquiet hnext hin
  | device =>
    obtain ⟨-, h⟩ := Option.ite_none_right_eq_some.1 h
    exact onDevice_moves (c := .open) hquiet (fun _ => ⟨hnext, hin⟩) trivial (by simp) h
  | plain =>
    obtain ⟨-, h⟩ := Option.ite_none_left_eq_some.1 h
    obtain rfl := Option.some.inj h
    exact put_moves hquiet hnext hin

theorem writeFile_moves {env : WriteEnv} (hpoint : w.point = .write)
    (h : s.writeFile k i w env = some s') : ∃ w', s.Moves k s' i w w' (.write env) := by
  have hquiet : w.point.Quiet := hpoint ▸ (by decide : Point.Quiet .write)
  have hnext : (w.goto .lseek).point ∈ w.point.next :=
    hpoint ▸ (by decide : Point.lseek ∈ Point.next .write)
  have hin : w.SameInput (w.goto .lseek) :=
    w.sameInput_goto (hpoint ▸ (by decide : Point.Late .write))
  unfold Server.writeFile at h
  split at h
  · rename_i data hfd hdata
    refine onDevice_moves (c := .write data env) hquiet (fun _ => ⟨hnext, hin⟩)
      (Worker.writeData_length_le hdata) (fun data' env' heq => ?_) h
    obtain ⟨rfl, rfl⟩ := Call.write.inj heq
    exact ⟨rfl, hfd, hdata⟩
  · obtain ⟨-, h⟩ := Option.ite_none_left_eq_some.1 h
    obtain rfl := Option.some.inj h
    exact put_moves hquiet hnext hin
  · obtain rfl := Option.some.inj h
    exact put_moves hquiet hnext hin

theorem ite_onDevice_moves {c : Call} {p q : Point} (hpoint : w.point = p)
    (hpq : p.Quiet ∧ q ∈ p.next ∧ p.Late) (hc : c.Valid k) (hwrite : ∀ data env, c ≠ .write data env)
    (h : (if w.fileFd = .device then s.onDevice k i c fun _ => w.goto q
      else some (s.put i (w.goto q))) = some s') : ∃ w', s.Moves k s' i w w' a := by
  subst hpoint
  have hin : w.SameInput (w.goto q) := w.sameInput_goto hpq.2.2
  split at h
  · exact onDevice_moves hpq.1 (fun _ => ⟨hpq.2.1, hin⟩) hc
      (fun data env heq => absurd heq (hwrite data env)) h
  · obtain rfl := Option.some.inj h
    exact put_moves hpq.1 hpq.2.1 hin

theorem readFile_moves {count : ℕ} {env : ReadEnv} {plain : Option (List UInt8)}
    {p got stop : Point} (hpoint : w.point = p)
    (hp : p.Quiet ∧ p.Late ∧ got ∈ p.next ∧ stop ∈ p.next)
    (h : s.readFile k i w count env plain got stop = some s') : ∃ w', s.Moves k s' i w w' a := by
  subst hpoint
  obtain ⟨hquiet, hlate, hgot, hstop⟩ := hp
  have hend : w.SameInput (w.goto stop) := w.sameInput_goto hlate
  have hmore : ∀ data, w.SameInput { w with readBuffer := data, point := got } :=
    fun _ => ⟨hlate, rfl, fun _ hb => hb, rfl, rfl⟩
  unfold Server.readFile at h
  split at h
  · obtain rfl := Option.some.inj h
    exact put_moves hquiet hstop hend
  · refine onDevice_moves (c := .read _ env) hquiet (fun r => ?_) trivial (by simp) h
    split
    · exact ⟨hgot, hmore _⟩
    · exact ⟨hstop, hend⟩
  · split at h
    · obtain rfl := Option.some.inj h
      exact put_moves hquiet hstop hend
    · rename_i data
      obtain ⟨-, rfl⟩ := Option.ite_some_none_eq_some.1 h
      split
      · exact put_moves hquiet hstop hend
      · exact put_moves hquiet hgot (hmore data)

theorem lockFile_moves {p q : Point} (hpoint : w.point = p)
    (hpq : p.Late ∧ q ∈ p.next ∧ q.holdsFile = true ∧ q.holdsList = p.holdsList)
    (h : s.lockFile i (w.goto q) = some s') : ∃ w', s.Moves k s' i w w' a := by
  subst hpoint
  obtain ⟨hlate, hnext, hfile, hlist⟩ := hpq
  obtain ⟨hfree, rfl⟩ := Option.ite_some_none_eq_some.1 h
  exact ⟨w.goto q, rfl, rfl, rfl, rfl, rfl, rfl, hnext, .take hfile hfree,
    .keep (by rw [Worker.goto, hlist]), Or.inr (w.sameInput_goto hlate), Or.inl rfl⟩

theorem unlockFile_moves {p q : Point} (hpoint : w.point = p)
    (hpq : p.Late ∧ q ∈ p.next ∧ q.holdsFile = false ∧ q.holdsList = p.holdsList)
    (h : s.unlockFile i (w.goto q) = some s') : ∃ w', s.Moves k s' i w w' a := by
  subst hpoint
  obtain ⟨hlate, hnext, hfile, hlist⟩ := hpq
  obtain ⟨hheld, rfl⟩ := Option.ite_some_none_eq_some.1 h
  exact ⟨w.goto q, rfl, rfl, rfl, rfl, rfl, rfl, hnext, .give (by simp [Worker.goto, hfile]) hheld,
    .keep (by rw [Worker.goto, hlist]), Or.inr (w.sameInput_goto hlate), Or.inl rfl⟩

theorem lockList_moves (hpoint : w.point = .lockList)
    (h : s.lockList i (w.goto .finish) = some s') : ∃ w', s.Moves k s' i w w' a := by
  obtain ⟨hfree, rfl⟩ := Option.ite_some_none_eq_some.1 h
  refine ⟨w.goto .finish, rfl, rfl, rfl, rfl, rfl, rfl, ?_, .keep ?_, .take rfl hfree, Or.inr ?_,
    Or.inl rfl⟩
  · simp [hpoint, Worker.goto, Point.next]
  · simp [hpoint, Worker.goto, Point.holdsFile]
  · exact w.sameInput_goto (hpoint ▸ (by decide : Point.Late .lockList))

theorem unlockList_moves (hpoint : w.point = .unlockList)
    (h : s.unlockList i (w.goto .done) = some s') : ∃ w', s.Moves k s' i w w' a := by
  obtain ⟨hheld, rfl⟩ := Option.ite_some_none_eq_some.1 h
  refine ⟨w.goto .done, rfl, rfl, rfl, rfl, rfl, rfl, ?_, .keep ?_, .give ?_ hheld, Or.inr ?_,
    Or.inl rfl⟩
  · simp [hpoint, Worker.goto, Point.next]
  · simp [hpoint, Worker.goto, Point.holdsFile]
  · simp [Worker.goto, Point.holdsList]
  · exact w.sameInput_goto (hpoint ▸ (by decide : Point.Late .unlockList))

end Moves

/-- Every action of a worker moves that worker only. -/
theorem workerStep_moves (hpoint : w.point = a.point) (h : s.workerStep k i w a = some s') :
    ∃ w', s.Moves k s' i w w' a := by
  cases a with
  | lockOpen => exact lockFile_moves hpoint (by decide) h
  | «open» fd => exact openFile_moves hpoint h
  | unlockOpen => exact unlockFile_moves hpoint (by decide) h
  | lockSeek => exact lockFile_moves hpoint (by decide) h
  | ioctl env =>
    exact ite_onDevice_moves (c := .ioctl _ w.seekto env) (p := .ioctl) hpoint (by decide) trivial
      (by simp) h
  | seekRead env plain => exact readFile_moves (p := .seekRead) hpoint (by decide) h
  | unlockSeek => exact unlockFile_moves hpoint (by decide) h
  | lockWrite => exact lockFile_moves hpoint (by decide) h
  | write env => exact writeFile_moves hpoint h
  | lseek =>
    exact ite_onDevice_moves (c := .llseek 0 SEEK_SET false) hpoint (by decide)
      (show _ ∧ _ by decide) (by simp) h
  | read env plain => exact readFile_moves (p := .read) hpoint (by decide) h
  | unlockWrite => exact unlockFile_moves hpoint (by decide) h
  | lockList => exact lockList_moves hpoint h
  | unlockList => exact unlockList_moves hpoint h
  | _ => exact local_moves hpoint h

/-! ### The main thread -/

/-- A step of the main thread: it starts a worker or leaves the workers alone. -/
structure Server.MainMoves (s s' : Server) : Prop where
  device : s'.device = s.device
  nodePresent : s'.nodePresent = s.nodePresent
  running : s'.running = s.running
  fileMutex : s'.fileMutex = s.fileMutex
  workers : s'.workers = s.workers ∨
    s.main = .spawn ∧ ∃ c, s.clientSocket = some c ∧ s'.workers = s.workers ++ [.start c]
  list : s'.main ≠ .exited → Handover .main s.listMutex s'.listMutex (s.main.holdsList = true)
    (s'.main.holdsList = true)
  before : s.main ≠ .exited

theorem mainStep_moves {a : MainAction} (hpoint : s.main = a.point) (h : s.mainStep a = some s') :
    s.MainMoves s' := by
  have hquiet : ∀ {p q : MainPoint}, s.main = p → s'.main = q → q.holdsList = p.holdsList →
      s'.listMutex = s.listMutex →
      Handover .main s.listMutex s'.listMutex (s.main.holdsList = true) (s'.main.holdsList = true) := by
    rintro p q rfl rfl hsame hlist
    rw [hlist]
    exact .keep (by rw [hsame])
  have hbefore : s.main ≠ .exited := by
    rw [hpoint]
    cases a <;> simp [MainAction.point]
  cases a with
  | checkRunning =>
    obtain rfl := Option.some.inj h
    refine ⟨rfl, rfl, rfl, rfl, Or.inl rfl, fun _ => hquiet hpoint rfl ?_ rfl, hbefore⟩
    split <;> rfl
  | accept accepted =>
    cases accepted with
    | true =>
      obtain rfl := Option.some.inj h
      exact ⟨rfl, rfl, rfl, rfl, Or.inl rfl, fun _ => hquiet hpoint rfl rfl rfl, hbefore⟩
    | false =>
      obtain rfl := Option.some.inj h
      exact ⟨rfl, rfl, rfl, rfl, Or.inl rfl, fun _ => hquiet hpoint rfl rfl rfl, hbefore⟩
  | createNode granted =>
    obtain rfl := Option.some.inj h
    cases granted with
    | true => exact ⟨rfl, rfl, rfl, rfl, Or.inl rfl, fun _ => hquiet hpoint rfl rfl rfl, hbefore⟩
    | false => exact ⟨rfl, rfl, rfl, rfl, Or.inl rfl, fun hne => absurd rfl hne, hbefore⟩
  | spawn created =>
    cases created with
    | true =>
      obtain ⟨c, hc, rfl⟩ := Option.map_eq_some_iff.1 h
      exact ⟨rfl, rfl, rfl, rfl, Or.inr ⟨hpoint, c, hc, rfl⟩, fun _ => hquiet hpoint rfl rfl rfl,
        hbefore⟩
    | false =>
      obtain rfl := Option.some.inj h
      exact ⟨rfl, rfl, rfl, rfl, Or.inl rfl, fun hne => absurd rfl hne, hbefore⟩
  | lockCreate | lockAppend | lockSweep =>
    obtain ⟨hfree, rfl⟩ := Option.ite_some_none_eq_some.1 h
    exact ⟨rfl, rfl, rfl, rfl, Or.inl rfl, fun _ => .take rfl hfree, hbefore⟩
  | unlockCreate | unlockAppend | unlockSweep =>
    obtain ⟨hheld, rfl⟩ := Option.ite_some_none_eq_some.1 h
    exact ⟨rfl, rfl, rfl, rfl, Or.inl rfl,
      fun _ => .give (by simp [MainPoint.holdsList]) hheld, hbefore⟩

/-! ### The list of workers -/

theorem getElem?_set_cases {workers : List Worker} (hw : workers[i]? = some w) {j : ℕ} {u : Worker}
    (hu : (workers.set i w')[j]? = some u) : i = j ∧ u = w' ∨ i ≠ j ∧ workers[j]? = some u := by
  by_cases hij : i = j
  · subst hij
    rw [List.getElem?_set_self (List.getElem?_eq_some_iff.1 hw).1] at hu
    exact Or.inl ⟨rfl, (Option.some.inj hu).symm⟩
  · rw [List.getElem?_set_ne hij] at hu
    exact Or.inr ⟨hij, hu⟩

theorem getElem?_concat_cases {workers : List Worker} {c j : ℕ} {u : Worker}
    (hu : (workers ++ [Worker.start c])[j]? = some u) :
    workers[j]? = some u ∨ j = workers.length ∧ u = .start c := by
  rw [List.getElem?_append] at hu
  split at hu
  · exact Or.inl hu
  · rename_i hge
    rw [List.getElem?_singleton] at hu
    obtain ⟨hlast, rfl⟩ := Option.ite_some_none_eq_some.1 hu
    exact Or.inr ⟨by omega, rfl⟩

theorem Server.MainMoves.worker_cases (h : s.MainMoves s') {j : ℕ} {u : Worker}
    (hu : s'.workers[j]? = some u) :
    s.workers[j]? = some u ∨ j = s.workers.length ∧ ∃ c, u = .start c := by
  rcases h.workers with heq | ⟨-, c, -, heq⟩
  · exact Or.inl (heq ▸ hu)
  · rw [heq] at hu
    exact (getElem?_concat_cases hu).imp_right fun ⟨hj, hu⟩ => ⟨hj, c, hu⟩

theorem Server.MainMoves.length_le (h : s.MainMoves s') : s.workers.length ≤ s'.workers.length := by
  rcases h.workers with heq | ⟨-, c, -, heq⟩
  · rw [heq]
  · simp [heq]

/-! ### Mutual exclusion -/

/-- Who is between a lock and an unlock of `file_mutex`. -/
def Server.HoldsFile (s : Server) : Thread → Prop
  | .main => False
  | .worker i => ∃ w, s.workers[i]? = some w ∧ w.point.holdsFile = true

/-- Who is between a lock and an unlock of `listMutex`. -/
def Server.HoldsList (s : Server) : Thread → Prop
  | .main => s.main.holdsList = true
  | .worker i => ∃ w, s.workers[i]? = some w ∧ w.point.holdsList = true

/-- Each mutex is held by the thread between its lock and its unlock, as long as the process runs. -/
structure Server.Exclusive (s : Server) : Prop where
  file : Tracks s.fileMutex s.HoldsFile
  list : s.main ≠ .exited → Tracks s.listMutex s.HoldsList

theorem exclusive_init : Server.init.Exclusive where
  file := by
    intro t
    cases t with
    | main => simp [Server.init, Server.HoldsFile]
    | worker i => simp [Server.init, Server.HoldsFile]
  list := by
    intro _ t
    cases t with
    | main => simp [Server.init, Server.HoldsList, MainPoint.holdsList]
    | worker i => simp [Server.init, Server.HoldsList]

theorem exists_set_iff {workers : List Worker} (hw : workers[i]? = some w) (P : Worker → Prop) (j : ℕ) :
    (∃ u, (workers.set i w')[j]? = some u ∧ P u) ↔
      if j = i then P w' else ∃ u, workers[j]? = some u ∧ P u := by
  have hlt : i < workers.length := (List.getElem?_eq_some_iff.1 hw).1
  rw [List.getElem?_set, if_pos hlt]
  split_ifs with hij hji
  · simp
  · exact absurd hij.symm hji
  · rename_i hji
    exact absurd hji.symm hij
  · rfl

theorem exists_append_iff {workers : List Worker} {c : ℕ} (P : Worker → Prop)
    (hP : ¬ P (.start c)) (j : ℕ) :
    (∃ u, (workers ++ [Worker.start c])[j]? = some u ∧ P u) ↔ ∃ u, workers[j]? = some u ∧ P u := by
  rw [List.getElem?_append]
  split_ifs with hlt
  · rfl
  · rw [List.getElem?_eq_none (not_lt.1 hlt), List.getElem?_singleton]
    split_ifs
    · simp [hP]
    · simp

theorem Server.MainMoves.exclusive (h : s.MainMoves s') (hs : s.Exclusive) : s'.Exclusive := by
  have hworkers : ∀ P : Worker → Prop, (∀ c, ¬ P (.start c)) → ∀ j : ℕ,
      ((∃ u, s'.workers[j]? = some u ∧ P u) ↔ ∃ u, s.workers[j]? = some u ∧ P u) := by
    intro P hP j
    rcases h.workers with heq | ⟨-, c, -, heq⟩
    · rw [heq]
    · rw [heq]
      exact exists_append_iff P (hP c) j
  constructor
  · rw [h.fileMutex]
    intro t
    rw [hs.file t]
    cases t with
    | main => rfl
    | worker j => exact (hworkers _ (fun _ => by simp [Worker.start, Point.holdsFile]) j).symm
  · intro hmain
    refine (hs.list h.before).step (h.list hmain) fun t ht => ?_
    cases t with
    | main => exact absurd rfl ht
    | worker j => exact hworkers _ (fun _ => by simp [Worker.start, Point.holdsList]) j

theorem Server.Moves.exclusive (h : s.Moves k s' i w w' a) (hw : s.workers[i]? = some w)
    (hs : s.Exclusive) : s'.Exclusive := by
  have hself : ∀ P : Worker → Prop, (∃ u, s.workers[i]? = some u ∧ P u) ↔ P w := by
    intro P
    simp [hw]
  constructor
  · refine hs.file.step (t := .worker i) ?_ fun t ht => ?_
    · have := h.file
      simpa [Server.HoldsFile, h.workers, exists_set_iff hw, hself] using this
    · cases t with
      | main => rfl
      | worker j =>
        have hji : j ≠ i := fun hji => ht (hji ▸ rfl)
        simp [Server.HoldsFile, h.workers, exists_set_iff hw, hji]
  · intro hmain
    rw [h.main] at hmain
    refine (hs.list hmain).step (t := .worker i) ?_ fun t ht => ?_
    · have := h.list
      simpa [Server.HoldsList, h.workers, exists_set_iff hw, hself] using this
    · cases t with
      | main => simp [Server.HoldsList, h.main]
      | worker j =>
        have hji : j ≠ i := fun hji => ht (hji ▸ rfl)
        simp [Server.HoldsList, h.workers, exists_set_iff hw, hji]

theorem step_exclusive (hs : s.Exclusive) (h : s.step k l = some (s', o)) : s'.Exclusive := by
  rcases Server.step_cases h with ⟨a, -, hpoint, hstep, -⟩ | ⟨i, a, w, -, -, hw, hpoint, hstep, -⟩ |
    ⟨-, rfl, -⟩ | ⟨-, rfl, -⟩
  · exact (mainStep_moves hpoint hstep).exclusive hs
  · obtain ⟨w', hmoves⟩ := workerStep_moves hpoint hstep
    exact hmoves.exclusive hw hs
  · exact ⟨hs.file, hs.list⟩
  · exact ⟨hs.file, hs.list⟩

/-- **Mutual exclusion**: after every run, each mutex is held by exactly the thread that is between
its lock and its unlock. -/
theorem run_exclusive {guard : Server → Label → Prop} {acts : List Label} {outs : List Event}
    (hrun : (serverMachine k).Run guard .init acts outs s) : s.Exclusive :=
  hrun.invariant (I := fun _ _ s => s.Exclusive) exclusive_init
    fun _ _ _ _ _ _ hs _ hstep => step_exclusive hs hstep

end AesdChar
