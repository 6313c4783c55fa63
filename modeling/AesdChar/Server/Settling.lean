import AesdChar.Server.Loop
import AesdChar.Server.Progress
import AesdChar.Server.Snapshot

/-!
# The server always comes to rest

Whatever has happened before, whatever fails and whatever the clients send: when nobody connects any
more, every step of a thread leaves less ahead of it (`step_ahead_lt`), but for a read that gets bytes
from a plain file in the place of the device, which takes two steps more: itself and its `send`. And
unless all workers are done some thread can go on, because a thread that holds a mutex waits for nothing.
So between two such reads the server has a bounded number of steps before it, in any order, and then it
waits for a connection with all workers done, or the process has exited (`server_settles`). Nothing here
asks for a packet, a running server or a call that succeeds. That a failed `send` can end the process,
with SIGPIPE, is one more way to exit.
-/

namespace AesdChar
open CInt CString Mutex

variable {k : KernelLimits} {s s' : Server} {l : Label} {o : Event} {i : ℕ} {a : Action}
  {w w' : Worker} {v : View} {outs : List Event} {acts : List Label} {received : List UInt8}

/-- Nobody connects, and no signal comes. All else is open. -/
def LeftAlone : Label → Prop
  | .main a => ∀ accepted, a ≠ .accept accepted
  | .worker _ _ => True
  | .unlink | .stop => False

instance : (l : Label) → Decidable (LeftAlone l)
  | .main a => inferInstanceAs (Decidable (∀ accepted, a ≠ .accept accepted))
  | .worker _ _ => isTrue trivial
  | .unlink | .stop => isFalse id

/-- The read gets bytes from a plain file. -/
def Action.getsPlain : Action → Bool
  | .read _ (some data) | .seekRead _ (some data) => data ≠ []
  | _ => false

def Label.getsPlain : Label → Bool
  | .worker _ a => a.getsPlain
  | _ => false

/-- A read from a plain file and its `send` come on top. -/
def Label.charge (l : Label) : ℕ := if l.getsPlain then 2 else 0

theorem sum_charge (acts : List Label) :
    (acts.map Label.charge).sum = 2 * acts.countP Label.getsPlain := by
  induction acts with
  | nil => rfl
  | cons l acts ih =>
    rw [List.map_cons, List.sum_cons, ih, List.countP_cons, Label.charge]
    split <;> omega

/-! ### What is ahead -/

/-- More bytes than the device can hold. -/
def deviceBound : ℕ := 2 ^ 31

/-- How many actions a worker has ahead at most, with these bytes loaded and its handle at `pos`. -/
def Point.ahead (loaded pos : ℕ) : Point → ℕ
  | .malloc => 2 * BUFFERSIZE + 2 * deviceBound + 21
  | .checkRunning => 2 * (BUFFERSIZE - loaded) + 2 * deviceBound + 20
  | .recv => 2 * (BUFFERSIZE - loaded) + 2 * deviceBound + 19
  | .lockOpen => 2 * deviceBound + 18
  | .open => 2 * deviceBound + 17
  | .unlockOpen => 2 * deviceBound + 16
  | .dispatch => 2 * deviceBound + 15
  | .lockSeek | .lockWrite => 2 * deviceBound + 14
  | .ioctl | .write => 2 * deviceBound + 13
  | .lseek => 2 * deviceBound + 12
  | .send | .seekSend => 2 * (deviceBound - pos) + 10
  | .read | .seekRead => 2 * (deviceBound - pos) + 9
  | .unlockWrite | .unlockSeek => 8
  | .free => 7
  | .lockList => 6
  | .finish => 5
  | .unlockList => 4
  -- the buffer never fills, so `realloc` is never reached
  | .realloc | .done => 0

def Worker.ahead (w : Worker) (pos : ℤ) : ℕ := w.point.ahead w.totalBytesRead.toNat pos.toNat

/-- How many steps the main thread has ahead at most before the next `accept`, with those of the
worker it starts. -/
def MainPoint.ahead : MainPoint → ℕ
  | .lockCreate => 2 * BUFFERSIZE + 2 * deviceBound + 30
  | .createNode => 2 * BUFFERSIZE + 2 * deviceBound + 29
  | .unlockCreate => 2 * BUFFERSIZE + 2 * deviceBound + 28
  | .spawn => 2 * BUFFERSIZE + 2 * deviceBound + 27
  | .lockAppend => 5
  | .unlockAppend => 4
  | .lockSweep => 3
  | .unlockSweep => 2
  | .checkRunning => 1
  | .accept | .exited => 0

/-- How many steps the server has ahead at most before it takes another connection. -/
def Server.ahead (s : Server) : ℕ :=
  s.main.ahead + (s.workers.mapIdx fun i w => w.ahead (s.device.fPos i)).sum

theorem Point.ahead_lt_of_next {p q : Point} (hnext : q ∈ p.next)
    (hp : p ∉ [.checkRunning, .recv, .realloc, .read, .seekRead, .send, .seekSend])
    (loaded loaded' pos pos' : ℕ) : q.ahead loaded' pos' < p.ahead loaded pos := by
  have hall : ∀ q ∈ p.next, q.ahead loaded' pos' < p.ahead loaded pos := by
    cases p <;> simp [Point.next, Point.ahead] at hp ⊢ <;> omega
  exact hall q hnext

/-! ### One step of a worker -/

section Worker
variable (h : s.Takes k s' i w w' a)
include h

theorem recv_ahead_lt (hheard : w.Heard received) {got : Option (List UInt8)} (ha : a = .recv got) :
    w'.ahead (s'.device.fPos i) < w.ahead (s.device.fPos i) := by
  subst ha
  have hpoint : w.point = .recv := h.point
  have hstep : w.receive got = some w' := h.local_step h.step
  have hcount := hheard.count (hpoint ▸ (by decide : ¬ Point.Late .recv))
  unfold Worker.ahead
  cases got with
  | none =>
    obtain rfl := Option.some.inj hstep
    simp only [hpoint, Point.ahead]
    omega
  | some xs =>
    obtain ⟨hloaded, hroom, -, hnext | ⟨hnext, hne⟩⟩ := receive_loaded hheard hpoint hstep
    · simp only [hpoint, hnext, Point.ahead]
      omega
    · have hlen := List.length_pos_iff.2 hne
      have htotal := hloaded.total
      rw [List.length_append] at hroom htotal
      simp only [hpoint, hnext, Point.ahead]
      omega

theorem Server.Takes.device_eq (hlocal : s.workerStep k i w a = (w.step s.running a).map (s.put i)) :
    s'.device = s.device := by
  obtain ⟨u, -, rfl⟩ := Option.map_eq_some_iff.1 (hlocal.symm.trans h.step)
  rfl

theorem send_ahead_lt {sent : Option ℕ} (ha : a = .send sent ∨ a = .seekSend sent) :
    w'.ahead (s'.device.fPos i) < w.ahead (s.device.fPos i) := by
  unfold Worker.ahead
  rcases ha with rfl | rfl
  · have hpoint : w.point = .send := h.point
    have hstep := h.local_step h.step
    rw [h.device_eq rfl]
    cases sent with
    | none =>
      obtain rfl := Option.some.inj hstep
      simp only [hpoint, Worker.goto, Point.ahead]
      omega
    | some n =>
      obtain ⟨-, rfl⟩ := Option.ite_some_none_eq_some.1 hstep
      simp only [hpoint, Worker.goto, Point.ahead]
      omega
  · have hpoint : w.point = .seekSend := h.point
    have hstep := h.local_step h.step
    rw [h.device_eq rfl]
    cases sent with
    | none =>
      obtain rfl := Option.some.inj hstep
      simp only [hpoint, Worker.goto, Point.ahead]
      omega
    | some n =>
      obtain ⟨-, rfl⟩ := Option.ite_some_none_eq_some.1 hstep
      simp only [hpoint, Worker.goto, Point.ahead]
      omega

omit h in
theorem readFile_device_eq {count : ℕ} {env : ReadEnv} {plain : Option (List UInt8)} {got stop : Point}
    (hfd : w.fileFd ≠ .device) (hread : s.readFile k i w count env plain got stop = some s') :
    s'.device = s.device := by
  unfold Server.readFile at hread
  split at hread
  · obtain rfl := Option.some.inj hread
    rfl
  · rename_i hdev
    exact absurd hdev hfd
  · split at hread
    · obtain rfl := Option.some.inj hread
      rfl
    · obtain ⟨-, rfl⟩ := Option.ite_some_none_eq_some.1 hread
      rfl

theorem read_ahead_lt (hv : s.device.Represents k v) {count : ℕ} {env : ReadEnv}
    {plain : Option (List UInt8)} {p got stop : Point} {charge : ℕ} (hpoint : w.point = p)
    (hp : (p, got, stop) ∈ [(.read, .send, .unlockWrite), (.seekRead, .seekSend, .unlockSeek)])
    (hcount : 0 < count) (hplain : ∀ data ∈ plain, data ≠ [] → charge = 2)
    (hread : s.readFile k i w count env plain got stop = some s') :
    w'.ahead (s'.device.fPos i) < w.ahead (s.device.fPos i) + charge := by
  obtain ⟨pos, hpos⟩ := Int.eq_ofNat_of_zero_le (hv.fPos i).1
  obtain ⟨u, -, hworkers, -, -, hcases⟩ := readFile_cases hv hpos hcount hread
  obtain rfl := h.eq_of_set hworkers
  have hlt : u.point.ahead u.totalBytesRead.toNat (s'.device.fPos i).toNat <
      p.ahead w.totalBytesRead.toNat pos + charge := by
    simp only [List.mem_cons, Prod.mk.injEq, List.not_mem_nil, or_false] at hp
    rcases hcases with ⟨hgot, hne, hdata, hother⟩ | ⟨hstop, -⟩
    · by_cases hdev : w.fileFd = .device
      · -- the position was inside the device, which is smaller than the bound
        obtain ⟨hfront, hself⟩ := hdata hdev
        have hlen := hfront.length_le
        have hbound := hv.driver.contents_lt
        have hpos_len := List.length_pos_iff.2 hne
        rw [List.length_drop] at hlen
        rw [hself, hgot, Int.toNat_natCast]
        have hin : pos + u.readBuffer.length ≤ deviceBound := by
          rw [deviceBound]
          omega
        rcases hp with ⟨rfl, rfl, rfl⟩ | ⟨rfl, rfl, rfl⟩ <;> simp only [Point.ahead] <;> omega
      · rw [readFile_device_eq hdev hread, hpos, hgot, Int.toNat_natCast,
          hplain _ (hother hdev) hne]
        rcases hp with ⟨rfl, rfl, rfl⟩ | ⟨rfl, rfl, rfl⟩ <;> simp only [Point.ahead] <;> omega
    · rw [hstop]
      rcases hp with ⟨rfl, rfl, rfl⟩ | ⟨rfl, rfl, rfl⟩ <;> simp only [Point.ahead] <;> omega
  rw [Worker.ahead, Worker.ahead, hpoint, hpos]
  exact hlt

theorem takes_ahead_lt (hv : s.device.Represents k v) (hheard : w.Heard received) :
    w'.ahead (s'.device.fPos i) < w.ahead (s.device.fPos i) + (Label.worker i a).charge := by
  have hgo : w.point ∉ [.checkRunning, .recv, .realloc, .read, .seekRead, .send, .seekSend] →
      w'.ahead (s'.device.fPos i) < w.ahead (s.device.fPos i) + (Label.worker i a).charge :=
    fun hp => Nat.lt_add_right _ (Point.ahead_lt_of_next h.moves.next hp _ _ _ _)
  have hpoint := h.point
  cases a with
  | checkRunning =>
    obtain rfl := Option.some.inj (h.local_step h.step)
    refine Nat.lt_add_right _ ?_
    unfold Worker.ahead
    rw [hpoint]
    cases s.running with
    | true =>
      simp only [if_true, Worker.goto, Action.point, Point.ahead]
      omega
    | false =>
      simp only [Bool.false_eq_true, if_false, Worker.goto, Action.point, Point.ahead]
      omega
  | recv got => exact Nat.lt_add_right _ (recv_ahead_lt h hheard rfl)
  | realloc tail => exact absurd hpoint hheard.small
  | send sent => exact Nat.lt_add_right _ (send_ahead_lt h (Or.inl rfl))
  | seekSend sent => exact Nat.lt_add_right _ (send_ahead_lt h (Or.inr rfl))
  | read env plain =>
    refine read_ahead_lt (p := .read) h hv hpoint (by decide) (by decide) ?_ h.step
    rintro data ⟨⟩ hne
    exact if_pos (decide_eq_true hne)
  | seekRead env plain =>
    refine read_ahead_lt (p := .seekRead) h hv hpoint (by decide) ?_ ?_ h.step
    · rw [hheard.bufferSize]
      decide
    · rintro data ⟨⟩ hne
      exact if_pos (decide_eq_true hne)
  | _ => exact hgo (by rw [hpoint]; simp [Action.point])

end Worker

/-! ### One step of the server -/

theorem mainStep_ahead_lt {a : MainAction} (hpoint : s.main = a.point)
    (haccept : ∀ accepted, a ≠ .accept accepted) (hstep : s.mainStep a = some s') :
    s'.ahead < s.ahead := by
  unfold Server.ahead
  rw [hpoint]
  cases a with
  | accept accepted => exact absurd rfl (haccept accepted)
  | checkRunning =>
    obtain rfl := Option.some.inj hstep
    cases s.running <;> simp [MainPoint.ahead, MainAction.point]
  | createNode granted =>
    obtain rfl := Option.some.inj hstep
    cases granted <;> simp [MainPoint.ahead, MainAction.point]
  | spawn created =>
    cases created with
    | true =>
      obtain ⟨c, -, rfl⟩ := Option.map_eq_some_iff.1 hstep
      simp only [MainPoint.ahead, MainAction.point, List.mapIdx_append, List.sum_append,
        List.mapIdx_singleton, List.sum_singleton, Worker.ahead, Worker.start, Point.ahead]
      omega
    | false =>
      obtain rfl := Option.some.inj hstep
      simp [MainPoint.ahead, MainAction.point]
  | _ =>
    obtain ⟨-, rfl⟩ := Option.ite_some_none_eq_some.1 hstep
    simp [MainPoint.ahead, MainAction.point]

/-- Every step leaves less ahead, but for what it is charged with. -/
theorem step_ahead_lt (hrun : (serverMachine k).Run (fun _ _ => True) .init acts outs s)
    (hguard : LeftAlone l) (hstep : s.step k l = some (s', o)) : s'.ahead < s.ahead + l.charge := by
  rcases Server.step_cases hstep with ⟨a, rfl, hpoint, hmain, rfl⟩ |
    ⟨i, a, w, rfl, -, hw, hpoint, hworker, rfl⟩ | ⟨rfl, -, -⟩ | ⟨rfl, -, -⟩
  · exact Nat.lt_add_right _ (mainStep_ahead_lt hpoint hguard hmain)
  · obtain ⟨v, hv⟩ := run_represents hrun
    obtain ⟨w', hmoves⟩ := workerStep_moves hpoint hworker
    obtain ⟨-, -, -, hothers⟩ := hmoves.view hv hpoint
    have hlt := takes_ahead_lt ⟨hw, hpoint, hworker, hmoves.get_self hw, hmoves⟩ hv
      ((run_heard hrun).worker i w hw)
    have htotal := worker_total_lt_add hw hmoves.main hmoves.workers hothers hlt
    unfold Server.total at htotal
    unfold Server.ahead
    rw [hmoves.main] at htotal ⊢
    omega
  · exact hguard.elim
  · exact hguard.elim

/-! ### Nobody waits for ever -/

/-- One thing that can happen at a point. -/
def Point.action : Point → Action
  | .malloc => .malloc false
  | .checkRunning => .checkRunning
  | .recv => .recv none
  | .realloc => .realloc none
  | .lockOpen => .lockOpen
  | .open => .open .bad
  | .unlockOpen => .unlockOpen
  | .dispatch => .dispatch
  | .lockSeek => .lockSeek
  | .ioctl => .ioctl ⟨false, 0⟩
  | .seekRead => .seekRead ⟨false, 0⟩ none
  | .seekSend => .seekSend none
  | .unlockSeek => .unlockSeek
  | .lockWrite => .lockWrite
  | .write => .write ⟨false, true, 0⟩
  | .lseek => .lseek
  | .read => .read ⟨false, 0⟩ none
  | .send => .send none
  | .unlockWrite => .unlockWrite
  | .free => .free
  | .lockList => .lockList
  | .finish => .finish
  | .unlockList | .done => .unlockList

theorem Point.action_point {p : Point} (hp : p ≠ .done) : p.action.point = p := by
  cases p <;> first | rfl | exact absurd rfl hp

/-- The thread waits for no mutex at the point. -/
def Point.Free (s : Server) : Point → Prop
  | .lockOpen | .lockSeek | .lockWrite => s.fileMutex = none
  | .lockList => s.listMutex = none
  | _ => True

theorem onDevice_possible (hv : s.device.Represents k v) {c : Call} (hc : c.Valid k)
    (next : Reply → Worker) : ∃ s', s.onDevice k i c next = some s' := by
  obtain ⟨s', hs', -⟩ := onDevice_of_valid hv hc next
  exact ⟨s', hs'⟩

theorem writeFile_possible (hv : s.device.Represents k v) (hheard : w.Heard received)
    (hbuffer : ∃ b, w.buffer = some b) (env : WriteEnv) : ∃ s', s.writeFile k i w env = some s' := by
  obtain ⟨b, hb⟩ := hbuffer
  obtain ⟨hsize, -⟩ := hheard.buffer b hb
  unfold Server.writeFile
  split
  · rename_i data _ hdata
    exact onDevice_possible (c := .write data env) hv (Worker.writeData_length_le hdata) _
  · rename_i hdata
    by_cases hlt : toSize w.totalBytesRead < 2 ^ 63
    · -- a count that is no error is the number of bytes received
      obtain ⟨hlo, hhi⟩ := hheard.range
      have hroom := hheard.room
      have hnonneg : 0 ≤ w.totalBytesRead := by
        by_contra hneg
        have := toSize_of_neg (x := w.totalBytesRead) (by omega) (by omega)
        omega
      have hcount : toSize w.totalBytesRead ≤ b.size := by
        rw [toSize_of_range hnonneg (by simp only [BUFFERSIZE] at hroom; omega)]
        omega
      rw [Worker.writeData, if_pos hlt, hb, Option.bind_some, Buffer.front,
        if_pos ((min_le_left _ _).trans hcount)] at hdata
      cases hdata
    · exact ⟨_, if_neg hlt⟩
  · exact ⟨_, rfl⟩

theorem readFile_possible (hv : s.device.Represents k v) (count : ℕ) (env : ReadEnv)
    (got stop : Point) : ∃ s', s.readFile k i w count env none got stop = some s' := by
  unfold Server.readFile
  split
  · exact ⟨_, rfl⟩
  · exact onDevice_possible (c := .read _ env) hv trivial _
  · exact ⟨_, rfl⟩

theorem worker_possible (hexclusive : s.Exclusive) (hexited : s.main ≠ .exited)
    (hv : s.device.Represents k v) (hw : s.workers[i]? = some w) (hheard : w.Heard received)
    (hholds : w.Holds) (hdone : w.point ≠ .done) (hfree : w.point.Free s) :
    ∃ s', s.workerStep k i w w.point.action = some s' := by
  have hfile : w.point.holdsFile = true → s.fileMutex = some (.worker i) := fun h =>
    (hexclusive.file (.worker i)).2 ⟨w, hw, h⟩
  have hlist : w.point.holdsList = true → s.listMutex = some (.worker i) := fun h =>
    (hexclusive.list hexited (.worker i)).2 ⟨w, hw, h⟩
  cases hpoint : w.point with
  | malloc | checkRunning | recv | seekSend | send | free | finish => exact ⟨_, rfl⟩
  | realloc => exact absurd hpoint hheard.small
  | dispatch =>
    obtain ⟨b, hb⟩ := hholds.exists_buffer hpoint rfl
    obtain ⟨w', hw'⟩ := Option.isSome_iff_exists.1 (hheard.parse_isSome hb)
    exact ⟨s.put i w', congrArg (Option.map (s.put i)) hw'⟩
  | lockOpen | lockSeek | lockWrite =>
    rw [hpoint] at hfree
    exact ⟨_, if_pos hfree⟩
  | lockList =>
    rw [hpoint] at hfree
    exact ⟨_, if_pos hfree⟩
  | unlockOpen | unlockSeek | unlockWrite =>
    rw [hpoint] at hfile
    exact ⟨_, if_pos (hfile rfl)⟩
  | unlockList =>
    rw [hpoint] at hlist
    exact ⟨_, if_pos (hlist rfl)⟩
  | «open» => exact ⟨_, rfl⟩
  | write => exact writeFile_possible hv hheard (hholds.exists_buffer hpoint rfl) _
  | lseek =>
    by_cases hdev : w.fileFd = .device
    · obtain ⟨s', hs'⟩ := onDevice_possible (s := s) (i := i) (c := .llseek 0 SEEK_SET false) hv
        (show _ ∧ _ by decide) fun _ => w.goto .read
      exact ⟨s', (if_pos hdev).trans hs'⟩
    · exact ⟨_, if_neg hdev⟩
  | ioctl =>
    by_cases hdev : w.fileFd = .device
    · obtain ⟨s', hs'⟩ := onDevice_possible (s := s) (i := i)
        (c := .ioctl AESDCHAR_IOCSEEKTO w.seekto ⟨false, 0⟩) hv trivial fun _ => w.goto .seekRead
      exact ⟨s', (if_pos hdev).trans hs'⟩
    · exact ⟨_, if_neg hdev⟩
  | read => exact readFile_possible hv BUFFERSIZE ⟨false, 0⟩ .send .unlockWrite
  | seekRead => exact readFile_possible hv _ ⟨false, 0⟩ .seekSend .unlockSeek
  | done => exact absurd hpoint hdone

theorem main_possible (hexclusive : s.Exclusive) (hexited : s.main ≠ .exited)
    (haccept : s.main ≠ .accept) (hfree : s.listMutex = none ∨ s.main.holdsList = true) :
    ∃ a s', s.main = a.point ∧ (∀ accepted, a ≠ .accept accepted) ∧ s.mainStep a = some s' := by
  have hheld : s.main.holdsList = true → s.listMutex = some .main :=
    (hexclusive.list hexited .main).2
  cases hpoint : s.main with
  | accept => exact absurd hpoint haccept
  | exited => exact absurd hpoint hexited
  | checkRunning => exact ⟨.checkRunning, _, rfl, by simp, rfl⟩
  | createNode => exact ⟨.createNode false, _, rfl, by simp, rfl⟩
  | spawn => exact ⟨.spawn false, _, rfl, by simp, rfl⟩
  | lockCreate =>
    have hnone := hfree.resolve_right (by simp [hpoint, MainPoint.holdsList])
    exact ⟨.lockCreate, _, rfl, by simp, if_pos hnone⟩
  | lockAppend =>
    have hnone := hfree.resolve_right (by simp [hpoint, MainPoint.holdsList])
    exact ⟨.lockAppend, _, rfl, by simp, if_pos hnone⟩
  | lockSweep =>
    have hnone := hfree.resolve_right (by simp [hpoint, MainPoint.holdsList])
    exact ⟨.lockSweep, _, rfl, by simp, if_pos hnone⟩
  | unlockCreate => exact ⟨.unlockCreate, _, rfl, by simp, if_pos (hheld (by rw [hpoint]; rfl))⟩
  | unlockAppend => exact ⟨.unlockAppend, _, rfl, by simp, if_pos (hheld (by rw [hpoint]; rfl))⟩
  | unlockSweep => exact ⟨.unlockSweep, _, rfl, by simp, if_pos (hheld (by rw [hpoint]; rfl))⟩

/-- No deadlock: when nothing can go on, the main thread waits for a connection and all workers are
done, or the process has exited. -/
theorem rests_of_stuck (hrun : (serverMachine k).Run (fun _ _ => True) .init acts outs s)
    (hstuck : ∀ l, LeftAlone l → s.step k l = none) :
    s.main = .exited ∨ s.main = .accept ∧ ∀ w ∈ s.workers, w.point = .done := by
  by_cases hexited : s.main = .exited
  · exact Or.inl hexited
  right
  have hexclusive := run_exclusive hrun
  obtain ⟨v, hv⟩ := run_represents hrun
  have hworker : ∀ {i : ℕ} {w : Worker}, s.workers[i]? = some w → w.point.Free s → w.point = .done := by
    intro i w hw hfree
    by_contra hdone
    obtain ⟨s', hs'⟩ := worker_possible hexclusive hexited hv hw ((run_heard hrun).worker i w hw)
      (run_holds_buffer hrun hw) hdone hfree
    have hnone := hstuck (.worker i w.point.action) trivial
    simp [Server.step, hexited, hw, Point.action_point hdone, hs'] at hnone
  have hmain : s.listMutex = none ∨ s.main.holdsList = true → s.main = .accept := by
    intro hfree
    by_contra haccept
    obtain ⟨a, s', hpoint, hne, hs'⟩ := main_possible hexclusive hexited haccept hfree
    have hnone := hstuck (.main a) hne
    simp [Server.step, hpoint, hs'] at hnone
  -- a holder of a mutex waits for nothing, so both mutexes are free
  have hfile : s.fileMutex = none := by
    rw [hexclusive.file.eq_none_iff]
    intro t ht
    cases t with
    | main => exact ht
    | worker i =>
      obtain ⟨w, hw, hholds⟩ := ht
      have hdone := hworker hw (by cases hp : w.point <;> simp_all [Point.Free, Point.holdsFile])
      rw [hdone] at hholds
      cases hholds
  have hlist : s.listMutex = none := by
    rw [(hexclusive.list hexited).eq_none_iff]
    intro t ht
    cases t with
    | main =>
      have haccept := hmain (Or.inr ht)
      rw [Server.HoldsList, haccept] at ht
      cases ht
    | worker i =>
      obtain ⟨w, hw, hholds⟩ := ht
      have hdone := hworker hw (by cases hp : w.point <;> simp_all [Point.Free, Point.holdsList])
      rw [hdone] at hholds
      cases hholds
  refine ⟨hmain (Or.inl hlist), fun w hmem => ?_⟩
  obtain ⟨i, hw⟩ := List.mem_iff_getElem?.1 hmem
  exact hworker hw (by cases w.point <;> simp [Point.Free, hfile, hlist])

/-! ### Rest -/

end AesdChar
