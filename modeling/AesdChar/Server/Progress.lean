import AesdChar.Server.Replies

/-!
# Every client gets its reply

While nobody connects, every undisturbed step leaves less to do (`step_rank_lt`). Unless all workers
are done some thread can go on, because the holder of a mutex waits for nothing (`done_of_stuck`). So
the server always comes to rest, and by then every client has its reply (`replies_in_order`).
-/

namespace AesdChar
open CInt CString BlockHeap Lines Mutex

variable {k : KernelLimits} {P : ℕ → List UInt8} {h : History} {s s' : Server} {i : ℕ} {a : Action}
  {w w' : Worker} {l : Label} {o : Event} {acts : List Label} {outs : List Event}

/-- A step other than taking the next connection. -/
def Settling (k : KernelLimits) (P : ℕ → List UInt8) (s : Server) (l : Label) : Prop :=
  Undisturbed k P s l ∧ ∀ accepted, l ≠ .main (.accept accepted)

/-! ### What is left to do -/

/-- How many steps the main thread has left at most before the next `accept`, with those of the
worker it starts. -/
def MainPoint.rank : MainPoint → ℕ
  | .lockCreate => 2 * BUFFERSIZE + 2 * maxReply + 28
  | .createNode => 2 * BUFFERSIZE + 2 * maxReply + 27
  | .unlockCreate => 2 * BUFFERSIZE + 2 * maxReply + 26
  | .spawn => 2 * BUFFERSIZE + 2 * maxReply + 25
  | .lockAppend => 5
  | .unlockAppend => 4
  | .lockSweep => 3
  | .unlockSweep => 2
  | .checkRunning => 1
  | .accept | .exited => 0

def Server.ranks (s : Server) : List ℕ := s.workers.mapIdx fun i w => w.rank (s.device.fPos i)

/-- How many steps the server has left at most before it takes another connection. -/
def Server.rank (s : Server) : ℕ := s.main.rank + s.ranks.sum

/-- What is left to do, with a measure for the worker in place of `Worker.rank`. -/
def Server.total (m : Worker → ℤ → ℕ) (s : Server) : ℕ :=
  s.main.rank + (s.workers.mapIdx fun i w => m w (s.device.fPos i)).sum

theorem mainStep_total_lt {m : Worker → ℤ → ℕ}
    (hstart : ∀ c pos, m (.start c) pos = 2 * BUFFERSIZE + 2 * maxReply + 19) {a : MainAction}
    (hrunning : s.running = true) (hpoint : s.main = a.point)
    (hnormal : a.Normal) (haccept : ∀ accepted, a ≠ .accept accepted)
    (hstep : s.mainStep a = some s') : s'.total m < s.total m := by
  unfold Server.total
  rw [hpoint]
  cases a with
  | accept accepted => exact absurd rfl (haccept accepted)
  | checkRunning =>
    obtain rfl := Option.some.inj hstep
    simp [hrunning, MainPoint.rank, MainAction.point]
  | createNode granted =>
    obtain rfl : granted = true := hnormal
    obtain rfl := Option.some.inj hstep
    simp [MainPoint.rank, MainAction.point]
  | spawn created =>
    obtain rfl : created = true := hnormal
    obtain ⟨c, -, rfl⟩ := Option.map_eq_some_iff.1 hstep
    simp only [MainPoint.rank, MainAction.point, List.mapIdx_append, List.sum_append,
      List.mapIdx_singleton, List.sum_singleton, hstart]
    omega
  | _ =>
    obtain ⟨-, rfl⟩ := Option.ite_some_none_eq_some.1 hstep
    simp [MainPoint.rank, MainAction.point]

theorem worker_total_lt_add {m : Worker → ℤ → ℕ} {e : ℕ} (hw : s.workers[i]? = some w)
    (hmain : s'.main = s.main) (hworkers : s'.workers = s.workers.set i w')
    (hothers : ∀ c, c ≠ i → s'.device.fPos c = s.device.fPos c)
    (hlt : m w' (s'.device.fPos i) < m w (s.device.fPos i) + e) : s'.total m < s.total m + e := by
  have hi : i < s.workers.length := (List.getElem?_eq_some_iff.1 hw).1
  have hset : (s'.workers.mapIdx fun j u => m u (s'.device.fPos j)) =
      (s.workers.mapIdx fun j u => m u (s.device.fPos j)).set i (m w' (s'.device.fPos i)) := by
    refine List.ext_getElem? fun j => ?_
    rw [hworkers, List.getElem?_mapIdx, List.getElem?_set, List.getElem?_set, List.length_mapIdx,
      List.getElem?_mapIdx]
    by_cases hij : i = j
    · subst hij
      simp [hi]
    · simp [hij, hothers j (Ne.symm hij)]
  have hold : (s.workers.mapIdx fun j u => m u (s.device.fPos j))[i]? =
      some (m w (s.device.fPos i)) := by
    rw [List.getElem?_mapIdx, hw]
    rfl
  have hsum := List.sum_set_lt_add hold hlt
  unfold Server.total
  rw [hmain, hset]
  omega

theorem worker_total_lt {m : Worker → ℤ → ℕ} (hw : s.workers[i]? = some w) (hmain : s'.main = s.main)
    (hworkers : s'.workers = s.workers.set i w')
    (hothers : ∀ c, c ≠ i → s'.device.fPos c = s.device.fPos c)
    (hlt : m w' (s'.device.fPos i) < m w (s.device.fPos i)) : s'.total m < s.total m :=
  worker_total_lt_add (e := 0) hw hmain hworkers hothers hlt

theorem workerStep_rank_lt (hs : Serving k P h s) (hexclusive : s.Exclusive) (hsockets : s.Sockets)
    (hP : ∀ c, Packet (P c)) (hw : s.workers[i]? = some w) (hpoint : w.point = a.point)
    (hnormal : w.Normal k s.device.driver (P i) a) (hstep : s.workerStep k i w a = some s') :
    s'.rank < s.rank := by
  obtain ⟨t, ht, -, hothers, w', hworkers, -, hrank⟩ :=
    worker_advances hs hexclusive hsockets hP hw hpoint hnormal (workerStep_available hstep)
  obtain rfl : t = s' := Option.some.inj (ht.symm.trans hstep)
  obtain ⟨w₂, hmoves⟩ := workerStep_moves hpoint hstep
  exact worker_total_lt (m := Worker.rank) hw hmoves.main hworkers hothers hrank

theorem step_rank_lt (hreached : Undisturbed.Reached k P acts outs s) (hP : ∀ c, Packet (P c))
    (hguard : Settling k P s l) (hstep : s.step k l = some (s', o)) : s'.rank < s.rank := by
  obtain ⟨hnormal, haccept⟩ := hguard
  rcases Server.step_cases hstep with ⟨a, rfl, hpoint, hmain, rfl⟩ |
    ⟨i, a, w, rfl, -, hw, hpoint, hworker, rfl⟩ | ⟨rfl, -, -⟩ | ⟨rfl, -, -⟩
  · exact mainStep_total_lt (m := Worker.rank) (fun _ _ => rfl) hreached.serving.running hpoint hnormal
      (fun accepted heq => haccept accepted (heq ▸ rfl)) hmain
  · exact workerStep_rank_lt hreached.serving hreached.exclusive hreached.heard.sockets hP hw hpoint
      (hnormal w hw) hworker
  · exact hnormal.elim
  · exact hnormal.elim

/-! ### Nobody waits for ever -/

/-- The action that a thread is waiting to take, when all goes well. -/
def Worker.nextAction (packet : List UInt8) (w : Worker) : Action :=
  match w.point with
  | .malloc => .malloc true
  | .checkRunning => .checkRunning
  | .recv => .recv (some ((packet.drop w.totalBytesRead.toNat).take 1))
  | .realloc => .realloc (some [])
  | .lockOpen => .lockOpen
  | .open => .open .device
  | .unlockOpen => .unlockOpen
  | .dispatch => .dispatch
  | .lockSeek => .lockSeek
  | .ioctl => .ioctl ⟨false, 0⟩
  | .seekRead => .seekRead ⟨false, 0⟩ none
  | .seekSend => .seekSend (some w.readBuffer.length)
  | .unlockSeek => .unlockSeek
  | .lockWrite => .lockWrite
  | .write => .write ⟨false, true, 0⟩
  | .lseek => .lseek
  | .read => .read ⟨false, 0⟩ none
  | .send => .send (some w.readBuffer.length)
  | .unlockWrite => .unlockWrite
  | .free => .free
  | .lockList => .lockList
  | .finish => .finish
  | .unlockList | .done => .unlockList

theorem nextAction_point (packet : List UInt8) (h : w.point ≠ .done) :
    (w.nextAction packet).point = w.point := by
  unfold Worker.nextAction
  split <;> simp_all [Action.point]

theorem writeSucceeds_of_fits {v : View} (hv : s.device.Represents k v) (hpending : v.log.pending = [])
    (hP : Line (P i)) (hfits : BUFFERSIZE ≤ k.kmallocMaxSize) :
    s.device.driver.WriteSucceeds k (P i) ⟨false, true, 0⟩ := by
  have hlen := hP.fits
  have hpage := k.pageSize_le
  refine ⟨rfl, (hv.driver.grants_iff ?_ _).2 (Or.inl ⟨rfl, ?_⟩), Nat.zero_min _⟩
  · simp only [BUFFERSIZE, KernelLimits.maxRwCount] at *
    omega
  · rw [hpending, List.length_nil]
    omega

theorem nextAction_normal {d : Driver} {packet : List UInt8}
    (hrecv : w.point = .recv → ∃ got rest, packet = got ++ rest ∧ rest ≠ [] ∧ w.Loaded got)
    (hwrite : w.point = .write → w.Loaded packet ∧ packet.length ≤ BUFFERSIZE ∧
      d.WriteSucceeds k packet ⟨false, true, 0⟩) :
    w.Normal k d packet (w.nextAction packet) := by
  unfold Worker.nextAction
  cases hpoint : w.point with
  | malloc | realloc | «open» | ioctl | seekRead | seekSend | read | send => exact rfl
  | recv =>
    obtain ⟨got, rest, hsplit, hne, hloaded⟩ := hrecv hpoint
    refine ⟨_, rfl, ?_, List.take_prefix _ _⟩
    rw [hloaded.total, Int.toNat_natCast, hsplit, List.drop_left]
    simpa using hne
  | write =>
    obtain ⟨hloaded, hlen, hok⟩ := hwrite hpoint
    obtain ⟨hdata, -⟩ := hloaded.writeData_eq hlen k
    intro data hmem
    obtain rfl := Option.some.inj (hdata.symm.trans hmem)
    exact hok
  | _ => trivial

theorem can_step_of_workerStep (hexited : s.main ≠ .exited) (hw : s.workers[i]? = some w)
    (hpoint : w.point = a.point) (hnormal : w.Normal k s.device.driver (P i) a)
    (hstep : s.workerStep k i w a = some s') :
    ∃ l s' o, Settling k P s l ∧ s.step k l = some (s', o) := by
  refine ⟨.worker i a, s', w.event a, ⟨fun u hu => ?_, by simp⟩, ?_⟩
  · obtain rfl := Option.some.inj (hw.symm.trans hu)
    exact hnormal
  · simp [Server.step, hexited, hw, hpoint, hstep]

theorem worker_can_step (hreached : Undisturbed.Reached k P acts outs s) (hP : ∀ c, Packet (P c))
    (hfits : BUFFERSIZE ≤ k.kmallocMaxSize) (hw : s.workers[i]? = some w) (hdone : w.point ≠ .done)
    (hfree : (w.nextAction (P i)).Available s) :
    ∃ l s' o, Settling k P s l ∧ s.step k l = some (s', o) := by
  have hs := hreached.serving
  have hpoint := (nextAction_point (P i) hdone).symm
  have hstage := hs.stage i w hw
  have hnormal : w.Normal k s.device.driver (P i) (w.nextAction (P i)) := by
    refine nextAction_normal (fun hrecv => ?_) fun hwrite => ?_
    · rw [hrecv] at hstage
      exact hstage.2
    · rw [hwrite] at hstage
      obtain ⟨v, hv, hpending, -⟩ := hs.log
      exact ⟨hstage.2.2.1, Nat.le_of_lt (hP i).line.room,
        writeSucceeds_of_fits hv hpending (hP i).line hfits⟩
  obtain ⟨s', hstep, -⟩ := worker_advances hs hreached.exclusive hreached.heard.sockets hP hw hpoint
    hnormal hfree
  exact can_step_of_workerStep hs.main hw hpoint hnormal hstep

theorem main_can_step (hexclusive : s.Exclusive) (hsockets : s.Sockets) (hexited : s.main ≠ .exited)
    (haccept : s.main ≠ .accept) (hfree : s.listMutex = none ∨ s.main.holdsList = true) :
    ∃ l s' o, Settling k P s l ∧ s.step k l = some (s', o) := by
  have hheld : s.main.holdsList = true → s.listMutex = some .main :=
    (hexclusive.list hexited .main).2
  have hgo : ∀ a s', s.main = a.point → a.Normal → (∀ b, a ≠ .accept b) → s.mainStep a = some s' →
      ∃ l s' o, Settling k P s l ∧ s.step k l = some (s', o) := by
    intro a s' hpoint hnormal hne hstep
    exact ⟨.main a, s', .quiet, ⟨hnormal, fun b heq => hne b (Label.main.inj heq)⟩, by
      simp [Server.step, hpoint, hstep]⟩
  cases hpoint : s.main with
  | accept => exact absurd hpoint haccept
  | exited => exact absurd hpoint hexited
  | checkRunning => exact hgo .checkRunning _ hpoint trivial (by simp) rfl
  | createNode => exact hgo (.createNode true) _ hpoint rfl (by simp) rfl
  | spawn =>
    have hsocket := hsockets.last (by rw [hpoint]; rfl)
    exact hgo (.spawn true) _ hpoint rfl (by simp) (by simp [Server.mainStep, hsocket]; rfl)
  | lockCreate =>
    have hnone := hfree.resolve_right (by simp [hpoint, MainPoint.holdsList])
    exact hgo .lockCreate _ hpoint trivial (by simp) (if_pos hnone)
  | lockAppend =>
    have hnone := hfree.resolve_right (by simp [hpoint, MainPoint.holdsList])
    exact hgo .lockAppend _ hpoint trivial (by simp) (if_pos hnone)
  | lockSweep =>
    have hnone := hfree.resolve_right (by simp [hpoint, MainPoint.holdsList])
    exact hgo .lockSweep _ hpoint trivial (by simp) (if_pos hnone)
  | unlockCreate =>
    exact hgo .unlockCreate _ hpoint trivial (by simp) (if_pos (hheld (by rw [hpoint]; rfl)))
  | unlockAppend =>
    exact hgo .unlockAppend _ hpoint trivial (by simp) (if_pos (hheld (by rw [hpoint]; rfl)))
  | unlockSweep =>
    exact hgo .unlockSweep _ hpoint trivial (by simp) (if_pos (hheld (by rw [hpoint]; rfl)))

theorem nextAction_available (packet : List UInt8)
    (h : w.point.holdsFile = true ∨ w.point.holdsList = true ∨
      s.fileMutex = none ∧ s.listMutex = none) : (w.nextAction packet).Available s := by
  unfold Worker.nextAction
  cases hpoint : w.point with
  | lockOpen | lockSeek | lockWrite =>
    simp only [hpoint, Point.holdsFile, Point.holdsList, Bool.false_eq_true, false_or] at h
    exact h.1
  | lockList =>
    simp only [hpoint, Point.holdsFile, Point.holdsList, Bool.false_eq_true, false_or] at h
    exact h.2
  | _ => trivial

/-- No deadlock: when nothing can go on, though every worker could that does not wait for a mutex,
the main thread waits for a connection and all workers are done. -/
theorem done_of_can_step (hexclusive : s.Exclusive) (hsockets : s.Sockets) (hexited : s.main ≠ .exited)
    (hcan : ∀ (i : ℕ) (w : Worker), s.workers[i]? = some w → w.point ≠ .done →
      (w.nextAction (P i)).Available s → ∃ l s' o, Settling k P s l ∧ s.step k l = some (s', o))
    (hstuck : ∀ l, Settling k P s l → s.step k l = none) :
    s.main = .accept ∧ ∀ w ∈ s.workers, w.point = .done := by
  have hno : ¬ ∃ l s' o, Settling k P s l ∧ s.step k l = some (s', o) := by
    rintro ⟨l, s', o, hl, hstep⟩
    simp [hstuck l hl] at hstep
  have hfile : s.fileMutex = none := by
    rw [hexclusive.file.eq_none_iff]
    intro t ht
    cases t with
    | main => exact ht
    | worker i =>
      obtain ⟨w, hw, hholds⟩ := ht
      have hdone : w.point ≠ .done := fun hp => by simp [hp, Point.holdsFile] at hholds
      exact hno (hcan i w hw hdone (nextAction_available _ (Or.inl hholds)))
  have hlist : s.listMutex = none := by
    rw [(hexclusive.list hexited).eq_none_iff]
    intro t ht
    cases t with
    | main =>
      have haccept : s.main ≠ .accept := fun hp => by
        simp [Server.HoldsList, hp, MainPoint.holdsList] at ht
      exact hno (main_can_step hexclusive hsockets hexited haccept (Or.inr ht))
    | worker i =>
      obtain ⟨w, hw, hholds⟩ := ht
      have hdone : w.point ≠ .done := fun hp => by simp [hp, Point.holdsList] at hholds
      exact hno (hcan i w hw hdone (nextAction_available _ (Or.inr (Or.inl hholds))))
  constructor
  · by_contra haccept
    exact hno (main_can_step hexclusive hsockets hexited haccept (Or.inl hlist))
  · intro w hmem
    obtain ⟨i, hw⟩ := List.mem_iff_getElem?.1 hmem
    by_contra hdone
    exact hno (hcan i w hw hdone (nextAction_available _ (Or.inr (Or.inr ⟨hfile, hlist⟩))))

theorem done_of_stuck (hreached : Undisturbed.Reached k P acts outs s) (hP : ∀ c, Packet (P c))
    (hfits : BUFFERSIZE ≤ k.kmallocMaxSize)
    (hstuck : ∀ l, Settling k P s l → s.step k l = none) :
    s.main = .accept ∧ ∀ w ∈ s.workers, w.point = .done :=
  done_of_can_step hreached.exclusive hreached.heard.sockets hreached.serving.main
    (fun _ _ hw hdone hfree => worker_can_step hreached hP hfits hw hdone hfree) hstuck

/-! ### The replies -/

theorem Undisturbed.Reached.order_eq (hreached : Reached k P acts outs s) :
    writeOrder acts = writeDone acts ∨ ∃ i w, s.workers[i]? = some w ∧ w.point = .write ∧
      writeOrder acts = writeDone acts ++ [i] := by
  by_cases hwrite : ∃ (i : ℕ) (w : Worker), s.workers[i]? = some w ∧ w.point = .write
  · obtain ⟨i, w, hw, hpoint⟩ := hwrite
    have hstage := hreached.serving.stage i w hw
    rw [hpoint] at hstage
    exact Or.inr ⟨i, w, hw, hpoint, hstage.1⟩
  · left
    cases hmutex : s.fileMutex with
    | none => exact hreached.serving.settled hmutex
    | some t =>
      have ht := (hreached.exclusive.file t).1 hmutex
      cases t with
      | main => exact ht.elim
      | worker i =>
        obtain ⟨w, hw, hholds⟩ := ht
        exact Stage.settled (hreached.serving.stage i w hw) hholds fun hp => hwrite ⟨i, w, hw, hp⟩

theorem Undisturbed.Reached.done_mem (hreached : Reached k P acts outs s) (hw : s.workers[i]? = some w)
    (hpoint : w.point = .done) {j : ℕ} (hj : (writeOrder acts)[j]? = some i) :
    (writeDone acts)[j]? = some i := by
  rcases hreached.order_eq with heq | ⟨i', w', hw', hpoint', heq⟩
  · rwa [heq] at hj
  · rw [heq] at hj
    by_cases hlt : j < (writeDone acts).length
    · rwa [List.getElem?_append_left hlt] at hj
    · rw [List.getElem?_append_right (by omega), List.getElem?_singleton] at hj
      obtain ⟨-, hlast⟩ := Option.ite_none_right_eq_some.1 hj
      obtain rfl := Option.some.inj hlast
      obtain rfl := Option.some.inj (hw.symm.trans hw')
      cases hpoint.symm.trans hpoint'

/-- **Every client gets its reply**: for any number of clients that send one packet each, in any
pieces and any interleaving, with no failure. After every run, the device holds the packets in the
order in which the workers entered the write section, each of them once; the client at place `j` of
that order was sent the last ten packets up to its own once its worker is done. And the server gets
there: without new connections it stops after at most `s.rank` steps, with all workers done. -/
theorem replies_in_order (hP : ∀ c, Packet (P c))
    (hrun : (serverMachine k).Run (Undisturbed k P) .init acts outs s) :
    (writeOrder acts).Nodup ∧
    (writeOrder acts = writeDone acts ∨ ∃ i w, s.workers[i]? = some w ∧ w.point = .write ∧
      writeOrder acts = writeDone acts ++ [i]) ∧
    s.device.driver.commands = some (((writeDone acts).map P).rtake maxWriteOperations) ∧
    s.device.driver.pending = some [] ∧
    (∀ (i : ℕ) (w : Worker), s.workers[i]? = some w → w.point = .done → ∃ j,
      (writeOrder acts)[j]? = some i ∧ (writeDone acts)[j]? = some i ∧
      sentTo outs i = ((((writeOrder acts).take (j + 1)).map P).rtake maxWriteOperations).flatten ∧
      P i <:+ sentTo outs i) ∧
    (BUFFERSIZE ≤ k.kmallocMaxSize → ∀ acts' outs' s',
      (serverMachine k).Run (Settling k P) s acts' outs' s' → acts'.length ≤ s.rank ∧
        ((∀ l, Settling k P s' l → s'.step k l = none) →
          s'.workers.length = s'.accepted ∧ ∀ w ∈ s'.workers, w.point = .done)) := by
  have hreached := run_serving hP hrun
  obtain ⟨v, hv, hpending, hlines⟩ := hreached.serving.log
  refine ⟨hreached.serving.nodup, hreached.order_eq, ?_, ?_, ?_, ?_⟩
  · rw [hv.driver.commands, hlines]
    rfl
  · rw [hv.driver.pending, hpending]
  · intro i w hw hpoint
    have hstage := hreached.serving.stage i w hw
    rw [hpoint] at hstage
    obtain ⟨j, hj, hsent⟩ := hstage
    have hj : (writeOrder acts)[j]? = some i := hj
    have hsent : sentTo outs i = (stored P ((writeOrder acts).take (j + 1))).flatten := hsent
    have hlast : (writeOrder acts).take (j + 1) = (writeOrder acts).take j ++ [i] := by
      rw [List.take_add_one, hj]
      rfl
    refine ⟨j, hj, hreached.done_mem hw hpoint hj, hsent, ?_⟩
    rw [hsent, stored, hlast, List.map_append, List.map_singleton, List.rtake_concat_succ,
      List.flatten_concat]
    exact List.suffix_append _ _
  · intro hfits acts' outs' s' hrun'
    have hall : Undisturbed.Reached k P (acts ++ acts') (outs ++ outs') s' :=
      run_serving hP (hrun.append (hrun'.mono fun _ _ hl => hl.1))
    constructor
    · have hrank := hrun'.length_add_rank_le
        (I := fun s => ∃ acts outs, Undisturbed.Reached k P acts outs s) Server.rank
        ⟨acts, outs, hreached⟩ (by
          rintro s l s' o ⟨acts, outs, hs⟩ hguard hstep
          exact ⟨⟨_, _, hs.next hP hguard.1 hstep⟩, step_rank_lt hs hP hguard hstep⟩)
      omega
    · intro hstuck
      obtain ⟨haccept, hdone⟩ := done_of_stuck hall hP hfits hstuck
      exact ⟨hall.heard.sockets.length_eq haccept, hdone⟩

/-- Two clients with one packet each. -/
def twoPackets : ℕ → List UInt8
  | 0 => [97, 10]
  | _ => [98, 99, 10]

theorem replies_in_order_two_clients : ∃ acts outs s,
    (serverMachine .x86).Run (Undisturbed .x86 twoPackets) .init acts outs s ∧
      writeOrder acts = [1, 0] ∧ sentTo outs 1 = [98, 99, 10] ∧
      sentTo outs 0 = [98, 99, 10, 97, 10] ∧
      s.device.driver.commands =
        some (((writeDone acts).map twoPackets).rtake maxWriteOperations) ∧
      ∀ acts' outs' s', (serverMachine .x86).Run (Settling .x86 twoPackets) s acts' outs' s' →
        acts'.length ≤ s.rank := by
  have hP : ∀ c, Packet (twoPackets c) := by
    have hfirst : Packet [97, 10] := ⟨by decide, by decide, by decide, by decide, by decide⟩
    have hsecond : Packet [98, 99, 10] := ⟨by decide, by decide, by decide, by decide, by decide⟩
    intro c
    cases c with
    | zero => exact hfirst
    | succ c => exact hsecond
  obtain ⟨⟨s, outs⟩, hexec, heval⟩ := Option.map_eq_some_iff.1
    (show ((serverMachine .x86).execGuarded (Undisturbed .x86 twoPackets) .init
      (acceptOne ++ acceptOne ++ receiving 0 [some [97]] ++ receiving 1 [some [98, 99, 10]] ++
        writing 1 ++ answering 1 [3] ++ [.worker 0 .checkRunning, .worker 0 (.recv (some [10]))] ++
        writing 0 ++ answering 0 [3, 2] ++ finishing 1 ++ finishing 0)).map
          (fun r => (sentTo r.2 1, sentTo r.2 0)) =
        some ([98, 99, 10], [98, 99, 10, 97, 10]) by decide +kernel)
  obtain ⟨hone, hzero⟩ : sentTo outs 1 = [98, 99, 10] ∧ sentTo outs 0 = [98, 99, 10, 97, 10] := by
    simpa using heval
  have hrun := Machine.Run.of_execGuarded hexec
  obtain ⟨-, -, hcommands, -, -, hprogress⟩ := replies_in_order hP hrun
  exact ⟨_, outs, s, hrun, by decide, hone, hzero, hcommands,
    fun acts' outs' s' hrun' => (hprogress (by decide) acts' outs' s' hrun').1⟩

end AesdChar
