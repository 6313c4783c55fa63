import AesdChar.Server.Service

/-!
# Undisturbed runs

The stages of all workers and the log of the device together survive every step that nothing
disturbs, so after every undisturbed run the device holds what the workers wrote, in the order in
which they entered the write section, and every worker is at its stage (`run_serving`).
-/

namespace AesdChar
open CInt CString BlockHeap Lines Mutex

variable {k : KernelLimits} {P : ℕ → List UInt8} {h h' : History} {s s' : Server} {i j : ℕ} {a : Action}
  {w w' : Worker} {l : Label} {o : Event}

/-! ### The other workers -/

/-- Others may enter and write while a worker does not hold the mutex; that changes nothing for it. -/
theorem Stage.frame {p : Point} {pos : ℤ} (more : List ℕ) (horder : h'.order = h.order ++ more)
    (hmore : i ∉ more) (hsent : h'.sent i = h.sent i)
    (hholds : p.holdsFile = true → h'.order = h.order ∧ h'.done = h.done)
    (hstage : w.Stage P h pos i p) : w.Stage P h' pos i p := by
  have hwaits : h.Waits i → h'.Waits i := by
    rintro ⟨hmem, hnil⟩
    exact ⟨by simp [horder, hmem, hmore], hsent.trans hnil⟩
  have hserves : h'.order = h.order → h'.done = h.done → h.Serves i → h'.Serves i := by
    intro ho hd hserves
    unfold History.Serves
    rwa [ho, hd]
  have hserved : h.Served P i → h'.Served P i := by
    rintro ⟨n, hn, hreply⟩
    have hlt : n < h.order.length := (List.getElem?_eq_some_iff.1 hn).1
    refine ⟨n, by rw [horder, List.getElem?_append_left hlt, hn], ?_⟩
    rw [hsent, hreply, replyTo, replyTo, horder, List.take_append_of_le_length hlt]
  cases p with
  | malloc | checkRunning | recv | lockOpen | dispatch | lockWrite =>
    exact ⟨hwaits hstage.1, hstage.2⟩
  | «open» =>
    obtain ⟨ho, hd⟩ := hholds rfl
    exact ⟨hwaits hstage.1, hstage.2.1, by rw [ho, hd]; exact hstage.2.2⟩
  | unlockOpen =>
    obtain ⟨ho, hd⟩ := hholds rfl
    exact ⟨hwaits hstage.1, hstage.2.1, by rw [ho, hd]; exact hstage.2.2.1, hstage.2.2.2⟩
  | write =>
    obtain ⟨ho, hd⟩ := hholds rfl
    exact ⟨by rw [ho, hd]; exact hstage.1, hsent.trans hstage.2.1, hstage.2.2⟩
  | lseek =>
    obtain ⟨ho, hd⟩ := hholds rfl
    exact ⟨hserves ho hd hstage.1, hsent.trans hstage.2.1, hstage.2.2⟩
  | read =>
    obtain ⟨ho, hd⟩ := hholds rfl
    obtain ⟨hserve, hfd, q, hpos, hq, hreply⟩ := hstage
    exact ⟨hserves ho hd hserve, hfd, q, hpos, by rwa [hd], by rwa [hd, hsent]⟩
  | send =>
    obtain ⟨ho, hd⟩ := hholds rfl
    obtain ⟨hserve, hfd, q, hpos, hq, hreply⟩ := hstage
    exact ⟨hserves ho hd hserve, hfd, q, hpos, by rwa [hd], by rwa [hd, hsent]⟩
  | unlockWrite =>
    obtain ⟨ho, hd⟩ := hholds rfl
    exact ⟨hserves ho hd hstage.1, by rw [hd, hsent]; exact hstage.2⟩
  | free | lockList | finish | unlockList | done => exact hserved hstage
  | realloc | lockSeek | ioctl | seekRead | seekSend | unlockSeek => exact hstage.elim

theorem Stage.settled {p : Point} {pos : ℤ} (hstage : w.Stage P h pos i p)
    (hholds : p.holdsFile = true) (hwrite : p ≠ .write) : h.order = h.done := by
  cases p with
  | «open» => exact hstage.2.2
  | unlockOpen => exact hstage.2.2.1
  | lseek | read | send | unlockWrite => exact hstage.1.1
  | write => exact absurd rfl hwrite
  | ioctl | seekRead | seekSend | unlockSeek => exact hstage.elim
  | _ => cases hholds

/-! ### One step -/

theorem after_worker_eq (hpoint : w.point = a.point) (hlock : w.point ≠ .lockWrite)
    (hwrite : w.point ≠ .write) : (h.after (.worker i a) o).order = h.order ∧
      (h.after (.worker i a) o).done = h.done := by
  rw [hpoint] at hlock hwrite
  cases a with
  | lockWrite => exact absurd rfl hlock
  | write env => exact absurd rfl hwrite
  | _ => exact ⟨List.append_nil _, List.append_nil _⟩

theorem order_after_worker (hpoint : w.point = a.point) :
    (w.point = .lockWrite ∧ (h.after (.worker i a) o).order = h.order ++ [i]) ∨
      (h.after (.worker i a) o).order = h.order := by
  cases a with
  | lockWrite => exact Or.inl ⟨hpoint, rfl⟩
  | _ => exact Or.inr (List.append_nil _)

theorem sent_after_worker (c : ℕ) (hne : w.clientSocket ≠ c) :
    (h.after (.worker i a) (w.event a)).sent c = h.sent c := by
  have hsent := sentTo_event [] w a c
  rw [if_neg hne, List.append_nil, List.nil_append] at hsent
  show h.sent c ++ sentTo [w.event a] c = h.sent c
  rw [hsent]
  simp [sentTo]

theorem workerStep_available (h : s.workerStep k i w a = some s') : a.Available s := by
  cases a with
  | lockOpen | lockSeek | lockWrite | lockList => exact (Option.ite_none_right_eq_some.1 h).1
  | _ => trivial

section WorkerStep
variable (hs : Serving k P h s) (hexclusive : s.Exclusive) (hsockets : s.Sockets)
  (hw : s.workers[i]? = some w) (hpoint : w.point = a.point)
  (hstep : s.workerStep k i w a = some s')

include hexclusive hw hpoint hstep in
theorem fileMutex_of_entering (hp : w.point = .lockWrite ∨ w.point = .write) :
    s'.fileMutex = some (.worker i) := by
  obtain ⟨w', hmoves⟩ := workerStep_moves hpoint hstep
  have hnow : s'.workers[i]? = some w' := by
    rw [hmoves.workers]
    exact List.getElem?_set_self (List.getElem?_eq_some_iff.1 hw).1
  have hholds : w'.point.holdsFile = true := by
    have hnext := hmoves.next
    rcases hp with hp | hp
    · obtain hq : w'.point = .write := by simpa [hp, Point.next] using hnext
      rw [hq]
      rfl
    · obtain hq : w'.point = .lseek := by simpa [hp, Point.next] using hnext
      rw [hq]
      rfl
  exact ((hmoves.exclusive hw hexclusive).file (.worker i)).2 ⟨w', hnow, hholds⟩

include hs hexclusive hw hpoint hstep in
theorem settled_after (hfree : s'.fileMutex = none) :
    (h.after (.worker i a) o).order = (h.after (.worker i a) o).done := by
  have hlock : w.point ≠ .lockWrite := fun hp => by
    simp [fileMutex_of_entering hexclusive hw hpoint hstep (Or.inl hp)] at hfree
  have hwrite : w.point ≠ .write := fun hp => by
    simp [fileMutex_of_entering hexclusive hw hpoint hstep (Or.inr hp)] at hfree
  obtain ⟨ho, hd⟩ := after_worker_eq (i := i) (h := h) (o := o) hpoint hlock hwrite
  rw [ho, hd]
  obtain ⟨w', hmoves⟩ := workerStep_moves hpoint hstep
  rcases hmoves.file with ⟨hsame, -⟩ | ⟨-, htaken, -⟩ | ⟨hmine, -⟩
  · exact hs.settled (hsame ▸ hfree)
  · simp [hfree] at htaken
  · obtain ⟨u, hu, hholds⟩ := (hexclusive.file (.worker i)).1 hmine
    obtain rfl := Option.some.inj (hw.symm.trans hu)
    exact Stage.settled (hs.stage i w hw) hholds hwrite

include hs hw hpoint in
theorem nodup_after : (h.after (.worker i a) o).order.Nodup := by
  rcases order_after_worker (i := i) (h := h) (o := o) hpoint with ⟨hp, ho⟩ | ho
  · have hstage := hs.stage i w hw
    rw [hp] at hstage
    rw [ho]
    refine List.nodup_append.2 ⟨hs.nodup, by simp, fun x hx y hy => ?_⟩
    obtain rfl := List.mem_singleton.1 hy
    rintro rfl
    exact hstage.1.1 hx
  · rw [ho]
    exact hs.nodup

include hs hsockets hw hpoint in
theorem fresh_after {c : ℕ} (hc : s.workers.length ≤ c) :
    (h.after (.worker i a) (w.event a)).Waits c := by
  have hi : i < s.workers.length := (List.getElem?_eq_some_iff.1 hw).1
  have hne : i ≠ c := by omega
  obtain ⟨hmem, hnil⟩ := hs.fresh c hc
  refine ⟨?_, by rw [sent_after_worker c (hsockets.worker i w hw ▸ hne), hnil]⟩
  rcases order_after_worker (i := i) (h := h) (o := w.event a) hpoint with ⟨-, ho⟩ | ho
  · rw [ho]
    simp [hmem, hne.symm]
  · rwa [ho]

include hexclusive hw hpoint hstep in
theorem not_entering {u : Worker} (hij : i ≠ j) (hu : s.workers[j]? = some u)
    (hholds : u.point.holdsFile = true) : w.point ≠ .lockWrite ∧ w.point ≠ .write := by
  have hj : s.fileMutex = some (.worker j) := (hexclusive.file (.worker j)).2 ⟨u, hu, hholds⟩
  constructor
  · intro hp
    have hi := fileMutex_of_entering hexclusive hw hpoint hstep (Or.inl hp)
    obtain ⟨w', hmoves⟩ := workerStep_moves hpoint hstep
    rcases hmoves.file with ⟨hsame, -⟩ | ⟨hfree, -⟩ | ⟨-, hfree, -⟩
    · rw [hsame, hj] at hi
      exact hij (by simpa using hi.symm)
    · simp [hj] at hfree
    · simp [hfree] at hi
  · intro hp
    have hi : s.HoldsFile (.worker i) := ⟨w, hw, by rw [hp]; rfl⟩
    exact hij (Thread.worker.inj (hexclusive.file.unique hi ⟨u, hu, hholds⟩))

include hs hexclusive hsockets hw hpoint hstep in
theorem stage_of_other {u : Worker} (hij : i ≠ j) (hu : s.workers[j]? = some u) :
    u.Stage P (h.after (.worker i a) (w.event a)) (s.device.fPos j) j u.point := by
  have hbefore := hs.stage j u hu
  have hsent := sent_after_worker (h := h) (i := i) (a := a) j (hsockets.worker i w hw ▸ hij)
  rcases order_after_worker (i := i) (h := h) (o := w.event a) hpoint with ⟨hp, ho⟩ | ho
  · refine Stage.frame [i] ho (by simpa using Ne.symm hij) hsent (fun hholds => ?_) hbefore
    exact absurd hp (not_entering hexclusive hw hpoint hstep hij hu hholds).1
  · refine Stage.frame [] (by rw [ho, List.append_nil]) (by simp) hsent (fun hholds => ?_)
      hbefore
    obtain ⟨hlock, hwrite⟩ := not_entering hexclusive hw hpoint hstep hij hu hholds
    exact after_worker_eq hpoint hlock hwrite

include hs hexclusive hsockets hw hpoint hstep in
theorem serving_worker (hP : ∀ c, Packet (P c)) (hnormal : w.Normal k s.device.driver (P i) a) :
    Serving k P (h.after (.worker i a) (w.event a)) s' := by
  obtain ⟨t, ht, hlog, hothers, w', hworkers, hself, -⟩ :=
    worker_advances hs hexclusive hsockets hP hw hpoint hnormal (workerStep_available hstep)
  obtain rfl : t = s' := Option.some.inj (ht.symm.trans hstep)
  obtain ⟨w₁, hmoves⟩ := workerStep_moves hpoint hstep
  refine ⟨hmoves.running.trans hs.running, hmoves.nodePresent.trans hs.nodePresent,
    hmoves.main ▸ hs.main, hlog, settled_after hs hexclusive hw hpoint hstep, nodup_after hs hw hpoint,
    fun c hc => ?_, fun j u hu => ?_⟩
  · rw [hworkers, List.length_set] at hc
    exact fresh_after hs hsockets hw hpoint hc
  · rw [hworkers] at hu
    rcases getElem?_set_cases hw hu with ⟨rfl, rfl⟩ | ⟨hij, hu⟩
    · exact hself
    · rw [hothers j (Ne.symm hij)]
      exact stage_of_other hs hexclusive hsockets hw hpoint hstep hij hu

end WorkerStep

theorem mainStep_main {a : MainAction} (hrunning : s.running = true) (hnormal : a.Normal)
    (h : s.mainStep a = some s') : s'.main ≠ .exited := by
  cases a with
  | checkRunning =>
    obtain rfl := Option.some.inj h
    simp [hrunning]
  | accept accepted =>
    cases accepted with
    | true =>
      obtain rfl := Option.some.inj h
      simp
    | false =>
      obtain rfl := Option.some.inj h
      simp
  | createNode granted =>
    obtain rfl : granted = true := hnormal
    obtain rfl := Option.some.inj h
    simp
  | spawn created =>
    obtain rfl : created = true := hnormal
    obtain ⟨c, -, rfl⟩ := Option.map_eq_some_iff.1 h
    simp
  | _ =>
    obtain ⟨-, rfl⟩ := Option.ite_some_none_eq_some.1 h
    simp

theorem serving_main {a : MainAction} (hs : Serving k P h s) (hpoint : s.main = a.point)
    (hnormal : a.Normal) (hstep : s.mainStep a = some s') : Serving k P h s' := by
  have hmoves := mainStep_moves hpoint hstep
  refine ⟨hmoves.running.trans hs.running, hmoves.nodePresent.trans hs.nodePresent,
    mainStep_main hs.running hnormal hstep, hmoves.device ▸ hs.log, hmoves.fileMutex ▸ hs.settled,
    hs.nodup, fun c hc => ?_, fun j u hu => ?_⟩
  · exact hs.fresh c (hmoves.length_le.trans hc)
  · rw [hmoves.device]
    rcases hmoves.worker_cases hu with hu | ⟨rfl, c, rfl⟩
    · exact hs.stage j u hu
    · exact ⟨hs.fresh _ (Nat.le_refl _), rfl, rfl⟩

theorem serving_init (k : KernelLimits) (P : ℕ → List UInt8) :
    Serving k P (historyOf [] []) .init where
  running := rfl
  nodePresent := rfl
  main := by simp [Server.init]
  log := ⟨.init, System.represents_init, rfl, rfl⟩
  settled := fun _ => rfl
  nodup := List.nodup_nil
  fresh := fun _ _ => ⟨by simp [historyOf, writeOrder], rfl⟩
  stage := by simp [Server.init]

theorem step_serving (hs : Serving k P h s) (hexclusive : s.Exclusive) (hsockets : s.Sockets)
    (hP : ∀ c, Packet (P c)) (hguard : Undisturbed k P s l) (hstep : s.step k l = some (s', o)) :
    Serving k P (h.after l o) s' := by
  rcases Server.step_cases hstep with ⟨a, rfl, hpoint, hmain, rfl⟩ |
    ⟨i, a, w, rfl, -, hw, hpoint, hworker, rfl⟩ | ⟨rfl, -, -⟩ | ⟨rfl, -, -⟩
  · rw [History.after_quiet rfl rfl fun _ => rfl]
    exact serving_main hs hpoint hguard hmain
  · exact serving_worker hs hexclusive hsockets hw hpoint hworker hP (hguard w hw)
  · exact hguard.elim
  · exact hguard.elim

/-- Everything that holds after an undisturbed run. -/
structure Undisturbed.Reached (k : KernelLimits) (P : ℕ → List UInt8) (acts : List Label)
    (outs : List Event) (s : Server) : Prop where
  heard : s.Heard outs
  exclusive : s.Exclusive
  serving : Serving k P (historyOf acts outs) s

theorem Undisturbed.Reached.next {acts : List Label} {outs : List Event}
    (hreached : Reached k P acts outs s) (hP : ∀ c, Packet (P c)) (hguard : Undisturbed k P s l)
    (hstep : s.step k l = some (s', o)) : Reached k P (acts ++ [l]) (outs ++ [o]) s' := by
  refine ⟨step_heard_all hreached.heard hstep, step_exclusive hreached.exclusive hstep, ?_⟩
  rw [historyOf_append]
  exact step_serving hreached.serving hreached.exclusive hreached.heard.sockets hP hguard hstep

theorem run_serving (hP : ∀ c, Packet (P c)) {acts : List Label} {outs : List Event}
    (hrun : (serverMachine k).Run (Undisturbed k P) .init acts outs s) :
    Undisturbed.Reached k P acts outs s :=
  hrun.invariant (I := Undisturbed.Reached k P) ⟨heard_init, exclusive_init, serving_init k P⟩
    fun _ _ _ _ _ _ hreached hguard hstep => hreached.next hP hguard hstep

end AesdChar
