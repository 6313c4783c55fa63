import AesdChar.Server.Actions

/-!
# What a worker owes

A worker obtains its buffer, a descriptor and two mutexes, and gives each of them back or not. What
it obtained and has not given back is what it holds at its point (`run_owes`), so behind its last
critical section buffer and mutexes are given back. Nothing gives back a descriptor: a finished
worker is even exactly if its `open` failed. As long as no worker finishes whose `open` gave it a
descriptor, the descriptors are no more than the unfinished workers (`resources_balanced_iff`).
-/

namespace AesdChar

variable {k : KernelLimits} {s s' : Server} {l : Label} {o : Event} {i : ℕ} {a : Action}
  {w w' : Worker} {acts : List Label} {outs : List Event} {guard : Server → Label → Prop}
  {r : Resource}

/-- What `socketThread` obtains and has to give back. -/
inductive Resource
  | buffer
  | descriptor
  | fileMutex
  | listMutex
  deriving DecidableEq, Repr

def Action.acquires (r : Resource) : Action → Bool
  | .malloc granted => granted && decide (r = .buffer)
  | .open fd => fd != .bad && decide (r = .descriptor)
  | .lockOpen | .lockSeek | .lockWrite => decide (r = .fileMutex)
  | .lockList => decide (r = .listMutex)
  | _ => false

/-- The text has no `close`. -/
def Action.releases (r : Resource) : Action → Bool
  | .realloc none | .free => decide (r = .buffer)
  | .unlockOpen | .unlockSeek | .unlockWrite => decide (r = .fileMutex)
  | .unlockList => decide (r = .listMutex)
  | _ => false

def acquired (r : Resource) (actions : List Action) : ℕ := actions.countP (·.acquires r)

def released (r : Resource) (actions : List Action) : ℕ := actions.countP (·.releases r)

/-- The actions gave the resource back as often as they obtained it; the buffer and the descriptor
are obtained once at most. -/
def Balanced (r : Resource) (actions : List Action) : Prop :=
  released r actions = acquired r actions ∧
    (r = .buffer ∨ r = .descriptor → acquired r actions ≤ 1)

/-- A step in which some worker obtains the resource. -/
def Label.acquires (r : Resource) : Label → Bool
  | .worker _ a => a.acquires r
  | _ => false

/-- A step in which some worker gives the resource back. -/
def Label.releases (r : Resource) : Label → Bool
  | .worker _ a => a.releases r
  | _ => false

/-- The descriptors that the workers of a run obtained and have not closed. -/
def openDescriptors (acts : List Label) : ℕ :=
  acts.countP (·.acquires .descriptor) - acts.countP (·.releases .descriptor)

/-- What the thread holds at its point. -/
def Worker.has (w : Worker) : Resource → Bool
  | .buffer => w.point.holdsBuffer
  | .descriptor => w.fileFd != .bad
  | .fileMutex => w.point.holdsFile
  | .listMutex => w.point.holdsList

/-! ### One action -/

/-- The points before the descriptor is there. -/
def Point.Unopened (p : Point) : Prop :=
  p ∈ [.malloc, .checkRunning, .recv, .realloc, .lockOpen, .open]

instance (p : Point) : Decidable p.Unopened := inferInstanceAs (Decidable (_ ∈ _))

theorem Action.mutex_points (a : Action) : ∀ q ∈ a.point.next,
    q.holdsFile.toNat + (a.releases .fileMutex).toNat =
        a.point.holdsFile.toNat + (a.acquires .fileMutex).toNat ∧
      q.holdsList.toNat + (a.releases .listMutex).toNat =
        a.point.holdsList.toNat + (a.acquires .listMutex).toNat := by
  cases a with
  | realloc tail =>
    cases tail <;>
      simp [Action.point, Point.next, Point.holdsFile, Point.holdsList, Action.releases, Action.acquires]
  | _ =>
    simp [Action.point, Point.next, Point.holdsFile, Point.holdsList, Action.releases, Action.acquires]

theorem Action.buffer_points (ha : a.point ≠ .malloc ∧ a.point ≠ .realloc) : ∀ q ∈ a.point.next,
    q.holdsBuffer.toNat + (a.releases .buffer).toNat =
      a.point.holdsBuffer.toNat + (a.acquires .buffer).toNat := by
  cases a with
  | malloc granted => exact absurd rfl ha.1
  | realloc tail => exact absurd rfl ha.2
  | _ => simp [Action.point, Point.next, Point.holdsBuffer, Action.releases, Action.acquires]

theorem Server.Takes.buffer_add (h : s.Takes k s' i w w' a) :
    w'.point.holdsBuffer.toNat + (a.releases .buffer).toNat =
      w.point.holdsBuffer.toNat + (a.acquires .buffer).toNat := by
  have hnext := h.moves.next
  rw [h.point] at hnext ⊢
  cases a with
  | malloc granted =>
    have hstep := h.local_step h.step
    cases granted with
    | true =>
      obtain rfl := Option.some.inj hstep
      rfl
    | false =>
      obtain rfl := Option.some.inj hstep
      rfl
  | realloc tail =>
    obtain ⟨b, -, hstep⟩ := Option.bind_eq_some_iff.1 (h.local_step h.step)
    cases tail with
    | none =>
      obtain rfl := Option.some.inj hstep
      rfl
    | some tail =>
      obtain ⟨-, hstep⟩ := Option.ite_none_right_eq_some.1 hstep
      obtain rfl := Option.some.inj hstep
      rfl
  | _ => exact Action.buffer_points (by simp [Action.point]) _ hnext

theorem Server.Takes.descriptor_add (h : s.Takes k s' i w w' a) (hw : w.Holds)
    (hclosed : w.point.Unopened → w.fileFd = .bad) :
    (w'.fileFd != .bad).toNat + (a.releases .descriptor).toNat =
      (w.fileFd != .bad).toNat + (a.acquires .descriptor).toNat := by
  rw [(h.holds hw).2]
  cases a with
  | «open» fd =>
    rw [hclosed (h.point ▸ (by simp [Action.point, Point.Unopened]))]
    simp [Action.opened, Action.releases, Action.acquires]
  | realloc tail => cases tail <;> simp [Action.opened, Action.releases, Action.acquires]
  | _ => simp [Action.opened, Action.releases, Action.acquires]

theorem Server.Takes.has_add (h : s.Takes k s' i w w' a) (hw : w.Holds)
    (hclosed : w.point.Unopened → w.fileFd = .bad) (r : Resource) :
    (w'.has r).toNat + (a.releases r).toNat = (w.has r).toNat + (a.acquires r).toNat := by
  have hnext := h.moves.next
  cases r with
  | buffer => exact h.buffer_add
  | descriptor => exact h.descriptor_add hw hclosed
  | fileMutex =>
    simp only [Worker.has]
    rw [h.point] at hnext ⊢
    exact (a.mutex_points _ hnext).1
  | listMutex =>
    simp only [Worker.has]
    rw [h.point] at hnext ⊢
    exact (a.mutex_points _ hnext).2

/-! ### Every run -/

/-- What a worker obtained and did not give back is what it holds. One with a descriptor finishes at
the end of its text. -/
structure Worker.Owes (actions : List Action) (received : List UInt8) (w : Worker) : Prop where
  holds : w.Holds
  finish : w.point.hasFinished = true → .finish ∈ actions ∨ w.fileFd = .bad
  closed : w.point.Unopened → w.fileFd = .bad
  ledger : ∀ r, acquired r actions = released r actions + (w.has r).toNat
  once : acquired .buffer actions ≤ if w.point = .malloc then 0 else 1

theorem owes_start (c : ℕ) : (Worker.start c).Owes [] [] where
  holds := Worker.holds_start c
  finish := fun _ => Or.inr rfl
  closed := fun _ => rfl
  ledger := by
    intro r
    cases r <;> rfl
  once := Nat.zero_le _

theorem Point.Unopened.back {p q : Point} (hq : q.Unopened) (hnext : q ∈ p.next) :
    p.Unopened ∧ p ≠ .open := by
  have hall : ∀ q ∈ p.next, q.Unopened → p.Unopened ∧ p ≠ .open := by cases p <;> decide
  exact hall q hnext hq

theorem Point.hasFinished_back {p q : Point} (hq : q.hasFinished = true) (hnext : q ∈ p.next) :
    p = .finish ∨ (p ≠ .open ∧ (p.Unopened ∨ p.hasFinished = true)) := by
  have hall : ∀ q ∈ p.next, q.hasFinished = true →
      p = .finish ∨ (p ≠ .open ∧ (p.Unopened ∨ p.hasFinished = true)) := by cases p <;> decide
  exact hall q hnext hq

theorem Action.eq_finish (ha : a.point = .finish) : a = .finish := by
  cases a with
  | finish => rfl
  | _ => simp [Action.point] at ha

theorem Action.acquires_buffer_le (a : Action) :
    (a.acquires .buffer).toNat ≤ if a.point = .malloc then 1 else 0 := by
  cases a with
  | malloc granted => exact Bool.toNat_le _
  | _ => simp [Action.acquires]

theorem Action.opened_of_point (ha : a.point ≠ .open) : a.opened = none := by
  cases a with
  | «open» fd => exact absurd rfl ha
  | _ => rfl

theorem ite_eq_toNat (b : Bool) : (if b = true then 1 else 0) = b.toNat := by
  cases b <;> rfl

theorem acquired_concat (r : Resource) (actions : List Action) (a : Action) :
    acquired r (actions ++ [a]) = acquired r actions + (a.acquires r).toNat := by
  unfold acquired
  rw [List.countP_append, List.countP_singleton, ite_eq_toNat]

theorem released_concat (r : Resource) (actions : List Action) (a : Action) :
    released r (actions ++ [a]) = released r actions + (a.releases r).toNat := by
  unfold released
  rw [List.countP_append, List.countP_singleton, ite_eq_toNat]

theorem kept_owes : Kept k Worker.Owes := by
  intro actions received s s' i w w' a h hw _
  have hnext := h.moves.next
  obtain ⟨hholds, hfd⟩ := h.holds hw.holds
  refine ⟨hholds, fun hfinished => ?_, fun hunopened => ?_, fun r => ?_, ?_⟩
  · rcases Point.hasFinished_back hfinished hnext with hpoint | ⟨hne, hbefore⟩
    · rw [h.point] at hpoint
      exact Or.inl (by simp [Action.eq_finish hpoint])
    · rw [hfd, Action.opened_of_point (h.point ▸ hne)]
      rcases hbefore with hunopened | hbefore
      · exact Or.inr (hw.closed hunopened)
      · exact (hw.finish hbefore).imp_left (List.mem_append_left _)
  · obtain ⟨hbefore, hne⟩ := hunopened.back hnext
    rw [hfd, Action.opened_of_point (h.point ▸ hne)]
    exact hw.closed hbefore
  · have hadd := h.has_add hw.holds hw.closed r
    have hledger := hw.ledger r
    rw [acquired_concat, released_concat]
    omega
  · have honce := hw.once
    have hmalloc : ∀ q ∈ w.point.next, q ≠ .malloc := by
      cases w.point <;> decide
    rw [acquired_concat, if_neg (hmalloc _ hnext)]
    have hle := a.acquires_buffer_le
    rw [← h.point] at hle
    split_ifs at honce hle <;> omega

theorem run_owes (hrun : (serverMachine k).Run guard .init acts outs s)
    (hw : s.workers[i]? = some w) : w.Owes (actionsOf acts i) (receivedOn outs i) :=
  run_worker owes_start kept_owes hrun hw

theorem released_descriptor (actions : List Action) : released .descriptor actions = 0 := by
  unfold released
  rw [List.countP_eq_zero]
  intro a _
  cases a with
  | realloc tail => cases tail <;> simp [Action.releases]
  | _ => simp [Action.releases]

theorem acquired_descriptor_eq_zero :
    acquired .descriptor (actionsOf acts i) = 0 ↔ ∀ fd, .worker i (.open fd) ∈ acts → fd = .bad := by
  unfold acquired
  rw [List.countP_eq_zero]
  constructor
  · intro hnone fd hmem
    simpa [Action.acquires] using hnone _ (mem_actionsOf.2 hmem)
  · intro hbad a ha
    cases a with
    | «open» fd =>
      rw [hbad fd (mem_actionsOf.1 ha)]
      simp [Action.acquires]
    | _ => simp [Action.acquires]

/-! ### All workers together -/

theorem countP_set_add {workers : List Worker} (p : Worker → Bool) (hw : workers[i]? = some w)
    (w' : Worker) :
    (workers.set i w').countP p + (p w).toNat = workers.countP p + (p w').toNat := by
  induction workers generalizing i with
  | nil => cases hw
  | cons u workers ih =>
    cases i with
    | zero =>
      obtain rfl : u = w := by simpa using hw
      rw [List.set_cons_zero, List.countP_cons, List.countP_cons]
      cases p u <;> cases p w' <;> simp
    | succ i =>
      have hrest := ih (i := i) (by simpa using hw)
      rw [List.set_cons_succ, List.countP_cons, List.countP_cons]
      omega

/-- The descriptors that were obtained are those that the workers have. -/
theorem run_descriptors (hrun : (serverMachine k).Run guard .init acts outs s) :
    acts.countP (·.acquires .descriptor) =
      acts.countP (·.releases .descriptor) + s.workers.countP (·.has .descriptor) := by
  induction hrun with
  | nil => rfl
  | @snoc acts outs s l s' o hrun _ hstep ih =>
    rw [List.countP_append, List.countP_append, List.countP_singleton, List.countP_singleton]
    rcases Server.step_cases hstep with ⟨b, rfl, hpoint, hmain, -⟩ |
      ⟨i, a, w, rfl, -, hw, hpoint, hworker, -⟩ | ⟨rfl, rfl, -⟩ | ⟨rfl, rfl, -⟩
    · have hworkers : s'.workers.countP (·.has .descriptor) = s.workers.countP (·.has .descriptor) := by
        rcases (mainStep_moves hpoint hmain).workers with heq | ⟨-, c, -, heq⟩
        · rw [heq]
        · rw [heq, List.countP_append, List.countP_singleton]
          rfl
      rw [hworkers]
      exact ih
    · obtain ⟨w', hmoves⟩ := workerStep_moves hpoint hworker
      have htakes : s.Takes k s' i w w' a := ⟨hw, hpoint, hworker, hmoves.get_self hw, hmoves⟩
      have howes := run_owes hrun hw
      have hadd := htakes.has_add howes.holds howes.closed .descriptor
      have hset := countP_set_add (·.has .descriptor) hw w'
      have hacq : (Label.worker i a).acquires .descriptor = a.acquires .descriptor := rfl
      have hrel : (Label.worker i a).releases .descriptor = a.releases .descriptor := rfl
      rw [hmoves.workers, hacq, hrel, ite_eq_toNat, ite_eq_toNat]
      omega
    · exact ih
    · exact ih

theorem openDescriptors_eq (hrun : (serverMachine k).Run guard .init acts outs s) :
    openDescriptors acts = s.workers.countP (·.has .descriptor) := by
  unfold openDescriptors
  rw [run_descriptors hrun]
  omega

/-- No worker finishes whose `open` gave it a descriptor. -/
def NoneFinishesOpen (acts : List Label) : Prop :=
  ∀ i fd, .worker i (.open fd) ∈ acts → .worker i .finish ∈ acts → fd = .bad

theorem has_descriptor_iff (hrun : (serverMachine k).Run guard .init acts outs s)
    (hw : s.workers[i]? = some w) :
    w.has .descriptor = false ↔ ∀ fd, .worker i (.open fd) ∈ acts → fd = .bad := by
  have hledger := (run_owes hrun hw).ledger .descriptor
  rw [released_descriptor, Nat.zero_add] at hledger
  rw [← acquired_descriptor_eq_zero, hledger]
  cases w.has .descriptor <;> simp

theorem openDescriptors_le (hrun : (serverMachine k).Run guard .init acts outs s)
    (hnone : NoneFinishesOpen acts) : openDescriptors acts ≤ s.workers.countP (!·.finished) := by
  rw [openDescriptors_eq hrun]
  refine List.countP_mono_left fun w hmem hhas => ?_
  obtain ⟨i, hi, rfl⟩ := List.getElem_of_mem hmem
  have hw := List.getElem?_eq_getElem hi
  have howes := run_owes hrun hw
  by_contra hfinished
  have hend : s.workers[i].point.hasFinished = true := by
    rw [← howes.holds.finished]
    simpa using hfinished
  have hfd : s.workers[i].fileFd ≠ .bad := by simpa [Worker.has] using hhas
  have hfinish := mem_actionsOf.1 ((howes.finish hend).resolve_right hfd)
  have hclosed := (has_descriptor_iff hrun hw).2 fun fd hopen => hnone i fd hopen hfinish
  rw [hclosed] at hhas
  cases hhas

theorem openDescriptors_le_iff (hrun : (serverMachine k).Run guard .init acts outs s)
    (hall : ∀ w ∈ s.workers, w.finished = true) :
    openDescriptors acts ≤ s.workers.countP (!·.finished) ↔ NoneFinishesOpen acts := by
  refine ⟨fun hle i fd hopen _ => ?_, openDescriptors_le hrun⟩
  have hzero : s.workers.countP (!·.finished) = 0 := by
    rw [List.countP_eq_zero]
    intro w hw
    simp [hall w hw]
  rw [hzero, openDescriptors_eq hrun, Nat.le_zero, List.countP_eq_zero] at hle
  have hi : i < s.workers.length := by
    by_contra hge
    have hmem := mem_actionsOf.2 hopen
    rw [(run_workers owes_start kept_owes hrun).silent i (not_lt.1 hge)] at hmem
    cases hmem
  have hw := List.getElem?_eq_getElem hi
  have hclosed : s.workers[i].has .descriptor = false := by
    simpa using hle _ (List.getElem_mem hi)
  exact (has_descriptor_iff hrun hw).1 hclosed fd hopen

theorem Point.freed_of_finished {p : Point} (hp : p.hasFinished = true) :
    p.holdsBuffer = false ∧ p.holdsFile = false := by
  have hall : p.hasFinished = true → p.holdsBuffer = false ∧ p.holdsFile = false := by
    cases p <;> decide
  exact hall hp

theorem Worker.Owes.balanced {actions : List Action} {received : List UInt8}
    (hw : w.Owes actions received) (hfinished : w.finished = true) (hr : r ≠ .descriptor)
    (hlist : r = .listMutex → w.point = .done) : Balanced r actions := by
  obtain ⟨hbuffer, hfile⟩ := Point.freed_of_finished (hw.holds.finished ▸ hfinished)
  have hnone : w.has r = false := by
    cases r with
    | buffer => exact hbuffer
    | descriptor => exact absurd rfl hr
    | fileMutex => exact hfile
    | listMutex =>
      unfold Worker.has
      rw [hlist rfl]
      rfl
  have hledger := hw.ledger r
  rw [hnone] at hledger
  refine ⟨hledger.symm, fun hkind => ?_⟩
  rcases hkind with rfl | rfl
  · have honce := hw.once
    split_ifs at honce <;> omega
  · exact absurd rfl hr

/-- **What a finished worker owes is its descriptor**: in every run, a finished worker has given back
everything exactly if no `open` of its gave it a descriptor, where `listMutex` counts as soon as the
thread has left its last critical section. The open descriptors are as many as the unfinished workers at
most as long as no worker finishes whose `open` gave it one; and when all workers have finished, only
then. -/
theorem resources_balanced_iff (hrun : (serverMachine k).Run guard .init acts outs s) :
    (∀ (i : ℕ) (w : Worker), s.workers[i]? = some w → w.finished = true →
      ((∀ r, (r = .listMutex → w.point = .done) → Balanced r (actionsOf acts i)) ↔
        ∀ fd, .worker i (.open fd) ∈ acts → fd = .bad)) ∧
    (NoneFinishesOpen acts → openDescriptors acts ≤ s.workers.countP (!·.finished)) ∧
    ((∀ w ∈ s.workers, w.finished = true) →
      (openDescriptors acts ≤ s.workers.countP (!·.finished) ↔ NoneFinishesOpen acts)) := by
  refine ⟨fun i w hw hfinished => ?_, openDescriptors_le hrun, openDescriptors_le_iff hrun⟩
  have howes := run_owes hrun hw
  rw [← acquired_descriptor_eq_zero]
  constructor
  · intro hall
    obtain ⟨heven, -⟩ := hall .descriptor (by simp)
    rw [← heven]
    exact released_descriptor _
  · intro hnone r hlist
    by_cases hr : r = .descriptor
    · subst hr
      refine ⟨?_, fun _ => by omega⟩
      rw [hnone]
      exact released_descriptor _
    · exact howes.balanced hfinished hr hlist

theorem resources_balanced_iff_no_descriptor : ∃ (acts : List Label) (outs : List Event) (s : Server),
    (serverMachine .x86).Run (fun _ _ => True) .init acts outs s ∧
      Balanced .descriptor (actionsOf acts 0) ∧ Balanced .buffer (actionsOf acts 0) ∧
      openDescriptors acts = 1 ∧ openDescriptors acts ≤ s.workers.countP (!·.finished) := by
  set acts : List Label := acceptOne ++ acceptOne ++ receiving 0 [some [97, 10]] ++
    [.lockOpen, .open .bad, .unlockOpen, .dispatch, .lockWrite, .write ⟨false, true, 0⟩, .lseek,
      .read ⟨false, 0⟩ none, .unlockWrite].map (.worker 0) ++ receiving 1 [some [98, 10]] ++
    writing 1 ++ finishing 0
  obtain ⟨⟨s, outs⟩, hexec, heval⟩ := Option.map_eq_some_iff.1
    (show ((serverMachine .x86).execGuarded (fun _ _ => True) .init acts).map
      (fun r => r.1.workers[0]?.map fun w => (w.point, w.finished)) = some (some (.done, true)) by
        decide +kernel)
  obtain ⟨w, hw, hstate⟩ := Option.map_eq_some_iff.1 heval
  obtain ⟨hpoint, hfinished⟩ := Prod.mk.inj hstate
  have hrun := Machine.Run.of_execGuarded hexec
  obtain ⟨hbalanced, hbound, -⟩ := resources_balanced_iff hrun
  have hnone : acquired .descriptor (actionsOf acts 0) = 0 := by decide +kernel
  have hall := (hbalanced 0 w hw hfinished).2 (acquired_descriptor_eq_zero.1 hnone)
  refine ⟨acts, outs, s, hrun, hall .descriptor (by simp), hall .buffer (by simp), by decide +kernel,
    hbound fun i fd hopen hfinish => ?_⟩
  obtain rfl : i = 0 := by simpa [acts, acceptOne, receiving, writing, finishing] using hfinish
  exact acquired_descriptor_eq_zero.1 hnone fd hopen

/-- One client sends a line and is answered: its descriptor stays open, with no worker left to use
it. -/
theorem descriptor_never_closed : ¬ ∀ (acts : List Label) (outs : List Event) (s : Server),
    (serverMachine .x86).Run (fun _ _ => True) .init acts outs s →
      (∀ (i : ℕ) (w : Worker), s.workers[i]? = some w → w.point = .done →
        ∀ r, Balanced r (actionsOf acts i)) ∧
      openDescriptors acts ≤ s.workers.countP (!·.finished) := by
  intro h
  obtain ⟨⟨s, outs⟩, hexec, heval⟩ := Option.map_eq_some_iff.1
    (show ((serverMachine .x86).execGuarded (fun _ _ => True) .init
      (acceptOne ++ receiving 0 [some [97, 10]] ++ writing 0 ++ answering 0 [2] ++ finishing 0)).map
        (fun r => r.1.workers[0]?.map (·.point)) = some (some .done) by decide +kernel)
  obtain ⟨w, hw, hpoint⟩ := Option.map_eq_some_iff.1 heval
  obtain ⟨hbalanced, -⟩ := h _ outs s (Machine.Run.of_execGuarded hexec)
  have hdescriptor := (hbalanced 0 w hw hpoint .descriptor).1
  exact absurd hdescriptor (by decide +kernel)

end AesdChar
