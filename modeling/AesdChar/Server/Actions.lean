import AesdChar.Server.Receiving

/-!
# What one worker does

The actions that one worker takes in a run, next to any other threads. Whatever holds of a fresh
worker, and survives each of its actions, holds of every worker in every run, together with the
actions it took and the bytes it received (`run_worker`). So the thread has its buffer from `malloc`
until it frees it, and has set `finished` when it leaves its last critical section (`run_holds_buffer`).
-/

namespace AesdChar
open CInt CString

variable {k : KernelLimits} {s s' : Server} {l : Label} {o : Event} {i : ℕ} {a : Action}
  {w w' : Worker} {acts : List Label} {outs : List Event} {guard : Server → Label → Prop}

/-- What worker `i` does in a step. -/
def Label.actionOf (i : ℕ) : Label → List Action
  | .worker j a => if j = i then [a] else []
  | _ => []

/-- The actions of worker `i` in a run. -/
def actionsOf (acts : List Label) (i : ℕ) : List Action := acts.flatMap (·.actionOf i)

theorem actionOf_worker (j : ℕ) (a : Action) (i : ℕ) :
    (Label.worker j a).actionOf i = if j = i then [a] else [] := rfl

theorem mem_actionsOf : a ∈ actionsOf acts i ↔ .worker i a ∈ acts := by
  unfold actionsOf
  rw [List.mem_flatMap]
  constructor
  · rintro ⟨l, hl, ha⟩
    cases l with
    | worker j b =>
      rw [actionOf_worker] at ha
      by_cases hj : j = i
      · subst hj
        rw [if_pos rfl, List.mem_singleton] at ha
        rwa [ha]
      · rw [if_neg hj] at ha
        cases ha
    | _ => cases ha
  · intro hmem
    refine ⟨_, hmem, ?_⟩
    rw [actionOf_worker, if_pos rfl]
    exact List.mem_singleton_self a

theorem actionsOf_concat (acts : List Label) (l : Label) (i : ℕ) :
    actionsOf (acts ++ [l]) i = actionsOf acts i ++ l.actionOf i := by
  unfold actionsOf
  rw [List.flatMap_append, List.flatMap_singleton]

/-! ### One worker among all threads -/

theorem Server.Moves.get_self (h : s.Moves k s' i w w' a) (hw : s.workers[i]? = some w) :
    s'.workers[i]? = some w' := by
  rw [h.workers]
  exact List.getElem?_set_self (List.getElem?_eq_some_iff.1 hw).1

/-- A step that worker `i` takes, from `w` to `w'`. -/
structure Server.Takes (k : KernelLimits) (s s' : Server) (i : ℕ) (w w' : Worker) (a : Action) :
    Prop where
  before : s.workers[i]? = some w
  point : w.point = a.point
  step : s.workerStep k i w a = some s'
  after : s'.workers[i]? = some w'
  moves : s.Moves k s' i w w' a

theorem Server.Takes.eq_of_set {u : Worker} (h : s.Takes k s' i w w' a)
    (hset : s'.workers = s.workers.set i u) : u = w' := by
  have hafter := h.after
  rw [hset, List.getElem?_set_self (List.getElem?_eq_some_iff.1 h.before).1] at hafter
  exact Option.some.inj hafter

theorem Server.Takes.local_step (h : s.Takes k s' i w w' a)
    (hlocal : (w.step s.running a).map (s.put i) = some s') : w.step s.running a = some w' := by
  obtain ⟨u, hu, hset⟩ := Option.map_eq_some_iff.1 hlocal
  have heq : u = w' := h.eq_of_set (by rw [← hset]; rfl)
  rwa [heq] at hu

/-- The actions of a worker keep the predicate, which takes in what it did and received so far. -/
def Kept (k : KernelLimits) (I : List Action → List UInt8 → Worker → Prop) : Prop :=
  ∀ ⦃actions : List Action⦄ ⦃received : List UInt8⦄ ⦃s s' : Server⦄ ⦃i : ℕ⦄ ⦃w w' : Worker⦄ ⦃a : Action⦄,
    s.Takes k s' i w w' a → I actions received w → w.Heard received →
      I (actions ++ [a]) (received ++ a.heard) w'

/-- Each worker satisfies the predicate, with what it did and what it received; the others did
nothing. -/
structure Server.Follows (I : List Action → List UInt8 → Worker → Prop) (acts : List Label)
    (outs : List Event) (s : Server) : Prop where
  heard : s.Heard outs
  worker : ∀ (i : ℕ) (w : Worker), s.workers[i]? = some w → I (actionsOf acts i) (receivedOn outs i) w
  silent : ∀ i, s.workers.length ≤ i → actionsOf acts i = []

section Rule
variable {I : List Action → List UInt8 → Worker → Prop}

theorem follows_of_same (hs : s.Follows I acts outs) (hheard : s'.Heard (outs ++ [o]))
    (hworkers : s'.workers = s.workers) (hacts : ∀ i, l.actionOf i = [])
    (houts : ∀ i, receivedOn (outs ++ [o]) i = receivedOn outs i) :
    s'.Follows I (acts ++ [l]) (outs ++ [o]) := by
  refine ⟨hheard, fun i w hw => ?_, fun i hi => ?_⟩
  · rw [actionsOf_concat, hacts, List.append_nil, houts]
    exact hs.worker i w (hworkers ▸ hw)
  · rw [actionsOf_concat, hacts, List.append_nil]
    exact hs.silent i (hworkers ▸ hi)

theorem follows_main {b : MainAction} (hstart : ∀ c, I [] [] (.start c)) (hs : s.Follows I acts outs)
    (hheard : s'.Heard (outs ++ [.quiet])) (h : s.MainMoves s') :
    s'.Follows I (acts ++ [.main b]) (outs ++ [.quiet]) := by
  have hacts : ∀ i, actionsOf (acts ++ [.main b]) i = actionsOf acts i := by
    intro i
    rw [actionsOf_concat]
    exact List.append_nil _
  refine ⟨hheard, fun i w hw => ?_, fun i hi => ?_⟩
  · rw [hacts, receivedOn_quiet]
    rcases h.worker_cases hw with hw | ⟨rfl, c, rfl⟩
    · exact hs.worker i w hw
    · rw [hs.silent _ (Nat.le_refl _), (hs.heard.silent _ (Nat.le_refl _)).1]
      exact hstart c
  · rw [hacts]
    exact hs.silent i (h.length_le.trans hi)

theorem follows_worker (hkept : Kept k I)
    (hs : s.Follows I acts outs) (hheard : s'.Heard (outs ++ [w.event a]))
    (h : s.Takes k s' i w w' a) : s'.Follows I (acts ++ [.worker i a]) (outs ++ [w.event a]) := by
  have hi : i < s.workers.length := (List.getElem?_eq_some_iff.1 h.before).1
  have hsocket := hs.heard.sockets.worker i w h.before
  refine ⟨hheard, fun j u hu => ?_, fun j hj => ?_⟩
  · rw [actionsOf_concat, actionOf_worker, receivedOn_event, hsocket]
    rw [h.moves.workers] at hu
    rcases getElem?_set_cases h.before hu with ⟨rfl, rfl⟩ | ⟨hij, hu⟩
    · rw [if_pos rfl, if_pos rfl]
      exact hkept h (hs.worker i w h.before) (hs.heard.worker i w h.before)
    · rw [if_neg hij, if_neg hij, List.append_nil, List.append_nil]
      exact hs.worker j u hu
  · rw [h.moves.workers, List.length_set] at hj
    rw [actionsOf_concat, actionOf_worker, if_neg (by omega), List.append_nil]
    exact hs.silent j hj

theorem run_workers (hstart : ∀ c, I [] [] (.start c)) (hkept : Kept k I)
    (hrun : (serverMachine k).Run guard .init acts outs s) : s.Follows I acts outs := by
  refine hrun.invariant (I := fun acts outs s => s.Follows I acts outs)
    ⟨heard_init, by simp [Server.init], fun _ _ => rfl⟩ ?_
  intro acts outs s l s' o hs _ h
  have hheard := step_heard_all hs.heard h
  rcases Server.step_cases h with ⟨b, rfl, hpoint, hmain, rfl⟩ |
    ⟨i, a, w, rfl, -, hw, hpoint, hworker, rfl⟩ | ⟨rfl, rfl, rfl⟩ | ⟨rfl, rfl, rfl⟩
  · exact follows_main hstart hs hheard (mainStep_moves hpoint hmain)
  · obtain ⟨w', hmoves⟩ := workerStep_moves hpoint hworker
    exact follows_worker hkept hs hheard ⟨hw, hpoint, hworker, hmoves.get_self hw, hmoves⟩
  · exact follows_of_same hs hheard rfl (fun _ => rfl) (receivedOn_quiet outs)
  · exact follows_of_same hs hheard rfl (fun _ => rfl) (receivedOn_quiet outs)

/-- **The rule for one worker**: what its own actions keep holds in every run. -/
theorem run_worker (hstart : ∀ c, I [] [] (.start c)) (hkept : Kept k I)
    (hrun : (serverMachine k).Run guard .init acts outs s) (hw : s.workers[i]? = some w) :
    I (actionsOf acts i) (receivedOn outs i) w :=
  (run_workers hstart hkept hrun).worker i w hw

end Rule

/-! ### Buffer and descriptor -/

/-- The points at which the thread has a buffer. -/
def Point.holdsBuffer : Point → Bool
  | .malloc | .lockList | .finish | .unlockList | .done => false
  | _ => true

/-- The descriptor that an action gives to the thread. -/
def Action.opened : Action → Option Fd
  | .open fd => some fd
  | _ => none

/-- The points behind `finished = FINISHED`. -/
def Point.hasFinished : Point → Bool
  | .unlockList | .done => true
  | _ => false

/-- An action behind which the thread has a buffer, and has finished, exactly if that was so before
it. -/
def Action.KeepsBuffer (a : Action) : Prop :=
  ∀ q ∈ a.point.next, q.holdsBuffer = a.point.holdsBuffer ∧ q.hasFinished = a.point.hasFinished

/-- The thread has a buffer, and has reported that it finished, exactly where its text says so. -/
structure Worker.Holds (w : Worker) : Prop where
  buffer : w.buffer.isSome = w.point.holdsBuffer
  finished : w.finished = w.point.hasFinished

theorem Worker.holds_start (c : ℕ) : (Worker.start c).Holds where
  buffer := rfl
  finished := rfl

theorem Worker.Holds.exists_buffer (hw : w.Holds) {p : Point} (hpoint : w.point = p)
    (hp : p.holdsBuffer = true) : ∃ b, w.buffer = some b := by
  apply Option.isSome_iff_exists.1
  rw [hw.buffer, hpoint, hp]

theorem step_holds {running : Bool} (hpoint : w.point = a.point) (hw : w.Holds)
    (h : w.step running a = some w') : w'.Holds ∧ w'.fileFd = a.opened.getD w.fileFd := by
  obtain ⟨hbuffer, hfinished⟩ := hw
  rw [hpoint] at hbuffer hfinished
  cases a with
  | malloc granted =>
    cases granted with
    | true =>
      obtain rfl := Option.some.inj h
      exact ⟨⟨rfl, hfinished⟩, rfl⟩
    | false =>
      obtain rfl := Option.some.inj h
      exact ⟨⟨hbuffer, rfl⟩, rfl⟩
  | checkRunning =>
    obtain rfl := Option.some.inj h
    cases running with
    | true => exact ⟨⟨hbuffer, hfinished⟩, rfl⟩
    | false => exact ⟨⟨hbuffer, hfinished⟩, rfl⟩
  | recv received =>
    cases received with
    | none =>
      obtain rfl := Option.some.inj h
      exact ⟨⟨hbuffer, hfinished⟩, rfl⟩
    | some xs =>
      obtain ⟨-, h⟩ := Option.ite_none_right_eq_some.1 h
      obtain ⟨b, -, h⟩ := Option.bind_eq_some_iff.1 h
      obtain ⟨b', -, h⟩ := Option.bind_eq_some_iff.1 h
      simp only at h
      split at h
      · obtain rfl := Option.some.inj h
        exact ⟨⟨rfl, hfinished⟩, rfl⟩
      · obtain ⟨text, -, rfl⟩ := Option.map_eq_some_iff.1 h
        split_ifs <;> exact ⟨⟨rfl, hfinished⟩, rfl⟩
  | realloc tail =>
    obtain ⟨b, -, h⟩ := Option.bind_eq_some_iff.1 h
    cases tail with
    | none =>
      obtain rfl := Option.some.inj h
      exact ⟨⟨rfl, rfl⟩, rfl⟩
    | some tail =>
      obtain ⟨-, h⟩ := Option.ite_none_right_eq_some.1 h
      obtain rfl := Option.some.inj h
      exact ⟨⟨rfl, hfinished⟩, rfl⟩
  | dispatch =>
    obtain ⟨b, -, h⟩ := Option.bind_eq_some_iff.1 h
    obtain ⟨text, -, rfl⟩ := Option.map_eq_some_iff.1 h
    split
    · exact ⟨⟨hbuffer, hfinished⟩, rfl⟩
    · split <;> exact ⟨⟨hbuffer, hfinished⟩, rfl⟩
  | seekSend sent =>
    cases sent with
    | none =>
      obtain rfl := Option.some.inj h
      exact ⟨⟨hbuffer, hfinished⟩, rfl⟩
    | some n =>
      obtain ⟨-, rfl⟩ := Option.ite_some_none_eq_some.1 h
      exact ⟨⟨hbuffer, hfinished⟩, rfl⟩
  | send sent =>
    cases sent with
    | none =>
      obtain rfl := Option.some.inj h
      exact ⟨⟨hbuffer, hfinished⟩, rfl⟩
    | some n =>
      obtain ⟨-, rfl⟩ := Option.ite_some_none_eq_some.1 h
      exact ⟨⟨hbuffer, hfinished⟩, rfl⟩
  | free =>
    obtain rfl := Option.some.inj h
    exact ⟨⟨rfl, hfinished⟩, rfl⟩
  | finish =>
    obtain rfl := Option.some.inj h
    exact ⟨⟨hbuffer, rfl⟩, rfl⟩
  | _ => cases h

/-- The worker has the same buffer as before, and the descriptor that the action gave. -/
structure Worker.SameBuffer (w w' : Worker) (a : Action) : Prop where
  buffer : w'.buffer = w.buffer
  finished : w'.finished = w.finished
  fileFd : w'.fileFd = a.opened.getD w.fileFd

theorem onDevice_sameBuffer {c : Call} {next : Reply → Worker} (hnext : ∀ r, w.SameBuffer (next r) a)
    (h : s.onDevice k i c next = some s') :
    ∃ w', s'.workers = s.workers.set i w' ∧ w.SameBuffer w' a := by
  obtain ⟨r, -, rfl⟩ := Option.map_eq_some_iff.1 h
  exact ⟨_, rfl, hnext r.2⟩

theorem readFile_sameBuffer {count : ℕ} {env : ReadEnv} {plain : Option (List UInt8)}
    {got stop : Point} (ha : a.opened = none) (h : s.readFile k i w count env plain got stop = some s') :
    ∃ w', s'.workers = s.workers.set i w' ∧ w.SameBuffer w' a := by
  have hstop : w.SameBuffer (w.goto stop) a := ⟨rfl, rfl, by rw [ha]; rfl⟩
  have hgot : ∀ data, w.SameBuffer { w with readBuffer := data, point := got } a :=
    fun data => ⟨rfl, rfl, by rw [ha]; rfl⟩
  unfold Server.readFile at h
  split at h
  · obtain rfl := Option.some.inj h
    exact ⟨_, rfl, hstop⟩
  · refine onDevice_sameBuffer (fun r => ?_) h
    split
    · exact hgot _
    · exact hstop
  · split at h
    · obtain rfl := Option.some.inj h
      exact ⟨_, rfl, hstop⟩
    · rename_i data
      obtain ⟨-, rfl⟩ := Option.ite_some_none_eq_some.1 h
      by_cases hnil : data = []
      · rw [if_pos hnil]
        exact ⟨_, rfl, hstop⟩
      · rw [if_neg hnil]
        exact ⟨_, rfl, hgot data⟩

theorem workerStep_buffer (h : s.workerStep k i w a = some s') :
    ∃ w', s'.workers = s.workers.set i w' ∧
      (w.step s.running a = some w' ∨ w.SameBuffer w' a ∧ a.KeepsBuffer) := by
  have hsame : (∃ w', s'.workers = s.workers.set i w' ∧ w.SameBuffer w' a) → a.KeepsBuffer →
      ∃ w', s'.workers = s.workers.set i w' ∧
        (w.step s.running a = some w' ∨ w.SameBuffer w' a ∧ a.KeepsBuffer) :=
    fun ⟨w', hworkers, hw'⟩ hkeeps => ⟨w', hworkers, Or.inr ⟨hw', hkeeps⟩⟩
  have hlocal : (w.step s.running a).map (s.put i) = some s' → ∃ w', s'.workers = s.workers.set i w' ∧
      (w.step s.running a = some w' ∨ w.SameBuffer w' a ∧ a.KeepsBuffer) := by
    intro h
    obtain ⟨w', hw', rfl⟩ := Option.map_eq_some_iff.1 h
    exact ⟨w', rfl, Or.inl hw'⟩
  have hgoto : ∀ q, a.opened = none → w.SameBuffer (w.goto q) a :=
    fun q ha => ⟨rfl, rfl, by rw [ha]; rfl⟩
  cases a with
  | lockOpen | unlockOpen | lockSeek | unlockSeek | lockWrite | unlockWrite | lockList | unlockList =>
    obtain ⟨-, rfl⟩ := Option.ite_some_none_eq_some.1 h
    refine hsame ⟨_, rfl, hgoto _ rfl⟩ ?_
    simp [Action.KeepsBuffer, Action.point, Point.next, Point.holdsBuffer, Point.hasFinished]
  | «open» fd =>
    refine hsame ?_ (by
      simp [Action.KeepsBuffer, Action.point, Point.next, Point.holdsBuffer, Point.hasFinished])
    have hopened : w.SameBuffer { w with fileFd := fd, point := .unlockOpen } (.open fd) :=
      ⟨rfl, rfl, rfl⟩
    cases fd with
    | bad =>
      obtain rfl := Option.some.inj h
      exact ⟨_, rfl, hopened⟩
    | device =>
      obtain ⟨-, h⟩ := Option.ite_none_right_eq_some.1 h
      exact onDevice_sameBuffer (fun _ => hopened) h
    | plain =>
      obtain ⟨-, h⟩ := Option.ite_none_left_eq_some.1 h
      obtain rfl := Option.some.inj h
      exact ⟨_, rfl, hopened⟩
  | ioctl env | lseek =>
    refine hsame ?_ (by
      simp [Action.KeepsBuffer, Action.point, Point.next, Point.holdsBuffer, Point.hasFinished])
    simp only [Server.workerStep, Server.ioctlFile, Server.seekFile] at h
    split at h
    · exact onDevice_sameBuffer (fun _ => hgoto _ rfl) h
    · obtain rfl := Option.some.inj h
      exact ⟨_, rfl, hgoto _ rfl⟩
  | seekRead env plain | read env plain =>
    refine hsame (readFile_sameBuffer rfl h) ?_
    simp [Action.KeepsBuffer, Action.point, Point.next, Point.holdsBuffer, Point.hasFinished]
  | write env =>
    refine hsame ?_ (by
      simp [Action.KeepsBuffer, Action.point, Point.next, Point.holdsBuffer, Point.hasFinished])
    simp only [Server.workerStep, Server.writeFile] at h
    split at h
    · exact onDevice_sameBuffer (fun _ => hgoto _ rfl) h
    · obtain ⟨-, h⟩ := Option.ite_none_left_eq_some.1 h
      obtain rfl := Option.some.inj h
      exact ⟨_, rfl, hgoto _ rfl⟩
    · obtain rfl := Option.some.inj h
      exact ⟨_, rfl, hgoto _ rfl⟩
  | _ => exact hlocal h

theorem Server.Takes.holds (h : s.Takes k s' i w w' a) (hw : w.Holds) :
    w'.Holds ∧ w'.fileFd = a.opened.getD w.fileFd := by
  obtain ⟨u, hworkers, hu⟩ := workerStep_buffer h.step
  obtain rfl := h.eq_of_set hworkers
  rcases hu with hstep | ⟨⟨hbuffer, hfinished, hfd⟩, hkeeps⟩
  · exact step_holds h.point hw hstep
  · have hnext := h.moves.next
    rw [h.point] at hnext
    obtain ⟨hsame, hsame'⟩ := hkeeps _ hnext
    refine ⟨⟨?_, ?_⟩, hfd⟩
    · rw [hbuffer, hw.buffer, h.point, hsame]
    · rw [hfinished, hw.finished, h.point, hsame']

theorem run_holds_buffer (hrun : (serverMachine k).Run guard .init acts outs s)
    (hw : s.workers[i]? = some w) : w.Holds :=
  run_worker (I := fun _ _ w => w.Holds) Worker.holds_start
    (fun _ _ _ _ _ _ _ _ h hw _ => (h.holds hw).1) hrun hw

end AesdChar
