import AesdChar.Driver.Accesses
import AesdChar.Driver.View

/-!
# The lock of the driver makes its calls atomic

`deviceMachine` takes one whole call at a time. `accessMachine` is the driver as it runs: the calls of
many handles next to each other, access by access (`Accesses`), in any order that the mutex allows.

A call that finds the mutex taken waits awake, as long as the one that has it runs, or goes to sleep. As
nothing calls `mutex_init`, the list of sleepers has no head, and `sleep` is an oops: the run ends there.

Up to that point every run is a run of `deviceMachine` (`linearizable`), in the order in which the calls
gave the lock back, with the same answers. So what holds of every run of whole calls holds of the
interleaved ones, and besides: one access at a time, and with the lock, and none without a meaning but
the one of the sleeper (`accesses_safe`); every call gets through as long as all wait awake
(`calls_finish`).
-/

namespace AesdChar
open BlockHeap

/-- The operations of `aesd_fops`, access by access. -/
def accessMonitor (k : KernelLimits) : Monitor Driver Call ℤ Reply where
  lock := deviceLock
  body c fPos := match c with
    | .open => return ⟨0, [], 0⟩
    | .release => return ⟨0, [], fPos⟩
    | .read count env => Accesses.aesdRead fPos count env
    | .write buf env => Accesses.aesdWrite k fPos buf env
    | .llseek offset whence interrupted => Accesses.aesdLlseek fPos offset whence interrupted
    | .ioctl cmd arg env => Accesses.aesdUnlockedIoctl fPos cmd arg env
  own := Reply.fPos

/-- What the call was told about its wait for the mutex. -/
def Call.interrupted : Call → Bool
  | .read _ env => env.interrupted
  | .write _ env => env.interrupted
  | .llseek _ _ interrupted => interrupted
  | .ioctl _ _ env => env.interrupted
  | .open | .release => false

namespace Interleaving

/-- The driver between two accesses, with the call each handle is in, and whether one has slept. -/
structure State where
  monitor : Monitor.State Driver Call ℤ Reply Handle
  oops : Bool

/-- A handle begins a call or goes on in it, awake; or it goes to sleep on the lock. -/
inductive Label
  | go (l : Monitor.Label Call Handle)
  | sleep (handle : Handle)

/-- The module is loaded and nobody is in a call. -/
def init : State := ⟨.start ⟨aesdInitModule, fun _ => 0⟩, false⟩

/-- The call of the handle finds the lock taken. -/
def State.Waits (s : State) (handle : Handle) : Prop :=
  s.monitor.shared.dev.lock = true ∧ ∃ op next, s.monitor.calls handle = some (op, .lock next)

instance (s : State) (handle : Handle) : Decidable (s.Waits handle) :=
  match h : s.monitor.calls handle with
  | some (op, .lock next) =>
    decidable_of_iff (s.monitor.shared.dev.lock = true)
      ⟨fun hlock => ⟨hlock, op, next, h⟩, fun hwaits => hwaits.1⟩
  | none | some (_, .ret _) | some (_, .fail) | some (_, .unlock _) | some (_, .access _ _) =>
    .isFalse (by simp [State.Waits, h])

/-- One access of one handle. Nothing that follows an oops has a meaning. -/
def State.step (k : KernelLimits) (s : State) : Label → Option (State × Option (Handle × Reply))
  | .go l => if s.oops then none else
      ((accessMonitor k).step s.monitor l).map fun r => (⟨r.1, false⟩, r.2)
  -- `__mutex_add_waiter` writes through the list head, which is zeroed
  | .sleep handle => if s.oops = false ∧ s.Waits handle then some ({ s with oops := true }, none)
      else none

/-- The calls that begin have arguments within their ranges and are not interrupted: the mutex looks for
signals only when a call is among its sleepers. -/
def Valid (k : KernelLimits) (_ : State) : Label → Prop
  | .go l => l.Begins fun c => c.Valid k ∧ c.interrupted = false
  | .sleep _ => True

instance (k : KernelLimits) (s : State) : (l : Label) → Decidable (Valid k s l)
  | .go l => inferInstanceAs (Decidable (l.Begins _))
  | .sleep _ => inferInstanceAs (Decidable True)

def accessMachine (k : KernelLimits) : Machine State Label (Option (Handle × Reply)) := ⟨State.step k⟩

/-- What a label does to the monitor. -/
def Label.going : Label → List (Monitor.Label Call Handle)
  | .go l => [l]
  | .sleep _ => []

/-- The calls of a run, in the order in which they gave the lock back; a call that needs no lock stands
where it began. -/
def calls (k : KernelLimits) (acts : List Label) : List (Handle × Call) :=
  (accessMonitor k).linearized init.monitor (acts.flatMap Label.going)

variable {k : KernelLimits} {s s' : State} {l : Label} {o : Option (Handle × Reply)} {acts : List Label}
  {outs : List (Option (Handle × Reply))}

/-! ### The monitor inside -/

theorem step_cases (h : (accessMachine k).step s l = some (s', o)) : s.oops = false ∧
    ((∃ l', l = .go l' ∧ (accessMonitor k).step s.monitor l' = some (s'.monitor, o) ∧ s'.oops = false) ∨
      ∃ handle, l = .sleep handle ∧ s.Waits handle ∧ s' = { s with oops := true } ∧ o = none) := by
  cases l with
  | go l =>
    obtain ⟨hawake, h⟩ := Option.ite_none_left_eq_some.1
      (show (if s.oops = true then none else _) = some (s', o) from h)
    obtain ⟨r, hr, hrs⟩ := Option.map_eq_some_iff.1 h
    obtain ⟨rfl, rfl⟩ := Prod.mk.inj hrs
    exact ⟨Bool.not_eq_true _ ▸ hawake, .inl ⟨l, rfl, hr, rfl⟩⟩
  | sleep handle =>
    obtain ⟨⟨hawake, hwaits⟩, h⟩ := Option.ite_none_right_eq_some.1
      (show (if s.oops = false ∧ s.Waits handle then _ else none) = some (s', o) from h)
    obtain ⟨rfl, rfl⟩ := Prod.mk.inj (Option.some.inj h)
    exact ⟨hawake, .inr ⟨handle, rfl, hwaits, rfl, rfl⟩⟩

/-- A run is one of the monitor, with the same answers, up to a call that goes to sleep. -/
theorem monitor_run (hrun : (accessMachine k).Run (Valid k) init acts outs s) :
    (∃ outs', (accessMonitor k).machine.Run (fun _ l => l.Begins fun c => c.Valid k ∧ c.interrupted = false)
      init.monitor (acts.flatMap Label.going) outs' s.monitor ∧
      ∀ handle, Monitor.answers outs handle = Monitor.answers outs' handle) ∧
      (s.oops = true ↔ ∃ handle, .sleep handle ∈ acts) := by
  induction hrun with
  | nil => exact ⟨⟨[], .nil, fun _ => rfl⟩, by simp [init]⟩
  | @snoc acts outs s l s' o _ hvalid hstep ih =>
    obtain ⟨⟨outs', hrun, hanswers⟩, hoops⟩ := ih
    obtain ⟨hawake, ⟨l', rfl, hgo, hawake'⟩ | ⟨handle, rfl, -, rfl, rfl⟩⟩ := step_cases hstep
    · have hnone : ¬ ∃ handle, Label.sleep handle ∈ acts := fun h => by
        rw [hoops.2 h] at hawake
        cases hawake
      refine ⟨⟨outs' ++ [o], ?_, fun handle => ?_⟩, by simpa [hawake'] using hnone⟩
      · rw [List.flatMap_append]
        exact hrun.snoc hvalid hgo
      · rw [Monitor.answers_concat, Monitor.answers_concat, hanswers]
    · refine ⟨⟨outs', ?_, fun handle' => ?_⟩, by simp⟩
      · rw [List.flatMap_append]
        simpa [Label.going] using hrun
      · rw [Monitor.answers_concat, hanswers]
        simp [Monitor.answers, Monitor.answered]

/-- Where nobody has slept, what the monitor can do the driver can do, awake. -/
theorem go_run {guard : Monitor.State Driver Call ℤ Reply Handle → Monitor.Label Call Handle → Prop}
    {m m' : Monitor.State Driver Call ℤ Reply Handle} {acts : List (Monitor.Label Call Handle)}
    (hrun : (accessMonitor k).machine.Run guard m acts outs m') :
    (accessMachine k).Run (fun s l => ∃ l', l = .go l' ∧ guard s.monitor l') ⟨m, false⟩ (acts.map .go) outs
      ⟨m', false⟩ := by
  induction hrun with
  | nil => exact .nil
  | @snoc acts outs m l m' o _ hguard hstep ih =>
    rw [List.map_append]
    refine ih.snoc ⟨l, rfl, hguard⟩ ?_
    show (if false = true then none else ((accessMonitor k).step m l).map _) = _
    rw [show (accessMonitor k).step m l = some (m', o) from hstep]
    rfl

/-! ### The bodies keep to the lock -/

theorem bracketed : (accessMonitor k).Bracketed := by
  intro c fPos
  cases c with
  | «open» => trivial
  | release => trivial
  | read count env =>
    show (Accesses.aesdRead fPos count env).Outside deviceLock
    unfold Accesses.aesdRead
    split
    · trivial
    · exact (Accesses.lockless_readLocked _ _ _).outside _
  | write buf env =>
    show (Accesses.aesdWrite k fPos buf env).Outside deviceLock
    unfold Accesses.aesdWrite
    split
    · trivial
    · exact (Accesses.lockless_writeLocked _ _ _).outside _
  | llseek offset whence interrupted =>
    show (Accesses.aesdLlseek fPos offset whence interrupted).Outside deviceLock
    rcases whence with _ | _ | _ | whence
    · trivial
    · trivial
    · simp only [Accesses.aesdLlseek]
      split
      · trivial
      · exact (Accesses.lockless_totalSize _).outside _
    · trivial
  | ioctl cmd arg env =>
    show (Accesses.aesdUnlockedIoctl fPos cmd arg env).Outside deviceLock
    unfold Accesses.aesdUnlockedIoctl
    split
    · trivial
    split
    · trivial
    split
    · trivial
    split
    · trivial
    · exact (Accesses.lockless_totalSize _).outside _

/-- The state of `deviceMachine` that an atomic state is. -/
def system (t : Monitor.Atomic Driver ℤ Handle) : System := ⟨t.shared, t.own⟩

theorem atomicStep_eq (t : Monitor.Atomic Driver ℤ Handle) (a : Handle × Call) :
    (accessMonitor k).atomicStep t a =
      ((system t).step k a).map fun r => (⟨r.1.driver, r.1.fPos⟩, r.2) := by
  obtain ⟨d, fPos⟩ := t
  obtain ⟨handle, c⟩ := a
  cases c with
  | «open» => rfl
  | release => rfl
  | read count env =>
    simp only [Monitor.atomicStep, accessMonitor, Accesses.run_aesdRead, System.step, system,
      Option.map_map]
    rfl
  | write buf env =>
    simp only [Monitor.atomicStep, accessMonitor, Accesses.run_aesdWrite, System.step, system,
      Option.map_map]
    rfl
  | llseek offset whence interrupted =>
    simp only [Monitor.atomicStep, accessMonitor, Accesses.run_aesdLlseek, System.step, system,
      Option.map_map]
    rfl
  | ioctl cmd arg env =>
    simp only [Monitor.atomicStep, accessMonitor, Accesses.run_aesdUnlockedIoctl, System.step, system,
      Option.map_map]
    rfl

/-! ### Every run is one of whole calls -/

/-- The accesses do what whole calls do on `deviceMachine`, in the order `calls`: each handle was answered
what its calls give there, the handles that are in no call have the positions from there, and with the
lock free the driver is the one from there. -/
def Linearizes (k : KernelLimits) (acts : List Label) (outs : List (Option (Handle × Reply)))
    (s : State) : Prop :=
  ∃ rs t, (deviceMachine k).Run (fun _ a => a.2.Valid k) .init (calls k acts) rs t ∧
    (∀ handle, Monitor.answers outs handle ++ Monitor.left (s.monitor.calls handle) =
      Monitor.results (calls k acts) rs handle) ∧
    (∀ handle, s.monitor.calls handle = none → s.monitor.own handle = t.fPos handle) ∧
    (s.monitor.shared.dev.lock = false → s.monitor.shared = t.driver)

/-- **The driver is linearizable**: every run of its accesses, however they are interleaved, is a run of
whole calls, to its end or to the call that goes to sleep. -/
theorem linearizable (hrun : (accessMachine k).Run (Valid k) init acts outs s) :
    Linearizes k acts outs s := by
  have hfree : (accessMonitor k).lock.held
      (⟨aesdInitModule, fun _ => 0⟩ : Monitor.Atomic Driver ℤ Handle).shared = false := rfl
  obtain ⟨⟨outs', hmonitor, hsame⟩, -⟩ := monitor_run hrun
  obtain ⟨rs, t, hatomic, hsim, hanswers⟩ := Monitor.linearization bracketed hfree hmonitor
  have hdevice : ∃ t', (deviceMachine k).Run (fun _ a => a.2.Valid k) .init (calls k acts) rs t' ∧
      t' = system t := by
    refine hatomic.simulate (R := fun t t' => t' = system t) ?_ rfl
    rintro t t' a t₁ o rfl hvalid hstep
    have heq := atomicStep_eq (k := k) t a
    rw [show (accessMonitor k).atomicStep t a = some (t₁, o) from hstep] at heq
    obtain ⟨r, hr, hrt⟩ := Option.map_eq_some_iff.1 heq.symm
    obtain ⟨rfl, rfl⟩ := Prod.mk.inj hrt
    exact ⟨r.1, hvalid.1, hr, rfl⟩
  obtain ⟨t', hdevice, rfl⟩ := hdevice
  refine ⟨rs, _, hdevice, fun handle => (hsame handle).symm ▸ hanswers handle, fun handle hidle => ?_,
    fun hfree => ?_⟩
  · have hout : ∀ op p, s.monitor.calls handle = some (op, p) → ¬ p.Inside deviceLock := by
      intro op p hp
      rw [hidle] at hp
      cases hp
    cases hsim.calm hout with
    | idle _ hown => exact hown
    | waits hcall => simp [hidle] at hcall
    | leaves hcall => simp [hidle] at hcall
  · cases hsim with
    | free _ hshared => exact hshared
    | held u hlock =>
      have hheld : s.monitor.shared.dev.lock = true := hlock
      rw [hfree] at hheld
      cases hheld

/-- A write takes the lock, and a read begins and finds it taken. -/
def contended : List Label :=
  .go (.call 0 (.write [97, 10] ⟨false, true, 0⟩)) :: List.replicate 12 (.go (.step 0)) ++
    [.go (.call 1 (.read 5 ⟨false, 0⟩))]

/-- The read waits awake, and both return. -/
def overlapping : List Label :=
  contended ++ List.replicate 17 (.go (.step 0)) ++ List.replicate 9 (.go (.step 1))

theorem linearizable_overlapping : ∃ s outs,
    (accessMachine .x86).Run (Valid .x86) init overlapping outs s ∧ Linearizes .x86 overlapping outs s ∧
      calls .x86 overlapping = [(0, .write [97, 10] ⟨false, true, 0⟩), (1, .read 5 ⟨false, 0⟩)] ∧
      Monitor.answers outs 1 = [⟨2, [97, 10], 2⟩] := by
  have hexec : ((accessMachine .x86).execGuarded (Valid .x86) init overlapping).map
      (fun r => Monitor.answers r.2 1) = some [⟨2, [97, 10], 2⟩] := by decide +kernel
  obtain ⟨⟨s, outs⟩, hexec, hanswers⟩ := Option.map_eq_some_iff.1 hexec
  have hrun := Machine.Run.of_execGuarded hexec
  exact ⟨s, outs, hrun, linearizable hrun, by decide +kernel, hanswers⟩

/-! ### What holds between two accesses -/

theorem keeps : (accessMonitor k).Keeps (fun c => c.Valid k ∧ c.interrupted = false)
    fun t : Monitor.Atomic Driver ℤ Handle => ∃ v, (system t).Represents k v := by
  rintro t a ⟨v, hv⟩ ⟨hvalid, -⟩
  obtain ⟨t', hstep, hrep, -⟩ := step_refines hv a.1 hvalid
  exact ⟨⟨t'.driver, t'.fPos⟩, _, by rw [atomicStep_eq, hstep]; rfl, _, hrep⟩

theorem safe (hrun : (accessMachine k).Run (Valid k) init acts outs s) :
    (accessMonitor k).Safe (fun c => c.Valid k ∧ c.interrupted = false)
      (fun t => ∃ v, (system t).Represents k v) s.monitor := by
  obtain ⟨⟨outs', hmonitor, -⟩, -⟩ := monitor_run hrun
  exact (Monitor.safe_start ⟨.init, System.represents_init⟩ rfl).run bracketed keeps hmonitor

/-- **No races, one wrong access**: between any two accesses at most one handle is about to access the
device, and it has the lock; no handle has met behaviour without a meaning in its own accesses; while the
lock is free, the ring and the pending entry are in order; and the driver has gone wrong exactly when a
call went to sleep, which only a call does that another one keeps waiting. -/
theorem accesses_safe (hrun : (accessMachine k).Run (Valid k) init acts outs s) :
    (∀ h h', s.monitor.Touches h → s.monitor.Touches h' → h = h' ∧ s.monitor.shared.dev.lock = true) ∧
      (∀ h c p, s.monitor.calls h = some (c, p) → p ≠ .fail) ∧
      (s.monitor.shared.dev.lock = false → ∃ v, Represents k s.monitor.shared v) ∧
      (s.oops = true ↔ ∃ h, .sleep h ∈ acts) ∧
      ∀ h, s.Waits h → ∃ h', h' ≠ h ∧ s.monitor.Touches h' := by
  have hsafe := safe hrun
  obtain ⟨-, t, ⟨v, hv⟩, hsim⟩ := id hsafe
  refine ⟨fun h h' => hsim.touches_unique, fun h c p => hsafe.not_fail keeps, fun hfree => ⟨v, ?_⟩,
    (monitor_run hrun).2, ?_⟩
  · cases hsim with
    | free _ hshared => exact hshared ▸ hv.driver
    | held u hlock =>
      have hheld : s.monitor.shared.dev.lock = true := hlock
      rw [hfree] at hheld
      cases hheld
  · rintro h ⟨hlock, op, next, hcall⟩
    exact hsim.kept hlock hcall

theorem accesses_safe_contended : ∃ s outs,
    (accessMachine .x86).Run (Valid .x86) init (contended ++ [.sleep 1]) outs s ∧ s.Waits 1 ∧
      s.oops = true ∧ ∃ h', h' ≠ 1 ∧ s.monitor.Touches h' := by
  have hexec : ((accessMachine .x86).execGuarded (Valid .x86) init (contended ++ [.sleep 1])).map
      (fun r => decide (r.1.Waits 1)) = some true := by decide +kernel
  obtain ⟨⟨s, outs⟩, hexec, hwaits⟩ := Option.map_eq_some_iff.1 hexec
  have hrun := Machine.Run.of_execGuarded hexec
  have hwaits := of_decide_eq_true hwaits
  obtain ⟨-, -, -, hoops, hkept⟩ := accesses_safe hrun
  exact ⟨s, outs, hrun, hwaits, hoops.2 ⟨1, by simp⟩, hkept 1 hwaits⟩

/-- The calls that have begun go on, and those that wait do so awake. -/
def GoesOn (_ : State) (l : Label) : Prop := ∃ h, l = .go (.step h)

theorem goesOn_run {m m' : Monitor.State Driver Call ℤ Reply Handle}
    {acts : List (Monitor.Label Call Handle)}
    (hrun : (accessMonitor k).machine.Run Monitor.GoesOn m acts outs m') :
    (accessMachine k).Run GoesOn ⟨m, false⟩ (acts.map .go) outs ⟨m', false⟩ := by
  refine (go_run hrun).mono ?_
  rintro s l ⟨l', rfl, h, rfl⟩
  exact ⟨h, rfl⟩

/-- **Every call gets through, awake**: as long as nobody has gone to sleep, the handle that has the lock
gives it back and returns in steps of its own, whatever the others are in the middle of, and the calls
that have begun can go on so that a given one returns. -/
theorem calls_finish (hs : (accessMachine k).Reachable (Valid k) init s) (hawake : s.oops = false) :
    (s.monitor.shared.dev.lock = true → ∃ h acts outs s', (accessMachine k).Run GoesOn s acts outs s' ∧
      (∀ l ∈ acts, l = .go (.step h)) ∧ s'.monitor.shared.dev.lock = false ∧
        s'.monitor.calls h = none ∧ ∀ h', h' ≠ h → s'.monitor.calls h' = s.monitor.calls h') ∧
      ∀ h, ∃ acts outs s', (accessMachine k).Run GoesOn s acts outs s' ∧ s'.monitor.calls h = none := by
  obtain ⟨acts, outs, hrun⟩ := hs
  have hsafe := safe hrun
  obtain ⟨m, oops⟩ := s
  obtain rfl : oops = false := hawake
  refine ⟨fun hlock => ?_, fun h => ?_⟩
  · obtain ⟨h, acts, outs, m', hrun, hacts, hfree, hidle, hothers⟩ := hsafe.released keeps hlock
    refine ⟨h, _, outs, _, goesOn_run hrun, ?_, hfree, hidle, hothers⟩
    intro l hl
    obtain ⟨l', hl', rfl⟩ := List.mem_map.1 hl
    rw [hacts l' hl']
  · obtain ⟨acts, outs, m', hrun, hidle⟩ := hsafe.finishes bracketed keeps h
    exact ⟨_, outs, _, goesOn_run hrun, hidle⟩

theorem calls_finish_contended : ∃ s, (accessMachine .x86).Reachable (Valid .x86) init s ∧ s.Waits 1 ∧
    ∃ acts outs s', (accessMachine .x86).Run GoesOn s acts outs s' ∧ s'.monitor.calls 1 = none := by
  have hexec : ((accessMachine .x86).execGuarded (Valid .x86) init contended).map
      (fun r => (decide (r.1.Waits 1), r.1.oops)) = some (true, false) := by decide +kernel
  obtain ⟨⟨s, outs⟩, hexec, hboth⟩ := Option.map_eq_some_iff.1 hexec
  obtain ⟨hwaits, hawake⟩ := Prod.mk.inj hboth
  have hreach : (accessMachine .x86).Reachable (Valid .x86) init s :=
    ⟨_, _, Machine.Run.of_execGuarded hexec⟩
  exact ⟨s, hreach, of_decide_eq_true hwaits, (calls_finish hreach hawake).2 1⟩

end Interleaving

end AesdChar
