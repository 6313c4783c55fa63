import AesdChar.Base.Machine
import AesdChar.Base.Prog
import Mathlib.Logic.Function.Basic

/-!
# Monitors

Threads that share a state under a lock. A `Monitor` has a program for each operation, and each thread
keeps a state of its own between its calls. In the machine of the monitor the threads take turns access
by access; in its atomic machine a call is one step.

When every program takes the lock before its first access, gives it back behind its last and takes it no
second time (`Bracketed`), each interleaving of the accesses is a run of the atomic machine: the calls one
after the other, in the order in which they gave the lock back (`linearization`). When besides every call
has a meaning where an invariant of the atomic machine holds (`Keeps`), no two threads are ever about to
access the state together (`Simulates.touches_unique`), no thread meets behaviour without a meaning
(`Safe.not_fail`), the lock is always given back (`Safe.released`) and every call can be finished
(`Safe.finishes`).
-/

/-- Operations `ι` on a shared state, for threads that keep a state `π` of their own: the program of
each operation, and what the thread keeps of its result. -/
structure Monitor (σ ι π ρ : Type) where
  lock : LockIn σ
  body : ι → π → Prog σ ρ
  own : ρ → π

namespace Monitor
variable {σ ι π ρ θ : Type} [DecidableEq θ] (m : Monitor σ ι π ρ)

/-- Every program returns at once, or does all its accesses with the lock. -/
def Bracketed : Prop := ∀ op p, (m.body op p).Outside m.lock

/-! ### The two machines -/

/-- The shared state between two accesses, and the call that each thread is in. -/
structure State (σ ι π ρ θ : Type) where
  shared : σ
  own : θ → π
  calls : θ → Option (ι × Prog σ ρ)

/-- A thread begins a call, or goes on in it. -/
inductive Label (ι θ : Type)
  | call (t : θ) (op : ι)
  | step (t : θ)

/-- The operations that calls begin are `ok`. -/
def Label.Begins (ok : ι → Prop) : Label ι θ → Prop
  | .call _ op => ok op
  | .step _ => True

instance (ok : ι → Prop) [DecidablePred ok] : (l : Label ι θ) → Decidable (l.Begins ok)
  | .call _ op => inferInstanceAs (Decidable (ok op))
  | .step _ => inferInstanceAs (Decidable True)

variable (s : State σ ι π ρ θ)

/-- Thread `t` goes on with `c`. -/
def State.put (t : θ) (c : Option (ι × Prog σ ρ)) : State σ ι π ρ θ :=
  { s with calls := Function.update s.calls t c }

/-- One access of one thread, with the result when its call returns. -/
def step : Label ι θ → Option (State σ ι π ρ θ × Option (θ × ρ))
  | .call t op =>
    match s.calls t with
    | none => some (s.put t (some (op, m.body op (s.own t))), none)
    | some _ => none
  | .step t =>
    match s.calls t with
    | none => none
    | some (op, p) =>
      match p with
      | .ret r => some ({ s with own := Function.update s.own t (m.own r) }.put t none, some (t, r))
      | .fail => none
      | .lock next =>
        if m.lock.held s.shared then none
        else some ({ s with shared := m.lock.set true s.shared }.put t (some (op, next)), none)
      | .unlock next =>
        some ({ s with shared := m.lock.set false s.shared }.put t (some (op, next)), none)
      | .access f next =>
        some ({ s with shared := f s.shared }.put t (some (op, next s.shared)), none)

def machine : Machine (State σ ι π ρ θ) (Label ι θ) (Option (θ × ρ)) := ⟨m.step⟩

/-- The shared state and what the threads keep, when no call is on its way. -/
structure Atomic (σ π θ : Type) where
  shared : σ
  own : θ → π

/-- A whole call of one thread. -/
def atomicStep (t : Atomic σ π θ) (a : θ × ι) : Option (Atomic σ π θ × ρ) :=
  ((m.body a.2 (t.own a.1)).run m.lock t.shared).map fun r =>
    (⟨r.2, Function.update t.own a.1 (m.own r.1)⟩, r.1)

def atomic : Machine (Atomic σ π θ) (θ × ι) ρ := ⟨m.atomicStep⟩

/-- Nobody is in a call. -/
def State.start (t : Atomic σ π θ) : State σ ι π ρ θ := ⟨t.shared, t.own, fun _ => none⟩

/-! ### What an observer notes -/

/-- The call that takes effect in a step: one that gives the lock back, or one that begins and needs no
lock. -/
def effects : Label ι θ → List (θ × ι)
  | .call t op =>
    match m.body op (s.own t) with
    | .ret _ => [(t, op)]
    | _ => []
  | .step t =>
    match s.calls t with
    | some (op, .unlock _) => [(t, op)]
    | _ => []

/-- The calls of a run, in the order in which they take effect. -/
def linearized (init : State σ ι π ρ θ) (acts : List (Label ι θ)) : List (θ × ι) :=
  m.machine.collect m.effects init acts

/-- What a step answers to thread `t`. -/
def answered (t : θ) : Option (θ × ρ) → List ρ
  | some (u, r) => if u = t then [r] else []
  | none => []

/-- The results that thread `t` got. -/
def answers (outs : List (Option (θ × ρ))) (t : θ) : List ρ := outs.flatMap (answered t)

theorem answers_concat (outs : List (Option (θ × ρ))) (o : Option (θ × ρ)) (t : θ) :
    answers (outs ++ [o]) t = answers outs t ++ answered t o := by
  rw [answers, List.flatMap_append, List.flatMap_singleton]
  rfl

/-- The results of the calls of thread `t`. -/
def results (calls : List (θ × ι)) (rs : List ρ) (t : θ) : List ρ :=
  (calls.zip rs).flatMap fun p => if p.1.1 = t then [p.2] else []

/-- The result that a call has and has not given to its thread. -/
def left : Option (ι × Prog σ ρ) → List ρ
  | some (_, .ret r) => [r]
  | _ => []

/-! ### One step -/

variable {m s} {s' : State σ ι π ρ θ} {t t' : Atomic σ π θ} {l : Label ι θ} {o : Option (θ × ρ)} {u : θ}
  {op : ι} {p : Prog σ ρ}

/-- What a step can be. -/
inductive Stepped (m : Monitor σ ι π ρ) (s : State σ ι π ρ θ) :
    Label ι θ → State σ ι π ρ θ → Option (θ × ρ) → Prop
  | call {u : θ} {op : ι} (hcall : s.calls u = none) :
      Stepped m s (.call u op) (s.put u (some (op, m.body op (s.own u)))) none
  | ret {u : θ} {op : ι} {r : ρ} (hcall : s.calls u = some (op, .ret r)) :
      Stepped m s (.step u) ({ s with own := Function.update s.own u (m.own r) }.put u none)
        (some (u, r))
  | lock {u : θ} {op : ι} {next : Prog σ ρ} (hcall : s.calls u = some (op, .lock next))
      (hfree : m.lock.held s.shared = false) :
      Stepped m s (.step u) ({ s with shared := m.lock.set true s.shared }.put u (some (op, next))) none
  | unlock {u : θ} {op : ι} {next : Prog σ ρ} (hcall : s.calls u = some (op, .unlock next)) :
      Stepped m s (.step u) ({ s with shared := m.lock.set false s.shared }.put u (some (op, next))) none
  | access {u : θ} {op : ι} {f : σ → σ} {next : σ → Prog σ ρ}
      (hcall : s.calls u = some (op, .access f next)) :
      Stepped m s (.step u) ({ s with shared := f s.shared }.put u (some (op, next s.shared))) none

theorem stepped_of_step (h : m.step s l = some (s', o)) : Stepped m s l s' o := by
  cases l with
  | call u op =>
    cases hcall : s.calls u with
    | none =>
      simp only [step, hcall, Option.some.injEq, Prod.mk.injEq] at h
      obtain ⟨rfl, rfl⟩ := h
      exact .call hcall
    | some c => simp [step, hcall] at h
  | step u =>
    cases hcall : s.calls u with
    | none => simp [step, hcall] at h
    | some c =>
      obtain ⟨op, p⟩ := c
      cases p with
      | ret r =>
        simp only [step, hcall, Option.some.injEq, Prod.mk.injEq] at h
        obtain ⟨rfl, rfl⟩ := h
        exact .ret hcall
      | fail => simp [step, hcall] at h
      | lock next =>
        simp only [step, hcall] at h
        obtain ⟨hfree, h⟩ := Option.ite_none_left_eq_some.1 h
        obtain ⟨rfl, rfl⟩ := Prod.mk.inj (Option.some.inj h)
        exact .lock hcall (Bool.not_eq_true _ ▸ hfree)
      | unlock next =>
        simp only [step, hcall, Option.some.injEq, Prod.mk.injEq] at h
        obtain ⟨rfl, rfl⟩ := h
        exact .unlock hcall
      | access f next =>
        simp only [step, hcall, Option.some.injEq, Prod.mk.injEq] at h
        obtain ⟨rfl, rfl⟩ := h
        exact .access hcall

/-! ### The simulation -/

section Simulation
omit [DecidableEq θ]

/-- The thread is not in a call, waits for the lock, or has the result of a call that took effect. -/
inductive Calm (m : Monitor σ ι π ρ) (s : State σ ι π ρ θ) (t : Atomic σ π θ) (u : θ) : Prop
  | idle (hcall : s.calls u = none) (hown : s.own u = t.own u)
  | waits {op : ι} {next : Prog σ ρ} (hcall : s.calls u = some (op, .lock next))
      (hbody : m.body op (s.own u) = .lock next) (hown : s.own u = t.own u)
  | leaves {op : ι} {r : ρ} (hcall : s.calls u = some (op, .ret r)) (hown : t.own u = m.own r)

/-- The thread has the lock, and what is left of its call does now what the whole call does in the
atomic state. -/
def Works (m : Monitor σ ι π ρ) (s : State σ ι π ρ θ) (t : Atomic σ π θ) (u : θ) : Prop :=
  ∃ op p, s.calls u = some (op, p) ∧ p.Inside m.lock ∧ s.own u = t.own u ∧
    p.run m.lock s.shared = (m.body op (t.own u)).run m.lock t.shared

/-- The lock is free and the shared state is the atomic one, or one thread works on it. -/
inductive Simulates (m : Monitor σ ι π ρ) (s : State σ ι π ρ θ) (t : Atomic σ π θ) : Prop
  | free (hlock : m.lock.held s.shared = false) (hshared : s.shared = t.shared)
      (hcalm : ∀ u, Calm m s t u)
  | held (u : θ) (hlock : m.lock.held s.shared = true) (hfree : m.lock.held t.shared = false)
      (hworks : Works m s t u) (hcalm : ∀ v, v ≠ u → Calm m s t v)

theorem simulates_start (hfree : m.lock.held t.shared = false) :
    Simulates m (State.start t : State σ ι π ρ θ) t :=
  .free hfree rfl fun _ => .idle rfl rfl

theorem Calm.congr (h : Calm m s t u) (hcalls : s'.calls u = s.calls u) (hown : s'.own u = s.own u)
    (hown' : t'.own u = t.own u) : Calm m s' t' u := by
  cases h with
  | idle hcall ho => exact .idle (hcalls.trans hcall) (by rw [hown, hown', ho])
  | waits hcall hbody ho =>
    exact .waits (hcalls.trans hcall) (by rw [hown]; exact hbody) (by rw [hown, hown', ho])
  | leaves hcall ho => exact .leaves (hcalls.trans hcall) (hown'.trans ho)

theorem Works.congr (h : Works m s t u) (hcalls : s'.calls u = s.calls u) (hown : s'.own u = s.own u)
    (hshared : s'.shared = s.shared) (hown' : t'.own u = t.own u) (hshared' : t'.shared = t.shared) :
    Works m s' t' u := by
  obtain ⟨op, p, hcall, hin, ho, hrun⟩ := h
  refine ⟨op, p, hcalls.trans hcall, hin, by rw [hown, hown', ho], ?_⟩
  rw [hshared, hown', hshared']
  exact hrun

theorem Simulates.calm (hs : Simulates m s t) (hu : ∀ op p, s.calls u = some (op, p) → ¬ p.Inside m.lock) :
    Calm m s t u := by
  cases hs with
  | free _ _ hcalm => exact hcalm u
  | held v _ _ hworks hcalm =>
    refine hcalm u ?_
    rintro rfl
    obtain ⟨op, p, hcall, hin, -⟩ := hworks
    exact hu op p hcall hin

theorem Simulates.outside (hs : Simulates m s t)
    (hu : ∀ op p, s.calls u = some (op, p) → ¬ p.Inside m.lock)
    (hshared : s'.shared = s.shared) (hshared' : t'.shared = t.shared)
    (hothers : ∀ v, v ≠ u → s'.calls v = s.calls v ∧ s'.own v = s.own v ∧ t'.own v = t.own v)
    (hcalm : Calm m s' t' u) : Simulates m s' t' := by
  have hrest : ∀ v, v ≠ u → Calm m s t v → Calm m s' t' v := fun v hv h =>
    h.congr (hothers v hv).1 (hothers v hv).2.1 (hothers v hv).2.2
  cases hs with
  | free hlock hsame hall =>
    refine .free (hshared ▸ hlock) (by rw [hshared, hshared', hsame]) fun v => ?_
    by_cases hv : v = u
    · exact hv ▸ hcalm
    · exact hrest v hv (hall v)
  | held w hlock hfree hworks hall =>
    have hw : w ≠ u := by
      rintro rfl
      obtain ⟨op, p, hcall, hin, -⟩ := hworks
      exact hu op p hcall hin
    refine .held w (hshared ▸ hlock) (hshared' ▸ hfree) (hworks.congr (hothers w hw).1 (hothers w hw).2.1
      hshared (hothers w hw).2.2 hshared') fun v hv => ?_
    by_cases hvu : v = u
    · exact hvu ▸ hcalm
    · exact hrest v hvu (hall v hv)

/-- The next thing the thread does is an access, or giving the lock back. -/
def State.Touches (s : State σ ι π ρ θ) (u : θ) : Prop :=
  ∃ op p, s.calls u = some (op, p) ∧ (∀ next, p ≠ .lock next) ∧ ∀ r, p ≠ .ret r

theorem Simulates.works (hs : Simulates m s t) (hcall : s.calls u = some (op, p))
    (hp : (∀ next, p ≠ .lock next) ∧ ∀ r, p ≠ .ret r) :
    m.lock.held s.shared = true ∧ m.lock.held t.shared = false ∧ p.Inside m.lock ∧ s.own u = t.own u ∧
      p.run m.lock s.shared = (m.body op (t.own u)).run m.lock t.shared ∧
      ∀ v, v ≠ u → Calm m s t v := by
  have hnot : ¬ Calm m s t u := by
    intro hcalm
    cases hcalm with
    | idle h => simp [hcall] at h
    | waits h =>
      obtain ⟨-, rfl⟩ := Prod.mk.inj (Option.some.inj (hcall.symm.trans h))
      exact hp.1 _ rfl
    | leaves h =>
      obtain ⟨-, rfl⟩ := Prod.mk.inj (Option.some.inj (hcall.symm.trans h))
      exact hp.2 _ rfl
  cases hs with
  | free _ _ hall => exact absurd (hall u) hnot
  | held w hlock hfree hworks hall =>
    obtain rfl : w = u := by
      by_contra hne
      exact hnot (hall u (Ne.symm hne))
    obtain ⟨op', p', hcall', hin, hown, hrun⟩ := hworks
    obtain ⟨rfl, rfl⟩ := Prod.mk.inj (Option.some.inj (hcall.symm.trans hcall'))
    exact ⟨hlock, hfree, hin, hown, hrun, hall⟩

theorem Simulates.kept {next : Prog σ ρ} (hs : Simulates m s t) (hlock : m.lock.held s.shared = true)
    (hcall : s.calls u = some (op, .lock next)) : ∃ v, v ≠ u ∧ s.Touches v := by
  cases hs with
  | free hfree =>
    rw [hlock] at hfree
    cases hfree
  | held v _ _ hworks =>
    obtain ⟨op', p, hcall', hin, -⟩ := hworks
    refine ⟨v, ?_, op', p, hcall', fun next' h => by rw [h] at hin; exact hin,
      fun r h => by rw [h] at hin; exact hin⟩
    rintro rfl
    obtain ⟨-, rfl⟩ := Prod.mk.inj (Option.some.inj (hcall.symm.trans hcall'))
    exact hin

/-- **No races**: one thread at a time is about to access the shared state, and it has the lock. -/
theorem Simulates.touches_unique {v : θ} (hs : Simulates m s t) (hu : s.Touches u) (hv : s.Touches v) :
    u = v ∧ m.lock.held s.shared = true := by
  obtain ⟨op, p, hcall, hp⟩ := hu
  obtain ⟨op', p', hcall', hp'⟩ := hv
  obtain ⟨hlock, -, -, -, -, hcalm⟩ := hs.works hcall hp
  refine ⟨?_, hlock⟩
  by_contra hne
  cases hcalm v (Ne.symm hne) with
  | idle h => simp [hcall'] at h
  | waits h =>
    obtain ⟨-, rfl⟩ := Prod.mk.inj (Option.some.inj (hcall'.symm.trans h))
    exact hp'.1 _ rfl
  | leaves h =>
    obtain ⟨-, rfl⟩ := Prod.mk.inj (Option.some.inj (hcall'.symm.trans h))
    exact hp'.2 _ rfl

end Simulation

/-- What a step does to the atomic state: nothing, or one call. What a thread was answered, with what it
has not taken yet, changes with the call only. -/
def Matches (m : Monitor σ ι π ρ) (s s' : State σ ι π ρ θ) (t : Atomic σ π θ) (l : Label ι θ)
    (o : Option (θ × ρ)) : Prop :=
  (m.effects s l = [] ∧ Simulates m s' t ∧ ∀ v, answered v o ++ left (s'.calls v) = left (s.calls v)) ∨
  ∃ a r t', m.effects s l = [a] ∧ m.atomicStep t a = some (t', r) ∧ Simulates m s' t' ∧
    ∀ v, answered v o ++ left (s'.calls v) = left (s.calls v) ++ if a.1 = v then [r] else []

theorem put_self (s : State σ ι π ρ θ) (u : θ) (c : Option (ι × Prog σ ρ)) : (s.put u c).calls u = c :=
  Function.update_self _ _ _

theorem put_of_ne {v : θ} (s : State σ ι π ρ θ) (c : Option (ι × Prog σ ρ)) (hv : v ≠ u) :
    (s.put u c).calls v = s.calls v := Function.update_of_ne hv _ _

theorem left_put {c : Option (ι × Prog σ ρ)} (hcalls : s'.calls = s.calls)
    (hbefore : left (s.calls u) = []) (hafter : left c = []) (v : θ) :
    answered v (none : Option (θ × ρ)) ++ left ((s'.put u c).calls v) = left (s.calls v) := by
  show [] ++ left ((s'.put u c).calls v) = _
  rw [List.nil_append]
  by_cases hv : v = u
  · rw [hv, put_self, hafter, hbefore]
  · rw [put_of_ne _ _ hv, hcalls]

theorem left_put_ret {r : ρ} (hcalls : s'.calls = s.calls) (hbefore : left (s.calls u) = []) (v : θ) :
    answered v (none : Option (θ × ρ)) ++ left ((s'.put u (some (op, .ret r))).calls v) =
      left (s.calls v) ++ if u = v then [r] else [] := by
  show [] ++ left ((s'.put u (some (op, .ret r))).calls v) = _
  rw [List.nil_append]
  by_cases hv : v = u
  · subst hv
    rw [put_self, hbefore, if_pos rfl]
    rfl
  · rw [put_of_ne _ _ hv, hcalls, if_neg (Ne.symm hv), List.append_nil]

theorem call_matches (hm : m.Bracketed) (hs : Simulates m s t) (hcall : s.calls u = none) :
    Matches m s (s.put u (some (op, m.body op (s.own u)))) t (.call u op) none := by
  have hidle : ∀ op p, s.calls u = some (op, p) → ¬ p.Inside m.lock := by
    intro op p hp
    rw [hcall] at hp
    cases hp
  have hnone : left (s.calls u) = [] := by rw [hcall]; rfl
  have hown : s.own u = t.own u := by
    cases hs.calm hidle with
    | idle _ ho => exact ho
    | waits hc => simp [hcall] at hc
    | leaves hc => simp [hcall] at hc
  have hout := hm op (s.own u)
  cases hbody : m.body op (s.own u) with
  | ret r =>
    -- a call that needs no lock takes effect as it begins
    refine Or.inr ⟨(u, op), r, ⟨t.shared, Function.update t.own u (m.own r)⟩, ?_, ?_, ?_,
      left_put_ret rfl hnone⟩
    · simp [effects, hbody]
    · simp [atomicStep, ← hown, hbody, Prog.run]
    · refine hs.outside (u := u) hidle rfl rfl (fun v hv => ⟨put_of_ne _ _ hv, rfl, ?_⟩) ?_
      · exact Function.update_of_ne hv _ _
      · exact .leaves (put_self _ _ _) (Function.update_self _ _ _)
  | lock next =>
    refine Or.inl ⟨by simp [effects, hbody], ?_, left_put rfl hnone rfl⟩
    refine hs.outside (u := u) hidle rfl rfl (fun v hv => ⟨put_of_ne _ _ hv, rfl, rfl⟩) ?_
    exact .waits (put_self _ _ _) hbody hown
  | fail => simp [hbody, Prog.Outside] at hout
  | unlock next => simp [hbody, Prog.Outside] at hout
  | access f next => simp [hbody, Prog.Outside] at hout

theorem ret_matches {r : ρ} (hs : Simulates m s t) (hcall : s.calls u = some (op, .ret r)) :
    Matches m s ({ s with own := Function.update s.own u (m.own r) }.put u none) t (.step u)
      (some (u, r)) := by
  have hout : ∀ op p, s.calls u = some (op, p) → ¬ p.Inside m.lock := by
    intro op' p hp
    obtain ⟨-, rfl⟩ := Prod.mk.inj (Option.some.inj (hcall.symm.trans hp))
    exact id
  have hown : t.own u = m.own r := by
    cases hs.calm hout with
    | idle hc => simp [hcall] at hc
    | waits hc => simp [hcall] at hc
    | leaves hc ho =>
      obtain ⟨-, hr⟩ := Prod.mk.inj (Option.some.inj (hcall.symm.trans hc))
      obtain rfl := Prog.ret.inj hr
      exact ho
  refine Or.inl ⟨by simp [effects, hcall], ?_, fun v => ?_⟩
  · refine hs.outside (u := u) hout rfl rfl
      (fun v hv => ⟨put_of_ne _ _ hv, Function.update_of_ne hv _ _, rfl⟩) ?_
    exact .idle (put_self _ _ _) ((Function.update_self _ _ _).trans hown.symm)
  · by_cases hv : v = u
    · subst hv
      rw [put_self, hcall]
      simp [answered, left]
    · rw [put_of_ne _ _ hv]
      simp [answered, Ne.symm hv]

theorem lock_matches {next : Prog σ ρ} (hm : m.Bracketed) (hs : Simulates m s t)
    (hcall : s.calls u = some (op, .lock next)) (hfree : m.lock.held s.shared = false) :
    Matches m s ({ s with shared := m.lock.set true s.shared }.put u (some (op, next))) t (.step u)
      none := by
  cases hs with
  | held w hlock =>
    rw [hlock] at hfree
    cases hfree
  | free hlock hshared hcalm =>
    have hwaits : m.body op (s.own u) = .lock next ∧ s.own u = t.own u := by
      cases hcalm u with
      | idle hc => simp [hcall] at hc
      | leaves hc => simp [hcall] at hc
      | waits hc hbody hown =>
        obtain ⟨rfl, hl⟩ := Prod.mk.inj (Option.some.inj (hcall.symm.trans hc))
        obtain rfl := Prog.lock.inj hl
        exact ⟨hbody, hown⟩
    obtain ⟨hbody, hown⟩ := hwaits
    have hin : next.Inside m.lock := by
      have hout := hm op (s.own u)
      rwa [hbody] at hout
    refine Or.inl ⟨by simp [effects, hcall], ?_, left_put rfl (by rw [hcall]; rfl) ?_⟩
    · refine .held u (m.lock.held_set _ _) (hshared ▸ hlock) ⟨op, next, put_self _ _ _, hin, hown, ?_⟩
        fun v hv => (hcalm v).congr (put_of_ne _ _ hv) rfl rfl
      rw [← hown, hbody, ← hshared, Prog.run, hlock, if_neg Bool.false_ne_true]
      rfl
    · cases next with
      | ret r => exact absurd hin id
      | _ => rfl

theorem unlock_matches {next : Prog σ ρ} (hs : Simulates m s t)
    (hcall : s.calls u = some (op, .unlock next)) :
    Matches m s ({ s with shared := m.lock.set false s.shared }.put u (some (op, next))) t (.step u)
      none := by
  obtain ⟨hlock, hfree, hin, hown, hrun, hcalm⟩ := hs.works hcall (by simp)
  cases next with
  | ret r =>
    have hbody : (m.body op (t.own u)).run m.lock t.shared = some (r, m.lock.set false s.shared) :=
      hrun.symm
    refine Or.inr ⟨(u, op), r, ⟨m.lock.set false s.shared, Function.update t.own u (m.own r)⟩, ?_, ?_,
      ?_, left_put_ret rfl (by rw [hcall]; rfl)⟩
    · simp [effects, hcall]
    · simp [atomicStep, hbody]
    · refine .free (m.lock.held_set _ _) rfl fun v => ?_
      by_cases hv : v = u
      · subst hv
        exact .leaves (put_self _ _ _) (Function.update_self _ _ _)
      · exact (hcalm v hv).congr (put_of_ne _ _ hv) rfl (Function.update_of_ne hv _ _)
  | _ => exact absurd hin id

theorem access_matches {f : σ → σ} {next : σ → Prog σ ρ} (hs : Simulates m s t)
    (hcall : s.calls u = some (op, .access f next)) :
    Matches m s ({ s with shared := f s.shared }.put u (some (op, next s.shared))) t (.step u)
      none := by
  obtain ⟨hlock, hfree, hin, hown, hrun, hcalm⟩ := hs.works hcall (by simp)
  refine Or.inl ⟨by simp [effects, hcall], ?_, left_put rfl (by rw [hcall]; rfl) ?_⟩
  · exact .held u ((hin.1 _).trans hlock) hfree ⟨op, next s.shared, put_self _ _ _, hin.2 _, hown, hrun⟩
      fun v hv => (hcalm v hv).congr (put_of_ne _ _ hv) rfl rfl
  · have hnext := hin.2 s.shared
    cases hp : next s.shared with
    | ret r =>
      rw [hp] at hnext
      exact absurd hnext id
    | _ => rfl

theorem step_matches (hm : m.Bracketed) (hs : Simulates m s t) (h : m.step s l = some (s', o)) :
    Matches m s s' t l o := by
  cases stepped_of_step h with
  | call hcall => exact call_matches hm hs hcall
  | ret hcall => exact ret_matches hs hcall
  | lock hcall hfree => exact lock_matches hm hs hcall hfree
  | unlock hcall => exact unlock_matches hs hcall
  | access hcall => exact access_matches hs hcall

/-! ### Runs -/

theorem results_concat {calls : List (θ × ι)} {rs : List ρ} (hlen : calls.length = rs.length) (a : θ × ι)
    (r : ρ) (v : θ) :
    results (calls ++ [a]) (rs ++ [r]) v = results calls rs v ++ if a.1 = v then [r] else [] := by
  unfold results
  rw [List.zip_append hlen, List.flatMap_append]
  simp

/-- The calls that threads are in are `ok`. -/
def State.Begun (ok : ι → Prop) (s : State σ ι π ρ θ) : Prop := ∀ u op p, s.calls u = some (op, p) → ok op

section Begun
variable {ok : ι → Prop}

theorem State.Begun.put {c : Option (ι × Prog σ ρ)} (h : s.Begun ok) (hcalls : s'.calls = s.calls)
    (hc : ∀ op p, c = some (op, p) → ok op) : (s'.put u c).Begun ok := by
  intro v op p hv
  by_cases hvu : v = u
  · rw [hvu, put_self] at hv
    exact hc op p hv
  · rw [put_of_ne _ _ hvu, hcalls] at hv
    exact h v op p hv

theorem begun_step (h : s.Begun ok) (hl : l.Begins ok) (hstep : m.step s l = some (s', o)) :
    s'.Begun ok := by
  cases stepped_of_step hstep with
  | call hcall =>
    refine h.put rfl ?_
    rintro op p ⟨⟩
    exact hl
  | ret hcall => exact h.put rfl (by simp)
  | lock hcall | unlock hcall | access hcall =>
    refine h.put rfl ?_
    rintro op p ⟨⟩
    exact h _ _ _ hcall

theorem begun_of_run {init : Atomic σ π θ} {acts : List (Label ι θ)} {outs : List (Option (θ × ρ))}
    (hrun : m.machine.Run (fun _ l => l.Begins ok) (.start init) acts outs s) : s.Begun ok :=
  hrun.invariant (I := fun _ _ s => s.Begun ok) (by rintro u op p ⟨⟩)
    fun _ _ _ _ _ _ h hl hstep => begun_step h hl hstep

omit [DecidableEq θ] in
theorem effects_ok (h : s.Begun ok) (hl : l.Begins ok) {a : θ × ι} (ha : a ∈ m.effects s l) : ok a.2 := by
  cases l with
  | call u op =>
    simp only [effects] at ha
    split at ha
    · exact List.mem_singleton.1 ha ▸ hl
    · cases ha
  | step u =>
    simp only [effects] at ha
    split at ha
    · rename_i op next hcall
      exact List.mem_singleton.1 ha ▸ h _ _ _ hcall
    · cases ha

end Begun

/-- **Calls under a lock are atomic**: every run, access by access, is a run of whole calls, in the order
in which they took effect. It ends in a state that simulates the atomic one, and each thread was
answered what its calls gave there. -/
theorem linearization {ok : ι → Prop} (hm : m.Bracketed) {init : Atomic σ π θ}
    (hfree : m.lock.held init.shared = false) {acts : List (Label ι θ)} {outs : List (Option (θ × ρ))}
    (hrun : m.machine.Run (fun _ l => l.Begins ok) (.start init) acts outs s) :
    ∃ rs t, m.atomic.Run (fun _ a => ok a.2) init (m.linearized (.start init) acts) rs t ∧
      Simulates m s t ∧
      ∀ v, answers outs v ++ left (s.calls v) = results (m.linearized (.start init) acts) rs v := by
  induction hrun with
  | nil => exact ⟨[], init, .nil, simulates_start hfree, fun _ => rfl⟩
  | @snoc acts outs s l s' o hrun hl hstep ih =>
    obtain ⟨rs, t, hatomic, hs, hanswers⟩ := ih
    have hacts : m.linearized (.start init) (acts ++ [l]) =
        m.linearized (.start init) acts ++ m.effects s l := hrun.collect_concat _ hstep
    rcases step_matches hm hs hstep with ⟨hnone, hs', hsame⟩ | ⟨a, r, t', hone, hstep', hs', hmore⟩
    · refine ⟨rs, t, ?_, hs', fun v => ?_⟩
      · rwa [hacts, hnone, List.append_nil]
      · rw [hacts, hnone, List.append_nil, ← hanswers, answers_concat, List.append_assoc, hsame]
    · refine ⟨rs ++ [r], t', ?_, hs', fun v => ?_⟩
      · rw [hacts, hone]
        exact hatomic.snoc (effects_ok (begun_of_run hrun) hl (hone ▸ List.mem_singleton_self a)) hstep'
      · rw [hacts, hone, results_concat hatomic.length_eq, ← hanswers, answers_concat, List.append_assoc,
          List.append_assoc, hmore]

/-! ### Safety and progress -/

theorem step_ret {r : ρ} (hcall : s.calls u = some (op, .ret r)) : m.step s (.step u) =
    some ({ s with own := Function.update s.own u (m.own r) }.put u none, some (u, r)) := by
  rw [step, hcall]

theorem step_lock {next : Prog σ ρ} (hcall : s.calls u = some (op, .lock next))
    (hfree : m.lock.held s.shared = false) : m.step s (.step u) =
      some ({ s with shared := m.lock.set true s.shared }.put u (some (op, next)), none) := by
  rw [step, hcall, hfree]
  rfl

theorem step_unlock {next : Prog σ ρ} (hcall : s.calls u = some (op, .unlock next)) :
    m.step s (.step u) =
      some ({ s with shared := m.lock.set false s.shared }.put u (some (op, next)), none) := by
  rw [step, hcall]

theorem step_access {f : σ → σ} {next : σ → Prog σ ρ} (hcall : s.calls u = some (op, .access f next)) :
    m.step s (.step u) = some ({ s with shared := f s.shared }.put u (some (op, next s.shared)), none) := by
  rw [step, hcall]

section Safe
variable {ok : ι → Prop} {J : Atomic σ π θ → Prop}

/-- Calls that are `ok` have a meaning wherever `J` holds, and `J` holds behind them. -/
def Keeps (m : Monitor σ ι π ρ) (ok : ι → Prop) (J : Atomic σ π θ → Prop) : Prop :=
  ∀ t a, J t → ok a.2 → ∃ t' r, m.atomicStep t a = some (t', r) ∧ J t'

/-- The threads are in calls that are `ok`, on the way from an atomic state where `J` holds. -/
def Safe (m : Monitor σ ι π ρ) (ok : ι → Prop) (J : Atomic σ π θ → Prop) (s : State σ ι π ρ θ) : Prop :=
  s.Begun ok ∧ ∃ t, J t ∧ Simulates m s t

/-- Only threads that are in a call go on. -/
def GoesOn (_ : State σ ι π ρ θ) (l : Label ι θ) : Prop := ∃ u, l = .step u

omit [DecidableEq θ] in
theorem safe_start (hJ : J t) (hfree : m.lock.held t.shared = false) : Safe m ok J (.start t) :=
  ⟨by rintro u op p ⟨⟩, t, hJ, simulates_start hfree⟩

theorem Safe.step (hm : m.Bracketed) (hkeeps : m.Keeps ok J) (hs : Safe m ok J s) (hl : l.Begins ok)
    (hstep : m.step s l = some (s', o)) : Safe m ok J s' := by
  obtain ⟨hbegun, t, hJ, hsim⟩ := hs
  refine ⟨begun_step hbegun hl hstep, ?_⟩
  rcases step_matches hm hsim hstep with ⟨-, hsim', -⟩ | ⟨a, r, t', hone, hcall, hsim', -⟩
  · exact ⟨t, hJ, hsim'⟩
  · have hok : ok a.2 := effects_ok hbegun hl (hone ▸ List.mem_singleton_self a)
    obtain ⟨t'', r', hcall', hJ'⟩ := hkeeps t a hJ hok
    obtain ⟨rfl, -⟩ := Prod.mk.inj (Option.some.inj (hcall'.symm.trans hcall))
    exact ⟨t'', hJ', hsim'⟩

theorem Safe.run (hm : m.Bracketed) (hkeeps : m.Keeps ok J) (hs : Safe m ok J s) {acts : List (Label ι θ)}
    {outs : List (Option (θ × ρ))} (hrun : m.machine.Run (fun _ l => l.Begins ok) s acts outs s') :
    Safe m ok J s' :=
  hrun.invariant (I := fun _ _ s => Safe m ok J s) hs
    fun _ _ _ _ _ _ hs hl hstep => hs.step hm hkeeps hl hstep

omit [DecidableEq θ] in
theorem GoesOn.begins (hl : GoesOn s l) : l.Begins ok := by
  obtain ⟨u, rfl⟩ := hl
  trivial

theorem Safe.means (hkeeps : m.Keeps ok J) (hs : Safe m ok J s) (hcall : s.calls u = some (op, p))
    (hp : (∀ next, p ≠ .lock next) ∧ ∀ r, p ≠ .ret r) :
    p.Inside m.lock ∧ (p.run m.lock s.shared).isSome := by
  obtain ⟨hbegun, t, hJ, hsim⟩ := hs
  obtain ⟨-, -, hin, -, hrun, -⟩ := hsim.works hcall hp
  obtain ⟨t', r, hatomic, -⟩ := hkeeps t (u, op) hJ (hbegun u op p hcall)
  refine ⟨hin, ?_⟩
  rw [hrun]
  obtain ⟨x, hx, -⟩ := Option.map_eq_some_iff.1 hatomic
  exact Option.isSome_iff_exists.2 ⟨x, hx⟩

theorem Safe.not_fail (hkeeps : m.Keeps ok J) (hs : Safe m ok J s) (hcall : s.calls u = some (op, p)) :
    p ≠ .fail := by
  rintro rfl
  have hmeans := (hs.means hkeeps hcall ⟨by simp, by simp⟩).2
  simp [Prog.run] at hmeans

theorem inside_finishes (hcall : s.calls u = some (op, p)) (hin : p.Inside m.lock)
    (hmeans : (p.run m.lock s.shared).isSome) :
    ∃ acts outs s', m.machine.Run GoesOn s acts outs s' ∧ (∀ l ∈ acts, l = .step u) ∧
      m.lock.held s'.shared = false ∧ s'.calls u = none ∧ ∀ v, v ≠ u → s'.calls v = s.calls v := by
  induction p generalizing s with
  | ret r => exact absurd hin id
  | fail => simp [Prog.run] at hmeans
  | lock next => exact absurd hin id
  | unlock next =>
    cases next with
    | ret r =>
      have hreturn := step_ret (m := m) (s := { s with shared := m.lock.set false s.shared }.put u
        (some (op, .ret r))) (put_self _ _ _)
      refine ⟨_, _, _, (Machine.Run.nil.snoc ⟨u, rfl⟩ (step_unlock hcall)).snoc ⟨u, rfl⟩ hreturn,
        by simp, m.lock.held_set _ _, put_self _ _ _, fun v hv => ?_⟩
      rw [put_of_ne _ _ hv]
      exact put_of_ne _ _ hv
    | _ => exact absurd hin id
  | access f next ih =>
    have hfirst : m.machine.Run GoesOn s [.step u] [none] _ :=
      Machine.Run.nil.snoc ⟨u, rfl⟩ (step_access hcall)
    have hcall' : ({ s with shared := f s.shared }.put u (some (op, next s.shared))).calls u =
        some (op, next s.shared) := put_self _ _ _
    obtain ⟨acts, outs, s', hrest, hacts, hfree, hdone, hothers⟩ := ih s.shared hcall' (hin.2 _) hmeans
    refine ⟨_, _, s', hfirst.append hrest, by simpa using hacts, hfree, hdone, fun v hv => ?_⟩
    rw [hothers v hv]
    exact put_of_ne _ _ hv

/-- **The lock is given back**: by the thread that has it, after finitely many steps of its own, whatever
the others wait for. -/
theorem Safe.released (hkeeps : m.Keeps ok J) (hs : Safe m ok J s) (hlock : m.lock.held s.shared = true) :
    ∃ u acts outs s', m.machine.Run GoesOn s acts outs s' ∧ (∀ l ∈ acts, l = .step u) ∧
      m.lock.held s'.shared = false ∧ s'.calls u = none ∧ ∀ v, v ≠ u → s'.calls v = s.calls v := by
  obtain ⟨-, t, -, hsim⟩ := id hs
  cases hsim with
  | free hfree =>
    rw [hlock] at hfree
    cases hfree
  | held u _ _ hworks =>
    obtain ⟨op, p, hcall, hin, -⟩ := hworks
    have hp : (∀ next, p ≠ .lock next) ∧ ∀ r, p ≠ .ret r :=
      ⟨fun next h => by rw [h] at hin; exact hin, fun r h => by rw [h] at hin; exact hin⟩
    exact ⟨u, inside_finishes hcall hin (hs.means hkeeps hcall hp).2⟩

theorem Safe.finishes_of_free (hm : m.Bracketed) (hkeeps : m.Keeps ok J) (hs : Safe m ok J s)
    (hfree : m.lock.held s.shared = false) (u : θ) :
    ∃ acts outs s', m.machine.Run GoesOn s acts outs s' ∧ s'.calls u = none := by
  obtain ⟨-, t, -, hsim⟩ := id hs
  cases hsim with
  | held v hlock =>
    rw [hlock] at hfree
    cases hfree
  | free _ _ hcalm =>
    cases hcalm u with
    | idle hcall => exact ⟨[], [], s, .nil, hcall⟩
    | @leaves op r hcall =>
      exact ⟨_, _, _, Machine.Run.nil.snoc ⟨u, rfl⟩ (step_ret hcall), put_self _ _ _⟩
    | @waits op next hcall hbody =>
      have hstep := step_lock hcall hfree
      have hin : next.Inside m.lock := by
        have hout := hm op (s.own u)
        rwa [hbody] at hout
      have hp : (∀ next', next ≠ .lock next') ∧ ∀ r, next ≠ .ret r :=
        ⟨fun next' h => by rw [h] at hin; exact hin, fun r h => by rw [h] at hin; exact hin⟩
      have hs' := hs.step hm hkeeps (l := .step u) trivial hstep
      have hcall' : ({ s with shared := m.lock.set true s.shared }.put u (some (op, next))).calls u =
          some (op, next) := put_self _ _ _
      obtain ⟨acts, outs, s', hrest, -, -, hdone, -⟩ :=
        inside_finishes hcall' hin (hs'.means hkeeps hcall' hp).2
      exact ⟨_, _, s', (Machine.Run.nil.snoc ⟨u, rfl⟩ hstep).append hrest, hdone⟩

/-- **Every call can be finished**: from every safe state the threads that are in calls can go on so that
a given one returns. -/
theorem Safe.finishes (hm : m.Bracketed) (hkeeps : m.Keeps ok J) (hs : Safe m ok J s) (u : θ) :
    ∃ acts outs s', m.machine.Run GoesOn s acts outs s' ∧ s'.calls u = none := by
  cases hlock : m.lock.held s.shared with
  | false => exact hs.finishes_of_free hm hkeeps hlock u
  | true =>
    obtain ⟨v, acts, outs, s₁, hrun, -, hfree, -⟩ := hs.released hkeeps hlock
    have hs₁ := hs.run hm hkeeps (hrun.mono fun _ _ hl => GoesOn.begins hl)
    obtain ⟨acts', outs', s', hrest, hdone⟩ := hs₁.finishes_of_free hm hkeeps hfree u
    exact ⟨_, _, s', hrun.append hrest, hdone⟩

end Safe

end Monitor
