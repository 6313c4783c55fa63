import Mathlib.Data.Nat.Notation
import Mathlib.Logic.Basic

/-!
# Programs of accesses under a lock

A `Prog` is what is left of a call on a state that others use too: it has returned, it waits for the
lock, gives it back, or reads and changes the state in one access and goes on. `Prog.run` is the call
with nobody else around; it composes (`run_bind`), also around a section with the lock (`run_locked`).
`Lockless`, `Inside` and `Outside` say where a program stands towards the lock.
-/

/-- A call that is not finished: a result, behaviour without a meaning, an operation on the lock, or an
access that replaces the shared state `s` by `f s` and goes on with `next s`. -/
inductive Prog (σ ρ : Type)
  | ret (r : ρ)
  | fail
  | lock (next : Prog σ ρ)
  | unlock (next : Prog σ ρ)
  | access (f : σ → σ) (next : σ → Prog σ ρ)

/-- Where the lock is in a state. -/
structure LockIn (σ : Type) where
  held : σ → Bool
  set : Bool → σ → σ
  held_set : ∀ b s, held (set b s) = b

namespace Prog
variable {σ ρ β : Type}

def bind : Prog σ β → (β → Prog σ ρ) → Prog σ ρ
  | .ret b, k => k b
  | .fail, _ => .fail
  | .lock next, k => .lock (next.bind k)
  | .unlock next, k => .unlock (next.bind k)
  | .access f next, k => .access f fun s => (next s).bind k

instance : Monad (Prog σ) where
  pure := .ret
  bind := bind

/-- Look at the state. -/
def get (g : σ → β) : Prog σ β := .access id fun s => .ret (g s)

/-- Change the state. -/
def modify (f : σ → σ) : Prog σ Unit := .access f fun _ => .ret ()

/-- An access with a result; none is behaviour without a meaning. -/
def perform (g : σ → Option (β × σ)) : Prog σ β :=
  .access (fun s => (g s).elim s Prod.snd) fun s => (g s).elim .fail fun r => .ret r.1

/-- Wait for the lock. -/
def acquire : Prog σ Unit := .lock (.ret ())

/-- Give the lock back and return. -/
def release (r : ρ) : Prog σ ρ := .unlock (.ret r)

/-- The whole call, with nobody else around; none when it has no meaning or waits for ever. -/
def run (l : LockIn σ) : Prog σ ρ → σ → Option (ρ × σ)
  | .ret r, s => some (r, s)
  | .fail, _ => none
  | .lock next, s => if l.held s then none else next.run l (l.set true s)
  | .unlock next, s => next.run l (l.set false s)
  | .access f next, s => (next s).run l (f s)

variable {l : LockIn σ}

theorem run_bind (p : Prog σ β) (k : β → Prog σ ρ) (s : σ) :
    (p >>= k).run l s = (p.run l s).bind fun r => (k r.1).run l r.2 := by
  show (p.bind k).run l s = _
  induction p generalizing s with
  | ret b => rfl
  | fail => rfl
  | lock next ih =>
    simp only [bind, run]
    split
    · rfl
    · exact ih _
  | unlock next ih => exact ih _
  | access f next ih => exact ih s _

@[simp] theorem run_pure (r : ρ) (s : σ) : (pure r : Prog σ ρ).run l s = some (r, s) := rfl

@[simp] theorem run_get (g : σ → β) (s : σ) : (get g).run l s = some (g s, s) := rfl

@[simp] theorem run_modify (f : σ → σ) (s : σ) : (modify f).run l s = some ((), f s) := rfl

@[simp] theorem run_perform (g : σ → Option (β × σ)) (s : σ) : (perform g).run l s = g s := by
  show (((g s).elim .fail fun r => .ret r.1) : Prog σ β).run l ((g s).elim s Prod.snd) = g s
  cases g s with
  | none => rfl
  | some r => rfl

@[simp] theorem run_acquire (s : σ) :
    (acquire : Prog σ Unit).run l s = if l.held s then none else some ((), l.set true s) := rfl

theorem run_locked (p : Prog σ β) (f : β → ρ) (s : σ) :
    (acquire >>= fun _ => p >>= fun b => release (f b)).run l s =
      if l.held s then none else (p.run l (l.set true s)).map fun r => (f r.1, l.set false r.2) := by
  rw [run_bind, run_acquire]
  split
  · rfl
  · rw [Option.bind_some, run_bind]
    cases p.run l (l.set true s) with
    | none => rfl
    | some r => rfl

/-- The program has returned. -/
def Returned : Prog σ ρ → Prop
  | .ret _ => True
  | _ => False

/-- The program leaves the lock alone. -/
def Lockless (l : LockIn σ) : Prog σ ρ → Prop
  | .ret _ | .fail => True
  | .lock _ | .unlock _ => False
  | .access f next => (∀ s, l.held (f s) = l.held s) ∧ ∀ s, (next s).Lockless l

/-- The program has the lock, and gives it back as the last thing it does. -/
def Inside (l : LockIn σ) : Prog σ ρ → Prop
  | .fail => True
  | .ret _ | .lock _ => False
  | .unlock next => next.Returned
  | .access f next => (∀ s, l.held (f s) = l.held s) ∧ ∀ s, (next s).Inside l

/-- The program has returned or waits for the lock. -/
def Outside (l : LockIn σ) : Prog σ ρ → Prop
  | .ret _ => True
  | .lock next => next.Inside l
  | _ => False

theorem Lockless.bind_inside {p : Prog σ β} {k : β → Prog σ ρ} (hp : p.Lockless l)
    (hk : ∀ b, (k b).Inside l) : (p >>= k).Inside l := by
  show (p.bind k).Inside l
  induction p with
  | ret b => exact hk b
  | fail => trivial
  | lock => exact absurd hp id
  | unlock => exact absurd hp id
  | access f next ih => exact ⟨hp.1, fun s => ih s (hp.2 s)⟩

theorem Lockless.bind {p : Prog σ β} {k : β → Prog σ ρ} (hp : p.Lockless l)
    (hk : ∀ b, (k b).Lockless l) : (p >>= k).Lockless l := by
  show (p.bind k).Lockless l
  induction p with
  | ret b => exact hk b
  | fail => trivial
  | lock => exact absurd hp id
  | unlock => exact absurd hp id
  | access f next ih => exact ⟨hp.1, fun s => ih s (hp.2 s)⟩

theorem Lockless.outside {p : Prog σ β} (hp : p.Lockless l) (f : β → ρ) :
    (acquire >>= fun _ => p >>= fun b => release (f b)).Outside l :=
  hp.bind_inside fun _ => trivial

theorem lockless_get (g : σ → β) : (get g).Lockless l := ⟨fun _ => rfl, fun _ => trivial⟩

theorem lockless_modify {f : σ → σ} (h : ∀ s, l.held (f s) = l.held s) : (modify f).Lockless l :=
  ⟨h, fun _ => trivial⟩

theorem lockless_perform {g : σ → Option (β × σ)}
    (h : ∀ s r, g s = some r → l.held r.2 = l.held s) : (perform g).Lockless l := by
  refine ⟨fun s => ?_, fun s => ?_⟩
  · show l.held ((g s).elim s Prod.snd) = l.held s
    cases hg : g s with
    | none => rfl
    | some r => exact h s r hg
  · show (((g s).elim .fail fun r => .ret r.1) : Prog σ β).Lockless l
    cases g s <;> trivial

end Prog
