import Mathlib.Algebra.GroupWithZero.Nat
import Mathlib.Data.Nat.Notation
import Mathlib.Logic.Basic

/-!
# Machines, runs and invariants

A `Machine` reacts to one action at a time; `none` says that the action is impossible in that state
(a blocked thread, an outcome the environment cannot produce, an operation without a meaning).
`Run` is a finite run whose every step meets a guard, with the actions and the replies it made.
Whatever holds at the start and survives every guarded step holds after every run (`Run.invariant`);
a run whose steps all lower a rank is no longer than that rank (`Run.length_add_rank_le`);
and two states that answer alike for one step, and stay related, answer alike for ever
(`exec_congr`). `collect` is what an observer notes on the way.
-/

/-- A machine with states `σ`, actions `α` and replies `ω`. -/
structure Machine (σ α ω : Type*) where
  step : σ → α → Option (σ × ω)

namespace Machine
variable {σ α ω : Type*} (m : Machine σ α ω) (guard : σ → α → Prop)

/-- `m.Run guard init acts outs s`: from `init` the actions `acts`, each allowed by the guard in the
state it is taken in, lead to `s` with the replies `outs`. -/
inductive Run (init : σ) : List α → List ω → σ → Prop
  | nil : Run init [] [] init
  | snoc {acts outs s a s' o} : Run init acts outs s → guard s a → m.step s a = some (s', o) →
      Run init (acts ++ [a]) (outs ++ [o]) s'

/-- The states that guarded runs from `init` reach. -/
def Reachable (init s : σ) : Prop := ∃ acts outs, m.Run guard init acts outs s

/-- The state after a list of actions, and the replies on the way. -/
def exec (s : σ) : List α → Option (σ × List ω)
  | [] => some (s, [])
  | a :: as => (m.step s a).bind fun r => (exec r.1 as).map fun t => (t.1, r.2 :: t.2)

/-- The same, as long as every action meets the guard in the state it is taken in. -/
def execGuarded [∀ s a, Decidable (guard s a)] (s : σ) : List α → Option (σ × List ω)
  | [] => some (s, [])
  | a :: as => if guard s a then
      (m.step s a).bind fun r => (execGuarded r.1 as).map fun t => (t.1, r.2 :: t.2)
    else none

/-- What an observer notes along an execution who looks at each action and the state it is taken
in. -/
def collect {β : Type*} (note : σ → α → List β) (s : σ) : List α → List β
  | [] => []
  | a :: as => note s a ++ match m.step s a with
    | some r => collect note r.1 as
    | none => []

variable {m guard} {init s s' : σ}

theorem Run.invariant {I : List α → List ω → σ → Prop} (hinit : I [] [] init)
    (hstep : ∀ acts outs s a s' o, I acts outs s → guard s a → m.step s a = some (s', o) →
      I (acts ++ [a]) (outs ++ [o]) s')
    {acts : List α} {outs : List ω} (hrun : m.Run guard init acts outs s) : I acts outs s := by
  induction hrun with
  | nil => exact hinit
  | snoc _ hguard hs ih => exact hstep _ _ _ _ _ _ ih hguard hs

theorem Reachable.invariant {I : σ → Prop} (hinit : I init)
    (hstep : ∀ s a s' o, I s → guard s a → m.step s a = some (s', o) → I s')
    (hs : m.Reachable guard init s) : I s := by
  obtain ⟨acts, outs, hrun⟩ := hs
  exact hrun.invariant (I := fun _ _ s => I s) hinit fun _ _ s a s' o => hstep s a s' o

theorem Reachable.refl : m.Reachable guard init init := ⟨[], [], .nil⟩

theorem Reachable.next {a : α} {o : ω} (hs : m.Reachable guard init s) (hguard : guard s a)
    (hstep : m.step s a = some (s', o)) : m.Reachable guard init s' := by
  obtain ⟨acts, outs, hrun⟩ := hs
  exact ⟨_, _, hrun.snoc hguard hstep⟩

theorem Run.mono {guard' : σ → α → Prop} (h : ∀ s a, guard s a → guard' s a) {acts : List α}
    {outs : List ω} (hrun : m.Run guard init acts outs s) : m.Run guard' init acts outs s := by
  induction hrun with
  | nil => exact .nil
  | snoc _ hguard hs ih => exact ih.snoc (h _ _ hguard) hs

theorem Run.restrict {P : α → Prop} {acts : List α} {outs : List ω}
    (hrun : m.Run guard init acts outs s) (hacts : ∀ a ∈ acts, P a) :
    m.Run (fun s a => guard s a ∧ P a) init acts outs s := by
  induction hrun with
  | nil => exact .nil
  | @snoc acts outs s a s' o _ hguard hs ih =>
    have hlast := hacts a (List.mem_append_right _ (List.mem_singleton_self a))
    exact (ih fun b hb => hacts b (List.mem_append_left _ hb)).snoc ⟨hguard, hlast⟩ hs

theorem Run.append {acts acts' : List α} {outs outs' : List ω} (hrun : m.Run guard init acts outs s)
    (hrun' : m.Run guard s acts' outs' s') :
    m.Run guard init (acts ++ acts') (outs ++ outs') s' := by
  induction hrun' with
  | nil => simpa using hrun
  | snoc _ hguard hs ih =>
    rw [← List.append_assoc, ← List.append_assoc]
    exact ih.snoc hguard hs

theorem Run.concat_iff {acts : List α} {outs : List ω} {a : α} {o : ω} :
    m.Run guard init (acts ++ [a]) (outs ++ [o]) s' ↔
      ∃ s, m.Run guard init acts outs s ∧ guard s a ∧ m.step s a = some (s', o) := by
  constructor
  · intro h
    generalize hacts : acts ++ [a] = acts', houts : outs ++ [o] = outs' at h
    cases h with
    | nil => simp at hacts
    | snoc hrun hguard hstep =>
      obtain ⟨rfl, hlast⟩ := List.append_inj' hacts rfl
      obtain ⟨rfl, hlast'⟩ := List.append_inj' houts rfl
      obtain rfl := List.singleton_inj.1 hlast
      obtain rfl := List.singleton_inj.1 hlast'
      exact ⟨_, hrun, hguard, hstep⟩
  · rintro ⟨s, hrun, hguard, hstep⟩
    exact hrun.snoc hguard hstep

theorem Run.state_unique {guard' : σ → α → Prop} {acts : List α} {outs outs' : List ω}
    (hrun : m.Run guard init acts outs s) (hrun' : m.Run guard' init acts outs' s') : s = s' := by
  induction hrun generalizing s' outs' with
  | nil =>
    generalize hacts : ([] : List α) = acts' at hrun'
    cases hrun' with
    | nil => rfl
    | snoc => simp at hacts
  | @snoc acts outs s a t o _ _ hstep ih =>
    generalize hacts : acts ++ [a] = acts' at hrun'
    cases hrun' with
    | nil => simp at hacts
    | snoc hrun _ hstep' =>
      obtain ⟨rfl, hlast⟩ := List.append_inj' hacts rfl
      obtain rfl := List.singleton_inj.1 hlast
      rw [ih hrun, hstep', Option.some.injEq, Prod.mk.injEq] at hstep
      exact hstep.1.symm

theorem Run.length_eq {acts : List α} {outs : List ω} (hrun : m.Run guard init acts outs s) :
    acts.length = outs.length := by
  induction hrun with
  | nil => rfl
  | snoc _ _ _ ih => simp [ih]

theorem Run.collect_append {β : Type*} {acts : List α} {outs : List ω}
    (hrun : m.Run guard init acts outs s) (note : σ → α → List β) (acts' : List α) :
    m.collect note init (acts ++ acts') = m.collect note init acts ++ m.collect note s acts' := by
  induction hrun generalizing acts' with
  | nil => rfl
  | @snoc acts outs s a s' o _ _ hstep ih =>
    have hlast : ∀ as, m.collect note s (a :: as) = note s a ++ m.collect note s' as := by
      intro as
      simp only [collect, hstep]
    rw [List.append_assoc, ih, ih, List.singleton_append, hlast, hlast, collect, List.append_nil,
      List.append_assoc]

theorem Run.collect_concat {β : Type*} {acts : List α} {outs : List ω} {a : α} {o : ω}
    (hrun : m.Run guard init acts outs s) (note : σ → α → List β)
    (hstep : m.step s a = some (s', o)) :
    m.collect note init (acts ++ [a]) = m.collect note init acts ++ note s a := by
  rw [hrun.collect_append, collect]
  simp only [hstep, collect, List.append_nil]

/-- A machine that follows another one, state by related state, has its runs. -/
theorem Run.simulate {τ : Type*} {m' : Machine τ α ω} {guard' : τ → α → Prop} {R : σ → τ → Prop}
    (hstep : ∀ s t a s' o, R s t → guard s a → m.step s a = some (s', o) →
      ∃ t', guard' t a ∧ m'.step t a = some (t', o) ∧ R s' t')
    {init' : τ} (hinit : R init init') {acts : List α} {outs : List ω}
    (hrun : m.Run guard init acts outs s) : ∃ t, m'.Run guard' init' acts outs t ∧ R s t := by
  induction hrun with
  | nil => exact ⟨init', .nil, hinit⟩
  | @snoc acts outs s a s' o _ hguard hs ih =>
    obtain ⟨t, hrun', hR⟩ := ih
    obtain ⟨t', hguard', ht', hR'⟩ := hstep s t a s' o hR hguard hs
    exact ⟨t', hrun'.snoc hguard' ht', hR'⟩

theorem Run.single {a : α} {o : ω} (hguard : guard s a) (hstep : m.step s a = some (s', o)) :
    m.Run guard s [a] [o] s' :=
  (Run.nil : m.Run guard s [] [] s).snoc hguard hstep

/-- A machine that answers every step of another one by a run of its own, in which the same is seen,
answers every run. -/
theorem Run.refine {τ β π ε : Type*} {m' : Machine τ β π} {guard' : τ → β → Prop} {R : σ → τ → Prop}
    {see : ω → List ε} {see' : π → List ε}
    (hstep : ∀ acts outs s t a s' o, m.Run guard init acts outs s → R s t → guard s a →
      m.step s a = some (s', o) →
      ∃ acts' outs' t', m'.Run guard' t acts' outs' t' ∧ outs'.flatMap see' = see o ∧ R s' t')
    {init' : τ} (hinit : R init init') {acts : List α} {outs : List ω}
    (hrun : m.Run guard init acts outs s) :
    ∃ acts' outs' t, m'.Run guard' init' acts' outs' t ∧ outs'.flatMap see' = outs.flatMap see ∧
      R s t := by
  induction hrun with
  | nil => exact ⟨[], [], init', .nil, rfl, hinit⟩
  | @snoc acts outs s a s' o hrun hguard hs ih =>
    obtain ⟨acts₁, outs₁, t, hrun₁, hseen₁, hR⟩ := ih
    obtain ⟨acts₂, outs₂, t', hrun₂, hseen₂, hR'⟩ := hstep _ _ s t a s' o hrun hR hguard hs
    refine ⟨_, _, t', hrun₁.append hrun₂, ?_, hR'⟩
    rw [List.flatMap_append, List.flatMap_append, hseen₁, hseen₂, List.flatMap_singleton]

/-- When every step of a run lowers a rank, but for what its action is charged with, the run is no longer
than the rank it starts with and the charges. -/
theorem Run.length_add_rank_le_add {I : σ → Prop} (rank : σ → ℕ) (charge : α → ℕ) (hinit : I init)
    (hstep : ∀ s a s' o, I s → guard s a → m.step s a = some (s', o) →
      I s' ∧ rank s' < rank s + charge a)
    {acts : List α} {outs : List ω} (hrun : m.Run guard init acts outs s) :
    I s ∧ acts.length + rank s ≤ rank init + (acts.map charge).sum := by
  refine hrun.invariant
    (I := fun acts _ s => I s ∧ acts.length + rank s ≤ rank init + (acts.map charge).sum)
    ⟨hinit, by simp⟩ ?_
  rintro acts - s a s' o ⟨hs, hle⟩ hguard hs'
  obtain ⟨hI, hlt⟩ := hstep s a s' o hs hguard hs'
  refine ⟨hI, ?_⟩
  rw [List.length_append, List.length_singleton, List.map_append, List.sum_append, List.map_singleton,
    List.sum_singleton]
  omega

theorem Run.length_add_rank_le {I : σ → Prop} (rank : σ → ℕ) (hinit : I init)
    (hstep : ∀ s a s' o, I s → guard s a → m.step s a = some (s', o) → I s' ∧ rank s' < rank s)
    {acts : List α} {outs : List ω} (hrun : m.Run guard init acts outs s) :
    I s ∧ acts.length + rank s ≤ rank init := by
  simpa [List.map_const'] using hrun.length_add_rank_le_add rank (fun _ => 0) hinit hstep

theorem Reachable.exists_end {I : σ → Prop} (rank : σ → ℕ) (stop : σ → Prop)
    (hstep : ∀ s a s' o, I s → guard s a → m.step s a = some (s', o) → I s' ∧ rank s' < rank s)
    (hgo : ∀ s, I s → ¬ stop s → ∃ a s' o, guard s a ∧ m.step s a = some (s', o))
    (hs : m.Reachable guard init s) (hI : I s) : ∃ t, m.Reachable guard init t ∧ I t ∧ stop t := by
  induction hn : rank s using Nat.strongRecOn generalizing s with
  | _ n ih =>
    by_cases hstop : stop s
    · exact ⟨s, hs, hI, hstop⟩
    · obtain ⟨a, s', o, hguard, hs'⟩ := hgo s hI hstop
      obtain ⟨hI', hlt⟩ := hstep s a s' o hI hguard hs'
      exact ih (rank s') (hn ▸ hlt) (hs.next hguard hs') hI' rfl

theorem Run.of_execGuarded [∀ s a, Decidable (guard s a)] {acts : List α} {outs : List ω}
    (h : m.execGuarded guard init acts = some (s, outs)) : m.Run guard init acts outs s := by
  induction acts generalizing init outs with
  | nil =>
    obtain ⟨rfl, rfl⟩ : init = s ∧ [] = outs := by simpa [execGuarded] using h
    exact .nil
  | cons a acts ih =>
    rw [execGuarded] at h
    split at h
    · rename_i hguard
      simp only [Option.bind_eq_some_iff, Option.map_eq_some_iff, Prod.mk.injEq] at h
      obtain ⟨⟨t, o⟩, hstep, ⟨s'', outs'⟩, hrest, rfl, rfl⟩ := h
      have hfirst : m.Run guard init ([] ++ [a]) ([] ++ [o]) t := Run.nil.snoc hguard hstep
      exact hfirst.append (ih hrest)
    · cases h

/-- Related states that answer every allowed action alike, and stay related, answer every list of
allowed actions alike. -/
theorem exec_congr {R : σ → σ → Prop} (ok : α → Prop)
    (hR : ∀ s t a, R s t → ok a →
      ∃ s' t' o, m.step s a = some (s', o) ∧ m.step t a = some (t', o) ∧ R s' t')
    {s t : σ} (hst : R s t) (acts : List α) (hok : ∀ a ∈ acts, ok a) :
    ∃ s' t' outs, m.exec s acts = some (s', outs) ∧ m.exec t acts = some (t', outs) ∧ R s' t' := by
  induction acts generalizing s t with
  | nil => exact ⟨s, t, [], rfl, rfl, hst⟩
  | cons a acts ih =>
    obtain ⟨s', t', o, hs, ht, hst'⟩ := hR s t a hst (hok a (by simp))
    obtain ⟨s'', t'', outs, hs'', ht'', hst''⟩ := ih hst' fun b hb => hok b (by simp [hb])
    exact ⟨s'', t'', o :: outs, by simp [exec, hs, hs''], by simp [exec, ht, ht''], hst''⟩

end Machine

theorem List.sum_set_lt_add {ranks : List ℕ} {i r r' e : ℕ} (hr : ranks[i]? = some r) (hlt : r' < r + e) :
    (ranks.set i r').sum < ranks.sum + e := by
  induction ranks generalizing i with
  | nil => simp at hr
  | cons x ranks ih =>
    cases i with
    | zero =>
      obtain rfl : x = r := by simpa using hr
      simp only [List.set_cons_zero, List.sum_cons]
      omega
    | succ i =>
      have := ih (i := i) (by simpa using hr)
      simp only [List.set_cons_succ, List.sum_cons]
      omega

theorem List.sum_set_lt {ranks : List ℕ} {i r r' : ℕ} (hr : ranks[i]? = some r) (hlt : r' < r) :
    (ranks.set i r').sum < ranks.sum := sum_set_lt_add (e := 0) hr hlt
