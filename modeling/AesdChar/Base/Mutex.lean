import Mathlib.Logic.Basic

/-!
# Mutexes

A mutex is the thread that holds it, or none. `Tracks` says that it is held by exactly the threads
that a predicate names, so by at most one (`Tracks.unique`). A step of one thread keeps, takes or
gives back the mutex (`Handover`), and the predicate goes along (`Tracks.step`).
-/

namespace Mutex
variable {θ : Type*} {m m' : Option θ} {holds holds' : θ → Prop} {t u : θ}

/-- The mutex is held by those that `holds` names. -/
def Tracks (m : Option θ) (holds : θ → Prop) : Prop := ∀ t, m = some t ↔ holds t

/-- Thread `t` keeps the mutex as it is, takes it or gives it back. -/
def Handover (t : θ) (m m' : Option θ) (held held' : Prop) : Prop :=
  (m' = m ∧ (held' ↔ held)) ∨ (m = none ∧ m' = some t ∧ held') ∨ (m = some t ∧ m' = none ∧ ¬ held')

theorem Handover.keep {held held' : Prop} (h : held' ↔ held) : Handover t m m held held' :=
  Or.inl ⟨rfl, h⟩

theorem Handover.take {held held' : Prop} (h : held') (hm : m = none) :
    Handover t m (some t) held held' := Or.inr (Or.inl ⟨hm, rfl, h⟩)

theorem Handover.give {held held' : Prop} (h : ¬ held') (hm : m = some t) :
    Handover t m none held held' := Or.inr (Or.inr ⟨hm, rfl, h⟩)

/-- Mutual exclusion. -/
theorem Tracks.unique (h : Tracks m holds) (ht : holds t) (hu : holds u) : t = u :=
  Option.some.inj (((h t).2 ht).symm.trans ((h u).2 hu))

theorem Tracks.eq_none_iff (h : Tracks m holds) : m = none ↔ ∀ t, ¬ holds t := by
  constructor
  · rintro rfl t ht
    exact absurd ((h t).2 ht) (by simp)
  · intro hfree
    rw [Option.eq_none_iff_forall_ne_some]
    intro t ht
    exact hfree t ((h t).1 ht)

theorem Tracks.step (h : Tracks m holds) (hstep : Handover t m m' (holds t) (holds' t))
    (hothers : ∀ u, u ≠ t → (holds' u ↔ holds u)) : Tracks m' holds' := by
  intro u
  by_cases hu : u = t
  · subst hu
    rcases hstep with ⟨rfl, hsame⟩ | ⟨-, rfl, hheld⟩ | ⟨-, rfl, hfree⟩
    · rw [hsame]
      exact h u
    · simp [hheld]
    · simp [hfree]
  · rw [hothers u hu]
    rcases hstep with ⟨rfl, -⟩ | ⟨rfl, rfl, -⟩ | ⟨rfl, rfl, -⟩
    · exact h u
    · rw [← h u]
      simp [Ne.symm hu]
    · rw [← h u]
      simp [Ne.symm hu]

end Mutex
