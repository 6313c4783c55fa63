import Mathlib.Algebra.BigOperators.Group.Finset.Basic
import Mathlib.Algebra.Order.BigOperators.Group.Finset
import Mathlib.Data.Fintype.Option
import Mathlib.Data.Fintype.BigOperators

/-!
# Tables of slots

A table has a fixed number of slots. A value goes into the lowest free one (`place`), and stays there
under its number until the slot is cleared. What is in a table is counted value by value
(`count_set`), and the values and the free slots together are the whole table
(`count_none_add_sum`).
-/

namespace Slots

variable {α : Type*} {t t' : List (Option α)} {i : ℕ} {x y z : Option α}

/-- Put a value into the lowest free slot. -/
def place (t : List (Option α)) (v : α) : Option (ℕ × List (Option α)) :=
  (t.findIdx? Option.isNone).map fun i => (i, t.set i (some v))

theorem place_cases {v : α} (h : place t v = some (i, t')) :
    t[i]? = some none ∧ t' = t.set i (some v) := by
  obtain ⟨j, hj, heq⟩ := Option.map_eq_some_iff.1 h
  obtain ⟨rfl, rfl⟩ := Prod.mk.inj heq
  obtain ⟨hlt, hfree, -⟩ := List.findIdx?_eq_some_iff_getElem.1 hj
  refine ⟨?_, rfl⟩
  rw [List.getElem?_eq_getElem hlt, Option.isNone_iff_eq_none.1 hfree]

theorem place_length {v : α} (h : place t v = some (i, t')) : t'.length = t.length := by
  rw [(place_cases h).2, List.length_set]

variable [DecidableEq α]

theorem exists_place (h : 0 < t.count none) (v : α) : ∃ i t', place t v = some (i, t') := by
  cases hfind : t.findIdx? Option.isNone with
  | some i => exact ⟨i, _, by rw [place, hfind, Option.map_some]⟩
  | none =>
    have hfull := List.findIdx?_eq_none_iff.1 hfind none (List.count_pos_iff.1 h)
    cases hfull

theorem count_set (hx : t[i]? = some x) (y z : Option α) :
    (t.set i y).count z + (if x = z then 1 else 0) = t.count z + (if y = z then 1 else 0) := by
  induction t generalizing i with
  | nil => simp at hx
  | cons w t ih =>
    cases i with
    | zero =>
      obtain rfl : w = x := by simpa using hx
      simp only [List.set_cons_zero, List.count_cons, beq_iff_eq]
      omega
    | succ i =>
      have hrest := ih (i := i) (by simpa using hx)
      simp only [List.set_cons_succ, List.count_cons]
      omega

/-- The free slots and the values are the whole table. -/
theorem count_none_add_sum [Fintype α] (t : List (Option α)) :
    t.count none + ∑ v, t.count (some v) = t.length := by
  induction t with
  | nil => simp
  | cons x t ih =>
    simp only [List.count_cons, Finset.sum_add_distrib, List.length_cons]
    have hone : (if x == none then 1 else 0) + ∑ v, (if x == some v then 1 else 0) = 1 := by
      cases x <;> simp
    omega

theorem sum_count [Fintype α] (l : List α) : ∑ v, l.count v = l.length := by
  induction l with
  | nil => simp
  | cons x l ih =>
    simp only [List.count_cons, Finset.sum_add_distrib, List.length_cons, ih]
    simp

end Slots
