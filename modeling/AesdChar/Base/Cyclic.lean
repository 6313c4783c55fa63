import Mathlib.Data.List.DropRight
import Mathlib.Data.List.Basic

/-!
# Cyclic walks and bounded queues

`walk N slot start n` reads `n` slots of an array of `N` slots cyclically from `start`. Writing the
slot behind a walk makes it one longer (`walk_push`); writing the first slot of a full turn and
starting one later drops the oldest element and adds the new one (`walk_rotate`). Both are
`(xs ++ [x]).rtake N` of the walked list, and a queue that only ever does this holds the last `N`
elements of everything that was put in (`rtake_append_rtake`).
-/

namespace Cyclic
variable {α : Type*} {N : ℕ} {slot slot' : ℕ → α} {start n m : ℕ} {x : α}

/-- The `n` slots met from `start` on. -/
def walk (N : ℕ) (slot : ℕ → α) (start n : ℕ) : List α :=
  (List.range n).map fun i => slot ((start + i) % N)

@[simp] theorem length_walk : (walk N slot start n).length = n := by simp [walk]

@[simp] theorem walk_zero : walk N slot start 0 = [] := rfl

theorem getElem_walk {i : ℕ} (h : i < (walk N slot start n).length) :
    (walk N slot start n)[i] = slot ((start + i) % N) := by simp [walk]

theorem walk_succ : walk N slot start (n + 1) = walk N slot start n ++ [slot ((start + n) % N)] := by
  simp [walk, List.range_succ]

theorem walk_mod : walk N slot (start % N) n = walk N slot start n := by
  simp [walk, Nat.mod_add_mod]

theorem walk_cons : walk N slot start (n + 1) = slot (start % N) :: walk N slot (start + 1) n := by
  refine List.ext_getElem (by simp) fun i hi _ => ?_
  rw [getElem_walk]
  cases i with
  | zero => simp
  | succ i =>
    rw [List.getElem_cons_succ, getElem_walk]
    congr 2
    omega

theorem walk_add : walk N slot start (m + n) =
    walk N slot start m ++ walk N slot (start + m) n := by
  induction n with
  | zero => rw [Nat.add_zero, walk_zero, List.append_nil]
  | succ n ih => rw [← Nat.add_assoc, walk_succ, ih, walk_succ, ← List.append_assoc, Nat.add_assoc]

theorem walk_congr (h : ∀ i, i < n → slot ((start + i) % N) = slot' ((start + i) % N)) :
    walk N slot start n = walk N slot' start n := by
  simp only [walk]
  exact List.map_congr_left fun i hi => h i (List.mem_range.1 hi)

theorem add_mod_ne (start : ℕ) {i j : ℕ} (hij : i < j) (hj : j < N + i) :
    (start + i) % N ≠ (start + j) % N := by
  intro h
  have hmod : (start + j - (start + i)) % N = 0 := Nat.sub_mod_eq_zero_of_mod_eq h.symm
  have hsub : start + j - (start + i) = j - i := by omega
  rw [hsub, Nat.mod_eq_of_lt (by omega)] at hmod
  omega

theorem walk_perm (h : start ≤ N) : (walk N slot start N).Perm (walk N slot 0 N) := by
  have hzero : walk N slot N start = walk N slot 0 start := by rw [← walk_mod, Nat.mod_self]
  have hturn : walk N slot start (N - start + start) =
      walk N slot start (N - start) ++ walk N slot (start + (N - start)) start := walk_add
  have hline : walk N slot 0 (start + (N - start)) =
      walk N slot 0 start ++ walk N slot (0 + start) (N - start) := walk_add
  rw [Nat.sub_add_cancel h, Nat.add_sub_of_le h, hzero] at hturn
  rw [Nat.add_sub_of_le h, Nat.zero_add] at hline
  rw [hturn, hline]
  exact List.perm_append_comm

/-- Writing the slot behind the walk makes it one longer. -/
theorem walk_push (hn : n < N) (hnew : slot' ((start + n) % N) = x)
    (hold : ∀ j, j ≠ (start + n) % N → slot' j = slot j) :
    walk N slot' start (n + 1) = walk N slot start n ++ [x] := by
  rw [walk_succ, hnew]
  congr 1
  exact walk_congr fun i hi => hold _ (add_mod_ne start hi (by omega))

theorem walk_rotate (hstart : start < N) (hnew : slot' start = x)
    (hold : ∀ j, j ≠ start → slot' j = slot j) :
    walk N slot' ((start + 1) % N) N = (walk N slot start N).tail ++ [x] := by
  obtain ⟨M, rfl⟩ : ∃ M, N = M + 1 := ⟨N - 1, by omega⟩
  have hfirst : start % (M + 1) = start := Nat.mod_eq_of_lt hstart
  have hlast : (start + 1 + M) % (M + 1) = start := by
    rw [Nat.add_assoc, Nat.add_comm 1 M, Nat.add_mod_right, hfirst]
  have htail : (walk (M + 1) slot start (M + 1)).tail = walk (M + 1) slot (start + 1) M := by
    rw [walk_cons, List.tail_cons]
  rw [walk_mod, htail, walk_succ, hlast, hnew]
  congr 1
  refine walk_congr fun i hi => hold _ ?_
  have hne := add_mod_ne start (N := M + 1) (i := 0) (j := i + 1) (by omega) (by omega)
  rw [Nat.add_zero, hfirst] at hne
  rw [Nat.add_assoc, Nat.add_comm 1 i]
  exact hne.symm

end Cyclic

namespace List
variable {α : Type*} {N : ℕ} {xs ys : List α}

theorem length_rtake : (xs.rtake N).length = min N xs.length := by
  simp [rtake]
  omega

theorem rtake_of_length_le (h : xs.length ≤ N) : xs.rtake N = xs := by
  simp [rtake, Nat.sub_eq_zero_of_le h]

theorem rtake_suffix : xs.rtake N <:+ xs := drop_suffix _ _

/-- Forgetting early changes nothing: only the last `N` elements count. -/
theorem rtake_append_rtake : (xs.rtake N ++ ys).rtake N = (xs ++ ys).rtake N := by
  rcases le_total xs.length N with h | h
  · rw [rtake_of_length_le h]
  · have hdrop : xs.drop (xs.length - N) ++ ys = (xs ++ ys).drop (xs.length - N) :=
      (drop_append_of_le_length (by omega)).symm
    simp only [rtake, hdrop, length_append, length_drop, drop_drop]
    congr 1
    omega

theorem rtake_concat_of_length_eq {x : α} (h : xs.length = N) (hN : 0 < N) :
    (xs ++ [x]).rtake N = xs.tail ++ [x] := by
  rw [rtake, length_append, length_singleton, show xs.length + 1 - N = 1 by omega, drop_one]
  cases xs with
  | nil => simp at h; omega
  | cons y ys => rfl

end List
