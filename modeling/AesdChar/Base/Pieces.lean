import Mathlib.Algebra.GroupWithZero.Nat
import Mathlib.Data.List.Basic
import Mathlib.Algebra.BigOperators.Group.List.Basic

/-!
# Reading a byte sequence stored in pieces

`locate ns p` finds position `p` of the concatenation of pieces of lengths `ns`: the index of the
piece and the offset inside it. `restAt xss p` is what the piece at that position still holds.

`drain` is the loop of a reader who reads with the counts it likes until a read returns nothing. If
every read takes a non-empty front off what is left, unless nothing is left, the loop ends and has
read exactly what was left (`drain_eq`).
-/

namespace Pieces
variable {α σ : Type*}

/-- The piece that holds position `p`, and the offset of `p` in it. -/
def locate : List ℕ → ℕ → Option (ℕ × ℕ)
  | [], _ => none
  | n :: ns, p => if p < n then some (0, p) else (locate ns (p - n)).map fun r => (r.1 + 1, r.2)

/-- What the piece at position `p` holds from `p` on. -/
def restAt : List (List α) → ℕ → List α
  | [], _ => []
  | xs :: xss, p => if p < xs.length then xs.drop p else restAt xss (p - xs.length)

theorem locate_eq_none_iff {ns : List ℕ} {p : ℕ} : locate ns p = none ↔ ns.sum ≤ p := by
  induction ns generalizing p with
  | nil => simp [locate]
  | cons n ns ih =>
    rw [locate, List.sum_cons]
    split
    · simp
      omega
    · rw [Option.map_eq_none_iff, ih]
      omega

/-- The position found is the only one with that many elements before it. -/
theorem locate_eq_some_iff {ns : List ℕ} {p i k : ℕ} : locate ns p = some (i, k) ↔
    ∃ hi : i < ns.length, (ns.take i).sum + k = p ∧ k < ns[i] := by
  induction ns generalizing p i with
  | nil => simp [locate]
  | cons n ns ih =>
    unfold locate
    by_cases hp : p < n
    · rw [if_pos hp]
      constructor
      · intro h
        obtain ⟨rfl, rfl⟩ : 0 = i ∧ p = k := by simpa using h
        exact ⟨by simp, by simp, hp⟩
      · rintro ⟨hi, hsum, hk⟩
        cases i with
        | zero => simpa [eq_comm] using hsum
        | succ i =>
          rw [List.take_succ_cons, List.sum_cons] at hsum
          omega
    · rw [if_neg hp, Option.map_eq_some_iff]
      constructor
      · rintro ⟨⟨j, k'⟩, hj, hjk⟩
        obtain ⟨rfl, rfl⟩ : j + 1 = i ∧ k' = k := by simpa using hjk
        obtain ⟨hi, hsum, hk⟩ := ih.1 hj
        refine ⟨by simpa using hi, ?_, by simpa using hk⟩
        rw [List.take_succ_cons, List.sum_cons]
        omega
      · rintro ⟨hi, hsum, hk⟩
        cases i with
        | zero =>
          simp only [List.take_zero, List.sum_nil, List.getElem_cons_zero] at hsum hk
          omega
        | succ i =>
          rw [List.take_succ_cons, List.sum_cons] at hsum
          exact ⟨(i, k), ih.2 ⟨by simpa using hi, by omega, by simpa using hk⟩, rfl⟩

theorem locate_append_replicate (ns : List ℕ) (m p : ℕ) :
    locate (ns ++ List.replicate m 0) p = locate ns p := by
  induction ns generalizing p with
  | nil =>
    rw [List.nil_append]
    exact locate_eq_none_iff.2 (by simp)
  | cons n ns ih => simp [locate, ih]

theorem locate_restAt {xss : List (List α)} {p i k : ℕ}
    (h : locate (xss.map List.length) p = some (i, k)) :
    ∃ hi : i < xss.length, restAt xss p = xss[i].drop k ∧ k < xss[i].length := by
  induction xss generalizing p i with
  | nil => simp [locate] at h
  | cons xs xss ih =>
    rw [List.map_cons, locate] at h
    rw [restAt]
    split at h
    · rename_i hlt
      obtain ⟨rfl, rfl⟩ : 0 = i ∧ p = k := by simpa using h
      exact ⟨by simp, by simp [hlt], by simpa using hlt⟩
    · rename_i hge
      obtain ⟨⟨j, k'⟩, hj, hjk⟩ := Option.map_eq_some_iff.1 h
      obtain ⟨rfl, rfl⟩ : j + 1 = i ∧ k' = k := by simpa using hjk
      obtain ⟨hi, hrest, hlt⟩ := ih hj
      exact ⟨by simpa using hi, by simpa [hge] using hrest, by simpa using hlt⟩

theorem restAt_of_le {xss : List (List α)} {p : ℕ} (h : xss.flatten.length ≤ p) :
    restAt xss p = [] := by
  induction xss generalizing p with
  | nil => rfl
  | cons xs xss ih =>
    rw [List.flatten_cons, List.length_append] at h
    rw [restAt, if_neg (by omega)]
    exact ih (by omega)

theorem restAt_prefix (xss : List (List α)) (p : ℕ) : restAt xss p <+: xss.flatten.drop p := by
  induction xss generalizing p with
  | nil => simp [restAt]
  | cons xs xss ih =>
    rw [restAt, List.flatten_cons]
    split
    · rename_i hlt
      rw [List.drop_append_of_le_length (Nat.le_of_lt hlt)]
      exact List.prefix_append _ _
    · rename_i hge
      have := ih (p - xs.length)
      rwa [List.drop_append, List.drop_eq_nil_of_le (by omega), List.nil_append]

theorem restAt_eq_nil_iff {xss : List (List α)} {p : ℕ} :
    restAt xss p = [] ↔ xss.flatten.length ≤ p := by
  refine ⟨fun h => ?_, restAt_of_le⟩
  induction xss generalizing p with
  | nil => simp
  | cons xs xss ih =>
    rw [restAt] at h
    rw [List.flatten_cons, List.length_append]
    split at h
    · rw [List.drop_eq_nil_iff] at h
      omega
    · have := ih h
      omega

/-- Read with `counts i`, `counts (i + 1)`, … until a read returns nothing. `none` when the fuel is
used up before that, or when a read has no result. -/
def drain (read : σ → ℕ → Option (List α × σ)) (counts : ℕ → ℕ) : ℕ → ℕ → σ → Option (List α)
  | 0, _, _ => none
  | fuel + 1, i, s => (read s (counts i)).bind fun r =>
    if r.1.isEmpty then some [] else (drain read counts fuel (i + 1) r.2).map (r.1 ++ ·)

theorem drain_mono {read : σ → ℕ → Option (List α × σ)} {counts : ℕ → ℕ} {fuel i : ℕ} {s : σ}
    {xs : List α} (h : drain read counts fuel i s = some xs) (more : ℕ) (hmore : fuel ≤ more) :
    drain read counts more i s = some xs := by
  induction fuel generalizing more i s xs with
  | zero => cases h
  | succ fuel ih =>
    obtain ⟨more, rfl⟩ : ∃ n, more = n + 1 := ⟨more - 1, by omega⟩
    rw [drain] at h ⊢
    obtain ⟨r, hr, h⟩ := Option.bind_eq_some_iff.1 h
    rw [hr, Option.bind_some]
    split at h
    · rename_i hend
      rwa [if_pos hend]
    · rename_i hgo
      rw [if_neg hgo]
      obtain ⟨ys, hys, rfl⟩ := Option.map_eq_some_iff.1 h
      rw [ih hys more (by omega)]
      rfl

/-- A reader whose reads take a front off what is left, and an empty one only when nothing is left,
reads all that is left and stops. -/
theorem drain_eq {read : σ → ℕ → Option (List α × σ)} (left : σ → List α) (ok : σ → Prop)
    (hread : ∀ s n, ok s → 0 < n → ∃ xs s', read s n = some (xs, s') ∧ ok s' ∧
      left s = xs ++ left s' ∧ (xs = [] → left s = []))
    {counts : ℕ → ℕ} (hcounts : ∀ i, 0 < counts i) {fuel i : ℕ} {s : σ} (hs : ok s)
    (hfuel : (left s).length < fuel) : drain read counts fuel i s = some (left s) := by
  induction fuel generalizing i s with
  | zero => omega
  | succ fuel ih =>
    obtain ⟨xs, s', hxs, hs', hleft, hend⟩ := hread s (counts i) hs (hcounts i)
    cases xs with
    | nil => simp [drain, hxs, hend rfl]
    | cons x xs =>
      have hlen : (left s').length < fuel := by
        rw [hleft] at hfuel
        simp at hfuel
        omega
      simp [drain, hxs, ih hs' hlen, hleft]

end Pieces
