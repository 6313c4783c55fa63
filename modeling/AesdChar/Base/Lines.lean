import AesdChar.Base.Cyclic

/-!
# Cutting a stream into lines, and bounded logs of lines

`IsLine p xs`: the first delimiter of `xs` is its last element. `cut p xs` cuts a stream after each
delimiter into its complete lines and the unterminated tail; it is the only such decomposition
(`cut_eq_of_lines`).

`LineLog` is what a line-buffered log keeps: the last `N` lines and the unfinished line. Data is
appended to the unfinished line, which moves into the log when it has become a line. When data
carries a delimiter at most as its last element, the log is the cut of the whole stream
(`LineLog.appendAll_eq_cut`), however the stream was split into appends.
-/

namespace Lines
variable {α β : Type*} (p : α → Bool)

/-- The first delimiter of `xs` is its last element. -/
def IsLine (xs : List α) : Prop := xs.findIdx p + 1 = xs.length

instance (xs : List α) : Decidable (IsLine p xs) := inferInstanceAs (Decidable (_ = _))

/-- The complete lines of a stream and its unterminated tail. -/
def cut : List α → List (List α) × List α
  | [] => ([], [])
  | x :: xs =>
    if p x then ([x] :: (cut xs).1, (cut xs).2)
    else match cut xs with
      | ([], tail) => ([], x :: tail)
      | (line :: lines, tail) => ((x :: line) :: lines, tail)

variable {p} {xs ys tail : List α}

theorem IsLine.ne_nil (h : IsLine p xs) : xs ≠ [] := by
  rintro rfl
  simp [IsLine] at h

theorem IsLine.length_pos (h : IsLine p xs) : 0 < xs.length := List.length_pos_iff.2 h.ne_nil

theorem not_isLine_of_free (h : ∀ x ∈ xs, p x = false) : ¬ IsLine p xs := by
  rw [IsLine, List.findIdx_eq_length.2 h]
  omega

theorem isLine_iff : IsLine p xs ↔ ∃ body d, xs = body ++ [d] ∧ p d ∧ ∀ x ∈ body, p x = false := by
  constructor
  · intro h
    obtain ⟨body, d, rfl⟩ : ∃ body d, xs = body ++ [d] :=
      ⟨xs.dropLast, xs.getLast h.ne_nil, (List.dropLast_append_getLast h.ne_nil).symm⟩
    refine ⟨body, d, rfl, ?_⟩
    have hle : body.findIdx p ≤ body.length := List.findIdx_le_length
    rw [IsLine, List.findIdx_append, List.length_append, List.length_singleton] at h
    have hbody : body.findIdx p = body.length := by
      split at h <;> omega
    have hd : p d := by
      rw [if_neg (by omega)] at h
      by_contra hd
      simp [hd] at h
    exact ⟨hd, List.findIdx_eq_length.1 hbody⟩
  · rintro ⟨body, d, rfl, hd, hbody⟩
    rw [IsLine, List.findIdx_append, List.findIdx_eq_length.2 hbody]
    simp [hd]

theorem cut_nil : cut p [] = ([], []) := rfl

theorem cut_free (h : ∀ x ∈ xs, p x = false) : cut p xs = ([], xs) := by
  induction xs with
  | nil => rfl
  | cons x xs ih => simp [cut, h x (by simp), ih fun y hy => h y (by simp [hy])]

theorem cut_line_append (h : IsLine p xs) (ys : List α) :
    cut p (xs ++ ys) = (xs :: (cut p ys).1, (cut p ys).2) := by
  obtain ⟨body, d, rfl, hd, hbody⟩ := isLine_iff.1 h
  clear h
  induction body with
  | nil => simp [cut, hd]
  | cons x body ih =>
    have hx := hbody x (by simp)
    have hrest := ih fun y hy => hbody y (by simp [hy])
    simp only [List.cons_append, cut, hx, Bool.false_eq_true, if_false] at hrest ⊢
    rw [hrest]

/-- Lines followed by a delimiter-free tail are cut into themselves: `cut` is the only
decomposition of a stream into lines and a tail. -/
theorem cut_eq_of_lines {lines : List (List α)} (hlines : ∀ l ∈ lines, IsLine p l)
    (htail : ∀ x ∈ tail, p x = false) : cut p (lines.flatten ++ tail) = (lines, tail) := by
  induction lines with
  | nil => simpa using cut_free htail
  | cons l lines ih =>
    rw [List.flatten_cons, List.append_assoc, cut_line_append (hlines l (by simp)),
      ih fun l' hl' => hlines l' (by simp [hl'])]

theorem exists_lines (p : α → Bool) (xs : List α) :
    ∃ (lines : List (List α)) (tail : List α), xs = lines.flatten ++ tail ∧
    (∀ l ∈ lines, IsLine p l) ∧ ∀ x ∈ tail, p x = false := by
  induction xs with
  | nil => exact ⟨[], [], rfl, by simp, by simp⟩
  | cons x xs ih =>
    obtain ⟨lines, tail, rfl, hlines, htail⟩ := ih
    cases hx : p x with
    | true =>
      refine ⟨[x] :: lines, tail, by simp, ?_, htail⟩
      intro l hl
      rcases List.mem_cons.1 hl with rfl | hl
      · simp [IsLine, hx]
      · exact hlines l hl
    | false =>
      cases lines with
      | nil => exact ⟨[], x :: tail, by simp, by simp, by simpa [hx] using htail⟩
      | cons l lines =>
        refine ⟨(x :: l) :: lines, tail, by simp, ?_, htail⟩
        intro l' hl'
        rcases List.mem_cons.1 hl' with rfl | hl'
        · have := hlines l (by simp)
          simpa [IsLine, List.findIdx_cons, hx] using this
        · exact hlines l' (by simp [hl'])

theorem cut_lines (p : α → Bool) (xs : List α) : ∀ l ∈ (cut p xs).1, IsLine p l := by
  obtain ⟨lines, tail, rfl, hlines, htail⟩ := exists_lines p xs
  rwa [cut_eq_of_lines hlines htail]

theorem cut_tail_free (p : α → Bool) (xs : List α) : ∀ x ∈ (cut p xs).2, p x = false := by
  obtain ⟨lines, tail, rfl, hlines, htail⟩ := exists_lines p xs
  rwa [cut_eq_of_lines hlines htail]

theorem flatten_cut (p : α → Bool) (xs : List α) : (cut p xs).1.flatten ++ (cut p xs).2 = xs := by
  obtain ⟨lines, tail, rfl, hlines, htail⟩ := exists_lines p xs
  rw [cut_eq_of_lines hlines htail]

theorem cut_append (xs ys : List α) : cut p (xs ++ ys) =
    ((cut p xs).1 ++ (cut p ((cut p xs).2 ++ ys)).1, (cut p ((cut p xs).2 ++ ys)).2) := by
  conv_lhs => rw [← flatten_cut p xs, List.append_assoc, ← flatten_cut p ((cut p xs).2 ++ ys),
    ← List.append_assoc, ← List.flatten_append]
  refine cut_eq_of_lines ?_ (cut_tail_free p _)
  intro l hl
  rcases List.mem_append.1 hl with hl | hl
  · exact cut_lines p xs l hl
  · exact cut_lines p _ l hl

theorem isLine_append_iff (h : ∀ x ∈ xs, p x = false) : IsLine p (xs ++ ys) ↔ IsLine p ys := by
  rw [IsLine, IsLine, List.findIdx_append, List.findIdx_eq_length.2 h, List.length_append]
  simp
  omega

/-- Unless `xs` is a line itself, a delimiter in `xs` keeps every extension from being one. -/
theorem not_isLine_append (hxs : ¬ IsLine p xs) {x : α} (hmem : x ∈ xs) (hx : p x) :
    ¬ IsLine p (xs ++ ys) := by
  have hlt : xs.findIdx p < xs.length := List.findIdx_lt_length_of_exists ⟨x, hmem, hx⟩
  rw [IsLine, List.findIdx_append, if_pos hlt, List.length_append]
  rw [IsLine] at hxs
  omega

theorem IsLine.free_of_append (h : IsLine p (xs ++ ys)) (hys : ys ≠ []) : ∀ x ∈ xs, p x = false := by
  obtain ⟨body, d, heq, -, hbody⟩ := isLine_iff.1 h
  obtain ⟨ys, e, rfl⟩ := (List.eq_nil_or_concat' ys).resolve_left hys
  rw [← List.append_assoc] at heq
  obtain ⟨rfl, -⟩ := List.append_inj' heq rfl
  exact fun x hx => hbody x (List.mem_append_left _ hx)

/-- Delimiters occur in `xs` at most as the last element. -/
def EndsOnly (p : α → Bool) (xs : List α) : Prop := ∀ x ∈ xs.dropLast, p x = false

instance (xs : List α) : Decidable (EndsOnly p xs) := inferInstanceAs (Decidable (∀ x ∈ _, _))

theorem EndsOnly.cases (h : EndsOnly p xs) : (∀ x ∈ xs, p x = false) ∨ IsLine p xs := by
  rcases List.eq_nil_or_concat' xs with rfl | ⟨body, d, rfl⟩
  · simp
  · have hbody : ∀ x ∈ body, p x = false := by simpa [EndsOnly] using h
    cases hd : p d with
    | false =>
      left
      intro x hx
      rcases List.mem_append.1 hx with hx | hx
      · exact hbody x hx
      · rwa [List.mem_singleton.1 hx]
    | true => exact Or.inr (isLine_iff.2 ⟨body, d, rfl, hd, hbody⟩)

theorem isLine_iff_endsOnly (h : ∃ x ∈ xs, p x = true) : IsLine p xs ↔ EndsOnly p xs := by
  constructor
  · intro hline
    obtain ⟨body, d, rfl, -, hbody⟩ := isLine_iff.1 hline
    unfold EndsOnly
    rwa [List.dropLast_concat]
  · intro hends
    refine hends.cases.resolve_left fun hfree => ?_
    obtain ⟨x, hx, hdelim⟩ := h
    rw [hfree x hx] at hdelim
    exact absurd hdelim (by decide)

theorem isLine_flatten_iff {xss : List (List α)} (hfree : ∀ x ∈ xss.flatten, p x = false)
    (h : ∃ x ∈ xs, p x = true) :
    IsLine p (xss ++ [xs]).flatten ↔ ∀ ys ∈ xss ++ [xs], EndsOnly p ys := by
  rw [List.flatten_concat, isLine_append_iff hfree, isLine_iff_endsOnly h]
  constructor
  · intro hends ys hys
    rcases List.mem_append.1 hys with hys | hys
    · exact fun x hx => hfree x (List.mem_flatten.2 ⟨ys, hys, List.dropLast_subset _ hx⟩)
    · exact List.mem_singleton.1 hys ▸ hends
  · exact fun hall => hall xs (List.mem_append_right _ (List.mem_singleton_self _))

/-- The front up to the first delimiter, with that. -/
def firstLine (p : α → Bool) (xs : List α) : List α := xs.take (xs.findIdx p + 1)

theorem eq_firstLine_iff (h : ∃ x ∈ xs, p x = true) (ys : List α) :
    xs = firstLine p (xs ++ ys) ↔ IsLine p xs := by
  have hlt : xs.findIdx p < xs.length := List.findIdx_lt_length_of_exists h
  unfold firstLine IsLine
  rw [List.findIdx_append, if_pos hlt, List.take_append_of_le_length hlt]
  constructor
  · intro heq
    have hlen := congrArg List.length heq
    rw [List.length_take] at hlen
    omega
  · intro hlen
    rw [List.take_of_length_le (by omega)]

/-- A log of the last `N` lines and the unfinished line behind them. -/
structure LineLog (p : α → Bool) (N : ℕ) where
  lines : List (List α)
  pending : List α
  length_le : lines.length ≤ N
  isLine : ∀ l ∈ lines, IsLine p l
  unfinished : ¬ IsLine p pending

namespace LineLog
variable {N : ℕ} (log : LineLog p N)

@[ext] theorem ext {log log' : LineLog p N} (hlines : log.lines = log'.lines)
    (hpending : log.pending = log'.pending) : log = log' := by
  cases log
  cases log'
  simp_all

/-- The log before anything was appended. -/
def empty : LineLog p N := ⟨[], [], by simp, by simp, by simp [IsLine]⟩

/-- What a reader of the log sees. -/
def contents : List α := log.lines.flatten

/-- Append to the unfinished line; once it is a line, it moves into the log. -/
def append (xs : List α) : LineLog p N :=
  if h : IsLine p (log.pending ++ xs) then
    { lines := (log.lines ++ [log.pending ++ xs]).rtake N
      pending := []
      length_le := by rw [List.length_rtake]; exact Nat.min_le_left _ _
      isLine := fun l hl => by
        rcases List.mem_append.1 (List.rtake_suffix.subset hl) with hl | hl
        · exact log.isLine l hl
        · rwa [List.mem_singleton.1 hl]
      unfinished := by simp [IsLine] }
  else { log with pending := log.pending ++ xs, unfinished := h }

/-- Append several pieces in order. -/
def appendAll (xss : List (List α)) : LineLog p N := xss.foldl append log

variable {log}

theorem append_of_isLine (h : IsLine p (log.pending ++ xs)) :
    (log.append xs).lines = (log.lines ++ [log.pending ++ xs]).rtake N ∧
      (log.append xs).pending = [] := by
  simp [append, h]

theorem append_of_not_isLine (h : ¬ IsLine p (log.pending ++ xs)) :
    (log.append xs).lines = log.lines ∧ (log.append xs).pending = log.pending ++ xs := by
  simp [append, h]

@[simp] theorem append_nil : log.append [] = log := by
  have h : ¬ IsLine p (log.pending ++ []) := by simpa using log.unfinished
  ext1
  · exact (append_of_not_isLine h).1
  · simpa using (append_of_not_isLine h).2

theorem appendAll_concat (xss : List (List α)) :
    log.appendAll (xss ++ [xs]) = (log.appendAll xss).append xs := by
  simp [appendAll]

theorem append_pending_free (hfree : ∀ x ∈ log.pending, p x = false) (h : EndsOnly p xs) :
    ∀ x ∈ (log.append xs).pending, p x = false := by
  rcases h.cases with hxs | hxs
  · have hall : ∀ x ∈ log.pending ++ xs, p x = false := by
      simpa [or_imp, forall_and] using ⟨hfree, hxs⟩
    rwa [(append_of_not_isLine (not_isLine_of_free hall)).2]
  · rw [(append_of_isLine ((isLine_append_iff hfree).2 hxs)).2]
    simp

/-- The log is the cut of the stream, in whatever pieces the stream arrives, as long as delimiters
only end pieces. -/
theorem appendAll_eq_cut {xss : List (List α)} (h : ∀ xs ∈ xss, EndsOnly p xs) :
    ((empty : LineLog p N).appendAll xss).lines = (cut p xss.flatten).1.rtake N ∧
      ((empty : LineLog p N).appendAll xss).pending = (cut p xss.flatten).2 := by
  induction xss using List.reverseRecOn with
  | nil => simp [appendAll, empty, cut]
  | append_singleton xss xs ih =>
    obtain ⟨hlines, hpending⟩ := ih fun ys hys => h ys (by simp [hys])
    have hfree := cut_tail_free p xss.flatten
    rw [appendAll_concat, List.flatten_append, List.flatten_singleton, cut_append]
    generalize (empty : LineLog p N).appendAll xss = log at *
    rcases (h xs (by simp)).cases with hxs | hxs
    · have hall : ∀ x ∈ (cut p xss.flatten).2 ++ xs, p x = false := by
        simpa [or_imp, forall_and] using ⟨hfree, hxs⟩
      have hopen : ¬ IsLine p (log.pending ++ xs) := hpending ▸ not_isLine_of_free hall
      rw [(append_of_not_isLine hopen).1, (append_of_not_isLine hopen).2, cut_free hall, hlines,
        hpending]
      simp
    · have hline : IsLine p ((cut p xss.flatten).2 ++ xs) := (isLine_append_iff hfree).2 hxs
      have hclosed : IsLine p (log.pending ++ xs) := hpending ▸ hline
      have hcut : cut p ((cut p xss.flatten).2 ++ xs) = ([(cut p xss.flatten).2 ++ xs], []) := by
        simpa [cut_nil] using cut_line_append hline []
      rw [(append_of_isLine hclosed).1, (append_of_isLine hclosed).2, hcut, hlines, hpending,
        List.rtake_append_rtake]
      simp

end LineLog

end Lines
