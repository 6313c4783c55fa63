import Mathlib.Data.List.Basic
import Mathlib.Data.List.Flatten
import Mathlib.Tactic.ByContra

/-!
# Contiguous runs

The elements of a list that have a property stand together exactly if no other element is between two
of them (`together_iff`). So when blocks with labels are written out one after the other, all that one
label wrote is a single run, and is there once, exactly if no other label has a block between two
blocks of this one (`appearsOnce_own_iff`). An empty block would not be seen, so there is none.
-/

namespace Contiguous
open scoped List
variable {α β θ : Type*} {p : α → Prop} {l : List α} {t : θ}

/-! ### The elements with a property -/

/-- The elements with the property stand next to each other, and there are no others. -/
def Together (p : α → Prop) (l : List α) : Prop :=
  ∃ pre mid post, l = pre ++ mid ++ post ∧ (∀ x ∈ mid, p x) ∧ ∀ x ∈ pre ++ post, ¬ p x

/-- Between two elements with the property are only such elements. -/
def NoneBetween (p : α → Prop) (l : List α) : Prop := ∀ a x b, [a, x, b] <+ l → p a → p b → p x

theorem sublist_behind {a : α} {as front : List α} (ha : a ∉ front) (h : a :: as <+ front ++ l) :
    a :: as <+ l := by
  induction front with
  | nil => exact h
  | cons x front ih =>
    rw [List.mem_cons, not_or] at ha
    rw [List.cons_append] at h
    rcases List.sublist_cons_iff.1 h with hsub | ⟨r, heq, -⟩
    · exact ih ha.2 hsub
    · exact absurd (List.cons.inj heq).1 ha.1

theorem Together.noneBetween (h : Together p l) : NoneBetween p l := by
  obtain ⟨pre, mid, post, rfl, hmid, houter⟩ := h
  intro a x b hsub ha hb
  by_contra hx
  rw [List.append_assoc] at hsub
  have hpre : a ∉ pre := fun hmem => houter a (List.mem_append_left post hmem) ha
  have hbehind : [x, b] <+ mid ++ post :=
    (List.sublist_cons_self a [x, b]).trans (sublist_behind hpre hsub)
  have hpost : [x, b] <+ post := sublist_behind (fun hmem => hx (hmid x hmem)) hbehind
  exact houter b (List.mem_append_right pre (hpost.subset (by simp))) hb

theorem NoneBetween.together (h : NoneBetween p l) : Together p l := by
  induction l with
  | nil => exact ⟨[], [], [], rfl, by simp, by simp⟩
  | cons x l ih =>
    obtain ⟨pre, mid, post, rfl, hmid, houter⟩ := ih fun a y b hsub => h a y b (hsub.cons x)
    by_cases hx : p x
    · cases mid with
      | nil => exact ⟨[], [x], pre ++ post, by simp, by simpa using hx, by simpa using houter⟩
      | cons m mid =>
        -- `x` and `m` have the property, so nothing without it is between them
        have hpre : pre = [] := by
          rw [List.eq_nil_iff_forall_not_mem]
          intro y hy
          refine houter y (List.mem_append_left post hy) (h x y m ?_ hx (hmid m (by simp)))
          rw [List.append_assoc]
          apply List.Sublist.cons_cons
          exact (List.singleton_sublist.2 hy).append (List.singleton_sublist.2 (by simp))
        subst hpre
        refine ⟨[], x :: m :: mid, post, rfl, fun y hy => ?_, houter⟩
        rcases List.mem_cons.1 hy with rfl | hy
        · exact hx
        · exact hmid y hy
    · refine ⟨x :: pre, mid, post, rfl, hmid, fun y hy => ?_⟩
      rw [List.cons_append] at hy
      rcases List.mem_cons.1 hy with rfl | hy
      · exact hx
      · exact houter y hy

/-- **Together means that nothing else is in between.** -/
theorem together_iff : Together p l ↔ NoneBetween p l := ⟨Together.noneBetween, NoneBetween.together⟩

/-! ### Blocks with labels -/

/-- The blocks written out, each element with the label of its block. -/
def spread (blocks : List (θ × List β)) : List (θ × β) := blocks.flatMap fun b => b.2.map (Prod.mk b.1)

/-- The blocks with a label. -/
def blocksOf [DecidableEq θ] (t : θ) (blocks : List (θ × List β)) : List (List β) :=
  (blocks.filter (·.1 = t)).map Prod.snd

/-- What a label wrote. -/
def own [DecidableEq θ] (t : θ) (blocks : List (θ × List β)) : List β := (blocksOf t blocks).flatten

/-- `xs` is there with the label `t` as a single run, and nothing else has this label. -/
def AppearsOnce (t : θ) (xs : List β) (l : List (θ × β)) : Prop :=
  ∃ pre post, l = pre ++ xs.map (Prod.mk t) ++ post ∧ ∀ x ∈ pre ++ post, x.1 ≠ t

theorem spread_append (bs cs : List (θ × List β)) : spread (bs ++ cs) = spread bs ++ spread cs :=
  List.flatMap_append

theorem mem_spread {x : θ × β} {blocks : List (θ × List β)} :
    x ∈ spread blocks ↔ ∃ b ∈ blocks, b.1 = x.1 ∧ x.2 ∈ b.2 := by
  unfold spread
  rw [List.mem_flatMap]
  constructor
  · rintro ⟨b, hb, hx⟩
    obtain ⟨y, hy, rfl⟩ := List.mem_map.1 hx
    exact ⟨b, hb, rfl, hy⟩
  · rintro ⟨b, hb, hlabel, hx⟩
    exact ⟨b, hb, List.mem_map.2 ⟨x.2, hx, by rw [hlabel]⟩⟩

theorem map_snd_spread (blocks : List (θ × List β)) :
    (spread blocks).map Prod.snd = blocks.flatMap Prod.snd := by
  unfold spread
  rw [List.map_flatMap]
  simp [Function.comp_def]

theorem sublist_spread {blocks : List (θ × List β)} {a x b : θ × List β}
    (hne : ∀ b ∈ blocks, b.2 ≠ []) (h : [a, x, b] <+ blocks) :
    ∃ a' x' b', [(a.1, a'), (x.1, x'), (b.1, b')] <+ spread blocks := by
  obtain ⟨a', ha⟩ := List.exists_mem_of_ne_nil _ (hne a (h.subset (by simp)))
  obtain ⟨x', hx⟩ := List.exists_mem_of_ne_nil _ (hne x (h.subset (by simp)))
  obtain ⟨b', hb⟩ := List.exists_mem_of_ne_nil _ (hne b (h.subset (by simp)))
  refine ⟨a', x', b', List.Sublist.trans ?_ (h.flatMap fun b => b.2.map (Prod.mk b.1))⟩
  have hone : ∀ (c : θ × List β) (c' : β), c' ∈ c.2 → [(c.1, c')] <+ c.2.map (Prod.mk c.1) :=
    fun c c' hc => List.singleton_sublist.2 (List.mem_map.2 ⟨c', hc, rfl⟩)
  simp only [List.flatMap_cons, List.flatMap_nil, List.append_nil]
  exact (hone a a' ha).append ((hone x x' hx).append (hone b b' hb))

section
variable [DecidableEq θ] {blocks : List (θ × List β)}

theorem blocksOf_append (t : θ) (bs cs : List (θ × List β)) :
    blocksOf t (bs ++ cs) = blocksOf t bs ++ blocksOf t cs := by
  unfold blocksOf
  rw [List.filter_append, List.map_append]

theorem blocksOf_singleton (t u : θ) (xs : List β) :
    blocksOf t [(u, xs)] = if u = t then [xs] else [] := by
  unfold blocksOf
  by_cases h : u = t <;> simp [h]

theorem own_append (t : θ) (bs cs : List (θ × List β)) : own t (bs ++ cs) = own t bs ++ own t cs := by
  unfold own
  rw [blocksOf_append, List.flatten_append]

theorem own_of_forall_ne (h : ∀ b ∈ blocks, b.1 ≠ t) : own t blocks = [] := by
  unfold own blocksOf
  rw [List.filter_eq_nil_iff.2 (by simpa using h)]
  rfl

theorem spread_of_forall_eq (h : ∀ b ∈ blocks, b.1 = t) :
    spread blocks = (own t blocks).map (Prod.mk t) := by
  induction blocks with
  | nil => rfl
  | cons b blocks ih =>
    obtain ⟨u, xs⟩ := b
    obtain rfl : u = t := h (u, xs) (by simp)
    rw [← List.singleton_append, spread_append, own_append, List.map_append,
      ih fun c hc => h c (by simp [hc])]
    unfold spread own
    rw [blocksOf_singleton, if_pos rfl, List.flatMap_singleton, List.flatten_singleton]

/-- **What a label wrote is one run**, and is there once, exactly if no other label has a block between
two blocks of this one. -/
theorem appearsOnce_own_iff (hne : ∀ b ∈ blocks, b.2 ≠ []) :
    AppearsOnce t (own t blocks) (spread blocks) ↔ NoneBetween (· = t) (blocks.map Prod.fst) := by
  constructor
  · rintro ⟨pre, post, heq, houter⟩ a x b hsub ha hb
    have htogether : Together (fun y : θ × β => y.1 = t) (spread blocks) := by
      refine ⟨pre, _, post, heq, fun y hy => ?_, houter⟩
      obtain ⟨-, -, rfl⟩ := List.mem_map.1 hy
      rfl
    obtain ⟨three, hthree, hmap⟩ := List.sublist_map_iff.1 hsub
    obtain ⟨a₁, x₁, b₁, rfl⟩ := List.length_eq_three.1 (by simpa using (congrArg List.length hmap).symm)
    obtain ⟨rfl, rfl, rfl⟩ : a = a₁.1 ∧ x = x₁.1 ∧ b = b₁.1 := by simpa using hmap
    obtain ⟨a', x', b', hspread⟩ := sublist_spread hne hthree
    exact together_iff.1 htogether _ _ _ hspread ha hb
  · intro h
    have hblocks : NoneBetween (fun b : θ × List β => b.1 = t) blocks :=
      fun a x b hsub => h a.1 x.1 b.1 (hsub.map Prod.fst)
    obtain ⟨pre, mid, post, rfl, hmid, houter⟩ := together_iff.2 hblocks
    have hpre : ∀ b ∈ pre, b.1 ≠ t := fun b hb => houter b (List.mem_append_left post hb)
    have hpost : ∀ b ∈ post, b.1 ≠ t := fun b hb => houter b (List.mem_append_right pre hb)
    refine ⟨spread pre, spread post, ?_, fun x hx => ?_⟩
    · rw [spread_append, spread_append, own_append, own_append, own_of_forall_ne hpre,
        own_of_forall_ne hpost, List.nil_append, List.append_nil, spread_of_forall_eq hmid]
    · rw [← spread_append] at hx
      obtain ⟨b, hb, hlabel, -⟩ := mem_spread.1 hx
      rw [← hlabel]
      exact houter b hb

end

end Contiguous
