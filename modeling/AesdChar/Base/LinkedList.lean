import AesdChar.Base.BlockHeap
import Mathlib.Data.List.Perm.Subperm

/-!
# Singly linked lists in a heap

A cell is a block that holds one value, and `link` is the pointer in a value. `Chain link h p bs`
says that from `p` on exactly the cells `bs` are reached, in this order, and that all of them are
live. A heap has at most one chain from a pointer, so a chain never comes back to a cell, and walking
it ends after as many steps as the heap has names (`last_eq`). Freeing the cells on the way frees each
of them once (`release_eq`).
-/

namespace LinkedList
open BlockHeap

variable {α : Type*} (link : α → Option ℕ)

/-- The value in a cell. -/
def cell (h : Heap α) (b : ℕ) : Option α := (h.load b 0 1).bind List.head?

/-- From the pointer on, the live cells `bs` are linked one behind the other. -/
def Chain (h : Heap α) : Option ℕ → List ℕ → Prop
  | p, [] => p = none
  | p, b :: bs => p = some b ∧ ∃ x, h.Has b 1 [x] ∧ Chain h (link x) bs

/-- Walk from a cell to the one without a link. `none` when the fuel is used up before that. -/
def last (h : Heap α) : ℕ → ℕ → Option ℕ
  | 0, _ => none
  | fuel + 1, b => (cell h b).bind fun x =>
    match link x with
    | none => some b
    | some c => last h fuel c

/-- Free the cells from the pointer on, each behind the read of its link. -/
def release (h : Heap α) : ℕ → Option ℕ → Option (Heap α)
  | _, none => some h
  | 0, some _ => none
  | fuel + 1, some b => (cell h b).bind fun x => (h.free b).bind fun h => release h fuel (link x)

variable {link} {h h' : Heap α} {p : Option ℕ} {b c : ℕ} {as bs cs : List ℕ} {x y : α}

theorem cell_of_has (hb : h.Has b 1 [x]) : cell h b = some x := by
  have hload := hb.load_all
  unfold cell
  rw [List.length_singleton] at hload
  rw [hload]
  rfl

theorem live_of_cell (hb : cell h b = some x) : h.Live b := by
  intro hdead
  simp [cell, Heap.load, hdead] at hb

theorem has_unique (hx : h.Has b 1 [x]) (hy : h.Has b 1 [y]) : x = y := by
  have heq := (cell_of_has hx).symm.trans (cell_of_has hy)
  exact Option.some.inj heq

namespace Chain

theorem unique (hbs : Chain link h p bs) (hcs : Chain link h p cs) : bs = cs := by
  induction bs generalizing p cs with
  | nil =>
    cases cs with
    | nil => rfl
    | cons c cs =>
      have hnone : p = none := hbs
      rw [hnone] at hcs
      exact absurd hcs.1 (by simp)
  | cons b bs ih =>
    obtain ⟨rfl, x, hx, hbs⟩ := hbs
    cases cs with
    | nil => exact absurd hcs (by simp [Chain])
    | cons c cs =>
      obtain ⟨hc, y, hy, hcs⟩ := hcs
      obtain rfl := Option.some.inj hc
      obtain rfl := has_unique hx hy
      rw [ih hbs hcs]

theorem suffix (hchain : Chain link h p (as ++ b :: bs)) : Chain link h (some b) (b :: bs) := by
  induction as generalizing p with
  | nil =>
    obtain ⟨rfl, hrest⟩ := hchain
    exact ⟨rfl, hrest⟩
  | cons a as ih =>
    obtain ⟨-, x, -, hrest⟩ := hchain
    exact ih hrest

theorem has (hchain : Chain link h p bs) (hb : b ∈ bs) : ∃ x, h.Has b 1 [x] := by
  obtain ⟨as, cs, rfl⟩ := List.append_of_mem hb
  obtain ⟨-, x, hx, -⟩ := hchain.suffix
  exact ⟨x, hx⟩

theorem nodup (hchain : Chain link h p bs) : bs.Nodup := by
  induction bs generalizing p with
  | nil => exact List.nodup_nil
  | cons b bs ih =>
    obtain ⟨rfl, x, hx, hrest⟩ := hchain
    have hself : Chain link h (some b) (b :: bs) := ⟨rfl, x, hx, hrest⟩
    refine List.nodup_cons.2 ⟨fun hmem => ?_, ih hrest⟩
    obtain ⟨as, cs, rfl⟩ := List.append_of_mem hmem
    have heq := congrArg List.length (hself.unique hrest.suffix)
    simp only [List.length_cons, List.length_append] at heq
    omega

theorem length_le (hchain : Chain link h p bs) : bs.length ≤ h.next := by
  have hsub : bs ⊆ List.range h.next := by
    intro b hb
    obtain ⟨x, hx⟩ := hchain.has hb
    exact List.mem_range.2 hx.lt_next
  have hle := (hchain.nodup.subperm hsub).length_le
  rwa [List.length_range] at hle

theorem congr (hchain : Chain link h p bs) (hsame : ∀ b ∈ bs, h'.block b = h.block b) :
    Chain link h' p bs := by
  induction bs generalizing p with
  | nil => exact hchain
  | cons b bs ih =>
    obtain ⟨hp, x, hx, hrest⟩ := hchain
    exact ⟨hp, x, hx.congr (hsame b (by simp)), ih hrest fun c hc => hsame c (by simp [hc])⟩

theorem update (hchain : Chain link h p bs) (hoff : Heap.AgreesOff b h h') (hx : h.Has b 1 [x])
    (hy : h'.Has b 1 [y]) (hlink : link y = link x) : Chain link h' p bs := by
  induction bs generalizing p with
  | nil => exact hchain
  | cons c bs ih =>
    obtain ⟨hp, z, hz, hrest⟩ := hchain
    by_cases hcb : c = b
    · subst hcb
      obtain rfl := has_unique hx hz
      exact ⟨hp, y, hy, hlink ▸ ih hrest⟩
    · exact ⟨hp, z, hz.congr (hoff.block c hcb), ih hrest⟩

/-- Linking the last cell to a new one puts that behind the chain. -/
theorem concat (hchain : Chain link h p (as ++ [b])) (hoff : Heap.AgreesOff b h h')
    (hb : h'.Has b 1 [x]) (hlink : link x = some c) (hc : h'.Has c 1 [y]) (hend : link y = none) :
    Chain link h' p (as ++ [b] ++ [c]) := by
  have hnodup := hchain.nodup
  induction as generalizing p with
  | nil =>
    obtain ⟨hp, -⟩ := hchain
    exact ⟨hp, x, hb, hlink, y, hc, hend⟩
  | cons a as ih =>
    obtain ⟨hp, z, hz, hrest⟩ := hchain
    have hne : a ≠ b := by
      rintro rfl
      simp at hnodup
    exact ⟨hp, z, hz.congr (hoff.block a hne), ih hrest (List.nodup_cons.1 hnodup).2⟩

theorem last_eq (hchain : Chain link h (some b) (as ++ [c])) {fuel : ℕ} (hfuel : as.length < fuel) :
    last link h fuel b = some c ∧ ∃ x, h.Has c 1 [x] ∧ link x = none := by
  induction as generalizing b fuel with
  | nil =>
    obtain ⟨fuel, rfl⟩ : ∃ n, fuel = n + 1 := ⟨fuel - 1, by simp at hfuel; omega⟩
    obtain ⟨hb, x, hx, hend⟩ := hchain
    obtain rfl := Option.some.inj hb
    have hend : link x = none := hend
    refine ⟨?_, x, hx, hend⟩
    rw [last, cell_of_has hx, Option.bind_some]
    simp only [hend]
  | cons a as ih =>
    obtain ⟨fuel, rfl⟩ : ∃ n, fuel = n + 1 := ⟨fuel - 1, by simp at hfuel; omega⟩
    rw [List.length_cons] at hfuel
    obtain ⟨hb, x, hx, hrest⟩ := hchain
    obtain rfl := Option.some.inj hb
    obtain ⟨d, hd⟩ : ∃ d, link x = some d := by
      cases as with
      | nil => exact ⟨c, hrest.1⟩
      | cons d as => exact ⟨d, hrest.1⟩
    rw [hd] at hrest
    have hfuel : as.length < fuel := by omega
    obtain ⟨hlast, hend⟩ := ih hrest hfuel
    refine ⟨?_, hend⟩
    rw [last, cell_of_has hx, Option.bind_some]
    simp only [hd]
    exact hlast

/-- The cells of a chain, and no others, are freed, one behind the other. -/
theorem release_eq (hchain : Chain link h p bs) {fuel : ℕ} (hfuel : bs.length ≤ fuel) :
    ∃ h', release link h fuel p = some h' ∧ h'.freed = h.freed ++ bs ∧
      ∀ b, h'.block b = if b ∈ bs then none else h.block b := by
  have hnodup := hchain.nodup
  induction bs generalizing h p fuel with
  | nil =>
    obtain rfl : p = none := hchain
    refine ⟨h, ?_, by simp, by simp⟩
    cases fuel <;> rfl
  | cons b bs ih =>
    obtain ⟨fuel, rfl⟩ : ∃ n, fuel = n + 1 := ⟨fuel - 1, by simp at hfuel; omega⟩
    obtain ⟨rfl, x, hx, hrest⟩ := hchain
    obtain ⟨hb, hnodup⟩ := List.nodup_cons.1 hnodup
    obtain ⟨h₁, hfree, hdead, hfreed, -, hoff⟩ := Heap.free_of_live hx.live
    have hrest₁ : Chain link h₁ (link x) bs :=
      hrest.congr fun c hc => hoff c fun hcb => hb (hcb ▸ hc)
    obtain ⟨h', hrelease, hfreed', hblock⟩ := ih hrest₁ (Nat.le_of_succ_le_succ hfuel) hnodup
    refine ⟨h', ?_, ?_, fun c => ?_⟩
    · rw [release, cell_of_has hx, Option.bind_some, hfree, Option.bind_some]
      exact hrelease
    · rw [hfreed', hfreed, List.append_assoc, List.singleton_append]
    · rw [hblock]
      by_cases hcb : c = b
      · subst hcb
        rw [if_neg hb, if_pos List.mem_cons_self]
        exact hdead
      · simp only [List.mem_cons, hcb, false_or]
        rw [hoff c hcb]

end Chain

end LinkedList
