import Mathlib.Logic.Function.Basic
import Mathlib.Data.List.Nodup

/-!
# A heap of separately allocated blocks

A block is a list of cells; a cell is `none` until it is first written. The heap hands out block
names in order and never twice, so a stale name never names a later block: freeing a dead block,
leaving a block or reading a byte that was never written has no result. `freed` is the history of
the blocks given back. The facts that make a heap well formed are fields, so that no operation can
build an ill-formed one.

`h.Has b n xs` is the assertion that `b` is a live block of `n` cells whose first cells hold `xs`.
Every operation on a live block is described by it, together with the frame fact that the other
blocks keep their cells.

Some allocators give no block for a request of no cells but a fixed address: nothing can be accessed
through it, and giving it back does nothing. `Address` is what such an allocator hands out, and the
operations at an address (`allocAt`, `loadAt`, `storeAt`, `freeAt`) come with the same assertion,
`h.HasAt a n xs`, and the same frame facts.
-/

namespace BlockHeap
variable {α : Type*}

/-- The cells of a block; `none` is a cell that was never written. -/
abbrev Cells (α : Type*) := List (Option α)

namespace Cells

/-- The contents of cells that were all written. -/
def values : Cells α → Option (List α)
  | [] => some []
  | none :: _ => none
  | some x :: c => (values c).map (x :: ·)

/-- The `len` bytes from `off` on, if they lie inside the block and were written. -/
def load (c : Cells α) (off len : ℕ) : Option (List α) :=
  if off + len ≤ c.length then values ((c.drop off).take len) else none

/-- Overwrite the cells from `off` on, if they lie inside the block. -/
def store (c : Cells α) (off : ℕ) (xs : List α) : Option (Cells α) :=
  if off + xs.length ≤ c.length then
    some (c.take off ++ xs.map some ++ c.drop (off + xs.length))
  else none

@[simp] theorem values_map_some (xs : List α) : values (xs.map some) = some xs := by
  induction xs with
  | nil => rfl
  | cons x xs ih => simp [values, ih]

theorem load_of_prefix {xs : List α} {rest : Cells α} {off len : ℕ} (h : off + len ≤ xs.length) :
    load (xs.map some ++ rest) off len = some ((xs.drop off).take len) := by
  have htake : ((xs.map some ++ rest).drop off).take len = ((xs.drop off).take len).map some := by
    rw [List.drop_append_of_le_length (by simp; omega),
      List.take_append_of_le_length (by simp; omega), List.map_take, List.map_drop]
  rw [load, if_pos (by simp; omega), htake, values_map_some]

theorem store_at_end {xs ys : List α} {rest : Cells α} (h : ys.length ≤ rest.length) :
    store (xs.map some ++ rest) xs.length ys =
      some ((xs ++ ys).map some ++ rest.drop ys.length) := by
  have hdrop : (xs.map some ++ rest).drop (xs.length + ys.length) = rest.drop ys.length := by
    rw [← List.drop_drop, List.drop_left' (by simp)]
  rw [store, if_pos (by simp; omega), hdrop]
  simp

end Cells

/-- A heap of blocks named by natural numbers below `next`. -/
structure Heap (α : Type*) where
  next : ℕ
  block : ℕ → Option (Cells α)
  freed : List ℕ
  fresh : ∀ b, next ≤ b → block b = none
  dead_iff : ∀ b, b ∈ freed ↔ b < next ∧ block b = none
  freed_nodup : freed.Nodup

namespace Heap
variable (h : Heap α)

/-- The heap without blocks. -/
def empty : Heap α where
  next := 0
  block _ := none
  freed := []
  fresh _ _ := rfl
  dead_iff b := by simp
  freed_nodup := List.nodup_nil

/-- A block is live from its allocation until it is freed. -/
def Live (b : ℕ) : Prop := h.block b ≠ none

instance (b : ℕ) : Decidable (h.Live b) :=
  decidable_of_iff ((h.block b).isSome) (by cases hb : h.block b <;> simp [Live, hb])

/-- Allocate a block of `n` cells, none of them written. -/
def alloc (n : ℕ) : ℕ × Heap α :=
  (h.next,
    { next := h.next + 1
      block := Function.update h.block h.next (some (List.replicate n none))
      freed := h.freed
      fresh := fun b hb => by
        rw [Function.update_of_ne (by omega)]
        exact h.fresh b (by omega)
      dead_iff := fun b => by
        rw [h.dead_iff b]
        rcases eq_or_ne b h.next with rfl | hne
        · simp
        · rw [Function.update_of_ne hne]
          constructor
          · rintro ⟨hlt, hb⟩
            exact ⟨by omega, hb⟩
          · rintro ⟨hlt, hb⟩
            exact ⟨by omega, hb⟩
      freed_nodup := h.freed_nodup })

/-- Give a live block back. -/
def free (b : ℕ) : Option (Heap α) :=
  if hb : h.Live b then
    some
      { next := h.next
        block := Function.update h.block b none
        freed := h.freed ++ [b]
        fresh := fun c hc => by
          rcases eq_or_ne c b with rfl | hne
          · simp
          · rw [Function.update_of_ne hne]
            exact h.fresh c hc
        dead_iff := fun c => by
          have hlt : b < h.next := by
            by_contra hge
            exact hb (h.fresh b (by omega))
          rw [List.mem_append, List.mem_singleton, h.dead_iff c]
          rcases eq_or_ne c b with rfl | hne
          · simp [hlt]
          · simp [hne]
        freed_nodup := by
          refine List.nodup_append.2 ⟨h.freed_nodup, List.nodup_singleton b, ?_⟩
          rintro c hc d hd rfl
          rw [List.mem_singleton] at hd
          subst hd
          exact hb ((h.dead_iff c).1 hc).2 }
  else none

/-- Read from a live block. -/
def load (b off len : ℕ) : Option (List α) := (h.block b).bind fun c => c.load off len

/-- Replace the cells of a live block. -/
def setBlock (b : ℕ) (c : Cells α) (hb : h.Live b) : Heap α where
  next := h.next
  block := Function.update h.block b (some c)
  freed := h.freed
  fresh d hd := by
    rcases eq_or_ne d b with rfl | hne
    · exact absurd (h.fresh d hd) hb
    · rw [Function.update_of_ne hne]
      exact h.fresh d hd
  dead_iff d := by
    rw [h.dead_iff d]
    rcases eq_or_ne d b with rfl | hne
    · have : h.block d ≠ none := hb
      simp [this]
    · rw [Function.update_of_ne hne]
  freed_nodup := h.freed_nodup

/-- Write into a live block. -/
def store (b off : ℕ) (xs : List α) : Option (Heap α) :=
  if hb : h.Live b then
    ((h.block b).bind fun c => c.store off xs).map fun c => h.setBlock b c hb
  else none

/-- `b` is a live block of `n` cells whose first cells hold `xs`. -/
def Has (b n : ℕ) (xs : List α) : Prop :=
  ∃ rest : Cells α, h.block b = some (xs.map some ++ rest) ∧ xs.length + rest.length = n

variable {h} {b c n m off len : ℕ} {xs ys : List α} {h' : Heap α}

theorem live_iff : h.Live b ↔ b < h.next ∧ b ∉ h.freed := by
  rw [h.dead_iff b, not_and]
  constructor
  · intro hb
    refine ⟨?_, fun _ => hb⟩
    by_contra hge
    exact hb (h.fresh b (by omega))
  · intro hb
    exact hb.2 hb.1

theorem Has.live (hb : h.Has b n xs) : h.Live b := by
  obtain ⟨rest, hrest, -⟩ := hb
  simp [Live, hrest]

theorem Has.length_le (hb : h.Has b n xs) : xs.length ≤ n := by
  obtain ⟨rest, -, hlen⟩ := hb
  omega

theorem Has.lt_next (hb : h.Has b n xs) : b < h.next := by
  by_contra hge
  exact hb.live (h.fresh b (by omega))

theorem Has.congr (hb : h.Has b n xs) (hsame : h'.block b = h.block b) : h'.Has b n xs := by
  obtain ⟨rest, hrest, hlen⟩ := hb
  exact ⟨rest, hsame.trans hrest, hlen⟩

theorem Has.load (hb : h.Has b n xs) (hlen : off + len ≤ xs.length) :
    h.load b off len = some ((xs.drop off).take len) := by
  obtain ⟨rest, hrest, -⟩ := hb
  simp [Heap.load, hrest, Cells.load_of_prefix hlen]

theorem Has.load_all (hb : h.Has b n xs) : h.load b 0 xs.length = some xs := by
  have hload : h.load b 0 xs.length = some ((xs.drop 0).take xs.length) := hb.load (by simp)
  simpa using hload

theorem has_alloc (h : Heap α) (n : ℕ) : (h.alloc n).2.Has (h.alloc n).1 n [] :=
  ⟨List.replicate n none, by simp [alloc], by simp⟩

theorem alloc_block_of_ne (h : Heap α) (n : ℕ) (hne : c ≠ (h.alloc n).1) :
    (h.alloc n).2.block c = h.block c :=
  Function.update_of_ne hne _ _

theorem Has.of_append (hb : h.Has b n (xs ++ ys)) : h.Has b n xs := by
  obtain ⟨rest, hrest, hlen⟩ := hb
  refine ⟨ys.map some ++ rest, by simpa using hrest, ?_⟩
  simp at hlen ⊢
  omega

/-- `h'` differs from `h` in the cells of block `b` only. -/
structure AgreesOff (b : ℕ) (h h' : Heap α) : Prop where
  next : h'.next = h.next
  freed : h'.freed = h.freed
  block : ∀ c, c ≠ b → h'.block c = h.block c

theorem AgreesOff.live_iff (hoff : AgreesOff b h h') (hb : h.Live b) (hb' : h'.Live b) (c : ℕ) :
    h'.Live c ↔ h.Live c := by
  rcases eq_or_ne c b with rfl | hne
  · exact iff_of_true hb' hb
  · rw [Live, Live, hoff.block c hne]

/-- Extending the written part of a block. -/
theorem Has.store (hb : h.Has b n xs) (ys : List α) (hroom : xs.length + ys.length ≤ n) :
    ∃ h', h.store b xs.length ys = some h' ∧ h'.Has b n (xs ++ ys) ∧ AgreesOff b h h' := by
  have hlive := hb.live
  obtain ⟨rest, hrest, hlen⟩ := hb
  have hcells : Cells.store (xs.map some ++ rest) xs.length ys =
      some ((xs ++ ys).map some ++ rest.drop ys.length) := Cells.store_at_end (by omega)
  refine ⟨h.setBlock b ((xs ++ ys).map some ++ rest.drop ys.length) hlive, ?_, ?_, rfl, rfl, ?_⟩
  · simp [Heap.store, hlive, hrest, hcells]
  · refine ⟨rest.drop ys.length, by simp [setBlock], ?_⟩
    simp
    omega
  · intro c hne
    simp [setBlock, Function.update_of_ne hne]

theorem Has.overwrite (hb : h.Has b n xs) (hlen : ys.length = xs.length) :
    ∃ h', h.store b 0 ys = some h' ∧ h'.Has b n ys ∧ AgreesOff b h h' := by
  have hlive := hb.live
  obtain ⟨rest, hrest, hn⟩ := hb
  have hcells : Cells.store (xs.map some ++ rest) 0 ys = some (ys.map some ++ rest) := by
    have hdrop : (xs.map some ++ rest).drop ys.length = rest := List.drop_left' (by simp [hlen])
    rw [Cells.store, if_pos (by simp; omega), Nat.zero_add, hdrop]
    simp
  refine ⟨h.setBlock b (ys.map some ++ rest) hlive, ?_, ⟨rest, by simp [setBlock], by omega⟩,
    rfl, rfl, ?_⟩
  · simp [Heap.store, hlive, hrest, hcells]
  · intro c hne
    simp [setBlock, Function.update_of_ne hne]

theorem free_of_live (hb : h.Live b) :
    ∃ h', h.free b = some h' ∧ h'.block b = none ∧ h'.freed = h.freed ++ [b] ∧
      h'.next = h.next ∧ ∀ c, c ≠ b → h'.block c = h.block c := by
  refine ⟨_, dif_pos hb, by simp, rfl, rfl, ?_⟩
  intro c hne
  simp [Function.update_of_ne hne]

end Heap

/-! ### Addresses -/

/-- What an allocation gives: a block, or the address for a request of no cells. -/
inductive Address
  | zeroSize
  | block (b : ℕ)
  deriving DecidableEq, Repr

namespace Heap
variable (h : Heap α)

/-- Allocate `n` cells; without cells there is no block. -/
def allocAt (n : ℕ) : Address × Heap α :=
  if n = 0 then (.zeroSize, h) else (.block (h.alloc n).1, (h.alloc n).2)

def freeAt : Address → Option (Heap α)
  | .zeroSize => some h
  | .block b => h.free b

def loadAt (a : Address) (off len : ℕ) : Option (List α) :=
  match a with
  | .zeroSize => if len = 0 then some [] else none
  | .block b => h.load b off len

def storeAt (a : Address) (off : ℕ) (xs : List α) : Option (Heap α) :=
  match a with
  | .zeroSize => if xs.length = 0 then some h else none
  | .block b => h.store b off xs

/-- `n` cells can be accessed through `a`, and the first of them hold `xs`. -/
def HasAt (a : Address) (n : ℕ) (xs : List α) : Prop :=
  match a with
  | .zeroSize => n = 0 ∧ xs = []
  | .block b => h.Has b n xs

/-- `h'` differs from `h` in the cells behind `a` only. -/
structure AgreesOffAt (a : Address) (h h' : Heap α) : Prop where
  next : h'.next = h.next
  freed : h'.freed = h.freed
  block : ∀ c, a ≠ .block c → h'.block c = h.block c

variable {h} {a : Address} {b c n off len : ℕ} {xs ys : List α} {h' : Heap α}

theorem AgreesOffAt.refl (a : Address) (h : Heap α) : AgreesOffAt a h h := ⟨rfl, rfl, fun _ _ => rfl⟩

theorem AgreesOffAt.trans {h₁ h₂ h₃ : Heap α} (h₁₂ : AgreesOffAt a h₁ h₂)
    (h₂₃ : AgreesOffAt a h₂ h₃) : AgreesOffAt a h₁ h₃ :=
  ⟨h₂₃.next.trans h₁₂.next, h₂₃.freed.trans h₁₂.freed,
    fun c hc => (h₂₃.block c hc).trans (h₁₂.block c hc)⟩

theorem AgreesOff.at (hoff : AgreesOff b h h') : AgreesOffAt (.block b) h h' :=
  ⟨hoff.next, hoff.freed, fun c hc => hoff.block c fun hcb => hc (hcb ▸ rfl)⟩

theorem HasAt.length_le (ha : h.HasAt a n xs) : xs.length ≤ n := by
  cases a with
  | zeroSize => simp [ha.2]
  | block b => exact Has.length_le ha

theorem HasAt.congr (ha : h.HasAt a n xs) (hsame : ∀ c, a = .block c → h'.block c = h.block c) :
    h'.HasAt a n xs := by
  cases a with
  | zeroSize => exact ha
  | block b => exact Has.congr ha (hsame b rfl)

theorem HasAt.of_append (ha : h.HasAt a n (xs ++ ys)) : h.HasAt a n xs := by
  cases a with
  | zeroSize => exact ⟨ha.1, (List.append_eq_nil_iff.1 ha.2).1⟩
  | block b => exact Has.of_append ha

theorem HasAt.load (ha : h.HasAt a n xs) (hlen : off + len ≤ xs.length) :
    h.loadAt a off len = some ((xs.drop off).take len) := by
  cases a with
  | zeroSize =>
    obtain ⟨-, rfl⟩ := ha
    have hzero : len = 0 := by
      rw [List.length_nil] at hlen
      omega
    simp [loadAt, hzero]
  | block b => exact Has.load ha hlen

theorem HasAt.load_all (ha : h.HasAt a n xs) : h.loadAt a 0 xs.length = some xs := by
  have hload : h.loadAt a 0 xs.length = some ((xs.drop 0).take xs.length) := ha.load (by simp)
  simpa using hload

theorem HasAt.store (ha : h.HasAt a n xs) (ys : List α) (hroom : xs.length + ys.length ≤ n) :
    ∃ h', h.storeAt a xs.length ys = some h' ∧ h'.HasAt a n (xs ++ ys) ∧ AgreesOffAt a h h' := by
  cases a with
  | zeroSize =>
    obtain ⟨rfl, rfl⟩ := ha
    obtain rfl : ys = [] := List.length_eq_zero_iff.1 (by omega)
    exact ⟨h, rfl, ⟨rfl, rfl⟩, .refl _ _⟩
  | block b =>
    obtain ⟨h', hstore, hhas, hoff⟩ := Has.store ha ys hroom
    exact ⟨h', hstore, hhas, hoff.at⟩

theorem hasAt_allocAt (h : Heap α) (n : ℕ) : (h.allocAt n).2.HasAt (h.allocAt n).1 n [] := by
  rw [allocAt]
  split
  · rename_i hzero
    exact ⟨hzero, rfl⟩
  · exact has_alloc h n

/-- The block that an allocation gives is new, and is the only one that changes. -/
theorem allocAt_frame (h : Heap α) (n : ℕ) :
    (∀ c, (h.allocAt n).1 = .block c → ¬ h.Live c ∧ c = h.next) ∧
      (∀ c, (h.allocAt n).1 ≠ .block c → (h.allocAt n).2.block c = h.block c) ∧
      (h.allocAt n).2.freed = h.freed ∧
      ∀ c, c < (h.allocAt n).2.next ↔ c < h.next ∨ (h.allocAt n).1 = .block c := by
  rw [allocAt]
  split
  · exact ⟨by simp, fun _ _ => rfl, rfl, by simp⟩
  · refine ⟨?_, fun c hc => ?_, rfl, fun c => ?_⟩
    · rintro c hc
      obtain rfl : h.next = c := by simpa [alloc] using hc
      exact ⟨fun hlive => hlive (h.fresh _ (Nat.le_refl _)), rfl⟩
    · refine alloc_block_of_ne h n fun heq => hc ?_
      rw [heq]
    · simp only [alloc, Address.block.injEq]
      omega

end Heap

end BlockHeap
