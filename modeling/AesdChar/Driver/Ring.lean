import AesdChar.Base.Pieces
import AesdChar.Driver.Device

/-!
# The circular buffer is a bounded queue

`RingInv` says what holds of a buffer that only `aesd_circular_buffer_add_entry` changed: before the
first eviction it is filled from slot 0, and from then on it is full and `in_offs = out_offs`. Under
it, adding an entry appends to the walked list and drops its oldest element when there were ten
(`addEntry_stored`), and the two kinds of traversal are list functions: the lookup of a position is
`Pieces.locate` over the sizes, oldest first (`findEntry_eq`), and the size loop of the seek
functions adds up the sizes met on the way (`sizeLoop_eq`).
-/

namespace AesdChar
open CInt Cyclic

/-- The invariant of the circular buffer. -/
structure RingInv (b : AesdCircularBuffer) : Prop where
  inOffs_lt : b.inOffs < maxWriteOperations
  outOffs_lt : b.outOffs < maxWriteOperations
  of_full : b.full = true → b.inOffs = b.outOffs
  of_not_full : b.full = false → b.outOffs = 0
  unused : b.full = false → ∀ j, b.inOffs ≤ j → b.slot j = .zero

namespace AesdCircularBuffer
variable {b : AesdCircularBuffer} {e : AesdBufferEntry} {j : ℕ}

theorem length_stored : b.stored.length = b.count := by simp [stored]

end AesdCircularBuffer

open AesdCircularBuffer

theorem ringInv_init : RingInv aesdCircularBufferInit where
  inOffs_lt := by decide
  outOffs_lt := by decide
  of_full h := by simp [aesdCircularBufferInit] at h
  of_not_full _ := rfl
  unused _ j _ := by
    simp only [slot, aesdCircularBufferInit, Vector.getElem?_replicate]
    split <;> rfl

variable {b : AesdCircularBuffer} {e : AesdBufferEntry}

namespace RingInv

theorem count_eq (h : RingInv b) :
    b.count = if b.full then maxWriteOperations else b.inOffs := by
  have hlt := h.inOffs_lt
  cases hfull : b.full with
  | true => simp [count, hfull]
  | false =>
    have hout := h.of_not_full hfull
    simp only [count, hfull, hout, Bool.false_eq_true, if_false]
    rw [Nat.sub_zero, Nat.add_mod_right, Nat.mod_eq_of_lt hlt]

theorem count_le (h : RingInv b) : b.count ≤ maxWriteOperations := by
  rw [h.count_eq]
  split
  · exact le_refl _
  · exact h.inOffs_lt.le

theorem full_iff (h : RingInv b) : b.full = true ↔ b.count = maxWriteOperations := by
  have hlt := h.inOffs_lt
  rw [h.count_eq]
  cases b.full with
  | true => simp
  | false =>
    simp only [Bool.false_eq_true, if_false, false_iff]
    omega

theorem inOffs_eq (h : RingInv b) : b.inOffs = (b.outOffs + b.count) % maxWriteOperations := by
  have hin := h.inOffs_lt
  rw [h.count_eq]
  cases hfull : b.full with
  | true =>
    rw [← h.of_full hfull, if_pos rfl, Nat.add_mod_right, Nat.mod_eq_of_lt hin]
  | false => simp [h.of_not_full hfull, Nat.mod_eq_of_lt hin]

theorem walk_all (h : RingInv b) : walk maxWriteOperations b.slot b.outOffs maxWriteOperations =
    b.stored ++ List.replicate (maxWriteOperations - b.count) .zero := by
  have hsplit : maxWriteOperations = b.count + (maxWriteOperations - b.count) := by
    have := h.count_le
    omega
  conv_lhs => rw [hsplit, walk_add, ← hsplit]
  rw [stored]
  congr 1
  refine List.ext_getElem (by simp) fun i hi _ => ?_
  rw [length_walk] at hi
  rw [getElem_walk, List.getElem_replicate]
  cases hfull : b.full with
  | true =>
    rw [h.full_iff.1 hfull] at hi
    omega
  | false =>
    have hcount : b.count = b.inOffs := by simp [h.count_eq, hfull]
    refine h.unused hfull _ ?_
    rw [h.of_not_full hfull, Nat.mod_eq_of_lt (by omega)]
    omega

end RingInv

/-! ### Adding an entry -/

theorem slot_addEntry (h : RingInv b) (j : ℕ) :
    (aesdCircularBufferAddEntry b e).1.slot j = if j = b.inOffs then e else b.slot j := by
  have hlt := h.inOffs_lt
  simp only [aesdCircularBufferAddEntry, slot]
  split
  · subst j
    simp [hlt]
  · rename_i hne
    simp [Ne.symm hne]

theorem addEntry_of_full (h : RingInv b) (hfull : b.full = true) :
    RingInv (aesdCircularBufferAddEntry b e).1 ∧
      (aesdCircularBufferAddEntry b e).1.full = true := by
  have hin := h.of_full hfull
  have hmod : (b.outOffs + 1) % maxWriteOperations < maxWriteOperations := Nat.mod_lt _ (by decide)
  refine ⟨⟨?_, ?_, ?_, ?_, ?_⟩, ?_⟩ <;> simp [aesdCircularBufferAddEntry, hfull, hin, hmod]

theorem addEntry_of_not_full (h : RingInv b) (hfull : b.full = false) :
    RingInv (aesdCircularBufferAddEntry b e).1 ∧
      (aesdCircularBufferAddEntry b e).1.count = b.count + 1 := by
  have hlt := h.inOffs_lt
  have hout := h.of_not_full hfull
  have hcount : b.count = b.inOffs := by simp [h.count_eq, hfull]
  have hinv : RingInv (aesdCircularBufferAddEntry b e).1 := by
    refine ⟨Nat.mod_lt _ (by decide), ?_, ?_, ?_, ?_⟩
    · simp [aesdCircularBufferAddEntry, hfull, hout]
    · simp [aesdCircularBufferAddEntry, hfull, hout]
    · simp [aesdCircularBufferAddEntry, hfull, hout]
    · intro hfull' j hj
      simp only [aesdCircularBufferAddEntry, hfull, hout] at hfull' hj
      have hnot : (b.inOffs + 1) % maxWriteOperations ≠ 0 := by simpa using hfull'
      simp only [maxWriteOperations] at hlt hnot hj
      rw [slot_addEntry h, if_neg (by omega)]
      exact h.unused hfull j (by omega)
  refine ⟨hinv, ?_⟩
  rw [hinv.count_eq, hcount]
  simp only [aesdCircularBufferAddEntry, hfull, hout, Bool.false_eq_true, if_false]
  simp only [maxWriteOperations] at hlt ⊢
  by_cases hwrap : (b.inOffs + 1) % 10 = 0
  · rw [if_pos hwrap, if_pos rfl]
    omega
  · rw [if_neg hwrap, if_neg (by simp)]
    omega

theorem ringInv_addEntry (h : RingInv b) (e : AesdBufferEntry) :
    RingInv (aesdCircularBufferAddEntry b e).1 := by
  cases hfull : b.full with
  | true => exact (addEntry_of_full h hfull).1
  | false => exact (addEntry_of_not_full h hfull).1

/-- **The buffer is a bounded queue**: an added entry goes behind the stored ones, and with ten
stored the oldest goes. -/
theorem addEntry_stored (h : RingInv b) (e : AesdBufferEntry) :
    (aesdCircularBufferAddEntry b e).1.stored = (b.stored ++ [e]).rtake maxWriteOperations := by
  cases hfull : b.full with
  | true =>
    obtain ⟨hinv, hfull'⟩ := addEntry_of_full (e := e) h hfull
    have hcount := h.full_iff.1 hfull
    have hcount' := hinv.full_iff.1 hfull'
    rw [List.rtake_concat_of_length_eq (by rw [length_stored, hcount]) (by decide), stored, stored,
      hcount, hcount']
    have hout : (aesdCircularBufferAddEntry b e).1.outOffs =
        (b.outOffs + 1) % maxWriteOperations := by simp [aesdCircularBufferAddEntry, hfull]
    rw [hout]
    refine walk_rotate h.outOffs_lt ?_ fun j hj => ?_
    · rw [slot_addEntry h, if_pos (h.of_full hfull).symm]
    · rw [slot_addEntry h, if_neg (by rwa [h.of_full hfull])]
  | false =>
    obtain ⟨hinv, hcount'⟩ := addEntry_of_not_full (e := e) h hfull
    have hlt : b.count < maxWriteOperations := by
      have := h.full_iff.not.1 (by simp [hfull])
      have := h.count_le
      omega
    rw [List.rtake_of_length_le (by simp [length_stored]; omega), stored, stored, hcount']
    have hout : (aesdCircularBufferAddEntry b e).1.outOffs = b.outOffs := by
      simp [aesdCircularBufferAddEntry, hfull]
    rw [hout]
    refine walk_push hlt ?_ fun j hj => ?_
    · rw [slot_addEntry h, if_pos h.inOffs_eq.symm]
    · rw [slot_addEntry h, if_neg (by rwa [h.inOffs_eq])]

theorem addEntry_freed (h : RingInv b) (e : AesdBufferEntry) :
    (aesdCircularBufferAddEntry b e).2 =
      (b.stored.take (b.count + 1 - maxWriteOperations)).map (·.buffptr) := by
  cases hfull : b.full with
  | true =>
    have hcount := h.full_iff.1 hfull
    have hmod : b.outOffs % maxWriteOperations = b.outOffs := Nat.mod_eq_of_lt h.outOffs_lt
    have hhead : b.stored = b.slot b.outOffs :: walk maxWriteOperations b.slot (b.outOffs + 1) 9 := by
      rw [stored, hcount, walk_cons, hmod]
    simp [aesdCircularBufferAddEntry, hfull, hhead, hcount, h.of_full hfull]
  | false =>
    have := h.full_iff.not.1 (by simp [hfull])
    have := h.count_le
    have hzero : b.count + 1 - maxWriteOperations = 0 := by omega
    simp [aesdCircularBufferAddEntry, hfull, hzero]

theorem addEntry_outOffs (h : RingInv b) (e : AesdBufferEntry) :
    (aesdCircularBufferAddEntry b e).1.outOffs =
      if b.count = maxWriteOperations then (b.outOffs + 1) % maxWriteOperations else b.outOffs := by
  simp only [aesdCircularBufferAddEntry, h.full_iff]

/-! ### Looking up a position -/

/-- The sizes met on a walk. -/
def sizes (b : AesdCircularBuffer) (start n : ℕ) : List ℕ :=
  (walk maxWriteOperations b.slot start n).map (·.size)

theorem sizes_cons (start n : ℕ) : sizes b start (n + 1) =
    (b.slot (start % maxWriteOperations)).size :: sizes b (start + 1) n := by
  simp [sizes, walk_cons]

theorem findEntryLoop_eq {charOffset : ℕ} (hoff : charOffset < 2 ^ 64) {n i cur : ℕ}
    (hcur : cur ≤ charOffset) (hsum : cur + (sizes b i n).sum < 2 ^ 31) :
    findEntryLoop b charOffset n i cur =
      (Pieces.locate (sizes b i n) (charOffset - cur)).map fun r =>
        ((i + r.1) % maxWriteOperations, r.2) := by
  induction n generalizing i cur with
  | zero => rfl
  | succ n ih =>
    rw [sizes_cons, List.sum_cons] at hsum
    have hdiff : toSize ((charOffset : ℤ) - cur) = charOffset - cur := by
      rw [toSize_of_range (by omega) (by omega)]
      omega
    rw [sizes_cons, findEntryLoop, Pieces.locate]
    simp only [hdiff]
    split
    · simp
    · rename_i hge
      have hint : toInt ((cur : ℤ) + ((b.slot (i % maxWriteOperations)).size : ℕ)) =
          ((cur + (b.slot (i % maxWriteOperations)).size : ℕ) : ℤ) := by
        rw [toInt_of_range (by omega) (by push_cast; omega)]
        push_cast
        rfl
      rw [hint, ih (by omega) (by omega), Option.map_map, Nat.sub_add_eq]
      refine Option.map_congr fun r _ => ?_
      rw [Function.comp_apply, Nat.add_assoc, Nat.add_comm 1]

/-- The lookup of the driver finds a position among the sizes of the stored entries, oldest first. -/
theorem findEntry_eq (h : RingInv b) {charOffset : ℕ} (hoff : charOffset < 2 ^ 64)
    (hsum : (b.stored.map (·.size)).sum < 2 ^ 31) :
    aesdCircularBufferFindEntryOffsetForFpos b charOffset =
      (Pieces.locate (b.stored.map (·.size)) charOffset).map fun r =>
        ((b.outOffs + r.1) % maxWriteOperations, r.2) := by
  have hall : sizes b b.outOffs maxWriteOperations =
      b.stored.map (·.size) ++ List.replicate (maxWriteOperations - b.count) 0 := by
    simp [sizes, h.walk_all, AesdBufferEntry.zero]
  have hloop := findEntryLoop_eq (b := b) hoff (n := maxWriteOperations) (i := b.outOffs)
    (Nat.zero_le charOffset) (by rw [hall]; simpa using hsum)
  rw [hall, Pieces.locate_append_replicate] at hloop
  simpa [aesdCircularBufferFindEntryOffsetForFpos] using hloop

theorem slot_of_stored {i : ℕ} (hi : i < b.stored.length) :
    b.slot ((b.outOffs + i) % maxWriteOperations) = b.stored[i] := by
  simp [stored, getElem_walk]

/-! ### The size loop of the seek functions -/

theorem sizeLoop_eq {stop : ℕ} {d n c total : ℕ} (hc : c < maxWriteOperations)
    (hd : d < maxWriteOperations) (hstop : (c + d) % maxWriteOperations = stop) (hn : d < n)
    (hsum : total + (sizes b c d).sum < 2 ^ 31) :
    sizeLoop b stop n c total = some ((total + (sizes b c d).sum : ℕ) : ℤ) := by
  induction d generalizing n c total with
  | zero =>
    obtain ⟨n, rfl⟩ : ∃ m, n = m + 1 := ⟨n - 1, by omega⟩
    rw [Nat.add_zero, Nat.mod_eq_of_lt hc] at hstop
    simp [sizeLoop, hstop, sizes, walk_zero]
  | succ d ih =>
    obtain ⟨n, rfl⟩ : ∃ m, n = m + 1 := ⟨n - 1, by omega⟩
    have hmod : c % maxWriteOperations = c := Nat.mod_eq_of_lt hc
    have hne : c ≠ stop := by
      have := add_mod_ne c (N := maxWriteOperations) (i := 0) (j := d + 1) (by omega)
        (by omega)
      rwa [hstop, Nat.add_zero, hmod] at this
    rw [sizes_cons, hmod, List.sum_cons] at hsum
    have hint : toInt ((total : ℤ) + ((b.slot c).size : ℕ)) = ((total + (b.slot c).size : ℕ) : ℤ) := by
      rw [toInt_of_range (by omega) (by push_cast; omega)]
      push_cast
      rfl
    have hwalk : sizes b ((c + 1) % maxWriteOperations) d = sizes b (c + 1) d := by
      simp [sizes, walk_mod]
    rw [sizeLoop, if_neg hne, hint, ih (Nat.mod_lt _ (by decide)) (by omega) ?_ (by omega) ?_, hwalk,
      sizes_cons, hmod, List.sum_cons, Nat.add_assoc]
    · rw [Nat.mod_add_mod, ← hstop, Nat.add_assoc, Nat.add_comm 1]
    · rwa [hwalk, Nat.add_assoc]

theorem sizes_outOffs (h : RingInv b) {d : ℕ} (hd : d ≤ maxWriteOperations) :
    (sizes b b.outOffs d).sum = ((b.stored.take d).map (·.size)).sum := by
  have hall : sizes b b.outOffs maxWriteOperations =
      b.stored.map (·.size) ++ List.replicate (maxWriteOperations - b.count) 0 := by
    simp [sizes, h.walk_all, AesdBufferEntry.zero]
  have htake : sizes b b.outOffs d = (sizes b b.outOffs maxWriteOperations).take d := by
    simp [sizes, walk, ← List.map_take, List.take_range, Nat.min_eq_left hd]
  rw [htake, hall, List.take_append, List.take_replicate, List.map_take]
  simp

end AesdChar
