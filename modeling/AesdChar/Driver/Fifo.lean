import AesdChar.Driver.Ring

/-!
# The circular buffer over whole sequences

What a buffer holds that was initialised and then only added to. After any sequence of additions it
stores the last ten entries in insertion order, and the pointers of all earlier ones went to
`kfree`, once each and in order (`bounded_fifo`). On such a buffer the lookup of a position finds the
one entry that holds it, and nothing behind the last entry (`lookup_exact`), for entries of any
sizes, empty ones included.
-/

namespace AesdChar
open CInt Cyclic

variable {es : List AesdBufferEntry} {e : AesdBufferEntry}

/-- One more call of `aesd_circular_buffer_add_entry`: the buffer, and all pointers given to `kfree`
so far. -/
def addNext (r : AesdCircularBuffer × List Ptr) (e : AesdBufferEntry) :
    AesdCircularBuffer × List Ptr :=
  ((aesdCircularBufferAddEntry r.1 e).1, r.2 ++ (aesdCircularBufferAddEntry r.1 e).2)

/-- `aesd_circular_buffer_init`, and then the entries one after the other. -/
def addAll (es : List AesdBufferEntry) : AesdCircularBuffer × List Ptr :=
  es.foldl addNext (aesdCircularBufferInit, [])

theorem addAll_concat (es : List AesdBufferEntry) (e : AesdBufferEntry) :
    addAll (es ++ [e]) = addNext (addAll es) e := by
  unfold addAll
  rw [List.foldl_append, List.foldl_cons, List.foldl_nil]

theorem ringInv_addAll (es : List AesdBufferEntry) : RingInv (addAll es).1 := by
  induction es using List.reverseRecOn with
  | nil => exact ringInv_init
  | append_singleton es e ih =>
    rw [addAll_concat]
    exact ringInv_addEntry ih e

theorem stored_addAll (es : List AesdBufferEntry) :
    (addAll es).1.stored = es.rtake maxWriteOperations := by
  induction es using List.reverseRecOn with
  | nil => decide
  | append_singleton es e ih =>
    rw [addAll_concat]
    show (aesdCircularBufferAddEntry (addAll es).1 e).1.stored = _
    rw [addEntry_stored (ringInv_addAll es), ih, List.rtake_append_rtake]

theorem count_addAll (es : List AesdBufferEntry) :
    (addAll es).1.count = min es.length maxWriteOperations := by
  rw [← AesdCircularBuffer.length_stored, stored_addAll, List.length_rtake, Nat.min_comm]

theorem take_concat_drop (es : List AesdBufferEntry) (e : AesdBufferEntry) :
    (es ++ [e]).take ((es ++ [e]).length - maxWriteOperations) =
      es.take (es.length - maxWriteOperations) ++
        (es.rtake maxWriteOperations).take (min es.length maxWriteOperations + 1 - maxWriteOperations) := by
  rw [List.length_append, List.length_singleton]
  by_cases hfew : es.length < maxWriteOperations
  · have h₁ : es.length + 1 - maxWriteOperations = 0 := by omega
    have h₂ : es.length - maxWriteOperations = 0 := by omega
    have h₃ : min es.length maxWriteOperations + 1 - maxWriteOperations = 0 := by omega
    rw [h₁, h₂, h₃, List.take_zero, List.take_zero, List.take_zero, List.append_nil]
  · have h₁ : es.length + 1 - maxWriteOperations = es.length - maxWriteOperations + 1 := by omega
    have h₂ : min es.length maxWriteOperations + 1 - maxWriteOperations = 1 := by omega
    rw [h₁, h₂, List.rtake, ← List.take_add, List.take_append_of_le_length]
    simp only [maxWriteOperations] at *
    omega

theorem freed_addAll (es : List AesdBufferEntry) :
    (addAll es).2 = (es.take (es.length - maxWriteOperations)).map (·.buffptr) := by
  induction es using List.reverseRecOn with
  | nil => rfl
  | append_singleton es e ih =>
    rw [addAll_concat]
    show (addAll es).2 ++ (aesdCircularBufferAddEntry (addAll es).1 e).2 = _
    rw [addEntry_freed (ringInv_addAll es), ih, stored_addAll, count_addAll, take_concat_drop,
      List.map_append]

theorem RingInv.slot_unused {b : AesdCircularBuffer} (h : RingInv b) {j : ℕ}
    (hj : j < maxWriteOperations)
    (hfree : ∀ i, i < b.count → j ≠ (b.outOffs + i) % maxWriteOperations) : b.slot j = .zero := by
  have hout := h.outOffs_lt
  by_cases hfull : b.full = true
  · -- a full turn meets every slot
    exfalso
    apply hfree ((j + maxWriteOperations - b.outOffs) % maxWriteOperations)
    · rw [h.full_iff.1 hfull]
      exact Nat.mod_lt _ (by decide)
    · simp only [maxWriteOperations] at *
      omega
  · rw [Bool.not_eq_true] at hfull
    have hcount : b.count = b.inOffs := by simp [h.count_eq, hfull]
    apply h.unused hfull
    by_contra hlt
    apply hfree j (by omega)
    rw [h.of_not_full hfull, Nat.zero_add, Nat.mod_eq_of_lt hj]

/-- **The circular buffer is a bounded FIFO**: after `n` additions the offsets are in range, the flag
says whether ten entries came in, the slots from `out_offs` on hold the last ten entries in
insertion order, the other slots are zero, and `kfree` got the pointers of the first `n - 10` entries,
in order. -/
theorem bounded_fifo (es : List AesdBufferEntry) :
    (addAll es).1.inOffs < maxWriteOperations ∧ (addAll es).1.outOffs < maxWriteOperations ∧
    ((addAll es).1.full = true ↔ maxWriteOperations ≤ es.length) ∧
    walk maxWriteOperations (addAll es).1.slot (addAll es).1.outOffs
        (min es.length maxWriteOperations) = es.drop (es.length - maxWriteOperations) ∧
    (∀ j, j < maxWriteOperations →
      (∀ i, i < min es.length maxWriteOperations →
        j ≠ ((addAll es).1.outOffs + i) % maxWriteOperations) → (addAll es).1.slot j = .zero) ∧
    (addAll es).2 = (es.take (es.length - maxWriteOperations)).map (·.buffptr) := by
  have hring := ringInv_addAll es
  have hcount := count_addAll es
  refine ⟨hring.inOffs_lt, hring.outOffs_lt, ?_, ?_, fun j hj hfree => ?_, freed_addAll es⟩
  · rw [hring.full_iff, hcount]
    omega
  · rw [← hcount]
    exact stored_addAll es
  · apply hring.slot_unused hj
    rwa [hcount]

/-! ### Looking up a position -/

/-- Entry `i` of the list holds position `p`, at offset `off`: the sizes of the entries before it add
up to `p - off`, and `off` is inside it. -/
def HoldsAt (es : List AesdBufferEntry) (p i off : ℕ) : Prop :=
  ∃ hi : i < es.length, ((es.take i).map (·.size)).sum + off = p ∧ off < es[i].size

theorem holdsAt_iff_locate {p i off : ℕ} :
    HoldsAt es p i off ↔ Pieces.locate (es.map (·.size)) p = some (i, off) := by
  rw [Pieces.locate_eq_some_iff]
  unfold HoldsAt
  simp only [List.length_map, List.getElem_map, List.map_take]

theorem HoldsAt.unique {p i j off off' : ℕ} (h : HoldsAt es p i off) (h' : HoldsAt es p j off') :
    j = i ∧ off' = off := by
  have heq := (holdsAt_iff_locate.1 h').symm.trans (holdsAt_iff_locate.1 h)
  simpa using heq

/-- **The lookup is exact**: on a buffer that was only added to, with less than 2^31 bytes stored, a
position below the total size finds the one entry that holds it, with the offset inside: the `i`-th
behind slot `out_offs`. Any other position finds nothing. -/
theorem lookup_exact {charOffset : ℕ} (hoff : charOffset < 2 ^ 64)
    (hsum : ((es.rtake maxWriteOperations).map (·.size)).sum < 2 ^ 31) :
    (charOffset < ((es.rtake maxWriteOperations).map (·.size)).sum →
      ∃ index off i, aesdCircularBufferFindEntryOffsetForFpos (addAll es).1 charOffset =
          some (index, off) ∧ HoldsAt (es.rtake maxWriteOperations) charOffset i off ∧
        index = ((addAll es).1.outOffs + i) % maxWriteOperations ∧
        (addAll es).1.entry[index]? = (es.rtake maxWriteOperations)[i]? ∧
        ∀ j off', HoldsAt (es.rtake maxWriteOperations) charOffset j off' → j = i ∧ off' = off) ∧
    (((es.rtake maxWriteOperations).map (·.size)).sum ≤ charOffset →
      aesdCircularBufferFindEntryOffsetForFpos (addAll es).1 charOffset = none) := by
  have hstored := stored_addAll es
  have hfind := findEntry_eq (ringInv_addAll es) hoff (by rwa [hstored])
  rw [hstored] at hfind
  constructor
  · intro hlt
    cases hloc : Pieces.locate ((es.rtake maxWriteOperations).map (·.size)) charOffset with
    | none =>
      have hle := Pieces.locate_eq_none_iff.1 hloc
      omega
    | some r =>
      obtain ⟨i, off⟩ := r
      rw [hloc] at hfind
      have hholds := holdsAt_iff_locate.2 hloc
      obtain ⟨hi, -, -⟩ := hholds
      have hslot := slot_of_stored (b := (addAll es).1) (i := i) (by rwa [hstored])
      have hmod : ((addAll es).1.outOffs + i) % maxWriteOperations < maxWriteOperations :=
        Nat.mod_lt _ (by decide)
      refine ⟨_, off, i, hfind, holdsAt_iff_locate.2 hloc, rfl, ?_, fun j off' h =>
        (holdsAt_iff_locate.2 hloc).unique h⟩
      have hget : (addAll es).1.stored[i]? = (es.rtake maxWriteOperations)[i]? := by rw [hstored]
      rw [← hget, List.getElem?_eq_getElem (by rwa [hstored]), ← hslot, AesdCircularBuffer.slot,
        Vector.getElem?_eq_getElem hmod, Option.getD_some]
  · intro hle
    rw [hfind, Pieces.locate_eq_none_iff.2 hle]
    rfl

theorem lookup_exact_wrapped :
    (let es : List AesdBufferEntry := (List.range 11).map fun n => ⟨some (.block n), n % 4⟩
     ∃ index off i, aesdCircularBufferFindEntryOffsetForFpos (addAll es).1 6 = some (index, off) ∧
        HoldsAt (es.rtake maxWriteOperations) 6 i off ∧
        index = ((addAll es).1.outOffs + i) % maxWriteOperations ∧
        (addAll es).1.entry[index]? = (es.rtake maxWriteOperations)[i]?) := by
  intro es
  have hoff : 6 < 2 ^ 64 := by decide
  obtain ⟨index, off, i, hfind, hholds, hindex, hentry, -⟩ :=
    (lookup_exact hoff (by decide : ((es.rtake maxWriteOperations).map (·.size)).sum < 2 ^ 31)).1
      (by decide)
  exact ⟨index, off, i, hfind, hholds, hindex, hentry⟩

end AesdChar
