import Mathlib.Algebra.Order.BigOperators.Group.List
import Mathlib.Algebra.Group.Action.Defs
import AesdChar.Base.Lines
import AesdChar.Driver.Ring
import AesdChar.Driver.System

/-!
# Who owns which bytes

`Owns k h e xs`: entry `e` owns a live block, at most as long as `kmalloc` grants, that starts with
the bytes `xs`, and its size is their number; a NULL entry owns nothing, and neither does the address
that `kmalloc` gives for no bytes. `Holds k h dev cmds pend`: the stored entries own the commands `cmds`,
oldest first, the pending entry owns `pend`, and no two of them share a block. `sendEntryToCircularBuffer` moves the pending bytes behind the commands when
their first newline is their last byte, and gives back the block of a command that is dropped; every
block it does not free keeps its cells (`sendEntry_commit`, `sendEntry_keep`).
-/

namespace AesdChar
open CInt BlockHeap Lines

/-- The test for `'\n'`. -/
def isNewline (x : UInt8) : Bool := x == newline

/-- The entry owns a block that starts with these bytes. -/
def Owns (k : KernelLimits) (h : Heap UInt8) (e : AesdBufferEntry) (xs : List UInt8) : Prop :=
  e.size = xs.length ∧
    match e.buffptr with
    | none => xs = []
    | some a => ∃ n, n ≤ k.kmallocMaxSize ∧ h.HasAt a n xs

/-- The blocks the device refers to. -/
def AesdDev.blocks (dev : AesdDev) : List ℕ :=
  dev.aesdBuffer.stored.filterMap (·.block?) ++ dev.aesdEntry.block?.toList

/-- The stored entries own the commands and the pending entry the pending bytes, each its own
block. -/
structure Holds (k : KernelLimits) (h : Heap UInt8) (dev : AesdDev) (cmds : List (List UInt8))
    (pend : List UInt8) : Prop where
  ring : RingInv dev.aesdBuffer
  stored : List.Forall₂ (Owns k h) dev.aesdBuffer.stored cmds
  pending : Owns k h dev.aesdEntry pend
  nodup : dev.blocks.Nodup

variable {k : KernelLimits} {h h' : Heap UInt8} {dev : AesdDev} {cmds : List (List UInt8)}
  {pend xs : List UInt8} {e : AesdBufferEntry} {es : List AesdBufferEntry}

theorem AesdBufferEntry.block?_eq_some {b : ℕ} :
    e.block? = some b ↔ e.buffptr = some (.block b) := by
  unfold AesdBufferEntry.block? Ptr.block?
  split <;> simp_all

namespace Owns

theorem null : Owns k h ⟨none, 0⟩ [] := ⟨rfl, rfl⟩

theorem of_has {a : Address} {n : ℕ} (hn : n ≤ k.kmallocMaxSize) (ha : h.HasAt a n xs) :
    Owns k h ⟨some a, xs.length⟩ xs := ⟨rfl, n, hn, ha⟩

theorem has (ho : Owns k h e xs) {a : Address} (ha : e.buffptr = some a) :
    ∃ n, n ≤ k.kmallocMaxSize ∧ h.HasAt a n xs := by
  have := ho.2
  rwa [ha] at this

theorem nil_of_null (ho : Owns k h e xs) (hnull : e.buffptr = none) : xs = [] := by
  have := ho.2
  rwa [hnull] at this

theorem live (ho : Owns k h e xs) {b : ℕ} (hb : e.block? = some b) : h.Live b := by
  obtain ⟨n, -, hhas⟩ := ho.has (AesdBufferEntry.block?_eq_some.1 hb)
  exact Heap.Has.live hhas

theorem length_le (ho : Owns k h e xs) : xs.length ≤ k.kmallocMaxSize := by
  cases ha : e.buffptr with
  | none => simp [ho.nil_of_null ha]
  | some a =>
    obtain ⟨n, hn, hhas⟩ := ho.has ha
    exact hhas.length_le.trans hn

theorem congr (ho : Owns k h e xs) (hsame : ∀ b, e.block? = some b → h'.block b = h.block b) :
    Owns k h' e xs := by
  obtain ⟨hsize, hptr⟩ := ho
  refine ⟨hsize, ?_⟩
  cases ha : e.buffptr with
  | none => rwa [ha] at hptr
  | some a =>
    rw [ha] at hptr
    obtain ⟨n, hn, hhas⟩ := hptr
    refine ⟨n, hn, hhas.congr fun b hb => hsame b ?_⟩
    rw [AesdBufferEntry.block?_eq_some, ha, hb]

theorem exists_block (ho : Owns k h e xs) (hxs : xs ≠ []) : ∃ b, e.buffptr = some (.block b) := by
  cases ha : e.buffptr with
  | none => exact absurd (ho.nil_of_null ha) hxs
  | some a =>
    obtain ⟨n, -, hhas⟩ := ho.has ha
    cases a with
    | zeroSize => exact absurd hhas.2 hxs
    | block b => exact ⟨b, rfl⟩

theorem entryBytes_eq (ho : Owns k h e xs) : entryBytes h e = some xs := by
  cases ha : e.buffptr with
  | none =>
    obtain rfl := ho.nil_of_null ha
    simp [entryBytes, ha, ho.1]
  | some a =>
    obtain ⟨n, -, hhas⟩ := ho.has ha
    simp [entryBytes, ha, ho.1, hhas.load_all]

end Owns

theorem forall₂_owns_congr (ho : List.Forall₂ (Owns k h) es cmds)
    (hsame : ∀ b ∈ es.filterMap (·.block?), h'.block b = h.block b) :
    List.Forall₂ (Owns k h') es cmds := by
  induction ho with
  | nil => exact .nil
  | @cons e _ es _ he _ ih =>
    refine .cons (he.congr fun b hb => hsame b ?_) (ih fun b hb => hsame b ?_)
    · exact List.mem_filterMap.2 ⟨e, List.mem_cons_self, hb⟩
    · simp only [List.mem_filterMap, List.mem_cons] at hb ⊢
      obtain ⟨e', he', hb⟩ := hb
      exact ⟨e', Or.inr he', hb⟩

theorem mapM_entryBytes (ho : List.Forall₂ (Owns k h) es cmds) :
    es.mapM (entryBytes h) = some cmds := by
  induction ho with
  | nil => rfl
  | cons he _ ih => simp [List.mapM_cons, he.entryBytes_eq, ih]

namespace Holds

theorem mem_blocks_of_pending {b : ℕ} (hb : dev.aesdEntry.block? = some b) : b ∈ dev.blocks :=
  List.mem_append_right _ (Option.mem_toList.2 hb)

theorem congr (hh : Holds k h dev cmds pend)
    (hsame : ∀ b ∈ dev.blocks, h'.block b = h.block b) : Holds k h' dev cmds pend where
  ring := hh.ring
  stored := forall₂_owns_congr hh.stored fun b hb => hsame b (List.mem_append_left _ hb)
  pending := hh.pending.congr fun b hb => hsame b (mem_blocks_of_pending hb)
  nodup := hh.nodup

theorem live (hh : Holds k h dev cmds pend) {b : ℕ} (hb : b ∈ dev.blocks) : h.Live b := by
  rcases List.mem_append.1 hb with hb | hb
  · obtain ⟨e, he, hb⟩ := List.mem_filterMap.1 hb
    obtain ⟨i, hi, rfl⟩ := List.getElem_of_mem he
    exact (List.forall₂_iff_get.1 hh.stored).2 i hi
      (hh.stored.length_eq ▸ hi) |>.live hb
  · exact hh.pending.live (Option.mem_toList.1 hb)

theorem pending_not_stored (hh : Holds k h dev cmds pend) {b : ℕ} (hb : dev.aesdEntry.block? = some b)
    (n : ℕ) : b ∉ (dev.aesdBuffer.stored.take n).filterMap (·.block?) := by
  intro hmem
  obtain ⟨e, he, hptr⟩ := List.mem_filterMap.1 hmem
  have hstored : b ∈ dev.aesdBuffer.stored.filterMap (·.block?) :=
    List.mem_filterMap.2 ⟨e, List.mem_of_mem_take he, hptr⟩
  exact (List.nodup_append.1 hh.nodup).2.2 b hstored b (Option.mem_toList.2 hb) rfl

theorem count_eq (hh : Holds k h dev cmds pend) : dev.aesdBuffer.count = cmds.length := by
  rw [← AesdCircularBuffer.length_stored, hh.stored.length_eq]

theorem sizes_eq (hh : Holds k h dev cmds pend) :
    dev.aesdBuffer.stored.map (·.size) = cmds.map List.length := by
  refine List.ext_getElem (by simp [hh.stored.length_eq]) fun i hi hi' => ?_
  have := (List.forall₂_iff_get.1 hh.stored).2 i (by simpa using hi) (by simpa using hi')
  simpa using this.1

theorem length_flatten_lt (hh : Holds k h dev cmds pend) : cmds.flatten.length < 2 ^ 31 := by
  have hcount := hh.count_eq ▸ hh.ring.count_le
  have hle : ∀ n ∈ cmds.map List.length, n ≤ 2 ^ 27 := by
    intro n hn
    obtain ⟨xs, hxs, rfl⟩ := List.mem_map.1 hn
    obtain ⟨i, hi, rfl⟩ := List.getElem_of_mem hxs
    have := (List.forall₂_iff_get.1 hh.stored).2 i (hh.stored.length_eq ▸ hi) hi
    exact this.length_le.trans k.kmallocMaxSize_le
  have hsum := List.sum_le_card_nsmul _ _ hle
  rw [List.length_flatten]
  simp only [List.length_map, smul_eq_mul, maxWriteOperations] at hsum hcount
  omega

end Holds

/-! ### The newline test -/

theorem checkCRLoop_eq {a : Address} {n : ℕ} (ha : h.HasAt a n xs) {m c : ℕ}
    (hm : c + m = xs.length) : checkCRLoop h a m c = some (if (xs.drop c).findIdx isNewline < m
      then ((c + (xs.drop c).findIdx isNewline : ℕ) : ℤ) else -1) := by
  induction m generalizing c with
  | zero => simp [checkCRLoop]
  | succ m ih =>
    have hc : c < xs.length := by omega
    have hload : h.loadAt a c 1 = some [xs[c]] := by
      rw [ha.load (by omega), List.drop_eq_getElem_cons hc]
      rfl
    rw [checkCRLoop, hload, Option.bind_some, List.drop_eq_getElem_cons hc, List.findIdx_cons]
    by_cases hx : xs[c] = newline
    · simp [hx, isNewline]
    · have hne : isNewline xs[c] = false := by simpa [isNewline] using hx
      rw [if_neg (by simpa using hx), ih (by omega), hne]
      simp only [cond_false]
      split_ifs <;> first | omega | (congr 1; push_cast; omega) | rfl

theorem checkCR_eq (ho : Owns k h e xs) : checkCR h e.buffptr (toInt e.size) =
    some (if xs.findIdx isNewline < xs.length then (xs.findIdx isNewline : ℤ) else -1) := by
  have hlen := ho.length_le.trans k.kmallocMaxSize_le
  have hint : toInt (e.size : ℤ) = (xs.length : ℕ) := by
    rw [ho.1]
    exact toInt_of_range (by omega) (by omega)
  cases ha : e.buffptr with
  | none => simp [checkCR, ho.nil_of_null ha]
  | some a =>
    obtain ⟨n, -, hhas⟩ := ho.has ha
    have := checkCRLoop_eq hhas (m := xs.length) (c := 0) (by omega)
    simpa [checkCR, hint] using this

/-- The condition under which the pending entry is sent says that its bytes are a line. -/
theorem send_test_iff (ho : Owns k h e xs) :
    ((if xs.findIdx isNewline < xs.length then (xs.findIdx isNewline : ℤ) else -1) ≥ 0 ∧
      toSize (if xs.findIdx isNewline < xs.length then (xs.findIdx isNewline : ℤ) else -1) =
        toSize ((e.size : ℤ) - 1)) ↔ IsLine isNewline xs := by
  have hlen := ho.length_le.trans k.kmallocMaxSize_le
  rw [ho.1, IsLine]
  split
  · rename_i hlt
    rw [toSize_natCast (by omega), toSize_of_range (by omega) (by omega)]
    omega
  · omega

/-! ### Freeing -/

theorem foldlM_kfree (ps : List Ptr) (hnodup : (ps.filterMap Ptr.block?).Nodup)
    (hlive : ∀ b ∈ ps.filterMap Ptr.block?, h.Live b) :
    ∃ h', ps.foldlM kfree h = some h' ∧ h'.freed = h.freed ++ ps.filterMap Ptr.block? ∧
      h'.next = h.next ∧ ∀ b, b ∉ ps.filterMap Ptr.block? → h'.block b = h.block b := by
  induction ps generalizing h with
  | nil => exact ⟨h, rfl, by simp, rfl, fun _ _ => rfl⟩
  | cons p ps ih =>
    match p with
    | none => exact ih hnodup hlive
    | some .zeroSize => exact ih hnodup hlive
    | some (.block b) =>
      have hcons : (some (.block b) :: ps).filterMap Ptr.block? = b :: ps.filterMap Ptr.block? := rfl
      rw [hcons] at hnodup hlive ⊢
      obtain ⟨hb, hps⟩ := List.nodup_cons.1 hnodup
      obtain ⟨h₁, hfree, -, hfreed, hnext, hsame⟩ := Heap.free_of_live (hlive b (by simp))
      have hlive₁ : ∀ c ∈ ps.filterMap Ptr.block?, h₁.Live c := by
        intro c hc
        have hne : c ≠ b := fun hcb => hb (hcb ▸ hc)
        rw [Heap.Live, hsame c hne]
        exact hlive c (List.mem_cons_of_mem b hc)
      obtain ⟨h₂, hrest, hfreed₂, hnext₂, hsame₂⟩ := ih hps hlive₁
      refine ⟨h₂, ?_, ?_, by rw [hnext₂, hnext], ?_⟩
      · simp [List.foldlM_cons, kfree, Heap.freeAt, hfree, hrest]
      · rw [hfreed₂, hfreed, List.append_assoc]
        rfl
      · intro c hc
        simp only [List.mem_cons, not_or] at hc
        rw [hsame₂ c hc.2, hsame c hc.1]

/-! ### Sending the pending entry -/

theorem sendEntry_keep (hh : Holds k h dev cmds pend) (hline : ¬ IsLine isNewline pend) :
    sendEntryToCircularBuffer h dev = some (h, dev) := by
  have htest := (send_test_iff hh.pending).not.2 hline
  rw [sendEntryToCircularBuffer, checkCR_eq hh.pending, Option.bind_eq_bind, Option.bind_some,
    if_neg htest]
  rfl

theorem rtake_concat_eq_drop (es : List AesdBufferEntry) (e : AesdBufferEntry) :
    (es ++ [e]).rtake maxWriteOperations = es.drop (es.length + 1 - maxWriteOperations) ++ [e] := by
  rw [List.rtake, List.length_append, List.length_singleton,
    List.drop_append_of_le_length (by simp only [maxWriteOperations]; omega)]

/-- What sending a line does: the entry goes into the buffer, the blocks of the dropped entry are
freed, and every other block keeps its cells. -/
theorem sendEntry_commit (hh : Holds k h dev cmds pend) (hline : IsLine isNewline pend) :
    ∃ h', sendEntryToCircularBuffer h dev = some (h', { dev with
        aesdBuffer := (aesdCircularBufferAddEntry dev.aesdBuffer dev.aesdEntry).1
        aesdEntry := ⟨none, 0⟩ }) ∧
      Holds k h' { dev with
          aesdBuffer := (aesdCircularBufferAddEntry dev.aesdBuffer dev.aesdEntry).1
          aesdEntry := ⟨none, 0⟩ } ((cmds ++ [pend]).rtake maxWriteOperations) [] ∧
      h'.next = h.next ∧
      h'.freed = h.freed ++ (dev.aesdBuffer.stored.take
        (dev.aesdBuffer.count + 1 - maxWriteOperations)).filterMap (·.block?) ∧
      ∀ b, b ∉ (dev.aesdBuffer.stored.take
        (dev.aesdBuffer.count + 1 - maxWriteOperations)).filterMap (·.block?) →
        h'.block b = h.block b := by
  have htest := (send_test_iff hh.pending).2 hline
  have hfreed := addEntry_freed hh.ring dev.aesdEntry
  set dropped := dev.aesdBuffer.stored.take (dev.aesdBuffer.count + 1 - maxWriteOperations)
  set kept := dev.aesdBuffer.stored.drop (dev.aesdBuffer.count + 1 - maxWriteOperations)
  have hsplit : dev.aesdBuffer.stored = dropped ++ kept := (List.take_append_drop _ _).symm
  have hstored : (aesdCircularBufferAddEntry dev.aesdBuffer dev.aesdEntry).1.stored =
      kept ++ [dev.aesdEntry] := by
    rw [addEntry_stored hh.ring, rtake_concat_eq_drop, AesdCircularBuffer.length_stored]
  have hptrs : (dropped.map (·.buffptr)).filterMap Ptr.block? = dropped.filterMap (·.block?) := by
    rw [List.filterMap_map]
    rfl
  have hall : dev.blocks = dropped.filterMap (·.block?) ++
      (kept ++ [dev.aesdEntry]).filterMap (·.block?) := by
    rw [AesdDev.blocks, hsplit, List.filterMap_append, List.filterMap_append, List.append_assoc]
    cases hb : dev.aesdEntry.block? <;> simp [hb]
  have hnodup := hh.nodup
  rw [hall, List.nodup_append] at hnodup
  obtain ⟨hdropped, hkept, hdisj⟩ := hnodup
  obtain ⟨h', hfree, hfreed', hnext, hsame⟩ := foldlM_kfree (h := h)
    (dropped.map (·.buffptr)) (by rwa [hptrs]) fun b hb => hh.live (by
      rw [hall]
      exact List.mem_append_left _ (hptrs ▸ hb))
  rw [hptrs] at hfreed' hsame
  refine ⟨h', ?_, ⟨ringInv_addEntry hh.ring _, ?_, Owns.null, ?_⟩, hnext, hfreed', hsame⟩
  · rw [sendEntryToCircularBuffer, checkCR_eq hh.pending, Option.bind_eq_bind, Option.bind_some,
      if_pos htest]
    simp [hfreed, hfree]
  · have hcmds : (cmds ++ [pend]).rtake maxWriteOperations =
        cmds.drop (dev.aesdBuffer.count + 1 - maxWriteOperations) ++ [pend] := by
      rw [List.rtake, List.length_append, List.length_singleton, ← hh.count_eq,
        List.drop_append_of_le_length (by simp only [maxWriteOperations]; have := hh.count_eq; omega)]
    rw [hstored, hcmds]
    refine forall₂_owns_congr (List.rel_append (List.forall₂_drop _ hh.stored) (.cons hh.pending .nil))
      fun b hb => hsame b fun hmem => hdisj b hmem b hb rfl
  · have hnone : (⟨none, 0⟩ : AesdBufferEntry).block? = none := rfl
    simpa [AesdDev.blocks, hstored, hnone] using hkept

end AesdChar
