import AesdChar.Driver.View

/-!
# Block discipline

In every reachable state the pointers in the ten slots and in the pending entry are distinct, their
blocks are live, and every entry's bytes are inside its block and were written. So no call frees a dead
block or leaves a block, whatever the kernel decides, and unloading the module frees the block of
each slot exactly once (`block_discipline`).
-/

namespace AesdChar
open BlockHeap Cyclic

variable {k : KernelLimits} {h : Heap UInt8} {d : Driver} {v : View} {s : System}
  {b : AesdCircularBuffer} {e : AesdBufferEntry} {xs : List UInt8}

/-- The entries of the device: the ten slots and the pending one. -/
def AesdDev.entries (dev : AesdDev) : List AesdBufferEntry :=
  dev.aesdBuffer.entry.toList ++ [dev.aesdEntry]

/-- The entry's block is live, at least as long as the entry, and written that far; without a block
the entry is empty. -/
def AesdBufferEntry.Stored (h : Heap UInt8) (e : AesdBufferEntry) : Prop :=
  match e.buffptr with
  | none | some .zeroSize => e.size = 0
  | some (.block b) => ∃ cells, h.block b = some cells ∧ e.size ≤ cells.length ∧
      ∀ i < e.size, ∃ x, cells[i]? = some (some x)

theorem entry_toList (b : AesdCircularBuffer) :
    b.entry.toList = walk maxWriteOperations b.slot 0 maxWriteOperations := by
  refine List.ext_getElem (by simp) fun i hi _ => ?_
  have hlt : i < maxWriteOperations := by simpa using hi
  rw [getElem_walk, Nat.zero_add, Nat.mod_eq_of_lt hlt, AesdCircularBuffer.slot]
  simp [hlt]

theorem RingInv.entry_perm (hb : RingInv b) : b.entry.toList.Perm
    (b.stored ++ List.replicate (maxWriteOperations - b.count) .zero) := by
  rw [entry_toList, ← hb.walk_all]
  exact (walk_perm hb.outOffs_lt.le).symm

theorem RingInv.slots_perm {β : Type} (hb : RingInv b) {f : AesdBufferEntry → Option β}
    (hf : f .zero = none) : (b.entry.toList.filterMap f).Perm (b.stored.filterMap f) := by
  have hzero : (List.replicate (maxWriteOperations - b.count) AesdBufferEntry.zero).filterMap f = [] := by
    rw [List.filterMap_eq_nil_iff]
    intro e he
    rw [List.eq_of_mem_replicate he, hf]
  have := hb.entry_perm.filterMap f
  rwa [List.filterMap_append, hzero, List.append_nil] at this

theorem Owns.stored (ho : Owns k h e xs) : e.Stored h := by
  obtain ⟨hsize, hptr⟩ := ho
  rw [AesdBufferEntry.Stored]
  match hb : e.buffptr with
  | none =>
    rw [hb] at hptr
    simpa [hptr] using hsize
  | some .zeroSize =>
    rw [hb] at hptr
    obtain ⟨n, -, -, rfl⟩ := hptr
    exact hsize
  | some (.block b) =>
    rw [hb] at hptr
    obtain ⟨n, -, rest, hcells, -⟩ := hptr
    refine ⟨_, hcells, by simp [hsize], fun i hi => ⟨xs[i], ?_⟩⟩
    rw [List.getElem?_append_left (by simpa [hsize] using hi)]
    simp [hsize ▸ hi]

theorem pointers_eq_blocks {es : List AesdBufferEntry}
    (hes : ∀ e ∈ es, ∃ b, e.buffptr = some (.block b)) :
    es.filterMap (·.buffptr) = (es.filterMap (·.block?)).map .block := by
  induction es with
  | nil => rfl
  | cons e es ih =>
    obtain ⟨b, hb⟩ := hes e List.mem_cons_self
    have hblock : e.block? = some b := AesdBufferEntry.block?_eq_some.2 hb
    rw [List.filterMap_cons_some hb, List.filterMap_cons_some hblock, List.map_cons,
      ih fun e he => hes e (List.mem_cons_of_mem _ he)]

namespace Represents

theorem blocks_nodup (hr : Represents k d v) : (d.dev.entries.filterMap (·.block?)).Nodup := by
  have hlast : [d.dev.aesdEntry].filterMap (·.block?) = d.dev.aesdEntry.block?.toList := by
    cases hb : d.dev.aesdEntry.block? <;> simp [hb]
  rw [AesdDev.entries, List.filterMap_append, hlast]
  exact (((hr.holds.ring.slots_perm rfl).append_right _).nodup_iff).2 hr.holds.nodup

theorem stored_block (hr : Represents k d v) :
    ∀ e ∈ d.dev.aesdBuffer.stored, ∃ b, e.buffptr = some (.block b) := by
  intro e he
  obtain ⟨i, hi, rfl⟩ := List.getElem_of_mem he
  have hi' : i < v.log.lines.length := hr.holds.stored.length_eq ▸ hi
  refine ((List.forall₂_iff_get.1 hr.holds.stored).2 i hi hi').exists_block ?_
  exact (v.log.isLine _ (List.getElem_mem hi')).ne_nil

/-- The pointers are distinct: only the pending one can be `ZERO_SIZE_PTR`. -/
theorem pointers_nodup (hr : Represents k d v) : (d.dev.entries.filterMap (·.buffptr)).Nodup := by
  have hlast : [d.dev.aesdEntry].filterMap (·.buffptr) = d.dev.aesdEntry.buffptr.toList := by
    cases hb : d.dev.aesdEntry.buffptr <;> simp [hb]
  obtain ⟨hstored, -, hdisj⟩ := List.nodup_append.1 hr.holds.nodup
  have hperm := hr.holds.ring.slots_perm (f := (·.buffptr)) rfl
  rw [AesdDev.entries, List.filterMap_append, hlast, (hperm.append_right _).nodup_iff,
    pointers_eq_blocks hr.stored_block]
  refine List.nodup_append.2 ⟨hstored.map fun _ _ h => Address.block.inj h, Option.toList_nodup _, ?_⟩
  rintro a ha a' ha' rfl
  obtain ⟨b, hb, rfl⟩ := List.mem_map.1 ha
  refine hdisj b hb b (Option.mem_toList.2 ?_) rfl
  exact AesdBufferEntry.block?_eq_some.2 (Option.mem_toList.1 ha')

theorem entries_stored (hr : Represents k d v) : ∀ e ∈ d.dev.entries, e.Stored d.heap := by
  intro e he
  rcases List.mem_append.1 he with he | he
  · rcases List.mem_append.1 (hr.holds.ring.entry_perm.subset he) with he | he
    · obtain ⟨i, hi, rfl⟩ := List.getElem_of_mem he
      have hi' : i < v.log.lines.length := hr.holds.stored.length_eq ▸ hi
      exact ((List.forall₂_iff_get.1 hr.holds.stored).2 i hi hi').stored
    · rw [List.eq_of_mem_replicate he]
      exact rfl
  · rw [List.mem_singleton.1 he]
    exact hr.holds.pending.stored

theorem cleanup (hr : Represents k d v) : ∃ h', aesdCleanupModule d = some h' ∧
    h'.freed = d.heap.freed ++ d.dev.aesdBuffer.entry.toList.filterMap (·.block?) ∧
    h'.next = d.heap.next := by
  have hstep : (fun (h : Heap UInt8) (e : AesdBufferEntry) =>
      if e.buffptr ≠ none then kfree h e.buffptr else some h) = fun h e => kfree h e.buffptr := by
    funext h e
    cases hb : e.buffptr <;> simp [kfree]
  have hptrs : (d.dev.aesdBuffer.entry.toList.map (·.buffptr)).filterMap Ptr.block? =
      d.dev.aesdBuffer.entry.toList.filterMap (·.block?) := by
    rw [List.filterMap_map]
    rfl
  have hperm := hr.holds.ring.slots_perm (f := (·.block?)) rfl
  obtain ⟨h', hfree, hfreed, hnext, -⟩ := foldlM_kfree (h := d.heap)
    (d.dev.aesdBuffer.entry.toList.map (·.buffptr)) (by
      rw [hptrs, hperm.nodup_iff]
      exact (List.nodup_append.1 hr.holds.nodup).1) fun b hb => hr.holds.live (by
        rw [hptrs] at hb
        exact List.mem_append_left _ (hperm.subset hb))
  rw [hptrs] at hfreed
  refine ⟨h', ?_, hfreed, hnext⟩
  rw [aesdCleanupModule, hstep]
  simpa [List.foldlM_map] using hfree

end Represents

end AesdChar
