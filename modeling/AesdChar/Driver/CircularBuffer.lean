import AesdChar.Base.CInt
import AesdChar.Base.BlockHeap
import AesdChar.Base.Cyclic

/-!
# The circular buffer of the driver

`aesd-circular-buffer.c`, function by function. A pointer is `none` (NULL) or an address that `kmalloc`
gave: a block, or `ZERO_SIZE_PTR`. The array is a vector, the offsets are numbers and `size` is a
`size_t`. The pointers handed to `kfree` are returned in call order, so that the caller's heap performs
them.
-/

namespace AesdChar
open CInt BlockHeap

/-- `AESDCHAR_MAX_WRITE_OPERATIONS_SUPPORTED` -/
abbrev maxWriteOperations : ℕ := 10

/-- A pointer to kmalloc memory; `none` is NULL. -/
abbrev Ptr := Option Address

/-- The block that a pointer points to. -/
def Ptr.block? : Ptr → Option ℕ
  | some (.block b) => some b
  | some .zeroSize | none => none

/-- `struct aesd_buffer_entry` -/
structure AesdBufferEntry where
  buffptr : Ptr
  size : ℕ
  deriving DecidableEq, Repr

/-- The entry that `memset` leaves. -/
def AesdBufferEntry.zero : AesdBufferEntry := ⟨none, 0⟩

/-- The block that an entry refers to. -/
def AesdBufferEntry.block? (e : AesdBufferEntry) : Option ℕ := Ptr.block? e.buffptr

/-- `struct aesd_circular_buffer` -/
structure AesdCircularBuffer where
  entry : Vector AesdBufferEntry maxWriteOperations
  inOffs : ℕ
  outOffs : ℕ
  full : Bool
  deriving DecidableEq, Repr

namespace AesdCircularBuffer
variable (buffer : AesdCircularBuffer)

/-- `buffer->entry[i]` -/
def slot (i : ℕ) : AesdBufferEntry := buffer.entry[i]?.getD .zero

/-- The number of entries in use: `in_offs = out_offs` means empty or, with the flag, full. -/
def count : ℕ :=
  if buffer.full then maxWriteOperations
  else (buffer.inOffs + maxWriteOperations - buffer.outOffs) % maxWriteOperations

/-- The entries in use, walked cyclically from `out_offs`, oldest first. -/
def stored : List AesdBufferEntry :=
  Cyclic.walk maxWriteOperations buffer.slot buffer.outOffs buffer.count

end AesdCircularBuffer

/-- `aesd_circular_buffer_init` -/
def aesdCircularBufferInit : AesdCircularBuffer where
  entry := Vector.replicate maxWriteOperations .zero
  inOffs := 0
  outOffs := 0
  full := false

/-- `aesd_circular_buffer_add_entry`: the buffer afterwards and the pointers given to `kfree`. -/
def aesdCircularBufferAddEntry (buffer : AesdCircularBuffer) (addEntry : AesdBufferEntry) :
    AesdCircularBuffer × List Ptr :=
  let outOffs := if buffer.full then (buffer.outOffs + 1) % maxWriteOperations else buffer.outOffs
  let entryToDelete := if buffer.full then [(buffer.slot buffer.inOffs).buffptr] else []
  ({ entry := buffer.entry.setIfInBounds buffer.inOffs addEntry
     inOffs := (buffer.inOffs + 1) % maxWriteOperations
     outOffs := outOffs
     -- the head is compared with the tail that was already advanced
     full := if (buffer.inOffs + 1) % maxWriteOperations = outOffs then true else buffer.full },
    entryToDelete)

/-- The loop of `aesd_circular_buffer_find_entry_offset_for_fpos`, with `n` iterations left. -/
def findEntryLoop (buffer : AesdCircularBuffer) (charOffset : ℕ) : ℕ → ℕ → ℤ → Option (ℕ × ℕ)
  | 0, _, _ => none
  | n + 1, i, currentOffset =>
    let currentIndex := i % maxWriteOperations
    if toSize (charOffset - currentOffset) < (buffer.slot currentIndex).size then
      some (currentIndex, toSize (charOffset - currentOffset))
    else
      findEntryLoop buffer charOffset n (i + 1)
        (toInt (currentOffset + (buffer.slot currentIndex).size))

/-- `aesd_circular_buffer_find_entry_offset_for_fpos`: the index of the entry returned, with what is
stored through `entry_offset_byte_rtn`; `none` is NULL, with nothing stored. -/
def aesdCircularBufferFindEntryOffsetForFpos (buffer : AesdCircularBuffer) (charOffset : ℕ) :
    Option (ℕ × ℕ) :=
  findEntryLoop buffer charOffset maxWriteOperations buffer.outOffs 0

end AesdChar
