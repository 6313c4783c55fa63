import AesdChar.Base.Monitor
import AesdChar.Driver.Device

/-!
# The operations of the driver, access by access

The same functions once more, now as the programs that two processes run next to each other: each read
of a field of `aesd_device`, each write of one and each kernel service is an access of its own, every
expression of the source reads its fields anew, and so does every condition of a loop. With nobody else
around, a program does what the function of `Device` does in one step (`run_aesdRead`,
`run_aesdWrite`, ...).

A handle is used by one thread at a time. For read, write and llseek the kernel sees to that with the
lock of the position; an ioctl next to another call on the same handle is left out.
-/

namespace AesdChar
open CInt BlockHeap Prog

/-- The mutex of the device. -/
def deviceLock : LockIn Driver where
  held d := d.dev.lock
  set b d := { d with dev := { d.dev with lock := b } }
  held_set _ _ := rfl

@[simp] theorem deviceLock_held (d : Driver) : deviceLock.held d = d.dev.lock := rfl

@[simp] theorem deviceLock_set (b : Bool) (d : Driver) :
    deviceLock.set b d = ⟨d.heap, { d.dev with lock := b }⟩ := rfl

namespace Accesses

/-- Read from `aesd_device`. -/
def load {β : Type} (g : AesdDev → β) : Prog Driver β := get fun d => g d.dev

/-- Write to `aesd_device`. -/
def assign (f : AesdDev → AesdDev) : Prog Driver Unit := modify fun d => { d with dev := f d.dev }

/-- A service on the kmalloc memory. -/
def service {β : Type} (g : Heap UInt8 → Option (β × Heap UInt8)) : Prog Driver β :=
  perform fun d => (g d.heap).map fun r => (r.1, { d with heap := r.2 })

/-- A service without a result. -/
def command (g : Heap UInt8 → Option (Heap UInt8)) : Prog Driver Unit :=
  service fun h => (g h).map fun h' => ((), h')

/-! ### The circular buffer -/

/-- The loop of `aesd_circular_buffer_find_entry_offset_for_fpos`, for at most `n` turns. -/
def findEntryLoop (charOffset : ℕ) : ℕ → ℕ → ℤ → Prog Driver (Option (ℕ × ℕ))
  | 0, _, _ => .fail
  | n + 1, i, currentOffset => do
    let outOffs ← load (·.aesdBuffer.outOffs)
    if i < maxWriteOperations + outOffs then
      let currentIndex := i % maxWriteOperations
      let size ← load fun dev => (dev.aesdBuffer.slot currentIndex).size
      if toSize (charOffset - currentOffset) < size then
        return some (currentIndex, toSize (charOffset - currentOffset))
      else
        let size ← load fun dev => (dev.aesdBuffer.slot currentIndex).size
        findEntryLoop charOffset n (i + 1) (toInt (currentOffset + size))
    else
      return none

/-- `aesd_circular_buffer_find_entry_offset_for_fpos` -/
def aesdCircularBufferFindEntryOffsetForFpos (charOffset : ℕ) : Prog Driver (Option (ℕ × ℕ)) := do
  let i ← load (·.aesdBuffer.outOffs)
  findEntryLoop charOffset (maxWriteOperations + 1) i 0

/-- The eviction in `aesd_circular_buffer_add_entry`, when the buffer is full. -/
def evictOldest : Prog Driver Unit := do
  let outOffs ← load (·.aesdBuffer.outOffs)
  assign fun dev => { dev with aesdBuffer.outOffs := (outOffs + 1) % maxWriteOperations }
  let inOffs ← load (·.aesdBuffer.inOffs)
  let entryToDelete ← load fun dev => (dev.aesdBuffer.slot inOffs).buffptr
  command fun h => kfree h entryToDelete

/-- The rest of `aesd_circular_buffer_add_entry`; `add_entry` is the pending entry. -/
def storeEntry : Prog Driver Unit := do
  let buffptr ← load (·.aesdEntry.buffptr)
  let inOffs ← load (·.aesdBuffer.inOffs)
  assign fun dev => { dev with aesdBuffer.entry :=
    dev.aesdBuffer.entry.setIfInBounds inOffs ⟨buffptr, (dev.aesdBuffer.slot inOffs).size⟩ }
  let size ← load (·.aesdEntry.size)
  let inOffs ← load (·.aesdBuffer.inOffs)
  assign fun dev => { dev with aesdBuffer.entry :=
    dev.aesdBuffer.entry.setIfInBounds inOffs ⟨(dev.aesdBuffer.slot inOffs).buffptr, size⟩ }
  let inOffs ← load (·.aesdBuffer.inOffs)
  let outOffs ← load (·.aesdBuffer.outOffs)
  if (inOffs + 1) % maxWriteOperations = outOffs then
    assign fun dev => { dev with aesdBuffer.full := true }
  let inOffs ← load (·.aesdBuffer.inOffs)
  assign fun dev => { dev with aesdBuffer.inOffs := (inOffs + 1) % maxWriteOperations }

/-- `aesd_circular_buffer_add_entry` -/
def aesdCircularBufferAddEntry : Prog Driver Unit := do
  let full ← load (·.aesdBuffer.full)
  if full then evictOldest
  storeEntry

/-! ### Writing -/

/-- The loop of `checkCR`, with `n` iterations left. -/
def checkCRLoop (buffer : Address) : ℕ → ℕ → Prog Driver ℤ
  | 0, _ => return -1
  | n + 1, c => do
    let x ← service fun h => (h.loadAt buffer c 1).map fun x => (x, h)
    if x = [newline] then return c else checkCRLoop buffer n (c + 1)

/-- `checkCR` -/
def checkCR (buffer : Ptr) (size : ℤ) : Prog Driver ℤ :=
  match buffer with
  | none => return -1
  | some a => checkCRLoop a size.toNat 0

/-- `sendEntryToCircularBuffer` -/
def sendEntryToCircularBuffer : Prog Driver Unit := do
  let buffptr ← load (·.aesdEntry.buffptr)
  let size ← load (·.aesdEntry.size)
  let posCR ← checkCR buffptr (toInt size)
  let size ← load (·.aesdEntry.size)
  if posCR ≥ 0 ∧ toSize posCR = toSize (size - 1) then
    aesdCircularBufferAddEntry
    assign fun dev => { dev with aesdEntry.buffptr := none }
    assign fun dev => { dev with aesdEntry.size := 0 }

/-- The end of that branch of `aesd_write` that has a pending entry: the new block takes its place. -/
def replaceEntry (locBuffer : Address) (size : ℤ) : Prog Driver ℤ := do
  let buffptr ← load (·.aesdEntry.buffptr)
  command fun h => kfree h buffptr
  assign fun dev => { dev with aesdEntry.buffptr := some locBuffer }
  assign fun dev => { dev with aesdEntry.size := toSize size }
  sendEntryToCircularBuffer
  return -ENOMEM

/-- The branch of `aesd_write` that has a pending entry. -/
def writeBehind (k : KernelLimits) (buf : List UInt8) (env : WriteEnv) : Prog Driver ℤ := do
  let size ← load fun dev => (toInt (buf.length + dev.aesdEntry.size) : ℤ)
  let locBuffer ← service fun h => some (kmalloc h k (toSize size) env.granted)
  match locBuffer with
  | none => return -EINVAL
  | some locBuffer =>
    command fun h => memset h locBuffer (UInt8.ofNat (toSize size)) 0
    let buffptr ← load (·.aesdEntry.buffptr)
    let n ← load (·.aesdEntry.size)
    command fun h => buffptr.bind fun src => memcpy h locBuffer src n
    let n ← load (·.aesdEntry.size)
    let left ← service fun h => copyFromUser h locBuffer n buf env.uncopied
    if left ≠ 0 then return -EINVAL
    replaceEntry locBuffer size

/-- The branch of `aesd_write` that has none. -/
def writeFirst (k : KernelLimits) (buf : List UInt8) (env : WriteEnv) : Prog Driver ℤ := do
  let buffptr ← service fun h => some (kmalloc h k buf.length env.granted)
  assign fun dev => { dev with aesdEntry.buffptr := buffptr }
  assign fun dev => { dev with aesdEntry.size := 0 }
  let buffptr ← load (·.aesdEntry.buffptr)
  if buffptr = none then return -EINVAL
  let buffptr ← load (·.aesdEntry.buffptr)
  let left ← service fun h => buffptr.bind fun a => copyFromUser h a 0 buf env.uncopied
  if left ≠ 0 then return -EINVAL
  assign fun dev => { dev with aesdEntry.size := buf.length }
  sendEntryToCircularBuffer
  return -ENOMEM

/-- What `aesd_write` does between taking the lock and giving it back: its return value. -/
def writeLocked (k : KernelLimits) (buf : List UInt8) (env : WriteEnv) : Prog Driver ℤ := do
  let buffptr ← load (·.aesdEntry.buffptr)
  if buffptr ≠ none then writeBehind k buf env else writeFirst k buf env

/-- `aesd_write` -/
def aesdWrite (k : KernelLimits) (fPos : ℤ) (buf : List UInt8) (env : WriteEnv) : Prog Driver Reply :=
  if env.interrupted then return ⟨-ERESTARTSYS, [], fPos⟩
  else do
    acquire
    let retval ← writeLocked k buf env
    release ⟨retval, [], fPos⟩

/-! ### Reading -/

/-- What `aesd_read` does between taking the lock and giving it back. -/
def readLocked (fPos : ℤ) (count : ℕ) (env : ReadEnv) : Prog Driver Reply := do
  let found ← aesdCircularBufferFindEntryOffsetForFpos (toSize fPos)
  match found with
  | none => return ⟨0, [], fPos⟩
  | some (index, entryOffset) =>
    let btocopy ← load fun dev => toLong (toSize ((dev.aesdBuffer.slot index).size - entryOffset))
    let retval := if count > toSize btocopy then btocopy else toLong count
    let buffptr ← load fun dev => (dev.aesdBuffer.slot index).buffptr
    let (left, data) ← service fun h =>
      (copyToUser h buffptr entryOffset (toSize retval) env.uncopied).map fun r => (r, h)
    if left ≠ 0 then return ⟨-EFAULT, data, fPos⟩
    return ⟨retval, data, toLong (fPos + retval)⟩

/-- `aesd_read` -/
def aesdRead (fPos : ℤ) (count : ℕ) (env : ReadEnv) : Prog Driver Reply :=
  if env.interrupted then return ⟨-ERESTARTSYS, [], fPos⟩
  else do
    acquire
    let r ← readLocked fPos count env
    release r

/-! ### Seeking -/

/-- The loop of `aesd_llseek` and `aesd_unlocked_ioctl`, for at most `n` turns; the slot it stops at is
looked up before every turn. -/
def sizeLoop (stop : AesdDev → ℕ) : ℕ → ℕ → ℤ → Prog Driver ℤ
  | 0, _, _ => .fail
  | n + 1, c, totalSize => do
    let stopAt ← load stop
    if c = stopAt then return totalSize
    else
      let size ← load fun dev => (dev.aesdBuffer.slot c).size
      sizeLoop stop n ((c + 1) % maxWriteOperations) (toInt (totalSize + size))

/-- The whole loop, from `out_offs` on. -/
def totalSize (stop : AesdDev → ℕ) : Prog Driver ℤ := do
  let c ← load (·.aesdBuffer.outOffs)
  sizeLoop stop maxWriteOperations c 0

/-- `aesd_llseek` -/
def aesdLlseek (fPos offset : ℤ) (whence : ℕ) (interrupted : Bool) : Prog Driver Reply :=
  match whence with
  | SEEK_SET => return setPosition fPos fPos
  | SEEK_CUR => return setPosition fPos (toLong (fPos + offset))
  | SEEK_END =>
    if interrupted then return ⟨-ERESTARTSYS, [], fPos⟩
    else do
      acquire
      let total ← totalSize (·.aesdBuffer.inOffs)
      release (setPosition fPos (toLong (total + offset)))
  | _ => return ⟨-EINVAL, [], fPos⟩

/-- `aesd_unlocked_ioctl` -/
def aesdUnlockedIoctl (fPos : ℤ) (cmd : ℕ) (arg : AesdSeekto) (env : ReadEnv) : Prog Driver Reply :=
  if cmd ≠ AESDCHAR_IOCSEEKTO then return ⟨-ENOTTY, [], fPos⟩
  else if min env.uncopied 8 ≠ 0 then return ⟨-EFAULT, [], fPos⟩
  else if arg.writeCmd.toNat ≥ maxWriteOperations then return ⟨-EINVAL, [], fPos⟩
  else if env.interrupted then return ⟨-ERESTARTSYS, [], fPos⟩
  else do
    acquire
    let total ← totalSize fun _ => arg.writeCmd.toNat
    release ⟨-ENOMEM, [], toUInt32 (total + arg.writeCmdOffset.toNat)⟩

/-! ### With nobody else around -/

section Run
variable {β ρ : Type} {d : Driver} {k : KernelLimits} (next : β → Prog Driver ρ)

@[simp] theorem run_load (g : AesdDev → β) :
    (load g >>= next).run deviceLock d = (next (g d.dev)).run deviceLock d := by
  rw [run_bind, load, run_get, Option.bind_some]

@[simp] theorem run_assign (f : AesdDev → AesdDev) (next : Unit → Prog Driver ρ) :
    (assign f >>= next).run deviceLock d = (next ()).run deviceLock { d with dev := f d.dev } := by
  rw [run_bind, assign, run_modify, Option.bind_some]

theorem run_assign_last (f : AesdDev → AesdDev) :
    (assign f).run deviceLock d = some ((), { d with dev := f d.dev }) := run_modify _ _

@[simp] theorem run_service (g : Heap UInt8 → Option (β × Heap UInt8)) :
    (service g >>= next).run deviceLock d =
      (g d.heap).bind fun r => (next r.1).run deviceLock { d with heap := r.2 } := by
  rw [run_bind, service, run_perform, Option.bind_map]
  rfl

@[simp] theorem run_command (g : Heap UInt8 → Option (Heap UInt8)) (next : Unit → Prog Driver ρ) :
    (command g >>= next).run deviceLock d =
      (g d.heap).bind fun h => (next ()).run deviceLock { d with heap := h } := by
  rw [command, run_service, Option.bind_map]
  rfl

theorem run_findEntryLoop (charOffset : ℕ) {n i : ℕ} (currentOffset : ℤ)
    (hi : i + n = maxWriteOperations + d.dev.aesdBuffer.outOffs) :
    (findEntryLoop charOffset (n + 1) i currentOffset).run deviceLock d =
      some (AesdChar.findEntryLoop d.dev.aesdBuffer charOffset n i currentOffset, d) := by
  induction n generalizing i currentOffset with
  | zero =>
    have hend : ¬ i < maxWriteOperations + d.dev.aesdBuffer.outOffs := by omega
    simp [findEntryLoop, AesdChar.findEntryLoop, hend, run_pure]
  | succ n ih =>
    have hgo : i < maxWriteOperations + d.dev.aesdBuffer.outOffs := by omega
    rw [findEntryLoop, AesdChar.findEntryLoop]
    simp only [run_load, if_pos hgo]
    split
    · rfl
    · rw [run_load]
      exact ih _ (by omega)

theorem run_findEntryOffsetForFpos (charOffset : ℕ) :
    (aesdCircularBufferFindEntryOffsetForFpos charOffset).run deviceLock d =
      some (AesdChar.aesdCircularBufferFindEntryOffsetForFpos d.dev.aesdBuffer charOffset, d) := by
  rw [aesdCircularBufferFindEntryOffsetForFpos, run_load]
  exact run_findEntryLoop charOffset 0 (Nat.add_comm _ _)

theorem set_fields (buffer : AesdCircularBuffer) (i : ℕ) (e : AesdBufferEntry) :
    (buffer.entry.setIfInBounds i ⟨e.buffptr, (buffer.slot i).size⟩).setIfInBounds i
      ⟨(({ buffer with entry := buffer.entry.setIfInBounds i ⟨e.buffptr, (buffer.slot i).size⟩ } :
        AesdCircularBuffer).slot i).buffptr, e.size⟩ = buffer.entry.setIfInBounds i e := by
  by_cases hi : i < maxWriteOperations
  · simp [AesdCircularBuffer.slot, hi]
  · rw [Vector.setIfInBounds_setIfInBounds, Vector.setIfInBounds_eq_of_size_le (not_lt.1 hi),
      Vector.setIfInBounds_eq_of_size_le (not_lt.1 hi)]

theorem run_storeEntry : storeEntry.run deviceLock d =
    some ((), { d with dev := { d.dev with aesdBuffer :=
      { entry := d.dev.aesdBuffer.entry.setIfInBounds d.dev.aesdBuffer.inOffs d.dev.aesdEntry
        inOffs := (d.dev.aesdBuffer.inOffs + 1) % maxWriteOperations
        outOffs := d.dev.aesdBuffer.outOffs
        full := if (d.dev.aesdBuffer.inOffs + 1) % maxWriteOperations = d.dev.aesdBuffer.outOffs then true
          else d.dev.aesdBuffer.full } } }) := by
  rw [← set_fields]
  simp only [storeEntry, run_load, run_assign]
  split
  · simp [run_assign_last]
  · simp [run_assign_last]

theorem run_evictOldest : evictOldest.run deviceLock d =
    (kfree d.heap (d.dev.aesdBuffer.slot d.dev.aesdBuffer.inOffs).buffptr).map fun h =>
      ((), ⟨h, { d.dev with aesdBuffer.outOffs :=
        (d.dev.aesdBuffer.outOffs + 1) % maxWriteOperations }⟩) := by
  have hlast : ∀ g : Heap UInt8 → Option (Heap UInt8), ∀ d : Driver,
      (command g).run deviceLock d = (g d.heap).map fun h => ((), { d with heap := h }) := fun g d => by
    rw [command, service, run_perform, Option.map_map]
    rfl
  simp [evictOldest, hlast, AesdCircularBuffer.slot]

theorem run_addEntry : aesdCircularBufferAddEntry.run deviceLock d =
    ((AesdChar.aesdCircularBufferAddEntry d.dev.aesdBuffer d.dev.aesdEntry).2.foldlM kfree d.heap).map
      fun h => ((), ⟨h, { d.dev with aesdBuffer :=
        (AesdChar.aesdCircularBufferAddEntry d.dev.aesdBuffer d.dev.aesdEntry).1 }⟩) := by
  cases hfull : d.dev.aesdBuffer.full with
  | false =>
    simp [aesdCircularBufferAddEntry, AesdChar.aesdCircularBufferAddEntry, hfull, run_storeEntry]
  | true =>
    simp only [aesdCircularBufferAddEntry, AesdChar.aesdCircularBufferAddEntry, run_load, hfull, if_true,
      List.foldlM_cons, List.foldlM_nil]
    rw [run_bind, run_evictOldest]
    cases kfree d.heap (d.dev.aesdBuffer.slot d.dev.aesdBuffer.inOffs).buffptr with
    | none => rfl
    | some h => simp [run_storeEntry, hfull]

theorem run_checkCRLoop (a : Address) (n c : ℕ) : (checkCRLoop a n c).run deviceLock d =
    (AesdChar.checkCRLoop d.heap a n c).map fun i => (i, d) := by
  induction n generalizing c with
  | zero => rfl
  | succ n ih =>
    rw [checkCRLoop, AesdChar.checkCRLoop, run_service]
    cases d.heap.loadAt a c 1 with
    | none => rfl
    | some x =>
      simp only [Option.map_some, Option.bind_some]
      split
      · rfl
      · exact ih _

theorem run_checkCR (buffer : Ptr) (size : ℤ) : (checkCR buffer size).run deviceLock d =
    (AesdChar.checkCR d.heap buffer size).map fun i => (i, d) := by
  cases buffer with
  | none => rfl
  | some a => exact run_checkCRLoop a _ 0

theorem run_sendEntry : sendEntryToCircularBuffer.run deviceLock d =
    (AesdChar.sendEntryToCircularBuffer d.heap d.dev).map fun r => ((), ⟨r.1, r.2⟩) := by
  simp only [sendEntryToCircularBuffer, AesdChar.sendEntryToCircularBuffer, run_load, Option.bind_eq_bind]
  rw [run_bind, run_checkCR]
  cases AesdChar.checkCR d.heap d.dev.aesdEntry.buffptr (toInt d.dev.aesdEntry.size) with
  | none => rfl
  | some posCR =>
    simp only [Option.map_some, Option.bind_some, run_load]
    split
    · rw [run_bind, run_addEntry]
      cases (AesdChar.aesdCircularBufferAddEntry d.dev.aesdBuffer d.dev.aesdEntry).2.foldlM kfree d.heap with
      | none => rfl
      | some h => simp [run_assign_last]
    · rfl

theorem run_sendEntry_return (r : ρ) : (sendEntryToCircularBuffer >>= fun _ => pure r).run deviceLock d =
    (AesdChar.sendEntryToCircularBuffer d.heap d.dev).map fun x => (r, ⟨x.1, x.2⟩) := by
  rw [run_bind, run_sendEntry]
  cases AesdChar.sendEntryToCircularBuffer d.heap d.dev with
  | none => rfl
  | some x => rfl

end Run

variable {d : Driver} {k : KernelLimits} {buf : List UInt8} {env : WriteEnv}

theorem run_replaceEntry (locBuffer : Address) (size : ℤ) : (replaceEntry locBuffer size).run deviceLock d =
    (kfree d.heap d.dev.aesdEntry.buffptr).bind fun h => (AesdChar.sendEntryToCircularBuffer h
      { d.dev with aesdEntry := ⟨some locBuffer, toSize size⟩ }).map fun x => (-ENOMEM, ⟨x.1, x.2⟩) := by
  simp only [replaceEntry, run_load, run_command, run_assign, run_sendEntry_return]

theorem run_writeBehind {a : Address} (hint : env.interrupted = false) (hlock : d.dev.lock = false)
    (ha : d.dev.aesdEntry.buffptr = some a) :
    ((writeBehind k buf env).run deviceLock (deviceLock.set true d)).map
      (fun r => (r.1, deviceLock.set false r.2)) = AesdChar.aesdWrite k d buf env := by
  obtain ⟨heap, buffer, ⟨buffptr, n⟩, lock⟩ := d
  obtain rfl : buffptr = some a := ha
  obtain rfl : lock = false := hlock
  simp only [writeBehind, AesdChar.aesdWrite, hint, mutexLockInterruptible, deviceLock_set, run_load,
    run_service, Option.bind_some, Option.bind_eq_bind, Bool.false_eq_true, if_false]
  generalize toInt (buf.length + n) = size
  cases kmalloc heap k (toSize size) env.granted with
  | mk p h =>
    cases p with
    | none => rfl
    | some locBuffer =>
      simp only [run_command, run_load, run_service, Option.bind_some]
      cases memset h locBuffer (UInt8.ofNat (toSize size)) 0 with
      | none => rfl
      | some h =>
        simp only [Option.bind_some]
        cases memcpy h locBuffer a n with
        | none => rfl
        | some h =>
          simp only [Option.bind_some]
          cases copyFromUser h locBuffer n buf env.uncopied with
          | none => rfl
          | some r =>
            simp only [Option.bind_some]
            split
            · rfl
            · rw [run_replaceEntry]
              cases kfree r.2 (some a) with
              | none => rfl
              | some h =>
                rw [Option.bind_some, Option.bind_some]
                cases AesdChar.sendEntryToCircularBuffer h
                  ⟨buffer, ⟨some locBuffer, toSize size⟩, true⟩ with
                | none => rfl
                | some x => rfl

theorem run_writeFirst (hint : env.interrupted = false) (hlock : d.dev.lock = false)
    (hb : d.dev.aesdEntry.buffptr = none) :
    ((writeFirst k buf env).run deviceLock (deviceLock.set true d)).map
      (fun r => (r.1, deviceLock.set false r.2)) = AesdChar.aesdWrite k d buf env := by
  obtain ⟨heap, buffer, ⟨buffptr, n⟩, lock⟩ := d
  obtain rfl : buffptr = none := hb
  obtain rfl : lock = false := hlock
  simp only [writeFirst, AesdChar.aesdWrite, hint, mutexLockInterruptible, deviceLock_set, run_load,
    run_assign, run_service, Option.bind_some, Option.bind_eq_bind, Bool.false_eq_true, if_false]
  cases kmalloc heap k buf.length env.granted with
  | mk p h =>
    cases p with
    | none => rfl
    | some buffptr =>
      simp only [reduceCtorEq, if_false, run_load, run_service, Option.bind_some]
      cases copyFromUser h buffptr 0 buf env.uncopied with
      | none => rfl
      | some r =>
        simp only [Option.bind_some]
        split
        · rfl
        · rw [run_assign, run_sendEntry_return]
          cases AesdChar.sendEntryToCircularBuffer r.2 ⟨buffer, ⟨some buffptr, buf.length⟩, true⟩ with
          | none => rfl
          | some x => rfl

/-- `aesd_write` in one step is its accesses one after the other. -/
theorem run_aesdWrite (fPos : ℤ) : (aesdWrite k fPos buf env).run deviceLock d =
    (AesdChar.aesdWrite k d buf env).map fun r => (⟨r.1, [], fPos⟩, r.2) := by
  cases hint : env.interrupted with
  | true => simp [aesdWrite, AesdChar.aesdWrite, hint, mutexLockInterruptible, run_pure]
  | false =>
    rw [aesdWrite, if_neg (by simp [hint]), run_locked, deviceLock_held]
    cases hlock : d.dev.lock with
    | true => simp [AesdChar.aesdWrite, hint, hlock, mutexLockInterruptible]
    | false =>
      have hbody : ((writeLocked k buf env).run deviceLock (deviceLock.set true d)).map
          (fun r => (r.1, deviceLock.set false r.2)) = AesdChar.aesdWrite k d buf env := by
        rw [writeLocked, run_load]
        cases hb : d.dev.aesdEntry.buffptr with
        | none => simpa [hb] using run_writeFirst hint hlock hb
        | some a => simpa [hb] using run_writeBehind hint hlock hb
      rw [if_neg Bool.false_ne_true, ← hbody, Option.map_map]
      rfl

theorem run_aesdRead (fPos : ℤ) (count : ℕ) (env : ReadEnv) :
    (aesdRead fPos count env).run deviceLock d = AesdChar.aesdRead d fPos count env := by
  cases hint : env.interrupted with
  | true => simp [aesdRead, AesdChar.aesdRead, hint, mutexLockInterruptible, run_pure]
  | false =>
    rw [aesdRead, if_neg (by simp [hint]), run_locked, deviceLock_held]
    cases hlock : d.dev.lock with
    | true => simp [AesdChar.aesdRead, hint, hlock, mutexLockInterruptible]
    | false =>
      rw [if_neg Bool.false_ne_true, readLocked, run_bind, run_findEntryOffsetForFpos, Option.bind_some]
      simp only [AesdChar.aesdRead, mutexLockInterruptible, hint, hlock, Bool.false_eq_true, if_false,
        Option.bind_eq_bind, Option.bind_some, deviceLock_set]
      cases AesdChar.aesdCircularBufferFindEntryOffsetForFpos d.dev.aesdBuffer (toSize fPos) with
      | none => rfl
      | some found =>
        obtain ⟨index, entryOffset⟩ := found
        simp only [run_load, run_service]
        generalize toLong (toSize ((d.dev.aesdBuffer.slot index).size - entryOffset)) = btocopy
        generalize (if count > toSize btocopy then btocopy else toLong count) = retval
        cases copyToUser d.heap (d.dev.aesdBuffer.slot index).buffptr entryOffset (toSize retval)
          env.uncopied with
        | none => rfl
        | some r =>
          simp only [Option.map_some, Option.bind_some]
          split
          · rfl
          · rfl

theorem run_sizeLoop (stop : AesdDev → ℕ) (n c : ℕ) (total : ℤ) :
    (sizeLoop stop n c total).run deviceLock d =
      (AesdChar.sizeLoop d.dev.aesdBuffer (stop d.dev) n c total).map fun r => (r, d) := by
  induction n generalizing c total with
  | zero => rfl
  | succ n ih =>
    rw [sizeLoop, AesdChar.sizeLoop, run_load]
    split
    · rfl
    · rw [run_load]
      exact ih _ _

theorem run_totalSize (stop : AesdDev → ℕ) : (totalSize stop).run deviceLock d =
    (AesdChar.sizeLoop d.dev.aesdBuffer (stop d.dev) maxWriteOperations d.dev.aesdBuffer.outOffs 0).map
      fun r => (r, d) := by
  rw [totalSize, run_load, run_sizeLoop]

theorem run_aesdLlseek (fPos offset : ℤ) (whence : ℕ) (interrupted : Bool) :
    (aesdLlseek fPos offset whence interrupted).run deviceLock d =
      AesdChar.aesdLlseek d fPos offset whence interrupted := by
  rcases whence with _ | _ | _ | whence
  · rfl
  · rfl
  · cases interrupted with
    | true => rfl
    | false =>
      simp only [aesdLlseek, Bool.false_eq_true, if_false]
      rw [run_locked, deviceLock_held, run_totalSize]
      cases hlock : d.dev.lock with
      | true => simp [AesdChar.aesdLlseek, hlock, mutexLockInterruptible]
      | false =>
        rw [if_neg Bool.false_ne_true, Option.map_map]
        simp only [AesdChar.aesdLlseek, hlock, mutexLockInterruptible, Bool.false_eq_true, if_false,
          deviceLock_set, Option.bind_eq_bind, Option.bind_some]
        cases AesdChar.sizeLoop d.dev.aesdBuffer d.dev.aesdBuffer.inOffs maxWriteOperations
          d.dev.aesdBuffer.outOffs 0 with
        | none => rfl
        | some total => rfl
  · rfl

theorem run_aesdUnlockedIoctl (fPos : ℤ) (cmd : ℕ) (arg : AesdSeekto) (env : ReadEnv) :
    (aesdUnlockedIoctl fPos cmd arg env).run deviceLock d =
      AesdChar.aesdUnlockedIoctl d fPos cmd arg env := by
  unfold aesdUnlockedIoctl AesdChar.aesdUnlockedIoctl
  split
  · rfl
  split
  · rfl
  split
  · rfl
  cases hint : env.interrupted with
  | true => rfl
  | false =>
    simp only [Bool.false_eq_true, if_false]
    rw [run_locked, deviceLock_held, run_totalSize]
    cases hlock : d.dev.lock with
    | true => simp [hlock, mutexLockInterruptible]
    | false =>
      rw [if_neg Bool.false_ne_true, Option.map_map]
      simp only [hlock, mutexLockInterruptible, Bool.false_eq_true, if_false, deviceLock_set,
        Option.bind_eq_bind, Option.bind_some]
      cases AesdChar.sizeLoop d.dev.aesdBuffer arg.writeCmd.toNat maxWriteOperations
        d.dev.aesdBuffer.outOffs 0 with
      | none => rfl
      | some total => rfl

/-! ### The lock -/

theorem lockless_load {β : Type} (g : AesdDev → β) : (load g).Lockless deviceLock := lockless_get _

theorem lockless_assign {f : AesdDev → AesdDev} (h : ∀ dev, (f dev).lock = dev.lock) :
    (assign f).Lockless deviceLock := lockless_modify fun d => h d.dev

theorem lockless_service {β : Type} (g : Heap UInt8 → Option (β × Heap UInt8)) :
    (service g).Lockless deviceLock := by
  refine lockless_perform fun d r hr => ?_
  obtain ⟨x, -, rfl⟩ := Option.map_eq_some_iff.1 hr
  rfl

theorem lockless_command (g : Heap UInt8 → Option (Heap UInt8)) : (command g).Lockless deviceLock :=
  lockless_service _

theorem lockless_findEntryLoop (charOffset n i : ℕ) (currentOffset : ℤ) :
    (findEntryLoop charOffset n i currentOffset).Lockless deviceLock := by
  induction n generalizing i currentOffset with
  | zero => trivial
  | succ n ih =>
    refine (lockless_load _).bind fun outOffs => ?_
    split
    · refine (lockless_load _).bind fun size => ?_
      split
      · trivial
      · exact (lockless_load _).bind fun size => ih _ _
    · trivial

theorem lockless_readLocked (fPos : ℤ) (count : ℕ) (env : ReadEnv) :
    (readLocked fPos count env).Lockless deviceLock := by
  have hfind : (aesdCircularBufferFindEntryOffsetForFpos (toSize fPos)).Lockless deviceLock :=
    (lockless_load _).bind fun i => lockless_findEntryLoop _ _ _ _
  refine hfind.bind fun found => ?_
  cases found with
  | none => trivial
  | some found =>
    refine (lockless_load _).bind fun btocopy => (lockless_load _).bind fun buffptr => ?_
    refine (lockless_service _).bind fun r => ?_
    show (if r.1 ≠ 0 then _ else _ : Prog Driver Reply).Lockless deviceLock
    split
    · trivial
    · trivial

theorem lockless_addEntry : aesdCircularBufferAddEntry.Lockless deviceLock := by
  have hevict : evictOldest.Lockless deviceLock :=
    (lockless_load _).bind fun _ => (lockless_assign fun _ => rfl).bind fun _ =>
      (lockless_load _).bind fun _ => (lockless_load _).bind fun _ => lockless_command _
  have hlast : (do
      let inOffs ← load (·.aesdBuffer.inOffs)
      assign fun dev => { dev with aesdBuffer.inOffs := (inOffs + 1) % maxWriteOperations }).Lockless
        deviceLock :=
    (lockless_load _).bind fun _ => lockless_assign fun _ => rfl
  have hstore : storeEntry.Lockless deviceLock := by
    refine (lockless_load _).bind fun _ => (lockless_load _).bind fun _ => ?_
    refine (lockless_assign fun _ => rfl).bind fun _ => (lockless_load _).bind fun _ => ?_
    refine (lockless_load _).bind fun _ => (lockless_assign fun _ => rfl).bind fun _ => ?_
    refine (lockless_load _).bind fun _ => (lockless_load _).bind fun _ => ?_
    split
    · exact (lockless_assign fun _ => rfl).bind fun _ => hlast
    · exact hlast
  refine (lockless_load _).bind fun full => ?_
  split
  · exact hevict.bind fun _ => hstore
  · exact hstore

theorem lockless_checkCR (buffer : Ptr) (size : ℤ) : (checkCR buffer size).Lockless deviceLock := by
  have hloop : ∀ b n c, (checkCRLoop b n c).Lockless deviceLock := by
    intro b n
    induction n with
    | zero => exact fun _ => trivial
    | succ n ih =>
      intro c
      refine (lockless_service _).bind fun x => ?_
      split
      · trivial
      · exact ih _
  cases buffer with
  | none => trivial
  | some b => exact hloop b _ _

theorem lockless_sendEntry : sendEntryToCircularBuffer.Lockless deviceLock := by
  refine (lockless_load _).bind fun _ => (lockless_load _).bind fun _ => ?_
  refine (lockless_checkCR _ _).bind fun _ => (lockless_load _).bind fun _ => ?_
  split
  · exact lockless_addEntry.bind fun _ => (lockless_assign fun _ => rfl).bind fun _ =>
      lockless_assign fun _ => rfl
  · trivial

theorem lockless_writeLocked (k : KernelLimits) (buf : List UInt8) (env : WriteEnv) :
    (writeLocked k buf env).Lockless deviceLock := by
  have hsend : ∀ r : ℤ, (sendEntryToCircularBuffer >>= fun _ => pure r).Lockless deviceLock :=
    fun r => lockless_sendEntry.bind fun _ => trivial
  refine (lockless_load _).bind fun _ => ?_
  split
  · refine (lockless_load _).bind fun size => (lockless_service _).bind fun locBuffer => ?_
    cases locBuffer with
    | none => trivial
    | some locBuffer =>
      refine (lockless_command _).bind fun _ => (lockless_load _).bind fun _ => ?_
      refine (lockless_load _).bind fun _ => (lockless_command _).bind fun _ => ?_
      refine (lockless_load _).bind fun _ => (lockless_service _).bind fun left => ?_
      split
      · trivial
      · refine (lockless_load _).bind fun _ => (lockless_command _).bind fun _ => ?_
        exact (lockless_assign fun _ => rfl).bind fun _ => (lockless_assign fun _ => rfl).bind fun _ =>
          hsend _
  · refine (lockless_service _).bind fun _ => (lockless_assign fun _ => rfl).bind fun _ => ?_
    refine (lockless_assign fun _ => rfl).bind fun _ => (lockless_load _).bind fun _ => ?_
    split
    · trivial
    · refine (lockless_load _).bind fun _ => (lockless_service _).bind fun left => ?_
      split
      · trivial
      · exact (lockless_assign fun _ => rfl).bind fun _ => hsend _

theorem lockless_totalSize (stop : AesdDev → ℕ) : (totalSize stop).Lockless deviceLock := by
  have hloop : ∀ n c total, (sizeLoop stop n c total).Lockless deviceLock := by
    intro n
    induction n with
    | zero => exact fun _ _ => trivial
    | succ n ih =>
      intro c total
      refine (lockless_load _).bind fun stopAt => ?_
      split
      · trivial
      · exact (lockless_load _).bind fun _ => ih _ _
  exact (lockless_load _).bind fun c => hloop _ _ _

end Accesses

end AesdChar
