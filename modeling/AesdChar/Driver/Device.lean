import AesdChar.Driver.CircularBuffer

/-!
# The device driver

`main.c` of the driver, function by function. A driver state is its kmalloc heap and `aesd_device`.
`none` is behaviour without a meaning: a bad memory access, freeing a dead block, waiting for a lock
that its own thread holds, a loop that does not end.

What the kernel decides is an argument: whether the wait for the lock was interrupted, whether
`kmalloc` had memory, how many bytes a copy to or from user space left uncopied. `KernelLimits` are
the limits the kernel documents. `kmalloc(0)` never fails and gives no block but `ZERO_SIZE_PTR`: it is
not NULL, no byte can be accessed through it and `kfree` does nothing with it. User memory given to a
write is the list of its bytes, so its length is `count`.

Nothing calls `mutex_init`. The zeroed mutex can be taken and given back, but its wait list has no
head: who has to sleep on it follows a NULL pointer.
-/

namespace AesdChar
open CInt BlockHeap

/-- The largest request `kmalloc` can grant, and the page size. -/
structure KernelLimits where
  kmallocMaxSize : ℕ
  pageSize : ℕ
  kmallocMaxSize_le : kmallocMaxSize ≤ 2 ^ 27
  pageSize_pos : 0 < pageSize
  pageSize_le : pageSize ≤ 2 ^ 18

/-- The limits of x86-64 with 4 KiB pages. -/
def KernelLimits.x86 : KernelLimits where
  kmallocMaxSize := 2 ^ 22
  pageSize := 2 ^ 12
  kmallocMaxSize_le := by decide
  pageSize_pos := by decide
  pageSize_le := by decide

/-- `MAX_RW_COUNT`: `INT_MAX & PAGE_MASK`, the largest count the VFS passes on. -/
def KernelLimits.maxRwCount (k : KernelLimits) : ℕ := 2 ^ 31 - k.pageSize

def EFAULT : ℤ := 14
def EINVAL : ℤ := 22
def ENOTTY : ℤ := 25
def ENOMEM : ℤ := 12
def ERESTARTSYS : ℤ := 512

/-- `'\n'` -/
def newline : UInt8 := 10

/-- `struct aesd_dev`, with the mutex as "is held". -/
structure AesdDev where
  aesdBuffer : AesdCircularBuffer
  aesdEntry : AesdBufferEntry
  lock : Bool
  deriving DecidableEq, Repr

/-- The loaded driver: its kmalloc memory and `aesd_device`. -/
structure Driver where
  heap : Heap UInt8
  dev : AesdDev

/-! ### Kernel services -/

section Services
variable (h : Heap UInt8)

/-- A request of 0 bytes is always granted. -/
def kmalloc (k : KernelLimits) (size : ℕ) (granted : Bool) : Ptr × Heap UInt8 :=
  if granted = true ∧ size ≤ k.kmallocMaxSize ∨ size = 0 then
    (some (h.allocAt size).1, (h.allocAt size).2)
  else (none, h)

/-- `kfree(NULL)` does nothing. -/
def kfree : Ptr → Option (Heap UInt8)
  | none => some h
  | some a => h.freeAt a

def memset (a : Address) (c : UInt8) (n : ℕ) : Option (Heap UInt8) :=
  h.storeAt a 0 (List.replicate n c)

/-- `memcpy` from the start of one block to the start of another. -/
def memcpy (dest src : Address) (n : ℕ) : Option (Heap UInt8) :=
  (h.loadAt src 0 n).bind fun xs => h.storeAt dest 0 xs

/-- `copy_from_user` to `a + off`: the number of bytes not copied; the kernel zeroes those. -/
def copyFromUser (a : Address) (off : ℕ) (buf : List UInt8) (uncopied : ℕ) :
    Option (ℕ × Heap UInt8) :=
  let left := min uncopied buf.length
  (h.storeAt a off (buf.take (buf.length - left) ++ List.replicate left 0)).map fun h' => (left, h')

/-- `copy_to_user` of `n` bytes from `p + off`: the number of bytes not copied, and those copied. -/
def copyToUser (p : Ptr) (off n uncopied : ℕ) : Option (ℕ × List UInt8) :=
  let left := min uncopied n
  p.bind fun a => (h.loadAt a off n).map fun xs => (left, xs.take (n - left))

end Services

/-- `mutex_lock_interruptible`: whether the wait was interrupted. With the lock held there is nobody
who gives it back while the caller waits, and to sleep on this mutex has no meaning. -/
def mutexLockInterruptible (dev : AesdDev) (interrupted : Bool) : Option (Bool × AesdDev) :=
  if interrupted then some (true, dev)
  else if dev.lock then none
  else some (false, { dev with lock := true })

def mutexUnlock (dev : AesdDev) : AesdDev := { dev with lock := false }

/-! ### Writing -/

/-- What the kernel decides during one `aesd_write`. -/
structure WriteEnv where
  interrupted : Bool
  granted : Bool
  uncopied : ℕ
  deriving DecidableEq, Repr

/-- The loop of `checkCR`, with `n` iterations left. -/
def checkCRLoop (h : Heap UInt8) (buffer : Address) : ℕ → ℕ → Option ℤ
  | 0, _ => some (-1)
  | n + 1, c => (h.loadAt buffer c 1).bind fun x =>
    if x = [newline] then some c else checkCRLoop h buffer n (c + 1)

/-- `checkCR`: the index of the first newline, or `-1`. -/
def checkCR (h : Heap UInt8) (buffer : Ptr) (size : ℤ) : Option ℤ :=
  match buffer with
  | none => some (-1)
  | some a => checkCRLoop h a size.toNat 0

/-- `sendEntryToCircularBuffer`; its return value is always 0 and never used. -/
def sendEntryToCircularBuffer (h : Heap UInt8) (dev : AesdDev) : Option (Heap UInt8 × AesdDev) := do
  let posCR ← checkCR h dev.aesdEntry.buffptr (toInt dev.aesdEntry.size)
  if posCR ≥ 0 ∧ toSize posCR = toSize (dev.aesdEntry.size - 1) then
    let added := aesdCircularBufferAddEntry dev.aesdBuffer dev.aesdEntry
    let h ← added.2.foldlM kfree h
    return (h, { dev with aesdBuffer := added.1, aesdEntry := ⟨none, 0⟩ })
  else
    return (h, dev)

/-- `aesd_write`: the return value and the driver afterwards. -/
def aesdWrite (k : KernelLimits) (d : Driver) (buf : List UInt8) (env : WriteEnv) :
    Option (ℤ × Driver) := do
  let (interrupted, dev) ← mutexLockInterruptible d.dev env.interrupted
  if interrupted then return (-ERESTARTSYS, d)
  match dev.aesdEntry.buffptr with
  | some buffptr =>
    let size : ℤ := toInt (buf.length + dev.aesdEntry.size)
    match kmalloc d.heap k (toSize size) env.granted with
    | (none, h) => return (-EINVAL, ⟨h, mutexUnlock dev⟩)
    | (some locBuffer, h) =>
      -- the last two arguments of the source's memset are swapped, so it writes nothing
      let h ← memset h locBuffer (UInt8.ofNat (toSize size)) 0
      let h ← memcpy h locBuffer buffptr dev.aesdEntry.size
      let (left, h) ← copyFromUser h locBuffer dev.aesdEntry.size buf env.uncopied
      if left ≠ 0 then return (-EINVAL, ⟨h, mutexUnlock dev⟩)
      let h ← kfree h (some buffptr)
      let dev := { dev with aesdEntry := ⟨some locBuffer, toSize size⟩ }
      let (h, dev) ← sendEntryToCircularBuffer h dev
      return (-ENOMEM, ⟨h, mutexUnlock dev⟩)
  | none =>
    match kmalloc d.heap k buf.length env.granted with
    | (none, h) => return (-EINVAL, ⟨h, mutexUnlock { dev with aesdEntry := ⟨none, 0⟩ }⟩)
    | (some buffptr, h) =>
      let dev := { dev with aesdEntry := ⟨some buffptr, 0⟩ }
      let (left, h) ← copyFromUser h buffptr 0 buf env.uncopied
      if left ≠ 0 then return (-EINVAL, ⟨h, mutexUnlock dev⟩)
      let dev := { dev with aesdEntry := ⟨some buffptr, buf.length⟩ }
      let (h, dev) ← sendEntryToCircularBuffer h dev
      -- `retval` still has its initial value
      return (-ENOMEM, ⟨h, mutexUnlock dev⟩)

/-! ### Reading -/

/-- What the kernel decides during one `aesd_read` or `aesd_unlocked_ioctl`. -/
structure ReadEnv where
  interrupted : Bool
  uncopied : ℕ
  deriving DecidableEq, Repr

/-- What a call gives back: the return value, the bytes copied to the user and the position of the
handle afterwards. -/
structure Reply where
  ret : ℤ
  data : List UInt8
  fPos : ℤ
  deriving DecidableEq, Repr

/-- `aesd_read` -/
def aesdRead (d : Driver) (fPos : ℤ) (count : ℕ) (env : ReadEnv) : Option (Reply × Driver) := do
  let (interrupted, dev) ← mutexLockInterruptible d.dev env.interrupted
  if interrupted then return (⟨-ERESTARTSYS, [], fPos⟩, d)
  match aesdCircularBufferFindEntryOffsetForFpos dev.aesdBuffer (toSize fPos) with
  | none => return (⟨0, [], fPos⟩, ⟨d.heap, mutexUnlock dev⟩)
  | some (index, entryOffset) =>
    let entry := dev.aesdBuffer.slot index
    let btocopy := toLong (toSize (entry.size - entryOffset))
    let retval := if count > toSize btocopy then btocopy else toLong count
    let (left, data) ← copyToUser d.heap entry.buffptr entryOffset (toSize retval) env.uncopied
    if left ≠ 0 then return (⟨-EFAULT, data, fPos⟩, ⟨d.heap, mutexUnlock dev⟩)
    return (⟨retval, data, toLong (fPos + retval)⟩, ⟨d.heap, mutexUnlock dev⟩)

/-! ### Seeking -/

/-- The loop of `aesd_llseek` and `aesd_unlocked_ioctl` that adds up sizes from slot `c` until it
meets slot `stop`; `none` when it has not met it after a full turn. -/
def sizeLoop (buffer : AesdCircularBuffer) (stop : ℕ) : ℕ → ℕ → ℤ → Option ℤ
  | 0, _, _ => none
  | n + 1, c, totalSize =>
    if c = stop then some totalSize
    else sizeLoop buffer stop n ((c + 1) % maxWriteOperations)
      (toInt (totalSize + (buffer.slot c).size))

@[match_pattern] abbrev SEEK_SET : ℕ := 0
@[match_pattern] abbrev SEEK_CUR : ℕ := 1
@[match_pattern] abbrev SEEK_END : ℕ := 2

/-- The end of `aesd_llseek`: a position below 0 is refused. -/
def setPosition (fPos newPos : ℤ) : Reply :=
  if newPos < 0 then ⟨-EINVAL, [], fPos⟩ else ⟨newPos, [], newPos⟩

/-- `aesd_llseek` -/
def aesdLlseek (d : Driver) (fPos offset : ℤ) (whence : ℕ) (interrupted : Bool) :
    Option (Reply × Driver) := do
  match whence with
  | SEEK_SET => return (setPosition fPos fPos, d)
  | SEEK_CUR => return (setPosition fPos (toLong (fPos + offset)), d)
  | SEEK_END =>
    let (interrupted, dev) ← mutexLockInterruptible d.dev interrupted
    if interrupted then return (⟨-ERESTARTSYS, [], fPos⟩, d)
    let totalSize ← sizeLoop dev.aesdBuffer dev.aesdBuffer.inOffs maxWriteOperations
      dev.aesdBuffer.outOffs 0
    return (setPosition fPos (toLong (totalSize + offset)), ⟨d.heap, mutexUnlock dev⟩)
  | _ => return (⟨-EINVAL, [], fPos⟩, d)

/-- `struct aesd_seekto` -/
structure AesdSeekto where
  writeCmd : UInt32
  writeCmdOffset : UInt32
  deriving DecidableEq, Repr

/-- `_IOWR(type, nr, size)` -/
def iowr (type nr size : ℕ) : ℕ := 3 <<< 30 ||| size <<< 16 ||| type <<< 8 ||| nr

/-- `AESDCHAR_IOCSEEKTO` -/
def AESDCHAR_IOCSEEKTO : ℕ := iowr 0x16 1 8

/-- `aesd_unlocked_ioctl`; `arg` is what the user's pointer points to. -/
def aesdUnlockedIoctl (d : Driver) (fPos : ℤ) (cmd : ℕ) (arg : AesdSeekto) (env : ReadEnv) :
    Option (Reply × Driver) := do
  if cmd ≠ AESDCHAR_IOCSEEKTO then return (⟨-ENOTTY, [], fPos⟩, d)
  if min env.uncopied 8 ≠ 0 then return (⟨-EFAULT, [], fPos⟩, d)
  if arg.writeCmd.toNat ≥ maxWriteOperations then return (⟨-EINVAL, [], fPos⟩, d)
  let (interrupted, dev) ← mutexLockInterruptible d.dev env.interrupted
  if interrupted then return (⟨-ERESTARTSYS, [], fPos⟩, d)
  let totalSize ← sizeLoop dev.aesdBuffer arg.writeCmd.toNat maxWriteOperations
    dev.aesdBuffer.outOffs 0
  -- `int` plus `uint32_t` is a `uint32_t`; `retval` still has its initial value
  return (⟨-ENOMEM, [], toUInt32 (totalSize + arg.writeCmdOffset.toNat)⟩, ⟨d.heap, mutexUnlock dev⟩)

/-! ### Loading and unloading -/

/-- The driver as `aesd_init_module` leaves it when the registration succeeds. The lock is free because
it is zeroed with the rest of the device. -/
def aesdInitModule : Driver where
  heap := .empty
  dev := { aesdBuffer := aesdCircularBufferInit, aesdEntry := ⟨none, 0⟩, lock := false }

/-- `aesd_cleanup_module`: the kmalloc memory afterwards. -/
def aesdCleanupModule (d : Driver) : Option (Heap UInt8) :=
  d.dev.aesdBuffer.entry.toList.foldlM (fun h entry =>
    if entry.buffptr ≠ none then kfree h entry.buffptr else some h) d.heap

end AesdChar
