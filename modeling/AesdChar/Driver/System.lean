import AesdChar.Base.Machine
import AesdChar.Base.Pieces
import AesdChar.Driver.Device

/-!
# The driver as a machine

The device is used through open handles, each with its own position. A `Call` names the operation,
its arguments and what the kernel decides while it runs; `Call.Valid` are the ranges the C types and
the VFS guarantee. `deviceMachine` is the whole driver: its runs are all finite sequences of calls,
on any handles in any order. Every operation holds the lock while it uses the device, so a call is
one step.
-/

namespace AesdChar
open BlockHeap

/-- A name for an open file of the device. -/
abbrev Handle := ℕ

/-- The operations of `aesd_fops`, with their arguments and the decisions of the kernel. -/
inductive Call
  | open
  | release
  | read (count : ℕ) (env : ReadEnv)
  | write (buf : List UInt8) (env : WriteEnv)
  | llseek (offset : ℤ) (whence : ℕ) (interrupted : Bool)
  | ioctl (cmd : ℕ) (arg : AesdSeekto) (env : ReadEnv)
  deriving DecidableEq

/-- What the VFS and the C types guarantee about the arguments. -/
def Call.Valid (k : KernelLimits) : Call → Prop
  | .write buf _ => buf.length ≤ k.maxRwCount
  | .llseek offset _ _ => -2 ^ 63 ≤ offset ∧ offset < 2 ^ 63
  | _ => True

instance (k : KernelLimits) : (c : Call) → Decidable (c.Valid k)
  | .write .. => inferInstanceAs (Decidable (_ ≤ _))
  | .llseek .. => inferInstanceAs (Decidable (_ ∧ _))
  | .open | .release | .read .. | .ioctl .. => inferInstanceAs (Decidable True)

/-- The driver with the positions of its handles. -/
structure System where
  driver : Driver
  fPos : Handle → ℤ

/-- After loading the module, with every handle at position 0. -/
def System.init : System := ⟨aesdInitModule, fun _ => 0⟩

/-- Put the outcome of an operation back into the system. -/
def System.after (s : System) (handle : Handle) (r : Reply × Driver) : System × Reply :=
  (⟨r.2, Function.update s.fPos handle r.1.fPos⟩, r.1)

/-- One call on one handle. -/
def System.step (k : KernelLimits) (s : System) (a : Handle × Call) : Option (System × Reply) :=
  let pos := s.fPos a.1
  match a.2 with
  -- `aesd_open` only stores the device in the new file, whose position is 0
  | .open => some (s.after a.1 (⟨0, [], 0⟩, s.driver))
  | .release => some (s.after a.1 (⟨0, [], pos⟩, s.driver))
  | .read count env => (aesdRead s.driver pos count env).map (s.after a.1)
  | .write buf env =>
    (aesdWrite k s.driver buf env).map fun r => s.after a.1 (⟨r.1, [], pos⟩, r.2)
  | .llseek offset whence interrupted =>
    (aesdLlseek s.driver pos offset whence interrupted).map (s.after a.1)
  | .ioctl cmd arg env => (aesdUnlockedIoctl s.driver pos cmd arg env).map (s.after a.1)

def deviceMachine (k : KernelLimits) : Machine System (Handle × Call) Reply := ⟨System.step k⟩

/-- The states reachable by any sequence of driver calls. -/
def System.Reachable (k : KernelLimits) (s : System) : Prop :=
  (deviceMachine k).Reachable (fun _ a => a.2.Valid k) .init s

/-- The state after the given calls, when they are valid and have a meaning. -/
def System.run (k : KernelLimits) (acts : List (Handle × Call)) : Option System :=
  ((deviceMachine k).execGuarded (fun _ a => a.2.Valid k) .init acts).map (·.1)

theorem System.Reachable.of_run {k : KernelLimits} {acts : List (Handle × Call)} {s : System}
    (h : System.run k acts = some s) : s.Reachable k := by
  obtain ⟨⟨s', outs⟩, hexec, rfl⟩ := Option.map_eq_some_iff.1 h
  exact ⟨acts, outs, .of_execGuarded hexec⟩

/-! ### What a state stores -/

/-- The bytes an entry refers to. -/
def entryBytes (h : Heap UInt8) (entry : AesdBufferEntry) : Option (List UInt8) :=
  match entry.buffptr with
  | none => if entry.size = 0 then some [] else none
  | some a => h.loadAt a 0 entry.size

/-- The commands in the ring, oldest first. -/
def Driver.commands (d : Driver) : Option (List (List UInt8)) :=
  d.dev.aesdBuffer.stored.mapM (entryBytes d.heap)

/-- The bytes of the pending entry. -/
def Driver.pending (d : Driver) : Option (List UInt8) := entryBytes d.heap d.dev.aesdEntry

/-- One read with no failure, as a reader sees it: the bytes and the position afterwards. A negative
return value is no result. -/
def Driver.readOnce (d : Driver) (fPos : ℤ) (count : ℕ) : Option (List UInt8 × ℤ) :=
  (aesdRead d fPos count ⟨false, 0⟩).bind fun r =>
    if 0 ≤ r.1.ret then some (r.1.data, r.1.fPos) else none

/-- Read to end of file from `fPos` with the given counts: the bytes received before the first
0-byte read. -/
def Driver.readToEof (d : Driver) (counts : ℕ → ℕ) (fuel : ℕ) (fPos : ℤ) : Option (List UInt8) :=
  Pieces.drain d.readOnce counts fuel 0 fPos

end AesdChar
