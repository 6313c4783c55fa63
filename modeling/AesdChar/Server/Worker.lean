import AesdChar.Base.CString
import AesdChar.Driver.System

/-!
# A worker thread of the server

`socketThread` of `aesdsocket.c`, as built for the device. A `Worker` is the state of the thread: its
local variables and the `Point` it has reached, where a point is a system call, a lock operation or
the code between two of these. An `Action` is what happens at a point, with the outcome that the
kernel, the C library or the network decides. `Worker.step` are the actions that touch nothing but
the thread itself; `int` and `size_t` conversions are those of the source.

Log messages are left out, and so is what only they read (`ret`, `bytesSent`).
-/

namespace AesdChar
open CInt CString

def BUFFERSIZE : ℕ := 48000

/-- `SEARCHSTRING`: `AESDCHAR_IOCSEEKTO:` -/
def SEARCHSTRING : List UInt8 :=
  [65, 69, 83, 68, 67, 72, 65, 82, 95, 73, 79, 67, 83, 69, 69, 75, 84, 79, 58]

/-- What a file descriptor refers to: nothing (`-1`), the device, or a plain file that `O_CREAT` made
because the device node was gone. -/
inductive Fd
  | bad
  | device
  | plain
  deriving DecidableEq, Repr

/-- The points of `socketThread`, in the order of its text. -/
inductive Point
  | malloc
  | checkRunning
  | recv
  | realloc
  | lockOpen
  | open
  | unlockOpen
  | dispatch
  | lockSeek
  | ioctl
  | seekRead
  | seekSend
  | unlockSeek
  | lockWrite
  | write
  | lseek
  | read
  | send
  | unlockWrite
  | free
  | lockList
  | finish
  | unlockList
  | done
  deriving DecidableEq, Repr

/-- A running `socketThread`: the fields of its node, its local variables and its point. -/
structure Worker where
  clientSocket : ℕ
  finished : Bool
  point : Point
  /-- The allocation behind `buffer`, while there is one. -/
  buffer : Option Buffer
  bufferSize : ℤ
  totalBytesRead : ℤ
  fileFd : Fd
  seekto : AesdSeekto
  /-- The first `bytes_read` bytes of `read_buffer`. -/
  readBuffer : List UInt8

/-- A new thread for a node. -/
def Worker.start (clientSocket : ℕ) : Worker where
  clientSocket := clientSocket
  finished := false
  point := .malloc
  buffer := none
  bufferSize := BUFFERSIZE
  totalBytesRead := 0
  fileFd := .bad
  seekto := ⟨0, 0⟩
  readBuffer := []

/-- What happens at a point. `recv`: the bytes, or `-1`. `realloc`: the bytes that the new part of
the allocation happens to hold, or NULL. `open`: what the descriptor refers to. `send`: how many
bytes were taken, or `-1`. The last argument of the reads is what a plain file gives. -/
inductive Action
  | malloc (granted : Bool)
  | checkRunning
  | recv (received : Option (List UInt8))
  | realloc (tail : Option (List UInt8))
  | lockOpen
  | open (fd : Fd)
  | unlockOpen
  | dispatch
  | lockSeek
  | ioctl (env : ReadEnv)
  | seekRead (env : ReadEnv) (plain : Option (List UInt8))
  | seekSend (sent : Option ℕ)
  | unlockSeek
  | lockWrite
  | write (env : WriteEnv)
  | lseek
  | read (env : ReadEnv) (plain : Option (List UInt8))
  | send (sent : Option ℕ)
  | unlockWrite
  | free
  | lockList
  | finish
  | unlockList
  deriving DecidableEq, Repr

/-- Where an action happens. -/
def Action.point : Action → Point
  | .malloc _ => .malloc
  | .checkRunning => .checkRunning
  | .recv _ => .recv
  | .realloc _ => .realloc
  | .lockOpen => .lockOpen
  | .open _ => .open
  | .unlockOpen => .unlockOpen
  | .dispatch => .dispatch
  | .lockSeek => .lockSeek
  | .ioctl _ => .ioctl
  | .seekRead .. => .seekRead
  | .seekSend _ => .seekSend
  | .unlockSeek => .unlockSeek
  | .lockWrite => .lockWrite
  | .write _ => .write
  | .lseek => .lseek
  | .read .. => .read
  | .send _ => .send
  | .unlockWrite => .unlockWrite
  | .free => .free
  | .lockList => .lockList
  | .finish => .finish
  | .unlockList => .unlockList

/-- `sscanf(s, "%d,%d", &seekto.write_cmd, &seekto.write_cmd_offset) == 2`, and what it stored. -/
def sscanfSeekto (s : List UInt8) : Option AesdSeekto :=
  (scanInt s).bind fun r =>
    if r.2.head? = some 44 then
      (scanInt r.2.tail).map fun r' => ⟨.ofNat (toUInt32 r.1), .ofNat (toUInt32 r'.1)⟩
    else none

namespace Worker
variable (w : Worker)

/-- Go on at another point. -/
def goto (point : Point) : Worker := { w with point := point }

/-- The length that the thread passes to `recv`. -/
def request : ℕ := toSize (w.bufferSize - w.totalBytesRead - 1)

/-- The body of the receive loop from `recv` on. -/
def receive (received : Option (List UInt8)) : Option Worker :=
  match received with
  -- the `-1` is added before it is tested
  | none => some { w with totalBytesRead := toInt (w.totalBytesRead - 1), point := .lockOpen }
  | some xs =>
    if xs.length ≤ w.request then
      w.buffer.bind fun buffer => (buffer.put w.totalBytesRead xs).bind fun buffer =>
        let w := { w with buffer := some buffer, totalBytesRead := toInt (w.totalBytesRead + xs.length) }
        if xs = [] then some (w.goto .lockOpen)
        else buffer.cstring.map fun text =>
          if newline ∈ text then w.goto .lockOpen
          else if w.totalBytesRead = w.bufferSize then w.goto .realloc
          else w.goto .checkRunning
    else none

/-- `realloc` to twice the size. When it fails the thread returns, and its buffer is freed. -/
def reallocate (tail : Option (List UInt8)) : Option Worker :=
  w.buffer.bind fun buffer =>
    match tail with
    | none => some { w with buffer := none, finished := true, point := .done }
    | some tail =>
      let newBufferSize := toSize (toInt (w.bufferSize * 2))
      if buffer.size + tail.length = newBufferSize then
        some { w with buffer := some (buffer.grow tail), bufferSize := toInt newBufferSize,
                      point := .checkRunning }
      else none

/-- The tests for a seek command, after the file was opened. -/
def parse : Option Worker :=
  w.buffer.bind fun buffer => buffer.cstring.map fun text =>
    match strstr SEARCHSTRING text with
    | none => w.goto .lockWrite
    | some seekStr =>
      match sscanfSeekto (seekStr.drop SEARCHSTRING.length) with
      | some seekto => { w with seekto := seekto, point := .lockSeek }
      | none => w.goto .free

/-- The actions that touch nothing but the thread. -/
def step (running : Bool) : Action → Option Worker
  | .malloc granted =>
    if granted then some { w with buffer := some (.zeroed BUFFERSIZE), point := .checkRunning }
    else some { w with finished := true, point := .done }
  | .checkRunning => some (w.goto (if running then .recv else .lockOpen))
  | .recv received => w.receive received
  | .realloc tail => w.reallocate tail
  | .dispatch => w.parse
  | .seekSend sent =>
    match sent with
    | some n => if n ≤ w.readBuffer.length then some (w.goto .seekRead) else none
    | none => some (w.goto .unlockSeek)
  | .send sent =>
    match sent with
    | some n => if n ≤ w.readBuffer.length then some (w.goto .read) else none
    | none => some (w.goto .read)
  | .free => some { w with buffer := none, point := .lockList }
  | .finish => some { w with finished := true, point := .unlockList }
  | _ => none

/-- The bytes that `write(file_fd, buffer, total_bytes_read)` passes to the driver; none when the VFS
refuses a count that is negative as a `ssize_t`. -/
def writeData (k : KernelLimits) : Option (List UInt8) :=
  if toSize w.totalBytesRead < 2 ^ 63 then
    w.buffer.bind fun buffer => buffer.front (min (toSize w.totalBytesRead) k.maxRwCount)
  else none

variable {w}

theorem writeData_length_le {k : KernelLimits} {data : List UInt8} (h : w.writeData k = some data) :
    data.length ≤ k.maxRwCount := by
  obtain ⟨-, h⟩ := Option.ite_none_right_eq_some.1 h
  obtain ⟨b, -, h⟩ := Option.bind_eq_some_iff.1 h
  obtain ⟨-, rfl⟩ := Option.ite_some_none_eq_some.1 h
  rw [List.length_append, List.length_take, List.length_replicate]
  omega

end Worker

end AesdChar
