import AesdChar.Server.Worker

/-!
# The server as a machine

The device build of `aesdsocket.c` on top of the driver. A `Server` is the device, the mutexes, the
main thread and all workers; a `Label` names the thread that moves and what happens, so a run of
`serverMachine` is one interleaving of the threads with one outcome of every system call. Locking a
mutex that a thread holds is impossible, and so is giving back what another thread holds. Worker `i`
opens the device once, and its handle is `i`.

The main thread is the loop of `serversocket`: it accepts a connection, makes a node for it, starts
its worker, appends the node and sweeps the list. The sweep starts at NULL and does nothing but lock
and unlock, so the list itself is left out here. `unlink` and `stop` are the two effects of
`cleanupsignal`, at any moment; when the main thread has left its loop the process exits.
-/

namespace AesdChar
open CInt CString

/-- Who holds a mutex. -/
inductive Thread
  | main
  | worker (i : ℕ)
  deriving DecidableEq, Repr

/-- The points of the loop in `serversocket`, with the functions of the list it calls. -/
inductive MainPoint
  | checkRunning
  | accept
  | lockCreate
  | createNode
  | unlockCreate
  | spawn
  | lockAppend
  | unlockAppend
  | lockSweep
  | unlockSweep
  | exited
  deriving DecidableEq, Repr

inductive MainAction
  | checkRunning
  | accept (accepted : Bool)
  | lockCreate
  | createNode (granted : Bool)
  | unlockCreate
  | spawn (created : Bool)
  | lockAppend
  | unlockAppend
  | lockSweep
  | unlockSweep
  deriving DecidableEq, Repr

def MainAction.point : MainAction → MainPoint
  | .checkRunning => .checkRunning
  | .accept _ => .accept
  | .lockCreate => .lockCreate
  | .createNode _ => .createNode
  | .unlockCreate => .unlockCreate
  | .spawn _ => .spawn
  | .lockAppend => .lockAppend
  | .unlockAppend => .unlockAppend
  | .lockSweep => .lockSweep
  | .unlockSweep => .unlockSweep

/-- One step of the server. -/
inductive Label
  | main (a : MainAction)
  | worker (i : ℕ) (a : Action)
  | unlink
  | stop
  deriving DecidableEq, Repr

/-- What a step exchanges with a client. -/
inductive Event
  | quiet
  | received (socket : ℕ) (bytes : List UInt8)
  | sent (socket : ℕ) (bytes : List UInt8)
  deriving DecidableEq, Repr

structure Server where
  device : System
  /-- `/dev/aesdchar` is there. -/
  nodePresent : Bool
  running : Bool
  fileMutex : Option Thread
  listMutex : Option Thread
  main : MainPoint
  /-- The number of connections accepted so far. -/
  accepted : ℕ
  /-- The last connection that was accepted. -/
  clientSocket : Option ℕ
  workers : List Worker

namespace Server

/-- A fresh device and no connection. -/
def init : Server where
  device := .init
  nodePresent := true
  running := true
  fileMutex := none
  listMutex := none
  main := .checkRunning
  accepted := 0
  clientSocket := none
  workers := []

variable (k : KernelLimits) (s : Server)

/-- Worker `i` goes on as `w`. -/
def put (i : ℕ) (w : Worker) : Server := { s with workers := s.workers.set i w }

/-! ### The main thread -/

def mainStep : MainAction → Option Server
  | .checkRunning => some { s with main := if s.running then .accept else .exited }
  | .accept accepted =>
    if accepted then
      some { s with clientSocket := some s.accepted, accepted := s.accepted + 1, main := .lockCreate }
    else some { s with clientSocket := none, main := .checkRunning }
  | .lockCreate =>
    if s.listMutex = none then some { s with listMutex := some .main, main := .createNode } else none
  | .createNode granted => some { s with main := if granted then .unlockCreate else .exited }
  | .unlockCreate =>
    if s.listMutex = some .main then some { s with listMutex := none, main := .spawn } else none
  | .spawn created =>
    if created then s.clientSocket.map fun clientSocket =>
      { s with workers := s.workers ++ [.start clientSocket], main := .lockAppend }
    else some { s with main := .exited }
  | .lockAppend =>
    if s.listMutex = none then some { s with listMutex := some .main, main := .unlockAppend } else none
  | .unlockAppend =>
    if s.listMutex = some .main then some { s with listMutex := none, main := .lockSweep } else none
  | .lockSweep =>
    if s.listMutex = none then some { s with listMutex := some .main, main := .unlockSweep } else none
  | .unlockSweep =>
    if s.listMutex = some .main then some { s with listMutex := none, main := .checkRunning } else none

/-! ### The workers -/

/-- `pthread_mutex_lock(&file_mutex)` by worker `i`, who goes on as `w`. -/
def lockFile (i : ℕ) (w : Worker) : Option Server :=
  if s.fileMutex = none then some ({ s with fileMutex := some (.worker i) }.put i w) else none

def unlockFile (i : ℕ) (w : Worker) : Option Server :=
  if s.fileMutex = some (.worker i) then some ({ s with fileMutex := none }.put i w) else none

def lockList (i : ℕ) (w : Worker) : Option Server :=
  if s.listMutex = none then some ({ s with listMutex := some (.worker i) }.put i w) else none

def unlockList (i : ℕ) (w : Worker) : Option Server :=
  if s.listMutex = some (.worker i) then some ({ s with listMutex := none }.put i w) else none

/-- A system call of worker `i` on the device, and how it goes on. -/
def onDevice (i : ℕ) (c : Call) (next : Reply → Worker) : Option Server :=
  (s.device.step k (i, c)).map fun r => { s with device := r.1 }.put i (next r.2)

/-- `open(FILENAME, O_RDWR | O_CREAT | O_APPEND, 0644)` -/
def openFile (i : ℕ) (w : Worker) (fd : Fd) : Option Server :=
  let next := { w with fileFd := fd, point := .unlockOpen }
  match fd with
  | .bad => some (s.put i next)
  | .device => if s.nodePresent then s.onDevice k i .open fun _ => next else none
  | .plain => if s.nodePresent then none else some (s.put i next)

/-- `write(file_fd, buffer, total_bytes_read)`; what it returns makes no difference. -/
def writeFile (i : ℕ) (w : Worker) (env : WriteEnv) : Option Server :=
  match w.fileFd, w.writeData k with
  | .device, some data => s.onDevice k i (.write data env) fun _ => w.goto .lseek
  | .device, none => if toSize w.totalBytesRead < 2 ^ 63 then none else some (s.put i (w.goto .lseek))
  | _, _ => some (s.put i (w.goto .lseek))

/-- `lseek(file_fd, 0, SEEK_SET)` -/
def seekFile (i : ℕ) (w : Worker) : Option Server :=
  if w.fileFd = .device then s.onDevice k i (.llseek 0 SEEK_SET false) fun _ => w.goto .read
  else some (s.put i (w.goto .read))

/-- `ioctl(file_fd, AESDCHAR_IOCSEEKTO, &seekto)` -/
def ioctlFile (i : ℕ) (w : Worker) (env : ReadEnv) : Option Server :=
  if w.fileFd = .device then
    s.onDevice k i (.ioctl AESDCHAR_IOCSEEKTO w.seekto env) fun _ => w.goto .seekRead
  else some (s.put i (w.goto .seekRead))

/-- `(bytes_read = read(file_fd, read_buffer, count)) > 0`: on to `got` or to `stop`. -/
def readFile (i : ℕ) (w : Worker) (count : ℕ) (env : ReadEnv) (plain : Option (List UInt8))
    (got stop : Point) : Option Server :=
  match w.fileFd with
  | .bad => some (s.put i (w.goto stop))
  | .device => s.onDevice k i (.read (min count k.maxRwCount) env) fun r =>
      if 0 < r.ret then { w with readBuffer := r.data, point := got } else w.goto stop
  | .plain =>
    match plain with
    | none => some (s.put i (w.goto stop))
    | some data =>
      if data.length ≤ count then
        some (s.put i (if data = [] then w.goto stop else { w with readBuffer := data, point := got }))
      else none

/-- An action of worker `i`, who is `w`. -/
def workerStep (i : ℕ) (w : Worker) : Action → Option Server
  | .lockOpen => s.lockFile i (w.goto .open)
  | .open fd => s.openFile k i w fd
  | .unlockOpen => s.unlockFile i (w.goto .dispatch)
  | .lockSeek => s.lockFile i (w.goto .ioctl)
  | .ioctl env => s.ioctlFile k i w env
  | .seekRead env plain => s.readFile k i w (toSize w.bufferSize) env plain .seekSend .unlockSeek
  | .unlockSeek => s.unlockFile i (w.goto .free)
  | .lockWrite => s.lockFile i (w.goto .write)
  | .write env => s.writeFile k i w env
  | .lseek => s.seekFile k i w
  | .read env plain => s.readFile k i w BUFFERSIZE env plain .send .unlockWrite
  | .unlockWrite => s.unlockFile i (w.goto .free)
  | .lockList => s.lockList i (w.goto .finish)
  | .unlockList => s.unlockList i (w.goto .done)
  | a => (w.step s.running a).map (s.put i)

end Server

/-- What an action exchanges with the client. -/
def Worker.event (w : Worker) : Action → Event
  | .recv (some xs) => .received w.clientSocket xs
  | .seekSend (some n) => .sent w.clientSocket (w.readBuffer.take n)
  | .send (some n) => .sent w.clientSocket (w.readBuffer.take n)
  | _ => .quiet

/-- One step of one thread, or of the signal handler. -/
def Server.step (k : KernelLimits) (s : Server) : Label → Option (Server × Event)
  | .main a => if s.main = a.point then (s.mainStep a).map fun s' => (s', .quiet) else none
  | .worker i a =>
    if s.main = .exited then none
    else s.workers[i]?.bind fun w =>
      if w.point = a.point then (s.workerStep k i w a).map fun s' => (s', w.event a) else none
  | .unlink => some ({ s with nodePresent := false }, .quiet)
  | .stop => some ({ s with running := false }, .quiet)

def serverMachine (k : KernelLimits) : Machine Server Label Event := ⟨Server.step k⟩

/-! ### What happened in a run -/

/-- The bytes received on a connection. -/
def receivedOn (outs : List Event) (socket : ℕ) : List UInt8 :=
  outs.flatMap fun
    | .received c xs => if c = socket then xs else []
    | _ => []

/-- The same, as the results of `recv` they came in. -/
def piecesOn (outs : List Event) (socket : ℕ) : List (List UInt8) :=
  outs.flatMap fun
    | .received c xs => if c = socket then [xs] else []
    | _ => []

/-- The bytes sent on a connection. -/
def sentTo (outs : List Event) (socket : ℕ) : List UInt8 :=
  outs.flatMap fun
    | .sent c xs => if c = socket then xs else []
    | _ => []

/-- The workers in the order in which they locked `file_mutex` for their write section. -/
def writeOrder (acts : List Label) : List ℕ :=
  acts.filterMap fun
    | .worker i .lockWrite => some i
    | _ => none

/-- The workers in the order of their writes. -/
def writeDone (acts : List Label) : List ℕ :=
  acts.filterMap fun
    | .worker i (.write _) => some i
    | _ => none

/-- What a worker asks of its descriptor: to write these bytes, or to seek there. -/
inductive Request
  | write (data : List UInt8)
  | seek (seekto : AesdSeekto)
  deriving DecidableEq, Repr

/-- The request of worker `i` in a step. -/
def Server.requests (k : KernelLimits) (i : ℕ) (s : Server) : Label → List Request
  | .worker j (.write _) =>
    if j = i then (s.workers[j]?.bind (·.writeData k)).toList.map .write else []
  | .worker j (.ioctl _) => if j = i then s.workers[j]?.toList.map (.seek ·.seekto) else []
  | _ => []

/-- The requests of worker `i` in a run. -/
def requestsOf (k : KernelLimits) (i : ℕ) (acts : List Label) : List Request :=
  (serverMachine k).collect (Server.requests k i) .init acts

/-! ### Pieces of runs -/

/-- The main thread takes one connection. -/
def acceptOne : List Label :=
  [.checkRunning, .accept true, .lockCreate, .createNode true, .unlockCreate, .spawn true, .lockAppend,
    .unlockAppend, .lockSweep, .unlockSweep].map .main

/-- Worker `i` goes through its receive loop, with one result of `recv` in each round. -/
def receiving (i : ℕ) (results : List (Option (List UInt8))) : List Label :=
  (Action.malloc true :: results.flatMap fun r => [.checkRunning, .recv r]).map (.worker i)

/-- Worker `i` opens the device and writes, and nothing fails. -/
def writing (i : ℕ) : List Label :=
  [.lockOpen, .open .device, .unlockOpen, .dispatch, .lockWrite, .write ⟨false, true, 0⟩].map (.worker i)

/-- Worker `i` reads pieces of these sizes, sends them and leaves the write section. -/
def answering (i : ℕ) (sizes : List ℕ) : List Label :=
  ((Action.lseek :: sizes.flatMap fun n => [Action.read ⟨false, 0⟩ none, .send (some n)]) ++
    [Action.read ⟨false, 0⟩ none, .unlockWrite]).map (.worker i)

/-- Worker `i` frees its buffer and reports that it has finished. -/
def finishing (i : ℕ) : List Label :=
  [.free, .lockList, .finish, .unlockList].map (.worker i)

end AesdChar
