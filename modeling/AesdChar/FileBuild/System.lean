import AesdChar.FileBuild.Disk
import AesdChar.Server.System

/-!
# The file build as a machine

`aesdsocket.c` as built without the device: `timerThread`, one `socketThread` for each connection, and
the accept loop of `serversocket`, which is the same text in both builds. A run of `fileMachine` is
one interleaving of the threads, with one outcome of every call of the C library and of the network.

`socketThread` appends each piece that `recv` gives to the data file; after a piece with a newline it
reads the file into its buffer and sends that on `client_socket`, which is the global variable that
the accept loop sets. A `readfile` that fails gives `-1`, and that is the length that `send` gets. A
`send` that raises SIGPIPE ends the process, and with it the run. When the accept loop is left, the main
thread waits for the timer and the process ends.

The timer is there from the start. `serversocket` does not look at what `pthread_create` returns for it; a
server that got no timer, and joins a thread that was never created, is left out.
-/

namespace AesdChar
open CInt CString

/-! ### A worker -/

/-- The points of `socketThread`, in the order of its text. -/
inductive FilePoint
  | malloc
  | checkRunning
  | recv
  | writefile (call : FileCall)
  | strchr
  | readfile (call : FileCall)
  | send
  | free
  | lockList
  | finish
  | unlockList
  | done
  deriving DecidableEq, Repr

/-- A running `socketThread`: the fields of its node, its local variables and its point. -/
structure FileWorker where
  clientSocket : ℕ
  finished : Bool
  point : FilePoint
  buffer : Option Buffer
  bytesRead : ℤ

/-- A new thread for a node. -/
def FileWorker.start (clientSocket : ℕ) : FileWorker where
  clientSocket := clientSocket
  finished := false
  point := .malloc
  buffer := none
  bytesRead := 0

/-- What happens at a point, with its outcome. `sendBeyond` is a `send` that was told of `(size_t)-1` bytes,
with those it took. -/
inductive FileAction
  | malloc (granted : Bool)
  | checkRunning
  | recv (received : Option (List UInt8))
  | call (a : CallAction)
  | strchr
  | send (sent : Option ℕ)
  | sendBeyond (sent : List UInt8)
  | free
  | lockList
  | finish
  | unlockList
  deriving DecidableEq, Repr

namespace FileWorker
variable (w : FileWorker)

def goto (point : FilePoint) : FileWorker := { w with point := point }

/-- `memset(buffer, 0, BUFFERSIZE)` -/
def memset : FileWorker := { w with buffer := w.buffer.map fun _ => .zeroed BUFFERSIZE }

/-- `recv(myThread->client_socket, buffer, BUFFERSIZE - 1, 0)`, and
`writefile(FILENAME, buffer, bytes_received)` when it gave something. -/
def receive (received : Option (List UInt8)) : Option FileWorker :=
  match received with
  | none => some (w.goto .free)
  | some xs =>
    if xs.length ≤ BUFFERSIZE - 1 then
      w.buffer.bind fun buffer => (buffer.put 0 xs).bind fun buffer =>
        if xs = [] then some { w with buffer := some buffer, point := .free }
        else (buffer.front xs.length).map fun data =>
          { w with buffer := some buffer, point := .writefile (.start (.write data)) }
    else none

/-- `strchr(buffer, '\n')`, and `readfile(FILENAME, buffer, BUFFERSIZE)` when there is one. -/
def search : Option FileWorker :=
  w.buffer.bind fun buffer => buffer.cstring.map fun text =>
    if newline ∈ text then { w.memset with point := .readfile (.start (.read BUFFERSIZE)) }
    else w.goto .checkRunning

/-- What `readfile` leaves in the buffer and returns. -/
def loaded (moved : Option (List UInt8)) : Option FileWorker :=
  match moved with
  | none => some { w with bytesRead := -1, point := .send }
  | some xs => w.buffer.bind fun buffer => (buffer.put 0 xs).map fun buffer =>
      { w with buffer := some buffer, bytesRead := xs.length, point := .send }

/-- The bytes that `send(client_socket, buffer, bytes_read, 0)` passes. -/
def sendData : Option (List UInt8) := w.buffer.bind (·.front (toSize w.bytesRead))

/-- The call of `readfile` or `writefile` that the thread is in. -/
def call : Option FileCall :=
  match w.point with
  | .writefile call => some call
  | .readfile call => some call
  | _ => none

/-- How the thread goes on when its call does, or returns. -/
def resume (result : CallResult) : Option FileWorker :=
  match w.point, result with
  | .writefile _, .inside call => some (w.goto (.writefile call))
  | .writefile _, .returned _ => some (w.goto .strchr)
  | .readfile _, .inside call => some (w.goto (.readfile call))
  | .readfile _, .returned moved => w.loaded moved
  | _, _ => none

/-- The actions that touch nothing but the thread. -/
def step (running : Bool) (clientSocket : Option ℕ) (a : FileAction) : Option FileWorker :=
  match w.point, a with
  | .malloc, .malloc granted =>
    -- what `malloc` gives is only read behind a `memset`
    if granted then some { w with buffer := some (.zeroed BUFFERSIZE), point := .checkRunning }
    else some { w with finished := true, point := .done }
  | .checkRunning, .checkRunning => some (if running then w.memset.goto .recv else w.goto .free)
  | .recv, .recv received => w.receive received
  | .strchr, .strchr => w.search
  | .send, .send sent =>
    match sent with
    | none => some (w.goto .checkRunning)
    | some n => clientSocket.bind fun _ => w.sendData.bind fun data =>
        if n ≤ data.length then some (w.goto (if 0 < n then .free else .checkRunning)) else none
  | .send, .sendBeyond sent =>
    -- `readfile` failed, and `bytes_read` is `-1`
    clientSocket.bind fun _ => w.buffer.bind fun buffer =>
      if buffer.size < toSize w.bytesRead ∧ buffer.Overrun sent then some (w.goto .free) else none
  | .free, .free => some { w with buffer := none, point := .lockList }
  | .finish, .finish => some { w with finished := true, point := .unlockList }
  | _, _ => none

end FileWorker

/-! ### The timer -/

/-- The points of `timerThread`. -/
inductive TimerPoint
  | checkRunning
  | usleep
  | writefile (call : FileCall)
  | done
  deriving DecidableEq, Repr

/-- What happens at a point. `usleep`: what `strftime` wrote into `outtext` then. -/
inductive TimerAction
  | checkRunning
  | usleep (outtext : List UInt8)
  | call (a : CallAction)
  deriving DecidableEq, Repr

/-- `sprintf(tsstring, "timestamp:%s\n", outtext)` -/
def timestamp (outtext : List UInt8) : List UInt8 :=
  [116, 105, 109, 101, 115, 116, 97, 109, 112, 58] ++ outtext ++ [newline]

/-- The call of `writefile` that the timer is in. -/
def TimerPoint.call : TimerPoint → Option FileCall
  | .writefile call => some call
  | _ => none

/-! ### The server -/

/-- One step of the server. `join` is `pthread_join(threadtimer_id, NULL)`. -/
inductive FileLabel
  | main (a : MainAction)
  | join
  | worker (i : ℕ) (a : FileAction)
  | timer (a : TimerAction)
  | unlink
  | stop
  deriving DecidableEq, Repr

structure FileServer where
  disk : Disk
  running : Bool
  listMutex : Option Thread
  /-- Where the main thread is in its loop; `exited` is behind it, at `pthread_join`. -/
  main : MainPoint
  accepted : ℕ
  /-- `client_socket`, none when it is `-1`. -/
  clientSocket : Option ℕ
  workers : List FileWorker
  timer : TimerPoint
  /-- The process has not ended. -/
  alive : Bool

namespace FileServer

/-- No connection, and a data file from earlier or none. -/
def init (file : Option (List UInt8)) : FileServer where
  disk := ⟨file.toList, file.map fun _ => 0, none⟩
  running := true
  listMutex := none
  main := .checkRunning
  accepted := 0
  clientSocket := none
  workers := []
  timer := .checkRunning
  alive := true

variable (s : FileServer)

/-- Worker `i` goes on as `w`. -/
def put (i : ℕ) (w : FileWorker) : FileServer := { s with workers := s.workers.set i w }

/-- What the accept loop works on, without workers. -/
def accepting : Server :=
  { Server.init with
    running := s.running
    listMutex := s.listMutex
    main := s.main
    accepted := s.accepted
    clientSocket := s.clientSocket }

/-- The accept loop has gone on to `t`. A failing `createNode` ends the process. -/
def accept (a : MainAction) (t : Server) : FileServer :=
  { s with
    listMutex := t.listMutex
    main := t.main
    accepted := t.accepted
    clientSocket := t.clientSocket
    workers := s.workers ++ t.workers.map fun w => .start w.clientSocket
    alive := a != .createNode false }

/-- The accept loop, the same as in the device build. -/
def mainStep (a : MainAction) : Option FileServer := (s.accepting.mainStep a).map (s.accept a)

/-- An action of worker `i`, who is `w`. -/
def workerStep (i : ℕ) (w : FileWorker) : FileAction → Option FileServer
  | .call a => w.call.bind fun call => (s.disk.step (.worker i) call a).bind fun r =>
      (w.resume r.2).map fun w => { s with disk := r.1 }.put i w
  | .lockList =>
    if w.point = .lockList ∧ s.listMutex = none then
      some ({ s with listMutex := some (.worker i) }.put i (w.goto .finish))
    else none
  | .unlockList =>
    if w.point = .unlockList ∧ s.listMutex = some (.worker i) then
      some ({ s with listMutex := none }.put i (w.goto .done))
    else none
  | a => (w.step s.running s.clientSocket a).map (s.put i)

/-- An action of the timer. -/
def timerStep : TimerAction → Option FileServer
  | .checkRunning =>
    if s.timer = .checkRunning then some { s with timer := if s.running then .usleep else .done } else none
  | .usleep outtext =>
    if s.timer = .usleep ∧ outtext.length < 1024 ∧ 0 ∉ outtext then
      some { s with timer := .writefile (.start (.write (timestamp outtext))) }
    else none
  | .call a => s.timer.call.bind fun call => (s.disk.step .timer call a).map fun r =>
      { s with
        disk := r.1
        timer := match r.2 with
          | .inside call => .writefile call
          | .returned _ => .checkRunning }

/-- What an action of worker `w` exchanges with a client: it receives on the socket of its node, and
sends on `client_socket`. -/
def event (w : FileWorker) : FileAction → Event
  | .recv (some xs) => .received w.clientSocket xs
  | .send (some n) =>
    match s.clientSocket with
    | some c => .sent c ((w.sendData.getD []).take n)
    | none => .quiet
  | .sendBeyond sent =>
    match s.clientSocket with
    | some c => .sent c sent
    | none => .quiet
  | _ => .quiet

/-- One step of one thread, or of the signal handler. -/
def step (s : FileServer) : FileLabel → Option (FileServer × Event)
  | .main a =>
    if s.alive ∧ s.main = a.point then (s.mainStep a).map fun s' => (s', .quiet) else none
  | .join =>
    if s.alive ∧ s.main = .exited ∧ s.timer = .done then some ({ s with alive := false }, .quiet)
    else none
  | .worker i a =>
    if s.alive then s.workers[i]?.bind fun w =>
      (s.workerStep i w a).map fun s' => (s', s.event w a)
    else none
  | .timer a => if s.alive then (s.timerStep a).map fun s' => (s', .quiet) else none
  | .unlink => some ({ s with disk := s.disk.unlink }, .quiet)
  | .stop => some ({ s with running := false }, .quiet)

end FileServer

def fileMachine : Machine FileServer FileLabel Event := ⟨FileServer.step⟩

/-! ### Pieces of a schedule -/

/-- The accept loop goes round once and starts a worker. -/
def accepting : List FileLabel :=
  [.checkRunning, .accept true, .lockCreate, .createNode true, .unlockCreate, .spawn true, .lockAppend,
    .unlockAppend, .lockSweep, .unlockSweep].map .main

/-- A call that moves `n` bytes, in which nothing fails. -/
def moving (n : ℕ) : List CallAction := [.lock, .fopen true, .transfer n, .fclose, .unlock]

/-- Worker `i` receives these bytes. -/
def receivingPiece (i : ℕ) (xs : List UInt8) : List FileLabel :=
  [.worker i .checkRunning, .worker i (.recv (some xs))]

/-- Worker `i` moves `n` bytes to or from the file. -/
def workerMoving (i n : ℕ) : List FileLabel := (moving n).map fun a => .worker i (.call a)

/-- The timer appends one line. -/
def timing (outtext : List UInt8) : List FileLabel :=
  (.checkRunning :: .usleep outtext :: (moving (timestamp outtext).length).map .call).map .timer

/-! ### What happened in a run -/

/-- The call of `readfile` or `writefile` that a thread is in. -/
def FileServer.callOf (s : FileServer) : FileThread → Option FileCall
  | .timer => s.timer.call
  | .worker i => s.workers[i]?.bind (·.call)

/-- The thread that moves inside `readfile` or `writefile`, and how. -/
def FileLabel.calling : FileLabel → Option (FileThread × CallAction)
  | .worker i (.call a) => some (.worker i, a)
  | .timer (.call a) => some (.timer, a)
  | _ => none

/-- What an action of a worker hands to `writefile`. -/
def FileAction.produced : FileAction → List (List UInt8)
  | .recv (some xs) => if xs = [] then [] else [xs]
  | _ => []

def TimerAction.produced : TimerAction → List (List UInt8)
  | .usleep outtext => [timestamp outtext]
  | _ => []

/-- What a thread hands to `writefile` in a step: a piece that was received, or a line. -/
def FileLabel.produced : FileLabel → FileThread → List (List UInt8)
  | .worker i a, .worker j => if i = j then a.produced else []
  | .timer a, .timer => a.produced
  | _, _ => []

def FileAction.isSend : FileAction → Bool
  | .send _ | .sendBeyond _ => true
  | _ => false

/-- The worker that sends, and the socket it sends on. -/
def FileServer.sends (s : FileServer) : FileLabel → List (ℕ × Option ℕ)
  | .worker i a => if a.isSend then [(i, s.clientSocket)] else []
  | _ => []

/-- What a thread appends to the data file, by `fwrite`. -/
def FileServer.appends (s : FileServer) (l : FileLabel) : List (FileThread × List UInt8) :=
  match l.calling with
  | some (t, .transfer n) =>
    match s.callOf t with
    | some ⟨.write data, _, _, _⟩ => [(t, data.take n)]
    | _ => []
  | _ => []

/-- What is in the data file when a thread reads it, by `fread`. -/
def FileServer.reads (s : FileServer) (l : FileLabel) : List (FileThread × List UInt8) :=
  match l.calling with
  | some (t, .transfer _) =>
    match s.callOf t with
    | some ⟨.read _, _, _, _⟩ => [(t, s.disk.current)]
    | _ => []
  | _ => []

end AesdChar
