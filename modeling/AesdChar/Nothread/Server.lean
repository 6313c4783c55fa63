import AesdChar.Server.System

/-!
# The server without threads

`aesdsocket-nothread.c` as a machine: `main` calls `serversocket` again and again, each call serves one
connection. A piece that `recv` gives is appended to the data file; after a piece with a newline the
file is read into the buffer and sent. `readfile` and `writefile` are one step each, since nobody else
is there; `signal` is `cleanupsignal`, which removes the file and ends the process. When `readfile` fails,
its `-1` is the length that `send` gets.

The buffer of a session is never freed, and the next session allocates its own.
-/

namespace AesdChar
open CInt CString

/-- The points of `serversocket`, in the order of its text. `connect` is everything up to `accept`. -/
inductive NothreadPoint
  | connect
  | malloc
  | recv
  | writefile
  | strchr
  | readfile
  | send
  | exited
  deriving DecidableEq, Repr

/-- What happens at a point, with its outcome. `writefile` and `readfile`: how many bytes `fwrite` or
`fread` moved, none when `fopen` failed. `sendBeyond` is a `send` that was told of `(size_t)-1` bytes, with
those it took. `sigpipe` is one on a connection that is no more: the signal it raises is not handled. -/
inductive NothreadAction
  | connect (accepted : Bool)
  | malloc (granted : Bool)
  | recv (received : Option (List UInt8))
  | writefile (written : Option ℕ)
  | strchr
  | readfile (read : Option ℕ)
  | send (sent : Option ℕ)
  | sendBeyond (sent : List UInt8)
  | sigpipe
  | signal
  deriving DecidableEq, Repr

structure Nothread where
  /-- What is at `FILENAME`. -/
  file : Option (List UInt8)
  point : NothreadPoint
  /-- The number of connections accepted so far, the last of which is served. -/
  session : ℕ
  buffer : Option Buffer
  bytesReceived : ℤ
  bytesRead : ℤ

namespace Nothread

def init (file : Option (List UInt8)) : Nothread where
  file := file
  point := .connect
  session := 0
  buffer := none
  bytesReceived := 0
  bytesRead := 0

variable (s : Nothread)

def goto (point : NothreadPoint) : Nothread := { s with point := point }

/-- What is in the data file. -/
def contents : List UInt8 := s.file.getD []

/-- `memset(buffer, 0, BUFFERSIZE)` -/
def memset : Nothread := { s with buffer := s.buffer.map fun _ => .zeroed BUFFERSIZE }

/-- `recv(client_socket, buffer, BUFFERSIZE - 1, 0)` behind a `memset`; nothing more to come, or an
error, ends the session. -/
def receive (received : Option (List UInt8)) : Option Nothread :=
  match received with
  | none => some (s.memset.goto .connect)
  | some xs =>
    if xs.length ≤ BUFFERSIZE - 1 then
      s.memset.buffer.bind fun buffer => (buffer.put 0 xs).map fun buffer =>
        { s with
          buffer := some buffer
          bytesReceived := xs.length
          point := if xs = [] then .connect else .writefile }
    else none

/-- `writefile(FILENAME, buffer, bytes_received)` -/
def writefile (written : Option ℕ) : Option Nothread :=
  match written with
  | none => some (s.goto .strchr)
  | some n => s.buffer.bind fun buffer => (buffer.front (toSize s.bytesReceived)).bind fun data =>
      if n ≤ data.length then some { s with file := some (s.contents ++ data.take n), point := .strchr }
      else none

/-- `strchr(buffer, '\n')` -/
def search : Option Nothread :=
  s.buffer.bind fun buffer => buffer.cstring.map fun text =>
    if newline ∈ text then s.memset.goto .readfile else s.goto .recv

/-- `readfile(FILENAME, buffer, BUFFERSIZE)` -/
def readfile (read : Option ℕ) : Option Nothread :=
  match read with
  | none => some { s with bytesRead := -1, point := .send }
  | some n => s.file.bind fun contents =>
    if n ≤ min BUFFERSIZE contents.length then
      s.buffer.bind fun buffer => (buffer.put 0 (contents.take n)).map fun buffer =>
        { s with buffer := some buffer, bytesRead := n, point := .send }
    else none

/-- The bytes that `send(client_socket, buffer, bytes_read, 0)` passes. -/
def sendData : Option (List UInt8) := s.buffer.bind (·.front (toSize s.bytesRead))

/-- The same call behind a `readfile` that failed, with `bytes_read` at `-1`. -/
def sendBeyond (sent : List UInt8) : Option Nothread :=
  s.buffer.bind fun buffer =>
    if buffer.size < toSize s.bytesRead ∧ buffer.Overrun sent then some (s.goto .recv) else none

/-- One step. A failing `send` ends the session, or the process. -/
def next : NothreadAction → Option Nothread
  | .connect accepted => some (if accepted then { s with session := s.session + 1, point := .malloc } else s)
  | .malloc granted =>
    -- what `malloc` gives is only read behind a `memset`
    some (if granted then { s with buffer := some (.zeroed BUFFERSIZE), point := .recv }
      else { s with buffer := none, point := .connect })
  | .recv received => s.receive received
  | .writefile written => s.writefile written
  | .strchr => s.search
  | .readfile read => s.readfile read
  | .send none => some (s.goto .connect)
  | .send (some n) => s.sendData.bind fun data => if n ≤ data.length then some (s.goto .recv) else none
  | .sendBeyond sent => s.sendBeyond sent
  | .sigpipe => some (s.goto .exited)
  | .signal => some { s with file := none, point := .exited }

/-- What is exchanged with the client. -/
def event : NothreadAction → Event
  | .recv (some xs) => .received s.session xs
  | .send (some n) => .sent s.session ((s.sendData.getD []).take n)
  | .sendBeyond sent => .sent s.session sent
  | _ => .quiet

end Nothread

/-- Where an action is taken; a signal from outside comes anywhere. -/
def NothreadAction.point : NothreadAction → Option NothreadPoint
  | .connect _ => some .connect
  | .malloc _ => some .malloc
  | .recv _ => some .recv
  | .writefile _ => some .writefile
  | .strchr => some .strchr
  | .readfile _ => some .readfile
  | .send _ | .sendBeyond _ | .sigpipe => some .send
  | .signal => none

def Nothread.step (s : Nothread) (a : NothreadAction) : Option (Nothread × Event) :=
  if s.point ≠ .exited ∧ ∀ point ∈ a.point, s.point = point then
    (s.next a).map fun s' => (s', s.event a)
  else none

def nothreadMachine : Machine Nothread NothreadAction Event := ⟨Nothread.step⟩

/-- The pieces received in a run, whatever the connection; the end of a connection is none. -/
def piecesIn (outs : List Event) : List (List UInt8) :=
  outs.flatMap fun
    | .received _ xs => if xs = [] then [] else [xs]
    | _ => []

end AesdChar
