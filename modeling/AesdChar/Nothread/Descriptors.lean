import AesdChar.Base.Slots
import AesdChar.Nothread.Answers
import Mathlib.Data.Bool.Count

/-!
# The descriptors of the server without threads

`serversocket` of `aesdsocket-nothread.c` from its first line on: before a session it opens a socket,
binds it to the port, listens and accepts, and `cleanup` behind the session closes both descriptors.
When one of these calls fails, or `malloc` does, `serversocket` returns without a `cleanup`, and `main`
calls it again, so the descriptor is lost (`descriptors_accounted`).

The table of descriptors has a fixed size; `used` says which of them are taken by other things: the
standard streams, and the log, whose descriptor is counted from the start although `openlog` leaves it to
the first `syslog` to open it. `fopen` and `fclose` in one step of `readfile` or `writefile` leave the
table as it is; that `fopen` finds no free descriptor is one of its failures. `fileread` and `filewrite`
are never set, so `cleanup` closes no file.
-/

namespace AesdChar
open CString

/-- What is open under a descriptor. -/
inductive Opened
  | other
  | socket
  | bound
  | listening
  | connection
  deriving DecidableEq, Repr

instance : Fintype Opened :=
  ⟨{.other, .socket, .bound, .listening, .connection}, fun kind => by cases kind <;> decide⟩

/-- `bind` fails with `EADDRINUSE` as long as another socket has the port. -/
def Opened.HoldsPort (opened : Opened) : Prop := opened = .bound ∨ opened = .listening

instance (opened : Opened) : Decidable opened.HoldsPort := inferInstanceAs (Decidable (_ ∨ _))

/-- The calls of `serversocket` before a session, in the order of its text. -/
inductive SetupPoint
  | socket
  | bind
  | listen
  | accept
  deriving DecidableEq, Repr

/-- The process ends: `cleanupsignal` is called, or SIGPIPE is not handled. -/
def NothreadAction.Ends (a : NothreadAction) : Prop := a = .signal ∨ a = .sigpipe

instance (a : NothreadAction) : Decidable a.Ends := inferInstanceAs (Decidable (_ ∨ _))

/-- The setup calls, with their success, and what happens in a session, or a signal. -/
inductive ProcessAction
  | socket (opened : Bool)
  | bind (bound : Bool)
  | listen (listening : Bool)
  | accept (accepted : Bool)
  | session (a : NothreadAction)
  deriving DecidableEq, Repr

/-- `setup` tells where `serversocket` is as long as there is no session. A descriptor is none when the
last call that should give it failed. -/
structure NothreadProcess where
  serving : Nothread
  setup : SetupPoint
  serverSocket : Option ℕ
  clientSocket : Option ℕ
  table : List (Option Opened)

namespace NothreadProcess

def init (used : List Bool) (file : Option (List UInt8)) : NothreadProcess where
  serving := .init file
  setup := .socket
  serverSocket := none
  clientSocket := none
  table := used.map fun isOpen => if isOpen then some .other else none

variable (s : NothreadProcess)

/-- There is no session, and `serversocket` is at this call. -/
def At (point : SetupPoint) : Prop := s.serving.point = .connect ∧ s.setup = point

instance (point : SetupPoint) : Decidable (s.At point) := inferInstanceAs (Decidable (_ ∧ _))

/-- `return KO`, behind which `main` calls `serversocket` again. -/
def ko : NothreadProcess := { s with setup := .socket }

/-- A call that turns what is open under `server_socket` from one thing to another. -/
def promote (old new : Opened) (next : SetupPoint) : Option NothreadProcess :=
  s.serverSocket.bind fun fd =>
    if s.table[fd]? = some (some old) then
      some { s with table := s.table.set fd (some new), setup := next }
    else none

/-- `if (fd >= 0) close(fd)`; nothing happens when the descriptor is not open. -/
def close (fd : Option ℕ) : NothreadProcess :=
  { s with table := (fd.map fun fd => s.table.set fd none).getD s.table }

def cleanup : NothreadProcess := (s.close s.serverSocket).close s.clientSocket

/-- What becomes of the descriptors when a step has led to the point where `serving` is now. -/
def leave (a : NothreadAction) : NothreadProcess :=
  match s.serving.point with
  | .connect => (if a = .malloc false then s.close s.clientSocket else s.cleanup).ko
  | .exited => { s with table := [] }
  | _ => s

def socket (opened : Bool) : Option NothreadProcess :=
  if opened then
    (Slots.place s.table .socket).map fun r =>
      { s with serverSocket := some r.1, table := r.2, setup := .bind }
  else some { s with serverSocket := none }

/-- No socket has the port. -/
def PortFree : Prop := ∀ opened ∈ s.table, ∀ kind ∈ opened, ¬ kind.HoldsPort

instance : Decidable s.PortFree := inferInstanceAs (Decidable (∀ opened ∈ s.table, _))

def bind (bound : Bool) : Option NothreadProcess :=
  if bound then if s.PortFree then s.promote .socket .bound .listen else none else some s.ko

def listen (listening : Bool) : Option NothreadProcess :=
  if listening then s.promote .bound .listening .accept else some s.ko

/-- The session begins as the model of `serversocket` behind `accept` has it. -/
def accept (accepted : Bool) : Option NothreadProcess :=
  if accepted then
    (Slots.place s.table .connection).bind fun r => (s.serving.step (.connect true)).map fun t =>
      { s with serving := t.1, clientSocket := some r.1, table := r.2 }
  else some { s with clientSocket := none }.ko

def step : ProcessAction → Option (NothreadProcess × Event)
  | .socket opened => if s.At .socket then (s.socket opened).map fun s => (s, .quiet) else none
  | .bind bound => if s.At .bind then (s.bind bound).map fun s => (s, .quiet) else none
  | .listen listening => if s.At .listen then (s.listen listening).map fun s => (s, .quiet) else none
  | .accept accepted => if s.At .accept then (s.accept accepted).map fun s => (s, .quiet) else none
  | .session (.connect _) => none
  | .session a => (s.serving.step a).map fun t => ({ s with serving := t.1 }.leave a, t.2)

end NothreadProcess

def processMachine : Machine NothreadProcess ProcessAction Event := ⟨NothreadProcess.step⟩

/-- What `Nothread` makes of an action: everything up to `accept` is one `connect`. -/
def ProcessAction.calls : ProcessAction → List NothreadAction
  | .socket true | .bind true | .listen true => []
  | .socket false | .bind false | .listen false => [.connect false]
  | .accept accepted => [.connect accepted]
  | .session a => [a]

def ProcessAction.Ends : ProcessAction → Prop
  | .session a => a.Ends
  | .socket _ | .bind _ | .listen _ | .accept _ => False

instance : (a : ProcessAction) → Decidable a.Ends
  | .session a => inferInstanceAs (Decidable a.Ends)
  | .socket _ | .bind _ | .listen _ | .accept _ => isFalse id

/-- The action neither ends the process nor makes it lose a descriptor. -/
def NothreadAction.smooth : NothreadAction → Bool
  | .connect false | .malloc false | .sigpipe | .signal => false
  | _ => true

/-- What an action opened, or found open, and never closes. -/
def ProcessAction.loses : ProcessAction → Option Opened
  | .bind false => some .socket
  | .listen false => some .bound
  | .accept false | .session (.malloc false) => some .listening
  | _ => none

/-- What `server_socket` has to be before a call. -/
def SetupPoint.server : SetupPoint → Option Opened
  | .socket => none
  | .bind => some .socket
  | .listen => some .bound
  | .accept => some .listening

/-- The setup call at a point, when it succeeds. -/
def SetupPoint.call : SetupPoint → ProcessAction
  | .socket => .socket true
  | .bind => .bind true
  | .listen => .listen true
  | .accept => .accept true

namespace NothreadProcess
variable (s : NothreadProcess)

/-- What `server_socket` has to be. -/
def server : Option Opened :=
  match s.serving.point with
  | .exited => none
  | .connect => s.setup.server
  | _ => some .listening

/-- What `client_socket` has to be. -/
def client : Option Opened :=
  match s.serving.point with
  | .exited | .connect => none
  | _ => some .connection

def inUse : List Opened := s.server.toList ++ s.client.toList

/-- The variables are the descriptors of what is in use. -/
structure Holding : Prop where
  server : ∀ kind ∈ s.server, ∃ fd ∈ s.serverSocket, s.table[fd]? = some (some kind)
  client : ∀ kind ∈ s.client, ∃ fd ∈ s.clientSocket, s.table[fd]? = some (some kind)

/-- What the process had open when it started. -/
def opened (used : List Bool) (kind : Opened) : ℕ := if kind = .other then used.count true else 0

/-- What these actions lose. -/
def lost (acts : List ProcessAction) : List Opened := acts.filterMap ProcessAction.loses

end NothreadProcess

/-! ### What a step does -/

namespace Nothread
variable {s s' : Nothread} {a : NothreadAction} {o : Event}

/-- What becomes of the server by an action. -/
inductive Nexts (s : Nothread) : NothreadAction → Nothread → Prop
  | refused : Nexts s (.connect false) s
  | connected : Nexts s (.connect true) { s with session := s.session + 1, point := .malloc }
  | granted : Nexts s (.malloc true) { s with buffer := some (.zeroed BUFFERSIZE), point := .recv }
  | noMemory : Nexts s (.malloc false) { s with buffer := none, point := .connect }
  | lost : Nexts s (.recv none) (s.memset.goto .connect)
  | ended {b : Buffer} : Nexts s (.recv (some []))
      { s with buffer := some b, bytesReceived := 0, point := .connect }
  | received {xs : List UInt8} {b : Buffer} (hne : xs ≠ []) (hlen : xs.length ≤ BUFFERSIZE - 1)
      (hput : (Buffer.zeroed BUFFERSIZE).put 0 xs = some b) : Nexts s (.recv (some xs))
        { s with buffer := some b, bytesReceived := xs.length, point := .writefile }
  | notWritten : Nexts s (.writefile none) (s.goto .strchr)
  | written {n : ℕ} {data : List UInt8} (hle : n ≤ data.length) : Nexts s (.writefile (some n))
      { s with file := some (s.contents ++ data.take n), point := .strchr }
  | found : Nexts s .strchr (s.memset.goto .readfile)
  | notFound : Nexts s .strchr (s.goto .recv)
  | notRead : Nexts s (.readfile none) { s with bytesRead := -1, point := .send }
  | loaded {n : ℕ} {b b' : Buffer} {contents : List UInt8} (hfile : s.file = some contents)
      (hb : s.buffer = some b) (hput : b.put 0 (contents.take n) = some b') :
      Nexts s (.readfile (some n)) { s with buffer := some b', bytesRead := n, point := .send }
  | notSent : Nexts s (.send none) (s.goto .connect)
  | sent {n : ℕ} : Nexts s (.send (some n)) (s.goto .recv)
  | sentBeyond {sent : List UInt8} : Nexts s (.sendBeyond sent) (s.goto .recv)
  | sigpipe : Nexts s .sigpipe (s.goto .exited)
  | signal : Nexts s .signal { s with file := none, point := .exited }

theorem nexts_of_next (h : s.next a = some s') : s.Nexts a s' := by
  cases a with
  | connect accepted =>
    obtain rfl := Option.some.inj h
    cases accepted with
    | true => exact .connected
    | false => exact .refused
  | malloc granted =>
    obtain rfl := Option.some.inj h
    cases granted with
    | true => exact .granted
    | false => exact .noMemory
  | recv received =>
    cases received with
    | none =>
      obtain rfl := Option.some.inj h
      exact .lost
    | some xs =>
      obtain ⟨hlen, h⟩ := Option.ite_none_right_eq_some.1 h
      obtain ⟨b, hb, h⟩ := Option.bind_eq_some_iff.1 h
      obtain ⟨b', hput, rfl⟩ := Option.map_eq_some_iff.1 h
      obtain ⟨-, -, rfl⟩ := Option.map_eq_some_iff.1 hb
      by_cases hnil : xs = []
      · subst hnil
        exact .ended
      · rw [if_neg hnil]
        exact .received hnil hlen hput
  | writefile written =>
    cases written with
    | none =>
      obtain rfl := Option.some.inj h
      exact .notWritten
    | some n =>
      obtain ⟨b, -, h⟩ := Option.bind_eq_some_iff.1 h
      obtain ⟨data, -, h⟩ := Option.bind_eq_some_iff.1 h
      obtain ⟨hle, rfl⟩ := Option.ite_some_none_eq_some.1 h
      exact .written hle
  | strchr =>
    obtain ⟨b, -, h⟩ := Option.bind_eq_some_iff.1 h
    obtain ⟨text, -, rfl⟩ := Option.map_eq_some_iff.1 h
    split
    · exact .found
    · exact .notFound
  | readfile read =>
    cases read with
    | none =>
      obtain rfl := Option.some.inj h
      exact .notRead
    | some n =>
      obtain ⟨contents, hfile, h⟩ := Option.bind_eq_some_iff.1 h
      obtain ⟨-, h⟩ := Option.ite_none_right_eq_some.1 h
      obtain ⟨b, hb, h⟩ := Option.bind_eq_some_iff.1 h
      obtain ⟨b', hput, rfl⟩ := Option.map_eq_some_iff.1 h
      exact .loaded hfile hb hput
  | send sent =>
    cases sent with
    | none =>
      obtain rfl := Option.some.inj h
      exact .notSent
    | some n =>
      obtain ⟨data, -, h⟩ := Option.bind_eq_some_iff.1 h
      obtain ⟨-, rfl⟩ := Option.ite_some_none_eq_some.1 h
      exact .sent
  | sendBeyond sent =>
    obtain ⟨b, -, h⟩ := Option.bind_eq_some_iff.1 h
    obtain ⟨-, rfl⟩ := Option.ite_some_none_eq_some.1 h
    exact .sentBeyond
  | sigpipe =>
    obtain rfl := Option.some.inj h
    exact .sigpipe
  | signal =>
    obtain rfl := Option.some.inj h
    exact .signal

theorem step_cases (h : s.step a = some (s', o)) :
    s.point ≠ .exited ∧ (∀ point ∈ a.point, s.point = point) ∧ s.Nexts a s' ∧ o = s.event a := by
  obtain ⟨⟨halive, hpoint⟩, h⟩ := Option.ite_none_right_eq_some.1 h
  obtain ⟨t, ht, heq⟩ := Option.map_eq_some_iff.1 h
  obtain ⟨rfl, rfl⟩ := Prod.mk.inj heq
  exact ⟨halive, hpoint, nexts_of_next ht, rfl⟩

theorem Nexts.session (h : s.Nexts a s') (ha : ∀ accepted, a ≠ .connect accepted) :
    s'.session = s.session ∧ (s'.point = .exited ↔ a.Ends) ∧
      (a = .malloc false → s'.point = .connect) := by
  cases h with
  | refused | connected => exact absurd rfl (ha _)
  | granted | noMemory | lost | ended | received | notWritten | written | found | notFound | notRead
  | loaded | notSent | sent | sentBeyond | sigpipe | signal => simp [goto, memset, NothreadAction.Ends]

theorem step_connect (h : s.step (.connect true) = some (s', o)) :
    s'.point = .malloc ∧ s'.session = s.session + 1 := by
  obtain ⟨-, -, hnext, -⟩ := step_cases h
  cases hnext
  exact ⟨rfl, rfl⟩

theorem serving_of_step (h : s.step a = some (s', o)) (hconnect : ∀ accepted, a ≠ .connect accepted)
    (hsignal : a ≠ .signal) : s.point ≠ .connect := by
  obtain ⟨-, hpoint, -, -⟩ := step_cases h
  intro hat
  cases a with
  | connect accepted => exact hconnect accepted rfl
  | signal => exact hsignal rfl
  | _ => cases (hpoint _ rfl).symm.trans hat

end Nothread

namespace NothreadProcess
variable {s s' : NothreadProcess} {a : ProcessAction} {o : Event} {used : List Bool}
  {acts acts' : List ProcessAction} {outs outs' : List Event} {file : Option (List UInt8)}

theorem At.server {point : SetupPoint} (h : s.At point) : s.server = point.server := by
  rw [NothreadProcess.server, h.1, h.2]

theorem At.client {point : SetupPoint} (h : s.At point) : s.client = none := by
  rw [NothreadProcess.client, h.1]

theorem server_of_serving (hpoint : s.serving.point ≠ .connect) (halive : s.serving.point ≠ .exited) :
    s.server = some .listening ∧ s.client = some .connection := by
  unfold NothreadProcess.server NothreadProcess.client
  cases hp : s.serving.point <;> simp [hp] at hpoint halive ⊢

theorem promote_cases {old new : Opened} {next : SetupPoint} (h : s.promote old new next = some s') :
    ∃ fd, s.serverSocket = some fd ∧ s.table[fd]? = some (some old) ∧
      s' = { s with table := s.table.set fd (some new), setup := next } := by
  obtain ⟨fd, hfd, h⟩ := Option.bind_eq_some_iff.1 h
  obtain ⟨hold, h⟩ := Option.ite_none_right_eq_some.1 h
  exact ⟨fd, hfd, hold, (Option.some.inj h).symm⟩

/-- What a step can be, as far as the descriptors are concerned. A call that fails loses what
`server_socket` stands for. -/
inductive Moves (s : NothreadProcess) : ProcessAction → NothreadProcess → Prop
  | opened {fd : ℕ} {table : List (Option Opened)} : s.At .socket →
      Slots.place s.table .socket = some (fd, table) →
      Moves s (.socket true) { s with serverSocket := some fd, table := table, setup := .bind }
  | promoted {a : ProcessAction} {point next : SetupPoint} {fd : ℕ} {old new : Opened} :
      s.At point → a.loses = none → point.server = some old → next.server = some new →
      (a = .bind true ∧ s.PortFree ∧ point = .bind ∧ next = .listen ∨
        a = .listen true ∧ point = .listen ∧ next = .accept) →
      s.serverSocket = some fd →
      s.table[fd]? = some (some old) →
      Moves s a { s with table := s.table.set fd (some new), setup := next }
  | accepted {fd : ℕ} {table : List (Option Opened)} {t : Nothread} : s.At .accept →
      Slots.place s.table .connection = some (fd, table) →
      s.serving.step (.connect true) = some (t, .quiet) →
      Moves s (.accept true) { s with serving := t, clientSocket := some fd, table := table }
  | failed {a : ProcessAction} {point : SetupPoint} {t : NothreadProcess} : s.At point →
      a.loses = point.server → a.calls = [.connect false] → t.serving = s.serving →
      t.setup = .socket → t.table = s.table → Moves s a t
  | served {a : NothreadAction} {t : Nothread} {o : Event} : (∀ accepted, a ≠ .connect accepted) →
      s.serving.step a = some (t, o) → Moves s (.session a) ({ s with serving := t }.leave a)

theorem step_session {b : NothreadAction} (h : s.step (.session b) = some (s', o)) :
    (∀ accepted, b ≠ .connect accepted) ∧
      ∃ t, s.serving.step b = some (t, o) ∧ s' = { s with serving := t }.leave b := by
  have hserved : (∀ accepted, b ≠ .connect accepted) ∧
      (s.serving.step b).map (fun t => ({ s with serving := t.1 }.leave b, t.2)) = some (s', o) := by
    cases b with
    | connect accepted => cases h
    | _ => exact ⟨by simp, h⟩
  obtain ⟨hconnect, h⟩ := hserved
  obtain ⟨⟨t, o'⟩, ht, heq⟩ := Option.map_eq_some_iff.1 h
  obtain ⟨rfl, rfl⟩ := Prod.mk.inj heq
  exact ⟨hconnect, t, ht, rfl⟩

theorem step_moves (h : s.step a = some (s', o)) : Moves s a s' := by
  cases a with
  | socket opened =>
    obtain ⟨hat, h⟩ := Option.ite_none_right_eq_some.1 h
    obtain ⟨t, ht, heq⟩ := Option.map_eq_some_iff.1 h
    obtain ⟨rfl, -⟩ := Prod.mk.inj heq
    cases opened with
    | true =>
      obtain ⟨⟨fd, table⟩, hplace, rfl⟩ := Option.map_eq_some_iff.1 ht
      exact .opened hat hplace
    | false =>
      obtain rfl := Option.some.inj ht
      exact .failed hat rfl rfl rfl hat.2 rfl
  | bind bound =>
    obtain ⟨hat, h⟩ := Option.ite_none_right_eq_some.1 h
    obtain ⟨t, ht, heq⟩ := Option.map_eq_some_iff.1 h
    obtain ⟨rfl, -⟩ := Prod.mk.inj heq
    cases bound with
    | true =>
      obtain ⟨hport, ht⟩ := Option.ite_none_right_eq_some.1 ht
      obtain ⟨fd, hfd, hold, rfl⟩ := promote_cases ht
      exact .promoted hat rfl rfl rfl (Or.inl ⟨rfl, hport, rfl, rfl⟩) hfd hold
    | false =>
      obtain rfl := Option.some.inj ht
      exact .failed hat rfl rfl rfl rfl rfl
  | listen listening =>
    obtain ⟨hat, h⟩ := Option.ite_none_right_eq_some.1 h
    obtain ⟨t, ht, heq⟩ := Option.map_eq_some_iff.1 h
    obtain ⟨rfl, -⟩ := Prod.mk.inj heq
    cases listening with
    | true =>
      obtain ⟨fd, hfd, hold, rfl⟩ := promote_cases ht
      exact .promoted hat rfl rfl rfl (Or.inr ⟨rfl, rfl, rfl⟩) hfd hold
    | false =>
      obtain rfl := Option.some.inj ht
      exact .failed hat rfl rfl rfl rfl rfl
  | accept accepted =>
    obtain ⟨hat, h⟩ := Option.ite_none_right_eq_some.1 h
    obtain ⟨t, ht, heq⟩ := Option.map_eq_some_iff.1 h
    obtain ⟨rfl, -⟩ := Prod.mk.inj heq
    cases accepted with
    | true =>
      obtain ⟨⟨fd, table⟩, hplace, ht⟩ := Option.bind_eq_some_iff.1 ht
      obtain ⟨⟨u, o⟩, hu, rfl⟩ := Option.map_eq_some_iff.1 ht
      obtain ⟨-, -, -, rfl⟩ := Nothread.step_cases hu
      exact .accepted hat hplace hu
    | false =>
      obtain rfl := Option.some.inj ht
      exact .failed hat rfl rfl rfl rfl rfl
  | session a =>
    obtain ⟨hconnect, t, ht, rfl⟩ := step_session h
    exact .served hconnect ht

/-! ### The ledger -/

theorem count_inUse (s : NothreadProcess) (kind : Opened) :
    s.inUse.count kind = (if s.server = some kind then 1 else 0) + if s.client = some kind then 1 else 0 := by
  unfold inUse
  rw [List.count_append]
  cases s.server <;> cases s.client <;> simp [List.count_singleton]

theorem At.holding {point : SetupPoint} (h : s.At point)
    (hserver : ∀ kind ∈ point.server, ∃ fd ∈ s.serverSocket, s.table[fd]? = some (some kind)) :
    s.Holding where
  server kind hkind := hserver kind (h.server ▸ hkind)
  client kind hkind := by
    rw [h.client] at hkind
    cases hkind

theorem At.inUse {point : SetupPoint} (h : s.At point) : s.inUse = point.server.toList := by
  rw [NothreadProcess.inUse, h.server, h.client]
  exact List.append_nil _

theorem At.count_inUse {point : SetupPoint} (h : s.At point) (kind : Opened) :
    s.inUse.count kind = if point.server = some kind then 1 else 0 := by
  rw [NothreadProcess.count_inUse, h.server, h.client]
  rfl

theorem loses_session {a : NothreadAction} (ha : a ≠ .malloc false) :
    (ProcessAction.session a).loses = none := by
  unfold ProcessAction.loses
  split <;> simp_all

/-- What a step does to the number of descriptors of one kind, when `a` is taken. -/
def Balanced (s s' : NothreadProcess) (a : ProcessAction) (kind : Opened) : Prop :=
  s'.table.count (some kind) + s.inUse.count kind =
    s.table.count (some kind) + s'.inUse.count kind + if a.loses = some kind then 1 else 0

theorem leave_over {a : NothreadAction} (hover : s.serving.point = .connect) : s.leave a =
    (if a = .malloc false then s.close s.clientSocket else s.cleanup).ko := by
  unfold leave
  rw [hover]

theorem leave_on {a : NothreadAction} (hon : s.serving.point ≠ .connect)
    (halive : s.serving.point ≠ .exited) : s.leave a = s := by
  unfold leave
  split
  · exact absurd ‹_› hon
  · exact absurd ‹_› halive
  · rfl

/-- The session goes on, or it is over and gives back what it holds, but for the listening socket when
`malloc` failed. -/
theorem Holding.leave {t : Nothread} {a : NothreadAction} (hs : s.Holding)
    (hpoint : s.serving.point ≠ .connect) (halive : s.serving.point ≠ .exited)
    (halive' : t.point ≠ .exited) (hmalloc : a = .malloc false → t.point = .connect) :
    ({ s with serving := t }.leave a).Holding ∧
      ∀ kind, Balanced s ({ s with serving := t }.leave a) (.session a) kind := by
  obtain ⟨hserver, hclient⟩ := server_of_serving hpoint halive
  obtain ⟨fd, hfd, hlistening⟩ := hs.server _ hserver
  obtain ⟨c, hc, hconnection⟩ := hs.client _ hclient
  by_cases hover : t.point = .connect
  · have hat : ({ s with serving := t }.leave a).At .socket := by
      rw [leave_over hover]
      refine ⟨?_, rfl⟩
      split <;> exact hover
    refine ⟨hat.holding (by simp [SetupPoint.server]), fun kind => ?_⟩
    have hnone : ¬ (none : Option Opened) = some kind := by simp
    unfold Balanced
    rw [hat.count_inUse, count_inUse, hserver, hclient, leave_over hover]
    by_cases ha : a = .malloc false
    · have hclose := Slots.count_set hconnection none (some kind)
      have htable : ({ s with serving := t }.close s.clientSocket).table = s.table.set c none := by
        rw [Option.mem_def.1 hc]
        rfl
      have hloses : (ProcessAction.session a).loses = some .listening := by rw [ha]; rfl
      rw [if_pos ha, ko, htable, hloses, SetupPoint.server, if_neg hnone]
      rw [if_neg hnone] at hclose
      omega
    · have hclose := Slots.count_set hlistening none (some kind)
      have hne : fd ≠ c := by
        rintro rfl
        simp [hlistening] at hconnection
      have hconnection' : (s.table.set fd none)[c]? = some (some .connection) := by
        rw [List.getElem?_set_ne hne]
        exact hconnection
      have hclose' := Slots.count_set hconnection' none (some kind)
      have htable : ({ s with serving := t } : NothreadProcess).cleanup.table =
          (s.table.set fd none).set c none := by
        rw [cleanup, Option.mem_def.1 hfd, Option.mem_def.1 hc]
        rfl
      rw [if_neg ha, ko, htable, loses_session ha, SetupPoint.server, if_neg hnone]
      rw [if_neg hnone] at hclose hclose'
      omega
  · have ha : a ≠ .malloc false := fun ha => hover (hmalloc ha)
    have hnow := server_of_serving (s := { s with serving := t }) hover halive'
    rw [leave_on (s := { s with serving := t }) hover halive']
    refine ⟨⟨fun kind hkind => ?_, fun kind hkind => ?_⟩, fun kind => ?_⟩
    · rw [hnow.1, ← hserver] at hkind
      exact hs.server kind hkind
    · rw [hnow.2, ← hclient] at hkind
      exact hs.client kind hkind
    · unfold Balanced
      rw [count_inUse, count_inUse, hnow.1, hnow.2, hserver, hclient, loses_session ha]
      simp

theorem Holding.move (hs : s.Holding) (h : Moves s a s') (ha : ¬ a.Ends) :
    s'.Holding ∧ ∀ kind, Balanced s s' a kind := by
  cases h with
  | @opened fd table hat hplace =>
    obtain ⟨hfree, rfl⟩ := Slots.place_cases hplace
    have hlt : fd < s.table.length := (List.getElem?_eq_some_iff.1 hfree).1
    have hnext : ({ s with
        serverSocket := some fd
        table := s.table.set fd (some .socket)
        setup := .bind } : NothreadProcess).At .bind := ⟨hat.1, rfl⟩
    refine ⟨hnext.holding fun kind hkind => ?_, fun kind => ?_⟩
    · obtain rfl := Option.some.inj hkind
      exact ⟨fd, rfl, List.getElem?_set_self hlt⟩
    · have hset := Slots.count_set hfree (some .socket) (some kind)
      unfold Balanced
      rw [hat.count_inUse, hnext.count_inUse]
      simp only [SetupPoint.server, ProcessAction.loses, Option.some.injEq, reduceCtorEq,
        if_false] at hset ⊢
      omega
  | @promoted _ point next fd old new hat hloses hold hnew _ hfd hopen =>
    have hlt : fd < s.table.length := (List.getElem?_eq_some_iff.1 hopen).1
    have hnext : ({ s with
        table := s.table.set fd (some new)
        setup := next } : NothreadProcess).At next := ⟨hat.1, rfl⟩
    refine ⟨hnext.holding fun kind hkind => ?_, fun kind => ?_⟩
    · obtain rfl := Option.some.inj (hnew.symm.trans hkind)
      exact ⟨fd, hfd, List.getElem?_set_self hlt⟩
    · have hset := Slots.count_set hopen (some new) (some kind)
      unfold Balanced
      have hnone : ¬ (none : Option Opened) = some kind := by simp
      rw [hat.count_inUse, hnext.count_inUse, hold, hnew, hloses, if_neg hnone]
      simp only [Option.some.injEq] at hset ⊢
      omega
  | @accepted fd table t hat hplace hstep =>
    have hmalloc := (Nothread.step_connect hstep).1
    obtain ⟨hfree, rfl⟩ := Slots.place_cases hplace
    have hlt : fd < s.table.length := (List.getElem?_eq_some_iff.1 hfree).1
    have hnow := server_of_serving (s := { s with
      serving := t
      clientSocket := some fd
      table := s.table.set fd (some .connection) }) (by simp [hmalloc]) (by simp [hmalloc])
    refine ⟨⟨fun kind hkind => ?_, fun kind hkind => ?_⟩, fun kind => ?_⟩
    · rw [hnow.1] at hkind
      obtain ⟨c, hc, hopen⟩ := hs.server kind (hat.server.trans hkind)
      have hne : fd ≠ c := by
        rintro rfl
        simp [hfree] at hopen
      exact ⟨c, hc, (List.getElem?_set_ne hne).trans hopen⟩
    · rw [hnow.2] at hkind
      obtain rfl := Option.some.inj hkind
      exact ⟨fd, rfl, List.getElem?_set_self hlt⟩
    · have hset := Slots.count_set hfree (some .connection) (some kind)
      unfold Balanced
      rw [hat.count_inUse, count_inUse, hnow.1, hnow.2]
      simp only [SetupPoint.server, ProcessAction.loses, Option.some.injEq, reduceCtorEq,
        if_false] at hset ⊢
      omega
  | @failed _ point t hat hloses _ hserving hsetup htable =>
    have hsocket : s'.At .socket := ⟨by rw [hserving]; exact hat.1, hsetup⟩
    refine ⟨hsocket.holding (by simp [SetupPoint.server]), fun kind => ?_⟩
    unfold Balanced
    rw [hat.count_inUse, hsocket.count_inUse, htable, hloses]
    simp [SetupPoint.server]
  | @served a t o hconnect hstep =>
    obtain ⟨halive, -, hnext, -⟩ := Nothread.step_cases hstep
    obtain ⟨-, hexited, hmalloc⟩ := hnext.session hconnect
    exact hs.leave (Nothread.serving_of_step hstep hconnect fun hsignal => ha (.inl hsignal)) halive
      (fun h => ha (hexited.1 h)) hmalloc

theorem leave_length {a : NothreadAction} (halive : s.serving.point ≠ .exited) :
    (s.leave a).table.length = s.table.length := by
  have hclose : ∀ (s : NothreadProcess) fd, (s.close fd).table.length = s.table.length := by
    intro s fd
    cases fd with
    | none => rfl
    | some fd => exact List.length_set
  by_cases hover : s.serving.point = .connect
  · rw [leave_over hover, ko]
    split
    · exact hclose _ _
    · exact (hclose _ _).trans (hclose _ _)
  · rw [leave_on hover halive]

theorem Moves.length_eq (h : Moves s a s') (ha : ¬ a.Ends) :
    s'.table.length = s.table.length := by
  cases h with
  | opened _ hplace | accepted _ hplace => exact Slots.place_length hplace
  | promoted => exact List.length_set
  | failed _ _ _ _ _ htable => exact congrArg List.length htable
  | served hconnect hstep =>
    obtain ⟨-, -, hnext, -⟩ := Nothread.step_cases hstep
    obtain ⟨-, hexited, -⟩ := hnext.session hconnect
    exact leave_length fun h => ha (hexited.1 h)

theorem holding_init : (init used file).Holding where
  server kind hkind := by cases hkind
  client kind hkind := by cases hkind

theorem count_init (used : List Bool) (file : Option (List UInt8)) (kind : Opened) :
    (init used file).table.count (some kind) = opened used kind := by
  unfold init opened
  induction used with
  | nil => cases kind <;> rfl
  | cons isOpen used ih =>
    simp only [List.map_cons, List.count_cons] at ih ⊢
    rw [ih]
    cases isOpen <;> cases kind <;> simp

theorem count_lost_concat (acts : List ProcessAction) (a : ProcessAction) (kind : Opened) :
    (lost (acts ++ [a])).count kind = (lost acts).count kind + if a.loses = some kind then 1 else 0 := by
  unfold lost
  rw [List.filterMap_append, List.count_append]
  cases h : a.loses <;> simp [List.count_singleton, h]

/-- As long as no signal, nor SIGPIPE, ends the process, the table holds, kind by kind, what was open at the
start, what was lost, and what is in use. -/
theorem run_ledger (hrun : processMachine.Run (fun _ _ => True) (init used file) acts outs s)
    (hsignal : ∀ a ∈ acts, ¬ a.Ends) : s.Holding ∧ s.table.length = used.length ∧
      ∀ kind, s.table.count (some kind) =
        opened used kind + (lost acts).count kind + s.inUse.count kind := by
  induction hrun with
  | nil =>
    refine ⟨holding_init, List.length_map _, fun kind => ?_⟩
    rw [count_init, count_inUse]
    rfl
  | @snoc acts outs s a s' o _ _ hstep ih =>
    rw [List.forall_mem_append, List.forall_mem_singleton] at hsignal
    obtain ⟨hholding, hlength, hcount⟩ := ih hsignal.1
    have hmoves := step_moves hstep
    obtain ⟨hholding', hbalanced⟩ := hholding.move hmoves hsignal.2
    refine ⟨hholding', (hmoves.length_eq hsignal.2).trans hlength, fun kind => ?_⟩
    have hkind := hbalanced kind
    unfold Balanced at hkind
    rw [hcount] at hkind
    rw [count_lost_concat]
    omega

theorem run_free (hrun : processMachine.Run (fun _ _ => True) (init used file) acts outs s)
    (hsignal : ∀ a ∈ acts, ¬ a.Ends) :
    s.table.count none + (lost acts).length + s.inUse.length = used.count false := by
  obtain ⟨-, hlength, hcount⟩ := run_ledger hrun hsignal
  have htotal := Slots.count_none_add_sum s.table
  simp only [hcount, Finset.sum_add_distrib, Slots.sum_count] at htotal
  have hopened : ∑ kind, opened used kind = used.count true := by
    unfold opened
    rw [Finset.sum_ite_eq']
    simp
  have hused := List.count_false_add_count_true used
  omega

end NothreadProcess

open NothreadProcess

variable {s : NothreadProcess} {used : List Bool} {acts : List ProcessAction} {outs : List Event}
  {file : Option (List UInt8)}

/-- **Where the descriptors are**: in every run up to a signal, whatever fails and whatever the
clients do, `server_socket` and `client_socket` are what is in use; the table holds, kind by kind, what
was open at the start, what the failures lost, and what is in use; and the rest is free. -/
theorem descriptors_accounted
    (hrun : processMachine.Run (fun _ _ => True) (init used file) acts outs s)
    (hsignal : ∀ a ∈ acts, ¬ a.Ends) :
    s.Holding ∧
      (∀ kind, s.table.count (some kind) =
        opened used kind + (lost acts).count kind + s.inUse.count kind) ∧
      s.table.count none + (lost acts).length + s.inUse.length = used.count false := by
  obtain ⟨hholding, -, hcount⟩ := run_ledger hrun hsignal
  exact ⟨hholding, hcount, run_free hrun hsignal⟩

theorem descriptors_accounted_bind : ∃ s outs acts,
    processMachine.Run (fun _ _ => True) (init [true, true, true, false, false, false] none) acts outs s ∧
      s.table.count (some .socket) = 1 ∧ s.table.count none = 0 := by
  set acts : List ProcessAction := [.socket true, .bind true, .listen true, .accept true,
    .session (.malloc true), .session (.recv none), .socket true, .bind false, .socket true, .bind true,
    .listen true, .accept true] with hacts
  obtain ⟨⟨s, outs⟩, hexec⟩ := Option.isSome_iff_exists.1
    (show (processMachine.execGuarded (fun _ _ => True)
      (init [true, true, true, false, false, false] none) acts).isSome by decide +kernel)
  have hrun := Machine.Run.of_execGuarded hexec
  have heval : (processMachine.execGuarded (fun _ _ => True)
      (init [true, true, true, false, false, false] none) acts).map (fun r => r.1.inUse) =
        some [.listening, .connection] := by decide +kernel
  rw [hexec, Option.map_some, Option.some.injEq] at heval
  obtain ⟨-, hcount, hfree⟩ := descriptors_accounted hrun (by decide)
  have hlost : lost acts = [.socket] := by decide
  refine ⟨s, outs, acts, hrun, ?_, ?_⟩
  · rw [hcount, hlost, heval]
    decide
  · rw [hlost, heval] at hfree
    have hslots : ([true, true, true, false, false, false] : List Bool).count false = 3 := by decide
    rw [hslots] at hfree
    simpa using hfree

end AesdChar
