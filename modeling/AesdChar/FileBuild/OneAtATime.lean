import AesdChar.FileBuild.Answers
import AesdChar.Nothread.Accepting

/-!
# One connection at a time

As long as one client is served at a time and the timer sleeps, the file build is the server without
threads: what it exchanges with its clients, and what is in the file, is what a run of that server
gives, from its first `socket` on (`serves_like_nothread`). A call with its lock is one step there. A
thread ends right behind its answer, and a session when the client has closed the connection, so there
every client closes it behind its answer. The two part when a `send` fails, which ends a session but not
a thread, and when `malloc` does, which is the end of a thread here and of all connections there.
-/

namespace AesdChar
open CInt CString NothreadProcess

variable {s s' : FileServer} {l : FileLabel} {o : Event} {i : ℕ} {w w' : FileWorker} {a : FileAction}
  {t t' : Nothread} {call : FileCall} {file : Option (List UInt8)} {acts : List FileLabel}
  {outs : List Event}

/-! ### The schedule -/

/-- The thread still serves its client. -/
def FilePoint.serving : FilePoint → Bool
  | .free | .lockList | .finish | .unlockList | .done => false
  | _ => true

/-- No `send` and no `malloc` fails, the timer has nothing to write, and nobody removes the file. -/
def FileLabel.plain : FileLabel → Bool
  | .worker _ (.send none) | .worker _ (.malloc false) | .timer (.usleep _) | .timer (.call _) | .unlink => false
  | _ => true

/-- A connection is accepted when no other one is served. -/
def FileServer.OneAtATime (s : FileServer) (l : FileLabel) : Prop :=
  l.plain = true ∧ (l = .main (.accept true) → ∀ w ∈ s.workers, w.point.serving = false)

instance (s : FileServer) (l : FileLabel) : Decidable (s.OneAtATime l) :=
  inferInstanceAs (Decidable (_ ∧ (_ → _)))

/-! ### What is seen -/

/-- The bytes exchanged with the clients. -/
def Event.seen : Event → List Event
  | .quiet | .received _ [] => []
  | o => [o]

/-- The same on the next connection: the server without threads counts its sessions from 1. -/
def Event.next : Event → Event
  | .quiet => .quiet
  | .received socket bytes => .received (socket + 1) bytes
  | .sent socket bytes => .sent (socket + 1) bytes

/-- The server without threads comes from `t` to `t'`, and `o` is seen. -/
def Nothread.Answers (t : Nothread) (o : Event) (t' : Nothread) : Prop :=
  ∃ acts outs, nothreadMachine.Run (fun _ b => b.smooth = true) t acts outs t' ∧
    outs.flatMap Event.seen = o.seen

namespace Nothread.Answers

theorem refl (t : Nothread) : t.Answers .quiet t := ⟨[], [], .nil, rfl⟩

theorem of_next {point : NothreadPoint} (b : NothreadAction) (hpoint : t.point = point)
    (hb : b.point = some point ∧ b.smooth = true) (h : t.next b = some t') :
    t.Answers (t.event b) t' := by
  have hstep : nothreadMachine.step t b = some (t', t.event b) := by
    apply Nothread.step_of_next
    · rw [hb.1, hpoint]
    · exact h
  exact ⟨[b], [t.event b], .single hb.2 hstep, List.flatMap_singleton ..⟩

theorem ends (h : t.Answers o t') (hpoint : t'.point = .recv) (hbuffer : t'.buffer ≠ none) :
    ∃ t'', t.Answers o t'' ∧ t''.point = .connect ∧ t''.file = t'.file ∧ t''.session = t'.session := by
  obtain ⟨acts, outs, hrun, hseen⟩ := h
  obtain ⟨b, hb⟩ := Option.ne_none_iff_exists'.1 hbuffer
  obtain ⟨b', hput⟩ : ∃ b', (Buffer.zeroed BUFFERSIZE).put 0 [] = some b' :=
    ⟨_, dif_pos ⟨le_refl _, Nat.zero_le _⟩⟩
  have hnext : t'.next (.recv (some [])) =
      some { t' with buffer := some b', bytesReceived := 0, point := .connect } := by
    have hmemset : t'.memset.buffer = some (.zeroed BUFFERSIZE) := by
      show t'.buffer.map _ = _
      rw [hb, Option.map_some]
    show t'.receive (some []) = _
    simp only [Nothread.receive, List.length_nil, Nat.zero_le, if_true, hmemset, Option.bind_some, hput,
      Option.map_some, Nat.cast_zero]
  have hstep := Nothread.step_of_next (a := .recv (some [])) (congrArg some hpoint.symm) hnext
  refine ⟨_, ⟨_, _, hrun.snoc rfl hstep, ?_⟩, rfl, rfl, rfl⟩
  rw [List.flatMap_append, hseen]
  exact List.append_nil _

end Nothread.Answers

/-! ### The points of a thread -/

/-- How far the server without threads is with what `writefile` writes. -/
def FileCall.Writes (call : FileCall) (t : Nothread) : Prop :=
  ∃ data, call.job = .write data ∧
    match call.point with
    | .lock | .fopen | .transfer =>
      t.point = .writefile ∧ t.buffer.bind (·.front (toSize t.bytesReceived)) = some data
    | .fclose | .unlock => t.point = .strchr

/-- It reads when `readfile` is back; what that has moved is still there then. -/
def FileCall.Reads (call : FileCall) (t : Nothread) : Prop :=
  call.job = .read BUFFERSIZE ∧
    match call.point with
    | .lock | .fopen | .transfer => True
    | .fclose | .unlock => ∃ contents n, t.file = some contents ∧ n ≤ min BUFFERSIZE contents.length ∧
        call.moved = contents.take n

/-- Where the server without threads is while the thread is at its point. -/
def FileWorker.Plays (w : FileWorker) (t : Nothread) : Prop :=
  match w.point with
  | .malloc => t.point = .malloc
  | .checkRunning => t.point = .recv ∧ w.buffer ≠ none ∧ t.buffer ≠ none
  | .recv => t.point = .recv ∧ w.buffer = some (.zeroed BUFFERSIZE) ∧ t.buffer ≠ none
  | .writefile call => t.buffer = w.buffer ∧ call.Writes t
  | .strchr => t.point = .strchr ∧ t.buffer = w.buffer
  | .readfile call => t.point = .readfile ∧ t.buffer = w.buffer ∧ call.Reads t
  | .send => t.point = .send ∧ t.buffer = w.buffer ∧ t.bytesRead = w.bytesRead
  | .free | .lockList | .finish | .unlockList | .done => t.point = .connect

namespace FileWorker

theorem plays_of_not_serving (h : w.point.serving = false) : w.Plays t ↔ t.point = .connect := by
  unfold Plays
  cases hpoint : w.point <;> simp [hpoint, FilePoint.serving] at h ⊢

theorem serving_of_call (h : w.call = some call) : w.point.serving = true := by
  unfold FileWorker.call at h
  split at h
  · rename_i hpoint
    rw [hpoint]
    rfl
  · rename_i hpoint
    rw [hpoint]
    rfl
  · cases h

theorem sendData_of_send {running : Bool} {c : Option ℕ} {n : ℕ}
    (h : w.step running c (.send (some n)) = some w') :
    ∃ socket data, c = some socket ∧ w.sendData = some data ∧ n ≤ data.length := by
  have hpoint : w.point = .send := by cases steps_of_step h <;> assumption
  simp only [step, hpoint] at h
  obtain ⟨socket, hsocket, h⟩ := Option.bind_eq_some_iff.1 h
  obtain ⟨data, hdata, h⟩ := Option.bind_eq_some_iff.1 h
  exact ⟨socket, data, hsocket, hdata, (Option.ite_none_right_eq_some.1 h).1⟩

theorem plays_recv (hpoint : w.point = .recv) (h : w.Plays t) :
    t.point = .recv ∧ w.buffer = some (.zeroed BUFFERSIZE) ∧ t.memset.buffer = w.buffer := by
  unfold Plays at h
  rw [hpoint] at h
  obtain ⟨htpoint, hbuffer, hne⟩ := h
  obtain ⟨b, hb⟩ := Option.ne_none_iff_exists'.1 hne
  refine ⟨htpoint, hbuffer, ?_⟩
  show t.buffer.map _ = _
  rw [hb, hbuffer]
  rfl

theorem received {xs : List UInt8} {b b' : Buffer} (hpoint : w.point = .recv) (hplays : w.Plays t)
    (hlen : xs.length ≤ BUFFERSIZE - 1) (hb : w.buffer = some b) (hput : b.put 0 xs = some b')
    (hsession : t.session = w.clientSocket + 1) : t.Answers (s.event w (.recv (some xs))).next { t with
      buffer := some b'
      bytesReceived := xs.length
      point := if xs = [] then .connect else .writefile } := by
  obtain ⟨htpoint, -, hbuffer⟩ := plays_recv hpoint hplays
  have hevent : (s.event w (.recv (some xs))).next = t.event (.recv (some xs)) := by
    show Event.received _ _ = Event.received _ _
    rw [hsession]
  rw [hevent]
  apply Nothread.Answers.of_next _ htpoint ⟨rfl, rfl⟩
  refine (if_pos hlen).trans ?_
  rw [hbuffer, hb, Option.bind_some, hput, Option.map_some]

theorem sends {n : ℕ} (h : w.step s.running s.clientSocket (.send (some n)) = some w')
    (hplays : w.Plays t) (hsocket : ∀ c ∈ s.clientSocket, t.session = c + 1) :
    w.point = .send ∧ w.buffer ≠ none ∧ t.buffer = w.buffer ∧
      t.Answers (s.event w (.send (some n))).next (t.goto .recv) := by
  have hpoint : w.point = .send := by cases steps_of_step h <;> assumption
  obtain ⟨c, data, hc, hdata, hle⟩ := sendData_of_send h
  unfold Plays at hplays
  rw [hpoint] at hplays
  obtain ⟨htpoint, hbuffer, hread⟩ := hplays
  have hsame : t.sendData = some data := by
    rw [← hdata]
    unfold Nothread.sendData sendData
    rw [hbuffer, hread]
  obtain ⟨b, hb, -⟩ := Option.bind_eq_some_iff.1 hdata
  refine ⟨hpoint, by simp [hb], hbuffer, ?_⟩
  have hevent : (s.event w (.send (some n))).next = t.event (.send (some n)) := by
    unfold FileServer.event Nothread.event
    rw [hc, hdata, hsame, hsocket c hc]
    rfl
  rw [hevent]
  apply Nothread.Answers.of_next _ htpoint ⟨rfl, rfl⟩
  unfold Nothread.next
  simp only [hsame, Option.bind_some, if_pos hle]

theorem sends_beyond {sent : List UInt8} (h : w.step s.running s.clientSocket (.sendBeyond sent) = some w')
    (hplays : w.Plays t) (hsocket : ∀ c ∈ s.clientSocket, t.session = c + 1) :
    w.buffer ≠ none ∧ t.buffer = w.buffer ∧
      t.Answers (s.event w (.sendBeyond sent)).next (t.goto .recv) := by
  have hsends := steps_of_step h
  cases hsends with
  | @sentBeyond hpoint b _ hb hlarge hover =>
    unfold Plays at hplays
    rw [hpoint] at hplays
    obtain ⟨htpoint, hbuffer, hread⟩ := hplays
    simp only [step, hpoint] at h
    obtain ⟨c, hc, -⟩ := Option.bind_eq_some_iff.1 h
    refine ⟨by simp [hb], hbuffer, ?_⟩
    have hevent : (s.event w (.sendBeyond sent)).next = t.event (.sendBeyond sent) := by
      unfold FileServer.event Nothread.event
      rw [hc, hsocket c hc]
      rfl
    rw [hevent]
    apply Nothread.Answers.of_next _ htpoint ⟨rfl, rfl⟩
    show t.sendBeyond sent = _
    unfold Nothread.sendBeyond
    rw [hbuffer, hb, Option.bind_some, hread, if_pos ⟨hlarge, hover⟩]

/-- **What a thread does for itself**, the server without threads does as well; behind an answer it ends
its session. -/
theorem answered (h : w.step s.running s.clientSocket a = some w') (hplays : w.Plays t)
    (hsend : a ≠ .send none ∧ a ≠ .malloc false) (hsession : t.session = w.clientSocket + 1)
    (hsocket : ∀ c ∈ s.clientSocket, t.session = c + 1) :
    ∃ t', t.Answers (s.event w a).next t' ∧ w'.Plays t' ∧ t'.file = t.file ∧ t'.session = t.session := by
  cases steps_of_step h with
  | malloc hpoint =>
    unfold Plays at hplays
    rw [hpoint] at hplays
    refine ⟨_, .of_next (.malloc true) hplays ⟨rfl, rfl⟩ rfl, ?_, rfl, rfl⟩
    exact ⟨rfl, Option.some_ne_none _, Option.some_ne_none _⟩
  | refused => exact absurd rfl hsend.2
  | goesOn hpoint =>
    unfold Plays at hplays
    rw [hpoint] at hplays
    obtain ⟨htpoint, hne, htne⟩ := hplays
    obtain ⟨b, hb⟩ := Option.ne_none_iff_exists'.1 hne
    refine ⟨t, .refl t, ⟨htpoint, ?_, htne⟩, rfl, rfl⟩
    show w.buffer.map _ = _
    rw [hb, Option.map_some]
  | stopped hpoint =>
    unfold Plays at hplays
    rw [hpoint] at hplays
    obtain ⟨t', hanswers, hover, hfile, hsession'⟩ := (Nothread.Answers.refl t).ends hplays.1 hplays.2.2
    exact ⟨t', hanswers, hover, hfile, hsession'⟩
  | failed hpoint =>
    exact ⟨_, .of_next (.recv none) (plays_recv hpoint hplays).1 ⟨rfl, rfl⟩ rfl, rfl, rfl, rfl⟩
  | @ended hpoint b b' hb hput =>
    exact ⟨_, received hpoint hplays (Nat.zero_le _) hb hput hsession, rfl, rfl, rfl⟩
  | @received hpoint xs data b b' hne hlen hb hput hdata =>
    refine ⟨_, received hpoint hplays hlen hb hput hsession, ⟨rfl, data, rfl, if_neg hne, ?_⟩, rfl, rfl⟩
    have hsize : toSize (xs.length : ℤ) = xs.length := by
      apply toSize_natCast
      simp only [BUFFERSIZE] at hlen
      omega
    show b'.front (toSize (xs.length : ℤ)) = some data
    rw [hsize, hdata]
  | @found hpoint b text hb htext hnl =>
    unfold Plays at hplays
    rw [hpoint] at hplays
    obtain ⟨htpoint, hbuffer⟩ := hplays
    have hnext : t.next .strchr = some (t.memset.goto .readfile) := by
      show t.buffer.bind _ = _
      rw [hbuffer, hb, Option.bind_some, htext, Option.map_some, if_pos hnl]
    refine ⟨_, .of_next .strchr htpoint ⟨rfl, rfl⟩ hnext, ⟨rfl, ?_, rfl, trivial⟩, rfl, rfl⟩
    show t.buffer.map _ = w.buffer.map _
    rw [hbuffer]
  | @notFound hpoint b text hb htext hnl =>
    unfold Plays at hplays
    rw [hpoint] at hplays
    obtain ⟨htpoint, hbuffer⟩ := hplays
    have hnext : t.next .strchr = some (t.goto .recv) := by
      show t.buffer.bind _ = _
      rw [hbuffer, hb, Option.bind_some, htext, Option.map_some, if_neg hnl]
    have hne : w.buffer ≠ none := by simp [hb]
    exact ⟨_, .of_next .strchr htpoint ⟨rfl, rfl⟩ hnext, ⟨rfl, hne, hbuffer ▸ hne⟩, rfl, rfl⟩
  | notSent => exact absurd rfl hsend.1
  | sentNothing =>
    obtain ⟨-, hne, hbuffer, hanswers⟩ := sends h hplays hsocket
    exact ⟨_, hanswers, ⟨rfl, hne, hbuffer ▸ hne⟩, rfl, rfl⟩
  | sent =>
    obtain ⟨-, hne, hbuffer, hanswers⟩ := sends h hplays hsocket
    obtain ⟨t', hanswers', hover, hfile, hsession'⟩ := hanswers.ends rfl (hbuffer ▸ hne)
    exact ⟨t', hanswers', hover, hfile, hsession'⟩
  | sentBeyond =>
    obtain ⟨hne, hbuffer, hanswers⟩ := sends_beyond h hplays hsocket
    obtain ⟨t', hanswers', hover, hfile, hsession'⟩ := hanswers.ends rfl (hbuffer ▸ hne)
    exact ⟨t', hanswers', hover, hfile, hsession'⟩
  | free hpoint | finish hpoint =>
    have hover : w.Plays t ↔ t.point = .connect := plays_of_not_serving (by rw [hpoint]; rfl)
    exact ⟨t, .refl t, hover.1 hplays, rfl, rfl⟩

theorem retired (hserving : w.point.serving = false) (h : s.workerStep i w a = some s') :
    ∃ m w', s' = { s with listMutex := m }.put i w' ∧ w'.point.serving = false ∧ s.event w a = .quiet ∧
      (FileLabel.worker i a).calling = none := by
  rcases FileServer.workerStep_cases h with ⟨c, call, d, r, w', rfl, hcall, -, -, -⟩ |
    ⟨w', hstep, rfl⟩ | ⟨rfl, -, -, rfl⟩ | ⟨rfl, -, -, rfl⟩
  · cases hserving.symm.trans (serving_of_call hcall)
  · refine ⟨s.listMutex, w', rfl, ?_⟩
    cases FileWorker.steps_of_step hstep with
    | free | finish => exact ⟨rfl, rfl, rfl⟩
    | malloc hpoint | refused hpoint | goesOn hpoint | stopped hpoint | failed hpoint | ended hpoint
    | received hpoint | found hpoint | notFound hpoint | notSent hpoint | sentNothing hpoint
    | sent hpoint | sentBeyond hpoint =>
      rw [hpoint] at hserving
      cases hserving
  · exact ⟨_, _, rfl, rfl, rfl, rfl⟩
  · exact ⟨_, _, rfl, rfl, rfl, rfl⟩

variable {d d' : Disk} {c : CallAction} {r : CallResult} {thread : FileThread}

/-- What the server without threads has done when a call has gone on. -/
def Follows (w' : FileWorker) (d' : Disk) (t : Nothread) (appended : Option (List UInt8)) : Prop :=
  ∃ t', t.Answers .quiet t' ∧ w'.Plays t' ∧ t'.contents = d'.current ∧ t'.session = t.session ∧
    (t'.file = none → t.file = none ∧ appended = none)

theorem follows_stay {appended : Option (List UInt8)} (hplays : w'.Plays t)
    (hcontents : t.contents = d.current) (hcurrent : d'.current = d.current ++ appended.getD [])
    (happended : appended = none) : w'.Follows d' t appended := by
  refine ⟨t, .refl t, hplays, ?_, rfl, fun h => ⟨h, happended⟩⟩
  rw [hcontents, hcurrent, happended]
  exact (List.append_nil _).symm

theorem follows_writefile (hpoint : w.point = .writefile call) (h : w.Resumes r w')
    (hstepped : d.Stepped thread call c d' r) (hplays : w.Plays t)
    (hcontents : t.contents = d.current) (hcurrent : d'.current = d.current ++ (call.appends c).getD []) :
    w'.Follows d' t (call.appends c) := by
  unfold Plays at hplays
  rw [hpoint] at hplays
  obtain ⟨hbuffer, data, hjob, hwrites⟩ := hplays
  obtain ⟨job, point, stream, moved⟩ := call
  subst hjob
  cases h with
  | reading hpoint' | unread hpoint' | loaded hpoint' => cases hpoint.symm.trans hpoint'
  | writing =>
    cases hstepped with
    | lock hat =>
      obtain rfl : point = .lock := hat
      exact follows_stay ⟨hbuffer, data, rfl, hwrites⟩ hcontents hcurrent rfl
    | opened hat =>
      obtain rfl : point = .fopen := hat
      exact follows_stay ⟨hbuffer, data, rfl, hwrites⟩ hcontents hcurrent rfl
    | @transfer hat n _ _ hmoved =>
      obtain rfl : point = .transfer := hat
      obtain ⟨hle, -⟩ := Option.ite_none_right_eq_some.1 hmoved
      obtain ⟨htpoint, hdata⟩ := hwrites
      have hnext : t.next (.writefile (some n)) =
          some { t with file := some (t.contents ++ data.take n), point := .strchr } := by
        obtain ⟨b, hb, hfront⟩ := Option.bind_eq_some_iff.1 hdata
        show t.buffer.bind _ = _
        rw [hb, Option.bind_some, hfront, Option.bind_some, if_pos hle]
      refine ⟨_, .of_next _ htpoint ⟨rfl, rfl⟩ hnext, ⟨hbuffer, data, rfl, rfl⟩, ?_, rfl, by simp⟩
      rw [hcurrent, ← hcontents]
      rfl
    | fclose hat =>
      obtain rfl : point = .fclose := hat
      exact follows_stay ⟨hbuffer, data, rfl, hwrites⟩ hcontents hcurrent rfl
  | written =>
    cases hstepped with
    | failed hat =>
      obtain rfl : point = .fopen := hat
      refine ⟨_, .of_next (.writefile none) hwrites.1 ⟨rfl, rfl⟩ rfl, ⟨rfl, hbuffer⟩, hcontents, rfl, ?_⟩
      exact fun h => ⟨h, rfl⟩
    | unlock hat =>
      obtain rfl : point = .unlock := hat
      exact follows_stay ⟨hwrites, hbuffer⟩ hcontents hcurrent rfl

theorem follows_readfile (hpoint : w.point = .readfile call) (h : w.Resumes r w')
    (hstepped : d.Stepped thread call c d' r) (hplays : w.Plays t)
    (hcontents : t.contents = d.current) (hcurrent : d'.current = d.current ++ (call.appends c).getD [])
    (hstream : call.point = .transfer → d.linked = some call.stream)
    (hfile : call.point = .transfer → t.file ≠ none) : w'.Follows d' t (call.appends c) := by
  unfold Plays at hplays
  rw [hpoint] at hplays
  obtain ⟨htpoint, hbuffer, hjob, hreads⟩ := hplays
  obtain ⟨job, point, stream, moved⟩ := call
  subst hjob
  cases h with
  | writing hpoint' | written hpoint' => cases hpoint.symm.trans hpoint'
  | reading =>
    cases hstepped with
    | lock | opened => exact follows_stay ⟨htpoint, hbuffer, rfl, trivial⟩ hcontents hcurrent rfl
    | @transfer hat n moved' _ hmoved =>
      obtain rfl : point = .transfer := hat
      obtain ⟨hle, heq⟩ := Option.ite_none_right_eq_some.1 hmoved
      obtain ⟨rfl, rfl⟩ := Prod.mk.inj (Option.some.inj heq)
      obtain ⟨contents, hthere⟩ := Option.ne_none_iff_exists'.1 (hfile rfl)
      have hsame : d.contents stream = contents := by
        rw [← Disk.current_of_linked (hstream rfl), ← hcontents, Nothread.contents, hthere]
        rfl
      rw [hsame] at hle
      refine follows_stay ⟨htpoint, hbuffer, rfl, contents, n, hthere, hle, ?_⟩ hcontents hcurrent rfl
      show (d.contents stream).take n = _
      rw [hsame]
    | fclose hat =>
      obtain rfl : point = .fclose := hat
      exact follows_stay ⟨htpoint, hbuffer, rfl, hreads⟩ hcontents hcurrent rfl
  | unread =>
    cases hstepped with
    | failed =>
      refine ⟨_, .of_next (.readfile none) htpoint ⟨rfl, rfl⟩ rfl, ⟨rfl, hbuffer, rfl⟩, hcontents, rfl, ?_⟩
      exact fun h => ⟨h, rfl⟩
  | @loaded _ xs b b' _ hb hput =>
    cases hstepped with
    | unlock hat =>
      obtain rfl : point = .unlock := hat
      obtain ⟨contents, n, hthere, hle, rfl⟩ := hreads
      have hlength : (contents.take n).length = n := by
        rw [List.length_take]
        omega
      have hnext : t.next (.readfile (some n)) =
          some { t with buffer := some b', bytesRead := n, point := .send } := by
        show t.file.bind _ = _
        rw [hthere, Option.bind_some, if_pos hle, hbuffer, hb, Option.bind_some, hput, Option.map_some]
      refine ⟨_, .of_next _ htpoint ⟨rfl, rfl⟩ hnext, ⟨rfl, rfl, ?_⟩, hcontents, rfl, fun h => ⟨h, rfl⟩⟩
      show (n : ℤ) = ((contents.take n).length : ℤ)
      rw [hlength]

end FileWorker

/-! ### The servers -/

/-- A worker has opened the file to write to it, so it is there. -/
def FileServer.Opens (s : FileServer) : Prop :=
  ∃ i call data, s.callOf (.worker i) = some call ∧ call.point = .transfer ∧ call.job = .write data

/-- The file of the server without threads is there when the other one is, but for one that was only
opened yet. -/
def Made (s : FileServer) (t : Nothread) : Prop := t.file = none → s.disk.linked = none ∨ s.Opens

/-- The newest worker is where the server without threads is, and the others serve nobody. -/
structure Alike (s : FileServer) (t : Nothread) : Prop where
  contents : t.contents = s.disk.current
  session : t.session = s.accepted
  socket : ∀ c ∈ s.clientSocket, c + 1 = s.accepted
  others : ∀ i w, s.workers[i]? = some w → i + 1 ≠ s.accepted → w.point.serving = false
  now : ∀ i w, s.workers[i]? = some w → i + 1 = s.accepted → w.Plays t
  soon : s.main.connecting = true → t.point = .malloc
  idle : s.accepted = 0 → t.point = .connect

/-- What a step of the server has for an answer. -/
def Answered (s : FileServer) (t : Nothread) (l : FileLabel) (s' : FileServer) (o : Event) : Prop :=
  ∃ t', t.Answers o.next t' ∧ Alike s' t' ∧ (t'.file = none → t.file = none ∧ s.appends l = [])

theorem made_of_step (h : s.step l = some (s', o)) (hplain : l.plain = true)
    (hs : s.disk.linked = none ∨ s.Opens) (happends : s.appends l = []) :
    s'.disk.linked = none ∨ s'.Opens := by
  rcases step_calls h with ⟨u, c, call, d, r, hl, hcall, hdisk, hd, hself, hothers⟩ |
    ⟨-, hdisk, hbegins⟩
  · rw [appends_of_calling hl hcall] at happends
    obtain ⟨i, rfl⟩ : ∃ i, u = .worker i := by
      cases l with
      | worker i a =>
        cases a with
        | call c => exact ⟨i, (Prod.mk.inj (Option.some.inj hl)).1.symm⟩
        | _ => cases hl
      | timer a =>
        cases a with
        | call c => cases hplain
        | _ => cases hl
      | _ => cases hl
    -- who has opened the file still has, unless that is the worker that goes on
    have hopens : (∀ data, call.point = .transfer → call.job ≠ .write data) → s.Opens → s'.Opens := by
      rintro hnot ⟨j, call', data, hcall', hat, hjob⟩
      refine ⟨j, call', data, ?_, hat, hjob⟩
      rw [hothers _ ?_, hcall']
      intro hji
      rw [hji, hcall] at hcall'
      obtain rfl := Option.some.inj hcall'
      exact hnot data hat hjob
    rw [hd]
    cases Disk.stepped_of_step hdisk with
    | lock hpoint | failed hpoint | fclose hpoint | unlock hpoint =>
      exact hs.imp id (hopens (by simp [hpoint]))
    | @opened hpoint stream _ hopen =>
      obtain ⟨job, point, stream', moved⟩ := call
      cases job with
      | read size =>
        obtain ⟨f, -, heq⟩ := Option.map_eq_some_iff.1 hopen
        obtain ⟨-, rfl⟩ := Prod.mk.inj heq
        exact hs.imp id (hopens (by simp))
      | write data => exact Or.inr ⟨i, _, data, hself, rfl, rfl⟩
    | @transfer hpoint n _ _ hmoved =>
      obtain ⟨job, point, stream', moved⟩ := call
      cases job with
      | read size =>
        obtain ⟨-, heq⟩ := Option.ite_none_right_eq_some.1 hmoved
        obtain ⟨-, rfl⟩ := Prod.mk.inj (Option.some.inj heq)
        exact hs.imp id (hopens (by simp))
      | write data => cases happends
  · have hlinked : s'.disk = s.disk := by
      rcases hdisk with heq | ⟨rfl, -⟩
      · exact heq
      · cases hplain
    rw [hlinked]
    refine hs.imp id ?_
    rintro ⟨j, call', data, hcall', hat, hjob⟩
    refine ⟨j, call', data, ?_, hat, hjob⟩
    rcases hbegins (.worker j) with ⟨heq, -⟩ | ⟨hnone, -⟩
    · rw [heq, hcall']
    · cases hnone.symm.trans hcall'

namespace Alike

theorem accepted_eq (hsockets : s.connections.Sockets) (hne : s.main ≠ .exited) :
    s.accepted = s.workers.length + s.main.connecting.toNat := by
  have haccepted := hsockets.accepted hne
  rwa [show s.connections.workers.length = s.workers.length from List.length_map _] at haccepted

theorem accept_stays {b : MainAction} {m : Server} (h : Alike s t) (hworkers : m.workers = [])
    (haccepted : m.accepted = s.accepted) (hsocket : ∀ c ∈ m.clientSocket, c ∈ s.clientSocket)
    (hconnecting : m.main.connecting = true → s.main.connecting = true) : Alike (s.accept b m) t := by
  have hlist : (s.accept b m).workers = s.workers := by
    show s.workers ++ m.workers.map _ = _
    rw [hworkers]
    exact List.append_nil _
  refine ⟨h.contents, h.session.trans haccepted.symm, fun c hc => ?_, ?_, ?_,
    fun hm => h.soon (hconnecting hm), fun hzero => h.idle (haccepted.symm.trans hzero)⟩
  · exact (h.socket c (hsocket c hc)).trans haccepted.symm
  · intro i w hw hne
    rw [hlist] at hw
    exact h.others i w hw fun heq => hne (heq.trans haccepted.symm)
  · intro i w hw heq
    rw [hlist] at hw
    exact h.now i w hw (heq.trans haccepted)

theorem connects {m : Server} (h : Alike s t) (hsockets : s.connections.Sockets)
    (hpoint : s.main = .accept) (hm : s.accepting.mainStep (.accept true) = some m)
    (hfree : ∀ w ∈ s.workers, w.point.serving = false) :
    Answered s t (.main (.accept true)) (s.accept (.accept true) m) .quiet := by
  obtain rfl := Option.some.inj hm
  have hlast := accepted_eq hsockets (by simp [hpoint])
  simp only [hpoint, MainPoint.connecting, Bool.toNat_false, Nat.add_zero] at hlast
  have hconnect : t.point = .connect := by
    by_cases hzero : s.accepted = 0
    · exact h.idle hzero
    · have hlt : s.accepted - 1 < s.workers.length := by omega
      have hnow := h.now _ _ (List.getElem?_eq_getElem hlt) (by omega)
      exact (FileWorker.plays_of_not_serving (hfree _ (List.getElem_mem hlt))).1 hnow
  have hworkers : ∀ i w, (s.workers ++ [])[i]? = some w → i < s.workers.length ∧ w ∈ s.workers := by
    intro i w hw
    rw [List.append_nil] at hw
    exact ⟨(List.getElem?_eq_some_iff.1 hw).1, List.mem_of_getElem? hw⟩
  refine ⟨_, .of_next (.connect true) hconnect ⟨rfl, rfl⟩ rfl, ?_, fun hnone => ⟨hnone, rfl⟩⟩
  refine ⟨h.contents, congrArg (· + 1) h.session, fun c hc => ?_, fun i w hw _ => ?_,
    fun i w hw heq => ?_, fun _ => rfl, fun hzero => absurd hzero (Nat.succ_ne_zero _)⟩
  · obtain rfl := Option.some.inj hc
    rfl
  · exact hfree w (hworkers i w hw).2
  · have hlt := (hworkers i w hw).1
    have hnew : i + 1 = s.accepted + 1 := heq
    omega

theorem spawns {m : Server} (h : Alike s t) (hsockets : s.connections.Sockets)
    (hpoint : s.main = .spawn) (hm : s.accepting.mainStep (.spawn true) = some m) :
    Alike (s.accept (.spawn true) m) t := by
  obtain ⟨c, -, rfl⟩ := Option.map_eq_some_iff.1 hm
  have hlast := accepted_eq hsockets (by simp [hpoint])
  simp only [hpoint, MainPoint.connecting, Bool.toNat_true] at hlast
  have hmalloc : t.point = .malloc := by
    apply h.soon
    rw [hpoint]
    rfl
  have hworkers : ∀ i w, (s.workers ++ [.start c])[i]? = some w →
      i < s.workers.length ∧ s.workers[i]? = some w ∨ i = s.workers.length ∧ w = .start c := by
    intro i w hw
    by_cases hi : i < s.workers.length
    · rw [List.getElem?_append_left hi] at hw
      exact Or.inl ⟨hi, hw⟩
    · rw [List.getElem?_append_right (by omega), List.getElem?_singleton] at hw
      obtain ⟨hzero, hw⟩ := Option.ite_none_right_eq_some.1 hw
      exact Or.inr ⟨by omega, (Option.some.inj hw).symm⟩
  refine ⟨h.contents, h.session, h.socket, fun i w hw hne => ?_, fun i w hw heq => ?_,
    fun hconnecting => (by cases hconnecting), fun hzero => ?_⟩
  · rcases hworkers i w hw with ⟨-, hold⟩ | ⟨rfl, -⟩
    · exact h.others i w hold hne
    · exact absurd hlast.symm hne
  · rcases hworkers i w hw with ⟨hlt, -⟩ | ⟨-, rfl⟩
    · have hnew : i + 1 = s.accepted := heq
      omega
    · exact hmalloc
  · have hnone : s.accepted = 0 := hzero
    omega

theorem accept {b : MainAction} {m : Server} (h : Alike s t) (hsockets : s.connections.Sockets)
    (hpoint : s.main = b.point) (hm : s.accepting.mainStep b = some m)
    (hfree : b = .accept true → ∀ w ∈ s.workers, w.point.serving = false) :
    Answered s t (.main b) (s.accept b m) .quiet := by
  have hsame : Alike (s.accept b m) t → Answered s t (.main b) (s.accept b m) .quiet := fun h' =>
    ⟨t, .refl t, h', fun hnone => ⟨hnone, rfl⟩⟩
  cases b with
  | checkRunning =>
    obtain rfl := Option.some.inj hm
    apply hsame
    apply h.accept_stays rfl rfl (fun _ hc => hc)
    intro hconnecting
    cases hrunning : s.running <;> simp [FileServer.accepting, hrunning, MainPoint.connecting] at hconnecting
  | accept accepted =>
    cases accepted with
    | false =>
      obtain rfl := Option.some.inj hm
      apply hsame
      exact h.accept_stays rfl rfl (fun c hc => by cases hc) (fun hc => by cases hc)
    | true => exact h.connects hsockets hpoint hm (hfree rfl)
  | spawn created =>
    cases created with
    | false =>
      obtain rfl := Option.some.inj hm
      apply hsame
      exact h.accept_stays rfl rfl (fun _ hc => hc) (fun hc => by cases hc)
    | true => exact hsame (h.spawns hsockets hpoint hm)
  | createNode granted =>
    obtain rfl := Option.some.inj hm
    apply hsame
    apply h.accept_stays rfl rfl (fun _ hc => hc)
    intro _
    rw [hpoint]
    rfl
  | lockCreate | unlockCreate =>
    obtain ⟨-, rfl⟩ := Option.ite_some_none_eq_some.1 hm
    apply hsame
    apply h.accept_stays rfl rfl (fun _ hc => hc)
    intro _
    rw [hpoint]
    rfl
  | lockAppend | unlockAppend | lockSweep | unlockSweep =>
    obtain ⟨-, rfl⟩ := Option.ite_some_none_eq_some.1 hm
    apply hsame
    exact h.accept_stays rfl rfl (fun _ hc => hc) (fun hc => by cases hc)

theorem put {d : Disk} {m : Option Thread} (h : Alike s t) (hsockets : s.connections.Sockets)
    (hw : s.workers[i]? = some w) (hothers : i + 1 ≠ s.accepted → t' = t ∧ w'.point.serving = false)
    (hnow : i + 1 = s.accepted → w'.Plays t') (hcontents : t'.contents = d.current)
    (hsession : t'.session = t.session) :
    Alike ({ s with disk := d, listMutex := m }.put i w') t' := by
  have hlt : i < s.workers.length := (List.getElem?_eq_some_iff.1 hw).1
  have hworkers : ∀ j u, (s.workers.set i w')[j]? = some u →
      j = i ∧ u = w' ∨ j ≠ i ∧ s.workers[j]? = some u := by
    intro j u hu
    by_cases hj : i = j
    · subst hj
      rw [List.getElem?_set_self hlt] at hu
      exact Or.inl ⟨rfl, (Option.some.inj hu).symm⟩
    · rw [List.getElem?_set_ne hj] at hu
      exact Or.inr ⟨Ne.symm hj, hu⟩
  refine ⟨hcontents, hsession.trans h.session, h.socket, fun j u hu hne => ?_, fun j u hu heq => ?_,
    fun hconnecting => ?_, fun hzero => ?_⟩
  · rcases hworkers j u hu with ⟨rfl, rfl⟩ | ⟨-, hold⟩
    · exact (hothers hne).2
    · exact h.others j u hold hne
  · have hnewest : j + 1 = s.accepted := heq
    rcases hworkers j u hu with ⟨rfl, rfl⟩ | ⟨hj, hold⟩
    · exact hnow hnewest
    · rw [(hothers (by omega)).1]
      exact h.now j u hold hnewest
  · have hmain : s.main.connecting = true := hconnecting
    have hnewest := accepted_eq hsockets fun hexited => by
      rw [hexited] at hmain
      cases hmain
    rw [hmain, Bool.toNat_true] at hnewest
    rw [(hothers (by omega)).1]
    exact h.soon hmain
  · have hnone : s.accepted = 0 := hzero
    rw [(hothers (by omega)).1]
    exact h.idle hnone

/-- **What a worker does**, the server without threads does as well. -/
theorem worker (h : Alike s t) (hmade : Made s t) (hsockets : s.connections.Sockets)
    (hsound : s.disk.Sound)
    (hstreams : ∀ u call, s.callOf u = some call → call.point = .transfer →
      s.disk.linked = some call.stream)
    (hw : s.workers[i]? = some w) (hworker : s.workerStep i w a = some s')
    (hsend : a ≠ .send none ∧ a ≠ .malloc false) :
    Answered s t (.worker i a) s' (s.event w a) := by
  by_cases hnewest : i + 1 = s.accepted
  swap
  · -- only the newest worker serves
    have hserving := h.others i w hw hnewest
    obtain ⟨m, w', rfl, hserving', hevent, hcalling⟩ := w.retired hserving hworker
    refine ⟨t, hevent ▸ .refl t, ?_, fun hnone => ⟨hnone, appends_of_not_calling hcalling⟩⟩
    exact h.put hsockets hw (fun _ => ⟨rfl, hserving'⟩) (fun heq => absurd heq hnewest) h.contents rfl
  have hplays := h.now i w hw hnewest
  have hself : s.callOf (.worker i) = w.call := by
    show s.workers[i]?.bind _ = _
    rw [hw, Option.bind_some]
  rcases FileServer.workerStep_cases hworker with ⟨c, call, d, r, w', rfl, hcall, hdisk, hresume, rfl⟩ |
    ⟨w', hstep, rfl⟩ | ⟨rfl, hpoint, -, rfl⟩ | ⟨rfl, hpoint, -, rfl⟩
  · have hstepped := Disk.stepped_of_step hdisk
    have hresumes := FileWorker.resumes_of_resume hresume
    have hstream := hstreams _ call (hself.trans hcall)
    obtain ⟨-, -, hcurrent, -⟩ := hstepped.current_eq hsound hstream
    have hfollows : w'.Follows d t (call.appends c) := by
      unfold FileWorker.call at hcall
      split at hcall
      · rename_i hpoint
        obtain rfl := Option.some.inj hcall
        exact FileWorker.follows_writefile hpoint hresumes hstepped hplays h.contents hcurrent
      · rename_i hpoint
        obtain rfl : call = _ := (Option.some.inj hcall).symm
        have hreads : call.job = .read BUFFERSIZE := by
          unfold FileWorker.Plays at hplays
          rw [hpoint] at hplays
          exact hplays.2.2.1
        refine FileWorker.follows_readfile hpoint hresumes hstepped hplays h.contents hcurrent hstream ?_
        intro hat hnone
        rcases hmade hnone with hlinked | ⟨j, call', data, hcall', -, hjob⟩
        · cases hlinked.symm.trans (hstream hat)
        · -- nobody but this worker is in a call, and it is reading
          obtain ⟨u, hu, hcall'⟩ := Option.bind_eq_some_iff.1 hcall'
          have hj : j + 1 = s.accepted := by
            by_contra hne
            cases (h.others j u hu hne).symm.trans (FileWorker.serving_of_call hcall')
          obtain rfl : i = j := by omega
          obtain rfl := Option.some.inj (hw.symm.trans hu)
          obtain rfl : call = call' := by
            unfold FileWorker.call at hcall'
            rw [hpoint] at hcall'
            exact Option.some.inj hcall'
          cases hreads.symm.trans hjob
      · cases hcall
    obtain ⟨t', hanswers, hplays', hcontents, hsession, hfile⟩ := hfollows
    refine ⟨t', hanswers, ?_, fun hnone => ?_⟩
    · exact h.put hsockets hw (fun hne => absurd hnewest hne) (fun _ => hplays') hcontents hsession
    · obtain ⟨hnone', happended⟩ := hfile hnone
      refine ⟨hnone', ?_⟩
      rw [appends_of_calling rfl (hself.trans hcall), happended]
      rfl
  · obtain ⟨t', hanswers, hplays', hfile, hsession⟩ := FileWorker.answered hstep hplays hsend
      (by rw [h.session, file_socket hsockets hw, hnewest])
      (fun c hc => h.session.trans (h.socket c hc).symm)
    have hcontents : t'.contents = s.disk.current := by
      rw [← h.contents, Nothread.contents, hfile, Nothread.contents]
    refine ⟨t', hanswers, ?_, fun hnone => ⟨hfile ▸ hnone, appends_of_not_calling ?_⟩⟩
    · exact h.put hsockets hw (fun hne => absurd hnewest hne) (fun _ => hplays') hcontents hsession
    · cases a with
      | call c => cases FileWorker.steps_of_step hstep
      | _ => rfl
  · have hconnect := (FileWorker.plays_of_not_serving (by rw [hpoint]; rfl)).1 hplays
    refine ⟨t, .refl t, ?_, fun hnone => ⟨hnone, rfl⟩⟩
    exact h.put hsockets hw (fun hne => absurd hnewest hne) (fun _ => hconnect) h.contents rfl
  · have hconnect := (FileWorker.plays_of_not_serving (by rw [hpoint]; rfl)).1 hplays
    refine ⟨t, .refl t, ?_, fun hnone => ⟨hnone, rfl⟩⟩
    exact h.put hsockets hw (fun hne => absurd hnewest hne) (fun _ => hconnect) h.contents rfl

end Alike

theorem step_answered (h : Alike s t) (hmade : Made s t) (hsockets : s.connections.Sockets)
    (hsound : s.disk.Sound)
    (hstreams : ∀ u call, s.callOf u = some call → call.point = .transfer →
      s.disk.linked = some call.stream)
    (hguard : s.OneAtATime l) (hstep : s.step l = some (s', o)) : Answered s t l s' o := by
  obtain ⟨hplain, hfree⟩ := hguard
  have hsame : ∀ {l : FileLabel} {s' : FileServer}, l.calling = none → Alike s' t →
      Answered s t l s' .quiet := fun hl h' =>
    ⟨t, .refl t, h', fun hnone => ⟨hnone, appends_of_not_calling hl⟩⟩
  rcases FileServer.step_cases hstep with ⟨b, m, rfl, hpoint, hm, rfl, rfl⟩ | ⟨rfl, -, -, rfl, rfl⟩ |
    ⟨i, a, w, rfl, hw, hworker, rfl⟩ | ⟨b, rfl, htimer, rfl⟩ | ⟨rfl, -, -⟩ | ⟨rfl, rfl, rfl⟩
  · exact h.accept hsockets hpoint hm fun hb => hfree (congrArg FileLabel.main hb)
  · exact hsame rfl ⟨h.contents, h.session, h.socket, h.others, h.now, h.soon, h.idle⟩
  · refine h.worker hmade hsockets hsound hstreams hw hworker ⟨?_, ?_⟩
    · rintro rfl
      cases hplain
    · rintro rfl
      cases hplain
  · cases b with
    | checkRunning =>
      obtain ⟨-, htimer⟩ := Option.ite_none_right_eq_some.1 htimer
      obtain rfl := Option.some.inj htimer
      exact hsame rfl ⟨h.contents, h.session, h.socket, h.others, h.now, h.soon, h.idle⟩
    | _ => cases hplain
  · cases hplain
  · exact hsame rfl ⟨h.contents, h.session, h.socket, h.others, h.now, h.soon, h.idle⟩

theorem alike_init (file : Option (List UInt8)) : Alike (.init file) (.init file) where
  contents := by cases file <;> rfl
  session := rfl
  socket c hc := by cases hc
  others i w hw := by cases hw
  now i w hw := by cases hw
  soon h := by cases h
  idle _ := rfl

theorem made_init (file : Option (List UInt8)) : Made (.init file) (.init file) := by
  rintro hnone
  obtain rfl : file = none := hnone
  exact Or.inl rfl

theorem keeps_file (s : FileServer) (l : FileLabel) (h : s.OneAtATime l) : l ≠ .unlink := by
  rintro rfl
  cases h.1

/-- The simulation, one step of the file build at a time. -/
theorem simulated (acts : List FileLabel) (outs : List Event) (s : FileServer) (t : Nothread)
    (l : FileLabel) (s' : FileServer) (o : Event)
    (hrun : fileMachine.Run FileServer.OneAtATime (.init file) acts outs s)
    (hs : Alike s t ∧ Made s t) (hguard : s.OneAtATime l) (hstep : fileMachine.step s l = some (s', o)) :
    ∃ acts' outs' t', nothreadMachine.Run (fun _ b => b.smooth = true) t acts' outs' t' ∧
      outs'.flatMap Event.seen = o.next.seen ∧ Alike s' t' ∧ Made s' t' := by
  obtain ⟨halike, hmade⟩ := hs
  have hholding := run_holding keeps_file hrun
  obtain ⟨t', ⟨acts', outs', hrun', hseen⟩, halike', hfile⟩ := step_answered halike hmade
    (run_file_sockets hrun) hholding.sound hholding.streams hguard hstep
  refine ⟨acts', outs', t', hrun', hseen, halike', fun hnone => ?_⟩
  obtain ⟨hnone', happends⟩ := hfile hnone
  exact made_of_step hstep hguard.1 (hmade hnone') happends

theorem seen_visible (outs : List Event) : (visible outs).flatMap Event.seen = outs.flatMap Event.seen := by
  unfold visible
  induction outs with
  | nil => rfl
  | cons o outs ih =>
    rw [List.filter_cons, List.flatMap_cons]
    split
    · rw [List.flatMap_cons, ih]
    · rename_i hquiet
      obtain rfl : o = .quiet := by simpa using hquiet
      exact ih

/-- **One at a time, the file build is the server without threads**: when a connection is only accepted
while no other one is served, no `send` and no `malloc` fails, the timer sleeps and nobody removes the
file, the server without threads, with descriptors free for the two sockets and the file, can exchange
with its clients the bytes that the file build exchanges with its own, connection by connection in the
same order, and has the same file then; whatever else fails. It can take another connection. -/
theorem serves_like_nothread {used : List Bool} (hroom : 3 ≤ used.count false)
    (hrun : fileMachine.Run FileServer.OneAtATime (.init file) acts outs s) :
    ∃ acts' outs' p, processMachine.Run (fun _ _ => True) (.init used file) acts' outs' p ∧
      Able used acts' ∧ outs'.flatMap Event.seen = outs.flatMap (fun o => o.next.seen) ∧
      p.serving.contents = s.disk.current ∧ p.serving.session = s.accepted := by
  obtain ⟨calls, outs', t, hrun', hseen, halike, -⟩ :=
    hrun.refine (R := fun s t => Alike s t ∧ Made s t) simulated ⟨alike_init file, made_init file⟩
  obtain ⟨acts', outs'', p, hprocess, hable, rfl, hvisible⟩ := run_smooth (le_of_lt hroom) hrun'
  refine ⟨acts', outs'', p, hprocess, hable, ?_, halike.contents, halike.session⟩
  rw [← hseen, ← seen_visible, hvisible, seen_visible]

theorem serves_like_nothread_two : ∃ acts' outs' p,
    processMachine.Run (fun _ _ => True) (.init [true, true, true, false, false, false] none) acts' outs' p ∧
      outs'.flatMap Event.seen =
        [.received 1 [97, 10], .sent 1 [97, 10], .received 2 [98, 10], .sent 2 [97, 10, 98]] ∧
      p.serving.contents = [97, 10, 98, 10] ∧ p.serving.session = 2 := by
  set acts : List FileLabel := .timer .checkRunning :: (accepting ++ [.worker 0 (.malloc true)] ++
    receivingPiece 0 [97, 10] ++ workerMoving 0 2 ++ [.worker 0 .strchr] ++ workerMoving 0 2 ++
    [.worker 0 (.send (some 2))] ++ accepting ++ [.worker 1 (.malloc true)] ++
    receivingPiece 1 [98, 10] ++ workerMoving 1 2 ++ [.worker 1 .strchr] ++ workerMoving 1 3 ++
    [.worker 1 (.send (some 3))])
  obtain ⟨⟨s, outs⟩, hexec, heval⟩ := Option.map_eq_some_iff.1
    (show (fileMachine.execGuarded FileServer.OneAtATime (.init none) acts).map (fun r =>
      (r.2.flatMap (fun o => o.next.seen), r.1.disk.current, r.1.accepted)) =
        some ([.received 1 [97, 10], .sent 1 [97, 10], .received 2 [98, 10], .sent 2 [97, 10, 98]],
          [97, 10, 98, 10], 2) by decide +kernel)
  obtain ⟨hseen, hrest⟩ := Prod.mk.inj heval
  obtain ⟨hcurrent, haccepted⟩ := Prod.mk.inj hrest
  obtain ⟨acts', outs', p, hrun, -, hseen', hcontents, hsession⟩ :=
    serves_like_nothread (show 3 ≤ [true, true, true, false, false, false].count false by decide)
      (Machine.Run.of_execGuarded hexec)
  exact ⟨acts', outs', p, hrun, hseen'.trans hseen, hcontents.trans hcurrent, hsession.trans haccepted⟩

end AesdChar
