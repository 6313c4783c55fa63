import AesdChar.Server.Threads

/-!
# What the workers received

Worker `i` serves connection `i` (`Server.Sockets`), and its buffer holds what was received on that
connection, one byte after the other (`Worker.Heard`). A `recv` never asks for the last byte of the
buffer, so the buffer never fills and never grows. Both hold after every run (`run_heard`).
-/

namespace AesdChar
open CInt CString

variable {k : KernelLimits} {s s' : Server} {l : Label} {o : Event} {i : ℕ} {a : Action}
  {w w' : Worker} {outs : List Event} {received xs : List UInt8}

/-! ### Connections -/

/-- A connection was accepted and its worker is not there yet. -/
def MainPoint.connecting : MainPoint → Bool
  | .lockCreate | .createNode | .unlockCreate | .spawn => true
  | _ => false

/-- Worker `i` serves the `i`-th connection, counted from 0. -/
structure Server.Sockets (s : Server) : Prop where
  worker : ∀ (i : ℕ) (w : Worker), s.workers[i]? = some w → w.clientSocket = i
  last : s.main.connecting = true → s.clientSocket = some s.workers.length
  accepted : s.main ≠ .exited → s.accepted = s.workers.length + s.main.connecting.toNat

theorem sockets_init : Server.init.Sockets where
  worker := by simp [Server.init]
  last := by simp [Server.init, MainPoint.connecting]
  accepted := by simp [Server.init, MainPoint.connecting]

theorem Server.Sockets.length_eq (hs : s.Sockets) (hmain : s.main = .accept) :
    s.workers.length = s.accepted := by
  have haccepted := hs.accepted (by simp [hmain])
  rw [hmain] at haccepted
  exact haccepted.symm

theorem mainStep_sockets {a : MainAction} (hpoint : s.main = a.point) (h : s.mainStep a = some s')
    (hs : s.Sockets) : s'.Sockets := by
  have hlast := hs.last
  have haccepted := hs.accepted (mainStep_moves hpoint h).before
  rw [hpoint] at hlast haccepted
  cases a with
  | checkRunning =>
    obtain rfl := Option.some.inj h
    refine ⟨hs.worker, ?_, ?_⟩
    · simp only
      split <;> simp [MainPoint.connecting]
    · simp only
      split
      · exact fun _ => haccepted
      · simp
  | accept accepted =>
    cases accepted with
    | true =>
      obtain rfl := Option.some.inj h
      have : s.accepted = s.workers.length := haccepted
      exact ⟨hs.worker, fun _ => by simp [this], fun _ => by simp [this, MainPoint.connecting]⟩
    | false =>
      obtain rfl := Option.some.inj h
      exact ⟨hs.worker, by simp [MainPoint.connecting], fun _ => haccepted⟩
  | createNode granted =>
    obtain rfl := Option.some.inj h
    cases granted with
    | true => exact ⟨hs.worker, hlast, fun _ => haccepted⟩
    | false => exact ⟨hs.worker, by simp [MainPoint.connecting], by simp⟩
  | spawn created =>
    cases created with
    | true =>
      obtain ⟨c, hc, rfl⟩ := Option.map_eq_some_iff.1 h
      have hsock : c = s.workers.length := by simpa [hc] using hlast rfl
      have : s.accepted = s.workers.length + 1 := haccepted
      refine ⟨fun i w hw => ?_, by simp [MainPoint.connecting], fun _ => by
        simp [this, MainPoint.connecting]⟩
      rcases getElem?_concat_cases hw with hw | ⟨rfl, rfl⟩
      · exact hs.worker i w hw
      · exact hsock
    | false =>
      obtain rfl := Option.some.inj h
      exact ⟨hs.worker, by simp [MainPoint.connecting], by simp⟩
  | lockCreate =>
    obtain ⟨-, rfl⟩ := Option.ite_some_none_eq_some.1 h
    exact ⟨hs.worker, hlast, fun _ => haccepted⟩
  | unlockCreate =>
    obtain ⟨-, rfl⟩ := Option.ite_some_none_eq_some.1 h
    exact ⟨hs.worker, hlast, fun _ => haccepted⟩
  | lockAppend | unlockAppend | lockSweep | unlockSweep =>
    obtain ⟨-, rfl⟩ := Option.ite_some_none_eq_some.1 h
    exact ⟨hs.worker, by simp [MainPoint.connecting], fun _ => haccepted⟩

theorem Server.Moves.sockets (h : s.Moves k s' i w w' a) (hw : s.workers[i]? = some w)
    (hsocket : w'.clientSocket = w.clientSocket) (hs : s.Sockets) : s'.Sockets := by
  refine ⟨fun j u hu => ?_, ?_, ?_⟩
  · rw [h.workers] at hu
    rcases getElem?_set_cases hw hu with ⟨rfl, rfl⟩ | ⟨-, hu⟩
    · rw [hsocket]
      exact hs.worker i w hw
    · exact hs.worker j u hu
  · rw [h.main, h.clientSocket, h.workers, List.length_set]
    exact hs.last
  · rw [h.main, h.accepted, h.workers, List.length_set]
    exact hs.accepted

/-! ### The bytes of a connection -/

/-- The bytes that an action receives. -/
def Action.heard : Action → List UInt8
  | .recv (some xs) => xs
  | _ => []

/-- The bytes that an action sends. -/
def Worker.said (w : Worker) : Action → List UInt8
  | .seekSend (some n) | .send (some n) => w.readBuffer.take n
  | _ => []

theorem receivedOn_quiet (outs : List Event) (c : ℕ) :
    receivedOn (outs ++ [.quiet]) c = receivedOn outs c := by simp [receivedOn]

theorem sentTo_quiet (outs : List Event) (c : ℕ) : sentTo (outs ++ [.quiet]) c = sentTo outs c := by
  simp [sentTo]

theorem receivedOn_event (outs : List Event) (w : Worker) (a : Action) (c : ℕ) :
    receivedOn (outs ++ [w.event a]) c =
      receivedOn outs c ++ if w.clientSocket = c then a.heard else [] := by
  have hone : receivedOn [w.event a] c = if w.clientSocket = c then a.heard else [] := by
    cases a with
    | recv received => cases received <;> simp [receivedOn, Worker.event, Action.heard]
    | seekSend sent => cases sent <;> simp [receivedOn, Worker.event, Action.heard]
    | send sent => cases sent <;> simp [receivedOn, Worker.event, Action.heard]
    | _ => simp [receivedOn, Worker.event, Action.heard]
  rw [← hone]
  simp [receivedOn]

theorem receivedOn_grows (outs : List Event) (o : Event) (c : ℕ) :
    receivedOn outs c <+: receivedOn (outs ++ [o]) c := by
  simp [receivedOn]

theorem sentTo_event (outs : List Event) (w : Worker) (a : Action) (c : ℕ) :
    sentTo (outs ++ [w.event a]) c =
      sentTo outs c ++ if w.clientSocket = c then w.said a else [] := by
  have hone : sentTo [w.event a] c = if w.clientSocket = c then w.said a else [] := by
    cases a with
    | recv received => cases received <;> simp [sentTo, Worker.event, Worker.said]
    | seekSend sent => cases sent <;> simp [sentTo, Worker.event, Worker.said]
    | send sent => cases sent <;> simp [sentTo, Worker.event, Worker.said]
    | _ => simp [sentTo, Worker.event, Worker.said]
  rw [← hone]
  simp [sentTo]

/-! ### The buffer -/

/-- The worker has received these bytes: they fill the front of the buffer, and in the receive loop
`total_bytes_read` counts them. -/
structure Worker.Heard (w : Worker) (received : List UInt8) : Prop where
  bufferSize : w.bufferSize = BUFFERSIZE
  room : received.length < BUFFERSIZE
  buffer : ∀ b, w.buffer = some b → b.size = BUFFERSIZE ∧ b.bytes = received
  start : w.point = .malloc → received = []
  count : ¬ w.point.Late → w.totalBytesRead = received.length
  range : -1 ≤ w.totalBytesRead ∧ w.totalBytesRead ≤ received.length
  small : w.point ≠ .realloc

theorem Worker.heard_start (c : ℕ) : (Worker.start c).Heard [] where
  bufferSize := rfl
  room := by decide
  buffer := by simp [Worker.start]
  start := fun _ => rfl
  count := fun _ => rfl
  range := ⟨by simp [Worker.start], by simp [Worker.start]⟩
  small := by simp [Worker.start]

theorem Worker.SameInput.heard (h : w.SameInput w') (hlate : w'.point.Late) (hw : w.Heard received) :
    w'.Heard received where
  bufferSize := h.bufferSize ▸ hw.bufferSize
  room := hw.room
  buffer := fun b hb => hw.buffer b (h.buffer b hb)
  start := fun hpoint => absurd hpoint hlate.1
  count := fun hearly => absurd hlate hearly
  range := h.totalBytesRead ▸ hw.range
  small := hlate.2.2.2

/-- In the receive loop the thread has loaded these bytes. -/
structure Worker.Loaded (w : Worker) (xs : List UInt8) : Prop where
  bufferSize : w.bufferSize = BUFFERSIZE
  total : w.totalBytesRead = xs.length
  buffer : ∃ b, w.buffer = some b ∧ b.size = BUFFERSIZE ∧ b.bytes = xs

namespace Worker.Loaded

theorem of_eq (hw : w.Loaded xs) (hsize : w'.bufferSize = w.bufferSize)
    (htotal : w'.totalBytesRead = w.totalBytesRead) (hbuffer : w'.buffer = w.buffer) :
    w'.Loaded xs :=
  ⟨hsize ▸ hw.bufferSize, htotal ▸ hw.total, hbuffer ▸ hw.buffer⟩

theorem request_eq (hw : w.Loaded received) (hroom : received.length < BUFFERSIZE) :
    w.request = BUFFERSIZE - received.length - 1 := by
  rw [Worker.request, hw.bufferSize, hw.total,
    toSize_of_range (by omega) (by simp only [BUFFERSIZE] at *; omega)]
  omega

/-- One round of the receive loop: the buffer never fills. -/
theorem receive_eq (hw : w.Loaded received) (hroom : (received ++ xs).length < BUFFERSIZE) :
    ∃ (w₁ : Worker) (b : Buffer), w₁.Loaded (received ++ xs) ∧ w₁.clientSocket = w.clientSocket ∧
      b.size = BUFFERSIZE ∧ b.bytes = received ++ xs ∧
      w.receive (some xs) = if xs = [] then some (w₁.goto .lockOpen)
        else b.cstring.map fun text => w₁.goto (if newline ∈ text then .lockOpen else .checkRunning) := by
  obtain ⟨b, hb, hsize, hbytes⟩ := hw.buffer
  rw [List.length_append] at hroom
  have hle : xs.length ≤ w.request := by
    rw [hw.request_eq (by omega)]
    omega
  have htotal : toInt (w.totalBytesRead + xs.length) = (received ++ xs).length := by
    rw [hw.total, List.length_append, toInt_of_range (by omega) (by
      simp only [BUFFERSIZE] at *
      omega)]
    push_cast
    rfl
  obtain ⟨b', hput, hsize', hbytes'⟩ : ∃ b', b.put b.bytes.length xs = some b' ∧ b'.size = b.size ∧
      b'.bytes = b.bytes ++ xs := Buffer.put_at_end (by rw [hbytes, hsize]; omega)
  rw [hsize] at hsize'
  rw [hbytes] at hput hbytes'
  let w₁ : Worker := { w with buffer := some b', totalBytesRead := (received ++ xs).length }
  refine ⟨w₁, b', ⟨hw.bufferSize, rfl, b', rfl, hsize', hbytes'⟩, rfl, hsize', hbytes', ?_⟩
  have hfull : ((received ++ xs).length : ℤ) ≠ w.bufferSize := by
    rw [hw.bufferSize, List.length_append]
    omega
  simp only [Worker.receive, if_pos hle, hb, Option.bind_some, hw.total, hput]
  rw [← hw.total, htotal]
  split
  · rfl
  · congr 1
    funext text
    split <;> rfl

theorem receive_point (hw : w.Loaded received) (hroom : (received ++ xs).length < BUFFERSIZE)
    (hnul : 0 ∉ received ++ xs) :
    ∃ w', w.receive (some xs) = some w' ∧ w'.Loaded (received ++ xs) ∧
      w'.point = if xs = [] ∨ newline ∈ received ++ xs then .lockOpen else .checkRunning := by
  obtain ⟨w₁, b, hloaded, -, hsize, hbytes, heq⟩ := hw.receive_eq hroom
  rw [Buffer.cstring_eq (by rw [hbytes, hsize]; exact hroom) (by rwa [hbytes]), Option.map_some,
    hbytes] at heq
  by_cases hnil : xs = []
  · rw [if_pos hnil] at heq
    refine ⟨_, heq, hloaded.of_eq rfl rfl rfl, ?_⟩
    rw [if_pos (Or.inl hnil)]
    rfl
  · rw [if_neg hnil] at heq
    refine ⟨_, heq, hloaded.of_eq rfl rfl rfl, ?_⟩
    simp only [Worker.goto, hnil, false_or]

theorem parse_eq (hw : w.Loaded xs) (hroom : xs.length < BUFFERSIZE) (hnul : 0 ∉ xs) :
    w.parse = some (match strstr SEARCHSTRING xs with
      | none => w.goto .lockWrite
      | some seekStr =>
        match sscanfSeekto (seekStr.drop SEARCHSTRING.length) with
        | some seekto => { w with seekto := seekto, point := .lockSeek }
        | none => w.goto .free) := by
  obtain ⟨b, hb, hsize, hbytes⟩ := hw.buffer
  have htext : b.cstring = some xs := by
    rw [Buffer.cstring_eq (by rw [hbytes, hsize]; exact hroom) (by rwa [hbytes]), hbytes]
  rw [Worker.parse, hb, Option.bind_some, htext]
  rfl

theorem parse_of_no_search (hw : w.Loaded xs) (hroom : xs.length < BUFFERSIZE) (hnul : 0 ∉ xs)
    (hsearch : ¬ SEARCHSTRING <:+: xs) : w.parse = some (w.goto .lockWrite) := by
  rw [hw.parse_eq hroom hnul, strstr_eq_none_iff.2 hsearch]

theorem writeData_eq (hw : w.Loaded xs) (hlen : xs.length ≤ BUFFERSIZE)
    (k : KernelLimits) : w.writeData k = some xs ∧ xs.length ≤ k.maxRwCount := by
  obtain ⟨b, hb, -, hbytes⟩ := hw.buffer
  have hpage := k.pageSize_le
  have hmax : xs.length ≤ k.maxRwCount := by
    simp only [BUFFERSIZE, KernelLimits.maxRwCount] at *
    omega
  have hsize : toSize w.totalBytesRead = xs.length := by
    rw [hw.total, toSize_natCast (by simp only [BUFFERSIZE] at hlen; omega)]
  refine ⟨?_, hmax⟩
  rw [Worker.writeData, hsize, if_pos (by simp only [BUFFERSIZE] at hlen; omega), hb,
    Option.bind_some, Nat.min_eq_left hmax, ← hbytes, Buffer.front_length]

end Worker.Loaded

theorem Worker.Heard.loaded (hw : w.Heard received) (hearly : ¬ w.point.Late) {b : Buffer}
    (hb : w.buffer = some b) : w.Loaded received :=
  ⟨hw.bufferSize, hw.count hearly, b, hb, hw.buffer b hb⟩

theorem receive_loaded (hw : w.Heard received) (hpoint : w.point = .recv)
    (h : w.receive (some xs) = some w') :
    w'.Loaded (received ++ xs) ∧ (received ++ xs).length < BUFFERSIZE ∧
      w'.clientSocket = w.clientSocket ∧
      (w'.point = .lockOpen ∨ w'.point = .checkRunning ∧ xs ≠ []) := by
  have hroom := hw.room
  have hin : w.Loaded received ∧ (received ++ xs).length < BUFFERSIZE := by
    obtain ⟨hle, hbind⟩ := Option.ite_none_right_eq_some.1 h
    obtain ⟨b, hb, -⟩ := Option.bind_eq_some_iff.1 hbind
    have hin := hw.loaded (hpoint ▸ (by decide : ¬ Point.Late .recv)) hb
    rw [hin.request_eq hroom] at hle
    exact ⟨hin, by rw [List.length_append]; omega⟩
  obtain ⟨w₁, b, hloaded, hsocket, -, -, heq⟩ := hin.1.receive_eq hin.2
  rw [heq] at h
  by_cases hnil : xs = []
  · rw [if_pos hnil] at h
    obtain rfl := Option.some.inj h
    exact ⟨hloaded.of_eq rfl rfl rfl, hin.2, hsocket, Or.inl rfl⟩
  · rw [if_neg hnil] at h
    obtain ⟨text, -, rfl⟩ := Option.map_eq_some_iff.1 h
    refine ⟨hloaded.of_eq rfl rfl rfl, hin.2, hsocket, ?_⟩
    split
    · exact Or.inl rfl
    · exact Or.inr ⟨rfl, hnil⟩

theorem receive_heard {got : Option (List UInt8)} (hw : w.Heard received) (hpoint : w.point = .recv)
    (h : w.receive got = some w') :
    w'.Heard (received ++ (Action.recv got).heard) ∧ w'.clientSocket = w.clientSocket := by
  cases got with
  | none =>
    have hcount := hw.count (hpoint ▸ (by decide : ¬ Point.Late .recv))
    have hroom := hw.room
    obtain rfl := Option.some.inj h
    have htotal : toInt (w.totalBytesRead - 1) = received.length - 1 := by
      rw [hcount]
      exact toInt_of_range (by omega) (by simp only [BUFFERSIZE] at *; omega)
    simp only [Action.heard, List.append_nil]
    refine ⟨⟨hw.bufferSize, hroom, hw.buffer, by simp, fun hne => ?_, ?_, by simp⟩, trivial⟩
    · exact absurd (by decide : Point.Late .lockOpen) hne
    · simp only [htotal]
      omega
  | some xs =>
    obtain ⟨hloaded, hroom, hsocket, hpoint'⟩ := receive_loaded hw hpoint h
    obtain ⟨b, hb, hsize, hbytes⟩ := hloaded.buffer
    refine ⟨⟨hloaded.bufferSize, hroom, fun c hc => ?_, ?_, fun _ => hloaded.total, ?_, ?_⟩, hsocket⟩
    · obtain rfl := Option.some.inj (hb.symm.trans hc)
      exact ⟨hsize, hbytes⟩
    · rcases hpoint' with hpoint' | ⟨hpoint', -⟩ <;> simp [hpoint']
    · rw [hloaded.total]
      exact ⟨by omega, le_refl _⟩
    · rcases hpoint' with hpoint' | ⟨hpoint', -⟩ <;> simp [hpoint']

theorem Worker.step_sameInput {running : Bool} (hpoint : w.point = a.point) (hlate : a.point.Late)
    (h : w.step running a = some w') : w.SameInput w' := by
  have hgoto : ∀ p, w.SameInput (w.goto p) := fun _ => w.sameInput_goto (hpoint ▸ hlate)
  cases a with
  | malloc granted => exact absurd rfl hlate.1
  | checkRunning => exact absurd rfl hlate.2.1
  | recv received => exact absurd rfl hlate.2.2.1
  | realloc tail => exact absurd rfl hlate.2.2.2
  | dispatch =>
    obtain ⟨b, -, h⟩ := Option.bind_eq_some_iff.1 h
    obtain ⟨text, -, rfl⟩ := Option.map_eq_some_iff.1 h
    split
    · exact hgoto _
    · split
      · exact ⟨hpoint ▸ hlate, rfl, fun _ hb => hb, rfl, rfl⟩
      · exact hgoto _
  | seekSend sent =>
    cases sent with
    | none =>
      obtain rfl := Option.some.inj h
      exact hgoto _
    | some n =>
      obtain ⟨-, rfl⟩ := Option.ite_some_none_eq_some.1 h
      exact hgoto _
  | send sent =>
    cases sent with
    | none =>
      obtain rfl := Option.some.inj h
      exact hgoto _
    | some n =>
      obtain ⟨-, rfl⟩ := Option.ite_some_none_eq_some.1 h
      exact hgoto _
  | free =>
    obtain rfl := Option.some.inj h
    exact ⟨hpoint ▸ hlate, rfl, by simp, rfl, rfl⟩
  | finish =>
    obtain rfl := Option.some.inj h
    exact ⟨hpoint ▸ hlate, rfl, fun _ hb => hb, rfl, rfl⟩
  | _ => cases h

theorem Action.heard_of_late (h : a.point.Late) : a.heard = [] := by
  cases a with
  | recv received => exact absurd rfl h.2.2.1
  | _ => rfl

theorem step_heard {running : Bool} (hw : w.Heard received) (hpoint : w.point = a.point)
    (hearly : ¬ a.point.Late) (h : w.step running a = some w') :
    w'.Heard (received ++ a.heard) ∧ w'.clientSocket = w.clientSocket := by
  have hcount := hw.count (hpoint ▸ hearly)
  cases a with
  | malloc granted =>
    obtain rfl := hw.start hpoint
    cases granted with
    | true =>
      obtain rfl := Option.some.inj h
      refine ⟨⟨hw.bufferSize, hw.room, fun b hb => ?_, by simp, fun _ => hcount, hw.range, by simp⟩,
        rfl⟩
      obtain rfl := Option.some.inj hb
      exact ⟨rfl, rfl⟩
    | false =>
      obtain rfl := Option.some.inj h
      exact ⟨⟨hw.bufferSize, hw.room, hw.buffer, by simp, fun _ => hcount, hw.range, by simp⟩, rfl⟩
  | checkRunning =>
    obtain rfl := Option.some.inj h
    simp only [Action.heard, List.append_nil]
    refine ⟨⟨hw.bufferSize, hw.room, hw.buffer, ?_, fun _ => hcount, hw.range, ?_⟩, rfl⟩
    · cases running <;> simp [Worker.goto]
    · cases running <;> simp [Worker.goto]
  | recv received => exact receive_heard hw hpoint h
  | realloc tail => exact absurd hpoint hw.small
  | _ => exact absurd (by simp [Action.point, Point.Late]) hearly

theorem Server.Moves.heard (h : s.Moves k s' i w w' a) (hpoint : w.point = a.point)
    (hw : w.Heard received) :
    w'.Heard (received ++ a.heard) ∧ w'.clientSocket = w.clientSocket := by
  by_cases hlate : a.point.Late
  · have hin : w.SameInput w' := by
      rcases h.input with hstep | hin
      · exact Worker.step_sameInput hpoint hlate hstep
      · exact hin
    rw [Action.heard_of_late hlate, List.append_nil]
    exact ⟨hin.heard (hin.late.next h.next) hw, hin.clientSocket⟩
  · rcases h.input with hstep | hin
    · exact step_heard hw hpoint hlate hstep
    · exact absurd (hpoint ▸ hin.late) hlate

/-! ### Every run -/

/-- All workers together. -/
structure Server.Heard (s : Server) (outs : List Event) : Prop where
  sockets : s.Sockets
  worker : ∀ (i : ℕ) (w : Worker), s.workers[i]? = some w → w.Heard (receivedOn outs i)
  silent : ∀ c, s.workers.length ≤ c → receivedOn outs c = [] ∧ sentTo outs c = []

theorem heard_init : Server.init.Heard [] where
  sockets := sockets_init
  worker := by simp [Server.init]
  silent := by simp [receivedOn, sentTo]

theorem mainStep_heard {a : MainAction} (hpoint : s.main = a.point) (h : s.mainStep a = some s')
    (hs : s.Heard outs) : s'.Heard (outs ++ [.quiet]) := by
  have hmoves := mainStep_moves hpoint h
  have hsockets := mainStep_sockets hpoint h hs.sockets
  refine ⟨hsockets, fun i w hw => ?_, fun c hc => ?_⟩
  · rw [receivedOn_quiet]
    rcases hmoves.worker_cases hw with hw | ⟨rfl, c, rfl⟩
    · exact hs.worker i w hw
    · rw [(hs.silent _ (Nat.le_refl _)).1]
      exact Worker.heard_start c
  · rw [receivedOn_quiet, sentTo_quiet]
    exact hs.silent c (hmoves.length_le.trans hc)

theorem workerStep_heard (hw : s.workers[i]? = some w) (hpoint : w.point = a.point)
    (h : s.workerStep k i w a = some s') (hs : s.Heard outs) : s'.Heard (outs ++ [w.event a]) := by
  obtain ⟨w', hmoves⟩ := workerStep_moves hpoint h
  obtain ⟨hheard, hsocket⟩ := hmoves.heard hpoint (hs.worker i w hw)
  have hi : i < s.workers.length := (List.getElem?_eq_some_iff.1 hw).1
  have hsock := hs.sockets.worker i w hw
  refine ⟨hmoves.sockets hw hsocket hs.sockets, fun j u hu => ?_, fun c hc => ?_⟩
  · rw [receivedOn_event, hsock]
    rw [hmoves.workers] at hu
    rcases getElem?_set_cases hw hu with ⟨rfl, rfl⟩ | ⟨hij, hu⟩
    · rwa [if_pos rfl]
    · rw [if_neg hij, List.append_nil]
      exact hs.worker j u hu
  · rw [hmoves.workers, List.length_set] at hc
    have hne : i ≠ c := by omega
    rw [receivedOn_event, sentTo_event, hsock, if_neg hne, if_neg hne, List.append_nil,
      List.append_nil]
    exact hs.silent c hc

theorem step_heard_all (hs : s.Heard outs) (h : s.step k l = some (s', o)) :
    s'.Heard (outs ++ [o]) := by
  rcases Server.step_cases h with ⟨a, -, hpoint, hstep, rfl⟩ | ⟨i, a, w, -, -, hw, hpoint, hstep, rfl⟩ |
    ⟨-, rfl, rfl⟩ | ⟨-, rfl, rfl⟩
  · exact mainStep_heard hpoint hstep hs
  · exact workerStep_heard hw hpoint hstep hs
  · refine ⟨⟨hs.sockets.worker, hs.sockets.last, hs.sockets.accepted⟩, fun i w hw => ?_, fun c hc => ?_⟩
    · rw [receivedOn_quiet]
      exact hs.worker i w hw
    · rw [receivedOn_quiet, sentTo_quiet]
      exact hs.silent c hc
  · refine ⟨⟨hs.sockets.worker, hs.sockets.last, hs.sockets.accepted⟩, fun i w hw => ?_, fun c hc => ?_⟩
    · rw [receivedOn_quiet]
      exact hs.worker i w hw
    · rw [receivedOn_quiet, sentTo_quiet]
      exact hs.silent c hc

/-- **Each buffer holds what came in on its connection**, after every run. -/
theorem run_heard {guard : Server → Label → Prop} {acts : List Label}
    (hrun : (serverMachine k).Run guard .init acts outs s) : s.Heard outs :=
  hrun.invariant (I := fun _ outs s => s.Heard outs) heard_init
    fun _ _ _ _ _ _ hs _ hstep => step_heard_all hs hstep

end AesdChar
