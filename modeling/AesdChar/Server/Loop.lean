import AesdChar.Server.Actions

/-!
# The receive loop

What the thread hands to `recv` lies inside its allocation, which holds the bytes received so far and
zeros behind them, so the searches for a newline and for the keyword always meet a NUL. Every call
but the last brings a byte, so there are at most `BUFFERSIZE` of them (`receive_loop_bounded`).

The loop adds what `recv` returned before it looks at it. Behind the loop the count is right unless a
`recv` failed, and so is what the thread writes (`received_is_written_iff`); after a failure the count
is one short, and the last byte is lost (`last_byte_not_written`).
-/

namespace AesdChar
open CInt CString

variable {k : KernelLimits} {s s' : Server} {i : ℕ} {a : Action} {w w' : Worker} {acts : List Label}
  {outs : List Event} {guard : Server → Label → Prop} {received xs : List UInt8}

/-! ### The bounds of a call -/

/-- The calls of `recv` among actions. -/
def recvCalls (actions : List Action) : ℕ := actions.countP (·.point == .recv)

/-- With these bytes received, the place that the thread hands to `recv` lies inside its allocation
`b`. -/
structure Worker.InBounds (w : Worker) (received : List UInt8) (b : Buffer) : Prop where
  buffer : w.buffer = some b
  size : (b.size : ℤ) = w.bufferSize
  lower : 0 ≤ w.totalBytesRead
  upper : w.totalBytesRead ≤ w.bufferSize - 1
  request : (w.request : ℤ) = w.bufferSize - w.totalBytesRead - 1
  inside : w.totalBytesRead + w.request ≤ b.size
  total : w.totalBytesRead = received.length
  contents : b.front b.size = some (received ++ List.replicate (b.size - received.length) 0)

theorem Worker.Loaded.inBounds (hw : w.Loaded received) (hroom : received.length < BUFFERSIZE) :
    ∃ b, w.InBounds received b := by
  obtain ⟨b, hb, hsize, hbytes⟩ := hw.buffer
  have htotal := hw.total
  have hbufferSize := hw.bufferSize
  have hrequest : (w.request : ℤ) = w.bufferSize - w.totalBytesRead - 1 := by
    rw [hw.request_eq hroom]
    omega
  have hcontents : b.front b.size = some (received ++ List.replicate (b.size - received.length) 0) := by
    unfold Buffer.front
    rw [if_pos (le_refl _), List.take_of_length_le b.length_le, hbytes]
  exact ⟨b, hb, by omega, by omega, by omega, hrequest, by omega, htotal, hcontents⟩

theorem Worker.Loaded.receive_isSome (hw : w.Loaded received) (hroom : received.length < BUFFERSIZE)
    {got : Option (List UInt8)} (hgot : ∀ xs ∈ got, xs.length ≤ w.request) :
    (w.receive got).isSome := by
  cases got with
  | none => rfl
  | some xs =>
    have hle := hgot xs rfl
    rw [hw.request_eq hroom] at hle
    have hroom' : (received ++ xs).length < BUFFERSIZE := by
      rw [List.length_append]
      omega
    obtain ⟨w₁, b, -, -, hsize, hbytes, heq⟩ := hw.receive_eq hroom'
    rw [heq, Buffer.cstring_of_room (by rw [hbytes, hsize]; exact hroom')]
    by_cases hnil : xs = []
    · rw [if_pos hnil]
      rfl
    · rw [if_neg hnil]
      rfl

theorem Worker.Heard.parse_isSome (hw : w.Heard received) {b : Buffer} (hb : w.buffer = some b) :
    w.parse.isSome := by
  obtain ⟨hsize, hbytes⟩ := hw.buffer b hb
  have hroom := hw.room
  unfold Worker.parse
  rw [hb, Option.bind_some, Buffer.cstring_of_room (by rw [hbytes, hsize]; exact hroom)]
  rfl

/-! ### The number of calls -/

/-- Every call of `recv` brings a byte, or is the last. -/
def Worker.Counts (actions : List Action) (received : List UInt8) (w : Worker) : Prop :=
  recvCalls actions ≤ received.length + if w.point.Late then 1 else 0

theorem recvCalls_concat (actions : List Action) (a : Action) :
    recvCalls (actions ++ [a]) = recvCalls actions + if a.point = .recv then 1 else 0 := by
  unfold recvCalls
  rw [List.countP_append, List.countP_singleton]
  congr 1
  by_cases h : a.point = .recv <;> simp [h]

theorem kept_counts : Kept k Worker.Counts := by
  intro actions received s s' i w w' a h hw hheard
  unfold Worker.Counts at *
  rw [recvCalls_concat, List.length_append]
  by_cases hrecv : a.point = .recv
  · have hpoint := h.point.trans hrecv
    rw [if_neg (hpoint ▸ (by decide : ¬ Point.Late .recv))] at hw
    rw [if_pos hrecv]
    cases a with
    | recv got =>
      have hu : w.receive got = some w' := h.local_step h.step
      cases got with
      | none =>
        have hnext : w'.point = .lockOpen := by rw [← Option.some.inj hu]
        rw [hnext, if_pos (by decide)]
        omega
      | some xs =>
        obtain ⟨-, -, -, hnext | ⟨hnext, hne⟩⟩ := receive_loaded hheard hpoint hu
        · rw [hnext, if_pos (by decide)]
          omega
        · have hpos := List.length_pos_iff.2 hne
          simp only [Action.heard]
          omega
    | _ => cases hrecv
  · rw [if_neg hrecv]
    by_cases hlate : w.point.Late
    · rw [if_pos hlate] at hw
      rw [if_pos (hlate.next h.moves.next)]
      omega
    · rw [if_neg hlate] at hw
      omega

/-- **The receive loop stays inside its buffer and ends.** At each `recv` the place for the bytes is
inside the allocation, which holds what was received and then zeros; the loop goes on whatever `recv`
gives, the search for the keyword meets a NUL, and after `BUFFERSIZE` calls the loop is left. -/
theorem receive_loop_bounded (hrun : (serverMachine k).Run guard .init acts outs s)
    (hw : s.workers[i]? = some w) :
    (w.point = .recv → ∃ b, w.InBounds (receivedOn outs i) b ∧
      ∀ got : Option (List UInt8), (∀ xs ∈ got, xs.length ≤ w.request) → (w.receive got).isSome) ∧
    (w.point = .dispatch → w.parse.isSome) ∧
    recvCalls (actionsOf acts i) ≤ BUFFERSIZE ∧
    (recvCalls (actionsOf acts i) = BUFFERSIZE → w.point.Late) := by
  have hheard := (run_heard hrun).worker i w hw
  have hholds := run_holds_buffer hrun hw
  have hcounts := run_worker (fun _ => Nat.zero_le _) kept_counts hrun hw
  have hroom := hheard.room
  unfold Worker.Counts at hcounts
  refine ⟨fun hpoint => ?_, fun hpoint => ?_, ?_, ?_⟩
  · obtain ⟨b, hb⟩ := hholds.exists_buffer hpoint rfl
    have hloaded := hheard.loaded (hpoint ▸ (by decide : ¬ Point.Late .recv)) hb
    obtain ⟨b, hin⟩ := hloaded.inBounds hroom
    exact ⟨b, hin, fun got hgot => hloaded.receive_isSome hroom hgot⟩
  · obtain ⟨b, hb⟩ := hholds.exists_buffer hpoint rfl
    exact hheard.parse_isSome hb
  · split_ifs at hcounts <;> omega
  · intro hfull
    by_contra hlate
    rw [if_neg hlate] at hcounts
    omega

theorem receive_loop_bounded_one_byte : ∃ (acts : List Label) (outs : List Event) (s : Server)
    (w : Worker),
    (serverMachine .x86).Run (fun _ _ => True) .init acts outs s ∧ s.workers[0]? = some w ∧
      w.point = .recv ∧ receivedOn outs 0 = [97] ∧ (∃ b, w.InBounds (receivedOn outs 0) b ∧
        ∀ got : Option (List UInt8), (∀ xs ∈ got, xs.length ≤ w.request) → (w.receive got).isSome) ∧
      recvCalls (actionsOf acts 0) ≤ BUFFERSIZE := by
  set acts : List Label :=
    acceptOne ++ receiving 0 [some [97]] ++ [.worker 0 .checkRunning] with hacts
  obtain ⟨⟨s, outs⟩, hexec, heval⟩ := Option.map_eq_some_iff.1
    (show ((serverMachine .x86).execGuarded (fun _ _ => True) .init acts).map
      (fun r => (r.1.workers[0]?.map (·.point), receivedOn r.2 0)) = some (some .recv, [97]) by
        decide +kernel)
  obtain ⟨hworker, hreceived⟩ := Prod.mk.inj heval
  obtain ⟨w, hw, hpoint⟩ := Option.map_eq_some_iff.1 hworker
  have hrun := Machine.Run.of_execGuarded hexec
  obtain ⟨hrecv, -, hcalls, -⟩ := receive_loop_bounded hrun hw
  exact ⟨acts, outs, s, w, hrun, hw, hpoint, hreceived, hrecv hpoint, hcalls⟩

/-! ### The count behind the loop -/

/-- Behind the loop the count is what was received, and one less when a `recv` failed. -/
def Worker.Tallied (actions : List Action) (received : List UInt8) (w : Worker) : Prop :=
  if .recv none ∈ actions then w.point.Late ∧ w.totalBytesRead = received.length - 1
  else w.point.Late → w.totalBytesRead = received.length

theorem Worker.Tallied.not_mem {actions : List Action} (hw : w.Tallied actions received)
    (hearly : ¬ w.point.Late) : .recv none ∉ actions := by
  intro hmem
  unfold Worker.Tallied at hw
  rw [if_pos hmem] at hw
  exact hearly hw.1

theorem tallied_of_count {actions : List Action} (hnone : .recv none ∉ actions)
    (htotal : w.totalBytesRead = received.length) : w.Tallied actions received := by
  unfold Worker.Tallied
  rw [if_neg hnone]
  exact fun _ => htotal

theorem early_tallied {actions : List Action} (h : s.Takes k s' i w w' a)
    (hw : w.Tallied actions received) (hheard : w.Heard received) (hearly : ¬ a.point.Late) :
    w'.Tallied (actions ++ [a]) (received ++ a.heard) := by
  have hpoint := h.point
  rw [← hpoint] at hearly
  have hnone := hw.not_mem hearly
  have htotal := hheard.count hearly
  cases a with
  | malloc granted =>
    have hstep := h.local_step h.step
    refine tallied_of_count (by simpa using hnone) ?_
    simp only [Action.heard, List.append_nil]
    cases granted with
    | true => rw [← Option.some.inj hstep, htotal]
    | false => rw [← Option.some.inj hstep, htotal]
  | checkRunning =>
    have hstep : some (w.goto _) = some w' := h.local_step h.step
    refine tallied_of_count (by simpa using hnone) ?_
    simp only [Action.heard, List.append_nil]
    rw [← Option.some.inj hstep]
    exact htotal
  | recv got =>
    have hstep : w.receive got = some w' := h.local_step h.step
    cases got with
    | none =>
      obtain rfl := Option.some.inj hstep
      have hroom := hheard.room
      unfold Worker.Tallied
      rw [if_pos (by simp)]
      refine ⟨(by decide : Point.Late .lockOpen), ?_⟩
      simp only [Action.heard, List.append_nil]
      rw [htotal]
      exact toInt_of_range (by omega) (by simp only [BUFFERSIZE] at *; omega)
    | some xs =>
      exact tallied_of_count (by simpa using hnone) (receive_loaded hheard hpoint hstep).1.total
  | realloc tail => exact absurd hpoint hheard.small
  | _ => exact absurd (by rw [hpoint]; simp [Action.point, Point.Late]) hearly

theorem kept_tallied : Kept k Worker.Tallied := by
  intro actions received s s' i w w' a h hw hheard
  by_cases hlate : a.point.Late
  · have hin : w.SameInput w' := by
      rcases h.moves.input with hstep | hin
      · exact Worker.step_sameInput h.point hlate hstep
      · exact hin
    have hne : a ≠ .recv none := by
      rintro rfl
      exact absurd hlate (by decide)
    have hmem : .recv none ∈ actions ++ [a] ↔ .recv none ∈ actions := by
      rw [List.mem_append, List.mem_singleton]
      exact or_iff_left (Ne.symm hne)
    unfold Worker.Tallied at *
    rw [Action.heard_of_late hlate, List.append_nil, hin.totalBytesRead]
    by_cases hnone : .recv none ∈ actions
    · rw [if_pos (hmem.2 hnone)]
      rw [if_pos hnone] at hw
      exact ⟨hin.late.next h.moves.next, hw.2⟩
    · rw [if_neg (mt hmem.1 hnone)]
      rw [if_neg hnone] at hw
      exact fun _ => hw hin.late
  · exact early_tallied h hw hheard hlate

theorem run_tallied (hrun : (serverMachine k).Run guard .init acts outs s)
    (hw : s.workers[i]? = some w) : w.Tallied (actionsOf acts i) (receivedOn outs i) :=
  run_worker (fun _ _ => rfl) kept_tallied hrun hw

/-- With a count below what was received, something else is written. -/
theorem writeData_ne_of_short (hroom : received.length < BUFFERSIZE)
    (hshort : w.totalBytesRead = received.length - 1) : w.writeData k ≠ some received := by
  intro hdata
  obtain ⟨hrange, hdata⟩ := Option.ite_none_right_eq_some.1 hdata
  obtain ⟨b, -, hdata⟩ := Option.bind_eq_some_iff.1 hdata
  obtain ⟨-, hfront⟩ := Option.ite_some_none_eq_some.1 hdata
  rw [hshort] at hrange hfront
  cases received with
  | nil => exact absurd hrange (by decide)
  | cons x xs =>
    have hlen := congrArg List.length hfront
    have hcount : toSize (((x :: xs).length : ℤ) - 1) = xs.length := by
      rw [List.length_cons] at *
      rw [show (((xs.length + 1 : ℕ) : ℤ) - 1) = xs.length by push_cast; ring]
      exact toSize_natCast (by simp only [BUFFERSIZE] at hroom; omega)
    rw [hcount, List.length_append, List.length_take, List.length_replicate,
      List.length_cons] at hlen
    omega

/-- **What is received is what is written, unless a `recv` failed**: behind the receive loop the count
is the number of bytes received, and they are what `write` is given, exactly when no `recv` of this
thread returned `-1`. -/
theorem received_is_written_iff (hrun : (serverMachine k).Run guard .init acts outs s)
    (hw : s.workers[i]? = some w) :
    (w.point.Late →
      (w.totalBytesRead = (receivedOn outs i).length ↔ .worker i (.recv none) ∉ acts)) ∧
    (w.point = .write →
      (w.writeData k = some (receivedOn outs i) ↔ .worker i (.recv none) ∉ acts)) := by
  have htallied := run_tallied hrun hw
  have hheard := (run_heard hrun).worker i w hw
  have hholds := run_holds_buffer hrun hw
  unfold Worker.Tallied at htallied
  by_cases hnone : Label.worker i (.recv none) ∈ acts
  · rw [if_pos (mem_actionsOf.2 hnone)] at htallied
    obtain ⟨-, htotal⟩ := htallied
    refine ⟨fun _ => ?_, fun _ => ?_⟩
    · exact iff_of_false (by omega) (not_not.2 hnone)
    · exact iff_of_false (writeData_ne_of_short hheard.room htotal) (not_not.2 hnone)
  · rw [if_neg (mt mem_actionsOf.1 hnone)] at htallied
    refine ⟨fun hlate => iff_of_true (htallied hlate) hnone, fun hpoint => ?_⟩
    obtain ⟨b, hb⟩ := hholds.exists_buffer hpoint rfl
    have hloaded : w.Loaded (receivedOn outs i) :=
      ⟨hheard.bufferSize, htallied (hpoint ▸ (by decide)), b, hb, hheard.buffer b hb⟩
    exact iff_of_true (hloaded.writeData_eq (Nat.le_of_lt hheard.room) k).1 hnone

theorem received_is_written_two_pieces : ∃ (acts : List Label) (outs : List Event) (s : Server)
    (w : Worker),
    (serverMachine .x86).Run (fun _ _ => True) .init acts outs s ∧ s.workers[0]? = some w ∧
      receivedOn outs 0 = [97, 10] ∧ w.totalBytesRead = (receivedOn outs 0).length ∧
      w.writeData .x86 = some (receivedOn outs 0) := by
  set acts : List Label := acceptOne ++ receiving 0 [some [97], some [10]] ++
    [.lockOpen, .open .device, .unlockOpen, .dispatch, .lockWrite].map (.worker 0)
  obtain ⟨⟨s, outs⟩, hexec, heval⟩ := Option.map_eq_some_iff.1
    (show ((serverMachine .x86).execGuarded (fun _ _ => True) .init acts).map
      (fun r => (r.1.workers[0]?.map (·.point), receivedOn r.2 0)) = some (some .write, [97, 10]) by
        decide +kernel)
  obtain ⟨hworker, hreceived⟩ := Prod.mk.inj heval
  obtain ⟨w, hw, hpoint⟩ := Option.map_eq_some_iff.1 hworker
  have hrun := Machine.Run.of_execGuarded hexec
  have hnone : Label.worker 0 (.recv none) ∉ acts := by decide +kernel
  obtain ⟨htotal, hwrite⟩ := received_is_written_iff hrun hw
  exact ⟨acts, outs, s, w, hrun, hw, hreceived, (htotal (by rw [hpoint]; decide)).2 hnone,
    (hwrite hpoint).2 hnone⟩

/-- One byte arrives, then `recv` fails: nothing is written. -/
theorem last_byte_not_written : ¬ ∀ (acts : List Label) (outs : List Event) (s : Server) (i : ℕ)
    (w : Worker),
    (serverMachine .x86).Run (fun _ _ => True) .init acts outs s → s.workers[i]? = some w →
      w.point = .write → w.totalBytesRead = (receivedOn outs i).length ∧
        w.writeData .x86 = some (receivedOn outs i) := by
  intro h
  obtain ⟨⟨s, outs⟩, hexec, heval⟩ := Option.map_eq_some_iff.1
    (show ((serverMachine .x86).execGuarded (fun _ _ => True) .init
      (acceptOne ++ receiving 0 [some [97], none] ++
        [.lockOpen, .open .device, .unlockOpen, .dispatch, .lockWrite].map (.worker 0))).map
          (fun r => (r.1.workers[0]?.map fun w => (w.point, w.totalBytesRead), receivedOn r.2 0)) =
        some (some (.write, 0), [97]) by decide +kernel)
  obtain ⟨hworker, hreceived⟩ := Prod.mk.inj heval
  obtain ⟨w, hw, hstate⟩ := Option.map_eq_some_iff.1 hworker
  obtain ⟨hpoint, htotal⟩ := Prod.mk.inj hstate
  obtain ⟨hcount, -⟩ := h _ outs s 0 w (Machine.Run.of_execGuarded hexec) hw hpoint
  rw [htotal, hreceived] at hcount
  exact absurd hcount (by decide)

end AesdChar
