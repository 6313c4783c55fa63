import AesdChar.Driver.Ownership
import AesdChar.FileBuild.Appending

/-!
# Packets in the data file

A worker of the file build appends each piece that `recv` gives, and `list_mutex` is free in between.
The lines of the timer are whole in the file, because each is one `fwrite`. The packet of a client is
one run of bytes exactly if no other thread's `fwrite` comes between two of its worker's
(`packets_whole_iff`), so always when it arrived in one piece. A packet in two pieces can have the packet
of another client inside it (`packet_torn_apart`).
-/

namespace AesdChar
open CInt CString Contiguous Lines

variable {s s' : FileServer} {l : FileLabel} {o : Event} {i : ℕ} {t : FileThread}
  {file : Option (List UInt8)} {acts : List FileLabel} {outs : List Event}
  {guard : FileServer → FileLabel → Prop}

/-! ### What was received -/

theorem step_received (hs : s.connections.Sockets) (h : s.step l = some (s', o)) (i : ℕ) :
    receivedOn [o] i = (l.produced (.worker i)).flatten := by
  rcases FileServer.step_cases h with ⟨b, t, rfl, -, -, -, rfl⟩ | ⟨rfl, -, -, -, rfl⟩ |
    ⟨j, a, w, rfl, hw, -, rfl⟩ | ⟨b, rfl, -, rfl⟩ | ⟨rfl, -, rfl⟩ | ⟨rfl, -, rfl⟩
  · rfl
  · rfl
  · have hsocket := file_socket hs hw
    have hproduced :
        (FileLabel.worker j a).produced (.worker i) = if j = i then a.produced else [] := rfl
    rw [hproduced]
    cases a with
    | recv received =>
      cases received with
      | none => simp [FileServer.event, receivedOn, FileAction.produced]
      | some xs =>
        simp only [FileServer.event, receivedOn, FileAction.produced, List.flatMap_singleton, hsocket]
        by_cases hij : j = i <;> by_cases hxs : xs = [] <;> simp [hij, hxs]
    | send sent =>
      cases sent with
      | none => simp [FileServer.event, receivedOn, FileAction.produced]
      | some n =>
        simp only [FileServer.event]
        split <;> simp [receivedOn, FileAction.produced]
    | sendBeyond sent =>
      simp only [FileServer.event]
      split <;> simp [receivedOn, FileAction.produced]
    | _ => simp [FileServer.event, receivedOn, FileAction.produced]
  · rfl
  · rfl
  · rfl

theorem run_received (hrun : fileMachine.Run guard (.init file) acts outs s) (i : ℕ) :
    (producedBy acts (.worker i)).flatten = receivedOn outs i := by
  unfold producedBy
  induction hrun with
  | nil => rfl
  | snoc hrun _ hstep ih =>
    rw [List.flatMap_append, List.flatten_append, ih, List.flatMap_singleton,
      ← step_received (run_file_sockets hrun) hstep]
    unfold receivedOn
    rw [List.flatMap_append]

theorem producedBy_ne_nil {xs : List UInt8} (h : xs ∈ producedBy acts t) : xs ≠ [] := by
  obtain ⟨l, -, hxs⟩ := List.mem_flatMap.1 h
  cases t with
  | timer =>
    cases l with
    | timer a =>
      cases a with
      | usleep outtext =>
        obtain rfl := List.mem_singleton.1 hxs
        simp [timestamp]
      | _ => cases hxs
    | _ => cases hxs
  | worker i =>
    cases l with
    | worker j a =>
      have hproduced :
          (FileLabel.worker j a).produced (.worker i) = if j = i then a.produced else [] := rfl
      rw [hproduced] at hxs
      split at hxs
      · cases a with
        | recv received =>
          cases received with
          | none => cases hxs
          | some ys =>
            simp only [FileAction.produced] at hxs
            split at hxs
            · cases hxs
            · rename_i hne
              obtain rfl := List.mem_singleton.1 hxs
              exact hne
        | _ => cases hxs
      · cases hxs
    | _ => cases hxs

theorem fileBlocks_ne_nil (hrun : fileMachine.Run FileServer.Reliable (.init file) acts outs s) :
    ∀ b ∈ fileBlocks file acts, b.2 ≠ [] := by
  rintro ⟨t, xs⟩ hb
  have hmem : xs ∈ blocksOf t (fileBlocks file acts) := by
    unfold blocksOf
    exact List.mem_map.2 ⟨(t, xs), List.mem_filter.2 ⟨hb, by simp⟩, rfl⟩
  apply producedBy_ne_nil (t := t)
  rw [← run_pieces hrun t]
  exact List.mem_append_left _ hmem

/-! ### Packets -/

theorem own_eq_received (hrun : fileMachine.Run FileServer.Reliable (.init file) acts outs s)
    (hdone : s.unwritten (.worker i) = none) :
    own (.worker i) (fileBlocks file acts) = receivedOn outs i := by
  have hpieces := run_pieces hrun (.worker i)
  rw [hdone, Option.toList_none, List.append_nil] at hpieces
  unfold own
  rw [hpieces]
  exact run_received hrun i

/-- **Packets in the data file**: after every run without failures the file is what was there and what
the threads appended. Each line of the timer is one `fwrite`. What came in on connection `i` is one run
of bytes, and there once, exactly if no other thread's `fwrite` comes between two of worker `i`. -/
theorem packets_whole_iff (hrun : fileMachine.Run FileServer.Reliable (.init file) acts outs s) :
    s.disk.current = file.getD [] ++ (spread (fileBlocks file acts)).map Prod.snd ∧
    blocksOf .timer (fileBlocks file acts) ++ (s.unwritten .timer).toList = producedBy acts .timer ∧
    ∀ i, s.unwritten (.worker i) = none →
      (AppearsOnce (.worker i) (receivedOn outs i) (spread (fileBlocks file acts)) ↔
        NoneBetween (· = .worker i) ((fileBlocks file acts).map Prod.fst)) := by
  refine ⟨?_, run_pieces hrun .timer, fun i hdone => ?_⟩
  · rw [map_snd_spread]
    exact (run_holding (fun _ _ hg => hg.1) hrun).contents
  · rw [← own_eq_received hrun hdone]
    exact appearsOnce_own_iff (fileBlocks_ne_nil hrun)

theorem packets_whole_iff_two_pieces : ∃ (acts : List FileLabel) (outs : List Event) (s : FileServer),
    fileMachine.Run FileServer.Reliable (.init none) acts outs s ∧ receivedOn outs 0 = [97, 98, 10] ∧
      s.disk.current = [97, 98, 10] ++ timestamp [49] ∧
      AppearsOnce (.worker 0) (receivedOn outs 0) (spread (fileBlocks none acts)) := by
  set acts : List FileLabel := accepting ++ [.worker 0 (.malloc true)] ++ receivingPiece 0 [97] ++
    workerMoving 0 1 ++ [.worker 0 .strchr] ++ receivingPiece 0 [98, 10] ++ workerMoving 0 2 ++ timing [49]
  obtain ⟨⟨s, outs⟩, hexec, heval⟩ := Option.map_eq_some_iff.1
    (show (fileMachine.execGuarded FileServer.Reliable (.init none) acts).map (fun r =>
      (r.1.disk.current, receivedOn r.2 0, r.1.unwritten (.worker 0))) =
        some ([97, 98, 10] ++ timestamp [49], [97, 98, 10], none) by decide +kernel)
  obtain ⟨hcurrent, hrest⟩ := Prod.mk.inj heval
  obtain ⟨hreceived, hdone⟩ := Prod.mk.inj hrest
  have hrun := Machine.Run.of_execGuarded hexec
  have horder : (fileBlocks none acts).map Prod.fst = [.worker 0, .worker 0, .timer] := by decide +kernel
  refine ⟨acts, outs, s, hrun, hreceived, hcurrent, ((packets_whole_iff hrun).2.2 0 hdone).2 ?_⟩
  rw [horder]
  exact Together.noneBetween ⟨[], [.worker 0, .worker 0], [.timer], rfl, by simp, by simp⟩

/-- Two clients, each with one packet: the first one's arrives in two pieces, and the second one's is
appended in between. -/
theorem packet_torn_apart : ¬ ∀ (acts : List FileLabel) (outs : List Event) (s : FileServer),
    fileMachine.Run FileServer.Reliable (.init none) acts outs s →
      (∀ i < s.workers.length, IsLine isNewline (receivedOn outs i) ∧ s.unwritten (.worker i) = none) →
        ∀ i < s.workers.length,
          AppearsOnce (.worker i) (receivedOn outs i) (spread (fileBlocks none acts)) := by
  intro h
  set acts : List FileLabel := accepting ++ accepting ++
    [.worker 0 (.malloc true), .worker 1 (.malloc true)] ++ receivingPiece 0 [97] ++ workerMoving 0 1 ++
      receivingPiece 1 [120, 10] ++ workerMoving 1 2 ++ [.worker 0 .strchr] ++
        receivingPiece 0 [98, 10] ++ workerMoving 0 2
  obtain ⟨⟨s, outs⟩, hexec, heval⟩ := Option.map_eq_some_iff.1
    (show (fileMachine.execGuarded FileServer.Reliable (.init none) acts).map (fun r =>
      (r.1.workers.length, (receivedOn r.2 0, r.1.unwritten (.worker 0)), receivedOn r.2 1,
        r.1.unwritten (.worker 1))) = some (2, ([97, 98, 10], none), [120, 10], none) by decide +kernel)
  obtain ⟨hlen, hclients⟩ := Prod.mk.inj heval
  obtain ⟨hfirst, hsecond⟩ := Prod.mk.inj hclients
  obtain ⟨hreceived, hdone⟩ := Prod.mk.inj hfirst
  obtain ⟨hreceived', hdone'⟩ := Prod.mk.inj hsecond
  have hall : ∀ i < s.workers.length, IsLine isNewline (receivedOn outs i) ∧
      s.unwritten (.worker i) = none := by
    intro i hi
    rw [show s.workers.length = 2 from hlen] at hi
    obtain rfl | rfl : i = 0 ∨ i = 1 := by omega
    · exact ⟨(show receivedOn outs 0 = _ from hreceived) ▸ by decide, hdone⟩
    · exact ⟨(show receivedOn outs 1 = _ from hreceived') ▸ by decide, hdone'⟩
  obtain ⟨pre, post, heq, -⟩ := h acts outs s (Machine.Run.of_execGuarded hexec) hall 0 (by
    rw [show s.workers.length = 2 from hlen]
    decide)
  have hbytes : spread (fileBlocks none acts) = [(.worker 0, 97), (.worker 1, 120), (.worker 1, 10),
      (.worker 0, 98), (.worker 0, 10)] := by decide +kernel
  rw [hbytes, show receivedOn outs 0 = _ from hreceived] at heq
  have hinfix : [97, 98, 10].map (Prod.mk (FileThread.worker 0)) <:+: [(.worker 0, (97 : UInt8)),
      (.worker 1, 120), (.worker 1, 10), (.worker 0, 98), (.worker 0, 10)] := ⟨pre, post, heq.symm⟩
  exact absurd hinfix (by decide)

end AesdChar
