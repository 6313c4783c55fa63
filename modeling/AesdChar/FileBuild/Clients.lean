import AesdChar.FileBuild.Threads
import AesdChar.Server.Loop

/-!
# Whose socket a reply goes to

Worker `i` is started for connection `i` in both builds. In the device build it sends on the socket in
its node. In the file build it sends on `client_socket`, where the accept loop puts every socket it
accepts: the reply goes to the right client exactly as long as `accept` has not been called again
when the worker sends (`replies_reach_their_client_iff`). With a second client in between, the first
one's reply goes to the second (`reply_to_another_client`).
-/

namespace AesdChar

variable {k : KernelLimits} {s s' : FileServer} {l : FileLabel} {o : Event} {i : ℕ}
  {file : Option (List UInt8)} {acts : List FileLabel} {outs : List Event}
  {guard : FileServer → FileLabel → Prop}

/-- The worker that sends, and the socket it sends on. -/
def Server.sends (s : Server) : Label → List (ℕ × ℕ)
  | .worker i (.seekSend _) | .worker i (.send _) => s.workers[i]?.toList.map fun w => (i, w.clientSocket)
  | _ => []

/-! ### The calls of `accept` -/

/-- The call of `accept` in a step, and whether it gave a socket. -/
def FileLabel.accepts : FileLabel → List Bool
  | .main (.accept accepted) => [accepted]
  | _ => []

/-- The calls of `accept` so far. -/
def acceptsOf (acts : List FileLabel) : List Bool := acts.flatMap (·.accepts)

/-- The last call of `accept` gave connection `i`. -/
def IsLatest (acts : List FileLabel) (i : ℕ) : Prop :=
  (acceptsOf acts).getLast? = some true ∧ (acceptsOf acts).count true = i + 1

/-- Every worker that sends does so before `accept` is called again. -/
def SendsWhileLatest (acts : List FileLabel) : Prop :=
  ∀ acts₁ acts₂ i a, a.isSend → acts = acts₁ ++ .worker i a :: acts₂ → IsLatest acts₁ i

theorem acceptsOf_concat (acts : List FileLabel) (l : FileLabel) :
    acceptsOf (acts ++ [l]) = acceptsOf acts ++ l.accepts := by
  unfold acceptsOf
  rw [List.flatMap_append, List.flatMap_singleton]

theorem sendsWhileLatest_concat : SendsWhileLatest (acts ++ [l]) ↔
    SendsWhileLatest acts ∧ ∀ i a, a.isSend → l = .worker i a → IsLatest acts i := by
  constructor
  · intro h
    refine ⟨fun acts₁ acts₂ i a ha heq => h acts₁ (acts₂ ++ [l]) i a ha ?_, fun i a ha heq =>
      h acts [] i a ha (by rw [heq])⟩
    rw [heq, List.append_assoc, List.cons_append]
  · rintro ⟨hbefore, hlast⟩ acts₁ acts₂ i a ha heq
    rcases List.eq_nil_or_concat acts₂ with rfl | ⟨acts₃, m, rfl⟩
    · obtain ⟨rfl, hl⟩ := List.append_inj' heq rfl
      exact hlast i a ha (List.singleton_inj.1 hl)
    · rw [List.concat_eq_append, ← List.cons_append, ← List.append_assoc] at heq
      exact hbefore acts₁ acts₃ i a ha (List.append_inj' heq rfl).1

/-! ### The global variable -/

/-- `client_socket` is what the last call of `accept` gave, and connections are counted. -/
structure FileServer.FollowsAccepts (s : FileServer) (accepts : List Bool) : Prop where
  accepted : s.accepted = accepts.count true
  clientSocket : s.clientSocket =
    if accepts.getLast? = some true then some (accepts.count true - 1) else none

theorem FileServer.FollowsAccepts.eq_some_iff (hs : s.FollowsAccepts (acceptsOf acts)) :
    s.clientSocket = some i ↔ IsLatest acts i := by
  unfold IsLatest
  rw [hs.clientSocket]
  by_cases hlast : (acceptsOf acts).getLast? = some true
  · have hmem : true ∈ acceptsOf acts := List.mem_of_getLast? hlast
    have hpos : 0 < (acceptsOf acts).count true := List.count_pos_iff.2 hmem
    rw [if_pos hlast, Option.some.injEq]
    constructor
    · intro h
      exact ⟨hlast, by omega⟩
    · rintro ⟨-, h⟩
      omega
  · rw [if_neg hlast]
    exact iff_of_false (by simp) fun h => hlast h.1

theorem step_accepts (h : s.step l = some (s', o)) :
    (∃ accepted, l = .main (.accept accepted) ∧
      s'.accepted = s.accepted + accepted.toNat ∧
      s'.clientSocket = if accepted then some s.accepted else none) ∨
    (l.accepts = [] ∧ s'.accepted = s.accepted ∧ s'.clientSocket = s.clientSocket) := by
  rcases FileServer.step_cases h with ⟨b, t, rfl, -, ht, rfl, -⟩ | ⟨rfl, -, -, rfl, -⟩ |
    ⟨i, a, w, rfl, -, hworker, -⟩ | ⟨b, rfl, htimer, -⟩ | ⟨rfl, rfl, -⟩ | ⟨rfl, rfl, -⟩
  · cases b with
    | accept accepted =>
      left
      refine ⟨accepted, rfl, ?_⟩
      cases accepted <;>
      · obtain rfl := Option.some.inj ht
        exact ⟨rfl, rfl⟩
    | checkRunning | createNode granted =>
      obtain rfl := Option.some.inj ht
      exact Or.inr ⟨rfl, rfl, rfl⟩
    | spawn created =>
      right
      cases created with
      | true =>
        obtain ⟨c, -, rfl⟩ := Option.map_eq_some_iff.1 ht
        exact ⟨rfl, rfl, rfl⟩
      | false =>
        obtain rfl := Option.some.inj ht
        exact ⟨rfl, rfl, rfl⟩
    | lockCreate | unlockCreate | lockAppend | unlockAppend | lockSweep | unlockSweep =>
      obtain ⟨-, rfl⟩ := Option.ite_some_none_eq_some.1 ht
      exact Or.inr ⟨rfl, rfl, rfl⟩
  · exact Or.inr ⟨rfl, rfl, rfl⟩
  · right
    rcases FileServer.workerStep_cases hworker with ⟨-, -, d, r, w', -, -, -, -, rfl⟩ |
      ⟨w', -, rfl⟩ | ⟨-, -, -, rfl⟩ | ⟨-, -, -, rfl⟩
    · exact ⟨rfl, rfl, rfl⟩
    · exact ⟨rfl, rfl, rfl⟩
    · exact ⟨rfl, rfl, rfl⟩
    · exact ⟨rfl, rfl, rfl⟩
  · obtain ⟨d, p, rfl⟩ := FileServer.timerStep_eq htimer
    exact Or.inr ⟨rfl, rfl, rfl⟩
  · exact Or.inr ⟨rfl, rfl, rfl⟩
  · exact Or.inr ⟨rfl, rfl, rfl⟩

theorem step_followsAccepts (hs : s.FollowsAccepts (acceptsOf acts)) (h : s.step l = some (s', o)) :
    s'.FollowsAccepts (acceptsOf (acts ++ [l])) := by
  rw [acceptsOf_concat]
  rcases step_accepts h with ⟨accepted, rfl, hcount, hsocket⟩ | ⟨hnone, hcount, hsocket⟩
  · have hone : (FileLabel.main (.accept accepted)).accepts = [accepted] := rfl
    refine ⟨?_, ?_⟩
    · rw [hcount, hs.accepted, hone, List.count_append]
      cases accepted <;> rfl
    · rw [hsocket, hs.accepted, hone, List.getLast?_concat, List.count_append]
      cases accepted <;> simp
  · rw [hnone, List.append_nil]
    exact ⟨hcount.trans hs.accepted, hsocket.trans hs.clientSocket⟩

theorem run_followsAccepts (hrun : fileMachine.Run guard (.init file) acts outs s) :
    s.FollowsAccepts (acceptsOf acts) :=
  hrun.invariant (I := fun acts _ s => s.FollowsAccepts (acceptsOf acts)) ⟨rfl, rfl⟩
    fun _ _ _ _ _ _ hs _ hstep => step_followsAccepts hs hstep

/-! ### Replies -/

theorem run_sends_iff (hrun : fileMachine.Run guard (.init file) acts outs s) :
    (∀ p ∈ fileMachine.collect FileServer.sends (.init file) acts, p.2 = some p.1) ↔
      SendsWhileLatest acts := by
  induction hrun with
  | nil => exact iff_of_true (by simp [Machine.collect]) fun acts₁ acts₂ i a ha heq => by simp at heq
  | @snoc acts outs s l s' o hrun _ hstep ih =>
    rw [hrun.collect_concat _ hstep, sendsWhileLatest_concat, ← ih, List.forall_mem_append]
    apply and_congr_right
    intro _
    have hsocket : ∀ i, s.clientSocket = some i ↔ IsLatest acts i :=
      fun i => (run_followsAccepts hrun).eq_some_iff
    constructor
    · rintro h i a ha rfl
      refine (hsocket i).1 (h (i, s.clientSocket) ?_)
      rw [FileServer.sends, if_pos ha]
      exact List.mem_singleton_self _
    · intro h p hp
      cases l with
      | worker i a =>
        rw [FileServer.sends] at hp
        split at hp
        · rename_i ha
          obtain rfl := List.mem_singleton.1 hp
          exact (hsocket i).2 (h i a ha rfl)
        · cases hp
      | _ => cases hp

theorem run_device_sends {s : Server} {acts : List Label} {guard : Server → Label → Prop}
    (hrun : (serverMachine k).Run guard .init acts outs s) :
    ∀ p ∈ (serverMachine k).collect Server.sends .init acts, p.2 = p.1 := by
  induction hrun with
  | nil => simp [Machine.collect]
  | @snoc acts outs s l s' o hrun _ hstep ih =>
    rw [hrun.collect_concat _ hstep, List.forall_mem_append]
    refine ⟨ih, ?_⟩
    have hnode : ∀ i, ∀ p ∈ s.workers[i]?.toList.map fun w : Worker => (i, w.clientSocket),
        p.2 = p.1 := by
      intro i p hp
      obtain ⟨w, hw, rfl⟩ := List.mem_map.1 hp
      exact (run_heard hrun).sockets.worker i w (Option.mem_toList.1 hw)
    intro p hp
    cases l with
    | worker i a =>
      cases a with
      | seekSend sent => exact hnode i p hp
      | send sent => exact hnode i p hp
      | _ => cases hp
    | _ => cases hp

/-- **Replies reach their client**: in the device build every send of worker `i` is made on the socket
of connection `i`, in every run; in the file build this is so in exactly the runs in which no worker
sends after `accept` has been called again. -/
theorem replies_reach_their_client_iff {t : Server} {deviceActs : List Label} {deviceOuts : List Event}
    {deviceGuard : Server → Label → Prop}
    (hdevice : (serverMachine k).Run deviceGuard .init deviceActs deviceOuts t)
    (hrun : fileMachine.Run guard (.init file) acts outs s) :
    (∀ p ∈ (serverMachine k).collect Server.sends .init deviceActs, p.2 = p.1) ∧
    ((∀ p ∈ fileMachine.collect FileServer.sends (.init file) acts, p.2 = some p.1) ↔
      SendsWhileLatest acts) :=
  ⟨run_device_sends hdevice, run_sends_iff hrun⟩

theorem replies_reach_their_client_iff_one_client : ∃ (acts : List FileLabel) (outs : List Event)
    (s : FileServer), fileMachine.Run (fun _ _ => True) (.init none) acts outs s ∧
      fileMachine.collect FileServer.sends (.init none) acts = [(0, some 0)] ∧ SendsWhileLatest acts := by
  obtain ⟨⟨t, deviceOuts⟩, hdevice, -⟩ := Option.map_eq_some_iff.1
    (show ((serverMachine .x86).execGuarded (fun _ _ => True) .init
      (acceptOne ++ receiving 0 [some [97, 10]] ++ writing 0 ++ answering 0 [2])).map
        (fun r => r.1.accepted) = some 1 by decide +kernel)
  set acts : List FileLabel := accepting ++ [.worker 0 (.malloc true)] ++ receivingPiece 0 [97, 10] ++
    workerMoving 0 2 ++ [.worker 0 .strchr] ++ workerMoving 0 2 ++ [.worker 0 (.send (some 2))]
  obtain ⟨⟨s, outs⟩, hexec, -⟩ := Option.map_eq_some_iff.1
    (show (fileMachine.execGuarded (fun _ _ => True) (.init none) acts).map (fun r => r.1.accepted) =
      some 1 by decide +kernel)
  have hrun := Machine.Run.of_execGuarded hexec
  have hsends : fileMachine.collect FileServer.sends (.init none) acts = [(0, some 0)] := by
    decide +kernel
  refine ⟨acts, outs, s, hrun, hsends, ?_⟩
  refine (replies_reach_their_client_iff (Machine.Run.of_execGuarded hdevice) hrun).2.1 fun p hp => ?_
  rw [hsends, List.mem_singleton] at hp
  rw [hp]

/-- The second client connects while the first one's worker reads the file: the reply goes to the
second. -/
theorem reply_to_another_client : ¬ ∀ (acts : List FileLabel) (outs : List Event) (s : FileServer),
    fileMachine.Run (fun _ _ => True) (.init none) acts outs s →
      ∀ p ∈ fileMachine.collect FileServer.sends (.init none) acts, p.2 = some p.1 := by
  intro h
  set acts : List FileLabel := accepting ++ [.worker 0 (.malloc true)] ++ receivingPiece 0 [97, 10] ++
    workerMoving 0 2 ++ [.worker 0 .strchr] ++ accepting ++ workerMoving 0 2 ++
      [.worker 0 (.send (some 2))]
  obtain ⟨⟨s, outs⟩, hexec, -⟩ := Option.map_eq_some_iff.1
    (show (fileMachine.execGuarded (fun _ _ => True) (.init none) acts).map (fun r => r.1.accepted) =
      some 2 by decide +kernel)
  have hsends : fileMachine.collect FileServer.sends (.init none) acts = [(0, some 1)] := by
    decide +kernel
  have hwrong := h acts outs s (Machine.Run.of_execGuarded hexec) (0, some 1) (by rw [hsends]; simp)
  simp at hwrong

end AesdChar
