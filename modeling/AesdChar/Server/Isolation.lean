import AesdChar.Driver.View
import AesdChar.Server.Receiving

/-!
# Whose bytes a command holds

A worker writes the front of what its connection sent, whatever made it leave the receive loop. The
device appends that to the one pending entry it has. As long as no worker writes data without a
newline, the pending entry is empty whenever it can still become a command, so every command is what
a single connection sent (`commands_from_one_connection`). A client that disconnects in the middle of
a line breaks this: its bytes become the start of the next command (`commands_from_two_connections`).
-/

namespace AesdChar
open CInt CString BlockHeap Lines

variable {k : KernelLimits} {s s' : Server} {l : Label} {o : Event} {i : ℕ} {a : Action}
  {w w' : Worker} {outs : List Event} {received data : List UInt8} {v : View}

/-! ### What a worker writes -/

theorem Worker.Heard.writeData_front (hw : w.Heard received) (h : w.writeData k = some data) :
    data <+: received := by
  obtain ⟨hcount, h⟩ := Option.ite_none_right_eq_some.1 h
  obtain ⟨b, hb, h⟩ := Option.bind_eq_some_iff.1 h
  obtain ⟨hin, rfl⟩ := Option.ite_some_none_eq_some.1 h
  obtain ⟨-, hbytes⟩ := hw.buffer b hb
  obtain ⟨hlo, hhi⟩ := hw.range
  have hroom := hw.room
  have hnonneg : 0 ≤ w.totalBytesRead := by
    by_contra hneg
    have := toSize_of_neg (x := w.totalBytesRead) (by omega) (by omega)
    omega
  have hsize : toSize w.totalBytesRead ≤ received.length := by
    rw [toSize_of_range hnonneg (by simp only [BUFFERSIZE] at hroom; omega)]
    omega
  rw [hbytes, Nat.sub_eq_zero_of_le (by omega), List.replicate_zero, List.append_nil]
  exact List.take_prefix _ _

/-! ### Isolation -/

/-- The worker that writes, and what the kernel decides then. -/
def Label.writeCall : Label → Option (ℕ × WriteEnv)
  | .worker i (.write env) => some (i, env)
  | _ => none

/-- A write to the device that succeeds has nothing to write, or a newline in it. -/
def TerminatedWrites (k : KernelLimits) (s : Server) (l : Label) : Prop :=
  ∀ p ∈ l.writeCall, ∀ w ∈ s.workers[p.1]?, ∀ data ∈ w.writeData k,
    w.fileFd = .device → s.device.driver.WriteSucceeds k data p.2 → data = [] ∨ newline ∈ data

instance (k : KernelLimits) (s : Server) (l : Label) : Decidable (TerminatedWrites k s l) :=
  inferInstanceAs (Decidable (∀ p ∈ l.writeCall, _))

theorem Server.Moves.log (hv : s.device.Represents k v) (h : s.Moves k s' i w w' a) :
    ∃ v', s'.device.Represents k v' ∧ (v'.log = v.log ∨ ∃ data env, a = .write env ∧
      w.fileFd = .device ∧ w.writeData k = some data ∧ s.device.driver.WriteSucceeds k data env ∧
        v'.log = v.log.append data) := by
  rcases h.device with hsame | ⟨c, r, hc, hstep, hwrite⟩
  · exact ⟨v, hsame ▸ hv, Or.inl rfl⟩
  obtain ⟨t, ht, hrep, -⟩ := step_refines hv i hc
  obtain ⟨rfl, -⟩ : t = s'.device ∧ _ := by simpa [ht] using hstep
  refine ⟨_, hrep, ?_⟩
  cases c with
  | write data env =>
    obtain ⟨ha, hfd, hdata⟩ := hwrite data env rfl
    by_cases hok : s.device.driver.WriteSucceeds k data env
    · refine Or.inr ⟨data, env, ha, hfd, hdata, hok, ?_⟩
      rw [View.call, View.write_of_succeeds hv.driver hc hok, View.append]
    · left
      rw [View.call, View.write_of_fails hv.driver hc hok]
  | _ => exact Or.inl rfl

/-- Nothing is pending that could still become a command, and every command is the front of what was
received on one connection. -/
structure Isolated (k : KernelLimits) (s : Server) (outs : List Event) (v : View) : Prop where
  represents : s.device.Represents k v
  pending : v.log.pending = [] ∨ newline ∈ v.log.pending
  lines : ∀ line ∈ v.log.lines, ∃ i, line <+: receivedOn outs i

theorem isolated_init (k : KernelLimits) : Isolated k .init [] .init where
  represents := System.represents_init
  pending := Or.inl rfl
  lines := by simp [View.init, LineLog.empty]

theorem Isolated.of_log_eq {v' : View} (h : Isolated k s outs v) (hv' : s'.device.Represents k v')
    (hlog : v'.log = v.log) : Isolated k s' (outs ++ [o]) v' := by
  refine ⟨hv', hlog ▸ h.pending, fun line hline => ?_⟩
  obtain ⟨i, hi⟩ := h.lines line (hlog ▸ hline)
  exact ⟨i, hi.trans (receivedOn_grows outs o i)⟩

/-- Appending data with a newline: it is a command of its own, or no command ever. -/
theorem Isolated.append {v' : View} (h : Isolated k s outs v) (hv' : s'.device.Represents k v')
    (hlog : v'.log = v.log.append data) (hdata : data <+: receivedOn outs i)
    (hnl : newline ∈ data) : Isolated k s' (outs ++ [o]) v' := by
  have hlines : ∀ line ∈ v.log.lines ++ [data], ∃ i, line <+: receivedOn (outs ++ [o]) i := by
    intro line hline
    rcases List.mem_append.1 hline with hline | hline
    · obtain ⟨j, hj⟩ := h.lines line hline
      exact ⟨j, hj.trans (receivedOn_grows outs o j)⟩
    · rw [List.mem_singleton.1 hline]
      exact ⟨i, hdata.trans (receivedOn_grows outs o i)⟩
  by_cases hline : IsLine isNewline (v.log.pending ++ data)
  · have hnil : v.log.pending = [] := by
      refine h.pending.resolve_right fun hmem => ?_
      exact not_isLine_append v.log.unfinished hmem (by simp [isNewline]) hline
    obtain ⟨hnew, hpend⟩ := LineLog.append_of_isLine hline
    refine ⟨hv', Or.inl (hlog ▸ hpend), fun line hmem => ?_⟩
    rw [hlog, hnew, hnil, List.nil_append] at hmem
    exact hlines line (List.rtake_suffix.subset hmem)
  · obtain ⟨hnew, hpend⟩ := LineLog.append_of_not_isLine hline
    refine ⟨hv', Or.inr ?_, fun line hmem => ?_⟩
    · rw [hlog, hpend]
      exact List.mem_append_right _ hnl
    · rw [hlog, hnew] at hmem
      exact hlines line (List.mem_append_left _ hmem)

theorem step_isolated (hheard : s.Heard outs) (hs : Isolated k s outs v)
    (hguard : TerminatedWrites k s l) (h : s.step k l = some (s', o)) :
    ∃ v', Isolated k s' (outs ++ [o]) v' := by
  rcases Server.step_cases h with ⟨a, -, hpoint, hstep, -⟩ | ⟨i, a, w, rfl, -, hw, hpoint, hstep, -⟩ |
    ⟨-, rfl, -⟩ | ⟨-, rfl, -⟩
  · exact ⟨v, hs.of_log_eq ((mainStep_moves hpoint hstep).device ▸ hs.represents) rfl⟩
  · obtain ⟨w', hmoves⟩ := workerStep_moves hpoint hstep
    obtain ⟨v', hv', hsame | ⟨data, env, rfl, hfd, hdata, hok, hlog⟩⟩ := hmoves.log hs.represents
    · exact ⟨v', hs.of_log_eq hv' hsame⟩
    · rcases hguard (i, env) rfl w hw data hdata hfd hok with rfl | hnl
      · exact ⟨v', hs.of_log_eq hv' (by rw [hlog, LineLog.append_nil])⟩
      · exact ⟨v', hs.append hv' hlog ((hheard.worker i w hw).writeData_front hdata) hnl⟩
  · exact ⟨v, hs.of_log_eq hs.represents rfl⟩
  · exact ⟨v, hs.of_log_eq hs.represents rfl⟩

/-- **Connections stay isolated** as long as no worker stores data without a newline: after every
such run, whatever else fails in it, every command is the front of what one connection sent. -/
theorem commands_from_one_connection {acts : List Label}
    (hrun : (serverMachine k).Run (TerminatedWrites k) .init acts outs s) :
    ∃ cmds, s.device.driver.commands = some cmds ∧
      ∀ cmd ∈ cmds, ∃ i, cmd <+: receivedOn outs i := by
  have hall : s.Heard outs ∧ ∃ v, Isolated k s outs v := by
    refine hrun.invariant (I := fun _ outs s => s.Heard outs ∧ ∃ v, Isolated k s outs v)
      ⟨heard_init, .init, isolated_init k⟩ ?_
    rintro - outs s l s' o ⟨hheard, v, hs⟩ hguard hstep
    exact ⟨step_heard_all hheard hstep, step_isolated hheard hs hguard hstep⟩
  obtain ⟨-, v, hs⟩ := hall
  exact ⟨v.log.lines, hs.represents.driver.commands, hs.lines⟩

/-! ### Two connections -/

theorem commands_from_one_connection_interleaved : ∃ acts outs s,
    (serverMachine .x86).Run (TerminatedWrites .x86) .init acts outs s ∧
      s.device.driver.commands = some [[99, 10], [97, 98, 10]] ∧
      ∃ cmds, s.device.driver.commands = some cmds ∧
        ∀ cmd ∈ cmds, ∃ i, cmd <+: receivedOn outs i := by
  obtain ⟨⟨s, outs⟩, hexec, hcmds⟩ := Option.map_eq_some_iff.1
    (show ((serverMachine .x86).execGuarded (TerminatedWrites .x86) .init
      (acceptOne ++ acceptOne ++ receiving 0 [some [97]] ++ receiving 1 [some [99, 10]] ++ writing 1 ++
        answering 1 [2] ++ [.worker 0 .checkRunning, .worker 0 (.recv (some [98, 10]))] ++
        writing 0)).map (fun r => r.1.device.driver.commands) = some (some [[99, 10], [97, 98, 10]]) by
      decide +kernel)
  have hrun := Machine.Run.of_execGuarded hexec
  exact ⟨_, outs, s, hrun, hcmds, commands_from_one_connection hrun⟩

/-- One client sends `a` and disconnects, the next one sends a line: both are in the command. -/
theorem commands_from_two_connections :
    ¬ ∀ acts outs s, (serverMachine .x86).Run (fun _ _ => True) .init acts outs s →
      ∀ cmds, s.device.driver.commands = some cmds →
        ∀ cmd ∈ cmds, ∃ i, cmd ⊆ receivedOn outs i := by
  intro h
  obtain ⟨⟨s, outs⟩, hexec, heval⟩ := Option.map_eq_some_iff.1
    (show ((serverMachine .x86).execGuarded (fun _ _ => True) .init
      (acceptOne ++ acceptOne ++ receiving 0 [some [97], some []] ++ writing 0 ++ answering 0 [] ++
        receiving 1 [some [98, 10]] ++ writing 1)).map (fun r => (r.1.device.driver.commands,
          receivedOn r.2 0, receivedOn r.2 1, r.1.workers.length)) =
        some (some [[97, 98, 10]], [97], [98, 10], 2) by decide +kernel)
  have hrun := Machine.Run.of_execGuarded hexec
  obtain ⟨hcmds, hzero, hone, hlen⟩ : s.device.driver.commands = some [[97, 98, 10]] ∧
      receivedOn outs 0 = [97] ∧ receivedOn outs 1 = [98, 10] ∧ s.workers.length = 2 := by
    simpa using heval
  obtain ⟨i, hi⟩ := h _ outs s hrun _ hcmds [97, 98, 10] (by simp)
  rcases i with _ | _ | i
  · rw [hzero] at hi
    exact absurd hi (by decide)
  · rw [hone] at hi
    exact absurd hi (by decide)
  · rw [((run_heard hrun).silent (i + 2) (by omega)).1] at hi
    exact absurd hi (by decide)

end AesdChar
