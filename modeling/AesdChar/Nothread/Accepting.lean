import AesdChar.Nothread.Descriptors

/-!
# When the server without threads takes connections

A lost descriptor that keeps the port makes every later `bind` fail, so `serversocket` comes no further
than that (`run_deaf`). Lost sockets without the port only take room in the table. While neither has
gone too far, a session can be brought to its end and the next `accept` succeed (`Reaches.accepts`),
and so it is exact when another connection can be taken (`accepts_again_iff`).
-/

namespace AesdChar
open CString

namespace NothreadProcess
variable {s s' : NothreadProcess} {a : ProcessAction} {o : Event} {used : List Bool}
  {acts acts' : List ProcessAction} {outs outs' : List Event} {file : Option (List UInt8)}

/-! ### The sessions -/

theorem leave_serving (s : NothreadProcess) (a : NothreadAction) : (s.leave a).serving = s.serving := by
  unfold leave
  split
  · split <;> rfl
  · rfl
  · rfl

theorem step_quiet (h : s.step a = some (s', o)) : (∃ b, a = .session b) ∨ o = .quiet := by
  cases a with
  | session b => exact Or.inl ⟨b, rfl⟩
  | _ =>
    obtain ⟨-, h⟩ := Option.ite_none_right_eq_some.1 h
    obtain ⟨t, -, heq⟩ := Option.map_eq_some_iff.1 h
    exact Or.inr (Prod.mk.inj heq).2.symm

/-- The exchange with a client. -/
def visible (outs : List Event) : List Event := outs.filter fun o => o ≠ .quiet

/-- The server without its descriptors comes to `t` as well, with the same exchange. -/
def Serves (file : Option (List UInt8)) (acts : List ProcessAction) (outs : List Event) (t : Nothread) :
    Prop :=
  ∃ outs', nothreadMachine.Run (fun _ _ => True) (.init file) (acts.flatMap ProcessAction.calls) outs' t ∧
    visible outs' = visible outs

variable {t t' : Nothread}

theorem Serves.stay (h : Serves file acts outs t) (hcalls : a.calls = []) :
    Serves file (acts ++ [a]) (outs ++ [.quiet]) t := by
  obtain ⟨outs', hrun, hvisible⟩ := h
  refine ⟨outs', ?_, ?_⟩
  · rw [List.flatMap_append, List.flatMap_singleton, hcalls, List.append_nil]
    exact hrun
  · rw [hvisible]
    simp [visible]

theorem Serves.next (h : Serves file acts outs t) {b : NothreadAction} (hstep : t.step b = some (t', o))
    (hcalls : a.calls = [b]) : Serves file (acts ++ [a]) (outs ++ [o]) t' := by
  obtain ⟨outs', hrun, hvisible⟩ := h
  refine ⟨outs' ++ [o], ?_, ?_⟩
  · rw [List.flatMap_append, List.flatMap_singleton, hcalls]
    exact hrun.snoc trivial hstep
  · unfold visible at hvisible ⊢
    rw [List.filter_append, List.filter_append, hvisible]

/-- What the process does in its sessions is a run of the server without its descriptors. -/
theorem run_serves (hrun : processMachine.Run (fun _ _ => True) (init used file) acts outs s) :
    Serves file acts outs s.serving := by
  induction hrun with
  | nil => exact ⟨[], .nil, rfl⟩
  | @snoc acts outs s a s' o _ _ hstep ih =>
    have hquiet := step_quiet hstep
    cases step_moves hstep with
    | opened =>
      obtain rfl : o = .quiet := by simpa using hquiet
      exact ih.stay rfl
    | promoted _ _ _ _ hcall =>
      rcases hcall with ⟨rfl, -⟩ | ⟨rfl, -⟩
      · obtain rfl : o = .quiet := by simpa using hquiet
        exact ih.stay rfl
      · obtain rfl : o = .quiet := by simpa using hquiet
        exact ih.stay rfl
    | accepted _ _ hconnect =>
      obtain rfl : o = .quiet := by simpa using hquiet
      exact ih.next hconnect rfl
    | failed hat _ hcalls hserving =>
      rcases hquiet with ⟨b, rfl⟩ | rfl
      · obtain rfl : b = .connect false := by simpa [ProcessAction.calls] using hcalls
        cases hstep
      · have hconnect : s.serving.step (.connect false) = some (s.serving, .quiet) :=
          Nothread.step_of_next (congrArg some hat.1.symm) rfl
        rw [hserving]
        exact ih.next hconnect hcalls
    | served _ hserved =>
      obtain ⟨-, t, ht, -⟩ := step_session hstep
      obtain ⟨rfl, rfl⟩ := Prod.mk.inj (Option.some.inj (hserved.symm.trans ht))
      rw [leave_serving]
      exact ih.next ht rfl

/-- In a session the buffer is there, and behind a piece that came there is room for a NUL. -/
def Buffered (s : Nothread) : Prop :=
  match s.point with
  | .connect | .malloc | .exited => True
  | .recv | .readfile | .send => ∃ b, s.buffer = some b ∧ b.size = BUFFERSIZE
  | .writefile | .strchr => ∃ b, s.buffer = some b ∧ b.size = BUFFERSIZE ∧ b.bytes.length < BUFFERSIZE

theorem serves_buffered {calls : List NothreadAction}
    (hrun : nothreadMachine.Run (fun _ _ => True) (.init file) calls outs t) : Buffered t := by
  refine hrun.invariant (I := fun _ _ t => Buffered t) (show Buffered (.init file) from trivial) ?_
  rintro - - t b t' o ht - hstep
  obtain ⟨-, hpoint, hnext, -⟩ := Nothread.step_cases hstep
  unfold Buffered at ht
  cases hnext with
  | refused =>
    unfold Buffered
    rw [hpoint _ rfl]
    trivial
  | connected | noMemory | lost | ended | notSent | sigpipe | signal => trivial
  | granted => exact ⟨_, rfl, rfl⟩
  | @received xs b hne hlen hput =>
    obtain ⟨hsize, hbytes⟩ := carries_zeroed.put hput
    refine ⟨b, rfl, hsize, ?_⟩
    rw [hbytes]
    have : 0 < BUFFERSIZE := by decide
    omega
  | notWritten | written | notRead | sent | sentBeyond =>
    rw [hpoint _ rfl] at ht
    exact ht
  | found =>
    rw [hpoint _ rfl] at ht
    obtain ⟨b, hb, -⟩ := ht
    refine ⟨.zeroed BUFFERSIZE, ?_, rfl⟩
    show t.buffer.map _ = _
    rw [hb, Option.map_some]
  | notFound =>
    rw [hpoint _ rfl] at ht
    obtain ⟨b, hb, hsize, -⟩ := ht
    exact ⟨b, hb, hsize⟩
  | @loaded n b b' contents _ hb hput =>
    rw [hpoint _ rfl] at ht
    obtain ⟨c, hc, hsize⟩ := ht
    obtain rfl := Option.some.inj (hb.symm.trans hc)
    exact ⟨b', rfl, (Buffer.put_front hput).1.trans hsize⟩

/-! ### Signals, and the port -/

theorem Moves.alive (h : Moves s a s') : s.serving.point ≠ .exited := by
  cases h with
  | opened hat _ | promoted hat | accepted hat | failed hat => simp [hat.1]
  | served _ hstep => exact (Nothread.step_cases hstep).1

theorem run_exited (hrun : processMachine.Run (fun _ _ => True) (init used file) acts outs s)
    (hsignal : ∃ a ∈ acts, a.Ends) : s.serving.point = .exited := by
  induction hrun with
  | nil => simp at hsignal
  | @snoc acts outs s a s' o _ _ hstep ih =>
    obtain ⟨b, hb, hends⟩ := hsignal
    rcases List.mem_append.1 hb with hearlier | hlast
    · exact absurd (ih ⟨b, hearlier, hends⟩) (step_moves hstep).alive
    · obtain rfl := List.mem_singleton.1 hlast
      cases b with
      | session b =>
        obtain ⟨hconnect, t, ht, rfl⟩ := step_session hstep
        obtain ⟨-, -, hnext, -⟩ := Nothread.step_cases ht
        rw [leave_serving]
        exact (hnext.session hconnect).2.1.2 hends
      | _ => exact hends.elim

theorem Moves.alive_after (h : Moves s a s') (ha : ¬ a.Ends) :
    s'.serving.point ≠ .exited := by
  cases h with
  | opened hat _ | promoted hat => simp [hat.1]
  | accepted _ _ hstep => simp [(Nothread.step_connect hstep).1]
  | failed hat _ _ hserving => simp [hserving, hat.1]
  | served hconnect hstep =>
    obtain ⟨-, -, hnext, -⟩ := Nothread.step_cases hstep
    rw [leave_serving]
    intro hexited
    exact ha ((hnext.session hconnect).2.1.1 hexited)

theorem run_alive (hrun : processMachine.Run (fun _ _ => True) (init used file) acts outs s)
    (hsignal : ∀ a ∈ acts, ¬ a.Ends) : s.serving.point ≠ .exited := by
  cases hrun with
  | nil => simp [init, Nothread.init]
  | snoc _ _ hstep =>
    rw [List.forall_mem_append, List.forall_mem_singleton] at hsignal
    exact (step_moves hstep).alive_after hsignal.2

theorem not_portFree {kind : Opened} (hport : kind.HoldsPort) (hcount : 0 < s.table.count (some kind)) :
    ¬ s.PortFree := by
  intro hfree
  exact hfree _ (List.count_pos_iff.1 hcount) kind rfl hport

/-- Once a descriptor that keeps the port is lost, `serversocket` does not come further than `bind`. -/
theorem run_deaf (hrun : processMachine.Run (fun _ _ => True) (init used file) acts outs s)
    (hsignal : ∀ a ∈ acts, ¬ a.Ends) {kind : Opened} (hport : kind.HoldsPort)
    (hlost : kind ∈ lost acts) : s.At .socket ∨ s.At .bind := by
  induction hrun with
  | nil => cases hlost
  | @snoc acts outs s a s' o hrun _ hstep ih =>
    rw [List.forall_mem_append, List.forall_mem_singleton] at hsignal
    have hsignal' : ∀ b, a = .session b → b ≠ .signal := by
      rintro b rfl rfl
      exact hsignal.2 (.inl rfl)
    have hcount := (run_ledger hrun hsignal.1).2.2 kind
    cases step_moves hstep with
    | opened hat => exact Or.inr ⟨hat.1, rfl⟩
    | failed hat _ _ hserving hsetup =>
      refine Or.inl ⟨?_, hsetup⟩
      rw [hserving]
      exact hat.1
    | promoted hat hloses _ _ hcall =>
      have hearlier : kind ∈ lost acts := by simpa [lost, hloses] using hlost
      rcases hcall with ⟨-, hfree, -⟩ | ⟨-, rfl, -⟩
      · have hpos := List.count_pos_iff.2 hearlier
        exact absurd hfree (not_portFree hport (by omega))
      · rcases ih hsignal.1 hearlier with h | h <;> cases h.2.symm.trans hat.2
    | accepted hat =>
      have hearlier : kind ∈ lost acts := by simpa [lost, ProcessAction.loses] using hlost
      rcases ih hsignal.1 hearlier with h | h <;> cases h.2.symm.trans hat.2
    | @served b t o' hconnect hserved =>
      have hserving := Nothread.serving_of_step hserved hconnect (hsignal' b rfl)
      by_cases hmalloc : b = .malloc false
      · obtain ⟨-, -, hnext, -⟩ := Nothread.step_cases hserved
        have hover := (hnext.session hconnect).2.2 hmalloc
        left
        rw [leave_over hover]
        refine ⟨?_, rfl⟩
        split <;> exact hover
      · have hearlier : kind ∈ lost acts := by simpa [lost, loses_session hmalloc] using hlost
        rcases ih hsignal.1 hearlier with h | h <;> exact absurd h.1 hserving

/-! ### When a connection can be taken -/

theorem Moves.session_eq (h : Moves s a s') : s'.serving.session = s.serving.session ∨
    s'.serving.session = s.serving.session + 1 ∧ s.At .accept ∧
      s'.inUse = [.listening, .connection] ∧ a = .accept true := by
  cases h with
  | opened | promoted => exact Or.inl rfl
  | failed _ _ _ hserving => exact Or.inl (congrArg Nothread.session hserving)
  | accepted hat _ hstep =>
    obtain ⟨hmalloc, hnext⟩ := Nothread.step_connect hstep
    refine Or.inr ⟨hnext, hat, ?_, rfl⟩
    simp [inUse, NothreadProcess.server, NothreadProcess.client, hmalloc]
  | served hconnect hstep =>
    obtain ⟨-, -, hnext, -⟩ := Nothread.step_cases hstep
    rw [leave_serving]
    exact Or.inl (hnext.session hconnect).1

/-- Nothing has happened that keeps the process from taking connections. -/
structure Able (used : List Bool) (acts : List ProcessAction) : Prop where
  unsignalled : ∀ a ∈ acts, ¬ a.Ends
  portFree : ∀ kind ∈ lost acts, ¬ kind.HoldsPort
  room : (lost acts).length + 2 ≤ used.count false

theorem able_of_accepts (hrun : processMachine.Run (fun _ _ => True) (init used file) acts outs s)
    (hrun' : processMachine.Run (fun _ _ => True) s acts' outs' s')
    (hlt : s.serving.session < s'.serving.session) : Able used acts := by
  induction hrun' with
  | nil => exact absurd hlt (lt_irrefl _)
  | @snoc acts' outs' t a t' o hrun' _ hstep ih =>
    by_cases hearlier : s.serving.session < t.serving.session
    · exact ih hearlier
    have hall := hrun.append hrun'
    rcases (step_moves hstep).session_eq with heq | ⟨-, hat, hinUse, rfl⟩
    · exact absurd (heq ▸ hlt) hearlier
    have hsignal : ∀ a ∈ acts ++ acts', ¬ a.Ends := by
      intro a ha hends
      cases (run_exited hall ⟨a, ha, hends⟩).symm.trans hat.1
    refine ⟨fun a ha => hsignal a (List.mem_append_left _ ha), fun kind hlost hport => ?_, ?_⟩
    · have hlost' : kind ∈ lost (acts ++ acts') := by
        unfold lost at hlost ⊢
        rw [List.filterMap_append]
        exact List.mem_append_left _ hlost
      rcases run_deaf hall hsignal hport hlost' with h | h <;> cases h.2.symm.trans hat.2
    · have hfree := run_free (hall.snoc trivial hstep)
        (List.forall_mem_append.2 ⟨hsignal, by simp [ProcessAction.Ends]⟩)
      rw [hinUse] at hfree
      simp only [lost, List.filterMap_append, List.length_append, List.length_cons] at hfree ⊢
      omega

/-- A process that is able to take a connection has come this far. -/
def Reaches (used : List Bool) (file : Option (List UInt8)) (s : NothreadProcess) : Prop :=
  ∃ acts outs, processMachine.Run (fun _ _ => True) (init used file) acts outs s ∧ Able used acts

/-- The actions that end a session as soon as it can end. -/
def ending : List NothreadAction :=
  [.malloc true, .recv none, .writefile none, .strchr, .readfile none, .send none]

/-- The calls that lead to the next `accept`: nothing fails that has to succeed. -/
def Towards (n : ℕ) (s : NothreadProcess) (a : ProcessAction) : Prop :=
  s.serving.session = n ∧
    (a ∈ ([.socket true, .bind true, .listen true, .accept true] : List ProcessAction) ∨
      ∃ b ∈ ending, a = .session b)

/-- How far it is to the next `accept`. -/
def distance (n : ℕ) (s : NothreadProcess) : ℕ :=
  if s.serving.session = n then
    if s.serving.point = .connect then
      match s.setup with
      | .socket => 4
      | .bind => 3
      | .listen => 2
      | .accept => 1
    else
      match s.serving.point with
      | .writefile => 8
      | .strchr => 7
      | .readfile | .malloc => 6
      | _ => 5
  else 0

theorem Towards.keeps {n : ℕ} (h : Towards n s a) :
    a.loses = none ∧ a.calls ≠ [.connect false] ∧ ¬ a.Ends := by
  obtain ⟨-, h | ⟨b, hb, rfl⟩⟩ := h
  · simp only [List.mem_cons, List.not_mem_nil, or_false] at h
    rcases h with rfl | rfl | rfl | rfl <;>
      simp [ProcessAction.loses, ProcessAction.calls, ProcessAction.Ends]
  · simp only [ending, List.mem_cons, List.not_mem_nil, or_false] at hb
    rcases hb with rfl | rfl | rfl | rfl | rfl | rfl <;>
      simp [ProcessAction.loses, ProcessAction.calls, ProcessAction.Ends, NothreadAction.Ends]

theorem Towards.distance_lt {n : ℕ} (h : Towards n s a) (hstep : s.step a = some (s', o)) :
    distance n s' < distance n s := by
  obtain ⟨hloses, hcalls, hsignal⟩ := h.keeps
  obtain ⟨hn, h⟩ := h
  cases step_moves hstep with
  | opened hat => simp [distance, hn, hat.1, hat.2]
  | promoted hat _ _ _ hcall =>
    rcases hcall with ⟨-, -, rfl, rfl⟩ | ⟨-, rfl, rfl⟩ <;> simp [distance, hn, hat.1, hat.2]
  | accepted hat _ hconnect =>
    have hnext := (Nothread.step_connect hconnect).2
    simp [distance, hn, hat.1, hat.2, hnext]
  | failed _ _ hfails => exact absurd hfails hcalls
  | @served b t o' hconnect hserved =>
    obtain ⟨halive, hpoint, hnext, -⟩ := Nothread.step_cases hserved
    have hserving := Nothread.serving_of_step hserved hconnect fun hb => hsignal (.inl hb)
    have hb : b ∈ ending := by
      rcases h with h | ⟨b', hb', heq⟩
      · simp at h
      · cases heq
        exact hb'
    obtain ⟨hsession, hexited, -⟩ := hnext.session hconnect
    have hfar : 5 ≤ distance n s := by
      unfold distance
      rw [if_pos hn, if_neg hserving]
      split <;> omega
    by_cases hover : t.point = .connect
    · have hnow : distance n ({ s with serving := t }.leave b) = 4 := by
        unfold distance
        rw [leave_serving, if_pos (hsession.trans hn), if_pos hover, leave_over hover]
        rfl
      omega
    · have halive' : t.point ≠ .exited := fun h => hsignal (hexited.1 h)
      rw [leave_on (s := { s with serving := t }) hover halive']
      unfold distance
      rw [if_pos hn, if_neg hserving, if_pos (hsession.trans hn), if_neg hover]
      simp only [ending, List.mem_cons, List.not_mem_nil, or_false] at hb
      rcases hb with rfl | rfl | rfl | rfl | rfl | rfl <;> cases hnext <;>
        first | exact absurd rfl hover | simp [Nothread.goto, hpoint _ rfl]

theorem Reaches.towards {n : ℕ} (hs : Reaches used file s) (h : Towards n s a)
    (hstep : s.step a = some (s', o)) : Reaches used file s' := by
  obtain ⟨acts, outs, hrun, hsignal, hport, hroom⟩ := hs
  obtain ⟨hloses, -, ha⟩ := h.keeps
  have hlost : lost (acts ++ [a]) = lost acts := by simp [lost, hloses]
  refine ⟨acts ++ [a], outs ++ [o], hrun.snoc trivial hstep, ?_, ?_, ?_⟩
  · rw [List.forall_mem_append, List.forall_mem_singleton]
    exact ⟨hsignal, ha⟩
  · rw [hlost]
    exact hport
  · rw [hlost]
    exact hroom

theorem session_step {b : NothreadAction} {t : Nothread} (hconnect : ∀ accepted, b ≠ .connect accepted)
    (hstep : s.serving.step b = some (t, o)) :
    s.step (.session b) = some ({ s with serving := t }.leave b, o) := by
  cases b with
  | connect accepted => exact absurd rfl (hconnect accepted)
  | _ =>
    show (s.serving.step _).map _ = _
    rw [hstep, Option.map_some]

theorem ending_possible {t : Nothread} (ht : Buffered t) (hserving : t.point ≠ .connect)
    (halive : t.point ≠ .exited) : ∃ b ∈ ending, (∀ accepted, b ≠ .connect accepted) ∧
      ∃ t' o, t.step b = some (t', o) := by
  unfold Buffered at ht
  cases hpoint : t.point with
  | connect => exact absurd hpoint hserving
  | exited => exact absurd hpoint halive
  | malloc => exact ⟨.malloc true, by simp [ending], by simp, _, _,
      Nothread.step_of_next (congrArg some hpoint.symm) rfl⟩
  | recv => exact ⟨.recv none, by simp [ending], by simp, _, _,
      Nothread.step_of_next (congrArg some hpoint.symm) rfl⟩
  | writefile => exact ⟨.writefile none, by simp [ending], by simp, _, _,
      Nothread.step_of_next (congrArg some hpoint.symm) rfl⟩
  | readfile => exact ⟨.readfile none, by simp [ending], by simp, _, _,
      Nothread.step_of_next (congrArg some hpoint.symm) rfl⟩
  | send => exact ⟨.send none, by simp [ending], by simp, _, _,
      Nothread.step_of_next (congrArg some hpoint.symm) rfl⟩
  | strchr =>
    rw [hpoint] at ht
    obtain ⟨b, hb, hsize, hroom⟩ := ht
    have htext := Buffer.cstring_of_room (b := b) (by omega)
    obtain ⟨t', hsearch⟩ : ∃ t', t.search = some t' := by
      unfold Nothread.search
      rw [hb, Option.bind_some, htext, Option.map_some]
      exact ⟨_, rfl⟩
    exact ⟨.strchr, by simp [ending], by simp, _, _,
      Nothread.step_of_next (congrArg some hpoint.symm) hsearch⟩

theorem promote_eq {old new : Opened} {next : SetupPoint} {fd : ℕ} (hfd : s.serverSocket = some fd)
    (hopen : s.table[fd]? = some (some old)) : s.promote old new next =
      some { s with table := s.table.set fd (some new), setup := next } := by
  unfold promote
  rw [hfd, Option.bind_some, if_pos hopen]

theorem Reaches.call_possible {point : SetupPoint} (hs : Reaches used file s) (hat : s.At point) :
    ∃ s', s.step point.call = some (s', .quiet) := by
  obtain ⟨acts, outs, hrun, hsignal, hport, hroom⟩ := hs
  obtain ⟨hholding, -, hcount⟩ := run_ledger hrun hsignal
  have hfree := run_free hrun hsignal
  cases point with
  | socket =>
    have hslot : 0 < s.table.count none := by
      simp only [hat.inUse, SetupPoint.server, Option.toList_none, List.length_nil] at hfree
      omega
    obtain ⟨fd, table, hplace⟩ := Slots.exists_place hslot Opened.socket
    obtain ⟨s', hs'⟩ : ∃ s', s.socket true = some s' := by
      unfold socket
      rw [if_pos rfl, hplace, Option.map_some]
      exact ⟨_, rfl⟩
    refine ⟨s', (if_pos hat).trans ?_⟩
    rw [hs', Option.map_some]
  | bind =>
    have hfreePort : s.PortFree := by
      rintro _ hopen kind rfl hkind
      have hpos := List.count_pos_iff.2 hopen
      have hnone : (lost acts).count kind = 0 := List.count_eq_zero.2 fun h => hport kind h hkind
      rw [hcount, hnone, hat.count_inUse] at hpos
      rcases hkind with rfl | rfl <;> simp [opened, SetupPoint.server] at hpos
    obtain ⟨fd, hfd, hopen⟩ := hholding.server .socket hat.server
    obtain ⟨s', hs'⟩ : ∃ s', s.bind true = some s' := by
      unfold bind
      rw [if_pos rfl, if_pos hfreePort, promote_eq hfd hopen]
      exact ⟨_, rfl⟩
    refine ⟨s', (if_pos hat).trans ?_⟩
    rw [hs', Option.map_some]
  | listen =>
    obtain ⟨fd, hfd, hopen⟩ := hholding.server .bound hat.server
    obtain ⟨s', hs'⟩ : ∃ s', s.listen true = some s' := by
      unfold listen
      rw [if_pos rfl, promote_eq hfd hopen]
      exact ⟨_, rfl⟩
    refine ⟨s', (if_pos hat).trans ?_⟩
    rw [hs', Option.map_some]
  | accept =>
    have hslot : 0 < s.table.count none := by
      simp only [hat.inUse, SetupPoint.server, Option.toList_some, List.length_singleton] at hfree
      omega
    obtain ⟨fd, table, hplace⟩ := Slots.exists_place hslot Opened.connection
    have hconnect := Nothread.step_of_next (s := s.serving) (a := .connect true)
      (congrArg some hat.1.symm) rfl
    obtain ⟨s', hs'⟩ : ∃ s', s.accept true = some s' := by
      unfold accept
      rw [if_pos rfl, hplace, Option.bind_some, hconnect, Option.map_some]
      exact ⟨_, rfl⟩
    refine ⟨s', (if_pos hat).trans ?_⟩
    rw [hs', Option.map_some]

theorem towards_call (point : SetupPoint) : Towards s.serving.session s point.call :=
  ⟨rfl, Or.inl (by cases point <;> simp [SetupPoint.call])⟩

theorem Reaches.towards_possible (hs : Reaches used file s) :
    ∃ a s' o, Towards s.serving.session s a ∧ s.step a = some (s', o) := by
  by_cases hserving : s.serving.point = .connect
  · have hat : s.At s.setup := ⟨hserving, rfl⟩
    obtain ⟨s', hs'⟩ := hs.call_possible hat
    exact ⟨_, s', _, towards_call _, hs'⟩
  · obtain ⟨acts, outs, hrun, hsignal, -⟩ := hs
    obtain ⟨outs', hserves, -⟩ := run_serves hrun
    obtain ⟨b, hb, hconnect, t, o, hstep⟩ :=
      ending_possible (serves_buffered hserves) hserving (run_alive hrun hsignal)
    exact ⟨.session b, _, o, ⟨rfl, Or.inr ⟨b, hb, rfl⟩⟩, session_step hconnect hstep⟩

theorem Reaches.accepts (hs : Reaches used file s) : ∃ acts outs s',
    processMachine.Run (fun _ _ => True) s acts outs s' ∧ s.serving.session < s'.serving.session := by
  set n := s.serving.session with hn
  have hend : ∃ t, processMachine.Reachable (Towards n) s t ∧
      (Reaches used file t ∧ n ≤ t.serving.session) ∧ t.serving.session ≠ n := by
    refine Machine.Reachable.exists_end (I := fun t => Reaches used file t ∧ n ≤ t.serving.session)
      (distance n) (fun t => t.serving.session ≠ n) ?_ ?_ .refl ⟨hs, le_refl n⟩
    · rintro t a t' o ⟨ht, hle⟩ htowards hstep
      refine ⟨⟨ht.towards htowards hstep, ?_⟩, htowards.distance_lt hstep⟩
      rcases (step_moves hstep).session_eq with heq | ⟨hnext, -⟩ <;> omega
    · rintro t ⟨ht, -⟩ hsame
      have hpossible := ht.towards_possible
      rwa [not_not.1 hsame] at hpossible
  obtain ⟨t, ⟨acts, outs, hrun⟩, ⟨-, hle⟩, hstop⟩ := hend
  exact ⟨acts, outs, t, hrun.mono fun _ _ _ => trivial, lt_of_le_of_ne hle (Ne.symm hstop)⟩

/-! ### Sessions without failures in between -/

theorem call_moves {point : SetupPoint} (hat : s.At point) (h : s.step point.call = some (s', o)) :
    match point with
    | .socket => s'.serving = s.serving ∧ s'.setup = .bind
    | .bind => s'.serving = s.serving ∧ s'.setup = .listen
    | .listen => s'.serving = s.serving ∧ s'.setup = .accept
    | .accept => s.serving.step (.connect true) = some (s'.serving, .quiet) := by
  have hmoves := step_moves h
  generalize hcall : point.call = a at hmoves
  cases hmoves with
  | opened =>
    cases point with
    | socket => exact ⟨rfl, rfl⟩
    | _ => cases hcall
  | promoted _ _ _ _ hbind =>
    rcases hbind with ⟨rfl, -, -, rfl⟩ | ⟨rfl, -, rfl⟩ <;> cases point <;> cases hcall <;> exact ⟨rfl, rfl⟩
  | accepted _ _ hconnect =>
    cases point with
    | accept => exact hconnect
    | _ => cases hcall
  | failed _ _ hfails => cases point <;> subst hcall <;> cases hfails
  | served => cases point <;> cases hcall

theorem Reaches.connects (hs : Reaches used file s) (hat : s.At .socket) : ∃ s',
    processMachine.Run (fun _ _ => True) s [.socket true, .bind true, .listen true, .accept true]
      [.quiet, .quiet, .quiet, .quiet] s' ∧
      s.serving.step (.connect true) = some (s'.serving, .quiet) := by
  obtain ⟨s₁, h₁⟩ := hs.call_possible hat
  obtain ⟨hserving₁, hsetup₁⟩ := call_moves hat h₁
  have hat₁ : s₁.At .bind := ⟨hserving₁ ▸ hat.1, hsetup₁⟩
  have hs₁ := hs.towards (towards_call _) h₁
  obtain ⟨s₂, h₂⟩ := hs₁.call_possible hat₁
  obtain ⟨hserving₂, hsetup₂⟩ := call_moves hat₁ h₂
  have hat₂ : s₂.At .listen := ⟨hserving₂ ▸ hat₁.1, hsetup₂⟩
  have hs₂ := hs₁.towards (towards_call _) h₂
  obtain ⟨s₃, h₃⟩ := hs₂.call_possible hat₂
  obtain ⟨hserving₃, hsetup₃⟩ := call_moves hat₂ h₃
  have hat₃ : s₃.At .accept := ⟨hserving₃ ▸ hat₂.1, hsetup₃⟩
  have hs₃ := hs₂.towards (towards_call _) h₃
  obtain ⟨s₄, h₄⟩ := hs₃.call_possible hat₃
  have hconnect := call_moves hat₃ h₄
  rw [hserving₃, hserving₂, hserving₁] at hconnect
  exact ⟨s₄, (((Machine.Run.nil.snoc trivial h₁).snoc trivial h₂).snoc trivial h₃).snoc trivial h₄, hconnect⟩

theorem smooth_step {b : NothreadAction} (hb : b.smooth = true) (hs : Reaches used file s)
    (hsetup : s.serving.point = .connect → s.setup = .socket) (hstep : s.serving.step b = some (t, o)) :
    ∃ acts' outs' s', processMachine.Run (fun _ _ => True) s acts' outs' s' ∧ lost acts' = [] ∧
      (∀ a ∈ acts', ¬ a.Ends) ∧ s'.serving = t ∧ (t.point = .connect → s'.setup = .socket) ∧
      ∃ quiet, outs' = quiet ++ [o] ∧ ∀ q ∈ quiet, q = .quiet := by
  obtain ⟨-, hpoint, -, -⟩ := Nothread.step_cases hstep
  by_cases hconnect : b = .connect true
  · subst hconnect
    have hat : s.serving.point = .connect := hpoint _ rfl
    obtain ⟨s', hrun, hserving⟩ := hs.connects ⟨hat, hsetup hat⟩
    obtain ⟨rfl, rfl⟩ := Prod.mk.inj (Option.some.inj (hserving.symm.trans hstep))
    refine ⟨_, _, s', hrun, rfl, by decide, rfl, fun hover => ?_, [.quiet, .quiet, .quiet], rfl, by simp⟩
    rw [(Nothread.step_connect hstep).1] at hover
    cases hover
  · have hserves : ∀ accepted, b ≠ .connect accepted := by
      rintro accepted rfl
      cases accepted with
      | true => exact hconnect rfl
      | false => cases hb
    have hsession := session_step hserves hstep
    have hmalloc : b ≠ .malloc false := by
      rintro rfl
      cases hb
    refine ⟨_, _, _, .single trivial hsession, ?_, ?_, leave_serving _ _, fun hover => ?_, [], rfl, by simp⟩
    · rw [lost, List.filterMap_cons, loses_session hmalloc, List.filterMap_nil]
    · rw [List.forall_mem_singleton]
      rintro (rfl | rfl) <;> cases hb
    · rw [leave_over (s := { s with serving := t }) hover]
      rfl

/-- **Sessions without failures in between are sessions of the process**: with two descriptors free at the
start it comes through all of them, loses nothing, and can take another connection. -/
theorem run_smooth {calls : List NothreadAction} (hroom : 2 ≤ used.count false)
    (hrun : nothreadMachine.Run (fun _ b => b.smooth = true) (.init file) calls outs t) :
    ∃ acts outs' s, processMachine.Run (fun _ _ => True) (init used file) acts outs' s ∧
      Able used acts ∧ s.serving = t ∧ visible outs' = visible outs := by
  suffices h : ∃ acts outs' s, processMachine.Run (fun _ _ => True) (init used file) acts outs' s ∧
      (lost acts = [] ∧ ∀ a ∈ acts, ¬ a.Ends) ∧ s.serving = t ∧
      (t.point = .connect → s.setup = .socket) ∧ visible outs' = visible outs by
    obtain ⟨acts, outs', s, hrun, ⟨hlost, hsignal⟩, hserving, -, hvisible⟩ := h
    exact ⟨acts, outs', s, hrun, ⟨hsignal, by simp [hlost], by simpa [hlost]⟩, hserving, hvisible⟩
  induction hrun with
  | nil => exact ⟨[], [], _, .nil, ⟨rfl, by simp⟩, rfl, fun _ => rfl, rfl⟩
  | @snoc calls outs t b t' o _ hb hstep ih =>
    obtain ⟨acts, outs', s, hrun, ⟨hlost, hsignal⟩, rfl, hsetup, hvisible⟩ := ih
    have hs : Reaches used file s := ⟨acts, outs', hrun, hsignal, by simp [hlost], by simpa [hlost]⟩
    obtain ⟨acts', outs'', s', hrun', hlost', hsignal', hserving, hsetup', quiet, rfl, hquiet⟩ :=
      smooth_step hb hs hsetup hstep
    have hnone : quiet.filter (· ≠ Event.quiet) = [] := List.filter_eq_nil_iff.2 (by simpa using hquiet)
    refine ⟨acts ++ acts', outs' ++ (quiet ++ [o]), s', hrun.append hrun', ⟨?_, ?_⟩, hserving, hsetup', ?_⟩
    · unfold lost at hlost hlost' ⊢
      rw [List.filterMap_append, hlost, hlost', List.append_nil]
    · exact List.forall_mem_append.2 ⟨hsignal, hsignal'⟩
    · unfold visible at hvisible ⊢
      rw [List.filter_append, List.filter_append, List.filter_append, hnone, List.nil_append, hvisible]

end NothreadProcess

open NothreadProcess

variable {s : NothreadProcess} {used : List Bool} {acts : List ProcessAction} {outs : List Event}
  {file : Option (List UInt8)}

/-- **When the server still takes connections**: another connection can come to be accepted exactly as
long as no signal has come, SIGPIPE included, no `listen`, `accept` or `malloc` has ever failed, and the
failed calls of `bind` have left two descriptors. -/
theorem accepts_again_iff (hrun : processMachine.Run (fun _ _ => True) (init used file) acts outs s) :
    (∃ acts' outs' s', processMachine.Run (fun _ _ => True) s acts' outs' s' ∧
      s.serving.session < s'.serving.session) ↔ Able used acts := by
  constructor
  · rintro ⟨acts', outs', s', hrun', hlt⟩
    exact able_of_accepts hrun hrun' hlt
  · intro hable
    exact Reaches.accepts ⟨acts, outs, hrun, hable⟩

theorem accepts_again_iff_accept : ∃ s outs,
    processMachine.Run (fun _ _ => True) (init (List.replicate 1000 false) none)
      [.socket true, .bind true, .listen true, .accept false] outs s ∧
    ¬ ∃ acts' outs' s', processMachine.Run (fun _ _ => True) s acts' outs' s' ∧
      s.serving.session < s'.serving.session := by
  obtain ⟨⟨s, outs⟩, hexec⟩ := Option.isSome_iff_exists.1
    (show (processMachine.execGuarded (fun _ _ => True) (init (List.replicate 1000 false) none)
      [.socket true, .bind true, .listen true, .accept false]).isSome by decide +kernel)
  have hrun := Machine.Run.of_execGuarded hexec
  refine ⟨s, outs, hrun, fun haccepts => ?_⟩
  exact ((accepts_again_iff hrun).1 haccepts).portFree .listening (by decide) (by decide)

end AesdChar
