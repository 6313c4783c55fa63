import AesdChar.Server.Dispatch
import AesdChar.Server.Segments

/-!
# What a worker passes on

A worker whose client sends a stream with a newline in it, next to any other workers and whatever
happens to them. The worker leaves its loop with the piece that brings the newline, and asks of its
descriptor what all that it has received makes it ask (`run_taken`). So what it writes is the first
line of the stream exactly when no piece goes on behind a newline (`write_data_iff`), and a packet by
itself is dispatched as a whole, however it is cut (`requests_of_packet`).
-/

namespace AesdChar
open CInt CString Lines

variable {k : KernelLimits} {s s' : Server} {l : Label} {o : Event} {i : ℕ} {a : Action}
  {w w' : Worker} {acts : List Label} {outs : List Event} {stream xs : List UInt8}
  {pieces : List (List UInt8)} {requests : List Request}

/-- Nobody stops the server, and worker `i` gets its memory and a piece of the stream from every
`recv`. -/
def Label.Reliable (i : ℕ) (l : Label) : Prop :=
  l ≠ .stop ∧ l ≠ .worker i (.malloc false) ∧ l ≠ .worker i (.recv none) ∧ l ≠ .worker i (.recv (some []))

instance (i : ℕ) (l : Label) : Decidable (l.Reliable i) :=
  inferInstanceAs (Decidable (_ ∧ _ ∧ _ ∧ _))

/-- The points behind the write. -/
def Point.Written (p : Point) : Prop :=
  p ∈ [.lseek, .read, .send, .unlockWrite, .free, .lockList, .finish, .unlockList, .done]

/-- The points at which nothing is left to ask of the descriptor but to read. -/
def Point.Asked (p : Point) : Prop := p.Written ∨ p ∈ [.seekRead, .seekSend, .unlockSeek]

/-! ### Pieces and requests -/

/-- The result of `recv` in an action. -/
def Action.piece : Action → List (List UInt8)
  | .recv (some xs) => [xs]
  | _ => []

theorem flatten_piecesOn (outs : List Event) (c : ℕ) : (piecesOn outs c).flatten = receivedOn outs c := by
  induction outs with
  | nil => rfl
  | cons o outs ih =>
    have hone : (piecesOn [o] c).flatten = receivedOn [o] c := by
      cases o with
      | received d xs => by_cases h : d = c <;> simp [piecesOn, receivedOn, h]
      | _ => rfl
    have hpieces : piecesOn (o :: outs) c = piecesOn [o] c ++ piecesOn outs c := by simp [piecesOn]
    have hreceived : receivedOn (o :: outs) c = receivedOn [o] c ++ receivedOn outs c := by
      simp [receivedOn]
    rw [hpieces, hreceived, List.flatten_append, hone, ih]

theorem piecesOn_quiet (outs : List Event) (c : ℕ) :
    piecesOn (outs ++ [.quiet]) c = piecesOn outs c := by simp [piecesOn]

theorem piecesOn_event (outs : List Event) (w : Worker) (a : Action) (c : ℕ) :
    piecesOn (outs ++ [w.event a]) c =
      piecesOn outs c ++ if w.clientSocket = c then a.piece else [] := by
  have hone : piecesOn [w.event a] c = if w.clientSocket = c then a.piece else [] := by
    cases a with
    | recv received => cases received <;> simp [piecesOn, Worker.event, Action.piece]
    | seekSend sent => cases sent <;> simp [piecesOn, Worker.event, Action.piece]
    | send sent => cases sent <;> simp [piecesOn, Worker.event, Action.piece]
    | _ => simp [piecesOn, Worker.event, Action.piece]
  rw [← hone]
  simp [piecesOn]

theorem requests_other {j : ℕ} (hij : j ≠ i) (a : Action) : s.requests k i (.worker j a) = [] := by
  cases a with
  | write env => exact if_neg hij
  | ioctl env => exact if_neg hij
  | _ => rfl

/-! ### The stages -/

/-- The last piece is the first with a newline. -/
def Complete (pieces : List (List UInt8)) : Prop :=
  ∃ before last, pieces = before ++ [last] ∧ newline ∉ before.flatten ∧ newline ∈ last

/-- What was received and asked when the thread is at a point. -/
def Worker.Taking (w : Worker) (pieces : List (List UInt8)) (requests : List Request) : Point → Prop
  | .malloc => requests = []
  | .checkRunning | .recv => w.Loaded pieces.flatten ∧ newline ∉ pieces.flatten ∧ requests = []
  | .lockOpen | .open | .unlockOpen | .dispatch =>
    w.Loaded pieces.flatten ∧ Complete pieces ∧ requests = []
  | .lockWrite | .write => w.Loaded pieces.flatten ∧ Complete pieces ∧ requests = [] ∧
      requestsFor pieces.flatten = [.write pieces.flatten]
  | .lockSeek | .ioctl => w.Loaded pieces.flatten ∧ Complete pieces ∧ requests = [] ∧
      requestsFor pieces.flatten = [.seek w.seekto]
  | .realloc => False
  | .seekRead | .seekSend | .unlockSeek | .lseek | .read | .send | .unlockWrite | .free | .lockList
  | .finish | .unlockList | .done => Complete pieces ∧ requests = requestsFor pieces.flatten

theorem Point.Asked.taking_iff {p : Point} (hp : p.Asked) : w.Taking pieces requests p ↔
    Complete pieces ∧ requests = requestsFor pieces.flatten := by
  unfold Point.Asked Point.Written at hp
  simp only [List.mem_cons, List.not_mem_nil, or_false] at hp
  rcases hp with (rfl | rfl | rfl | rfl | rfl | rfl | rfl | rfl | rfl) | rfl | rfl | rfl <;> rfl

theorem Point.Asked.next {p q : Point} (hp : p.Asked) (hq : q ∈ p.next) : q.Asked := by
  have hall : ∀ q ∈ p.next, p.Asked → q.Asked := by
    unfold Point.Asked Point.Written
    cases p <;> decide
  exact hall q hq hp

theorem workerStep_loaded (h : s.workerStep k i w a = some s') (hw : w.Loaded xs)
    (ha : a.point ∈ [Point.lockOpen, .open, .unlockOpen, .lockWrite, .lockSeek]) :
    ∃ w', s'.workers = s.workers.set i w' ∧ w'.Loaded xs ∧ w'.seekto = w.seekto ∧
      w'.point ∈ a.point.next := by
  cases a with
  | lockOpen | lockWrite | lockSeek | unlockOpen =>
    obtain ⟨-, rfl⟩ := Option.ite_some_none_eq_some.1 h
    exact ⟨_, rfl, hw.of_eq rfl rfl rfl, rfl, List.mem_cons_self⟩
  | «open» fd =>
    have hloaded : Worker.Loaded { w with fileFd := fd, point := .unlockOpen } xs :=
      hw.of_eq rfl rfl rfl
    cases fd with
    | bad =>
      obtain rfl := Option.some.inj h
      exact ⟨_, rfl, hloaded, rfl, List.mem_cons_self⟩
    | device =>
      obtain ⟨-, h⟩ := Option.ite_none_right_eq_some.1 h
      obtain ⟨r, -, rfl⟩ := Option.map_eq_some_iff.1 h
      exact ⟨_, rfl, hloaded, rfl, List.mem_cons_self⟩
    | plain =>
      obtain ⟨-, h⟩ := Option.ite_none_left_eq_some.1 h
      obtain rfl := Option.some.inj h
      exact ⟨_, rfl, hloaded, rfl, List.mem_cons_self⟩
  | _ => simp [Action.point] at ha

theorem Worker.Taking.recv (hstage : w.Taking pieces requests .recv)
    (hroom : (pieces ++ [xs]).flatten.length < BUFFERSIZE) (hnul : 0 ∉ (pieces ++ [xs]).flatten)
    (hne : xs ≠ []) : ∃ w', w.receive (some xs) = some w' ∧
      w'.Taking (pieces ++ [xs]) requests w'.point := by
  obtain ⟨hloaded, hfree, hrequests⟩ := hstage
  rw [List.flatten_concat] at hroom hnul
  obtain ⟨w', hreceive, hloaded', hpoint⟩ := hloaded.receive_point hroom hnul
  refine ⟨w', hreceive, ?_⟩
  rw [← List.flatten_concat] at hloaded'
  by_cases hend : newline ∈ pieces.flatten ++ xs
  · rw [if_pos (Or.inr hend)] at hpoint
    rw [hpoint]
    exact ⟨hloaded', ⟨pieces, xs, rfl, hfree, (List.mem_append.1 hend).resolve_left hfree⟩,
      hrequests⟩
  · rw [if_neg (not_or.2 ⟨hne, hend⟩)] at hpoint
    rw [hpoint]
    exact ⟨hloaded', by rwa [List.flatten_concat], hrequests⟩

theorem taking_worker (hheard : w.Heard pieces.flatten) (hstage : w.Taking pieces requests w.point)
    (hrunning : s.running = true) (hw : s.workers[i]? = some w) (hpoint : w.point = a.point)
    (hstep : s.workerStep k i w a = some s') (hreliable : (Label.worker i a).Reliable i)
    (hstream : (pieces ++ a.piece).flatten <+: stream) (hnul : 0 ∉ stream) :
    ∃ w', s'.workers = s.workers.set i w' ∧
      w'.Taking (pieces ++ a.piece) (requests ++ s.requests k i (.worker i a)) w'.point := by
  obtain ⟨-, hmalloc, hnone, hsome⟩ := hreliable
  have hroom := hheard.room
  rw [hpoint] at hstage
  cases a with
  | malloc granted =>
    obtain rfl : granted = true := by
      cases granted with
      | true => rfl
      | false => exact absurd rfl hmalloc
    obtain rfl := Option.some.inj hstep
    have hnil := hheard.start hpoint
    have htotal := hheard.count (by rw [hpoint]; decide)
    rw [hnil] at htotal
    refine ⟨_, rfl, ?_⟩
    simp only [Action.piece, Server.requests, List.append_nil, Worker.Taking, hnil]
    exact ⟨⟨hheard.bufferSize, htotal, _, rfl, rfl, rfl⟩, by simp, hstage⟩
  | checkRunning =>
    obtain rfl := Option.some.inj hstep
    refine ⟨_, rfl, ?_⟩
    simp only [hrunning, if_true, Worker.goto, Action.piece, Server.requests, List.append_nil]
    exact ⟨hstage.1.of_eq rfl rfl rfl, hstage.2⟩
  | recv received =>
    obtain ⟨w', hw', rfl⟩ := Option.map_eq_some_iff.1 hstep
    cases received with
    | none => exact absurd rfl hnone
    | some xs =>
      have hne : xs ≠ [] := by
        rintro rfl
        exact hsome rfl
      have hlen := (Option.ite_none_right_eq_some.1 hw').1
      rw [hstage.1.request_eq hroom] at hlen
      have hroom' : (pieces ++ [xs]).flatten.length < BUFFERSIZE := by
        rw [List.flatten_concat, List.length_append]
        omega
      obtain ⟨w'', hreceive, htaking⟩ :=
        hstage.recv hroom' (fun hmem => hnul (hstream.subset hmem)) hne
      obtain rfl := Option.some.inj (hreceive.symm.trans hw')
      refine ⟨w'', rfl, ?_⟩
      simp only [Action.piece, Server.requests, List.append_nil]
      exact htaking
  | lockOpen | «open» fd | unlockOpen | lockWrite =>
    obtain ⟨w', hworkers, hloaded, -, hnext⟩ :=
      workerStep_loaded hstep hstage.1 (by simp [Action.point])
    refine ⟨w', hworkers, ?_⟩
    simp only [Action.piece, Server.requests, List.append_nil]
    rw [List.mem_singleton.1 hnext]
    exact ⟨hloaded, hstage.2⟩
  | lockSeek =>
    obtain ⟨w', hworkers, hloaded, hseekto, hnext⟩ :=
      workerStep_loaded hstep hstage.1 (by simp [Action.point])
    refine ⟨w', hworkers, ?_⟩
    simp only [Action.piece, Server.requests, List.append_nil]
    rw [List.mem_singleton.1 hnext, Worker.Taking, hseekto]
    exact ⟨hloaded, hstage.2⟩
  | dispatch =>
    obtain ⟨w', hw', rfl⟩ := Option.map_eq_some_iff.1 hstep
    obtain ⟨hloaded, hcomplete, hrequests⟩ := hstage
    simp only [Action.piece, List.append_nil] at hstream
    simp only [Action.piece, Server.requests, List.append_nil]
    refine ⟨w', rfl, ?_⟩
    rcases parse_cases hloaded hroom (fun hmem => hnul (hstream.subset hmem)) with
      ⟨hsearch, hparse⟩ | ⟨-, seekto, hseek, hparse⟩ | ⟨-, hnone, hparse⟩
    · obtain rfl := Option.some.inj (hparse.symm.trans hw')
      exact ⟨hloaded.of_eq rfl rfl rfl, hcomplete, hrequests, requestsFor_of_no_search hsearch⟩
    · obtain rfl := Option.some.inj (hparse.symm.trans hw')
      exact ⟨hloaded.of_eq rfl rfl rfl, hcomplete, hrequests, hseek⟩
    · obtain rfl := Option.some.inj (hparse.symm.trans hw')
      exact ⟨hcomplete, hrequests.trans hnone.symm⟩
  | write env =>
    obtain ⟨hloaded, hcomplete, rfl, hwrite⟩ := hstage
    obtain ⟨w', hmoves⟩ := workerStep_moves hpoint hstep
    obtain ⟨hdata, -⟩ := hloaded.writeData_eq (Nat.le_of_lt hroom) k
    have hnext := hmoves.next
    rw [hpoint] at hnext
    refine ⟨w', hmoves.workers, ?_⟩
    rw [List.mem_singleton.1 hnext]
    simp only [Action.piece, List.append_nil, Server.requests, if_true, hw, Option.bind_some, hdata]
    exact ⟨hcomplete, hwrite.symm⟩
  | ioctl env =>
    obtain ⟨hloaded, hcomplete, rfl, hseek⟩ := hstage
    obtain ⟨w', hmoves⟩ := workerStep_moves hpoint hstep
    have hnext := hmoves.next
    rw [hpoint] at hnext
    refine ⟨w', hmoves.workers, ?_⟩
    rw [List.mem_singleton.1 hnext]
    simp only [Action.piece, List.append_nil, Server.requests, if_true, hw]
    exact ⟨hcomplete, hseek.symm⟩
  | realloc tail => exact hstage.elim
  | seekRead env plain | seekSend sent | unlockSeek | lseek | read env plain | send sent | unlockWrite
  | free | lockList | finish | unlockList =>
    obtain ⟨w', hmoves⟩ := workerStep_moves hpoint hstep
    refine ⟨w', hmoves.workers, ?_⟩
    have hasked : w'.point.Asked :=
      Point.Asked.next (by rw [hpoint]; simp [Point.Asked, Point.Written, Action.point]) hmoves.next
    simp only [Action.piece, Server.requests, List.append_nil]
    exact hasked.taking_iff.2 hstage

/-! ### Every run -/

/-- Worker `i`, when it is there, is at its stage. -/
structure Taken (k : KernelLimits) (i : ℕ) (acts : List Label) (outs : List Event) (s : Server) :
    Prop where
  running : s.running = true
  stage : ∀ w, s.workers[i]? = some w → w.Taking (piecesOn outs i) (requestsOf k i acts) w.point
  fresh : s.workers.length ≤ i → requestsOf k i acts = []

theorem taken_init (k : KernelLimits) (i : ℕ) : Taken k i [] [] .init where
  running := rfl
  stage := by simp [Server.init]
  fresh := fun _ => rfl

theorem Taken.quiet {acts' : List Label} {outs' : List Event} (h : Taken k i acts outs s)
    (hrunning : s'.running = s.running) (hpieces : piecesOn outs' i = piecesOn outs i)
    (hrequests : requestsOf k i acts' = requestsOf k i acts)
    (hlen : s.workers.length ≤ s'.workers.length)
    (hworkers : ∀ w, s'.workers[i]? = some w → s.workers[i]? = some w ∨
      s.workers.length ≤ i ∧ w.point = .malloc) : Taken k i acts' outs' s' := by
  refine ⟨hrunning.trans h.running, fun w hw => ?_, fun hle => ?_⟩
  · rw [hpieces, hrequests]
    rcases hworkers w hw with hw | ⟨hle, hpoint⟩
    · exact h.stage w hw
    · rw [hpoint]
      exact h.fresh hle
  · rw [hrequests]
    exact h.fresh (hlen.trans hle)

theorem step_taken (h : Taken k i acts outs s) (hheard : s.Heard outs) (hnul : 0 ∉ stream)
    (hguard : l.Reliable i) (hstep : s.step k l = some (s', o)) (hstream : receivedOn (outs ++ [o]) i <+: stream)
    (hrequests : requestsOf k i (acts ++ [l]) = requestsOf k i acts ++ s.requests k i l) :
    Taken k i (acts ++ [l]) (outs ++ [o]) s' := by
  rcases Server.step_cases hstep with ⟨a, rfl, hpoint, hmain, rfl⟩ |
    ⟨j, a, w, rfl, -, hw, hpoint, hworker, rfl⟩ | ⟨rfl, rfl, rfl⟩ | ⟨rfl, -, -⟩
  · have hmoves := mainStep_moves hpoint hmain
    have hnothing : s.requests k i (.main a) = [] := rfl
    rw [hnothing, List.append_nil] at hrequests
    refine h.quiet hmoves.running (piecesOn_quiet outs i) hrequests hmoves.length_le fun w hw => ?_
    rcases hmoves.worker_cases hw with hw | ⟨rfl, c, rfl⟩
    · exact Or.inl hw
    · exact Or.inr ⟨Nat.le_refl _, rfl⟩
  · have hi : j < s.workers.length := (List.getElem?_eq_some_iff.1 hw).1
    have hsocket := hheard.sockets.worker j w hw
    obtain ⟨w₁, hmoves⟩ := workerStep_moves hpoint hworker
    by_cases hij : j = i
    · subst hij
      rw [← flatten_piecesOn, piecesOn_event, if_pos hsocket] at hstream
      have hself := hheard.worker j w hw
      rw [← flatten_piecesOn] at hself
      obtain ⟨w', hworkers, htaking⟩ := taking_worker hself (h.stage w hw) h.running hw hpoint
        hworker hguard hstream hnul
      refine ⟨hmoves.running.trans h.running, fun u hu => ?_, fun hle => ?_⟩
      · rw [hworkers, List.getElem?_set_self hi] at hu
        obtain rfl := Option.some.inj hu
        rw [piecesOn_event, if_pos hsocket, hrequests]
        exact htaking
      · rw [hworkers, List.length_set] at hle
        omega
    · rw [requests_other hij, List.append_nil] at hrequests
      refine h.quiet hmoves.running ?_ hrequests (by rw [hmoves.workers, List.length_set]) fun u hu => ?_
      · rw [piecesOn_event, if_neg (by rwa [hsocket]), List.append_nil]
      · rw [hmoves.workers, List.getElem?_set_ne hij] at hu
        exact Or.inl hu
  · rw [show s.requests k i .unlink = [] from rfl, List.append_nil] at hrequests
    exact h.quiet rfl (piecesOn_quiet outs i) hrequests (Nat.le_refl _) fun _ hw => Or.inl hw
  · exact absurd rfl hguard.1

theorem run_taken (hnul : 0 ∉ stream)
    (hrun : (serverMachine k).Run (fun _ l => l.Reliable i) .init acts outs s)
    (hstream : receivedOn outs i <+: stream) : Taken k i acts outs s := by
  induction hrun with
  | nil => exact taken_init k i
  | snoc hrun hguard hstep ih =>
    have hbefore := ih ((receivedOn_grows _ _ i).trans hstream)
    exact step_taken hbefore (run_heard hrun) hnul hguard hstep hstream
      (hrun.collect_concat _ hstep)

/-- A worker that got its packet asks what the packet makes it ask, whatever fails from then on. -/
theorem requests_of_packet {packet : List UInt8} (hline : Line packet)
    (hrun : (serverMachine k).Run (fun _ l => l.Reliable i) .init acts outs s)
    (hreceived : receivedOn outs i <+: packet) (hw : s.workers[i]? = some w)
    (hasked : w.point.Asked) : requestsOf k i acts = requestsFor packet := by
  have htaken := run_taken hline.nul hrun hreceived
  obtain ⟨⟨before, last, hpieces, -, hend⟩, hrequests⟩ := hasked.taking_iff.1 (htaken.stage w hw)
  rw [← flatten_piecesOn] at hreceived
  obtain ⟨rest, hrest⟩ := hreceived
  have hmem : newline ∈ (piecesOn outs i).flatten := by
    rw [hpieces, List.flatten_concat]
    exact List.mem_append_right _ hend
  rw [← hrest] at hline
  have hnil := hline.newline_mem_iff.1 hmem
  rw [hnil, List.append_nil] at hrest
  rw [hrequests, hrest]

theorem Complete.eq_firstLine_iff (h : Complete pieces) (hstream : pieces.flatten <+: stream) :
    pieces.flatten = firstLine isNewline stream ↔ ∀ xs ∈ pieces, EndsOnly isNewline xs := by
  obtain ⟨before, last, rfl, hfree, hmem⟩ := h
  obtain ⟨rest, rfl⟩ := hstream
  have hlast : ∃ x ∈ last, isNewline x = true := ⟨newline, hmem, by decide⟩
  have hall : ∃ x ∈ (before ++ [last]).flatten, isNewline x = true :=
    ⟨newline, by rw [List.flatten_concat]; exact List.mem_append_right _ hmem, by decide⟩
  rw [Lines.eq_firstLine_iff hall, isLine_flatten_iff (fun x hx => ?_) hlast]
  by_contra hx'
  have heq : x = newline := by simpa [isNewline] using hx'
  exact hfree (heq ▸ hx)

/-- **When the cuts do not matter**: in every run of the server in which worker `i` gets pieces of a
stream with a newline in reach, whatever the other threads do, the worker writes once, namely what it
has received; that is the first line of the stream exactly when no piece goes on behind a newline.
And the loop that takes in the stream comes to its end. -/
theorem write_data_iff (hnul : 0 ∉ stream) (hsearch : ¬ SEARCHSTRING <:+: stream)
    (hline : newline ∈ stream.take (BUFFERSIZE - 1))
    (hrun : (serverMachine k).Run (fun _ l => l.Reliable i) .init acts outs s)
    (hstream : receivedOn outs i <+: stream) (hw : s.workers[i]? = some w)
    (hwritten : w.point.Written) :
    requestsOf k i acts = [.write (receivedOn outs i)] ∧
    (requestsOf k i acts = [.write (firstLine isNewline stream)] ↔
      ∀ xs ∈ piecesOn outs i, EndsOnly isNewline xs) ∧
    ∀ (c : ℕ) (acts' : List Action) (outs' : List Unit) (r : Receiving),
      receiveLoop.Run Receiving.Delivers (.start c stream) acts' outs' r →
        acts'.length ≤ 2 * BUFFERSIZE + 3 ∧
        (r.worker.point ≠ .lockOpen →
          ∃ a r' o, r.Delivers a ∧ receiveLoop.step r a = some (r', o)) := by
  have htaken := run_taken hnul hrun hstream
  obtain ⟨hcomplete, hrequests⟩ := Point.Asked.taking_iff (Or.inl hwritten) |>.1 (htaken.stage w hw)
  rw [← flatten_piecesOn] at hstream ⊢
  rw [requestsFor_of_no_search fun hmem => hsearch (hmem.trans hstream.isInfix)] at hrequests
  refine ⟨hrequests, ?_, fun c acts' outs' r hrun' => ?_⟩
  · rw [hrequests, ← hcomplete.eq_firstLine_iff hstream]
    simp
  · obtain ⟨⟨got, hr⟩, hrank⟩ := run_holds_receiving hnul hrun'
    exact ⟨by omega, fun hend => hr.can_step hnul (List.take_subset _ _ hline) hend⟩

theorem write_data_iff_two_pieces : ∃ acts outs s,
    (serverMachine .x86).Run (fun _ l => l.Reliable 0) .init acts outs s ∧
      piecesOn outs 0 = [[97], [98, 10]] ∧ requestsOf .x86 0 acts = [.write [97, 98, 10]] := by
  set acts : List Label := acceptOne ++ receiving 0 [some [97], some [98, 10]] ++ writing 0
  obtain ⟨⟨s, outs⟩, hexec, heval⟩ := Option.map_eq_some_iff.1
    (show ((serverMachine .x86).execGuarded (fun _ l => l.Reliable 0) .init acts).map
      (fun r => (r.1.workers[0]?.map (·.point), piecesOn r.2 0)) =
        some (some .lseek, [[97], [98, 10]]) by decide +kernel)
  obtain ⟨hpoint, hpieces⟩ := Prod.mk.inj heval
  obtain ⟨w, hw, hpoint⟩ := Option.map_eq_some_iff.1 hpoint
  have hrun := Machine.Run.of_execGuarded hexec
  have hreceived : receivedOn outs 0 = [97, 98, 10] := by
    rw [← flatten_piecesOn, hpieces]
    rfl
  have hstream : receivedOn outs 0 <+: [97, 98, 10, 99] := by
    rw [hreceived]
    decide
  obtain ⟨-, hiff, -⟩ := write_data_iff (by decide) (by decide) (by decide) hrun hstream hw
    (by rw [hpoint]; simp [Point.Written])
  exact ⟨acts, outs, s, hrun, hpieces, hiff.2 (by rw [hpieces]; decide)⟩

/-- The only piece goes on behind the newline, and all of it is written. -/
theorem write_behind_newline : ¬ ∀ (stream : List UInt8) (acts : List Label) (outs : List Event)
    (s : Server) (w : Worker), 0 ∉ stream → ¬ SEARCHSTRING <:+: stream →
      newline ∈ stream.take (BUFFERSIZE - 1) →
        (serverMachine .x86).Run (fun _ l => l.Reliable 0) .init acts outs s →
          receivedOn outs 0 <+: stream → s.workers[0]? = some w → w.point.Written →
            requestsOf .x86 0 acts = [.write (firstLine isNewline stream)] := by
  intro h
  set acts : List Label := acceptOne ++ receiving 0 [some [97, 10, 98]] ++ writing 0
  obtain ⟨⟨s, outs⟩, hexec, heval⟩ := Option.map_eq_some_iff.1
    (show ((serverMachine .x86).execGuarded (fun _ l => l.Reliable 0) .init acts).map
      (fun r => (r.1.workers[0]?.map (·.point), receivedOn r.2 0)) =
        some (some .lseek, [97, 10, 98]) by decide +kernel)
  obtain ⟨hpoint, hreceived⟩ := Prod.mk.inj heval
  obtain ⟨w, hw, hpoint⟩ := Option.map_eq_some_iff.1 hpoint
  have hwrites := h [97, 10, 98] acts outs s w (by decide) (by decide) (by decide)
    (Machine.Run.of_execGuarded hexec) (by rw [hreceived]) hw (by rw [hpoint]; simp [Point.Written])
  exact absurd hwrites (by decide +kernel)

end AesdChar
