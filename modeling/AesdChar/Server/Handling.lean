import AesdChar.Server.Dispatch
import AesdChar.Server.Forwarding
import AesdChar.Server.Progress

/-!
# How packets are handled

Clients that send one packet each, commands or not, and a server that nothing disturbs. A worker
whose packet has no keyword in it writes it and replies; the others seek, or do nothing at all. What
a worker asks of its descriptor is what `requestsFor` says, in every run and any interleaving, and
every worker comes to its end. So the packets that are handled as the grammar says are the commands
and the packets without the keyword (`dispatch_iff`).
-/

namespace AesdChar
open CInt CString BlockHeap Lines

variable {k : KernelLimits} {P : ℕ → List UInt8} {s s' : Server} {i : ℕ} {a : Action} {w w' : Worker}
  {v : View} {l : Label} {o : Event} {acts : List Label} {outs : List Event} {packet : List UInt8}
  {contents sent xs : List UInt8} {requests : List Request} {pos : ℤ}

/-! ### Stages -/

/-- How far the worker is with its packet at a point, with its handle at `pos`. -/
def Worker.Doing (packet contents : List UInt8) (pos : ℤ) (requests : List Request)
    (sent : List UInt8) (w : Worker) : Point → Prop
  | .malloc => requests = [] ∧ sent = [] ∧ w.bufferSize = BUFFERSIZE ∧ w.totalBytesRead = 0
  | .checkRunning | .recv =>
    requests = [] ∧ sent = [] ∧ ∃ got rest, packet = got ++ rest ∧ rest ≠ [] ∧ w.Loaded got
  | .lockOpen | .open => requests = [] ∧ sent = [] ∧ w.Loaded packet
  | .unlockOpen | .dispatch =>
    requests = [] ∧ sent = [] ∧ w.Loaded packet ∧ w.fileFd = .device ∧ pos = 0
  | .lockWrite | .write =>
    requests = [] ∧ sent = [] ∧ w.Loaded packet ∧ w.fileFd = .device ∧ pos = 0 ∧
      ¬ SEARCHSTRING <:+: packet
  | .lseek =>
    requests = requestsFor packet ∧ sent = [] ∧ w.fileFd = .device ∧ pos = 0 ∧ packet <:+ contents
  | .read =>
    requests = requestsFor packet ∧ w.fileFd = .device ∧ packet <:+ contents ∧
      ∃ p : ℕ, pos = p ∧ p ≤ contents.length ∧ sent = contents.take p
  | .send =>
    requests = requestsFor packet ∧ w.fileFd = .device ∧ packet <:+ contents ∧
      ∃ p : ℕ, pos = p ∧ p ≤ contents.length ∧ sent ++ w.readBuffer = contents.take p
  | .lockSeek | .ioctl => requests = [] ∧ w.Loaded packet ∧ w.fileFd = .device ∧
      requestsFor packet = [.seek w.seekto] ∧ SEARCHSTRING <:+: packet
  | .seekRead | .seekSend => requests = requestsFor packet ∧ w.bufferSize = BUFFERSIZE ∧
      w.fileFd = .device ∧ SEARCHSTRING <:+: packet
  | .unlockSeek | .unlockWrite | .free | .lockList | .finish | .unlockList | .done =>
    requests = requestsFor packet ∧ (¬ SEARCHSTRING <:+: packet → packet <:+ sent)
  | .realloc => False

/-- How many actions the worker has left at most, those of a seek included. -/
def Worker.work (w : Worker) (pos : ℤ) : ℕ :=
  match w.point with
  | .lockSeek => 2 * maxReply + 12
  | .ioctl => 2 * maxReply + 11
  | .seekSend => 2 * (maxReply - pos.toNat) + 10
  | .seekRead => 2 * (maxReply - pos.toNat) + 9
  | .unlockSeek => 8
  | _ => w.rank pos

/-- Nothing is pending, and every command came out of one buffer. -/
structure View.Tidy (v : View) : Prop where
  pending : v.log.pending = []
  short : ∀ line ∈ v.log.lines, line.length ≤ BUFFERSIZE

/-- Every worker is at its stage. -/
structure Dispatching (k : KernelLimits) (P : ℕ → List UInt8) (acts : List Label) (outs : List Event)
    (s : Server) (v : View) : Prop where
  running : s.running = true
  nodePresent : s.nodePresent = true
  main : s.main ≠ .exited
  device : s.device.Represents k v
  tidy : v.Tidy
  doing : ∀ (i : ℕ) (w : Worker), s.workers[i]? = some w →
    w.Doing (P i) v.log.contents (s.device.fPos i) (requestsOf k i acts) (sentTo outs i) w.point
  fresh : ∀ c, s.workers.length ≤ c → requestsOf k c acts = []

theorem View.Tidy.contents_le (h : v.Tidy) : v.log.contents.length ≤ maxReply :=
  length_flatten_le v.log.length_le h.short

theorem View.Tidy.append {v' : View} (h : v.Tidy) (hpending : v'.log.pending = [])
    (hlines : v'.log.lines = (v.log.lines ++ [xs]).rtake maxWriteOperations)
    (hlen : xs.length ≤ BUFFERSIZE) : v'.Tidy ∧ xs <:+ v'.log.contents := by
  refine ⟨⟨hpending, fun line hline => ?_⟩, ?_⟩
  · rw [hlines] at hline
    rcases List.mem_append.1 (List.rtake_suffix.subset hline) with hline | hline
    · exact h.short line hline
    · exact List.mem_singleton.1 hline ▸ hlen
  · rw [LineLog.contents, hlines, List.rtake_concat_succ, List.flatten_concat]
    exact List.suffix_append _ _

/-! ### One action -/

/-- The action is possible, and the worker is at its next stage afterwards, nearer to its end. -/
structure Proceeds (k : KernelLimits) (packet : List UInt8) (requests : List Request)
    (sent : List UInt8) (s s' : Server) (v v' : View) (i : ℕ) (w : Worker) (a : Action) : Prop where
  device : s'.device.Represents k v'
  tidy : v'.Tidy
  log : w.point ≠ .write → v'.log = v.log
  others : ∀ c, c ≠ i → s'.device.fPos c = s.device.fPos c
  self : ∃ w', s'.workers = s.workers.set i w' ∧
    w'.Doing packet v'.log.contents (s'.device.fPos i) (requests ++ s.requests k i (.worker i a))
      (sent ++ w.said a) w'.point ∧
    w'.work (s'.device.fPos i) < w.work (s.device.fPos i)

/-- The same, as a statement about the action. -/
def Server.CanProceed (k : KernelLimits) (packet : List UInt8) (requests : List Request)
    (sent : List UInt8) (s : Server) (v : View) (i : ℕ) (w : Worker) (a : Action) : Prop :=
  ∃ s' v', s.workerStep k i w a = some s' ∧ Proceeds k packet requests sent s s' v v' i w a

section Proceed
variable (hv : s.device.Represents k v)
include hv

theorem canProceed_of_device_eq (htidy : v.Tidy) (hstep : s.workerStep k i w a = some s')
    (hworkers : s'.workers = s.workers.set i w') (hdevice : s'.device = s.device)
    (hdoing : w'.Doing packet v.log.contents (s.device.fPos i)
      (requests ++ s.requests k i (.worker i a)) (sent ++ w.said a) w'.point)
    (hwork : w'.work (s.device.fPos i) < w.work (s.device.fPos i)) :
    s.CanProceed k packet requests sent v i w a := by
  refine ⟨s', v, hstep, hdevice ▸ hv, htidy, fun _ => rfl, fun c _ => by rw [hdevice], w', hworkers,
    ?_, ?_⟩
  · rwa [hdevice]
  · rwa [hdevice]

theorem canProceed_of_quiet (htidy : v.Tidy) (hrequests : s.requests k i (.worker i a) = [])
    (hsaid : w.said a = []) (hstep : s.workerStep k i w a = some s')
    (hworkers : s'.workers = s.workers.set i w') (hdevice : s'.device = s.device)
    (hdoing : w'.Doing packet v.log.contents (s.device.fPos i) requests sent w'.point)
    (hwork : w'.work (s.device.fPos i) < w.work (s.device.fPos i)) :
    s.CanProceed k packet requests sent v i w a := by
  refine canProceed_of_device_eq hv htidy hstep hworkers hdevice ?_ hwork
  rw [hrequests, hsaid, List.append_nil, List.append_nil]
  exact hdoing

theorem canProceed_of_call {c : Call} {next : Reply → Worker} (hc : c.Valid k)
    (hstep : s.workerStep k i w a = s.onDevice k i c next) (hsaid : w.said a = [])
    (htidy : (v.call k (s.device.fPos i) c).2.Tidy)
    (hlog : w.point ≠ .write → (v.call k (s.device.fPos i) c).2.log = v.log)
    {r : Reply} (hr : (v.call k (s.device.fPos i) c).1 = r) {asked : List Request}
    (hasked : requests ++ s.requests k i (.worker i a) = asked)
    (hdoing : (next r).Doing packet (v.call k (s.device.fPos i) c).2.log.contents r.fPos asked sent
      (next r).point)
    (hwork : (next r).work r.fPos < w.work (s.device.fPos i)) :
    s.CanProceed k packet requests sent v i w a := by
  subst hr hasked
  obtain ⟨s', hcall, hrep, hworkers, hself, hothers⟩ := onDevice_of_valid hv hc next
  refine ⟨s', _, hstep.trans hcall, hrep, htidy, hlog, hothers, _, hworkers, ?_, ?_⟩
  · rw [hsaid, List.append_nil, hself]
    exact hdoing
  · rwa [hself]

end Proceed

section Actions
variable (hv : s.device.Represents k v) (htidy : v.Tidy)
  (hstage : w.Doing packet v.log.contents (s.device.fPos i) requests sent w.point)
include hv htidy hstage

theorem malloc_proceeds (hpoint : w.point = .malloc) (hP : packet ≠ []) :
    s.CanProceed k packet requests sent v i w (.malloc true) := by
  rw [hpoint] at hstage
  obtain ⟨hrequests, hsent, hsize, htotal⟩ := hstage
  refine canProceed_of_quiet hv htidy rfl rfl rfl rfl rfl
    ⟨hrequests, hsent, [], packet, rfl, hP, hsize, htotal, _, rfl, rfl, rfl⟩ ?_
  simp only [Worker.work, Worker.rank, hpoint, htotal]
  omega

theorem checkRunning_proceeds (hpoint : w.point = .checkRunning) (hrunning : s.running = true) :
    s.CanProceed k packet requests sent v i w .checkRunning := by
  rw [hpoint] at hstage
  obtain ⟨hrequests, hsent, got, rest, hsplit, hne, hloaded⟩ := hstage
  have hstep : s.workerStep k i w .checkRunning = some (s.put i (w.goto .recv)) := by
    simp [Server.workerStep, Worker.step, hrunning]
  refine canProceed_of_quiet hv htidy rfl rfl hstep rfl rfl
    ⟨hrequests, hsent, got, rest, hsplit, hne, hloaded.of_eq rfl rfl rfl⟩ ?_
  simp only [Worker.work, Worker.rank, Worker.goto, hpoint]
  omega

theorem recv_proceeds (hpoint : w.point = .recv) (hP : Line packet) (hne : xs ≠ [])
    (hpiece : xs <+: packet.drop w.totalBytesRead.toNat) :
    s.CanProceed k packet requests sent v i w (.recv (some xs)) := by
  rw [hpoint] at hstage
  obtain ⟨hrequests, hsent, got, rest, hsplit, -, hloaded⟩ := hstage
  obtain ⟨w', hstep, hrank, ⟨hpoint', hloaded'⟩ | ⟨hpoint', rest', hsplit', hrest, hloaded'⟩⟩ :=
    recv_piece (s := s) (k := k) (i := i) hpoint hP hsplit hloaded hne hpiece
  · refine canProceed_of_quiet hv htidy rfl rfl hstep rfl rfl ?_ ?_
    · rw [hpoint']
      exact ⟨hrequests, hsent, hloaded'⟩
    · simpa only [Worker.work, hpoint, hpoint'] using hrank _
  · refine canProceed_of_quiet hv htidy rfl rfl hstep rfl rfl ?_ ?_
    · rw [hpoint']
      exact ⟨hrequests, hsent, got ++ xs, rest', hsplit', hrest, hloaded'⟩
    · simpa only [Worker.work, hpoint, hpoint'] using hrank _

theorem lockOpen_proceeds (hpoint : w.point = .lockOpen) (hfree : s.fileMutex = none) :
    s.CanProceed k packet requests sent v i w .lockOpen := by
  rw [hpoint] at hstage
  obtain ⟨hrequests, hsent, hloaded⟩ := hstage
  refine canProceed_of_quiet hv htidy rfl rfl (if_pos hfree) rfl rfl
    ⟨hrequests, hsent, hloaded.of_eq rfl rfl rfl⟩ ?_
  simp only [Worker.work, Worker.rank, Worker.goto, hpoint]
  omega

theorem open_proceeds (hpoint : w.point = .open) (hpresent : s.nodePresent = true) :
    s.CanProceed k packet requests sent v i w (.open .device) := by
  rw [hpoint] at hstage
  obtain ⟨hrequests, hsent, hloaded⟩ := hstage
  have hstep : s.workerStep k i w (.open .device) =
      s.onDevice k i .open fun _ => { w with fileFd := .device, point := .unlockOpen } :=
    if_pos hpresent
  refine canProceed_of_call (c := .open) hv trivial hstep rfl htidy (fun _ => rfl) rfl
    (List.append_nil _) ⟨hrequests, hsent, hloaded.of_eq rfl rfl rfl, rfl, rfl⟩ ?_
  simp only [Worker.work, Worker.rank, hpoint]
  omega

theorem unlockOpen_proceeds (hpoint : w.point = .unlockOpen)
    (hheld : s.fileMutex = some (.worker i)) :
    s.CanProceed k packet requests sent v i w .unlockOpen := by
  rw [hpoint] at hstage
  obtain ⟨hrequests, hsent, hloaded, hfd, hpos⟩ := hstage
  refine canProceed_of_quiet hv htidy rfl rfl (if_pos hheld) rfl rfl
    ⟨hrequests, hsent, hloaded.of_eq rfl rfl rfl, hfd, hpos⟩ ?_
  simp only [Worker.work, Worker.rank, Worker.goto, hpoint]
  omega

theorem dispatch_proceeds (hpoint : w.point = .dispatch) (hP : Line packet) :
    s.CanProceed k packet requests sent v i w .dispatch := by
  rw [hpoint] at hstage
  obtain ⟨rfl, rfl, hloaded, hfd, hpos⟩ := hstage
  have hput : ∀ w', w.parse = some w' → s.workerStep k i w .dispatch = some (s.put i w') :=
    fun w' hparse => by simp [Server.workerStep, Worker.step, hparse]
  rcases parse_cases hloaded hP.room hP.nul with
    ⟨hsearch, hparse⟩ | ⟨hsearch, seekto, hseek, hparse⟩ | ⟨hsearch, hnone, hparse⟩
  · refine canProceed_of_quiet hv htidy rfl rfl (hput _ hparse) rfl rfl
      ⟨rfl, rfl, hloaded.of_eq rfl rfl rfl, hfd, hpos, hsearch⟩ ?_
    simp only [Worker.work, Worker.rank, Worker.goto, hpoint]
    omega
  · refine canProceed_of_quiet hv htidy rfl rfl (hput _ hparse) rfl rfl
      ⟨rfl, hloaded.of_eq rfl rfl rfl, hfd, hseek, hsearch⟩ ?_
    simp only [Worker.work, Worker.rank, hpoint]
    omega
  · -- nothing is asked of the descriptor, and nothing sent
    refine canProceed_of_quiet hv htidy rfl rfl (hput _ hparse) rfl rfl
      ⟨hnone.symm, fun hnot => absurd hsearch hnot⟩ ?_
    simp only [Worker.work, Worker.rank, Worker.goto, hpoint]
    omega

/-! ### A packet -/

theorem lockWrite_proceeds (hpoint : w.point = .lockWrite) (hfree : s.fileMutex = none) :
    s.CanProceed k packet requests sent v i w .lockWrite := by
  rw [hpoint] at hstage
  obtain ⟨hrequests, hsent, hloaded, hfd, hpos, hsearch⟩ := hstage
  refine canProceed_of_quiet hv htidy rfl rfl (if_pos hfree) rfl rfl
    ⟨hrequests, hsent, hloaded.of_eq rfl rfl rfl, hfd, hpos, hsearch⟩ ?_
  simp only [Worker.work, Worker.rank, Worker.goto, hpoint]
  omega

theorem write_proceeds {env : WriteEnv} (hw : s.workers[i]? = some w) (hpoint : w.point = .write)
    (hP : Line packet) (hok : s.device.driver.WriteSucceeds k packet env) :
    s.CanProceed k packet requests sent v i w (.write env) := by
  rw [hpoint] at hstage
  obtain ⟨rfl, rfl, hloaded, hfd, hpos, hsearch⟩ := hstage
  have hlen := Nat.le_of_lt hP.room
  obtain ⟨hdata, hmax⟩ := hloaded.writeData_eq hlen k
  have hstep : s.workerStep k i w (.write env) =
      s.onDevice k i (.write packet env) fun _ => w.goto .lseek := by
    simp only [Server.workerStep, Server.writeFile, hfd, hdata]
  have hasked : [] ++ s.requests k i (.worker i (.write env)) = requestsFor packet := by
    rw [requestsFor_of_no_search hsearch]
    simp [Server.requests, hw, hdata]
  obtain ⟨hpending, hlines⟩ := write_line hv htidy.pending hP hmax hok (s.device.fPos i)
  obtain ⟨htidy', hsuffix⟩ := htidy.append hpending hlines hlen
  refine canProceed_of_call (c := .write packet env) hv hmax hstep rfl htidy'
    (fun hne => absurd hpoint hne) rfl hasked ⟨rfl, rfl, hfd, hpos, hsuffix⟩ ?_
  simp only [Worker.work, Worker.rank, Worker.goto, hpoint]
  omega

theorem lseek_proceeds (hpoint : w.point = .lseek) :
    s.CanProceed k packet requests sent v i w .lseek := by
  rw [hpoint] at hstage
  obtain ⟨hrequests, hsent, hfd, hpos, hsuffix⟩ := hstage
  have hr : (v.call k (s.device.fPos i) (.llseek 0 SEEK_SET false)).1 = ⟨0, [], 0⟩ := by
    rw [hpos]
    rfl
  have hstep : s.workerStep k i w .lseek =
      s.onDevice k i (.llseek 0 SEEK_SET false) fun _ => w.goto .read := if_pos hfd
  refine canProceed_of_call (c := .llseek 0 SEEK_SET false) hv (show _ ∧ _ by decide) hstep rfl htidy
    (fun _ => rfl) hr (List.append_nil _)
    ⟨hrequests, hfd, hsuffix, 0, rfl, Nat.zero_le _, hsent⟩ ?_
  simp only [Worker.work, Worker.rank, Worker.goto, hpoint]
  omega

theorem read_proceeds {plain : Option (List UInt8)} (hpoint : w.point = .read) :
    s.CanProceed k packet requests sent v i w (.read ⟨false, 0⟩ plain) := by
  rw [hpoint] at hstage
  obtain ⟨hrequests, hfd, hsuffix, p, hpos, hp, hsent⟩ := hstage
  have hmax := htidy.contents_le
  obtain ⟨xs, hread, hprefix, hend⟩ := read_reply hv hpos (show 0 < BUFFERSIZE by decide)
  set count := min BUFFERSIZE k.maxRwCount with hcount
  have hstep : s.workerStep k i w (.read ⟨false, 0⟩ plain) =
      s.onDevice k i (.read count ⟨false, 0⟩) fun r =>
        if 0 < r.ret then { w with readBuffer := r.data, point := .send } else w.goto .unlockWrite := by
    simp only [Server.workerStep, Server.readFile, hfd, hcount]
  have hlen := hprefix.length_le
  rw [List.length_drop] at hlen
  by_cases hnil : xs = []
  · have hend := hend hnil
    rw [hnil] at hread
    refine canProceed_of_call (c := .read count ⟨false, 0⟩) hv trivial hstep rfl htidy
      (fun _ => rfl) hread (List.append_nil _) ⟨hrequests, fun _ => ?_⟩ ?_
    · rw [hsent, List.take_of_length_le hend]
      exact hsuffix
    · simp only [Worker.work, Worker.rank, hpoint]
      simp [Worker.goto]
  · have hpos_len : 0 < xs.length := List.length_pos_iff.2 hnil
    have hgot : (0 : ℤ) < xs.length := by exact_mod_cast hpos_len
    refine canProceed_of_call (c := .read count ⟨false, 0⟩) hv trivial hstep rfl htidy
      (fun _ => rfl) hread (List.append_nil _) ?_ ?_
    · simp only [if_pos hgot]
      refine ⟨hrequests, hfd, hsuffix, p + xs.length, rfl, ?_, ?_⟩
      · show p + xs.length ≤ v.log.contents.length
        omega
      · show sent ++ xs = v.log.contents.take (p + xs.length)
        rw [hsent, List.take_add, ← List.prefix_iff_eq_take.1 hprefix]
    · simp only [if_pos hgot, Worker.work, Worker.rank, hpoint, hpos, Int.toNat_natCast]
      omega

theorem send_proceeds (hpoint : w.point = .send) :
    s.CanProceed k packet requests sent v i w (.send (some w.readBuffer.length)) := by
  rw [hpoint] at hstage
  obtain ⟨hrequests, hfd, hsuffix, p, hpos, hp, hsent⟩ := hstage
  have hstep : s.workerStep k i w (.send (some w.readBuffer.length)) =
      some (s.put i (w.goto .read)) := by simp [Server.workerStep, Worker.step]
  have hsaid : w.said (.send (some w.readBuffer.length)) = w.readBuffer := List.take_length
  refine canProceed_of_device_eq hv htidy hstep rfl rfl ?_ ?_
  · rw [hsaid]
    exact ⟨(List.append_nil _).trans hrequests, hfd, hsuffix, p, hpos, hp, hsent⟩
  · simp only [Worker.work, Worker.rank, Worker.goto, hpoint]
    omega

theorem unlockWrite_proceeds (hpoint : w.point = .unlockWrite)
    (hheld : s.fileMutex = some (.worker i)) :
    s.CanProceed k packet requests sent v i w .unlockWrite := by
  rw [hpoint] at hstage
  refine canProceed_of_quiet hv htidy rfl rfl (if_pos hheld) rfl rfl hstage ?_
  simp only [Worker.work, Worker.rank, Worker.goto, hpoint]
  omega

/-! ### A command -/

theorem lockSeek_proceeds (hpoint : w.point = .lockSeek) (hfree : s.fileMutex = none) :
    s.CanProceed k packet requests sent v i w .lockSeek := by
  rw [hpoint] at hstage
  obtain ⟨hrequests, hloaded, hfd, hseek⟩ := hstage
  refine canProceed_of_quiet hv htidy rfl rfl (if_pos hfree) rfl rfl
    ⟨hrequests, hloaded.of_eq rfl rfl rfl, hfd, hseek⟩ ?_
  simp only [Worker.work, Worker.goto, hpoint]
  omega

theorem ioctl_proceeds (hw : s.workers[i]? = some w) (hpoint : w.point = .ioctl) :
    s.CanProceed k packet requests sent v i w (.ioctl ⟨false, 0⟩) := by
  rw [hpoint] at hstage
  obtain ⟨rfl, hloaded, hfd, hseek, hsearch⟩ := hstage
  have hstep : s.workerStep k i w (.ioctl ⟨false, 0⟩) =
      s.onDevice k i (.ioctl AESDCHAR_IOCSEEKTO w.seekto ⟨false, 0⟩) fun _ => w.goto .seekRead :=
    if_pos hfd
  have hasked : [] ++ s.requests k i (.worker i (.ioctl ⟨false, 0⟩)) = requestsFor packet := by
    rw [hseek]
    simp [Server.requests, hw]
  refine canProceed_of_call (c := .ioctl AESDCHAR_IOCSEEKTO w.seekto ⟨false, 0⟩) hv trivial hstep
    rfl htidy (fun _ => rfl) rfl hasked ⟨rfl, hloaded.bufferSize, hfd, hsearch⟩ ?_
  simp only [Worker.work, Worker.goto, hpoint]
  omega

theorem seekRead_proceeds {plain : Option (List UInt8)} (hpoint : w.point = .seekRead) :
    s.CanProceed k packet requests sent v i w (.seekRead ⟨false, 0⟩ plain) := by
  rw [hpoint] at hstage
  obtain ⟨hrequests, hsize, hfd, hsearch⟩ := hstage
  have hmax := htidy.contents_le
  have hpos : s.device.fPos i = (s.device.fPos i).toNat := (Int.toNat_of_nonneg (hv.fPos i).1).symm
  set p := (s.device.fPos i).toNat
  have hcount : toSize w.bufferSize = BUFFERSIZE := by
    rw [hsize]
    exact toSize_natCast (by decide)
  obtain ⟨xs, hread, hprefix, -⟩ := read_reply hv hpos (show 0 < BUFFERSIZE by decide)
  have hstep : s.workerStep k i w (.seekRead ⟨false, 0⟩ plain) =
      s.onDevice k i (.read (min BUFFERSIZE k.maxRwCount) ⟨false, 0⟩) fun r =>
        if 0 < r.ret then { w with readBuffer := r.data, point := .seekSend }
        else w.goto .unlockSeek := by
    simp only [Server.workerStep, Server.readFile, hfd, hcount]
  have hlen := hprefix.length_le
  rw [List.length_drop] at hlen
  by_cases hnil : xs = []
  · rw [hnil] at hread
    refine canProceed_of_call (c := .read _ ⟨false, 0⟩) hv trivial hstep rfl htidy
      (fun _ => rfl) hread (List.append_nil _) ⟨hrequests, fun hnot => absurd hsearch hnot⟩ ?_
    simp only [Worker.work, hpoint]
    simp [Worker.goto]
  · have hpos_len : 0 < xs.length := List.length_pos_iff.2 hnil
    have hgot : (0 : ℤ) < xs.length := by exact_mod_cast hpos_len
    refine canProceed_of_call (c := .read _ ⟨false, 0⟩) hv trivial hstep rfl htidy
      (fun _ => rfl) hread (List.append_nil _) ?_ ?_
    · simp only [if_pos hgot]
      exact ⟨hrequests, hsize, hfd, hsearch⟩
    · simp only [if_pos hgot, Worker.work, hpoint, hpos, Int.toNat_natCast]
      omega

theorem seekSend_proceeds (hpoint : w.point = .seekSend) :
    s.CanProceed k packet requests sent v i w (.seekSend (some w.readBuffer.length)) := by
  rw [hpoint] at hstage
  obtain ⟨hrequests, hsize, hfd, hsearch⟩ := hstage
  have hstep : s.workerStep k i w (.seekSend (some w.readBuffer.length)) =
      some (s.put i (w.goto .seekRead)) := by simp [Server.workerStep, Worker.step]
  refine canProceed_of_device_eq hv htidy hstep rfl rfl
    ⟨(List.append_nil _).trans hrequests, hsize, hfd, hsearch⟩ ?_
  simp only [Worker.work, Worker.goto, hpoint]
  omega

theorem unlockSeek_proceeds (hpoint : w.point = .unlockSeek)
    (hheld : s.fileMutex = some (.worker i)) :
    s.CanProceed k packet requests sent v i w .unlockSeek := by
  rw [hpoint] at hstage
  refine canProceed_of_quiet hv htidy rfl rfl (if_pos hheld) rfl rfl hstage ?_
  simp only [Worker.work, Worker.rank, Worker.goto, hpoint]
  omega

/-! ### The end of the thread -/

theorem free_proceeds (hpoint : w.point = .free) : s.CanProceed k packet requests sent v i w .free := by
  rw [hpoint] at hstage
  refine canProceed_of_quiet hv htidy rfl rfl rfl rfl rfl hstage ?_
  simp only [Worker.work, Worker.rank, hpoint]
  omega

theorem lockList_proceeds (hpoint : w.point = .lockList) (hfree : s.listMutex = none) :
    s.CanProceed k packet requests sent v i w .lockList := by
  rw [hpoint] at hstage
  refine canProceed_of_quiet hv htidy rfl rfl (if_pos hfree) rfl rfl hstage ?_
  simp only [Worker.work, Worker.rank, Worker.goto, hpoint]
  omega

theorem finish_proceeds (hpoint : w.point = .finish) :
    s.CanProceed k packet requests sent v i w .finish := by
  rw [hpoint] at hstage
  refine canProceed_of_quiet hv htidy rfl rfl rfl rfl rfl hstage ?_
  simp only [Worker.work, Worker.rank, hpoint]
  omega

theorem unlockList_proceeds (hpoint : w.point = .unlockList)
    (hheld : s.listMutex = some (.worker i)) :
    s.CanProceed k packet requests sent v i w .unlockList := by
  rw [hpoint] at hstage
  refine canProceed_of_quiet hv htidy rfl rfl (if_pos hheld) rfl rfl hstage ?_
  simp only [Worker.work, Worker.rank, Worker.goto, hpoint]
  omega

end Actions

/-- Every action of a worker that meets no failure is possible when the mutex it takes is free, and
it leads to the next stage. -/
theorem worker_proceeds (hs : Dispatching k P acts outs s v) (hexclusive : s.Exclusive)
    (hP : Line (P i)) (hw : s.workers[i]? = some w) (hpoint : w.point = a.point)
    (hnormal : w.Normal k s.device.driver (P i) a) (hfree : a.Available s) :
    s.CanProceed k (P i) (requestsOf k i acts) (sentTo outs i) v i w a := by
  have hstage := hs.doing i w hw
  have hv := hs.device
  have htidy := hs.tidy
  have hfile : a.point.holdsFile = true → s.fileMutex = some (.worker i) := fun hholds =>
    (hexclusive.file (.worker i)).2 ⟨w, hw, hpoint ▸ hholds⟩
  have hlist : a.point.holdsList = true → s.listMutex = some (.worker i) := fun hholds =>
    (hexclusive.list hs.main (.worker i)).2 ⟨w, hw, hpoint ▸ hholds⟩
  cases a with
  | malloc granted =>
    obtain rfl : granted = true := hnormal
    exact malloc_proceeds hv htidy hstage hpoint hP.ne_nil
  | checkRunning => exact checkRunning_proceeds hv htidy hstage hpoint hs.running
  | recv received =>
    obtain ⟨xs, rfl, hne, hpiece⟩ := hnormal
    exact recv_proceeds hv htidy hstage hpoint hP hne hpiece
  | realloc tail =>
    rw [hpoint] at hstage
    exact hstage.elim
  | lockOpen => exact lockOpen_proceeds hv htidy hstage hpoint hfree
  | «open» fd =>
    obtain rfl : fd = .device := hnormal
    exact open_proceeds hv htidy hstage hpoint hs.nodePresent
  | unlockOpen => exact unlockOpen_proceeds hv htidy hstage hpoint (hfile rfl)
  | dispatch => exact dispatch_proceeds hv htidy hstage hpoint hP
  | lockSeek => exact lockSeek_proceeds hv htidy hstage hpoint hfree
  | ioctl env =>
    obtain rfl : env = ⟨false, 0⟩ := hnormal
    exact ioctl_proceeds hv htidy hstage hw hpoint
  | seekRead env plain =>
    obtain rfl : env = ⟨false, 0⟩ := hnormal
    exact seekRead_proceeds hv htidy hstage hpoint
  | seekSend sent =>
    obtain rfl : sent = some w.readBuffer.length := hnormal
    exact seekSend_proceeds hv htidy hstage hpoint
  | unlockSeek => exact unlockSeek_proceeds hv htidy hstage hpoint (hfile rfl)
  | lockWrite => exact lockWrite_proceeds hv htidy hstage hpoint hfree
  | write env =>
    have hloaded : w.Loaded (P i) := by
      rw [hpoint] at hstage
      exact hstage.2.2.1
    obtain ⟨hdata, -⟩ := hloaded.writeData_eq (Nat.le_of_lt hP.room) k
    exact write_proceeds hv htidy hstage hw hpoint hP (hnormal (P i) hdata)
  | lseek => exact lseek_proceeds hv htidy hstage hpoint
  | read env plain =>
    obtain rfl : env = ⟨false, 0⟩ := hnormal
    exact read_proceeds hv htidy hstage hpoint
  | send sent =>
    obtain rfl : sent = some w.readBuffer.length := hnormal
    exact send_proceeds hv htidy hstage hpoint
  | unlockWrite => exact unlockWrite_proceeds hv htidy hstage hpoint (hfile rfl)
  | free => exact free_proceeds hv htidy hstage hpoint
  | lockList => exact lockList_proceeds hv htidy hstage hpoint hfree
  | finish => exact finish_proceeds hv htidy hstage hpoint
  | unlockList => exact unlockList_proceeds hv htidy hstage hpoint (hlist rfl)

/-! ### Every run -/

theorem Worker.Doing.frame {p : Point} {contents' : List UInt8}
    (hcontents : p.holdsFile = true → contents' = contents)
    (h : w.Doing packet contents pos requests sent p) :
    w.Doing packet contents' pos requests sent p := by
  cases p with
  | lseek | read | send =>
    rw [hcontents rfl]
    exact h
  | _ => exact h

theorem dispatching_init (k : KernelLimits) (P : ℕ → List UInt8) :
    Dispatching k P [] [] .init .init where
  running := rfl
  nodePresent := rfl
  main := by simp [Server.init]
  device := System.represents_init
  tidy := ⟨rfl, by simp [View.init, LineLog.empty]⟩
  doing := by simp [Server.init]
  fresh := fun _ _ => rfl

theorem dispatching_main {a : MainAction} (hs : Dispatching k P acts outs s v) (hheard : s.Heard outs)
    (hrequests : ∀ c, requestsOf k c (acts ++ [.main a]) = requestsOf k c acts)
    (hpoint : s.main = a.point) (hnormal : a.Normal) (hstep : s.mainStep a = some s') :
    Dispatching k P (acts ++ [.main a]) (outs ++ [.quiet]) s' v := by
  have hmoves := mainStep_moves hpoint hstep
  refine ⟨hmoves.running.trans hs.running, hmoves.nodePresent.trans hs.nodePresent,
    mainStep_main hs.running hnormal hstep, hmoves.device ▸ hs.device, hs.tidy, fun j u hu => ?_,
    fun c hc => ?_⟩
  · rw [hmoves.device, hrequests, sentTo_quiet]
    rcases hmoves.worker_cases hu with hu | ⟨rfl, c, rfl⟩
    · exact hs.doing j u hu
    · exact ⟨hs.fresh _ (Nat.le_refl _), (hheard.silent _ (Nat.le_refl _)).2, rfl, rfl⟩
  · rw [hrequests]
    exact hs.fresh c (hmoves.length_le.trans hc)

theorem dispatching_worker (hs : Dispatching k P acts outs s v) (hheard : s.Heard outs)
    (hexclusive : s.Exclusive) (hP : Line (P i))
    (hrequests : ∀ c, requestsOf k c (acts ++ [.worker i a]) =
      requestsOf k c acts ++ s.requests k c (.worker i a))
    (hw : s.workers[i]? = some w) (hpoint : w.point = a.point)
    (hnormal : w.Normal k s.device.driver (P i) a) (hstep : s.workerStep k i w a = some s') :
    ∃ v', Dispatching k P (acts ++ [.worker i a]) (outs ++ [w.event a]) s' v' := by
  obtain ⟨t, v', ht, hv', htidy', hlog, hothers, w', hworkers, hself, -⟩ :=
    worker_proceeds hs hexclusive hP hw hpoint hnormal (workerStep_available hstep)
  obtain rfl : t = s' := Option.some.inj (ht.symm.trans hstep)
  obtain ⟨w₁, hmoves⟩ := workerStep_moves hpoint hstep
  have hsocket := hheard.sockets.worker i w hw
  refine ⟨v', hmoves.running.trans hs.running, hmoves.nodePresent.trans hs.nodePresent,
    hmoves.main ▸ hs.main, hv', htidy', fun j u hu => ?_, fun c hc => ?_⟩
  · rw [hworkers] at hu
    rw [hrequests, sentTo_event, hsocket]
    rcases getElem?_set_cases hw hu with ⟨rfl, rfl⟩ | ⟨hij, hu⟩
    · rw [if_pos rfl]
      exact hself
    · rw [hothers j (Ne.symm hij), requests_other hij, if_neg hij, List.append_nil, List.append_nil]
      refine (hs.doing j u hu).frame fun hholds => ?_
      rw [hlog (not_entering hexclusive hw hpoint hstep hij hu hholds).2]
  · rw [hworkers, List.length_set] at hc
    have hi : i < s.workers.length := (List.getElem?_eq_some_iff.1 hw).1
    have hij : i ≠ c := by omega
    rw [hrequests, requests_other hij, List.append_nil]
    exact hs.fresh c hc

theorem step_dispatching (hs : Dispatching k P acts outs s v) (hheard : s.Heard outs)
    (hexclusive : s.Exclusive) (hP : ∀ c, Line (P c)) (hguard : Undisturbed k P s l)
    (hrequests : ∀ c, requestsOf k c (acts ++ [l]) = requestsOf k c acts ++ s.requests k c l)
    (hstep : s.step k l = some (s', o)) : ∃ v', Dispatching k P (acts ++ [l]) (outs ++ [o]) s' v' := by
  rcases Server.step_cases hstep with ⟨a, rfl, hpoint, hmain, rfl⟩ |
    ⟨i, a, w, rfl, -, hw, hpoint, hworker, rfl⟩ | ⟨rfl, -, -⟩ | ⟨rfl, -, -⟩
  · have hnone : ∀ c, requestsOf k c (acts ++ [.main a]) = requestsOf k c acts := fun c =>
      (hrequests c).trans (List.append_nil _)
    exact ⟨v, dispatching_main hs hheard hnone hpoint hguard hmain⟩
  · exact dispatching_worker hs hheard hexclusive (hP i) hrequests hw hpoint (hguard w hw) hworker
  · exact hguard.elim
  · exact hguard.elim

/-- Everything that holds after an undisturbed run of such clients. -/
structure Dispatching.Reached (k : KernelLimits) (P : ℕ → List UInt8) (acts : List Label)
    (outs : List Event) (s : Server) : Prop where
  run : (serverMachine k).Run (Undisturbed k P) .init acts outs s
  heard : s.Heard outs
  exclusive : s.Exclusive
  dispatching : ∃ v, Dispatching k P acts outs s v

theorem Dispatching.Reached.next (hreached : Reached k P acts outs s) (hP : ∀ c, Line (P c))
    (hguard : Undisturbed k P s l) (hstep : s.step k l = some (s', o)) :
    Reached k P (acts ++ [l]) (outs ++ [o]) s' := by
  obtain ⟨v, hs⟩ := hreached.dispatching
  exact ⟨hreached.run.snoc hguard hstep, step_heard_all hreached.heard hstep,
    step_exclusive hreached.exclusive hstep,
    step_dispatching hs hreached.heard hreached.exclusive hP hguard
      (fun c => hreached.run.collect_concat (Server.requests k c) hstep) hstep⟩

theorem run_dispatching (hP : ∀ c, Line (P c))
    (hrun : (serverMachine k).Run (Undisturbed k P) .init acts outs s) :
    Dispatching.Reached k P acts outs s :=
  hrun.invariant (I := Dispatching.Reached k P)
    ⟨.nil, heard_init, exclusive_init, .init, dispatching_init k P⟩
    fun _ _ _ _ _ _ hreached hguard hstep => hreached.next hP hguard hstep

/-! ### Coming to rest -/

theorem step_work_lt (hreached : Dispatching.Reached k P acts outs s) (hP : ∀ c, Line (P c))
    (hguard : Settling k P s l) (hstep : s.step k l = some (s', o)) :
    s'.total Worker.work < s.total Worker.work := by
  obtain ⟨hnormal, haccept⟩ := hguard
  obtain ⟨v, hs⟩ := hreached.dispatching
  rcases Server.step_cases hstep with ⟨a, rfl, hpoint, hmain, rfl⟩ |
    ⟨i, a, w, rfl, -, hw, hpoint, hworker, rfl⟩ | ⟨rfl, -, -⟩ | ⟨rfl, -, -⟩
  · exact mainStep_total_lt (m := Worker.work) (fun _ _ => rfl) hs.running hpoint hnormal
      (fun accepted heq => haccept accepted (heq ▸ rfl)) hmain
  · obtain ⟨t, v', ht, -, -, -, hothers, w', hworkers, -, hwork⟩ :=
      worker_proceeds hs hreached.exclusive (hP i) hw hpoint (hnormal w hw)
        (workerStep_available hworker)
    obtain rfl := Option.some.inj (ht.symm.trans hworker)
    obtain ⟨w₂, hmoves⟩ := workerStep_moves hpoint hworker
    exact worker_total_lt (m := Worker.work) hw hmoves.main hworkers hothers hwork
  · exact hnormal.elim
  · exact hnormal.elim

theorem dispatching_can_step (hreached : Dispatching.Reached k P acts outs s) (hP : ∀ c, Line (P c))
    (hfits : BUFFERSIZE ≤ k.kmallocMaxSize) (hw : s.workers[i]? = some w) (hdone : w.point ≠ .done)
    (hfree : (w.nextAction (P i)).Available s) :
    ∃ l s' o, Settling k P s l ∧ s.step k l = some (s', o) := by
  obtain ⟨v, hs⟩ := hreached.dispatching
  have hpoint := (nextAction_point (P i) hdone).symm
  have hstage := hs.doing i w hw
  have hnormal : w.Normal k s.device.driver (P i) (w.nextAction (P i)) := by
    refine nextAction_normal (fun hrecv => ?_) fun hwrite => ?_
    · rw [hrecv] at hstage
      exact hstage.2.2
    · rw [hwrite] at hstage
      exact ⟨hstage.2.2.1, Nat.le_of_lt (hP i).room,
        writeSucceeds_of_fits hs.device hs.tidy.pending (hP i) hfits⟩
  obtain ⟨s', v', hstep, -⟩ := worker_proceeds hs hreached.exclusive (hP i) hw hpoint hnormal hfree
  exact can_step_of_workerStep hs.main hw hpoint hnormal hstep

theorem dispatching_settles (hP : ∀ c, Line (P c)) (hreached : Dispatching.Reached k P acts outs s)
    (hfits : BUFFERSIZE ≤ k.kmallocMaxSize) {acts' : List Label} {outs' : List Event}
    (hrun : (serverMachine k).Run (Settling k P) s acts' outs' s') :
    acts'.length ≤ s.total Worker.work ∧ ((∀ l, Settling k P s' l → s'.step k l = none) →
      s'.workers.length = s'.accepted ∧ ∀ w ∈ s'.workers, w.point = .done) := by
  constructor
  · have hwork := hrun.length_add_rank_le
      (I := fun s => ∃ acts outs, Dispatching.Reached k P acts outs s) (Server.total Worker.work)
      ⟨acts, outs, hreached⟩ (by
        rintro s l s' o ⟨acts, outs, hs⟩ hguard hstep
        exact ⟨⟨_, _, hs.next hP hguard.1 hstep⟩, step_work_lt hs hP hguard hstep⟩)
    omega
  · intro hstuck
    have hall : Dispatching.Reached k P (acts ++ acts') (outs ++ outs') s' :=
      run_dispatching hP (hreached.run.append (hrun.mono fun _ _ hl => hl.1))
    obtain ⟨v, hs⟩ := hall.dispatching
    obtain ⟨haccept, hdone⟩ := done_of_can_step hall.exclusive hall.heard.sockets hs.main
      (fun _ _ hw hdone hfree => dispatching_can_step hall hP hfits hw hdone hfree) hstuck
    exact ⟨hall.heard.sockets.length_eq haccept, hdone⟩

/-- **Which packets are handled by the grammar**: the packets without the keyword and the commands.
In every run of the server in which worker `i` gets its packet, in any pieces and whatever fails
otherwise, the worker has asked of its descriptor what the grammar says exactly when its packet is
one of these. When nothing fails, for any number of clients that send one packet each, the same holds
with the reply; and every worker gets there: without new connections the server stops, with all
workers done. -/
theorem dispatch_iff (hP : ∀ c, Line (P c)) :
    (∀ (i : ℕ) (acts : List Label) (outs : List Event) (s : Server) (w : Worker),
      (serverMachine k).Run (fun _ l => l.Reliable i) .init acts outs s →
        receivedOn outs i <+: P i → s.workers[i]? = some w → w.point = .done →
          (Dispatched (P i) (requestsOf k i acts) ↔
            ¬ SEARCHSTRING <:+: P i ∨ ∃ seekto, SeekCommand (P i) seekto)) ∧
    (∀ (acts : List Label) (outs : List Event) (s : Server),
      (serverMachine k).Run (Undisturbed k P) .init acts outs s →
        (∀ (i : ℕ) (w : Worker), s.workers[i]? = some w → w.point = .done →
          (Handled (P i) (requestsOf k i acts) (sentTo outs i) ↔
            ¬ SEARCHSTRING <:+: P i ∨ ∃ seekto, SeekCommand (P i) seekto)) ∧
        (BUFFERSIZE ≤ k.kmallocMaxSize → ∀ acts' outs' s',
          (serverMachine k).Run (Settling k P) s acts' outs' s' →
            acts'.length ≤ s.total Worker.work ∧ ((∀ l, Settling k P s' l → s'.step k l = none) →
              s'.workers.length = s'.accepted ∧ ∀ w ∈ s'.workers, w.point = .done))) := by
  constructor
  · intro i acts outs s w hrun hreceived hw hpoint
    have hasked : w.point.Asked := Or.inl (by simp [hpoint, Point.Written])
    exact dispatched_iff (requests_of_packet (hP i) hrun hreceived hw hasked)
  · intro acts outs s hrun
    have hreached := run_dispatching hP hrun
    refine ⟨fun i w hw hpoint => ?_, fun hfits acts' outs' s' hrun' => ?_⟩
    · obtain ⟨v, hs⟩ := hreached.dispatching
      have hstage := hs.doing i w hw
      rw [hpoint] at hstage
      exact handled_iff hstage.1 hstage.2
    · exact dispatching_settles hP hreached hfits hrun'

/-- A packet, and a command: `AESDCHAR_IOCSEEKTO:0,1`. -/
def packetAndCommand : ℕ → List UInt8
  | 0 => [97, 10]
  | _ => SEARCHSTRING ++ [48, 44, 49, 10]

theorem dispatch_iff_packet_and_command : ∃ acts outs s,
    (serverMachine .x86).Run (Undisturbed .x86 packetAndCommand) .init acts outs s ∧
      Handled (packetAndCommand 0) (requestsOf .x86 0 acts) (sentTo outs 0) ∧
      Handled (packetAndCommand 1) (requestsOf .x86 1 acts) (sentTo outs 1) := by
  have hP : ∀ c, Line (packetAndCommand c) := by
    have hfirst : Line [97, 10] := ⟨by decide, by decide, by decide, by decide⟩
    have hsecond : Line (SEARCHSTRING ++ [48, 44, 49, 10]) :=
      ⟨by decide, by decide, by decide, by decide⟩
    intro c
    cases c with
    | zero => exact hfirst
    | succ c => exact hsecond
  set acts : List Label := acceptOne ++ acceptOne ++ receiving 0 [some [97, 10]] ++
    receiving 1 [some (packetAndCommand 1)] ++ writing 0 ++ answering 0 [2] ++ finishing 0 ++
    [.lockOpen, .open .device, .unlockOpen, .dispatch, .lockSeek, .ioctl ⟨false, 0⟩,
      .seekRead ⟨false, 0⟩ none, .seekSend (some 1), .seekRead ⟨false, 0⟩ none, .unlockSeek].map
        (.worker 1) ++ finishing 1
  obtain ⟨⟨s, outs⟩, hexec, heval⟩ := Option.map_eq_some_iff.1
    (show ((serverMachine .x86).execGuarded (Undisturbed .x86 packetAndCommand) .init acts).map
      (fun r => (r.1.workers[0]?.map (·.point), r.1.workers[1]?.map (·.point))) =
        some (some .done, some .done) by decide +kernel)
  obtain ⟨hzero, hone⟩ := Prod.mk.inj heval
  obtain ⟨w, hw, hpoint⟩ := Option.map_eq_some_iff.1 hzero
  obtain ⟨w', hw', hpoint'⟩ := Option.map_eq_some_iff.1 hone
  have hrun := Machine.Run.of_execGuarded hexec
  obtain ⟨-, hall⟩ := dispatch_iff (k := .x86) hP
  obtain ⟨hiff, -⟩ := hall acts outs s hrun
  have hx : Decimal [48] := ⟨by simp, by simp [isdigit], by decide⟩
  have hy : Decimal [49] := ⟨by simp, by simp [isdigit], by decide⟩
  have hcommand : SeekCommand (packetAndCommand 1) ⟨0, 1⟩ := ⟨[48], [49], hx, hy, rfl, rfl⟩
  exact ⟨acts, outs, s, hrun, (hiff 0 w hw hpoint).2 (Or.inl (by decide)),
    (hiff 1 w' hw' hpoint').2 (Or.inr ⟨_, hcommand⟩)⟩

/-- `AESDCHAR_IOCSEEKTO:x` is no command, and is not written either. -/
theorem keyword_packet_dropped : ¬ ∀ (P : ℕ → List UInt8) (acts : List Label) (outs : List Event)
    (s : Server) (i : ℕ) (w : Worker), (∀ c, Line (P c)) →
      (serverMachine .x86).Run (Undisturbed .x86 P) .init acts outs s →
        s.workers[i]? = some w → w.point = .done →
          Handled (P i) (requestsOf .x86 i acts) (sentTo outs i) := by
  intro h
  set packet : List UInt8 := SEARCHSTRING ++ [120, 10] with hpacket
  have hline : Line packet := ⟨by decide, by decide, by decide, by decide⟩
  set acts : List Label := acceptOne ++ receiving 0 [some packet] ++
    [.lockOpen, .open .device, .unlockOpen, .dispatch].map (.worker 0) ++ finishing 0
  obtain ⟨⟨s, outs⟩, hexec, heval⟩ := Option.map_eq_some_iff.1
    (show ((serverMachine .x86).execGuarded (Undisturbed .x86 fun _ => packet) .init acts).map
      (fun r => r.1.workers[0]?.map (·.point)) = some (some .done) by decide +kernel)
  obtain ⟨w, hw, hpoint⟩ := Option.map_eq_some_iff.1 heval
  obtain ⟨⟨-, hwrite⟩, -⟩ := h (fun _ => packet) acts outs s 0 w (fun _ => hline)
    (Machine.Run.of_execGuarded hexec) hw hpoint
  have hnot : ∀ seekto, ¬ SeekCommand packet seekto := by
    intro seekto hcommand
    have hscan := hcommand.parsed.2
    rw [show sscanfSeekto (packet.drop SEARCHSTRING.length) = none by decide] at hscan
    cases hscan
  have hnothing : requestsOf .x86 0 acts = [] := by decide +kernel
  have hrequests := hwrite hnot
  rw [hnothing] at hrequests
  cases hrequests

end AesdChar
