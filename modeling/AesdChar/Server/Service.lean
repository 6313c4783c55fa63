import AesdChar.Driver.Publishing
import AesdChar.Driver.Reading
import AesdChar.Server.Receiving

/-!
# Serving one packet

What a worker does when nothing disturbs it: its client sends one packet, in whatever pieces, and no
call fails (`Undisturbed`). At every point the worker is at a certain `Stage`: what it has loaded,
whether it has entered the write section, how much of the reply is out. A stage of one worker is
about that worker, and about the device only while the worker holds `file_mutex`, so the other
workers leave it alone (`Stage.frame`), and an action of the worker is possible and leads to the next
stage with less left to do (`worker_advances`).
-/

namespace AesdChar
open CInt CString BlockHeap Lines

/-- What a client sends: one line without a NUL and without a seek command, that fits the buffer. -/
structure Packet (xs : List UInt8) : Prop where
  nul : 0 ∉ xs
  search : ¬ SEARCHSTRING <:+: xs
  last : xs.getLast? = some newline
  only : newline ∉ xs.dropLast
  fits : xs.length ≤ BUFFERSIZE - 1

/-- What a packet is, whether it has the keyword of the seek command in it or not. -/
structure Line (xs : List UInt8) : Prop where
  nul : 0 ∉ xs
  last : xs.getLast? = some newline
  only : newline ∉ xs.dropLast
  fits : xs.length ≤ BUFFERSIZE - 1

theorem Line.room {xs : List UInt8} (h : Line xs) : xs.length < BUFFERSIZE :=
  lt_of_le_of_lt h.fits (by decide)

theorem Packet.line {xs : List UInt8} (h : Packet xs) : Line xs := ⟨h.nul, h.last, h.only, h.fits⟩

/-- An action whose calls do not fail, with a piece of the packet for every `recv`. -/
def Worker.Normal (k : KernelLimits) (d : Driver) (packet : List UInt8) (w : Worker) : Action → Prop
  | .malloc granted => granted = true
  | .recv received => ∃ xs ∈ received, xs ≠ [] ∧ xs <+: packet.drop w.totalBytesRead.toNat
  | .realloc tail => tail.isSome = true
  | .open fd => fd = .device
  | .write env => ∀ data ∈ w.writeData k, d.WriteSucceeds k data env
  | .ioctl env | .seekRead env _ | .read env _ => env = ⟨false, 0⟩
  | .seekSend sent | .send sent => sent = some w.readBuffer.length
  | _ => True

def MainAction.Normal : MainAction → Prop
  | .createNode granted => granted = true
  | .spawn created => created = true
  | _ => True

/-- The server goes on, no call fails, and the client of connection `c` sends the packet `P c`. -/
def Undisturbed (k : KernelLimits) (P : ℕ → List UInt8) (s : Server) : Label → Prop
  | .main a => a.Normal
  | .worker i a => ∀ w ∈ s.workers[i]?, w.Normal k s.device.driver (P i) a
  | .unlink | .stop => False

instance (k : KernelLimits) (d : Driver) (packet : List UInt8) (w : Worker) :
    (a : Action) → Decidable (w.Normal k d packet a)
  | .malloc _ | .realloc _ | .open _ | .ioctl _ | .seekRead .. | .read .. | .seekSend _ | .send _ =>
    inferInstanceAs (Decidable (_ = _))
  | .recv _ => inferInstanceAs (Decidable (∃ xs ∈ _, _))
  | .write _ => inferInstanceAs (Decidable (∀ data ∈ _, _))
  | .checkRunning | .lockOpen | .unlockOpen | .dispatch | .lockSeek | .unlockSeek | .lockWrite
  | .lseek | .unlockWrite | .free | .lockList | .finish | .unlockList =>
    inferInstanceAs (Decidable True)

instance : (a : MainAction) → Decidable a.Normal
  | .createNode _ | .spawn _ => inferInstanceAs (Decidable (_ = _))
  | .checkRunning | .accept _ | .lockCreate | .unlockCreate | .lockAppend | .unlockAppend
  | .lockSweep | .unlockSweep => inferInstanceAs (Decidable True)

instance (k : KernelLimits) (P : ℕ → List UInt8) (s : Server) :
    (l : Label) → Decidable (Undisturbed k P s l)
  | .main a => inferInstanceAs (Decidable a.Normal)
  | .worker _ _ => inferInstanceAs (Decidable (∀ w ∈ _, _))
  | .unlink | .stop => inferInstanceAs (Decidable False)

/-! ### What has happened -/

/-- Who entered the write section, who wrote, and what each client was sent. -/
structure History where
  order : List ℕ
  done : List ℕ
  sent : ℕ → List UInt8

def historyOf (acts : List Label) (outs : List Event) : History :=
  ⟨writeOrder acts, writeDone acts, sentTo outs⟩

/-- One step more. -/
def History.after (h : History) (l : Label) (o : Event) : History :=
  ⟨h.order ++ writeOrder [l], h.done ++ writeDone [l], fun c => h.sent c ++ sentTo [o] c⟩

theorem historyOf_append (acts : List Label) (outs : List Event) (l : Label) (o : Event) :
    historyOf (acts ++ [l]) (outs ++ [o]) = (historyOf acts outs).after l o := by
  have hsent : sentTo (outs ++ [o]) = fun c => sentTo outs c ++ sentTo [o] c := by
    funext c
    simp [sentTo]
  rw [historyOf, hsent]
  simp [historyOf, History.after, writeOrder, writeDone]

/-- The packets that are stored when these clients have written. -/
def stored (P : ℕ → List UInt8) (clients : List ℕ) : List (List UInt8) :=
  (clients.map P).rtake maxWriteOperations

/-- What the client at place `j` of the order is sent. -/
def replyTo (P : ℕ → List UInt8) (order : List ℕ) (j : ℕ) : List UInt8 :=
  (stored P (order.take (j + 1))).flatten

namespace History
variable (h : History) (P : ℕ → List UInt8) (i : ℕ)

/-- Client `i` is still to come. -/
def Waits : Prop := i ∉ h.order ∧ h.sent i = []

/-- Client `i` is the last one that wrote, and nobody is about to write. -/
def Serves : Prop := h.order = h.done ∧ ∃ before, h.done = before ++ [i]

/-- Client `i` has its reply. -/
def Served : Prop := ∃ j, h.order[j]? = some i ∧ h.sent i = replyTo P h.order j

variable {h P i}

theorem after_quiet {l : Label} {o : Event} (horder : writeOrder [l] = []) (hdone : writeDone [l] = [])
    (hsent : ∀ c, sentTo [o] c = []) : h.after l o = h := by
  simp [History.after, horder, hdone, hsent]

end History

/-! ### Stages -/

/-- How far worker `i` is at a point, with its handle at `pos`. -/
def Worker.Stage (P : ℕ → List UInt8) (h : History) (pos : ℤ) (i : ℕ) (w : Worker) : Point → Prop
  | .malloc => h.Waits i ∧ w.bufferSize = BUFFERSIZE ∧ w.totalBytesRead = 0
  | .checkRunning | .recv => h.Waits i ∧ ∃ got rest, P i = got ++ rest ∧ rest ≠ [] ∧ w.Loaded got
  | .lockOpen => h.Waits i ∧ w.Loaded (P i)
  | .open => h.Waits i ∧ w.Loaded (P i) ∧ h.order = h.done
  | .unlockOpen => h.Waits i ∧ w.Loaded (P i) ∧ h.order = h.done ∧ w.fileFd = .device ∧ pos = 0
  | .dispatch | .lockWrite => h.Waits i ∧ w.Loaded (P i) ∧ w.fileFd = .device ∧ pos = 0
  | .write => h.order = h.done ++ [i] ∧ h.sent i = [] ∧ w.Loaded (P i) ∧ w.fileFd = .device ∧ pos = 0
  | .lseek => h.Serves i ∧ h.sent i = [] ∧ w.fileFd = .device ∧ pos = 0
  | .read => h.Serves i ∧ w.fileFd = .device ∧ ∃ p : ℕ, pos = p ∧
      p ≤ (stored P h.done).flatten.length ∧ h.sent i = (stored P h.done).flatten.take p
  | .send => h.Serves i ∧ w.fileFd = .device ∧ ∃ p : ℕ, pos = p ∧
      p ≤ (stored P h.done).flatten.length ∧
      h.sent i ++ w.readBuffer = (stored P h.done).flatten.take p
  | .unlockWrite => h.Serves i ∧ h.sent i = (stored P h.done).flatten
  | .free | .lockList | .finish | .unlockList | .done => h.Served P i
  | .realloc | .lockSeek | .ioctl | .seekRead | .seekSend | .unlockSeek => False

/-- No reply is longer. -/
def maxReply : ℕ := maxWriteOperations * BUFFERSIZE

/-- How many actions the worker has left at most. -/
def Worker.rank (w : Worker) (pos : ℤ) : ℕ :=
  match w.point with
  | .malloc => 2 * BUFFERSIZE + 2 * maxReply + 19
  | .checkRunning => 2 * (BUFFERSIZE - w.totalBytesRead.toNat) + 2 * maxReply + 18
  | .recv => 2 * (BUFFERSIZE - w.totalBytesRead.toNat) + 2 * maxReply + 17
  | .lockOpen => 2 * maxReply + 16
  | .open => 2 * maxReply + 15
  | .unlockOpen => 2 * maxReply + 14
  | .dispatch => 2 * maxReply + 13
  | .lockWrite => 2 * maxReply + 12
  | .write => 2 * maxReply + 11
  | .lseek => 2 * maxReply + 10
  | .send => 2 * (maxReply - pos.toNat) + 10
  | .read => 2 * (maxReply - pos.toNat) + 9
  | .unlockWrite => 8
  | .free => 7
  | .lockList => 6
  | .finish => 5
  | .unlockList => 4
  | _ => 0

/-- The device holds what the clients wrote, and every worker is at its stage. -/
structure Serving (k : KernelLimits) (P : ℕ → List UInt8) (h : History) (s : Server) : Prop where
  running : s.running = true
  nodePresent : s.nodePresent = true
  main : s.main ≠ .exited
  log : ∃ v, s.device.Represents k v ∧ v.log.pending = [] ∧ v.log.lines = stored P h.done
  settled : s.fileMutex = none → h.order = h.done
  nodup : h.order.Nodup
  fresh : ∀ c, s.workers.length ≤ c → h.Waits c
  stage : ∀ (i : ℕ) (w : Worker), s.workers[i]? = some w →
    w.Stage P h (s.device.fPos i) i w.point

variable {k : KernelLimits} {P : ℕ → List UInt8} {h : History} {s s' : Server} {i : ℕ} {a : Action}
  {w w' : Worker} {v : View} {xs : List UInt8}

theorem Line.newline_mem_iff {got rest : List UInt8} (h : Line (got ++ rest)) :
    newline ∈ got ↔ rest = [] := by
  constructor
  · intro hmem
    by_contra hne
    refine h.only ?_
    rw [List.dropLast_append_of_ne_nil hne]
    exact List.mem_append_left _ hmem
  · rintro rfl
    have hlast := h.last
    rw [List.append_nil] at hlast
    exact List.mem_of_getLast? hlast

theorem receive_piece {got rest : List UInt8} (hline : Line (got ++ xs ++ rest))
    (hloaded : w.Loaded got) (hne : xs ≠ []) : ∃ w', w.receive (some xs) = some w' ∧
      w'.Loaded (got ++ xs) ∧ w'.point = if rest = [] then .lockOpen else .checkRunning := by
  have hfits := hline.fits
  have hnul := hline.nul
  rw [List.length_append] at hfits
  rw [List.mem_append, not_or] at hnul
  have hroom : (got ++ xs).length < BUFFERSIZE := by
    simp only [BUFFERSIZE] at *
    omega
  obtain ⟨w', hreceive, hloaded', hpoint'⟩ := hloaded.receive_point hroom hnul.1
  refine ⟨w', hreceive, hloaded', ?_⟩
  simp only [hpoint', hne, false_or, hline.newline_mem_iff]

theorem recv_piece {packet got rest : List UInt8} (hpoint : w.point = .recv) (hline : Line packet)
    (hsplit : packet = got ++ rest) (hloaded : w.Loaded got) (hne : xs ≠ [])
    (hpiece : xs <+: packet.drop w.totalBytesRead.toNat) :
    ∃ w', s.workerStep k i w (.recv (some xs)) = some (s.put i w') ∧
      (∀ pos, w'.rank pos < w.rank pos) ∧
      (w'.point = .lockOpen ∧ w'.Loaded packet ∨ w'.point = .checkRunning ∧
        ∃ rest', packet = got ++ xs ++ rest' ∧ rest' ≠ [] ∧ w'.Loaded (got ++ xs)) := by
  subst hsplit
  have htotal : w.totalBytesRead.toNat = got.length := by rw [hloaded.total, Int.toNat_natCast]
  rw [htotal, List.drop_left] at hpiece
  obtain ⟨rest, rfl⟩ := hpiece
  rw [← List.append_assoc] at hline ⊢
  obtain ⟨w', hreceive, hloaded', hpoint'⟩ := receive_piece hline hloaded hne
  have hlen : 0 < xs.length := List.length_pos_iff.2 hne
  have hroom := hline.room
  rw [List.length_append, List.length_append] at hroom
  refine ⟨w', by simp [Server.workerStep, Worker.step, hreceive], fun pos => ?_, ?_⟩
  · by_cases hrest : rest = []
    · rw [if_pos hrest] at hpoint'
      simp only [Worker.rank, hpoint, hpoint']
      omega
    · rw [if_neg hrest] at hpoint'
      simp only [Worker.rank, hpoint, hpoint', hloaded'.total, htotal, Int.toNat_natCast,
        List.length_append]
      omega
  · by_cases hrest : rest = []
    · rw [if_pos hrest] at hpoint'
      rw [hrest, List.append_nil]
      exact Or.inl ⟨hpoint', hloaded'⟩
    · rw [if_neg hrest] at hpoint'
      exact Or.inr ⟨hpoint', rest, rfl, hrest, hloaded'⟩

theorem onDevice_of_valid (hv : s.device.Represents k v) {c : Call} (hc : c.Valid k)
    (next : Reply → Worker) : ∃ s', s.onDevice k i c next = some s' ∧
      s'.device.Represents k (v.call k (s.device.fPos i) c).2 ∧
      s'.workers = s.workers.set i (next (v.call k (s.device.fPos i) c).1) ∧
      s'.device.fPos i = (v.call k (s.device.fPos i) c).1.fPos ∧
      ∀ j, j ≠ i → s'.device.fPos j = s.device.fPos j := by
  obtain ⟨d, hd, hrep, hpos⟩ := step_refines hv i hc
  refine ⟨({ s with device := d } : Server).put i (next (v.call k (s.device.fPos i) c).1), ?_, hrep,
    rfl, ?_, fun j hj => ?_⟩
  · simp [Server.onDevice, hd]
  · simp [Server.put, hpos]
  · simp [Server.put, hpos, Function.update_of_ne hj]

/-- What an action of worker `i` leads to. -/
structure Advances (k : KernelLimits) (P : ℕ → List UInt8) (h : History) (s s' : Server) (i : ℕ)
    (w : Worker) : Prop where
  log : ∃ v, s'.device.Represents k v ∧ v.log.pending = [] ∧ v.log.lines = stored P h.done
  others : ∀ c, c ≠ i → s'.device.fPos c = s.device.fPos c
  self : ∃ w', s'.workers = s.workers.set i w' ∧
    w'.Stage P h (s'.device.fPos i) i w'.point ∧
    w'.rank (s'.device.fPos i) < w.rank (s.device.fPos i)

/-- The action is possible, and it advances the worker. -/
def Server.CanAdvance (k : KernelLimits) (P : ℕ → List UInt8) (h : History) (s : Server) (i : ℕ)
    (w : Worker) (a : Action) : Prop :=
  ∃ s', s.workerStep k i w a = some s' ∧
    Advances k P (h.after (.worker i a) (w.event a)) s s' i w

theorem canAdvance_of_device_eq (hs : Serving k P h s)
    (hdone : (h.after (.worker i a) (w.event a)).done = h.done)
    (hstep : s.workerStep k i w a = some s') (hworkers : s'.workers = s.workers.set i w')
    (hdevice : s'.device = s.device)
    (hstage : w'.Stage P (h.after (.worker i a) (w.event a)) (s.device.fPos i) i w'.point)
    (hrank : w'.rank (s.device.fPos i) < w.rank (s.device.fPos i)) : s.CanAdvance k P h i w a := by
  refine ⟨s', hstep, ?_, fun c _ => by rw [hdevice], w', hworkers, ?_, ?_⟩
  · rw [hdevice, hdone]
    exact hs.log
  · rwa [hdevice]
  · rwa [hdevice]

theorem canAdvance_of_quiet (hs : Serving k P h s)
    (hafter : h.after (.worker i a) (w.event a) = h) (hstep : s.workerStep k i w a = some s')
    (hworkers : s'.workers = s.workers.set i w') (hdevice : s'.device = s.device)
    (hstage : w'.Stage P h (s.device.fPos i) i w'.point)
    (hrank : w'.rank (s.device.fPos i) < w.rank (s.device.fPos i)) : s.CanAdvance k P h i w a :=
  canAdvance_of_device_eq hs (by rw [hafter]) hstep hworkers hdevice (hafter.symm ▸ hstage) hrank

theorem canAdvance_of_call {c : Call} {next : Reply → Worker} (hv : s.device.Represents k v)
    (hc : c.Valid k) (hstep : s.workerStep k i w a = s.onDevice k i c next)
    (hlog : (v.call k (s.device.fPos i) c).2.log.pending = [] ∧
      (v.call k (s.device.fPos i) c).2.log.lines =
        stored P (h.after (.worker i a) (w.event a)).done)
    {r : Reply} (hr : (v.call k (s.device.fPos i) c).1 = r)
    (hstage : (next r).Stage P (h.after (.worker i a) (w.event a)) r.fPos i (next r).point)
    (hrank : (next r).rank r.fPos < w.rank (s.device.fPos i)) : s.CanAdvance k P h i w a := by
  subst hr
  obtain ⟨s', hcall, hrep, hworkers, hself, hothers⟩ := onDevice_of_valid hv hc next
  refine ⟨s', hstep.trans hcall, ⟨_, hrep, hlog⟩, hothers, _, hworkers, ?_, ?_⟩
  · rwa [hself]
  · rwa [hself]

theorem Line.ne_nil (h : Line xs) : xs ≠ [] := by
  intro hnil
  have hlast := h.last
  rw [hnil] at hlast
  cases hlast

theorem Line.isLine (h : Line xs) : IsLine isNewline xs := by
  have hline : IsLine isNewline ([] ++ xs) := (isLine_iff_of_last h.last).2 ⟨by simp, h.only⟩
  simpa using hline

theorem write_line (hv : s.device.Represents k v) (hpending : v.log.pending = []) (hline : Line xs)
    {env : WriteEnv} (hlen : xs.length ≤ k.maxRwCount)
    (hok : s.device.driver.WriteSucceeds k xs env) (pos : ℤ) :
    (v.call k pos (.write xs env)).2.log.pending = [] ∧
      (v.call k pos (.write xs env)).2.log.lines = (v.log.lines ++ [xs]).rtake maxWriteOperations := by
  have hisLine : IsLine isNewline (v.log.pending ++ xs) := by
    rw [hpending]
    exact hline.isLine
  obtain ⟨hlines', hpending'⟩ := LineLog.append_of_isLine (N := maxWriteOperations) hisLine
  rw [View.call, View.write_of_succeeds hv.driver hlen hok]
  refine ⟨hpending', ?_⟩
  rw [View.append, hlines', hpending, List.nil_append]

theorem read_reply (hv : s.device.Represents k v) {p n : ℕ} (hpos : s.device.fPos i = p)
    (hn : 0 < n) : ∃ xs : List UInt8,
      (v.call k (s.device.fPos i) (.read (min n k.maxRwCount) ⟨false, 0⟩)).1 =
        ⟨xs.length, xs, (p + xs.length : ℕ)⟩ ∧
      xs <+: v.log.contents.drop p ∧ (xs = [] → v.log.contents.length ≤ p) := by
  refine ⟨v.front p (min n k.maxRwCount), ?_, v.front_prefix p _, fun hnil => ?_⟩
  · rw [View.call, v.read_eq_front (hv.fPos i).1, hpos, Int.toNat_natCast]
  · rcases (v.front_eq_nil_iff p _).1 hnil with hzero | hend
    · have hpage := k.pageSize_le
      simp only [KernelLimits.maxRwCount] at hzero
      omega
    · exact hend

theorem stored_concat (P : ℕ → List UInt8) (clients : List ℕ) (i : ℕ) :
    stored P (clients ++ [i]) = (stored P clients ++ [P i]).rtake maxWriteOperations := by
  rw [stored, stored, List.map_append, List.map_singleton, List.rtake_append_rtake]

theorem length_flatten_le {lines : List (List UInt8)} (hcount : lines.length ≤ maxWriteOperations)
    (hone : ∀ line ∈ lines, line.length ≤ BUFFERSIZE) : lines.flatten.length ≤ maxReply := by
  rw [List.length_flatten]
  calc (lines.map List.length).sum ≤ (lines.map List.length).length • BUFFERSIZE :=
        List.sum_le_card_nsmul _ _ (by simpa using hone)
    _ = lines.length * BUFFERSIZE := by rw [List.length_map, smul_eq_mul]
    _ ≤ maxReply := Nat.mul_le_mul_right _ hcount

theorem length_stored_le (hP : ∀ c, Packet (P c)) (clients : List ℕ) :
    (stored P clients).flatten.length ≤ maxReply := by
  refine length_flatten_le ?_ fun xs hxs => ?_
  · rw [stored, List.length_rtake]
    exact Nat.min_le_left _ _
  · obtain ⟨c, -, rfl⟩ := List.mem_map.1 (List.rtake_suffix.subset hxs)
    exact (hP c).fits.trans (Nat.sub_le _ _)

section Actions
variable (hs : Serving k P h s) (hw : s.workers[i]? = some w)
include hs hw

theorem malloc_advances (hpoint : w.point = .malloc) (hP : P i ≠ []) :
    s.CanAdvance k P h i w (.malloc true) := by
  have hstage : w.Stage P h (s.device.fPos i) i .malloc := hpoint ▸ hs.stage i w hw
  obtain ⟨hwaits, hsize, htotal⟩ := hstage
  refine canAdvance_of_quiet hs (History.after_quiet rfl rfl fun _ => rfl) rfl rfl rfl
    ⟨hwaits, [], P i, rfl, hP, hsize, htotal, _, rfl, rfl, rfl⟩ ?_
  simp only [Worker.rank, hpoint, htotal]
  omega

theorem checkRunning_advances (hpoint : w.point = .checkRunning) :
    s.CanAdvance k P h i w .checkRunning := by
  have hstage : w.Stage P h (s.device.fPos i) i .checkRunning := hpoint ▸ hs.stage i w hw
  obtain ⟨hwaits, got, rest, hsplit, hne, hloaded⟩ := hstage
  have hstep : s.workerStep k i w .checkRunning = some (s.put i (w.goto .recv)) := by
    simp [Server.workerStep, Worker.step, hs.running]
  refine canAdvance_of_quiet hs (History.after_quiet rfl rfl fun _ => rfl) hstep rfl rfl
    ⟨hwaits, got, rest, hsplit, hne, hloaded.of_eq rfl rfl rfl⟩ ?_
  simp only [Worker.rank, Worker.goto, hpoint]
  omega

theorem recv_advances (hpoint : w.point = .recv) (hP : Packet (P i)) (hne : xs ≠ [])
    (hpiece : xs <+: (P i).drop w.totalBytesRead.toNat) :
    s.CanAdvance k P h i w (.recv (some xs)) := by
  have hstage : w.Stage P h (s.device.fPos i) i .recv := hpoint ▸ hs.stage i w hw
  obtain ⟨hwaits, got, rest, hsplit, -, hloaded⟩ := hstage
  obtain ⟨w', hstep, hrank, ⟨hpoint', hloaded'⟩ | ⟨hpoint', rest', hsplit', hrest, hloaded'⟩⟩ :=
    recv_piece (s := s) (k := k) (i := i) hpoint hP.line hsplit hloaded hne hpiece
  · refine canAdvance_of_quiet hs (History.after_quiet rfl rfl fun _ => rfl) hstep rfl rfl ?_
      (hrank _)
    rw [hpoint']
    exact ⟨hwaits, hloaded'⟩
  · refine canAdvance_of_quiet hs (History.after_quiet rfl rfl fun _ => rfl) hstep rfl rfl ?_
      (hrank _)
    rw [hpoint']
    exact ⟨hwaits, got ++ xs, rest', hsplit', hrest, hloaded'⟩

theorem lockOpen_advances (hpoint : w.point = .lockOpen) (hfree : s.fileMutex = none) :
    s.CanAdvance k P h i w .lockOpen := by
  have hstage : w.Stage P h (s.device.fPos i) i .lockOpen := hpoint ▸ hs.stage i w hw
  refine canAdvance_of_quiet hs (History.after_quiet rfl rfl fun _ => rfl) (if_pos hfree) rfl rfl
    ⟨hstage.1, hstage.2.of_eq rfl rfl rfl, hs.settled hfree⟩ ?_
  simp only [Worker.rank, Worker.goto, hpoint]
  omega

theorem open_advances (hpoint : w.point = .open) : s.CanAdvance k P h i w (.open .device) := by
  have hstage : w.Stage P h (s.device.fPos i) i .open := hpoint ▸ hs.stage i w hw
  obtain ⟨hwaits, hloaded, hsettled⟩ := hstage
  obtain ⟨v, hv, hlog⟩ := hs.log
  have hafter : h.after (.worker i (.open .device)) (w.event (.open .device)) = h :=
    History.after_quiet rfl rfl fun _ => rfl
  have hstep : s.workerStep k i w (.open .device) =
      s.onDevice k i .open fun _ => { w with fileFd := .device, point := .unlockOpen } :=
    if_pos hs.nodePresent
  refine canAdvance_of_call (c := .open) hv trivial hstep (hafter.symm ▸ hlog) rfl
    (hafter.symm ▸ ⟨hwaits, hloaded.of_eq rfl rfl rfl, hsettled, rfl, rfl⟩) ?_
  simp only [Worker.rank, hpoint]
  omega

theorem unlockOpen_advances (hpoint : w.point = .unlockOpen)
    (hheld : s.fileMutex = some (.worker i)) : s.CanAdvance k P h i w .unlockOpen := by
  have hstage : w.Stage P h (s.device.fPos i) i .unlockOpen := hpoint ▸ hs.stage i w hw
  obtain ⟨hwaits, hloaded, -, hfd, hpos⟩ := hstage
  refine canAdvance_of_quiet hs (History.after_quiet rfl rfl fun _ => rfl) (if_pos hheld) rfl rfl
    ⟨hwaits, hloaded.of_eq rfl rfl rfl, hfd, hpos⟩ ?_
  simp only [Worker.rank, Worker.goto, hpoint]
  omega

theorem dispatch_advances (hpoint : w.point = .dispatch) (hP : Packet (P i)) :
    s.CanAdvance k P h i w .dispatch := by
  have hstage : w.Stage P h (s.device.fPos i) i .dispatch := hpoint ▸ hs.stage i w hw
  obtain ⟨hwaits, hloaded, hfd, hpos⟩ := hstage
  have hstep : s.workerStep k i w .dispatch = some (s.put i (w.goto .lockWrite)) := by
    simp [Server.workerStep, Worker.step, hloaded.parse_of_no_search hP.line.room hP.nul hP.search]
  refine canAdvance_of_quiet hs (History.after_quiet rfl rfl fun _ => rfl) hstep rfl rfl
    ⟨hwaits, hloaded.of_eq rfl rfl rfl, hfd, hpos⟩ ?_
  simp only [Worker.rank, Worker.goto, hpoint]
  omega

theorem lockWrite_advances (hpoint : w.point = .lockWrite) (hfree : s.fileMutex = none) :
    s.CanAdvance k P h i w .lockWrite := by
  have hstage : w.Stage P h (s.device.fPos i) i .lockWrite := hpoint ▸ hs.stage i w hw
  obtain ⟨⟨-, hsent⟩, hloaded, hfd, hpos⟩ := hstage
  have horder : (h.after (.worker i .lockWrite) (w.event .lockWrite)).order = h.done ++ [i] := by
    rw [← hs.settled hfree]
    rfl
  have hdone : (h.after (.worker i .lockWrite) (w.event .lockWrite)).done = h.done :=
    List.append_nil _
  refine canAdvance_of_device_eq hs hdone (if_pos hfree) rfl rfl
    ⟨by rw [horder, hdone], ?_, hloaded.of_eq rfl rfl rfl, hfd, hpos⟩ ?_
  · exact (List.append_nil _).trans hsent
  · simp only [Worker.rank, Worker.goto, hpoint]
    omega

theorem write_advances {env : WriteEnv} (hpoint : w.point = .write) (hP : Packet (P i))
    (hok : s.device.driver.WriteSucceeds k (P i) env) : s.CanAdvance k P h i w (.write env) := by
  have hstage : w.Stage P h (s.device.fPos i) i .write := hpoint ▸ hs.stage i w hw
  obtain ⟨horder, hsent, hloaded, hfd, hpos⟩ := hstage
  obtain ⟨v, hv, hpending, hlines⟩ := hs.log
  obtain ⟨hdata, hlen⟩ := hloaded.writeData_eq (hP.fits.trans (Nat.sub_le _ _)) k
  have hstep : s.workerStep k i w (.write env) =
      s.onDevice k i (.write (P i) env) fun _ => w.goto .lseek := by
    simp only [Server.workerStep, Server.writeFile, hfd, hdata]
  have hdone : (h.after (.worker i (.write env)) (w.event (.write env))).done = h.done ++ [i] := rfl
  refine canAdvance_of_call (c := .write (P i) env) hv hlen hstep ?_ rfl ?_ ?_
  · rw [hdone, stored_concat, ← hlines]
    exact write_line hv hpending hP.line hlen hok _
  · refine ⟨⟨?_, h.done, rfl⟩, (List.append_nil _).trans hsent, hfd, hpos⟩
    rw [hdone, ← horder]
    exact List.append_nil _
  · simp only [Worker.rank, Worker.goto, hpoint]
    omega

theorem lseek_advances (hpoint : w.point = .lseek) : s.CanAdvance k P h i w .lseek := by
  have hstage : w.Stage P h (s.device.fPos i) i .lseek := hpoint ▸ hs.stage i w hw
  obtain ⟨hserves, hsent, hfd, hpos⟩ := hstage
  obtain ⟨v, hv, hlog⟩ := hs.log
  have hafter : h.after (.worker i .lseek) (w.event .lseek) = h :=
    History.after_quiet rfl rfl fun _ => rfl
  -- the position stays what it is, and that is 0
  have hr : (v.call k (s.device.fPos i) (.llseek 0 SEEK_SET false)).1 = ⟨0, [], 0⟩ := by
    rw [hpos]
    rfl
  have hstep : s.workerStep k i w .lseek =
      s.onDevice k i (.llseek 0 SEEK_SET false) fun _ => w.goto .read := if_pos hfd
  refine canAdvance_of_call (c := .llseek 0 SEEK_SET false) hv (show _ ∧ _ by decide) hstep
    (hafter.symm ▸ hlog) hr ?_ ?_
  · rw [hafter]
    exact ⟨hserves, hfd, 0, rfl, Nat.zero_le _, hsent⟩
  · simp only [Worker.rank, Worker.goto, hpoint]
    omega

theorem read_advances {plain : Option (List UInt8)} (hpoint : w.point = .read)
    (hP : ∀ c, Packet (P c)) : s.CanAdvance k P h i w (.read ⟨false, 0⟩ plain) := by
  have hstage : w.Stage P h (s.device.fPos i) i .read := hpoint ▸ hs.stage i w hw
  obtain ⟨hserves, hfd, p, hpos, hp, hsent⟩ := hstage
  obtain ⟨v, hv, hlog⟩ := hs.log
  have hafter : h.after (.worker i (.read ⟨false, 0⟩ plain))
      (w.event (.read ⟨false, 0⟩ plain)) = h := History.after_quiet rfl rfl fun _ => rfl
  have hcontents : v.log.contents = (stored P h.done).flatten := by rw [LineLog.contents, hlog.2]
  have hmax := length_stored_le hP h.done
  obtain ⟨xs, hread, hprefix, hend⟩ := read_reply hv hpos (show 0 < BUFFERSIZE by decide)
  set count := min BUFFERSIZE k.maxRwCount with hcount
  have hstep : s.workerStep k i w (.read ⟨false, 0⟩ plain) =
      s.onDevice k i (.read count ⟨false, 0⟩) fun r =>
        if 0 < r.ret then { w with readBuffer := r.data, point := .send } else w.goto .unlockWrite := by
    simp only [Server.workerStep, Server.readFile, hfd, hcount]
  rw [hcontents] at hprefix hend
  have hlen := hprefix.length_le
  rw [List.length_drop] at hlen
  by_cases hnil : xs = []
  · have hend := hend hnil
    rw [hnil] at hread
    refine canAdvance_of_call (c := .read count ⟨false, 0⟩) hv trivial hstep (hafter.symm ▸ hlog)
      hread ?_ ?_
    · rw [hafter]
      exact ⟨hserves, by rw [hsent, List.take_of_length_le hend]⟩
    · simp only [Worker.rank, hpoint]
      simp [Worker.goto]
  · have hpos_len : 0 < xs.length := List.length_pos_iff.2 hnil
    have hgot : (0 : ℤ) < xs.length := by exact_mod_cast hpos_len
    refine canAdvance_of_call (c := .read count ⟨false, 0⟩) hv trivial hstep (hafter.symm ▸ hlog)
      hread ?_ ?_
    · rw [hafter]
      simp only [if_pos hgot]
      refine ⟨hserves, hfd, p + xs.length, rfl, by omega, ?_⟩
      rw [hsent, List.take_add, ← List.prefix_iff_eq_take.1 hprefix]
    · simp only [if_pos hgot, Worker.rank, hpoint, hpos, Int.toNat_natCast]
      omega

theorem send_advances (hpoint : w.point = .send) (hsocket : w.clientSocket = i) :
    s.CanAdvance k P h i w (.send (some w.readBuffer.length)) := by
  have hstage : w.Stage P h (s.device.fPos i) i .send := hpoint ▸ hs.stage i w hw
  obtain ⟨hserves, hfd, p, hpos, hp, hsent⟩ := hstage
  have hafter : h.after (.worker i (.send (some w.readBuffer.length)))
      (w.event (.send (some w.readBuffer.length))) =
        ⟨h.order, h.done, fun c => h.sent c ++ if i = c then w.readBuffer else []⟩ := by
    simp [History.after, writeOrder, writeDone, sentTo, Worker.event, hsocket]
  have hstep : s.workerStep k i w (.send (some w.readBuffer.length)) =
      some (s.put i (w.goto .read)) := by simp [Server.workerStep, Worker.step]
  refine canAdvance_of_device_eq hs (by rw [hafter]) hstep rfl rfl ?_ ?_
  · rw [hafter]
    refine ⟨hserves, hfd, p, hpos, hp, ?_⟩
    simp only [if_true]
    exact hsent
  · simp only [Worker.rank, Worker.goto, hpoint]
    omega

theorem unlockWrite_advances (hpoint : w.point = .unlockWrite)
    (hheld : s.fileMutex = some (.worker i)) : s.CanAdvance k P h i w .unlockWrite := by
  have hstage : w.Stage P h (s.device.fPos i) i .unlockWrite := hpoint ▸ hs.stage i w hw
  obtain ⟨⟨horder, before, hbefore⟩, hsent⟩ := hstage
  have hserved : h.Served P i := by
    refine ⟨before.length, by simp [horder, hbefore], ?_⟩
    rw [hsent, replyTo, horder, List.take_of_length_le (by simp [hbefore])]
  refine canAdvance_of_quiet hs (History.after_quiet rfl rfl fun _ => rfl) (if_pos hheld) rfl rfl
    hserved ?_
  simp only [Worker.rank, Worker.goto, hpoint]
  omega

theorem free_advances (hpoint : w.point = .free) : s.CanAdvance k P h i w .free := by
  have hstage : w.Stage P h (s.device.fPos i) i .free := hpoint ▸ hs.stage i w hw
  refine canAdvance_of_quiet hs (History.after_quiet rfl rfl fun _ => rfl) rfl rfl rfl hstage ?_
  simp only [Worker.rank, hpoint]
  omega

theorem lockList_advances (hpoint : w.point = .lockList) (hfree : s.listMutex = none) :
    s.CanAdvance k P h i w .lockList := by
  have hstage : w.Stage P h (s.device.fPos i) i .lockList := hpoint ▸ hs.stage i w hw
  refine canAdvance_of_quiet hs (History.after_quiet rfl rfl fun _ => rfl) (if_pos hfree) rfl rfl
    hstage ?_
  simp only [Worker.rank, Worker.goto, hpoint]
  omega

theorem finish_advances (hpoint : w.point = .finish) : s.CanAdvance k P h i w .finish := by
  have hstage : w.Stage P h (s.device.fPos i) i .finish := hpoint ▸ hs.stage i w hw
  refine canAdvance_of_quiet hs (History.after_quiet rfl rfl fun _ => rfl) rfl rfl rfl hstage ?_
  simp only [Worker.rank, hpoint]
  omega

theorem unlockList_advances (hpoint : w.point = .unlockList)
    (hheld : s.listMutex = some (.worker i)) : s.CanAdvance k P h i w .unlockList := by
  have hstage : w.Stage P h (s.device.fPos i) i .unlockList := hpoint ▸ hs.stage i w hw
  refine canAdvance_of_quiet hs (History.after_quiet rfl rfl fun _ => rfl) (if_pos hheld) rfl rfl
    hstage ?_
  simp only [Worker.rank, Worker.goto, hpoint]
  omega

end Actions

/-- The mutex that an action takes is free. -/
def Action.Available (s : Server) : Action → Prop
  | .lockOpen | .lockSeek | .lockWrite => s.fileMutex = none
  | .lockList => s.listMutex = none
  | _ => True

/-- Every action of a worker that meets no failure is possible when the mutex it takes is free, and
it leads to the next stage. -/
theorem worker_advances (hs : Serving k P h s) (hexclusive : s.Exclusive) (hsockets : s.Sockets)
    (hP : ∀ c, Packet (P c)) (hw : s.workers[i]? = some w) (hpoint : w.point = a.point)
    (hnormal : w.Normal k s.device.driver (P i) a) (hfree : a.Available s) :
    s.CanAdvance k P h i w a := by
  have hstage := hs.stage i w hw
  rw [hpoint] at hstage
  have hfile : a.point.holdsFile = true → s.fileMutex = some (.worker i) := fun hholds =>
    (hexclusive.file (.worker i)).2 ⟨w, hw, hpoint ▸ hholds⟩
  have hlist : a.point.holdsList = true → s.listMutex = some (.worker i) := fun hholds =>
    (hexclusive.list hs.main (.worker i)).2 ⟨w, hw, hpoint ▸ hholds⟩
  cases a with
  | malloc granted =>
    obtain rfl : granted = true := hnormal
    exact malloc_advances hs hw hpoint (hP i).line.ne_nil
  | checkRunning => exact checkRunning_advances hs hw hpoint
  | recv received =>
    obtain ⟨xs, rfl, hne, hpiece⟩ := hnormal
    exact recv_advances hs hw hpoint (hP i) hne hpiece
  | lockOpen => exact lockOpen_advances hs hw hpoint hfree
  | «open» fd =>
    obtain rfl : fd = .device := hnormal
    exact open_advances hs hw hpoint
  | unlockOpen => exact unlockOpen_advances hs hw hpoint (hfile rfl)
  | dispatch => exact dispatch_advances hs hw hpoint (hP i)
  | lockWrite => exact lockWrite_advances hs hw hpoint hfree
  | write env =>
    obtain ⟨hdata, -⟩ := hstage.2.2.1.writeData_eq ((hP i).fits.trans (Nat.sub_le _ _)) k
    exact write_advances hs hw hpoint (hP i) (hnormal (P i) hdata)
  | lseek => exact lseek_advances hs hw hpoint
  | read env plain =>
    obtain rfl : env = ⟨false, 0⟩ := hnormal
    exact read_advances hs hw hpoint hP
  | send sent =>
    obtain rfl : sent = some w.readBuffer.length := hnormal
    exact send_advances hs hw hpoint (hsockets.worker i w hw)
  | unlockWrite => exact unlockWrite_advances hs hw hpoint (hfile rfl)
  | free => exact free_advances hs hw hpoint
  | lockList => exact lockList_advances hs hw hpoint hfree
  | finish => exact finish_advances hs hw hpoint
  | unlockList => exact unlockList_advances hs hw hpoint (hlist rfl)
  | realloc | lockSeek | ioctl | seekRead | seekSend | unlockSeek => exact hstage.elim

end AesdChar
