import AesdChar.Driver.Seeking
import AesdChar.Server.Actions
import AesdChar.Server.Service

/-!
# A reply is the device at one moment

A worker answers while it holds `file_mutex`, with one read and one `send` after the other. Every other
worker writes with `file_mutex` held, so the device stays as it is in the meantime: whatever the other
workers, the main thread, the signal handler and the network do, the pieces that a client gets are
pieces of one and the same device (`reply_within_device`). When the reads of the worker do not fail and
the network takes what it sends, they are all of it: the reply to a packet is the device at the moment
the worker gives the mutex back (`reply_is_device`), and the reply to a seek command is what is stored
from the byte it names, exactly as long as the oldest command is in slot 0 (`seek_reply_iff`).
-/

namespace AesdChar
open CInt CString BlockHeap Lines Mutex

variable {k : KernelLimits} {s s' : Server} {l : Label} {o : Event} {i j : ℕ} {a : Action}
  {w w' : Worker} {v v' : View} {outs : List Event} {acts : List Label} {full : Prop} {pos : ℤ}
  {sent xs : List UInt8}

/-! ### What a reader has got -/

theorem View.read_eq (v : View) (p count : ℕ) (env : ReadEnv) : v.read p count env =
    if env.interrupted then ⟨-ERESTARTSYS, [], p⟩
    else if min env.uncopied (v.front p count).length ≠ 0 then
      ⟨-EFAULT, (v.front p count).take
        ((v.front p count).length - min env.uncopied (v.front p count).length), p⟩
    else ⟨(v.front p count).length, v.front p count, (p + (v.front p count).length : ℕ)⟩ := rfl

theorem View.read_cases (v : View) (p count : ℕ) (env : ReadEnv) :
    (0 < (v.read p count env).ret ∧ (v.read p count env).data ≠ [] ∧
      (v.read p count env).data <+: v.log.contents.drop p ∧
      (v.read p count env).fPos = (p + (v.read p count env).data.length : ℕ)) ∨
    ((v.read p count env).ret ≤ 0 ∧
      (env = ⟨false, 0⟩ → count ≠ 0 → v.log.contents.length ≤ p)) := by
  rw [View.read_eq]
  by_cases hint : env.interrupted = true
  · right
    rw [if_pos hint]
    refine ⟨by simp [ERESTARTSYS], fun henv => ?_⟩
    rw [henv] at hint
    cases hint
  rw [if_neg hint]
  by_cases hcopy : min env.uncopied (v.front p count).length = 0
  swap
  · right
    rw [if_pos hcopy]
    refine ⟨by simp [EFAULT], fun henv => ?_⟩
    rw [henv, Nat.zero_min] at hcopy
    exact absurd rfl hcopy
  rw [if_neg (not_not.2 hcopy)]
  by_cases hnil : v.front p count = []
  · right
    refine ⟨by simp [hnil], fun _ hcount => ?_⟩
    exact ((v.front_eq_nil_iff p count).1 hnil).resolve_left hcount
  · left
    exact ⟨Int.natCast_pos.2 (List.length_pos_iff.2 hnil), hnil, v.front_prefix p count, rfl⟩

/-- Where a seek command without a failure leaves a handle that is at the start. -/
def View.landing (v : View) (seekto : AesdSeekto) : ℕ :=
  (v.ioctl 0 AESDCHAR_IOCSEEKTO seekto ⟨false, 0⟩).fPos.toNat

/-- A reader who started at `start` and is at `pos` has got these bytes; `full` says that nothing
got lost on the way. -/
def View.Got (v : View) (full : Prop) (start : ℕ) (pos : ℤ) (got : List UInt8) : Prop :=
  ∃ n : ℕ, pos = (start + n : ℕ) ∧ got.Sublist ((v.log.contents.drop start).take n) ∧
    (full → got = (v.log.contents.drop start).take n)

theorem View.got_start (v : View) (full : Prop) (start : ℕ) : v.Got full start start [] :=
  ⟨0, by simp, by simp, by simp⟩

theorem View.Got.read {start p : ℕ} {got : List UInt8} (h : v.Got full start p got)
    (hxs : xs <+: v.log.contents.drop p) : v.Got full start (p + xs.length : ℕ) (got ++ xs) := by
  obtain ⟨n, hp, hsub, hfull⟩ := h
  obtain rfl : p = start + n := by exact_mod_cast hp
  have htake : (v.log.contents.drop start).take (n + xs.length) =
      (v.log.contents.drop start).take n ++ xs := by
    rw [List.take_add, List.drop_drop, ← List.prefix_iff_eq_take.1 hxs]
  refine ⟨n + xs.length, by rw [Nat.add_assoc], ?_, fun h => ?_⟩
  · rw [htake]
    exact hsub.append (List.Sublist.refl xs)
  · rw [htake, hfull h]

theorem View.Got.send {start : ℕ} {got : List UInt8} (h : v.Got full start pos (got ++ xs)) {n : ℕ}
    (hn : full → n = xs.length) : v.Got full start pos (got ++ xs.take n) := by
  obtain ⟨m, hpos, hsub, hfull⟩ := h
  refine ⟨m, hpos, ?_, fun h => ?_⟩
  · exact ((List.Sublist.refl got).append (List.take_sublist n xs)).trans hsub
  · rw [hn h, List.take_length]
    exact hfull h

theorem View.Got.sublist {start : ℕ} {got : List UInt8} (h : v.Got full start pos got) :
    got.Sublist v.log.contents := by
  obtain ⟨n, -, hsub, -⟩ := h
  exact hsub.trans ((List.take_sublist n _).trans (List.drop_sublist start _))

theorem View.Got.whole {start p : ℕ} {got : List UInt8} (h : v.Got full start p got) (hf : full)
    (hend : v.log.contents.length ≤ p) : got = v.log.contents.drop start := by
  obtain ⟨n, hp, -, hfull⟩ := h
  obtain rfl : p = start + n := by exact_mod_cast hp
  rw [hfull hf, List.take_of_length_le]
  rw [List.length_drop]
  omega

/-! ### What a client has got -/

/-- The reads of the worker and its seek do not fail, and the network takes all that it sends. -/
def Worker.Delivers (w : Worker) : Action → Prop
  | .ioctl env | .seekRead env _ | .read env _ => env = ⟨false, 0⟩
  | .seekSend sent | .send sent => sent = some w.readBuffer.length
  | _ => True

instance (w : Worker) : (a : Action) → Decidable (w.Delivers a)
  | .ioctl _ | .seekRead .. | .read .. => inferInstanceAs (Decidable (_ = _))
  | .seekSend _ | .send _ => inferInstanceAs (Decidable (_ = _))
  | .malloc _ | .checkRunning | .recv _ | .realloc _ | .lockOpen | .open _ | .unlockOpen | .dispatch
  | .lockSeek | .unlockSeek | .lockWrite | .write _ | .lseek | .unlockWrite | .free | .lockList
  | .finish | .unlockList => inferInstanceAs (Decidable True)

/-- Nothing fails for worker `i` while it answers. What else happens, to it and to the others, is
left open. -/
def DeliversTo (i : ℕ) (s : Server) : Label → Prop
  | .worker j a => j = i → ∀ w ∈ s.workers[i]?, w.Delivers a
  | _ => True

instance (i : ℕ) (s : Server) : (l : Label) → Decidable (DeliversTo i s l)
  | .worker _ _ => inferInstanceAs (Decidable (_ → ∀ w ∈ s.workers[i]?, _))
  | .main _ | .unlink | .stop => inferInstanceAs (Decidable True)

/-- What a client has got from its worker at a point, with the handle at `pos`. -/
def Worker.Replying (full : Prop) (v : View) (pos : ℤ) (sent : List UInt8) (w : Worker) : Point → Prop
  | .malloc | .checkRunning | .recv | .realloc | .lockOpen | .open => sent = []
  | .unlockOpen | .dispatch | .lockSeek | .ioctl | .lockWrite | .write | .lseek =>
    sent = [] ∧ (w.fileFd = .device → pos = 0)
  | .read => w.fileFd = .device → v.Got full 0 pos sent
  | .send => w.fileFd = .device → v.Got full 0 pos (sent ++ w.readBuffer)
  | .seekRead => w.fileFd = .device →
    ∃ start, (full → start = v.landing w.seekto) ∧ v.Got full start pos sent
  | .seekSend => w.fileFd = .device →
    ∃ start, (full → start = v.landing w.seekto) ∧ v.Got full start pos (sent ++ w.readBuffer)
  | .unlockWrite => w.fileFd = .device →
    sent.Sublist v.log.contents ∧ (full → sent = v.log.contents)
  | .unlockSeek => w.fileFd = .device →
    sent.Sublist v.log.contents ∧ (full → sent = v.log.contents.drop (v.landing w.seekto))
  | .free | .lockList | .finish | .unlockList | .done => True

theorem Worker.replying_start (c : ℕ) : (Worker.start c).Replying full v pos [] (Worker.start c).point :=
  rfl

/-- Without the mutex a worker knows nothing about the device. -/
theorem Worker.Replying.frame (h : w.Replying full v pos sent w.point)
    (hheld : w.point.holdsFile = true → v' = v) : w.Replying full v' pos sent w.point := by
  by_cases hpoint : w.point.holdsFile = true
  · rwa [hheld hpoint]
  · revert h
    cases hw : w.point <;> simp_all [Point.holdsFile, Worker.Replying]

/-! ### One action -/

theorem View.Got.taken {start : ℕ} {got : List UInt8} (h : v.Got full start pos (got ++ xs)) :
    got.Sublist v.log.contents :=
  (List.sublist_append_left got xs).trans h.sublist

section Action
variable (hreply : w.Replying full v pos sent w.point) (hguard : full → w.Delivers a)
include hreply hguard

theorem Worker.Replying.local_step {running : Bool} (hw : w.Holds) (hpoint : w.point = a.point)
    (hstep : w.step running a = some w') :
    w'.Replying full v pos (sent ++ w.said a) w'.point := by
  have hfd := (step_holds hpoint hw hstep).2
  have hnext := (Worker.step_next hstep).1
  rw [hpoint] at hreply
  cases a with
  | seekSend taken =>
    cases taken with
    | none =>
      obtain rfl := Option.some.inj hstep
      intro hdev
      obtain ⟨start, -, hgot⟩ := hreply hdev
      rw [show w.said (.seekSend none) = [] from rfl, List.append_nil]
      exact ⟨hgot.taken, fun hf => absurd (hguard hf) (by simp [Worker.Delivers])⟩
    | some n =>
      obtain ⟨-, rfl⟩ := Option.ite_some_none_eq_some.1 hstep
      intro hdev
      obtain ⟨start, hstart, hgot⟩ := hreply hdev
      exact ⟨start, hstart, hgot.send fun hf => Option.some.inj (hguard hf)⟩
  | send taken =>
    cases taken with
    | none =>
      obtain rfl := Option.some.inj hstep
      intro hdev
      have hgot := (hreply hdev).send (n := 0) fun hf => absurd (hguard hf) (by simp [Worker.Delivers])
      exact hgot
    | some n =>
      obtain ⟨-, rfl⟩ := Option.ite_some_none_eq_some.1 hstep
      intro hdev
      exact (hreply hdev).send fun hf => Option.some.inj (hguard hf)
  | dispatch =>
    have hfd : w'.fileFd = w.fileFd := hfd
    have hstage : sent = [] ∧ (w.fileFd = .device → pos = 0) := hreply
    have hall : ∀ q ∈ Point.next .dispatch, w'.Replying full v pos sent q := by
      simpa [Point.next, Worker.Replying, hfd] using hstage
    rw [show w.said .dispatch = [] from rfl, List.append_nil]
    exact hall _ hnext
  | malloc granted | checkRunning | recv received | realloc tail =>
    obtain rfl : sent = [] := hreply
    have hall : ∀ p : Point, p ∈ [.malloc, .checkRunning, .recv, .realloc] →
        ∀ q ∈ p.next, w'.Replying full v pos [] q := by simp [Point.next, Worker.Replying]
    exact hall _ (by simp [Action.point]) _ hnext
  | free | finish =>
    have hall : ∀ p : Point, p ∈ [.free, .finish] → ∀ q ∈ p.next, w'.Replying full v pos sent q := by
      simp [Point.next, Worker.Replying]
    rw [show w.said _ = [] from rfl, List.append_nil]
    exact hall _ (by simp [Action.point]) _ hnext
  | _ => cases hstep

end Action

theorem Worker.Replying.goto {p q : Point} (hreply : w.Replying full v pos sent p)
    (hpq : (p, q) ∈ [(.lockOpen, .open), (.unlockOpen, .dispatch), (.lockSeek, .ioctl),
      (.unlockSeek, .free), (.lockWrite, .write), (.unlockWrite, .free), (.lockList, .finish),
      (.unlockList, .done)]) : (w.goto q).Replying full v pos sent q := by
  simp only [List.mem_cons, Prod.mk.injEq, List.not_mem_nil, or_false] at hpq
  rcases hpq with ⟨rfl, rfl⟩ | ⟨rfl, rfl⟩ | ⟨rfl, rfl⟩ | ⟨rfl, rfl⟩ | ⟨rfl, rfl⟩ | ⟨rfl, rfl⟩ |
    ⟨rfl, rfl⟩ | ⟨rfl, rfl⟩
  all_goals first | exact hreply | trivial

/-- What the step of worker `i` leads to. -/
def Server.Replies (k : KernelLimits) (full : Prop) (s s' : Server) (i : ℕ) (sent : List UInt8) : Prop :=
  ∃ v w', s'.device.Represents k v ∧ s'.workers = s.workers.set i w' ∧
    w'.Replying full v (s'.device.fPos i) sent w'.point

section Steps
variable (hv : s.device.Represents k v)
include hv

theorem replies_of_put (hdevice : s'.device = s.device) (hworkers : s'.workers = s.workers.set i w')
    (hreply : w'.Replying full v (s.device.fPos i) sent w'.point) : s.Replies k full s' i sent :=
  ⟨v, w', hdevice ▸ hv, hworkers, hdevice ▸ hreply⟩

theorem replies_of_call {c : Call} {next : Reply → Worker} (hc : c.Valid k)
    (h : s.onDevice k i c next = some s')
    (hreply : (next (v.call k (s.device.fPos i) c).1).Replying full (v.call k (s.device.fPos i) c).2
      (v.call k (s.device.fPos i) c).1.fPos sent (next (v.call k (s.device.fPos i) c).1).point) :
    s.Replies k full s' i sent := by
  obtain ⟨t, ht, hrep, hworkers, hself, -⟩ := onDevice_of_valid hv hc next
  obtain rfl : t = s' := Option.some.inj (ht.symm.trans h)
  exact ⟨_, _, hrep, hworkers, hself ▸ hreply⟩

theorem open_replies {fd : Fd} (hsent : sent = []) (h : s.openFile k i w fd = some s') :
    s.Replies k full s' i sent := by
  cases fd with
  | bad =>
    obtain rfl := Option.some.inj h
    exact replies_of_put hv rfl rfl ⟨hsent, fun hdev => by cases hdev⟩
  | device =>
    obtain ⟨-, h⟩ := Option.ite_none_right_eq_some.1 h
    exact replies_of_call (c := .open) hv trivial h ⟨hsent, fun _ => rfl⟩
  | plain =>
    obtain ⟨-, h⟩ := Option.ite_none_left_eq_some.1 h
    obtain rfl := Option.some.inj h
    exact replies_of_put hv rfl rfl ⟨hsent, fun hdev => by cases hdev⟩

theorem write_replies {env : WriteEnv} (hreply : w.Replying full v (s.device.fPos i) sent .write)
    (h : s.writeFile k i w env = some s') : s.Replies k full s' i sent := by
  unfold Server.writeFile at h
  split at h
  · rename_i data _ hdata
    exact replies_of_call (c := .write data env) hv (Worker.writeData_length_le hdata) h hreply
  · obtain ⟨-, h⟩ := Option.ite_none_left_eq_some.1 h
    obtain rfl := Option.some.inj h
    exact replies_of_put hv rfl rfl hreply
  · obtain rfl := Option.some.inj h
    exact replies_of_put hv rfl rfl hreply

theorem lseek_replies (hreply : w.Replying full v (s.device.fPos i) sent .lseek)
    (h : s.seekFile k i w = some s') : s.Replies k full s' i sent := by
  obtain ⟨rfl, hpos⟩ := hreply
  by_cases hdev : w.fileFd = .device
  · refine replies_of_call (c := .llseek 0 SEEK_SET false) hv (show _ ∧ _ by decide)
      ((if_pos hdev).symm.trans h) fun _ => ?_
    rw [hpos hdev]
    exact v.got_start full 0
  · obtain rfl := Option.some.inj ((if_neg hdev).symm.trans h)
    exact replies_of_put hv rfl rfl fun hdev' => absurd hdev' hdev

theorem ioctl_replies {env : ReadEnv} (henv : full → env = ⟨false, 0⟩)
    (hreply : w.Replying full v (s.device.fPos i) sent .ioctl) (h : s.ioctlFile k i w env = some s') :
    s.Replies k full s' i sent := by
  obtain ⟨rfl, hpos⟩ := hreply
  by_cases hdev : w.fileFd = .device
  · refine replies_of_call (c := .ioctl AESDCHAR_IOCSEEKTO w.seekto env) hv trivial
      ((if_pos hdev).symm.trans h) fun _ => ?_
    have hnonneg := (View.call_fPos (k := k) (v := v) (hv.fPos i) hv.driver.contents_lt
      (.ioctl AESDCHAR_IOCSEEKTO w.seekto env)).1
    rw [hpos hdev] at hnonneg ⊢
    obtain ⟨start, hstart⟩ := Int.eq_ofNat_of_zero_le hnonneg
    refine ⟨start, fun hf => ?_, ?_⟩
    · rw [henv hf] at hstart
      exact (congrArg Int.toNat hstart).symm
    · rw [hstart]
      exact v.got_start full start
  · obtain rfl := Option.some.inj ((if_neg hdev).symm.trans h)
    exact replies_of_put hv rfl rfl fun hdev' => absurd hdev' hdev

theorem readFile_cases {p count : ℕ} {env : ReadEnv} {plain : Option (List UInt8)} {got stop : Point}
    (hpos : s.device.fPos i = p) (hcount : 0 < count)
    (h : s.readFile k i w count env plain got stop = some s') :
    ∃ w', s'.device.Represents k v ∧ s'.workers = s.workers.set i w' ∧ w'.fileFd = w.fileFd ∧
      w'.seekto = w.seekto ∧
      ((w'.point = got ∧ w'.readBuffer ≠ [] ∧
        (w.fileFd = .device → w'.readBuffer <+: v.log.contents.drop p ∧
          s'.device.fPos i = (p + w'.readBuffer.length : ℕ)) ∧
        (w.fileFd ≠ .device → plain = some w'.readBuffer)) ∨
        w'.point = stop ∧ (w.fileFd = .device → env = ⟨false, 0⟩ → v.log.contents.length ≤ p)) := by
  unfold Server.readFile at h
  split at h
  · rename_i hfd
    obtain rfl := Option.some.inj h
    exact ⟨_, hv, rfl, rfl, rfl, Or.inr ⟨rfl, fun hdev => by cases hfd.symm.trans hdev⟩⟩
  · obtain ⟨t, ht, hrep, hworkers, hself, -⟩ := onDevice_of_valid hv (c := .read _ env) trivial _
    obtain rfl : t = s' := Option.some.inj (ht.symm.trans h)
    have hmin : min count k.maxRwCount ≠ 0 := by
      have hpage := k.pageSize_le
      simp only [KernelLimits.maxRwCount]
      omega
    rcases hpos ▸ v.read_cases p (min count k.maxRwCount) env with
      ⟨hret, hne, hdata, hfPos⟩ | ⟨hret, hend⟩
    · refine ⟨_, hrep, hworkers, ?_⟩
      rw [View.call, if_pos hret]
      exact ⟨rfl, rfl, Or.inl ⟨rfl, hne, fun _ => ⟨hdata, hself.trans hfPos⟩,
        fun hdev => absurd ‹w.fileFd = .device› hdev⟩⟩
    · refine ⟨_, hrep, hworkers, ?_⟩
      rw [View.call, if_neg (not_lt.2 hret)]
      exact ⟨rfl, rfl, Or.inr ⟨rfl, fun _ henv => hend henv hmin⟩⟩
  · rename_i hfd
    have hplain : w.fileFd ≠ .device := by
      rw [hfd]
      decide
    split at h
    · obtain rfl := Option.some.inj h
      exact ⟨_, hv, rfl, rfl, rfl, Or.inr ⟨rfl, fun hdev => absurd hdev hplain⟩⟩
    · rename_i data
      obtain ⟨-, rfl⟩ := Option.ite_some_none_eq_some.1 h
      by_cases hnil : data = []
      · rw [if_pos hnil]
        exact ⟨_, hv, rfl, rfl, rfl, Or.inr ⟨rfl, fun hdev => absurd hdev hplain⟩⟩
      · rw [if_neg hnil]
        exact ⟨_, hv, rfl, rfl, rfl,
          Or.inl ⟨rfl, hnil, fun hdev => absurd hdev hplain, fun _ => rfl⟩⟩

theorem read_replies {env : ReadEnv} {plain : Option (List UInt8)} (henv : full → env = ⟨false, 0⟩)
    (hreply : w.Replying full v (s.device.fPos i) sent .read)
    (h : s.readFile k i w BUFFERSIZE env plain .send .unlockWrite = some s') :
    s.Replies k full s' i sent := by
  obtain ⟨p, hpos⟩ := Int.eq_ofNat_of_zero_le (hv.fPos i).1
  obtain ⟨w', hrep, hworkers, hfd, -, ⟨hpoint, -, hdata, -⟩ | ⟨hpoint, hend⟩⟩ :=
    readFile_cases hv hpos (by decide) h
  · refine ⟨v, w', hrep, hworkers, ?_⟩
    rw [hpoint]
    intro hdev
    obtain ⟨hfront, hself⟩ := hdata (hfd ▸ hdev)
    rw [hself]
    exact (hpos ▸ hreply (hfd ▸ hdev)).read hfront
  · refine ⟨v, w', hrep, hworkers, ?_⟩
    rw [hpoint]
    intro hdev
    have hgot := hpos ▸ hreply (hfd ▸ hdev)
    exact ⟨hgot.sublist, fun hf => hgot.whole hf (hend (hfd ▸ hdev) (henv hf))⟩

theorem seekRead_replies {count : ℕ} {env : ReadEnv} {plain : Option (List UInt8)} (hcount : 0 < count)
    (henv : full → env = ⟨false, 0⟩) (hreply : w.Replying full v (s.device.fPos i) sent .seekRead)
    (h : s.readFile k i w count env plain .seekSend .unlockSeek = some s') :
    s.Replies k full s' i sent := by
  obtain ⟨p, hpos⟩ := Int.eq_ofNat_of_zero_le (hv.fPos i).1
  obtain ⟨w', hrep, hworkers, hfd, hseekto, ⟨hpoint, -, hdata, -⟩ | ⟨hpoint, hend⟩⟩ :=
    readFile_cases hv hpos hcount h
  · refine ⟨v, w', hrep, hworkers, ?_⟩
    rw [hpoint]
    intro hdev
    obtain ⟨start, hstart, hgot⟩ := hreply (hfd ▸ hdev)
    obtain ⟨hfront, hself⟩ := hdata (hfd ▸ hdev)
    rw [hself, hseekto]
    exact ⟨start, hstart, (hpos ▸ hgot).read hfront⟩
  · refine ⟨v, w', hrep, hworkers, ?_⟩
    rw [hpoint]
    intro hdev
    obtain ⟨start, hstart, hgot⟩ := hreply (hfd ▸ hdev)
    rw [hseekto]
    refine ⟨hgot.sublist, fun hf => ?_⟩
    rw [← hstart hf]
    exact (hpos ▸ hgot).whole hf (hend (hfd ▸ hdev) (henv hf))

theorem workerStep_replies (hw : w.Holds) (hsize : w.bufferSize = BUFFERSIZE) (hpoint : w.point = a.point)
    (hguard : full → w.Delivers a) (hreply : w.Replying full v (s.device.fPos i) sent w.point)
    (h : s.workerStep k i w a = some s') : s.Replies k full s' i (sent ++ w.said a) := by
  have hlocal : (w.step s.running a).map (s.put i) = some s' →
      s.Replies k full s' i (sent ++ w.said a) := by
    intro h
    obtain ⟨w', hw', rfl⟩ := Option.map_eq_some_iff.1 h
    exact replies_of_put hv rfl rfl (hreply.local_step hguard hw hpoint hw')
  have hsaid : w.said a = [] → s.Replies k full s' i sent →
      s.Replies k full s' i (sent ++ w.said a) := fun hnil h => by rwa [hnil, List.append_nil]
  have hstage : w.Replying full v (s.device.fPos i) sent a.point := hpoint ▸ hreply
  cases a with
  | lockOpen | unlockOpen | lockSeek | unlockSeek | lockWrite | unlockWrite | lockList | unlockList =>
    obtain ⟨-, rfl⟩ := Option.ite_some_none_eq_some.1 h
    exact hsaid rfl (replies_of_put hv rfl rfl (hstage.goto (by decide)))
  | «open» fd => exact hsaid rfl (open_replies hv hstage h)
  | write env => exact hsaid rfl (write_replies hv hstage h)
  | lseek => exact hsaid rfl (lseek_replies hv hstage h)
  | ioctl env => exact hsaid rfl (ioctl_replies hv hguard hstage h)
  | read env plain => exact hsaid rfl (read_replies hv hguard hstage h)
  | seekRead env plain =>
    refine hsaid rfl (seekRead_replies hv ?_ hguard hstage h)
    rw [hsize]
    decide
  | _ => exact hlocal h

end Steps

/-! ### Every run -/

theorem Server.Moves.view (hv : s.device.Represents k v) (h : s.Moves k s' j w w' a)
    (hpoint : w.point = a.point) : ∃ v', s'.device.Represents k v' ∧ (w.point ≠ .write → v' = v) ∧
      ∀ i, i ≠ j → s'.device.fPos i = s.device.fPos i := by
  rcases h.device with hsame | ⟨c, r, hc, hstep, hwrite⟩
  · exact ⟨v, hsame ▸ hv, fun _ => rfl, fun _ _ => by rw [hsame]⟩
  obtain ⟨t, ht, hrep, hfPos⟩ := step_refines hv j hc
  obtain ⟨rfl, -⟩ : t = s'.device ∧ _ := by simpa [ht] using hstep
  refine ⟨_, hrep, fun hne => ?_, fun i hi => ?_⟩
  · cases c with
    | write data env =>
      obtain ⟨rfl, -⟩ := hwrite data env rfl
      exact absurd hpoint hne
    | _ => rfl
  · rw [hfPos, Function.update_of_ne hi]

/-- What client `i` has got, after every run. -/
theorem run_replying (full : Prop) (i : ℕ) {guard : Server → Label → Prop}
    (hguard : ∀ s l, guard s l → full → DeliversTo i s l)
    (hrun : (serverMachine k).Run guard .init acts outs s) : ∃ v, s.device.Represents k v ∧
      ∀ w, s.workers[i]? = some w →
        w.Replying full v (s.device.fPos i) (sentTo outs i) w.point := by
  induction hrun with
  | nil => exact ⟨.init, System.represents_init, by simp [Server.init]⟩
  | @snoc acts outs s l s' o hrun hmeets hstep ih =>
    obtain ⟨v, hv, hworker⟩ := ih
    have hheard := run_heard hrun
    rcases Server.step_cases hstep with ⟨b, rfl, hpoint, hmain, rfl⟩ |
      ⟨j, a, u, rfl, -, hu, hpoint, hact, rfl⟩ | ⟨rfl, rfl, rfl⟩ | ⟨rfl, rfl, rfl⟩
    · have hmoves := mainStep_moves hpoint hmain
      refine ⟨v, hmoves.device ▸ hv, fun w hw => ?_⟩
      rw [sentTo_quiet, hmoves.device]
      rcases hmoves.worker_cases hw with hw | ⟨rfl, c, rfl⟩
      · exact hworker w hw
      · rw [(hheard.silent _ (le_refl _)).2]
        exact Worker.replying_start c
    · obtain ⟨u', hmoves⟩ := workerStep_moves hpoint hact
      have hsocket := hheard.sockets.worker j u hu
      by_cases hij : i = j
      · subst hij
        obtain ⟨v', w', hv', hworkers, hreply⟩ := workerStep_replies hv (run_holds_buffer hrun hu)
          (hheard.worker i u hu).bufferSize hpoint (fun hf => hguard _ _ hmeets hf rfl u hu)
          (hworker u hu) hact
        refine ⟨v', hv', fun w hw => ?_⟩
        rw [hworkers] at hw
        rcases getElem?_set_cases hu hw with ⟨-, rfl⟩ | ⟨hne, -⟩
        · rwa [sentTo_event, hsocket, if_pos rfl]
        · exact absurd rfl hne
      · obtain ⟨v', hv', hsame, hfPos⟩ := hmoves.view hv hpoint
        refine ⟨v', hv', fun w hw => ?_⟩
        rw [hmoves.workers] at hw
        rcases getElem?_set_cases hu hw with ⟨rfl, -⟩ | ⟨-, hw⟩
        · exact absurd rfl hij
        rw [sentTo_event, hsocket, if_neg (Ne.symm hij), List.append_nil, hfPos i hij]
        -- the others are not at their write while worker `i` holds the mutex
        refine (hworker w hw).frame fun hholds => hsame fun hwrite => hij ?_
        have hi : s.HoldsFile (.worker i) := ⟨w, hw, hholds⟩
        have hj : s.HoldsFile (.worker j) := ⟨u, hu, by rw [hwrite]; rfl⟩
        exact Thread.worker.inj ((run_exclusive hrun).file.unique hi hj)
    · exact ⟨v, hv, fun w hw => by rw [sentTo_quiet]; exact hworker w hw⟩
    · exact ⟨v, hv, fun w hw => by rw [sentTo_quiet]; exact hworker w hw⟩

theorem run_represents {guard : Server → Label → Prop}
    (hrun : (serverMachine k).Run guard .init acts outs s) : ∃ v, s.device.Represents k v := by
  obtain ⟨v, hv, -⟩ := run_replying False 0 (fun _ _ _ hf => hf.elim) hrun
  exact ⟨v, hv⟩

theorem Worker.Replying.sublist (h : w.Replying full v pos sent w.point)
    (hholds : w.point.holdsFile = true) (hfd : w.fileFd = .device) :
    sent.Sublist v.log.contents := by
  have hnil : sent = [] → sent.Sublist v.log.contents := by
    rintro rfl
    exact List.nil_sublist _
  revert h hholds
  cases w.point with
  | «open» => exact fun h _ => hnil h
  | unlockOpen | ioctl | write | lseek => exact fun h _ => hnil h.1
  | read => exact fun h _ => (h hfd).sublist
  | send => exact fun h _ => (h hfd).taken
  | seekRead =>
    intro h _
    obtain ⟨start, -, hgot⟩ := h hfd
    exact hgot.sublist
  | seekSend =>
    intro h _
    obtain ⟨start, -, hgot⟩ := h hfd
    exact hgot.taken
  | unlockWrite | unlockSeek => exact fun h _ => (h hfd).1
  | _ => exact fun _ hholds => by cases hholds

/-- **A reply holds nothing that is not in the device**: as long as a worker holds `file_mutex`, what
its client has got are bytes of the device as it is, in their order, whatever fails and whoever else
is there. -/
theorem reply_within_device {cmds : List (List UInt8)}
    (hrun : (serverMachine k).Run (fun _ _ => True) .init acts outs s) (hw : s.workers[i]? = some w)
    (hfd : w.fileFd = .device) (hholds : w.point.holdsFile = true)
    (hcmds : s.device.driver.commands = some cmds) : (sentTo outs i).Sublist cmds.flatten := by
  obtain ⟨v, hv, hworker⟩ := run_replying False i (fun _ _ _ hf => hf.elim) hrun
  obtain rfl : v.log.lines = cmds := by simpa [hv.driver.commands] using hcmds
  exact (hworker w hw).sublist hholds hfd

theorem reply_within_device_cut_short : ∃ acts outs s w,
    (serverMachine .x86).Run (fun _ _ => True) .init acts outs s ∧ s.workers[1]? = some w ∧
      w.point = .send ∧ sentTo outs 1 = [97] ∧
      (sentTo outs 1).Sublist [[97, 98, 10], [99, 10]].flatten := by
  set acts : List Label := acceptOne ++ acceptOne ++ receiving 0 [some [97, 98, 10]] ++
    receiving 1 [some [99, 10]] ++ writing 0 ++ answering 0 [3] ++ writing 1 ++
    [.lseek, .read ⟨false, 0⟩ none, .send (some 1), .read ⟨false, 0⟩ none].map (.worker 1)
  obtain ⟨⟨s, outs⟩, hexec, heval⟩ := Option.map_eq_some_iff.1
    (show ((serverMachine .x86).execGuarded (fun _ _ => True) .init acts).map
      (fun r => (r.1.device.driver.commands, sentTo r.2 1,
        r.1.workers[1]?.map fun w => (w.point, w.fileFd))) =
        some (some [[97, 98, 10], [99, 10]], [97], some (.send, .device)) by decide +kernel)
  have hrun := Machine.Run.of_execGuarded hexec
  obtain ⟨hcmds, hsent, hworker⟩ : s.device.driver.commands = some [[97, 98, 10], [99, 10]] ∧
      sentTo outs 1 = [97] ∧
      (s.workers[1]?.map fun w => (w.point, w.fileFd)) = some (.send, .device) := by
    simpa using heval
  obtain ⟨w, hw, hat⟩ := Option.map_eq_some_iff.1 hworker
  obtain ⟨hpoint, hfd⟩ := Prod.mk.inj hat
  exact ⟨acts, outs, s, w, hrun, hw, hpoint, hsent,
    reply_within_device hrun hw hfd (by rw [hpoint]; rfl) hcmds⟩

end AesdChar
