import AesdChar.Base.Mutex
import AesdChar.Server.Worker

/-!
# The data file

`readfile` and `writefile` of `aesdsocket.c`, as built without the device. Each locks `list_mutex`,
opens the file, reads or appends once, closes it and unlocks; a `FileCall` is a call on its way, and
`Disk.step` what happens at its point, with the outcome that the C library decides. When `fopen`
fails both return `KO` without unlocking.

A stream stays with the file it was opened on: `unlink` takes the name away, and the next
`fopen(path, "a")` makes a new file. What `fwrite` takes is in the file when `fclose` returns, and the
mutex is held until then, so it is appended at once here. The buffers that are passed are never NULL.
-/

namespace AesdChar

/-- Who calls `readfile` and `writefile`. -/
inductive FileThread
  | timer
  | worker (i : ℕ)
  deriving DecidableEq, Repr

/-- The files that have been at `FILENAME`, oldest first, which of them is there now, and
`list_mutex`. -/
structure Disk where
  files : List (List UInt8)
  linked : Option ℕ
  list_mutex : Option FileThread
  deriving DecidableEq, Repr

/-- What a call is for: `readfile` of at most `size` bytes, or `writefile` of these bytes. -/
inductive Job
  | read (size : ℕ)
  | write (data : List UInt8)
  deriving DecidableEq, Repr

/-- The points of `readfile` and of `writefile`, in the order of their text. -/
inductive CallPoint
  | lock
  | fopen
  | transfer
  | fclose
  | unlock
  deriving DecidableEq, Repr

/-- The bytes that are written. -/
def Job.data : Job → Option (List UInt8)
  | .read _ => none
  | .write data => some data

/-- A call on its way: the file its stream is on, and the bytes that `fread` or `fwrite` moved. -/
structure FileCall where
  job : Job
  point : CallPoint
  stream : ℕ
  moved : List UInt8
  deriving DecidableEq, Repr

/-- A call that begins. -/
def FileCall.start (job : Job) : FileCall := ⟨job, .lock, 0, []⟩

/-- What happens at a point of a call. `fopen`: whether it gave a stream. `transfer`: how many bytes
`fread` or `fwrite` moved. -/
inductive CallAction
  | lock
  | fopen (opened : Bool)
  | transfer (n : ℕ)
  | fclose
  | unlock
  deriving DecidableEq, Repr

/-- How many bytes `fread` or `fwrite` moves. -/
def CallAction.moves : CallAction → Option ℕ
  | .transfer n => some n
  | _ => none

/-- The call goes on, or returns the number of bytes moved, with these bytes; none is `KO`. -/
inductive CallResult
  | inside (call : FileCall)
  | returned (moved : Option (List UInt8))
  deriving DecidableEq, Repr

/-- The call that goes on. -/
def CallResult.call : CallResult → Option FileCall
  | .inside call => some call
  | .returned _ => none

/-- The block that a step of a call appends to the file. -/
def FileCall.appends (call : FileCall) (a : CallAction) : Option (List UInt8) :=
  a.moves.bind fun n => call.job.data.map (·.take n)

namespace Disk
variable (d : Disk)

/-- What is in a file. -/
def contents (file : ℕ) : List UInt8 := d.files[file]?.getD []

/-- What is in the file at `FILENAME`. -/
def current : List UInt8 := (d.linked.map d.contents).getD []

/-- `fopen(path, "r")` or `fopen(path, "a")`: the stream's file, which the second makes when there is
none. -/
def fopen : Job → Option (ℕ × Disk)
  | .read _ => d.linked.map fun file => (file, d)
  | .write _ =>
    match d.linked with
    | some file => some (file, d)
    | none => some (d.files.length, { d with files := d.files ++ [[]], linked := some d.files.length })

/-- `fread` or `fwrite`, when it moves `n` bytes: these bytes, and the files afterwards. -/
def transfer (file n : ℕ) : Job → Option (List UInt8 × Disk)
  | .read size =>
    if n ≤ min size (d.contents file).length then some ((d.contents file).take n, d) else none
  | .write data =>
    if n ≤ data.length then some (data.take n, { d with files := d.files.modify file (· ++ data.take n) })
    else none

/-- Thread `t` goes on in a call. -/
def step (t : FileThread) (call : FileCall) : CallAction → Option (Disk × CallResult)
  | .lock =>
    if call.point = .lock ∧ d.list_mutex = none then
      some ({ d with list_mutex := some t }, .inside { call with point := .fopen })
    else none
  | .fopen opened =>
    if call.point = .fopen then
      if opened then (d.fopen call.job).map fun r =>
        (r.2, .inside { call with point := .transfer, stream := r.1 })
      -- the early return leaves `list_mutex` locked
      else some (d, .returned none)
    else none
  | .transfer n =>
    if call.point = .transfer then (d.transfer call.stream n call.job).map fun r =>
      (r.2, .inside { call with point := .fclose, moved := r.1 })
    else none
  | .fclose =>
    if call.point = .fclose then some (d, .inside { call with point := .unlock }) else none
  | .unlock =>
    if call.point = .unlock ∧ d.list_mutex = some t then
      some ({ d with list_mutex := none }, .returned (some call.moved))
    else none

/-- `unlink(FILENAME)` -/
def unlink : Disk := { d with linked := none }

variable {d} {d' : Disk} {t : FileThread} {call : FileCall} {a : CallAction} {result : CallResult}

/-- What a step of a call can be. -/
inductive Stepped (d : Disk) (t : FileThread) (call : FileCall) : CallAction → Disk → CallResult → Prop
  | lock (hpoint : call.point = .lock) (hfree : d.list_mutex = none) :
      Stepped d t call .lock { d with list_mutex := some t } (.inside { call with point := .fopen })
  | opened (hpoint : call.point = .fopen) {file : ℕ} {d' : Disk}
      (hopen : d.fopen call.job = some (file, d')) :
      Stepped d t call (.fopen true) d' (.inside { call with point := .transfer, stream := file })
  | failed (hpoint : call.point = .fopen) : Stepped d t call (.fopen false) d (.returned none)
  | transfer (hpoint : call.point = .transfer) {n : ℕ} {moved : List UInt8} {d' : Disk}
      (hmoved : d.transfer call.stream n call.job = some (moved, d')) :
      Stepped d t call (.transfer n) d' (.inside { call with point := .fclose, moved := moved })
  | fclose (hpoint : call.point = .fclose) :
      Stepped d t call .fclose d (.inside { call with point := .unlock })
  | unlock (hpoint : call.point = .unlock) (hheld : d.list_mutex = some t) :
      Stepped d t call .unlock { d with list_mutex := none } (.returned (some call.moved))

theorem stepped_of_step (h : d.step t call a = some (d', result)) : d.Stepped t call a d' result := by
  cases a with
  | lock =>
    obtain ⟨⟨hpoint, hfree⟩, h⟩ := Option.ite_none_right_eq_some.1 h
    obtain ⟨rfl, rfl⟩ := Prod.mk.inj (Option.some.inj h)
    exact .lock hpoint hfree
  | fopen opened =>
    obtain ⟨hpoint, h⟩ := Option.ite_none_right_eq_some.1 h
    cases opened with
    | true =>
      obtain ⟨⟨file, d₁⟩, hopen, h⟩ := Option.map_eq_some_iff.1 h
      obtain ⟨rfl, rfl⟩ := Prod.mk.inj h
      exact .opened hpoint hopen
    | false =>
      obtain ⟨rfl, rfl⟩ := Prod.mk.inj (Option.some.inj h)
      exact .failed hpoint
  | transfer n =>
    obtain ⟨hpoint, h⟩ := Option.ite_none_right_eq_some.1 h
    obtain ⟨⟨moved, d₁⟩, hmoved, h⟩ := Option.map_eq_some_iff.1 h
    obtain ⟨rfl, rfl⟩ := Prod.mk.inj h
    exact .transfer hpoint hmoved
  | fclose =>
    obtain ⟨hpoint, h⟩ := Option.ite_none_right_eq_some.1 h
    obtain ⟨rfl, rfl⟩ := Prod.mk.inj (Option.some.inj h)
    exact .fclose hpoint
  | unlock =>
    obtain ⟨⟨hpoint, hheld⟩, h⟩ := Option.ite_none_right_eq_some.1 h
    obtain ⟨rfl, rfl⟩ := Prod.mk.inj (Option.some.inj h)
    exact .unlock hpoint hheld

theorem fopen_mutex {job : Job} {file : ℕ} (h : d.fopen job = some (file, d')) :
    d'.list_mutex = d.list_mutex := by
  cases job with
  | read size =>
    obtain ⟨f, -, heq⟩ := Option.map_eq_some_iff.1 h
    obtain ⟨-, rfl⟩ := Prod.mk.inj heq
    rfl
  | write data =>
    simp only [fopen] at h
    split at h
    · obtain ⟨-, rfl⟩ := Prod.mk.inj (Option.some.inj h)
      rfl
    · obtain ⟨-, rfl⟩ := Prod.mk.inj (Option.some.inj h)
      rfl

theorem transfer_mutex {job : Job} {file n : ℕ} {moved : List UInt8}
    (h : d.transfer file n job = some (moved, d')) : d'.list_mutex = d.list_mutex := by
  cases job with
  | read size =>
    obtain ⟨-, heq⟩ := Option.ite_some_none_eq_some.1 h
    obtain ⟨-, rfl⟩ := Prod.mk.inj heq
    rfl
  | write data =>
    obtain ⟨-, heq⟩ := Option.ite_some_none_eq_some.1 h
    obtain ⟨-, rfl⟩ := Prod.mk.inj heq
    rfl

/-! ### The file that is there -/

/-- The file at `FILENAME` is one of the files. -/
def Sound (d : Disk) : Prop := ∀ file, d.linked = some file → file < d.files.length

theorem current_of_linked {file : ℕ} (h : d.linked = some file) : d.current = d.contents file := by
  unfold current
  rw [h]
  rfl

theorem fopen_linked {job : Job} {file : ℕ} (hd : d.Sound) (h : d.fopen job = some (file, d')) :
    d'.Sound ∧ d'.linked = some file ∧ d'.current = d.current ∧
      ∀ other, d.linked = some other → other = file := by
  cases job with
  | read size =>
    obtain ⟨f, hf, heq⟩ := Option.map_eq_some_iff.1 h
    obtain ⟨rfl, rfl⟩ := Prod.mk.inj heq
    exact ⟨hd, hf, rfl, fun other ho => Option.some.inj (ho.symm.trans hf)⟩
  | write data =>
    simp only [fopen] at h
    split at h
    · rename_i f hf
      obtain ⟨rfl, rfl⟩ := Prod.mk.inj (Option.some.inj h)
      exact ⟨hd, hf, rfl, fun other ho => Option.some.inj (ho.symm.trans hf)⟩
    · rename_i hnone
      obtain ⟨rfl, rfl⟩ := Prod.mk.inj (Option.some.inj h)
      refine ⟨fun f hf => ?_, rfl, ?_, fun other ho => ?_⟩
      · obtain rfl := Option.some.inj hf
        simp
      · unfold current contents
        rw [hnone]
        simp
      · rw [hnone] at ho
        cases ho

theorem transfer_read {size file n : ℕ} {moved : List UInt8} (hfile : d.linked = some file)
    (h : d.transfer file n (.read size) = some (moved, d')) :
    d' = d ∧ moved = d.current.take n ∧ n ≤ size := by
  obtain ⟨hn, heq⟩ := Option.ite_some_none_eq_some.1 h
  obtain ⟨rfl, rfl⟩ := Prod.mk.inj heq
  refine ⟨rfl, ?_, le_trans hn (min_le_left _ _)⟩
  rw [current_of_linked hfile]

theorem transfer_write {data : List UInt8} {file n : ℕ} {moved : List UInt8} (hd : d.Sound)
    (hfile : d.linked = some file) (h : d.transfer file n (.write data) = some (moved, d')) :
    d'.Sound ∧ d'.linked = some file ∧ d'.current = d.current ++ data.take n := by
  obtain ⟨-, heq⟩ := Option.ite_some_none_eq_some.1 h
  obtain ⟨-, rfl⟩ := Prod.mk.inj heq
  refine ⟨fun f hf => ?_, hfile, ?_⟩
  · rw [List.length_modify]
    exact hd f hf
  · have hnew : ∀ e : Disk, e.linked = d.linked → e.current = e.contents file :=
      fun e he => current_of_linked (he.trans hfile)
    rw [hnew d rfl]
    refine (hnew _ (by rfl)).trans ?_
    unfold contents
    rw [List.getElem?_modify_eq, List.getElem?_eq_getElem (hd file hfile)]
    rfl

/-- **What a step of a call does to the file**: it appends the block, and every stream stays on the file
that is there. -/
theorem Stepped.current_eq (hd : d.Sound)
    (hstream : call.point = .transfer → d.linked = some call.stream) (h : d.Stepped t call a d' result) :
    d'.Sound ∧ (∀ file, d.linked = some file → d'.linked = some file) ∧
      d'.current = d.current ++ (call.appends a).getD [] ∧
      ∀ call', result.call = some call' → call'.point = .transfer → d'.linked = some call'.stream := by
  cases h with
  | lock | fclose =>
    refine ⟨hd, fun _ h => h, (List.append_nil _).symm, fun call' hcall hpoint => ?_⟩
    obtain rfl := Option.some.inj hcall
    cases hpoint
  | opened hpoint hopen =>
    obtain ⟨hd', hlinked, hcurrent, hother⟩ := fopen_linked hd hopen
    refine ⟨hd', fun file hf => ?_, hcurrent.trans (List.append_nil _).symm, fun call' hcall _ => ?_⟩
    · rw [hother file hf]
      exact hlinked
    · obtain rfl := Option.some.inj hcall
      exact hlinked
  | failed | unlock =>
    refine ⟨hd, fun _ h => h, (List.append_nil _).symm, fun call' hcall _ => ?_⟩
    cases hcall
  | transfer hpoint hmoved =>
    have hfile := hstream hpoint
    have hbehind : ∀ (moved : List UInt8) (call' : FileCall),
        (CallResult.inside { call with point := .fclose, moved := moved }).call = some call' →
          call'.point ≠ .transfer := by
      intro moved call' hcall
      obtain rfl := Option.some.inj hcall
      simp
    obtain ⟨job, point, stream, moved⟩ := call
    cases job with
    | read size =>
      obtain ⟨rfl, -, -⟩ := transfer_read hfile hmoved
      exact ⟨hd, fun _ h => h, (List.append_nil _).symm,
        fun call' hcall hp => absurd hp (hbehind _ _ hcall)⟩
    | write data =>
      obtain ⟨hd', hlinked, hcurrent⟩ := transfer_write hd hfile hmoved
      refine ⟨hd', fun file hf => ?_, hcurrent, fun call' hcall hp => absurd hp (hbehind _ _ hcall)⟩
      rw [hlinked, ← hfile, hf]

end Disk

end AesdChar
