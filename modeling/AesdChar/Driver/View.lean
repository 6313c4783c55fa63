import AesdChar.Driver.Write

/-!
# What the device is for

Seen from outside, the device is a log: it keeps the last ten commands and the command that is not
finished, written bytes go behind the unfinished command, and a reader sees the commands one after
the other. `View` is that log, with the slot the ring starts at, which only the two seek loops bring
to light. Its operations say what every call answers.

The driver refines it (`step_refines`): a driver that represents a view answers every call as the
view does and represents the next view afterwards, with whatever blocks, pointers and wrap-around
the ring happens to use. So no call goes wrong in any reachable state (`Reachable.represents`).
-/

namespace AesdChar
open CInt BlockHeap Lines

/-- The last ten commands and the unfinished one. -/
abbrev CommandLog := LineLog isNewline maxWriteOperations

/-- The device as its users meet it. -/
structure View where
  log : CommandLog
  outOffs : ℕ

namespace View

def init : View := ⟨.empty, 0⟩

variable (v : View)

/-- The written bytes are taken. -/
def append (buf : List UInt8) : View where
  log := v.log.append buf
  outOffs := if IsLine isNewline (v.log.pending ++ buf) ∧ v.log.lines.length = maxWriteOperations
    then (v.outOffs + 1) % maxWriteOperations else v.outOffs

/-- `kmalloc` has room for the pending bytes and the written ones. -/
def Grants (k : KernelLimits) (buf : List UInt8) (env : WriteEnv) : Prop :=
  env.granted = true ∧ v.log.pending.length + buf.length ≤ k.kmallocMaxSize ∨
    v.log.pending.length + buf.length = 0

instance (k : KernelLimits) (buf : List UInt8) (env : WriteEnv) : Decidable (v.Grants k buf env) :=
  inferInstanceAs (Decidable (_ ∨ _))

/-- A write: it is taken or it changes nothing, and in every case the status is an error. -/
def write (k : KernelLimits) (buf : List UInt8) (env : WriteEnv) : ℤ × View :=
  if env.interrupted then (-ERESTARTSYS, v)
  else if ¬ v.Grants k buf env ∨ min env.uncopied buf.length ≠ 0 then (-EINVAL, v)
  else (-ENOMEM, v.append buf)

/-- A read: a front of what the command at the position still holds. -/
def read (fPos : ℤ) (count : ℕ) (env : ReadEnv) : Reply :=
  let xs := (Pieces.restAt v.log.lines fPos.toNat).take count
  if env.interrupted then ⟨-ERESTARTSYS, [], fPos⟩
  else if min env.uncopied xs.length ≠ 0 then
    ⟨-EFAULT, xs.take (xs.length - min env.uncopied xs.length), fPos⟩
  else ⟨xs.length, xs, fPos + xs.length⟩

/-- The end of file that `SEEK_END` computes: with ten commands stored the walk from `out_offs` to
`in_offs` is empty. -/
def seekEnd : ℕ := if v.log.lines.length = maxWriteOperations then 0 else v.log.contents.length

def llseek (fPos offset : ℤ) (whence : ℕ) (interrupted : Bool) : Reply :=
  match whence with
  | SEEK_SET => setPosition fPos fPos
  | SEEK_CUR => setPosition fPos (toLong (fPos + offset))
  | SEEK_END => if interrupted then ⟨-ERESTARTSYS, [], fPos⟩
    else setPosition fPos (toLong (v.seekEnd + offset))
  | _ => ⟨-EINVAL, [], fPos⟩

/-- The bytes that the seek by command walks over: those of the commands between `out_offs` and the
slot `write_cmd`. -/
def skipped (writeCmd : ℕ) : ℕ :=
  (v.log.lines.take ((writeCmd + maxWriteOperations - v.outOffs) % maxWriteOperations)).flatten.length

def ioctl (fPos : ℤ) (cmd : ℕ) (arg : AesdSeekto) (env : ReadEnv) : Reply :=
  if cmd ≠ AESDCHAR_IOCSEEKTO then ⟨-ENOTTY, [], fPos⟩
  else if min env.uncopied 8 ≠ 0 then ⟨-EFAULT, [], fPos⟩
  else if arg.writeCmd.toNat ≥ maxWriteOperations then ⟨-EINVAL, [], fPos⟩
  else if env.interrupted then ⟨-ERESTARTSYS, [], fPos⟩
  else ⟨-ENOMEM, [], toUInt32 (v.skipped arg.writeCmd.toNat + arg.writeCmdOffset.toNat)⟩

/-- One call on a handle at position `fPos`. -/
def call (k : KernelLimits) (fPos : ℤ) : Call → Reply × View
  | .open => (⟨0, [], 0⟩, v)
  | .release => (⟨0, [], fPos⟩, v)
  | .read count env => (v.read fPos count env, v)
  | .write buf env => (⟨(v.write k buf env).1, [], fPos⟩, (v.write k buf env).2)
  | .llseek offset whence interrupted => (v.llseek fPos offset whence interrupted, v)
  | .ioctl cmd arg env => (v.ioctl fPos cmd arg env, v)

end View

/-- The driver is unlocked and holds the commands and the pending bytes of the view. -/
structure Represents (k : KernelLimits) (d : Driver) (v : View) : Prop where
  lock : d.dev.lock = false
  outOffs : d.dev.aesdBuffer.outOffs = v.outOffs
  holds : Holds k d.heap d.dev v.log.lines v.log.pending

variable {k : KernelLimits} {d : Driver} {v : View} {buf : List UInt8} {fPos : ℤ}

theorem represents_init : Represents k aesdInitModule .init where
  lock := rfl
  outOffs := rfl
  holds :=
    { ring := ringInv_init
      stored := by
        have : aesdCircularBufferInit.stored = [] := by decide
        simp [aesdInitModule, this, View.init, LineLog.empty]
      pending := Owns.null
      nodup := by decide }

namespace Represents

theorem commands (hr : Represents k d v) : d.commands = some v.log.lines :=
  mapM_entryBytes hr.holds.stored

theorem pending (hr : Represents k d v) : d.pending = some v.log.pending :=
  hr.holds.pending.entryBytes_eq

theorem outOffs_eq (hr : Represents k d v) (hne : v.log.lines.length ≠ maxWriteOperations) :
    v.outOffs = 0 := by
  rw [← hr.outOffs]
  refine hr.holds.ring.of_not_full ?_
  rw [← Bool.not_eq_true, hr.holds.ring.full_iff, hr.holds.count_eq]
  exact hne

theorem outOffs_lt (hr : Represents k d v) : v.outOffs < maxWriteOperations :=
  hr.outOffs ▸ hr.holds.ring.outOffs_lt

theorem contents_lt (hr : Represents k d v) : v.log.contents.length < 2 ^ 31 :=
  hr.holds.length_flatten_lt

theorem unlock (hr : Represents k d v) :
    (⟨d.heap, mutexUnlock ⟨d.dev.aesdBuffer, d.dev.aesdEntry, true⟩⟩ : Driver) = d := by
  obtain ⟨heap, buffer, entry, lock⟩ := d
  have hlock := hr.lock
  simp only at hlock
  simp [mutexUnlock, hlock]

theorem lock_eq (hr : Represents k d v) (interrupted : Bool) :
    mutexLockInterruptible d.dev interrupted =
      some (if interrupted then (true, d.dev) else (false, { d.dev with lock := true })) := by
  cases interrupted <;> simp [mutexLockInterruptible, hr.lock]

theorem grants_iff (hr : Represents k d v) (hlen : buf.length ≤ k.maxRwCount) (env : WriteEnv) :
    d.KmallocGrants k buf env ↔ v.Grants k buf env :=
  or_congr (and_congr_right fun _ => request_le_iff hr.holds.pending hlen)
    (request_eq_zero_iff hr.holds.pending hlen)

end Represents

theorem View.write_of_succeeds {env : WriteEnv} (hr : Represents k d v)
    (hlen : buf.length ≤ k.maxRwCount) (hok : d.WriteSucceeds k buf env) :
    v.write k buf env = (-ENOMEM, v.append buf) := by
  obtain ⟨hint, hgrants, hleft⟩ := hok
  have hgrants' := (hr.grants_iff hlen env).1 hgrants
  rw [View.write, if_neg (by simp [hint]), if_neg (by simp [hgrants', hleft])]

theorem View.write_of_fails {env : WriteEnv} (hr : Represents k d v)
    (hlen : buf.length ≤ k.maxRwCount) (hfail : ¬ d.WriteSucceeds k buf env) :
    (v.write k buf env).2 = v := by
  rw [View.write]
  split_ifs with hint hrefused
  · rfl
  · rfl
  · simp only [not_or, not_not] at hrefused
    exact absurd ⟨by simpa using hint, (hr.grants_iff hlen env).2 hrefused.1, hrefused.2⟩ hfail

/-! ### Every operation answers as the view does -/

theorem append_represents {h' : Heap UInt8} {e : AesdBufferEntry} (hr : Represents k d v)
    (hh : Holds k h' { d.dev with aesdEntry := e, lock := true } v.log.lines
      (v.log.pending ++ buf)) :
    ∃ r, sendEntryToCircularBuffer h' { d.dev with aesdEntry := e, lock := true } = some r ∧
      Represents k ⟨r.1, mutexUnlock r.2⟩ (v.append buf) := by
  by_cases hline : IsLine isNewline (v.log.pending ++ buf)
  · obtain ⟨h'', hsend, hholds, -⟩ := sendEntry_commit hh hline
    obtain ⟨hlines, hpending⟩ := LineLog.append_of_isLine hline
    refine ⟨_, hsend, rfl, ?_, ?_⟩
    · simp only [mutexUnlock, View.append, hline, true_and]
      rw [addEntry_outOffs hr.holds.ring, hr.holds.count_eq, hr.outOffs]
    · rw [View.append, hlines, hpending]
      exact ⟨hholds.ring, hholds.stored, hholds.pending, hholds.nodup⟩
  · obtain ⟨hlines, hpending⟩ := LineLog.append_of_not_isLine hline
    refine ⟨_, sendEntry_keep hh hline, rfl, ?_, ?_⟩
    · simp [mutexUnlock, View.append, hline, hr.outOffs]
    · rw [View.append, hlines, hpending]
      exact ⟨hh.ring, hh.stored, hh.pending, hh.nodup⟩

theorem fault_represents {h' : Heap UInt8} (hr : Represents k d v)
    (hroom : v.log.pending.length + buf.length ≤ k.kmallocMaxSize) {ys : List UInt8}
    (hfilled : d.Filled buf (v.log.pending ++ ys) h') :
    Represents k ⟨h', { d.dev with aesdEntry := if d.dev.aesdEntry.buffptr = none
      then ⟨some (d.alloc buf).1, 0⟩ else d.dev.aesdEntry }⟩ v := by
  have hsame : ∀ c ∈ d.dev.blocks, h'.block c = d.heap.block c := fun c hc =>
    hfilled.block (Driver.alloc_ne (hr.holds.live hc))
  refine ⟨hr.lock, hr.outOffs, ?_⟩
  split
  · rename_i hnull
    have hpend := hr.holds.pending.nil_of_null hnull
    have hsize := hr.holds.pending.1
    have hhas := hfilled.has.of_append
    rw [hpend] at hhas hsize hroom ⊢
    rw [hsize] at hhas
    refine ⟨hr.holds.ring, ?_, ⟨rfl, _, hroom, hhas⟩, ?_⟩
    · exact forall₂_owns_congr hr.holds.stored fun c hc => hsame c (List.mem_append_left _ hc)
    · refine List.nodup_append.2 ⟨(List.nodup_append.1 hr.holds.nodup).1, Option.toList_nodup _, ?_⟩
      rintro c hc b hb rfl
      have hlive := hr.holds.live (List.mem_append_left _ hc)
      rw [Option.mem_toList, AesdBufferEntry.block?_eq_some] at hb
      exact Driver.alloc_ne hlive (Option.some.inj hb)
  · exact hr.holds.congr hsame

theorem aesdWrite_represents (hr : Represents k d v) (hlen : buf.length ≤ k.maxRwCount)
    (env : WriteEnv) : ∃ d', aesdWrite k d buf env = some ((v.write k buf env).1, d') ∧
      Represents k d' (v.write k buf env).2 := by
  rw [View.write]
  cases hint : env.interrupted with
  | true => exact ⟨d, by simp [aesdWrite_interrupted hint], hr⟩
  | false =>
    simp only [Bool.false_eq_true, if_false]
    by_cases hgrants : v.Grants k buf env
    swap
    · rw [if_pos (Or.inl hgrants)]
      exact ⟨d, aesdWrite_refused hr.lock hr.holds.pending hint
        ((hr.grants_iff hlen env).not.2 hgrants), hr⟩
    have hgrants' := (hr.grants_iff hlen env).2 hgrants
    by_cases hleft : min env.uncopied buf.length = 0
    · rw [if_neg (by simp [hgrants, hleft])]
      obtain ⟨h', hwrite, hholds, -⟩ := aesdWrite_taken hr.lock hr.holds hlen
        ⟨hint, hgrants', hleft⟩
      obtain ⟨r, hsend, hr'⟩ := append_represents hr hholds
      exact ⟨_, by rw [hwrite, hsend]; rfl, hr'⟩
    · rw [if_pos (Or.inr hleft)]
      obtain ⟨h', ys, hwrite, hfilled⟩ := aesdWrite_fault hr.lock hr.holds.pending hlen hint
        hgrants' hleft
      exact ⟨_, hwrite, fault_represents hr ((request_le_iff hr.holds.pending hlen).1 hgrants'.le)
        hfilled⟩

theorem findEntry_represents (hr : Represents k d v) {pos : ℕ} (hpos : pos < 2 ^ 63) :
    (aesdCircularBufferFindEntryOffsetForFpos d.dev.aesdBuffer pos = none ∧
      Pieces.restAt v.log.lines pos = []) ∨
    ∃ i off e xs, aesdCircularBufferFindEntryOffsetForFpos d.dev.aesdBuffer pos = some (i, off) ∧
      d.dev.aesdBuffer.slot i = e ∧ Owns k d.heap e xs ∧ off < xs.length ∧
      Pieces.restAt v.log.lines pos = xs.drop off := by
  have hsum : (v.log.lines.map List.length).sum < 2 ^ 31 := by
    rw [← List.length_flatten]
    exact hr.contents_lt
  have hfind := findEntry_eq hr.holds.ring (show pos < 2 ^ 64 by omega) (by rwa [hr.holds.sizes_eq])
  rw [hr.holds.sizes_eq] at hfind
  cases hloc : Pieces.locate (v.log.lines.map List.length) pos with
  | none =>
    left
    rw [hloc] at hfind
    refine ⟨hfind, Pieces.restAt_of_le ?_⟩
    rw [List.length_flatten]
    exact Pieces.locate_eq_none_iff.1 hloc
  | some r =>
    right
    obtain ⟨i, off⟩ := r
    rw [hloc] at hfind
    obtain ⟨hi, hrest, hoff⟩ := Pieces.locate_restAt hloc
    have hi' : i < d.dev.aesdBuffer.stored.length := by rwa [hr.holds.stored.length_eq]
    exact ⟨_, off, _, v.log.lines[i], hfind, slot_of_stored hi',
      (List.forall₂_iff_get.1 hr.holds.stored).2 i hi' hi, hoff, hrest⟩

theorem readCount_eq {size off : ℕ} (count : ℕ) (hoff : off < size) (hsize : size ≤ 2 ^ 27) :
    (if count > toSize (toLong (toSize ((size : ℤ) - (off : ℕ)) : ℕ))
      then toLong (toSize ((size : ℤ) - (off : ℕ)) : ℕ) else toLong count) =
      ((min count (size - off) : ℕ) : ℤ) := by
  have hcopy : toLong (toSize ((size : ℤ) - (off : ℕ)) : ℕ) = (size - off : ℕ) := by
    rw [toSize_of_range (by omega) (by omega), toLong_of_range (by omega) (by omega)]
    omega
  rw [hcopy, toSize_natCast (by omega)]
  split
  · omega
  · rw [toLong_of_range (by omega) (by omega)]
    omega

theorem copyToUser_owned {h : Heap UInt8} {e : AesdBufferEntry} {xs : List UInt8} {off : ℕ}
    (howns : Owns k h e xs) (hoff : off < xs.length) (count uncopied : ℕ) :
    copyToUser h e.buffptr off (min count (xs.length - off)) uncopied =
      some (min uncopied (min count (xs.length - off)), ((xs.drop off).take count).take
        (min count (xs.length - off) - min uncopied (min count (xs.length - off)))) := by
  obtain ⟨b, hb⟩ := howns.exists_block (List.length_pos_iff.1 (by omega))
  obtain ⟨n, -, hhas⟩ := howns.has hb
  have hload : h.loadAt (.block b) off (min count (xs.length - off)) =
      some ((xs.drop off).take (min count (xs.length - off))) := hhas.load (by omega)
  rw [← List.length_drop, ← List.take_eq_take_min, List.length_drop] at hload
  simp [copyToUser, hb, hload]

theorem aesdRead_represents (hr : Represents k d v) (hpos : 0 ≤ fPos ∧ fPos < 2 ^ 63) (count : ℕ)
    (env : ReadEnv) : aesdRead d fPos count env = some (v.read fPos count env, d) := by
  obtain ⟨pos, rfl⟩ := Int.eq_ofNat_of_zero_le hpos.1
  have hlt : pos < 2 ^ 63 := by omega
  have hunlock := hr.unlock
  rw [View.read, Int.toNat_natCast]
  cases hint : env.interrupted with
  | true => simp [aesdRead, hr.lock_eq, hint]
  | false =>
    simp only [aesdRead, hr.lock_eq, hint, Bool.false_eq_true, if_false, Option.bind_eq_bind,
      Option.bind_some, toSize_natCast (show pos < 2 ^ 64 by omega)]
    rcases findEntry_represents hr hlt with
      ⟨hnone, hrest⟩ | ⟨i, off, e, xs, hsome, hslot, howns, hoff, hrest⟩
    · simp [hnone, hrest, hunlock]
    · have hmax := howns.length_le.trans k.kmallocMaxSize_le
      have hret := readCount_eq count hoff hmax
      have hcopy := copyToUser_owned howns hoff count env.uncopied
      have hlen : ((xs.drop off).take count).length = min count (xs.length - off) := by simp
      have hpos : pos < 2 ^ 31 := by
        by_contra hge
        have hnil := Pieces.restAt_of_le (hr.contents_lt.le.trans (not_lt.1 hge))
        rw [hrest, List.drop_eq_nil_iff] at hnil
        omega
      simp only [hsome, hslot, howns.1, hret, hrest, hlen]
      generalize min count (xs.length - off) = n at hcopy hlen
      have hn : n ≤ 2 ^ 27 := by
        have := List.length_take_le' count (xs.drop off)
        rw [List.length_drop] at this
        omega
      rw [toSize_natCast (by omega), hcopy, Option.bind_some, Option.pure_def, hunlock]
      split
      · rfl
      · rename_i hleft
        have hall : min env.uncopied n = 0 := not_not.1 hleft
        rw [toLong_of_range (by omega) (by omega), hall, Nat.sub_zero,
          List.take_of_length_le hlen.le]

/-- The size loops of the seek functions add up the commands up to the slot they stop at. -/
theorem sizeLoop_represents (hr : Represents k d v) {stop n : ℕ} (hstop : stop < maxWriteOperations)
    (hn : n = (stop + maxWriteOperations - v.outOffs) % maxWriteOperations) :
    sizeLoop d.dev.aesdBuffer stop maxWriteOperations d.dev.aesdBuffer.outOffs 0 =
      some (((v.log.lines.take n).flatten.length : ℕ) : ℤ) := by
  have hring := hr.holds.ring
  have hout := hr.outOffs_lt
  have hlt : n < maxWriteOperations := hn ▸ Nat.mod_lt _ (by decide)
  have hsum : (sizes d.dev.aesdBuffer d.dev.aesdBuffer.outOffs n).sum =
      (v.log.lines.take n).flatten.length := by
    rw [sizes_outOffs hring hlt.le, List.map_take, hr.holds.sizes_eq, List.length_flatten,
      List.map_take]
  have hle : (v.log.lines.take n).flatten.length < 2 ^ 31 := by
    have hsplit : (v.log.lines.take n).flatten ++ (v.log.lines.drop n).flatten = v.log.contents := by
      rw [← List.flatten_append, List.take_append_drop, LineLog.contents]
    have hlen := congrArg List.length hsplit
    have hlt := hr.contents_lt
    rw [List.length_append] at hlen
    omega
  have hmeet : (d.dev.aesdBuffer.outOffs + n) % maxWriteOperations = stop := by
    rw [hr.outOffs, hn]
    simp only [maxWriteOperations] at *
    omega
  have hloop := sizeLoop_eq hring.outOffs_lt hlt hmeet hlt
    (show 0 + (sizes d.dev.aesdBuffer d.dev.aesdBuffer.outOffs n).sum < 2 ^ 31 by rw [hsum]; omega)
  rw [hsum] at hloop
  simpa using hloop

theorem aesdLlseek_represents (hr : Represents k d v) (offset : ℤ) (whence : ℕ)
    (interrupted : Bool) : aesdLlseek d fPos offset whence interrupted =
      some (v.llseek fPos offset whence interrupted, d) := by
  have hunlock := hr.unlock
  rcases whence with _ | _ | _ | whence
  · rfl
  · rfl
  · unfold aesdLlseek View.llseek
    cases interrupted with
    | true => simp [hr.lock_eq]
    | false =>
      have hout := hr.outOffs_lt
      have hle := hr.holds.count_eq ▸ hr.holds.ring.count_le
      -- the distance the walk sees from `out_offs` to `in_offs`
      have hdist : (d.dev.aesdBuffer.inOffs + maxWriteOperations - v.outOffs) % maxWriteOperations =
          v.log.lines.length % maxWriteOperations := by
        rw [hr.holds.ring.inOffs_eq, hr.holds.count_eq, hr.outOffs]
        simp only [maxWriteOperations] at *
        omega
      have hloop := sizeLoop_represents hr hr.holds.ring.inOffs_lt hdist.symm
      have hend : ((v.log.lines.take (v.log.lines.length % maxWriteOperations)).flatten.length) =
          v.seekEnd := by
        rw [View.seekEnd]
        split
        · rename_i hfull
          simp [hfull]
        · rw [Nat.mod_eq_of_lt (by omega), List.take_length, LineLog.contents]
      rw [hend] at hloop
      simp [hr.lock_eq, hloop, hunlock]
  · rfl

theorem aesdUnlockedIoctl_represents (hr : Represents k d v) (cmd : ℕ) (arg : AesdSeekto)
    (env : ReadEnv) : aesdUnlockedIoctl d fPos cmd arg env = some (v.ioctl fPos cmd arg env, d) := by
  have hunlock := hr.unlock
  rw [aesdUnlockedIoctl, View.ioctl]
  split
  · rfl
  split
  · rfl
  split
  · rfl
  · rename_i hcmd
    cases hint : env.interrupted with
    | true => simp [hr.lock_eq]
    | false =>
      have hloop := sizeLoop_represents hr (not_le.1 hcmd) rfl
      rw [← View.skipped] at hloop
      simp [hr.lock_eq, hloop, hunlock]

/-! ### The whole driver -/

/-- The driver represents the view, and every handle is at a position that a `loff_t` can hold. -/
structure System.Represents (k : KernelLimits) (s : System) (v : View) : Prop where
  driver : AesdChar.Represents k s.driver v
  fPos : ∀ handle, 0 ≤ s.fPos handle ∧ s.fPos handle < 2 ^ 63

theorem System.represents_init : System.init.Represents k .init :=
  ⟨AesdChar.represents_init, fun _ => ⟨le_refl 0, Int.pow_pos (by decide)⟩⟩

theorem setPosition_fPos {newPos : ℤ} (hpos : 0 ≤ fPos ∧ fPos < 2 ^ 63) (hnew : newPos < 2 ^ 63) :
    0 ≤ (setPosition fPos newPos).fPos ∧ (setPosition fPos newPos).fPos < 2 ^ 63 := by
  rw [setPosition]
  split
  · exact hpos
  · exact ⟨not_lt.1 ‹_›, hnew⟩

theorem View.read_fPos (hpos : 0 ≤ fPos) (count : ℕ) (env : ReadEnv) :
    fPos ≤ (v.read fPos count env).fPos ∧
      ((v.read fPos count env).fPos ≤ v.log.contents.length ∨ (v.read fPos count env).fPos = fPos) := by
  have hfront := (Pieces.restAt_prefix v.log.lines fPos.toNat).length_le
  have htake := List.length_take_le count (Pieces.restAt v.log.lines fPos.toNat)
  have hle := List.length_take_le' count (Pieces.restAt v.log.lines fPos.toNat)
  rw [List.length_drop, ← LineLog.contents] at hfront
  simp only [View.read]
  split
  · exact ⟨le_refl _, Or.inr rfl⟩
  split
  · exact ⟨le_refl _, Or.inr rfl⟩
  · simp only
    omega

theorem View.call_fPos (hpos : 0 ≤ fPos ∧ fPos < 2 ^ 63) (hlen : v.log.contents.length < 2 ^ 31)
    (c : Call) : 0 ≤ (v.call k fPos c).1.fPos ∧ (v.call k fPos c).1.fPos < 2 ^ 63 := by
  have hset : ∀ x, 0 ≤ (setPosition fPos (toLong x)).fPos ∧
      (setPosition fPos (toLong x)).fPos < 2 ^ 63 := fun x => setPosition_fPos hpos (toLong_range x).2
  cases c with
  | «open» => exact ⟨le_refl 0, Int.pow_pos (by decide)⟩
  | release => exact hpos
  | read count env =>
    have := View.read_fPos (v := v) hpos.1 count env
    simp only [View.call]
    omega
  | write buf env => exact hpos
  | llseek offset whence interrupted =>
    rcases whence with _ | _ | _ | whence
    · exact setPosition_fPos hpos hpos.2
    · exact hset _
    · simp only [View.call, View.llseek]
      split
      · exact hpos
      · exact hset _
    · exact hpos
  | ioctl cmd arg env =>
    simp only [View.call, View.ioctl]
    split_ifs
    · exact hpos
    · exact hpos
    · exact hpos
    · exact hpos
    · have := toUInt32_lt (v.skipped arg.writeCmd.toNat + arg.writeCmdOffset.toNat)
      simp only
      omega

/-- **The driver refines the view**: every call on every handle has a meaning, answers what the view
answers, and leads to a driver that represents the view afterwards. -/
theorem step_refines {s : System} (hs : s.Represents k v) (handle : Handle) {c : Call}
    (hc : c.Valid k) : ∃ s', s.step k (handle, c) = some (s', (v.call k (s.fPos handle) c).1) ∧
      s'.Represents k (v.call k (s.fPos handle) c).2 ∧
      s'.fPos = Function.update s.fPos handle (v.call k (s.fPos handle) c).1.fPos := by
  have hr := hs.driver
  have hpos := hs.fPos handle
  have hcall : ∃ d', s.step k (handle, c) =
      some (s.after handle ((v.call k (s.fPos handle) c).1, d')) ∧
      AesdChar.Represents k d' (v.call k (s.fPos handle) c).2 := by
    cases c with
    | «open» => exact ⟨s.driver, rfl, hr⟩
    | release => exact ⟨s.driver, rfl, hr⟩
    | read count env =>
      exact ⟨s.driver, by simp [System.step, aesdRead_represents hr hpos, View.call], hr⟩
    | write buf env =>
      obtain ⟨d', hwrite, hr'⟩ := aesdWrite_represents hr hc env
      exact ⟨d', by simp [System.step, hwrite, View.call], hr'⟩
    | llseek offset whence interrupted =>
      exact ⟨s.driver, by simp [System.step, aesdLlseek_represents hr, View.call], hr⟩
    | ioctl cmd arg env =>
      exact ⟨s.driver, by simp [System.step, aesdUnlockedIoctl_represents hr, View.call], hr⟩
  obtain ⟨d', hstep, hr'⟩ := hcall
  refine ⟨_, hstep, ⟨hr', fun h => ?_⟩, rfl⟩
  simp only [Function.update_apply]
  split
  · exact View.call_fPos hpos hr.contents_lt c
  · exact hs.fPos h

theorem System.Reachable.represents {s : System} (hs : s.Reachable k) :
    ∃ v, s.Represents k v := by
  refine Machine.Reachable.invariant (I := fun s => ∃ v, s.Represents k v)
    ⟨.init, System.represents_init⟩ ?_ hs
  rintro s ⟨handle, c⟩ s' o ⟨v, hv⟩ hc hstep
  obtain ⟨t, ht, hrep, -⟩ := step_refines hv handle hc
  obtain ⟨rfl, -⟩ : t = s' ∧ _ := by simpa [deviceMachine, ht] using hstep
  exact ⟨_, hrep⟩

/-! ### Runs -/

/-- The view with the positions of the handles. -/
structure View.Session where
  view : View
  fPos : Handle → ℤ

def View.Session.init : View.Session := ⟨.init, fun _ => 0⟩

/-- What the users of the device deal with: a log, and a position for each handle. -/
def viewMachine (k : KernelLimits) : Machine View.Session (Handle × Call) Reply where
  step t a :=
    let r := t.view.call k (t.fPos a.1) a.2
    some (⟨r.2, Function.update t.fPos a.1 r.1.fPos⟩, r.1)

/-- **The driver and the log answer alike**: any calls on any handles get the same answers, to the end, from
the driver and from the log with the slot kept beside it that the ring starts at. -/
theorem traces_iff {acts : List (Handle × Call)} {outs : List Reply} :
    (∃ s, (deviceMachine k).Run (fun _ a => a.2.Valid k) .init acts outs s) ↔
      ∃ t, (viewMachine k).Run (fun _ a => a.2.Valid k) .init acts outs t := by
  have hdriver : ∀ (s : System) (t : View.Session) (a : Handle × Call) (s' : System) (o : Reply),
      s.Represents k t.view ∧ s.fPos = t.fPos → a.2.Valid k →
      (deviceMachine k).step s a = some (s', o) → ∃ t', a.2.Valid k ∧
        (viewMachine k).step t a = some (t', o) ∧ s'.Represents k t'.view ∧ s'.fPos = t'.fPos := by
    rintro s t ⟨handle, c⟩ s' o ⟨hv, hpos⟩ hvalid hstep
    obtain ⟨s₁, hs₁, hrep, hpos'⟩ := step_refines hv handle hvalid
    obtain ⟨rfl, rfl⟩ := Prod.mk.inj (Option.some.inj (hs₁.symm.trans hstep))
    rw [hpos] at hrep hpos' ⊢
    exact ⟨_, hvalid, rfl, hrep, hpos'⟩
  have hview : ∀ (t : View.Session) (s : System) (a : Handle × Call) (t' : View.Session) (o : Reply),
      s.Represents k t.view ∧ s.fPos = t.fPos → a.2.Valid k →
      (viewMachine k).step t a = some (t', o) → ∃ s', a.2.Valid k ∧
        (deviceMachine k).step s a = some (s', o) ∧ s'.Represents k t'.view ∧ s'.fPos = t'.fPos := by
    rintro t s ⟨handle, c⟩ t' o ⟨hv, hpos⟩ hvalid hstep
    obtain ⟨s₁, hs₁, hrep, hpos'⟩ := step_refines hv handle hvalid
    obtain ⟨rfl, rfl⟩ := Prod.mk.inj (Option.some.inj hstep)
    rw [hpos] at hs₁ hrep hpos'
    exact ⟨s₁, hvalid, hs₁, hrep, hpos'⟩
  have hinit : System.init.Represents k View.Session.init.view ∧
      System.init.fPos = View.Session.init.fPos := ⟨System.represents_init, rfl⟩
  constructor
  · rintro ⟨s, hrun⟩
    obtain ⟨t, ht, -⟩ := Machine.Run.simulate hdriver hinit hrun
    exact ⟨t, ht⟩
  · rintro ⟨t, hrun⟩
    obtain ⟨s, hs, -⟩ := Machine.Run.simulate hview hinit hrun
    exact ⟨s, hs⟩

end AesdChar
