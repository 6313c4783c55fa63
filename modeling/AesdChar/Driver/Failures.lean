import AesdChar.Driver.Seeking

/-!
# Calls that fail, and calls that say so

A write that fails leaves a driver that represents the same view, although a fault in a fresh entry
leaves a block of size 0 behind and sends later writes through the other branch. So no later call
tells the two states apart (`failed_write_invisible`).

Writes and seeks by command return an error in every case, so their status is right exactly when
they had no effect (`status_iff`).
-/

namespace AesdChar
open CInt BlockHeap Lines

variable {k : KernelLimits} {d d' : Driver} {v : View} {s s' : System} {buf : List UInt8}
  {env : WriteEnv} {r : Reply}

/-! ### What a failed write leaves -/

/-- Both systems look the same from outside. -/
def System.LooksLike (k : KernelLimits) (s s' : System) : Prop :=
  (∃ v, s.Represents k v ∧ s'.Represents k v) ∧ s.fPos = s'.fPos

/-- **A failed write is invisible**: no later calls can tell the state it leaves from the state it
was made in. -/
theorem failed_write_invisible (hs : s.Reachable k) {handle : Handle} (hlen : buf.length ≤ k.maxRwCount)
    (hfail : ¬ s.driver.WriteSucceeds k buf env)
    (hstep : s.step k (handle, .write buf env) = some (s', r))
    (acts : List (Handle × Call)) (hvalid : ∀ a ∈ acts, a.2.Valid k) :
    ∃ t t' outs, (deviceMachine k).exec s acts = some (t, outs) ∧
      (deviceMachine k).exec s' acts = some (t', outs) ∧ t.fPos = t'.fPos := by
  obtain ⟨v, hv⟩ := hs.represents
  obtain ⟨t, ht, hrep, hpos⟩ := step_refines (c := .write buf env) hv handle hlen
  obtain ⟨rfl, rfl⟩ : t = s' ∧ _ = r := by simpa [hstep, eq_comm] using ht
  rw [View.call, View.write_of_fails hv.driver hlen hfail] at hrep
  have hsame : s.LooksLike k t := ⟨⟨v, hv, hrep⟩, by simp [hpos, View.call]⟩
  obtain ⟨u, u', outs, hu, hu', -, hfPos⟩ := Machine.exec_congr (m := deviceMachine k)
    (R := System.LooksLike k) (fun a => a.2.Valid k) (by
      rintro s s' ⟨handle, c⟩ ⟨⟨v, hv, hv'⟩, hfPos⟩ hc
      obtain ⟨t, ht, hrep, hpos⟩ := step_refines hv handle hc
      obtain ⟨t', ht', hrep', hpos'⟩ := step_refines hv' handle hc
      rw [← hfPos] at ht' hrep' hpos'
      exact ⟨t, t', _, ht, ht', ⟨_, hrep, hrep'⟩, hpos.trans hpos'.symm⟩) hsame acts hvalid
  exact ⟨u, u', outs, hu, hu', hfPos⟩

theorem failed_write_invisible_fault : ∃ s' r t t' outs,
    System.init.step .x86 (0, .write [97] ⟨false, true, 1⟩) = some (s', r) ∧
    (deviceMachine .x86).exec .init [(0, .write [98, 10] ⟨false, true, 0⟩), (1, .read 5 ⟨false, 0⟩)] =
      some (t, outs) ∧
    (deviceMachine .x86).exec s' [(0, .write [98, 10] ⟨false, true, 0⟩), (1, .read 5 ⟨false, 0⟩)] =
      some (t', outs) ∧ t.fPos = t'.fPos := by
  obtain ⟨⟨s', r⟩, hstep⟩ := Option.isSome_iff_exists.1
    (show (System.init.step .x86 (0, .write [97] ⟨false, true, 1⟩)).isSome by decide +kernel)
  obtain ⟨t, t', outs, h⟩ := failed_write_invisible .refl (by decide) (by decide) hstep
    [(0, .write [98, 10] ⟨false, true, 0⟩), (1, .read 5 ⟨false, 0⟩)] (by decide)
  exact ⟨s', r, t, t', outs, hstep, h⟩

/-! ### Whether the status tells the truth -/

/-- The bytes of a write were taken: an entry has the address that the write got from `kmalloc`, and
behind it the bytes that were pending and then those of the write. -/
def Driver.Took (k : KernelLimits) (d d' : Driver) (buf : List UInt8) (env : WriteEnv) : Prop :=
  ∃ e ∈ d'.dev.aesdEntry :: d'.dev.aesdBuffer.stored, ∃ a pend, e.buffptr = some a ∧
    d.kmallocResult k buf env = some a ∧ d.pending = some pend ∧
    entryBytes d'.heap e = some (pend ++ buf)

/-- The write returns a number that is not negative, and that is the full count, exactly when its
bytes were taken. -/
def Driver.WriteTruthful (k : KernelLimits) (d : Driver) (buf : List UInt8) (env : WriteEnv) : Prop :=
  ∃ ret d', aesdWrite k d buf env = some (ret, d') ∧ (0 ≤ ret ↔ d.Took k d' buf env) ∧
    (ret = buf.length ↔ d.Took k d' buf env)

/-- The seek puts a handle at the requested byte, wherever the handle was. -/
def Driver.Seeks (d : Driver) (cmd : ℕ) (arg : AesdSeekto) (env : ReadEnv) : Prop :=
  ∃ cmds, d.commands = some cmds ∧ arg.Names cmds ∧ ∀ fPos, ∃ r,
    aesdUnlockedIoctl d fPos cmd arg env = some r ∧ r.1.fPos = arg.target cmds

/-- The seek returns a number that is not negative, and that is 0, exactly when it put the handle at
the requested byte. -/
def Driver.IoctlTruthful (d : Driver) (fPos : ℤ) (cmd : ℕ) (arg : AesdSeekto) (env : ReadEnv) :
    Prop :=
  ∃ r, aesdUnlockedIoctl d fPos cmd arg env = some r ∧ (0 ≤ r.1.ret ↔ d.Seeks cmd arg env) ∧
    (r.1.ret = 0 ↔ d.Seeks cmd arg env)

/-- The seek passes every check and names a stored byte, in a ring that starts at slot 0. -/
def Driver.SeekSucceeds (d : Driver) (cmd : ℕ) (arg : AesdSeekto) (env : ReadEnv) : Prop :=
  cmd = AESDCHAR_IOCSEEKTO ∧ min env.uncopied 8 = 0 ∧ env.interrupted = false ∧
    (∃ cmds, d.commands = some cmds ∧ arg.Names cmds) ∧ d.dev.aesdBuffer.outOffs = 0

theorem took_of_succeeds (hr : Represents k d v) (hlen : buf.length ≤ k.maxRwCount)
    (hok : d.WriteSucceeds k buf env) :
    ∃ ret d', aesdWrite k d buf env = some (ret, d') ∧ d.Took k d' buf env := by
  obtain ⟨h', hwrite, hh, -⟩ := aesdWrite_taken hr.lock hr.holds hlen hok
  have hresult := kmallocResult_of_grants hr.holds.pending hlen hok.1 hok.2.1
  by_cases hline : IsLine isNewline (v.log.pending ++ buf)
  · obtain ⟨h'', hsend, -, -, -, hframe⟩ := sendEntry_commit hh hline
    rw [hsend] at hwrite
    refine ⟨_, _, hwrite, ⟨some (d.alloc buf).1, (v.log.pending ++ buf).length⟩, ?_, _,
      v.log.pending, rfl, hresult, hr.pending, ?_⟩
    · refine List.mem_cons_of_mem _ ?_
      simp [mutexUnlock, addEntry_stored hr.holds.ring]
    · exact (hh.pending.congr fun b hb => hframe b (hh.pending_not_stored hb _)).entryBytes_eq
  · rw [sendEntry_keep hh hline] at hwrite
    exact ⟨_, _, hwrite, _, List.mem_cons_self, _, v.log.pending, rfl, hresult, hr.pending,
      hh.pending.entryBytes_eq⟩

theorem not_took_of_null (hnull : d.kmallocResult k buf env = none) : ¬ d.Took k d' buf env := by
  rintro ⟨e, -, a, -, -, hresult, -⟩
  rw [hnull] at hresult
  cases hresult

theorem Represents.ne_alloc (hr : Represents k d v) {b : ℕ} (hb : (d.alloc buf).1 = .block b)
    {e : AesdBufferEntry} (he : e ∈ d.dev.aesdEntry :: d.dev.aesdBuffer.stored) :
    e.buffptr ≠ some (d.alloc buf).1 := by
  intro hptr
  rw [hb, ← AesdBufferEntry.block?_eq_some] at hptr
  refine Driver.alloc_ne (hr.holds.live ?_) hb
  rcases List.mem_cons.1 he with rfl | he
  · exact List.mem_append_right _ (Option.mem_toList.2 hptr)
  · exact List.mem_append_left _ (List.mem_filterMap.2 ⟨e, he, hptr⟩)

theorem not_took_of_fails (hr : Represents k d v) (hlen : buf.length ≤ k.maxRwCount)
    (hfail : ¬ d.WriteSucceeds k buf env) :
    ∃ ret d', aesdWrite k d buf env = some (ret, d') ∧ ¬ d.Took k d' buf env := by
  cases hint : env.interrupted with
  | true => exact ⟨_, d, aesdWrite_interrupted hint, not_took_of_null (by simp [Driver.kmallocResult, hint])⟩
  | false =>
    by_cases hgrants : d.KmallocGrants k buf env
    swap
    · exact ⟨_, d, aesdWrite_refused hr.lock hr.holds.pending hint hgrants,
        not_took_of_null (kmallocResult_of_refused hgrants)⟩
    have hleft : min env.uncopied buf.length ≠ 0 := fun hzero => hfail ⟨hint, hgrants, hzero⟩
    obtain ⟨h', ys, hwrite, -⟩ := aesdWrite_fault hr.lock hr.holds.pending hlen hint hgrants hleft
    have hblock : (d.alloc buf).1 = .block d.heap.next := Driver.alloc_of_ne_nil (by omega)
    refine ⟨_, _, hwrite, ?_⟩
    rintro ⟨e, he, a, pend, ha, hresult, -, hbytes⟩
    rw [kmallocResult_of_grants hr.holds.pending hlen hint hgrants, Option.some.injEq] at hresult
    subst hresult
    by_cases hnull : d.dev.aesdEntry.buffptr = none
    · rw [if_pos hnull] at he
      rcases List.mem_cons.1 he with rfl | he
      · -- the new entry is empty, and something was to be written
        rw [hblock] at hbytes
        obtain ⟨c, -, hvalues⟩ := Option.bind_eq_some_iff.1 hbytes
        have hempty : pend ++ buf = [] := by
          simp only [Cells.load, List.take_zero] at hvalues
          split at hvalues
          · simpa [Cells.values, eq_comm] using hvalues
          · cases hvalues
        have hbuf : buf.length = 0 := by
          rw [(List.append_eq_nil_iff.1 hempty).2, List.length_nil]
        omega
      · exact hr.ne_alloc hblock (List.mem_cons_of_mem _ he) ha
    · rw [if_neg hnull] at he
      exact hr.ne_alloc hblock he ha

theorem View.write_ret_neg (v : View) (k : KernelLimits) (buf : List UInt8) (env : WriteEnv) :
    (v.write k buf env).1 < 0 := by
  rw [View.write]
  split_ifs <;> simp [ERESTARTSYS, EINVAL, ENOMEM]

theorem View.ioctl_ret_neg (v : View) (fPos : ℤ) (cmd : ℕ) (arg : AesdSeekto) (env : ReadEnv) :
    (v.ioctl fPos cmd arg env).ret < 0 := by
  rw [View.ioctl]
  split_ifs <;> simp [ENOTTY, EFAULT, EINVAL, ERESTARTSYS, ENOMEM]

theorem Represents.writeTruthful_iff (hr : Represents k d v) (hlen : buf.length ≤ k.maxRwCount)
    (env : WriteEnv) : d.WriteTruthful k buf env ↔ ¬ d.WriteSucceeds k buf env := by
  obtain ⟨d₁, hwrite, -⟩ := aesdWrite_represents hr hlen env
  have hneg := v.write_ret_neg k buf env
  have htruth : d.WriteTruthful k buf env ↔ ¬ d.Took k d₁ buf env := by
    simp only [Driver.WriteTruthful, hwrite, Option.some.injEq, Prod.mk.injEq, and_assoc]
    have h₁ : ¬ 0 ≤ (v.write k buf env).1 := by omega
    have h₂ : ¬ (v.write k buf env).1 = buf.length := by omega
    simp [h₁, h₂]
  rw [htruth, not_iff_not]
  constructor
  · intro htook
    by_contra hfail
    obtain ⟨ret, d', hwrite', hnot⟩ := not_took_of_fails hr hlen hfail
    obtain ⟨-, rfl⟩ : _ = ret ∧ d₁ = d' := by simpa [hwrite] using hwrite'
    exact hnot htook
  · intro hok
    obtain ⟨ret, d', hwrite', htook⟩ := took_of_succeeds hr hlen hok
    obtain ⟨-, rfl⟩ : _ = ret ∧ d₁ = d' := by simpa [hwrite] using hwrite'
    exact htook

theorem Represents.seeks_iff (hr : Represents k d v) (cmd : ℕ) (arg : AesdSeekto) (env : ReadEnv) :
    d.Seeks cmd arg env ↔ d.SeekSucceeds cmd arg env := by
  simp only [Driver.Seeks, Driver.SeekSucceeds, hr.commands, Option.some.injEq, exists_eq_left',
    aesdUnlockedIoctl_represents hr]
  constructor
  · rintro ⟨hnames, hpos⟩
    -- a handle that is not at the requested byte before the call
    have hmoved := hpos (arg.target v.log.lines + 1)
    have hcheck : cmd = AESDCHAR_IOCSEEKTO ∧ min env.uncopied 8 = 0 ∧ env.interrupted = false := by
      rw [View.ioctl] at hmoved
      split_ifs at hmoved with hcmd hcopy hslot hint
      · simp at hmoved
      · simp at hmoved
      · simp at hmoved
      · simp at hmoved
      · exact ⟨not_not.1 hcmd, not_not.1 hcopy, by simpa using hint⟩
    obtain ⟨rfl, hcopy, hint⟩ := hcheck
    rw [ioctl_of_names hr hnames hcopy hint] at hmoved
    simp only [AesdSeekto.target, Nat.cast_inj] at hmoved
    exact ⟨rfl, hcopy, hint, hnames, hr.outOffs.trans ((skipped_eq_iff hr hnames.1).1 (by omega))⟩
  · rintro ⟨rfl, hcopy, hint, hnames, hout⟩
    refine ⟨hnames, fun fPos => ?_⟩
    rw [ioctl_of_names hr hnames hcopy hint, AesdSeekto.target,
      (skipped_eq_iff hr hnames.1).2 (hr.outOffs ▸ hout)]

theorem Represents.ioctlTruthful_iff (hr : Represents k d v) (fPos : ℤ) (cmd : ℕ) (arg : AesdSeekto)
    (env : ReadEnv) : d.IoctlTruthful fPos cmd arg env ↔ ¬ d.SeekSucceeds cmd arg env := by
  have hneg := v.ioctl_ret_neg fPos cmd arg env
  rw [← hr.seeks_iff]
  simp only [Driver.IoctlTruthful, aesdUnlockedIoctl_represents hr, Option.some.injEq,
    exists_eq_left']
  have h₁ : ¬ 0 ≤ (v.ioctl fPos cmd arg env).ret := by omega
  have h₂ : ¬ (v.ioctl fPos cmd arg env).ret = 0 := by omega
  simp [h₁, h₂]

/-- **When the status is right**: in every reachable state, exactly for the writes and the seeks by
command that do not succeed. -/
theorem status_iff (hs : s.Reachable k) :
    (∀ buf env, buf.length ≤ k.maxRwCount →
      (s.driver.WriteTruthful k buf env ↔ ¬ s.driver.WriteSucceeds k buf env)) ∧
    ∀ handle cmd arg env,
      (s.driver.IoctlTruthful (s.fPos handle) cmd arg env ↔ ¬ s.driver.SeekSucceeds cmd arg env) := by
  obtain ⟨v, hv⟩ := hs.represents
  exact ⟨fun buf env hlen => hv.driver.writeTruthful_iff hlen env,
    fun handle => hv.driver.ioctlTruthful_iff (s.fPos handle)⟩

theorem status_iff_interrupted : ∃ s : System, s.Reachable .x86 ∧
    s.driver.commands = some [[97, 98, 10], [99, 10], [100, 101, 102, 103, 10]] ∧
    s.driver.WriteTruthful .x86 [97] ⟨true, true, 0⟩ ∧
    s.driver.IoctlTruthful (s.fPos 1) AESDCHAR_IOCSEEKTO ⟨1, 2⟩ ⟨false, 0⟩ := by
  obtain ⟨s, hreach, hcmds, -⟩ := run_threeLines
  refine ⟨s, hreach, hcmds, ((status_iff hreach).1 [97] ⟨true, true, 0⟩ (by decide)).2 (by simp
    [Driver.WriteSucceeds]), ((status_iff hreach).2 1 AESDCHAR_IOCSEEKTO ⟨1, 2⟩ ⟨false, 0⟩).2 ?_⟩
  rintro ⟨-, -, -, ⟨cmds, hcmds', hnames⟩, -⟩
  obtain rfl := Option.some.inj (hcmds.symm.trans hcmds')
  exact absurd hnames (by decide)

/-- The first write to a fresh device is taken, and `-ENOMEM` is returned. -/
theorem status_of_first_write : ¬ ∀ (s : System) (buf : List UInt8) (env : WriteEnv),
    s.Reachable .x86 → buf.length ≤ KernelLimits.x86.maxRwCount →
      s.driver.WriteTruthful .x86 buf env := by
  intro h
  have htruth := h .init [97, 10] ⟨false, true, 0⟩ .refl (by decide)
  exact (represents_init.writeTruthful_iff (by decide) _).1 htruth (by decide)

end AesdChar
