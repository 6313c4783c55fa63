import AesdChar.Driver.Reading

/-!
# Seeking

Both seek functions add up sizes from `out_offs` on, one up to the slot with the number of the
requested command and one up to `in_offs`. The first counts commands from slot 0 and not from the
oldest, so it meets the requested command exactly while the ring starts at slot 0
(`seekto_iff`); it refuses a request by its number only (`seekto_refused_iff`). The second adds up
nothing when the ring is full, so its end of file is the one a reader meets exactly while the ring is
not full (`seekEnd_iff`). A seek from the start goes nowhere (`seekSet_iff`).
-/

namespace AesdChar
open CInt BlockHeap Lines

variable {k : KernelLimits} {d : Driver} {v : View} {s : System} {fPos offset : ℤ}
  {cmds : List (List UInt8)} {arg : AesdSeekto}

/-! ### Seeking by command -/

/-- The request names a byte that is stored. -/
def AesdSeekto.Names (arg : AesdSeekto) (cmds : List (List UInt8)) : Prop :=
  ∃ _ : arg.writeCmd.toNat < cmds.length, arg.writeCmdOffset.toNat < cmds[arg.writeCmd.toNat].length

instance (arg : AesdSeekto) (cmds : List (List UInt8)) : Decidable (arg.Names cmds) :=
  inferInstanceAs (Decidable (∃ _ : _, _))

/-- The position of that byte among the commands, oldest first. -/
def AesdSeekto.target (arg : AesdSeekto) (cmds : List (List UInt8)) : ℕ :=
  (cmds.take arg.writeCmd.toNat).flatten.length + arg.writeCmdOffset.toNat

/-- What is stored from that byte on. -/
def AesdSeekto.rest (arg : AesdSeekto) (cmds : List (List UInt8)) : List UInt8 :=
  (cmds.getD arg.writeCmd.toNat []).drop arg.writeCmdOffset.toNat ++
    (cmds.drop (arg.writeCmd.toNat + 1)).flatten

/-- The seek, without a failure, puts the handle at the requested byte, and reading to end of file
from there returns the rest of that command and all newer ones. -/
def Driver.SeeksTo (d : Driver) (fPos : ℤ) (arg : AesdSeekto) (cmds : List (List UInt8)) : Prop :=
  ∃ r, aesdUnlockedIoctl d fPos AESDCHAR_IOCSEEKTO arg ⟨false, 0⟩ = some r ∧
    r.1.fPos = arg.target cmds ∧
    ∀ counts : ℕ → ℕ, (∀ i, 0 < counts i) →
      ∃ fuel, r.2.readToEof counts fuel r.1.fPos = some (arg.rest cmds)

theorem flatten_split {i : ℕ} (h : i < cmds.length) :
    cmds.flatten = (cmds.take i).flatten ++ (cmds[i] ++ (cmds.drop (i + 1)).flatten) := by
  conv_lhs => rw [← List.take_append_drop i cmds, List.drop_eq_getElem_cons h]
  rw [List.flatten_append, List.flatten_cons]

theorem AesdSeekto.Names.drop_target (h : arg.Names cmds) :
    cmds.flatten.drop (arg.target cmds) = arg.rest cmds := by
  obtain ⟨hi, hoff⟩ := h
  have hget : cmds.getD arg.writeCmd.toNat [] = cmds[arg.writeCmd.toNat] := by
    simp [List.getD, hi]
  rw [target, rest, hget, flatten_split hi, ← List.drop_drop, List.drop_left,
    List.drop_append_of_le_length hoff.le]

theorem AesdSeekto.Names.target_lt (h : arg.Names cmds) : arg.target cmds < cmds.flatten.length := by
  obtain ⟨hi, hoff⟩ := h
  have hlen := congrArg List.length (flatten_split hi)
  rw [List.length_append, List.length_append] at hlen
  rw [target]
  omega

theorem flatten_take_inj (hne : ∀ l ∈ cmds, 0 < l.length) {i j : ℕ} (hi : i ≤ cmds.length)
    (hj : j ≤ cmds.length)
    (h : (cmds.take i).flatten.length = (cmds.take j).flatten.length) : i = j := by
  have hlt : ∀ {i j : ℕ}, i < j → j ≤ cmds.length →
      (cmds.take i).flatten.length < (cmds.take j).flatten.length := by
    intro i j hij hj
    have hi : i < (cmds.take j).length := by
      rw [List.length_take]
      omega
    have hsplit := congrArg List.length (flatten_split hi)
    have hpos := hne _ (List.mem_of_mem_take (List.getElem_mem hi))
    rw [List.length_append, List.length_append, List.take_take, Nat.min_eq_left hij.le] at hsplit
    omega
  rcases Nat.lt_trichotomy i j with hij | hij | hij
  · have := hlt hij hj
    omega
  · exact hij
  · have := hlt hij hi
    omega

/-- The walk from `out_offs` passes the commands before the requested one exactly when the ring
starts at slot 0. -/
theorem skipped_eq_iff (hr : Represents k d v) {writeCmd : ℕ} (hcmd : writeCmd < v.log.lines.length) :
    v.skipped writeCmd = (v.log.lines.take writeCmd).flatten.length ↔ v.outOffs = 0 := by
  have hout := hr.outOffs_lt
  have hle := v.log.length_le
  have hne : ∀ l ∈ v.log.lines, 0 < l.length := fun l hl => (v.log.isLine l hl).length_pos
  rw [View.skipped]
  constructor
  · intro h
    by_contra hstart
    have hfull : v.log.lines.length = maxWriteOperations := by
      by_contra hfew
      exact hstart (hr.outOffs_eq hfew)
    have hwalk := flatten_take_inj hne (hfull.symm ▸ (Nat.mod_lt _ (by decide)).le) hcmd.le h
    simp only [maxWriteOperations] at *
    omega
  · intro h
    have hwalk : (writeCmd + maxWriteOperations - v.outOffs) % maxWriteOperations = writeCmd := by
      simp only [maxWriteOperations] at *
      omega
    rw [hwalk]

theorem ioctl_of_names (hr : Represents k d v) (hnames : arg.Names v.log.lines) {env : ReadEnv}
    (hcopy : min env.uncopied 8 = 0) (hint : env.interrupted = false) (fPos : ℤ) :
    v.ioctl fPos AESDCHAR_IOCSEEKTO arg env =
      ⟨-ENOMEM, [], (v.skipped arg.writeCmd.toNat + arg.writeCmdOffset.toNat : ℕ)⟩ := by
  have hcmd : arg.writeCmd.toNat < maxWriteOperations := hnames.1.trans_le v.log.length_le
  have htarget := hnames.target_lt
  have hlen := hr.contents_lt
  have hskip : v.skipped arg.writeCmd.toNat ≤ v.log.contents.length := by
    rw [View.skipped, LineLog.contents]
    conv_rhs => rw [← List.take_append_drop ((arg.writeCmd.toNat + maxWriteOperations - v.outOffs) %
      maxWriteOperations) v.log.lines, List.flatten_append, List.length_append]
    exact Nat.le_add_right _ _
  rw [AesdSeekto.target, ← LineLog.contents] at htarget
  simp only [View.ioctl, ne_eq, not_true_eq_false, if_false, hcopy, ge_iff_le, not_le.2 hcmd, hint,
    Bool.false_eq_true]
  rw [toUInt32_of_range (by omega) (by omega)]
  congr 1

theorem Represents.seeksTo_iff (hr : Represents k d v) (hnames : arg.Names v.log.lines) (fPos : ℤ) :
    d.SeeksTo fPos arg v.log.lines ↔ d.dev.aesdBuffer.outOffs = 0 := by
  have hioctl : aesdUnlockedIoctl d fPos AESDCHAR_IOCSEEKTO arg ⟨false, 0⟩ = some (_, d) :=
    aesdUnlockedIoctl_represents hr AESDCHAR_IOCSEEKTO arg ⟨false, 0⟩
  rw [ioctl_of_names hr hnames (by simp) rfl] at hioctl
  have hskip := skipped_eq_iff hr hnames.1
  rw [hr.outOffs, ← hskip]
  constructor
  · rintro ⟨r, hcall, hpos, -⟩
    obtain rfl := Option.some.inj (hioctl.symm.trans hcall)
    simp only [AesdSeekto.target, Nat.cast_inj] at hpos
    omega
  · intro h
    have htarget := hnames.target_lt
    have hlen := hr.contents_lt
    rw [← LineLog.contents] at htarget
    refine ⟨_, hioctl, by simp [AesdSeekto.target, h],
      fun counts hcounts => ⟨v.log.lines.flatten.length + 1, ?_⟩⟩
    have hread := readToEof_eq hr
      (show 0 ≤ (arg.target v.log.lines : ℤ) ∧ (arg.target v.log.lines : ℤ) < 2 ^ 63 by omega) hcounts
      (Nat.lt_succ_self _)
    rw [Int.toNat_natCast, LineLog.contents, hnames.drop_target] at hread
    simpa only [AesdSeekto.target, h] using hread

/-- **When seeking by command works**: in every reachable state and for every request that names a
stored byte, exactly when the oldest command is in slot 0. -/
theorem seekto_iff (hs : s.Reachable k) (hcmds : s.driver.commands = some cmds)
    (hnames : arg.Names cmds) (handle : Handle) :
    s.driver.SeeksTo (s.fPos handle) arg cmds ↔ s.driver.dev.aesdBuffer.outOffs = 0 := by
  obtain ⟨v, hv⟩ := hs.represents
  obtain rfl : v.log.lines = cmds := by simpa [hv.driver.commands] using hcmds
  exact hv.driver.seeksTo_iff hnames _

/-- Three lines and the start of one more are written, and two handles have read four bytes each. -/
def threeLines : List (Handle × Call) :=
  [(0, .write [97, 98, 10] ⟨false, true, 0⟩), (0, .write [99, 10] ⟨false, true, 0⟩),
    (0, .write [100, 101, 102, 103, 10] ⟨false, true, 0⟩), (0, .write [120] ⟨false, true, 0⟩),
    (1, .read 3 ⟨false, 0⟩), (1, .read 1 ⟨false, 0⟩), (2, .read 7 ⟨false, 0⟩), (2, .read 1 ⟨false, 0⟩)]

theorem run_threeLines : ∃ s : System, s.Reachable .x86 ∧
    s.driver.commands = some [[97, 98, 10], [99, 10], [100, 101, 102, 103, 10]] ∧
    s.driver.pending = some [120] ∧ s.fPos 1 = 4 ∧ s.fPos 2 = 4 ∧
    s.driver.dev.aesdBuffer.outOffs = 0 ∧ s.driver.dev.aesdBuffer.full = false := by
  obtain ⟨s, hs, hstored⟩ := Option.map_eq_some_iff.1
    (show (System.run .x86 threeLines).map (fun s => (s.driver.commands, s.driver.pending)) =
      some (some [[97, 98, 10], [99, 10], [100, 101, 102, 103, 10]], some [120]) by decide +kernel)
  have hplace : (System.run .x86 threeLines).map (fun s => (s.fPos 1, s.fPos 2,
      s.driver.dev.aesdBuffer.outOffs, s.driver.dev.aesdBuffer.full)) = some (4, 4, 0, false) := by
    decide +kernel
  rw [hs] at hplace
  simp only [Option.map_some, Option.some.injEq, Prod.mk.injEq] at hstored hplace
  exact ⟨s, System.Reachable.of_run hs, hstored.1, hstored.2, hplace⟩

theorem seekto_iff_third_line : ∃ s : System, s.Reachable .x86 ∧ s.fPos 1 = 4 ∧
    s.driver.commands = some [[97, 98, 10], [99, 10], [100, 101, 102, 103, 10]] ∧
    s.driver.SeeksTo (s.fPos 1) ⟨2, 1⟩ [[97, 98, 10], [99, 10], [100, 101, 102, 103, 10]] := by
  obtain ⟨s, hreach, hcmds, -, hpos, -, hout, -⟩ := run_threeLines
  exact ⟨s, hreach, hpos, hcmds, (seekto_iff hreach hcmds (by decide) 1).2 hout⟩

/-- Eleven lines were written, so the oldest stored one is in slot 1. -/
theorem seekto_wrapped_ring : ¬ ∀ (s : System) (cmds : List (List UInt8)) (arg : AesdSeekto)
    (handle : Handle), s.Reachable .x86 → s.driver.commands = some cmds → arg.Names cmds →
      s.driver.SeeksTo (s.fPos handle) arg cmds := by
  intro h
  set acts := List.replicate 11 (0, Call.write [97, 10] ⟨false, true, 0⟩)
  obtain ⟨s, hs⟩ := Option.isSome_iff_exists.1
    (show (System.run .x86 acts).isSome by decide +kernel)
  have hcmds : (System.run .x86 acts).bind (·.driver.commands) =
      some (List.replicate 10 [97, 10]) := by decide +kernel
  have hout : (System.run .x86 acts).map (·.driver.dev.aesdBuffer.outOffs) = some 1 := by
    decide +kernel
  rw [hs] at hcmds hout
  have hreach := System.Reachable.of_run hs
  obtain ⟨v, hv⟩ := hreach.represents
  have hlines : v.log.lines = List.replicate 10 [97, 10] := by
    simpa [hv.driver.commands] using hcmds
  have hnames : (⟨0, 0⟩ : AesdSeekto).Names v.log.lines := by
    rw [hlines]
    decide
  have hzero := (hv.driver.seeksTo_iff hnames _).1 (h s _ ⟨0, 0⟩ 0 hreach hv.driver.commands hnames)
  simp [hzero] at hout

/-! ### Requests that name nothing -/

/-- The seek is refused, and the handle stays where it was. -/
def Driver.Refuses (d : Driver) (fPos : ℤ) (arg : AesdSeekto) (env : ReadEnv) : Prop :=
  ∃ r, aesdUnlockedIoctl d fPos AESDCHAR_IOCSEEKTO arg env = some r ∧
    r.1.ret = -EINVAL ∧ r.1.fPos = fPos

theorem Represents.refuses_iff (hr : Represents k d v) (fPos : ℤ) (arg : AesdSeekto) (env : ReadEnv) :
    d.Refuses fPos arg env ↔
      min env.uncopied 8 = 0 ∧ maxWriteOperations ≤ arg.writeCmd.toNat := by
  have hcall : aesdUnlockedIoctl d fPos AESDCHAR_IOCSEEKTO arg env =
      some (v.ioctl fPos AESDCHAR_IOCSEEKTO arg env, d) := aesdUnlockedIoctl_represents hr ..
  unfold Driver.Refuses
  simp only [hcall, Option.some.injEq, exists_eq_left', View.ioctl, ne_eq, not_true_eq_false,
    if_false, ge_iff_le]
  by_cases hcopy : min env.uncopied 8 = 0
  · rw [if_neg (not_not.2 hcopy)]
    by_cases hcmd : maxWriteOperations ≤ arg.writeCmd.toNat
    · rw [if_pos hcmd]
      simp [hcopy, hcmd]
    · rw [if_neg hcmd]
      split_ifs
      · simp [ERESTARTSYS, EINVAL, hcmd]
      · simp [ENOMEM, EINVAL, hcmd]
  · rw [if_pos hcopy]
    simp [EFAULT, EINVAL, hcopy]

/-- **When requests that name nothing are refused**: in every reachable state, when the number of
the command is not below the capacity of the ring; a slot that is not filled yet and an offset behind
the command are accepted. -/
theorem seekto_refused_iff (hs : s.Reachable k) (hcmds : s.driver.commands = some cmds)
    (handle : Handle) (arg : AesdSeekto) (env : ReadEnv) :
    (¬ arg.Names cmds → s.driver.Refuses (s.fPos handle) arg env) ↔
      arg.Names cmds ∨ (min env.uncopied 8 = 0 ∧ maxWriteOperations ≤ arg.writeCmd.toNat) := by
  obtain ⟨v, hv⟩ := hs.represents
  have hlines : v.log.lines = cmds := by simpa [hv.driver.commands] using hcmds
  rw [hv.driver.refuses_iff]
  by_cases hnames : arg.Names cmds
  · simp [hnames]
  · simp [hnames]

theorem seekto_refused_iff_wrapped : ∃ s : System, s.Reachable .x86 ∧
    s.driver.dev.aesdBuffer.outOffs = 1 ∧ s.driver.pending = some [120] ∧ s.fPos 1 = 4 ∧
    s.driver.Refuses (s.fPos 1) ⟨10, 0⟩ ⟨false, 0⟩ := by
  obtain ⟨s, hs, heval⟩ := Option.map_eq_some_iff.1
    (show (System.run .x86 elevenLines).map (fun s => (s.driver.dev.aesdBuffer.outOffs,
        s.driver.pending, s.fPos 1, s.driver.commands)) =
      some (1, some [120], 4, some ((List.range 10).map fun n => [UInt8.ofNat (66 + n), 45, 10])) by
        decide +kernel)
  simp only [Prod.mk.injEq] at heval
  obtain ⟨hout, hpending, hpos, hcmds⟩ := heval
  have hreach := System.Reachable.of_run hs
  refine ⟨s, hreach, hout, hpending, hpos, ?_⟩
  exact (seekto_refused_iff hreach hcmds 1 ⟨10, 0⟩ ⟨false, 0⟩).2 (Or.inr (by decide)) (by decide)

/-- One line is stored, and a request for the second one wraps around to position 1. -/
theorem seekto_wraps_around : ¬ ∀ (s : System) (cmds : List (List UInt8)) (arg : AesdSeekto)
    (handle : Handle), s.Reachable .x86 → s.driver.commands = some cmds → ¬ arg.Names cmds →
      s.driver.Refuses (s.fPos handle) arg ⟨false, 0⟩ := by
  intro h
  set acts := [(0, Call.write [97, 10] ⟨false, true, 0⟩)]
  obtain ⟨s, hs⟩ := Option.isSome_iff_exists.1
    (show (System.run .x86 acts).isSome by decide +kernel)
  have hcmds : (System.run .x86 acts).bind (·.driver.commands) = some [[97, 10]] := by
    decide +kernel
  have hseek : (System.run .x86 acts).bind (fun s => (aesdUnlockedIoctl s.driver (s.fPos 0)
      AESDCHAR_IOCSEEKTO ⟨1, 0xFFFFFFFF⟩ ⟨false, 0⟩).map (·.1)) = some ⟨-ENOMEM, [], 1⟩ := by
    decide +kernel
  rw [hs, Option.bind_some] at hcmds hseek
  obtain ⟨r, hr, hret, -⟩ := h s _ ⟨1, 0xFFFFFFFF⟩ 0 (System.Reachable.of_run hs) hcmds (by decide)
  rw [hr, Option.map_some, Option.some.injEq] at hseek
  rw [hseek] at hret
  exact absurd hret (by decide)

/-! ### Absolute seeks -/

/-- Seeking to `o` from the start returns `o`, and reading to end of file from there gets everything
but the first `o` bytes; below 0 it is refused and the handle stays where it was. -/
def Driver.SeeksSet (d : Driver) (fPos o : ℤ) (interrupted : Bool) (contents : List UInt8) : Prop :=
  ∃ r, aesdLlseek d fPos o SEEK_SET interrupted = some r ∧
    if 0 ≤ o then r.1.ret = o ∧ ∀ counts : ℕ → ℕ, (∀ i, 0 < counts i) →
      ∃ fuel, r.2.readToEof counts fuel r.1.fPos = some (contents.drop o.toNat)
    else r.1.ret = -EINVAL ∧ r.1.fPos = fPos

theorem Represents.seeksSet_iff (hr : Represents k d v) (hpos : 0 ≤ fPos ∧ fPos < 2 ^ 63) (o : ℤ)
    (interrupted : Bool) : d.SeeksSet fPos o interrupted v.log.contents ↔ fPos = o := by
  have hcall : aesdLlseek d fPos o SEEK_SET interrupted = some (⟨fPos, [], fPos⟩, d) := by
    show some (setPosition fPos fPos, d) = _
    rw [setPosition, if_neg (not_lt.2 hpos.1)]
  unfold Driver.SeeksSet
  simp only [hcall, Option.some.injEq, exists_eq_left']
  constructor
  · intro h
    by_cases ho : 0 ≤ o
    · rw [if_pos ho] at h
      exact h.1
    · rw [if_neg ho] at h
      have hret := h.1
      simp only [EINVAL] at hret
      omega
  · intro h
    subst h
    rw [if_pos hpos.1]
    exact ⟨rfl, fun counts hcounts => ⟨_, readToEof_eq hr hpos hcounts (Nat.lt_succ_self _)⟩⟩

/-- **When an absolute seek is absolute**: in every reachable state, for every offset and any two
positions, exactly when both handles are at the requested position already. -/
theorem seekSet_iff (hs : s.Reachable k) (hcmds : s.driver.commands = some cmds) {p q : ℤ}
    (hp : 0 ≤ p ∧ p < 2 ^ 63) (hq : 0 ≤ q ∧ q < 2 ^ 63) (o : ℤ) (interrupted : Bool) :
    (s.driver.SeeksSet p o interrupted cmds.flatten ∧
      s.driver.SeeksSet q o interrupted cmds.flatten) ↔ p = o ∧ q = o := by
  obtain ⟨v, hv⟩ := hs.represents
  obtain rfl : v.log.lines = cmds := by simpa [hv.driver.commands] using hcmds
  exact and_congr (hv.driver.seeksSet_iff hp o interrupted) (hv.driver.seeksSet_iff hq o interrupted)

theorem seekSet_iff_three_lines : ∃ s : System, s.Reachable .x86 ∧ s.fPos 1 = 4 ∧ s.fPos 2 = 4 ∧
    s.driver.commands = some [[97, 98, 10], [99, 10], [100, 101, 102, 103, 10]] ∧
    s.driver.SeeksSet (s.fPos 1) 4 false [97, 98, 10, 99, 10, 100, 101, 102, 103, 10] ∧
    s.driver.SeeksSet (s.fPos 2) 4 false [97, 98, 10, 99, 10, 100, 101, 102, 103, 10] := by
  obtain ⟨s, hreach, hcmds, -, hp, hq, -⟩ := run_threeLines
  exact ⟨s, hreach, hp, hq, hcmds, (seekSet_iff hreach hcmds (by omega) (by omega) 4 false).2 ⟨hp, hq⟩⟩

/-- One line is stored, and a handle at position 0 stays there when it seeks to position 1. -/
theorem seekSet_from_start : ¬ ∀ (s : System) (cmds : List (List UInt8)) (p q o : ℤ),
    s.Reachable .x86 → s.driver.commands = some cmds → 0 ≤ p ∧ p < 2 ^ 63 → 0 ≤ q ∧ q < 2 ^ 63 →
      s.driver.SeeksSet p o false cmds.flatten ∧ s.driver.SeeksSet q o false cmds.flatten := by
  intro h
  obtain ⟨s, hs⟩ := Option.isSome_iff_exists.1
    (show (System.run .x86 [(0, .write [97, 10] ⟨false, true, 0⟩)]).isSome by decide +kernel)
  have hreach := System.Reachable.of_run hs
  obtain ⟨v, hv⟩ := hreach.represents
  have hseek := h s _ 0 0 1 hreach hv.driver.commands zero_pos zero_pos
  have hzero : (0 : ℤ) = 1 := (hv.driver.seeksSet_iff zero_pos 1 false).1 hseek.1
  omega

/-! ### Seeking from the end -/

/-- A reader who starts at position 0 receives `T` bytes before a read returns nothing. -/
def Driver.EndByReading (d : Driver) (T : ℕ) : Prop :=
  ∃ (counts : ℕ → ℕ) (fuel : ℕ) (xs : List UInt8), (∀ i, 0 < counts i) ∧
    d.readToEof counts fuel 0 = some xs ∧ xs.length = T

/-- Seeking by `offset` from the end, with the lock obtained, goes to `T + offset`, and is refused
when that is below 0. -/
def Driver.SeeksFromEnd (d : Driver) (fPos offset : ℤ) (T : ℕ) : Prop :=
  ∃ r, aesdLlseek d fPos offset SEEK_END false = some r ∧
    if 0 ≤ T + offset then r.1.ret = T + offset ∧ r.1.fPos = T + offset
    else r.1.ret = -EINVAL ∧ r.1.fPos = fPos

theorem Driver.EndByReading.eq {T : ℕ} (h : d.EndByReading T) (hr : Represents k d v) :
    T = v.log.contents.length := by
  obtain ⟨counts, fuel, xs, hcounts, hread, rfl⟩ := h
  have hmore := readToEof_eq hr zero_pos hcounts
    (show v.log.contents.length < fuel + v.log.contents.length + 1 by omega)
  have hmono := Pieces.drain_mono hread (fuel + v.log.contents.length + 1) (by omega)
  have := Option.some.inj (hmono.symm.trans hmore)
  simpa using congrArg List.length this

/-- Moving to `x` looks like moving to `y` when they are the same or both refused. -/
theorem setPosition_agrees_iff {x y : ℤ} :
    (if 0 ≤ y then (setPosition fPos x).ret = y ∧ (setPosition fPos x).fPos = y
      else (setPosition fPos x).ret = -EINVAL ∧ (setPosition fPos x).fPos = fPos) ↔
      x = y ∨ (x < 0 ∧ y < 0) := by
  rw [setPosition]
  by_cases hx : x < 0
  · rw [if_pos hx]
    split_ifs
    · simp only [EINVAL]
      omega
    · simp only [true_and, true_iff]
      omega
  · rw [if_neg hx]
    split_ifs
    · simp only [and_self]
      omega
    · simp only [EINVAL]
      omega

theorem contents_pos (h : 0 < v.log.lines.length) : 0 < v.log.contents.length := by
  obtain ⟨l, ls, hls⟩ := List.exists_cons_of_length_pos h
  have hl := (v.log.isLine l (by simp [hls])).length_pos
  rw [LineLog.contents, hls, List.flatten_cons, List.length_append]
  omega

theorem Represents.endByReading (hr : Represents k d v) : d.EndByReading v.log.contents.length :=
  ⟨fun _ => 1, _, v.log.contents, fun _ => Nat.one_pos,
    readToEof_eq hr zero_pos (fun _ => Nat.one_pos)
      (Nat.lt_succ_self _), rfl⟩

theorem Represents.seeksFromEnd_iff (hr : Represents k d v) (hoff : -2 ^ 63 ≤ offset ∧ offset < 2 ^ 63)
    (fPos : ℤ) : d.SeeksFromEnd fPos offset v.log.contents.length ↔
      v.log.contents.length + offset < 0 ∨
        (d.dev.aesdBuffer.full = false ∧ v.log.contents.length + offset < 2 ^ 63) := by
  have hlen := hr.contents_lt
  have hfull : d.dev.aesdBuffer.full = false ↔ v.log.lines.length ≠ maxWriteOperations := by
    rw [← Bool.not_eq_true, hr.holds.ring.full_iff, hr.holds.count_eq]
  have hcall : aesdLlseek d fPos offset SEEK_END false =
      some (setPosition fPos (toLong (v.seekEnd + offset)), d) :=
    aesdLlseek_represents hr offset SEEK_END false
  simp only [Driver.SeeksFromEnd, hcall, Option.some.injEq, exists_eq_left', hfull,
    setPosition_agrees_iff, View.seekEnd]
  by_cases hten : v.log.lines.length = maxWriteOperations
  · -- the ring is full and the walk is empty
    have hpos := contents_pos (v := v) (by rw [hten]; decide)
    rw [if_pos hten, Nat.cast_zero, zero_add, toLong_of_range hoff.1 hoff.2]
    simp only [hten, ne_eq, not_true_eq_false, false_and, or_false]
    omega
  · rw [if_neg hten]
    simp only [ne_eq, hten, not_false_eq_true, true_and]
    rcases lt_or_ge ((v.log.contents.length : ℤ) + offset) (2 ^ 63) with hlt | hge
    · rw [toLong_of_range (by omega) hlt]
      omega
    · rw [toLong_of_overflow hge (by omega)]
      omega

/-- **When the two ends of file agree**: in every reachable state and for every offset, exactly when
the target lies before the start, or the ring is not full and the target is a `loff_t`. -/
theorem seekEnd_iff (hs : s.Reachable k) {T : ℕ} (hT : s.driver.EndByReading T)
    (hoff : -2 ^ 63 ≤ offset ∧ offset < 2 ^ 63) (handle : Handle) :
    s.driver.SeeksFromEnd (s.fPos handle) offset T ↔
      T + offset < 0 ∨ (s.driver.dev.aesdBuffer.full = false ∧ T + offset < 2 ^ 63) := by
  obtain ⟨v, hv⟩ := hs.represents
  obtain rfl := hT.eq hv.driver
  exact hv.driver.seeksFromEnd_iff hoff _

theorem seekEnd_iff_three_lines : ∃ s : System, s.Reachable .x86 ∧
    s.driver.commands = some [[97, 98, 10], [99, 10], [100, 101, 102, 103, 10]] ∧
    s.driver.pending = some [120] ∧ s.fPos 1 = 4 ∧ s.driver.EndByReading 10 ∧
    s.driver.SeeksFromEnd (s.fPos 1) (-3) 10 ∧ s.driver.SeeksFromEnd (s.fPos 1) (-11) 10 := by
  obtain ⟨s, hreach, hcmds, hpending, hpos, -, -, hfull⟩ := run_threeLines
  obtain ⟨v, hv⟩ := hreach.represents
  have hlines : v.log.lines = [[97, 98, 10], [99, 10], [100, 101, 102, 103, 10]] := by
    simpa [hv.driver.commands] using hcmds
  have hend : s.driver.EndByReading 10 := by
    have := hv.driver.endByReading
    rwa [LineLog.contents, hlines] at this
  refine ⟨s, hreach, hcmds, hpending, hpos, hend, ?_, ?_⟩
  · have hoff : -2 ^ 63 ≤ (-3 : ℤ) ∧ (-3 : ℤ) < 2 ^ 63 := by constructor <;> decide
    exact (seekEnd_iff hreach hend hoff 1).2 (Or.inr ⟨hfull, by decide⟩)
  · have hoff : -2 ^ 63 ≤ (-11 : ℤ) ∧ (-11 : ℤ) < 2 ^ 63 := by constructor <;> decide
    exact (seekEnd_iff hreach hend hoff 1).2 (Or.inl (by decide))

/-- Ten lines of two bytes are stored, and seeking to the end goes to position 0. -/
theorem seekEnd_full_ring : ¬ ∀ (s : System) (T : ℕ) (offset : ℤ) (handle : Handle),
    s.Reachable .x86 → s.driver.EndByReading T → -2 ^ 63 ≤ offset ∧ offset < 2 ^ 63 →
      s.driver.SeeksFromEnd (s.fPos handle) offset T := by
  intro h
  set acts := List.replicate 10 (0, Call.write [97, 10] ⟨false, true, 0⟩)
  obtain ⟨s, hs⟩ := Option.isSome_iff_exists.1
    (show (System.run .x86 acts).isSome by decide +kernel)
  have hfull : (System.run .x86 acts).map (·.driver.dev.aesdBuffer.full) = some true := by
    decide +kernel
  rw [hs] at hfull
  have hreach := System.Reachable.of_run hs
  obtain ⟨v, hv⟩ := hreach.represents
  have hoff : -2 ^ 63 ≤ (0 : ℤ) ∧ (0 : ℤ) < 2 ^ 63 := ⟨by omega, by omega⟩
  have hseek := h s _ 0 0 hreach hv.driver.endByReading hoff
  rcases (hv.driver.seeksFromEnd_iff hoff _).1 hseek with hneg | ⟨hnot, -⟩
  · omega
  · simp [hnot] at hfull

end AesdChar
