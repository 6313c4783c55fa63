import AesdChar.Driver.Publishing
import AesdChar.Driver.Reading

/-!
# A reader beside writers

One handle reads on and on while other handles write. Until the ring drops a command, commands only
go behind the contents, so what the reader has received is the front of the contents up to its
position, at that moment and at every later one (`reader_consistent`). Bytes that are pending are
never received, so a write that fails or goes on later takes nothing back.
-/

namespace AesdChar
open BlockHeap Lines

variable {k : KernelLimits} {reader : Handle} {d : Driver} {v : View} {s s' : System}
  {acts acts' : List (Handle × Call)} {outs outs' : List Reply} {buf : List UInt8}

/-- The reader only reads; the other handles make any calls. -/
def OnlyReads (k : KernelLimits) (reader : Handle) (_ : System) (a : Handle × Call) : Prop :=
  a.2.Valid k ∧ (a.1 = reader → ∃ count env, a.2 = .read count env)

instance : (c : Call) → Decidable (∃ count env, c = .read count env)
  | .read count env => .isTrue ⟨count, env, rfl⟩
  | .open | .release | .write .. | .llseek .. | .ioctl .. => .isFalse fun ⟨_, _, h⟩ => by cases h

instance (s : System) (a : Handle × Call) : Decidable (OnlyReads k reader s a) :=
  inferInstanceAs (Decidable (_ ∧ (_ → _)))

/-- The bytes that the reader was given, by the reads that did not fail. -/
def receivedBy (reader : Handle) (acts : List (Handle × Call)) (outs : List Reply) : List UInt8 :=
  (acts.zip outs).flatMap fun x => if x.1.1 = reader ∧ 0 ≤ x.2.ret then x.2.data else []

/-- The call puts a command into the ring: the head of the ring moves. -/
def System.Commits (k : KernelLimits) (s : System) (a : Handle × Call) : Prop :=
  ∃ r ∈ s.step k a, r.1.driver.dev.aesdBuffer.inOffs ≠ s.driver.dev.aesdBuffer.inOffs

instance (s : System) (a : Handle × Call) : Decidable (s.Commits k a) :=
  inferInstanceAs (Decidable (∃ r ∈ _, _))

/-- The calls that put a command into the ring. -/
def commits (k : KernelLimits) (acts : List (Handle × Call)) : List (Handle × Call) :=
  (deviceMachine k).collect (fun s a => if s.Commits k a then [a] else []) .init acts

/-! ### The head of the ring -/

/-- The slot that the next command goes to. -/
def View.head (v : View) : ℕ := (v.outOffs + v.log.lines.length) % maxWriteOperations

theorem Represents.inOffs_eq (hr : Represents k d v) : d.dev.aesdBuffer.inOffs = v.head := by
  rw [hr.holds.ring.inOffs_eq, hr.holds.count_eq, hr.outOffs]
  rfl

/-- The head moves exactly when the pending bytes become a command. -/
theorem View.head_append_iff :
    (v.append buf).head ≠ v.head ↔ IsLine isNewline (v.log.pending ++ buf) := by
  have hle := v.log.length_le
  unfold View.head View.append
  by_cases hline : IsLine isNewline (v.log.pending ++ buf)
  · simp only [hline, true_and, (LineLog.append_of_isLine hline).1, List.length_rtake,
      List.length_append, List.length_singleton, ne_eq, iff_true]
    simp only [maxWriteOperations] at *
    split_ifs
    · omega
    · omega
  · simp only [hline, false_and, if_false, (LineLog.append_of_not_isLine hline).1, ne_eq,
      not_true_eq_false]

/-! ### One step -/

/-- The ring has not dropped anything yet, and the reader has the front of the contents up to its
position. -/
structure Follows (reader : Handle) (committed : ℕ) (got : List UInt8) (s : System) (v : View) :
    Prop where
  committed : v.log.lines.length = committed
  position : (got.length : ℤ) = s.fPos reader
  front : got <+: v.log.contents

theorem Follows.stay {n : ℕ} {got : List UInt8} {v' : View} (hf : Follows reader n got s v)
    (hlines : v'.log.lines = v.log.lines) (hpos : s'.fPos reader = s.fPos reader) :
    Follows reader n got s' v' := by
  refine ⟨hlines ▸ hf.committed, hpos ▸ hf.position, ?_⟩
  rw [LineLog.contents, hlines]
  exact hf.front

theorem Follows.read {n : ℕ} {got : List UInt8} (hf : Follows reader n got s v) (count : ℕ)
    (env : ReadEnv) (hpos : s'.fPos reader = (v.read (s.fPos reader) count env).fPos) :
    Follows reader n (got ++ if 0 ≤ (v.read (s.fPos reader) count env).ret
      then (v.read (s.fPos reader) count env).data else []) s' v := by
  rw [← hf.position] at hpos ⊢
  unfold View.read at hpos ⊢
  by_cases hint : env.interrupted = true
  · simp only [hint, if_true] at hpos ⊢
    rw [if_neg (by decide), List.append_nil]
    exact ⟨hf.committed, hpos.symm, hf.front⟩
  rw [Bool.not_eq_true] at hint
  simp only [hint, Bool.false_eq_true, if_false, Int.toNat_natCast] at hpos ⊢
  have hfront := v.front_prefix got.length count
  unfold View.front at hfront
  generalize (Pieces.restAt v.log.lines got.length).take count = xs at hpos hfront ⊢
  by_cases hleft : min env.uncopied xs.length = 0
  · simp only [hleft, ne_eq, not_true_eq_false, if_false] at hpos ⊢
    rw [if_pos (Int.natCast_nonneg _)]
    refine ⟨hf.committed, by rw [List.length_append, hpos]; push_cast; rfl, ?_⟩
    have hsplit : v.log.contents = got ++ v.log.contents.drop got.length := by
      conv_lhs => rw [← List.take_append_drop got.length v.log.contents,
        ← List.prefix_iff_eq_take.1 hf.front]
    rw [hsplit]
    exact (List.prefix_append_right_inj got).2 hfront
  · simp only [hleft, ne_eq, not_false_eq_true, if_true] at hpos ⊢
    rw [if_neg (by decide), List.append_nil]
    exact ⟨hf.committed, hpos.symm, hf.front⟩

theorem Follows.append {n : ℕ} {got : List UInt8} (hf : Follows reader n got s v)
    (hline : IsLine isNewline (v.log.pending ++ buf)) (hroom : n < maxWriteOperations)
    (hpos : s'.fPos reader = s.fPos reader) :
    Follows reader (n + 1) got s' (v.append buf) := by
  have hlen := hf.committed
  have hlines : (v.append buf).log.lines = v.log.lines ++ [v.log.pending ++ buf] := by
    show (v.log.append buf).lines = _
    rw [(LineLog.append_of_isLine hline).1, List.rtake_of_length_le]
    rw [List.length_append, List.length_singleton]
    omega
  refine ⟨?_, hpos ▸ hf.position, ?_⟩
  · rw [hlines, List.length_append, List.length_singleton, hlen]
  · rw [LineLog.contents, hlines, List.flatten_append]
    exact hf.front.trans (List.prefix_append _ _)

theorem receivedBy_concat (hlen : acts.length = outs.length) (a : Handle × Call) (r : Reply) :
    receivedBy reader (acts ++ [a]) (outs ++ [r]) = receivedBy reader acts outs ++
      if a.1 = reader ∧ 0 ≤ r.ret then r.data else [] := by
  unfold receivedBy
  rw [List.zip_append hlen, List.flatMap_append]
  simp

theorem commits_concat {guard : System → Handle × Call → Prop}
    (hrun : (deviceMachine k).Run guard .init acts outs s) {a : Handle × Call} {r : Reply}
    (hstep : s.step k a = some (s', r)) : (commits k (acts ++ [a])).length =
      (commits k acts).length +
        if s'.driver.dev.aesdBuffer.inOffs ≠ s.driver.dev.aesdBuffer.inOffs then 1 else 0 := by
  unfold commits
  rw [hrun.collect_concat _ hstep, List.length_append]
  have hcommits : s.Commits k a ↔
      s'.driver.dev.aesdBuffer.inOffs ≠ s.driver.dev.aesdBuffer.inOffs := by
    unfold System.Commits
    rw [hstep]
    simp
  by_cases h : s.Commits k a
  · rw [if_pos h, if_pos (hcommits.1 h)]
    rfl
  · rw [if_neg h, if_neg (hcommits.not.1 h)]
    rfl

/-! ### Runs -/

theorem run_follows (hrun : (deviceMachine k).Run (OnlyReads k reader) .init acts outs s) :
    ∃ v, s.Represents k v ∧ ((commits k acts).length ≤ maxWriteOperations →
      Follows reader (commits k acts).length (receivedBy reader acts outs) s v) := by
  induction hrun with
  | nil =>
    refine ⟨.init, System.represents_init, fun _ => ⟨rfl, rfl, ?_⟩⟩
    exact List.nil_prefix
  | @snoc acts outs s a s' r hrun hguard hstep ih =>
    obtain ⟨v, hv, hfollows⟩ := ih
    obtain ⟨handle, c⟩ := a
    obtain ⟨hvalid, hreads⟩ := hguard
    obtain ⟨t, ht, hrep, hpos⟩ := step_refines hv handle hvalid
    obtain ⟨rfl, rfl⟩ := Prod.mk.inj (Option.some.inj (ht.symm.trans hstep))
    refine ⟨_, hrep, fun hcommits => ?_⟩
    have hheads := commits_concat hrun hstep
    rw [hrep.driver.inOffs_eq, hv.driver.inOffs_eq] at hheads
    have hf := hfollows (by omega)
    rw [receivedBy_concat hrun.length_eq]
    by_cases hhandle : handle = reader
    · -- a read leaves the device as it is
      subst hhandle
      obtain ⟨count, env, rfl⟩ := hreads rfl
      rw [if_neg (by simp [View.call]), Nat.add_zero] at hheads
      rw [hheads]
      simp only [true_and]
      apply hf.read
      rw [hpos, Function.update_self]
      rfl
    · have hstay : t.fPos reader = s.fPos reader := by
        rw [hpos, Function.update_of_ne (Ne.symm hhandle)]
      simp only [hhandle, false_and, if_false, List.append_nil]
      have hsame : (v.call k (s.fPos handle) c).2 = v →
          Follows reader (commits k (acts ++ [(handle, c)])).length (receivedBy reader acts outs) t
            (v.call k (s.fPos handle) c).2 := by
        intro heq
        rw [heq, if_neg (not_not.2 rfl), Nat.add_zero] at hheads
        rw [hheads, heq]
        exact hf.stay rfl hstay
      cases c with
      | write buf env =>
        rw [View.call] at hheads hsame ⊢
        by_cases hok : s.driver.WriteSucceeds k buf env
        · rw [View.write_of_succeeds hv.driver hvalid hok] at hheads hsame ⊢
          by_cases hline : IsLine isNewline (v.log.pending ++ buf)
          · rw [if_pos (View.head_append_iff.2 hline)] at hheads
            rw [hheads]
            exact hf.append hline (by omega) hstay
          · rw [if_neg (View.head_append_iff.not.2 hline), Nat.add_zero] at hheads
            rw [hheads]
            exact hf.stay (LineLog.append_of_not_isLine hline).1 hstay
        · exact hsame (View.write_of_fails hv.driver hvalid hok)
      | _ => exact hsame rfl

/-- **A reader is consistent until the first eviction**: in every run with at most ten commits, at
every moment what the reader has received is as long as its position says, and it is a front of the
contents at that moment and at every later one. -/
theorem reader_consistent (hrun : (deviceMachine k).Run (OnlyReads k reader) .init acts outs s)
    (hlater : (deviceMachine k).Run (OnlyReads k reader) s acts' outs' s')
    (hcommits : (commits k (acts ++ acts')).length ≤ maxWriteOperations) :
    ∃ cmds cmds', s.driver.commands = some cmds ∧ s'.driver.commands = some cmds' ∧
      ((receivedBy reader acts outs).length : ℤ) = s.fPos reader ∧
      receivedBy reader acts outs <+: cmds.flatten ∧
      receivedBy reader acts outs <+: cmds'.flatten := by
  obtain ⟨v, hv, hfollows⟩ := run_follows hrun
  obtain ⟨v', hv', hfollows'⟩ := run_follows (hrun.append hlater)
  have hfewer : (commits k acts).length ≤ (commits k (acts ++ acts')).length := by
    unfold commits
    rw [hrun.collect_append, List.length_append]
    omega
  have hnow := hfollows (hfewer.trans hcommits)
  have hthen := hfollows' hcommits
  have hmore : receivedBy reader acts outs <+: receivedBy reader (acts ++ acts') (outs ++ outs') := by
    unfold receivedBy
    rw [List.zip_append hrun.length_eq, List.flatMap_append]
    exact List.prefix_append _ _
  exact ⟨v.log.lines, v'.log.lines, hv.driver.commands, hv'.driver.commands, hnow.position,
    hnow.front, hmore.trans hthen.front⟩

/-- A line and the start of the next are written while handle 1 reads in pieces. -/
def readInPieces : List (Handle × Call) :=
  [(0, .write [97, 98, 10] ⟨false, true, 0⟩), (1, .read 1 ⟨false, 0⟩),
    (0, .write [99] ⟨false, true, 0⟩), (1, .read 1 ⟨false, 0⟩)]

/-- The second line fails to go on and then ends, while handle 1 reads on. -/
def readOn : List (Handle × Call) :=
  [(0, .write [100] ⟨false, true, 1⟩), (1, .read 1 ⟨false, 0⟩), (0, .write [101, 10] ⟨false, true, 0⟩)]

theorem reader_consistent_pieces : ∃ s s' outs outs' cmds cmds',
    (deviceMachine .x86).Run (OnlyReads .x86 1) .init readInPieces outs s ∧
    (deviceMachine .x86).Run (OnlyReads .x86 1) s readOn outs' s' ∧
    receivedBy 1 readInPieces outs = [97, 98] ∧ s.fPos 1 = 2 ∧
    s.driver.commands = some cmds ∧ s'.driver.commands = some cmds' ∧
      [97, 98] <+: cmds.flatten ∧ [97, 98] <+: cmds'.flatten := by
  obtain ⟨⟨s, outs⟩, hexec, hgot⟩ := Option.map_eq_some_iff.1
    (show ((deviceMachine .x86).execGuarded (OnlyReads .x86 1) .init readInPieces).map
      (fun r => receivedBy 1 readInPieces r.2) = some [97, 98] by decide +kernel)
  have hrun := Machine.Run.of_execGuarded hexec
  have hgoes : (((deviceMachine .x86).execGuarded (OnlyReads .x86 1) .init readInPieces).bind fun r =>
      (deviceMachine .x86).execGuarded (OnlyReads .x86 1) r.1 readOn).isSome := by decide +kernel
  rw [hexec, Option.bind_some] at hgoes
  obtain ⟨⟨s', outs'⟩, hexec'⟩ := Option.isSome_iff_exists.1 hgoes
  have hlater := Machine.Run.of_execGuarded hexec'
  obtain ⟨cmds, cmds', hcmds, hcmds', hpos, hfront, hfront'⟩ :=
    reader_consistent hrun hlater (by decide +kernel)
  simp only at hgot
  rw [hgot] at hpos hfront hfront'
  exact ⟨s, s', outs, outs', cmds, cmds', hrun, hlater, hgot, hpos.symm, hcmds, hcmds', hfront, hfront'⟩

end AesdChar
