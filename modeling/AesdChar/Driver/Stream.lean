import AesdChar.Driver.Following
import Mathlib.Data.List.Infix

/-!
# The stream behind the ring

What the writes of a run added is one stream of bytes. Each time the stream's unfinished end becomes a
line, that line is published; the ring is a window on the published lines, the last ten of them. Nothing
else happens to the bytes, whatever the writes carry and however they fail: the published lines and the
pending bytes together are the stream (`stream_accounts`).

A reader sees the window only, from the bytes on that were not evicted yet. Each of its reads is a piece of
the stream at the place where its position is now, and a reader that only reads gets pieces in their
order: it can miss what was evicted before it came there, but gets no byte twice and none out of order
(`reads_follow_stream`).
-/

namespace AesdChar
open BlockHeap Lines

variable {k : KernelLimits} {reader : Handle} {v : View} {s s' : System}
  {acts : List (Handle × Call)} {outs : List Reply} {buf : List UInt8}

/-! ### What an observer notes -/

/-- The command that a call puts into the ring: the last one there, when the head of the ring moved. -/
def publishedBy (k : KernelLimits) (s : System) (a : Handle × Call) : List (List UInt8) :=
  match s.step k a with
  | some (s', _) =>
    if s'.driver.dev.aesdBuffer.inOffs ≠ s.driver.dev.aesdBuffer.inOffs then
      (s'.driver.commands.bind List.getLast?).toList
    else []
  | none => []

/-- The bytes that a call adds: those of a write that meets no failure. -/
def addedBy (k : KernelLimits) (s : System) (a : Handle × Call) : List UInt8 :=
  match a.2 with
  | .write buf env => if s.driver.WriteSucceeds k buf env then buf else []
  | _ => []

/-- The commands that were put into the ring, in that order. -/
def published (k : KernelLimits) (acts : List (Handle × Call)) : List (List UInt8) :=
  (deviceMachine k).collect (publishedBy k) .init acts

/-- The bytes that were added, in that order. -/
def added (k : KernelLimits) (acts : List (Handle × Call)) : List UInt8 :=
  (deviceMachine k).collect (addedBy k) .init acts

/-- The published bytes that the ring has dropped. -/
def evicted (k : KernelLimits) (acts : List (Handle × Call)) : ℕ :=
  ((published k acts).take ((published k acts).length - maxWriteOperations)).flatten.length

/-! ### One step -/

/-- The window on the lines, and the stream they were cut from. -/
structure Accounts (lines : List (List UInt8)) (stream : List UInt8) (v : View) : Prop where
  window : v.log.lines = lines.rtake maxWriteOperations
  stream : lines.flatten ++ v.log.pending = stream
  isLine : ∀ l ∈ lines, IsLine isNewline l

theorem addedBy_write (handle : Handle) (env : WriteEnv) : addedBy k s (handle, .write buf env) =
    if s.driver.WriteSucceeds k buf env then buf else [] := rfl

theorem publishedBy_eq {a : Handle × Call} {r : Reply} {v' : View} (hv : s.Represents k v)
    (hstep : s.step k a = some (s', r)) (hv' : s'.Represents k v') :
    publishedBy k s a = if v'.head ≠ v.head then v'.log.lines.getLast?.toList else [] := by
  rw [publishedBy, hstep]
  simp only [hv'.driver.inOffs_eq, hv.driver.inOffs_eq, hv'.driver.commands, Option.bind_some]

theorem Accounts.append {lines : List (List UInt8)} {stream : List UInt8} (ha : Accounts lines stream v) :
    Accounts (lines ++ if (v.append buf).head ≠ v.head then (v.append buf).log.lines.getLast?.toList else [])
      (stream ++ buf) (v.append buf) := by
  by_cases hline : IsLine isNewline (v.log.pending ++ buf)
  · obtain ⟨hlines, hpending⟩ := LineLog.append_of_isLine hline
    have hwindow : (v.append buf).log.lines = (lines ++ [v.log.pending ++ buf]).rtake
        maxWriteOperations := by
      rw [View.append, hlines, ha.window, List.rtake_append_rtake]
    have hlast : (v.append buf).log.lines.getLast? = some (v.log.pending ++ buf) := by
      rw [hwindow, List.rtake_concat_succ]
      exact List.getLast?_concat
    rw [if_pos (View.head_append_iff.2 hline), hlast]
    refine ⟨hwindow, ?_, ?_⟩
    · show (lines ++ [v.log.pending ++ buf]).flatten ++ (v.log.append buf).pending = _
      rw [hpending, ← ha.stream]
      simp
    · intro l hl
      rcases List.mem_append.1 hl with hl | hl
      · exact ha.isLine l hl
      · obtain rfl : l = v.log.pending ++ buf := by simpa using hl
        exact hline
  · obtain ⟨hlines, hpending⟩ := LineLog.append_of_not_isLine hline
    rw [if_neg (View.head_append_iff.not.2 hline), List.append_nil]
    refine ⟨hlines.trans ha.window, ?_, ha.isLine⟩
    show lines.flatten ++ (v.log.append buf).pending = _
    rw [hpending, ← List.append_assoc, ha.stream]

theorem step_accounts {lines : List (List UInt8)} {stream : List UInt8} (hv : s.Represents k v)
    (ha : Accounts lines stream v) (handle : Handle) {c : Call} (hc : c.Valid k) :
    Accounts (lines ++ publishedBy k s (handle, c)) (stream ++ addedBy k s (handle, c))
      (v.call k (s.fPos handle) c).2 := by
  obtain ⟨t, ht, hrep, -⟩ := step_refines hv handle hc
  rw [publishedBy_eq hv ht hrep]
  cases c with
  | write buf env =>
    rw [View.call, addedBy_write]
    by_cases hok : s.driver.WriteSucceeds k buf env
    · rw [View.write_of_succeeds hv.driver hc hok, if_pos hok]
      exact ha.append
    · rw [View.write_of_fails hv.driver hc hok, if_neg hok]
      simpa using ha
  | _ => simpa [View.call, addedBy] using ha

/-! ### Runs -/

theorem run_accounts (hrun : (deviceMachine k).Run (fun _ a => a.2.Valid k) .init acts outs s) :
    ∃ v, s.Represents k v ∧ Accounts (published k acts) (added k acts) v := by
  induction hrun with
  | nil =>
    refine ⟨.init, System.represents_init, rfl, rfl, ?_⟩
    rintro l ⟨⟩
  | @snoc acts outs s a s' r hrun hvalid hstep ih =>
    obtain ⟨v, hv, ha⟩ := ih
    obtain ⟨handle, c⟩ := a
    obtain ⟨t, ht, hrep, -⟩ := step_refines hv handle hvalid
    obtain ⟨rfl, rfl⟩ := Prod.mk.inj (Option.some.inj (ht.symm.trans hstep))
    refine ⟨_, hrep, ?_⟩
    unfold published added
    rw [hrun.collect_concat _ hstep, hrun.collect_concat _ hstep]
    exact step_accounts hv ha handle hvalid

/-- **The device keeps a stream**: after any calls on any handles, with any data and any failures, the
lines that were published and the bytes that are pending make up exactly the bytes that the writes added,
in their order; every published line ends with its first newline; and the ring holds the last ten. -/
theorem stream_accounts (hrun : (deviceMachine k).Run (fun _ a => a.2.Valid k) .init acts outs s) :
    ∃ pend, s.driver.pending = some pend ∧ (published k acts).flatten ++ pend = added k acts ∧
      (∀ l ∈ published k acts, IsLine isNewline l) ∧
      s.driver.commands = some ((published k acts).rtake maxWriteOperations) := by
  obtain ⟨v, hv, ha⟩ := run_accounts hrun
  exact ⟨v.log.pending, hv.driver.pending, ha.stream, ha.isLine, ha.window ▸ hv.driver.commands⟩

theorem stream_accounts_stuck : ∃ s : System, ∃ pend, s.driver.pending = some pend ∧
    [97, 10] ++ pend = [97, 10, 98, 10, 99, 100] ∧ s.driver.commands = some [[97, 10]] := by
  set acts : List (Handle × Call) := [(0, .write [97, 10] ⟨false, true, 0⟩),
    (1, .write [98, 10, 99] ⟨false, true, 0⟩), (0, .write [101] ⟨false, true, 1⟩),
    (0, .write [100] ⟨false, true, 0⟩)]
  obtain ⟨⟨s, outs⟩, hexec⟩ := Option.isSome_iff_exists.1
    (show ((deviceMachine .x86).execGuarded (fun _ a => a.2.Valid .x86) .init acts).isSome by
      decide +kernel)
  obtain ⟨pend, hpend, hstream, -, hcommands⟩ := stream_accounts (.of_execGuarded hexec)
  have hpublished : published .x86 acts = [[97, 10]] := by decide +kernel
  have hadded : added .x86 acts = [97, 10, 98, 10, 99, 100] := by decide +kernel
  rw [hpublished, hadded] at hstream
  rw [hpublished] at hcommands
  exact ⟨s, pend, hpend, hstream, hcommands⟩

/-! ### Readers -/

theorem contents_eq {stream : List UInt8} (ha : Accounts (published k acts) stream v) :
    v.log.contents = (published k acts).flatten.drop (evicted k acts) := by
  rw [LineLog.contents, ha.window, List.rtake, evicted]
  conv_rhs => rw [← List.take_append_drop ((published k acts).length - maxWriteOperations)
    (published k acts), List.flatten_append]
  rw [List.take_append_drop, List.drop_left]

/-- A read that did not fail gives bytes from the place in the stream where the position is, and moves
the position behind them; one that failed leaves it. -/
theorem step_read {stream : List UInt8} (hv : s.Represents k v)
    (ha : Accounts (published k acts) stream v) {handle : Handle} {count : ℕ} {env : ReadEnv} {r : Reply}
    (hstep : s.step k (handle, .read count env) = some (s', r)) :
    (0 ≤ r.ret → r.data <+: (published k acts).flatten.drop (evicted k acts + (s.fPos handle).toNat) ∧
      s'.fPos handle = s.fPos handle + r.data.length) ∧
      (¬ 0 ≤ r.ret → s'.fPos handle = s.fPos handle) := by
  obtain ⟨t, ht, -, hpos⟩ := step_refines (c := .read count env) hv handle trivial
  obtain ⟨rfl, rfl⟩ := Prod.mk.inj (Option.some.inj (ht.symm.trans hstep))
  rw [hpos, Function.update_self, ← List.drop_drop, ← contents_eq ha]
  have hfront := v.front_prefix (s.fPos handle).toNat count
  unfold View.front at hfront
  simp only [View.call, View.read]
  split_ifs with hint hleft
  · exact ⟨fun h => absurd h (by simp [ERESTARTSYS]), fun _ => rfl⟩
  · exact ⟨fun h => absurd h (by simp [EFAULT]), fun _ => rfl⟩
  · exact ⟨fun _ => ⟨hfront, rfl⟩, fun h => absurd (Int.natCast_nonneg _) h⟩

theorem sublist_take_append {got xs stream : List UInt8} {n : ℕ} (hgot : got.Sublist (stream.take n))
    (hxs : xs <+: stream.drop n) : (got ++ xs).Sublist (stream.take (n + xs.length)) := by
  rw [List.take_add, ← List.prefix_iff_eq_take.1 hxs]
  exact hgot.append (List.Sublist.refl xs)

theorem sublist_take_mono {got stream stream' : List UInt8} {n n' : ℕ} (hgot : got.Sublist (stream.take n))
    (hstream : stream <+: stream') (hn : n ≤ n') : got.Sublist (stream'.take n') :=
  hgot.trans ((hstream.take n).trans (List.take_prefix_take_left hn)).sublist

theorem published_mono {guard : System → Handle × Call → Prop}
    (hrun : (deviceMachine k).Run guard .init acts outs s) {a : Handle × Call} {r : Reply}
    (hstep : s.step k a = some (s', r)) :
    (published k acts).flatten <+: (published k (acts ++ [a])).flatten ∧
      evicted k acts ≤ evicted k (acts ++ [a]) := by
  have hmore : published k acts <+: published k (acts ++ [a]) := by
    unfold published
    rw [hrun.collect_concat _ hstep]
    exact List.prefix_append _ _
  refine ⟨hmore.flatten, (List.IsPrefix.flatten ?_).length_le⟩
  have hlen := hmore.length_le
  refine List.prefix_take_iff.2 ⟨(List.take_prefix _ _).trans hmore, ?_⟩
  rw [List.length_take]
  omega

/-- **Readers follow the stream**: at every moment of a run, a read of any handle that does not fail gives
bytes of the published stream from the place on where the position is now, and the handle that only reads
has got parts of that stream in their order: none twice, and none out of order, whatever was evicted. -/
theorem reads_follow_stream (hrun : (deviceMachine k).Run (OnlyReads k reader) .init acts outs s) :
    (∀ handle count env s' r, s.step k (handle, .read count env) = some (s', r) → 0 ≤ r.ret →
      r.data <+: (published k acts).flatten.drop (evicted k acts + (s.fPos handle).toNat)) ∧
      (receivedBy reader acts outs).Sublist
        ((published k acts).flatten.take (evicted k acts + (s.fPos reader).toNat)) := by
  obtain ⟨v, hv, ha⟩ := run_accounts (hrun.mono fun _ _ h => h.1)
  refine ⟨fun handle count env s' r hstep hret => ((step_read hv ha hstep).1 hret).1, ?_⟩
  clear v hv ha
  induction hrun with
  | nil => exact List.nil_sublist _
  | @snoc acts outs s a s' r hrun hguard hstep ih =>
    obtain ⟨handle, c⟩ := a
    obtain ⟨hvalid, hreads⟩ := hguard
    obtain ⟨hstream, hevicted⟩ := published_mono hrun hstep
    obtain ⟨v, hv, ha⟩ := run_accounts (hrun.mono fun _ _ h => h.1)
    rw [receivedBy_concat hrun.length_eq]
    by_cases hhandle : handle = reader
    · subst hhandle
      obtain ⟨count, env, rfl⟩ := hreads rfl
      obtain ⟨hok, hfail⟩ := step_read hv ha hstep
      by_cases hret : 0 ≤ r.ret
      · obtain ⟨hdata, hpos⟩ := hok hret
        have hfPos := hv.fPos handle
        rw [if_pos ⟨rfl, hret⟩]
        exact sublist_take_mono (sublist_take_append ih hdata) hstream (by omega)
      · rw [if_neg (fun h => hret h.2), List.append_nil, hfail hret]
        exact sublist_take_mono ih hstream (by omega)
    · obtain ⟨t, ht, -, hpos⟩ := step_refines hv handle hvalid
      obtain ⟨rfl, rfl⟩ := Prod.mk.inj (Option.some.inj (ht.symm.trans hstep))
      rw [if_neg (fun h => hhandle h.1), List.append_nil, hpos,
        Function.update_of_ne (Ne.symm hhandle)]
      exact sublist_take_mono ih hstream (by omega)

/-- Handle 1 reads the start of a line, eleven more lines come in, and it reads on. -/
def slowReader : List (Handle × Call) :=
  (0, .write [97, 10] ⟨false, true, 0⟩) :: (1, .read 1 ⟨false, 0⟩) ::
    List.replicate 11 (0, .write [98, 10] ⟨false, true, 0⟩) ++ [(1, .read 5 ⟨false, 0⟩)]

theorem reads_follow_stream_eviction : ∃ s outs,
    (deviceMachine .x86).Run (OnlyReads .x86 1) .init slowReader outs s ∧
      receivedBy 1 slowReader outs = [97, 10] ∧ (receivedBy 1 slowReader outs).Sublist
        ((published .x86 slowReader).flatten.take (evicted .x86 slowReader + (s.fPos 1).toNat)) := by
  obtain ⟨⟨s, outs⟩, hexec⟩ := Option.isSome_iff_exists.1
    (show ((deviceMachine .x86).execGuarded (OnlyReads .x86 1) .init slowReader).isSome by
      decide +kernel)
  have hrun := Machine.Run.of_execGuarded hexec
  have hgot : ((deviceMachine .x86).execGuarded (OnlyReads .x86 1) .init slowReader).map
      (fun r => receivedBy 1 slowReader r.2) = some [97, 10] := by decide +kernel
  rw [hexec, Option.map_some, Option.some.injEq] at hgot
  exact ⟨s, outs, hrun, hgot, (reads_follow_stream hrun).2⟩

end AesdChar
