import AesdChar.Driver.View

/-!
# Which writes become commands

Written bytes become a command when the first newline of the accumulated bytes is the last of them.
So a run of writes whose newlines only end their data stores the last ten lines of the whole stream
and keeps its unterminated tail pending (`commands_eq_cut`), however the lines are split over the
writes. A write that ends with a newline is published exactly when there is no earlier newline in
the accumulated bytes (`published_iff`): one newline inside the data of a write blocks the pending
entry for ever.
-/

namespace AesdChar
open BlockHeap Lines

variable {k : KernelLimits} {d d' : Driver} {v : View} {s : System} {buf : List UInt8}
  {env : WriteEnv}

theorem aesdWrite_append (hr : Represents k d v) (hlen : buf.length ≤ k.maxRwCount)
    (hok : d.WriteSucceeds k buf env) :
    ∃ d', aesdWrite k d buf env = some (-ENOMEM, d') ∧ Represents k d' (v.append buf) := by
  have h := aesdWrite_represents hr hlen env
  rwa [View.write_of_succeeds hr hlen hok] at h

theorem View.write_log (v : View) (k : KernelLimits) (buf : List UInt8) (env : WriteEnv) :
    (v.write k buf env).2.log = v.log ∨ (v.write k buf env).2.log = v.log.append buf := by
  rw [View.write]
  split_ifs
  · exact Or.inl rfl
  · exact Or.inl rfl
  · exact Or.inr rfl

/-! ### The stream of all written bytes -/

/-- The data of the writes among the calls, in call order. -/
def writtenData (acts : List (Handle × Call)) : List (List UInt8) :=
  acts.filterMap fun a => match a.2 with
    | .write buf _ => some buf
    | _ => none

/-- A write that meets no failure and whose data has a newline at most at its end. -/
def CleanWrite (k : KernelLimits) (s : System) (a : Handle × Call) : Prop :=
  match a.2 with
  | .write buf env =>
    buf.length ≤ k.maxRwCount ∧ s.driver.WriteSucceeds k buf env ∧ EndsOnly isNewline buf
  | _ => False

instance (s : System) : (a : Handle × Call) → Decidable (CleanWrite k s a)
  | (_, .write ..) => inferInstanceAs (Decidable (_ ∧ _ ∧ _))
  | (_, .open) | (_, .release) | (_, .read ..) | (_, .llseek ..) | (_, .ioctl ..) =>
    inferInstanceAs (Decidable False)

/-- **The device stores the last ten lines of the stream**: after any run of writes without a
failure, on any handles, whose newlines only end their data, the ring holds the last ten lines of
all written bytes, oldest first, and the pending entry the unterminated tail. -/
theorem commands_eq_cut {acts : List (Handle × Call)} {outs : List Reply}
    (hrun : (deviceMachine k).Run (CleanWrite k) .init acts outs s) :
    s.driver.commands =
        some ((cut isNewline (writtenData acts).flatten).1.rtake maxWriteOperations) ∧
      s.driver.pending = some (cut isNewline (writtenData acts).flatten).2 := by
  have hlog : ∃ v, s.Represents k v ∧ v.log = LineLog.empty.appendAll (writtenData acts) ∧
      ∀ xs ∈ writtenData acts, EndsOnly isNewline xs := by
    refine hrun.invariant (I := fun acts _ s => ∃ v, s.Represents k v ∧
      v.log = LineLog.empty.appendAll (writtenData acts) ∧
        ∀ xs ∈ writtenData acts, EndsOnly isNewline xs)
      ⟨.init, System.represents_init, rfl, by simp [writtenData]⟩ ?_
    rintro acts outs s ⟨handle, c⟩ s' o ⟨v, hv, hlog, hends⟩ hclean hstep
    cases c with
    | write buf env =>
      obtain ⟨hlen, hok, hbuf⟩ := hclean
      obtain ⟨t, ht, hrep, -⟩ := step_refines (c := .write buf env) hv handle hlen
      obtain ⟨rfl, -⟩ : t = s' ∧ _ := by simpa [deviceMachine, ht] using hstep
      have hdata : writtenData (acts ++ [(handle, .write buf env)]) = writtenData acts ++ [buf] := by
        simp [writtenData]
      refine ⟨v.append buf, ?_, ?_, ?_⟩
      · simpa [View.call, View.write_of_succeeds hv.driver hlen hok] using hrep
      · rw [hdata, LineLog.appendAll_concat, ← hlog, View.append]
      · rw [hdata]
        simpa [or_imp, forall_and] using ⟨hends, hbuf⟩
    | _ => exact hclean.elim
  obtain ⟨v, hv, hlog, hends⟩ := hlog
  obtain ⟨hlines, hpending⟩ := LineLog.appendAll_eq_cut (N := maxWriteOperations) hends
  rw [hv.driver.commands, hv.driver.pending, hlog, hlines, hpending]
  exact ⟨rfl, rfl⟩

theorem commands_eq_cut_two_pieces : ∃ s outs,
    (deviceMachine .x86).Run (CleanWrite .x86) .init
      [(0, .write [97] ⟨false, true, 0⟩), (1, .write [98, 10] ⟨false, true, 0⟩),
        (0, .write [] ⟨false, true, 0⟩), (0, .write [99] ⟨false, true, 0⟩)] outs s ∧
      s.driver.commands = some [[97, 98, 10]] ∧ s.driver.pending = some [99] := by
  obtain ⟨⟨s, outs⟩, hexec⟩ := Option.isSome_iff_exists.1
    (show ((deviceMachine .x86).execGuarded (CleanWrite .x86) .init
      [(0, .write [97] ⟨false, true, 0⟩), (1, .write [98, 10] ⟨false, true, 0⟩),
        (0, .write [] ⟨false, true, 0⟩), (0, .write [99] ⟨false, true, 0⟩)]).isSome by
      decide +kernel)
  have hrun := Machine.Run.of_execGuarded hexec
  exact ⟨s, outs, hrun, commands_eq_cut hrun⟩

/-! ### The newline that ends a write -/

/-- A write call with any data and any outcome. -/
def AnyWrite (k : KernelLimits) (_ : System) (a : Handle × Call) : Prop :=
  match a.2 with
  | .write buf _ => buf.length ≤ k.maxRwCount
  | _ => False

instance (s : System) : (a : Handle × Call) → Decidable (AnyWrite k s a)
  | (_, .write ..) => inferInstanceAs (Decidable (_ ≤ _))
  | (_, .open) | (_, .release) | (_, .read ..) | (_, .llseek ..) | (_, .ioctl ..) =>
    inferInstanceAs (Decidable False)

/-- A write call whose newlines only end its data. -/
def LineWrite (k : KernelLimits) (s : System) (a : Handle × Call) : Prop :=
  AnyWrite k s a ∧ ∀ xs ∈ writtenData [a], EndsOnly isNewline xs

/-- Nothing is pending any more, and what a reader sees ends with the bytes that were pending before
the write, followed by those of the write. -/
def Driver.Published (d d' : Driver) (buf : List UInt8) : Prop :=
  d'.pending = some [] ∧ ∃ pend cmds, d.pending = some pend ∧ d'.commands = some cmds ∧
    pend ++ buf <:+ cmds.flatten

/-- The write, on this driver, is published. -/
def Driver.Publishes (k : KernelLimits) (d : Driver) (buf : List UInt8) (env : WriteEnv) : Prop :=
  ∃ ret d', aesdWrite k d buf env = some (ret, d') ∧ d.Published d' buf

/-- No newline comes before the end of the data, neither in it nor among the pending bytes. -/
def Driver.FirstNewlineEnds (d : Driver) (buf : List UInt8) : Prop :=
  (∀ pend, d.pending = some pend → newline ∉ pend) ∧ newline ∉ buf.dropLast

theorem isLine_iff_of_last {pend : List UInt8} (hlast : buf.getLast? = some newline) :
    IsLine isNewline (pend ++ buf) ↔ newline ∉ pend ∧ newline ∉ buf.dropLast := by
  obtain ⟨body, rfl⟩ := List.getLast?_eq_some_iff.1 hlast
  rw [← List.append_assoc, isLine_iff]
  constructor
  · rintro ⟨body', x, heq, -, hbody⟩
    obtain ⟨rfl, -⟩ := List.append_inj' heq rfl
    rw [List.dropLast_concat]
    refine ⟨fun hmem => ?_, fun hmem => ?_⟩
    · simpa [isNewline] using hbody newline (List.mem_append_left _ hmem)
    · simpa [isNewline] using hbody newline (List.mem_append_right _ hmem)
  · rintro ⟨hpend, hbody⟩
    rw [List.dropLast_concat] at hbody
    refine ⟨pend ++ body, newline, rfl, by simp [isNewline], fun x hx => ?_⟩
    rcases List.mem_append.1 hx with hx | hx
    · have : x ≠ newline := fun h => hpend (h ▸ hx)
      simpa [isNewline] using this
    · have : x ≠ newline := fun h => hbody (h ▸ hx)
      simpa [isNewline] using this

theorem publishes_iff_isLine (hr : Represents k d v) (hlen : buf.length ≤ k.maxRwCount)
    (hne : buf ≠ []) (hok : d.WriteSucceeds k buf env) :
    d.Publishes k buf env ↔ IsLine isNewline (v.log.pending ++ buf) := by
  obtain ⟨d₁, hwrite, hr'⟩ := aesdWrite_append hr hlen hok
  constructor
  · rintro ⟨ret, d', hwrite', hnil, -⟩
    obtain ⟨-, rfl⟩ : -ENOMEM = ret ∧ d₁ = d' := by simpa [hwrite] using hwrite'
    by_contra hline
    rw [hr'.pending, View.append, (LineLog.append_of_not_isLine hline).2] at hnil
    simp [hne] at hnil
  · intro hline
    obtain ⟨hlines, hpending⟩ := LineLog.append_of_isLine hline
    refine ⟨_, d₁, hwrite, ?_, v.log.pending, _, hr.pending, hr'.commands, ?_⟩
    · rw [hr'.pending, View.append, hpending]
    · rw [View.append, hlines, List.rtake_concat_succ, List.flatten_concat]
      exact List.suffix_append _ _

theorem AnyWrite.valid {a : Handle × Call} (h : AnyWrite k s a) : a.2.Valid k := by
  obtain ⟨handle, c⟩ := a
  cases c with
  | write buf env => exact h
  | _ => exact h.elim

theorem AnyWrite.represents (hs : (deviceMachine k).Reachable (AnyWrite k) .init s) :
    ∃ v, s.Represents k v := by
  obtain ⟨acts, outs, hrun⟩ := hs
  exact System.Reachable.represents ⟨acts, outs, hrun.mono fun _ _ h => h.valid⟩

theorem pending_free_of_lineWrites (hs : (deviceMachine k).Reachable (LineWrite k) .init s) :
    ∃ v, s.Represents k v ∧ ∀ x ∈ v.log.pending, isNewline x = false := by
  refine hs.invariant (I := fun s => ∃ v, s.Represents k v ∧ ∀ x ∈ v.log.pending, isNewline x = false)
    ⟨.init, System.represents_init, by simp [View.init, LineLog.empty]⟩ ?_
  rintro s ⟨handle, c⟩ s' o ⟨v, hv, hfree⟩ ⟨hany, hends⟩ hstep
  obtain ⟨t, ht, hrep, -⟩ := step_refines hv handle hany.valid
  obtain ⟨rfl, -⟩ : t = s' ∧ _ := by simpa [deviceMachine, ht] using hstep
  cases c with
  | write buf env =>
    refine ⟨_, hrep, ?_⟩
    rcases v.write_log k buf env with hsame | happend
    · rwa [View.call, hsame]
    · rw [View.call, happend]
      exact LineLog.append_pending_free hfree (hends buf (by simp [writtenData]))
  | _ => exact hany.elim

/-- **When a newline-terminated write is published**: in every state that writes reach, exactly when
no newline comes before the end of its data, counting the pending bytes. After writes whose newlines
only end their data, that is up to the write alone. -/
theorem published_iff :
    (∀ s, (deviceMachine k).Reachable (AnyWrite k) .init s → ∀ buf env,
      buf.length ≤ k.maxRwCount → buf.getLast? = some newline → s.driver.WriteSucceeds k buf env →
        (s.driver.Publishes k buf env ↔ s.driver.FirstNewlineEnds buf)) ∧
    ∀ s, (deviceMachine k).Reachable (LineWrite k) .init s → ∀ buf env,
      buf.length ≤ k.maxRwCount → buf.getLast? = some newline → s.driver.WriteSucceeds k buf env →
        (s.driver.Publishes k buf env ↔ newline ∉ buf.dropLast) := by
  constructor
  · intro s hs buf env hlen hlast hok
    obtain ⟨v, hv⟩ := AnyWrite.represents hs
    have hne : buf ≠ [] := by
      rintro rfl
      simp at hlast
    rw [publishes_iff_isLine hv.driver hlen hne hok, isLine_iff_of_last hlast,
      Driver.FirstNewlineEnds, hv.driver.pending]
    simp
  · intro s hs buf env hlen hlast hok
    obtain ⟨v, hv, hfree⟩ := pending_free_of_lineWrites hs
    have hne : buf ≠ [] := by
      rintro rfl
      simp at hlast
    have hpend : newline ∉ v.log.pending := fun hmem => by
      simpa [isNewline] using hfree newline hmem
    rw [publishes_iff_isLine hv.driver hlen hne hok, isLine_iff_of_last hlast]
    simp [hpend]

theorem published_iff_pending_byte : ∃ s, (deviceMachine .x86).Reachable (LineWrite .x86) .init s ∧
    s.driver.commands = some [[97, 10]] ∧ s.driver.pending = some [98] ∧
      s.driver.Publishes .x86 [99, 10] ⟨false, true, 0⟩ := by
  set acts : List (Handle × Call) :=
    [(0, .write [97, 10] ⟨false, true, 0⟩), (1, .write [98] ⟨false, true, 0⟩)]
  obtain ⟨⟨s, outs⟩, hexec, heval⟩ := Option.map_eq_some_iff.1
    (show ((deviceMachine .x86).execGuarded (AnyWrite .x86) .init acts).map (fun r =>
        (r.1.driver.commands, r.1.driver.pending,
          decide (r.1.driver.WriteSucceeds .x86 [99, 10] ⟨false, true, 0⟩))) =
      some (some [[97, 10]], some [98], true) by decide +kernel)
  simp only [Prod.mk.injEq, decide_eq_true_eq] at heval
  obtain ⟨hcmds, hpending, hok⟩ := heval
  have hlines : ∀ a ∈ acts, ∀ xs ∈ writtenData [a], EndsOnly isNewline xs := by decide
  have hs : (deviceMachine .x86).Reachable (LineWrite .x86) .init s :=
    ⟨acts, outs, (Machine.Run.of_execGuarded hexec).restrict hlines⟩
  exact ⟨s, hs, hcmds, hpending,
    (published_iff.2 s hs [99, 10] ⟨false, true, 0⟩ (by decide) (by decide) hok).2 (by decide)⟩

/-- Two lines in one write to a fresh device stay pending. -/
theorem two_lines_not_published :
    ¬ ∀ s, (deviceMachine .x86).Reachable (AnyWrite .x86) .init s → ∀ buf env,
      buf.length ≤ KernelLimits.x86.maxRwCount → buf.getLast? = some newline →
        s.driver.WriteSucceeds .x86 buf env → s.driver.Publishes .x86 buf env := by
  intro h
  have hline : IsLine isNewline (View.init.log.pending ++ [97, 10, 98, 10]) :=
    (publishes_iff_isLine represents_init (by decide) (by decide) (by decide)).1
      (h .init .refl [97, 10, 98, 10] ⟨false, true, 0⟩ (by decide) (by decide) (by decide))
  exact absurd hline (by decide)

end AesdChar
