import AesdChar.Driver.View

/-!
# Reading the device

A read returns a front of what the stored commands, one after the other, hold from the position on,
and moves the position behind it; it returns nothing only at the end of the last command
(`front_eq_nil_iff`). So the loop that reads until it gets nothing has read everything from where it
started (`readToEof_eq`), in whatever pieces it asks for it.
-/

namespace AesdChar
open BlockHeap Lines

variable {k : KernelLimits} {d : Driver} {v : View} {s : System} {fPos : ℤ}

namespace View
variable (v)

/-- The bytes a read without a failure gets. -/
def front (p count : ℕ) : List UInt8 := (Pieces.restAt v.log.lines p).take count

theorem read_eq_front (hpos : 0 ≤ fPos) (count : ℕ) : v.read fPos count ⟨false, 0⟩ =
    ⟨(v.front fPos.toNat count).length, v.front fPos.toNat count,
      (fPos.toNat + (v.front fPos.toNat count).length : ℕ)⟩ := by
  simp [read, front, Int.toNat_of_nonneg hpos]

theorem front_prefix (p count : ℕ) : v.front p count <+: v.log.contents.drop p :=
  (List.take_prefix _ _).trans (Pieces.restAt_prefix _ _)

theorem front_eq_nil_iff (p count : ℕ) :
    v.front p count = [] ↔ count = 0 ∨ v.log.contents.length ≤ p := by
  rw [front, List.take_eq_nil_iff, Pieces.restAt_eq_nil_iff, LineLog.contents]

theorem drop_eq_front_append (p count : ℕ) : v.log.contents.drop p =
    v.front p count ++ v.log.contents.drop (p + (v.front p count).length) := by
  obtain ⟨rest, hrest⟩ := v.front_prefix p count
  rw [← List.drop_drop, ← hrest, List.drop_left]

end View

theorem readOnce_eq (hr : Represents k d v) (hpos : 0 ≤ fPos ∧ fPos < 2 ^ 63) (count : ℕ) :
    d.readOnce fPos count = some (v.front fPos.toNat count,
      ((fPos.toNat + (v.front fPos.toNat count).length : ℕ) : ℤ)) := by
  simp [Driver.readOnce, aesdRead_represents hr hpos, v.read_eq_front hpos.1]

theorem zero_pos : 0 ≤ (0 : ℤ) ∧ (0 : ℤ) < 2 ^ 63 := ⟨le_refl 0, Int.pow_pos (by decide)⟩

/-- **Reading to end of file** gets all that the commands hold from the position on, with any
positive counts. -/
theorem readToEof_eq (hr : Represents k d v) (hpos : 0 ≤ fPos ∧ fPos < 2 ^ 63) {counts : ℕ → ℕ}
    (hcounts : ∀ i, 0 < counts i) {fuel : ℕ} (hfuel : v.log.contents.length < fuel) :
    d.readToEof counts fuel fPos = some (v.log.contents.drop fPos.toNat) := by
  refine Pieces.drain_eq (fun p : ℤ => v.log.contents.drop p.toNat)
    (fun p => 0 ≤ p ∧ p < 2 ^ 63) ?_ hcounts hpos (by rw [List.length_drop]; omega)
  intro p count hp hcount
  have hnext := View.read_fPos (v := v) hp.1 count ⟨false, 0⟩
  have hlen := hr.contents_lt
  rw [v.read_eq_front hp.1] at hnext
  refine ⟨_, _, readOnce_eq hr hp count, ?_, ?_, ?_⟩
  · simp only at hnext
    omega
  · exact v.drop_eq_front_append p.toNat count
  · intro hnil
    rcases (v.front_eq_nil_iff p.toNat count).1 hnil with hzero | hend
    · omega
    · rw [List.drop_eq_nil_iff]
      exact hend

theorem aesdRead_pending (d : Driver) (e : AesdBufferEntry) (fPos : ℤ) (count : ℕ) (env : ReadEnv) :
    (aesdRead ⟨d.heap, { d.dev with aesdEntry := e }⟩ fPos count env).map (·.1) =
      (aesdRead d fPos count env).map (·.1) := by
  obtain ⟨heap, buffer, entry, lock⟩ := d
  unfold aesdRead mutexLockInterruptible
  cases env.interrupted with
  | true => rfl
  | false =>
    cases lock with
    | true => rfl
    | false =>
      simp only [Bool.false_eq_true, if_false, Option.bind_eq_bind, Option.bind_some]
      split
      · rfl
      · simp only [Option.map_bind]
        congr 1
        funext r
        simp only [Function.comp]
        split <;> rfl

/-- Reads without a failure return contiguous pieces of `contents`, empty only when nothing is asked
for or nothing is left, and move the position by as much, whatever is pending. -/
def Driver.ReadsPieces (d : Driver) (contents : List UInt8) : Prop :=
  ∀ p count : ℕ, p < 2 ^ 63 → ∃ r : ℕ,
    aesdRead d p count ⟨false, 0⟩ = some (⟨r, (contents.drop p).take r, (p + r : ℕ)⟩, d) ∧
    r ≤ count ∧ r ≤ contents.length - p ∧ (r = 0 ↔ count = 0 ∨ contents.length ≤ p) ∧
    ∀ e, (aesdRead ⟨d.heap, { d.dev with aesdEntry := e }⟩ p count ⟨false, 0⟩).map (·.1) =
      some ⟨r, (contents.drop p).take r, (p + r : ℕ)⟩

/-- The loop of reads from the start ends, and has read `contents`. -/
def Driver.ReadsAll (d : Driver) (contents : List UInt8) : Prop :=
  ∀ counts : ℕ → ℕ, (∀ i, 0 < counts i) → ∃ fuel, d.readToEof counts fuel 0 = some contents

/-- **Reads return what is stored**: in every reachable state, the commands and nothing else. -/
theorem read_contents (hs : s.Reachable k) : ∃ cmds, s.driver.commands = some cmds ∧
    s.driver.ReadsPieces cmds.flatten ∧ s.driver.ReadsAll cmds.flatten := by
  obtain ⟨v, hv⟩ := hs.represents
  have hr := hv.driver
  refine ⟨v.log.lines, hr.commands, fun p count hp => ?_, fun counts hcounts => ?_⟩
  · have hpos : 0 ≤ (p : ℤ) ∧ (p : ℤ) < 2 ^ 63 := ⟨by omega, by exact_mod_cast hp⟩
    have hprefix := v.front_prefix p count
    have hread : aesdRead s.driver p count ⟨false, 0⟩ =
        some (⟨(v.front p count).length, (v.log.contents.drop p).take (v.front p count).length,
          (p + (v.front p count).length : ℕ)⟩, s.driver) := by
      rw [aesdRead_represents hr hpos, v.read_eq_front hpos.1, Int.toNat_natCast,
        ← List.prefix_iff_eq_take.1 hprefix]
    refine ⟨(v.front p count).length, hread, List.length_take_le _ _, ?_, ?_, fun e => ?_⟩
    · simpa [LineLog.contents] using hprefix.length_le
    · rw [List.length_eq_zero_iff, v.front_eq_nil_iff, LineLog.contents]
    · rw [aesdRead_pending, hread]
      rfl
  · have := readToEof_eq hr zero_pos hcounts (Nat.lt_succ_self _)
    exact ⟨_, this⟩

/-- Eleven lines and the start of one more are written, and a second handle reads into the second of the
lines that are left. -/
def elevenLines : List (Handle × Call) :=
  (List.range 11).map (fun n => (0, .write [UInt8.ofNat (65 + n), 45, 10] ⟨false, true, 0⟩)) ++
    [(0, .write [120] ⟨false, true, 0⟩), (1, .open), (1, .read 5 ⟨false, 0⟩), (1, .read 1 ⟨false, 0⟩)]

theorem read_contents_wrapped : ∃ s : System, s.Reachable .x86 ∧ s.driver.dev.aesdBuffer.outOffs = 1 ∧
    s.driver.pending = some [120] ∧ s.fPos 1 = 4 ∧
    (aesdRead s.driver (s.fPos 1) 100 ⟨false, 0⟩).map (·.1) = some ⟨2, [45, 10], 6⟩ ∧
    let cmds := (List.range 10).map fun n => [UInt8.ofNat (66 + n), 45, 10]
    s.driver.commands = some cmds ∧ s.driver.ReadsPieces cmds.flatten ∧
      s.driver.ReadsAll cmds.flatten := by
  obtain ⟨s, hs, heval⟩ := Option.map_eq_some_iff.1
    (show (System.run .x86 elevenLines).map (fun s => (s.driver.dev.aesdBuffer.outOffs,
        s.driver.pending, s.fPos 1, s.driver.commands)) =
      some (1, some [120], 4, some ((List.range 10).map fun n => [UInt8.ofNat (66 + n), 45, 10])) by
        decide +kernel)
  have hread : (System.run .x86 elevenLines).bind (fun s =>
      (aesdRead s.driver (s.fPos 1) 100 ⟨false, 0⟩).map (·.1)) = some ⟨2, [45, 10], 6⟩ := by
    decide +kernel
  simp only [Prod.mk.injEq] at heval
  obtain ⟨hout, hpending, hpos, hstored⟩ := heval
  rw [hs] at hread
  have hreach := System.Reachable.of_run hs
  obtain ⟨cmds, hcmds, hpieces, hall⟩ := read_contents hreach
  obtain rfl := Option.some.inj (hstored.symm.trans hcmds)
  exact ⟨s, hreach, hout, hpending, hpos, hread, hcmds, hpieces, hall⟩

end AesdChar
