import AesdChar.Driver.View

/-!
# Sizes in `int`

The driver adds up sizes in variables of type `int` and hands sizes to `int` parameters. A `Tally` is
what such a variable holds, with the exact number it stands for; the loops that add up sizes are
written here once more so that they note their tallies, and compute what they computed
(`findEntryTallies_fst`, `sizeLoopTallies_fst`). A stored command is never longer than `kmalloc`
grants, so ten of them stay below `2^31`, and in every reachable state no value is wrapped or
truncated (`sizes_exact`).
-/

namespace AesdChar
open CInt BlockHeap Lines

/-! ### Tallies -/

/-- What an `int` holds, and the exact number it stands for. -/
structure Tally where
  value : ℤ
  exact : ℕ

namespace Tally

/-- `total += size` -/
def add (t : Tally) (size : ℕ) : Tally := ⟨toInt (t.value + size), t.exact + size⟩

/-- The value is the number, and fits. -/
structure Right (t : Tally) : Prop where
  value_eq : t.value = t.exact
  lt : t.exact < 2 ^ 31

variable {t : Tally} {size : ℕ}

theorem right_zero : Right ⟨0, 0⟩ := ⟨rfl, by decide⟩

theorem Right.add (ht : t.Right) (hlt : t.exact + size < 2 ^ 31) : (t.add size).Right := by
  refine ⟨?_, hlt⟩
  show toInt (t.value + size) = ((t.exact + size : ℕ) : ℤ)
  rw [ht.value_eq, toInt_of_range (by omega) (by omega)]
  push_cast
  rfl

end Tally

/-- `findEntryLoop` with the tallies of `current_offset`. -/
def findEntryTallies (buffer : AesdCircularBuffer) (charOffset : ℕ) :
    ℕ → ℕ → Tally → Option (ℕ × ℕ) × List Tally
  | 0, _, currentOffset => (none, [currentOffset])
  | n + 1, i, currentOffset =>
    let currentIndex := i % maxWriteOperations
    if toSize (charOffset - currentOffset.value) < (buffer.slot currentIndex).size then
      (some (currentIndex, toSize (charOffset - currentOffset.value)), [currentOffset])
    else
      let r := findEntryTallies buffer charOffset n (i + 1)
        (currentOffset.add (buffer.slot currentIndex).size)
      (r.1, currentOffset :: r.2)

/-- `sizeLoop` with the tallies of `total_size`. -/
def sizeLoopTallies (buffer : AesdCircularBuffer) (stop : ℕ) :
    ℕ → ℕ → Tally → Option ℤ × List Tally
  | 0, _, totalSize => (none, [totalSize])
  | n + 1, c, totalSize =>
    if c = stop then (some totalSize.value, [totalSize])
    else
      let r := sizeLoopTallies buffer stop n ((c + 1) % maxWriteOperations)
        (totalSize.add (buffer.slot c).size)
      (r.1, totalSize :: r.2)

variable {k : KernelLimits} {d : Driver} {b : AesdCircularBuffer} {buf : List UInt8} {env : WriteEnv}
  {cmds : List (List UInt8)} {pend : List UInt8} {s : System}

theorem findEntryTallies_fst (charOffset n i : ℕ) (t : Tally) :
    (findEntryTallies b charOffset n i t).1 = findEntryLoop b charOffset n i t.value := by
  induction n generalizing i t with
  | zero => rfl
  | succ n ih =>
    unfold findEntryTallies findEntryLoop
    simp only
    split
    · rfl
    · exact ih _ _

theorem sizeLoopTallies_fst (stop n c : ℕ) (t : Tally) :
    (sizeLoopTallies b stop n c t).1 = sizeLoop b stop n c t.value := by
  induction n generalizing c t with
  | zero => rfl
  | succ n ih =>
    unfold sizeLoopTallies sizeLoop
    split
    · rfl
    · exact ih _ _

/-- As long as all sizes on the way fit together, no tally wraps. -/
theorem findEntryTallies_right (charOffset : ℕ) {n i : ℕ} {t : Tally} (ht : t.Right)
    (hsum : t.exact + (sizes b i n).sum < 2 ^ 31) :
    ∀ u ∈ (findEntryTallies b charOffset n i t).2, u.Right := by
  induction n generalizing i t with
  | zero =>
    intro u hu
    rw [List.mem_singleton.1 hu]
    exact ht
  | succ n ih =>
    rw [sizes_cons, List.sum_cons] at hsum
    intro u hu
    unfold findEntryTallies at hu
    simp only at hu
    split at hu
    · rw [List.mem_singleton.1 hu]
      exact ht
    · rcases List.mem_cons.1 hu with rfl | hu
      · exact ht
      · refine ih (ht.add (by omega)) ?_ u hu
        show t.exact + _ + _ < _
        omega

theorem sizeLoopTallies_right (stop : ℕ) {n c : ℕ} {t : Tally} (hc : c < maxWriteOperations)
    (ht : t.Right) (hsum : t.exact + (sizes b c n).sum < 2 ^ 31) :
    ∀ u ∈ (sizeLoopTallies b stop n c t).2, u.Right := by
  induction n generalizing c t with
  | zero =>
    intro u hu
    rw [List.mem_singleton.1 hu]
    exact ht
  | succ n ih =>
    have hwalk : sizes b ((c + 1) % maxWriteOperations) n = sizes b (c + 1) n := by
      simp [sizes, Cyclic.walk_mod]
    rw [sizes_cons, List.sum_cons, Nat.mod_eq_of_lt hc] at hsum
    intro u hu
    unfold sizeLoopTallies at hu
    simp only at hu
    split at hu
    · rw [List.mem_singleton.1 hu]
      exact ht
    · rcases List.mem_cons.1 hu with rfl | hu
      · exact ht
      · refine ih (Nat.mod_lt _ (by decide)) (ht.add (by omega)) ?_ u hu
        rw [hwalk]
        show t.exact + _ + _ < _
        omega

theorem sum_sizes_lt {h : Heap UInt8} {dev : AesdDev} (hh : Holds k h dev cmds pend) :
    (sizes dev.aesdBuffer dev.aesdBuffer.outOffs maxWriteOperations).sum < 2 ^ 31 := by
  have hlt := hh.length_flatten_lt
  rw [List.length_flatten, ← hh.sizes_eq] at hlt
  have hsum := sizes_outOffs hh.ring (le_refl maxWriteOperations)
  rw [List.take_of_length_le (by rw [AesdCircularBuffer.length_stored]; exact hh.ring.count_le)] at hsum
  rwa [hsum]

/-! ### The sizes of a write -/

/-- The device as `aesd_write` hands it to `sendEntryToCircularBuffer`. -/
def Driver.sentDevice (k : KernelLimits) (d : Driver) (buf : List UInt8) (env : WriteEnv) : AesdDev :=
  { d.dev with aesdEntry := ⟨d.kmallocResult k buf env, d.kmallocRequest buf⟩, lock := true }

/-- A write that `kmalloc` granted its request used the exact sizes: for the block, in `size`, and for
`checkCR`. -/
structure Driver.WriteExact (k : KernelLimits) (d : Driver) (buf : List UInt8) (env : WriteEnv) :
    Prop where
  /-- `size = count + dev->aesd_entry.size` -/
  int : toInt (buf.length + d.dev.aesdEntry.size) = buf.length + d.dev.aesdEntry.size
  request : d.kmallocRequest buf = buf.length + d.dev.aesdEntry.size
  block : ∃ a ret d' xs, d.kmallocResult k buf env = some a ∧ aesdWrite k d buf env = some (ret, d') ∧
    d'.heap.HasAt a (buf.length + d.dev.aesdEntry.size) xs
  sent : min env.uncopied buf.length = 0 → ∃ h,
    aesdWrite k d buf env = (sendEntryToCircularBuffer h (d.sentDevice k buf env)).map
      (fun r => (-ENOMEM, ⟨r.1, mutexUnlock r.2⟩)) ∧
    toInt (d.sentDevice k buf env).aesdEntry.size = (d.sentDevice k buf env).aesdEntry.size

theorem sendEntry_block {h : Heap UInt8} {dev : AesdDev} (hh : Holds k h dev cmds pend) :
    ∃ r, sendEntryToCircularBuffer h dev = some r ∧
      ∀ c, dev.aesdEntry.block? = some c → r.1.block c = h.block c := by
  by_cases hline : IsLine isNewline pend
  · obtain ⟨h', hsend, -, -, -, hsame⟩ := sendEntry_commit hh hline
    exact ⟨_, hsend, fun c hc => hsame c (hh.pending_not_stored hc _)⟩
  · exact ⟨_, sendEntry_keep hh hline, fun _ _ => rfl⟩

theorem Represents.writeExact {v : View} (hr : Represents k d v) (hlen : buf.length ≤ k.maxRwCount)
    (hint : env.interrupted = false) (hgrants : d.KmallocGrants k buf env) :
    d.WriteExact k buf env := by
  have hpending := hr.holds.pending
  have hmax := k.kmallocMaxSize_le
  have hle := (request_le_iff hpending hlen).1 hgrants.le
  have hrequest := request_eq hpending hle
  have hresult := kmallocResult_of_grants hpending hlen hint hgrants
  have hsize := hpending.1
  refine ⟨?_, ?_, ?_, fun hleft => ?_⟩
  · rw [hsize]
    exact toInt_of_range (by omega) (by omega)
  · rw [hrequest, hsize, Nat.add_comm]
  · by_cases hleft : min env.uncopied buf.length = 0
    · obtain ⟨h', hwrite, hholds, -, -, hhas⟩ :=
        aesdWrite_taken hr.lock hr.holds hlen ⟨hint, hgrants, hleft⟩
      obtain ⟨r, hsend, hblock⟩ := sendEntry_block hholds
      rw [hsend] at hwrite
      rw [List.length_append, Nat.add_comm, ← hsize] at hhas
      refine ⟨_, _, _, _, hresult, hwrite, hhas.congr fun c hc => hblock c ?_⟩
      rw [AesdBufferEntry.block?_eq_some, hc]
    · obtain ⟨h', ys, hwrite, hfilled⟩ := aesdWrite_fault hr.lock hpending hlen hint hgrants hleft
      have hhas := hfilled.has
      rw [Nat.add_comm] at hhas
      exact ⟨_, _, _, _, hresult, hwrite, hhas⟩
  · obtain ⟨h', hwrite, -⟩ := aesdWrite_taken hr.lock hr.holds hlen ⟨hint, hgrants, hleft⟩
    refine ⟨h', ?_, ?_⟩
    · rw [hwrite, Driver.sentDevice, hrequest, hresult, List.length_append]
    · have hexact : (d.sentDevice k buf env).aesdEntry.size = v.log.pending.length + buf.length := hrequest
      rw [hexact]
      exact toInt_of_range (by omega) (by omega)

/-- **No size is truncated**: in every reachable state, a write that `kmalloc` grants its request used
exact sizes, and so does every running sum of the lookup, whatever the offset, and of the seek
functions, wherever they stop. -/
theorem sizes_exact (hs : s.Reachable k) :
    (∀ buf env, buf.length ≤ k.maxRwCount → env.interrupted = false →
      s.driver.KmallocGrants k buf env → s.driver.WriteExact k buf env) ∧
    (∀ charOffset, ∃ tallies,
      findEntryTallies s.driver.dev.aesdBuffer charOffset maxWriteOperations
          s.driver.dev.aesdBuffer.outOffs ⟨0, 0⟩ =
        (aesdCircularBufferFindEntryOffsetForFpos s.driver.dev.aesdBuffer charOffset, tallies) ∧
      ∀ t ∈ tallies, t.Right) ∧
    ∀ stop, ∃ tallies,
      sizeLoopTallies s.driver.dev.aesdBuffer stop maxWriteOperations
          s.driver.dev.aesdBuffer.outOffs ⟨0, 0⟩ =
        (sizeLoop s.driver.dev.aesdBuffer stop maxWriteOperations s.driver.dev.aesdBuffer.outOffs 0,
          tallies) ∧
      ∀ t ∈ tallies, t.Right := by
  obtain ⟨v, hv⟩ := hs.represents
  have hr := hv.driver
  have hsum := sum_sizes_lt hr.holds
  refine ⟨fun buf env hlen hint hgrants => hr.writeExact hlen hint hgrants, fun charOffset => ?_,
    fun stop => ?_⟩
  · refine ⟨_, Prod.ext (findEntryTallies_fst charOffset _ _ _) rfl, ?_⟩
    exact findEntryTallies_right charOffset Tally.right_zero (by simpa using hsum)
  · refine ⟨_, Prod.ext (sizeLoopTallies_fst stop _ _ _) rfl, ?_⟩
    exact sizeLoopTallies_right stop hr.holds.ring.outOffs_lt Tally.right_zero (by simpa using hsum)

theorem sizes_exact_second_piece : ∃ s : System, s.Reachable .x86 ∧ s.driver.pending = some [97] ∧
    s.driver.WriteExact .x86 [98, 10] ⟨false, true, 0⟩ := by
  obtain ⟨s, hrun, heval⟩ := Option.map_eq_some_iff.1
    (show (System.run .x86 [(0, .open), (0, .write [97] ⟨false, true, 0⟩)]).map
      (fun s => (s.driver.pending, decide (s.driver.KmallocGrants .x86 [98, 10] ⟨false, true, 0⟩))) =
        some (some [97], true) by decide +kernel)
  obtain ⟨hpending, hgrants⟩ := Prod.mk.inj heval
  have hs := System.Reachable.of_run hrun
  exact ⟨s, hs, hpending,
    (sizes_exact hs).1 [98, 10] ⟨false, true, 0⟩ (by decide) rfl (of_decide_eq_true hgrants)⟩

end AesdChar
