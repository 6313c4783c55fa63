import AesdChar.Driver.Blocks

/-!
# Lost blocks

A live block that no entry refers to is lost: nothing will ever free it. One path of `aesd_write`
loses a block, the fault while copying behind a pending entry, which leaves the new block where it
is (`LosesBlock`); every other call keeps account of all blocks, and a lost block stays lost. So no
block is lost exactly in the runs that never take this path, and unloading frees everything exactly
when, besides, no block is pending (`no_block_lost_iff`).
-/

namespace AesdChar
open BlockHeap Lines

variable {k : KernelLimits} {h h' : Heap UInt8} {dev dev' : AesdDev} {d d' : Driver} {v : View}
  {s s' : System} {cmds : List (List UInt8)} {pend buf : List UInt8} {env : WriteEnv} {r : Reply}

/-- The block is live, and neither a slot of the ring nor the pending entry refers to it. -/
def Driver.Lost (d : Driver) (b : ℕ) : Prop :=
  d.heap.Live b ∧ b ∉ d.dev.entries.filterMap (·.block?)

/-- An entry was pending, the write got a new block, and the copy from user space faulted. -/
def Driver.LosesBlock (k : KernelLimits) (d : Driver) (buf : List UInt8) (env : WriteEnv) : Prop :=
  d.dev.aesdEntry.buffptr ≠ none ∧ env.interrupted = false ∧ d.KmallocGrants k buf env ∧
    min env.uncopied buf.length ≠ 0

instance (k : KernelLimits) (d : Driver) (buf : List UInt8) (env : WriteEnv) :
    Decidable (d.LosesBlock k buf env) := inferInstanceAs (Decidable (_ ∧ _))

/-- A call that does not take that path. -/
def KeepsBlocks (k : KernelLimits) (s : System) (a : Handle × Call) : Prop :=
  a.2.Valid k ∧ match a.2 with
    | .write buf env => ¬ s.driver.LosesBlock k buf env
    | _ => True

instance (s : System) : (a : Handle × Call) → Decidable (KeepsBlocks k s a)
  | (_, .write ..) => inferInstanceAs (Decidable (_ ∧ ¬ _))
  | (_, .open) | (_, .release) | (_, .read ..) | (_, .llseek ..) | (_, .ioctl ..) =>
    inferInstanceAs (Decidable (_ ∧ True))

theorem lost_iff (hring : RingInv d.dev.aesdBuffer) (b : ℕ) :
    d.Lost b ↔ b < d.heap.next ∧ b ∉ d.heap.freed ∧ b ∉ d.dev.blocks := by
  have hlast : [d.dev.aesdEntry].filterMap (·.block?) = d.dev.aesdEntry.block?.toList := by
    cases hb : d.dev.aesdEntry.block? <;> simp [hb]
  have hmem : b ∈ d.dev.entries.filterMap (·.block?) ↔ b ∈ d.dev.blocks := by
    unfold AesdDev.entries AesdDev.blocks
    rw [List.filterMap_append, hlast, List.mem_append, List.mem_append, (hring.slots_perm (f := (·.block?)) rfl).mem_iff]
  rw [Driver.Lost, Heap.live_iff, hmem, and_assoc]

/-! ### One write -/

/-- The blocks of the entries that go when one more is added. -/
def AesdDev.dropped (dev : AesdDev) : List ℕ :=
  (dev.aesdBuffer.stored.take (dev.aesdBuffer.count + 1 - maxWriteOperations)).filterMap (·.block?)

/-- The device once the pending entry is sent. -/
def AesdDev.sent (dev : AesdDev) : AesdDev where
  aesdBuffer := (aesdCircularBufferAddEntry dev.aesdBuffer dev.aesdEntry).1
  aesdEntry := ⟨none, 0⟩
  lock := dev.lock

theorem mem_blocks_iff (hring : RingInv dev.aesdBuffer) (b : ℕ) :
    b ∈ dev.blocks ↔ b ∈ dev.dropped ∨ b ∈ dev.sent.blocks := by
  have hstored := addEntry_stored hring dev.aesdEntry
  rw [rtake_concat_eq_drop, AesdCircularBuffer.length_stored] at hstored
  have hlast : [dev.aesdEntry].filterMap (·.block?) = dev.aesdEntry.block?.toList := by
    cases hb : dev.aesdEntry.block? <;> simp [hb]
  have hsent : dev.sent.blocks = (dev.aesdBuffer.stored.drop
      (dev.aesdBuffer.count + 1 - maxWriteOperations)).filterMap (·.block?) ++
        dev.aesdEntry.block?.toList := by
    unfold AesdDev.blocks AesdDev.sent
    rw [hstored, List.filterMap_append, hlast]
    exact List.append_nil _
  have hsplit : dev.blocks = dev.dropped ++ dev.sent.blocks := by
    rw [hsent, AesdDev.dropped, ← List.append_assoc, ← List.filterMap_append, List.take_append_drop]
    rfl
  rw [hsplit, List.mem_append]

theorem sendEntry_lost (hh : Holds k h dev cmds pend)
    (hsend : sendEntryToCircularBuffer h dev = some (h', dev')) (b : ℕ) :
    (Driver.mk h' (mutexUnlock dev')).Lost b ↔ (Driver.mk h dev).Lost b := by
  by_cases hline : IsLine isNewline pend
  · obtain ⟨h₁, hsend₁, hholds, hnext, hfreed, -⟩ := sendEntry_commit hh hline
    obtain ⟨rfl, rfl⟩ := Prod.mk.inj (Option.some.inj (hsend₁.symm.trans hsend))
    have hbefore := lost_iff (d := ⟨h, dev⟩) hh.ring b
    have hafter := lost_iff (d := ⟨h₁, mutexUnlock dev.sent⟩) hholds.ring b
    have hunlock : (mutexUnlock dev.sent).blocks = dev.sent.blocks := rfl
    have hfree : b ∈ h₁.freed ↔ b ∈ h.freed ∨ b ∈ dev.dropped := by
      rw [hfreed, List.mem_append]
      rfl
    rw [mem_blocks_iff hh.ring, not_or] at hbefore
    rw [hunlock, hfree, hnext, not_or, and_assoc] at hafter
    exact hafter.trans hbefore.symm
  · rw [sendEntry_keep hh hline] at hsend
    obtain ⟨rfl, rfl⟩ := Prod.mk.inj (Option.some.inj hsend)
    rfl

theorem aesdWrite_taken_lost (hr : Represents k d v) (hlen : buf.length ≤ k.maxRwCount)
    (hok : d.WriteSucceeds k buf env) {ret : ℤ} (hwrite : aesdWrite k d buf env = some (ret, d'))
    (b : ℕ) : d'.Lost b ↔ d.Lost b := by
  obtain ⟨h₁, hsend, hholds, hnext, hfreed, -⟩ := aesdWrite_taken hr.lock hr.holds hlen hok
  rw [hsend] at hwrite
  obtain ⟨⟨h₂, dev₂⟩, hsent, heq⟩ := Option.map_eq_some_iff.1 hwrite
  obtain ⟨-, rfl⟩ := Prod.mk.inj heq
  have hbefore := lost_iff (d := ⟨h₁, _⟩) hholds.ring b
  rw [sendEntry_lost hholds hsent, hbefore, lost_iff hr.holds.ring, hnext, hfreed]
  -- the new block is none of the old ones
  have hnew : (d.alloc buf).1 = .block b → b = d.heap.next ∧ ¬ d.heap.Live b := fun heq =>
    ((Heap.allocAt_frame d.heap _).1 b heq).symm
  have hstored : b ∈ d.dev.aesdBuffer.stored.filterMap (·.block?) → d.heap.Live b := fun hb =>
    hr.holds.live (List.mem_append_left _ hb)
  unfold AesdDev.blocks
  simp only [List.mem_append, Option.mem_toList, AesdBufferEntry.block?_eq_some, Option.some.injEq,
    not_or]
  constructor
  · rintro ⟨hlt, ⟨hfree, hold⟩, hmem, hne⟩
    exact ⟨hlt.resolve_right hne, hfree, hmem, hold⟩
  · rintro ⟨hlt, hfree, hmem, hold⟩
    refine ⟨Or.inl hlt, ⟨hfree, hold⟩, hmem, fun heq => ?_⟩
    have := (hnew heq).1
    omega

theorem aesdWrite_fault_lost (hr : Represents k d v) (hlen : buf.length ≤ k.maxRwCount)
    (hint : env.interrupted = false) (hgrants : d.KmallocGrants k buf env)
    (hleft : min env.uncopied buf.length ≠ 0) {ret : ℤ}
    (hwrite : aesdWrite k d buf env = some (ret, d')) (b : ℕ) :
    d'.Lost b ↔ d.Lost b ∨ (d.dev.aesdEntry.buffptr ≠ none ∧ b = d.heap.next) := by
  obtain ⟨h₁, ys, hfault, hfilled⟩ :=
    aesdWrite_fault hr.lock hr.holds.pending hlen hint hgrants hleft
  rw [hfault] at hwrite
  obtain ⟨-, rfl⟩ := Prod.mk.inj (Option.some.inj hwrite)
  have hafter := lost_iff (d := ⟨h₁, { d.dev with aesdEntry := if d.dev.aesdEntry.buffptr = none
    then ⟨some (d.alloc buf).1, 0⟩ else d.dev.aesdEntry }⟩) hr.holds.ring b
  rw [hafter, lost_iff hr.holds.ring, hfilled.lt_next_iff, hfilled.freed,
    Driver.alloc_of_ne_nil (by omega)]
  have hnew : d.heap.next ∉ d.dev.blocks := fun hmem =>
    hr.holds.live hmem (d.heap.fresh _ (le_refl _))
  have hunfreed : d.heap.next ∉ d.heap.freed := fun hmem => by
    have := ((d.heap.dead_iff _).1 hmem).1
    omega
  unfold AesdDev.blocks at hnew ⊢
  simp only [Address.block.injEq]
  by_cases hnull : d.dev.aesdEntry.buffptr = none
  · have hblock : d.dev.aesdEntry.block? = none := by rw [AesdBufferEntry.block?, hnull]; rfl
    have hentry : (⟨some (.block d.heap.next), 0⟩ : AesdBufferEntry).block? = some d.heap.next := rfl
    simp only [hnull, hblock, hentry, if_true, List.mem_append, Option.toList_some, Option.toList_none,
      List.mem_singleton, List.not_mem_nil, or_false, not_or, ne_eq, not_true_eq_false, false_and]
    constructor
    · rintro ⟨hlt, hfree, hstored, hne⟩
      exact ⟨by omega, hfree, hstored⟩
    · rintro ⟨hlt, hfree, hstored⟩
      exact ⟨Or.inl hlt, hfree, hstored, by omega⟩
  · simp only [hnull, if_false, ne_eq, not_false_eq_true, true_and]
    constructor
    · rintro ⟨hlt, hfree, hptrs⟩
      by_cases hb : b = d.heap.next
      · exact Or.inr hb
      · exact Or.inl ⟨by omega, hfree, hptrs⟩
    · rintro (⟨hlt, hfree, hptrs⟩ | rfl)
      · exact ⟨Or.inl hlt, hfree, hptrs⟩
      · exact ⟨Or.inr rfl, hunfreed, hnew⟩

theorem aesdWrite_lost (hr : Represents k d v) (hlen : buf.length ≤ k.maxRwCount) {ret : ℤ}
    (hwrite : aesdWrite k d buf env = some (ret, d')) (b : ℕ) :
    d'.Lost b ↔ d.Lost b ∨ (d.LosesBlock k buf env ∧ b = d.heap.next) := by
  unfold Driver.LosesBlock
  by_cases hint : env.interrupted = true
  · rw [aesdWrite_interrupted hint] at hwrite
    obtain ⟨-, rfl⟩ := Prod.mk.inj (Option.some.inj hwrite)
    simp [hint]
  rw [Bool.not_eq_true] at hint
  by_cases hgrants : d.KmallocGrants k buf env
  swap
  · rw [aesdWrite_refused hr.lock hr.holds.pending hint hgrants] at hwrite
    obtain ⟨-, rfl⟩ := Prod.mk.inj (Option.some.inj hwrite)
    simp [hgrants]
  by_cases hleft : min env.uncopied buf.length = 0
  · rw [aesdWrite_taken_lost hr hlen ⟨hint, hgrants, hleft⟩ hwrite]
    simp [hleft]
  · rw [aesdWrite_fault_lost hr hlen hint hgrants hleft hwrite]
    simp [hint, hgrants, hleft]

/-! ### Runs -/

theorem step_driver_eq (hs : s.Represents k v) {handle : Handle} {c : Call}
    (hc : ∀ buf env, c ≠ .write buf env) (hstep : s.step k (handle, c) = some (s', r)) :
    s'.driver = s.driver := by
  have hr := hs.driver
  cases c with
  | «open» | release =>
    obtain ⟨rfl, -⟩ := Prod.mk.inj (Option.some.inj hstep)
    rfl
  | read count env =>
    simp only [System.step, aesdRead_represents hr (hs.fPos handle), Option.map_some] at hstep
    obtain ⟨rfl, -⟩ := Prod.mk.inj (Option.some.inj hstep)
    rfl
  | write buf env => exact absurd rfl (hc buf env)
  | llseek offset whence interrupted =>
    simp only [System.step, aesdLlseek_represents hr, Option.map_some] at hstep
    obtain ⟨rfl, -⟩ := Prod.mk.inj (Option.some.inj hstep)
    rfl
  | ioctl cmd arg env =>
    simp only [System.step, aesdUnlockedIoctl_represents hr, Option.map_some] at hstep
    obtain ⟨rfl, -⟩ := Prod.mk.inj (Option.some.inj hstep)
    rfl

/-- No block is lost after a call exactly when none was lost before and the call loses none. -/
theorem step_lost_iff (hs : s.Represents k v) {a : Handle × Call} (hvalid : a.2.Valid k)
    (hstep : s.step k a = some (s', r)) :
    (∀ b, ¬ s'.driver.Lost b) ↔ (∀ b, ¬ s.driver.Lost b) ∧ KeepsBlocks k s a := by
  obtain ⟨handle, c⟩ := a
  have hother : (∀ buf env, c ≠ .write buf env) → KeepsBlocks k s (handle, c) →
      ((∀ b, ¬ s'.driver.Lost b) ↔ (∀ b, ¬ s.driver.Lost b) ∧ KeepsBlocks k s (handle, c)) := by
    intro hc hkeeps
    rw [step_driver_eq hs hc hstep]
    simp [hkeeps]
  cases c with
  | write buf env =>
    obtain ⟨⟨ret, d'⟩, hwrite, heq⟩ := Option.map_eq_some_iff.1 hstep
    obtain ⟨rfl, -⟩ := Prod.mk.inj heq
    have hlost : ∀ b, d'.Lost b ↔ s.driver.Lost b ∨
        (s.driver.LosesBlock k buf env ∧ b = s.driver.heap.next) :=
      aesdWrite_lost hs.driver hvalid hwrite
    show (∀ b, ¬ d'.Lost b) ↔ _
    constructor
    · intro h
      refine ⟨fun b hb => h b ((hlost b).2 (Or.inl hb)), hvalid, fun hloses => ?_⟩
      exact h _ ((hlost _).2 (Or.inr ⟨hloses, rfl⟩))
    · rintro ⟨h, -, hkeeps⟩ b hb
      rcases (hlost b).1 hb with hold | ⟨hloses, -⟩
      · exact h b hold
      · exact hkeeps hloses
  | _ => exact hother (by simp) ⟨hvalid, trivial⟩

theorem Represents.cleanup_live_iff (hr : Represents k d v) : ∃ h', aesdCleanupModule d = some h' ∧
    ∀ b, h'.Live b ↔ d.Lost b ∨ d.dev.aesdEntry.block? = some b := by
  obtain ⟨h', hclean, hfreed, hnext⟩ := hr.cleanup
  refine ⟨h', hclean, fun b => ?_⟩
  have hptrs := (hr.holds.ring.slots_perm (f := (·.block?)) rfl).mem_iff (a := b)
  have hdisj := (List.nodup_append.1 hr.holds.nodup).2.2 b
  rw [lost_iff hr.holds.ring, Heap.live_iff, hnext, hfreed, List.mem_append, hptrs]
  unfold AesdDev.blocks at hdisj ⊢
  rw [List.mem_append, Option.mem_toList]
  constructor
  · rintro ⟨hlt, hmem⟩
    by_cases hpend : d.dev.aesdEntry.block? = some b
    · exact Or.inr hpend
    · exact Or.inl ⟨hlt, fun hb => hmem (Or.inl hb), fun hb => hb.elim (hmem ∘ Or.inr) hpend⟩
  · rintro (⟨hlt, hfree, hmem⟩ | hpend)
    · exact ⟨hlt, fun hb => hb.elim hfree (hmem ∘ Or.inl)⟩
    · have hlive := Heap.live_iff.1 (hr.holds.pending.live hpend)
      refine ⟨hlive.1, fun hb => hb.elim hlive.2 fun hstored => ?_⟩
      exact hdisj hstored b (by simp [hpend]) rfl

/-- **When no block is lost**: after every run, all live blocks are those of the slots and of the
pending entry exactly when no write of the run faulted behind a pending entry; and unloading then
leaves no block exactly when, besides, the pending entry has none. -/
theorem no_block_lost_iff {acts : List (Handle × Call)} {outs : List Reply}
    (hrun : (deviceMachine k).Run (fun _ a => a.2.Valid k) .init acts outs s) :
    ((∀ b, s.driver.heap.Live b → b ∈ s.driver.dev.entries.filterMap (·.block?)) ↔
      (deviceMachine k).Run (KeepsBlocks k) .init acts outs s) ∧
    ((∃ h, aesdCleanupModule s.driver = some h ∧ ∀ b, ¬ h.Live b) ↔
      (deviceMachine k).Run (KeepsBlocks k) .init acts outs s ∧
        s.driver.dev.aesdEntry.block? = none) := by
  have hinv : (∃ v, s.Represents k v) ∧
      ((∀ b, ¬ s.driver.Lost b) ↔ (deviceMachine k).Run (KeepsBlocks k) .init acts outs s) := by
    induction hrun with
    | nil =>
      refine ⟨⟨.init, System.represents_init⟩, fun _ => .nil, fun _ b hb => ?_⟩
      exact hb.1 rfl
    | @snoc acts outs s a s' o hrun hvalid hstep ih =>
      obtain ⟨⟨v, hv⟩, hiff⟩ := ih
      obtain ⟨t, ht, hrep, -⟩ := step_refines hv a.1 hvalid
      obtain ⟨rfl, -⟩ := Prod.mk.inj (Option.some.inj (ht.symm.trans hstep))
      refine ⟨⟨_, hrep⟩, ?_⟩
      rw [step_lost_iff hv hvalid hstep, hiff, Machine.Run.concat_iff]
      constructor
      · rintro ⟨hkept, hkeeps⟩
        exact ⟨s, hkept, hkeeps, hstep⟩
      · rintro ⟨u, hkept, hkeeps, -⟩
        obtain rfl := hrun.state_unique hkept
        exact ⟨hkept, hkeeps⟩
  obtain ⟨⟨v, hv⟩, hiff⟩ := hinv
  have hlost : (∀ b, s.driver.heap.Live b → b ∈ s.driver.dev.entries.filterMap (·.block?)) ↔
      ∀ b, ¬ s.driver.Lost b := by
    simp only [Driver.Lost, not_and, not_not]
  obtain ⟨h', hclean, hlive⟩ := hv.driver.cleanup_live_iff
  refine ⟨hlost.trans hiff, ?_⟩
  rw [← hiff]
  simp only [hclean, Option.some.injEq, exists_eq_left', hlive, not_or]
  constructor
  · intro h
    exact ⟨fun b => (h b).1, Option.eq_none_iff_forall_ne_some.2 fun b => (h b).2⟩
  · rintro ⟨h, hnull⟩ b
    exact ⟨h b, by simp [hnull]⟩

theorem no_block_lost_iff_faults : ∃ s : System, s.Reachable .x86 ∧
    (∀ b, s.driver.heap.Live b → b ∈ s.driver.dev.entries.filterMap (·.block?)) ∧
    ¬ ∃ h, aesdCleanupModule s.driver = some h ∧ ∀ b, ¬ h.Live b := by
  set acts : List (Handle × Call) := [(0, .write [97] ⟨false, true, 1⟩),
    (0, .write [98, 10] ⟨false, true, 0⟩), (1, .write [99] ⟨false, true, 1⟩)]
  obtain ⟨⟨s, outs⟩, hexec, hpend⟩ := Option.map_eq_some_iff.1
    (show ((deviceMachine .x86).execGuarded (KeepsBlocks .x86) .init acts).map
      (fun r => r.1.driver.dev.aesdEntry.block?) = some (some 2) by decide +kernel)
  have hkept := Machine.Run.of_execGuarded hexec
  have hrun : (deviceMachine .x86).Run (fun _ a => a.2.Valid .x86) .init acts outs s :=
    hkept.mono fun _ _ h => h.1
  obtain ⟨hlive, hclean⟩ := no_block_lost_iff hrun
  refine ⟨s, ⟨_, _, hrun⟩, hlive.2 hkept, fun h => ?_⟩
  have hnull := (hclean.1 h).2
  simp [hnull] at hpend

/-- The copy faults behind a pending byte, and the new block is lost. -/
theorem block_lost_by_fault : ¬ ∀ s : System, s.Reachable .x86 →
    (∀ b, s.driver.heap.Live b → b ∈ s.driver.dev.entries.filterMap (·.block?)) ∧
      ∃ h, aesdCleanupModule s.driver = some h ∧ ∀ b, ¬ h.Live b := by
  intro h
  set acts : List (Handle × Call) :=
    [(0, .write [97] ⟨false, true, 0⟩), (0, .write [98] ⟨false, true, 1⟩)]
  obtain ⟨s, hs⟩ := Option.isSome_iff_exists.1
    (show (System.run .x86 acts).isSome by decide +kernel)
  have hlost : (System.run .x86 acts).map (fun s => (decide (s.driver.heap.Live 1),
      s.driver.dev.entries.filterMap (·.block?))) = some (true, [0]) := by decide +kernel
  rw [hs, Option.map_some, Option.some.injEq, Prod.mk.injEq, decide_eq_true_iff] at hlost
  have hmem := (h s (System.Reachable.of_run hs)).1 1 hlost.1
  rw [hlost.2] at hmem
  exact absurd hmem (by decide)

end AesdChar
