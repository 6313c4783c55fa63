import AesdChar.Driver.Leaks

/-!
# Loading and unloading the module

`aesd_init_module`, `aesd_setup_cdev` and `aesd_cleanup_module` with what they take from the kernel: a
device number region, registrations of the character device and, through the operations, kmalloc memory.
The kernel outlives the module, so a run is any number of loads, each with calls in it, and unloads.

The ledger of a run (`ledger`): the region is held exactly while the module is loaded. `aesd_init_module`
registers the device twice and drops the first result, `aesd_cleanup_module` takes one registration back:
each load whose first registration succeeded leaves one for ever, whether the load succeeded or not. And
the kmalloc blocks that are left after an unload are those of the writes that faulted behind a pending
entry and those that were pending when the module was unloaded, block by block.
-/

namespace AesdChar
namespace Loading
open BlockHeap Lines

/-- What `alloc_chrdev_region` and the two calls of `cdev_add` return: 0 or a negative error. -/
structure LoadEnv where
  region : ℤ
  cdev : ℤ
  cdevAgain : ℤ
  deriving DecidableEq, Repr

/-- What the kernel keeps: its kmalloc memory, the regions that are reserved and the registrations of the
device that were not taken back; `aesd_device` while the module is loaded, and its open handles. -/
structure Kernel where
  heap : Heap UInt8
  regions : ℕ
  cdevs : ℕ
  device : Option AesdDev
  fPos : Handle → ℤ

def Kernel.boot : Kernel := ⟨.empty, 0, 0, none, fun _ => 0⟩

/-- `aesd_device` with zeros, a fresh ring and no pending entry. The zeroed mutex is free. -/
def aesdDevice : AesdDev := ⟨aesdCircularBufferInit, ⟨none, 0⟩, false⟩

/-- `aesd_setup_cdev`, when `cdev_add` returns `err` -/
def aesdSetupCdev (s : Kernel) (err : ℤ) : ℤ × Kernel :=
  (err, if err = 0 then { s with cdevs := s.cdevs + 1 } else s)

/-- `aesd_init_module` -/
def aesdInitModule (s : Kernel) (env : LoadEnv) : ℤ × Kernel :=
  if env.region < 0 then (env.region, s)
  else
    let s := { s with regions := s.regions + 1, device := some aesdDevice }
    -- the result of the first call is not looked at
    let s := (aesdSetupCdev s env.cdev).2
    let r := aesdSetupCdev s env.cdevAgain
    if r.1 ≠ 0 then (r.1, { r.2 with regions := r.2.regions - 1 })
    else r

/-- Loading: a module whose init function fails is gone again. -/
def insmod (s : Kernel) (env : LoadEnv) : Kernel :=
  let r := aesdInitModule { s with fPos := fun _ => 0 } env
  if r.1 < 0 then { r.2 with device := none } else r.2

/-- `aesd_cleanup_module` -/
def aesdCleanupModule (s : Kernel) (dev : AesdDev) : Option Kernel :=
  let s := { s with cdevs := s.cdevs - 1 }
  (AesdChar.aesdCleanupModule ⟨s.heap, dev⟩).map fun h => { s with heap := h, regions := s.regions - 1 }

/-- The module is loaded, unloaded or used. -/
inductive Event
  | insmod (env : LoadEnv)
  | rmmod
  | call (handle : Handle) (c : Call)

/-- What the kernel documents of its results, and the VFS of the arguments. -/
def Event.Valid (k : KernelLimits) : Event → Prop
  | .insmod env => env.region ≤ 0 ∧ env.cdev ≤ 0 ∧ env.cdevAgain ≤ 0
  | .rmmod => True
  | .call _ c => c.Valid k

instance (k : KernelLimits) : (e : Event) → Decidable (e.Valid k)
  | .insmod _ => inferInstanceAs (Decidable (_ ∧ _ ∧ _))
  | .rmmod => inferInstanceAs (Decidable True)
  | .call _ c => inferInstanceAs (Decidable (c.Valid k))

/-- The driver with its handles, as long as the module is loaded. -/
def Kernel.system (s : Kernel) (dev : AesdDev) : System := ⟨⟨s.heap, dev⟩, s.fPos⟩

/-- The module is loaded once, and used and unloaded when it is loaded. -/
def step (k : KernelLimits) (s : Kernel) : Event → Option (Kernel × Option Reply)
  | .insmod env =>
    match s.device with
    | none => some (insmod s env, none)
    | some _ => none
  | .rmmod => s.device.bind fun dev =>
    (aesdCleanupModule s dev).map fun s' => ({ s' with device := none }, none)
  | .call handle c => s.device.bind fun dev =>
    ((s.system dev).step k (handle, c)).map fun r =>
      ({ s with heap := r.1.driver.heap, device := some r.1.driver.dev, fPos := r.1.fPos }, some r.2)

def moduleMachine (k : KernelLimits) : Machine Kernel Event (Option Reply) := ⟨step k⟩

/-! ### The ledger -/

/-- The block that an event leaves behind for ever: the new one when a write faults behind a pending
entry, the pending one when the module is unloaded. -/
def leakedBy (k : KernelLimits) (s : Kernel) (e : Event) : List ℕ :=
  match s.device, e with
  | some dev, .call _ (.write buf env) =>
    if Driver.LosesBlock k ⟨s.heap, dev⟩ buf env then [s.heap.next] else []
  | some dev, .rmmod => dev.aesdEntry.block?.toList
  | _, _ => []

/-- The blocks left behind in a run. -/
def leaked (k : KernelLimits) (acts : List Event) : List ℕ :=
  (moduleMachine k).collect (leakedBy k) .boot acts

/-- The load gets its region and registers the device at the first try. -/
def Event.RegistersTwice : Event → Bool
  | .insmod env => 0 ≤ env.region ∧ env.cdev = 0
  | _ => false

/-- The blocks that the module accounts for. -/
def Kernel.owned (s : Kernel) : List ℕ :=
  match s.device with
  | some dev => dev.entries.filterMap (·.block?)
  | none => []

/-- 1 while the module is loaded. -/
def Kernel.loaded (s : Kernel) : ℕ := if s.device.isSome then 1 else 0

variable {k : KernelLimits} {s s' : Kernel} {acts : List Event} {outs : List (Option Reply)}
  {dev : AesdDev} {h : Heap UInt8}

theorem represents_aesdDevice (h : Heap UInt8) : Represents k ⟨h, aesdDevice⟩ .init where
  lock := rfl
  outOffs := rfl
  holds :=
    { ring := ringInv_init
      stored := by
        have : aesdCircularBufferInit.stored = [] := by decide
        simp [aesdDevice, this, View.init, LineLog.empty]
      pending := Owns.null
      nodup := by
        show aesdDevice.blocks.Nodup
        decide }

/-- What a load can come to: no region, a second registration that fails, or a fresh device. -/
theorem insmod_cases {env : LoadEnv} (hvalid : Event.Valid k (.insmod env)) (hnone : s.device = none) :
    (env.region < 0 ∧ insmod s env = { s with fPos := fun _ => 0 }) ∨
    (0 ≤ env.region ∧ insmod s env = { s with
      fPos := fun _ => 0, cdevs := s.cdevs + if env.cdev = 0 then 1 else 0 }) ∨
    (0 ≤ env.region ∧ insmod s env = { s with
      fPos := fun _ => 0, cdevs := s.cdevs + (if env.cdev = 0 then 1 else 0) + 1,
      regions := s.regions + 1, device := some aesdDevice }) := by
  obtain ⟨heap, regions, cdevs, device, fPos⟩ := s
  obtain rfl : device = none := hnone
  obtain ⟨-, -, hagain⟩ := hvalid
  by_cases hregion : env.region < 0
  · exact Or.inl ⟨hregion, by simp [insmod, aesdInitModule, hregion]⟩
  refine Or.inr ?_
  simp only [insmod, aesdInitModule, aesdSetupCdev, hregion, if_false]
  by_cases hzero : env.cdevAgain = 0
  · refine Or.inr ⟨not_lt.1 hregion, ?_⟩
    split_ifs <;> simp_all
  · have hneg : env.cdevAgain < 0 := by omega
    refine Or.inl ⟨not_lt.1 hregion, ?_⟩
    split_ifs <;> simp_all

/-- The books of a run: `n` loads that registered the device twice, and the blocks left behind. -/
structure Books (k : KernelLimits) (n : ℕ) (lost : List ℕ) (s : Kernel) : Prop where
  regions : s.regions = s.loaded
  cdevs : s.cdevs = n + s.loaded
  nodup : (lost ++ s.owned).Nodup
  live : ∀ b, s.heap.Live b ↔ b ∈ lost ++ s.owned
  represents : ∀ dev, s.device = some dev → ∃ v, (s.system dev).Represents k v

theorem books_boot : Books k 0 [] .boot where
  regions := rfl
  cdevs := rfl
  nodup := List.nodup_nil
  live b := by simp [Kernel.boot, Heap.empty, Heap.Live, Kernel.owned]
  represents := by rintro dev ⟨⟩

variable {n : ℕ} {lost : List ℕ}

theorem mem_entries_live {d : Driver} {v : View} (hr : Represents k d v) {b : ℕ}
    (hb : b ∈ d.dev.entries.filterMap (·.block?)) : d.heap.Live b := by
  obtain ⟨e, he, hptr⟩ := List.mem_filterMap.1 hb
  have hstored := hr.entries_stored e he
  rw [AesdBufferEntry.Stored, AesdBufferEntry.block?_eq_some.1 hptr] at hstored
  obtain ⟨cells, hcells, -⟩ := hstored
  simp [Heap.Live, hcells]

theorem books_of_lost {v : View} (hdev : s.device = some dev) (hv : (s.system dev).Represents k v)
    (hregions : s.regions = 1) (hcdevs : s.cdevs = n + 1) (hnodup : lost.Nodup)
    (hlost : ∀ b, Driver.Lost ⟨s.heap, dev⟩ b ↔ b ∈ lost) : Books k n lost s := by
  have howned : s.owned = dev.entries.filterMap (·.block?) := by rw [Kernel.owned, hdev]
  have hloaded : s.loaded = 1 := by rw [Kernel.loaded, hdev]; rfl
  have hr : Represents k ⟨s.heap, dev⟩ v := hv.driver
  refine ⟨hregions.trans hloaded.symm, hloaded ▸ hcdevs, ?_, fun b => ?_, ?_⟩
  · rw [howned]
    refine List.nodup_append.2 ⟨hnodup, hr.blocks_nodup, ?_⟩
    rintro b hb c hc rfl
    exact ((hlost b).2 hb).2 hc
  · rw [howned, List.mem_append, ← hlost]
    constructor
    · intro hlive
      by_cases hb : b ∈ dev.entries.filterMap (·.block?)
      · exact Or.inr hb
      · exact Or.inl ⟨hlive, hb⟩
    · rintro (hb | hb)
      · exact hb.1
      · exact mem_entries_live hr hb
  · intro dev' hdev'
    obtain rfl := Option.some.inj (hdev.symm.trans hdev')
    exact ⟨v, hv⟩

theorem Books.lost_iff (hb : Books k n lost s) (hdev : s.device = some dev) (b : ℕ) :
    Driver.Lost ⟨s.heap, dev⟩ b ↔ b ∈ lost := by
  have howned : s.owned = dev.entries.filterMap (·.block?) := by rw [Kernel.owned, hdev]
  have hlive := hb.live b
  have hdisj := (List.nodup_append.1 hb.nodup).2.2 b
  rw [howned, List.mem_append] at hlive
  rw [howned] at hdisj
  constructor
  · rintro ⟨hb', hmem⟩
    exact (hlive.1 hb').resolve_right hmem
  · intro hmem
    exact ⟨hlive.2 (Or.inl hmem), fun h => hdisj hmem b h rfl⟩

theorem Books.insmod {env : LoadEnv} (hb : Books k n lost s) (hvalid : Event.Valid k (.insmod env))
    (hnone : s.device = none) :
    Books k (n + if Event.RegistersTwice (.insmod env) then 1 else 0) lost (insmod s env) := by
  have howned : s.owned = [] := by rw [Kernel.owned, hnone]
  have hloaded : s.loaded = 0 := by rw [Kernel.loaded, hnone]; rfl
  obtain ⟨hregions, hcdevs, hnodup, hlive, -⟩ := hb
  rw [howned, List.append_nil] at hnodup hlive
  rw [hloaded] at hregions hcdevs
  have hunloaded : ∀ t : Kernel, t.device = none → t.heap = s.heap → t.regions = 0 → ∀ m, t.cdevs = m →
      Books k m lost t := by
    intro t ht hheap hr m hm
    have ht' : t.owned = [] := by rw [Kernel.owned, ht]
    have hl : t.loaded = 0 := by rw [Kernel.loaded, ht]; rfl
    exact ⟨hr.trans hl.symm, by omega, by simpa [ht'] using hnodup, by simpa [ht', hheap] using hlive,
      by simp [ht]⟩
  rcases insmod_cases hvalid hnone with ⟨hregion, heq⟩ | ⟨hregion, heq⟩ | ⟨hregion, heq⟩
  · rw [heq]
    refine hunloaded _ ?_ ?_ ?_ _ ?_
    · exact hnone
    · rfl
    · exact hregions
    · simpa [Event.RegistersTwice, not_le.2 hregion] using hcdevs
  · rw [heq]
    refine hunloaded _ ?_ ?_ ?_ _ ?_
    · exact hnone
    · rfl
    · exact hregions
    · simp [Event.RegistersTwice, hregion, hcdevs]
  · rw [heq]
    refine books_of_lost rfl ⟨represents_aesdDevice _, ?_⟩ ?_ ?_ hnodup ?_
    · exact fun _ => ⟨le_refl 0, Int.pow_pos (by decide)⟩
    · simp [hregions]
    · simp [Event.RegistersTwice, hregion, hcdevs]
    · intro b
      have hentries : aesdDevice.entries.filterMap (·.block?) = [] := by decide
      rw [← hlive b, Driver.Lost, hentries]
      exact and_iff_left List.not_mem_nil

theorem Books.rmmod (hb : Books k n lost s) (hdev : s.device = some dev) : ∃ s',
    aesdCleanupModule s dev = some s' ∧
      Books k n (lost ++ dev.aesdEntry.block?.toList) { s' with device := none } := by
  obtain ⟨v, hv⟩ := hb.represents dev hdev
  have hr : Represents k ⟨s.heap, dev⟩ v := hv.driver
  have hloaded : s.loaded = 1 := by rw [Kernel.loaded, hdev]; rfl
  have howned : s.owned = dev.entries.filterMap (·.block?) := by rw [Kernel.owned, hdev]
  have hlast : [dev.aesdEntry].filterMap (·.block?) = dev.aesdEntry.block?.toList := by
    cases h : dev.aesdEntry.block? <;> simp [h]
  obtain ⟨h', hclean, hlive⟩ := hr.cleanup_live_iff
  have hregions := hb.regions
  have hcdevs := hb.cdevs
  rw [hloaded] at hregions hcdevs
  refine ⟨_, by rw [aesdCleanupModule, hclean]; rfl, ?_, ?_, ?_, fun b => ?_, by rintro dev' ⟨⟩⟩
  · show s.regions - 1 = 0
    omega
  · show s.cdevs - 1 = n + 0
    omega
  · show ((lost ++ dev.aesdEntry.block?.toList) ++ []).Nodup
    rw [List.append_nil]
    have hnodup := hb.nodup
    rw [howned, AesdDev.entries, List.filterMap_append, hlast] at hnodup
    exact hnodup.sublist ((List.sublist_append_right _ _).append_left _)
  · show h'.Live b ↔ b ∈ (lost ++ dev.aesdEntry.block?.toList) ++ []
    rw [hlive, hb.lost_iff hdev, List.append_nil, List.mem_append, Option.mem_toList]

theorem call_lost {handle : Handle} {c : Call} {v : View} {t : System} {r : Reply}
    (hdev : s.device = some dev) (hv : (s.system dev).Represents k v) (hvalid : c.Valid k)
    (hstep : (s.system dev).step k (handle, c) = some (t, r)) (b : ℕ) :
    t.driver.Lost b ↔ Driver.Lost ⟨s.heap, dev⟩ b ∨ b ∈ leakedBy k s (.call handle c) := by
  have hother : (∀ buf env, c ≠ .write buf env) → leakedBy k s (.call handle c) = [] →
      (t.driver.Lost b ↔ Driver.Lost ⟨s.heap, dev⟩ b ∨ b ∈ leakedBy k s (.call handle c)) := by
    intro hc hnil
    rw [step_driver_eq hv hc hstep, hnil]
    simp [Kernel.system]
  cases c with
  | write buf env =>
    obtain ⟨⟨ret, d'⟩, hwrite, heq⟩ := Option.map_eq_some_iff.1 hstep
    obtain ⟨rfl, -⟩ := Prod.mk.inj heq
    have hlost : d'.Lost b ↔ Driver.Lost ⟨s.heap, dev⟩ b ∨
        (Driver.LosesBlock k ⟨s.heap, dev⟩ buf env ∧ b = s.heap.next) :=
      aesdWrite_lost hv.driver hvalid hwrite b
    refine hlost.trans (or_congr_right ?_)
    simp only [leakedBy, hdev]
    split_ifs with hloses
    · simp [hloses]
    · simp [hloses]
  | _ => exact hother (by simp) (by simp [leakedBy, hdev])

theorem Books.call {c : Call} (hb : Books k n lost s) (handle : Handle) (hvalid : c.Valid k)
    (hdev : s.device = some dev) : ∃ t r, (s.system dev).step k (handle, c) = some (t, r) ∧
      Books k n (lost ++ leakedBy k s (.call handle c))
        { s with heap := t.driver.heap, device := some t.driver.dev, fPos := t.fPos } := by
  obtain ⟨v, hv⟩ := hb.represents dev hdev
  obtain ⟨t, hstep, hrep, -⟩ := step_refines hv handle hvalid
  have hloaded : s.loaded = 1 := by rw [Kernel.loaded, hdev]; rfl
  have hregions := hb.regions
  have hcdevs := hb.cdevs
  rw [hloaded] at hregions hcdevs
  refine ⟨t, _, hstep, books_of_lost rfl hrep hregions hcdevs ?_ fun b => ?_⟩
  · refine List.nodup_append.2 ⟨(List.nodup_append.1 hb.nodup).1, ?_, ?_⟩
    · unfold leakedBy
      split
      · split_ifs <;> simp
      · exact Option.toList_nodup _
      · exact List.nodup_nil
    · -- a new block is none of those that were lost before
      rintro b hmem c hleak rfl
      have hlive := ((hb.lost_iff hdev b).2 hmem).1
      cases c with
      | write buf env =>
        simp only [leakedBy, hdev] at hleak
        split_ifs at hleak
        · rw [List.mem_singleton.1 hleak] at hlive
          exact hlive (s.heap.fresh _ (le_refl _))
        · cases hleak
      | _ => simp [leakedBy, hdev] at hleak
  · rw [List.mem_append, ← hb.lost_iff hdev]
    exact call_lost hdev hv hvalid hstep b

/-! ### Runs -/

theorem Books.step {e : Event} {s' : Kernel} {o : Option Reply} (hb : Books k n lost s) (he : e.Valid k)
    (hstep : step k s e = some (s', o)) :
    Books k (n + if e.RegistersTwice then 1 else 0) (lost ++ leakedBy k s e) s' := by
  cases hdev : s.device with
  | none =>
    cases e with
    | insmod env =>
      simp only [Loading.step, hdev, Option.some.injEq, Prod.mk.injEq] at hstep
      obtain ⟨rfl, -⟩ := hstep
      simpa [leakedBy, hdev] using hb.insmod he hdev
    | rmmod | call handle c => simp [Loading.step, hdev] at hstep
  | some dev =>
    cases e with
    | insmod env => simp [Loading.step, hdev] at hstep
    | rmmod =>
      obtain ⟨s₁, hclean, hb'⟩ := hb.rmmod hdev
      simp only [Loading.step, hdev, Option.bind_some, hclean, Option.map_some, Option.some.injEq,
        Prod.mk.injEq] at hstep
      obtain ⟨rfl, -⟩ := hstep
      simpa [leakedBy, hdev, Event.RegistersTwice] using hb'
    | call handle c =>
      obtain ⟨t, r, ht, hb'⟩ := hb.call handle he hdev
      simp only [Loading.step, hdev, Option.bind_some, ht, Option.map_some, Option.some.injEq,
        Prod.mk.injEq] at hstep
      obtain ⟨rfl, -⟩ := hstep
      exact hb'

theorem run_books (hrun : (moduleMachine k).Run (fun _ e => e.Valid k) .boot acts outs s) :
    Books k (acts.countP Event.RegistersTwice) (leaked k acts) s := by
  induction hrun with
  | nil => exact books_boot
  | @snoc acts outs s e s' o hrun he hstep ih =>
    have hleaked : leaked k (acts ++ [e]) = leaked k acts ++ leakedBy k s e := hrun.collect_concat _ hstep
    rw [hleaked, List.countP_append, List.countP_singleton]
    exact ih.step he hstep

/-- **The ledger of the module**, after any loads, calls and unloads: the region is held exactly while the
module is loaded; besides the registration in use there is one for every load that registered the device
twice; and the live kmalloc blocks are, each once, those of the entries and those left behind by a fault
behind a pending entry or by an unload with a pending entry. No event that the kernel lets happen has no
meaning. -/
theorem ledger (hrun : (moduleMachine k).Run (fun _ e => e.Valid k) .boot acts outs s) :
    s.regions = s.loaded ∧ s.cdevs = acts.countP Event.RegistersTwice + s.loaded ∧
      (leaked k acts ++ s.owned).Nodup ∧ (∀ b, s.heap.Live b ↔ b ∈ leaked k acts ++ s.owned) ∧
      (s.device = none → ∀ env, (step k s (.insmod env)).isSome) ∧
      ∀ dev, s.device = some dev → (step k s .rmmod).isSome ∧
        ∀ handle c, c.Valid k → (step k s (.call handle c)).isSome := by
  have hb := run_books hrun
  refine ⟨hb.regions, hb.cdevs, hb.nodup, hb.live, fun hnone env => ?_, fun dev hdev => ⟨?_, ?_⟩⟩
  · simp [step, hnone]
  · obtain ⟨s', hclean, -⟩ := hb.rmmod hdev
    simp [step, hdev, hclean]
  · intro handle c hvalid
    obtain ⟨t, r, ht, -⟩ := hb.call handle hvalid hdev
    simp [step, hdev, ht]

theorem ledger_two_loads : ∃ s, (moduleMachine .x86).Reachable (fun _ e => e.Valid .x86) .boot s ∧
    s.cdevs = 3 + s.loaded ∧ ∀ b, s.heap.Live b ↔ b ∈ [1, 0] ++ s.owned := by
  set acts : List Event := [.insmod ⟨0, 0, 0⟩, .call 0 (.write [97] ⟨false, true, 0⟩),
    .call 0 (.write [98] ⟨false, true, 1⟩), .rmmod, .insmod ⟨0, 0, 0⟩,
    .call 0 (.write [] ⟨false, false, 0⟩), .rmmod, .insmod ⟨0, 0, -12⟩]
  obtain ⟨⟨s, outs⟩, hexec⟩ := Option.isSome_iff_exists.1
    (show ((moduleMachine .x86).execGuarded (fun _ e => e.Valid .x86) .boot acts).isSome by
      decide +kernel)
  have hrun := Machine.Run.of_execGuarded hexec
  obtain ⟨-, hcdevs, -, hlive, -⟩ := ledger hrun
  have htwice : acts.countP Event.RegistersTwice = 3 := by decide
  have hleaked : leaked .x86 acts = [1, 0] := by decide +kernel
  rw [htwice] at hcdevs
  rw [hleaked] at hlive
  exact ⟨s, ⟨acts, outs, hrun⟩, hcdevs, hlive⟩

end Loading

end AesdChar
