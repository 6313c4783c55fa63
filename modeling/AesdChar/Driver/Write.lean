import AesdChar.Driver.Ownership

/-!
# What one write does

`aesd_write` has four outcomes, decided by the lock, by `kmalloc` and by the copy from user space:
interrupted (`aesdWrite_interrupted`), refused (`aesdWrite_refused`), faulted (`aesdWrite_fault`) and
taken (`aesdWrite_taken`). The first two leave the driver as it was. A fault leaves what the entries
own alone, but the new block stays allocated. A write that is taken puts the pending bytes followed
by the written ones into a new block, frees the old block and sends the entry.

The size computed in `int` is exact whenever `kmalloc` grants it: a sum past `2^31` comes out
negative and reaches `kmalloc` as a huge request (`request_le_iff`). A write of no bytes with none
pending asks for 0 bytes, and its new block is none (`Driver.alloc`).
-/

namespace AesdChar
open CInt BlockHeap Lines

/-- The size that `aesd_write` asks `kmalloc` for. -/
def Driver.kmallocRequest (d : Driver) (buf : List UInt8) : ℕ :=
  match d.dev.aesdEntry.buffptr with
  | some _ => toSize (toInt (buf.length + d.dev.aesdEntry.size))
  | none => buf.length

/-- `kmalloc` does not return NULL to the write. -/
def Driver.KmallocGrants (k : KernelLimits) (d : Driver) (buf : List UInt8) (env : WriteEnv) : Prop :=
  env.granted = true ∧ d.kmallocRequest buf ≤ k.kmallocMaxSize ∨ d.kmallocRequest buf = 0

/-- What `kmalloc` returns to the write. One that is interrupted does not get that far. -/
def Driver.kmallocResult (k : KernelLimits) (d : Driver) (buf : List UInt8) (env : WriteEnv) : Ptr :=
  if env.interrupted then none else (kmalloc d.heap k (d.kmallocRequest buf) env.granted).1

/-- No lock, `kmalloc` or `copy_from_user` failure occurs in the write. -/
def Driver.WriteSucceeds (k : KernelLimits) (d : Driver) (buf : List UInt8) (env : WriteEnv) : Prop :=
  env.interrupted = false ∧ d.KmallocGrants k buf env ∧ min env.uncopied buf.length = 0

instance (k : KernelLimits) (d : Driver) (buf : List UInt8) (env : WriteEnv) :
    Decidable (d.KmallocGrants k buf env) := inferInstanceAs (Decidable (_ ∨ _))

instance (k : KernelLimits) (d : Driver) (buf : List UInt8) (env : WriteEnv) :
    Decidable (d.WriteSucceeds k buf env) := inferInstanceAs (Decidable (_ ∧ _))

variable {k : KernelLimits} {d : Driver} {buf : List UInt8} {env : WriteEnv}
  {cmds : List (List UInt8)} {pend : List UInt8}

theorem KernelLimits.maxRwCount_lt (k : KernelLimits) : k.maxRwCount < 2 ^ 31 := by
  have := k.pageSize_pos
  simp only [maxRwCount]
  omega

theorem Driver.KmallocGrants.le (h : d.KmallocGrants k buf env) :
    d.kmallocRequest buf ≤ k.kmallocMaxSize := by
  rcases h with ⟨-, hle⟩ | hzero
  · exact hle
  · omega

theorem request_le_iff (ho : Owns k d.heap d.dev.aesdEntry pend) (hlen : buf.length ≤ k.maxRwCount) :
    d.kmallocRequest buf ≤ k.kmallocMaxSize ↔ pend.length + buf.length ≤ k.kmallocMaxSize := by
  have hpend := ho.length_le
  have hmax := k.kmallocMaxSize_le
  have hrw := k.maxRwCount_lt
  cases ha : d.dev.aesdEntry.buffptr with
  | none => simp [Driver.kmallocRequest, ha, ho.nil_of_null ha]
  | some a =>
    simp only [Driver.kmallocRequest, ha, ho.1]
    rcases Nat.lt_or_ge (pend.length + buf.length) (2 ^ 31) with hlt | hge
    · rw [toInt_of_range (by omega) (by omega), toSize_of_range (by omega) (by omega)]
      omega
    · have hneg := toInt_of_overflow (x := (buf.length : ℤ) + (pend.length : ℕ)) (by omega) (by omega)
      have hhuge := toSize_of_neg (x := toInt ((buf.length : ℤ) + (pend.length : ℕ))) (by omega)
        (by omega)
      omega

theorem request_eq (ho : Owns k d.heap d.dev.aesdEntry pend)
    (hle : pend.length + buf.length ≤ k.kmallocMaxSize) :
    d.kmallocRequest buf = pend.length + buf.length := by
  have hmax := k.kmallocMaxSize_le
  cases ha : d.dev.aesdEntry.buffptr with
  | none => simp [Driver.kmallocRequest, ha, ho.nil_of_null ha]
  | some a =>
    simp only [Driver.kmallocRequest, ha, ho.1]
    rw [toInt_of_range (by omega) (by omega), toSize_of_range (by omega) (by omega)]
    omega

theorem request_eq_zero_iff (ho : Owns k d.heap d.dev.aesdEntry pend)
    (hlen : buf.length ≤ k.maxRwCount) :
    d.kmallocRequest buf = 0 ↔ pend.length + buf.length = 0 := by
  have hle := request_le_iff ho hlen
  constructor
  · intro hzero
    have hfits : d.kmallocRequest buf ≤ k.kmallocMaxSize := by omega
    have heq := request_eq ho (hle.1 hfits)
    omega
  · intro hzero
    have hfits : pend.length + buf.length ≤ k.kmallocMaxSize := by omega
    have heq := request_eq ho hfits
    omega

/-! ### The kernel services on blocks -/

section Services
variable {h : Heap UInt8} {a src : Address} {n size : ℕ} {xs : List UInt8}

theorem kmalloc_of_granted {granted : Bool}
    (hg : granted = true ∧ size ≤ k.kmallocMaxSize ∨ size = 0) :
    kmalloc h k size granted = (some (h.allocAt size).1, (h.allocAt size).2) := if_pos hg

theorem memset_none (ha : h.HasAt a n []) (c : UInt8) :
    ∃ h', memset h a c 0 = some h' ∧ h'.HasAt a n [] ∧ Heap.AgreesOffAt a h h' := by
  obtain ⟨h', hstore, hhas, hagree⟩ := ha.store [] (by simp)
  exact ⟨h', by simpa [memset] using hstore, hhas, hagree⟩

theorem memcpy_all {m : ℕ} (ha : h.HasAt a n []) (hsrc : h.HasAt src m xs) (hroom : xs.length ≤ n) :
    ∃ h', memcpy h a src xs.length = some h' ∧ h'.HasAt a n xs ∧ Heap.AgreesOffAt a h h' := by
  obtain ⟨h', hstore, hhas, hagree⟩ := ha.store xs (by simpa using hroom)
  refine ⟨h', ?_, by simpa using hhas, hagree⟩
  rw [memcpy, hsrc.load_all, Option.bind_some]
  exact hstore

theorem copyFromUser_append (buf : List UInt8) (ha : h.HasAt a n xs)
    (hroom : xs.length + buf.length ≤ n) (uncopied : ℕ) : ∃ h' ys, copyFromUser h a xs.length buf uncopied =
        some (min uncopied buf.length, h') ∧
      h'.HasAt a n (xs ++ ys) ∧ (min uncopied buf.length = 0 → ys = buf) ∧
      Heap.AgreesOffAt a h h' := by
  set left := min uncopied buf.length
  have hleft : left ≤ buf.length := Nat.min_le_right _ _
  obtain ⟨h', hstore, hhas, hagree⟩ := ha.store
    (buf.take (buf.length - left) ++ List.replicate left 0) (by simp; omega)
  refine ⟨h', _, by simp [copyFromUser, hstore, left], hhas, ?_, hagree⟩
  intro hzero
  simp [hzero]

end Services

/-- The address that `kmalloc` gives a write that it grants, and the heap with it. -/
def Driver.alloc (d : Driver) (buf : List UInt8) : Address × Heap UInt8 :=
  d.heap.allocAt (d.dev.aesdEntry.size + buf.length)

/-- Everything is copied to the new address, and nothing else has changed. -/
structure Driver.Filled (d : Driver) (buf xs : List UInt8) (h : Heap UInt8) : Prop where
  has : h.HasAt (d.alloc buf).1 (d.dev.aesdEntry.size + buf.length) xs
  agrees : Heap.AgreesOffAt (d.alloc buf).1 (d.alloc buf).2 h

namespace Driver

theorem alloc_ne {b : ℕ} (hlive : d.heap.Live b) : (d.alloc buf).1 ≠ .block b :=
  fun heq => ((Heap.allocAt_frame d.heap _).1 b heq).1 hlive

theorem alloc_of_ne_nil (hbuf : buf.length ≠ 0) : (d.alloc buf).1 = .block d.heap.next := by
  rw [alloc, Heap.allocAt, if_neg (by omega)]
  rfl

namespace Filled
variable {h : Heap UInt8} {xs : List UInt8} {c : ℕ}

theorem freed (hf : d.Filled buf xs h) : h.freed = d.heap.freed :=
  hf.agrees.freed.trans (Heap.allocAt_frame d.heap _).2.2.1

theorem lt_next_iff (hf : d.Filled buf xs h) :
    c < h.next ↔ c < d.heap.next ∨ (d.alloc buf).1 = .block c := by
  rw [hf.agrees.next]
  exact (Heap.allocAt_frame d.heap _).2.2.2 c

theorem block (hf : d.Filled buf xs h) (hc : (d.alloc buf).1 ≠ .block c) :
    h.block c = d.heap.block c :=
  (hf.agrees.block c hc).trans ((Heap.allocAt_frame d.heap _).2.1 c hc)

theorem live (hf : d.Filled buf xs h) (hlive : d.heap.Live c) : h.Live c := by
  rw [Heap.Live, hf.block (alloc_ne hlive)]
  exact hlive

end Filled

end Driver

theorem kmallocResult_of_grants (ho : Owns k d.heap d.dev.aesdEntry pend)
    (hlen : buf.length ≤ k.maxRwCount) (hint : env.interrupted = false)
    (hgrants : d.KmallocGrants k buf env) : d.kmallocResult k buf env = some (d.alloc buf).1 := by
  have hreq := request_eq ho ((request_le_iff ho hlen).1 hgrants.le)
  rw [Driver.kmallocResult, if_neg (by simp [hint]), kmalloc_of_granted hgrants, hreq, Driver.alloc, ho.1]

theorem kmallocResult_of_refused (hgrants : ¬ d.KmallocGrants k buf env) :
    d.kmallocResult k buf env = none := by
  have hkm : kmalloc d.heap k (d.kmallocRequest buf) env.granted = (none, d.heap) := if_neg hgrants
  rw [Driver.kmallocResult, hkm, ite_self]

/-! ### The four outcomes -/

theorem aesdWrite_interrupted (hint : env.interrupted = true) :
    aesdWrite k d buf env = some (-ERESTARTSYS, d) := by
  simp [aesdWrite, mutexLockInterruptible, hint]

theorem aesdWrite_refused (hlock : d.dev.lock = false) (ho : Owns k d.heap d.dev.aesdEntry pend)
    (hint : env.interrupted = false) (hno : ¬ d.KmallocGrants k buf env) :
    aesdWrite k d buf env = some (-EINVAL, d) := by
  obtain ⟨heap, buffer, ⟨buffptr, size⟩, lock⟩ := d
  obtain ⟨hsize, hptr⟩ := ho
  simp only at hlock hsize hptr
  subst hlock
  cases buffptr with
  | none =>
    simp only at hptr
    subst hptr
    simp only [List.length_nil] at hsize
    subst hsize
    have hkm : kmalloc heap k buf.length env.granted = (none, heap) := if_neg hno
    simp [aesdWrite, mutexLockInterruptible, hint, hkm, mutexUnlock]
  | some a =>
    have hkm : kmalloc heap k (toSize (toInt (buf.length + size))) env.granted = (none, heap) :=
      if_neg hno
    simp [aesdWrite, mutexLockInterruptible, hint, hkm, mutexUnlock]

/-- After `kmalloc` granted the request, the bytes of the pending entry are brought to the new address
and those of the user are put behind them, in either branch. -/
theorem fill_block (buf : List UInt8) (ho : Owns k d.heap d.dev.aesdEntry pend) (c : UInt8)
    (uncopied : ℕ) :
    ∃ h₂ h₃ ys, (match d.dev.aesdEntry.buffptr with
        | none => h₂ = (d.alloc buf).2
        | some a => (memset (d.alloc buf).2 (d.alloc buf).1 c 0).bind
            (fun h => memcpy h (d.alloc buf).1 a pend.length) = some h₂) ∧
      copyFromUser h₂ (d.alloc buf).1 pend.length buf uncopied =
        some (min uncopied buf.length, h₃) ∧
      d.Filled buf (pend ++ ys) h₃ ∧ (min uncopied buf.length = 0 → ys = buf) := by
  have hnew : (d.alloc buf).2.HasAt (d.alloc buf).1 (d.dev.aesdEntry.size + buf.length) [] :=
    Heap.hasAt_allocAt d.heap _
  have hsize := ho.1
  cases ha : d.dev.aesdEntry.buffptr with
  | none =>
    obtain rfl := ho.nil_of_null ha
    obtain ⟨h₃, ys, hcopy, hhas, hys, hagree⟩ := copyFromUser_append buf hnew
      (show [].length + buf.length ≤ _ by simp) uncopied
    exact ⟨_, h₃, ys, rfl, hcopy, ⟨hhas, hagree⟩, hys⟩
  | some a =>
    obtain ⟨n, -, hold⟩ := ho.has ha
    obtain ⟨h₂, hset, hempty, hagree₂⟩ := memset_none hnew c
    -- the old bytes are where they were
    have hold₂ : h₂.HasAt a n pend := hold.congr fun b hb => by
      have hlive : d.heap.Live b := ho.live (AesdBufferEntry.block?_eq_some.2 (ha.trans (by rw [hb])))
      exact Driver.Filled.block ⟨hempty, hagree₂⟩ (Driver.alloc_ne hlive)
    obtain ⟨h₃, hcpy, hpend, hagree₃⟩ := memcpy_all hempty hold₂ (by omega)
    obtain ⟨h₄, ys, hcopy, hhas, hys, hagree₄⟩ := copyFromUser_append buf hpend (by omega) uncopied
    exact ⟨h₃, h₄, ys, by simp [hset, hcpy], hcopy, ⟨hhas, (hagree₂.trans hagree₃).trans hagree₄⟩, hys⟩

theorem aesdWrite_granted (hlock : d.dev.lock = false) (ho : Owns k d.heap d.dev.aesdEntry pend)
    (hlen : buf.length ≤ k.maxRwCount) (hint : env.interrupted = false)
    (hgrants : d.KmallocGrants k buf env) :
    ∃ h₁ ys, aesdWrite k d buf env =
        (if min env.uncopied buf.length ≠ 0 then
          some (-EINVAL, ⟨h₁, { d.dev with aesdEntry := if d.dev.aesdEntry.buffptr = none
            then ⟨some (d.alloc buf).1, 0⟩ else d.dev.aesdEntry }⟩)
        else (kfree h₁ d.dev.aesdEntry.buffptr).bind fun h₂ =>
          (sendEntryToCircularBuffer h₂ { d.dev with
            aesdEntry := ⟨some (d.alloc buf).1, pend.length + buf.length⟩, lock := true }).map
            fun r => (-ENOMEM, ⟨r.1, mutexUnlock r.2⟩)) ∧
      d.Filled buf (pend ++ ys) h₁ ∧ (min env.uncopied buf.length = 0 → ys = buf) := by
  have hreq := request_eq ho ((request_le_iff ho hlen).1 hgrants.le)
  have hkm := kmalloc_of_granted (h := d.heap) hgrants
  obtain ⟨h₂, h₃, ys, hbranch, hcopy, hrest⟩ :=
    fill_block buf ho (UInt8.ofNat (d.kmallocRequest buf)) env.uncopied
  refine ⟨h₃, ys, ?_, hrest⟩
  clear hrest
  have halloc : d.heap.allocAt (d.kmallocRequest buf) = d.alloc buf := by
    rw [hreq, Driver.alloc, ho.1]
  rw [halloc] at hkm
  generalize d.alloc buf = new at hkm hbranch hcopy ⊢
  obtain ⟨heap, buffer, ⟨buffptr, size⟩, lock⟩ := d
  obtain ⟨rfl, hptr⟩ : size = pend.length ∧ _ := ho
  simp only at hlock hbranch hcopy hptr
  subst hlock
  cases buffptr with
  | none =>
    simp only at hptr hbranch
    subst hptr hbranch
    simp only [Driver.kmallocRequest] at hkm
    simp only [List.length_nil, Nat.zero_add] at hcopy ⊢
    unfold aesdWrite
    simp only [mutexLockInterruptible, hint, Option.bind_eq_bind, Option.bind_some,
      Bool.false_eq_true, if_false]
    simp only [hkm, hcopy, Option.bind_some]
    split
    · rw [if_pos trivial]
      rfl
    · rw [kfree, Option.bind_some]
      exact Option.map_eq_bind.symm
  | some a =>
    simp only [Driver.kmallocRequest] at hkm hreq hbranch
    rw [hreq] at hkm hbranch
    obtain ⟨h', hset, hcpy⟩ := Option.bind_eq_some_iff.1 hbranch
    simp only [aesdWrite, mutexLockInterruptible, hint, hreq, hkm, hset, hcpy, hcopy,
      Option.bind_eq_bind, Option.bind_some, Bool.false_eq_true, if_false, reduceCtorEq]
    split
    · rfl
    · refine Option.bind_congr fun h₂ _ => ?_
      exact Option.map_eq_bind.symm

/-- A fault while copying: the entries own what they owned, in the fresh branch through a new block
that counts for nothing. -/
theorem aesdWrite_fault (hlock : d.dev.lock = false) (ho : Owns k d.heap d.dev.aesdEntry pend)
    (hlen : buf.length ≤ k.maxRwCount) (hint : env.interrupted = false)
    (hgrants : d.KmallocGrants k buf env) (hleft : min env.uncopied buf.length ≠ 0) :
    ∃ h' ys, aesdWrite k d buf env = some (-EINVAL, ⟨h', { d.dev with
        aesdEntry := if d.dev.aesdEntry.buffptr = none then ⟨some (d.alloc buf).1, 0⟩
          else d.dev.aesdEntry }⟩) ∧
      d.Filled buf (pend ++ ys) h' := by
  obtain ⟨h', ys, hwrite, hfilled, -⟩ := aesdWrite_granted hlock ho hlen hint hgrants
  rw [if_pos hleft] at hwrite
  exact ⟨h', ys, hwrite, hfilled⟩

/-- A write that is taken: the new block holds the pending bytes followed by the written ones, the
old block is freed, and the new entry is sent. -/
theorem aesdWrite_taken (hlock : d.dev.lock = false) (hh : Holds k d.heap d.dev cmds pend)
    (hlen : buf.length ≤ k.maxRwCount) (hok : d.WriteSucceeds k buf env) :
    ∃ h', aesdWrite k d buf env = (sendEntryToCircularBuffer h' { d.dev with
          aesdEntry := ⟨some (d.alloc buf).1, (pend ++ buf).length⟩, lock := true }).map
            (fun r => (-ENOMEM, ⟨r.1, mutexUnlock r.2⟩)) ∧
      Holds k h' { d.dev with
        aesdEntry := ⟨some (d.alloc buf).1, (pend ++ buf).length⟩, lock := true } cmds (pend ++ buf) ∧
      (∀ c, c < h'.next ↔ c < d.heap.next ∨ (d.alloc buf).1 = .block c) ∧
      h'.freed = d.heap.freed ++ d.dev.aesdEntry.block?.toList ∧
      h'.HasAt (d.alloc buf).1 (pend ++ buf).length (pend ++ buf) := by
  obtain ⟨hint, hgrants, hleft⟩ := hok
  have hle := (request_le_iff hh.pending hlen).1 hgrants.le
  obtain ⟨h₁, ys, hwrite, hfilled, hys⟩ := aesdWrite_granted hlock hh.pending hlen hint hgrants
  rw [if_neg (not_not.2 hleft)] at hwrite
  rw [hys hleft] at hfilled
  have hold : [d.dev.aesdEntry.buffptr].filterMap Ptr.block? = d.dev.aesdEntry.block?.toList := by
    rw [AesdBufferEntry.block?]
    cases hb : Ptr.block? d.dev.aesdEntry.buffptr <;> simp [hb]
  have hblock : ∀ c, d.dev.aesdEntry.block? = some c → d.heap.Live c := fun c hc => hh.pending.live hc
  obtain ⟨h', hfree, hfreed, hnext, hframe⟩ := foldlM_kfree (h := h₁) [d.dev.aesdEntry.buffptr]
    (by rw [hold]; exact Option.toList_nodup _)
    fun c hc => hfilled.live (hblock c (by rwa [hold, Option.mem_toList] at hc))
  rw [hold] at hfreed hframe
  have hkfree : kfree h₁ d.dev.aesdEntry.buffptr = some h' := by simpa using hfree
  have hnew : ∀ c, d.heap.Live c → d.dev.aesdEntry.block? ≠ some c →
      h'.block c = d.heap.block c := fun c hlive hne =>
    (hframe c (mt Option.mem_toList.1 hne)).trans (hfilled.block (Driver.alloc_ne hlive))
  have hhas : h'.HasAt (d.alloc buf).1 (pend ++ buf).length (pend ++ buf) := by
    rw [List.length_append, ← hh.pending.1]
    exact hfilled.has.congr fun c hc => hframe c fun hmem =>
      Driver.alloc_ne (hblock c (Option.mem_toList.1 hmem)) hc
  have hnodup := List.nodup_append.1 hh.nodup
  refine ⟨h', ?_, ⟨hh.ring, ?_, ?_, ?_⟩, fun c => by rw [hnext, hfilled.lt_next_iff],
    by rw [hfreed, hfilled.freed], hhas⟩
  · rw [hwrite, hkfree, Option.bind_some, List.length_append]
  · -- the stored entries keep their blocks
    refine forall₂_owns_congr hh.stored fun c hc =>
      hnew c (hh.live (List.mem_append_left _ hc)) fun hpend => ?_
    exact hnodup.2.2 c hc c (Option.mem_toList.2 hpend) rfl
  · exact Owns.of_has (by rw [List.length_append]; exact hle) hhas
  · refine List.nodup_append.2 ⟨hnodup.1, Option.toList_nodup _, ?_⟩
    rintro c hc b hb rfl
    have hlive := hh.live (List.mem_append_left _ hc)
    rw [Option.mem_toList, AesdBufferEntry.block?_eq_some] at hb
    exact Driver.alloc_ne hlive (Option.some.inj hb)

end AesdChar
