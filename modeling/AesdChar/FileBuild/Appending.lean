import AesdChar.Base.Contiguous
import AesdChar.FileBuild.Threads

/-!
# What is in the data file

When no `fopen` fails, every `fwrite` takes all its bytes and nobody removes the file, the data file
is what was there at the start and then what the threads have appended, `fwrite` by `fwrite`
(`run_holding`). Each thread appends what was handed to `writefile`, every piece in one `fwrite`, in
this order (`run_pieces`): a worker the pieces it received, the timer its lines.
-/

namespace AesdChar
open CInt CString Contiguous

variable {s s' : FileServer} {l : FileLabel} {o : Event} {i : ℕ} {t u : FileThread} {c : CallAction}
  {call : FileCall} {file : Option (List UInt8)} {acts : List FileLabel} {outs : List Event}
  {initial : List UInt8} {blocks : List (FileThread × List UInt8)}
  {guard : FileServer → FileLabel → Prop}

/-- No `fopen` fails, every `fwrite` takes all its bytes, and nobody removes the file. -/
def FileServer.Reliable (s : FileServer) (l : FileLabel) : Prop :=
  l ≠ .unlink ∧ ∀ p ∈ l.calling, p.2 ≠ .fopen false ∧
    ∀ call ∈ s.callOf p.1, ∀ data ∈ call.job.data, ∀ n ∈ p.2.moves, n = data.length

instance instDecidableFileReliable (s : FileServer) (l : FileLabel) : Decidable (s.Reliable l) :=
  inferInstanceAs (Decidable (_ ∧ _))

/-- What the threads have appended in a run, `fwrite` by `fwrite`. -/
def fileBlocks (file : Option (List UInt8)) (acts : List FileLabel) : List (FileThread × List UInt8) :=
  fileMachine.collect FileServer.appends (.init file) acts

/-! ### One step -/

theorem appends_of_calling (hl : l.calling = some (t, c)) (hcall : s.callOf t = some call) :
    s.appends l = ((call.appends c).map (Prod.mk t)).toList := by
  unfold FileServer.appends
  rw [hl]
  obtain ⟨job, point, stream, moved⟩ := call
  cases c with
  | transfer n =>
    simp only [hcall]
    cases job <;> rfl
  | _ => rfl

theorem appends_of_not_calling (hl : l.calling = none) : s.appends l = [] := by
  unfold FileServer.appends
  rw [hl]

theorem produced_of_calling (hl : l.calling = some (t, c)) (u : FileThread) : l.produced u = [] := by
  cases l with
  | worker i a =>
    cases a with
    | call c =>
      cases u with
      | timer => rfl
      | worker j => exact ite_self _
    | _ => cases hl
  | timer a =>
    cases a with
    | call c => cases u <;> rfl
    | _ => cases hl
  | _ => cases hl

/-- The disk in a run without failures: streams are on the file that is there, which holds `initial`
and the blocks behind it. -/
structure FileServer.Holding (s : FileServer) (initial : List UInt8)
    (blocks : List (FileThread × List UInt8)) : Prop where
  sound : s.disk.Sound
  streams : ∀ t call, s.callOf t = some call → call.point = .transfer → s.disk.linked = some call.stream
  contents : s.disk.current = initial ++ blocks.flatMap Prod.snd

/-- What a call has not written yet. -/
def FileCall.unwritten (call : FileCall) : Option (List UInt8) :=
  match call.point with
  | .lock | .fopen | .transfer => call.job.data
  | .fclose | .unlock => none

/-- What a thread is in the middle of writing. -/
def FileServer.unwritten (s : FileServer) (t : FileThread) : Option (List UInt8) :=
  (s.callOf t).bind (·.unwritten)

theorem step_holding (hs : s.Holding initial blocks) (hunlink : l ≠ .unlink)
    (h : s.step l = some (s', o)) : s'.Holding initial (blocks ++ s.appends l) := by
  rcases step_calls h with ⟨t, c, call, d, r, hl, hcall, hdisk, rfl, hafter, hothers⟩ |
    ⟨hnone, hdisk, hbegins⟩
  · obtain ⟨hsound, hlinked, hcurrent, hself⟩ :=
      (Disk.stepped_of_step hdisk).current_eq hs.sound (hs.streams t call hcall)
    refine ⟨hsound, fun u call' hcall' hpoint => ?_, ?_⟩
    · by_cases hu : u = t
      · rw [hu, hafter] at hcall'
        exact hself call' hcall' hpoint
      · rw [hothers u hu] at hcall'
        exact hlinked _ (hs.streams u call' hcall' hpoint)
    · have hblock : (s.appends l).flatMap Prod.snd = (call.appends c).getD [] := by
        rw [appends_of_calling hl hcall]
        cases call.appends c <;> simp
      rw [hcurrent, hs.contents, List.flatMap_append, hblock, List.append_assoc]
  · have hsame : s'.disk = s.disk := hdisk.resolve_right fun hu => hunlink hu.1
    rw [appends_of_not_calling hnone, List.append_nil]
    refine ⟨hsame ▸ hs.sound, fun u call hcall hpoint => ?_, hsame ▸ hs.contents⟩
    rw [hsame]
    rcases hbegins u with ⟨heq, -⟩ | ⟨-, job, hstart, -⟩
    · exact hs.streams u call (heq ▸ hcall) hpoint
    · obtain rfl := Option.some.inj (hstart.symm.trans hcall)
      cases hpoint

theorem Disk.Stepped.unwritten_eq {d d' : Disk} {r : CallResult} (h : d.Stepped t call c d' r)
    (hfopen : c ≠ .fopen false) (hwrites : ∀ data ∈ call.job.data, ∀ n ∈ c.moves, n = data.length) :
    (call.appends c).toList ++ (r.call.bind (·.unwritten)).toList = call.unwritten.toList := by
  unfold FileCall.unwritten
  cases h with
  | lock hpoint | opened hpoint | fclose hpoint | unlock hpoint =>
    rw [hpoint]
    rfl
  | failed => exact absurd rfl hfopen
  | transfer hpoint hmoved =>
    rw [hpoint]
    obtain ⟨job, point, stream, moved⟩ := call
    cases job with
    | read size => rfl
    | write data =>
      have hall := hwrites data rfl _ rfl
      show [data.take _] ++ [] = [data]
      rw [hall, List.take_length, List.append_nil]

theorem step_pieces (hguard : s.Reliable l) (h : s.step l = some (s', o)) (u : FileThread) :
    blocksOf u (s.appends l) ++ (s'.unwritten u).toList = (s.unwritten u).toList ++ l.produced u := by
  unfold FileServer.unwritten
  rcases step_calls h with ⟨t, c, call, d, r, hl, hcall, hdisk, -, hafter, hothers⟩ |
    ⟨hnone, -, hbegins⟩
  · obtain ⟨hfopen, hwrites⟩ := hguard.2 (t, c) hl
    have hstep := (Disk.stepped_of_step hdisk).unwritten_eq hfopen (hwrites call hcall)
    rw [appends_of_calling hl hcall, produced_of_calling hl, List.append_nil]
    by_cases hu : u = t
    · subst hu
      rw [hafter, hcall, Option.bind_some, ← hstep]
      cases call.appends c <;> simp [blocksOf]
    · have hblock : blocksOf u ((call.appends c).map (Prod.mk t)).toList = [] := by
        cases call.appends c <;> simp [blocksOf, Ne.symm hu]
      rw [hblock, hothers u hu, List.nil_append]
  · rw [appends_of_not_calling hnone]
    rcases hbegins u with ⟨heq, hproduced⟩ | ⟨hbefore, job, hstart, hproduced⟩
    · rw [heq, hproduced, List.append_nil]
      rfl
    · rw [hbefore, hstart, ← hproduced]
      rfl

/-! ### A run -/

/-- What a thread was given to write in a run, piece by piece. -/
def producedBy (acts : List FileLabel) (t : FileThread) : List (List UInt8) :=
  acts.flatMap (·.produced t)

theorem init_callOf (file : Option (List UInt8)) (t : FileThread) :
    (FileServer.init file).callOf t = none := by
  cases t <;> simp [FileServer.init, FileServer.callOf, TimerPoint.call]

theorem holding_init (file : Option (List UInt8)) :
    (FileServer.init file).Holding (file.getD []) [] := by
  refine ⟨?_, fun t call hcall => ?_, ?_⟩
  · unfold Disk.Sound
    cases file <;> simp [FileServer.init]
  · rw [init_callOf] at hcall
    cases hcall
  · cases file <;> simp [FileServer.init, Disk.current, Disk.contents]

/-- **The data file holds what was there and every block that was appended**, in every run in which
nobody removes it. -/
theorem run_holding (hguard : ∀ s l, guard s l → l ≠ .unlink)
    (hrun : fileMachine.Run guard (.init file) acts outs s) :
    s.Holding (file.getD []) (fileBlocks file acts) := by
  unfold fileBlocks
  induction hrun with
  | nil => exact holding_init file
  | snoc hrun hg hstep ih =>
    rw [hrun.collect_concat _ hstep]
    exact step_holding ih (hguard _ _ hg) hstep

/-- **Every piece is appended by one `fwrite`**, in the order in which the thread got them. -/
theorem run_pieces (hrun : fileMachine.Run FileServer.Reliable (.init file) acts outs s)
    (t : FileThread) :
    blocksOf t (fileBlocks file acts) ++ (s.unwritten t).toList = producedBy acts t := by
  unfold fileBlocks producedBy
  induction hrun with
  | nil =>
    unfold FileServer.unwritten
    rw [init_callOf]
    rfl
  | snoc hrun hguard hstep ih =>
    rw [hrun.collect_concat _ hstep, blocksOf_append, List.append_assoc, step_pieces hguard hstep,
      ← List.append_assoc, ih, List.flatMap_append, List.flatMap_singleton]

end AesdChar
