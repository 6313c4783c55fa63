import AesdChar.FileBuild.Access
import AesdChar.FileBuild.Answers

/-!
# All replies agree

The files of the file build only grow, and a name that is taken away comes back with a new file
(`step_grows`). A worker sends what it read, so however short a read or a send is, a reply is the front
of some file, unless `fopen` failed: then it is the empty buffer, and what lies behind it in memory
(`run_fetched`). As long as nobody removes the file there is one file: all replies to all clients are
fronts of one another (`replies_agree`).
-/

namespace AesdChar
open CInt CString Contiguous

variable {s s' : FileServer} {l : FileLabel} {o : Event} {i : ℕ} {t : FileThread} {w w' : FileWorker}
  {a : FileAction} {c : CallAction} {call : FileCall} {file : Option (List UInt8)}
  {acts : List FileLabel} {outs : List Event} {guard : FileServer → FileLabel → Prop} {socket : ℕ}
  {bytes : List UInt8}

/-! ### The files -/

/-- Every file is still there, with more behind what it had. -/
def Disk.Grows (d d' : Disk) : Prop := ∀ file, d.contents file <+: d'.contents file

namespace Disk
variable {d d' : Disk}

theorem Grows.refl (d : Disk) : d.Grows d := fun _ => List.prefix_refl _

theorem Grows.front (h : d.Grows d') {xs : List UInt8} (hxs : ∃ file, xs <+: d.contents file) :
    ∃ file, xs <+: d'.contents file := by
  obtain ⟨file, hxs⟩ := hxs
  exact ⟨file, hxs.trans (h file)⟩

theorem fopen_grows {job : Job} {file : ℕ} (h : d.fopen job = some (file, d')) : d.Grows d' := by
  cases job with
  | read size =>
    obtain ⟨f, -, heq⟩ := Option.map_eq_some_iff.1 h
    obtain ⟨-, rfl⟩ := Prod.mk.inj heq
    exact Grows.refl d
  | write data =>
    simp only [fopen] at h
    split at h
    · obtain ⟨-, rfl⟩ := Prod.mk.inj (Option.some.inj h)
      exact Grows.refl d
    · obtain ⟨-, rfl⟩ := Prod.mk.inj (Option.some.inj h)
      intro f
      unfold contents
      by_cases hf : f < d.files.length
      · rw [List.getElem?_append_left hf]
      · rw [List.getElem?_eq_none (by omega), Option.getD_none]
        exact List.nil_prefix

theorem transfer_grows {job : Job} {file n : ℕ} {moved : List UInt8}
    (h : d.transfer file n job = some (moved, d')) : d.Grows d' := by
  cases job with
  | read size =>
    obtain ⟨-, heq⟩ := Option.ite_some_none_eq_some.1 h
    obtain ⟨-, rfl⟩ := Prod.mk.inj heq
    exact Grows.refl d
  | write data =>
    obtain ⟨-, heq⟩ := Option.ite_some_none_eq_some.1 h
    obtain ⟨-, rfl⟩ := Prod.mk.inj heq
    intro f
    unfold contents
    rw [List.getElem?_modify]
    cases d.files[f]? with
    | none => exact List.prefix_refl _
    | some xs =>
      by_cases hf : file = f
      · simp [hf]
      · simp [hf]

theorem Stepped.grows {r : CallResult} (h : d.Stepped t call c d' r) : d.Grows d' := by
  cases h with
  | lock | failed | fclose | unlock => exact fun _ => List.prefix_refl _
  | opened _ hopen => exact fopen_grows hopen
  | transfer _ hmoved => exact transfer_grows hmoved

end Disk

theorem step_grows (h : s.step l = some (s', o)) : s.disk.Grows s'.disk := by
  rcases step_calls h with ⟨t, c, call, d, r, -, -, hdisk, rfl, -⟩ | ⟨-, hdisk, -⟩
  · exact (Disk.stepped_of_step hdisk).grows
  · rcases hdisk with heq | ⟨-, heq⟩ <;> exact heq ▸ fun _ => List.prefix_refl _

/-! ### One worker -/

/-- The buffer is as empty as `memset` left it. -/
def FileWorker.Blank (w : FileWorker) : Prop := ∃ b, w.buffer = some b ∧ Carries b []

/-- What a worker has read, and what it is about to send, is the front of a file; or reading failed. -/
def FileWorker.Fetched (w : FileWorker) (d : Disk) (failed : Prop) : Prop :=
  match w.point with
  | .readfile call => w.Blank ∧ call.job = .read BUFFERSIZE ∧ ∃ file, call.moved <+: d.contents file
  | .send => (∃ data, w.sendData = some data ∧ ∃ file, data <+: d.contents file) ∨
      failed ∧ w.sendData = none ∧ w.Blank
  | _ => True

theorem FileWorker.Fetched.mono {d d' : Disk} {failed failed' : Prop} (hw : w.Fetched d failed)
    (h : d.Grows d') (hfailed : failed → failed') : w.Fetched d' failed' := by
  unfold FileWorker.Fetched at hw ⊢
  split at hw
  · exact ⟨hw.1, hw.2.1, h.front hw.2.2⟩
  · rcases hw with ⟨data, hdata, hfront⟩ | ⟨hopen, hnone, hblank⟩
    · exact Or.inl ⟨data, hdata, h.front hfront⟩
    · exact Or.inr ⟨hfailed hopen, hnone, hblank⟩
  · trivial

theorem FileWorker.Steps.fetched {running : Bool} {socket : Option ℕ} {d : Disk} {failed : Prop}
    (h : w.Steps running socket a w') : w'.Fetched d failed := by
  cases h with
  | found hpoint hb =>
    refine ⟨⟨.zeroed BUFFERSIZE, ?_, carries_zeroed⟩, rfl, 0, List.nil_prefix⟩
    show w.buffer.map _ = _
    rw [hb, Option.map_some]
  | malloc | refused | goesOn | stopped | failed | ended | received | notFound | notSent | sentNothing
  | sent | sentBeyond | free | finish => trivial

theorem FileWorker.Resumes.fetched {d d' : Disk} {r : CallResult} {failed failed' : Prop}
    (h : w.Resumes r w') (hstep : d.Stepped t call c d' r) (hcall : w.call = some call)
    (hw : w.Fetched d failed) (hfailed : c = .fopen false → failed') : w'.Fetched d' failed' := by
  unfold FileWorker.Fetched at hw
  unfold FileWorker.call at hcall
  cases h with
  | writing | written => trivial
  | @reading current call' hpoint =>
    rw [hpoint] at hw hcall
    obtain rfl : current = call := Option.some.inj hcall
    obtain ⟨hbuffer, hjob, hmoved⟩ := hw
    have hlater := hstep.grows.front hmoved
    cases hstep with
    | lock | opened | fclose => exact ⟨hbuffer, hjob, hlater⟩
    | @transfer _ n moved _ htransfer =>
      refine ⟨hbuffer, hjob, current.stream, ?_⟩
      rw [hjob] at htransfer
      obtain ⟨-, heq⟩ := Option.ite_some_none_eq_some.1 htransfer
      obtain ⟨rfl, rfl⟩ := Prod.mk.inj heq
      exact List.take_prefix _ _
  | unread hpoint =>
    -- `bytes_read` is `-1`, which is more than there is
    rw [hpoint] at hw
    obtain ⟨⟨b, hb, hsize, hbytes⟩, -⟩ := hw
    have hlarge : 2 ^ 63 ≤ toSize (-1) := toSize_of_neg (by omega) (by omega)
    have hnothing : ({ w with bytesRead := -1, point := .send } : FileWorker).sendData = none := by
      show w.buffer.bind _ = none
      rw [hb, Option.bind_some]
      exact if_neg (by rw [hsize]; simp only [BUFFERSIZE]; omega)
    cases hstep with
    | failed => exact Or.inr ⟨hfailed rfl, hnothing, b, hb, hsize, hbytes⟩
  | @loaded current xs b b' hpoint hb hput =>
    rw [hpoint] at hw hcall
    obtain rfl : current = call := Option.some.inj hcall
    obtain ⟨⟨b₀, hb₀, hcarries⟩, -, hmoved⟩ := hw
    obtain rfl := Option.some.inj (hb.symm.trans hb₀)
    have hlater := hstep.grows.front hmoved
    cases hstep with
    | unlock =>
      have hcarries' := hcarries.put hput
      have hlen : current.moved.length ≤ BUFFERSIZE := by
        rw [← hcarries'.1, ← hcarries'.2]
        exact b'.length_le
      have hsize : toSize (current.moved.length : ℤ) = current.moved.length :=
        toSize_natCast (by simp only [BUFFERSIZE] at hlen; omega)
      have hfront : b'.front (toSize (current.moved.length : ℤ)) = some current.moved := by
        rw [hsize, hcarries'.front_eq]
      exact Or.inl ⟨_, hfront, hlater⟩

/-! ### A run -/

theorem call_stepped (h : s.step (.worker i (.call c)) = some (s', o)) (hw' : s'.workers[i]? = some w') :
    ∃ w call r, s.workers[i]? = some w ∧ w.call = some call ∧
      s.disk.Stepped (.worker i) call c s'.disk r ∧ w.Resumes r w' := by
  obtain ⟨-, h⟩ := Option.ite_none_right_eq_some.1 h
  obtain ⟨w, hw, h⟩ := Option.bind_eq_some_iff.1 h
  obtain ⟨s₁, hworker, heq⟩ := Option.map_eq_some_iff.1 h
  obtain ⟨rfl, -⟩ := Prod.mk.inj heq
  obtain ⟨call, hcall, hworker⟩ := Option.bind_eq_some_iff.1 hworker
  obtain ⟨⟨d, r⟩, hdisk, hworker⟩ := Option.bind_eq_some_iff.1 hworker
  obtain ⟨w₁, hresume, rfl⟩ := Option.map_eq_some_iff.1 hworker
  have hlt := (List.getElem?_eq_some_iff.1 hw).1
  obtain rfl : w₁ = w' := Option.some.inj ((List.getElem?_set_self hlt).symm.trans hw')
  exact ⟨w, call, r, hw, hcall, Disk.stepped_of_step hdisk, FileWorker.resumes_of_resume hresume⟩

theorem FailedOpen.append (h : FailedOpen acts) : FailedOpen (acts ++ [l]) :=
  h.imp fun _ => And.imp_left (List.mem_append_left _)

theorem run_fetched (hrun : fileMachine.Run guard (.init file) acts outs s)
    (hw : s.workers[i]? = some w) : w.Fetched s.disk (FailedOpen acts) := by
  induction hrun generalizing w with
  | nil => simp [FileServer.init] at hw
  | @snoc acts outs s l s' o _ _ hstep ih =>
    have hgrows := step_grows hstep
    cases workerStep_of_step hstep hw with
    | stays hw _ => exact (ih hw).mono hgrows FailedOpen.append
    | starts c hw =>
      subst hw
      trivial
    | moves _ hsteps => exact hsteps.fetched
    | calls =>
      obtain ⟨w₀, call, r, hw₀, hcall, hstepped, hresumes⟩ := call_stepped hstep hw
      refine hresumes.fetched hstepped hcall (ih hw₀) ?_
      rintro rfl
      exact ⟨_, List.mem_append_right _ (List.mem_singleton_self _), _, rfl⟩
    | locks _ ha => rcases ha with ⟨-, rfl⟩ | ⟨-, rfl⟩ <;> trivial

/-- The front of a file, or an empty buffer and what lies behind it. -/
def Replied (d : Disk) (acts : List FileLabel) (bytes : List UInt8) : Prop :=
  (∃ file, bytes <+: d.contents file) ∨
    FailedOpen acts ∧ bytes.take BUFFERSIZE = List.replicate (min bytes.length BUFFERSIZE) 0

theorem FileWorker.Blank.take_eq {b : Buffer} (hw : w.Blank) (hb : w.buffer = some b)
    (hover : b.Overrun bytes) : bytes.take BUFFERSIZE = List.replicate (min bytes.length BUFFERSIZE) 0 := by
  obtain ⟨b', hb', hsize, hbytes⟩ := hw
  obtain rfl := Option.some.inj (hb.symm.trans hb')
  obtain ⟨hfront, -⟩ := hover
  unfold Buffer.front at hfront
  rw [if_pos (min_le_right _ _), hbytes, hsize] at hfront
  simpa using (Option.some.inj hfront).symm

theorem event_fetched (hrun : fileMachine.Run guard (.init file) acts outs s)
    (hstep : s.step l = some (s', .sent socket bytes)) : Replied s.disk acts bytes := by
  rcases FileServer.step_cases hstep with ⟨-, -, -, -, -, -, ho⟩ | ⟨-, -, -, -, ho⟩ |
    ⟨i, a, w, rfl, hw, hworker, ho⟩ | ⟨-, -, -, ho⟩ | ⟨-, -, ho⟩ | ⟨-, -, ho⟩
  · cases ho
  · cases ho
  · have hfetched := run_fetched hrun hw
    unfold FileWorker.Fetched at hfetched
    unfold FileServer.event at ho
    cases hsocket : s.clientSocket with
    | none =>
      rw [hsocket] at ho
      split at ho <;> cases ho
    | some c =>
      rw [hsocket] at ho
      cases a with
      | recv received => cases received <;> cases ho
      | send sent =>
        cases sent with
        | none => cases ho
        | some n =>
          obtain ⟨-, rfl⟩ := Event.sent.inj ho
          obtain ⟨w', hworker', -⟩ := Option.map_eq_some_iff.1 hworker
          cases FileWorker.steps_of_step hworker' with
          | sentNothing => exact Or.inl ⟨0, List.nil_prefix⟩
          | sent hpoint _ hdata _ =>
            rw [hpoint] at hfetched
            rcases hfetched with ⟨data, hdata', file, hfront⟩ | ⟨-, hnone, -⟩
            · obtain rfl := Option.some.inj (hdata.symm.trans hdata')
              rw [hdata]
              exact Or.inl ⟨file, (List.take_prefix _ _).trans hfront⟩
            · cases hnone.symm.trans hdata
      | sendBeyond sent =>
        obtain ⟨-, rfl⟩ := Event.sent.inj ho
        obtain ⟨w', hworker', -⟩ := Option.map_eq_some_iff.1 hworker
        cases FileWorker.steps_of_step hworker' with
        | sentBeyond hpoint hb hlarge hover =>
          rw [hpoint] at hfetched
          rcases hfetched with ⟨data, hdata, -⟩ | ⟨hfailed, -, hblank⟩
          · exact absurd hlarge (FileWorker.not_large hdata hb)
          · exact Or.inr ⟨hfailed, hblank.take_eq hb hover⟩
      | _ => cases ho
  · cases ho
  · cases ho
  · cases ho

/-- **Every reply is the front of a file**, unless reading failed, whoever removes files. -/
theorem run_sent (hrun : fileMachine.Run guard (.init file) acts outs s)
    (hsent : .sent socket bytes ∈ outs) : Replied s.disk acts bytes := by
  induction hrun with
  | nil => cases hsent
  | @snoc acts outs s l s' o hrun _ hstep ih =>
    have hreplied : Replied s.disk acts bytes := by
      rcases List.mem_append.1 hsent with hearlier | hlast
      · exact ih hearlier
      · obtain rfl := List.mem_singleton.1 hlast
        exact event_fetched hrun hstep
    rcases hreplied with hfront | ⟨hfailed, hzeros⟩
    · exact Or.inl ((step_grows hstep).front hfront)
    · exact Or.inr ⟨hfailed.append, hzeros⟩

/-! ### One file -/

namespace Disk
variable {d d' : Disk}

/-- There has not been a second file. -/
def Single (d : Disk) : Prop :=
  d.files = [] ∧ d.linked = none ∨ ∃ contents, d.files = [contents] ∧ d.linked = some 0

theorem Single.front (hd : d.Single) (file : ℕ) : d.contents file <+: d.current := by
  rcases hd with ⟨hfiles, -⟩ | ⟨contents, hfiles, hlinked⟩
  · simp [Disk.contents, hfiles]
  · rw [current_of_linked hlinked]
    cases file with
    | zero => exact List.prefix_refl _
    | succ file => simp [Disk.contents, hfiles]

theorem Stepped.single {r : CallResult} (h : d.Stepped t call c d' r) (hd : d.Single) : d'.Single := by
  cases h with
  | lock | failed | fclose | unlock => exact hd
  | opened _ hopen =>
    obtain ⟨job, point, stream, moved⟩ := call
    cases job with
    | read size =>
      obtain ⟨f, -, heq⟩ := Option.map_eq_some_iff.1 hopen
      obtain ⟨-, rfl⟩ := Prod.mk.inj heq
      exact hd
    | write data =>
      simp only [fopen] at hopen
      split at hopen
      · obtain ⟨-, rfl⟩ := Prod.mk.inj (Option.some.inj hopen)
        exact hd
      · rename_i hnone
        obtain ⟨-, rfl⟩ := Prod.mk.inj (Option.some.inj hopen)
        rcases hd with ⟨hfiles, -⟩ | ⟨-, -, hlinked⟩
        · exact Or.inr ⟨[], by simp [hfiles], by simp [hfiles]⟩
        · cases hlinked.symm.trans hnone
  | transfer _ hmoved =>
    obtain ⟨job, point, stream, moved⟩ := call
    cases job with
    | read size =>
      obtain ⟨-, heq⟩ := Option.ite_some_none_eq_some.1 hmoved
      obtain ⟨-, rfl⟩ := Prod.mk.inj heq
      exact hd
    | write data =>
      obtain ⟨-, heq⟩ := Option.ite_some_none_eq_some.1 hmoved
      obtain ⟨-, rfl⟩ := Prod.mk.inj heq
      rcases hd with ⟨hfiles, hlinked⟩ | ⟨contents, hfiles, hlinked⟩
      · exact Or.inl ⟨by simp [hfiles], hlinked⟩
      · refine Or.inr ?_
        simp only [hfiles, hlinked, and_true]
        cases stream with
        | zero => exact ⟨_, rfl⟩
        | succ stream => exact ⟨contents, by cases stream <;> rfl⟩

end Disk

theorem run_single (hguard : ∀ s l, guard s l → l ≠ .unlink)
    (hrun : fileMachine.Run guard (.init file) acts outs s) : s.disk.Single := by
  refine hrun.invariant (I := fun _ _ s => s.disk.Single) ?_ ?_
  · cases file with
    | none => exact Or.inl ⟨rfl, rfl⟩
    | some contents => exact Or.inr ⟨contents, rfl, rfl⟩
  · rintro - - s l s' o hs hg hstep
    rcases step_calls hstep with ⟨t, c, call, d, r, -, -, hdisk, rfl, -⟩ | ⟨-, hdisk, -⟩
    · exact (Disk.stepped_of_step hdisk).single hs
    · rcases hdisk with heq | ⟨hunlink, -⟩
      · exact heq ▸ hs
      · exact absurd hunlink (hguard s l hg)

/-- **All replies agree**: every reply of a run is the front of one of the files, unless an `fopen` has
failed; then it can also be the zeroed buffer, and what lies behind it in memory. As long as
`fopen` has not failed and no signal has removed the file, a reply is the front of what the file held at
the start and what was appended since, and of any two replies, to whichever clients, one is the front of
the other. -/
theorem replies_agree (hrun : fileMachine.Run (fun _ _ => True) (.init file) acts outs s) :
    (∀ socket bytes, .sent socket bytes ∈ outs → Replied s.disk acts bytes) ∧
    (¬ FailedOpen acts → .unlink ∉ acts → ∀ socket bytes, .sent socket bytes ∈ outs →
      bytes <+: file.getD [] ++ (fileBlocks file acts).flatMap Prod.snd ∧
      ∀ socket' bytes', .sent socket' bytes' ∈ outs → bytes <+: bytes' ∨ bytes' <+: bytes) := by
  refine ⟨fun socket bytes => run_sent hrun, fun hopened hunlink socket bytes hsent => ?_⟩
  have hkeeps := hrun.restrict (P := fun l => l ≠ .unlink) fun l hl hl' => hunlink (hl' ▸ hl)
  have hsingle := run_single (fun _ _ hg => hg.2) hkeeps
  have hfront : ∀ c xs, .sent c xs ∈ outs → xs <+: s.disk.current := by
    intro c xs hxs
    obtain ⟨f, hf⟩ := (run_sent hrun hxs).resolve_right fun hfailed => hopened hfailed.1
    exact hf.trans (hsingle.front f)
  refine ⟨?_, fun socket' bytes' hsent' => ?_⟩
  · rw [← (run_holding (fun _ _ hg => hg.2) hkeeps).contents]
    exact hfront _ _ hsent
  · exact List.prefix_or_prefix_of_prefix (hfront _ _ hsent) (hfront _ _ hsent')

theorem replies_agree_short_read : (∃ acts outs s,
    fileMachine.Run (fun _ _ => True) (.init none) acts outs s ∧ .sent 0 [97, 10] ∈ outs ∧
      .sent 1 [97, 10, 98] ∈ outs ∧ ([97, 10] : List UInt8) <+: (fileBlocks none acts).flatMap Prod.snd ∧
      (([97, 10] : List UInt8) <+: [97, 10, 98] ∨ ([97, 10, 98] : List UInt8) <+: [97, 10])) ∧
    ∃ acts outs s, fileMachine.Run (fun _ _ => True) (.init none) acts outs s ∧ .sent 0 [0, 0] ∈ outs ∧
      Replied s.disk acts [0, 0] := by
  set served : List FileLabel := accepting ++ [.worker 0 (.malloc true)] ++ receivingPiece 0 [97, 10] ++
    workerMoving 0 2 ++ [.worker 0 .strchr]
  constructor
  · set acts : List FileLabel := served ++ workerMoving 0 2 ++ [.worker 0 (.send (some 2))] ++
      accepting ++ [.worker 1 (.malloc true)] ++ receivingPiece 1 [98, 10] ++
      workerMoving 1 2 ++ [.worker 1 .strchr] ++ workerMoving 1 3 ++ [.worker 1 (.send (some 3))]
    obtain ⟨⟨s, outs⟩, hexec, heval⟩ := Option.map_eq_some_iff.1
      (show (fileMachine.execGuarded (fun _ _ => True) (.init none) acts).map (fun r =>
        decide (.sent 0 [97, 10] ∈ r.2 ∧ .sent 1 [97, 10, 98] ∈ r.2)) = some true by decide +kernel)
    obtain ⟨hfirst, hsecond⟩ := of_decide_eq_true heval
    have hrun := Machine.Run.of_execGuarded hexec
    obtain ⟨-, hagree⟩ := replies_agree hrun
    obtain ⟨hfront, hany⟩ := hagree (not_failedOpen (by decide)) (by decide) 0 _ hfirst
    exact ⟨acts, outs, s, hrun, hfirst, hsecond, hfront, hany 1 _ hsecond⟩
  · set acts : List FileLabel := served ++
      [.call .lock, .call (.fopen false), .sendBeyond [0, 0]].map (.worker 0)
    obtain ⟨⟨s, outs⟩, hexec, heval⟩ := Option.map_eq_some_iff.1
      (show (fileMachine.execGuarded (fun _ _ => True) (.init none) acts).map (fun r =>
        decide (.sent 0 [0, 0] ∈ r.2)) = some true by decide +kernel)
    have hsent := of_decide_eq_true heval
    have hrun := Machine.Run.of_execGuarded hexec
    exact ⟨acts, outs, s, hrun, hsent, (replies_agree hrun).1 0 _ hsent⟩

end AesdChar
