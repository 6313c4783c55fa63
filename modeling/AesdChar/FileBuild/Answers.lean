import AesdChar.FileBuild.Appending
import AesdChar.Nothread.Answers

/-!
# What the file servers answer

A worker of the file build that received a piece with a newline reads the data file once, into its
buffer of `BUFFERSIZE` bytes, and sends what is there (`run_answering`). Its piece is in the file by
then. So in both servers the reply is the whole file exactly if this is no longer than the buffer
(`answers_whole_file_iff`), and an older file of that size is enough to lose the new piece
(`answer_cut_off`).
-/

namespace AesdChar
open CInt CString Contiguous

variable {s s' : FileServer} {l : FileLabel} {o : Event} {i : ℕ} {t : FileThread} {w w' : FileWorker}
  {a : FileAction} {c : CallAction} {call : FileCall} {file : Option (List UInt8)}
  {acts : List FileLabel} {outs : List Event} {piece read : Option (List UInt8)}

/-- How many bytes `fread` or `fwrite` moves when nothing fails. -/
def Disk.wanted (d : Disk) (call : FileCall) : ℕ :=
  match call.job with
  | .read size => min size (d.contents call.stream).length
  | .write data => data.length

/-- The worker that sends, and how much it sends. -/
def FileLabel.sent : FileLabel → Option (ℕ × Option ℕ)
  | .worker i (.send sent) => some (i, sent)
  | _ => none

/-- Nothing fails, and everything is written, read and sent as far as it is asked for. -/
def FileServer.Full (s : FileServer) (l : FileLabel) : Prop :=
  s.Reliable l ∧
  (∀ p ∈ l.calling, ∀ call ∈ s.callOf p.1, ∀ n ∈ p.2.moves, n = s.disk.wanted call) ∧
  ∀ p ∈ l.sent, ∀ w ∈ s.workers[p.1]?, p.2 = w.sendData.map List.length

instance instDecidableFileFull (s : FileServer) (l : FileLabel) : Decidable (s.Full l) :=
  inferInstanceAs (Decidable (_ ∧ _ ∧ _))

/-- What was in the data file each time a thread read it. -/
def readsOf (file : Option (List UInt8)) (acts : List FileLabel) (t : FileThread) : List (List UInt8) :=
  blocksOf t (fileMachine.collect FileServer.reads (.init file) acts)

/-! ### One worker -/

/-- The buffer of a worker at each point, when `piece` is the last one it received and `read` what was
in the data file when it last read it. -/
def FileWorker.Answering (w : FileWorker) (piece read : Option (List UInt8)) : Prop :=
  match w.point with
  | .checkRunning => w.buffer.isSome
  | .recv => w.buffer = some (.zeroed BUFFERSIZE)
  | .writefile _ | .strchr => ∃ b chunk, w.buffer = some b ∧ Carries b chunk ∧
      chunk.length < BUFFERSIZE ∧ piece = some chunk
  | .readfile call => (∃ b, w.buffer = some b ∧ Carries b []) ∧ call.job = .read BUFFERSIZE ∧
      ∃ chunk, piece = some chunk ∧ (call.point = .fclose ∨ call.point = .unlock →
        ∃ contents, read = some contents ∧ chunk <:+: contents ∧
          call.moved = contents.take (min BUFFERSIZE contents.length))
  | .send => ∃ chunk contents, piece = some chunk ∧ read = some contents ∧ chunk <:+: contents ∧
      w.sendData = some (contents.take BUFFERSIZE)
  | _ => True

theorem FileWorker.Steps.answering {running : Bool} {socket : Option ℕ} {piece' : Option (List UInt8)}
    (h : w.Steps running socket a w') (hw : w.Answering piece read)
    (hpiece : ∀ xs, a.produced = [xs] → piece' = some xs) (hsame : a.produced = [] → piece' = piece) :
    w'.Answering piece' read := by
  unfold FileWorker.Answering at hw
  cases h with
  | malloc => exact rfl
  | refused | stopped | failed | ended | sent | sentBeyond | free | finish => trivial
  | goesOn hpoint hrunning =>
    rw [hpoint] at hw
    obtain ⟨b, hb⟩ := Option.isSome_iff_exists.1 hw
    show w.buffer.map _ = _
    rw [hb, Option.map_some]
  | received hpoint hne hlen hb hput hdata =>
    rename_i xs data b b'
    rw [hpoint] at hw
    obtain rfl := Option.some.inj (hb.symm.trans hw)
    have hproduced : (FileAction.recv (some xs)).produced = [xs] := if_neg hne
    have : 0 < BUFFERSIZE := by decide
    exact ⟨b', xs, rfl, carries_zeroed.put hput, by omega, hpiece xs hproduced⟩
  | found hpoint hb =>
    rw [hpoint] at hw
    obtain ⟨-, chunk, -, -, -, hchunk⟩ := hw
    refine ⟨⟨_, ?_, carries_zeroed⟩, rfl, chunk, (hsame rfl).trans hchunk, ?_⟩
    · show w.buffer.map _ = _
      rw [hb, Option.map_some]
    · simp [FileCall.start]
  | notFound hpoint hb =>
    show w.buffer.isSome
    rw [hb, Option.isSome_some]
  | notSent hpoint | sentNothing hpoint =>
    rw [hpoint] at hw
    obtain ⟨-, contents, -, -, -, hdata⟩ := hw
    obtain ⟨b, hb, -⟩ := Option.bind_eq_some_iff.1 hdata
    show w.buffer.isSome
    rw [hb, Option.isSome_some]

theorem transfer_wanted {d d' : Disk} {n : ℕ} {moved : List UInt8} (hjob : call.job = .read BUFFERSIZE)
    (hlinked : d.linked = some call.stream) (hn : n = d.wanted call)
    (h : d.transfer call.stream n call.job = some (moved, d')) :
    moved = d.current.take (min BUFFERSIZE d.current.length) := by
  rw [hjob] at h
  obtain ⟨-, hmoved, -⟩ := Disk.transfer_read hlinked h
  have hwanted : d.wanted call = min BUFFERSIZE d.current.length := by
    unfold Disk.wanted
    rw [hjob, Disk.current_of_linked hlinked]
  rw [hmoved, hn, hwanted]

theorem FileWorker.Resumes.answering {d d' : Disk} {r : CallResult} {read' : Option (List UInt8)}
    (h : w.Resumes r w') (hstep : d.Stepped t call c d' r) (hcall : w.call = some call)
    (hw : w.Answering piece read) (hfopen : c ≠ .fopen false)
    (hfull : ∀ n ∈ c.moves, n = d.wanted call)
    (hlinked : call.point = .transfer → d.linked = some call.stream)
    (hpiece : call.job = .read BUFFERSIZE → ∀ chunk, piece = some chunk → chunk <:+: d.current)
    (hread : call.job = .read BUFFERSIZE → c.moves ≠ none → read' = some d.current)
    (hsame : c.moves = none → read' = read) : w'.Answering piece read' := by
  unfold FileWorker.Answering at hw
  unfold FileWorker.call at hcall
  cases h with
  | writing hpoint | written hpoint =>
    rw [hpoint] at hw
    exact hw
  | reading hpoint =>
    rw [hpoint] at hw hcall
    obtain rfl := Option.some.inj hcall
    obtain ⟨hbuffer, hjob, chunk, hchunk, hmoved⟩ := hw
    refine ⟨hbuffer, ?_, chunk, hchunk, ?_⟩
    · cases hstep <;> exact hjob
    cases hstep with
    | lock | opened => simp
    | transfer hp htransfer =>
      intro _
      refine ⟨d.current, hread hjob (by simp [CallAction.moves]), hpiece hjob chunk hchunk, ?_⟩
      exact transfer_wanted hjob (hlinked hp) (hfull _ rfl) htransfer
    | fclose hp =>
      intro _
      rw [hsame rfl]
      exact hmoved (Or.inl hp)
  | unread hpoint =>
    cases hstep
    exact absurd rfl hfopen
  | loaded hpoint hb hput =>
    rename_i current xs b b'
    rw [hpoint] at hw hcall
    obtain rfl : current = call := Option.some.inj hcall
    obtain ⟨⟨b₀, hb₀, hcarries⟩, hjob, chunk, hchunk, hmoved⟩ := hw
    obtain rfl := Option.some.inj (hb.symm.trans hb₀)
    cases hstep with
    | unlock hp =>
      obtain ⟨contents, hcontents, hinfix, heq⟩ := hmoved (Or.inr hp)
      refine ⟨chunk, contents, hchunk, (hsame rfl).trans hcontents, hinfix, ?_⟩
      have hlen : (current.moved.length : ℤ) = ((min BUFFERSIZE contents.length : ℕ) : ℤ) := by
        rw [heq, List.length_take]
        congr 1
        omega
      have hcarries' := hcarries.put hput
      rw [heq] at hcarries'
      show b'.front (toSize (current.moved.length : ℤ)) = _
      rw [hlen]
      exact hcarries'.front_of_take rfl

/-! ### A run -/

theorem FileServer.Full.reliable (h : s.Full l) : s.Reliable l := h.1

theorem mem_reads {x : FileThread × List UInt8} (h : x ∈ s.reads l) :
    x.2 = s.disk.current ∧ ∃ n, l.calling = some (x.1, .transfer n) := by
  unfold FileServer.reads at h
  split at h
  · rename_i u n hl
    split at h
    · obtain rfl := List.mem_singleton.1 h
      exact ⟨rfl, n, hl⟩
    · cases h
  · cases h

theorem reads_other (h : ∀ n, l.calling ≠ some (t, .transfer n)) : blocksOf t (s.reads l) = [] := by
  unfold blocksOf
  rw [List.filter_eq_nil_iff.2, List.map_nil]
  intro x hx ht
  obtain ⟨-, n, hl⟩ := mem_reads hx
  exact h n (of_decide_eq_true ht ▸ hl)

theorem reads_self {size n : ℕ} (hl : l.calling = some (t, .transfer n)) (hcall : s.callOf t = some call)
    (hjob : call.job = .read size) : blocksOf t (s.reads l) = [s.disk.current] := by
  unfold FileServer.reads
  obtain ⟨job, point, stream, moved⟩ := call
  obtain rfl : job = .read size := hjob
  simp only [hl, hcall]
  rw [blocksOf_singleton, if_pos rfl]

theorem FileLabel.of_calling_worker (h : l.calling = some (.worker i, c)) : ∃ a, l = .worker i a := by
  cases l with
  | worker j a =>
    cases a with
    | call b =>
      obtain rfl : j = i := by simpa [FileLabel.calling] using congrArg (Option.map Prod.fst) h
      exact ⟨_, rfl⟩
    | _ => cases h
  | timer a => cases a <;> cases h
  | _ => cases h

theorem piece_in_file (hrun : fileMachine.Run FileServer.Reliable (.init file) acts outs s)
    (hcall : s.callOf (.worker i) = some call) {size : ℕ} (hjob : call.job = .read size)
    {chunk : List UInt8} (hlast : (producedBy acts (.worker i)).getLast? = some chunk) :
    chunk <:+: s.disk.current := by
  have hnothing : s.unwritten (.worker i) = none := by
    unfold FileServer.unwritten
    rw [hcall, Option.bind_some]
    unfold FileCall.unwritten
    rw [hjob]
    split <;> rfl
  have hpieces := run_pieces hrun (.worker i)
  rw [hnothing, Option.toList_none, List.append_nil] at hpieces
  have hmem := List.mem_of_getLast? hlast
  rw [← hpieces] at hmem
  obtain ⟨block, hblock, rfl⟩ := List.mem_map.1 hmem
  rw [(run_holding (fun _ _ hg => hg.1) hrun).contents]
  have hinfix : block.2 <:+: (fileBlocks file acts).flatMap Prod.snd :=
    List.infix_of_mem_flatten (List.mem_map_of_mem (List.mem_filter.1 hblock).1)
  exact hinfix.trans (List.suffix_append _ _).isInfix

/-- **Each worker's buffer in every run without failures.** -/
theorem run_answering (hrun : fileMachine.Run FileServer.Full (.init file) acts outs s)
    (hw : s.workers[i]? = some w) :
    w.Answering (producedBy acts (.worker i)).getLast? (readsOf file acts (.worker i)).getLast? := by
  induction hrun generalizing w with
  | nil => simp [FileServer.init] at hw
  | @snoc acts outs s l s' o hrun hguard hstep ih =>
    have hreliable := hrun.mono fun _ _ hg => hg.reliable
    have hproduced : producedBy (acts ++ [l]) (.worker i) =
        producedBy acts (.worker i) ++ l.produced (.worker i) := by
      unfold producedBy
      rw [List.flatMap_append, List.flatMap_singleton]
    have hreads : readsOf file (acts ++ [l]) (.worker i) =
        readsOf file acts (.worker i) ++ blocksOf (.worker i) (s.reads l) := by
      unfold readsOf
      rw [hrun.collect_concat _ hstep, blocksOf_append]
    rw [hproduced, hreads]
    cases workerStep_of_step hstep hw with
    | stays hw hl =>
      have hnone : l.produced (.worker i) = [] := by
        cases l with
        | worker j a => exact if_neg fun hj => hl a (by rw [hj])
        | _ => rfl
      have hother : blocksOf (.worker i) (s.reads l) = [] := by
        apply reads_other
        intro n hcalling
        obtain ⟨a, rfl⟩ := FileLabel.of_calling_worker hcalling
        exact hl a rfl
      rw [hnone, hother, List.append_nil, List.append_nil]
      exact ih hw
    | starts c hw =>
      rw [hw]
      trivial
    | @moves w₀ a hw hsteps =>
      have hproduced : (FileLabel.worker i a).produced (.worker i) = a.produced := if_pos rfl
      have hother : blocksOf (.worker i) (s.reads (.worker i a)) = [] := by
        apply reads_other
        intro n hcalling
        cases hsteps <;> cases hcalling
      rw [hproduced, hother, List.append_nil]
      refine hsteps.answering (ih hw) (fun xs hxs => ?_) fun hnil => ?_
      · rw [hxs, List.getLast?_concat]
      · rw [hnil, List.append_nil]
    | @calls w₀ c call d r hw hcall hstepped hresumes =>
      have hcallOf : s.callOf (.worker i) = some call := by
        show s.workers[i]?.bind _ = _
        rw [hw, Option.bind_some, hcall]
      obtain ⟨⟨-, hfopen⟩, hmoves, -⟩ := hguard
      have hlinked := (run_holding (fun _ _ hg => hg.1) hreliable).streams _ call hcallOf
      rw [produced_of_calling rfl, List.append_nil]
      refine hresumes.answering hstepped hcall (ih hw) (hfopen _ rfl).1 (hmoves _ rfl call hcallOf)
        hlinked (fun hjob _ hlast => piece_in_file hreliable hcallOf hjob hlast) (fun hjob hc => ?_)
        fun hc => ?_
      · cases c with
        | transfer n => rw [reads_self rfl hcallOf hjob, List.getLast?_concat]
        | _ => exact absurd rfl hc
      · rw [reads_other, List.append_nil]
        rintro n hcalling
        obtain rfl : c = .transfer n := (Prod.mk.inj (Option.some.inj hcalling)).2
        cases hc
    | locks hw ha => rcases ha with ⟨-, rfl⟩ | ⟨-, rfl⟩ <;> trivial

/-! ### Replies -/

theorem file_answers (hrun : fileMachine.Run FileServer.Full (.init file) acts outs s)
    (hw : s.workers[i]? = some w) (hpoint : w.point = .strchr) {chunk : List UInt8}
    (hlast : (producedBy acts (.worker i)).getLast? = some chunk) (hnul : 0 ∉ chunk)
    (hnl : newline ∈ chunk) :
    w.search = some { w.memset with point := .readfile (.start (.read BUFFERSIZE)) } := by
  have hanswering := run_answering hrun hw
  unfold FileWorker.Answering at hanswering
  rw [hpoint] at hanswering
  obtain ⟨b, chunk', hb, hcarries, hroom, hchunk⟩ := hanswering
  obtain rfl := Option.some.inj (hlast.symm.trans hchunk)
  unfold FileWorker.search
  rw [hb, Option.bind_some, hcarries.cstring_eq hroom hnul, Option.map_some, if_pos hnl]

theorem FileWorker.not_large {data : List UInt8} {b : Buffer} (hdata : w.sendData = some data)
    (hb : w.buffer = some b) : ¬ b.size < toSize w.bytesRead := by
  unfold FileWorker.sendData at hdata
  rw [hb, Option.bind_some] at hdata
  obtain ⟨hle, -⟩ := Option.ite_none_right_eq_some.1 hdata
  omega

theorem file_sent (hrun : fileMachine.Run FileServer.Full (.init file) acts outs s)
    (hw : s.workers[i]? = some w) (hpoint : w.point = .send) :
    ∃ contents chunk, (readsOf file acts (.worker i)).getLast? = some contents ∧
      (producedBy acts (.worker i)).getLast? = some chunk ∧ chunk <:+: contents ∧
      ∀ a s' o, s.Full (.worker i a) → s.step (.worker i a) = some (s', o) →
        ∃ socket, o = .sent socket (contents.take BUFFERSIZE) := by
  have hanswering := run_answering hrun hw
  unfold FileWorker.Answering at hanswering
  rw [hpoint] at hanswering
  obtain ⟨chunk, contents, hchunk, hcontents, hinfix, hdata⟩ := hanswering
  refine ⟨contents, chunk, hcontents, hchunk, hinfix, fun a s' o hguard hstep => ?_⟩
  obtain ⟨-, h⟩ := Option.ite_none_right_eq_some.1 hstep
  obtain ⟨w', hw', h⟩ := Option.bind_eq_some_iff.1 h
  obtain rfl := Option.some.inj (hw.symm.trans hw')
  obtain ⟨t, ht, heq⟩ := Option.map_eq_some_iff.1 h
  obtain ⟨-, rfl⟩ := Prod.mk.inj heq
  cases a with
  | send sent =>
    have hsent : sent = w.sendData.map List.length := hguard.2.2 (i, sent) rfl w hw
    rw [hdata, Option.map_some] at hsent
    subst hsent
    obtain ⟨u, hu, -⟩ := Option.map_eq_some_iff.1 ht
    unfold FileWorker.step at hu
    rw [hpoint] at hu
    obtain ⟨socket, hsocket, -⟩ := Option.bind_eq_some_iff.1 hu
    refine ⟨socket, ?_⟩
    unfold FileServer.event
    simp only [hsocket, hdata, Option.getD_some, List.take_length]
  | sendBeyond sent =>
    obtain ⟨u, hu, -⟩ := Option.map_eq_some_iff.1 ht
    cases FileWorker.steps_of_step hu with
    | sentBeyond _ hb hlarge => exact absurd hlarge (FileWorker.not_large hdata hb)
  | call c =>
    obtain ⟨call, hcall, -⟩ := Option.bind_eq_some_iff.1 ht
    rw [FileWorker.call, hpoint] at hcall
    cases hcall
  | lockList | unlockList =>
    obtain ⟨⟨hother, -⟩, -⟩ := Option.ite_none_right_eq_some.1 ht
    cases hpoint.symm.trans hother
  | malloc | checkRunning | recv | strchr | free | finish =>
    obtain ⟨u, hu, -⟩ := Option.map_eq_some_iff.1 ht
    unfold FileWorker.step at hu
    rw [hpoint] at hu
    cases hu

/-- **The reply is the whole file exactly if this fits into the buffer**, in both servers and in every
run without failures. A piece without a NUL and with a newline is answered; what was in the file when it
was read, with the piece in it, is what is sent if and only if it has at most `BUFFERSIZE` bytes. -/
theorem answers_whole_file_iff {t : Nothread} {soloFile : Option (List UInt8)}
    {soloActs : List NothreadAction} {soloOuts : List Event}
    (hsolo : nothreadMachine.Run Nothread.Full (.init soloFile) soloActs soloOuts t)
    (hrun : fileMachine.Run FileServer.Full (.init file) acts outs s) :
    ((t.point = .strchr → ∀ chunk, (piecesIn soloOuts).getLast? = some chunk → 0 ∉ chunk →
        newline ∈ chunk → t.search = some (t.memset.goto .readfile)) ∧
      (t.point = .send → ∃ contents chunk, t.file = some contents ∧
        contents = soloFile.getD [] ++ (piecesIn soloOuts).flatten ∧
        (piecesIn soloOuts).getLast? = some chunk ∧ chunk <:+: contents ∧
        ∀ a t' o, t.Full a → t.step a = some (t', o) →
          (o = .sent t.session contents ↔ contents.length ≤ BUFFERSIZE))) ∧
    ∀ i w, s.workers[i]? = some w →
      (w.point = .strchr → ∀ chunk, (producedBy acts (.worker i)).getLast? = some chunk → 0 ∉ chunk →
        newline ∈ chunk →
          w.search = some { w.memset with point := .readfile (.start (.read BUFFERSIZE)) }) ∧
      (w.point = .send → ∃ contents chunk, (readsOf file acts (.worker i)).getLast? = some contents ∧
        (producedBy acts (.worker i)).getLast? = some chunk ∧ chunk <:+: contents ∧
        ∀ a s' o, s.Full (.worker i a) → s.step (.worker i a) = some (s', o) →
          ((∃ socket, o = .sent socket contents) ↔ contents.length ≤ BUFFERSIZE)) := by
  refine ⟨⟨fun hpoint chunk => nothread_answers hsolo hpoint, fun hpoint => ?_⟩, fun i w hw =>
    ⟨fun hpoint chunk => file_answers hrun hw hpoint, fun hpoint => ?_⟩⟩
  · obtain ⟨hfile, hne, -⟩ := nothread_sendData hsolo hpoint
    have hlast := List.getLast?_eq_some_getLast hne
    refine ⟨_, _, hfile, rfl, hlast, ?_, fun a t' o hguard hstep => ?_⟩
    · have hinfix := List.infix_of_mem_flatten (List.getLast_mem hne)
      exact hinfix.trans (List.suffix_append _ _).isInfix
    · rw [nothread_sent hsolo hpoint hguard hstep, Event.sent.injEq, List.take_eq_self_iff]
      exact and_iff_right rfl
  · obtain ⟨contents, chunk, hcontents, hchunk, hinfix, hsent⟩ := file_sent hrun hw hpoint
    refine ⟨contents, chunk, hcontents, hchunk, hinfix, fun a s' o hguard hstep => ?_⟩
    obtain ⟨socket, rfl⟩ := hsent a s' o hguard hstep
    constructor
    · rintro ⟨socket', heq⟩
      exact (List.take_eq_self_iff contents).1 (Event.sent.inj heq).2
    · intro hle
      exact ⟨socket, by rw [List.take_of_length_le hle]⟩

theorem answers_whole_file_iff_short : ∃ (soloActs : List NothreadAction) (soloOuts : List Event)
    (t : Nothread) (acts : List FileLabel) (outs : List Event) (s : FileServer),
    nothreadMachine.Run Nothread.Full (.init (some [98])) soloActs soloOuts t ∧ t.point = .send ∧
      fileMachine.Run FileServer.Full (.init none) acts outs s ∧
      (∃ a t' o, t.Full a ∧ t.step a = some (t', o) ∧ o = .sent t.session [98, 97, 10]) ∧
      ∃ a s' o socket, s.Full (.worker 0 a) ∧ s.step (.worker 0 a) = some (s', o) ∧
        o = .sent socket [97, 10] := by
  obtain ⟨⟨t, soloOuts⟩, hexec, heval⟩ := Option.map_eq_some_iff.1
    (show (nothreadMachine.execGuarded Nothread.Full (.init (some [98])) [.connect true, .malloc true,
      .recv (some [97, 10]), .writefile (some 2), .strchr, .readfile (some 3)]).map (fun r =>
        (r.1.point, r.1.file, decide (r.1.Full (.send (some 3))), (r.1.step (.send (some 3))).isSome)) =
          some (.send, some [98, 97, 10], true, true) by decide +kernel)
  obtain ⟨hpoint, hfile, hfull, hstep⟩ : _ ∧ _ ∧ _ ∧ _ := by simpa only [Prod.mk.injEq] using heval
  set acts : List FileLabel := accepting ++ [.worker 0 (.malloc true)] ++ receivingPiece 0 [97, 10] ++
    workerMoving 0 2 ++ [.worker 0 .strchr] ++ workerMoving 0 2
  obtain ⟨⟨s, outs⟩, hexec', heval'⟩ := Option.map_eq_some_iff.1
    (show (fileMachine.execGuarded FileServer.Full (.init none) acts).map (fun r =>
      (r.1.workers[0]?.map (·.point), decide (r.1.Full (.worker 0 (.send (some 2)))),
        (r.1.step (.worker 0 (.send (some 2)))).isSome)) = some (some .send, true, true) by decide +kernel)
  obtain ⟨hpoint', hfull', hstep'⟩ : _ ∧ _ ∧ _ := by simpa only [Prod.mk.injEq] using heval'
  obtain ⟨w, hw, hpoint'⟩ := Option.map_eq_some_iff.1 hpoint'
  obtain ⟨⟨t', o⟩, hstep⟩ := Option.isSome_iff_exists.1 hstep
  obtain ⟨⟨s', o'⟩, hstep'⟩ := Option.isSome_iff_exists.1 hstep'
  have hsolo := Machine.Run.of_execGuarded hexec
  have hrun := Machine.Run.of_execGuarded hexec'
  have hread : (readsOf none acts (.worker 0)).getLast? = some [97, 10] := by decide +kernel
  obtain ⟨⟨-, hsend⟩, hworkers⟩ := answers_whole_file_iff hsolo hrun
  obtain ⟨contents, -, hcontents, -, -, -, hiff⟩ := hsend hpoint
  obtain ⟨contents', -, hcontents', -, -, hiff'⟩ := (hworkers 0 w hw).2 hpoint'
  obtain rfl := Option.some.inj (hfile.symm.trans hcontents)
  obtain rfl := Option.some.inj (hread.symm.trans hcontents')
  have hfull := of_decide_eq_true hfull
  have hfull' := of_decide_eq_true hfull'
  obtain ⟨socket, hsent⟩ := (hiff' _ s' o' hfull' hstep').2 (by decide)
  exact ⟨_, soloOuts, t, acts, outs, s, hsolo, hpoint, hrun,
    ⟨_, t', o, hfull, hstep, (hiff _ t' o hfull hstep).2 (by decide)⟩,
    ⟨_, s', o', socket, hfull', hstep', hsent⟩⟩

/-- The file already fills the buffer: the newline that is added is not in the reply. -/
theorem answer_cut_off : ¬ ∀ (file : List UInt8) (acts : List NothreadAction) (outs : List Event)
    (s s' : Nothread) (contents : List UInt8) (a : NothreadAction) (o : Event),
    nothreadMachine.Run Nothread.Full (.init (some file)) acts outs s → s.point = .send →
      s.file = some contents → s.Full a → s.step a = some (s', o) → o = .sent s.session contents := by
  intro h
  obtain ⟨old, hold⟩ : ∃ old : List UInt8, old.length = BUFFERSIZE :=
    ⟨List.replicate BUFFERSIZE 97, List.length_replicate⟩
  -- up to `readfile` the length of the file makes no difference
  have hinit : nothreadMachine.Run Nothread.Full (.init (some old)) [] [] (.init (some old)) := .nil
  have hmalloc := hinit.snoc (show Nothread.Full _ (.connect true) from trivial) rfl
  have hrecv := hmalloc.snoc (show Nothread.Full _ (.malloc true) from trivial) rfl
  have hwrite := hrecv.snoc (show Nothread.Full _ (.recv (some [10])) from trivial) rfl
  have hsearch := hwrite.snoc (show Nothread.Full _ (.writefile (some 1)) from rfl) rfl
  have hread := hsearch.snoc (show Nothread.Full _ .strchr from trivial) rfl
  obtain ⟨a, s, o, hguard, hstep, hpoint, hfile⟩ := read_possible (run_recorded hread) rfl
  have hsend := hread.snoc hguard hstep
  obtain ⟨b, s', o', hguard', hstep'⟩ := send_possible (run_recorded hsend) hpoint
  have hwhole := h old _ _ s s' (old ++ [10]) b o' hsend hpoint hfile hguard' hstep'
  have hfront := nothread_sent hsend hpoint hguard' hstep'
  have heq := (Event.sent.inj (hwhole.symm.trans hfront)).2
  have hle : (old ++ [10]).length ≤ BUFFERSIZE := by
    rw [heq]
    exact List.length_take_le _ _
  rw [List.length_append, hold, List.length_singleton] at hle
  omega

end AesdChar
