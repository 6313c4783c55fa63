import AesdChar.Nothread.Server

/-!
# What the server without threads answers

When nothing fails, the data file is what was there at the start and then every piece that was
received, on whatever connection (`Nothread.Recorded`). A piece without a NUL and with a newline is
answered, and what is sent then is the front of this file, as much as fits into the buffer
(`run_recorded`).
-/

namespace AesdChar
open CInt CString

variable {s s' : Nothread} {a : NothreadAction} {o : Event} {file : Option (List UInt8)}
  {acts : List NothreadAction} {outs : List Event} {initial : List UInt8} {pieces : List (List UInt8)}

/-! ### The buffer -/

/-- The buffer holds these bytes, and zeros behind them. -/
def Carries (b : Buffer) (xs : List UInt8) : Prop := b.size = BUFFERSIZE ∧ b.bytes = xs

variable {b b' : Buffer} {xs : List UInt8}

theorem carries_zeroed : Carries (.zeroed BUFFERSIZE) [] := ⟨rfl, rfl⟩

theorem Carries.put (hb : Carries b []) (h : b.put 0 xs = some b') : Carries b' xs := by
  obtain ⟨hsize, hbytes⟩ := Buffer.put_front h
  refine ⟨hsize.trans hb.1, ?_⟩
  rw [hbytes, hb.2, List.drop_nil, List.append_nil]

theorem Carries.front_eq (hb : Carries b xs) : b.front xs.length = some xs := by
  rw [← hb.2]
  exact Buffer.front_length

theorem Carries.cstring_eq (hb : Carries b xs) (hroom : xs.length < BUFFERSIZE) (hnul : 0 ∉ xs) :
    b.cstring = some xs := by
  obtain ⟨hsize, rfl⟩ := hb
  exact Buffer.cstring_eq (by rw [hsize]; exact hroom) hnul

theorem Carries.front_of_take {n : ℕ} (hb : Carries b (xs.take n)) (hn : n = min BUFFERSIZE xs.length) :
    b.front (toSize (n : ℤ)) = some (xs.take BUFFERSIZE) := by
  have hlen : (xs.take n).length = n := by
    rw [List.length_take]
    omega
  have hsize : toSize (n : ℤ) = (xs.take n).length := by
    rw [hlen]
    exact toSize_natCast (by simp only [BUFFERSIZE] at hn; omega)
  rw [hsize, hb.front_eq, hn, ← List.take_take]
  simp

/-! ### A run without failures -/

/-- Everything is written, read and sent as far as it is asked for, and no signal comes. (With every read
done, no `send` goes beyond the buffer.) -/
def Nothread.Full (s : Nothread) : NothreadAction → Prop
  | .writefile written => written = some (toSize s.bytesReceived)
  | .readfile read => read = some (min BUFFERSIZE s.contents.length)
  | .send sent => sent = s.sendData.map List.length
  | .signal | .sigpipe => False
  | _ => True

instance (s : Nothread) (a : NothreadAction) : Decidable (s.Full a) :=
  match a with
  | .writefile _ | .readfile _ | .send _ => inferInstanceAs (Decidable (_ = _))
  | .signal | .sigpipe => inferInstanceAs (Decidable False)
  | .connect _ | .malloc _ | .recv _ | .strchr | .sendBeyond _ => inferInstanceAs (Decidable True)

/-- The file and the buffer at each point, when these pieces were received. -/
def Nothread.Recorded (s : Nothread) (initial : List UInt8) (pieces : List (List UInt8)) : Prop :=
  match s.point with
  | .connect | .malloc | .exited => s.contents = initial ++ pieces.flatten
  | .recv => s.contents = initial ++ pieces.flatten ∧ s.buffer.isSome
  | .writefile => ∃ b before chunk, s.buffer = some b ∧ Carries b chunk ∧ chunk.length < BUFFERSIZE ∧
      s.bytesReceived = chunk.length ∧ pieces = before ++ [chunk] ∧
      s.contents = initial ++ before.flatten
  | .strchr => ∃ b before chunk, s.buffer = some b ∧ Carries b chunk ∧ chunk.length < BUFFERSIZE ∧
      pieces = before ++ [chunk] ∧ s.file = some (initial ++ pieces.flatten)
  | .readfile => (∃ b, s.buffer = some b ∧ Carries b []) ∧ s.file = some (initial ++ pieces.flatten) ∧
      pieces ≠ []
  | .send => s.sendData = some ((initial ++ pieces.flatten).take BUFFERSIZE) ∧
      s.file = some (initial ++ pieces.flatten) ∧ pieces ≠ []

theorem Nothread.sendBeyond_eq_none {data : List UInt8} (hdata : s.sendData = some data)
    (sent : List UInt8) : s.sendBeyond sent = none := by
  obtain ⟨b, hb, hfront⟩ := Option.bind_eq_some_iff.1 hdata
  obtain ⟨hle, -⟩ := Option.ite_none_right_eq_some.1 hfront
  unfold Nothread.sendBeyond
  rw [hb, Option.bind_some, if_neg fun hlarge => absurd hlarge.1 (by omega)]

theorem piecesIn_concat (outs : List Event) (o : Event) :
    piecesIn (outs ++ [o]) = piecesIn outs ++ piecesIn [o] := by
  unfold piecesIn
  rw [List.flatMap_append]

theorem step_recorded (hs : s.Recorded initial pieces) (hguard : s.Full a)
    (h : s.step a = some (s', o)) : s'.Recorded initial (pieces ++ piecesIn [o]) := by
  obtain ⟨⟨-, hpoint⟩, h⟩ := Option.ite_none_right_eq_some.1 h
  obtain ⟨t, ht, heq⟩ := Option.map_eq_some_iff.1 h
  obtain ⟨rfl, rfl⟩ := Prod.mk.inj heq
  unfold Nothread.Recorded at hs
  cases a with
  | connect accepted =>
    rw [hpoint _ rfl] at hs
    rw [show piecesIn [s.event (.connect accepted)] = [] from rfl, List.append_nil]
    obtain rfl := Option.some.inj ht
    cases accepted with
    | true => exact hs
    | false =>
      unfold Nothread.Recorded
      rw [if_neg (by simp), hpoint _ rfl]
      exact hs
  | malloc granted =>
    rw [hpoint _ rfl] at hs
    rw [show piecesIn [s.event (.malloc granted)] = [] from rfl, List.append_nil]
    obtain rfl := Option.some.inj ht
    cases granted with
    | true => exact ⟨hs, rfl⟩
    | false => exact hs
  | recv received =>
    rw [hpoint _ rfl] at hs
    obtain ⟨hcontents, hbuffer⟩ := hs
    cases received with
    | none =>
      rw [show piecesIn [s.event (.recv none)] = [] from rfl, List.append_nil]
      obtain rfl := Option.some.inj ht
      exact hcontents
    | some xs =>
      obtain ⟨hlen, ht⟩ := Option.ite_none_right_eq_some.1 ht
      obtain ⟨b, hb, ht⟩ := Option.bind_eq_some_iff.1 ht
      obtain ⟨b', hput, rfl⟩ := Option.map_eq_some_iff.1 ht
      obtain ⟨-, -, rfl⟩ := Option.map_eq_some_iff.1 hb
      by_cases hnil : xs = []
      · subst hnil
        rw [show piecesIn [s.event (.recv (some []))] = [] from rfl, List.append_nil]
        exact hcontents
      · have hpiece : piecesIn [s.event (.recv (some xs))] = [xs] := by
          simp [piecesIn, Nothread.event, hnil]
        rw [hpiece]
        unfold Nothread.Recorded
        rw [if_neg hnil]
        refine ⟨b', pieces, xs, rfl, carries_zeroed.put hput, ?_, rfl, rfl, hcontents⟩
        have : 0 < BUFFERSIZE := by decide
        omega
  | writefile written =>
    rw [hpoint _ rfl] at hs
    rw [show piecesIn [s.event (.writefile written)] = [] from rfl, List.append_nil]
    obtain ⟨b, before, chunk, hb, hcarries, hroom, hcount, rfl, hcontents⟩ := hs
    have hsize : toSize s.bytesReceived = chunk.length := by
      rw [hcount]
      exact toSize_natCast (by simp only [BUFFERSIZE] at hroom; omega)
    have hwritten : written = some (toSize s.bytesReceived) := hguard
    rw [hwritten, hsize] at ht
    obtain ⟨b', hb', ht⟩ := Option.bind_eq_some_iff.1 ht
    obtain rfl := Option.some.inj (hb.symm.trans hb')
    obtain ⟨data, hdata, ht⟩ := Option.bind_eq_some_iff.1 ht
    rw [hsize] at hdata
    obtain rfl := Option.some.inj (hcarries.front_eq.symm.trans hdata)
    obtain ⟨-, rfl⟩ := Option.ite_some_none_eq_some.1 ht
    refine ⟨b, before, chunk, hb, hcarries, hroom, rfl, ?_⟩
    rw [hcontents, List.take_length, List.flatten_append, List.flatten_singleton, List.append_assoc]
  | strchr =>
    rw [hpoint _ rfl] at hs
    rw [show piecesIn [s.event .strchr] = [] from rfl, List.append_nil]
    obtain ⟨b, before, chunk, hb, hcarries, hroom, rfl, hfile⟩ := hs
    obtain ⟨b', hb', ht⟩ := Option.bind_eq_some_iff.1 ht
    obtain rfl := Option.some.inj (hb.symm.trans hb')
    obtain ⟨text, -, rfl⟩ := Option.map_eq_some_iff.1 ht
    split
    · refine ⟨⟨_, ?_, carries_zeroed⟩, hfile, by simp⟩
      show s.buffer.map _ = _
      rw [hb, Option.map_some]
    · refine ⟨?_, ?_⟩
      · show s.file.getD [] = _
        rw [hfile, Option.getD_some]
      · show s.buffer.isSome
        rw [hb, Option.isSome_some]
  | readfile read =>
    rw [hpoint _ rfl] at hs
    rw [show piecesIn [s.event (.readfile read)] = [] from rfl, List.append_nil]
    obtain ⟨⟨b, hb, hcarries⟩, hfile, hne⟩ := hs
    have hread : read = some (min BUFFERSIZE s.contents.length) := hguard
    have hcontents : s.contents = initial ++ pieces.flatten := by
      unfold Nothread.contents
      rw [hfile, Option.getD_some]
    rw [hread, hcontents] at ht
    obtain ⟨contents, hc, ht⟩ := Option.bind_eq_some_iff.1 ht
    obtain rfl := Option.some.inj (hfile.symm.trans hc)
    obtain ⟨-, ht⟩ := Option.ite_none_right_eq_some.1 ht
    obtain ⟨b', hb', ht⟩ := Option.bind_eq_some_iff.1 ht
    obtain rfl := Option.some.inj (hb.symm.trans hb')
    obtain ⟨b'', hput, rfl⟩ := Option.map_eq_some_iff.1 ht
    exact ⟨(hcarries.put hput).front_of_take rfl, hfile, hne⟩
  | send sent =>
    rw [hpoint _ rfl] at hs
    obtain ⟨hdata, hfile, -⟩ := hs
    have hcontents : s.contents = initial ++ pieces.flatten := by
      unfold Nothread.contents
      rw [hfile, Option.getD_some]
    cases sent with
    | none =>
      rw [show piecesIn [s.event (.send none)] = [] from rfl, List.append_nil]
      obtain rfl := Option.some.inj ht
      exact hcontents
    | some n =>
      rw [show piecesIn [s.event (.send (some n))] = [] from rfl, List.append_nil]
      obtain ⟨data, -, ht⟩ := Option.bind_eq_some_iff.1 ht
      obtain ⟨-, rfl⟩ := Option.ite_some_none_eq_some.1 ht
      obtain ⟨b, hb, -⟩ := Option.bind_eq_some_iff.1 hdata
      refine ⟨hcontents, ?_⟩
      show s.buffer.isSome
      rw [hb, Option.isSome_some]
  | sendBeyond sent =>
    rw [hpoint _ rfl] at hs
    cases (s.sendBeyond_eq_none hs.1 sent).symm.trans ht
  | sigpipe | signal => exact absurd hguard id

/-- **The file and the buffer in every run without failures.** -/
theorem run_recorded (hrun : nothreadMachine.Run Nothread.Full (.init file) acts outs s) :
    s.Recorded (file.getD []) (piecesIn outs) := by
  refine hrun.invariant (I := fun _ outs s => s.Recorded (file.getD []) (piecesIn outs)) ?_ ?_
  · exact (List.append_nil _).symm
  · intro acts outs s a s' o hs hguard hstep
    rw [piecesIn_concat]
    exact step_recorded hs hguard hstep

theorem nothread_answers (hrun : nothreadMachine.Run Nothread.Full (.init file) acts outs s)
    (hpoint : s.point = .strchr) {chunk : List UInt8} (hlast : (piecesIn outs).getLast? = some chunk)
    (hnul : 0 ∉ chunk) (hnl : newline ∈ chunk) : s.search = some (s.memset.goto .readfile) := by
  have hs := run_recorded hrun
  unfold Nothread.Recorded at hs
  rw [hpoint] at hs
  obtain ⟨b, before, chunk', hb, hcarries, hroom, hpieces, -⟩ := hs
  rw [hpieces, List.getLast?_concat] at hlast
  obtain rfl := Option.some.inj hlast
  unfold Nothread.search
  rw [hb, Option.bind_some, hcarries.cstring_eq hroom hnul, Option.map_some, if_pos hnl]

theorem nothread_sendData (hrun : nothreadMachine.Run Nothread.Full (.init file) acts outs s)
    (hpoint : s.point = .send) :
    s.file = some (file.getD [] ++ (piecesIn outs).flatten) ∧ piecesIn outs ≠ [] ∧
      s.sendData = some ((file.getD [] ++ (piecesIn outs).flatten).take BUFFERSIZE) := by
  have hs := run_recorded hrun
  unfold Nothread.Recorded at hs
  rw [hpoint] at hs
  exact ⟨hs.2.1, hs.2.2, hs.1⟩

theorem nothread_sent (hrun : nothreadMachine.Run Nothread.Full (.init file) acts outs s)
    (hpoint : s.point = .send) (hguard : s.Full a) (h : s.step a = some (s', o)) :
    o = .sent s.session ((file.getD [] ++ (piecesIn outs).flatten).take BUFFERSIZE) := by
  obtain ⟨-, -, hdata⟩ := nothread_sendData hrun hpoint
  obtain ⟨⟨-, ha⟩, h⟩ := Option.ite_none_right_eq_some.1 h
  rw [hpoint] at ha
  obtain ⟨t, ht, heq⟩ := Option.map_eq_some_iff.1 h
  obtain ⟨-, rfl⟩ := Prod.mk.inj heq
  cases a with
  | send sent =>
    have hsent : sent = s.sendData.map List.length := hguard
    rw [hdata, Option.map_some] at hsent
    rw [hsent]
    unfold Nothread.event
    rw [hdata]
    exact congrArg (Event.sent s.session) List.take_length
  | sendBeyond sent => cases (s.sendBeyond_eq_none hdata sent).symm.trans ht
  | sigpipe | signal => exact absurd hguard id
  | _ => cases ha _ rfl

theorem Nothread.step_of_next (hpoint : a.point = some s.point) (h : s.next a = some s') :
    s.step a = some (s', s.event a) := by
  have hexited : s.point ≠ .exited := by
    intro hs
    rw [hs] at hpoint
    cases a <;> cases hpoint
  unfold Nothread.step
  rw [if_pos ⟨hexited, fun point hp => Option.some.inj (hpoint.symm.trans hp)⟩, h, Option.map_some]

theorem read_possible (hs : s.Recorded initial pieces) (hpoint : s.point = .readfile) :
    ∃ a s' o, s.Full a ∧ s.step a = some (s', o) ∧ s'.point = .send ∧ s'.file = s.file := by
  unfold Nothread.Recorded at hs
  rw [hpoint] at hs
  obtain ⟨⟨b, hb, hsize, -⟩, hfile, -⟩ := hs
  set contents : List UInt8 := initial ++ pieces.flatten
  have hput : (b.put 0 (contents.take (min BUFFERSIZE contents.length))).isSome := by
    unfold Buffer.put
    rw [dif_pos (by rw [hsize, List.length_take]; omega), Option.isSome_some]
  obtain ⟨b', hb'⟩ := Option.isSome_iff_exists.1 hput
  have hfull : s.Full (.readfile (some (min BUFFERSIZE contents.length))) := by
    unfold Nothread.Full Nothread.contents
    rw [hfile, Option.getD_some]
  refine ⟨_, { s with
    buffer := some b', bytesRead := ↑(min BUFFERSIZE contents.length), point := .send }, _,
    hfull, Nothread.step_of_next (congrArg some hpoint.symm) ?_, rfl, rfl⟩
  refine Option.bind_eq_some_iff.2 ⟨contents, hfile, (if_pos (le_refl _)).trans ?_⟩
  refine Option.bind_eq_some_iff.2 ⟨b, hb, ?_⟩
  rw [hb', Option.map_some]

theorem send_possible (hs : s.Recorded initial pieces) (hpoint : s.point = .send) :
    ∃ a s' o, s.Full a ∧ s.step a = some (s', o) := by
  unfold Nothread.Recorded at hs
  rw [hpoint] at hs
  obtain ⟨hdata, -, -⟩ := hs
  refine ⟨.send (s.sendData.map List.length), s.goto .recv, _, rfl,
    Nothread.step_of_next (congrArg some hpoint.symm) ?_⟩
  rw [hdata, Option.map_some]
  exact Option.bind_eq_some_iff.2 ⟨_, hdata, if_pos (le_refl _)⟩

end AesdChar
