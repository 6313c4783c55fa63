import AesdChar.Server.Service

/-!
# How a stream is cut into pieces

The receive loop by itself, together with the bytes on their way to it (`receiveLoop`). However they
are cut into pieces, the loop comes to an end. It takes in at most `BUFFERSIZE - 1` bytes: a `recv`
never asks for the last byte of the buffer, so `total_bytes_read` never gets to `bufferSize`, the
buffer never grows, and the `recv` that asks for 0 bytes ends the loop (`packet_whole_iff`).
-/

namespace AesdChar
open CInt CString Lines

/-- A thread in its receive loop, and the bytes that are still on their way to it. -/
structure Receiving where
  worker : Worker
  left : List UInt8

namespace Receiving
variable (r : Receiving)

/-- One action of the thread, up to the end of its receive loop; nobody stops the server. -/
def step (a : Action) : Option (Receiving × Unit) :=
  if r.worker.point = a.point ∧ ¬ a.point.Late then
    (r.worker.step true a).map fun w => (⟨w, r.left.drop a.heard.length⟩, ())
  else none

/-- `recv` returns at least one byte, unless it is asked for none; nothing fails. -/
def Delivers : Action → Prop
  | .malloc granted => granted = true
  | .recv received => ∃ xs ∈ received, xs <+: r.left ∧ (xs = [] → r.worker.request = 0)
  | .realloc tail => tail.isSome = true
  | _ => True

instance : (a : Action) → Decidable (r.Delivers a)
  | .malloc _ | .realloc _ => inferInstanceAs (Decidable (_ = _))
  | .recv _ => inferInstanceAs (Decidable (∃ xs ∈ _, _))
  | .checkRunning | .lockOpen | .open _ | .unlockOpen | .dispatch | .lockSeek | .ioctl _
  | .seekRead .. | .seekSend _ | .unlockSeek | .lockWrite | .write _ | .lseek | .read .. | .send _
  | .unlockWrite | .free | .lockList | .finish | .unlockList => inferInstanceAs (Decidable True)

/-- A new thread, to which the stream is on its way. -/
def start (clientSocket : ℕ) (stream : List UInt8) : Receiving := ⟨.start clientSocket, stream⟩

end Receiving

def receiveLoop : Machine Receiving Action Unit := ⟨Receiving.step⟩

variable {stream got xs : List UInt8} {r r' : Receiving} {a : Action} {o : Unit} {w w' : Worker}

/-! ### The invariant of the loop -/

/-- What was taken in when the thread is at a point of the loop, or at its end. -/
def Receiving.Stage (w : Worker) (got : List UInt8) : Point → Prop
  | .malloc => got = [] ∧ w.bufferSize = BUFFERSIZE ∧ w.totalBytesRead = 0
  | .checkRunning | .recv => w.Loaded got ∧ newline ∉ got
  | .lockOpen => w.Loaded got ∧ (newline ∈ got ∨ got.length = BUFFERSIZE - 1)
  | _ => False

/-- The thread has taken in the front of the stream, and there is room behind it. -/
structure Receiving.Holds (stream : List UInt8) (r : Receiving) (got : List UInt8) : Prop where
  split : stream = got ++ r.left
  room : got.length < BUFFERSIZE
  stage : Receiving.Stage r.worker got r.worker.point

/-- How many actions the loop has left at most. -/
def Receiving.rank (r : Receiving) : ℕ :=
  match r.worker.point with
  | .malloc => 2 * BUFFERSIZE + 3
  | .checkRunning => 2 * (BUFFERSIZE - r.worker.totalBytesRead.toNat) + 2
  | .recv => 2 * (BUFFERSIZE - r.worker.totalBytesRead.toNat) + 1
  | _ => 0

theorem Receiving.holds_start (clientSocket : ℕ) (stream : List UInt8) :
    (start clientSocket stream).Holds stream [] where
  split := rfl
  room := by decide
  stage := ⟨rfl, rfl, rfl⟩

theorem Receiving.step_eq (hpoint : r.worker.point = a.point) (hearly : ¬ a.point.Late)
    (hw : r.worker.step true a = some w) : r.step a = some (⟨w, r.left.drop a.heard.length⟩, ()) := by
  rw [Receiving.step, if_pos ⟨hpoint, hearly⟩, hw]
  rfl

theorem Receiving.Holds.receive (hr : r.Holds stream got) (hnul : 0 ∉ stream)
    (hpoint : r.worker.point = .recv) (hxs : xs <+: r.left)
    (hnil : xs = [] → r.worker.request = 0) (hlen : xs.length ≤ r.worker.request) :
    ∃ w, r.worker.receive (some xs) = some w ∧
      Holds stream ⟨w, r.left.drop xs.length⟩ (got ++ xs) ∧
      Receiving.rank ⟨w, r.left.drop xs.length⟩ < r.rank := by
  have hstage := hr.stage
  rw [hpoint] at hstage
  obtain ⟨hloaded, hfree⟩ := hstage
  have hroom := hr.room
  have hrequest := hloaded.request_eq hr.room
  rw [hrequest] at hlen hnil
  have hroom' : (got ++ xs).length < BUFFERSIZE := by
    rw [List.length_append]
    omega
  obtain ⟨rest, hrest⟩ := hxs
  have hsplit : stream = got ++ xs ++ rest := by rw [hr.split, ← hrest, List.append_assoc]
  have hnul' : 0 ∉ got ++ xs := by
    intro hmem
    rw [hsplit] at hnul
    exact hnul (List.mem_append_left _ hmem)
  obtain ⟨w, hreceive, hloaded', hpoint'⟩ := hloaded.receive_point hroom' hnul'
  have hdrop : r.left.drop xs.length = rest := by rw [← hrest, List.drop_left]
  refine ⟨w, hreceive, ⟨by rw [hdrop]; exact hsplit, hroom', ?_⟩, ?_⟩
  · by_cases hend : xs = [] ∨ newline ∈ got ++ xs
    · rw [if_pos hend] at hpoint'
      rw [hpoint']
      refine ⟨hloaded', hend.symm.imp_right fun h => ?_⟩
      have hfull := hnil h
      rw [h, List.append_nil]
      omega
    · rw [if_neg hend] at hpoint'
      rw [hpoint']
      exact ⟨hloaded', fun hmem => hend (Or.inr hmem)⟩
  · have htotal : r.worker.totalBytesRead.toNat = got.length := by rw [hloaded.total, Int.toNat_natCast]
    by_cases hend : xs = [] ∨ newline ∈ got ++ xs
    · rw [if_pos hend] at hpoint'
      simp only [Receiving.rank, hpoint, hpoint']
      omega
    · rw [if_neg hend] at hpoint'
      have hpos : 0 < xs.length := List.length_pos_iff.2 fun h => hend (Or.inl h)
      simp only [Receiving.rank, hpoint, hpoint', hloaded'.total, htotal, Int.toNat_natCast]
      rw [List.length_append] at hroom' ⊢
      omega

theorem Receiving.Holds.step (hr : r.Holds stream got) (hnul : 0 ∉ stream) (hguard : r.Delivers a)
    (hstep : r.step a = some (r', o)) : (∃ got', r'.Holds stream got') ∧ r'.rank < r.rank := by
  obtain ⟨⟨hpoint, hearly⟩, hstep⟩ := Option.ite_none_right_eq_some.1 hstep
  obtain ⟨w, hw, heq⟩ := Option.map_eq_some_iff.1 hstep
  obtain ⟨rfl, -⟩ := Prod.mk.inj heq
  have hstage := hr.stage
  rw [hpoint] at hstage
  cases a with
  | malloc granted =>
    obtain rfl : granted = true := hguard
    obtain rfl := Option.some.inj hw
    obtain ⟨rfl, hsize, htotal⟩ := hstage
    refine ⟨⟨[], hr.split, hr.room, ⟨hsize, htotal, _, rfl, rfl, rfl⟩, by simp⟩, ?_⟩
    simp only [Receiving.rank, hpoint, Action.point, htotal]
    omega
  | checkRunning =>
    obtain rfl := Option.some.inj hw
    refine ⟨⟨got, hr.split, hr.room, hstage.1.of_eq rfl rfl rfl, hstage.2⟩, ?_⟩
    simp only [Receiving.rank, hpoint, Action.point, Worker.goto, if_true]
    omega
  | recv received =>
    obtain ⟨xs, hsome, hxs, hnil⟩ := hguard
    obtain rfl : received = some xs := hsome
    have hlen := (Option.ite_none_right_eq_some.1 hw).1
    obtain ⟨w', hreceive, hholds, hrank⟩ := hr.receive hnul hpoint hxs hnil hlen
    obtain rfl := Option.some.inj (hreceive.symm.trans hw)
    exact ⟨⟨_, hholds⟩, hrank⟩
  | realloc tail => exact hstage.elim
  | _ => exact absurd (by simp [Action.point, Point.Late]) hearly

theorem Receiving.Holds.can_step (hr : r.Holds stream got) (hnul : 0 ∉ stream)
    (hline : newline ∈ stream) (hend : r.worker.point ≠ .lockOpen) :
    ∃ a r' o, r.Delivers a ∧ r.step a = some (r', o) := by
  have hstage := hr.stage
  cases hpoint : r.worker.point with
  | malloc => exact ⟨.malloc true, _, (), rfl, step_eq hpoint (by decide) rfl⟩
  | checkRunning => exact ⟨.checkRunning, _, (), trivial, step_eq hpoint (by decide) rfl⟩
  | recv =>
    rw [hpoint] at hstage
    obtain ⟨hloaded, hfree⟩ := hstage
    have hleft : r.left ≠ [] := by
      intro hnil
      rw [hr.split, hnil, List.append_nil] at hline
      exact hfree hline
    -- as many bytes as are asked for, as far as there are any
    have hpiece : r.left.take r.worker.request = [] → r.worker.request = 0 := by
      intro hnil
      exact (List.take_eq_nil_iff.1 hnil).resolve_right hleft
    obtain ⟨w, hreceive, -⟩ := hr.receive hnul hpoint (List.take_prefix _ _) hpiece
      (List.length_take_le _ _)
    exact ⟨.recv (some (r.left.take r.worker.request)), _, (),
      ⟨_, rfl, List.take_prefix _ _, hpiece⟩, step_eq hpoint (by decide : ¬ Point.Late .recv) hreceive⟩
  | lockOpen => exact absurd hpoint hend
  | _ =>
    rw [hpoint] at hstage
    exact hstage.elim

/-! ### Whole packets -/

/-- The thread has received the packet: `total_bytes_read` is its length, and it is in the buffer. -/
def Worker.Whole (w : Worker) (packet : List UInt8) : Prop :=
  w.totalBytesRead = packet.length ∧ ∃ b ∈ w.buffer, b.front packet.length = some packet

theorem Receiving.Holds.whole_iff {packet : List UInt8} (hr : r.Holds packet got)
    (hline : IsLine isNewline packet) (hend : r.worker.point = .lockOpen) :
    r.worker.Whole packet ↔ packet.length ≤ BUFFERSIZE - 1 := by
  have hstage := hr.stage
  rw [hend] at hstage
  obtain ⟨hloaded, hout⟩ := hstage
  have hroom := hr.room
  constructor
  · rintro ⟨htotal, -⟩
    rw [hloaded.total] at htotal
    omega
  · intro hfits
    have hleft : r.left = [] := by
      by_contra hne
      have hsplit := hr.split
      rw [hsplit] at hline
      have hlen : packet.length = got.length + r.left.length := by rw [hsplit, List.length_append]
      have hpos := List.length_pos_iff.2 hne
      rcases hout with hmem | hfull
      · simpa [isNewline] using hline.free_of_append hne newline hmem
      · omega
    have hgot : packet = got := by rw [hr.split, hleft, List.append_nil]
    obtain ⟨b, hb, -, hbytes⟩ := hloaded.buffer
    refine ⟨hgot ▸ hloaded.total, b, hb, ?_⟩
    rw [hgot, ← hbytes, Buffer.front_length]

theorem run_holds_receiving {c : ℕ} {acts : List Action} {outs : List Unit} (hnul : 0 ∉ stream)
    (hrun : receiveLoop.Run Receiving.Delivers (.start c stream) acts outs r) :
    (∃ got, r.Holds stream got) ∧ acts.length + r.rank ≤ 2 * BUFFERSIZE + 3 :=
  hrun.length_add_rank_le (I := fun r => ∃ got, r.Holds stream got) Receiving.rank
    ⟨[], Receiving.holds_start c stream⟩ (by
      rintro r a r' o ⟨got, hr⟩ hguard hstep
      exact hr.step hnul hguard hstep)

/-- **When a packet is received whole**: however the packet is cut, the receive loop can go on until
it comes to its end after at most `2 * BUFFERSIZE + 3` actions, and there the packet is in the buffer
exactly when it is shorter than the buffer. -/
theorem packet_whole_iff {packet : List UInt8} (hline : IsLine isNewline packet)
    (hnul : 0 ∉ packet) {c : ℕ} {acts : List Action} {outs : List Unit}
    (hrun : receiveLoop.Run Receiving.Delivers (.start c packet) acts outs r) :
    acts.length ≤ 2 * BUFFERSIZE + 3 ∧
    (r.worker.point ≠ .lockOpen → ∃ a r' o, r.Delivers a ∧ receiveLoop.step r a = some (r', o)) ∧
    (r.worker.point = .lockOpen → (r.worker.Whole packet ↔ packet.length ≤ BUFFERSIZE - 1)) := by
  obtain ⟨⟨got, hr⟩, hrank⟩ := run_holds_receiving hnul hrun
  obtain ⟨body, d, heq, hd, -⟩ := isLine_iff.1 hline
  have hmem : newline ∈ packet := by
    have hd : d = newline := by simpa [isNewline] using hd
    simp [heq, hd]
  refine ⟨by omega, fun hend => ?_, fun hend => hr.whole_iff hline hend⟩
  exact hr.can_step hnul hmem hend

theorem packet_whole_iff_two_pieces : ∃ r, receiveLoop.Reachable Receiving.Delivers
    (.start 0 [97, 98, 10]) r ∧ r.worker.Whole [97, 98, 10] := by
  set acts : List Action :=
    [.malloc true, .checkRunning, .recv (some [97, 98]), .checkRunning, .recv (some [10])]
  obtain ⟨⟨r, outs⟩, hexec, hend⟩ := Option.map_eq_some_iff.1
    (show (receiveLoop.execGuarded Receiving.Delivers (.start 0 [97, 98, 10]) acts).map
      (fun r => r.1.worker.point) = some .lockOpen by decide +kernel)
  have hrun := Machine.Run.of_execGuarded hexec
  obtain ⟨-, -, hwhole⟩ := packet_whole_iff (by decide) (by decide) hrun
  exact ⟨r, ⟨_, _, hrun⟩, (hwhole hend).2 (by decide)⟩

/-- A packet of 48000 bytes: the loop comes to its end without the last one. -/
theorem long_packet_not_whole : ¬ ∀ (packet : List UInt8) (r : Receiving),
    IsLine isNewline packet → 0 ∉ packet →
      receiveLoop.Reachable Receiving.Delivers (.start 0 packet) r → r.worker.point = .lockOpen →
        r.worker.Whole packet := by
  intro h
  set packet : List UInt8 := List.replicate 47999 97 ++ [newline] with hpacket
  have hline : IsLine isNewline packet :=
    isLine_iff.2 ⟨_, newline, rfl, rfl, fun x hx => by rw [List.eq_of_mem_replicate hx]; decide⟩
  have hmem : newline ∈ packet := List.mem_append_right _ (List.mem_singleton_self _)
  have hnul : 0 ∉ packet := by
    intro hzero
    rcases List.mem_append.1 hzero with hzero | hzero
    · exact absurd (List.eq_of_mem_replicate hzero) (by decide)
    · exact absurd (List.mem_singleton.1 hzero) (by decide)
  obtain ⟨r, hreach, ⟨got, hr⟩, hend⟩ :=
    (Machine.Reachable.refl (m := receiveLoop)).exists_end (I := fun r => ∃ got, r.Holds packet got)
      Receiving.rank (fun r => r.worker.point = .lockOpen)
      (fun _ _ _ _ ⟨_, hr⟩ hguard hstep => hr.step hnul hguard hstep)
      (fun _ ⟨_, hr⟩ hend => hr.can_step hnul hmem hend)
      ⟨[], Receiving.holds_start 0 packet⟩
  have hfits := (hr.whole_iff hline hend).1 (h packet r hline hnul hreach hend)
  rw [hpacket, List.length_append, List.length_replicate] at hfits
  exact absurd hfits (by decide)

end AesdChar
