import AesdChar.Server.Service

/-!
# Which packets are commands

A packet is a seek command when it is the keyword, two unsigned decimal numbers of 32 bits with a
comma between them, and the newline (`SeekCommand`). The thread looks for the keyword anywhere in
the text, and then lets `sscanf` read what it can. On a seek command both agree. Any other text with
the keyword in it is either taken for a command that it is not, or dropped (`dispatched_iff`).
-/

namespace AesdChar
open CInt CString

variable {packet : List UInt8} {seekto : AesdSeekto} {requests : List Request}
  {sent : List UInt8} {w : Worker}

/-- A decimal number without a sign, of 32 bits. -/
structure Decimal (xs : List UInt8) : Prop where
  ne_nil : xs ≠ []
  digits : ∀ x ∈ xs, isdigit x = true
  fits : digitsValue xs < 2 ^ 32

/-- The grammar of the command: `AESDCHAR_IOCSEEKTO:X,Y` and a newline. -/
def SeekCommand (packet : List UInt8) (seekto : AesdSeekto) : Prop :=
  ∃ x y, Decimal x ∧ Decimal y ∧ packet = SEARCHSTRING ++ x ++ [44] ++ y ++ [newline] ∧
    seekto = ⟨.ofNat (digitsValue x), .ofNat (digitsValue y)⟩

/-- What a packet makes the thread ask of its descriptor. -/
def requestsFor (packet : List UInt8) : List Request :=
  match strstr SEARCHSTRING packet with
  | none => [.write packet]
  | some seekStr => (sscanfSeekto (seekStr.drop SEARCHSTRING.length)).toList.map .seek

/-- A command is a seek to where it says, and any other packet is written once. -/
def Dispatched (packet : List UInt8) (requests : List Request) : Prop :=
  (∀ seekto, SeekCommand packet seekto → requests = [.seek seekto]) ∧
  ((∀ seekto, ¬ SeekCommand packet seekto) → requests = [.write packet])

/-- The reply to a packet that is no command ends with it, besides. -/
def Handled (packet : List UInt8) (requests : List Request) (sent : List UInt8) : Prop :=
  Dispatched packet requests ∧ ((∀ seekto, ¬ SeekCommand packet seekto) → packet <:+ sent)

theorem Decimal.scan {x rest : List UInt8} (hx : Decimal x)
    (hrest : ∀ c ∈ rest.head?, isdigit c = false) :
    scanInt (x ++ rest) = some ((digitsValue x : ℤ), rest) ∧ toUInt32 (digitsValue x) = digitsValue x := by
  have hfits := hx.fits
  constructor
  · rw [scanInt_digits hx.ne_nil hx.digits hrest, min_eq_left (by omega)]
  · rw [toUInt32_of_range (Int.natCast_nonneg _) (by omega), Int.toNat_natCast]

theorem SeekCommand.parsed (h : SeekCommand packet seekto) :
    strstr SEARCHSTRING packet = some packet ∧
      sscanfSeekto (packet.drop SEARCHSTRING.length) = some seekto := by
  obtain ⟨x, y, hx, hy, rfl, rfl⟩ := h
  have hdrop : (SEARCHSTRING ++ x ++ [44] ++ y ++ [newline]).drop SEARCHSTRING.length =
      x ++ (44 :: (y ++ [newline])) := by
    simp only [List.append_assoc, List.drop_left, List.cons_append, List.nil_append]
  have hcomma : ∀ c ∈ (44 :: (y ++ [newline])).head?, isdigit c = false := by simp [isdigit]
  have hend : ∀ c ∈ [newline].head?, isdigit c = false := by simp [isdigit, newline]
  obtain ⟨hscan, hval⟩ := hx.scan hcomma
  obtain ⟨hscan', hval'⟩ := hy.scan hend
  constructor
  · simp only [List.append_assoc]
    exact strstr_of_front (by decide) _
  · rw [hdrop, sscanfSeekto, hscan, Option.bind_some]
    simp only [List.head?_cons, if_true, List.tail_cons, hscan', Option.map_some, hval, hval']

theorem SeekCommand.requestsFor_eq (h : SeekCommand packet seekto) :
    requestsFor packet = [.seek seekto] := by
  obtain ⟨hfound, hscan⟩ := h.parsed
  unfold requestsFor
  simp only [hfound, hscan]
  rfl

theorem requestsFor_of_no_search (h : ¬ SEARCHSTRING <:+: packet) :
    requestsFor packet = [.write packet] := by
  rw [requestsFor, strstr_eq_none_iff.2 h]

theorem requestsFor_ne_write (h : SEARCHSTRING <:+: packet) : requestsFor packet ≠ [.write packet] := by
  unfold requestsFor
  cases hfound : strstr SEARCHSTRING packet with
  | none => exact absurd h (strstr_eq_none_iff.1 hfound)
  | some seekStr =>
    cases hscan : sscanfSeekto (seekStr.drop SEARCHSTRING.length) with
    | none => simp [hscan]
    | some seekto => simp [hscan]

theorem parse_cases (hw : w.Loaded packet) (hroom : packet.length < BUFFERSIZE) (hnul : 0 ∉ packet) :
    (¬ SEARCHSTRING <:+: packet ∧ w.parse = some (w.goto .lockWrite)) ∨
    (SEARCHSTRING <:+: packet ∧ ∃ seekto, requestsFor packet = [.seek seekto] ∧
      w.parse = some { w with seekto := seekto, point := .lockSeek }) ∨
    (SEARCHSTRING <:+: packet ∧ requestsFor packet = [] ∧ w.parse = some (w.goto .free)) := by
  have hparse := hw.parse_eq hroom hnul
  cases hfound : strstr SEARCHSTRING packet with
  | none =>
    simp only [hfound] at hparse
    exact Or.inl ⟨strstr_eq_none_iff.1 hfound, hparse⟩
  | some seekStr =>
    have hsearch : SEARCHSTRING <:+: packet := by
      by_contra hnot
      rw [strstr_eq_none_iff.2 hnot] at hfound
      cases hfound
    simp only [hfound] at hparse
    unfold requestsFor
    simp only [hfound]
    cases hscan : sscanfSeekto (seekStr.drop SEARCHSTRING.length) with
    | none =>
      simp only [hscan] at hparse
      exact Or.inr (Or.inr ⟨hsearch, rfl, hparse⟩)
    | some seekto =>
      simp only [hscan] at hparse
      exact Or.inr (Or.inl ⟨hsearch, seekto, rfl, hparse⟩)

/-- A packet is dispatched by the grammar when it is a command, or has no keyword in it. -/
theorem dispatched_iff (hrequests : requests = requestsFor packet) : Dispatched packet requests ↔
    ¬ SEARCHSTRING <:+: packet ∨ ∃ seekto, SeekCommand packet seekto := by
  subst hrequests
  constructor
  · rintro ⟨-, hwrite⟩
    by_contra hnot
    rw [not_or, not_not, not_exists] at hnot
    exact requestsFor_ne_write hnot.1 (hwrite hnot.2)
  · rintro (hsearch | ⟨seekto, hcommand⟩)
    · refine ⟨fun seekto hcommand => ?_, fun _ => requestsFor_of_no_search hsearch⟩
      have hnone := strstr_eq_none_iff.2 hsearch
      rw [hcommand.parsed.1] at hnone
      cases hnone
    · refine ⟨fun seekto' hcommand' => ?_, fun hnot => absurd hcommand (hnot seekto)⟩
      rw [hcommand'.requestsFor_eq]

theorem handled_iff (hrequests : requests = requestsFor packet)
    (hsent : ¬ SEARCHSTRING <:+: packet → packet <:+ sent) : Handled packet requests sent ↔
      ¬ SEARCHSTRING <:+: packet ∨ ∃ seekto, SeekCommand packet seekto := by
  constructor
  · intro hhandled
    exact (dispatched_iff hrequests).1 hhandled.1
  · intro hpacket
    refine ⟨(dispatched_iff hrequests).2 hpacket, fun hnot => ?_⟩
    rcases hpacket with hsearch | ⟨seekto, hcommand⟩
    · exact hsent hsearch
    · exact absurd hcommand (hnot seekto)

end AesdChar
