import Mathlib.Data.List.Forall2
import QuorumLog.Proofs.FrameCodec

/-! Frames one behind the other on a stream. The reader takes the border of a frame from its header
before it looks at anything else. For every stream of frames these borders are those of the writer,
so wherever the stream ends, the messages whose frames are whole come out and no others. -/

namespace QuorumLog.Frame

variable {m : Message} {messages : List Message} {frame : Bytes} {frames : List Bytes}
variable {stream rest torn : Bytes}

/-! ### The first frame -/

theorem length_of_encode (encoded : encode m = .ok frame) : frame.length = 9 + m.payloadSize := by
  obtain ⟨-, rfl⟩ := encode_of_ok encoded
  rw [length_sealed, length_padded, List.length_nil]
  omega

/-- Bytes that end inside a frame, or before it. -/
def Torn (bytes : Bytes) : Prop :=
  ∃ m frame, encode m = .ok frame ∧ bytes <+: frame ∧ bytes.length < frame.length

theorem torn_nil : Torn [] := by
  obtain ⟨frame, encoded⟩ := (encode_ok_iff (.ping 0)).mpr (by decide)
  refine ⟨_, frame, encoded, List.nil_prefix, ?_⟩
  rw [length_of_encode encoded, List.length_nil]
  omega

/-- A frame that is not whole gives no message, and the reader finds the end of the stream. -/
theorem next_torn (cut : Torn torn) : next torn = (.error (.io .earlyEnd), []) := by
  obtain ⟨m, frame, encoded, begins, short⟩ := cut
  rw [length_of_encode encoded] at short
  rw [next]
  by_cases header : torn.length < 5
  · exact if_pos header
  rw [if_neg header]
  -- The header is whole, so it announces the payload of the message.
  have announced : LittleEndian.decode ((torn.drop 1).take 4) = m.payloadSize := by
    obtain ⟨small, rfl⟩ := encode_of_ok encoded
    obtain ⟨later, split⟩ := begins
    have within : m.payloadSize + ([] : Bytes).length < UInt32.size :=
      Nat.lt_of_le_of_lt small (by decide)
    have whole := length_of_padded within
      (LittleEndian.encode 4 (Crc32.checksum (padded m [])).toNat)
    rw [← sealed, ← split, List.length_nil, Nat.add_zero, List.drop_append_of_le_length (by omega),
      List.take_append_of_le_length (by rw [List.length_drop]; omega)] at whole
    exact whole
  have small : ¬maxPayload < m.payloadSize := Nat.not_lt.mpr (encode_of_ok encoded).1
  simp only [announced, if_neg small, if_pos short]

/-- What a message is read from is a part of the stream that the reader does not look behind. -/
theorem next_append (read : next stream = (.ok m, rest)) (more : Bytes) :
    next (stream ++ more) = (.ok m, rest ++ more) := by
  unfold next at read ⊢
  split at read
  · cases read
  rename_i header
  have header' : ¬(stream ++ more).length < 5 := by
    rw [List.length_append]
    omega
  have announced : ((stream ++ more).drop 1).take 4 = (stream.drop 1).take 4 := by
    rw [List.drop_append_of_le_length (by omega), List.take_append_of_le_length]
    rw [List.length_drop]
    omega
  rw [if_neg header', announced]
  dsimp only at read ⊢
  split at read
  · cases read
  rename_i small
  split at read
  · cases read
  rename_i whole
  have whole' : ¬(stream ++ more).length < 9 + LittleEndian.decode ((stream.drop 1).take 4) := by
    rw [List.length_append]
    omega
  rw [if_neg small, if_neg whole', List.take_append_of_le_length (by omega),
    List.drop_append_of_le_length (by omega)]
  obtain ⟨decoded, left⟩ := Prod.mk.inj read
  rw [decoded, left]

/-! ### All frames -/

/-- One step of reading. -/
theorem readAll_eq (stream : Bytes) : readAll stream =
    match next stream with
    | (.error fault, rest) => ⟨[], fault, rest⟩
    | (.ok m, rest) => { readAll rest with messages := m :: (readAll rest).messages } := by
  rw [readAll]
  split <;> rename_i read <;> rw [read]

theorem readAll_torn (cut : Torn torn) : readAll torn = ⟨[], .io .earlyEnd, []⟩ := by
  rw [readAll_eq, next_torn cut]

/-- Frames in front of other bytes give their messages, and then the other bytes give theirs. -/
theorem readAll_frames (fits : ∀ m ∈ messages, m.Fits)
    (framed : List.Forall₂ (fun m frame => encode m = .ok frame) messages frames) (rest : Bytes) :
    readAll (frames.flatten ++ rest) =
      { readAll rest with messages := messages ++ (readAll rest).messages } := by
  induction framed with
  | nil => rfl
  | cons encoded _ ih =>
    obtain ⟨head, tail⟩ := List.forall_mem_cons.mp fits
    rw [List.flatten_cons, List.append_assoc, readAll_eq, next_encode head encoded]
    dsimp only
    rw [ih tail, List.cons_append]

/-- More bytes at the end of a stream change none of the messages that were read from it before. -/
theorem readAll_append (stream more : Bytes) :
    (readAll stream).messages <+: (readAll (stream ++ more)).messages := by
  fun_induction readAll stream with
  | case1 stream fault rest _ => exact List.nil_prefix
  | case2 stream m rest read later ih =>
    rw [readAll_eq (stream ++ more), next_append read]
    exact List.cons_prefix_cons.mpr ⟨rfl, ih⟩

/-- The writer puts the frames of several messages one behind the other. -/
theorem encodeAll_frames (framed : List.Forall₂ (fun m frame => encode m = .ok frame) messages frames) :
    encodeAll messages = .ok frames.flatten := by
  have behind (written : Bytes) :
      messages.foldlM (fun stream m => (encode m).map (stream ++ ·)) written =
        .ok (written ++ frames.flatten) := by
    induction framed generalizing written with
    | nil => exact congrArg Except.ok (List.append_nil written).symm
    | cons encoded _ ih =>
      rw [List.foldlM_cons, encoded, List.flatten_cons, ← List.append_assoc]
      exact ih _
  exact behind []

/-- The first bytes of a stream of frames are the frames that end there or before, and the beginning of
another one. -/
theorem take_frames (framed : List.Forall₂ (fun m frame => encode m = .ok frame) messages frames)
    (length : Nat) : ∃ whole ≤ messages.length, ∃ torn, Torn torn ∧
      frames.flatten.take length = (frames.take whole).flatten ++ torn ∧
      ∀ i < messages.length, i < whole ↔ (frames.take (i + 1)).flatten.length ≤ length := by
  induction framed generalizing length with
  | nil => exact ⟨0, Nat.le_refl _, [], torn_nil, by simp, by simp⟩
  | @cons m frame messages frames encoded _ ih =>
    by_cases ends : frame.length ≤ length
    · obtain ⟨whole, within, torn, cut, bytes, survives⟩ := ih (length - frame.length)
      refine ⟨whole + 1, Nat.succ_le_succ within, torn, cut, ?_, fun i inside => ?_⟩
      · rw [List.flatten_cons, List.take_append, bytes, List.take_of_length_le ends,
          List.take_succ_cons, List.flatten_cons, List.append_assoc]
      · rw [List.take_succ_cons, List.flatten_cons, List.length_append]
        cases i with
        | zero =>
          rw [List.take_zero, List.flatten_nil, List.length_nil]
          omega
        | succ i =>
          have rest := survives i (Nat.lt_of_succ_lt_succ inside)
          omega
    · refine ⟨0, Nat.zero_le _, frame.take length, ⟨m, frame, encoded, List.take_prefix .., ?_⟩, ?_,
        fun i inside => ?_⟩
      · rw [List.length_take]
        omega
      · rw [List.flatten_cons, List.take_append_of_le_length (by omega)]
        rfl
      · rw [List.take_succ_cons, List.flatten_cons, List.length_append]
        omega

/-- The frames of any messages tell where they end. Whatever stands behind them is read as if it stood
alone; if nothing does, all messages come out and no byte is left; and if the stream is cut anywhere,
the messages come out whose frames are whole, and then the end of the stream. -/
theorem self_delimiting (fits : ∀ m ∈ messages, m.Fits)
    (framed : List.Forall₂ (fun m frame => encode m = .ok frame) messages frames) :
    encodeAll messages = .ok frames.flatten ∧
    readAll frames.flatten = ⟨messages, .io .earlyEnd, []⟩ ∧
    (∀ length, ∃ whole ≤ messages.length,
      readAll (frames.flatten.take length) = ⟨messages.take whole, .io .earlyEnd, []⟩ ∧
      ∀ i < messages.length, i < whole ↔ (frames.take (i + 1)).flatten.length ≤ length) ∧
    (∀ rest, readAll (frames.flatten ++ rest) =
      { readAll rest with messages := messages ++ (readAll rest).messages }) ∧
    ∀ stream more, (readAll stream).messages <+: (readAll (stream ++ more)).messages := by
  refine ⟨encodeAll_frames framed, ?_, fun length => ?_, readAll_frames fits framed, readAll_append⟩
  · have all := readAll_frames fits framed []
    rwa [List.append_nil, readAll_torn torn_nil, List.append_nil] at all
  · obtain ⟨whole, within, torn, cut, bytes, survives⟩ := take_frames framed length
    refine ⟨whole, within, ?_, survives⟩
    have shorter := List.forall₂_take whole framed
    have held : ∀ m ∈ messages.take whole, m.Fits := fun m member =>
      fits m (List.mem_of_mem_take member)
    rw [bytes, readAll_frames held shorter, readAll_torn cut, List.append_nil]

/-- Two frames on a stream that ends one byte early give one message. -/
theorem delimited_pings : ∃ first second, encode (.ping 7) = .ok first ∧
    encode (.ack 9) = .ok second ∧
    readAll ((first ++ second).take (first.length + second.length - 1)) =
      ⟨[.ping 7], .io .earlyEnd, []⟩ := by
  obtain ⟨first, encoded⟩ := (encode_ok_iff (.ping 7)).mpr (by decide)
  obtain ⟨second, encoded'⟩ := (encode_ok_iff (.ack 9)).mpr (by decide)
  have fits : ∀ m ∈ [Message.ping 7, .ack 9], m.Fits := by
    simp [Message.Fits]
    decide
  obtain ⟨-, -, cuts, -⟩ := self_delimiting fits (.cons encoded (.cons encoded' .nil))
  obtain ⟨whole, within, read, survives⟩ := cuts (first.length + second.length - 1)
  have one : whole = 1 := by
    have positive : 9 ≤ second.length := by
      rw [length_of_encode encoded']
      omega
    have kept := survives 0 (by decide)
    have lost := survives 1 (by decide)
    simp only [List.take_succ_cons, List.take_zero, List.flatten_cons, List.flatten_nil,
      List.append_nil, List.length_append] at kept lost
    omega
  rw [one] at read
  simp only [List.flatten_cons, List.flatten_nil, List.append_nil] at read
  exact ⟨first, second, encoded, encoded', read⟩

end QuorumLog.Frame
