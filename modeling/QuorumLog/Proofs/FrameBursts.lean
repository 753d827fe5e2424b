import QuorumLog.Proofs.Checksums
import QuorumLog.Proofs.FrameFormat
import QuorumLog.Proofs.FrameStreams

/-! Damage to a frame that falls into four bytes in a row. It is always noticed, also where it reaches
from one field into the next: the checksum stands behind what it covers with its lowest byte first, so
the register passes over a frame as over one string of bytes and stands at the same place behind any of
them, and four bytes that were changed lead it elsewhere. -/

namespace QuorumLog.Frame

variable {m : Message} {frame changed left right first second : Bytes} {position : Nat}

/-- The bytes of two strings are the same outside of four bytes in a row. -/
def SameOutside (position : Nat) (left right : Bytes) : Prop :=
  left.length = right.length ∧ ∀ i, i < position ∨ position + 4 ≤ i → left[i]? = right[i]?

/-- Strings that are the same outside of four bytes have a word of four bytes each at the same place. A
window that reaches behind the end is moved back to it. -/
theorem SameOutside.words (same : SameOutside position left right) (long : 4 ≤ left.length) :
    ∃ front word word' back : Bytes, left = front ++ (word ++ back) ∧
      right = front ++ (word' ++ back) ∧ word.length = 4 ∧ word'.length = 4 := by
  obtain ⟨lengths, outside⟩ := same
  generalize start : min position (left.length - 4) = at_
  have split (bytes : Bytes) :
      bytes = bytes.take at_ ++ ((bytes.drop at_).take 4 ++ bytes.drop (at_ + 4)) := by
    rw [← List.drop_drop, List.take_append_drop, List.take_append_drop]
  have four (bytes : Bytes) (equal : bytes.length = left.length) :
      ((bytes.drop at_).take 4).length = 4 := by
    rw [List.length_take, List.length_drop]
    omega
  have front : left.take at_ = right.take at_ := by
    refine List.ext_getElem? fun i => ?_
    rw [List.getElem?_take, List.getElem?_take]
    split
    · exact outside i (.inl (by omega))
    · rfl
  have back : left.drop (at_ + 4) = right.drop (at_ + 4) := by
    refine List.ext_getElem? fun i => ?_
    rw [List.getElem?_drop, List.getElem?_drop]
    by_cases within : at_ + 4 + i < left.length
    · exact outside _ (.inr (by omega))
    · rw [List.getElem?_eq_none (by omega), List.getElem?_eq_none (by omega)]
  refine ⟨left.take at_, _, (right.drop at_).take 4, _, split left, ?_, four left rfl,
    four right lengths.symm⟩
  rw [front, back]
  exact split right

/-- Two sealed byte strings never differ in four bytes alone. -/
theorem eq_of_sealed
    (same : SameOutside position (sealed first) (sealed second)) : sealed first = sealed second := by
  obtain ⟨front, word, word', back, split, split', four, four'⟩ :=
    same.words (by simp [length_sealed])
  have stands := (Crc32.run_checksum first).trans (Crc32.run_checksum second).symm
  rw [← sealed, ← sealed, split, split', Crc32.run_append, Crc32.run_append, Crc32.run_append,
    Crc32.run_append] at stands
  have equal := Crc32.word_of_run four four' (Crc32.run_injective back stands)
  rw [split, split', equal]

/-- A frame of which up to four bytes in a row were changed is refused for its checksum, whatever stood
there. -/
theorem burst_detected (encoded : encode m = .ok frame) (same : SameOutside position changed frame)
    (differs : changed ≠ frame) : ∃ stored computed, stored ≠ computed ∧
      decode changed = .error (.protocol (.checksum stored computed)) := by
  obtain ⟨-, frame_eq⟩ := encode_of_ok encoded
  have length := length_of_encode encoded
  have long : ¬changed.length < 9 := by
    have equal := same.1
    omega
  have apart : UInt32.ofNat (LittleEndian.decode (changed.drop (changed.length - 4))) ≠
      Crc32.checksum (changed.take (changed.length - 4)) := by
    intro agree
    have sealed_eq := sealed_of_checksum (by omega) rfl agree
    rw [sealed_eq, frame_eq] at same differs
    exact differs (eq_of_sealed same)
  refine ⟨_, _, apart, ?_⟩
  simp only [decode, if_neg long, if_pos apart]
  rfl

/-- The last two bytes of a payload and the first two of the checksum behind it are changed. -/
theorem burst_at_border : ∃ frame changed, encode (.ping 7) = .ok frame ∧
    SameOutside 15 changed frame ∧ changed ≠ frame ∧ ∃ stored computed, stored ≠ computed ∧
      decode changed = .error (.protocol (.checksum stored computed)) := by
  have encoded : encode (.ping 7) =
      .ok [16, 12, 0, 0, 0, 2, 0, 0, 0, 7, 0, 0, 0, 0, 0, 0, 0, 142, 44, 98, 159] := by
    decide +kernel
  have within : ∀ i < 21, i < 15 ∨ 15 + 4 ≤ i →
      [16, 12, 0, 0, 0, 2, 0, 0, 0, 7, 0, 0, 0, 0, 0, 1, 2, 3, 4, 98, 159][i]? =
        ([16, 12, 0, 0, 0, 2, 0, 0, 0, 7, 0, 0, 0, 0, 0, 0, 0, 142, 44, 98, 159] : Bytes)[i]? := by
    decide
  have same : SameOutside 15 [16, 12, 0, 0, 0, 2, 0, 0, 0, 7, 0, 0, 0, 0, 0, 1, 2, 3, 4, 98, 159]
      [16, 12, 0, 0, 0, 2, 0, 0, 0, 7, 0, 0, 0, 0, 0, 0, 0, 142, 44, 98, 159] := by
    refine ⟨rfl, fun i outside => ?_⟩
    by_cases inside : i < 21
    · exact within i inside outside
    · rw [List.getElem?_eq_none (Nat.le_of_not_lt inside),
        List.getElem?_eq_none (Nat.le_of_not_lt inside)]
  exact ⟨_, _, encoded, same, by decide, burst_detected encoded same (by decide)⟩

end QuorumLog.Frame
