import Mathlib.Data.List.TakeWhile
import QuorumLog.Text.Json
import QuorumLog.Text.Utf8

/-! Texts as they are shown. Reading bytes with replacements gives back a text of which they are the UTF-8
form, and a text between quotes stays on one line. -/

namespace QuorumLog

/-! ### Characters in UTF-8 -/

namespace Utf8

/-- The bytes of a text are those of its characters. -/
theorem encode_eq_flatMap (text : String) :
    encode text = text.toList.flatMap String.utf8EncodeChar := by
  rw [encode, ← String.utf8Encode_toList, List.utf8Encode, List.toList_data_toByteArray]

theorem toNat_byte {n : Nat} (small : n < 256) : (UInt8.ofNat n).toNat = n := by
  rw [UInt8.toNat_ofNat', Nat.mod_eq_of_lt small]

/-! The first byte of a character tells how many follow, and what the second may be. -/

theorem continuation?_one : ∀ n < 0x80,
    continuation? (UInt8.ofNat n) = some (0, 0x80, 0xBF) := by
  decide +kernel

theorem continuation?_two : ∀ n < 0x20, 2 ≤ n →
    continuation? (UInt8.ofNat (n + 0xC0)) = some (1, 0x80, 0xBF) := by
  decide +kernel

theorem continuation?_three : ∀ n < 0x10, continuation? (UInt8.ofNat (n + 0xE0)) =
    some (2, if n = 0 then 0xA0 else 0x80, if n = 13 then 0x9F else 0xBF) := by
  decide +kernel

theorem continuation?_four : ∀ n < 5, continuation? (UInt8.ofNat (n + 0xF0)) =
    some (3, if n = 0 then 0x90 else 0x80, if n = 4 then 0x8F else 0xBF) := by
  decide +kernel

@[simp]
theorem continued_zero (low high : UInt8) (bytes : Bytes) : continued 0 low high bytes = [] := by
  cases bytes <;> rfl

/-- A byte within the range is taken as one that goes on. -/
theorem continued_cons {count n : Nat} {low high : UInt8} (rest : Bytes) (small : n < 0x40)
    (least : low.toNat ≤ n + 0x80) (most : n + 0x80 ≤ high.toNat) :
    continued (count + 1) low high (UInt8.ofNat (n + 0x80) :: rest) =
      UInt8.ofNat (n + 0x80) :: continued count 0x80 0xBF rest := by
  have value : (UInt8.ofNat (n + 0x80)).toNat = n + 0x80 := toNat_byte (by omega)
  have within : (low ≤ UInt8.ofNat (n + 0x80) && UInt8.ofNat (n + 0x80) ≤ high) = true := by
    rw [Bool.and_eq_true, decide_eq_true_eq, decide_eq_true_eq, UInt8.le_iff_toNat_le,
      UInt8.le_iff_toNat_le, value]
    exact ⟨least, most⟩
  rw [continued, if_pos within]

/-- The number that a first byte and those behind it make. -/
def assembled (first : UInt8) (bytes : Bytes) : Nat :=
  bytes.foldl (fun n b => n * 0x40 + b.toNat % 0x40) (leadBits bytes.length first)

/-- A first byte with as many bytes behind it as it asks for is a character. -/
theorem scalars_cons {first low high : UInt8} {bytes : Bytes} (rest : Bytes)
    (leads : continuation? first = some (bytes.length, low, high))
    (goes : continued bytes.length low high (bytes ++ rest) = bytes) :
    scalars (first :: bytes ++ rest) = Char.ofNat (assembled first bytes) :: scalars rest := by
  rw [List.cons_append, scalars, leads]
  simp only [goes, if_true, List.drop_left, assembled]

/-- Any byte that goes on is taken if it need not be within a smaller range. -/
theorem goes_on {n : Nat} (count : Nat) (rest : Bytes) (small : n < 0x40) :
    continued (count + 1) 0x80 0xBF (UInt8.ofNat (n + 0x80) :: rest) =
      UInt8.ofNat (n + 0x80) :: continued count 0x80 0xBF rest :=
  continued_cons rest small (Nat.le_add_left ..) (Nat.add_le_add_right (Nat.le_of_lt_succ small) _)

/-- Whatever follows, the bytes of a character are read as the character. -/
theorem scalars_append (c : Char) (rest : Bytes) :
    scalars (String.utf8EncodeChar c ++ rest) = c :: scalars rest := by
  have valid : c.toNat < 0xD800 ∨ (0xDFFF < c.toNat ∧ c.toNat < 0x110000) := c.valid
  have number : c.val.toNat = c.toNat := rfl
  have same : Char.ofNat c.toNat = c := Char.ofNat_toNat c
  generalize c.toNat = v at valid number same
  simp only [String.utf8EncodeChar, number]
  subst same
  split
  · have value := toNat_byte (n := v) (by omega)
    rw [scalars_cons rest (continuation?_one v (by omega)) rfl]
    simp [assembled, leadBits, value]
  split
  · have first := toNat_byte (n := v / 64 % 0x20 + 0xC0) (by omega)
    have second := toNat_byte (n := v % 0x40 + 0x80) (by omega)
    rw [scalars_cons rest (continuation?_two _ (by omega) (by omega))]
    · simp only [assembled, List.foldl, List.length, leadBits, first, second]
      congr 2
      omega
    · exact goes_on 0 rest (by omega)
  split
  · have first := toNat_byte (n := v / 4096 % 0x10 + 0xE0) (by omega)
    have second := toNat_byte (n := v / 64 % 0x40 + 0x80) (by omega)
    have third := toNat_byte (n := v % 0x40 + 0x80) (by omega)
    rw [scalars_cons rest (continuation?_three _ (by omega))]
    · simp only [assembled, List.foldl, List.length, leadBits, first, second, third]
      congr 2
      omega
    · refine (continued_cons _ (by omega) ?_ ?_).trans ?_
      · split <;> simp
        omega
      · split <;> (simp; omega)
      · exact congrArg _ (goes_on 0 rest (by omega))
  · have first := toNat_byte (n := v / 262144 % 8 + 0xF0) (by omega)
    have second := toNat_byte (n := v / 4096 % 0x40 + 0x80) (by omega)
    have third := toNat_byte (n := v / 64 % 0x40 + 0x80) (by omega)
    have fourth := toNat_byte (n := v % 0x40 + 0x80) (by omega)
    rw [scalars_cons rest (continuation?_four _ (by omega))]
    · simp only [assembled, List.foldl, List.length, leadBits, first, second, third, fourth]
      congr 2
      omega
    · refine (continued_cons _ (by omega) ?_ ?_).trans ?_
      · split <;> simp
        omega
      · split <;> (simp; omega)
      · exact congrArg _ ((goes_on 1 _ (by omega)).trans (congrArg _ (goes_on 0 rest (by omega))))

/-- The bytes of a text are read as the text. -/
theorem decodeLossy_encode (text : String) : decodeLossy (encode text) = text := by
  have all (chars : List Char) : scalars (chars.flatMap String.utf8EncodeChar) = chars := by
    induction chars with
    | nil => simp [scalars]
    | cons c rest ih => rw [List.flatMap_cons, scalars_append, ih]
  rw [decodeLossy, encode_eq_flatMap, all, String.ofList_toList]

end Utf8

/-! ### Texts between quotes -/

namespace Json

theorem hexDigit_plain : ∀ n < 0x10, hexDigit n ≠ '\n' := by decide

/-- No written character ends the line. -/
theorem newline_not_mem_escape (c : Char) : '\n' ∉ escape c := by
  unfold escape
  split
  case h_8 _ _ _ _ _ feed _ _ =>
    split
    · rename_i control
      have small : c.toNat < 0x20 := control
      have high := hexDigit_plain (c.toNat / 16) (by omega)
      have low := hexDigit_plain (c.toNat % 16) (by omega)
      simp [high.symm, low.symm]
    · simpa using Ne.symm feed
  all_goals decide

theorem newline_not_mem_quoted (text : String) : '\n' ∉ quoted text := by
  simp [quoted, newline_not_mem_escape]

end Json

end QuorumLog
