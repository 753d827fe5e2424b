import QuorumLog.Format.LittleEndian

/-! Texts as UTF-8. `encode` and `decode?` are inverse to each other; `decodeLossy` reads any bytes
and puts one replacement character for each longest piece that starts a character but does not
finish it, and for each byte that starts none. -/

namespace QuorumLog.Utf8

def encode (text : String) : Bytes :=
  text.toByteArray.data.toList

/-- The text with exactly these bytes, if there is one. -/
def decode? (bytes : Bytes) : Option String :=
  String.fromUTF8? ⟨bytes.toArray⟩

theorem decode?_encode (text : String) : decode? (encode text) = some text := by
  have h : (⟨(encode text).toArray⟩ : ByteArray) = text.toByteArray := by
    simp [encode]
  simp only [decode?, h]
  simp [String.fromUTF8?, text.isValidUTF8, String.fromUTF8]

theorem encode_of_decode?_eq_some {bytes : Bytes} {text : String}
    (h : decode? bytes = some text) : encode text = bytes := by
  simp only [decode?, String.fromUTF8?] at h
  split at h
  · cases h
    simp [encode, String.fromUTF8]
  · cases h

theorem length_encode (text : String) : (encode text).length = text.utf8ByteSize :=
  Array.length_toList

/-- Stands for bytes that are no character. -/
def replacement : Char := '\uFFFD'

/-- The count of continuation bytes after a first byte, and the range of the first of them. The
ranges leave out overlong forms, surrogates and numbers beyond the last character. -/
def continuation? (first : UInt8) : Option (Nat × UInt8 × UInt8) :=
  if first < 0x80 then some (0, 0x80, 0xBF)
  else if first < 0xC2 then none
  else if first < 0xE0 then some (1, 0x80, 0xBF)
  else if first = 0xE0 then some (2, 0xA0, 0xBF)
  else if first = 0xED then some (2, 0x80, 0x9F)
  else if first < 0xF0 then some (2, 0x80, 0xBF)
  else if first = 0xF0 then some (3, 0x90, 0xBF)
  else if first < 0xF4 then some (3, 0x80, 0xBF)
  else if first = 0xF4 then some (3, 0x80, 0x8F)
  else none

/-- The leading bytes that continue a character: at most `count`, the first of them within the
range and the later ones any continuation byte. -/
def continued : (count : Nat) → (low high : UInt8) → Bytes → Bytes
  | count + 1, low, high, b :: rest =>
    if low ≤ b && b ≤ high then b :: continued count 0x80 0xBF rest else []
  | _, _, _, _ => []

/-- The bits that a first byte gives to its character. -/
def leadBits (count : Nat) (first : UInt8) : Nat :=
  match count with
  | 0 => first.toNat
  | 1 => first.toNat % 0x20
  | 2 => first.toNat % 0x10
  | _ => first.toNat % 0x08

/-- The characters of any bytes, with replacements where the bytes are no text. -/
def scalars : Bytes → List Char
  | [] => []
  | first :: rest =>
    match continuation? first with
    | none => replacement :: scalars rest
    | some (count, low, high) =>
      let tail := continued count low high rest
      let char := if tail.length = count then
          Char.ofNat (tail.foldl (fun n b => n * 0x40 + b.toNat % 0x40) (leadBits count first))
        else replacement
      char :: scalars (rest.drop tail.length)
termination_by bytes => bytes.length
decreasing_by
  · exact Nat.lt_succ_self _
  · simp only [List.length_drop, List.length_cons]
    omega

/-- The text of any bytes, with replacements where the bytes are no text. -/
def decodeLossy (bytes : Bytes) : String :=
  String.ofList (scalars bytes)

end QuorumLog.Utf8
