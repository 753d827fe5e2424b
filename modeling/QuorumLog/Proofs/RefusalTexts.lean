import Mathlib.Data.List.TakeDrop
import Mathlib.Data.String.Basic
import QuorumLog.Wire.Frame
import QuorumLog.Wire.Refusal

/-! A divergence travels as a text of three assignments with numbers in decimal. Every such text is
read back as the three numbers that it was made of, so the two sides of a connection hold one fault,
whatever its numbers are. -/

namespace QuorumLog

namespace Decimal

/-- Numbers are written in digits alone. -/
theorem digit_of_mem_digits {n : Nat} {c : Char} (member : c ∈ digits n) : '0' ≤ c ∧ c ≤ '9' := by
  have digit (d : Nat) (small : d < 10) :
      '0' ≤ Char.ofNat (48 + d) ∧ Char.ofNat (48 + d) ≤ '9' := by
    have read := digit?_ofNat small
    unfold digit? at read
    split at read
    · assumption
    · cases read
  fun_induction digits n with
  | case1 n small => exact List.mem_singleton.mp member ▸ digit n small
  | case2 n large ih =>
    rcases List.mem_append.mp member with front | last
    · exact ih front
    · exact List.mem_singleton.mp last ▸ digit (n % 10) (Nat.mod_lt n (by decide))

theorem length_digits_le {n width : Nat} (small : n < 10 ^ (width + 1)) :
    (digits n).length ≤ width + 1 := by
  induction width generalizing n with
  | zero =>
    rw [digits, if_pos (by simpa using small)]
    simp
  | succ width ih =>
    rw [digits]
    split
    · simp
    · have shorter := ih (n := n / 10) (Nat.div_lt_of_lt_mul (by rw [Nat.pow_succ] at small; omega))
      rw [List.length_append, List.length_singleton]
      exact Nat.succ_le_succ shorter

/-- A number is read as it was written. -/
theorem read?_digits {n bound : Nat} (small : n < bound) : read? bound (digits n) = some n := by
  unfold read?
  split
  · rename_i rest written
    have sign : '+' ∈ digits n := by simp [written]
    exact absurd (digit_of_mem_digits sign) (by decide)
  · rw [value?_digits]
    simp [small]

end Decimal

namespace Blank

/-- The equation that Lean derives splits the inner match into cases. -/
theorem words_cons (c : Char) (rest : List Char) : words (c :: rest) =
    if isBlank c then words rest
    else match rest, words rest with
      | d :: _, word :: later => if isBlank d then [c] :: word :: later else (c :: word) :: later
      | _, later => [c] :: later :=
  words.eq_def (c :: rest)

/-- What stands behind a word is another word only if a blank is between them. -/
theorem words_append {word rest : List Char} (solid : ∀ c ∈ word, isBlank c = false)
    (filled : word ≠ []) (apart : ∀ c ∈ rest.head?, isBlank c = true) :
    words (word ++ rest) = word :: words rest := by
  induction word with
  | nil => exact absurd rfl filled
  | cons c later ih =>
    rw [List.cons_append, words_cons, if_neg (by simp [solid c List.mem_cons_self])]
    cases later with
    | nil =>
      cases rest with
      | nil => rfl
      | cons d rest =>
        have blank := apart d rfl
        cases found : words (d :: rest) with
        | nil => simp [found]
        | cons word others => simp [found, blank]
    | cons d later =>
      have second := solid d (List.mem_cons_of_mem c List.mem_cons_self)
      have found := ih (fun e member => solid e (List.mem_cons_of_mem c member))
        (List.cons_ne_nil d later)
      rw [List.cons_append] at found ⊢
      simp [found, second]

theorem words_blank {c : Char} (blank : isBlank c = true) (rest : List Char) :
    words (c :: rest) = words rest := by
  rw [words_cons, if_pos blank]

/-- A digit is no blank. -/
theorem solid_of_digit {c : Char} (digit : '0' ≤ c ∧ c ≤ '9') : isBlank c = false := by
  have low : 48 ≤ c.toNat := digit.1
  have high : c.toNat ≤ 57 := digit.2
  simp [isBlank]
  omega

end Blank

namespace Refusal

/-- A word that gives a key its number. -/
def assignment (key : String) (n : Nat) : List Char := key.toList ++ '=' :: Decimal.digits n

theorem field?_assignment (key : String) {n : Nat} (plain : '=' ∉ key.toList)
    (small : n < UInt64.size) : field? key (assignment key n) = some n := by
  have cut : (assignment key n).span (· ≠ '=') = (key.toList, '=' :: Decimal.digits n) := by
    rw [List.span_eq_takeWhile_dropWhile, assignment, List.takeWhile_append_of_pos,
      List.dropWhile_append_of_pos]
    · simp
    · simpa using fun c member => ne_of_mem_of_not_mem member plain
    · simpa using fun c member => ne_of_mem_of_not_mem member plain
  simp only [field?, cut, if_true]
  exact Decimal.read?_digits small

theorem solid_assignment {key : String} (n : Nat)
    (solid : key.toList.all (!Blank.isBlank ·)) :
    ∀ c ∈ assignment key n, Blank.isBlank c = false := by
  intro c member
  rcases List.mem_append.mp member with front | back
  · simpa using List.all_eq_true.mp solid c front
  · rcases List.mem_cons.mp back with rfl | digit
    · decide
    · exact Blank.solid_of_digit (Decimal.digit_of_mem_digits digit)

theorem toList_divergenceText (replica oldest current : Nat) :
    (divergenceText replica oldest current).toList =
      assignment "replica" replica ++ ' ' :: (assignment "oldest" oldest ++
        ' ' :: assignment "current" current) := by
  have first : "replica=".toList = "replica".toList ++ ['='] := by decide
  have second : " oldest=".toList = ' ' :: "oldest".toList ++ ['='] := by decide
  have third : " current=".toList = ' ' :: "current".toList ++ ['='] := by decide
  -- `unfold` would evaluate the keys in search of an equation.
  delta divergenceText assignment
  rw [String.toList_ofList, first, second, third]
  simp only [List.append_assoc, List.cons_append, List.nil_append]

/-- The words of the text of a divergence are its three assignments. -/
theorem words_divergenceText (replica oldest current : Nat) :
    Blank.words (divergenceText replica oldest current).toList =
      [assignment "replica" replica, assignment "oldest" oldest, assignment "current" current] := by
  have filled (key : String) (n : Nat) : assignment key n ≠ [] :=
    List.append_ne_nil_of_right_ne_nil _ (List.cons_ne_nil _ _)
  have apart (rest : List Char) : ∀ c ∈ (' ' :: rest).head?, Blank.isBlank c = true := by
    rintro c ⟨rfl⟩
    decide
  rw [toList_divergenceText,
    Blank.words_append (solid_assignment replica (by decide)) (filled _ _) (apart _),
    Blank.words_blank (by decide),
    Blank.words_append (solid_assignment oldest (by decide)) (filled _ _) (apart _),
    Blank.words_blank (by decide)]
  have last : Blank.words (assignment "current" current ++ []) = [assignment "current" current] :=
    Blank.words_append (solid_assignment current (by decide)) (filled _ _)
      fun c member => by cases member
  rw [List.append_nil] at last
  rw [last]

/-- A divergence is read back from its text. -/
theorem readDivergence?_divergenceText {replica oldest current : Nat}
    (replicaFits : replica < UInt64.size) (oldestFits : oldest < UInt64.size)
    (currentFits : current < UInt64.size) :
    readDivergence? (divergenceText replica oldest current) =
      some (.divergence replica oldest current) := by
  have first := field?_assignment "replica" (by decide) replicaFits
  have second := field?_assignment "oldest" (by decide) oldestFits
  have third := field?_assignment "current" (by decide) currentFits
  simp [readDivergence?, words_divergenceText, first, second, third]

/-- Whoever receives the message of a divergence finds the fault that it was made of. -/
theorem toFault_divergence {replica oldest current : Nat}
    (replicaFits : replica < UInt64.size) (oldestFits : oldest < UInt64.size)
    (currentFits : current < UInt64.size) :
    toFault (divergence replica oldest current) = .divergence replica oldest current := by
  have code : diverged ≠ wrongToken := by decide
  rw [divergence, toFault, if_neg code, if_pos rfl,
    readDivergence?_divergenceText replicaFits oldestFits currentFits]
  rfl

theorem utf8ByteSize_ofList_le (cs : List Char) :
    (String.ofList cs).utf8ByteSize ≤ 4 * cs.length := by
  rw [String.utf8ByteSize_ofList]
  induction cs with
  | nil => exact Nat.le_refl 0
  | cons c rest ih =>
    have one := c.utf8Size_le_four
    rw [String.utf8Len_cons, List.length_cons]
    omega

/-- The message of a divergence has a frame. -/
theorem payloadSize_divergence {replica oldest current : Nat}
    (replicaFits : replica < UInt64.size) (oldestFits : oldest < UInt64.size)
    (currentFits : current < UInt64.size) :
    (divergence replica oldest current).payloadSize ≤ Frame.maxPayload := by
  have short {n : Nat} (fits : n < UInt64.size) : (Decimal.digits n).length ≤ 20 :=
    Decimal.length_digits_le (Nat.lt_trans fits (by decide))
  have first := short replicaFits
  have second := short oldestFits
  have third := short currentFits
  have length : (divergenceText replica oldest current).toList.length ≤ 86 := by
    rw [toList_divergenceText]
    simp [assignment]
    omega
  have size := utf8ByteSize_ofList_le (divergenceText replica oldest current).toList
  rw [String.ofList_toList] at size
  simp only [divergence, Message.payloadSize, Frame.maxPayload]
  omega

end Refusal

end QuorumLog
