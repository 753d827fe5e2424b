import Mathlib.Data.String.Basic
import QuorumLog.Net.Address

/-! Numbers are written without leading zeros, in decimal and, in addresses, in base sixteen, and a
scanner that takes digits as far as they go gets the number back, whatever limit on digits and leading
zeros it keeps. -/

namespace QuorumLog

namespace Scan

variable {radix n d : Nat} {rest : List Char}

theorem digit?_digitChar (small : d < radix) (most : radix ≤ 16) :
    digit? radix d.digitChar = some d := by
  have largest : ∀ d < 16, digit? 16 d.digitChar = some d := by decide
  have value := (Option.filter_eq_some_iff.mp (largest d (by omega))).1
  exact Option.filter_eq_some_iff.mpr ⟨value, by simpa using small⟩

/-- What a number in a base consists of. -/
def figures (radix n : Nat) : List Nat := (Nat.toDigits radix n).filterMap (digit? radix)

theorem figures_eq (least : 1 < radix) (most : radix ≤ 16) :
    figures radix n = if n < radix then [n] else figures radix (n / radix) ++ [n % radix] := by
  have last := digit?_digitChar (Nat.mod_lt n (by omega : 0 < radix)) most
  unfold figures
  rw [Nat.toDigits_eq_if least]
  split
  case isTrue small => simp [digit?_digitChar small most]
  case isFalse => simp [last]

theorem foldl_figures (least : 1 < radix) (most : radix ≤ 16) (n : Nat) :
    (figures radix n).foldl (fun m d => radix * m + d) 0 = n := by
  induction n using Nat.strong_induction_on with
  | _ n ih =>
    rw [figures_eq least most]
    split
    · simp
    · have smaller : n / radix < n := Nat.div_lt_self (by omega) least
      rw [List.foldl_append, ih _ smaller]
      exact Nat.div_add_mod n radix

/-- Only the number zero is written with a leading zero. -/
theorem head?_figures (least : 1 < radix) (most : radix ≤ 16) (n : Nat)
    (zero : (figures radix n).head? = some 0) : (figures radix n).length = 1 := by
  have nonzero : ∀ n, 0 < n → (figures radix n).head? ≠ some 0 := by
    intro n
    induction n using Nat.strong_induction_on with
    | _ n ih =>
      intro positive
      rw [figures_eq least most]
      split
      · simpa using Nat.ne_of_gt positive
      · have front := ih (n / radix) (Nat.div_lt_self positive least)
          (Nat.div_pos (by omega) (by omega))
        cases found : figures radix (n / radix) with
        | nil =>
          have value := foldl_figures least most (n / radix)
          have : 0 < n / radix := Nat.div_pos (by omega) (by omega)
          simp only [found, List.foldl_nil] at value
          omega
        | cons e es => simpa [found] using front
  have small : n = 0 := Nat.eq_zero_of_not_pos fun positive => nonzero n positive zero
  rw [small, figures_eq least most, if_pos (by omega)]
  rfl

/-- Behind a number stands something else. -/
def Stops (radix : Nat) (rest : List Char) : Prop := ∀ c ∈ rest.head?, digit? radix c = none

theorem Stops.digits (stops : Stops radix rest) : digits radix rest = ([], rest) := by
  cases rest with
  | nil => rfl
  | cons c rest => simp [Scan.digits, stops c rfl]

@[simp]
theorem stops_nil : Stops radix [] := by
  intro c found
  cases found

theorem stops_cons {c : Char} (other : digit? radix c = none) : Stops radix (c :: rest) := by
  rintro _ ⟨rfl⟩
  exact other

theorem digits_append {word : List Char} (all : ∀ c ∈ word, (digit? radix c).isSome)
    (stops : Stops radix rest) :
    digits radix (word ++ rest) = (word.filterMap (digit? radix), rest) := by
  induction word with
  | nil => exact stops.digits
  | cons c word ih =>
    obtain ⟨d, digit⟩ := Option.isSome_iff_exists.mp (all c List.mem_cons_self)
    have others := ih fun c member => all c (List.mem_cons_of_mem _ member)
    simp [digits, digit, others]

theorem isSome_digit?_of_mem (least : 1 < radix) (most : radix ≤ 16) (n : Nat) :
    ∀ c ∈ Nat.toDigits radix n, (digit? radix c).isSome := by
  induction n using Nat.strong_induction_on with
  | _ n ih =>
    intro c member
    rw [Nat.toDigits_eq_if least] at member
    split at member
    case isTrue small =>
      rw [List.mem_singleton.mp member, digit?_digitChar small most]
      rfl
    case isFalse large =>
      rcases List.mem_append.mp member with front | last
      · exact ih (n / radix) (Nat.div_lt_self (by omega) least) c front
      · rw [List.mem_singleton.mp last, digit?_digitChar (Nat.mod_lt n (by omega)) most]
        rfl

theorem length_figures (least : 1 < radix) (most : radix ≤ 16) (n : Nat) :
    (figures radix n).length = (Nat.toDigits radix n).length := by
  rw [figures, List.length_filterMap_eq_countP]
  exact List.countP_eq_length.mpr (isSome_digit?_of_mem least most n)

/-- A number is read up to its end. -/
theorem number_toDigits (most? : Option Nat) (padded : Bool) {bound : Nat} (least : 1 < radix)
    (most : radix ≤ 16) (small : n < bound)
    (short : ∀ length ∈ most?, (Nat.toDigits radix n).length ≤ length) (stops : Stops radix rest) :
    number radix most? padded bound (Nat.toDigits radix n ++ rest) = some (n, rest) := by
  have found : digits radix (Nat.toDigits radix n ++ rest) = (figures radix n, rest) :=
    digits_append (isSome_digit?_of_mem least most n) stops
  have filled : (figures radix n).isEmpty = false := by
    rw [List.isEmpty_eq_false_iff_exists_mem, ← List.length_pos_iff_exists_mem,
      length_figures least most]
    exact List.length_pos_of_ne_nil Nat.toDigits_ne_nil
  have fits : most?.any (· < (figures radix n).length) = false := by
    rw [length_figures least most]
    cases most? with
    | none => rfl
    | some length => simpa using short length rfl
  have plain : (decide ((figures radix n).head? = some 0) && decide (1 < (figures radix n).length))
      = false := by
    rw [Bool.and_eq_false_iff]
    by_cases zero : (figures radix n).head? = some 0
    · have single := head?_figures least most n zero
      exact .inr (by simp [single])
    · exact .inl (by simp [zero])
  unfold number
  simp only [found, filled, fits, foldl_figures least most]
  simp [small, Bool.and_assoc, plain]

/-- Where a text does not start with a digit, no number is read. -/
theorem number_of_stops {most? : Option Nat} {padded : Bool} {bound : Nat}
    (stops : Stops radix rest) : number radix most? padded bound rest = none := by
  simp [number, stops.digits]

end Scan

theorem Decimal.digits_eq_toDigits (n : Nat) : Decimal.digits n = Nat.toDigits 10 n := by
  have digit : ∀ d < 10, Char.ofNat (48 + d) = d.digitChar := by decide
  fun_induction Decimal.digits n with
  | case1 n small => rw [Nat.toDigits_of_lt_base small, digit n small]
  | case2 n large ih =>
    rw [Nat.toDigits_eq_if (by decide), if_neg large, ih, digit _ (Nat.mod_lt n (by decide))]

namespace Decimal

/-- Only zero starts with a zero. -/
theorem digits_of_zero {n : Nat} {cs : List Char} (zero : digits n = '0' :: cs) : cs = [] := by
  rw [digits_eq_toDigits] at zero
  have value : Scan.digit? 10 '0' = some 0 := by decide
  have single := Scan.head?_figures (by decide : 1 < 10) (by decide) n
    (by simp [Scan.figures, zero, value])
  rw [Scan.length_figures (by decide) (by decide), zero] at single
  simpa using single

end Decimal

end QuorumLog
