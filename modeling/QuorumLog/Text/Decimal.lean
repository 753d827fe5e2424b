/-! Numbers in decimal. Writing uses no leading zero; reading takes leading zeros and one plus sign
in front, and refuses a number that reaches its bound. -/

namespace QuorumLog.Decimal

def digits (n : Nat) : List Char :=
  if n < 10 then [Char.ofNat (48 + n)] else digits (n / 10) ++ [Char.ofNat (48 + n % 10)]

/-- The digits of a number after as many zeros as the width asks for. -/
def padded (width n : Nat) : List Char :=
  List.replicate (width - (digits n).length) '0' ++ digits n

def digit? (c : Char) : Option Nat :=
  if '0' ≤ c ∧ c ≤ '9' then some (c.toNat - 48) else none

/-- Takes digits behind those that made `n`. -/
def extend? (n : Nat) : List Char → Option Nat
  | [] => some n
  | c :: rest => (digit? c).bind fun d => extend? (10 * n + d) rest

/-- The number that one or more digits denote. -/
def value? : List Char → Option Nat
  | [] => none
  | cs => extend? 0 cs

/-- The number below `bound` that a text denotes, with one plus sign allowed in front. -/
def read? (bound : Nat) (cs : List Char) : Option Nat :=
  (value? (match cs with | '+' :: rest => rest | _ => cs)).filter (· < bound)

def render (n : Nat) : String :=
  String.ofList (digits n)

theorem digit?_ofNat {d : Nat} (h : d < 10) : digit? (Char.ofNat (48 + d)) = some d := by
  have : d = 0 ∨ d = 1 ∨ d = 2 ∨ d = 3 ∨ d = 4 ∨ d = 5 ∨ d = 6 ∨ d = 7 ∨ d = 8 ∨ d = 9 := by omega
  rcases this with rfl | rfl | rfl | rfl | rfl | rfl | rfl | rfl | rfl | rfl <;> decide

theorem extend?_append (n : Nat) (left right : List Char) :
    extend? n (left ++ right) = (extend? n left).bind fun m => extend? m right := by
  induction left generalizing n with
  | nil => rfl
  | cons c rest ih =>
    simp only [List.cons_append, extend?, Option.bind_assoc]
    congr 1
    funext d
    exact ih _

theorem digits_ne_nil (n : Nat) : digits n ≠ [] := by
  rw [digits]
  split <;> simp

theorem extend?_digits (n : Nat) : extend? 0 (digits n) = some n := by
  fun_induction digits n with
  | case1 n h => simp [extend?, digit?_ofNat h]
  | case2 n h ih =>
    rw [extend?_append, ih]
    simp only [Option.bind_some, extend?, digit?_ofNat (Nat.mod_lt n (by decide : 0 < 10))]
    congr 1
    omega

theorem extend?_zeros (count : Nat) (cs : List Char) :
    extend? 0 (List.replicate count '0' ++ cs) = extend? 0 cs := by
  have zero : digit? '0' = some 0 := by decide
  induction count with
  | zero => rfl
  | succ count ih => simp [List.replicate_succ, extend?, zero, ih]

theorem value?_eq_extend? {cs : List Char} (h : cs ≠ []) : value? cs = extend? 0 cs := by
  cases cs with
  | nil => contradiction
  | cons c rest => rfl

theorem value?_digits (n : Nat) : value? (digits n) = some n := by
  rw [value?_eq_extend? (digits_ne_nil n), extend?_digits]

theorem value?_padded (width n : Nat) : value? (padded width n) = some n := by
  rw [value?_eq_extend? (by simp [padded, digits_ne_nil]), padded, extend?_zeros, extend?_digits]

end QuorumLog.Decimal
