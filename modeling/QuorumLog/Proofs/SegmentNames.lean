import Mathlib.Data.List.Induction
import QuorumLog.Proofs.RecoveredFiles

/-! What the names of files tell. A text of digits denotes the number whose digits it ends in, behind any
zeros, and a name is taken for a segment's if it is such a text, with a plus sign in front or without, and
then `.log`. Of these spellings one is the segment's own name. -/

namespace QuorumLog

namespace Decimal

variable {n d bound : Nat} {c : Char} {cs : List Char}

theorem digit?_eq_some_iff : digit? c = some d ↔ d < 10 ∧ c = Char.ofNat (48 + d) := by
  constructor
  · intro read
    unfold digit? at read
    split at read
    · rename_i within
      have low : 48 ≤ c.toNat := within.1
      have high : c.toNat ≤ 57 := within.2
      obtain rfl := Option.some.inj read
      refine ⟨by omega, ?_⟩
      rw [Nat.add_sub_cancel' low, Char.ofNat_toNat]
    · cases read
  · rintro ⟨small, rfl⟩
    exact digit?_ofNat small

/-- The digits of a number that has one more digit. -/
theorem digits_snoc (positive : n ≠ 0) (small : d < 10) :
    digits (10 * n + d) = digits n ++ [Char.ofNat (48 + d)] := by
  rw [digits, if_neg (by omega), show (10 * n + d) / 10 = n by omega,
    show (10 * n + d) % 10 = d by omega]

/-- A text denotes a number if it is the digits of the number with zeros in front. -/
theorem value?_eq_some_iff :
    value? cs = some n ↔ ∃ zeros, cs = List.replicate zeros '0' ++ digits n := by
  constructor
  · intro read
    induction cs using List.reverseRecOn generalizing n with
    | nil => cases read
    | append_singleton front c ih =>
      rw [value?_eq_extend? (by simp), extend?_append] at read
      obtain ⟨high, first, last⟩ := Option.bind_eq_some_iff.mp read
      obtain ⟨low, digit, made⟩ := Option.bind_eq_some_iff.mp last
      obtain ⟨small, rfl⟩ := digit?_eq_some_iff.mp digit
      obtain rfl : 10 * high + low = n := Option.some.inj made
      by_cases alone : front = []
      · subst alone
        obtain rfl := Option.some.inj first
        refine ⟨0, ?_⟩
        rw [digits, if_pos (by omega)]
        simp
      · obtain ⟨zeros, rfl⟩ := ih ((value?_eq_extend? alone).trans first)
        by_cases zero : high = 0
        · subst zero
          refine ⟨zeros + 1, ?_⟩
          rw [digits, if_pos (by decide), digits, if_pos (by omega), List.replicate_succ']
          simp
        · exact ⟨zeros, by rw [digits_snoc zero small, List.append_assoc]⟩
  · rintro ⟨zeros, rfl⟩
    rw [value?_eq_extend? (by simp [digits_ne_nil]), extend?_zeros, extend?_digits]

/-- A text is read if it is digits, or digits behind a plus sign, and what they denote is below the
bound. -/
theorem read?_eq_some_iff : read? bound cs = some n ↔
    n < bound ∧ (value? cs = some n ∨ ∃ rest, cs = '+' :: rest ∧ value? rest = some n) := by
  have unsigned (rest : List Char) : value? ('+' :: rest) = none := by
    rw [value?_eq_extend? (by simp)]
    rfl
  unfold read?
  rw [Option.filter_eq_some_iff, decide_eq_true_iff, and_comm]
  refine and_congr_right fun _ => ?_
  split
  · rename_i rest
    simp [unsigned]
  · rename_i signless
    constructor
    · exact Or.inl
    · rintro (plain | ⟨rest, rfl, -⟩)
      · exact plain
      · exact absurd rfl (signless rest)

end Decimal

namespace SegmentName

variable {name : String} {base : Nat} {cs stem : List Char}

theorem stem?_eq_some_iff : stem? cs = some stem ↔ stem ≠ [] ∧ cs = stem ++ ['.', 'l', 'o', 'g'] := by
  constructor
  · intro cut
    unfold stem? at cut
    split at cut
    · rename_i c rest reversed
      obtain rfl := Option.some.inj cut
      refine ⟨by simp, ?_⟩
      rw [← List.reverse_reverse cs, reversed]
      simp
    · cases cut
  · rintro ⟨some, rfl⟩
    rw [stem?, List.reverse_append]
    cases reversed : stem.reverse with
    | nil => exact absurd (List.reverse_eq_nil_iff.mp reversed) some
    | cons c rest =>
      show Option.some (c :: rest).reverse = _
      rw [← reversed, List.reverse_reverse]

/-- A name that is taken for that of the segment at an offset: the number in digits, with a plus sign and
zeros in front of them or without, then `.log`. -/
def Tells (name : String) (base : Nat) : Prop :=
  ∃ sign zeros, (sign = [] ∨ sign = ['+']) ∧
    name.toList = sign ++ (List.replicate zeros '0' ++ Decimal.digits base) ++ ['.', 'l', 'o', 'g']

theorem base?_eq_some_iff :
    base? name = some base ↔ 0 < base ∧ base < UInt64.size ∧ Tells name base := by
  rw [base?, Option.filter_eq_some_iff, decide_eq_true_iff, and_comm, Option.bind_eq_some_iff]
  refine and_congr_right fun _ => ?_
  simp only [stem?_eq_some_iff, Decimal.read?_eq_some_iff, Decimal.value?_eq_some_iff]
  constructor
  · rintro ⟨stem, ⟨-, named⟩, small, ⟨zeros, rfl⟩ | ⟨rest, rfl, zeros, rfl⟩⟩
    · exact ⟨small, [], zeros, .inl rfl, named⟩
    · exact ⟨small, ['+'], zeros, .inr rfl, named⟩
  · rintro ⟨small, sign, zeros, rfl | rfl, named⟩
    · exact ⟨_, ⟨by simp [Decimal.digits_ne_nil], named⟩, small, .inl ⟨zeros, rfl⟩⟩
    · exact ⟨_, ⟨by simp, named⟩, small, .inr ⟨_, rfl, zeros, rfl⟩⟩

/-- Of all names that tell a number the own one has no sign, and so many zeros that there are twenty
digits. -/
theorem toList_ofBase : (ofBase base).toList =
    List.replicate (20 - (Decimal.digits base).length) '0' ++ Decimal.digits base ++ ['.', 'l', 'o', 'g'] :=
  String.toList_ofList

end SegmentName

end QuorumLog
