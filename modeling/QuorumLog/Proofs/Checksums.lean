import QuorumLog.Proofs.LittleEndian
import QuorumLog.Format.Crc32

/-! What a checksum tells. The register can be wound back: from where it stands, and from the bytes that
it took, one knows where it stood before. So two byte strings that differ in one byte alone never have
the same checksum. The register is as wide as four bytes, which are taken into it as one word, and behind
a byte string and its checksum it always stands at the same place. -/

namespace QuorumLog.Crc32

section Bytes

variable {register other : UInt32} {left right : UInt8} {bytes : Bytes}

private theorem lowest_bit (register : UInt32) : register &&& 1 = 0 ↔ register.toNat % 2 = 0 := by
  rw [← UInt32.toNat_inj, UInt32.toNat_and]
  exact Iff.of_eq (congrArg (· = 0) (Nat.and_one_is_mod _))

private theorem upper_bits (register : UInt32) : (register >>> 1).toNat = register.toNat / 2 := by
  rw [UInt32.toNat_shiftRight]
  exact Nat.shiftRight_succ register.toNat 0

/-- The highest bit after a shift is one exactly if a one fell out, since the polynomial has it. -/
private theorem upper_ne_xor (register other : UInt32) :
    register >>> 1 ≠ (other >>> 1) ^^^ 0xEDB88320 := by
  intro same
  have low : (register >>> 1 ^^^ other >>> 1).toNat < 2 ^ 31 := by
    rw [UInt32.toNat_xor]
    apply Nat.xor_lt_two_pow
    all_goals
      rw [upper_bits]
      have := UInt32.toNat_lt register
      have := UInt32.toNat_lt other
      omega
  rw [same, UInt32.xor_comm, ← UInt32.xor_assoc, UInt32.xor_self, UInt32.zero_xor] at low
  exact absurd low (by decide)

theorem shift_injective (same : shift register = shift other) : register = other := by
  have whole (lowest : register.toNat % 2 = other.toNat % 2)
      (upper : register >>> 1 = other >>> 1) : register = other := by
    have halves := congrArg UInt32.toNat upper
    rw [upper_bits, upper_bits] at halves
    apply UInt32.toNat_inj.mp
    omega
  unfold shift at same
  split at same <;> rename_i first <;> split at same <;> rename_i second <;>
    rw [lowest_bit] at first second
  · exact whole (first.trans second.symm) same
  · exact absurd same (upper_ne_xor _ _)
  · exact absurd same.symm (upper_ne_xor _ _)
  · exact whole (by omega) ((UInt32.xor_left_inj _).mp same)

theorem shifts_injective (count : Nat) (same : shifts count register = shifts count other) :
    register = other := by
  induction count generalizing register other with
  | zero => exact same
  | succ count ih => exact shift_injective (ih same)

theorem absorb_injective (byte : UInt8) (same : absorb register byte = absorb other byte) :
    register = other :=
  (UInt32.xor_left_inj _).mp (shifts_injective 8 same)

/-- Different bytes lead from the same register to different ones. -/
theorem byte_of_absorb (same : absorb register left = absorb register right) : left = right := by
  have wide := (UInt32.xor_right_inj _).mp (shifts_injective 8 same)
  have value := congrArg UInt32.toNat wide
  rw [UInt8.toNat_toUInt32, UInt8.toNat_toUInt32] at value
  exact UInt8.toNat_inj.mp value

theorem run_injective (bytes : Bytes) (same : run register bytes = run other bytes) :
    register = other := by
  induction bytes generalizing register other with
  | nil => exact same
  | cons byte later ih => exact absorb_injective byte (ih same)

/-- A checksum tells any change of one byte. -/
theorem checksum_set {position : Nat} {byte : UInt8} (changed : bytes.set position byte ≠ bytes) :
    checksum (bytes.set position byte) ≠ checksum bytes := by
  intro same
  have inside : position < bytes.length :=
    Nat.lt_of_not_le fun beyond => changed (List.set_eq_of_length_le beyond)
  have whole : bytes = bytes.take position ++ bytes[position] :: bytes.drop (position + 1) := by
    rw [List.getElem_cons_drop, List.take_append_drop]
  have split : bytes.set position byte =
      bytes.take position ++ byte :: bytes.drop (position + 1) := by
    rw [List.set_eq_take_append_cons_drop, if_pos inside]
  have ends := (UInt32.xor_left_inj _).mp same
  rw [split] at ends
  conv at ends => rhs; rw [whole]
  rw [run_append, run_append] at ends
  have old : byte = bytes[position] := byte_of_absorb (run_injective _ ends)
  exact changed (split.trans (old ▸ whole.symm))

end Bytes

/-! ### Words -/

section Words

variable {register other : UInt32} {left right : Bytes}

/-- What is even does not decide which bit falls out. -/
theorem shift_xor (even : other.toNat % 2 = 0) :
    shift (register ^^^ other) = shift register ^^^ (other >>> 1) := by
  have same : (register ^^^ other) &&& 1 = 0 ↔ register &&& 1 = 0 := by
    have low : (register ^^^ other).toNat % 2 = register.toNat % 2 := by
      rw [UInt32.toNat_xor, ← Nat.pow_one 2, Nat.xor_mod_two_pow, Nat.pow_one, even, Nat.xor_zero]
    rw [lowest_bit, lowest_bit, low]
  unfold shift
  simp only [same, UInt32.shiftRight_xor]
  split
  · rfl
  · rw [UInt32.xor_assoc, UInt32.xor_assoc, UInt32.xor_comm (other >>> 1)]

/-- What stands above some bits comes down when they fall out. -/
theorem shifts_xor (count high : Nat) (small : high * 2 ^ count < UInt32.size) :
    shifts count (register ^^^ UInt32.ofNat (high * 2 ^ count)) =
      shifts count register ^^^ UInt32.ofNat high := by
  induction count generalizing register with
  | zero => rw [Nat.pow_zero, Nat.mul_one]; rfl
  | succ count ih =>
    have double : high * 2 ^ (count + 1) = high * 2 ^ count * 2 := by
      rw [Nat.pow_succ, Nat.mul_assoc]
    rw [double] at small ⊢
    have value := UInt32.toNat_ofNat_of_lt' small
    have half : UInt32.ofNat (high * 2 ^ count * 2) >>> 1 = UInt32.ofNat (high * 2 ^ count) := by
      rw [← UInt32.toNat_inj, upper_bits, value, UInt32.toNat_ofNat_of_lt' (by omega)]
      omega
    rw [shifts, shift_xor (by omega), half, ih (by omega)]
    rfl

theorem shifts_add (first second : Nat) (register : UInt32) :
    shifts (first + second) register = shifts second (shifts first register) := by
  induction first generalizing register with
  | zero => rw [Nat.zero_add]; rfl
  | succ first ih => rw [Nat.succ_add, shifts, ih]; rfl

/-- The lowest byte of a number and the bytes above it. -/
private theorem byte_xor_above (n : Nat) : n % 2 ^ 8 ^^^ n / 2 ^ 8 * 2 ^ 8 = n := by
  have low : (n % 2 ^ 8 ^^^ n / 2 ^ 8 * 2 ^ 8) % 2 ^ 8 = n % 2 ^ 8 := by
    rw [Nat.xor_mod_two_pow, Nat.mul_mod_left, Nat.mod_mod, Nat.xor_zero]
  have high : (n % 2 ^ 8 ^^^ n / 2 ^ 8 * 2 ^ 8) / 2 ^ 8 = n / 2 ^ 8 := by
    rw [Nat.xor_div_two_pow, Nat.mul_div_cancel _ (by decide),
      Nat.div_eq_of_lt (Nat.mod_lt _ (by decide)), Nat.zero_xor]
  omega

/-- A number of at most four bytes, the lowest first, is taken as a whole. -/
theorem run_encode {width n : Nat} (narrow : width ≤ 4) (small : n < 256 ^ width) :
    run register (LittleEndian.encode width n) =
      shifts (8 * width) (register ^^^ UInt32.ofNat n) := by
  induction width generalizing register n with
  | zero =>
    obtain rfl : n = 0 := by simpa using small
    simp [LittleEndian.encode, run, shifts]
  | succ width ih =>
    have above : n / 2 ^ 8 < 256 ^ width := by
      rw [Nat.div_lt_iff_lt_mul (by decide)]
      exact small
    have whole : n < UInt32.size :=
      Nat.lt_of_lt_of_le small (Nat.pow_le_pow_right (by decide) narrow)
    have word : n / 2 ^ 8 * 2 ^ 8 < UInt32.size := by omega
    -- The lowest byte falls out of the register, and the others come down to where it stood.
    have parts : (UInt8.ofNat n).toUInt32 ^^^ UInt32.ofNat (n / 2 ^ 8 * 2 ^ 8) =
        UInt32.ofNat n := by
      rw [← UInt32.toNat_inj, UInt32.toNat_xor, UInt8.toNat_toUInt32, UInt8.toNat_ofNat',
        UInt32.toNat_ofNat_of_lt' word, UInt32.toNat_ofNat_of_lt' whole, byte_xor_above]
    show run (absorb register (UInt8.ofNat n)) (LittleEndian.encode width (n / 2 ^ 8)) = _
    rw [ih (by omega) above, absorb, ← shifts_xor 8 _ word, UInt32.xor_assoc, parts, ← shifts_add,
      Nat.mul_succ, Nat.add_comm]

/-- From the same register, different words of four bytes lead to different registers. -/
theorem word_of_run (long : left.length = 4) (long' : right.length = 4)
    (same : run register left = run register right) : left = right := by
  have word {bytes : Bytes} (four : bytes.length = 4) : LittleEndian.decode bytes < UInt32.size ∧
      run register bytes = shifts 32 (register ^^^ UInt32.ofNat (LittleEndian.decode bytes)) := by
    have small := LittleEndian.decode_lt bytes
    have written := LittleEndian.encode_decode bytes
    rw [four] at small written
    exact ⟨small, by rw [← run_encode (Nat.le_refl 4) small, written]⟩
  obtain ⟨small, taken⟩ := word long
  obtain ⟨small', taken'⟩ := word long'
  rw [taken, taken'] at same
  have wide := (UInt32.xor_right_inj _).mp (shifts_injective 32 same)
  have value := congrArg UInt32.toNat wide
  rw [UInt32.toNat_ofNat_of_lt' small, UInt32.toNat_ofNat_of_lt' small'] at value
  exact LittleEndian.eq_of_decode (long.trans long'.symm) value

/-- Behind a byte string and its checksum the register always stands at the same place. -/
theorem run_checksum (bytes : Bytes) :
    run 0xFFFFFFFF (bytes ++ LittleEndian.encode 4 (checksum bytes).toNat) =
      shifts 32 0xFFFFFFFF := by
  rw [run_append, run_encode (Nat.le_refl 4) (UInt32.toNat_lt _), UInt32.ofNat_toNat, checksum,
    ← UInt32.xor_assoc, UInt32.xor_self, UInt32.zero_xor]

end Words

end QuorumLog.Crc32
