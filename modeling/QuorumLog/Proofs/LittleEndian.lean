import Mathlib.Algebra.Group.Nat.Defs
import QuorumLog.Format.LittleEndian

/-! How large a number may be for a count of bytes. Encoding keeps a number modulo the width, and
decoding bytes gives a number below what their count allows. -/

namespace QuorumLog.LittleEndian

/-- A number that fits the width is read back unchanged; a larger one loses its high part. -/
theorem decode_encode (width n : Nat) : decode (encode width n) = n % 256 ^ width := by
  induction width generalizing n with
  | zero => simp [encode, decode, Nat.mod_one]
  | succ width ih =>
    have low : (UInt8.ofNat n).toNat = n % 256 := rfl
    rw [encode, decode, ih, low, Nat.pow_succ', Nat.mod_mul]

theorem decode_encode_of_lt {width n : Nat} (h : n < 256 ^ width) :
    decode (encode width n) = n := by
  rw [decode_encode, Nat.mod_eq_of_lt h]

theorem decode_lt (bytes : Bytes) : decode bytes < 256 ^ bytes.length := by
  induction bytes with
  | nil => simp [decode]
  | cons b rest ih =>
    have hb : b.toNat < 256 := b.toNat_lt
    simp only [decode, List.length_cons, Nat.pow_succ']
    omega

theorem eq_of_decode {left right : Bytes} (long : left.length = right.length)
    (same : decode left = decode right) : left = right := by
  rw [← encode_decode left, long, same, encode_decode]

end QuorumLog.LittleEndian
