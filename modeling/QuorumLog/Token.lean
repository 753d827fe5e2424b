import QuorumLog.Text.Utf8

/-! The shared secret. It is compared byte for byte to the end whatever was found before, so the time
that takes tells nothing about where two secrets differ. -/

namespace QuorumLog.Token

/-- Gathers the bits in which a shown secret differs from the expected one; a secret that is too
short counts as filled up with zeros. -/
def difference (shown expected : Bytes) : Nat :=
  match expected with
  | [] => 0
  | b :: rest => ((shown.headD 0) ^^^ b).toNat ||| difference shown.tail rest

/-- Whether a shown secret is the expected one (`tokens_match`). -/
def isAccepted (shown expected : String) : Bool :=
  let shown := Utf8.encode shown
  let expected := Utf8.encode expected
  (shown.length ^^^ expected.length) ||| difference shown expected = 0

end QuorumLog.Token
