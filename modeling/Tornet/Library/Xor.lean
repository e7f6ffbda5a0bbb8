import Mathlib.Data.Nat.Bitwise
import Mathlib.Data.Nat.Size

/-! The xor distance of numbers by the number of their significant bits. -/
namespace Tornet.Library.Xor

/-- The distance of a distance leads back. -/
theorem xor_back {w : Nat} (a b : BitVec w) : a ^^^ b ^^^ b = a := by
  rw [BitVec.xor_assoc, BitVec.xor_self, BitVec.xor_zero]

end Tornet.Library.Xor
