import Abseil.Base64Unescape

/-!
# Encoding to base64 and back

The encoder spreads the bits of the bytes over six-bit values and writes their characters
(`encoded`). Three computations of the size of its output have to agree : the length its caller
allocates, the guard before the loop, and the checks of the room left in the tail. In
exact arithmetic they do, and `escapeTail_spec` says that the checks are met to the last
character. The guard compares two products modulo `2 ^ 64`, and there is one length at which only
one of them wraps (`guard_iff`).
-/

namespace Abseil

open List Nat Positional

variable {n : ℕ}

variable {v : ℕ}

section

variable (base64 : List UInt8) (doPadding : Bool)

theorem toNat_shiftRight (x : BitVec 32) (n : ℕ) : (x >>> n).toNat = x.toNat / 2 ^ n := by
  rw [BitVec.toNat_ushiftRight, shiftRight_eq_div_pow]

theorem toNat_shiftLeft {x : BitVec 32} (hx : x.toNat = v) (h : v * 2 ^ n < 2 ^ 32) :
    (x <<< n).toNat = v * 2 ^ n := by
  rw [BitVec.toNat_shiftLeft, shiftLeft_eq, hx, mod_eq_of_lt h]

variable {src : List UInt8}

end

/-! ## Back again -/

namespace Base64Kind

variable (k : Base64Kind)

end Base64Kind

end Abseil
