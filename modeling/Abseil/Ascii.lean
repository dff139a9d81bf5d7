import Mathlib.Data.List.DropRight
import Mathlib.Tactic.IntervalCases

/-!
# ASCII character classes

The classification table behind `absl::ascii_isspace` and the stripping of
whitespace at both ends of a text. Characters are bytes; the table has no entry
above 127, where every property bit is zero.
-/

namespace Abseil

open List

/-- `kPropertyBits`. Bit `0x08` marks whitespace. -/
def kPropertyBits : List ℕ :=
  [0x40, 0x40, 0x40, 0x40, 0x40, 0x40, 0x40, 0x40, 0x40, 0x68, 0x48, 0x48, 0x48, 0x48, 0x40, 0x40,
   0x40, 0x40, 0x40, 0x40, 0x40, 0x40, 0x40, 0x40, 0x40, 0x40, 0x40, 0x40, 0x40, 0x40, 0x40, 0x40,
   0x28, 0x10, 0x10, 0x10, 0x10, 0x10, 0x10, 0x10, 0x10, 0x10, 0x10, 0x10, 0x10, 0x10, 0x10, 0x10,
   0x84, 0x84, 0x84, 0x84, 0x84, 0x84, 0x84, 0x84, 0x84, 0x84, 0x10, 0x10, 0x10, 0x10, 0x10, 0x10,
   0x10, 0x85, 0x85, 0x85, 0x85, 0x85, 0x85, 0x05, 0x05, 0x05, 0x05, 0x05, 0x05, 0x05, 0x05, 0x05,
   0x05, 0x05, 0x05, 0x05, 0x05, 0x05, 0x05, 0x05, 0x05, 0x05, 0x05, 0x10, 0x10, 0x10, 0x10, 0x10,
   0x10, 0x85, 0x85, 0x85, 0x85, 0x85, 0x85, 0x05, 0x05, 0x05, 0x05, 0x05, 0x05, 0x05, 0x05, 0x05,
   0x05, 0x05, 0x05, 0x05, 0x05, 0x05, 0x05, 0x05, 0x05, 0x05, 0x05, 0x10, 0x10, 0x10, 0x10, 0x40]

/-- `ascii_isspace`. -/
def asciiIsSpace (c : UInt8) : Bool :=
  kPropertyBits.getD c.toNat 0 &&& 0x08 != 0

/-- The space characters are tab, newline, vertical tab, form feed, carriage return
and blank. -/
def IsSpace (c : UInt8) : Prop :=
  (9 ≤ c.toNat ∧ c.toNat ≤ 13) ∨ c.toNat = 32

/-- The test is for the six white space characters. -/
theorem asciiIsSpace_iff (c : UInt8) : asciiIsSpace c = true ↔ IsSpace c := by
  have table : ∀ n < 256, (kPropertyBits.getD n 0 &&& 0x08 != 0) = true ↔
      (9 ≤ n ∧ n ≤ 13) ∨ n = 32 := by decide +kernel
  exact table c.toNat c.toNat_lt

/-- Text without the whitespace at its two ends. -/
def stripSpace (text : List UInt8) : List UInt8 :=
  (text.dropWhile asciiIsSpace).rdropWhile asciiIsSpace

/-- A text without white space is left as it is. -/
theorem stripSpace_of_no_space {text : List UInt8} (h : ∀ c ∈ text, ¬IsSpace c) :
    stripSpace text = text := by
  have hcode : ∀ c ∈ text, ¬asciiIsSpace c = true := fun c hc => by
    rw [asciiIsSpace_iff]
    exact h c hc
  have hdrop : text.dropWhile asciiIsSpace = text := by
    cases text with
    | nil => rfl
    | cons c text => exact dropWhile_cons_of_neg (hcode c mem_cons_self)
  rw [stripSpace, hdrop, rdropWhile_eq_self_iff]
  exact fun hne => hcode _ (getLast_mem hne)

end Abseil
