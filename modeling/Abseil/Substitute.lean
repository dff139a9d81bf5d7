import Abseil.ByteBuffer

/-!
# Substitution

`SubstituteAndAppendArray` appends a format to a string, with the arguments in place of `$0` to `$9`
and `$` in place of `$$`. A first pass checks the format and counts bytes, a second pass writes them
without the checks.

What a format stands for is said once (`expand`) : the text up to the first `$` that is not valid,
and whether there is no such `$`. That text is appended, whatever the room for it held before
(`substituteAndAppendArray_eq`) : the second pass fills all of the room and nothing behind it, reads
nothing behind the format and takes no argument that is not there.
-/

namespace Abseil.Substitute

open List ByteBuffer

/-! ## The code -/

/-- A check that failed, or an access out of bounds. -/
inductive Stop
  | overflow
  | maxSize
  | outOfBounds
  deriving DecidableEq, Repr

/-- `ascii_isdigit`. -/
def isDigit (c : UInt8) : Bool := 48 ≤ c && c ≤ 57

/-- The character `$`. -/
def dollar : UInt8 := 36

/-- `CheckedAdd` of `size_t`. -/
def checkedAdd (a b : ℕ) : Except Stop ℕ :=
  if b ≤ 2 ^ 64 - 1 - a then .ok (a + b) else .error .overflow

variable (args : List (List UInt8))

/-- The first pass : the number of bytes, if the format is valid. -/
def countBytes : List UInt8 → ℕ → Except Stop (Option ℕ)
  | [], size => .ok (some size)
  | c :: rest, size =>
    if c = dollar then
      match rest with
      | [] => .ok none
      | d :: rest =>
        if isDigit d then
          match args[d.toNat - 48]? with
          | none => .ok none
          | some arg => do countBytes rest (← checkedAdd size arg.length)
        else if d = dollar then do countBytes rest (← checkedAdd size 1)
        else .ok none
    else do countBytes rest (← checkedAdd size 1)

/-- Copies bytes to `target` and moves it behind them. -/
def copy (src : List UInt8) (buf : List UInt8) (target : ℕ) : Except Stop (List UInt8 × ℕ) :=
  match put buf target src with
  | none => .error .outOfBounds
  | some buf => .ok (buf, target + src.length)

/-- The second pass. -/
def build : List UInt8 → List UInt8 × ℕ → Except Stop (List UInt8 × ℕ)
  | [], s => .ok s
  | c :: rest, (buf, target) =>
    if c = dollar then
      match rest with
      | [] => .error .outOfBounds
      | d :: rest =>
        if isDigit d then
          match args[d.toNat - 48]? with
          | none => .error .outOfBounds
          | some src => do build rest (← copy src buf target)
        else if d = dollar then do build rest (← copy [dollar] buf target)
        -- the next byte is not skipped
        else build (d :: rest) (buf, target)
    else do build rest (← copy [c] buf target)

/-- `SubstituteAndAppendArray`, with what is in the new bytes of the string before they are
written. -/
def substituteAndAppendArray (maxSize : ℕ) (junk : ℕ → UInt8) (output format : List UInt8) :
    Except Stop (List UInt8) := do
  match ← countBytes args format 0 with
  | none => return output
  | some size =>
    if size = 0 then return output
    else if size ≤ maxSize - output.length then do
      let (buf, _) ← build args format ((range size).map junk, 0)
      return output ++ buf
    else throw .maxSize

/-! ## What a format stands for -/

/-- The text up to the first `$` that is not valid, and whether there is none. -/
def expand : List UInt8 → List UInt8 × Bool
  | [] => ([], true)
  | c :: rest =>
    if c = dollar then
      match rest with
      | [] => ([], false)
      | d :: rest =>
        if isDigit d then
          match args[d.toNat - 48]? with
          | none => ([], false)
          | some arg => (arg ++ (expand rest).1, (expand rest).2)
        else if d = dollar then (dollar :: (expand rest).1, (expand rest).2)
        else ([], false)
    else (c :: (expand rest).1, (expand rest).2)

variable {args}

/-! ## The first pass -/

/-- The count of a format that stands for `e`, behind `size` bytes. -/
def counted (size : ℕ) (e : List UInt8 × Bool) : Except Stop (Option ℕ) :=
  if size + e.1.length < 2 ^ 64 then .ok (if e.2 then some (size + e.1.length) else none)
  else .error .overflow

variable {size : ℕ} (hsize : size < 2 ^ 64)
include hsize

theorem counted_nil : .ok none = counted size ([], false) := (if_pos hsize).symm

theorem counted_append {f : ℕ → Except Stop (Option ℕ)} (piece : List UInt8)
    {e : List UInt8 × Bool} (hf : ∀ size < 2 ^ 64, f size = counted size e) :
    (checkedAdd size piece.length >>= f) = counted size (piece ++ e.1, e.2) := by
  rw [checkedAdd, counted, length_append, ← Nat.add_assoc]
  by_cases hn : size + piece.length < 2 ^ 64
  · rw [if_pos (by omega)]
    exact hf _ hn
  · rw [if_neg (by omega), if_neg (by omega)]
    rfl

theorem countBytes_eq (format : List UInt8) :
    countBytes args format size = counted size (expand args format) := by
  fun_induction expand args format generalizing size with
  | case1 => exact (if_pos hsize).symm
  | case2 => exact counted_nil hsize
  | case3 d rest hd hnone => simp [countBytes, hd, hnone, ← counted_nil hsize]
  | case4 d rest hd arg harg ih =>
    simp only [countBytes, hd, harg, ↓reduceIte]
    exact counted_append hsize arg fun _ => ih
  | case5 rest hd ih =>
    simp only [countBytes, hd, ↓reduceIte]
    exact counted_append hsize [dollar] fun _ => ih
  | case6 d rest hd hne => simp [countBytes, hd, hne, ← counted_nil hsize]
  | case7 c rest hc ih =>
    unfold countBytes
    rw [if_neg hc]
    exact counted_append hsize [c] fun _ => ih

omit hsize

/-! ## The second pass -/

/-- A piece is copied behind what is written, over as many bytes of the rest. -/
theorem copy_bind {f : List UInt8 × ℕ → Except Stop (List UInt8 × ℕ)} {pre junk src t : List UInt8}
    (hlen : junk.length = (src ++ t).length) (hf : ∀ pre junk : List UInt8, junk.length = t.length →
      f (pre ++ junk, pre.length) = .ok (pre ++ t, (pre ++ t).length)) :
    (copy src (pre ++ junk) pre.length >>= f)
      = .ok (pre ++ (src ++ t), (pre ++ (src ++ t)).length) := by
  rw [length_append] at hlen
  have hput : put (pre ++ junk) pre.length src = some (pre ++ src ++ junk.drop src.length) := by
    rw [put, if_pos (by rw [length_append]; omega), take_left, drop_length_add_append]
  have hrest : (junk.drop src.length).length = t.length := by
    rw [length_drop]
    omega
  rw [copy, hput, ← length_append, ← append_assoc]
  exact hf _ _ hrest

theorem build_eq {format : List UInt8} (h : (expand args format).2 = true) :
    ∀ pre junk : List UInt8, junk.length = (expand args format).1.length →
    build args format (pre ++ junk, pre.length)
      = .ok (pre ++ (expand args format).1, (pre ++ (expand args format).1).length) := by
  fun_induction expand args format with
  | case1 =>
    intro pre junk hlen
    rw [length_eq_zero_iff.1 hlen, build, append_nil]
  | case2 => cases h
  | case3 => cases h
  | case4 d rest hd arg harg ih =>
    intro pre junk hlen
    simp only [build, hd, harg, ↓reduceIte]
    exact copy_bind hlen (ih h)
  | case5 rest hd ih =>
    intro pre junk hlen
    simp only [build, hd, ↓reduceIte]
    exact copy_bind hlen (ih h)
  | case6 => cases h
  | case7 c rest hc ih =>
    intro pre junk hlen
    unfold build
    rw [if_neg hc]
    exact copy_bind hlen (ih h)

/-- A valid format is expanded behind the output. Nothing changes for one that is not valid or that
stands for nothing. -/
theorem substituteAndAppendArray_eq (maxSize : ℕ) (junk : ℕ → UInt8) (output format : List UInt8) :
    substituteAndAppendArray args maxSize junk output format
      = if 2 ^ 64 ≤ (expand args format).1.length then .error .overflow
        else if (expand args format).2 = false ∨ (expand args format).1 = [] then .ok output
        else if maxSize - output.length < (expand args format).1.length then .error .maxSize
        else .ok (output ++ (expand args format).1) := by
  have hbuild := fun h =>
    @build_eq args format h [] ((range (expand args format).1.length).map junk) (by simp)
  rw [substituteAndAppendArray, countBytes_eq (by norm_num), counted, Nat.zero_add]
  generalize expand args format = e at *
  obtain ⟨text, valid⟩ := e
  dsimp only at *
  by_cases hlt : text.length < 2 ^ 64
  · rw [if_pos hlt, if_neg hlt.not_ge]
    cases valid with
    | false => rfl
    | true =>
      rw [if_pos rfl]
      by_cases hnil : text = []
      · rw [if_pos (.inr hnil), hnil]
        rfl
      rw [if_neg (by simp [hnil])]
      change (if _ then _ else _) = _
      rw [if_neg (by rwa [length_eq_zero_iff])]
      by_cases hmax : text.length ≤ maxSize - output.length
      · rw [if_pos hmax, if_neg hmax.not_gt]
        exact congrArg (· >>= _) (hbuild rfl)
      · rw [if_neg hmax, if_pos (not_le.1 hmax)]
        rfl
  · rw [if_neg hlt, if_pos (not_lt.1 hlt)]
    rfl

end Abseil.Substitute
