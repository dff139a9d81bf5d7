import Mathlib.Tactic

/-!
# Truncation by `SnprintF`

`FormatSinkImpl` of `absl/strings/internal/str_format/extension.h` over the `BufferRawSink` of
`output.cc`, as `SnprintF` of `bind.cc` puts them together. Two writes are one write of the
concatenation (`write_append`), so flushing a sink now gives what one write of all the appended
data would have given, wherever its buffer was flushed before (`formatUntyped_eq`). The total is
kept in 64 bits : a total that does not fit is reported modulo `2 ^ 64`.
-/

namespace Abseil.FormatSink

open List

/-- `BufferRawSink` : the bytes between `output` and `buffer_`, and the room that is left. -/
@[ext] structure BufferRawSink where
  written : List UInt8
  size : ℕ
  totalWritten : BitVec 64

namespace BufferRawSink

variable (s : BufferRawSink)

/-- `Write` : as many bytes as there is room for are copied, all are counted. -/
def write (v : List UInt8) : BufferRawSink where
  written := s.written ++ v.take s.size
  size := s.size - min v.length s.size
  totalWritten := s.totalWritten + BitVec.ofNat 64 v.length

/-- The memory from `output` on, in which only the bytes before `buffer_` were written. -/
def mem (output : ℕ → UInt8) (i : ℕ) : UInt8 := s.written.getD i (output i)

end BufferRawSink

/-- `FormatSinkImpl` : its raw sink, and the bytes of `buf_` before `pos_`. -/
structure FormatSinkImpl where
  raw : BufferRawSink
  buf : List UInt8

/-- What a conversion appends : a string, or a character a number of times. -/
inductive Append
  | text (v : List UInt8)
  | fill (n : ℕ) (c : UInt8)

/-- The bytes of an append. -/
def Append.bytes : Append → List UInt8
  | text v => v
  | fill n c => replicate n c

namespace FormatSinkImpl

variable (s : FormatSinkImpl)

/-- The room in the buffer. -/
def avail : ℕ := 1024 - s.buf.length

/-- `Flush`. -/
def flush : FormatSinkImpl := ⟨s.raw.write s.buf, []⟩

/-- `raw_append` : a character, a number of times, into the buffer. -/
def rawAppend (c : UInt8) (count : ℕ) : FormatSinkImpl :=
  { s with buf := s.buf ++ replicate count c }

/-- The loop of `Append(size_t, char)`. -/
def fillLoop (c : UInt8) (n : ℕ) (s : FormatSinkImpl) : FormatSinkImpl :=
  if n > s.avail then fillLoop c (n - s.avail) (s.rawAppend c s.avail).flush else s.rawAppend c n
termination_by n + s.buf.length
decreasing_by
  simp only [flush, length_nil, avail] at *
  omega

/-- `Append`. -/
def append : Append → FormatSinkImpl
  | .fill n c => if n = 0 then s else fillLoop c n s
  | .text v =>
    if v.length = 0 then s
    else if v.length ≥ s.avail then { s.flush with raw := s.flush.raw.write v }
    else { s with buf := s.buf ++ v }

end FormatSinkImpl

/-- `FormatUntyped` : the appends of the conversions, then the destructor of the sink. -/
def formatUntyped (raw : BufferRawSink) (appends : List Append) : BufferRawSink :=
  (appends.foldl FormatSinkImpl.append ⟨raw, []⟩).flush.raw

/-- `SnprintF` into the memory from `output` on, `converted` being whether the format was
converted : the value and the memory. -/
def snprintF (output : ℕ → UInt8) (size : ℕ) (converted : Bool) (appends : List Append) :
    ℤ × (ℕ → UInt8) :=
  let sink := formatUntyped ⟨[], if size ≠ 0 then size - 1 else 0, 0⟩ appends
  let total := sink.totalWritten.toNat
  if ¬ converted then (-1, sink.mem output)
  else (if total > 2 ^ 31 - 1 then -1 else total,
    if size ≠ 0 then Function.update (sink.mem output) (min total (size - 1)) 0
    else sink.mem output)

/-! ## One write for all -/

namespace BufferRawSink

variable (s : BufferRawSink) (a b : List UInt8)

theorem write_nil : s.write [] = s := by
  simp [write]

/-- Two writes are one write of the concatenation, also where the room ends. -/
theorem write_append : (s.write a).write b = s.write (a ++ b) := by
  refine BufferRawSink.ext ?_ ?_ ?_ <;> simp only [write, length_append]
  · rw [append_assoc, take_append, show s.size - min a.length s.size = s.size - a.length by omega]
  · omega
  · rw [BitVec.add_assoc, BitVec.ofNat_add]

end BufferRawSink

section Run

/-- A sink that was given `data` : flushed now, it leaves what one write of `data` leaves. -/
def Holds (raw : BufferRawSink) (data : List UInt8) (s : FormatSinkImpl) : Prop :=
  s.raw.write s.buf = raw.write data

variable {s : FormatSinkImpl} {raw : BufferRawSink} {data : List UInt8}

section

variable (h : Holds raw data s)
include h

theorem Holds.buffered (v : List UInt8) : Holds raw (data ++ v) { s with buf := s.buf ++ v } := by
  rw [Holds] at *
  rw [← s.raw.write_append, ← raw.write_append, h]

theorem Holds.flush : Holds raw data s.flush :=
  (BufferRawSink.write_nil _).trans h

theorem Holds.fillLoop (c : UInt8) (n : ℕ) :
    Holds raw (data ++ replicate n c) (FormatSinkImpl.fillLoop c n s) := by
  fun_induction FormatSinkImpl.fillLoop c n s generalizing data with
  | case1 n s hn ih =>
    have hround := ih (h.buffered _).flush
    rwa [append_assoc, replicate_append_replicate, Nat.add_sub_cancel' hn.le] at hround
  | case2 n s hn => exact h.buffered _

theorem Holds.append (a : Append) : Holds raw (data ++ a.bytes) (s.append a) := by
  cases a with
  | fill n c =>
    rw [FormatSinkImpl.append]
    split_ifs with hn
    · rwa [hn, Append.bytes, replicate_zero, append_nil]
    · exact h.fillLoop c n
  | text v =>
    rw [FormatSinkImpl.append]
    split_ifs with hn hbig
    · rwa [length_eq_zero_iff.1 hn, Append.bytes, append_nil]
    · have hwrite : (s.flush.raw.write v).write [] = raw.write (data ++ v) := by
        rw [BufferRawSink.write_nil, ← raw.write_append, ← h.flush, BufferRawSink.write_append]
        rfl
      exact hwrite
    · exact h.buffered v

end

variable (appends : List Append)

theorem Holds.run (h : Holds raw data s) : Holds raw (data ++ appends.flatMap Append.bytes)
    (appends.foldl FormatSinkImpl.append s) := by
  induction appends generalizing data s with
  | nil => rwa [flatMap_nil, append_nil]
  | cons a appends ih =>
    rw [flatMap_cons, ← append_assoc]
    exact ih (h.append a)

/-- Where the buffer is flushed makes no difference. -/
theorem formatUntyped_eq : formatUntyped raw appends = raw.write (appends.flatMap Append.bytes) :=
  (show Holds raw [] ⟨raw, []⟩ from rfl).run appends

end Run

/-! ## The contract -/

variable (output : ℕ → UInt8) (size : ℕ)

/-- The contract : the value is the total, or -1 if no `int` holds it. The memory gets as much of
the data as there is room for and a NUL, and nothing else is touched. -/
structure Truncates (data : List UInt8) (r : ℤ × (ℕ → UInt8)) : Prop where
  value : r.1 = if data.length > 2 ^ 31 - 1 then -1 else (data.length : ℤ)
  untouched : size = 0 → r.2 = output
  written : size ≠ 0 → ∀ i, r.2 i = if i = (data.take (size - 1)).length then 0
    else (data.take (size - 1)).getD i (output i)

theorem snprintF_eq (appends : List Append) {data : List UInt8}
    (hdata : appends.flatMap Append.bytes = data) :
    snprintF output size true appends
      = (if data.length % 2 ^ 64 > 2 ^ 31 - 1 then (-1 : ℤ) else (data.length % 2 ^ 64 : ℕ),
        if size ≠ 0 then Function.update (fun i => (data.take (size - 1)).getD i (output i))
          (min (data.length % 2 ^ 64) (size - 1)) 0 else output) := by
  have htotal : ∀ n, (BufferRawSink.write ⟨[], n, 0⟩ data).totalWritten.toNat
      = data.length % 2 ^ 64 := by
    simp [BufferRawSink.write]
  rw [snprintF, if_neg (not_not.2 rfl), formatUntyped_eq, hdata, htotal]
  split_ifs <;> rfl

/-- **The contract.** It is met in every memory if and only if the total fits in 64 bits, or what
is left of it there is still too large for an `int` and, if there is a buffer, fills it. -/
theorem snprintF_truncates_iff (size : ℕ) (appends : List Append) :
    (∀ output, Truncates output size (appends.flatMap Append.bytes)
      (snprintF output size true appends)) ↔
    (appends.flatMap Append.bytes).length < 2 ^ 64 ∨
      (appends.flatMap Append.bytes).length % 2 ^ 64 > 2 ^ 31 - 1 ∧
        (size = 0 ∨ size - 1 ≤ (appends.flatMap Append.bytes).length % 2 ^ 64) := by
  generalize hdata : appends.flatMap Append.bytes = data
  simp only [snprintF_eq _ _ appends hdata]
  constructor
  · intro h
    refine or_iff_not_imp_left.2 fun hbig => ⟨?_, or_iff_not_imp_left.2 fun hsize => ?_⟩
    · have hvalue := (h fun _ => 0).value
      by_contra hsmall
      dsimp only at hvalue
      rw [if_neg hsmall, if_pos (by omega)] at hvalue
      omega
    · -- the byte behind the data that fits is the NUL, not what was there
      have hnul := (h fun _ => 1).written hsize (min (size - 1) data.length)
      by_contra hlt
      dsimp only at hnul
      rw [if_pos length_take.symm, if_pos hsize, Function.update_of_ne (by omega),
        getD_eq_getElem?_getD, getElem?_eq_none length_take.le] at hnul
      exact absurd hnul (by decide)
  · intro h output
    refine ⟨?_, fun h0 => if_neg (not_not.2 h0), fun h0 i => ?_⟩
    · dsimp only
      split_ifs <;> omega
    · dsimp only
      rw [if_pos h0, Function.update_apply, length_take]
      congr 2
      omega

/-- As many fields of a gigabyte as make up `2 ^ 64` bytes are reported as 0. -/
theorem snprintF_wraps : ¬ Truncates (fun _ => 7) 4
    ((replicate (2 ^ 34) (Append.fill (2 ^ 30) 32)).flatMap Append.bytes)
    (snprintF (fun _ => 7) 4 true (replicate (2 ^ 34) (.fill (2 ^ 30) 32))) := by
  generalize hn : 2 ^ 34 = n
  generalize hk : 2 ^ 30 = k
  have hlen : ((replicate n (Append.fill k 32)).flatMap Append.bytes).length = 2 ^ 64 := by
    rw [length_flatMap, map_replicate, sum_replicate, Append.bytes, length_replicate, ← hn, ← hk]
    norm_num
  intro h
  have hvalue := h.value
  rw [snprintF_eq _ _ _ rfl, hlen] at hvalue
  exact absurd hvalue (by norm_num)

end Abseil.FormatSink
