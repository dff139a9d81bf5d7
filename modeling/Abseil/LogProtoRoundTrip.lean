import Abseil.LogProto
import Mathlib.Data.Nat.Bitwise

/-!
# What is decoded is a prefix of what was encoded

The buffer holds a text that only grows (`At`), and the span behind it is what is left. One call
appends one field, which is decoded to what the call was given, or nothing, and then the span is
empty (`Call.encode_spec`). Over a sequence of calls the first ones succeed and the others fail
(`Calls.run_spec`). The length of a message is in the bytes reserved for it whatever the calls in it
did, since the content is no longer than the span was.
-/

namespace Abseil.LogProto

open List Nat ByteBuffer ProtoField

/-! ## Varints -/

theorem shift_seven (v : ℕ) : v >>> 7 = v / 128 := shiftRight_eq_div_pow v 7

theorem varintSize_pos (v : ℕ) : 0 < varintSize v := by
  rw [varintSize]
  split_ifs <;> omega

/-- The value fits into the bytes. -/
theorem lt_varintSize (v : ℕ) : v < 2 ^ (7 * varintSize v) := by
  fun_induction varintSize v with
  | case1 v h => exact h
  | case2 v h ih =>
    rw [shift_seven] at ih
    rw [mul_add, pow_add, shift_seven]
    omega

theorem varintSize_le (k : ℕ) : ∀ {v : ℕ}, v < 2 ^ (7 * (k + 1)) → varintSize v ≤ k + 1 := by
  induction k with
  | zero =>
    intro v h
    rw [varintSize, if_pos (by omega)]
  | succ k ih =>
    intro v h
    rw [varintSize, shift_seven]
    split_ifs
    · omega
    · have := ih (v := v / 128) (by rw [mul_add, pow_add] at h; omega)
      omega

variable {v : ℕ}

theorem varintSize_mono {w : ℕ} (h : v ≤ w) : varintSize v ≤ varintSize w := by
  obtain ⟨k, hk⟩ : ∃ k, varintSize w = k + 1 :=
    ⟨_, (succ_pred_eq_of_pos (varintSize_pos w)).symm⟩
  have := lt_varintSize w
  rw [hk] at this ⊢
  exact varintSize_le k (lt_of_le_of_lt h this)

/-- A value of `64` bits has ten bytes at most. -/
theorem varintSize_le_ten (h : v < 2 ^ 64) : varintSize v ≤ 10 :=
  varintSize_le 9 (h.trans (by norm_num))

@[simp] theorem length_rawVarint : ∀ size v, (rawVarint size v).length = size
  | 0, _ => rfl
  | size + 1, v => by rw [rawVarint, length_cons, length_rawVarint size]

theorem and_low (v : ℕ) : v &&& 0x7f = v % 128 := and_two_pow_sub_one_eq_mod v 7

variable {value : ℕ}

theorem or_shift {x k : ℕ} (h : value < 2 ^ k) : value ||| x * 2 ^ k = value + x * 2 ^ k := by
  rw [Nat.mul_comm, Nat.or_comm, ← two_pow_add_eq_or_of_lt h, Nat.add_comm]

theorem byte_low (h : v < 128) :
    (UInt8.ofNat (v ||| 0)).toNat &&& 0x7f = v ∧ (UInt8.ofNat (v ||| 0)).toNat &&& 0x80 = 0 := by
  have hto : (UInt8.ofNat (v ||| 0)).toNat = v := by
    rw [or_zero, UInt8.toNat_ofNat', mod_eq_of_lt (by omega)]
  rw [hto, and_low, mod_eq_of_lt h]
  refine ⟨rfl, ?_⟩
  rw [show (0x80 : ℕ) = 2 ^ 7 from rfl, and_two_pow, testBit_lt_two_pow h]
  rfl

theorem byte_high (h : v < 128) : (UInt8.ofNat (v ||| 0x80)).toNat &&& 0x7f = v ∧
      (UInt8.ofNat (v ||| 0x80)).toNat &&& 0x80 ≠ 0 := by
  have hor : v ||| 0x80 = v + 128 := or_shift (x := 1) (k := 7) h
  have hto : (UInt8.ofNat (v ||| 0x80)).toNat = v + 128 := by
    rw [hor, UInt8.toNat_ofNat', mod_eq_of_lt (by omega)]
  rw [hto, and_low]
  refine ⟨by omega, ?_⟩
  rw [show (0x80 : ℕ) = 2 ^ 7 from rfl, and_two_pow, add_comm,
    testBit_two_pow_add_eq, testBit_lt_two_pow h]
  norm_num

theorem decodeVarintLoop_raw : ∀ k s v value rest, value < 2 ^ (7 * s) →
    v < 2 ^ (7 * (k + 1)) → v * 2 ^ (7 * s) < 2 ^ 64 → s + k < 10 →
    decodeVarintLoop s value (rawVarint (k + 1) v ++ rest) = some (value + v * 2 ^ (7 * s), rest)
  | 0, s, v, value, rest, hvalue, hv, hlt, hs => by
    have hv' : v < 128 := by omega
    obtain ⟨hlow, hhigh⟩ := byte_low hv'
    rw [rawVarint, and_low, mod_eq_of_lt hv', if_pos rfl, cons_append, decodeVarintLoop,
      if_pos (by omega)]
    rw [hlow, if_pos hhigh, shiftLeft_eq, mod_eq_of_lt hlt, or_shift hvalue]
    rfl
  | k + 1, s, v, value, rest, hvalue, hv, hlt, hs => by
    obtain ⟨hlow, hhigh⟩ := byte_high (mod_lt _ (by norm_num))
    have hdiv : v / 128 * 2 ^ (7 * (s + 1)) + v % 128 * 2 ^ (7 * s) = v * 2 ^ (7 * s) := by
      rw [mul_add]
      conv_rhs => rw [← div_add_mod v 128]
      ring
    have hmod : v % 128 * 2 ^ (7 * s) < 2 ^ 64 := by omega
    rw [rawVarint, and_low, if_neg (succ_ne_zero k), cons_append, decodeVarintLoop,
      if_pos (by omega)]
    rw [hlow, if_neg hhigh, shiftLeft_eq, mod_eq_of_lt hmod, or_shift hvalue, shift_seven,
      decodeVarintLoop_raw k (s + 1) (v / 128) _ rest ?_ ?_ (by omega) (by omega)]
    · congr 2
      omega
    · rw [mul_add, pow_add]
      have : v % 128 * 2 ^ (7 * s) ≤ 127 * 2 ^ (7 * s) := mul_le_mul_right _ (by omega)
      omega
    · rw [mul_add, pow_add] at hv
      omega

variable {size : ℕ}

/-- A varint is read back from the bytes that it was written to, also from more than it needs. -/
theorem decodeVarint_raw (hv : v < 2 ^ 64) (hsize : varintSize v ≤ size) (hten : size ≤ 10)
    (rest : List UInt8) : decodeVarint (rawVarint size v ++ rest) = some (v, rest) := by
  obtain ⟨k, rfl⟩ : ∃ k, size = k + 1 :=
    ⟨size - 1, by have := varintSize_pos v; omega⟩
  have hlt : v < 2 ^ (7 * (k + 1)) :=
    (lt_varintSize v).trans_le (Nat.pow_le_pow_right (by norm_num) (by omega))
  rw [decodeVarint,
    decodeVarintLoop_raw k 0 v 0 rest (by norm_num) hlt (by simpa using hv) (by omega)]
  simp

theorem decodeFixedLoop_le {w : ℕ} : ∀ k s v value rest, s + k + 1 = w →
    value < 2 ^ (8 * s) → v < 2 ^ (8 * (k + 1)) →
    decodeFixedLoop w s value (leBytes (k + 1) v ++ rest) = (value + v * 2 ^ (8 * s), rest)
  | 0, s, v, value, rest, hw, hvalue, hv => by
    have hto : (UInt8.ofNat v).toNat = v := by
      rw [UInt8.toNat_ofNat', mod_eq_of_lt hv]
    have hlt : v * 2 ^ (8 * s) < 2 ^ (8 * w) := by
      rw [← hw, show 8 * (s + 0 + 1) = 8 + 8 * s by omega, pow_add]
      exact Nat.mul_lt_mul_of_pos_right hv (Nat.two_pow_pos _)
    rw [leBytes, cons_append, decodeFixedLoop, hto, if_pos (by omega), shiftLeft_eq,
      mod_eq_of_lt hlt, or_shift hvalue]
    rfl
  | k + 1, s, v, value, rest, hw, hvalue, hv => by
    have hto : (UInt8.ofNat v).toNat = v % 256 := UInt8.toNat_ofNat'
    have hdiv : v / 256 * 2 ^ (8 * (s + 1)) + v % 256 * 2 ^ (8 * s) = v * 2 ^ (8 * s) := by
      rw [mul_add]
      conv_rhs => rw [← div_add_mod v 256]
      ring
    have hle : v % 256 * 2 ^ (8 * s) ≤ 255 * 2 ^ (8 * s) := mul_le_mul_right _ (by omega)
    have hlt : v % 256 * 2 ^ (8 * s) < 2 ^ (8 * w) := by
      calc v % 256 * 2 ^ (8 * s) < 2 ^ 8 * 2 ^ (8 * s) :=
            Nat.mul_lt_mul_of_pos_right (by omega) (Nat.two_pow_pos _)
        _ = 2 ^ (8 + 8 * s) := (pow_add 2 8 (8 * s)).symm
        _ ≤ 2 ^ (8 * w) := Nat.pow_le_pow_right two_pos (by omega)
    rw [leBytes, cons_append, decodeFixedLoop, hto, if_neg (by omega), shiftLeft_eq,
      mod_eq_of_lt hlt, or_shift hvalue,
      decodeFixedLoop_le k (s + 1) (v / 256) _ rest (by omega) ?_ ?_]
    · congr 1
      omega
    · rw [mul_add, pow_add]
      omega
    · rw [mul_add, pow_add] at hv
      omega

/-! ## Tags -/

variable {tag : ℕ} {type : WireType}

theorem makeTagType_eq (h : tag < 2 ^ 61) (ht : type.toNat < 8) :
    makeTagType tag type = tag * 8 + type.toNat := by
  rw [makeTagType, shiftLeft_eq, mod_eq_of_lt (by omega), Nat.or_comm, or_shift ht, add_comm]
  rfl

theorem encodedTag_ne_nil (tag : ℕ) (type : WireType) : encodedTag tag type ≠ [] := by
  intro hnil
  have := congrArg length hnil
  rw [encodedTag, length_rawVarint] at this
  exact absurd this (varintSize_pos _).ne'

/-- The tag and the type in front of a value. -/
theorem decodeFrom_tag (h : tag < 2 ^ 61) (ht : type.toNat < 8)
    (hof : WireType.ofNat type.toNat = type) (f : ProtoField) (data : List UInt8) :
    f.decodeFrom (encodedTag tag type ++ data)
      = ((mk tag type f.value f.data).decodeValue data).map some := by
  have heq := makeTagType_eq h ht
  have hlt : makeTagType tag type < 2 ^ 64 := by omega
  have hne := append_ne_nil_of_left_ne_nil (encodedTag_ne_nil tag type) data
  rw [decodeFrom, if_neg hne, encodedTag,
    decodeVarint_raw hlt le_rfl (varintSize_le_ten hlt), Option.bind_some]
  rw [show makeTagType tag type >>> 3 = tag by rw [shiftRight_eq_div_pow]; omega,
    show makeTagType tag type &&& 0x07 = type.toNat by
      rw [show makeTagType tag type &&& 0x07 = _ from and_two_pow_sub_one_eq_mod _ 3]
      omega, hof]

/-! ## What is decoded -/

/-- The arguments of a call are in the range of their types. -/
def Call.Valid : Call → Prop
  | .varint tag value => tag < 2 ^ 61 ∧ value < 2 ^ 64
  | .zigZag tag value => tag < 2 ^ 61 ∧ -2 ^ 63 ≤ value ∧ value < 2 ^ 63
  | .fixed64 tag value => tag < 2 ^ 61 ∧ value < 2 ^ 64
  | .fixed32 tag value => tag < 2 ^ 61 ∧ value < 2 ^ 32
  | .bytes tag value => tag < 2 ^ 61 ∧ value.length < 2 ^ 63
  | .bytesTruncate tag value => tag < 2 ^ 61 ∧ value.length < 2 ^ 63

/-- The calls and the messages have valid arguments. -/
def Calls.Valid : Calls → Prop
  | .nil => True
  | .call c rest => c.Valid ∧ rest.Valid
  | .message tag _ body rest => tag < 2 ^ 61 ∧ body.Valid ∧ rest.Valid

/-- The field is the one that was encoded. If `cut`, a string may be missing its tail. -/
def Call.Agrees (cut : Prop) (f : ProtoField) : Call → Prop
  | .varint tag value => f.tag = tag ∧ f.type = .kVarint ∧ f.value = value
  | .zigZag tag value => f.tag = tag ∧ f.type = .kVarint ∧ f.sint64Value = value
  | .fixed64 tag value => f.tag = tag ∧ f.type = .k64Bit ∧ f.value = value
  | .fixed32 tag value => f.tag = tag ∧ f.type = .k32Bit ∧ f.value = value
  | .bytes tag value => f.tag = tag ∧ f.type = .kLengthDelimited ∧ f.value = value.length ∧
      f.data = value
  | .bytesTruncate tag value => f.tag = tag ∧ f.type = .kLengthDelimited ∧
      f.value = f.data.length ∧ (f.data = value ∨ cut ∧ f.data <+: value)

/-- The fields are those of the first `n` calls. Only the last of them may be cut. -/
def Calls.Decoded : Calls → ℕ → Prop → List ProtoField → Prop
  | _, 0, _, fields => fields = []
  | .nil, _ + 1, _, _ => False
  | .call c rest, n + 1, cut, fields =>
    ∃ f fs, fields = f :: fs ∧ c.Agrees (cut ∧ n = 0) f ∧ rest.Decoded n cut fs
  | .message tag _ body rest, n + 1, cut, fields =>
    ∃ f fs, fields = f :: fs ∧ f.tag = tag ∧ f.type = .kLengthDelimited ∧
      f.value = f.data.length ∧
      (∀ f₀, ∃ inner, decodeFields (f.data.length + 1) f₀ f.data = some inner ∧
        body.Decoded (min n body.count) (cut ∧ n ≤ body.count) inner) ∧
      rest.Decoded (n - body.count) cut fs

variable {f : ProtoField}

theorem Call.Agrees.mono {cut cut' : Prop} (himp : cut → cut') :
    ∀ {c : Call}, c.Agrees cut f → c.Agrees cut' f
  | .varint _ _, h => h
  | .zigZag _ _, h => h
  | .fixed64 _ _, h => h
  | .fixed32 _ _, h => h
  | .bytes _ _, h => h
  | .bytesTruncate _ _, h => ⟨h.1, h.2.1, h.2.2.1, h.2.2.2.imp_right fun h => ⟨himp h.1, h.2⟩⟩

theorem Calls.Decoded.mono : ∀ {calls : Calls} {n : ℕ} {cut cut' : Prop} {fields : List ProtoField},
    (cut → cut') → calls.Decoded n cut fields → calls.Decoded n cut' fields
  | calls, 0, _, _, _, _, h => by cases calls <;> exact h
  | .call c rest, n + 1, _, _, _, himp, h => by
    obtain ⟨f, fs, rfl, hf, hfs⟩ := h
    exact ⟨f, fs, rfl, hf.mono fun h => ⟨himp h.1, h.2⟩, Calls.Decoded.mono himp hfs⟩
  | .message tag m body rest, n + 1, _, _, _, himp, h => by
    obtain ⟨f, fs, rfl, htag, htype, hvalue, hinner, hfs⟩ := h
    refine ⟨f, fs, rfl, htag, htype, hvalue, fun f0 => ?_, Calls.Decoded.mono himp hfs⟩
    obtain ⟨inner, hdec, hbody⟩ := hinner f0
    exact ⟨inner, hdec, Calls.Decoded.mono (fun h => ⟨himp h.1, h.2⟩) hbody⟩

theorem sint64Value_zigZag {value : ℤ} (h : -2 ^ 63 ≤ value) (h' : value < 2 ^ 63)
    (hf : f.value = zigZag value) : f.sint64Value = value := by
  rw [sint64Value]
  by_cases hneg : value < 0
  · have hz : zigZag value = 2 * (-(value + 1)).toNat + 1 := by
      rw [zigZag, if_pos hneg]
      exact mod_eq_of_lt (by omega)
    rw [Int.bmod_def]
    split_ifs <;> omega
  · have hz : zigZag value = 2 * value.toNat := by
      rw [zigZag, if_neg hneg]
      exact mod_eq_of_lt (by omega)
    rw [if_neg (by omega), Int.bmod_def]
    split_ifs <;> omega

/-! ## The text in the buffer -/

/-- The buffer starts with `text`, and the span is behind it. -/
structure At (b : Buf) (length : ℕ) (text : List UInt8) : Prop where
  length_eq : b.mem.length = length
  text_eq : text <+: b.mem
  data_eq : b.data = text.length
  fits : b.data + b.size ≤ b.mem.length

variable {b : Buf} {length : ℕ} {text : List UInt8}

theorem At.clear (h : At b length text) : At b.clear length text :=
  ⟨h.length_eq, h.text_eq, h.data_eq, (le_add_right _ _).trans h.fits⟩

theorem At.write (h : At b length text) {bytes : List UInt8} (hle : bytes.length ≤ b.size) :
    ∃ b', b.write bytes = some b' ∧ At b' length (text ++ bytes) ∧
      b'.size + bytes.length = b.size := by
  obtain ⟨tail, htail⟩ := h.text_eq
  have hfits := h.fits
  refine ⟨⟨b.mem.take b.data ++ bytes ++ b.mem.drop (b.data + bytes.length), b.data + bytes.length,
    b.size - bytes.length⟩, ?_, ?_, Nat.sub_add_cancel hle⟩
  · rw [Buf.write, if_pos hle, put, if_pos (by omega)]
    rfl
  have htake : b.mem.take b.data = text := by rw [← htail, h.data_eq, take_left]
  refine ⟨?_, ?_, ?_, ?_⟩
  · rw [← h.length_eq]
    simp only [length_append, length_take, length_drop]
    omega
  · exact ⟨b.mem.drop (b.data + bytes.length), by rw [htake]⟩
  · rw [length_append, h.data_eq]
  · simp only [length_append, length_take, length_drop]
    omega

theorem At.writeAll : ∀ {pieces : List (List UInt8)} {b : Buf} {length : ℕ} {text : List UInt8},
    At b length text → (pieces.map List.length).sum ≤ b.size →
    ∃ b', b.writeAll pieces = some b' ∧ At b' length (text ++ pieces.flatten) ∧
      b'.size + pieces.flatten.length = b.size
  | [], b, length, text, h, _ => ⟨b, rfl, by simpa using h, rfl⟩
  | bytes :: pieces, b, length, text, h, hle => by
    rw [map_cons, sum_cons] at hle
    have hbytes : bytes.length ≤ b.size := by omega
    obtain ⟨b1, hwrite, h1, hsize1⟩ := h.write hbytes
    have hpieces : (pieces.map List.length).sum ≤ b1.size := by omega
    obtain ⟨b2, hall, h2, hsize2⟩ := At.writeAll h1 hpieces
    refine ⟨b2, by rw [Buf.writeAll, hwrite, Option.bind_some, hall], ?_, ?_⟩
    · rwa [flatten_cons, ← append_assoc]
    · rw [flatten_cons, length_append]
      omega

/-- The pieces are appended if they fit. Otherwise nothing is, and the span is made empty. -/
theorem At.encodePieces (h : At b length text) (pieces : List (List UInt8)) :
    ∃ b', encodePieces pieces b = some (decide (pieces.flatten.length ≤ b.size), b') ∧
      b'.size = b.size - pieces.flatten.length ∧
      At b' length (if pieces.flatten.length ≤ b.size then text ++ pieces.flatten else text) := by
  rw [LogProto.encodePieces, ← length_flatten]
  by_cases hle : pieces.flatten.length ≤ b.size
  · obtain ⟨b', hall, h', hsize⟩ := h.writeAll (length_flatten ▸ hle)
    rw [if_neg (Nat.not_lt.2 hle), decide_eq_true hle, if_pos hle, hall]
    exact ⟨b', rfl, by omega, h'⟩
  · rw [if_pos (Nat.lt_of_not_le hle), decide_eq_false hle, if_neg hle]
    exact ⟨b.clear, rfl, (Nat.sub_eq_zero_of_le (by omega)).symm, h.clear⟩

/-! ## One call -/

variable {rest : List UInt8}

/-- A field of bytes behind a length of `size` bytes. -/
theorem decodeFrom_delimited (h : tag < 2 ^ 61) {value : List UInt8} (hlen : value.length < 2 ^ 64)
    (hsize : varintSize value.length ≤ size) (hten : size ≤ 10) :
    f.decodeFrom (encodedTag tag .kLengthDelimited
        ++ (rawVarint size value.length ++ (value ++ rest)))
      = some (some (⟨tag, .kLengthDelimited, value.length, value⟩, rest)) := by
  rw [decodeFrom_tag h (by decide) rfl, decodeValue]
  dsimp only
  rw [decodeVarint_raw hlen hsize hten, Option.map_some, Option.map_some,
    min_eq_left (by rw [length_append]; omega), take_left, drop_left]

theorem decodeFrom_varint (h : tag < 2 ^ 61) (hvalue : value < 2 ^ 64) :
    f.decodeFrom (encodedTag tag .kVarint ++ (rawVarint (varintSize value) value ++ rest))
      = some (some (⟨tag, .kVarint, value, f.data⟩, rest)) := by
  rw [decodeFrom_tag h (by decide) rfl, decodeValue]
  rw [decodeVarint_raw hvalue le_rfl (varintSize_le_ten hvalue)]
  rfl

theorem decodeFrom_fixed64 (h : tag < 2 ^ 61) (hvalue : value < 2 ^ 64) :
    f.decodeFrom (encodedTag tag .k64Bit ++ (leBytes 8 value ++ rest))
      = some (some (⟨tag, .k64Bit, value, f.data⟩, rest)) := by
  rw [decodeFrom_tag h (by decide) rfl, decodeValue]
  rw [decode64Bit, decodeFixedLoop_le 7 0 value 0 rest rfl (by norm_num) hvalue]
  simp

theorem decodeFrom_fixed32 (h : tag < 2 ^ 61) (hvalue : value < 2 ^ 32) :
    f.decodeFrom (encodedTag tag .k32Bit ++ (leBytes 4 value ++ rest))
      = some (some (⟨tag, .k32Bit, value, f.data⟩, rest)) := by
  rw [decodeFrom_tag h (by decide) rfl, decodeValue]
  rw [decode32Bit, decodeFixedLoop_le 3 0 value 0 rest rfl (by norm_num) hvalue]
  simp

/-- The bytes that a call needs in a span of `size` bytes. -/
def Call.need (size : ℕ) : Call → ℕ
  | .varint tag value => (encodedTag tag .kVarint).length + varintSize value
  | .zigZag tag value => (encodedTag tag .kVarint).length + varintSize (LogProto.zigZag value)
  | .fixed64 tag _ => (encodedTag tag .k64Bit).length + 8
  | .fixed32 tag _ => (encodedTag tag .k32Bit).length + 4
  | .bytes tag value =>
    (encodedTag tag .kLengthDelimited).length + (varintSize value.length + value.length)
  | .bytesTruncate tag value =>
    (encodedTag tag .kLengthDelimited).length + varintSize (min value.length size)

/-- The bytes that a call takes beyond those that it needs, if they are there. -/
def Call.wish : Call → ℕ
  | .bytesTruncate _ value => value.length
  | _ => 0

/-- What a call does to the buffer, and how its field is decoded. -/
def Call.Encodes (c : Call) (b : Buf) (length : ℕ) (text : List UInt8) : Prop :=
  ∃ ok b', c.encode b = some (ok, b') ∧ ok = decide (c.need b.size ≤ b.size) ∧
    b'.size = b.size - (c.need b.size + c.wish) ∧
    ((ok = true ∧ ∃ bytes, bytes ≠ [] ∧ At b' length (text ++ bytes) ∧
        b'.size + bytes.length = b.size ∧ ∀ f₀ rest, ∃ f,
          ProtoField.decodeFrom f₀ (bytes ++ rest) = some (some (f, rest)) ∧
            c.Agrees (b'.size = 0) f) ∨
      (ok = false ∧ At b' length text ∧ b'.size = 0))

variable {c : Call}

theorem Call.Encodes.of_pieces (h : At b length text) {pieces : List (List UInt8)}
    (hcall : c.encode b = encodePieces (encodedTag tag type :: pieces) b)
    (hneed : c.need b.size ≤ b.size ↔ (encodedTag tag type ++ pieces.flatten).length ≤ b.size)
    (hleft : b.size - (c.need b.size + c.wish)
      = b.size - (encodedTag tag type ++ pieces.flatten).length) (hdec : ∀ f0 rest, ∃ f,
      decodeFrom f0 (encodedTag tag type ++ (pieces.flatten ++ rest)) = some (some (f, rest)) ∧
      c.Agrees ((encodedTag tag type ++ pieces.flatten).length = b.size) f) :
    c.Encodes b length text := by
  obtain ⟨b', heq, hsize, hat⟩ := h.encodePieces (encodedTag tag type :: pieces)
  rw [flatten_cons] at heq hsize hat
  refine ⟨_, b', hcall.trans heq, decide_eq_decide.2 hneed.symm, hsize.trans hleft.symm, ?_⟩
  by_cases hle : (encodedTag tag type ++ pieces.flatten).length ≤ b.size
  · rw [if_pos hle] at hat
    refine .inl ⟨decide_eq_true hle, _, ?_, hat, by omega, fun f0 rest => ?_⟩
    · exact fun hnil => encodedTag_ne_nil tag type (append_eq_nil_iff.1 hnil).1
    · obtain ⟨f, hf, hagrees⟩ := hdec f0 rest
      exact ⟨f, by rw [append_assoc]; exact hf, hagrees.mono fun heq => by omega⟩
  · rw [if_neg hle] at hat
    exact .inr ⟨decide_eq_false hle, hat, by omega⟩

/-- A call whose pieces are always the same takes what it needs. -/
theorem Call.Encodes.of_whole (h : At b length text) {pieces : List (List UInt8)}
    (hcall : c.encode b = encodePieces (encodedTag tag type :: pieces) b)
    (hneed : c.need b.size = (encodedTag tag type ++ pieces.flatten).length) (hwish : c.wish = 0)
    (hdec : ∀ f0 rest, ∃ f,
      decodeFrom f0 (encodedTag tag type ++ (pieces.flatten ++ rest)) = some (some (f, rest)) ∧
      c.Agrees ((encodedTag tag type ++ pieces.flatten).length = b.size) f) :
    c.Encodes b length text :=
  .of_pieces h hcall (by rw [hneed]) (by rw [hneed, hwish, add_zero]) hdec

/-- A value that is written whole, or cut to fill the buffer, is read as such. -/
theorem Call.decodes_bytesTruncate {value v : List UInt8} {size room : ℕ} (htag : tag < 2 ^ 61)
    (hvalue : value.length < 2 ^ 63) (hsize : varintSize (min value.length room) = size)
    (hle : v.length ≤ min value.length room)
    (hv : v = value ∨
      (encodedTag tag .kLengthDelimited).length + size + v.length = room ∧ v <+: value)
    (f0 : ProtoField) (rest : List UInt8) : ∃ f,
      decodeFrom f0 (encodedTag tag .kLengthDelimited
        ++ ([rawVarint size v.length, v].flatten ++ rest)) = some (some (f, rest)) ∧
      (Call.bytesTruncate tag value).Agrees ((encodedTag tag .kLengthDelimited
        ++ [rawVarint size v.length, v].flatten).length = room) f := by
  have hten : size ≤ 10 := by
    rw [← hsize]
    exact varintSize_le_ten (by omega)
  have hflat : [rawVarint size v.length, v].flatten = rawVarint size v.length ++ v := by simp
  have hmono := varintSize_mono hle
  rw [hflat, append_assoc]
  refine ⟨_, decodeFrom_delimited htag (by omega) (hsize ▸ hmono) hten, rfl, rfl, rfl, ?_⟩
  refine hv.imp_right fun hcut => ⟨?_, hcut.2⟩
  rw [length_append, length_append, length_rawVarint]
  omega

/-- A string is cut to what there is room for. -/
theorem Call.encodes_bytesTruncate {value : List UInt8} (htag : tag < 2 ^ 61)
    (hvalue : value.length < 2 ^ 63)
    (h : At b length text) : (Call.bytesTruncate tag value).Encodes b length text := by
  generalize hsize : varintSize (min value.length b.size) = size
  generalize htagSize : (encodedTag tag .kLengthDelimited).length = tagSize
  have hneed : (Call.bytesTruncate tag value).need b.size = tagSize + size := by
    rw [Call.need, htagSize, hsize]
  have htotal : ∀ v : List UInt8, (encodedTag tag .kLengthDelimited
      ++ [rawVarint size v.length, v].flatten).length = tagSize + size + v.length := by
    intro v
    simp only [flatten_cons, flatten_nil, append_nil, length_append, length_rawVarint]
    omega
  by_cases hcut : tagSize + size ≤ b.size ∧ tagSize + size + value.length > b.size
  · have hencode : (Call.bytesTruncate tag value).encode b
        = encodePieces [encodedTag tag .kLengthDelimited,
          rawVarint size (value.take (b.size - (tagSize + size))).length,
          value.take (b.size - (tagSize + size))] b := by
      rw [Call.encode, encodeBytesTruncate]
      rw [hsize, htagSize, if_pos hcut, removeSuffix, if_pos (by omega), Option.bind_some,
        show value.length - (tagSize + size + value.length - b.size) = b.size - (tagSize + size) by
          omega]
    have hlen : (value.take (b.size - (tagSize + size))).length = b.size - (tagSize + size) := by
      rw [length_take]
      omega
    have htaken := htotal (value.take (b.size - (tagSize + size)))
    refine Call.Encodes.of_pieces h hencode ?_ ?_
      (Call.decodes_bytesTruncate htag hvalue hsize (by rw [hlen]; omega)
        (.inr ⟨by rw [htagSize, hlen]; omega, take_prefix _ _⟩))
    · rw [hneed, htaken]
      omega
    · rw [hneed, htaken, Call.wish]
      omega
  · have hencode : (Call.bytesTruncate tag value).encode b
        = encodePieces [encodedTag tag .kLengthDelimited, rawVarint size value.length, value]
          b := by
      rw [Call.encode, encodeBytesTruncate]
      rw [hsize, htagSize, if_neg hcut, Option.bind_some]
    by_cases hroom : value.length ≤ b.size
    · refine Call.Encodes.of_pieces h hencode ?_ ?_
        (Call.decodes_bytesTruncate htag hvalue hsize (by omega) (.inl rfl))
      · rw [hneed, htotal]
        omega
      · rw [hneed, htotal]
        rfl
    · -- no room even for the tag and the length
      refine ⟨false, b.clear, ?_, (decide_eq_false ?_).symm, ?_, .inr ⟨rfl, h.clear, rfl⟩⟩
      · rw [hencode, encodePieces, if_pos]
        simp only [map_cons, sum_cons]
        omega
      · rw [hneed]
        omega
      · rw [hneed, Call.wish]
        exact (Nat.sub_eq_zero_of_le (by omega)).symm

theorem Call.encode_spec (hc : c.Valid) (h : At b length text) : c.Encodes b length text := by
  cases c with
  | varint tag value =>
    refine .of_whole h rfl (by simp [Call.need]) rfl fun f0 rest =>
      ⟨⟨tag, .kVarint, value, f0.data⟩, ?_, rfl, rfl, rfl⟩
    rw [flatten_cons, flatten_nil, append_nil]
    exact decodeFrom_varint hc.1 hc.2
  | zigZag tag value =>
    refine .of_whole h rfl (by simp [Call.need]) rfl fun f0 rest =>
      ⟨⟨tag, .kVarint, LogProto.zigZag value, f0.data⟩, ?_, rfl, rfl,
        sint64Value_zigZag hc.2.1 hc.2.2 rfl⟩
    rw [flatten_cons, flatten_nil, append_nil]
    refine decodeFrom_varint hc.1 ?_
    rw [LogProto.zigZag]
    split_ifs <;> exact mod_lt _ (by norm_num)
  | fixed64 tag value =>
    refine .of_whole h rfl (by simp [Call.need, leBytes]) rfl fun f0 rest =>
      ⟨⟨tag, .k64Bit, value, f0.data⟩, ?_, rfl, rfl, rfl⟩
    rw [flatten_cons]
    exact decodeFrom_fixed64 hc.1 hc.2
  | fixed32 tag value =>
    refine .of_whole h rfl (by simp [Call.need, leBytes]) rfl fun f0 rest =>
      ⟨⟨tag, .k32Bit, value, f0.data⟩, ?_, rfl, rfl, rfl⟩
    rw [flatten_cons]
    exact decodeFrom_fixed32 hc.1 hc.2
  | bytes tag value =>
    have hlen : value.length < 2 ^ 64 := hc.2.trans (by norm_num)
    refine .of_whole h rfl (by simp [Call.need]) rfl fun f0 rest =>
      ⟨⟨tag, .kLengthDelimited, value.length, value⟩, ?_, rfl, rfl, rfl, rfl⟩
    rw [flatten_cons, flatten_cons, flatten_nil, append_nil, append_assoc]
    exact decodeFrom_delimited hc.1 hlen le_rfl (varintSize_le_ten hlen)
  | bytesTruncate tag value => exact Call.encodes_bytesTruncate hc.1 hc.2 h

/-! ## Sequences of calls -/

/-- The content of each message is no longer than its `maxSize`. -/
def Calls.Within : Calls → Buf → Prop
  | .nil, _ => True
  | .call c rest, b => ∀ ok b', c.encode b = some (ok, b') → rest.Within b'
  | .message tag maxSize body rest, b =>
    ∀ msg b₁, encodeMessageStart tag maxSize b = some (msg, b₁) → body.Within b₁ ∧
      ∀ oks b₂, body.run b₁ = some (oks, b₂) → b₂.data - b₁.data ≤ maxSize ∧
        ∀ b₃, encodeMessageLength msg b₂ = some b₃ → rest.Within b₃

/-- What the calls return in a span of `size` bytes, and how many bytes are left then : a call
succeeds exactly if what it needs is there. -/
def Calls.fitting : Calls → ℕ → List Bool × ℕ
  | .nil, size => ([], size)
  | .call c rest, size =>
    let r := rest.fitting (size - (c.need size + c.wish))
    (decide (c.need size ≤ size) :: r.1, r.2)
  | .message tag maxSize body rest, size =>
    let need := (encodedTag tag .kLengthDelimited).length + varintSize (min maxSize size)
    let r := body.fitting (size - need)
    let r' := rest.fitting r.2
    (decide (need ≤ size) :: (r.1 ++ r'.1), r'.2)

/-- What a sequence of calls did : the first `n` of them appended their fields. -/
structure Calls.Ran (calls : Calls) (b : Buf) (length : ℕ) (text : List UInt8) (oks : List Bool)
    (b' : Buf) (bytes : List UInt8) (n : ℕ) : Prop where
  run : calls.run b = some (oks, b')
  text : At b' length (text ++ bytes)
  fitting : calls.fitting b.size = (oks, b'.size)
  size : b'.size + bytes.length ≤ b.size
  le_count : n ≤ calls.count
  oks_eq : oks = replicate n true ++ replicate (calls.count - n) false
  stopped : n < calls.count → b'.size = 0
  empty : b.size = 0 → n = 0 ∧ bytes = []
  decoded : ∀ f₀, ∃ fields, decodeFields (bytes.length + 1) f₀ bytes = some fields ∧
    calls.Decoded n (b'.size = 0) fields

theorem decodeFields_mono : ∀ {k m : ℕ} {f : ProtoField} {data : List UInt8}
    {fields : List ProtoField}, k ≤ m → decodeFields k f data = some fields →
    decodeFields m f data = some fields
  | k + 1, m + 1, f, data, fields, hle, h => by
    rw [decodeFields] at h ⊢
    rcases hdec : f.decodeFrom data with _ | _ | ⟨f', data'⟩
    · rwa [hdec] at h
    · rwa [hdec] at h
    · rw [hdec] at h
      dsimp only at h ⊢
      obtain ⟨fs, hfs, rfl⟩ := Option.map_eq_some_iff.1 h
      rw [decodeFields_mono (le_of_succ_le_succ hle) hfs]
      rfl

theorem decodeFields_nil (f : ProtoField) : decodeFields 1 f [] = some [] := rfl

/-- One field, and those behind it. -/
theorem decodeFields_append {f0 : ProtoField} {bytes rest : List UInt8} (hne : bytes ≠ [])
    (hdec : f0.decodeFrom (bytes ++ rest) = some (some (f, rest))) {fs : List ProtoField}
    (hfs : decodeFields (rest.length + 1) f rest = some fs) :
    decodeFields ((bytes ++ rest).length + 1) f0 (bytes ++ rest) = some (f :: fs) := by
  have hpos := length_pos_iff.2 hne
  rw [decodeFields, hdec]
  dsimp only
  rw [decodeFields_mono (by rw [length_append]; omega) hfs]
  rfl

theorem Calls.decoded_zero {calls : Calls} {cut : Prop} {fields : List ProtoField} :
    calls.Decoded 0 cut fields ↔ fields = [] := by
  cases calls <;> exact Iff.rfl

/-- Nothing is appended to an empty span. -/
theorem Calls.Ran.of_empty {calls : Calls} {b' : Buf}
    (hrun : calls.run b = some (replicate calls.count false, b')) (h : At b' length text)
    (hfitting : calls.fitting b.size = (replicate calls.count false, b'.size))
    (hsize : b'.size = 0) : calls.Ran b length text (replicate calls.count false) b' [] 0 where
  run := hrun
  text := by rwa [append_nil]
  fitting := hfitting
  size := by rw [hsize]; exact zero_le _
  le_count := zero_le _
  oks_eq := rfl
  stopped := fun _ => hsize
  empty := fun _ => ⟨rfl, rfl⟩
  decoded := fun f0 => ⟨[], decodeFields_nil f0, Calls.decoded_zero.2 rfl⟩

theorem Calls.ran_call {rest : Calls} (hc : c.Encodes b length text)
    (ih : ∀ {ok b' text'}, c.encode b = some (ok, b') → At b' length text' →
      ∃ oks b'' bytes n, rest.Ran b' length text' oks b'' bytes n) :
    ∃ oks b' bytes n, (Calls.call c rest).Ran b length text oks b' bytes n := by
  obtain ⟨ok, b1, hcall, hok, hleft, hfield⟩ := hc
  have hrun : ∀ {oks b2}, rest.run b1 = some (oks, b2) →
      (Calls.call c rest).run b = some (ok :: oks, b2) := by
    intro oks b2 hrest
    rw [Calls.run, hcall]
    change (rest.run b1 >>= _) = _
    rw [hrest]
    rfl
  have hfitting : ∀ {r}, rest.fitting b1.size = r →
      (Calls.call c rest).fitting b.size = (ok :: r.1, r.2) := by
    intro r hrest
    rw [Calls.fitting, ← hleft, hrest, hok]
  rcases hfield with ⟨rfl, bytes, hne, hat, hsize, hdec⟩ | ⟨rfl, hat, hsize⟩
  · obtain ⟨oks, b2, bytes2, n, hran⟩ := ih hcall hat
    have hpos := length_pos_iff.2 hne
    have hle := hran.size
    refine ⟨true :: oks, b2, bytes ++ bytes2, n + 1, hrun hran.run, ?_, hfitting hran.fitting, ?_,
      succ_le_succ hran.le_count, ?_, fun hlt => hran.stopped (lt_of_succ_lt_succ hlt), ?_, ?_⟩
    · rw [← append_assoc]
      exact hran.text
    · rw [length_append]
      omega
    · rw [hran.oks_eq, Calls.count, Nat.add_sub_add_right]
      rfl
    · intro h0
      omega
    · intro f0
      obtain ⟨f, hf, hagrees⟩ := hdec f0 bytes2
      obtain ⟨fs, hfs, hdecoded⟩ := hran.decoded f
      refine ⟨f :: fs, decodeFields_append hne hf hfs, f, fs, rfl, ?_, hdecoded⟩
      exact hagrees.mono fun h0 => ⟨by omega, (hran.empty h0).1⟩
  · obtain ⟨oks, b2, bytes2, n, hran⟩ := ih hcall hat
    obtain ⟨rfl, rfl⟩ := hran.empty hsize
    obtain rfl : oks = replicate rest.count false := hran.oks_eq
    have hat2 := hran.text
    rw [append_nil] at hat2
    have hle := hran.size
    exact ⟨_, b2, [], 0, .of_empty (hrun hran.run) hat2 (hfitting hran.fitting) (by omega)⟩

/-- A message starts with its tag and a length of zero, or there is no room. -/
theorem encodeMessageStart_spec (h : At b length text) (tag maxSize : ℕ) {header : List UInt8}
    (hheader : encodedTag tag .kLengthDelimited = header)
    (hsize : varintSize (min maxSize b.size) = size) :
    (encodeMessageStart tag maxSize b = some (none, b.clear) ∧ b.size < header.length + size) ∨
      ∃ b1, encodeMessageStart tag maxSize b = some (some (text.length + header.length, size), b1) ∧
        At b1 length (text ++ header ++ rawVarint size 0) ∧
        b1.size + (header.length + size) = b.size := by
  rw [encodeMessageStart, hheader, hsize]
  split_ifs with hgt
  · exact .inl ⟨rfl, hgt⟩
  have hle1 : header.length ≤ b.size := by omega
  obtain ⟨b1, hwrite1, h1, hsize1⟩ := h.write hle1
  have hle2 : (rawVarint size 0).length ≤ b1.size := by
    rw [length_rawVarint]
    omega
  obtain ⟨b2, hwrite2, h2, hsize2⟩ := h1.write hle2
  rw [length_rawVarint] at hsize2
  refine .inr ⟨b2, ?_, h2, by omega⟩
  rw [hwrite1]
  change (b1.write (rawVarint size 0) >>= _) = _
  rw [hwrite2, ← length_append, ← h1.data_eq]
  rfl

/-- The length of the content is written over the zero. -/
theorem encodeMessageLength_spec {front content : List UInt8}
    (h : At b length (front ++ rawVarint size 0 ++ content)) (hlt : content.length < 2 ^ 64) :
    ∃ b', encodeMessageLength (some (front.length, size)) b = some b' ∧ b'.size = b.size ∧
      At b' length (front ++ rawVarint size content.length ++ content) := by
  obtain ⟨tail, htail⟩ := h.text_eq
  have hdata := h.data_eq
  have hfits := h.fits
  simp only [length_append, length_rawVarint] at hdata
  have hvalue : (((b.data : ℤ) - (front.length + size : ℕ)) % 2 ^ 64).toNat = content.length := by
    omega
  have hmem : b.mem = front ++ (rawVarint size 0 ++ (content ++ tail)) := by
    rw [← htail]
    simp only [append_assoc]
  have hput : put b.mem front.length (rawVarint size content.length)
      = some (front ++ rawVarint size content.length ++ (content ++ tail)) := by
    rw [put, if_pos (by rw [length_rawVarint]; omega), length_rawVarint, hmem, take_left]
    congr 2
    rw [← append_assoc]
    exact drop_left' (by rw [length_append, length_rawVarint])
  refine ⟨{ b with mem := front ++ rawVarint size content.length ++ (content ++ tail) }, ?_, rfl,
    ?_⟩
  · rw [encodeMessageLength, if_neg (by omega), hvalue, hput]
    rfl
  have hlen : (front ++ rawVarint size content.length ++ (content ++ tail)).length
      = b.mem.length := by
    rw [hmem]
    simp only [length_append, length_rawVarint]
    omega
  refine ⟨hlen.trans h.length_eq, ⟨tail, by simp only [append_assoc]⟩, ?_, ?_⟩
  · simp only [length_append, length_rawVarint]
    exact hdata
  · rwa [hlen]

theorem Calls.run_message {maxSize : ℕ} {body rest : Calls} {msg : Option (ℕ × ℕ)}
    {b1 b2 b3 b4 : Buf} {oks oks' : List Bool}
    (hstart : encodeMessageStart tag maxSize b = some (msg, b1))
    (hbody : body.run b1 = some (oks, b2)) (hlen : encodeMessageLength msg b2 = some b3)
    (hrest : rest.run b3 = some (oks', b4)) :
    (Calls.message tag maxSize body rest).run b = some (msg.isSome :: (oks ++ oks'), b4) := by
  rw [Calls.run, hstart]
  change (body.run b1 >>= _) = _
  rw [hbody]
  change (encodeMessageLength _ b2 >>= _) = _
  rw [hlen]
  change (rest.run b3 >>= _) = _
  rw [hrest]
  rfl

/-- What the calls in a message return, and those behind it. -/
theorem Calls.fitting_message {maxSize left k : ℕ} {body rest : Calls} {oks : List Bool}
    {r : List Bool × ℕ} (hsize : varintSize (min maxSize b.size) = size)
    (hleft : left = b.size - ((encodedTag tag .kLengthDelimited).length + size))
    (hbody : body.fitting left = (oks, k)) (hrest : rest.fitting k = r) :
    (Calls.message tag maxSize body rest).fitting b.size
      = (decide ((encodedTag tag .kLengthDelimited).length + size ≤ b.size) :: (oks ++ r.1),
        r.2) := by
  rw [Calls.fitting, hsize, ← hleft, hbody, hrest]

/-- If the calls in a message did not all succeed, none behind it did. -/
theorem replicate_message {k m n n' : ℕ} (hn' : n' ≤ m) (hsplit : n = k ∨ n ≤ k ∧ n' = 0) :
    true :: (replicate n true ++ replicate (k - n) false
        ++ (replicate n' true ++ replicate (m - n') false))
      = replicate (n + n' + 1) true ++ replicate (k + m + 1 - (n + n' + 1)) false := by
  rcases hsplit with rfl | ⟨hn, rfl⟩
  · rw [Nat.sub_self, show n + m + 1 - (n + n' + 1) = m - n' by omega, replicate_zero, append_nil,
      replicate_succ, cons_append, ← append_assoc, replicate_append_replicate]
  · rw [show k + m + 1 - (n + 0 + 1) = k - n + m by omega]
    simp [replicate_succ]

/-- The message does not start, and nothing in it or behind it is written. -/
theorem Calls.ran_message_none {maxSize : ℕ} {body rest : Calls} (h : At b length text)
    (hstart : encodeMessageStart tag maxSize b = some (none, b.clear))
    (hsize : varintSize (min maxSize b.size) = size)
    (hgt : b.size < (encodedTag tag .kLengthDelimited).length + size)
    (ihBody : ∀ {text'}, At b.clear length text' →
      ∃ oks b2 bytes n, body.Ran b.clear length text' oks b2 bytes n)
    (ihRest : ∀ {oks b2 text'}, body.run b.clear = some (oks, b2) → At b2 length text' →
      ∃ oks b3 bytes n, rest.Ran b2 length text' oks b3 bytes n) :
    ∃ oks b' bytes n, (Calls.message tag maxSize body rest).Ran b length text oks b' bytes n := by
  obtain ⟨oks, b2, bytes, n, hran⟩ := ihBody h.clear
  obtain ⟨rfl, rfl⟩ := hran.empty rfl
  obtain rfl : oks = replicate body.count false := hran.oks_eq
  have hat2 := hran.text
  rw [append_nil] at hat2
  have hle2 : b2.size ≤ 0 := (le_add_right _ _).trans hran.size
  obtain ⟨oks', b3, bytes', n', hran'⟩ := ihRest hran.run hat2
  obtain ⟨rfl, rfl⟩ := hran'.empty (by omega)
  obtain rfl : oks' = replicate rest.count false := hran'.oks_eq
  have hat3 := hran'.text
  rw [append_nil] at hat3
  have hle3 := hran'.size
  have hoks : false :: (replicate body.count false ++ replicate rest.count false)
      = replicate (Calls.message tag maxSize body rest).count false := by
    rw [replicate_append_replicate, ← replicate_succ, Calls.count]
  have hleft : b.clear.size = b.size - ((encodedTag tag .kLengthDelimited).length + size) :=
    (Nat.sub_eq_zero_of_le hgt.le).symm
  refine ⟨_, b3, [], 0, .of_empty ?_ hat3 ?_ (by omega)⟩
  · rw [← hoks]
    exact Calls.run_message hstart hran.run rfl hran'.run
  · rw [Calls.fitting_message hsize hleft hran.fitting hran'.fitting, ← hoks,
      decide_eq_false (by omega)]

/-- A message with its length and its content is decoded, and the fields behind it are. -/
theorem Calls.decoded_message {maxSize n n' : ℕ} {body rest : Calls} {bytes bytes' : List UInt8}
    {cut cut' : Prop} (htag : tag < 2 ^ 61) (hlt : bytes.length < 2 ^ 64)
    (hwidth : varintSize bytes.length ≤ size) (hten : size ≤ 10) (hn : n ≤ body.count)
    (hsplit : n = body.count ∨ n' = 0) (hcut : cut → cut' ∧ n' = 0)
    (hbody : ∀ f₀, ∃ fields, decodeFields (bytes.length + 1) f₀ bytes = some fields ∧
      body.Decoded n cut fields)
    (hrest : ∀ f₀, ∃ fields, decodeFields (bytes'.length + 1) f₀ bytes' = some fields ∧
      rest.Decoded n' cut' fields) (f₀ : ProtoField) :
    ∃ fields, decodeFields ((encodedTag tag .kLengthDelimited ++ rawVarint size bytes.length
          ++ bytes ++ bytes').length + 1) f₀ (encodedTag tag .kLengthDelimited
          ++ rawVarint size bytes.length ++ bytes ++ bytes') = some fields ∧
      (Calls.message tag maxSize body rest).Decoded (n + n' + 1) cut' fields := by
  have hdec := @decodeFrom_delimited _ _ f₀ bytes' htag _ hlt hwidth hten
  rw [← append_assoc, ← append_assoc] at hdec
  have hne : encodedTag tag .kLengthDelimited ++ rawVarint size bytes.length ++ bytes ≠ [] := by
    rw [append_assoc]
    exact fun hnil => encodedTag_ne_nil _ _ (append_eq_nil_iff.1 hnil).1
  obtain ⟨fs, hfs, hdecoded⟩ := hrest ⟨tag, .kLengthDelimited, bytes.length, bytes⟩
  refine ⟨_, decodeFields_append hne hdec hfs, _, fs, rfl, rfl, rfl, rfl, fun f₁ => ?_, ?_⟩
  · obtain ⟨inner, hinner, hdecBody⟩ := hbody f₁
    refine ⟨inner, hinner, ?_⟩
    rw [show min (n + n') body.count = n by omega]
    exact hdecBody.mono fun h0 => ⟨(hcut h0).1, by have := (hcut h0).2; omega⟩
  · rwa [show n + n' - body.count = n' by omega]

theorem Calls.ran_message {maxSize : ℕ} {body rest : Calls} (htag : tag < 2 ^ 61)
    (hlength : length < 2 ^ 63) (h : At b length text)
    (hwithin : (Calls.message tag maxSize body rest).Within b)
    (ihBody : ∀ {b1 text1}, body.Within b1 → At b1 length text1 →
      ∃ oks b2 bytes n, body.Ran b1 length text1 oks b2 bytes n)
    (ihRest : ∀ {b1 text1}, rest.Within b1 → At b1 length text1 →
      ∃ oks b2 bytes n, rest.Ran b1 length text1 oks b2 bytes n) :
    ∃ oks b' bytes n, (Calls.message tag maxSize body rest).Ran b length text oks b' bytes n := by
  generalize hsize : varintSize (min maxSize b.size) = size
  have hfits := h.fits
  rw [h.length_eq] at hfits
  rcases encodeMessageStart_spec h tag maxSize rfl hsize with
    ⟨hstart, hgt⟩ | ⟨b1, hstart, h1, hsize1⟩
  · obtain ⟨hbody, hrest⟩ := hwithin _ _ hstart
    exact Calls.ran_message_none h hstart hsize hgt (ihBody hbody)
      fun hrun => ihRest ((hrest _ _ hrun).2 _ rfl)
  obtain ⟨hbody, hrest⟩ := hwithin _ _ hstart
  obtain ⟨oks, b2, bytes, n, hran⟩ := ihBody hbody h1
  obtain ⟨hmax, hrest⟩ := hrest _ _ hran.run
  have hle2 := hran.size
  have hcontent : bytes.length ≤ min maxSize b.size := by
    have hd1 := h1.data_eq
    have hd2 := hran.text.data_eq
    rw [length_append] at hd2
    omega
  have hten : size ≤ 10 := by
    rw [← hsize]
    exact varintSize_le_ten (by omega)
  have hwidth : varintSize bytes.length ≤ size := hsize ▸ varintSize_mono hcontent
  rw [← length_append] at hstart hrest
  obtain ⟨b3, hlen, hsize3, h3⟩ := encodeMessageLength_spec hran.text (by omega)
  obtain ⟨oks', b4, bytes', n', hran'⟩ := ihRest (hrest b3 hlen) h3
  have hle4 := hran'.size
  have hcut : b2.size = 0 → n' = 0 := fun h0 => (hran'.empty (by omega)).1
  have hn := hran.le_count
  have hn' := hran'.le_count
  have hsplit : n = body.count ∨ n' = 0 := by
    rcases lt_or_ge n body.count with hlt | hge
    · exact .inr (hcut (hran.stopped hlt))
    · exact .inl (le_antisymm hn hge)
  refine ⟨true :: (oks ++ oks'), b4,
    encodedTag tag .kLengthDelimited ++ rawVarint size bytes.length ++ bytes ++ bytes', n + n' + 1,
    Calls.run_message hstart hran.run hlen hran'.run, ?_, ?_, ?_, ?_, ?_, ?_, ?_,
    Calls.decoded_message htag (by omega) hwidth hten hn hsplit
      (fun h0 => ⟨by omega, hcut h0⟩) hran.decoded hran'.decoded⟩
  · have := hran'.text
    simpa only [append_assoc] using this
  · rw [Calls.fitting_message hsize (by omega) hran.fitting (hsize3 ▸ hran'.fitting),
      decide_eq_true (by omega)]
  · simp only [length_append, length_rawVarint]
    omega
  · rw [Calls.count]
    omega
  · rw [hran.oks_eq, hran'.oks_eq, Calls.count]
    exact replicate_message hn' (hsplit.imp_right fun h0 => ⟨hn, h0⟩)
  · intro hlt
    rw [Calls.count] at hlt
    rcases lt_or_ge n body.count with hlt' | hge
    · have := hran.stopped hlt'
      omega
    · exact hran'.stopped (by omega)
  · intro h0
    have := varintSize_pos (min maxSize b.size)
    omega

theorem Calls.run_spec : ∀ {calls : Calls} {b : Buf} {length : ℕ} {text : List UInt8},
    calls.Valid → length < 2 ^ 63 → calls.Within b → At b length text →
    ∃ oks b' bytes n, calls.Ran b length text oks b' bytes n
  | .nil, b, length, text, _, _, _, h => by
    refine ⟨[], b, [], 0, rfl, by rwa [append_nil], rfl, le_rfl, le_rfl, rfl, ?_, ?_, ?_⟩
    · exact fun hlt => absurd hlt (lt_irrefl 0)
    · exact fun _ => ⟨rfl, rfl⟩
    · exact fun f0 => ⟨[], decodeFields_nil f0, rfl⟩
  | .call c rest, b, length, text, hvalid, hlength, hwithin, h =>
    Calls.ran_call (Call.encode_spec hvalid.1 h) fun hcall h' =>
      Calls.run_spec hvalid.2 hlength (hwithin _ _ hcall) h'
  | .message tag maxSize body rest, b, length, text, hvalid, hlength, hwithin, h =>
    Calls.ran_message hvalid.1 hlength h hwithin
      (fun hbody h' => Calls.run_spec hvalid.2.1 hlength hbody h')
      (fun hrest h' => Calls.run_spec hvalid.2.2 hlength hrest h')

/-- The calls do not write outside of the buffer. The first `n` of them succeed and the others fail,
a call fails only if what it needs does not fit, and what is decoded from the bytes written is the
fields of those `n` : only if no room is left may the last of them be cut. -/
theorem encode_decode (mem : List UInt8) (hmem : mem.length < 2 ^ 63) (calls : Calls)
    (hvalid : calls.Valid) (hwithin : calls.Within ⟨mem, 0, mem.length⟩) :
    ∃ oks b n, calls.run ⟨mem, 0, mem.length⟩ = some (oks, b) ∧ b.mem.length = mem.length ∧
      n ≤ calls.count ∧
      oks = replicate n true ++ replicate (calls.count - n) false ∧
      oks = (calls.fitting mem.length).1 ∧
      ∀ f₀, ∃ fields, decodeFields (b.data + 1) f₀ (b.mem.take b.data) = some fields ∧
        calls.Decoded n (b.size = 0) fields := by
  have hat : At ⟨mem, 0, mem.length⟩ mem.length [] :=
    ⟨rfl, nil_prefix, rfl, by rw [zero_add]⟩
  obtain ⟨oks, b, bytes, n, hran⟩ := Calls.run_spec hvalid hmem hwithin hat
  refine ⟨oks, b, n, hran.run, hran.text.length_eq, hran.le_count, hran.oks_eq,
    (congrArg Prod.fst hran.fitting).symm, fun f₀ => ?_⟩
  obtain ⟨tail, htail⟩ := hran.text.text_eq
  have hdata := hran.text.data_eq
  rw [hdata, ← htail, take_left]
  exact hran.decoded f₀

/-- A message of a varint and of a string that is cut, with a call behind it that fails. -/
def cutMessage : Calls :=
  .message 1 10 (.call (.varint 3 300) (.call (.bytesTruncate 2 [1, 2, 3, 4, 5, 6, 7, 8]) .nil))
    (.call (.zigZag 2 (-3)) .nil)

theorem within_cutMessage : cutMessage.Within ⟨replicate 12 0, 0, 12⟩ := by
  have hstart : encodeMessageStart 1 10 ⟨replicate 12 0, 0, 12⟩
      = some (some (1, 1), ⟨10 :: replicate 11 0, 2, 10⟩) := by decide +kernel
  have hbody : (Calls.call (.varint 3 300)
      (.call (.bytesTruncate 2 [1, 2, 3, 4, 5, 6, 7, 8]) .nil)).run ⟨10 :: replicate 11 0, 2, 10⟩
      = some ([true, true], ⟨[10, 0, 24, 172, 2, 18, 5, 1, 2, 3, 4, 5], 12, 0⟩) := by
    decide +kernel
  intro msg b₁ h
  rw [hstart] at h
  cases h
  refine ⟨fun _ _ _ _ _ _ => trivial, fun oks b₂ h => ?_⟩
  rw [hbody] at h
  cases h
  exact ⟨by norm_num, fun _ _ _ _ _ => trivial⟩

/-- The bytes that do not fit are missing at the end of the string. -/
theorem encode_decode_cutMessage : ∃ b n,
    cutMessage.run ⟨replicate 12 0, 0, 12⟩ = some ([true, true, true, false], b) ∧ n = 3 ∧
      ∀ f₀, ∃ fields, decodeFields (b.data + 1) f₀ (b.mem.take b.data) = some fields ∧
        cutMessage.Decoded n (b.size = 0) fields := by
  have hvalid : cutMessage.Valid := by simp [cutMessage, Calls.Valid, Call.Valid]
  obtain ⟨oks, b, n, hrun, -, hn, hoks, hfitting, hdecoded⟩ :=
    encode_decode (replicate 12 0) (by norm_num) cutMessage hvalid within_cutMessage
  have hresults : (cutMessage.fitting 12).1 = [true, true, true, false] := by decide +kernel
  obtain rfl : oks = [true, true, true, false] := hfitting.trans hresults
  refine ⟨b, n, hrun, ?_, hdecoded⟩
  have hcount := congrArg (count true) hoks
  simpa [count_replicate] using hcount.symm

end Abseil.LogProto
