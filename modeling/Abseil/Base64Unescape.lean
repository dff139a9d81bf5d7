import Abseil.Base64
import Abseil.Regroup

/-!
# The language of base64

The data of a text are the six-bit values of its alphabet characters (`sextets`), and
decoding regroups them into bytes, wherever the whitespace is. A text is a body of
alphabet characters and whitespace and then a tail of whitespace and pads.

The decoder holds the values it has read : the full groups of four in `dest` and the rest in the
low bits of `temp`, whose other bits may be left from a group that was given up
(`Holds`). Each of its loops consumes a body and keeps that. `unescape_correct` says what
the decoder accepts and returns.
-/

namespace Abseil

open List Nat Or Positional Decoder
open BitVec (toNat_or ofInt toNat_ofNat)

/-- The two forms of base64. -/
inductive Base64Kind
  | base64 | webSafe
  deriving DecidableEq, Repr

namespace Base64Kind

/-- The alphabet. -/
def chars : Base64Kind → List UInt8
  | base64 => kBase64Chars
  | webSafe => kWebSafeBase64Chars

/-- The table of the decoder. -/
def unbase64 : Base64Kind → List ℤ
  | base64 => kUnBase64
  | webSafe => kUnWebSafeBase64

/-- `Base64Unescape` or `WebSafeBase64Unescape`. -/
def unescape : Base64Kind → List UInt8 → Option (Bool × List UInt8)
  | base64 => base64Unescape
  | webSafe => webSafeBase64Unescape

/-- The six-bit values of the alphabet characters. -/
def sextets (k : Base64Kind) (text : List UInt8) : List ℕ :=
  (text.filter (· ∈ k.chars)).map fun c => k.chars.idxOf c

/-- Alphabet characters and whitespace. -/
def Body (k : Base64Kind) (text : List UInt8) : Prop := ∀ c ∈ text, c ∈ k.chars ∨ IsSpace c

/-- Whitespace and pads. -/
def Tail (text : List UInt8) : Prop := ∀ c ∈ text, IsSpace c ∨ isPad c = true

/-- `text` is base64 : a body without six bits left over, then a tail with no pads or
as many as complete the last group. -/
def Accepts (k : Base64Kind) (text : List UInt8) : Prop :=
  ∃ body tail, text = body ++ tail ∧ k.Body body ∧ Tail tail ∧
    (k.sextets body).length % 4 ≠ 1 ∧
    (tail.countP isPad = 0 ∨ tail.countP isPad = (4 - (k.sextets body).length % 4) % 4)

/-- The bytes that the values make up. -/
def bytes (vs : List ℕ) : List UInt8 := (regroup 6 8 vs).map UInt8.ofNat

/-! ## The alphabet -/

theorem length_chars (k : Base64Kind) : k.chars.length = 64 := by cases k <;> rfl

theorem idxOf_lt {k : Base64Kind} {c : UInt8} (h : c ∈ k.chars) : k.chars.idxOf c < 64 := by
  rw [← k.length_chars]
  exact idxOf_lt_length_of_mem h

/-- The tables are the inverse of the alphabets. -/
theorem unbase64Value_eq (k : Base64Kind) (c : UInt8) :
    unbase64Value k.unbase64 c = if c ∈ k.chars then (k.chars.idxOf c : ℤ) else -1 := by
  have table : ∀ n < 256, k.unbase64.getD n (-1) =
      if UInt8.ofNat n ∈ k.chars then (k.chars.idxOf (UInt8.ofNat n) : ℤ) else -1 := by
    cases k <;> decide +kernel
  have h := table c.toNat c.toNat_lt
  rwa [UInt8.ofNat_toNat] at h

theorem not_space_pad (k : Base64Kind) {c : UInt8} (h : c ∈ k.chars) :
    asciiIsSpace c = false ∧ isPad c = false := by
  have table : ∀ c ∈ k.chars, asciiIsSpace c = false ∧ isPad c = false := by
    cases k <;> decide +kernel
  exact table c h

end Base64Kind

open Base64Kind

theorem not_space_of_pad {c : UInt8} (h : isPad c = true) : asciiIsSpace c = false := by
  simp only [isPad, decide_eq_true_eq] at h
  rcases h with rfl | rfl <;> decide

namespace Base64Kind

variable {k : Base64Kind}

theorem sextets_append (k : Base64Kind) (s t : List UInt8) :
    k.sextets (s ++ t) = k.sextets s ++ k.sextets t := by
  simp [sextets]

variable {c : UInt8}

theorem sextets_cons_of_mem (h : c ∈ k.chars) (s : List UInt8) :
    k.sextets (c :: s) = k.chars.idxOf c :: k.sextets s := by
  simp [sextets, h]

theorem sextets_cons_of_not_mem (h : c ∉ k.chars) (s : List UInt8) :
    k.sextets (c :: s) = k.sextets s := by
  simp [sextets, h]

theorem sextets_lt {v : ℕ} {s : List UInt8} (h : v ∈ k.sextets s) : v < 64 := by
  obtain ⟨c, hc, rfl⟩ := mem_map.mp h
  exact idxOf_lt (of_decide_eq_true (mem_filter.mp hc).2)

theorem length_sextets_le (s : List UInt8) : (k.sextets s).length ≤ s.length := by
  rw [sextets, length_map]
  exact length_filter_le _ s

theorem Body.append {s t : List UInt8} (hs : k.Body s) (ht : k.Body t) : k.Body (s ++ t) :=
  fun c hc => (mem_append.mp hc).elim (hs c) (ht c)

theorem body_singleton (h : c ∈ k.chars ∨ IsSpace c) : k.Body [c] := fun d hd => by
  rwa [mem_singleton.mp hd]

end Base64Kind

/-! ## Values in the low bits -/

/-- The low bits of `temp` are the values `part`. -/
def LowBits (temp : BitVec 32) (part : List ℕ) : Prop :=
  temp.toNat % 64 ^ part.length = readDigits 64 0 part

theorem LowBits.nil (temp : BitVec 32) : LowBits temp [] := mod_one _

variable {s : Decoder} {v : ℕ}

theorem toNat_sextet (hs : s.decode = v) (hv : v < 64) : s.sextet.toNat = v := by
  rw [sextet, BitVec.toNat_setWidth, BitVec.toNat_ofInt]
  omega

theorem toNat_shiftIn (hs : s.decode = v) (hv : v < 64) :
    s.shiftIn.temp.toNat = s.temp.toNat % 2 ^ 26 * 64 + v := by
  have hshift : (s.temp <<< 6).toNat = 2 ^ 6 * (s.temp.toNat % 2 ^ 26) := by
    rw [BitVec.toNat_shiftLeft]
    omega
  rw [shiftIn, toNat_or, hshift, toNat_sextet hs hv, ← two_pow_add_eq_or_of_lt hv]
  ring

variable {part : List ℕ}

/-- One more value is shifted in. -/
theorem LowBits.push (h : LowBits s.temp part) (hlen : part.length < 4) (hs : s.decode = v)
    (hv : v < 64) : LowBits s.shiftIn.temp (part ++ [v]) := by
  unfold LowBits at h ⊢
  rw [toNat_shiftIn hs hv, readDigits_append, ← h, length_append]
  obtain hl | hl | hl | hl : part.length = 0 ∨ part.length = 1 ∨ part.length = 2 ∨
      part.length = 3 := by omega
  all_goals rw [hl]; norm_num; omega

variable {unbase64 : List ℤ} {n : ℕ}

theorem byte_eq {m : ℕ} (h : s.temp.toNat / 2 ^ n % 256 = m % 256) : s.byte n = UInt8.ofNat m := by
  rwa [← UInt8.toNat_inj, byte, BitVec.toNat_ushiftRight, shiftRight_eq_div_pow]

section

variable (h : LowBits s.temp part)
include h

theorem LowBits.bytes_eq {w r : ℕ} (hlen : part.length = n)
    (hw : 6 * n / 8 = w) (hr : 6 * n % 8 = r) :
    bytes part = (padded 256 w (s.temp.toNat % 64 ^ n / 2 ^ r)).map UInt8.ofNat := by
  subst hlen hw hr
  rw [show s.temp.toNat % 64 ^ part.length = _ from h]
  rfl

theorem LowBits.bytes_two (hlen : part.length = 2) : bytes part = [s.byte 4] := by
  rw [h.bytes_eq hlen rfl rfl, byte_eq (m := s.temp.toNat % 64 ^ 2 / 2 ^ 4 % 256) (by omega)]
  rfl

theorem LowBits.bytes_three (hlen : part.length = 3) : bytes part = [s.byte 10, s.byte 2] := by
  rw [h.bytes_eq hlen rfl rfl, byte_eq (m := s.temp.toNat % 64 ^ 3 / 2 ^ 2 / 256 % 256) (by omega),
    byte_eq (m := s.temp.toNat % 64 ^ 3 / 2 ^ 2 % 256) (by omega)]
  rfl

theorem LowBits.bytes_four
    (hlen : part.length = 4) : bytes part = [s.byte 16, s.byte 8, s.byte 0] := by
  rw [h.bytes_eq hlen rfl rfl,
    byte_eq (m := s.temp.toNat % 64 ^ 4 / 2 ^ 0 / 256 / 256 % 256) (by omega),
    byte_eq (m := s.temp.toNat % 64 ^ 4 / 2 ^ 0 / 256 % 256) (by omega),
    byte_eq (m := s.temp.toNat % 64 ^ 4 / 2 ^ 0 % 256) (by omega)]
  rfl

end

/-! ## Reading a group -/

/-- After `j` characters of a group that started at `src` : what is before the rest of the
input is a body with `j` values, and the rest is long enough for the others. -/
structure Stage (k : Base64Kind) (src dest : List UInt8) (state j : ℕ) (s : Decoder) : Prop where
  reads : ∃ pre, src = pre ++ s.src ∧ k.Body pre ∧ (k.sextets pre).length = j ∧
    LowBits s.temp (k.sextets pre)
  room : 4 - j ≤ s.src.length
  dest_eq : s.dest = dest
  state_eq : s.state = state

/-- The loop was left inside a group : at whitespace near the end of the input, which is
consumed, or at a character that is neither data nor whitespace. -/
structure Broke (k : Base64Kind) (src dest : List UInt8) (s : Decoder) : Prop where
  reads : ∃ pre, k.Body pre ∧ (k.sextets pre).length = s.state ∧ LowBits s.temp (k.sextets pre) ∧
    (src = pre ++ s.src ∧ asciiIsSpace s.ch = true ∨
      src = pre ++ s.ch :: s.src ∧ asciiIsSpace s.ch = false)
  bad : s.ch ∉ k.chars
  decode_eq : s.decode = -1
  state_lt : s.state < 4
  dest_eq : s.dest = dest

/-- A character of data was read after `j` others. -/
structure Got (k : Base64Kind) (src dest : List UInt8) (state j : ℕ) (s : Decoder) : Prop where
  reads : ∃ pre, src = pre ++ s.src ∧ k.Body pre ∧
    ∃ part, k.sextets pre = part ++ [k.chars.idxOf s.ch] ∧
    part.length = j ∧ LowBits s.temp part
  data : s.ch ∈ k.chars
  decode_eq : s.decode = k.chars.idxOf s.ch
  room : 3 - j ≤ s.src.length
  dest_eq : s.dest = dest
  state_eq : s.state = state

/-- `GET_INPUT` after `j` characters. -/
theorem getInput_stage {k : Base64Kind} {src dest : List UInt8} {state j remain : ℕ}
    (hj : j + remain = 4) (hr : 0 < remain) : ∀ {rest : List UInt8} {s : Decoder},
    Stage k src dest state j { s with src := rest } →
    (∃ s', getInput k.unbase64 remain rest s = .ok (true, s') ∧ Got k src dest state j s') ∨
      ∃ s', getInput k.unbase64 remain rest s = .ok (false, s') ∧ Broke k src dest s'
  | [], s, h => by
    have := h.room
    simp only [length_nil] at this
    omega
  | ch :: rest, s, h => by
    obtain ⟨⟨pre, hsrc, hbody, hlen, hlow⟩, hroom, hdest, hstate⟩ := h
    rw [length_cons] at hroom
    unfold getInput
    rw [k.unbase64Value_eq]
    by_cases hch : ch ∈ k.chars
    · rw [if_pos hch]
      refine inl ⟨_, rfl, ⟨pre ++ [ch], ?_, ?_, k.sextets pre, ?_, hlen, hlow⟩, hch, rfl, ?_,
        hdest, hstate⟩
      · rw [hsrc, append_assoc, singleton_append]
      · exact hbody.append (body_singleton (inl hch))
      · rw [k.sextets_append, sextets_cons_of_mem hch]
        rfl
      · dsimp only
        omega
    have hsextets : k.sextets (pre ++ [ch]) = k.sextets pre := by
      rw [k.sextets_append, sextets_cons_of_not_mem hch]
      exact append_nil _
    have hnext : src = (pre ++ [ch]) ++ rest := by
      rw [hsrc, append_assoc, singleton_append]
    rw [if_neg hch]
    split_ifs with hspace
    · have hbody' := hbody.append (body_singleton
        (inr ((asciiIsSpace_iff ch).mp hspace.1)))
      refine getInput_stage hj hr ⟨⟨pre ++ [ch], hnext, hbody', ?_, ?_⟩, ?_, hdest, hstate⟩
      · rwa [hsextets]
      · rwa [hsextets]
      · dsimp only
        omega
    refine inr ⟨_, rfl, ?_, hch, rfl, ?_, hdest⟩
    · rw [show 4 - remain = j by omega]
      cases hs : asciiIsSpace ch with
      | true =>
        refine ⟨pre ++ [ch], hbody.append (body_singleton
          (inr ((asciiIsSpace_iff ch).mp hs))), ?_, ?_, inl ⟨hnext, rfl⟩⟩
        · rwa [hsextets]
        · rwa [hsextets]
      | false => exact ⟨pre, hbody, hlen, hlow, inr ⟨hsrc, rfl⟩⟩
    · dsimp only
      omega

section

variable {k : Base64Kind} {src dest : List UInt8} {s : Decoder} {state j : ℕ}

/-- `GET_INPUT` between two characters of a group. -/
theorem Stage.getInput (h : Stage k src dest state j s) (remain : ℕ) (hj : j + remain = 4)
    (hr : 0 < remain) :
    (∃ s', Abseil.getInput k.unbase64 remain s.src s = .ok (true, s') ∧ Got k src dest state j s') ∨
      ∃ s', Abseil.getInput k.unbase64 remain s.src s = .ok (false, s') ∧ Broke k src dest s' :=
  getInput_stage hj hr h

/-- The first character starts `temp` anew. -/
theorem Got.first (h : Got k src dest state 0 s) :
    Stage k src dest state 1 { s with temp := s.sextet } := by
  obtain ⟨⟨pre, hsrc, hbody, part, hpart, hlen, hlow⟩, hdata, hdecode, hroom, hdest, hstate⟩ := h
  obtain rfl := length_eq_zero_iff.mp hlen
  refine ⟨⟨pre, hsrc, hbody, by rw [hpart]; rfl, ?_⟩, hroom, hdest, hstate⟩
  rw [hpart]
  have hlt := idxOf_lt hdata
  change s.sextet.toNat % 64 ^ 1 = 0 * 64 + k.chars.idxOf s.ch
  rw [toNat_sextet hdecode hlt]
  omega

/-- The others are shifted in. -/
theorem Got.shiftIn (h : Got k src dest state j s) (hj : j < 4) :
    Stage k src dest state (j + 1) s.shiftIn := by
  obtain ⟨⟨pre, hsrc, hbody, part, hpart, hlen, hlow⟩, hdata, hdecode, hroom, hdest, hstate⟩ := h
  refine ⟨⟨pre, hsrc, hbody, ?_, ?_⟩, ?_, hdest, hstate⟩
  · rw [hpart, length_append, hlen]
    rfl
  · rw [hpart]
    exact hlow.push (by omega) hdecode (idxOf_lt hdata)
  · change 4 - (j + 1) ≤ s.src.length
    omega

/-- Four characters of data were read and the last of them is in `ch`, or was so before. -/
structure Full (k : Base64Kind) (src dest : List UInt8) (state : ℕ) (s : Decoder) : Prop where
  stage : Stage k src dest state 4 s
  decode_nonneg : 0 ≤ s.decode
  not_pad : isPad s.ch = false

theorem slowQuantum_spec (hlen : 4 ≤ s.src.length) :
    (∃ s', slowQuantum k.unbase64 s = .ok (true, s') ∧ Full k s.src s.dest s.state s') ∨
      ∃ s', slowQuantum k.unbase64 s = .ok (false, s') ∧ Broke k s.src s.dest s' := by
  have h0 : Stage k s.src s.dest s.state 0 s :=
    ⟨⟨[], rfl, nofun, rfl, .nil _⟩, hlen, rfl, rfl⟩
  unfold slowQuantum
  obtain ⟨s1, e1, g1⟩ | ⟨s1, e1, b1⟩ := h0.getInput 4 rfl (by decide)
  swap
  · exact inr ⟨s1, by rw [e1]; rfl, b1⟩
  rw [e1]
  dsimp only [thenData]
  obtain ⟨s2, e2, g2⟩ | ⟨s2, e2, b2⟩ := g1.first.getInput 3 rfl (by decide)
  swap
  · exact inr ⟨s2, by rw [e2], b2⟩
  rw [e2]
  dsimp only
  obtain ⟨s3, e3, g3⟩ | ⟨s3, e3, b3⟩ := (g2.shiftIn (by decide)).getInput 2 rfl
    (by decide)
  swap
  · exact inr ⟨s3, by rw [e3], b3⟩
  rw [e3]
  dsimp only
  obtain ⟨s4, e4, g4⟩ | ⟨s4, e4, b4⟩ := (g3.shiftIn (by decide)).getInput 1 rfl
    (by decide)
  swap
  · exact inr ⟨s4, by rw [e4], b4⟩
  rw [e4]
  refine inl ⟨s4.shiftIn, rfl, g4.shiftIn (by decide), ?_, (k.not_space_pad g4.data).2⟩
  exact g4.decode_eq.symm ▸ Int.natCast_nonneg _

/-- The high bit of four packed values tells whether one of them is missing. -/
theorem mem_of_packed {c0 c1 c2 c3 : UInt8}
    (h : ((ofInt 32 (unbase64Value k.unbase64 c0) <<< 18) |||
      (ofInt 32 (unbase64Value k.unbase64 c1) <<< 12) |||
      (ofInt 32 (unbase64Value k.unbase64 c2) <<< 6) |||
      ofInt 32 (unbase64Value k.unbase64 c3)) &&& 0x80000000 = 0) :
    c0 ∈ k.chars ∧ c1 ∈ k.chars ∧ c2 ∈ k.chars ∧ c3 ∈ k.chars := by
  have hbit := congrArg (BitVec.getLsbD · 31) h
  simp only [k.unbase64Value_eq] at hbit
  refine ⟨?_, ?_, ?_, ?_⟩ <;> by_contra hc <;> rw [if_neg hc] at hbit
  · simp at hbit
  · simp at hbit
  · simp at hbit
  · simp at hbit

theorem toNat_packed {v0 v1 v2 v3 : ℕ} (h0 : v0 < 64) (h1 : v1 < 64) (h2 : v2 < 64) (h3 : v3 < 64) :
    ((ofInt 32 v0 <<< 18) ||| (ofInt 32 v1 <<< 12) ||| (ofInt 32 v2 <<< 6) ||| ofInt 32 v3).toNat
      = readDigits 64 0 [v0, v1, v2, v3] := by
  have hshift : ∀ v n, v < 64 → n ≤ 18 → (ofInt 32 v <<< n).toNat = 2 ^ n * v := by
    intro v n hv hn
    have hpow : 2 ^ n ≤ 2 ^ 18 := Nat.pow_le_pow_right (by decide) hn
    have hlt : 2 ^ n * v < 2 ^ 32 := by
      have := mul_le_mul hpow hv.le
      omega
    rw [BitVec.toNat_shiftLeft, shiftLeft_eq, BitVec.ofInt_natCast, toNat_ofNat,
      mod_eq_of_lt (show v < 2 ^ 32 by omega), mul_comm, mod_eq_of_lt hlt]
  have hlast : (ofInt 32 v3).toNat = v3 := by
    rw [BitVec.ofInt_natCast, toNat_ofNat]
    omega
  have h12 : 2 ^ 18 * v0 ||| 2 ^ 12 * v1 = 2 ^ 12 * (64 * v0 + v1) := by
    rw [← two_pow_add_eq_or_of_lt (by omega)]
    ring
  have h6 : 2 ^ 12 * (64 * v0 + v1) ||| 2 ^ 6 * v2 = 2 ^ 6 * (64 * (64 * v0 + v1) + v2) := by
    rw [← two_pow_add_eq_or_of_lt (by omega)]
    ring
  rw [toNat_or, toNat_or, toNat_or, hshift v0 18 h0 le_rfl,
    hshift v1 12 h1 (by decide), hshift v2 6 h2 (by decide), hlast, h12, h6,
    ← two_pow_add_eq_or_of_lt h3]
  simp only [readDigits_cons, readDigits_nil]
  ring

theorem readQuantum_spec (hdecode : 0 ≤ s.decode) (hpad : isPad s.ch = false) :
    (s.src.length < 4 ∧ readQuantum k.unbase64 s = .ok (false, s)) ∨
      (∃ s', readQuantum k.unbase64 s = .ok (true, s') ∧ Full k s.src s.dest s.state s') ∨
      ∃ s', readQuantum k.unbase64 s = .ok (false, s') ∧ Broke k s.src s.dest s' := by
  unfold readQuantum
  split
  · rename_i c0 c1 c2 c3 rest hsrc
    have hlen : 4 ≤ s.src.length := by
      rw [hsrc]
      simp only [length_cons]
      omega
    dsimp only
    split_ifs with hnull hbad
    · exact inr (slowQuantum_spec hlen)
    · exact inr (slowQuantum_spec hlen)
    obtain ⟨m0, m1, m2, m3⟩ := mem_of_packed (not_not.mp hbad)
    have hsextets : k.sextets [c0, c1, c2, c3] = [k.chars.idxOf c0, k.chars.idxOf c1,
        k.chars.idxOf c2, k.chars.idxOf c3] := by
      simp only [sextets_cons_of_mem, m0, m1, m2, m3]
      rfl
    refine inr (inl ⟨_, rfl, ⟨⟨[c0, c1, c2, c3], hsrc, ?_, ?_, ?_⟩, ?_, rfl, rfl⟩, hdecode, hpad⟩)
    · intro c hc
      simp only [mem_cons, not_mem_nil, or_false] at hc
      rcases hc with rfl | rfl | rfl | rfl <;> exact inl ‹_›
    · rw [hsextets]
      rfl
    · rw [hsextets, LowBits]
      simp only [k.unbase64Value_eq, m0, m1, m2, m3, if_true]
      rw [toNat_packed (idxOf_lt m0) (idxOf_lt m1) (idxOf_lt m2) (idxOf_lt m3)]
      exact mod_eq_of_lt (readDigits_lt_pow (by simp [idxOf_lt, *]))
    · exact zero_le _
  · rename_i hshort
    refine inl ⟨?_, rfl⟩
    match hsrc : s.src with
    | [] | [_] | [_, _] | [_, _, _] => simp
    | c0 :: c1 :: c2 :: c3 :: rest => exact absurd hsrc (hshort c0 c1 c2 c3 rest)

end

/-! ## The loops -/

theorem Base64Kind.bytes_append {us vs : List ℕ} (hus : 4 ∣ us.length) (hvs : ∀ v ∈ vs, v < 64) :
    bytes (us ++ vs) = bytes us ++ bytes vs := by
  have hdvd : 8 ∣ 6 * us.length := by omega
  rw [bytes, regroup_append (by decide) hdvd hvs, map_append]
  rfl

theorem Base64Kind.length_bytes (vs : List ℕ) : (bytes vs).length = 6 * vs.length / 8 := by
  rw [bytes, length_map, regroup, length_padded]

/-- The size of the buffer for a text. -/
def destLen (text : List UInt8) : ℕ := 3 * (text.length / 4) + text.length % 4

/-- The decoder has taken the values of `pre` : the full groups of four are written, the others
are in `temp`. -/
def Holds (k : Base64Kind) (pre : List UInt8) (s : Decoder) : Prop :=
  ∃ full part, k.sextets pre = full ++ part ∧ 4 ∣ full.length ∧ part.length = s.state ∧
    s.dest = Base64Kind.bytes full ∧ LowBits s.temp part

variable {szdest : ℕ} {s' : Decoder}

theorem quantumLoop_left
    (h : readQuantum unbase64 s = .ok (false, s')) : quantumLoop unbase64 szdest s = .ok s' := by
  rw [quantumLoop]
  split <;> simp_all

theorem quantumLoop_step
    (h : readQuantum unbase64 s = .ok (true, s')) (hroom : s'.dest.length + 3 ≤ szdest) :
    quantumLoop unbase64 szdest s = quantumLoop unbase64 szdest s'.writeThree := by
  rw [quantumLoop]
  split
  · simp_all
  · simp_all
  · rename_i t ht
    obtain rfl : s' = t := by simpa [h] using ht
    rw [if_neg hroom.not_gt]

section

variable {k : Base64Kind} {text pre : List UInt8} {s : Decoder}

/-- What is read while no group is open. -/
theorem Holds.read {q : List UInt8} (h : Holds k pre s) (hstate : s.state = 0) (s' : Decoder)
    (hdest : s'.dest = s.dest) (hlen : (k.sextets q).length = s'.state)
    (hlow : LowBits s'.temp (k.sextets q)) : Holds k (pre ++ q) s' := by
  obtain ⟨full, part, hpre, hfull, hpart, hbytes, -⟩ := h
  obtain rfl := length_eq_zero_iff.mp (hpart.trans hstate)
  exact ⟨full, k.sextets q, by rw [k.sextets_append, hpre, append_nil], hfull, hlen,
    hdest.trans hbytes, hlow⟩

/-- A group of four is written, and there is room for it. -/
theorem Holds.write {rest : List UInt8} (h : Holds k pre s) (hstate : s.state = 4)
    (htext : text = pre ++ rest) :
    s.dest.length + 3 ≤ destLen text ∧ s.writeThree.dest = bytes (k.sextets pre) ∧
      4 ∣ (k.sextets pre).length := by
  obtain ⟨full, part, hpre, hfull, hpart, hbytes, hlow⟩ := h
  have hlen := hpart.trans hstate
  have hle := length_sextets_le (k := k) pre
  have hlt : ∀ v ∈ part, v < 64 := fun v hmem =>
    sextets_lt (by rw [hpre]; exact mem_append_right _ hmem)
  have hcount : (k.sextets pre).length = full.length + 4 := by
    rw [hpre, length_append, hlen]
  have htotal : text.length = pre.length + rest.length := by
    rw [htext, length_append]
  refine ⟨?_, ?_, by omega⟩
  · rw [hbytes, length_bytes, destLen]
    omega
  · rw [hpre, bytes_append hfull hlt, hlow.bytes_four hlen, ← hbytes]
    rfl

/-- How the first loop ends : everything up to the rest of the input is taken, or all but the
character in `ch`, which is neither data nor whitespace. -/
structure LoopEnd (k : Base64Kind) (text : List UInt8) (s : Decoder) : Prop where
  reads : ∃ pre, k.Body pre ∧ Holds k pre s ∧
    (text = pre ++ s.src ∧ (0 ≤ s.decode ∨ asciiIsSpace s.ch = true) ∧ isPad s.ch = false ∨
      text = pre ++ s.ch :: s.src ∧ s.decode = -1 ∧ s.ch ∉ k.chars ∧ asciiIsSpace s.ch = false)
  state_lt : s.state < 4

/-- The loop of quanta ends as it should. -/
theorem quantumLoop_spec {s : Decoder} {pre : List UInt8} (htext : text = pre ++ s.src)
    (hbody : k.Body pre) (h : Holds k pre s) (hstate : s.state = 0) (hdecode : 0 ≤ s.decode)
    (hpad : isPad s.ch = false) :
    ∃ s', quantumLoop k.unbase64 (destLen text) s = .ok s' ∧ LoopEnd k text s' := by
  obtain ⟨-, hread⟩ | ⟨s', hread, hfull⟩ | ⟨s', hread, hbroke⟩ :=
    readQuantum_spec hdecode hpad
  · exact ⟨s, quantumLoop_left hread, ⟨pre, hbody, h, inl ⟨htext, inl hdecode, hpad⟩⟩,
      by rw [hstate]; decide⟩
  · obtain ⟨⟨⟨q, hq, hqbody, hqlen, hlow⟩, -, hdest, hst⟩, hdecode', hpad'⟩ := hfull
    have htext' : text = (pre ++ q) ++ s'.src := by rw [htext, hq, append_assoc]
    have hread' : Holds k (pre ++ q) { s' with state := 4 } := h.read hstate _ hdest hqlen hlow
    obtain ⟨hroom, hwritten, hdvd⟩ := hread'.write rfl htext'
    have hsrc : s'.writeThree.src.length < s.src.length :=
      show s'.src.length < s.src.length from readQuantum_length hread
    rw [quantumLoop_step hread hroom]
    exact quantumLoop_spec htext' (hbody.append hqbody)
      ⟨_, [], (append_nil _).symm, hdvd, (hst.trans hstate).symm, hwritten, .nil _⟩
      (hst.trans hstate) hdecode' hpad'
  · obtain ⟨⟨q, hqbody, hqlen, hlow, hrest⟩, hbad, hdecode', hlt, hdest⟩ := hbroke
    refine ⟨s', quantumLoop_left hread,
      ⟨pre ++ q, hbody.append hqbody, h.read hstate s' hdest hqlen hlow, ?_⟩, hlt⟩
    rcases hrest with ⟨hsrc, hspace⟩ | ⟨hsrc, hspace⟩
    · refine inl ⟨by rw [htext, hsrc, append_assoc], inr hspace, ?_⟩
      exact Bool.eq_false_iff.mpr fun hp => by simp [not_space_of_pad hp] at hspace
    · exact inr ⟨by rw [htext, hsrc, append_assoc], hdecode', hbad, hspace⟩
termination_by s.src.length

variable {ch : UInt8}

/-- Whitespace changes nothing. -/
theorem Holds.space (h : Holds k pre s) (hch : ch ∉ k.chars) {s' : Decoder}
    (hdest : s'.dest = s.dest) (hstate : s'.state = s.state) (htemp : s'.temp = s.temp) :
    Holds k (pre ++ [ch]) s' := by
  obtain ⟨full, part, hpre, hfull, hpart, hbytes, hlow⟩ := h
  refine ⟨full, part, ?_, hfull, by rw [hpart, hstate], by rw [hdest, hbytes], by rwa [htemp]⟩
  rw [k.sextets_append, sextets_cons_of_not_mem hch, hpre]
  exact append_nil _

/-- A character of data. -/
theorem Holds.push (h : Holds k pre s) (hstate : s.state < 4) (hch : ch ∈ k.chars)
    (hdecode : s.decode = k.chars.idxOf ch) :
    Holds k (pre ++ [ch]) { s.shiftIn with state := s.state + 1 } := by
  obtain ⟨full, part, hpre, hfull, hpart, hbytes, hlow⟩ := h
  refine ⟨full, part ++ [k.chars.idxOf ch], ?_, hfull, ?_, hbytes,
    hlow.push (by omega) hdecode (idxOf_lt hch)⟩
  · rw [k.sextets_append, sextets_cons_of_mem hch, hpre, append_assoc]
    rfl
  · rw [length_append, hpart]
    rfl

/-- How the second loop ends : all of the body is taken. -/
structure TailEnd (k : Base64Kind) (text : List UInt8) (s : Decoder) : Prop where
  reads : ∃ pre, k.Body pre ∧ Holds k pre s ∧ text = pre ++ s.src
  state_lt : s.state < 4
  rest : s.src = [] ∨ ∃ c rest, s.src = c :: rest ∧ isPad c = true

/-- Behind the body, a character that has no place in a text. -/
def Base64Kind.Bad (k : Base64Kind) (text : List UInt8) : Prop :=
  ∃ pre c rest, text = pre ++ c :: rest ∧ k.Body pre ∧ c ∉ k.chars ∧ ¬IsSpace c ∧ isPad c = false

theorem tailLoop_spec : ∀ {rest pre : List UInt8} {s : Decoder}, text = pre ++ rest →
    k.Body pre → Holds k pre s → s.state < 4 →
    (∃ s', tailLoop k.unbase64 (destLen text) rest s = .ok s' ∧ TailEnd k text s') ∨
      tailLoop k.unbase64 (destLen text) rest s = .error .character ∧ k.Bad text
  | [], pre, s, htext, hbody, h, hstate =>
    inl ⟨_, rfl, ⟨pre, hbody, h, htext⟩, hstate, inl rfl⟩
  | ch :: rest, pre, s, htext, hbody, h, hstate => by
    have htext' : text = (pre ++ [ch]) ++ rest := by
      rw [htext, append_assoc, singleton_append]
    unfold tailLoop
    rw [k.unbase64Value_eq]
    by_cases hch : ch ∈ k.chars
    · rw [if_pos hch, if_neg (Int.natCast_nonneg _).not_gt]
      have hbody' := hbody.append (body_singleton (inl hch))
      -- the decoder with the character read
      have hread : Holds k pre ⟨rest, s.dest, (k.chars.idxOf ch : ℤ), s.state, ch, s.temp⟩ := h
      have hpush := hread.push hstate hch rfl
      rcases lt_or_ge s.state 3 with hlt | hge
      · rw [if_neg (show ¬s.state + 1 = 4 by omega)]
        exact tailLoop_spec htext' hbody' hpush (show s.state + 1 < 4 by omega)
      have hfour : s.state + 1 = 4 := by omega
      obtain ⟨hroom, hwritten, hdvd⟩ := hpush.write hfour htext'
      rw [if_pos hfour]
      split_ifs with hfull
      · exact absurd hroom (not_le_of_gt hfull)
      · exact tailLoop_spec htext' hbody'
          ⟨_, [], (append_nil _).symm, hdvd, rfl, hwritten, .nil _⟩ (show 0 < 4 by decide)
    · rw [if_neg hch]
      split_ifs with hspace hpad
      · exact tailLoop_spec htext'
          (hbody.append (body_singleton (inr ((asciiIsSpace_iff ch).mp hspace))))
          (h.space hch rfl rfl rfl) hstate
      · exact inl ⟨_, rfl, ⟨pre, hbody, h, htext⟩, hstate, inr ⟨ch, rest, rfl, hpad⟩⟩
      · exact inr ⟨rfl, pre, ch, rest, htext, hbody, hch, (asciiIsSpace_iff ch).not.mp hspace,
          Bool.eq_false_iff.mpr hpad⟩

/-! ## The end of the input -/

theorem leftover_bits (h : Holds k pre s) (hlt : s.state < 4)
    (hbits : (k.sextets pre).length % 4 = 1) : leftover (destLen text) s = .error .bits := by
  obtain ⟨full, part, hpre, hfull, hpart, -, -⟩ := h
  rw [hpre, length_append] at hbits
  rw [leftover, show s.state = 1 by omega]
  rfl

theorem leftover_spec (h : Holds k pre s) (hlt : s.state < 4) (htext : pre.length ≤ text.length)
    (hbits : (k.sextets pre).length % 4 ≠ 1) : leftover (destLen text) s =
      .ok (bytes (k.sextets pre), ((4 - (k.sextets pre).length % 4) % 4 : ℕ)) := by
  obtain ⟨full, part, hpre, hfull, hpart, hbytes, hlow⟩ := h
  have hle := length_sextets_le (k := k) pre
  have hvs : ∀ v ∈ part, v < 64 := fun v hv =>
    sextets_lt (by rw [hpre]; exact mem_append_right _ hv)
  have hlen : s.dest.length = 6 * full.length / 8 := by rw [hbytes, length_bytes]
  rw [hpre, length_append] at hbits hle ⊢
  rw [bytes_append hfull hvs, ← hbytes]
  obtain hs | hs | hs : s.state = 0 ∨ s.state = 2 ∨ s.state = 3 := by omega
  · obtain rfl := length_eq_zero_iff.mp (hpart.trans hs)
    rw [leftover, hs, show (4 - (full.length + [].length) % 4) % 4 = 0 by simp; omega]
    simp [bytes]
  · have hroom : ¬s.dest.length + 1 > destLen text := by
      unfold destLen
      omega
    rw [leftover, hs]
    refine (if_neg hroom).trans ?_
    rw [hlow.bytes_two (hpart.trans hs),
      show (4 - (full.length + part.length) % 4) % 4 = 2 by omega]
    rfl
  · have hroom : ¬s.dest.length + 2 > destLen text := by
      unfold destLen
      omega
    rw [leftover, hs]
    refine (if_neg hroom).trans ?_
    rw [hlow.bytes_three (hpart.trans hs),
      show (4 - (full.length + part.length) % 4) % 4 = 1 by omega]
    rfl

/-- Counting over whitespace and pads. -/
theorem countEquals_append : ∀ {tail : List UInt8} (rest : List UInt8) {n : ℕ},
    Base64Kind.Tail tail → n < 2 ^ 31 → countEquals (tail ++ rest) n =
      if n + tail.countP isPad < 2 ^ 31 then
        countEquals rest ((n + tail.countP isPad : ℕ) : ℤ) else .error .undefined
  | [], rest, n, _, hlt => (if_pos hlt).symm
  | ch :: tail, rest, n, h, hlt => by
    have htail : Base64Kind.Tail tail := fun c hc => h c (mem_cons_of_mem ch hc)
    rw [cons_append, countEquals, countP_cons]
    cases hpad : isPad ch with
    | true =>
      rw [if_pos rfl, if_pos rfl]
      by_cases hmax : n = 2 ^ 31 - 1
      · rw [if_pos (by omega), if_neg (by omega)]
      · have ih := countEquals_append rest (n := n + 1) htail (by omega)
        rw [add_right_comm, add_assoc, cast_add n, cast_one] at ih
        rw [if_neg (by omega), ih]
    | false =>
      have hspace : asciiIsSpace ch = true := by
        rcases h ch mem_cons_self with hs | hp
        · exact (asciiIsSpace_iff ch).mpr hs
        · exact absurd hp (by rw [hpad]; exact Bool.false_ne_true)
      rw [hspace]
      exact countEquals_append rest htail hlt

theorem countEquals_character {c : UInt8} (hspace : ¬IsSpace c) (hpad : isPad c = false)
    (rest : List UInt8) (n : ℤ) : countEquals (c :: rest) n = .error .character := by
  have hcode := Bool.eq_false_iff.mpr ((asciiIsSpace_iff c).not.mpr hspace)
  rw [countEquals, hpad, hcode]
  rfl

/-- A text is a tail, or a tail up to some other character. -/
theorem tail_or_split (text : List UInt8) : Base64Kind.Tail text ∨
    ∃ tail c rest, text = tail ++ c :: rest ∧ Base64Kind.Tail tail ∧ ¬IsSpace c ∧
      isPad c = false := by
  classical
  rcases hfind : text.find? fun c => ¬(IsSpace c ∨ isPad c = true) with _ | c
  · exact inl fun c hc => by simpa [or_iff_not_imp_left] using find?_eq_none.mp hfind c hc
  · obtain ⟨hc, tail, rest, rfl, htail⟩ := find?_eq_some_iff_append.mp hfind
    exact inr ⟨tail, c, rest, rfl, fun b hb => by simpa using htail b hb, by simpa using hc⟩

end

namespace Base64Kind

variable {k : Base64Kind} {text pre body tail rest : List UInt8}

theorem not_mem_of_pad {c : UInt8} (h : isPad c = true) : c ∉ k.chars ∧ ¬IsSpace c := by
  refine ⟨fun hc => ?_, fun hs => ?_⟩
  · rw [(k.not_space_pad hc).2] at h
    exact Bool.false_ne_true h
  · rw [← asciiIsSpace_iff, not_space_of_pad h] at hs
    exact Bool.false_ne_true hs

theorem not_mem_of_space {c : UInt8} (h : IsSpace c) : c ∉ k.chars := fun hc => by
  rw [← asciiIsSpace_iff, (k.not_space_pad hc).1] at h
  exact Bool.false_ne_true h

theorem Tail.sextets_eq_nil (h : Tail tail) : k.sextets tail = [] := by
  rw [sextets, map_eq_nil_iff, filter_eq_nil_iff]
  intro c hc
  rw [decide_eq_true_eq]
  exact (h c hc).elim not_mem_of_space fun hp => (not_mem_of_pad hp).1

theorem Body.countP_eq_zero (h : k.Body body) : body.countP isPad = 0 := by
  rw [List.countP_eq_zero]
  intro c hc hp
  obtain ⟨hdata, hspace⟩ := not_mem_of_pad hp
  exact (h c hc).elim hdata hspace

/-- Whatever the split, the body has all the values. -/
theorem sextets_split (ht : Tail tail) : k.sextets (body ++ tail) = k.sextets body := by
  rw [k.sextets_append, ht.sextets_eq_nil, append_nil]

/-- Whatever the split, the tail has all the pads. -/
theorem countP_split (hb : k.Body body) : (body ++ tail).countP isPad = tail.countP isPad := by
  rw [countP_append, hb.countP_eq_zero, zero_add]

/-- From the first pad on, all is tail. -/
theorem tail_of_pad (htext : pre ++ rest = body ++ tail) (hb : k.Body body) (ht : Tail tail)
    (hrest : rest = [] ∨ ∃ c r, rest = c :: r ∧ isPad c = true) : Tail rest := by
  obtain rfl | ⟨c, r, rfl, hpad⟩ := hrest
  · exact nofun
  rcases append_eq_append_iff.mp htext with ⟨t, hbody, hr⟩ | ⟨t, hpre, htail⟩
  · cases t with
    | nil =>
      rwa [hr]
    | cons d t =>
      obtain ⟨rfl, -⟩ := cons.inj hr
      obtain ⟨hdata, hspace⟩ := not_mem_of_pad hpad
      exact absurd (hb c (by rw [hbody]; simp)) (not_or.mpr ⟨hdata, hspace⟩)
  · exact fun d hd => ht d (by rw [htail]; exact mem_append_right _ hd)

/-- Acceptance, decided at the end of the body. -/
theorem accepts_iff (htext : text = pre ++ rest) (hb : k.Body pre)
    (hrest : rest = [] ∨ ∃ c r, rest = c :: r ∧ isPad c = true) :
    k.Accepts text ↔ Tail rest ∧ (k.sextets pre).length % 4 ≠ 1 ∧
      (rest.countP isPad = 0 ∨ rest.countP isPad = (4 - (k.sextets pre).length % 4) % 4) := by
  constructor
  · rintro ⟨body, tail, hsplit, hbody, htail, hbits, hpads⟩
    have hr := tail_of_pad (htext.symm.trans hsplit) hbody htail hrest
    have hsextets : k.sextets body = k.sextets pre := by
      rw [← sextets_split htail, ← hsplit, htext, sextets_split hr]
    have hcount : tail.countP isPad = rest.countP isPad := by
      rw [← countP_split hbody, ← hsplit, htext, countP_split hb]
    rw [hsextets] at hbits hpads
    rw [hcount] at hpads
    exact ⟨hr, hbits, hpads⟩
  · rintro ⟨hr, hbits, hpads⟩
    exact ⟨pre, rest, htext, hb, hr, hbits, hpads⟩

theorem Bad.not_accepts (h : k.Bad text) : ¬k.Accepts text := by
  rintro ⟨body, tail, rfl, hbody, htail, -⟩
  obtain ⟨pre, c, rest, hsplit, -, hdata, hspace, hpad⟩ := h
  have hc : c ∈ body ++ tail := by
    rw [hsplit]
    simp
  rcases mem_append.mp hc with hc | hc
  · exact (hbody c hc).elim hdata hspace
  · exact (htail c hc).elim hspace (by rw [hpad]; exact Bool.false_ne_true)

/-- Behind a body without six bits left over, at least `2 ^ 31` pads. -/
def Overflows (k : Base64Kind) (text : List UInt8) : Prop :=
  ∃ body tail rest, text = body ++ (tail ++ rest) ∧ k.Body body ∧ Tail tail ∧
    (k.sextets body).length % 4 ≠ 1 ∧ 2 ^ 31 ≤ tail.countP isPad

theorem Overflows.not_accepts (h : k.Overflows text) : ¬k.Accepts text := by
  rintro ⟨body, tail, rfl, hbody, -, -, hpads⟩
  obtain ⟨body', tail', rest', hsplit, -, -, -, hcount⟩ := h
  have hall : (body ++ tail).countP isPad = tail.countP isPad := countP_split hbody
  rw [hsplit, countP_append, countP_append] at hall
  omega

/-- A body has no pads, so neither has a part of it. -/
theorem Body.countP_sublist (hb : k.Body body) (h : tail.Sublist body) : tail.countP isPad = 0 :=
  le_zero.mp (hb.countP_eq_zero ▸ h.countP_le)

/-- The pads that overflow are all behind the body. -/
theorem overflows_iff (htext : text = pre ++ rest) (hb : k.Body pre)
    (hrest : rest = [] ∨ ∃ c r, rest = c :: r ∧ isPad c = true) :
    k.Overflows text ↔ (k.sextets pre).length % 4 ≠ 1 ∧
      ∃ tail rest', rest = tail ++ rest' ∧ Tail tail ∧ 2 ^ 31 ≤ tail.countP isPad := by
  constructor
  · rintro ⟨body, tail, rest', hsplit, hbody, htail, hbits, hcount⟩
    rcases append_eq_append_iff.mp (htext.symm.trans hsplit) with ⟨t, hbt, hr⟩ | ⟨t, hpre, hr⟩
    · cases t with
      | nil =>
        rw [append_nil] at hbt
        exact ⟨hbt ▸ hbits, tail, rest', hr, htail, hcount⟩
      | cons d t =>
        obtain rfl | ⟨c, r, rfl, hpad⟩ := hrest
        · simp at hr
        obtain ⟨rfl, -⟩ := cons.inj hr
        obtain ⟨hdata, hspace⟩ := not_mem_of_pad hpad
        exact absurd (hbody c (by rw [hbt]; simp)) (not_or.mpr ⟨hdata, hspace⟩)
    · rcases append_eq_append_iff.mp hr with ⟨u, ht, -⟩ | ⟨u, hta, hru⟩
      · have hzero := hb.countP_sublist (show tail.Sublist pre by rw [hpre, ht]; simp)
        omega
      have hzero := hb.countP_sublist (show t.Sublist pre by rw [hpre]; simp)
      have ht : Tail t := fun c hc => htail c (by rw [hta]; exact mem_append_left _ hc)
      refine ⟨?_, u, rest', hru, fun c hc => htail c (by rw [hta]; exact mem_append_right _ hc), ?_⟩
      · rwa [hpre, sextets_split ht]
      · rwa [hta, countP_append, hzero, zero_add] at hcount
  · rintro ⟨hbits, tail, rest', rfl, htail, hcount⟩
    exact ⟨pre, tail, rest', htext, hb, htail, hbits, hcount⟩

/-- In front of a bad character there is no pad. -/
theorem Bad.not_overflows (h : k.Bad text) : ¬k.Overflows text := by
  rintro ⟨body, tail, rest', hsplit, hbody, htail, -, hcount⟩
  obtain ⟨pre, c, rest, htext, hpre, hdata, hspace, hpad⟩ := h
  have hnotBody : c ∉ body := fun hc => (hbody c hc).elim hdata hspace
  have hnotTail : c ∉ tail := fun hc =>
    (htail c hc).elim hspace (by rw [hpad]; exact Bool.false_ne_true)
  have hnotPre : ¬tail.Sublist pre := fun hs => by
    have := hpre.countP_sublist hs
    omega
  rw [← append_assoc] at hsplit
  rcases append_eq_append_iff.mp (htext.symm.trans hsplit) with ⟨t, hbt, hr⟩ | ⟨t, hpt, -⟩
  · cases t with
    | nil =>
      rw [append_nil] at hbt
      exact hnotPre (by rw [← hbt]; simp)
    | cons d t =>
      obtain ⟨rfl, -⟩ := cons.inj hr
      have hc : c ∈ body ++ tail := by
        rw [hbt]
        simp
      exact (mem_append.mp hc).elim hnotBody hnotTail
  · exact hnotPre (by rw [hpt]; simp)

end Base64Kind

section

variable {k : Base64Kind} {text : List UInt8} {s : Decoder}

/-- The ways to refuse a text : never for want of room. -/
def Refuses (r : Except UnescapeExit (List UInt8)) : Prop :=
  ∃ e ∈ [UnescapeExit.character, .bits, .padding], r = .error e

/-- The result of decoding a text. -/
structure Decodes (k : Base64Kind) (text : List UInt8) (r : Except UnescapeExit (List UInt8)) :
    Prop where
  accept : k.Accepts text → r = .ok (Base64Kind.bytes (k.sextets text))
  refuse : ¬k.Accepts text → ¬k.Overflows text → Refuses r
  overflow : k.Overflows text → r = .error .undefined

theorem Decodes.bad {r : Except UnescapeExit (List UInt8)} (h : k.Bad text)
    (hr : r = .error .character) : Decodes k text r :=
  ⟨fun ha => absurd ha h.not_accepts, fun _ _ => ⟨_, by simp, hr⟩,
    fun ho => absurd ho h.not_overflows⟩

/-- The end decides as it should. -/
theorem finish_spec (h : TailEnd k text s) : Decodes k text (finish (destLen text) s) := by
  obtain ⟨⟨pre, hbody, hholds, htext⟩, hlt, hrest⟩ := h
  have haccepts := accepts_iff htext hbody hrest
  have hoverflows := overflows_iff htext hbody hrest
  by_cases hbits : (k.sextets pre).length % 4 = 1
  · refine ⟨fun ha => absurd hbits (haccepts.mp ha).2.1, fun _ _ => ⟨.bits, by simp, ?_⟩,
      fun ho => absurd hbits (hoverflows.mp ho).1⟩
    rw [finish, leftover_bits hholds hlt hbits]
    rfl
  have hrun : finish (destLen text) s = (countEquals s.src (0 : ℕ) >>= fun equals =>
      if equals = 0 ∨ equals = ((4 - (k.sextets pre).length % 4) % 4 : ℕ) then
        .ok (bytes (k.sextets pre)) else .error .padding) := by
    rw [finish, leftover_spec hholds hlt (by rw [htext]; simp) hbits]
    rfl
  by_cases ho : k.Overflows text
  · obtain ⟨-, tail, rest, hsrc, htail, hcount⟩ := hoverflows.mp ho
    rw [hsrc, countEquals_append rest htail (by decide), if_neg (by omega)] at hrun
    exact ⟨fun ha => absurd ha ho.not_accepts, fun _ hno => absurd ho hno, fun _ => hrun⟩
  have hfew : ∀ tail rest, s.src = tail ++ rest → Base64Kind.Tail tail →
      0 + tail.countP isPad < 2 ^ 31 := fun tail rest hsrc htail => by
    by_contra hge
    exact ho (hoverflows.mpr ⟨hbits, tail, rest, hsrc, htail, by omega⟩)
  rcases tail_or_split s.src with htail | ⟨tail, c, rest, hsrc, htail, hspace, hpad⟩
  · have hcount := countEquals_append [] htail (n := 0) (by decide)
    rw [append_nil, if_pos (hfew s.src [] (append_nil _).symm htail), zero_add] at hcount
    rw [hcount] at hrun
    have hsame : k.sextets text = k.sextets pre := by rw [htext, sextets_split htail]
    have hequals : (((s.src.countP isPad : ℕ) : ℤ) = 0 ∨ ((s.src.countP isPad : ℕ) : ℤ)
        = ((4 - (k.sextets pre).length % 4) % 4 : ℕ)) ↔ k.Accepts text := by
      rw [haccepts, cast_eq_zero, Nat.cast_inj]
      exact ⟨fun h => ⟨htail, hbits, h⟩, fun h => h.2.2⟩
    refine ⟨fun ha => ?_, fun ha _ => ⟨.padding, by simp, ?_⟩, fun h => absurd h ho⟩
    · rw [hrun, hsame]
      exact if_pos (hequals.mpr ha)
    · rw [hrun]
      exact if_neg (hequals.not.mpr ha)
  · rw [hsrc, countEquals_append _ htail (by decide), if_pos (hfew tail _ hsrc htail),
      countEquals_character hspace hpad] at hrun
    refine ⟨fun ha => ?_, fun _ _ => ⟨.character, by simp, hrun⟩, fun h => absurd h ho⟩
    have hc := (haccepts.mp ha).1 c (by rw [hsrc]; simp)
    exact absurd hc (not_or.mpr ⟨hspace, by rw [hpad]; exact Bool.false_ne_true⟩)

/-- The decoder decodes the texts that it accepts and refuses the others. -/
theorem base64UnescapeInternal_spec (k : Base64Kind) (text : List UInt8) :
    Decodes k text (base64UnescapeInternal text (destLen text) k.unbase64) := by
  have hstart : Holds k [] ⟨text, [], 0, 0, 0, 0⟩ :=
    ⟨[], [], rfl, by simp, rfl, by simp [bytes], .nil _⟩
  obtain ⟨s, hrun, ⟨pre, hbody, hholds, hend⟩, hlt⟩ := quantumLoop_spec
    (show text = [] ++ text from rfl) (fun c hc => absurd hc not_mem_nil) hstart rfl le_rfl
    (show isPad 0 = false by decide)
  have hcode : base64UnescapeInternal text (destLen text) k.unbase64 =
      if s.decode < 0 ∧ !isPad s.ch ∧ !asciiIsSpace s.ch then .error .character
      else if isPad s.ch then finish (destLen text) { s with src := s.ch :: s.src }
      else tailLoop k.unbase64 (destLen text) s.src s >>= finish (destLen text) := by
    rw [base64UnescapeInternal, hrun]
    rfl
  rw [hcode]
  rcases hend with ⟨htext, hgood, hpad⟩ | ⟨htext, hdecode, hbad, hspace⟩
  · -- everything before the rest of the input was taken
    rw [if_neg, if_neg (by rw [hpad]; exact Bool.false_ne_true)]
    · rcases tailLoop_spec htext hbody hholds hlt with ⟨s', htail, hend⟩ | ⟨htail, hbad⟩
      · rw [htail]
        exact finish_spec hend
      · exact .bad hbad (by rw [htail]; rfl)
    · rintro ⟨hneg, -, hspace⟩
      rcases hgood with hdecode | hsp
      · omega
      · simp [hsp] at hspace
  · cases hpad : isPad s.ch with
    | true =>
      rw [if_neg (by simp)]
      exact finish_spec ⟨⟨pre, hbody, hholds, htext⟩, hlt, inr ⟨s.ch, s.src, rfl, hpad⟩⟩
    | false =>
      rw [if_pos (by simp [hdecode, hspace])]
      refine .bad ⟨pre, s.ch, s.src, htext, hbody, hbad, ?_, hpad⟩ rfl
      rw [← asciiIsSpace_iff, hspace]
      exact Bool.false_ne_true

theorem unescape_eq (k : Base64Kind) (text : List UInt8) : k.unescape text =
    match base64UnescapeInternal text (destLen text) k.unbase64 with
    | .ok dest => some (true, dest)
    | .error .undefined | .error .fatal => none
    | .error _ => some (false, []) := by
  cases k <;> rfl

/-- An accepted text is decoded. -/
theorem unescape_of_accepts (h : k.Accepts text) :
    k.unescape text = some (true, bytes (k.sextets text)) := by
  rw [unescape_eq, (base64UnescapeInternal_spec k text).accept h]

/-- A refused text leaves nothing. -/
theorem unescape_of_refuses (h : ¬k.Accepts text) (ho : ¬k.Overflows text) :
    k.unescape text = some (false, []) := by
  obtain ⟨e, he, hrun⟩ := (base64UnescapeInternal_spec k text).refuse h ho
  simp only [mem_cons, not_mem_nil, or_false] at he
  rw [unescape_eq, hrun]
  rcases he with rfl | rfl | rfl <;> rfl

/-- Too many pads overflow the counter. -/
theorem unescape_of_overflows (h : k.Overflows text) : k.unescape text = none := by
  rw [unescape_eq, (base64UnescapeInternal_spec k text).overflow h]

theorem unescape_ne_room (k : Base64Kind) (text : List UInt8) :
    base64UnescapeInternal text (destLen text) k.unbase64 ≠ .error .room := by
  have hspec := base64UnescapeInternal_spec k text
  intro hroom
  rw [hroom] at hspec
  by_cases ha : k.Accepts text
  · cases hspec.accept ha
  by_cases ho : k.Overflows text
  · cases hspec.overflow ho
  · obtain ⟨e, he, hrun⟩ := hspec.refuse ha ho
    cases hrun
    simp at he

/-- The text is decoded as it should be : accepted exactly when it is base64, with its values
regrouped into bytes whatever the split into body and tail, and otherwise refused with an
empty destination; and the buffer is not too small. -/
def DecodesWell (k : Base64Kind) (text : List UInt8) : Prop :=
  ((∃ dest, k.unescape text = some (true, dest)) ↔ k.Accepts text) ∧
  (¬k.Accepts text → k.unescape text = some (false, [])) ∧
  (∀ body tail dest, text = body ++ tail → k.Body body → Base64Kind.Tail tail →
    k.unescape text = some (true, dest) →
      dest = (padded (2 ^ 8) (6 * (k.sextets body).length / 8)
        (readDigits (2 ^ 6) 0 (k.sextets body) / 2 ^ (6 * (k.sextets body).length % 8))).map
          UInt8.ofNat) ∧
  base64UnescapeInternal text (destLen text) k.unbase64 ≠ .error .room

/-- **Decoding.** A text is decoded as it should be if and only if counting its pads does not
leave `int`. -/
theorem unescape_correct (k : Base64Kind) (text : List UInt8) :
    DecodesWell k text ↔ ¬k.Overflows text := by
  constructor
  · rintro ⟨-, hrefuse, -⟩ ho
    have h := hrefuse ho.not_accepts
    rw [unescape_of_overflows ho] at h
    cases h
  intro ho
  have hiff : (∃ dest, k.unescape text = some (true, dest)) ↔ k.Accepts text := by
    refine ⟨fun ⟨dest, h⟩ => ?_, fun ha => ⟨_, unescape_of_accepts ha⟩⟩
    by_contra ha
    rw [unescape_of_refuses ha ho] at h
    simp at h
  refine ⟨hiff, fun ha => unescape_of_refuses ha ho, ?_, unescape_ne_room k text⟩
  rintro body tail dest rfl hbody htail h
  rw [unescape_of_accepts (hiff.mp ⟨dest, h⟩), sextets_split htail] at h
  obtain ⟨-, rfl⟩ := Prod.mk.inj (Option.some.inj h)
  rfl

theorem overflows_pads (h : 2 ^ 31 ≤ n) : k.Overflows (replicate n 61) := by
  refine ⟨[], replicate n 61, [], by simp, nofun, ?_, ?_, ?_⟩
  · intro c hc
    rw [eq_of_mem_replicate hc]
    exact inr (by decide)
  · simp [sextets]
  · rwa [countP_replicate]

/-- `2 ^ 31` pads are not base64, but they are not refused either : counting them overflows. -/
theorem unescape_pads_overflow : ¬Base64Kind.base64.Accepts (replicate (2 ^ 31) 61) ∧
      base64Unescape (replicate (2 ^ 31) 61) = none ∧
      ¬DecodesWell .base64 (replicate (2 ^ 31) 61) := by
  have ho : base64.Overflows (replicate (2 ^ 31) 61) := overflows_pads le_rfl
  have hrun : base64Unescape (replicate (2 ^ 31) 61) = none := unescape_of_overflows ho
  refine ⟨ho.not_accepts, hrun, fun h => ?_⟩
  have hrefuse : base64Unescape (replicate (2 ^ 31) 61) = some (false, []) :=
    h.2.1 ho.not_accepts
  rw [hrun] at hrefuse
  cases hrefuse

end

end Abseil
