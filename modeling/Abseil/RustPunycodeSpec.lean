import Abseil.RustPunycode

/-!
# What `DecodeRustPunycode` accepts

The characters inserted so far are a list of code points; the output holds their UTF-8 encoding and
the terminator, and the packed lengths are those of the characters (`Sim`). One round inserts one
character (`decodeStep_spec`), and the rounds insert what the decoder of RFC 3492 inserts
(`decodeLoop_spec`). The cut at `kMaxI` rejects no input that is accepted : a larger `i` is a code
point that is not valid.
-/

namespace Abseil.RustPunycode

open List Nat Punycode ByteBuffer Utf8Lengths

/-! ## Deltas -/

theorem digitValue_eq (c : UInt8) : digitValue c = Punycode.digitValue c := by
  simp only [digitValue, Punycode.digitValue, UInt8.le_iff_toNat_le]
  split_ifs with h1 h2 h3 <;> simp at * <;> omega

/-- The threshold of a digit, as the source clamps it. -/
theorem threshold_eq (k bias : ℕ) :
    (if k ≤ bias + 1 then 1 else if k ≥ bias + 26 then 26 else k - bias) = threshold k bias := by
  unfold threshold
  split_ifs <;> omega

variable {x : ℕ}

theorem u32_of_lt (h : x < 2 ^ 32) : u32 x = .ok x := if_pos h

theorem u64_of_lt (h : x < 2 ^ 64) : u64 x = .ok x := if_pos h

variable {α : Type}

theorem ok_bind {β : Type} (a : α) (f : α → Run β) : ((Except.ok a : Run α) >>= f) = f a := rfl

theorem error_bind {β : Type} (e : Stop) (f : α → Run β) :
    ((Except.error e : Run α) >>= f) = .error e := rfl

/-- A delta beyond `kMaxI` is none. -/
def capped : Option (ℕ × List UInt8) → Run (ℕ × List UInt8)
  | some (j, rest) => if j ≤ kMaxI then .ok (j, rest) else .error .null
  | none => .error .null

variable {bias i : ℕ} {input : List UInt8}

theorem capped_of_lt {k w : ℕ} (hi : kMaxI < i) :
    capped (scanDelta bias k w i input) = .error .null := by
  rcases h : scanDelta bias k w i input with _ | ⟨j, rest⟩
  · rfl
  · exact if_neg (by have := (scanDelta_spec h).1; omega)

/-- The place value grows at least tenfold a round, so that `k` stays small. -/
theorem scanNextDelta_eq (hbias : bias ≤ 2 ^ 31) : ∀ input k w i,
    36 ≤ k → k * k ≤ 1296 * w → w ≤ 35 * 2 ^ 30 → i ≤ kMaxI →
    scanNextDelta bias k w i input = capped (Punycode.scanDelta bias k w i input)
  | [], k, w, i, _, _, _, _ => rfl
  | c :: input, k, w, i, hk, hkw, hw, hi => by
    rw [scanNextDelta, Punycode.scanDelta, digitValue_eq]
    rcases hd : Punycode.digitValue c with _ | digit
    · rfl
    dsimp only
    have hdigit := Punycode.digitValue_lt hd
    have hprod : digit * w ≤ 35 * (35 * 2 ^ 30) := Nat.mul_le_mul (by omega) hw
    have hi' : i ≤ 2 ^ 30 := hi
    simp (disch := omega) only [u64_of_lt, ok_bind]
    have ht := Punycode.threshold_pos k bias
    have ht' := Punycode.threshold_le k bias
    split_ifs with hmax hlt hlt
    · exact (if_neg (by omega)).symm
    · exact (capped_of_lt hmax).symm
    · simp (disch := omega) only [u32_of_lt, ok_bind, threshold_eq, if_pos hlt]
      exact (if_pos (by omega)).symm
    simp (disch := omega) only [u32_of_lt, ok_bind, threshold_eq, if_neg hlt]
    -- the digit is not zero, so that the place value is below the cut
    have hw' : w ≤ 2 ^ 30 := by
      have : 1 * w ≤ digit * w := mul_le_mul_right w (by omega)
      have : kMaxI = 2 ^ 30 := rfl
      omega
    have hk' : k < 2 ^ 21 := by
      by_contra hge
      have : 2 ^ 21 * 2 ^ 21 ≤ k * k := Nat.mul_le_mul (by omega) (by omega)
      omega
    have hfactor : w * (36 - Punycode.threshold k bias) ≤ 2 ^ 30 * 35 :=
      Nat.mul_le_mul hw' (by omega)
    have hgrow : w * 10 ≤ w * (36 - Punycode.threshold k bias) :=
      mul_le_mul_left w (by omega)
    have hsq : (k + 36) * (k + 36) ≤ 4 * (k * k) := by nlinarith
    rw [u64_of_lt (by omega), u32_of_lt (by omega)]
    exact scanNextDelta_eq hbias input _ _ _ (by omega) (by omega) (by omega) (by omega)

/-! ## The bias -/

theorem biasLoop_eq (m : ℕ) : ∀ {delta bias : ℕ}, delta ≤ 455 * 35 ^ m → bias + 36 * m < 2 ^ 32 →
    biasLoop delta bias = .ok (adaptLoop delta bias) := by
  induction m with
  | zero =>
    intro delta bias h _
    rw [biasLoop, adaptLoop, if_neg (by omega), if_neg (by omega)]
  | succ m ih =>
    intro delta bias h hbias
    rw [biasLoop, adaptLoop]
    split_ifs
    · rw [u32_of_lt (by omega)]
      exact ih (by omega) (by omega)
    · rfl

/-- The bias is adapted without overflow. -/
theorem updateBias_eq (numChars : ℕ) {oldI : ℕ} (hle : oldI ≤ i) (hi : i ≤ kMaxI) :
    updateBias i oldI numChars = .ok (adapt (i - oldI) (numChars + 1) (oldI = 0)) ∧
      adapt (i - oldI) (numChars + 1) (oldI = 0) ≤ 2 ^ 31 := by
  have hmax : kMaxI = 2 ^ 30 := rfl
  obtain ⟨delta, hdelta, hbound⟩ : ∃ delta, (i - oldI) / (if oldI = 0 then 700 else 2) = delta ∧
      delta ≤ 2 ^ 29 := ⟨_, rfl, by split_ifs <;> omega⟩
  have hadapt : adapt (i - oldI) (numChars + 1) (oldI = 0)
      = (adaptLoop (delta + delta / (numChars + 1)) 0).2
        + 36 * (adaptLoop (delta + delta / (numChars + 1)) 0).1
          / ((adaptLoop (delta + delta / (numChars + 1)) 0).1 + 38) := by
    rw [adapt, ← hdelta]
    by_cases h : oldI = 0 <;> simp [h]
  have hsum : delta + delta / (numChars + 1) ≤ 2 ^ 30 := by
    have := div_le_self delta (numChars + 1)
    omega
  obtain ⟨h1, h2⟩ := adaptLoop_le 5 (delta + delta / (numChars + 1)) 0
    (by omega)
  have hdiv : 36 * (adaptLoop (delta + delta / (numChars + 1)) 0).1
      / ((adaptLoop (delta + delta / (numChars + 1)) 0).1 + 38) ≤ 36 * 455 :=
    (div_le_self _ _).trans (mul_le_mul_left 36 h1)
  refine ⟨?_, by rw [hadapt]; omega⟩
  rw [updateBias, sub, if_pos hle, ok_bind, hdelta]
  dsimp only
  rw [u32_of_lt (by omega), ok_bind, biasLoop_eq 5 (by omega) (by norm_num), ok_bind,
    hadapt, u32_of_lt (by omega), ok_bind, u32_of_lt (by omega)]

/-! ## Characters -/

/-- The UTF-8 encoding of code points. -/
def utf8 (chars : List ℕ) : List UInt8 :=
  chars.flatMap fun n => String.utf8EncodeChar (Char.ofNat n)

theorem utf8_append (a b : List ℕ) : utf8 (a ++ b) = utf8 a ++ utf8 b := flatMap_append

theorem utf8_cons (n : ℕ) (b : List ℕ) :
    utf8 (n :: b) = String.utf8EncodeChar (Char.ofNat n) ++ utf8 b := flatMap_cons

theorem or_eq_add {k a : ℕ} (h : x < 2 ^ k) : 2 ^ k * a ||| x = x + 2 ^ k * a := by
  rw [← two_pow_add_eq_or_of_lt h, add_comm]

variable {n : ℕ}

theorem val_ofNat (h : n.isValidChar) : (Char.ofNat n).val.toNat = n := by
  rw [Char.ofNat, dif_pos h]
  rfl

/-- The code point is encoded as UTF-8. -/
theorem utf8ForCodePoint_eq (h : n.isValidChar) :
    utf8ForCodePoint n = String.utf8EncodeChar (Char.ofNat n) := by
  have hand : ∀ x, 0x80 ||| (x &&& 0x3f) = x % 64 + 128 := by
    intro x
    rw [show x &&& 0x3f = x % 2 ^ 6 from and_two_pow_sub_one_eq_mod x 6]
    exact or_eq_add (k := 6) (a := 2) (mod_lt _ (by norm_num))
  rw [utf8ForCodePoint, String.utf8EncodeChar, val_ofNat h]
  simp only [hand, shiftRight_eq_div_pow]
  split_ifs with h1 h2 h3 h4 h5
  · rfl
  · rw [show 0xc0 ||| n / 2 ^ 6 = n / 2 ^ 6 + 192 from or_eq_add (k := 6) (a := 3) (by omega),
      mod_eq_of_lt (show n / 64 < 32 by omega)]
    rfl
  · exact absurd h (by rw [Nat.isValidChar]; omega)
  · exact absurd h (by rw [Nat.isValidChar]; omega)
  · rw [show 0xe0 ||| n / 2 ^ 12 = n / 2 ^ 12 + 224 from or_eq_add (k := 5) (a := 7) (by omega),
      mod_eq_of_lt (show n / 4096 < 16 by omega)]
    rfl
  · exact absurd h (by rw [Nat.isValidChar]; omega)
  · rw [show 0xf0 ||| n / 2 ^ 18 = n / 2 ^ 18 + 240 from or_eq_add (k := 4) (a := 15) (by omega),
      mod_eq_of_lt (show n / 262144 < 8 by omega)]
    rfl

theorem utf8ForCodePoint_length (h : n.isValidChar) :
    0 < (utf8ForCodePoint n).length ∧ (utf8ForCodePoint n).length ≤ 4 := by
  rw [utf8ForCodePoint_eq h, String.utf8EncodeChar]
  split_ifs <;> simp

theorem utf8ForCodePoint_nil (h : ¬ n.isValidChar) : (utf8ForCodePoint n).length = 0 := by
  rw [utf8ForCodePoint, if_neg (by omega), if_neg (by omega)]
  by_cases hs : 0xd800 ≤ n ∧ n ≤ 0xdfff
  · rw [if_pos hs]
    rfl
  · rw [if_neg hs, if_neg (by omega), if_pos (by omega)]
    rfl

/-! ## Insertion -/

/-- The bytes at `A.length` make room for `X`. -/
theorem memmove_put {A B C X : List UInt8} (h : X.length ≤ C.length) :
    ∃ buf, memmove (A ++ B ++ C) (A.length + X.length) A.length B.length = some buf ∧
      put buf A.length X = some (A ++ X ++ B ++ C.drop X.length) := by
  have hmove : ((A ++ B ++ C).drop A.length).take B.length = B := by
    rw [append_assoc, drop_left, take_left]
  have hdrop : (A ++ B ++ C).drop (A.length + X.length + B.length) = C.drop X.length := by
    rw [show A.length + X.length + B.length = (A ++ B).length + X.length by simp; omega,
      drop_append, drop_of_length_le (by omega), nil_append, Nat.add_sub_cancel_left]
  have htake : ((A ++ B ++ C).take (A.length + X.length)).length = A.length + X.length := by
    rw [length_take, length_append, length_append]
    omega
  refine ⟨(A ++ B ++ C).take (A.length + X.length) ++ B ++ C.drop X.length, ?_, ?_⟩
  · rw [memmove, if_pos (by simp only [length_append]; omega), hmove, put,
      if_pos (by simp only [length_append]; omega), hdrop]
  · rw [put, if_pos (by simp only [length_append]; omega)]
    rw [append_assoc ((A ++ B ++ C).take _), take_append_of_le_length (by omega),
      take_take, min_eq_left (by omega), drop_left' htake, append_assoc A B C, take_left]
    simp only [append_assoc]

/-- The number of bytes of a character, less one. -/
def extra (n : ℕ) : ℕ := (String.utf8EncodeChar (Char.ofNat n)).length - 1

theorem sum_extra : ∀ {L : List ℕ}, (∀ n ∈ L, n.isValidChar) →
    L.length + (L.map extra).sum = (utf8 L).length
  | [], _ => rfl
  | n :: L, h => by
    obtain ⟨hn, hL⟩ := forall_mem_cons.1 h
    have hpos := (utf8ForCodePoint_length hn).1
    rw [utf8ForCodePoint_eq hn] at hpos
    rw [utf8_cons, length_append, ← sum_extra hL, map_cons, sum_cons, extra, length_cons]
    omega

theorem utf8_length_le : ∀ {L : List ℕ}, (∀ n ∈ L, n.isValidChar) → (utf8 L).length ≤ 4 * L.length
  | [], _ => le_refl 0
  | n :: L, h => by
    obtain ⟨hn, hL⟩ := forall_mem_cons.1 h
    have hle := (utf8ForCodePoint_length hn).2
    have ih := utf8_length_le hL
    rw [utf8ForCodePoint_eq hn] at hle
    rw [utf8_cons, length_append, length_cons]
    omega

/-- A character is inserted with its length, and the bytes in front of it are counted. -/
theorem insert_extra {rep L R : List ℕ} (h : Fields 256 rep ((L ++ R).map extra))
    (hlen : (L ++ R).length < 256) (hL : ∀ n ∈ L, n.isValidChar) (hn : n.isValidChar) :
    ∃ rep', insertAndReturnSumOfPredecessors kMaxChars rep L.length (utf8ForCodePoint n).length
        = some ((utf8 L).length, rep') ∧ Fields 256 rep' ((L ++ n :: R).map extra) := by
  obtain ⟨hpos, hle⟩ := utf8ForCodePoint_length hn
  have hsum := sum_extra hL
  have hlt := utf8_length_le hL
  rw [map_append] at h
  rw [length_append] at hlen
  obtain ⟨rep', heq, h'⟩ := h.insert (by simpa using hlen) hpos hle
  rw [length_map, hsum, if_pos (by omega), mod_eq_of_lt (by omega)] at heq
  rw [utf8ForCodePoint_eq hn] at h'
  exact ⟨rep', heq, by rwa [map_append]⟩

/-! ## The invariant -/

/-- The variables stand for the characters. -/
structure Sim (s : State) (chars : List ℕ) : Prop where
  length_eq : chars.length = s.numChars
  valid : ∀ n ∈ chars, n.isValidChar
  total : s.totalUtf8Bytes = (utf8 chars).length
  text : utf8 chars ++ [0] <+: s.out
  i_le : s.i ≤ s.numChars
  bias_le : s.bias ≤ 2 ^ 31
  n_lt : s.n < 0x110000
  lengths : s.numChars ≤ 256 → Fields 256 s.utf8Lengths (chars.map extra)

variable {s : State}

/-- A character is inserted at its place. -/
theorem insertCharacter_spec {L R : List ℕ} (h : Sim s (L ++ R)) (hlt : s.numChars < 256)
    (hn : n.isValidChar)
    (hfits : s.totalUtf8Bytes + (utf8ForCodePoint n).length + 1 ≤ s.out.length) :
    ∃ rep out, insertCharacter L.length (utf8ForCodePoint n) s = .ok (rep, out) ∧
      Fields 256 rep ((L ++ n :: R).map extra) ∧ utf8 (L ++ n :: R) ++ [0] <+: out ∧
      out.length = s.out.length := by
  obtain ⟨tail, htail⟩ := h.text
  have htotal := h.total
  rw [utf8_append] at htotal
  rw [length_append] at htotal
  obtain ⟨rep, hrep, hlengths⟩ := insert_extra (h.lengths hlt.le) (by rw [h.length_eq]; exact hlt)
    (fun m hm => h.valid m (mem_append_left R hm)) hn
  have hout : s.out = utf8 L ++ (utf8 R ++ [0]) ++ tail := by
    rw [← htail, utf8_append]
    simp only [append_assoc]
  have htaillen : (utf8ForCodePoint n).length ≤ tail.length := by
    rw [hout] at hfits
    simp only [length_append, length_singleton] at hfits
    omega
  obtain ⟨buf, hmove, hput⟩ := memmove_put htaillen
  rw [← hout] at hmove
  refine ⟨rep, utf8 L ++ utf8ForCodePoint n ++ (utf8 R ++ [0])
    ++ tail.drop (utf8ForCodePoint n).length, ?_, hlengths, ?_, ?_⟩
  · rw [insertCharacter, hrep]
    change (sub _ _ >>= _) = _
    rw [sub, if_pos (by omega), ok_bind, htotal,
      show (utf8 L).length + (utf8 R).length + 1 - (utf8 L).length = (utf8 R ++ [0]).length by
        rw [length_append, length_singleton]; omega, hmove]
    change (orFault (put _ _ _) >>= _) = _
    rw [hput]
    rfl
  · rw [utf8_append, utf8_cons, ← utf8ForCodePoint_eq hn]
    exact ⟨tail.drop (utf8ForCodePoint n).length, by simp only [append_assoc]⟩
  · rw [hout]
    simp only [length_append, length_drop]
    omega

/-! ## The rounds -/

theorem decodeStep_full (h : 256 ≤ s.numChars) : decodeStep s = .error .null := if_pos h

theorem not_full (h : s.numChars < 256) : ¬ s.numChars ≥ kMaxChars := not_le.2 h

variable {chars : List ℕ}

theorem decodeStep_scan (h : Sim s chars) (hlt : s.numChars < 256) :
    scanNextDelta s.bias 36 1 s.i s.punycode = capped (scanDelta s.bias 36 1 s.i s.punycode) := by
  have hi := h.i_le
  refine scanNextDelta_eq h.bias_le s.punycode 36 1 s.i le_rfl le_rfl (by norm_num) ?_
  rw [kMaxI]
  omega

/-- The step fails if there is no delta. -/
theorem decodeStep_none (h : Sim s chars) (hlt : s.numChars < 256)
    (hscan : scanDelta s.bias 36 1 s.i s.punycode = none) : decodeStep s = .error .null := by
  rw [decodeStep, if_neg (not_full hlt), decodeStep_scan h hlt, hscan]
  rfl

variable {rest : List UInt8}

/-- A round with a delta inserts the character, if it is valid and fits. -/
theorem decodeStep_spec (h : Sim s chars) (hlt : s.numChars < 256) {j : ℕ}
    (hscan : scanDelta s.bias 36 1 s.i s.punycode = some (j, rest)) {p : ℕ}
    (hn : n = s.n + j / (s.numChars + 1)) (hp : p = j % (s.numChars + 1))
    (hb : bias = adapt (j - s.i) (s.numChars + 1) (s.i = 0)) :
    (n.isValidChar → (utf8 (chars.insertIdx p n)).length + 1 ≤ s.out.length →
      ∃ rep out, decodeStep s = .ok ⟨rest, n, p + 1, bias, s.numChars + 1,
          (utf8 (chars.insertIdx p n)).length, rep, out⟩ ∧ out.length = s.out.length ∧
        Sim ⟨rest, n, p + 1, bias, s.numChars + 1, (utf8 (chars.insertIdx p n)).length, rep, out⟩
          (chars.insertIdx p n)) ∧
      (¬ (n.isValidChar ∧ (utf8 (chars.insertIdx p n)).length + 1 ≤ s.out.length) →
        decodeStep s = .error .null) := by
  have hple : p ≤ chars.length := by
    rw [h.length_eq, hp]
    exact le_of_lt_succ (mod_lt _ (succ_pos _))
  obtain ⟨L, R, rfl, hL⟩ := exists_append hple
  have hbytes : n.isValidChar → (utf8 ((L ++ R).insertIdx p n)).length
      = s.totalUtf8Bytes + (utf8ForCodePoint n).length := by
    intro hvalid
    rw [← hL, insertIdx_append, h.total, utf8ForCodePoint_eq hvalid, utf8_append, utf8_cons,
      utf8_append]
    simp only [length_append]
    omega
  have hsmall : s.totalUtf8Bytes ≤ 1024 := by
    have := utf8_length_le h.valid
    rw [← h.total, h.length_eq] at this
    omega
  have hscan' := decodeStep_scan h hlt
  rw [hscan, capped] at hscan'
  have hmax : kMaxI = 2 ^ 30 := rfl
  have hnlt := h.n_lt
  split_ifs at hscan' with hj
  · obtain ⟨hbias, hbiasle⟩ := updateBias_eq s.numChars (scanDelta_spec hscan).1 hj
    have hdiv := div_le_self j (s.numChars + 1)
    have hstep : decodeStep s = (if (utf8ForCodePoint n).length = 0 then .error .null
        else do
          let size ← u32 (s.totalUtf8Bytes + (utf8ForCodePoint n).length + 1)
          if size > s.out.length then .error .null
          else do
            let x ← insertCharacter p (utf8ForCodePoint n) s
            .ok ⟨rest, n, p + 1, bias, s.numChars + 1,
              s.totalUtf8Bytes + (utf8ForCodePoint n).length, x.1, x.2⟩) := by
      rw [decodeStep, if_neg (not_full hlt), hscan', ok_bind]
      dsimp only
      rw [hbias, ok_bind, u32_of_lt (by omega), ok_bind, hn, hp, hb]
    by_cases hvalid : n.isValidChar
    · obtain ⟨hpos, hle⟩ := utf8ForCodePoint_length hvalid
      rw [if_neg (by omega), u32_of_lt (by omega), ok_bind] at hstep
      rw [hbytes hvalid]
      refine ⟨fun _ hfits => ?_, fun hnot => ?_⟩
      · rw [if_neg (by omega)] at hstep
        obtain ⟨rep, out, hins, hlengths, htext, hlen⟩ := insertCharacter_spec h hlt hvalid hfits
        rw [hL] at hins
        rw [hins] at hstep
        refine ⟨rep, out, hstep, hlen, ?_⟩
        rw [← hL, insertIdx_append]
        refine ⟨?_, ?_, ?_, htext, ?_, by rw [hb]; exact hbiasle, ?_, fun _ => hlengths⟩
        · have := h.length_eq
          simp only [length_append, length_cons] at this ⊢
          omega
        · obtain ⟨hl, hr⟩ := forall_mem_append.1 h.valid
          exact forall_mem_append.2 ⟨hl, forall_mem_cons.2 ⟨hvalid, hr⟩⟩
        · have := hbytes hvalid
          rw [← hL, insertIdx_append] at this
          exact this.symm
        · have := h.length_eq
          exact succ_le_succ (by omega)
        · show n < 0x110000
          omega
      · rw [hstep, if_pos (by omega)]
    · rw [if_pos (utf8ForCodePoint_nil hvalid)] at hstep
      exact ⟨fun hv => absurd hv hvalid, fun _ => hstep⟩
  · have hnull : decodeStep s = .error .null := by
      rw [decodeStep, if_neg (not_full hlt), hscan']
      rfl
    -- the code point would be too large
    have hinvalid : ¬ n.isValidChar := by
      have hlarge : 2 ^ 22 ≤ j / (s.numChars + 1) := by
        rw [le_div_iff_mul_le (succ_pos _)]
        omega
      omega
    exact ⟨fun hv => absurd hv hinvalid, fun _ => hnull⟩

/-- The rounds that are left insert `ins`. -/
structure Continues (s : State) (chars : List ℕ) (ins : List (ℕ × ℕ)) : Prop where
  insertions : Punycode.insertions s.n s.i s.bias s.numChars s.punycode = some ins
  valid : ∀ x ∈ ins, x.1.isValidChar
  room : ∀ k < ins.length, s.numChars + k < 256
  fits : (utf8 (Punycode.build chars ins)).length + 1 ≤ s.out.length

theorem le_utf8_insertIdx (n p : ℕ) (chars : List ℕ) :
    (utf8 chars).length ≤ (utf8 (chars.insertIdx p n)).length := by
  rcases lt_or_ge chars.length p with hlt | hge
  · rw [insertIdx_of_length_lt hlt]
  · obtain ⟨L, R, rfl, rfl⟩ := exists_append hge
    rw [insertIdx_append, utf8_append, utf8_append, utf8_cons]
    simp only [length_append]
    omega

theorem le_utf8_build : ∀ ins chars,
    (utf8 chars).length ≤ (utf8 (build chars ins)).length
  | [], _ => le_rfl
  | x :: ins, chars => (le_utf8_insertIdx x.1 x.2 chars).trans (le_utf8_build ins _)

theorem decodeLoop_nil (fuel : ℕ) (h : s.punycode = []) : decodeLoop fuel s = .ok s := by
  rw [decodeLoop.eq_def]
  exact if_pos h

theorem decodeLoop_succ (fuel : ℕ) (h : s.punycode ≠ []) :
    decodeLoop (fuel + 1) s = decodeStep s >>= decodeLoop fuel := by
  exact if_neg h

/-- Without input there is nothing left to insert. -/
theorem decodeLoop_end (fuel : ℕ) (h : Sim s chars) (hnil : s.punycode = []) :
    (∀ ins, Continues s chars ins → ∃ s', decodeLoop fuel s = .ok s' ∧
        Sim s' (build chars ins) ∧ s'.out.length = s.out.length) ∧
      ((∀ ins, ¬ Continues s chars ins) → decodeLoop fuel s = .error .null) := by
  have hins : insertions s.n s.i s.bias s.numChars s.punycode = some [] := by
    rw [hnil, insertions_nil]
  refine ⟨fun ins hc => ⟨s, decodeLoop_nil fuel hnil, ?_, rfl⟩, fun hno => ?_⟩
  · obtain rfl := Option.some.inj (hins.symm.trans hc.insertions)
    exact h
  · refine absurd ⟨hins, by simp, by simp, ?_⟩ (hno [])
    have := h.text.length_le
    rwa [length_append] at this

/-- The first insertion of a run, and the others. -/
theorem Continues.cons_iff (t : State) (chars : List ℕ) (hnil : s.punycode ≠ []) {j : ℕ}
    (hscan : scanDelta s.bias 36 1 s.i s.punycode = some (j, rest)) {p : ℕ}
    (hn : n = s.n + j / (s.numChars + 1)) (hp : p = j % (s.numChars + 1))
    (ht : t.punycode = rest ∧ t.n = n ∧ t.i = p + 1 ∧
      t.bias = adapt (j - s.i) (s.numChars + 1) (s.i = 0) ∧ t.numChars = s.numChars + 1 ∧
      t.out.length = s.out.length) (ins : List (ℕ × ℕ)) :
    Continues s chars ins ↔ ∃ ins', ins = (n, p) :: ins' ∧ n.isValidChar ∧ s.numChars < 256 ∧
      Continues t (chars.insertIdx p n) ins' := by
  obtain ⟨h1, h2, h3, h4, h5, h6⟩ := ht
  have hins : Punycode.insertions s.n s.i s.bias s.numChars s.punycode
      = (Punycode.insertions t.n t.i t.bias t.numChars t.punycode).map ((n, p) :: ·) := by
    rw [insertions_cons hnil, hscan, h1, h2, h3, h4, h5, hn, hp]
    rfl
  constructor
  · intro h
    have heq := h.insertions
    rw [hins] at heq
    obtain ⟨ins', hins', rfl⟩ := Option.map_eq_some_iff.1 heq
    obtain ⟨hv, hvalid⟩ := forall_mem_cons.1 h.valid
    refine ⟨ins', rfl, hv, h.room 0 (succ_pos _), hins', hvalid, fun k hk => ?_, ?_⟩
    · have := h.room (k + 1) (succ_lt_succ hk)
      omega
    · rw [h6]
      exact h.fits
  · rintro ⟨ins', rfl, hv, hlt, hc⟩
    refine ⟨?_, forall_mem_cons.2 ⟨hv, hc.valid⟩, fun k hk => ?_, ?_⟩
    · rw [hins, hc.insertions]
      rfl
    · rcases k with _ | k
      · exact hlt
      · have := hc.room k (lt_of_succ_lt_succ hk)
        omega
    · rw [← h6]
      exact hc.fits

/-- The rounds insert what the decoder of the RFC inserts, or the input is not accepted. -/
theorem decodeLoop_spec : ∀ fuel {s : State} {chars : List ℕ}, Sim s chars →
    s.punycode.length ≤ fuel → (∀ ins, Continues s chars ins → ∃ s', decodeLoop fuel s = .ok s' ∧
        Sim s' (build chars ins) ∧ s'.out.length = s.out.length) ∧
      ((∀ ins, ¬ Continues s chars ins) → decodeLoop fuel s = .error .null) := by
  intro fuel
  induction fuel with
  | zero =>
    intro s chars h hlen
    exact decodeLoop_end 0 h (length_eq_zero_iff.1 (le_zero.1 hlen))
  | succ fuel ih =>
    intro s chars h hlen
    by_cases hnil : s.punycode = []
    · exact decodeLoop_end _ h hnil
    rw [decodeLoop_succ fuel hnil]
    -- no room for one more character, or no delta
    rcases lt_or_ge s.numChars 256 with hlt | hfull
    swap
    · rw [decodeStep_full hfull]
      refine ⟨fun ins hc => ?_, fun _ => rfl⟩
      rcases ins with _ | ⟨x, ins⟩
      · exact absurd hc.insertions (insertions_ne_nil hnil)
      · exact absurd (hc.room 0 (succ_pos _)) (by omega)
    rcases hscan : scanDelta s.bias 36 1 s.i s.punycode with _ | ⟨j, rest⟩
    · rw [decodeStep_none h hlt hscan]
      refine ⟨fun ins hc => ?_, fun _ => rfl⟩
      have := hc.insertions
      rw [insertions_cons hnil, hscan] at this
      cases this
    obtain ⟨hok, hnull⟩ := decodeStep_spec h hlt hscan rfl rfl rfl
    have hcons := fun t ht => Continues.cons_iff t chars hnil hscan rfl rfl ht
    by_cases hv : (s.n + j / (s.numChars + 1)).isValidChar ∧
      (utf8 (chars.insertIdx (j % (s.numChars + 1)) (s.n + j / (s.numChars + 1)))).length + 1
        ≤ s.out.length
    · obtain ⟨rep, out, hstep, hlen', hsim⟩ := hok hv.1 hv.2
      have hrest := (scanDelta_spec hscan).2.1
      obtain ⟨hrun, hstop⟩ := ih hsim (le_of_lt_succ (lt_of_lt_of_le hrest hlen))
      rw [hstep]
      refine ⟨fun ins hc => ?_, fun hno => hstop fun ins hc => ?_⟩
      · obtain ⟨ins', rfl, -, -, hc'⟩ := (hcons ⟨rest, _, _, _, _, _, rep, out⟩
          ⟨rfl, rfl, rfl, rfl, rfl, hlen'⟩ ins).1 hc
        obtain ⟨s', hs', hsim', hlen''⟩ := hrun ins' hc'
        exact ⟨s', hs', hsim', hlen''.trans hlen'⟩
      · exact hno _ ((hcons ⟨rest, _, _, _, _, _, rep, out⟩
          ⟨rfl, rfl, rfl, rfl, rfl, hlen'⟩ _).2 ⟨ins, rfl, hv.1, hlt, hc⟩)
    · rw [hnull hv]
      refine ⟨fun ins hc => ?_, fun _ => rfl⟩
      obtain ⟨ins', rfl, hvalid, -, hc'⟩ := (hcons ⟨rest, _, _, _, _, 0, [], s.out⟩
        ⟨rfl, rfl, rfl, rfl, rfl, rfl⟩ ins).1 hc
      have := le_utf8_build ins' (chars.insertIdx (j % (s.numChars + 1))
        (s.n + j / (s.numChars + 1)))
      have hfits := hc'.fits
      exact absurd ⟨hvalid, by dsimp only at hfits; omega⟩ hv

/-! ## The prefix -/

/-- The bytes of an identifier : `[0-9A-Za-z_]`. -/
def IdentifierByte (c : UInt8) : Prop :=
  c = 95 ∨ (97 ≤ c ∧ c ≤ 122) ∨ (65 ≤ c ∧ c ≤ 90) ∨ (48 ≤ c ∧ c ≤ 57)

theorem int_of_lt (h : x < 2 ^ 31) : int x = .ok x := if_pos h

variable {c : UInt8}

/-- One byte of an identifier is passed, if the index does not overflow. -/
theorem findLastUnderscore_cons (hc : IdentifierByte c) (i : ℕ) (last : Option ℕ)
    (input : List UInt8) : findLastUnderscore i last (c :: input) = int (i + 1) >>= fun i' =>
        findLastUnderscore i' (if c = 95 then some i else last) input := by
  rw [findLastUnderscore]
  by_cases h : c = 95
  · rw [if_pos h, if_pos h]
  · rw [if_neg h, if_neg h, if_pos (hc.resolve_left h)]

theorem findLastUnderscore_append : ∀ pre rest i last,
    (∀ c ∈ pre, IdentifierByte c) → i + pre.length < 2 ^ 31 →
    ∃ last', findLastUnderscore i last (pre ++ rest)
      = findLastUnderscore (i + pre.length) last' rest
  | [], rest, i, last, _, _ => ⟨last, rfl⟩
  | c :: pre, rest, i, last, h, hlt => by
    obtain ⟨hc, hpre⟩ := forall_mem_cons.1 h
    rw [length_cons] at hlt
    obtain ⟨last', heq⟩ := findLastUnderscore_append pre rest (i + 1)
      (if c = 95 then some i else last) hpre (by omega)
    refine ⟨last', ?_⟩
    rw [cons_append, findLastUnderscore_cons hc, int_of_lt (by omega), ok_bind, heq,
      length_cons, add_assoc, add_comm 1]

/-- Without an underscore the last one stays. -/
theorem findLastUnderscore_none : ∀ input i last,
    (∀ c ∈ input, IdentifierByte c) → 95 ∉ input → i + input.length < 2 ^ 31 →
    findLastUnderscore i last input = .ok last
  | [], i, last, _, _, _ => rfl
  | c :: input, i, last, h, hno, hlt => by
    obtain ⟨hc, hinput⟩ := forall_mem_cons.1 h
    rw [length_cons] at hlt
    have hne : c ≠ 95 := fun heq => hno (heq ▸ mem_cons_self)
    rw [findLastUnderscore_cons hc, int_of_lt (by omega), if_neg hne]
    exact findLastUnderscore_none input (i + 1) last hinput
      (fun hmem => hno (mem_cons_of_mem c hmem)) (by omega)

variable {pre deltas : List UInt8}

/-- The last underscore is found. -/
theorem findLastUnderscore_last (hpre : ∀ c ∈ pre, IdentifierByte c)
    (hdeltas : ∀ c ∈ deltas, IdentifierByte c) (hno : 95 ∉ deltas)
    (hlt : (pre ++ 95 :: deltas).length < 2 ^ 31) :
    findLastUnderscore 0 none (pre ++ 95 :: deltas) = .ok (some pre.length) := by
  rw [length_append, length_cons] at hlt
  obtain ⟨last', heq⟩ := findLastUnderscore_append pre (95 :: deltas) 0 none hpre (by omega)
  rw [heq, findLastUnderscore_cons (.inl rfl), int_of_lt (by omega), ok_bind, if_pos rfl,
    findLastUnderscore_none deltas _ _ hdeltas hno (by omega), zero_add]

/-- A byte that is not of an identifier fails. -/
theorem findLastUnderscore_null (hpre : ∀ c ∈ pre, IdentifierByte c) (hc : ¬ IdentifierByte c)
    (hlt : pre.length < 2 ^ 31) : findLastUnderscore 0 none (pre ++ c :: rest) = .error .null := by
  obtain ⟨last', heq⟩ := findLastUnderscore_append pre (c :: rest) 0 none hpre (by omega)
  rw [heq, findLastUnderscore, if_neg fun h => hc (.inl h), if_neg fun h => hc (.inr h)]

/-- The index overflows after `2 ^ 31` bytes. -/
theorem findLastUnderscore_fault (hlen : 2 ^ 31 ≤ input.length)
    (h : ∀ c ∈ input.take (2 ^ 31), IdentifierByte c) :
    findLastUnderscore 0 none input = .error .fault := by
  obtain ⟨pre, c, rest, rfl, hpre⟩ : ∃ pre c rest, input = pre ++ c :: rest ∧
      pre.length = 2 ^ 31 - 1 :=
    ⟨input.take _, input[2 ^ 31 - 1], input.drop _, by
      rw [getElem_cons_drop, take_append_drop], by rw [length_take]; omega⟩
  have htake : (pre ++ c :: rest).take (2 ^ 31) = pre ++ [c] := by
    rw [append_cons]
    exact take_left' (by rw [length_append, hpre]; norm_num)
  rw [htake] at h
  obtain ⟨last', heq⟩ := findLastUnderscore_append pre (c :: rest) 0 none
    (fun b hb => h b (mem_append_left _ hb)) (by omega)
  rw [heq, findLastUnderscore_cons (h c (by simp)), int, if_neg (by omega)]
  rfl

/-! ## The decoder -/

/-- The input as an optional prefix and deltas. -/
def Splits (input pre deltas : List UInt8) : Prop :=
  (pre = [] ∧ input = deltas) ∨
    (pre ≠ [] ∧ (∀ c ∈ pre, IdentifierByte c) ∧ input = pre ++ 95 :: deltas)

/-- The input is the encoding of `text`, which fits into `size` bytes with its terminator. -/
def Accepts (input : List UInt8) (size : ℕ) (text : List UInt8) : Prop :=
  ∃ pre deltas ins, Splits input pre deltas ∧
    Punycode.insertions 128 0 72 pre.length deltas = some ins ∧ (∀ x ∈ ins, x.1.isValidChar) ∧
    (∀ k < ins.length, pre.length + k < 256) ∧
    text = utf8 (Punycode.build (pre.map UInt8.toNat) ins) ∧ text.length + 1 ≤ size

/-- The result of a call : the text of an input that is accepted, a null pointer for another. -/
def Decodes (input out : List UInt8) (r : Run (ℕ × List UInt8)) : Prop :=
  (∃ text out', Accepts input out.length text ∧ r = .ok (text.length, out') ∧
      out'.length = out.length ∧ text ++ [0] <+: out') ∨
    ((∀ text, ¬ Accepts input out.length text) ∧ r = .error .null)

/-- The index of the scan does not overflow : the buffer is empty, or the scan ends before. -/
def Scannable (input out : List UInt8) : Prop :=
  out = [] ∨ input.length < 2 ^ 31 ∨ ∃ c ∈ input.take (2 ^ 31), ¬ IdentifierByte c

theorem identifier_lt (h : IdentifierByte c) : c.toNat < 128 := by
  rw [IdentifierByte] at h
  simp only [UInt8.le_iff_toNat_le] at h
  rcases h with rfl | h
  · decide
  · simp at h
    omega

theorem identifier_of_digit (h : (Punycode.digitValue c).isSome) : IdentifierByte c ∧ c ≠ 95 := by
  rw [Punycode.digitValue] at h
  split_ifs at h with h1 h2 h3
  · exact ⟨.inr (.inl h1), by rintro rfl; exact absurd h1 (by decide)⟩
  · exact ⟨.inr (.inr (.inl h2)), by rintro rfl; exact absurd h2 (by decide)⟩
  · exact ⟨.inr (.inr (.inr h3)), by rintro rfl; exact absurd h3 (by decide)⟩
  · cases h

/-- Deltas that are accepted are letters and digits. -/
theorem deltas_identifier {len : ℕ} {ins : List (ℕ × ℕ)}
    (h : Punycode.insertions n i bias len deltas = some ins) :
    (∀ c ∈ deltas, IdentifierByte c) ∧ 95 ∉ deltas := by
  obtain ⟨hdigits, -⟩ := Punycode.insertions_spec deltas.length le_rfl h
  exact ⟨fun c hc => (identifier_of_digit (hdigits c hc)).1,
    fun hmem => (identifier_of_digit (hdigits 95 hmem)).2 rfl⟩

/-- What is accepted has bytes of identifiers only. -/
theorem Accepts.identifier {text : List UInt8} {size : ℕ} (h : Accepts input size text) :
    ∀ c ∈ input, IdentifierByte c := by
  obtain ⟨pre, deltas, ins, hsplit, hins, -⟩ := h
  obtain ⟨hdeltas, -⟩ := deltas_identifier hins
  rcases hsplit with ⟨-, rfl⟩ | ⟨-, hpre, rfl⟩
  · exact hdeltas
  · exact forall_mem_append.2 ⟨hpre, forall_mem_cons.2 ⟨.inl rfl, hdeltas⟩⟩

/-- The last underscore is where the prefix ends. -/
theorem append_underscore_inj {pre' deltas' : List UInt8} (hno : 95 ∉ deltas) (hno' : 95 ∉ deltas')
    (h : pre ++ 95 :: deltas = pre' ++ 95 :: deltas') : pre = pre' ∧ deltas = deltas' := by
  have key : ∀ {a b : List UInt8}, 95 ∉ a → ∀ as, 95 :: a = as ++ 95 :: b → as = [] ∧ a = b := by
    intro a b ha as heq
    rcases as with _ | ⟨x, as⟩
    · exact ⟨rfl, (cons.inj heq).2⟩
    · exact absurd (by rw [(cons.inj heq).2]; simp) ha
  rcases append_eq_append_iff.1 h with ⟨as, rfl, heq⟩ | ⟨as, rfl, heq⟩
  · obtain ⟨rfl, rfl⟩ := key hno as heq
    exact ⟨(append_nil pre).symm, rfl⟩
  · obtain ⟨rfl, rfl⟩ := key hno' as heq
    exact ⟨append_nil pre', rfl⟩

theorem utf8_ascii : ∀ {pre : List UInt8}, (∀ c ∈ pre, c.toNat < 128) →
    utf8 (pre.map UInt8.toNat) = pre ∧
      (pre.map UInt8.toNat).map extra = replicate pre.length 0
  | [], _ => ⟨rfl, rfl⟩
  | c :: pre, h => by
    obtain ⟨hc, hpre⟩ := forall_mem_cons.1 h
    obtain ⟨h1, h2⟩ := utf8_ascii hpre
    have hchar : String.utf8EncodeChar (Char.ofNat c.toNat) = [c] := by
      rw [String.utf8EncodeChar, val_ofNat (.inl (by omega)), if_pos (by omega), UInt8.ofNat_toNat]
    rw [map_cons, utf8_cons, h1, map_cons, h2, extra, hchar]
    exact ⟨rfl, rfl⟩

/-- The variables before the loop stand for the prefix. -/
theorem sim_start (deltas : List UInt8) {out0 : List UInt8} (hpre : ∀ c ∈ pre, IdentifierByte c)
    (htext : pre ++ [0] <+: out0) :
    Sim ⟨deltas, 128, 0, 72, pre.length, pre.length, replicate (kMaxChars / 32) 0, out0⟩
      (pre.map UInt8.toNat) := by
  have hascii : ∀ c ∈ pre, c.toNat < 128 := fun c hc => identifier_lt (hpre c hc)
  obtain ⟨hutf8, hextra⟩ := utf8_ascii hascii
  refine ⟨length_map _, ?_, by rw [hutf8], by rw [hutf8]; exact htext, zero_le _,
    by norm_num, by norm_num, fun hlen => by rw [hextra]; exact .zero (by decide) hlen⟩
  intro n hn
  obtain ⟨c, hc, rfl⟩ := mem_map.1 hn
  have := hascii c hc
  exact .inl (by omega)

variable {out : List UInt8}

/-- The rounds after a prefix decode the input. -/
theorem decodeLoop_decodes {out0 : List UInt8} (hsplit : Splits input pre deltas)
    (hpre : ∀ c ∈ pre, IdentifierByte c) (honly : ∀ pre' deltas' ins, Splits input pre' deltas' →
      insertions 128 0 72 pre'.length deltas' = some ins → pre' = pre ∧ deltas' = deltas)
    (hlen : out0.length = out.length) (htext : pre ++ [0] <+: out0) :
    Decodes input out (decodeLoop deltas.length
        ⟨deltas, 128, 0, 72, pre.length, pre.length, replicate (kMaxChars / 32) 0, out0⟩
      >>= fun s => .ok (s.totalUtf8Bytes, s.out)) := by
  have hsim := sim_start deltas hpre htext
  obtain ⟨hrun, hstop⟩ := decodeLoop_spec deltas.length hsim le_rfl
  have hiff : ∀ text, Accepts input out.length text ↔ ∃ ins, Continues ⟨deltas, 128, 0, 72,
      pre.length, pre.length, replicate (kMaxChars / 32) 0, out0⟩ (pre.map UInt8.toNat) ins ∧
      text = utf8 (build (pre.map UInt8.toNat) ins) := by
    intro text
    constructor
    · rintro ⟨pre', deltas', ins, hsplit', hins, hvalid, hroom, rfl, hfits⟩
      obtain ⟨rfl, rfl⟩ := honly pre' deltas' ins hsplit' hins
      exact ⟨ins, ⟨hins, hvalid, hroom, by rw [hlen]; exact hfits⟩, rfl⟩
    · rintro ⟨ins, hc, rfl⟩
      exact ⟨pre, deltas, ins, hsplit, hc.insertions, hc.valid, hc.room, rfl,
        by rw [← hlen]; exact hc.fits⟩
  by_cases hex : ∃ ins, Continues ⟨deltas, 128, 0, 72, pre.length, pre.length,
      replicate (kMaxChars / 32) 0, out0⟩ (pre.map UInt8.toNat) ins
  · obtain ⟨ins, hc⟩ := hex
    obtain ⟨s', hs', hsim', hlen'⟩ := hrun ins hc
    refine .inl ⟨_, s'.out, (hiff _).2 ⟨ins, hc, rfl⟩, ?_, hlen'.trans hlen, hsim'.text⟩
    rw [hs', ok_bind, hsim'.total]
  · refine .inr ⟨fun text haccept => ?_, ?_⟩
    · obtain ⟨ins, hc, -⟩ := (hiff text).1 haccept
      exact hex ⟨ins, hc⟩
    · rw [hstop fun ins hc => hex ⟨ins, hc⟩, error_bind]

theorem put_zero (hne : out ≠ []) : put out 0 [0] = some (0 :: out.drop 1) := by
  have hpos := length_pos_iff.2 hne
  rw [put, if_pos (by rw [length_singleton]; omega)]
  rfl

/-- The terminator is written first. -/
theorem decodeRustPunycode_eq (input : List UInt8) (hne : out ≠ []) : decodeRustPunycode input out
      = (consumeOptionalAsciiPrefix input (0 :: out.drop 1) >>= fun r =>
        decodeLoop r.2.1.length ⟨r.2.1, 128, 0, 72, r.1, r.1, replicate (kMaxChars / 32) 0,
          r.2.2⟩ >>= fun s => .ok (s.totalUtf8Bytes, s.out)) := by
  rw [decodeRustPunycode, if_neg (mt length_eq_zero_iff.1 hne), put_zero hne]
  rfl

/-- The first byte that is not one of an identifier. -/
theorem exists_first_invalid (h : ∃ c ∈ input, ¬ IdentifierByte c) :
    ∃ pre c rest, input = pre ++ c :: rest ∧ (∀ b ∈ pre, IdentifierByte b) ∧
      ¬ IdentifierByte c := by
  classical
  obtain ⟨c, hfind⟩ := Option.isSome_iff_exists.1
    ((find?_isSome (p := fun c => ¬ IdentifierByte c)).2 (by simpa using h))
  obtain ⟨hc, pre, rest, rfl, hpre⟩ := find?_eq_some_iff_append.1 hfind
  exact ⟨pre, c, rest, rfl, by simpa using hpre, by simpa using hc⟩

theorem decodeRustPunycode_null (h : ∃ c ∈ input.take (2 ^ 31), ¬ IdentifierByte c) :
    Decodes input out (decodeRustPunycode input out) := by
  refine .inr ⟨fun text haccept => ?_, ?_⟩
  · obtain ⟨c, hc, hcn⟩ := h
    exact hcn (haccept.identifier c (mem_of_mem_take hc))
  obtain ⟨pre, c, rest, htake, hpre, hc⟩ := exists_first_invalid h
  have hlt : pre.length < 2 ^ 31 := by
    have := congrArg length htake
    rw [length_take, length_append, length_cons] at this
    omega
  have hinput : input = pre ++ c :: (rest ++ input.drop (2 ^ 31)) := by
    rw [← cons_append, ← append_assoc, ← htake, take_append_drop]
  by_cases hne : out = []
  · rw [hne]
    rfl
  rw [decodeRustPunycode_eq input hne, consumeOptionalAsciiPrefix, hinput,
    findLastUnderscore_null hpre hc hlt]
  rfl

/-- Without an underscore all of the input is deltas. -/
theorem decodeRustPunycode_deltas (hlen : input.length < 2 ^ 31)
    (hident : ∀ c ∈ input, IdentifierByte c) (hno : 95 ∉ input) (hne : out ≠ []) :
    Decodes input out (decodeRustPunycode input out) := by
  have hrun : decodeRustPunycode input out = (decodeLoop input.length ⟨input, 128, 0, 72, 0, 0,
      replicate (kMaxChars / 32) 0, 0 :: out.drop 1⟩
      >>= fun s => .ok (s.totalUtf8Bytes, s.out)) := by
    rw [decodeRustPunycode_eq input hne, consumeOptionalAsciiPrefix,
      findLastUnderscore_none input 0 none hident hno (by omega)]
    rfl
  rw [hrun]
  have hsplit : Splits input [] input := .inl ⟨rfl, rfl⟩
  refine decodeLoop_decodes hsplit (by simp) ?_ ?_ ⟨out.drop 1, rfl⟩
  · rintro pre' deltas' ins (⟨rfl, rfl⟩ | ⟨-, -, rfl⟩) -
    · exact ⟨rfl, rfl⟩
    · exact absurd (mem_append_right pre' mem_cons_self) hno
  · rw [length_cons, length_drop]
    have := length_pos_iff.2 hne
    omega

/-- What is before the last underscore is the prefix. -/
theorem splits_only (hno : 95 ∉ deltas) {pre' deltas' : List UInt8} {ins : List (ℕ × ℕ)}
    (hsplit : Splits (pre ++ 95 :: deltas) pre' deltas')
    (hins : insertions 128 0 72 pre'.length deltas' = some ins) :
    pre' ≠ [] ∧ pre' = pre ∧ deltas' = deltas := by
  obtain ⟨-, hno'⟩ := deltas_identifier hins
  rcases hsplit with ⟨-, rfl⟩ | ⟨hne, -, heq⟩
  · exact absurd (mem_append_right pre mem_cons_self) hno'
  · obtain ⟨rfl, rfl⟩ := append_underscore_inj hno hno' heq
    exact ⟨hne, rfl, rfl⟩

theorem decodeRustPunycode_prefix (hlen : (pre ++ 95 :: deltas).length < 2 ^ 31)
    (hpre : ∀ c ∈ pre, IdentifierByte c) (hdeltas : ∀ c ∈ deltas, IdentifierByte c)
    (hno : 95 ∉ deltas) (hne : out ≠ []) :
    Decodes (pre ++ 95 :: deltas) out (decodeRustPunycode (pre ++ 95 :: deltas) out) := by
  have hscan := findLastUnderscore_last hpre hdeltas hno hlen
  have hzero : (0 :: out.drop 1).length = out.length := by
    rw [length_cons, length_drop]
    have := length_pos_iff.2 hne
    omega
  rw [decodeRustPunycode_eq _ hne, consumeOptionalAsciiPrefix, hscan, ok_bind]
  rcases hl : pre.length with _ | l
  · -- an underscore in front
    refine .inr ⟨?_, rfl⟩
    rintro text ⟨pre', deltas', ins, hsplit, hins, -⟩
    obtain ⟨hne', rfl, -⟩ := splits_only hno hsplit hins
    exact hne' (length_eq_zero_iff.1 hl)
  dsimp only
  split_ifs with hroom
  · refine .inr ⟨?_, rfl⟩
    rintro text ⟨pre', deltas', ins, hsplit, hins, -, -, rfl, hfits⟩
    obtain ⟨-, rfl, -⟩ := splits_only hno hsplit hins
    have hle := le_utf8_build ins (pre'.map UInt8.toNat)
    rw [(utf8_ascii fun c hc => identifier_lt (hpre c hc)).1] at hle
    omega
  obtain ⟨buf, hbuf, hwritten⟩ : ∃ buf, put (0 :: out.drop 1) 0 pre = some buf ∧
      buf = pre ++ (0 :: out.drop 1).drop pre.length := by
    refine ⟨_, ?_, rfl⟩
    rw [put, if_pos (by omega), take_zero, nil_append, zero_add]
  have hbuflen : buf.length = out.length := by
    rw [hwritten, length_append, length_drop]
    omega
  have hput : put buf (l + 1) [0] = some (pre ++ [0] ++ buf.drop (pre.length + 1)) := by
    rw [put, if_pos (by rw [length_singleton]; omega), ← hl]
    congr 3
    rw [hwritten, take_left]
  rw [take_left' hl, hbuf]
  change Decodes _ _ ((orFault (put buf (l + 1) [0]) >>= _) >>= _)
  rw [hput]
  have hdrop : (pre ++ 95 :: deltas).drop (l + 1 + 1) = deltas := by
    rw [append_cons]
    exact drop_left' (by rw [length_append, hl]; rfl)
  rw [hdrop, ← hl]
  refine decodeLoop_decodes (.inr ⟨?_, hpre, rfl⟩) hpre ?_ ?_ ⟨_, rfl⟩
  · rintro rfl
    cases hl
  · intro pre' deltas' ins hsplit hins
    exact (splits_only hno hsplit hins).2
  · rw [length_append, length_append, length_drop, length_singleton]
    omega

/-- The index overflows in a scan of `2 ^ 31` bytes of an identifier. -/
theorem decodeRustPunycode_fault (h : ¬ Scannable input out) :
    decodeRustPunycode input out = .error .fault := by
  rw [Scannable, not_or, not_or] at h
  obtain ⟨hne, hlen, hall⟩ := h
  have hident : ∀ c ∈ input.take (2 ^ 31), IdentifierByte c := by
    intro c hc
    by_contra hcn
    exact hall ⟨c, hc, hcn⟩
  rw [decodeRustPunycode_eq input hne, consumeOptionalAsciiPrefix,
    findLastUnderscore_fault (Nat.le_of_not_lt hlen) hident]
  rfl

theorem not_decodes_fault (input out : List UInt8) : ¬ Decodes input out (.error .fault) := by
  rintro (⟨text, out', -, heq, -⟩ | ⟨-, heq⟩)
  · cases heq
  · cases heq

theorem decodeRustPunycode_scannable (h : Scannable input out) :
    Decodes input out (decodeRustPunycode input out) := by
  by_cases hne : out = []
  · subst hne
    refine .inr ⟨?_, rfl⟩
    rintro text ⟨pre, deltas, ins, -, -, -, -, -, hfits⟩
    cases hfits
  by_cases hbad : ∃ c ∈ input.take (2 ^ 31), ¬ IdentifierByte c
  · exact decodeRustPunycode_null hbad
  have hlen : input.length < 2 ^ 31 := (h.resolve_left hne).resolve_right hbad
  have hident : ∀ c ∈ input, IdentifierByte c := by
    intro c hc
    by_contra hcn
    exact hbad ⟨c, by rwa [take_of_length_le hlen.le], hcn⟩
  by_cases hmem : (95 : UInt8) ∈ input
  · obtain ⟨as, bs, hrev, hnot⟩ := eq_append_cons_of_mem (mem_reverse.2 hmem)
    obtain rfl : input = bs.reverse ++ 95 :: as.reverse := by
      rw [← reverse_reverse input, hrev]
      simp
    exact decodeRustPunycode_prefix hlen (fun c hc => hident c (mem_append_left _ hc))
      (fun c hc => hident c (mem_append_right _ (mem_cons_of_mem _ hc)))
      (by rwa [mem_reverse]) hne
  · exact decodeRustPunycode_deltas hlen hident hmem hne

/-- A call decodes its input if and only if the index of the scan for the prefix does not
overflow. -/
theorem decodeRustPunycode_decodes_iff (input out : List UInt8) :
    Decodes input out (decodeRustPunycode input out) ↔ Scannable input out := by
  constructor
  · intro h
    by_contra hnot
    rw [decodeRustPunycode_fault hnot] at h
    exact not_decodes_fault input out h
  · exact decodeRustPunycode_scannable

/-- An input encodes one text. -/
theorem Accepts.unique {size size' : ℕ} {text text' : List UInt8} (h : Accepts input size text)
    (h' : Accepts input size' text') : text = text' := by
  obtain ⟨pre, deltas, ins, hsplit, hins, -, -, rfl, -⟩ := h
  obtain ⟨pre', deltas', ins', hsplit', hins', -, -, rfl, -⟩ := h'
  obtain ⟨rfl, rfl⟩ : pre' = pre ∧ deltas' = deltas := by
    rcases hsplit with ⟨rfl, rfl⟩ | ⟨-, -, rfl⟩
    · rcases hsplit' with ⟨rfl, rfl⟩ | ⟨-, -, rfl⟩
      · exact ⟨rfl, rfl⟩
      · exact absurd (mem_append_right pre' mem_cons_self) (deltas_identifier hins).2
    · exact (splits_only (deltas_identifier hins).2 hsplit' hins').2
  rw [Option.some.inj (hins.symm.trans hins')]

theorem utf8EncodeChar_pos (n : ℕ) : 0 < (String.utf8EncodeChar (Char.ofNat n)).length := by
  rw [String.length_utf8EncodeChar]
  exact Char.utf8Size_pos _

theorem head?_utf8EncodeChar (h : n.isValidChar) (hne : n ≠ 123) :
    (String.utf8EncodeChar (Char.ofNat n)).head? ≠ some 123 := by
  rw [String.utf8EncodeChar, val_ofNat h]
  split_ifs <;>
  simp [← UInt8.toNat_inj] <;>
  omega

/-- The text of an input that is not empty is not empty and does not start with a brace. -/
theorem Accepts.head {size : ℕ} {text : List UInt8} (h : Accepts input size text)
    (hne : input ≠ []) : ∃ c, text.head? = some c ∧ c ≠ 123 := by
  obtain ⟨pre, deltas, ins, hsplit, hins, hvalid, -, rfl, -⟩ := h
  have hpre : ∀ c ∈ pre, IdentifierByte c := by
    rcases hsplit with ⟨rfl, -⟩ | ⟨-, h, -⟩
    · simp
    · exact h
  have hchars : ∀ x ∈ build (pre.map UInt8.toNat) ins, x.isValidChar ∧ x ≠ 123 := by
    intro x hx
    rcases mem_build hx with hx | ⟨y, hy, rfl⟩
    · obtain ⟨c, hc, rfl⟩ := mem_map.1 hx
      refine ⟨.inl (by have := identifier_lt (hpre c hc); omega), fun heq => ?_⟩
      obtain rfl : c = 123 := UInt8.toNat_inj.1 heq
      exact absurd (hpre 123 hc) (by rw [IdentifierByte]; decide)
    · have := (insertions_spec deltas.length le_rfl hins).2 y hy
      exact ⟨hvalid y hy, by omega⟩
  cases hbuild : build (pre.map UInt8.toNat) ins with
  | nil =>
    -- the prefix and the first insertion stay in the text
    have hle := le_utf8_build ins (pre.map UInt8.toNat)
    rw [hbuild, (utf8_ascii fun c hc => identifier_lt (hpre c hc)).1] at hle
    obtain rfl : pre = [] := length_eq_zero_iff.1 (Nat.le_zero.1 hle)
    obtain rfl : input = deltas := (hsplit.resolve_right fun h => h.1 rfl).2
    rw [insertions_cons hne] at hins
    obtain ⟨r, -, hr⟩ := Option.bind_eq_some_iff.1 hins
    obtain ⟨ins, -, rfl⟩ := Option.map_eq_some_iff.1 hr
    have hbuild' : build [128 + r.1] ins = [] := by simpa [build, Nat.mod_one] using hbuild
    have hle := le_utf8_build ins [128 + r.1]
    have hpos := utf8EncodeChar_pos (128 + r.1)
    rw [hbuild', utf8_cons, length_append] at hle
    exact absurd hle (by simp [utf8]; omega)
  | cons x xs =>
    obtain ⟨hx, hbrace⟩ := hchars x (by simp [hbuild])
    obtain ⟨c, cs, hc⟩ := exists_cons_of_ne_nil (length_pos_iff.1 (utf8EncodeChar_pos x))
    refine ⟨c, by rw [utf8_cons, hc]; rfl, ?_⟩
    rintro rfl
    exact head?_utf8EncodeChar hx hbrace (by rw [hc]; rfl)

/-- The scan of `2 ^ 31` letters overflows its index. -/
theorem decodeRustPunycode_overflow :
    decodeRustPunycode (replicate (2 ^ 31) 97) [0] = .error .fault ∧
      ¬ Decodes (replicate (2 ^ 31) 97) [0] (decodeRustPunycode (replicate (2 ^ 31) 97) [0]) := by
  have hnot : ¬ Scannable (replicate (2 ^ 31) 97) [0] := by
    rintro (h | h | ⟨c, hc, hcn⟩)
    · cases h
    · rw [length_replicate] at h
      exact lt_irrefl _ h
    · rw [eq_of_mem_replicate (mem_of_mem_take hc)] at hcn
      exact hcn (.inr (.inl (by decide)))
  rw [decodeRustPunycode_fault hnot]
  exact ⟨rfl, not_decodes_fault _ _⟩

end Abseil.RustPunycode
