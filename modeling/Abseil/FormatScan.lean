import Abseil.FormatGrammar

/-!
# Reading one conversion

Each part of `ConsumeConversion` has two lemmas. One says what it does on the text of a piece of
the grammar. The other lists its outcomes on any text : it stops, or it has read such a piece, or
it stands at a digit, which no later part accepts.
-/

namespace Abseil.StrFormat

open List Positional

/-! ## Tags -/

/-- A tag belongs to the character `n`. -/
def tagFits (n : ℕ) : ConvTag → Bool
  | .conv k => k ≠ .kNone ∧ k.byte.toNat = n
  | .length m => m.bytes.map UInt8.toNat = [n]
  | .flags b => [Flag.left, .showPos, .signCol, .alt, .zero].any fun f =>
    f.byte.toNat = n ∧ f.bits = b
  | .none => true

/-- Every tag is the one of its character. -/
theorem tagFits_getTagForChar (c : UInt8) : tagFits c.toNat (getTagForChar c) = true := by
  have table : ∀ n < 256, tagFits n (convTags.getD n .none) = true := by decide +kernel
  exact table c.toNat c.toNat_lt

variable {c : UInt8}

theorem tag_eq_conv {k : FormatConversionChar} (h : getTagForChar c = .conv k) :
    k ≠ .kNone ∧ c = k.byte := by
  have hfits := tagFits_getTagForChar c
  rw [h, tagFits, decide_eq_true_iff] at hfits
  exact ⟨hfits.1, UInt8.toNat_inj.1 hfits.2.symm⟩

variable {m : LengthMod}

theorem tag_eq_length (h : getTagForChar c = .length m) : m.bytes = [c] := by
  have hfits := tagFits_getTagForChar c
  rw [h, tagFits, decide_eq_true_iff] at hfits
  exact map_injective_iff.2 (fun _ _ => UInt8.toNat_inj.1) hfits

/-- A flag is one of the five. -/
theorem tag_eq_flags {b : BitVec 8} (h : getTagForChar c = .flags b) :
    ∃ f : Flag, c = f.byte ∧ b = f.bits := by
  have hfits := tagFits_getTagForChar c
  rw [h, tagFits, any_eq_true] at hfits
  obtain ⟨f, -, hf⟩ := hfits
  obtain ⟨hbyte, hbits⟩ := of_decide_eq_true hf
  exact ⟨f, UInt8.toNat_inj.1 hbyte.symm, hbits.symm⟩

theorem tag_byte {k : FormatConversionChar} (h : k ≠ .kNone) : getTagForChar k.byte = .conv k := by
  cases k <;> first | rfl | exact absurd rfl h

variable (f : Flag)

theorem tag_flag : getTagForChar f.byte = .flags f.bits := by
  cases f <;> rfl

theorem flag_byte_le : f.byte ≤ 48 := by
  cases f <;> decide

/-! ## Digits -/

theorem text_cons (d : ℕ) (ds : List ℕ) : text (d :: ds) = digitByte d :: text ds := rfl

/-- A decimal digit. -/
def IsDigit (c : UInt8) : Prop := 48 ≤ c.toNat ∧ c.toNat ≤ 57

instance (c : UInt8) : Decidable (IsDigit c) := inferInstanceAs (Decidable (_ ∧ _))

theorem isDigit_iff : IsDigit c ↔ 48 ≤ c ∧ c ≤ 57 := by
  rw [UInt8.le_iff_toNat_le, UInt8.le_iff_toNat_le]
  rfl

theorem not_isDigit_iff (c : UInt8) : ¬IsDigit c ↔ c < 48 ∨ 57 < c := by
  rw [IsDigit, UInt8.lt_iff_toNat_lt, UInt8.lt_iff_toNat_lt]
  simp
  omega

theorem IsDigit.eq_digitByte (h : IsDigit c) : c = digitByte (c.toNat - 48) := by
  obtain ⟨h1, h2⟩ := h
  rw [← UInt8.toNat_inj, toNat_digitByte (by omega)]
  omega

theorem isDigit_digitByte {d : ℕ} (h : d < 10) : IsDigit (digitByte d) := by
  rw [IsDigit, toNat_digitByte h]
  omega

/-- A digit has no tag that a conversion could go on with. -/
theorem IsDigit.tag (h : IsDigit c) : getTagForChar c = .none ∨ getTagForChar c = .flags kZero := by
  have table : ∀ n < 58, 48 ≤ n →
      convTags.getD n .none = .none ∨ convTags.getD n .none = .flags kZero := by decide
  exact table c.toNat (by have := h.2; omega) h.1

/-- The loop reads digits up to another character. -/
theorem parseDigitsLoop_text : ∀ ds room v c c' pos,
    ds.length ≤ room → (∀ d ∈ ds, d < 10) → ¬IsDigit c' →
    parseDigitsLoop room v c (text ds ++ c' :: pos) = .ok (readDigits 10 v ds, c', pos)
  | [], room, v, c, c', pos, _, _, hc => by
    rw [parseDigitsLoop]
    simp [text, deref, (not_isDigit_iff c').1 hc]
  | d :: ds, 0, v, c, c', pos, hlen, _, _ => absurd hlen (by simp)
  | d :: ds, room + 1, v, c, c', pos, hlen, hds, hc => by
    have hd : d < 10 := hds d mem_cons_self
    have hdigit : ¬(digitByte d < 48 ∨ 57 < digitByte d) := by
      rw [← not_isDigit_iff, not_not]
      exact isDigit_digitByte hd
    rw [text_cons, cons_append, parseDigitsLoop, if_neg (cons_ne_nil _ _), deref]
    dsimp only
    rw [if_neg hdigit, parseDigitsLoop_text ds room _ _ c' pos (Nat.le_of_succ_le_succ hlen)
      (fun e he => hds e (mem_cons_of_mem d he)) hc, toNat_digitByte hd, readDigits_cons,
      mul_comm 10 v, Nat.add_sub_cancel_left]

/-- What the loop accepts are digits. -/
theorem parseDigitsLoop_cases : ∀ room v c pos, IsDigit c →
    ∃ n c' pos', parseDigitsLoop room v c pos = .ok (n, c', pos') ∧
      (IsDigit c' ∨ ∃ ds, ds.length ≤ room ∧ (∀ d ∈ ds, d < 10) ∧
        pos = text ds ++ c' :: pos' ∧ n = readDigits 10 v ds)
  | room, v, c, [], hc => ⟨v, c, [], by rw [parseDigitsLoop, if_pos rfl], .inl hc⟩
  | room, v, c, c1 :: pos, _ => by
    rw [parseDigitsLoop, if_neg (cons_ne_nil _ _), deref]
    dsimp only
    by_cases h1 : IsDigit c1
    · rw [if_neg (by rwa [← not_isDigit_iff, not_not])]
      rcases room with _ | room
      · exact ⟨_, _, _, rfl, .inl h1⟩
      obtain ⟨n, c', pos', hn, h⟩ :=
        parseDigitsLoop_cases room (10 * v + (c1.toNat - 48)) c1 pos h1
      refine ⟨n, c', pos', hn, h.imp_right fun ⟨ds, hlen, hds, hpos, hval⟩ => ?_⟩
      refine ⟨(c1.toNat - 48) :: ds, Nat.succ_le_succ hlen, forall_mem_cons.2 ⟨?_, hds⟩, ?_, ?_⟩
      · have := h1.2
        omega
      · rw [hpos, text_cons, ← h1.eq_digitByte, cons_append]
      · rw [hval, readDigits_cons, mul_comm v 10]
    · rw [if_pos ((not_isDigit_iff c1).1 h1)]
      exact ⟨v, c1, pos, rfl, .inr ⟨[], Nat.zero_le _, nofun, rfl, rfl⟩⟩

variable {ds : List ℕ} {c' : UInt8} {pos pos' : List UInt8}

/-- A number is read. -/
theorem parseDigits_text (h : Digits ds) (heq : c :: pos = text ds ++ c' :: pos')
    (hc : ¬IsDigit c') : parseDigits c pos = .ok (readDigits 10 0 ds, c', pos') := by
  obtain ⟨hne, hlen, hds⟩ := h
  obtain ⟨d, ds, rfl⟩ := exists_cons_of_ne_nil hne
  obtain ⟨rfl, rfl⟩ := cons.inj heq
  rw [parseDigits, toNat_digitByte (hds d mem_cons_self), Nat.add_sub_cancel_left]
  refine (parseDigitsLoop_text ds 8 d _ c' pos' (Nat.le_of_succ_le_succ hlen)
    (fun e he => hds e (mem_cons_of_mem d he)) hc).trans ?_
  rw [readDigits_cons, Nat.zero_add]

/-- What is read as a number is one. -/
theorem parseDigits_cases (pos : List UInt8) (hc : IsDigit c) :
    ∃ n c' pos', parseDigits c pos = .ok (n, c', pos') ∧ (IsDigit c' ∨
      ∃ ds, Digits ds ∧ (c ≠ 48 → Counting ds) ∧ c :: pos = text ds ++ c' :: pos' ∧
        n = readDigits 10 0 ds) := by
  obtain ⟨n, c', pos', hn, h⟩ := parseDigitsLoop_cases 8 _ c pos hc
  refine ⟨n, c', pos', hn, h.imp_right fun ⟨ds, hlen, hds, hpos, hval⟩ => ?_⟩
  have hdigits : Digits ((c.toNat - 48) :: ds) := by
    refine ⟨cons_ne_nil _ _, Nat.succ_le_succ hlen, forall_mem_cons.2 ⟨?_, hds⟩⟩
    have := hc.2
    omega
  refine ⟨_, hdigits, fun hne => ⟨hdigits, fun hhead => hne ?_⟩, ?_, ?_⟩
  · rw [hc.eq_digitByte, Option.some.inj hhead]
    rfl
  · rw [hpos, text_cons, ← hc.eq_digitByte, cons_append]
  · rw [hval, readDigits_cons, Nat.zero_add]

/-! ## Reading on -/

@[simp] theorem getChar_cons (c : UInt8) (pos : List UInt8) : getChar (c :: pos) = .ok (c, pos) :=
  if_neg (cons_ne_nil c pos)

@[simp] theorem getChar_nil : getChar [] = .error .null := rfl

variable (b : BitVec 8) (fs : List Flag) (fuel : ℕ) (conv : UnboundConversion)

@[simp] theorem advance_cons (k : ℤ) (c0 c : UInt8) (pos : List UInt8) :
    Scan.advance ⟨conv, k, c0, c :: pos⟩ = .ok ⟨conv, k, c, pos⟩ := by
  rfl

variable {k : ℤ}

/-- The argument count does not overflow. -/
theorem increment_of_lt (h : k + 1 < 2 ^ 31) : increment k = .ok (k + 1) :=
  if_neg (by omega)

/-! ## Flags -/

@[simp] theorem or_kBasic : b ||| kBasic = b := BitVec.or_zero

@[simp] theorem kBasic_or : kBasic ||| b = b := BitVec.zero_or

theorem or_eq_kBasic {a b : BitVec 8} : a ||| b = kBasic ↔ a = kBasic ∧ b = kBasic :=
  BitVec.or_eq_zero_iff

theorem foldl_flags : fs.foldl (fun b f => b ||| f.bits) b = b ||| flagBits fs := by
  induction fs generalizing b with
  | nil => exact (or_kBasic b).symm
  | cons f fs ih =>
    rw [flagBits, foldl_cons, foldl_cons, ih, ih, kBasic_or, BitVec.or_assoc]

theorem flagBits_cons : flagBits (f :: fs) = f.bits ||| flagBits fs := by
  rw [flagBits, foldl_cons, foldl_flags, kBasic_or]

/-- Without bits there are no flags. -/
theorem flagBits_eq_zero {fs : List Flag} (h : flagBits fs = kBasic) : fs = [] := by
  rcases fs with _ | ⟨f, fs⟩
  · rfl
  · rw [flagBits_cons, or_eq_kBasic] at h
    exact absurd h.1 (by cases f <;> decide)

theorem flagsLoop_stop {s : Scan} (h : ∀ b, getTagForChar s.c ≠ .flags b) :
    flagsLoop fuel s = .ok s := by
  unfold flagsLoop
  split
  · split
    · exact absurd ‹_› (h _)
    · rfl
  · rfl

theorem flagsLoop_flag (k : ℤ) (f : Flag)
    (pos : List UInt8) : flagsLoop (fuel + 1) ⟨conv, k, f.byte, pos⟩
      = (Scan.advance ⟨{ conv with flags := conv.flags ||| f.bits }, k, f.byte, pos⟩).bind
        (flagsLoop fuel) := by
  rw [flagsLoop, if_pos (flag_byte_le f)]
  rw [tag_flag]
  rfl

/-- The flags are read. -/
theorem flagsLoop_text : ∀ fs fuel conv k c c' pos pos', c :: pos = fs.map Flag.byte ++ c' :: pos' →
    fs.length ≤ fuel → (∀ b, getTagForChar c' ≠ .flags b) → flagsLoop fuel ⟨conv, k, c, pos⟩
      = .ok ⟨{ conv with flags := conv.flags ||| flagBits fs }, k, c', pos'⟩
  | [], fuel, conv, k, c, c', pos, pos', heq, _, hc => by
    obtain ⟨rfl, rfl⟩ := cons.inj heq
    rw [flagsLoop_stop fuel hc, flagBits, foldl_nil, or_kBasic]
  | f :: fs, 0, conv, k, c, c', pos, pos', _, hlen, _ => absurd hlen (by simp)
  | f :: fs, fuel + 1, conv, k, c, c', pos, pos', heq, hlen, hc => by
    obtain ⟨rfl, rfl⟩ := cons.inj heq
    obtain ⟨c1, pos1, h1⟩ := exists_cons_of_ne_nil
      (append_ne_nil_of_right_ne_nil _ (cons_ne_nil c' pos'))
    change flagsLoop (fuel + 1) ⟨conv, k, f.byte, fs.map Flag.byte ++ c' :: pos'⟩ = _
    rw [flagsLoop_flag, h1]
    refine (flagsLoop_text fs fuel _ k c1 c' pos1 pos' h1.symm (Nat.le_of_succ_le_succ hlen)
      hc).trans ?_
    rw [flagBits_cons, BitVec.or_assoc]

/-- What is read as flags are flags. -/
theorem flagsLoop_cases : ∀ fuel conv k c
    pos, pos.length < fuel → flagsLoop fuel ⟨conv, k, c, pos⟩ = .error .null ∨
    ∃ (fs : List Flag) (c' : UInt8) (pos' : List UInt8),
      c :: pos = fs.map Flag.byte ++ c' :: pos' ∧ fs.length ≤ fuel ∧
      ∀ b, getTagForChar c' ≠ .flags b
  | 0, _, _, _, _, h => absurd h (Nat.not_lt_zero _)
  | fuel + 1, conv, k, c, pos, h => by
    by_cases hc : ∀ b, getTagForChar c ≠ .flags b
    · exact .inr ⟨[], c, pos, rfl, Nat.zero_le _, hc⟩
    rw [not_forall_not] at hc
    obtain ⟨b, hb⟩ := hc
    obtain ⟨f, rfl, rfl⟩ := tag_eq_flags hb
    rw [flagsLoop_flag]
    rcases pos with _ | ⟨c1, pos⟩
    · exact .inl rfl
    rw [advance_cons]
    rcases flagsLoop_cases fuel { conv with flags := conv.flags ||| f.bits } k c1 pos
        (Nat.lt_of_succ_lt_succ h) with hnull | ⟨fs, c', pos', heq, hlen, hc'⟩
    · exact .inl hnull
    · exact .inr ⟨f :: fs, c', pos', by rw [heq]; rfl, Nat.succ_le_succ hlen, hc'⟩

/-! ## Positions and stars -/

theorem Counting.first (h : Counting ds)
    (heq : c :: pos = text ds ++ c' :: pos') : 49 ≤ c.toNat ∧ c.toNat ≤ 57 := by
  obtain ⟨⟨hne, -, hds⟩, hhead⟩ := h
  obtain ⟨d, ds, rfl⟩ := exists_cons_of_ne_nil hne
  have hc : c = digitByte d := (cons.inj heq).1
  have hd : d < 10 := hds d mem_cons_self
  have hd0 : d ≠ 0 := fun h0 => hhead (by rw [h0]; rfl)
  rw [hc, toNat_digitByte hd]
  omega

/-- A position is read. -/
theorem scanPosition_text (h : Counting ds) (conv : UnboundConversion) (k : ℤ)
    (heq : c :: pos = text ds ++ 36 :: c' :: pos') :
    scanPosition ⟨conv, k, c, pos⟩ = .ok (readDigits 10 0 ds, ⟨conv, k, c', pos'⟩) := by
  have hc := h.first heq
  have hrange : ¬(c < 49 ∨ 57 < c) := by
    rw [UInt8.lt_iff_toNat_lt, UInt8.lt_iff_toNat_lt]
    simp
    omega
  rw [scanPosition, if_neg hrange, parseDigits_text h.1 heq (by decide)]
  simp [Except.bind, Except.map]

/-- What is read as a position is one. -/
theorem scanPosition_cases (k : ℤ) (c : UInt8) (pos : List UInt8) :
    scanPosition ⟨conv, k, c, pos⟩ = .error .null ∨
      ∃ ds c' pos', Counting ds ∧ c :: pos = text ds ++ 36 :: c' :: pos' := by
  by_cases hrange : c < 49 ∨ 57 < c
  · exact .inl (if_pos hrange)
  rw [scanPosition]
  rw [UInt8.lt_iff_toNat_lt, UInt8.lt_iff_toNat_lt] at hrange
  simp at hrange
  obtain ⟨n, c', pos', hn, h⟩ := parseDigits_cases pos (c := c) ⟨by omega, by omega⟩
  rw [hn]
  by_cases hdollar : c' = 36
  · rcases pos' with _ | ⟨c1, pos1⟩
    · exact .inl (by simp [Except.bind, Except.map])
    rcases h with hdigit | ⟨ds, -, hcount, heq, -⟩
    · rw [hdollar] at hdigit
      exact absurd hdigit (by decide)
    · refine .inr ⟨ds, c1, pos1, hcount fun h48 => ?_, by rw [heq, hdollar]⟩
      rw [h48] at hrange
      exact absurd hrange.1 (by decide)
  · exact .inl (by simp [Except.bind, hdollar])

/-- The argument of a star behind `k` arguments. -/
def starArg (k : ℤ) : Option (List ℕ) → ℤ
  | .none => k + 1
  | .some ds => readDigits 10 0 ds

theorem input_star (k : ℤ) (position : Option (List ℕ)) :
    (Amount.star position).input k = .fromArg (starArg k position) := by
  cases position <;> rfl

variable {positional : Bool}

/-- An argument for a width or a precision is read. -/
theorem scanStar_text {position : Option (List ℕ)} (h : PositionOk positional position)
    (conv : UnboundConversion) (k : ℤ) (heq : c :: pos = renderPosition position ++ c' :: pos')
    (hk : k + (Amount.star position).args < 2 ^ 31) : scanStar positional ⟨conv, k, c, pos⟩
      = .ok (starArg k position, ⟨conv, k + (Amount.star position).args, c', pos'⟩) := by
  rcases position with _ | ds
  · obtain ⟨rfl, rfl⟩ := cons.inj heq
    obtain rfl : positional = false := h
    rw [scanStar, increment_of_lt hk]
    rfl
  · obtain ⟨rfl, hds⟩ := h
    rw [renderPosition, append_assoc] at heq
    rw [scanStar, scanPosition_text hds conv k heq]
    simp [Except.map, starArg, Amount.args]

/-- What is read as an argument is one. -/
theorem scanStar_cases (positional : Bool) (conv : UnboundConversion) (hk : k < 2 ^ 31) (c : UInt8)
    (pos : List UInt8) : scanStar positional ⟨conv, k, c, pos⟩ = .error .null ∨
      (scanStar positional ⟨conv, k, c, pos⟩ = .error .overflow ∧ positional = false ∧
        k = 2 ^ 31 - 1) ∨
      ∃ position c' pos', PositionOk positional position ∧
        c :: pos = renderPosition position ++ c' :: pos' ∧
        k + (Amount.star position).args < 2 ^ 31 := by
  cases positional with
  | false =>
    by_cases hlast : k = 2 ^ 31 - 1
    · refine .inr (.inl ⟨?_, rfl, hlast⟩)
      rw [scanStar, increment, if_pos hlast]
      rfl
    · refine .inr (.inr ⟨none, c, pos, rfl, rfl, ?_⟩)
      simp only [Amount.args]
      omega
  | true =>
    rcases scanPosition_cases conv k c pos with hnull | ⟨ds, c', pos', hds, heq⟩
    · left
      rw [scanStar, hnull]
      rfl
    · refine .inr (.inr ⟨some ds, c', pos', ⟨rfl, hds⟩, ?_, by simpa [Amount.args] using hk⟩)
      rw [heq, renderPosition, append_assoc]
      rfl

/-! ## Widths -/

/-- What a width does not run into. -/
def Follows (positional : Bool) (c : UInt8) : Amount → Prop
  | .none => ¬IsDigit c ∧ c ≠ 42
  | .number _ => ¬IsDigit c ∧ (positional = false → c ≠ 36)
  | .star _ => True

/-- The flag that an amount leaves behind. -/
def amountBits (w : Amount) : BitVec 8 := if w = .none then kBasic else kNonBasic

/-- The state behind a width. -/
def afterWidth (conv : UnboundConversion) (k : ℤ) (w : Amount) (c : UInt8) (pos : List UInt8) :
    Scan :=
  ⟨{ conv with width := w.input k, flags := conv.flags ||| amountBits w }, k + w.args, c, pos⟩

theorem exists_cons_append (l : List UInt8) (c : UInt8) (pos : List UInt8) :
    ∃ c1 pos1, l ++ c :: pos = c1 :: pos1 :=
  exists_cons_of_ne_nil (append_ne_nil_of_right_ne_nil l (cons_ne_nil c pos))

/-- A width is read. -/
theorem scanWidth_text {w : Amount} (h : w.WidthOk positional) (conv : UnboundConversion)
    (hconv : conv.width = {}) (k : ℤ) (heq : c :: pos = w.render ++ c' :: pos')
    (hc : Follows positional c' w) (hk : k + w.args < 2 ^ 31) :
    scanWidth positional ⟨conv, k, c, pos⟩ = .ok (.done (afterWidth conv k w c' pos')) := by
  unfold scanWidth
  dsimp only
  rcases w with _ | ds | position
  · obtain ⟨rfl, rfl⟩ := cons.inj heq
    have hdone : afterWidth conv k .none c pos = ⟨conv, k, c, pos⟩ := by
      rw [afterWidth, amountBits, Amount.input, ← hconv]
      simp [Amount.args]
    rw [hdone]
    by_cases h57 : c ≤ 57
    · have h48 : ¬48 ≤ c := fun h48 => hc.1 (isDigit_iff.2 ⟨h48, h57⟩)
      rw [if_pos h57, if_neg h48, if_neg hc.2]
    · rw [if_neg h57]
  · have hds := h
    have hfirst := hds.first heq
    obtain ⟨h48, h57⟩ := isDigit_iff.1 ⟨by omega, hfirst.2⟩
    have h36 : ¬(positional = false ∧ c' = 36) := fun ⟨h1, h2⟩ => hc.2 h1 h2
    rw [if_pos h57, if_pos h48, parseDigits_text hds.1 heq hc.1]
    simp [Except.map, h36, afterWidth, amountBits, Amount.args, Amount.input, Scan.addFlags]
  · obtain ⟨rfl, hpos⟩ := cons.inj heq
    obtain ⟨c1, pos1, h1⟩ := exists_cons_append _ c' pos'
    obtain rfl : pos = c1 :: pos1 := hpos.trans h1
    simp only [Scan.addFlags, advance_cons, Except.bind]
    rw [scanStar_text h _ k h1.symm hk]
    simp [Except.map, afterWidth, amountBits, input_star]

/-- What is read as a width is one. -/
theorem scanWidth_cases (positional : Bool) (conv : UnboundConversion) (hk : k < 2 ^ 31)
    (h48 : c ≠ 48) (pos : List UInt8) : scanWidth positional ⟨conv, k, c, pos⟩ = .error .null ∨
      (scanWidth positional ⟨conv, k, c, pos⟩ = .error .overflow ∧ positional = false ∧
        k = 2 ^ 31 - 1 ∧ ∃ rest, rest ≠ [] ∧ c :: pos = 42 :: rest) ∨
      (scanWidth positional ⟨conv, k, c, pos⟩ = .ok (.restart conv) ∧ positional = false ∧
        ∃ ds rest, Counting ds ∧ c :: pos = text ds ++ 36 :: rest) ∨
      (∃ s, scanWidth positional ⟨conv, k, c, pos⟩ = .ok (.done s) ∧ IsDigit s.c) ∨
      ∃ w c' pos', w.WidthOk positional ∧
        c :: pos = w.render ++ c' :: pos' ∧ Follows positional c' w ∧ k + w.args < 2 ^ 31 := by
  by_cases hdigit : IsDigit c
  · -- digits : a position, a width, or too many of them
    obtain ⟨hge, hle⟩ := isDigit_iff.1 hdigit
    obtain ⟨n, c', pos', hn, h⟩ := parseDigits_cases pos hdigit
    have hscan : scanWidth positional ⟨conv, k, c, pos⟩ = .ok (if positional = false ∧ c' = 36
        then .restart conv else .done ⟨{ conv with
          flags := conv.flags ||| kNonBasic, width := ⟨n⟩ }, k, c', pos'⟩) := by
      unfold scanWidth
      rw [if_pos hle, if_pos hge, hn]
      rfl
    by_cases hc' : IsDigit c'
    · refine .inr (.inr (.inr (.inl ⟨_, hscan.trans (congrArg _ (if_neg ?_)), hc'⟩)))
      rintro ⟨-, rfl⟩
      exact absurd hc' (by decide)
    obtain ⟨ds, -, hcount, heq, -⟩ := h.resolve_left hc'
    by_cases hrestart : positional = false ∧ c' = 36
    · refine .inr (.inr (.inl ⟨?_, hrestart.1, ds, pos', hcount h48, by rw [heq, hrestart.2]⟩))
      rw [hscan, if_pos hrestart]
    · refine .inr (.inr (.inr (.inr ⟨.number ds, c', pos', hcount h48, heq, ⟨hc', ?_⟩, ?_⟩)))
      · exact fun h1 h2 => hrestart ⟨h1, h2⟩
      · simpa [Amount.args] using hk
  by_cases hstar : c = 42
  · subst hstar
    rcases pos with _ | ⟨c1, pos1⟩
    · exact .inl rfl
    have hscan : scanWidth positional ⟨conv, k, 42, c1 :: pos1⟩ =
        (scanStar positional ⟨{ conv with flags := conv.flags ||| kNonBasic }, k, c1, pos1⟩).map
          fun x => .done { x.2 with conv := { x.2.conv with width := .fromArg x.1 } } := rfl
    rcases scanStar_cases positional { conv with flags := conv.flags ||| kNonBasic } hk c1 pos1
      with hnull | ⟨hover, hpos, hlast⟩ | ⟨position, c', pos', hpos, heq, hargs⟩
    · left
      rw [hscan, hnull]
      rfl
    · refine .inr (.inl ⟨?_, hpos, hlast, c1 :: pos1, cons_ne_nil _ _, rfl⟩)
      rw [hscan, hover]
      rfl
    · refine .inr (.inr (.inr (.inr ⟨.star position, c', pos', hpos, ?_, trivial, hargs⟩)))
      rw [heq]
      rfl
  · refine .inr (.inr (.inr (.inr ⟨.none, c, pos, trivial, rfl, ⟨hdigit, hstar⟩, ?_⟩)))
    simpa [Amount.args] using hk

/-! ## Precisions -/

/-- What a precision does not run into. -/
def FollowsPrecision (c : UInt8) : Option Amount → Prop
  | .none => c ≠ 46
  | .some .none => ¬IsDigit c ∧ c ≠ 42
  | .some (.number _) => ¬IsDigit c
  | .some (.star _) => True

/-- A precision is not basic. -/
def precisionBits (p : Option Amount) : BitVec 8 := if p = none then kBasic else kNonBasic

/-- The state behind a precision. -/
def afterPrecision (conv : UnboundConversion) (k : ℤ) (p : Option Amount) (c : UInt8)
    (pos : List UInt8) : Scan :=
  ⟨{ conv with precision := precisionInput k p, flags := conv.flags ||| precisionBits p },
    k + precisionArgs p, c, pos⟩

/-- A precision is read. -/
theorem scanPrecision_text {p : Option Amount} (h : ∀ a, p = some a → a.PrecisionOk positional)
    (conv : UnboundConversion) (hconv : conv.precision = {}) (k : ℤ)
    (heq : c :: pos = renderPrecision p ++ c' :: pos') (hc : FollowsPrecision c' p)
    (hk : k + precisionArgs p < 2 ^ 31) :
    scanPrecision positional ⟨conv, k, c, pos⟩ = .ok (afterPrecision conv k p c' pos') := by
  unfold scanPrecision
  rcases p with _ | p
  · obtain ⟨rfl, rfl⟩ := cons.inj heq
    rw [if_neg hc, afterPrecision, precisionBits, precisionInput, ← hconv]
    simp [precisionArgs]
  obtain ⟨rfl, hpos⟩ := cons.inj heq
  obtain ⟨c1, pos1, h1⟩ := exists_cons_append p.render c' pos'
  obtain rfl : pos = c1 :: pos1 := hpos.trans h1
  have hp := h p rfl
  simp only [Scan.addFlags, advance_cons, Except.bind]
  rcases p with _ | ds | position
  · obtain ⟨rfl, rfl⟩ := cons.inj h1
    rw [if_neg fun hd => hc.1 (isDigit_iff.2 hd), if_neg hc.2]
    simp [afterPrecision, precisionBits, precisionArgs, precisionInput, Amount.args]
  · have hd : 48 ≤ c1 ∧ c1 ≤ 57 := by
      obtain ⟨⟨d, ds, rfl⟩, hds⟩ := And.intro (exists_cons_of_ne_nil hp.1) hp.2.2
      have hfirst : digitByte d = c1 := (cons.inj h1).1
      have := isDigit_digitByte (hds d mem_cons_self)
      rw [hfirst] at this
      exact isDigit_iff.1 this
    rw [if_pos hd, parseDigits_text hp h1.symm hc]
    simp [Except.map, afterPrecision, precisionBits, precisionArgs, precisionInput, Amount.args,
      Amount.input]
  · obtain ⟨rfl, hpos1⟩ := cons.inj h1
    obtain ⟨c2, pos2, h2⟩ := exists_cons_append _ c' pos'
    obtain rfl : pos1 = c2 :: pos2 := hpos1.symm.trans h2
    simp only [advance_cons]
    rw [scanStar_text hp _ k h2.symm hk]
    simp [Except.map, afterPrecision, precisionBits, precisionArgs, precisionInput, input_star]

/-- What is read as a precision is one. -/
theorem scanPrecision_cases (positional : Bool) (conv : UnboundConversion) (hk : k < 2 ^ 31)
    (c : UInt8) (pos : List UInt8) : scanPrecision positional ⟨conv, k, c, pos⟩ = .error .null ∨
      (scanPrecision positional ⟨conv, k, c, pos⟩ = .error .overflow ∧ positional = false ∧
        k = 2 ^ 31 - 1 ∧ ∃ rest, rest ≠ [] ∧ c :: pos = 46 :: 42 :: rest) ∨
      (∃ s, scanPrecision positional ⟨conv, k, c, pos⟩ = .ok s ∧ IsDigit s.c) ∨
      ∃ p c' pos',
        (∀ a, p = some a → a.PrecisionOk positional) ∧ c :: pos = renderPrecision p ++ c' :: pos' ∧
        FollowsPrecision c' p ∧ k + precisionArgs p < 2 ^ 31 := by
  have hk0 : k + (0 : ℕ) < 2 ^ 31 := by simpa using hk
  by_cases hdot : c = 46
  swap
  · exact .inr (.inr (.inr ⟨none, c, pos, fun _ h => absurd h.symm (Option.some_ne_none _), rfl,
      hdot, hk0⟩))
  subst hdot
  rcases pos with _ | ⟨c1, pos1⟩
  · exact .inl rfl
  by_cases hdigit : IsDigit c1
  · have hd := isDigit_iff.1 hdigit
    obtain ⟨n, c', pos', hn, h⟩ := parseDigits_cases pos1 hdigit
    by_cases hc' : IsDigit c'
    · refine .inr (.inr (.inl ⟨⟨{ conv with
        flags := conv.flags ||| kNonBasic, precision := ⟨n⟩ }, k, c', pos'⟩, ?_, hc'⟩))
      unfold scanPrecision
      simp only [Scan.addFlags, advance_cons, Except.bind]
      rw [if_pos trivial, if_pos hd, hn]
      rfl
    · obtain ⟨ds, hds, -, heq, -⟩ := h.resolve_left hc'
      refine .inr (.inr (.inr ⟨some (.number ds), c', pos', fun a ha => Option.some.inj ha ▸ hds,
        ?_, hc', hk0⟩))
      rw [heq]
      rfl
  by_cases hstar : c1 = 42
  · subst hstar
    rcases pos1 with _ | ⟨c2, pos2⟩
    · exact .inl rfl
    have hscan : scanPrecision positional ⟨conv, k, 46, 42 :: c2 :: pos2⟩ =
        (scanStar positional ⟨{ conv with flags := conv.flags ||| kNonBasic }, k, c2, pos2⟩).map
          fun x => { x.2 with conv := { x.2.conv with precision := .fromArg x.1 } } := rfl
    rcases scanStar_cases positional { conv with flags := conv.flags ||| kNonBasic } hk c2 pos2
      with hnull | ⟨hover, hpos, hlast⟩ | ⟨position, c', pos', hpos, heq, hargs⟩
    · left
      rw [hscan, hnull]
      rfl
    · refine .inr (.inl ⟨?_, hpos, hlast, c2 :: pos2, cons_ne_nil _ _, rfl⟩)
      rw [hscan, hover]
      rfl
    refine .inr (.inr (.inr ⟨some (.star position), c', pos',
      fun a ha => Option.some.inj ha ▸ hpos, ?_, trivial, hargs⟩))
    rw [heq]
    rfl
  · exact .inr (.inr (.inr ⟨some .none, c1, pos1, fun a ha => Option.some.inj ha ▸ trivial, rfl,
      ⟨hdigit, hstar⟩, hk0⟩))

/-! ## Conversion characters -/

/-- The flag of `lc`. -/
def lengthBits (m : LengthMod) (ch : FormatConversionChar) : BitVec 8 :=
  if m = .l ∧ ch = .c then kNonBasic else kBasic

variable {ch : FormatConversionChar}

theorem byte_ne (h : ch ≠ .kNone) {b : UInt8}
    (hb : getTagForChar b = .length m) : ch.byte ≠ b := fun heq => by
  rw [← heq, tag_byte h] at hb
  cases hb

theorem byte_eq_iff {ch' : FormatConversionChar} (h : ch ≠ .kNone) (h' : ch' ≠ .kNone) :
    ch.byte = ch'.byte ↔ ch = ch' := by
  refine ⟨fun heq => ?_, fun heq => by rw [heq]⟩
  have htag := tag_byte h
  rw [heq, tag_byte h'] at htag
  exact (ConvTag.conv.inj htag).symm

/-- A length modifier is read letter by letter. -/
theorem scanLength_text (hm : m ≠ .none)
    (hch : ch ≠ .kNone) : ∃ b bs m0, m.bytes = b :: bs ∧ getTagForChar b = .length m0 ∧
      ∀ conv n c pos rest,
        c :: pos = bs ++ ch.byte :: rest → scanLength m0 ⟨conv, n, c, pos⟩
          = .ok ⟨{ conv with lengthMod := m }, n, ch.byte, rest⟩ := by
  have h104 : ch.byte ≠ 104 := byte_ne hch rfl
  have h108 : ch.byte ≠ 108 := byte_ne hch rfl
  have single : ∀ m conv n c
      pos rest, c :: pos = [] ++ ch.byte :: rest →
      scanLength m ⟨conv, n, c, pos⟩ = .ok ⟨{ conv with lengthMod := m }, n, ch.byte, rest⟩ := by
    intro m conv n c pos rest heq
    obtain ⟨rfl, rfl⟩ := cons.inj heq
    simp [scanLength, h104, h108]
  cases m with
  | none => exact absurd rfl hm
  | hh =>
    refine ⟨104, [104], .h, rfl, rfl, fun conv n c pos rest heq => ?_⟩
    obtain ⟨rfl, rfl⟩ := cons.inj heq
    simp [scanLength]
  | ll =>
    refine ⟨108, [108], .l, rfl, rfl, fun conv n c pos rest heq => ?_⟩
    obtain ⟨rfl, rfl⟩ := cons.inj heq
    simp [scanLength]
  | h | l | L | j | z | t | q => exact ⟨_, [], _, rfl, rfl, single _⟩

/-- A conversion is read. -/
theorem scanConv_text (positional : Bool) {conv : UnboundConversion}
    (hconv : conv.lengthMod = .none) (n : ℤ) (hch : ch ≠ .kNone)
    (hv : ch = .v → conv.flags = kBasic ∧ m = .none) {rest : List UInt8}
    (heq : c :: pos = m.bytes ++ ch.byte :: rest) :
    scanConv positional ⟨conv, n, c, pos⟩ = finishConversion positional
      ⟨{ conv with lengthMod := m, flags := conv.flags ||| lengthBits m ch }, n, ch.byte, rest⟩
      ch := by
  have hv' : ch.byte = 118 ↔ ch = .v :=
    byte_eq_iff hch (by decide : FormatConversionChar.v ≠ .kNone)
  have hc' := byte_eq_iff hch (by decide : FormatConversionChar.c ≠ .kNone)
  by_cases hm : m = .none
  · obtain ⟨rfl, rfl⟩ : c = ch.byte ∧ pos = rest := by
      rw [hm] at heq
      exact cons.inj heq
    have hflags : ¬(ch.byte = 118 ∧ conv.flags ≠ kBasic) := fun ⟨h1, h2⟩ => h2 (hv (hv'.1 h1)).1
    rw [scanConv, if_neg hflags]
    rw [tag_byte hch, hm, lengthBits, if_neg (by simp), or_kBasic, ← hconv]
  obtain ⟨b, bs, m0, hb, htag, hscan⟩ := scanLength_text hm hch
  have hne : ch ≠ .v := fun h => hm (hv h).2
  rw [hb] at heq
  obtain ⟨rfl, hpos⟩ := cons.inj heq
  obtain ⟨c1, pos1, h1⟩ := exists_cons_append bs ch.byte rest
  obtain rfl : pos = c1 :: pos1 := hpos.trans h1
  have h118 : c ≠ 118 := fun h => by
    rw [h] at htag
    exact ConvTag.noConfusion htag
  rw [scanConv, if_neg fun h => h118 h.1]
  rw [htag]
  simp only [advance_cons, Except.bind]
  rw [hscan conv n c1 pos1 rest h1.symm]
  dsimp only
  rw [if_neg (fun h => hne (hv'.1 h)), tag_byte hch]
  by_cases hlc : m = .l ∧ ch = .c
  · rw [lengthBits, if_pos hlc, if_pos ⟨hlc.1, hc'.2 hlc.2⟩]
    rfl
  · rw [lengthBits, if_neg hlc, or_kBasic, if_neg fun h => hlc ⟨h.1, hc'.1 h.2⟩]

/-- What is read as a length modifier is one. -/
theorem scanLength_cases {m0 : LengthMod} (htag : getTagForChar c = .length m0)
    (conv : UnboundConversion) (n : ℤ) (c1 : UInt8) (pos : List UInt8) :
    scanLength m0 ⟨conv, n, c1, pos⟩ = .error .null ∨
      ∃ m c' pos', m ≠ .none ∧ c :: c1 :: pos = m.bytes ++ c' :: pos' ∧
        scanLength m0 ⟨conv, n, c1, pos⟩ = .ok ⟨{ conv with lengthMod := m }, n, c', pos'⟩ := by
  have hbytes := tag_eq_length htag
  have hnone : m0 ≠ .none := fun h => by
    rw [h] at hbytes
    exact absurd hbytes.symm (cons_ne_nil c [])
  by_cases hh : c1 = 104 ∧ m0 = .h
  · obtain ⟨rfl, rfl⟩ := hh
    rcases pos with _ | ⟨c', pos'⟩
    · exact .inl rfl
    · exact .inr ⟨.hh, c', pos', by decide, by rw [← (cons.inj hbytes).1]; rfl, rfl⟩
  by_cases hl : c1 = 108 ∧ m0 = .l
  · obtain ⟨rfl, rfl⟩ := hl
    rcases pos with _ | ⟨c', pos'⟩
    · exact .inl rfl
    · exact .inr ⟨.ll, c', pos', by decide, by rw [← (cons.inj hbytes).1]; rfl, rfl⟩
  · refine .inr ⟨m0, c1, pos, hnone, by rw [hbytes]; rfl, ?_⟩
    rw [scanLength, if_neg hh, if_neg hl]

/-- What is read as a conversion is one. -/
theorem scanConv_cases (positional : Bool) (conv : UnboundConversion) (n : ℤ) (c : UInt8)
    (pos : List UInt8) : scanConv positional ⟨conv, n, c, pos⟩ = .error .null ∨
      ∃ (m : LengthMod) (ch : FormatConversionChar) (rest : List UInt8), ch ≠ .kNone ∧
        (ch = .v → conv.flags = kBasic ∧ m = .none) ∧ c :: pos = m.bytes ++ ch.byte :: rest := by
  by_cases hv : c = 118 ∧ conv.flags ≠ kBasic
  · exact .inl (if_pos hv)
  rw [scanConv, if_neg hv]
  rcases htag : getTagForChar c with ch | m0 | b | _
  · obtain ⟨hch, rfl⟩ := tag_eq_conv htag
    refine .inr ⟨.none, ch, pos, hch, fun h => ⟨?_, rfl⟩, rfl⟩
    by_contra hflags
    exact hv ⟨by rw [h]; rfl, hflags⟩
  · rcases pos with _ | ⟨c1, pos1⟩
    · exact .inl rfl
    simp only [advance_cons, Except.bind]
    rcases scanLength_cases htag conv n c1 pos1 with hnull | ⟨m, c', pos', hm, heq, hscan⟩
    · rw [hnull]
      exact .inl rfl
    rw [hscan]
    dsimp only
    by_cases h118 : c' = 118
    · exact .inl (if_pos h118)
    rw [if_neg h118]
    rcases htag' : getTagForChar c' with ch | m' | b | _
    · obtain ⟨hch, rfl⟩ := tag_eq_conv htag'
      refine .inr ⟨m, ch, pos', hch, fun h => absurd ?_ h118, heq⟩
      rw [h]
      rfl
    · exact .inl rfl
    · exact .inl rfl
    · exact .inl rfl
  · exact .inl rfl
  · exact .inl rfl

end Abseil.StrFormat
