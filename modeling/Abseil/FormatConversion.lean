import Abseil.FormatScan

/-!
# Conversion specs

`ConsumeConversion` reads exactly the specs of the grammar. A spec that starts with a number and
`$` is read twice, the second time as a positional one; this is possible as long as no argument
is taken.
-/

namespace Abseil.StrFormat

open Positional

/-! ## Flags, width and precision -/

variable {c : UInt8}

theorem tag_ne_flags (h : c.toNat = 42 ∨ c.toNat = 46 ∨ 49 ≤ c.toNat) (b : BitVec 8) :
    getTagForChar c ≠ .flags b := by
  intro htag
  obtain ⟨f, rfl, -⟩ := tag_eq_flags htag
  cases f <;> simp [Flag.byte] at h

theorem scanAmounts_eq (positional : Bool) (s : Scan) : scanAmounts positional s =
    (flagsLoop (s.pos.length + 1) s).bind fun s =>
      (scanWidth positional s).bind fun w =>
        match w with
        | .restart conv => .ok (.restart conv)
        | .done s => (scanPrecision positional s).map .done := by
  by_cases h : s.c < 65
  · exact if_pos h
  have hc : 65 ≤ s.c.toNat := by
    rw [UInt8.lt_iff_toNat_lt] at h
    simpa using h
  have h57 : ¬s.c ≤ 57 := by
    rw [UInt8.le_iff_toNat_le]
    simp
    omega
  have h46 : s.c ≠ 46 := fun h46 => by
    rw [h46] at hc
    exact absurd hc (by decide)
  rw [flagsLoop_stop _ (tag_ne_flags (by omega))]
  simp only [Except.bind, scanWidth, if_neg h57, scanPrecision, if_neg h46]
  exact if_neg h

/-- What flags, width and precision leave in the conversion. -/
def amountsConv (conv : UnboundConversion) (k : ℤ) (fs : List Flag) (w : Amount)
    (p : Option Amount) : UnboundConversion :=
  { conv with
    width := w.input k
    precision := precisionInput (k + w.args) p
    flags := conv.flags ||| flagBits fs ||| amountBits w ||| precisionBits p }

/-- A `.` or a letter ends every width. -/
theorem follows_of_end (positional : Bool) (h : c.toNat = 46 ∨ 65 ≤ c.toNat)
    (w : Amount) : Follows positional c w := by
  have hdigit : ¬IsDigit c := by
    unfold IsDigit
    omega
  have hne : ∀ n, n.toNat = 42 ∨ n.toNat = 36 → c ≠ n := fun n hn hcn => by
    rw [hcn] at h
    omega
  rcases w with _ | ds | position
  · exact ⟨hdigit, hne 42 (by decide)⟩
  · exact ⟨hdigit, fun _ => hne 36 (by decide)⟩
  · exact trivial

theorem followsPrecision_of_letter (h : 65 ≤ c.toNat) (p : Option Amount) :
    FollowsPrecision c p := by
  have hdigit : ¬IsDigit c := by
    unfold IsDigit
    omega
  have hne : ∀ n, n.toNat < 65 → c ≠ n := fun n hn hcn => by
    rw [hcn] at h
    omega
  rcases p with _ | _ | ds | position
  · exact hne 46 (by decide)
  · exact ⟨hdigit, hne 42 (by decide)⟩
  · exact hdigit
  · exact trivial

variable {p : Option Amount} {c' : UInt8} {pos pos' : List UInt8}

/-- The first character behind the width. -/
theorem first_renderPrecision (h : renderPrecision p ++ c' :: pos' = c :: pos)
    (hc : 65 ≤ c'.toNat) : c.toNat = 46 ∨ 65 ≤ c.toNat := by
  rcases p with _ | p
  · obtain ⟨rfl, -⟩ := List.cons.inj h
    exact .inr hc
  · obtain ⟨rfl, -⟩ := List.cons.inj h
    exact .inl rfl

variable {w : Amount}

/-- The first character behind the flags. -/
theorem first_renderWidth {positional : Bool} (hw : w.WidthOk positional)
    (h : w.render ++ c' :: pos' = c :: pos)
    (hc : c'.toNat = 46 ∨ 65 ≤ c'.toNat) : c.toNat = 42 ∨ c.toNat = 46 ∨ 49 ≤ c.toNat := by
  rcases w with _ | ds | position
  · obtain ⟨rfl, -⟩ := List.cons.inj h
    omega
  · have := Counting.first hw h.symm
    omega
  · obtain ⟨rfl, -⟩ := List.cons.inj h
    exact .inl rfl

variable {k : ℤ}

theorem scanAmounts_text {positional : Bool} {fs : List Flag} (hw : w.WidthOk positional)
    (hp : ∀ a, p = some a → a.PrecisionOk positional) {conv : UnboundConversion}
    (hconv : conv.width = {} ∧ conv.precision = {})
    (heq : c :: pos = fs.map Flag.byte ++ (w.render ++ (renderPrecision p ++ c' :: pos')))
    (hc : 65 ≤ c'.toNat) (hk : k + w.args + precisionArgs p < 2 ^ 31) :
    scanAmounts positional ⟨conv, k, c, pos⟩
      = .ok (.done ⟨amountsConv conv k fs w p, k + w.args + precisionArgs p, c', pos'⟩) := by
  obtain ⟨c2, pos2, h2⟩ := exists_cons_append (renderPrecision p) c' pos'
  have hend := first_renderPrecision h2 hc
  rw [h2] at heq
  obtain ⟨c1, pos1, h1⟩ := exists_cons_append w.render c2 pos2
  have hfirst := first_renderWidth hw h1 hend
  rw [h1] at heq
  have hlen : fs.length ≤ pos.length + 1 := by
    have := congrArg List.length heq
    simp at this
    omega
  rw [scanAmounts_eq, flagsLoop_text fs _ conv k c c1 pos pos1 heq hlen (tag_ne_flags hfirst)]
  simp only [Except.bind]
  rw [scanWidth_text hw { conv with flags := conv.flags ||| flagBits fs } hconv.1 k h1.symm
    (follows_of_end positional hend w) (by omega)]
  dsimp only
  rw [afterWidth, scanPrecision_text hp { conv with
    width := w.input k, flags := conv.flags ||| flagBits fs ||| amountBits w } hconv.2 _ h2.symm
    (followsPrecision_of_letter hc p) hk]
  rfl

/-- A text that is read as an opening in front of the last argument. -/
def Overflows (k : ℤ) (text : List UInt8) : Prop :=
  ∃ (o : Opening) (rest : List UInt8), o.width.WidthOk false ∧ rest ≠ [] ∧
    text = o.render ++ rest ∧ 2 ^ 31 ≤ k + o.args

theorem scanAmounts_cases (positional : Bool) {conv : UnboundConversion}
    (hconv : conv.width = {} ∧ conv.precision = {}) (hk : k < 2 ^ 31) (c : UInt8)
    (pos : List UInt8) : scanAmounts positional ⟨conv, k, c, pos⟩ = .error .null ∨
      (scanAmounts positional ⟨conv, k, c, pos⟩ = .error .overflow ∧ positional = false ∧
        Overflows k (c :: pos)) ∨
      (∃ fs pos', c :: pos = fs.map Flag.byte ++ pos' ∧
        scanAmounts positional ⟨conv, k, c, pos⟩
          = .ok (.restart { conv with flags := conv.flags ||| flagBits fs }) ∧
        positional = false) ∨
      (∃ s, scanAmounts positional ⟨conv, k, c, pos⟩ = .ok (.done s) ∧ IsDigit s.c) ∨
      ∃ fs w p c' pos',
        w.WidthOk positional ∧ (∀ a, p = some a → a.PrecisionOk positional) ∧
        c :: pos = fs.map Flag.byte ++ (w.render ++ (renderPrecision p ++ c' :: pos')) ∧
        k + w.args + precisionArgs p < 2 ^ 31 ∧ scanAmounts positional ⟨conv, k, c, pos⟩
          = .ok (.done ⟨amountsConv conv k fs w p, k + w.args + precisionArgs p, c', pos'⟩) := by
  rw [scanAmounts_eq]
  rcases flagsLoop_cases (pos.length + 1) conv k c pos (Nat.lt_succ_self _)
    with hnull | ⟨fs, c1, pos1, heq, hlen, hc1⟩
  · exact .inl (by rw [hnull]; rfl)
  rw [flagsLoop_text fs _ conv k c c1 pos pos1 heq hlen hc1]
  simp only [Except.bind]
  have h48 : c1 ≠ 48 := fun h => hc1 kZero (by rw [h]; rfl)
  rcases scanWidth_cases positional { conv with flags := conv.flags ||| flagBits fs } hk h48 pos1
    with hnull | ⟨hover, hpos, hlast, rest, hrest, heq1⟩ | ⟨hrestart, hpos, -⟩ | ⟨s, hs, hdigit⟩ |
      ⟨w, c2, pos2, hw, heq1, hfollows, hargs⟩
  · exact .inl (by rw [hnull])
  · refine .inr (.inl ⟨by rw [hover], hpos, ⟨fs, .star none, false⟩, rest, rfl, hrest, ?_, ?_⟩)
    · rw [heq, heq1]
      simp [Opening.render, Amount.render, renderPosition]
    · simp only [Opening.args, Amount.args]
      omega
  · exact .inr (.inr (.inl ⟨fs, c1 :: pos1, heq, by rw [hrestart], hpos⟩))
  · refine .inr (.inr (.inr (.inl ⟨s, ?_, hdigit⟩)))
    have h46 : s.c ≠ 46 := fun h => by
      rw [h] at hdigit
      exact absurd hdigit (by decide)
    rw [hs]
    dsimp only
    rw [scanPrecision, if_neg h46]
    rfl
  rw [scanWidth_text hw { conv with flags := conv.flags ||| flagBits fs } hconv.1 k heq1 hfollows
    hargs]
  dsimp only
  rw [afterWidth]
  rcases scanPrecision_cases positional { conv with
      width := w.input k, flags := conv.flags ||| flagBits fs ||| amountBits w } hargs c2 pos2
    with hnull | ⟨hover, hpos, hlast, rest, hrest, heq2⟩ | ⟨s, hs, hdigit⟩ |
      ⟨p, c', pos', hp, heq2, hfollows', hargs'⟩
  · exact .inl (by rw [hnull]; rfl)
  · refine .inr (.inl ⟨by rw [hover]; rfl, hpos, ⟨fs, w, true⟩, rest, hpos ▸ hw, hrest, ?_, ?_⟩)
    · rw [heq, heq1, heq2]
      simp [Opening.render]
    · simp only [Opening.args, Bool.toNat_true]
      omega
  · exact .inr (.inr (.inr (.inl ⟨s, by rw [hs]; rfl, hdigit⟩)))
  · refine .inr (.inr (.inr (.inr ⟨fs, w, p, c', pos', hw, hp, by rw [heq, heq1, heq2], hargs',
      ?_⟩)))
    rw [scanPrecision_text hp { conv with
      width := w.input k, flags := conv.flags ||| flagBits fs ||| amountBits w } hconv.2 _ heq2
      hfollows' hargs']
    rfl

/-! ## Specs -/

/-- The first character behind the precision. -/
theorem first_length (m : LengthMod) {ch : FormatConversionChar} (hch : ch ≠ .kNone)
    {rest : List UInt8} (h : m.bytes ++ ch.byte :: rest = c :: pos) : 65 ≤ c.toNat := by
  have hbyte : 65 ≤ ch.byte.toNat := by
    cases ch <;> first | decide | exact absurd rfl hch
  cases m <;> (obtain ⟨rfl, -⟩ := List.cons.inj h) <;> first | exact hbyte | decide

theorem flags_eq (s : Spec) : kBasic ||| flagBits s.flags ||| amountBits s.width |||
    precisionBits s.precision ||| lengthBits s.length s.conv
      = flagBits s.flags ||| if s.nonBasic then kNonBasic else kBasic := by
  have hor : ∀ b, b ||| kNonBasic ||| kNonBasic = b ||| kNonBasic := fun b => by
    rw [BitVec.or_assoc, BitVec.or_self]
  unfold amountBits precisionBits lengthBits Spec.nonBasic
  by_cases hw : s.width = .none <;> by_cases hp : s.precision = none <;>
    by_cases hl : s.length = .l ∧ s.conv = .c <;> simp [hw, hp, hl, hor]

/-- What a spec leaves behind, whether it is positional or not. -/
def afterSpec (s : Spec) (a : Option ℤ) (k : ℤ) : UnboundConversion :=
  { s.convert k with argPosition := a }

variable {s : Spec}

theorem amountsConv_flags {positional : Bool} (hs : s.WellFormed positional) (a : Option ℤ) (k : ℤ)
    (hv : s.conv = .v) :
    (amountsConv { argPosition := a } k s.flags s.width s.precision).flags = kBasic ∧
      s.length = .none := by
  obtain ⟨hf, hw, hp, hl⟩ := hs.v hv
  refine ⟨?_, hl⟩
  simp [amountsConv, hf, hw, hp, flagBits, amountBits, precisionBits]

/-- A spec behind its position is read as the grammar says. -/
theorem scanBody_text {positional : Bool} (hs : s.WellFormed positional) (a : Option ℤ)
    (hk : k + s.width.args + precisionArgs s.precision < 2 ^ 31) {rest : List UInt8}
    (heq : c :: pos = s.flags.map Flag.byte ++ (s.width.render ++ (renderPrecision s.precision ++
      (s.length.bytes ++ s.conv.byte :: rest)))) :
    ∃ t, scanAmounts positional ⟨{ argPosition := a }, k, c, pos⟩ = .ok (.done t) ∧
      scanConv positional t = finishConversion positional
        ⟨{ afterSpec s a k with conv := .kNone }, k + s.width.args + precisionArgs s.precision,
          s.conv.byte, rest⟩ s.conv := by
  obtain ⟨c', pos', h'⟩ := exists_cons_append s.length.bytes s.conv.byte rest
  rw [h'] at heq
  refine ⟨_, scanAmounts_text hs.width hs.precision ⟨rfl, rfl⟩ heq (first_length _ hs.conv h') hk,
    ?_⟩
  rw [scanConv_text positional rfl _ hs.conv (fun hv => amountsConv_flags hs a k hv) h'.symm]
  simp only [amountsConv, flags_eq]
  rfl

theorem render_append (s : Spec) (rest : List UInt8) : s.render ++ rest =
    renderPosition s.position ++ (s.flags.map Flag.byte ++ (s.width.render ++
      (renderPrecision s.precision ++ (s.length.bytes ++ s.conv.byte :: rest)))) := by
  simp [Spec.render]

/-- The part of a spec behind its position is not empty. -/
theorem exists_cons_body (s : Spec) (rest : List UInt8) : ∃ c pos,
    s.flags.map Flag.byte ++ (s.width.render ++ (renderPrecision s.precision ++
      (s.length.bytes ++ s.conv.byte :: rest))) = c :: pos := by
  simp only [← List.append_assoc]
  exact exists_cons_append _ _ _

/-- A positional amount takes no argument of the list and does not depend on it. -/
theorem PositionOk.star {position : Option (List ℕ)} (h : PositionOk true position) :
    (Amount.star position).args = 0 ∧
      ∀ k n, (Amount.star position).input k = (Amount.star position).input n := by
  rcases position with _ | ds
  · cases h
  · exact ⟨rfl, fun _ _ => rfl⟩

theorem Amount.WidthOk.positional (h : w.WidthOk true) :
    w.args = 0 ∧ ∀ k n, w.input k = w.input n := by
  rcases w with _ | ds | position
  · exact ⟨rfl, fun _ _ => rfl⟩
  · exact ⟨rfl, fun _ _ => rfl⟩
  · exact PositionOk.star h

theorem precision_positional (h : ∀ a, p = some a → a.PrecisionOk true) :
    precisionArgs p = 0 ∧ ∀ k n, precisionInput k p = precisionInput n p := by
  rcases p with _ | _ | ds | position
  · exact ⟨rfl, fun _ _ => rfl⟩
  · exact ⟨rfl, fun _ _ => rfl⟩
  · exact ⟨rfl, fun _ _ => rfl⟩
  · exact PositionOk.star (h _ rfl)

namespace Spec

variable {s : Spec}

theorem WellFormed.exists_position (hs : s.WellFormed true) :
    ∃ ds, s.position = some ds ∧ Counting ds := by
  have h := hs.position
  rcases hp : s.position with _ | ds
  · rw [hp] at h
    cases h
  · rw [hp] at h
    exact ⟨ds, rfl, h.2⟩

theorem WellFormed.position_eq_none (hs : s.WellFormed false) : s.position = none := by
  have h := hs.position
  rcases hp : s.position with _ | ds
  · rfl
  · rw [hp] at h
    cases h.1

/-- A positional spec does not depend on the arguments in front of it. -/
theorem WellFormed.convert_eq (hs : s.WellFormed true) (k n : ℤ) : s.convert k = s.convert n := by
  obtain ⟨ds, hds, -⟩ := hs.exists_position
  obtain ⟨hargs, hw⟩ := hs.width.positional
  obtain ⟨-, hp⟩ := precision_positional hs.precision
  simp only [convert, hds, hargs, Nat.cast_zero, add_zero, hw k n, hp k n]

end Spec

theorem consumeConversion_text (hs : s.WellFormed false) (hk : k + s.args < 2 ^ 31)
    (rest : List UInt8) :
    consumeConversion (s.render ++ rest) {} k = .ok ⟨s.convert k, k + s.args, rest⟩ := by
  have hnone := hs.position_eq_none
  have hargs : k + s.args = k + s.width.args + precisionArgs s.precision + 1 := by
    rw [Spec.args, if_pos hnone]
    push_cast
    ring
  obtain ⟨c, pos, hbody⟩ := exists_cons_body s rest
  obtain ⟨t, ht, hconv⟩ := scanBody_text hs none (k := k) (by omega) hbody.symm
  have hrender : s.render ++ rest = c :: pos := by
    rw [render_append, hnone, ← hbody]
    rfl
  rw [hrender, consumeConversion, getChar_cons]
  simp only [Except.bind]
  rw [ht]
  dsimp only
  have hlt : k + s.width.args + precisionArgs s.precision + 1 < 2 ^ 31 := by omega
  rw [hconv, finishConversion, if_neg Bool.false_ne_true, increment_of_lt hlt]
  simp only [Except.map, afterSpec, hargs, Spec.convert, hnone]

theorem consumeConversionPositional_text (hs : s.WellFormed true) {n : ℤ} (hn : n < 2 ^ 31) (k : ℤ)
    (rest : List UInt8) :
    consumeConversionPositional (s.render ++ rest) {} n = .ok ⟨s.convert k, n, rest⟩ := by
  obtain ⟨ds, hds, hcount⟩ := hs.exists_position
  obtain ⟨c, pos, hbody⟩ := exists_cons_body s rest
  have hw := hs.width.positional.1
  have hp := (precision_positional hs.precision).1
  obtain ⟨t, ht, hconv⟩ := scanBody_text hs (some (readDigits 10 0 ds))
    (by rw [hw, hp]; simpa using hn) hbody.symm
  have hrender : s.render ++ rest = text ds ++ 36 :: c :: pos := by
    rw [render_append, hds, hbody, renderPosition, List.append_assoc]
    rfl
  obtain ⟨c0, pos0, h0⟩ := exists_cons_append (text ds) 36 (c :: pos)
  rw [hrender, h0, consumeConversionPositional, getChar_cons]
  simp only [Except.bind]
  rw [scanPosition_text hcount {} n h0.symm]
  dsimp only
  rw [ht]
  dsimp only
  rw [hconv, finishConversion, if_pos rfl, hw, hp, hs.convert_eq k n]
  simp only [afterSpec, Spec.convert, hds, Nat.cast_zero, add_zero]

/-- A positional spec is read again from its start. -/
theorem consumeConversion_restart (hs : s.WellFormed true) (k : ℤ)
    (rest : List UInt8) : consumeConversion (s.render ++ rest) {} k =
      if k ≠ 0 then .error .null else consumeConversionPositional (s.render ++ rest) {} (-1) := by
  obtain ⟨ds, hds, hcount⟩ := hs.exists_position
  obtain ⟨pos, hrender⟩ : ∃ pos, s.render ++ rest = text ds ++ 36 :: pos := by
    rw [render_append, hds, renderPosition, List.append_assoc]
    exact ⟨_, rfl⟩
  obtain ⟨c0, pos0, h0⟩ := exists_cons_append (text ds) 36 pos
  have hfirst := hcount.first h0.symm
  obtain ⟨h48, h57⟩ := isDigit_iff.1 ⟨by omega, hfirst.2⟩
  rw [hrender, h0, consumeConversion, getChar_cons]
  simp only [Except.bind]
  rw [scanAmounts_eq, flagsLoop_stop _ (tag_ne_flags (by dsimp only; omega))]
  simp only [Except.bind]
  rw [scanWidth, if_pos h57, if_pos h48, parseDigits_text hcount.1 h0.symm (by decide)]
  rfl

/-! ## Any text -/

theorem scanConv_digit (positional : Bool) {s : Scan} (h : IsDigit s.c) :
    scanConv positional s = .error .null := by
  have h118 : s.c ≠ 118 := fun heq => by
    rw [heq] at h
    exact absurd h (by decide)
  rw [scanConv, if_neg fun hv => h118 hv.1]
  rcases h.tag with htag | htag <;> rw [htag]

/-- The spec that has been read. -/
theorem wellFormed_of_parts {positional : Bool} {position : Option (List ℕ)} {fs : List Flag}
    {m : LengthMod} {ch : FormatConversionChar} {a : Option ℤ}
    (hposition : PositionOk positional position) (hw : w.WidthOk positional)
    (hp : ∀ a, p = some a → a.PrecisionOk positional) (hch : ch ≠ .kNone)
    (hv : ch = .v → (amountsConv { argPosition := a } k fs w p).flags = kBasic ∧ m = .none) :
    Spec.WellFormed ⟨position, fs, w, p, m, ch⟩ positional := by
  refine ⟨hposition, hw, hp, hch, fun h => ?_⟩
  obtain ⟨hflags, hm⟩ := hv h
  have hne : kNonBasic ≠ kBasic := by decide
  simp only [amountsConv, or_eq_kBasic, amountBits, precisionBits, ite_eq_left_iff, hne,
    imp_false, not_not] at hflags
  exact ⟨flagBits_eq_zero hflags.1.1.2, hflags.1.2, hflags.2, hm⟩

theorem consumeConversionPositional_cases (text : List UInt8) {n : ℤ} (hn : n < 2 ^ 31) :
    consumeConversionPositional text {} n = .error .null ∨
      ∃ s rest, Spec.WellFormed s true ∧ text = s.render ++ rest := by
  rw [consumeConversionPositional]
  rcases text with _ | ⟨c, pos⟩
  · exact .inl rfl
  rw [getChar_cons]
  simp only [Except.bind]
  rcases scanPosition_cases {} n c pos with hnull | ⟨ds, c1, pos1, hds, heq⟩
  · exact .inl (by rw [hnull])
  rw [scanPosition_text hds {} n heq]
  dsimp only
  have hfresh : ∀ a, ({ argPosition := a } : UnboundConversion).width = {} ∧
      ({ argPosition := a } : UnboundConversion).precision = {} := fun _ => ⟨rfl, rfl⟩
  rcases scanAmounts_cases true (hfresh (some (readDigits 10 0 ds : ℤ))) hn c1 pos1 with
    hnull | ⟨-, habs, -⟩ | ⟨_, _, -, -, habs⟩ | ⟨s, hs, hdigit⟩ |
      ⟨fs, w, p, c', pos', hw, hp, heq1, -, hscan⟩
  · exact .inl (by rw [hnull])
  · cases habs
  · cases habs
  · exact .inl (by rw [hs]; exact scanConv_digit true hdigit)
  rw [hscan]
  rcases scanConv_cases true (amountsConv { argPosition := some (readDigits 10 0 ds : ℤ) } n fs w p)
      (n + w.args + precisionArgs p) c' pos' with hnull | ⟨m, ch, rest, hch, hv, heq2⟩
  · exact .inl hnull
  refine .inr ⟨⟨some ds, fs, w, p, m, ch⟩, rest, wellFormed_of_parts ⟨rfl, hds⟩ hw hp hch hv, ?_⟩
  rw [render_append, heq, heq1, heq2, renderPosition, List.append_assoc]
  rfl

theorem consumeConversion_cases (text : List UInt8) (hk : k < 2 ^ 31) :
    consumeConversion text {} k = .error .null ∨
      (consumeConversion text {} k = .error .overflow ∧ (Overflows k text ∨
        ∃ s rest, Spec.WellFormed s false ∧ text = s.render ++ rest ∧ 2 ^ 31 ≤ k + s.args)) ∨
      (∃ s rest, Spec.WellFormed s false ∧ text = s.render ++ rest ∧ k + s.args < 2 ^ 31) ∨
      (k = 0 ∧ ∃ s rest, Spec.WellFormed s true ∧ text = s.render ++ rest) := by
  rcases text with _ | ⟨c, pos⟩
  · exact .inl rfl
  rw [consumeConversion, getChar_cons]
  simp only [Except.bind]
  have hfresh : ({} : UnboundConversion).width = {} ∧ ({} : UnboundConversion).precision = {} :=
    ⟨rfl, rfl⟩
  rcases scanAmounts_cases false hfresh hk c pos with
    hnull | ⟨hover, -, ho⟩ | ⟨fs, pos', heq, hrestart, -⟩ | ⟨s, hs, hdigit⟩ |
      ⟨fs, w, p, c', pos', hw, hp, heq, hargs, hscan⟩
  · exact .inl (by rw [hnull])
  · exact .inr (.inl ⟨by rw [hover], .inl ho⟩)
  · rw [hrestart]
    dsimp only
    by_cases hk0 : k = 0
    swap
    · exact .inl (if_pos hk0)
    rw [if_neg (not_not.2 hk0)]
    rcases fs with _ | ⟨f, fs⟩
    · refine (consumeConversionPositional_cases (c :: pos) (n := -1) (by norm_num)).imp
        (fun h => ?_) fun h => .inr (.inr ⟨hk0, h⟩)
      exact h
    -- a flag in front of the position
    have hc : c = f.byte := (List.cons.inj heq).1
    have h49 : c < 49 ∨ 57 < c := .inl (by rw [hc]; cases f <;> decide)
    left
    rw [consumeConversionPositional, getChar_cons]
    simp only [Except.bind]
    rw [scanPosition, if_pos h49]
  · exact .inl (by rw [hs]; exact scanConv_digit false hdigit)
  rw [hscan]
  dsimp only
  rcases scanConv_cases false (amountsConv {} k fs w p) (k + w.args + precisionArgs p) c' pos' with
    hnull | ⟨m, ch, rest, hch, hv, heq1⟩
  · exact .inl hnull
  have hs : Spec.WellFormed ⟨none, fs, w, p, m, ch⟩ false :=
    wellFormed_of_parts rfl hw hp hch hv
  have hrender : c :: pos = Spec.render ⟨none, fs, w, p, m, ch⟩ ++ rest := by
    rw [render_append, heq, heq1]
    rfl
  have hcount : k + (Spec.args ⟨none, fs, w, p, m, ch⟩ : ℕ) = k + w.args + precisionArgs p + 1 := by
    simp only [Spec.args]
    push_cast
    ring
  by_cases hlast : k + w.args + precisionArgs p = 2 ^ 31 - 1
  · refine .inr (.inl ⟨?_, .inr ⟨_, rest, hs, hrender, by rw [hcount, hlast]; norm_num⟩⟩)
    rw [scanConv_text false rfl _ hch hv heq1, finishConversion, increment, if_pos hlast]
    rfl
  · exact .inr (.inr (.inl ⟨_, rest, hs, hrender, by rw [hcount]; omega⟩))

end Abseil.StrFormat
