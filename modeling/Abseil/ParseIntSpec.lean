import Abseil.ParseInt
import Mathlib.Tactic

/-!
# The language of the integer parsers

`Numeral` is the grammar of an integer after its sign, `Denotes` the integer a text
denotes : the text without whitespace at its ends is a sign, a base prefix, and digits
of the effective base. `safeStrtoBase_correct` : the parsers accept exactly the texts
that denote an integer of the target type, store that integer, saturate when the digits
leave the type before a bad character, and never overflow the type on the way.

Both digit loops are one argument. `Parsed` states what a loop makes of the digits
ahead of it, for either sign; each loop then only has to be matched with the three ways
a digit can be taken (`Parsed.bad`, `Parsed.overflow`, `Parsed.step`).
-/

namespace Abseil

open List

/-! ## The grammar -/

/-- The value of a digit character, in bases up to 36. -/
def digitValue (c : UInt8) : Option ℕ :=
  if 48 ≤ c.toNat ∧ c.toNat ≤ 57 then some (c.toNat - 48)
  else if 65 ≤ c.toNat ∧ c.toNat ≤ 90 then some (c.toNat - 55)
  else if 97 ≤ c.toNat ∧ c.toNat ≤ 122 then some (c.toNat - 87)
  else none

/-- A digit of base `b`. -/
def IsDigit (b : ℤ) (c : UInt8) : Prop :=
  ∃ d, digitValue c = some d ∧ (d : ℤ) < b

/-- `v` followed by the digits `ds` in base `b`, each counted with the sign `s`. -/
def digitsValue (b s : ℤ) (v : ℤ) (ds : List UInt8) : ℤ :=
  ds.foldl (fun v c => v * b + s * ((digitValue c).getD 0 : ℕ)) v

/-- `Numeral base text eff digits` : after the sign, `text` is a prefix that `base`
allows and then `digits`, to be read in the effective base `eff`. In base 0 a leading
`0` is a prefix, and counts as a digit when nothing follows. -/
inductive Numeral : ℤ → List UInt8 → ℤ → List UInt8 → Prop
  | plain {b : ℤ} {ds : List UInt8} : 2 ≤ b → b ≤ 36 → ds ≠ [] → Numeral b ds b ds
  | hex {x : UInt8} {ds : List UInt8} : x = 120 ∨ x = 88 → ds ≠ [] →
      Numeral 16 (48 :: x :: ds) 16 ds
  | autoHex {x : UInt8} {ds : List UInt8} : x = 120 ∨ x = 88 → ds ≠ [] →
      Numeral 0 (48 :: x :: ds) 16 ds
  | autoOct {ds : List UInt8} : Numeral 0 (48 :: ds) 8 ds
  | autoDec {ds : List UInt8} : ds ≠ [] → ds.head? ≠ some 48 → Numeral 0 ds 10 ds

/-- The optional sign : `-` only for signed types. -/
inductive SignOf (t : IntType) : List UInt8 → ℤ → Prop
  | none : SignOf t [] 1
  | plus : SignOf t [43] 1
  | minus : t.signed = true → SignOf t [45] (-1)

/-- `text` without whitespace at its ends is a sign `s` and a numeral with effective
base `eff` and digits `digits`. -/
def Reads (t : IntType) (base : ℤ) (text : List UInt8) (s eff : ℤ) (digits : List UInt8) :
    Prop :=
  ∃ sign body, stripSpace text = sign ++ body ∧ SignOf t sign s ∧ Numeral base body eff digits

/-- `text` denotes the integer `n`. -/
def Denotes (t : IntType) (base : ℤ) (text : List UInt8) (n : ℤ) : Prop :=
  ∃ s eff digits, Reads t base text s eff digits ∧ (∀ c ∈ digits, IsDigit eff c) ∧
    n = digitsValue eff s 0 digits

/-- The bound a value saturates to. -/
def IntType.saturated (t : IntType) (s : ℤ) : ℤ :=
  if s = 1 then t.max else t.min

/-! ## Digits and tables -/

theorem asciiToInt_eq (c : UInt8) : asciiToInt c = ((digitValue c).getD 36 : ℕ) := by
  have table : ∀ n < 256, kAsciiToInt.getD n 36 =
      (((if 48 ≤ n ∧ n ≤ 57 then some (n - 48) else if 65 ≤ n ∧ n ≤ 90 then some (n - 55)
        else if 97 ≤ n ∧ n ≤ 122 then some (n - 87) else none : Option ℕ).getD 36 : ℕ) : ℤ) := by
    decide +kernel
  exact table c.toNat c.toNat_lt

variable {c : UInt8}

theorem digitValue_lt {d : ℕ} (h : digitValue c = some d) : d < 36 := by
  unfold digitValue at h
  split_ifs at h <;> simp only [Option.some.injEq] at h <;> omega

theorem asciiToInt_nonneg (c : UInt8) : 0 ≤ asciiToInt c := by
  rw [asciiToInt_eq]
  exact Int.natCast_nonneg _

theorem asciiToInt_le (c : UInt8) : asciiToInt c ≤ 36 := by
  rw [asciiToInt_eq]
  cases h : digitValue c with
  | none => simp
  | some d =>
    have := digitValue_lt h
    simp only [Option.getD_some]
    omega

variable {b : ℤ}

theorem isDigit_iff (hb : b ≤ 36) (c : UInt8) : IsDigit b c ↔ asciiToInt c < b := by
  rw [asciiToInt_eq, IsDigit]
  cases h : digitValue c with
  | none => simpa using hb
  | some d => simp

/-- The value the loops add for a digit. -/
theorem asciiToInt_of_isDigit (h : IsDigit b c) : asciiToInt c = ((digitValue c).getD 0 : ℕ) := by
  obtain ⟨d, hd, -⟩ := h
  rw [asciiToInt_eq, hd]
  rfl

namespace IntType

theorem min_le_neg (t : IntType) (ht : t.signed = true) : t.min ≤ -37 := by
  cases t <;> first | decide | cases ht

theorem min_nonpos (t : IntType) : t.min ≤ 0 := by
  cases t <;> decide

theorem le_max (t : IntType) : 37 ≤ t.max := by
  cases t <;> decide

theorem inRange_zero (t : IntType) : t.InRange 0 :=
  ⟨t.min_nonpos, le_trans (by decide) t.le_max⟩

variable {x : ℤ}

theorem inRange_of_nonneg (t : IntType) (hx : 0 ≤ x) : t.InRange x ↔ x ≤ t.max :=
  ⟨And.right, fun h => ⟨t.min_nonpos.trans hx, h⟩⟩

theorem inRange_of_nonpos (t : IntType) (hx : x ≤ 0) : t.InRange x ↔ t.min ≤ x :=
  ⟨And.left, fun h => ⟨h, hx.trans (le_trans (by decide) t.le_max)⟩⟩

/-- Bases and digits survive the cast into any of the types. -/
theorem cast_of_small (t : IntType) (h0 : 0 ≤ x) (h : x ≤ 36) : t.cast x = x := by
  have small : ∀ n < 37, t.cast ((n : ℕ) : ℤ) = n := by
    cases t <;> decide
  obtain ⟨n, rfl⟩ := Int.eq_ofNat_of_zero_le h0
  exact small n (by omega)

theorem checked_of_inRange {t : IntType} (h : t.InRange x) : t.checked x = .ok x :=
  if_pos h

end IntType

/-- The precomputed quotients : `vmax / base` and `vmin / base`. -/
theorem overBase_getD (t : IntType) {b : ℕ} (hb : 2 ≤ b) (hb' : b ≤ 36) :
    (kVmaxOverBase t).getD b 0 = t.max.tdiv b ∧ (kVminOverBase t).getD b 0 = t.min.tdiv b := by
  have table : ∀ n < 37, 2 ≤ n → (kVmaxOverBase t).getD n 0 = t.max.tdiv (n : ℕ) ∧
      (kVminOverBase t).getD n 0 = t.min.tdiv (n : ℕ) := by
    cases t <;> decide +kernel
  exact table b (by omega) hb

/-- The guard before the multiplication of the positive loop. -/
theorem le_max_tdiv_iff (t : IntType) {v : ℤ} (hb : 0 < b) : v ≤ t.max.tdiv b ↔ v * b ≤ t.max := by
  rw [Int.tdiv_eq_ediv_of_nonneg (le_trans (by decide) t.le_max)]
  exact Int.le_ediv_iff_mul_le hb

/-- The guard before the multiplication of the negative loop. -/
theorem min_tdiv_le_iff (t : IntType) {v : ℤ} (hb : 0 < b) : t.min.tdiv b ≤ v ↔ t.min ≤ v * b := by
  obtain ⟨m, hm, hm0⟩ : ∃ m, t.min = -m ∧ 0 ≤ m :=
    ⟨-t.min, (neg_neg _).symm, neg_nonneg.mpr t.min_nonpos⟩
  rw [hm, Int.neg_tdiv, Int.tdiv_eq_ediv_of_nonneg hm0, neg_le]
  rw [Int.le_ediv_iff_mul_le hb]
  constructor <;> intro h <;> linarith

/-! ## The digit loops -/

theorem digitsValue_cons (b s v : ℤ) (c : UInt8) (ds : List UInt8) : digitsValue b s v (c :: ds) =
      digitsValue b s (v * b + s * ((digitValue c).getD 0 : ℕ)) ds :=
  rfl

variable {s : ℤ}

/-- Digits only move a value away from zero. -/
theorem le_digitsValue (hb : 1 ≤ b) (hs : s * s = 1) :
    ∀ ds v, 0 ≤ s * v → s * v ≤ s * digitsValue b s v ds
  | [], v, _ => le_refl _
  | c :: ds, v, hv => by
    have hstep : s * v ≤ s * (v * b + s * ((digitValue c).getD 0 : ℕ)) := by
      have hmul := mul_le_mul_of_nonneg_left hb hv
      have hexp : s * (v * b + s * ((digitValue c).getD 0 : ℕ)) =
          s * v * b + (s * s) * ((digitValue c).getD 0 : ℕ) := by ring
      rw [hexp, hs]
      linarith
    exact hstep.trans (le_digitsValue hb hs ds _ (hv.trans hstep))

/-- What a digit loop of sign `s` makes of the digits `ds` ahead of it, at the value `v`. -/
structure Parsed (t : IntType) (b s : ℤ) (ds : List UInt8) (v : ℤ) (r : Bool × ℤ) : Prop where
  accept : r.1 = true ↔ (∀ c ∈ ds, IsDigit b c) ∧ t.InRange (digitsValue b s v ds)
  value : (∀ c ∈ ds, IsDigit b c) → t.InRange (digitsValue b s v ds) →
    r.2 = digitsValue b s v ds
  saturate : ∀ pre, List.IsPrefix pre ds → (∀ c ∈ pre, IsDigit b c) →
    ¬t.InRange (digitsValue b s v pre) → r = (false, t.saturated s)

namespace Parsed

variable {t : IntType} {b s v : ℤ} {c : UInt8} {ds : List UInt8} {r : Bool × ℤ}

theorem nil (hv : t.InRange v) : Parsed t b s [] v (true, v) where
  accept := by simpa [digitsValue] using hv
  value _ _ := rfl
  saturate pre hpre _ hout := by
    rw [prefix_nil.mp hpre] at hout
    exact absurd hv hout

/-- A bad character ends the loop with the value so far. -/
theorem bad (hv : t.InRange v) (hb : b ≤ 36) (hdig : asciiToInt c ≥ b) :
    Parsed t b s (c :: ds) v (false, v) := by
  have hc : ¬IsDigit b c := fun h => absurd ((isDigit_iff hb c).mp h) (not_lt.mpr hdig)
  refine ⟨by simp [hc], fun h _ => absurd (h c (by simp)) hc, fun pre hpre hd hout => ?_⟩
  cases pre with
  | nil => exact absurd hv hout
  | cons d pre =>
    obtain rfl := (cons_prefix_cons.mp hpre).1
    exact absurd (hd d (by simp)) hc

section

variable (hb : 1 ≤ b) (hs : s = 1 ∨ s = -1)
include hb hs

/-- Out of range in the direction of `s`, and so after any further digits. -/
theorem not_inRange_digitsValue (hv : 0 ≤ s * v)
    (hout : ¬t.InRange v) (ds : List UInt8) : ¬t.InRange (digitsValue b s v ds) := by
  have hle := le_digitsValue hb (by rcases hs with rfl | rfl <;> rfl) ds v hv
  rcases hs with rfl | rfl
  · rw [t.inRange_of_nonneg (by linarith)] at hout
    rw [t.inRange_of_nonneg (by linarith)]
    linarith
  · rw [t.inRange_of_nonpos (by linarith)] at hout
    rw [t.inRange_of_nonpos (by linarith)]
    linarith

theorem nonneg_step (hv : 0 ≤ s * v) (c : UInt8) :
    0 ≤ s * (v * b + s * ((digitValue c).getD 0 : ℕ)) :=
  hv.trans (le_digitsValue hb (by rcases hs with rfl | rfl <;> rfl) [c] v hv)

/-- A digit that takes the value out of range saturates. -/
theorem overflow (hsv : 0 ≤ s * v)
    (hc : IsDigit b c) (hout : ¬t.InRange (v * b + s * asciiToInt c)) :
    Parsed t b s (c :: ds) v (false, t.saturated s) := by
  rw [asciiToInt_of_isDigit hc] at hout
  have hall := not_inRange_digitsValue hb hs (nonneg_step hb hs hsv c) hout ds
  refine ⟨?_, fun _ h => absurd h hall, fun _ _ _ _ => rfl⟩
  simp only [Bool.false_eq_true, false_iff, not_and]
  exact fun _ => hall

end

/-- A digit that keeps the value in range continues the loop. -/
theorem step (hv : t.InRange v) (hc : IsDigit b c)
    (h : Parsed t b s ds (v * b + s * asciiToInt c) r) : Parsed t b s (c :: ds) v r := by
  rw [asciiToInt_of_isDigit hc] at h
  refine ⟨?_, fun hd => h.value fun d hd' => hd d (by simp [hd']), ?_⟩
  · rw [h.accept, digitsValue_cons]
    simp [hc]
  intro pre hpre hd hout
  cases pre with
  | nil => exact absurd hv hout
  | cons d pre =>
    obtain ⟨hdc, hpre'⟩ := cons_prefix_cons.mp hpre
    subst hdc
    exact h.saturate pre hpre' (fun e he => hd e (by simp [he])) hout

end Parsed

theorem positiveLoop_parsed (t : IntType) (hb : 1 ≤ b) (hb' : b ≤ 36) :
    ∀ ds v, 0 ≤ v → v ≤ t.max →
      ∃ r, positiveLoop t b (t.max.tdiv b) ds v = .ok r ∧ Parsed t b 1 ds v r
  | [], v, h0, hv => ⟨_, rfl, .nil ((t.inRange_of_nonneg h0).mpr hv)⟩
  | c :: ds, v, h0, hv => by
    have hd0 := asciiToInt_nonneg c
    have hd := asciiToInt_le c
    have hmax := t.le_max
    have hin : t.InRange v := (t.inRange_of_nonneg h0).mpr hv
    have hvb : v ≤ v * b := le_mul_of_one_le_right h0 hb
    have hsum : 0 ≤ v * b + asciiToInt c := by linarith
    simp only [positiveLoop, t.cast_of_small hd0 hd]
    by_cases hdig : asciiToInt c ≥ b
    · rw [if_pos hdig]
      exact ⟨_, rfl, .bad hin hb' hdig⟩
    have hc : IsDigit b c := (isDigit_iff hb' c).mpr (not_le.mp hdig)
    rw [if_neg hdig]
    split_ifs with hq
    · refine ⟨_, rfl, .overflow hb (.inl rfl) (by linarith) hc ?_⟩
      have hlt := mt (le_max_tdiv_iff t (by linarith)).mpr (not_le.mpr hq)
      rw [one_mul, t.inRange_of_nonneg hsum]
      linarith [not_le.mp hlt]
    have hmul : v * b ≤ t.max := (le_max_tdiv_iff t (by linarith)).mp (not_lt.mp hq)
    rw [IntType.checked_of_inRange ((t.inRange_of_nonneg (by linarith)).mpr hmul),
      IntType.checked_of_inRange ((t.inRange_of_nonneg (by linarith)).mpr (by linarith))]
    by_cases hroom : v * b > t.max - asciiToInt c
    · refine ⟨_, if_pos hroom, .overflow hb (.inl rfl) (by linarith) hc ?_⟩
      rw [one_mul, t.inRange_of_nonneg hsum]
      linarith
    have hfit : v * b + asciiToInt c ≤ t.max := by linarith [not_lt.mp hroom]
    obtain ⟨r, hr, hp⟩ := positiveLoop_parsed t hb hb' ds _ hsum hfit
    refine ⟨r, ?_, .step hin hc (by rwa [one_mul])⟩
    show (if v * b > t.max - asciiToInt c then _ else _) = _
    rwa [if_neg hroom, IntType.checked_of_inRange ((t.inRange_of_nonneg hsum).mpr hfit)]

theorem negativeLoop_parsed (t : IntType) (ht : t.signed = true) (hb : 1 ≤ b) (hb' : b ≤ 36) :
    ∀ ds v, v ≤ 0 → t.min ≤ v →
      ∃ r, negativeLoop t b (t.min.tdiv b) ds v = .ok r ∧ Parsed t b (-1) ds v r
  | [], v, h0, hv => ⟨_, rfl, .nil ((t.inRange_of_nonpos h0).mpr hv)⟩
  | c :: ds, v, h0, hv => by
    have hd0 := asciiToInt_nonneg c
    have hmin := t.min_le_neg ht
    have hin : t.InRange v := (t.inRange_of_nonpos h0).mpr hv
    have hvb : v * b ≤ v := by
      have := mul_le_mul_of_nonneg_left hb (neg_nonneg.mpr h0)
      linarith
    have hsum : v * b + -1 * asciiToInt c ≤ 0 := by linarith
    simp only [negativeLoop]
    by_cases hdig : asciiToInt c ≥ b
    · rw [if_pos hdig]
      exact ⟨_, rfl, .bad hin hb' hdig⟩
    have hc : IsDigit b c := (isDigit_iff hb' c).mpr (not_le.mp hdig)
    rw [if_neg hdig]
    split_ifs with hq
    · refine ⟨_, rfl, .overflow hb (.inr rfl) (by linarith) hc ?_⟩
      have hlt := mt (min_tdiv_le_iff t (by linarith)).mpr (not_le.mpr hq)
      rw [t.inRange_of_nonpos hsum]
      linarith [not_le.mp hlt]
    have hmul : t.min ≤ v * b := (min_tdiv_le_iff t (by linarith)).mp (not_lt.mp hq)
    rw [IntType.checked_of_inRange ((t.inRange_of_nonpos (by linarith)).mpr hmul),
      IntType.checked_of_inRange ((t.inRange_of_nonpos (by linarith)).mpr (by linarith))]
    by_cases hroom : v * b < t.min + asciiToInt c
    · refine ⟨_, if_pos hroom, .overflow hb (.inr rfl) (by linarith) hc ?_⟩
      rw [t.inRange_of_nonpos hsum]
      linarith
    have hfit : t.min ≤ v * b + -1 * asciiToInt c := by linarith [not_lt.mp hroom]
    obtain ⟨r, hr, hp⟩ := negativeLoop_parsed t ht hb hb' ds _ hsum hfit
    refine ⟨r, ?_, .step hin hc hp⟩
    have heq : v * b - asciiToInt c = v * b + -1 * asciiToInt c := by ring
    show (if v * b < t.min + asciiToInt c then _ else _) = _
    rwa [if_neg hroom, heq, IntType.checked_of_inRange ((t.inRange_of_nonpos hsum).mpr hfit)]

/-! ## Sign and base -/

theorem hasHexPrefix_iff (text : List UInt8) :
    hasHexPrefix text = true ↔ ∃ x ds, text = 48 :: x :: ds ∧ (x = 120 ∨ x = 88) := by
  match text with
  | [] => simp [hasHexPrefix]
  | [_] => simp [hasHexPrefix]
  | c :: x :: ds => simp [hasHexPrefix]

variable {text ds : List UInt8} {base eff : ℤ}

/-- What the prefix analysis returns is a reading of the text. -/
theorem safeParseBase_numeral (hne : text ≠ []) (h : safeParseBase text base = some (ds, eff)) :
    Numeral base text eff ds ∧ 2 ≤ eff ∧ eff ≤ 36 := by
  unfold safeParseBase at h
  -- Bases 0 and 16 treat a hexadecimal prefix alike.
  have hexCase : ∀ {b : ℤ}, hasHexPrefix text = true →
      (if (text.drop 2).isEmpty then none else some (text.drop 2, (16 : ℤ))) = some (ds, eff) →
      (∀ {x : UInt8} {ds : List UInt8}, x = 120 ∨ x = 88 → ds ≠ [] →
        Numeral b (48 :: x :: ds) 16 ds) → Numeral b text eff ds ∧ 2 ≤ eff ∧ eff ≤ 36 := by
    intro b hhex he hnum
    obtain ⟨x, ds', rfl, hx⟩ := (hasHexPrefix_iff text).mp hhex
    split_ifs at he with hempty
    obtain ⟨rfl, rfl⟩ := he
    exact ⟨hnum hx (by simpa using hempty), by decide, by decide⟩
  by_cases h0 : base = 0
  · subst h0
    rw [if_pos rfl] at h
    by_cases hhex : hasHexPrefix text = true
    · rw [if_pos hhex] at h
      exact hexCase hhex h .autoHex
    split_ifs at h with hoct
    · obtain ⟨ds', rfl⟩ : ∃ ds', text = 48 :: ds' := by
        cases text with
        | nil => exact absurd rfl hne
        | cons c ds' => exact ⟨ds', by simpa using hoct⟩
      obtain ⟨rfl, rfl⟩ := h
      exact ⟨.autoOct, by decide, by decide⟩
    · obtain ⟨rfl, rfl⟩ := h
      exact ⟨.autoDec hne hoct, by decide, by decide⟩
  rw [if_neg h0] at h
  by_cases h16 : base = 16
  · subst h16
    by_cases hhex : hasHexPrefix text = true
    · rw [if_pos hhex] at h
      exact hexCase hhex h .hex
    · rw [if_neg hhex] at h
      obtain ⟨rfl, rfl⟩ := h
      exact ⟨.plain (by decide) (by decide) hne, by decide, by decide⟩
  split_ifs at h with hr
  obtain ⟨rfl, rfl⟩ := h
  exact ⟨.plain hr.1 hr.2 hne, hr⟩

/-- A character that is a digit of no base up to 16. -/
theorem not_isDigit_x {x : UInt8} (hx : x = 120 ∨ x = 88) (hb : b ≤ 16) : ¬IsDigit b x := by
  rintro ⟨d, hd, hlt⟩
  rcases hx with rfl | rfl <;> simp [digitValue] at hd <;> omega

theorem not_isDigit_sign {x : UInt8} (hx : x = 45 ∨ x = 43) (b : ℤ) : ¬IsDigit b x := by
  rintro ⟨d, hd, -⟩
  rcases hx with rfl | rfl <;> simp [digitValue] at hd

/-- The digits `pre` decide the outcome : they are all there are, or they leave the
type. -/
def Decides (t : IntType) (s eff : ℤ) (ds pre : List UInt8) : Prop :=
  List.IsPrefix pre ds ∧ (∀ c ∈ pre, IsDigit eff c) ∧
    (pre = ds ∨ ¬t.InRange (digitsValue eff s 0 pre))

variable {t : IntType} {pre : List UInt8}

/-- A first character that is no digit decides nothing. -/
theorem not_decides_of_bad (hc : ¬IsDigit eff c) : ¬Decides t s eff (c :: ds) pre := by
  rintro ⟨hpre, hd, hor⟩
  cases pre with
  | nil =>
    rcases hor with h | h
    · simp at h
    · exact h t.inRange_zero
  | cons d pre =>
    obtain rfl := (cons_prefix_cons.mp hpre).1
    exact hc (hd d (by simp))

/-- The digit `0` and then a character that is no digit decide nothing. -/
theorem not_decides_of_zero_bad (hc : ¬IsDigit eff c) : ¬Decides t s eff (48 :: c :: ds) pre := by
  rintro ⟨hpre, hd, hor⟩
  match pre with
  | [] =>
    rcases hor with h | h
    · simp at h
    · exact h t.inRange_zero
  | [d] =>
    obtain rfl := (cons_prefix_cons.mp hpre).1
    rcases hor with h | h
    · simp at h
    · exact h (by simpa [digitsValue, digitValue] using t.inRange_zero)
  | d :: e :: pre =>
    obtain rfl := (cons_prefix_cons.mp (cons_prefix_cons.mp hpre).2).1
    exact hc (hd e (by simp))

/-- The prefix analysis finds any reading with decisive digits. -/
theorem safeParseBase_of_numeral (h : Numeral base text eff ds) (hdec : Decides t s eff ds pre) :
    safeParseBase text base = some (ds, eff) := by
  cases h with
  | plain h2 h36 hne =>
    have h0 : base ≠ 0 := by omega
    by_cases h16 : base = 16
    · subst h16
      have hx : hasHexPrefix text = false := by
        by_contra hhex
        obtain ⟨x, ds, rfl, hx⟩ := (hasHexPrefix_iff text).mp (by simpa using hhex)
        exact not_decides_of_zero_bad (not_isDigit_x hx le_rfl) hdec
      simp [safeParseBase, hx]
    · simp [safeParseBase, h0, h16, h2, h36]
  | hex hx hne | autoHex hx hne =>
    simp [safeParseBase, hasHexPrefix, hx, hne]
  | autoOct =>
    have hx : hasHexPrefix (48 :: ds) = false := by
      by_contra hhex
      obtain ⟨x, ds', heq, hx⟩ := (hasHexPrefix_iff _).mp (by simpa using hhex)
      obtain rfl := (cons.inj heq).2
      exact not_decides_of_bad (not_isDigit_x hx (by decide)) hdec
    simp [safeParseBase, hx]
  | autoDec hne hhead =>
    have hx : hasHexPrefix text = false := by
      by_contra hhex
      obtain ⟨x, ds', rfl, -⟩ := (hasHexPrefix_iff _).mp (by simpa using hhex)
      simp at hhead
    simp [safeParseBase, hx, hhead]

/-- What sign and prefix analysis return is a reading of the text. -/
theorem safeParseSignAndBase_reads {neg : Bool}
    (h : safeParseSignAndBase (some text) base = some (ds, eff, neg)) :
    (∃ sign body, stripSpace text = sign ++ body ∧ Numeral base body eff ds ∧
      ((neg = false ∧ (sign = [] ∨ sign = [43])) ∨ (neg = true ∧ sign = [45]))) ∧
      2 ≤ eff ∧ eff ≤ 36 := by
  unfold safeParseSignAndBase at h
  cases hstrip : stripSpace text with
  | nil => simp [hstrip] at h
  | cons c rest =>
    simp only [hstrip] at h
    by_cases hsign : c = 45 ∨ c = 43
    · rw [if_pos (by simpa using hsign)] at h
      split_ifs at h with hrest
      obtain ⟨p, hp, heq⟩ := Option.map_eq_some_iff.mp h
      obtain ⟨rfl, rfl, rfl⟩ : p.1 = ds ∧ p.2 = eff ∧ decide (c = 45) = neg := by simpa using heq
      obtain ⟨hnum, hr⟩ := safeParseBase_numeral (by simpa using hrest) hp
      refine ⟨⟨[c], rest, rfl, hnum, ?_⟩, hr⟩
      rcases hsign with rfl | rfl <;> simp
    · rw [if_neg (by simpa using hsign)] at h
      obtain ⟨p, hp, heq⟩ := Option.map_eq_some_iff.mp h
      obtain ⟨rfl, rfl, rfl⟩ : p.1 = ds ∧ p.2 = eff ∧ decide (c = 45) = neg := by simpa using heq
      obtain ⟨hnum, hr⟩ := safeParseBase_numeral (by simp) hp
      exact ⟨⟨[], c :: rest, rfl, hnum, .inl (by simpa using fun h => hsign (.inl h))⟩, hr⟩

/-- No numeral is empty, and one that starts with a sign has no decisive digits. -/
theorem Numeral.head (h : Numeral base text eff ds) (hdec : Decides t s eff ds pre) :
    ∃ c rest, text = c :: rest ∧ c ≠ 45 ∧ c ≠ 43 := by
  have plainCase : ∀ {ds : List UInt8}, ds ≠ [] → Decides t s eff ds pre →
      ∃ c rest, ds = c :: rest ∧ c ≠ 45 ∧ c ≠ 43 := by
    intro ds hne hdec
    cases ds with
    | nil => exact absurd rfl hne
    | cons c rest =>
      have hc : ¬(c = 45 ∨ c = 43) := fun hc => not_decides_of_bad (not_isDigit_sign hc _) hdec
      exact ⟨c, rest, rfl, fun h => hc (.inl h), fun h => hc (.inr h)⟩
  cases h with
  | plain h2 h36 hne | autoDec hne hhead => exact plainCase hne hdec
  | hex hx hne | autoHex hx hne | autoOct => exact ⟨_, _, rfl, by decide, by decide⟩

/-- The sign of a reading, which only a signed type has. -/
theorem Reads.sign (h : Reads t base text s eff ds) :
    (s = 1 ∨ s = -1) ∧ (s = -1 → t.signed = true) := by
  obtain ⟨sign, body, -, hsign, -⟩ := h
  cases hsign <;> simp_all

/-- Sign and prefix analysis find any reading with decisive digits. -/
theorem safeParseSignAndBase_of_reads (h : Reads t base text s eff ds)
    (hdec : Decides t s eff ds pre) :
    safeParseSignAndBase (some text) base = some (ds, eff, decide (s = -1)) := by
  obtain ⟨sign, body, hstrip, hsign, hnum⟩ := h
  have hbase := safeParseBase_of_numeral hnum hdec
  obtain ⟨c, rest, rfl, h45, h43⟩ := hnum.head hdec
  cases hsign with
  | none => simp [safeParseSignAndBase, hstrip, h45, h43, hbase]
  | plus | minus ht => simp [safeParseSignAndBase, hstrip, hbase]

/-! ## The parsers -/

theorem safeParsePositiveInt_parsed (t : IntType) (ds : List UInt8) (h2 : 2 ≤ b)
    (h36 : b ≤ 36) : ∃ r, safeParsePositiveInt t ds b = .ok r ∧ Parsed t b 1 ds 0 r := by
  obtain ⟨n, rfl⟩ := Int.eq_ofNat_of_zero_le (show 0 ≤ b by linarith)
  unfold safeParsePositiveInt
  rw [t.cast_of_small (by linarith) h36, (overBase_getD t (by omega) (by omega)).1]
  exact positiveLoop_parsed t (by linarith) h36 ds 0 le_rfl (le_trans (by decide) t.le_max)

theorem safeParseNegativeInt_parsed (t : IntType) (ht : t.signed = true) (ds : List UInt8)
    (h2 : 2 ≤ b) (h36 : b ≤ 36) :
    ∃ r, safeParseNegativeInt t ds b = .ok r ∧ Parsed t b (-1) ds 0 r := by
  obtain ⟨n, rfl⟩ := Int.eq_ofNat_of_zero_le (show 0 ≤ b by linarith)
  -- The remainder has the sign of `vmin`, so the quotient is never adjusted.
  have hmod : ¬t.min.tmod n > 0 := by
    have hneg : 0 ≤ (-t.min).tmod n := Int.tmod_nonneg _ (neg_nonneg.mpr t.min_nonpos)
    rw [Int.neg_tmod] at hneg
    linarith
  unfold safeParseNegativeInt
  rw [if_neg hmod, (overBase_getD t (by omega) (by omega)).2]
  exact negativeLoop_parsed t ht (by linarith) h36 ds 0 le_rfl t.min_nonpos

/-- The parsers on a text with a reading : the loop of its sign, on its digits. -/
theorem safeStrtoBase_of_reads {neg : Bool}
    (h : safeParseSignAndBase (some text) base = some (ds, eff, neg))
    (hneg : neg = true → t.signed = true) : ∃ r, safeStrtoBase t (some text) base = .ok r ∧
      Parsed t eff (if neg then -1 else 1) ds 0 r := by
  obtain ⟨-, h2, h36⟩ := safeParseSignAndBase_reads h
  unfold safeStrtoBase safeIntInternal safeUintInternal
  rw [h]
  cases neg with
  | false =>
    obtain ⟨r, hr, hp⟩ := safeParsePositiveInt_parsed t ds h2 h36
    exact ⟨r, by simpa using hr, hp⟩
  | true =>
    obtain ⟨r, hr, hp⟩ := safeParseNegativeInt_parsed t (hneg rfl) ds h2 h36
    exact ⟨r, by simpa [hneg rfl] using hr, hp⟩

/-- The parsers on a text that denotes an integer of the type. -/
theorem safeStrtoBase_of_denotes {n : ℤ} (h : Denotes t base text n) (hn : t.InRange n) :
    safeStrtoBase t (some text) base = .ok (true, n) := by
  obtain ⟨s, eff, ds, hreads, hdigits, rfl⟩ := h
  have hcode := safeParseSignAndBase_of_reads hreads ⟨prefix_refl ds, hdigits, .inl rfl⟩
  have hs := hreads.sign
  obtain ⟨⟨ok, v⟩, hr, hp⟩ := safeStrtoBase_of_reads hcode (by simpa using hs.2)
  rw [show (if decide (s = -1) = true then -1 else 1) = s by
    rcases hs.1 with rfl | rfl <;> rfl] at hp
  rw [hr, show ok = true from hp.accept.mpr ⟨hdigits, hn⟩,
    show v = digitsValue eff s 0 ds from hp.value hdigits hn]

/-- Without a reading in the type's own signs, the parsers store 0 and fail. -/
theorem safeStrtoBase_fail {text : StringView}
    (h : ∀ ds eff neg, safeParseSignAndBase text base = some (ds, eff, neg) →
      neg = true ∧ t.signed = false) : safeStrtoBase t text base = .ok (false, 0) := by
  unfold safeStrtoBase safeIntInternal safeUintInternal
  cases hs : safeParseSignAndBase text base with
  | none => simp
  | some p =>
    obtain ⟨ds, eff, neg⟩ := p
    obtain ⟨rfl, ht⟩ := h ds eff neg hs
    simp [ht]

/-- **The language of the parsers.** For every type, text and base, the parser does not
overflow the type; it accepts exactly the texts that denote an integer of the type and
stores that integer; and digits that leave the type before a bad character store the
bound on their side. -/
theorem safeStrtoBase_correct (t : IntType) (text : StringView) (base : ℤ) :
    ∃ r, safeStrtoBase t text base = .ok r ∧
      (r.1 = true ↔ ∃ n, Denotes t base (text.getD []) n ∧ t.InRange n) ∧
      (∀ n, Denotes t base (text.getD []) n → t.InRange n → r.2 = n) ∧
      ∀ s eff ds pre, Reads t base (text.getD []) s eff ds → List.IsPrefix pre ds →
        (∀ c ∈ pre, IsDigit eff c) → ¬t.InRange (digitsValue eff s 0 pre) →
        r = (false, t.saturated s) := by
  have found : ∀ {s eff ds pre}, Reads t base (text.getD []) s eff ds → Decides t s eff ds pre →
      safeParseSignAndBase text base = some (ds, eff, decide (s = -1)) := by
    intro s eff ds pre hr hdec
    cases text with
    | none =>
      obtain ⟨sign, body, hstrip, -, hnum⟩ := hr
      obtain ⟨-, rfl⟩ : sign = [] ∧ body = [] := by simpa [stripSpace] using hstrip
      cases hnum <;> contradiction
    | some text => exact safeParseSignAndBase_of_reads hr hdec
  by_cases hcode : ∃ ds eff neg, safeParseSignAndBase text base = some (ds, eff, neg) ∧
      (neg = true → t.signed = true)
  · obtain ⟨ds, eff, neg, hcode, hneg⟩ := hcode
    rcases text with _ | text
    · simp [safeParseSignAndBase] at hcode
    obtain ⟨r, hr, hp⟩ := safeStrtoBase_of_reads hcode hneg
    obtain ⟨⟨sign, body, hstrip, hnum, hsign⟩, -⟩ := safeParseSignAndBase_reads hcode
    have hreads : Reads t base text (if neg then -1 else 1) eff ds := by
      refine ⟨sign, body, hstrip, ?_, hnum⟩
      rcases hsign with ⟨rfl, rfl | rfl⟩ | ⟨rfl, rfl⟩
      · exact .none
      · exact .plus
      · exact .minus (hneg rfl)
    -- Any other reading with decisive digits is the one the code found.
    have same : ∀ {s eff' ds' pre}, Reads t base text s eff' ds' → Decides t s eff' ds' pre →
        ds' = ds ∧ eff' = eff ∧ s = if neg then -1 else 1 := by
      intro s eff' ds' pre hr' hdec
      have hfound := found hr' hdec
      rw [hcode] at hfound
      obtain ⟨rfl, rfl, rfl⟩ : ds = ds' ∧ eff = eff' ∧ neg = decide (s = -1) := by
        simpa using hfound
      refine ⟨rfl, rfl, ?_⟩
      rcases hr'.sign.1 with rfl | rfl <;> simp
    refine ⟨r, hr, ?_, ?_, ?_⟩
    · rw [hp.accept]
      constructor
      · rintro ⟨hd, hin⟩
        exact ⟨_, ⟨_, _, _, hreads, hd, rfl⟩, hin⟩
      · rintro ⟨n, ⟨s, eff', ds', hr', hd, rfl⟩, hin⟩
        obtain ⟨rfl, rfl, rfl⟩ := same hr' ⟨prefix_refl _, hd, .inl rfl⟩
        exact ⟨hd, hin⟩
    · rintro n ⟨s, eff', ds', hr', hd, rfl⟩ hin
      obtain ⟨rfl, rfl, rfl⟩ := same hr' ⟨prefix_refl _, hd, .inl rfl⟩
      exact hp.value hd hin
    · intro s eff' ds' pre hr' hpre hd hout
      obtain ⟨rfl, rfl, rfl⟩ := same hr' ⟨hpre, hd, .inr hout⟩
      exact hp.saturate pre hpre hd hout
  · have hno : ∀ {s eff ds pre}, Reads t base (text.getD []) s eff ds →
        ¬Decides t s eff ds pre := by
      intro s eff ds pre hr hdec
      exact hcode ⟨ds, eff, _, found hr hdec, fun h => hr.sign.2 (by simpa using h)⟩
    refine ⟨(false, 0), safeStrtoBase_fail ?_, ?_, ?_, ?_⟩
    · intro ds eff neg h
      by_contra hne
      refine hcode ⟨ds, eff, neg, h, fun hn => ?_⟩
      by_contra ht
      exact hne ⟨hn, by simpa using ht⟩
    · simp only [Bool.false_eq_true, false_iff]
      rintro ⟨n, ⟨s, eff, ds, hr, hd, -⟩, -⟩
      exact hno hr ⟨prefix_refl _, hd, .inl rfl⟩
    · rintro n ⟨s, eff, ds, hr, hd, -⟩
      exact absurd ⟨prefix_refl _, hd, .inl rfl⟩ (hno hr)
    · exact fun s eff ds pre hr hpre hd hout => absurd ⟨hpre, hd, .inr hout⟩ (hno hr)

end Abseil
