import Abseil.DurationFormat

/-!
# What is formatted parses back

The text of a duration is a sign and up to three parts, each a number with a unit.
`Part` says what such a part is : digits, a fraction whose value in ticks is whole,
and the letters of the unit. `AppendNumberUnit` appends parts (`appendNumberUnit_part`,
`appendNumberUnitInt_part`), the loop of `ParseDuration` adds the ticks of a part to
what it has (`parseLoop_part`), and no sum on the way is larger than the whole, so
nothing saturates. `parse_format` puts them together.
-/

namespace Abseil

open List Nat

namespace Duration

open Positional

/-! ## Digits -/

/-- The bytes that `Format64` writes. -/
theorem digitChar_natCast (d : ℕ) : digitChar d = digitByte d := by
  rw [digitChar, digitByte]
  congr 1

theorem format64Loop_eq (w : ℤ) (n : ℕ) (acc : List UInt8) :
    format64Loop w n acc = (w - (numeral 10 n).length, text (numeral 10 n) ++ acc) := by
  induction n using Nat.strong_induction_on generalizing w acc with
  | _ n ih =>
    have hdiv : (n : ℤ).tdiv 10 = (n / 10 : ℕ) := rfl
    have hmod : (n : ℤ).tmod 10 = (n % 10 : ℕ) := rfl
    rw [format64Loop, hdiv, hmod, digitChar_natCast]
    rcases lt_or_ge n 10 with h | h
    · rw [if_pos (by omega), numeral_of_lt h, mod_eq_of_lt h]
      simp [text]
    rw [if_neg (by omega), ih (n / 10) (by omega), numeral_of_ge (by decide) h]
    simp only [text, map_append, length_append, append_assoc, map_cons,
      map_nil, length_cons, length_nil, cons_append, nil_append, Prod.mk.injEq, and_true]
    push_cast
    ring

theorem format64_numeral (n : ℕ) : format64 0 n = text (numeral 10 n) := by
  have hlen : (0 - (numeral 10 n).length : ℤ).toNat = 0 := by omega
  simp only [format64, format64Loop_eq, append_nil, hlen, replicate_zero, nil_append]

variable {n : ℕ}

theorem format64_padded {w : ℕ} (h0 : n ≠ 0) (h : n < 10 ^ w) :
    format64 w n = text (padded 10 w n) := by
  obtain ⟨k, hk⟩ := padded_eq_numeral (by decide) h0 h
  have hlen : k + (numeral 10 n).length = w := by
    rw [← length_padded 10 w n, hk, length_append, length_replicate]
  have hk' : (w - (numeral 10 n).length : ℤ).toNat = k := by omega
  simp only [format64, format64Loop_eq, append_nil, hk', hk, text, map_append, map_replicate]
  rfl

/-- What `while (ep[-1] == '0')` leaves. -/
def stripped (ds : List ℕ) : List ℕ := ds.rdropWhile (· = 0)

theorem text_stripped (ds : List ℕ) (h : ∀ d ∈ ds, d < 10) :
    (text ds).rdropWhile (· = 48) = text (stripped ds) := by
  induction ds using reverseRecOn with
  | nil => rfl
  | append_singleton ds d ih =>
    have hd := digitByte_eq_iff (h d (by simp))
    simp only [text_append, stripped, show text [d] = [digitByte d] from rfl, rdropWhile_concat]
    by_cases h0 : d = 0
    · rw [if_pos (by simpa using hd.mpr h0), if_pos (by simpa using h0)]
      exact ih fun d' hd' => h d' (mem_append_left _ hd')
    · rw [if_neg (by simpa using hd.not.mpr h0), if_neg (by simpa using h0), text_append]
      rfl

theorem stripped_append (ds : List ℕ) : ∃ k, ds = stripped ds ++ replicate k 0 := by
  refine ⟨(ds.rtakeWhile (· = 0)).length, ?_⟩
  have hzero : ds.rtakeWhile (· = 0) = replicate (ds.rtakeWhile (· = 0)).length 0 :=
    eq_replicate_iff.mpr ⟨rfl, fun d hd => by simpa using mem_rtakeWhile_imp hd⟩
  rw [← hzero]
  exact (rdropWhile_append_rtakeWhile ..).symm

theorem stripped_subset {ds : List ℕ} {d : ℕ} (h : d ∈ stripped ds) : d ∈ ds := by
  obtain ⟨k, hk⟩ := stripped_append ds
  rw [hk]
  exact mem_append_left _ h

/-! ## Reading a number -/

/-- The text behind a number of the duration : nothing that continues the digits. -/
def NoDigit : List UInt8 → Prop
  | [] => True
  | c :: _ => c.toNat < 48 ∨ 58 ≤ c.toNat

theorem NoDigit.head {c : UInt8} {rest : List UInt8} (h : NoDigit (c :: rest)) :
    (c.toNat : ℤ) - 48 < 0 ∨ 10 ≤ (c.toNat : ℤ) - 48 := by
  unfold NoDigit at h
  omega

theorem next_digit (v d : ℕ) :
    (v : ℤ) * 10 + (((48 + d : ℕ) : ℤ) - 48) = ((v * 10 + d : ℕ) : ℤ) := by
  push_cast
  ring

variable {rest : List UInt8}

theorem consumeInt_spec (hrest : NoDigit rest) :
    ∀ (ds : List ℕ) (v : ℕ), (∀ d ∈ ds, d < 10) → (readDigits 10 v ds : ℤ) ≤ kint64max →
      consumeInt (text ds ++ rest) v = some (((readDigits 10 v ds : ℕ) : ℤ), rest)
  | [], v, _, _ => by
    cases rest with
    | nil => rfl
    | cons c rest =>
      rw [show text [] ++ c :: rest = c :: rest from rfl, consumeInt, if_pos hrest.head]
      rfl
  | d :: ds, v, hds, hle => by
    have hd : d < 10 := hds d mem_cons_self
    have hchar := toNat_digitByte hd
    rw [readDigits_cons] at hle
    have hge := le_readDigits (b := 10) (by decide) (v * 10 + d) ds
    have hmax : kint64max.tdiv 10 = 922337203685477580 := by decide
    rw [kint64max_eq] at hle
    rw [show text (d :: ds) ++ rest = digitByte d :: (text ds ++ rest) from rfl, consumeInt, hchar,
      hmax, kint64max_eq, if_neg (by omega), if_neg (by omega), if_neg (by omega), readDigits_cons,
      next_digit]
    exact consumeInt_spec hrest ds _ (fun d' h' => hds d' (mem_cons_of_mem _ h'))
      (by rwa [kint64max_eq])

theorem consumeFrac_spec (rest : List UInt8) (hrest : NoDigit rest) :
    ∀ (ds : List ℕ) (f k : ℕ), (∀ d ∈ ds, d < 10) → k + ds.length ≤ 18 →
      consumeFrac (text ds ++ rest) f (10 ^ k) =
        (((readDigits 10 f ds : ℕ) : ℤ), 10 ^ (k + ds.length), rest)
  | [], f, k, _, _ => by
    cases rest with
    | nil => rfl
    | cons c rest =>
      rw [show text [] ++ c :: rest = c :: rest from rfl, consumeFrac, if_pos hrest.head]
      rfl
  | d :: ds, f, k, hds, hle => by
    have hd : d < 10 := hds d mem_cons_self
    have hchar := toNat_digitByte hd
    rw [length_cons] at hle
    have hscale : (10 : ℤ) ^ k ≤ kint64max.tdiv 10 :=
      calc (10 : ℤ) ^ k ≤ 10 ^ 17 := pow_le_pow_right₀ (by norm_num) (by omega)
        _ ≤ kint64max.tdiv 10 := by decide
    rw [show text (d :: ds) ++ rest = digitByte d :: (text ds ++ rest) from rfl, consumeFrac, hchar,
      if_neg (by omega), if_pos hscale, readDigits_cons, length_cons, next_digit, ← pow_succ,
      consumeFrac_spec rest hrest ds (f * 10 + d) (k + 1)
      (fun d' h' => hds d' (mem_cons_of_mem _ h')) (by omega), show k + 1 + ds.length
      = k + (ds.length + 1) by omega]

/-- A number as it is formatted : digits, and a fraction when there is one. -/
def number (n : ℕ) (fs : List ℕ) : List UInt8 :=
  text (numeral 10 n) ++ if fs = [] then [] else 46 :: text fs

theorem consumeDurationNumber_spec {fs : List ℕ} {c : UInt8} (rest : List UInt8)
    (hc : c.toNat < 48 ∨ 58 ≤ c.toNat) (hdot : c ≠ 46) (hn : (n : ℤ) ≤ kint64max)
    (hfs : ∀ d ∈ fs, d < 10) (hlen : fs.length ≤ 18) :
    consumeDurationNumber (number n fs ++ c :: rest)
      = some ((n : ℤ), ((readDigits 10 0 fs : ℕ) : ℤ), 10 ^ fs.length, c :: rest) := by
  have hdigits : ∀ d ∈ numeral 10 n, d < 10 := fun d hd => numeral_lt (by decide) hd
  have hread := readDigits_numeral 10 n
  have hne : 0 < (text (numeral 10 n)).length := by
    rw [text, length_map]
    exact length_pos_of_ne_nil (numeral_ne_nil 10 n)
  have hint (rest : List UInt8) (hrest : NoDigit rest) :
      consumeInt (text (numeral 10 n) ++ rest) 0 = some ((n : ℤ), rest) := by
    have h := consumeInt_spec hrest _ 0 hdigits (by rwa [hread])
    rwa [hread] at h
  unfold number
  by_cases hnil : fs = []
  · subst hnil
    have hlt : ¬(c :: rest).length = (text (numeral 10 n) ++ c :: rest).length := by
      rw [length_append]
      omega
    rw [if_pos rfl, append_nil, consumeDurationNumber, hint (c :: rest) hc]
    dsimp only
    split
    · rename_i h
      exact absurd (cons.inj h).1 hdot
    · rw [if_pos hlt]
      rfl
  have hlt : ¬(46 :: (text fs ++ c :: rest)).length
      = (text (numeral 10 n) ++ 46 :: (text fs ++ c :: rest)).length := by
    rw [length_append]
    omega
  have hdotted : NoDigit (46 :: (text fs ++ c :: rest)) := .inl (by decide)
  have hfrac := consumeFrac_spec (c :: rest) hc fs 0 0 hfs (by omega)
  rw [cast_zero, pow_zero, zero_add] at hfrac
  rw [if_neg hnil, append_assoc, consumeDurationNumber, cons_append, hint _ hdotted]
  dsimp only
  split
  · rename_i h
    rw [← (cons.inj h).2, hfrac]
    exact if_pos (.inl hlt)
  · rename_i hno
    exact absurd rfl (hno _)

/-! ## Reading a unit -/

/-- A duration whose seconds fit. -/
def Fits (m : ℤ) : Prop := -2 ^ 63 * kTicksPerSecond ≤ m ∧ m < 2 ^ 63 * kTicksPerSecond

instance (m : ℤ) : Decidable (Fits m) := inferInstanceAs (Decidable (_ ∧ _))

theorem fits_iff (m : ℤ) : Fits m ↔ IsInt64 (m / kTicksPerSecond) := by
  rw [Fits, isInt64_iff, kTicksPerSecond_eq]
  omega

variable {m : ℤ}

theorem Fits.add {n : ℤ} (hm : Fits m) (hn : Fits n) :
    (saturate m).add (saturate n) = saturate (m + n) := by
  obtain ⟨hfm, htm⟩ := ticks_saturate ((fits_iff m).mp hm)
  obtain ⟨hfn, htn⟩ := ticks_saturate ((fits_iff n).mp hn)
  rw [add_eq_saturate hfm hfn, htm, htn]

theorem Fits.mul {r : ℤ} (hm : Fits m) (hr : IsInt64 r) :
    (saturate m).mul r = saturate (m * r) := by
  obtain ⟨hfm, htm⟩ := ticks_saturate ((fits_iff m).mp hm)
  rw [mul_eq_saturate hfm hr, htm]

theorem Fits.div {r : ℤ} (hm : Fits m) (hr : IsInt64 r) (h0 : r ≠ 0) :
    (saturate m).div r = saturate (m.tdiv r) := by
  obtain ⟨hfm, htm⟩ := ticks_saturate ((fits_iff m).mp hm)
  rw [div_eq_saturate hfm hr h0, htm]

/-- The letters `abbr` stand for a unit of `unit` ticks. What follows them is the end or
the digit of another part. -/
structure UnitText (abbr : List UInt8) (unit : ℕ) : Prop where
  unit_pos : 0 < unit
  unit_fits : Fits unit
  head : ∃ c cs, abbr = c :: cs ∧ 58 ≤ c.toNat
  consume : ∀ rest, (∀ c cs, rest = c :: cs → c.toNat < 58) →
    consumeDurationUnit (abbr ++ rest) = some (saturate unit, rest)

/-- A letter that is read alone when no `s` follows. -/
theorem unitText_letter {c : UInt8} {unit : ℕ} (hunit : 0 < unit ∧ Fits unit)
    (hc : c ≠ 'n'.toUInt8 ∧ c ≠ 'u'.toUInt8 ∧ 58 ≤ c.toNat)
    (hletter : ∀ rest, consumeLetter (c :: rest) = some (saturate unit, rest)) :
    UnitText [c] unit where
  unit_pos := hunit.1
  unit_fits := hunit.2
  head := ⟨c, [], rfl, hc.2.2⟩
  consume rest hrest := by
    cases rest with
    | nil => exact hletter []
    | cons x cs =>
      have hx : x ≠ 's'.toUInt8 := by
        rintro rfl
        exact absurd (hrest _ _ rfl) (by decide)
      rw [singleton_append, consumeDurationUnit, if_neg (by simp [hc]), if_neg (by simp [hc]),
        if_neg (by simp [hx]), hletter]

theorem unitText_nano : UnitText kDisplayNano.abbr 4 where
  unit_pos := by decide
  unit_fits := by decide
  head := ⟨_, _, rfl, by decide⟩
  consume rest _ := by
    change consumeDurationUnit ('n'.toUInt8 :: 's'.toUInt8 :: rest) = _
    rw [consumeDurationUnit, if_pos (by decide)]
    rfl

theorem unitText_micro : UnitText kDisplayMicro.abbr 4000 where
  unit_pos := by decide
  unit_fits := by decide
  head := ⟨_, _, rfl, by decide⟩
  consume rest _ := by
    change consumeDurationUnit ('u'.toUInt8 :: 's'.toUInt8 :: rest) = _
    rw [consumeDurationUnit, if_neg (by decide), if_pos (by decide)]
    rfl

theorem unitText_milli : UnitText kDisplayMilli.abbr 4000000 where
  unit_pos := by decide
  unit_fits := by decide
  head := ⟨_, _, rfl, by decide⟩
  consume rest _ := by
    change consumeDurationUnit ('m'.toUInt8 :: 's'.toUInt8 :: rest) = _
    rw [consumeDurationUnit, if_neg (by decide), if_neg (by decide), if_pos (by decide)]
    rfl

theorem unitText_sec : UnitText kDisplaySec.abbr 4000000000 :=
  unitText_letter (by decide) (by decide) fun rest => by
    rw [consumeLetter, if_pos rfl]
    rfl

theorem unitText_min : UnitText kDisplayMin.abbr 240000000000 :=
  unitText_letter (by decide) (by decide) fun rest => by
    rw [consumeLetter, if_neg (by decide), if_pos rfl]
    rfl

theorem unitText_hour : UnitText kDisplayHour.abbr 14400000000000 :=
  unitText_letter (by decide) (by decide) fun rest => by
    rw [consumeLetter, if_neg (by decide), if_neg (by decide), if_pos rfl]
    rfl

/-! ## Parts -/

/-- A part of the text stands for ticks : nothing for none, or a number and its unit. The
fraction comes to whole ticks. -/
inductive Part (abbr : List UInt8) (unit : ℕ) : ℕ → List UInt8 → Prop
  | none : Part abbr unit 0 []
  | some {n t : ℕ} {fs : List ℕ} : (n : ℤ) ≤ kint64max → (∀ d ∈ fs, d < 10) → fs.length ≤ 11 →
      readDigits 10 0 fs * unit ≤ 10 ^ 11 * 4000000000 →
      t * 10 ^ fs.length = readDigits 10 0 fs * unit →
      Part abbr unit (n * unit + t) (number n fs ++ abbr)

variable {s : ℤ}

theorem Fits.of_le {a b : ℕ} (hs : s = 1 ∨ s = -1) (h : Fits (s * b)) (hab : a ≤ b) :
    Fits (s * a) := by
  unfold Fits at h ⊢
  rcases hs with rfl | rfl <;> omega

variable {unit : ℕ}

/-- The two additions of a round of `ParseDuration`. -/
theorem add_part {M f t k : ℕ} (hs : s = 1 ∨ s = -1) (hunit : Fits unit) (hn : (n : ℤ) ≤ kint64max)
    (hf : f < 10 ^ 11) (hfu : f * unit ≤ 10 ^ 11 * 4000000000) (hk : k ≤ 11)
    (ht : t * 10 ^ k = f * unit) (hfit : Fits (s * (M + (n * unit + t) : ℕ))) :
    let dur := if (n : ℤ) ≠ 0 then (saturate (s * M)).add ((saturate unit).mul (s * n))
      else saturate (s * M)
    (if (f : ℤ) ≠ 0 then dur.add (((saturate unit).mul (s * f)).div (10 ^ k)) else dur)
      = saturate (s * (M + (n * unit + t) : ℕ)) := by
  have hsn : IsInt64 (s * n) := by
    rw [kint64max_eq] at hn
    rw [isInt64_iff]
    rcases hs with rfl | rfl <;> omega
  have hsf : IsInt64 (s * f) := by
    rw [isInt64_iff]
    rcases hs with rfl | rfl <;> omega
  have hscale : IsInt64 ((10 : ℤ) ^ k) := by
    have h : (10 : ℤ) ^ k ≤ 10 ^ 11 := pow_le_pow_right₀ (by norm_num) hk
    have h0 : (0 : ℤ) < 10 ^ k := by positivity
    rw [isInt64_iff]
    omega
  have hfitM : Fits (s * M) := hfit.of_le hs (by omega)
  have hfitn : Fits (s * (n * unit : ℕ)) := hfit.of_le hs (by omega)
  have hfitMn : Fits (s * (M + n * unit : ℕ)) := hfit.of_le hs (by omega)
  have hfitt : Fits (s * t) := hfit.of_le hs (by omega)
  have hfitf : Fits (s * (f * unit : ℕ)) := by
    unfold Fits
    rw [kTicksPerSecond_eq]
    rcases hs with rfl | rfl <;> omega
  have hint : (if (n : ℤ) ≠ 0 then (saturate (s * M)).add ((saturate unit).mul (s * n))
      else saturate (s * M)) = saturate (s * (M + n * unit : ℕ)) := by
    have hmul : (unit : ℤ) * (s * n) = s * (n * unit : ℕ) := by push_cast; ring
    split_ifs with h0
    · rw [hunit.mul hsn, hmul, hfitM.add hfitn]
      congr 1
      push_cast
      ring
    · simp only [ne_eq, cast_eq_zero, not_not] at h0
      simp [h0]
  have hmul : (unit : ℤ) * (s * f) = s * (f * unit : ℕ) := by push_cast; ring
  have hdiv : (s * (f * unit : ℕ)).tdiv (10 ^ k) = s * t := by
    rw [← ht]
    push_cast
    rw [← mul_assoc]
    exact Int.mul_tdiv_cancel _ (by positivity)
  dsimp only
  rw [hint]
  split_ifs with h0
  · rw [hunit.mul hsf, hmul, hfitf.div hscale (by positivity), hdiv, hfitMn.add hfitt]
    congr 1
    push_cast
    ring
  · simp only [ne_eq, cast_eq_zero, not_not] at h0
    have ht0 : t = 0 := by
      rw [h0, zero_mul] at ht
      simpa using ht
    rw [ht0, add_zero]

/-- The end of the text, or the digit a part starts with. -/
def AtPart (rest : List UInt8) : Prop := ∀ c cs, rest = c :: cs → 48 ≤ c.toNat ∧ c.toNat < 58

theorem number_cons (n : ℕ) (fs : List ℕ) : ∃ c cs, number n fs = c :: cs ∧
    48 ≤ c.toNat ∧ c.toNat < 58 := by
  obtain ⟨d, ds, hds⟩ := exists_cons_of_ne_nil (numeral_ne_nil 10 n)
  have hd : d < 10 := numeral_lt (by decide) (hds ▸ mem_cons_self)
  have hchar := toNat_digitByte hd
  exact ⟨digitByte d, text ds ++ if fs = [] then [] else 46 :: text fs,
    by rw [number, hds]; rfl, by omega, by omega⟩

variable {abbr w : List UInt8} {T : ℕ}

theorem Part.atPart (h : Part abbr unit T w) (hrest : AtPart rest) : AtPart (w ++ rest) := by
  cases h with
  | none => exact hrest
  | @some n t fs =>
    obtain ⟨c, cs, hcs, hc⟩ := number_cons n fs
    rw [hcs]
    rintro c' cs' h'
    rwa [← (cons.inj h').1]

/-- A round of `ParseDuration` reads a part and adds its ticks. -/
theorem parseLoop_part {M rounds : ℕ} (hu : UnitText abbr unit) (hp : Part abbr unit T w)
    (hs : s = 1 ∨ s = -1) (hfit : Fits (s * (M + T : ℕ))) (hrest : AtPart rest)
    (hrounds : (w ++ rest).length ≤ rounds) :
    ∃ left, rest.length ≤ left ∧ parseLoop s rounds (w ++ rest) (saturate (s * M))
      = parseLoop s left rest (saturate (s * (M + T : ℕ))) := by
  cases hp with
  | none => exact ⟨rounds, hrounds, by simp⟩
  | @some n t fs hn hfs hlen hbound ht =>
    obtain ⟨c, cs, hcs, -⟩ := number_cons n fs
    obtain ⟨u, us, hus, huc⟩ := hu.head
    have hread := readDigits_lt_pow hfs
    have hpow : 10 ^ fs.length ≤ 10 ^ 11 := Nat.pow_le_pow_right (by decide) hlen
    obtain ⟨left, rfl⟩ : ∃ left, rounds = left + 1 := by
      refine ⟨rounds - 1, ?_⟩
      rw [hcs] at hrounds
      simp only [cons_append, length_cons] at hrounds
      omega
    refine ⟨left, ?_, ?_⟩
    · rw [hcs] at hrounds
      simp only [cons_append, length_cons, length_append] at hrounds
      omega
    have hnumber : consumeDurationNumber (c :: (cs ++ abbr ++ rest))
        = some ((n : ℤ), ((readDigits 10 0 fs : ℕ) : ℤ), 10 ^ fs.length, abbr ++ rest) := by
      have h := consumeDurationNumber_spec (us ++ rest) (.inr huc)
        (by rintro rfl; exact absurd huc (by decide)) hn hfs (by omega)
      rw [hcs, ← cons_append, ← hus] at h
      rw [← h]
      simp
    rw [hcs, cons_append, cons_append, parseLoop, hnumber]
    dsimp only
    rw [hu.consume rest fun c cs h => (hrest c cs h).2]
    dsimp only
    rw [add_part hs hu.unit_fits hn (by omega) hbound hlen ht hfit]

/-! ## Formatting writes parts -/

/-- A whole number of units. -/
theorem Part.some_int (hn : (n : ℤ) ≤ kint64max) :
    Part abbr unit (n * unit) (text (numeral 10 n) ++ abbr) := by
  have hpart : Part abbr unit (n * unit + 0) (number n [] ++ abbr) :=
    .some hn (by simp) (by simp) (by simp) (by simp)
  rwa [number, if_pos rfl, append_nil, add_zero] at hpart

theorem appendNumberUnitInt_part (u : DisplayUnit) (unit : ℕ) (hn : (n : ℤ) ≤ kint64max) :
    Part u.abbr unit (n * unit) (appendNumberUnitInt n u) := by
  rw [appendNumberUnitInt, format64_numeral]
  rcases Nat.eq_zero_or_pos n with rfl | hpos
  · rw [zero_mul]
    exact .none
  obtain ⟨d, ds, hds, hd⟩ := head_numeral 10 hpos.ne'
  have hlt : d < 10 := numeral_lt (by decide) (hds ▸ mem_cons_self)
  have hhead : (text (numeral 10 n)).head? ≠ some 48 := by
    rw [hds]
    exact fun h => hd ((digitByte_eq_iff hlt).mp (Option.some.inj h))
  rw [if_pos (.inl hhead)]
  exact .some_int hn

theorem roundHalfAway_natCast (n : ℕ) : roundHalfAway (n : ℚ) = n := by
  rw [roundHalfAway, if_neg (not_lt.mpr (by positivity)), Int.floor_eq_iff]
  constructor <;> push_cast <;> linarith

/-- The fraction of a unit in the unit's decimals is whole : a tick is 25 of the last place. -/
theorem frac_eq {prec : ℕ} (hunit : 25 * unit = 10 ^ prec) :
    modfInt ((T : ℚ) / unit) = (T / unit : ℕ) ∧
      roundHalfAway (((T : ℚ) / unit - (T / unit : ℕ)) * 10 ^ prec) = (25 * (T % unit) : ℕ) := by
  have hpos : 0 < unit := by
    rcases Nat.eq_zero_or_pos unit with rfl | h
    · have : 0 < 10 ^ prec := by positivity
      omega
    · exact h
  have hdm : (T : ℚ) = unit * (T / unit : ℕ) + (T % unit : ℕ) := by
    exact_mod_cast (div_add_mod T unit).symm
  have hpow : (10 : ℚ) ^ prec = 25 * unit := by exact_mod_cast hunit.symm
  have hfrac : ((T : ℚ) / unit - (T / unit : ℕ)) * 10 ^ prec = (25 * (T % unit) : ℕ) := by
    rw [hpow]
    field_simp
    rw [hdm]
    push_cast
    ring
  have hmod : ((T % unit : ℕ) : ℚ) < unit := by exact_mod_cast mod_lt T hpos
  constructor
  · rw [modfInt, if_neg (not_lt.mpr (by positivity)), Int.floor_eq_iff, Int.cast_natCast,
      le_div_iff₀ (by positivity), div_lt_iff₀ (by positivity)]
    constructor <;> linarith
  · rw [hfrac]
    exact roundHalfAway_natCast _

/-- The digits of the fraction, zeros stripped, still have its value. -/
theorem stripped_value {prec F : ℕ} (hF : F < 10 ^ prec) :
    ∃ k, (stripped (padded 10 prec F)).length + k = prec ∧
      readDigits 10 0 (stripped (padded 10 prec F)) * 10 ^ k = F := by
  obtain ⟨k, hk⟩ := stripped_append _
  have hlen := congrArg length hk
  have hread := congrArg (readDigits 10 0) hk
  rw [length_padded, length_append, length_replicate] at hlen
  rw [readDigits_padded (by decide) 0 hF, readDigits_append, readDigits_replicate_zero] at hread
  exact ⟨k, hlen.symm, by rw [← hread, zero_mul, zero_add]⟩

theorem appendNumberUnit_part (prec : ℕ) (hunit : 25 * unit = 10 ^ prec) (hprec : prec ≤ 11)
    (hT : ((T / unit : ℕ) : ℤ) ≤ kint64max) :
    Part abbr unit T (appendNumberUnit ((T : ℚ) / unit) ⟨abbr, prec, 10 ^ prec⟩) := by
  have hpos : 0 < unit := by
    have : 0 < 10 ^ prec := by positivity
    omega
  obtain ⟨hint, hfrac⟩ := frac_eq (T := T) hunit
  have hmin : min (15 : ℤ) prec = prec := min_eq_right (by omega)
  have hdm := div_add_mod T unit
  have hlt := mod_lt T hpos
  simp only [appendNumberUnit, hmin, hint, Int.cast_natCast, hfrac, format64_numeral]
  by_cases hzero : T % unit = 0
  · by_cases hT0 : T / unit = 0
    · rw [hT0, hzero, mul_zero, zero_add] at hdm
      rw [hzero, hT0, if_neg (by simp), ← hdm]
      exact .none
    have hpart : Part abbr unit (T / unit * unit) (text (numeral 10 (T / unit)) ++ abbr) :=
      .some_int hT
    rw [mul_comm, show unit * (T / unit) = T by omega] at hpart
    rwa [hzero, if_pos (.inl (by exact_mod_cast hT0)), if_neg (by simp), append_nil]
  have hF : 25 * (T % unit) < 10 ^ prec := by omega
  obtain ⟨k, hk, hvalue⟩ := stripped_value hF
  have hdigits : ∀ d ∈ padded 10 prec (25 * (T % unit)), d < 10 :=
    fun d hd => padded_lt (by decide) hd
  have hne : stripped (padded 10 prec (25 * (T % unit))) ≠ [] := by
    intro h
    rw [h, readDigits_nil, zero_mul] at hvalue
    omega
  rw [if_pos (.inr (by exact_mod_cast show 25 * (T % unit) ≠ 0 by omega)), if_pos (by
    exact_mod_cast show 25 * (T % unit) ≠ 0 by omega), format64_padded (by omega) hF,
    text_stripped _ hdigits]
  have hdigits' : ∀ d ∈ stripped (padded 10 prec (25 * (T % unit))), d < 10 :=
    fun d hd => hdigits d (stripped_subset hd)
  generalize stripped (padded 10 prec (25 * (T % unit))) = fs at hk hvalue hne hdigits'
  have hread := readDigits_lt_pow hdigits'
  have hpow : 10 ^ fs.length ≤ 10 ^ 11 := Nat.pow_le_pow_right (by decide) (by omega)
  have hpow' : 10 ^ prec ≤ 10 ^ 11 := Nat.pow_le_pow_right (by decide) hprec
  have hbound : readDigits 10 0 fs * unit ≤ 10 ^ 11 * 4000000000 :=
    Nat.mul_le_mul (by omega) (by omega)
  have hticks : T % unit * 10 ^ fs.length = readDigits 10 0 fs * unit := by
    apply eq_of_mul_eq_mul_right (show 0 < 10 ^ k by positivity)
    calc T % unit * 10 ^ fs.length * 10 ^ k = T % unit * 10 ^ prec := by
          rw [mul_assoc, ← pow_add, hk]
      _ = 25 * (T % unit) * unit := by rw [← hunit]; ring
      _ = readDigits 10 0 fs * unit * 10 ^ k := by rw [← hvalue]; ring
  have hpart : Part abbr unit (T / unit * unit + T % unit) (number (T / unit) fs ++ abbr) :=
    .some hT hdigits' (by omega) hbound hticks
  rwa [mul_comm, hdm, number, if_neg hne] at hpart

/-! ## Round trip -/

theorem saturate_zero : saturate 0 = zeroDuration := by decide

theorem parseLoop_nil (s : ℤ) (rounds : ℕ) (dur : Duration) :
    parseLoop s rounds [] dur = some dur := by
  cases rounds <;> rfl

/-- Text of one part. -/
theorem parseLoop_one (hu : UnitText abbr unit) (hp : Part abbr unit T w) (hs : s = 1 ∨ s = -1)
    (hfit : Fits (s * T)) : parseLoop s w.length w zeroDuration = some (saturate (s * T)) := by
  have hend : AtPart [] := fun c cs h => by cases h
  have hlen : (w ++ []).length ≤ w.length := by simp
  obtain ⟨left, -, hloop⟩ := parseLoop_part hu hp hs (by rwa [zero_add]) hend hlen
  rwa [append_nil, parseLoop_nil, cast_zero, mul_zero, saturate_zero, zero_add] at hloop

/-- Text of hours, minutes and seconds. -/
theorem parseLoop_three {wh wm ws : List UInt8} {h m t : ℕ}
    (hh : Part kDisplayHour.abbr 14400000000000 h wh) (hm : Part kDisplayMin.abbr 240000000000 m wm)
    (ht : Part kDisplaySec.abbr 4000000000 t ws) (hs : s = 1 ∨ s = -1)
    (hfit : Fits (s * (h + m + t : ℕ))) :
    parseLoop s (wh ++ wm ++ ws).length (wh ++ wm ++ ws) zeroDuration
      = some (saturate (s * (h + m + t : ℕ))) := by
  have hend : AtPart [] := fun c cs h => by cases h
  have hs1 : AtPart ws := by simpa using ht.atPart hend
  have hs2 := hm.atPart hs1
  rw [append_assoc]
  obtain ⟨left1, hleft1, hloop1⟩ := parseLoop_part (M := 0) unitText_hour hh hs
    (hfit.of_le hs (by omega)) hs2 le_rfl
  obtain ⟨left2, hleft2, hloop2⟩ := parseLoop_part (M := h) unitText_min hm hs
    (hfit.of_le hs (by omega)) hs1 hleft1
  obtain ⟨left3, -, hloop3⟩ := parseLoop_part (M := h + m) unitText_sec ht hs
    (hfit.of_le hs (by omega)) hend (by simpa using hleft2)
  rw [cast_zero, mul_zero, saturate_zero, zero_add] at hloop1
  rw [append_nil, parseLoop_nil] at hloop3
  rw [hloop1, hloop2, hloop3]

/-- `ParseDuration` of a text of parts, with its sign. -/
theorem parseDuration_parts {d : Duration} (hs : s = 1 ∨ s = -1) (hw : AtPart w) (hne : w ≠ [])
    (hloop : parseLoop s w.length w zeroDuration = some d) :
    parseDuration (if s = 1 then w else 45 :: w) = some d := by
  have hzero : w ≠ [48] := by
    rintro rfl
    cases hloop
  obtain ⟨c, cs, rfl⟩ := exists_cons_of_ne_nil hne
  obtain ⟨hc, hc'⟩ := hw c cs rfl
  have hinf : c :: cs ≠ ['i'.toUInt8, 'n'.toUInt8, 'f'.toUInt8] := by
    intro h
    rw [(cons.inj h).1] at hc'
    exact absurd hc' (by decide)
  have hsign : consumeSign (if s = 1 then c :: cs else 45 :: c :: cs) = (s, c :: cs) := by
    rcases hs with rfl | rfl
    · have hminus : c ≠ 45 := by rintro rfl; exact absurd hc (by decide)
      have hplus : c ≠ 43 := by rintro rfl; exact absurd hc (by decide)
      rw [if_pos rfl, consumeSign, if_neg (by simpa using hminus), if_neg (by simpa using hplus)]
    · rfl
  rw [parseDuration, hsign]
  dsimp only
  rw [if_neg hne, if_neg hzero, if_neg hinf, hloop]

variable {D : ℕ}

/-- Division of tick counts that are not negative. -/
theorem iDivDuration_nat (hT : Fits T) (hD : Fits D) (hpos : 0 < D)
    (hq : ((T / D : ℕ) : ℤ) ≤ kint64max) :
    iDivDuration (saturate T) (saturate D) = (((T / D : ℕ) : ℤ), saturate (T % D : ℕ)) := by
  obtain ⟨hfT, htT⟩ := ticks_saturate ((fits_iff _).mp hT)
  obtain ⟨hfD, htD⟩ := ticks_saturate ((fits_iff _).mp hD)
  have htdiv : (T : ℤ).tdiv D = (T / D : ℕ) := (Int.ofNat_tdiv T D).symm
  obtain ⟨hrem, hquot⟩ := iDivDurationImpl_eq true hfT hfD (by rw [htD]; omega) rfl
  have hmin : kint64min ≤ ((T / D : ℕ) : ℤ) := le_trans (by decide) (Int.natCast_nonneg _)
  have hcut : max kint64min (min ((T : ℤ).tdiv D) kint64max) = (T / D : ℕ) := by
    rw [htdiv, min_eq_left hq, max_eq_right hmin]
  have hdm : ((T / D : ℕ) : ℤ) * D + (T % D : ℕ) = T := by
    rw [mul_comm]
    exact_mod_cast div_add_mod T D
  rw [cutQuotient, if_pos rfl, htT, htD, hcut] at hrem hquot
  refine Prod.ext (hquot ⟨hmin, hq⟩) ?_
  rw [iDivDuration, hrem, show (T : ℤ) - (T / D : ℕ) * D = (T % D : ℕ) by linarith]

theorem fDivDuration_nat (hT : Fits T) (hD : Fits D) :
    fDivDuration (saturate T) (saturate D) = (T : ℚ) / D := by
  simp only [fDivDuration, (ticks_saturate ((fits_iff _).mp hT)).2,
    (ticks_saturate ((fits_iff _).mp hD)).2, Int.cast_natCast]

theorem lt_saturate (hT : Fits T) (hD : Fits D) : (saturate T).lt (saturate D) = true ↔ T < D := by
  obtain ⟨hfT, htT⟩ := ticks_saturate ((fits_iff _).mp hT)
  obtain ⟨hfD, htD⟩ := ticks_saturate ((fits_iff _).mp hD)
  rw [hfT.lt_iff_ticks hfD, htT, htD, cast_lt]

theorem Fits.nat_of_le {a b : ℕ} (h : Fits b) (hab : a ≤ b) : Fits a := by
  have := Fits.of_le (.inl rfl) (by rwa [one_mul]) hab
  rwa [one_mul] at this

theorem Fits.saturate_ne (h : Fits m) : saturate m ≠ infiniteDuration := by
  intro hm
  have hfin := (ticks_saturate ((fits_iff _).mp h)).1
  rw [hm] at hfin
  cases hfin.repLo_lt

/-- The text of less than a second. -/
theorem formatMagnitude_fraction (hT : T < 4000000000) :
    ∃ abbr unit, UnitText abbr unit ∧ Part abbr unit T (formatMagnitude (saturate T)) := by
  have hfit : Fits T := Fits.nat_of_le (b := 4000000000) (by decide) (by omega)
  have hinf := hfit.saturate_ne
  have hmax (unit : ℕ) : ((T / unit : ℕ) : ℤ) ≤ kint64max := by
    have := div_le_self T unit
    rw [kint64max_eq]
    omega
  rw [formatMagnitude, if_neg hinf, show seconds 1 = saturate (4000000000 : ℕ) from rfl,
    if_pos ((lt_saturate hfit (by decide)).mpr hT),
    show microseconds 1 = saturate (4000 : ℕ) from rfl,
    show milliseconds 1 = saturate (4000000 : ℕ) from rfl,
    show nanoseconds 1 = saturate (4 : ℕ) from rfl, fDivDuration_nat hfit (by decide),
    fDivDuration_nat hfit (by decide), fDivDuration_nat hfit (by decide)]
  split_ifs
  · exact ⟨_, _, unitText_nano, appendNumberUnit_part 2 (by decide) (by decide) (hmax _)⟩
  · exact ⟨_, _, unitText_micro, appendNumberUnit_part 5 (by decide) (by decide) (hmax _)⟩
  · exact ⟨_, _, unitText_milli, appendNumberUnit_part 8 (by decide) (by decide) (hmax _)⟩

/-- The text of a second or more. -/
theorem formatMagnitude_hms (hT : 4000000000 ≤ T) (hfit : Fits T) :
    ∃ wh wm ws h m t, formatMagnitude (saturate T) = wh ++ wm ++ ws ∧ T = h + m + t ∧
      Part kDisplayHour.abbr 14400000000000 h wh ∧ Part kDisplayMin.abbr 240000000000 m wm ∧
      Part kDisplaySec.abbr 4000000000 t ws := by
  have hfit1 : Fits (T % 14400000000000 : ℕ) := hfit.nat_of_le (mod_le _ _)
  have hfit2 : Fits (T % 14400000000000 % 240000000000 : ℕ) := hfit1.nat_of_le (mod_le _ _)
  have hle := hfit.2
  rw [kTicksPerSecond_eq] at hle
  have hq1 : ((T / 14400000000000 : ℕ) : ℤ) ≤ kint64max := by
    rw [kint64max_eq]
    omega
  have hq2 : ((T % 14400000000000 / 240000000000 : ℕ) : ℤ) ≤ kint64max := by
    rw [kint64max_eq]
    omega
  have hq3 : ((T % 14400000000000 % 240000000000 / 4000000000 : ℕ) : ℤ) ≤ kint64max := by
    rw [kint64max_eq]
    omega
  refine ⟨_, _, _, _, _, _, ?_, ?_, appendNumberUnitInt_part kDisplayHour 14400000000000 hq1,
    appendNumberUnitInt_part kDisplayMin 240000000000 hq2,
    appendNumberUnit_part 11 (by decide) (by decide) hq3⟩
  · rw [formatMagnitude, if_neg hfit.saturate_ne,
      show seconds 1 = saturate (4000000000 : ℕ) from rfl,
      if_neg ((lt_saturate hfit (by decide)).not.mpr (by omega)),
      show hours 1 = saturate (14400000000000 : ℕ) from rfl,
      show minutes 1 = saturate (240000000000 : ℕ) from rfl,
      iDivDuration_nat hfit (by decide) (by decide) hq1]
    dsimp only
    rw [iDivDuration_nat hfit1 (by decide) (by decide) hq2]
    rw [fDivDuration_nat hfit2 (by decide)]
    rfl
  · omega

/-- The text of a magnitude is made of parts and parses to it. -/
theorem formatMagnitude_parse (hs : s = 1 ∨ s = -1) (hT : Fits T) :
    AtPart (formatMagnitude (saturate T)) ∧
      parseLoop s (formatMagnitude (saturate T)).length (formatMagnitude (saturate T)) zeroDuration
        = some (saturate (s * T)) := by
  have hend : AtPart [] := fun c cs h => by cases h
  have hfit : Fits (s * T) := by
    unfold Fits at hT ⊢
    rcases hs with rfl | rfl <;> omega
  rcases lt_or_ge T 4000000000 with hlt | hge
  · obtain ⟨abbr, unit, hu, hp⟩ := formatMagnitude_fraction hlt
    exact ⟨by simpa using hp.atPart hend, parseLoop_one hu hp hs hfit⟩
  obtain ⟨wh, wm, ws, h, m, t, hw, hsum, hh, hm, ht⟩ := formatMagnitude_hms hge hT
  rw [hw, hsum]
  refine ⟨?_, parseLoop_three hh hm ht hs (hsum ▸ hfit)⟩
  rw [append_assoc]
  exact hh.atPart (hm.atPart (by simpa using ht.atPart hend))

theorem formatMagnitude_zero : formatMagnitude zeroDuration = [] := by
  have hfdiv : fDivDuration zeroDuration (nanoseconds 1) = 0 := by
    simp [fDivDuration, zeroDuration, ticks]
  rw [formatMagnitude, if_neg (by decide), if_pos (by decide), if_pos (by decide), hfdiv]
  norm_num [appendNumberUnit, modfInt, roundHalfAway]

theorem formatMagnitude_ne_nil (hT : Fits T) (h0 : T ≠ 0) : formatMagnitude (saturate T) ≠ [] := by
  intro hnil
  obtain ⟨-, hparse⟩ := formatMagnitude_parse (.inl rfl) hT
  rw [hnil, parseLoop_nil, Option.some.injEq, one_mul] at hparse
  have hticks := congrArg ticks hparse
  rw [(ticks_saturate ((fits_iff _).mp hT)).2] at hticks
  rw [show zeroDuration.ticks = 0 from rfl] at hticks
  exact h0 (by exact_mod_cast hticks.symm)

/-- The text of a magnitude other than zero, with a sign. -/
theorem parse_formatMagnitude (hs : s = 1 ∨ s = -1) (hT : Fits T) (h0 : T ≠ 0) :
    parseDuration (if s = 1 then formatMagnitude (saturate T)
      else 45 :: formatMagnitude (saturate T)) = some (saturate (s * T)) := by
  obtain ⟨hat, hparse⟩ := formatMagnitude_parse hs hT
  exact parseDuration_parts hs hat (formatMagnitude_ne_nil hT h0) hparse

theorem parse_format_finite {d : Duration} (h : d.Finite) (hmin : d ≠ seconds kint64min) :
    parseDuration (formatDuration d) = some d := by
  have hd := h.saturate_ticks
  have hzero : d.lt zeroDuration = true ↔ d.ticks < 0 := h.lt_iff_ticks zeroDuration_finite
  have hfit : Fits d.ticks.natAbs := by
    have h' := (finite_iff d).mp h
    have hne : ¬(d.repHi = -9223372036854775808 ∧ d.repLo = 0) := by
      rintro ⟨h1, h2⟩
      exact hmin (Duration.mk.injEq .. ▸ ⟨h1, h2⟩)
    rw [Fits, ticks, kTicksPerSecond_eq]
    omega
  rw [formatDuration, if_neg hmin]
  rcases lt_trichotomy d.ticks 0 with hneg | hnil | hpos
  · have hT : -d.ticks = d.ticks.natAbs := by omega
    have h0 : d.ticks.natAbs ≠ 0 := by omega
    rw [if_pos (hzero.mpr hneg), neg_eq_saturate h, hT]
    rw [if_neg (by simpa using formatMagnitude_ne_nil hfit h0)]
    have hparse := parse_formatMagnitude (.inr rfl) hfit h0
    rwa [if_neg (by decide), show -1 * (d.ticks.natAbs : ℤ) = d.ticks by omega, hd] at hparse
  · obtain rfl : d = zeroDuration := by rw [← hd, hnil, saturate_zero]
    rw [if_neg (hzero.not.mpr hnil.not_lt), formatMagnitude_zero]
    rfl
  have hT : saturate d.ticks.natAbs = d := by rw [show (d.ticks.natAbs : ℤ) = d.ticks by omega, hd]
  have h0 : d.ticks.natAbs ≠ 0 := by omega
  have hat := (formatMagnitude_parse (.inl rfl) hfit).1
  have hne := formatMagnitude_ne_nil hfit h0
  have hparse := parse_formatMagnitude (.inl rfl) hfit h0
  rw [if_pos rfl, one_mul, hT] at hparse
  rw [hT] at hat hne
  rw [if_neg (hzero.not.mpr (by omega)), if_neg]
  · exact hparse
  · rintro (hnil | hsign)
    · exact hne hnil
    · exact absurd (hat 45 [] hsign).1 (by decide)

/-- The hours, minutes and seconds of `Seconds(kint64min)`. -/
theorem parse_format_min : parseDuration kMinDurationText = some (seconds kint64min) := by
  have hend : AtPart [] := fun c cs h => by cases h
  have hnum : numeral 10 2562047788015215 = [2, 5, 6, 2, 0, 4, 7, 7, 8, 8, 0, 1, 5, 2, 1, 5] := by
    norm_num [numeral]
  have hh : Part kDisplayHour.abbr 14400000000000 _ _ :=
    .some_int (n := 2562047788015215) (by decide)
  have hm : Part kDisplayMin.abbr 240000000000 _ _ := .some_int (n := 30) (by decide)
  have ht : Part kDisplaySec.abbr 4000000000 _ _ := .some_int (n := 8) (by decide)
  have hparse := parseDuration_parts (.inr rfl)
    (by rw [append_assoc]; exact hh.atPart (hm.atPart (by simpa using ht.atPart hend)))
    (by rw [hnum]; exact cons_ne_nil _ _) (parseLoop_three hh hm ht (.inr rfl) (by decide))
  exact hparse

end Duration

open Duration in
/-- What `FormatDuration` writes `ParseDuration` reads back. -/
theorem parse_format {d : Duration} (h : d.Valid) : parseDuration (formatDuration d) = some d := by
  by_cases hmin : d = seconds kint64min
  · rw [formatDuration, if_pos hmin, hmin, parse_format_min]
  rcases h with h | rfl | rfl
  · exact parse_format_finite h hmin
  · rfl
  · rfl

open Duration in
/-- A quarter of a nanosecond before zero. -/
theorem parse_format_tick :
    parseDuration (formatDuration ⟨-1, 3999999999⟩) = some ⟨-1, 3999999999⟩ :=
  parse_format (.inl ⟨by decide, by decide, by decide⟩)

end Abseil
