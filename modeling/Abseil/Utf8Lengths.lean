import Abseil.ByteBuffer

/-!
# A sequence of small numbers in words

`BoundedUtf8LengthSequence` keeps the lengths `1` to `4` of up to `max_elements` characters in
fields of two bits, `32` to a word. The fields are the digits in base four of the words (`Packed`),
a place that was not filled holds a zero and counts as one.

Inserting a length moves the fields behind it up by one place, over the borders of the words. It
returns the sum of the lengths in front of it (`insertAndReturnSumOfPredecessors_spec`), which the
code gets from two population counts. So a run of insertions keeps a list of lengths
(`run_insert_iff`), unless the counts get too large for an `int` (`run_insert_overflow`).
-/

namespace Abseil.Utf8Lengths

open List Option Nat ByteBuffer

/-! ## The code -/

/-- `absl::popcount` of a word of `bits` bits. -/
def popcount : ℕ → ℕ → ℕ
  | 0, _ => 0
  | bits + 1, w => w % 2 + popcount bits (w / 2)

/-- The higher bit of each field. -/
def oddBitsMask : ℕ := 0xaaaaaaaaaaaaaaaa

/-- A sum in an `int`. -/
def addInt (x y : ℕ) : Option ℕ := if x + y < 2 ^ 31 then some (x + y) else none

/-- The loop over the words below the insertion. -/
def countBelow (rep : List ℕ) : ℕ → ℕ → ℕ → Option (ℕ × ℕ)
  | 0, fullPopcount, oddPopcount => some (fullPopcount, oddPopcount)
  | j + 1, fullPopcount, oddPopcount => do
    let word ← rep[j]?
    let fullPopcount ← addInt fullPopcount (popcount 64 word)
    let oddPopcount ← addInt oddPopcount (popcount 64 (word &&& oddBitsMask))
    countBelow rep j fullPopcount oddPopcount

/-- The loop that moves the words above the insertion up by one field. -/
def shiftUp (wordIndex : ℕ) : ℕ → List ℕ → Option (List ℕ)
  | 0, rep => some rep
  | j + 1, rep =>
    if j + 1 > wordIndex then do
      let above ← rep[j + 1]?
      let below ← rep[j]?
      shiftUp wordIndex j (rep.set (j + 1) (above * 2 ^ 2 % 2 ^ 64 ||| below / 2 ^ 62))
    else some rep

/-- `InsertAndReturnSumOfPredecessors`. -/
def insertAndReturnSumOfPredecessors (maxElements : ℕ) (rep : List ℕ) (index utf8Length : ℕ) :
    Option (ℕ × List ℕ) := do
  let index := if index ≥ maxElements then maxElements - 1 else index
  let utf8Length := if utf8Length = 0 ∨ utf8Length > 4 then 1 else utf8Length
  let wordIndex := index / 32
  let bitIndex := 2 * (index % 32)
  let onesBit := 2 ^ bitIndex
  let lowerSeminibblesMask := onesBit - 1
  let higherSeminibblesMask := 2 ^ 64 - 1 - lowerSeminibblesMask
  let word ← rep[wordIndex]?
  let sameWordBitsBelowInsertion := word &&& lowerSeminibblesMask
  let (fullPopcount, oddPopcount) ← countBelow rep wordIndex
    (popcount 64 sameWordBitsBelowInsertion)
    (popcount 64 (sameWordBitsBelowInsertion &&& oddBitsMask))
  let popcounts ← addInt fullPopcount oddPopcount
  let rep ← shiftUp wordIndex (maxElements / 32 - 1) rep
  let word ← rep[wordIndex]?
  return ((index + popcounts) % 2 ^ 32,
    rep.set wordIndex ((word &&& lowerSeminibblesMask) |||
      (utf8Length - 1) * 2 ^ bitIndex % 2 ^ 64 |||
      (word &&& higherSeminibblesMask) * 2 ^ 2 % 2 ^ 64))

/-! ## Digits in base four -/

/-- Digits in base four. -/
def Digits (ds : List ℕ) : Prop := ∀ d ∈ ds, d < 4

variable {ds : List ℕ}

theorem Digits.word_lt (h : Digits ds) : word 4 ds < 4 ^ ds.length :=
  ByteBuffer.word_lt ds h

theorem Digits.take (h : Digits ds) (k : ℕ) : Digits (ds.take k) :=
  fun d hd => h d (mem_of_mem_take hd)

/-- The low digits of a word. -/
theorem word_mod (h : Digits ds) {k : ℕ} (hk : k ≤ ds.length) :
    word 4 ds % 4 ^ k = word 4 (ds.take k) := by
  have hlen := length_take_of_le hk
  have hlt := (h.take k).word_lt
  rw [hlen] at hlt
  conv_lhs => rw [← take_append_drop k ds, word_append, hlen, add_mul_mod_self_left]
  exact mod_eq_of_lt hlt

/-- The high digits of a word. -/
theorem word_div (h : Digits ds) {k : ℕ} (hk : k ≤ ds.length) :
    word 4 ds / 4 ^ k = word 4 (ds.drop k) := by
  have hlen := length_take_of_le hk
  have hlt := (h.take k).word_lt
  rw [hlen] at hlt
  conv_lhs => rw [← take_append_drop k ds, word_append, hlen,
    Nat.add_mul_div_left _ _ (Nat.pow_pos (by norm_num)), Nat.div_eq_of_lt hlt, zero_add]

theorem popcount_zero : ∀ bits, popcount bits 0 = 0
  | 0 => rfl
  | bits + 1 => by rw [popcount, Nat.zero_div, popcount_zero bits]

/-- The mask of the odd bits takes the two of each digit. -/
theorem and_mask : ∀ {ds : List ℕ} {k : ℕ}, Digits ds → ds.length ≤ k →
    word 4 ds &&& word 4 (replicate k 2) = word 4 (ds.map (· &&& 2))
  | [], k, _, _ => by simp [word]
  | d :: ds, 0, _, hk => absurd hk (by simp)
  | d :: ds, k + 1, h, hk => by
    have hd : d < 4 := h d mem_cons_self
    have ih := and_mask (fun x hx => h x (mem_cons_of_mem d hx)) (le_of_succ_le_succ hk)
    rw [replicate_succ, map_cons, word, word, word, ← ih]
    exact and_add_mul_pow (k := 2) hd (by norm_num)

/-- Each bit counts one, and the odd ones twice : together they make the sum of the digits. -/
theorem popcount_add_odd : ∀ {ds : List ℕ} {bits : ℕ}, Digits ds → 2 * ds.length ≤ bits →
    popcount bits (word 4 ds) + popcount bits (word 4 (ds.map (· &&& 2))) = ds.sum
  | [], bits, _, _ => by simp [word, popcount_zero]
  | d :: ds, bits, h, hb => by
    obtain ⟨bits, rfl⟩ : ∃ b, bits = b + 2 := ⟨bits - 2, by simp at hb; omega⟩
    have hd : d < 4 := h d mem_cons_self
    have hb' : 2 * ds.length ≤ bits := by simp at hb; omega
    have ih := popcount_add_odd (fun x hx => h x (mem_cons_of_mem d hx)) hb'
    rw [map_cons, word, word, sum_cons, ← ih, popcount, popcount, popcount, popcount]
    have h1 : ∀ e < 4, ∀ x, (e + 4 * x) % 2 + ((e + 4 * x) / 2 % 2 +
        popcount bits ((e + 4 * x) / 2 / 2)) = e % 2 + e / 2 + popcount bits x := fun e he x => by
      have h2 : (e + 4 * x) / 2 / 2 = x := by omega
      rw [h2]
      omega
    have hand : d &&& 2 < 4 := lt_of_le_of_lt and_le_right (by norm_num)
    rw [h1 d hd, h1 (d &&& 2) hand]
    have hsum : d % 2 + d / 2 + ((d &&& 2) % 2 + (d &&& 2) / 2) = d := by
      interval_cases d <;> rfl
    omega

theorem oddBitsMask_eq : oddBitsMask = word 4 (replicate 32 2) := by decide

/-- The two counts of a word, together. -/
theorem popcount_word (h : Digits ds) (hlen : ds.length ≤ 32) :
    popcount 64 (word 4 ds) + popcount 64 (word 4 ds &&& oddBitsMask) = ds.sum := by
  rw [oddBitsMask_eq, and_mask h hlen]
  exact popcount_add_odd h (by omega)

/-! ## Words -/

/-- The digits of one word. -/
abbrev Fills (ds : List ℕ) : Prop := Digits ds ∧ ds.length = 32

/-- The words that hold the digits `dss`. -/
structure Packed (rep : List ℕ) (dss : List (List ℕ)) : Prop where
  digits : ∀ ds ∈ dss, Digits ds ∧ ds.length = 32
  eq_map : rep = dss.map (word 4)

theorem length_flatten_of_fills {dss : List (List ℕ)} (h : ∀ ds ∈ dss, Fills ds) :
    dss.flatten.length = 32 * dss.length := by
  rw [length_flatten, map_congr_left fun ds hds => (h ds hds).2]
  simp [mul_comm]

variable {rep : List ℕ}

theorem Packed.getElem? {A B : List (List ℕ)}
    (h : Packed rep (A ++ ds :: B)) : rep[A.length]? = some (word 4 ds) := by
  rw [h.eq_map, getElem?_map, getElem?_append_right le_rfl, Nat.sub_self]
  rfl

section

variable {x y x' y' : ℕ}

theorem addInt_of_lt (h : x + y < 2 ^ 31) : addInt x y = some (x + y) := if_pos h

theorem addInt_of_not_lt (h : ¬x + y < 2 ^ 31) : addInt x y = none := if_neg h

theorem addInt_congr (h : x + y = x' + y') : addInt x y = addInt x' y' := by
  rw [addInt, addInt, h]

end

/-- The two counts, added, are the sum of the digits : a count that is too large for an `int` makes
their sum too large. -/
theorem countBelow_spec : ∀ {A B : List (List ℕ)}, Packed rep (A ++ B) →
    ∀ full odd, ((countBelow rep A.length full odd).bind fun c => addInt c.1 c.2)
      = addInt (full + odd) A.flatten.sum := by
  intro A
  induction A using reverseRecOn with
  | nil =>
    intro B _ full odd
    rfl
  | append_singleton A ds ih =>
    intro B h full odd
    rw [append_assoc] at h
    obtain ⟨hd, hlen⟩ := h.digits ds (by simp)
    have hsum := popcount_word hd hlen.le
    rw [length_append, length_singleton, countBelow, h.getElem?, flatten_append, List.sum_append,
      flatten_singleton]
    simp only [bind_eq_bind, bind_some]
    by_cases hfull : full + popcount 64 (word 4 ds) < 2 ^ 31
    · by_cases hodd : odd + popcount 64 (word 4 ds &&& oddBitsMask) < 2 ^ 31
      · rw [addInt_of_lt hfull, bind_some, addInt_of_lt hodd, bind_some, ih h]
        exact addInt_congr (by omega)
      · rw [addInt_of_lt hfull, bind_some, addInt_of_not_lt hodd, bind_none, bind_none,
          addInt_of_not_lt (by omega)]
    · rw [addInt_of_not_lt hfull, bind_none, bind_none, addInt_of_not_lt (by omega)]

theorem exists_concat {α : Type} {l : List α} (h : l ≠ []) : ∃ l' x, l = l' ++ [x] :=
  ⟨l.dropLast, l.getLast h, (dropLast_append_getLast h).symm⟩

/-- The fields of the words above, moved up by one place with `c` in front. -/
def shifted : ℕ → List (List ℕ) → List (List ℕ)
  | _, [] => []
  | c, ds :: dss => (c :: ds.dropLast) :: shifted (ds.getLastD 0) dss

/-- The shift moves every digit by one. -/
theorem flatten_shifted : ∀ c {dss : List (List ℕ)}, (∀ ds ∈ dss, ds ≠ []) →
    (shifted c dss).flatten = (c :: dss.flatten).dropLast
  | c, [], _ => rfl
  | c, ds :: dss, h => by
    obtain ⟨ds, x, rfl⟩ := exists_concat (h ds mem_cons_self)
    have ih := flatten_shifted x fun es hes => h es (mem_cons_of_mem _ hes)
    have hlast : (ds ++ [x]).getLastD 0 = x := by simp
    rw [shifted, flatten_cons, hlast, ih, dropLast_concat, flatten_cons, append_assoc,
      singleton_append, ← cons_append, dropLast_append_of_ne_nil (cons_ne_nil _ _)]

theorem length_shifted : ∀ c dss, (shifted c dss).length = dss.length
  | _, [] => rfl
  | _, ds :: dss => by rw [shifted, length_cons, length_cons, length_shifted]

theorem shifted_fills : ∀ {c : ℕ} {dss : List (List ℕ)}, c < 4 → (∀ ds ∈ dss, Fills ds) →
    ∀ ds ∈ shifted c dss, Fills ds
  | c, [], _, _ => by simp [shifted]
  | c, ds :: dss, hc, h => by
    obtain ⟨⟨hd, hlen⟩, hrest⟩ := forall_mem_cons.1 h
    have hlast : ds.getLastD 0 < 4 := by
      rcases eq_nil_or_concat ds with rfl | ⟨ds', x, rfl⟩
      · simp
      · simpa using hd x (by simp)
    refine forall_mem_cons.2 ⟨⟨?_, ?_⟩, shifted_fills hlast hrest⟩
    · exact forall_mem_cons.2 ⟨hc, fun d hmem => hd d (mem_of_mem_dropLast hmem)⟩
    · rw [length_cons, length_dropLast]
      omega

/-- The words behind `x`, moved up by one field. -/
def shiftWords : ℕ → List ℕ → List ℕ
  | _, [] => []
  | x, y :: ys => (y * 2 ^ 2 % 2 ^ 64 ||| x / 2 ^ 62) :: shiftWords y ys

theorem shiftWords_concat (y : ℕ) : ∀ {x last : ℕ} {ys pre : List ℕ}, x :: ys = pre ++ [last] →
    shiftWords x (ys ++ [y]) = shiftWords x ys ++ [y * 2 ^ 2 % 2 ^ 64 ||| last / 2 ^ 62]
  | x, last, [], pre, h => by
    obtain ⟨-, h⟩ := append_inj' (show [] ++ [x] = pre ++ [last] from h) rfl
    obtain ⟨rfl, -⟩ := cons.inj h
    rfl
  | x, last, z :: ys, [], h => by cases h
  | x, last, z :: ys, a :: pre, h => by
    rw [cons_append, shiftWords, shiftWords, shiftWords_concat y (cons.inj h).2, cons_append]

/-- The loop goes from the last word down, so that it reads each word before it changes it. -/
theorem shiftUp_eq (A : List ℕ) (x : ℕ) (ys : List ℕ) : ∀ C,
    shiftUp A.length (A.length + ys.length) (A ++ x :: (ys ++ C))
      = some (A ++ x :: (shiftWords x ys ++ C)) := by
  induction ys using reverseRecOn with
  | nil =>
    intro C
    rcases hA : A.length with _ | n
    · rfl
    · rw [length_nil, add_zero, shiftUp, if_neg (by omega)]
      rfl
  | append_singleton ys y ih =>
    intro C
    obtain ⟨pre, last, hlast⟩ := exists_concat (cons_ne_nil x ys)
    have hsplit : ∀ z, A ++ x :: (ys ++ z :: C) = (A ++ pre) ++ last :: z :: C := fun z => by
      rw [← cons_append, hlast]
      simp
    have hlen : (A ++ pre).length = A.length + ys.length := by
      have := congrArg length hlast
      simp at this ⊢
      omega
    rw [append_assoc, singleton_append, hsplit, length_append, length_singleton, ← add_assoc,
      shiftUp, if_pos (by omega), ← hlen, getElem?_append_right (by omega),
      Nat.add_sub_cancel_left, getElem?_append_right le_rfl, Nat.sub_self]
    change shiftUp _ _ (((A ++ pre) ++ last :: y :: C).set _ _) = _
    rw [set_append_right _ _ (by omega), Nat.add_sub_cancel_left, set_cons_succ, set_cons_zero,
      ← hsplit, hlen, ih, shiftWords_concat y hlast, append_assoc, singleton_append]

/-- The word above takes the last field of the word below. -/
theorem shift_word {es : List ℕ} (hd : Fills ds) (he : Fills es) :
    word 4 es * 2 ^ 2 % 2 ^ 64 ||| word 4 ds / 2 ^ 62 = word 4 (ds.getLastD 0 :: es.dropLast) := by
  obtain ⟨hd, hdlen⟩ := hd
  obtain ⟨he, helen⟩ := he
  obtain ⟨ds, x, rfl⟩ := exists_concat (l := ds) (by rintro rfl; cases hdlen)
  have hlen : ds.length = 31 := by simpa using hdlen
  have hx : x < 4 := hd x (by simp)
  have hdiv : word 4 (ds ++ [x]) / 2 ^ 62 = x := by
    have := word_div hd (k := 31) (by omega)
    rw [← hlen, drop_left, hlen] at this
    rw [show (2 : ℕ) ^ 62 = 4 ^ 31 by norm_num, this]
    simp [word]
  have hmod : word 4 es * 2 ^ 2 % 2 ^ 64 = 2 ^ 2 * word 4 es.dropLast := by
    have := word_mod he (k := 31) (by omega)
    rw [dropLast_eq_take, helen, ← this, mul_comm,
      show (2 : ℕ) ^ 64 = 2 ^ 2 * 4 ^ 31 by norm_num, mul_mod_mul_left]
  have hlast : (ds ++ [x]).getLastD 0 = x := by simp
  rw [hdiv, hmod, hlast, ← two_pow_add_eq_or_of_lt (by omega : x < 2 ^ 2), word, add_comm]

/-- Shifted words are the words of the shifted digits. -/
theorem shiftWords_map : ∀ {ds : List ℕ} {B : List (List ℕ)}, (∀ es ∈ ds :: B, Fills es) →
    shiftWords (word 4 ds) (B.map (word 4)) = (shifted (ds.getLastD 0) B).map (word 4)
  | ds, [], _ => rfl
  | ds, es :: B, h => by
    obtain ⟨hd, hB⟩ := forall_mem_cons.1 h
    rw [map_cons, shiftWords, shift_word hd (hB es mem_cons_self), shiftWords_map hB, shifted,
      map_cons]

/-! ## Insertion -/

/-- The bits of a word from `b` on. -/
theorem and_high {x b : ℕ} (hx : x < 2 ^ 64) (hb : b ≤ 64) :
    x &&& (2 ^ 64 - 1 - (2 ^ b - 1)) = 2 ^ b * (x / 2 ^ b) := by
  have hpow : 2 ^ b ≤ 2 ^ 64 := Nat.pow_le_pow_right (by norm_num) hb
  have hmask : 2 ^ 64 - 1 - (2 ^ b - 1) = 2 ^ 64 - ((2 ^ b - 1) + 1) := by omega
  refine eq_of_testBit_eq fun i => ?_
  rw [hmask, testBit_and, testBit_two_pow_sub_succ (by omega), testBit_two_pow_sub_one,
    testBit_two_pow_mul, testBit_div_two_pow]
  rcases lt_or_ge i b with hi | hi
  · simp [hi, not_le.2 hi]
  · rw [Nat.sub_add_cancel hi]
    rcases lt_or_ge i 64 with hi' | hi'
    · simp [hi, hi', not_lt.2 hi]
    · rw [Nat.testBit_lt_two_pow (lt_of_lt_of_le hx (Nat.pow_le_pow_right (by norm_num) hi'))]
      simp

/-- The word at the insertion : a field comes in between, and the last field is lost. -/
theorem insert_word {lo E : List ℕ} {x v : ℕ} (hd : Digits (lo ++ E ++ [x]))
    (hlen : (lo ++ E ++ [x]).length = 32) (hv : v < 4) :
    ((word 4 (lo ++ E ++ [x]) &&& (2 ^ (2 * lo.length) - 1)) |||
      v * 2 ^ (2 * lo.length) % 2 ^ 64 |||
      (word 4 (lo ++ E ++ [x]) &&& (2 ^ 64 - 1 - (2 ^ (2 * lo.length) - 1))) * 2 ^ 2 % 2 ^ 64)
      = word 4 (lo ++ v :: E) := by
  have hlen' : lo.length + E.length = 31 := by simp at hlen; omega
  have hlt : word 4 (lo ++ E ++ [x]) < 2 ^ 64 := by
    have := hd.word_lt
    rw [hlen] at this
    exact lt_of_lt_of_le this (by norm_num)
  have hpow : (2 : ℕ) ^ (2 * lo.length) = 4 ^ lo.length := by
    rw [pow_mul]
    norm_num
  have hlo : word 4 lo < 4 ^ lo.length := Digits.word_lt fun d hd' => hd d (by simp [hd'])
  have hE : Digits (E ++ [x]) := fun d hd' => hd d (by simp at hd' ⊢; tauto)
  have hmod : word 4 (lo ++ E ++ [x]) % 4 ^ lo.length = word 4 lo := by
    rw [word_mod hd (by simp), append_assoc, take_left]
  have hdiv : word 4 (lo ++ E ++ [x]) / 4 ^ lo.length = word 4 (E ++ [x]) := by
    rw [word_div hd (by simp), append_assoc, drop_left]
  have hhigh : 4 ^ lo.length * word 4 (E ++ [x]) * 2 ^ 2 % 2 ^ 64
      = 2 ^ (2 * lo.length + 2) * word 4 E := by
    have hsplit : (2 : ℕ) ^ 64 = 2 ^ (2 * lo.length + 2) * 4 ^ E.length := by
      rw [show (4 : ℕ) = 2 ^ 2 by norm_num, ← pow_mul, ← pow_add]
      congr 1
      omega
    have hfac : 4 ^ lo.length * word 4 (E ++ [x]) * 2 ^ 2
        = 2 ^ (2 * lo.length + 2) * word 4 (E ++ [x]) := by
      rw [pow_add, hpow]
      ring
    rw [hfac, hsplit, mul_mod_mul_left, word_mod hE (by simp), take_left]
  have hmid : v * 2 ^ (2 * lo.length) % 2 ^ 64 = 2 ^ (2 * lo.length) * v := by
    rw [mul_comm]
    refine mod_eq_of_lt ?_
    calc 2 ^ (2 * lo.length) * v < 2 ^ (2 * lo.length) * 2 ^ 2 :=
          Nat.mul_lt_mul_of_pos_left (by omega) (Nat.two_pow_pos _)
      _ = 2 ^ (2 * lo.length + 2) := (pow_add 2 _ _).symm
      _ ≤ 2 ^ 64 := Nat.pow_le_pow_right (by norm_num) (by omega)
  have hlow : word 4 lo + 2 ^ (2 * lo.length) * v < 2 ^ (2 * lo.length + 2) := by
    rw [pow_add, hpow]
    have := mul_le_mul_left (4 ^ lo.length) (show v ≤ 3 by omega)
    omega
  rw [and_two_pow_sub_one_eq_mod, and_high hlt (by omega), hpow, hmod, hdiv, hhigh, ← hpow,
    hmid, Nat.or_comm (word 4 lo), ← two_pow_add_eq_or_of_lt (by rw [hpow]; exact hlo), Nat.or_comm,
    ← two_pow_add_eq_or_of_lt (by omega), word_append, word]
  rw [pow_add, hpow]
  ring

/-- `InsertAndReturnSumOfPredecessors` inserts a length and returns the sum of the lengths in front
of it. The last field is lost. -/
theorem insertAndReturnSumOfPredecessors_spec {dss : List (List ℕ)} (h : Packed rep dss)
    {L R : List ℕ} {z utf8Length : ℕ} (hflat : dss.flatten = L ++ (R ++ [z]))
    (hpos : 0 < utf8Length) (hle : utf8Length ≤ 4) :
    ∃ rep' dss', insertAndReturnSumOfPredecessors (32 * dss.length) rep L.length utf8Length
        = (if L.sum < 2 ^ 31 then some ((L.length + L.sum) % 2 ^ 32, rep') else none) ∧
      Packed rep' dss' ∧ dss'.length = dss.length ∧
      dss'.flatten = L ++ (utf8Length - 1) :: R := by
  have hindex : L.length < 32 * dss.length := by
    rw [← length_flatten_of_fills h.digits, hflat]
    simp
  obtain ⟨A, ds, B, rfl, hA⟩ : ∃ A ds B, dss = A ++ ds :: B ∧ A.length = L.length / 32 := by
    have hlt : L.length / 32 < dss.length := by omega
    exact ⟨dss.take (L.length / 32), dss[L.length / 32], dss.drop (L.length / 32 + 1),
      by rw [getElem_cons_drop, take_append_drop], length_take_of_le hlt.le⟩
  obtain ⟨hA', hdB⟩ := forall_mem_append.1 h.digits
  obtain ⟨⟨hd, hlen⟩, hB⟩ := forall_mem_cons.1 hdB
  obtain ⟨lo, E, x, rfl, hlo⟩ : ∃ lo E x, ds = lo ++ E ++ [x] ∧ lo.length = L.length % 32 := by
    obtain ⟨E, x, heq⟩ := exists_concat (l := ds.drop (L.length % 32))
      (ne_nil_of_length_pos (by rw [length_drop]; omega))
    exact ⟨ds.take (L.length % 32), E, x, by rw [append_assoc, ← heq, take_append_drop],
      length_take_of_le (by omega)⟩
  -- the fields in front of the insertion and behind it
  obtain ⟨hfront, hrest⟩ : A.flatten ++ lo = L ∧ E ++ x :: B.flatten = R ++ [z] := by
    refine append_inj (by rw [← hflat]; simp) ?_
    rw [length_append, length_flatten_of_fills hA']
    omega
  have hlod : Digits lo := fun d hd' => hd d (by simp [hd'])
  have hbelow : word 4 (lo ++ E ++ [x]) &&& (2 ^ (2 * (L.length % 32)) - 1) = word 4 lo := by
    rw [and_two_pow_sub_one_eq_mod, pow_mul, ← hlo]
    have := word_mod hd (k := lo.length) (by simp)
    rwa [append_assoc, take_left, ← append_assoc] at this
  have hcount := countBelow_spec h (popcount 64 (word 4 lo))
    (popcount 64 (word 4 lo &&& oddBitsMask))
  rw [popcount_word hlod (by omega)] at hcount
  have hlast : (lo ++ E ++ [x]).getLastD 0 = x := by simp
  have hshift := shiftUp_eq (A.map (word 4)) (word 4 (lo ++ E ++ [x])) (B.map (word 4)) []
  rw [shiftWords_map hdB, hlast, append_nil, append_nil, ← map_cons, ← map_append, ← map_cons,
    ← map_append, length_map, length_map, ← h.eq_map] at hshift
  have hx : x < 4 := hd x (by simp)
  have hholds : Packed ((A ++ (lo ++ E ++ [x]) :: shifted x B).map (word 4))
      (A ++ (lo ++ E ++ [x]) :: shifted x B) :=
    ⟨forall_mem_append.2 ⟨hA', forall_mem_cons.2 ⟨⟨hd, hlen⟩, shifted_fills hx hB⟩⟩, rfl⟩
  have hword : Fills (lo ++ (utf8Length - 1) :: E) := by
    refine ⟨forall_mem_append.2 ⟨hlod, forall_mem_cons.2 ⟨by omega, fun d hd' => hd d ?_⟩⟩, ?_⟩
    · simp [hd']
    · simp at hlen ⊢
      omega
  refine ⟨(A ++ (lo ++ (utf8Length - 1) :: E) :: shifted x B).map (word 4),
    A ++ (lo ++ (utf8Length - 1) :: E) :: shifted x B, ?_,
    ⟨forall_mem_append.2 ⟨hA', forall_mem_cons.2 ⟨hword, shifted_fills hx hB⟩⟩, rfl⟩, ?_, ?_⟩
  · rw [insertAndReturnSumOfPredecessors, if_neg (by omega), if_neg (by omega)]
    rw [← hA, h.getElem?]
    dsimp only [bind_eq_bind, bind_some]
    rw [hbelow, ← Option.bind_assoc, hcount]
    rw [show 32 * (A ++ (lo ++ E ++ [x]) :: B).length / 32 - 1 = A.length + B.length by
      simp only [length_append, length_cons]; omega, hshift]
    dsimp only [bind_some]
    rw [hholds.getElem?]
    dsimp only [bind_some]
    have hset : ((A ++ (lo ++ E ++ [x]) :: shifted x B).map (word 4)).set A.length
        (word 4 (lo ++ (utf8Length - 1) :: E))
        = (A ++ (lo ++ (utf8Length - 1) :: E) :: shifted x B).map (word 4) := by
      rw [map_append, map_append, set_append_right _ _ (by simp), length_map, Nat.sub_self]
      rfl
    rw [← hlo, insert_word hd hlen (by omega), hset, ← hfront, List.sum_append,
      add_comm A.flatten.sum]
    by_cases hsum : lo.sum + A.flatten.sum < 2 ^ 31
    · rw [addInt_of_lt hsum, if_pos hsum]
      rfl
    · rw [addInt_of_not_lt hsum, if_neg hsum, bind_none]
  · rw [length_append, length_cons, length_shifted, length_append, length_cons]
  · have hne : ∀ es ∈ B, es ≠ [] := fun es hes =>
      ne_nil_of_length_pos (by rw [(hB es hes).2]; norm_num)
    have hR : E ++ (x :: B.flatten).dropLast = R := by
      rw [← dropLast_append_of_ne_nil (cons_ne_nil _ _), hrest, dropLast_concat]
    rw [flatten_append, flatten_cons, flatten_shifted x hne, ← hfront, ← hR]
    simp

/-! ## Sequences -/

variable {maxElements : ℕ}

/-- The fields hold `ds` and then zeros. -/
def Fields (maxElements : ℕ) (rep ds : List ℕ) : Prop :=
  ∃ dss, Packed rep dss ∧ 32 * dss.length = maxElements ∧
    dss.flatten = ds ++ replicate (maxElements - ds.length) 0

theorem Fields.zero (h : 32 ∣ maxElements) {k : ℕ} (hk : k ≤ maxElements) :
    Fields maxElements (replicate (maxElements / 32) 0) (replicate k 0) := by
  refine ⟨replicate (maxElements / 32) (replicate 32 0), ⟨fun ds hds => ?_, ?_⟩, ?_, ?_⟩
  · rw [eq_of_mem_replicate hds]
    exact ⟨fun d hd => by rw [eq_of_mem_replicate hd]; omega, length_replicate⟩
  · rw [map_replicate]
    rfl
  · rw [length_replicate, Nat.mul_div_cancel' h]
  · rw [flatten_replicate_replicate, Nat.div_mul_cancel h, length_replicate,
      replicate_append_replicate, Nat.add_sub_cancel' hk]

/-- A length is inserted at its place. -/
theorem Fields.insert {L R : List ℕ} {utf8Length : ℕ} (h : Fields maxElements rep (L ++ R))
    (hlen : (L ++ R).length < maxElements) (hpos : 0 < utf8Length) (hle : utf8Length ≤ 4) :
    ∃ rep', insertAndReturnSumOfPredecessors maxElements rep L.length utf8Length
        = (if L.sum < 2 ^ 31 then some ((L.length + L.sum) % 2 ^ 32, rep') else none) ∧
      Fields maxElements rep' (L ++ (utf8Length - 1) :: R) := by
  obtain ⟨dss, hpacked, rfl, hflat⟩ := h
  obtain ⟨m, hm⟩ : ∃ m, 32 * dss.length = (L ++ R).length + (m + 1) :=
    ⟨32 * dss.length - (L ++ R).length - 1, by omega⟩
  rw [hm, Nat.add_sub_cancel_left, replicate_succ', append_assoc, ← append_assoc R] at hflat
  obtain ⟨rep', dss', heq, hpacked', hlen', hflat'⟩ :=
    insertAndReturnSumOfPredecessors_spec hpacked hflat hpos hle
  have hrest : 32 * dss.length - (L ++ (utf8Length - 1) :: R).length = m := by
    rw [hm, length_append, length_append, length_cons]
    omega
  exact ⟨rep', heq, dss', hpacked', by rw [hlen'], by rw [hflat', hrest]; simp⟩

/-- A sequence and its words : lengths are inserted one by one, each at a place of the sequence. -/
inductive Run (maxElements : ℕ) : List ℕ → List ℕ → Prop
  | empty : Run maxElements (replicate (maxElements / 32) 0) []
  | insert {rep rep' lens : List ℕ} {index utf8Length sum : ℕ} : Run maxElements rep lens →
    lens.length < maxElements → index ≤ lens.length → 0 < utf8Length → utf8Length ≤ 4 →
    insertAndReturnSumOfPredecessors maxElements rep index utf8Length = some (sum, rep') →
    Run maxElements rep' (lens.insertIdx index utf8Length)

theorem exists_append {α : Type} {l : List α} {k : ℕ} (h : k ≤ l.length) :
    ∃ L R, l = L ++ R ∧ L.length = k :=
  ⟨l.take k, l.drop k, (take_append_drop k l).symm, length_take_of_le h⟩

theorem insertIdx_append {α : Type} (n : α) (R : List α) : ∀ L,
    (L ++ R).insertIdx L.length n = L ++ n :: R
  | [] => insertIdx_zero
  | a :: L => by
    rw [cons_append, length_cons, insertIdx_succ_cons, insertIdx_append n R L, cons_append]

theorem sum_map_pred : ∀ {L : List ℕ}, (∀ l ∈ L, 0 < l) → L.length + (L.map (· - 1)).sum = L.sum
  | [], _ => rfl
  | l :: L, h => by
    obtain ⟨hl, hL⟩ := forall_mem_cons.1 h
    rw [sum_cons, ← sum_map_pred hL, map_cons, sum_cons, length_cons]
    omega

variable {lens : List ℕ}

/-- The words of a sequence of lengths. -/
def Stores (maxElements : ℕ) (rep lens : List ℕ) : Prop :=
  (∀ l ∈ lens, 0 < l) ∧ Fields maxElements rep (lens.map (· - 1))

section

variable {index utf8Length : ℕ} (hlen : lens.length < maxElements) (hindex : index ≤ lens.length)
  (hpos : 0 < utf8Length) (hle : utf8Length ≤ 4)
include hlen hindex hpos hle

/-- An insertion, with the case in which the sum overflows. -/
theorem Stores.insert (h : Stores maxElements rep lens) :
    ∃ rep', insertAndReturnSumOfPredecessors maxElements rep index utf8Length
        = (if (lens.take index).sum < 2 ^ 31 + index
          then some ((lens.take index).sum % 2 ^ 32, rep') else none) ∧
      Stores maxElements rep' (lens.insertIdx index utf8Length) := by
  obtain ⟨hall, hfields⟩ := h
  obtain ⟨L, R, rfl, rfl⟩ := exists_append hindex
  have hsum := sum_map_pred fun l hl => hall l (mem_append_left R hl)
  rw [map_append] at hfields
  obtain ⟨rep', heq, hfields'⟩ := hfields.insert (by simpa using hlen) hpos hle
  rw [length_map, hsum] at heq
  rw [take_left, insertIdx_append]
  obtain ⟨hl, hr⟩ := forall_mem_append.1 hall
  exact ⟨rep', heq.trans (if_congr (by omega) rfl rfl),
    forall_mem_append.2 ⟨hl, forall_mem_cons.2 ⟨hpos, hr⟩⟩, by rwa [map_append, map_cons]⟩

end

variable (hm : 32 ∣ maxElements)
include hm

/-- The words of a run store its lengths. -/
theorem Run.stores (h : Run maxElements rep lens) : Stores maxElements rep lens := by
  induction h with
  | empty => exact ⟨by simp, .zero hm (zero_le _)⟩
  | insert _ hlen hindex hpos hle heq ih =>
    obtain ⟨rep', heq', hstores⟩ := ih.insert hlen hindex hpos hle
    rw [heq] at heq'
    split_ifs at heq'
    cases heq'
    exact hstores

/-- **List insertion.** The words of a run store its list, and one more insertion returns the sum of
the lengths in front of it and leads to the run with the length inserted if and only if the counts
of these lengths, without the ones, fit an `int` and the sum fits the result. -/
theorem run_insert_iff (h : Run maxElements rep lens) :
    Stores maxElements rep lens ∧ ∀ {index utf8Length}, lens.length < maxElements →
      index ≤ lens.length → 0 < utf8Length → utf8Length ≤ 4 →
      ((∃ rep', insertAndReturnSumOfPredecessors maxElements rep index utf8Length
          = some ((lens.take index).sum, rep') ∧
        Run maxElements rep' (lens.insertIdx index utf8Length)) ↔
      (lens.take index).sum < 2 ^ 31 + index ∧ (lens.take index).sum < 2 ^ 32) := by
  refine ⟨h.stores hm, fun hlen hindex hpos hle => ?_⟩
  obtain ⟨rep', heq, -⟩ := (h.stores hm).insert hlen hindex hpos hle
  constructor
  · rintro ⟨rep'', hsum, -⟩
    rw [heq] at hsum
    split_ifs at hsum with hint
    exact ⟨hint, (Prod.mk.inj (Option.some.inj hsum)).1 ▸ mod_lt _ (by norm_num)⟩
  · rintro ⟨hint, hsum⟩
    rw [if_pos hint, mod_eq_of_lt hsum] at heq
    exact ⟨rep', heq, h.insert hlen hindex hpos hle heq⟩

theorem run_replicate : ∀ n ≤ maxElements, ∃ rep, Run maxElements rep (replicate n 4)
  | 0, _ => ⟨_, .empty⟩
  | n + 1, hn => by
    obtain ⟨rep, h⟩ := run_replicate n (le_of_succ_le hn)
    have hlen : (replicate n 4).length < maxElements := by rwa [length_replicate]
    obtain ⟨rep', heq, -⟩ := (h.stores hm).insert hlen (Nat.zero_le _) four_pos le_rfl
    rw [take_zero, sum_nil, if_pos (by norm_num)] at heq
    exact ⟨rep', h.insert hlen (Nat.zero_le _) four_pos le_rfl heq⟩

theorem run_none {n : ℕ} (hn : n < maxElements) (hint : 2 ^ 31 ≤ 3 * n) :
    ∃ rep, Run maxElements rep (replicate n 4) ∧
      insertAndReturnSumOfPredecessors maxElements rep n 4 = none := by
  obtain ⟨rep, h⟩ := run_replicate hm n hn.le
  have hlen : (replicate n 4).length = n := length_replicate
  obtain ⟨rep', heq, -⟩ := (h.stores hm).insert (by rwa [hlen]) hlen.ge four_pos le_rfl
  rw [take_of_length_le hlen.le, sum_replicate, smul_eq_mul, if_neg (by omega)] at heq
  exact ⟨rep, h, heq⟩

omit hm

/-- An insertion into the second word, behind thirty-five of forty lengths. -/
theorem run_insert_iff_forty : ∃ rep, Run 64 rep (replicate 40 4) ∧
    ∃ rep', insertAndReturnSumOfPredecessors 64 rep 35 2 = some (140, rep') ∧
      Run 64 rep' ((replicate 40 4).insertIdx 35 2) := by
  obtain ⟨rep, h⟩ := run_replicate (show 32 ∣ 64 by norm_num) 40 (by norm_num)
  exact ⟨rep, h, ((run_insert_iff (by norm_num) h).2 (by decide) (by decide) (by decide)
    (by decide)).2 (by decide)⟩

/-- The counts of `715827883` lengths of four do not fit an `int`. -/
theorem run_insert_overflow : ∃ rep, Run 715827904 rep (replicate 715827883 4) ∧
    insertAndReturnSumOfPredecessors 715827904 rep 715827883 4 = none :=
  run_none (by norm_num) (by norm_num) (by norm_num)

end Abseil.Utf8Lengths
