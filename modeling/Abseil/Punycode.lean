import Mathlib.Tactic

/-!
# Punycode

The decoder of RFC 3492, section 6.2, over numbers without a bound. The basic code points stand in
front. The deltas behind them are numbers of variable length in base `36`; each says where the next
code point goes and by how much it is larger than the one before. `insertions` is the list of what
is inserted : the code points and their positions.

A delta only ever makes `i` larger (`scanDelta_spec`), all of the input is digits, and the code
points never get smaller (`insertions_spec`).
-/

namespace Punycode

/-! ## The decoder -/

/-- The value of a digit : letters of both cases from `0` on, then the digits. -/
def digitValue (c : UInt8) : Option ℕ :=
  if 97 ≤ c ∧ c ≤ 122 then some (c.toNat - 97)
  else if 65 ≤ c ∧ c ≤ 90 then some (c.toNat - 65)
  else if 48 ≤ c ∧ c ≤ 57 then some (c.toNat - 48 + 26)
  else none

/-- The threshold of the digit at `k`. -/
def threshold (k bias : ℕ) : ℕ := if k ≤ bias then 1 else if k ≥ bias + 26 then 26 else k - bias

/-- One delta, added to `i`, and the input behind it. -/
def scanDelta (bias : ℕ) : ℕ → ℕ → ℕ → List UInt8 → Option (ℕ × List UInt8)
  | _, _, _, [] => none
  | k, w, i, c :: input =>
    match digitValue c with
    | none => none
    | some digit =>
      if digit < threshold k bias then some (i + digit * w, input)
      else scanDelta bias (k + 36) (w * (36 - threshold k bias)) (i + digit * w) input

/-- The loop of the bias adaptation. -/
def adaptLoop (delta k : ℕ) : ℕ × ℕ :=
  if delta > 455 then adaptLoop (delta / 35) (k + 36) else (delta, k)
termination_by delta
decreasing_by exact Nat.div_lt_self (by omega) (by norm_num)

/-- The bias after a delta. -/
def adapt (delta numPoints : ℕ) (firstTime : Bool) : ℕ :=
  let delta := if firstTime then delta / 700 else delta / 2
  let r := adaptLoop (delta + delta / numPoints) 0
  r.2 + 36 * r.1 / (r.1 + 38)

/-- A delta only makes `i` larger, and takes digits off the input. -/
theorem scanDelta_spec : ∀ {bias k w i : ℕ} {input rest : List UInt8} {j : ℕ},
    scanDelta bias k w i input = some (j, rest) → i ≤ j ∧ rest.length < input.length ∧
      ∃ delta, input = delta ++ rest ∧ ∀ c ∈ delta, (digitValue c).isSome
  | bias, k, w, i, c :: input, rest, j, h => by
    rw [scanDelta] at h
    rcases hd : digitValue c with _ | digit
    · rw [hd] at h
      cases h
    have hc : (digitValue c).isSome := by rw [hd]; rfl
    rw [hd] at h
    dsimp only at h
    split_ifs at h
    · obtain ⟨rfl, rfl⟩ := Prod.mk.inj (Option.some.inj h)
      exact ⟨Nat.le_add_right _ _, Nat.lt_succ_self _, [c], rfl, by simpa using hc⟩
    · obtain ⟨hle, hlt, delta, rfl, hdelta⟩ := scanDelta_spec h
      exact ⟨(Nat.le_add_right _ _).trans hle, hlt.trans (Nat.lt_succ_self _), c :: delta, rfl,
        List.forall_mem_cons.2 ⟨hc, hdelta⟩⟩

/-- What is inserted : the code points and their positions. `len` characters are there already. -/
def insertions (n i bias len : ℕ) (input : List UInt8) : Option (List (ℕ × ℕ)) :=
  if input = [] then some []
  else
    match h : scanDelta bias 36 1 i input with
    | none => none
    | some (j, rest) =>
      (insertions (n + j / (len + 1)) (j % (len + 1) + 1) (adapt (j - i) (len + 1) (i = 0))
        (len + 1) rest).map ((n + j / (len + 1), j % (len + 1)) :: ·)
termination_by input.length
decreasing_by exact (scanDelta_spec h).2.1

/-- The string after the insertions. -/
def build (start : List ℕ) (ins : List (ℕ × ℕ)) : List ℕ :=
  ins.foldl (fun out x => out.insertIdx x.2 x.1) start

/-! ## Facts -/

theorem insertions_nil (n i bias len : ℕ) : insertions n i bias len [] = some [] := by
  rw [insertions, if_pos rfl]

theorem insertions_cons {n i bias len : ℕ} {input : List UInt8} (hne : input ≠ []) :
    insertions n i bias len input = (scanDelta bias 36 1 i input).bind fun r =>
      (insertions (n + r.1 / (len + 1)) (r.1 % (len + 1) + 1)
        (adapt (r.1 - i) (len + 1) (i = 0)) (len + 1) r.2).map
        ((n + r.1 / (len + 1), r.1 % (len + 1)) :: ·) := by
  rw [insertions, if_neg hne]
  split
  · rename_i h
    rw [h]
    rfl
  · rename_i j rest h
    rw [h]
    rfl

theorem insertions_ne_nil {n i bias len : ℕ} {input : List UInt8} (hne : input ≠ []) :
    insertions n i bias len input ≠ some [] := by
  rw [insertions_cons hne]
  intro h
  obtain ⟨r, -, hr⟩ := Option.bind_eq_some_iff.1 h
  obtain ⟨ins, -, hins⟩ := Option.map_eq_some_iff.1 hr
  exact List.cons_ne_nil _ _ hins

theorem threshold_pos (k bias : ℕ) : 0 < threshold k bias := by
  unfold threshold
  split_ifs <;> omega

theorem threshold_le (k bias : ℕ) : threshold k bias ≤ 26 := by
  unfold threshold
  split_ifs <;> omega

theorem digitValue_lt {c : UInt8} {d : ℕ} (h : digitValue c = some d) : d < 36 := by
  rw [digitValue] at h
  split_ifs at h with h1 h2 h3
  · have := UInt8.le_iff_toNat_le.1 h1.2
    obtain rfl := Option.some.inj h
    simp at this
    omega
  · have := UInt8.le_iff_toNat_le.1 h2.2
    obtain rfl := Option.some.inj h
    simp at this
    omega
  · have := UInt8.le_iff_toNat_le.1 h3.2
    obtain rfl := Option.some.inj h
    simp at this
    omega

/-- All of the input is digits, and no code point is below the first. -/
theorem insertions_spec (m : ℕ) : ∀ {n i bias len : ℕ} {input : List UInt8} {ins : List (ℕ × ℕ)},
    input.length ≤ m → insertions n i bias len input = some ins →
    (∀ c ∈ input, (digitValue c).isSome) ∧ ∀ x ∈ ins, n ≤ x.1 := by
  induction m with
  | zero =>
    intro n i bias len input ins hlen h
    obtain rfl := List.length_eq_zero_iff.1 (Nat.le_zero.1 hlen)
    rw [insertions_nil] at h
    simp [← Option.some.inj h]
  | succ m ih =>
    intro n i bias len input ins hlen h
    by_cases hne : input = []
    · rw [hne, insertions_nil] at h
      simp [hne, ← Option.some.inj h]
    rw [insertions_cons hne] at h
    obtain ⟨⟨j, rest⟩, hscan, hrest⟩ := Option.bind_eq_some_iff.1 h
    obtain ⟨ins', hins, rfl⟩ := Option.map_eq_some_iff.1 hrest
    obtain ⟨-, hlt, delta, rfl, hdelta⟩ := scanDelta_spec hscan
    obtain ⟨hdigits, hge⟩ := ih (Nat.le_of_lt_succ (lt_of_lt_of_le hlt hlen)) hins
    have hn := Nat.le_add_right n (j / (len + 1))
    exact ⟨List.forall_mem_append.2 ⟨hdelta, hdigits⟩,
      List.forall_mem_cons.2 ⟨hn, fun x hx => hn.trans (hge x hx)⟩⟩

theorem mem_build {x : ℕ} : ∀ {ins : List (ℕ × ℕ)} {start : List ℕ}, x ∈ build start ins →
    x ∈ start ∨ ∃ y ∈ ins, y.1 = x
  | [], _, h => .inl h
  | y :: ins, start, h => by
    rcases (mem_build h : _ ∨ ∃ y ∈ ins, y.1 = x) with h | ⟨z, hz, rfl⟩
    · rcases List.eq_or_mem_of_mem_insertIdx h with rfl | h
      · exact .inr ⟨y, List.mem_cons_self, rfl⟩
      · exact .inl h
    · exact .inr ⟨z, List.mem_cons_of_mem y hz, rfl⟩

/-- A long delta takes few divisions. -/
theorem adaptLoop_le (m : ℕ) : ∀ delta k, delta ≤ 455 * 35 ^ m →
    (adaptLoop delta k).1 ≤ 455 ∧ (adaptLoop delta k).2 ≤ k + 36 * m := by
  induction m with
  | zero =>
    intro delta k h
    rw [adaptLoop, if_neg (by omega)]
    exact ⟨by simpa using h, le_rfl⟩
  | succ m ih =>
    intro delta k h
    rw [adaptLoop]
    split_ifs with hgt
    · obtain ⟨h1, h2⟩ := ih (delta / 35) (k + 36) (by
        omega)
      exact ⟨h1, by omega⟩
    · exact ⟨by omega, Nat.le_add_right _ _⟩

end Punycode
