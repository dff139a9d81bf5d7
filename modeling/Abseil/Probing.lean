import Mathlib.Tactic

/-!
# Probing a ring of positions in groups

A ring of `n` positions is searched in groups of `w` consecutive ones. The groups of a
search start at `offset n w h j` for `j = 0, 1, ...`, each a further `w` ahead of the last
than the one before : the starts are the triangular numbers times `w`. When the number
of groups is a power of two every group is met within one turn (`exists_offset_near`),
because the triangular numbers below a power of two are different modulo it.

`Reach` is what makes such a search find a position : it lies in some group, and no group
in front of that one stops the search.
-/

namespace Probing

open Nat

/-! ## Distances on the ring -/

/-- Steps from `o` forward to `p` on a ring of `n` positions. -/
def ahead (n o p : ℕ) : ℕ := (p + (n - o)) % n

section Ahead

variable {n o p i : ℕ}

theorem ahead_lt (hn : 0 < n) : ahead n o p < n := mod_lt _ hn

theorem add_ahead_mod (ho : o ≤ n) (hp : p < n) : (o + ahead n o p) % n = p := by
  have hsum : o + (p + (n - o)) = p + n := by omega
  rw [ahead, add_mod_mod, hsum, add_mod_right, mod_eq_of_lt hp]

theorem ahead_add_mod (ho : o ≤ n) (hi : i < n) : ahead n o ((o + i) % n) = i := by
  have hsum : o + i + (n - o) = i + n := by omega
  rw [ahead, mod_add_mod, hsum, add_mod_right, mod_eq_of_lt hi]

theorem ahead_eq_iff (ho : o ≤ n) (hp : p < n) (hi : i < n) : ahead n o p = i ↔ (o + i) % n = p :=
  ⟨fun h => h ▸ add_ahead_mod ho hp, fun h => h ▸ ahead_add_mod ho hi⟩

/-- Starting `k` later makes the way `k` shorter, a whole turn more when it was less. -/
theorem ahead_mod_add (hn : 0 < n) (h k : ℕ) :
    (ahead n ((h + k) % n) p + k) % n = ahead n (h % n) p := by
  have h1 : (h + k) % n < n := mod_lt _ hn
  have h2 : h % n < n := mod_lt _ hn
  have key : (p + (n - (h + k) % n) + k) ≡ (p + (n - h % n)) [MOD n] := by
    refine Nat.ModEq.add_right_cancel' ((h + k) % n + h) ?_
    have e1 : p + (n - (h + k) % n) + k + ((h + k) % n + h) = p + n + (h + k) := by omega
    have e2 : p + (n - h % n) + ((h + k) % n + h)
        = p + (n - h % n) + h + (h + k) % n := by omega
    rw [e1, e2]
    have e3 : p + (n - h % n) + h ≡ p + n [MOD n] := by
      have := (mod_modEq h n).symm.add_left (p + (n - h % n))
      have e : p + (n - h % n) + h % n = p + n := by omega
      rwa [e] at this
    exact (e3.add (mod_modEq (h + k) n)).symm
  rwa [ahead, ahead, mod_add_mod]

end Ahead

/-! ## Triangular steps -/

/-- Start of the `j`-th group of a search that begins at `h`. -/
def offset (n w h : ℕ) : ℕ → ℕ
  | 0 => h % n
  | j + 1 => (offset n w h j + w * (j + 1)) % n

/-- The `j`-th triangular number. -/
def triangle (j : ℕ) : ℕ := j * (j + 1) / 2

theorem triangle_succ (j : ℕ) : triangle (j + 1) = triangle j + (j + 1) := by
  unfold triangle
  have h : (j + 1) * (j + 1 + 1) = j * (j + 1) + (j + 1) * 2 := by ring
  rw [h, add_mul_div_right _ _ (by norm_num)]

theorem two_mul_triangle (j : ℕ) : 2 * triangle j = j * (j + 1) :=
  Nat.mul_div_cancel' (even_mul_succ_self j).two_dvd

theorem offset_eq (n w h : ℕ) : ∀ j, offset n w h j = (h + w * triangle j) % n
  | 0 => by simp [offset, triangle]
  | j + 1 => by
    rw [offset, offset_eq n w h j, triangle_succ, mod_add_mod, add_assoc, ← mul_add]

theorem offset_lt {n : ℕ} (hn : 0 < n) (w h j : ℕ) : offset n w h j < n := by
  rw [offset_eq]
  exact mod_lt _ hn

theorem triangle_injOn (k : ℕ) {i j : ℕ} (hi : i < 2 ^ k) (hj : j < 2 ^ k)
    (h : triangle i % 2 ^ k = triangle j % 2 ^ k) : i = j := by
  -- the difference of the doubled numbers splits into an odd and an even factor
  wlog hij : i ≤ j generalizing i j
  · exact (this hj hi h.symm (by omega)).symm
  obtain ⟨d, rfl⟩ := Nat.exists_eq_add_of_le hij
  have hdvd : 2 ^ (k + 1) ∣ d * (2 * i + d + 1) := by
    have hmod : 2 ^ k ∣ triangle (i + d) - triangle i :=
      (modEq_iff_dvd' (by unfold triangle; gcongr)).1 h
    have hdouble : 2 * (triangle (i + d) - triangle i) = d * (2 * i + d + 1) := by
      rw [Nat.mul_sub, two_mul_triangle, two_mul_triangle]
      have : (i + d) * (i + d + 1) = d * (2 * i + d + 1) + i * (i + 1) := by ring
      omega
    rw [← hdouble, pow_succ, mul_comm]
    exact mul_dvd_mul_left 2 hmod
  rcases even_or_odd d with hd | hd
  · have hodd : Nat.Coprime (2 ^ (k + 1)) (2 * i + d + 1) := by
      refine Nat.Coprime.pow_left _ ((coprime_two_left).2 ?_)
      obtain ⟨e, rfl⟩ := hd
      exact ⟨i + e, by ring⟩
    have hd' := hodd.dvd_of_dvd_mul_right hdvd
    have hlt : d < 2 ^ (k + 1) := by
      omega
    rw [eq_zero_of_dvd_of_lt hd' hlt, add_zero]
  · have hodd : Nat.Coprime (2 ^ (k + 1)) d :=
      Nat.Coprime.pow_left _ (coprime_two_left.2 hd)
    have hle := le_of_dvd (by omega) (hodd.dvd_of_dvd_mul_left hdvd)
    omega

/-- The triangular numbers below a power of two meet every residue. -/
theorem exists_triangle_mod (k : ℕ) {r : ℕ} (hr : r < 2 ^ k) :
    ∃ j < 2 ^ k, triangle j % 2 ^ k = r := by
  have hpos : 0 < 2 ^ k := Nat.two_pow_pos k
  let f : Fin (2 ^ k) → Fin (2 ^ k) := fun j => ⟨triangle j % 2 ^ k, mod_lt _ hpos⟩
  have hf : Function.Injective f := fun i j hij =>
    Fin.ext (triangle_injOn k i.2 j.2 (Fin.ext_iff.1 hij))
  obtain ⟨j, hj⟩ := (Finite.injective_iff_surjective.1 hf) ⟨r, hr⟩
  exact ⟨j, j.2, Fin.ext_iff.1 hj⟩

/-! ## Groups -/

section Group

variable {n w k h p : ℕ}

/-- A position is in the `j`-th group when its distance from the start counts as many
whole groups as the `j`-th triangular number, modulo the number of groups. -/
theorem ahead_offset_lt_iff (hn : n = w * 2 ^ k) (hw : 0 < w) (j : ℕ) :
    ahead n (offset n w h j) p < w ↔ ahead n (h % n) p / w = triangle j % 2 ^ k := by
  have hpos : 0 < n := by rw [hn]; exact Nat.mul_pos hw (Nat.two_pow_pos k)
  have hshift : w * triangle j % n = w * (triangle j % 2 ^ k) := by
    rw [hn, mul_mod_mul_left]
  have hfar := ahead_mod_add (p := p) hpos h (w * triangle j)
  rw [← offset_eq n w h j] at hfar
  set d := ahead n (offset n w h j) p with hd
  have hdlt : d < n := ahead_lt hpos
  set t := triangle j % 2 ^ k with ht
  have htlt : t < 2 ^ k := mod_lt _ (Nat.two_pow_pos k)
  rw [← hfar, ← add_mod_mod d, hshift]
  have hdiv : ∀ x, x % n / w = x / w % 2 ^ k := fun x => by
    rw [hn, mod_mul_right_div_self]
  rw [hdiv, add_mul_div_left _ _ hw]
  have hq := Nat.div_lt_of_lt_mul (by rw [← hn]; exact hdlt)
  have hzero : d < w ↔ d / w = 0 := by rw [Nat.div_eq_zero_iff]; omega
  rw [hzero]
  constructor
  · intro h0
    rw [h0, zero_add, mod_eq_of_lt htlt]
  intro heq
  by_cases hlt : d / w + t < 2 ^ k
  · rw [mod_eq_of_lt hlt] at heq
    omega
  · rw [mod_eq_sub_mod (by omega), mod_eq_of_lt (by omega)] at heq
    omega

/-- Every position is in one of the groups of one turn. -/
theorem exists_offset_near (hn : n = w * 2 ^ k) (hw : 0 < w) (h p : ℕ) :
    ∃ j < 2 ^ k, ahead n (offset n w h j) p < w := by
  have hpos : 0 < n := by rw [hn]; exact Nat.mul_pos hw (Nat.two_pow_pos k)
  have hlt : ahead n (h % n) p / w < 2 ^ k :=
    Nat.div_lt_of_lt_mul (by rw [← hn]; exact ahead_lt hpos)
  obtain ⟨j, hj, ht⟩ := exists_triangle_mod k hlt
  exact ⟨j, hj, (ahead_offset_lt_iff hn hw j).2 ht.symm⟩

/-- The groups of one turn hold every position exactly once. -/
theorem existsUnique_offset (hn : n = w * 2 ^ k) (hw : 0 < w) (h : ℕ) (hp : p < n) :
    ∃! x : ℕ × ℕ, x.1 < 2 ^ k ∧ x.2 < w ∧ (offset n w h x.1 + x.2) % n = p := by
  have hpos : 0 < n := by omega
  have hwn : w ≤ n := by rw [hn]; exact Nat.le_mul_of_pos_right _ (Nat.two_pow_pos k)
  have hle : ∀ j, offset n w h j ≤ n := fun j => (offset_lt hpos w h j).le
  obtain ⟨j, hj, hnear⟩ := exists_offset_near hn hw h p
  refine ⟨(j, ahead n (offset n w h j) p), ⟨hj, hnear, add_ahead_mod (hle j) hp⟩, ?_⟩
  rintro ⟨j', i'⟩ ⟨hj', hi', hsum⟩
  have hi : ahead n (offset n w h j') p = i' :=
    (ahead_eq_iff (hle j') hp (lt_of_lt_of_le hi' hwn)).2 hsum
  have hin : ahead n (offset n w h j') p < w := by rw [hi]; exact hi'
  have hjj : j' = j := by
    refine triangle_injOn k hj' hj ?_
    rw [← (ahead_offset_lt_iff hn hw j').1 hin, ← (ahead_offset_lt_iff hn hw j).1 hnear]
  subst hjj
  rw [hi]

end Group

/-! ## Reaching a position -/

/-- The search whose `j`-th group holds the positions `group j`, and that ends at the
first group with `stop`, gets to `p`. -/
def Reach (group : ℕ → ℕ → Prop) (stop : ℕ → Prop) (p : ℕ) : Prop :=
  ∃ j, group j p ∧ ∀ i < j, ¬stop i

theorem Reach.mono {group : ℕ → ℕ → Prop} {stop stop' : ℕ → Prop} {p : ℕ}
    (h : Reach group stop p) (hstop : ∀ i, stop' i → stop i) : Reach group stop' p :=
  let ⟨j, hp, hj⟩ := h
  ⟨j, hp, fun i hi hs => hj i hi (hstop i hs)⟩

end Probing
