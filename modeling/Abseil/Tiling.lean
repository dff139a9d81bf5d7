import Mathlib.Tactic

/-!
# Tilings by blocks

A set of natural numbers is cut into blocks `[a, a + size a)`, of which `B` has the first elements
(`Tiles`). A block can be split, two neighbours can be merged, and an interval can be added. If no
block begins where another one ends, the blocks are the maximal intervals of the set.
-/

namespace Abseil

open Finset

/-- The blocks at `B` are disjoint and cover `X`. -/
structure Tiles (B : Finset ℕ) (size : ℕ → ℕ) (X : Set ℕ) : Prop where
  pos : ∀ a ∈ B, 0 < size a
  apart : ∀ a ∈ B, ∀ b ∈ B, a < b → a + size a ≤ b
  covered : ∀ x, x ∈ X ↔ ∃ a ∈ B, a ≤ x ∧ x < a + size a

namespace Tiles

variable {B : Finset ℕ} {size size' : ℕ → ℕ} {X : Set ℕ} {a b n k : ℕ}

section

variable (h : Tiles B size X)
include h

theorem congr (heq : ∀ a ∈ B, size' a = size a) : Tiles B size' X where
  pos a ha := by
    rw [heq a ha]
    exact h.pos a ha
  apart a ha b hb hlt := by
    rw [heq a ha]
    exact h.apart a ha b hb hlt
  covered x := by
    rw [h.covered]
    refine exists_congr fun a => and_congr_right fun ha => ?_
    rw [heq a ha]

theorem mem (ha : a ∈ B) : a ∈ X :=
  (h.covered a).2 ⟨a, ha, le_rfl, Nat.lt_add_of_pos_right (h.pos a ha)⟩

/-- A block and the one behind it. -/
theorem merge (ha : a ∈ B) (hn : n ∈ B) (hnext : a + size a = n)
    (hsize : size' a = size a + size n) (heq : ∀ b ∈ B, b ≠ a → size' b = size b) :
    Tiles (B.erase n) size' X := by
  have han : a < n := by
    have := h.pos a ha
    omega
  have hmem : ∀ {b}, b ∈ B.erase n → b ∈ B ∧ b ≠ n := fun hb =>
    ⟨mem_of_mem_erase hb, ne_of_mem_erase hb⟩
  refine ⟨fun b hb => ?_, fun b hb c hc hlt => ?_, fun x => ?_⟩
  · by_cases hba : b = a
    · rw [hba, hsize]
      omega
    · rw [heq b (hmem hb).1 hba]
      exact h.pos b (hmem hb).1
  · by_cases hba : b = a
    · -- the next block begins behind the merged one
      rw [hba] at hlt ⊢
      have h1 := h.apart a ha c (hmem hc).1 hlt
      have h2 := h.apart n hn c (hmem hc).1 (by have := (hmem hc).2; omega)
      omega
    · rw [heq b (hmem hb).1 hba]
      exact h.apart b (hmem hb).1 c (hmem hc).1 hlt
  rw [h.covered]
  constructor
  · rintro ⟨b, hb, hle, hlt⟩
    by_cases hbn : b = n
    · refine ⟨a, mem_erase.2 ⟨han.ne, ha⟩, by omega, ?_⟩
      rw [hbn] at hlt
      omega
    refine ⟨b, mem_erase.2 ⟨hbn, hb⟩, hle, ?_⟩
    by_cases hba : b = a
    · rw [hba] at hlt ⊢
      omega
    · rwa [heq b hb hba]
  · rintro ⟨b, hb, hle, hlt⟩
    by_cases hba : b = a
    · rw [hba] at hle hlt
      by_cases hx : x < n
      · exact ⟨a, ha, hle, by omega⟩
      · exact ⟨n, hn, by omega, by omega⟩
    · rw [heq b (hmem hb).1 hba] at hlt
      exact ⟨b, (hmem hb).1, hle, hlt⟩

/-- A block is split behind its first `k` elements. -/
theorem split (ha : a ∈ B) (hk : 0 < k) (hlt : k < size a)
    (hfirst : size' a = k) (hsecond : size' (a + k) = size a - k)
    (heq : ∀ b ∈ B, b ≠ a → size' b = size b) : Tiles (insert (a + k) B) size' X := by
  -- no block begins inside of another one
  have hnew : ∀ b ∈ B, b < a + k → b ≠ a → b + size b ≤ a := fun b hb hba hne => by
    by_contra hgt
    rcases Nat.lt_or_gt_of_ne hne with hlt' | hlt'
    · exact hgt (h.apart b hb a ha hlt')
    · have := h.apart a ha b hb hlt'
      omega
  refine ⟨fun b hb => ?_, fun b hb c hc hbc => ?_, fun x => ?_⟩
  · rcases mem_insert.1 hb with rfl | hb
    · omega
    · by_cases hba : b = a
      · rw [hba]
        omega
      · rw [heq b hb hba]
        exact h.pos b hb
  · rcases mem_insert.1 hb with rfl | hb
    · rcases mem_insert.1 hc with rfl | hc
      · omega
      · have := h.apart a ha c hc (by omega)
        omega
    by_cases hba : b = a
    · rw [hba] at hbc ⊢
      rw [hfirst]
      rcases mem_insert.1 hc with rfl | hc
      · exact le_rfl
      · have := h.apart a ha c hc hbc
        omega
    · rw [heq b hb hba]
      rcases mem_insert.1 hc with rfl | hc
      · have := hnew b hb hbc hba
        omega
      · exact h.apart b hb c hc hbc
  · rw [h.covered]
    constructor
    · rintro ⟨b, hb, hle, hxlt⟩
      by_cases hba : b = a
      · rw [hba] at hle hxlt
        by_cases hx : x < a + k
        · exact ⟨a, mem_insert_of_mem ha, hle, by omega⟩
        · exact ⟨a + k, mem_insert_self _ _, by omega, by omega⟩
      · refine ⟨b, mem_insert_of_mem hb, hle, ?_⟩
        rwa [heq b hb hba]
    · rintro ⟨b, hb, hle, hxlt⟩
      rcases mem_insert.1 hb with rfl | hb
      · exact ⟨a, ha, by omega, by omega⟩
      · by_cases hba : b = a
        · rw [hba] at hle hxlt
          exact ⟨a, ha, hle, by omega⟩
        · rw [heq b hb hba] at hxlt
          exact ⟨b, hb, hle, hxlt⟩

/-- An interval that the set does not meet. -/
theorem add (hk : 0 < k) (hfresh : ∀ x, b ≤ x → x < b + k → x ∉ X)
    (hsize : size' b = k) (heq : ∀ a ∈ B, size' a = size a) :
    Tiles (insert b B) size' {x | x ∈ X ∨ (b ≤ x ∧ x < b + k)} := by
  have hdisjoint : ∀ a ∈ B, b + k ≤ a ∨ a + size a ≤ b := fun a ha => by
    by_contra hmeet
    by_cases hba : b ≤ a
    · exact hfresh a hba (by omega) (h.mem ha)
    · exact hfresh b le_rfl (by omega) ((h.covered b).2 ⟨a, ha, by omega, by omega⟩)
  refine ⟨fun a ha => ?_, fun a ha c hc hac => ?_, fun x => ?_⟩
  · rcases mem_insert.1 ha with rfl | ha
    · omega
    · rw [heq a ha]
      exact h.pos a ha
  · rcases mem_insert.1 ha with rfl | ha'
    · rcases mem_insert.1 hc with rfl | hc'
      · omega
      · have h1 := hdisjoint c hc'
        omega
    · rw [heq a ha']
      rcases mem_insert.1 hc with rfl | hc'
      · have h1 := hdisjoint a ha'
        omega
      · exact h.apart a ha' c hc' hac
  · change x ∈ X ∨ _ ↔ _
    rw [h.covered]
    constructor
    · rintro (⟨a, ha, hle, hlt⟩ | ⟨hle, hlt⟩)
      · refine ⟨a, mem_insert_of_mem ha, hle, ?_⟩
        rwa [heq a ha]
      · exact ⟨b, mem_insert_self _ _, hle, by omega⟩
    · rintro ⟨a, ha, hle, hlt⟩
      rcases mem_insert.1 ha with rfl | ha
      · exact .inr ⟨hle, by omega⟩
      · rw [heq a ha] at hlt
        exact .inl ⟨a, ha, hle, hlt⟩

/-- If no block begins where another one ends, a block begins an interval of the set. -/
theorem pred_notMem (hgap : ∀ b ∈ B, b + size b ∉ B) (ha : a ∈ B) {x : ℕ}
    (hx : x + 1 = a) : x ∉ X := by
  intro hmem
  obtain ⟨b, hb, hle, hlt⟩ := (h.covered x).1 hmem
  have := h.apart b hb a ha (by omega)
  have heq : b + size b = a := by omega
  exact hgap b hb (heq ▸ ha)

theorem end_notMem (hgap : ∀ b ∈ B, b + size b ∉ B) (ha : a ∈ B) : a + size a ∉ X := by
  intro hmem
  obtain ⟨b, hb, hle, hlt⟩ := (h.covered _).1 hmem
  rcases lt_trichotomy a b with hab | rfl | hab
  · have := h.apart a ha b hb hab
    have heq : a + size a = b := by omega
    exact hgap a ha (heq ▸ hb)
  · omega
  · have := h.apart b hb a ha hab
    omega

end

end Tiles

end Abseil
