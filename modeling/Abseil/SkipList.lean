import Mathlib.Tactic

/-!
# Skip lists

A skip list is a family of linked lists, one for each level, over a set of keys. The head is the
least key `⊥`. The list of a level links the head and each key of the level to the next larger key
of the level (`IsNext`), and an insertion or a deletion needs the last key before the new one
(`IsPrev`), which a search finds on its way down.
-/

namespace Abseil.SkipList

open Finset

variable {K : Type*} [LinearOrder K] [OrderBot K] {S : Finset K} {p q e : K} {o : Option K}

/-- The link of `p` in the list of the keys `S`. -/
def IsNext (S : Finset K) (p : K) (o : Option K) : Prop :=
  match o with
  | none => ∀ x ∈ S, x ≤ p
  | some n => n ∈ S ∧ p < n ∧ ∀ x ∈ S, p < x → n ≤ x

/-- The last key before `e`, or the head. -/
def IsPrev (S : Finset K) (e p : K) : Prop :=
  (p = ⊥ ∨ p ∈ S) ∧ p < e ∧ ∀ x ∈ S, x < e → x ≤ p

/-! ## Links -/

omit [OrderBot K] in
theorem IsNext.some_of_mem (h : IsNext S p o) {x : K} (hx : x ∈ S) (hpx : p < x) :
    ∃ n, o = some n ∧ n ≤ x := by
  cases o with
  | none => exact absurd hpx (not_lt.2 (h x hx))
  | some n => exact ⟨n, rfl, h.2.2 x hx hpx⟩

section

variable (hp : IsPrev S e p)
include hp

/-- The link from the last key before `e` goes to the first key that is not before `e`. -/
theorem IsNext.of_prev (h : IsNext S p o) : (∀ n, o = some n → e ≤ n) ∧ (e ∈ S → o = some e) := by
  refine ⟨?_, fun he => ?_⟩
  · rintro n rfl
    by_contra hlt
    exact absurd h.2.1 (not_lt.2 (hp.2.2 n h.1 (not_le.1 hlt)))
  · obtain ⟨n, rfl, hle⟩ := h.some_of_mem he hp.2.1
    refine congrArg some (le_antisymm hle ?_)
    by_contra hlt
    exact absurd h.2.1 (not_lt.2 (hp.2.2 n h.1 (not_le.1 hlt)))

theorem IsNext.insert_self (h : IsNext S p o) (he : e ∉ S) : IsNext (insert e S) e o := by
  cases o with
  | none =>
    intro x hx
    rcases mem_insert.1 hx with rfl | hx
    · exact le_rfl
    · exact (h x hx).trans hp.2.1.le
  | some n =>
    have hen : e ≠ n := fun hen => he (hen ▸ h.1)
    refine ⟨mem_insert_of_mem h.1, lt_of_le_of_ne ((h.of_prev hp).1 n rfl) hen, ?_⟩
    intro x hx hlt
    rcases mem_insert.1 hx with rfl | hx
    · exact absurd hlt (lt_irrefl _)
    · exact h.2.2 x hx (hp.2.1.trans hlt)

theorem IsPrev.isNext_insert : IsNext (insert e S) p (some e) := by
  refine ⟨mem_insert_self _ _, hp.2.1, fun x hx hlt => ?_⟩
  rcases mem_insert.1 hx with rfl | hx
  · exact le_rfl
  · by_contra hxe
    exact absurd hlt (not_lt.2 (hp.2.2 x hx (not_le.1 hxe)))

/-- A key before `e` that is not the last one links to a key before `e`. -/
theorem IsNext.insert_other (hq : q = ⊥ ∨ q ∈ S) (hqp : q ≠ p)
    (h : IsNext S q o) : IsNext (insert e S) q o := by
  have hlast : q < e → p ∈ S ∧ q < p := by
    intro hqe
    have hle : q ≤ p := by
      rcases hq with rfl | hq
      · exact bot_le
      · exact hp.2.2 q hq hqe
    have hlt := lt_of_le_of_ne hle hqp
    rcases hp.1 with rfl | hmem
    · exact absurd hlt not_lt_bot
    · exact ⟨hmem, hlt⟩
  cases o with
  | none =>
    intro x hx
    rcases mem_insert.1 hx with rfl | hx
    · by_contra hqe
      obtain ⟨hmem, hlt⟩ := hlast (not_le.1 hqe)
      exact absurd hlt (not_lt.2 (h p hmem))
    · exact h x hx
  | some n =>
    refine ⟨mem_insert_of_mem h.1, h.2.1, fun x hx hlt => ?_⟩
    rcases mem_insert.1 hx with rfl | hx
    · obtain ⟨hmem, hqp⟩ := hlast hlt
      exact (h.2.2 p hmem hqp).trans hp.2.1.le
    · exact h.2.2 x hx hlt

theorem IsNext.erase_prev (h : IsNext S e o) : IsNext (S.erase e) p o := by
  have hbetween : ∀ x ∈ S.erase e, p < x → e < x := by
    intro x hx hpx
    by_contra hle
    have hlt := lt_of_le_of_ne (not_lt.1 hle) (ne_of_mem_erase hx)
    exact absurd hpx (not_lt.2 (hp.2.2 x (mem_of_mem_erase hx) hlt))
  cases o with
  | none =>
    intro x hx
    by_contra hlt
    have hex := hbetween x hx (not_le.1 hlt)
    exact absurd hex (not_lt.2 (h x (mem_of_mem_erase hx)))
  | some n =>
    refine ⟨mem_erase.2 ⟨h.2.1.ne', h.1⟩, hp.2.1.trans h.2.1, fun x hx hlt => ?_⟩
    exact h.2.2 x (mem_of_mem_erase hx) (hbetween x hx hlt)

theorem IsNext.erase_other (hq : q = ⊥ ∨ q ∈ S) (hqp : q ≠ p)
    (h : IsNext S q o) : IsNext (S.erase e) q o := by
  cases o with
  | none => exact fun x hx => h x (mem_of_mem_erase hx)
  | some n =>
    refine ⟨mem_erase.2 ⟨?_, h.1⟩, h.2.1, fun x hx hlt =>
      h.2.2 x (mem_of_mem_erase hx) hlt⟩
    rintro rfl
    -- the last key before `e` is between `q` and `e`
    have hle : q ≤ p := by
      rcases hq with rfl | hq
      · exact bot_le
      · exact hp.2.2 q hq h.2.1
    have hlt := lt_of_le_of_ne hle hqp
    rcases hp.1 with rfl | hmem
    · exact absurd hlt not_lt_bot
    · exact absurd (h.2.2 p hmem hlt) (not_le.2 hp.2.1)

end

/-! ## The list of a level -/

/-- The keys that the links from `p` on visit. -/
def Visits (next : K → Option K) : K → List K → Prop
  | p, [] => next p = none
  | p, x :: l => next p = some x ∧ Visits next x l

omit [LinearOrder K] [OrderBot K] in
theorem Visits.congr {next next' : K → Option K} {l : List K} (h : Visits next p l)
    (heq : ∀ q ∈ p :: l, next' q = next q) : Visits next' p l := by
  induction l generalizing p with
  | nil => exact (heq p List.mem_cons_self).trans h
  | cons x l ih =>
    refine ⟨(heq p List.mem_cons_self).trans h.1, ih h.2 fun q hq => ?_⟩
    exact heq q (List.mem_cons_of_mem _ hq)

/-- The links visit the keys in their order, each one once. -/
theorem visits_sort {next : K → Option K} (h : ∀ q, q = ⊥ ∨ q ∈ S → IsNext S q (next q)) (n : ℕ) :
    ∀ p, (p = ⊥ ∨ p ∈ S) → (S.filter (p < ·)).card = n →
      Visits next p ((S.filter (p < ·)).sort (· ≤ ·)) := by
  induction n with
  | zero =>
    intro p hp hcard
    have hempty := card_eq_zero.1 hcard
    have hnext := h p hp
    rw [hempty, sort_empty]
    cases hn : next p with
    | none => exact hn
    | some m =>
      rw [hn] at hnext
      have hm := mem_filter.2 ⟨hnext.1, hnext.2.1⟩
      rw [hempty] at hm
      exact absurd hm (notMem_empty _)
  | succ n ih =>
    intro p hp hcard
    have hnext := h p hp
    cases hn : next p with
    | none =>
      rw [hn] at hnext
      have hempty := filter_eq_empty_iff.2 fun x hx => not_lt.2 (hnext x hx)
      rw [hempty, card_empty] at hcard
      omega
    | some m =>
      rw [hn] at hnext
      obtain ⟨hm, hlt, hleast⟩ := hnext
      have hnotMem : m ∉ S.filter (m < ·) := by
        intro hmem
        exact lt_irrefl _ (mem_filter.1 hmem).2
      have hsplit : S.filter (p < ·) = insert m (S.filter (m < ·)) := by
        ext x
        rw [mem_filter, mem_insert, mem_filter]
        constructor
        · rintro ⟨hx, hpx⟩
          rcases (hleast x hx hpx).eq_or_lt with rfl | hmx
          · exact .inl rfl
          · exact .inr ⟨hx, hmx⟩
        · rintro (rfl | ⟨hx, hmx⟩)
          · exact ⟨hm, hlt⟩
          · exact ⟨hx, hlt.trans hmx⟩
      rw [hsplit, card_insert_of_notMem hnotMem] at hcard
      have hrest := ih m (.inr hm) (by omega)
      rw [hsplit, sort_insert (· ≤ ·) (fun x hx => (mem_filter.1 hx).2.le) hnotMem]
      exact ⟨hn, hrest⟩

end Abseil.SkipList
