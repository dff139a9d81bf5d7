import Mathlib.Tactic

/-!
# Rings and runs over a list

A list laid out in memory by a `next` pointer, closed to a ring, and a second pointer
`skip` over it that leads past elements alike.

`Links next q e` says that `next` leads through `q` and from its last element to `e`;
a ring is a list without repetition that leads back to its first element
(`IsRing`). `Skips tight skip R q` says that a `skip` of an element leads to a later one, past
elements that `R` relates to it. With `tight` skips the elements passed skip themselves, so
those that do not skip cut `q` into runs.
-/

namespace LinkedRing

open Function List

variable {α : Type*}

/-! ## Links -/

/-- `next` leads through `q`, and from its last element to `e`. -/
def Links (next : α → Option α) : List α → Option α → Prop
  | [], _ => True
  | x :: q, e => next x = q.head?.or e ∧ Links next q e

variable {next : α → Option α} {e : Option α}

@[simp]
theorem links_nil : Links next [] e := trivial

variable {x : α} {q : List α}

@[simp]
theorem links_cons :
    Links next (x :: q) e ↔ next x = q.head?.or e ∧ Links next q e := Iff.rfl

variable {b : List α}

/-- The links of two parts. -/
theorem links_append :
    ∀ {a : List α}, Links next (a ++ b) e ↔ Links next a (b.head?.or e) ∧ Links next b e
  | [] => by simp
  | x :: a => by
    simp only [cons_append, links_cons, links_append, head?_append, Option.or_assoc, and_assoc]

theorem Links.congr {next' : α → Option α} :
    ∀ {q : List α}, (∀ x ∈ q, next' x = next x) → Links next q e → Links next' q e
  | [], _, _ => trivial
  | x :: q, h, ⟨hx, hq⟩ =>
    ⟨(h x (by simp)).trans hx, hq.congr fun y hy => h y (by simp [hy])⟩

theorem Links.update [DecidableEq α] {y : Option α} (hx : x ∉ q)
    (h : Links next q e) : Links (update next x y) q e :=
  h.congr fun _ hz => update_of_ne (ne_of_mem_of_not_mem hz hx) _ _

/-- A list without repetition that `next` leads through and back to its start. -/
structure IsRing (next : α → Option α) (q : List α) : Prop where
  nodup : q.Nodup
  links : Links next q q.head?

theorem IsRing.congr {next' : α → Option α} (h : IsRing next q)
    (hn : ∀ x ∈ q, next' x = next x) : IsRing next' q :=
  ⟨h.nodup, h.links.congr hn⟩

theorem isRing_nil : IsRing next [] := ⟨nodup_nil, trivial⟩

variable {a : List α} {y : α}

/-- The successor inside the ring. -/
theorem IsRing.next_mid (h : IsRing next (a ++ x :: y :: b)) : next x = some y := by
  have := (links_append.1 h.links).2
  simpa using this.1

/-- The last element leads to the first. -/
theorem IsRing.next_last (h : IsRing next (a ++ [x])) : next x = (a ++ [x]).head? := by
  have := (links_append.1 h.links).2.1
  simpa using this

/-- The predecessor, in a ring with last element `l`, of what comes after `a`. -/
def before (a : List α) (l : α) : α := a.getLast?.getD l

@[simp]
theorem before_nil (l : α) : before [] l = l := rfl

@[simp]
theorem before_concat (a : List α) (x l : α) : before (a ++ [x]) l = x := by simp [before]

theorem notMem_of_nodup (hnd : (a ++ x :: b).Nodup) : x ∉ a ∧ x ∉ b := by
  rw [nodup_middle, nodup_cons, mem_append, not_or] at hnd
  exact hnd.1

theorem getLast?_append_cons (a b : List α) (y : α) :
    (a ++ y :: b).getLast? = (y :: b).getLast? := by
  rw [getLast?_append, getLast?_cons]
  rfl

variable {l : α}

theorem last_mem (hl : (a ++ y :: b).getLast? = some l) : l ∈ y :: b :=
  mem_of_getLast? (getLast?_append_cons a b y ▸ hl)

theorem before_ne_last (hnd : (a ++ y :: b).Nodup) (hl : (a ++ y :: b).getLast? = some l)
    (ha : a ≠ []) : before a l ≠ l := by
  rcases a.eq_nil_or_concat with rfl | ⟨a, x, rfl⟩
  · exact absurd rfl ha
  · rw [concat_eq_append] at *
    rw [before_concat]
    exact (nodup_append.1 hnd).2.2 x (by simp) l (last_mem hl)

/-- The element before, which is the last one for the first. -/
theorem IsRing.next_before (h : IsRing next (a ++ y :: b))
    (hl : (a ++ y :: b).getLast? = some l) : next (before a l) = some y := by
  rcases a.eq_nil_or_concat with rfl | ⟨a, x, rfl⟩
  · obtain ⟨c, hc⟩ := getLast?_eq_some_iff.1 hl
    rw [hc] at h
    rw [before_nil, h.next_last, ← hc]
    rfl
  · rw [concat_eq_append, before_concat]
    exact IsRing.next_mid (by simpa using h)

section Update

variable [DecidableEq α] {next : α → Option α} {a b : List α} {x s : α}

/-- Linking `s` in after `x`. -/
theorem IsRing.insert_after (h : IsRing next (a ++ x :: b)) (hs : s ∉ a ++ x :: b) :
    IsRing (update (update next s (next x)) x (some s)) (a ++ x :: s :: b) := by
  have hnd := h.nodup
  have hsx : s ≠ x := by rintro rfl; simp at hs
  have hnodup : (a ++ x :: s :: b).Nodup := by
    rw [show a ++ x :: s :: b = (a ++ [x]) ++ s :: b by simp]
    exact (nodup_middle.2 (nodup_cons.2 ⟨by simpa using hs, by simpa using hnd⟩))
  simp only [nodup_append, nodup_cons, mem_append, mem_cons, not_or] at hs hnd
  obtain ⟨hla, hx, hlb⟩ := links_append.1 h.links
  refine ⟨hnodup, links_append.2 ⟨?_, by simp, ?_, ?_⟩⟩
  · refine Links.update (fun hm => hnd.2.2 x hm x (by simp) rfl) (Links.update hs.1 ?_)
    simpa using hla
  · rw [update_of_ne hsx, update_self, hx]
    simp
  · refine Links.update hnd.2.1.1 (Links.update hs.2.2 ?_)
    simpa using hlb

/-- Linking `s` in after the last element, read from `s` on. -/
theorem IsRing.insert_front (h : IsRing next (a ++ [x])) (hs : s ∉ a ++ [x]) :
    IsRing (update (update next s (next x)) x (some s)) (s :: (a ++ [x])) := by
  have hnd := h.nodup
  have hsx : s ≠ x := by rintro rfl; simp at hs
  simp only [nodup_append] at hnd
  have hx := h.next_last
  obtain ⟨hla, -⟩ := links_append.1 h.links
  refine ⟨nodup_cons.2 ⟨hs, h.nodup⟩, ?_, links_append.2 ⟨?_, ?_⟩⟩
  · rw [update_of_ne hsx, update_self, hx]
    cases a <;> simp
  · refine Links.update (fun hm => hnd.2.2 x hm x (by simp) rfl) (Links.update ?_ ?_)
    · simp_all
    · simpa using hla
  · simp

variable {w : α}

/-- Unlinking the successor `w` of `x`. -/
theorem IsRing.remove_after (h : IsRing next (a ++ x :: w :: b)) :
    IsRing (update next x (next w)) (a ++ x :: b) := by
  have hnd := h.nodup
  have hnodup := hnd.sublist (List.Sublist.append_left (List.Sublist.cons_cons _ (sublist_cons_self
    _ _)) _)
  simp only [nodup_append, nodup_cons, mem_cons, not_or] at hnd
  obtain ⟨hla, hx, hw, hlb⟩ := links_append.1 h.links
  refine ⟨hnodup, links_append.2 ⟨?_, ?_, ?_⟩⟩
  · refine Links.update (fun hm => hnd.2.2 x hm x (by simp) rfl) ?_
    simpa using hla
  · rw [update_self, hw]
    cases a <;> simp
  · refine Links.update hnd.2.1.1.2 ?_
    cases a <;> simpa using hlb

/-- Unlinking the first element, the successor of the last. -/
theorem IsRing.remove_front (h : IsRing next (w :: (a ++ [x]))) :
    IsRing (update next x (next w)) (a ++ [x]) := by
  have hnodup : (a ++ [x]).Nodup := (nodup_cons.1 h.nodup).2
  obtain ⟨hw, hl⟩ := h.links
  obtain ⟨hla, -⟩ := links_append.1 hl
  refine ⟨hnodup, links_append.2 ⟨?_, ?_⟩⟩
  · refine Links.update (fun hm => ?_) ?_
    · exact (nodup_append.1 hnodup).2.2 x hm x (by simp) rfl
    · simpa using hla
  · rw [links_cons, update_self, hw]
    cases a <;> simp

/-- Linking an element in, wherever in the ring. -/
theorem IsRing.insert {y l : α} (h : IsRing next (a ++ y :: b))
    (hl : (a ++ y :: b).getLast? = some l) (hs : s ∉ a ++ y :: b) :
    IsRing (update (update next s (next (before a l))) (before a l) (some s))
      (a ++ s :: y :: b) := by
  rcases a.eq_nil_or_concat with rfl | ⟨a, x, rfl⟩
  · obtain ⟨c, hc⟩ := getLast?_eq_some_iff.1 hl
    rw [hc] at h hs
    have := h.insert_front hs
    rwa [← hc] at this
  · rw [concat_eq_append, before_concat]
    have := IsRing.insert_after (by simpa using h) (by simpa using hs)
    simpa using this

/-- Unlinking an element, wherever in the ring. -/
theorem IsRing.remove {l : α} (h : IsRing next (a ++ w :: b))
    (hl : (a ++ w :: b).getLast? = some l) :
    IsRing (update next (before a l) (next w)) (a ++ b) := by
  rcases a.eq_nil_or_concat with rfl | ⟨a, x, rfl⟩
  · rcases b.eq_nil_or_concat with rfl | ⟨b, x, rfl⟩
    · exact isRing_nil
    · rw [concat_eq_append] at *
      obtain rfl : x = l := by
        rw [nil_append, ← cons_append, getLast?_concat] at hl
        exact Option.some.inj hl
      exact h.remove_front
  · rw [concat_eq_append, before_concat]
    simpa using IsRing.remove_after (by simpa using h)

end Update

/-! ## Runs -/

/-- Every `skip` leads to a later element, past elements related to the one that skips. If the
skips are `tight` these skip themselves. -/
def Skips (tight : Prop) (skip : α → Option α) (R : α → α → Prop) : List α → Prop
  | [] => True
  | x :: q =>
    (∀ y, skip x = some y → ∃ b c, q = b ++ y :: c ∧ (∀ z ∈ b ++ [y], R x z) ∧
      (tight → ∀ z ∈ b, skip z ≠ none)) ∧ Skips tight skip R q

section Skips

variable {tight : Prop} {skip : α → Option α} {R : α → α → Prop} {b : List α}

/-- Skips of the elements behind. -/
theorem Skips.suffix : ∀ {a : List α}, Skips tight skip R (a ++ b) → Skips tight skip R b
  | [], h => h
  | _ :: a, h => Skips.suffix (a := a) h.2

variable {a : List α} {x y : α}

/-- What `Skips` says of one element. -/
theorem Skips.at (h : Skips tight skip R (a ++ x :: b)) (hx : skip x = some y) :
    ∃ c d, b = c ++ y :: d ∧ (∀ z ∈ c ++ [y], R x z) ∧ (tight → ∀ z ∈ c, skip z ≠ none) :=
  h.suffix.1 y hx

/-- The last element does not skip. -/
theorem Skips.last (h : Skips tight skip R (a ++ [x])) : skip x = none := by
  cases hx : skip x with
  | none => rfl
  | some y => obtain ⟨c, d, hc, -⟩ := h.at hx; simp at hc

theorem mem_append_cons {q : List α} {z : α} (hz : z ∈ q ++ [y]) : z ∈ q ++ y :: b := by
  rw [append_cons]
  exact mem_append_left b hz

theorem Skips.congr {skip' : α → Option α} {R' : α → α → Prop} :
    ∀ {q : List α}, (∀ x ∈ q, skip' x = skip x) → (∀ x ∈ q, ∀ y ∈ q, R x y → R' x y) →
      Skips tight skip R q → Skips tight skip' R' q
  | [], _, _, _ => trivial
  | x :: q, hs, hR, ⟨hx, hq⟩ => by
    refine ⟨fun y hy => ?_, hq.congr (fun z hz => hs z (by simp [hz]))
      fun u hu v hv => hR u (by simp [hu]) v (by simp [hv])⟩
    obtain ⟨b, c, rfl, hb, ht⟩ := hx y ((hs x (by simp)).symm.trans hy)
    refine ⟨b, c, rfl, fun z hz => hR x (by simp) z ?_ (hb z hz), fun h u hu => ?_⟩
    · exact mem_cons_of_mem x (mem_append_cons hz)
    · rw [hs u (by simp [hu])]
      exact ht h u hu

variable {s : α}

/-- The two ways to split a list at an element compare. -/
theorem append_cons_eq_append_cons {b' c' : List α} (h : a ++ s :: b = b' ++ y :: c') :
    (∃ e, a = b' ++ y :: e ∧ c' = e ++ s :: b) ∨ (a = b' ∧ s = y ∧ b = c') ∨
      ∃ e, b' = a ++ s :: e ∧ b = e ++ y :: c' := by
  rcases append_eq_append_iff.1 h with ⟨e, rfl, he⟩ | ⟨e, rfl, he⟩
  · cases e with
    | nil => exact .inr (.inl (by simpa using he))
    | cons u e => exact .inr (.inr ⟨e, by simp_all, by simp_all⟩)
  · cases e with
    | nil =>
      obtain ⟨rfl, rfl⟩ : y = s ∧ c' = b := by simpa using he
      exact .inr (.inl ⟨by simp, rfl, rfl⟩)
    | cons u e => exact .inl ⟨e, by simp_all, by simp_all⟩

/-- Inserting an element that does not skip where nothing skips across. -/
theorem Skips.insert (hs : skip s = none) :
    ∀ {a : List α}, Skips tight skip R (a ++ b) → (∀ u ∈ a, ∀ y ∈ b, skip u ≠ some y) →
      Skips tight skip R (a ++ s :: b)
  | [], h, _ => ⟨by simp [hs], h⟩
  | u :: a, h, ha => by
    refine ⟨fun y hy => ?_, Skips.insert hs h.2 fun v hv => ha v (by simp [hv])⟩
    obtain ⟨c, d, hcd, hc⟩ := h.1 y hy
    rcases append_eq_append_iff.1 hcd with ⟨e, -, he⟩ | ⟨e, rfl, he⟩
    · exact absurd hy (ha u (by simp) y (by simp [he]))
    cases e with
    | nil => exact absurd hy (ha u (by simp) y (by simp [← show y :: d = b from he]))
    | cons v e =>
      obtain ⟨rfl, rfl⟩ : y = v ∧ d = e ++ b := by simpa using he
      exact ⟨c, e ++ s :: b, by simp, hc⟩

/-- Removing an element no earlier one skips to. -/
theorem Skips.remove : ∀ {a : List α}, Skips tight skip R (a ++ s :: b) →
    (∀ u ∈ a, skip u ≠ some s) → Skips tight skip R (a ++ b)
  | [], h, _ => h.2
  | u :: a, h, ha => by
    refine ⟨fun y hy => ?_, Skips.remove h.2 fun v hv => ha v (by simp [hv])⟩
    obtain ⟨c, d, hcd, hR, hc⟩ := h.1 y hy
    rcases append_cons_eq_append_cons hcd with ⟨f, rfl, -⟩ | ⟨-, rfl, -⟩ | ⟨f, rfl, rfl⟩
    · exact ⟨c, f ++ b, by simp, hR, hc⟩
    · exact absurd hy (ha u (by simp))
    have hsub : ∀ z ∈ a ++ f, z ∈ a ++ s :: f := by simp +contextual [or_imp]
    refine ⟨a ++ f, d, by simp, fun z hz => hR z ?_, fun ht z hz => hc ht z (hsub z hz)⟩
    rcases mem_append.1 hz with hz | hz
    · exact mem_append_left _ (hsub z hz)
    · exact mem_append_right _ hz

variable [DecidableEq α]

theorem Skips.update_of_notMem {y : Option α} {q : List α} (hx : x ∉ q)
    (h : Skips tight skip R q) : Skips tight (update skip x y) R q :=
  h.congr (fun _ hz => update_of_ne (ne_of_mem_of_not_mem hz hx) _ _)
    fun _ _ _ _ => id

/-- Letting an element skip past elements related to it. -/
theorem Skips.set {c d : List α} (hR : ∀ z ∈ c ++ [y], R x z)
    (hc : tight → ∀ z ∈ c, skip z ≠ none) :
    ∀ {a : List α}, (a ++ x :: (c ++ y :: d)).Nodup →
      Skips tight skip R (a ++ x :: (c ++ y :: d)) →
      Skips tight (update skip x (some y)) R (a ++ x :: (c ++ y :: d))
  | [], hnd, h => by
    have hx : x ∉ c ++ y :: d := (nodup_cons.1 hnd).1
    refine ⟨fun y' hy' => ?_, h.2.update_of_notMem hx⟩
    obtain rfl : y = y' := by simpa using hy'
    refine ⟨c, d, rfl, hR, fun ht z hz => ?_⟩
    rw [update_of_ne (by rintro rfl; simp [hz] at hx)]
    exact hc ht z hz
  | u :: a, hnd, h => by
    have hnd' := nodup_cons.1 hnd
    refine ⟨fun y' hy' => ?_, Skips.set hR hc hnd'.2 h.2⟩
    rw [update_of_ne (by rintro rfl; simp at hnd')] at hy'
    obtain ⟨c', d', hcd, hR', hc'⟩ := h.1 y' hy'
    refine ⟨c', d', hcd, hR', fun ht z hz => ?_⟩
    rcases eq_or_ne z x with rfl | hzx
    · simp
    · rw [update_of_ne hzx]
      exact hc' ht z hz

/-- Letting the element before the end `s` of a run skip no more, when nothing before
skips to `s`. -/
theorem Skips.clear (hs : skip s = none) :
    ∀ {a : List α}, (a ++ x :: s :: b).Nodup → Skips tight skip R (a ++ x :: s :: b) →
      (∀ u ∈ a, skip u ≠ some s) → Skips tight (update skip x none) R (a ++ x :: s :: b)
  | [], hnd, h, _ => ⟨by simp, h.2.update_of_notMem (nodup_cons.1 hnd).1⟩
  | u :: a, hnd, h, ha => by
    have hnd' := nodup_cons.1 hnd
    refine ⟨fun y hy => ?_, Skips.clear hs hnd'.2 h.2 fun v hv => ha v (by simp [hv])⟩
    rw [update_of_ne (by rintro rfl; simp at hnd')] at hy
    obtain ⟨c, d, hcd, hR, hc⟩ := h.1 y hy
    refine ⟨c, d, hcd, hR, fun ht z hzc => ?_⟩
    rw [update_of_ne]
    · exact hc ht z hzc
    rintro rfl
    have hza : z ∉ a := (notMem_of_nodup hnd'.2).1
    rcases append_cons_eq_append_cons hcd with ⟨f, rfl, -⟩ | ⟨rfl, -, -⟩ | ⟨f, rfl, hf⟩
    · simp [hzc] at hza
    · exact hza hzc
    cases f with
    | nil =>
      obtain ⟨rfl, -⟩ : s = y ∧ b = d := by simpa using hf
      exact ha u (by simp) hy
    | cons v f =>
      obtain ⟨rfl, -⟩ : s = v ∧ b = f ++ y :: d := by simpa using hf
      exact hc ht s (by simp) hs

end Skips

end LinkedRing
