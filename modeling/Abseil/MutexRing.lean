import Abseil.LinkedRing
import Abseil.MutexQueue

/-!
# The invariant of the waiter queue

`Queue tight H head q` is the invariant of the queue with the waiters `q`, first to last : the
`next` fields close `q` to a ring with last waiter `head`, and the `skip` fields lead to
later waiters past waiters alike (`LinkedRing.Skips`). The source states it without `tight`
skips, and keeps it with them. The comparison of waiters reads only their `key`, which no
operation on the queue changes.

`skip_spec` says what `Skip` does : it finds the end of a run and changes nothing but
non-null `skip` fields (`Compressed`).
-/

open BoundedLoop LinkedRing

namespace Abseil.Mutex

open List

variable {n : ℕ}

/-! ## Waiters alike -/

/-- What `MuEquivalentWaiter` compares. -/
def key (H : Heap n) (x : Fin n) : MuHow × ℤ × Option Condition :=
  (H.how x, H.priority x, H.cond x)

/-- Guaranteed equality is equality. -/
theorem guaranteedEqual_iff {a b : Option Condition} : guaranteedEqual a b = true ↔ a = b := by
  cases a with
  | none => cases b <;> simp [guaranteedEqual]
  | some a =>
    cases b with
    | none => simp [guaranteedEqual]
    | some b => cases a; cases b; simp [guaranteedEqual, and_assoc]

variable {H : Heap n} {x : Fin n}

/-- Waiters are equivalent if they wait for the same. -/
theorem muEquivalentWaiter_iff {y : Fin n} :
    muEquivalentWaiter H x y = true ↔ key H x = key H y := by
  simp [muEquivalentWaiter, key, guaranteedEqual_iff, and_assoc]

/-! ## The invariant -/

/-- The queue of the waiters `q`, first to last. -/
structure Queue (tight : Prop) (H : Heap n) (head : Option (Fin n)) (q : List (Fin n)) :
    Prop where
  last : head = q.getLast?
  ring : IsRing H.next q
  skips : Skips tight H.skip (fun x y => key H x = key H y) q

variable {t : Prop} {head : Option (Fin n)} {q : List (Fin n)}

theorem Queue.nodup (h : Queue t H head q) : q.Nodup := h.ring.nodup

/-- There are no more waiters than threads. -/
theorem Queue.length_le (h : Queue t H head q) : q.length ≤ n := by
  simpa using h.nodup.length_le_card

theorem Queue.eq_append {h : Fin n} (hq : Queue t H (some h) q) : ∃ a, q = a ++ [h] := by
  obtain ⟨a, ha⟩ := getLast?_eq_some_iff.1 hq.last.symm
  exact ⟨a, ha⟩

theorem Queue.eq_cons {h : Fin n} (hq : Queue t H (some h) q) : ∃ y b, q = y :: b := by
  obtain ⟨a, rfl⟩ := hq.eq_append
  cases a <;> simp

/-- The invariant reads nothing but `next`, `skip` and the keys of the waiters. -/
theorem Queue.congr {H' : Heap n} (h : Queue t H head q) (hnext : ∀ x ∈ q, H'.next x = H.next x)
    (hskip : ∀ x ∈ q, H'.skip x = H.skip x) (hkey : ∀ x ∈ q, key H' x = key H x) :
    Queue t H' head q :=
  ⟨h.last, h.ring.congr hnext, h.skips.congr hskip fun x hx y hy hxy => by
    rw [hkey x hx, hkey y hy, hxy]⟩

/-! ## Skip -/

/-- `H'` is `H` but for the skips. -/
def ButSkip (H H' : Heap n) : Prop := H' = { H with skip := H'.skip }

namespace ButSkip

variable {H H' H'' : Heap n}

section

variable (h : ButSkip H H')
include h

theorem trans (h' : ButSkip H' H'') : ButSkip H H'' := by
  rw [ButSkip, h', h]

theorem next : H'.next = H.next := by rw [h]

theorem key : Mutex.key H' = Mutex.key H := by rw [h]; rfl

theorem priority : H'.priority = H.priority := by rw [h]

theorem wake : H'.wake = H.wake := by rw [h]

theorem maySkip : H'.maySkip = H.maySkip := by rw [h]

theorem maybeUnlocking : H'.maybeUnlocking = H.maybeUnlocking := by rw [h]

end

end ButSkip

/-- `H'` is `H` but for the targets of non-null skips. -/
structure Compressed (H H' : Heap n) : Prop where
  fields : ButSkip H H'
  none_iff : ∀ x, H'.skip x = none ↔ H.skip x = none

namespace Compressed

variable {H H' H'' : Heap n}

theorem refl (H : Heap n) : Compressed H H := ⟨rfl, fun _ => Iff.rfl⟩

theorem trans (h : Compressed H H') (h' : Compressed H' H'') : Compressed H H'' :=
  ⟨h.fields.trans h'.fields, fun x => (h'.none_iff x).trans (h.none_iff x)⟩

theorem setSkip {x y : Fin n} (hx : H.skip x ≠ none) : Compressed H (H.setSkip x (some y)) := by
  refine ⟨rfl, fun z => ?_⟩
  rcases eq_or_ne z x with rfl | hz
  · simpa [Heap.setSkip] using hx
  · simp [Heap.setSkip, hz]

end Compressed

variable {a : List (Fin n)}

/-- Letting a waiter skip to a later one, past waiters like it. -/
theorem Queue.setSkip {c d : List (Fin n)} {y : Fin n}
    (h : Queue t H head (a ++ x :: (c ++ y :: d))) (hkey : ∀ z ∈ c ++ [y], key H x = key H z)
    (hc : t → ∀ z ∈ c, H.skip z ≠ none) :
    Queue t (H.setSkip x (some y)) head (a ++ x :: (c ++ y :: d)) :=
  ⟨h.last, h.ring, h.skips.set hkey hc h.nodup⟩

variable {b : List (Fin n)}

/-- The successor of a waiter that skips is like it. -/
theorem Queue.key_successor (h : Queue t H head (a ++ x :: b)) (hx : H.skip x ≠ none) :
    ∃ z ∈ b.head?, key H x = key H z := by
  obtain ⟨y, hy⟩ := Option.ne_none_iff_exists'.1 hx
  obtain ⟨c, d, rfl, hc, -⟩ := h.skips.at hy
  cases c with
  | nil => exact ⟨y, rfl, hc y (by simp)⟩
  | cons z c => exact ⟨z, rfl, hc z (by simp)⟩

/-- The waiters `l` start with `c ++ [r]`, waiters like the first, and `r` does not skip. -/
structure Run (t : Prop) (H : Heap n) (l c : List (Fin n)) (r : Fin n) (d : List (Fin n)) :
    Prop where
  split : l = c ++ r :: d
  skips : t → ∀ z ∈ c, H.skip z ≠ none
  ends : H.skip r = none
  alike : ∀ x ∈ l.head?, ∀ z ∈ c ++ [r], key H z = key H x

/-- The state of the loop of `Skip` from `x` on : it has come to `x2`, past the waiters `c`, and
has changed only skips of these. -/
structure SkipLoop (t : Prop) (H₀ : Heap n) (head : Option (Fin n)) (a : List (Fin n)) (x : Fin n)
    (b : List (Fin n)) (rest : ℕ) (s : Heap n × Fin n × Fin n) : Prop where
  queue : Queue t s.1 head (a ++ x :: b)
  compressed : Compressed H₀ s.1
  skips : H₀.skip s.2.1 ≠ none
  place : ∃ c v d, x :: b = c ++ s.2.1 :: (v ++ s.2.2 :: d) ∧
    (∀ z ∈ c ++ s.2.1 :: v ++ [s.2.2], key H₀ z = key H₀ x) ∧
    (t → ∀ z ∈ c ++ s.2.1 :: v, H₀.skip z ≠ none) ∧
    (∀ z ∉ c ++ s.2.1 :: v, s.1.skip z = H₀.skip z) ∧ rest = d.length

/-- A round of `Skip` compresses the chain. -/
theorem skipRound_spec {H0 : Heap n} (k : ℕ) (s : Heap n × Fin n × Fin n)
    (hs : SkipLoop t H0 head a x b k s) :
    (∃ u, skipRound s = .ok (.done u) ∧ Queue t u.1 head (a ++ x :: b) ∧ Compressed H0 u.1 ∧
        ∃ c d, Run t H0 (x :: b) c u.2 d ∧ ∀ z, z ∉ c → u.1.skip z = H0.skip z) ∨
      ∃ s' k', skipRound s = .ok (.next s') ∧ SkipLoop t H0 head a x b k' s' ∧ k' < k := by
  obtain ⟨H, x1, x2⟩ := s
  obtain ⟨hq, hcomp, hx1, c, v, d, hsplit, halike, hskips, hothers, rfl⟩ := hs
  dsimp only at hq hcomp hx1 hsplit halike hskips hothers
  cases hx2 : H.skip x2 with
  | none =>
    refine .inl ⟨(H, x2), by simp [skipRound, hx2], hq, hcomp, c ++ x1 :: v, d,
      ⟨by simp [hsplit], hskips, (hcomp.none_iff x2).1 hx2, ?_⟩, hothers⟩
    rintro _ ⟨⟩
    exact halike
  | some x3 =>
    have hq2 : Queue t H head ((a ++ c ++ x1 :: v) ++ x2 :: d) := by simpa [hsplit] using hq
    obtain ⟨e, f, rfl, he, hte⟩ := hq2.skips.at hx2
    rw [hcomp.fields.key] at he
    have hne : H0.skip x2 ≠ none := (hcomp.none_iff x2).not.1 (by simp [hx2])
    -- The waiters up to `x3` are like those up to `x2`.
    have halike' : ∀ z ∈ (c ++ x1 :: v) ++ x2 :: e ++ [x3], key H0 z = key H0 x := fun z hz => by
      have hz' : z ∈ (c ++ x1 :: v ++ [x2]) ++ (e ++ [x3]) := by simpa using hz
      rcases mem_append.1 hz' with hz | hz
      · exact halike z hz
      · rw [← he z hz, halike x2 (by simp)]
    have hskips' : t → ∀ z ∈ (c ++ x1 :: v) ++ x2 :: e, H0.skip z ≠ none := fun ht =>
      forall_mem_append.2 ⟨hskips ht, forall_mem_cons.2 ⟨hne,
        fun z hz => (hcomp.none_iff z).not.1 (hte ht z hz)⟩⟩
    have hq3 : Queue t H head ((a ++ c) ++ x1 :: ((v ++ x2 :: e) ++ x3 :: f)) := by
      simpa using hq2
    refine .inr ⟨(H.setSkip x1 (some x3), x2, x3), f.length, by simp [skipRound, hx2],
      ⟨?_, hcomp.trans (.setSkip ((hcomp.none_iff x1).not.2 hx1)), hne, c ++ x1 :: v, e, f,
        by simp [hsplit], halike', hskips', fun z hz => ?_, rfl⟩, by simp; omega⟩
    · have hq4 := hq3.setSkip
        (fun z hz => by rw [hcomp.fields.key, halike x1 (by simp), halike' z (by simp_all)])
        fun ht z hz => (hcomp.none_iff z).not.2 (hskips' ht z (by simp_all))
      simpa [hsplit] using hq4
    · rw [← hothers z fun hz' => hz (mem_append_left _ hz')]
      exact Function.update_of_ne (by rintro rfl; simp at hz) _ _

/-- `Skip` finds the end of the run of a waiter. -/
theorem skip_spec (hq : Queue t H head (a ++ x :: b)) :
    ∃ H' c r d, skip H x = .ok (H', r) ∧ Queue t H' head (a ++ x :: b) ∧ Compressed H H' ∧
      Run t H (x :: b) c r d ∧ ∀ z, z ∉ c → H'.skip z = H.skip z := by
  cases hx : H.skip x with
  | none =>
    refine ⟨H, [], x, b, by simp [skip, hx], hq, .refl H, ⟨rfl, by simp, hx, ?_⟩, fun _ _ => rfl⟩
    rintro _ ⟨⟩
    simp
  | some x2 =>
    obtain ⟨e, f, rfl, he, hte⟩ := hq.skips.at hx
    have hlen : f.length < n + 1 := by
      have := hq.length_le
      simp at this
      omega
    have hne : H.skip x ≠ none := by simp [hx]
    obtain ⟨⟨H', r⟩, hloop, hq', hcomp, c, d, hrun, hothers⟩ :=
      runLoop_total MutexError.endlessLoop skipRound_spec (n + 1) f.length (H, x, x2)
        ⟨hq, .refl H, hne, [], e, f, rfl,
          by simpa using fun z hz => (he z (by simpa using hz)).symm,
          fun ht => forall_mem_cons.2 ⟨hne, hte ht⟩, fun _ _ => rfl, rfl⟩ hlen
    obtain ⟨c, rfl⟩ : ∃ c', c = x :: c' := by
      cases c with
      | nil =>
        obtain ⟨rfl, -⟩ : x = r ∧ _ := by simpa using hrun.split
        exact absurd hrun.ends hne
      | cons u c => exact ⟨c, by rw [(cons.inj hrun.split).1]⟩
    have hsplit : e ++ x2 :: f = c ++ r :: d := by simpa using hrun.split
    have hx' : H'.skip x ≠ none := (hcomp.none_iff x).not.2 hne
    have halike := hrun.alike x rfl
    refine ⟨H'.setSkip x (some r), x :: c, r, d, by simp [skip, hx, hloop], ?_,
      hcomp.trans (.setSkip hx'), hrun, fun z hz => ?_⟩
    · rw [hsplit] at hq' ⊢
      exact hq'.setSkip (fun z hz => by rw [hcomp.fields.key, halike z (by simp_all)])
        fun ht z hz => (hcomp.none_iff z).not.2 (hrun.skips ht z (by simp [hz]))
    · rw [← hothers z hz]
      exact Function.update_of_ne (by rintro rfl; simp at hz) _ _

end Abseil.Mutex
