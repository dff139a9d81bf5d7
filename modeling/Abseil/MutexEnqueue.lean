import Abseil.MutexRing

/-!
# Enqueue

`Enqueue` keeps the invariant of the queue and puts the new waiter into it without
changing the order of the others (`enqueueNonEmpty_spec`). While an unlocker may be
searching the queue the new waiter goes to the back, or it is a writer without condition
and goes to the front (`Entered.searching`).
-/

open BoundedLoop LinkedRing

namespace Abseil.Mutex

open Function List

variable {n : ℕ}

/-! ## Linking a waiter in -/

variable {t : Prop} {H : Heap n} {h y : Fin n} {a b : List (Fin n)}

theorem Queue.next_before (hq : Queue t H (some h) (a ++ y :: b)) : H.next (before a h) = some y :=
  hq.ring.next_before hq.last.symm

theorem Queue.nextOf_before
    (hq : Queue t H (some h) (a ++ y :: b)) : nextOf H (before a h) = .ok y := by
  simp [nextOf, hq.next_before]

variable {q : List (Fin n)}

/-- The last waiter skips nothing. -/
theorem Queue.skip_last (hq : Queue t H (some h) q) : H.skip h = none := by
  obtain ⟨a, rfl⟩ := hq.eq_append
  exact hq.skips.last

variable {s : Fin n}

/-- Linking `s` in where nothing skips across. -/
theorem Queue.link_before (hq : Queue t H (some h) (a ++ y :: b)) (hs : s ∉ a ++ y :: b)
    (hacross : ∀ u ∈ a, ∀ z ∈ y :: b, H.skip u ≠ some z) (hskip : H.skip s = none) :
    Queue t (linkAfter H (before a h) s) (some h) (a ++ s :: y :: b) where
  last := by
    rw [hq.last]
    simp
  ring := hq.ring.insert hq.last.symm hs
  skips := Skips.insert hskip hq.skips hacross

/-- Linking `s` in as the new last waiter. -/
theorem Queue.link_last (hq : Queue t H (some h) q) (hs : s ∉ q) (hskip : H.skip s = none) :
    Queue t (linkAfter H h s) (some s) (q ++ [s]) := by
  have hskips : Skips t H.skip (fun x y => key H x = key H y) (q ++ []) := by simpa using hq.skips
  refine ⟨by simp, ?_, Skips.insert hskip hskips (by simp)⟩
  obtain ⟨a, rfl⟩ := hq.eq_append
  rw [append_assoc]
  exact hq.ring.insert_after hs

/-- Nothing skips across from waiters to one that is not like them. -/
theorem Queue.no_skip_across {head : Option (Fin n)} (hq : Queue t H head (a ++ y :: b))
    (hne : ∀ u ∈ a, key H u ≠ key H y) : ∀ u ∈ a, ∀ z ∈ y :: b, H.skip u ≠ some z := by
  intro u hu z hz hskip
  refine hne u hu ?_
  obtain ⟨a1, a2, rfl⟩ := append_of_mem hu
  have hnd := hq.nodup
  rw [append_assoc, cons_append] at hq
  obtain ⟨c, d, hcd, hc, -⟩ := hq.skips.at hskip
  rcases append_cons_eq_append_cons hcd with ⟨e, rfl, -⟩ | ⟨rfl, rfl, -⟩ | ⟨e, rfl, -⟩
  · exact absurd rfl ((nodup_append.1 hnd).2.2 z (by simp) z hz)
  · exact hc y (by simp)
  · exact hc y (by simp)

/-- `H'` is `H` but for the skips of the waiter `x`. -/
structure SkipOf (x : Fin n) (H H' : Heap n) : Prop where
  fields : ButSkip H H'
  others : ∀ z, z ≠ x → H'.skip z = H.skip z

variable {head : Option (Fin n)}

/-- A waiter may skip to its successor. -/
theorem skipToSuccessor_spec {x : Fin n} (hq : Queue t H head (a ++ x :: y :: b)) :
    ∃ H', skipToSuccessor H x = .ok H' ∧ Queue t H' head (a ++ x :: y :: b) ∧ SkipOf x H H' := by
  have hnext : nextOf H x = .ok y := by simp [nextOf, hq.ring.next_mid]
  by_cases he : muEquivalentWaiter H x y
  · refine ⟨H.setSkip x (some y), by simp [skipToSuccessor, hnext, he], ?_, rfl, ?_⟩
    · exact Queue.setSkip (c := []) hq (by simpa using muEquivalentWaiter_iff.1 he) (by simp)
    · exact fun z hz => update_of_ne hz _ _
  · exact ⟨H, by simp [skipToSuccessor, hnext, he], hq, rfl, fun _ _ => rfl⟩

/-! ## The place by priority -/

/-- The state of the search of `Enqueue` : `advanceTo` ends a run, or is the last waiter at
the start, and `rest` waiters come after it. -/
structure EnqueueLoop (t : Prop) (H₀ : Heap n) (h : Fin n) (q : List (Fin n)) (rest : ℕ)
    (u : Heap n × Fin n) : Prop where
  queue : Queue t u.1 (some h) q
  compressed : Compressed H₀ u.1
  place : ∃ a y b, q = a ++ y :: b ∧ u.2 = before a h ∧ rest = (y :: b).length
  ends : u.1.skip u.2 = none

/-- The search has passed no waiter of a lower priority than `s`. -/
structure PriorityLoop (t : Prop) (H₀ : Heap n) (h s : Fin n) (q : List (Fin n)) (rest : ℕ)
    (u : Heap n × Fin n) : Prop extends EnqueueLoop t H₀ h q rest u where
  above : ∀ x ∈ q.take (q.length - rest), H₀.priority s ≤ H₀.priority x

/-- A round of the search by priority. -/
theorem enqueueRound_spec {H0 : Heap n} (hprio : H0.priority s > H0.priority h) (k : ℕ)
    (u : Heap n × Fin n) (hu : PriorityLoop t H0 h s q k u) :
    (∃ u', enqueueRound s u = .ok (.done u') ∧ ∃ k', PriorityLoop t H0 h s q k' u' ∧
        ∀ y ∈ (q.drop (q.length - k')).head?, H0.priority y < H0.priority s) ∨
      ∃ u' k', enqueueRound s u = .ok (.next u') ∧ PriorityLoop t H0 h s q k' u' ∧ k' < k := by
  obtain ⟨H, e⟩ := u
  obtain ⟨⟨hq, hcomp, ⟨a, y, b, rfl, rfl, rfl⟩, hend⟩, habove⟩ := hu
  have hnext := hq.nextOf_before
  obtain ⟨H', c, r, d, hskip, hq', hcomp', hrun, -⟩ := skip_spec hq
  have hcomp0 := hcomp.trans hcomp'
  -- the waiters of the run have the priority of its first
  have halike : ∀ z ∈ c ++ [r], H0.priority z = H0.priority y := fun z hz => by
    have hkey := hrun.alike y rfl z hz
    rw [← hcomp.fields.priority]
    exact congrArg (·.2.1) hkey
  have hr := halike r (by simp)
  by_cases hle : H'.priority s ≤ H'.priority r
  · refine .inr ⟨(H', r), d.length, by simp [enqueueRound, hnext, hskip, hle], ?_, ?_⟩
    · -- The last waiter has a lower priority, so there are waiters after `r`.
      cases d with
      | nil =>
        have hl := hq.last
        rw [hrun.split] at hl
        obtain rfl : h = r := by simpa [← append_assoc] using hl
        rw [hcomp0.fields.priority] at hle
        omega
      | cons y' b' =>
        refine ⟨⟨hq', hcomp0, ⟨a ++ c ++ [r], y', b', ?_, by rw [before_concat], rfl⟩, ?_⟩, ?_⟩
        · rw [hrun.split]
          simp
        · exact (hcomp'.none_iff r).2 hrun.ends
        have hsplit : a ++ y :: b = a ++ (c ++ [r]) ++ y' :: b' := by simp [hrun.split]
        rw [hsplit, length_append, Nat.add_sub_cancel, take_left]
        rw [length_append, Nat.add_sub_cancel, take_left] at habove
        rw [hcomp0.fields.priority] at hle
        refine fun x hx => (mem_append.1 hx).elim (habove x) fun hx => ?_
        rwa [halike x hx, ← hr]
    · rw [hrun.split]
      simp
      omega
  · refine .inl ⟨(H', before a h), by simp [enqueueRound, hnext, hskip, hle], (y :: b).length,
      ⟨⟨hq', hcomp0, ⟨a, y, b, rfl, rfl, rfl⟩, (hcomp'.none_iff _).2 hend⟩, habove⟩, ?_⟩
    rw [length_append, Nat.add_sub_cancel, drop_left]
    rintro _ ⟨⟩
    rw [hcomp0.fields.priority] at hle
    omega

/-- The place found is behind the end of a chain of skips. -/
theorem findEnqueueAfter_spec (hq : Queue t H (some h) q) :
    ∃ H' e, findEnqueueAfter H h s = .ok (H', e) ∧ Queue t H' (some h) q ∧ Compressed H H' ∧
      (∀ e' ∈ e, ∃ a y b, q = a ++ y :: b ∧ e' = before a h ∧ H'.skip e' = none ∧
        (∀ u ∈ a, ∀ z ∈ y :: b, H'.skip u ≠ some z) ∧
        (H.maybeUnlocking h = true → a = [] ∧ H.how s = .kExclusive ∧ H.cond s = none) ∧
        (H.maybeUnlocking h = false →
          (∀ x ∈ a, H.priority s ≤ H.priority x) ∧ H.priority y < H.priority s)) ∧
      (H.maybeUnlocking h = true → H' = H) ∧
      (H.maybeUnlocking h = false → (e = none ↔ H.priority s ≤ H.priority h)) := by
  obtain ⟨y, b, rfl⟩ := hq.eq_cons
  by_cases hprio : H.priority s > H.priority h
  · by_cases hu : H.maybeUnlocking h = false
    · have hlen := Nat.lt_succ_of_le hq.length_le
      obtain ⟨⟨H', e⟩, hloop, k, ⟨⟨hq', hcomp, ⟨a, y', b', hsplit, he, rfl⟩, hend⟩, habove⟩,
        hlow⟩ :=
        runLoop_total MutexError.endlessLoop (enqueueRound_spec hprio) (n + 1)
          (y :: b).length (H, h) ⟨⟨hq, .refl H, ⟨[], y, b, rfl, rfl, rfl⟩, hq.skip_last⟩, by simp⟩
          hlen
      rw [hsplit, length_append, Nat.add_sub_cancel] at habove hlow
      rw [take_left] at habove
      rw [drop_left] at hlow
      refine ⟨H', some e, by simp [findEnqueueAfter, hprio, hu, hloop], hq', hcomp, ?_,
        by simp [hu], fun _ => by simpa using hprio⟩
      rintro e' he'
      obtain rfl : e = e' := by simpa using he'
      have hlow := hlow y' rfl
      refine ⟨a, y', b', hsplit, he, hend, Queue.no_skip_across (hsplit ▸ hq') fun u hu hkey => ?_,
        by simp [hu], fun _ => ⟨habove, hlow⟩⟩
      rw [hcomp.fields.key] at hkey
      have hprio : H.priority u = H.priority y' := congrArg (·.2.1) hkey
      have := habove u hu
      omega
    · by_cases hw : H.how s = .kExclusive ∧ H.cond s = none
      · refine ⟨H, some h, by simp [findEnqueueAfter, hprio, hu, hw], hq, .refl H, ?_,
          fun _ => rfl, fun h => absurd h hu⟩
        rintro e' he'
        obtain rfl : h = e' := by simpa using he'
        exact ⟨[], y, b, rfl, rfl, hq.skip_last, by simp, fun _ => ⟨rfl, hw⟩,
          fun h => absurd h hu⟩
      · exact ⟨H, none, by simp [findEnqueueAfter, hu, hw], hq, .refl H, by simp,
          fun _ => rfl, fun h => absurd h hu⟩
  · exact ⟨H, none, by simp [findEnqueueAfter, hprio], hq, .refl H, by simp, fun _ => rfl,
      fun _ => by simpa using hprio⟩

/-! ## Enqueue -/

/-- `q'` is `q` with `s` put into it, and the other waiters are as they were. -/
structure Entered (t : Prop) (H : Heap n) (head : Option (Fin n)) (q : List (Fin n)) (s : Fin n)
    (H' : Heap n) (h' : Fin n) (q' : List (Fin n)) : Prop where
  queue : Queue t H' (some h') q'
  place : ∃ a b, q = a ++ b ∧ q' = a ++ s :: b
  key : ∀ x ∈ q, key H' x = key H x
  wake : ∀ x ∈ q, H'.wake x = H.wake x
  maySkip : ∀ x ∈ q, H'.maySkip x = H.maySkip x
  /-- While the queue may be searched, `s` goes to the front if it is a writer without
  condition and else to the back, behind the last waiter `h`. -/
  searching : ∀ h, head = some h → H.maybeUnlocking h = true → H'.maybeUnlocking h' = true ∧
    ((q' = s :: q ∧ H'.how s = .kExclusive ∧ H'.cond s = none ∧ ∀ x ∈ q, H'.skip x = H.skip x) ∨
      q' = q ++ [s] ∧ ∀ x ∈ q, (x = h → H.maySkip h = false) → H'.skip x = H.skip x)

/-- Where the priorities put `s` into `q`, whose last waiter is `h` : before the first waiter of a
lower priority if `h` has one, and else at the back. -/
def ByPriority (priority : Fin n → ℤ) (h s : Fin n) (q q' : List (Fin n)) : Prop :=
  (priority h < priority s → ∃ a y b, q = a ++ y :: b ∧ q' = a ++ s :: y :: b ∧
    (∀ x ∈ a, priority s ≤ priority x) ∧ priority y < priority s) ∧
  (priority s ≤ priority h → q' = q ++ [s])

theorem skipToNew_spec (hq : Queue t H (some h) (a ++ s :: y :: b)) :
    ∃ H', skipToNew H h (before a h) = .ok H' ∧ Queue t H' (some h) (a ++ s :: y :: b) ∧
      ButSkip H H' ∧ (a = [] → H' = H) := by
  by_cases hif : before a h ≠ h ∧ H.maySkip (before a h)
  · rcases a.eq_nil_or_concat with rfl | ⟨a, x, rfl⟩
    · exact absurd rfl hif.1
    · rw [concat_eq_append] at *
      obtain ⟨H', hsucc, hq', hso⟩ := skipToSuccessor_spec
        (by simpa using hq)
      refine ⟨H', ?_, by simpa using hq', hso.fields, by simp⟩
      rw [skipToNew, if_pos hif, before_concat, hsucc]
  · exact ⟨H, by rw [skipToNew, if_neg hif], hq, rfl, fun _ => rfl⟩

/-- A waiter is inserted behind the end of a chain. -/
theorem insertAfter_spec (hq : Queue t H (some h) (a ++ y :: b)) (hs : s ∉ a ++ y :: b)
    (hskip : H.skip s = none) (hend : H.skip (before a h) = none)
    (hacross : ∀ u ∈ a, ∀ z ∈ y :: b, H.skip u ≠ some z) :
    ∃ H', insertAfter H h (before a h) s = .ok (H', h) ∧
      Queue t H' (some h) (a ++ s :: y :: b) ∧
      H' = { H with next := H'.next, skip := H'.skip } ∧
      (a = [] → ∀ x ∈ y :: b, H'.skip x = H.skip x) := by
  have hq1 := hq.link_before hs hacross hskip
  have hcheck : ((linkAfter H (before a h) s).skip (before a h)).isNone = true := by
    simp [linkAfter, Heap.setNext, hend]
  obtain ⟨H2, hnew, hq2, hskip2, hnil⟩ := skipToNew_spec hq1
  obtain ⟨H3, hsucc, hq3, hso⟩ := skipToSuccessor_spec hq2
  refine ⟨H3, by simp [insertAfter, rawCheck, hcheck, hnew, hsucc], hq3, ?_, ?_⟩
  · rw [hskip2.trans hso.fields]
    rfl
  · rintro rfl x hx
    rw [hso.others x (by rintro rfl; exact hs hx), hnil rfl]
    rfl

/-- What `Entered` asks beyond the queue itself, from what a heap may differ in. -/
theorem Entered.of_fields {H1 H' : Heap n} {h' : Fin n} {q' : List (Fin n)} (hcomp : ButSkip H H1)
    (hf : H' = { H1 with next := H'.next, skip := H'.skip, maybeUnlocking := H'.maybeUnlocking })
    (hq : Queue t H' (some h') q') (hplace : ∃ a b, q = a ++ b ∧ q' = a ++ s :: b)
    (hsearch : ∀ h, head = some h → H.maybeUnlocking h = true → H'.maybeUnlocking h' = true ∧
      ((q' = s :: q ∧ H'.how s = .kExclusive ∧ H'.cond s = none ∧
          ∀ x ∈ q, H'.skip x = H.skip x) ∨
        q' = q ++ [s] ∧ ∀ x ∈ q, (x = h → H.maySkip h = false) → H'.skip x = H.skip x)) :
    Entered t H head q s H' h' q' where
  queue := hq
  place := hplace
  key x _ := by rw [← hcomp.key, hf]; rfl
  wake x _ := by rw [← hcomp.wake, hf]
  maySkip x _ := by rw [← hcomp.maySkip, hf]
  searching := hsearch

section

variable (hq : Queue t H (some h) q) (hs : s ∉ q) (hskip : H.skip s = none)
include hq hs hskip

/-- A waiter comes first. -/
theorem insertFront_spec :
    ∃ H', insertFront H h s = .ok (H', h) ∧ Queue t H' (some h) (s :: q) ∧
      H' = { H with next := H'.next, skip := H'.skip } ∧ ∀ x ∈ q, H'.skip x = H.skip x := by
  obtain ⟨y, b, rfl⟩ := hq.eq_cons
  have hq1 := Queue.link_before (a := []) hq hs (by simp) hskip
  obtain ⟨H2, hsucc, hq2, hso⟩ := skipToSuccessor_spec hq1
  rw [before_nil] at hsucc
  refine ⟨H2, by simp [insertFront, hsucc], hq2, ?_, fun x hx => ?_⟩
  · rw [hso.fields]
    rfl
  · rw [hso.others x (by rintro rfl; exact hs hx)]
    rfl

/-- A waiter comes last. -/
theorem insertBack_spec :
    ∃ H', insertBack H h s = (H', s) ∧ Queue t H' (some s) (q ++ [s]) ∧
      H' = { H with next := H'.next, skip := H'.skip, maybeUnlocking := H'.maybeUnlocking } ∧
      H'.maybeUnlocking s = H.maybeUnlocking h ∧
      ∀ x ∈ q, (x = h → H.maySkip h = false) → H'.skip x = H.skip x := by
  have hq1 := hq.link_last hs hskip
  set H2 := (linkAfter H h s).setMaybeUnlocking s (H.maybeUnlocking h)
  have hq2 : Queue t H2 (some s) (q ++ [s]) := { hq1 with }
  by_cases hif : H2.maySkip h && muEquivalentWaiter H2 h s
  · refine ⟨H2.setSkip h (some s), ?_, ?_, rfl, ?_, fun x _ hx' => ?_⟩
    · rw [insertBack]
      exact if_pos hif
    · obtain ⟨a, rfl⟩ := hq.eq_append
      rw [append_assoc] at hq2 ⊢
      rw [Bool.and_eq_true, muEquivalentWaiter_iff] at hif
      exact Queue.setSkip (c := []) hq2 (by simpa using hif.2) (by simp)
    · simp [H2, Heap.setSkip, Heap.setMaybeUnlocking]
    · have hmay : H.maySkip h = true := (Bool.and_eq_true_iff.1 hif).1
      have hne : x ≠ h := fun hxh => by simp [hmay] at hx'; exact hx' hxh
      exact update_of_ne hne _ _
  · refine ⟨H2, ?_, hq2, rfl, ?_, fun _ _ _ => rfl⟩
    · rw [insertBack]
      exact if_neg hif
    · simp [H2, Heap.setMaybeUnlocking]

/-- A waiter enters the queue, at the place of its priority if no unlocker may be searching. -/
theorem enqueueNonEmpty_spec (hasBlocked : Bool) :
    ∃ H' h' q', enqueueNonEmpty H h s hasBlocked = .ok (H', h') ∧
      Entered t H (some h) q s H' h' q' ∧ H'.priority = H.priority ∧
      (H.maybeUnlocking h = false → hasBlocked = false → ByPriority H.priority h s q q') := by
  obtain ⟨H1, e, hfind, hq1, hcomp, he, hsearch, hnone⟩ := findEnqueueAfter_spec (s := s) hq
  have hskip1 : H1.skip s = none := (hcomp.none_iff s).2 hskip
  cases e with
  | some e =>
    obtain ⟨a, y, b, rfl, rfl, hend, hacross, hfront, hrank⟩ := he e rfl
    obtain ⟨H', hins, hq', hf, hnil⟩ := insertAfter_spec hq1 hs hskip1 hend hacross
    refine ⟨H', h, _, by simp [enqueueNonEmpty, hfind, hins],
      .of_fields hcomp.fields (by rw [hf]) hq' ⟨a, y :: b, rfl, rfl⟩ ?_,
      by rw [hf, hcomp.fields.priority], fun hu _ => ⟨fun _ => ?_,
        fun hle => absurd ((hnone hu).2 hle) (Option.some_ne_none _)⟩⟩
    · rintro h0 ⟨⟩ hu
      obtain ⟨rfl, hhow, hcond⟩ := hfront hu
      obtain rfl := hsearch hu
      refine ⟨by rw [hf]; exact hu, .inl ⟨rfl, by rw [hf]; exact hhow, by rw [hf]; exact hcond, ?_⟩⟩
      exact hnil rfl
    · exact ⟨a, y, b, rfl, rfl, hrank hu⟩
  | none =>
    obtain ⟨y, b, rfl⟩ := hq.eq_cons
    have hnext : nextOf H1 h = .ok y := Queue.nextOf_before (a := []) hq1
    by_cases hif : hasBlocked ∧ H1.priority s ≥ H1.priority y ∧
        (H1.maybeUnlocking h = false ∨
          (H1.how s = .kExclusive ∧ guaranteedEqual (H1.cond s) none))
    · obtain ⟨H', hins, hq', hf, hsk⟩ := insertFront_spec hq1 hs hskip1
      refine ⟨H', h, _, ?_, .of_fields hcomp.fields (by rw [hf]) hq' ⟨[], y :: b, rfl, rfl⟩ ?_,
        by rw [hf, hcomp.fields.priority], fun _ hb => absurd hif.1 (by simp [hb])⟩
      · simp only [enqueueNonEmpty, hfind, ok_bind, hnext]
        rw [if_pos hif, hins]
      · rintro h0 ⟨⟩ hu
        obtain rfl := hsearch hu
        obtain ⟨hhow, hcond⟩ := hif.2.2.resolve_left (by simp [hu])
        exact ⟨by rw [hf]; exact hu, .inl ⟨rfl, by rw [hf]; exact hhow,
          by rw [hf]; exact guaranteedEqual_iff.1 hcond, hsk⟩⟩
    · obtain ⟨H', hins, hq', hf, hunl, hsk⟩ := insertBack_spec hq1 hs hskip1
      refine ⟨H', s, _, ?_, .of_fields hcomp.fields hf hq' ⟨y :: b, [], by simp, rfl⟩ ?_,
        by rw [hf, hcomp.fields.priority],
        fun hu _ => ⟨fun hlt => absurd ((hnone hu).1 rfl) (not_le.2 hlt), fun _ => rfl⟩⟩
      · simp only [enqueueNonEmpty, hfind, ok_bind, hnext]
        rw [if_neg hif, hins]
      · rintro h0 ⟨⟩ hu
        obtain rfl := hsearch hu
        exact ⟨hunl.trans hu, .inr ⟨rfl, hsk⟩⟩

end

/-- `Enqueue` puts a thread that is not waiting into the queue. -/
theorem enqueue_spec (p : WaitParams) (hq : Queue t H head q) (hs : s ∉ q) :
    ∃ H' h' q', enqueue H head s p = .ok (H', h') ∧ Entered t H head q s H' h' q' ∧
      H'.priority = update H.priority s p.priority ∧
      ∀ h, head = some h → H.maybeUnlocking h = false → p.hasBlocked = false →
        ByPriority (update H.priority s p.priority) h s q q' := by
  have hne : ∀ x ∈ q, x ≠ s := fun x hx hxs => hs (hxs ▸ hx)
  have hkey : ∀ x ∈ q, key (enterQueue H s p) x = key H x := fun x hx => by
    simp [key, enterQueue, hne x hx]
  have hq1 : Queue t (enterQueue H s p) head q :=
    hq.congr (fun _ _ => rfl) (fun x hx => update_of_ne (hne x hx) _ _) hkey
  cases head with
  | none =>
    obtain rfl : q = [] := getLast?_eq_none_iff.1 hq.last.symm
    refine ⟨_, s, [s], rfl, ⟨⟨rfl, ⟨by simp, ?_⟩, ?_⟩, ⟨[], [], rfl, rfl⟩, ?_, ?_, ?_, ?_⟩, rfl, ?_⟩
    · simp [Heap.setNext, Heap.setMaybeUnlocking]
    · simp [Skips, Heap.setNext, Heap.setMaybeUnlocking, enterQueue]
    all_goals simp
  | some h =>
    obtain ⟨H', h', q', henq, hent, hprio, hrank⟩ :=
      enqueueNonEmpty_spec hq1 hs (update_self _ _ _) p.hasBlocked
    refine ⟨H', h', q', henq, ⟨hent.queue, hent.place, ?_, ?_, ?_, fun h0 hh hu => ?_⟩, hprio,
      by rintro _ ⟨⟩; exact hrank⟩
    · exact fun x hx => (hent.key x hx).trans (hkey x hx)
    · exact fun x hx => (hent.wake x hx).trans (update_of_ne (hne x hx) _ _)
    · exact fun x hx => (hent.maySkip x hx).trans (update_of_ne (hne x hx) _ _)
    obtain rfl : h = h0 := by simpa using hh
    have hsk : ∀ x ∈ q, (enterQueue H s p).skip x = H.skip x :=
      fun x hx => update_of_ne (hne x hx) _ _
    have hmay : (enterQueue H s p).maySkip h = H.maySkip h :=
      update_of_ne (hne h (mem_of_getLast? hq.last.symm)) _ _
    obtain ⟨hu', ⟨rfl, hhow, hcond, hs'⟩ | ⟨rfl, hs'⟩⟩ := hent.searching h rfl hu
    · exact ⟨hu', .inl ⟨rfl, hhow, hcond, fun x hx => (hs' x hx).trans (hsk x hx)⟩⟩
    · exact ⟨hu', .inr ⟨rfl, fun x hx hxh => (hs' x hx (by rwa [hmay])).trans (hsk x hx)⟩⟩

end Abseil.Mutex
