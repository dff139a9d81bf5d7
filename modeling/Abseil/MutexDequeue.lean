import Abseil.MutexEnqueue

/-!
# Removing waiters

`Dequeue` keeps the invariant when no waiter skips to the one it removes
(`dequeue_spec`). The two callers see to that in different ways : `DequeueAllWakeable`
removes the successor of a waiter that does not skip, and `TryRemove` repairs the skips
on the way to its waiter.
-/

open BoundedLoop LinkedRing

namespace Abseil.Mutex

open Function List

variable {n : ℕ}

/-! ## Dequeue -/

/-- `H'` is `H` but for links and skips. -/
def ButLinks (H H' : Heap n) : Prop := H' = { H with next := H'.next, skip := H'.skip }

variable {t : Prop} {H : Heap n}

theorem ButLinks.key {H' : Heap n} (h : ButLinks H H') : key H' = key H := by rw [h]; rfl

theorem ButLinks.wake {H' : Heap n} (h : ButLinks H H') : H'.wake = H.wake := by rw [h]

variable {head : Option (Fin n)} {a b : List (Fin n)}

/-- Letting a waiter skip as far as its successor does. -/
theorem Queue.skip_over {x y : Fin n} (hq : Queue t H head (a ++ x :: y :: b))
    (hkey : key H x = key H y) :
    Queue t (if (H.skip y).isSome then H.setSkip x (H.skip y) else H.setSkip x (some y)) head
      (a ++ x :: y :: b) := by
  cases hy : H.skip y with
  | none => exact Queue.setSkip (c := []) hq (by simpa using hkey) (by simp)
  | some z =>
    have hq' : Queue t H head ((a ++ [x]) ++ y :: b) := by simpa using hq
    obtain ⟨e, f, rfl, he, hte⟩ := hq'.skips.at hy
    refine Queue.setSkip (c := y :: e) hq (forall_mem_cons.2 ⟨hkey, fun u hu => ?_⟩)
      fun ht => forall_mem_cons.2 ⟨by simp [hy], hte ht⟩
    rw [hkey, he u hu]

variable {h w : Fin n}

/-- The waiter behind `before a h` is taken out. -/
theorem dequeue_spec (hq : Queue t H (some h) (a ++ w :: b)) (ha : ∀ u ∈ a, H.skip u ≠ some w) :
    ∃ H', dequeue H h (before a h) = .ok (H', (a ++ b).getLast?) ∧
      Queue t H' (a ++ b).getLast? (a ++ b) ∧ ButLinks H H' ∧ ∀ x ∉ a, H'.skip x = H.skip x := by
  have hq1 : Queue t (H.setNext (before a h) (H.next w)) (a ++ b).getLast? (a ++ b) :=
    ⟨rfl, hq.ring.remove hq.last.symm, hq.skips.remove ha⟩
  rw [dequeue, hq.nextOf_before, ok_bind]
  set H1 := H.setNext _ _ with hH1
  cases b with
  | nil =>
    -- The last waiter goes.
    obtain rfl : h = w := by simpa using hq.last
    refine ⟨H1, ?_, hq1, rfl, fun _ _ => rfl⟩
    by_cases hnil : a = []
    · subst hnil
      simp
    · rw [if_neg (before_ne_last hq.nodup hq.last.symm hnil)]
      rcases a.eq_nil_or_concat with rfl | ⟨a, x, rfl⟩
      · exact absurd rfl hnil
      · simp
  | cons y b =>
    have hlast : (a ++ y :: b).getLast? = some h := by
      rw [hq.last]
      simp
    have hhw : h ≠ w := by
      rintro rfl
      exact (notMem_of_nodup hq.nodup).2 (last_mem hlast)
    rw [if_neg hhw, hlast]
    rw [hlast] at hq1
    rcases a.eq_nil_or_concat with rfl | ⟨a, x, rfl⟩
    · exact ⟨H1, by simp, hq1, rfl, fun _ _ => rfl⟩
    rw [concat_eq_append] at *
    have hpw := before_ne_last hq.nodup hq.last.symm (by simp)
    rw [if_pos hpw, hq1.nextOf_before, ok_bind]
    rw [before_concat] at *
    by_cases he : muEquivalentWaiter H1 x y
    · rw [if_pos he]
      have hq2 : Queue t H1 (some h) (a ++ x :: y :: b) := by simpa using hq1
      have hq3 := hq2.skip_over (muEquivalentWaiter_iff.1 he)
      split_ifs at hq3 ⊢ with hy
      all_goals
        refine ⟨_, rfl, by simpa using hq3, rfl, fun z hz => ?_⟩
        exact update_of_ne (by rintro rfl; simp at hz) _ _
    · rw [if_neg he]
      exact ⟨H1, rfl, hq1, rfl, fun _ _ => rfl⟩

/-! ## TryRemove -/

variable {s : Fin n}

/-- `FixSkip` of a waiter before `s`, when no earlier one skips to `s`. -/
theorem fixSkip_spec (hq : Queue t H head (a ++ w :: b)) (ha : ∀ u ∈ a, H.skip u ≠ some s) :
    Queue t (fixSkip H w s) head (a ++ w :: b) ∧ ButSkip H (fixSkip H w s) ∧
      (fixSkip H w s).skip w ≠ some s ∧ ∀ z, z ≠ w → (fixSkip H w s).skip z = H.skip z := by
  by_cases hw : H.skip w = some s
  · obtain ⟨c, d, rfl, hc, htc⟩ := hq.skips.at hw
    have hnd := hq.nodup
    rw [fixSkip, if_pos hw]
    cases hs : H.skip s with
    | some z =>
      -- Skip to where `s` skips.
      have hq' : Queue t H head ((a ++ w :: c) ++ s :: d) := by simpa using hq
      obtain ⟨e, f, rfl, he, hte⟩ := hq'.skips.at hs
      have hzs : z ≠ s := by
        rintro rfl
        simp [nodup_append] at hnd
      refine ⟨?_, rfl, by simpa [Heap.setSkip] using hzs,
        fun u hu => update_of_ne hu _ _⟩
      have hq'' : Queue t H head (a ++ w :: ((c ++ s :: e) ++ z :: f)) := by simpa using hq
      have hall : ∀ u ∈ (c ++ [s]) ++ (e ++ [z]), key H w = key H u :=
        forall_mem_append.2 ⟨hc, fun u hu => (hc s (by simp)).trans (he u hu)⟩
      have := hq''.setSkip (by simpa using hall) fun ht =>
        forall_mem_append.2 ⟨htc ht, forall_mem_cons.2 ⟨by simp [hs], hte ht⟩⟩
      simpa using this
    | none =>
      rw [if_neg (by simp)]
      cases c with
      | cons y c =>
        -- `w` is not next to `s` and skips to its successor.
        have hnext := hq.ring.next_mid
        have hys : y ≠ s := by
          rintro rfl
          simp [nodup_append] at hnd
        rw [if_pos (by simpa [hnext] using hys), hnext]
        refine ⟨?_, rfl, by simpa [Heap.setSkip] using hys,
          fun u hu => update_of_ne hu _ _⟩
        exact Queue.setSkip (c := []) hq (by simpa using hc y (by simp)) (by simp)
      | nil =>
        have hnext := hq.ring.next_mid
        rw [if_neg (by simp [hnext])]
        refine ⟨⟨hq.last, hq.ring, ?_⟩, rfl, by simp [Heap.setSkip],
          fun u hu => update_of_ne hu _ _⟩
        exact hq.skips.clear hs hnd ha
  · rw [fixSkip, if_neg hw]
    exact ⟨hq, rfl, hw, fun _ _ => rfl⟩

variable {q : List (Fin n)}

/-- A waiter of a run that skips to `s` is like `s`. -/
theorem Queue.key_of_skip {u : Fin n} (hq : Queue t H head q) (hu : u ∈ q)
    (hs : H.skip u = some s) : key H u = key H s := by
  obtain ⟨a, b, rfl⟩ := append_of_mem hu
  obtain ⟨c, d, rfl, hc, -⟩ := hq.skips.at hs
  exact hc s (by simp)

/-- Passing a waiter passes the part `c` of the queue, without `s` and without a skip to
it. -/
theorem passWaiter_spec (hq : Queue t H head (a ++ w :: b)) (ha : ∀ u ∈ a, H.skip u ≠ some s)
    (hws : w ≠ s) :
    ∃ H' c r d, passWaiter H s w = .ok (H', r) ∧ Queue t H' head (a ++ w :: b) ∧ ButSkip H H' ∧
      w :: b = c ++ r :: d ∧ s ∉ c ++ [r] ∧ ∀ u ∈ a ++ (c ++ [r]), H'.skip u ≠ some s := by
  have hnd := hq.nodup
  by_cases he : muEquivalentWaiter H s w
  · obtain ⟨hq', hbut, hw, hothers⟩ := fixSkip_spec hq ha
    refine ⟨_, [], w, b, by rw [passWaiter, if_pos he], hq', hbut, rfl, by simpa using hws.symm,
      fun u hu => ?_⟩
    rcases mem_append.1 hu with hu | hu
    · rw [hothers u (ne_of_mem_of_not_mem hu (notMem_of_nodup hnd).1)]
      exact ha u hu
    · obtain rfl : u = w := by simpa using hu
      exact hw
  rw [muEquivalentWaiter_iff] at he
  obtain ⟨H', c, r, d, hskip, hq', hcomp, hrun, hothers⟩ := skip_spec hq
  have halike := hrun.alike w (by simp)
  refine ⟨H', c, r, d, ?_, hq', hcomp.fields, hrun.split, fun hs => ?_, fun u hu => ?_⟩
  · rw [passWaiter, if_neg (by rwa [muEquivalentWaiter_iff]), hskip]
  · exact he (halike s hs)
  rcases mem_append.1 hu with hu | hu
  · rw [hothers u]
    · exact ha u hu
    · intro huc
      rw [hrun.split] at hnd
      exact (nodup_append.1 hnd).2.2 u hu u (by simp [huc]) rfl
  intro hus
  refine he ?_
  have hmem : u ∈ a ++ w :: b := by
    rw [hrun.split]
    simp only [mem_append, mem_cons, not_mem_nil, or_false] at hu ⊢
    tauto
  have := hq'.key_of_skip hmem hus
  rw [hcomp.fields.key] at this
  rw [← this]
  exact halike u hu

/-- The state of the search of `TryRemove` : what is behind `w` is without `s` and without
a skip to it. -/
structure TryRemoveLoop (t : Prop) (H₀ : Heap n) (h s : Fin n) (q : List (Fin n)) (rest : ℕ)
    (u : Heap n × Fin n × Fin n) : Prop where
  queue : Queue t u.1 (some h) q
  fields : ButSkip H₀ u.1
  place : ∃ a b, q = a ++ u.2.2 :: b ∧ s ∉ a ++ [u.2.2] ∧ (∀ x ∈ a, u.1.skip x ≠ some s) ∧
    rest = b.length

/-- The result of the search : the predecessor of `s` with no skip to `s` before it, or
`s` is not there. -/
structure FoundWaiter (t : Prop) (H₀ : Heap n) (h s : Fin n) (q : List (Fin n))
    (u : Heap n × Fin n × Fin n) : Prop where
  queue : Queue t u.1 (some h) q
  fields : ButSkip H₀ u.1
  found : (∃ a b, q = a ++ s :: b ∧ u.2.1 = before a h ∧ u.2.2 = s ∧
    ∀ x ∈ a, u.1.skip x ≠ some s) ∨ s ∉ q ∧ u.2.2 ≠ s

/-- A round ends at the waiter or goes on behind the skips. -/
theorem tryRemoveRound_spec {H0 : Heap n} (k : ℕ) (u : Heap n × Fin n × Fin n)
    (hu : TryRemoveLoop t H0 h s q k u) :
    (∃ u', tryRemoveRound h s u = .ok (.done u') ∧ FoundWaiter t H0 h s q u') ∨
      ∃ u' k', tryRemoveRound h s u = .ok (.next u') ∧ TryRemoveLoop t H0 h s q k' u' ∧ k' < k := by
  obtain ⟨H, pw, w⟩ := u
  obtain ⟨hq, hbut, a, b, rfl, hs, ha, rfl⟩ := hu
  dsimp only at hq hbut hs ha ⊢
  obtain ⟨H', c, r, d, hpass, hq', hbut', hsplit, hsc, hskip⟩ :=
    passWaiter_spec hq ha (fun hws => hs (by simp [hws]))
  have hbut0 := hbut.trans hbut'
  have hsacr : s ∉ a ++ c ++ [r] := by
    simp only [mem_append, not_or] at hs hsc ⊢
    exact ⟨⟨hs.1, hsc.1⟩, hsc.2⟩
  have hround : ∀ w', nextOf H' r = .ok w' → tryRemoveRound h s (H, pw, w) =
      if w' ≠ s ∧ r ≠ h then .ok (.next (H', r, w')) else .ok (.done (H', r, w')) := by
    intro w' hw'
    simp [tryRemoveRound, hpass, hw']
  have hassoc : a ++ w :: b = (a ++ c ++ [r]) ++ d := by simp [hsplit]
  rw [hassoc] at hq hq' ⊢
  have hpre : ∀ u ∈ a ++ c ++ [r], H'.skip u ≠ some s := by simpa using hskip
  cases d with
  | nil =>
    -- Back at the first waiter, and `s` was not met.
    rw [append_nil] at hq' ⊢
    obtain rfl : h = r := by simpa using hq'.last
    obtain ⟨y, b', hyb⟩ := hq'.eq_cons
    have hnext : nextOf H' h = .ok y := by
      have hq'' := hq'
      rw [hyb] at hq''
      exact Queue.nextOf_before (a := []) hq''
    refine .inl ⟨(H', h, y), by rw [hround y hnext, if_neg (by simp)], hq', hbut0,
      .inr ⟨hsacr, ?_⟩⟩
    rintro rfl
    exact hsacr (by rw [hyb]; simp)
  | cons y d =>
    have hnext := hq'.nextOf_before
    have hrh := before_ne_last hq'.nodup hq'.last.symm (by simp)
    rw [before_concat] at hnext hrh
    by_cases hys : y = s
    · subst hys
      refine .inl ⟨(H', r, y), by rw [hround y hnext, if_neg (by simp)], hq', hbut0,
        .inl ⟨a ++ c ++ [r], d, rfl, by rw [before_concat], rfl, hpre⟩⟩
    refine .inr ⟨(H', r, y), d.length, by rw [hround y hnext, if_pos ⟨hys, hrh⟩],
      ⟨hq', hbut0, a ++ c ++ [r], d, rfl, ?_, hpre, rfl⟩, ?_⟩
    · rw [mem_append, not_or]
      exact ⟨hsacr, by simpa using Ne.symm hys⟩
    · have := congrArg length hsplit
      simp at this
      omega

/-- The waiter is found exactly if it is in the queue. -/
theorem findWaiter_spec (hq : Queue t H (some h) q) :
    ∃ u, findWaiter H h s = .ok u ∧ FoundWaiter t H h s q u := by
  obtain ⟨y, b, rfl⟩ := hq.eq_cons
  have hnext : nextOf H h = .ok y := Queue.nextOf_before (a := []) hq
  by_cases hys : y = s
  · subst hys
    exact ⟨(H, h, y), by simp [findWaiter, hnext], hq, rfl, .inl ⟨[], b, rfl, rfl, rfl, by simp⟩⟩
  have hlen : b.length < n + 1 := by
    have := hq.length_le
    simp at this
    omega
  obtain ⟨u, hloop, hu⟩ := runLoop_total MutexError.endlessLoop tryRemoveRound_spec (n + 1)
    b.length (H, h, y) ⟨hq, rfl, [], b, rfl, by simpa using Ne.symm hys, by simp, rfl⟩ hlen
  exact ⟨u, by simp [findWaiter, hnext, hys, hloop], hu⟩

theorem key_finishUnlocking (H : Heap n) (head : Option (Fin n)) :
    key (finishUnlocking H head) = key H := by
  cases head <;> rfl

theorem Queue.finishUnlocking {head' : Option (Fin n)}
    (hq : Queue t H head q) : Queue t (finishUnlocking H head') head q := by
  cases head' <;> exact { hq with }

/-- A removed waiter's own links do not matter. -/
theorem Queue.setNext_of_notMem {y : Option (Fin n)} (hq : Queue t H head q) (hs : s ∉ q) :
    Queue t (H.setNext s y) head q :=
  hq.congr (fun _ hx => update_of_ne (ne_of_mem_of_not_mem hx hs) _ _)
    (fun _ _ => rfl) fun _ _ => rfl

/-- `TryRemove` removes the thread it is given, if that waits. -/
theorem tryRemove_spec (s : Fin n) (hq : Queue t H head q) :
    ∃ H', tryRemove H head s = .ok (H', (q.erase s).getLast?) ∧
      Queue t H' (q.erase s).getLast? (q.erase s) ∧ key H' = key H := by
  cases head with
  | none =>
    obtain rfl : q = [] := getLast?_eq_none_iff.1 hq.last.symm
    exact ⟨H, rfl, hq, rfl⟩
  | some h =>
    obtain ⟨⟨H1, pw, w⟩, hfind, hq1, hbut, hfound⟩ := findWaiter_spec (s := s) hq
    rcases hfound with ⟨a, b, rfl, hpw, hws, ha⟩ | ⟨hs, hws⟩
    · subst hpw hws
      obtain ⟨H2, hdeq, hq2, hlinks, -⟩ := dequeue_spec hq1 ha
      obtain ⟨hwa, hwb⟩ := notMem_of_nodup hq.nodup
      have herase : (a ++ w :: b).erase w = a ++ b := by
        rw [erase_append_right _ hwa, erase_cons_head]
      rw [herase]
      refine ⟨finishUnlocking ((H2.setNext w none).setQueued w false) (a ++ b).getLast?,
        by simp [tryRemove, hfind, removeFound, hdeq], Queue.finishUnlocking ?_, ?_⟩
      · have hq3 := hq2.setNext_of_notMem (s := w) (y := none) (by simp [hwa, hwb])
        exact { hq3 with }
      · rw [key_finishUnlocking, ← hbut.key, ← hlinks.key]
        rfl
    · rw [erase_of_not_mem hs, ← hq.last]
      exact ⟨finishUnlocking H1 (some h), by simp [tryRemove, hfind, removeFound, hws],
        hq1.finishUnlocking, (key_finishUnlocking H1 _).trans hbut.key⟩

end Abseil.Mutex
