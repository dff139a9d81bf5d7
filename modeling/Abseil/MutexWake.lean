import Abseil.MutexDequeue

/-!
# Removing the waiters to wake

`DequeueAllWakeable` reads the `wake` flags that the search of `UnlockSlow` has set. The
search sets them only on the waiters it visits : it visits the successor of a waiter that
it wakes and of one that ends a run, and not the others. `Fresh` is that contract, for the
set of waiters to wake; under it the removal visits no waiter with a stale flag and
removes exactly the waiters to wake (`dequeueAllWakeable_shared`).
-/

open BoundedLoop LinkedRing

namespace Abseil.Mutex

open List

variable {n : ℕ}

/-- The flag of the first waiter is right, and so is that of the successor of a waiter to
wake or of one that does not skip. -/
structure Fresh (T : Fin n → Bool) (H : Heap n) (y : Fin n) (b : List (Fin n)) : Prop where
  first : H.wake y = T y
  chain : List.IsChain (fun x z => (T x = true ∨ H.skip x = none) → H.wake z = T z) (y :: b)

variable {H : Heap n} {y : Fin n} {b : List (Fin n)}

theorem Fresh.congr {T : Fin n → Bool} {H' : Heap n} (h : Fresh T H y b)
    (hwake : ∀ z ∈ y :: b, H'.wake z = H.wake z)
    (hskip : ∀ z ∈ y :: b, H'.skip z = none → H.skip z = none) : Fresh T H' y b := by
  refine ⟨(hwake y (by simp)).trans h.first, ?_⟩
  refine List.IsChain.imp_of_mem_imp (fun x z hx hz hxz hx' => ?_) h.chain
  rw [hwake z hz]
  exact hxz (hx'.imp_right (hskip x hx))

/-- Behind a waiter that is visited and then removed, or that ends a run. -/
theorem Fresh.after {T : Fin n → Bool} {r z : Fin n} {c d : List (Fin n)} (h : Fresh T H y b)
    (hsplit : y :: b = c ++ r :: z :: d) (hr : T r = true ∨ H.skip r = none) : Fresh T H z d := by
  have hchain := h.chain
  rw [hsplit, isChain_append] at hchain
  have h2 := isChain_cons_cons.1 hchain.2.1
  exact ⟨h2.1 hr, h2.2⟩

/-- Nothing skips to the successor of a waiter that does not skip. -/
theorem Queue.skip_ne_of_before {h : Fin n} {a : List (Fin n)}
    (hq : Queue True H (some h) (a ++ y :: b))
    (hend : H.skip (before a h) = none) : ∀ u ∈ a, H.skip u ≠ some y := by
  intro u hu huy
  obtain ⟨a1, a2, rfl⟩ := append_of_mem hu
  have hnd := hq.nodup
  rw [append_assoc, cons_append] at hq
  obtain ⟨c, d, hcd, -, hc⟩ := hq.skips.at huy
  have hc := hc trivial
  rcases a2.eq_nil_or_concat with rfl | ⟨a2, x, rfl⟩
  · simp [huy] at hend
  rw [concat_eq_append] at *
  rw [show a1 ++ u :: (a2 ++ [x]) = (a1 ++ u :: a2) ++ [x] by simp, before_concat] at hend
  rcases append_cons_eq_append_cons hcd with ⟨e, he, -⟩ | ⟨rfl, -, -⟩ | ⟨e, rfl, -⟩
  · rw [he] at hnd
    exact (notMem_of_nodup hnd).1 (by simp)
  · exact hc x (by simp) hend
  · exact hc x (by simp) hend

section Removal

variable {T : Fin n → Bool} {H₀ : Heap n} {h : Fin n}

/-- The state of `DequeueAllWakeable` before it looks at `w`, with the waiters `a` passed
and `rest` to go after `w`. The waiters to wake and to keep are those of the start. -/
structure WakeInv (T : Fin n → Bool) (H₀ : Heap n) (h : Fin n) (woken kept : List (Fin n))
    (rest : ℕ) (L : WakeLoop n) : Prop where
  head : L.head = some h
  key : key L.heap = key H₀
  place : ∃ a y b, L.w = some y ∧ L.pw = before a h ∧ Queue True L.heap (some h) (a ++ y :: b) ∧
    (a = [] → L.skipped = false) ∧ (a ≠ [] → T (before a h) = false) ∧ Fresh T L.heap y b ∧
    L.wakeList ++ (y :: b).filter T = woken ∧
    a ++ (y :: b).filter (fun x => !T x) = kept ∧ rest = b.length

/-- The result of `DequeueAllWakeable`. -/
structure Woken (H₀ : Heap n) (woken kept : List (Fin n))
    (t : Heap n × Option (Fin n) × List (Fin n)) : Prop where
  queue : Queue True t.1 t.2.1 kept
  key : key t.1 = key H₀
  wakeList : t.2.2 = woken

variable {a b : List (Fin n)}

/-- Removing the waiter `w`. -/
theorem wakeRound_remove {L : WakeLoop n} {w : Fin n} (hhead : L.head = some h) (hw : L.w = some w)
    (hpw : L.pw = before a h) (hq : Queue True L.heap (some h) (a ++ w :: b))
    (hwake : L.heap.wake w = true) (hend : L.heap.skip (before a h) = none) :
    ∃ H', Queue True H' (a ++ b).getLast? (a ++ b) ∧ key H' = key L.heap ∧ H'.wake = L.heap.wake ∧
      (∀ x ∉ a, H'.skip x = L.heap.skip x) ∧
      wakeRound h L = if L.heap.how w = .kExclusive then
          .ok (.done (H', (a ++ b).getLast?, L.wakeList ++ [w]))
        else .ok (WakeLoop.again h { L with
          heap := H', head := (a ++ b).getLast?, wakeList := L.wakeList ++ [w],
          w := H'.next (before a h) }) := by
  obtain ⟨H', hdeq, hq', hbut, hskip⟩ := dequeue_spec hq (hq.skip_ne_of_before hend)
  have hnm := notMem_of_nodup hq.nodup
  have hhow : (H'.setNext w none).how = L.heap.how := by rw [hbut]; rfl
  refine ⟨H'.setNext w none, hq'.setNext_of_notMem (by simp [hnm]), ?_, ?_, hskip, ?_⟩
  · rw [← hbut.key]
    rfl
  · rw [← hbut.wake]
    rfl
  · obtain ⟨heap, head, pw, w', skipped, wakeList⟩ := L
    dsimp only at *
    subst hhead hw hpw
    simp only [wakeRound, hwake, if_true, rawCheck, hend, Option.isNone_none, ok_bind, hdeq, hhow]

/-- A round ends the removal as it should, or leaves less to do. -/
def WakeStep (T : Fin n → Bool) (H₀ : Heap n) (h : Fin n) (woken kept : List (Fin n)) (k : ℕ)
    (L : WakeLoop n) : Prop :=
  (∃ t, wakeRound h L = .ok (.done t) ∧ Woken H₀ woken kept t) ∨
    ∃ L' k', wakeRound h L = .ok (.next L') ∧ WakeInv T H₀ h woken kept k' L' ∧ k' < k

section

variable {woken kept : List (Fin n)} {k : ℕ} {L : WakeLoop n} {y : Fin n}
  (hT : ∀ x y, key H₀ x = key H₀ y → T x = T y) (hL : WakeInv T H₀ h woken kept k L)
  (hw : L.w = some y)
include hT hL hw

/-- A waiter to wake is removed, for the one before it does not skip : else it were like it. -/
theorem wakeRound_woken (hshared : ∀ x, T x = true → H₀.how x = .kShared) (hy : T y = true) :
    WakeStep T H₀ h woken kept k L := by
  obtain ⟨hhead, hkey, a, y', b, hw', hpw, hq, hnil, hpass, hfresh, hwoken, hkept, rfl⟩ := hL
  obtain rfl : y = y' := Option.some.inj (hw.symm.trans hw')
  have hend : L.heap.skip (before a h) = none := by
    rcases a.eq_nil_or_concat with rfl | ⟨a, x, rfl⟩
    · exact hq.skip_last
    rw [concat_eq_append] at *
    rw [before_concat] at *
    by_contra hx
    rw [append_assoc] at hq
    obtain ⟨z, hz, hkz⟩ := hq.key_successor hx
    obtain rfl : y = z := by simpa using hz
    rw [hkey] at hkz
    simp [hT x y hkz, hy] at hpass
  obtain ⟨H', hq', hkey', hwake', hskip', hround⟩ :=
    wakeRound_remove hhead hw hpw hq (hfresh.first.trans hy) hend
  have hhow : L.heap.how y = .kShared := by
    have : key L.heap y = key H₀ y := by rw [hkey]
    rw [← hshared y hy]
    exact congrArg Prod.fst this
  rw [if_neg (by simp [hhow])] at hround
  rw [filter_cons_of_pos hy] at hwoken
  rw [filter_cons_of_neg (by simp [hy])] at hkept
  cases b with
  | nil =>
    refine .inl ⟨(H', a.getLast?, L.wakeList ++ [y]), ?_, ?_, hkey'.trans hkey, hwoken⟩
    · have hyh : h = y := by simpa using hq.last
      have hne : ¬some h = a.getLast? := fun hl => by
        subst hyh
        exact (notMem_of_nodup hq.nodup).1 (mem_of_getLast? hl.symm)
      rw [hround, WakeLoop.again, if_neg (by simpa using fun hl => absurd hl hne)]
      simp
    · rw [← hkept]
      simpa using hq'
  | cons z b =>
    have hlast : (a ++ z :: b).getLast? = some h := by
      rw [hq.last]
      simp
    rw [hlast] at hq'
    refine .inr ⟨{ L with
        heap := H', head := (a ++ z :: b).getLast?, wakeList := L.wakeList ++ [y],
        w := H'.next _ }, b.length, ?_,
      ⟨hlast, hkey'.trans hkey, a, z, b, hq'.next_before, hpw, hq', hnil, hpass, ?_, ?_, hkept,
        rfl⟩, by simp⟩
    · rw [hround, WakeLoop.again, if_pos]
      refine ⟨hlast.symm, ?_⟩
      by_cases ha : a = []
      · exact .inr (hnil ha)
      · refine .inl ?_
        rw [hlast, hpw]
        simpa using before_ne_last hq'.nodup hlast ha
    · refine (hfresh.after (c := []) rfl (.inl hy)).congr (fun _ _ => by rw [hwake'])
        fun x hx hx' => ?_
      rwa [hskip' x fun hxa => ?_] at hx'
      exact (nodup_append.1 hq.nodup).2.2 x hxa x (by simp_all) rfl
    · rw [← hwoken]
      simp

/-- The run of a waiter that stays is passed as a whole. -/
theorem wakeRound_kept (hy : T y = false) : WakeStep T H₀ h woken kept k L := by
  obtain ⟨hhead, hkey, a, y', b, hw', hpw, hq, -, -, hfresh, hwoken, hkept, rfl⟩ := hL
  obtain rfl : y = y' := Option.some.inj (hw.symm.trans hw')
  obtain ⟨H', c, r, d, hskip, hq', hcomp, hrun, -⟩ := skip_spec hq
  have hTrun : ∀ z ∈ c ++ [r], T z = false := fun z hz => by
    rw [← hy]
    apply hT
    rw [← hkey]
    exact hrun.alike y (by simp) z hz
  have hround : wakeRound h L = .ok (WakeLoop.again h
      { L with heap := H', pw := r, skipped := true, w := H'.next r }) := by
    obtain ⟨heap, head, pw, w', skipped, wakeList⟩ := L
    dsimp only at *
    subst hhead hw hpw
    simp only [wakeRound, hfresh.first, hy, Bool.false_eq_true, if_false, hskip, ok_bind]
  have hkey' : key H' = key H₀ := by rw [hcomp.fields.key, hkey]
  have hfilter : (c ++ [r]).filter T = [] := filter_eq_nil_iff.2 fun z hz => by
    simp [hTrun z hz]
  have hfilter' : (c ++ [r]).filter (fun x => !T x) = c ++ [r] :=
    filter_eq_self.2 fun z hz => by simp [hTrun z hz]
  have hsplit : y :: b = (c ++ [r]) ++ d := by simp [hrun.split]
  rw [hsplit, filter_append, hfilter, nil_append] at hwoken
  rw [hsplit, filter_append, hfilter', ← append_assoc] at hkept
  rw [hsplit, ← append_assoc] at hq'
  cases d with
  | nil =>
    obtain rfl : h = r := by simpa using hq'.last
    refine .inl ⟨(H', some h, L.wakeList), ?_, ?_, hkey', by simpa using hwoken⟩
    · rw [hround, WakeLoop.again, if_neg (by simp [hhead]), hhead]
    · rw [← hkept]
      simpa using hq'
  | cons z d =>
    have hrh : r ≠ h := by
      have := before_ne_last hq'.nodup hq'.last.symm (by simp)
      rwa [← append_assoc, before_concat] at this
    have hbefore : before (a ++ (c ++ [r])) h = r := by rw [← append_assoc, before_concat]
    refine .inr ⟨{ L with heap := H', pw := r, skipped := true, w := H'.next r }, d.length, ?_,
      ⟨hhead, hkey', a ++ (c ++ [r]), z, d, ?_, hbefore.symm, hq', by simp, ?_, ?_, hwoken,
        hkept, rfl⟩, ?_⟩
    · rw [hround, WakeLoop.again, if_pos]
      exact ⟨hhead.symm, .inl (by simpa [hhead] using hrh)⟩
    · have := hq'.next_before
      rwa [hbefore] at this
    · intro _
      rw [hbefore]
      exact hTrun r (by simp)
    · refine (hfresh.after hrun.split (.inr hrun.ends)).congr
        (fun _ _ => by rw [hcomp.fields.wake]) fun x _ => (hcomp.none_iff x).1
    · have := congrArg length hsplit
      simp at this
      omega

end

section

variable (hT : ∀ x y, key H₀ x = key H₀ y → T x = T y)
  (hshared : ∀ x, T x = true → H₀.how x = .kShared)
include hT hshared

/-- A round removes a waiter to wake or passes a run of others. -/
theorem wakeRound_spec {woken kept : List (Fin n)} (k : ℕ) (L : WakeLoop n)
    (hL : WakeInv T H₀ h woken kept k L) : WakeStep T H₀ h woken kept k L := by
  obtain ⟨a, y, b, hw, -⟩ := hL.place
  cases hy : T y with
  | true => exact wakeRound_woken hT hL hw hshared hy
  | false => exact wakeRound_kept hT hL hw hy

/-- `DequeueAllWakeable` from the first waiter to wake on, when readers are woken : all
waiters to wake are removed, in their order. -/
theorem dequeueAllWakeable_shared {y : Fin n}
    (hq : Queue True H₀ (some h) (a ++ y :: b)) (hfresh : Fresh T H₀ y b)
    (hpass : a ≠ [] → T (before a h) = false) :
    ∃ H' head, dequeueAllWakeable H₀ h (before a h) = .ok (H', head, (y :: b).filter T) ∧
      Queue True H' head (a ++ (y :: b).filter (fun x => !T x)) ∧ key H' = key H₀ := by
  have hlen : b.length < n + 1 := by
    have := hq.length_le
    simp at this
    omega
  obtain ⟨⟨H', head, wakeList⟩, hloop, hq', hkey, hwl⟩ :=
    runLoop_total MutexError.endlessLoop (wakeRound_spec hT hshared) (n + 1) b.length
      { heap := H₀, head := some h, pw := before a h, w := H₀.next (before a h),
        skipped := false, wakeList := [] }
      ⟨rfl, rfl, a, y, b, hq.next_before, rfl, hq, fun _ => rfl, hpass, hfresh, rfl, rfl, rfl⟩ hlen
  subst hwl
  exact ⟨H', head, hloop, hq', hkey⟩

end

/-- `DequeueAllWakeable` removes a writer alone. -/
theorem dequeueAllWakeable_exclusive {H : Heap n} {w : Fin n}
    (hq : Queue True H (some h) (a ++ w :: b))
    (hwake : H.wake w = true) (hhow : H.how w = .kExclusive) (hend : H.skip (before a h) = none) :
    ∃ H' head, dequeueAllWakeable H h (before a h) = .ok (H', head, [w]) ∧
      Queue True H' head (a ++ b) ∧ key H' = key H := by
  obtain ⟨H', hq', hkey, -, -, hround⟩ := wakeRound_remove
    (L := { heap := H, head := some h, pw := before a h, w := H.next (before a h),
            skipped := false, wakeList := [] }) rfl hq.next_before rfl hq hwake hend
  rw [if_pos hhow] at hround
  exact ⟨H', _, runLoop_done hround, hq', hkey⟩

end Removal

end Abseil.Mutex
