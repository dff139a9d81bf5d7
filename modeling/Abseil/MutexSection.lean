import Abseil.MutexUnlock

/-!
# A section of an unlock under the spinlock

With the spinlock `UnlockSlow` restores the terminator of its last walk and then removes
the waiters to wake, ends without waking anyone, or starts the next walk. A section that
ends the pass has removed `toWake` of the queue it found (`unlockSection_spec`), whatever
came to the queue while the pass walked it.
-/

open BoundedLoop LinkedRing

namespace Abseil.Mutex

open List

variable {n : ℕ}

/-! ## Ending a pass -/

/-- `q'` is `q`, with the unlocker put in if it has to wait. -/
def Joined (waitp : Option (Fin n × WaitParams)) (q q' : List (Fin n)) : Prop :=
  match waitp with
  | none => q' = q
  | some (s, _) => ∃ a b, q = a ++ b ∧ q' = a ++ s :: b

variable {q : List (Fin n)}

theorem Joined.mem_iff {waitp : Option (Fin n × WaitParams)} {q' : List (Fin n)}
    (h : Joined waitp q q') (x : Fin n) : x ∈ q' ↔ x ∈ q ∨ x ∈ waitp.toList.map Prod.fst := by
  cases waitp with
  | none =>
    obtain rfl : q' = q := h
    simp
  | some t =>
    obtain ⟨a, b, rfl, rfl⟩ := h
    simp
    tauto

variable {H : Heap n}

/-- The unlocker joins the queue if it waits. -/
theorem enqueueSelf_spec {head : Option (Fin n)} {waitp : Option (Fin n × WaitParams)}
    (hq : Queue True H head q) (hself : ∀ t ∈ waitp, t.1 ∉ q) :
    ∃ H' head' q', enqueueSelf H head waitp = .ok (H', head') ∧ Queue True H' head' q' ∧
      Joined waitp q q' ∧ ∀ x ∈ q, key H' x = key H x := by
  cases waitp with
  | none => exact ⟨H, head, q, rfl, hq, rfl, fun _ _ => rfl⟩
  | some t =>
    obtain ⟨s, w⟩ := t
    obtain ⟨H', h', q', henq, hent, -⟩ := enqueue_spec w hq (hself (s, w) rfl)
    exact ⟨H', some h', q', by simp [enqueueSelf, henq], hent.queue, hent.place, hent.key⟩

theorem Queue.of_wakeup {head : Option (Fin n)} :
    ∀ {woken : List (Fin n)} {H : Heap n}, Queue True H head q → (∀ x ∈ woken, x ∉ q) →
      Queue True (wakeup H woken) head q
  | [], _, hq, _ => hq
  | w :: woken, H, hq, hw => by
    have hq' := hq.setNext_of_notMem (y := none) (hw w (by simp))
    have hq'' : Queue True ((H.setNext w none).setQueued w false) head q :=
      { hq' with }
    change Queue True (wakeup ((H.setNext w none).setQueued w false) woken) head q
    exact Queue.of_wakeup hq'' fun x hx => hw x (by simp [hx])

theorem key_wakeup : ∀ {woken : List (Fin n)} {H : Heap n}, key (wakeup H woken) = key H
  | [], _ => rfl
  | w :: woken, H =>
    (key_wakeup : key (wakeup ((H.setNext w none).setQueued w false) woken) = _)

/-- The outcome of a section that ends the pass : the waiters `woken` are gone from `q`,
and the unlocker is in it if it has to wait. -/
def Finished (p : Pass n) (H : Heap n) (q woken : List (Fin n))
    (r : Except MutexError (Section n)) : Prop :=
  ∃ H' head' q', r = .ok (.finished H' head' woken) ∧ Queue True H' head' q' ∧
    Joined p.waitp (q.filter (· ∉ woken)) q' ∧
    ∀ x ∈ q.filter (· ∉ woken), key H' x = key H x

/-- The waiters in both lists are in the same order. -/
def SameOrder (q q' : List (Fin n)) : Prop := q.filter (· ∈ q') = q'.filter (· ∈ q)

variable {p : Pass n} {H1 : Heap n} {h w : Fin n}

/-- The waiters to wake are taken out, and the pass ends. -/
theorem removeAndFinish_spec {pw : Fin n} {head1 : Option (Fin n)} {kept woken : List (Fin n)}
    (hnext : H.next pw = some w) (hdeq : dequeueAllWakeable H h pw = .ok (H1, head1, woken))
    (hq : Queue True H1 head1 kept) (hkey : key H1 = key H) (hw : w ∈ woken)
    (hkept : kept = q.filter (· ∉ woken))
    (hsub : ∀ x ∈ woken, x ∈ q) (hself : ∀ t ∈ p.waitp, t.1 ∉ q) :
    Finished p H q woken (removeAndFinish p H h pw w) := by
  subst hkept
  obtain ⟨H2, head2, q', henq, hq2, hjoin, hkey2⟩ := enqueueSelf_spec hq
    fun t ht hm => hself t ht (mem_of_mem_filter hm)
  have hne := ne_nil_of_mem hw
  refine ⟨wakeup (finishUnlocking H2 head2) woken, head2, q', ?_, ?_, hjoin, fun x hx => ?_⟩
  · simp [removeAndFinish, rawCheck, hnext, hdeq, henq, hne]
  · refine hq2.finishUnlocking.of_wakeup fun x hx hm => ?_
    rcases (hjoin.mem_iff x).1 hm with hm | hm
    · simp [hx] at hm
    · obtain ⟨t, ht, rfl⟩ := mem_map.1 hm
      exact hself t (by simpa using ht) (hsub _ hx)
  · rw [key_wakeup, key_finishUnlocking, hkey2 x hx, hkey]

/-! ## The terminator -/

/-- What restoring the terminator leaves alone. -/
structure Restored (o : Fin n) (H H' : Heap n) : Prop where
  key : key H' = key H
  wake : H'.wake = H.wake
  maybeUnlocking : H'.maybeUnlocking = H.maybeUnlocking
  others : ∀ x, x ≠ o → H'.skip x = H.skip x
  ends : H.skip o = none

variable {o : Fin n} {a b c : List (Fin n)}

/-- The end of the last search is restored. -/
theorem restoreTerminator_spec {f : List (Fin n)} (hq : Queue True H (some h) q)
    (hs : Search H q o f a b c) :
    ∃ H', restoreTerminator H h (some o) = .ok H' ∧ Queue True H' (some h) q ∧ Restored o H H' := by
  have hq1 : Queue True (H.setMaySkip o true) (some h) q := { hq with }
  have hcheck : ((H.setMaySkip o true).skip o).isNone = true := by
    simp [Heap.setMaySkip, hs.ends]
  by_cases hho : h = o
  · refine ⟨_, ?_, hq1, rfl, rfl, rfl, fun _ _ => rfl, hs.ends⟩
    simp [restoreTerminator, hs.maySkip, rawCheck, hcheck, hho]
  -- There are new waiters behind the terminator.
  obtain ⟨g, hg⟩ := getLast?_eq_some_iff.1 hs.last
  rcases c with _ | ⟨z, c⟩
  · have := hq.last
    rw [hs.split, append_nil, getLast?_append, hs.last] at this
    exact absurd (by simpa using this) hho
  have hsplit : q = (f ++ g) ++ o :: z :: c := by
    rw [hs.split, hg]
    simp
  rw [hsplit] at hq1 ⊢
  obtain ⟨H', hsucc, hq', hso⟩ := skipToSuccessor_spec hq1
  refine ⟨H', ?_, hq', ?_, ?_, ?_, hso.others, hs.ends⟩
  · simp [restoreTerminator, hs.maySkip, rawCheck, hcheck, hho, hsucc]
  · rw [hso.fields.key]
    rfl
  · rw [hso.fields.wake]
    rfl
  · rw [hso.fields.maybeUnlocking]
    rfl

/-- What the walk had found is not touched by restoring its terminator. -/
theorem Restored.found {H' : Heap n} (hr : Restored o H H') (hf : Found p H a) (hnd : a.Nodup)
    (ho : a.getLast? = some o) : Found p H' a := by
  refine hf.congr (fun x _ => by rw [hr.key]) (fun x _ => by rw [hr.wake]) (fun x _ hx => ?_)
    fun x hx hn => ?_
  · rcases eq_or_ne x o with rfl | hxo
    · exact hr.ends
    · rwa [hr.others x hxo] at hx
  · obtain ⟨g, rfl⟩ := getLast?_eq_some_iff.1 ho
    rw [dropLast_concat] at hx
    rw [hr.others x (ne_of_mem_of_not_mem hx (notMem_of_nodup hnd).1), hn]

/-! ## The section -/

/-- The outcome of a section that starts to walk the rest of the queue `q`. -/
def Searching (p : Pass n) (H : Heap n) (h : Fin n) (q : List (Fin n))
    (r : Except MutexError (Section n)) : Prop :=
  ∃ H' ph k, r = .ok (.search H' { p with oldH := some h } ph) ∧ Queue True H' (some h) q ∧
    key H' = key H ∧ Walk H' q { p with oldH := some h } h [] [] k ph ∧ k ≤ q.length

/-- Starting to walk the part `z :: c` of the queue that has not been walked. -/
theorem searchOrFinish_search {z : Fin n} (hq : Queue True H (some h) (a ++ z :: c))
    (ha : a.getLast? = p.oldH) (hf : Found p H a) :
    Searching p H h (a ++ z :: c) (searchOrFinish p H h) := by
  have hpw : p.oldH.getD h = before a h := by rw [before, ha]
  have hold : p.oldH ≠ some h := by
    rw [← ha]
    intro hl
    exact (nodup_append.1 hq.nodup).2.2 h (mem_of_getLast? hl) h
      (LinkedRing.last_mem hq.last.symm) rfl
  set H' := (H.setMaySkip h false).setMaybeUnlocking h true
  refine ⟨H', .scan a.getLast? z, c.length + 1, ?_, { hq with }, rfl,
    .walking ⟨by simp, hq.last.symm, by simp, ?_, hq.skip_last, ?_⟩ ?_, ?_⟩
  · have hcheck : ((H.setMaySkip h false).skip h).isNone = true := by
      simp [Heap.setMaySkip, hq.skip_last]
    simp [searchOrFinish, hold, hpw, hq.nextOf_before, rawCheck, hcheck, ha, H']
  · exact Function.update_self _ _ _
  · intro x hx
    obtain rfl : h = x := by
      rw [← hq.last] at hx
      simpa using hx
    exact Function.update_self _ _ _
  · cases hf with
    | nothing hw hpw ha => exact .nothing hw hpw ha
    | reader hat hhow hfresh =>
      exact .reader { hat with } hhow
        ⟨hfresh.first, hfresh.chain⟩
  · simp

variable {y : Fin n}

/-- The easy case : the first waiter is a writer without condition. -/
theorem removeAndFinish_first (hq : Queue True H (some h) (y :: b)) (hhow : H.how y = .kExclusive)
    (hself : ∀ t ∈ p.waitp, t.1 ∉ y :: b) :
    Finished p H (y :: b) [y] (removeAndFinish p (H.setWake y true) h h y) := by
  have hq' := hq.setWake y true
  obtain ⟨H1, head1, hdeq, hq1, hkey⟩ := dequeueAllWakeable_exclusive (a := []) hq'
    (Function.update_self _ _ _) hhow hq'.skip_last
  refine removeAndFinish_spec (hq'.next_before (a := [])) hdeq hq1 hkey (by simp) ?_ (by simp) hself
  have hy := (nodup_cons.1 hq.nodup).1
  rw [filter_cons_of_neg (by simp)]
  exact (filter_eq_self.2 fun x hx => by simpa using ne_of_mem_of_not_mem hx hy).symm

theorem unlockSection_eq {first : Fin n} (hcheck : p.oldH = none ∨ H.maybeUnlocking h = true)
    (hrestore : restoreTerminator H h p.oldH = .ok H1) (hfirst : nextOf H1 h = .ok first) :
    unlockSection p H h = wakeOrSearch p H1 h first := by
  have hb : (p.oldH.isNone || H.maybeUnlocking h) = true := by simpa using hcheck
  simp only [unlockSection, rawCheck, hb, if_true, ok_bind, hrestore, hfirst]

/-- Removing the readers to wake, from the first one on. -/
theorem removeAndFinish_readers (hq : Queue True H (some h) (a ++ w :: b)) (hat : FoundAt p H a w)
    (hhow : H.how w = .kShared) (hfresh : Fresh (wakes p.truth H) H w b)
    (hself : ∀ t ∈ p.waitp, t.1 ∉ a ++ w :: b) :
    Finished p H (a ++ w :: b) (toWake p.truth H (a ++ w :: b))
      (removeAndFinish p H h (p.pw.getD h) w) := by
  have hpw : p.pw.getD h = before a h := by rw [before, hat.pw]
  have hw : wakes p.truth H w = true := by
    rw [wakes, hat.runs, hhow]
    rfl
  obtain ⟨H1, head1, hdeq, hq1, hkey⟩ := dequeueAllWakeable_shared
    (fun x y hxy => wakes_congr hxy) (fun x hx => by simpa using (Bool.and_eq_true_iff.1 hx).2)
    hq hfresh fun ha => by
      rcases a.eq_nil_or_concat with rfl | ⟨a, x, rfl⟩
      · exact absurd rfl ha
      · rw [concat_eq_append] at *
        rw [before_concat, wakes, hat.none_before x (by simp)]
        rfl
  rw [toWake_reader hat.none_before hat.runs hhow, hpw]
  refine removeAndFinish_spec hq.next_before hdeq hq1 hkey (by simp [hw]) ?_ (fun x hx => ?_) hself
  · rw [filter_append]
    congr 1
    · refine (filter_eq_self.2 fun x hx => ?_).symm
      have : x ∉ w :: b := fun hxb => (nodup_append.1 hq.nodup).2.2 x hx x hxb rfl
      simp only [decide_eq_true_eq, mem_filter, not_and]
      exact fun h => absurd h this
    · refine filter_congr fun x hx => ?_
      cases hT : wakes p.truth H x <;> simp [hT, mem_cons.1 hx]
  · exact mem_append_right _ (mem_of_mem_filter hx)

/-- Removing the writer found. -/
theorem removeAndFinish_writer (hq : Queue True H (some h) (a ++ w :: b)) (hat : FoundAt p H a w)
    (hhow : H.how w = .kExclusive) (hself : ∀ t ∈ p.waitp, t.1 ∉ a ++ w :: b) :
    Finished p H (a ++ w :: b) (toWake p.truth H (a ++ w :: b))
      (removeAndFinish p H h (p.pw.getD h) w) := by
  have hpw : p.pw.getD h = before a h := by rw [before, hat.pw]
  have hend : H.skip (before a h) = none := by
    rcases a.eq_nil_or_concat with rfl | ⟨a, x, rfl⟩
    · exact hq.skip_last
    · rw [concat_eq_append] at *
      rw [before_concat]
      exact hat.ends x (by simp)
  obtain ⟨H1, head1, hdeq, hq1, hkey⟩ := dequeueAllWakeable_exclusive hq hat.wake hhow hend
  have hw := notMem_of_nodup hq.nodup
  rw [toWake_writer hat.none_before hat.runs hhow, hpw]
  refine removeAndFinish_spec hq.next_before hdeq hq1 hkey (by simp) ?_ (by simp) hself
  rw [filter_append, filter_cons_of_neg (by simp)]
  congr 1
  · exact (filter_eq_self.2 fun x hx => by
      simpa using ne_of_mem_of_not_mem hx hw.1).symm
  · exact (filter_eq_self.2 fun x hx => by
      simpa using ne_of_mem_of_not_mem hx hw.2).symm

/-- Nothing can be woken. -/
theorem searchOrFinish_finish (hq : Queue True H (some h) q) (hold : p.oldH = some h)
    (hnone : ∀ x ∈ q, runnable p.truth H x = false) (hself : ∀ t ∈ p.waitp, t.1 ∉ q) :
    Finished p H q (toWake p.truth H q) (searchOrFinish p H h) := by
  have hq' : Queue True (H.setMaybeUnlocking h false) (some h) q := { hq with }
  obtain ⟨H', head', q', henq, hq'', hjoin, hkey⟩ := enqueueSelf_spec hq' hself
  rw [toWake_eq_nil hnone]
  exact ⟨H', head', q', by simp [searchOrFinish, hold, henq], hq'', by simpa using hjoin,
    fun x hx => hkey x (mem_of_mem_filter hx)⟩

/-- A first waiter that is a writer without a condition is woken. -/
theorem wakeOrSearch_easy (hq : Queue True H (some h) (y :: b))
    (hy : H.how y = .kExclusive ∧ H.cond y = none) (hself : ∀ t ∈ p.waitp, t.1 ∉ y :: b) :
    Finished p H (y :: b) (toWake p.truth H (y :: b)) (wakeOrSearch p H h y) := by
  have hrun : runnable p.truth H y = true := by simp [runnable, hy.2]
  have hwake : toWake p.truth H (y :: b) = [y] := toWake_writer (a := []) (by simp) hrun hy.1
  rw [wakeOrSearch, if_pos hy, hwake]
  exact removeAndFinish_first hq hy.1 hself

/-- The rest of a section after a walk with the terminator `o`. -/
theorem wakeOrSearch_walk {f : List (Fin n)} {k : ℕ} (hq : Queue True H1 (some h) q)
    (hqy : q = y :: b)
    (hold : p.oldH = some o) (hr : Restored o H H1) (hwalk : Walk H q p o f c k .spin)
    (hy : ¬(H1.how y = .kExclusive ∧ H1.cond y = none)) (hself : ∀ t ∈ p.waitp, t.1 ∉ q) :
    Finished p H1 q (toWake p.truth H1 q) (wakeOrSearch p H1 h y) ∨
      p.oldH ≠ some h ∧ Searching p H1 h q (wakeOrSearch p H1 h y) := by
  -- A writer without condition at the front would have been the easy case.
  have hfront : ∀ {a b' : List (Fin n)}, Search H q o f a b' c → f = [] := by
    intro a b' hs
    cases f with
    | nil => rfl
    | cons u f =>
      obtain ⟨rfl, -⟩ : u = y ∧ _ := by simpa using hs.split.symm.trans hqy
      have hk := congrFun hr.key u
      simp only [Mutex.key, Prod.mk.injEq] at hk
      rw [hk.1, hk.2.2] at hy
      exact absurd (hs.front u (by simp)) hy
  rw [wakeOrSearch, if_neg hy]
  cases hwalk with
  | @walked a hs hf =>
    obtain rfl := hfront hs
    have hsplit : q = a ++ c := by simpa using hs.split
    have hlast : a.getLast? = some o := by simpa using hs.last
    subst hsplit
    have hf1 := hr.found hf (nodup_append.1 hq.nodup).1 hlast
    by_cases hoh : o = h
    · -- The walk has come to the end of the queue.
      subst hoh
      rcases c with _ | ⟨z, c⟩
      swap
      · exact absurd rfl ((nodup_append.1 hq.nodup).2.2 o (mem_of_getLast? hlast) o
          (LinkedRing.last_mem hq.last.symm))
      rw [append_nil] at *
      left
      cases hf1 with
      | nothing hw _ ha =>
        rw [hw]
        exact searchOrFinish_finish hq hold ha hself
      | reader hat hhow hfresh =>
        rw [hat.found]
        dsimp only
        rw [if_pos (.inr hold)]
        exact removeAndFinish_readers hq hat hhow hfresh hself
    · right
      have hold' : p.oldH ≠ some h := by simpa [hold] using hoh
      refine ⟨hold', ?_⟩
      rcases c with _ | ⟨z, c⟩
      · have := hq.last
        rw [append_nil, hlast] at this
        exact absurd (by simpa using this.symm) hoh
      have hsearch := searchOrFinish_search hq (hlast.trans hold.symm) hf1
      cases hw : p.w with
      | none => exact hsearch
      | some w =>
        dsimp only
        rw [if_neg]
        · exact hsearch
        rintro (hhow | h')
        · cases hf1 with
          | nothing hw' => simp [hw] at hw'
          | reader hat hshared =>
            rw [hat.found] at hw
            obtain rfl := Option.some.inj hw
            simp [hshared] at hhow
        · exact hold' h'
  | @writer w a b' hs hat hhow =>
    obtain rfl := hfront hs
    have hsplit : q = a ++ w :: (b' ++ c) := by simpa using hs.split
    have hnd := hq.nodup
    have howner := LinkedRing.last_mem (a := a) (by simpa using hs.last)
    have hat1 : FoundAt p H1 a w := by
      refine hat.congr (fun x _ => by rw [hr.key]) (fun x _ => by rw [hr.wake]) fun x hx hn => ?_
      rw [hr.others x, hn]
      rintro rfl
      rw [hsplit] at hnd
      refine (nodup_append.1 hnd).2.2 x hx x ?_ rfl
      exact mem_append_left _ howner
    have hhow1 : H1.how w = .kExclusive := by
      rw [how_of_key (congrFun hr.key w), hhow]
    left
    rw [hat1.found]
    dsimp only
    rw [if_pos (.inl hhow1), hsplit]
    rw [hsplit] at hq hself
    exact removeAndFinish_writer hq hat1 hhow1 hself

/-- A section of `UnlockSlow` under the spinlock removes the waiters to wake of the queue
it finds, or goes on to search what has come to it. -/
theorem unlockSection_spec (hq : Queue True H (some h) q) (hp : PassInv H q p .spin)
    (hself : ∀ t ∈ p.waitp, t.1 ∉ q) : Finished p H q (toWake p.truth H q) (unlockSection p H h) ∨
      p.oldH ≠ some h ∧ Searching p H h q (unlockSection p H h) := by
  obtain ⟨y, b, hqy⟩ := hq.eq_cons
  have hfirst : ∀ H1, Queue True H1 (some h) q → nextOf H1 h = .ok y := fun H1 hq1 => by
    rw [hqy] at hq1
    exact hq1.nextOf_before (a := [])
  cases hp with
  | start hold hw hpw =>
    have heq := unlockSection_eq (.inl hold) (by rw [hold]; rfl) (hfirst H hq)
    rw [heq, hqy]
    rw [hqy] at hq hself
    by_cases hy : H.how y = .kExclusive ∧ H.cond y = none
    · exact .inl (wakeOrSearch_easy hq hy hself)
    · rw [wakeOrSearch, if_neg hy, hw]
      exact .inr ⟨by simp [hold],
        searchOrFinish_search (a := []) hq hold.symm (.nothing hw hpw (by simp))⟩
  | @search _ o f c k hold hwalk =>
    obtain ⟨a, b', hs⟩ : ∃ a b', Search H q o f a b' c := by
      cases hwalk with
      | walked hs _ => exact ⟨_, _, hs⟩
      | writer hs _ _ => exact ⟨_, _, hs⟩
    obtain ⟨H1, hrestore, hq1, hr⟩ := restoreTerminator_spec hq hs
    have heq := unlockSection_eq (.inr (hs.unlocking h hq.last.symm)) (hold ▸ hrestore)
      (hfirst H1 hq1)
    rw [heq, ← toWake_congr hr.key, Finished, Searching, ← hr.key]
    by_cases hy : H1.how y = .kExclusive ∧ H1.cond y = none
    · rw [hqy] at hq1 hself ⊢
      exact .inl (wakeOrSearch_easy hq1 hy hself)
    · exact wakeOrSearch_walk hq1 hqy hold hr hwalk hy hself

end Abseil.Mutex
