import Abseil.SimulatedClockRun

/-!
# What the clock reports

What `SetTime`, `AdvanceTime` and `GetEarliestWakeupTime` report is read off `waiters_`. It still
has the calls that found their condition true, and it has lost those whose `WakeUp` is under way.
The reports are right where there are none of either (`reports_waiting`), as a call that waits is in
`waiters_` or in the `wakeup_calls` of a call of `UpdateTime` (`Run.listed`).
-/

set_option linter.unusedSectionVars false

namespace Abseil.SimulatedClock

open List

variable {τ δ : Type*} [LinearOrder τ] [VAdd δ τ] {C : Calls τ} {s s' : State τ} {w : ℕ}
  {a : Action τ δ} {h : History τ δ} {t : τ}

/-- The call has entered, is not ready and not cancelled. -/
def Waiting (s : State τ) (w : ℕ) : Prop :=
  (s.phase w).waits = true ∧ s.ready w = false ∧ (s.info w).cancelled = false

/-- The least deadline of the calls, if there is one. -/
def IsEarliest (C : Calls τ) (S : Set ℕ) : Option τ → Prop
  | none => S = ∅
  | some t => (∃ w ∈ S, C.deadline w = t) ∧ ∀ w ∈ S, t ≤ C.deadline w

/-- As far as deadlines up to `t` go, no call in `waiters_` is cancelled or has found its condition
true, and no `WakeUp` of another call is under way. -/
structure Quiet (C : Calls τ) (s : State τ) (t : τ) : Prop where
  waiters : ∀ w ∈ s.waiters, C.deadline w ≤ t → (s.info w).cancelled = false ∧ s.cond w = false
  calls : ∀ k, ∀ w ∈ (s.update k).calls, C.deadline w ≤ t →
    (s.info w).cancelled = true ∨ s.cond w = true

/-! ## Who waits is listed -/

theorem Step.waits (hs : Step C s a s') (hreg : a ≠ .register w) (hp : (s'.phase w).waits = true) :
    (s.phase w).waits = true := by
  have hset : ∀ (t : State τ) v q, t.phase = s.phase → (w = v → q.waits = true →
      (s.phase w).waits = true) → ((t.setPhase v q).phase w).waits = true →
      (s.phase w).waits = true := by
    intro t v q ht hq hw
    rcases eq_or_ne w v with rfl | hne
    · rw [t.setPhase_self] at hw
      exact hq rfl hw
    · rwa [t.setPhase_ne hne, ht] at hw
  cases hs with
  | register hq _ =>
    refine hset _ _ _ rfl ?_ hp
    rintro rfl
    exact absurd rfl hreg
  | await hq | resume hq _ _ =>
    refine hset s _ _ rfl ?_ hp
    rintro rfl -
    rw [hq]
    rfl
  | awaitWakeUp hq =>
    refine hset s _ _ rfl (fun _ hw => ?_) hp
    split_ifs at hw <;> cases hw
  | checkCancelled hk =>
    split_ifs at hp <;> exact hp
  | enter | eval | returnEarly | cancel | resumeWakeUp | finish | unlock =>
    refine hset _ _ _ rfl (fun _ hw => ?_) hp
    cases hw
  | _ => exact hp

/-- A call that waits and is not woken up is in one of the lists. -/
theorem Run.listed (hr : Run C h s) (hp : (s.phase w).waits = true)
    (hpassed : (s.info w).wakeupTimePassed = false) : s.Listed w := by
  induction hr with
  | initial now cond => cases hp
  | @step h s a s' hr hs ih =>
    by_cases hreg : a = .register w
    · subst hreg
      cases hs with
      | register _ _ =>
        exact .inl ((insertWaiter_perm C w s.waiters).mem_iff.2 mem_cons_self)
    have hbefore : (s.info w).wakeupTimePassed = false := by
      cases ha : a.wakes w with
      | false => rwa [← hs.passed_eq hr.inv ha]
      | true => exact (hs.passed_of_wakes hr.inv ha).2.1
    have hcancelled := (CallOk.iff_of_waits hp).1 ((hr.step hs).inv.call w)
    rcases ih (hs.waits hreg hp) hbefore with hin | ⟨k, hk⟩
    · cases hs with
      | register =>
        exact .inl ((insertWaiter_perm C _ s.waiters).mem_iff.2 (mem_cons_of_mem _ hin))
      | @update k u _ =>
        by_cases hdue : C.deadline w ≤ u.apply s.now
        · exact .inr ⟨k, (mem_updateTime_calls hr.inv.lists u).2 ⟨hin, hdue⟩⟩
        · exact .inl ((mem_updateTime_waiters hr.inv.lists u).2 ⟨hin, hdue⟩)
      | checkCancelled => exact .inl (by split_ifs <;> exact hin)
      | _ => exact .inl hin
    · rcases hs.calls_cases hr.inv hk with hk | hp' | ⟨hc, -⟩
      · exact .inr ⟨k, hk⟩
      · exact absurd (hpassed.symm.trans hp') Bool.false_ne_true
      · exact absurd (hcancelled.symm.trans hc) Bool.false_ne_true

/-- Where it is quiet, the calls in `waiters_` are those that wait. -/
theorem Quiet.mem_waiters_iff (hq : Quiet C s t) (hr : Run C h s) (hw : C.deadline w ≤ t) :
    w ∈ s.waiters ↔ Waiting s w := by
  constructor
  · intro hin
    obtain ⟨hc, hcond⟩ := hq.waiters w hin hw
    refine ⟨hr.inv.waits_of_listed (.inl hin) hc, ?_, hc⟩
    rw [State.ready, hr.inv.lists.unpassed w (.inl hin), hcond]
    rfl
  · rintro ⟨hp, hready, hc⟩
    obtain ⟨hpassed, hcond⟩ := Bool.or_eq_false_iff.1 hready
    refine (hr.listed hp hpassed).resolve_right ?_
    rintro ⟨k, hk⟩
    rcases hq.calls k w hk hw with hc' | hcond'
    · exact absurd (hc.symm.trans hc') Bool.false_ne_true
    · exact absurd (hcond.symm.trans hcond') Bool.false_ne_true

/-! ## The reports -/

/-- What a call of `UpdateTime` returns is fixed when it changes the time. -/
theorem Step.size {k n : ℕ} (hs : Step C s a s')
    (hk : (∃ calls b, s.update k = .waking calls b n) ∨ s.update k = .returned n) :
    (∃ calls b, s'.update k = .waking calls b n) ∨ s'.update k = .returned n := by
  -- another call is not touched, this one goes through its loop
  have hother : ∀ (t : State τ) j u, t.update = s.update →
      (j = k → (∃ calls b, u = .waking calls b n) ∨ u = .returned n) →
      (∃ calls b, (t.setUpdate j u).update k = .waking calls b n) ∨
        (t.setUpdate j u).update k = .returned n := by
    intro t j u ht hu
    rcases eq_or_ne k j with rfl | hne
    · rw [t.setUpdate_self]
      exact hu rfl
    · rwa [t.setUpdate_ne hne, ht]
  cases hs with
  | @update j u hj =>
    refine hother { s with now := _, waiters := _ } j _ rfl fun heq => ?_
    rw [← heq, hj] at hk
    simp at hk
  | @checkCancelled j v rest n' hj =>
    have hn : j = k → n' = n := by
      rintro rfl
      rw [hj] at hk
      simpa using hk
    split_ifs with hc
    · exact hother s j _ rfl fun heq => .inl ⟨_, _, by rw [hn heq]⟩
    · exact hother (s.setInfo v _) j _ rfl fun heq => .inl ⟨_, _, by rw [hn heq]⟩
  | @wakeUp j v rest n' hj _ =>
    have hn : j = k → n' = n := by
      rintro rfl
      rw [hj] at hk
      simpa using hk
    exact hother (s.setInfo v _) j _ rfl fun heq => .inl ⟨_, _, by rw [hn heq]⟩
  | @returnUpdate j b n' hj =>
    have hn : j = k → n' = n := by
      rintro rfl
      rw [hj] at hk
      simpa using hk
    exact hother s j _ rfl fun heq => .inr (by rw [hn heq])
  | _ => exact hk

/-- `UpdateTime` returns the number of calls it took off `waiters_`. -/
theorem Run.size {k : ℕ} {u : Updater τ δ} {m : State τ} {h1 : History τ δ} :
    ∀ {h2 : History τ δ} {s : State τ}, Run C (h2 ++ (m, .update k u) :: h1) s → Run C h1 m ∧
      ((∃ calls b, s.update k =
          .waking calls b {w | Pending C h1 w ∧ C.deadline w ≤ u.apply m.now}.ncard) ∨
        s.update k = .returned {w | Pending C h1 w ∧ C.deadline w ≤ u.apply m.now}.ncard)
  | [], s, hr => by
    cases hr with
    | step hr hs =>
      cases hs with
      | update hk =>
        have hset : {w | Pending C h1 w ∧ C.deadline w ≤ u.apply m.now} =
            ((m.waiters.takeWhile (C.deadline · ≤ u.apply m.now)).toFinset : Set ℕ) := by
          ext w
          rw [coe_toFinset, Set.mem_ofPred_eq, Set.mem_ofPred_eq,
            mem_takeWhile_key hr.inv.lists.sorted, mem_waiters_iff hr]
        have hnd := hr.inv.lists.nodup.sublist
          (takeWhile_sublist fun w => decide (C.deadline w ≤ u.apply m.now))
        refine ⟨hr, .inl ⟨m.waiters.takeWhile (C.deadline · ≤ u.apply m.now), false, ?_⟩⟩
        rw [updateTime, State.setUpdate_self, hset, Set.ncard_coe_finset,
          toFinset_card_of_nodup hnd]
  | e :: h2, s, hr => by
    cases hr with
    | step hr hs => exact (Run.size hr).imp_right hs.size

/-- **What is reported is waiting.** In every run, a call of `SetTime` or `AdvanceTime` that changed
the time when it was quiet up to the new time returns the number of calls that were waiting and
whose deadline is reached, and `GetEarliestWakeupTime` is the least deadline of the waiting calls if
it is quiet up to the first deadline in `waiters_`, or up to any time if there is none. -/
theorem reports_waiting (hr : Run C h s) :
    (∀ (k n : ℕ) (u : Updater τ δ) (m : State τ) (h₁ h₂ : History τ δ),
      h = h₂ ++ (m, .update k u) :: h₁ → s.update k = .returned n → Quiet C m (u.apply m.now) →
      n = {w | Waiting m w ∧ C.deadline w ≤ u.apply m.now}.ncard) ∧
    ((∀ t, (∀ w ∈ s.waiters, t ≤ C.deadline w) → Quiet C s t) →
      IsEarliest C {w | Waiting s w} (getEarliestWakeupTime C s)) := by
  constructor
  · rintro k n u m h₁ h₂ rfl hk hq
    obtain ⟨hm, ⟨calls, b, hk'⟩ | hk'⟩ := hr.size
    · rw [hk] at hk'
      cases hk'
    · rw [Stage.returned.inj (hk.symm.trans hk')]
      refine congrArg Set.ncard (Set.ext fun w => and_congr_left fun hw => ?_)
      rw [← SimulatedClock.mem_waiters_iff hm, hq.mem_waiters_iff hm hw]
  · intro hq
    unfold getEarliestWakeupTime
    have hsorted := hr.inv.lists.sorted
    cases hl : s.waiters with
    | nil =>
      refine Set.eq_empty_of_forall_notMem fun w hw => ?_
      have hin := ((hq (C.deadline w) (by simp [hl])).mem_waiters_iff hr le_rfl).2 hw
      simp [hl] at hin
    | cons v l =>
      rw [hl, pairwise_cons] at hsorted
      have hquiet := hq (C.deadline v) (hl ▸ forall_mem_cons.2 ⟨le_rfl, hsorted.1⟩)
      refine ⟨⟨v, (hquiet.mem_waiters_iff hr le_rfl).1 (hl ▸ mem_cons_self), rfl⟩, fun w hw => ?_⟩
      -- an earlier one that waits would be in front
      by_contra hlt
      have hin := (hquiet.mem_waiters_iff hr (not_le.1 hlt).le).2 hw
      rcases mem_cons.1 (hl ▸ hin) with rfl | hin
      · exact hlt le_rfl
      · exact hlt (hsorted.1 w hin)

/-- One call waits when the time is set, and one call is reported. -/
theorem reports_waiting_woken : Waiting awaiting 0 ∧
    1 = {w | Waiting awaiting w ∧ oneCall.deadline w ≤ 10}.ncard := by
  obtain ⟨h₁, h₂, s, -, hs, -, hk⟩ := run_woken
  refine ⟨⟨rfl, rfl, rfl⟩, (reports_waiting hs).1 0 1 _ _ _ _ rfl hk ⟨?_, ?_⟩⟩
  · exact fun w _ _ => ⟨rfl, rfl⟩
  · exact fun k w hw _ => absurd hw not_mem_nil

/-- A call that found its condition true and returned at time `0` is reported as the earliest
wake-up, and counted as woken up when the time is set to `10`. -/
theorem reports_cancelled : ∃ (h₁ h₂ : History ℤ ℤ) (m s : State ℤ),
    Run oneCall h₁ m ∧ Run oneCall (h₂ ++ (m, .update 0 (.setTime 10)) :: h₁) s ∧
      {w | Waiting m w} = ∅ ∧ getEarliestWakeupTime oneCall m = some 5 ∧
      s.update 0 = .returned 1 := by
  obtain ⟨h, s, hr, hp, hidle, hw, hu, hi⟩ := run_returned
  have r₁ := hr.step (.unlock hp)
  set m := s.setPhase 0 .left
  have hmw : m.waiters = [0] := hw
  have r₂ := r₁.step (.update (u := .setTime 10) (congrFun hu 0))
  have hk : (updateTime oneCall m 0 (.setTime 10 : Updater ℤ ℤ)).update 0 =
      .waking [0] false 1 := by
    rw [updateTime, State.setUpdate_self, hmw]
    rfl
  have r₃ := r₂.step (.checkCancelled hk)
  have hc : ((updateTime oneCall m 0 (.setTime 10 : Updater ℤ ℤ)).info 0).cancelled = true := by
    rw [show (updateTime oneCall m 0 (.setTime 10 : Updater ℤ ℤ)).info 0 = s.info 0 from rfl, hi]
  rw [if_pos hc] at r₃
  have r₄ := r₃.step (.returnUpdate (State.setUpdate_self ..))
  refine ⟨_, [_, _], m, _, r₁, r₄, ?_, ?_, State.setUpdate_self ..⟩
  · ext w
    refine ⟨fun hwait => ?_, fun hwait => absurd hwait (Set.notMem_empty w)⟩
    have hphase := hwait.1
    rcases eq_or_ne w 0 with rfl | hne
    · cases hphase
    · rw [s.setPhase_ne hne, hidle w hne] at hphase
      cases hphase
  · rw [getEarliestWakeupTime, hmw]
    rfl

end Abseil.SimulatedClock
