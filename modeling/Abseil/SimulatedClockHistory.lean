import Abseil.SimulatedClockInv

/-!
# Histories of the clock

What one step does to the phase and the flags of a call, and to the lists it is in. `waiters_` has
the calls whose deadline no change of the time has reached since they were registered
(`mem_waiters_iff`).
-/

set_option linter.unusedSectionVars false

namespace Abseil.SimulatedClock

open List

variable {τ δ : Type*} [LinearOrder τ] [VAdd δ τ] {C : Calls τ} {s s' : State τ} {w : ℕ}
  {a : Action τ δ} {h : History τ δ}

/-! ## Phases go on -/

/-- The call goes on to a phase behind its own, and for a reason if it is not to wait any more. -/
def Goes (C : Calls τ) (s : State τ) (w : ℕ) (p : Phase) : Prop :=
  (s.phase w).rank < p.rank ∧ (p.rank < 5 ∨ 5 ≤ (s.phase w).rank ∨
    (s.phase w).inCall = true ∧ (s.ready w = true ∨ C.deadline w ≤ s.now))

theorem phase_setPhase {t : State τ} {v : ℕ} {p : Phase} (hp : Goes C s v p)
    (ht : t.phase = s.phase) (w : ℕ) :
    (t.setPhase v p).phase w = s.phase w ∨ Goes C s w ((t.setPhase v p).phase w) := by
  rcases eq_or_ne w v with rfl | hne
  · exact .inr (by rwa [t.setPhase_self])
  · exact .inl (by rw [t.setPhase_ne hne, ht])

theorem Step.goes (hi : Inv C s) (hs : Step C s a s') (w : ℕ) :
    s'.phase w = s.phase w ∨ Goes C s w (s'.phase w) := by
  cases hs with
  | enter hp _ | eval hp | register hp _ | cancel hp | resumeWakeUp hp _ _ | finish hp
  | unlock hp =>
    refine phase_setPhase ?_ ?_ w
    · simp [Goes, hp, Phase.rank]
    · rfl
  | @returnEarly v r hp hdue =>
    obtain ⟨-, hcond⟩ : CallOk s v (.evaluated r) := hp ▸ hi.call v
    refine phase_setPhase ⟨?_, .inr (.inr ⟨?_, ?_⟩)⟩ ?_ w
    · simp [hp, Phase.rank]
    · rw [hp]
      rfl
    · exact hdue.symm.imp_left fun hr => by simp [State.ready, ← hcond, hr]
    · rfl
  | @await v hp =>
    refine phase_setPhase ?_ rfl w
    by_cases hready : s.ready v = true <;> simp [Goes, hp, hready, Phase.rank, Phase.inCall]
  | resume hp hready _ =>
    exact phase_setPhase (by simp [Goes, hp, hready, Phase.rank, Phase.inCall]) rfl w
  | awaitWakeUp hp =>
    refine phase_setPhase ?_ rfl w
    split_ifs <;> simp [Goes, hp, Phase.rank]
  | checkCancelled =>
    split_ifs
    · exact .inl rfl
    · exact .inl rfl
  | _ => exact .inl rfl

theorem Step.rank_le (hi : Inv C s) (hs : Step C s a s') (w : ℕ) :
    (s.phase w).rank ≤ (s'.phase w).rank := by
  rcases hs.goes hi w with heq | ⟨hlt, -⟩
  · rw [heq]
  · exact hlt.le

/-! ## What is in `waiters_` -/

/-- The call was put in `waiters_`. -/
def Registered (h : History τ δ) (w : ℕ) : Prop := ∃ m, (m, .register w) ∈ h

/-- The time was changed to one that is not before the deadline while the call was registered. -/
def Reached (C : Calls τ) (w : ℕ) : History τ δ → Prop
  | [] => False
  | (s, .update _ u) :: h => Registered h w ∧ C.deadline w ≤ u.apply s.now ∨ Reached C w h
  | _ :: h => Reached C w h

/-- The call was registered and its deadline is not reached since. -/
def Pending (C : Calls τ) (h : History τ δ) (w : ℕ) : Prop := Registered h w ∧ ¬Reached C w h

theorem registered_cons {e : State τ × Action τ δ} :
    Registered (e :: h) w ↔ e.2 = .register w ∨ Registered h w := by
  constructor
  · rintro ⟨m, hm⟩
    rcases mem_cons.1 hm with rfl | hm
    · exact .inl rfl
    · exact .inr ⟨m, hm⟩
  · rintro (he | ⟨m, hm⟩)
    · exact ⟨e.1, mem_cons.2 (.inl (Prod.ext rfl he.symm))⟩
    · exact ⟨m, mem_cons_of_mem e hm⟩

theorem Reached.registered : ∀ {h : History τ δ}, Reached C w h → Registered h w
  | [], hr => hr.elim
  | (s, a) :: h, hr => by
    refine registered_cons.2 (.inr ?_)
    cases a with
    | update k u =>
      rcases hr with ⟨hreg, -⟩ | hr
      · exact hreg
      · exact Reached.registered hr
    | _ => exact Reached.registered hr

/-- A registered call is behind its section on `lock_`. -/
theorem Run.rank_of_registered (hr : Run C h s) : Registered h w → 3 ≤ (s.phase w).rank := by
  induction hr with
  | initial now cond =>
    rintro ⟨m, hm⟩
    cases hm
  | @step h s a s' hr hs ih =>
    intro hreg
    rcases registered_cons.1 hreg with heq | hreg
    · subst heq
      cases hs with
      | register hp _ =>
        rw [register, State.setPhase_self]
        decide
    · exact (ih hreg).trans (hs.rank_le hr.inv w)

/-- Only two kinds of steps change `waiters_`. -/
theorem Step.waiters_eq (hs : Step C s a s') (hreg : ∀ v, a ≠ .register v)
    (hupd : ∀ k u, a ≠ .update k u) : s'.waiters = s.waiters := by
  cases hs with
  | register => exact absurd rfl (hreg _)
  | update => exact absurd rfl (hupd _ _)
  | @checkCancelled k v _ _ _ =>
    split_ifs with hc
    · rfl
    · rfl
  | _ => rfl

/-- The list has the calls whose deadline is not reached. -/
theorem mem_waiters_iff (hr : Run C h s) : w ∈ s.waiters ↔ Pending C h w := by
  induction hr with
  | initial now cond =>
    refine ⟨nofun, ?_⟩
    rintro ⟨⟨m, hm⟩, -⟩
    cases hm
  | @step h s a s' hr hs ih =>
    unfold Pending at ih ⊢
    rw [registered_cons]
    cases hs with
    | @register v r hp hlate =>
      have hmem : w ∈ (SimulatedClock.register C s v).waiters ↔ w = v ∨ w ∈ s.waiters :=
        (insertWaiter_perm C v s.waiters).mem_iff.trans mem_cons
      rw [hmem, ih, Action.register.injEq]
      have hreached : Reached C w (((s, .register v) : State τ × Action τ δ) :: h) ↔
          Reached C w h := Iff.rfl
      -- the deadline of a call that is registered now was not reached before
      have hfirst : w = v → ¬Reached C w h := by
        rintro rfl hre
        have := hr.rank_of_registered hre.registered
        rw [hp] at this
        simp [Phase.rank] at this
      constructor
      · rintro (rfl | ⟨hreg, hnot⟩)
        · exact ⟨.inl rfl, hfirst rfl⟩
        · exact ⟨.inr hreg, hnot⟩
      · rintro ⟨rfl | hreg, hnot⟩
        · exact .inl rfl
        · exact .inr ⟨hreg, hnot⟩
    | @update k u hk =>
      rw [mem_updateTime_waiters hr.inv.lists, ih]
      simp only [Reached, reduceCtorEq, false_or, not_or, not_and]
      tauto
    | @checkCancelled k v _ _ hk =>
      rw [Step.waiters_eq (Step.checkCancelled (C := C) (δ := δ) hk) (by simp) (by simp), ih]
      simp [Reached]
    | _ =>
      simp only [reduceCtorEq, false_or]
      exact ih

/-! ## Flags and lists -/

/-- What a step does to the flags of a call. -/
theorem Step.info_cases (hs : Step C s a s') (w : ℕ) :
    s'.info w = s.info w ∨ (a = .register w ∧ s'.info w = .made) ∨
      (a = .cancel w ∧ s'.info w = { s.info w with cancelled := true }) ∨
      (∃ k, a = .checkCancelled k w ∧ s'.info w = { s.info w with wakeupCalled := true }) ∨
      ∃ k, a = .wakeUp k w ∧ s'.info w = { s.info w with wakeupTimePassed := true } := by
  cases hs with
  | @register v r _ _ =>
    rcases eq_or_ne w v with rfl | hne
    · exact .inr (.inl ⟨rfl, State.setInfo_self _ _ _⟩)
    · exact .inl (State.setInfo_ne _ hne _)
  | @cancel v _ =>
    rcases eq_or_ne w v with rfl | hne
    · exact .inr (.inr (.inl ⟨rfl, State.setInfo_self _ _ _⟩))
    · exact .inl (State.setInfo_ne _ hne _)
  | @checkCancelled k v _ _ _ =>
    split_ifs with hc
    · exact .inl rfl
    · rcases eq_or_ne w v with rfl | hne
      · exact .inr (.inr (.inr (.inl ⟨k, rfl, State.setInfo_self _ _ _⟩)))
      · exact .inl (State.setInfo_ne _ hne _)
  | @wakeUp k v _ _ _ _ =>
    rcases eq_or_ne w v with rfl | hne
    · exact .inr (.inr (.inr (.inr ⟨k, rfl, State.setInfo_self _ _ _⟩)))
    · exact .inl (State.setInfo_ne _ hne _)
  | _ => exact .inl rfl

/-- What is in a list of `UpdateTime` was there before, or comes from `waiters_`. -/
theorem Step.mem_calls (hi : Inv C s) (hs : Step C s a s') {j : ℕ} (hw : w ∈ (s'.update j).calls) :
    w ∈ (s.update j).calls ∨ w ∈ s.waiters ∧ C.deadline w ≤ s'.now := by
  cases hs with
  | @update k u hk =>
    rcases eq_or_ne j k with rfl | hne
    · exact .inr ((mem_updateTime_calls hi.lists u).1 hw)
    · rw [show (updateTime C s k u).update j = s.update j from State.setUpdate_ne _ hne _] at hw
      exact .inl hw
  | @checkCancelled k v rest n hk =>
    have hcalls : (s.update k).calls = v :: rest := by rw [hk]; rfl
    refine .inl ?_
    split_ifs at hw with hc
    · refine (calls_setUpdate ?_ j).subset hw
      rw [hcalls]
      exact sublist_cons_self v rest
    · refine (calls_setUpdate (s := s.setInfo v _) ?_ j).subset hw
      rw [show (s.setInfo v _).update k = s.update k from rfl, hcalls]
      exact List.Sublist.refl _
  | @wakeUp k v rest n hk _ =>
    refine .inl ((calls_setUpdate (s := s.setInfo v _) ?_ j).subset hw)
    rw [show (s.setInfo v _).update k = s.update k from rfl, hk]
    exact sublist_cons_self v rest
  | returnUpdate =>
    refine .inl ((calls_setUpdate ?_ j).subset hw)
    exact nil_sublist _
  | _ => exact .inl hw

theorem Step.listed (hi : Inv C s) (hs : Step C s a s') (hw : a ≠ .register w) :
    s'.Listed w → s.Listed w := by
  rintro (hin | ⟨j, hj⟩)
  · refine .inl ?_
    cases hs with
    | @register v r _ _ =>
      have hne : w ≠ v := fun heq => hw (heq ▸ rfl)
      exact (mem_cons.1 ((insertWaiter_perm C v s.waiters).mem_iff.1 hin)).resolve_left hne
    | @update k u hk => exact ((mem_updateTime_waiters hi.lists u).1 hin).1
    | checkCancelled => split_ifs at hin <;> exact hin
    | _ => exact hin
  · rcases hs.mem_calls hi hj with hj | ⟨hin, -⟩
    · exact .inr ⟨j, hj⟩
    · exact .inl hin

end Abseil.SimulatedClock
