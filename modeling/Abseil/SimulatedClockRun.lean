import Abseil.SimulatedClockHistory

/-!
# Waits on the clock

`AwaitWithDeadline` returns because its condition was true or its deadline was reached, no `WakeUp`
touches its `mu` afterwards, and no call waits for a lock in a circle (`await_ends`).
-/

set_option linter.unusedSectionVars false

namespace Abseil.SimulatedClock

open List Bool

variable {τ δ : Type*} [LinearOrder τ] [VAdd δ τ] {C : Calls τ} {s s' : State τ} {w : ℕ}
  {a : Action τ δ} {h : History τ δ}

/-! ## Why a call returns -/

/-- At one of the moments the call was going on, and its condition was true or the time was not
before its deadline. -/
def Reason (C : Calls τ) (w : ℕ) (moments : List (State τ)) : Prop :=
  ∃ m ∈ moments, (m.phase w).inCall = true ∧ (m.cond w = true ∨ C.deadline w ≤ m.now)

/-- A call that was woken up, or is to be, has a reason, and one that goes on has one. -/
def Grounded (C : Calls τ) (h : History τ δ) (s : State τ) (w : ℕ) : Prop :=
  ((s.phase w).inCall = true →
    ((s.info w).wakeupTimePassed = true ∨ ∃ k, w ∈ (s.update k).calls) →
      Reason C w (s :: h.map Prod.fst)) ∧
    (5 ≤ (s.phase w).rank → Reason C w (s :: h.map Prod.fst))

theorem Reason.later {m : State τ} {ms : List (State τ)} (hr : Reason C w ms) :
    Reason C w (m :: ms) := by
  obtain ⟨x, hx, hrest⟩ := hr
  exact ⟨x, mem_cons_of_mem m hx, hrest⟩

/-- A call that finds itself ready has a reason. -/
theorem Grounded.of_ready (hg : Grounded C h s w) (hp : (s.phase w).inCall = true)
    (hready : s.ready w = true) : Reason C w (s :: h.map Prod.fst) := by
  rcases or_eq_true .. ▸ hready with hpassed | hcond
  · exact hg.1 hp (.inl hpassed)
  · exact ⟨s, mem_cons_self, hp, .inl hcond⟩

/-- The step writes through the `mu` of `w` for its `WakeUpInfo`. -/
def Action.wakes (a : Action τ δ) (w : ℕ) : Bool :=
  match a with
  | .wakeUp _ v => v = w
  | _ => false

theorem Step.passed_eq (hi : Inv C s) (hs : Step C s a s') (ha : a.wakes w = false) :
    (s'.info w).wakeupTimePassed = (s.info w).wakeupTimePassed := by
  rcases hs.info_cases w with heq | ⟨rfl, hmade⟩ | ⟨-, heq⟩ | ⟨k, -, heq⟩ | ⟨k, rfl, -⟩
  · rw [heq]
  · cases hs with
    | @register _ r hp _ =>
      obtain ⟨⟨-, hbefore⟩, -⟩ : CallOk s w (.evaluated r) := hp ▸ hi.call w
      rw [hmade, hbefore]
  · rw [heq]
  · rw [heq]
  · simp [Action.wakes] at ha

theorem Step.passed_of_wakes (hi : Inv C s) (hs : Step C s a s') (ha : a.wakes w = true) :
    (∃ k, w ∈ (s.update k).calls) ∧ (s.info w).wakeupTimePassed = false ∧
      (s'.info w).wakeupTimePassed = true := by
  cases hs with
  | @wakeUp k v rest n hk _ =>
    obtain rfl : v = w := by simpa [Action.wakes] using ha
    have hmem : v ∈ (s.update k).calls := by rw [hk]; exact mem_cons_self
    refine ⟨⟨k, hmem⟩, hi.lists.unpassed v (.inr ⟨k, hmem⟩), ?_⟩
    exact congrArg WakeUpInfo.wakeupTimePassed (s.setInfo_self v _)
  | _ => cases ha

/-- A call that is to be woken up was so before, or its deadline is reached. -/
theorem Step.cause (hi : Inv C s) (hs : Step C s a s')
    (hc : (s'.info w).wakeupTimePassed = true ∨ ∃ k, w ∈ (s'.update k).calls) :
    ((s.info w).wakeupTimePassed = true ∨ ∃ k, w ∈ (s.update k).calls) ∨ C.deadline w ≤ s'.now := by
  rcases hc with hpassed | ⟨k, hk⟩
  · refine .inl ?_
    cases ha : a.wakes w with
    | false => exact .inl (hs.passed_eq hi ha ▸ hpassed)
    | true => exact .inr (hs.passed_of_wakes hi ha).1
  · exact (hs.mem_calls hi hk).imp (fun hk => .inr ⟨k, hk⟩) And.right

/-- A call that goes on was going on before, or nobody knew of it. -/
theorem Step.inCall (hi : Inv C s) (hs : Step C s a s') (hp : (s'.phase w).inCall = true) :
    (s.phase w).inCall = true ∨ Unknown s w := by
  have hrank := hs.rank_le hi w
  have hok := hi.call w
  cases hq : s.phase w with
  | idle =>
    rw [hq] at hok
    exact .inr hok
  | returned _ | left =>
    rw [hq] at hrank
    cases hq' : s'.phase w <;> simp_all [Phase.inCall, Phase.rank]
  | _ => exact .inl rfl

theorem Grounded.step (hi : Inv C s) (hg : Grounded C h s w) (hs : Step C s a s') :
    Grounded C ((s, a) :: h) s' w := by
  refine ⟨fun hp hc => ?_, fun hrank => ?_⟩
  · rcases hs.cause hi hc with hc | hdue
    · rcases hs.inCall hi hp with hp | ⟨hl, hmade⟩
      · exact (hg.1 hp hc).later
      · rcases hc with hpassed | hlisted
        · rw [hmade] at hpassed
          cases hpassed
        · exact absurd (.inr hlisted) hl
    · exact ⟨s', mem_cons_self, hp, .inr hdue⟩
  · rcases hs.goes hi w with heq | ⟨-, hlt | hle | ⟨hp, hready | hdue⟩⟩
    · exact (hg.2 (heq ▸ hrank)).later
    · omega
    · exact (hg.2 hle).later
    · exact (hg.of_ready hp hready).later
    · exact Reason.later ⟨s, mem_cons_self, hp, .inr hdue⟩

theorem Run.grounded (hr : Run C h s) (w : ℕ) : Grounded C h s w := by
  induction hr generalizing w with
  | initial now cond =>
    refine ⟨nofun, fun hrank => absurd hrank ?_⟩
    simp [State.initial, Phase.rank]
  | step hr hs ih => exact (ih w).step hr.inv hs

/-! ## How often a call is woken up -/

theorem Run.countP_wakes_le (hr : Run C h s) (w : ℕ) :
    h.countP (fun e => e.2.wakes w) ≤ if (s.info w).wakeupTimePassed then 1 else 0 := by
  induction hr with
  | initial now cond => exact Nat.zero_le _
  | @step h s a s' hr hs ih =>
    rw [countP_cons]
    cases ha : a.wakes w with
    | false =>
      rw [hs.passed_eq hr.inv ha]
      simpa using ih
    | true =>
      obtain ⟨-, hbefore, hafter⟩ := hs.passed_of_wakes hr.inv ha
      rw [hbefore] at ih
      rw [hafter]
      simp at ih ⊢
      omega

/-! ## Who is woken up by a call that has returned -/

/-- The call is to be woken up by `k`, or need not be any more. -/
def Owed (s : State τ) (k w : ℕ) : Prop :=
  w ∈ (s.update k).calls ∨ (s.info w).wakeupTimePassed = true ∨
    ((s.info w).cancelled = true ∧ ¬s.Listed w)

/-- What is in the list of `k` stays until it is woken up or found cancelled. -/
theorem Step.calls_cases (hi : Inv C s) (hs : Step C s a s') {k : ℕ} (hw : w ∈ (s.update k).calls) :
    w ∈ (s'.update k).calls ∨ (s'.info w).wakeupTimePassed = true ∨
      ((s'.info w).cancelled = true ∧ ¬s'.Listed w) := by
  have hkeep : ∀ (t : State τ) {j u}, t.update = s.update → (j = k → w ∈ Stage.calls u) →
      w ∈ ((t.setUpdate j u).update k).calls := by
    intro t j u ht hu
    rcases eq_or_ne k j with rfl | hne
    · rw [t.setUpdate_self]
      exact hu rfl
    · rwa [t.setUpdate_ne hne, ht]
  have hlist : ∀ {j u}, s.update j = u → j = k → w ∈ u.calls := by
    rintro j u rfl rfl
    exact hw
  cases hs with
  | update hj =>
    refine .inl (hkeep { s with now := _, waiters := _ } rfl fun h => ?_)
    exact absurd (hlist hj h) not_mem_nil
  | @checkCancelled j v rest n hj =>
    have hjk := hlist hj
    split_ifs with hc
    · by_cases hv : j = k ∧ w = v
      · obtain ⟨rfl, rfl⟩ := hv
        exact .inr (.inr ⟨hc, hi.lists.not_listed (by rw [hj]; rfl)⟩)
      · refine .inl (hkeep s rfl fun h => ?_)
        exact (mem_cons.1 (hjk h)).resolve_left fun hwv => hv ⟨h, hwv⟩
    · exact .inl (hkeep (s.setInfo v _) rfl hjk)
  | @wakeUp j v rest n hj _ =>
    by_cases hv : j = k ∧ w = v
    · obtain ⟨rfl, rfl⟩ := hv
      exact .inr (.inl (congrArg WakeUpInfo.wakeupTimePassed (s.setInfo_self w _)))
    · refine .inl (hkeep (s.setInfo v _) rfl fun h => ?_)
      exact (mem_cons.1 (hlist hj h)).resolve_left fun hwv => hv ⟨h, hwv⟩
  | returnUpdate hj =>
    exact .inl (hkeep s rfl fun h => absurd (hlist hj h) not_mem_nil)
  | _ => exact .inl hw

theorem Owed.step {k : ℕ} (ho : Owed s k w) (hi : Inv C s) (hs : Step C s a s')
    (hrank : 3 ≤ (s.phase w).rank) : Owed s' k w := by
  have hreg : a ≠ .register w := by
    rintro rfl
    cases hs with
    | register hp _ =>
      rw [hp] at hrank
      simp [Phase.rank] at hrank
  rcases ho with hw | hpassed | ⟨hc, hl⟩
  · exact hs.calls_cases hi hw
  · refine .inr (.inl ?_)
    cases ha : a.wakes w with
    | false => rw [hs.passed_eq hi ha, hpassed]
    | true => exact (hs.passed_of_wakes hi ha).2.2
  refine .inr (.inr ⟨?_, fun hl' => hl (hs.listed hi hreg hl')⟩)
  rcases hs.info_cases w with heq | ⟨heq, -⟩ | ⟨-, heq⟩ | ⟨k, -, heq⟩ | ⟨k, -, heq⟩
  · rw [heq, hc]
  · exact absurd heq hreg
  · rw [heq]
  · rwa [heq]
  · rwa [heq]

/-- A call whose deadline is reached by `k` is owed its wake-up from then on. -/
theorem Run.owed {k : ℕ} {u : Updater τ δ} {m : State τ} {h1 : History τ δ}
    (hpend : Pending C h1 w) (hdue : C.deadline w ≤ u.apply m.now) :
    ∀ {h2 : History τ δ} {s : State τ}, Run C (h2 ++ (m, .update k u) :: h1) s →
      Owed s k w ∧ 3 ≤ (s.phase w).rank
  | [], s, hr => by
    cases hr with
    | step hr hs =>
      have hrank := (hr.rank_of_registered hpend.1).trans (hs.rank_le hr.inv w)
      cases hs with
      | update hk =>
        exact ⟨.inl ((mem_updateTime_calls hr.inv.lists u).2
          ⟨(mem_waiters_iff hr).2 hpend, hdue⟩), hrank⟩
  | e :: h2, s, hr => by
    cases hr with
    | step hr hs =>
      obtain ⟨ho, hrank⟩ := Run.owed hpend hdue hr
      exact ⟨ho.step hr.inv hs hrank, hrank.trans (hs.rank_le hr.inv w)⟩

/-- The call is in an `Await`, or in front of one, that only its `WakeUp` can end. -/
def BlockedOnWakeUp (s : State τ) (w : ℕ) : Prop :=
  (s.phase w = .registered ∨ s.phase w = .awaiting ∨ s.phase w = .awaitingWakeUp) ∧
    (s.info w).wakeupTimePassed = false

theorem not_blocked_of_owed (hi : Inv C s) {k n : ℕ} (ho : Owed s k w)
    (hk : s.update k = .returned n) : ¬BlockedOnWakeUp s w := by
  rintro ⟨hphase, hpassed⟩
  rcases ho with hw | hp | ⟨hc, hl⟩
  · rw [hk] at hw
    cases hw
  · exact absurd (hpassed.symm.trans hp) false_ne_true
  have hok := hi.call w
  rcases hphase with hp | hp | hp <;> rw [hp] at hok
  · exact absurd (hok.symm.trans hc) false_ne_true
  · exact absurd (hok.symm.trans hc) false_ne_true
  · rcases hi.lists.called w hok.2 with hp' | ⟨j, rest, n', hj⟩
    · exact absurd (hpassed.symm.trans hp') false_ne_true
    · exact hl (.inr ⟨j, by rw [hj]; exact mem_cons_self⟩)

/-! ## Locks -/

/-- A call of `AwaitWithDeadline` or of `UpdateTime`. -/
inductive Party
  | waiter (w : ℕ)
  | updater (k : ℕ)

/-- Whose step it is. -/
def Action.party : Action τ δ → Option Party
  | .enter w | .eval w | .returnEarly w | .register w | .await w | .resume w | .cancel w
  | .awaitWakeUp w | .resumeWakeUp w | .finish w | .unlock w => some (.waiter w)
  | .update k _ | .checkCancelled k _ | .wakeUp k _ | .returnUpdate k => some (.updater k)
  | .change _ _ => none

/-- One call cannot go on until another one does. -/
inductive WaitsFor (C : Calls τ) (s : State τ) : Party → Party → Prop
  /-- `WakeUp` at `mu_->lock()`. -/
  | lock {k w rest n v} : s.update k = .waking (w :: rest) true n → C.mu v = C.mu w →
      (s.phase v).holds = true → WaitsFor C s (.updater k) (.waiter v)
  /-- `Await` with a true condition, at the lock. -/
  | relock {w v} : s.phase w = .awaiting ∧ s.ready w = true ∨
        s.phase w = .awaitingWakeUp ∧ (s.info w).wakeupTimePassed = true →
      C.mu v = C.mu w → (s.phase v).holds = true →
      ¬(C.mode v = .shared ∧ C.mode w = .shared) → WaitsFor C s (.waiter w) (.waiter v)
  /-- `Await` for the end of a `WakeUp`. -/
  | wakeUp {w k} : s.phase w = .awaitingWakeUp → (s.info w).wakeupTimePassed = false →
      w ∈ (s.update k).calls → WaitsFor C s (.waiter w) (.updater k)

/-- The call is going on, and is not one that waits for its condition or its deadline. -/
def Active (s : State τ) : Party → Prop
  | .waiter w => s.phase w ≠ .idle ∧ s.phase w ≠ .left ∧
      (s.phase w = .awaiting → s.ready w = true)
  | .updater k => ∃ calls b n, s.update k = .waking calls b n

/-- The call can make a step. -/
def CanStep (δ : Type*) [VAdd δ τ] (C : Calls τ) (s : State τ) (x : Party) : Prop :=
  ∃ (a : Action τ δ) (s' : State τ), a.party = some x ∧ Step C s a s'

theorem not_waitsFor_of_holds (hw : (s.phase w).holds = true) (y : Party) :
    ¬WaitsFor C s (.waiter w) y := by
  intro hwait
  cases hwait with
  | relock hp =>
    rcases hp with ⟨hp, -⟩ | ⟨hp, -⟩ <;>
    · rw [hp] at hw
      cases hw
  | wakeUp hp =>
    rw [hp] at hw
    cases hw

/-- No calls wait for one another. -/
theorem no_circle (C : Calls τ) (s : State τ) (D : Set Party)
    (hD : ∀ x ∈ D, ∃ y ∈ D, WaitsFor C s x y) : D = ∅ := by
  -- who holds a mutex waits for nobody
  have hholder : ∀ v, (s.phase v).holds = true → .waiter v ∉ D := by
    intro v hv hmem
    obtain ⟨y, -, hy⟩ := hD _ hmem
    exact not_waitsFor_of_holds hv y hy
  have hupdater : ∀ k, .updater k ∉ D := by
    intro k hmem
    obtain ⟨y, hy, hwait⟩ := hD _ hmem
    cases hwait with
    | lock _ _ hv => exact hholder _ hv hy
  refine Set.eq_empty_of_forall_notMem fun x hx => ?_
  obtain ⟨y, hy, hwait⟩ := hD x hx
  cases hwait with
  | lock _ _ hv => exact hholder _ hv hy
  | relock _ _ hv _ => exact hholder _ hv hy
  | wakeUp _ _ _ => exact hupdater _ hy

theorem active_of_holds (hw : (s.phase w).holds = true) : Active s (.waiter w) := by
  refine ⟨fun hp => ?_, fun hp => ?_, fun hp => ?_⟩ <;>
  · rw [hp] at hw
    cases hw

/-- A waiter that is ready gets its mutex, or somebody else holds it. -/
theorem relock_or_waits (hw : s.phase w = .awaiting ∧ s.ready w = true ∨
      s.phase w = .awaitingWakeUp ∧ (s.info w).wakeupTimePassed = true) :
    s.CanLock C w ∨ ∃ y, WaitsFor C s (.waiter w) y ∧ Active s y := by
  by_cases hlock : s.CanLock C w
  · exact .inl hlock
  · unfold State.CanLock at hlock
    push Not at hlock
    obtain ⟨v, hmu, hv, hmode⟩ := hlock
    exact .inr ⟨_, .relock hw hmu hv fun ⟨h1, h2⟩ => hmode h1 h2, active_of_holds hv⟩

/-- An active call can go on, or waits for an active one. -/
theorem canStep_or_waitsFor (hi : Inv C s) (x : Party) (hx : Active s x) :
    CanStep δ C s x ∨ ∃ y, WaitsFor C s x y ∧ Active s y := by
  cases x with
  | updater k =>
    obtain ⟨calls, b, n, hk⟩ := hx
    cases calls with
    | nil => exact .inl ⟨.returnUpdate k, _, rfl, .returnUpdate hk⟩
    | cons w rest =>
      cases b with
      | false => exact .inl ⟨.checkCancelled k w, _, rfl, .checkCancelled hk⟩
      | true =>
        by_cases hfree : s.Free C (C.mu w)
        · exact .inl ⟨.wakeUp k w, _, rfl, .wakeUp hk hfree⟩
        · unfold State.Free at hfree
          push Not at hfree
          obtain ⟨v, hmu, hv⟩ := hfree
          have hv : (s.phase v).holds = true := by simpa using hv
          exact .inr ⟨_, .lock hk hmu hv, active_of_holds hv⟩
  | waiter w =>
    obtain ⟨hidle, hleft, hready⟩ := hx
    cases hp : s.phase w with
    | idle => exact absurd hp hidle
    | left => exact absurd hp hleft
    | entered => exact .inl ⟨.eval w, _, rfl, .eval hp⟩
    | evaluated r =>
      by_cases hdue : C.deadline w ≤ s.now ∨ r = true
      · exact .inl ⟨.returnEarly w, _, rfl, .returnEarly hp hdue⟩
      · exact .inl ⟨.register w, _, rfl, .register hp hdue⟩
    | registered => exact .inl ⟨.await w, _, rfl, .await hp⟩
    | awaiting =>
      refine (relock_or_waits (.inl ⟨hp, hready hp⟩)).imp_left fun hlock => ?_
      exact ⟨.resume w, _, rfl, .resume hp (hready hp) hlock⟩
    | awoken => exact .inl ⟨.cancel w, _, rfl, .cancel hp⟩
    | cancelling b => exact .inl ⟨.awaitWakeUp w, _, rfl, .awaitWakeUp hp⟩
    | awaitingWakeUp =>
      cases hpassed : (s.info w).wakeupTimePassed with
      | true =>
        refine (relock_or_waits (.inr ⟨hp, hpassed⟩)).imp_left fun hlock => ?_
        exact ⟨.resumeWakeUp w, _, rfl, .resumeWakeUp hp hpassed hlock⟩
      | false =>
        -- somebody is between the two sections of the `WakeUp`
        obtain ⟨-, hcalled⟩ : CallOk s w .awaitingWakeUp := hp ▸ hi.call w
        rcases hi.lists.called w hcalled with hp' | ⟨k, rest, n, hk⟩
        · exact absurd (hpassed.symm.trans hp') false_ne_true
        · refine .inr ⟨_, .wakeUp hp hpassed ?_, _, _, _, hk⟩
          rw [hk]
          exact mem_cons_self
    | finishing => exact .inl ⟨.finish w, _, rfl, .finish hp⟩
    | returned r => exact .inl ⟨.unlock w, _, rfl, .unlock hp⟩

/-! ## Waits end for a reason -/

/-- A call that has returned did so with the value of its condition and for a reason. No `WakeUp`
of a call that has returned is at its `mu`, no call is woken up twice, and none is blocked on its
wake-up once the call of `UpdateTime` that took it off `waiters_`, the first to reach its deadline,
has returned. No calls wait for one another, and each that does not wait for its condition or its
deadline can go on or waits for one that is going on. -/
theorem await_ends (hr : Run C h s) :
    (∀ w v, s.phase w = .returned v → v = s.cond w ∧ Reason C w (h.map Prod.fst)) ∧
    (∀ k w rest n, s.update k = .waking (w :: rest) true n → (s.phase w).ended = false) ∧
    (∀ w, h.countP (fun e => e.2.wakes w) ≤ 1) ∧
    (∀ (k n w : ℕ) (u : Updater τ δ) (m : State τ) (h₁ h₂ : History τ δ),
      h = h₂ ++ (m, .update k u) :: h₁ → Pending C h₁ w → C.deadline w ≤ u.apply m.now →
      s.update k = .returned n → ¬BlockedOnWakeUp s w) ∧
    (∀ D : Set Party, (∀ x ∈ D, ∃ y ∈ D, WaitsFor C s x y) → D = ∅) ∧
    ∀ x, Active s x → CanStep δ C s x ∨ ∃ y, WaitsFor C s x y ∧ Active s y := by
  have hi := hr.inv
  refine ⟨fun w v hp => ⟨?_, ?_⟩, fun k w rest n hk => ?_, fun w => ?_,
    fun k n w u m h₁ h₂ hh hpend hdue hk => ?_, no_circle C s, canStep_or_waitsFor hi⟩
  · obtain ⟨-, hv⟩ : CallOk s w (.returned v) := hp ▸ hi.call w
    exact hv
  · obtain ⟨m, hm, hin, hreason⟩ := (hr.grounded w).2 (by rw [hp]; simp [Phase.rank])
    rcases mem_cons.1 hm with rfl | hm
    · rw [hp] at hin
      cases hin
    · exact ⟨m, hm, hin, hreason⟩
  · -- a `WakeUp` between its sections has set `wakeup_called_` and not yet the other flag
    have hcalled := hi.lists.locking k w rest n hk
    have hpassed := hi.lists.unpassed w (.inr ⟨k, by rw [hk]; exact mem_cons_self⟩)
    have hsettled : ¬Settled s w := fun hset =>
      false_ne_true (hpassed.symm.trans (hset.1 hcalled))
    have hok := hi.call w
    cases hp : s.phase w with
    | returned v =>
      rw [hp] at hok
      exact absurd hok.1 hsettled
    | left =>
      rw [hp] at hok
      exact absurd hok hsettled
    | _ => rfl
  · have hle := hr.countP_wakes_le w
    split at hle <;> omega
  · subst hh
    exact not_blocked_of_owed hi (Run.owed hpend hdue hr).1 hk

/-! ## One call -/

/-- A call with a mutex of its own and the deadline `5`. -/
def oneCall : Calls ℤ where
  mu := id
  mode := fun _ => .exclusive
  deadline := fun _ => 5

/-- The call waits at time `0`. -/
def awaiting : State ℤ :=
  { State.initial 0 fun _ => false with
    waiters := [0]
    numAwaitCalls := 1
    phase := Function.update (fun _ => .idle) 0 .awaiting }

theorem canLock_oneCall {s : State ℤ} (hs : (s.phase 0).holds = false) : s.CanLock oneCall 0 := by
  rintro v rfl hholds
  exact absurd (hs.symm.trans hholds) false_ne_true

theorem free_oneCall {s : State ℤ} (hs : (s.phase 0).holds = false) : s.Free oneCall 0 := by
  rintro v rfl
  exact hs

theorem run_awaiting : ∃ h : History ℤ ℤ, Run oneCall h awaiting := by
  have r0 := Run.initial (δ := ℤ) (C := oneCall) 0 fun _ => false
  have r1 := r0.step (.enter rfl (canLock_oneCall rfl))
  have r2 := r1.step (.eval (w := 0) rfl)
  have r3 := r2.step (.register (w := 0) rfl (by decide))
  have r4 := r3.step (.await (w := 0) rfl)
  refine ⟨_, cast (congrArg _ ?_) r4⟩
  simp [State.setPhase, State.setInfo, register, awaiting, State.initial, State.ready, insertWaiter,
    WakeUpInfo.made]

/-- Its condition comes true, and it returns. -/
theorem run_returned : ∃ (h : History ℤ ℤ) (s : State ℤ), Run oneCall h s ∧
    s.phase 0 = .returned true ∧ (∀ v, v ≠ 0 → s.phase v = .idle) ∧ s.waiters = [0] ∧
    s.update = (fun _ => .idle) ∧ s.info 0 = ⟨false, true, false⟩ := by
  obtain ⟨h, r4⟩ := run_awaiting
  have r5 := r4.step (a := .change 0 fun _ => true) (.change (free_oneCall rfl))
  have r6 := r5.step (.resume rfl rfl (canLock_oneCall rfl))
  have r7 := r6.step (.cancel (w := 0) rfl)
  have r8 := r7.step (.awaitWakeUp (w := 0) rfl)
  have r9 := r8.step (.finish (w := 0) rfl)
  refine ⟨_, _, r9, rfl, fun v hv => ?_, rfl, rfl, rfl⟩
  simp only [State.setPhase, State.setInfo, awaiting, Function.update_of_ne hv]

/-- Its deadline is reached, and it is woken up. -/
theorem run_woken : ∃ (h₁ h₂ : History ℤ ℤ) (s : State ℤ), Run oneCall h₁ awaiting ∧
    Run oneCall (h₂ ++ (awaiting, .update 0 (.setTime 10)) :: h₁) s ∧ s.phase 0 = .awaiting ∧
    s.update 0 = .returned 1 := by
  obtain ⟨h, r4⟩ := run_awaiting
  have r5 := r4.step (.update (k := 0) (u := .setTime 10) rfl)
  have r6 := r5.step (.checkCancelled (k := 0) (show _ = Stage.waking [0] false 1 from rfl))
  have r7 := r6.step
    (.wakeUp (k := 0) (show _ = Stage.waking [0] true 1 from rfl) (free_oneCall rfl))
  have r8 := r7.step (.returnUpdate (k := 0) (b := false) (n := 1) rfl)
  exact ⟨h, [_, _, _], _, r4, r8, rfl, rfl⟩

/-- It is no longer blocked, though it has not gone on yet. -/
theorem await_ends_oneCall : ∃ (h : History ℤ ℤ) (s : State ℤ), Run oneCall h s ∧
    s.phase 0 = .awaiting ∧ s.update 0 = .returned 1 ∧ ¬BlockedOnWakeUp s 0 := by
  obtain ⟨h₁, h₂, s, hr, hs, hp, hk⟩ := run_woken
  have hpend : Pending oneCall h₁ 0 := (mem_waiters_iff hr).1 mem_cons_self
  exact ⟨_, s, hs, hp, hk, (await_ends hs).2.2.2.1 0 1 0 _ _ _ _ rfl hpend (by decide) hk⟩

/-- A call of `SetTime` takes the waiter off `waiters_` and stops before its `WakeUp`, another one
sets the time back, and a third one, which sets it past the deadline, returns. -/
theorem blocked_overlapping : ∃ (h₁ h₂ : History ℤ ℤ) (m s : State ℤ),
    Run oneCall (h₂ ++ (m, .update 2 (.setTime 20)) :: h₁) s ∧ m.phase 0 = .awaiting ∧
      m.now < oneCall.deadline 0 ∧ oneCall.deadline 0 ≤ 20 ∧ s.update 2 = .returned 0 ∧
      BlockedOnWakeUp s 0 := by
  obtain ⟨h, r4⟩ := run_awaiting
  have r5 := r4.step (.update (k := 0) (u := .setTime 10) rfl)
  have r6 := r5.step (.update (k := 1) (u := .setTime 0) rfl)
  have r7 := r6.step (.update (k := 2) (u := .setTime 20) rfl)
  have r8 := r7.step (.returnUpdate (k := 2) (b := false) (n := 0) rfl)
  exact ⟨_, [_], _, _, r8, rfl, by decide, by decide, rfl, .inr (.inl rfl), rfl⟩

end Abseil.SimulatedClock
