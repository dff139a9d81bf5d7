import Mathlib.Tactic

/-!
# `SimulatedClock`

Calls of `AwaitWithDeadline`, `SetTime` and `AdvanceTime` on one clock, in any number of threads.
Each critical section on `lock_` or `cancellation_mu_` and the one of `WakeUp` on a waiter's `mu`
is one step. A waiter holds its `mu` over several steps : from its call until `Await` gives it up,
and from the end of `Await` until it has returned and the caller unlocks. The steps of the other
threads come in between.

`waiters_` is a multimap from deadlines to `WakeUpInfo`s. Here it is the list of the calls in the
order of the map, and `WakeUpInfo`s are named by their calls. `SleepUntil` is a call with a `mu` of
its own and a condition that is never true.

A call is made once : a second call of the same thread is another call. The arguments of the calls
are `Calls`, the steps are `Step`, and `Run` is a history with the state it leads to.
-/

namespace Abseil.SimulatedClock

open Function

/-! ## Calls -/

/-- How a caller holds its `mu`. -/
inductive Mode
  | shared
  | exclusive
  deriving DecidableEq, Repr

/-- The arguments of the calls of `AwaitWithDeadline`. -/
structure Calls (τ : Type*) where
  mu : ℕ → ℕ
  mode : ℕ → Mode
  deadline : ℕ → τ

/-- The flags of a `WakeUpInfo`. -/
structure WakeUpInfo where
  wakeupTimePassed : Bool
  cancelled : Bool
  wakeupCalled : Bool
  deriving DecidableEq, Repr

/-- The flags of a new `WakeUpInfo`. -/
def WakeUpInfo.made : WakeUpInfo := ⟨false, false, false⟩

/-- Where a call of `AwaitWithDeadline` is. -/
inductive Phase
  /-- Not called yet. -/
  | idle
  /-- Called, with `mu` held. -/
  | entered
  /-- Behind `ready = cond.Eval()`. -/
  | evaluated (ready : Bool)
  /-- In `waiters_`, in front of `AwaitConditionOrWakeUp`. -/
  | registered
  /-- In the `Await` of `AwaitConditionOrWakeUp`, without `mu`. -/
  | awaiting
  /-- Behind it, in front of `CancelOrAwaitWakeUp`. -/
  | awoken
  /-- Behind the section on `cancellation_mu_`, with the flag read there. -/
  | cancelling (wakeupCalled : Bool)
  /-- In the `Await` of `CancelOrAwaitWakeUp`, without `mu`. -/
  | awaitingWakeUp
  /-- In front of `return cond.Eval()`. -/
  | finishing
  /-- Returned, `mu` still held. -/
  | returned (value : Bool)
  /-- Returned, `mu` unlocked by the caller. -/
  | left
  deriving DecidableEq, Repr

namespace Phase

/-- The caller holds `mu`. -/
def holds : Phase → Bool
  | idle | awaiting | awaitingWakeUp | left => false
  | _ => true

/-- How far the call is. -/
def rank : Phase → ℕ
  | idle => 0
  | entered => 1
  | evaluated _ => 2
  | registered => 3
  | awaiting => 4
  | awoken => 5
  | cancelling _ => 6
  | awaitingWakeUp => 7
  | finishing => 8
  | returned _ => 9
  | left => 10

/-- The call waits for its condition or its deadline, or has just found one of them. -/
def waits : Phase → Bool
  | registered | awaiting | awoken => true
  | _ => false

/-- The call has returned. -/
def ended : Phase → Bool
  | returned _ | left => true
  | _ => false

/-- The call has begun and not returned. -/
def inCall : Phase → Bool
  | idle | returned _ | left => false
  | _ => true

end Phase

/-- Where a call of `UpdateTime` is. -/
inductive Stage
  | idle
  /-- In the loop over `wakeup_calls`, of which `calls` are left. With `locking` the first one is
  in front of `mu_->lock()`. -/
  | waking (calls : List ℕ) (locking : Bool) (size : ℕ)
  | returned (size : ℕ)
  deriving DecidableEq, Repr

/-- The `wakeup_calls` that are left. -/
def Stage.calls : Stage → List ℕ
  | waking calls _ _ => calls
  | _ => []

/-- The change of the time : `SetTime` or `AdvanceTime`. -/
inductive Updater (τ δ : Type*)
  | setTime (t : τ)
  | advanceTime (d : δ)

/-- `now_updater`. -/
def Updater.apply {τ δ : Type*} [VAdd δ τ] : Updater τ δ → τ → τ
  | setTime t, _ => t
  | advanceTime d, now => d +ᵥ now

/-! ## State -/

/-- The clock, the flags of the `WakeUpInfo`s, the conditions and the calls. -/
structure State (τ : Type*) where
  now : τ
  waiters : List ℕ
  numAwaitCalls : ℕ
  info : ℕ → WakeUpInfo
  cond : ℕ → Bool
  phase : ℕ → Phase
  update : ℕ → Stage

/-- A new clock. -/
def State.initial {τ : Type*} (now : τ) (cond : ℕ → Bool) : State τ where
  now := now
  waiters := []
  numAwaitCalls := 0
  info := fun _ => .made
  cond := cond
  phase := fun _ => .idle
  update := fun _ => .idle

section Steps

variable {τ δ : Type*}

namespace State

variable (C : Calls τ) (s : State τ)

/-- The phase of a call is overwritten. -/
def setPhase (w : ℕ) (p : Phase) : State τ := { s with phase := Function.update s.phase w p }

/-- The flags of a call are overwritten. -/
def setInfo (w : ℕ) (i : WakeUpInfo) : State τ := { s with info := Function.update s.info w i }

/-- The stage of an update is overwritten. -/
def setUpdate (k : ℕ) (u : Stage) : State τ := { s with update := Function.update s.update k u }

theorem setPhase_self (w : ℕ) (p : Phase) : (s.setPhase w p).phase w = p :=
  update_self ..

theorem setPhase_ne {v w : ℕ} (hv : v ≠ w) (p : Phase) : (s.setPhase w p).phase v = s.phase v :=
  update_of_ne hv ..

theorem setInfo_self (w : ℕ) (i : WakeUpInfo) : (s.setInfo w i).info w = i :=
  update_self ..

theorem setInfo_ne {v w : ℕ} (hv : v ≠ w) (i : WakeUpInfo) : (s.setInfo w i).info v = s.info v :=
  update_of_ne hv ..

theorem setUpdate_self (k : ℕ) (u : Stage) : (s.setUpdate k u).update k = u :=
  update_self ..

theorem setUpdate_ne {j k : ℕ} (hj : j ≠ k) (u : Stage) : (s.setUpdate k u).update j = s.update j :=
  update_of_ne hj ..

/-- `WakeUpInfo::Ready`. -/
def ready (w : ℕ) : Bool := (s.info w).wakeupTimePassed || s.cond w

/-- `mu` can be locked by `w` in its mode. -/
def CanLock (w : ℕ) : Prop :=
  ∀ v, C.mu v = C.mu w → (s.phase v).holds = true → C.mode v = .shared ∧ C.mode w = .shared

/-- Nobody holds the mutex. -/
def Free (m : ℕ) : Prop := ∀ v, C.mu v = m → (s.phase v).holds = false

end State

variable [LinearOrder τ] [VAdd δ τ] (C : Calls τ)

/-- `waiters_.insert` : behind the entries with the same deadline. -/
def insertWaiter (w : ℕ) (waiters : List ℕ) : List ℕ :=
  waiters.takeWhile (C.deadline · ≤ C.deadline w) ++
    w :: waiters.dropWhile (C.deadline · ≤ C.deadline w)

/-- The section of `AwaitWithDeadline` on `lock_` that inserts a `WakeUpInfo`. -/
def register (s : State τ) (w : ℕ) : State τ :=
  ({ s with waiters := insertWaiter C w s.waiters, numAwaitCalls := s.numAwaitCalls + 1 }.setInfo
    w .made).setPhase w .registered

/-- The section of `UpdateTime` on `lock_`. -/
def updateTime (s : State τ) (k : ℕ) (u : Updater τ δ) : State τ :=
  let now := u.apply s.now
  let wakeupCalls := s.waiters.takeWhile (C.deadline · ≤ now)
  { s with now := now, waiters := s.waiters.dropWhile (C.deadline · ≤ now) }.setUpdate k
    (.waking wakeupCalls false wakeupCalls.length)

/-- `GetEarliestWakeupTime`. -/
def getEarliestWakeupTime (s : State τ) : Option τ := s.waiters.head?.map C.deadline

/-- What a thread does next. -/
inductive Action (τ δ : Type*)
  | enter (w : ℕ)
  | eval (w : ℕ)
  | returnEarly (w : ℕ)
  | register (w : ℕ)
  | await (w : ℕ)
  | resume (w : ℕ)
  | cancel (w : ℕ)
  | awaitWakeUp (w : ℕ)
  | resumeWakeUp (w : ℕ)
  | finish (w : ℕ)
  | unlock (w : ℕ)
  | update (k : ℕ) (u : Updater τ δ)
  | checkCancelled (k w : ℕ)
  | wakeUp (k w : ℕ)
  | returnUpdate (k : ℕ)
  | change (m : ℕ) (value : ℕ → Bool)

/-- The steps. -/
inductive Step : State τ → Action τ δ → State τ → Prop
  | enter {s w} : s.phase w = .idle → s.CanLock C w → Step s (.enter w) (s.setPhase w .entered)
  | eval {s w} : s.phase w = .entered →
      Step s (.eval w) (s.setPhase w (.evaluated (s.cond w)))
  -- `deadline <= now_ || ready`
  | returnEarly {s w r} : s.phase w = .evaluated r → C.deadline w ≤ s.now ∨ r = true →
      Step s (.returnEarly w)
        ({ s with numAwaitCalls := s.numAwaitCalls + 1 }.setPhase w (.returned r))
  | register {s w r} : s.phase w = .evaluated r → ¬(C.deadline w ≤ s.now ∨ r = true) →
      Step s (.register w) (register C s w)
  -- `Await` goes on at once if its condition holds
  | await {s w} : s.phase w = .registered →
      Step s (.await w) (s.setPhase w (if s.ready w then .awoken else .awaiting))
  | resume {s w} : s.phase w = .awaiting → s.ready w = true → s.CanLock C w →
      Step s (.resume w) (s.setPhase w .awoken)
  | cancel {s w} : s.phase w = .awoken →
      Step s (.cancel w) ((s.setInfo w { s.info w with cancelled := true }).setPhase w
        (.cancelling (s.info w).wakeupCalled))
  | awaitWakeUp {s w b} : s.phase w = .cancelling b →
      Step s (.awaitWakeUp w) (s.setPhase w
        (if b && !(s.info w).wakeupTimePassed then .awaitingWakeUp else .finishing))
  | resumeWakeUp {s w} : s.phase w = .awaitingWakeUp → (s.info w).wakeupTimePassed = true →
      s.CanLock C w → Step s (.resumeWakeUp w) (s.setPhase w .finishing)
  | finish {s w} : s.phase w = .finishing →
      Step s (.finish w) (s.setPhase w (.returned (s.cond w)))
  | unlock {s w v} : s.phase w = .returned v → Step s (.unlock w) (s.setPhase w .left)
  | update {s k u} : s.update k = .idle → Step s (.update k u) (updateTime C s k u)
  -- the first section of `WakeUp`
  | checkCancelled {s k w rest n} : s.update k = .waking (w :: rest) false n →
      Step s (.checkCancelled k w)
        (if (s.info w).cancelled then s.setUpdate k (.waking rest false n)
          else (s.setInfo w { s.info w with wakeupCalled := true }).setUpdate k
            (.waking (w :: rest) true n))
  -- the second one
  | wakeUp {s k w rest n} : s.update k = .waking (w :: rest) true n → s.Free C (C.mu w) →
      Step s (.wakeUp k w) ((s.setInfo w { s.info w with wakeupTimePassed := true }).setUpdate k
        (.waking rest false n))
  | returnUpdate {s k b n} : s.update k = .waking [] b n →
      Step s (.returnUpdate k) (s.setUpdate k (.returned n))
  -- conditions change under their mutex
  | change {s m value} : s.Free C m →
      Step s (.change m value) { s with cond := fun w => if C.mu w = m then value w else s.cond w }

/-- The steps so far, the last one in front, each with the state it was taken in. -/
abbrev History (τ δ : Type*) := List (State τ × Action τ δ)

/-- A history that starts with a new clock, and the state it leads to. -/
inductive Run : History τ δ → State τ → Prop
  | initial (now : τ) (cond : ℕ → Bool) : Run [] (.initial now cond)
  | step {h s a s'} : Run h s → Step C s a s' → Run ((s, a) :: h) s'

end Steps

end Abseil.SimulatedClock
