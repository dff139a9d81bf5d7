import Abseil.MutexSection

/-!
# Runs of the waiter queue

A mutex's queue under any interleaving of the operations on it. A step is what a thread
does while it holds the spinlock, or one waiter of the walk of an unlock pass, which runs
without it :

* `enqueue` : a thread that is not waiting comes to the queue, at any time;
* `tryRemove` : a timeout, with the lock taken, so not during a pass;
* `unlock`, `spin`, `scan` : a pass begins, takes the spinlock, walks over a waiter;
* `leave` : the pass ends because the unlocker is a reader and not the last.

`waiting_queue` is the invariant of the queue : in every reachable state it holds exactly
the threads that wait, its skips are sound, no step fails, and no step changes the order
of the waiters that stay. `unlockSlow_wakes` says whom a pass wakes that runs alone.
-/

open BoundedLoop LinkedRing

namespace Abseil.Mutex

open List

variable {n : ℕ}

/-! ## Steps -/

/-- The queue with the pass that is under way, if one is. -/
structure State (n : ℕ) where
  heap : Heap n
  head : Option (Fin n)
  pass : Option (Pass n × Phase n)

/-- What threads do to the queue. -/
inductive Action (n : ℕ)
  | enqueue (s : Fin n) (p : WaitParams)
  | tryRemove (s : Fin n)
  | unlock (truth : Condition → Bool) (waitp : Option (Fin n × WaitParams))
  | spin
  | scan
  | leave

/-- A new state, the threads that began to wait and the threads taken from the queue. -/
structure Effect (n : ℕ) where
  state : State n
  entered : List (Fin n)
  left : List (Fin n)

/-- The threads that wait after a step. -/
def Effect.waiting (e : Effect n) (waiting : Finset (Fin n)) : Finset (Fin n) :=
  (waiting \ e.left.toFinset) ∪ e.entered.toFinset

/-- The end of a pass that queues the unlocker, if it has to wait. -/
def endPass (H : Heap n) (head : Option (Fin n)) (p : Pass n) : Except MutexError (Effect n) := do
  let (H, head) ← enqueueSelf H head p.waitp
  .ok ⟨⟨H, head, none⟩, p.waitp.toList.map Prod.fst, []⟩

/-- The effect of a section under the spinlock. -/
def sectionEffect (st : State n) (p : Pass n) : Section n → Effect n
  | .finished H head woken => ⟨⟨H, head, none⟩, p.waitp.toList.map Prod.fst, woken⟩
  | .search H p ph => ⟨⟨H, st.head, some (p, ph)⟩, [], []⟩

/-- The effect of an action. -/
def step (st : State n) : Action n → Except MutexError (Effect n)
  | .enqueue s p => do
    let (H, h) ← enqueue st.heap st.head s p
    .ok ⟨⟨H, some h, st.pass⟩, [s], []⟩
  | .tryRemove s => do
    let (H, head) ← tryRemove st.heap st.head s
    .ok ⟨⟨H, head, st.pass⟩, [], [s]⟩
  | .unlock truth waitp => .ok ⟨{ st with pass := some (⟨truth, waitp, none, none, none⟩, .spin) },
      [], []⟩
  | .spin =>
    match st.pass with
    | some (p, .spin) =>
      match st.head with
      | none => endPass st.heap none p
      | some h => do
        let r ← unlockSection p st.heap h
        .ok (sectionEffect st p r)
    | _ => .ok ⟨st, [], []⟩
  | .scan =>
    match st.pass with
    | some (p, .scan pwWalk wWalk) =>
      match p.oldH with
      | none => .error .nullPointer
      | some h => do
        let (H, p, ph) ← scanRound p st.heap h pwWalk wWalk
        .ok ⟨⟨H, st.head, some (p, ph)⟩, [], []⟩
    | _ => .ok ⟨st, [], []⟩
  | .leave =>
    match st.pass with
    | some (p, .spin) => endPass st.heap st.head p
    | _ => .ok ⟨st, [], []⟩

/-- When a step may be taken : a thread waits once at a time, the unlocker is busy, and
timeouts and passes need the lock. -/
def Allowed (st : State n) (waiting : Finset (Fin n)) : Action n → Prop
  | .enqueue s _ => s ∉ waiting ∧ ∀ p ph, st.pass = some (p, ph) → ∀ t ∈ p.waitp, t.1 ≠ s
  | .tryRemove _ => st.pass = none
  | .unlock _ waitp => st.pass = none ∧ ∀ t ∈ waitp, t.1 ∉ waiting
  | _ => True

/-- The states reached from an empty queue, with the threads that wait. -/
inductive Reachable : State n → Finset (Fin n) → Prop
  | init (H : Heap n) : Reachable ⟨H, none, none⟩ ∅
  | step {st : State n} {waiting : Finset (Fin n)} {a : Action n} {e : Effect n} :
      Reachable st waiting → Allowed st waiting a → step st a = .ok e →
      Reachable e.state (e.waiting waiting)

/-! ## The order of the waiters -/

theorem SameOrder.refl (q : List (Fin n)) : SameOrder q q := rfl

variable {q : List (Fin n)}

/-- Some waiters go, and the unlocker comes. -/
theorem Joined.sameOrder {waitp : Option (Fin n × WaitParams)} {q' : List (Fin n)}
    {P : Fin n → Bool} (h : Joined waitp (q.filter P) q') (hself : ∀ t ∈ waitp, t.1 ∉ q) :
    SameOrder q q' := by
  have hleft : q.filter (· ∈ q') = q.filter P := by
    refine filter_congr fun x hx => ?_
    have hself' : x ∉ waitp.toList.map Prod.fst := fun hm => by
      obtain ⟨t, ht, rfl⟩ := mem_map.1 hm
      exact hself t (by simpa using ht) hx
    have hmem := h.mem_iff x
    simp only [hself', or_false, mem_filter, hx, true_and] at hmem
    rwa [Bool.eq_iff_iff, decide_eq_true_eq]
  rw [SameOrder, hleft]
  have hsub : ∀ x ∈ q.filter P, x ∈ q := fun x hx => mem_of_mem_filter hx
  cases waitp with
  | none =>
    obtain rfl : q' = q.filter P := h
    exact (filter_eq_self.2 fun x hx => by simpa using hsub x hx).symm
  | some t =>
    obtain ⟨a, b, hab, rfl⟩ := h
    rw [hab] at hsub ⊢
    rw [filter_append, filter_cons_of_neg (by simpa using hself t rfl)]
    congr 1
    all_goals exact (filter_eq_self.2 fun x hx => by simpa using hsub x (by simp [hx])).symm

theorem Entered.sameOrder {H H' : Heap n} {head : Option (Fin n)} {q' : List (Fin n)} {s h' : Fin n}
    (h : Entered True H head q s H' h' q') (hs : s ∉ q) (p : WaitParams) : SameOrder q q' := by
  have hjoin : Joined (some (s, p)) (q.filter fun _ => true) q' := by
    simpa [Joined] using h.place
  refine hjoin.sameOrder ?_
  rintro t ⟨⟩
  exact hs

/-! ## The invariant of the steps -/

/-- The state has the waiters `q`, which are the threads that wait, and the pass under way
is in order. -/
structure Inv (st : State n) (waiting : Finset (Fin n)) (q : List (Fin n)) : Prop where
  queue : Queue True st.heap st.head q
  members : ∀ x, x ∈ q ↔ x ∈ waiting
  pass : ∀ p ph, st.pass = some (p, ph) →
    PassInv st.heap q p ph ∧ ∀ t ∈ p.waitp, t.1 ∉ q

/-- A step of a state with the waiters `q` succeeds and keeps the invariant, and the order and the
keys of the waiters that stay. -/
def StepOk (H : Heap n) (q : List (Fin n)) (waiting : Finset (Fin n))
    (r : Except MutexError (Effect n)) : Prop :=
  ∃ e q', r = .ok e ∧ Inv e.state (e.waiting waiting) q' ∧ SameOrder q q' ∧
    ∀ x ∈ q, x ∈ q' → key e.state.heap x = key H x

variable {st : State n} {waiting : Finset (Fin n)}

section

variable (hi : Inv st waiting q)
include hi

theorem StepOk.stay : StepOk st.heap q waiting (.ok ⟨st, [], []⟩) :=
  ⟨_, q, rfl, ⟨hi.queue, by simpa [Effect.waiting] using hi.members, hi.pass⟩, .refl q,
    fun _ _ _ => rfl⟩

/-- The pass ends. -/
theorem endPass_spec {p : Pass n} (hself : ∀ t ∈ p.waitp, t.1 ∉ q) :
    StepOk st.heap q waiting (endPass st.heap st.head p) := by
  obtain ⟨H', head', q', henq, hq', hjoin, hkey⟩ := enqueueSelf_spec hi.queue hself
  refine ⟨⟨⟨H', head', none⟩, p.waitp.toList.map Prod.fst, []⟩, q',
    by simp only [endPass, henq, ok_bind], ⟨hq', fun x => ?_, by simp⟩, ?_,
    fun x hx _ => hkey x hx⟩
  · rw [hjoin.mem_iff x, hi.members x]
    simp [Effect.waiting]
  · exact Joined.sameOrder (P := fun _ => true) (by simpa using hjoin) hself

/-- A section under the spinlock. -/
theorem step_spin : StepOk st.heap q waiting (step st .spin) := by
  obtain ⟨H, head, pass⟩ := st
  rcases pass with _ | ⟨p, _ | ⟨pw, w⟩⟩
  · exact StepOk.stay hi
  · obtain ⟨hp, hself⟩ := hi.pass p .spin rfl
    cases head with
    | none => exact endPass_spec hi hself
    | some h =>
      rcases unlockSection_spec hi.queue hp hself with
        ⟨H', head', q', hsec, hq', hjoin, hkey⟩ | ⟨-, H', ph, k, hsec, hq', hkey, hwalk, -⟩
      · refine ⟨⟨⟨H', head', none⟩, p.waitp.toList.map Prod.fst, toWake p.truth H q⟩, q',
          by simp only [step, hsec, ok_bind, sectionEffect], ⟨hq', fun x => ?_, by simp⟩,
          hjoin.sameOrder hself, fun x hx hx' => hkey x ?_⟩
        · rw [hjoin.mem_iff x]
          simp [Effect.waiting, hi.members x]
        · refine ((hjoin.mem_iff x).1 hx').resolve_right fun hm => ?_
          obtain ⟨t, ht, rfl⟩ := mem_map.1 hm
          exact hself t (by simpa using ht) hx
      · refine ⟨⟨⟨H', some h, some ({ p with oldH := some h }, ph)⟩, [], []⟩, q,
          by simp only [step, hsec, ok_bind, sectionEffect], ⟨hq', ?_, ?_⟩, .refl q,
          fun x _ _ => congrFun hkey x⟩
        · simpa [Effect.waiting] using hi.members
        · rintro p' ph' ⟨⟩
          exact ⟨.search rfl hwalk, hself⟩
  · exact StepOk.stay hi

/-- A round of the search for a waiter to wake. -/
theorem step_scan : StepOk st.heap q waiting (step st .scan) := by
  obtain ⟨H, head, pass⟩ := st
  rcases pass with _ | ⟨p, _ | ⟨pw, w⟩⟩
  · exact StepOk.stay hi
  · exact StepOk.stay hi
  obtain ⟨hp, hself⟩ := hi.pass p _ rfl
  cases hp with
  | @search _ o f c k hold hwalk =>
    cases hwalk with
    | @walking y a b hs hf =>
      obtain ⟨H', w', pw', ph, k, hround, hq', hkey, hwalk', -⟩ := scanRound_spec hi.queue hs hf
      refine ⟨⟨⟨H', head, some ({ p with w := w', pw := pw' }, ph)⟩, [], []⟩, q,
        by simp only [step, hold, hround, ok_bind], ⟨hq', ?_, ?_⟩, .refl q,
        fun x _ _ => congrFun hkey x⟩
      · simpa [Effect.waiting] using hi.members
      · rintro p' ph' ⟨⟩
        exact ⟨.search hold hwalk', hself⟩

/-- A waiter is enqueued. -/
theorem step_enqueue {s : Fin n} {p : WaitParams} (ha : Allowed st waiting (.enqueue s p)) :
    ∃ H' h' q', step st (.enqueue s p) = .ok ⟨⟨H', some h', st.pass⟩, [s], []⟩ ∧
      Inv ⟨H', some h', st.pass⟩ (waiting ∪ {s}) q' ∧ Entered True st.heap st.head q s H' h' q' ∧
      H'.priority = Function.update st.heap.priority s p.priority ∧
      ∀ h, st.head = some h → st.heap.maybeUnlocking h = false → p.hasBlocked = false →
        ByPriority (Function.update st.heap.priority s p.priority) h s q q' := by
  obtain ⟨hs, hbusy⟩ := ha
  rw [← hi.members s] at hs
  obtain ⟨H', h', q', henq, hent, hrest⟩ := enqueue_spec p hi.queue hs
  have hmem : ∀ x, x ∈ q' ↔ x ∈ q ∨ x = s := fun x => by
    obtain ⟨a, b, rfl, rfl⟩ := hent.place
    simp
    tauto
  refine ⟨H', h', q', by simp only [step, henq, ok_bind], ⟨hent.queue, fun x => ?_, ?_⟩, hent,
    hrest⟩
  · simp [hmem x, hi.members x, or_comm]
  intro p' ph hp
  obtain ⟨hinv, hself⟩ := hi.pass p' ph hp
  refine ⟨hinv.enqueue hi.queue hent, fun t ht hm => ?_⟩
  rcases (hmem t.1).1 hm with hm | hm
  · exact hself t ht hm
  · exact hbusy p' ph hp t ht hm

/-- Every step keeps the invariant. -/
theorem step_spec {a : Action n} (ha : Allowed st waiting a) :
    StepOk st.heap q waiting (step st a) := by
  cases a with
  | enqueue s p =>
    obtain ⟨H', h', q', hstep, hi', hent, -⟩ := step_enqueue hi ha
    refine ⟨_, q', hstep, by simpa [Effect.waiting] using hi', hent.sameOrder ?_ p,
      fun x hx _ => hent.key x hx⟩
    rw [hi.members]
    exact ha.1
  | tryRemove s =>
    have hpass : st.pass = none := ha
    obtain ⟨H', hrem, hq', hkey⟩ := tryRemove_spec s hi.queue
    have hfilter := hi.queue.nodup.erase_eq_filter s
    refine ⟨⟨⟨H', (q.erase s).getLast?, st.pass⟩, [], [s]⟩, q.erase s,
      by simp only [step, hrem, ok_bind], ⟨hq', fun x => ?_, ?_⟩, ?_, fun x _ _ => congrFun hkey x⟩
    · simp [Effect.waiting, hi.queue.nodup.mem_erase_iff, hi.members x, and_comm]
    · simp [hpass]
    · have hjoin : Joined none (q.filter fun x => x != s) (q.erase s) := hfilter
      exact hjoin.sameOrder (by simp)
  | unlock truth waitp =>
    obtain ⟨-, hself⟩ := ha
    refine ⟨_, q, rfl, ⟨hi.queue, by simpa [Effect.waiting] using hi.members, ?_⟩, .refl q,
      fun _ _ _ => rfl⟩
    rintro p ph ⟨⟩
    exact ⟨.start rfl rfl rfl, fun t ht hm => hself t ht ((hi.members _).1 hm)⟩
  | spin => exact step_spin hi
  | scan => exact step_scan hi
  | leave =>
    obtain ⟨H, head, pass⟩ := st
    rcases pass with _ | ⟨p, _ | ⟨pw, w⟩⟩
    · exact StepOk.stay hi
    · exact endPass_spec hi (hi.pass p .spin rfl).2
    · exact StepOk.stay hi

end

/-- Every reachable state keeps the invariant. -/
theorem Reachable.inv (h : Reachable st waiting) : ∃ q, Inv st waiting q := by
  induction h with
  | init H => exact ⟨[], ⟨⟨rfl, isRing_nil, trivial⟩, by simp, by simp⟩⟩
  | step _ ha hstep ih =>
    obtain ⟨q, hi⟩ := ih
    obtain ⟨e', q', hstep', hi', -⟩ := step_spec hi ha
    rw [hstep] at hstep'
    obtain rfl := Except.ok.inj hstep'
    exact ⟨q', hi'⟩

/-! ## The queue in every reachable state -/

/-- The waiters of a state, first to last, and what is true of its pointers. -/
structure WaiterQueue (st : State n) (waiting : Finset (Fin n)) (q : List (Fin n)) : Prop where
  /-- `head` is the last waiter of the circular list. -/
  last : st.head = q.getLast?
  ring : IsRing st.heap.next q
  members : ∀ x, x ∈ q ↔ x ∈ waiting
  /-- A skip leads to a later waiter, past waiters alike. -/
  skip : ∀ x ∈ q, ∀ y, st.heap.skip x = some y → ∃ a b c, q = a ++ x :: (b ++ y :: c) ∧
    ∀ z ∈ b ++ [y], muEquivalentWaiter st.heap x z = true
  skip_last : ∀ h, st.head = some h → st.heap.skip h = none

/-- What the invariant says of the queue. -/
theorem Inv.waiterQueue (hi : Inv st waiting q) : WaiterQueue st waiting q where
  last := hi.queue.last
  ring := hi.queue.ring
  members := hi.members
  skip x hx y hy := by
    have hs := hi.queue.skips
    obtain ⟨a, b, rfl⟩ := append_of_mem hx
    obtain ⟨c, d, rfl, hc, -⟩ := hs.at hy
    exact ⟨a, c, d, rfl, fun z hz => muEquivalentWaiter_iff.2 (hc z hz)⟩
  skip_last h hh := by
    have hq := hi.queue
    rw [hh] at hq
    exact hq.skip_last

/-- In every reachable state the queue is a circular list of exactly the threads that
wait, with sound skips, and every step succeeds, keeps that, and keeps the order of the
waiters that stay. -/
theorem waiting_queue {st : State n} {waiting : Finset (Fin n)} (h : Reachable st waiting) :
    ∃ q, WaiterQueue st waiting q ∧
      ∀ a, Allowed st waiting a → ∃ e q', step st a = .ok e ∧
        WaiterQueue e.state (e.waiting waiting) q' ∧ SameOrder q q' := by
  obtain ⟨q, hi⟩ := h.inv
  refine ⟨q, hi.waiterQueue, fun a ha => ?_⟩
  obtain ⟨e, q', hstep, hi', horder, -⟩ := step_spec hi ha
  exact ⟨e, q', hstep, hi'.waiterQueue, horder⟩

/-- A reader that comes to wait for the first time. -/
def reader : WaitParams := ⟨.kShared, none, 0, false, false⟩

/-- No thread waits. -/
def noWaiters : State 3 :=
  ⟨⟨fun _ => none, fun _ => none, fun _ => false, fun _ => false, fun _ => false, fun _ => false,
    fun _ => 0, fun _ => .kShared, fun _ => none, fun _ => false⟩, none, none⟩

/-- Two readers have come to wait. -/
def twoReaders : Except MutexError (Effect 3) := do
  let e ← step noWaiters (.enqueue 0 reader)
  step e.state (.enqueue 1 reader)

theorem twoReaders_reachable :
    ∃ e, twoReaders = .ok e ∧ Reachable e.state {0, 1} ∧ e.state.heap.skip 0 = some 1 := by
  have h0 : Reachable noWaiters ∅ := .init _
  have h1 := Reachable.step (a := .enqueue 0 reader) h0 ⟨by decide, by simp [noWaiters]⟩ rfl
  have h2 := Reachable.step (a := .enqueue 1 reader) h1
    ⟨by decide, by rintro p ph ⟨⟩⟩ rfl
  exact ⟨_, rfl, h2, rfl⟩

theorem waiting_queue_twoReaders : ∃ e, twoReaders = .ok e ∧ ∃ q, WaiterQueue e.state {0, 1} q ∧
      ∀ a, Allowed e.state {0, 1} a → ∃ e' q', step e.state a = .ok e' ∧
        WaiterQueue e'.state (e'.waiting {0, 1}) q' ∧ SameOrder q q' := by
  obtain ⟨e, he, hr, -⟩ := twoReaders_reachable
  exact ⟨e, he, waiting_queue hr⟩

/-! ## A pass that runs alone -/

/-- A step of a pass, until it has ended. -/
def passRound (st : State n) :
    Except MutexError (Round (State n) (State n × List (Fin n))) :=
  match st.pass with
  | none => .ok (.done (st, []))
  | some (_, .spin) => do
    let e ← step st .spin
    .ok (if e.state.pass.isNone then .done (e.state, e.left) else .next e.state)
  | some (_, .scan _ _) => do
    let e ← step st .scan
    .ok (.next e.state)

/-- `UnlockSlow` with nothing in between : the state after it and the waiters woken. -/
def unlockSlow (st : State n) (truth : Condition → Bool) (waitp : Option (Fin n × WaitParams)) :
    Except MutexError (State n × List (Fin n)) := do
  let e ← step st (.unlock truth waitp)
  runLoop .endlessLoop passRound (n + 2) e.state

section Alone

variable {H₀ : Heap n} {q : List (Fin n)} {truth : Condition → Bool}
  {waitp : Option (Fin n × WaitParams)}

/-- A pass over the waiters `q`, to which none come : it is at its start or walks, with a
number of waiters to go. -/
structure Alone (H₀ : Heap n) (q : List (Fin n)) (truth : Condition → Bool)
    (waitp : Option (Fin n × WaitParams)) (rest : ℕ) (st : State n) : Prop where
  queue : Queue True st.heap st.head q
  key : key st.heap = key H₀
  pass : ∃ p ph, st.pass = some (p, ph) ∧ p.truth = truth ∧ p.waitp = waitp ∧
    ((ph = .spin ∧ p.oldH = none ∧ p.w = none ∧ p.pw = none ∧ rest = q.length + 1) ∨
      ∃ o, p.oldH = some o ∧ Walk st.heap q p o [] [] rest ph)

/-- The pass has ended and has woken whom it should. -/
structure Ended (H₀ : Heap n) (q : List (Fin n)) (truth : Condition → Bool)
    (waitp : Option (Fin n × WaitParams)) (t : State n × List (Fin n)) : Prop where
  pass : t.1.pass = none
  woken : t.2 = toWake truth H₀ q
  queue : ∃ q', Queue True t.1.heap t.1.head q' ∧ Joined waitp (q.filter (· ∉ t.2)) q'

/-- A section of the pass under the spinlock. -/
theorem passRound_spin {H : Heap n} {head : Option (Fin n)} {p : Pass n} {k : ℕ}
    (hq : Queue True H head q) (hkey : key H = key H₀) (hp : PassInv H q p .spin)
    (hself : ∀ t ∈ p.waitp, t.1 ∉ q) (hk : p.oldH ≠ head → q.length < k) :
    (∃ t, passRound ⟨H, head, some (p, .spin)⟩ = .ok (.done t) ∧ Ended H₀ q p.truth p.waitp t) ∨
      ∃ st' k', passRound ⟨H, head, some (p, .spin)⟩ = .ok (.next st') ∧
        Alone H₀ q p.truth p.waitp k' st' ∧ k' < k := by
  cases head with
  | none =>
    obtain rfl : q = [] := getLast?_eq_none_iff.1 hq.last.symm
    obtain ⟨H', head', q', henq, hq', hjoin, -⟩ := enqueueSelf_spec hq hself
    refine .inl ⟨(⟨H', head', none⟩, []), by simp [passRound, step, endPass, henq], rfl, rfl, ?_⟩
    exact ⟨q', hq', by simpa using hjoin⟩
  | some h =>
    rcases unlockSection_spec hq hp hself with
      ⟨H', head', q', hsec, hq', hjoin, -⟩ | ⟨hold, H', ph, k', hsec, hq', hkey', hwalk, hk'⟩
    · rw [toWake_congr hkey] at hsec hjoin
      exact .inl ⟨(⟨H', head', none⟩, toWake p.truth H₀ q),
        by simp [passRound, step, hsec, sectionEffect], rfl, rfl, q', hq', hjoin⟩
    · refine .inr ⟨⟨H', some h, some ({ p with oldH := some h }, ph)⟩, k',
        by simp [passRound, step, hsec, sectionEffect], ⟨hq', hkey'.trans hkey, ?_⟩, ?_⟩
      · exact ⟨_, _, rfl, rfl, rfl, .inr ⟨h, rfl, hwalk⟩⟩
      · have := hk hold
        omega

/-- A round of the pass. -/
theorem passRound_spec (hself : ∀ t ∈ waitp, t.1 ∉ q) (k : ℕ) (st : State n)
    (hst : Alone H₀ q truth waitp k st) :
    (∃ t, passRound st = .ok (.done t) ∧ Ended H₀ q truth waitp t) ∨
      ∃ st' k', passRound st = .ok (.next st') ∧ Alone H₀ q truth waitp k' st' ∧ k' < k := by
  obtain ⟨H, head, pass⟩ := st
  obtain ⟨hq, hkey, p, ph, rfl, rfl, rfl, ⟨rfl, hold, hw, hpw, rfl⟩ | ⟨o, hold, hwalk⟩⟩ := hst
  · exact passRound_spin hq hkey (.start hold hw hpw) hself fun _ => Nat.lt_succ_self _
  -- With nothing come to the back the terminator is the last waiter.
  have hspin : ∀ {a b}, Search H q o [] a b [] → p.oldH = head := fun hs => by
    have hl := hs.last
    rw [hold, ← hl, show head = q.getLast? from hq.last, hs.split]
    simp
  cases hwalk with
  | @walking y a b hs hf =>
    obtain ⟨H', w', pw', ph, k, hround, hq', hkey', hwalk', hk⟩ := scanRound_spec hq hs hf
    refine .inr ⟨⟨H', head, some ({ p with w := w', pw := pw' }, ph)⟩, k,
      by simp [passRound, step, hold, hround], ⟨hq', hkey'.trans hkey, ?_⟩, by omega⟩
    exact ⟨_, _, rfl, rfl, rfl, .inr ⟨o, hold, hwalk'⟩⟩
  | walked hs hf =>
    exact passRound_spin hq hkey (.search hold (.walked hs hf)) hself fun h => absurd (hspin hs) h
  | writer hs hf hhow =>
    exact passRound_spin hq hkey (.search hold (.writer hs hf hhow)) hself
      fun h => absurd (hspin hs) h

/-- A pass that runs alone, from any reachable state, wakes `toWake` of the queue in its
order and takes nothing else from the queue. -/
theorem unlockSlow_wakes {st : State n} {waiting : Finset (Fin n)} (h : Reachable st waiting)
    (truth : Condition → Bool) (waitp : Option (Fin n × WaitParams))
    (hself : ∀ t ∈ waitp, t.1 ∉ waiting) : ∃ q, WaiterQueue st waiting q ∧ ∃ st' q',
      unlockSlow st truth waitp = .ok (st', toWake truth st.heap q) ∧ st'.pass = none ∧
      WaiterQueue st' ((waiting \ (toWake truth st.heap q).toFinset) ∪
        (waitp.toList.map Prod.fst).toFinset) q' ∧
      Joined waitp (q.filter (· ∉ toWake truth st.heap q)) q' := by
  obtain ⟨q, hi⟩ := h.inv
  have hself' : ∀ t ∈ waitp, t.1 ∉ q := fun t ht hm => hself t ht ((hi.members _).1 hm)
  have hlen := hi.queue.length_le
  obtain ⟨⟨st', woken⟩, hloop, hpass, hwoken, q', hq', hjoin⟩ :=
    runLoop_total MutexError.endlessLoop
      (fun k t ht => passRound_spec hself' k t ht) (n + 2) _
      { st with pass := some _ }
      ⟨hi.queue, rfl, ⟨truth, waitp, none, none, none⟩, _, rfl, rfl, rfl,
        .inl ⟨rfl, rfl, rfl, rfl, rfl⟩⟩ (by omega)
  dsimp only at hpass hwoken hq' hjoin
  subst hwoken
  have hi' : Inv st' ((waiting \ (toWake truth st.heap q).toFinset) ∪
      (waitp.toList.map Prod.fst).toFinset) q' := by
    refine ⟨hq', fun x => ?_, by simp [hpass]⟩
    rw [hjoin.mem_iff x]
    simp [hi.members x]
  exact ⟨q, hi.waiterQueue, st', q', hloop, hpass, hi'.waiterQueue, hjoin⟩

theorem unlockSlow_wakes_twoReaders :
    ∃ e, twoReaders = .ok e ∧ ∃ q, WaiterQueue e.state {0, 1} q ∧ ∃ st' q',
      unlockSlow e.state (fun _ => true) (some (2, reader)) =
        .ok (st', toWake (fun _ => true) e.state.heap q) ∧ st'.pass = none ∧
      WaiterQueue st' (({0, 1} \ (toWake (fun _ => true) e.state.heap q).toFinset) ∪ {2}) q' ∧
      Joined (some (2, reader)) (q.filter (· ∉ toWake (fun _ => true) e.state.heap q)) q' := by
  obtain ⟨e, he, hr, -⟩ := twoReaders_reachable
  exact ⟨e, he, unlockSlow_wakes hr (fun _ => true) _ (by rintro t ⟨⟩; decide)⟩

end Alone

end Abseil.Mutex
