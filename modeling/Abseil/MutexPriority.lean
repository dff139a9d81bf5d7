import Abseil.MutexRun

/-!
# The order of the waiters

Without `kMuHasBlocked`, and while no unlocker may be searching the queue, `Enqueue` puts a
waiter before the first one of a lower priority if the last waiter has a lower one, and at the
back otherwise. A queue built by such calls and by steps that only take waiters out of it, timeouts
and passes of unlockers, stands by falling priority, and among equal priorities by arrival
(`enqueue_priorityFifo`).
-/

open LinkedRing

namespace Abseil.Mutex

open Function List

variable {n : ℕ}

/-! ## Priority, then arrival -/

variable {priority : Fin n → ℤ} {h s : Fin n} {q q' arrivals : List (Fin n)}

/-- The waiters `q` stand by falling priority, those of one priority as they arrived. -/
structure PriorityFifo (priority : Fin n → ℤ) (arrivals q : List (Fin n)) : Prop where
  sorted : q.Pairwise fun x y => priority y ≤ priority x
  fifo : ∀ c, q.filter (priority · = c) = arrivals.filter (priority · = c)

/-- A waiter whose priority is not higher goes to the back. -/
theorem PriorityFifo.back (hq : PriorityFifo priority arrivals q)
    (hs : ∀ x ∈ q, priority s ≤ priority x) :
    PriorityFifo priority (arrivals ++ [s]) (q ++ [s]) where
  sorted := pairwise_append.2 ⟨hq.sorted, pairwise_singleton .., by simpa using hs⟩
  fifo c := by simp [hq.fifo c]

theorem ByPriority.congr {f : Fin n → ℤ} (hplace : ByPriority f h s q q') (hh : h ∈ q)
    (hf : ∀ x, x ∈ q ∨ x = s → f x = priority x) : ByPriority priority h s q q' := by
  obtain ⟨hbefore, hback⟩ := hplace
  rw [hf h (.inl hh), hf s (.inr rfl)] at hbefore hback
  refine ⟨fun hlt => ?_, hback⟩
  obtain ⟨a, y, b, rfl, rfl, ha, hy⟩ := hbefore hlt
  refine ⟨a, y, b, rfl, rfl, fun x hx => ?_, ?_⟩
  · rw [← hf x (.inl (by simp [hx]))]
    exact ha x hx
  · rwa [← hf y (.inl (by simp))]

section

variable (hq : PriorityFifo priority arrivals q)
include hq

/-- A waiter goes where its priority says. -/
theorem PriorityFifo.insert (hlast : q.getLast? = some h) (hplace : ByPriority priority h s q q') :
    PriorityFifo priority (arrivals ++ [s]) q' := by
  rcases lt_or_ge (priority h) (priority s) with hlt | hle
  · obtain ⟨a, y, b, rfl, rfl, ha, hy⟩ := hplace.1 hlt
    obtain ⟨hsa, hsb, hab⟩ := pairwise_append.1 hq.sorted
    have hlow : ∀ x ∈ y :: b, priority x < priority s :=
      forall_mem_cons.2 ⟨hy, fun x hx => ((pairwise_cons.1 hsb).1 x hx).trans_lt hy⟩
    refine ⟨pairwise_append.2 ⟨hsa, pairwise_cons.2 ⟨fun x hx => (hlow x hx).le, hsb⟩,
      fun x hx => forall_mem_cons.2 ⟨ha x hx, hab x hx⟩⟩, fun c => ?_⟩
    rw [filter_append arrivals, ← hq.fifo c]
    by_cases hc : priority s = c
    · have hnone : (y :: b).filter (priority · = c) = [] :=
        filter_eq_nil_iff.2 fun x hx => by simpa [← hc] using (hlow x hx).ne
      simp [hnone, hc]
    · simp [hc]
  · obtain rfl := hplace.2 hle
    obtain ⟨a, rfl⟩ := getLast?_eq_some_iff.1 hlast
    refine hq.back fun x hx => hle.trans ?_
    rcases mem_append.1 hx with hx | hx
    · exact (pairwise_append.1 hq.sorted).2.2 x hx h (by simp)
    · rw [mem_singleton.1 hx]

/-- Removals keep the order. -/
theorem PriorityFifo.filter (keep : Fin n → Bool) :
    PriorityFifo priority (arrivals.filter keep) (q.filter keep) where
  sorted := hq.sorted.filter keep
  fifo c := by rw [filter_comm, hq.fifo c, filter_comm]

theorem PriorityFifo.mem_iff (x : Fin n) : x ∈ q ↔ x ∈ arrivals := by
  have hmem := congrArg (x ∈ ·) (hq.fifo (priority x))
  simpa using hmem

end

/-- The runs from an empty queue in which threads come to wait only by `Enqueue` without
`kMuHasBlocked`, each with its own priority and while no unlocker may be searching, with the waiters
as they arrived. The other steps remove waiters or leave the queue as it is. -/
inductive Served (priority : Fin n → ℤ) : State n → List (Fin n) → Prop
  | init (H : Heap n) : Served priority ⟨H, none, none⟩ []
  | enqueue {st : State n} {arrivals : List (Fin n)} {s : Fin n} {p : WaitParams} {e : Effect n}
      (hserved : Served priority st arrivals)
      (hallowed : Allowed st arrivals.toFinset (.enqueue s p)) (hprio : p.priority = priority s)
      (hblocked : p.hasBlocked = false)
      (hunlocking : ∀ h ∈ st.head, st.heap.maybeUnlocking h = false)
      (hstep : step st (.enqueue s p) = .ok e) : Served priority e.state (arrivals ++ [s])
  | remove {st : State n} {arrivals : List (Fin n)} {a : Action n} {e : Effect n}
      (hserved : Served priority st arrivals) (hallowed : Allowed st arrivals.toFinset a)
      (hstep : step st a = .ok e) (hentered : e.entered = []) :
      Served priority e.state (arrivals.filter (· ∉ e.left))

/-- What a step that lets nobody in leaves of the queue. -/
theorem SameOrder.eq_filter {left : List (Fin n)} (horder : SameOrder q q')
    (hmem : ∀ x, x ∈ q' ↔ x ∈ q ∧ x ∉ left) : q' = q.filter (· ∉ left) := by
  have hall : q'.filter (· ∈ q) = q' := filter_eq_self.2 fun x hx => by
    simpa using ((hmem x).1 hx).1
  rw [← hall, ← horder]
  exact filter_congr fun x hx => by simp [hmem x, hx]

variable {st : State n}

/-- Along such runs the queue is in order of priority and arrival. -/
theorem Served.inv (hserved : Served priority st arrivals) : ∃ q, Inv st arrivals.toFinset q ∧
    (∀ x ∈ q, st.heap.priority x = priority x) ∧ PriorityFifo priority arrivals q := by
  induction hserved with
  | init H => exact ⟨[], ⟨⟨rfl, isRing_nil, trivial⟩, by simp, by simp⟩, by simp, by simp, by simp⟩
  | @enqueue st arrivals s p e _ hallowed hprio hblocked hunlocking hstep ih =>
    obtain ⟨q, hi, hconst, hfifo⟩ := ih
    obtain ⟨H', h', q', hstep', hi', hent, hprio', hplace⟩ := step_enqueue hi hallowed
    obtain rfl := Except.ok.inj (hstep.symm.trans hstep')
    have hsq : s ∉ q := fun h => hallowed.1 ((hi.members s).1 h)
    have hconst' : ∀ x, x ∈ q ∨ x = s → update st.heap.priority s p.priority x = priority x := by
      rintro x (hx | rfl)
      · rw [update_of_ne (ne_of_mem_of_not_mem hx hsq), hconst x hx]
      · rw [update_self, hprio]
    refine ⟨q', by simpa using hi', fun x hx => ?_, ?_⟩
    · obtain ⟨a, b, rfl, rfl⟩ := hent.place
      rw [hprio', hconst' x (by simp at hx ⊢; tauto)]
    cases hhead : st.head with
    | none =>
      obtain rfl : q = [] := getLast?_eq_none_iff.1 (hi.queue.last.symm.trans hhead)
      obtain ⟨a, b, hab, rfl⟩ := hent.place
      obtain ⟨rfl, rfl⟩ := append_eq_nil_iff.1 hab.symm
      exact hfifo.back (by simp)
    | some h =>
      have hlast := hi.queue.last.symm.trans hhead
      exact hfifo.insert hlast ((hplace h hhead (hunlocking h hhead) hblocked).congr
        (mem_of_getLast? hlast) hconst')
  | @remove st arrivals a e _ hallowed hstep hentered ih =>
    obtain ⟨q, hi, hconst, hfifo⟩ := ih
    obtain ⟨e', q', hstep', hi', horder, hkey⟩ := step_spec hi hallowed
    obtain rfl := Except.ok.inj (hstep.symm.trans hstep')
    have hmem : ∀ x, x ∈ q' ↔ x ∈ q ∧ x ∉ e.left := fun x => by
      simp [hi'.members x, Effect.waiting, hentered, hi.members x]
    obtain rfl := horder.eq_filter hmem
    refine ⟨_, ⟨hi'.queue, fun x => ?_, hi'.pass⟩, fun x hx => ?_, hfifo.filter _⟩
    · simp [hi.members x]
    · have hx' := mem_of_mem_filter hx
      rw [← hconst x hx']
      exact congrArg (·.2.1) (hkey x hx' hx)

/-- `Enqueue` terminates and puts a waiter where its priority says, in every queue with the
invariant that the source states, and the queues that such calls and any removals lead to are
sorted by priority, then by arrival. -/
theorem enqueue_priorityFifo :
    (∀ (H : Heap n) (h : Fin n) (q : List (Fin n)) (s : Fin n) (p : WaitParams),
      Queue False H (some h) q → s ∉ q → H.maybeUnlocking h = false → p.hasBlocked = false →
        ∃ H' h' q', enqueue H (some h) s p = .ok (H', h') ∧ Queue False H' (some h') q' ∧
          ByPriority (update H.priority s p.priority) h s q q') ∧
      ∀ (priority : Fin n → ℤ) (st : State n) (arrivals : List (Fin n)),
        Served priority st arrivals → ∃ q, WaiterQueue st arrivals.toFinset q ∧
          PriorityFifo priority arrivals q := by
  refine ⟨fun H h q s p hq hs hunlocking hblocked => ?_, fun priority st arrivals hserved => ?_⟩
  · obtain ⟨H', h', q', henq, hent, -, hplace⟩ := enqueue_spec p hq hs
    exact ⟨H', h', q', henq, hent.queue, hplace h rfl hunlocking hblocked⟩
  · obtain ⟨q, hi, -, hfifo⟩ := hserved.inv
    exact ⟨q, hi.waiterQueue, hfifo⟩

/-- A writer that comes to wait for the first time. -/
def writer (priority : ℤ) : WaitParams := ⟨.kExclusive, none, priority, false, false⟩

/-- Three writers wait, of whom the first skips past one that does not skip. -/
def looseSkip : Heap 4 :=
  ⟨![some 1, some 2, some 0, none], ![some 2, none, none, none], fun _ => true, fun _ => false,
    fun _ => false, fun _ => false, fun _ => 0, fun _ => .kExclusive, fun _ => none, fun _ => true⟩

theorem looseSkip_queue : Queue False looseSkip (some 2) [0, 1, 2] := by
  refine ⟨rfl, ⟨by decide, by simp [looseSkip]⟩, fun y hy => ?_, by simp [Skips, looseSkip]⟩
  obtain rfl : 2 = y := by simpa [looseSkip] using hy
  exact ⟨[1], [], rfl, fun _ _ => rfl, False.elim⟩

/-- A second writer passes the first, a third one does not, and the first gives up. -/
def afterTimeout (a b c : Fin 3) : Except MutexError (Effect 3) := do
  let e ← step noWaiters (.enqueue a (writer 1))
  let e ← step e.state (.enqueue b (writer 2))
  let e ← step e.state (.enqueue c (writer 1))
  step e.state (.tryRemove a)

theorem afterTimeout_served :
    ∃ e, afterTimeout 0 1 2 = .ok e ∧ Served ![1, 2, 1] e.state [1, 2] := by
  have h0 : Served ![1, 2, 1] noWaiters [] := .init _
  have h1 := h0.enqueue (s := 0) (p := writer 1) ⟨by decide, by rintro p ph ⟨⟩⟩ rfl rfl
    (by rintro h ⟨⟩) rfl
  have h2 := h1.enqueue (s := 1) (p := writer 2) ⟨by decide, by rintro p ph ⟨⟩⟩ rfl rfl
    (by rintro h ⟨⟩; rfl) rfl
  have h3 := h2.enqueue (s := 2) (p := writer 1) ⟨by decide, by rintro p ph ⟨⟩⟩ rfl rfl
    (by rintro h ⟨⟩; rfl) rfl
  exact ⟨_, rfl, h3.remove (a := .tryRemove 0) rfl rfl rfl⟩

theorem enqueue_priorityFifo_writers :
    (∃ H' h' q', enqueue looseSkip (some 2) 3 (writer 1) = .ok (H', h') ∧
      Queue False H' (some h') q' ∧
      ByPriority (update looseSkip.priority 3 1) 2 3 [0, 1, 2] q') ∧
    ∃ e, afterTimeout 0 1 2 = .ok e ∧ ∃ q, WaiterQueue e.state {1, 2} q ∧
      PriorityFifo ![1, 2, 1] [1, 2] q := by
  obtain ⟨e, he, hserved⟩ := afterTimeout_served
  exact ⟨enqueue_priorityFifo.1 looseSkip 2 [0, 1, 2] 3 (writer 1) looseSkip_queue (by decide) rfl
    rfl, e, he, enqueue_priorityFifo.2 _ _ _ hserved⟩

end Abseil.Mutex
