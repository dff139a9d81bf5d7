import Mathlib.Tactic

/-!
# Programs whose operations throw

A program changes a state and ends normally, with an exception, or in a fault, which is what it must
never do. Operations that may throw `tick`. A schedule says which of them do : how many succeed
before one throws, how many then succeed in the handlers before the next one throws, and so on. With
the empty schedule none throws. An exception that leaves a handler goes on in place of the one that
the handler ran for.

`Runs m s Q E` says that, on every schedule, `m` does not end in a fault when it starts in `s`, that
it ends in `Q` or is left by an exception in `E`, and that it is left by an exception only if the
schedule has one. `RunsAt` says this of one schedule. `Costs m s n` says how often `m` ticks,
`Counts` what it leaves when a certain one of them throws, and `Ends m s Q` that `m` ends in `Q` if
it ends normally at all. The rules follow the ways in which programs are put together.
-/

namespace Throwing

variable {σ α β : Type}

/-- The end of a program : with a result, with an exception, or in a fault. -/
inductive Out (σ α : Type)
  | ok (a : α) (count : List ℕ) (s : σ)
  | thrown (count : List ℕ) (s : σ)
  | fault

/-- The state in which a program ended, with a result or an exception. -/
def Out.EndsIn (s' : σ) : Out σ α → Prop
  | .ok _ _ s => s = s'
  | .thrown _ s => s = s'
  | .fault => False

/-- Programs over a state, with the schedule. -/
def Prog (σ α : Type) := List ℕ → σ → Out σ α

namespace Prog

/-- Nothing happens. -/
def pure (a : α) : Prog σ α := fun count s => .ok a count s

/-- One program after the other, unless it throws. -/
def bind (m : Prog σ α) (f : α → Prog σ β) : Prog σ β := fun count s =>
  match m count s with
  | .ok a count s => f a count s
  | .thrown count s => .thrown count s
  | .fault => .fault

instance : Monad (Prog σ) where
  pure := Prog.pure
  bind := Prog.bind

/-- The operation that may throw. -/
def tick : Prog σ Unit := fun count s =>
  match count with
  | [] => .ok () [] s
  | 0 :: count => .thrown count s
  | (k + 1) :: count => .ok () (k :: count) s

/-- An operation that does not throw. -/
def lift (f : σ → Option (α × σ)) : Prog σ α := fun count s =>
  match f s with
  | some (a, s) => .ok a count s
  | none => .fault

/-- The handler runs on an exception, which then goes on. -/
def onThrow (m : Prog σ α) (handler : Prog σ Unit) : Prog σ α := fun count s =>
  match m count s with
  | .ok a count s => .ok a count s
  | .thrown count s =>
    match handler count s with
    | .ok _ count s => .thrown count s
    | .thrown count s => .thrown count s
    | .fault => .fault
  | .fault => .fault

/-- The body for each number below `n`. -/
def loop (body : ℕ → Prog σ Unit) : ℕ → Prog σ Unit
  | 0 => pure ()
  | n + 1 => (loop body n).bind fun _ => body n

end Prog

open Prog

/-- The end of a program that started with the schedule `count`. -/
def Out.Sat (count : List ℕ) (Q : α → σ → Prop) (E : σ → Prop) : Out σ α → Prop
  | .ok a count' s => Q a s ∧ (count = [] → count' = [])
  | .thrown _ s => E s ∧ count ≠ []
  | .fault => False

/-- A program on one schedule. -/
def RunsAt (count : List ℕ) (m : Prog σ α) (s : σ) (Q : α → σ → Prop) (E : σ → Prop) : Prop :=
  (m count s).Sat count Q E

/-- A program on every schedule. -/
def Runs (m : Prog σ α) (s : σ) (Q : α → σ → Prop) (E : σ → Prop) : Prop :=
  ∀ count, RunsAt count m s Q E

/-! ## Rules -/

variable {handler : Prog σ Unit} {Q' : α → σ → Prop} {E' : σ → Prop} {g : σ → Option (α × σ)}
  {a : α} {s' : σ} {R : β → σ → Prop}

section Rules

variable {m : Prog σ α} {f : α → Prog σ β} {s : σ} {Q : α → σ → Prop} {E : σ → Prop}
  {count : List ℕ}

/-- Weaker conditions are met too. -/
theorem RunsAt.mono (h : RunsAt count m s Q E) (hQ : ∀ a s, Q a s → Q' a s)
    (hE : ∀ s, E s → E' s) : RunsAt count m s Q' E' := by
  unfold RunsAt at h ⊢
  generalize m count s = o at h ⊢
  cases o with
  | ok a count' s => exact ⟨hQ a s h.1, h.2⟩
  | thrown _ s => exact ⟨hE s h.1, h.2⟩
  | fault => exact h

/-- The rest of a program starts with what is left of the schedule. -/
theorem RunsAt.bind (h : RunsAt count m s Q E) (hf : ∀ a s, Q a s → Runs (f a) s R E) :
    RunsAt count (m >>= f) s R E := by
  change (Prog.bind m f count s).Sat count R E
  unfold RunsAt at h
  rw [Prog.bind]
  rcases hr : m count s with ⟨a, count', s'⟩ | ⟨_, s'⟩ | _ <;> rw [hr] at h
  · have hfa := hf a s' h.1 count'
    unfold RunsAt at hfa
    dsimp only
    rcases hr' : f a count' s' with ⟨b, count'', s''⟩ | ⟨_, s''⟩ | _ <;> rw [hr'] at hfa
    · exact ⟨hfa.1, fun hnil => hfa.2 (h.2 hnil)⟩
    · exact ⟨hfa.1, fun hnil => hfa.2 (h.2 hnil)⟩
    · exact hfa
  · exact h
  · exact h

/-- An operation that does not throw leaves the schedule as it was. -/
theorem lift_bind_eq (hg : g s = some (a, s')) (count : List ℕ) :
    (Prog.lift g >>= f) count s = f a count s' := by
  change Prog.bind (Prog.lift g) f count s = _
  rw [Prog.bind, Prog.lift, hg]

/-- An exception ends the whole program. -/
theorem thrown_bind_eq {count' : List ℕ} (h : m count s = .thrown count' s') :
    (m >>= f) count s = .thrown count' s' := by
  change Prog.bind m f count s = _
  rw [Prog.bind, h]

theorem RunsAt.lift_bind (hg : g s = some (a, s')) (hf : RunsAt count (f a) s' R E) :
    RunsAt count (Prog.lift g >>= f) s R E := by
  rwa [RunsAt, lift_bind_eq hg]

theorem Runs.mono (h : Runs m s Q E)
    (hQ : ∀ a s, Q a s → Q' a s) (hE : ∀ s, E s → E' s) : Runs m s Q' E' :=
  fun count => (h count).mono hQ hE

theorem Runs.imp (h : Runs m s Q E) (hQ : ∀ a s, Q a s → Q' a s) :
    Runs m s Q' E := h.mono hQ fun _ h => h

theorem Runs.throws (h : Runs m s Q E) (hE : ∀ s, E s → E' s) : Runs m s Q E' :=
  h.mono (fun _ _ h => h) hE

/-- A program that ends in one state only. -/
theorem Runs.imp_eq {m : Prog σ Unit} {s' : σ} {Q : Unit → σ → Prop}
    (h : Runs m s (fun _ t => t = s') E) (hQ : Q () s') : Runs m s Q E :=
  h.imp fun _ _ ht => ht ▸ hQ

theorem Runs.pure (h : Q a s) : Runs (Pure.pure a) s Q E := fun _ => ⟨h, id⟩

/-- The rule of sequence : a throw in either part ends in `E`. -/
theorem Runs.bind (h : Runs m s Q E)
    (hf : ∀ a s, Q a s → Runs (f a) s R E) : Runs (m >>= f) s R E :=
  fun count => (h count).bind hf

theorem Runs.bind_eq {m : Prog σ Unit} {f : Unit → Prog σ β} {u : σ} {R : β → σ → Prop}
    (h : Runs m s (fun _ t => t = u) E) (hf : Runs (f ()) u R E) : Runs (m >>= f) s R E :=
  h.bind fun _ _ ht => ht ▸ hf

/-- A tick throws or does nothing. -/
theorem Runs.tick {Q : Unit → σ → Prop} (hQ : Q () s) (hE : E s) : Runs tick s Q E := by
  intro count
  rcases count with _ | ⟨_ | k, count⟩
  · exact ⟨hQ, id⟩
  · exact ⟨hE, by simp⟩
  · exact ⟨hQ, by simp⟩

theorem Runs.tick_bind {f : Unit → Prog σ β} (hE : E s) (hf : Runs (f ()) s R E) :
    Runs (Prog.tick >>= f) s R E := Runs.bind_eq (Runs.tick rfl hE) hf

theorem Runs.lift (hg : g s = some (a, s')) (hQ : Q a s') : Runs (lift g) s Q E := by
  intro count
  rw [RunsAt, Prog.lift, hg]
  exact ⟨hQ, id⟩

theorem Runs.pure_bind (hf : Runs (f a) s R E) :
    Runs (Pure.pure a >>= f) s R E := hf

theorem Runs.lift_bind
    (hg : g s = some (a, s')) (hf : Runs (f a) s' R E) : Runs (Prog.lift g >>= f) s R E :=
  fun count => RunsAt.lift_bind hg (hf count)

/-- What a handler leaves, also if it throws, is what the exception leaves. -/
theorem Runs.onThrow {G : σ → Prop} (h : Runs m s Q G)
    (hhandler : ∀ s, G s → Runs handler s (fun _ => E) E) : Runs (onThrow m handler) s Q E := by
  intro count
  have hm := h count
  rw [RunsAt, Prog.onThrow]
  unfold RunsAt at hm
  rcases hr : m count s with ⟨a, count', s'⟩ | ⟨count', s'⟩ | _ <;> rw [hr] at hm
  · exact hm
  · have hh := hhandler s' hm.1 count'
    unfold RunsAt at hh
    dsimp only
    rcases hr' : handler count' s' with ⟨_, count'', s''⟩ | ⟨_, s''⟩ | _ <;> rw [hr'] at hh
    · exact ⟨hh.1, hm.2⟩
    · exact ⟨hh.1, hm.2⟩
    · exact hh
  · exact hm

/-- What each round keeps holds at the end. -/
theorem Runs.loop {b : ℕ → Prog σ Unit} (I : ℕ → σ → Prop) (n : ℕ) (h0 : I 0 s)
    (hbody : ∀ i < n, ∀ s, I i s → Runs (b i) s (fun _ => I (i + 1)) E) :
    Runs (loop b n) s (fun _ => I n) E := by
  induction n with
  | zero => exact Runs.pure h0
  | succ n ih =>
    exact (ih fun i hi => hbody i (Nat.lt_succ_of_lt hi)).bind fun _ s hs =>
      hbody n (Nat.lt_succ_self n) s hs

/-- With the empty schedule nothing is thrown. -/
theorem RunsAt.ok (h : RunsAt [] m s Q E) : ∃ a s', m [] s = .ok a [] s' ∧ Q a s' := by
  unfold RunsAt at h
  rcases hr : m [] s with ⟨a, count', s'⟩ | ⟨_, s'⟩ | _ <;> rw [hr] at h
  · obtain rfl := h.2 rfl
    exact ⟨a, s', rfl, h.1⟩
  · exact absurd rfl h.2
  · cases h

end Rules

/-! ## How often a program ticks -/

/-- The schedule was `k` and then `r` before `n` ticks. -/
def Out.Took (k : ℕ) (r : List ℕ) (n : ℕ) : Out σ α → Prop
  | .ok _ count _ => ∃ k', k = k' + n ∧ count = k' :: r
  | .thrown _ _ => k < n
  | .fault => True

/-- A program that ticks `n` times when it starts in `s`. -/
def Costs (m : Prog σ α) (s : σ) (n : ℕ) : Prop := ∀ k r, (m (k :: r) s).Took k r n

section Costs

variable {m : Prog σ α} {f : α → Prog σ β} {s : σ} {n j : ℕ}

theorem Costs.pure : Costs (Pure.pure a) s 0 := fun k _ => ⟨k, rfl, rfl⟩

theorem Costs.tick : Costs Prog.tick s 1 := by
  rintro (_ | k) r
  · exact Nat.one_pos
  · exact ⟨k, rfl, rfl⟩

theorem Costs.lift : Costs (Prog.lift g) s 0 := by
  intro k r
  rw [Prog.lift]
  rcases g s with _ | ⟨a, s'⟩
  · trivial
  · exact ⟨k, rfl, rfl⟩

/-- The ticks of a sequence add up. -/
theorem Costs.bind (h : Costs m s n)
    (hf : ∀ count a count' s', m count s = .ok a count' s' → Costs (f a) s' j) :
    Costs (m >>= f) s (n + j) := by
  intro k r
  change (Prog.bind m f (k :: r) s).Took k r (n + j)
  have hm := h k r
  rw [Prog.bind]
  rcases hr : m (k :: r) s with ⟨a, count, s'⟩ | ⟨_, s'⟩ | _ <;> rw [hr] at hm
  · obtain ⟨k', rfl, rfl⟩ := hm
    have hfa := hf _ a _ s' hr k' r
    dsimp only
    rcases hr' : f a (k' :: r) s' with ⟨b, count', s''⟩ | ⟨_, s''⟩ | _ <;> rw [hr'] at hfa
    · obtain ⟨k'', rfl, rfl⟩ := hfa
      exact ⟨k'', by omega, rfl⟩
    · rw [Out.Took] at hfa ⊢
      omega
    · trivial
  · rw [Out.Took] at hm ⊢
    omega
  · trivial

theorem Costs.bind_zero (h : Costs m s 0)
    (hf : ∀ count a count' s', m count s = .ok a count' s' → Costs (f a) s' n) :
    Costs (m >>= f) s n := by
  have := h.bind hf
  rwa [zero_add] at this

/-- A handler does not change the ticks. -/
theorem Costs.onThrow (h : Costs m s n) : Costs (onThrow m handler) s n := by
  intro k r
  have hm := h k r
  rw [Prog.onThrow]
  rcases hr : m (k :: r) s with ⟨a, count, s'⟩ | ⟨count, s'⟩ | _ <;> rw [hr] at hm
  · exact hm
  · dsimp only
    rcases handler count s' with _ | _ | _
    · exact hm
    · exact hm
    · trivial
  · trivial

/-- A loop ticks in every round. -/
theorem Costs.loop {body : ℕ → Prog σ Unit} (h : ∀ i s, Costs (body i) s n) (r : ℕ) :
    Costs (loop body r) s (r * n) := by
  induction r with
  | zero =>
    rw [zero_mul]
    exact Costs.pure
  | succ r ih =>
    rw [Nat.succ_mul]
    exact ih.bind fun _ _ _ _ _ => h r _

end Costs

/-! ## Which tick throws -/

/-- A program that ticks `n` times and ends in `Q`. If the `k`-th one throws and the schedule then
is `r`, an exception leaves `E k r`, with what is left of the schedule. -/
structure Counts (m : Prog σ Unit) (s : σ) (n : ℕ) (Q : σ → Prop)
    (E : ℕ → List ℕ → List ℕ → σ → Prop) : Prop where
  nil : ∃ s', m [] s = .ok () [] s' ∧ Q s'
  ok : ∀ k r, ∃ s', m ((k + n) :: r) s = .ok () (k :: r) s' ∧ Q s'
  thrown : ∀ k < n, ∀ r, ∃ r' s', m (k :: r) s = .thrown r' s' ∧ E k r r' s'

section Counts

variable {m : Prog σ Unit} {s : σ} {n j : ℕ} {Q R : σ → Prop}
  {E E' : ℕ → List ℕ → List ℕ → σ → Prop}

theorem Counts.mono (h : Counts m s n Q E) (hQ : ∀ s, Q s → R s)
    (hE : ∀ k < n, ∀ r r' s, E k r r' s → E' k r r' s) : Counts m s n R E' where
  nil := h.nil.imp fun _ h => ⟨h.1, hQ _ h.2⟩
  ok k r := (h.ok k r).imp fun _ h => ⟨h.1, hQ _ h.2⟩
  thrown k hk r := by
    obtain ⟨r', s', hm, hs'⟩ := h.thrown k hk r
    exact ⟨r', s', hm, hE k hk r r' s' hs'⟩

/-- A counted program runs from every schedule. -/
theorem Counts.runsAt (h : Counts m s n Q E) (count : List ℕ) : RunsAt count m s (fun _ => Q)
    fun s => ∃ k r r', count = k :: r ∧ k < n ∧ E k r r' s := by
  unfold RunsAt
  rcases count with _ | ⟨k, r⟩
  · obtain ⟨s', hm, hs'⟩ := h.nil
    rw [hm]
    exact ⟨hs', id⟩
  by_cases hk : k < n
  · obtain ⟨r', s', hm, hs'⟩ := h.thrown k hk r
    rw [hm]
    exact ⟨⟨k, r, r', rfl, hk, hs'⟩, by simp⟩
  · obtain ⟨s', hm, hs'⟩ := h.ok (k - n) r
    rw [Nat.sub_add_cancel (not_lt.1 hk)] at hm
    rw [hm]
    exact ⟨hs', by simp⟩

theorem Counts.pure (h : Q s) : Counts (Pure.pure ()) s 0 Q E :=
  ⟨⟨s, rfl, h⟩, fun _ _ => ⟨s, rfl, h⟩, fun k hk => absurd hk k.not_lt_zero⟩

/-- The counts of a sequence add up. -/
theorem Counts.bind {f : Unit → Prog σ Unit} (h : Counts m s n Q E)
    (hf : ∀ s, Q s → Counts (f ()) s j R fun k => E (k + n)) :
    Counts (m >>= f) s (n + j) R E := by
  have hok : ∀ {count count' s'}, m count s = .ok () count' s' →
      (m >>= f) count s = f () count' s' := fun heq => by
    change Prog.bind m f _ s = _
    rw [Prog.bind, heq]
  refine ⟨?_, fun k r => ?_, fun k hk r => ?_⟩
  · obtain ⟨s', hm, hs'⟩ := h.nil
    rw [hok hm]
    exact (hf s' hs').nil
  · obtain ⟨s', hm, hs'⟩ := h.ok (k + j) r
    rw [add_assoc, add_comm j] at hm
    rw [hok hm]
    exact (hf s' hs').ok k r
  · by_cases hlt : k < n
    · obtain ⟨r', s', hm, hs'⟩ := h.thrown k hlt r
      exact ⟨r', s', thrown_bind_eq hm, hs'⟩
    · obtain ⟨s', hm, hs'⟩ := h.ok (k - n) r
      rw [Nat.sub_add_cancel (not_lt.1 hlt)] at hm
      rw [hok hm]
      obtain ⟨r', s'', hm', hs''⟩ := (hf s' hs').thrown (k - n) (by omega) r
      rw [Nat.sub_add_cancel (not_lt.1 hlt)] at hs''
      exact ⟨r', s'', hm', hs''⟩

theorem Counts.tick_bind {f : Unit → Prog σ Unit} (hE : ∀ r, E 0 r r s)
    (hf : Counts (f ()) s n Q fun k => E (k + 1)) : Counts (Prog.tick >>= f) s (n + 1) Q E := by
  refine ⟨hf.nil, hf.ok, fun k hk r => ?_⟩
  cases k with
  | zero => exact ⟨r, s, rfl, hE r⟩
  | succ k => exact hf.thrown k (by omega) r

theorem Counts.lift {g : σ → Option (Unit × σ)} (hg : g s = some ((), s')) (hQ : Q s') :
    Counts (Prog.lift g) s 0 Q E := by
  have heq : ∀ count, Prog.lift g count s = .ok () count s' := fun count => by
    rw [Prog.lift, hg]
  exact ⟨⟨s', heq _, hQ⟩, fun k r => ⟨s', heq _, hQ⟩, fun k hk => absurd hk k.not_lt_zero⟩

theorem Counts.lift_bind {f : α → Prog σ Unit} (hg : g s = some (a, s'))
    (hf : Counts (f a) s' n Q E) : Counts (Prog.lift g >>= f) s n Q E := by
  refine ⟨?_, fun k r => ?_, fun k hk r => ?_⟩
  · rw [lift_bind_eq hg]
    exact hf.nil
  · rw [lift_bind_eq hg]
    exact hf.ok k r
  · rw [lift_bind_eq hg]
    exact hf.thrown k hk r

/-- A handler that ticks once. It throws if the schedule goes on with an exception at once. -/
theorem Counts.onThrow {G F : σ → Prop} (h : Counts m s n Q fun _ r r' s => r' = r ∧ G s)
    (hhandler : ∀ s, G s → Counts handler s 1 R fun _ _ _ => F) :
    Counts (onThrow m handler) s n Q fun _ r _ s => if r.head? = some 0 then F s else R s := by
  refine ⟨?_, fun k r => ?_, fun k hk r => ?_⟩
  · obtain ⟨s', hm, hs'⟩ := h.nil
    exact ⟨s', by rw [Prog.onThrow, hm], hs'⟩
  · obtain ⟨s', hm, hs'⟩ := h.ok k r
    exact ⟨s', by rw [Prog.onThrow, hm], hs'⟩
  · obtain ⟨r', s', hm, rfl, hs'⟩ := h.thrown k hk r
    have hh := hhandler s' hs'
    rw [Prog.onThrow, hm]
    dsimp only
    rcases r' with _ | ⟨_ | k, r⟩
    · obtain ⟨s'', hm', hs''⟩ := hh.nil
      exact ⟨[], s'', by rw [hm'], hs''⟩
    · obtain ⟨r', s'', hm', hs''⟩ := hh.thrown 0 Nat.one_pos r
      exact ⟨r', s'', by rw [hm'], hs''⟩
    · obtain ⟨s'', hm', hs''⟩ := hh.ok k r
      exact ⟨k :: r, s'', by rw [hm'], hs''⟩

/-- Rounds that tick `n` times each. -/
theorem Counts.loop {b : ℕ → Prog σ Unit} (I : ℕ → σ → Prop) (l : ℕ) (h0 : I 0 s)
    (hbody : ∀ i < l, ∀ s, I i s → Counts (b i) s n (I (i + 1)) E) :
    Counts (loop b l) s (l * n) (I l) fun k => E (k % n) := by
  induction l with
  | zero =>
    rw [zero_mul]
    exact Counts.pure h0
  | succ l ih =>
    rw [Nat.succ_mul]
    refine (ih fun i hi => hbody i (Nat.lt_succ_of_lt hi)).bind fun s hs => ?_
    refine (hbody l (Nat.lt_succ_self l) s hs).mono (fun _ h => h) fun k hk r r' s' hs' => ?_
    rwa [Nat.add_mul_mod_self_right, Nat.mod_eq_of_lt hk]

end Counts

/-! ## Programs that may end in a fault -/

/-- If the program ends normally, it ends in `Q`. -/
def Ends (m : Prog σ α) (s : σ) (Q : α → σ → Prop) : Prop :=
  ∀ count a count' s', m count s = .ok a count' s' → Q a s'

section Ends

variable {m : Prog σ α} {f : α → Prog σ β} {s : σ} {Q : α → σ → Prop}

theorem Ends.pure (h : Q a s) : Ends (Pure.pure a) s Q := by
  intro count _ _ _ heq
  cases heq
  exact h

theorem Ends.lift (h : ∀ a s', g s = some (a, s') → Q a s') : Ends (Prog.lift g) s Q := by
  intro count a' count' s' heq
  rw [Prog.lift] at heq
  rcases hg : g s with _ | ⟨a, s⟩ <;> rw [hg] at heq <;> cases heq
  exact h a' s' hg

/-- The rule of sequence for programs that end. -/
theorem Ends.bind (h : Ends m s Q) (hf : ∀ a s, Q a s → Ends (f a) s R) :
    Ends (m >>= f) s R := by
  intro count b count' s' heq
  change Prog.bind m f count s = _ at heq
  rw [Prog.bind] at heq
  rcases hm : m count s with ⟨a, count'', s''⟩ | _ | _ <;> rw [hm] at heq
  · exact hf a s'' (h _ _ _ _ hm) _ _ _ _ heq
  · cases heq
  · cases heq

theorem Ends.lift_bind (hg : g s = some (a, s')) (hf : Ends (f a) s' R) :
    Ends (Prog.lift g >>= f) s R := by
  intro count
  rw [lift_bind_eq hg]
  exact hf count

theorem Ends.mono (h : Ends m s Q) (hQ : ∀ a s, Q a s → Q' a s) : Ends m s Q' :=
  fun count a count' s' heq => hQ a s' (h count a count' s' heq)

/-- The rule of the loop : every round keeps the invariant. -/
theorem Ends.loop {b : ℕ → Prog σ Unit} (I : ℕ → σ → Prop) (n : ℕ) (h0 : I 0 s)
    (hbody : ∀ i < n, ∀ s, I i s → Ends (b i) s fun _ => I (i + 1)) :
    Ends (loop b n) s fun _ => I n := by
  induction n with
  | zero => exact Ends.pure h0
  | succ n ih =>
    exact (ih fun i hi => hbody i (Nat.lt_succ_of_lt hi)).bind fun _ s hs =>
      hbody n (Nat.lt_succ_self n) s hs

end Ends

end Throwing
