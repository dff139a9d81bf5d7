import Mathlib.Order.Lattice

/-!
# Bounded loops

A `while` loop of the source is `runLoop` of its body : each round ends with a result or
with the next state, and the loop gives up after a number of rounds. `runLoop_total` is
the rule for total correctness : an invariant that every round keeps while it decreases a
number gives a result within as many rounds as that number says.
-/

namespace BoundedLoop

/-- How a round of a loop ends. -/
inductive Round (σ α : Type*)
  /-- Leave the loop with a result. -/
  | done (a : α)
  /-- Go on from a new state. -/
  | next (s : σ)

/-- Run `body` from `s` until it is done, for at most the given number of rounds. -/
def runLoop {σ α ε : Type*} (endless : ε) (body : σ → Except ε (Round σ α)) :
    ℕ → σ → Except ε α
  | 0, _ => .error endless
  | n + 1, s =>
    match body s with
    | .error e => .error e
    | .ok (.done a) => .ok a
    | .ok (.next s') => runLoop endless body n s'

@[simp]
theorem ok_bind.{u, v} {α β : Type u} {ε : Type v} (a : α) (f : α → Except ε β) :
    (Except.ok a >>= f) = f a := rfl

section Rules

variable {σ α ε : Type*} {endless : ε} {body : σ → Except ε (Round σ α)}

theorem runLoop_done {n : ℕ} {s : σ} {a : α} (h : body s = .ok (.done a)) :
    runLoop endless body (n + 1) s = .ok a := by
  simp [runLoop, h]

theorem runLoop_next {n : ℕ} {s s' : σ} (h : body s = .ok (.next s')) :
    runLoop endless body (n + 1) s = runLoop endless body n s' := by
  simp [runLoop, h]

/-- Total correctness of a loop : `inv k` is an invariant with at most `k` rounds to go
before the last. -/
theorem runLoop_total (endless : ε) {inv : ℕ → σ → Prop} {post : α → Prop}
    (h : ∀ k s, inv k s → (∃ a, body s = .ok (.done a) ∧ post a) ∨
      ∃ s' k', body s = .ok (.next s') ∧ inv k' s' ∧ k' < k) :
    ∀ n k s, inv k s → k < n → ∃ a, runLoop endless body n s = .ok a ∧ post a
  | 0, _, _, _, hn => absurd hn (Nat.not_lt_zero _)
  | n + 1, k, s, hs, hn => by
    rcases h k s hs with ⟨a, hbody, ha⟩ | ⟨s', k', hbody, hs', hlt⟩
    · exact ⟨a, runLoop_done hbody, ha⟩
    · rw [runLoop_next hbody]
      exact runLoop_total endless h n k' s' hs' (by omega)

end Rules

end BoundedLoop
