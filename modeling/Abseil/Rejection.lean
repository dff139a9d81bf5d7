import Mathlib.Tactic

/-!
# Rejection sampling

`sample accept` draws until a value is accepted. Of all runs of `n + 1` draws, those that end with
the result `b` at the last draw are `n` rejected values and one value accepted as `b` (`card_runs`).
So results that the same number of values are accepted as are equally likely, however many draws it
takes.
-/

namespace Rejection

open Finset

variable {A B : Type}

/-- The first accepted value of a list of draws, and the draws behind it. -/
def sample (accept : A → Option B) : List A → Option (B × List A)
  | [] => none
  | a :: as =>
    match accept a with
    | some b => some (b, as)
    | none => sample accept as

theorem sample_mem {accept : A → Option B} : ∀ {as rest : List A} {b : B},
    sample accept as = some (b, rest) → ∃ a ∈ as, accept a = some b
  | a :: as, rest, b, h => by
    rw [sample] at h
    rcases ha : accept a with _ | b'
    · rw [ha] at h
      obtain ⟨a', hmem, heq⟩ := sample_mem h
      exact ⟨a', List.mem_cons_of_mem a hmem, heq⟩
    · rw [ha] at h
      obtain ⟨rfl, -⟩ := Prod.mk.inj (Option.some.inj h)
      exact ⟨a, List.mem_cons_self, ha⟩

variable [Fintype A] [DecidableEq B]

/-- The values that are accepted as `b`. -/
def accepted (accept : A → Option B) (b : B) : Finset A := {a | accept a = some b}

/-- The values that are rejected. -/
def rejected (accept : A → Option B) : Finset A := {a | accept a = none}

variable (accept : A → Option B)

/-- A value is rejected or accepted as one result. -/
theorem card_rejected_add (T : Finset B) (hT : ∀ a b, accept a = some b → b ∈ T) :
    (rejected accept).card + ∑ b ∈ T, (accepted accept b).card = Fintype.card A := by
  have hmem : ∀ a ∈ (univ : Finset A), accept a ∈ insertNone T := fun a _ => by
    rw [mem_insertNone]
    exact fun b hb => hT a b hb
  have h := card_eq_sum_card_fiberwise hmem
  rw [card_univ, sum_insertNone] at h
  exact h.symm

variable [DecidableEq A]

/-- The runs of `n` draws that end with the result `b` at the last draw. -/
def runs (accept : A → Option B) (n : ℕ) (b : B) : Finset (Fin n → A) :=
  {run | sample accept (List.ofFn run) = some (b, [])}

theorem runs_succ (n : ℕ) (b : B) :
    (runs accept (n + 2) b).card = (rejected accept).card * (runs accept (n + 1) b).card := by
  rw [← card_product]
  refine card_equiv (Fin.consEquiv fun _ => A).symm fun run => ?_
  have hrun : List.ofFn run = run 0 :: List.ofFn (Fin.tail run) := by
    rw [List.ofFn_succ]
    rfl
  simp only [runs, rejected, mem_filter, mem_univ, true_and, mem_product]
  rw [hrun, sample]
  change _ ↔ accept (run 0) = none ∧ sample accept (List.ofFn (Fin.tail run)) = some (b, [])
  rcases accept (run 0) with _ | b'
  · simp
  · simp

theorem runs_one (b : B) : (runs accept 1 b).card = (accepted accept b).card := by
  refine card_equiv (Equiv.funUnique (Fin 1) A) fun run => ?_
  have hrun : List.ofFn run = [run 0] := by
    rw [List.ofFn_succ]
    rfl
  simp only [runs, accepted, mem_filter, mem_univ, true_and]
  rw [hrun, sample]
  change _ ↔ accept (run 0) = some b
  rcases accept (run 0) with _ | b'
  · simp [sample]
  · simp

theorem card_runs (accept : A → Option B) (b : B) : ∀ n,
    (runs accept (n + 1) b).card = (rejected accept).card ^ n * (accepted accept b).card
  | 0 => by rw [runs_one, pow_zero, one_mul]
  | n + 1 => by rw [runs_succ, card_runs accept b n, pow_succ', mul_assoc]

end Rejection
