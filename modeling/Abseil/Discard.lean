import Mathlib.Data.BitVec
import Mathlib.Tactic

/-!
# Skipping draws

`discard(n)` of `pcg_engine` and of `randen_engine` against `n` calls of `operator()`. The first
jumps by squaring an affine map modulo `2 ^ w` : a round of the loop puts two steps in place of one
(`advanceLoop_eq`). The second skips the rest of the buffer and then whole buffers, and refills only
when a draw needs it, as the calls do (`discardLoop_eq`). `Generate` is any function on the buffer.
-/

namespace Abseil.Discard

/-! ## `pcg_engine` -/

/-- The parameters of the generator and the mix of its output. -/
structure Pcg (w : ℕ) (β : Type) where
  multiplier : BitVec w
  increment : BitVec w
  mix : BitVec w → β

namespace Pcg

variable {w : ℕ} {β : Type} (p : Pcg w β)

/-- One step of the generator. -/
def lcg (s : BitVec w) : BitVec w := s * p.multiplier + p.increment

/-- `operator()` : the result and the new state. -/
def call (s : BitVec w) : β × BitVec w := (p.mix (p.lcg s), p.lcg s)

/-- The loop of `advance`. -/
def advanceLoop (mult inc m i : BitVec w) (n : ℕ) : BitVec w × BitVec w :=
  if n > 0 then
    if n % 2 = 1 then
      advanceLoop (mult * mult) ((mult + 1) * inc) (m * mult) (i * mult + inc) (n / 2)
    else advanceLoop (mult * mult) ((mult + 1) * inc) m i (n / 2)
  else (m, i)

/-- `advance`. -/
def advance (s : BitVec w) (n : ℕ) : BitVec w :=
  let r := advanceLoop p.multiplier p.increment 1 0 n
  r.1 * s + r.2

/-- `discard`. -/
def discard (s : BitVec w) (count : ℕ) : BitVec w := p.advance s count

theorem iterate_two (mult inc : BitVec w) : (fun x => x * mult + inc)^[2]
    = fun x => x * (mult * mult) + (mult + 1) * inc := by
  funext x
  show (x * mult + inc) * mult + inc = _
  ring

theorem advanceLoop_eq (mult inc m i s : BitVec w) (n : ℕ) :
    (advanceLoop mult inc m i n).1 * s + (advanceLoop mult inc m i n).2
      = (fun x => x * mult + inc)^[n] (m * s + i) := by
  fun_induction advanceLoop mult inc m i n with
  | case1 mult inc m i n hn hodd ih =>
    have hstep : m * mult * s + (i * mult + inc) = (m * s + i) * mult + inc := by ring
    rw [ih, ← iterate_two, ← Function.iterate_mul, hstep]
    conv_rhs => rw [show n = 2 * (n / 2) + 1 by omega, Function.iterate_succ_apply]
  | case2 mult inc m i n hn heven ih =>
    rw [ih, ← iterate_two, ← Function.iterate_mul, show 2 * (n / 2) = n by omega]
  | case3 mult inc m i n hn =>
    rw [Nat.eq_zero_of_not_pos hn]
    rfl

end Pcg

/-! ## `randen_engine` -/

/-- The sizes of the buffer and of its inner part, and `Generate`. -/
structure Randen (β : Type) where
  kStateSizeT : ℕ
  kCapacityT : ℕ
  capacity_lt : kCapacityT < kStateSizeT
  generate : List β → List β

/-- The buffer, and the place of the element that comes next. -/
@[ext] structure RandenEngine (β : Type) where
  state : List β
  next : ℕ

namespace Randen

variable {β : Type} (r : Randen β)

/-- `operator()` : the element of the buffer and the engine. -/
def call (e : RandenEngine β) : Option β × RandenEngine β :=
  let e := if e.next ≥ r.kStateSizeT then ⟨r.generate e.state, r.kCapacityT⟩ else e
  (e.state[e.next]?, { e with next := e.next + 1 })

/-- The loop of `discard`, with the last step. -/
def discardLoop (count step : ℕ) (e : RandenEngine β) : ℕ × RandenEngine β :=
  if count > 0 then
    discardLoop (count - min (r.kStateSizeT - r.kCapacityT) count)
      (min (r.kStateSizeT - r.kCapacityT) count) ⟨r.generate e.state, r.kCapacityT⟩
  else (step, e)
termination_by count
decreasing_by
  have := r.capacity_lt
  omega

/-- `discard`. -/
def discard (e : RandenEngine β) (count : ℕ) : RandenEngine β :=
  let step := min (r.kStateSizeT - e.next) count
  let (step, e) := r.discardLoop (count - step) step e
  { e with next := e.next + step }

variable {r} {e : RandenEngine β}

theorem iterate_call : ∀ {k}, e.next + k ≤ r.kStateSizeT →
    (fun e => (r.call e).2)^[k] e = ⟨e.state, e.next + k⟩
  | 0, _ => rfl
  | k + 1, h => by
    rw [Function.iterate_succ_apply', iterate_call (by omega)]
    show (r.call ⟨e.state, e.next + k⟩).2 = _
    rw [call, if_neg (show ¬ e.next + k ≥ r.kStateSizeT by omega)]
    rfl

/-- A whole buffer or less, when the buffer is used up. -/
theorem iterate_call_refill {k : ℕ} (h : e.next = r.kStateSizeT) (h0 : 0 < k)
    (hk : k ≤ r.kStateSizeT - r.kCapacityT) :
    (fun e => (r.call e).2)^[k] e = ⟨r.generate e.state, r.kCapacityT + k⟩ := by
  obtain ⟨k, rfl⟩ := Nat.exists_eq_add_of_le' h0
  have hcall : (r.call e).2 = ⟨r.generate e.state, r.kCapacityT + 1⟩ := by
    rw [call, if_pos h.ge]
  rw [Function.iterate_succ_apply, hcall, iterate_call (show r.kCapacityT + 1 + k ≤ _ by omega),
    Nat.add_assoc, Nat.add_comm 1]

theorem discardLoop_eq (count step : ℕ) (e : RandenEngine β)
    (h : count = 0 ∨ e.next + step = r.kStateSizeT) :
    (⟨(r.discardLoop count step e).2.state,
      (r.discardLoop count step e).2.next + (r.discardLoop count step e).1⟩ : RandenEngine β)
      = (fun e => (r.call e).2)^[count] ⟨e.state, e.next + step⟩ := by
  fun_induction discardLoop r count step e with
  | case1 count step e hcount ih =>
    have hlt := r.capacity_lt
    rw [ih (by show _ ∨ r.kCapacityT + _ = _; omega)]
    conv_rhs => rw [show count = count - min (r.kStateSizeT - r.kCapacityT) count
      + min (r.kStateSizeT - r.kCapacityT) count by omega, Function.iterate_add_apply]
    rw [iterate_call_refill (h.resolve_left hcount.ne') (by omega) (min_le_left _ _)]
  | case2 count step e hcount =>
    rw [Nat.eq_zero_of_not_pos hcount]
    rfl

theorem discard_eq (h : e.next ≤ r.kStateSizeT) (n : ℕ) :
    r.discard e n = (fun e => (r.call e).2)^[n] e := by
  have hloop := discardLoop_eq (r := r) (n - min (r.kStateSizeT - e.next) n)
    (min (r.kStateSizeT - e.next) n) e (by omega)
  have hfirst := iterate_call (r := r) (e := e) (k := min (r.kStateSizeT - e.next) n) (by omega)
  rw [← hfirst, ← Function.iterate_add_apply, Nat.sub_add_cancel (min_le_right _ _)] at hloop
  exact hloop

end Randen

/-- Skipping `n` draws leaves what `n` draws leave. -/
theorem discard_eq_calls {w : ℕ} {β γ : Type} (p : Pcg w β) (s : BitVec w) (r : Randen γ)
    (e : RandenEngine γ) (h : e.next ≤ r.kStateSizeT) (n : ℕ) :
    p.discard s n = (fun s => (p.call s).2)^[n] s ∧
      r.discard e n = (fun e => (r.call e).2)^[n] e := by
  refine ⟨?_, Randen.discard_eq h n⟩
  have hjump := Pcg.advanceLoop_eq p.multiplier p.increment 1 0 s n
  rw [one_mul, add_zero] at hjump
  exact hjump

/-- Three draws, with a buffer of which one element is left. -/
theorem discard_eq_calls_three : Pcg.discard ⟨5, 1, id⟩ (7 : BitVec 64) 3
      = (fun s => (Pcg.call ⟨5, 1, id⟩ s).2)^[3] (7 : BitVec 64) ∧
    Randen.discard ⟨3, 1, by decide, List.reverse⟩ ⟨[1, 2, 3], 2⟩ 3
      = (fun e => (Randen.call ⟨3, 1, by decide, List.reverse⟩ e).2)^[3] ⟨[1, 2, 3], 2⟩ :=
  discard_eq_calls _ _ _ _ (by decide) 3

end Abseil.Discard
