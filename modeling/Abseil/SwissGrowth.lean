import Abseil.SwissCapacity

/-!
# Runs of the growth info

`GrowthInfo` through any sequence of its operations, beside the tally of what they mean : the growth
it was set up with, the empty slots consumed since and not freed, and whether a slot was deleted. As
long as the preconditions hold and no slot is freed that was not filled, the growth info stands for
the tally (`Tallied.counts`), and for small capacities only its first byte is used.
-/

namespace Abseil.Swiss.GrowthInfo

open GrowthInfoLowerBound

/-- The operations of `GrowthInfoAccessor` that change the growth info. -/
inductive Op
  | initGrowthLeftNoDeleted (growthLeft : ℕ)
  | overwriteEmptyAsFull
  | overwriteFullAsEmpty
  | overwriteControlAsFull (ctrl : Ctrl)
  | overwriteFullAsDeleted
  | rebalanceGrowthLeftLowerBound

/-- An operation on the growth info of a table with this capacity. -/
def apply (capacity : ℕ) (gi : GrowthInfo) : Op → GrowthInfo
  | .initGrowthLeftNoDeleted growthLeft => gi.initGrowthLeftNoDeleted growthLeft capacity
  | .overwriteEmptyAsFull => gi.overwriteEmptyAsFull
  | .overwriteFullAsEmpty => gi.overwriteFullAsEmpty
  | .overwriteControlAsFull ctrl => gi.overwriteControlAsFull ctrl
  | .overwriteFullAsDeleted => gi.overwriteFullAsDeleted
  | .rebalanceGrowthLeftLowerBound => gi.rebalanceGrowthLeftLowerBound capacity

/-- What happened since the growth info was set up. -/
structure Tally where
  growth : ℕ
  /-- Empty slots consumed, less those freed. -/
  consumed : ℕ
  deleted : Bool

/-- An operation is counted. -/
def Tally.next (t : Tally) : Op → Tally
  | .initGrowthLeftNoDeleted growthLeft => ⟨growthLeft, 0, false⟩
  | .overwriteEmptyAsFull => { t with consumed := t.consumed + 1 }
  | .overwriteFullAsEmpty => { t with consumed := t.consumed - 1 }
  | .overwriteControlAsFull ctrl => { t with consumed := t.consumed + (isEmpty ctrl).toNat }
  | .overwriteFullAsDeleted => { t with deleted := true }
  | .rebalanceGrowthLeftLowerBound => t

/-- The preconditions of the operations, and that a slot that is freed was filled. -/
def Permits (g : GroupImpl) (capacity : ℕ) (gi : GrowthInfo) (t : Tally) : Op → Prop
  | .initGrowthLeftNoDeleted growthLeft => growthLeft ≤ capacityToGrowth g capacity
  | .overwriteEmptyAsFull => 0 < getGrowthLeft gi.lowerBound
  | .overwriteFullAsEmpty => 0 < t.consumed
  | .overwriteControlAsFull ctrl => (isEmpty ctrl).toNat ≤ getGrowthLeft gi.lowerBound
  | _ => True

/-- The growth infos that sequences of operations lead to, the first of which sets it up. -/
inductive Tallied (g : GroupImpl) (capacity : ℕ) : GrowthInfo → Tally → Prop
  | init (gi : GrowthInfo) (growthLeft : ℕ) : growthLeft ≤ capacityToGrowth g capacity →
      Tallied g capacity (gi.initGrowthLeftNoDeleted growthLeft capacity) ⟨growthLeft, 0, false⟩
  | step {gi : GrowthInfo} {t : Tally} (op : Op) : Tallied g capacity gi t →
      Permits g capacity gi t op → Tallied g capacity (gi.apply capacity op) (t.next op)

variable {g : GroupImpl} {capacity : ℕ} {gi : GrowthInfo} {t : Tally}

theorem Counts.getGrowthLeft_le {d : Bool} {n : ℕ} (h : gi.Counts capacity d n) :
    getGrowthLeft gi.lowerBound ≤ n := by
  have := h.sum_eq
  omega

/-- The growth info stands for the growth that is left. -/
theorem Tallied.counts (hc : capacity ≤ kMaxValidCapacity) (h : Tallied g capacity gi t) :
    t.consumed ≤ t.growth ∧ t.growth ≤ capacityToGrowth g capacity ∧
      gi.Counts capacity t.deleted (t.growth - t.consumed) := by
  have hle := capacityToGrowth_le g capacity
  induction h with
  | init gi growthLeft hg => exact ⟨Nat.zero_le _, hg, counts_init gi (hg.trans hle) hc⟩
  | @step gi t op _ hop ih =>
    obtain ⟨growth, consumed, d⟩ := t
    obtain ⟨hcons, hg, h⟩ := ih
    have hlb := h.getGrowthLeft_le
    cases op <;> dsimp only [Tally.next, apply, Permits] at *
    case initGrowthLeftNoDeleted growthLeft =>
      exact ⟨Nat.zero_le _, hop, counts_init gi (hop.trans hle) hc⟩
    case overwriteEmptyAsFull =>
      refine ⟨by omega, hg, Counts.overwriteEmptyAsFull ?_ hop⟩
      rwa [show growth - (consumed + 1) + 1 = growth - consumed by omega]
    case overwriteFullAsEmpty =>
      rw [show growth - (consumed - 1) = growth - consumed + 1 by omega]
      exact ⟨by omega, hg, h.overwriteFullAsEmpty (by omega) hc⟩
    case overwriteControlAsFull ctrl =>
      refine ⟨by omega, hg, Counts.overwriteControlAsFull ?_ hop⟩
      rwa [Nat.sub_add_eq, Nat.sub_add_cancel (by omega)]
    case overwriteFullAsDeleted => exact ⟨hcons, hg, h.overwriteFullAsDeleted⟩
    case rebalanceGrowthLeftLowerBound => exact ⟨hcons, hg, h.rebalance.1⟩

/-- The growth info is exact : the growth left is what the tally says, also after the rebalance of
the lower bound, which is then zero only if no growth is left. In a small table the operations
neither read nor change what is in front of the lower bound. -/
theorem growthInfo_exact (hc : capacity ≤ kMaxValidCapacity) (h : Tallied g capacity gi t) :
    t.consumed ≤ t.growth ∧ gi.getGrowthLeftTotalSlow capacity = t.growth - t.consumed ∧
      gi.deleted = t.deleted ∧ getGrowthLeft gi.lowerBound ≤ 127 ∧
      gi.lowerBound.toNat = (if t.deleted then 128 else 0) + getGrowthLeft gi.lowerBound ∧
      (getGrowthLeft (gi.rebalanceGrowthLeftLowerBound capacity).lowerBound = 0 ↔
        gi.getGrowthLeftTotalSlow capacity = 0) ∧
      (capacity ≤ 127 → ∀ overflow, { gi with overflow }.getGrowthLeftTotalSlow capacity =
          gi.getGrowthLeftTotalSlow capacity ∧
        ∀ op, Permits g capacity gi t op → { gi with overflow }.apply capacity op =
          { gi.apply capacity op with overflow }) := by
  obtain ⟨hcons, hg, hcount⟩ := h.counts hc
  have hle := capacityToGrowth_le g capacity
  have hreb := hcount.rebalance
  refine ⟨hcons, hcount.total, hcount.deleted_eq, getGrowthLeft_le _, ?_, ?_, fun h127 ov => ?_⟩
  · rw [toNat_eq, ← hcount.deleted_eq, deleted]
    cases hasNoDeleted gi.lowerBound <;> rfl
  · rw [hcount.total]
    refine ⟨hreb.2, fun h0 => ?_⟩
    have := hreb.1.getGrowthLeft_le
    omega
  -- the lower bound has room, so a slot that is freed is counted in it
  have hlb := hcount.getGrowthLeft_le
  have hsmall : capacity ≤ kMaxGrowthLeftLowerBound := h127
  refine ⟨by simp only [getGrowthLeftTotalSlow, if_pos hsmall], fun op hop => ?_⟩
  cases op <;> dsimp only [apply, Permits] at hop ⊢
  case initGrowthLeftNoDeleted => simp only [initGrowthLeftNoDeleted, if_pos hsmall]
  case overwriteFullAsEmpty =>
    have hlt : getGrowthLeft gi.lowerBound < kMaxGrowthLeftLowerBound := by
      omega
    simp only [overwriteFullAsEmpty, if_pos hlt]
  case rebalanceGrowthLeftLowerBound =>
    simp only [rebalanceGrowthLeftLowerBound, decide_eq_true hsmall, Bool.true_or, if_true]
  all_goals rfl

/-- Two slots are filled in a table whose growth does not fit the lower bound, which is then
rebalanced, and one of the slots is deleted. -/
theorem growthInfo_exact_rebalanced : ∃ gi, Tallied .sse2 255 gi ⟨224, 2, true⟩ ∧
    gi.getGrowthLeftTotalSlow 255 = 222 ∧ gi.deleted = true := by
  have hinit : Tallied .sse2 255 _ _ := .init ⟨0, 0⟩ 224 (by decide)
  have hone := hinit.step .overwriteEmptyAsFull (by show 0 < getGrowthLeft _; decide)
  have htwo := hone.step .overwriteEmptyAsFull (by show 0 < getGrowthLeft _; decide)
  have hrebalanced := htwo.step .rebalanceGrowthLeftLowerBound trivial
  have hdeleted := hrebalanced.step .overwriteFullAsDeleted trivial
  obtain ⟨-, htotal, hbit, -⟩ := growthInfo_exact (by decide) hdeleted
  exact ⟨_, hdeleted, htotal, hbit⟩

end Abseil.Swiss.GrowthInfo
