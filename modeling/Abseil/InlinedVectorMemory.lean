import Abseil.InlinedVector

/-!
# The loops over elements

`patch` is the memory with a range of slots replaced. A loop that constructs, assigns or destroys a
range patches it. `ConstructElements` undoes what it did if it throws, up to the values that it took
(`constructElements_runs`); what a loop of assignments leaves is alive where it was
(`assignElements_runs`).
-/

namespace Abseil.InlinedVector

open Throwing World Runs

variable {T : Type}

/-- What is in the slots. -/
abbrev Mem (T : Type) := Place → ℕ → Option (Option T)

/-! ## Patches -/

/-- The slots from `lo` on, `n` of them, are those of `g`. -/
def patch (m : Mem T) (p : Place) (lo n : ℕ) (g : ℕ → Option (Option T)) : Mem T := fun q i =>
  if q = p ∧ lo ≤ i ∧ i < lo + n then g (i - lo) else m q i

section Patch

variable {m : Mem T} {p q : Place} {lo n i : ℕ} {g g' : ℕ → Option (Option T)}

theorem patch_zero : patch m p lo 0 g = m := by
  funext q i
  exact if_neg (by omega)

/-- Other places are as before. -/
theorem patch_of_ne (h : q ≠ p) : patch m p lo n g q = m q := by
  funext i
  exact if_neg fun h' => h h'.1

/-- Other slots are as before. -/
theorem patch_notMem (h : ¬ (lo ≤ i ∧ i < lo + n)) : patch m p lo n g q i = m q i :=
  if_neg fun h' => h h'.2

/-- The slots have the new contents. -/
theorem patch_mem (h : lo ≤ i ∧ i < lo + n) : patch m p lo n g p i = g (i - lo) :=
  if_pos ⟨rfl, h⟩

theorem patch_patch : patch (patch m p lo n g) p lo n g' = patch m p lo n g' := by
  funext q i
  unfold patch
  split_ifs <;> rfl

/-- A patch by what was there. -/
theorem patch_eq_self (h : ∀ k < n, m p (lo + k) = g k) : patch m p lo n g = m := by
  funext q i
  by_cases hi : q = p ∧ lo ≤ i ∧ i < lo + n
  · obtain ⟨rfl, hlo, hhi⟩ := hi
    rw [patch_mem ⟨hlo, hhi⟩, ← h (i - lo) (by omega), Nat.add_sub_cancel' hlo]
  · exact if_neg hi

/-- Patches of different slots commute. -/
theorem patch_comm {lo' n' : ℕ}
    (h : ∀ i, ¬ (p = q ∧ (lo ≤ i ∧ i < lo + n) ∧ lo' ≤ i ∧ i < lo' + n')) :
    patch (patch m p lo n g) q lo' n' g' = patch (patch m q lo' n' g') p lo n g := by
  funext r i
  unfold patch
  by_cases h1 : r = p ∧ lo ≤ i ∧ i < lo + n
  · have h2 : ¬ (r = q ∧ lo' ≤ i ∧ i < lo' + n') := fun h2 =>
      h i ⟨h1.1.symm.trans h2.1, h1.2, h2.2⟩
    rw [if_neg h2, if_pos h1, if_pos h1]
  · rw [if_neg h1, if_neg h1]

end Patch

namespace World

variable (w : World T)

/-- The slots are replaced. -/
def withMem (m : Mem T) : World T := { w with mem := m }

variable {w}

theorem set_eq (p : Place) (i : ℕ) (x : Option (Option T)) :
    w.set p i x = w.withMem (patch w.mem p i 1 fun _ => x) := by
  rw [set, withMem]
  congr 1
  funext q j
  unfold patch
  by_cases h : q = p ∧ j = i
  · rw [if_pos h, if_pos ⟨h.1, by omega, by omega⟩]
  · rw [if_neg h, if_neg fun h' => h ⟨h'.1, by omega⟩]

end World

variable {m : Mem T} {p : Place} {lo n : ℕ} {g g' : ℕ → Option (Option T)}

/-- A patch that grows by the slot `j`. -/
theorem patch_grow {lo' j : ℕ} {x : Option (Option T)}
    (hx : x = g (j - lo)) (hj : ∀ i, lo ≤ i ∧ i < lo + (n + 1) ↔ i = j ∨ lo' ≤ i ∧ i < lo' + n)
    (hg : ∀ i, lo' ≤ i → g' (i - lo') = g (i - lo)) :
    patch (patch m p lo' n g') p j 1 (fun _ => x) = patch m p lo (n + 1) g := by
  funext q i
  simp only [patch, hj, show j ≤ i ∧ i < j + 1 ↔ i = j by omega]
  by_cases hq : q = p
  · by_cases h : i = j
    · simp [h, hx, hq]
    · simp only [h, hq, true_and, false_or, if_false]
      split_ifs with h'
      · exact hg i h'.1
      · rfl
  · simp [hq]

/-- One more slot. -/
theorem patch_succ :
    patch (patch m p lo n g) p (lo + n) 1 (fun _ => g n) = patch m p lo (n + 1) g :=
  patch_grow (by rw [Nat.add_sub_cancel_left]) (by omega) fun _ _ => rfl

/-- A patch that grows downwards. -/
theorem patch_pred : patch (patch m p (lo + 1) n fun k => g (k + 1)) p lo 1 (fun _ => g 0)
      = patch m p lo (n + 1) g :=
  patch_grow (by rw [Nat.sub_self]) (by omega) fun _ _ => congrArg g (by omega)

/-- The same slots hold an object. -/
def LiveEq (m m' : Mem T) : Prop := ∀ p i, (m p i).isSome = (m' p i).isSome

theorem LiveEq.trans {a b c : Mem T} (h : LiveEq a b) (h' : LiveEq b c) : LiveEq a c :=
  fun p i => (h p i).trans (h' p i)

/-- Objects are replaced by objects. -/
theorem LiveEq.patch
    (h : ∀ k < n, (m p (lo + k)).isSome = (g k).isSome) : LiveEq (patch m p lo n g) m := by
  intro q i
  by_cases hi : q = p ∧ lo ≤ i ∧ i < lo + n
  · obtain ⟨rfl, hlo, hhi⟩ := hi
    rw [patch_mem ⟨hlo, hhi⟩, ← h (i - lo) (by omega), Nat.add_sub_cancel' hlo]
  · rw [InlinedVector.patch, if_neg hi]

/-- Objects are assigned. -/
theorem LiveEq.assign {m' : Mem T} (h : LiveEq m m') {e : ℕ → Option T}
    (hlive : ∀ k < n, (m' p (lo + k)).isSome) :
    LiveEq (InlinedVector.patch m p lo n fun k => some (e k)) m' := by
  refine LiveEq.trans (LiveEq.patch fun k hk => ?_) h
  rw [h, hlive k hk]
  rfl

/-! ## Single slots -/

/-- The memory is `m`, and nothing else changed, but for the allocation under inlined elements. -/
structure Into (w w' : World T) (p : Place) (m : Mem T) : Prop where
  mem : w'.mem = m
  cap : w'.cap = w.cap
  fresh : w'.fresh = w.fresh
  storage : w'.storage = w.storage
  allocated : ∀ t, p ≠ .inlined t → w'.allocated t = w.allocated t

theorem Into.refl (w : World T) (p : Place) : Into w w p w.mem :=
  ⟨rfl, rfl, rfl, rfl, fun _ _ => rfl⟩

theorem Into.withMem {w w' : World T} (h : Into w w' p m) (m' : Mem T) :
    Into w (w'.withMem m') p m' :=
  ⟨rfl, h.cap, h.fresh, h.storage, h.allocated⟩

theorem Into.clobber {w w' : World T} (h : Into w w' p m) : Into w (w'.clobber p) p m := by
  cases p with
  | inlined s =>
    refine ⟨h.mem, h.cap, h.fresh, h.storage, fun t ht => ?_⟩
    have hne : t ≠ s := fun heq => ht (by rw [heq])
    exact (Function.update_of_ne hne _ _).trans (h.allocated t ht)
  | heap id => exact h

section Slots

variable {cfg : Config} {w w₀ : World T} {p : Place} {i : ℕ} {m : Mem T} {E : World T → Prop}

theorem vacant_of {c : ℕ} (hc : w.capacityOf cfg p = some c) (hi : i < c) (hm : w.mem p i = none) :
    w.Vacant cfg p i := by
  rw [World.Vacant, hc, hm]
  simpa using hi

theorem Into.capacityOf (h : Into w₀ w p m) (q : Place) :
    w.capacityOf cfg q = w₀.capacityOf cfg q := by
  cases q with
  | inlined s => rfl
  | heap id => exact congrFun h.cap id

/-- An element is constructed. -/
theorem constructAt_runs (h : Into w₀ w p m) {c : ℕ} (hc : w₀.capacityOf cfg p = some c)
    (hi : i < c) (hm : m p i = none) (e : Option T) : Runs (constructAt cfg p i e) w
      (fun _ w' => Into w₀ w' p (patch m p i 1 fun _ => some e)) (fun w' => Into w₀ w' p m) := by
  have hvac : w.Vacant cfg p i := by
    refine vacant_of (by rw [h.capacityOf, hc]) hi ?_
    rw [h.mem, hm]
  refine lift_bind (if_pos hvac) (tick_bind h.clobber (lift rfl ?_))
  rw [set_eq]
  have := h.clobber.withMem (patch m p i 1 fun _ => some e)
  rwa [← h.clobber.mem] at this ⊢

/-- An element is assigned. -/
theorem assignAt_runs (h : (w.mem p i).isSome) (e : Option T) : Runs (assignAt p i e) w
      (fun _ w' => w' = w.withMem (patch w.mem p i 1 fun _ => some e)) (fun w' => w' = w) :=
  lift_bind (if_pos h) (tick_bind rfl (lift rfl (set_eq p i _)))

/-- An element is destroyed. -/
theorem destroyAt_runs (h : (w.mem p i).isSome) :
    Runs (destroyAt p i) w (fun _ w' => w' = w.withMem (patch w.mem p i 1 fun _ => none)) E :=
  lift (if_pos h) (set_eq p i _)

theorem readAt_runs {e : Option T} (h : w.mem p i = some e) :
    Runs (readAt p i) w (fun a w' => a = e ∧ w' = w) E :=
  lift (by rw [h]; rfl) ⟨rfl, rfl⟩

/-- An element is moved from. -/
theorem moveFrom_runs {e : Option T} (h : w.mem p i = some e) : Runs (moveFrom p i) w
      (fun a w' => a = e ∧ w' = w.withMem (patch w.mem p i 1 fun _ => some none)) E :=
  lift (by rw [h]; rfl) ⟨rfl, set_eq p i _⟩

end Slots

/-! ## Loops -/

section Loops

variable {cfg : Config} {w : World T} {p : Place} {lo n : ℕ} {E : World T → Prop}

/-- The elements are destroyed, the last one first. -/
theorem destroyElements_runs (h : ∀ k < n, (w.mem p (lo + k)).isSome) :
    Runs (destroyElements p lo n) w
      (fun _ w' => w' = w.withMem (patch w.mem p lo n fun _ => none)) E := by
  have hloop := loop (E := E) (s := w)
    (b := fun k => destroyAt p (lo + (n - 1 - k)))
    (fun k w' => w' = w.withMem (patch w.mem p (lo + (n - k)) k fun _ => none)) n
    (by rw [patch_zero]; rfl) (by
      rintro k hk _ rfl
      refine (destroyAt_runs ?_).imp_eq ?_
      · rw [withMem]
        dsimp only
        rw [patch_notMem (by omega)]
        exact h (n - 1 - k) (by omega)
      rw [withMem, withMem]
      congr 1
      have hpred : patch (patch w.mem p (lo + (n - 1 - k) + 1) k fun _ => none) p
          (lo + (n - 1 - k)) 1 (fun _ => none)
          = patch w.mem p (lo + (n - 1 - k)) (k + 1) fun _ => none :=
        patch_pred (g := fun _ => none)
      rw [show lo + (n - k) = lo + (n - 1 - k) + 1 by omega, hpred,
        show n - (k + 1) = n - 1 - k by omega])
  rwa [Nat.sub_self, add_zero] at hloop

variable {used c : ℕ}

/-- The elements are constructed from the values `e`. The memory without them is `m i` after `i`
values were taken, and that is what an exception leaves. -/
theorem constructElements_runs {values : Values T} (m : ℕ → Mem T) (e : ℕ → Option T)
    (hc : w.capacityOf cfg p = some c) (hle : lo + n ≤ c) (h0 : m 0 = w.mem)
    (hdead : ∀ i ≤ n, ∀ k < n, m i p (lo + k) = none)
    (hnext : ∀ i < n, ∀ w', Into w w' p (patch (m i) p lo i fun k => some (e k)) →
      Runs (values (used + i)) w' (fun a w'' => a = e i ∧
        Into w w'' p (patch (m (i + 1)) p lo i fun k => some (e k))) fun _ => False) :
    Runs (constructElements cfg p lo values used n) w
      (fun _ w' => Into w w' p (patch (m n) p lo n fun k => some (e k)))
      (fun w' => ∃ i ≤ n, Into w w' p (m i)) := by
  refine loop (fun i w' => Into w w' p (patch (m i) p lo i fun k => some (e k))) n ?_ ?_
  · rw [patch_zero, h0]
    exact Into.refl w p
  intro i hi w' hw'
  -- what an exception of the constructor leaves is destroyed
  refine onThrow
    (G := fun w'' => Into w w'' p (patch (m (i + 1)) p lo i fun k => some (e k))) ?_ ?_
  · refine bind ((hnext i hi w' hw').throws fun _ h => h.elim) ?_
    rintro _ w'' ⟨rfl, hw''⟩
    refine (constructAt_runs hw'' hc (by omega) ?_ (e i)).imp ?_
    · rw [patch_notMem (by omega)]
      exact hdead (i + 1) hi i hi
    · intro _ w3 h3
      rwa [patch_succ] at h3
  · intro w'' hw''
    refine (destroyElements_runs ?_).imp ?_
    · intro k hk
      rw [hw''.mem, patch_mem (by omega)]
      rfl
    rintro _ _ rfl
    refine ⟨i + 1, hi, ?_⟩
    rw [hw''.mem, patch_patch, patch_eq_self fun k hk => hdead (i + 1) hi k (by omega)]
    exact hw''.withMem _

/-- Elements are constructed from values, or none is. -/
theorem constructElements_values (v : ℕ → T) (used : ℕ) (hc : w.capacityOf cfg p = some c)
    (hle : lo + n ≤ c) (hdead : ∀ k < n, w.mem p (lo + k) = none) :
    Runs (constructElements cfg p lo (valuesOf v) used n) w
      (fun _ w' => Into w w' p (patch w.mem p lo n fun k => some (some (v (used + k)))))
      (fun w' => Into w w' p w.mem) := by
  refine (constructElements_runs (fun _ => w.mem) (fun k => some (v (used + k))) hc hle rfl
    (fun _ _ => hdead) ?_).throws
    fun _ h => h.choose_spec.2
  intro i hi w' hw'
  exact pure ⟨rfl, hw'⟩

variable {q : Place} {src : ℕ} {e : ℕ → Option T}

/-- Elements are copied, or none is. -/
theorem constructElements_copy (hc : w.capacityOf cfg p = some c) (hle : lo + n ≤ c)
    (hdead : ∀ k < n, w.mem p (lo + k) = none) (he : ∀ k < n, w.mem q (src + k) = some (e k)) :
    Runs (constructElements cfg p lo (copyValues q src) 0 n) w
      (fun _ w' => Into w w' p (patch w.mem p lo n fun k => some (e k)))
      (fun w' => Into w w' p w.mem) := by
  refine (constructElements_runs (fun _ => w.mem) e hc hle rfl (fun _ _ => hdead) ?_).throws
    fun _ h => h.choose_spec.2
  intro i hi w' hw'
  have hread : w'.mem q (src + (0 + i)) = some (e i) := by
    rw [hw'.mem, zero_add]
    -- a slot that is read holds an object, one that is constructed did not
    by_cases hin : q = p ∧ lo ≤ src + i ∧ src + i < lo + i
    · obtain ⟨rfl, h1, h2⟩ := hin
      have h := hdead (src + i - lo) (by omega)
      rw [Nat.add_sub_cancel' h1, he i hi] at h
      cases h
    · rw [patch, if_neg hin]
      exact he i hi
  refine (readAt_runs hread).imp ?_
  rintro _ _ ⟨rfl, rfl⟩
  exact ⟨rfl, hw'⟩

/-- The memory after `n` elements were moved from. -/
def movedFrom (m : Mem T) (q : Place) (src n : ℕ) : Mem T := patch m q src n fun _ => some none

theorem movedFrom_liveEq {m : Mem T} {n : ℕ} (h : ∀ k < n, (m q (src + k)).isSome) :
    LiveEq (movedFrom m q src n) m :=
  LiveEq.patch h

/-- Elements are moved, or what is left of them stays. -/
theorem constructElements_move (hc : w.capacityOf cfg p = some c) (hle : lo + n ≤ c)
    (hdead : ∀ k < n, w.mem p (lo + k) = none)
    (he : ∀ k < n, w.mem q (src + (used + k)) = some (e k)) :
    Runs (constructElements cfg p lo (moveValues q src) used n) w (fun _ w' => Into w w' p
        (patch (movedFrom w.mem q (src + used) n) p lo n fun k => some (e k)))
      (fun w' => ∃ m, Into w w' p m ∧ LiveEq m w.mem ∧ ∀ q', q' ≠ q → m q' = w.mem q') := by
  have hout : ∀ i ≤ n, ∀ k < n, movedFrom w.mem q (src + used) i p (lo + k) = none := by
    intro i hi k hk
    by_cases hin : p = q ∧ src + used ≤ lo + k ∧ lo + k < src + used + i
    · obtain ⟨rfl, h1, h2⟩ := hin
      have h := he (lo + k - (src + used)) (by omega)
      rw [show src + (used + (lo + k - (src + used))) = lo + k by omega, hdead k hk] at h
      cases h
    · rw [movedFrom, patch, if_neg hin]
      exact hdead k hk
  refine (constructElements_runs (movedFrom w.mem q (src + used)) e hc hle patch_zero hout
    ?_).throws ?_
  · intro i hi w' hw'
    have hnot : ∀ k < i, ¬ (q = p ∧ src + (used + i) = lo + k) := by
      rintro k hk ⟨rfl, heq⟩
      have h := he i hi
      rw [heq, hdead k (by omega)] at h
      cases h
    have hread : w'.mem q (src + (used + i)) = some (e i) := by
      rw [hw'.mem, patch, if_neg, movedFrom, patch_notMem (by omega), he i hi]
      rintro ⟨hq, h1, h2⟩
      exact hnot (src + (used + i) - lo) (by omega) ⟨hq, by omega⟩
    refine (moveFrom_runs hread).imp ?_
    rintro _ _ ⟨rfl, rfl⟩
    refine ⟨rfl, ?_⟩
    have hcomm : patch (patch (movedFrom w.mem q (src + used) i) p lo i fun k => some (e k)) q
        (src + (used + i)) 1 (fun _ => some none)
        = patch (movedFrom w.mem q (src + used) (i + 1)) p lo i fun k => some (e k) := by
      rw [patch_comm, movedFrom, movedFrom, ← add_assoc, patch_succ]
      rintro j ⟨hq, h1, h2⟩
      exact hnot (j - lo) (by omega) ⟨hq.symm, by omega⟩
    rw [hw'.mem, hcomm]
    exact hw'.withMem _
  · rintro w' ⟨i, hi, hw'⟩
    refine ⟨_, hw', movedFrom_liveEq fun k hk => ?_, fun q' hq' => patch_of_ne hq'⟩
    rw [add_assoc, he k (by omega)]
    rfl

/-- What a loop of assignments leaves if it throws. -/
def Assigned (w : World T) (p : Place) (w' : World T) : Prop :=
  ∃ m, w' = w.withMem m ∧ LiveEq m w.mem ∧ ∀ q, q ≠ p → m q = w.mem q

/-- The elements are assigned the values `e`. The memory is `m i` but for them after `i` values were
taken. -/
theorem assignElements_runs {values : Values T} (m : ℕ → Mem T) (e : ℕ → Option T)
    (h0 : m 0 = w.mem) (hlive : ∀ k < n, (w.mem p (lo + k)).isSome)
    (hm : ∀ i ≤ n, LiveEq (m i) w.mem ∧ ∀ q, q ≠ p → m i q = w.mem q)
    (hnext : ∀ i < n, Runs (values (used + i)) (w.withMem (patch (m i) p lo i fun k => some (e k)))
      (fun a w' => a = e i ∧ w' = w.withMem (patch (m (i + 1)) p lo i fun k => some (e k)))
      fun _ => False) : Runs (assignElements p lo values used n) w
      (fun _ w' => w' = w.withMem (patch (m n) p lo n fun k => some (e k))) (Assigned w p) := by
  have hpatch : ∀ i ≤ n, ∀ j ≤ i, LiveEq (patch (m i) p lo j fun k => some (e k)) w.mem :=
    fun i hi j hj => (hm i hi).1.assign fun k hk => hlive k (by omega)
  refine loop (fun i w' => w' = w.withMem (patch (m i) p lo i fun k => some (e k))) n ?_ ?_
  · rw [patch_zero, h0]
    rfl
  rintro i hi _ rfl
  refine bind ((hnext i hi).throws fun _ h => h.elim) ?_
  rintro _ _ ⟨rfl, rfl⟩
  refine (assignAt_runs ?_ (e i)).mono ?_ ?_
  · rw [withMem]
    rw [hpatch (i + 1) hi i (by omega), hlive i hi]
  · rintro _ _ rfl
    exact congrArg w.withMem (patch_succ (g := fun k => some (e k)))
  · rintro _ rfl
    exact ⟨_, rfl, hpatch (i + 1) hi i (by omega), fun q hq => by
      rw [patch_of_ne hq]; exact (hm (i + 1) hi).2 q hq⟩

/-- Elements are assigned from values. -/
theorem assignElements_values (v : ℕ → T) (used : ℕ) (hlive : ∀ k < n, (w.mem p (lo + k)).isSome) :
    Runs (assignElements p lo (valuesOf v) used n) w
      (fun _ w' => w' = w.withMem (patch w.mem p lo n fun k => some (some (v (used + k)))))
      (Assigned w p) :=
  assignElements_runs (fun _ => w.mem) (fun k => some (v (used + k))) rfl hlive
    (fun _ _ => ⟨fun _ _ => rfl, fun _ _ => rfl⟩) fun _ _ => pure ⟨rfl, rfl⟩

/-- Elements are moved down. -/
theorem assignElements_move (hsrc : lo ≤ src) (hlive : ∀ k < n, (w.mem p (lo + k)).isSome)
    (he : ∀ k < n, w.mem p (src + k) = some (e k)) :
    Runs (assignElements p lo (moveValues p src) 0 n) w
      (fun _ w' => w' = w.withMem (patch (movedFrom w.mem p src n) p lo n fun k => some (e k)))
      (Assigned w p) := by
  refine assignElements_runs (movedFrom w.mem p src) e patch_zero hlive (fun i hi => ⟨?_, ?_⟩) ?_
  · exact movedFrom_liveEq fun k hk => by rw [he k (by omega)]; rfl
  · exact fun q hq => patch_of_ne hq
  intro i hi
  have hread : (w.withMem (patch (movedFrom w.mem p src i) p lo i fun k => some (e k))).mem p
      (src + (0 + i)) = some (e i) := by
    rw [withMem]
    dsimp only
    simp (disch := omega) only [patch_notMem, movedFrom, zero_add, he i hi]
  refine (moveFrom_runs hread).imp ?_
  rintro _ _ ⟨rfl, rfl⟩
  refine ⟨rfl, ?_⟩
  rw [withMem, withMem]
  rw [zero_add, patch_comm (by omega), movedFrom, patch_succ]
  rfl

/-- Elements are moved up, the last one first. -/
theorem moveBackward_runs {dest : ℕ} (hlt : src ≤ dest)
    (hlive : ∀ k < n, (w.mem p (dest + k)).isSome) (he : ∀ k < n, w.mem p (src + k) = some (e k)) :
    Runs (moveBackward p src dest n) w
      (fun _ w' => w' = w.withMem (patch (movedFrom w.mem p src n) p dest n fun k => some (e k)))
      (Assigned w p) := by
  have hloop := loop (E := Assigned w p) (s := w) (b := fun k => do
      let e ← moveFrom p (src + (n - 1 - k))
      assignAt p (dest + (n - 1 - k)) e)
    (fun k w' => w' = w.withMem (patch (movedFrom w.mem p (src + (n - k)) k) p (dest + (n - k)) k
      fun j => some (e (n - k + j)))) n ?_ ?_
  · rw [Nat.sub_self, add_zero, add_zero] at hloop
    simp only [zero_add] at hloop
    exact hloop
  · rw [patch_zero, movedFrom, patch_zero]
    rfl
  rintro k hk _ rfl
  have hread : (w.withMem (patch (movedFrom w.mem p (src + (n - k)) k) p (dest + (n - k)) k
      fun j => some (e (n - k + j)))).mem p (src + (n - 1 - k)) = some (e (n - 1 - k)) := by
    rw [withMem]
    dsimp only
    simp (disch := omega) only [patch_notMem, movedFrom, he]
  refine bind (moveFrom_runs hread) ?_
  rintro _ _ ⟨rfl, rfl⟩
  have hmem : patch (patch (movedFrom w.mem p (src + (n - k)) k) p (dest + (n - k)) k
      fun j => some (e (n - k + j))) p (src + (n - 1 - k)) 1 (fun _ => some none)
      = patch (movedFrom w.mem p (src + (n - (k + 1))) (k + 1)) p (dest + (n - (k + 1)) + 1) k
        fun j => some (e (n - (k + 1) + (j + 1))) := by
    have hpred : patch (patch w.mem p (src + (n - (k + 1)) + 1) k fun _ => some none) p
        (src + (n - (k + 1))) 1 (fun _ => some none)
        = patch w.mem p (src + (n - (k + 1))) (k + 1) fun _ => some none :=
      patch_pred (g := fun _ => some none)
    rw [patch_comm (by omega), movedFrom, movedFrom, ← hpred,
      show src + (n - k) = src + (n - (k + 1)) + 1 by omega,
      show src + (n - 1 - k) = src + (n - (k + 1)) by omega,
      show dest + (n - k) = dest + (n - (k + 1)) + 1 by omega]
    congr 1
    funext j
    rw [show n - k + j = n - (k + 1) + (j + 1) by omega]
  have hleft : LiveEq (patch (movedFrom w.mem p (src + (n - (k + 1))) (k + 1)) p
      (dest + (n - (k + 1)) + 1) k fun j => some (e (n - (k + 1) + (j + 1)))) w.mem := by
    refine LiveEq.assign (movedFrom_liveEq fun j hj => ?_) fun j hj => ?_
    · rw [add_assoc, he _ (by omega)]
      rfl
    · rw [show dest + (n - (k + 1)) + 1 + j = dest + (n - (k + 1) + 1 + j) by omega,
        hlive _ (by omega)]
  refine (assignAt_runs ?_ _).mono ?_ ?_
  · rw [withMem, withMem]
    rw [hmem, hleft, hlive _ (by omega)]
  · rintro _ _ rfl
    simp only [withMem]
    rw [hmem, show dest + (n - 1 - k) = dest + (n - (k + 1)) by omega,
      show n - 1 - k = n - (k + 1) + 0 by omega]
    exact congrArg w.withMem (patch_pred (g := fun j => some (e (n - (k + 1) + j))))
  · rintro _ rfl
    refine ⟨_, by rw [withMem, withMem]; dsimp only; rw [hmem]; rfl, hleft, ?_⟩
    intro q hq
    rw [patch_of_ne hq, movedFrom, patch_of_ne hq]

end Loops

end Abseil.InlinedVector
