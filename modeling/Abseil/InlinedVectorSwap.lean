import Abseil.InlinedVectorEnds

/-!
# Swap

Two vectors exchange what they hold. Their blocks change hands with the allocations; inlined
elements are exchanged one by one, and those that only the larger vector has are moved. No object of
a block and no block is touched (`Beside`). What an exception leaves alive is what was alive before,
in both vectors.
-/

namespace Abseil.InlinedVector

open Function Throwing Runs

variable {T : Type} {cfg : Config}

/-! ## Two slots -/

/-- The memory is `m`, and nothing else changed but the allocations of two vectors. -/
structure Between (w w' : World T) (s t : ℕ) (m : Mem T) : Prop where
  mem : w'.mem = m
  cap : w'.cap = w.cap
  fresh : w'.fresh = w.fresh
  storage : w'.storage = w.storage
  allocated : ∀ u, u ≠ s → u ≠ t → w'.allocated u = w.allocated u

/-- The slots at `i` of two places are `x` and `y`. -/
def pairAt (m : Mem T) (a b : Place) (i : ℕ) (x y : Option (Option T)) : Mem T := fun q j =>
  if j = i ∧ q = a then x else if j = i ∧ q = b then y else m q j

/-- Two places exchanged their first `n` slots. -/
def exchanged (m : Mem T) (a b : Place) (n : ℕ) : Mem T := fun q j =>
  if j < n ∧ q = a then m b j else if j < n ∧ q = b then m a j else m q j

section Pairs

variable {m : Mem T} {a b : Place} {i n : ℕ} {x y z : Option (Option T)}

theorem pairAt_left : pairAt m a b i x y a i = x := if_pos ⟨rfl, rfl⟩

theorem pairAt_right (hab : a ≠ b) : pairAt m a b i x y b i = y := by
  rw [pairAt, if_neg fun h => hab h.2.symm, if_pos ⟨rfl, rfl⟩]

theorem pairAt_self : pairAt m a b i (m a i) (m b i) = m := by
  funext q j
  unfold pairAt
  split_ifs with h1 h2
  · rw [h1.1, h1.2]
  · rw [h2.1, h2.2]
  · rfl

theorem patch_pairAt_left : patch (pairAt m a b i x y) a i 1 (fun _ => z) = pairAt m a b i z y := by
  funext q j
  by_cases h : j = i ∧ q = a
  · rw [patch, if_pos ⟨h.2, by omega, by omega⟩, pairAt, if_pos h]
  · rw [patch, if_neg fun h' => h ⟨by omega, h'.1⟩, pairAt, pairAt, if_neg h, if_neg h]

theorem patch_pairAt_right (hab : a ≠ b) :
    patch (pairAt m a b i x y) b i 1 (fun _ => z) = pairAt m a b i x z := by
  funext q j
  by_cases h : j = i ∧ q = b
  · have hqa : ¬ (j = i ∧ q = a) := fun h' => hab (h'.2.symm.trans h.2)
    rw [patch, if_pos ⟨h.2, by omega, by omega⟩, pairAt, if_neg hqa, if_pos h]
  · rw [patch, if_neg fun h' => h ⟨by omega, h'.1⟩, pairAt, pairAt, if_neg h, if_neg h]

variable {q : Place}

theorem pairAt_of_ne (ha : q ≠ a) (hb : q ≠ b) : pairAt m a b i x y q = m q := by
  funext j
  rw [pairAt, if_neg fun h => ha h.2, if_neg fun h => hb h.2]

theorem pairAt_liveEq (hx : (m a i).isSome = x.isSome) (hy : (m b i).isSome = y.isSome) :
    LiveEq (pairAt m a b i x y) m := by
  intro q j
  unfold pairAt
  split_ifs with h1 h2
  · rw [h1.1, h1.2, hx]
  · rw [h2.1, h2.2, hy]
  · rfl

theorem exchanged_zero : exchanged m a b 0 = m := by
  funext q j
  rw [exchanged, if_neg (by omega), if_neg (by omega)]

variable {j : ℕ}

theorem exchanged_of_le (h : n ≤ j) : exchanged m a b n q j = m q j := by
  rw [exchanged, if_neg (by omega), if_neg (by omega)]

/-- One more pair. -/
theorem exchanged_succ :
    pairAt (exchanged m a b i) a b i (m b i) (m a i) = exchanged m a b (i + 1) := by
  funext q j
  by_cases hj : j = i
  · rw [hj, pairAt, exchanged, exchanged]
    simp only [true_and, Nat.lt_succ_self, lt_irrefl, false_and, if_false]
  · have hlt : j < i + 1 ↔ j < i := by omega
    rw [pairAt, if_neg fun h => hj h.1, if_neg fun h => hj h.1, exchanged, exchanged]
    simp only [hlt]

theorem exchanged_of_ne (ha : q ≠ a) (hb : q ≠ b) : exchanged m a b n q = m q := by
  funext j
  rw [exchanged, if_neg fun h => ha h.2, if_neg fun h => hb h.2]

theorem exchanged_left (h : j < n) : exchanged m a b n a j = m b j := if_pos ⟨h, rfl⟩

theorem exchanged_right (hab : a ≠ b) (h : j < n) : exchanged m a b n b j = m a j := by
  rw [exchanged, if_neg fun h' => hab h'.2.symm, if_pos ⟨h, rfl⟩]

/-- Objects are exchanged with objects. -/
theorem exchanged_liveEq (h : ∀ j < n, (m a j).isSome = (m b j).isSome) :
    LiveEq (exchanged m a b n) m := by
  intro q j
  unfold exchanged
  split_ifs with h1 h2
  · rw [h1.2, h j h1.1]
  · rw [h2.2, h j h2.1]
  · rfl

end Pairs

section Between

variable {w w₁ : World T} {s t : ℕ} {m : Mem T} {p : Place} {i : ℕ} {x e : Option T}
  {E : World T → Prop}

theorem Between.refl (w : World T) (s t : ℕ) : Between w w s t w.mem :=
  ⟨rfl, rfl, rfl, rfl, fun _ _ _ => rfl⟩

section

variable (h : Between w w₁ s t m)
include h

theorem Between.withMem (m' : Mem T) : Between w (w₁.withMem m') s t m' :=
  ⟨rfl, h.cap, h.fresh, h.storage, h.allocated⟩

theorem Between.into {w2 : World T} {u : ℕ} {m' : Mem T}
    (h' : Into w₁ w2 (.inlined u) m') (hu : u = s ∨ u = t) : Between w w2 s t m' := by
  refine ⟨h'.mem, h'.cap.trans h.cap, h'.fresh.trans h.fresh, h'.storage.trans h.storage,
    fun v hs ht => (h'.allocated v ?_).trans (h.allocated v hs ht)⟩
  rw [ne_eq, Place.inlined.injEq]
  rintro rfl
  exact hu.elim hs ht

theorem Between.moveFrom (hm : m p i = some x) :
    ∃ w', (w₁.mem p i).map (·, w₁.set p i (some none)) = some (x, w') ∧
      Between w w' s t (patch m p i 1 fun _ => some none) := by
  refine ⟨_, by rw [h.mem, hm]; rfl, ?_⟩
  rw [World.set_eq, h.mem]
  exact h.withMem _

theorem Between.destroyAt (hm : m p i = some x) :
    ∃ w', (if (w₁.mem p i).isSome then some ((), w₁.set p i none) else none) = some ((), w') ∧
      Between w w' s t (patch m p i 1 fun _ => none) := by
  refine ⟨_, if_pos (by rw [h.mem, hm]; rfl), ?_⟩
  rw [World.set_eq, h.mem]
  exact h.withMem _

/-- An assignment between the two. -/
theorem Between.assignAt (hm : m p i = some x) :
    Runs (assignAt p i e) w₁ (fun _ w' => Between w w' s t (patch m p i 1 fun _ => some e))
      (fun w' => Between w w' s t m) := by
  refine (assignAt_runs (by rw [h.mem, hm]; rfl) e).mono ?_ ?_
  · rintro _ _ rfl
    rw [h.mem]
    exact h.withMem _
  · rintro _ rfl
    exact h

/-- A construction between the two, which may throw. -/
theorem Between.constructAt {u : ℕ} (hu : u = s ∨ u = t)
    (hi : i < cfg.inlinedCapacity) (hm : m (.inlined u) i = none) :
    Counts (constructAt cfg (.inlined u) i e) w₁ 1
      (fun w' => Between w w' s t (patch m (.inlined u) i 1 fun _ => some e))
      fun _ r r' w' => r' = r ∧ Between w w' s t m := by
  have hvac : w₁.Vacant cfg (.inlined u) i := vacant_of rfl hi (by rw [h.mem, hm])
  have hclobber : Between w (w₁.clobber (.inlined u)) s t m :=
    h.into (by rw [← h.mem]; exact (Into.refl w₁ _).clobber) hu
  refine .lift_bind (if_pos hvac) (.tick_bind (fun r => ⟨rfl, hclobber⟩) (.lift rfl ?_))
  rw [World.set_eq, hclobber.mem]
  exact hclobber.withMem _

end

end Between

/-! ## Inlined elements -/

section Inlined

variable {w w₁ : World T} {s t : ℕ} {m : Mem T}

/-- What an exception leaves of the inlined elements. -/
def Torn (w : World T) (s t : ℕ) (w' : World T) : Prop :=
  ∃ m, Between w w' s t m ∧ LiveEq m w.mem ∧
    ∀ q, q ≠ .inlined s → q ≠ .inlined t → m q = w.mem q

/-- One of the first `n` slots of a vector has no object, and the sizes are what they were. -/
def Gap (w : World T) (s t n : ℕ) (w' : World T) : Prop :=
  w'.storage = w.storage ∧ ∃ i < n, w'.mem (.inlined s) i = none ∨ w'.mem (.inlined t) i = none

section Rounds

variable {x y : Option T} {i : ℕ} (hst : s ≠ t)
  (h : Between w w₁ s t (pairAt m (.inlined s) (.inlined t) i (some x) (some y)))
include hst h

/-- A pair is exchanged by assignments. -/
theorem swapElements_round : Runs (do
      let tmp ← moveFrom (.inlined s) i
      Prog.tick
      let e ← moveFrom (.inlined t) i
      assignAt (.inlined s) i e
      assignAt (.inlined t) i tmp) w₁
      (fun _ w' => Between w w' s t (pairAt m (.inlined s) (.inlined t) i (some y) (some x)))
      fun w' => ∃ x' y', Between w w' s t
        (pairAt m (.inlined s) (.inlined t) i (some x') (some y')) := by
  have hab : Place.inlined s ≠ .inlined t := by simpa using hst
  obtain ⟨w2, hw2, h2⟩ := h.moveFrom pairAt_left
  rw [patch_pairAt_left] at h2
  obtain ⟨w3, hw3, h3⟩ := h2.moveFrom (pairAt_right hab)
  rw [patch_pairAt_right hab] at h3
  refine lift_bind hw2 (tick_bind ⟨_, _, h2⟩ (lift_bind hw3 ?_))
  refine bind ((h3.assignAt pairAt_left).throws fun _ h => ⟨_, _, h⟩) fun _ w4 h4 => ?_
  rw [patch_pairAt_left] at h4
  refine (h4.assignAt (pairAt_right hab)).mono (fun _ _ h5 => ?_) fun _ h => ⟨_, _, h⟩
  rwa [patch_pairAt_right hab] at h5

/-- An exception in a handler leaves a slot without an object. -/
theorem swapConstruct_round (hi : i < cfg.inlinedCapacity) : Counts (do
      let tmp ← moveFrom (.inlined s) i
      Prog.tick
      destroyAt (.inlined s) i
      Prog.onThrow
        (do
          let e ← moveFrom (.inlined t) i
          constructAt cfg (.inlined s) i e)
        (constructAt cfg (.inlined s) i tmp)
      destroyAt (.inlined t) i
      Prog.onThrow (constructAt cfg (.inlined t) i tmp)
        (do
          let e ← moveFrom (.inlined s) i
          constructAt cfg (.inlined t) i e)) w₁ 3
      (fun w' => Between w w' s t (pairAt m (.inlined s) (.inlined t) i (some y) (some x)))
      fun k r _ w' => if k ≠ 0 ∧ r.head? = some 0 then Gap w s t (i + 1) w'
        else ∃ x' y', Between w w' s t
          (pairAt m (.inlined s) (.inlined t) i (some x') (some y')) := by
  have hab : Place.inlined s ≠ .inlined t := by simpa using hst
  obtain ⟨w2, hw2, h2⟩ := h.moveFrom pairAt_left
  rw [patch_pairAt_left] at h2
  obtain ⟨w3, hw3, h3⟩ := h2.destroyAt pairAt_left
  rw [patch_pairAt_left] at h3
  obtain ⟨w4, hw4, h4⟩ := h3.moveFrom (pairAt_right hab)
  rw [patch_pairAt_right hab] at h4
  have hgap : ∀ {w' x' y'}, Between w w' s t (pairAt m (.inlined s) (.inlined t) i x' y') →
      x' = none ∨ y' = none → Gap w s t (i + 1) w' := fun h' hnone => by
    refine ⟨h'.storage, i, Nat.lt_succ_self i, ?_⟩
    rwa [h'.mem, pairAt_left, pairAt_right hab]
  -- after the first tick a handler runs
  have hlater : ∀ k (r : List ℕ) w', (if r.head? = some 0 then Gap w s t (i + 1) w' else
      ∃ x' y', Between w w' s t (pairAt m (.inlined s) (.inlined t) i (some x') (some y'))) →
      if k + 1 ≠ 0 ∧ r.head? = some 0 then Gap w s t (i + 1) w' else
        ∃ x' y', Between w w' s t (pairAt m (.inlined s) (.inlined t) i (some x') (some y')) := by
    simp
  refine .lift_bind hw2 (.tick_bind (fun r => ?_) (.lift_bind hw3 ?_))
  · rw [if_neg (by simp)]
    exact ⟨_, _, h2⟩
  refine Counts.bind (n := 1) (j := 1) (Q := fun w' => Between w w' s t
    (pairAt m (.inlined s) (.inlined t) i (some y) (some none)))
    ((Counts.onThrow (.lift_bind hw4 (h4.constructAt (.inl rfl) hi pairAt_left)) fun w5 h5 =>
      (h5.constructAt (.inl rfl) hi pairAt_left).mono (fun w6 h6 => ?_)
        fun _ _ _ _ w6 h6 => hgap h6.2 (.inl rfl)).mono
      (fun w5 h5 => ?_) fun k _ r _ w5 => hlater k r w5) fun w5 h5 => ?_
  · rw [patch_pairAt_left] at h6
    exact ⟨_, _, h6⟩
  · rwa [patch_pairAt_left] at h5
  obtain ⟨w6, hw6, h6⟩ := h5.destroyAt (pairAt_right hab)
  rw [patch_pairAt_right hab] at h6
  refine .lift_bind hw6 ((Counts.onThrow (R := fun w' => ∃ x' y', Between w w' s t
    (pairAt m (.inlined s) (.inlined t) i (some x') (some y')))
    (h6.constructAt (.inr rfl) hi (pairAt_right hab)) fun w7 h7 => ?_).mono (fun w7 h7 => ?_)
    fun k _ r _ w7 => hlater (k + 1) r w7)
  · obtain ⟨w8, hw8, h8⟩ := h7.moveFrom pairAt_left
    rw [patch_pairAt_left] at h8
    refine .lift_bind hw8 ((h8.constructAt (.inr rfl) hi (pairAt_right hab)).mono (fun w9 h9 => ?_)
      fun _ _ _ _ w9 h9 => hgap h9.2 (.inr rfl))
    rw [patch_pairAt_right hab] at h9
    exact ⟨_, _, h9⟩
  · rwa [patch_pairAt_right hab] at h7

end Rounds

section Loops

variable {n : ℕ} {x y : ℕ → Option T} (hst : s ≠ t)
  (hx : ∀ i < n, w.mem (.inlined s) i = some (x i))
  (hy : ∀ i < n, w.mem (.inlined t) i = some (y i))
include hx hy

/-- The next pair. -/
theorem exchanged_pair {i : ℕ} (hi : i < n)
    (h : Between w w₁ s t (exchanged w.mem (.inlined s) (.inlined t) i)) :
    Between w w₁ s t (pairAt (exchanged w.mem (.inlined s) (.inlined t) i) (.inlined s)
      (.inlined t) i (some (x i)) (some (y i))) := by
  have hself := pairAt_self (m := exchanged w.mem (.inlined s) (.inlined t) i) (a := .inlined s)
    (b := .inlined t) (i := i)
  rw [exchanged_of_le le_rfl, exchanged_of_le le_rfl, hx i hi, hy i hi] at hself
  rwa [hself]

/-- A pair was exchanged. -/
theorem exchanged_round {i : ℕ} (hi : i < n) (h : Between w w₁ s t (pairAt
      (exchanged w.mem (.inlined s) (.inlined t) i) (.inlined s) (.inlined t) i (some (y i))
      (some (x i)))) : Between w w₁ s t (exchanged w.mem (.inlined s) (.inlined t) (i + 1)) := by
  rwa [← exchanged_succ, hx i hi, hy i hi]

/-- An exception between the pairs. -/
theorem exchanged_torn {i : ℕ} (hi : i < n) (h : ∃ x' y', Between w w₁ s t (pairAt
      (exchanged w.mem (.inlined s) (.inlined t) i) (.inlined s) (.inlined t) i (some x')
      (some y'))) : Torn w s t w₁ := by
  obtain ⟨x', y', h⟩ := h
  refine ⟨_, h, LiveEq.trans (pairAt_liveEq ?_ ?_) (exchanged_liveEq fun j hj => ?_),
    fun q hs ht => by rw [pairAt_of_ne hs ht, exchanged_of_ne hs ht]⟩
  · rw [exchanged_of_le le_rfl, hx i hi]
    rfl
  · rw [exchanged_of_le le_rfl, hy i hi]
    rfl
  · rw [hx j (by omega), hy j (by omega)]
    rfl

include hst

/-- The pairs are exchanged by assignments. -/
theorem swapElements_runs : Runs (swapElements (.inlined s) (.inlined t) n) w
    (fun _ w' => Between w w' s t (exchanged w.mem (.inlined s) (.inlined t) n))
    (Torn w s t) := by
  refine loop (fun i w' => Between w w' s t (exchanged w.mem (.inlined s) (.inlined t) i)) n ?_
    fun i hi w₁ h1 => ?_
  · rw [exchanged_zero]
    exact Between.refl w s t
  · exact (swapElements_round hst (exchanged_pair hx hy hi h1)).mono
      (fun _ _ => exchanged_round hx hy hi) fun _ => exchanged_torn hx hy hi

/-- Each round ticks three times, and the last two ticks have a handler. -/
theorem swapConstruct_counts (hn : n ≤ cfg.inlinedCapacity) :
    Counts (swapConstruct cfg (.inlined s) (.inlined t) n) w (n * 3)
      (fun w' => Between w w' s t (exchanged w.mem (.inlined s) (.inlined t) n))
      fun k r _ w' => if k % 3 ≠ 0 ∧ r.head? = some 0 then Gap w s t n w' else Torn w s t w' := by
  refine Counts.loop (E := fun k r _ w' => if k ≠ 0 ∧ r.head? = some 0 then Gap w s t n w'
    else Torn w s t w') (fun i w' => Between w w' s t (exchanged w.mem (.inlined s) (.inlined t) i))
    n ?_ fun i hi w₁ h1 => ?_
  · rw [exchanged_zero]
    exact Between.refl w s t
  refine (swapConstruct_round hst (exchanged_pair hx hy hi h1) (by omega)).mono
    (fun _ => exchanged_round hx hy hi) fun k _ r _ w' hw' => ?_
  split_ifs at hw' ⊢
  · obtain ⟨hstorage, j, hj, hnone⟩ := hw'
    exact ⟨hstorage, j, by omega, hnone⟩
  · exact exchanged_torn hx hy hi hw'

end Loops

/-- The rest of the longer vector moves over. -/
theorem moveRest_runs {small large k diff : ℕ} {e : ℕ → Option T} (h : Between w w₁ s t m)
    (hlive : LiveEq m w.mem) (hm : ∀ q, q ≠ .inlined s → q ≠ .inlined t → m q = w.mem q)
    (hne : small ≠ large) (hsmall : small = s ∨ small = t) (hlarge : large = s ∨ large = t)
    (hle : k + diff ≤ cfg.inlinedCapacity) (hdead : ∀ j < diff, m (.inlined small) (k + j) = none)
    (he : ∀ j < diff, m (.inlined large) (k + j) = some (e j)) :
    Runs (moveRest cfg small large k diff) w₁
      (fun _ w' => Between w w' s t (patch (patch m (.inlined small) k diff fun j => some (e j))
        (.inlined large) k diff fun _ => none)) (Torn w s t) := by
  have hab : Place.inlined large ≠ .inlined small := by simpa using hne.symm
  have hcap : w₁.capacityOf cfg (.inlined small) = some cfg.inlinedCapacity := rfl
  refine bind ((constructElements_move (e := e) hcap hle (by rw [h.mem]; exact hdead)
    fun j hj => ?_).throws ?_) fun _ w2 hw2 => ?_
  · rw [h.mem, zero_add, he j hj]
  · rintro w' ⟨m', hinto, hlive', hm'⟩
    rw [h.mem] at hlive' hm'
    refine ⟨m', h.into hinto hsmall, hlive'.trans hlive, fun q hs ht => ?_⟩
    rw [hm' q ?_, hm q hs ht]
    rintro rfl
    rcases hlarge with rfl | rfl
    · exact hs rfl
    · exact ht rfl
  · refine (destroyElements_runs fun j hj => ?_).imp_eq ?_
    · rw [hw2.mem, patch_of_ne hab, movedFrom, add_zero, patch_mem (by omega)]
      rfl
    have h2 := (h.into hw2 hsmall).withMem
      (patch w2.mem (.inlined large) k diff fun _ => none)
    have hpatch : patch w2.mem (.inlined large) k diff (fun _ => none)
        = patch (patch m (.inlined small) k diff fun j => some (e j)) (.inlined large) k diff
          fun _ => none := by
      rw [hw2.mem, h.mem, movedFrom, add_zero, patch_comm fun j hj => hab hj.1, patch_patch]
    rwa [hpatch] at h2 ⊢

/-- The slots of the smaller vector after the rest was moved. -/
theorem moveRest_small {a b : Place} {l : List (Option T)} {k : ℕ} (hab : a ≠ b)
    (hlt : ∀ i < k, m a i = l[i]?) (hge : ∀ i, k ≤ i → m a i = none) (hk : k ≤ l.length) (i : ℕ) :
    patch (patch m a k (l.length - k) fun j => some (elemAt l (k + j))) b k (l.length - k)
      (fun _ => none) a i = l[i]? := by
  rw [patch_of_ne hab]
  by_cases hi : i < k
  · rw [patch_notMem (by omega), hlt i hi]
  · by_cases hi' : i < l.length
    · rw [patch_mem (by omega), getElem?_eq_elemAt hi', Nat.add_sub_cancel' (by omega)]
    · rw [patch_notMem (by omega), hge i (by omega), List.getElem?_eq_none (by omega)]

/-- Those of the larger one. -/
theorem moveRest_large {a b : Place} {l : List (Option T)} {n : ℕ}
    {g : ℕ → Option (Option T)} (hab : a ≠ b) (hlt : ∀ i < l.length, m b i = l[i]?)
    (hge : ∀ i, n ≤ i → m b i = none) (hn : l.length ≤ n) (i : ℕ) :
    patch (patch m a l.length (n - l.length) g) b l.length (n - l.length) (fun _ => none) b i
      = l[i]? := by
  by_cases hi : i < l.length
  · rw [patch_notMem (by omega), patch_of_ne hab.symm, hlt i hi]
  · rw [List.getElem?_eq_none (by omega)]
    by_cases hi' : i < n
    · exact patch_mem (by omega)
    · rw [patch_notMem (by omega), patch_of_ne hab.symm, hge i (by omega)]

/-- In the exchange of `n` elements by construction a constructor throws, and the one in its handler
throws as well. -/
def ThrowsTwice (n : ℕ) (count : List ℕ) : Prop :=
  ∃ k r, count = k :: 0 :: r ∧ k < n * 3 ∧ k % 3 ≠ 0

/-- The inlined elements of two vectors changed places. -/
def Exchanged (w : World T) (s t : ℕ) (ls lt : List (Option T)) (w' : World T) : Prop :=
  ∃ m, Between w w' s t m ∧ (∀ i, m (.inlined s) i = lt[i]?) ∧ (∀ i, m (.inlined t) i = ls[i]?) ∧
    ∀ q, q ≠ .inlined s → q ≠ .inlined t → m q = w.mem q

section Lists

variable {ls lt : List (Option T)} (hs : RepAt cfg w s (.inlined s) cfg.inlinedCapacity ls)
  (ht : RepAt cfg w t (.inlined t) cfg.inlinedCapacity lt) (hst : s ≠ t)
include hs ht hst

/-- The rest moves over, whichever vector is longer. -/
theorem swapRest_runs
    (h : Between w w₁ s t (exchanged w.mem (.inlined s) (.inlined t) (min ls.length lt.length))) :
    Runs (if ls.length > lt.length then
        moveRest cfg t s (min ls.length lt.length) (ls.length - min ls.length lt.length)
      else moveRest cfg s t (min ls.length lt.length) (lt.length - min ls.length lt.length)) w₁
      (fun _ => Exchanged w s t ls lt) (Torn w s t) := by
  have hab : Place.inlined s ≠ .inlined t := by simpa using hst
  have hles := hs.le
  have hlet := ht.le
  generalize hk : min ls.length lt.length = k at *
  have hlive : LiveEq (exchanged w.mem (.inlined s) (.inlined t) k) w.mem :=
    exchanged_liveEq fun j hj => by rw [hs.elem (by omega), ht.elem (by omega)]; rfl
  have hleft : ∀ i < k, exchanged w.mem (.inlined s) (.inlined t) k (.inlined s) i = lt[i]? :=
    fun i hi => by rw [exchanged_left hi, ht.mem]
  have hright : ∀ i < k, exchanged w.mem (.inlined s) (.inlined t) k (.inlined t) i = ls[i]? :=
    fun i hi => by rw [exchanged_right hab hi, hs.mem]
  split_ifs with hlt
  · obtain rfl : lt.length = k := by omega
    have hdead : ∀ i, lt.length ≤ i →
        exchanged w.mem (.inlined s) (.inlined t) lt.length (.inlined t) i = none :=
      fun i hi => by rw [exchanged_of_le hi, ht.none hi]
    refine (moveRest_runs (e := fun j => elemAt ls _) h hlive
      (fun q => exchanged_of_ne) hst.symm (.inr rfl) (.inl rfl) (by omega)
      (fun j _ => hdead _ (by omega)) fun j hj => ?_).imp fun _ w' h' => ⟨_, h', ?_,
        moveRest_small hab.symm hright hdead hlt.le, fun q hqs hqt => ?_⟩
    · rw [exchanged_of_le (by omega), hs.elem (by omega)]
    · refine moveRest_large hab.symm hleft (fun i hi => ?_) hlt.le
      rw [exchanged_of_le (by omega), hs.none hi]
    · rw [patch_of_ne hqs, patch_of_ne hqt, exchanged_of_ne hqs hqt]
  · rw [not_lt] at hlt
    obtain rfl : ls.length = k := by omega
    have hdead : ∀ i, ls.length ≤ i →
        exchanged w.mem (.inlined s) (.inlined t) ls.length (.inlined s) i = none :=
      fun i hi => by rw [exchanged_of_le hi, hs.none hi]
    refine (moveRest_runs (e := fun j => elemAt lt _) h hlive
      (fun q => exchanged_of_ne) hst (.inl rfl) (.inr rfl) (by omega)
      (fun j _ => hdead _ (by omega)) fun j hj => ?_).imp fun _ w' h' => ⟨_, h',
        moveRest_small hab hleft hdead hlt, ?_, fun q hqs hqt => ?_⟩
    · rw [exchanged_of_le (by omega), ht.elem (by omega)]
    · refine moveRest_large hab hright (fun i hi => ?_) hlt
      rw [exchanged_of_le (by omega), ht.none hi]
    · rw [patch_of_ne hqt, patch_of_ne hqs, exchanged_of_ne hqs hqt]

/-- The elements are exchanged unless two exceptions meet. -/
theorem swapInlinedElements_runs {count : List ℕ}
    (hcount : cfg.swapPolicy = .elementwiseConstruct →
      ¬ ThrowsTwice (min ls.length lt.length) count) :
    RunsAt count (swapInlinedElements cfg s t) w (fun _ => Exchanged w s t ls lt) (Torn w s t) := by
  have hles := hs.le
  unfold swapInlinedElements
  cases hpolicy : cfg.swapPolicy with
  | memcpy =>
    refine Runs.lift (Q := fun _ => Exchanged w s t ls lt) rfl ?_ count
    refine ⟨_, ⟨rfl, rfl, rfl, rfl, fun u hus hut => ?_⟩, fun i => ?_, fun i => ?_,
      fun q hqs hqt => ?_⟩
    · change update (update w.allocated s _) t _ u = _
      rw [update_of_ne hut, update_of_ne hus]
    · change (if Place.inlined s = .inlined s then w.mem (.inlined t) else _) i = _
      rw [if_pos rfl, ht.mem]
    · change (if Place.inlined t = .inlined s then w.mem (.inlined t)
        else if Place.inlined t = .inlined t then w.mem _ else _) i = _
      rw [if_neg (by simpa using hst.symm), if_pos rfl, hs.mem]
    · change (if q = .inlined s then w.mem (.inlined t)
        else if q = .inlined t then w.mem _ else w.mem q) = _
      rw [if_neg hqs, if_neg hqt]
  | elementwiseSwap =>
    refine RunsAt.lift_bind rfl (RunsAt.lift_bind rfl ?_)
    rw [hs.size, ht.size]
    exact (swapElements_runs hst (fun i hi => hs.elem (by omega))
      (fun i hi => ht.elem (by omega)) count).bind fun _ w₁ h1 => swapRest_runs hs ht hst h1
  | elementwiseConstruct =>
    refine RunsAt.lift_bind rfl (RunsAt.lift_bind rfl ?_)
    rw [hs.size, ht.size]
    refine (((swapConstruct_counts hst (fun i hi => hs.elem (by omega))
      (fun i hi => ht.elem (by omega)) (by omega)).runsAt count).mono (fun _ _ h => h) ?_).bind
      fun _ w₁ h1 => swapRest_runs hs ht hst h1
    rintro w' ⟨k, r, -, rfl, hk, h⟩
    rw [if_neg] at h
    · exact h
    rintro ⟨hmod, hhead⟩
    obtain ⟨r, rfl⟩ := List.head?_eq_some_iff.1 hhead
    exact hcount hpolicy ⟨k, r, rfl, hk, hmod⟩

/-- A second exception leaves a slot without an object. -/
theorem swapInlinedElements_gap {count : List ℕ} (hpolicy : cfg.swapPolicy = .elementwiseConstruct)
    (hcount : ThrowsTwice (min ls.length lt.length) count) :
    ∃ r w', swapInlinedElements cfg s t count w = .thrown r w' ∧
      Gap w s t (min ls.length lt.length) w' := by
  have hles := hs.le
  obtain ⟨k, r, rfl, hk, hmod⟩ := hcount
  obtain ⟨r', w', hrun, hgap⟩ := (swapConstruct_counts hst
    (n := min ls.length lt.length) (fun i hi => hs.elem (by omega)) (fun i hi => ht.elem (by omega))
    (show _ ≤ cfg.inlinedCapacity by omega)).thrown k hk (0 :: r)
  refine ⟨r', w', ?_, by rwa [if_pos ⟨hmod, rfl⟩] at hgap⟩
  unfold swapInlinedElements
  rw [hpolicy]
  refine (lift_bind_eq rfl _).trans ((lift_bind_eq rfl _).trans ?_)
  rw [hs.size, ht.size]
  exact thrown_bind_eq hrun

end Lists

end Inlined

/-! ## The whole operation -/

section Whole

variable {w w' : World T} {s t : ℕ} {ls lt : List (Option T)}

/-- Only the inlined slots and the records of two vectors changed. -/
structure Beside (w w' : World T) (s t : ℕ) : Prop where
  heap : ∀ id, w'.mem (.heap id) = w.mem (.heap id)
  cap : w'.cap = w.cap
  fresh : w'.fresh = w.fresh
  other : ∀ u, u ≠ s → u ≠ t → w'.storage u = w.storage u ∧ w'.allocated u = w.allocated u ∧
    w'.mem (.inlined u) = w.mem (.inlined u)

theorem Beside.symm (h : Beside w w' s t) : Beside w w' t s :=
  ⟨h.heap, h.cap, h.fresh, fun u ht hs => h.other u hs ht⟩

theorem Between.beside {m : Mem T} (h : Between w w' s t m)
    (hm : ∀ q, q ≠ .inlined s → q ≠ .inlined t → m q = w.mem q) : Beside w w' s t := by
  refine ⟨fun id => ?_, h.cap, h.fresh, fun u hs ht =>
    ⟨congrFun h.storage u, h.allocated u hs ht, ?_⟩⟩
  · rw [h.mem, hm _ (by simp) (by simp)]
  · rw [h.mem, hm _ (by simpa using hs) (by simpa using ht)]

/-- The records of two vectors are exchanged. -/
def World.exchangeStorage (w : World T) (s t : ℕ) : World T :=
  { w with
    storage := update (update w.storage s (w.storage t)) t (w.storage s) }

theorem exchangeStorage_left (hst : s ≠ t) : (w.exchangeStorage s t).storage s = w.storage t := by
  change update (update w.storage s (w.storage t)) t (w.storage s) s = _
  rw [update_of_ne hst, update_self]

theorem exchangeStorage_right : (w.exchangeStorage s t).storage t = w.storage s :=
  update_self _ _ _

theorem Beside.exchangeStorage (h : Beside w w' s t) : Beside w (w'.exchangeStorage s t) s t := by
  refine ⟨h.heap, h.cap, h.fresh, fun u hs ht => ⟨?_, (h.other u hs ht).2⟩⟩
  change update (update w'.storage s _) t _ u = _
  rw [update_of_ne ht, update_of_ne hs, (h.other u hs ht).1]

/-- The two vectors hold each other's lists and have each other's blocks. -/
structure Swapped (cfg : Config) (w w' : World T) (s t : ℕ) (ls lt : List (Option T)) : Prop where
  beside : Beside w w' s t
  left : Rep cfg w' s lt
  right : Rep cfg w' t ls
  owned_left : w'.owned s = w.owned t
  owned_right : w'.owned t = w.owned s

/-- The two vectors have their blocks. -/
structure Kept (cfg : Config) (w w' : World T) (s t : ℕ) : Prop where
  beside : Beside w w' s t
  left : ∃ l, Rep cfg w' s l
  right : ∃ l, Rep cfg w' t l
  owned_left : w'.owned s = w.owned s
  owned_right : w'.owned t = w.owned t

/-- An exception leaves two vectors. -/
theorem Torn.kept (hs : RepAt cfg w s (.inlined s) cfg.inlinedCapacity ls)
    (ht : RepAt cfg w t (.inlined t) cfg.inlinedCapacity lt) (h : Torn w s t w') :
    Kept cfg w w' s t := by
  obtain ⟨m, hb, hlive, hm⟩ := h
  have hrep : ∀ {u : ℕ} {l : List (Option T)},
      RepAt cfg w u (.inlined u) cfg.inlinedCapacity l →
      (∃ l', Rep cfg w' u l') ∧ w'.owned u = w.owned u := by
    intro u l hu
    have hview := hu.view
    cases hview with
    | inlined hflag =>
      have hflag' : (w'.storage u).isAllocated = false := by rw [hb.storage, hflag]
      obtain ⟨l', hlen, hl'⟩ := exists_list fun i => by
        rw [hlive, hu.mem]
      refine ⟨⟨l', _, _, .inlined hflag', ?_, hlen ▸ hu.le, fun i => ?_⟩, ?_⟩
      · rw [hb.storage, hu.size, hlen]
      · rw [hb.mem, hl']
      · rw [World.owned, World.owned, hflag, hflag']
        rfl
  exact ⟨hb.beside hm, (hrep hs).1, (hrep ht).1, (hrep hs).2, (hrep ht).2⟩

/-- Two vectors whose slots and blocks are those of each other. -/
theorem Between.swapped {p q p' q' : Place} {c d c' d' : ℕ} {m : Mem T} (hst : s ≠ t)
    (hs : RepAt cfg w s p c ls) (ht : RepAt cfg w t q d lt) (hb : Between w w' s t m)
    (hm : ∀ q, q ≠ .inlined s → q ≠ .inlined t → m q = w.mem q)
    (hviews : View cfg (w'.exchangeStorage s t) s p' d')
    (hviewt : View cfg (w'.exchangeStorage s t) t q' c') (hp : p'.block = q.block)
    (hq : q'.block = p.block) (hd : lt.length ≤ d') (hc : ls.length ≤ c')
    (hl : ∀ i, m p' i = lt[i]?) (hr : ∀ i, m q' i = ls[i]?) :
    Swapped cfg w (w'.exchangeStorage s t) s t ls lt := by
  have hmem : (w'.exchangeStorage s t).mem = m := hb.mem
  refine ⟨(hb.beside hm).exchangeStorage, ⟨_, _, hviews, ?_, hd, fun i => ?_⟩,
    ⟨_, _, hviewt, ?_, hc, fun i => ?_⟩, ?_, ?_⟩
  · rw [exchangeStorage_left hst, hb.storage, ht.size]
  · rw [hmem, hl]
  · rw [exchangeStorage_right, hb.storage, hs.size]
  · rw [hmem, hr]
  · rw [hviews.owned_eq, hp, ht.view.owned_eq]
  · rw [hviewt.owned_eq, hq, hs.view.owned_eq]

/-- The vectors have exchanged their lists. -/
theorem Exchanged.swapped (hs : RepAt cfg w s (.inlined s) cfg.inlinedCapacity ls)
    (ht : RepAt cfg w t (.inlined t) cfg.inlinedCapacity lt) (hst : s ≠ t)
    (h : Exchanged w s t ls lt w') :
    Swapped cfg w (w'.exchangeStorage s t) s t ls lt ∧ w'.storage = w.storage := by
  obtain ⟨m, hb, hl, hr, hm⟩ := h
  have hviews := hs.view
  have hviewt := ht.view
  cases hviews with
  | inlined hflags =>
    cases hviewt with
    | inlined hflagt =>
      refine ⟨hb.swapped hst hs ht hm (.inlined ?_) (.inlined ?_) rfl rfl ht.le hs.le hl hr,
        hb.storage⟩
      · rw [exchangeStorage_left hst, hb.storage, hflagt]
      · rw [exchangeStorage_right, hb.storage, hflags]

/-- After a throw the block goes back to `s`, and the elements of `t` are still alive. -/
theorem swapMixed_undo {id c : ℕ} {w₁ : World T} {m : Mem T} {E : World T → Prop}
    (hs : RepAt cfg w s (.heap id) c ls)
    (ht : RepAt cfg w t (.inlined t) cfg.inlinedCapacity lt) (hst : s ≠ t)
    (hinto : Into w w₁ (.inlined s) m) (hlive : LiveEq m w.mem)
    (hm : ∀ q, q ≠ .inlined t → m q = w.mem q) :
    Runs (setAllocation cfg s id c) w₁ (fun _ w' => Kept cfg w w' s t) E := by
  have hab : Place.inlined s ≠ .inlined t := by simpa using hst
  have hviews := hs.view
  have hviewt := ht.view
  cases hviews with
  | allocated hflags ha hc hdead hpos =>
  cases hviewt with
  | inlined hflagt =>
    refine (setAllocation_runs ?_).imp ?_
    · rwa [hinto.mem, hm _ hab]
    rintro _ w2 heq
    have hb : Between w w2 s t m := by
      rw [heq]
      refine ⟨hinto.mem, hinto.cap, hinto.fresh, hinto.storage, fun u hus hut => ?_⟩
      change update w₁.allocated s (some (id, c)) u = _
      rw [update_of_ne hus, hinto.allocated u (by simpa using fun h => hus h.symm)]
    have hallocated : w2.allocated s = some (id, c) := by
      rw [heq]
      exact update_self _ _ _
    obtain ⟨l', hlen, hl'⟩ := exists_list fun i => by
      rw [hlive, ht.mem]
    have hviews' : View cfg w2 s (.heap id) c := by
      refine .allocated (by rw [hb.storage, hflags]) hallocated (by rw [hb.cap, hc]) ?_ hpos
      rwa [hb.mem, hm _ hab]
    have hviewt' : View cfg w2 t (.inlined t) cfg.inlinedCapacity :=
      .inlined (by rw [hb.storage, hflagt])
    refine ⟨hb.beside fun q _ hq => hm q hq, ⟨ls, _, _, hviews', ?_, hs.le, fun i => ?_⟩,
      ⟨l', _, _, hviewt', ?_, hlen ▸ ht.le, fun i => ?_⟩, ?_, ?_⟩
    · rw [hb.storage, hs.size]
    · rw [hb.mem, hm _ (by simp), hs.mem]
    · rw [hb.storage, ht.size, hlen]
    · rw [hb.mem, hl']
    · rw [hviews'.owned_eq, hs.view.owned_eq]
    · rw [hviewt'.owned_eq, ht.view.owned_eq]

/-- A block changes hands, and the inlined elements go the other way. -/
theorem swapMixed_runs {id c : ℕ} (hs : RepAt cfg w s (.heap id) c ls)
    (ht : RepAt cfg w t (.inlined t) cfg.inlinedCapacity lt) (hst : s ≠ t) :
    Runs (swapMixed cfg s t) w
      (fun _ w' => Swapped cfg w (w'.exchangeStorage s t) s t ls lt ∧ w'.storage = w.storage)
      (fun w' => Kept cfg w w' s t) := by
  have hab : Place.inlined s ≠ .inlined t := by simpa using hst
  have hviews := hs.view
  have hviewt := ht.view
  cases hviews with
  | allocated hflags ha hc hdead hpos =>
  cases hviewt with
  | inlined hflagt =>
    refine lift_bind (by rw [ha]; rfl) ?_
    refine lift_bind rfl ?_
    rw [ht.size]
    refine bind (onThrow (constructElements_move
      rfl (by rw [zero_add]; exact ht.le) (fun k _ => hdead _)
      (fun k hk => by rw [zero_add, zero_add, ht.elem hk])) ?_) fun _ w₁ hw1 => ?_
    · rintro w₁ ⟨m, hinto, hlive, hm⟩
      exact swapMixed_undo hs ht hst hinto hlive hm
    · have hgone := patch_destroyed (m := w₁.mem) (p := .inlined t) (l := lt) fun i => by
        rw [hw1.mem, patch_of_ne hab.symm, ← ht.mem]
        exact movedFrom_liveEq (fun k hk => by rw [zero_add, zero_add, ht.elem hk]; rfl) _ i
      refine bind_eq (destroyElements_runs fun k hk => ?_) ?_
      · rw [hw1.mem, patch_of_ne hab.symm, movedFrom, patch_mem (by omega)]
        rfl
      refine (setAllocation_runs hgone).imp ?_
      rintro _ w2 heq
      have hb : Between w w2 s t (patch w₁.mem (.inlined t) 0 lt.length fun _ => none) := by
        rw [heq]
        refine ⟨rfl, hw1.cap, hw1.fresh, hw1.storage, fun u hus hut => ?_⟩
        change update w₁.allocated t (some (id, c)) u = _
        rw [update_of_ne hut, hw1.allocated u (by simpa using fun h => hus h.symm)]
      have hallocated : w2.allocated t = some (id, c) := by
        rw [heq]
        exact update_self _ _ _
      have hm : ∀ q, q ≠ .inlined s → q ≠ .inlined t →
          patch w₁.mem (.inlined t) 0 lt.length (fun _ => none) q = w.mem q := fun q hqs hqt => by
        simp only [patch_of_ne hqt, hw1.mem, patch_of_ne hqs, movedFrom]
      refine ⟨hb.swapped hst hs ht hm (.inlined ?_) (.allocated ?_ hallocated ?_ ?_ hpos) rfl rfl
        ht.le hs.le (fun i => ?_) fun i => ?_, hb.storage⟩
      · rw [exchangeStorage_left hst, hb.storage, hflagt]
      · rw [exchangeStorage_right, hb.storage, hflags]
      · exact (congrFun hb.cap id).trans hc
      · change ∀ i, w2.mem (.inlined t) i = none
        rwa [hb.mem]
      · simp only [patch_of_ne hab, hw1.mem, patch_self, movedFrom, fill_list fun i _ => hdead i]
      · rw [hm _ (by simp) (by simp), hs.mem]

theorem exchangeStorage_comm (hst : s ≠ t) : w.exchangeStorage s t = w.exchangeStorage t s := by
  simp only [World.exchangeStorage, update_comm hst.symm]

theorem Swapped.symm (h : Swapped cfg w w' t s lt ls) : Swapped cfg w w' s t ls lt :=
  ⟨h.beside.symm, h.right, h.left, h.owned_right, h.owned_left⟩

theorem Kept.symm (h : Kept cfg w w' t s) : Kept cfg w w' s t :=
  ⟨h.beside.symm, h.right, h.left, h.owned_right, h.owned_left⟩

/-- The last two steps of `Swap`. -/
theorem exchangeStorage_runs {E : World T → Prop}
    (h : Swapped cfg w (w'.exchangeStorage s t) s t ls lt ∧ w'.storage = w.storage) :
    Runs (do
      setStorage s (w.storage t)
      setStorage t (w.storage s)) w' (fun _ w'' => Swapped cfg w w'' s t ls lt) E := by
  refine lift_bind rfl (lift rfl ?_)
  obtain ⟨h, hstorage⟩ := h
  rw [World.exchangeStorage, hstorage] at h
  rwa [← hstorage] at h ⊢

/-- `Swap` exchanges the lists unless two exceptions meet. -/
theorem swap_spec {count : List ℕ} (hs : Rep cfg w s ls) (ht : Rep cfg w t lt) (hst : s ≠ t)
    (hcount : (w.storage s).isAllocated = false → (w.storage t).isAllocated = false →
      cfg.swapPolicy = .elementwiseConstruct → ¬ ThrowsTwice (min ls.length lt.length) count) :
    RunsAt count (swap cfg s t) w (fun _ w' => Swapped cfg w w' s t ls lt)
      (fun w' => Kept cfg w w' s t) := by
  obtain ⟨p, c, hs⟩ := hs
  obtain ⟨q, d, ht⟩ := ht
  refine RunsAt.lift_bind rfl (RunsAt.lift_bind rfl ?_)
  have hviews := hs.view
  have hviewt := ht.view
  cases hviews with
  | inlined hflags =>
    cases hviewt with
    | inlined hflagt =>
      simp only [hflags, hflagt, Bool.and_false, Bool.false_eq_true, if_false, Bool.not_false,
        Bool.and_true, if_true]
      exact ((swapInlinedElements_runs hs ht hst (hcount hflags hflagt)).mono (fun _ _ h => h)
        fun _ => Torn.kept hs ht).bind fun _ w₁ h => exchangeStorage_runs (h.swapped hs ht hst)
    | allocated hflagt ha hc hdead hpos =>
      simp only [hflags, hflagt, Bool.and_true, Bool.false_eq_true, if_false, Bool.not_false,
        Bool.not_true, Bool.and_false]
      refine ((swapMixed_runs ht hs hst.symm).throws (fun _ h => h.symm) count).bind ?_
      rintro _ w₁ ⟨hswapped, hstorage⟩
      rw [exchangeStorage_comm hst.symm] at hswapped
      exact exchangeStorage_runs ⟨hswapped.symm, hstorage⟩
  | @allocated id _ hflags ha hc hdead hpos =>
    cases hviewt with
    | inlined hflagt =>
      simp only [hflags, hflagt, Bool.and_false, Bool.false_eq_true, if_false, Bool.not_false,
        Bool.not_true, Bool.and_true, if_true]
      exact (swapMixed_runs hs ht hst count).bind fun _ w₁ h => exchangeStorage_runs h
    | @allocated id' _ hflagt ha' hc' hdead' hpos' =>
      simp only [hflags, hflagt, Bool.and_true, if_true]
      refine RunsAt.lift_bind (by rw [ha]; rfl) (RunsAt.lift_bind (by rw [ha']; rfl) ?_)
      refine (setAllocation_runs hdead count).bind ?_
      rintro _ _ rfl
      refine bind (setAllocation_runs hdead') fun _ w₁ heq => ?_
      have hb : Between w w₁ s t w.mem := by
        rw [heq]
        refine ⟨rfl, rfl, rfl, rfl, fun u hus hut => ?_⟩
        change update (update w.allocated s _) t _ u = _
        rw [update_of_ne hut, update_of_ne hus]
      have hallocs : w₁.allocated s = some (id', d) := by
        rw [heq]
        change update (update w.allocated s _) t _ s = _
        rw [update_of_ne hst, update_self]
      have halloct : w₁.allocated t = some (id, c) := by
        rw [heq]
        exact update_self _ _ _
      have hmem : (w₁.exchangeStorage s t).mem = w.mem := hb.mem
      have hcap : (w₁.exchangeStorage s t).cap = w.cap := hb.cap
      refine exchangeStorage_runs ⟨hb.swapped hst hs ht (fun _ _ _ => rfl)
        (.allocated ?_ hallocs (by rw [hcap, hc']) (by rw [hmem]; exact hdead) hpos')
        (.allocated ?_ halloct (by rw [hcap, hc]) (by rw [hmem]; exact hdead') hpos) rfl rfl
        ht.le hs.le ht.mem hs.mem, hb.storage⟩
      · rw [exchangeStorage_left hst, hb.storage, hflagt]
      · rw [exchangeStorage_right, hb.storage, hflags]

end Whole

end Abseil.InlinedVector
