import Abseil.InlinedVectorLocal

/-!
# The operations on one vector

Each operation leaves the list it should in its vector, or some list if it throws, and changes
nothing else (`Spec`). Where the elements go to a new block, the new block is filled first
(`realloc_runs`) : what an exception leaves is undone, and the block is freed.
-/

namespace Abseil.InlinedVector

open List Throwing Runs

variable {T : Type} {cfg : Config}

/-! ## Lists and slots -/

/-- `n` new values. -/
def valuesList (v : ℕ → T) (n : ℕ) : List (Option T) := (range n).map fun k => some (v k)

@[simp] theorem length_valuesList (v : ℕ → T) (n : ℕ) : (valuesList v n).length = n := by
  simp [valuesList]

theorem getElem?_valuesList (v : ℕ → T) {n i : ℕ} (h : i < n) :
    (valuesList v n)[i]? = some (some (v i)) := by
  rw [valuesList, getElem?_map, getElem?_range h]
  rfl

/-- The element at `k`. -/
def elemAt (l : List (Option T)) (k : ℕ) : Option T := (l[k]?).getD none

theorem getElem?_eq_elemAt {l : List (Option T)} {k : ℕ} (h : k < l.length) :
    l[k]? = some (elemAt l k) := by
  rw [elemAt, getElem?_eq_getElem h]
  rfl

theorem Into.trans {w w1 w₂ : World T} {p : Place} {m m' : Mem T} (h : Into w w1 p m)
    (h' : Into w1 w₂ p m') : Into w w₂ p m' :=
  ⟨h'.mem, h'.cap.trans h.cap, h'.fresh.trans h.fresh, h'.storage.trans h.storage,
    fun t ht => (h'.allocated t ht).trans (h.allocated t ht)⟩

section Ops

variable {w : World T} {s : ℕ} {p : Place} {c c' : ℕ} {l l' : List (Option T)} {k : ℕ}

/-- The slots below the size hold the elements. -/
theorem RepAt.elem (h : RepAt cfg w s p c l) (hk : k < l.length) :
    w.mem p k = some (elemAt l k) := by
  rw [h.mem, getElem?_eq_elemAt hk]

/-- The slots from the size on are empty. -/
theorem RepAt.none (h : RepAt cfg w s p c l) (hk : l.length ≤ k) : w.mem p k = none := by
  rw [h.mem, getElem?_eq_none hk]

variable {E : World T → Prop}

/-- The operation starts with the view. -/
theorem view_bind {α : Type} (h : RepAt cfg w s p c l) {f : StorageView → Op T α}
    {Q : α → World T → Prop} (hf : Runs (f ⟨p, l.length, c⟩) w Q E) :
    Runs (makeStorageView cfg s >>= f) w Q E := by
  refine bind (makeStorageView_runs h.view) ?_
  rintro _ _ ⟨rfl, rfl⟩
  rwa [h.size]

variable {n : ℕ}

/-- The end of an operation in place that sets the size. -/
theorem setSize_end (h : RepAt cfg w s p c l) (hf : Fresh w) {w1 : World T} {m : Mem T}
    (hinto : Into w w1 p m) (hm : ∀ q, q ≠ p → m q = w.mem q) (hl : ∀ i, m p i = l'[i]?)
    (hle : l'.length ≤ c) (hn : n = l'.length) :
    Runs (setSize s n) w1 (fun _ w' => Local w w' s ∧ Rep cfg w' s l') E := by
  refine (setSize_runs n).imp_eq ?_
  rw [hn]
  exact inPlace_end h hf hinto hm hl hle

/-- The end of an assignment that throws. -/
theorem assigned_thrown (h : RepAt cfg w s p c l) (hf : Fresh w) {w' : World T}
    (ha : Assigned w p w') : Local w w' s ∧ ∃ l'', Rep cfg w' s l'' := by
  obtain ⟨m, rfl, hlive, hm⟩ := ha
  exact inPlace_thrown h hf ((Into.refl w p).withMem m) hm (hlive p)

/-! ## Building a new block -/

/-- The slots from `lo` on, `n` of them, are those of `x`. -/
def fill (g : ℕ → Option (Option T)) (lo n : ℕ) (x : ℕ → Option (Option T)) :
    ℕ → Option (Option T) := fun i => if lo ≤ i ∧ i < lo + n then x (i - lo) else g i

theorem patch_self (m : Mem T) (q : Place) (lo n : ℕ) (x : ℕ → Option (Option T)) :
    patch m q lo n x q = fill (m q) lo n x := by
  funext i
  by_cases hi : lo ≤ i ∧ i < lo + n
  · rw [patch_mem hi, fill, if_pos hi]
  · rw [patch_notMem hi, fill, if_neg hi]

theorem fill_list {g : ℕ → Option (Option T)} (hg : ∀ i, l.length ≤ i → g i = Option.none) :
    fill g 0 l.length (fun k => some (elemAt l k)) = fun i => l[i]? := by
  funext i
  by_cases hi : i < l.length
  · rw [fill, if_pos (by omega), Nat.sub_zero, getElem?_eq_elemAt hi]
  · rw [fill, if_neg (by omega), hg i (by omega), getElem?_eq_none (by omega)]

theorem fill_values {g : ℕ → Option (Option T)} (v : ℕ → T) (hg : ∀ i, n ≤ i → g i = Option.none) :
    fill g 0 n (fun k => some (some (v (0 + k)))) = fun i => (valuesList v n)[i]? := by
  funext i
  by_cases hi : i < n
  · rw [fill, if_pos (by omega), Nat.sub_zero, zero_add, getElem?_valuesList v hi]
  · rw [fill, if_neg (by omega), hg i (by omega), getElem?_eq_none (by simpa using hi)]

/-- The slots of the new block are `g`. The old elements are still objects, and those from `k` on
are what they were. -/
def Partly (w : World T) (c' : ℕ) (p : Place) (g : ℕ → Option (Option T)) (k : ℕ)
    (w₂ : World T) : Prop :=
  ∃ m, Into (w.alloc c') w₂ (.heap w.fresh) m ∧ m (.heap w.fresh) = g ∧
    (∀ q, q ≠ p → q ≠ .heap w.fresh → m q = w.mem q) ∧
    (∀ i, (m p i).isSome = (w.mem p i).isSome) ∧ ∀ i, k ≤ i → m p i = w.mem p i

variable {g : ℕ → Option (Option T)}

/-- A new block is empty. -/
theorem partly_start (hf : Fresh w) (p : Place) (c' : ℕ) :
    Partly w c' p (fun _ => none) 0 (w.alloc c') :=
  ⟨w.mem, Into.refl _ _, funext (hf w.fresh le_rfl).2, fun _ _ _ => rfl, fun _ => rfl,
    fun _ _ => rfl⟩

section Build

variable {w₂ : World T} {g : ℕ → Option (Option T)} {k lo n : ℕ}

/-- Values go to the new block. -/
theorem build_values (hne : p ≠ .heap w.fresh) (hb : Partly w c' p g k w₂) (v : ℕ → T) (used : ℕ)
    (hle : lo + n ≤ c') (hdead : ∀ i < n, g (lo + i) = none) :
    Runs (constructElements cfg (.heap w.fresh) lo (valuesOf v) used n) w₂
      (fun _ => Partly w c' p (fill g lo n fun i => some (some (v (used + i)))) k)
      (Partly w c' p g k) := by
  obtain ⟨m, hinto, rfl, hm, hlive, hrest⟩ := hb
  have hc : w₂.capacityOf cfg (.heap w.fresh) = some c' := by
    rw [hinto.capacityOf]
    exact alloc_capacityOf c'
  refine (constructElements_values v used hc hle (by rw [hinto.mem]; exact hdead)).mono ?_ ?_
  · intro _ w3 hw3
    rw [hinto.mem] at hw3
    refine ⟨_, hinto.trans hw3, patch_self _ _ _ _ _, fun q hq hq' => ?_, fun i => ?_,
      fun i hi => ?_⟩
    · rw [patch_of_ne hq', hm q hq hq']
    · rw [patch_of_ne hne, hlive]
    · rw [patch_of_ne hne, hrest i hi]
  · intro w3 hw3
    rw [hinto.mem] at hw3
    exact ⟨m, hinto.trans hw3, rfl, hm, hlive, hrest⟩

/-- Elements move to the new block. -/
theorem build_move (h : RepAt cfg w s p c l) (hne : p ≠ .heap w.fresh) {used : ℕ}
    (hb : Partly w c' p g k w₂) (hk : k ≤ used) (hle : lo + n ≤ c') (hn : used + n ≤ l.length)
    (hdead : ∀ i < n, g (lo + i) = none) :
    Runs (constructElements cfg (.heap w.fresh) lo (moveValues p 0) used n) w₂
      (fun _ => Partly w c' p (fill g lo n fun i => some (elemAt l (used + i))) (used + n))
      (fun w3 => ∃ k', Partly w c' p g k' w3) := by
  obtain ⟨m, hinto, rfl, hm, hlive, hrest⟩ := hb
  have hc : w₂.capacityOf cfg (.heap w.fresh) = some c' := by
    rw [hinto.capacityOf]
    exact alloc_capacityOf c'
  have he : ∀ i < n, w₂.mem p (0 + (used + i)) = some (elemAt l (used + i)) := by
    intro i hi
    rw [hinto.mem, zero_add, hrest _ (by omega), h.elem (by omega)]
  refine (constructElements_move hc hle (by rw [hinto.mem]; exact hdead) he).mono ?_ ?_
  · intro _ w3 hw3
    rw [hinto.mem, zero_add] at hw3
    refine ⟨_, hinto.trans hw3, ?_, fun q hq hq' => ?_, fun i => ?_, fun i hi => ?_⟩
    · rw [patch_self, movedFrom, patch_of_ne hne.symm]
    · rw [patch_of_ne hq', movedFrom, patch_of_ne hq, hm q hq hq']
    · have hmoved : LiveEq (movedFrom m p used n) m := movedFrom_liveEq fun i hi => by
        rw [hlive, h.elem (by omega)]
        rfl
      rw [patch_of_ne hne, hmoved, hlive]
    · rw [patch_of_ne hne, movedFrom, patch_notMem (by omega), hrest i (by omega)]
  · rintro w3 ⟨m', hw3, hlive', hother⟩
    rw [hinto.mem] at hlive' hother
    refine ⟨l.length, m', hinto.trans hw3, hother _ hne.symm, fun q hq hq' => ?_, fun i => ?_,
      fun i hi => ?_⟩
    · rw [hother q hq, hm q hq hq']
    · rw [hlive', hlive]
    · have hnone := h.none hi
      have hsome := (hlive' p i).trans (hlive i)
      rw [hnone] at hsome ⊢
      exact Option.not_isSome_iff_eq_none.1 (by rw [hsome]; simp)

/-- New elements are destroyed after an exception. -/
theorem unbuild (hne : p ≠ .heap w.fresh) {x : ℕ → Option T}
    (hb : Partly w c' p (fill g lo n fun i => some (x i)) k w₂) (hdead : ∀ i < n, g (lo + i) = none)
    {E : World T → Prop} :
    Runs (destroyElements (.heap w.fresh) lo n) w₂ (fun _ => Partly w c' p g k) E := by
  obtain ⟨m, hinto, hnew, hm, hlive, hrest⟩ := hb
  refine (destroyElements_runs ?_).imp_eq ?_
  · intro i hi
    rw [hinto.mem, hnew, fill, if_pos (by omega)]
    rfl
  rw [hinto.mem]
  refine ⟨_, hinto.withMem _, ?_, fun q hq hq' => ?_, fun i => ?_, fun i hi => ?_⟩
  · rw [patch_self, hnew]
    funext i
    rw [fill]
    split_ifs with hi
    · rw [← hdead (i - lo) (by omega), Nat.add_sub_cancel' hi.1]
    · rw [fill, if_neg hi]
  · rw [patch_of_ne hq', hm q hq hq']
  · rw [patch_of_ne hne, hlive]
  · rw [patch_of_ne hne, hrest i hi]

end Build

theorem le_computeCapacity (a b : ℕ) : b ≤ computeCapacity a b := le_max_right _ _

theorem View.computeCapacity_pos (h : View cfg w s p c) (n : ℕ) : 0 < computeCapacity c n :=
  lt_of_lt_of_le (Nat.mul_pos h.pos two_pos) (le_max_left _ _)

variable {index count : ℕ}

/-- The list with values inserted. -/
theorem getElem?_insert (v : ℕ → T) (hindex : index ≤ l.length) (i : ℕ) :
    (l.take index ++ valuesList v count ++ l.drop index)[i]?
      = if i < index then l[i]? else if i < index + count then some (some (v (i - index)))
        else l[i - count]? := by
  have hlen : (l.take index ++ valuesList v count).length = index + count := by
    rw [length_append, length_take, length_valuesList]
    omega
  have htake : (l.take index).length = index := by
    rw [length_take]
    omega
  rw [getElem?_append, hlen]
  by_cases h1 : i < index + count
  · rw [if_pos h1, getElem?_append, htake]
    by_cases h2 : i < index
    · simp only [if_pos h2, getElem?_take]
    · rw [if_neg h2, if_neg h2, if_pos h1, getElem?_valuesList v (by omega)]
  · rw [if_neg h1, if_neg (by omega), if_neg h1, getElem?_drop]
    congr 1
    omega

/-- The list with elements erased. -/
theorem getElem?_erase (hn : index + n ≤ l.length) (i : ℕ) :
    (l.take index ++ l.drop (index + n))[i]? = if i < index then l[i]? else l[i + n]? := by
  have htake : (l.take index).length = index := by
    rw [length_take]
    omega
  rw [getElem?_append, htake]
  by_cases hi : i < index
  · simp only [if_pos hi, getElem?_take]
  · rw [if_neg hi, if_neg hi, getElem?_drop]
    congr 1
    omega

section

variable (h : RepAt cfg w s p c l) (hf : Fresh w)
include h hf

/-- A block that is built, or freed if that throws. -/
theorem realloc_runs {build next : ℕ → Op T Unit}
    {Q : Unit → World T → Prop}
    (hbuild : Runs (build w.fresh) (w.alloc c') (fun _ => Partly w c' p g k)
      fun w₂ => ∃ k, Partly w c' p (fun _ => none) k w₂)
    (hnext : ∀ w₂, Partly w c' p g k w₂ → Runs (next w.fresh) w₂ Q
      fun w' => Local w w' s ∧ ∃ l'', Rep cfg w' s l'') :
    Runs (do
      let id ← allocate c'
      Prog.onThrow (build id) (deallocate id c')
      next id) w Q fun w' => Local w w' s ∧ ∃ l'', Rep cfg w' s l'' := by
  refine bind (allocate_runs c') ?_
  rintro _ _ ⟨rfl, rfl⟩
  refine bind (onThrow hbuild ?_) fun _ w₂ hw2 => hnext w₂ hw2
  rintro w₂ ⟨k, m, hinto, hnew, hm, hlive, -⟩
  refine unadopted_runs h hf hinto (fun q hq => ?_) hlive
  by_cases hq' : q = .heap w.fresh
  · rw [hq', hnew]
    exact (funext (hf w.fresh le_rfl).2).symm
  · exact hm q hq hq'

/-- The block that was built is taken over. -/
theorem adopt_runs {w₂ : World T} (hb : Partly w c' p g k w₂) :
    Runs (adoptAllocation cfg s ⟨p, l.length, c⟩ w.fresh c') w₂
      (fun _ w' => Adopted w w' s p c' g) E := by
  obtain ⟨m, hinto, rfl, hm, hlive, -⟩ := hb
  exact adoptAllocation_runs h hf hinto hm hlive

/-- The new block is adopted, and the size set. -/
theorem adopt_setSize {w₂ : World T}
    (hb : Partly w c' p g k w₂) (hg : ∀ i, g i = l'[i]?) (hle : l'.length ≤ c') (hpos : 0 < c')
    (hn : n = l'.length) :
    Runs (do
      adoptAllocation cfg s ⟨p, l.length, c⟩ w.fresh c'
      setSize s n) w₂ (fun _ w' => Local w w' s ∧ Rep cfg w' s l') E := by
  refine bind (adopt_runs h hf hb) fun _ w3 hw3 => ?_
  refine (setSize_runs n).imp_eq ?_
  rw [hn]
  exact adopted_end h.view hf hw3 hg hle hpos

/-! ## Resize and assign -/

/-- `Resize` cuts the list or adds values to it. -/
theorem resize_spec (v : ℕ → T) (newSize : ℕ) :
    Spec cfg w s (resize cfg s (valuesOf v) newSize)
      (l.take newSize ++ valuesList v (newSize - l.length)) := by
  refine view_bind h ?_
  dsimp only
  have hne := h.view.ne_fresh hf
  have hle := h.le
  split_ifs with h1 h2
  · refine bind_eq (destroyElements_runs ?_) ?_
    · intro k hk
      rw [h.elem (by omega)]
      rfl
    refine setSize_end h hf ((Into.refl w p).withMem _) (fun q hq => patch_of_ne hq) ?_ ?_ ?_
    · intro i
      rw [Nat.sub_eq_zero_of_le h1, valuesList, range_zero, map_nil, append_nil, getElem?_take]
      split_ifs with hi
      · rw [patch_notMem (by omega), h.mem]
      · by_cases hi' : i < l.length
        · exact patch_mem (by omega)
        · rw [patch_notMem (by omega), h.none (by omega)]
    · simp
      omega
    · simp
      omega
  · refine bind ((constructElements_values v 0 h.view.capacityOf (by omega)
      fun k _ => h.none (by omega)).throws ?_) ?_
    · intro w' hw'
      exact inPlace_thrown h hf hw' (fun _ _ => rfl) fun _ => rfl
    intro _ w1 hw1
    refine setSize_end h hf hw1 (fun q hq => patch_of_ne hq) ?_ ?_ ?_
    · intro i
      rw [take_of_length_le (by omega), getElem?_append]
      split_ifs with hi
      · rw [patch_notMem (by omega), h.mem]
      · by_cases hi' : i < newSize
        · rw [patch_mem (by omega), getElem?_valuesList v (by omega), zero_add]
        · rw [patch_notMem (by omega), h.none (by omega), getElem?_eq_none (by simp; omega)]
    · simp
      omega
    · simp
      omega
  · have hcap := le_computeCapacity c newSize
    refine realloc_runs h hf (g := fill (fill (fun _ => none) l.length (newSize - l.length)
        fun i => some (some (v (0 + i)))) 0 l.length fun i => some (elemAt l (0 + i)))
      (k := 0 + l.length) ?_ fun w₂ hw2 => adopt_setSize h hf hw2 ?_ (by simp; omega)
        (h.view.computeCapacity_pos _) (by simp; omega)
    · refine bind ((build_values hne (partly_start hf p _) v 0 (by omega)
        fun _ _ => rfl).throws fun _ h => ⟨0, h⟩) fun _ w₂ hw2 => ?_
      refine onThrow
        (build_move h hne hw2 le_rfl (by omega) (by omega) fun i hi => ?_) ?_
      · rw [fill, if_neg (by omega)]
      · rintro w3 ⟨k, hw3⟩
        exact (unbuild hne hw3 fun _ _ => rfl).imp (fun _ _ h => ⟨k, h⟩)
    · intro i
      rw [take_of_length_le (by omega), getElem?_append]
      split_ifs with hi
      · rw [fill, if_pos (by omega), zero_add, Nat.sub_zero, getElem?_eq_elemAt hi]
      · rw [fill, if_neg (by omega), fill]
        by_cases hi' : i < newSize
        · rw [if_pos (by omega), getElem?_valuesList v (by omega), zero_add]
        · rw [if_neg (by omega), getElem?_eq_none (by simp; omega)]

/-- `Reserve` keeps the list. -/
theorem reserve_spec (requestedCapacity : ℕ) :
    Spec cfg w s (reserve cfg s requestedCapacity) l := by
  refine view_bind h ?_
  dsimp only
  have hne := h.view.ne_fresh hf
  have hle := h.le
  split_ifs with h1
  · refine pure ⟨InPlace.local ⟨fun _ _ => rfl, rfl, le_rfl, fun _ _ => rfl, rfl,
      fun _ _ => rfl⟩ h.view hf, p, c, h⟩
  have hcap := le_computeCapacity c requestedCapacity
  refine realloc_runs h hf
    (build_move h hne (partly_start hf p _) le_rfl (by omega) (by omega) fun _ _ => rfl)
    fun w₂ hw2 => (adopt_runs h hf hw2).imp (fun _ w3 hw3 => ?_)
  have hend := adopted_end h.view hf hw3 (r := l) (fun i => ?_) (by omega)
    (h.view.computeCapacity_pos _)
  · rwa [withSize_self (by rw [hw3.storage, Function.update_self, h.size])] at hend
  · simp only [zero_add, fill_list (g := fun _ => Option.none) fun _ _ => rfl]

/-- `Assign` replaces the list. -/
theorem assign_spec (v : ℕ → T) (newSize : ℕ) :
    Spec cfg w s (assign cfg s (valuesOf v) newSize) (valuesList v newSize) := by
  refine view_bind h ?_
  dsimp only
  have hne := h.view.ne_fresh hf
  split_ifs with h1 h2
  · have hcap := le_computeCapacity c newSize
    refine realloc_runs h hf (g := fill (fun _ => none) 0 newSize fun i => some (some (v (0 + i))))
      ((build_values hne (partly_start hf p _) v 0 (by omega) fun _ _ => rfl).throws
        fun _ h => ⟨0, h⟩)
      fun w₂ hw2 => adopt_setSize h hf hw2 ?_ (by simp; omega) (h.view.computeCapacity_pos _)
        (by simp)
    exact congrFun (fill_values v fun _ _ => rfl)
  · refine bind_eq ((assignElements_values v 0 fun k hk => ?_).throws
      fun _ ha => assigned_thrown h hf ha) ?_
    · rw [zero_add, h.elem hk]
      rfl
    have hinto := (Into.refl w p).withMem
      (patch w.mem p 0 l.length fun k => some (some (v (0 + k))))
    have hlive : LiveEq (patch w.mem p 0 l.length fun k => some (some (v (0 + k)))) w.mem :=
      LiveEq.patch fun k hk => by rw [zero_add, h.elem hk]; rfl
    refine bind ((constructElements_values v l.length
      (by rw [hinto.capacityOf, h.view.capacityOf]) (by omega) fun k _ => ?_).throws ?_) ?_
    · rw [hinto.mem, patch_notMem (by omega), h.none (by omega)]
    · intro w' hw'
      rw [hinto.mem] at hw'
      exact inPlace_thrown h hf (hinto.trans hw') (fun q hq => patch_of_ne hq) (hlive p)
    intro _ w₂ hw2
    refine setSize_end h hf (hinto.trans hw2) (fun q hq => ?_) (fun i => ?_) (by simp; omega)
      (by simp)
    · rw [patch_of_ne hq, hinto.mem, patch_of_ne hq]
    by_cases hi : i < l.length
    · rw [patch_notMem (by omega), hinto.mem, patch_mem (by omega),
        getElem?_valuesList v (by omega), zero_add, Nat.sub_zero]
    · by_cases hi' : i < newSize
      · rw [patch_mem (by omega), getElem?_valuesList v hi', Nat.add_sub_cancel' (by omega)]
      · rw [patch_notMem (by omega), hinto.mem, patch_notMem (by omega),
          h.none (by omega), getElem?_eq_none (by simp; omega)]
  · refine bind_eq ((assignElements_values v 0 fun k hk => ?_).throws
      fun _ ha => assigned_thrown h hf ha) ?_
    · rw [zero_add, h.elem (by omega)]
      rfl
    have hinto := (Into.refl w p).withMem (patch w.mem p 0 newSize fun k => some (some (v (0 + k))))
    refine bind_eq (destroyElements_runs fun k hk => ?_) ?_
    · rw [hinto.mem, patch_notMem (by omega), h.elem (by omega)]
      rfl
    refine setSize_end h hf (hinto.withMem _) (fun q hq => ?_) (fun i => ?_) (by simp; omega)
      (by simp)
    · rw [patch_of_ne hq, hinto.mem, patch_of_ne hq]
    by_cases hi : i < newSize
    · rw [patch_notMem (by omega), hinto.mem, patch_mem (by omega),
        getElem?_valuesList v hi, zero_add, Nat.sub_zero]
    · rw [getElem?_eq_none (by simp; omega)]
      by_cases hi' : i < l.length
      · exact patch_mem (by omega)
      · simp (disch := omega) only [patch_notMem, hinto.mem, h.none]

/-! ## Insert -/

section

variable (v : ℕ → T) (hindex : index ≤ l.length)
include hindex

/-- `Insert` with a new block. -/
theorem insertAllocating_spec :
    Spec cfg w s (insertAllocating cfg s ⟨p, l.length, c⟩ index (valuesOf v) count)
      (l.take index ++ valuesList v count ++ l.drop index) := by
  unfold insertAllocating
  dsimp only
  have hne := h.view.ne_fresh hf
  have hcap := le_computeCapacity c (l.length + count)
  refine realloc_runs h hf (g := fill (fill (fill (fun _ => none) index count
      fun i => some (some (v (0 + i)))) 0 index fun i => some (elemAt l (0 + i))) (index + count)
      (l.length - index) fun i => some (elemAt l (index + i)))
    (k := index + (l.length - index)) ?_ fun w₂ hw2 =>
      adopt_setSize h hf hw2 ?_ ?_ (h.view.computeCapacity_pos _) ?_
  · refine bind ((build_values hne (partly_start hf p _) v 0 (by omega)
        fun _ _ => rfl).throws fun _ h => ⟨0, h⟩) fun _ w₂ hw2 => ?_
    refine onThrow (G := fun w3 => ∃ k, Partly w
      (computeCapacity c (l.length + count)) p
      (fill (fun _ => none) index count fun i => some (some (v (0 + i)))) k w3) ?_ ?_
    · refine bind (build_move h hne hw2 le_rfl (by omega) (by omega) fun i hi => ?_)
        fun _ w3 hw3 => ?_
      · rw [fill, if_neg (by omega)]
      refine onThrow
        (build_move h hne hw3 (by omega) (by omega) (by omega) fun i hi => ?_) ?_
      · simp (disch := omega) only [fill, if_neg]
      · rintro w4 ⟨k, hw4⟩
        exact (unbuild hne hw4 fun i hi => by rw [fill, if_neg (by omega)]).mono
          (fun _ _ h => ⟨k, h⟩) fun _ h => h
    · rintro w3 ⟨k, hw3⟩
      exact (unbuild hne hw3 fun _ _ => rfl).imp (fun _ _ h => ⟨k, h⟩)
  · intro i
    rw [getElem?_insert v hindex]
    by_cases h1 : i < index
    · simp (disch := omega) only [if_pos h1, fill, if_neg, if_pos, zero_add, Nat.sub_zero,
        getElem?_eq_elemAt]
    rw [if_neg h1]
    split_ifs with h2
    · simp (disch := omega) only [fill, if_neg, if_pos, zero_add]
    rw [fill]
    by_cases h3 : i < l.length + count
    · rw [if_pos (by omega), getElem?_eq_elemAt (by omega)]
      congr 2
      omega
    · simp (disch := omega) only [if_neg, fill, getElem?_eq_none]
  · simp
    omega
  · simp
    omega

/-- The memory after the last `n` elements were moved up to `dest`. -/
def tailMoved (m : Mem T) (p : Place) (l : List (Option T)) (count dest n : ℕ) : Mem T :=
  patch (movedFrom m p (dest - count) n) p dest n fun k => some (elemAt l (dest - count + k))

/-- The memory after the elements between `index` and those were moved up as well, and the values
were written to where they were and behind. -/
def gapFilled (m : Mem T) (p : Place) (l : List (Option T)) (v : ℕ → T)
    (index count dest n : ℕ) : Mem T :=
  patch (patch (patch (movedFrom m p index (dest - (index + count))) p (index + count)
    (dest - (index + count)) fun k => some (elemAt l (index + k))) p index n
    fun k => some (some (v (0 + k)))) p (index + n) (count - n) fun k => some (some (v (n + k)))

/-- Objects are where they are in `m₁`, and nothing changed but for `p`. -/
def LiveKept (w : World T) (p : Place) (m₁ : Mem T) (w' : World T) : Prop :=
  ∃ m, Into w w' p m ∧ LiveEq m m₁ ∧ ∀ q, q ≠ p → m q = w.mem q

omit h hf hindex in
/-- What was assigned keeps its objects. -/
theorem Assigned.kept {w₁ w' : World T} {m m₁ : Mem T} (ha : Assigned w₁ p w') (hw₁ : Into w w₁ p m)
    (hlive : LiveEq m m₁) (hother : ∀ q, q ≠ p → m q = w.mem q) : LiveKept w p m₁ w' := by
  obtain ⟨m', rfl, hlive', hother'⟩ := ha
  rw [hw₁.mem] at hlive' hother'
  exact ⟨m', hw₁.withMem m', hlive'.trans hlive, fun q hq => (hother' q hq).trans (hother q hq)⟩

section Gap

variable {dest n : ℕ} (hdest : max (index + count) l.length = dest)
  (hn : l.length + count - dest = n)
include hdest hn

omit h hf in
/-- The tail that is still in place moves up onto objects, and the values are written : first onto
objects, then behind them. -/
theorem gapFilled_runs {w₁ : World T} {m₁ : Mem T} (hw₁ : Into w w₁ p m₁)
    (hc : w₁.capacityOf cfg p = some c) (hroom : l.length + count ≤ c)
    (hother : ∀ q, q ≠ p → m₁ q = w.mem q) (hlive : ∀ i < l.length, (m₁ p i).isSome)
    (helem : ∀ i < dest - count, m₁ p i = some (elemAt l i))
    (hdead : ∀ i, l.length ≤ i → i < dest → m₁ p i = none) :
    Runs (do
        moveBackward p index (index + count) (dest - (index + count))
        assignElements p index (valuesOf v) 0 n
        constructElements cfg p (index + n) (valuesOf v) n (count - n)) w₁
      (fun _ w' => Into w w' p (gapFilled m₁ p l v index count dest n)) (LiveKept w p m₁) := by
  have hmoves : ∀ k < dest - (index + count),
      w₁.mem p (index + k) = some (elemAt l (index + k)) := by
    intro k hk
    rw [hw₁.mem, helem _ (by omega)]
  refine bind_eq ((moveBackward_runs (by omega) (fun k hk => ?_) hmoves).throws
    fun _ ha => ha.kept hw₁ (fun _ _ => rfl) hother) ?_
  · rw [hw₁.mem]
    exact hlive _ (by omega)
  rw [hw₁.mem]
  generalize hm2 : patch _ p (index + count) (dest - (index + count)) _ = m2
  have hmoved : LiveEq (movedFrom m₁ p index (dest - (index + count))) m₁ :=
    movedFrom_liveEq fun k hk => hlive _ (by omega)
  have hlive2 : LiveEq m2 m₁ := hm2 ▸ hmoved.assign fun k hk => hlive _ (by omega)
  have hother2 : ∀ q, q ≠ p → m2 q = w.mem q := fun q hq => by
    rw [← hm2, patch_of_ne hq, movedFrom, patch_of_ne hq, hother q hq]
  have hw2 := hw₁.withMem m2
  have hassign : ∀ k < n, ((w₁.withMem m2).mem p (index + k)).isSome := by
    intro k hk
    rw [hw2.mem, hlive2, hlive _ (by omega)]
  refine bind_eq ((assignElements_values v 0 hassign).throws
    fun _ ha => ha.kept hw2 hlive2 hother2) ?_
  rw [hw2.mem]
  generalize hm3 : patch m2 p index n _ = m3
  have hlive3 : LiveEq m3 m₁ := hm3 ▸ hlive2.assign fun k hk => hlive _ (by omega)
  have hother3 : ∀ q, q ≠ p → m3 q = w.mem q := fun q hq => by
    rw [← hm3, patch_of_ne hq, hother2 q hq]
  have hw3 := hw2.withMem m3
  have hfree : ∀ k < count - n, ((w₁.withMem m2).withMem m3).mem p (index + n + k) = none := by
    intro k hk
    rw [hw3.mem]
    simp (disch := omega) only [← hm3, ← hm2, movedFrom, patch_notMem, hdead]
  refine (constructElements_values v n (by rw [hw3.capacityOf, ← hw₁.capacityOf, hc])
    (by omega) hfree).mono ?_ ?_
  · intro _ w4 hw4
    rw [gapFilled, hm2, hm3]
    exact hw3.trans hw4
  · intro w4 hw4
    exact ⟨m3, hw3.trans hw4, hlive3, hother3⟩

omit hf in
/-- The slots hold the elements with the values between them. -/
theorem gapFilled_tailMoved (i : ℕ) :
    gapFilled (tailMoved w.mem p l count dest n) p l v index count dest n p i
      = (l.take index ++ valuesList v count ++ l.drop index)[i]? := by
  rw [getElem?_insert v hindex, gapFilled, tailMoved]
  by_cases h1 : i < index
  · simp (disch := omega) only [if_pos h1, patch_notMem, movedFrom, h.mem]
  rw [if_neg h1]
  split_ifs with h2
  · by_cases h3 : i < index + n
    · rw [patch_notMem (by omega), patch_mem ⟨by omega, h3⟩, zero_add]
    · rw [patch_mem (by omega), show n + (i - (index + n)) = i - index by omega]
  simp (disch := omega) only [patch_notMem]
  by_cases h3 : i < dest
  · rw [patch_mem (by omega), getElem?_eq_elemAt (by omega),
      show index + (i - (index + count)) = i - count by omega]
  simp (disch := omega) only [patch_notMem, movedFrom]
  by_cases h4 : i < l.length + count
  · rw [patch_mem (by omega), getElem?_eq_elemAt (by omega),
      show dest - count + (i - dest) = i - count by omega]
  · simp (disch := omega) only [patch_notMem, h.none, getElem?_eq_none]

omit hf hindex in
/-- After the tail was moved, objects are in the slots of the elements and of the tail. -/
theorem isSome_tailMoved (i : ℕ) : (tailMoved w.mem p l count dest n p i).isSome
    = decide (i < l.length ∨ dest ≤ i ∧ i < dest + n) := by
  rw [tailMoved]
  by_cases hi : dest ≤ i ∧ i < dest + n
  · rw [patch_mem hi, decide_eq_true (.inr hi)]
    rfl
  rw [patch_notMem hi, movedFrom]
  by_cases hmoved : dest - count ≤ i ∧ i < dest - count + n
  · rw [patch_mem hmoved, decide_eq_true (by omega)]
    rfl
  rw [patch_notMem hmoved]
  by_cases hlt : i < l.length
  · rw [h.elem hlt, decide_eq_true (.inl hlt)]
    rfl
  · rw [h.none (by omega), decide_eq_false (by omega)]
    rfl

omit hindex in
/-- The handler destroys what was moved behind the elements. -/
theorem insertInPlace_undo {w' : World T}
    (hw' : LiveKept w p (tailMoved w.mem p l count dest n) w') :
    Runs (destroyElements p dest n) w' (fun _ w'' => Local w w'' s ∧ ∃ l'', Rep cfg w'' s l'')
      E := by
  obtain ⟨m, hw', hlive, hother⟩ := hw'
  refine (destroyElements_runs fun k hk => ?_).imp_eq ?_
  · rw [hw'.mem, hlive, isSome_tailMoved h hdest hn, decide_eq_true (by omega)]
  rw [hw'.mem]
  refine inPlace_thrown h hf (hw'.withMem _) (fun q hq => ?_) fun i => ?_
  · rw [patch_of_ne hq, hother q hq]
  by_cases hi : dest ≤ i ∧ i < dest + n
  · rw [patch_mem hi, h.none (by omega)]
  · rw [patch_notMem hi, hlive, isSome_tailMoved h hdest hn]
    by_cases hlt : i < l.length
    · rw [h.elem hlt, decide_eq_true (.inl hlt)]
      rfl
    · rw [h.none (by omega), decide_eq_false (by omega)]
      rfl

end Gap

/-- The tail moves up, in part onto objects and in part behind them, and so do the new values. -/
theorem insertInPlace_spec (hroom : l.length + count ≤ c) :
    Spec cfg w s (insertInPlace cfg s ⟨p, l.length, c⟩ index (valuesOf v) count)
      (l.take index ++ valuesList v count ++ l.drop index) := by
  unfold insertInPlace
  dsimp only
  generalize hdest : max (index + count) l.length = dest
  generalize hn : l.length + count - dest = n
  have he : ∀ k < n, w.mem p (dest - count + (0 + k)) = some (elemAt l (dest - count + k)) := by
    intro k hk
    rw [zero_add, h.elem (by omega)]
  refine bind ((constructElements_move h.view.capacityOf (by omega)
    (fun k hk => h.none (by omega)) he).throws ?_) fun _ w₁ hw₁ => ?_
  · rintro w' ⟨m, hw', hlive, hother⟩
    exact inPlace_thrown h hf hw' hother (hlive p)
  rw [add_zero] at hw₁
  change Into w w₁ p (tailMoved w.mem p l count dest n) at hw₁
  have hother : ∀ q, q ≠ p → tailMoved w.mem p l count dest n q = w.mem q := fun q hq => by
    rw [tailMoved, patch_of_ne hq, movedFrom, patch_of_ne hq]
  -- an exception leaves the objects where they were, and those behind them are destroyed
  refine bind (onThrow (gapFilled_runs v hindex hdest hn hw₁
      (by rw [hw₁.capacityOf, h.view.capacityOf]) hroom hother (fun i hi => ?_) (fun i hi => ?_)
      fun i hi hlt => ?_) fun w' hw' => insertInPlace_undo h hf hdest hn hw') fun _ w₂ hw2 => ?_
  · rw [isSome_tailMoved h hdest hn, decide_eq_true (.inl hi)]
  · simp (disch := omega) only [tailMoved, patch_notMem, movedFrom, h.elem]
  · simp (disch := omega) only [tailMoved, patch_notMem, movedFrom, h.none]
  refine (addSize_runs count).imp_eq ?_
  have hsize : (w₂.storage s).size + count
      = (l.take index ++ valuesList v count ++ l.drop index).length := by
    rw [hw2.storage, h.size]
    simp
    omega
  rw [hsize]
  refine inPlace_end h hf hw2 (fun q hq => ?_) (gapFilled_tailMoved h v hindex hdest hn)
    (by simp; omega)
  simp only [gapFilled, patch_of_ne hq, movedFrom, hother q hq]

/-- `Insert` puts values into the list. -/
theorem insert_spec :
    Spec cfg w s (insert cfg s index (valuesOf v) count)
      (l.take index ++ valuesList v count ++ l.drop index) := by
  refine view_bind h ?_
  dsimp only
  split_ifs with h1
  · exact insertAllocating_spec h hf v hindex
  · exact insertInPlace_spec h hf v hindex (by omega)

end

/-! ## Emplace and erase -/

/-- `EmplaceBack` with a new block. -/
theorem emplaceBackSlow_spec (v : T) (hfull : l.length = c) :
    Spec cfg w s (emplaceBackSlow cfg s v) (l ++ [some v]) := by
  refine view_bind h ?_
  dsimp only
  have hne := h.view.ne_fresh hf
  have hcap : c + 1 ≤ nextCapacity c := by
    have := h.view.pos
    rw [nextCapacity]
    omega
  refine realloc_runs h hf (g := fill (fill (fun _ => none) l.length 1 fun _ => some (some v)) 0
      l.length fun i => some (elemAt l (0 + i)))
    (k := 0 + l.length) ?_ fun w₂ hw2 => ?_
  · refine bind (Q := fun _ => Partly w (nextCapacity c) p
      (fill (fun _ => none) l.length 1 fun _ => some (some v)) 0) ?_ fun _ w₂ hw2 => ?_
    · refine (constructAt_runs (Into.refl (w.alloc (nextCapacity c)) (.heap w.fresh))
        (alloc_capacityOf _) (by omega) ((hf w.fresh le_rfl).2 _) (some v)).mono ?_ ?_
      · intro _ w₂ hw2
        refine ⟨_, hw2, ?_, fun q _ hq' => patch_of_ne hq', fun i => ?_, fun i _ => ?_⟩
        · rw [patch_self]
          exact congrArg (fun g => fill g l.length 1 _) (funext (hf w.fresh le_rfl).2)
        · rw [patch_of_ne hne]
          rfl
        · rw [patch_of_ne hne]
          rfl
      · intro w₂ hw2
        exact ⟨0, w.mem, hw2, funext (hf w.fresh le_rfl).2, fun _ _ _ => rfl, fun _ => rfl,
          fun _ _ => rfl⟩
    · refine onThrow
        (build_move h hne hw2 le_rfl (by omega) (by omega) fun i hi => ?_) ?_
      · rw [fill, if_neg (by omega)]
      · rintro w3 ⟨k, hw3⟩
        exact (unbuild hne hw3 fun _ _ => rfl).imp (fun _ _ h => ⟨k, h⟩)
  · refine bind (adopt_runs h hf hw2) fun _ w3 hw3 => ?_
    refine (addSize_runs 1).imp_eq ?_
    rw [hw3.storage, Function.update_self]
    rw [h.size, show l.length + 1 = (l ++ [some v]).length by simp]
    refine adopted_end h.view hf hw3 (fun i => ?_) (by simp; omega) (by omega)
    rw [getElem?_append]
    split_ifs with hi
    · rw [fill, if_pos (by omega), zero_add, Nat.sub_zero, getElem?_eq_elemAt hi]
    · rw [fill, if_neg (by omega), fill]
      by_cases hi' : i = l.length
      · rw [if_pos (by omega), hi', Nat.sub_self]
        rfl
      · rw [if_neg (by omega), getElem?_eq_none (by simp; omega)]

/-- `EmplaceBack` adds a value at the end. -/
theorem emplaceBack_spec (v : T) : Spec cfg w s (emplaceBack cfg s v) (l ++ [some v]) := by
  refine view_bind h ?_
  dsimp only
  have hle := h.le
  split_ifs with h1
  · refine bind ((constructAt_runs (Into.refl w p) h.view.capacityOf (by omega)
      (h.none le_rfl) (some v)).throws fun w' hw' => ?_) fun _ w1 hw1 => ?_
    · exact inPlace_thrown h hf hw' (fun _ _ => rfl) fun _ => rfl
    refine (addSize_runs 1).imp_eq ?_
    rw [hw1.storage, h.size, show l.length + 1 = (l ++ [some v]).length by simp]
    refine inPlace_end h hf hw1 (fun q hq => patch_of_ne hq) (fun i => ?_) (by simp; omega)
    rw [getElem?_append]
    split_ifs with hi
    · rw [patch_notMem (by omega), h.mem]
    · by_cases hi' : i = l.length
      · rw [patch_mem (by omega), hi', Nat.sub_self]
        rfl
      · rw [patch_notMem (by omega), h.none (by omega), getElem?_eq_none (by simp; omega)]
  · exact emplaceBackSlow_spec h hf v (not_not.1 h1)

/-- `Erase` takes elements out of the list. -/
theorem erase_spec (hn : index + n ≤ l.length) :
    Spec cfg w s (erase cfg s index n) (l.take index ++ l.drop (index + n)) := by
  refine view_bind h ?_
  dsimp only
  have hle := h.le
  have hend : ∀ {w1 : World T} {m : Mem T}, Into w w1 p m → (∀ q, q ≠ p → m q = w.mem q) →
      (∀ i, m p i = if i < index then l[i]? else l[i + n]?) →
      Runs (subtractSize s n) w1
        (fun _ w' => Local w w' s ∧ Rep cfg w' s (l.take index ++ l.drop (index + n)))
        (fun w' => Local w w' s ∧ ∃ l'', Rep cfg w' s l'') := by
    intro w1 m hw1 hm hmem
    refine (subtractSize_runs n).imp_eq ?_
    rw [hw1.storage, h.size,
      show l.length - n = (l.take index ++ l.drop (index + n)).length by simp; omega]
    exact inPlace_end h hf hw1 hm (fun i => by rw [getElem?_erase hn, hmem]) (by simp; omega)
  generalize hk : l.length - (index + n) = k
  split_ifs with hrel
  · refine bind_eq (destroyElements_runs fun k hk => by rw [h.elem (by omega)]; rfl) ?_
    have hw1 := (Into.refl w p).withMem (patch w.mem p index n fun _ => none)
    have hsrc : ∀ i < k, patch w.mem p index n (fun _ => none) p (index + n + i)
        = l[index + n + i]? := fun i hi => by
      rw [patch_notMem (by omega), h.mem]
    refine lift_bind (if_pos ?_) ?_
    · rw [all_eq_true]
      intro i hi
      rw [mem_range] at hi
      rw [hw1.mem, hsrc i hi, getElem?_eq_getElem (by omega)]
      by_cases hi' : i < n
      · rw [patch_mem (by omega)]
        rfl
      · simp
        omega
    refine hend (m := patch (patch (patch w.mem p index n fun _ => none) p (index + n)
      k fun _ => none) p index k
      fun k => patch w.mem p index n (fun _ => none) p (index + n + k))
      ⟨rfl, rfl, rfl, rfl, fun _ _ => rfl⟩ (fun q hq => ?_) fun j => ?_
    · simp only [patch_of_ne hq]
    split_ifs with h1
    · simp (disch := omega) only [patch_notMem, h.mem]
    by_cases h2 : j < index + k
    · rw [patch_mem ⟨by omega, h2⟩, hsrc _ (by omega),
        show index + n + (j - index) = j + n by omega]
    rw [patch_notMem (by omega), getElem?_eq_none (by omega)]
    by_cases h3 : index + n ≤ j ∧ j < index + n + k
    · exact patch_mem h3
    rw [patch_notMem h3]
    by_cases h4 : j < index + n
    · exact patch_mem ⟨by omega, h4⟩
    · rw [patch_notMem (by omega), h.none (by omega)]
  · refine bind_eq ((assignElements_move (by omega)
      (fun k hk => by rw [h.elem (by omega)]; rfl) (fun k hk => h.elem (by omega))).throws
      fun _ ha => assigned_thrown h hf ha) ?_
    have hw1 := (Into.refl w p).withMem (patch (movedFrom w.mem p (index + n)
      k) p index k
      fun k => some (elemAt l (index + n + k)))
    refine bind_eq (destroyElements_runs fun k hk => ?_) ?_
    · rw [hw1.mem, patch_notMem (by omega)]
      by_cases hk' : index + n ≤ l.length - n + k
      · rw [movedFrom, patch_mem ⟨hk', by omega⟩]
        rfl
      · rw [movedFrom, patch_notMem (by omega), h.elem (by omega)]
        rfl
    refine hend (hw1.withMem _) (fun q hq => ?_) fun j => ?_
    · rw [patch_of_ne hq, hw1.mem, patch_of_ne hq, movedFrom, patch_of_ne hq]
    rw [hw1.mem]
    split_ifs with h1
    · simp (disch := omega) only [patch_notMem, movedFrom, h.mem]
    by_cases h2 : j < l.length - n
    · rw [patch_notMem (by omega), patch_mem (by omega),
        getElem?_eq_elemAt (by omega), show index + n + (j - index) = j + n by omega]
    · rw [getElem?_eq_none (by omega)]
      by_cases h3 : j < l.length
      · exact patch_mem (by omega)
      · simp (disch := omega) only [patch_notMem, movedFrom, h.none]

end

end Ops

end Abseil.InlinedVector
