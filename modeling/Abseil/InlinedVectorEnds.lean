import Abseil.InlinedVectorOps

/-!
# The beginning and the end of vectors

A vector that ends leaves no object and no block (`renew_spec`). A new one is filled by `Initialize`
or `InitFrom`, and `ShrinkToFit` gives the block of a vector back, or takes a smaller one.

`Initialize` sets the bit of the allocation before it constructs the elements, so that an exception
leaves an empty vector with a block. `InitFrom` does not, and an exception leaves a block that no
vector has (`initFrom_spec`).
-/

namespace Abseil.InlinedVector

open Function Throwing Runs

variable {T : Type} {cfg : Config}

section Ends

variable {w w' : World T} {s : ℕ} {p : Place} {c c' : ℕ} {l l' : List (Option T)}

/-! ## Vectors without a block -/

/-- A vector gave its block back and has the inlined elements `l'`. -/
structure Dropped (w w' : World T) (s id : ℕ) (l' : List (Option T)) : Prop where
  old : ∀ i, w'.mem (.heap id) i = none
  slots : ∀ i, w'.mem (.inlined s) i = l'[i]?
  mem : ∀ q, q ≠ .heap id → q ≠ .inlined s → w'.mem q = w.mem q
  cap : w'.cap = update w.cap id none
  fresh : w'.fresh = w.fresh
  storage : w'.storage = update w.storage s ⟨l'.length, false⟩
  allocated : ∀ t, t ≠ s → w'.allocated t = w.allocated t

variable {id : ℕ}

/-- Elements that came from a block that is gone. -/
theorem dropped_end (h : View cfg w s (.heap id) c) (hf : Fresh w) (hd : Dropped w w' s id l')
    (hle : l'.length ≤ cfg.inlinedCapacity) : Local w w' s ∧ Rep cfg w' s l' := by
  have howned : w.owned s = some id := h.owned_eq
  have howned' : w'.owned s = none := by
    rw [World.owned, hd.storage, update_self]
    rfl
  have hlt := h.lt_fresh hf
  have hstorage : w'.storage s = ⟨l'.length, false⟩ := by rw [hd.storage, update_self]
  constructor
  · refine ⟨fun t ht => ⟨?_, hd.allocated t ht, hd.mem _ (by simp) (by simpa using ht)⟩,
      fun k _ hk => ?_, fun k hk _ => ?_, hd.fresh.ge, fun k hk _ => ?_, fun k hk => ?_⟩
    · rw [hd.storage, update_of_ne ht]
    · have hne : k ≠ id := fun heq => hk (by rw [howned, heq])
      rw [hd.cap, update_of_ne hne]
      exact ⟨rfl, hd.mem _ (by simpa using hne) (by simp)⟩
    · rw [howned] at hk
      obtain rfl := Option.some.inj hk
      rw [hd.cap, update_self]
      exact ⟨rfl, hd.old⟩
    · have hne : k ≠ id := by omega
      rw [hd.cap, update_of_ne hne, hd.mem _ (by simpa using hne) (by simp)]
      exact hf k hk
    · rw [howned'] at hk
      cases hk
  · exact ⟨.inlined s, cfg.inlinedCapacity, .inlined (by rw [hstorage]), by rw [hstorage], hle,
      hd.slots⟩

/-- A vector without a block. -/
theorem Rep.inlined (h : Rep cfg w s l) (hflag : (w.storage s).isAllocated = false) :
    RepAt cfg w s (.inlined s) cfg.inlinedCapacity l := by
  obtain ⟨p, c, h⟩ := h
  have hv := h.view
  cases hv with
  | inlined _ => exact h
  | allocated hs ha hc hdead hpos =>
    rw [hflag] at hs
    cases hs

variable {E : World T → Prop}

theorem RepAt.destroyed (h : RepAt cfg w s p c l) (i : ℕ) :
    patch w.mem p 0 l.length (fun _ => Option.none) p i = Option.none :=
  patch_destroyed (fun i => by rw [h.mem]) i

/-- The vector ends and is constructed anew. -/
theorem renew_spec (h : RepAt cfg w s p c l) (hf : Fresh w) :
    Runs (renew cfg s) w
      (fun _ w' => (Local w w' s ∧ Rep cfg w' s []) ∧ w'.storage s = ⟨0, false⟩) E := by
  -- without a block the vector changes in place
  have hinlined : (w.storage s).isAllocated = false → ∀ {m : Mem T},
      (∀ q, q ≠ p → m q = w.mem q) → (∀ i, m p i = none) →
      Runs (setStorage s ⟨0, false⟩) (w.withMem m)
        (fun _ w' => (Local w w' s ∧ Rep cfg w' s []) ∧ w'.storage s = ⟨0, false⟩) E := by
    intro hs m hm hdead
    refine lift rfl ⟨?_, update_self _ _ _⟩
    have hnil : ∀ i, m p i = ([] : List (Option T))[i]? := fun i => by
      rw [hdead, List.getElem?_nil]
    have hend := inPlace_end h hf ((Into.refl w p).withMem m) hm hnil (Nat.zero_le c)
    rwa [← hs]
  by_cases h0 : (w.storage s).size = 0 ∧ (w.storage s).isAllocated = false
  · refine bind_eq (u := w) ?_ ?_
    · refine lift_bind rfl ?_
      rw [if_pos h0]
      exact pure rfl
    refine hinlined h0.2 (fun _ _ => rfl) fun i => h.none ?_
    have := h.size
    omega
  refine bind_eq (u := (w.withMem (patch w.mem p 0 l.length fun _ => none)).free p) ?_ ?_
  · refine lift_bind rfl ?_
    rw [if_neg h0, h.size]
    refine view_bind h (bind_eq (destroyElements_runs fun k hk => ?_)
      (deallocateIfAllocated_runs h.view rfl rfl (fun _ _ => rfl) h.destroyed))
    rw [zero_add, h.elem hk]
    rfl
  have hview := h.view
  cases hview with
  | inlined hs =>
    rw [free_inlined]
    exact hinlined hs (fun q hq => patch_of_ne hq) h.destroyed
  | @allocated id _ hs ha hc hdead hpos =>
    rw [free_heap]
    have hother : ∀ q, q ≠ .heap id →
        patch w.mem (.heap id) 0 l.length (fun _ => none) q = w.mem q :=
      fun q hq => patch_of_ne hq
    refine lift rfl ⟨dropped_end h.view hf ⟨h.destroyed, fun i => ?_,
      fun q hq _ => hother q hq, rfl, rfl, rfl, fun _ _ => rfl⟩ (Nat.zero_le _), update_self _ _ _⟩
    rw [List.getElem?_nil]
    exact (congrFun (hother _ (by simp)) i).trans (hdead i)

/-! ## New vectors -/

/-- A new block that is in the union of a vector whose bit does not say so. -/
def World.leak (w : World T) (s c : ℕ) : World T :=
  { w.alloc c with allocated := update w.allocated s (some (w.fresh, c)) }

/-- An empty vector that takes a new block. -/
theorem adopted_leak (h : RepAt cfg w s (.inlined s) cfg.inlinedCapacity []) (hf : Fresh w)
    (c' : ℕ) :
    Adopted w { w.leak s c' with storage := update w.storage s ⟨(w.storage s).size, true⟩ } s
      (.inlined s) c' fun _ => none := by
  refine ⟨fun i => h.none (Nat.zero_le _), funext (hf w.fresh le_rfl).2, fun _ _ _ => rfl,
    fun k => ?_, rfl, rfl, rfl⟩
  rw [if_neg (by simp [Place.block])]
  exact update_apply ..

/-- The constructor with values. -/
theorem initializeElements_spec (h : RepAt cfg w s (.inlined s) cfg.inlinedCapacity [])
    (hf : Fresh w) (h0 : w.storage s = ⟨0, false⟩) (v : ℕ → T) (newSize : ℕ) :
    Spec cfg w s (initializeElements cfg s (valuesOf v) newSize) (valuesList v newSize) := by
  unfold initializeElements
  split_ifs with hn
  · have hcap := le_computeCapacity cfg.inlinedCapacity newSize
    have hpos := h.view.computeCapacity_pos newSize
    generalize computeCapacity cfg.inlinedCapacity newSize = c' at hcap hpos ⊢
    refine bind (allocate_runs c') ?_
    rintro _ _ ⟨rfl, rfl⟩
    refine bind_eq (setAllocation_runs fun i => h.none (Nat.zero_le _)) ?_
    refine bind (setIsAllocated_runs true) fun _ w1 heq => pure_bind ?_
    have hw1 : Adopted w w1 s (.inlined s) c' fun _ => none := by
      rw [heq]
      exact adopted_leak h hf c'
    have hc : w1.capacityOf cfg (.heap w.fresh) = some c' := by
      rw [heq]
      exact update_self _ _ _
    have hne : Place.inlined s ≠ .heap w.fresh := by simp
    refine bind ((constructElements_values v 0 hc (by omega)
      fun k _ => by rw [hw1.slots]).throws fun w2 hw2 => ?_) fun _ w2 hw2 => ?_
    · have hend := adopted_end h.view hf (hw1.into hne hw2 fun _ _ => rfl) (r := [])
        (fun i => by rw [hw1.slots, List.getElem?_nil]) (Nat.zero_le _) hpos
      have hsize : (w2.storage s).size = 0 := by
        rw [hw2.storage, hw1.storage, update_self, h0]
      rw [List.length_nil, withSize_self hsize] at hend
      exact ⟨hend.1, [], hend.2⟩
    · refine (addSize_runs newSize).imp_eq ?_
      have hsize : (w2.storage s).size + newSize = (valuesList v newSize).length := by
        rw [hw2.storage, hw1.storage, update_self, h0, length_valuesList, zero_add]
      rw [hsize]
      refine adopted_end h.view hf (hw1.into hne hw2 fun q hq => patch_of_ne hq) (fun i => ?_)
        (by rw [length_valuesList]; omega) hpos
      rw [patch_self, fill_values v fun i _ => by rw [hw1.slots]]
  · refine pure_bind ?_
    refine bind ((constructElements_values v 0 h.view.capacityOf (by omega)
      fun k _ => h.none (Nat.zero_le _)).throws fun w2 hw2 => ?_) fun _ w2 hw2 => ?_
    · exact inPlace_thrown h hf hw2 (fun _ _ => rfl) fun _ => rfl
    refine (addSize_runs newSize).imp_eq ?_
    have hsize : (w2.storage s).size + newSize = (valuesList v newSize).length := by
      rw [hw2.storage, h0, length_valuesList, zero_add]
    rw [hsize]
    refine inPlace_end h hf hw2 (fun q hq => patch_of_ne hq) (fun i => ?_)
      (by rw [length_valuesList]; omega)
    rw [patch_self, fill_values v fun i _ => h.none (Nat.zero_le i)]

/-! ## Copies -/

theorem copyBytesTo_runs {w0 : World T} {m : Mem T} {i : ℕ} (h : Into w0 w p m)
    (hc : w0.capacityOf cfg p = some c) (hi : i < c) (hm : m p i = none) (e : Option T) :
    Runs (copyBytesTo cfg p i e) w
      (fun _ w' => Into w0 w' p (patch m p i 1 fun _ => some e)) E := by
  have hvac : w.Vacant cfg p i := by
    refine vacant_of (by rw [h.capacityOf, hc]) hi ?_
    rw [h.mem, hm]
  refine lift (if_pos hvac) ?_
  rw [World.set_eq, ← h.clobber.mem]
  exact h.clobber.withMem _

variable {q : Place}

theorem copyBytes_runs {n : ℕ} {e : ℕ → Option T} (hc : w.capacityOf cfg p = some c) (hle : n ≤ c)
    (hpq : q ≠ p) (hdead : ∀ k < n, w.mem p k = none) (he : ∀ k < n, w.mem q k = some (e k)) :
    Runs (Prog.loop (fun i => do
      let x ← readAt q i
      copyBytesTo cfg p i x) n) w
      (fun _ w' => Into w w' p (patch w.mem p 0 n fun k => some (e k))) E := by
  refine loop (fun i w' => Into w w' p (patch w.mem p 0 i fun k => some (e k))) n ?_ ?_
  · rw [patch_zero]
    exact Into.refl w p
  intro i hi w' hw'
  refine bind (readAt_runs (e := e i) ?_) ?_
  · rw [hw'.mem, patch_of_ne hpq, he i hi]
  rintro _ w2 ⟨rfl, hw2⟩
  rw [hw2]
  refine (copyBytesTo_runs hw' hc (by omega) ?_ (e i)).imp ?_
  · rw [patch_notMem (by omega), hdead i hi]
  intro _ w3 hw3
  have hsucc : patch (patch w.mem p 0 i fun k => some (e k)) p (0 + i) 1 (fun _ => some (e i))
      = patch w.mem p 0 (i + 1) fun k => some (e k) := patch_succ
  rw [zero_add] at hsucc
  rwa [hsucc] at hw3

/-- The elements of `InitFrom`. -/
theorem initFrom_copy {n : ℕ} {e : ℕ → Option T} (hc : w.capacityOf cfg p = some c) (hle : n ≤ c)
    (hpq : q ≠ p) (hdead : ∀ k < n, w.mem p k = none) (he : ∀ k < n, w.mem q k = some (e k))
    {o : Storage} {Q : Unit → World T → Prop}
    (hQ : ∀ w2, Into w w2 p (patch w.mem p 0 n fun k => some (e k)) →
      Q () { w2 with storage := update w2.storage s o })
    (hE : cfg.triviallyCopyConstructible = false → ∀ w2, Into w w2 p w.mem → E w2) :
    Runs (if cfg.triviallyCopyConstructible then do
        Prog.loop (fun i => do
          let x ← readAt q i
          copyBytesTo cfg p i x) n
        setStorage s o
      else do
        constructElements cfg p 0 (copyValues q 0) 0 n
        setStorage s o) w Q E := by
  split_ifs with htriv
  · exact bind (copyBytes_runs hc hle hpq hdead he) fun _ w2 hw2 => lift rfl (hQ w2 hw2)
  rw [Bool.not_eq_true] at htriv
  refine bind ((constructElements_copy hc (by omega)
    (fun k hk => by rw [zero_add, hdead k hk])
    (fun k hk => by rw [zero_add, he k hk])).throws (hE htriv))
    fun _ w2 hw2 => lift rfl (hQ w2 hw2)

/-- The copy constructor, which throws without its block being freed. -/
theorem initFrom_spec {t d : ℕ} (h : RepAt cfg w s (.inlined s) cfg.inlinedCapacity [])
    (hf : Fresh w) (h0 : w.storage s = ⟨0, false⟩) (ho : RepAt cfg w t q d l) (hst : t ≠ s) :
    Runs (initFrom cfg s t) w (fun _ w' => Local w w' s ∧ Rep cfg w' s l)
      (fun w' => cfg.triviallyCopyConstructible = false ∧
        if (w.storage t).isAllocated then
          w' = w.leak s (computeCapacity cfg.inlinedCapacity l.length)
        else Local w w' s ∧ ∃ l'', Rep cfg w' s l'') := by
  refine lift_bind rfl ?_
  have hview := ho.view
  cases hview with
  | inlined hs =>
    rw [hs]
    refine pure_bind ?_
    rw [ho.size]
    refine initFrom_copy h.view.capacityOf ho.le (by simpa using hst) (fun k _ => h.none (by simp))
      (fun k hk => ho.elem hk) (fun w2 hw2 => ?_) fun htriv w2 hw2 => ?_
    · have hend := inPlace_end h hf hw2 (r := l) (fun q hq => patch_of_ne hq) (fun i => ?_) ho.le
      · rw [World.withSize, hw2.storage, h0, ← hs, ← ho.size] at hend
        rwa [hw2.storage]
      · rw [patch_self, fill_list fun i _ => h.none (Nat.zero_le i)]
    · exact ⟨htriv, inPlace_thrown h hf hw2 (fun _ _ => rfl) fun _ => rfl⟩
  | @allocated id _ hs ha hc hdead hpos =>
    rw [hs, ho.size]
    have hcap := le_computeCapacity cfg.inlinedCapacity l.length
    have hpos' := h.view.computeCapacity_pos l.length
    generalize computeCapacity cfg.inlinedCapacity l.length = c' at hcap hpos' ⊢
    refine bind (allocate_runs c') ?_
    rintro _ _ ⟨rfl, rfl⟩
    refine bind (setAllocation_runs fun i => h.none (by simp)) fun _ w1 heq => ?_
    have hw1 : w1 = w.leak s c' := heq
    rw [hw1]
    have hread : (w.leak s c').allocated t = some (id, d) := (update_of_ne hst _ _).trans ha
    refine lift_bind (by rw [hread]; rfl) (pure_bind ?_)
    have hroom : (w.leak s c').capacityOf cfg (.heap w.fresh) = some c' := update_self _ _ _
    refine initFrom_copy hroom hcap (ho.view.ne_fresh hf)
      (fun k _ => (hf w.fresh le_rfl).2 k) (fun k hk => ho.elem hk) (fun w2 hw2 => ?_)
      fun htriv w2 hw2 => ?_
    · have hinto :
          Into { w.leak s c' with storage := update w.storage s ⟨(w.storage s).size, true⟩ }
          { w2 with storage := update w.storage s ⟨(w.storage s).size, true⟩ } (.heap w.fresh)
          (patch w.mem _ 0 l.length fun k => some _) :=
        ⟨hw2.mem, hw2.cap, hw2.fresh, rfl, hw2.allocated⟩
      have hend := adopted_end h.view hf ((adopted_leak h hf c').into (by simp) hinto
        fun q hq => patch_of_ne hq) (r := l) (fun i => ?_) hcap hpos'
      · simp only [World.withSize, update_self, update_idem] at hend
        rw [← hs, ← ho.size] at hend
        rwa [hw2.storage]
      · rw [patch_self, fill_list fun i _ => (hf w.fresh le_rfl).2 i]
    · refine ⟨htriv, ?_⟩
      cases w2
      obtain ⟨rfl, rfl, rfl, rfl, hallocated⟩ := hw2
      obtain rfl := funext fun t => hallocated t (by simp)
      rfl

/-! ## Shrinking -/

section

variable (h : RepAt cfg w s (.heap id) c l)
include h

/-- The elements move to a smaller block. -/
theorem shrinkToBlock_spec (hf : Fresh w)
    (hn : cfg.inlinedCapacity < l.length) (hlt : l.length < c) :
    Spec cfg w s (shrinkToBlock cfg s l.length id c) l := by
  have hview := h.view
  have hne := h.view.ne_fresh hf
  have hidlt := h.view.lt_fresh hf
  cases hview with
  | allocated hs ha hc hdead hpos =>
    unfold shrinkToBlock
    simp only [if_neg (by omega : ¬ c ≤ l.length)]
    refine realloc_runs h hf (g := fill (fun _ => none) 0 l.length fun i => some (elemAt l (0 + i)))
      (k := 0 + l.length) ?_ fun w2 hw2 => ?_
    · refine onThrow
        (build_move h hne (partly_start hf _ _) le_rfl (by omega) (by omega) fun _ _ => rfl) ?_
      rintro w2 ⟨k, hw2⟩
      obtain ⟨m, hinto, hnew, hm, hlive, hrest⟩ := hw2
      refine (setAllocation_runs ?_).imp_eq ⟨k, m,
        ⟨hinto.mem, hinto.cap, hinto.fresh, hinto.storage, fun t _ => ?_⟩, hnew, hm, hlive, hrest⟩
      · rwa [hinto.mem, hm _ (by simp) (by simp)]
      · rw [hinto.allocated_heap, ← ha]
        exact congrFun (update_eq_self s w.allocated) t
    obtain ⟨m, hinto, hnew, hm, hlive, -⟩ := hw2
    refine bind_eq (destroyElements_runs (destroyed_live h hinto hlive)) ?_
    rw [hinto.mem]
    refine bind_eq (deallocate_runs ?_ (patch_destroyed fun i => by rw [hlive, h.mem])) ?_
    · exact (hinto.cap_alloc id).trans ((if_neg (by omega)).trans hc)
    rw [← free_heap]
    have hinlined := destroyed_inlined h hm hlive
    refine (setAllocation_runs hinlined).imp fun _ w3 heq => ?_
    have hadopted : Adopted w w3 s (.heap id) l.length (m (.heap w.fresh)) := by
      have hstorage : w2.storage = update w.storage s ⟨(w.storage s).size, true⟩ := by
        rw [← hs]
        exact hinto.storage.trans (update_eq_self s w.storage).symm
      rw [heq]
      exact adopted_block h hf hinto hm hlive hstorage
    have hend := adopted_end h.view hf hadopted (r := l) (fun i => ?_) le_rfl (by omega)
    · rwa [withSize_self] at hend
      rw [heq, ← h.size]
      exact congrArg (fun st => (st s).size) hinto.storage
    · rw [hnew]
      simp only [zero_add, fill_list (g := fun _ => none) fun _ _ => rfl]

/-- The elements move into the vector. -/
theorem shrinkToInlined_spec (hf : Fresh w) (hn : l.length ≤ cfg.inlinedCapacity) :
    Spec cfg w s (shrinkToInlined cfg s l.length id c) l := by
  have hview := h.view
  cases hview with
  | allocated hs ha hc hdead hpos =>
    refine bind (onThrow (constructElements_move
      rfl (by omega) (fun k _ => hdead _)
      (fun k hk => by rw [zero_add, zero_add, h.elem hk])) ?_) fun _ w1 hw1 => ?_
    · rintro w1 ⟨m, hinto, hlive, hm⟩
      refine (setAllocation_runs ?_).imp_eq ?_
      · rwa [hinto.mem, hm _ (by simp)]
      refine inPlace_thrown h hf
        ⟨hinto.mem, hinto.cap, hinto.fresh, hinto.storage, fun t _ => ?_⟩ hm (hlive _)
      change update w1.allocated s (some (id, c)) t = _
      by_cases ht : t = s
      · rw [ht, update_self, ha]
      · rw [update_of_ne ht, hinto.allocated t (by simpa using fun h => ht h.symm)]
    have hheap := patch_destroyed (m := w1.mem) (p := .heap id) (l := l) fun i => by
      rw [hw1.mem, patch_of_ne (by simp), ← h.mem]
      exact movedFrom_liveEq (fun k hk => by rw [zero_add, zero_add, h.elem hk]; rfl) _ i
    refine bind_eq (destroyElements_runs fun k hk => ?_) ?_
    · rw [hw1.mem, patch_of_ne (by simp), movedFrom, patch_mem (by omega)]
      rfl
    refine bind_eq (deallocate_runs ?_ hheap) ?_
    · change w1.cap id = _
      rw [hw1.cap, hc]
    refine (setIsAllocated_runs false).imp_eq ?_
    refine dropped_end h.view hf ⟨hheap, fun i => ?_, fun q hq hq' => ?_, ?_, hw1.fresh, ?_,
      fun t ht => ?_⟩ hn
    · change patch w1.mem (.heap id) 0 l.length (fun _ => none) (.inlined s) i = _
      rw [patch_of_ne (by simp), hw1.mem, patch_self, movedFrom, patch_of_ne (by simp),
        fill_list fun i _ => hdead i]
    · change patch w1.mem (.heap id) 0 l.length (fun _ => none) q = _
      rw [patch_of_ne hq, hw1.mem, patch_of_ne hq', movedFrom, patch_of_ne hq]
    · change update w1.cap id none = _
      rw [hw1.cap]
    · change update w1.storage s { w1.storage s with isAllocated := false } = _
      rw [hw1.storage, ← h.size]
    · exact hw1.allocated t (by simpa using fun h => ht h.symm)

/-- A vector keeps its elements when it shrinks. -/
theorem shrinkToFit_spec (hf : Fresh w) : Spec cfg w s (shrinkToFit cfg s) l := by
  have hview := h.view
  have hle := h.le
  cases hview with
  | allocated hs ha hc hdead hpos =>
    refine lift_bind rfl ?_
    refine lift_bind (by rw [ha]; rfl) ?_
    rw [h.size]
    dsimp only
    split_ifs with h1 h2
    · exact pure ⟨InPlace.local ⟨fun _ _ => rfl, rfl, le_rfl, fun _ _ => rfl, rfl,
        fun _ _ => rfl⟩ h.view hf, _, c, h⟩
    · exact shrinkToBlock_spec h hf h2 (by omega)
    · exact shrinkToInlined_spec h hf (by omega)

end

end Ends

end Abseil.InlinedVector
