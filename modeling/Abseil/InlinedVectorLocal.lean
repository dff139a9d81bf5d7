import Abseil.InlinedVectorMemory

/-!
# What an operation on one vector may change

A vector holds a list if its slots are the elements of the list (`Rep`). An operation changes its
own vector and its own block, and it may take a new block for the old one (`Local`). That is enough
for the other vectors to hold what they held, and for every block to belong to one vector.

Elements that were moved from are still objects. After an exception a vector holds some list.
-/

namespace Abseil.InlinedVector

open Function Throwing
open Runs (lift_bind pure lift bind_eq)

variable {T : Type} {cfg : Config}

/-! ## Vectors -/

/-- Where the elements of a vector are, and the capacity. -/
inductive View (cfg : Config) (w : World T) (s : ℕ) : Place → ℕ → Prop
  | inlined (h : (w.storage s).isAllocated = false) : View cfg w s (.inlined s) cfg.inlinedCapacity
  | allocated {id c : ℕ} (h : (w.storage s).isAllocated = true)
      (ha : w.allocated s = some (id, c)) (hc : w.cap id = some c)
      (hdead : ∀ i, w.mem (.inlined s) i = none) (hpos : 0 < c) : View cfg w s (.heap id) c

/-- The vector `s` holds the list `l`. -/
structure RepAt (cfg : Config) (w : World T) (s : ℕ) (p : Place) (c : ℕ) (l : List (Option T)) :
    Prop where
  view : View cfg w s p c
  size : (w.storage s).size = l.length
  le : l.length ≤ c
  mem : ∀ i, w.mem p i = l[i]?

/-- The vector holds the list. -/
def Rep (cfg : Config) (w : World T) (s : ℕ) (l : List (Option T)) : Prop :=
  ∃ p c, RepAt cfg w s p c l

/-- Blocks that were not given out yet. -/
def Fresh (w : World T) : Prop :=
  ∀ id, w.fresh ≤ id → w.cap id = none ∧ ∀ i, w.mem (.heap id) i = none

/-- The block of a place. -/
def Place.block : Place → Option ℕ
  | .inlined _ => none
  | .heap id => some id

theorem Place.eq_heap {p : Place} {id : ℕ} (h : p.block = some id) : p = .heap id := by
  cases p with
  | inlined t => exact absurd h (by simp [Place.block])
  | heap k => rw [Option.some.inj h]

/-- The block of a vector. -/
def World.owned (w : World T) (s : ℕ) : Option ℕ :=
  if (w.storage s).isAllocated then (w.allocated s).map Prod.fst else none

/-- Only the vector `s` and its block changed. -/
structure Local (w w' : World T) (s : ℕ) : Prop where
  other : ∀ t, t ≠ s → w'.storage t = w.storage t ∧ w'.allocated t = w.allocated t ∧
    w'.mem (.inlined t) = w.mem (.inlined t)
  heap : ∀ id, id < w.fresh → w.owned s ≠ some id →
    w'.cap id = w.cap id ∧ w'.mem (.heap id) = w.mem (.heap id)
  freed : ∀ id, w.owned s = some id → w'.owned s ≠ some id →
    w'.cap id = none ∧ ∀ i, w'.mem (.heap id) i = none
  fresh : w.fresh ≤ w'.fresh
  new : ∀ id, w.fresh ≤ id → w'.owned s ≠ some id →
    w'.cap id = none ∧ ∀ i, w'.mem (.heap id) i = none
  owned : ∀ id, w'.owned s = some id → id < w'.fresh ∧ (w.owned s = some id ∨ w.fresh ≤ id)

variable (n : ℕ) {r : List (Option T)} {id : ℕ}

section Views

variable {w w' : World T} {s : ℕ} {p : Place} {c : ℕ} {l : List (Option T)}

section

variable (h : View cfg w s p c)
include h

theorem View.capacityOf : w.capacityOf cfg p = some c := by
  cases h with
  | inlined h => rfl
  | allocated h ha hc hdead hpos => exact hc

/-- There is room for an element. -/
theorem View.pos : 0 < c := by
  cases h with
  | inlined h => exact cfg.pos
  | allocated h ha hc hdead hpos => exact hpos

theorem View.owned_eq : w.owned s = p.block := by
  cases h with
  | inlined h => rw [World.owned, h]; rfl
  | allocated h ha hc hdead hpos => rw [World.owned, if_pos h, ha]; rfl

/-- A new block is not one that is used. -/
theorem View.ne_fresh (hf : Fresh w) : p ≠ .heap w.fresh := by
  cases h with
  | inlined h => exact Place.noConfusion
  | allocated h ha hc hdead hpos =>
    rintro heq
    rw [Place.heap.injEq] at heq
    rw [heq, (hf w.fresh le_rfl).1] at hc
    cases hc

end

theorem View.lt_fresh (h : View cfg w s (.heap id) c) (hf : Fresh w) : id < w.fresh := by
  by_contra hge
  cases h with
  | allocated h ha hc hdead hpos =>
    rw [(hf id (by omega)).1] at hc
    cases hc

/-- A change of the slots of a vector and of its size. -/
structure InPlace (w w' : World T) (s : ℕ) (p : Place) : Prop where
  mem : ∀ q, q ≠ p → w'.mem q = w.mem q
  cap : w'.cap = w.cap
  fresh : w.fresh ≤ w'.fresh
  storage : ∀ t, t ≠ s → w'.storage t = w.storage t
  isAllocated : (w'.storage s).isAllocated = (w.storage s).isAllocated
  allocated : ∀ t, p ≠ .inlined t → w'.allocated t = w.allocated t

theorem InPlace.view (h : InPlace w w' s p) (hv : View cfg w s p c) : View cfg w' s p c := by
  cases hv with
  | inlined hs => exact .inlined (h.isAllocated.trans hs)
  | allocated hs ha hc hdead hpos =>
    refine .allocated (h.isAllocated.trans hs) ?_ (by rw [h.cap, hc]) ?_ hpos
    · rw [h.allocated s (by simp), ha]
    · rwa [h.mem _ (by simp)]

/-- A change in place is local. -/
theorem InPlace.local (h : InPlace w w' s p) (hv : View cfg w s p c) (hf : Fresh w) :
    Local w w' s := by
  have howned : w'.owned s = w.owned s := by
    rw [(h.view hv).owned_eq, hv.owned_eq]
  have hp : ∀ id, w.owned s ≠ some id → Place.heap id ≠ p := by
    rintro id hne rfl
    exact hne hv.owned_eq
  refine ⟨fun t ht => ?_, fun id _ hne => ?_, fun id hid hne => ?_, h.fresh, fun id hle hne => ?_,
    fun id hid => ?_⟩
  · have hpt : p ≠ .inlined t := by
      cases hv with
      | inlined hs => simpa using fun heq : s = t => ht heq.symm
      | allocated hs ha hc hdead hpos => simp
    exact ⟨h.storage t ht, h.allocated t hpt, h.mem _ hpt.symm⟩
  · exact ⟨congrFun h.cap id, h.mem _ (hp id hne)⟩
  · exact absurd (howned.trans hid) hne
  · rw [howned] at hne
    rw [h.cap, h.mem _ (hp id hne)]
    exact hf id hle
  rw [howned] at hid
  refine ⟨lt_of_lt_of_le ?_ h.fresh, .inl hid⟩
  by_contra hge
  have hpid := hv.owned_eq
  rw [hid] at hpid
  cases hv with
  | inlined hs => exact absurd hpid (by simp [Place.block])
  | allocated hs ha hc hdead hpos =>
    obtain rfl := Option.some.inj hpid
    rw [(hf id (by omega)).1] at hc
    cases hc

/-- Slots that hold an object hold some list. -/
theorem exists_list {g : ℕ → Option (Option T)} (h : ∀ i, (g i).isSome = (l[i]?).isSome) :
    ∃ l' : List (Option T), l'.length = l.length ∧ ∀ i, g i = l'[i]? := by
  refine ⟨(List.range l.length).map fun i => (g i).getD none, by simp, fun i => ?_⟩
  have hi := h i
  by_cases hlt : i < l.length
  · rw [List.getElem?_eq_getElem hlt] at hi
    obtain ⟨x, hx⟩ := Option.isSome_iff_exists.1 hi
    rw [List.getElem?_map, List.getElem?_range hlt, Option.map_some, hx]
    rfl
  · rw [List.getElem?_eq_none (by omega)] at hi
    rw [List.getElem?_eq_none (by simpa using hlt)]
    exact Option.not_isSome_iff_eq_none.1 (by rw [hi]; simp)

end Views

/-! ## The ends of operations -/

/-- The size of a vector is set. -/
def World.withSize (w : World T) (s n : ℕ) : World T :=
  { w with storage := update w.storage s { w.storage s with size := n } }

/-- An operation on a vector leaves the list `l'` in it, or some list if it throws. -/
def Spec (cfg : Config) (w : World T) (s : ℕ) (op : Op T Unit) (l' : List (Option T)) : Prop :=
  Runs op w (fun _ w' => Local w w' s ∧ Rep cfg w' s l')
    (fun w' => Local w w' s ∧ ∃ l'', Rep cfg w' s l'')

section Ends

variable {w w₁ : World T} {s : ℕ} {p : Place} {c : ℕ} {l l' : List (Option T)} {m : Mem T}
  {E : World T → Prop}

theorem withSize_inPlace (hinto : Into w w₁ p m) (hm : ∀ q, q ≠ p → m q = w.mem q) (n : ℕ) :
    InPlace w (w₁.withSize s n) s p where
  __ := hinto
  mem := fun q hq => by
    change w₁.mem q = w.mem q
    rw [hinto.mem, hm q hq]
  fresh := hinto.fresh.ge
  storage := fun t ht => by
    change update w₁.storage s _ t = _
    rw [update_of_ne ht, hinto.storage]
  isAllocated := by
    change (update w₁.storage s _ s).isAllocated = _
    rw [update_self, hinto.storage]

/-- The end of an operation in place. -/
theorem inPlace_end (h : RepAt cfg w s p c l) (hf : Fresh w)
    (hinto : Into w w₁ p m) (hm : ∀ q, q ≠ p → m q = w.mem q) (hl : ∀ i, m p i = r[i]?)
    (hle : r.length ≤ c) :
    Local w (w₁.withSize s r.length) s ∧ Rep cfg (w₁.withSize s r.length) s r := by
  have hin := withSize_inPlace hinto hm r.length (s := s)
  refine ⟨hin.local h.view hf, p, c, hin.view h.view, ?_, hle, fun i => ?_⟩
  · change (update w₁.storage s _ s).size = _
    rw [update_self]
  · change w₁.mem p i = _
    rw [hinto.mem, hl]

theorem withSize_self {n : ℕ} (h : (w.storage s).size = n) : w.withSize s n = w := by
  subst h
  exact congrArg (fun storage => { w with storage }) (update_eq_self s w.storage)

/-- The end of an operation in place that throws. -/
theorem inPlace_thrown (h : RepAt cfg w s p c l) (hf : Fresh w) (hinto : Into w w₁ p m)
    (hm : ∀ q, q ≠ p → m q = w.mem q) (hlive : ∀ i, (m p i).isSome = (w.mem p i).isSome) :
    Local w w₁ s ∧ ∃ l'', Rep cfg w₁ s l'' := by
  obtain ⟨l'', hlen, hl''⟩ := exists_list fun i => by rw [hlive, h.mem]
  have hend := inPlace_end h hf hinto hm hl'' (hlen ▸ h.le)
  rw [withSize_self (by rw [hinto.storage, h.size, hlen])] at hend
  exact ⟨hend.1, l'', hend.2⟩

/-- The view is read. -/
theorem makeStorageView_runs (h : View cfg w s p c) :
    Runs (makeStorageView cfg s) w (fun v w' => v = ⟨p, (w.storage s).size, c⟩ ∧ w' = w) E := by
  refine lift_bind rfl ?_
  cases h with
  | inlined h =>
    rw [h]
    exact pure ⟨rfl, rfl⟩
  | allocated h ha hc hdead hpos =>
    rw [h]
    refine lift_bind (by rw [ha]; rfl) ?_
    exact pure ⟨rfl, rfl⟩

theorem setSize_runs : Runs (setSize s n) w (fun _ w' => w' = w.withSize s n) E := by
  refine lift_bind rfl ?_
  exact lift rfl rfl

theorem addSize_runs :
    Runs (addSize s n) w (fun _ w' => w' = w.withSize s ((w.storage s).size + n)) E := by
  refine lift_bind rfl ?_
  exact lift rfl rfl

theorem subtractSize_runs :
    Runs (subtractSize s n) w (fun _ w' => w' = w.withSize s ((w.storage s).size - n)) E := by
  refine lift_bind rfl ?_
  exact lift rfl rfl

end Ends

/-! ## New blocks -/

/-- A new block with room for `c` elements. -/
def World.alloc (w : World T) (c : ℕ) : World T :=
  { w with cap := update w.cap w.fresh (some c), fresh := w.fresh + 1 }

section Blocks

variable {w w₂ : World T} {s : ℕ} {p : Place} {c c' : ℕ} {l l' : List (Option T)} {m : Mem T}
  {E : World T → Prop}

/-- A new block. -/
theorem allocate_runs (c : ℕ) :
    Runs (allocate c) w (fun id w' => id = w.fresh ∧ w' = w.alloc c) E :=
  lift rfl ⟨rfl, rfl⟩

theorem alloc_capacityOf (c : ℕ) : (w.alloc c).capacityOf cfg (.heap w.fresh) = some c :=
  update_self _ _ _

theorem Into.cap_alloc {q : Place} (h : Into (w.alloc c') w₂ q m) (k : ℕ) :
    w₂.cap k = if k = w.fresh then some c' else w.cap k := by
  rw [h.cap]
  exact Function.update_apply ..

theorem Into.allocated_heap {w₁ : World T} {id : ℕ} (h : Into w₁ w₂ (.heap id) m) :
    w₂.allocated = w₁.allocated := funext fun t => h.allocated t (by simp)

/-- No object is left where a list was destroyed. -/
theorem patch_destroyed (h : ∀ i, (m p i).isSome = (l[i]?).isSome) (i : ℕ) :
    patch m p 0 l.length (fun _ => none) p i = none := by
  by_cases hi : i < l.length
  · exact patch_mem (by omega)
  have hlive := h i
  rw [List.getElem?_eq_none (by omega)] at hlive
  rw [patch_notMem (by omega)]
  exact Option.not_isSome_iff_eq_none.1 (by rw [hlive]; simp)

/-- A block without objects is freed. -/
theorem deallocate_runs (hc : w.cap id = some c) (hdead : ∀ i, w.mem (.heap id) i = none) :
    Runs (deallocate id c) w (fun _ w' => w' = { w with cap := update w.cap id none }) E := by
  refine lift (if_pos ⟨hc, ?_⟩) rfl
  rw [List.all_eq_true]
  intro i _
  rw [hdead i]
  rfl

/-- The block of a place is freed. -/
def World.free (w : World T) (p : Place) : World T :=
  { w with cap := fun k => if p.block = some k then none else w.cap k }

theorem free_inlined (t : ℕ) : w.free (.inlined t) = w := by simp [World.free, Place.block]

theorem free_heap (id : ℕ) : w.free (.heap id) = { w with cap := update w.cap id none } := by
  rw [World.free]
  congr
  funext k
  rw [update_apply]
  simp only [Place.block, Option.some.injEq, eq_comm]

/-- The block is freed if there is one. -/
theorem deallocateIfAllocated_runs (h : View cfg w s p c) (hs : w₂.storage = w.storage)
    (ha : w₂.allocated = w.allocated) (hc : ∀ k, p.block = some k → w₂.cap k = w.cap k)
    (hdead : ∀ i, w₂.mem p i = none) :
    Runs (deallocateIfAllocated s) w₂ (fun _ w' => w' = w₂.free p) E := by
  refine lift_bind rfl ?_
  rw [hs]
  cases h with
  | inlined h =>
    rw [h, free_inlined]
    exact pure rfl
  | @allocated id _ h ha' hc' _ _ =>
    rw [h, free_heap]
    refine lift_bind (by rw [ha, ha']; rfl) ?_
    exact deallocate_runs ((hc id rfl).trans hc') hdead

/-- The allocation is written over dead slots. -/
theorem setAllocation_runs (hdead : ∀ i, w.mem (.inlined s) i = none) :
    Runs (setAllocation cfg s id c) w (fun _ w' => w' =
        { w with allocated := update w.allocated s (some (id, c)) }) E := by
  refine lift (if_pos ?_) rfl
  rw [List.all_eq_true]
  intro i _
  rw [hdead i]
  rfl

theorem setIsAllocated_runs (b : Bool) : Runs (setIsAllocated s b) w (fun _ w' => w' = { w with
      storage := update w.storage s { w.storage s with isAllocated := b } }) E := by
  refine lift_bind rfl ?_
  exact lift rfl rfl

/-- The vector has a new block with the slots `g`. -/
structure Adopted (w w' : World T) (s : ℕ) (p : Place) (c : ℕ) (g : ℕ → Option (Option T)) :
    Prop where
  old : ∀ i, w'.mem p i = none
  slots : w'.mem (.heap w.fresh) = g
  mem : ∀ q, q ≠ p → q ≠ .heap w.fresh → w'.mem q = w.mem q
  cap : ∀ k, w'.cap k = if p.block = some k then none else if k = w.fresh then some c else w.cap k
  fresh : w'.fresh = w.fresh + 1
  storage : w'.storage = update w.storage s ⟨(w.storage s).size, true⟩
  allocated : w'.allocated = update w.allocated s (some (w.fresh, c))

theorem Adopted.into {w' : World T} {g : ℕ → Option (Option T)} (h : Adopted w w' s p c' g)
    (hne : p ≠ .heap w.fresh) (h' : Into w' w₂ (.heap w.fresh) m)
    (hm : ∀ q, q ≠ .heap w.fresh → m q = w'.mem q) :
    Adopted w w₂ s p c' (m (.heap w.fresh)) where
  old := by
    rw [h'.mem, hm p hne]
    exact h.old
  slots := by rw [h'.mem]
  mem q hq hq' := by rw [h'.mem, hm q hq', h.mem q hq hq']
  cap k := by rw [h'.cap, h.cap]
  fresh := h'.fresh.trans h.fresh
  storage := h'.storage.trans h.storage
  allocated := h'.allocated_heap.trans h.allocated

/-- The vector with its new block. -/
theorem adopted_end {w' : World T} {g : ℕ → Option (Option T)}
    (h : View cfg w s p c) (hf : Fresh w) (ha : Adopted w w' s p c' g) (hg : ∀ i, g i = r[i]?)
    (hle : r.length ≤ c') (hpos : 0 < c') :
    Local w (w'.withSize s r.length) s ∧ Rep cfg (w'.withSize s r.length) s r := by
  have hstorage : (w'.withSize s r.length).storage s = ⟨r.length, true⟩ := by
    change update w'.storage s _ s = _
    rw [update_self, ha.storage, update_self]
  have hallocated : (w'.withSize s r.length).allocated s = some (w.fresh, c') := by
    change w'.allocated s = _
    rw [ha.allocated, update_self]
  have howned : (w'.withSize s r.length).owned s = some w.fresh := by
    rw [World.owned, hstorage, hallocated]
    rfl
  have hne : p.block ≠ some w.fresh := fun hid => h.ne_fresh hf (Place.eq_heap hid)
  constructor
  · refine ⟨fun t ht => ?_, fun id hlt hid => ?_, fun id hid _ => ?_, ?_, fun id hge hid => ?_,
      fun id hid => ?_⟩
    · have hp : Place.inlined t ≠ p := by
        rintro rfl
        cases h with
        | inlined h => exact ht rfl
      refine ⟨?_, ?_, ha.mem _ hp (by simp)⟩
      · change update w'.storage s _ t = _
        simp only [update_of_ne ht, ha.storage]
      · change w'.allocated t = _
        rw [ha.allocated, update_of_ne ht]
    · rw [h.owned_eq] at hid
      refine ⟨?_, ha.mem _ ?_ ?_⟩
      · change w'.cap id = _
        rw [ha.cap, if_neg hid, if_neg (by omega)]
      · rintro rfl
        exact hid rfl
      · simp only [ne_eq, Place.heap.injEq]
        omega
    · rw [h.owned_eq] at hid
      refine ⟨(ha.cap id).trans (if_pos hid), ?_⟩
      rw [← Place.eq_heap hid]
      exact ha.old
    · change w.fresh ≤ w'.fresh
      rw [ha.fresh]
      omega
    · have hidne : id ≠ w.fresh := fun heq => hid (by rw [howned, heq])
      have hp : Place.heap id ≠ p := by
        rintro rfl
        have := h.lt_fresh hf
        omega
      constructor
      · change w'.cap id = none
        rw [ha.cap, if_neg hidne, (hf id hge).1, ite_self]
      · change ∀ i, w'.mem (.heap id) i = none
        rw [ha.mem _ hp (by simpa using hidne)]
        exact (hf id hge).2
    · rw [howned] at hid
      obtain rfl := Option.some.inj hid
      refine ⟨?_, .inr le_rfl⟩
      change w.fresh < w'.fresh
      rw [ha.fresh]
      exact Nat.lt_succ_self _
  · refine ⟨.heap w.fresh, c', .allocated (by rw [hstorage]) hallocated ?_ ?_ hpos,
      by rw [hstorage], hle, fun i => ?_⟩
    · change w'.cap w.fresh = _
      rw [ha.cap, if_neg hne, if_pos rfl]
    · change ∀ i, w'.mem (.inlined s) i = none
      cases h with
      | inlined h => exact ha.old
      | allocated h ha' hc hdead hpos =>
        rwa [ha.mem _ (by simp) (by simp)]
    · change w'.mem (.heap w.fresh) i = _
      rw [ha.slots, hg]

section Adopt

variable (h : RepAt cfg w s p c l)
include h

theorem destroyed_live (hinto : Into (w.alloc c') w₂ (.heap w.fresh) m)
    (hlive : ∀ i, (m p i).isSome = (w.mem p i).isSome) (k : ℕ) (hk : k < l.length) :
    (w₂.mem p (0 + k)).isSome := by
  rw [hinto.mem, zero_add, hlive, h.mem, List.getElem?_eq_getElem hk]
  rfl

theorem destroyed_inlined (hm : ∀ q, q ≠ p → q ≠ .heap w.fresh → m q = w.mem q)
    (hlive : ∀ i, (m p i).isSome = (w.mem p i).isSome) (i : ℕ) :
    patch m p 0 l.length (fun _ => none) (.inlined s) i = none := by
  cases h.view with
  | inlined _ => exact patch_destroyed (fun i => by rw [hlive, h.mem]) i
  | allocated _ ha hc hdead hpos =>
    rw [patch_of_ne (by simp), hm _ (by simp) (by simp)]
    exact hdead i

variable (hf : Fresh w) (hinto : Into (w.alloc c') w₂ (.heap w.fresh) m)
  (hm : ∀ q, q ≠ p → q ≠ .heap w.fresh → m q = w.mem q)
  (hlive : ∀ i, (m p i).isSome = (w.mem p i).isSome)
include hf hinto hm hlive

/-- The old elements and their block are gone, and the vector has the new block. -/
theorem adopted_block {st : ℕ → Storage}
    (hst : st = update w.storage s ⟨(w.storage s).size, true⟩) :
    Adopted w { (w₂.withMem (patch m p 0 l.length fun _ => none)).free p with
      storage := st
      allocated := update w₂.allocated s (some (w.fresh, c')) } s p c' (m (.heap w.fresh)) where
  old := patch_destroyed fun i => by rw [hlive, h.mem]
  slots := by
    change patch m p 0 l.length (fun _ => none) _ = _
    rw [patch_of_ne (h.view.ne_fresh hf).symm]
  mem q hq hq' := by
    change patch m p 0 l.length (fun _ => none) q = _
    rw [patch_of_ne hq, hm q hq hq']
  cap k := by
    rw [← hinto.cap_alloc k]
    rfl
  fresh := hinto.fresh
  storage := hst
  allocated := by
    rw [hinto.allocated_heap]
    rfl

/-- The old elements and their block go. -/
theorem adoptAllocation_runs : Runs (adoptAllocation cfg s ⟨p, l.length, c⟩ w.fresh c') w₂
      (fun _ w' => Adopted w w' s p c' (m (.heap w.fresh))) E := by
  have hstorage : w₂.storage = w.storage := hinto.storage
  refine bind_eq (destroyElements_runs (destroyed_live h hinto hlive)) ?_
  rw [hinto.mem]
  refine bind_eq (deallocateIfAllocated_runs h.view hstorage hinto.allocated_heap
    (fun k hk => (hinto.cap_alloc k).trans (if_neg ?_))
    (patch_destroyed fun i => by rw [hlive, h.mem])) ?_
  · rintro rfl
    exact h.view.ne_fresh hf (Place.eq_heap hk)
  refine bind_eq (setAllocation_runs (destroyed_inlined h hm hlive)) ?_
  refine (setIsAllocated_runs true).imp_eq (adopted_block h hf hinto hm hlive ?_)
  rw [← hstorage]
  rfl

end Adopt

/-- The new block is freed after an exception. -/
theorem unadopted_runs (h : RepAt cfg w s p c l) (hf : Fresh w)
    (hinto : Into (w.alloc c') w₂ (.heap w.fresh) m)
    (hm : ∀ q, q ≠ p → m q = w.mem q) (hlive : ∀ i, (m p i).isSome = (w.mem p i).isSome) :
    Runs (deallocate w.fresh c') w₂ (fun _ w' => Local w w' s ∧ ∃ l'', Rep cfg w' s l'') E := by
  have hne := h.view.ne_fresh hf
  have hcap : w₂.cap w.fresh = some c' := by
    rw [hinto.cap]
    exact update_self _ _ _
  refine (deallocate_runs hcap ?_).imp_eq ?_
  · rw [hinto.mem, hm _ hne.symm]
    exact (hf w.fresh le_rfl).2
  obtain ⟨l'', hlen, hl''⟩ := exists_list fun i => by rw [hlive, h.mem]
  have hin : InPlace w { w₂ with cap := update w₂.cap w.fresh none } s p := by
    refine ⟨fun q hq => ?_, ?_, ?_, fun t _ => ?_, ?_, fun t _ => hinto.allocated t (by simp)⟩
    · rw [hinto.mem, hm q hq]
    · rw [hinto.cap]
      change update (update w.cap w.fresh (some c')) w.fresh none = _
      rw [update_idem, ← (hf w.fresh le_rfl).1, update_eq_self]
    · rw [hinto.fresh]
      exact Nat.le_succ _
    · exact congrFun hinto.storage t
    · exact congrArg Storage.isAllocated (congrFun hinto.storage s)
  refine ⟨hin.local h.view hf, l'', p, c, hin.view h.view, ?_, hlen ▸ h.le, fun i => ?_⟩
  · rw [hinto.storage, hlen]
    exact h.size
  · rw [hinto.mem, hl'']

end Blocks

end Abseil.InlinedVector
