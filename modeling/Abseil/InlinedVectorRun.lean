import Abseil.InlinedVectorSwap

/-!
# Runs of vectors

Each block in use belongs to one vector, and to no other, and the vectors hold lists (`WF`). An
operation keeps this for the vector it changes (`WF.local`) or exchanges (`WF.beside`), whether it
throws or not, but for two cases. A block that `InitFrom` leaves behind stays when all vectors are
gone. A constructor of `SwapN` that throws in the handler of another one leaves a slot below the
size of its vector without an object, which the destructor of the vector then destroys. On all other
schedules of exceptions, also on those with one in a handler, nothing is left (`leavesNothing_iff`).
-/

namespace Abseil.InlinedVector

open Function List Throwing Costs

variable {T : Type} {cfg : Config}

/-! ## Blocks and their owners -/

/-- There are `n` vectors, and `L` is what they hold. Blocks in `X` were lost. -/
structure WF (cfg : Config) (n : ℕ) (X : ℕ → Prop) (w : World T) (L : ℕ → List (Option T)) :
    Prop where
  rep : ∀ s, Rep cfg w s (L s)
  fresh : Fresh w
  dead : ∀ id, w.cap id = none → ∀ i, w.mem (.heap id) i = none
  inj : ∀ s t id, w.owned s = some id → w.owned t = some id → s = t
  owner : ∀ id, w.cap id ≠ none → X id ∨ ∃ s, w.owned s = some id
  lost : ∀ id, X id → w.cap id ≠ none ∧ ∀ s, w.owned s ≠ some id
  outside : ∀ s, n ≤ s → w.storage s = ⟨0, false⟩

section Owners

variable {n : ℕ} {X : ℕ → Prop} {w w' : World T} {L : ℕ → List (Option T)} {s t : ℕ}
  {l l' : List (Option T)}

theorem Rep.cap_ne_none {id : ℕ} (h : Rep cfg w s l) (hid : w.owned s = some id) :
    w.cap id ≠ none := by
  obtain ⟨p, c, h⟩ := h
  have hview := h.view
  rw [hview.owned_eq] at hid
  cases hview with
  | inlined hs => exact absurd hid (by simp [Place.block])
  | allocated hs ha hc hdead hpos =>
    obtain rfl := Option.some.inj hid
    rw [hc]
    exact Option.some_ne_none c

/-- The blocks that are used were allocated. -/
theorem WF.lt_fresh {id : ℕ} (h : WF cfg n X w L) (hid : w.cap id ≠ none) : id < w.fresh := by
  by_contra hge
  exact hid (h.fresh id (by omega)).1

/-- The vectors that an operation does not change hold what they held. -/
theorem Rep.congr (h : Rep cfg w s l) (hstorage : w'.storage s = w.storage s)
    (hallocated : w'.allocated s = w.allocated s)
    (hinlined : w'.mem (.inlined s) = w.mem (.inlined s)) (hheap : ∀ id, w.owned s = some id →
      w'.cap id = w.cap id ∧ w'.mem (.heap id) = w.mem (.heap id)) : Rep cfg w' s l := by
  obtain ⟨p, c, h⟩ := h
  have hview := h.view
  cases hview with
  | inlined hs =>
    refine ⟨_, _, .inlined (by rw [hstorage, hs]), by rw [hstorage, h.size], h.le, fun i => ?_⟩
    rw [hinlined, h.mem]
  | allocated hs ha hc hdead hpos =>
    obtain ⟨hcap, hmem⟩ := hheap _ h.view.owned_eq
    refine ⟨_, _, .allocated (by rw [hstorage, hs]) (by rw [hallocated, ha]) (by rw [hcap, hc])
      (by rw [hinlined]; exact hdead) hpos, by rw [hstorage, h.size], h.le, fun i => ?_⟩
    rw [hmem, h.mem]

theorem owned_congr (hstorage : w'.storage s = w.storage s)
    (hallocated : w'.allocated s = w.allocated s) : w'.owned s = w.owned s := by
  rw [World.owned, World.owned, hstorage, hallocated]

/-- An operation on one vector. -/
theorem WF.local (h : WF cfg n X w L) (hs : s < n) (hl : Local w w' s) (hr : Rep cfg w' s l) :
    WF cfg n X w' (update L s l) := by
  have howned : ∀ u, u ≠ s → w'.owned u = w.owned u := fun u hu =>
    owned_congr (hl.other u hu).1 (hl.other u hu).2.1
  have hold : ∀ u id, u ≠ s → w.owned u = some id → id < w.fresh ∧ w.owned s ≠ some id :=
    fun u id hu hid =>
      ⟨h.lt_fresh ((h.rep u).cap_ne_none hid), fun hid' => hu (h.inj u s id hid hid')⟩
  refine ⟨fun u => ?_, fun id hid => ?_, fun id hid => ?_, fun u v id hu hv => ?_, fun id hid => ?_,
    fun id hid => ?_, fun u hu => ?_⟩
  · by_cases hus : u = s
    · rwa [hus, update_self]
    · rw [update_of_ne hus]
      obtain ⟨hstorage, hallocated, hinlined⟩ := hl.other u hus
      refine (h.rep u).congr hstorage hallocated hinlined fun id hid => ?_
      exact hl.heap id (hold u id hus hid).1 (hold u id hus hid).2
  · refine hl.new id (hl.fresh.trans hid) fun hown => ?_
    have := (hl.owned id hown).1
    omega
  · have hnot : w'.owned s ≠ some id := fun hown => hr.cap_ne_none hown hid
    by_cases hlt : id < w.fresh
    · by_cases hown : w.owned s = some id
      · exact (hl.freed id hown hnot).2
      · obtain ⟨hcap, hmem⟩ := hl.heap id hlt hown
        rw [hmem]
        exact h.dead id (by rw [← hcap, hid])
    · exact (hl.new id (by omega) hnot).2
  · -- a block of `s` is its old one or a new one
    have hcross : ∀ u, u ≠ s → w.owned u = some id → w'.owned s ≠ some id := by
      intro u hus hid hid'
      obtain ⟨hlt, hne⟩ := hold u id hus hid
      rcases (hl.owned id hid').2 with hid' | hge
      · exact hne hid'
      · omega
    by_cases hus : u = s
    · by_cases hvs : v = s
      · rw [hus, hvs]
      · rw [howned v hvs] at hv
        exact absurd (hus ▸ hu) (hcross v hvs hv)
    · rw [howned u hus] at hu
      by_cases hvs : v = s
      · exact absurd (hvs ▸ hv) (hcross u hus hu)
      · rw [howned v hvs] at hv
        exact h.inj u v id hu hv
  · by_cases hown' : w'.owned s = some id
    · exact .inr ⟨s, hown'⟩
    have hlt : id < w.fresh := by
      by_contra hge
      exact hid (hl.new id (by omega) hown').1
    have hown : w.owned s ≠ some id := fun hown => hid (hl.freed id hown hown').1
    rw [(hl.heap id hlt hown).1] at hid
    refine (h.owner id hid).imp_right ?_
    rintro ⟨u, hu⟩
    have hus : u ≠ s := by
      rintro rfl
      exact hown hu
    exact ⟨u, by rw [howned u hus, hu]⟩
  · obtain ⟨hcap, hnone⟩ := h.lost id hid
    have hlt := h.lt_fresh hcap
    refine ⟨by rw [(hl.heap id hlt (hnone s)).1]; exact hcap, fun u hu => ?_⟩
    by_cases hus : u = s
    · rcases (hl.owned id (hus ▸ hu)).2 with hown | hge
      · exact hnone s hown
      · omega
    · rw [howned u hus] at hu
      exact hnone u hu
  · rw [(hl.other u (by omega)).1]
    exact h.outside u hu

/-- An operation on two vectors, which may exchange their blocks. -/
theorem WF.beside (h : WF cfg n X w L) (hs : s < n) (ht : t < n)
    (hb : Beside w w' s t) (hl : Rep cfg w' s l) (hr : Rep cfg w' t l') (f : Equiv.Perm ℕ)
    (hfs : w'.owned s = w.owned (f s)) (hft : w'.owned t = w.owned (f t))
    (hother : ∀ u, u ≠ s → u ≠ t → f u = u) : WF cfg n X w' (update (update L s l) t l') := by
  have hf : ∀ u, w'.owned u = w.owned (f u) := by
    intro u
    by_cases hus : u = s
    · rwa [hus]
    by_cases hut : u = t
    · rwa [hut]
    · rw [hother u hus hut]
      exact owned_congr (hb.other u hus hut).1 (hb.other u hus hut).2.1
  refine ⟨fun u => ?_, fun id hid => ?_, fun id hid => ?_, fun u v id hu hv => ?_, fun id hid => ?_,
    fun id hid => ?_, fun u hu => ?_⟩
  · by_cases hut : u = t
    · rwa [hut, update_self]
    by_cases hus : u = s
    · rwa [update_of_ne hut, hus, update_self]
    · rw [update_of_ne hut, update_of_ne hus]
      obtain ⟨hstorage, hallocated, hinlined⟩ := hb.other u hus hut
      exact (h.rep u).congr hstorage hallocated hinlined fun id _ =>
        ⟨congrFun hb.cap id, hb.heap id⟩
  · rw [hb.cap, hb.heap]
    exact h.fresh id (hb.fresh ▸ hid)
  · rw [hb.heap]
    exact h.dead id (by rw [← hb.cap, hid])
  · rw [hf] at hu hv
    exact f.injective (h.inj _ _ id hu hv)
  · rw [hb.cap] at hid
    refine (h.owner id hid).imp_right ?_
    rintro ⟨u, hu⟩
    exact ⟨f.symm u, by rw [hf, Equiv.apply_symm_apply, hu]⟩
  · rw [hb.cap]
    exact ⟨(h.lost id hid).1, fun u => by rw [hf]; exact (h.lost id hid).2 _⟩
  · rw [(hb.other u (by omega) (by omega)).1]
    exact h.outside u hu

/-- A block that no vector has is lost. -/
theorem WF.leak (h : WF cfg n (fun _ => False) w L) (h0 : w.storage s = ⟨0, false⟩)
    (c : ℕ) : WF cfg n (fun id => id = w.fresh) (w.leak s c) L := by
  have howned : ∀ u, (w.leak s c).owned u = w.owned u := by
    intro u
    by_cases hus : u = s
    · rw [hus, World.owned, World.owned]
      change (if (w.storage s).isAllocated then _ else _) = _
      rw [h0]
      rfl
    · exact owned_congr rfl (update_of_ne hus _ _)
  have hcap : ∀ id, id ≠ w.fresh → (w.leak s c).cap id = w.cap id := fun id hid =>
    update_of_ne hid _ _
  have hfresh : (w.leak s c).cap w.fresh = some c := update_self _ _ _
  have hlt : ∀ u id, w.owned u = some id → id < w.fresh := fun u id hid =>
    h.lt_fresh ((h.rep u).cap_ne_none hid)
  refine ⟨fun u => ?_, fun id hid => ?_, fun id hid => ?_, fun u v id hu hv => ?_, fun id hid => ?_,
    ?_, h.outside⟩
  · by_cases hus : u = s
    · subst hus
      obtain ⟨p, c', hu⟩ := h.rep u
      have hview := hu.view
      cases hview with
      | inlined hflag => exact ⟨_, _, .inlined hflag, hu.size, hu.le, hu.mem⟩
      | allocated hflag ha hc hdead hpos =>
        rw [h0] at hflag
        cases hflag
    · refine (h.rep u).congr rfl (update_of_ne hus _ _) rfl fun id hid => ⟨?_, rfl⟩
      exact hcap id (hlt u id hid).ne
  · have hid' : w.fresh + 1 ≤ id := hid
    rw [hcap id (by omega)]
    exact h.fresh id (by omega)
  · by_cases hid' : id = w.fresh
    · rw [hid', hfresh] at hid
      cases hid
    · rw [hcap id hid'] at hid
      exact h.dead id hid
  · rw [howned] at hu hv
    exact h.inj u v id hu hv
  · by_cases hid' : id = w.fresh
    · exact .inl hid'
    · rw [hcap id hid'] at hid
      refine .inr ?_
      obtain ⟨u, hu⟩ := (h.owner id hid).resolve_left not_false
      exact ⟨u, by rw [howned, hu]⟩
  · rintro id rfl
    refine ⟨by rw [hfresh]; exact Option.some_ne_none c, fun u hu => ?_⟩
    rw [howned] at hu
    exact absurd (hlt u _ hu) (lt_irrefl _)

/-- The vectors then hold `L`, or some lists after an exception. -/
abbrev Leaves (cfg : Config) (n : ℕ) (X : ℕ → Prop) (w : World T) (op : Op T Unit)
    (L : ℕ → List (Option T)) : Prop :=
  Runs op w (fun _ w' => WF cfg n X w' L) fun w' => ∃ L', WF cfg n X w' L'

/-- An operation on one vector leaves the others alone. -/
theorem WF.of_spec {op : Op T Unit} (h : WF cfg n X w L) (hs : s < n)
    (hop : ∀ {p c}, RepAt cfg w s p c (L s) → Spec cfg w s op l) :
    Leaves cfg n X w op (update L s l) := by
  obtain ⟨p, c, hrep⟩ := h.rep s
  exact (hop hrep).mono (fun _ _ hw' => h.local hs hw'.1 hw'.2)
    fun _ ⟨hlocal, _, hrep⟩ => ⟨_, h.local hs hlocal hrep⟩

/-- A vector ends. -/
theorem WF.renew (h : WF cfg n X w L) (hs : s < n) {E : World T → Prop} :
    Runs (renew cfg s) w (fun _ w' => WF cfg n X w' (update L s []) ∧ Local w w' s ∧
      w'.storage s = ⟨0, false⟩) E := by
  obtain ⟨p, c, hrep⟩ := h.rep s
  exact (renew_spec hrep h.fresh).mono
    (fun _ _ hw' => ⟨h.local hs hw'.1.1 hw'.1.2, hw'.1.1, hw'.2⟩) fun _ h => h

end Owners

/-! ## The end of all vectors -/

/-- All vectors end. -/
def destroyAll (cfg : Config) (n : ℕ) : Op T Unit := Prog.loop (renew cfg) n

/-- No object and no block is left. -/
structure World.Clean (w : World T) : Prop where
  mem : ∀ p i, w.mem p i = none
  cap : ∀ id, w.cap id = none

variable {n : ℕ} {w : World T}

/-- When all vectors have ended, only the blocks nobody owns are left. -/
theorem destroyAll_spec {X : ℕ → Prop} {L : ℕ → List (Option T)} (h : WF cfg n X w L)
    {E : World T → Prop} : Runs (destroyAll cfg n) w (fun _ w' => (∀ id, w'.cap id ≠ none ↔ X id) ∧
      (∀ s i, w'.mem (.inlined s) i = none) ∧
      ∀ id, ¬ X id → ∀ i, w'.mem (.heap id) i = none) E := by
  have hloop := Runs.loop (E := E) (fun k w' => ∃ L', WF cfg n X w' L' ∧
    ∀ s < k, w'.storage s = ⟨0, false⟩) n ⟨L, h, nofun⟩
    fun k hk w1 hw1 => by
      obtain ⟨L1, hwf, hzero⟩ := hw1
      refine (hwf.renew hk).imp (fun _ w2 hw2 => ⟨_, hw2.1, fun s hs => ?_⟩)
      by_cases hsk : s = k
      · rw [hsk]
        exact hw2.2.2
      · rw [(hw2.2.1.other s hsk).1]
        exact hzero s (by omega)
  refine hloop.imp ?_
  rintro _ w' ⟨L', hwf, hzero⟩
  have hstorage : ∀ s, w'.storage s = ⟨0, false⟩ := fun s => by
    by_cases hs : s < n
    · exact hzero s hs
    · exact hwf.outside s (by omega)
  have howned : ∀ s, w'.owned s = none := fun s => by
    rw [World.owned, hstorage]
    rfl
  have hcap : ∀ id, w'.cap id ≠ none ↔ X id := by
    refine fun id =>
      ⟨fun hid => (hwf.owner id hid).resolve_right ?_, fun hid => (hwf.lost id hid).1⟩
    rintro ⟨s, hs⟩
    rw [howned] at hs
    cases hs
  refine ⟨hcap, fun s i => ?_, fun id hid =>
    hwf.dead id (not_not.1 fun hne => hid ((hcap id).1 hne))⟩
  obtain ⟨p, c, hrep⟩ := hwf.rep s
  have hview := hrep.view
  cases hview with
  | inlined hflag =>
    refine hrep.none ?_
    rw [← hrep.size, hstorage]
    exact Nat.zero_le i
  | allocated hflag ha hc hdead hpos => exact hdead i

/-- When all vectors have ended, nothing is left. -/
theorem destroyAll_clean {L : ℕ → List (Option T)} (h : WF cfg n (fun _ => False) w L) :
    Runs (destroyAll cfg n) w (fun _ w' => w'.Clean) fun _ => False := by
  refine (destroyAll_spec h).imp ?_
  rintro _ w' ⟨hcap, hinlined, hheap⟩
  refine ⟨fun p i => ?_, fun id => not_not.1 fun hne => (hcap id).1 hne⟩
  cases p with
  | inlined s => exact hinlined s i
  | heap id => exact hheap id not_false i

/-! ## Calls -/

/-- The operations. The values that they are given are not elements of the vectors. -/
inductive Call (T : Type)
  | construct (s : ℕ) (v : ℕ → T) (newSize : ℕ)
  | copyConstruct (s t : ℕ)
  | assign (s : ℕ) (v : ℕ → T) (newSize : ℕ)
  | resize (s : ℕ) (v : ℕ → T) (newSize : ℕ)
  | insert (s index : ℕ) (v : ℕ → T) (count : ℕ)
  | emplaceBack (s : ℕ) (v : T)
  | erase (s index eraseSize : ℕ)
  | reserve (s requestedCapacity : ℕ)
  | shrinkToFit (s : ℕ)
  | swap (s t : ℕ)

namespace Call

/-- The calls of the storage, as the vector makes them. A constructor is called where a vector
ended. -/
def run (cfg : Config) : Call T → Op T Unit
  | .construct s v newSize => do
    renew cfg s
    initializeElements cfg s (valuesOf v) newSize
  | .copyConstruct s t => do
    renew cfg s
    let o ← getStorage t
    if o.size = 0 then pure () else initFrom cfg s t
  | .assign s v newSize => InlinedVector.assign cfg s (valuesOf v) newSize
  | .resize s v newSize => InlinedVector.resize cfg s (valuesOf v) newSize
  | .insert s index v count => InlinedVector.insert cfg s index (valuesOf v) count
  | .emplaceBack s v => InlinedVector.emplaceBack cfg s v
  | .erase s index eraseSize => InlinedVector.erase cfg s index eraseSize
  | .reserve s requestedCapacity => InlinedVector.reserve cfg s requestedCapacity
  | .shrinkToFit s => do
    let st ← getStorage s
    if st.isAllocated then InlinedVector.shrinkToFit cfg s else pure ()
  | .swap s t => if s ≠ t then InlinedVector.swap cfg s t else pure ()

/-- The preconditions of a call on `n` vectors with these sizes. -/
def Valid (n : ℕ) (size : ℕ → ℕ) : Call T → Prop
  | .construct s _ _ => s < n
  | .copyConstruct s t => s < n ∧ t < n ∧ t ≠ s
  | .assign s _ _ => s < n
  | .resize s _ _ => s < n
  | .insert s index _ _ => s < n ∧ index ≤ size s
  | .emplaceBack s _ => s < n
  | .erase s index eraseSize => s < n ∧ index + eraseSize ≤ size s
  | .reserve s _ => s < n
  | .shrinkToFit s => s < n
  | .swap s t => s < n ∧ t < n

/-- What a call should do to lists in which `f` is what stands for a value. -/
def effect {α : Type} (f : T → α) (L : ℕ → List α) : Call T → ℕ → List α
  | .construct s v newSize => update L s ((range newSize).map fun k => f (v k))
  | .copyConstruct s t => update L s (L t)
  | .assign s v newSize => update L s ((range newSize).map fun k => f (v k))
  | .resize s v newSize =>
    update L s ((L s).take newSize ++ (range (newSize - (L s).length)).map fun k => f (v k))
  | .insert s index v count =>
    update L s ((L s).take index ++ ((range count).map fun k => f (v k)) ++ (L s).drop index)
  | .emplaceBack s v => update L s (L s ++ [f v])
  | .erase s index eraseSize =>
    update L s ((L s).take index ++ (L s).drop (index + eraseSize))
  | .reserve _ _ => L
  | .shrinkToFit _ => L
  | .swap s t => update (update L s (L t)) t (L s)

/-- What a call should do to the lists. -/
def reference (L : ℕ → List T) (call : Call T) : ℕ → List T := call.effect id L

/-- How a call fails to clean up : a copy of a vector with a block throws, or an exchange of inlined
elements by construction throws twice. -/
def Fails (cfg : Config) (w : World T) (count : List ℕ) : Call T → Prop
  | .copyConstruct _ t => cfg.triviallyCopyConstructible = false ∧
    (w.storage t).isAllocated = true ∧ ∃ k r, count = k :: r ∧ k < (w.storage t).size
  | .swap s t => s ≠ t ∧ cfg.swapPolicy = .elementwiseConstruct ∧
    (w.storage s).isAllocated = false ∧ (w.storage t).isAllocated = false ∧
    ThrowsTwice (min (w.storage s).size (w.storage t).size) count
  | _ => False

/-- Without exceptions every call is fine. -/
theorem not_fails_nil (cfg : Config) (w : World T) (call : Call T) : ¬ call.Fails cfg w [] := by
  cases call <;> simp [Fails, ThrowsTwice]

end Call

open Call

section Calls

variable {n : ℕ} {w w' : World T} {L : ℕ → List (Option T)} {s t : ℕ}

/-- The effect on values is that on lists. -/
theorem effect_map (L : ℕ → List T) (call : Call T) :
    call.effect some (fun s => (L s).map some) = fun s => (call.reference L s).map some := by
  have hvalues : ∀ (v : ℕ → T) k,
      ((range k).map fun i => some (v i)) = ((range k).map fun i => id (v i)).map some :=
    fun v k => by
      rw [map_map]
      rfl
  have hupdate : ∀ (K : ℕ → List T) s l, update (fun s => (K s).map some) s (l.map some)
      = fun u => (update K s l u).map some := by
    intro K s l
    funext u
    by_cases hu : u = s
    · rw [hu, update_self, update_self]
    · rw [update_of_ne hu, update_of_ne hu]
  unfold reference
  cases call with
  | construct s v k | assign s v k => rw [effect, effect, hvalues, hupdate]
  | copyConstruct s t => exact hupdate L s (L t)
  | resize s v k =>
    rw [effect, effect, hvalues, ← hupdate, map_append, map_take, length_map]
  | insert s index v count =>
    rw [effect, effect, hvalues, ← hupdate, map_append, map_append, map_take, map_drop]
  | emplaceBack s v =>
    rw [effect, effect, ← hupdate, map_append]
    rfl
  | erase s index k =>
    rw [effect, effect, ← hupdate, map_append, map_take, map_drop]
  | reserve s k | shrinkToFit s => rfl
  | swap s t =>
    rw [effect, effect, ← hupdate, ← hupdate]

section Costs

variable {w : World T} {s t : ℕ}

/-- Copies are counted. -/
theorem constructElements_costs (p q : Place) (lo src used n : ℕ) :
    Costs (constructElements cfg p lo (copyValues q src) used n) w n := by
  have hbody : ∀ i (w : World T), Costs (Prog.onThrow
      (do
        let e ← copyValues q src (used + i)
        constructAt cfg p (lo + i) e)
      (destroyElements p lo i)) w 1 := fun i w =>
    (lift.bind_zero fun _ _ _ _ _ => lift.bind_zero fun _ _ _ _ _ =>
      tick.bind fun _ _ _ _ _ => lift).onThrow
  have := loop (s := w) hbody n
  rwa [mul_one] at this

theorem destroyElements_costs (p : Place) (lo n : ℕ) : Costs (destroyElements p lo n) w 0 := by
  have := loop (s := w) (fun i w => lift
    (g := fun w : World T => if (w.mem p (lo + (n - 1 - i))).isSome then
      some ((), w.set p (lo + (n - 1 - i)) none) else none)) n
  rwa [mul_zero] at this

theorem renew_costs : Costs (renew cfg s) w 0 := by
  refine bind_zero (lift.bind_zero fun _ st _ w1 _ => ?_) fun _ _ _ _ _ => lift
  split_ifs
  · exact pure
  refine bind_zero (lift.bind_zero fun _ st _ w1 _ => ?_) fun _ _ _ _ _ =>
    (destroyElements_costs _ _ _).bind_zero fun _ _ _ _ _ => lift.bind_zero
      fun _ st _ w1 _ => ?_
  · split_ifs
    · exact lift.bind_zero fun _ _ _ _ _ => pure
    · exact pure
  · split_ifs
    · exact lift.bind_zero fun _ _ _ _ _ => lift
    · exact pure

theorem getStorage_ok {st : Storage} {count count' : List ℕ} {w' : World T}
    (h : getStorage t count w = .ok st count' w') : st = w.storage t ∧ w' = w := by
  cases h
  exact ⟨rfl, rfl⟩

/-- The copy constructor makes one copy for each element. -/
theorem initFrom_costs (htriv : cfg.triviallyCopyConstructible = false)
    (hflag : (w.storage t).isAllocated = true) : Costs (initFrom cfg s t) w (w.storage t).size := by
  refine lift.bind_zero fun _ o _ w1 ho => ?_
  obtain ⟨rfl, rfl⟩ := getStorage_ok ho
  rw [hflag, htriv]
  refine lift.bind_zero fun _ _ _ _ _ => lift.bind_zero fun _ _ _ _ _ =>
    lift.bind_zero fun _ _ _ _ _ => pure.bind_zero fun _ _ _ _ _ => ?_
  exact (constructElements_costs _ _ _ _ _ _).bind fun _ _ _ _ _ => lift

theorem copyConstruct_costs {n : ℕ} {L : ℕ → List (Option T)} (h : WF cfg n (fun _ => False) w L)
    (hs : s < n) (hts : t ≠ s) (htriv : cfg.triviallyCopyConstructible = false)
    (hflag : (w.storage t).isAllocated = true) :
    Costs ((copyConstruct s t).run cfg) w (w.storage t).size := by
  refine renew_costs.bind_zero fun count _ _ w1 hrenew => ?_
  have hsat := h.renew hs (E := fun _ => False) count
  rw [RunsAt, hrenew] at hsat
  obtain ⟨⟨-, hlocal, -⟩, -⟩ := hsat
  rw [← (hlocal.other t hts).1] at hflag ⊢
  refine lift.bind_zero fun _ o _ w2 ho => ?_
  obtain ⟨rfl, rfl⟩ := getStorage_ok ho
  split_ifs with hsize
  · rw [hsize]
    exact pure
  · exact initFrom_costs htriv hflag

end Costs

section

variable (h : WF cfg n (fun _ => False) w L)
include h

theorem WF.size (s : ℕ) : (w.storage s).size = (L s).length := by
  obtain ⟨p, c, hrep⟩ := h.rep s
  exact hrep.size

/-- A construction. -/
theorem WF.construct (hs : s < n) (v : ℕ → T) (newSize : ℕ) :
    Leaves cfg n (fun _ => False) w ((construct s v newSize).run cfg)
      ((construct s v newSize).effect some L) := by
  refine Runs.bind (h.renew hs) ?_
  rintro _ w1 ⟨hwf, -, h0⟩
  have hrep := hwf.rep s
  rw [update_self] at hrep
  refine (hwf.of_spec hs fun _ => initializeElements_spec (hrep.inlined (by rw [h0])) hwf.fresh h0 v
    newSize).imp (fun _ w' hw' => ?_)
  rwa [update_idem] at hw'

/-- A copy construction. -/
theorem WF.copyConstruct (hs : s < n) (hts : t ≠ s) :
    Runs ((copyConstruct s t).run cfg) w
      (fun _ w' => WF cfg n (fun _ => False) w' ((copyConstruct s t).effect some L))
      (fun w' => cfg.triviallyCopyConstructible = false ∧
        if (w.storage t).isAllocated then ∃ x L', WF cfg n (fun id => id = x) w' L'
        else ∃ L', WF cfg n (fun _ => False) w' L') := by
  refine Runs.bind (h.renew hs) ?_
  rintro _ w1 ⟨hwf, hlocal, h0⟩
  refine Runs.lift_bind rfl ?_
  obtain ⟨q, d, ho⟩ := hwf.rep t
  rw [update_of_ne hts] at ho
  by_cases hsize : (w1.storage t).size = 0
  · rw [if_pos hsize]
    refine Runs.pure ?_
    rw [ho.size] at hsize
    rwa [effect, length_eq_zero_iff.1 hsize]
  rw [if_neg hsize]
  have hrep := hwf.rep s
  rw [update_self] at hrep
  refine (initFrom_spec (hrep.inlined (by rw [h0])) hwf.fresh h0 ho hts).mono
    (fun _ w2 hw2 => ?_) ?_
  · have hwf2 := hwf.local hs hw2.1 hw2.2
    rwa [update_idem] at hwf2
  rintro w2 ⟨htriv, hw2⟩
  rw [(hlocal.other t hts).1] at hw2
  refine ⟨htriv, ?_⟩
  split_ifs at hw2 ⊢ with hflag
  · refine ⟨w1.fresh, update L s [], ?_⟩
    rw [hw2]
    exact hwf.leak h0 _
  · obtain ⟨hlocal2, l, hrep2⟩ := hw2
    exact ⟨_, hwf.local hs hlocal2 hrep2⟩

/-- A swap. -/
theorem WF.swap {count : List ℕ} (hs : s < n) (ht : t < n)
    (hfine : ¬ (Call.swap s t : Call T).Fails cfg w count) :
    RunsAt count ((Call.swap s t).run cfg) w
      (fun _ w' => WF cfg n (fun _ => False) w' ((Call.swap s t).effect some L))
      fun w' => ∃ L', WF cfg n (fun _ => False) w' L' := by
  rw [Call.run]
  split_ifs with hst
  · refine (swap_spec (h.rep s) (h.rep t) hst fun hflags hflagt hpolicy htwice =>
      hfine ⟨hst, hpolicy, hflags, hflagt, by rwa [h.size, h.size]⟩).mono
      (fun _ w' hw' => ?_) fun w' hw' => ?_
    · refine h.beside hs ht hw'.beside hw'.left hw'.right (Equiv.swap s t) ?_ ?_
        fun u => Equiv.swap_apply_of_ne_of_ne
      · rw [Equiv.swap_apply_left, hw'.owned_left]
      · rw [Equiv.swap_apply_right, hw'.owned_right]
    · obtain ⟨l, hl⟩ := hw'.left
      obtain ⟨l', hl'⟩ := hw'.right
      exact ⟨_, h.beside hs ht hw'.beside hl hl' (Equiv.refl ℕ) hw'.owned_left hw'.owned_right
        fun _ _ _ => rfl⟩
  · obtain rfl := not_not.1 hst
    rw [effect, update_idem, update_eq_self]
    exact Runs.pure (E := fun w' => ∃ L', WF cfg n (fun _ => False) w' L') h count

/-- A vector that shrinks. -/
theorem WF.shrinkToFit (hs : s < n) :
    Leaves cfg n (fun _ => False) w ((Call.shrinkToFit s).run cfg)
      ((Call.shrinkToFit s).effect some L) := by
  refine Runs.lift_bind rfl ?_
  obtain ⟨p, c, hrep⟩ := h.rep s
  have hview := hrep.view
  cases hview with
  | inlined hflag =>
    rw [hflag]
    exact Runs.pure h
  | allocated hflag ha hc hdead hpos =>
    rw [hflag]
    have hspec := h.of_spec hs fun _ => shrinkToFit_spec hrep h.fresh
    rwa [update_eq_self] at hspec

/-- A copy that does not lose its block. -/
theorem WF.copyConstruct_fine {count : List ℕ} (hs : s < n) (hts : t ≠ s)
    (hfine : ¬ (Call.copyConstruct s t : Call T).Fails cfg w count) :
    RunsAt count ((Call.copyConstruct s t).run cfg) w
      (fun _ w' => WF cfg n (fun _ => False) w' ((Call.copyConstruct s t).effect some L))
      fun w' => ∃ L', WF cfg n (fun _ => False) w' L' := by
  have hsat := h.copyConstruct hs hts count
  unfold RunsAt at hsat ⊢
  rcases hr : (Call.copyConstruct s t).run cfg count w with ⟨_, count', w'⟩ | ⟨_, w'⟩ | _ <;>
    rw [hr] at hsat
  · exact hsat
  · obtain ⟨⟨htriv, hthrown⟩, hcount⟩ := hsat
    refine ⟨?_, hcount⟩
    split_ifs at hthrown with hflag
    · -- the copy ends before the exception is due
      obtain ⟨k, r, rfl⟩ := exists_cons_of_ne_nil hcount
      have hcost := copyConstruct_costs h hs hts htriv hflag k r
      rw [hr] at hcost
      exact absurd ⟨htriv, hflag, k, r, rfl, hcost⟩ hfine
    · exact hthrown
  · cases hsat

/-- Every call keeps the lists, and an exception leaves some lists. -/
theorem call_spec {call : Call T} {count : List ℕ} (hv : call.Valid n fun s => (w.storage s).size)
    (hfine : ¬ call.Fails cfg w count) :
    RunsAt count (call.run cfg) w (fun _ w' => WF cfg n (fun _ => False) w' (call.effect some L))
      fun w' => ∃ L', WF cfg n (fun _ => False) w' L' := by
  simp only [h.size] at hv
  cases call with
  | construct s v k => exact h.construct hv v k count
  | copyConstruct s t => exact h.copyConstruct_fine hv.1 hv.2.2 hfine
  | assign s v k => exact h.of_spec hv (fun hrep => assign_spec hrep h.fresh v k) count
  | resize s v k => exact h.of_spec hv (fun hrep => resize_spec hrep h.fresh v k) count
  | insert s index v k =>
    exact h.of_spec hv.1 (fun hrep => insert_spec hrep h.fresh v hv.2) count
  | emplaceBack s v => exact h.of_spec hv (fun hrep => emplaceBack_spec hrep h.fresh v) count
  | erase s index k => exact h.of_spec hv.1 (fun hrep => erase_spec hrep h.fresh hv.2) count
  | reserve s k =>
    have hspec := h.of_spec hv fun hrep => reserve_spec hrep h.fresh k
    rw [update_eq_self] at hspec
    exact hspec count
  | shrinkToFit s => exact h.shrinkToFit hv count
  | swap s t => exact h.swap hv.1 hv.2 hfine

end

end Calls

/-! ## Runs without an exception -/

/-- Vectors that are empty. -/
def World.empty : World T := ⟨fun _ _ => none, fun _ => none, 0, fun _ => ⟨0, false⟩, fun _ => none⟩

variable (cfg) in
theorem wf_empty (n : ℕ) : WF cfg n (fun _ => False) (World.empty : World T) fun _ => [] where
  rep := fun _ => ⟨_, _, .inlined rfl, rfl, Nat.zero_le _, fun _ => rfl⟩
  fresh := fun _ _ => ⟨rfl, fun _ => rfl⟩
  dead := fun _ _ _ => rfl
  inj := fun _ _ _ h => absurd h (by simp [World.owned, World.empty])
  owner := fun _ h => absurd rfl h
  lost := fun _ h => h.elim
  outside := fun _ _ => rfl

/-- Calls one after another. -/
def runAll (cfg : Config) : List (Call T) → Op T Unit
  | [] => pure ()
  | call :: calls => do
    call.run cfg
    runAll cfg calls

/-- The lists that calls should leave. -/
def referenceAll (L : ℕ → List T) (calls : List (Call T)) : ℕ → List T :=
  calls.foldl (fun L call => call.reference L) L

/-- Each call meets its preconditions. -/
def ValidRun (n : ℕ) : (ℕ → List T) → List (Call T) → Prop
  | _, [] => True
  | L, call :: calls =>
    call.Valid n (fun s => (L s).length) ∧ ValidRun n (call.reference L) calls

/-- A run of calls has the effect of the reference. -/
theorem runAll_spec {L : ℕ → List T} {calls : List (Call T)}
    (h : WF cfg n (fun _ => False) w fun s => (L s).map some) (hv : ValidRun n L calls) :
    ∃ w', runAll cfg calls [] w = .ok () [] w' ∧
      WF cfg n (fun _ => False) w' fun s => (referenceAll L calls s).map some := by
  induction calls generalizing w L with
  | nil => exact ⟨w, rfl, h⟩
  | cons call calls ih =>
    obtain ⟨hvalid, hrest⟩ := hv
    have hvalid' : call.Valid n fun s => (w.storage s).size := by
      simpa only [h.size, length_map] using hvalid
    obtain ⟨⟨⟩, w1, hrun, hwf⟩ := (call_spec h hvalid' (not_fails_nil cfg w call)).ok
    rw [effect_map] at hwf
    obtain ⟨w2, hrun2, hwf2⟩ := ih hwf hrest
    refine ⟨w2, ?_, hwf2⟩
    change Prog.bind (call.run cfg) (fun _ => runAll cfg calls) [] w = _
    rwa [Prog.bind, hrun]

/-- Calls that meet their preconditions leave the lists they should, and nothing is left when the
vectors end. -/
theorem runAll_refines {n : ℕ} {calls : List (Call T)} (hv : ValidRun n (fun _ => []) calls) :
    ∃ w w', runAll cfg calls [] World.empty = .ok () [] w ∧
      (WF cfg n (fun _ => False) w fun s => (referenceAll (fun _ => []) calls s).map some) ∧
      destroyAll cfg n [] w = .ok () [] w' ∧ w'.Clean := by
  have hempty : WF cfg n (fun _ => False) (World.empty : World T) fun _ => [] := wf_empty cfg n
  obtain ⟨w, hrun, hwf⟩ := runAll_spec hempty hv
  obtain ⟨⟨⟩, w', hend, hclean⟩ := (destroyAll_clean hwf []).ok
  exact ⟨w, w', hrun, hwf, hend, hclean⟩

/-- Two vectors with room for two elements each. -/
theorem runAll_refines_swap : ∃ w w' : World ℕ, runAll ⟨2, false, false, .elementwiseSwap, two_pos⟩
      [.construct 0 id 3, .insert 0 1 id 2, .swap 0 1, .erase 1 0 3, .shrinkToFit 1] []
      World.empty = .ok () [] w ∧
    (WF ⟨2, false, false, .elementwiseSwap, two_pos⟩ 2 (fun _ => False) w
      fun s => (referenceAll (fun _ => []) [.construct 0 id 3, .insert 0 1 id 2, .swap 0 1,
        .erase 1 0 3, .shrinkToFit 1] s).map some) ∧
    destroyAll ⟨2, false, false, .elementwiseSwap, two_pos⟩ 2 [] w = .ok () [] w' ∧ w'.Clean :=
  runAll_refines ⟨two_pos, ⟨two_pos, by decide⟩, ⟨two_pos, one_lt_two⟩, ⟨one_lt_two, by decide⟩,
    one_lt_two, trivial⟩

/-! ## Exceptions -/

/-- Worlds that calls lead to, with and without exceptions, as long as every call cleans up. -/
inductive Reachable (cfg : Config) (n : ℕ) : World T → Prop
  | start : Reachable cfg n World.empty
  | step {w w' : World T} {call : Call T} {count : List ℕ} (h : Reachable cfg n w)
      (hv : call.Valid n fun s => (w.storage s).size) (hfine : ¬ call.Fails cfg w count)
      (hr : (call.run cfg count w).EndsIn w') : Reachable cfg n w'

/-- After the call, in which operations on elements throw as `count` says, the vectors end, and
nothing is left. -/
def LeavesNothing (cfg : Config) (n : ℕ) (call : Call T) (count : List ℕ) (w : World T) : Prop :=
  ∃ w' w'', (call.run cfg count w).EndsIn w' ∧
    destroyAll cfg n [] w' = .ok () [] w'' ∧ w''.Clean

/-! ### Vectors with a missing element -/

/-- The element `i` of a vector without a block is missing. -/
structure Missing (u i : ℕ) (w : World T) : Prop where
  inlined : (w.storage u).isAllocated = false
  lt : i < (w.storage u).size
  mem : w.mem (.inlined u) i = none

section Missing

variable {w : World T} {u v i : ℕ} (h : Missing u i w)
include h

/-- A slot that is missing stays so, or there is a fault. -/
theorem Missing.destroyAt (p : Place) (j : ℕ) : Ends (destroyAt p j) w fun _ => Missing u i := by
  refine Ends.lift fun _ w' heq => ?_
  split_ifs at heq
  cases heq
  refine ⟨h.inlined, h.lt, ?_⟩
  change (if _ then none else w.mem (.inlined u) i) = none
  split_ifs
  · rfl
  · exact h.mem

theorem Missing.getAllocation : Ends (getAllocation v) w fun _ => Missing u i := by
  refine Ends.lift fun _ w' heq => ?_
  obtain ⟨_, -, heq⟩ := Option.map_eq_some_iff.1 heq
  cases heq
  exact h

/-- The destructor of another vector makes no object. -/
theorem Missing.renew (hv : v ≠ u) : Ends (renew cfg v) w fun _ => Missing u i := by
  refine Ends.bind (Q := fun _ => Missing u i) (Ends.lift_bind rfl ?_) fun _ w' h' =>
    Ends.lift fun _ _ heq => ?_
  · split_ifs
    · exact Ends.pure h
    refine Ends.bind (Q := fun _ => Missing u i) (Ends.lift_bind rfl ?_) fun view w1 h1 => ?_
    · split_ifs
      · exact h.getAllocation.bind fun _ _ h' => Ends.pure h'
      · exact Ends.pure h
    refine Ends.bind (Q := fun _ => Missing u i) (Ends.loop (fun _ => Missing u i) _ h1
      fun k _ w2 h2 => h2.destroyAt _ _) fun _ w2 h2 => Ends.lift_bind rfl ?_
    split_ifs
    · refine h2.getAllocation.bind fun _ w3 h3 => Ends.lift fun _ _ heq => ?_
      split_ifs at heq
      cases heq
      exact ⟨h3.inlined, h3.lt, h3.mem⟩
    · exact Ends.pure h2
  · cases heq
    have hstorage := update_of_ne hv.symm ⟨0, false⟩ w'.storage
    refine ⟨?_, ?_, h'.mem⟩
    · exact (congrArg Storage.isAllocated hstorage).trans h'.inlined
    · exact lt_of_lt_of_eq h'.lt (congrArg Storage.size hstorage).symm

/-- The destructor destroys what is not an object. -/
theorem Missing.not_renew : Ends (InlinedVector.renew cfg u) w fun _ _ => False := by
  have hlt := h.lt
  refine Ends.bind (Q := fun _ _ => False) (Ends.lift_bind rfl ?_) fun _ _ => False.elim
  rw [if_neg (by omega)]
  refine Ends.bind (Q := fun view w' => view.data = .inlined u ∧ w' = w) (Ends.lift_bind rfl ?_) ?_
  · rw [h.inlined]
    exact Ends.pure ⟨rfl, rfl⟩
  rintro view w' ⟨hdata, rfl⟩
  rw [hdata]
  generalize hn : (w'.storage u).size = n at hlt
  refine Ends.bind (Q := fun _ _ => False) ((Ends.loop (fun k w1 => k + i < n ∧ Missing u i w1) n
    ⟨by omega, h⟩ fun k _ w1 hw1 => ?_).mono fun _ _ hend => ?_) fun _ _ => False.elim
  · by_cases hk : k + 1 + i < n
    · exact (hw1.2.destroyAt _ _).mono fun _ _ hw2 => ⟨hk, hw2⟩
    · refine Ends.lift fun _ _ heq => ?_
      rw [show 0 + (n - 1 - k) = i by omega, hw1.2.mem] at heq
      cases heq
  · exact absurd hend.1 (by omega)

/-- A missing slot is destroyed when the vectors end. -/
theorem Missing.not_destroyAll {n : ℕ} (hu : u < n) :
    Ends (destroyAll cfg n) w fun _ _ => False := by
  have hloop := Ends.loop (b := InlinedVector.renew cfg) (s := w)
    (fun k w' => k ≤ u ∧ Missing u i w') n ⟨Nat.zero_le u, h⟩ fun k _ w' hw' => ?_
  · exact fun count a count' w' heq => absurd (hloop count a count' w' heq).1 (by omega)
  obtain ⟨hk, hw'⟩ := hw'
  by_cases hku : k = u
  · subst hku
    exact fun count a count' w'' heq => (hw'.not_renew count a count' w'' heq).elim
  · exact fun count a count' w'' heq => ⟨by omega, hw'.renew hku count a count' w'' heq⟩

end Missing

section Fails

variable {n : ℕ} {w w' : World T} {L : ℕ → List (Option T)} {call : Call T} {count : List ℕ}

section

variable (h : WF cfg n (fun _ => False) w L)
  (hv : call.Valid n fun s => (w.storage s).size)
include h hv

/-- A call that cleans up leaves vectors that hold lists. -/
theorem WF.endsIn (hfine : ¬ call.Fails cfg w count) :
    ∃ w', (call.run cfg count w).EndsIn w' ∧ ∃ L', WF cfg n (fun _ => False) w' L' := by
  have hsat := call_spec h hv hfine
  unfold RunsAt at hsat
  rcases hr : call.run cfg count w with ⟨_, count', w'⟩ | ⟨_, w'⟩ | _ <;> rw [hr] at hsat
  · exact ⟨w', rfl, _, hsat.1⟩
  · exact ⟨w', rfl, hsat.1⟩
  · cases hsat

/-- A call that is fine leaves nothing. -/
theorem WF.leavesNothing (hfine : ¬ call.Fails cfg w count) :
    LeavesNothing cfg n call count w := by
  obtain ⟨w', hr, L', hwf⟩ := h.endsIn hv hfine
  obtain ⟨⟨⟩, w'', hend, hclean⟩ := (destroyAll_clean hwf []).ok
  exact ⟨w', w'', hr, hend, hclean⟩

omit hv

/-- The block of a copy that throws is never freed. -/
theorem WF.copyConstruct_leaks {s t : ℕ} (hs : s < n) (hts : t ≠ s)
    (hfails : (Call.copyConstruct s t : Call T).Fails cfg w count) :
    ¬ LeavesNothing cfg n (Call.copyConstruct s t) count w := by
  rintro ⟨w', w'', hr, hend, hclean⟩
  obtain ⟨htriv, hflag, k, r, rfl, hk⟩ := hfails
  have hcost := copyConstruct_costs h hs hts htriv hflag k r
  have hsat := h.copyConstruct hs hts (k :: r)
  unfold RunsAt at hsat
  rcases ho : (Call.copyConstruct s t).run cfg (k :: r) w with ⟨_, count, w1⟩ | ⟨_, w1⟩ | _ <;>
    rw [ho] at hcost hsat hr
  · obtain ⟨k', heq, -⟩ := hcost
    omega
  · obtain ⟨⟨-, hthrown⟩, -⟩ := hsat
    rw [if_pos hflag] at hthrown
    obtain ⟨x, L', hwf⟩ := hthrown
    obtain rfl : w1 = w' := hr
    have hlost := destroyAll_spec hwf (E := fun _ => False) []
    rw [RunsAt, hend] at hlost
    exact (hlost.1.1 x).2 rfl (hclean.cap x)
  · exact hr

/-- A slot below the size of a vector that swaps is left without an object. -/
theorem WF.swap_missing {s t : ℕ} (hs : s < n) (ht : t < n)
    (hfails : (Call.swap s t : Call T).Fails cfg w count) : ∃ r w',
      (Call.swap s t).run cfg count w = .thrown r w' ∧ ∃ u < n, ∃ i, Missing u i w' := by
  obtain ⟨hst, hpolicy, hflags, hflagt, htwice⟩ := hfails
  rw [h.size, h.size] at htwice
  obtain ⟨r, w', hrun, hstorage, i, hi, hmem⟩ := swapInlinedElements_gap
    ((h.rep s).inlined hflags) ((h.rep t).inlined hflagt) hst hpolicy htwice
  refine ⟨r, w', ?_, ?_⟩
  · rw [Call.run, if_pos hst]
    refine (lift_bind_eq rfl _).trans ((lift_bind_eq rfl _).trans ?_)
    rw [hflags, hflagt]
    exact thrown_bind_eq hrun
  · rw [← h.size, ← h.size] at hi
    rcases hmem with hmem | hmem
    · exact ⟨s, hs, i, by rw [hstorage, hflags], by rw [hstorage]; omega, hmem⟩
    · exact ⟨t, ht, i, by rw [hstorage, hflagt], by rw [hstorage]; omega, hmem⟩

/-- A call that fails leaves something, or destroys a slot twice. -/
theorem WF.fails (hv : call.Valid n fun s => (w.storage s).size)
    (hfails : call.Fails cfg w count) : ¬ LeavesNothing cfg n call count w := by
  cases call with
  | copyConstruct s t => exact h.copyConstruct_leaks hv.1 hv.2.2 hfails
  | swap s t =>
    rintro ⟨w', w'', hr, hend, -⟩
    obtain ⟨r, w1, hrun, u, hu, i, hmissing⟩ := h.swap_missing hv.1 hv.2 hfails
    rw [hrun] at hr
    obtain rfl : w1 = w' := hr
    exact hmissing.not_destroyAll hu _ _ _ _ hend
  | _ => exact hfails.elim

end

/-- What is reachable is well formed. -/
theorem Reachable.wf (h : Reachable cfg n w) : ∃ L, WF cfg n (fun _ => False) w L := by
  induction h with
  | start => exact ⟨_, wf_empty cfg n⟩
  | @step w w' call count h hv hfine hr ih =>
    obtain ⟨L, hwf⟩ := ih
    obtain ⟨w1, hr1, L1, hwf1⟩ := hwf.endsIn hv hfine
    have heq : w1 = w' := by
      rcases ho : call.run cfg count w with ⟨_, count', w2⟩ | ⟨_, w2⟩ | _ <;> rw [ho] at hr hr1
      · exact hr1.symm.trans hr
      · exact hr1.symm.trans hr
      · exact hr.elim
    exact ⟨L1, heq ▸ hwf1⟩

end Fails

/-- Exceptions leave nothing behind but for a copy of a vector with a block and for a second
exception in an exchange of inlined elements. -/
theorem leavesNothing_iff {n : ℕ} {w : World T} {call : Call T} (h : Reachable cfg n w)
    (hv : call.Valid n fun s => (w.storage s).size) (count : List ℕ) :
    LeavesNothing cfg n call count w ↔ ¬ call.Fails cfg w count := by
  obtain ⟨L, hwf⟩ := h.wf
  exact ⟨fun hnothing hfails => hwf.fails hv hfails hnothing, hwf.leavesNothing hv⟩

theorem Reachable.construct {n s : ℕ} {w : World T} {L : ℕ → List (Option T)}
    (h : Reachable cfg n w) (hwf : WF cfg n (fun _ => False) w L) (hs : s < n) (v : ℕ → T)
    (newSize : ℕ) : ∃ w', Reachable cfg n w' ∧
      WF cfg n (fun _ => False) w' ((Call.construct s v newSize).effect some L) := by
  obtain ⟨⟨⟩, w', hrun, hwf'⟩ := (hwf.construct hs v newSize []).ok
  have hv : (Call.construct s v newSize).Valid n fun s => (w.storage s).size := hs
  exact ⟨w', h.step hv (not_fails_nil cfg w _) (by rw [hrun]; rfl), hwf'⟩

/-- Three elements in a vector with room for one. Two more are inserted between them, the fourth
constructor throws, and so would one in a handler. -/
theorem leavesNothing_insert : ∃ w : World Char,
    Reachable ⟨1, false, false, .elementwiseConstruct, one_pos⟩ 1 w ∧ w.storage 0 = ⟨3, true⟩ ∧
    LeavesNothing ⟨1, false, false, .elementwiseConstruct, one_pos⟩ 1 (.insert 0 1 (fun _ => 'b') 2)
      [3, 0] w := by
  obtain ⟨w, hreach, hwf⟩ := Reachable.start.construct
    (wf_empty ⟨1, false, false, .elementwiseConstruct, one_pos⟩ 1) one_pos (fun _ => 'a') 3
  have hsize : (w.storage 0).size = 3 := hwf.size 0
  obtain ⟨p, c, hrep⟩ := hwf.rep 0
  have hview := hrep.view
  cases hview with
  | inlined hflag => exact absurd hrep.le (by decide)
  | allocated hflag ha hc hdead hpos =>
    have hvalid : (Call.insert 0 1 (fun _ => 'b') 2).Valid 1 fun s => (w.storage s).size :=
      ⟨one_pos, by dsimp only; omega⟩
    exact ⟨w, hreach, by rw [← hsize, ← hflag], (leavesNothing_iff hreach hvalid [3, 0]).2 id⟩

/-- Two characters in a vector with room for one, and a copy that throws at the first. -/
theorem copyConstruct_leaks : ∃ w : World Char, Reachable ⟨1, false, false, .memcpy, one_pos⟩ 2 w ∧
    ((Call.copyConstruct 1 0 : Call Char).Valid 2 fun s => (w.storage s).size) ∧
    ¬ LeavesNothing ⟨1, false, false, .memcpy, one_pos⟩ 2 (.copyConstruct 1 0) [0] w := by
  obtain ⟨w, hreach, hwf⟩ := Reachable.start.construct
    (wf_empty ⟨1, false, false, .memcpy, one_pos⟩ 2) two_pos (fun _ => 'a') 2
  have hvalid : (Call.copyConstruct 1 0 : Call Char).Valid 2 fun s => (w.storage s).size :=
    ⟨one_lt_two, two_pos, zero_ne_one⟩
  refine ⟨w, hreach, hvalid, ?_⟩
  -- two elements do not fit into the vector
  have hsize : (w.storage 0).size = 2 := hwf.size 0
  obtain ⟨p, c, hrep⟩ := hwf.rep 0
  have hview := hrep.view
  cases hview with
  | inlined hflag => exact absurd hrep.le (by decide)
  | allocated hflag ha hc hdead hpos =>
    exact hwf.fails hvalid ⟨rfl, hflag, 0, [], rfl, by rw [hsize]; exact two_pos⟩

end Abseil.InlinedVector
