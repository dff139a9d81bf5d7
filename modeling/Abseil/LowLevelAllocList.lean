import Abseil.LowLevelAlloc
import Abseil.SkipList

/-!
# The free list of the low level allocator

The free list is a skip list (`Skip`). A search finds the last free blocks before an address, and
an insertion or a deletion changes only links and the levels of the head (`Framed`).
-/

namespace Abseil.LowLevelAlloc

open Function Finset SkipList

/-! ## Rules -/

section Rules

variable {α β : Type} {s : Arena} {Q : β → Arena → Prop}

/-- A program that starts in `s` ends in `Q`, without a fault. -/
def Spec (m : Prog α) (s : Arena) (Q : α → Arena → Prop) : Prop :=
  match m s with
  | .ok (a, s') => Q a s'
  | .error _ => False

/-- One step after another. -/
theorem Spec.bind {m : Prog α} {f : α → Prog β} {P : α → Arena → Prop} (h : Spec m s P)
    (hf : ∀ a s', P a s' → Spec (f a) s' Q) : Spec (m >>= f) s Q := by
  change Spec (StateT.bind m f) s Q
  unfold Spec StateT.bind
  unfold Spec at h
  rcases hm : m s with fault | ⟨a, s'⟩
  · rw [hm] at h
    exact h.elim
  · rw [hm] at h
    exact hf a s' h

/-- A program whose result is known. -/
theorem Spec.of_ok {m : Prog α} {f : α → Prog β} {a : α} {s' : Arena} (h : m s = .ok (a, s'))
    (hf : Spec (f a) s' Q) : Spec (m >>= f) s Q := by
  change Spec (StateT.bind m f) s Q
  unfold Spec StateT.bind
  rw [h]
  exact hf

theorem Spec.mono {m : Prog α} {P P' : α → Arena → Prop} (h : Spec m s P)
    (himp : ∀ a s', P a s' → P' a s') : Spec m s P' := by
  unfold Spec at h ⊢
  rcases hm : m s with fault | ⟨a, s'⟩
  · rwa [hm] at h
  · rw [hm] at h
    exact himp a s' h

theorem Spec.pure {a : β} (h : Q a s) : Spec (Pure.pure a) s Q := h

variable {p : ℕ}

theorem getBlock_bind {f : AllocList → Prog β} (h : Spec (f (s.blocks p)) s Q) :
    Spec (getBlock p >>= f) s Q := h

theorem get_bind {f : Arena → Prog β} (h : Spec (f s) s Q) : Spec (get >>= f) s Q := h

theorem set_bind {s' : Arena} {f : PUnit → Prog β} (h : Spec (f ⟨⟩) s' Q) :
    Spec (set s' >>= f) s Q := h

variable {f : Unit → Prog β}

theorem setBlock_bind {b : AllocList} (h : Spec (f ()) { s with blocks := update s.blocks p b } Q) :
    Spec (setBlock p b >>= f) s Q := h

/-- A check that passes. -/
theorem check_bind {condition : Prop} [Decidable condition] {fault : Fault} (hc : condition)
    (h : Spec (f ()) s Q) : Spec (check condition fault >>= f) s Q := by
  unfold check
  rwa [if_pos hc]

variable {i : ℕ}

/-- A read of `next`. -/
theorem getNext_bind {f : Option ℕ → Prog β} (hfits : Fits s p i)
    (h : Spec (f ((s.blocks p).next i)) s Q) : Spec (getNext p i >>= f) s Q :=
  .of_ok (if_pos hfits) h

/-- The state after a write of `next[i]`. -/
def withNext (s : Arena) (p i : ℕ) (n : Option ℕ) : Arena :=
  { s with
    blocks := update s.blocks p
      ({ s.blocks p with next := update (s.blocks p).next i n }) }

/-- A write of `next`. -/
theorem setNext_bind {n : Option ℕ} (hfits : Fits s p i)
    (h : Spec (f ()) (withNext s p i n) Q) : Spec (setNext p i n >>= f) s Q :=
  .of_ok (if_pos hfits) h

/-- A read of `prev`. -/
theorem getPrev_bind {prev : Prev} {f : ℕ → Prog β} (hp : prev i = some p) (hi : i < kMaxLevel)
    (h : Spec (f p) s Q) : Spec (getPrev prev i >>= f) s Q := by
  unfold getPrev
  rw [hp]
  dsimp only
  rwa [if_pos hi]

/-- A write of `prev`. -/
theorem setPrev_bind {prev : Prev} {f : Prev → Prog β} (hi : i < kMaxLevel)
    (h : Spec (f (update prev i (some p))) s Q) : Spec (setPrev prev i p >>= f) s Q := by
  unfold setPrev
  rwa [if_pos hi]

end Rules

/-! ## The invariant -/

/-- Nothing changed but links and the levels of the head. -/
structure Framed (s s' : Arena) : Prop where
  size : ∀ q, (s'.blocks q).size = (s.blocks q).size
  magic : ∀ q, (s'.blocks q).magic = (s.blocks q).magic
  arena : ∀ q, (s'.blocks q).arena = (s.blocks q).arena
  levels : ∀ q, q ≠ 0 → (s'.blocks q).levels = (s.blocks q).levels
  self : s'.self = s.self
  allocationCount : s'.allocationCount = s.allocationCount
  pagesize : s'.pagesize = s.pagesize
  random : s'.random = s.random
  mapped : s'.mapped = s.mapped

theorem Framed.refl (s : Arena) : Framed s s :=
  ⟨fun _ => rfl, fun _ => rfl, fun _ => rfl, fun _ _ => rfl, rfl, rfl, rfl, rfl, rfl⟩

variable {s : Arena}

/-- Frames compose. -/
theorem Framed.trans {s' s'' : Arena} (h : Framed s s') (h' : Framed s' s'') : Framed s s'' where
  size q := (h'.size q).trans (h.size q)
  magic q := (h'.magic q).trans (h.magic q)
  arena q := (h'.arena q).trans (h.arena q)
  levels q hq := (h'.levels q hq).trans (h.levels q hq)
  self := h'.self.trans h.self
  allocationCount := h'.allocationCount.trans h.allocationCount
  pagesize := h'.pagesize.trans h.pagesize
  random := h'.random.trans h.random
  mapped := h'.mapped.trans h.mapped

variable {i : ℕ}

/-- What fits does so under a frame. -/
theorem Framed.fits {s' : Arena} (h : Framed s s') {p : ℕ} : Fits s' p i ↔ Fits s p i := by
  unfold Fits
  rw [h.size]

/-- The free blocks of a level. -/
def level (s : Arena) (F : Finset ℕ) (i : ℕ) : Finset ℕ := F.filter fun a => i < (s.blocks a).levels

theorem mem_level {F : Finset ℕ} {a : ℕ} :
    a ∈ level s F i ↔ a ∈ F ∧ i < (s.blocks a).levels := mem_filter

/-- Higher levels have fewer blocks. -/
theorem level_anti (s : Arena) (F : Finset ℕ) {j : ℕ} (h : i ≤ j) : level s F j ⊆ level s F i :=
  fun _ ha => mem_level.2 ⟨(mem_level.1 ha).1, h.trans_lt (mem_level.1 ha).2⟩

/-- The links of a level. -/
def Linked (s : Arena) (i : ℕ) (S : Finset ℕ) : Prop :=
  ∀ p, p = 0 ∨ p ∈ S → IsNext S p ((s.blocks p).next i)

/-- The blocks have room for their levels. -/
structure Sized (s : Arena) (F : Finset ℕ) : Prop where
  pos : ∀ a ∈ F, 0 < a
  levels_pos : ∀ a ∈ F, 1 ≤ (s.blocks a).levels
  levels_lt : ∀ a ∈ F, (s.blocks a).levels < kMaxLevel
  room : ∀ a ∈ F, nextOffset + 8 * (s.blocks a).levels ≤ (s.blocks a).size

/-- The free list is a skip list of `F`. -/
structure Skip (s : Arena) (F : Finset ℕ) : Prop extends Sized s F where
  head : ∀ i, i < (s.blocks 0).levels ↔ (level s F i).Nonempty
  linked : ∀ i < kMaxLevel, Linked s i (level s F i)

section Lists

variable {s s' : Arena} {F : Finset ℕ} {e p i : ℕ}

/-- Every block has room for its levels. -/
theorem Sized.fits (h : Sized s F) (hi : i < kMaxLevel) (hp : p = 0 ∨ p ∈ level s F i) :
    Fits s p i := by
  unfold Fits
  split_ifs with hp0
  · exact hi
  · obtain ⟨hmem, hlt⟩ := mem_level.1 (hp.resolve_left hp0)
    have := h.room p hmem
    omega

/-- Sizes do not change under a frame. -/
theorem Sized.framed (h : Sized s F) (hf : Framed s s') : Sized s' F where
  pos := h.pos
  levels_pos a ha := by rw [hf.levels a (h.pos a ha).ne']; exact h.levels_pos a ha
  levels_lt a ha := by rw [hf.levels a (h.pos a ha).ne']; exact h.levels_lt a ha
  room a ha := by rw [hf.levels a (h.pos a ha).ne', hf.size]; exact h.room a ha

theorem level_framed (h : Sized s F) (hf : Framed s s') (i : ℕ) : level s' F i = level s F i := by
  refine filter_congr fun a ha => ?_
  rw [hf.levels a (h.pos a ha).ne']

section

variable (h : Skip s F)
include h

theorem Skip.head_lt : (s.blocks 0).levels < kMaxLevel := by
  by_contra hge
  obtain ⟨a, ha⟩ := (h.head (kMaxLevel - 1)).1 (by unfold kMaxLevel at *; omega)
  obtain ⟨hmem, hlt⟩ := mem_level.1 ha
  have := h.levels_lt a hmem
  omega

/-- No block has more levels than the head. -/
theorem Skip.levels_le_head {a : ℕ} (ha : a ∈ F) : (s.blocks a).levels ≤ (s.blocks 0).levels := by
  by_contra hlt
  have hmem := mem_level.2 ⟨ha, not_le.1 hlt⟩
  exact lt_irrefl _ ((h.head _).2 ⟨a, hmem⟩)

/-! ## Search -/

/-- The search on a level ends in front of `e`. -/
theorem seek_spec (hi : i < kMaxLevel) (fuel : ℕ) :
    ∀ p, (p = 0 ∨ p ∈ level s F i) → p < e → e - p < fuel →
      Spec (seek e i fuel p) s fun q s' => s' = s ∧ IsPrev (level s F i) e q := by
  induction fuel with
  | zero =>
    intro p _ _ hfuel
    omega
  | succ fuel ih =>
    intro p hp hpe hfuel
    have hnext := h.linked i hi p hp
    refine getNext_bind (h.toSized.fits hi hp) ?_
    cases hn : (s.blocks p).next i with
    | none =>
      rw [hn] at hnext
      exact ⟨rfl, hp, hpe, fun x hx _ => hnext x hx⟩
    | some n =>
      rw [hn] at hnext
      obtain ⟨hmem, hpn, hleast⟩ := hnext
      dsimp only
      split_ifs with hne
      · exact ih n (.inr hmem) hne (by omega)
      · refine ⟨rfl, hp, hpe, fun x hx hxe => ?_⟩
        by_contra hlt
        have := hleast x hx (not_le.1 hlt)
        omega

/-- The search on the levels below `l`, from a block of the level `l`. -/
theorem searchLevels_spec (l : ℕ) : ∀ p prev, l ≤ kMaxLevel →
    (p = 0 ∨ (p ∈ F ∧ l ≤ (s.blocks p).levels)) → p < e →
      Spec (searchLevels e l p prev) s fun prev' s' => s' = s ∧
        ∀ i, i < l → ∃ q, prev' i = some q ∧ IsPrev (level s F i) e q := by
  suffices hstrong : ∀ p prev, l ≤ kMaxLevel → (p = 0 ∨ (p ∈ F ∧ l ≤ (s.blocks p).levels)) →
      p < e → Spec (searchLevels e l p prev) s fun prev' s' => s' = s ∧
        (∀ i, i < l → ∃ q, prev' i = some q ∧ IsPrev (level s F i) e q) ∧
        ∀ i, l ≤ i → prev' i = prev i by
    intro p prev hl hp hpe
    exact (hstrong p prev hl hp hpe).mono fun _ _ h => ⟨h.1, h.2.1⟩
  induction l with
  | zero =>
    intro p prev _ _ _
    exact ⟨rfl, nofun, fun _ _ => rfl⟩
  | succ l ih =>
    intro p prev hl hp hpe
    refine (seek_spec h hl (e + 1) p ?_ hpe (by omega)).bind ?_
    · exact hp.imp_right fun hp => mem_level.2 hp
    rintro q s' ⟨hs', hq⟩
    rw [hs']
    refine setPrev_bind hl ?_
    refine (ih q _ (by omega) ?_ hq.2.1).mono ?_
    · exact hq.1.imp_right fun hq => ⟨(mem_level.1 hq).1, (mem_level.1 hq).2.le⟩
    rintro prev' s'' ⟨hs'', hfound, hrest⟩
    refine ⟨hs'', fun i hi => ?_, fun i hi => ?_⟩
    · rcases Nat.lt_succ_iff_lt_or_eq.1 hi with hi | rfl
      · exact hfound i hi
      · refine ⟨q, ?_, hq⟩
        rw [hrest i le_rfl, update_self]
    · rw [hrest i (by omega), update_of_ne (by omega)]

/-- The search finds the predecessors on all levels. -/
theorem llaSkiplistSearch_spec (he : 0 < e) (prev : Prev) :
    Spec (llaSkiplistSearch e prev) s fun r s' => s' = s ∧
      (∀ i, i < (s.blocks 0).levels → ∃ q, r.2 i = some q ∧ IsPrev (level s F i) e q) ∧
      (e ∈ F → r.1 = some e) := by
  refine getBlock_bind ?_
  refine (searchLevels_spec h _ 0 prev h.head_lt.le (.inl rfl) he).bind ?_
  rintro prev' s' ⟨hs', hfound⟩
  rw [hs']
  split_ifs with hzero
  · refine ⟨rfl, hfound, fun hmem => ?_⟩
    have h1 := h.levels_le_head hmem
    have h2 := h.levels_pos e hmem
    omega
  · obtain ⟨q, hq, hprev⟩ := hfound 0 (Nat.pos_of_ne_zero hzero)
    refine getPrev_bind hq (by decide) ?_
    refine getNext_bind (h.toSized.fits (by decide) hprev.1) ?_
    refine ⟨rfl, hfound, fun hmem => ?_⟩
    have hnext := h.linked 0 (by decide) q hprev.1
    exact (hnext.of_prev hprev).2 (mem_level.2 ⟨hmem, h.levels_pos e hmem⟩)

end

/-! ## Links -/

/-- A field that a write does not change. -/
theorem update_field {α : Type} (g : AllocList → α) {blocks : ℕ → AllocList} {b : AllocList}
    (h : g b = g (blocks p)) (q : ℕ) : g (update blocks p b q) = g (blocks q) := by
  rw [update_apply]
  split_ifs with hq
  · rw [h, hq]
  · rfl

/-- The state after a write of `levels`. -/
def withLevels (s : Arena) (p l : ℕ) : Arena :=
  { s with blocks := update s.blocks p ({ s.blocks p with levels := l }) }

section

variable (s : Arena) (p i l : ℕ) (n : Option ℕ) (q j : ℕ)

theorem withLevels_blocks : (withLevels s p l).blocks q =
    if q = p then { s.blocks p with levels := l } else s.blocks q :=
  update_apply _ _ _ _

theorem withLevels_levels : ((withLevels s p l).blocks q).levels =
    if q = p then l else (s.blocks q).levels := by
  rw [withLevels_blocks]
  split_ifs <;> rfl

theorem withLevels_next : ((withLevels s p l).blocks q).next j = (s.blocks q).next j :=
  congrFun (update_field AllocList.next (by rfl) q) j

theorem framed_withLevels : Framed s (withLevels s 0 l) where
  size := update_field AllocList.size (by rfl)
  magic := update_field AllocList.magic (by rfl)
  arena := update_field AllocList.arena (by rfl)
  levels q hq := by rw [withLevels_levels, if_neg hq]
  self := rfl
  allocationCount := rfl
  pagesize := rfl
  random := rfl
  mapped := rfl

theorem withNext_blocks :
    (withNext s p i n).blocks q = if q = p then
      { s.blocks p with next := update (s.blocks p).next i n } else s.blocks q :=
  update_apply _ _ _ _

theorem withNext_levels : ((withNext s p i n).blocks q).levels = (s.blocks q).levels :=
  update_field AllocList.levels (by rfl) q

theorem withNext_next :
    ((withNext s p i n).blocks q).next j = if q = p ∧ j = i then n else (s.blocks q).next j := by
  rw [withNext_blocks]
  by_cases hq : q = p
  · rw [if_pos hq, hq]
    dsimp only
    rw [update_apply]
    simp
  · rw [if_neg hq, if_neg fun h => hq h.1]

theorem framed_withNext : Framed s (withNext s p i n) where
  size := update_field AllocList.size (by rfl)
  magic := update_field AllocList.magic (by rfl)
  arena := update_field AllocList.arena (by rfl)
  levels q _ := withNext_levels s p i n q
  self := rfl
  allocationCount := rfl
  pagesize := rfl
  random := rfl
  mapped := rfl

end

variable {S : Finset ℕ}

/-- A write on one level leaves the links of the others. -/
theorem Linked.withNext {j : ℕ} (h : Linked s j S) (hj : j ≠ i) (n : Option ℕ) :
    Linked (withNext s p i n) j S := by
  intro q hq
  rw [withNext_next, if_neg fun h => hj h.2]
  exact h q hq

/-- An element is linked behind its predecessor. -/
theorem Linked.insert (h : Linked s i S) (hp : IsPrev S e p) (he : e ∉ S) :
    Linked (LowLevelAlloc.withNext (LowLevelAlloc.withNext s e i ((s.blocks p).next i)) p i
      (some e)) i (insert e S) := by
  intro q hq
  rw [withNext_next, withNext_next]
  by_cases hqp : q = p
  · rw [if_pos ⟨hqp, rfl⟩, hqp]
    exact hp.isNext_insert
  rw [if_neg fun h => hqp h.1]
  by_cases hqe : q = e
  · rw [if_pos ⟨hqe, rfl⟩, hqe]
    exact (h p hp.1).insert_self hp he
  · rw [if_neg fun h => hqe h.1]
    have hq' := hq.imp_right fun hq => (mem_insert.1 hq).resolve_left hqe
    exact (h q hq').insert_other hp hq' hqp

/-- An element is unlinked. -/
theorem Linked.erase (h : Linked s i S) (hp : IsPrev S e p) (he : e ∈ S) :
    Linked (LowLevelAlloc.withNext s p i ((s.blocks e).next i)) i (S.erase e) := by
  intro q hq
  rw [withNext_next]
  by_cases hqp : q = p
  · rw [if_pos ⟨hqp, rfl⟩, hqp]
    exact (h e (.inr he)).erase_prev hp
  · rw [if_neg fun h => hqp h.1]
    have hq' := hq.imp_right mem_of_mem_erase
    exact (h q hq').erase_other hp hq' hqp

/-! ## Insertion -/

/-- What a loop over the levels from `i` on does to the lists `S`, which become `T`. -/
structure Relinked (s : Arena) (i n : ℕ) (T : ℕ → Finset ℕ) (s' : Arena) : Prop where
  framed : Framed s s'
  head : (s'.blocks 0).levels = (s.blocks 0).levels
  changed : ∀ j, i ≤ j → j < i + n → Linked s' j (T j)
  others : ∀ j, j < i ∨ i + n ≤ j → ∀ S, Linked s j S → Linked s' j S

theorem Relinked.nil (s : Arena) (i : ℕ) (T : ℕ → Finset ℕ) : Relinked s i 0 T s :=
  ⟨.refl s, rfl, fun j h1 h2 => absurd h2 (by omega), fun _ _ _ h => h⟩

/-- One level, and then the others. -/
theorem Relinked.cons {n : ℕ} {T : ℕ → Finset ℕ} {s1 : Arena} (h1 : Relinked s i 1 T s1)
    (h : Relinked s1 (i + 1) n T s') : Relinked s i (n + 1) T s' where
  framed := h1.framed.trans h.framed
  head := h.head.trans h1.head
  changed j hj hj' := by
    rcases hj.eq_or_lt with rfl | hj
    · exact h.others i (.inl (by omega)) _ (h1.changed i le_rfl (by omega))
    · exact h.changed j hj (by omega)
  others j hj S hS := h.others j (by omega) S (h1.others j (by omega) S hS)

/-- What a loop needs to relink the levels from `i` on : the last blocks before `e`. -/
def Found (P : Finset ℕ → Prop) (S : ℕ → Finset ℕ) (prev : Prev) (e n i : ℕ) (s : Arena) : Prop :=
  ∀ j, i ≤ j → j < i + n → Fits s e j ∧ P (S j) ∧ Linked s j (S j) ∧
    ∃ q, prev j = some q ∧ IsPrev (S j) e q ∧ Fits s q j

theorem Found.relinked {P : Finset ℕ → Prop} {S T : ℕ → Finset ℕ} {prev : Prev} {n : ℕ}
    (h : Found P S prev e (n + 1) i s) (h1 : Relinked s i 1 T s') :
    Found P S prev e n (i + 1) s' := by
  intro j hj hj'
  obtain ⟨hfits, hP, hlinked, q, hq, hprev, hfits'⟩ := h j (by omega) (by omega)
  exact ⟨h1.framed.fits.2 hfits, hP, h1.others j (by omega) _ hlinked, q, hq, hprev,
    h1.framed.fits.2 hfits'⟩

/-- The element is linked on every level it has. -/
theorem link_spec {S : ℕ → Finset ℕ} {prev : Prev} (n : ℕ) : ∀ s i,
    i + n ≤ kMaxLevel → Found (e ∉ ·) S prev e n i s →
    Spec (link e prev n i) s fun _ s' => Relinked s i n (fun j => insert e (S j)) s' := by
  induction n with
  | zero => exact fun s i _ _ => Relinked.nil s i _
  | succ n ih =>
    intro s i hle h
    obtain ⟨hfits, hnotMem, hlinked, q, hq, hprev, hfits'⟩ := h i le_rfl (by omega)
    refine getPrev_bind hq (by omega) (getNext_bind hfits' (setNext_bind hfits ?_))
    have hframed := framed_withNext s e i ((s.blocks q).next i)
    refine setNext_bind (hframed.fits.2 hfits') ?_
    have h1 : Relinked s i 1 (fun j => insert e (S j))
        (withNext (withNext s e i ((s.blocks q).next i)) q i (some e)) := by
      refine ⟨hframed.trans (framed_withNext _ q i (some e)), ?_, fun j hj hj' => ?_,
        fun j hj S hS => (hS.withNext (by omega) _).withNext (by omega) _⟩
      · rw [withNext_levels, withNext_levels]
      · obtain rfl : i = j := by omega
        exact hlinked.insert hprev hnotMem
    exact (ih _ (i + 1) (by omega) (h.relinked h1)).mono fun _ s' => h1.cons

/-- The head gets `n` more levels, where it is the predecessor. -/
theorem extend_spec (n : ℕ) : ∀ s prev, (s.blocks 0).levels + n ≤ kMaxLevel →
    Spec (extend n prev) s fun prev' s' => Framed s s' ∧
      (s'.blocks 0).levels = (s.blocks 0).levels + n ∧
      (∀ q j, (s'.blocks q).next j = (s.blocks q).next j) ∧
      ∀ i, prev' i = if (s.blocks 0).levels ≤ i ∧ i < (s.blocks 0).levels + n then some 0
        else prev i := by
  induction n with
  | zero =>
    intro s prev _
    refine ⟨.refl s, rfl, fun _ _ => rfl, fun i => ?_⟩
    rw [if_neg (by omega)]
  | succ n ih =>
    intro s prev hle
    refine getBlock_bind (setPrev_bind (by omega) (setBlock_bind ?_))
    have hframed := framed_withLevels s ((s.blocks 0).levels + 1)
    have hhead := withLevels_levels s 0 ((s.blocks 0).levels + 1) 0
    rw [if_pos rfl] at hhead
    change Spec (extend n _) (withLevels s 0 ((s.blocks 0).levels + 1)) _
    refine (ih _ _ (by omega)).mono ?_
    rintro prev' s' ⟨hframed', hhead', hnext, hprev⟩
    refine ⟨hframed.trans hframed', by omega, fun q j => ?_, fun i => ?_⟩
    · rw [hnext, withLevels_next]
    · rw [hprev, update_apply]
      split_ifs <;> first | rfl | omega

/-- The block is inserted. -/
theorem llaSkiplistInsert_spec (h : Skip s F) (he : 0 < e) (hnotMem : e ∉ F)
    (hpos : 1 ≤ (s.blocks e).levels) (hlt : (s.blocks e).levels < kMaxLevel)
    (hroom : nextOffset + 8 * (s.blocks e).levels ≤ (s.blocks e).size) (prev : Prev) :
    Spec (llaSkiplistInsert e prev) s fun prev' s' => Framed s s' ∧ Skip s' (insert e F) ∧
      ∃ q, prev' 0 = some q ∧ IsPrev F e q := by
  refine (llaSkiplistSearch_spec h he prev).bind ?_
  rintro ⟨found, prev1⟩ s1 ⟨hs1, hfound, -⟩
  rw [hs1]
  refine getBlock_bind (getBlock_bind ?_)
  have hhead := h.head_lt
  refine (extend_spec _ s prev1 (by omega)).bind ?_
  rintro prev2 s2 ⟨hframed, hhead2, hnext, hprev⟩
  -- the last blocks before `e`, also on the new levels of the head
  have hfound2 : ∀ j < (s.blocks e).levels, ∃ q, prev2 j = some q ∧ IsPrev (level s F j) e q := by
    intro j hj
    rw [hprev]
    by_cases hj' : j < (s.blocks 0).levels
    · rw [if_neg (by omega)]
      exact hfound j hj'
    · rw [if_pos (by omega)]
      refine ⟨0, rfl, .inl rfl, he, fun x hx _ => ?_⟩
      exact absurd ((h.head j).2 ⟨x, hx⟩) hj'
  have hlinked2 : ∀ j < kMaxLevel, Linked s2 j (level s F j) := by
    intro j hj q hq
    rw [hnext]
    exact h.linked j hj q hq
  refine (link_spec (S := fun j => level s F j) (s.blocks e).levels s2 0 (by omega) ?_).bind ?_
  · intro j _ hj
    obtain ⟨q, hq, hisPrev⟩ := hfound2 j (by omega)
    refine ⟨hframed.fits.2 ?_, fun hmem => hnotMem (mem_level.1 hmem).1, hlinked2 j (by omega), q,
      hq, hisPrev, hframed.fits.2 (h.toSized.fits (by omega) hisPrev.1)⟩
    unfold Fits
    rw [if_neg he.ne']
    omega
  intro _ s3 hrelinked
  have hframed3 := hframed.trans hrelinked.framed
  have hsized : Sized s (insert e F) := by
    refine ⟨fun a ha => ?_, fun a ha => ?_, fun a ha => ?_, fun a ha => ?_⟩
    all_goals rcases mem_insert.1 ha with rfl | ha
    · exact he
    · exact h.pos a ha
    · exact hpos
    · exact h.levels_pos a ha
    · exact hlt
    · exact h.levels_lt a ha
    · exact hroom
    · exact h.room a ha
  have hlevel : ∀ i, level s (insert e F) i =
      if i < (s.blocks e).levels then insert e (level s F i) else level s F i := fun i =>
    filter_insert _ _ _
  refine ⟨hframed3, ⟨hsized.framed hframed3, fun i => ?_, fun i hi => ?_⟩, ?_⟩
  · rw [level_framed hsized hframed3, hlevel, hrelinked.head]
    split_ifs with hi
    · exact iff_of_true (by omega) (insert_nonempty _ _)
    · rw [← h.head]
      omega
  · rw [level_framed hsized hframed3, hlevel]
    split_ifs with hi'
    · exact hrelinked.changed i (Nat.zero_le _) (by omega)
    · exact hrelinked.others i (.inr (by omega)) _ (hlinked2 i hi)
  · obtain ⟨q, hq, hisPrev⟩ := hfound2 0 (by omega)
    have hall : level s F 0 = F := filter_true_of_mem fun a ha => h.levels_pos a ha
    rw [hall] at hisPrev
    exact ⟨q, hq, hisPrev⟩

/-! ## Deletion -/

/-- The element is unlinked from every level it has. -/
theorem unlink_spec {S : ℕ → Finset ℕ} {prev : Prev} (n : ℕ) : ∀ s i,
    i + n ≤ kMaxLevel → Found (e ∈ ·) S prev e n i s →
    Spec (unlink e prev n i) s fun _ s' => Relinked s i n (fun j => (S j).erase e) s' := by
  induction n with
  | zero => exact fun s i _ _ => Relinked.nil s i _
  | succ n ih =>
    intro s i hle h
    obtain ⟨hfits, hmem, hlinked, q, hq, hprev, hfits'⟩ := h i le_rfl (by omega)
    refine getPrev_bind hq (by omega) (getNext_bind hfits' ?_)
    rw [if_pos (((hlinked q hprev.1).of_prev hprev).2 hmem)]
    refine getNext_bind hfits (setNext_bind hfits' ?_)
    have h1 : Relinked s i 1 (fun j => (S j).erase e)
        (withNext s q i ((s.blocks e).next i)) := by
      refine ⟨framed_withNext s q i _, withNext_levels .., fun j hj hj' => ?_,
        fun j hj S hS => hS.withNext (by omega) _⟩
      obtain rfl : i = j := by omega
      exact hlinked.erase hprev hmem
    exact (ih _ (i + 1) (by omega) (h.relinked h1)).mono fun _ s' => h1.cons

/-- The head loses its empty levels. -/
theorem shrink_spec (l : ℕ) : ∀ s, l < kMaxLevel → (s.blocks 0).levels = l → Sized s F →
    (∀ i, l ≤ i → level s F i = ∅) → (∀ i < kMaxLevel, Linked s i (level s F i)) →
    Spec (shrink l) s fun _ s' => Framed s s' ∧ Skip s' F := by
  induction l with
  | zero =>
    intro s _ hhead hsized hempty hlinked
    refine ⟨.refl s, hsized, fun i => ?_, hlinked⟩
    rw [hhead, hempty i (Nat.zero_le i)]
    simp
  | succ l ih =>
    intro s hl hhead hsized hempty hlinked
    have hnext := hlinked l (by omega) 0 (.inl rfl)
    refine getNext_bind (hsized.fits (by omega) (.inl rfl)) ?_
    cases hn : (s.blocks 0).next l with
    | none =>
      rw [hn] at hnext
      refine getBlock_bind (setBlock_bind ?_)
      have hframed := framed_withLevels s l
      have hlevel := level_framed hsized hframed
      refine (ih _ (by omega) ?_ (hsized.framed hframed) (fun i hi => ?_) fun i hi => ?_).mono ?_
      · rw [withLevels_levels, if_pos rfl]
      · rw [hlevel]
        rcases hi.eq_or_lt with rfl | hi
        · refine eq_empty_of_forall_notMem fun x hx => ?_
          have h1 := hnext x hx
          have h2 := hsized.pos x (mem_level.1 hx).1
          omega
        · exact hempty i hi
      · rw [hlevel]
        intro q hq
        rw [withLevels_next]
        exact hlinked i hi q hq
      · exact fun _ s' h => ⟨hframed.trans h.1, h.2⟩
    | some n =>
      rw [hn] at hnext
      refine ⟨.refl s, hsized, fun i => ?_, hlinked⟩
      constructor
      · exact fun hi => ⟨n, level_anti s F (by omega) hnext.1⟩
      · rintro ⟨x, hx⟩
        by_contra hi
        rw [hempty i (by omega)] at hx
        exact absurd hx (notMem_empty x)

/-- The block is deleted. -/
theorem llaSkiplistDelete_spec (h : Skip s F) (he : e ∈ F) (prev : Prev) :
    Spec (llaSkiplistDelete e prev) s fun _ s' => Framed s s' ∧ Skip s' (F.erase e) := by
  have hpos := h.pos e he
  have hlevels := h.levels_le_head he
  have hhead := h.head_lt
  refine (llaSkiplistSearch_spec h hpos prev).bind ?_
  rintro ⟨found, prev1⟩ s1 ⟨hs1, hfound, hmem⟩
  rw [hs1]
  refine check_bind (hmem he) (getBlock_bind ?_)
  refine (unlink_spec (S := fun j => level s F j) (s.blocks e).levels s 0 (by omega) ?_).bind ?_
  · intro j _ hj
    obtain ⟨q, hq, hisPrev⟩ := hfound j (by omega)
    have hmem : e ∈ level s F j := mem_level.2 ⟨he, by omega⟩
    exact ⟨h.toSized.fits (by omega) (.inr hmem), hmem, h.linked j (by omega), q, hq, hisPrev,
      h.toSized.fits (by omega) hisPrev.1⟩
  intro _ s2 hrelinked
  have hsized : Sized s (F.erase e) :=
    ⟨fun a ha => h.pos a (mem_of_mem_erase ha), fun a ha => h.levels_pos a (mem_of_mem_erase ha),
      fun a ha => h.levels_lt a (mem_of_mem_erase ha), fun a ha => h.room a (mem_of_mem_erase ha)⟩
  have hlevel : ∀ i, level s2 (F.erase e) i = (level s F i).erase e := by
    intro i
    rw [level_framed hsized hrelinked.framed]
    exact filter_erase _ _ _
  refine getBlock_bind ?_
  have hhead2 := hrelinked.head
  refine (shrink_spec _ s2 (by omega) rfl (hsized.framed hrelinked.framed)
    (fun i hi => ?_) fun i hi => ?_).bind fun _ s3 h3 => ?_
  · rw [hlevel]
    refine eq_empty_of_forall_notMem fun x hx => ?_
    have := (h.head i).2 ⟨x, mem_of_mem_erase hx⟩
    omega
  · rw [hlevel]
    by_cases hi' : i < (s.blocks e).levels
    · exact hrelinked.changed i (Nat.zero_le _) (by omega)
    · have hnotMem : e ∉ level s F i := fun hmem => hi' (mem_level.1 hmem).2
      rw [erase_eq_of_notMem hnotMem]
      exact hrelinked.others i (.inr (by omega)) _ (h.linked i hi)
  · exact ⟨hrelinked.framed.trans h3.1, h3.2⟩

end Lists

end Abseil.LowLevelAlloc
