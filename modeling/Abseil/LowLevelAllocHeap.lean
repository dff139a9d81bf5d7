import Abseil.LowLevelAllocLevels
import Abseil.Tiling

/-!
# The heap of the low level allocator

The mapped pages are cut into free and allocated blocks (`Core`). `Coalesce` merges a free block
with the one behind it (`coalesce_spec`), so that after `AddToFreelist` no free block begins where
another one ends (`addToFreelist_spec`).
-/

namespace Abseil.LowLevelAlloc

open Function Finset SkipList

/-! ## The invariant -/

/-- The mapped addresses. -/
def Mapped (s : Arena) : Set ℕ := {x | ∃ r ∈ s.mapped, r.1 ≤ x ∧ x < r.1 + r.2}

theorem mapped_congr {s s' : Arena} (h : s'.mapped = s.mapped) : Mapped s' = Mapped s := by
  unfold Mapped
  rw [h]

/-- The sizes of the blocks. -/
def sizes (s : Arena) (a : ℕ) : ℕ := (s.blocks a).size

/-- A block of the arena. -/
structure Block (s : Arena) (a : ℕ) : Prop where
  pos : 0 < a
  aligned : 32 ∣ a
  size_aligned : 32 ∣ sizes s a
  large : minSize ≤ sizes s a
  lt : a + sizes s a < 2 ^ 64
  arena : (s.blocks a).arena = some s.self

/-- The free blocks are `F`, the others are `A`. -/
structure Core (s : Arena) (F A : Finset ℕ) : Prop where
  skip : Skip s F
  disjoint : ∀ a ∈ F, a ∉ A
  tiles : Tiles (F ∪ A) (sizes s) (Mapped s)
  block : ∀ a ∈ F ∪ A, Block s a
  magic : ∀ a ∈ F, (s.blocks a).magic = LowLevelAlloc.magic kMagicUnallocated a
  minLevels_le : ∀ a ∈ F, minLevels (sizes s a) ≤ (s.blocks a).levels
  head : sizes s 0 = 0

/-- No free block begins where another one ends. -/
def Gaps (s : Arena) (F : Finset ℕ) : Prop := ∀ a ∈ F, a + sizes s a ∉ F

/-- What the free list does not change. -/
structure Kept (A : Finset ℕ) (s s' : Arena) : Prop where
  self : s'.self = s.self
  pagesize : s'.pagesize = s.pagesize
  mapped : s'.mapped = s.mapped
  allocationCount : s'.allocationCount = s.allocationCount
  size : ∀ a ∈ A, sizes s' a = sizes s a
  magic : ∀ a ∈ A, (s'.blocks a).magic = (s.blocks a).magic
  arena : ∀ a ∈ A, (s'.blocks a).arena = (s.blocks a).arena

variable {s'' : Arena} {n l : ℕ}

section Heap

variable {s s' : Arena} {F A : Finset ℕ} {a f : ℕ}

theorem Kept.refl (A : Finset ℕ) (s : Arena) : Kept A s s :=
  ⟨rfl, rfl, rfl, rfl, fun _ _ => rfl, fun _ _ => rfl, fun _ _ => rfl⟩

/-- What is kept over two steps. -/
theorem Kept.trans (h : Kept A s s') (h' : Kept A s' s'') : Kept A s s'' where
  self := h'.self.trans h.self
  pagesize := h'.pagesize.trans h.pagesize
  mapped := h'.mapped.trans h.mapped
  allocationCount := h'.allocationCount.trans h.allocationCount
  size a ha := (h'.size a ha).trans (h.size a ha)
  magic a ha := (h'.magic a ha).trans (h.magic a ha)
  arena a ha := (h'.arena a ha).trans (h.arena a ha)

/-- The list needs only links, levels and room. -/
theorem Skip.congr (h : Skip s F) (hlevels : ∀ q, q = 0 ∨ q ∈ F →
      (s'.blocks q).levels = (s.blocks q).levels)
    (hnext : ∀ q, q = 0 ∨ q ∈ F → (s'.blocks q).next = (s.blocks q).next)
    (hsize : ∀ q ∈ F, (s.blocks q).size ≤ (s'.blocks q).size) : Skip s' F := by
  have hlevel : ∀ i, level s' F i = level s F i := fun i =>
    filter_congr fun a ha => by rw [hlevels a (.inr ha)]
  refine ⟨⟨h.pos, fun a ha => ?_, fun a ha => ?_, fun a ha => ?_⟩, fun i => ?_, fun i hi q hq => ?_⟩
  · rw [hlevels a (.inr ha)]
    exact h.levels_pos a ha
  · rw [hlevels a (.inr ha)]
    exact h.levels_lt a ha
  · rw [hlevels a (.inr ha)]
    exact (h.room a ha).trans (hsize a ha)
  · rw [hlevel, hlevels 0 (.inl rfl)]
    exact h.head i
  · rw [hlevel] at hq ⊢
    rw [hnext q (hq.imp_right fun hq => (mem_level.1 hq).1)]
    exact h.linked i hi q hq

theorem Skip.of_blocks (h : Skip s F) (hb : ∀ q, q = 0 ∨ q ∈ F → s'.blocks q = s.blocks q) :
    Skip s' F :=
  h.congr (fun q hq => by rw [hb q hq]) (fun q hq => by rw [hb q hq])
    fun q hq => by rw [hb q (.inr hq)]

theorem Core.mem_pos (h : Core s F A) (ha : a ∈ F) : 0 < a := h.skip.pos a ha

theorem Core.blockF (h : Core s F A) (ha : a ∈ F) : Block s a :=
  h.block a (mem_union_left _ ha)

/-- All free blocks are on the lowest level. -/
theorem level_zero (h : Skip s F) : level s F 0 = F :=
  filter_true_of_mem fun a ha => h.levels_pos a ha

/-- The first link of a free block. -/
theorem Core.next_zero (h : Core s F A) {p : ℕ} (hp : p = 0 ∨ p ∈ F) :
    IsNext F p ((s.blocks p).next 0) := by
  have hlinked := h.skip.linked 0 (by decide) p
  rw [level_zero h.skip] at hlinked
  exact hlinked hp

theorem Core.fits_zero (h : Core s F A) {p : ℕ} (hp : p = 0 ∨ p ∈ F) : Fits s p 0 := by
  refine h.skip.toSized.fits (by decide) ?_
  rwa [level_zero h.skip]

theorem Block.of_size (hpos : 0 < a) (haligned : 32 ∣ a) (hsize : sizes s a = n)
    (hdvd : 32 ∣ n) (hlarge : minSize ≤ n) (hlt : a + n < 2 ^ 64)
    (harena : (s.blocks a).arena = some s.self) : Block s a := by
  subst hsize
  exact ⟨hpos, haligned, hdvd, hlarge, hlt, harena⟩

/-- A block is one after other changes. -/
theorem Block.congr (h : Block s a) (hsize : sizes s' a = sizes s a)
    (harena : (s'.blocks a).arena = (s.blocks a).arena) (hself : s'.self = s.self) : Block s' a :=
  .of_size h.pos h.aligned hsize h.size_aligned h.large h.lt (by rw [harena, hself, h.arena])

/-- A block that is not on the list gets the levels it was given, and is put on it. -/
theorem insert_drawn (r : UInt32) (h : Skip s F) (ha : a ∉ F) (hpos : 0 < a)
    (hl : Levels (sizes s a) l) (prev : Prev) :
    Spec (llaSkiplistInsert a prev) (withLevels { s with random := r } a l) fun prev' s' =>
      Framed (withLevels { s with random := r } a l) s' ∧ Skip s' (insert a F) ∧
      ∃ q, prev' 0 = some q ∧ IsPrev F a q := by
  have hlevels : ((withLevels { s with random := r } a l).blocks a).levels = l := by
    rw [withLevels_levels, if_pos rfl]
  have hsize : ((withLevels { s with random := r } a l).blocks a).size = sizes s a := by
    rw [withLevels_blocks, if_pos rfl]
    rfl
  have hskip : Skip (withLevels { s with random := r } a l) F := by
    refine h.of_blocks fun q hq => ?_
    rw [withLevels_blocks, if_neg]
    rintro rfl
    exact hq.elim hpos.ne' ha
  refine llaSkiplistInsert_spec hskip hpos ha ?_ ?_ ?_ prev
  · rw [hlevels]
    exact hl.pos
  · rw [hlevels]
    exact hl.lt
  · rw [hlevels, hsize]
    exact hl.room

/-! ## Coalesce -/

/-- The headers after `n` was merged into `a`. -/
structure Merged (s : Arena) (a n : ℕ) (s' : Arena) : Prop where
  size : ∀ q, sizes s' q = if q = a then sizes s a + sizes s n else sizes s q
  magic : ∀ q, q ≠ n → (s'.blocks q).magic = (s.blocks q).magic
  arena : ∀ q, q ≠ n → (s'.blocks q).arena = (s.blocks q).arena
  levels : ∀ q, q ≠ 0 → q ≠ a → (s'.blocks q).levels = (s.blocks q).levels
  self : s'.self = s.self
  pagesize : s'.pagesize = s.pagesize
  mapped : s'.mapped = s.mapped
  allocationCount : s'.allocationCount = s.allocationCount

/-- Levels do not matter to the merge. -/
theorem Merged.framed (h : Merged s a n s') (hf : Framed s' s'') :
    Merged s a n s'' where
  size q := (hf.size q).trans (h.size q)
  magic q hq := (hf.magic q).trans (h.magic q hq)
  arena q hq := (hf.arena q).trans (h.arena q hq)
  levels q hq hqa := (hf.levels q hq).trans (h.levels q hq hqa)
  self := hf.self.trans h.self
  pagesize := hf.pagesize.trans h.pagesize
  mapped := hf.mapped.trans h.mapped
  allocationCount := hf.allocationCount.trans h.allocationCount

/-- The merged block is put back with its levels `l`. -/
theorem Core.merged (h : Core s F A) (ha : a ∈ F) (hn : n ∈ F)
    (hnext : a + sizes s a = n) (hm : Merged s a n s') (hskip : Skip s' (F.erase n))
    (hl : (s'.blocks a).levels = l) (hlevels : Levels (sizes s a + sizes s n) l) :
    Core s' (F.erase n) A := by
  have hA : ∀ {q}, q ∈ A → q ≠ n := fun hq hqn => h.disjoint n hn (hqn ▸ hq)
  have hunion : F.erase n ∪ A = (F ∪ A).erase n := by
    rw [erase_union_distrib, erase_eq_of_notMem fun hq => hA hq rfl]
  have hbn := h.blockF hn
  have hba := h.blockF ha
  have hpos := h.mem_pos ha
  have hlarge := hba.large
  refine ⟨hskip, fun q hq => h.disjoint q (mem_of_mem_erase hq), ?_, fun q hq => ?_,
    fun q hq => ?_, fun q hq => ?_, ?_⟩
  · rw [hunion, mapped_congr hm.mapped]
    refine h.tiles.merge (mem_union_left _ ha) (mem_union_left _ hn) hnext ?_ ?_
    · rw [hm.size, if_pos rfl]
    · intro b _ hb
      rw [hm.size, if_neg hb]
  · rw [hunion] at hq
    have hqn := ne_of_mem_erase hq
    have hb := h.block q (mem_of_mem_erase hq)
    by_cases hqa : q = a
    · refine .of_size hb.pos hb.aligned ((hm.size q).trans (if_pos hqa))
        (dvd_add hba.size_aligned hbn.size_aligned) (hlarge.trans (Nat.le_add_right _ _)) ?_
        ((hm.arena q hqn).trans (hm.self ▸ hb.arena))
      rw [hqa, ← add_assoc, hnext]
      exact hbn.lt
    · exact hb.congr ((hm.size q).trans (if_neg hqa)) (hm.arena q hqn) hm.self
  · rw [hm.magic q (ne_of_mem_erase hq)]
    exact h.magic q (mem_of_mem_erase hq)
  · by_cases hqa : q = a
    · rw [hm.size, if_pos hqa, hqa, hl]
      exact hlevels.minLevels_le
    · have hqF := mem_of_mem_erase hq
      rw [hm.size, if_neg hqa, hm.levels q (h.mem_pos hqF).ne' hqa]
      exact h.minLevels_le q hqF
  · rw [hm.size, if_neg hpos.ne]
    exact h.head

/-- The state after the writes before the two deletions. -/
def withMerge (s : Arena) (a n : ℕ) : Arena :=
  { s with
    blocks := update (update s.blocks a
      ({ s.blocks a with size := ((s.blocks a).size + (s.blocks n).size) % 2 ^ 64 })) n
      ({ s.blocks n with magic := 0, arena := none }) }

/-- Two blocks become one. -/
theorem merged_writes (hlt : sizes s a + sizes s n < 2 ^ 64) (han : a ≠ n) :
    Merged s a n (withMerge s a n) := by
  have hmod : ((s.blocks a).size + (s.blocks n).size) % 2 ^ 64 =
      (s.blocks a).size + (s.blocks n).size := Nat.mod_eq_of_lt hlt
  refine ⟨fun q => ?_, fun q hq => ?_, fun q hq => ?_, fun q _ hq => ?_, rfl, rfl, rfl, rfl⟩
  · unfold sizes withMerge
    dsimp only
    rw [update_apply, update_apply, hmod]
    split_ifs with h1 h2 h2
    · exact absurd (h2.symm.trans h1) han
    · rw [h1]
    · rfl
    · rfl
  · simp only [withMerge, update_of_ne hq]
    exact update_field AllocList.magic (by rfl) q
  · simp only [withMerge, update_of_ne hq]
    exact update_field AllocList.arena (by rfl) q
  · simp only [withMerge, update_apply]
    split_ifs with h
    · rw [h]
    · rfl

/-- A free block after `Coalesce`. -/
structure Coalesced (s : Arena) (F A : Finset ℕ) (a : ℕ) (F' : Finset ℕ) (s' : Arena) : Prop where
  core : Core s' F' A
  subset : F' ⊆ F
  before : ∀ x ∈ F, x ≤ a → x ∈ F'
  size : ∀ x ∈ F', x ≠ a → sizes s' x = sizes s x
  size_le : sizes s a ≤ sizes s' a
  absorbed : ∀ x ∈ F, x ∉ F' → a ≤ x ∧ x + sizes s x ≤ a + sizes s' a
  gap : a + sizes s' a ∉ F'
  kept : Kept A s s'

/-- There is nothing to merge. -/
theorem Coalesced.refl (h : Core s F A) (hgap : a + sizes s a ∉ F) : Coalesced s F A a F s :=
  ⟨h, subset_rfl, fun _ hx _ => hx, fun _ _ _ => rfl, le_rfl, fun _ hx hx' => absurd hx hx', hgap,
    .refl A s⟩

/-- Two neighbours are taken off the list, and the merged block is put on it. -/
theorem coalesce_merge (h : Core s F A) (ha : a ∈ F) (hn : n ∈ F)
    (hnext : a + sizes s a = n) : Spec (do
      setBlock a { s.blocks a with size := ((s.blocks a).size + (s.blocks n).size) % 2 ^ 64 }
      setBlock n { s.blocks n with magic := 0, arena := none }
      let prev ← llaSkiplistDelete n fun _ => none
      let prev ← llaSkiplistDelete a prev
      let block ← getBlock a
      let levels ← llaSkiplistLevels block.size minSize true
      let block ← getBlock a
      setBlock a { block with levels := levels }
      let _ ← llaSkiplistInsert a prev
      pure ()) s fun _ s' => Core s' (F.erase n) A ∧ Merged s a n s' := by
  have hba := h.blockF ha
  have hbn := h.blockF hn
  have hlarge : 64 ≤ sizes s a := hba.large
  have hlt : sizes s a + sizes s n < 2 ^ 64 := by
    have := hbn.lt
    omega
  have han : a ≠ n := by omega
  refine setBlock_bind (setBlock_bind ?_)
  have hm2 := merged_writes hlt han
  have hskip2 : Skip (withMerge s a n) F := by
    refine h.skip.congr (fun q _ => ?_) (fun q _ => ?_) fun q _ => ?_
    · simp only [withMerge, update_apply]
      split_ifs with h1 h2
      · rw [h1]
      · rw [h2]
      · rfl
    · simp only [withMerge, update_apply]
      split_ifs with h1 h2
      · rw [h1]
      · rw [h2]
      · rfl
    · change sizes s q ≤ sizes _ q
      rw [hm2.size]
      split_ifs with hq
      · rw [hq]
        exact Nat.le_add_right _ _
      · exact le_rfl
  change Spec _ (withMerge s a n) _
  generalize withMerge s a n = s2 at hm2 hskip2 ⊢
  refine (llaSkiplistDelete_spec hskip2 hn _).bind ?_
  rintro prev s3 ⟨hf3, hskip3⟩
  have ha3 := mem_erase.2 ⟨han, ha⟩
  refine (llaSkiplistDelete_spec hskip3 ha3 _).bind ?_
  rintro prev' s4 ⟨hf4, hskip4⟩
  have hm4 := (hm2.framed hf3).framed hf4
  have hsize4 : (s4.blocks a).size = sizes s a + sizes s n := by
    change sizes s4 a = _
    rw [hm4.size, if_pos rfl]
  refine getBlock_bind ?_
  rw [hsize4]
  refine (llaSkiplistLevels_drawn (hba.large.trans (Nat.le_add_right _ _)) hlt s4).bind ?_
  rintro l _ ⟨hl, r, rfl⟩
  refine getBlock_bind (setBlock_bind ?_)
  have hpos := h.mem_pos ha
  -- the levels of a block that is not on the list
  have hm5 : Merged s a n (withLevels { s4 with random := r } a l) := by
    refine ⟨fun q => ?_, fun q hq => ?_, fun q hq => ?_, fun q hq hqa => ?_, hm4.self, hm4.pagesize,
      hm4.mapped, hm4.allocationCount⟩
    · rw [← hm4.size]
      exact update_field AllocList.size (by rfl) q
    · rw [← hm4.magic q hq]
      exact update_field AllocList.magic (by rfl) q
    · rw [← hm4.arena q hq]
      exact update_field AllocList.arena (by rfl) q
    · rw [withLevels_levels, if_neg hqa]
      exact hm4.levels q hq hqa
  refine (insert_drawn r hskip4 (notMem_erase a _) hpos
    (by rw [sizes, hsize4]; exact hl) prev').bind ?_
  rintro prev'' s6 ⟨hf6, hskip6, -⟩
  rw [insert_erase ha3] at hskip6
  have hm6 := hm5.framed hf6
  refine ⟨h.merged ha hn hnext hm6 hskip6 ?_ hl, hm6⟩
  rw [hf6.levels a hpos.ne', withLevels_levels, if_pos rfl]

/-- The block is merged with the next one if they touch. -/
theorem coalesce_spec (h : Core s F A) (ha : a ∈ F)
    (hends : ∀ x ∈ F, x ≠ a → x + sizes s x ∈ F → x + sizes s x = a) :
    Spec (coalesce a) s fun _ s' => ∃ F', Coalesced s F A a F' s' := by
  have hba := h.blockF ha
  have hlarge : 64 ≤ sizes s a := hba.large
  have hnext := h.next_zero (.inr ha)
  refine getNext_bind (h.fits_zero (.inr ha)) ?_
  cases hn : (s.blocks a).next 0 with
  | none =>
    rw [hn] at hnext
    refine ⟨F, .refl h fun hmem => ?_⟩
    have := hnext _ hmem
    omega
  | some n =>
    rw [hn] at hnext
    obtain ⟨hnF, han, hleast⟩ := hnext
    refine get_bind ?_
    split_ifs with hadj
    · refine check_bind hba.arena ?_
      refine (coalesce_merge h ha hnF hadj).mono ?_
      rintro _ s' ⟨hcore, hm⟩
      have hsize : sizes s' a = sizes s a + sizes s n := by rw [hm.size, if_pos rfl]
      have hend : a + sizes s' a = n + sizes s n := by
        rw [hsize, ← add_assoc]
        exact congrArg (· + sizes s n) hadj
      refine ⟨F.erase n, hcore, erase_subset _ _, fun x hx hle => ?_, fun x hx hne => ?_, ?_,
        fun x hx hx' => ?_, fun hmem => ?_, hm.self, hm.pagesize, hm.mapped, hm.allocationCount,
        fun x hx => ?_, fun x hx => ?_, fun x hx => ?_⟩
      · exact mem_erase.2 ⟨by omega, hx⟩
      · rw [hm.size, if_neg hne]
      · rw [hsize]
        exact Nat.le_add_right _ _
      · have hxn : x = n := by
          by_contra hne
          exact hx' (mem_erase.2 ⟨hne, hx⟩)
        rw [hxn, hend]
        exact ⟨han.le, le_rfl⟩
      · -- the block behind `n` is not adjacent to it
        rw [hend] at hmem
        have := hends n hnF han.ne' (mem_of_mem_erase hmem)
        omega
      · rw [hm.size, if_neg]
        rintro rfl
        exact h.disjoint x ha hx
      · refine hm.magic x ?_
        rintro rfl
        exact h.disjoint x hnF hx
      · refine hm.arena x ?_
        rintro rfl
        exact h.disjoint x hnF hx
    · refine ⟨F, .refl h fun hmem => ?_⟩
      have h1 := hleast _ hmem (by omega)
      have h2 := h.tiles.apart a (mem_union_left _ ha) n (mem_union_left _ hnF) han
      exact hadj (le_antisymm h2 h1)

/-- The head is merged with nothing. -/
theorem coalesce_head (h : Core s F A) : Spec (coalesce 0) s fun _ s' => s' = s := by
  have hnext := h.next_zero (.inl rfl)
  refine getNext_bind (h.fits_zero (.inl rfl)) ?_
  cases hn : (s.blocks 0).next 0 with
  | none => exact rfl
  | some n =>
    rw [hn] at hnext
    have hsize : (s.blocks 0).size = 0 := h.head
    have hne : ¬ 0 + (s.blocks 0).size = n := by
      have := hnext.2.1
      omega
    refine get_bind ?_
    rw [if_neg hne]
    exact rfl

/-! ## AddToFreelist -/

/-- The state after a write of `magic`. -/
def withMagic (s : Arena) (p m : ℕ) : Arena :=
  { s with blocks := update s.blocks p ({ s.blocks p with magic := m }) }

section

variable (s : Arena) (p m q : ℕ)

theorem withMagic_blocks : (withMagic s p m).blocks q =
    if q = p then { s.blocks p with magic := m } else s.blocks q :=
  update_apply _ _ _ _

theorem sizes_withMagic : sizes (withMagic s p m) q = sizes s q :=
  update_field AllocList.size (by rfl) q

theorem arena_withMagic : ((withMagic s p m).blocks q).arena = (s.blocks q).arena :=
  update_field AllocList.arena (by rfl) q

theorem levels_withMagic : ((withMagic s p m).blocks q).levels = (s.blocks q).levels :=
  update_field AllocList.levels (by rfl) q

theorem next_withMagic : ((withMagic s p m).blocks q).next = (s.blocks q).next :=
  update_field AllocList.next (by rfl) q

end

/-- The free list does not depend on the magic numbers. -/
theorem Skip.withMagic (h : Skip s F) (p m : ℕ) : Skip (withMagic s p m) F :=
  h.congr (fun q _ => levels_withMagic s p m q) (fun q _ => next_withMagic s p m q)
    fun q _ => (sizes_withMagic s p m q).ge

/-- A block that is on the list and is marked as free. -/
theorem Core.freed {r : UInt32} (h : Core s F (insert f A)) (hf : f ∉ A)
    (hl : Levels (sizes s f) l) (hframed : Framed (withLevels { s with random := r } f l) s')
    (hskip : Skip s' (insert f F))
    (hs'' : withMagic s' f (LowLevelAlloc.magic kMagicUnallocated f) = s'') :
    Core s'' (insert f F) A ∧ Kept A s s'' ∧ ∀ q, sizes s'' q = sizes s q := by
  have hblock := h.block f (mem_union_right _ (mem_insert_self _ _))
  have hfF : ∀ {q}, q ∈ F → q ≠ f := fun hq hqf =>
    h.disjoint _ hq (hqf ▸ mem_insert_self _ _)
  have hsize : ∀ q, sizes s'' q = sizes s q := by
    intro q
    rw [← hs'', sizes_withMagic]
    exact (hframed.size q).trans (update_field AllocList.size (by rfl) q)
  have harena : ∀ q, (s''.blocks q).arena = (s.blocks q).arena := by
    intro q
    rw [← hs'', arena_withMagic, hframed.arena]
    exact update_field AllocList.arena (by rfl) q
  have hmagic : ∀ q, q ≠ f → (s''.blocks q).magic = (s.blocks q).magic := by
    intro q hq
    rw [← hs'', withMagic_blocks, if_neg hq, hframed.magic, withLevels_blocks, if_neg hq]
  have hunion : insert f F ∪ A = F ∪ insert f A := by
    rw [insert_union, union_insert]
  have hmapped : s''.mapped = s.mapped := hs'' ▸ hframed.mapped
  refine ⟨⟨hs'' ▸ hskip.withMagic _ _, fun q hq => ?_, ?_, fun q hq => ?_, fun q hq => ?_,
    fun q hq => ?_, ?_⟩, ⟨hs'' ▸ hframed.self, hs'' ▸ hframed.pagesize, hmapped,
    hs'' ▸ hframed.allocationCount, fun q _ => hsize q, fun q hq => hmagic q ?_,
    fun q _ => harena q⟩, hsize⟩
  · rcases mem_insert.1 hq with rfl | hq
    · exact hf
    · exact fun hqA => h.disjoint q hq (mem_insert_of_mem hqA)
  · rw [hunion, mapped_congr hmapped]
    exact h.tiles.congr fun q _ => hsize q
  · rw [hunion] at hq
    exact (h.block q hq).congr (hsize q) (harena q) (hs'' ▸ hframed.self)
  · rcases mem_insert.1 hq with rfl | hq
    · rw [← hs'', withMagic_blocks, if_pos rfl]
    · rw [hmagic q (hfF hq)]
      exact h.magic q hq
  · rw [hsize, ← hs'', levels_withMagic]
    rcases mem_insert.1 hq with rfl | hq
    · rw [hframed.levels q hblock.pos.ne', withLevels_levels, if_pos rfl]
      exact hl.minLevels_le
    · rw [hframed.levels q (h.mem_pos hq).ne', withLevels_levels, if_neg (hfF hq)]
      exact h.minLevels_le q hq
  · rw [hsize]
    exact h.head
  · rintro rfl
    exact hf hq

/-- The block goes to the free list and is merged on both sides. -/
theorem addToFreelist_spec (h : Core s F (insert f A)) (hf : f ∉ A)
    (hmagic : (s.blocks f).magic = LowLevelAlloc.magic kMagicAllocated f) (hgaps : Gaps s F) :
    Spec (addToFreelist (f + headerSize)) s fun _ s' => ∃ F', Core s' F' A ∧ Gaps s' F' ∧
      Kept A s s' ∧ ∃ b ∈ F', b ≤ f ∧ f + sizes s f ≤ b + sizes s' b := by
  have hblock := h.block f (mem_union_right _ (mem_insert_self _ _))
  have hfF : f ∉ F := fun hmem => h.disjoint f hmem (mem_insert_self _ _)
  unfold addToFreelist
  refine get_bind (check_bind hmagic (check_bind hblock.arena ?_))
  have hlt : sizes s f < 2 ^ 64 := (Nat.le_add_left _ _).trans_lt hblock.lt
  refine (llaSkiplistLevels_drawn hblock.large hlt s).bind ?_
  rintro l _ ⟨hl, r, rfl⟩
  refine setBlock_bind ?_
  refine (insert_drawn r h.skip hfF hblock.pos hl _).bind ?_
  rintro prev s3 ⟨hframed, hskip3, q, hq, hprev⟩
  refine getBlock_bind (setBlock_bind ?_)
  change Spec _ (withMagic s3 f (LowLevelAlloc.magic kMagicUnallocated f)) _
  generalize hs4 : withMagic s3 f _ = s4
  obtain ⟨hcore, hkept, hsizes⟩ := h.freed hf hl hframed hskip3 hs4
  -- only the block before `f` may end where another one begins
  have hends : ∀ x ∈ insert f F, x ≠ f → x + sizes s4 x ∈ insert f F → x + sizes s4 x = f := by
    intro x hx hxf hmem
    rw [hsizes] at hmem ⊢
    have hxF := (mem_insert.1 hx).resolve_left hxf
    exact (mem_insert.1 hmem).resolve_right (hgaps x hxF)
  refine (coalesce_spec hcore (mem_insert_self _ _) hends).bind ?_
  rintro _ s5 ⟨F2, h5⟩
  refine getPrev_bind hq (by decide) ?_
  have hfF2 : f ∈ F2 := h5.before f (mem_insert_self _ _) le_rfl
  have hgaps5 : ∀ x ∈ F2, x ≠ q → x + sizes s5 x ∉ F2 := by
    intro x hx hxq hmem
    by_cases hxf : x = f
    · rw [hxf] at hmem
      exact h5.gap hmem
    have hx1 := h5.subset hx
    rw [h5.size x hx hxf] at hmem
    have hend := hends x hx1 hxf (h5.subset hmem)
    have hxF := (mem_insert.1 hx1).resolve_left hxf
    have hxle := hprev.2.2 x hxF (by omega)
    have hqpos : q ≠ 0 := by
      omega
    have hqF : q ∈ F := hprev.1.resolve_left hqpos
    have hapart := hcore.tiles.apart x (mem_union_left _ hx1) q
      (mem_union_left _ (mem_insert_of_mem hqF)) (by omega)
    have := hprev.2.1
    omega
  have hcover : f + sizes s f ≤ f + sizes s5 f := by
    have := h5.size_le
    rw [hsizes] at this
    omega
  rcases hprev.1 with rfl | hqF
  · refine (coalesce_head h5.core).mono ?_
    rintro _ s6 hs6
    rw [hs6]
    refine ⟨F2, h5.core, fun x hx => hgaps5 x hx (h5.core.mem_pos hx).ne', hkept.trans h5.kept, f,
      hfF2, le_rfl, hcover⟩
  have hqf : q ≠ f := hprev.2.1.ne
  have hqF2 : q ∈ F2 := h5.before q (mem_insert_of_mem hqF) hprev.2.1.le
  refine (coalesce_spec h5.core hqF2 fun x hx hxq hmem => absurd hmem (hgaps5 x hx hxq)).mono ?_
  rintro _ s6 ⟨F3, h6⟩
  refine ⟨F3, h6.core, fun x hx => ?_, (hkept.trans h5.kept).trans h6.kept, ?_⟩
  · by_cases hxq : x = q
    · rw [hxq]
      exact h6.gap
    · rw [h6.size x hx hxq]
      exact fun hmem => hgaps5 x (h6.subset hx) hxq (h6.subset hmem)
  · by_cases hfF3 : f ∈ F3
    · refine ⟨f, hfF3, le_rfl, ?_⟩
      rwa [h6.size f hfF3 hqf.symm]
    · obtain ⟨hle, hle'⟩ := h6.absorbed f hfF2 hfF3
      exact ⟨q, h6.before q hqF2 le_rfl, hle, hcover.trans hle'⟩

end Heap

end Abseil.LowLevelAlloc
