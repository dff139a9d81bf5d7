import Abseil.LowLevelAllocHeap

/-!
# Calls of the low level allocator

`DoAllocWithArena` finds a free block that is large enough, after at most one `mmap`, and splits it
(`doAllocWithArena_eq`). `Free` puts a block on the free list (`free_spec`). If nothing is
allocated, the free blocks are whole ranges of mapped pages, and `DeleteArena` finds them aligned
(`deleteArena_spec`).
-/

namespace Abseil.LowLevelAlloc

open Finset Function Nat SkipList

/-! ## Rounding -/

/-- The mask clears the low bits. -/
theorem alignDown_eq {x k : ℕ} (hx : x < 2 ^ 64) (hk : k ≤ 64) :
    alignDown x (2 ^ k) = x / 2 ^ k * 2 ^ k := by
  have hmask : 2 ^ 64 - 1 - (2 ^ k - 1) = (2 ^ (64 - k) - 1) * 2 ^ k := by
    have hpow : 2 ^ (64 - k) * 2 ^ k = 2 ^ 64 := by rw [← pow_add, Nat.sub_add_cancel hk]
    have hpos : 0 < 2 ^ k := Nat.two_pow_pos k
    rw [Nat.sub_mul]
    omega
  unfold alignDown
  rw [hmask]
  refine eq_of_testBit_eq fun i => ?_
  simp only [testBit_and, testBit_mul_two_pow, testBit_div_two_pow]
  by_cases hi : k ≤ i
  · by_cases hlt : i < 64
    · simp [hi, show i - k < 64 - k by omega]
    · have hzero : x.testBit i = false :=
        testBit_lt_two_pow (hx.trans_le (Nat.pow_le_pow_right (by norm_num) (by omega)))
      simp [hi, hzero]
  · simp [hi]

/-- `r` is the first multiple of `align` from `x` on. -/
structure Rounded (x align r : ℕ) : Prop where
  dvd : align ∣ r
  le : x ≤ r
  lt : r < x + align

/-- The size is rounded up. -/
theorem rounded_alignDown {x k : ℕ} (hk : k ≤ 64) (hx : x + (2 ^ k - 1) < 2 ^ 64) :
    Rounded x (2 ^ k) (alignDown (x + (2 ^ k - 1)) (2 ^ k)) := by
  rw [alignDown_eq hx hk]
  have hdiv := div_add_mod (x + (2 ^ k - 1)) (2 ^ k)
  rw [mul_comm] at hdiv
  exact ⟨dvd_mul_left _ _, by omega, by omega⟩

section Calls

variable {β : Type} {s s' : Arena} {Q : β → Arena → Prop} {F A : Finset ℕ} {a f : ℕ} {x : ℕ}

theorem checkedAdd_bind {y : ℕ} {f : ℕ → Prog β} (h : x + y < 2 ^ 64)
    (hf : Spec (f (x + y)) s Q) : Spec (checkedAdd x y >>= f) s Q := by
  have hmod := mod_eq_of_lt h
  unfold checkedAdd
  rw [hmod, bind_assoc]
  exact check_bind (le_add_right x y) hf

theorem roundUp_bind {k : ℕ} {f : ℕ → Prog β} (h : x + (2 ^ k - 1) < 2 ^ 64)
    (hf : Spec (f (alignDown (x + (2 ^ k - 1)) (2 ^ k))) s Q) :
    Spec (roundUp x (2 ^ k) >>= f) s Q := by
  unfold roundUp
  rw [bind_assoc]
  exact checkedAdd_bind h hf

/-! ## The search -/

/-- The checks of `Next` pass. -/
theorem nextChecked_spec {i p : ℕ} (h : Core s F A) (hgaps : Gaps s F)
    (hp : p = 0 ∨ p ∈ level s F i) (hi : i < (s.blocks p).levels) :
    Spec (nextChecked i p) s fun n s' => s' = s ∧ n = (s.blocks p).next i := by
  have hmax : i < kMaxLevel := by
    rcases hp with rfl | hp
    · exact hi.trans h.skip.head_lt
    · exact hi.trans (h.skip.levels_lt p (mem_level.1 hp).1)
  have hnext := h.skip.linked i hmax p hp
  refine getBlock_bind (check_bind hi (getNext_bind (h.skip.toSized.fits hmax hp) ?_))
  cases hn : (s.blocks p).next i with
  | none => exact ⟨rfl, rfl⟩
  | some n =>
    rw [hn] at hnext
    have hnF := (mem_level.1 hnext.1).1
    refine get_bind (check_bind (h.magic n hnF) (check_bind (h.blockF hnF).arena ?_))
    by_cases hp0 : p = 0
    · rw [if_neg (not_not.2 hp0)]
      exact ⟨rfl, rfl⟩
    rw [if_pos hp0]
    have hpF := (mem_level.1 (hp.resolve_left hp0)).1
    have hapart := h.tiles.apart p (mem_union_left _ hpF) n (mem_union_left _ hnF)
      hnext.2.1
    have hgap : p + sizes s p ≠ n := fun heq => hgaps p hpF (heq ▸ hnF)
    refine check_bind hnext.2.1 (check_bind (lt_of_le_of_ne hapart hgap) ⟨rfl, rfl⟩)

variable {reqRnd : ℕ}

/-- The search ends at a block that is large enough, or at the end. -/
theorem findFit_spec {i : ℕ} (h : Core s F A) (hgaps : Gaps s F) (hi : i < (s.blocks 0).levels)
    (fuel : ℕ) : ∀ p, (p = 0 ∨ p ∈ level s F i) → 2 ^ 64 - p ≤ fuel → p < 2 ^ 64 →
      Spec (findFit reqRnd i fuel p) s fun r s' => s' = s ∧
        (∀ x, r = some x → x ∈ F ∧ reqRnd ≤ sizes s x) ∧
        (r = none → ∀ x ∈ level s F i, p < x → sizes s x < reqRnd) := by
  induction fuel with
  | zero =>
    intro p _ hfuel hp
    omega
  | succ fuel ih =>
    intro p hp hfuel hlt
    have hip : i < (s.blocks p).levels := by
      rcases hp with rfl | hp
      · exact hi
      · exact (mem_level.1 hp).2
    have hnext := h.skip.linked i (hi.trans h.skip.head_lt) p hp
    refine (nextChecked_spec h hgaps hp hip).bind ?_
    rintro n s' ⟨hs', rfl⟩
    rw [hs']
    cases hn : (s.blocks p).next i with
    | none =>
      rw [hn] at hnext
      refine ⟨rfl, nofun, fun _ x hx hpx => ?_⟩
      exact absurd hpx (not_lt.2 (hnext x hx))
    | some n =>
      rw [hn] at hnext
      obtain ⟨hmem, hpn, hleast⟩ := hnext
      have hnF := (mem_level.1 hmem).1
      refine getBlock_bind ?_
      split_ifs with hsmall
      · have hn64 : n < 2 ^ 64 := (le_add_right _ _).trans_lt (h.blockF hnF).lt
        refine (ih n (.inr hmem) (by omega) hn64).mono ?_
        rintro r s'' ⟨hs'', hsome, hnone⟩
        refine ⟨hs'', hsome, fun hr x hx hpx => ?_⟩
        rcases (hleast x hx hpx).eq_or_lt with rfl | hnx
        · exact hsmall
        · exact hnone hr x hx hnx
      · refine ⟨rfl, ?_, nofun⟩
        rintro x ⟨⟩
        exact ⟨hnF, not_lt.1 hsmall⟩

/-- The block that is found is free and large enough. -/
theorem findBlock_spec (h : Core s F A) (hgaps : Gaps s F) (hmin : minSize ≤ reqRnd)
    (hlt : reqRnd < 2 ^ 64) : Spec (findBlock reqRnd) s fun r s' => s' = s ∧
      (∀ x, r = some x → x ∈ F ∧ reqRnd ≤ sizes s x) ∧
      (r = none → ∀ x ∈ F, sizes s x < reqRnd) := by
  have hpos := minLevels_pos hmin hlt
  -- a block that is large enough is on the level
  have hlevels : ∀ x ∈ F, ¬ sizes s x < reqRnd → minLevels reqRnd ≤ (s.blocks x).levels := by
    intro x hx hle
    have hb := h.blockF hx
    have hmono := minLevels_mono (le_trans (by decide) hmin) (not_lt.1 hle)
      ((le_add_left _ _).trans_lt hb.lt)
    exact hmono.trans (h.minLevels_le x hx)
  refine (llaSkiplistLevels_least hmin hlt s).bind ?_
  rintro _ s' ⟨rfl, hs'⟩
  rw [hs']
  refine getBlock_bind ?_
  split_ifs with hhead
  · refine (findFit_spec h hgaps hhead (2 ^ 64) 0 (.inl rfl) (by omega) (by norm_num)).mono ?_
    rintro r s'' ⟨hs'', hsome, hnone⟩
    refine ⟨hs'', hsome, fun hr x hx => ?_⟩
    by_contra hle
    have hmem : x ∈ level s F (minLevels reqRnd - 1) :=
      mem_level.2 ⟨hx, by have := hlevels x hx hle; omega⟩
    exact hle (hnone hr x hmem (h.mem_pos hx))
  · refine ⟨rfl, nofun, fun _ x hx => ?_⟩
    by_contra hle
    have h1 := hlevels x hx hle
    have h2 := h.skip.levels_le_head hx
    omega

/-! ## New pages -/

/-- The page size is a power of two, and the mapped pages are aligned. -/
structure Pages (s : Arena) : Prop where
  power : ∃ k, 5 ≤ k ∧ k ≤ 60 ∧ s.pagesize = 2 ^ k
  aligned : ∀ r ∈ s.mapped, s.pagesize ∣ r.1 ∧ s.pagesize ∣ r.2

/-- The arena between two calls. -/
structure Heap (s : Arena) (F A : Finset ℕ) : Prop extends Core s F A where
  gaps : Gaps s F
  allocated : ∀ a ∈ A, (s.blocks a).magic = LowLevelAlloc.magic kMagicAllocated a
  pages : Pages s
  count : s.allocationCount = A.card

/-- The bytes that are mapped for a request. -/
def pagesSize (s : Arena) (reqRnd : ℕ) : ℕ :=
  alignDown (reqRnd + (s.pagesize * 16 - 1)) (s.pagesize * 16)

/-- Pages that `mmap` may return. -/
structure Fresh (s : Arena) (p size : ℕ) : Prop where
  pos : 0 < p
  dvd : s.pagesize ∣ p
  lt : p + size < 2 ^ 64
  notMapped : ∀ x, p ≤ x → x < p + size → x ∉ Mapped s

/-- The pages are whole and enough. -/
theorem Pages.rounded (h : Pages s) (hlt : reqRnd + (s.pagesize * 16 - 1) < 2 ^ 64) :
    Rounded reqRnd (s.pagesize * 16) (pagesSize s reqRnd) := by
  obtain ⟨k, -, hk, hpage⟩ := h.power
  have hpow : s.pagesize * 16 = 2 ^ (k + 4) := by rw [hpage, pow_add]; norm_num
  unfold pagesSize
  rw [hpow] at hlt ⊢
  exact rounded_alignDown (by omega) hlt

theorem Pages.congr (h : Pages s) (hpage : s'.pagesize = s.pagesize)
    (hmapped : s'.mapped = s.mapped) : Pages s' := by
  refine ⟨?_, ?_⟩
  · rw [hpage]
    exact h.power
  · rw [hpage, hmapped]
    exact h.aligned

theorem Pages.dvd (h : Pages s) : 32 ∣ s.pagesize := by
  obtain ⟨k, hk, -, hpage⟩ := h.power
  rw [hpage]
  exact pow_dvd_pow 2 hk

/-- A new block, where the free blocks are what they were. -/
theorem Core.extend (h : Core s F A) (hx : x ∉ F)
    (hsame : ∀ q, q = 0 ∨ q ∈ F → s'.blocks q = s.blocks q)
    (htiles : Tiles (F ∪ insert x A) (sizes s') (Mapped s'))
    (hblock : ∀ q ∈ F ∪ insert x A, Block s' q) : Core s' F (insert x A) where
  skip := h.skip.of_blocks hsame
  disjoint q hq hmem := by
    rcases mem_insert.1 hmem with rfl | hmem
    · exact hx hq
    · exact h.disjoint q hq hmem
  tiles := htiles
  block := hblock
  magic q hq := by
    rw [hsame q (.inr hq)]
    exact h.magic q hq
  minLevels_le q hq := by
    unfold sizes
    rw [hsame q (.inr hq)]
    exact h.minLevels_le q hq
  head := by
    unfold sizes
    rw [hsame 0 (.inl rfl)]
    exact h.head

/-- The state with a new block of `size` bytes. -/
def withPages (s : Arena) (p size : ℕ) : Arena :=
  { s with
    mapped := (p, size) :: s.mapped
    blocks := update s.blocks p ({ s.blocks p with
      size := size
      magic := magic kMagicAllocated p
      arena := some s.self }) }

/-- The new pages are a block. -/
theorem Core.addPages {p size : ℕ} (h : Core s F A) (hpages : Pages s) (hfresh : Fresh s p size)
    (hsize : s.pagesize ∣ size) (hmin : minSize ≤ size) :
    Core (withPages s p size) F (insert p A) ∧ p ∉ A := by
  have hnotMapped := hfresh.notMapped p le_rfl (Nat.lt_add_of_pos_right (lt_of_lt_of_le (by decide)
    hmin))
  have hnotMem : p ∉ F ∪ A := fun hmem => hnotMapped (h.tiles.mem hmem)
  have hother : ∀ q, q ≠ p → (withPages s p size).blocks q = s.blocks q :=
    fun q hq => update_of_ne hq _ _
  have hne : ∀ q ∈ F ∪ A, q ≠ p := by
    rintro q hq rfl
    exact hnotMem hq
  have hneF : ∀ q ∈ F, q ≠ p := fun q hq => hne q (mem_union_left _ hq)
  have hnew : sizes (withPages s p size) p = size := by
    simp only [sizes, withPages, update_self]
  have hsizes : ∀ q ∈ F ∪ A, sizes (withPages s p size) q = sizes s q :=
    fun q hq => congrArg AllocList.size (hother q (hne q hq))
  refine ⟨h.extend (fun hmem => hneF p hmem rfl) (fun q hq => hother q ?_) ?_ fun q hq => ?_,
    fun hmem => hnotMem (mem_union_right _ hmem)⟩
  · rcases hq with rfl | hq
    · exact hfresh.pos.ne
    · exact hneF q hq
  · have hmapped : Mapped (withPages s p size) =
        {x | x ∈ Mapped s ∨ (p ≤ x ∧ x < p + size)} := by
      ext x
      constructor
      · rintro ⟨r, hr, hx⟩
        rcases List.mem_cons.1 hr with rfl | hr
        · exact .inr hx
        · exact .inl ⟨r, hr, hx⟩
      · rintro (⟨r, hr, hx⟩ | hx)
        · exact ⟨r, List.mem_cons_of_mem _ hr, hx⟩
        · exact ⟨(p, size), List.mem_cons_self, hx⟩
    rw [hmapped, union_insert]
    exact h.tiles.add (lt_of_lt_of_le (by decide) hmin) hfresh.notMapped hnew hsizes
  · rw [union_insert] at hq
    rcases mem_insert.1 hq with rfl | hq
    · refine .of_size hfresh.pos (hpages.dvd.trans hfresh.dvd) hnew (hpages.dvd.trans hsize) hmin
        hfresh.lt ?_
      simp only [withPages, update_self]
    · refine (h.block q hq).congr (hsizes q hq) ?_ rfl
      rw [hother q (hne q hq)]

/-- What a call keeps of the allocated blocks. -/
structure Grown (A : Finset ℕ) (s : Arena) (newPages newSize : ℕ) (s' : Arena) : Prop where
  pagesize : s'.pagesize = s.pagesize
  size : ∀ a ∈ A, sizes s' a = sizes s a
  mapped : s'.mapped = s.mapped ∨ s'.mapped = (newPages, newSize) :: s.mapped

variable {newPages : ℕ}

section

variable (h : Heap s F A) (hmin : minSize ≤ reqRnd) (hlt : reqRnd + (s.pagesize * 16 - 1) < 2 ^ 64)
include h hmin hlt

/-- New pages are mapped and are a free block. -/
theorem addPages_spec (hfresh : Fresh s newPages (pagesSize s reqRnd)) :
    Spec (addPages reqRnd newPages) s fun _ s' => ∃ F', Heap s' F' A ∧
      Grown A s newPages (pagesSize s reqRnd) s' ∧ ∃ b ∈ F', reqRnd ≤ sizes s' b := by
  obtain ⟨k, hk5, hk, hpage⟩ := h.pages.power
  have hrounded := h.pages.rounded hlt
  have hdvd : s.pagesize ∣ pagesSize s reqRnd := (Dvd.intro _ rfl).trans hrounded.dvd
  refine get_bind ?_
  have hround : Spec (roundUp reqRnd (s.pagesize * 16)) s fun r s' =>
      r = pagesSize s reqRnd ∧ s' = s := by
    exact checkedAdd_bind hlt ⟨rfl, rfl⟩
  refine hround.bind ?_
  rintro _ s' ⟨rfl, hs'⟩
  obtain ⟨hcore, hnotMem⟩ := h.toCore.addPages h.pages hfresh hdvd (hmin.trans hrounded.le)
  have hnotMapped : newPages ∉ Mapped s := by
    refine hfresh.notMapped _ le_rfl (Nat.lt_add_of_pos_right ?_)
    exact lt_of_lt_of_le (by decide) (hmin.trans hrounded.le)
  set s1 := withPages s newPages (pagesSize s reqRnd)
  have hother : ∀ q ∈ F ∪ A, s1.blocks q = s.blocks q := by
    intro q hq
    refine update_of_ne ?_ _ _
    rintro rfl
    exact hnotMapped (h.tiles.mem hq)
  have hgaps : Gaps s1 F := by
    intro q hq
    unfold sizes
    rw [hother q (mem_union_left _ hq)]
    exact h.gaps q hq
  have hself : (s1.blocks newPages).magic =
      magic kMagicAllocated newPages := by
    simp only [s1, withPages, update_self]
  have hsize : sizes s1 newPages = pagesSize s reqRnd := by
    simp only [sizes, s1, withPages, update_self]
  refine set_bind (getBlock_bind (setBlock_bind ?_))
  refine (addToFreelist_spec hcore hnotMem hself hgaps).mono ?_
  rintro _ s' ⟨F', hcore', hgaps', hkept, b, hb, hle, hcover⟩
  refine ⟨F', ⟨hcore', hgaps', fun q hq => ?_, ⟨⟨k, hk5, hk, hkept.pagesize.trans hpage⟩,
    fun r hr => ?_⟩, hkept.allocationCount.trans h.count⟩,
    ⟨hkept.pagesize, fun q hq => ?_, .inr hkept.mapped⟩, b, hb, ?_⟩
  · rw [hkept.magic q hq, hother q (mem_union_right _ hq)]
    exact h.allocated q hq
  · rw [hkept.mapped] at hr
    rw [hkept.pagesize]
    rcases List.mem_cons.1 hr with rfl | hr
    · exact ⟨hfresh.dvd, hdvd⟩
    · exact h.pages.aligned r hr
  · rw [hkept.size q hq]
    exact congrArg AllocList.size (hother q (mem_union_right _ hq))
  · have := hrounded.le
    omega

/-- A free block is found, after pages were mapped if need be. -/
theorem allocLoop_spec (hfresh : Fresh s newPages (pagesSize s reqRnd)) :
    Spec (allocLoop reqRnd [newPages]) s fun x s' => ∃ F', Heap s' F' A ∧
      Grown A s newPages (pagesSize s reqRnd) s' ∧ x ∈ F' ∧ reqRnd ≤ sizes s' x := by
  have hlt' : reqRnd < 2 ^ 64 := by omega
  refine (findBlock_spec h.toCore h.gaps hmin hlt').bind ?_
  rintro r s' ⟨hs', hsome, -⟩
  rw [hs']
  cases r with
  | some x => exact ⟨F, h, ⟨rfl, fun _ _ => rfl, .inl rfl⟩, hsome x rfl⟩
  | none =>
    refine (addPages_spec h hmin hlt hfresh).bind ?_
    rintro _ s1 ⟨F', h1, hgrown, b, hb, hle⟩
    refine (findBlock_spec h1.toCore h1.gaps hmin hlt').bind ?_
    rintro r s2 ⟨hs2, hsome, hnone⟩
    rw [hs2]
    cases r with
    | some x => exact ⟨F', h1, hgrown, hsome x rfl⟩
    | none => exact absurd (hnone rfl b hb) (not_lt.2 hle)

end

/-! ## Allocation -/

/-- A block is taken off the free list. -/
theorem Core.taken (h : Core s F A) (hx : x ∈ F) (hframed : Framed s s')
    (hskip : Skip s' (F.erase x)) : Core s' (F.erase x) (insert x A) := by
  have hunion : F.erase x ∪ insert x A = F ∪ A := by
    rw [union_insert, ← insert_union, insert_erase hx]
  refine ⟨hskip, fun q hq hmem => ?_, ?_, fun q hq => ?_, fun q hq => ?_, fun q hq => ?_, ?_⟩
  · rcases mem_insert.1 hmem with rfl | hmem
    · exact ne_of_mem_erase hq rfl
    · exact h.disjoint q (mem_of_mem_erase hq) hmem
  · rw [hunion, mapped_congr hframed.mapped]
    exact h.tiles.congr fun q _ => hframed.size q
  · rw [hunion] at hq
    exact (h.block q hq).congr (hframed.size q) (hframed.arena q) hframed.self
  · rw [hframed.magic]
    exact h.magic q (mem_of_mem_erase hq)
  · have hqF := mem_of_mem_erase hq
    rw [hframed.levels q (h.mem_pos hqF).ne']
    exact (congrArg minLevels (hframed.size q)).trans_le (h.minLevels_le q hqF)
  · exact (hframed.size 0).trans h.head

/-- The state after a block was cut behind `k` bytes. -/
def withSplit (s : Arena) (x k : ℕ) : Arena :=
  { s with
    blocks := update (update s.blocks (k + x) ({ s.blocks (k + x) with
      size := (s.blocks x).size - k
      magic := magic kMagicAllocated (k + x)
      arena := some s.self })) x ({ s.blocks x with size := k }) }

theorem withSplit_ne {k q : ℕ} (h1 : q ≠ x) (h2 : q ≠ k + x) :
    (withSplit s x k).blocks q = s.blocks q := by
  simp only [withSplit, update_of_ne h1, update_of_ne h2]

/-- A block is cut in two. -/
theorem Core.split {k : ℕ} (h : Core s F (insert x A)) (hxA : x ∉ A) (hk : 32 ∣ k)
    (hmin : minSize ≤ k) (hle : k + minSize ≤ sizes s x) :
    Core (withSplit s x k) F (insert (k + x) (insert x A)) ∧ k + x ∉ insert x A ∧
      sizes (withSplit s x k) x = k ∧ (∀ q ∈ F ∪ A, sizes (withSplit s x k) q = sizes s q) := by
  have hmin' : 64 ≤ k := hmin
  have hle' : k + 64 ≤ sizes s x := hle
  have hxmem : x ∈ F ∪ insert x A := mem_union_right _ (mem_insert_self _ _)
  have hbx := h.block x hxmem
  have hxF : x ∉ F := fun hmem => h.disjoint x hmem (mem_insert_self _ _)
  -- no block begins inside of `x`
  have hnotMem : k + x ∉ F ∪ insert x A := fun hmem => by
    have := h.tiles.apart x hxmem _ hmem (by omega)
    omega
  have hne : ∀ q ∈ F ∪ A, q ≠ x ∧ q ≠ k + x := by
    intro q hq
    have hq' : q ∈ F ∪ insert x A := by
      rw [union_insert]
      exact mem_insert_of_mem hq
    refine ⟨?_, ?_⟩
    · rintro rfl
      rcases mem_union.1 hq with hq | hq
      · exact hxF hq
      · exact hxA hq
    · rintro rfl
      exact hnotMem hq'
  have hsame : ∀ q ∈ F ∪ A, (withSplit s x k).blocks q = s.blocks q := fun q hq =>
    withSplit_ne (hne q hq).1 (hne q hq).2
  have hsizex : sizes (withSplit s x k) x = k := by
    simp only [sizes, withSplit, update_self]
  have hblockn : (withSplit s x k).blocks (k + x) = { s.blocks (k + x) with
      size := (s.blocks x).size - k
      magic := LowLevelAlloc.magic kMagicAllocated (k + x)
      arena := some s.self } := by
    unfold withSplit
    dsimp only
    rw [update_of_ne (by omega), update_self]
  have hsizen : sizes (withSplit s x k) (k + x) = sizes s x - k := by
    unfold sizes
    rw [hblockn]
  have hsizes : ∀ q ∈ F ∪ A, sizes (withSplit s x k) q = sizes s q := fun q hq =>
    congrArg AllocList.size (hsame q hq)
  have hnotMem' : k + x ∉ insert x A := fun hmem => hnotMem (mem_union_right _ hmem)
  refine ⟨h.extend (fun hmem => hnotMem (mem_union_left _ hmem)) ?_ ?_ fun q hq => ?_, hnotMem',
    hsizex, hsizes⟩
  · rintro q (rfl | hq)
    · exact withSplit_ne hbx.pos.ne (by omega)
    · exact hsame q (mem_union_left _ hq)
  · rw [union_insert, add_comm k x]
    refine h.tiles.split hxmem (by omega) (by omega) hsizex ?_ fun q hq hqx => ?_
    · rwa [add_comm]
    · rw [union_insert] at hq
      exact hsizes q ((mem_insert.1 hq).resolve_left hqx)
  · rw [union_insert, union_insert] at hq
    rcases mem_insert.1 hq with rfl | hq
    · have hlt := hbx.lt
      refine .of_size (by omega) ((Nat.dvd_add_right hk).2 hbx.aligned) hsizen
        (dvd_sub hbx.size_aligned hk) ?_ (by omega) (by rw [hblockn]; rfl)
      change 64 ≤ _
      omega
    · rcases mem_insert.1 hq with rfl | hq
      · have hlt := hbx.lt
        refine .of_size hbx.pos hbx.aligned hsizex hk hmin (by omega) ?_
        simp only [withSplit, update_self]
        exact hbx.arena
      · refine (h.block q ?_).congr (hsizes q hq) ?_ rfl
        · rw [union_insert]
          exact mem_insert_of_mem hq
        · rw [hsame q hq]

/-- The rest of the block becomes free. -/
theorem split_spec (h : Core s F (insert x A)) (hxA : x ∉ A) (hgaps : Gaps s F) (hdvd : 32 ∣ reqRnd)
    (hmin : minSize ≤ reqRnd) (hlt : reqRnd + minSize < 2 ^ 64) (hle : reqRnd ≤ sizes s x) :
    Spec (split reqRnd x) s fun _ s' => ∃ F', Core s' F' (insert x A) ∧ Gaps s' F' ∧
      reqRnd ≤ sizes s' x ∧ (∀ a ∈ A, sizes s' a = sizes s a) ∧
      (∀ a ∈ A, (s'.blocks a).magic = (s.blocks a).magic) ∧ s'.pagesize = s.pagesize ∧
      s'.mapped = s.mapped ∧ s'.allocationCount = s.allocationCount := by
  refine checkedAdd_bind hlt (get_bind ?_)
  split_ifs with hlarge
  · refine setBlock_bind (setBlock_bind ?_)
    obtain ⟨hcore, hnotMem, hsizex, hsizes⟩ := h.split hxA hdvd hmin hlarge
    have hmin' : 64 ≤ reqRnd := hmin
    have hmagic : ((withSplit s x reqRnd).blocks (reqRnd + x)).magic =
        magic kMagicAllocated (reqRnd + x) := by
      unfold withSplit
      dsimp only
      rw [update_of_ne (by omega), update_self]
    have hgaps' : Gaps (withSplit s x reqRnd) F := by
      intro q hq
      rw [hsizes q (mem_union_left _ hq)]
      exact hgaps q hq
    refine (addToFreelist_spec hcore hnotMem hmagic hgaps').mono ?_
    rintro _ s' ⟨F', hcore', hgaps'', hkept, -⟩
    refine ⟨F', hcore', hgaps'', ?_, fun q hq => ?_, fun q hq => ?_, hkept.pagesize, hkept.mapped,
      hkept.allocationCount⟩
    · rw [hkept.size x (mem_insert_self _ _), hsizex]
    · rw [hkept.size q (mem_insert_of_mem hq), hsizes q (mem_union_right _ hq)]
    rw [hkept.magic q (mem_insert_of_mem hq)]
    have h2 : q ≠ reqRnd + x := by
      rintro rfl
      exact hnotMem (mem_insert_of_mem hq)
    rw [withSplit_ne (ne_of_mem_of_not_mem hq hxA) h2]
  · exact ⟨F, h, hgaps, hle, fun _ _ => rfl, fun _ _ => rfl, rfl, rfl, rfl⟩

/-- A block that is not free may be marked. -/
theorem Core.withMagic (h : Core s F A) (hx : x ∉ F) (m : ℕ) : Core (withMagic s x m) F A where
  skip := h.skip.withMagic x m
  disjoint := h.disjoint
  tiles := h.tiles.congr fun q _ => sizes_withMagic s x m q
  block q hq := (h.block q hq).congr (sizes_withMagic s x m q) (arena_withMagic s x m q) rfl
  magic q hq := by
    rw [withMagic_blocks, if_neg]
    · exact h.magic q hq
    · rintro rfl
      exact hx hq
  minLevels_le q hq := by
    rw [sizes_withMagic, levels_withMagic]
    exact h.minLevels_le q hq
  head := by
    rw [sizes_withMagic]
    exact h.head

/-- A request with its header, rounded. -/
def reqRound (request : ℕ) : ℕ := alignDown (request + headerSize + (roundUpSize - 1)) roundUpSize

/-- No `CheckedAdd` aborts. -/
structure Small (s : Arena) (request : ℕ) : Prop where
  round : request + headerSize + (roundUpSize - 1) < 2 ^ 64
  pages : reqRound request + (s.pagesize * 16 - 1) < 2 ^ 64
  split : reqRound request + minSize < 2 ^ 64

variable {request : ℕ}

theorem rounded_reqRound (h : Small s request) :
    Rounded (request + headerSize) 32 (reqRound request) :=
  rounded_alignDown (k := 5) (by norm_num) h.round

/-- The blocks when `x` was taken for a request, before it is counted. -/
structure Taken (s : Arena) (A : Finset ℕ) (request newPages x : ℕ) (F' : Finset ℕ) (s' : Arena) :
    Prop where
  core : Core s' F' (insert x A)
  gaps : Gaps s' F'
  notMem : x ∉ A
  allocated : ∀ a ∈ insert x A, (s'.blocks a).magic = magic kMagicAllocated a
  pages : Pages s'
  count : s'.allocationCount = A.card
  room : request + headerSize ≤ sizes s' x
  grown : Grown A s newPages (pagesSize s (reqRound request)) s'

/-- A block is taken and cut. -/
theorem takeBlock_spec (h : Heap s F A) (hrequest : request ≠ 0) (hsmall : Small s request)
    (hfresh : Fresh s newPages (pagesSize s (reqRound request))) :
    Spec (takeBlock request newPages) s fun x s' => ∃ F', Taken s A request newPages x F' s' := by
  have hrounded := rounded_reqRound hsmall
  have hmin : minSize ≤ reqRound request := by
    obtain ⟨c, hc⟩ := hrounded.dvd
    have hle : request + 32 ≤ reqRound request := hrounded.le
    change 64 ≤ _
    omega
  have hlt : request + headerSize < 2 ^ 64 := (le_add_right _ _).trans_lt hsmall.round
  refine checkedAdd_bind hlt (roundUp_bind (k := 5) hsmall.round ?_)
  refine (allocLoop_spec h hmin hsmall.pages hfresh).bind ?_
  rintro x s1 ⟨F1, h1, hgrown, hx, hle⟩
  have hxA := h1.disjoint x hx
  refine (llaSkiplistDelete_spec h1.skip hx _).bind ?_
  rintro prev s2 ⟨hframed, hskip⟩
  have hcore2 := h1.toCore.taken hx hframed hskip
  have hsize2 : ∀ q, sizes s2 q = sizes s1 q := fun q => hframed.size q
  have hgaps2 : Gaps s2 (F1.erase x) := by
    intro q hq hmem
    rw [hsize2] at hmem
    exact h1.gaps q (mem_of_mem_erase hq) (mem_of_mem_erase hmem)
  refine (split_spec hcore2 hxA hgaps2 hrounded.dvd hmin hsmall.split ?_).bind ?_
  · rwa [hsize2]
  rintro _ s3 ⟨F3, hcore3, hgaps3, hle3, hsize3, hmagic3, hpagesize, hmapped, hcount⟩
  have hxF3 : x ∉ F3 := fun hmem => hcore3.disjoint x hmem (mem_insert_self _ _)
  refine getBlock_bind (setBlock_bind ?_)
  change Spec _ (withMagic s3 x (magic kMagicAllocated x)) _
  have hcore4 := hcore3.withMagic hxF3 (magic kMagicAllocated x)
  have hxmem : x ∈ F3 ∪ insert x A := mem_union_right _ (mem_insert_self _ _)
  refine get_bind (check_bind (hcore4.block x hxmem).arena ?_)
  have hpage := hpagesize.trans hframed.pagesize
  have hmap := hmapped.trans hframed.mapped
  refine ⟨F3, hcore4, fun q hq => ?_, hxA, fun q hq => ?_, h1.pages.congr hpage hmap, ?_,
    ?_, ⟨hpage.trans hgrown.pagesize, fun q hq => ?_, ?_⟩⟩
  · rw [sizes_withMagic]
    exact hgaps3 q hq
  · rw [withMagic_blocks]
    split_ifs with hqx
    · rw [hqx]
    · have hqA := (mem_insert.1 hq).resolve_left hqx
      rw [hmagic3 q hqA, hframed.magic]
      exact h1.allocated q hqA
  · exact (hcount.trans hframed.allocationCount).trans h1.count
  · rw [sizes_withMagic]
    exact hrounded.le.trans hle3
  · rw [sizes_withMagic, hsize3 q hq, hsize2]
    exact hgrown.size q hq
  · change s3.mapped = _ ∨ s3.mapped = _
    rw [hmap]
    exact hgrown.mapped

theorem Spec.exists_ok {α : Type} {m : Prog α} {P : α → Arena → Prop} (h : Spec m s P) :
    ∃ a s', m s = .ok (a, s') ∧ P a s' := by
  unfold Spec at h
  rcases hm : m s with fault | ⟨a, s'⟩
  · rw [hm] at h
    exact h.elim
  · rw [hm] at h
    exact ⟨a, s', rfl, h⟩

/-- A block is taken, and it is counted unless the count overflows. -/
theorem doAllocWithArena_eq (h : Heap s F A) (hrequest : request ≠ 0) (hsmall : Small s request)
    (hfresh : Fresh s newPages (pagesSize s (reqRound request))) :
    ∃ x F' s', Taken s A request newPages x F' s' ∧
      doAllocWithArena request newPages s = countBlock x s' := by
  obtain ⟨x, s', hm, F', htaken⟩ := (takeBlock_spec h hrequest hsmall hfresh).exists_ok
  refine ⟨x, F', s', htaken, ?_⟩
  unfold doAllocWithArena
  rw [if_pos hrequest]
  change StateT.bind (takeBlock request newPages) countBlock s = _
  unfold StateT.bind
  rw [hm]
  rfl

theorem Skip.blocks_eq (h : Skip s F) (hb : s'.blocks = s.blocks) : Skip s' F :=
  h.congr (fun q _ => by rw [hb]) (fun q _ => by rw [hb]) fun q _ => by rw [hb]

/-- The invariant does not need the count. -/
theorem Core.withCount (h : Core s F A) (n : ℤ) : Core { s with allocationCount := n } F A :=
  ⟨h.skip.blocks_eq rfl, h.disjoint, h.tiles, fun q hq => (h.block q hq).congr rfl rfl rfl, h.magic,
    h.minLevels_le, h.head⟩

/-- The block that was taken is allocated. -/
theorem Taken.heap {F' : Finset ℕ} (h : Taken s A request newPages x F' s') :
    Heap { s' with allocationCount := s'.allocationCount + 1 } F' (insert x A) := by
  refine ⟨h.core.withCount _, h.gaps, h.allocated, ⟨h.pages.power, h.pages.aligned⟩, ?_⟩
  rw [card_insert_of_notMem h.notMem]
  exact congrArg (· + 1) h.count

/-! ## Free -/

/-- A block is freed. -/
theorem free_spec (h : Heap s F A) (ha : a ∈ A) :
    Spec (free (some (a + headerSize))) s fun _ s' => ∃ F', Heap s' F' (A.erase a) ∧
      (∀ q ∈ A.erase a, sizes s' q = sizes s q) ∧ s'.pagesize = s.pagesize ∧
      s'.mapped = s.mapped := by
  have hcore : Core s F (insert a (A.erase a)) := by
    rw [insert_erase ha]
    exact h.toCore
  refine (addToFreelist_spec hcore (notMem_erase a A) (h.allocated a ha) h.gaps).bind ?_
  rintro _ s' ⟨F', hcore', hgaps', hkept, -⟩
  have hcard := card_erase_add_one ha
  have hcount : s'.allocationCount = (A.erase a).card + 1 := by
    rw [hkept.allocationCount, h.count, ← hcard, cast_add, cast_one]
  refine get_bind (check_bind (by rw [hcount]; positivity) ?_)
  refine ⟨F', ⟨hcore'.withCount _, hgaps', fun q hq => ?_,
    h.pages.congr hkept.pagesize hkept.mapped, ?_⟩, hkept.size, hkept.pagesize, hkept.mapped⟩
  · exact (hkept.magic q hq).trans (h.allocated q (mem_of_mem_erase hq))
  · rw [hcount, Int.add_sub_cancel]

/-! ## DeleteArena -/

/-- If nothing is allocated, a free block is a range of pages. -/
theorem Heap.page_aligned (h : Heap s F ∅) (ha : a ∈ F) :
    s.pagesize ∣ a ∧ s.pagesize ∣ sizes s a := by
  have htiles := h.tiles
  rw [union_empty] at htiles
  have hpos := htiles.pos a ha
  obtain ⟨r, hr, hle, hlt⟩ := htiles.mem ha
  have hstart : r.1 = a := by
    by_contra hne
    refine htiles.pred_notMem h.gaps ha (x := a - 1) (by omega) ⟨r, hr, by omega, by omega⟩
  have hlast : a + sizes s a - 1 ∈ Mapped s :=
    (htiles.covered _).2 ⟨a, ha, by omega, by omega⟩
  obtain ⟨r', hr', hle', hlt'⟩ := hlast
  have hend : r'.1 + r'.2 = a + sizes s a := by
    by_contra hne
    exact htiles.end_notMem h.gaps ha ⟨r', hr', by omega, by omega⟩
  have h1 := (h.pages.aligned r hr).1
  have h2 := h.pages.aligned r' hr'
  rw [hstart] at h1
  have h3 := dvd_add h2.1 h2.2
  rw [hend] at h3
  exact ⟨h1, (Nat.dvd_add_right h1).1 h3⟩

/-- The first links visit the free blocks in the order of their addresses. -/
theorem Core.visits (h : Core s F A) :
    Visits (fun p => (s.blocks p).next 0) 0 (F.sort (· ≤ ·)) := by
  have hvisits := visits_sort (fun q hq => h.next_zero hq) _ 0 (.inl rfl) rfl
  rwa [filter_true_of_mem fun x hx => h.mem_pos hx] at hvisits

/-- A block that passes the checks of `DeleteArena`. -/
structure Deletable (s : Arena) (x : ℕ) : Prop where
  pos : 0 < x
  fits : Fits s x 0
  magic : (s.blocks x).magic = magic kMagicUnallocated x
  arena : (s.blocks x).arena = some s.self
  size : (s.blocks x).size % s.pagesize = 0
  aligned : x % s.pagesize = 0

/-- The loop finds every block whole. -/
theorem deleteLoop_spec (l : List ℕ) : ∀ fuel s, l.length < fuel →
    Visits (fun p => (s.blocks p).next 0) 0 l → (∀ x ∈ l, Deletable s x) →
    Spec (deleteLoop fuel) s fun _ _ => True := by
  have hhead : ∀ s, Fits s 0 0 := fun s => by
    unfold Fits
    rw [if_pos rfl]
    decide
  induction l with
  | nil =>
    intro fuel s hfuel hvisits _
    obtain ⟨fuel, rfl⟩ : ∃ n, fuel = n + 1 := ⟨fuel - 1, by omega⟩
    refine getNext_bind (hhead s) ?_
    have hnone : (s.blocks 0).next 0 = none := hvisits
    rw [hnone]
    trivial
  | cons x l ih =>
    intro fuel s hfuel hvisits hall
    obtain ⟨fuel, rfl⟩ : ∃ n, fuel = n + 1 := ⟨fuel - 1, by omega⟩
    have hx := hall x List.mem_cons_self
    have hother : ∀ q, 0 < q →
        (withNext s 0 0 ((s.blocks x).next 0)).blocks q = s.blocks q := fun q hq => by
      rw [withNext_blocks, if_neg hq.ne']
    refine getNext_bind (hhead s) ?_
    have hsome : (s.blocks 0).next 0 = some x := hvisits.1
    rw [hsome]
    refine getBlock_bind (getNext_bind hx.fits (setNext_bind (hhead s) (get_bind ?_)))
    refine check_bind ?_ (check_bind ?_ (check_bind hx.size (check_bind hx.aligned ?_)))
    · rw [hother x hx.pos]
      exact hx.magic
    · rw [hother x hx.pos]
      exact hx.arena
    have hframed := framed_withNext s 0 0 ((s.blocks x).next 0)
    refine ih fuel _ (by rw [List.length_cons] at hfuel; omega) ?_ fun y hy => ?_
    · -- the head now has the link of `x`
      cases l with
      | nil =>
        change ((withNext s 0 0 ((s.blocks x).next 0)).blocks 0).next 0 = none
        rw [withNext_next]
        exact hvisits.2
      | cons y l =>
        refine ⟨?_, hvisits.2.2.congr fun q hq => ?_⟩
        · change ((withNext s 0 0 ((s.blocks x).next 0)).blocks 0).next 0 = some y
          rw [withNext_next]
          exact hvisits.2.1
        · rw [hother q (hall q (List.mem_cons_of_mem _ hq)).pos]
    · have hy' := hall y (List.mem_cons_of_mem _ hy)
      refine ⟨hy'.pos, hframed.fits.2 hy'.fits, ?_, ?_, ?_, hy'.aligned⟩
      · rw [hother y hy'.pos]
        exact hy'.magic
      · rw [hother y hy'.pos]
        exact hy'.arena
      · rw [hother y hy'.pos]
        exact hy'.size

/-- An arena without blocks is deleted. -/
theorem deleteArena_spec (h : Heap s F ∅) : Spec deleteArena s fun result _ => result = true := by
  have hcount : s.allocationCount = 0 := by rw [h.count, card_empty, cast_zero]
  have hcard : F.card < 2 ^ 64 := by
    have hsub : F ⊆ Finset.Ioo 0 (2 ^ 64) := fun x hx =>
      mem_Ioo.2 ⟨h.mem_pos hx, (le_add_right _ _).trans_lt (h.blockF hx).lt⟩
    have hle := card_le_card hsub
    rw [card_Ioo] at hle
    omega
  refine get_bind ?_
  rw [if_neg (not_not.2 hcount)]
  refine (deleteLoop_spec _ (2 ^ 64) s ?_ h.visits fun x hx => ?_).bind fun _ _ _ => rfl
  · rwa [length_sort]
  · have hxF := (mem_sort _).1 hx
    obtain ⟨h1, h2⟩ := h.page_aligned hxF
    exact ⟨h.mem_pos hxF, h.fits_zero (.inr hxF), h.magic x hxF, (h.blockF hxF).arena,
      mod_eq_zero_of_dvd h2, mod_eq_zero_of_dvd h1⟩

end Calls

end Abseil.LowLevelAlloc
