import Abseil.LowLevelAllocCalls

/-!
# Runs of the low level allocator

A client allocates, writes to its blocks and frees them. As long as fewer than `2 ^ 31` blocks are
allocated, no check fails and the mapped pages are cut into free and allocated blocks after every
call (`run_fine_iff`). The count of the allocated blocks is an `int32_t`, and the allocation of the
block number `2 ^ 31` overflows it (`run_countOverflow`).
-/

namespace Abseil.LowLevelAlloc

open List SkipList

/-! ## Clients -/

/-- The calls of a client. `mmap` returns `newPages` if the call needs pages. -/
inductive Op
  | alloc (request newPages : ℕ)
  | free (v : Option ℕ)
  | write (v levels : ℕ) (next : ℕ → Option ℕ)

/-- An arena and the blocks of the client, each with the bytes that were requested. -/
structure Client where
  arena : Arena
  live : List (ℕ × ℕ)

/-- The allocated blocks. -/
def Client.blocks (c : Client) : Finset ℕ := (c.live.map Prod.fst).toFinset

/-- A client writes to its bytes, which lie over `levels` and `next`. -/
def writeBlock (s : Arena) (a levels : ℕ) (next : ℕ → Option ℕ) : Arena :=
  { s with
    blocks := Function.update s.blocks a ({ s.blocks a with levels := levels, next := next }) }

/-- The effect of a call. -/
def stepOp : Op → Client → Except Fault Client
  | .alloc request newPages, c =>
    match doAllocWithArena request newPages c.arena with
    | .ok (some v, s) => .ok ⟨s, (v - headerSize, request) :: c.live⟩
    | .ok (none, s) => .ok ⟨s, c.live⟩
    | .error fault => .error fault
  | .free v, c =>
    match free v c.arena with
    | .ok (_, s) => .ok ⟨s, c.live.filter fun b => v ≠ some (b.1 + headerSize)⟩
    | .error fault => .error fault
  | .write v levels next, c => .ok ⟨writeBlock c.arena (v - headerSize) levels next, c.live⟩

/-- The calls one after another. -/
def runOps : List Op → Client → Except Fault Client
  | [], c => .ok c
  | op :: ops, c =>
    match stepOp op c with
    | .ok c => runOps ops c
    | .error fault => .error fault

/-- Requests are not too large, `mmap` returns fresh pages, and the client uses its own blocks. -/
def Allowed : Op → Client → Prop
  | .alloc request newPages, c => request ≠ 0 →
    Small c.arena request ∧ Fresh c.arena newPages (pagesSize c.arena (reqRound request))
  | .free v, c => ∀ p, v = some p → ∃ b ∈ c.live, p = b.1 + headerSize
  | .write v _ _, c => ∃ b ∈ c.live, v = b.1 + headerSize

/-- Every call is allowed where it is made. -/
def Permitted : List Op → Client → Prop
  | [], _ => True
  | op :: ops, c => Allowed op c ∧ ∀ c', stepOp op c = .ok c' → Permitted ops c'

/-- Fresh pages meet no pages that are mapped. -/
theorem fresh_iff {s : Arena} {p size : ℕ} : Fresh s p size ↔
    0 < p ∧ s.pagesize ∣ p ∧ p + size < 2 ^ 64 ∧
      ∀ r ∈ s.mapped, r.2 = 0 ∨ size = 0 ∨ r.1 + r.2 ≤ p ∨ p + size ≤ r.1 := by
  constructor
  · intro h
    refine ⟨h.pos, h.dvd, h.lt, fun r hr => ?_⟩
    by_contra hmeet
    exact h.notMapped (max p r.1) (by omega) (by omega) ⟨r, hr, by omega, by omega⟩
  · rintro ⟨hpos, hdvd, hlt, hmapped⟩
    refine ⟨hpos, hdvd, hlt, ?_⟩
    rintro x hle hlt ⟨r, hr, hrx, hxr⟩
    have := hmapped r hr
    omega

instance (s : Arena) (p size : ℕ) : Decidable (Fresh s p size) := decidable_of_iff' _ fresh_iff

instance (s : Arena) (request : ℕ) : Decidable (Small s request) :=
  decidable_of_iff (_ ∧ _ ∧ _) ⟨fun h => ⟨h.1, h.2.1, h.2.2⟩, fun h => ⟨h.round, h.pages, h.split⟩⟩

instance : ∀ (op : Op) (c : Client), Decidable (Allowed op c)
  | .alloc request newPages, c => inferInstanceAs (Decidable (request ≠ 0 →
      Small c.arena request ∧ Fresh c.arena newPages (pagesSize c.arena (reqRound request))))
  | .free none, _ => isTrue nofun
  | .free (some p), c => decidable_of_iff (∃ b ∈ c.live, p = b.1 + headerSize)
      ⟨fun h _ hp => Option.some.inj hp ▸ h, fun h => h p rfl⟩
  | .write v _ _, c => inferInstanceAs (Decidable (∃ b ∈ c.live, v = b.1 + headerSize))

instance decidablePermitted : ∀ (ops : List Op) (c : Client), Decidable (Permitted ops c)
  | [], _ => isTrue trivial
  | op :: ops, c =>
    have : Decidable (∀ c', stepOp op c = .ok c' → Permitted ops c') :=
      match stepOp op c with
      | .ok c' =>
        have := decidablePermitted ops c'
        decidable_of_iff (Permitted ops c')
          ⟨fun h _ heq => Except.ok.inj heq ▸ h, fun h => h c' rfl⟩
      | .error _ => isTrue nofun
    inferInstanceAs (Decidable (Allowed op c ∧ _))

/-- How many blocks are allocated after calls. -/
def liveCount : ℕ → List Op → ℕ
  | n, [] => n
  | n, .alloc request _ :: ops => liveCount (if request ≠ 0 then n + 1 else n) ops
  | n, .free v :: ops => liveCount (if v.isSome then n - 1 else n) ops
  | n, .write _ _ _ :: ops => liveCount n ops

/-- A new arena. -/
def Client.init (self pagesize : ℕ) : Client := ⟨Arena.init self pagesize, []⟩

/-- The mapped pages are cut into the free blocks `F`, which the free list visits in their order,
and the allocated ones, which are aligned and have room for what was requested. An arena without
allocated blocks can be deleted. -/
structure Fine (c : Client) (F : Finset ℕ) : Prop where
  disjoint : Disjoint F c.blocks
  tiles : Tiles (F ∪ c.blocks) (sizes c.arena) (Mapped c.arena)
  visits : Visits (fun p => (c.arena.blocks p).next 0) 0 (F.sort (· ≤ ·))
  gaps : Gaps c.arena F
  nodup : (c.live.map Prod.fst).Nodup
  aligned : ∀ b ∈ c.live, 16 ∣ b.1 + headerSize
  room : ∀ b ∈ c.live, headerSize + b.2 ≤ sizes c.arena b.1
  deletes : c.arena.allocationCount = 0 → ∃ s', deleteArena c.arena = .ok (true, s')

/-! ## Steps -/

/-- The arena is a heap whose allocated blocks are those of the client. -/
structure Inv (c : Client) : Prop where
  heap : ∃ F, Heap c.arena F c.blocks
  nodup : (c.live.map Prod.fst).Nodup
  room : ∀ b ∈ c.live, headerSize + b.2 ≤ sizes c.arena b.1

section Steps

variable {c c' : Client}

theorem Client.mem_blocks {a : ℕ} : a ∈ c.blocks ↔ ∃ b ∈ c.live, b.1 = a := by
  unfold Client.blocks
  rw [mem_toFinset, mem_map]

theorem Inv.card (h : Inv c) : c.blocks.card = c.live.length := by
  unfold Client.blocks
  rw [toFinset_card_of_nodup h.nodup, length_map]

/-- What the invariant says of the memory. -/
theorem Inv.fine (h : Inv c) : ∃ F, Fine c F := by
  obtain ⟨F, hF⟩ := h.heap
  refine ⟨F, Finset.disjoint_left.2 fun a ha => hF.disjoint a ha, hF.tiles, hF.visits, hF.gaps,
    h.nodup, fun b hb => ?_, h.room, fun hcount => ?_⟩
  · have hblock := hF.block b.1 (Finset.mem_union_right _ (Client.mem_blocks.2 ⟨b, hb, rfl⟩))
    have h32 := dvd_add hblock.aligned (dvd_refl 32)
    exact Nat.dvd_trans (by norm_num) h32
  have hempty : c.blocks = ∅ := by
    refine Finset.card_eq_zero.1 ?_
    have := hF.count
    omega
  rw [hempty] at hF
  obtain ⟨result, s', hrun, rfl⟩ := (deleteArena_spec hF).exists_ok
  exact ⟨s', hrun⟩

/-- An allocation that is counted. -/
theorem stepOp_alloc {request newPages : ℕ} (h : Inv c)
    (hallowed : Allowed (.alloc request newPages) c) (hrequest : request ≠ 0)
    (hcount : c.live.length + 1 < 2 ^ 31) :
    ∃ c', stepOp (.alloc request newPages) c = .ok c' ∧ Inv c' ∧
      c'.live.length = c.live.length + 1 ∧ c'.arena.pagesize = c.arena.pagesize ∧
      (c'.arena.mapped = c.arena.mapped ∨ c'.arena.mapped =
        (newPages, pagesSize c.arena (reqRound request)) :: c.arena.mapped) := by
  obtain ⟨F, hF⟩ := h.heap
  obtain ⟨hsmall, hfresh⟩ := hallowed hrequest
  obtain ⟨x, F', s', htaken, hrun⟩ := doAllocWithArena_eq hF hrequest hsmall hfresh
  have hlt : s'.allocationCount + 1 < 2 ^ 31 := by
    rw [htaken.count, h.card]
    omega
  have hok : doAllocWithArena request newPages c.arena =
      .ok (some (x + headerSize), { s' with allocationCount := s'.allocationCount + 1 }) :=
    hrun.trans (if_pos hlt)
  refine ⟨⟨{ s' with allocationCount := s'.allocationCount + 1 }, (x, request) :: c.live⟩, ?_,
    ⟨⟨F', ?_⟩, ?_, fun b hb => ?_⟩, rfl, htaken.grown.pagesize, htaken.grown.mapped⟩
  · rw [stepOp, hok]
    dsimp only
    rw [Nat.add_sub_cancel]
  · have hblocks : Client.blocks ⟨{ s' with allocationCount := s'.allocationCount + 1 },
        (x, request) :: c.live⟩ = insert x c.blocks := toFinset_cons
    rw [hblocks]
    exact htaken.heap
  · refine nodup_cons.2 ⟨fun hmem => htaken.notMem ?_, h.nodup⟩
    exact mem_toFinset.2 hmem
  · rcases mem_cons.1 hb with rfl | hb
    · have := htaken.room
      change headerSize + request ≤ sizes s' x
      omega
    · change _ ≤ sizes s' b.1
      rw [htaken.grown.size b.1 (Client.mem_blocks.2 ⟨b, hb, rfl⟩)]
      exact h.room b hb

/-- An allocation that overflows the count. -/
theorem stepOp_overflow {request newPages : ℕ} (h : Inv c)
    (hallowed : Allowed (.alloc request newPages) c) (hrequest : request ≠ 0)
    (hcount : ¬ c.live.length + 1 < 2 ^ 31) :
    stepOp (.alloc request newPages) c = .error .countOverflow := by
  obtain ⟨F, hF⟩ := h.heap
  obtain ⟨hsmall, hfresh⟩ := hallowed hrequest
  obtain ⟨x, F', s', htaken, hrun⟩ := doAllocWithArena_eq hF hrequest hsmall hfresh
  have hlt : ¬ s'.allocationCount + 1 < 2 ^ 31 := by
    rw [htaken.count, h.card]
    omega
  rw [stepOp, hrun.trans (if_neg hlt)]

/-- A client frees a block. -/
theorem stepOp_free {v : Option ℕ} (h : Inv c) (hallowed : Allowed (.free v) c) :
    ∃ c', stepOp (.free v) c = .ok c' ∧ Inv c' ∧
      c'.live.length = if v.isSome then c.live.length - 1 else c.live.length := by
  cases v with
  | none =>
    have hlive : (c.live.filter fun b => (none : Option ℕ) ≠ some (b.1 + headerSize)) = c.live :=
      filter_eq_self.2 fun b _ => by simp
    refine ⟨c, ?_, h, rfl⟩
    change Except.ok (Client.mk c.arena (c.live.filter _)) = _
    rw [hlive]
  | some p =>
    obtain ⟨b, hb, rfl⟩ := hallowed p rfl
    obtain ⟨F, hF⟩ := h.heap
    have hmem := Client.mem_blocks.2 ⟨b, hb, rfl⟩
    obtain ⟨_, s', hrun, F', hF', hsize, -, -⟩ := (free_spec hF hmem).exists_ok
    set live := c.live.filter fun b' => some (b.1 + headerSize) ≠ some (b'.1 + headerSize)
    have hfilter : ∀ b', b' ∈ live ↔ b' ∈ c.live ∧ b'.1 ≠ b.1 := by
      intro b'
      refine mem_filter.trans (and_congr_right fun _ => ?_)
      rw [decide_eq_true_iff, Ne, Option.some.injEq, Nat.add_right_cancel_iff, eq_comm]
    have hblocks : Client.blocks ⟨s', live⟩ = c.blocks.erase b.1 := by
      ext a
      rw [Client.mem_blocks, Finset.mem_erase, Client.mem_blocks]
      constructor
      · rintro ⟨b', hb', rfl⟩
        obtain ⟨h1, h2⟩ := (hfilter b').1 hb'
        exact ⟨h2, b', h1, rfl⟩
      · rintro ⟨hne, b', hb', rfl⟩
        exact ⟨b', (hfilter b').2 ⟨hb', hne⟩, rfl⟩
    have hnodup : (live.map Prod.fst).Nodup := h.nodup.sublist (filter_sublist.map _)
    have hinv : Inv ⟨s', live⟩ := by
      refine ⟨⟨F', ?_⟩, hnodup, fun b' hb' => ?_⟩
      · rwa [hblocks]
      · obtain ⟨h1, h2⟩ := (hfilter b').1 hb'
        rw [hsize b'.1 (Finset.mem_erase.2 ⟨h2, Client.mem_blocks.2 ⟨b', h1, rfl⟩⟩)]
        exact h.room b' h1
    refine ⟨_, ?_, hinv, ?_⟩
    · rw [stepOp, hrun]
    · rw [← hinv.card, hblocks, Finset.card_erase_of_mem hmem, h.card]
      rfl

/-- The invariant does not read `levels` and `next` of an allocated block. -/
theorem Heap.write {s : Arena} {F A : Finset ℕ} {a : ℕ} (h : Heap s F A) (ha : a ∈ A)
    (levels : ℕ) (next : ℕ → Option ℕ) : Heap (writeBlock s a levels next) F A ∧
      ∀ q, sizes (writeBlock s a levels next) q = sizes s q := by
  have hpos : 0 < a := (h.block a (Finset.mem_union_right _ ha)).pos
  have hne : ∀ q, q = 0 ∨ q ∈ F → q ≠ a := by
    rintro q (rfl | hq)
    · exact hpos.ne
    · rintro rfl
      exact h.disjoint q hq ha
  set t := writeBlock s a levels next
  have hother : ∀ q, q = 0 ∨ q ∈ F → t.blocks q = s.blocks q := fun q hq =>
    Function.update_of_ne (hne q hq) _ _
  have hsize : ∀ q, sizes t q = sizes s q :=
    update_field AllocList.size (by rfl)
  have hmagic : ∀ q, (t.blocks q).magic = (s.blocks q).magic :=
    update_field AllocList.magic (by rfl)
  have harena : ∀ q, (t.blocks q).arena = (s.blocks q).arena :=
    update_field AllocList.arena (by rfl)
  refine ⟨⟨⟨?_, h.disjoint, ?_, fun q hq => ?_, fun q hq => ?_, fun q hq => ?_, ?_⟩, fun q hq => ?_,
    fun q hq => ?_, ⟨h.pages.power, h.pages.aligned⟩, h.count⟩, hsize⟩
  · refine h.skip.congr (fun q hq => ?_) (fun q hq => ?_) fun q hq => ?_
    · rw [hother q hq]
    · rw [hother q hq]
    · rw [hother q (.inr hq)]
  · exact h.tiles.congr fun q _ => hsize q
  · exact (h.block q hq).congr (hsize q) (harena q) rfl
  · rw [hmagic]
    exact h.magic q hq
  · rw [hsize, hother q (.inr hq)]
    exact h.minLevels_le q hq
  · rw [hsize]
    exact h.head
  · rw [hsize]
    exact h.gaps q hq
  · rw [hmagic]
    exact h.allocated q hq

/-- A client writes to a block. -/
theorem stepOp_write {v levels : ℕ} {next : ℕ → Option ℕ} (h : Inv c)
    (hallowed : Allowed (.write v levels next) c) :
    ∃ c', stepOp (.write v levels next) c = .ok c' ∧ Inv c' ∧ c'.live.length = c.live.length := by
  obtain ⟨b, hb, rfl⟩ := hallowed
  obtain ⟨F, hF⟩ := h.heap
  obtain ⟨hF', hsize⟩ := hF.write (Client.mem_blocks.2 ⟨b, hb, rfl⟩) levels next
  refine ⟨_, rfl, ⟨⟨F, ?_⟩, h.nodup, fun b' hb' => ?_⟩, rfl⟩
  · rwa [Nat.add_sub_cancel]
  · rw [Nat.add_sub_cancel, hsize]
    exact h.room b' hb'

/-- A call keeps the invariant, or it is the allocation that overflows the count. -/
theorem stepOp_inv (op : Op) (h : Inv c) (hallowed : Allowed op c)
    (hcount : c.live.length < 2 ^ 31) :
    (∃ c', stepOp op c = .ok c' ∧ Inv c' ∧ c'.live.length = liveCount c.live.length [op] ∧
      c'.live.length < 2 ^ 31) ∨
    (stepOp op c = .error .countOverflow ∧ ¬ liveCount c.live.length [op] < 2 ^ 31) := by
  cases op with
  | alloc request newPages =>
    by_cases hrequest : request ≠ 0
    · have hlive : liveCount c.live.length [.alloc request newPages] = c.live.length + 1 :=
        if_pos hrequest
      rw [hlive]
      by_cases hlt : c.live.length + 1 < 2 ^ 31
      · obtain ⟨c', hstep, hinv, hlength, -⟩ := stepOp_alloc h hallowed hrequest hlt
        exact .inl ⟨c', hstep, hinv, hlength, by omega⟩
      · exact .inr ⟨stepOp_overflow h hallowed hrequest hlt, hlt⟩
    · have hzero := not_not.1 hrequest
      have hlive : liveCount c.live.length [.alloc request newPages] = c.live.length :=
        if_neg hrequest
      have hstep : stepOp (.alloc request newPages) c = .ok c := by
        rw [hzero]
        rfl
      exact .inl ⟨c, hstep, h, hlive.symm, hcount⟩
  | free v =>
    obtain ⟨c', hstep, hinv, hlength⟩ := stepOp_free h hallowed
    refine .inl ⟨c', hstep, hinv, hlength, ?_⟩
    rw [hlength]
    split_ifs <;> omega
  | write v levels next =>
    obtain ⟨c', hstep, hinv, hlength⟩ := stepOp_write h hallowed
    exact .inl ⟨c', hstep, hinv, hlength, by omega⟩

/-! ## Runs -/

theorem liveCount_cons (n : ℕ) (op : Op) (ops : List Op) :
    liveCount n (op :: ops) = liveCount (liveCount n [op]) ops := by
  cases op <;> rfl

theorem liveCount_le (n : ℕ) (ops : List Op) : liveCount n ops ≤ n + ops.length := by
  induction ops generalizing n with
  | nil => exact le_rfl
  | cons op ops ih =>
    rw [liveCount_cons, length_cons]
    have hone : liveCount n [op] ≤ n + 1 := by
      cases op <;> simp only [liveCount]
      · split_ifs <;> omega
      · split_ifs <;> omega
      · omega
    exact (ih _).trans (by omega)

/-- What holds before a call and after it and the calls behind it. -/
theorem forall_take_cons {P : List Op → Prop} (op : Op) (ops : List Op) :
    (∀ k, P ((op :: ops).take k)) ↔ P [] ∧ ∀ k, P (op :: ops.take k) := by
  constructor
  · exact fun h => ⟨h 0, fun k => h (k + 1)⟩
  · rintro ⟨h0, h⟩ k
    cases k with
    | zero => exact h0
    | succ k => exact h k

/-- A run goes well exactly if the count of live blocks always fits. -/
theorem run_iff (ops : List Op) : ∀ c, Inv c → c.live.length < 2 ^ 31 → Permitted ops c →
    ((∀ k, ∃ c', runOps (ops.take k) c = .ok c' ∧ ∃ F, Fine c' F) ↔
      ∀ k, liveCount c.live.length (ops.take k) < 2 ^ 31) := by
  induction ops with
  | nil =>
    intro c h hcount _
    refine iff_of_true (fun k => ⟨c, ?_, h.fine⟩) fun k => ?_
    · rw [take_nil]
      rfl
    · rwa [take_nil]
  | cons op ops ih =>
    intro c h hcount hpermitted
    rw [forall_take_cons (P := fun ops => ∃ c', runOps ops c = .ok c' ∧ ∃ F, Fine c' F),
      forall_take_cons (P := fun ops => liveCount c.live.length ops < 2 ^ 31)]
    have hnil : ∃ c', runOps [] c = .ok c' ∧ ∃ F, Fine c' F := ⟨c, rfl, h.fine⟩
    rw [and_iff_right hnil, and_iff_right (show liveCount c.live.length [] < 2 ^ 31 from hcount)]
    rcases stepOp_inv op h hpermitted.1 hcount with ⟨c1, hstep, hinv, hlength, hlt⟩ | ⟨hstep, hge⟩
    · refine Iff.trans (forall_congr' fun k => ?_) ((ih c1 hinv hlt (hpermitted.2 c1 hstep)).trans
        (forall_congr' fun k => ?_))
      · rw [runOps, hstep]
      · rw [liveCount_cons, hlength]
    · refine iff_of_false (fun hall => ?_) fun hall => hge (hall 0)
      obtain ⟨c', hrun, -⟩ := hall 0
      rw [runOps, hstep] at hrun
      cases hrun

/-- An arena is empty when it is made. -/
theorem inv_init (self : ℕ) {k : ℕ} (hk5 : 5 ≤ k) (hk : k ≤ 60) :
    Inv (Client.init self (2 ^ k)) := by
  have hlevel : ∀ i, level (Client.init self (2 ^ k)).arena ∅ i = ∅ := fun i =>
    Finset.filter_empty _
  refine ⟨⟨∅, ⟨⟨⟨⟨?_, ?_, ?_, ?_⟩, fun i => ?_, fun i _ p _ => ?_⟩, ?_, ⟨?_, ?_, fun x => ?_⟩, ?_,
    ?_, ?_, rfl⟩, ?_, ?_, ⟨⟨k, hk5, hk, rfl⟩, ?_⟩, rfl⟩⟩, nodup_nil, ?_⟩
  case refine_5 =>
    rw [hlevel]
    exact iff_of_false (Nat.not_lt_zero _) (by simp)
  case refine_6 =>
    exact fun x hx => absurd hx (Finset.notMem_empty x)
  case refine_10 =>
    refine iff_of_false ?_ ?_
    · rintro ⟨r, hr, -⟩
      cases hr
    · rintro ⟨a, ha, -⟩
      exact absurd ha (Finset.notMem_empty a)
  all_goals
    intro x hx
    exact absurd hx (by simp [Client.init, Arena.init, Client.blocks])

theorem reqRound_one : reqRound 1 = 64 := by
  rw [reqRound, show alignDown (1 + headerSize + (roundUpSize - 1)) roundUpSize =
    alignDown 64 (2 ^ 5) from rfl, alignDown_eq (by norm_num) (by norm_num)]
  norm_num

theorem pagesSize_one {s : Arena} (h : s.pagesize = 2 ^ 12) : pagesSize s 64 = 65536 := by
  rw [pagesSize, h, show 2 ^ 12 * 16 = 2 ^ 16 from rfl, alignDown_eq (by norm_num) (by norm_num)]
  norm_num

theorem allowed_one {j : ℕ} (hpage : c.arena.pagesize = 2 ^ 12) (hj : j < 2 ^ 31)
    (hmapped : ∀ x ∈ Mapped c.arena, x < 65536 * (j + 1)) :
    Allowed (.alloc 1 (65536 * (j + 1))) c := by
  intro _
  rw [reqRound_one, pagesSize_one hpage]
  refine ⟨⟨by norm_num [headerSize, roundUpSize], ?_, ?_⟩, by omega, ?_, by omega,
    fun x hx _ hmem => ?_⟩
  · rw [reqRound_one, hpage]
    norm_num
  · rw [reqRound_one]
    norm_num [minSize, roundUpSize]
  · rw [hpage]
    exact (show 2 ^ 12 ∣ 65536 by norm_num).mul_right _
  · have := hmapped x hmem
    omega

/-- No check fails, the pages are cut into blocks and each block has room for its request after
every call, if and only if at no point `2 ^ 31` blocks are allocated. -/
theorem run_fine_iff (self k : ℕ) (hk₅ : 5 ≤ k) (hk : k ≤ 60) (ops : List Op)
    (hpermitted : Permitted ops (Client.init self (2 ^ k))) :
    (∀ n, ∃ c, runOps (ops.take n) (Client.init self (2 ^ k)) = .ok c ∧ ∃ F, Fine c F) ↔
      ∀ n, liveCount 0 (ops.take n) < 2 ^ 31 :=
  run_iff ops _ (inv_init self hk₅ hk) (by norm_num [Client.init]) hpermitted

/-- Three blocks, of which the first two are freed. -/
def coalescing : List Op :=
  [.alloc 1 65536, .alloc 100 131072, .alloc 1 131072, .free (some 65568), .free (some 65632)]

/-- The blocks that were freed are one block. -/
theorem run_fine_coalescing : Permitted coalescing (Client.init 7 (2 ^ 12)) ∧
    (runOps coalescing (Client.init 7 (2 ^ 12))).toOption.map (sizes ·.arena 65536) = some 224 ∧
    ∀ n, ∃ c, runOps (coalescing.take n) (Client.init 7 (2 ^ 12)) = .ok c ∧ ∃ F, Fine c F := by
  have hpermitted : Permitted coalescing (Client.init 7 (2 ^ 12)) := by decide +kernel
  refine ⟨hpermitted, by decide +kernel,
    (run_fine_iff 7 12 (by norm_num) (by norm_num) _ hpermitted).2 fun n => ?_⟩
  have hcount := liveCount_le 0 (coalescing.take n)
  have hlength := (take_sublist n coalescing).length_le
  have : coalescing.length = 5 := rfl
  omega

/-! ## Overflow -/

/-- Allocations of one byte each, of which the number `k` may map the pages at `65536 * (k + 1)`. -/
def manyAllocs (j n : ℕ) : List Op := (range' j n).map fun k => .alloc 1 (65536 * (k + 1))

/-- The count overflows when `2 ^ 31` blocks are to be allocated. -/
theorem run_manyAllocs (n : ℕ) : ∀ j c, Inv c → c.arena.pagesize = 2 ^ 12 →
    c.live.length = j → (∀ x ∈ Mapped c.arena, x < 65536 * (j + 1)) → j + (n + 1) = 2 ^ 31 →
      Permitted (manyAllocs j (n + 1)) c ∧
      runOps (manyAllocs j (n + 1)) c = .error .countOverflow := by
  induction n with
  | zero =>
    intro j c h hpage hlength hmapped hsum
    have hallowed := allowed_one hpage (show j < 2 ^ 31 by omega) hmapped
    have hstep := stepOp_overflow h hallowed one_ne_zero (by omega)
    refine ⟨⟨hallowed, fun c' hc' => trivial⟩, ?_⟩
    change runOps [.alloc 1 (65536 * (j + 1))] c = _
    rw [runOps, hstep]
  | succ n ih =>
    intro j c h hpage hlength hmapped hsum
    have hallowed := allowed_one hpage (show j < 2 ^ 31 by omega) hmapped
    obtain ⟨c1, hstep, hinv, hlength1, hpage1, hmapped1⟩ :=
      stepOp_alloc h hallowed one_ne_zero (by omega)
    rw [reqRound_one, pagesSize_one hpage] at hmapped1
    have hbound : ∀ x ∈ Mapped c1.arena, x < 65536 * (j + 1 + 1) := by
      rintro x ⟨r, hr, hx⟩
      rcases hmapped1 with hmapped1 | hmapped1
      · rw [hmapped1] at hr
        have := hmapped x ⟨r, hr, hx⟩
        omega
      · rw [hmapped1] at hr
        rcases mem_cons.1 hr with rfl | hr
        · omega
        · have := hmapped x ⟨r, hr, hx⟩
          omega
    obtain ⟨hpermitted, hrun⟩ :=
      ih (j + 1) c1 hinv (hpage1.trans hpage) (by omega) hbound (by omega)
    have hcons : manyAllocs j (n + 1 + 1) =
        .alloc 1 (65536 * (j + 1)) :: manyAllocs (j + 1) (n + 1) := by
      unfold manyAllocs
      rw [range'_succ, map_cons]
    rw [hcons]
    refine ⟨⟨hallowed, fun c' hc' => ?_⟩, ?_⟩
    · rw [hstep] at hc'
      cases hc'
      exact hpermitted
    · rwa [runOps, hstep]

/-- `2 ^ 31` allocations overflow the count. -/
theorem run_countOverflow : Permitted (manyAllocs 0 (2 ^ 31)) (Client.init 7 (2 ^ 12)) ∧
    runOps (manyAllocs 0 (2 ^ 31)) (Client.init 7 (2 ^ 12)) = .error .countOverflow := by
  have hinv := inv_init 7 (show 5 ≤ 12 by norm_num) (show 12 ≤ 60 by norm_num)
  have hmapped : ∀ x ∈ Mapped (Client.init 7 (2 ^ 12)).arena, x < 65536 * (0 + 1) := by
    rintro x ⟨r, hr, -⟩
    cases hr
  exact run_manyAllocs (2 ^ 31 - 1) 0 _ hinv rfl rfl hmapped (by norm_num)

end Steps

end Abseil.LowLevelAlloc
