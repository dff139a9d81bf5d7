import Abseil.LinkedHash

/-!
# Moving linked containers with their allocators

`set_` and `list_` are moved one after the other, and each looks at the allocators by itself. With
allocators that are equal or propagate both take over what the other container had. If not, the hash
set moves its iterators, which lead to the nodes of the source, while the list moves the elements
into nodes of its own, and the nodes of the source are freed. The move with an allocator copies node
by node and leaves the source with elements that were moved from, under the keys they had.

Before it moves iterators the hash set runs its destructor and keeps its fields as they were, so a
backing array it had is freed and still in use. An entry of the hash set is a node with the key
under which it was put in. A move is right exactly under the conditions of `move_right_iff`.
-/

namespace Abseil.LinkedHash

open Function List

/-- A `linked_hash_map` or `linked_hash_set` with its allocator. A hash set without a backing array
(`heap`) has its only iterator in itself, and one whose destructor freed the array or destroyed the
iterator has `ended`. -/
structure Container (A K : Type*) where
  alloc : A
  set : List (ℕ × K)
  heap : Bool
  ended : Bool
  list : List ℕ

/-- The memory and two containers. -/
structure Moving (A K V : Type*) where
  mem : ℕ → Option V
  fresh : ℕ
  dst : Container A K
  src : Container A K

variable {A K V : Type*} (P : Policy K V) (movedFrom : V → V)

/-! ## The code -/

/-- The nodes of the list are freed. -/
def freeAll (mem : ℕ → Option V) (l : List ℕ) (n : ℕ) : Option V := if n ∈ l then none else mem n

/-- The assignment of `std::list` element by element : into the nodes there are, then into new
ones. -/
def assignList : List ℕ → List ℕ → (ℕ → Option V) → ℕ → List ℕ × (ℕ → Option V) × ℕ
  | own, [], mem, fresh => ([], freeAll mem own, fresh)
  | n :: own, m :: other, mem, fresh =>
    let r := assignList own other
      (update (update mem n (mem m)) m ((mem m).map movedFrom)) fresh
    (n :: r.1, r.2)
  | [], m :: other, mem, fresh =>
    let r := assignList [] other
      (update (update mem fresh (mem m)) m ((mem m).map movedFrom)) (fresh + 1)
    (fresh :: r.1, r.2)

/-- `insert` of an iterator into the hash set. -/
def insertEntry (set : List (ℕ × K)) (e : ℕ × K) : List (ℕ × K) :=
  if set.any fun e' => P.eq e'.2 e.2 then set else e :: set

/-- The iterators of the source, each under the key it leads to. -/
def entries (x : Moving A K V) : List (ℕ × K) :=
  x.src.set.filterMap fun e => (x.mem e.1).map fun v => (e.1, P.key v)

/-- The move assignment of the hash set. If it cannot take over the other one it runs
`destructor_impl`, for which iterators may be `trivial` to destroy, and inserts the iterators into
what its fields still say, after a `reserve`. An empty source leaves it at that. -/
def moveSet (trivial steal : Bool) (x : Moving A K V) : Moving A K V :=
  if steal then
    { x with
      dst := { x.dst with set := x.src.set, heap := x.src.heap, ended := false }
      src := { x.src with set := [], heap := false } }
  else
    let set := (entries P x).foldl (insertEntry P) x.dst.set
    { x with
      dst := { x.dst with
        set, heap := x.dst.heap || decide (1 < x.src.set.length) || decide (1 < set.length)
        ended := x.dst.heap || !(trivial || x.dst.set.isEmpty) }
      src := { x.src with set := [], heap := x.src.heap && x.src.set.isEmpty } }

/-- The move assignment of the list. -/
def moveList (steal : Bool) (x : Moving A K V) : Moving A K V :=
  if steal then
    { x with
      mem := freeAll x.mem x.dst.list, dst := { x.dst with list := x.src.list }
      src := { x.src with list := [] } }
  else
    let r := assignList movedFrom x.dst.list x.src.list x.mem x.fresh
    { x with mem := r.2.1, fresh := r.2.2, dst := { x.dst with list := r.1 } }

/-- `other.set_.clear()` and `other.list_.clear()`. -/
def clearSource (x : Moving A K V) : Moving A K V :=
  { x with mem := freeAll x.mem x.src.list, src := { x.src with set := [], list := [] } }

/-- The move assignment, with `propagate_on_container_move_assignment`. -/
def moveAssign [DecidableEq A] (trivial propagate : Bool) (x : Moving A K V) : Moving A K V :=
  let steal := propagate || decide (x.dst.alloc = x.src.alloc)
  let y := clearSource (moveList movedFrom steal (moveSet P trivial steal x))
  { y with dst := { y.dst with alloc := if propagate then x.src.alloc else x.dst.alloc } }

/-- One element of `CopyFrom` : moved into a new node, whose iterator goes into the hash set. -/
def copyNode (x : Moving A K V) (m : ℕ) (v : V) : Moving A K V :=
  let set := insertEntry P x.dst.set (x.fresh, P.key v)
  { x with
    mem := update (update x.mem x.fresh (some v)) m (some (movedFrom v))
    fresh := x.fresh + 1
    dst := { x.dst with
      set, heap := x.dst.heap || decide (1 < set.length), list := x.dst.list ++ [x.fresh] } }

/-- `CopyFrom(std::move(other))`, from a node of the other list on. -/
def copyFrom : List ℕ → Moving A K V → Moving A K V
  | [], x => x
  | m :: other, x =>
    match x.mem m with
    | none => x
    | some v => copyFrom other (copyNode P movedFrom x m v)

/-- The move constructor with an allocator, into the new container `dst`. -/
def moveConstruct [DecidableEq A] (trivial propagate : Bool) (x : Moving A K V) : Moving A K V :=
  if x.dst.alloc = x.src.alloc then moveAssign P movedFrom trivial propagate x
  else copyFrom P movedFrom x.src.list x

/-! ## What a move has to do -/

/-- The hash set can be used and has one iterator to each node of the list, under the key of the
node. -/
structure Agrees (mem : ℕ → Option V) (c : Container A K) : Prop where
  usable : c.ended = false
  perm : (c.set.map Prod.fst).Perm c.list
  nodup : c.list.Nodup
  key : ∀ e ∈ c.set, ∃ v, mem e.1 = some v ∧ P.eq (P.key v) e.2 = true

/-- Two containers that agree with their hash sets, with different nodes and keys. -/
structure Valid (x : Moving A K V) : Prop where
  dst : Agrees P x.mem x.dst
  src : Agrees P x.mem x.src
  inline : x.dst.heap = false → x.dst.set.length ≤ 1
  disjoint : ∀ n ∈ x.src.list, n ∉ x.dst.list
  fresh : ∀ n, n ∈ x.src.list ∨ n ∈ x.dst.list → n < x.fresh
  unique : x.src.list.Pairwise fun m n => ∀ u v, x.mem m = some u → x.mem n = some v →
    P.eq (P.key u) (P.key v) = false

/-- The new container has the former elements in order, and both agree. -/
structure Right (x y : Moving A K V) : Prop where
  elements : y.dst.list.map y.mem = x.src.list.map x.mem
  dst : Agrees P y.mem y.dst
  src : Agrees P y.mem y.src

/-- Two containers with one element each, under one key. -/
def OneKey (x : Moving A K V) : Prop :=
  ∃ m n u v, x.src.list = [m] ∧ x.dst.list = [n] ∧ x.mem m = some u ∧ x.mem n = some v ∧
    P.eq (P.key u) (P.key v) = true

variable {P movedFrom} {x : Moving A K V}

/-- The nodes of the list are not freed. -/
theorem Agrees.live {mem : ℕ → Option V} {c : Container A K} (h : Agrees P mem c) {n : ℕ}
    (hn : n ∈ c.list) : ∃ v, mem n = some v := by
  obtain ⟨e, he, rfl⟩ := mem_map.1 (h.perm.mem_iff.2 hn)
  obtain ⟨v, hv, -⟩ := h.key e he
  exact ⟨v, hv⟩

theorem Agrees.of_eq {mem mem' : ℕ → Option V} {c : Container A K} (h : Agrees P mem c)
    (heq : ∀ n ∈ c.list, mem' n = mem n) : Agrees P mem' c := by
  refine ⟨h.usable, h.perm, h.nodup, fun e he => ?_⟩
  rw [heq e.1 (h.perm.mem_iff.1 (mem_map_of_mem he))]
  exact h.key e he

theorem Agrees.empty (mem : ℕ → Option V) {c : Container A K} (hc : c.ended = false)
    (hset : c.set = []) (hlist : c.list = []) : Agrees P mem c :=
  ⟨hc, by rw [hset, hlist]; rfl, hlist ▸ .nil, fun e he => by simp [hset] at he⟩

/-! ## Move assignment -/

/-- The nodes after an assignment are the list's own or new. -/
theorem assignList_nodes : ∀ {own other : List ℕ} {mem : ℕ → Option V} {fresh n : ℕ},
    n ∈ (assignList movedFrom own other mem fresh).1 → n ∈ own ∨ fresh ≤ n
  | own, [], _, _, _, hn => absurd hn (by simp [assignList])
  | m :: own, _ :: other, _, _, n, hn => by
    rcases mem_cons.1 hn with rfl | hn
    · exact .inl mem_cons_self
    · exact (assignList_nodes hn).imp_left (mem_cons_of_mem m)
  | [], _ :: other, _, fresh, n, hn => by
    rcases mem_cons.1 hn with rfl | hn
    · exact .inr le_rfl
    · exact .inr ((Nat.le_succ fresh).trans ((assignList_nodes hn).resolve_left not_mem_nil))

theorem mem_insertEntries {e : ℕ × K} : ∀ {es set : List (ℕ × K)}, e ∈ set →
    e ∈ es.foldl (insertEntry P) set
  | [], _, he => he
  | e' :: es, entries, he => by
    show e ∈ es.foldl (insertEntry P) (insertEntry P entries e')
    refine mem_insertEntries ?_
    unfold insertEntry
    split_ifs
    · exact he
    · exact mem_cons_of_mem e' he

/-- Either one of the iterators goes in, or each finds its key there and nothing changes. -/
theorem insertEntries_cases : ∀ es set : List (ℕ × K),
    (∃ e ∈ es, e ∈ es.foldl (insertEntry P) set) ∨
      es.foldl (insertEntry P) set = set ∧ ∀ e ∈ es, ∃ e' ∈ set, P.eq e'.2 e.2 = true
  | [], _ => .inr ⟨rfl, nofun⟩
  | e :: es, old => by
    rw [foldl_cons, insertEntry]
    split_ifs with hany
    · refine (insertEntries_cases es old).imp (fun ⟨e', he', hin⟩ => ⟨e', .tail e he', hin⟩) ?_
      exact fun ⟨heq, hes⟩ => ⟨heq, forall_mem_cons.2 ⟨any_eq_true.1 hany, hes⟩⟩
    · exact .inl ⟨e, mem_cons_self, mem_insertEntries mem_cons_self⟩

theorem mem_entries (h : Valid P x) {m : ℕ} {v : V} (hm : m ∈ x.src.list) (hv : x.mem m = some v) :
    (m, P.key v) ∈ entries P x := by
  obtain ⟨e, he, rfl⟩ := mem_map.1 (h.src.perm.mem_iff.2 hm)
  exact mem_filterMap.2 ⟨e, he, by rw [hv]; rfl⟩

theorem mem_of_mem_entries (h : Valid P x) {e : ℕ × K} (he : e ∈ entries P x) :
    e.1 ∈ x.src.list := by
  obtain ⟨e', he', hmap⟩ := mem_filterMap.1 he
  obtain ⟨v, -, rfl⟩ := Option.map_eq_some_iff.1 hmap
  exact h.src.perm.mem_iff.1 (mem_map.2 ⟨e', he', rfl⟩)

section

variable [DecidableEq A] {trivial propagate : Bool}

/-- Stealing is right. -/
theorem moveAssign_right_of_steal (h : Valid P x)
    (hsteal : propagate = true ∨ x.dst.alloc = x.src.alloc) :
    Right P x (moveAssign P movedFrom trivial propagate x) := by
  have hs : (propagate || decide (x.dst.alloc = x.src.alloc)) = true := by
    simpa using hsteal
  unfold moveAssign
  rw [hs]
  have hkeep : ∀ n ∈ x.src.list, freeAll (freeAll x.mem x.dst.list) [] n = x.mem n := by
    intro n hn
    rw [freeAll, if_neg not_mem_nil, freeAll, if_neg (h.disjoint n hn)]
  exact ⟨map_congr_left hkeep, ⟨rfl, h.src.perm, h.src.nodup, (h.src.of_eq hkeep).key⟩,
    Agrees.empty _ h.src.usable rfl rfl⟩

section

variable (h : Valid P x) (hne : x.dst.alloc ≠ x.src.alloc)
include h hne

omit h in
theorem moveAssign_of_unequal : moveAssign P movedFrom trivial false x =
    clearSource (moveList movedFrom false (moveSet P trivial false x)) := by
  rw [moveAssign, decide_eq_false hne]
  rfl

/-- Empty containers are moved right. -/
theorem moveAssign_right_of_nil (hheap : x.dst.heap = false) (hsrc : x.src.list = [])
    (hdst : x.dst.list = []) : Right P x (moveAssign P movedFrom trivial false x) := by
  rw [moveAssign_of_unequal hne]
  have hs : x.src.set = [] := by simpa [hsrc] using h.src.perm
  have hd : x.dst.set = [] := by simpa [hdst] using h.dst.perm
  refine ⟨?_, Agrees.empty _ ?_ ?_ ?_, Agrees.empty _ h.src.usable rfl rfl⟩ <;>
  simp [moveSet, moveList, clearSource, entries, assignList, hheap, hsrc, hdst, hs, hd]

/-- The node of the only element gets the other one, which has its key. -/
theorem moveAssign_right_of_oneKey (hheap : x.dst.heap = false) (hone : OneKey P x) :
    Right P x (moveAssign P movedFrom true false x) := by
  rw [moveAssign_of_unequal hne]
  obtain ⟨m, n, u, v, hsrc, hdst, hu, hv, hkey⟩ := hone
  have hnm : n ≠ m := fun heq => h.disjoint m (by simp [hsrc]) (by simp [hdst, heq])
  obtain ⟨e, hset, rfl⟩ : ∃ e, x.dst.set = [e] ∧ e.1 = n := by
    simpa [hdst, map_eq_singleton_iff] using h.dst.perm
  obtain ⟨w, hw, hold⟩ := h.dst.key e (by simp [hset])
  obtain rfl : w = v := Option.some.inj (hw.symm.trans hv)
  -- the iterator of the source finds its key there
  have hin := P.trans _ _ _ hkey hold
  have hentries : (entries P x).foldl (insertEntry P) x.dst.set = [e] := by
    obtain ⟨e', hsrc', rfl⟩ : ∃ e', x.src.set = [e'] ∧ e'.1 = m := by
      simpa [hsrc, map_eq_singleton_iff] using h.src.perm
    simp [entries, hsrc', hu, insertEntry, hset, P.symm _ _ hin]
  refine ⟨?_, ⟨?_, ?_, ?_, ?_⟩, Agrees.empty _ h.src.usable rfl rfl⟩ <;>
  simp [moveSet, moveList, clearSource, assignList, freeAll, hheap, hsrc, hdst, hentries, hu, hnm,
    hin, update_of_ne]

/-- An assignment with different allocators. -/
theorem moveAssign_right_unequal_iff : Right P x (moveAssign P movedFrom trivial false x) ↔
    x.dst.heap = false ∧
      (x.src.list = [] ∧ x.dst.list = [] ∨ trivial = true ∧ OneKey P x) := by
  refine ⟨fun hright => ?_, ?_⟩
  · rw [moveAssign_of_unequal hne] at hright
    obtain ⟨helems, ⟨huse, hperm, -, -⟩, -⟩ := hright
    obtain ⟨hheap, hdestroy⟩ : x.dst.heap = false ∧ (x.dst.set ≠ [] → trivial = true) := by
      cases trivial <;> simpa [clearSource, moveList, moveSet] using huse
    rcases insertEntries_cases (P := P) (entries P x) x.dst.set with ⟨e, he, hin⟩ | ⟨hsame, hkeys⟩
    · -- the hash set has an iterator to a node of the source
      have hsrc := mem_of_mem_entries h he
      rcases assignList_nodes (hperm.mem_iff.1 (mem_map_of_mem hin)) with hown | hnew
      · exact absurd hown (h.disjoint e.1 hsrc)
      · exact absurd (h.fresh e.1 (.inl hsrc)) (not_lt.2 hnew)
    have hlen : x.src.list.length = x.dst.list.length := by
      have hmap := congrArg length helems
      rw [length_map, length_map, ← hperm.length_eq] at hmap
      rw [← hmap, ← h.dst.perm.length_eq]
      exact congrArg (fun l => (l.map Prod.fst).length) hsame
    have hle := h.inline hheap
    rw [← length_map Prod.fst, h.dst.perm.length_eq] at hle
    refine ⟨hheap, ?_⟩
    rcases hdst : x.dst.list with _ | ⟨n, _ | ⟨n', l⟩⟩
    · exact .inl ⟨by simpa [hdst] using hlen, rfl⟩
    · obtain ⟨m, hsrc⟩ := length_eq_one_iff.1 (hlen.trans (by simp [hdst]))
      obtain ⟨u, hu⟩ := h.src.live (n := m) (by simp [hsrc])
      obtain ⟨e, he, heq⟩ := hkeys _ (mem_entries h (by simp [hsrc]) hu)
      obtain ⟨v, hv, hkey⟩ := h.dst.key e he
      have hn : e.1 = n := by simpa [hdst] using h.dst.perm.mem_iff.1 (mem_map_of_mem he)
      exact .inr ⟨hdestroy (ne_nil_of_mem he), m, n, u, v, hsrc, hdst, hu, hn ▸ hv,
        P.symm _ _ (P.trans _ _ _ hkey heq)⟩
    · simp [hdst] at hle
  · rintro ⟨hheap, ⟨hsrc, hdst⟩ | ⟨rfl, hone⟩⟩
    · exact moveAssign_right_of_nil h hne hheap hsrc hdst
    · exact moveAssign_right_of_oneKey h hne hheap hone

end

end

/-! ## The constructor -/

/-- What the loop of `CopyFrom` has done : the nodes `done` have a copy each, and `left` are to
come. -/
structure Copied (P : Policy K V) (movedFrom : V → V) (x y : Moving A K V) (done left : List ℕ) :
    Prop where
  split : x.src.list = done ++ left
  src : y.src = x.src
  fresh : x.fresh ≤ y.fresh
  elements : y.dst.list.map y.mem = done.map x.mem
  agrees : Agrees P y.mem y.dst
  new : ∀ n ∈ y.dst.list, x.fresh ≤ n ∧ n < y.fresh
  gone : ∀ m ∈ done, y.mem m = (x.mem m).map movedFrom
  kept : ∀ m ∈ left, y.mem m = x.mem m
  keys : ∀ e ∈ y.dst.set, ∃ m ∈ done, ∃ u, x.mem m = some u ∧ e.2 = P.key u

/-- No copy has the key of an element that is still to come. -/
theorem Copied.absent (h : Valid P x) {y : Moving A K V} {done left : List ℕ} {v : V}
    (hc : Copied P movedFrom x y done (m :: left)) (hv : x.mem m = some v) :
    (y.dst.set.any fun e => P.eq e.2 (P.key v)) = false := by
  refine Bool.eq_false_iff.2 fun hany => ?_
  obtain ⟨e, he, heq⟩ := any_eq_true.1 hany
  obtain ⟨m', hm', u, hu, hkey⟩ := hc.keys e he
  have hpair := h.unique
  rw [hc.split] at hpair
  have := (pairwise_append.1 hpair).2.2 m' hm' m mem_cons_self u v hu hv
  rw [← hkey, heq] at this
  cases this

/-- One more element is copied. -/
theorem Copied.step (h : Valid P x) {y : Moving A K V} {done left : List ℕ} {v : V}
    (hc : Copied P movedFrom x y done (m :: left)) (hv : x.mem m = some v) :
    Copied P movedFrom x (copyNode P movedFrom y m v) (done ++ [m]) left := by
  have hm : m ∈ x.src.list := by rw [hc.split]; simp
  have hlt : ∀ n ∈ x.src.list, n < y.fresh := fun n hn =>
    (h.fresh n (.inl hn)).trans_le hc.fresh
  obtain ⟨-, hnd, hdone⟩ := nodup_append.1 (hc.split ▸ h.src.nodup)
  set z := copyNode P movedFrom y m v
  have hset : z.dst.set = (y.fresh, P.key v) :: y.dst.set := by
    simp [z, copyNode, insertEntry, hc.absent h hv]
  -- the memory changes at the new node and at the one moved from
  have hmem : ∀ n, n ≠ m → n ≠ y.fresh → z.mem n = y.mem n :=
    fun n h1 h2 => (update_of_ne h1 _ _).trans (update_of_ne h2 _ _)
  have hnew : z.mem y.fresh = some v :=
    (update_of_ne (hlt m hm).ne' _ _).trans (update_self ..)
  have hold : ∀ n ∈ y.dst.list, z.mem n = y.mem n := fun n hn =>
    hmem n (fun heq => absurd (h.fresh m (.inl hm)) (not_lt.2 (heq ▸ (hc.new n hn).1)))
      (hc.new n hn).2.ne
  have hsrc : ∀ n ∈ x.src.list, n ≠ m → z.mem n = y.mem n :=
    fun n hn hne => hmem n hne (hlt n hn).ne
  refine ⟨by rw [hc.split]; simp, hc.src, hc.fresh.trans (Nat.le_succ _), ?_,
    ⟨hc.agrees.usable, ?_, ?_, ?_⟩, ?_, ?_, ?_, ?_⟩
  · have hlist : z.dst.list = y.dst.list ++ [y.fresh] := rfl
    rw [hlist, map_append, map_append, map_congr_left hold, hc.elements]
    simp [hnew, hv]
  · rw [hset]
    exact (hc.agrees.perm.cons y.fresh).trans (perm_append_singleton _ _).symm
  · refine nodup_append.2 ⟨hc.agrees.nodup, nodup_singleton _, fun a ha b hb heq => ?_⟩
    rw [mem_singleton.1 hb] at heq
    exact (hc.new a ha).2.ne heq
  · intro e he
    rw [hset] at he
    rcases mem_cons.1 he with rfl | he
    · exact ⟨v, hnew, P.refl _⟩
    · rw [hold e.1 (hc.agrees.perm.mem_iff.1 (mem_map_of_mem he))]
      exact hc.agrees.key e he
  · intro n hn
    rcases mem_append.1 hn with hn | hn
    · exact ⟨(hc.new n hn).1, (hc.new n hn).2.trans (Nat.lt_succ_self _)⟩
    · rw [mem_singleton.1 hn]
      exact ⟨hc.fresh, Nat.lt_succ_self _⟩
  · intro n hn
    rcases mem_append.1 hn with hn | hn
    · rw [hsrc n (by rw [hc.split]; simp [hn]) (hdone n hn m mem_cons_self), hc.gone n hn]
    · rw [mem_singleton.1 hn, hv]
      exact update_self ..
  · intro n hn
    have hne : n ≠ m := fun heq => (nodup_cons.1 hnd).1 (heq ▸ hn)
    rw [hsrc n (by rw [hc.split]; simp [hn]) hne]
    exact hc.kept n (mem_cons_of_mem m hn)
  · intro e he
    rw [hset] at he
    rcases mem_cons.1 he with rfl | he
    · exact ⟨m, by simp, v, hv, rfl⟩
    · obtain ⟨m', hm', hrest⟩ := hc.keys e he
      exact ⟨m', by simp [hm'], hrest⟩

/-- All elements are copied. -/
theorem Copied.run (h : Valid P x) : ∀ {left done : List ℕ} {y : Moving A K V},
    Copied P movedFrom x y done left →
      Copied P movedFrom x (copyFrom P movedFrom left y) x.src.list []
  | [], done, y, hc => by
    have hdone : done = x.src.list := by simpa using hc.split.symm
    rwa [← hdone]
  | m :: left, done, y, hc => by
    obtain ⟨v, hv⟩ := h.src.live (n := m) (by rw [hc.split]; simp)
    rw [copyFrom, (hc.kept m mem_cons_self).trans hv]
    exact (hc.step h hv).run h

/-- With another allocator the elements are copied one by one. -/
theorem moveConstruct_copied [DecidableEq A] (h : Valid P x) (hnil : x.dst.list = [])
    (hne : x.dst.alloc ≠ x.src.alloc) (trivial propagate : Bool) :
    Copied P movedFrom x (moveConstruct P movedFrom trivial propagate x) x.src.list [] := by
  have hset : x.dst.set = [] := by simpa [hnil] using h.dst.perm
  rw [moveConstruct, if_neg hne]
  have hstart : Copied P movedFrom x x [] x.src.list :=
    ⟨rfl, rfl, le_rfl, by simp [hnil], h.dst, by simp [hnil], by simp, fun m _ => rfl,
      by simp [hset]⟩
  exact hstart.run h

/-- **Moving with allocators.** The move assignment is right exactly if the allocators propagate or
are equal, or if the hash set of the destination has no backing array and both containers are empty
or each has one element, with equal keys, and an iterator is trivial to destroy. The move
constructor with an allocator is right exactly if the allocators are equal or moving from an element
leaves its key as it is. -/
theorem move_right_iff [DecidableEq A] (h : Valid P x) (trivial propagate : Bool) :
    (Right P x (moveAssign P movedFrom trivial propagate x) ↔
        propagate = true ∨ x.dst.alloc = x.src.alloc ∨ x.dst.heap = false ∧
          (x.src.list = [] ∧ x.dst.list = [] ∨ trivial = true ∧ OneKey P x)) ∧
      (x.dst.list = [] → (Right P x (moveConstruct P movedFrom trivial propagate x) ↔
        x.dst.alloc = x.src.alloc ∨
          ∀ m ∈ x.src.list, ∀ v, x.mem m = some v →
            P.eq (P.key (movedFrom v)) (P.key v) = true)) := by
  refine ⟨?_, fun hnil => ?_⟩
  · by_cases hsteal : propagate = true ∨ x.dst.alloc = x.src.alloc
    · rw [← or_assoc]
      exact iff_of_true (moveAssign_right_of_steal h hsteal) (.inl hsteal)
    · obtain ⟨hp, hne⟩ := not_or.1 hsteal
      rw [Bool.eq_false_iff.2 hp, moveAssign_right_unequal_iff h hne]
      simp [hne]
  rcases eq_or_ne x.dst.alloc x.src.alloc with heq | hne
  · rw [moveConstruct, if_pos heq]
    exact iff_of_true (moveAssign_right_of_steal h (.inr heq)) (.inl heq)
  have hc : Copied P movedFrom x (moveConstruct P movedFrom trivial propagate x) x.src.list [] :=
    moveConstruct_copied h hnil hne trivial propagate
  -- the nodes of the source hold what is left of their elements, under the keys they had
  refine ⟨fun hright => .inr fun m hm v hv => ?_, fun hkeys => ⟨hc.elements, hc.agrees, ?_⟩⟩
  · obtain ⟨e, he, rfl⟩ := mem_map.1 (h.src.perm.mem_iff.2 hm)
    obtain ⟨u, hu, hkey⟩ := hright.src.key e (by rw [hc.src]; exact he)
    obtain ⟨v', hv', hold⟩ := h.src.key e he
    rw [hc.gone e.1 hm, hv, Option.map_some, Option.some.injEq] at hu
    rw [hv, Option.some.injEq] at hv'
    subst hu hv'
    exact P.trans _ _ _ hkey (P.symm _ _ hold)
  · rw [hc.src]
    refine ⟨h.src.usable, h.src.perm, h.src.nodup, fun e he => ?_⟩
    have hm := h.src.perm.mem_iff.1 (mem_map_of_mem he)
    obtain ⟨v, hv, hold⟩ := h.src.key e he
    refine ⟨movedFrom v, by rw [hc.gone e.1 hm, hv, Option.map_some], ?_⟩
    exact P.trans _ _ _ ((hkeys.resolve_left hne) e.1 hm v hv) hold

/-- A container with two elements, and a new one with another allocator. -/
def unequalPair : Moving ℕ ℕ (ℕ × ℕ) where
  mem := fun n => [some (5, 7), some (6, 8)][n]?.join
  fresh := 2
  dst := ⟨0, [], false, false, []⟩
  src := ⟨1, [(1, 6), (0, 5)], true, false, [0, 1]⟩

theorem unequalPair_valid : Valid pairs unequalPair where
  dst := .empty _ rfl rfl rfl
  src := ⟨rfl, by decide, by decide, by simp [unequalPair, pairs]⟩
  inline := by decide
  disjoint := fun n _ => not_mem_nil
  fresh := by simp [unequalPair]
  unique := by simp +contextual [unequalPair, pairs, eq_comm]

theorem move_right_unequalPair :
    Right pairs unequalPair (moveAssign pairs id true true unequalPair) ∧
      Right pairs unequalPair (moveConstruct pairs id true false unequalPair) :=
  ⟨(move_right_iff unequalPair_valid true true).1.2 (.inl rfl),
    ((move_right_iff unequalPair_valid true false).2 rfl).2 (.inr fun _ _ _ _ => pairs.refl _)⟩

/-- The move assignment leaves iterators to freed nodes, or from an empty container a hash set with
a freed array, and the constructor with an allocator an iterator under a key that its node does not
have any more. -/
theorem unequalPair_dangles :
    ((moveAssign pairs id true false unequalPair).dst.set = [(0, 5), (1, 6)] ∧
      (moveAssign pairs id true false unequalPair).dst.list = [2, 3] ∧
      (moveAssign pairs id true false unequalPair).mem 0 = none) ∧
    (moveAssign pairs id true false { unequalPair with
      dst := ⟨0, [], true, false, []⟩, src := ⟨1, [], false, false, []⟩ }).dst.ended = true ∧
    (moveConstruct pairs (fun v => (0, v.2)) true false unequalPair).src.set = [(1, 6), (0, 5)] ∧
      (moveConstruct pairs (fun v => (0, v.2)) true false unequalPair).mem 1 = some (0, 8) :=
  ⟨⟨rfl, rfl, rfl⟩, rfl, rfl, rfl⟩

end Abseil.LinkedHash
