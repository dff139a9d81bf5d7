import Abseil.GraphCycles

/-!
# Identifiers of graph nodes

A run of `GetId` and `RemoveNode`, with a log of the ids given out. A lifetime of a pointer is
numbered by the calls of `RemoveNode` for it. The version of a slot only grows, so an id of a
past lifetime is older than its slot (`Inv.past`) : it is found no more, and no later id is equal
to it. This rests on `RemoveNode` bumping the version, which it does not do at the largest
version.
-/

namespace Abseil.GraphCycles

open Function List Option

/-- The calls that change which nodes there are. -/
inductive IdOp where
  | getId (p : ℕ)
  | removeNode (p : ℕ)

/-- An id, the pointer it was given out for, and the lifetime of the pointer. -/
structure Issue where
  id : ℕ
  ptr : ℕ
  life : ℕ

/-- The state of a run : the graph, how often each pointer was removed, and the log. -/
structure Trace where
  rep : Rep
  removals : ℕ → ℕ
  log : List Issue

namespace Trace

/-- The empty graph. -/
def init : Trace := ⟨GraphCycles.init, fun _ => 0, []⟩

/-- A call, with an entry for a new identifier. -/
def step (t : Trace) : IdOp → Option Trace
  | .getId p => (getId t.rep p).map fun x => ⟨x.2, t.removals, ⟨x.1, p, t.removals p⟩ :: t.log⟩
  | .removeNode p =>
    some ⟨removeNode t.rep p, update t.removals p (t.removals p + 1), t.log⟩

/-- The calls one after another. -/
def run : Trace → List IdOp → Option Trace
  | t, [] => some t
  | t, op :: ops => (t.step op).bind fun t => run t ops

/-- What a step asks of the state : room for a new slot, and a version that can be bumped. -/
def Fits (t : Trace) : IdOp → Prop
  | .getId p => t.rep.ptrmap p = none → t.rep.freeNodes = [] → t.rep.nodes.length < 2 ^ 31
  | .removeNode p => ∀ i n, t.rep.ptrmap p = some i → t.rep.nodes[i]? = some n →
    n.version < 2 ^ 32 - 1

/-- Every step of a run is one that fits. -/
def FittingRun : Trace → List IdOp → Prop
  | _, [] => True
  | t, op :: ops => t.Fits op ∧ ∀ t', t.step op = some t' → FittingRun t' ops

/-- The ids of a current lifetime name their pointer, those of a past one name nothing, and
different lifetimes have different ids. -/
structure Valid (t : Trace) : Prop where
  current : ∀ e ∈ t.log, e.life = t.removals e.ptr →
    hasNode t.rep e.id = true ∧ ptr t.rep e.id = e.ptr
  past : ∀ e ∈ t.log, e.life < t.removals e.ptr →
    hasNode t.rep e.id = false ∧ ptr t.rep e.id = 0
  life : ∀ e ∈ t.log, e.life ≤ t.removals e.ptr
  unique : ∀ e ∈ t.log, ∀ e' ∈ t.log, (e.ptr, e.life) ≠ (e'.ptr, e'.life) → e.id ≠ e'.id

end Trace

open Trace

/-! ## Slots -/

theorem nodeIndex_makeId (i v : ℕ) (hi : i < 2 ^ 32) : nodeIndex (makeId i v) = i := by
  unfold nodeIndex makeId
  omega

theorem nodeVersion_makeId (i v : ℕ) : nodeVersion (makeId i v) = v := by
  unfold nodeVersion makeId
  omega

theorem map_modify {β : Type} (g : Node → β) (f : Node → Node) (hg : ∀ n, g (f n) = g n)
    (nodes : List Node) (i : ℕ) : (nodes.modify i f).map g = nodes.map g := by
  refine ext_getElem? fun j => ?_
  rw [getElem?_map, getElem?_map, getElem?_modify]
  rcases nodes[j]? with _ | n
  · rfl
  · by_cases hij : i = j
    · simp [hij, hg]
    · simp [hij]

variable (v : ℕ) (f : ℕ → ℕ)

theorem le_update_succ (p q : ℕ) : f q ≤ update f p (f p + 1) q := by
  by_cases hqp : q = p
  · rw [hqp, update_self]
    exact Nat.le_succ _
  · rw [update_of_ne hqp]

theorem map_foldl_modify {β : Type} (g : Node → β) (f : Node → Node) (hg : ∀ n, g (f n) = g n) :
    ∀ (ys : List ℕ) (nodes : List Node),
    (ys.foldl (fun ns y => ns.modify y f) nodes).map g = nodes.map g
  | [], _ => rfl
  | y :: ys, nodes => by
    rw [foldl_cons, map_foldl_modify g f hg ys, map_modify g f hg]

variable (log : List Issue) (nodes : List Node)

theorem length_removeEdges (i : ℕ) (x : Node) : (removeEdges nodes i x).length = nodes.length := by
  have h : ∀ (f : Node → Node) (ys : List ℕ) (ns : List Node),
      (ys.foldl (fun ns y => ns.modify y f) ns).length = ns.length := fun f ys ns => by
    have := congrArg length (map_foldl_modify (fun _ => ()) f (fun _ => rfl) ys ns)
    rwa [length_map, length_map] at this
  unfold removeEdges
  rw [length_modify, h, h]

/-- What `RemoveNode` leaves of a slot, as far as ids go. -/
theorem removeEdges_getElem? (i : ℕ) (x : Node) (j : ℕ) :
    ((removeEdges nodes i x)[j]?).map (fun n => (n.version, n.ptr))
      = (nodes[j]?).map fun n => (n.version, if i = j then 0 else n.ptr) := by
  let es := x.ins.foldl (fun ns y => ns.modify y fun n => { n with outs := erase n.outs i })
    (x.outs.foldl (fun ns y => ns.modify y fun n => { n with ins := erase n.ins i }) nodes)
  have hes : es.map (fun n => (n.version, n.ptr)) = nodes.map fun n => (n.version, n.ptr) := by
    rw [map_foldl_modify _ (fun n => { n with outs := erase n.outs i }) (fun _ => rfl),
      map_foldl_modify _ (fun n => { n with ins := erase n.ins i }) (fun _ => rfl)]
  have hj := congrArg (fun l => l[j]?) hes
  simp only [getElem?_map] at hj
  change ((es.modify i _)[j]?).map _ = _
  rw [getElem?_modify]
  rcases hn : nodes[j]? with _ | n
  · rw [hn] at hj
    rcases he : es[j]? with _ | e
    · rfl
    · rw [he] at hj
      cases hj
  rw [hn] at hj
  rcases he : es[j]? with _ | e
  · rw [he] at hj
    cases hj
  rw [he] at hj
  obtain ⟨hv, hp⟩ := Prod.mk.inj (some.inj hj)
  by_cases hij : i = j
  · simp [hij, hv]
  · simp [hij, hv, hp]

/-! ## The invariant -/

/-- The slots of live pointers and of the free list, and what the log says about them. -/
structure Inv (t : Trace) : Prop where
  live : ∀ p i, t.rep.ptrmap p = some i → ∃ n, t.rep.nodes[i]? = some n ∧ n.ptr = p
  free : ∀ i ∈ t.rep.freeNodes, i < t.rep.nodes.length ∧ ∀ p, t.rep.ptrmap p ≠ some i
  nodup : t.rep.freeNodes.Nodup
  size : t.rep.nodes.length ≤ 2 ^ 31
  life : ∀ e ∈ t.log, e.life ≤ t.removals e.ptr
  current : ∀ e ∈ t.log, e.life = t.removals e.ptr → ∃ i n, t.rep.ptrmap e.ptr = some i ∧
    t.rep.nodes[i]? = some n ∧ e.id = makeId i n.version
  past : ∀ e ∈ t.log, e.life < t.removals e.ptr → ∃ n, t.rep.nodes[nodeIndex e.id]? = some n ∧
    nodeVersion e.id < n.version
  unique : ∀ e ∈ t.log, ∀ e' ∈ t.log, e.id = e'.id ↔ e.ptr = e'.ptr ∧ e.life = e'.life

theorem inv_init : Inv Trace.init where
  live _ i h := absurd h.symm (some_ne_none i)
  free _ hi := absurd hi not_mem_nil
  nodup := nodup_nil
  size := Nat.zero_le _
  life _ he := absurd he not_mem_nil
  current _ he := absurd he not_mem_nil
  past _ he := absurd he not_mem_nil
  unique _ he := absurd he not_mem_nil

namespace Inv

variable {t : Trace} {i : ℕ} {n : Node}

theorem index_lt (I : Inv t) (hn : t.rep.nodes[i]? = some n) : i < 2 ^ 32 := by
  have hlt := (List.getElem?_eq_some_iff.1 hn).1
  have := I.size
  omega

/-- An id of the log is the one a slot would give out now only if its lifetime is current. -/
theorem ptr_eq_of_id (I : Inv t) {e : Issue} (he : e ∈ t.log) (hn : t.rep.nodes[i]? = some n)
    (hid : e.id = makeId i n.version) :
    e.life = t.removals e.ptr ∧ t.rep.ptrmap e.ptr = some i := by
  have hi := I.index_lt hn
  rcases Nat.eq_or_lt_of_le (I.life e he) with heq | hlt
  · obtain ⟨j, m, hj, hm, hid'⟩ := I.current e he heq
    have hij : i = j := by
      rw [← nodeIndex_makeId i n.version hi, ← hid, hid', nodeIndex_makeId j _ (I.index_lt hm)]
    exact ⟨heq, by rw [hj, hij]⟩
  · obtain ⟨m, hm, hv⟩ := I.past e he hlt
    rw [hid, nodeIndex_makeId i _ hi, hn] at hm
    rw [hid, nodeVersion_makeId, ← some.inj hm] at hv
    exact absurd hv (Nat.lt_irrefl _)

variable {p : ℕ}

/-- Giving out the id of a live pointer. -/
theorem issue (I : Inv t) (hp : t.rep.ptrmap p = some i) (hn : t.rep.nodes[i]? = some n) :
    Inv ⟨t.rep, t.removals, ⟨makeId i n.version, p, t.removals p⟩ :: t.log⟩ := by
  obtain ⟨m, hm, hmp⟩ := I.live p i hp
  obtain rfl : n = m := some.inj (hn.symm.trans hm)
  have hnew : ∀ e ∈ t.log, e.id = makeId i n.version ↔ e.ptr = p ∧ e.life = t.removals p := by
    refine fun e he => ⟨fun hid => ?_, fun ⟨hptr, hlife⟩ => ?_⟩
    · obtain ⟨hlife, hmap⟩ := I.ptr_eq_of_id he hn hid
      obtain ⟨m', hm', hmp'⟩ := I.live _ _ hmap
      rw [← some.inj (hn.symm.trans hm'), hmp] at hmp'
      exact ⟨hmp'.symm, by rw [hlife, ← hmp']⟩
    · obtain ⟨j, m', hj, hm', hid⟩ := I.current e he (by rw [hlife, hptr])
      rw [hptr, hp] at hj
      obtain rfl := some.inj hj
      rw [hid, some.inj (hn.symm.trans hm')]
  refine ⟨I.live, I.free, I.nodup, I.size, forall_mem_cons.2 ⟨le_rfl, I.life⟩,
    forall_mem_cons.2 ⟨fun _ => ⟨i, n, hp, hn, rfl⟩, I.current⟩,
    forall_mem_cons.2 ⟨fun hl => absurd hl (Nat.lt_irrefl _), I.past⟩,
    forall_mem_cons.2 ⟨forall_mem_cons.2 ⟨iff_of_true rfl ⟨rfl, rfl⟩, fun e' he' => ?_⟩,
      fun e he => forall_mem_cons.2 ⟨hnew e he, I.unique e he⟩⟩⟩
  rw [eq_comm, hnew e' he', eq_comm, @eq_comm _ e'.life]

/-- A pointer gets a slot : a slot that was in no use, whose version the log knows as before. -/
theorem occupy (I : Inv t) {r : Rep} (hp : t.rep.ptrmap p = none)
    (hmap : r.ptrmap = update t.rep.ptrmap p (some i))
    (hunused : ∀ q, t.rep.ptrmap q ≠ some i) (hnode : ∃ n, r.nodes[i]? = some n ∧ n.ptr = p)
    (hother : ∀ j ≠ i, ∀ n, t.rep.nodes[j]? = some n → r.nodes[j]? = some n)
    (hversion : ∀ n, t.rep.nodes[i]? = some n → ∃ m, r.nodes[i]? = some m ∧ m.version = n.version)
    (hfree : ∀ j ∈ r.freeNodes, j ∈ t.rep.freeNodes ∧ j ≠ i) (hnodup : r.freeNodes.Nodup)
    (hle : t.rep.nodes.length ≤ r.nodes.length) (hsize : r.nodes.length ≤ 2 ^ 31) :
    Inv ⟨r, t.removals, t.log⟩ := by
  have hne : ∀ q, q ≠ p → r.ptrmap q = t.rep.ptrmap q := fun q hq => by
    rw [hmap, update_of_ne hq]
  refine ⟨fun q j hq => ?_, fun j hj => ?_, hnodup, hsize, I.life, fun e he hl => ?_,
    fun e he hl => ?_, I.unique⟩
  · by_cases hqp : q = p
    · rw [hqp, hmap, update_self] at hq
      rwa [← some.inj hq, hqp]
    · rw [hne q hqp] at hq
      obtain ⟨n, hn, hnq⟩ := I.live q j hq
      exact ⟨n, hother j (fun hji => hunused q (hji ▸ hq)) n hn, hnq⟩
  · obtain ⟨hmem, hji⟩ := hfree j hj
    obtain ⟨hlt, hno⟩ := I.free j hmem
    refine ⟨lt_of_lt_of_le hlt hle, fun q hq => ?_⟩
    by_cases hqp : q = p
    · rw [hqp, hmap, update_self] at hq
      exact hji (some.inj hq).symm
    · rw [hne q hqp] at hq
      exact hno q hq
  · obtain ⟨j, n, hj, hn, hid⟩ := I.current e he hl
    have hep : e.ptr ≠ p := fun hep => by
      rw [hep, hp] at hj
      cases hj
    exact ⟨j, n, (hne _ hep).trans hj, hother j (fun hji => hunused _ (hji ▸ hj)) n hn, hid⟩
  · obtain ⟨n, hn, hv⟩ := I.past e he hl
    by_cases hi : nodeIndex e.id = i
    · rw [hi] at hn
      obtain ⟨m, hm, hmv⟩ := hversion n hn
      exact ⟨m, by rw [hi]; exact hm, hmv ▸ hv⟩
    · exact ⟨n, hother _ hi n hn, hv⟩

theorem step_getId (I : Inv t) (hf : t.Fits (.getId p)) :
    ∃ t', t.step (.getId p) = some t' ∧ Inv t' := by
  rw [step, getId]
  rcases hp : t.rep.ptrmap p with _ | i
  · rcases eq_nil_or_concat t.rep.freeNodes with hfree | ⟨free, i, hfree⟩
    · -- a new slot
      have hlen := hf hp hfree
      rw [hfree]
      refine ⟨_, congrArg _ (if_neg (Nat.ne_of_lt hlen)), ?_⟩
      let n : Node := ⟨t.rep.nodes.length, 1, false, p, [], []⟩
      have hn : (t.rep.nodes ++ [n])[t.rep.nodes.length]? = some n := getElem?_concat_length
      have J : Inv ⟨⟨t.rep.nodes ++ [n], [],
          update t.rep.ptrmap p (some t.rep.nodes.length)⟩, t.removals, t.log⟩ := by
        refine I.occupy hp rfl (fun q hq => ?_) ⟨n, hn, rfl⟩ (fun j _ m hm => ?_)
          (fun m hm => ?_) (fun j hj => ?_) nodup_nil (by simp) (by simp; omega)
        · obtain ⟨m, hm, -⟩ := I.live q _ hq
          exact absurd (List.getElem?_eq_some_iff.1 hm).1 (Nat.lt_irrefl _)
        · exact (List.getElem?_append_left (List.getElem?_eq_some_iff.1 hm).1).trans hm
        · exact absurd (List.getElem?_eq_some_iff.1 hm).1 (Nat.lt_irrefl _)
        · cases hj
      exact Inv.issue (n := n) J (update_self ..) hn
    -- a slot of the free list
    rw [concat_eq_append] at hfree
    have hmem : i ∈ t.rep.freeNodes := by
      rw [hfree]
      exact mem_append_right _ (mem_singleton_self i)
    obtain ⟨hlt, hno⟩ := I.free i hmem
    have hn : t.rep.nodes[i]? = some t.rep.nodes[i] := getElem?_eq_getElem hlt
    have hnd := I.nodup
    rw [hfree, nodup_append] at hnd
    rw [hfree, getLast?_concat]
    dsimp only
    rw [hn]
    refine ⟨_, rfl, ?_⟩
    let n : Node := { t.rep.nodes[i] with ptr := p }
    have hn' : (t.rep.nodes.modify i fun n => { n with ptr := p })[i]? = some n := by
      rw [getElem?_modify, hn]
      simp [n]
    have J : Inv ⟨⟨t.rep.nodes.modify i fun n => { n with ptr := p }, free,
        update t.rep.ptrmap p (some i)⟩, t.removals, t.log⟩ := by
      refine I.occupy hp rfl hno ⟨n, hn', rfl⟩ (fun j hj m hm => ?_) (fun m hm => ?_)
        (fun j hj => ?_) hnd.1 (by simp) (by simpa using I.size)
      · rw [getElem?_modify, hm]
        simp [Ne.symm hj]
      · exact ⟨n, hn', by rw [← some.inj (hn.symm.trans hm)]⟩
      · rw [hfree]
        exact ⟨mem_append_left _ hj, hnd.2.2 j hj i (mem_singleton_self i)⟩
    rw [dropLast_concat]
    exact Inv.issue (n := n) J (update_self ..) hn'
  · -- the pointer is live
    obtain ⟨n, hn, -⟩ := I.live p i hp
    dsimp only
    rw [hn]
    exact ⟨_, rfl, I.issue hp hn⟩

/-- Removing a pointer that is not live. -/
theorem removeAbsent (I : Inv t) (hp : t.rep.ptrmap p = none) :
    Inv ⟨t.rep, update t.removals p (t.removals p + 1), t.log⟩ := by
  have hpast : ∀ e ∈ t.log, e.ptr = p → e.life < t.removals p := by
    intro e he hep
    refine lt_of_le_of_ne (hep ▸ I.life e he) fun hl => ?_
    obtain ⟨j, n, hj, -⟩ := I.current e he (by rw [hl, hep])
    rw [hep, hp] at hj
    cases hj
  refine ⟨I.live, I.free, I.nodup, I.size, fun e he => ?_, fun e he hl => ?_, fun e he hl => ?_,
    I.unique⟩
  · exact (I.life e he).trans (le_update_succ t.removals p e.ptr)
  · by_cases hep : e.ptr = p
    · have := hpast e he hep
      dsimp only at hl
      rw [hep, update_self] at hl
      omega
    · dsimp only at hl
      rw [update_of_ne hep] at hl
      exact I.current e he hl
  · by_cases hep : e.ptr = p
    · exact I.past e he (hep ▸ hpast e he hep)
    · dsimp only at hl
      rw [update_of_ne hep] at hl
      exact I.past e he hl

/-- Removing a live pointer : its slot is free, and its version is a new one. -/
theorem removeLive (I : Inv t) {x : Node} {nodes : List Node} (hp : t.rep.ptrmap p = some i)
    (hx : t.rep.nodes[i]? = some x) (hlen : nodes.length = t.rep.nodes.length)
    (hnodes : ∀ j n, t.rep.nodes[j]? = some n → ∃ m, nodes[j]? = some m ∧
      (j ≠ i → m.version = n.version ∧ m.ptr = n.ptr) ∧ (j = i → m.version = n.version + 1)) :
    Inv ⟨⟨nodes, t.rep.freeNodes ++ [i], update t.rep.ptrmap p none⟩,
      update t.removals p (t.removals p + 1), t.log⟩ := by
  have hxp : x.ptr = p := by
    obtain ⟨m, hm, hmp⟩ := I.live p i hp
    rw [some.inj (hx.symm.trans hm), hmp]
  have hslot : ∀ q j, update t.rep.ptrmap p none q = some j →
      q ≠ p ∧ t.rep.ptrmap q = some j ∧ j ≠ i := by
    intro q j hq
    have hqp : q ≠ p := fun hqp => by
      rw [hqp, update_self] at hq
      cases hq
    rw [update_of_ne hqp] at hq
    refine ⟨hqp, hq, fun hji => hqp ?_⟩
    obtain ⟨m, hm, hmq⟩ := I.live q j hq
    rw [hji] at hm
    rw [← hmq, ← hxp, some.inj (hm.symm.trans hx)]
  refine ⟨fun q j hq => ?_, fun j hj => ?_, ?_, hlen ▸ I.size, fun e he => ?_,
    fun e he hl => ?_, fun e he hl => ?_, I.unique⟩
  · obtain ⟨-, hq, hji⟩ := hslot q j hq
    obtain ⟨n, hn, hnq⟩ := I.live q j hq
    obtain ⟨m, hm, hsame, -⟩ := hnodes j n hn
    exact ⟨m, hm, (hsame hji).2.trans hnq⟩
  · rw [hlen]
    rcases mem_append.1 hj with hj | hj
    · obtain ⟨hlt, hno⟩ := I.free j hj
      exact ⟨hlt, fun q hq => hno q (hslot q j hq).2.1⟩
    · rw [mem_singleton.1 hj]
      exact ⟨(List.getElem?_eq_some_iff.1 hx).1, fun q hq => (hslot q i hq).2.2 rfl⟩
  · refine nodup_append.2 ⟨I.nodup, nodup_singleton i, fun j hj k hk => ?_⟩
    rw [mem_singleton.1 hk]
    exact fun hji => (I.free j hj).2 p (hji ▸ hp)
  · exact (I.life e he).trans (le_update_succ t.removals p e.ptr)
  · have hep : e.ptr ≠ p := fun hep => by
      have := I.life e he
      dsimp only at hl
      rw [hep, update_self] at hl
      rw [hep] at this
      omega
    dsimp only at hl
    rw [update_of_ne hep] at hl
    obtain ⟨j, n, hj, hn, hid⟩ := I.current e he hl
    have hj' : update t.rep.ptrmap p none e.ptr = some j := by
      rw [update_of_ne hep, hj]
    obtain ⟨m, hm, hsame, -⟩ := hnodes j n hn
    exact ⟨j, m, hj', hm, by rw [hid, (hsame (hslot _ _ hj').2.2).1]⟩
  -- an id of the lifetime that ends here has the version of the slot before the bump
  have hold : ∃ n, t.rep.nodes[nodeIndex e.id]? = some n ∧
      (nodeVersion e.id < n.version ∨ nodeIndex e.id = i ∧ nodeVersion e.id = n.version) := by
    rcases Nat.eq_or_lt_of_le (I.life e he) with heq | hlt
    · have hep : e.ptr = p := by_contra fun hep => by
        dsimp only at hl
        rw [update_of_ne hep] at hl
        omega
      obtain ⟨j, n, hj, hn, hid⟩ := I.current e he heq
      rw [hep, hp] at hj
      obtain rfl := some.inj hj
      rw [hid, nodeIndex_makeId i _ (I.index_lt hn), nodeVersion_makeId]
      exact ⟨n, hn, .inr ⟨rfl, rfl⟩⟩
    · obtain ⟨n, hn, hv⟩ := I.past e he hlt
      exact ⟨n, hn, .inl hv⟩
  obtain ⟨n, hn, hv⟩ := hold
  obtain ⟨m, hm, hsame, hbump⟩ := hnodes _ n hn
  refine ⟨m, hm, ?_⟩
  by_cases hi : nodeIndex e.id = i
  · omega
  · omega

theorem step_removeNode (I : Inv t) (hf : t.Fits (.removeNode p)) :
    ∃ t', t.step (.removeNode p) = some t' ∧ Inv t' := by
  refine ⟨_, rfl, ?_⟩
  rw [removeNode]
  rcases hp : t.rep.ptrmap p with _ | i
  · exact I.removeAbsent hp
  obtain ⟨x, hx, -⟩ := I.live p i hp
  dsimp only
  rw [hx]
  dsimp only
  rw [if_neg (ne_of_lt (hf i x hp hx))]
  refine I.removeLive hp hx ?_ fun j n hn => ?_
  · rw [length_modify, length_removeEdges]
  have he := removeEdges_getElem? t.rep.nodes i x j
  rw [hn] at he
  rcases hm : (removeEdges t.rep.nodes i x)[j]? with _ | m
  · rw [hm] at he
    cases he
  rw [hm] at he
  obtain ⟨hv, hptr⟩ := Prod.mk.inj (some.inj he)
  rw [getElem?_modify, hm]
  by_cases hij : i = j
  · exact ⟨_, rfl, fun h => absurd hij.symm h, fun _ => by simp [hij, hv]⟩
  · exact ⟨_, rfl, fun _ => by simp [hij, hv, hptr], fun h => absurd h.symm hij⟩

/-- The step lemma. -/
theorem step (I : Inv t) {op : IdOp} (hf : t.Fits op) : ∃ t', t.step op = some t' ∧ Inv t' := by
  rcases op with p | p
  · exact I.step_getId hf
  · exact I.step_removeNode hf

/-- The run lemma. -/
theorem run : ∀ {t : Trace} {ops : List IdOp}, Inv t → t.FittingRun ops →
    ∃ t', t.run ops = some t' ∧ Inv t'
  | t, [], I, _ => ⟨t, rfl, I⟩
  | t, op :: ops, I, hfit => by
    obtain ⟨t1, h1, I1⟩ := I.step hfit.1
    obtain ⟨t', h', I'⟩ := I1.run (hfit.2 t1 h1)
    exact ⟨t', by rw [Trace.run, h1]; exact h', I'⟩

theorem valid (I : Inv t) : t.Valid where
  current e he hl := by
    obtain ⟨i, n, hi, hn, hid⟩ := I.current e he hl
    obtain ⟨m, hm, hmp⟩ := I.live _ _ hi
    have hfind : findNode t.rep e.id = some n := by
      rw [findNode, hid, nodeIndex_makeId i _ (I.index_lt hn), hn, nodeVersion_makeId]
      exact if_pos rfl
    rw [hasNode, ptr, hfind]
    exact ⟨rfl, by rw [← hmp, some.inj (hn.symm.trans hm)]⟩
  past e he hl := by
    obtain ⟨n, hn, hv⟩ := I.past e he hl
    have hfind : findNode t.rep e.id = none := by
      rw [findNode, hn]
      exact if_neg (ne_of_gt hv)
    rw [hasNode, ptr, hfind]
    exact ⟨rfl, rfl⟩
  life := I.life
  unique e he e' he' hne hid := by
    obtain ⟨hp, hl⟩ := (I.unique e he e' he').1 hid
    exact hne (by rw [hp, hl])

end Inv

/-! ## Whole runs -/

/-- As long as versions can be bumped and slots can be added, a run gives every call its answer,
and the ids in its log are valid. -/
theorem graphIds_valid (ops : List IdOp) (h : Trace.init.FittingRun ops) :
    ∃ t, Trace.init.run ops = some t ∧ t.Valid := by
  obtain ⟨t, ht, I⟩ := inv_init.run h
  exact ⟨t, ht, I.valid⟩

/-- The slot of one pointer is used again for another one. -/
theorem graphIds_valid_recycled :
    ∃ t, Trace.init.run [.getId 5, .removeNode 5, .getId 7] = some t ∧ t.Valid := by
  refine graphIds_valid _ ⟨fun _ _ => Nat.two_pow_pos 31, ?_⟩
  rintro _ ⟨⟩
  refine ⟨fun i n hi hn => ?_, ?_⟩
  · obtain rfl : 0 = i := some.inj hi
    rw [← some.inj hn]
    exact Nat.lt_of_sub_pos (by norm_num)
  · rintro _ ⟨⟩
    exact ⟨fun _ h => absurd h (cons_ne_nil _ _), fun _ _ => trivial⟩

/-! ## The last version

A slot is worn out by one pointer that comes and goes. -/

theorem Trace.run_append : ∀ (t : Trace) (a b : List IdOp),
    t.run (a ++ b) = (t.run a).bind fun t => t.run b
  | _, [], _ => rfl
  | t, op :: a, b => by
    rw [cons_append, run, run]
    rcases t.step op with _ | t'
    · rfl
    · exact run_append t' a b

/-- One free slot at version `v`. -/
def worn (v : ℕ) : Rep := ⟨[⟨0, v, false, 0, [], []⟩], [0], fun _ => none⟩

/-- A lifetime of pointer `5`. -/
def lifetime : List IdOp := [.getId 5, .removeNode 5]

theorem run_lifetime (hv : v < 2 ^ 32 - 1) :
    run ⟨worn v, f, log⟩ lifetime
      = some ⟨worn (v + 1), update f 5 (f 5 + 1), ⟨makeId 0 v, 5, f 5⟩ :: log⟩ := by
  have hne : v ≠ 4294967295 := by omega
  simp [lifetime, run, step, getId, removeNode, removeEdges, worn, hne]

theorem run_lifetimes : ∀ (n v : ℕ) (f : ℕ → ℕ) log, v + n ≤ 2 ^ 32 - 1 →
    ∃ f' log', run ⟨worn v, f, log⟩ (replicate n lifetime).flatten = some ⟨worn (v + n), f', log'⟩
  | 0, v, f, log, _ => ⟨f, log, rfl⟩
  | n + 1, v, f, log, h => by
    obtain ⟨f', log', hrun⟩ := run_lifetimes n (v + 1) _
      (⟨makeId 0 v, 5, f 5⟩ :: log) (by omega)
    refine ⟨f', log', ?_⟩
    rwa [replicate_succ, flatten_cons, run_append,
      run_lifetime v f log (by omega), show v + (n + 1) = v + 1 + n by omega]

/-- The first lifetime adds the slot. -/
theorem run_first_lifetime : Trace.init.run lifetime
    = some ⟨worn 2, update (fun _ => 0) 5 1, [⟨makeId 0 1, 5, 0⟩]⟩ := by
  simp [lifetime, Trace.run, Trace.step, Trace.init, init, getId, removeNode, removeEdges, worn]

/-- At the last version `RemoveNode` leaves the version as it is. -/
theorem run_last_lifetime :
    run ⟨worn (2 ^ 32 - 1), f, log⟩ lifetime
      = some ⟨⟨[⟨0, 2 ^ 32 - 1, false, 0, [], []⟩], [], fun _ => none⟩,
        update f 5 (f 5 + 1), ⟨makeId 0 (2 ^ 32 - 1), 5, f 5⟩ :: log⟩ := by
  simp [lifetime, run, step, getId, removeNode, removeEdges, worn]

/-- After `2 ^ 32 - 1` lifetimes the last id is still found. -/
theorem graphIds_last_version : ∃ ops t, Trace.init.run ops = some t ∧ ∃ e ∈ t.log,
    e.life < t.removals e.ptr ∧ hasNode t.rep e.id = true := by
  obtain ⟨f, log, hrun⟩ := run_lifetimes (2 ^ 32 - 3) 2 (update (fun _ => 0) 5 1)
    [⟨makeId 0 1, 5, 0⟩] (by norm_num)
  refine ⟨lifetime ++ ((replicate (2 ^ 32 - 3) lifetime).flatten ++ lifetime),
    ⟨⟨[⟨0, 2 ^ 32 - 1, false, 0, [], []⟩], [], fun _ => none⟩, update f 5 (f 5 + 1),
      ⟨makeId 0 (2 ^ 32 - 1), 5, f 5⟩ :: log⟩, ?_, _, mem_cons_self, ?_, ?_⟩
  · rw [Trace.run_append, run_first_lifetime, bind_some, Trace.run_append, hrun]
    exact run_last_lifetime f log
  · exact (Nat.lt_succ_self (f 5)).trans_eq (update_self 5 (f 5 + 1) f).symm
  · rw [hasNode, findNode, nodeIndex_makeId 0 _ (by norm_num), nodeVersion_makeId]
    rfl

end Abseil.GraphCycles
