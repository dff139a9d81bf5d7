import Mathlib.Tactic

/-!
# `linked_hash_map` : elements that change maps

A map has a list of nodes, in the order of their insertion, and a hash set of iterators to them that
hashes and compares through the iterators. Nodes are named by their addresses, and the memory says
what is in them. A look in the hash set may follow any of its iterators, so it is an error (`none`)
when one of them leads to a node that was freed.

`merge`, `splice` and `insert(extract(it))` move nodes from map to map. `merge` and the last one
lose nothing. `splice` hands the node to `insert` and drops what `insert` hands back, so it keeps
the element exactly if its key is not in the map, or the map is its own (`transfer_keeps_iff`).
-/

namespace Abseil.LinkedHash

open Function List

/-- The key of an element, and the equality of keys. Each map of the source has a `key_equal` object
of its own; here all maps share one, as they do if the objects have no state. -/
structure Policy (K V : Type*) where
  key : V → K
  eq : K → K → Bool
  refl : ∀ a, eq a a = true
  symm : ∀ a b, eq a b = true → eq b a = true
  trans : ∀ a b c, eq a b = true → eq b c = true → eq a c = true

/-- `set_`, as the nodes its iterators lead to, and `list_`. -/
structure Linked where
  set : List ℕ
  list : List ℕ

/-- The nodes that are not freed, with their elements, and the maps. -/
structure World (V : Type*) where
  mem : ℕ → Option V
  maps : ℕ → Linked

variable {K V : Type*} (P : Policy K V)

/-! ## The code -/

namespace World

variable (w : World V)

/-- A map is overwritten. -/
def setMap (c : ℕ) (t : Linked) : World V := { w with maps := update w.maps c t }

/-- The node leaves the map. -/
def unlink (s n : ℕ) : World V := w.setMap s ⟨(w.maps s).set.erase n, (w.maps s).list.erase n⟩

/-- The node goes to the end of the map. -/
def link (d n : ℕ) : World V := w.setMap d ⟨n :: (w.maps d).set, (w.maps d).list ++ [n]⟩

/-- The node has an element with the key. -/
def holdsKey (k : K) (n : ℕ) : Bool := (w.mem n).any fun v => P.eq (P.key v) k

/-- `set_.find`. -/
def find (c : ℕ) (k : K) : Option (Option ℕ) :=
  if (w.maps c).set.all fun n => (w.mem n).isSome then
    some ((w.maps c).set.find? (w.holdsKey P k))
  else none

/-- `extract`, with the node handle it returns. -/
def extract (s n : ℕ) : Option (World V × List ℕ) :=
  (w.mem n).bind fun v => (w.find P s (P.key v)).map fun found =>
    (w.setMap s ⟨found.elim (w.maps s).set (w.maps s).set.erase, (w.maps s).list.erase n⟩, [n])

/-- `insert` of a node handle, with the node handle it returns. -/
def insertNode (d : ℕ) : List ℕ → Option (World V × List ℕ)
  | [] => some (w, [])
  | n :: node =>
    (w.mem n).bind fun v => (w.find P d (P.key v)).map fun found =>
      match found with
      | some _ => (w, n :: node)
      | none => (w.setMap d ⟨n :: (w.maps d).set, (w.maps d).list ++ n :: node⟩, [])

/-- `insert(src.extract(it))`. -/
def transfer (d s n : ℕ) : Option (World V × List ℕ) :=
  (w.extract P s n).bind fun r => r.1.insertNode P d r.2

/-- The end of a node handle. -/
def dropNode (node : List ℕ) : World V :=
  { w with mem := fun n => if n ∈ node then none else w.mem n }

/-- The loop of `merge`, over the nodes from `itr` on. -/
def mergeLoop (d s : ℕ) : List ℕ → World V → Option (World V)
  | [], w => some w
  | n :: itr, w =>
    (w.mem n).bind fun v => (w.find P d (P.key v)).bind fun found =>
      match found with
      | some _ => mergeLoop d s itr w
      | none => (w.transfer P d s n).bind fun r => mergeLoop d s itr (r.1.dropNode r.2)

/-- `merge`. -/
def merge (d s : ℕ) : Option (World V) := mergeLoop P d s (w.maps s).list w

/-- `splice`. -/
def splice (d s n : ℕ) : Option (World V) :=
  if s = d then
    some (w.setMap d ⟨(w.maps d).set, (w.maps d).list.erase n ++ [n]⟩)
  else (w.transfer P d s n).map fun r => r.1.dropNode r.2

end World

open World

/-! ## Maps that agree with their hash sets -/

/-- Each hash set has one iterator to each node of its list, no two nodes of a map have equal keys,
and no two maps share a node. -/
structure Inv (w : World V) : Prop where
  perm : ∀ c, (w.maps c).set.Perm (w.maps c).list
  nodup : ∀ c, (w.maps c).list.Nodup
  live : ∀ c, ∀ n ∈ (w.maps c).list, (w.mem n).isSome = true
  unique : ∀ c, ∀ m ∈ (w.maps c).list, ∀ n ∈ (w.maps c).list, ∀ v, w.mem m = some v →
    w.holdsKey P (P.key v) n = true → m = n
  disjoint : ∀ c d, c ≠ d → ∀ n ∈ (w.maps c).list, n ∉ (w.maps d).list

variable {P} {w : World V} {c d s n : ℕ} {v : V}

theorem setMap_self (w : World V) (c : ℕ) (t : Linked) : (w.setMap c t).maps c = t :=
  update_self ..

theorem setMap_ne (w : World V) {c d : ℕ} (h : d ≠ c) (t : Linked) :
    (w.setMap c t).maps d = w.maps d := update_of_ne h ..

theorem unlink_self : (w.unlink c n).maps c = ⟨(w.maps c).set.erase n, (w.maps c).list.erase n⟩ :=
  setMap_self ..

theorem unlink_ne (h : d ≠ c) : (w.unlink c n).maps d = w.maps d := setMap_ne w h _

theorem link_self : (w.link c n).maps c = ⟨n :: (w.maps c).set, (w.maps c).list ++ [n]⟩ :=
  setMap_self ..

theorem link_ne (h : d ≠ c) : (w.link c n).maps d = w.maps d := setMap_ne w h _

theorem holdsKey_self (hn : w.mem n = some v) : w.holdsKey P (P.key v) n = true := by
  rw [holdsKey, hn]
  exact P.refl _

/-- The look for a key in a map that agrees. -/
theorem Inv.find (h : Inv P w) (c : ℕ) (k : K) :
    ∃ r, w.find P c k = some r ∧ (∀ n, r = some n → n ∈ (w.maps c).list ∧ w.holdsKey P k n) ∧
      (r = none → ∀ n ∈ (w.maps c).list, w.holdsKey P k n = false) := by
  have hall := all_eq_true.2 fun n hn => h.live c n ((h.perm c).mem_iff.1 hn)
  refine ⟨_, if_pos hall, fun n hn => ?_, fun hnone n hn => ?_⟩
  · exact ⟨(h.perm c).mem_iff.1 (mem_of_find?_eq_some hn), find?_some hn⟩
  · simpa using find?_eq_none.1 hnone n ((h.perm c).mem_iff.2 hn)

/-- The node of a key is found. -/
theorem Inv.find_mem (h : Inv P w) (hn : n ∈ (w.maps c).list) (hv : w.mem n = some v) :
    w.find P c (P.key v) = some (some n) := by
  obtain ⟨r, hr, hsome, hnone⟩ := h.find c _
  cases r with
  | none =>
    have := hnone rfl n hn
    rw [holdsKey_self hv] at this
    cases this
  | some m =>
    obtain ⟨hm, hkey⟩ := hsome m rfl
    rw [hr, h.unique c n hn m hm v hv hkey]

/-- A node leaves its map. -/
theorem Inv.remove (h : Inv P w) (s n : ℕ) : Inv P (w.unlink s n) := by
  set w' := w.unlink s n
  have hsub : ∀ c, (w'.maps c).list.Sublist (w.maps c).list := by
    intro c
    rcases eq_or_ne c s with rfl | hne
    · rw [unlink_self]
      exact erase_sublist
    · rw [unlink_ne hne]
  refine ⟨fun c => ?_, fun c => (h.nodup c).sublist (hsub c),
    fun c m hm => h.live c m ((hsub c).subset hm),
    fun c m hm m' hm' => h.unique c m ((hsub c).subset hm) m' ((hsub c).subset hm'),
    fun c d hne m hm hm' => h.disjoint c d hne m ((hsub c).subset hm) ((hsub d).subset hm')⟩
  rcases eq_or_ne c s with rfl | hne
  · rw [unlink_self]
    exact (h.perm c).erase n
  · rw [unlink_ne hne]
    exact h.perm c

/-- A node comes to a map that does not have its key. -/
theorem Inv.add (h : Inv P w) (hv : w.mem n = some v) (hfree : ∀ c, n ∉ (w.maps c).list)
    (hnew : ∀ m ∈ (w.maps d).list, w.holdsKey P (P.key v) m = false) : Inv P (w.link d n) := by
  set w' := w.link d n
  have hself : w'.maps d = ⟨n :: (w.maps d).set, (w.maps d).list ++ [n]⟩ := link_self
  have hne : ∀ c, c ≠ d → w'.maps c = w.maps c := fun c hc => link_ne hc
  have hmem : ∀ c m, m ∈ (w'.maps c).list → m ∈ (w.maps c).list ∨ (c = d ∧ m = n) := by
    intro c m hm
    rcases eq_or_ne c d with rfl | hc
    · rw [hself] at hm
      exact (mem_append.1 hm).imp_right fun hm => ⟨rfl, mem_singleton.1 hm⟩
    · rw [hne c hc] at hm
      exact .inl hm
  -- an equal key would be that of an old node
  have hold : ∀ m ∈ (w.maps d).list, ∀ u, w.mem m = some u →
      w.holdsKey P (P.key u) n = false := by
    intro m hm u hu
    have hnot := hnew m hm
    rw [holdsKey, hu] at hnot
    rw [holdsKey, hv]
    exact Bool.eq_false_iff.2 fun heq => Bool.false_ne_true (hnot.symm.trans (P.symm _ _ heq))
  refine ⟨fun c => ?_, fun c => ?_, fun c m hm => ?_, fun c m hm m' hm' u hu hkey => ?_,
    fun c c' hcc m hm hm' => ?_⟩
  · rcases eq_or_ne c d with rfl | hc
    · rw [hself]
      exact ((h.perm c).cons n).trans (perm_append_singleton n _).symm
    · rw [hne c hc]
      exact h.perm c
  · rcases eq_or_ne c d with rfl | hc
    · rw [hself]
      exact nodup_append.2 ⟨h.nodup c, nodup_singleton n, fun a ha b hb heq =>
        hfree c (mem_singleton.1 hb ▸ heq ▸ ha)⟩
    · rw [hne c hc]
      exact h.nodup c
  · rcases hmem c m hm with hm | ⟨-, rfl⟩
    · exact h.live c m hm
    · exact Option.isSome_iff_exists.2 ⟨v, hv⟩
  · rcases hmem c m hm with h1 | ⟨hc, h1⟩ <;> rcases hmem c m' hm' with h2 | ⟨hd, h2⟩
    · exact h.unique c m h1 m' h2 u hu hkey
    · rw [h2] at hkey
      exact absurd ((hold m (hd ▸ h1) u hu).symm.trans hkey) Bool.false_ne_true
    · obtain rfl : v = u := Option.some.inj (hv.symm.trans (h1 ▸ hu))
      exact absurd ((hnew m' (hc ▸ h2)).symm.trans hkey) Bool.false_ne_true
    · rw [h1, h2]
  · rcases hmem c m hm with h1 | ⟨hc, h1⟩ <;> rcases hmem c' m hm' with h2 | ⟨hd, h2⟩
    · exact h.disjoint c c' hcc m h1 h2
    · exact hfree c (h2 ▸ h1)
    · exact hfree c' (h1 ▸ h2)
    · exact hcc (hc.trans hd.symm)

/-! ## One element -/

/-- A node that is in the map is taken out. -/
theorem Inv.extract (h : Inv P w) (hn : n ∈ (w.maps s).list) :
    w.extract P s n = some (w.unlink s n, [n]) := by
  obtain ⟨v, hv⟩ := Option.isSome_iff_exists.1 (h.live s n hn)
  rw [World.extract, hv, Option.bind_some, h.find_mem hn hv]
  rfl

/-- The map does not have the key of the element. -/
def Absent (P : Policy K V) (w : World V) (d n : ℕ) : Prop :=
  ∀ v, w.mem n = some v → ∀ m ∈ (w.maps d).list, w.holdsKey P (P.key v) m = false

/-- The maps after `n` has gone from `s` to the end of `d`. -/
def moved (w : World V) (d s n : ℕ) : World V := (w.unlink s n).link d n

/-- A node that was taken out is in no map. -/
theorem Inv.not_mem_remove (h : Inv P w) (hn : n ∈ (w.maps s).list) (c : ℕ) :
    n ∉ ((w.unlink s n).maps c).list := by
  rcases eq_or_ne c s with rfl | hne
  · rw [unlink_self]
    exact (h.nodup c).not_mem_erase
  · rw [unlink_ne hne]
    exact h.disjoint s c hne.symm n hn

/-- `insert(src.extract(it))` moves the element, or hands it back. -/
theorem Inv.transfer (h : Inv P w) (hn : n ∈ (w.maps s).list) :
    (d = s ∨ Absent P w d n → w.transfer P d s n = some (moved w d s n, []) ∧
      Inv P (moved w d s n)) ∧
    (d ≠ s → ¬Absent P w d n → w.transfer P d s n = some (w.unlink s n, [n])) := by
  obtain ⟨v, hv⟩ := Option.isSome_iff_exists.1 (h.live s n hn)
  set w1 := w.unlink s n
  have h1 : Inv P w1 := h.remove s n
  obtain ⟨r, hr, hsome, hnone⟩ := h1.find d _
  have hcode : w.transfer P d s n = w1.insertNode P d [n] := by
    rw [World.transfer, h.extract hn, Option.bind_some]
  rw [insertNode, show w1.mem n = some v from hv, Option.bind_some, hr] at hcode
  have hlist : d ≠ s → (w1.maps d).list = (w.maps d).list := fun hne => by
    rw [unlink_ne hne]
  constructor
  · intro hcase
    have hnew : ∀ m ∈ (w1.maps d).list, w1.holdsKey P (P.key v) m = false := by
      intro m hm
      rcases eq_or_ne d s with rfl | hne
      · -- the other nodes of its own map have other keys
        rw [unlink_self] at hm
        have hm' := (h.nodup d).mem_erase_iff.1 hm
        exact Bool.eq_false_iff.2 fun hkey => hm'.1 (h.unique d n hn m hm'.2 v hv hkey).symm
      · rw [hlist hne] at hm
        exact hcase.resolve_left hne v hv m hm
    cases r with
    | none => exact ⟨hcode, h1.add hv (h.not_mem_remove hn) hnew⟩
    | some m =>
      obtain ⟨hm, hkey⟩ := hsome m rfl
      exact absurd ((hnew m hm).symm.trans hkey) Bool.false_ne_true
  · intro hne habs
    cases r with
    | some m => exact hcode
    | none =>
      refine absurd (fun u hu m hm => ?_) habs
      obtain rfl : v = u := Option.some.inj (hv.symm.trans hu)
      exact hnone rfl m (by rw [hlist hne]; exact hm)

/-! ## Merging -/

section Merge

variable {itr : List ℕ}

theorem moved_maps_self (hne : d ≠ s) : (moved w d s n).maps d =
    ⟨n :: (w.maps d).set, (w.maps d).list ++ [n]⟩ := by
  rw [moved, link_self, unlink_ne hne]

theorem moved_maps_source (hne : d ≠ s) : (moved w d s n).maps s =
    ⟨(w.maps s).set.erase n, (w.maps s).list.erase n⟩ := by
  rw [moved, link_ne hne.symm, unlink_self]

theorem dropNode_nil (w : World V) : w.dropNode [] = w := by
  simp [dropNode]

open Classical in
/-- The loop moves the elements whose keys the map does not have, in their order. -/
theorem Inv.mergeLoop (hne : d ≠ s) : ∀ {itr : List ℕ} {w : World V}, Inv P w → itr.Nodup →
    (∀ n ∈ itr, n ∈ (w.maps s).list) → ∃ w', mergeLoop P d s itr w = some w' ∧ Inv P w' ∧
      w'.mem = w.mem ∧ (∀ c, c ≠ d → c ≠ s → w'.maps c = w.maps c) ∧
      (w'.maps d).list = (w.maps d).list ++ itr.filter (Absent P w d ·) ∧
      (w'.maps s).list = (w.maps s).list.filter fun n => n ∉ itr ∨ ¬Absent P w d n
  | [], w, h, _, _ => ⟨w, rfl, h, rfl, fun _ _ _ => rfl, by simp, by simp⟩
  | n :: itr, w, h, hnd, hmem => by
    obtain ⟨hnot, hnd'⟩ := nodup_cons.1 hnd
    have hn := hmem n mem_cons_self
    obtain ⟨v, hv⟩ := Option.isSome_iff_exists.1 (h.live s n hn)
    obtain ⟨r, hr, hsome, hnone⟩ := h.find d _
    rw [World.mergeLoop, hv, Option.bind_some, hr, Option.bind_some]
    cases r with
    | some m =>
      have habs : ¬Absent P w d n := by
        intro habs
        obtain ⟨hm, hkey⟩ := hsome m rfl
        exact Bool.false_ne_true ((habs v hv m hm).symm.trans hkey)
      obtain ⟨w', hw', hI, hmem', hother, hd, hs⟩ :=
        Inv.mergeLoop hne h hnd' fun m hm => hmem m (mem_cons_of_mem n hm)
      refine ⟨w', hw', hI, hmem', hother, ?_, ?_⟩
      · rw [hd, filter_cons_of_neg (by simpa using habs)]
      · rw [hs]
        refine filter_congr fun m _ => ?_
        rcases eq_or_ne m n with rfl | hmn
        · simp [hnot, habs]
        · simp [hmn]
    | none =>
      have habs : Absent P w d n := by
        intro u hu m hm
        obtain rfl : v = u := Option.some.inj (hv.symm.trans hu)
        exact hnone rfl m hm
      obtain ⟨htr, hI⟩ := (h.transfer hn).1 (.inr habs)
      rw [htr, Option.bind_some, dropNode_nil]
      -- the nodes that are left do not have the key of the one that moved
      have habs' : ∀ m ∈ (w.maps s).list, m ≠ n →
          (Absent P (moved w d s n) d m ↔ Absent P w d m) := by
        intro m hm hmn
        unfold Absent
        rw [moved_maps_self hne]
        refine forall₂_congr fun u hu => ?_
        have hother := Bool.eq_false_iff.2 fun hkey => hmn (h.unique s m hm n hn u hu hkey)
        have hmem : ∀ x, (moved w d s n).holdsKey P (P.key u) x = w.holdsKey P (P.key u) x :=
          fun _ => rfl
        simp only [hmem, mem_append, mem_singleton]
        refine ⟨fun hall x hx => hall x (.inl hx), fun hall x hx => ?_⟩
        rcases hx with hx | rfl
        · exact hall x hx
        · exact hother
      have hitr : ∀ m ∈ itr, m ∈ (w.maps s).list ∧ m ≠ n := fun m hm =>
        ⟨hmem m (mem_cons_of_mem n hm), fun heq => hnot (heq ▸ hm)⟩
      have hleft : ∀ m ∈ itr, m ∈ ((moved w d s n).maps s).list := by
        intro m hm
        rw [moved_maps_source hne]
        exact (h.nodup s).mem_erase_iff.2 ⟨(hitr m hm).2, (hitr m hm).1⟩
      obtain ⟨w', hw', hI', hmem', hother, hd, hs⟩ := Inv.mergeLoop hne hI hnd' hleft
      refine ⟨w', hw', hI', hmem', fun c hcd hcs => ?_, ?_, ?_⟩
      · rw [hother c hcd hcs, moved, link_ne hcd, unlink_ne hcs]
      · rw [hd, moved_maps_self hne, filter_cons_of_pos (by simpa using habs),
          append_assoc, singleton_append]
        congr 2
        exact filter_congr fun m hm => by simp [habs' m (hitr m hm).1 (hitr m hm).2]
      · rw [hs, moved_maps_source hne, (h.nodup s).erase_eq_filter, filter_filter]
        refine filter_congr fun m hm => ?_
        rcases eq_or_ne m n with rfl | hmn
        · simp [habs]
        · simp [hmn, habs' m hm hmn]

end Merge

/-! ## Nothing is lost -/

/-- The nodes of the two maps, or of the one. -/
def held (w : World V) (d s : ℕ) : List ℕ :=
  if d = s then (w.maps d).list else (w.maps d).list ++ (w.maps s).list

/-- The two maps and the node handle have together what the maps had, and no element changed. -/
structure Keeps (w w' : World V) (d s : ℕ) (node : List ℕ) : Prop where
  mem : w'.mem = w.mem
  perm : (held w' d s ++ node).Perm (held w d s)

/-- Moving a node from one map to the other loses none. -/
theorem keeps_moved (hn : n ∈ (w.maps s).list) : Keeps w (moved w d s n) d s [] := by
  refine ⟨rfl, ?_⟩
  rw [append_nil]
  unfold held
  split_ifs with hds
  · subst hds
    rw [moved, link_self, unlink_self]
    exact (perm_append_singleton n _).trans (perm_cons_erase hn).symm
  · rw [moved_maps_self hds, moved_maps_source hds, append_assoc, singleton_append]
    exact (perm_cons_erase hn).symm.append_left _

/-- The elements of a map are in it. -/
theorem Inv.mergeLoop_self (h : Inv P w) : ∀ {itr : List ℕ}, (∀ n ∈ itr, n ∈ (w.maps d).list) →
    World.mergeLoop P d d itr w = some w
  | [], _ => rfl
  | n :: itr, hmem => by
    have hn := hmem n mem_cons_self
    obtain ⟨v, hv⟩ := Option.isSome_iff_exists.1 (h.live d n hn)
    simp only [World.mergeLoop, hv, Option.bind_some, h.find_mem hn hv]
    exact Inv.mergeLoop_self h fun m hm => hmem m (mem_cons_of_mem n hm)

open Classical in
/-- `merge` moves the nodes whose keys are absent, and loses none. -/
theorem Inv.merge (h : Inv P w) (d s : ℕ) : ∃ w', w.merge P d s = some w' ∧
    Keeps w w' d s [] ∧ (d ≠ s →
      (w'.maps d).list = (w.maps d).list ++ (w.maps s).list.filter (Absent P w d ·) ∧
      (w'.maps s).list = (w.maps s).list.filter fun n => ¬Absent P w d n) := by
  rcases eq_or_ne d s with rfl | hne
  · refine ⟨w, h.mergeLoop_self fun _ hn => hn, ⟨rfl, ?_⟩, fun hdd => absurd rfl hdd⟩
    rw [append_nil]
  obtain ⟨w', hw', -, hmem, -, hd, hs⟩ := Inv.mergeLoop hne h (h.nodup s) fun _ hn => hn
  have hs' : (w'.maps s).list = (w.maps s).list.filter fun n => ¬Absent P w d n := by
    rw [hs]
    exact filter_congr fun n hn => by simp [hn]
  refine ⟨w', hw', ⟨hmem, ?_⟩, fun _ => ⟨hd, hs'⟩⟩
  simp only [append_nil, held, if_neg hne, hd, hs', append_assoc]
  refine List.Perm.append_left _ ?_
  simpa using filter_append_perm (fun n => decide _) (w.maps s).list

open Classical in
/-- `merge` and `insert(src.extract(it))` keep every element. An element whose key is absent goes
to the end of the map, for `merge` in the order of the source, and `merge` leaves the others in the
source. `splice` does so exactly if the key is absent or the maps are the same. -/
theorem transfer_keeps_iff (h : Inv P w) (d s n : ℕ) (hn : n ∈ (w.maps s).list) :
    (∃ w', w.merge P d s = some w' ∧ Keeps w w' d s [] ∧ (d ≠ s →
      (w'.maps d).list = (w.maps d).list ++ (w.maps s).list.filter (Absent P w d ·) ∧
      (w'.maps s).list = (w.maps s).list.filter fun n => ¬Absent P w d n)) ∧
    (∃ w' node, w.transfer P d s n = some (w', node) ∧ Keeps w w' d s node ∧
      (Absent P w d n → (w'.maps d).list = (w.maps d).list ++ [n])) ∧
    ((∃ w', w.splice P d s n = some w' ∧ Keeps w w' d s [] ∧
      (Absent P w d n → (w'.maps d).list = (w.maps d).list ++ [n]) ∧
      (¬Absent P w d n → n ∈ (w'.maps s).list)) ↔ d = s ∨ Absent P w d n) := by
  obtain ⟨v, hv⟩ := Option.isSome_iff_exists.1 (h.live s n hn)
  obtain ⟨hmoves, hstays⟩ := h.transfer hn
  -- an element is not absent from its own map
  have hne : Absent P w d n → d ≠ s := by
    rintro habs rfl
    exact Bool.false_ne_true ((habs v hv n hn).symm.trans (holdsKey_self hv))
  have hend : Absent P w d n → ((moved w d s n).maps d).list = (w.maps d).list ++ [n] :=
    fun habs => by rw [moved_maps_self (hne habs)]
  refine ⟨h.merge d s, ?_, ⟨?_, ?_⟩⟩
  · by_cases hcase : d = s ∨ Absent P w d n
    · exact ⟨_, _, (hmoves hcase).1, keeps_moved hn, hend⟩
    · obtain ⟨hds, habs⟩ := not_or.1 hcase
      refine ⟨_, _, hstays hds habs, ⟨rfl, ?_⟩, fun h' => absurd h' habs⟩
      simp only [held, if_neg hds, unlink_self, unlink_ne hds, append_assoc]
      refine List.Perm.append_left _ ?_
      exact (perm_append_singleton n _).trans (perm_cons_erase hn).symm
  · rintro ⟨w', hw', hkeeps, -⟩
    by_contra hcase
    obtain ⟨hds, habs⟩ := not_or.1 hcase
    rw [splice, if_neg (Ne.symm hds), hstays hds habs] at hw'
    obtain rfl := Option.some.inj hw'
    -- what `insert` handed back is dropped
    have hgone := congrFun hkeeps.mem n
    rw [hv] at hgone
    simp [dropNode] at hgone
  · intro hcase
    rcases eq_or_ne d s with rfl | hds
    · refine ⟨_, if_pos rfl, ⟨rfl, ?_⟩, fun habs => absurd rfl (hne habs), fun _ => ?_⟩
      · simp only [append_nil, held, setMap_self]
        exact (perm_append_singleton n _).trans (perm_cons_erase hn).symm
      · rw [setMap_self]
        exact mem_append_right _ (mem_singleton_self n)
    · refine ⟨moved w d s n, ?_, keeps_moved hn, hend, fun habs => absurd hcase ?_⟩
      · rw [splice, if_neg hds.symm, (hmoves hcase).1, Option.map_some, dropNode_nil]
      · exact not_or.2 ⟨hds, habs⟩

/-- Maps with one element each, all with the key `1`. -/
def ones : World (ℕ × ℕ) where
  mem := fun n => some (1, n)
  maps := fun c => ⟨[c], [c]⟩

/-- Pairs with natural numbers as keys. -/
def pairs : Policy ℕ (ℕ × ℕ) where
  key := Prod.fst
  eq := fun a b => a = b
  refl := by simp
  symm := fun a b h => by simpa using (of_decide_eq_true h).symm
  trans := fun a b c h h' => by simpa using (of_decide_eq_true h).trans (of_decide_eq_true h')

theorem ones_inv : Inv pairs ones := by
  refine ⟨fun c => .refl _, fun c => nodup_singleton c, fun c n _ => rfl,
    fun c m hm n hn v _ _ => ?_, fun c d hne n hn hn' => ?_⟩
  · rw [mem_singleton.1 hm, mem_singleton.1 hn]
  · exact hne ((mem_singleton.1 hn).symm.trans (mem_singleton.1 hn'))

theorem transfer_keeps_ones : ∃ w' node, ones.transfer pairs 0 1 1 = some (w', node) ∧
    Keeps ones w' 0 1 node := by
  obtain ⟨w', node, hw', hkeeps, -⟩ := (transfer_keeps_iff ones_inv 0 1 1 (by decide)).2.1
  exact ⟨w', node, hw', hkeeps⟩

/-- `splice` of an element whose key the map has destroys it. -/
theorem splice_destroys : ∃ w', ones.splice pairs 0 1 1 = some w' ∧
    ones.mem 1 = some (1, 1) ∧ w'.mem 1 = none ∧ (w'.maps 0).list = [0] ∧
    (w'.maps 1).list = [] := by
  refine ⟨_, rfl, rfl, rfl, rfl, rfl⟩

end Abseil.LinkedHash
