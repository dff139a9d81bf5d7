import Abseil.SwissLayout

/-!
# Lookup

The search for a key goes through the groups of its hash and ends at the first one with an
empty byte. A stored element lies in a group that is met before : no group in front of its
own has an empty byte. So the search finds the element when there is one, and reports the
key absent when there is not (`search_spec`). `find_first_non_full` goes through the same
groups and takes the first slot that is free (`findFirstNonFullFromH1_spec`).
-/

namespace Abseil.Swiss.Table

open List Nat BoundedLoop Probing

variable {K V : Type*} {P : Policy K V} {g : GroupImpl} {T : Table V}
  {hashAt : ℕ → Option (BitVec 64)}

/-- The hashes of the elements in the slots. -/
def hashes (P : Policy K V) (T : Table V) : ℕ → Option (BitVec 64) :=
  fun i => (T.slots i).map fun v => P.hash T.seed (P.keyOf v)

/-- No two elements have equal keys. -/
def UniqueKeys (P : Policy K V) (T : Table V) : Prop :=
  ∀ i j v w, T.slots i = some v → T.slots j = some w →
    P.eq (P.keyOf v) (P.keyOf w) = true → i = j

/-- The lookup invariant : the control bytes are laid out for the elements in the slots,
and no two of them have equal keys. -/
structure Inv (P : Policy K V) (g : GroupImpl) (T : Table V) : Prop
    extends Layout g T (T.hashes P) where
  unique : T.UniqueKeys P

theorem hashes_eq_some {i : ℕ} {h : BitVec 64} :
    T.hashes P i = some h ↔ ∃ v, T.slots i = some v ∧ P.hash T.seed (P.keyOf v) = h := by
  unfold hashes
  rw [Option.map_eq_some_iff]

theorem readSlot_ok {i : ℕ} {v : V} (hi : i < T.allocated) (hv : T.slots i = some v) :
    T.readSlot i = .ok v := by
  simp only [readSlot, if_pos hi, hv]

/-! ## Reading a group -/

/-- `Match` gives slots of full bytes, among them every slot of the group with the byte. -/
theorem match_slots (hs : Shape g T hashAt) {o : ℕ} (ho : o ≤ T.capacity) (hash : BitVec 64) :
    (∀ i ∈ ((g.match (T.group o) (h2 hash)).toList.map
        fun i => (o + i) &&& T.capacity), ∃ x, hashAt i = some x) ∧
      ∀ p < T.capacity, ahead (T.capacity + 1) o p < g.kWidth → T.ctrl p = h2 hash →
        p ∈ (g.match (T.group o) (h2 hash)).toList.map fun i => (o + i) &&& T.capacity := by
  obtain ⟨q, hmarks, hcomplete, hsound, -⟩ := g.match_spec _ (h2 hash)
  rw [hmarks.toList_eq]
  constructor
  · intro i hi
    obtain ⟨k, hk, rfl⟩ := mem_map.1 hi
    obtain ⟨hk, hq⟩ := mem_filter.1 hk
    have hk := mem_range.1 hk
    have hfull : isFull (T.ctrl (o + k)) = true := hsound k hk hq (h2_isFull hash)
    rw [and_capacity hs.valid]
    rcases hs.mirror.byte ho hk with hb | ⟨hb, -⟩
    · rw [hb] at hfull
      have hle := le_of_lt_succ (mod_lt (o + k) (succ_pos T.capacity))
      obtain ⟨x, hx, -⟩ := hs.of_isFull hle hfull
      exact ⟨x, hx⟩
    · exact absurd hb (isFull_ne hfull).1
  · intro p hp hin hb
    refine mem_map.2 ⟨ahead _ o p, mem_filter.2
      ⟨mem_range.2 hin, hcomplete _ hin ?_⟩, ?_⟩
    · rw [group, hs.mirror.byte_ahead hp.le ho hin, hb]
    · rw [and_capacity hs.valid, add_ahead_mod (by omega) (by omega)]

theorem maskEmpty_iff (hs : Shape g T hashAt) {h j : ℕ} :
    (g.maskEmpty (T.group (groupOffset g T.capacity h j))).toBool = true
      ↔ Stops g T.capacity T.ctrl h j := by
  rw [(g.maskEmpty_marks (hs.stored groupOffset_le)).toBool_iff]
  simp only [isEmpty, beq_iff_eq]
  exact Iff.rfl

/-! ## The search for a key -/

theorem findEqual_spec (key : K) : ∀ is,
    (∀ i ∈ is, i < T.allocated ∧ ∃ v, T.slots i = some v) →
    (∃ i ∈ is, ∃ v, T.findEqual P key is = .ok (some i) ∧ T.slots i = some v ∧
        P.eq key (P.keyOf v) = true) ∨
      (T.findEqual P key is = .ok none ∧
        ∀ i ∈ is, ∀ v, T.slots i = some v → P.eq key (P.keyOf v) = false)
  | [], _ => .inr ⟨rfl, nofun⟩
  | i :: is, his => by
    obtain ⟨hi, v, hv⟩ := his i mem_cons_self
    have hstep : T.findEqual P key (i :: is)
        = if P.eq key (P.keyOf v) then .ok (some i) else T.findEqual P key is := by
      rw [findEqual, readSlot_ok hi hv]
    rw [hstep]
    by_cases heq : P.eq key (P.keyOf v) = true
    · exact .inl ⟨i, mem_cons_self, v, if_pos heq, hv, heq⟩
    rw [if_neg heq]
    rcases findEqual_spec key is fun x hx => his x (mem_cons_of_mem i hx) with
      ⟨x, hx, w, hr, hw, hew⟩ | ⟨hr, hnone⟩
    · exact .inl ⟨x, mem_cons_of_mem i hx, w, hr, hw, hew⟩
    refine .inr ⟨hr, forall_mem_cons.2 ⟨fun w hw => ?_, hnone⟩⟩
    rw [hv] at hw
    cases hw
    simpa using heq

/-- The slot holds an element with a key equal to `key`. -/
def HasKey (P : Policy K V) (T : Table V) (key : K) (i : ℕ) : Prop :=
  ∃ v, T.slots i = some v ∧ P.eq key (P.keyOf v) = true

/-- A round of the search : the key is found in the group, or is not in the group and the
search ends or goes on as the group has an empty byte or not. -/
theorem searchGroup_spec (hI : Inv P g T) (key : K) (j : ℕ) :
    let hash := P.hash T.seed key
    let seq := seqAt g T.capacity (h1 hash) j
    (∃ i, T.searchGroup P g key (h2 hash) seq = .ok (.done (.found i)) ∧ T.HasKey P key i) ∨
      ((∀ i, T.HasKey P key i → ¬InGroup g T.capacity (h1 hash) j i) ∧
        ((Stops g T.capacity T.ctrl (h1 hash) j ∧
            T.searchGroup P g key (h2 hash) seq = .ok (.done (.absent seq))) ∨
          (¬Stops g T.capacity T.ctrl (h1 hash) j ∧
            T.searchGroup P g key (h2 hash) seq
              = .ok (.next (seqAt g T.capacity (h1 hash) (j + 1)))))) := by
  intro hash seq
  have hs := hI.toShape
  have ho : seq.offset ≤ T.capacity := groupOffset_le
  obtain ⟨hsound, hcomplete⟩ := match_slots hs ho hash
  have hreadable : ∀ i ∈ (g.match (T.group seq.offset) (h2 hash)).toList.map seq.offsetAt,
      i < T.allocated ∧ ∃ v, T.slots i = some v := by
    intro i hi
    obtain ⟨x, hx⟩ := hsound i hi
    obtain ⟨v, hv, -⟩ := hashes_eq_some.1 hx
    exact ⟨(hs.full i x hx).1, v, hv⟩
  rcases findEqual_spec key _ hreadable with ⟨i, -, v, hr, hv, heq⟩ | ⟨hr, hnone⟩
  · left
    exact ⟨i, by rw [searchGroup, hr], v, hv, heq⟩
  right
  refine ⟨fun i ⟨v, hv, heq⟩ hin => ?_, ?_⟩
  · -- an equal key has the same hash, so its byte matches
    have hx := hashes_eq_some.2 ⟨v, hv, (P.hash_eq _ _ _ heq).symm⟩
    obtain ⟨hlt, hb⟩ := hs.full i hash hx
    have hmem := hcomplete i (lt_of_lt_of_le hlt hs.allocated_le) hin hb
    rw [hnone i hmem v hv] at heq
    cases heq
  · have hstep : T.searchGroup P g key (h2 hash) seq
        = if (g.maskEmpty (T.group seq.offset)).toBool then .ok (.done (.absent seq))
          else .ok (.next (seq.next g)) := by
      rw [searchGroup, hr]
    rw [hstep]
    by_cases hstop : Stops g T.capacity T.ctrl (h1 hash) j
    · exact .inl ⟨hstop, if_pos ((maskEmpty_iff hs).2 hstop)⟩
    · refine .inr ⟨hstop, ?_⟩
      have hmask : ¬(g.maskEmpty (T.group seq.offset)).toBool = true :=
        fun h => hstop ((maskEmpty_iff hs).1 h)
      rw [if_neg hmask]
      exact congrArg (fun s => Except.ok _) (seqAt_next hs.valid)

/-- A probe goes on to the next group until one has what it looks for, and some group has it. -/
theorem probe_total {α : Type} {round : ProbeSeq → Except Fault (Round ProbeSeq α)}
    {cap h last : ℕ} {Q : ℕ → Prop} {R : α → Prop} (hv : isValidCapacity cap = true)
    (hlast : last ≤ cap) (hstop : Q last) (hround : ∀ j, (∀ i < j, ¬Q i) →
      (∃ a, round (seqAt g cap h j) = .ok (.done a) ∧ R a) ∨
      ¬Q j ∧ round (seqAt g cap h j) = .ok (.next (seqAt g cap h (j + 1)))) :
    ∃ a, runLoop Fault.endless round (cap + 1) (probeH1 cap h) = .ok a ∧ R a := by
  let inv : ℕ → ProbeSeq → Prop := fun k seq =>
    ∃ j, j + k = last ∧ seq = seqAt g cap h j ∧ ∀ i < j, ¬Q i
  refine runLoop_total Fault.endless (fun k s => ?_) (cap + 1) last _
    (show inv last _ from ⟨0, zero_add _, probeH1_eq hv, nofun⟩) (by omega)
  rintro ⟨j, hk, rfl, hbefore⟩
  refine (hround j hbefore).imp_right fun ⟨hj, hr⟩ => ?_
  have hne : j ≠ last := fun he => hj (he ▸ hstop)
  exact ⟨_, k - 1, hr, ⟨j + 1, by omega, rfl, Nat.forall_lt_succ_right.2 ⟨hbefore, hj⟩⟩, by omega⟩

/-- The search ends, at a slot with the key, or at the first group with an empty byte when
no slot has the key. -/
theorem search_spec (hI : Inv P g T) (key : K) :
    (∃ i, T.search P g key = .ok (.found i) ∧ T.HasKey P key i) ∨
      ((∀ i, ¬T.HasKey P key i) ∧ ∃ j,
        T.search P g key = .ok (.absent (seqAt g T.capacity (h1 (P.hash T.seed key)) j)) ∧
        Stops g T.capacity T.ctrl (h1 (P.hash T.seed key)) j ∧
        ∀ i < j, ¬Stops g T.capacity T.ctrl (h1 (P.hash T.seed key)) i) := by
  set hash := P.hash T.seed key with hhash
  obtain ⟨last, hlast, hstop⟩ := hI.exists_stops (h1 hash)
  have hprobe : ∃ r, T.search P g key = .ok r ∧ ((∃ i, r = .found i ∧ T.HasKey P key i) ∨
      ((∀ i, ¬T.HasKey P key i) ∧ ∃ j, r = .absent (seqAt g T.capacity (h1 hash) j) ∧
        Stops g T.capacity T.ctrl (h1 hash) j ∧
        ∀ i < j, ¬Stops g T.capacity T.ctrl (h1 hash) i)) := by
    -- the groups behind the current one have neither an empty byte nor the key
    refine probe_total (g := g) (Q := fun j => Stops g T.capacity T.ctrl (h1 hash) j ∨
      ∃ p, T.HasKey P key p ∧ InGroup g T.capacity (h1 hash) j p) hI.valid hlast (.inl hstop)
      fun j hbefore => ?_
    rcases searchGroup_spec hI key j with ⟨i, hr, hi⟩ | ⟨hnot, ⟨hst, hr⟩ | ⟨hst, hr⟩⟩
    · exact .inl ⟨_, hr, .inl ⟨i, rfl, hi⟩⟩
    · refine .inl ⟨_, hr, .inr ⟨fun p hp => ?_, j, rfl, hst, fun i hi h => hbefore i hi (.inl h)⟩⟩
      -- a slot with the key would have been met in this group or before
      obtain ⟨v, hv, heq⟩ := hp
      obtain ⟨m, hin, hfree⟩ := hI.reach p hash
        (hashes_eq_some.2 ⟨v, hv, (P.hash_eq _ _ _ heq).symm⟩)
      rcases lt_trichotomy m j with hm | rfl | hm
      · exact hbefore m hm (.inr ⟨p, ⟨v, hv, heq⟩, hin⟩)
      · exact hnot p ⟨v, hv, heq⟩ hin
      · exact hfree j hm hst
    · exact .inr ⟨fun h => h.elim hst fun ⟨p, hp, hin⟩ => hnot p hp hin, hr⟩
  rcases hprobe with ⟨r, hr, ⟨i, rfl, hi⟩ | ⟨hnone, j, rfl, hrest⟩⟩
  · exact .inl ⟨i, hr, hi⟩
  · exact .inr ⟨hnone, j, hr, hrest⟩

/-! ## The search for a free slot -/

theorem isEmptyOrDeleted_iff (hs : Shape g T hashAt) {i : ℕ} (hi : i ≤ T.capacity) :
    isEmptyOrDeleted (T.ctrl i) = true ↔ hashAt i = none ∧ i < T.allocated := by
  have hfull : ∀ c, isFull c = true → isEmptyOrDeleted c = false := by decide
  rcases hs.ring_byte hi with ⟨x, hx, -, hb⟩ | ⟨hx, hlt, hb⟩ | ⟨-, hge, hb⟩
  · rw [hb, hfull _ (h2_isFull x), hx]
    simp
  · have : isEmptyOrDeleted (T.ctrl i) = true := by
      rcases hb with hb | hb <;> rw [hb] <;> rfl
    exact ⟨fun _ => ⟨hx, hlt⟩, fun _ => this⟩
  · rw [hb]
    exact ⟨nofun, fun ⟨_, h⟩ => absurd hge (not_le.2 h)⟩

theorem hasFree_of_free {h j p : ℕ} (hm : Mirror g T.capacity T.ctrl) (hp : p ≤ T.capacity)
    (hin : InGroup g T.capacity h j p) (hfree : isEmptyOrDeleted (T.ctrl p) = true) :
    HasFree g T.capacity T.ctrl h j := by
  refine ⟨_, hin, ?_⟩
  rwa [hm.byte_ahead hp groupOffset_le hin]

/-- `find_first_non_full` takes a free slot, in the first group that has one. -/
theorem findFirstNonFullFromH1_free (hv : isValidCapacity T.capacity = true)
    (hm : Mirror g T.capacity T.ctrl) (hst : ∀ i ≤ T.capacity, Stored (T.ctrl i))
    (hw : g.kWidth - 1 ≤ T.capacity)
    (hfree : ∃ p < T.capacity, isEmptyOrDeleted (T.ctrl p) = true) (h : ℕ) :
    ∃ p j, T.findFirstNonFullFromH1 g h = .ok p ∧ p < T.capacity ∧
      isEmptyOrDeleted (T.ctrl p) = true ∧
      InGroup g T.capacity h j p ∧ ∀ i < j, ¬HasFree g T.capacity T.ctrl h i := by
  obtain ⟨q, hq, hqf⟩ := hfree
  obtain ⟨last, hlast, hlin⟩ := exists_inGroup hv h q
  have hstop := hasFree_of_free hm hq.le hlin hqf
  -- the sentinel is not free
  have hslot : ∀ p ≤ T.capacity, isEmptyOrDeleted (T.ctrl p) = true → p < T.capacity := by
    intro p hp hf
    refine lt_of_le_of_ne hp fun heq => ?_
    rw [heq, hm.sentinel] at hf
    cases hf
  have ho : (probeH1 T.capacity h).offset = groupOffset g T.capacity h 0 := by
    rw [probeH1_eq (g := g) hv]
    rfl
  by_cases hfirst : isEmptyOrDeleted (T.ctrl (probeH1 T.capacity h).offset) = true
  · have hle := ho ▸ groupOffset_le
    refine ⟨_, 0, if_pos hfirst, hslot _ hle hfirst, hfirst, ?_,
      fun _ hi => absurd hi (Nat.not_lt_zero _)⟩
    rw [InGroup, ho, ahead, Nat.add_sub_cancel' (by omega), mod_self]
    exact g.kWidth_pos
  suffices h : ∃ p, runLoop Fault.endless (T.probeNonFull g) (T.capacity + 1)
      (probeH1 T.capacity h) = .ok p ∧ ∃ j, p < T.capacity ∧ isEmptyOrDeleted (T.ctrl p) = true ∧
      InGroup g T.capacity h j p ∧ ∀ i < j, ¬HasFree g T.capacity T.ctrl h i by
    obtain ⟨p, hp, j, hpost⟩ := h
    exact ⟨p, j, (if_neg hfirst).trans hp, hpost⟩
  refine probe_total (g := g) hv hlast hstop fun j hbefore => ?_
  have hle : groupOffset g T.capacity h j ≤ T.capacity := groupOffset_le
  have hstored : ∀ i < g.kWidth, Stored (T.group (groupOffset g T.capacity h j) i) :=
    hm.stored hst hle
  have hmarks := g.maskEmptyOrDeleted_marks hstored
  by_cases hmask :
      (g.maskEmptyOrDeleted (T.group (groupOffset g T.capacity h j))).toBool = true
  · obtain ⟨hlt, hf, -⟩ := hmarks.lowestBitSet_spec hmask
    set i := (g.maskEmptyOrDeleted _).lowestBitSet
    have hmod : (groupOffset g T.capacity h j + i) % (T.capacity + 1) < T.capacity + 1 :=
      mod_lt _ (succ_pos _)
    rw [group, hm.byte_of_le hw hle hlt] at hf
    have hdone := congrArg (fun p => (Except.ok (Round.done p) : Except Fault (Round ProbeSeq ℕ)))
      (and_capacity hv (groupOffset g T.capacity h j + i))
    refine .inl ⟨_, (if_pos hmask).trans hdone, j, hslot _ (by omega) hf, hf, ?_, hbefore⟩
    rwa [InGroup, ahead_add_mod (by omega) (by omega)]
  · refine .inr ⟨mt hmarks.toBool_iff.2 hmask, ?_⟩
    rw [← seqAt_next hv]
    exact if_neg hmask

/-- In a table that stores hashes the free slot it takes holds none of them. -/
theorem findFirstNonFullFromH1_spec (hs : Shape g T hashAt) (hw : g.kWidth - 1 ≤ T.capacity)
    (hempty : ∃ p < T.capacity, T.ctrl p = kEmpty) (h : ℕ) :
    ∃ p j, T.findFirstNonFullFromH1 g h = .ok p ∧ p < T.allocated ∧ hashAt p = none ∧
      InGroup g T.capacity h j p ∧ ∀ i < j, ¬HasFree g T.capacity T.ctrl h i := by
  obtain ⟨q, hq, he⟩ := hempty
  obtain ⟨p, j, hr, hlt, hfree, hrest⟩ := findFirstNonFullFromH1_free hs.valid hs.mirror
    (fun _ hi => hs.stored_ring hi) hw ⟨q, hq, by rw [he]; rfl⟩ h
  obtain ⟨hnone, halloc⟩ := (isEmptyOrDeleted_iff hs hlt.le).1 hfree
  exact ⟨p, j, hr, halloc, hnone, hrest⟩

/-! ## Coverage -/

/-- The probe sequence after `j` steps. -/
theorem iterate_next (hv : isValidCapacity T.capacity = true) (h j : ℕ) :
    (ProbeSeq.next g)^[j] (probeH1 T.capacity h) = seqAt g T.capacity h j := by
  induction j with
  | zero => exact probeH1_eq hv
  | succ j ih => rw [Function.iterate_succ_apply', ih, seqAt_next hv]

/-- The groups of one turn of a probe sequence hold every index exactly once, each group a
run of consecutive indices modulo `capacity + 1`, and `find_first_non_full` returns a free
slot when there is one. -/
theorem probe_coverage (g : GroupImpl) (T : Table V) (m : ℕ) (hcap : T.capacity + 1 = 2 ^ m)
    (hdvd : g.kWidth ∣ T.capacity + 1) (hash : BitVec 64) :
    (∀ j, ((ProbeSeq.next g)^[j] (probeH1 T.capacity (h1 hash))).index = g.kWidth * j) ∧
    (∀ j i, ((ProbeSeq.next g)^[j] (probeH1 T.capacity (h1 hash))).offsetAt i =
      (((ProbeSeq.next g)^[j] (probeH1 T.capacity (h1 hash))).offset + i) % (T.capacity + 1)) ∧
    (∀ p ≤ T.capacity, ∃! x : ℕ × ℕ, x.1 < (T.capacity + 1) / g.kWidth ∧ x.2 < g.kWidth ∧
      ((ProbeSeq.next g)^[x.1] (probeH1 T.capacity (h1 hash))).offsetAt x.2 = p) ∧
    (Mirror g T.capacity T.ctrl → (∀ i ≤ T.capacity, Stored (T.ctrl i)) →
      (∃ p < T.capacity, isEmptyOrDeleted (T.ctrl p) = true) →
      ∃ p < T.capacity, T.findFirstNonFull g hash = .ok p ∧
        isEmptyOrDeleted (T.ctrl p) = true) := by
  have hwle := le_of_dvd (succ_pos _) hdvd
  have hw8 : 8 ≤ g.kWidth := by rcases g.kWidth_eq with h | h <;> omega
  have hv : isValidCapacity T.capacity = true := by
    refine isValidCapacity_iff.2 ⟨m, pos_of_ne_zero fun h0 => ?_, hcap⟩
    rw [h0, pow_zero] at hcap
    omega
  obtain ⟨k, hk⟩ : ∃ k, T.capacity + 1 = g.kWidth * 2 ^ k := by
    rcases capacity_cases g hv with ⟨hhalf, -⟩ | hk
    · omega
    · exact hk
  have hoff : ∀ j i, (seqAt g T.capacity (h1 hash) j).offsetAt i =
      (offset (T.capacity + 1) g.kWidth (h1 hash) j + i) % (T.capacity + 1) :=
    fun j i => and_capacity hv _
  simp only [iterate_next hv]
  refine ⟨fun j => rfl, fun j i => hoff j i, fun p hp => ?_, fun hm hst hfree => ?_⟩
  · have hdiv : (T.capacity + 1) / g.kWidth = 2 ^ k := by
      rw [hk, Nat.mul_div_cancel_left _ g.kWidth_pos]
    simp only [hoff, hdiv]
    exact existsUnique_offset hk g.kWidth_pos (h1 hash) (by omega)
  · obtain ⟨p, -, hr, hlt, hf, -⟩ :=
      findFirstNonFullFromH1_free hv hm hst (by omega) hfree (h1 hash)
    exact ⟨p, hlt, hr, hf⟩

/-- A table of two groups, full but for slot 5. -/
def fullButFive : Table ℕ :=
  { capacity := 31, blocked := 0, size := 30, seed := 0, growthInfo := GrowthInfo.store64 0
    ctrl := fun i => if i = 31 then kSentinel else if i % 32 = 5 then kEmpty else 7
    slots := fun i => if i = 5 then none else some i }

/-- The first group from 8 on has no free slot, the next one reaches 5 behind the sentinel. -/
theorem probe_coverage_fullButFive :
    (∀ i < 16, isEmptyOrDeleted (fullButFive.group 8 i) = false) ∧
      ∃ p < 31, fullButFive.findFirstNonFull .sse2 8 = .ok p ∧
        isEmptyOrDeleted (fullButFive.ctrl p) = true := by
  have hm : Mirror .sse2 fullButFive.capacity fullButFive.ctrl := ⟨rfl, by decide⟩
  refine ⟨by decide, ?_⟩
  exact (probe_coverage .sse2 fullButFive 5 rfl (by decide) 8).2.2.2 hm (by decide)
    ⟨5, by decide, rfl⟩

end Abseil.Swiss.Table
