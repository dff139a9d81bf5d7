import Abseil.MutexWake

/-!
# The waiter search of an unlock

A pass of `UnlockSlow` walks the queue without the spinlock, so waiters may be put in at
the front and at the back meanwhile. `Search` splits the queue accordingly : writers
without condition at the front, the part walked so far, the part still to walk up to the
terminator, and the new waiters at the back. `Found` is what the walked part says of the
waiters to wake. Each round of the walk (`scanRound_spec`) and each section under the
spinlock (`unlockSection_spec`) keeps them, and a pass that ends has woken `toWake`.
-/

open BoundedLoop LinkedRing

namespace Abseil.Mutex

open List

variable {n : ℕ}

/-! ## Whom to wake -/

/-- A reader that can run. -/
def wakes (truth : Condition → Bool) (H : Heap n) (x : Fin n) : Bool :=
  runnable truth H x && H.how x == .kShared

/-- The waiters of `q` an unlock should wake : the first that can run if it is a writer,
all readers that can run if it is a reader. -/
def toWake (truth : Condition → Bool) (H : Heap n) (q : List (Fin n)) : List (Fin n) :=
  match q.find? (runnable truth H) with
  | none => []
  | some x => if H.how x = .kExclusive then [x] else q.filter (wakes truth H)

variable {H H' : Heap n} {x y : Fin n}

theorem how_of_key (h : key H x = key H' y) : H.how x = H'.how y :=
  congrArg Prod.fst h

variable {truth : Condition → Bool}

theorem runnable_congr (h : key H x = key H' y) : runnable truth H x = runnable truth H' y := by
  have : H.cond x = H'.cond y := congrArg (fun t => t.2.2) h
  simp [runnable, this]

theorem wakes_congr (h : key H x = key H' y) : wakes truth H x = wakes truth H' y := by
  rw [wakes, wakes, runnable_congr h, how_of_key h]

variable {q : List (Fin n)}

theorem toWake_congr (h : key H' = key H) : toWake truth H' q = toWake truth H q := by
  have hrun : runnable truth H' = runnable truth H :=
    funext fun x => runnable_congr (congrFun h x)
  have hwakes : wakes truth H' = wakes truth H := funext fun x => wakes_congr (congrFun h x)
  have hhow : H'.how = H.how := funext fun x => how_of_key (congrFun h x)
  rw [toWake, toWake, hrun, hwakes, hhow]

theorem toWake_eq_nil (h : ∀ x ∈ q, runnable truth H x = false) : toWake truth H q = [] := by
  rw [toWake, find?_eq_none.2 fun x hx => by simp [h x hx]]

variable {a b : List (Fin n)} {w : Fin n}

section

variable (ha : ∀ x ∈ a, runnable truth H x = false)
include ha

section

variable (hw : runnable truth H w = true)
include hw

theorem find?_runnable : (a ++ w :: b).find? (runnable truth H) = some w := by
  rw [find?_append, find?_eq_none.2 fun x hx => by simp [ha x hx], Option.none_or,
    find?_cons_of_pos hw]

/-- A writer is woken alone. -/
theorem toWake_writer (hhow : H.how w = .kExclusive) : toWake truth H (a ++ w :: b) = [w] := by
  rw [toWake, find?_runnable ha hw]
  simp [hhow]

/-- Readers are woken together. -/
theorem toWake_reader (hhow : H.how w = .kShared) :
    toWake truth H (a ++ w :: b) = (w :: b).filter (wakes truth H) := by
  have hnil : a.filter (wakes truth H) = [] :=
    filter_eq_nil_iff.2 fun x hx => by simp [wakes, ha x hx]
  rw [toWake, find?_runnable ha hw]
  simp [hhow, hnil]

end

end

/-! ## What a search has found -/

/-- The first waiter that can run is `w`, behind the waiters `a`. -/
structure FoundAt (p : Pass n) (H : Heap n) (a : List (Fin n)) (w : Fin n) : Prop where
  found : p.w = some w
  pw : p.pw = a.getLast?
  none_before : ∀ x ∈ a, runnable p.truth H x = false
  ends : ∀ x ∈ a.getLast?, H.skip x = none
  runs : runnable p.truth H w = true
  wake : H.wake w = true

/-- What is known when the waiters of a list have been walked to the end. -/
inductive Found (p : Pass n) (H : Heap n) : List (Fin n) → Prop
  | nothing {a : List (Fin n)} : p.w = none → p.pw = none →
      (∀ x ∈ a, runnable p.truth H x = false) → Found p H a
  | reader {a b : List (Fin n)} {w : Fin n} : FoundAt p H a w → H.how w = .kShared →
      Fresh (wakes p.truth H) H w b → Found p H (a ++ w :: b)

variable {p : Pass n}

theorem FoundAt.congr (h : FoundAt p H a w) (hkey : ∀ x ∈ a ++ [w], key H' x = key H x)
    (hwake : ∀ x ∈ a ++ [w], H'.wake x = H.wake x)
    (hskip : ∀ x ∈ a, H.skip x = none → H'.skip x = none) : FoundAt p H' a w where
  __ := h
  none_before x hx := (runnable_congr (hkey x (by simp [hx]))).trans (h.none_before x hx)
  ends x hx := hskip x (mem_of_getLast? hx) (h.ends x hx)
  runs := (runnable_congr (hkey w (by simp))).trans h.runs
  wake := (hwake w (by simp)).trans h.wake

theorem Fresh.congr_wakes (h : Fresh (wakes truth H) H y b)
    (hkey : ∀ x ∈ y :: b, key H' x = key H x) (hwake : ∀ x ∈ y :: b, H'.wake x = H.wake x)
    (hskip : ∀ x ∈ y :: b, H'.skip x = none → H.skip x = none) : Fresh (wakes truth H') H' y b := by
  have h' := h.congr hwake hskip
  refine ⟨h'.first.trans (wakes_congr (hkey y (by simp))).symm, ?_⟩
  refine List.IsChain.imp_of_mem_imp (fun x z hx hz hxz hx' => ?_) h'.chain
  rw [wakes_congr (hkey z hz)]
  rw [wakes_congr (hkey x hx)] at hx'
  exact hxz hx'

/-- What was found stays so when the walked waiters are not touched; the last of them may
begin to skip. -/
theorem Found.congr (h : Found p H a) (hkey : ∀ x ∈ a, key H' x = key H x)
    (hwake : ∀ x ∈ a, H'.wake x = H.wake x) (hskip : ∀ x ∈ a, H'.skip x = none → H.skip x = none)
    (hskip' : ∀ x ∈ a.dropLast, H.skip x = none → H'.skip x = none) : Found p H' a := by
  cases h with
  | nothing hw hpw ha =>
    exact .nothing hw hpw fun x hx => (runnable_congr (hkey x hx)).trans (ha x hx)
  | @reader a b w hat hhow hfresh =>
    have hsub : ∀ x ∈ a ++ [w], x ∈ a ++ w :: b := by simp +contextual [or_imp]
    refine .reader (hat.congr (fun x hx => hkey x (hsub x hx)) (fun x hx => hwake x (hsub x hx))
      fun x hx => hskip' x ?_) ?_ ?_
    · rw [dropLast_append_cons]
      exact mem_append_left _ hx
    · rw [how_of_key (hkey w (by simp)), hhow]
    · exact hfresh.congr_wakes (fun x hx => hkey x (by simp_all))
        (fun x hx => hwake x (by simp_all)) fun x hx => hskip x (by simp_all)

/-! ## The queue during a search -/

/-- The queue `q` of a pass that has walked the waiters `a` and has `b` to go, up to the
terminator `o`. Meanwhile `f` came to the front and `c` to the back. -/
structure Search (H : Heap n) (q : List (Fin n)) (o : Fin n) (f a b c : List (Fin n)) : Prop where
  split : q = f ++ (a ++ b) ++ c
  last : (a ++ b).getLast? = some o
  front : ∀ x ∈ f, H.how x = .kExclusive ∧ H.cond x = none
  maySkip : H.maySkip o = false
  ends : H.skip o = none
  unlocking : ∀ h, q.getLast? = some h → H.maybeUnlocking h = true

/-- A pass with terminator `o`, with `f` and `c` come to the queue since its last section :
still walking with a number of waiters to go, done, or done early with a writer found. -/
inductive Walk (H : Heap n) (q : List (Fin n)) (p : Pass n) (o : Fin n) (f c : List (Fin n)) :
    ℕ → Phase n → Prop
  | walking {y : Fin n} {a b : List (Fin n)} : Search H q o f a (y :: b) c → Found p H a →
      Walk H q p o f c (b.length + 1) (.scan a.getLast? y)
  | walked {a : List (Fin n)} : Search H q o f a [] c → Found p H a →
      Walk H q p o f c 0 .spin
  | writer {w : Fin n} {a b : List (Fin n)} : Search H q o f (a ++ [w]) b c → FoundAt p H a w →
      H.how w = .kExclusive → Walk H q p o f c 0 .spin

/-- What holds of the queue `q` in each phase of a pass. -/
inductive PassInv (H : Heap n) (q : List (Fin n)) (p : Pass n) : Phase n → Prop
  | start : p.oldH = none → p.w = none → p.pw = none → PassInv H q p .spin
  | search {ph : Phase n} {o : Fin n} {f c : List (Fin n)} {k : ℕ} : p.oldH = some o →
      Walk H q p o f c k ph → PassInv H q p ph

variable {o : Fin n} {f c : List (Fin n)}

theorem Search.mem (hs : Search H q o f a b c) (hx : x ∈ a ++ b) : x ∈ q := by
  rw [hs.split]
  exact mem_append_left _ (mem_append_right _ hx)

theorem Search.last_mem (hs : Search H q o f a b c) : o ∈ q :=
  hs.mem (mem_of_getLast? hs.last)

variable {head : Option (Fin n)}

/-- A waiter that comes in during a search goes to the front or to the back. -/
theorem Search.enqueue {h' s : Fin n} {q' : List (Fin n)} (hs : Search H q o f a b c)
    (hq : Queue True H head q) (hent : Entered True H head q s H' h' q') :
    (∃ f' c', Search H' q' o f' a b c') ∧ ∀ x ∈ a ++ b, H'.skip x = H.skip x := by
  have hoq := hs.last_mem
  rcases head with _ | h
  · simp [getLast?_eq_none_iff.1 hq.last.symm] at hoq
  have hu := hs.unlocking h hq.last.symm
  have hlast' : ∀ x, q'.getLast? = some x → x = h' := fun x hx => by
    simpa [hx] using hent.queue.last.symm
  have hfront : ∀ x ∈ f, H'.how x = .kExclusive ∧ H'.cond x = none := fun x hx => by
    have hk := hent.key x (by rw [hs.split]; simp [hx])
    simp only [key, Prod.mk.injEq] at hk
    rw [hk.1, hk.2.2]
    exact hs.front x hx
  obtain ⟨hu', ⟨rfl, hhow, hcond, hskip⟩ | ⟨rfl, hskip⟩⟩ := hent.searching h rfl hu
  · refine ⟨⟨s :: f, c, by rw [hs.split]; simp, hs.last,
      forall_mem_cons.2 ⟨⟨hhow, hcond⟩, hfront⟩, ?_, ?_, ?_⟩, fun x hx => hskip x (hs.mem hx)⟩
    · rw [hent.maySkip o hoq, hs.maySkip]
    · rw [hskip o hoq, hs.ends]
    · intro x hx
      rw [hlast' x hx, hu']
  -- If the last waiter is in the part to be walked it is the terminator, which may not skip.
  have hskip' : ∀ x ∈ a ++ b, H'.skip x = H.skip x := fun x hx => by
    refine hskip x (hs.mem hx) ?_
    rintro rfl
    have hl := hq.last.symm
    rw [hs.split] at hl
    cases c with
    | nil =>
      rw [append_nil, getLast?_append, hs.last] at hl
      obtain rfl : o = x := by simpa using hl
      exact hs.maySkip
    | cons z c =>
      have hnd := hq.nodup
      rw [hs.split] at hnd
      exact absurd rfl ((nodup_append.1 hnd).2.2 x (mem_append_right _ hx) x
        (LinkedRing.last_mem hl))
  refine ⟨⟨f, c ++ [s], by rw [hs.split]; simp, hs.last, hfront, ?_, ?_, ?_⟩, hskip'⟩
  · rw [hent.maySkip o hoq, hs.maySkip]
  · rw [hskip' o (mem_of_getLast? hs.last), hs.ends]
  · intro x hx
    rw [hlast' x hx, hu']

/-- A waiter that joins does not disturb the pass. -/
theorem PassInv.enqueue {h' s : Fin n} {q' : List (Fin n)} {ph : Phase n} (hp : PassInv H q p ph)
    (hq : Queue True H head q) (hent : Entered True H head q s H' h' q') : PassInv H' q' p ph := by
  cases hp with
  | start ho hw hpw => exact .start ho hw hpw
  | @search _ o f c _ ho hwalk =>
    cases hwalk with
    | @walking y a b hs hf =>
      obtain ⟨⟨f', c', hs'⟩, hskip⟩ := hs.enqueue hq hent
      refine .search ho (.walking hs' (hf.congr (fun x hx => hent.key x (hs.mem ?_))
        (fun x hx => hent.wake x (hs.mem ?_)) (fun x hx => by rw [hskip x (by simp [hx])]; exact id)
        fun x hx => by rw [hskip x (mem_append_left _ (dropLast_subset a hx))]; exact id))
        <;> simp [hx]
    | @walked a hs hf =>
      obtain ⟨⟨f', c', hs'⟩, hskip⟩ := hs.enqueue hq hent
      refine .search ho (.walked hs' (hf.congr (fun x hx => hent.key x (hs.mem ?_))
        (fun x hx => hent.wake x (hs.mem ?_)) (fun x hx => by rw [hskip x (by simp [hx])]; exact id)
        fun x hx => by rw [hskip x (mem_append_left _ (dropLast_subset a hx))]; exact id))
        <;> simp [hx]
    | @writer w a b hs hf hhow =>
      obtain ⟨⟨f', c', hs'⟩, hskip⟩ := hs.enqueue hq hent
      have hmem : ∀ x ∈ a ++ [w], x ∈ q := fun x hx => hs.mem (mem_append_left _ hx)
      refine .search ho (.writer hs' (hf.congr (fun x hx => hent.key x (hmem x hx))
        (fun x hx => hent.wake x (hmem x hx))
        fun x hx => by rw [hskip x (by simp [hx])]; exact id) ?_)
      rw [how_of_key (hent.key w (hmem w (by simp))), hhow]

/-! ## A round of the walk -/

/-- What the walk over the queue leaves alone. -/
structure ScanFrame (H H' : Heap n) : Prop where
  key : key H' = key H
  maySkip : H'.maySkip = H.maySkip
  maybeUnlocking : H'.maybeUnlocking = H.maybeUnlocking
  none_iff : ∀ x, H'.skip x = none ↔ H.skip x = none

theorem Compressed.scanFrame (h : Compressed H H') : ScanFrame H H' :=
  ⟨h.fields.key, h.fields.maySkip, h.fields.maybeUnlocking, h.none_iff⟩

theorem Search.frame (hs : Search H q o f a b c) (hfr : ScanFrame H H') {a' b' : List (Fin n)}
    (hab : a ++ b = a' ++ b') : Search H' q o f a' b' c where
  split := by rw [hs.split, hab]
  last := hab ▸ hs.last
  front x hx := by
    have hk := congrFun hfr.key x
    simp only [Mutex.key, Prod.mk.injEq] at hk
    rw [hk.1, hk.2.2]
    exact hs.front x hx
  maySkip := by rw [hfr.maySkip, hs.maySkip]
  ends := (hfr.none_iff o).2 hs.ends
  unlocking h hh := by rw [hfr.maybeUnlocking, hs.unlocking h hh]

/-- The phase after the walk has come to `r`, with the waiters `d` to go. -/
def nextPhase (r : Fin n) : List (Fin n) → Phase n
  | [] => .spin
  | z :: _ => .scan (some r) z

/-- Equivalent waiters are passed over. -/
theorem scanPast_spec (hq : Queue True H head q) (hs : Search H q o f a (y :: b) c) :
    ∃ H' e r d, scanPast H y = .ok (H', r) ∧ Queue True H' head q ∧ Compressed H H' ∧
      y :: b = e ++ r :: d ∧ (H.wake y = true → e = []) ∧
      (H.wake y = false → (∀ z ∈ e, H.skip z ≠ none) ∧ H.skip r = none ∧
        ∀ z ∈ e ++ [r], key H z = key H y) := by
  cases hwake : H.wake y with
  | true => exact ⟨H, [], y, b, by simp [scanPast, hwake], hq, .refl H, rfl, by simp, by simp⟩
  | false =>
    have hq' : Queue True H head ((f ++ a) ++ y :: (b ++ c)) := by simpa [hs.split] using hq
    obtain ⟨H', e, r, d, hskip, hq'', hcomp, hrun, -⟩ := skip_spec hq'
    -- The run ends at the terminator at the latest.
    obtain ⟨d', hd'⟩ : ∃ d', y :: b = e ++ r :: d' := by
      obtain ⟨g, hg⟩ := getLast?_eq_some_iff.1 (getLast?_append_cons a b y ▸ hs.last)
      have hsplit := hrun.split
      rw [← cons_append, hg, append_assoc] at hsplit
      rcases append_cons_eq_append_cons hsplit with ⟨u, rfl, -⟩ | ⟨rfl, rfl, -⟩ | ⟨u, rfl, -⟩
      · exact ⟨u ++ [o], by simp [hg]⟩
      · exact ⟨[], hg⟩
      · exact absurd hs.ends (hrun.skips trivial o (by simp))
    exact ⟨H', e, r, d', by simp [scanPast, hwake, hskip], by simpa [hs.split] using hq'', hcomp,
      hd', by simp, fun _ => ⟨hrun.skips trivial, hrun.ends, hrun.alike y (by simp)⟩⟩

/-- `scanNext` passes a waiter to wake alone and any other with its run. -/
theorem scanNext_spec (p : Pass n) (hq : Queue True H head q) (hs : Search H q o f a (y :: b) c) :
    ∃ H' e r d, scanNext p H o y = .ok (H', p, nextPhase r d) ∧ Queue True H' head q ∧
      Compressed H H' ∧ y :: b = e ++ r :: d ∧ (H.wake y = true → e = []) ∧
      (H.wake y = false → (∀ z ∈ e, H.skip z ≠ none) ∧ H.skip r = none ∧
        ∀ z ∈ e ++ [r], key H z = key H y) := by
  obtain ⟨H', e, r, d, hpast, hq', hcomp, hsplit, hrest⟩ := scanPast_spec hq hs
  refine ⟨H', e, r, d, ?_, hq', hcomp, hsplit, hrest⟩
  have hlast : (e ++ r :: d).getLast? = some o := by
    rw [← hsplit, ← getLast?_append_cons a b y, hs.last]
  cases d with
  | nil =>
    obtain rfl : r = o := by simpa using hlast
    simp [scanNext, hpast, nextPhase]
  | cons z d =>
    have hq'' : Queue True H' head ((f ++ a ++ e) ++ r :: z :: (d ++ c)) := by
      have := hq'
      rw [hs.split, hsplit] at this
      simpa using this
    have hro : r ≠ o := by
      rintro rfl
      refine (notMem_of_nodup hq''.nodup).2 ?_
      have := LinkedRing.last_mem (a := e ++ [r]) (by simpa using hlast)
      rcases mem_cons.1 this with h | h <;> simp [h]
    have hnext : nextOf H' r = .ok z := by simp [nextOf, hq''.ring.next_mid]
    simp [scanNext, hpast, hro, hnext, nextPhase]

/-! ### One waiter -/

/-- Marking a waiter concerns no other. -/
theorem ScanFrame.setWake (H : Heap n) (y : Fin n) (b : Bool) : ScanFrame H (H.setWake y b) :=
  ⟨rfl, rfl, rfl, fun _ => Iff.rfl⟩

theorem Queue.setWake (hq : Queue True H head q) (y : Fin n)
    (b : Bool) : Queue True (H.setWake y b) head q := { hq with }

theorem Search.notMem (hq : Queue True H head q) (hs : Search H q o f a (y :: b) c) : y ∉ a := by
  have hnd := hq.nodup
  rw [hs.split, append_assoc] at hnd
  have := (nodup_append.1 (nodup_append.1 hnd).2.1).1
  exact (notMem_of_nodup this).1

/-- The walk over `a` goes on over the run `e ++ [r]` of waiters that stay. -/
theorem Found.stay {e : List (Fin n)} {r : Fin n} (hf : Found p H a)
    (hy : (e ++ [r]).head? = some y) (hwake : H.wake y = false) (he : ∀ z ∈ e, H.skip z ≠ none)
    (halike : ∀ z ∈ e ++ [r], wakes p.truth H z = false)
    (hrun : p.w = none → ∀ z ∈ e ++ [r], runnable p.truth H z = false) :
    Found p H (a ++ (e ++ [r])) := by
  cases hf with
  | nothing hw hpw ha =>
    exact .nothing hw hpw (forall_mem_append.2 ⟨ha, hrun hw⟩)
  | @reader a b w hat hhow hfresh =>
    rw [append_assoc, cons_append]
    refine .reader hat hhow ⟨hfresh.first, ?_⟩
    rw [← cons_append, isChain_append]
    refine ⟨hfresh.chain, ?_, ?_⟩
    · -- Inside the run nothing is visited.
      have hno : ∀ u ∈ e, ∀ v, (wakes p.truth H u = true ∨ H.skip u = none) →
          H.wake v = wakes p.truth H v := fun u hu v h => by
        rw [halike u (by simp [hu])] at h
        exact absurd (h.resolve_left (by simp)) (he u hu)
      refine isChain_append.2 ⟨?_, by simp, fun u hu v _ => hno u (mem_of_getLast? hu) v⟩
      exact (pairwise_of_forall_mem_list fun u hu v _ => hno u hu v).isChain
    · intro u _ z hz _
      obtain rfl : z = y := by
        rw [hy] at hz
        simpa using hz.symm
      rw [hwake, halike z (mem_of_mem_head? hz)]

/-- The walk over `a` goes on with the waiter `y` to wake. -/
theorem Found.wake (hf : Found p H a) (hw : p.w ≠ none) (hwake : H.wake y = wakes p.truth H y) :
    Found p H (a ++ [y]) := by
  cases hf with
  | nothing hw' => exact absurd hw' hw
  | @reader a b w hat hhow hfresh =>
    rw [append_assoc, cons_append]
    refine .reader hat hhow ⟨hfresh.first, ?_⟩
    rw [← cons_append, isChain_append]
    refine ⟨hfresh.chain, by simp, fun u _ z hz _ => ?_⟩
    obtain rfl : y = z := by simpa using hz
    exact hwake

/-- Which phase the walk is in once `a` is walked and `d` is to go. -/
theorem Walk.of_found {d : List (Fin n)} {r : Fin n} (hs : Search H q o f a d c) (hf : Found p H a)
    (hr : a.getLast? = some r) : Walk H q p o f c d.length (nextPhase r d) := by
  cases d with
  | nil => exact .walked hs hf
  | cons z d =>
    rw [nextPhase, ← hr]
    exact .walking hs hf

theorem Found.compressed (hf : Found p H a) (hcomp : Compressed H H') : Found p H' a :=
  hf.congr (fun x _ => by rw [hcomp.fields.key]) (fun x _ => by rw [hcomp.fields.wake])
    (fun x _ => (hcomp.none_iff x).1) fun x _ => (hcomp.none_iff x).2

section

variable (hq : Queue True H head q)
include hq

section

variable (hs : Search H q o f a (y :: b) c)
include hs

/-- The walk passes a waiter that stays, with its run. -/
theorem scanNext_stay (hf : Found p H a) (hwake : H.wake y = false) (hy : wakes p.truth H y = false)
    (hrun : p.w = none → runnable p.truth H y = false) :
    ∃ H' ph k, scanNext p H o y = .ok (H', p, ph) ∧ Queue True H' head q ∧ key H' = key H ∧
      Walk H' q p o f c k ph ∧ k ≤ b.length := by
  obtain ⟨H', e, r, d, hnext, hq', hcomp, hsplit, -, hstay⟩ := scanNext_spec p hq hs
  obtain ⟨he, -, halike⟩ := hstay hwake
  have hf' : Found p H (a ++ (e ++ [r])) := by
    refine hf.stay ?_ hwake he (fun z hz => ?_) fun hw z hz => ?_
    · have := congrArg head? hsplit
      cases e <;> simpa using this.symm
    · rw [wakes_congr (halike z hz), hy]
    · rw [runnable_congr (halike z hz), hrun hw]
  refine ⟨H', _, d.length, hnext, hq', hcomp.fields.key,
    .of_found (hs.frame hcomp.scanFrame ?_) (hf'.compressed hcomp) (by simp), ?_⟩
  · rw [hsplit]
    simp
  · have := congrArg length hsplit
    simp at this
    omega

/-- The walk passes a waiter to wake. -/
theorem scanNext_wake (hf : Found p H (a ++ [y])) (hwake : H.wake y = true) :
    ∃ H' ph k, scanNext p H o y = .ok (H', p, ph) ∧ Queue True H' head q ∧ key H' = key H ∧
      Walk H' q p o f c k ph ∧ k ≤ b.length := by
  obtain ⟨H', e, r, d, hnext, hq', hcomp, hsplit, hnil, -⟩ := scanNext_spec p hq hs
  obtain rfl := hnil hwake
  obtain ⟨rfl, rfl⟩ : y = r ∧ b = d := by simpa using hsplit
  exact ⟨H', _, b.length, hnext, hq', hcomp.fields.key,
    .of_found (hs.frame hcomp.scanFrame (by simp)) (hf.compressed hcomp) (by simp), le_rfl⟩

/-- The first waiter that can run is found. -/
theorem FoundAt.of_nothing (hf : Found p H a) (hw : p.w = none) (hrun : runnable p.truth H y = true)
    (hwake : H.wake y = true) : FoundAt { p with w := some y, pw := a.getLast? } H a y := by
  cases hf with
  | reader hat => exact absurd hat.found (by simp [hw])
  | nothing _ _ ha =>
    refine ⟨rfl, rfl, ha, fun x hx => ?_, hrun, hwake⟩
    -- If `x` skipped it would be like `y`, which can run.
    by_contra hskip
    obtain ⟨a, rfl⟩ := getLast?_eq_some_iff.1 hx
    have hq' : Queue True H head ((f ++ a) ++ x :: y :: (b ++ c)) := by simpa [hs.split] using hq
    obtain ⟨z, hz, hkey⟩ := hq'.key_successor hskip
    obtain rfl : y = z := by simpa using hz
    have := ha x (by simp)
    rw [runnable_congr hkey, hrun] at this
    simp at this

/-- A round of the walk over the queue. -/
theorem scanRound_spec (hf : Found p H a) :
    ∃ H' w pw ph k, scanRound p H o a.getLast? y = .ok (H', { p with w := w, pw := pw }, ph) ∧
      Queue True H' head q ∧ key H' = key H ∧ Walk H' q { p with w := w, pw := pw } o f c k ph ∧
      k ≤ b.length := by
  have hya := hs.notMem hq
  -- What the walk has found does not depend on the flag of `y`.
  have hfound : ∀ v, Found p (H.setWake y v) a := fun v =>
    hf.congr (fun _ _ => rfl)
      (fun x hx => Function.update_of_ne (ne_of_mem_of_not_mem hx hya) _ _) (fun _ _ => id)
      fun _ _ => id
  have hset : ∀ v, (H.setWake y v).wake y = v := fun v => Function.update_self _ _ _
  have htwice : (H.setWake y false).setWake y true = H.setWake y true := by
    simp [Heap.setWake]
  have hstay : wakes p.truth H y = false → (p.w = none → runnable p.truth H y = false) →
      ∃ H' ph k, scanNext p (H.setWake y false) o y = .ok (H', p, ph) ∧ Queue True H' head q ∧
        key H' = key H ∧ Walk H' q p o f c k ph ∧ k ≤ b.length := fun hy hrun =>
    scanNext_stay (hq.setWake y false) (hs.frame (.setWake H y false) rfl) (hfound false)
      (hset false) hy hrun
  have hfresh : runnable p.truth H y = true → H.how y = .kShared →
      (H.setWake y true).wake y = wakes p.truth (H.setWake y true) y := fun hrun hhow => by
    have : wakes p.truth (H.setWake y true) y = wakes p.truth H y := wakes_congr rfl
    rw [hset true, this, wakes, hrun, hhow]
    rfl
  have hsearch := hs.frame (ScanFrame.setWake H y true) rfl
  have hround : scanRound p H o a.getLast? y =
      if runnable p.truth H y then
        if p.w.isNone then
          if H.how y = .kExclusive then
            .ok (H.setWake y true, { p with w := some y, pw := a.getLast? }, .spin)
          else scanNext { p with w := some y, pw := a.getLast? } (H.setWake y true) o y
        else if H.how y = .kShared then scanNext p (H.setWake y true) o y
        else scanNext p (H.setWake y false) o y
      else scanNext p (H.setWake y false) o y := by
    rw [scanRound, htwice]
    rfl
  rw [hround]
  by_cases hrun : runnable p.truth H y = true
  · rw [if_pos hrun]
    by_cases hw : p.w = none
    · rw [if_pos (by simp [hw])]
      have hat := FoundAt.of_nothing (hq.setWake y true) hsearch (hfound true) hw hrun (hset true)
      split_ifs with hhow
      · refine ⟨_, _, _, _, 0, rfl, hq.setWake y true, rfl, .writer (b := b) ?_ hat hhow,
          Nat.zero_le _⟩
        exact hs.frame (.setWake H y true) (by simp)
      have hshared : H.how y = .kShared := by
        cases h : H.how y with
        | kShared => rfl
        | kExclusive => exact absurd h hhow
      obtain ⟨H', ph, k, hnext, h⟩ := scanNext_wake (hq.setWake y true) hsearch
        (.reader hat hshared ⟨hfresh hrun hshared, by simp⟩) (hset true)
      exact ⟨H', _, _, ph, k, hnext, h⟩
    · rw [if_neg (by simpa using hw)]
      split_ifs with hhow
      · obtain ⟨H', ph, k, hnext, h⟩ := scanNext_wake (hq.setWake y true) hsearch
          ((hfound true).wake hw (hfresh hrun hhow)) (hset true)
        exact ⟨H', p.w, p.pw, ph, k, hnext, h⟩
      · obtain ⟨H', ph, k, hnext, h⟩ := hstay (by simp [wakes, hhow]) fun h => absurd h hw
        exact ⟨H', p.w, p.pw, ph, k, hnext, h⟩
  · rw [if_neg hrun]
    have hrun : runnable p.truth H y = false := by simpa using hrun
    obtain ⟨H', ph, k, hnext, h⟩ := hstay (by simp [wakes, hrun]) fun _ => hrun
    exact ⟨H', p.w, p.pw, ph, k, hnext, h⟩

end

end

end Abseil.Mutex
