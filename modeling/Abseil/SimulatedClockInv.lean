import Abseil.SimulatedClock

/-!
# What every step of the clock keeps

A `WakeUpInfo` is in `waiters_` or in the `wakeup_calls` of one call of `UpdateTime`, once, until it
is woken up or found cancelled (`Lists`). What the flags of a call say depends on where it is
(`CallOk`). The two together are kept by every step (`Inv.step`).
-/

namespace Abseil.SimulatedClock

open List

/-! ## Lists in the order of a key -/

section Sorted

variable {α τ : Type*} [LinearOrder τ] {key : α → τ} {t : τ} {a : α}

theorem mem_takeWhile_key : ∀ {l : List α}, (l.Pairwise fun a b => key a ≤ key b) →
    (a ∈ l.takeWhile (key · ≤ t) ↔ a ∈ l ∧ key a ≤ t)
  | [], _ => by simp
  | b :: l, h => by
    obtain ⟨hb, hl⟩ := pairwise_cons.1 h
    rw [takeWhile_cons]
    by_cases hbt : key b ≤ t
    · rw [if_pos (decide_eq_true hbt), mem_cons, mem_cons, mem_takeWhile_key hl]
      constructor
      · rintro (rfl | ⟨ha, hat⟩)
        · exact ⟨.inl rfl, hbt⟩
        · exact ⟨.inr ha, hat⟩
      · rintro ⟨rfl | ha, hat⟩
        · exact .inl rfl
        · exact .inr ⟨ha, hat⟩
    · rw [if_neg (by simpa using hbt)]
      constructor
      · intro h'
        cases h'
      · rintro ⟨ha, hat⟩
        rcases mem_cons.1 ha with rfl | ha
        · exact absurd hat hbt
        · exact absurd ((hb a ha).trans hat) hbt

theorem mem_dropWhile_key {l : List α} (h : l.Pairwise fun a b => key a ≤ key b)
    (hnd : l.Nodup) : a ∈ l.dropWhile (key · ≤ t) ↔ a ∈ l ∧ ¬key a ≤ t := by
  have happ := takeWhile_append_dropWhile (p := fun x => decide (key x ≤ t)) (l := l)
  have hdisj : a ∈ l.takeWhile (key · ≤ t) → a ∉ l.dropWhile (key · ≤ t) := by
    rw [← happ] at hnd
    exact fun h1 h2 => disjoint_of_nodup_append hnd h1 h2
  have hmem : a ∈ l ↔ a ∈ l.takeWhile (key · ≤ t) ∨ a ∈ l.dropWhile (key · ≤ t) := by
    rw [← mem_append, happ]
  rw [mem_takeWhile_key h] at hdisj hmem
  tauto

end Sorted

variable {τ δ : Type*} {C : Calls τ} {s s' : State τ} {w : ℕ}

/-! ## What holds of a call -/

/-- The `WakeUpInfo` is in `waiters_` or in the `wakeup_calls` of a call of `UpdateTime`. -/
def State.Listed (s : State τ) (w : ℕ) : Prop := w ∈ s.waiters ∨ ∃ k, w ∈ (s.update k).calls

/-- `UpdateTime` goes on with a part of its list. -/
theorem calls_setUpdate {k : ℕ} {u : Stage} (hsub : u.calls.Sublist (s.update k).calls) (j : ℕ) :
    ((s.setUpdate k u).update j).calls.Sublist (s.update j).calls := by
  rcases eq_or_ne j k with rfl | hne
  · rwa [s.setUpdate_self]
  · rw [s.setUpdate_ne hne]

theorem Listed.of_setUpdate {k : ℕ} {u : Stage} (hsub : u.calls.Sublist (s.update k).calls) {v : ℕ}
    (hl : (s.setUpdate k u).Listed v) : s.Listed v :=
  hl.imp_right fun ⟨j, hj⟩ => ⟨j, (calls_setUpdate hsub j).subset hj⟩

/-- What new flags leave as it is. -/
theorem info_setInfo {i : WakeUpInfo} {f : WakeUpInfo → Bool} (hf : f i = f (s.info w)) (v : ℕ) :
    f ((s.setInfo w i).info v) = f (s.info v) := by
  rcases eq_or_ne v w with rfl | hne
  · rw [s.setInfo_self, hf]
  · rw [s.setInfo_ne hne]

/-- Nobody knows of the call. -/
def Unknown (s : State τ) (w : ℕ) : Prop := ¬s.Listed w ∧ s.info w = .made

/-- No `WakeUp` will touch the `mu` of the call. -/
def Settled (s : State τ) (w : ℕ) : Prop :=
  ((s.info w).wakeupCalled = true → (s.info w).wakeupTimePassed = true) ∧
    (s.Listed w → (s.info w).cancelled = true)

/-- What holds of a call in a phase. -/
def CallOk (s : State τ) (w : ℕ) : Phase → Prop
  | .idle | .entered => Unknown s w
  | .evaluated r => Unknown s w ∧ r = s.cond w
  | .registered | .awaiting | .awoken => (s.info w).cancelled = false
  | .cancelling b => (s.info w).cancelled = true ∧ (s.info w).wakeupCalled = b
  | .awaitingWakeUp => (s.info w).cancelled = true ∧ (s.info w).wakeupCalled = true
  | .finishing | .left => Settled s w
  | .returned v => Settled s w ∧ v = s.cond w

variable {p : Phase}

/-- Only the flags, the condition and the lists count. -/
theorem CallOk.mono (h : CallOk s w p) (hi : s'.info w = s.info w) (hc : s'.cond w = s.cond w)
    (hl : s'.Listed w → s.Listed w) : CallOk s' w p := by
  have hu : Unknown s w → Unknown s' w := fun ⟨h1, h2⟩ => ⟨fun h => h1 (hl h), by rw [hi]; exact h2⟩
  have hs : Settled s w → Settled s' w := fun ⟨h1, h2⟩ =>
    ⟨by rw [hi]; exact h1, fun h => by rw [hi]; exact h2 (hl h)⟩
  cases p with
  | idle | entered => exact hu h
  | evaluated r => exact ⟨hu h.1, by rw [hc]; exact h.2⟩
  | finishing | left => exact hs h
  | returned v => exact ⟨hs h.1, by rw [hc]; exact h.2⟩
  | _ =>
    simp only [CallOk] at h ⊢
    rwa [hi]

theorem CallOk.iff_of_waits (hp : p.waits = true) :
    CallOk s w p ↔ (s.info w).cancelled = false := by
  cases p <;> first | rfl | cases hp

variable [LinearOrder τ] [VAdd δ τ]

/-! ## The waiters -/

theorem insertWaiter_perm (C : Calls τ) (w : ℕ) (l : List ℕ) :
    (insertWaiter C w l).Perm (w :: l) := by
  refine perm_middle.trans ?_
  rw [takeWhile_append_dropWhile]

theorem insertWaiter_sorted {l : List ℕ}
    (h : l.Pairwise fun a b => C.deadline a ≤ C.deadline b) (hnd : l.Nodup) :
    (insertWaiter C w l).Pairwise fun a b => C.deadline a ≤ C.deadline b := by
  have hdrop : ∀ b ∈ l.dropWhile (C.deadline · ≤ C.deadline w), C.deadline w ≤ C.deadline b :=
    fun b hb => (not_le.1 ((mem_dropWhile_key h hnd).1 hb).2).le
  refine pairwise_append.2 ⟨h.sublist (takeWhile_sublist _),
    pairwise_cons.2 ⟨hdrop, h.sublist (dropWhile_sublist _)⟩, fun a ha => ?_⟩
  have haw := ((mem_takeWhile_key h).1 ha).2
  exact forall_mem_cons.2 ⟨haw, fun b hb => haw.trans (hdrop b hb)⟩

/-! ## The invariant -/

/-- Each `WakeUpInfo` is in one place, and `wakeup_called_` is set while a `WakeUp` is between its
two sections. -/
structure Lists (C : Calls τ) (s : State τ) : Prop where
  sorted : s.waiters.Pairwise fun a b => C.deadline a ≤ C.deadline b
  nodup : s.waiters.Nodup
  calls_nodup : ∀ k, (s.update k).calls.Nodup
  apart : ∀ w ∈ s.waiters, ∀ k, w ∉ (s.update k).calls
  owner : ∀ w k k', w ∈ (s.update k).calls → w ∈ (s.update k').calls → k = k'
  unpassed : ∀ w, s.Listed w → (s.info w).wakeupTimePassed = false
  called : ∀ w, (s.info w).wakeupCalled = true →
    (s.info w).wakeupTimePassed = true ∨ ∃ k rest n, s.update k = .waking (w :: rest) true n
  locking : ∀ k w rest n, s.update k = .waking (w :: rest) true n →
    (s.info w).wakeupCalled = true

/-- The lists of the calls get shorter, and the flags still say what they should. -/
theorem Lists.mono (h : Lists C s) (hw : s'.waiters = s.waiters)
    (hcalls : ∀ k, (s'.update k).calls.Sublist (s.update k).calls)
    (hunpassed : ∀ w, s'.Listed w → (s'.info w).wakeupTimePassed = false)
    (hcalled : ∀ w, (s'.info w).wakeupCalled = true →
      (s'.info w).wakeupTimePassed = true ∨ ∃ k rest n, s'.update k = .waking (w :: rest) true n)
    (hlocking : ∀ k w rest n, s'.update k = .waking (w :: rest) true n →
      (s'.info w).wakeupCalled = true) : Lists C s' :=
  ⟨hw ▸ h.sorted, hw ▸ h.nodup, fun k => (h.calls_nodup k).sublist (hcalls k),
    fun v hv k hk => h.apart v (hw ▸ hv) k ((hcalls k).subset hk),
    fun v k1 k2 h1 h2 => h.owner v k1 k2 ((hcalls k1).subset h1) ((hcalls k2).subset h2),
    hunpassed, hcalled, hlocking⟩

/-- The invariant of runs. -/
structure Inv (C : Calls τ) (s : State τ) : Prop where
  lists : Lists C s
  call : ∀ w, CallOk s w (s.phase w)
  finite : {w | s.phase w ≠ .idle}.Finite

theorem Inv.initial (C : Calls τ) (now : τ) (cond : ℕ → Bool) : Inv C (.initial now cond) := by
  have hlisted : ∀ w, ¬(State.initial now cond).Listed w := by
    rintro w (h | ⟨k, h⟩) <;> cases h
  refine ⟨⟨.nil, .nil, fun _ => .nil, nofun,
    fun _ _ _ h => absurd h not_mem_nil, fun w h => absurd h (hlisted w), fun _ h => ?_,
    fun _ _ _ _ h => ?_⟩, fun w => ⟨hlisted w, rfl⟩, ?_⟩
  · cases h
  · exact absurd h (by simp [State.initial])
  · simp [State.initial]

/-- A listed call that is not cancelled waits. -/
theorem Inv.waits_of_listed (h : Inv C s) (hl : s.Listed w) (hc : (s.info w).cancelled = false) :
    (s.phase w).waits = true := by
  have hne : (s.info w).cancelled ≠ true := by rw [hc]; exact Bool.false_ne_true
  have hok := h.call w
  generalize s.phase w = p at hok
  cases p with
  | registered | awaiting | awoken => rfl
  | idle | entered => exact absurd hl hok.1
  | evaluated r => exact absurd hl hok.1.1
  | cancelling b | awaitingWakeUp => exact absurd hok.1 hne
  | finishing | left => exact absurd (hok.2 hl) hne
  | returned v => exact absurd (hok.1.2 hl) hne

/-! ## Steps of a waiter -/

/-- A call goes on to a phase whose facts hold. -/
theorem Inv.of_setPhase (hl : Lists C s) (hcall : ∀ v, v ≠ w → CallOk s v (s.phase v))
    (hf : {v | s.phase v ≠ .idle}.Finite) (hp : CallOk s w p) : Inv C (s.setPhase w p) := by
  refine ⟨{ hl with }, fun v => ?_, (hf.insert w).subset fun v hv => ?_⟩
  · rcases eq_or_ne v w with rfl | hne
    · rw [s.setPhase_self]
      exact hp.mono rfl rfl id
    · rw [s.setPhase_ne hne]
      exact (hcall v hne).mono rfl rfl id
  · rcases eq_or_ne v w with rfl | hne
    · exact Set.mem_insert _ _
    · refine Set.mem_insert_of_mem _ fun h => hv ?_
      rwa [s.setPhase_ne hne]

theorem Inv.setPhase (h : Inv C s) (hp : CallOk s w p) : Inv C (s.setPhase w p) :=
  .of_setPhase h.lists (fun v _ => h.call v) h.finite hp

theorem Inv.register (h : Inv C s) {r : Bool} (hp : s.phase w = .evaluated r) :
    Inv C (register C s w) := by
  have hw := hp ▸ h.call w
  have hnot := hw.1.1
  have hmem : ∀ v, v ∈ insertWaiter C w s.waiters ↔ v = w ∨ v ∈ s.waiters := fun v => by
    rw [(insertWaiter_perm C w s.waiters).mem_iff, mem_cons]
  set s0 : State τ :=
    { s with waiters := insertWaiter C w s.waiters, numAwaitCalls := s.numAwaitCalls + 1 }
  have hlisted : ∀ v, v ≠ w → (s0.setInfo w .made).Listed v → s.Listed v :=
    fun v hv hl => hl.imp_left fun hl => ((hmem v).1 hl).resolve_left hv
  refine .of_setPhase ⟨insertWaiter_sorted h.lists.sorted h.lists.nodup, ?_, h.lists.calls_nodup,
    ?_, h.lists.owner, ?_, ?_, ?_⟩ ?_ h.finite ?_
  · refine (insertWaiter_perm C w s.waiters).nodup_iff.2 (nodup_cons.2 ⟨?_, h.lists.nodup⟩)
    exact fun hin => hnot (.inl hin)
  · intro v hv k hk
    rcases (hmem v).1 hv with rfl | hv
    · exact hnot (.inr ⟨k, hk⟩)
    · exact h.lists.apart v hv k hk
  · intro v hl
    rcases eq_or_ne v w with rfl | hv
    · rw [s0.setInfo_self]
      rfl
    · rw [s0.setInfo_ne hv]
      exact h.lists.unpassed v (hlisted v hv hl)
  · intro v hc
    rcases eq_or_ne v w with rfl | hv
    · rw [s0.setInfo_self] at hc
      cases hc
    · rw [s0.setInfo_ne hv] at hc ⊢
      exact h.lists.called v hc
  · intro k v rest n hk
    have hv : v ≠ w := by
      rintro rfl
      refine hnot (.inr ⟨k, ?_⟩)
      have hmem := congrArg (fun u => v ∈ Stage.calls u) hk
      exact hmem.mpr mem_cons_self
    rw [s0.setInfo_ne hv]
    exact h.lists.locking k v rest n hk
  · intro v hv
    exact (h.call v).mono (s0.setInfo_ne hv _) rfl (hlisted v hv)
  · rw [CallOk, s0.setInfo_self]
    rfl

/-- Flags that are set without a change of the two that count for the lists. -/
theorem Lists.setInfo (h : Lists C s) {i : WakeUpInfo}
    (hp : i.wakeupTimePassed = (s.info w).wakeupTimePassed)
    (hc : i.wakeupCalled = (s.info w).wakeupCalled) : Lists C (s.setInfo w i) := by
  have hpassed := info_setInfo hp
  have hcalled := info_setInfo hc
  refine h.mono rfl (fun _ => List.Sublist.refl _) (fun v hl => (hpassed v).trans (h.unpassed v hl))
    (fun v hv => ?_) fun k v rest n hk => (hcalled v).trans (h.locking k v rest n hk)
  exact (h.called v ((hcalled v).symm.trans hv)).imp_left (hpassed v).trans

theorem Inv.cancel (h : Inv C s) :
    Inv C ((s.setInfo w { s.info w with cancelled := true }).setPhase w
      (.cancelling (s.info w).wakeupCalled)) := by
  refine .of_setPhase (h.lists.setInfo rfl rfl) (fun v hv => ?_) h.finite ?_
  · exact (h.call v).mono (s.setInfo_ne hv _) rfl id
  · rw [CallOk, s.setInfo_self]
    exact ⟨rfl, rfl⟩

/-! ## Steps of `UpdateTime` -/

section Update

variable {k n : ℕ} {rest : List ℕ} {b : Bool}

theorem mem_updateTime_calls (h : Lists C s) (u : Updater τ δ) {v : ℕ} :
    v ∈ ((updateTime C s k u).update k).calls ↔ v ∈ s.waiters ∧ C.deadline v ≤ u.apply s.now := by
  rw [updateTime, State.setUpdate_self]
  exact mem_takeWhile_key h.sorted

theorem mem_updateTime_waiters (h : Lists C s) (u : Updater τ δ) {v : ℕ} :
    v ∈ (updateTime C s k u).waiters ↔ v ∈ s.waiters ∧ ¬C.deadline v ≤ u.apply s.now :=
  mem_dropWhile_key h.sorted h.nodup

theorem Inv.update (h : Inv C s) (hk : s.update k = .idle) (u : Updater τ δ) :
    Inv C (updateTime C s k u) := by
  have hother : ∀ k', k' ≠ k → (updateTime C s k u).update k' = s.update k' :=
    fun k' hne => State.setUpdate_ne _ hne _
  have hlisted : ∀ v, (updateTime C s k u).Listed v → s.Listed v := by
    rintro v (hv | ⟨k', hv⟩)
    · exact .inl ((mem_updateTime_waiters h.lists u).1 hv).1
    · rcases eq_or_ne k' k with rfl | hne
      · exact .inl ((mem_updateTime_calls h.lists u).1 hv).1
      · rw [hother k' hne] at hv
        exact .inr ⟨k', hv⟩
  have hlock : ∀ k' v rest n,
      (updateTime C s k u).update k' = .waking (v :: rest) true n ↔
        s.update k' = .waking (v :: rest) true n := by
    intro k' v rest n
    rcases eq_or_ne k' k with rfl | hne
    · rw [hk, updateTime, State.setUpdate_self]
      simp
    · rw [hother k' hne]
  -- what the call took is in no other place
  have htaken : ∀ v k', k' ≠ k → v ∈ ((updateTime C s k u).update k).calls →
      v ∉ ((updateTime C s k u).update k').calls := by
    intro v k' hne hv hv'
    rw [hother k' hne] at hv'
    exact h.lists.apart v ((mem_updateTime_calls h.lists u).1 hv).1 k' hv'
  refine ⟨⟨h.lists.sorted.sublist (dropWhile_sublist _),
    h.lists.nodup.sublist (dropWhile_sublist _), fun k' => ?_, fun v hv k' hv' => ?_,
    fun v k1 k2 h1 h2 => ?_, fun v hl => h.lists.unpassed v (hlisted v hl), fun v hc => ?_,
    fun k' v rest n hk' => h.lists.locking k' v rest n ((hlock k' v rest n).1 hk')⟩,
    fun v => (h.call v).mono rfl rfl (hlisted v), h.finite⟩
  · rcases eq_or_ne k' k with rfl | hne
    · rw [updateTime, State.setUpdate_self]
      exact h.lists.nodup.sublist (takeWhile_sublist _)
    · rw [hother k' hne]
      exact h.lists.calls_nodup k'
  · obtain ⟨hin, hlate⟩ := (mem_updateTime_waiters h.lists u).1 hv
    rcases eq_or_ne k' k with rfl | hne
    · exact hlate ((mem_updateTime_calls h.lists u).1 hv').2
    · rw [hother k' hne] at hv'
      exact h.lists.apart v hin k' hv'
  · by_contra hne
    rcases eq_or_ne k1 k with rfl | h₁k
    · exact htaken v k2 (Ne.symm hne) h1 h2
    · rcases eq_or_ne k2 k with rfl | h₂k
      · exact htaken v k1 hne h2 h1
      · rw [hother k1 h₁k] at h1
        rw [hother k2 h₂k] at h2
        exact hne (h.lists.owner v k1 k2 h1 h2)
  · refine (h.lists.called v hc).imp_right ?_
    rintro ⟨k', rest, n, hk'⟩
    exact ⟨k', rest, n, (hlock k' v rest n).2 hk'⟩

/-- A call that leaves the list it is in is in no other. -/
theorem Lists.not_listed {u : Stage} (h : Lists C s) (hk : (s.update k).calls = w :: u.calls) :
    ¬(s.setUpdate k u).Listed w := by
  have hin : w ∈ (s.update k).calls := by rw [hk]; exact mem_cons_self
  rintro (hv | ⟨k', hv⟩)
  · exact h.apart w hv k hin
  · rcases eq_or_ne k' k with rfl | hne
    · rw [s.setUpdate_self] at hv
      exact (nodup_cons.1 (hk ▸ h.calls_nodup k')).1 hv
    · rw [s.setUpdate_ne hne] at hv
      exact hne (h.owner w k' k hv hin)

/-- `UpdateTime` goes on to a shorter list of calls, or to the second section of `WakeUp`. -/
theorem Lists.setUpdate {u : Stage} (h : Lists C s) (hsub : u.calls.Sublist (s.update k).calls)
    (hold : ∀ v rest n, s.update k = .waking (v :: rest) true n →
      (s.info v).wakeupTimePassed = true)
    (hnew : ∀ v rest n, u = .waking (v :: rest) true n → (s.info v).wakeupCalled = true) :
    Lists C (s.setUpdate k u) := by
  refine h.mono rfl (calls_setUpdate hsub) (fun v hl => h.unpassed v (Listed.of_setUpdate hsub hl))
    (fun v hc => ?_) fun k' v rest n hk' => ?_
  · rcases h.called v hc with hp | ⟨k', rest, n, hk'⟩
    · exact .inl hp
    · rcases eq_or_ne k' k with rfl | hne
      · exact .inl (hold v rest n hk')
      · exact .inr ⟨k', rest, n, (s.setUpdate_ne hne u).trans hk'⟩
  · rcases eq_or_ne k' k with rfl | hne
    · exact hnew v rest n ((s.setUpdate_self k' u).symm.trans hk')
    · exact h.locking k' v rest n ((s.setUpdate_ne hne u).symm.trans hk')

/-- The list of calls gets shorter. -/
theorem Inv.setUpdate {u : Stage} (h : Inv C s) (hsub : u.calls.Sublist (s.update k).calls)
    (hold : ∀ v rest n, s.update k ≠ .waking (v :: rest) true n)
    (hnew : ∀ v rest n, u ≠ .waking (v :: rest) true n) : Inv C (s.setUpdate k u) :=
  ⟨h.lists.setUpdate hsub (fun v rest n hk => absurd hk (hold v rest n))
    fun v rest n hu => absurd hu (hnew v rest n),
    fun v => (h.call v).mono rfl rfl (Listed.of_setUpdate hsub), h.finite⟩

/-- A call that is not cancelled goes on to the second section of `WakeUp`. -/
theorem Inv.callWakeUp (h : Inv C s) (hk : s.update k = .waking (w :: rest) false n)
    (hw : (s.info w).cancelled = false) :
    Inv C ((s.setInfo w { s.info w with wakeupCalled := true }).setUpdate k
      (.waking (w :: rest) true n)) := by
  have hlisted : s.Listed w := .inr ⟨k, by rw [hk]; exact mem_cons_self⟩
  set s1 := s.setInfo w { s.info w with wakeupCalled := true }
  have hsub : (Stage.waking (w :: rest) true n).calls.Sublist (s1.update k).calls := by
    rw [show s1.update k = s.update k from rfl, hk]
    exact .refl _
  have hpassed : ∀ v, (s1.info v).wakeupTimePassed = (s.info v).wakeupTimePassed :=
    info_setInfo rfl
  have hl : ∀ v, (s1.setUpdate k (.waking (w :: rest) true n)).Listed v → s.Listed v :=
    fun v hv => Listed.of_setUpdate hsub hv
  refine ⟨h.lists.mono rfl (calls_setUpdate hsub) (fun v hv => ?_) (fun v hv => ?_)
    fun k' v rest' n' hk' => ?_, fun v => ?_, h.finite⟩
  · exact (hpassed v).trans (h.lists.unpassed v (hl v hv))
  · rcases eq_or_ne v w with rfl | hne
    · exact .inr ⟨k, rest, n, s1.setUpdate_self k _⟩
    have hinfo : s1.info v = s.info v := s.setInfo_ne hne _
    rcases h.lists.called v (by rw [← hinfo]; exact hv) with hp | ⟨k', rest', n', hk'⟩
    · exact .inl (by rw [← hinfo] at hp; exact hp)
    · refine .inr ⟨k', rest', n', (s1.setUpdate_ne ?_ _).trans hk'⟩
      rintro rfl
      rw [hk] at hk'
      simp at hk'
  · rcases eq_or_ne v w with rfl | hne
    · exact congrArg WakeUpInfo.wakeupCalled (s.setInfo_self v _)
    have hinfo : s1.info v = s.info v := s.setInfo_ne hne _
    have hk'' : s.update k' = .waking (v :: rest') true n' := by
      rcases eq_or_ne k' k with rfl | hkk
      · rw [s1.setUpdate_self] at hk'
        simp only [Stage.waking.injEq, cons.injEq] at hk'
        exact absurd hk'.1.1.symm hne
      · rwa [s1.setUpdate_ne hkk] at hk'
    exact (congrArg WakeUpInfo.wakeupCalled hinfo).trans (h.lists.locking k' v rest' n' hk'')
  · rcases eq_or_ne v w with rfl | hne
    · refine (CallOk.iff_of_waits (h.waits_of_listed hlisted hw)).2 ?_
      exact (congrArg WakeUpInfo.cancelled (s.setInfo_self v _)).trans hw
    · exact (h.call v).mono (s.setInfo_ne hne _) rfl (hl v)

/-- The second section of `WakeUp`. -/
theorem Inv.wakeUp (h : Inv C s) (hk : s.update k = .waking (w :: rest) true n) :
    Inv C ((s.setInfo w { s.info w with wakeupTimePassed := true }).setUpdate k
      (.waking rest false n)) := by
  have hcalls : (s.update k).calls = w :: rest := by rw [hk]; rfl
  have hin : w ∈ (s.update k).calls := by rw [hcalls]; exact mem_cons_self
  set s1 := s.setInfo w { s.info w with wakeupTimePassed := true }
  have hsub : (Stage.waking rest false n).calls.Sublist (s1.update k).calls := by
    rw [show s1.update k = s.update k from rfl, hcalls]
    exact sublist_cons_self w rest
  set s2 := s1.setUpdate k (.waking rest false n)
  have hgone : ¬s2.Listed w := h.lists.not_listed hcalls
  have hcalled : ∀ v, (s1.info v).wakeupCalled = (s.info v).wakeupCalled :=
    info_setInfo rfl
  have hl : ∀ v, s2.Listed v → s.Listed v := fun v hv =>
    Listed.of_setUpdate hsub hv
  refine ⟨h.lists.mono rfl (calls_setUpdate hsub) (fun v hv => ?_) (fun v hv => ?_)
    fun k' v rest' n' hk' => ?_, fun v => ?_, h.finite⟩
  · have hne : v ≠ w := fun heq => hgone (heq ▸ hv)
    exact (congrArg WakeUpInfo.wakeupTimePassed (s.setInfo_ne hne _)).trans
      (h.lists.unpassed v (hl v hv))
  · rcases eq_or_ne v w with rfl | hne
    · exact .inl (congrArg WakeUpInfo.wakeupTimePassed (s.setInfo_self v _))
    rcases h.lists.called v ((hcalled v).symm.trans hv) with hp | ⟨k', rest', n', hk'⟩
    · exact .inl ((congrArg WakeUpInfo.wakeupTimePassed (s.setInfo_ne hne _)).trans hp)
    · refine .inr ⟨k', rest', n', (s1.setUpdate_ne ?_ _).trans hk'⟩
      rintro rfl
      rw [hk] at hk'
      simp only [Stage.waking.injEq, cons.injEq] at hk'
      exact hne hk'.1.1.symm
  · have hkk : k' ≠ k := by
      rintro rfl
      rw [s1.setUpdate_self] at hk'
      simp at hk'
    rw [s1.setUpdate_ne hkk] at hk'
    exact (hcalled v).trans (h.lists.locking k' v rest' n' hk')
  rcases eq_or_ne v w with rfl | hne
  · have hok := h.call v
    have hinfo : s2.info v =
        { s.info v with wakeupTimePassed := true } := s.setInfo_self v _
    have hlist : s.Listed v := .inr ⟨k, hin⟩
    have hsettled : (s.Listed v → (s.info v).cancelled = true) →
        Settled s2 v := by
      intro hc
      rw [Settled, hinfo]
      exact ⟨fun _ => rfl, fun _ => hc hlist⟩
    have hphase : s2.phase v = s.phase v := rfl
    rw [hphase]
    generalize s.phase v = p at hok
    cases p with
    | idle | entered => exact absurd hlist hok.1
    | evaluated r => exact absurd hlist hok.1.1
    | finishing | left => exact hsettled hok.2
    | returned r => exact ⟨hsettled hok.1.2, hok.2⟩
    | _ =>
      simp only [CallOk] at hok ⊢
      rwa [hinfo]
  · exact (h.call v).mono (s.setInfo_ne hne _) rfl (hl v)

end Update

/-! ## Every step -/

theorem Inv.change (h : Inv C s) {m : ℕ} (hm : s.Free C m) (value : ℕ → Bool) :
    Inv C { s with cond := fun w => if C.mu w = m then value w else s.cond w } := by
  refine ⟨⟨h.lists.sorted, h.lists.nodup, h.lists.calls_nodup, h.lists.apart, h.lists.owner,
    h.lists.unpassed, h.lists.called, h.lists.locking⟩, fun v => ?_, h.finite⟩
  have hok := h.call v
  rcases eq_or_ne (C.mu v) m with hv | hv
  · -- who has read the condition holds the mutex
    have hfree := hm v hv
    have hphase : ({ s with cond := fun w => if C.mu w = m then value w else s.cond w } :
        State τ).phase v = s.phase v := rfl
    cases hp : s.phase v with
    | evaluated r | returned r =>
      rw [hp] at hfree
      cases hfree
    | _ =>
      rwa [hp] at hok
  · exact hok.mono rfl (if_neg hv) id

/-- Every step keeps the invariant. -/
theorem Inv.step {a : Action τ δ} (h : Inv C s) (hs : Step C s a s') : Inv C s' := by
  have hok := fun w => h.call w
  cases hs with
  | @enter w hp _ =>
    refine h.setPhase ?_
    have := hok w
    rwa [hp] at this
  | @eval w hp =>
    refine h.setPhase ⟨?_, rfl⟩
    have := hok w
    rwa [hp] at this
  | @returnEarly w r hp _ =>
    have hw := hp ▸ hok w
    have h' : Inv C { s with numAwaitCalls := s.numAwaitCalls + 1 } :=
      ⟨⟨h.lists.sorted, h.lists.nodup, h.lists.calls_nodup, h.lists.apart, h.lists.owner,
        h.lists.unpassed, h.lists.called, h.lists.locking⟩, h.call, h.finite⟩
    refine h'.setPhase ⟨⟨fun hc => ?_, fun hl => absurd hl hw.1.1⟩, hw.2⟩
    rw [show _ = WakeUpInfo.made from hw.1.2] at hc
    cases hc
  | register hp _ => exact h.register hp
  | @await w hp =>
    have hw := hp ▸ hok w
    refine h.setPhase ?_
    split <;> exact hw
  | @resume w hp _ _ =>
    have hw := hp ▸ hok w
    exact h.setPhase hw
  | cancel _ => exact h.cancel
  | @awaitWakeUp w b hp =>
    obtain ⟨hc, hb⟩ : CallOk s w (.cancelling b) := hp ▸ hok w
    refine h.setPhase ?_
    split
    · rename_i hif
      rw [Bool.and_eq_true] at hif
      exact ⟨hc, hb.trans hif.1⟩
    · rename_i hif
      refine ⟨fun hcalled => ?_, fun _ => hc⟩
      rw [hb] at hcalled
      simpa [hcalled] using hif
  | @resumeWakeUp w hp hpassed _ =>
    obtain ⟨hc, -⟩ : CallOk s w .awaitingWakeUp := hp ▸ hok w
    exact h.setPhase ⟨fun _ => hpassed, fun _ => hc⟩
  | @finish w hp =>
    have hw := hp ▸ hok w
    exact h.setPhase ⟨hw, rfl⟩
  | @unlock w v hp =>
    have hw := hp ▸ hok w
    exact h.setPhase hw.1
  | update hk => exact h.update hk _
  | @checkCancelled k w rest n hk =>
    split_ifs with hc
    · refine h.setUpdate ?_ ?_ ?_
      · rw [hk]
        exact sublist_cons_self w rest
      · intro v rest' n' hk'
        rw [hk] at hk'
        simp at hk'
      · intro v rest' n' hu
        simp at hu
    · exact h.callWakeUp hk (by simpa using hc)
  | wakeUp hk _ => exact h.wakeUp hk
  | @returnUpdate k b n hk =>
    refine h.setUpdate (nil_sublist _) ?_ ?_
    · intro v rest' n' hk'
      rw [hk] at hk'
      simp at hk'
    · intro v rest' n' hu
      cases hu
  | change hm => exact h.change hm _

theorem Run.inv {h : History τ δ} (hr : Run C h s) : Inv C s := by
  induction hr with
  | initial now cond => exact .initial C now cond
  | step _ hs ih => exact ih.step hs

end Abseil.SimulatedClock
