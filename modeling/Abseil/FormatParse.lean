import Abseil.FormatConversion

/-!
# Parsing a format string

`ParseFormatString` accepts exactly the formats of the grammar and delivers their parts. The
counter `next_arg` keeps the two kinds of specs apart (`Fits`) : it is zero before the first
spec, `-1` behind a positional one, and the number of arguments taken behind another one.
-/

namespace Abseil.StrFormat

open List Positional
open Item (render)

/-- The values of `next_arg` in front of specs that are positional or not. -/
def Fits (k : ℤ) (positional : Bool) : Prop :=
  if positional then k = 0 ∨ k = -1 else 0 ≤ k

/-! ## One item -/

variable {run : List UInt8}

theorem split_run (h : 37 ∉ run) (q : List UInt8) :
    (run ++ 37 :: q).dropWhile (· ≠ 37) = 37 :: q ∧ (run ++ 37 :: q).takeWhile (· ≠ 37) = run := by
  have hrun : ∀ c ∈ run, decide (c ≠ 37) = true :=
    fun c hc => decide_eq_true fun heq => h (heq ▸ hc)
  rw [dropWhile_append_of_pos hrun, takeWhile_append_of_pos hrun]
  exact ⟨rfl, append_nil run⟩

/-- The loop at a `%` that another character follows. -/
theorem parseLoop_percent (fuel : ℕ) (h : 37 ∉ run) (c : UInt8) (q : List UInt8) (k : ℤ)
    (calls : List Call) : parseLoop (fuel + 1) (run ++ 37 :: c :: q) k calls =
      match getTagForChar c with
      | .conv ch =>
        if k < 0 then .ok (false, calls ++ [.append run])
        else (increment k).bind fun n => parseLoop fuel q n (calls ++ [.append run] ++
          [.convertOne { conv := ch, argPosition := some n } [c]])
      | _ =>
        if c ≠ 37 then
          match consumeUnboundConversion (c :: q) {} k with
          | .error .null => .ok (false, calls ++ [.append run])
          | .error e => .error e
          | .ok r => parseLoop fuel r.pos r.nextArg (calls ++ [.append run] ++ [.convertOne r.conv
            ((c :: q).take ((c :: q).length - r.pos.length))])
        else parseLoop fuel q k (calls ++ [.append run] ++ [.append [37]]) := by
  rw [parseLoop, if_neg (by simp)]
  rw [(split_run h _).1, (split_run h _).2]
  rfl

/-- A spec that is a conversion character. -/
def plainSpec (ch : FormatConversionChar) : Spec := ⟨none, [], .none, none, .none, ch⟩

theorem plainSpec_wellFormed {ch : FormatConversionChar} (h : ch ≠ .kNone) :
    (plainSpec ch).WellFormed false :=
  ⟨rfl, trivial, fun _ h => absurd h.symm (Option.some_ne_none _), h, fun _ => ⟨rfl, rfl, rfl, rfl⟩⟩

theorem plainSpec_convert (ch : FormatConversionChar) (k : ℤ) :
    (plainSpec ch).convert k = { conv := ch, argPosition := some (k + 1) } := by
  simp [plainSpec, Spec.convert, Spec.args, Spec.nonBasic, Amount.args, precisionArgs, Amount.input,
    precisionInput, flagBits]

variable {s : Spec} {k : ℤ} {rest : List UInt8}

/-- A text that is read by one spec is read by no other. -/
theorem spec_unique {s' : Spec} (hs : s.WellFormed false) (hs' : s'.WellFormed false)
    (hk : k + s.args < 2 ^ 31) (hk' : k + s'.args < 2 ^ 31) {rest' : List UInt8}
    (h : s.render ++ rest = s'.render ++ rest') :
    s.convert k = s'.convert k ∧ rest = rest' ∧ k + s.args = k + s'.args := by
  have hconsume := consumeConversion_text hs hk rest
  rw [h, consumeConversion_text hs' hk' rest'] at hconsume
  injection hconsume with hconsume
  injection hconsume with h1 h2 h3
  exact ⟨h1.symm, h3.symm, h2.symm⟩

variable {positional : Bool}

theorem consumeUnboundConversion_text (hs : s.WellFormed positional) (hk : Fits k positional)
    (hargs : positional = false → k + s.args < 2 ^ 31)
    (rest : List UInt8) : consumeUnboundConversion (s.render ++ rest) {} k
      = .ok ⟨s.convert k, Item.next ⟨[], some s⟩ k, rest⟩ := by
  rw [consumeUnboundConversion, Item.next]
  cases positional with
  | false =>
    have hk0 : ¬k < 0 := not_lt.2 hk
    dsimp only
    rw [if_neg hk0, consumeConversion_text hs (hargs rfl), if_pos hs.position_eq_none]
  | true =>
    obtain ⟨ds, hds, -⟩ := hs.exists_position
    dsimp only
    rw [if_neg (by rw [hds]; simp : s.position ≠ none)]
    rcases (hk : k = 0 ∨ k = -1) with rfl | rfl
    · rw [if_neg (lt_irrefl _), consumeConversion_restart hs, if_neg (not_not.2 rfl),
        consumeConversionPositional_text hs (by norm_num) 0]
    · rw [if_pos (by norm_num), consumeConversionPositional_text hs (by norm_num) (-1)]

/-- `%` does not start a spec. -/
theorem consumeUnboundConversion_percent (k : ℤ) (q : List UInt8) :
    consumeUnboundConversion (37 :: q) {} k = .error .null := by
  unfold consumeUnboundConversion
  split
  · rfl
  · rfl

variable {i : Item}

theorem next_fits (hi : i.WellFormed positional)
    (hk : Fits k positional) : Fits (i.next k) positional := by
  rw [Item.next]
  rcases hspec : i.spec with _ | s
  · exact hk
  have hs := hi.spec s hspec
  dsimp only
  cases positional with
  | false =>
    rw [if_pos hs.position_eq_none]
    have : 0 ≤ k := hk
    exact (by omega : 0 ≤ k + (s.args : ℤ))
  | true =>
    obtain ⟨ds, hds, -⟩ := hs.exists_position
    rw [if_neg (by rw [hds]; simp : s.position ≠ none)]
    exact .inr rfl

/-- The fast path reads a conversion character as the spec that it is. -/
theorem fastPath_text (hs : s.WellFormed positional) (hk : Fits k positional)
    (hargs : positional = false → k + s.args < 2 ^ 31) {c : UInt8} {q : List UInt8}
    (hq : s.render ++ rest = c :: q) {ch : FormatConversionChar}
    (htag : getTagForChar c = .conv ch) : ¬k < 0 ∧ increment k = .ok (Item.next ⟨[], some s⟩ k) ∧
      q = rest ∧ s.render = [c] ∧
      { conv := ch, argPosition := some (Item.next ⟨[], some s⟩ k) } = s.convert k := by
  obtain ⟨hch, rfl⟩ := tag_eq_conv htag
  cases positional with
  | true =>
    obtain ⟨ds, hds, hcount⟩ := hs.exists_position
    rw [render_append, hds, renderPosition, append_assoc] at hq
    have hfirst := hcount.first hq.symm
    have htag' := IsDigit.tag ⟨by omega, hfirst.2⟩
    rw [htag] at htag'
    exact absurd htag' (by simp)
  | false =>
    have hk0 : 0 ≤ k := hk
    have hpos := hs.position_eq_none
    have hone : (plainSpec ch).args = 1 := by
      simp [plainSpec, Spec.args, Amount.args, precisionArgs]
    have hlt := hargs rfl
    have hle : 1 ≤ s.args := by
      rw [Spec.args, if_pos hpos]
      omega
    have hplain := hq
    obtain ⟨hconv, hrest, hcount⟩ := spec_unique hs (plainSpec_wellFormed hch) hlt
      (by rw [hone]; omega) hplain
    have hnext : Item.next ⟨[], some s⟩ k = k + 1 := by
      simp only [Item.next, hpos]
      exact hcount
    refine ⟨not_lt.2 hk0, ?_, hrest.symm, ?_, ?_⟩
    · rw [hnext]
      exact increment_of_lt (by omega)
    · rw [hrest] at hq
      exact append_cancel_right (hq.trans (singleton_append).symm)
    · rw [hconv, plainSpec_convert, hnext]

/-- The loop on an item of the grammar. -/
theorem parseLoop_item (fuel : ℕ) (hi : i.WellFormed positional) (hk : Fits k positional)
    (hargs : positional = false → k + i.args < 2 ^ 31) (rest : List UInt8)
    (calls : List Call) : parseLoop (fuel + 1) (i.render ++ rest) k calls
      = parseLoop fuel rest (i.next k) (calls ++ i.calls k) := by
  obtain ⟨run, spec⟩ := i
  rcases spec with _ | s
  · have hrender : render ⟨run, none⟩ ++ rest = run ++ 37 :: 37 :: rest := by
      simp [render]
    rw [hrender, parseLoop_percent fuel hi.run]
    simp [Item.next, Item.calls, show getTagForChar 37 = .none from rfl]
  have hs := hi.spec s rfl
  have hnext : Item.next ⟨run, some s⟩ k = Item.next ⟨[], some s⟩ k := rfl
  have hcalls : ∀ call, calls ++ [.append run] ++ [call] = calls ++ [.append run, call] :=
    fun call => by simp
  obtain ⟨c, q, hq⟩ : ∃ c q, s.render ++ rest = c :: q := by
    obtain ⟨c, q, hq⟩ := exists_cons_body s rest
    rw [render_append, hq]
    exact exists_cons_append _ _ _
  have hrender : render ⟨run, some s⟩ ++ rest = run ++ 37 :: c :: q := by
    rw [← hq]
    simp [render]
  rw [hrender, parseLoop_percent fuel hi.run, hnext]
  by_cases htag : ∃ ch, getTagForChar c = .conv ch
  · obtain ⟨ch, hch⟩ := htag
    obtain ⟨hk0, hinc, rfl, htext, hconv⟩ := fastPath_text hs hk hargs hq hch
    rw [hch]
    dsimp only
    rw [if_neg hk0, hinc]
    simp only [Except.bind]
    rw [hcalls, hconv, Item.calls]
    dsimp only
    rw [htext]
  have hconsume := consumeUnboundConversion_text hs hk hargs rest
  rw [hq] at hconsume
  have htake : (c :: q).take ((c :: q).length - rest.length) = s.render := by
    rw [← hq]
    simp
  have h37 : c ≠ 37 := fun h => by
    rw [h, consumeUnboundConversion_percent] at hconsume
    cases hconsume
  rcases hc : getTagForChar c with ch | m | b | _
  · exact absurd ⟨ch, hc⟩ htag
  all_goals
    rw [if_pos h37, hconsume]
    dsimp only
    rw [htake, hcalls]
    rfl

/-! ## Formats -/

theorem length_render (i : Item) : 2 ≤ i.render.length := by
  obtain ⟨run, spec⟩ := i
  rcases spec with _ | s
  · simp [render]
  · simp [render, Spec.render]
    omega

theorem renderItems_cons (i : Item) (items : List Item) :
    renderItems (i :: items) = i.render ++ renderItems items := rfl

theorem argsOf_cons (i : Item) (items : List Item) : argsOf (i :: items) = i.args + argsOf items :=
  rfl

/-- The loop behind the last item. -/
theorem parseLoop_last {fuel : ℕ} {last : List UInt8} (h : 37 ∉ last) (hfuel : last.length ≤ fuel)
    (k : ℤ) (calls : List Call) : parseLoop fuel last k calls
      = .ok (true, calls ++ if last = [] then [] else [.append last]) := by
  by_cases hlast : last = []
  · rw [hlast, if_pos rfl, append_nil]
    cases fuel <;> rfl
  rcases fuel with _ | fuel
  · exact absurd (eq_nil_of_length_eq_zero (Nat.le_zero.1 hfuel)) hlast
  have hrun : ∀ c ∈ last, decide (c ≠ 37) = true :=
    fun c hc => decide_eq_true fun heq => h (heq ▸ hc)
  have hdrop : last.dropWhile (· ≠ 37) = [] := by
    rw [← append_nil last, dropWhile_append_of_pos hrun]
    rfl
  rw [parseLoop, if_neg hlast, if_neg hlast]
  rw [hdrop, if_pos rfl]

/-- The loop on a format. -/
theorem parseLoop_format {last : List UInt8} (hlast : 37 ∉ last) :
    ∀ items fuel k calls,
    (∀ i ∈ items, i.WellFormed positional) → Fits k positional →
    (positional = false → k + argsOf items < 2 ^ 31) → (renderItems items ++ last).length ≤ fuel →
    parseLoop fuel (renderItems items ++ last) k calls
      = .ok (true, calls ++ Format.calls ⟨items, last⟩ k)
  | [], fuel, k, calls, _, _, _, hfuel => parseLoop_last hlast hfuel k calls
  | i :: items, 0, k, calls, _, _, _, hfuel => by
    have := length_render i
    rw [renderItems_cons, append_assoc, length_append] at hfuel
    omega
  | i :: items, fuel + 1, k, calls, hitems, hk, hargs, hfuel => by
    have hi := hitems i mem_cons_self
    have hi' : positional = false → k + i.args < 2 ^ 31 := fun h => by
      have := hargs h
      rw [argsOf_cons] at this
      omega
    have hnext : positional = false → i.next k + argsOf items < 2 ^ 31 := fun h => by
      have := hargs h
      rw [argsOf_cons] at this
      obtain ⟨run, spec⟩ := i
      rcases spec with _ | s
      · simp only [Item.next] at this ⊢
        omega
      · simp only [Item.next, Item.args, (h ▸ hi.spec s rfl : s.WellFormed false).position_eq_none,
          if_true] at this ⊢
        omega
    have hlen := length_render i
    rw [renderItems_cons, append_assoc, length_append] at hfuel
    rw [renderItems_cons, append_assoc, parseLoop_item fuel hi hk hi',
      parseLoop_format hlast items fuel _ _ (fun j hj => hitems j (mem_cons_of_mem i hj))
        (next_fits hi hk) hnext (by omega)]
    simp [Format.calls, callsOf]

/-! ## Any string -/

/-- A string that ends in its first `%`. -/
theorem parseLoop_lone (fuel : ℕ) (h : 37 ∉ run) (k : ℤ) (calls : List Call) :
    parseLoop (fuel + 1) (run ++ [37]) k calls = .ok (false, calls ++ [.append run]) := by
  rw [parseLoop, if_neg (by simp)]
  rw [(split_run h _).1, (split_run h _).2, if_neg (cons_ne_nil _ _), if_pos (by simp)]

theorem fits_decide (hk : -1 ≤ k) : Fits k (decide (k < 0)) := by
  by_cases h : k < 0
  · rw [decide_eq_true h]
    exact .inr (by omega)
  · rw [decide_eq_false h]
    exact not_lt.1 h

theorem wellFormed_percent (h : 37 ∉ run) (positional : Bool) :
    Item.WellFormed ⟨run, none⟩ positional :=
  ⟨h, fun _ h => absurd h.symm (Option.some_ne_none _)⟩

theorem wellFormed_spec (h : 37 ∉ run)
    (hs : s.WellFormed positional) : Item.WellFormed ⟨run, some s⟩ positional :=
  ⟨h, fun _ h => Option.some.inj h ▸ hs⟩

theorem tooManyArgs_item (h : 37 ∉ run) (hs : s.WellFormed false) (hk : 2 ^ 31 ≤ k + s.args)
    (rest : List UInt8) : TooManyArgs k (run ++ 37 :: (s.render ++ rest)) := by
  refine ⟨[⟨run, some s⟩], fun i hi => ?_, .inl ⟨rest, ?_, by simpa [argsOf, Item.args] using hk⟩⟩
  · rw [mem_singleton.1 hi]
    exact wellFormed_spec h hs
  · simp [renderItems, render]

/-- What the loop does at a `%` : it stops, or an item stands there. -/
theorem parseLoop_percent_cases (fuel : ℕ) (h : 37 ∉ run) (q : List UInt8) (hk1 : -1 ≤ k)
    (hk2 : k < 2 ^ 31) (calls : List Call) :
    (parseLoop (fuel + 1) (run ++ 37 :: q) k calls = .error .overflow ∧ 0 ≤ k ∧
      TooManyArgs k (run ++ 37 :: q)) ∨
    (∃ cs, parseLoop (fuel + 1) (run ++ 37 :: q) k calls = .ok (false, cs)) ∨
    ∃ (i : Item) (positional : Bool) (rest : List UInt8), i.WellFormed positional ∧
      Fits k positional ∧ (positional = false → k + i.args < 2 ^ 31) ∧
      run ++ 37 :: q = i.render ++ rest := by
  have hspec : ∀ s (rest : List UInt8), run ++ 37 :: (s.render ++ rest)
      = render ⟨run, some s⟩ ++ rest := fun s rest => by simp [render]
  rcases q with _ | ⟨c, q⟩
  · exact .inr (.inl ⟨_, parseLoop_lone fuel h k calls⟩)
  rw [parseLoop_percent fuel h]
  by_cases htag : ∃ ch, getTagForChar c = .conv ch
  · obtain ⟨ch, hch⟩ := htag
    obtain ⟨hne, rfl⟩ := tag_eq_conv hch
    have hs := plainSpec_wellFormed hne
    have hone : (plainSpec ch).args = 1 := by
      simp [plainSpec, Spec.args, Amount.args, precisionArgs]
    rw [hch]
    dsimp only
    by_cases hk0 : k < 0
    · exact .inr (.inl ⟨_, if_pos hk0⟩)
    rw [if_neg hk0]
    by_cases hlast : k = 2 ^ 31 - 1
    · refine .inl ⟨by rw [increment, if_pos hlast]; rfl, not_lt.1 hk0, ?_⟩
      exact tooManyArgs_item h hs (by rw [hone, hlast]; norm_num) q
    refine .inr (.inr ⟨⟨run, some (plainSpec ch)⟩, false, q, wellFormed_spec h hs, not_lt.1 hk0,
      fun _ => ?_, hspec (plainSpec ch) q⟩)
    simp only [Item.args]
    omega
  have hother : ∀ {α : Type} (x : FormatConversionChar → α) (y : α), (match getTagForChar c with
      | .conv ch => x ch
      | _ => y) = y := fun x y => by
    rcases hc : getTagForChar c with ch | m | b | _
    · exact absurd ⟨ch, hc⟩ htag
    all_goals rfl
  rw [hother]
  by_cases h37 : c = 37
  · refine .inr (.inr ⟨⟨run, none⟩, decide (k < 0), q, wellFormed_percent h _, fits_decide hk1,
      fun _ => by simpa [Item.args] using hk2, ?_⟩)
    rw [h37]
    simp [render]
  rw [if_pos h37, consumeUnboundConversion]
  split_ifs with hk0
  · rcases consumeConversionPositional_cases (c :: q) hk2 with hnull | ⟨s, rest, hs, heq⟩
    · exact .inr (.inl ⟨_, by rw [hnull]⟩)
    · refine .inr (.inr ⟨⟨run, some s⟩, true, rest, wellFormed_spec h hs, .inr (by omega),
        fun habs => absurd habs.symm Bool.false_ne_true, ?_⟩)
      rw [heq, hspec]
  rcases consumeConversion_cases (c :: q) hk2 with
    hnull | ⟨hover, htoo⟩ | ⟨s, rest, hs, heq, hargs⟩ | ⟨hzero, s, rest, hs, heq⟩
  · exact .inr (.inl ⟨_, by rw [hnull]⟩)
  · refine .inl ⟨by rw [hover], not_lt.1 hk0, ?_⟩
    rcases htoo with ⟨o, rest, ho, hrest, heq, hargs⟩ | ⟨s, rest, hs, heq, hargs⟩
    · exact ⟨[], fun _ hi => absurd hi not_mem_nil, .inr ⟨run, o, rest, h, ho, hrest,
        by rw [heq]; rfl, by simpa [argsOf] using hargs⟩⟩
    · rw [heq]
      exact tooManyArgs_item h hs hargs rest
  · exact .inr (.inr ⟨⟨run, some s⟩, false, rest, wellFormed_spec h hs, not_lt.1 hk0,
      fun _ => hargs, by rw [heq, hspec]⟩)
  · refine .inr (.inr ⟨⟨run, some s⟩, true, rest, wellFormed_spec h hs, .inl hzero,
      fun habs => absurd habs.symm Bool.false_ne_true, by rw [heq, hspec]⟩)

theorem next_of_false (hi : i.WellFormed false) (k : ℤ) : i.next k = k + i.args := by
  obtain ⟨run, spec⟩ := i
  rcases spec with _ | s
  · simp [Item.next, Item.args]
  · simp only [Item.next, Item.args, (hi.spec s rfl).position_eq_none, if_true]

/-- Behind an item the kind of the specs is known from `next_arg`. -/
theorem wellFormed_of_next (hi : i.WellFormed positional) (hk : Fits k positional)
    {positional' : Bool} (hnext : Fits (i.next k) positional') :
    i.WellFormed positional' ∧ Fits k positional' := by
  obtain ⟨run, spec⟩ := i
  rcases spec with _ | s
  · exact ⟨wellFormed_percent hi.run _, hnext⟩
  suffices heq : positional' = positional by
    rw [heq]
    exact ⟨hi, hk⟩
  have hs := hi.spec s rfl
  cases positional with
  | false =>
    have hle : 1 ≤ s.args := by
      rw [Spec.args, if_pos hs.position_eq_none]
      omega
    rw [next_of_false hi] at hnext
    cases positional' with
    | false => rfl
    | true =>
      have h0 : 0 ≤ k := hk
      have h1 : k + (s.args : ℤ) = 0 ∨ k + (s.args : ℤ) = -1 := hnext
      omega
  | true =>
    obtain ⟨ds, hds, -⟩ := hs.exists_position
    cases positional' with
    | false =>
      simp only [Item.next, hds] at hnext
      exact absurd hnext (by simp [Fits])
    | true => rfl

theorem next_bounds (hi : i.WellFormed positional) (hk1 : -1 ≤ k) (hk2 : k < 2 ^ 31)
    (hargs : positional = false → k + i.args < 2 ^ 31) : -1 ≤ i.next k ∧ i.next k < 2 ^ 31 := by
  obtain ⟨run, spec⟩ := i
  rcases spec with _ | s
  · exact ⟨hk1, hk2⟩
  cases positional with
  | false =>
    have := hargs rfl
    rw [next_of_false hi]
    omega
  | true =>
    obtain ⟨ds, hds, -⟩ := (hi.spec s rfl).exists_position
    simp [Item.next, hds]

theorem TooManyArgs.cons (hi : i.WellFormed false)
    (h : TooManyArgs (i.next k) rest) : TooManyArgs k (i.render ++ rest) := by
  obtain ⟨items, hitems, h⟩ := h
  have hargs : k + argsOf (i :: items) = i.next k + argsOf items := by
    rw [next_of_false hi, argsOf_cons]
    push_cast
    ring
  refine ⟨i :: items, forall_mem_cons.2 ⟨hi, hitems⟩,
    h.imp (fun ⟨r, hr, hle⟩ => ⟨r, ?_, by rw [hargs]; exact hle⟩)
    fun ⟨run, o, r, hrun, ho, hr, hrender, hle⟩ => ⟨run, o, r, hrun, ho, hr, ?_,
      by rw [hargs]; exact hle⟩⟩
  · rw [hr, renderItems_cons, append_assoc]
  · rw [hrender, renderItems_cons, append_assoc]

theorem parseLoop_cases : ∀ (fuel : ℕ) p k calls,
    p.length ≤ fuel → -1 ≤ k → k < 2 ^ 31 →
    (parseLoop fuel p k calls = .error .overflow ∧ 0 ≤ k ∧ TooManyArgs k p) ∨
    (∃ cs, parseLoop fuel p k calls = .ok (false, cs)) ∨
    ∃ (f : Format) (positional : Bool), f.WellFormed positional ∧ Fits k positional ∧
      (positional = false → k + argsOf f.items < 2 ^ 31) ∧ p = f.render := by
  intro fuel
  induction fuel with
  | zero =>
    intro p k calls hp hk1 hk2
    obtain rfl := eq_nil_of_length_eq_zero (Nat.le_zero.1 hp)
    refine .inr (.inr ⟨⟨[], []⟩, decide (k < 0), ⟨fun _ hi => absurd hi not_mem_nil,
      not_mem_nil⟩, fits_decide hk1, fun _ => by simpa [argsOf] using hk2, rfl⟩)
  | succ fuel ih =>
    intro p k calls hp hk1 hk2
    by_cases h37 : 37 ∈ p
    swap
    · exact .inr (.inr ⟨⟨[], p⟩, decide (k < 0), ⟨fun _ hi => absurd hi not_mem_nil, h37⟩,
        fits_decide hk1, fun _ => by simpa [argsOf] using hk2, rfl⟩)
    obtain ⟨run, q, rfl, hrun⟩ := eq_append_cons_of_mem h37
    rcases parseLoop_percent_cases fuel hrun q hk1 hk2 calls with hover | hfalse |
      ⟨i, positional, rest, hi, hfits, hargs, heq⟩
    · exact .inl hover
    · exact .inr (.inl hfalse)
    rw [heq] at hp ⊢
    rw [parseLoop_item fuel hi hfits hargs]
    have hlen := length_render i
    rw [length_append] at hp
    obtain ⟨hn1, hn2⟩ := next_bounds hi hk1 hk2 hargs
    rcases ih rest (i.next k) (calls ++ i.calls k) (by omega) hn1 hn2 with
      ⟨hover, hn0, htoo⟩ | hfalse | ⟨f, positional', hf, hfits', hargs', rfl⟩
    · have hn : Fits (i.next k) false := hn0
      obtain ⟨hi', hfits'⟩ := wellFormed_of_next hi hfits hn
      exact .inl ⟨hover, hfits', htoo.cons hi'⟩
    · exact .inr (.inl hfalse)
    obtain ⟨hi', hfits0⟩ := wellFormed_of_next hi hfits hfits'
    refine .inr (.inr ⟨⟨i :: f.items, f.last⟩, positional', ⟨forall_mem_cons.2 ⟨hi', hf.items⟩,
      hf.last⟩, hfits0, fun hpos => ?_, ?_⟩)
    · have := hargs' hpos
      rw [next_of_false (hpos ▸ hi')] at this
      rw [argsOf_cons]
      omega
    · rw [Format.render, Format.render, renderItems_cons, append_assoc]

/-- `ParseFormatString` returns; it returns `true` exactly for the formats of the grammar, and
then it has delivered the runs and the specs of the format. It reads no byte behind the end. -/
theorem parseFormatString_grammar (src : List UInt8) (h : ¬TooManyArgs 0 src) :
    ∃ (b : Bool) (calls : List Call), parseFormatString src = .ok (b, calls) ∧
      (b = true ↔ ∃ (f : Format) (positional : Bool), f.WellFormed positional ∧ f.render = src) ∧
      ∀ (f : Format) (positional : Bool), f.WellFormed positional → f.render = src →
        calls = f.calls 0 := by
  have hformat : ∀ (f : Format) (positional : Bool), f.WellFormed positional → f.render = src →
      parseFormatString src = .ok (true, f.calls 0) := by
    intro f positional hf hrender
    have hargs : positional = false → (0 : ℤ) + argsOf f.items < 2 ^ 31 := fun hpos => by
      by_contra hle
      exact h ⟨f.items, hpos ▸ hf.items, .inl ⟨f.last, hrender.symm, not_lt.1 hle⟩⟩
    have hfits : Fits 0 positional := by
      cases positional with
      | false => exact le_refl (0 : ℤ)
      | true => exact .inl rfl
    rw [← hrender]
    exact parseLoop_format hf.last f.items _ 0 [] hf.items hfits hargs le_rfl
  rcases parseLoop_cases src.length src 0 [] le_rfl (by norm_num) (by norm_num) with
    ⟨-, -, htoo⟩ | ⟨cs, hfalse⟩ | ⟨f, positional, hf, -, -, hrender⟩
  · exact absurd htoo h
  · have hno : ∀ (f : Format) (positional : Bool), f.WellFormed positional → f.render ≠ src :=
      fun f positional hf hrender => by
        have := hformat f positional hf hrender
        rw [parseFormatString, hfalse] at this
        injection this with this
        exact absurd (congrArg Prod.fst this) Bool.false_ne_true
    refine ⟨false, cs, hfalse, ⟨nofun, ?_⟩, ?_⟩
    · exact fun ⟨f, positional, hf, heq⟩ => absurd heq (hno f positional hf)
    · exact fun f positional hf heq => absurd heq (hno f positional hf)
  · refine ⟨true, f.calls 0, hformat f positional hf hrender.symm,
      ⟨fun _ => ⟨f, positional, hf, hrender.symm⟩, fun _ => rfl⟩, fun g positional' hg heq => ?_⟩
    have := hformat g positional' hg heq
    rw [hformat f positional hf hrender.symm] at this
    injection this with this
    exact (Prod.mk.inj this).2

/-! ## Short strings -/

theorem Amount.args_le (w : Amount) : w.args ≤ w.render.length := by
  rcases w with _ | ds | _ | ds
  · exact le_rfl
  · exact Nat.zero_le _
  · exact le_rfl
  · exact Nat.zero_le _

theorem Item.args_le (i : Item) : i.args ≤ i.render.length := by
  obtain ⟨run, spec⟩ := i
  rcases spec with _ | s
  · exact Nat.zero_le _
  have hw := s.width.args_le
  have hp : precisionArgs s.precision ≤ (renderPrecision s.precision).length := by
    rcases s.precision with _ | p
    · exact le_rfl
    · exact p.args_le.trans (Nat.le_succ _)
  have hone : (if s.position = none then 1 else 0) ≤ 1 := by split <;> omega
  simp only [Item.args, render, Spec.args, Spec.render, length_append, length_cons]
  omega

theorem argsOf_le : ∀ items, argsOf items ≤ (renderItems items).length
  | [] => le_rfl
  | i :: items => by
    have := argsOf_le items
    have := i.args_le
    rw [renderItems_cons, argsOf_cons, length_append]
    omega

/-- A string below two gibibytes does not take too many arguments. -/
theorem length_of_tooManyArgs {src : List UInt8} (h : TooManyArgs 0 src) : 2 ^ 31 ≤ src.length := by
  obtain ⟨items, -, ⟨rest, rfl, hle⟩ | ⟨run, o, rest, -, -, -, rfl, hle⟩⟩ := h
  · have := argsOf_le items
    rw [length_append]
    omega
  have := argsOf_le items
  have := o.width.args_le
  have hstar : o.star.toNat ≤ (if o.star then [46, 42] else [] : List UInt8).length := by
    cases o.star <;> simp
  simp only [Opening.render, Opening.args, length_append, length_cons] at hle ⊢
  omega

/-- The string `%*.3d%%`. -/
theorem parseFormatString_grammar_star : ∃ (b : Bool) (calls : List Call),
    parseFormatString [37, 42, 46, 51, 100, 37, 37] = .ok (b, calls) ∧
      (b = true ↔ ∃ (f : Format) (positional : Bool), f.WellFormed positional ∧
        f.render = [37, 42, 46, 51, 100, 37, 37]) ∧
      ∀ (f : Format) (positional : Bool), f.WellFormed positional →
        f.render = [37, 42, 46, 51, 100, 37, 37] → calls = f.calls 0 :=
  parseFormatString_grammar _ fun h => absurd (length_of_tooManyArgs h) (by decide)

/-- `%1234567890$d`, a position of ten digits, is not accepted. -/
theorem parseFormatString_ten_digits : parseFormatString (Format.render
      ⟨[⟨[], some ⟨some [1, 2, 3, 4, 5, 6, 7, 8, 9, 0], [], .none, none, .none, .d⟩⟩], []⟩)
      = .ok (false, [.append []]) := by
  decide

end Abseil.StrFormat
