import Abseil.DemangleRustSafety

/-!
# Runs of the Rust demangler

The return addresses on the stack say how many namespaces and positions are on the other two stacks
and how often the output was silenced (`Ready`). The code from each point on keeps this, and it
reads on, pushes a return address or returns (`Post`), so that a run ends (`run_ends`) and meets no
fault (`run_spec`).

A parser that takes the terminator leaves the cursor one behind it. In a string of `2 ^ 31 - 1`
bytes this index is no `int` (`run_overflow`).
-/

namespace Abseil.DemangleRust

open List ByteBuffer

/-! ## Stacks -/

namespace ReturnAddress

/-- The namespaces that are popped after the return. -/
def namespaces : ReturnAddress → ℕ
  | .identifierInUppercaseNamespace => 1
  | _ => 0

/-- The positions that are popped after the return. -/
def positions : ReturnAddress → ℕ
  | .pathBackrefEnding => 1
  | .typeBackrefEnding => 1
  | .constantBackrefEnding => 1
  | _ => 0

/-- How often the output is silenced until the return. -/
def silences : ReturnAddress → ℕ
  | .vendorSpecificSuffix => 1
  | .implPathEnding => 1
  | .afterSubsequentTupleElement => 1
  | .continueParameterList => 1
  | .finishFn => 1
  | .continueAssocBinding => 1
  | .constData => 1
  | .continueGenericArgList => 1
  | _ => 0

/-- A return address undoes at most one silence. -/
theorem silences_le (r : ReturnAddress) : r.silences ≤ 1 := by
  cases r <;> decide

end ReturnAddress

/-- The sum over the stack. -/
def total (f : ReturnAddress → ℕ) (stack : List ReturnAddress) : ℕ := (stack.map f).sum

theorem total_cons (f : ReturnAddress → ℕ) (r : ReturnAddress) (stack : List ReturnAddress) :
    total f (r :: stack) = f r + total f stack := sum_cons

/-- The silences are no more than the return addresses. -/
theorem total_silences_le : ∀ stack,
    total ReturnAddress.silences stack ≤ stack.length
  | [] => le_rfl
  | r :: stack => by
    have h := total_silences_le stack
    have hr := r.silences_le
    rw [total_cons, length_cons]
    omega

/-- The recursion stack is `R`, and the other stacks have what it says and `a`, `b` and `c` more. -/
structure Ready (encoding : List UInt8) (N : ℕ) (R : List ReturnAddress) (a b c : ℕ) (s : State) :
    Prop where
  good : Good encoding N s
  stack : s.recursionStack = R
  depth : R.length ≤ 256
  namespaces_le : s.namespaceStack.length ≤ 64
  positions_le : s.positionStack.length ≤ 16
  positions : ∀ x ∈ s.positionStack, x ≤ encoding.length
  namespaces_eq : s.namespaceStack.length = total ReturnAddress.namespaces R + a
  positions_eq : s.positionStack.length = total ReturnAddress.positions R + b
  silences_eq : s.silenceDepth = total ReturnAddress.silences R + c

/-- Labels to which the parser jumps without reading. -/
def rank : Label → ℕ
  | .genericArg => 2
  | .type => 1
  | _ => 0

/-- After the code from a point on. -/
def Post (encoding : List UInt8) (N : ℕ) (R : List ReturnAddress) (pos k : ℕ) :
    Next → State → Prop
  | .continue, s' => Ready encoding N R 0 0 0 s'
  | .goto l, s' => (∃ r, Ready encoding N (r :: R) 0 0 0 s') ∨
    (Ready encoding N R 0 0 0 s' ∧ (pos < s'.pos ∨ (pos ≤ s'.pos ∧ rank l < k)))

variable {l : Label} {r : ReturnAddress}

section Rules

variable {encoding : List UInt8} {N : ℕ} {s s' : State} {R : List ReturnAddress} {a b c pos k : ℕ}
  {β : Type} {Q : β → State → Prop}

/-- A step keeps what the stacks hold. -/
theorem Ready.step (h : Ready encoding N R a b c s) (hs : Step encoding N s s') :
    Ready encoding N R a b c s' := by
  obtain ⟨hgood, -, hdepth, hrec, hns, hpos⟩ := hs
  obtain ⟨-, hstack, hsize, hns_le, hpos_le, hmem, hns_eq, hpos_eq, hsil⟩ := h
  rw [← hns] at hns_le hns_eq
  rw [← hpos] at hpos_le hmem hpos_eq
  exact ⟨hgood, hrec.trans hstack, hsize, hns_le, hpos_le, hmem, hns_eq, hpos_eq, hdepth.trans hsil⟩

theorem Ready.bind {α : Type} {m : Parser α} {f : α → Parser β} (h : Ready encoding N R a b c s)
    (hm : Keeps encoding N m s) (hf : ∀ x s', Ready encoding N R a b c s' → Spec N (f x) s' Q) :
    Spec N (m >>= f) s Q := hm.then fun x s' hs => hf x s' (h.step hs)

theorem returns_spec (h : Ready encoding N R 0 0 0 s) :
    Spec N returns s (Post encoding N R pos k) := h

theorem goto_spec (h : Ready encoding N R 0 0 0 s)
    (hpos : pos < s.pos ∨ (pos ≤ s.pos ∧ rank l < k)) :
    Spec N (goto l) s (Post encoding N R pos k) := .inr ⟨h, hpos⟩

/-- A simulated call pushes its return address. -/
theorem recurse_spec (h : Ready encoding N R r.namespaces r.positions r.silences s) :
    Spec N (recurse l r) s (Post encoding N R pos k) := by
  unfold Spec recurse
  rw [h.stack]
  have hdepth := h.depth
  by_cases hfull : R.length = 256
  · rw [if_pos hfull]
    exact h.good.ends
  rw [if_neg hfull, if_pos (by omega)]
  refine .inl ⟨r, ⟨h.good.pos_le, h.good.length_eq, h.good.terminated⟩, rfl, ?_, h.namespaces_le,
    h.positions_le, h.positions, ?_, ?_, ?_⟩
  · rw [length_cons]
    omega
  · change s.namespaceStack.length = _
    rw [total_cons, h.namespaces_eq, add_comm, add_zero]
  · change s.positionStack.length = _
    rw [total_cons, h.positions_eq, add_comm, add_zero]
  · change s.silenceDepth = _
    rw [total_cons, h.silences_eq, add_comm, add_zero]

variable {f : Unit → Parser β}

theorem emit_bind {token : List UInt8} (h : Ready encoding N R a b c s)
    (hf : ∀ s', Ready encoding N R a b c s' → Spec N (f ()) s' Q) :
    Spec N (emit token >>= f) s Q := h.bind (emit_keeps h.good _) fun _ => hf

/-- A silence is to be undone. -/
theorem silence_bind (h : Ready encoding N R a b 0 s)
    (hf : ∀ s', Ready encoding N R a b 1 s' → Spec N (f ()) s' Q) : Spec N (silence >>= f) s Q := by
  have hle := total_silences_le R
  have hdepth := h.depth
  have heq := h.silences_eq
  refine .of_ok (if_pos (by omega)) (hf _ { h with good := { h.good with }, silences_eq := ?_ })
  change s.silenceDepth + 1 = _
  omega

/-- A silence is undone. -/
theorem unsilence_bind (h : Ready encoding N R a b 1 s)
    (hf : ∀ s', Ready encoding N R a b 0 s' → Spec N (f ()) s' Q) :
    Spec N (unsilence >>= f) s Q := by
  refine Spec.bind ?_ fun _ s' hs' => hf s' hs'
  have heq := h.silences_eq
  unfold Spec unsilence
  rw [heq]
  exact { h with good := { h.good with }, silences_eq := rfl }

/-- A namespace is to be taken. -/
theorem pushNamespace_bind (ns : UInt8) (h : Ready encoding N R 0 b c s)
    (hf : ∀ s', Ready encoding N R 1 b c s' → Spec N (f ()) s' Q) :
    Spec N (pushNamespace ns >>= f) s Q := by
  refine Spec.bind ?_ fun _ s' hs' => hf s' hs'
  have hle := h.namespaces_le
  have heq := h.namespaces_eq
  unfold Spec pushNamespace
  by_cases hfull : s.namespaceStack.length = 64
  · rw [if_pos hfull]
    exact h.good.ends
  rw [if_neg hfull, if_pos (by omega)]
  refine { h with good := { h.good with }, namespaces_le := ?_, namespaces_eq := ?_ }
  · change (ns :: s.namespaceStack).length ≤ 64
    rw [length_cons]
    omega
  · change (ns :: s.namespaceStack).length = _
    rw [length_cons]
    omega

/-- A namespace is taken. -/
theorem popNamespace_bind {f : UInt8 → Parser β} (h : Ready encoding N R 1 b c s)
    (hf : ∀ ns s', Ready encoding N R 0 b c s' → Spec N (f ns) s' Q) :
    Spec N (popNamespace >>= f) s Q := by
  refine Spec.bind ?_ hf
  have hle := h.namespaces_le
  have heq := h.namespaces_eq
  unfold Spec popNamespace
  rcases hstack : s.namespaceStack with _ | ⟨ns, rest⟩
  · rw [hstack, length_nil] at heq
    omega
  rw [hstack, length_cons] at heq hle
  refine { h with good := { h.good with }, namespaces_le := ?_, namespaces_eq := ?_ }
  · change rest.length ≤ 64
    omega
  · change rest.length = _
    omega

/-- A backreference is to be ended. -/
theorem beginBackref_bind (hlen : encoding.length + 1 < 2 ^ 31) (h : Ready encoding N R a 0 c s)
    (hf : ∀ s', Ready encoding N R a 1 c s' → Spec N (f ()) s' Q) :
    Spec N (beginBackref encoding >>= f) s Q := by
  refine Spec.bind ?_ fun _ s' hs' => hf s' hs'
  have hpos := h.good.pos_le
  unfold beginBackref
  change Spec N (parseBase62Number encoding >>= _) s _
  refine (parseBase62Number_spec hlen h.good).bind ?_
  rintro v s1 ⟨hs1, -⟩
  have h1 := h.step hs1
  cases v with
  | none => exact h1.good.ends
  | some offset =>
    dsimp only
    split_ifs with hback
    · exact h1.good.ends
    refine int_bind (by omega) ?_
    have hle := h1.positions_le
    have heq := h1.positions_eq
    unfold Spec pushPosition
    by_cases hfull : s1.positionStack.length = 16
    · rw [if_pos hfull]
      exact h1.good.ends
    rw [if_neg hfull, if_pos (by omega)]
    refine { h1 with
      good := { h1.good with pos_le := ?_ }, positions_le := ?_, positions := ?_,
      positions_eq := ?_ }
    · change offset + 2 ≤ encoding.length
      omega
    · change (s1.pos :: s1.positionStack).length ≤ 16
      rw [length_cons]
      omega
    · exact forall_mem_cons.2 ⟨h1.good.pos_le, h1.positions⟩
    · change (s1.pos :: s1.positionStack).length = _
      rw [length_cons]
      omega

/-- A backreference is ended. -/
theorem endBackref_bind (h : Ready encoding N R a 1 c s)
    (hf : ∀ s', Ready encoding N R a 0 c s' → Spec N (f ()) s' Q) :
    Spec N (endBackref >>= f) s Q := by
  refine Spec.bind ?_ fun _ s' hs' => hf s' hs'
  have hle := h.positions_le
  have heq := h.positions_eq
  have hmem := h.positions
  unfold Spec endBackref
  rcases hstack : s.positionStack with _ | ⟨position, rest⟩
  · rw [hstack, length_nil] at heq
    omega
  rw [hstack] at heq hle hmem
  rw [length_cons] at heq hle
  refine { h with
    good := { h.good with pos_le := hmem position (by simp) }
    positions_le := ?_
    positions := fun x hx => hmem x (mem_cons_of_mem _ hx)
    positions_eq := ?_ }
  · change rest.length ≤ 16
    omega
  · change rest.length = _
    omega

variable {want : Char} {yes no : Parser β} (hlen : encoding.length + 1 < 2 ^ 31)
include hlen

/-- A byte that is eaten or not, from a position on. -/
theorem ifEat_from (h : Ready encoding N R a b c s) (hpos : pos ≤ s.pos) (hwant : ch want ≠ 0)
    (hyes : ∀ s', Ready encoding N R a b c s' → pos < s'.pos → Spec N yes s' Q)
    (hno : ∀ s', Ready encoding N R a b c s' → pos ≤ s'.pos → Spec N no s' Q) :
    Spec N (ifEat encoding want yes no) s Q :=
  ifEat_spec hlen h.good hwant (fun s' hs hlt => hyes s' (h.step hs) (hpos.trans_lt hlt))
    fun s' hs => hno s' (h.step hs) (hpos.trans hs.pos_le)

/-- Both branches behind a letter. -/
theorem ifEat_bind (h : Ready encoding N R a b c s) (hwant : ch want ≠ 0)
    (hyes : ∀ s', Ready encoding N R a b c s' → Spec N yes s' Q)
    (hno : ∀ s', Ready encoding N R a b c s' → Spec N no s' Q) :
    Spec N (ifEat encoding want yes no) s Q :=
  ifEat_from hlen h le_rfl hwant (fun s' h' _ => hyes s' h') fun s' h' _ => hno s' h'

end Rules

/-! ## The code -/

variable (token : List UInt8)

section Code

variable {encoding : List UInt8} {N : ℕ} {s : State} {R : List ReturnAddress} {pos k : ℕ}
  (hlen : encoding.length + 1 < 2 ^ 31)

theorem emitReturn_spec (h : Ready encoding N R 0 0 0 s) (token : String) :
    Spec N (emitReturn token) s (Post encoding N R pos k) :=
  emit_bind h fun _ h => returns_spec h

/-- A token, and a simulated call. -/
theorem emit_recurse
    (h : Ready encoding N R r.namespaces r.positions r.silences s) :
    Spec N (do
      emit token
      recurse l r) s (Post encoding N R pos k) :=
  emit_bind h fun _ h => recurse_spec h

theorem unsilence_returns (h : Ready encoding N R 0 0 1 s) :
    Spec N (do
      unsilence
      returns) s (Post encoding N R pos k) :=
  unsilence_bind h fun _ hs => returns_spec hs

theorem endBackrefReturn_spec (h : Ready encoding N R 0 1 0 s) :
    Spec N endBackrefReturn s (Post encoding N R pos k) :=
  endBackref_bind h fun _ h' => returns_spec h'

theorem smallInt_zero : SmallInt (some 0) := by
  rintro _ ⟨⟩
  norm_num

include hlen

theorem finish_spec {a b c : ℕ} (h : Ready encoding N R a b c s) :
    Spec N (finish encoding) s (Post encoding N R pos k) := by
  refine (take_spec hlen h.good).bind ?_
  rintro c s' ⟨-, hends, -⟩
  split_ifs
  · exact hends
  · exact hends

section

variable (h : Ready encoding N R 0 0 1 s)
include h

theorem tupleRest_spec : Spec N (tupleRest encoding) s (Post encoding N R pos k) :=
  ifEat_bind hlen h (by decide) (fun _ h => unsilence_returns h) fun _ h => recurse_spec h

theorem parameterList_spec : Spec N (parameterList encoding) s (Post encoding N R pos k) :=
  ifEat_bind hlen h (by decide) (fun _ h => recurse_spec h) fun _ h => recurse_spec h

theorem assocBindings_spec : Spec N (assocBindings encoding) s (Post encoding N R pos k) := by
  refine ifEat_bind hlen h (by decide) (fun _ h => ?_) fun _ h => unsilence_returns h
  exact h.bind (parseUndisambiguatedIdentifier_keeps hlen h.good 0 smallInt_zero)
    fun _ _ h => recurse_spec h

theorem constData_spec : Spec N (constData encoding) s (Post encoding N R pos k) := by
  refine unsilence_bind h fun s1 h1 => ?_
  have hsign : Keeps encoding N (ifEat encoding 'n' (emitChar (ch '-')) (pure ())) s1 :=
    ifEat_keeps hlen h1.good (by decide) (fun _ hg => emitChar_keeps hg _)
      fun _ hg => Keeps.pure hg ()
  have hend : ∀ s', Ready encoding N R 0 0 0 s' → Spec N (do
      expect encoding '_'
      returns) s' (Post encoding N R pos k) := fun s' h =>
    h.bind (expect_keeps hlen h.good (by decide)) fun _ _ h => returns_spec h
  refine h1.bind hsign fun _ _ h => emit_bind h fun _ h => ?_
  refine ifEat_bind hlen h (by decide) (fun _ h => ?_) fun _ h => ?_
  · exact h.bind (emitChar_keeps h.good _) fun _ => hend
  · exact h.bind (hexDigits_keeps hlen _ h.good (Nat.sub_le _ _)) fun _ => hend

theorem genericArgList_spec : Spec N (genericArgList encoding) s (Post encoding N R pos k) :=
  ifEat_bind hlen h (by decide) (fun _ h => unsilence_returns h) fun _ h => recurse_spec h

end

section

variable (h : Ready encoding N R 0 0 0 s)
include h

theorem path_spec : Spec N (path encoding) s (Post encoding N R s.pos k) := by
  refine take_bind hlen h.good (fun c s' _ hs hlt => ?_) fun s' hs => ?_
  · have h' := h.step hs
    split_ifs
    all_goals first | exact goto_spec h' (.inl hlt) | exact h'.good.ends
  · exact hs

theorem nestedPath_spec : Spec N (nestedPath encoding) s (Post encoding N R s.pos k) := by
  refine peek_bind h.good fun c hc => ?_
  split_ifs with hupper
  · have hne : c ≠ 0 := by
      rintro rfl
      cases hupper
    exact take_of_charAt hlen h.good hc hne fun hs =>
      pushNamespace_bind c (h.step hs) fun _ hs => recurse_spec hs
  · refine take_bind hlen h.good (fun c s' _ hs _ => ?_) fun s' hs => ?_
    · split_ifs
      · exact recurse_spec (h.step hs)
      · exact hs.good.ends
    · exact hs

theorem type_spec : Spec N (type encoding) s (Post encoding N R s.pos 1) := by
  refine peek_bind h.good fun c hc => ?_
  split_ifs with hlower
  · have hne : c ≠ 0 := by
      rintro rfl
      cases hlower
    refine take_of_charAt hlen h.good hc hne fun hs => ?_
    have h' := h.step hs
    cases basicTypeName c with
    | none => exact h'.good.ends
    | some typeName => exact emit_bind h' fun _ h => returns_spec h
  -- a reference or a pointer reads on
  have hagain : ∀ token s', Ready encoding N R 0 0 0 s' → s.pos < s'.pos → Spec N (do
      emit token
      goto .type) s' (Post encoding N R s.pos 1) := fun token s' h' hlt =>
    (emit_keeps h'.good _).then fun _ _ hs =>
      goto_spec (h'.step hs) (.inl (hlt.trans_le hs.pos_le))
  have hlifetime : ∀ token s', Ready encoding N R 0 0 0 s' → s.pos < s'.pos → Spec N (do
      emit token
      parseOptionalLifetime encoding
      goto .type) s' (Post encoding N R s.pos 1) := fun token s' h' hlt =>
    (emit_keeps h'.good _).then fun _ _ hs =>
      (parseOptionalLifetime_keeps hlen hs.good).then fun _ _ hs' =>
        goto_spec ((h'.step hs).step hs') (.inl ((hlt.trans_le hs.pos_le).trans_le hs'.pos_le))
  have hgoto : ∀ {l} s', Ready encoding N R 0 0 0 s' → s.pos < s'.pos →
      Spec N (goto l) s' (Post encoding N R s.pos 1) := fun _ h' hlt => goto_spec h' (.inl hlt)
  refine ifEat_from hlen h le_rfl (by decide) (fun _ h _ => emit_recurse _ h) fun _ h hp => ?_
  refine ifEat_from hlen h hp (by decide) (fun _ h _ => emit_recurse _ h) fun _ h hp => ?_
  refine ifEat_from hlen h hp (by decide) hgoto fun _ h hp => ?_
  refine ifEat_from hlen h hp (by decide) (hlifetime _) fun _ h hp => ?_
  refine ifEat_from hlen h hp (by decide) (hlifetime _) fun _ h hp => ?_
  refine ifEat_from hlen h hp (by decide) (hagain _) fun _ h hp => ?_
  refine ifEat_from hlen h hp (by decide) (hagain _) fun _ h hp => ?_
  refine ifEat_from hlen h hp (by decide) hgoto fun _ h hp => ?_
  refine ifEat_from hlen h hp (by decide) hgoto fun _ h hp => ?_
  refine ifEat_from hlen h hp (by decide) hgoto fun _ h hp => ?_
  exact goto_spec h (.inr ⟨hp, by decide⟩)

theorem fnType_spec : Spec N (fnType encoding) s (Post encoding N R pos k) := by
  refine emit_bind h fun _ h => silence_bind h fun _ h1 => ?_
  refine h1.bind (parseOptionalBinder_keeps hlen h1.good) fun _ _ h2 => ?_
  refine h2.bind (eat_keeps hlen h2.good (by decide)) fun _ _ h3 => ?_
  have habi : Keeps encoding N (ifEat encoding 'K'
      (ifEat encoding 'C' (pure ()) (parseUndisambiguatedIdentifier encoding 0 (some 0)))
      (pure ())) _ := ifEat_keeps hlen h3.good (by decide)
    (fun _ hg => ifEat_keeps hlen hg (by decide) (fun _ hg => Keeps.pure hg ())
      fun _ hg => parseUndisambiguatedIdentifier_keeps hlen hg 0 smallInt_zero)
    fun _ hg => Keeps.pure hg ()
  exact h3.bind habi fun _ _ h => parameterList_spec hlen h

theorem dynLifetime_spec : Spec N (dynLifetime encoding) s (Post encoding N R pos k) :=
  h.bind (parseRequiredLifetime_keeps hlen h.good) fun _ _ h => returns_spec h

theorem autoTraits_spec : Spec N (autoTraits encoding) s (Post encoding N R pos k) :=
  ifEat_bind hlen h (by decide) (fun _ h => dynLifetime_spec hlen h) fun _ h => emit_recurse _ h

theorem dynTraitType_spec : Spec N (dynTraitType encoding) s (Post encoding N R pos k) := by
  refine emit_bind h fun _ h1 => ?_
  refine h1.bind (parseOptionalBinder_keeps hlen h1.good) fun _ _ h2 => ?_
  exact ifEat_bind hlen h2 (by decide) (fun _ h => dynLifetime_spec hlen h)
    fun _ h => recurse_spec h

theorem dynTraitRest_spec : Spec N (dynTraitRest encoding) s (Post encoding N R pos k) := by
  refine peek_bind h.good fun c _ => ?_
  split_ifs
  · exact emit_bind h fun _ h => silence_bind h fun _ h => assocBindings_spec hlen h
  · exact returns_spec h

theorem constant_spec : Spec N (constant encoding) s (Post encoding N R s.pos k) := by
  refine ifEat_from hlen h le_rfl (by decide) (fun _ h hlt => goto_spec h (.inl hlt))
    fun _ h _ => ?_
  exact ifEat_bind hlen h (by decide) (fun _ h => emitReturn_spec h _)
    fun _ h => silence_bind h fun _ h => recurse_spec h

theorem genericArg_spec : Spec N (genericArg encoding) s (Post encoding N R s.pos 2) := by
  refine peek_bind h.good fun c _ => ?_
  split_ifs
  · exact h.bind (parseOptionalLifetime_keeps hlen h.good) fun _ _ h => returns_spec h
  · exact ifEat_from hlen h le_rfl (by decide) (fun _ h hlt => goto_spec h (.inl hlt))
      fun _ h hle => goto_spec h (.inr ⟨hle, by decide⟩)

theorem backref_spec (hr : r.namespaces = 0 ∧ r.positions = 1 ∧ r.silences = 0) :
    Spec N (backref encoding l r) s (Post encoding N R pos k) := by
  refine beginBackref_bind hlen h fun s1 h1 => ?_
  refine .of_ok rfl ?_
  cases decide (s1.silenceDepth > 0) with
  | true => exact endBackref_bind h1 fun _ h' => returns_spec h'
  | false =>
    refine recurse_spec ?_
    rwa [hr.1, hr.2.1, hr.2.2]

theorem tupleElement_spec (ending more : String) {next : Parser Next}
    (hnext : ∀ s', Ready encoding N R 0 0 0 s' → Spec N next s' (Post encoding N R pos k)) :
    Spec N (tupleElement encoding ending more next) s (Post encoding N R pos k) := by
  exact ifEat_bind hlen h (by decide) (fun _ h => emitReturn_spec h _) fun _ h => emit_bind h hnext

/-- The code at every label. -/
theorem code_spec (l : Label) : Spec N (code encoding l) s (Post encoding N R s.pos (rank l)) := by
  cases l with
  | wholeEncoding =>
    refine h.bind (expect_keeps hlen h.good (by decide)) fun _ _ h => ?_
    exact h.bind (expect_keeps hlen h.good (by decide)) fun _ _ h => recurse_spec h
  | path => exact path_spec hlen h
  | crateRoot =>
    exact h.bind (parseIdentifier_keeps hlen h.good 0) fun _ _ h => returns_spec h
  | inherentImpl | traitImpl | traitDefinition => exact emit_recurse _ h
  | implPath =>
    refine silence_bind h fun s1 h => ?_
    exact h.bind ((parseDisambiguator_spec hlen h.good).mono fun _ _ h => h.1) fun _ _ h =>
      recurse_spec h
  | nestedPath => exact nestedPath_spec hlen h
  | type => exact type_spec hlen h
  | tupleType =>
    exact emit_bind h fun _ h => ifEat_bind hlen h (by decide) (fun _ h => emitReturn_spec h _)
      fun _ h => recurse_spec h
  | fnType => exact fnType_spec hlen h
  | dynTraitType => exact dynTraitType_spec hlen h
  | dynTrait | genericArgs => exact recurse_spec h
  | constant => exact constant_spec hlen h
  | genericArg => exact genericArg_spec hlen h
  | pathBackref | typeBackref | constBackref => exact backref_spec hlen h ⟨rfl, rfl, rfl⟩

end

/-- The code at every return address. -/
theorem resume_spec (r : ReturnAddress)
    (h : Ready encoding N R r.namespaces r.positions r.silences s) :
    Spec N (resume encoding r) s (Post encoding N R s.pos 0) := by
  cases r with
  | instantiatingCrate =>
    refine peek_bind h.good fun c _ => ?_
    split_ifs
    · exact silence_bind h fun _ h' => recurse_spec h'
    · exact finish_spec hlen h
  | vendorSpecificSuffix => exact finish_spec hlen h
  | identifierInUppercaseNamespace =>
    refine emit_bind h fun _ h => popNamespace_bind h fun ns _ h => ?_
    exact h.bind (parseIdentifier_keeps hlen h.good ns) fun _ _ h => returns_spec h
  | identifierInLowercaseNamespace =>
    refine emit_bind h fun _ h => ?_
    exact h.bind (parseIdentifier_keeps hlen h.good 0) fun _ _ h => returns_spec h
  | inherentImplType | traitImplType => exact recurse_spec h
  | inherentImplEnding | traitImplEnding | traitDefinitionEnding | finishArray | sliceEnding =>
    exact emitReturn_spec h _
  | traitImplInfix | traitDefinitionInfix | arraySize => exact emit_recurse _ h
  | implPathEnding | finishFn => exact unsilence_returns h
  | afterFirstTupleElement | afterSecondTupleElement =>
    exact tupleElement_spec hlen h _ _ fun _ h' => recurse_spec h'
  | afterThirdTupleElement =>
    exact tupleElement_spec hlen h _ _ fun _ h' => silence_bind h' fun _ h'' =>
      tupleRest_spec hlen h''
  | afterSubsequentTupleElement => exact tupleRest_spec hlen h
  | continueParameterList => exact parameterList_spec hlen h
  | beginAutoTraits | continueAutoTraits => exact autoTraits_spec hlen h
  | continueDynTrait => exact dynTraitRest_spec hlen h
  | continueAssocBinding => exact assocBindings_spec hlen h
  | constData => exact constData_spec hlen h
  | beginGenericArgList =>
    exact emit_bind h fun _ h => silence_bind h fun _ h => genericArgList_spec hlen h
  | continueGenericArgList => exact genericArgList_spec hlen h
  | pathBackrefEnding | typeBackrefEnding | constantBackrefEnding => exact endBackrefReturn_spec h

end Code

/-! ## Runs -/

/-- What holds at every point of a run. -/
def Inv (encoding : List UInt8) (N : ℕ) (c : Config) : Prop :=
  c.iter < kMaxReturns ∧
  match c.point with
  | .label _ => ∃ R, Ready encoding N R 0 0 0 c.state
  | .resume r => ∃ R, Ready encoding N R r.namespaces r.positions r.silences c.state

/-- The rank of the label, or none. -/
def Point.rank : Point → ℕ
  | .label l => DemangleRust.rank l
  | .resume _ => 0

/-- A call returned, a call was made, or the parser read on or jumped to a smaller label. -/
def Descends (encoding : List UInt8) (c c' : Config) : Prop :=
  (c.iter < c'.iter ∧ c'.iter < kMaxReturns) ∨
  c.iter = c'.iter ∧
    (c'.state.recursionStack.length = c.state.recursionStack.length + 1 ∧
      c'.state.recursionStack.length ≤ 256 ∨
    c'.state.recursionStack.length = c.state.recursionStack.length ∧
      (c.state.pos < c'.state.pos ∧ c'.state.pos ≤ encoding.length ∨
      c.state.pos ≤ c'.state.pos ∧ c'.point.rank < c.point.rank))

section Runs

variable {encoding : List UInt8} {N : ℕ} {c : Config}

/-- The state of a point, whose last return address was popped. -/
theorem Ready.pop {s : State} {r : ReturnAddress} {R : List ReturnAddress}
    (h : Ready encoding N (r :: R) 0 0 0 s) :
    Ready encoding N R r.namespaces r.positions r.silences { s with recursionStack := R } where
  __ := h
  good := { h.good with }
  stack := rfl
  depth := (Nat.le_succ _).trans h.depth
  namespaces_eq := by
    change s.namespaceStack.length = _
    rw [h.namespaces_eq, total_cons, add_zero, add_comm]
  positions_eq := by
    change s.positionStack.length = _
    rw [h.positions_eq, total_cons, add_zero, add_comm]
  silences_eq := by
    change s.silenceDepth = _
    rw [h.silences_eq, total_cons, add_zero, add_comm]

/-- The invariant holds at the start. -/
theorem start_inv (encoding out : List UInt8) : Inv encoding out.length (start out) := by
  refine ⟨by norm_num [start, kMaxReturns], [], ⟨?_, ?_, ?_⟩, rfl, by norm_num, by norm_num [start],
    by norm_num [start], fun x hx => absurd hx (by simp [start]), rfl, rfl, rfl⟩
  · exact Nat.zero_le _
  · cases out with
    | nil => rfl
    | cons a out => simp [start, put]
  · cases out with
    | nil => exact .inl rfl
    | cons a out => exact .inr (by simp [start, put])

variable (hlen : encoding.length + 1 < 2 ^ 31)
include hlen

/-- The code from the point of a configuration on. -/
theorem pointCode_spec (h : Inv encoding N c) :
    Spec N (c.point.code encoding) c.state
      (Post encoding N c.state.recursionStack c.state.pos c.point.rank) := by
  obtain ⟨point, iter, s⟩ := c
  cases point with
  | label l =>
    obtain ⟨-, R, hR⟩ := h
    have hstack := hR.stack
    change Spec N (code encoding l) s (Post encoding N s.recursionStack s.pos (rank l))
    rw [hstack]
    exact code_spec hlen hR l
  | resume r =>
    obtain ⟨-, R, hR⟩ := h
    have hstack := hR.stack
    change Spec N (resume encoding r) s (Post encoding N s.recursionStack s.pos 0)
    rw [hstack]
    exact resume_spec hlen r hR

/-- Every step keeps the invariant and descends. -/
theorem step_spec (h : Inv encoding N c) :
    match step encoding c with
    | .next c' => Inv encoding N c' ∧ Descends encoding c c'
    | .done _ s => Ends N s
    | .fault => False := by
  have hcode := pointCode_spec hlen h
  unfold Spec at hcode
  unfold step
  rcases hres : c.point.code encoding c.state with ⟨next, s⟩ | ⟨result, s⟩ | _
  · rw [hres] at hcode
    cases next with
    | goto l =>
      rcases hcode with ⟨r, hr⟩ | ⟨hr, hpos⟩
      · refine ⟨⟨h.1, _, hr⟩, .inr ⟨rfl, .inl ⟨?_, ?_⟩⟩⟩
        · change s.recursionStack.length = _
          rw [hr.stack, length_cons]
        · change s.recursionStack.length ≤ 256
          rw [hr.stack]
          exact hr.depth
      · refine ⟨⟨h.1, _, hr⟩, .inr ⟨rfl, .inr ⟨congrArg length hr.stack, ?_⟩⟩⟩
        exact hpos.imp_left fun hlt => ⟨hlt, hr.good.pos_le⟩
    | «continue» =>
      dsimp only
      split_ifs with hiter
      · have hready := hcode
        have hstack := hready.stack
        rcases hrest : s.recursionStack with _ | ⟨r, rest⟩
        · exact hready.good.ends
        · rw [← hstack, hrest] at hready
          exact ⟨⟨hiter, rest, hready.pop⟩, .inl ⟨Nat.lt_succ_self _, hiter⟩⟩
      · have hready := hcode
        exact hready.good.ends
  · rwa [hres] at hcode
  · rwa [hres] at hcode

/-- What one step keeps, a whole run keeps. -/
theorem run_spec (k : ℕ) (h : Inv encoding N c) :
    match run encoding k c with
    | .next c' => Inv encoding N c'
    | .done _ s => Ends N s
    | .fault => False := by
  induction k generalizing c with
  | zero => exact h
  | succ k ih =>
    have hstep := step_spec hlen h
    rw [run]
    rcases hc : step encoding c with c' | ⟨result, s⟩ | _
    · rw [hc] at hstep
      exact ih hstep.1
    · rwa [hc] at hstep
    · rwa [hc] at hstep

/-- Every run ends. -/
theorem run_ends (c : Config) (h : Inv encoding N c) :
    ∃ k result s, run encoding k c = .done result s := by
  have hstep := step_spec hlen h
  rcases hc : step encoding c with c' | ⟨result, s⟩ | _
  · rw [hc] at hstep
    have hdescends := hstep.2
    obtain ⟨k, result, s, hk⟩ := run_ends c' hstep.1
    refine ⟨k + 1, result, s, ?_⟩
    rwa [run, hc]
  · refine ⟨1, result, s, ?_⟩
    rw [run, hc]
  · rw [hc] at hstep
    exact hstep.elim
termination_by (kMaxReturns - c.iter, 256 - c.state.recursionStack.length,
  encoding.length - c.state.pos, c.point.rank)
decreasing_by
  simp only [Prod.lex_def]
  unfold Descends at hdescends
  omega

end Runs

/-! ## Safety -/

/-- The cursor, the stacks and the output of a parser that is not done. -/
def Within (encoding : List UInt8) (N : ℕ) (s : State) : Prop :=
  s.pos ≤ encoding.length ∧ s.recursionStack.length ≤ 256 ∧ s.namespaceStack.length ≤ 64 ∧
  s.positionStack.length ≤ 16 ∧ s.out.length = N ∧ (N = 0 ∨ s.out[s.outPos]? = some 0)

/-- `Parse` ends, and meets no fault on the way. -/
def Safe (encoding out : List UInt8) : Prop :=
  (∃ k result s, run encoding k (start out) = .done result s) ∧
  ∀ k,
    match run encoding k (start out) with
    | .next c => Within encoding out.length c.state
    | .done _ s => Ends out.length s
    | .fault => False

variable {encoding : List UInt8} {s : State}

/-- Pointers are in their bounds. -/
theorem Ready.within {N a b c : ℕ} {R : List ReturnAddress}
    (h : Ready encoding N R a b c s) : Within encoding N s := by
  refine ⟨h.good.pos_le, ?_, h.namespaces_le, h.positions_le, h.good.length_eq, h.good.terminated⟩
  rw [h.stack]
  exact h.depth

theorem Inv.within {N : ℕ} {c : Config} (h : Inv encoding N c) : Within encoding N c.state := by
  obtain ⟨point, iter, s⟩ := c
  cases point with
  | label l | resume r =>
    obtain ⟨-, R, hR⟩ := h
    exact hR.within

/-- Short encodings are safe. -/
theorem safe_of_length (hlen : encoding.length + 1 < 2 ^ 31)
    (out : List UInt8) : Safe encoding out := by
  have hinv := start_inv encoding out
  refine ⟨run_ends hlen _ hinv, fun k => ?_⟩
  have hrun := run_spec hlen k hinv
  rcases hk : run encoding k _ with c | ⟨result, s⟩ | _
  · rw [hk] at hrun
    exact hrun.within
  · rwa [hk] at hrun
  · rwa [hk] at hrun

/-! ## Overflow -/

/-- A trait definition for a function with a pointer to a pointer and so on. -/
def pointers (m : ℕ) : List UInt8 := bytes "_RYF" ++ replicate m (ch 'P')

theorem length_pointers (m : ℕ) : (pointers m).length = m + 4 := by
  rw [pointers, length_append, length_replicate, add_comm]
  rfl

theorem zero_notMem_pointers (m : ℕ) : 0 ∉ pointers m := by
  rw [pointers, mem_append, mem_replicate]
  rintro (h | ⟨-, h⟩)
  · exact absurd h (by decide)
  · cases h

theorem charAt_pointers_pre (m : ℕ) {i : ℕ} (hi : i < 4) :
    charAt (pointers m) i = (bytes "_RYF")[i]? := by
  rwa [charAt, if_pos (by rw [length_pointers]; omega), pointers, getElem?_append_left]

variable {m : ℕ}

theorem charAt_pointers {i : ℕ} (h : 4 ≤ i) (hi : i < m + 4) :
    charAt (pointers m) i = some (ch 'P') := by
  rw [charAt, if_pos (by rw [length_pointers]; omega), pointers, getElem?_append_right h,
    getElem?_replicate, if_pos]
  change i - 4 < m
  omega

theorem charAt_pointers_end (m : ℕ) : charAt (pointers m) (m + 4) = some 0 := by
  rw [charAt, length_pointers, if_neg (lt_irrefl _), if_pos rfl]

section Equations

variable {encoding : List UInt8} {s s' : State} {c : UInt8} {α β : Type} {m : Parser α}
  {f : α → Parser β} {a : α} {want : Char} {yes no : Parser α}

theorem bind_fault (h : m s = .fault) : (m >>= f) s = .fault := by
  change Parser.bind m f s = _
  unfold Parser.bind
  rw [h]

theorem advance_fault (h : ¬ s.pos + 1 < 2 ^ 31) : advance s = .fault := if_neg h

section

variable (hc : charAt encoding s.pos = some c)
include hc

theorem take_fault (h : ¬ s.pos + 1 < 2 ^ 31) : take encoding s = .fault :=
  (bind_ok (peek_ok hc)).trans (bind_fault (advance_fault h))

theorem eat_other (hw : c ≠ ch want) : eat encoding want s = .ok false s := by
  refine (bind_ok (peek_ok hc)).trans ?_
  rw [if_neg hw]
  rfl

theorem ifEat_other (hw : c ≠ ch want) :
    ifEat encoding want yes no s = no s := bind_ok (eat_other hc hw)

end

section

variable (hc : charAt encoding s.pos = some (ch want))
include hc

theorem ifEat_ok (h : s.pos + 1 < 2 ^ 31) :
    ifEat encoding want yes no s = yes { s with pos := s.pos + 1 } := by
  refine bind_ok (a := true) ((bind_ok (peek_ok hc)).trans ?_)
  rw [if_pos rfl]
  exact bind_ok (advance_ok h)

theorem ifEat_fault (h : ¬ s.pos + 1 < 2 ^ 31) : ifEat encoding want yes no s = .fault := by
  refine bind_fault ((bind_ok (peek_ok hc)).trans ?_)
  rw [if_pos rfl]
  exact bind_fault (advance_fault h)

theorem expect_ok (h : s.pos + 1 < 2 ^ 31) :
    expect encoding want s = .ok () { s with pos := s.pos + 1 } := ifEat_ok hc h

end

theorem emit_silent (h : 0 < s.silenceDepth) : emit token s = .ok () s :=
  if_pos h

/-- A jump. -/
theorem run_goto {k iter : ℕ} (l : Label) {l' : Label} (h : code encoding l s = .ok (.goto l') s') :
    run encoding (k + 1) ⟨.label l, iter, s⟩ = run encoding k ⟨.label l', iter, s'⟩ := by
  rw [run, step, Point.code, h]

/-- A fault ends the run. -/
theorem run_fault {k iter : ℕ} (l : Label) (h : code encoding l s = .fault) :
    run encoding (k + 1) ⟨.label l, iter, s⟩ = .fault := by
  rw [run, step, Point.code, h]

end Equations

/-- A pointer type, up to the character that is not one. -/
theorem type_eq_pointer {c : UInt8} (hc : charAt encoding s.pos = some c) (h : c = ch 'P' ∨ c = 0) :
    type encoding s = ifEat encoding 'P' (do
      emit (bytes "*const ")
      goto .type) (ifEat encoding 'O' (do
      emit (bytes "*mut ")
      goto .type) <|
    ifEat encoding 'F' (goto .fnType) <|
    ifEat encoding 'D' (goto .dynTraitType) <|
    ifEat encoding 'B' (goto .typeBackref) <|
    goto .path) s := by
  have hother : ∀ want, ch want ≠ ch 'P' → ch want ≠ 0 → c ≠ ch want := by
    rintro want h1 h2 rfl
    exact h.elim h1 h2
  have hlower : ¬ isLower c = true := by
    rcases h with rfl | rfl <;> decide
  refine (bind_ok (peek_ok hc)).trans ?_
  rw [if_neg hlower, ifEat_other hc (hother 'A' (by decide) (by decide)),
    ifEat_other hc (hother 'S' (by decide) (by decide)),
    ifEat_other hc (hother 'T' (by decide) (by decide)),
    ifEat_other hc (hother 'R' (by decide) (by decide)),
    ifEat_other hc (hother 'Q' (by decide) (by decide))]

theorem type_terminator (hc : charAt encoding s.pos = some 0) :
    type encoding s = .ok (.goto .path) s := by
  rw [type_eq_pointer hc (.inr rfl), ifEat_other hc (by decide), ifEat_other hc (by decide),
    ifEat_other hc (by decide), ifEat_other hc (by decide), ifEat_other hc (by decide)]
  rfl

/-- The pointers and the terminator are read until the cursor is too large. -/
theorem run_pointers (hm : 2 ^ 31 ≤ m + 5) (iter : ℕ) (s : State) (hsilent : 0 < s.silenceDepth)
    (h : 4 ≤ s.pos) (hpos : s.pos < 2 ^ 31) :
    ∃ k, run (pointers m) k ⟨.label .type, iter, s⟩ = .fault := by
  by_cases hend : s.pos = m + 4
  · have hc : charAt (pointers m) s.pos = some 0 := by rw [hend, charAt_pointers_end]
    refine ⟨2, ?_⟩
    rw [run_goto .type (type_terminator hc)]
    exact run_fault .path (bind_fault (take_fault hc (by omega)))
  have hc := charAt_pointers h (show s.pos < m + 4 by omega)
  by_cases hlt : s.pos + 1 < 2 ^ 31
  · obtain ⟨k, hk⟩ :=
      run_pointers hm iter { s with pos := s.pos + 1 } hsilent (Nat.le_succ_of_le h) hlt
    refine ⟨k + 1, ?_⟩
    have htype : type (pointers m) s = .ok (.goto .type) { s with pos := s.pos + 1 } := by
      rw [type_eq_pointer hc (.inl rfl), ifEat_ok hc hlt]
      exact bind_ok (emit_silent _ hsilent)
    rwa [run_goto .type htype]
  · refine ⟨1, ?_⟩
    refine run_fault .type ?_
    change type (pointers m) s = _
    rw [type_eq_pointer hc (.inl rfl), ifEat_fault hc hlt]
termination_by 2 ^ 31 - s.pos

/-- The state in which the parser reads the first pointer. -/
def pointersState : State :=
  ⟨4, 1, [.continueParameterList, .traitDefinitionInfix, .instantiatingCrate], [], [],
    bytes "<fn..." ++ replicate 10 0, 6⟩

section Pre

variable (m : ℕ)

theorem wholeEncoding_pointers :
    code (pointers m) .wholeEncoding (start (replicate 16 0)).state =
      .ok (.goto .path) ⟨2, 0, [.instantiatingCrate], [], [], replicate 16 0, 0⟩ := by
  refine (bind_ok (expect_ok (charAt_pointers_pre m (by decide)) (by norm_num [start]))).trans ?_
  exact bind_ok (expect_ok (charAt_pointers_pre m (by decide)) (by norm_num [start]))

end Pre

/-- The position overflows behind so many pointers. -/
theorem run_pointers_fault (hm : 2 ^ 31 ≤ m + 5) :
    ∃ k, run (pointers m) k (start (replicate 16 0)) = .fault := by
  obtain ⟨n, rfl⟩ : ∃ n, m = n + 1 := ⟨m - 1, by omega⟩
  obtain ⟨k, hk⟩ := run_pointers hm 0 pointersState (by decide) (by decide)
    (by norm_num [pointersState])
  refine ⟨k + 5, ?_⟩
  refine (run_goto .wholeEncoding (wholeEncoding_pointers _)).trans ?_
  -- the other steps before the first pointer compute
  exact hk

/-- All strings of a length are parsed safely if the terminator is at an index below `INT_MAX`. -/
theorem safe_iff (n : ℕ) : (∀ encoding out : List UInt8, encoding.length = n → 0 ∉ encoding →
    Safe encoding out) ↔ n + 1 < 2 ^ 31 := by
  constructor
  · intro h
    by_contra hn
    obtain ⟨m, rfl⟩ : ∃ m, n = m + 4 := ⟨n - 4, by omega⟩
    obtain ⟨k, hk⟩ := run_pointers_fault (m := m) (by omega)
    have hsafe := (h _ (replicate 16 0) (length_pointers m)
      (zero_notMem_pointers m)).2 k
    rwa [hk] at hsafe
  · intro hn encoding out hlength _
    rw [← hlength] at hn
    exact safe_of_length hn out

/-- The string has `2 ^ 31 - 1` bytes, and the terminator is at the index `INT_MAX`. -/
theorem run_overflow : (pointers (2 ^ 31 - 5)).length = 2 ^ 31 - 1 ∧ 0 ∉ pointers (2 ^ 31 - 5) ∧
    ∃ k, run (pointers (2 ^ 31 - 5)) k (start (replicate 16 0)) = .fault := by
  refine ⟨?_, zero_notMem_pointers _, run_pointers_fault (by norm_num)⟩
  rw [length_pointers]
  norm_num

end Abseil.DemangleRust
