import Abseil.DemangleRust
import Abseil.Numeral
import Abseil.RustPunycodeSpec

/-!
# The parts of the Rust demangler

Each part of the parser that is not cut by a simulated call reads on in the input, keeps the
terminator behind what it wrote, and leaves the stacks as they are (`Step`), or ends the parser with
the output terminated (`Ends`). `Spec` says so for one start; its rules follow the code.
-/

namespace Abseil.DemangleRust

open List ByteBuffer Positional RustPunycode

variable {encoding : List UInt8} {N : ℕ} {s s' : State} {α β : Type}

/-! ## States -/

/-- The cursor is in the input, and the output pointer at the terminator of a buffer of `N`
bytes. -/
structure Good (encoding : List UInt8) (N : ℕ) (s : State) : Prop where
  pos_le : s.pos ≤ encoding.length
  length_eq : s.out.length = N
  terminated : N = 0 ∨ s.out[s.outPos]? = some 0

/-- The output is terminated. -/
def Ends (N : ℕ) (s : State) : Prop := s.out.length = N ∧ (N = 0 ∨ 0 ∈ s.out)

theorem Good.ends (h : Good encoding N s) : Ends N s :=
  ⟨h.length_eq, h.terminated.imp_right mem_of_getElem?⟩

/-- The parser read on, and the stacks are what they were. -/
structure Step (encoding : List UInt8) (N : ℕ) (s s' : State) : Prop where
  good : Good encoding N s'
  pos_le : s.pos ≤ s'.pos
  silenceDepth : s'.silenceDepth = s.silenceDepth
  recursionStack : s'.recursionStack = s.recursionStack
  namespaceStack : s'.namespaceStack = s.namespaceStack
  positionStack : s'.positionStack = s.positionStack

theorem Good.step (h : Good encoding N s) : Step encoding N s s :=
  ⟨h, le_rfl, rfl, rfl, rfl, rfl⟩

theorem Step.trans {s'' : State} (h : Step encoding N s s') (h' : Step encoding N s' s'') :
    Step encoding N s s'' :=
  ⟨h'.good, h.pos_le.trans h'.pos_le, h'.silenceDepth.trans h.silenceDepth,
    h'.recursionStack.trans h.recursionStack, h'.namespaceStack.trans h.namespaceStack,
    h'.positionStack.trans h.positionStack⟩

/-! ## Rules -/

/-- A part that starts in `s` ends in `Q`, or ends the parser. -/
def Spec (N : ℕ) (m : Parser α) (s : State) (Q : α → State → Prop) : Prop :=
  match m s with
  | .ok a s' => Q a s'
  | .done _ s' => Ends N s'
  | .fault => False

variable {m : Parser α} {f : α → Parser β} {a : α} {Q : β → State → Prop}

theorem bind_ok (h : m s = .ok a s') : (m >>= f) s = f a s' := by
  change Parser.bind m f s = _
  unfold Parser.bind
  rw [h]

/-- A part whose result is known. -/
theorem Spec.of_ok (h : m s = .ok a s') (hf : Spec N (f a) s' Q) : Spec N (m >>= f) s Q := by
  rw [Spec, bind_ok h]
  exact hf

/-- One step after another. -/
theorem Spec.bind {P : α → State → Prop} (h : Spec N m s P)
    (hf : ∀ a s', P a s' → Spec N (f a) s' Q) : Spec N (m >>= f) s Q := by
  change Spec N (Parser.bind m f) s Q
  unfold Spec at h ⊢
  rw [Parser.bind]
  rcases hm : m s with ⟨a, s'⟩ | ⟨b, s'⟩ | _ <;> rw [hm] at h
  · exact hf a s' h
  · exact h
  · exact h

theorem Spec.mono {P Q : α → State → Prop} (h : Spec N m s P)
    (hPQ : ∀ a s', P a s' → Q a s') : Spec N m s Q := by
  unfold Spec at h ⊢
  rcases hm : m s with ⟨a, s'⟩ | ⟨b, s'⟩ | _ <;> rw [hm] at h
  · exact hPQ a s' h
  · exact h
  · exact h

theorem Spec.pure {Q : α → State → Prop} (h : Q a s) : Spec N (Pure.pure a) s Q := h

/-- A part that keeps the stacks. -/
abbrev Keeps (encoding : List UInt8) (N : ℕ) (m : Parser α) (s : State) : Prop :=
  Spec N m s fun _ s' => Step encoding N s s'

/-- A step that keeps the state good comes first. -/
theorem Keeps.then (h : Keeps encoding N m s)
    (hf : ∀ a s', Step encoding N s s' → Spec N (f a) s' Q) : Spec N (m >>= f) s Q :=
  Spec.bind h hf

theorem Keeps.bind (h : Keeps encoding N m s)
    (hf : ∀ a s', Step encoding N s s' → Keeps encoding N (f a) s') :
    Keeps encoding N (m >>= f) s :=
  Spec.bind h fun a s' hs => (hf a s' hs).mono fun _ _ hs' => hs.trans hs'

theorem Keeps.pure (h : Good encoding N s) (a : α) : Keeps encoding N (Pure.pure a) s := h.step

theorem Keeps.reject (h : Good encoding N s) : Keeps (α := α) encoding N reject s := h.ends

/-! ## Input -/

section Input

/-- A read of the encoding or of its terminator. -/
theorem charAt_of_le {i : ℕ} (h : i ≤ encoding.length) :
    ∃ c, charAt encoding i = some c ∧ (c ≠ 0 → i < encoding.length) := by
  rw [charAt]
  split_ifs with h1 h2
  · exact ⟨encoding[i], getElem?_eq_getElem h1, fun _ => h1⟩
  · exact ⟨0, rfl, fun h => absurd rfl h⟩
  · omega

theorem peek_ok {c : UInt8} (hc : charAt encoding s.pos = some c) : peek encoding s = .ok c s := by
  unfold peek
  rw [hc]

theorem advance_ok (h : s.pos + 1 < 2 ^ 31) : advance s = .ok () { s with pos := s.pos + 1 } :=
  if_pos h

/-- A read that moves nothing. -/
theorem peek_bind {f : UInt8 → Parser β} (h : Good encoding N s)
    (hf : ∀ c, charAt encoding s.pos = some c → Spec N (f c) s Q) :
    Spec N (peek encoding >>= f) s Q := by
  obtain ⟨c, hc, -⟩ := charAt_of_le h.pos_le
  exact .of_ok (peek_ok hc) (hf c hc)

theorem int_bind {x : ℕ} {f : ℕ → Parser β} (hx : x < 2 ^ 31)
    (hf : Spec N (f x) s Q) : Spec N (int x >>= f) s Q := .of_ok (if_pos hx) hf

/-- The step behind a byte that is not the terminator. -/
theorem Good.next (h : Good encoding N s) {c : UInt8} (hc : charAt encoding s.pos = some c)
    (hne : c ≠ 0) : Step encoding N s { s with pos := s.pos + 1 } := by
  obtain ⟨c', hc', hlt⟩ := charAt_of_le h.pos_le
  rw [hc] at hc'
  obtain rfl := Option.some.inj hc'
  exact ⟨⟨hlt hne, h.length_eq, h.terminated⟩, Nat.le_succ _, rfl, rfl, rfl, rfl⟩

variable (hlen : encoding.length + 1 < 2 ^ 31)
include hlen

/-- A byte is read. Behind the terminator the parser can only end. -/
theorem take_spec (h : Good encoding N s) :
    Spec N (take encoding) s fun c s' => charAt encoding s.pos = some c ∧ Ends N s' ∧
      (c ≠ 0 → Step encoding N s s' ∧ s.pos < s'.pos) := by
  have hpos := h.pos_le
  refine peek_bind h fun c hc => .of_ok (advance_ok (by omega)) ?_
  exact ⟨hc, h.ends, fun hne => ⟨h.next hc hne, Nat.lt_succ_self _⟩⟩

/-- A read that moves on, unless it was the terminator. -/
theorem take_bind {f : UInt8 → Parser β} (h : Good encoding N s)
    (hne : ∀ c s', c ≠ 0 → Step encoding N s s' → s.pos < s'.pos → Spec N (f c) s' Q)
    (hzero : ∀ s', Ends N s' → Spec N (f 0) s' Q) : Spec N (take encoding >>= f) s Q := by
  refine (take_spec hlen h).bind ?_
  rintro c s' ⟨-, hends, hstep⟩
  by_cases hc : c = 0
  · rw [hc]
    exact hzero s' hends
  · exact hne c s' hc (hstep hc).1 (hstep hc).2

variable {want : Char}

section

variable (h : Good encoding N s)
include h

section

variable (hwant : ch want ≠ 0)
include hwant

theorem eat_spec :
    Spec N (eat encoding want) s fun b s' =>
      Step encoding N s s' ∧ (b = true → s.pos < s'.pos) := by
  have hpos := h.pos_le
  refine peek_bind h fun c hc => ?_
  split_ifs with heq
  · refine .of_ok (advance_ok (by omega)) ?_
    exact ⟨h.next hc (heq ▸ hwant), fun _ => Nat.lt_succ_self _⟩
  · exact ⟨h.step, by simp⟩

/-- Both branches behind a letter. -/
theorem ifEat_spec {yes no : Parser α} {Q : α → State → Prop}
    (hyes : ∀ s', Step encoding N s s' → s.pos < s'.pos → Spec N yes s' Q)
    (hno : ∀ s', Step encoding N s s' → Spec N no s' Q) :
    Spec N (ifEat encoding want yes no) s Q := by
  refine (eat_spec hlen h hwant).bind ?_
  rintro b s' ⟨hstep, hlt⟩
  cases b with
  | true => exact hyes s' hstep (hlt rfl)
  | false => exact hno s' hstep

theorem ifEat_keeps {yes no : Parser α} (hyes : ∀ s', Good encoding N s' → Keeps encoding N yes s')
    (hno : ∀ s', Good encoding N s' → Keeps encoding N no s') :
    Keeps encoding N (ifEat encoding want yes no) s :=
  ifEat_spec hlen h hwant (fun s' hs _ => (hyes s' hs.good).mono fun _ _ => hs.trans)
    fun s' hs => (hno s' hs.good).mono fun _ _ => hs.trans

theorem eat_keeps : Keeps encoding N (eat encoding want) s :=
  (eat_spec hlen h hwant).mono fun _ _ hs => hs.1

theorem expect_keeps : Keeps encoding N (expect encoding want) s :=
  ifEat_keeps hlen h hwant (fun _ h => Keeps.pure h _) fun _ h => Keeps.reject h

end

end

end Input

/-! ## Output -/

/-- What a write does to the output. -/
theorem getElem?_put {out out' text : List UInt8} {pos : ℕ} (h : put out pos text = some out') :
    out'.length = out.length ∧
      ∀ i, out'[pos + i]? = if i < text.length then text[i]? else out[pos + i]? := by
  rw [put] at h
  split_ifs at h with hle
  obtain rfl := Option.some.inj h
  have htake : (out.take pos).length = pos := length_take_of_le (by omega)
  constructor
  · simp
    omega
  intro i
  rw [append_assoc, getElem?_append_right (by omega), htake, Nat.add_sub_cancel_left,
    getElem?_append]
  by_cases hi : i < text.length
  · rw [if_pos hi, if_pos hi]
  · rw [if_neg hi, if_neg hi, getElem?_drop]
    congr 1
    omega

theorem put_eq_some {out text : List UInt8} {pos : ℕ} (h : pos + text.length ≤ out.length) :
    ∃ out', put out pos text = some out' := ⟨_, if_pos h⟩

/-- A token for which there is room. -/
theorem emit_ok (token : List UInt8) (hs : s.silenceDepth = 0)
    (hroom : s.outPos + token.length < s.out.length) :
    ∃ out, put s.out s.outPos (token ++ [0]) = some out ∧
      emit token s = .ok () { s with out := out, outPos := s.outPos + token.length } := by
  have hle : s.outPos + (token ++ [0]).length ≤ s.out.length := by
    rw [length_append, length_singleton]
    omega
  obtain ⟨out, hput⟩ := put_eq_some hle
  have hwrite : write (token ++ [0]) s = .ok () { s with out := out } := by rw [write, hput]
  refine ⟨out, hput, ?_⟩
  rw [emit, if_neg (by omega), if_neg (by omega)]
  exact bind_ok hwrite

/-- Output is written only where there is room. -/
theorem emit_keeps (h : Good encoding N s) (token : List UInt8) :
    Keeps encoding N (emit token) s := by
  by_cases h1 : s.silenceDepth > 0
  · unfold Keeps Spec emit
    rw [if_pos h1]
    exact h.step
  by_cases h2 : s.out.length < s.outPos + (token.length + 1)
  · unfold Keeps Spec emit
    rw [if_neg h1, if_pos h2]
    exact h.ends
  obtain ⟨out, hput, hemit⟩ := emit_ok (s := s) token (by omega) (by omega)
  obtain ⟨hlength, hget⟩ := getElem?_put hput
  have hlast := hget token.length
  rw [if_pos (by simp), getElem?_append_right le_rfl, Nat.sub_self] at hlast
  unfold Keeps Spec
  rw [hemit]
  exact ⟨⟨h.pos_le, hlength.trans h.length_eq, .inr hlast⟩, le_rfl, rfl, rfl, rfl, rfl⟩

theorem emitChar_keeps (h : Good encoding N s) (c : UInt8) : Keeps encoding N (emitChar c) s :=
  emit_keeps h [c]

/-- A disambiguator in decimal, or a question mark for one that was too large. -/
def number : Option ℕ → List UInt8
  | none => [ch '?']
  | some k => text (numeral 10 k)

/-- The digits of a number fit into the buffer. -/
theorem disambiguatorDigits_eq : ∀ i k digits, 0 < k → k < 10 ^ i →
    disambiguatorDigits i k digits = some (text (numeral 10 k) ++ digits)
  | 0, k, _, h0, h => by omega
  | i + 1, k, digits, h0, h => by
    rw [disambiguatorDigits, if_pos h0]
    rcases lt_or_ge k 10 with hk | hk
    · rw [Nat.div_eq_of_lt hk, Nat.mod_eq_of_lt hk, numeral_of_lt hk]
      cases i <;> rfl
    · have hlt : k / 10 < 10 ^ i := Nat.div_lt_of_lt_mul (by rwa [← Nat.pow_succ'])
      rw [disambiguatorDigits_eq i (k / 10) _ (by omega) hlt, numeral_of_ge (by decide) hk, text,
        text, map_append, append_assoc]
      rfl

/-- A value of `int`, or one that was too large. -/
def SmallInt (x : Option ℕ) : Prop := ∀ v, x = some v → v < 2 ^ 31

/-- The number or the question mark is printed. -/
theorem emitDisambiguator_eq {d : Option ℕ} (hd : SmallInt d) :
    emitDisambiguator d = emit (number d) := by
  rcases d with _ | _ | d
  · rfl
  · rfl
  have hlt : d + 1 < 10 ^ 11 := (hd _ rfl).trans (by norm_num)
  rw [emitDisambiguator, disambiguatorDigits_eq 11 (d + 1) [] (by omega) hlt, append_nil, number]
  exact Nat.succ_ne_zero d

/-! ## Numbers -/

section Numbers

theorem base62Digit_le {c : UInt8} (h : (isAlpha c || isDigit c) = true) : base62Digit c ≤ 61 := by
  simp only [isAlpha, isDigit, isLower, isUpper, base62Digit, ch, Bool.or_eq_true, Bool.and_eq_true,
    decide_eq_true_eq, UInt8.le_iff_toNat_le] at h ⊢
  have h0 : (UInt8.ofNat '0'.toNat).toNat = 48 := rfl
  have h9 : (UInt8.ofNat '9'.toNat).toNat = 57 := rfl
  have ha : (UInt8.ofNat 'a'.toNat).toNat = 97 := rfl
  have hz : (UInt8.ofNat 'z'.toNat).toNat = 122 := rfl
  have hZ : (UInt8.ofNat 'Z'.toNat).toNat = 90 := rfl
  split_ifs <;> omega

theorem not_alnum_zero : (isAlpha 0 || isDigit 0) = false := by decide

theorem isDigit_zero : isDigit 0 = false := by decide

variable (hlen : encoding.length + 1 < 2 ^ 31)
include hlen

/-- A byte that was looked at is read. -/
theorem take_of_charAt {f : UInt8 → Parser β} (h : Good encoding N s) {c : UInt8}
    (hc : charAt encoding s.pos = some c) (hne : c ≠ 0)
    (hf : Step encoding N s { s with pos := s.pos + 1 } →
      Spec N (f c) { s with pos := s.pos + 1 } Q) : Spec N (take encoding >>= f) s Q := by
  have hpos := h.pos_le
  exact .of_ok ((bind_ok (peek_ok hc)).trans (bind_ok (advance_ok (by omega)))) (hf (h.next hc hne))

/-- The accumulator stays in range. -/
theorem base62Loop_spec (left : ℕ) : ∀ {s : State} (e : ℕ) (o : Bool), Good encoding N s →
    e ≤ 2 ^ 31 - 3 → Spec N (base62Loop encoding left e o) s fun r s' =>
      Step encoding N s s' ∧ r.1 ≤ 2 ^ 31 - 3 := by
  induction left with
  | zero =>
    intro s e o h he
    refine peek_bind h fun c _ => ?_
    split_ifs
    · exact h.ends
    · exact ⟨h.step, he⟩
  | succ left ih =>
    intro s e o h he
    refine peek_bind h fun c hc => ?_
    by_cases halnum : (isAlpha c || isDigit c) = true
    · rw [if_pos halnum]
      have hne : c ≠ 0 := by
        rintro rfl
        rw [not_alnum_zero] at halnum
        cases halnum
      have hdigit := base62Digit_le halnum
      refine take_of_charAt hlen h hc hne fun hs => ?_
      split_ifs with hbig
      · exact (ih e true hs.good he).mono fun _ _ hr => ⟨hs.trans hr.1, hr.2⟩
      have hle : 62 * e + base62Digit c ≤ 2 ^ 31 - 3 := by
        omega
      refine int_bind (by omega) ?_
      exact (ih _ o hs.good hle).mono fun _ _ hr => ⟨hs.trans hr.1, hr.2⟩
    · rw [if_neg halnum]
      exact ⟨h.step, he⟩

/-- A number in base 62 is in range. -/
theorem parseBase62Number_spec (h : Good encoding N s) :
    Spec N (parseBase62Number encoding) s fun v s' =>
      Step encoding N s s' ∧ ∀ x, v = some x → x < 2 ^ 31 - 1 := by
  refine ifEat_spec hlen h (by decide) (fun s' hs _ => ?_) fun s' hs => ?_
  · refine Spec.pure ⟨hs, ?_⟩
    rintro _ ⟨⟩
    norm_num
  refine (base62Loop_spec hlen 16 0 false hs.good (by norm_num)).bind ?_
  rintro ⟨e, o⟩ s1 ⟨hs1, he⟩
  refine (expect_keeps hlen hs1.good (by decide)).then fun _ s2 hs2 => ?_
  have hstep := (hs.trans hs1).trans hs2
  split_ifs
  · exact Spec.pure ⟨hstep, by simp⟩
  · refine int_bind (by omega) (Spec.pure ⟨hstep, ?_⟩)
    rintro _ ⟨⟩
    omega

theorem parseBase62Number_keeps (h : Good encoding N s) :
    Keeps encoding N (parseBase62Number encoding) s :=
  (parseBase62Number_spec hlen h).mono fun _ _ h => h.1

theorem parseDisambiguator_spec (h : Good encoding N s) :
    Spec N (parseDisambiguator encoding) s fun v s' => Step encoding N s s' ∧ SmallInt v := by
  refine ifEat_spec hlen h (by decide) (fun s' hs _ => ?_) fun s' hs => ?_
  · refine (parseBase62Number_spec hlen hs.good).bind ?_
    rintro v s1 ⟨hs1, hv⟩
    cases v with
    | none =>
      refine Spec.pure ⟨hs.trans hs1, ?_⟩
      rintro _ ⟨⟩
    | some v =>
      have hlt := hv v rfl
      refine int_bind (by omega) (Spec.pure ⟨hs.trans hs1, ?_⟩)
      rintro _ ⟨⟩
      omega
  · refine Spec.pure ⟨hs, ?_⟩
    rintro _ ⟨⟩
    norm_num

/-- A decimal number does not overflow. -/
theorem decimalLoop_spec (fuel : ℕ) : ∀ {s : State} (e : ℕ), Good encoding N s →
    10 ^ 9 ≤ e * 10 ^ fuel → e < 2 ^ 31 → Spec N (decimalLoop encoding fuel e) s fun r s' =>
      Step encoding N s s' ∧ r < 2 ^ 31 := by
  induction fuel with
  | zero =>
    intro s e h hbig he
    refine peek_bind h fun c _ => ?_
    have hnot : ¬ e < (2 ^ 31 - 1) / 10 := by
      omega
    rw [decide_eq_false hnot, Bool.and_false]
    exact ⟨h.step, he⟩
  | succ fuel ih =>
    intro s e h hbig he
    refine peek_bind h fun c hc => ?_
    split_ifs with hcond
    · rw [Bool.and_eq_true, decide_eq_true_eq] at hcond
      have hne : c ≠ 0 := by
        rintro rfl
        rw [isDigit_zero] at hcond
        cases hcond.1
      have hdigit : c.toNat - 48 ≤ 9 := by
        have h₉ := hcond.1
        simp only [isDigit, ch, Bool.and_eq_true, decide_eq_true_eq, UInt8.le_iff_toNat_le] at h₉
        have h9 : (UInt8.ofNat '9'.toNat).toNat = 57 := rfl
        omega
      have hle : 10 * e + (c.toNat - 48) < 2 ^ 31 := by
        omega
      refine take_of_charAt hlen h hc hne fun hs => int_bind hle ?_
      refine (ih _ hs.good ?_ hle).mono fun _ _ hr => ⟨hs.trans hr.1, hr.2⟩
      calc 10 ^ 9 ≤ e * 10 ^ (fuel + 1) := hbig
        _ = 10 * e * 10 ^ fuel := by rw [pow_succ]; ring
        _ ≤ (10 * e + (c.toNat - 48)) * 10 ^ fuel := Nat.mul_le_mul_right _ (Nat.le_add_right _ _)
    · exact ⟨h.step, he⟩

/-- A length is in range. -/
theorem parseDecimalNumber_spec (h : Good encoding N s) :
    Spec N (parseDecimalNumber encoding) s fun v s' => Step encoding N s s' ∧ v < 2 ^ 31 := by
  refine peek_bind h fun c hc => ?_
  split_ifs with hdigit
  · have hne : c ≠ 0 := by
      rintro rfl
      rw [isDigit_zero] at hdigit
      cases hdigit
    have hlt := c.toNat_lt
    refine take_of_charAt hlen h hc hne fun hs => ?_
    split_ifs with hzero
    · exact Spec.pure ⟨hs, by norm_num⟩
    refine (decimalLoop_spec hlen 9 _ hs.good ?_ (by omega)).bind ?_
    · exact Nat.le_mul_of_pos_left _ (Nat.pos_of_ne_zero hzero)
    rintro v s1 ⟨hs1, hv⟩
    refine peek_bind hs1.good fun c' _ => ?_
    split_ifs
    · exact hs1.good.ends
    · exact Spec.pure ⟨hs.trans hs1, hv⟩
  · exact h.ends

end Numbers

/-! ## Identifiers -/

section Punycode

theorem decodeStep_sim {s s' : RustPunycode.State} {chars : List ℕ} (h : Sim s chars)
    (hstep : decodeStep s = .ok s') : ∃ chars', Sim s' chars' ∧ s'.out.length = s.out.length := by
  by_cases hlt : s.numChars < 256
  · rcases hscan : Punycode.scanDelta s.bias 36 1 s.i s.punycode with _ | ⟨j, rest⟩
    · rw [decodeStep_none h hlt hscan] at hstep
      cases hstep
    obtain ⟨hok, hnull⟩ := decodeStep_spec h hlt hscan rfl rfl rfl
    by_cases hfits : (s.n + j / (s.numChars + 1)).isValidChar ∧
        (utf8 (chars.insertIdx (j % (s.numChars + 1)) (s.n + j / (s.numChars + 1)))).length + 1
          ≤ s.out.length
    · obtain ⟨rep, out, hrun, hlength, hsim⟩ := hok hfits.1 hfits.2
      rw [hrun] at hstep
      obtain rfl := Except.ok.inj hstep
      exact ⟨_, hsim, hlength⟩
    · rw [hnull hfits] at hstep
      cases hstep
  · rw [decodeStep_full (by omega)] at hstep
    cases hstep

theorem sim_mem {s : RustPunycode.State} {chars : List ℕ} (h : Sim s chars) : 0 ∈ s.out :=
  h.text.subset (by simp)

/-- The output keeps its length and its terminator. -/
theorem decodeLoopOut_spec : ∀ fuel {s : RustPunycode.State} {chars : List ℕ}, Sim s chars →
    (decodeLoopOut fuel s).length = s.out.length ∧ 0 ∈ decodeLoopOut fuel s := by
  intro fuel
  induction fuel with
  | zero => exact fun h => ⟨rfl, sim_mem h⟩
  | succ fuel ih =>
    intro s chars h
    rw [decodeLoopOut]
    split_ifs
    · exact ⟨rfl, sim_mem h⟩
    rcases hstep : decodeStep s with e | s'
    · exact ⟨rfl, sim_mem h⟩
    · obtain ⟨chars', hsim, hlength⟩ := decodeStep_sim h hstep
      exact ⟨(ih hsim).1.trans hlength, (ih hsim).2⟩

/-- A scan that does not end early read bytes of identifiers only. -/
theorem findLastUnderscore_ok : ∀ {input : List UInt8} {i : ℕ} {last r : Option ℕ},
    findLastUnderscore i last input = .ok r →
    (∀ c ∈ input, IdentifierByte c) ∧ (r = last ∨ ∃ k, r = some k ∧ k < i + input.length) := by
  intro input
  induction input with
  | nil =>
    intro i last r h
    exact ⟨by simp, .inl (Except.ok.inj h).symm⟩
  | cons c input ih =>
    intro i last r h
    rw [findLastUnderscore] at h
    have hint : ∀ {x : ℕ} {f : ℕ → Run (Option ℕ)}, (RustPunycode.int x >>= f) = .ok r →
        f x = .ok r := by
      intro x f hx
      unfold RustPunycode.int at hx
      split_ifs at hx
      · exact hx
      · exact absurd hx (by simp [Bind.bind, Except.bind])
    split_ifs at h with h1 h2
    · obtain ⟨hall, hr⟩ := ih (hint h)
      refine ⟨forall_mem_cons.2 ⟨.inl h1, hall⟩, .inr ?_⟩
      rcases hr with rfl | ⟨k, rfl, hk⟩
      · exact ⟨i, rfl, by rw [length_cons]; omega⟩
      · exact ⟨k, rfl, by rw [length_cons]; omega⟩
    · obtain ⟨hall, hr⟩ := ih (hint h)
      refine ⟨forall_mem_cons.2 ⟨.inr h2, hall⟩, hr.imp_right ?_⟩
      rintro ⟨k, rfl, hk⟩
      exact ⟨k, rfl, by rw [length_cons]; omega⟩

/-- The prefix is copied as far as there is room. -/
theorem consume_sim {input out out' rest : List UInt8} {n : ℕ} (hne : out ≠ [])
    (h : consumeOptionalAsciiPrefix input (0 :: out.drop 1) = .ok (n, rest, out')) :
    ∃ chars, Sim ⟨rest, 128, 0, 72, n, n, replicate (kMaxChars / 32) 0, out'⟩ chars ∧
      out'.length = out.length := by
  have hlength : (0 :: out.drop 1).length = out.length := by
    have := length_pos_iff.2 hne
    simp
    omega
  unfold consumeOptionalAsciiPrefix at h
  rcases hscan : findLastUnderscore 0 none input with e | r
  · rw [hscan] at h
    exact absurd h (by simp [Bind.bind, Except.bind])
  rw [hscan, ok_bind] at h
  obtain ⟨hall, hr⟩ := findLastUnderscore_ok hscan
  rcases r with _ | _ | l
  · obtain ⟨rfl, rfl, rfl⟩ : n = 0 ∧ input = rest ∧ 0 :: out.drop 1 = out' := by
      have := Except.ok.inj h
      simp only [Prod.mk.injEq] at this
      exact ⟨this.1.symm, this.2.1, this.2.2⟩
    have hpre : ([] : List UInt8) ++ [0] <+: 0 :: out.drop 1 := ⟨out.drop 1, rfl⟩
    exact ⟨_, sim_start input (by simp) hpre, hlength⟩
  · cases h
  dsimp only at h
  split_ifs at h with hfits
  have hl : l + 1 < input.length := by
    rcases hr with hr | ⟨k, hk, hlt⟩
    · cases hr
    · obtain rfl := Option.some.inj hk
      omega
  have htake := length_take_of_le hl.le
  obtain ⟨out1, hput1⟩ : ∃ out1, put (0 :: out.drop 1) 0 (input.take (l + 1)) = some out1 :=
    put_eq_some (by omega)
  have hlen1 := (getElem?_put hput1).1
  obtain ⟨out2, hput2⟩ : ∃ out2, put out1 (l + 1) [0] = some out2 :=
    put_eq_some (by rw [length_singleton]; omega)
  rw [hput1] at h
  change (orFault (put out1 (l + 1) [0]) >>= _) = _ at h
  rw [hput2] at h
  obtain ⟨rfl, rfl, rfl⟩ : n = l + 1 ∧ rest = input.drop (l + 1 + 1) ∧ out' = out2 := by
    have := Except.ok.inj h
    simp only [Prod.mk.injEq] at this
    exact ⟨this.1.symm, this.2.1.symm, this.2.2.symm⟩
  have hpre : input.take (l + 1) ++ [0] <+: out' := by
    have h1 : out1 = input.take (l + 1) ++ (0 :: out.drop 1).drop (l + 1) := by
      rw [put] at hput1
      split_ifs at hput1
      rw [← Option.some.inj hput1, take_zero, nil_append, zero_add, htake]
    have h2 := hput2
    rw [put] at h2
    split_ifs at h2
    rw [← Option.some.inj h2, h1, take_left' htake]
    exact prefix_append _ _
  have hsim := sim_start (input.drop (l + 1 + 1))
    (fun c hc => hall c (mem_of_mem_take hc)) hpre
  rw [htake] at hsim
  exact ⟨_, hsim, ((getElem?_put hput2).1.trans hlen1).trans hlength⟩

/-- The buffer is terminated whenever `DecodeRustPunycode` ends. -/
theorem decodeOut_spec (input : List UInt8) {out : List UInt8} (hne : out ≠ []) :
    (decodeOut input out).length = out.length ∧ 0 ∈ decodeOut input out := by
  have hlength : (0 :: out.drop 1).length = out.length := by
    have := length_pos_iff.2 hne
    simp
    omega
  rw [decodeOut, put_zero hne]
  dsimp only
  rcases hc : consumeOptionalAsciiPrefix input (0 :: out.drop 1) with e | ⟨n, rest, out'⟩
  · exact ⟨hlength, by simp⟩
  · obtain ⟨chars, hsim, hlen⟩ := consume_sim hne hc
    exact ⟨(decodeLoopOut_spec _ hsim).1.trans hlen, (decodeLoopOut_spec _ hsim).2⟩

/-- The decoder ends its output, or leaves a terminator in it. -/
theorem decode_cases {input : List UInt8} (hlen : input.length < 2 ^ 31) (out : List UInt8) :
    (∃ n out', decodeRustPunycode input out = .ok (n, out') ∧ out'.length = out.length ∧
      out'[n]? = some 0) ∨ decodeRustPunycode input out = .error .null := by
  rcases decodeRustPunycode_scannable (.inr (.inl hlen) : Scannable input out)
    with ⟨text, out', -, hrun, hlength, hpre⟩ | ⟨-, hrun⟩
  · refine .inl ⟨text.length, out', hrun, hlength, ?_⟩
    obtain ⟨rest, rfl⟩ := hpre
    simp
  · exact .inr hrun

end Punycode

section Identifiers

variable (hlen : encoding.length + 1 < 2 ^ 31)
include hlen

/-- The decoded name stays in the output. -/
theorem emitPunycode_keeps (h : Good encoding N s) {n : ℕ} (hn : s.pos + n ≤ encoding.length) :
    Keeps encoding N (emitPunycode encoding n) s := by
  have hinput : ((encoding.drop s.pos).take n).length < 2 ^ 31 := by
    simp
    omega
  unfold Keeps Spec emitPunycode
  rcases decode_cases hinput (s.out.drop s.outPos) with ⟨k, out', hrun, hlength, hzero⟩ | hrun
  · have hpos : s.outPos < s.out.length := by
      by_contra hge
      have : out'.length = 0 := by
        rw [hlength]
        simp
        omega
      rw [length_eq_zero_iff.1 this] at hzero
      cases hzero
    rw [hrun]
    dsimp only
    rw [if_pos (by omega)]
    have htake := length_take_of_le hpos.le
    refine ⟨⟨hn, ?_, .inr ?_⟩, Nat.le_add_right _ _, rfl, rfl, rfl, rfl⟩
    · rw [length_append, hlength, length_drop, ← h.length_eq]
      omega
    · change (s.out.take s.outPos ++ out')[s.outPos + k]? = some 0
      rw [getElem?_append_right (by omega), htake, Nat.add_sub_cancel_left, hzero]
  · rw [hrun]
    rcases h.terminated with hN | hterm
    · have hnil := length_eq_zero_iff.1 (h.length_eq.trans hN)
      refine ⟨?_, .inl hN⟩
      rw [hnil, hN, take_nil, drop_nil]
      rfl
    have hpos : s.outPos < s.out.length := by
      by_contra hge
      rw [getElem?_eq_none (by omega)] at hterm
      cases hterm
    have hne : s.out.drop s.outPos ≠ [] := by
      rw [ne_eq, drop_eq_nil_iff]
      omega
    obtain ⟨hout, hmem⟩ := decodeOut_spec _ hne
    have htake := length_take_of_le hpos.le
    refine ⟨?_, .inr (mem_append_right _ hmem)⟩
    rw [length_append, hout, length_drop, ← h.length_eq]
    omega

/-- Bytes are skipped. -/
theorem skipBytes_keeps (n : ℕ) : ∀ {s : State}, Good encoding N s →
    Keeps encoding N (skipBytes encoding n) s := by
  induction n with
  | zero => exact fun h => Keeps.pure h ()
  | succ n ih =>
    intro s h
    refine take_bind hlen h (fun c s' hc hs _ => ?_) fun s' hs => ?_
    · rw [if_neg hc]
      exact (ih hs.good).mono fun _ _ => hs.trans
    · rwa [if_pos rfl]

/-- Bytes are copied. -/
theorem emitBytes_keeps (n : ℕ) : ∀ {s : State}, Good encoding N s →
    Keeps encoding N (emitBytes encoding n) s := by
  induction n with
  | zero => exact fun h => Keeps.pure h ()
  | succ n ih =>
    intro s h
    refine take_bind hlen h (fun c s' hc hs _ => ?_) fun s' hs => ?_
    · split_ifs
      · exact hs.good.ends
      · refine Spec.mono (Keeps.bind (emitChar_keeps hs.good c) fun _ s2 hs2 => ih hs2.good)
          fun _ _ => hs.trans
    · exact hs

section

variable (h : Good encoding N s)
include h

theorem parsePunycode_keeps (n : ℕ) : Keeps encoding N (parsePunycode encoding n) s := by
  have hpos := h.pos_le
  refine .of_ok (if_pos hpos) ?_
  split_ifs with hn
  · exact h.ends
  refine .of_ok rfl ?_
  cases decide (s.silenceDepth > 0) with
  | true => exact skipBytes_keeps hlen n h
  | false => exact emitPunycode_keeps hlen h (by omega)

omit hlen in
theorem emitOpening_keeps (ns : UInt8) (n : ℕ) : Keeps encoding N (emitOpening ns n) s := by
  unfold emitOpening
  have hcolon : ∀ {s' : State}, Good encoding N s' →
      Keeps encoding N (if n > 0 then emit (bytes ":") else pure ()) s' := by
    intro s' h'
    split_ifs
    · exact emit_keeps h' _
    · exact Keeps.pure h' ()
  by_cases h0 : ns = 0
  · rw [if_pos h0]
    exact Keeps.pure h ()
  rw [if_neg h0]
  by_cases hC : ns = ch 'C'
  · rw [if_pos hC]
    exact (emit_keeps h _).bind fun _ _ hs => hcolon hs.good
  rw [if_neg hC]
  by_cases hS : ns = ch 'S'
  · rw [if_pos hS]
    exact (emit_keeps h _).bind fun _ _ hs => hcolon hs.good
  · rw [if_neg hS]
    exact (emitChar_keeps h _).bind fun _ _ hs =>
      (emitChar_keeps hs.good _).bind fun _ _ hs => hcolon hs.good

omit hlen in
theorem emitClosing_keeps (ns : UInt8) {d : Option ℕ} (hd : SmallInt d) :
    Keeps encoding N (emitClosing ns d) s := by
  rw [emitClosing, emitDisambiguator_eq hd]
  split_ifs
  · exact Keeps.pure h ()
  · exact (emitChar_keeps h _).bind fun _ _ hs =>
      (emit_keeps hs.good _).bind fun _ _ hs => emitChar_keeps hs.good _

/-- An identifier is parsed safely. -/
theorem parseUndisambiguatedIdentifier_keeps (ns : UInt8) {d : Option ℕ}
    (hd : SmallInt d) : Keeps encoding N (parseUndisambiguatedIdentifier encoding ns d) s := by
  refine (eat_keeps hlen h (by decide)).bind fun b s1 hs1 => ?_
  refine Keeps.bind ((parseDecimalNumber_spec hlen hs1.good).mono fun _ _ h => h.1)
    fun n s2 hs2 => ?_
  refine (eat_keeps hlen hs2.good (by decide)).bind fun _ s3 hs3 => ?_
  have hend : ∀ {s' : State}, Good encoding N s' → Keeps encoding N (emitClosing ns d) s' :=
    fun h' => emitClosing_keeps h' ns hd
  cases b with
  | true =>
    exact (parsePunycode_keeps hlen hs3.good n).bind fun _ _ hs =>
      (emitOpening_keeps hs.good ns n).bind fun _ _ hs =>
        (Keeps.pure hs.good ()).bind fun _ _ hs => hend hs.good
  | false =>
    exact (Keeps.pure hs3.good ()).bind fun _ _ hs =>
      (emitOpening_keeps hs.good ns n).bind fun _ _ hs =>
        (emitBytes_keeps hlen n hs.good).bind fun _ _ hs => hend hs.good

theorem parseIdentifier_keeps (ns : UInt8) : Keeps encoding N (parseIdentifier encoding ns) s := by
  refine Spec.bind (parseDisambiguator_spec hlen h) ?_
  rintro d s' ⟨hs, hd⟩
  exact (parseUndisambiguatedIdentifier_keeps hlen hs.good ns hd).mono fun _ _ => hs.trans

theorem parseOptionalBinder_keeps : Keeps encoding N (parseOptionalBinder encoding) s :=
  ifEat_keeps hlen h (by decide)
    (fun _ h => (parseBase62Number_keeps hlen h).bind fun _ _ hs => Keeps.pure hs.good ())
    fun _ h => Keeps.pure h ()

theorem parseOptionalLifetime_keeps : Keeps encoding N (parseOptionalLifetime encoding) s :=
  ifEat_keeps hlen h (by decide)
    (fun _ h => (parseBase62Number_keeps hlen h).bind fun _ _ hs => Keeps.pure hs.good ())
    fun _ h => Keeps.pure h ()

theorem parseRequiredLifetime_keeps : Keeps encoding N (parseRequiredLifetime encoding) s := by
  refine peek_bind h fun c _ => ?_
  split_ifs
  · exact parseOptionalLifetime_keeps hlen h
  · exact h.ends

end

/-- The digits of a constant are copied. -/
theorem hexDigits_keeps (fuel : ℕ) : ∀ {s : State}, Good encoding N s →
    encoding.length - s.pos ≤ fuel → Keeps encoding N (hexDigits encoding fuel) s := by
  induction fuel with
  | zero =>
    intro s h hfuel
    refine peek_bind h fun c hc => ?_
    obtain ⟨c', hc', hlt⟩ := charAt_of_le h.pos_le
    rw [hc] at hc'
    obtain rfl := Option.some.inj hc'
    by_cases hzero : c = 0
    · rw [hzero]
      exact h.step
    · have := hlt hzero
      omega
  | succ fuel ih =>
    intro s h hfuel
    refine peek_bind h fun c hc => ?_
    split_ifs with hhex
    · have hne : c ≠ 0 := by
        rintro rfl
        cases hhex
      refine take_of_charAt hlen h hc hne fun hs => ?_
      refine Spec.mono (Keeps.bind (emitChar_keeps hs.good c) fun _ s2 hs2 => ih hs2.good ?_)
        fun _ _ => hs.trans
      have hle : s.pos + 1 ≤ s2.pos := hs2.pos_le
      omega
    · exact h.step

end Identifiers

end Abseil.DemangleRust
