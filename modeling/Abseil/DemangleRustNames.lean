import Abseil.DemangleRustRun

/-!
# Names in uppercase namespaces

With the letter of an uppercase namespace, `ParseIdentifier` prints a name in braces together with
its disambiguator. A raw name is printed as it is read, inside of the braces. A punycoded name is
decoded to the output before the braces are opened, so its text comes out in front of them
(`parseIdentifier_punycoded`). An identifier is right exactly if it is raw or its text is empty
(`parseIdentifier_braced_iff`).
-/

namespace Abseil.DemangleRust

open List ByteBuffer Positional RustPunycode

variable {encoding : List UInt8} {s s' : State}

/-! ## Printing -/

/-- What is in front of the output pointer. -/
def State.printed (s : State) : List UInt8 := s.out.take s.outPos

/-- `i` bytes were read and `t` was printed. -/
structure Printed (s : State) (i : ℕ) (t : List UInt8) (s' : State) : Prop where
  printed : s'.printed = s.printed ++ t
  pos : s'.pos = s.pos + i
  outPos : s'.outPos = s.outPos + t.length
  length : s'.out.length = s.out.length
  silence : s'.silenceDepth = s.silenceDepth

/-- A part that reads `i` bytes and prints `t`, if it may and there is room. -/
def Prints (m : Parser Unit) (s : State) (i : ℕ) (t : List UInt8) : Prop :=
  s.silenceDepth = 0 → s.outPos + t.length < s.out.length →
    ∃ s', m s = .ok () s' ∧ Printed s i t s'

variable {m m' : Parser Unit} {i j : ℕ} {a b n : List UInt8}

/-- What is printed comes in the order of the steps. -/
theorem Prints.bind (h : Prints m s i a) (h' : ∀ s', s'.pos = s.pos + i → Prints m' s' j b) :
    Prints (m >>= fun _ => m') s (i + j) (a ++ b) := by
  intro hs hroom
  rw [length_append] at hroom
  obtain ⟨s₁, h₁, hp⟩ := h hs (by omega)
  have hout := hp.outPos
  have hlength := hp.length
  obtain ⟨s₂, h₂, hq⟩ := h' s₁ hp.pos (hp.silence.trans hs) (by omega)
  have hpos := hq.pos.trans (congrArg (· + j) hp.pos)
  refine ⟨s₂, (bind_ok h₁).trans h₂, ?_, hpos.trans (Nat.add_assoc _ _ _), ?_,
    hq.length.trans hlength, hq.silence.trans hp.silence⟩
  · rw [hq.printed, hp.printed, append_assoc]
  · rw [hq.outPos, hout, length_append, Nat.add_assoc]

theorem prints_pure : Prints (pure ()) s 0 [] := fun _ _ =>
  ⟨s, rfl, (append_nil _).symm, rfl, rfl, rfl, rfl⟩

/-- A token is printed. -/
theorem prints_emit (t : List UInt8) : Prints (emit t) s 0 t := by
  intro hs hroom
  obtain ⟨out, hput, hemit⟩ := emit_ok t hs hroom
  refine ⟨_, hemit, ?_, rfl, rfl, (getElem?_put hput).1, rfl⟩
  rw [put, if_pos (by rw [length_append, length_singleton]; omega)] at hput
  obtain rfl := Option.some.inj hput
  show (s.printed ++ (t ++ [0]) ++ _).take (s.outPos + t.length) = _
  rw [← append_assoc, append_assoc]
  exact take_left' (by simp [State.printed]; omega)

theorem prints_if {c : Prop} [Decidable c] :
    Prints (if c then emit b else pure ()) s 0 (if c then b else []) := by
  split_ifs
  · exact prints_emit b
  · exact prints_pure

/-! ## Braces -/

/-- The word for a namespace. -/
def label (X : UInt8) : List UInt8 :=
  if X = ch 'C' then bytes "closure" else if X = ch 'S' then bytes "shim" else [X]

/-- A name in braces, with its namespace and its disambiguator. -/
def braced (X : UInt8) (n : List UInt8) (k : Option ℕ) : List UInt8 :=
  ch '\x7b' :: label X ++ (if n.length > 0 then bytes ":" else []) ++ n ++
    (ch '#' :: number k ++ [ch '\x7d'])

variable {k : Option ℕ} (hk : SmallInt k)
include hk

variable {X : UInt8} (hX : X ≠ 0)
include hX

/-- The end of the braces. -/
theorem prints_emitClosing : Prints (emitClosing X k) s 0 (ch '#' :: number k ++ [ch '\x7d']) := by
  rw [emitClosing, if_neg hX, emitDisambiguator_eq hk]
  exact (prints_emit [ch '#']).bind fun _ _ =>
    (prints_emit _).bind fun _ _ => prints_emit [ch '\x7d']

omit hk

/-- The start of the braces, in front of a name of so many bytes. -/
theorem prints_emitOpening (numBytes : ℕ) : Prints (emitOpening X numBytes) s 0
    (ch '\x7b' :: label X ++ if numBytes > 0 then bytes ":" else []) := by
  rw [emitOpening, if_neg hX, label]
  by_cases hC : X = ch 'C'
  · rw [if_pos hC, if_pos hC]
    exact (prints_emit _).bind fun _ _ => prints_if
  by_cases hS : X = ch 'S'
  · rw [if_neg hC, if_neg hC, if_pos hS, if_pos hS]
    exact (prints_emit _).bind fun _ _ => prints_if
  · rw [if_neg hC, if_neg hC, if_neg hS, if_neg hS]
    exact (prints_emit [ch '\x7b']).bind fun _ _ => (prints_emit [X]).bind fun _ _ => prints_if

omit hX

/-! ## Reading -/

/-- The input from the position on is `l`. -/
structure Before (encoding : List UInt8) (pos : ℕ) (l : List UInt8) : Prop where
  le : pos ≤ encoding.length
  drop : encoding.drop pos = l

section Reading

variable {p : ℕ} {c : UInt8} {t l : List UInt8}

theorem Before.charAt (h : Before encoding p l) : charAt encoding p = some (l.headD 0) := by
  rw [← h.drop, DemangleRust.charAt, headD_eq_head?_getD, head?_drop]
  split_ifs with h1 h2
  · rw [getElem?_eq_getElem h1]
    rfl
  · rw [h2, getElem?_eq_none le_rfl]
    rfl
  · exact absurd h.le (by omega)

theorem Before.skip (h : Before encoding p (t ++ l)) : Before encoding (p + t.length) l := by
  have hlength := congrArg length h.drop
  have hle := h.le
  rw [length_drop, length_append] at hlength
  refine ⟨by omega, ?_⟩
  rw [← drop_drop, h.drop, drop_left]

theorem Before.next (h : Before encoding p (c :: l)) : Before encoding (p + 1) l :=
  Before.skip (t := [c]) h

end Reading

variable (hlen : encoding.length + 1 < 2 ^ 31)
include hlen

section Reading

variable {c : UInt8} {l rest : List UInt8} {want : Char}

theorem Before.take (h : Before encoding s.pos (c :: l)) :
    take encoding s = .ok c { s with pos := s.pos + 1 } :=
  (bind_ok (peek_ok h.charAt)).trans (bind_ok (advance_ok (by have := h.le; omega)))

/-- A letter is taken if it is the next one. -/
theorem Before.eat (h : Before encoding s.pos l) : eat encoding want s =
    if l.headD 0 = ch want then .ok true { s with pos := s.pos + 1 } else .ok false s := by
  refine (bind_ok (peek_ok h.charAt)).trans ?_
  split_ifs
  · exact bind_ok (advance_ok (by have := h.le; omega))
  · rfl

end Reading

/-! ## Raw names -/

/-- The bytes of a name are printed. -/
theorem prints_emitBytes {rest : List UInt8} : ∀ n (s : State), Before encoding s.pos (n ++ rest) →
    (∀ c ∈ n, isIdentifierChar c = true ∨ c &&& 0x80 ≠ 0) →
    Prints (emitBytes encoding n.length) s n.length n
  | [], _, _, _ => prints_pure
  | c :: n, s, hn, hname => by
    intro hs hroom
    obtain ⟨s', h', hp⟩ := (prints_emit (s := { s with pos := s.pos + 1 }) [c]).bind
      (fun s' hs' => prints_emitBytes n s' (by rw [hs']; exact hn.next)
        fun c' h' => hname c' (mem_cons_of_mem _ h')) hs hroom
    refine ⟨s', ?_, hp.printed, ?_, hp.outPos, hp.length, hp.silence⟩
    · rw [length_cons, emitBytes, bind_ok (hn.take hlen), if_neg]
      · exact h'
      · rcases hname c mem_cons_self with h | h <;> simp [h]
    · rw [hp.pos, length_cons, Nat.zero_add, Nat.add_comm n.length, ← Nat.add_assoc]

omit hlen

/-! ## Encoded identifiers -/

/-- The digit of a base-62 number. -/
def base62Char (d : Fin 62) : UInt8 :=
  UInt8.ofNat (if d.val < 10 then 48 + d else if d.val < 36 then 87 + d else 29 + d)

/-- An identifier as it stands in a symbol : the digits of its disambiguator if it has one, whether
the name is punycoded, whether an underscore comes before the name, and the bytes of the name. -/
structure Identifier where
  disambiguator : Option (List (Fin 62))
  punycoded : Bool
  separated : Bool
  name : List UInt8

namespace Identifier

variable (I : Identifier)

/-- The text of the disambiguator. -/
def disambiguatorText : List UInt8 :=
  match I.disambiguator with
  | none => []
  | some ds => ch 's' :: (ds.map base62Char ++ [ch '_'])

/-- The value of the disambiguator : 0 for none, 1 for no digits, and else 2 more than the number
that they are, unless that is too large for `int`. -/
def value : Option ℕ :=
  match I.disambiguator with
  | none => some 0
  | some [] => some 1
  | some ds =>
    if readDigits 62 0 (ds.map Fin.val) + 2 < 2 ^ 31 then
      some (readDigits 62 0 (ds.map Fin.val) + 2)
    else none

/-- The text of the name, with its length in decimal. -/
def nameText : List UInt8 :=
  (if I.punycoded then [ch 'u'] else []) ++ (text (numeral 10 I.name.length) ++
    ((if I.separated then [ch '_'] else []) ++ I.name))

/-- How an identifier is written. -/
def text : List UInt8 := I.disambiguatorText ++ I.nameText

/-- A disambiguator of at most 16 digits, and an underscore before a name that starts like one or
like a digit. -/
def WellFormed : Prop :=
  (∀ ds, I.disambiguator = some ds → ds.length ≤ 16) ∧
    (I.separated = false → ∀ c ∈ I.name.head?, isDigit c = false ∧ c ≠ ch '_')

/-- The name is `n`, as it is or in Punycode. -/
def Named (n : List UInt8) : Prop :=
  if I.punycoded then Accepts I.name (n.length + 1) n
  else n = I.name ∧ ∀ c ∈ n, isIdentifierChar c = true ∨ c &&& 0x80 ≠ 0

end Identifier

/-! ## Disambiguators -/

theorem digitByte_spec : ∀ d < 10, isDigit (digitByte d) = true ∧ (digitByte d).toNat - 48 = d ∧
    digitByte d ≠ ch 's' ∧ digitByte d ≠ ch 'u' := by
  decide

theorem base62Char_spec : ∀ d : Fin 62, (isAlpha (base62Char d) || isDigit (base62Char d)) = true ∧
    base62Digit (base62Char d) = d ∧ base62Char d ≠ ch '_' := by
  decide

/-- A length starts with a digit. -/
theorem text_numeral_cons (m : ℕ) : ∃ d t, text (numeral 10 m) = digitByte d :: t ∧
    (digitByte d).toNat - 48 = d ∧ digitByte d ≠ ch 's' ∧ digitByte d ≠ ch 'u' := by
  obtain ⟨d, ds, hnum⟩ := exists_cons_of_ne_nil (numeral_ne_nil 10 m)
  have hd : d < 10 := numeral_lt (by decide) (by rw [hnum]; exact mem_cons_self)
  exact ⟨d, text ds, by rw [hnum]; rfl, (digitByte_spec d hd).2⟩

/-- What the loop of `ParseBase62Number` holds after digits of the value `v`. -/
def Accumulated (v encodedNumber : ℕ) (overflowed : Bool) : Prop :=
  if v + 2 < 2 ^ 31 then encodedNumber = v ∧ overflowed = false
  else (2 ^ 31 - 1) / 62 ≤ encodedNumber ∧ overflowed = true

theorem int_ok {x : ℕ} (h : x < 2 ^ 31) : int x s = .ok x s := if_pos h

section Numbers

variable (hlen : encoding.length + 1 < 2 ^ 31) {rest : List UInt8}
include hlen

theorem base62Loop_cons {d : Fin 62} {l : List UInt8} (left e : ℕ) (o : Bool)
    (h : Before encoding s.pos (base62Char d :: l)) : base62Loop encoding (left + 1) e o s =
      (if e ≥ (2 ^ 31 - 1) / 62 then base62Loop encoding left e true
        else int (62 * e + d) >>= fun e => base62Loop encoding left e o)
      { s with pos := s.pos + 1 } := by
  obtain ⟨hdigit, hvalue, -⟩ := base62Char_spec d
  rw [base62Loop]
  refine (bind_ok (peek_ok h.charAt)).trans ?_
  rw [headD_cons, if_pos hdigit, ← hvalue]
  exact bind_ok (h.take hlen)

/-- The loop reads the digits, with the overflow noted. -/
theorem base62Loop_eq : ∀ (ds : List (Fin 62)) {left v e : ℕ} {o : Bool} {s : State},
    Before encoding s.pos (ds.map base62Char ++ ch '_' :: rest) → ds.length ≤ left →
    Accumulated v e o → ∃ e' o', base62Loop encoding left e o s =
      .ok (e', o') { s with pos := s.pos + ds.length } ∧
      Accumulated (readDigits 62 v (ds.map Fin.val)) e' o'
  | [], left, v, e, o, s, h, _, ha => by
    refine ⟨e, o, ?_, ha⟩
    unfold base62Loop
    exact (bind_ok (peek_ok h.charAt)).trans rfl
  | d :: ds, 0, _, _, _, _, _, hleft, _ => absurd hleft (by simp)
  | d :: ds, left + 1, v, e, o, s, h, hleft, ha => by
    have hd := d.isLt
    have hpos : s.pos + 1 + ds.length = s.pos + (d :: ds).length := by
      rw [length_cons]
      omega
    have hleft' : ds.length ≤ left := Nat.le_of_succ_le_succ hleft
    rw [map_cons, cons_append] at h
    rw [base62Loop_cons hlen left e o h]
    unfold Accumulated at ha
    split_ifs with he
    · -- the number is not kept any more
      obtain ⟨e', o', hloop, ha'⟩ := base62Loop_eq ds (v := v * 62 + d) (o := true)
        (s := { s with pos := s.pos + 1 }) h.next hleft' (by
          rw [Accumulated, if_neg]
          · exact ⟨he, rfl⟩
          · split_ifs at ha <;> omega)
      exact ⟨e', o', by rw [hloop, ← hpos], ha'⟩
    · rw [if_pos (by by_contra hv; rw [if_neg hv] at ha; exact he ha.1)] at ha
      obtain ⟨rfl, rfl⟩ := ha
      obtain ⟨e', o', hloop, ha'⟩ := base62Loop_eq ds (v := e * 62 + d)
        (s := { s with pos := s.pos + 1 }) h.next hleft' (by
          rw [Accumulated, if_pos (by omega)]
          exact ⟨rfl, rfl⟩)
      refine ⟨e', o', ?_, ha'⟩
      rw [bind_ok (int_ok (by omega)), mul_comm, hloop, ← hpos]

/-- A number in base 62 is one more than its digits say. -/
theorem parseBase62Number_eq {ds : List (Fin 62)} (hne : ds ≠ []) (hds : ds.length ≤ 16)
    (h : Before encoding s.pos (ds.map base62Char ++ ch '_' :: rest)) :
    parseBase62Number encoding s = .ok (if readDigits 62 0 (ds.map Fin.val) + 2 < 2 ^ 31 then
      some (readDigits 62 0 (ds.map Fin.val) + 1) else none)
      { s with pos := s.pos + (ds.length + 1) } := by
  obtain ⟨e, o, hloop, ha⟩ := base62Loop_eq hlen ds h hds (v := 0) (e := 0) (o := false)
    ⟨rfl, rfl⟩
  obtain ⟨d, ds', rfl⟩ := exists_cons_of_ne_nil hne
  have hend : Before encoding (s.pos + (d :: ds').length) (ch '_' :: rest) := by
    simpa using h.skip
  rw [parseBase62Number, ifEat_other h.charAt (base62Char_spec d).2.2]
  refine (bind_ok hloop).trans ?_
  refine (bind_ok (expect_ok hend.charAt (by have := hend.next.le; dsimp only; omega))).trans ?_
  unfold Accumulated at ha
  by_cases hv : readDigits 62 0 ((d :: ds').map Fin.val) + 2 < 2 ^ 31
  · rw [if_pos hv] at ha ⊢
    rw [ha.1, ha.2]
    exact bind_ok (int_ok (by omega))
  · rw [if_neg hv] at ha ⊢
    rw [ha.2]
    rfl

/-- The disambiguator has the value that its digits say. -/
theorem parseDisambiguator_eq {I : Identifier} (hI : I.WellFormed)
    (h : Before encoding s.pos (I.text ++ rest)) : parseDisambiguator encoding s =
      .ok I.value { s with pos := s.pos + I.disambiguatorText.length } := by
  obtain ⟨dis, punycoded, separated, name⟩ := I
  rcases dis with _ | ds
  · obtain ⟨d, t, hnum, hd⟩ := text_numeral_cons name.length
    refine ifEat_other h.charAt ?_
    cases punycoded
    · simpa [Identifier.text, Identifier.disambiguatorText, Identifier.nameText, hnum] using hd.2.1
    · exact (by decide : ch 'u' ≠ ch 's')
  have h : Before encoding s.pos (ch 's' :: (ds.map base62Char ++ ch '_' ::
      (Identifier.nameText ⟨some ds, punycoded, separated, name⟩ ++ rest))) := by
    simpa [Identifier.text, Identifier.disambiguatorText] using h
  rw [parseDisambiguator, ifEat_ok h.charAt (by have := h.next.le; omega)]
  by_cases hne : ds = []
  · subst hne
    refine (bind_ok (ifEat_ok (s := { s with pos := s.pos + 1 }) h.next.charAt
      (by have := h.next.next.le; dsimp only; omega))).trans ?_
    exact bind_ok (int_ok (by decide))
  refine (bind_ok (parseBase62Number_eq hlen (s := { s with pos := s.pos + 1 }) hne (hI.1 ds rfl)
    h.next)).trans ?_
  obtain ⟨d, ds, rfl⟩ := exists_cons_of_ne_nil hne
  rw [Identifier.value]
  have hlength : s.pos + 1 + ((d :: ds).length + 1) = s.pos + (Identifier.disambiguatorText
      ⟨some (d :: ds), punycoded, separated, name⟩).length := by
    simp [Identifier.disambiguatorText]
    omega
  dsimp only
  rw [hlength]
  split_ifs with hv
  · exact bind_ok (int_ok (by omega))
  · rfl

theorem decimalLoop_cons {d v : ℕ} {l : List UInt8} (fuel : ℕ)
    (h : Before encoding s.pos (digitByte d :: l)) (hd : d < 10) (hv : v < 214748364) :
    decimalLoop encoding (fuel + 1) v s =
      decimalLoop encoding fuel (v * 10 + d) { s with pos := s.pos + 1 } := by
  obtain ⟨hdigit, hvalue, -⟩ := digitByte_spec d hd
  rw [decimalLoop]
  refine (bind_ok (peek_ok h.charAt)).trans ?_
  rw [headD_cons, hdigit, if_pos (by simpa using hv)]
  refine (bind_ok (h.take hlen)).trans ?_
  rw [hvalue, mul_comm 10]
  exact bind_ok (int_ok (by omega))

/-- The loop reads the digits. -/
theorem decimalLoop_eq : ∀ {ds : List ℕ} {fuel v : ℕ} {s : State},
    Before encoding s.pos (text ds ++ rest) → (∀ d ∈ ds, d < 10) →
    isDigit (rest.headD 0) = false → ds.length ≤ fuel → readDigits 10 v ds < 2147483640 →
    decimalLoop encoding fuel v s = .ok (readDigits 10 v ds) { s with pos := s.pos + ds.length }
  | [], fuel, v, s, h, _, hrest, _, _ => by
    have h : Before encoding s.pos rest := h
    unfold decimalLoop
    refine (bind_ok (peek_ok h.charAt)).trans ?_
    rw [hrest]
    rfl
  | d :: ds, 0, _, _, _, _, _, hfuel, _ => absurd hfuel (by simp)
  | d :: ds, fuel + 1, v, s, h, hds, hrest, hfuel, hlt => by
    obtain ⟨hd, hds⟩ := forall_mem_cons.1 hds
    have hpos : s.pos + 1 + ds.length = s.pos + (d :: ds).length := by
      rw [length_cons]
      omega
    rw [readDigits_cons] at hlt ⊢
    have hle := le_readDigits (b := 10) (by decide) (v * 10 + d) ds
    have h : Before encoding s.pos (digitByte d :: (text ds ++ rest)) := h
    rw [decimalLoop_cons hlen fuel h hd (by omega), decimalLoop_eq h.next hds hrest
      (Nat.le_of_succ_le_succ hfuel) hlt, ← hpos]

/-- A length is read. -/
theorem parseDecimalNumber_eq {m : ℕ} (h : Before encoding s.pos (text (numeral 10 m) ++ rest))
    (hrest : m ≠ 0 → isDigit (rest.headD 0) = false) (hm : m < 2147483640) :
    parseDecimalNumber encoding s = .ok m { s with pos := s.pos + (numeral 10 m).length } := by
  obtain ⟨d, ds, hnum⟩ := exists_cons_of_ne_nil (numeral_ne_nil 10 m)
  have hall : ∀ x ∈ d :: ds, x < 10 := fun x hx => numeral_lt (by decide) (hnum ▸ hx)
  have hvalue := readDigits_numeral 10 m
  have hlength := length_numeral_le (w := 10) (by decide) (hm.trans (by decide))
  obtain ⟨hdigit, hd, -⟩ := digitByte_spec d (hall d mem_cons_self)
  rw [hnum] at h hvalue hlength ⊢
  rw [readDigits_cons, Nat.zero_mul, Nat.zero_add] at hvalue
  have h : Before encoding s.pos (digitByte d :: (text ds ++ rest)) := h
  unfold parseDecimalNumber
  refine (bind_ok (peek_ok h.charAt)).trans ?_
  rw [headD_cons, if_pos hdigit]
  refine (bind_ok (h.take hlen)).trans ?_
  rw [hd]
  split_ifs with hzero
  · -- only zero starts with a zero
    obtain rfl : m = 0 := by
      by_contra hne
      obtain ⟨d', ds', hnum', hd'⟩ := head_numeral 10 hne
      exact hd' ((cons.inj (hnum'.symm.trans hnum)).1.trans hzero)
    obtain rfl : ds = [] := (cons.inj hnum).2.symm
    rfl
  · have hle := le_readDigits (b := 10) (by decide) d ds
    have hrest := hrest (by omega)
    have hend : Before encoding (s.pos + 1 + ds.length) rest := by simpa using h.next.skip
    refine (bind_ok (decimalLoop_eq hlen (s := { s with pos := s.pos + 1 }) h.next
      (forall_mem_cons.1 hall).2 hrest (show ds.length ≤ 9 from Nat.le_of_succ_le_succ hlength)
      (hvalue ▸ hm))).trans ?_
    refine (bind_ok (peek_ok hend.charAt)).trans ?_
    rw [if_neg (by simpa using hrest), hvalue, length_cons, Nat.add_comm ds.length, ← Nat.add_assoc]
    rfl

/-- The underscore before the name is taken, or one behind an empty name. -/
theorem eat_separator {name : List UInt8} {separated : Bool} {p : ℕ}
    (hname : separated = false → ∀ c ∈ name.head?, isDigit c = false ∧ c ≠ ch '_')
    (hp : Before encoding p ((if separated then [ch '_'] else []) ++ (name ++ rest))) :
    ∃ p' rest' b, eat encoding '_' { s with pos := p } = .ok b { s with pos := p' } ∧
      Before encoding p' (name ++ rest') := by
  rw [Before.eat (s := { s with pos := p }) hlen hp]
  cases separated with
  | true => exact ⟨_, rest, true, if_pos rfl, hp.next⟩
  | false =>
    by_cases hc : (name ++ rest).headD 0 = ch '_'
    · -- only an empty name lets the parser take an underscore that comes after it
      cases name with
      | cons c t => exact absurd hc (hname rfl c rfl).2
      | nil =>
        obtain ⟨c, t, rfl⟩ := exists_cons_of_ne_nil (l := rest) (by rintro rfl; cases hc)
        exact ⟨_, t, true, if_pos hc, hp.next⟩
    · exact ⟨_, rest, false, if_neg hc, hp⟩

/-- The parser comes to the bytes of the name. -/
theorem parseUndisambiguatedIdentifier_eq {I : Identifier} (hI : I.WellFormed) (X : UInt8)
    (k : Option ℕ) (hm : I.name.length < 2147483640)
    (h : Before encoding s.pos (I.nameText ++ rest)) : ∃ p rest',
      Before encoding p (I.name ++ rest') ∧ parseUndisambiguatedIdentifier encoding X k s = (do
        if I.punycoded then parsePunycode encoding I.name.length else pure ()
        emitOpening X I.name.length
        if I.punycoded then pure () else emitBytes encoding I.name.length
        emitClosing X k : Parser Unit) { s with pos := p } := by
  obtain ⟨dis, punycoded, separated, name⟩ := I
  obtain ⟨d, t, hnum, -, -, hd⟩ := text_numeral_cons name.length
  obtain ⟨p, hu, hp⟩ : ∃ p, eat encoding 'u' s = .ok punycoded { s with pos := p } ∧
      Before encoding p (text (numeral 10 name.length) ++
        ((if separated then [ch '_'] else []) ++ (name ++ rest))) := by
    cases punycoded
    · have h : Before encoding s.pos (text (numeral 10 name.length) ++
        ((if separated then [ch '_'] else []) ++ (name ++ rest))) := by
          simpa [Identifier.nameText] using h
      refine ⟨s.pos, ?_, h⟩
      rw [h.eat hlen, if_neg (by rw [hnum]; exact hd)]
    · have h : Before encoding s.pos (ch 'u' :: (text (numeral 10 name.length) ++
        ((if separated then [ch '_'] else []) ++ (name ++ rest)))) := by
          simpa [Identifier.nameText] using h
      refine ⟨s.pos + 1, ?_, h.next⟩
      exact (h.eat hlen).trans (if_pos rfl)
  -- what comes behind the length is no digit of it
  have hrest : name.length ≠ 0 →
      isDigit (((if separated then [ch '_'] else []) ++ (name ++ rest)).headD 0) = false := by
    intro hne
    cases separated
    · obtain ⟨c, t, rfl⟩ := exists_cons_of_ne_nil (length_pos_iff.1 (Nat.pos_of_ne_zero hne))
      exact (hI.2 rfl c rfl).1
    · exact (by decide : isDigit (ch '_') = false)
  have hdecimal := parseDecimalNumber_eq hlen (s := { s with pos := p }) hp hrest hm
  have hp : Before encoding (p + (numeral 10 name.length).length)
      ((if separated then [ch '_'] else []) ++ (name ++ rest)) := by
    simpa [text] using hp.skip
  obtain ⟨p', rest', b, hsep, hp'⟩ := eat_separator hlen (s := s) hI.2 hp
  refine ⟨p', rest', hp', ?_⟩
  rw [parseUndisambiguatedIdentifier, bind_ok hu, bind_ok hdecimal, bind_ok hsep]

end Numbers

/-! ## Names in braces -/

theorem Identifier.smallInt_value (I : Identifier) : SmallInt I.value := by
  intro v hv
  unfold Identifier.value at hv
  split at hv
  · cases hv
    decide
  · cases hv
    decide
  · split_ifs at hv with hlt
    cases hv
    exact hlt

/-- A name is empty if its encoding is. -/
theorem Identifier.Named.length_pos_iff {I : Identifier} (h : I.Named n) :
    0 < I.name.length ↔ 0 < n.length := by
  unfold Identifier.Named at h
  split_ifs at h
  · rw [List.length_pos_iff, List.length_pos_iff]
    constructor
    · rintro hne rfl
      obtain ⟨c, hc, -⟩ := h.head hne
      cases hc
    · intro hne hnil
      have hempty : Accepts I.name 1 [] :=
        ⟨[], [], [], .inl ⟨rfl, hnil⟩, Punycode.insertions_nil .., by simp, by simp, rfl, le_rfl⟩
      exact hne (h.unique hempty)
  · rw [h.1]

variable (hlen : encoding.length + 1 < 2 ^ 31) {rest : List UInt8}
include hlen

/-- A punycoded name comes out where the output pointer is. -/
theorem prints_parsePunycode {input : List UInt8} (hn : Accepts input (n.length + 1) n)
    (h : Before encoding s.pos (input ++ rest)) :
    Prints (parsePunycode encoding input.length) s input.length n := by
  intro hs hroom
  have hle := h.skip.le
  have hinput : (encoding.drop s.pos).take input.length = input := by rw [h.drop, take_left]
  have hsize : n.length + 1 ≤ (s.out.drop s.outPos).length := by
    rw [length_drop]
    omega
  obtain ⟨out', hrun, hlength, t, rfl⟩ : ∃ out', decodeRustPunycode input (s.out.drop s.outPos) =
      .ok (n.length, out') ∧ out'.length = (s.out.drop s.outPos).length ∧ n ++ [0] <+: out' := by
    rcases decodeRustPunycode_scannable (.inr (.inl (by omega)) : Scannable input _)
      with ⟨text, out', htext, hrun⟩ | ⟨hnone, -⟩
    · obtain rfl := hn.unique htext
      exact ⟨out', hrun⟩
    · obtain ⟨pre, deltas, ins, hsplit, hins, hvalid, hcount, htext, -⟩ := hn
      exact absurd ⟨pre, deltas, ins, hsplit, hins, hvalid, hcount, htext, hsize⟩ (hnone n)
  refine ⟨{ s with
    pos := s.pos + input.length
    out := s.printed ++ (n ++ [0] ++ t)
    outPos := s.outPos + n.length }, ?_, ?_, rfl, rfl, ?_, rfl⟩
  · refine (bind_ok (if_pos h.le)).trans ?_
    rw [if_neg (by omega)]
    have hsilent : isSilent s = .ok false s := by simp [isSilent, hs]
    refine (bind_ok hsilent).trans ?_
    show emitPunycode encoding input.length s = _
    rw [emitPunycode, hinput, hrun]
    exact if_pos (hle.trans_lt (by omega))
  · show (s.printed ++ (n ++ [0] ++ t)).take (s.outPos + n.length) = _
    rw [append_assoc n, ← append_assoc]
    exact take_left' (by simp [State.printed]; omega)
  · rw [length_append, hlength, State.printed, length_take, length_drop]
    omega

/-- A raw name comes out in braces, a punycoded one in front of braces that have none. -/
theorem prints_parseIdentifier {I : Identifier} (hI : I.WellFormed) (hn : I.Named n) (hX : X ≠ 0)
    (hm : I.name.length < 2147483640) (h : Before encoding s.pos (I.text ++ rest))
    (hs : s.silenceDepth = 0) (hroom : s.outPos + (braced X n I.value).length < s.out.length) :
    ∃ s', parseIdentifier encoding X s = .ok () s' ∧ s'.printed = s.printed ++
      if I.punycoded then n ++ (ch '\x7b' :: label X ++ (if n.length > 0 then bytes ":" else []) ++
        (ch '#' :: number I.value ++ [ch '\x7d']))
      else braced X n I.value := by
  have hname : Before encoding (s.pos + I.disambiguatorText.length) (I.nameText ++ rest) := by
    rw [Identifier.text, append_assoc] at h
    exact h.skip
  obtain ⟨p, rest', hp, hrun⟩ := parseUndisambiguatedIdentifier_eq hlen hI X I.value hm
    (s := { s with pos := s.pos + I.disambiguatorText.length }) hname
  rw [parseIdentifier, bind_ok (parseDisambiguator_eq hlen hI h), hrun]
  have hopen : ∀ s', Prints (emitOpening X I.name.length) s' 0
      (ch '\x7b' :: label X ++ if n.length > 0 then bytes ":" else []) := by
    intro s'
    simpa only [gt_iff_lt, hn.length_pos_iff] using prints_emitOpening hX I.name.length
  have hclose : ∀ s', Prints (emitClosing X I.value) s' 0
      (ch '#' :: number I.value ++ [ch '\x7d']) := fun _ =>
    prints_emitClosing I.smallInt_value hX
  unfold Identifier.Named at hn
  cases hpuny : I.punycoded with
  | false =>
    rw [hpuny] at hn
    obtain ⟨rfl, hchars⟩ := hn
    obtain ⟨s', h', hp⟩ := (hopen { s with pos := p }).bind
      (fun s₁ h₁ => (prints_emitBytes hlen _ s₁ (by rw [h₁]; exact hp) hchars).bind fun s₂ _ =>
        hclose s₂) hs (by rwa [braced, append_assoc _ I.name] at hroom)
    exact ⟨s', h', hp.printed.trans (by rw [braced, append_assoc _ I.name]; rfl)⟩
  | true =>
    rw [hpuny] at hn
    obtain ⟨s', h', hp⟩ := (prints_parsePunycode hlen (s := { s with pos := p }) hn hp).bind
      (fun s₁ _ => (hopen s₁).bind fun s₂ _ => hclose s₂) hs (by
        simp [braced] at hroom ⊢
        omega)
    exact ⟨s', h', hp.printed⟩

omit hlen

/-- An identifier comes out in braces if it is raw or empty, and only then. -/
theorem parseIdentifier_braced_iff {I : Identifier} (hI : I.WellFormed) (hn : I.Named n)
    (hX : X ≠ 0) (hlen : encoding.length < 2147483640)
    (h : Before encoding s.pos (I.text ++ rest)) (hs : s.silenceDepth = 0)
    (hroom : s.outPos + (braced X n I.value).length < s.out.length) :
    (∃ s', parseIdentifier encoding X s = .ok () s' ∧
      s'.printed = s.printed ++ braced X n I.value) ↔ I.punycoded = false ∨ n = [] := by
  have hname : I.name.length < 2147483640 := by
    have := congrArg length h.drop
    simp [Identifier.text, Identifier.nameText] at this
    omega
  obtain ⟨s', h', hp⟩ := prints_parseIdentifier (by omega) hI hn hX hname h hs hroom
  constructor
  · rintro ⟨s'', h'', hp''⟩
    obtain rfl : s'' = s' := by
      rw [h'] at h''
      cases h''
      rfl
    rw [or_iff_not_imp_left, Bool.not_eq_false]
    intro hpuny
    have heq := append_cancel_left (hp''.symm.trans hp)
    rw [hpuny, if_pos rfl] at heq
    by_contra hne
    have hpos := hn.length_pos_iff.2 (length_pos_iff.2 hne)
    rw [Identifier.Named, hpuny] at hn
    obtain ⟨c, hc, hbrace⟩ := Accepts.head hn (length_pos_iff.1 hpos)
    cases n with
    | nil => exact hne rfl
    | cons c' n =>
      cases hc
      exact hbrace (cons.inj heq).1.symm
  · rintro (hraw | rfl)
    · exact ⟨s', h', by rw [hp, hraw]; rfl⟩
    · exact ⟨s', h', by simp [hp, braced]⟩

/-- The closures `foo` and `a` with the disambiguator 3, whose digit is 1 : the raw name comes out
in braces, the punycoded one does not. -/
theorem parseIdentifier_braced_iff_closure :
    (∃ s', parseIdentifier (bytes "s1_3foo") (ch 'C') ⟨0, 0, [], [], [], replicate 30 0, 0⟩ =
      .ok () s' ∧ s'.printed = [] ++ braced (ch 'C') (bytes "foo") (some 3)) ∧
    ¬ ∃ s', parseIdentifier (bytes "s1_u2a_") (ch 'C') ⟨0, 0, [], [], [], replicate 30 0, 0⟩ =
      .ok () s' ∧ s'.printed = [] ++ braced (ch 'C') (bytes "a") (some 3) := by
  constructor
  · exact (parseIdentifier_braced_iff (s := ⟨0, 0, [], [], [], replicate 30 0, 0⟩)
      (I := ⟨some [1], false, false, bytes "foo"⟩)
      ⟨by rintro _ ⟨⟩; decide, by rintro - _ ⟨⟩; decide⟩
      ⟨rfl, fun c hc => .inl (all_eq_true.1 (by rfl) c hc)⟩ (by decide) (by decide)
      (show Before _ _ (_ ++ []) from ⟨by decide, by decide⟩) rfl (by decide)).2 (.inl rfl)
  · refine fun h => absurd ((parseIdentifier_braced_iff (s := ⟨0, 0, [], [], [], replicate 30 0, 0⟩)
      (I := ⟨some [1], true, false, bytes "a_"⟩)
      ⟨by rintro _ ⟨⟩; decide, by rintro - _ ⟨⟩; decide⟩
      ⟨bytes "a", [], [], .inr ⟨by decide,
          forall_mem_singleton.2 (.inr (.inl ⟨by decide, by decide⟩)), rfl⟩,
        Punycode.insertions_nil .., by simp, by simp, rfl, le_rfl⟩ (by decide) (by decide)
      (show Before _ _ (_ ++ []) from ⟨by decide, by decide⟩) rfl (by decide)).1 h) (by decide)

/-- The closure `a`, punycoded as `a_`, is printed as `a` with the braces behind it. -/
theorem parseIdentifier_punycoded : ∃ s', parseIdentifier (bytes "u2a_") (ch 'C')
      ⟨0, 0, [], [], [], replicate 20 0, 0⟩ = .ok () s' ∧
    decodeRustPunycode (bytes "a_") (replicate 20 0) = .ok (1, bytes "a" ++ replicate 19 0) ∧
    s'.printed = bytes "a\x7bclosure:#0\x7d" ∧
    s'.printed ≠ braced (ch 'C') (bytes "a") (some 0) := by
  refine ⟨_, rfl, rfl, ?_, ?_⟩ <;> decide

end Abseil.DemangleRust
