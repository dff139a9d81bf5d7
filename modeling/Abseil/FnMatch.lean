import Mathlib.Computability.Language
import Mathlib.Data.List.TakeWhile
import Mathlib.Tactic

/-!
# `FNMatch` and the language of a pattern

`FNMatch` reads the pattern once. Behind a `*` it takes the first occurrence of the next run of
literal bytes and never comes back to it. What it accepts is in the language of the pattern
(`fnMatchFrom_sound`). The first occurrence is as good as any other if the next thing in the
pattern, apart from `?`s, is another `*` : then more is left for that `*` (`fnMatchFrom_complete`).
In every other case a later occurrence may be the right one (`fnMatchFrom_incomplete`).
-/

namespace Abseil.FnMatch

open List

/-! ## The code -/

/-- A byte of a pattern that stands for itself. -/
def isLiteral (c : UInt8) : Bool := c ≠ 42 && c ≠ 63

/-- `string_view::find`. -/
def find (sub : List UInt8) : List UInt8 → Option ℕ
  | [] => if sub = [] then some 0 else none
  | c :: str => if sub <+: c :: str then some 0 else (find sub str).map (· + 1)

/-- The loop of `FNMatch`. -/
def fnMatchFrom (inWildcardMatch : Bool) : List UInt8 → List UInt8 → Bool
  | [], str => inWildcardMatch || str.isEmpty
  | p :: pattern, [] => (p :: pattern).all (· = 42)
  | p :: pattern, c :: str =>
    if p = 42 then fnMatchFrom true pattern (c :: str)
    else if p = 63 then fnMatchFrom inWildcardMatch pattern str
    else if inWildcardMatch then
      let fixedPortion := p :: pattern.takeWhile isLiteral
      match find fixedPortion (c :: str) with
      | none => false
      | some pos => fnMatchFrom false (pattern.dropWhile isLiteral)
          ((c :: str).drop (pos + fixedPortion.length))
    else if p ≠ c then false
    else fnMatchFrom false pattern str
termination_by pattern => pattern.length
decreasing_by
  all_goals simp_wf
  exact (dropWhile_suffix _).length_le

/-- `FNMatch`. -/
def fnMatch (pattern str : List UInt8) : Bool := fnMatchFrom false pattern str

/-! ## The language of a pattern -/

/-- The strings one byte of a pattern stands for : a `*` for all, a `?` for every byte and any other
byte for itself. -/
def symbol (c : UInt8) : Language UInt8 := {s | c = 42 ∨ c = 63 ∧ s.length = 1 ∨ s = [c]}

/-- The language of a pattern. -/
def glob : List UInt8 → Language UInt8
  | [] => 1
  | c :: pattern => symbol c * glob pattern

variable {s : List UInt8}

theorem mem_glob_nil : s ∈ glob [] ↔ s = [] := Language.mem_one s

variable {p : List UInt8}

theorem mem_glob_star : s ∈ glob (42 :: p) ↔ ∃ x t, s = x ++ t ∧ t ∈ glob p := by
  constructor
  · rintro ⟨x, -, t, ht, rfl⟩
    exact ⟨x, t, rfl, ht⟩
  · rintro ⟨x, t, rfl, ht⟩
    exact ⟨x, .inl rfl, t, ht, rfl⟩

theorem mem_glob_any : s ∈ glob (63 :: p) ↔ ∃ a t, s = a :: t ∧ t ∈ glob p := by
  constructor
  · rintro ⟨x, hx, t, ht, rfl⟩
    obtain ⟨a, rfl⟩ : ∃ a, x = [a] := by
      rcases hx with h | ⟨-, h⟩ | h
      · cases h
      · exact length_eq_one_iff.1 h
      · exact ⟨63, h⟩
    exact ⟨a, t, rfl, ht⟩
  · rintro ⟨a, t, rfl, ht⟩
    exact ⟨[a], .inr (.inl ⟨rfl, rfl⟩), t, ht, rfl⟩

variable {c : UInt8}

theorem mem_glob_literal (hc : isLiteral c) : s ∈ glob (c :: p) ↔ ∃ t, s = c :: t ∧ t ∈ glob p := by
  have h : c ≠ 42 ∧ c ≠ 63 := by simpa [isLiteral] using hc
  constructor
  · rintro ⟨x, hx, t, ht, rfl⟩
    obtain rfl : x = [c] := (hx.resolve_left h.1).resolve_left fun h' => h.2 h'.1
    exact ⟨t, rfl, ht⟩
  · rintro ⟨t, rfl, ht⟩
    exact ⟨[c], .inr (.inr rfl), t, ht, rfl⟩

variable {q : List UInt8}

/-- A run of literal bytes. -/
theorem mem_glob_run : ∀ {run s : List UInt8}, (∀ c ∈ run, isLiteral c) →
    (s ∈ glob (run ++ q) ↔ ∃ t, s = run ++ t ∧ t ∈ glob q)
  | [], s, _ => by simp
  | c :: run, s, h => by
    rw [cons_append, mem_glob_literal (h c mem_cons_self)]
    constructor
    · rintro ⟨t, rfl, ht⟩
      obtain ⟨u, rfl, hu⟩ := (mem_glob_run fun d hd => h d (mem_cons_of_mem c hd)).1 ht
      exact ⟨u, rfl, hu⟩
    · rintro ⟨u, rfl, hu⟩
      exact ⟨run ++ u, rfl, (mem_glob_run fun d hd => h d (mem_cons_of_mem c hd)).2 ⟨u, rfl, hu⟩⟩

/-- A run of `?`s. -/
theorem mem_glob_anys : ∀ {j : ℕ} {s : List UInt8},
    s ∈ glob (replicate j 63 ++ q) ↔ ∃ y t, s = y ++ t ∧ y.length = j ∧ t ∈ glob q
  | 0, s => by
    constructor
    · intro h
      exact ⟨[], s, rfl, rfl, h⟩
    · rintro ⟨y, t, rfl, hy, ht⟩
      rwa [length_eq_zero_iff.1 hy]
  | j + 1, s => by
    rw [replicate_succ, cons_append, mem_glob_any]
    constructor
    · rintro ⟨a, s, rfl, hs⟩
      obtain ⟨y, t, rfl, hy, ht⟩ := mem_glob_anys.1 hs
      exact ⟨a :: y, t, rfl, by simp [hy], ht⟩
    rintro ⟨y, t, rfl, hy, ht⟩
    rcases y with _ | ⟨a, y⟩
    · cases hy
    · exact ⟨a, y ++ t, rfl, mem_glob_anys.2 ⟨y, t, rfl, by simpa using hy, ht⟩⟩

/-- A `*` takes up what stands in front. -/
theorem append_mem_glob_star (x : List UInt8) (h : s ∈ glob (42 :: p)) :
    x ++ s ∈ glob (42 :: p) := by
  obtain ⟨y, t, rfl, ht⟩ := mem_glob_star.1 h
  exact mem_glob_star.2 ⟨x ++ y, t, by simp, ht⟩

variable {j : ℕ}

/-- Also if there are `?`s in front of it. -/
theorem append_mem_glob_anys_star (x : List UInt8) (h : s ∈ glob (replicate j 63 ++ 42 :: p)) :
    x ++ s ∈ glob (replicate j 63 ++ 42 :: p) := by
  obtain ⟨y, t, rfl, hy, ht⟩ := mem_glob_anys.1 h
  refine mem_glob_anys.2 ⟨(x ++ y).take j, (x ++ y).drop j ++ t, ?_, ?_, append_mem_glob_star _ ht⟩
  · simp only [← append_assoc, take_append_drop]
  · rw [length_take, length_append]
    omega

/-- A `?` may go in front of a `*`. -/
theorem mem_glob_star_any : s ∈ glob (42 :: 63 :: p) ↔ ∃ a t, s = a :: t ∧ t ∈ glob (42 :: p) := by
  constructor
  · intro h
    obtain ⟨x, u, rfl, hu⟩ := mem_glob_star.1 h
    obtain ⟨a, t, rfl, ht⟩ := mem_glob_any.1 hu
    rcases x with _ | ⟨b, x⟩
    · exact ⟨a, t, rfl, mem_glob_star.2 ⟨[], t, rfl, ht⟩⟩
    · exact ⟨b, x ++ a :: t, rfl, mem_glob_star.2 ⟨x ++ [a], t, by simp, ht⟩⟩
  · rintro ⟨a, u, rfl, hu⟩
    obtain ⟨x, t, rfl, ht⟩ := mem_glob_star.1 hu
    rcases eq_nil_or_concat x with rfl | ⟨x, b, rfl⟩
    · exact mem_glob_star.2 ⟨[], a :: t, rfl, mem_glob_any.2 ⟨a, t, rfl, ht⟩⟩
    · exact mem_glob_star.2 ⟨a :: x, b :: t, by simp, mem_glob_any.2 ⟨b, t, rfl, ht⟩⟩

theorem mem_glob_star_star : s ∈ glob (42 :: 42 :: p) ↔ s ∈ glob (42 :: p) := by
  constructor
  · intro h
    obtain ⟨x, t, rfl, ht⟩ := mem_glob_star.1 h
    exact append_mem_glob_star x ht
  · intro h
    exact mem_glob_star.2 ⟨[], s, rfl, h⟩

theorem nil_mem_glob : ∀ {p : List UInt8}, [] ∈ glob p ↔ ∀ c ∈ p, c = 42
  | [] => by simp [mem_glob_nil]
  | c :: p => by
    rw [forall_mem_cons, ← nil_mem_glob]
    by_cases h42 : c = 42
    · subst h42
      rw [mem_glob_star]
      simp
    by_cases h63 : c = 63
    · subst h63
      rw [mem_glob_any]
      simp
    · rw [mem_glob_literal (by simp [isLiteral, h42, h63])]
      simp [h42]

/-! ## The first occurrence -/

theorem find_some {sub : List UInt8} : ∀ {str : List UInt8} {pos : ℕ}, find sub str = some pos →
    ∃ x t, str = x ++ sub ++ t ∧ x.length = pos ∧ str.drop (pos + sub.length) = t
  | [], pos, h => by
    rw [find] at h
    split_ifs at h with hsub
    obtain rfl := Option.some.inj h
    exact ⟨[], [], by simp [hsub], rfl, by simp⟩
  | c :: str, pos, h => by
    rw [find] at h
    split_ifs at h with hsub
    · obtain rfl := Option.some.inj h
      obtain ⟨t, ht⟩ := hsub
      exact ⟨[], t, ht.symm, rfl, by rw [← ht, zero_add, drop_left]⟩
    obtain ⟨pos', hpos, rfl⟩ := Option.map_eq_some_iff.1 h
    obtain ⟨x, t, rfl, rfl, hdrop⟩ := find_some hpos
    refine ⟨c :: x, t, rfl, rfl, ?_⟩
    rwa [show x.length + 1 + sub.length = x.length + sub.length + 1 by omega]

/-- No occurrence is in front of the first one. -/
theorem find_le (sub t : List UInt8) : ∀ x : List UInt8,
    ∃ pos, find sub (x ++ sub ++ t) = some pos ∧ pos ≤ x.length
  | [] => by
    refine ⟨0, ?_, le_rfl⟩
    rw [nil_append]
    rcases h : sub ++ t with _ | ⟨c, str⟩
    · rw [find, if_pos (append_eq_nil_iff.1 h).1]
    · rw [find, if_pos]
      exact ⟨t, h⟩
  | c :: x => by
    obtain ⟨pos, hpos, hle⟩ := find_le sub t x
    rw [cons_append, cons_append, find]
    split_ifs
    · exact ⟨0, rfl, Nat.zero_le _⟩
    · exact ⟨pos + 1, by rw [hpos]; rfl, by simpa using hle⟩

/-! ## What is accepted is in the language -/

theorem literal_of_mem_takeWhile : ∀ c ∈ p.takeWhile isLiteral, isLiteral c := fun _ hc =>
  mem_takeWhile_imp hc

theorem fnMatchFrom_sound (w : Bool) (pattern str : List UInt8)
    (h : fnMatchFrom w pattern str = true) : str ∈ glob (if w then 42 :: pattern else pattern) := by
  fun_induction fnMatchFrom w pattern str with
  | case1 w str =>
    cases w with
    | true => exact mem_glob_star.2 ⟨str, [], by simp, mem_glob_nil.2 rfl⟩
    | false => exact mem_glob_nil.2 (by simpa using h)
  | case2 w p pattern =>
    have hall : ∀ c ∈ p :: pattern, c = 42 := by simpa using h
    cases w with
    | true => exact mem_glob_star.2 ⟨[], [], rfl, nil_mem_glob.2 hall⟩
    | false => exact nil_mem_glob.2 hall
  | case3 w pattern c str ih =>
    cases w with
    | true => exact mem_glob_star_star.2 (ih h)
    | false => exact ih h
  | case4 w pattern c str _ ih =>
    cases w with
    | true => exact mem_glob_star_any.2 ⟨c, str, rfl, ih h⟩
    | false => exact mem_glob_any.2 ⟨c, str, rfl, ih h⟩
  | case5 p pattern c str h42 h63 fixedPortion hfind => cases h
  | case6 p pattern c str h42 h63 fixedPortion pos hfind ih =>
    obtain ⟨x, t, hstr, -, hdrop⟩ := find_some hfind
    have ht := ih h
    rw [hdrop] at ht
    rw [← takeWhile_append_dropWhile (l := pattern)]
    refine mem_glob_star.2 ⟨x, fixedPortion ++ t, by rw [hstr, append_assoc], ?_⟩
    have hrun : ∀ d ∈ fixedPortion, isLiteral d :=
      forall_mem_cons.2 ⟨by simp [isLiteral, h42, h63], literal_of_mem_takeWhile⟩
    exact (mem_glob_run hrun).2 ⟨t, rfl, ht⟩
  | case7 w p pattern c str h42 h63 hw hpc => cases h
  | case8 w p pattern c str h42 h63 hw hpc ih =>
    obtain rfl : p = c := not_not.1 hpc
    rw [if_neg hw]
    exact (mem_glob_literal (by simp [isLiteral, h42, h63])).2 ⟨str, rfl, ih h⟩

/-! ## When the first occurrence will do -/

/-- Behind the literal bytes and the `?`s that come next there is a `*`. -/
def Bounded (post : List UInt8) : Prop :=
  ((post.dropWhile isLiteral).dropWhile (· = 63)).head? = some 42

/-- Every literal byte of the pattern has a `*` behind it, with no other run of literal bytes in
between. -/
def AllBounded (pattern : List UInt8) : Prop :=
  ∀ pre c post, pattern = pre ++ c :: post → isLiteral c → Bounded post

/-- Every literal byte behind a `*` has another `*` behind it, with no other run of literal bytes in
between. -/
def Committed (pattern : List UInt8) : Prop :=
  ∀ pre c post, pattern = pre ++ c :: post → 42 ∈ pre → isLiteral c → Bounded post

theorem allBounded_cons : AllBounded (c :: p) ↔ (isLiteral c → Bounded p) ∧ AllBounded p := by
  constructor
  · intro h
    exact ⟨h [] c p rfl, fun pre d post heq => h (c :: pre) d post (by rw [heq]; rfl)⟩
  rintro ⟨hc, hp⟩ pre d post heq hd
  rcases pre with _ | ⟨a, pre⟩
  · obtain ⟨rfl, rfl⟩ := cons.inj heq
    exact hc hd
  · exact hp pre d post (cons.inj heq).2 hd

theorem committed_star : Committed (42 :: p) ↔ AllBounded p := by
  constructor
  · intro h pre c post heq hc
    exact h (42 :: pre) c post (by rw [heq]; rfl) mem_cons_self hc
  intro h pre c post heq hstar hc
  rcases pre with _ | ⟨a, pre⟩
  · cases hstar
  · exact h pre c post (cons.inj heq).2 hc

theorem committed_cons (hc : c ≠ 42) : Committed (c :: p) ↔ Committed p := by
  constructor
  · intro h pre d post heq hstar hd
    exact h (c :: pre) d post (by rw [heq]; rfl) (mem_cons_of_mem c hstar) hd
  intro h pre d post heq hstar hd
  rcases pre with _ | ⟨a, pre⟩
  · cases hstar
  · obtain ⟨rfl, htail⟩ := cons.inj heq
    exact h pre d post htail ((mem_cons.1 hstar).resolve_left (Ne.symm hc)) hd

theorem AllBounded.committed (h : AllBounded p) : Committed p :=
  fun pre c post heq _ hc => h pre c post heq hc

theorem bounded_run {run : List UInt8} (h : ∀ c ∈ run, isLiteral c) :
    Bounded (run ++ q) ↔ Bounded q := by
  rw [Bounded, Bounded, dropWhile_append_of_pos h]

theorem allBounded_run : ∀ {run : List UInt8}, (∀ c ∈ run, isLiteral c) →
    (AllBounded (run ++ q) ↔ (run ≠ [] → Bounded q) ∧ AllBounded q)
  | [], _ => by simp
  | c :: run, h => by
    have hrun : ∀ d ∈ run, isLiteral d := fun d hd => h d (mem_cons_of_mem c hd)
    rw [cons_append, allBounded_cons, allBounded_run hrun, bounded_run hrun]
    tauto

theorem allBounded_anys : ∀ {j : ℕ}, AllBounded (replicate j 63 ++ q) ↔ AllBounded q
  | 0 => by simp
  | j + 1 => by
    rw [replicate_succ, cons_append, allBounded_cons, allBounded_anys]
    simp [isLiteral]

/-- The `?`s in front of a pattern. -/
theorem exists_anys : ∀ q : List UInt8, ∃ j, q = replicate j 63 ++ q.dropWhile (· = 63)
  | [] => ⟨0, rfl⟩
  | c :: q => by
    by_cases hc : c = 63
    · obtain ⟨j, hj⟩ := exists_anys q
      refine ⟨j + 1, ?_⟩
      rw [dropWhile_cons_of_pos (by simpa using hc), replicate_succ, cons_append, ← hj, hc]
    · exact ⟨0, by rw [dropWhile_cons_of_neg (by simpa using hc)]; rfl⟩

theorem bounded_iff :
    Bounded p ↔ ∃ j rest, p.dropWhile isLiteral = replicate j 63 ++ 42 :: rest := by
  constructor
  · intro h
    obtain ⟨j, hj⟩ := exists_anys (p.dropWhile isLiteral)
    obtain ⟨rest, hrest⟩ := head?_eq_some_iff.1 h
    exact ⟨j, rest, by rw [← hrest]; exact hj⟩
  · rintro ⟨j, rest, h⟩
    rw [Bounded, h, dropWhile_append_of_pos (by simp)]
    rfl

theorem fnMatchFrom_complete (w : Bool) (pattern str : List UInt8)
    (hp : if w then AllBounded pattern else Committed pattern)
    (hs : str ∈ glob (if w then 42 :: pattern else pattern)) :
    fnMatchFrom w pattern str = true := by
  fun_induction fnMatchFrom w pattern str with
  | case1 w str =>
    cases w with
    | true => rfl
    | false => simpa using mem_glob_nil.1 hs
  | case2 w p pattern =>
    have hall : ∀ c ∈ p :: pattern, c = 42 := by
      cases w with
      | true => exact (forall_mem_cons.1 (nil_mem_glob.1 hs)).2
      | false => exact nil_mem_glob.1 hs
    simpa using hall
  | case3 w pattern c str ih =>
    cases w with
    | true => exact ih (allBounded_cons.1 hp).2 (mem_glob_star_star.1 hs)
    | false => exact ih (committed_star.1 hp) hs
  | case4 w pattern c str _ ih =>
    cases w with
    | true =>
      obtain ⟨a, t, heq, ht⟩ := mem_glob_star_any.1 hs
      obtain ⟨rfl, rfl⟩ := cons.inj heq
      exact ih (allBounded_cons.1 hp).2 ht
    | false =>
      obtain ⟨a, t, heq, ht⟩ := mem_glob_any.1 hs
      obtain ⟨rfl, rfl⟩ := cons.inj heq
      exact ih ((committed_cons (by decide)).1 hp) ht
  | case5 p pattern c str h42 h63 fixedPortion hfind =>
    rw [← takeWhile_append_dropWhile (l := pattern)] at hs
    obtain ⟨x, u, hstr, hu⟩ := mem_glob_star.1 hs
    have hrun : ∀ d ∈ fixedPortion, isLiteral d :=
      forall_mem_cons.2 ⟨by simp [isLiteral, h42, h63], literal_of_mem_takeWhile⟩
    obtain ⟨t, rfl, -⟩ := (mem_glob_run hrun).1 hu
    obtain ⟨pos, hpos, -⟩ := find_le fixedPortion t x
    rw [hstr, ← append_assoc, hpos] at hfind
    cases hfind
  | case6 p pattern c str h42 h63 fixedPortion pos hfind ih =>
    have hlit : isLiteral p := by simp [isLiteral, h42, h63]
    have hrun : ∀ d ∈ fixedPortion, isLiteral d :=
      forall_mem_cons.2 ⟨hlit, literal_of_mem_takeWhile⟩
    have hsplit : p :: pattern = fixedPortion ++ pattern.dropWhile isLiteral := by
      rw [cons_append, takeWhile_append_dropWhile]
    obtain ⟨j, rest, hj⟩ := bounded_iff.1 ((allBounded_cons.1 hp).1 hlit)
    rw [hsplit] at hp hs
    obtain ⟨x, u, hstr, hu⟩ := mem_glob_star.1 hs
    obtain ⟨t, rfl, ht⟩ := (mem_glob_run hrun).1 hu
    -- the first occurrence leaves what the right one leaves, and perhaps more
    obtain ⟨pos', hpos', hle⟩ := find_le fixedPortion t x
    rw [hstr, ← append_assoc] at hfind
    obtain rfl : pos = pos' := Option.some.inj (hfind.symm.trans hpos')
    have hrest : (c :: str).drop (pos + fixedPortion.length)
        = ((x ++ fixedPortion).drop (pos + fixedPortion.length)) ++ t := by
      rw [hstr, ← append_assoc, drop_append_of_le_length (by simpa using hle)]
    refine ih ((allBounded_run hrun).1 hp).2.committed ?_
    rw [hrest]
    rw [hj] at ht ⊢
    exact append_mem_glob_anys_star _ ht
  | case7 w p pattern c str h42 h63 hw hpc =>
    rw [if_neg hw] at hs
    obtain ⟨t, heq, -⟩ := (mem_glob_literal (by simp [isLiteral, h42, h63])).1 hs
    exact absurd (cons.inj heq).1.symm hpc
  | case8 w p pattern c str h42 h63 hw hpc ih =>
    rw [if_neg hw] at hs hp
    obtain ⟨t, heq, ht⟩ := (mem_glob_literal (by simp [isLiteral, h42, h63])).1 hs
    obtain rfl := (cons.inj heq).2
    exact ih ((committed_cons h42).1 hp) ht

/-! ## When it will not do -/

theorem exists_mem_glob : ∀ p : List UInt8, ∃ s, s ∈ glob p
  | [] => ⟨[], mem_glob_nil.2 rfl⟩
  | c :: p => by
    obtain ⟨s, hs⟩ := exists_mem_glob p
    exact ⟨[c] ++ s, Language.append_mem_mul (.inr (.inr rfl)) hs⟩

theorem fnMatchFrom_anys (w : Bool) (q s : List UInt8) : ∀ y : List UInt8,
    fnMatchFrom w (replicate y.length 63 ++ q) (y ++ s) = fnMatchFrom w q s
  | [] => rfl
  | a :: y => by
    rw [length_cons, replicate_succ, cons_append, cons_append, fnMatchFrom,
      if_neg (by decide), if_pos rfl, fnMatchFrom_anys w q s y]

/-- A string of the language is not accepted, from the pattern on or from a `*` in front of it. -/
def Missed (w : Bool) (pattern : List UInt8) : Prop :=
  ∃ str, str ≠ [] ∧ str ∈ glob (if w then 42 :: pattern else pattern) ∧
    fnMatchFrom w pattern str = false

variable {pattern : List UInt8}

section

variable (hc : isLiteral c)
include hc

/-- A run behind a `*` is found where it stands. -/
theorem fnMatchFrom_run (t : List UInt8) :
    fnMatchFrom true (c :: pattern) (c :: pattern.takeWhile isLiteral ++ t)
      = fnMatchFrom false (pattern.dropWhile isLiteral) t := by
  have h : c ≠ 42 ∧ c ≠ 63 := by simpa [isLiteral] using hc
  obtain ⟨pos, hpos, hle⟩ := find_le (c :: pattern.takeWhile isLiteral) t []
  obtain rfl : pos = 0 := Nat.le_zero.1 hle
  rw [cons_append, fnMatchFrom, if_neg h.1, if_neg h.2, if_pos rfl]
  rw [nil_append, cons_append] at hpos
  dsimp only
  rw [hpos]
  dsimp only
  rw [zero_add, ← cons_append, drop_left]

/-- What is in the language of a run behind a `*`. -/
theorem mem_glob_star_run {t : List UInt8} (x : List UInt8)
    (ht : t ∈ glob (pattern.dropWhile isLiteral)) :
    x ++ (c :: pattern.takeWhile isLiteral ++ t) ∈ glob (42 :: c :: pattern) := by
  have hsplit : c :: pattern = c :: pattern.takeWhile isLiteral ++ pattern.dropWhile isLiteral := by
    rw [cons_append, takeWhile_append_dropWhile]
  rw [hsplit]
  refine mem_glob_star.2 ⟨x, _, rfl, ?_⟩
  exact (mem_glob_run (forall_mem_cons.2 ⟨hc, literal_of_mem_takeWhile⟩)).2 ⟨t, rfl, ht⟩

/-- With nothing but `?`s behind the run, the string may end with another occurrence. -/
theorem incomplete_end (hj : pattern.dropWhile isLiteral = replicate j 63) :
    Missed true (c :: pattern) := by
  obtain ⟨str, hstr⟩ : ∃ str, str = c :: pattern.takeWhile isLiteral ++ replicate j 0 := ⟨_, rfl⟩
  refine ⟨c :: pattern.takeWhile isLiteral ++ str, by simp, ?_, ?_⟩
  · rw [hstr]
    refine mem_glob_star_run hc (c :: pattern.takeWhile isLiteral) ?_
    rw [hj, ← append_nil (replicate j 63)]
    exact mem_glob_anys.2 ⟨replicate j 0, [], by simp, length_replicate,
      mem_glob_nil.2 rfl⟩
  -- the `?`s leave some of it
  have hlong : (str.take j).length = j := by
    simp [hstr]
    omega
  have hanys := fnMatchFrom_anys false [] (str.drop j) (str.take j)
  rw [take_append_drop, append_nil, hlong] at hanys
  rw [fnMatchFrom_run hc, hj, hanys, fnMatchFrom]
  simp [hstr]

/-- With another literal byte behind the run and some `?`s, the first occurrence need not be
followed by that byte. -/
theorem incomplete_literal {d : UInt8} {post : List UInt8} (hd : isLiteral d)
    (hj : pattern.dropWhile isLiteral = replicate j 63 ++ d :: post) :
    Missed true (c :: pattern) := by
  obtain ⟨m, hm⟩ := exists_mem_glob (d :: post)
  refine ⟨c :: pattern.takeWhile isLiteral ++ (replicate j 0 ++ (d + 1) ::
    (c :: pattern.takeWhile isLiteral ++ (replicate j 0 ++ m))), by simp, ?_, ?_⟩
  · have := mem_glob_star_run hc (c :: pattern.takeWhile isLiteral ++ (replicate j 0 ++ [d + 1]))
      (by
        rw [hj]
        exact mem_glob_anys.2 ⟨replicate j 0, m, rfl, length_replicate, hm⟩)
    simpa using this
  · have hanys := fnMatchFrom_anys false (d :: post) ((d + 1) ::
      (c :: pattern.takeWhile isLiteral ++ (replicate j 0 ++ m))) (replicate j 0)
    rw [length_replicate] at hanys
    have hd' : d ≠ 42 ∧ d ≠ 63 := by simpa [isLiteral] using hd
    rw [fnMatchFrom_run hc, hj, hanys, fnMatchFrom, if_neg hd'.1, if_neg hd'.2]
    simp

/-- With a `*` behind the run, the fault is behind that `*`. -/
theorem incomplete_bounded {rest : List UInt8}
    (hj : pattern.dropWhile isLiteral = replicate j 63 ++ 42 :: rest)
    (h : Missed true rest) : Missed true (c :: pattern) := by
  obtain ⟨str, hne, hmem, hfalse⟩ := h
  refine ⟨c :: pattern.takeWhile isLiteral ++ (replicate j 0 ++ str), by simp, ?_, ?_⟩
  · refine mem_glob_star_run hc [] ?_
    rw [hj]
    exact mem_glob_anys.2 ⟨replicate j 0, str, rfl, length_replicate, hmem⟩
  obtain ⟨a, str, rfl⟩ := exists_cons_of_ne_nil hne
  have hanys := fnMatchFrom_anys false (42 :: rest) (a :: str) (replicate j 0)
  rw [length_replicate] at hanys
  rw [fnMatchFrom_run hc, hj, hanys, fnMatchFrom, if_pos rfl, hfalse]

end

/-- A pattern with a run that is bounded, and all the runs behind it. -/
theorem allBounded_of_rest {rest : List UInt8}
    (hj : pattern.dropWhile isLiteral = replicate j 63 ++ 42 :: rest) (h : AllBounded rest) :
    AllBounded (c :: pattern) := by
  have hb := bounded_iff.2 ⟨j, rest, hj⟩
  refine allBounded_cons.2 ⟨fun _ => hb, ?_⟩
  rw [← takeWhile_append_dropWhile (l := pattern), allBounded_run literal_of_mem_takeWhile]
  refine ⟨fun _ => ?_, ?_⟩
  · have hrun := bounded_run (q := pattern.dropWhile isLiteral)
      (literal_of_mem_takeWhile (p := pattern))
    rwa [← hrun, takeWhile_append_dropWhile]
  · rw [hj, allBounded_anys, allBounded_cons]
    exact ⟨by simp [isLiteral], h⟩

theorem fnMatchFrom_incomplete (w : Bool) (pattern : List UInt8)
    (hp : ¬ (if w then AllBounded pattern else Committed pattern)) : Missed w pattern := by
  induction hn : pattern.length using Nat.strong_induction_on generalizing w pattern with
  | _ n ih =>
    subst hn
    rcases pattern with _ | ⟨c, pattern⟩
    · refine absurd ?_ hp
      split_ifs <;> exact fun pre c post heq => absurd heq (by simp)
    have hrec : ∀ w, ¬ (if w then AllBounded pattern else Committed pattern) → Missed w pattern :=
      fun w h => ih _ (Nat.lt_succ_self _) w pattern h rfl
    by_cases h42 : c = 42
    · subst h42
      obtain ⟨str, hne, hmem, hfalse⟩ := hrec true (by
        cases w with
        | true => exact fun h => hp (allBounded_cons.2 ⟨by simp [isLiteral], h⟩)
        | false => exact fun h => hp (committed_star.2 h))
      obtain ⟨a, str, rfl⟩ := exists_cons_of_ne_nil hne
      refine ⟨a :: str, hne, ?_, by rw [fnMatchFrom, if_pos rfl, hfalse]⟩
      cases w with
      | true => exact mem_glob_star_star.2 hmem
      | false => exact hmem
    by_cases h63 : c = 63
    · subst h63
      obtain ⟨str, hne, hmem, hfalse⟩ := hrec w (by
        cases w with
        | true => exact fun h => hp (allBounded_cons.2 ⟨by simp [isLiteral], h⟩)
        | false => exact fun h => hp ((committed_cons (by decide)).2 h))
      refine ⟨0 :: str, by simp, ?_, ?_⟩
      · cases w with
        | true => exact mem_glob_star_any.2 ⟨0, str, rfl, hmem⟩
        | false => exact mem_glob_any.2 ⟨0, str, rfl, hmem⟩
      · rw [fnMatchFrom, if_neg h42, if_pos rfl, hfalse]
    have hc : isLiteral c := by simp [isLiteral, h42, h63]
    cases w with
    | false =>
      obtain ⟨str, hne, hmem, hfalse⟩ := hrec false fun h => hp ((committed_cons h42).2 h)
      refine ⟨c :: str, by simp, (mem_glob_literal hc).2 ⟨str, rfl, hmem⟩, ?_⟩
      rw [fnMatchFrom, if_neg h42, if_neg h63, if_neg (by simp), if_neg (by simp), hfalse]
    | true =>
      obtain ⟨j, hj⟩ := exists_anys (pattern.dropWhile isLiteral)
      rcases hr : (pattern.dropWhile isLiteral).dropWhile (· = 63) with _ | ⟨d, post⟩
      · rw [hr, append_nil] at hj
        exact incomplete_end hc hj
      rw [hr] at hj
      by_cases hd : d = 42
      · subst hd
        refine incomplete_bounded hc hj
          (ih _ ?_ true post (fun h => hp (allBounded_of_rest hj h)) rfl)
        have hle := (dropWhile_suffix isLiteral (l := pattern)).length_le
        rw [hj] at hle
        simp at hle ⊢
        omega
      · have hd63 := head?_dropWhile_not (· = 63) (pattern.dropWhile isLiteral)
        rw [hr] at hd63
        exact incomplete_literal hc (by simpa [isLiteral, hd] using hd63) hj

/-- `FNMatch` only accepts strings of the language, and it accepts them all if every run of literal
bytes behind a `*` has another `*` behind it before the next run. -/
theorem fnMatch_glob (pattern : List UInt8) :
    (∀ str, fnMatch pattern str = true → str ∈ glob pattern) ∧
      ((∀ str, fnMatch pattern str = true ↔ str ∈ glob pattern) ↔ Committed pattern) := by
  refine ⟨fun str h => fnMatchFrom_sound false pattern str h, fun h => ?_, fun h str => ?_⟩
  · by_contra hp
    obtain ⟨str, -, hmem, hfalse⟩ := fnMatchFrom_incomplete false pattern hp
    have := (h str).2 hmem
    rw [fnMatch, hfalse] at this
    cases this
  · exact ⟨fnMatchFrom_sound false pattern str, fnMatchFrom_complete false pattern str h⟩

/-- The string `bb` is in the language of `*b`. -/
theorem fnMatch_star_literal : fnMatch [42, 98] [98, 98] = false ∧ [98, 98] ∈ glob [42, 98] := by
  refine ⟨?_, mem_glob_star.2 ⟨[98], [98], rfl, ?_⟩⟩
  · simp [fnMatch, fnMatchFrom, find]
  · exact (mem_glob_literal (by decide)).2 ⟨[], rfl, mem_glob_nil.2 rfl⟩

end Abseil.FnMatch
