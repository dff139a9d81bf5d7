import Abseil.FnMatch
import Abseil.ParseInt

/-!
# `--vmodule` and its pruning

`VLogLevel` goes through the list of patterns and takes the level of the first one that matches
the file. A pattern is dropped from the list when a pattern in front of it matches its text, which
stands in for "matches every file it matches".

`Reference` keeps every pattern. Reading the two lists gives the same levels as long as each new
pattern that matches the text of an entry behind it matches all files of that entry, and for all
calls with patterns of a set exactly if that holds in the set (`vlogLevel_eq_reference_iff`). It
fails for a pattern without a slash that matches the text of one with a slash, because the first is
matched against the base name and the second against the path, and for a `?` that matches a `*`.
-/

namespace Abseil.VLogConfig

open List Option FnMatch

/-! ## File names -/

/-- `ModuleIsPath`. -/
def moduleIsPath (modulePattern : List UInt8) : Bool := modulePattern.contains 47

/-- `Basename`. -/
def basename (file : List UInt8) : List UInt8 := file.rtakeWhile (· ≠ 47)

/-- The suffix `-inl`. -/
def inlSuffix : List UInt8 := [45, 105, 110, 108]

/-- `stem` and `stem_basename` of `VLogLevel`. -/
def stems (file : List UInt8) : List UInt8 × List UInt8 :=
  let stem := file
  let stemBasename := basename stem
  let sep := stemBasename.idxOf 46
  -- `idxOf` is the length when there is no dot, and then nothing is removed
  let stem := stem.take (stem.length - (stemBasename.length - sep))
  let stemBasename := stemBasename.take sep
  if inlSuffix <:+ stemBasename then
    (stem.take (stem.length - inlSuffix.length),
      stemBasename.take (stemBasename.length - inlSuffix.length))
  else (stem, stemBasename)

/-! ## The list of patterns -/

/-- `VModuleInfo`. -/
structure VModuleInfo where
  modulePattern : List UInt8
  moduleIsPath : Bool
  vlogLevel : ℤ
  deriving DecidableEq, Repr

/-- `vmodule_info` and `global_v`. -/
structure Config where
  vmoduleInfo : List VModuleInfo
  globalV : ℤ
  deriving DecidableEq, Repr

/-- The values the two have at the start. -/
def Config.initial : Config := ⟨[], 0⟩

/-- The loop of `VLogLevel`. -/
def levelLoop (stem stemBasename : List UInt8) (currentGlobalV : ℤ) : List VModuleInfo → ℤ
  | [] => currentGlobalV
  | info :: infos =>
    if info.moduleIsPath then
      if fnMatch info.modulePattern stem then info.vlogLevel
      else levelLoop stem stemBasename currentGlobalV infos
    else if fnMatch info.modulePattern stemBasename then info.vlogLevel
    else levelLoop stem stemBasename currentGlobalV infos

/-- `VLogLevel`. -/
def vlogLevel (c : Config) (file : List UInt8) : ℤ :=
  if c.vmoduleInfo.isEmpty then c.globalV
  else levelLoop (stems file).1 (stems file).2 c.globalV c.vmoduleInfo

/-- The level of the first pattern that matches the text. -/
def textLevel (infos : List VModuleInfo) (text : List UInt8) : Option ℤ :=
  (infos.find? fun info => fnMatch info.modulePattern text).map VModuleInfo.vlogLevel

/-- `AppendVModuleLocked`. -/
def appendVModuleLocked (c : Config) (modulePattern : List UInt8) (logLevel : ℤ) : Config × ℤ :=
  match textLevel c.vmoduleInfo modulePattern with
  | some level => (c, level)
  | none =>
    ({ c with vmoduleInfo :=
        c.vmoduleInfo ++ [⟨modulePattern, moduleIsPath modulePattern, logLevel⟩] }, c.globalV)

/-- `PrependVModuleLocked`. -/
def prependVModuleLocked (c : Config) (modulePattern : List UInt8) (logLevel : ℤ) : Config × ℤ :=
  ({ c with vmoduleInfo := ⟨modulePattern, moduleIsPath modulePattern, logLevel⟩ ::
      c.vmoduleInfo.filter fun info => !fnMatch modulePattern info.modulePattern },
    (textLevel c.vmoduleInfo modulePattern).getD c.globalV)

/-! ## The calls -/

/-- One `pattern=level` of a `--vmodule` list, if it is one. -/
def globLevel (text : List UInt8) : Option (List UInt8 × ℤ) :=
  if text.contains 61 then
    let level := text.rtakeWhile (· ≠ 61)
    match safeStrtoBase .int32 (some level) 10 with
    | .ok (true, n) => some (text.take (text.length - (level.length + 1)), n)
    | _ => none
  else none

/-- `glob_levels` of `UpdateVModule`. -/
def globLevels (vmodule : List UInt8) : List (List UInt8 × ℤ) :=
  (vmodule.splitOn 44).filterMap globLevel

/-- `UpdateVModule`. -/
def updateVModule (c : Config) (vmodule : List UInt8) : Config :=
  (globLevels vmodule).foldl (fun c it => (appendVModuleLocked c it.1 it.2).1)
    { c with vmoduleInfo := [] }

/-- `UpdateGlobalVLogLevel`. -/
def updateGlobalVLogLevel (c : Config) (v : ℤ) : Config × ℤ :=
  if v = c.globalV then (c, c.globalV) else ({ c with globalV := v }, c.globalV)

/-- `PrependVModule`. -/
def prependVModule (c : Config) (modulePattern : List UInt8) (logLevel : ℤ) : Config × ℤ :=
  prependVModuleLocked c modulePattern logLevel

/-- A call that changes the levels. -/
inductive Call
  | updateVModule (vmodule : List UInt8)
  | prependVModule (modulePattern : List UInt8) (logLevel : ℤ)
  | updateGlobalVLogLevel (v : ℤ)

/-- The effect of a call. -/
def step (c : Config) : Call → Config
  | .updateVModule vmodule => updateVModule c vmodule
  | .prependVModule modulePattern logLevel => (prependVModule c modulePattern logLevel).1
  | .updateGlobalVLogLevel v => (updateGlobalVLogLevel c v).1

/-- The configuration after the calls. -/
def run (calls : List Call) : Config := calls.foldl step .initial

/-! ## The list with every pattern -/

/-- The pattern matches the file : the path if it has a slash, the base name if not. -/
def Selects (modulePattern file : List UInt8) : Prop :=
  fnMatch modulePattern
    (if moduleIsPath modulePattern then (stems file).1 else (stems file).2) = true

instance (modulePattern file : List UInt8) : Decidable (Selects modulePattern file) := by
  unfold Selects
  infer_instance

/-- The prepended entries, the newest first, and behind them the `--vmodule` list. A new
`--vmodule` list replaces them all. -/
structure Reference where
  entries : List (List UInt8 × ℤ)
  globalV : ℤ

namespace Reference

/-- Nothing is configured. -/
def initial : Reference := ⟨[], 0⟩

/-- The effect of a call. -/
def step (r : Reference) : Call → Reference
  | .updateVModule vmodule => { r with entries := globLevels vmodule }
  | .prependVModule modulePattern logLevel =>
    { r with entries := (modulePattern, logLevel) :: r.entries }
  | .updateGlobalVLogLevel v => { r with globalV := v }

/-- What is configured after the calls. -/
def run (calls : List Call) : Reference := calls.foldl step initial

/-- The level of the first entry that matches the file, or the global one. -/
def level (r : Reference) (file : List UInt8) : ℤ :=
  match r.entries.find? fun e => Selects e.1 file with
  | some e => e.2
  | none => r.globalV

end Reference

/-! ## Reading the list -/

/-- The level of the first pattern in the list that matches the file. -/
def fileLevel (infos : List VModuleInfo) (file : List UInt8) : Option ℤ :=
  (infos.find? fun info => Selects info.modulePattern file).map VModuleInfo.vlogLevel

/-- Every entry of the list says whether its pattern is a path. -/
def Marked (infos : List VModuleInfo) : Prop :=
  ∀ info ∈ infos, info.moduleIsPath = moduleIsPath info.modulePattern

theorem levelLoop_eq (file : List UInt8) (v : ℤ) : ∀ infos, Marked infos →
      levelLoop (stems file).1 (stems file).2 v infos = (fileLevel infos file).getD v
  | [], _ => rfl
  | info :: infos, h => by
    have ih := levelLoop_eq file v infos fun i hi => h i (mem_cons_of_mem info hi)
    have hinfo := h info mem_cons_self
    have hsel : Selects info.modulePattern file ↔ fnMatch info.modulePattern
        (if info.moduleIsPath then (stems file).1 else (stems file).2) = true := by
      rw [hinfo]
      rfl
    rw [levelLoop, fileLevel, find?_cons, ih]
    cases hpath : info.moduleIsPath <;>
      cases hm : fnMatch info.modulePattern
        (if info.moduleIsPath then (stems file).1 else (stems file).2) <;>
      simp_all [fileLevel]

theorem vlogLevel_eq {c : Config} (h : Marked c.vmoduleInfo) (file : List UInt8) :
    vlogLevel c file = (fileLevel c.vmoduleInfo file).getD c.globalV := by
  unfold vlogLevel
  split
  · rename_i he
    rw [isEmpty_iff.1 he]
    rfl
  · exact levelLoop_eq file c.globalV c.vmoduleInfo h

/-- An entry that does not match the file can go. -/
theorem fileLevel_filter {file : List UInt8} {keep : VModuleInfo → Bool} :
    ∀ {infos : List VModuleInfo},
      (∀ info ∈ infos, keep info = false → ¬Selects info.modulePattern file) →
      fileLevel (infos.filter keep) file = fileLevel infos file
  | [], _ => rfl
  | info :: infos, h => by
    have ih := fileLevel_filter fun i hi => h i (mem_cons_of_mem info hi)
    unfold fileLevel at ih ⊢
    rw [find?_cons]
    cases hk : keep info with
    | true =>
      rw [filter_cons_of_pos hk, find?_cons]
      split
      · rfl
      · exact ih
    | false =>
      have hn := h info mem_cons_self hk
      rwa [filter_cons_of_neg (by simp [hk]), decide_eq_false hn]

/-- The first of the configured entries that matches. -/
def entryLevel (entries : List (List UInt8 × ℤ)) (file : List UInt8) : Option ℤ :=
  (entries.find? fun e => Selects e.1 file).map Prod.snd

theorem Reference.level_eq (r : Reference) (file : List UInt8) :
    r.level file = (entryLevel r.entries file).getD r.globalV := by
  unfold Reference.level entryLevel
  cases r.entries.find? fun e => Selects e.1 file <;> rfl

/-! ## Pruning is invisible where text stands in for files -/

section Pruning

variable {c : Config} {r : Reference} {infos : List VModuleInfo} {entries : List (List UInt8 × ℤ)}
  {p : List UInt8} {l : ℤ}

/-- If `p` matches the text of `q`, it matches all its files. -/
def Covers (p q : List UInt8) : Prop :=
  fnMatch p q = true → ∀ file, Selects q file → Selects p file

/-- The list gives every file the level the entries give it. -/
structure Agrees (infos : List VModuleInfo) (entries : List (List UInt8 × ℤ)) : Prop where
  marked : Marked infos
  mem : ∀ info ∈ infos, ∃ e ∈ entries, e.1 = info.modulePattern
  level : ∀ file, fileLevel infos file = entryLevel entries file

theorem Agrees.nil : Agrees [] [] :=
  ⟨nofun, nofun, fun _ => rfl⟩

/-- A prepended pattern hides what it drops. -/
theorem Agrees.prepend (h : Agrees c.vmoduleInfo entries)
    (hp : ∀ info ∈ c.vmoduleInfo, Covers p info.modulePattern) :
    Agrees (prependVModuleLocked c p l).1.vmoduleInfo ((p, l) :: entries) := by
  have hmem : ∀ info ∈ (prependVModuleLocked c p l).1.vmoduleInfo,
      info = ⟨p, moduleIsPath p, l⟩ ∨ info ∈ c.vmoduleInfo := by
    intro info hi
    exact (mem_cons.1 hi).imp_right fun hi => (mem_filter.1 hi).1
  refine ⟨fun info hi => ?_, fun info hi => ?_, fun file => ?_⟩
  · rcases hmem info hi with rfl | hi
    · rfl
    · exact h.marked info hi
  · rcases hmem info hi with rfl | hi
    · exact ⟨_, mem_cons_self, rfl⟩
    · obtain ⟨e, he, heq⟩ := h.mem info hi
      exact ⟨e, mem_cons_of_mem _ he, heq⟩
  have hlevel := h.level file
  unfold fileLevel entryLevel at hlevel ⊢
  rw [prependVModuleLocked, find?_cons, find?_cons]
  by_cases hsel : Selects p file
  · simp only [hsel, decide_true, map_some]
  · simp only [hsel, decide_false]
    rw [← hlevel]
    refine fileLevel_filter fun info hi hkeep hs => hsel ?_
    exact hp info hi (by simpa using hkeep) file hs

/-- An appended pattern that is dropped comes behind one that hides it. -/
theorem Agrees.append (h : Agrees c.vmoduleInfo entries) (hp : ∀ e ∈ entries, Covers e.1 p) :
    Agrees (appendVModuleLocked c p l).1.vmoduleInfo (entries ++ [(p, l)]) := by
  have hentry : ∀ file, entryLevel (entries ++ [(p, l)]) file =
      (entryLevel entries file).or (if Selects p file then some l else none) := by
    intro file
    unfold entryLevel
    rw [find?_append, map_or, find?_singleton]
    by_cases hsel : Selects p file <;> simp [hsel]
  have hmem : ∀ info ∈ c.vmoduleInfo, ∃ e ∈ entries ++ [(p, l)], e.1 = info.modulePattern := by
    intro info hi
    obtain ⟨e, he, heq⟩ := h.mem info hi
    exact ⟨e, mem_append_left _ he, heq⟩
  unfold appendVModuleLocked
  cases ht : textLevel c.vmoduleInfo p with
  | some level =>
    refine ⟨h.marked, hmem, fun file => ?_⟩
    rw [hentry, ← h.level]
    -- the pattern that matches the text of `p` matches the file if `p` does
    obtain ⟨info, hfind, -⟩ := map_eq_some_iff.1 ht
    have hi := mem_of_find?_eq_some hfind
    have htext : fnMatch info.modulePattern p = true := by simpa using find?_some hfind
    by_cases hsel : Selects p file
    · obtain ⟨e, he, heq⟩ := h.mem info hi
      have hinfo := heq ▸ hp e he (heq ▸ htext) file hsel
      have hfound : (c.vmoduleInfo.find? fun i => Selects i.modulePattern file).isSome = true :=
        find?_isSome.2 ⟨info, hi, decide_eq_true hinfo⟩
      obtain ⟨i, hsome⟩ := isSome_iff_exists.1 hfound
      simp [fileLevel, hsome]
    · rw [if_neg hsel, or_none]
  | none =>
    refine ⟨forall_mem_append.2 ⟨h.marked, forall_mem_singleton.2 ?_⟩,
      forall_mem_append.2 ⟨hmem, forall_mem_singleton.2 ?_⟩, fun file => ?_⟩
    · rfl
    · exact ⟨_, mem_append_right _ (mem_singleton_self _), rfl⟩
    · rw [hentry, ← h.level]
      unfold fileLevel
      rw [find?_append, map_or, find?_singleton]
      by_cases hsel : Selects p file <;> simp [hsel]

theorem appendVModuleLocked_globalV : (appendVModuleLocked c p l).1.globalV = c.globalV := by
  unfold appendVModuleLocked
  split <;> rfl

/-- The loop of `UpdateVModule`. -/
theorem Agrees.appends : ∀ new c entries,
    (entries ++ new).Pairwise (fun e e' => Covers e.1 e'.1) → Agrees c.vmoduleInfo entries →
      Agrees (new.foldl (fun c it => (appendVModuleLocked c it.1 it.2).1) c).vmoduleInfo
        (entries ++ new) ∧
      (new.foldl (fun c it => (appendVModuleLocked c it.1 it.2).1) c).globalV = c.globalV
  | [], c, entries, _, h => by
    rw [append_nil]
    exact ⟨h, rfl⟩
  | e :: new, c, entries, hnew, h => by
    have hhead := h.append (l := e.2) fun e' he' =>
      (pairwise_append.1 hnew).2.2 e' he' e mem_cons_self
    rw [← singleton_append, ← append_assoc] at hnew ⊢
    obtain ⟨hrest, hv⟩ := Agrees.appends new _ _ hnew hhead
    exact ⟨hrest, hv.trans appendVModuleLocked_globalV⟩

/-- A pattern that the call puts in front of an entry covers it. -/
def Call.Harmless (c : Config) : Call → Prop
  | .updateVModule vmodule => (globLevels vmodule).Pairwise fun e e' => Covers e.1 e'.1
  | .prependVModule modulePattern _ =>
    ∀ info ∈ c.vmoduleInfo, Covers modulePattern info.modulePattern
  | .updateGlobalVLogLevel _ => True

/-- Each of the calls is harmless where it is made. -/
def Harmless : Config → List Call → Prop
  | _, [] => True
  | c, call :: calls => call.Harmless c ∧ Harmless (step c call) calls

/-- The configuration stands for what the reference has. -/
structure Refines (c : Config) (r : Reference) : Prop where
  agrees : Agrees c.vmoduleInfo r.entries
  globalV : c.globalV = r.globalV

theorem Refines.step (h : Refines c r) {call : Call} (hcall : call.Harmless c) :
    Refines (step c call) (r.step call) := by
  cases call with
  | updateVModule vmodule =>
    obtain ⟨hagrees, hv⟩ := Agrees.appends (globLevels vmodule) { c with vmoduleInfo := [] } []
      hcall Agrees.nil
    exact ⟨hagrees, hv.trans h.globalV⟩
  | prependVModule modulePattern logLevel => exact ⟨h.agrees.prepend hcall, h.globalV⟩
  | updateGlobalVLogLevel v =>
    rw [VLogConfig.step, updateGlobalVLogLevel]
    split_ifs with hv
    · exact ⟨h.agrees, hv.symm⟩
    · exact ⟨h.agrees, rfl⟩

theorem Refines.foldl : ∀ (calls : List Call) c r, Harmless c calls → Refines c r →
    Refines (calls.foldl VLogConfig.step c) (calls.foldl Reference.step r)
  | [], _, _, _, h => h
  | _ :: calls, _, _, hcalls, h => Refines.foldl calls _ _ hcalls.2 (h.step hcalls.1)

theorem Refines.level (h : Refines c r) (file : List UInt8) : vlogLevel c file = r.level file := by
  rw [Reference.level_eq, vlogLevel_eq h.agrees.marked]
  exact congrArg₂ Option.getD (h.agrees.level file) h.globalV

/-- The patterns a call brings. -/
def Call.patterns : Call → List (List UInt8)
  | .updateVModule vmodule => (globLevels vmodule).map Prod.fst
  | .prependVModule modulePattern _ => [modulePattern]
  | .updateGlobalVLogLevel _ => []

variable {S : Set (List UInt8)}

theorem Reference.step_mem (hr : ∀ e ∈ r.entries, e.1 ∈ S) {call : Call}
    (hcall : ∀ p ∈ call.patterns, p ∈ S) : ∀ e ∈ (r.step call).entries, e.1 ∈ S := by
  cases call with
  | updateVModule vmodule => exact fun e he => hcall e.1 (mem_map_of_mem he)
  | prependVModule modulePattern logLevel =>
    exact forall_mem_cons.2 ⟨hcall _ (mem_singleton_self _), hr⟩
  | updateGlobalVLogLevel v => exact hr

/-- Calls with patterns that cover one another are harmless. -/
theorem Refines.harmless (hS : ∀ p ∈ S, ∀ q ∈ S, Covers p q) : ∀ (calls : List Call) {c r},
    Refines c r → (∀ e ∈ r.entries, e.1 ∈ S) →
      (∀ call ∈ calls, ∀ p ∈ call.patterns, p ∈ S) → Harmless c calls
  | [], _, _, _, _, _ => trivial
  | call :: calls, c, r, h, hr, hcalls => by
    obtain ⟨hcall, hcalls⟩ := forall_mem_cons.1 hcalls
    have hharmless : call.Harmless c := by
      cases call with
      | updateVModule vmodule =>
        exact pairwise_of_forall_mem_list fun e he e' he' =>
          hS _ (hcall _ (mem_map_of_mem he)) _ (hcall _ (mem_map_of_mem he'))
      | prependVModule modulePattern logLevel =>
        intro info hi
        obtain ⟨e, he, heq⟩ := h.agrees.mem info hi
        exact hS _ (hcall _ (mem_singleton_self _)) _ (heq ▸ hr e he)
      | updateGlobalVLogLevel v => trivial
    exact ⟨hharmless,
      Refines.harmless hS calls (h.step hharmless) (Reference.step_mem hr hcall) hcalls⟩

theorem refines_initial : Refines .initial .initial := ⟨Agrees.nil, rfl⟩

end Pruning

/-! ## And nowhere else -/

/-- A pattern `p` with its level put in front of `q` hides `q` from the files of `q` that `p`
does not match. -/
theorem vlogLevel_hidden {p q file : List UInt8} (hpq : fnMatch p q = true)
    (hp : ¬Selects p file) (hq : Selects q file) :
    vlogLevel (run [.prependVModule q 2, .prependVModule p 1]) file = 0 ∧
      (Reference.run [.prependVModule q 2, .prependVModule p 1]).level file = 2 := by
  have hrun : run [.prependVModule q 2, .prependVModule p 1] =
      ⟨[⟨p, moduleIsPath p, 1⟩], 0⟩ := by
    simp [run, step, prependVModule, prependVModuleLocked, Config.initial, hpq]
  have hmarked : Marked [⟨p, moduleIsPath p, 1⟩] := by
    intro info hi
    rw [mem_singleton.1 hi]
  constructor
  · rw [hrun, vlogLevel_eq hmarked, fileLevel, find?_singleton]
    simp [hp]
  · simp [Reference.run, Reference.step, Reference.initial, Reference.level, hp, hq]

/-- The levels are those of the list with every pattern after calls each of which is harmless where
it is made. For all calls with patterns of a set they are exactly if in the set a pattern that
matches the text of another one matches all its files. -/
theorem vlogLevel_eq_reference_iff (S : Set (List UInt8)) :
    (∀ calls : List Call, Harmless .initial calls →
      ∀ file, vlogLevel (run calls) file = (Reference.run calls).level file) ∧
    ((∀ calls : List Call, (∀ call ∈ calls, ∀ p ∈ call.patterns, p ∈ S) →
        ∀ file, vlogLevel (run calls) file = (Reference.run calls).level file) ↔
      ∀ p ∈ S, ∀ q ∈ S, fnMatch p q = true → ∀ file, Selects q file → Selects p file) := by
  have hlevel : ∀ calls : List Call, Harmless .initial calls →
      ∀ file, vlogLevel (run calls) file = (Reference.run calls).level file :=
    fun calls hcalls => (Refines.foldl calls _ _ hcalls refines_initial).level
  refine ⟨hlevel, fun h p hp q hq hpq file hsel => ?_, fun hS calls hcalls => ?_⟩
  · by_contra hn
    obtain ⟨hcode, href⟩ := vlogLevel_hidden hpq hn hsel
    have hboth := h [.prependVModule q 2, .prependVModule p 1]
      (by simp [Call.patterns, hp, hq]) file
    rw [hcode, href] at hboth
    exact absurd hboth (by norm_num)
  · exact hlevel calls (refines_initial.harmless hS calls (forall_mem_nil _) hcalls)

/-- `f*` drops `foo/bar`, which it does not match as a file : `foo/bar.cc` gets the global
level and not the one that was set for it. -/
theorem vlogLevel_ne_reference : vlogLevel (run [.prependVModule [102, 111, 111, 47, 98, 97, 114] 2,
        .prependVModule [102, 42] 1]) [102, 111, 111, 47, 98, 97, 114, 46, 99, 99] = 0 ∧
      (Reference.run [.prependVModule [102, 111, 111, 47, 98, 97, 114] 2,
        .prependVModule [102, 42] 1]).level [102, 111, 111, 47, 98, 97, 114, 46, 99, 99] = 2 := by
  have hstem : stems [102, 111, 111, 47, 98, 97, 114, 46, 99, 99] =
      ([102, 111, 111, 47, 98, 97, 114], [98, 97, 114]) := by decide
  refine vlogLevel_hidden ?_ ?_ ?_
  · simp [fnMatch, fnMatchFrom]
  · rw [Selects, hstem]
    simp [fnMatch, fnMatchFrom, moduleIsPath]
  · rw [Selects, hstem]
    simp [fnMatch, fnMatchFrom, moduleIsPath]

end Abseil.VLogConfig
