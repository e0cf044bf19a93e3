import DatalogDafsa.Regex.Subset

/-!
# What the compiler does

`regexCompile` accepts exactly what a pattern matches when its classes are read as
`parseCharClass` reads them, and always ends.  Where that reading has the language of the
documented one the compiler is right, and for every pattern with plain classes it has.

## Main definitions

* `Agrees` — the compiler does what is documented for a pattern.
* `SameReading` — the two readings of a pattern have the same language.
* `regexCompile_spec` — the automaton of a pattern.
* `agrees_iff` — where the compiler is right.
-/

namespace DatalogDafsa.Regex

open Probe Explore

variable {pattern : List UInt8}

/-- **The automaton of a pattern** is well formed and accepts what the pattern matches, its
classes read as by the parser. -/
theorem regexCompile_spec {d : Dfa} (h : regexCompile pattern = .ok d) :
    d.WellFormed ∧ ∃ r, ReadsPattern codeClass pattern r ∧
      ∀ w, d.accepts w = true ↔ w ∈ r.lang := by
  unfold regexCompile at h
  split at h
  · cases h
  rename_i hne
  split at h
  · cases h
  rename_i n hnfa
  split at h
  · cases h
  rename_i s hres
  cases h
  obtain ⟨hin, hpos, r, hreads, hlang⟩ := regexNfa_spec hne hnfa
  obtain ⟨hexp, hdone⟩ := explore_spec (dsmFindOrAdd_spec n) (Inv.empty (by decide)) (by decide) hres
  have hclass : ∀ b : UInt8, b.toNat < (subsetMachine n).letters := fun b => b.toNat_lt
  refine ⟨wellFormed_ofTable hexp hdone hclass rfl, r, hreads, fun w => ?_⟩
  rw [accepts_ofTable hexp hdone hclass rfl (by decide), ← hlang w]
  exact subsetMachine_accepts hin hpos w

theorem regexNfa_ne_fuel : regexNfa pattern ≠ .error .fuel := by
  have hahead : ahead (.init pattern) = pattern.length := by simp [ahead, unread, RxParser.init]
  have hregex : rxRegex (4 * pattern.length + 4) (nfaAddState ⟨[]⟩ false).1 (.init pattern) ≠
      .error .fuel := rxRegex_ne_fuel (by omega)
  unfold regexNfa
  split
  · exact error_ne_fuel hregex ‹_›
  · split
    · intro h
      cases h
    · exact nfaAddEdge_ne_fuel

/-- **The compiler ends.** -/
theorem regexCompile_ne_fuel : regexCompile pattern ≠ .error .fuel := by
  unfold regexCompile
  split
  · exact nofun
  · split
    · exact error_ne_fuel regexNfa_ne_fuel ‹_›
    · split <;> exact nofun

/-! ## The documented reading -/

/-- What is documented: a pattern is refused with a message, or it is a pattern of the
grammar, and the automaton is well formed and accepts what the pattern matches. -/
def Agrees (pattern : List UInt8) : Prop :=
  match regexCompile pattern with
  | .error e => ∃ msg, e = .msg msg
  | .ok d => d.WellFormed ∧ ∃ r, ReadsPattern docClass pattern r ∧
      ∀ w, d.accepts w = true ↔ w ∈ r.lang

/-- The classes of a pattern may be read as the parser does without changing what it
matches. -/
def SameReading (pattern : List UInt8) : Prop :=
  ∃ r r', ReadsPattern codeClass pattern r ∧ ReadsPattern docClass pattern r' ∧ r.lang = r'.lang

/-- **The compiler is right** for the patterns it takes whose two readings have the same
language, and for no other pattern it takes; a pattern with plain classes is read in one
way. -/
theorem agrees_iff (pattern : List UInt8) :
    (Agrees pattern ↔ ((∃ d, regexCompile pattern = .ok d) → SameReading pattern)) ∧
      (PlainPattern pattern → Agrees pattern) := by
  have hiff : Agrees pattern ↔ ((∃ d, regexCompile pattern = .ok d) → SameReading pattern) := by
    unfold Agrees
    cases hres : regexCompile pattern with
    | error e =>
      refine ⟨fun _ ⟨d, hd⟩ => (by cases hd), fun _ => ?_⟩
      cases e with
      | fuel => exact absurd hres regexCompile_ne_fuel
      | msg text => exact ⟨text, rfl⟩
    | ok d =>
      obtain ⟨hwf, r, hreads, hlang⟩ := regexCompile_spec hres
      constructor
      · rintro ⟨-, r', hreads', hlang'⟩ -
        refine ⟨r, r', hreads, hreads', ?_⟩
        ext w
        rw [← hlang, ← hlang']
      · intro h
        obtain ⟨r₁, r', hreads₁, hreads', heq⟩ := h ⟨d, rfl⟩
        have hstable : Stable codeClass := stable_readClass _ _
        obtain rfl := hreads.unique hstable hreads₁
        exact ⟨hwf, r', hreads', fun w => heq ▸ hlang w⟩
  refine ⟨hiff, fun hplain => hiff.mpr fun ⟨d, hd⟩ => ?_⟩
  obtain ⟨-, r, hreads, -⟩ := regexCompile_spec hd
  exact ⟨r, r, hreads, hreads.doc hplain, rfl⟩

/-- Before the last dash of a class the compiler drops a byte: `[a-]` does not match
`a`. -/
theorem not_agrees_dash : ¬ Agrees "[a-]".toUTF8.toList := by
  have hbytes : "[a-]".toUTF8.toList = [91, 97, 45, 93] := by decide +kernel
  have hcode : (match regexCompile [91, 97, 45, 93] with
      | .ok d => d.accepts [97]
      | .error _ => true) = false := by decide +kernel
  -- what the documented class matches
  obtain ⟨⟨S, rest⟩, hclass, hS⟩ := Option.map_eq_some_iff.mp
    (show (docClass [op 'a', op '-', op ']']).map (fun r => (r.1 97, r.2)) = some (true, []) by
      decide)
  obtain ⟨hmatch, rfl⟩ : S 97 = true ∧ rest = [] := by simpa using hS
  have hdoc : ReadsPattern docClass [91, 97, 45, 93] (.bytes S) := by
    refine ⟨by decide, [], [op '[', op 'a', op '-', op ']'], [], ?_, .inl rfl, .inl rfl, .inl ?_⟩
    · exact @Scan.cons _ [97, 45, 93] _ _ (by decide) (@Scan.cons _ [45, 93] _ _ (by decide)
        (@Scan.cons _ [93] _ _ (by decide) (.cons (by decide) .nil)))
    · have hatom : Reads docClass .atom [op '[', op 'a', op '-', op ']'] (.bytes S) := .cls hclass
      exact .only (.last (.item hatom .once))
  rw [hbytes]
  unfold Agrees
  cases hres : regexCompile [91, 97, 45, 93] with
  | error e =>
    rw [hres] at hcode
    cases hcode
  | ok d =>
    rw [hres] at hcode
    rintro ⟨-, r, hreads, hlang⟩
    obtain rfl := hreads.unique (stable_readClass _ _) hdoc
    have hno : d.accepts [97] = false := hcode
    have hyes : d.accepts [97] = true := (hlang [97]).mpr ⟨97, hmatch, rfl⟩
    exact Bool.false_ne_true (hno.symm.trans hyes)

end DatalogDafsa.Regex
