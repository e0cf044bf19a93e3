import Mathlib

/-!
# Fragments of an automaton

A regular expression becomes an automaton piece by piece.  A piece, a *fragment*, has
one entry and one exit; no step leads out of it and none leaves its exit.  Fragments are
put together by new steps, most of them from an exit, and the fragments themselves stay
as they are.

## Main definitions

* `Path` — a path, with the word its steps read.
* `Frag` — a fragment and its language.
* `Frag.single`, `Frag.seq`, `Frag.alt`, `Frag.wrap` — one step; one fragment after
  another; either; one that is repeated or skipped.
-/

namespace Thompson

open scoped Computability

variable {σ α : Type*}

/-- The steps of an automaton, with the words they read. -/
abbrev Steps (σ α : Type*) := σ → List α → σ → Prop

/-- A path reads the words of its steps. -/
inductive Path (E : Steps σ α) : σ → List α → σ → Prop
  /-- No step. -/
  | nil (s : σ) : Path E s [] s
  /-- One more step, in front. -/
  | cons {s t r : σ} {u v : List α} : E s u t → Path E t v r → Path E s (u ++ v) r

variable {E E' : Steps σ α}

theorem Path.append {s t r : σ} {u v : List α} (h : Path E s u t) (h' : Path E t v r) :
    Path E s (u ++ v) r := by
  induction h with
  | nil s => exact h'
  | cons hstep _ ih =>
    rw [List.append_assoc]
    exact .cons hstep (ih h')

theorem Path.single {s t : σ} {u : List α} (h : E s u t) : Path E s u t := by
  simpa using Path.cons h (.nil t)

/-- No path goes on from a state without steps. -/
theorem Path.of_final {s t : σ} {w : List α} (hfinal : ∀ u q, ¬ E s u q) (h : Path E s w t) :
    t = s ∧ w = [] := by
  cases h with
  | nil s => exact ⟨rfl, rfl⟩
  | cons hstep _ => exact absurd hstep (hfinal _ _)

/-- The last letter of a path, when a step reads at most one. -/
theorem Path.of_snoc (hshort : ∀ {p u q}, E p u q → u = [] ∨ ∃ a, u = [a]) {s t : σ}
    {w : List α} {a : α} (h : Path E s (w ++ [a]) t) :
    ∃ p r, Path E s w p ∧ E p [a] r ∧ Path E r [] t := by
  generalize hu : w ++ [a] = u at h
  induction h generalizing w with
  | nil s => simp at hu
  | @cons s t r u v hstep hrest ih =>
    rcases hshort hstep with rfl | ⟨b, rfl⟩
    · obtain ⟨p, q, hpath, hlast, hend⟩ := ih hu
      exact ⟨p, q, .cons hstep hpath, hlast, hend⟩
    · cases w with
      | nil =>
        obtain ⟨rfl, rfl⟩ : a = b ∧ [] = v := by simpa using hu
        exact ⟨s, t, .nil s, hstep, hrest⟩
      | cons c w =>
        obtain ⟨rfl, rfl⟩ : c = b ∧ w ++ [a] = v := by simpa using hu
        obtain ⟨p, q, hpath, hlast, hend⟩ := ih rfl
        exact ⟨p, q, .cons hstep hpath, hlast, hend⟩

/-! ## Fragments -/

/-- A fragment: the states `S`, the entry `s` and the exit `a`. -/
structure Frag (E : Steps σ α) (S : Set σ) (s a : σ) (L : Language α) : Prop where
  /-- The entry is inside. -/
  start : s ∈ S
  /-- So is the exit. -/
  accept : a ∈ S
  /-- No step leads out. -/
  inside : ∀ {p u q}, p ∈ S → E p u q → q ∈ S
  /-- No step leaves the exit. -/
  final : ∀ u q, ¬ E a u q
  /-- The words from the entry to the exit. -/
  lang : ∀ w, Path E s w a ↔ w ∈ L

/-- The states of `S` other than `a` have the same steps. -/
def SameOff (E E' : Steps σ α) (S : Set σ) (a : σ) : Prop :=
  ∀ p ∈ S, p ≠ a → ∀ u q, E' p u q ↔ E p u q

namespace Frag

variable {S : Set σ} {s a : σ} {L : Language α}

/-- A path of a fragment stays one when its exit gets steps. -/
theorem mono (h : Frag E S s a L) (hsame : SameOff E E' S a) {p q : σ} {w : List α} (hp : p ∈ S)
    (hpath : Path E p w q) : Path E' p w q := by
  induction hpath with
  | nil p => exact .nil p
  | cons hstep _ ih =>
    rename_i p t r u v _
    have hpa : p ≠ a := fun heq => h.final _ _ (heq ▸ hstep)
    exact .cons ((hsame p hp hpa _ _).mpr hstep) (ih (h.inside hp hstep))

/-- **A path leaves a fragment through its exit.** -/
theorem exit (h : Frag E S s a L) (hsame : SameOff E E' S a) {p t : σ} {w : List α} (hp : p ∈ S)
    (ht : t ∉ S) (hpath : Path E' p w t) :
    ∃ u v, w = u ++ v ∧ Path E p u a ∧ Path E' a v t := by
  induction hpath with
  | nil p => exact absurd hp ht
  | cons hstep hrest ih =>
    rename_i p q t u v
    by_cases hpa : p = a
    · subst hpa
      exact ⟨[], u ++ v, rfl, .nil _, .cons hstep hrest⟩
    · have hstep' := (hsame p hp hpa _ _).mp hstep
      obtain ⟨u', v', rfl, hin, hout⟩ := ih (h.inside hp hstep') ht
      exact ⟨u ++ u', v', (List.append_assoc ..).symm, .cons hstep' hin, hout⟩

/-- A path of the old steps, when nothing in the fragment changed. -/
theorem congr (h : Frag E S s a L) (hsame : ∀ p ∈ S, ∀ u q, E' p u q ↔ E p u q) :
    Frag E' S s a L where
  start := h.start
  accept := h.accept
  inside hp hstep := h.inside hp ((hsame _ hp _ _).mp hstep)
  final u q hstep := h.final u q ((hsame _ h.accept _ _).mp hstep)
  lang w := by
    rw [← h.lang w]
    constructor
    · intro hpath
      suffices hback : ∀ {p w q}, Path E' p w q → p ∈ S → Path E p w q from hback hpath h.start
      intro p w q hpath
      induction hpath with
      | nil p => exact fun _ => .nil p
      | cons hstep _ ih =>
        intro hp
        have hstep' := (hsame _ hp _ _).mp hstep
        exact .cons hstep' (ih (h.inside hp hstep'))
    · exact h.mono (fun p hp _ => hsame p hp) h.start

/-- Two states and a step between them. -/
theorem single (hne : s ≠ a) (hstart : ∀ u q, E s u q ↔ u ∈ L ∧ q = a)
    (hfinal : ∀ u q, ¬ E a u q) (hS : ∀ p, p ∈ S ↔ p = s ∨ p = a) : Frag E S s a L where
  start := (hS s).mpr (.inl rfl)
  accept := (hS a).mpr (.inr rfl)
  inside {p u q} hp hstep := by
    rcases (hS p).mp hp with rfl | rfl
    · exact (hS q).mpr (.inr ((hstart u q).mp hstep).2)
    · exact absurd hstep (hfinal u q)
  final := hfinal
  lang w := by
    constructor
    · intro hpath
      cases hpath with
      | nil => exact absurd rfl hne
      | cons hstep hrest =>
        obtain ⟨hu, rfl⟩ := (hstart _ _).mp hstep
        obtain ⟨-, rfl⟩ := hrest.of_final hfinal
        rwa [List.append_nil]
    · exact fun hw => .single ((hstart w a).mpr ⟨hw, rfl⟩)

section Two

variable {S₁ S₂ : Set σ} {s₁ a₁ s₂ a₂ : σ} {L₁ L₂ : Language α}

/-- **One fragment after another**: a silent step from exit to entry. -/
theorem seq (h₁ : Frag E S₁ s₁ a₁ L₁) (h₂ : Frag E S₂ s₂ a₂ L₂) (hdisj : Disjoint S₁ S₂)
    (hsame₁ : SameOff E E' S₁ a₁) (hsame₂ : ∀ p ∈ S₂, ∀ u q, E' p u q ↔ E p u q)
    (hlink : ∀ u q, E' a₁ u q ↔ u = [] ∧ q = s₂) (hS : ∀ p, p ∈ S ↔ p ∈ S₁ ∨ p ∈ S₂) :
    Frag E' S s₁ a₂ (L₁ * L₂) := by
  have h₂' := h₂.congr hsame₂
  refine ⟨(hS _).mpr (.inl h₁.start), (hS _).mpr (.inr h₂.accept), ?_, h₂'.final, fun w => ?_⟩
  · intro p u q hp hstep
    rcases (hS p).mp hp with hp | hp
    · by_cases hpa : p = a₁
      · subst hpa
        obtain ⟨-, rfl⟩ := (hlink u q).mp hstep
        exact (hS q).mpr (.inr h₂.start)
      · exact (hS q).mpr (.inl (h₁.inside hp ((hsame₁ p hp hpa u q).mp hstep)))
    · exact (hS q).mpr (.inr (h₂'.inside hp hstep))
  · rw [Language.mem_mul]
    constructor
    · intro hpath
      have hout : a₂ ∉ S₁ := fun hin => Set.disjoint_left.mp hdisj hin h₂.accept
      obtain ⟨u, v, rfl, hin, hrest⟩ := h₁.exit hsame₁ h₁.start hout hpath
      refine ⟨u, (h₁.lang u).mp hin, v, ?_, rfl⟩
      cases hrest with
      | nil => exact absurd h₁.accept hout
      | cons hstep hrest =>
        obtain ⟨rfl, rfl⟩ := (hlink _ _).mp hstep
        exact (h₂'.lang _).mp hrest
    · rintro ⟨u, hu, v, hv, rfl⟩
      have hfirst := h₁.mono hsame₁ h₁.start ((h₁.lang u).mpr hu)
      have hstep : E' a₁ [] s₂ := (hlink [] s₂).mpr ⟨rfl, rfl⟩
      exact hfirst.append (.cons hstep ((h₂'.lang v).mpr hv))

/-- **Either fragment**: a new entry before them, a new exit behind them. -/
theorem alt (h₁ : Frag E S₁ s₁ a₁ L₁) (h₂ : Frag E S₂ s₂ a₂ L₂) (ha₁ : a ∉ S₁) (ha₂ : a ∉ S₂)
    (hne : s ≠ a) (hsame₁ : SameOff E E' S₁ a₁) (hsame₂ : SameOff E E' S₂ a₂)
    (hstart : ∀ u q, E' s u q ↔ u = [] ∧ (q = s₁ ∨ q = s₂))
    (hlink₁ : ∀ u q, E' a₁ u q ↔ u = [] ∧ q = a) (hlink₂ : ∀ u q, E' a₂ u q ↔ u = [] ∧ q = a)
    (hfinal : ∀ u q, ¬ E' a u q) (hS : ∀ p, p ∈ S ↔ p ∈ S₁ ∨ p ∈ S₂ ∨ p = s ∨ p = a) :
    Frag E' S s a (L₁ + L₂) := by
  have haS : a ∈ S := (hS a).mpr (.inr (.inr (.inr rfl)))
  -- from an entry of the two, the new exit is reached behind the old one
  have hside : ∀ {T : Set σ} {t b : σ} {M : Language α}, Frag E T t b M → SameOff E E' T b →
      a ∉ T → (∀ u q, E' b u q ↔ u = [] ∧ q = a) → ∀ w, Path E' t w a ↔ w ∈ M := by
    intro T t b M hT hsame haT hlink w
    constructor
    · intro hpath
      obtain ⟨u, v, rfl, hin, hrest⟩ := hT.exit hsame hT.start haT hpath
      cases hrest with
      | nil => exact absurd hT.accept haT
      | cons hstep hrest =>
        obtain ⟨rfl, rfl⟩ := (hlink _ _).mp hstep
        obtain ⟨-, rfl⟩ := hrest.of_final hfinal
        simpa using (hT.lang u).mp hin
    · intro hw
      have hstep : E' b [] a := (hlink [] a).mpr ⟨rfl, rfl⟩
      simpa using (hT.mono hsame hT.start ((hT.lang w).mpr hw)).append (.single hstep)
  refine ⟨(hS s).mpr (.inr (.inr (.inl rfl))), haS, ?_, hfinal, fun w => ?_⟩
  · intro p u q hp hstep
    rcases (hS p).mp hp with hp | hp | rfl | rfl
    · by_cases hpa : p = a₁
      · subst hpa
        obtain ⟨-, rfl⟩ := (hlink₁ u q).mp hstep
        exact haS
      · exact (hS q).mpr (.inl (h₁.inside hp ((hsame₁ p hp hpa u q).mp hstep)))
    · by_cases hpa : p = a₂
      · subst hpa
        obtain ⟨-, rfl⟩ := (hlink₂ u q).mp hstep
        exact haS
      · exact (hS q).mpr (.inr (.inl (h₂.inside hp ((hsame₂ p hp hpa u q).mp hstep))))
    · rcases (hstart u q).mp hstep with ⟨-, rfl | rfl⟩
      · exact (hS _).mpr (.inl h₁.start)
      · exact (hS _).mpr (.inr (.inl h₂.start))
    · exact absurd hstep (hfinal u q)
  · rw [Language.mem_add, ← hside h₁ hsame₁ ha₁ hlink₁, ← hside h₂ hsame₂ ha₂ hlink₂]
    constructor
    · intro hpath
      cases hpath with
      | nil => exact absurd rfl hne
      | cons hstep hrest =>
        rcases (hstart _ _).mp hstep with ⟨rfl, rfl | rfl⟩
        · exact .inl hrest
        · exact .inr hrest
    · rintro (hpath | hpath)
      · exact .cons (u := []) ((hstart [] s₁).mpr ⟨rfl, .inl rfl⟩) hpath
      · exact .cons (u := []) ((hstart [] s₂).mpr ⟨rfl, .inr rfl⟩) hpath

end Two

/-! ## Repetition -/

/-- The words of a fragment that may be skipped or repeated. -/
def wrapped (skip loop : Bool) (L : Language α) : Language α :=
  (if skip then 1 else 0) + if loop then L * L∗ else L

/-- **A fragment that is skipped or repeated**: a new entry before it, a new exit behind
it, and silent steps past it and back. -/
theorem wrap {s₀ a₀ : σ} {S₀ : Set σ} {skip loop : Bool} (h : Frag E S₀ s₀ a₀ L) (ha : a ∉ S₀)
    (hne : s ≠ a) (hsame : SameOff E E' S₀ a₀)
    (hstart : ∀ u q, E' s u q ↔ u = [] ∧ (q = s₀ ∨ skip = true ∧ q = a))
    (hlink : ∀ u q, E' a₀ u q ↔ u = [] ∧ (loop = true ∧ q = s₀ ∨ q = a))
    (hfinal : ∀ u q, ¬ E' a u q) (hS : ∀ p, p ∈ S ↔ p ∈ S₀ ∨ p = s ∨ p = a) :
    Frag E' S s a (wrapped skip loop L) := by
  have haS : a ∈ S := (hS a).mpr (.inr (.inr rfl))
  -- what is read from inside the fragment to the new exit
  have hout : ∀ {p t w}, Path E' p w t → p ∈ S₀ → t = a →
      ∃ u v, w = u ++ v ∧ Path E p u a₀ ∧ if loop then v ∈ L∗ else v = [] := by
    intro p t w hpath
    induction hpath with
    | nil p => exact fun hp ht => absurd (ht ▸ hp) ha
    | cons hstep hrest ih =>
      rename_i p q t u v
      intro hp ht
      by_cases hpa : p = a₀
      · subst hpa
        obtain ⟨rfl, ⟨hloop, rfl⟩ | rfl⟩ := (hlink _ _).mp hstep
        · obtain ⟨u', v', rfl, hin, hv'⟩ := ih h.start ht
          rw [if_pos hloop] at hv'
          refine ⟨[], u' ++ v', rfl, .nil _, ?_⟩
          rw [if_pos hloop, ← Language.one_add_self_mul_kstar_eq_kstar, Language.mem_add]
          exact .inr (Language.append_mem_mul ((h.lang u').mp hin) hv')
        · obtain ⟨-, rfl⟩ := hrest.of_final hfinal
          refine ⟨[], [], rfl, .nil _, ?_⟩
          split
          · exact Language.nil_mem_kstar L
          · rfl
      · have hstep' := (hsame p hp hpa _ _).mp hstep
        obtain ⟨u', v', rfl, hin, hv'⟩ := ih (h.inside hp hstep') ht
        exact ⟨u ++ u', v', (List.append_assoc ..).symm, .cons hstep' hin, hv'⟩
  -- from the old exit, as often as it is repeated
  have hback : ∀ v, (if loop then v ∈ L∗ else v = []) → Path E' a₀ v a := by
    intro v hv
    have hdone : Path E' a₀ [] a := .single ((hlink [] a).mpr ⟨rfl, .inr rfl⟩)
    split at hv
    · rename_i hloop
      obtain ⟨ws, rfl, hws⟩ := Language.mem_kstar.mp hv
      clear hv
      induction ws with
      | nil => exact hdone
      | cons w ws ih =>
        have hround := h.mono hsame h.start ((h.lang w).mpr (hws w (List.mem_cons_self ..)))
        have hrest := ih fun w hw => hws w (List.mem_cons_of_mem _ hw)
        have hstep : E' a₀ [] s₀ := (hlink [] s₀).mpr ⟨rfl, .inl ⟨hloop, rfl⟩⟩
        exact .cons (u := []) hstep (hround.append hrest)
    · exact hv ▸ hdone
  refine ⟨(hS s).mpr (.inr (.inl rfl)), haS, ?_, hfinal, fun w => ?_⟩
  · intro p u q hp hstep
    rcases (hS p).mp hp with hp | rfl | rfl
    · by_cases hpa : p = a₀
      · subst hpa
        obtain ⟨-, ⟨-, rfl⟩ | rfl⟩ := (hlink u q).mp hstep
        · exact (hS _).mpr (.inl h.start)
        · exact haS
      · exact (hS q).mpr (.inl (h.inside hp ((hsame p hp hpa u q).mp hstep)))
    · obtain ⟨-, rfl | ⟨-, rfl⟩⟩ := (hstart u q).mp hstep
      · exact (hS _).mpr (.inl h.start)
      · exact haS
    · exact absurd hstep (hfinal u q)
  · have hmem : w ∈ wrapped skip loop L ↔
        (skip = true ∧ w = []) ∨ ∃ u v, w = u ++ v ∧ u ∈ L ∧
          if loop then v ∈ L∗ else v = [] := by
      have hskip : w ∈ (if skip then 1 else 0 : Language α) ↔ skip = true ∧ w = [] := by
        cases skip <;> simp [Language.mem_one]
      have hloop : (w ∈ if loop then L * L∗ else L) ↔ ∃ u v, w = u ++ v ∧ u ∈ L ∧
          if loop then v ∈ L∗ else v = [] := by
        cases loop with
        | true =>
          simp only [if_true, Language.mem_mul]
          exact ⟨fun ⟨u, hu, v, hv, he⟩ => ⟨u, v, he.symm, hu, hv⟩,
            fun ⟨u, v, he, hu, hv⟩ => ⟨u, hu, v, hv, he.symm⟩⟩
        | false => simp
      rw [wrapped, Language.mem_add, hskip, hloop]
    rw [hmem]
    constructor
    · intro hpath
      cases hpath with
      | nil => exact absurd rfl hne
      | cons hstep hrest =>
        obtain ⟨rfl, rfl | ⟨hskip, rfl⟩⟩ := (hstart _ _).mp hstep
        · obtain ⟨u, v, rfl, hin, hv⟩ := hout hrest h.start rfl
          exact .inr ⟨u, v, rfl, (h.lang u).mp hin, hv⟩
        · obtain ⟨-, rfl⟩ := hrest.of_final hfinal
          exact .inl ⟨hskip, rfl⟩
    · rintro (⟨hskip, rfl⟩ | ⟨u, v, rfl, hu, hv⟩)
      · exact .single ((hstart [] a).mpr ⟨rfl, .inr ⟨hskip, rfl⟩⟩)
      · have hround := h.mono hsame h.start ((h.lang u).mpr hu)
        exact .cons (u := []) ((hstart [] s₀).mpr ⟨rfl, .inl rfl⟩) (hround.append (hback v hv))

end Frag

end Thompson
