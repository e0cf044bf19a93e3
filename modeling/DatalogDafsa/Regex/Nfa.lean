import DatalogDafsa.Regex.Parse

/-!
# Pieces of the automaton

What the functions that build the automaton do to its steps and its accepting states,
and so that each piece they leave is a fragment with the language it should have.

## Main definitions

* `Nfa.Step`, `Nfa.Accepting` — the steps of the automaton, and its accepting states.
* `Built` — the new states are a fragment with one accepting state; the old ones are as
  they were.
* `built_single`, `Built.seq`, `Built.alt`, `Built.wrap` — the pieces.
-/

namespace DatalogDafsa.Regex

open Thompson
open scoped Computability

/-- What an edge reads. -/
def SymEdge.words : SymEdge → Language UInt8
  | epsilon => 1
  | literal ch => {[ch]}
  | any => {w | ∃ b, w = [b]}
  | cls bitmap => {w | ∃ b, bitmap b = true ∧ w = [b]}

namespace Nfa

variable (n : Nfa)

/-- Number of states. -/
def size : ℕ := n.states.length

/-- The steps. -/
def Step : Steps ℕ UInt8 := fun p u q =>
  ∃ st edge, n.states[p]? = some st ∧ (edge, q) ∈ st.edges ∧ u ∈ edge.words

/-- The accepting states. -/
def Accepting (i : ℕ) : Prop := ∃ st, n.states[i]? = some st ∧ st.accept = true

variable {n}

theorem Step.lt {p q : ℕ} {u : List UInt8} (h : n.Step p u q) : p < n.size := by
  obtain ⟨st, edge, hst, -⟩ := h
  exact (List.getElem?_eq_some_iff.mp hst).1

theorem Accepting.lt {i : ℕ} (h : n.Accepting i) : i < n.size := by
  obtain ⟨st, hst, -⟩ := h
  exact (List.getElem?_eq_some_iff.mp hst).1

end Nfa

/-! ## The operations -/

section Ops

variable {n n' : Nfa}

@[simp] theorem size_addState (accept : Bool) :
    (nfaAddState n accept).1.size = n.size + 1 := by
  simp [nfaAddState, Nfa.size]

@[simp] theorem snd_addState (accept : Bool) : (nfaAddState n accept).2 = n.size := rfl

@[simp] theorem step_addState (accept : Bool) {p q : ℕ} {u : List UInt8} :
    (nfaAddState n accept).1.Step p u q ↔ n.Step p u q := by
  rcases lt_trichotomy p n.states.length with hp | rfl | hp
  · simp [Nfa.Step, nfaAddState, List.getElem?_append_left hp]
  · simp [Nfa.Step, nfaAddState]
  · have hnone : (n.states ++ [⟨[], accept⟩])[p]? = none := by
      rw [List.getElem?_eq_none]
      simp only [List.length_append, List.length_singleton]
      omega
    simp [Nfa.Step, nfaAddState, hnone, List.getElem?_eq_none hp.le]

@[simp] theorem accepting_addState (accept : Bool) {i : ℕ} :
    (nfaAddState n accept).1.Accepting i ↔ n.Accepting i ∨ i = n.size ∧ accept = true := by
  rcases lt_trichotomy i n.states.length with hi | rfl | hi
  · simp [Nfa.Accepting, nfaAddState, List.getElem?_append_left hi, Nfa.size, hi.ne]
  · simp [Nfa.Accepting, nfaAddState, Nfa.size]
  · have hnone : (n.states ++ [⟨[], accept⟩])[i]? = none := by
      rw [List.getElem?_eq_none]
      simp only [List.length_append, List.length_singleton]
      omega
    simp [Nfa.Accepting, nfaAddState, hnone, List.getElem?_eq_none hi.le, Nfa.size, hi.ne']

@[simp] theorem size_setAccept (i : ℕ) (accept : Bool) :
    (nfaSetAccept n i accept).size = n.size := by
  simp [nfaSetAccept, Nfa.size]

@[simp] theorem step_setAccept (i : ℕ) (accept : Bool) {p q : ℕ} {u : List UInt8} :
    (nfaSetAccept n i accept).Step p u q ↔ n.Step p u q := by
  simp only [Nfa.Step, nfaSetAccept, List.getElem?_modify]
  cases hst : n.states[p]? with
  | none => simp
  | some st => by_cases hip : i = p <;> simp [hip]

theorem accepting_setAccept {i : ℕ} (hi : i < n.size) (accept : Bool) {j : ℕ} :
    (nfaSetAccept n i accept).Accepting j ↔ if j = i then accept = true else n.Accepting j := by
  simp only [Nfa.Accepting, nfaSetAccept, List.getElem?_modify]
  by_cases hij : j = i
  · subst hij
    rw [if_pos rfl, List.getElem?_eq_getElem hi]
    simp
  · rw [if_neg hij]
    cases hst : n.states[j]? with
    | none => simp
    | some st => simp [Ne.symm hij]

/-- What an added edge changes. -/
theorem addEdge_spec {src dst : ℕ} {sym : SymEdge} (hsrc : src < n.size)
    (h : nfaAddEdge n src dst sym = .ok n') :
    n'.size = n.size ∧
      (∀ p u q, n'.Step p u q ↔ n.Step p u q ∨ p = src ∧ q = dst ∧ u ∈ sym.words) ∧
      ∀ i, n'.Accepting i ↔ n.Accepting i := by
  unfold nfaAddEdge at h
  split at h
  · cases h
  cases h
  refine ⟨by simp [Nfa.size], fun p u q => ?_, fun i => ?_⟩
  · simp only [Nfa.Step, List.getElem?_modify]
    by_cases hp : src = p
    · subst hp
      rw [List.getElem?_eq_getElem hsrc]
      simp only [if_true, Option.map_eq_map, Option.map_some, Option.some.injEq,
        exists_and_left, exists_eq_left', List.mem_append, List.mem_singleton, Prod.mk.injEq,
        true_and]
      constructor
      · rintro ⟨edge, hor | ⟨rfl, rfl⟩, hu⟩
        · exact .inl ⟨edge, hor, hu⟩
        · exact .inr ⟨rfl, hu⟩
      · rintro (⟨edge, hin, hu⟩ | ⟨rfl, hu⟩)
        · exact ⟨edge, .inl hin, hu⟩
        · exact ⟨sym, .inr ⟨rfl, rfl⟩, hu⟩
    · cases hst : n.states[p]? with
      | none => simp [Ne.symm hp]
      | some st => simp [hp, Ne.symm hp]
  · simp only [Nfa.Accepting, List.getElem?_modify]
    cases hst : n.states[i]? with
    | none => simp
    | some st => by_cases hi : src = i <;> simp [hi]

/-- A step of `Except` that succeeds. -/
theorem bind_ok {ε α β : Type} {x : Except ε α} {f : α → Except ε β} {b : β}
    (h : x >>= f = .ok b) : ∃ a, x = .ok a ∧ f a = .ok b := by
  cases x with
  | error e => cases h
  | ok a => exact ⟨a, rfl, h⟩

end Ops

/-! ## Pieces -/

/-- The states from `n` on are a fragment, and the states of `n` are as they were. -/
structure Built (n n' : Nfa) (e : NfaFrag) (L : Language UInt8) : Prop where
  /-- States are added. -/
  size : n.size ≤ n'.size
  /-- The old states have their steps. -/
  steps : ∀ p < n.size, ∀ u q, n'.Step p u q ↔ n.Step p u q
  /-- The old states are marked as they were. -/
  marks : ∀ i < n.size, n'.Accepting i ↔ n.Accepting i
  /-- The new states are a fragment. -/
  frag : Frag n'.Step (Set.Ico n.size n'.size) e.start e.accept L
  /-- Its exit is accepting. -/
  accepts : ∀ i, n.size ≤ i → (n'.Accepting i ↔ i = e.accept)

section Pieces

variable {n n₁ n₂ n' : Nfa} {e l r : NfaFrag} {L L₁ L₂ : Language UInt8}

theorem Built.lt (h : Built n n' e L) : n.size ≤ e.start ∧ e.start < n'.size ∧
    n.size ≤ e.accept ∧ e.accept < n'.size :=
  ⟨h.frag.start.1, h.frag.start.2, h.frag.accept.1, h.frag.accept.2⟩

/-- **One edge.** -/
theorem built_single {sym : SymEdge} (h : nfaSingle n sym = .ok (n', e)) :
    Built n n' e sym.words := by
  obtain ⟨n₁, hedge, hok⟩ := bind_ok h
  cases hok
  obtain ⟨hsize, hstep, hacc⟩ := addEdge_spec (by simp) hedge
  simp only [size_addState, snd_addState, step_addState, accepting_addState] at hsize hstep hacc
  have hlt : ∀ {p u q}, n.Step p u q → p < n.size := fun h => h.lt
  refine ⟨by omega, fun p hp u q => ?_, fun i hi => ?_, ?_, fun i hi => ?_⟩
  · rw [hstep]
    exact or_iff_left fun hnew => hp.ne hnew.1
  · rw [hacc]
    simp [hi.ne, (hi.trans (Nat.lt_succ_self _)).ne]
  · refine Frag.single (by simp) (fun u q => ?_) (fun u q hq => ?_) fun p => ?_
    · rw [hstep]
      simp only [snd_addState, size_addState]
      constructor
      · rintro (hold | ⟨-, rfl, hu⟩)
        · exact absurd hold.lt (lt_irrefl _)
        · exact ⟨hu, rfl⟩
      · rintro ⟨hu, rfl⟩
        exact .inr ⟨trivial, rfl, hu⟩
    · rcases (hstep _ _ _).mp hq with hold | ⟨heq, -⟩
      · have := hold.lt
        simp only [snd_addState, size_addState] at this
        omega
      · simp only [snd_addState, size_addState] at heq
        omega
    · simp only [Set.mem_Ico, hsize, snd_addState, size_addState]
      omega
  · rw [hacc]
    simp only [snd_addState, size_addState]
    constructor
    · rintro ((hold | ⟨-, hf⟩) | ⟨rfl, -⟩)
      · exact absurd hold.lt (by omega)
      · cases hf
      · rfl
    · rintro rfl
      exact .inr ⟨rfl, trivial⟩

/-- **One piece after another.** -/
theorem Built.seq (h₁ : Built n n₁ l L₁) (h₂ : Built n₁ n₂ r L₂)
    (h : nfaSeq n₂ l r = .ok (n', e)) : Built n n' e (L₁ * L₂) := by
  obtain ⟨n₃, hedge, hok⟩ := bind_ok h
  cases hok
  obtain ⟨hs, hs', ha, ha'⟩ := h₁.lt
  obtain ⟨ht, ht', hb, hb'⟩ := h₂.lt
  have hlt : l.accept < n₂.size := by omega
  obtain ⟨hsize, hstep, hacc⟩ := addEdge_spec (by simpa using hlt) hedge
  simp only [size_setAccept, step_setAccept, accepting_setAccept hlt] at hsize hstep hacc
  have h₁' : Frag n₂.Step (Set.Ico n.size n₁.size) l.start l.accept L₁ :=
    h₁.frag.congr fun p hp => h₂.steps p hp.2
  refine ⟨by omega, fun p hp u q => ?_, fun i hi => ?_, ?_, fun i hi => ?_⟩
  · rw [hstep, h₂.steps p (by omega), h₁.steps p hp]
    exact or_iff_left fun hnew => by omega
  · rw [hacc, if_neg (by omega), h₂.marks i (by omega), h₁.marks i hi]
  · refine h₁'.seq h₂.frag ?_ (fun p hp hne u q => ?_) (fun p hp u q => ?_) (fun u q => ?_)
      fun p => ?_
    · exact Set.Ico_disjoint_Ico_same
    · rw [hstep]
      exact or_iff_left fun hnew => hne hnew.1
    · rw [hstep]
      have := hp.1
      exact or_iff_left fun hnew => by omega
    · rw [hstep]
      constructor
      · rintro (hold | ⟨-, rfl, hu⟩)
        · exact absurd hold (h₁'.final u q)
        · exact ⟨hu, rfl⟩
      · rintro ⟨hu, rfl⟩
        exact .inr ⟨rfl, rfl, hu⟩
    · have := h₁.size
      have := h₂.size
      simp only [Set.mem_Ico, hsize]
      omega
  · rw [hacc]
    by_cases hi₁ : i < n₁.size
    · by_cases hil : i = l.accept
      · rw [if_pos hil]
        simp only [Bool.false_eq_true, false_iff]
        omega
      · rw [if_neg hil, h₂.marks i hi₁, h₁.accepts i hi]
        constructor
        · exact fun heq => absurd heq hil
        · intro (heq : i = r.accept)
          omega
    · rw [if_neg (by omega), h₂.accepts i (by omega)]

/-- What `nfaAlt` changes. -/
theorem nfaAlt_spec (hl : l.accept < n.size) (hr : r.accept < n.size)
    (h : nfaAlt n l r = .ok (n', e)) :
    e = ⟨n.size, n.size + 1⟩ ∧ n'.size = n.size + 2 ∧
      (∀ p u q, n'.Step p u q ↔ n.Step p u q ∨ u = [] ∧
        (p = n.size ∧ (q = l.start ∨ q = r.start) ∨
          (p = l.accept ∨ p = r.accept) ∧ q = n.size + 1)) ∧
      ∀ i, n'.Accepting i ↔ i ≠ l.accept ∧ i ≠ r.accept ∧ (n.Accepting i ∨ i = n.size + 1) := by
  obtain ⟨n₁, hedge₁, h⟩ := bind_ok h
  obtain ⟨n₂, hedge₂, h⟩ := bind_ok h
  obtain ⟨n₃, hedge₃, h⟩ := bind_ok h
  obtain ⟨n₄, hedge₄, hok⟩ := bind_ok h
  cases hok
  obtain ⟨hsize₁, hstep₁, hacc₁⟩ := addEdge_spec (by simp) hedge₁
  simp only [size_addState] at hsize₁
  obtain ⟨hsize₂, hstep₂, hacc₂⟩ := addEdge_spec (by simp; omega) hedge₂
  obtain ⟨hsize₃, hstep₃, hacc₃⟩ := addEdge_spec (by omega) hedge₃
  obtain ⟨hsize₄, hstep₄, hacc₄⟩ := addEdge_spec (by omega) hedge₄
  refine ⟨by simp, ?_, fun p u q => ?_, fun i => ?_⟩
  · simp only [size_setAccept]
    omega
  · simp only [step_setAccept, hstep₄, hstep₃, hstep₂, hstep₁, step_addState, snd_addState,
      size_addState, SymEdge.words, Language.mem_one]
    tauto
  · rw [accepting_setAccept (by rw [size_setAccept]; omega), accepting_setAccept (by omega)]
    simp only [hacc₄, hacc₃, hacc₂, hacc₁, accepting_addState, size_addState]
    by_cases hir : i = r.accept
    · simp [hir]
    · by_cases hil : i = l.accept
      · simp [hil]
      · simp [hir, hil]

/-- **Either piece.** -/
theorem Built.alt (h₁ : Built n n₁ l L₁) (h₂ : Built n₁ n₂ r L₂)
    (h : nfaAlt n₂ l r = .ok (n', e)) : Built n n' e (L₁ + L₂) := by
  have hlt₁ := h₁.lt
  have hlt₂ := h₂.lt
  have hle₁ := h₁.size
  have hle₂ := h₂.size
  obtain ⟨rfl, hsize, hstep, hacc⟩ := nfaAlt_spec (by omega) (by omega) h
  have h₁' : Frag n₂.Step (Set.Ico n.size n₁.size) l.start l.accept L₁ :=
    h₁.frag.congr fun p hp => h₂.steps p hp.2
  refine ⟨by omega, fun p hp u q => ?_, fun i hi => ?_, ?_, fun i hi => ?_⟩
  · rw [hstep, h₂.steps p (by omega), h₁.steps p hp]
    exact or_iff_left fun hnew => by omega
  · rw [hacc, h₂.marks i (by omega), h₁.marks i hi]
    constructor
    · rintro ⟨-, -, hi' | rfl⟩
      · exact hi'
      · omega
    · exact fun hi' => ⟨by omega, by omega, .inl hi'⟩
  · show Frag _ _ n₂.size (n₂.size + 1) _
    refine h₁'.alt h₂.frag ?_ ?_ (by simp) (fun p hp hne u q => ?_) (fun p hp hne u q => ?_)
      (fun u q => ?_) (fun u q => ?_) (fun u q => ?_) (fun u q hq => ?_) fun p => ?_
    · simp only [Set.mem_Ico]
      omega
    · simp only [Set.mem_Ico]
      omega
    · rw [hstep]
      have := hp.2
      exact or_iff_left fun hnew => by omega
    · rw [hstep]
      have := hp.1
      have := hp.2
      exact or_iff_left fun hnew => by omega
    · rw [hstep]
      constructor
      · rintro (hold | ⟨hu, ⟨-, hq⟩ | ⟨hp, -⟩⟩)
        · exact absurd hold.lt (lt_irrefl _)
        · exact ⟨hu, hq⟩
        · omega
      · exact fun ⟨hu, hq⟩ => .inr ⟨hu, .inl ⟨rfl, hq⟩⟩
    · rw [hstep]
      constructor
      · rintro (hold | ⟨hu, ⟨hp, -⟩ | ⟨-, hq⟩⟩)
        · exact absurd hold (h₁'.final u q)
        · omega
        · exact ⟨hu, hq⟩
      · exact fun ⟨hu, hq⟩ => .inr ⟨hu, .inr ⟨.inl rfl, hq⟩⟩
    · rw [hstep]
      constructor
      · rintro (hold | ⟨hu, ⟨hp, -⟩ | ⟨-, hq⟩⟩)
        · exact absurd hold (h₂.frag.final u q)
        · omega
        · exact ⟨hu, hq⟩
      · exact fun ⟨hu, hq⟩ => .inr ⟨hu, .inr ⟨.inr rfl, hq⟩⟩
    · rcases (hstep _ _ _).mp hq with hold | ⟨-, hnew⟩
      · have := hold.lt
        omega
      · omega
    · simp only [Set.mem_Ico, hsize]
      omega
  · rw [hacc]
    constructor
    · rintro ⟨hil, hir, hi' | rfl⟩
      · by_cases hi₁ : i < n₁.size
        · exact absurd ((h₁.accepts i hi).mp ((h₂.marks i hi₁).mp hi')) hil
        · exact absurd ((h₂.accepts i (by omega)).mp hi') hir
      · rfl
    · intro (heq : i = n₂.size + 1)
      exact ⟨by omega, by omega, .inr heq⟩

/-- What `nfaWrap` changes. -/
theorem nfaWrap_spec {skip loop : Bool} (ha : l.accept < n.size)
    (h : nfaWrap skip loop n l = .ok (n', e)) :
    e = ⟨n.size, n.size + 1⟩ ∧ n'.size = n.size + 2 ∧
      (∀ p u q, n'.Step p u q ↔ n.Step p u q ∨ u = [] ∧
        (p = n.size ∧ (q = l.start ∨ skip = true ∧ q = n.size + 1) ∨
          p = l.accept ∧ (loop = true ∧ q = l.start ∨ q = n.size + 1))) ∧
      ∀ i, n'.Accepting i ↔ i ≠ l.accept ∧ (n.Accepting i ∨ i = n.size + 1) := by
  obtain ⟨n₁, hedge₁, h⟩ := bind_ok h
  obtain ⟨n₂, hedge₂, h⟩ := bind_ok h
  obtain ⟨n₃, hedge₃, h⟩ := bind_ok h
  obtain ⟨n₄, hedge₄, hok⟩ := bind_ok h
  cases hok
  have hperhaps : ∀ {m m' : Nfa} {b : Bool} {src dst : ℕ}, src < m.size →
      nfaSilentIf b m src dst = .ok m' → m'.size = m.size ∧
        (∀ p u q, m'.Step p u q ↔ m.Step p u q ∨ b = true ∧ p = src ∧ q = dst ∧ u = []) ∧
        ∀ i, m'.Accepting i ↔ m.Accepting i := by
    intro m m' b src dst hsrc hb
    cases b with
    | true =>
      obtain ⟨hsize, hstep, hacc⟩ := addEdge_spec hsrc hb
      exact ⟨hsize, fun p u q => by rw [hstep, SymEdge.words, Language.mem_one]; tauto, hacc⟩
    | false =>
      cases hb
      exact ⟨rfl, fun p u q => by simp, fun i => Iff.rfl⟩
  obtain ⟨hsize₁, hstep₁, hacc₁⟩ := addEdge_spec (by simp) hedge₁
  simp only [size_setAccept, size_addState] at hsize₁
  obtain ⟨hsize₂, hstep₂, hacc₂⟩ := hperhaps (by simp; omega) hedge₂
  obtain ⟨hsize₃, hstep₃, hacc₃⟩ := hperhaps (by omega) hedge₃
  obtain ⟨hsize₄, hstep₄, hacc₄⟩ := addEdge_spec (by omega) hedge₄
  refine ⟨by simp, by omega, fun p u q => ?_, fun i => ?_⟩
  · simp only [step_setAccept, hstep₄, hstep₃, hstep₂, hstep₁, step_addState, snd_addState,
      size_addState, SymEdge.words, Language.mem_one]
    tauto
  · rw [hacc₄, hacc₃, hacc₂, hacc₁, accepting_setAccept (by simp; omega)]
    simp only [accepting_addState, size_addState]
    by_cases hil : i = l.accept
    · simp [hil]
    · simp [hil]

/-- **A piece that is skipped or repeated.** -/
theorem Built.wrap {skip loop : Bool} (h₁ : Built n n₁ l L)
    (h : nfaWrap skip loop n₁ l = .ok (n', e)) : Built n n' e (Frag.wrapped skip loop L) := by
  have hlt := h₁.lt
  have hle := h₁.size
  obtain ⟨rfl, hsize, hstep, hacc⟩ := nfaWrap_spec (by omega) h
  refine ⟨by omega, fun p hp u q => ?_, fun i hi => ?_, ?_, fun i hi => ?_⟩
  · rw [hstep, h₁.steps p hp]
    exact or_iff_left fun hnew => by omega
  · rw [hacc, h₁.marks i hi]
    constructor
    · rintro ⟨-, hi' | rfl⟩
      · exact hi'
      · omega
    · exact fun hi' => ⟨by omega, .inl hi'⟩
  · show Frag _ _ n₁.size (n₁.size + 1) _
    refine h₁.frag.wrap ?_ (by simp) (fun p hp hne u q => ?_) (fun u q => ?_) (fun u q => ?_)
      (fun u q hq => ?_) fun p => ?_
    · simp only [Set.mem_Ico]
      omega
    · rw [hstep]
      have := hp.2
      exact or_iff_left fun hnew => by omega
    · rw [hstep]
      constructor
      · rintro (hold | ⟨hu, ⟨-, hq⟩ | ⟨hp, -⟩⟩)
        · exact absurd hold.lt (lt_irrefl _)
        · exact ⟨hu, hq⟩
        · omega
      · exact fun ⟨hu, hq⟩ => .inr ⟨hu, .inl ⟨rfl, hq⟩⟩
    · rw [hstep]
      constructor
      · rintro (hold | ⟨hu, ⟨hp, -⟩ | ⟨-, hq⟩⟩)
        · exact absurd hold (h₁.frag.final u q)
        · omega
        · exact ⟨hu, hq⟩
      · exact fun ⟨hu, hq⟩ => .inr ⟨hu, .inr ⟨rfl, hq⟩⟩
    · rcases (hstep _ _ _).mp hq with hold | ⟨-, hnew⟩
      · have := hold.lt
        omega
      · omega
    · simp only [Set.mem_Ico, hsize]
      omega
  · rw [hacc]
    constructor
    · rintro ⟨hil, hi' | rfl⟩
      · exact absurd ((h₁.accepts i hi).mp hi') hil
      · rfl
    · intro (heq : i = n₁.size + 1)
      exact ⟨by omega, .inr heq⟩

end Pieces

end DatalogDafsa.Regex
