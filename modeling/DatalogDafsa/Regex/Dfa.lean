import DatalogDafsa.Lib.Explore

/-!
# Byte automata

`regex_dfa` is the automaton the symbol walkers run: a table of 256 transitions for
each state, with `DFA_DEAD` for none, and the accepting states.  Both compilers find
the states by a breadth-first search over letters that stand for classes of bytes.

## Main definitions

* `Dfa`, `Dfa.accepts` — the automaton, and what a walk from state `0` accepts.
* `Dfa.ofTable` — a table over classes, spelled out for the bytes.
* `Dfa.WellFormed` — transitions stay inside the automaton.
* `accepts_ofTable`, `wellFormed_ofTable` — the automaton a search leaves.
-/

namespace DatalogDafsa.Regex

open Explore

/-- `DFA_DEAD`. -/
def dfaDead : ℕ := 0xFFFFFFFF

/-- `REGEX_DFA_MAX_STATES`. -/
def regexDfaMaxStates : ℕ := 50000

/-- `regex_dfa`. -/
structure Dfa where
  /-- Number of states. -/
  nStates : ℕ
  /-- `trans[s * 256 + byte]`. -/
  trans : List ℕ
  /-- Accepting states. -/
  accept : List Bool

namespace Dfa

variable (d : Dfa)

/-- One transition. -/
def next (s : ℕ) (b : UInt8) : ℕ := d.trans.getD (s * 256 + b.toNat) dfaDead

/-- The walk over a string; none when it dies. -/
def walk : ℕ → List UInt8 → Option ℕ
  | s, [] => some s
  | s, b :: bs => if d.next s b = dfaDead then none else walk (d.next s b) bs

/-- Does the walk from state `0` end in an accepting state? -/
def accepts (w : List UInt8) : Bool :=
  match d.walk 0 w with
  | some s => d.accept.getD s false
  | none => false

/-- Every transition is dead or leads to a state. -/
def WellFormed : Prop :=
  d.trans.length = d.nStates * 256 ∧ d.accept.length = d.nStates ∧
    ∀ t ∈ d.trans, t = dfaDead ∨ t < d.nStates

/-- Spell a table over classes out for the bytes. -/
def ofTable (rows : List (List ℕ)) (accept : List Bool) (classOf : UInt8 → ℕ) : Dfa where
  nStates := rows.length
  trans := rows.flatMap fun row =>
    (List.range 256).map fun b => row.getD (classOf (UInt8.ofNat b)) dfaDead
  accept := accept

theorem next_ofTable (rows : List (List ℕ)) (accept : List Bool) (classOf : UInt8 → ℕ) {s : ℕ}
    (hs : s < rows.length) (b : UInt8) :
    (ofTable rows accept classOf).next s b = (rows.getD s []).getD (classOf b) dfaDead := by
  have hlt : b.toNat < 256 := b.toNat_lt
  have key : ∀ (rows : List (List ℕ)) (s : ℕ), s < rows.length →
      (rows.flatMap fun row => (List.range 256).map fun b =>
        row.getD (classOf (UInt8.ofNat b)) dfaDead)[s * 256 + b.toNat]? =
        some ((rows.getD s []).getD (classOf b) dfaDead) := by
    intro rows
    induction rows with
    | nil => intro s hs; simp at hs
    | cons row rows ih =>
      intro s hs
      rw [List.flatMap_cons]
      cases s with
      | zero =>
        rw [List.getElem?_append_left (by simp; omega)]
        simp [hlt]
      | succ s =>
        rw [List.getElem?_append_right (by simp; omega)]
        have hsub : (s + 1) * 256 + b.toNat - ((List.range 256).map fun b =>
            row.getD (classOf (UInt8.ofNat b)) dfaDead).length = s * 256 + b.toNat := by
          simp only [List.length_map, List.length_range]
          omega
        rw [hsub, ih s (by simpa using hs)]
        simp
  rw [next, ofTable, List.getD_eq_getElem?_getD, key rows s hs, Option.getD_some]

end Dfa

/-! ## The automaton a search leaves -/

section Search

variable {K : Type*} {M : Machine K} {L : Limits} {hash : K → ℕ} {s : St K}
  {classOf : UInt8 → ℕ}

/-- The transitions from a state are the steps of its key. -/
theorem isStep_next (h : Explored M L hash s) (hdone : s.rows.length = s.keys.length)
    (hclass : ∀ b, classOf b < M.letters) {i : ℕ} {k : K} (hk : s.keys[i]? = some k) (b : UInt8) :
    IsStep M L s.keys k (classOf b) ((Dfa.ofTable s.rows s.accept classOf).next i b) := by
  have hi : i < s.rows.length := hdone ▸ (List.getElem?_eq_some_iff.mp hk).1
  obtain ⟨hlen, hsteps⟩ := h.rows i _ (List.getElem?_eq_getElem hi) k hk
  have hc : classOf b < (s.rows[i]).length := hlen ▸ hclass b
  rw [Dfa.next_ofTable _ _ _ hi, List.getD_eq_getElem?_getD (l := s.rows),
    List.getElem?_eq_getElem hi, Option.getD_some, List.getD_eq_getElem?_getD,
    List.getElem?_eq_getElem hc, Option.getD_some]
  exact hsteps _ _ (List.getElem?_eq_getElem hc)

/-- **The automaton of a finished search accepts what the machine accepts.** -/
theorem accepts_ofTable (h : Explored M L hash s) (hdone : s.rows.length = s.keys.length)
    (hclass : ∀ b, classOf b < M.letters) (hdead : L.dead = dfaDead) (hcap : L.cap < dfaDead)
    (w : List UInt8) :
    (Dfa.ofTable s.rows s.accept classOf).accepts w = true ↔
      ∃ k, (w.map classOf).foldlM M.step M.start = some k ∧ M.accept k = true := by
  have key : ∀ (w : List UInt8) (i : ℕ) (k : K), s.keys[i]? = some k →
      match (w.map classOf).foldlM M.step k with
      | some k' => ∃ j, (Dfa.ofTable s.rows s.accept classOf).walk i w = some j ∧
          s.keys[j]? = some k'
      | none => (Dfa.ofTable s.rows s.accept classOf).walk i w = none := by
    intro w
    induction w with
    | nil => exact fun i k hk => ⟨i, rfl, hk⟩
    | cons b w ih =>
      intro i k hk
      have hstep := isStep_next h hdone hclass hk b
      rw [List.map_cons, List.foldlM_cons, Dfa.walk]
      unfold IsStep at hstep
      cases hs : M.step k (classOf b) with
      | none =>
        rw [hs] at hstep
        rw [if_pos (hstep.trans hdead)]
        rfl
      | some k' =>
        rw [hs] at hstep
        have hlt := (List.getElem?_eq_some_iff.mp hstep).1
        have hne : (Dfa.ofTable s.rows s.accept classOf).next i b ≠ dfaDead := by
          have := h.cap
          omega
        rw [if_neg hne]
        exact ih _ k' hstep
  have hrun := key w 0 M.start h.start
  unfold Dfa.accepts
  cases hf : (w.map classOf).foldlM M.step M.start with
  | none =>
    rw [hf] at hrun
    simp [hrun]
  | some k =>
    rw [hf] at hrun
    obtain ⟨j, hwalk, hj⟩ := hrun
    have hacc : (Dfa.ofTable s.rows s.accept classOf).accept.getD j false = M.accept k := by
      show s.accept.getD j false = _
      rw [h.accept, List.getD_eq_getElem?_getD, List.getElem?_map, hj]
      rfl
    rw [hwalk]
    show (Dfa.ofTable s.rows s.accept classOf).accept.getD j false = true ↔ _
    rw [hacc]
    simp

/-- **The automaton of a finished search is well formed.** -/
theorem wellFormed_ofTable (h : Explored M L hash s) (hdone : s.rows.length = s.keys.length)
    (hclass : ∀ b, classOf b < M.letters) (hdead : L.dead = dfaDead) :
    (Dfa.ofTable s.rows s.accept classOf).WellFormed := by
  refine ⟨?_, ?_, fun t ht => ?_⟩
  · simp [Dfa.ofTable, List.length_flatMap]
  · simp [Dfa.ofTable, h.accept, hdone]
  · obtain ⟨row, hrow, ht⟩ := List.mem_flatMap.mp ht
    obtain ⟨b, -, rfl⟩ := List.mem_map.mp ht
    obtain ⟨i, hi⟩ := List.mem_iff_getElem?.mp hrow
    have hlt : i < s.keys.length := hdone ▸ (List.getElem?_eq_some_iff.mp hi).1
    obtain ⟨hlen, hsteps⟩ := h.rows i row hi _ (List.getElem?_eq_getElem hlt)
    have hc : classOf (UInt8.ofNat b) < row.length := hlen ▸ hclass _
    have hstep := hsteps _ _ (List.getElem?_eq_getElem hc)
    rw [List.getD_eq_getElem?_getD, List.getElem?_eq_getElem hc, Option.getD_some]
    unfold IsStep at hstep
    split at hstep
    · exact .inl (hstep.trans hdead)
    · refine .inr ?_
      show _ < s.rows.length
      rw [hdone]
      exact (List.getElem?_eq_some_iff.mp hstep).1

end Search

end DatalogDafsa.Regex
