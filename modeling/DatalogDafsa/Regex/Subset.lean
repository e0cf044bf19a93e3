import DatalogDafsa.Regex.Dfa
import DatalogDafsa.Regex.Fuel
import DatalogDafsa.Regex.Lev
import DatalogDafsa.Regex.Sound

/-!
# The subset construction

`regex_compile` parses a pattern into an automaton and makes it deterministic: the states
are sets of states of the automaton, closed under silent steps, found breadth first.

The set of a state is looked up in the map in the source; here the search keeps the sets
by number too.

## Main definitions

* `epsClosure`, `move`, `dsmFindOrAdd` — the operations on sets of states.
* `regexCompile` — the compiler.
* `mem_epsClosure`, `mem_move` — what they compute.
* `subsetMachine_accepts` — the deterministic automaton accepts the same strings.
-/

namespace DatalogDafsa.Regex

open Probe Explore Thompson

/-! ## The operations -/

/-- `Bitset`: the bits of a number. -/
abbrev Bitset := ℕ

/-- `bsSet`. -/
def bsSet (b : Bitset) (idx : ℕ) : Bitset := b ||| 2 ^ idx

/-- `bsGet`. -/
def bsGet (b : Bitset) (idx : ℕ) : Bool := b.testBit idx

/-- `bsHash`, byte after byte of `nwords` words. -/
def bsHash (nwords : ℕ) (b : Bitset) : ℕ :=
  (List.range (nwords * 8)).foldl
    (fun h j => (h ^^^ (b >>> (8 * j)) % 256) * fnvPrime % 2 ^ 64) fnvOffset

/-- The edges of a state. -/
def Nfa.edges (n : Nfa) (i : ℕ) : List (SymEdge × ℕ) :=
  match n.states[i]? with
  | some st => st.edges
  | none => []

/-- `bsHasAccept`. -/
def bsHasAccept (b : Bitset) (n : Nfa) : Bool :=
  (List.range n.size).any fun i => bsGet b i && (n.states[i]?).any (·.accept)

/-- `symMatches`. -/
def symMatches (byte : UInt8) : SymEdge → Bool
  | .literal ch => ch == byte
  | .any => true
  | .cls bitmap => bitmap byte
  | .epsilon => false

/-- One edge in a pass of `epsClosure`, with the flag `changed`. -/
def epsEdge (st : Bitset × Bool) (edge : SymEdge × ℕ) : Bitset × Bool :=
  match edge.1 with
  | .epsilon => if bsGet st.1 edge.2 then st else (bsSet st.1 edge.2, true)
  | _ => st

/-- One state in a pass of `epsClosure`. -/
def epsState (n : Nfa) (st : Bitset × Bool) (i : ℕ) : Bitset × Bool :=
  if bsGet st.1 i then (n.edges i).foldl epsEdge st else st

/-- A pass of `epsClosure`. -/
def epsPass (n : Nfa) (set : Bitset) : Bitset × Bool :=
  (List.range n.size).foldl (epsState n) (set, false)

/-- The loop of `epsClosure`. -/
def epsLoop (n : Nfa) : ℕ → Bitset → Bitset
  | 0, set => set
  | fuel + 1, set => if (epsPass n set).2 then epsLoop n fuel (epsPass n set).1 else set

/-- `epsClosure`.  Every pass but the last adds a state. -/
def epsClosure (n : Nfa) (set : Bitset) : Bitset := epsLoop n (n.size + 1) set

/-- One edge in `move`. -/
def moveEdge (byte : UInt8) (next : Bitset) (edge : SymEdge × ℕ) : Bitset :=
  if symMatches byte edge.1 then bsSet next edge.2 else next

/-- One state in `move`. -/
def moveState (n : Nfa) (set : Bitset) (byte : UInt8) (next : Bitset) (i : ℕ) : Bitset :=
  if bsGet set i then (n.edges i).foldl (moveEdge byte) next else next

/-- `move`. -/
def move (n : Nfa) (set : Bitset) (byte : UInt8) : Bitset :=
  epsClosure n ((List.range n.size).foldl (moveState n set byte) 0)

/-- The search of `dsmFindOrAdd` in a map that has grown. -/
def dsmInsert (nwords : ℕ) (m : Table Bitset) (bs : Bitset) (dfaId : ℕ) :
    Table Bitset × ℕ × Bool :=
  match probe (fun bs' => bs' = bs) m m.cap (bsHash nwords bs % m.cap) with
  | .found id => (m, id, false)
  | .empty idx => (m.put idx bs dfaId, dfaId, true)
  -- it is not full
  | .full => (m, dfaId, false)

/-- `dsmFindOrAdd`.  The map grows when a set is not found in it. -/
def dsmFindOrAdd (nwords : ℕ) (m : Table Bitset) (bs : Bitset) (dfaId : ℕ) :
    Table Bitset × ℕ × Bool :=
  match probe (fun bs' => bs' = bs) m m.cap (bsHash nwords bs % m.cap) with
  | .found id => (m, id, false)
  | .empty idx =>
    if m.cap * 3 ≤ m.used * 4 then dsmInsert nwords (grow (bsHash nwords) m) bs dfaId
    else (m.put idx bs dfaId, dfaId, true)
  -- nor is it ever full before
  | .full => dsmInsert nwords (grow (bsHash nwords) m) bs dfaId

/-- Words of a set of states. -/
def Nfa.words (n : Nfa) : ℕ := (n.size + 63) / 64

/-- The sets of states as an automaton over the bytes. -/
def subsetMachine (n : Nfa) : Machine Bitset where
  letters := 256
  start := epsClosure n (bsSet 0 0)
  step set byte :=
    let next := move n set (UInt8.ofNat byte)
    if next = 0 then none else some next
  accept set := bsHasAccept set n
  findOrAdd := dsmFindOrAdd n.words
  table := Table.empty 256

/-- The bounds of the search. -/
def regexLimits : Limits where
  cap := regexDfaMaxStates
  capMsg := "regex state cap exceeded (50000)"
  abort := 8192
  abortMsg := "regex state cap exceeded (8192)"
  dead := dfaDead

/-- The parser, on a pattern. -/
def RxParser.init (pattern : List UInt8) : RxParser := ⟨pattern, ⟨.eof, 0, false⟩, false, none⟩

/-- The automaton of a pattern: its start state is `0`. -/
def regexNfa (pattern : List UInt8) : Except RxErr Nfa :=
  match rxRegex (4 * pattern.length + 4) (nfaAddState ⟨[]⟩ false).1 (.init pattern) with
  | .error e => .error e
  | .ok (n, p, frag) =>
    match p.errmsg with
    | some msg => .error (.msg msg)
    | none =>
      nfaAddEdge (nfaSetAccept (nfaSetAccept n frag.accept true) 0 false) 0 frag.start .epsilon

/-- `regex_compile`, on the bytes before the NUL of `pattern`. -/
def regexCompile (pattern : List UInt8) : Except RxErr Dfa :=
  if pattern = [] then .error (.msg "empty pattern")
  else
    match regexNfa pattern with
    | .error e => .error e
    | .ok n =>
      match explore (subsetMachine n) regexLimits with
      | .error msg => .error (.msg msg)
      | .ok s => .ok (Dfa.ofTable s.rows s.accept (·.toNat))

/-! ## Sets and edges -/

section Sets

variable {n : Nfa} {b : Bitset} {p q i : ℕ}

/-- The states of a set. -/
def bits (b : Bitset) : Set ℕ := {i | bsGet b i = true}

theorem mem_bits : i ∈ bits b ↔ bsGet b i = true := Iff.rfl

theorem bits_zero : bits 0 = ∅ := by
  ext i
  simp [mem_bits, bsGet]

theorem bits_bsSet (b : Bitset) (idx : ℕ) : bits (bsSet b idx) = insert idx (bits b) := by
  ext i
  simp only [mem_bits, bsGet, bsSet, Nat.testBit_or, Nat.testBit_two_pow, Bool.or_eq_true,
    decide_eq_true_eq, Set.mem_insert_iff]
  tauto

theorem eq_zero_iff_bits : b = 0 ↔ bits b = ∅ := by
  constructor
  · rintro rfl
    exact bits_zero
  · intro h
    by_contra hne
    obtain ⟨i, hi⟩ := Nat.exists_testBit_of_ne_zero hne
    exact Set.notMem_empty i (h ▸ mem_bits.mpr hi)

/-- A silent step is a silent edge. -/
theorem step_nil_iff : n.Step p [] q ↔ (.epsilon, q) ∈ n.edges p := by
  unfold Nfa.Step Nfa.edges
  cases hst : n.states[p]? with
  | none => simp
  | some st =>
    simp only [Option.some.injEq, exists_and_left, exists_eq_left']
    constructor
    · rintro ⟨edge, hin, hu⟩
      cases edge with
      | epsilon => exact hin
      | literal ch => cases hu
      | any =>
        obtain ⟨b, hb⟩ := hu
        cases hb
      | cls bitmap =>
        obtain ⟨b, -, hb⟩ := hu
        cases hb
    · exact fun hin => ⟨.epsilon, hin, rfl⟩

theorem symMatches_iff {byte : UInt8} {sym : SymEdge} :
    symMatches byte sym = true ↔ [byte] ∈ sym.words := by
  cases sym with
  | epsilon => exact ⟨fun h => (by cases h), fun h => (by cases h)⟩
  | literal ch =>
    show (ch == byte) = true ↔ [byte] = [ch]
    rw [List.singleton_inj, beq_iff_eq]
    exact eq_comm
  | any => exact ⟨fun _ => ⟨byte, rfl⟩, fun _ => rfl⟩
  | cls bitmap =>
    show bitmap byte = true ↔ ∃ b, bitmap b = true ∧ [byte] = [b]
    simp

/-- A step over a byte is an edge that matches it. -/
theorem step_byte_iff {byte : UInt8} :
    n.Step p [byte] q ↔ ∃ edge ∈ n.edges p, symMatches byte edge.1 = true ∧ edge.2 = q := by
  unfold Nfa.Step Nfa.edges
  cases hst : n.states[p]? with
  | none => simp
  | some st =>
    simp only [Option.some.injEq, exists_and_left, exists_eq_left', Prod.exists,
      exists_eq_right_right, ← symMatches_iff]

/-- A step reads at most one byte. -/
theorem Nfa.Step.short {u : List UInt8} (h : n.Step p u q) : u = [] ∨ ∃ byte, u = [byte] := by
  obtain ⟨st, edge, -, -, hu⟩ := h
  cases edge with
  | epsilon => exact .inl hu
  | literal ch => exact .inr ⟨ch, hu⟩
  | any => exact .inr hu
  | cls bitmap =>
    obtain ⟨b, -, rfl⟩ := hu
    exact .inr ⟨b, rfl⟩

end Sets

/-! ## The closure -/

section Closure

variable {n : Nfa}

/-- A pass keeps states, adds only what silent steps lead to, and has its flag set when it
adds one. -/
structure Passed (n : Nfa) (st st' : Bitset × Bool) : Prop where
  /-- States stay. -/
  keep : bits st.1 ⊆ bits st'.1
  /-- New states are reached. -/
  reach : ∀ q ∈ bits st'.1, ∃ p ∈ bits st.1, Path n.Step p [] q
  /-- Without the flag nothing changed. -/
  still : st'.2 = false → st' = st
  /-- With it there is a new state. -/
  more : st'.2 = true → st.2 = true ∨ ∃ q ∈ bits st'.1, q ∉ bits st.1

theorem Passed.refl (st : Bitset × Bool) : Passed n st st :=
  ⟨subset_rfl, fun q hq => ⟨q, hq, .nil q⟩, fun _ => rfl, fun h => .inl h⟩

theorem Passed.trans {st st' st'' : Bitset × Bool} (h : Passed n st st')
    (h' : Passed n st' st'') : Passed n st st'' := by
  refine ⟨h.keep.trans h'.keep, fun q hq => ?_, fun hf => ?_, fun ht => ?_⟩
  · obtain ⟨r, hr, hpath⟩ := h'.reach q hq
    obtain ⟨p, hp, hpath'⟩ := h.reach r hr
    exact ⟨p, hp, hpath'.append hpath⟩
  · have hstill := h'.still hf
    exact hstill.trans (h.still (hstill ▸ hf))
  · rcases h'.more ht with ht | ⟨q, hq, hnew⟩
    · rcases h.more ht with ht | ⟨q, hq, hnew⟩
      · exact .inl ht
      · exact .inr ⟨q, h'.keep hq, hnew⟩
    · exact .inr ⟨q, hq, fun hold => hnew (h.keep hold)⟩

/-- A loop of such steps. -/
theorem passed_foldl {α : Type} {f : Bitset × Bool → α → Bitset × Bool} {xs : List α}
    {st : Bitset × Bool}
    (hf : ∀ st', bits st.1 ⊆ bits st'.1 → ∀ x ∈ xs, Passed n st' (f st' x)) :
    Passed n st (xs.foldl f st) := by
  induction xs generalizing st with
  | nil => exact .refl st
  | cons x xs ih =>
    have hone := hf st subset_rfl x (List.mem_cons_self ..)
    refine hone.trans (ih fun st' hst' y hy => ?_)
    exact hf st' (hone.keep.trans hst') y (List.mem_cons_of_mem _ hy)

/-- A loop without changes has none at any step. -/
theorem eq_of_foldl_still {α : Type} {f : Bitset × Bool → α → Bitset × Bool} {xs : List α}
    {st : Bitset × Bool} (hf : ∀ st' x, (f st' x).2 = false → f st' x = st')
    (h : (xs.foldl f st).2 = false) : xs.foldl f st = st ∧ ∀ x ∈ xs, f st x = st := by
  induction xs generalizing st with
  | nil => exact ⟨rfl, nofun⟩
  | cons x xs ih =>
    rw [List.foldl_cons] at h ⊢
    obtain ⟨heq, hall⟩ := ih h
    have hx : f st x = st := hf st x (heq ▸ h)
    rw [hx] at heq hall ⊢
    refine ⟨heq, fun y hy => ?_⟩
    rcases List.mem_cons.mp hy with rfl | hy
    · exact hx
    · exact hall y hy

theorem epsEdge_still (st : Bitset × Bool) (edge : SymEdge × ℕ)
    (h : (epsEdge st edge).2 = false) : epsEdge st edge = st := by
  unfold epsEdge at h ⊢
  split
  · rename_i heps
    rw [heps] at h
    dsimp only at h
    split at h
    · rw [if_pos ‹_›]
    · cases h
  · rfl

theorem epsEdge_passed {p : ℕ} {st : Bitset × Bool} (hp : p ∈ bits st.1) {edge : SymEdge × ℕ}
    (hedge : edge ∈ n.edges p) : Passed n st (epsEdge st edge) := by
  refine ⟨fun i hi => ?_, fun q hq => ?_, epsEdge_still st edge, fun h => ?_⟩
  all_goals unfold epsEdge at *
  · split
    · split
      · exact hi
      · show i ∈ bits (bsSet _ _)
        rw [bits_bsSet]
        exact .inr hi
    · exact hi
  · split at hq
    · rename_i heps
      split at hq
      · exact ⟨q, hq, .nil q⟩
      · change q ∈ bits (bsSet _ _) at hq
        rw [bits_bsSet] at hq
        rcases hq with rfl | hq
        · exact ⟨p, hp, .single (step_nil_iff.mpr (heps ▸ hedge))⟩
        · exact ⟨q, hq, .nil q⟩
    · exact ⟨q, hq, .nil q⟩
  · split at h
    · split at h
      · exact .inl h
      · rename_i heps hget
        refine .inr ⟨edge.2, ?_, hget⟩
        rw [if_neg hget]
        show edge.2 ∈ bits (bsSet _ _)
        rw [bits_bsSet]
        exact .inl rfl
    · exact .inl h

theorem epsState_still (st : Bitset × Bool) (i : ℕ) (h : (epsState n st i).2 = false) :
    epsState n st i = st := by
  unfold epsState at h ⊢
  split at h
  · rw [if_pos ‹_›]
    exact (eq_of_foldl_still epsEdge_still h).1
  · rw [if_neg ‹_›]

theorem epsPass_passed (set : Bitset) : Passed n (set, false) (epsPass n set) := by
  refine passed_foldl fun st _ i _ => ?_
  unfold epsState
  split
  · rename_i hi
    exact passed_foldl fun st' hst' edge hedge => epsEdge_passed (hst' hi) hedge
  · exact .refl st

/-- A set that a pass does not change is closed. -/
theorem closed_of_still {set : Bitset} (h : (epsPass n set).2 = false) {p q : ℕ}
    (hp : p ∈ bits set) (hstep : n.Step p [] q) : q ∈ bits set := by
  obtain ⟨-, hall⟩ := eq_of_foldl_still epsState_still h
  have hstate := hall p (List.mem_range.mpr hstep.lt)
  rw [epsState, if_pos (mem_bits.mp hp)] at hstate
  obtain ⟨-, hedges⟩ := eq_of_foldl_still epsEdge_still (by rw [hstate])
  have hedge := hedges _ (step_nil_iff.mp hstep)
  by_contra hq
  have hget : ¬ bsGet set q = true := hq
  have hflag := congrArg Prod.snd hedge
  simp [epsEdge, hget] at hflag

/-- A closed set has what silent paths lead to. -/
theorem mem_of_path {S : Set ℕ} (hclosed : ∀ {p q}, p ∈ S → n.Step p [] q → q ∈ S) {p q : ℕ}
    {w : List UInt8} (h : Path n.Step p w q) (hw : w = []) (hp : p ∈ S) : q ∈ S := by
  induction h with
  | nil p => exact hp
  | cons hstep _ ih =>
    obtain ⟨rfl, rfl⟩ := List.append_eq_nil_iff.mp hw
    exact ih rfl (hclosed hp hstep)

/-- Silent steps stay inside the automaton. -/
def Nfa.Inside (n : Nfa) : Prop := ∀ {p u q}, n.Step p u q → q < n.size

theorem lt_of_path (hin : n.Inside) {p q : ℕ} {w : List UInt8} (h : Path n.Step p w q)
    (hp : p < n.size) : q < n.size := by
  induction h with
  | nil p => exact hp
  | cons hstep _ ih => exact ih (hin hstep)

/-- The loop ends with a closed set. -/
theorem epsLoop_spec (hin : n.Inside) {fuel : ℕ} {set : Bitset}
    (hset : bits set ⊆ Set.Iio n.size)
    (hfuel : n.size < fuel + ((Finset.range n.size).filter (bsGet set ·)).card) :
    bits set ⊆ bits (epsLoop n fuel set) ∧
      (∀ q ∈ bits (epsLoop n fuel set), ∃ p ∈ bits set, Path n.Step p [] q) ∧
      ∀ {p q}, p ∈ bits (epsLoop n fuel set) → n.Step p [] q → q ∈ bits (epsLoop n fuel set) := by
  induction fuel generalizing set with
  | zero =>
    have := Finset.card_filter_le (Finset.range n.size) (bsGet set ·)
    rw [Finset.card_range] at this
    omega
  | succ fuel ih =>
    have hpass := epsPass_passed (n := n) set
    rw [epsLoop]
    split
    · rename_i hmore
      have hset' : bits (epsPass n set).1 ⊆ Set.Iio n.size := by
        intro q hq
        obtain ⟨p, hp, hpath⟩ := hpass.reach q hq
        exact lt_of_path hin hpath (hset hp)
      have hcard : ((Finset.range n.size).filter (bsGet set ·)).card <
          ((Finset.range n.size).filter (bsGet (epsPass n set).1 ·)).card := by
        obtain ⟨q, hq, hnew⟩ := (hpass.more hmore).resolve_left Bool.false_ne_true
        refine Finset.card_lt_card (Finset.ssubset_iff_of_subset ?_ |>.mpr ⟨q, ?_, ?_⟩)
        · exact Finset.monotone_filter_right _ fun i _ hi => hpass.keep hi
        · exact Finset.mem_filter.mpr ⟨Finset.mem_range.mpr (hset' hq), hq⟩
        · exact fun hold => hnew (Finset.mem_filter.mp hold).2
      obtain ⟨hkeep, hreach, hclosed⟩ := ih hset' (by omega)
      refine ⟨hpass.keep.trans hkeep, fun q hq => ?_, hclosed⟩
      obtain ⟨r, hr, hpath⟩ := hreach q hq
      obtain ⟨p, hp, hpath'⟩ := hpass.reach r hr
      exact ⟨p, hp, hpath'.append hpath⟩
    · rename_i hstill
      exact ⟨subset_rfl, fun q hq => ⟨q, hq, .nil q⟩,
        closed_of_still (Bool.eq_false_iff.mpr hstill)⟩

/-- **The closure.** -/
theorem mem_epsClosure (hin : n.Inside) {set : Bitset} (hset : bits set ⊆ Set.Iio n.size) {q : ℕ} :
    q ∈ bits (epsClosure n set) ↔ ∃ p ∈ bits set, Path n.Step p [] q := by
  obtain ⟨hkeep, hreach, hclosed⟩ :=
    epsLoop_spec hin hset (show n.size < n.size + 1 + _ by omega)
  exact ⟨hreach q, fun ⟨p, hp, hpath⟩ => mem_of_path hclosed hpath rfl (hkeep hp)⟩

end Closure

/-! ## Moves -/

section Move

variable {n : Nfa} {set : Bitset} {byte : UInt8}

theorem bits_foldl_moveEdge (es : List (SymEdge × ℕ)) (next : Bitset) {q : ℕ} :
    q ∈ bits (es.foldl (moveEdge byte) next) ↔
      q ∈ bits next ∨ ∃ edge ∈ es, symMatches byte edge.1 = true ∧ edge.2 = q := by
  induction es generalizing next with
  | nil => simp
  | cons edge es ih =>
    rw [List.foldl_cons, ih, moveEdge]
    split
    · rename_i hmatch
      simp only [bits_bsSet, Set.mem_insert_iff, List.mem_cons, exists_eq_or_imp, hmatch,
        true_and]
      rw [eq_comm (a := q)]
      tauto
    · rename_i hmatch
      simp only [List.mem_cons, exists_eq_or_imp, hmatch]
      tauto

theorem bits_foldl_moveState (is : List ℕ) (next : Bitset) {q : ℕ} :
    q ∈ bits (is.foldl (moveState n set byte) next) ↔
      q ∈ bits next ∨ ∃ p ∈ is, p ∈ bits set ∧ n.Step p [byte] q := by
  induction is generalizing next with
  | nil => simp
  | cons i is ih =>
    rw [List.foldl_cons, ih, moveState]
    split
    · rename_i hi
      simp only [bits_foldl_moveEdge, ← step_byte_iff, List.mem_cons, exists_eq_or_imp,
        mem_bits.mpr hi, true_and]
      tauto
    · rename_i hi
      have hno : i ∉ bits set := hi
      simp only [List.mem_cons, exists_eq_or_imp, hno, false_and, false_or]

/-- **A move.** -/
theorem mem_move (hin : n.Inside) {q : ℕ} :
    q ∈ bits (move n set byte) ↔
      ∃ p ∈ bits set, ∃ r, n.Step p [byte] r ∧ Path n.Step r [] q := by
  have hmem : ∀ {r}, r ∈ bits ((List.range n.size).foldl (moveState n set byte) 0) ↔
      ∃ p ∈ bits set, n.Step p [byte] r := by
    intro r
    rw [bits_foldl_moveState, bits_zero]
    constructor
    · rintro (hr | ⟨p, -, hp, hstep⟩)
      · exact absurd hr (Set.notMem_empty r)
      · exact ⟨p, hp, hstep⟩
    · exact fun ⟨p, hp, hstep⟩ => .inr ⟨p, List.mem_range.mpr hstep.lt, hp, hstep⟩
  rw [move, mem_epsClosure hin fun r hr => ?_]
  · constructor
    · rintro ⟨r, hr, hpath⟩
      obtain ⟨p, hp, hstep⟩ := hmem.mp hr
      exact ⟨p, hp, r, hstep, hpath⟩
    · rintro ⟨p, hp, r, hstep, hpath⟩
      exact ⟨r, hmem.mpr ⟨p, hp, hstep⟩, hpath⟩
  · obtain ⟨p, -, hstep⟩ := hmem.mp hr
    exact hin hstep

end Move

/-! ## The map -/

section Map

variable {nwords : ℕ} {t : Table Bitset} {S : Set (Bitset × ℕ)}

theorem dsmInsert_spec (hinv : Inv (bsHash nwords) t S) (hused : t.used < t.cap) (bs : Bitset)
    (new : ℕ) : ∃ t' id isNew, dsmInsert nwords t bs new = (t', id, isNew) ∧
      (isNew = false ∧ (bs, id) ∈ S ∧ Inv (bsHash nwords) t' S ∨
        isNew = true ∧ id = new ∧ (∀ id, (bs, id) ∉ S) ∧
          Inv (bsHash nwords) t' (insert (bs, new) S)) := by
  unfold dsmInsert
  rcases hinv.probe hused bs with ⟨id, hid, hres⟩ | ⟨hno, D, hD, hslot, hpath, hres⟩
  · exact ⟨t, id, false, by simp only [hres], .inl ⟨rfl, hid, hinv⟩⟩
  · exact ⟨_, new, true, by simp only [hres],
      .inr ⟨rfl, rfl, hno, hinv.put hno hslot hD hpath new⟩⟩

/-- **The map numbers the sets.** -/
theorem dsmFindOrAdd_spec (n : Nfa) : FindSpec (bsHash n.words) (subsetMachine n) := by
  intro t S bs new hinv
  show ∃ t' id isNew, dsmFindOrAdd n.words t bs new = (t', id, isNew) ∧ _
  have hgrown := hinv.grow
  have hpos := hinv.cap_pos
  have hle := hinv.used_le
  have hlarger : (grow (bsHash n.words) t).used < (grow (bsHash n.words) t).cap := by
    rw [hgrown.2.1, hgrown.2.2]
    omega
  have hafter := dsmInsert_spec hgrown.1 hlarger bs new
  unfold dsmFindOrAdd
  split
  · rename_i id hres
    obtain ⟨p, hp, k, hslot, hk⟩ := probe_found (Nat.mod_lt _ hpos) hres
    obtain rfl : k = bs := of_decide_eq_true hk
    exact ⟨t, id, false, rfl, .inl ⟨rfl, (hinv.mem _).mpr ⟨p, hp, hslot⟩, hinv⟩⟩
  · rename_i idx hres
    split
    · exact hafter
    · rcases hinv.probe (by omega) bs with ⟨id, -, hres'⟩ | ⟨hno, D, hD, hslot, hpath, hres'⟩
      · rw [hres] at hres'
        cases hres'
      · rw [hres] at hres'
        cases hres'
        exact ⟨_, new, true, rfl, .inr ⟨rfl, rfl, hno, hinv.put hno hslot hD hpath new⟩⟩
  · exact hafter

end Map

/-! ## The deterministic automaton -/

section Run

variable {n : Nfa}

/-- The set after a string holds the states its paths lead to. -/
theorem subsetMachine_run (hin : n.Inside) (hpos : 0 < n.size) (w : List UInt8) :
    match (w.map (·.toNat)).foldlM (subsetMachine n).step (subsetMachine n).start with
    | some set => ∀ q, q ∈ bits set ↔ Path n.Step 0 w q
    | none => ∀ q, ¬ Path n.Step 0 w q := by
  induction w using List.reverseRecOn with
  | nil =>
    intro q
    have hstart : bits (bsSet 0 0) = {0} := by rw [bits_bsSet, bits_zero, insert_empty_eq]
    show q ∈ bits (epsClosure n (bsSet 0 0)) ↔ _
    rw [mem_epsClosure hin (by rw [hstart]; exact Set.singleton_subset_iff.mpr hpos), hstart]
    simp
  | append_singleton w b ih =>
    have hsnoc : ∀ q, Path n.Step 0 (w ++ [b]) q ↔
        ∃ p r, Path n.Step 0 w p ∧ n.Step p [b] r ∧ Path n.Step r [] q := by
      intro q
      constructor
      · exact fun h => h.of_snoc fun hstep => hstep.short
      · rintro ⟨p, r, hpath, hstep, hend⟩
        simpa using hpath.append (.cons hstep hend)
    rw [List.map_append, List.foldlM_append]
    cases hrun : (w.map (·.toNat)).foldlM (subsetMachine n).step (subsetMachine n).start with
    | none =>
      rw [hrun] at ih
      rintro q hq
      obtain ⟨p, r, hpath, -, -⟩ := (hsnoc q).mp hq
      exact ih p hpath
    | some set =>
      rw [hrun] at ih
      have hmove : ∀ q, q ∈ bits (move n set b) ↔ Path n.Step 0 (w ++ [b]) q := by
        intro q
        rw [mem_move hin, hsnoc]
        constructor
        · rintro ⟨p, hp, r, hstep, hend⟩
          exact ⟨p, r, (ih p).mp hp, hstep, hend⟩
        · rintro ⟨p, r, hpath, hstep, hend⟩
          exact ⟨p, (ih p).mpr hpath, r, hstep, hend⟩
      have hstep : (subsetMachine n).step set b.toNat =
          if move n set b = 0 then none else some (move n set b) := by
        simp only [subsetMachine, UInt8.ofNat_toNat]
      simp only [List.map_cons, List.map_nil, List.foldlM_cons, List.foldlM_nil,
        Option.bind_eq_bind, Option.bind_some]
      by_cases hzero : move n set b = 0
      · rw [hstep, if_pos hzero]
        intro q hq
        have := (hmove q).mpr hq
        rw [eq_zero_iff_bits.mp hzero] at this
        exact this
      · rw [hstep, if_neg hzero]
        exact hmove

theorem bsHasAccept_iff {set : Bitset} :
    bsHasAccept set n = true ↔ ∃ i ∈ bits set, n.Accepting i := by
  unfold bsHasAccept Nfa.Accepting
  simp only [List.any_eq_true, List.mem_range, Bool.and_eq_true, Option.any_eq_true]
  constructor
  · rintro ⟨i, -, hi, st, hst, hacc⟩
    exact ⟨i, hi, st, hst, hacc⟩
  · rintro ⟨i, hi, st, hst, hacc⟩
    exact ⟨i, (List.getElem?_eq_some_iff.mp hst).1, hi, st, hst, hacc⟩

/-- **The sets of states accept what the automaton accepts.** -/
theorem subsetMachine_accepts (hin : n.Inside) (hpos : 0 < n.size) (w : List UInt8) :
    (∃ set, (w.map (·.toNat)).foldlM (subsetMachine n).step (subsetMachine n).start = some set ∧
        (subsetMachine n).accept set = true) ↔
      ∃ i, Path n.Step 0 w i ∧ n.Accepting i := by
  have hrun := subsetMachine_run hin hpos w
  cases hset : (w.map (·.toNat)).foldlM (subsetMachine n).step (subsetMachine n).start with
  | none =>
    rw [hset] at hrun
    constructor
    · rintro ⟨set, hno, -⟩
      cases hno
    · rintro ⟨i, hpath, -⟩
      exact absurd hpath (hrun i)
  | some set =>
    rw [hset] at hrun
    simp only [Option.some.injEq, exists_eq_left']
    show bsHasAccept set n = true ↔ _
    rw [bsHasAccept_iff]
    exact exists_congr fun i => and_congr_left fun _ => hrun i

end Run

/-! ## The automaton of a pattern -/

/-- **The automaton of a pattern** accepts what the pattern, as the parser reads it,
matches. -/
theorem regexNfa_spec {pattern : List UInt8} {n : Nfa} (hne : pattern ≠ [])
    (h : regexNfa pattern = .ok n) :
    n.Inside ∧ 0 < n.size ∧ ∃ r, ReadsPattern codeClass pattern r ∧
      ∀ w, (∃ i, Path n.Step 0 w i ∧ n.Accepting i) ↔ w ∈ r.lang := by
  unfold regexNfa at h
  split at h
  · cases h
  rename_i n₁ p e hregex
  split at h
  · cases h
  rename_i herr
  obtain ⟨r, hreads, hbuilt⟩ := rxRegex_sound hne hregex herr
  obtain ⟨hs, hs', ha, ha'⟩ := hbuilt.lt
  simp only [size_addState] at hs ha
  have hpos : 0 < n₁.size := by omega
  obtain ⟨hsize, hstep, hacc⟩ := addEdge_spec (by simpa using hpos) h
  simp only [size_setAccept, step_setAccept] at hsize hstep
  have hfirst : ∀ u q, ¬ n₁.Step 0 u q := by
    intro u q hold
    have hold := (step_addState (n := ⟨[]⟩) false).mp ((hbuilt.steps 0 (by simp) u q).mp hold)
    exact absurd hold.lt (Nat.not_lt_zero _)
  have hfrag := hbuilt.frag.congr fun p hp u q => show n.Step p u q ↔ _ by
    rw [hstep]
    have := hp.1
    simp only [size_addState] at this
    exact or_iff_left fun hnew => by omega
  have hin : n.Inside := by
    intro p u q hpq
    rw [hsize]
    rcases (hstep p u q).mp hpq with hold | ⟨-, rfl, -⟩
    · by_cases hp : p = 0
      · exact absurd (hp ▸ hold) (hfirst u q)
      · have hmem : p ∈ Set.Ico (nfaAddState ⟨[]⟩ false).1.size n₁.size := by
          refine ⟨?_, hold.lt⟩
          show 1 ≤ p
          omega
        exact (hbuilt.frag.inside hmem hold).2
    · exact hs'
  have haccept : ∀ i, n.Accepting i ↔ i = e.accept := by
    intro i
    rw [hacc, accepting_setAccept (by simpa using hpos), accepting_setAccept ha']
    by_cases hi : i = 0
    · rw [if_pos hi]
      simp only [Bool.false_eq_true, false_iff]
      omega
    · rw [if_neg hi]
      split
      · rename_i hie
        simp [hie]
      · exact hbuilt.accepts i (by show 1 ≤ i; omega)
  have hbegin : ∀ {i w}, i ≠ 0 → Path n.Step 0 w i → Path n.Step e.start w i := by
    intro i w hi hpath
    cases hpath with
    | nil => exact absurd rfl hi
    | cons hone hrest =>
      rcases (hstep _ _ _).mp hone with hold | ⟨-, rfl, hu⟩
      · exact absurd hold (hfirst _ _)
      · obtain rfl : _ = [] := hu
        exact hrest
  refine ⟨hin, hsize ▸ hpos, r, hreads, fun w => ?_⟩
  rw [← hfrag.lang w]
  constructor
  · rintro ⟨i, hpath, hi⟩
    rw [(haccept i).mp hi] at hpath
    exact hbegin (by omega) hpath
  · intro hpath
    refine ⟨e.accept, ?_, (haccept _).mpr rfl⟩
    exact .cons (u := []) ((hstep _ _ _).mpr (.inr ⟨rfl, rfl, rfl⟩)) hpath

end DatalogDafsa.Regex
