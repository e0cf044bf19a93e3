import DatalogDafsa.Intern.Table
import DatalogDafsa.Regex.Compile
import DatalogDafsa.Regex.Lev

/-!
# Matching the symbols

There are two ways to find the symbols whose names an automaton accepts: run it over each
name of the table, or walk the automaton of the keys `name \0 number` and it side by side.
The walk keeps the pairs of states on its path in a table of its own, from which a pair is
taken by clearing its slot, and goes no deeper where a pair is on the path already.

The engine of the automaton of the keys is not part of the repository: `Auto` is what the
walk reads of it.  Allocation does not fail, and the counters of the table of the path are
natural numbers.  A probe or a walk that does not end returns nothing.  The callback never
stops early: what it is handed is collected.

## Main definitions

* `Auto`, `Auto.Stores` — an automaton, and what is known of one that stores keys.
* `VisitedSet`, `vsTryInsert`, `vsRemove` — the path.
* `walkStep`, `symbolsDfaWalk` — the walk.
* `symbolsScanTable` — the scan.
-/

namespace DatalogDafsa.Regex

open Intern

/-! ## Automata of keys -/

/-- What the walk reads of an automaton. -/
structure Auto where
  /-- The initial state. -/
  initial : ℕ
  /-- The transitions of a state. -/
  edges : ℕ → List (UInt8 × ℕ)
  /-- The final states. -/
  final : ℕ → Bool

/-- The state behind a word. -/
def Auto.run (A : Auto) : ℕ → List UInt8 → Option ℕ
  | q, [] => some q
  | q, b :: w =>
    match (A.edges q).lookup b with
    | none => none
    | some t => A.run t w

/-- What is known of an automaton that stores keys: it is deterministic, accepts the keys,
has no transition that leads nowhere, and its states have numbers of 32 bits. -/
structure Auto.Stores (A : Auto) (keys : Finset Key) : Prop where
  /-- It is deterministic. -/
  det : ∀ q, ((A.edges q).map Prod.fst).Nodup
  /-- Every transition leads to a final state. -/
  trim : ∀ w q b t, A.run A.initial w = some q → (b, t) ∈ A.edges q →
    ∃ x p, A.run t x = some p ∧ A.final p = true
  /-- It accepts the keys. -/
  mem : ∀ w, w ∈ keys ↔ ∃ q, A.run A.initial w = some q ∧ A.final q = true
  /-- The numbers of the states. -/
  small : ∀ w q, A.run A.initial w = some q → q < 2 ^ 32

/-! ## The path -/

/-- `VISITED_INIT_CAP`. -/
def visitedInitCap : ℕ := 1024

/-- `VisitedSet`: a slot with `0` is empty. -/
structure VisitedSet where
  /-- The slots. -/
  keys : ℕ → ℕ
  /-- How many slots. -/
  cap : ℕ
  /-- How many keys. -/
  used : ℕ

/-- `vsInit`. -/
def vsInit : VisitedSet := ⟨fun _ => 0, visitedInitCap, 0⟩

/-- `vsHashKey`. -/
def vsHashKey (k : ℕ) : ℕ :=
  ((List.range 8).foldl
    (fun (h : UInt64 × ℕ) _ => ((h.1 ^^^ UInt64.ofNat (h.2 % 256)) * 1099511628211, h.2 / 256))
    (14695981039346656037, k)).1.toNat

/-- The first slot from `idx` on that is empty, or where the search stops. -/
def vsProbe (keys : ℕ → ℕ) (cap : ℕ) (stop : ℕ → Bool) : ℕ → ℕ → Option ℕ
  | 0, _ => none
  | fuel + 1, idx =>
    if keys idx = 0 ∨ stop (keys idx) = true then some idx
    else vsProbe keys cap stop fuel ((idx + 1) % cap)

/-- The loop of `vsGrow`. -/
def vsRehash (old : ℕ → ℕ) (newCap : ℕ) (nk : ℕ → ℕ) (i : ℕ) : Option (ℕ → ℕ) :=
  if old i = 0 then some nk
  else (vsProbe nk newCap (fun _ => false) newCap (vsHashKey (old i) % newCap)).map fun idx =>
    Function.update nk idx (old i)

/-- `vsGrow`. -/
def vsGrow (vs : VisitedSet) : Option VisitedSet :=
  ((List.range vs.cap).foldlM (vsRehash vs.keys (vs.cap * 2)) fun _ => 0).map fun nk =>
    ⟨nk, vs.cap * 2, vs.used⟩

/-- `vsTryInsert`, and whether the key was there. -/
def vsTryInsert (vs : VisitedSet) (key : ℕ) : Option (VisitedSet × Bool) :=
  match if vs.cap * 3 ≤ vs.used * 4 then vsGrow vs else some vs with
  | none => none
  | some vs =>
    match vsProbe vs.keys vs.cap (· == key) vs.cap (vsHashKey key % vs.cap) with
    | none => none
    | some idx =>
      if vs.keys idx ≠ 0 then some (vs, true)
      else some ({ vs with keys := Function.update vs.keys idx key, used := vs.used + 1 }, false)

/-- `vsRemove`. -/
def vsRemove (vs : VisitedSet) (key : ℕ) : Option VisitedSet :=
  match vsProbe vs.keys vs.cap (· == key) vs.cap (vsHashKey key % vs.cap) with
  | none => none
  | some idx =>
    if vs.keys idx ≠ 0 then
      some { vs with keys := Function.update vs.keys idx 0, used := vs.used - 1 }
    else some vs

/-! ## The walk -/

/-- `SpFrame`. -/
structure SpFrame where
  /-- The state of the automaton of the keys. -/
  dstate : ℕ
  /-- The state of the automaton that matches. -/
  rstate : ℕ
  /-- How deep. -/
  depth : ℕ
  /-- The next transition. -/
  j : ℕ
  /-- Were the keys that end here looked at? -/
  entered : Bool

/-- The pair of states, in 32 bits each. -/
def SpFrame.vkey (f : SpFrame) : ℕ := f.dstate * 2 ^ 32 + f.rstate % 2 ^ 32

/-- The stack, the path, and what was handed to the callback. -/
structure WalkSt where
  /-- The frames, the youngest first. -/
  stack : List SpFrame
  /-- The path. -/
  visited : VisitedSet
  /-- The symbols. -/
  out : List ℕ

variable (A : Auto) (d : Dfa)

/-- `readSymId`: the bytes of a number, each behind the only transition of a state. -/
def readSymId : ℕ → ℕ → ℕ → Option ℕ
  | 0, _, id => some id
  | n + 1, cur, id =>
    match A.edges cur with
    | [(sym, target)] => readSymId n target (id * 2 ^ 8 % 2 ^ 32 + sym.toNat)
    | _ => none

/-- The symbols of the keys that end in a frame. -/
def enterFrame (f : SpFrame) : List ℕ :=
  (A.edges f.dstate).filterMap fun e =>
    if e.1 = 0 ∧ d.accept.getD f.rstate false = true then readSymId A 4 e.2 0 else none

/-- The next frame among transitions, and the transition behind it. -/
def nextChild (rstate depth : ℕ) : List (UInt8 × ℕ) → ℕ → Option (SpFrame × ℕ)
  | [], _ => none
  | (sym, target) :: es, j =>
    if sym = 0 ∨ d.next rstate sym = dfaDead ∨ maxWordLen ≤ depth + 1 then
      nextChild rstate depth es (j + 1)
    else some (⟨target, d.next rstate sym, depth + 1, 0, false⟩, j + 1)

/-- A round of the loop of `symProdDfs`; entering a frame and going down from it are two
rounds here. -/
def walkStep (st : WalkSt) : Option WalkSt :=
  match st.stack with
  | [] => some st
  | f :: rest =>
    if f.entered = false then
      match vsTryInsert st.visited f.vkey with
      | none => none
      | some (vs, true) => some ⟨rest, vs, st.out ++ enterFrame A d f⟩
      | some (vs, false) =>
        some ⟨{ f with entered := true } :: rest, vs, st.out ++ enterFrame A d f⟩
    else
      match nextChild d f.rstate f.depth ((A.edges f.dstate).drop f.j) f.j with
      | some (child, j) => some ⟨child :: { f with j } :: rest, st.visited, st.out⟩
      | none => (vsRemove st.visited f.vkey).map fun vs => ⟨rest, vs, st.out⟩

/-- The loop of `symProdDfs`. -/
def walkLoop : ℕ → WalkSt → Option WalkSt
  | 0, _ => none
  | fuel + 1, st =>
    if st.stack = [] then some st
    else
      match walkStep A d st with
      | none => none
      | some st => walkLoop fuel st

/-- `symbols_dfa_walk`. -/
def symbolsDfaWalk (fuel : ℕ) : Option (List ℕ) :=
  if d.nStates = 0 then some []
  else (walkLoop A d fuel ⟨[⟨A.initial, 0, 0, 0, false⟩], vsInit, []⟩).map (·.out)

/-! ## The scan -/

/-- `SYMBOL_NAME_MAX`. -/
def symbolNameMax : ℕ := maxWordLen

/-- `liveSymBound`. -/
def liveSymBound (s : Interner) : ℕ := s.nextId

/-- Does the scan hand on a symbol? -/
def scanAccepts (s : Interner) (id : ℕ) : Bool :=
  match internStrOf s id with
  | none => false
  | some name =>
    if symbolNameMax < name.length then false
    else
      match d.walk 0 name with
      | none => false
      | some rs => d.accept.getD rs false

/-- `symbolsScanTable`. -/
def symbolsScanTable (s : Interner) (bound : ℕ) : List ℕ :=
  if d.nStates = 0 then [] else (List.range' 1 (bound - 1)).filter (scanAccepts d s)

/-! ## Compiled automata -/

/-- An automaton that was compiled from a pattern, or from a word and a distance. -/
def Compiled : Prop :=
  (∃ pattern, regexCompile pattern = .ok d) ∨ ∃ pattern k, levCompile pattern k = .ok d

end DatalogDafsa.Regex
