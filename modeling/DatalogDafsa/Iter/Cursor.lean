import DatalogDafsa.LazyRelation
import DatalogDafsa.Regex.KeyAuto
import DatalogDafsa.Lib.MergeJoin

/-!
# Iterators and the merge join

An iterator walks the automaton of a relation depth first and hands out one tuple a
call.  It keeps a stack of at most 34 states, each with the place of its next edge,
and the bytes of the edges taken.  An automaton in memory keeps its edges in an
array, and the place is an index; a mapped file is read through the automaton's
library, and the place is a cursor of that library.

The join of two iterators on their leading columns buffers the right tuples of a key
and pairs them with each left tuple of it.

## Main definitions

* `Engine`, `live` — what an iterator reads.
* `DlIter`, `dlIterOpen`, `dlIterSeek`, `dlIterNext` — the iterator.
* `dlMergeJoin` — the join.
-/

namespace DatalogDafsa.Iter

open Regex (Auto)

/-! ## What an iterator reads -/

/-- An automaton as an iterator reads it; `C` holds the places of edges. -/
structure Engine (C : Type) where
  /-- The initial state. -/
  initial : ℕ
  /-- The final states. -/
  isFinal : ℕ → Bool
  /-- `trans_find` and `view_trans_find`. -/
  find : ℕ → UInt8 → Option ℕ
  /-- The place of the first edge of a state. -/
  first : ℕ → C
  /-- The edge at a place, and the next place. For a mapped file, `view_edge_next`. -/
  next : ℕ → C → Option ((UInt8 × ℕ) × C)

/-- `DL_ITER_LIVE`: the places are indices into the array of edges. -/
def live (A : Auto) : Engine ℕ where
  initial := A.initial
  isFinal := A.final
  find q b := (A.edges q).lookup b
  first _ := 0
  next q i := (A.edges q)[i]?.map (·, i + 1)

/-- The bytes of a column, most significant first. -/
def colBe (v : Val) : List UInt8 :=
  [(v >>> 24).toUInt8, (v >>> 16).toUInt8, (v >>> 8).toUInt8, v.toUInt8]

/-- The key of a row. -/
def encodeRow (r : Row) : List UInt8 := r.flatMap colBe ++ [0]

/-- A column from four bytes. -/
def readCol (b₀ b₁ b₂ b₃ : UInt8) : Val :=
  b₀.toUInt32 <<< 24 ||| b₁.toUInt32 <<< 16 ||| b₂.toUInt32 <<< 8 ||| b₃.toUInt32

/-- `read_cols_be`. -/
def readColsBe (buf : ℕ → UInt8) (arity : ℕ) : Row :=
  (List.range arity).map fun i =>
    readCol (buf (4 * i)) (buf (4 * i + 1)) (buf (4 * i + 2)) (buf (4 * i + 3))

/-! ## Iterators -/

/-- `DL_ITER_MAX_FRAMES`. -/
def dlIterMaxFrames : ℕ := 34

/-- `struct dl_iter`. -/
structure DlIter (C : Type) where
  /-- The automaton: `d` or `v`. -/
  engine : Engine C
  /-- The number of columns. -/
  arity : ℕ
  /-- The bound leading columns, `k` of them. -/
  leading : Row
  /-- Past the last tuple? -/
  exhausted : Bool
  /-- The stack of states and places, top first. -/
  frames : List (ℕ × C)
  /-- The bytes of the edges on the stack. -/
  buf : ℕ → UInt8

/-- Why a call does not answer. -/
inductive Stop
  /-- The answer `-1`: the stack is full. -/
  | depth
  /-- The top of an empty stack is read. -/
  | noFrame
  /-- The loop has not ended within the fuel. -/
  | fuel
  deriving DecidableEq

variable {C C' : Type}

/-- `iter_walk_prefix`. -/
def iterWalkPrefix (E : Engine C) (leading : Row) : Option ℕ :=
  (leading.flatMap colBe).foldlM (fun q b => E.find q b) E.initial

/-- `iter_reset_stack`. -/
def iterResetStack (it : DlIter C) : Option ℕ → DlIter C
  | none => { it with exhausted := true, frames := [] }
  | some root => { it with exhausted := false, frames := [(root, it.engine.first root)] }

/-- `dl_iter_open` and `dl_iter_open_live`, once the relation is resolved. -/
def dlIterOpen (E : Engine C) (arity : ℕ) (leading : Row) : Option (DlIter C) :=
  if arity < leading.length then none
  else some (iterResetStack ⟨E, arity, leading, false, [], fun _ => 0⟩ (iterWalkPrefix E leading))

/-- `dl_iter_seek`. -/
def dlIterSeek (it : DlIter C) (leading : Row) : Option (DlIter C) :=
  if it.arity < leading.length then none
  else some (iterResetStack { it with leading } (iterWalkPrefix it.engine leading))

/-- The iterator with another stack; an empty one is the end. -/
def DlIter.popTo (it : DlIter C) (frames : List (ℕ × C)) : DlIter C :=
  { it with frames, exhausted := if frames = [] then true else it.exhausted }

/-- The loop of `dl_iter_next`. -/
def iterLoop : ℕ → DlIter C → Except Stop (Option Row × DlIter C)
  | 0, _ => .error .fuel
  | fuel + 1, it =>
    match it.frames with
    | [] => .error .noFrame
    | (state, place) :: fs =>
      if it.engine.isFinal state then
        .ok (some (it.leading ++ readColsBe it.buf (it.arity - it.leading.length)), it.popTo fs)
      else if dlIterMaxFrames ≤ it.frames.length then .error .depth
      else
        match it.engine.next state place with
        | none => if fs = [] then .ok (none, it.popTo fs) else iterLoop fuel (it.popTo fs)
        | some ((sym, tgt), place) =>
          iterLoop fuel
            { it with
              frames := (tgt, it.engine.first tgt) :: (state, place) :: fs
              buf := Function.update it.buf (it.frames.length - 1) sym }

/-- `dl_iter_next`: a tuple, or nothing at the end. -/
def dlIterNext (fuel : ℕ) (it : DlIter C) : Except Stop (Option Row × DlIter C) :=
  if it.exhausted then .ok (none, it) else iterLoop fuel it

/-! ## The join -/

/-- `mj_keys_equal`. -/
def mjKeysEqual (a b : Row) (j : ℕ) : Bool :=
  (List.range j).all fun i => a.getD i 0 = b.getD i 0

/-- The comparison of two tuples on their leading columns: from column `i` on, `n` of
them. -/
def cmpKeys (a b : Row) : ℕ → ℕ → Ordering
  | _, 0 => .eq
  | i, n + 1 =>
    if a.getD i 0 < b.getD i 0 then .lt
    else if b.getD i 0 < a.getD i 0 then .gt
    else cmpKeys a b (i + 1) n

/-- What a join leaves. -/
structure JoinEnd (C C' : Type) where
  /-- The pairs handed to the callback. -/
  pairs : List (Row × Row)
  /-- Their number. -/
  emitted : ℕ
  /-- The left iterator. -/
  l : DlIter C
  /-- The right iterator. -/
  r : DlIter C'

/-- The loop that buffers a run of right tuples: the buffer, the tuple after the run, and
the iterator. -/
def bufferRun (fuel jcols : ℕ) : ℕ → List Row → Row → DlIter C' →
    Except Stop (List Row × Option Row × DlIter C')
  | 0, _, _, _ => .error .fuel
  | turns + 1, rbuf, rt, r =>
    let rbuf := rbuf ++ [rt]
    (dlIterNext fuel r).bind fun nxt =>
      match nxt.1 with
      | none => .ok (rbuf, none, nxt.2)
      | some rt =>
        if mjKeysEqual rt (rbuf.headD []) jcols then bufferRun fuel jcols turns rbuf rt nxt.2
        else .ok (rbuf, some rt, nxt.2)

/-- The loop that pairs a run of left tuples with the buffer. -/
def crossRun (fuel jcols : ℕ) (rbuf : List Row) : ℕ → List (Row × Row) → ℕ → Row → DlIter C →
    Except Stop (List (Row × Row) × ℕ × Option Row × DlIter C)
  | 0, _, _, _, _ => .error .fuel
  | turns + 1, out, emitted, lt, l =>
    let out := out ++ rbuf.map (lt, ·)
    let emitted := emitted + rbuf.length
    (dlIterNext fuel l).bind fun nxt =>
      match nxt.1 with
      | none => .ok (out, emitted, none, nxt.2)
      | some lt =>
        if mjKeysEqual lt (rbuf.headD []) jcols then
          crossRun fuel jcols rbuf turns out emitted lt nxt.2
        else .ok (out, emitted, some lt, nxt.2)

/-- The loops that exhaust an iterator. -/
def drain (fuel : ℕ) : ℕ → Option Row → DlIter C → Except Stop (DlIter C)
  | _, none, it => .ok it
  | 0, some _, _ => .error .fuel
  | turns + 1, some _, it => (dlIterNext fuel it).bind fun nxt => drain fuel turns nxt.1 nxt.2

/-- The main loop of `dl_merge_join`, and what follows it. -/
def joinLoop (fuel jcols : ℕ) : ℕ → List (Row × Row) → ℕ → Option Row → DlIter C →
    Option Row → DlIter C' → Except Stop (JoinEnd C C')
  | 0, _, _, _, _, _, _ => .error .fuel
  | turns + 1, out, emitted, some lt, l, some rt, r =>
    match cmpKeys lt rt 0 jcols with
    | .lt => (dlIterNext fuel l).bind fun nxt =>
        joinLoop fuel jcols turns out emitted nxt.1 nxt.2 (some rt) r
    | .gt => (dlIterNext fuel r).bind fun nxt =>
        joinLoop fuel jcols turns out emitted (some lt) l nxt.1 nxt.2
    | .eq => (bufferRun fuel jcols fuel [] rt r).bind fun b =>
        (crossRun fuel jcols b.1 fuel out emitted lt l).bind fun c =>
          joinLoop fuel jcols turns c.1 c.2.1 c.2.2.1 c.2.2.2 b.2.1 b.2.2
  | _ + 1, out, emitted, lt, l, rt, r =>
    (drain fuel fuel lt l).bind fun l => (drain fuel fuel rt r).map fun r => ⟨out, emitted, l, r⟩

/-- `dl_merge_join`, with a callback that never stops it; `none` is its answer `-1` for a
bad number of columns. -/
def dlMergeJoin (fuel : ℕ) (l : DlIter C) (r : DlIter C') (jcols : ℕ) :
    Option (Except Stop (JoinEnd C C')) :=
  if jcols = 0 ∨ l.arity < jcols ∨ r.arity < jcols then none
  else some ((dlIterNext fuel l).bind fun lt =>
    (dlIterNext fuel r).bind fun rt => joinLoop fuel jcols fuel [] 0 lt.1 lt.2 rt.1 rt.2)

end DatalogDafsa.Iter
