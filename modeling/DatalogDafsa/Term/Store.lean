import DatalogDafsa.Dafsa
import DatalogDafsa.Lib.Probe

/-!
# The store of lists

A list is a handle: `termNil`, or the number of a node with an element and the handle of
the rest.  A node is looked for in a table before it is made.  The store is saved as text,
a line for each node, and read back by making the nodes again.

Allocation and input and output do not fail.  A loop that the source bounds by nothing
runs on fuel here, and returns nothing when it runs out.  The mask `ht_cap - 1` of the
table is the remainder, as its capacity is a power of two.

## Main definitions

* `Termstore`, `termCons`, `termAppend`, `termLength` — lists.
* `termSave`, `termLoad` — the text.
* `TermCall`, `termRun` — sequences of calls.
-/

namespace DatalogDafsa

/-- `TERM_INIT_NODES`. -/
def termInitNodes : ℕ := 64

/-- `TERM_INIT_HASH`. -/
def termInitHash : ℕ := 128

/-- `TERM_MAX_NODES`. -/
def termMaxNodes : ℕ := 2 ^ 26

/-- `TERM_BASE`. -/
def termBase : Val := 0x80000000

/-- `TERM_NIL`. -/
def termNil : Val := termBase

/-- An element and the handle of the rest. -/
abbrev Cell := Val × Val

/-- `Termstore`. -/
structure Termstore where
  /-- `head` and `tail` of the nodes. -/
  nodes : List Cell
  /-- Room for nodes. -/
  cap : ℕ
  /-- The table of the nodes: a slot holds the number of its node, plus one. -/
  ht : Probe.Table Cell
  /-- Are there nodes that were not saved? -/
  dirty : Bool

/-! ## The table -/

/-- One byte of FNV-1a. -/
def fnvByte (h : UInt64) (b : Val) : UInt64 := (h ^^^ (b &&& 0xFF).toUInt64) * 1099511628211

/-- `term_hash`. -/
def termHash (c : Cell) : UInt64 :=
  [c.1, c.2].foldl
    (fun h x => fnvByte (fnvByte (fnvByte (fnvByte h x) (x >>> 8)) (x >>> 16)) (x >>> 24))
    14695981039346656037

/-- The hash as a number. -/
def cellHash (c : Cell) : ℕ := (termHash c).toNat

/-- The nodes with their numbers, plus one; not the first. -/
def numbered (nodes : List Cell) : List (Cell × ℕ) :=
  (nodes.zipIdx.drop 1).map fun p => (p.1, p.2 + 1)

/-- `ht_grow`. -/
def htGrow (t : Termstore) : Option Termstore :=
  let nc := t.ht.cap * 2 % 2 ^ 32
  if nc < t.ht.cap then none
  else some { t with ht := Probe.rebuild cellHash nc (numbered t.nodes) }

/-- `nodes_grow`. -/
def nodesGrow (t : Termstore) : Option Termstore :=
  let nc := t.cap * 2 % 2 ^ 32
  if nc < t.cap then none else some { t with cap := nc }

/-- `term_create`. -/
def termCreate : Termstore := ⟨[(0, 0)], termInitNodes, .empty termInitHash, false⟩

/-! ## Lists -/

/-- `term_is_list`. -/
def termIsList (t : Termstore) (v : Val) : Bool :=
  termBase ≤ v && (v - termBase).toNat < t.nodes.length

/-- `term_car`. -/
def termCar (t : Termstore) (h : Val) : Val :=
  if termIsList t h = false ∨ h = termNil then 0
  else ((t.nodes[(h - termBase).toNat]?).getD (0, 0)).1

/-- `term_cdr`. -/
def termCdr (t : Termstore) (h : Val) : Val :=
  if termIsList t h = false ∨ h = termNil then 0
  else ((t.nodes[(h - termBase).toNat]?).getD (0, 0)).2

/-- The handle of a node. -/
def handle (i : ℕ) : Val := termBase + UInt32.ofNat i

/-- `term_cons`. -/
def termCons (t : Termstore) (head tail : Val) : Option (Termstore × Val) :=
  if termIsList t tail = false then some (t, 0)
  else
    match if t.ht.cap - t.ht.cap / 4 < t.nodes.length + 1 then htGrow t else some t with
    | none => some (t, 0)
    | some t =>
      match Probe.probe (fun c => c = (head, tail)) t.ht t.ht.cap
        (cellHash (head, tail) % t.ht.cap) with
      | .full => none
      | .found id => some (t, handle (id - 1))
      | .empty idx =>
        match if t.cap ≤ t.nodes.length then nodesGrow t else some t with
        | none => some (t, 0)
        | some t =>
          some
            (⟨t.nodes ++ [(head, tail)], t.cap,
              t.ht.put idx (head, tail) (t.nodes.length + 1), true⟩, handle t.nodes.length)

/-- The elements that the loop of `term_append` collects. -/
def collect (t : Termstore) : ℕ → Val → Option (List Val)
  | 0, _ => none
  | fuel + 1, cur =>
    if cur = termNil then some []
    else (collect t fuel (termCdr t cur)).map fun xs => termCar t cur :: xs

/-- The loop of `term_append` that makes the nodes, the last first. -/
def consAll (t : Termstore) : List Val → Val → Option (Termstore × Val)
  | [], b => some (t, b)
  | x :: xs, b =>
    match consAll t xs b with
    | none => none
    | some (t, r) => if r = 0 then some (t, 0) else termCons t x r

/-- `term_append`; there is no room for more than `2 ^ 31` elements. -/
def termAppend (t : Termstore) (a b : Val) : Option (Termstore × Val) :=
  if termIsList t a = false ∨ termIsList t b = false then some (t, 0)
  else if a = termNil then some (t, b)
  else
    match collect t t.nodes.length a with
    | none => none
    | some elems => if 2 ^ 31 < elems.length then some (t, 0) else consAll t elems b

/-- The loop of `term_length`. -/
def lengthLoop (t : Termstore) : ℕ → ℕ → Val → Option ℕ
  | 0, _, _ => none
  | fuel + 1, n, cur =>
    if cur = termNil then some n else lengthLoop t fuel ((n + 1) % 2 ^ 32) (termCdr t cur)

/-- `term_length`. -/
def termLength (t : Termstore) (h : Val) : Option ℕ :=
  if termIsList t h = false then some 0 else lengthLoop t t.nodes.length 0 h

/-! ## The text -/

/-- A number in decimal. -/
def decimal (n : ℕ) : List UInt8 :=
  if n = 0 then [48] else (Nat.digits 10 n).reverse.map fun d => UInt8.ofNat (48 + d)

/-- The line of a node. -/
def nodeLine (c : Cell) : List UInt8 := decimal c.1.toNat ++ 32 :: (decimal c.2.toNat ++ [10])

/-- What `term_save` writes. -/
def termSave (t : Termstore) : List UInt8 :=
  decimal t.nodes.length ++ 10 :: t.nodes.flatMap nodeLine

/-- `LineReader.next`: a line with its newline, and the rest. -/
def nextLine (bytes : List UInt8) : Option (List UInt8 × List UInt8) :=
  if bytes = [] then none
  else
    let line := bytes.takeWhile (· != 10)
    let rest := bytes.dropWhile (· != 10)
    some (line ++ rest.take 1, rest.drop 1)

/-- `isSpace`. -/
def isSpace (b : UInt8) : Bool :=
  b = 32 || b = 9 || b = 10 || b = 11 || b = 12 || b = 13

/-- `ScanU`. -/
structure ScanU where
  /-- The number. -/
  v : ℕ
  /-- Was there a digit? -/
  any : Bool
  /-- Was there a minus sign? -/
  neg : Bool

/-- One digit in `scanUnsigned`. -/
def scanDigit (sat v : ℕ) (b : UInt8) : ℕ :=
  let d := b.toNat - 48
  if (sat - d) / 10 < v then sat else v * 10 + d

/-- Is it a digit? -/
def isDigit (b : UInt8) : Bool := 48 ≤ b && b ≤ 57

/-- `scanUnsigned`, with what is left. -/
def scanUnsigned (sat : ℕ) (bytes : List UInt8) : ScanU × List UInt8 :=
  let s := bytes.dropWhile isSpace
  let sign := s.head?.any fun b => b = 43 || b = 45
  let neg := s.head?.any fun b => b = 45
  let s := if sign then s.tail else s
  let digits := s.takeWhile isDigit
  (⟨digits.foldl (scanDigit sat) 0, !digits.isEmpty, neg⟩, s.dropWhile isDigit)

/-- A scanned number in 32 bits. -/
def ScanU.toVal (s : ScanU) : Val := if s.neg then 0 - UInt32.ofNat s.v else UInt32.ofNat s.v

/-- `scanNodeLine`. -/
def scanNodeLine (line : List UInt8) : Option Cell :=
  let a := scanUnsigned (2 ^ 32 - 1) line
  let b := scanUnsigned (2 ^ 32 - 1) a.2
  if a.1.any = false ∨ b.1.any = false then none else some (a.1.toVal, b.1.toVal)

/-- The loop of `term_load` over the nodes from `i` on. -/
def loadNodes : ℕ → ℕ → Termstore → List UInt8 → Option Termstore
  | 0, _, t, _ => some t
  | n + 1, i, t, bytes =>
    match nextLine bytes with
    | none => none
    | some (line, rest) =>
      match scanNodeLine line with
      | none => none
      | some cell =>
        if i = 0 then if cell = (0, 0) then loadNodes n 1 t rest else none
        else
          match termCons t cell.1 cell.2 with
          | none => none
          | some (t, r) => if r = 0 then none else loadNodes n (i + 1) t rest

/-- `term_load` of a file. -/
def termLoad (bytes : List UInt8) : Option Termstore :=
  match nextLine bytes with
  | none => none
  | some (line, rest) =>
    let count := (scanUnsigned (2 ^ 64 - 1) line).1
    if count.any = false ∨ count.v = 0 ∨ termMaxNodes < count.v then none
    else
      match loadNodes count.v 0 termCreate rest with
      | none => none
      | some t => if t.nodes.length = count.v then some { t with dirty := false } else none

/-! ## Sequences of calls -/

/-- A call. -/
inductive TermCall
  /-- `term_cons`. -/
  | cons (head tail : Val)
  /-- `term_append`. -/
  | append (a b : Val)

/-- A call. -/
def termStep (t : Termstore) : TermCall → Option Termstore
  | .cons head tail => (termCons t head tail).map Prod.fst
  | .append a b => (termAppend t a b).map Prod.fst

/-- Calls one after another. -/
def termRun (t : Termstore) (calls : List TermCall) : Option Termstore := calls.foldlM termStep t

/-- The store of a file; `term_create` when there is none. -/
def termOpen : Option (List UInt8) → Option Termstore
  | none => some termCreate
  | some bytes => termLoad bytes

end DatalogDafsa
