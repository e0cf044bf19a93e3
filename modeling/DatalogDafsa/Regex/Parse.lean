import DatalogDafsa.Regex.Grammar

/-!
# The parser of patterns

`rxLex` reads a token ahead of a recursive descent that builds the automaton as it goes.
Once the lexer has met an error it reports the end of the pattern, after the token it
had before.  The recursion takes fuel; how much is enough is shown in `RxFuel`.

Memory does not run out.

## Main definitions

* `RxParser`, `rxLex`, `rxPeek`, `rxNext`, `rxMatch` — the lexer.
* `parseCharClass` — classes.
* `Nfa`, `NfaFrag` — the automaton, and a piece of it.
* `rxAlt`, `rxSeq`, `rxPostfix`, `rxAtom`, `rxRegex` — the descent.
-/

namespace DatalogDafsa.Regex

/-! ## The lexer -/

/-- `RxTokenKind`. -/
inductive RxTokenKind
  | eof | char | dot | star | plus | ques | pipe | lparen | rparen | lbracket | rbracket
  deriving DecidableEq

/-- `RxToken`; `quoted` tells an escaped byte from a bare one. -/
structure RxToken where
  /-- The kind. -/
  kind : RxTokenKind
  /-- The byte of a `char`. -/
  ch : UInt8
  /-- Was it escaped? -/
  quoted : Bool

/-- `RxParser`. -/
structure RxParser where
  /-- What is left of the pattern, without its NUL. -/
  pos : List UInt8
  /-- The last token that was read. -/
  tok : RxToken
  /-- Is it still to be taken? -/
  hasTok : Bool
  /-- The first error. -/
  errmsg : Option String

/-- `rxError`: the first error stays. -/
def rxError (msg : String) (p : RxParser) : RxParser :=
  { p with errmsg := p.errmsg.or (some msg) }

/-- `rxIsOctalDigit`. -/
def rxIsOctalDigit (ch : UInt8) : Bool := '0'.toUInt8 ≤ ch && ch ≤ '7'.toUInt8

/-- `rxIsHexDigit`. -/
def rxIsHexDigit (ch : UInt8) : Bool :=
  ('0'.toUInt8 ≤ ch && ch ≤ '9'.toUInt8) || ('a'.toUInt8 ≤ ch && ch ≤ 'f'.toUInt8) ||
    ('A'.toUInt8 ≤ ch && ch ≤ 'F'.toUInt8)

/-- `rxHexVal`. -/
def rxHexVal (ch : UInt8) : UInt8 :=
  if '0'.toUInt8 ≤ ch ∧ ch ≤ '9'.toUInt8 then ch - '0'.toUInt8
  else if 'a'.toUInt8 ≤ ch ∧ ch ≤ 'f'.toUInt8 then ch - 'a'.toUInt8 + 10
  else if 'A'.toUInt8 ≤ ch ∧ ch ≤ 'F'.toUInt8 then ch - 'A'.toUInt8 + 10
  else 0

/-- The loop over the digits of `\0NN`. -/
def rxOctal : ℕ → UInt32 → List UInt8 → UInt32 × List UInt8
  | n + 1, val, d :: s =>
    if rxIsOctalDigit d then rxOctal n (val * 8 + (d - '0'.toUInt8).toUInt32) s else (val, d :: s)
  | _, val, s => (val, s)

/-- The token of an escaped byte. -/
def RxParser.escaped (p : RxParser) (ch : UInt8) (pos : List UInt8) : RxParser :=
  { p with pos, tok := ⟨.char, ch, true⟩ }

/-- The two digits of `\xHH`. -/
def rxHexEscape (p : RxParser) : List UInt8 → RxParser
  | h :: l :: s =>
    if rxIsHexDigit h && rxIsHexDigit l then
      p.escaped ((rxHexVal h).toUInt32 <<< 4 ||| (rxHexVal l).toUInt32).toUInt8 s
    else rxError "invalid \\xHH escape" { p with tok := { p.tok with quoted := true } }
  | _ => rxError "invalid \\xHH escape" { p with tok := { p.tok with quoted := true } }

/-- The escapes of `rxLex`, behind the backslash. -/
def rxEscape (p : RxParser) : List UInt8 → RxParser
  | [] => rxError "trailing backslash" p
  | c :: s =>
    if c = backslash then p.escaped backslash s
    else if c = '0'.toUInt8 then
      if s.head?.any rxIsOctalDigit then p.escaped (rxOctal 2 0 s).1.toUInt8 (rxOctal 2 0 s).2
      else p.escaped 0 s
    else if c = 'x'.toUInt8 ∨ c = 'X'.toUInt8 then rxHexEscape p s
    else if c = 'n'.toUInt8 then p.escaped '\n'.toUInt8 s
    else if c = 'r'.toUInt8 then p.escaped '\r'.toUInt8 s
    else if c = 't'.toUInt8 then p.escaped '\t'.toUInt8 s
    else p.escaped c s

/-- The switch of `rxLex` over bare bytes. -/
def rxKind (b : UInt8) : RxTokenKind :=
  if b = '.'.toUInt8 then .dot
  else if b = '*'.toUInt8 then .star
  else if b = '+'.toUInt8 then .plus
  else if b = '?'.toUInt8 then .ques
  else if b = '|'.toUInt8 then .pipe
  else if b = '('.toUInt8 then .lparen
  else if b = ')'.toUInt8 then .rparen
  else if b = '['.toUInt8 then .lbracket
  else if b = ']'.toUInt8 then .rbracket
  else .char

/-- `rxLex`.  Only a `char` sets the byte of the token. -/
def rxLex (p : RxParser) : RxParser :=
  if p.hasTok then { p with hasTok := false }
  else if p.errmsg.isSome then { p with tok := { p.tok with kind := .eof } }
  else
    match p.pos with
    | [] => { p with tok := { p.tok with kind := .eof } }
    | b :: s =>
      if b = backslash then rxEscape p s
      else
        { p with
          pos := s
          tok := ⟨rxKind b, if rxKind b = .char then b else p.tok.ch, false⟩ }

/-- `rxPeek`: a token is read, unless there is one. -/
def rxPeek (p : RxParser) : RxParser := if p.hasTok then p else { rxLex p with hasTok := true }

/-- `rxNext`: the token is taken. -/
def rxNext (p : RxParser) : RxParser :=
  { (if p.hasTok then p else rxLex p) with hasTok := false }

/-- `rxMatch`: the token is taken if it is of the kind. -/
def rxMatch (p : RxParser) (k : RxTokenKind) : Bool × RxParser :=
  if (rxPeek p).tok.kind = k then (true, rxNext (rxPeek p)) else (false, rxPeek p)

/-- Is a token a bare character? -/
def RxToken.isBare (t : RxToken) (c : Char) : Bool :=
  t.kind = .char && !t.quoted && t.ch == c.toUInt8

/-! ## The automaton -/

/-- `SymEdge`; a bitmap is the set of its bytes. -/
inductive SymEdge
  | epsilon
  | literal (ch : UInt8)
  | any
  | cls (bitmap : UInt8 → Bool)

/-- `NfaState`. -/
structure NfaState where
  /-- Edges with their targets. -/
  edges : List (SymEdge × ℕ)
  /-- Is it accepting? -/
  accept : Bool

/-- `Nfa`. -/
structure Nfa where
  /-- The states. -/
  states : List NfaState

/-- `NFA_MAX_TRANS`. -/
def nfaMaxTrans : ℕ := 4

/-- Why there is no automaton. -/
inductive RxErr
  /-- Too little fuel. -/
  | fuel
  /-- What is reported. -/
  | msg (text : String)
  deriving DecidableEq

/-- `nfaAddState`, with the number of the new state. -/
def nfaAddState (n : Nfa) (accept : Bool) : Nfa × ℕ :=
  (⟨n.states ++ [⟨[], accept⟩]⟩, n.states.length)

/-- `nfaAddEdge`. -/
def nfaAddEdge (n : Nfa) (src dst : ℕ) (sym : SymEdge) : Except RxErr Nfa :=
  if (n.states[src]?).any fun st => nfaMaxTrans ≤ st.edges.length then
    .error (.msg "NFA edge overflow")
  else .ok ⟨n.states.modify src fun st => { st with edges := st.edges ++ [(sym, dst)] }⟩

/-- Set the accepting mark of a state. -/
def nfaSetAccept (n : Nfa) (i : ℕ) (accept : Bool) : Nfa :=
  ⟨n.states.modify i fun st => { st with accept }⟩

/-- `NfaFrag`. -/
structure NfaFrag where
  /-- The entry. -/
  start : ℕ
  /-- The exit. -/
  accept : ℕ

/-- Two states and an edge between them. -/
def nfaSingle (n : Nfa) (sym : SymEdge) : Except RxErr (Nfa × NfaFrag) := do
  let s := nfaAddState n false
  let a := nfaAddState s.1 true
  let n ← nfaAddEdge a.1 s.2 a.2 sym
  .ok (n, ⟨s.2, a.2⟩)

/-- One fragment after another. -/
def nfaSeq (n : Nfa) (left right : NfaFrag) : Except RxErr (Nfa × NfaFrag) := do
  let n ← nfaAddEdge (nfaSetAccept n left.accept false) left.accept right.start .epsilon
  .ok (n, ⟨left.start, right.accept⟩)

/-- One of two fragments. -/
def nfaAlt (n : Nfa) (left right : NfaFrag) : Except RxErr (Nfa × NfaFrag) := do
  let s := nfaAddState n false
  let a := nfaAddState s.1 true
  let n ← nfaAddEdge a.1 s.2 left.start .epsilon
  let n ← nfaAddEdge n s.2 right.start .epsilon
  let n ← nfaAddEdge n left.accept a.2 .epsilon
  let n ← nfaAddEdge n right.accept a.2 .epsilon
  .ok (nfaSetAccept (nfaSetAccept n left.accept false) right.accept false, ⟨s.2, a.2⟩)

/-- A silent edge, perhaps. -/
def nfaSilentIf (b : Bool) (n : Nfa) (src dst : ℕ) : Except RxErr Nfa :=
  if b then nfaAddEdge n src dst .epsilon else .ok n

/-- A fragment that is skipped or repeated. -/
def nfaWrap (skip loop : Bool) (n : Nfa) (e : NfaFrag) : Except RxErr (Nfa × NfaFrag) := do
  let s := nfaAddState n false
  let a := nfaAddState s.1 true
  let n ← nfaAddEdge (nfaSetAccept a.1 e.accept false) s.2 e.start .epsilon
  let n ← nfaSilentIf skip n s.2 a.2
  let n ← nfaSilentIf loop n e.accept e.start
  let n ← nfaAddEdge n e.accept a.2 .epsilon
  .ok (n, ⟨s.2, a.2⟩)

/-! ## Classes -/

/-- The parser gives up. -/
def rxFail {α : Type} (p : RxParser) (msg : String) : Except RxErr α :=
  .error (.msg ((rxError msg p).errmsg.getD msg))

/-- The byte a token is in a class; none for `[`. -/
def classByte (t : RxToken) : Option UInt8 :=
  match t.kind with
  | .dot => some '.'.toUInt8
  | .star => some '*'.toUInt8
  | .plus => some '+'.toUInt8
  | .ques => some '?'.toUInt8
  | .pipe => some '|'.toUInt8
  | .lparen => some '('.toUInt8
  | .rparen => some ')'.toUInt8
  | .char => some t.ch
  | _ => none

/-- One more byte in a bitmap. -/
def setBit (bitmap : UInt8 → Bool) (ch : UInt8) : UInt8 → Bool := fun b => bitmap b || b == ch

/-- A byte that may be missing. -/
def setPrev (bitmap : UInt8 → Bool) : Option UInt8 → UInt8 → Bool
  | none => bitmap
  | some prev => setBit bitmap prev

/-- The loop of `parseCharClass`; `prev` is the start of a range.  The flag `any` is
left out: without it the bitmap is empty. -/
def classLoop : ℕ → RxParser → (UInt8 → Bool) → Option UInt8 →
    Except RxErr ((UInt8 → Bool) × RxParser)
  | 0, _, _, _ => .error .fuel
  | fuel + 1, p, bitmap, prev =>
    let p := rxPeek p
    if p.tok.kind = .rbracket ∨ p.tok.kind = .eof then .ok (setPrev bitmap prev, p)
    else
      match classByte p.tok with
      | none => rxFail p "unexpected token in character class"
      | some ch =>
        let p := rxNext p
        if prev.any (· < ch) then
          let bitmap := fun b => bitmap b || (prev.any (· ≤ b) && b ≤ ch)
          classLoop fuel p bitmap none
        else
          let p := rxPeek p
          if p.tok.kind = .char ∧ p.tok.ch = '-'.toUInt8 then
            let p := rxPeek (rxNext p)
            if p.tok.kind = .rbracket then
              -- `ch` itself is not set
              classLoop fuel p (setPrev (setBit bitmap '-'.toUInt8) prev) none
            else classLoop fuel p bitmap (some ch)
          else
            match prev with
            | some lo =>
              classLoop fuel p (setBit (setBit (setBit bitmap ch) lo) '-'.toUInt8) none
            | none => classLoop fuel p (setBit bitmap ch) none

/-- `parseCharClass`, behind the `[`. -/
def parseCharClass (fuel : ℕ) (p : RxParser) : Except RxErr ((UInt8 → Bool) × RxParser) :=
  let p := rxPeek p
  let negate : Bool := p.tok.kind = .char ∧ p.tok.ch = '^'.toUInt8
  let p := if negate then rxNext p else p
  let (first, p) := rxMatch p .rbracket
  let bitmap : UInt8 → Bool := fun b => first && b == ']'.toUInt8
  match classLoop fuel p bitmap none with
  | .error e => .error e
  | .ok (bitmap, p) =>
    match rxMatch p .rbracket with
    | (false, p) => rxFail p "unclosed character class"
    | (true, p) => .ok (fun b => negate != bitmap b, p)

/-! ## The descent -/

/-- `rxMisplacedAnchor`: what is reported, if there is an anchor. -/
def rxMisplacedAnchor (t : RxToken) : Option String :=
  if t.isBare '^' then some "anchor '^' only allowed as the pattern's first character"
  else if t.isBare '$' then some "anchor '$' only allowed as the pattern's last character"
  else none

/-- What the functions of the descent return. -/
abbrev RxResult := Except RxErr (Nfa × RxParser × NfaFrag)

mutual

/-- `rxAlt`. -/
def rxAlt : ℕ → Nfa → RxParser → RxResult
  | 0, _, _ => .error .fuel
  | fuel + 1, n, p =>
    match rxSeq fuel n p with
    | .error e => .error e
    | .ok (n, p, left) => rxAltLoop fuel n p left

/-- The loop of `rxAlt`. -/
def rxAltLoop : ℕ → Nfa → RxParser → NfaFrag → RxResult
  | 0, _, _, _ => .error .fuel
  | fuel + 1, n, p, left =>
    match rxMatch p .pipe with
    | (false, p) => .ok (n, p, left)
    | (true, p) =>
      match rxSeq fuel n p with
      | .error e => .error e
      | .ok (n, p, right) =>
        match nfaAlt n left right with
        | .error e => .error e
        | .ok (n, left) => rxAltLoop fuel n p left

/-- `rxSeq`. -/
def rxSeq : ℕ → Nfa → RxParser → RxResult
  | 0, _, _ => .error .fuel
  | fuel + 1, n, p =>
    match rxPostfix fuel n p with
    | .error e => .error e
    | .ok (n, p, left) => rxSeqLoop fuel n p left

/-- The loop of `rxSeq`; it stops before a `$`. -/
def rxSeqLoop : ℕ → Nfa → RxParser → NfaFrag → RxResult
  | 0, _, _, _ => .error .fuel
  | fuel + 1, n, p, left =>
    let p := rxPeek p
    if p.tok.kind = .eof ∨ p.tok.kind = .pipe ∨ p.tok.kind = .rparen ∨ p.tok.isBare '$' then
      .ok (n, p, left)
    else
      match rxPostfix fuel n p with
      | .error e => .error e
      | .ok (n, p, right) =>
        match nfaSeq n left right with
        | .error e => .error e
        | .ok (n, left) => rxSeqLoop fuel n p left

/-- `rxPostfix`. -/
def rxPostfix : ℕ → Nfa → RxParser → RxResult
  | 0, _, _ => .error .fuel
  | fuel + 1, n, p =>
    match rxAtom fuel n p with
    | .error e => .error e
    | .ok (n, p, e) =>
      match rxMatch p .star with
      | (true, p) => (nfaWrap true true n e).map fun r => (r.1, p, r.2)
      | (false, p) =>
        match rxMatch p .plus with
        | (true, p) => (nfaWrap false true n e).map fun r => (r.1, p, r.2)
        | (false, p) =>
          match rxMatch p .ques with
          | (true, p) => (nfaWrap true false n e).map fun r => (r.1, p, r.2)
          | (false, p) => .ok (n, p, e)

/-- `rxAtom`. -/
def rxAtom : ℕ → Nfa → RxParser → RxResult
  | 0, _, _ => .error .fuel
  | fuel + 1, n, p =>
    let p := rxPeek p
    match rxMisplacedAnchor p.tok with
    | some msg => rxFail p msg
    | none =>
      match p.tok.kind with
      | .lparen =>
        match rxAlt fuel n (rxNext p) with
        | .error e => .error e
        | .ok (n, p, e) =>
          match rxMisplacedAnchor (rxPeek p).tok with
          | some msg => rxFail (rxPeek p) msg
          | none =>
            match rxMatch p .rparen with
            | (true, p) => .ok (n, p, e)
            | (false, p) => rxFail p "unclosed parenthesis"
      | .lbracket =>
        match parseCharClass fuel (rxNext p) with
        | .error e => .error e
        | .ok (bitmap, p) => (nfaSingle n (.cls bitmap)).map fun r => (r.1, p, r.2)
      | .dot => (nfaSingle n .any).map fun r => (r.1, rxNext p, r.2)
      | .char => (nfaSingle n (.literal p.tok.ch)).map fun r => (r.1, rxNext p, r.2)
      | _ => rxFail p "expected atom"

end

/-- `rxRegex`, up to the end anchor. -/
def rxBody (fuel : ℕ) (n : Nfa) (p : RxParser) : RxResult :=
  let p := rxPeek p
  if p.tok.kind = .eof ∨ p.tok.isBare '$' then
    (nfaSingle n .epsilon).map fun r => (r.1, p, r.2)
  else rxAlt fuel n p

/-- `rxRegex`. -/
def rxRegex (fuel : ℕ) (n : Nfa) (p : RxParser) : RxResult :=
  let p := rxPeek p
  let p := if p.tok.isBare '^' then rxNext p else p
  match rxBody fuel n p with
  | .error e => .error e
  | .ok (n, p, e) =>
    let p := rxPeek p
    let anchored := p.tok.isBare '$'
    let p := rxPeek (if anchored then rxNext p else p)
    if p.tok.kind = .eof then .ok (n, p, e)
    else if anchored then rxFail p "anchor '$' must be the pattern's last character"
    else
      match rxMisplacedAnchor p.tok with
      | some msg => rxFail p msg
      | none => rxFail p "unexpected trailing characters"

end DatalogDafsa.Regex
