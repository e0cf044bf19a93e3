import DatalogDafsa.Typecheck.Check

/-!
# Well-typed rules

What it means for a rule to be well typed under an assignment of column types to
its variables, stated without the pass and its table.  The definitions carry a
proposition `full`.  Under `full := True` every occurrence has to fit.  Under
`full := False` the occurrences that the pass does not look at are left out: the
words of the aggregates as arguments, constants in a list pattern and in the result
position of a builtin, the relation of a pattern atom, an equality between two
variables that nothing has typed yet, and one with a list on its right only, which a
quoted `"="` before a parenthesis makes.

## Main definitions

* `Fits`, `FitsResult` — an occurrence has a type.
* `RelTyped`, `EqTyped`, `ListTyped` and their kin, `AtomTyped`, `RuleTyped`.
* `Atom.gives` — the variables an atom gives a type to.
* `Atom.Parsed`, `Rule.Parsed` — the shapes the parser builds.
-/

namespace DatalogDafsa.Typecheck

/-- A constant or a variable. -/
def Token.isPlain : Token → Bool
  | .aggregate _ _ | .list _ _ _ => false
  | _ => true

/-! ## Occurrences -/

section Occurrences

variable (full : Prop) (σ : Schema) (Γ : String → ColSpec)

/-- A token other than a list has a type. -/
def FitsFlat (a : Token) (want : ColSpec) : Prop :=
  match a with
  | .var _ x => Γ x = want
  | .int _ _ => want = natural
  | .ident _ _ | .string _ _ => want = text
  | .aggregate _ _ => full → want = text
  | .list _ _ _ => False

/-- A token has a type: a list has that of its elements, and so does what comes
after its bar. -/
def Fits (a : Token) (want : ColSpec) : Prop :=
  match a with
  | .list _ children tail =>
    ∃ e, want = .list e ∧ (∀ c ∈ children, FitsFlat full Γ c (.flat e)) ∧
      ∀ tl, tail = some tl → FitsFlat full Γ tl (.list e)
  | a => FitsFlat full Γ a want

/-- An operand that is there has a type. -/
def FitsOpt (a : Option Token) (want : ColSpec) : Prop := ∀ tok, a = some tok → Fits full Γ tok want

/-- A position of which only variables are looked at. -/
def FitsResult (a : Option Token) (want : ColSpec) : Prop :=
  ∀ tok, a = some tok → ((∃ pos x, tok = .var pos x) ∨ full) → Fits full Γ tok want

/-! ## Atoms -/

/-- A relation atom names a declared relation and fits its columns. -/
def RelTyped (a : Atom) : Prop :=
  ∃ rd, σ.find a.pred = some rd ∧ a.args.length = rd.cols.length ∧
    ∀ p ∈ a.args.zip rd.cols, Fits full Γ p.1 p.2

/-- The variables of an expression are numbers. -/
def ExprTyped : Expr → Prop
  | .int _ => True
  | .var x => Γ x = natural
  | .binop _ l r => ExprTyped l ∧ ExprTyped r

/-- An aggregate: `min` and `max` have the orderable type of their operand, the
others are numbers over numbers. -/
def AggTyped (a : Atom) : Prop :=
  if a.aggOp.getD "" = "min" ∨ a.aggOp.getD "" = "max" then
    ∃ T, (T = natural ∨ T = .flat .timestamp ∨ T = .flat .date) ∧
      FitsOpt full Γ a.args.head? T ∧ Γ a.pred = T
  else Γ a.pred = natural ∧ (a.aggOp.getD "" ≠ "count" → FitsOpt full Γ a.args.head? natural)

/-- Both sides of an equality have one type. `K` holds the variables typed so far. -/
def EqTyped (K : List String) (a : Atom) : Prop :=
  match a.args with
  | [.list _ children tail, r] =>
    ∃ e, Fits full Γ r (.list e) ∧ (∀ c ∈ children, FitsResult full Γ (some c) (.flat e)) ∧
      FitsOpt full Γ tail (.list e)
  | [.var _ x, .var _ y] => (x ∈ K ∨ y ∈ K ∨ full) → Γ x = Γ y
  | [l, r] => (l.isPlain && r.isPlain) = true ∨ full → ∃ T, Fits full Γ l T ∧ Fits full Γ r T
  | _ => True

/-- Both sides of an ordering have one orderable type. -/
def CompareTyped (a : Atom) : Prop :=
  ∃ T, isOrderable (some T) = true ∧ ∀ tok ∈ a.args, Fits full Γ tok T

/-- A string builtin. -/
def StrTyped (a : Atom) : Prop :=
  if a.pred = "length" then FitsResult full Γ a.args[0]? natural ∧ FitsOpt full Γ a.args[1]? text
  else ∀ tok ∈ a.args, Fits full Γ tok text

/-- A list builtin, for some element type. -/
def ListTyped (a : Atom) : Prop :=
  ∃ e : Scalar,
    if a.pred = "member" ∨ a.pred = "car" then
      FitsOpt full Γ a.args[1]? (.list e) ∧ FitsResult full Γ a.args[0]? (.flat e)
    else if a.pred = "cdr" then
      FitsOpt full Γ a.args[1]? (.list e) ∧ FitsResult full Γ a.args[0]? (.list e)
    else if a.pred = "cons" then
      FitsOpt full Γ a.args[2]? (.list e) ∧ FitsOpt full Γ a.args[1]? (.flat e) ∧
        FitsResult full Γ a.args[0]? (.list e)
    else
      FitsOpt full Γ a.args[1]? (.list e) ∧ FitsOpt full Γ a.args[2]? (.list e) ∧
        FitsResult full Γ a.args[0]? (.list e)

/-- `range(X, Rel, Lo, Hi)`: numbers, and the name of a relation. -/
def RangeTyped (a : Atom) : Prop :=
  ∃ x pos rel lo hi, a.args = [x, .ident pos rel, lo, hi] ∧ FitsResult full Γ (some x) natural ∧
    Fits full Γ lo natural ∧ Fits full Γ hi natural

/-- A body atom, after atoms that typed the variables `K`. -/
def AtomTyped (K : List String) (a : Atom) : Prop :=
  if a.aggregate then AggTyped full Γ a
  else if a.pattern.isSome then
    (∀ tok ∈ a.args, Fits full Γ tok text) ∧ (full → RelTyped full σ Γ a)
  else
    match a.arith with
    | some e => FitsOpt full Γ a.args.head? natural ∧ ExprTyped Γ e
    | none =>
      if a.pred = "!=" then True
      else if isComparisonPred a.pred then CompareTyped full Γ a
      else if a.pred = "=" ∧ a.args.length = 2 then EqTyped full Γ K a
      else if isStrProducingPred a.pred then StrTyped full Γ a
      else if isStrFilterPred a.pred then ∀ tok ∈ a.args, Fits full Γ tok text
      else if isListBuiltinPred a.pred then ListTyped full Γ a
      else if isRangeBuiltinPred a.pred then RangeTyped full Γ a
      else RelTyped full σ Γ a

end Occurrences

/-! ## The variables typed so far -/

/-- The variable a token is. -/
def Token.names : Token → List String
  | .var _ x => [x]
  | _ => []

/-- The variables of a token. -/
def Token.vars : Token → List String
  | .list _ children tail => children.flatMap names ++ tail.toList.flatMap names
  | a => a.names

/-- The variables of an expression. -/
def Expr.vars : Expr → List String
  | .int _ => []
  | .var x => [x]
  | .binop _ l r => l.vars ++ r.vars

/-- The variables that an equality types, when those of `K` have a type. -/
def eqGives (K : List String) (args : List Token) : List String :=
  match args with
  | [.list p children tail, r] => (Token.list p children tail).vars ++ r.names
  | [.var _ x, .var _ y] => if x ∈ K ∨ y ∈ K then [x, y] else []
  | [l, r] => if l.isPlain && r.isPlain then l.names ++ r.names else []
  | _ => []

/-- The variables that an atom gives a type to, when those of `K` have one: all of
its arguments that are looked at, except for `!=`, and for an equality between two
variables that have none. -/
def Atom.gives (K : List String) (a : Atom) : List String :=
  if a.aggregate then a.pred :: a.args.head?.toList.flatMap Token.names
  else if a.pattern.isSome then a.args.flatMap Token.names
  else
    match a.arith with
    | some e => a.args.head?.toList.flatMap Token.names ++ e.vars
    | none =>
      if a.pred = "!=" then []
      else if isComparisonPred a.pred then a.args.flatMap Token.names
      else if a.pred = "=" ∧ a.args.length = 2 then eqGives K a.args
      else if isStrProducingPred a.pred then
        if a.pred = "length" then (a.args.take 2).flatMap Token.names
        else a.args.flatMap Token.names
      else if isStrFilterPred a.pred then a.args.flatMap Token.names
      else if isListBuiltinPred a.pred then
        if a.pred = "cons" then (a.args.take 3).flatMap Token.names
        else if a.pred = "append" then
          (a.args.take 2).flatMap Token.names ++ a.args[2]?.toList.flatMap Token.vars
        else (a.args.take 2).flatMap Token.names
      else if isRangeBuiltinPred a.pred then a.args.flatMap Token.names
      else a.args.flatMap Token.vars

/-! ## Rules -/

/-- The atoms of a body, from left to right. -/
def BodyTyped (full : Prop) (σ : Schema) (Γ : String → ColSpec) : List String → List Atom → Prop
  | _, [] => True
  | K, a :: as => AtomTyped full σ Γ K a ∧ BodyTyped full σ Γ (K ++ a.gives K) as

/-- A rule is well typed under an assignment of types to its variables. -/
def RuleTyped (full : Prop) (σ : Schema) (Γ : String → ColSpec) (r : Rule) : Prop :=
  RelTyped full σ Γ r.head ∧ BodyTyped full σ Γ (r.head.args.flatMap Token.vars) r.body

/-! ## What the parser builds -/

/-- An element of a list: a constant, a variable or another list. -/
def Token.IsElem : Token → Prop
  | .aggregate _ _ => False
  | _ => True

/-- The tail of a list is a variable. -/
def TailOk (tail : Option Token) : Prop := ∀ tl, tail = some tl → ∃ pos x, tl = .var pos x

/-- A token as the parser builds it. -/
def Token.Parsed : Token → Prop
  | .list _ children tail => (∀ c ∈ children, c.IsElem) ∧ TailOk tail
  | _ => True

/-- A constant. -/
def Token.IsConst : Token → Prop
  | .int _ _ | .ident _ _ | .string _ _ => True
  | _ => False

/-- The productions of `parseBodyAtom`. -/
inductive Atom.Parsed : Atom → Prop
  /-- `pred(args)`, maybe with a pattern; a quoted `pred` is any text, `=` among them. -/
  | plain (pred : String) (pos : Pos) (args : List Token) (negated : Bool)
      (pattern : Option String) (hargs : ∀ a ∈ args, a.Parsed) :
      Parsed { pred, pos, args, negated, pattern }
  /-- `X = Y`. -/
  | eqVar (pos p q : Pos) (x y : String) (negated : Bool) :
      Parsed { pred := "=", pos, args := [.var p x, .var q y], negated }
  /-- `c = Y`, with a constant on the left. -/
  | eqConst (pos : Pos) (c r : Token) (negated : Bool) (hc : c.IsConst) (hr : r.isPlain = true) :
      Parsed { pred := "=", pos, args := [c, r], negated }
  /-- `[X|Xs] = L`. -/
  | listAssign (pos p : Pos) (children : List Token) (tail : Option Token) (r : Token)
      (negated : Bool) (hc : ∀ c ∈ children, c.IsElem) (htail : TailOk tail) (hr : r.Parsed) :
      Parsed { pred := "=", pos, args := [.list p children tail, r], negated }
  /-- `X = count()`. -/
  | count (pos : Pos) (x : String) (negated : Bool) :
      Parsed { pred := x, pos, args := [], negated, aggregate := true, aggOp := some "count" }
  /-- `X = sum(Y)`, and the same with `min` and `max`. -/
  | agg (pos p : Pos) (x y op : String) (negated : Bool) (hop : op ∈ ["sum", "min", "max"]) :
      Parsed { pred := x, pos, args := [.var p y], negated, aggregate := true, aggOp := some op }
  /-- `X = name(args)`, for a string or list builtin with a result. -/
  | builtin (pred : String) (pos p : Pos) (x : String) (args : List Token) (negated : Bool)
      (hname : pred ∈ ["concat", "length", "lower", "upper", "cons", "car", "cdr", "append"])
      (hargs : ∀ a ∈ args, a.Parsed) :
      Parsed { pred, pos, args := .var p x :: args, negated }
  /-- `X = E`. -/
  | arith (pos p : Pos) (x : String) (e : Expr) (negated : Bool) :
      Parsed { pred := "=", pos, args := [.var p x], negated, arith := some e }
  /-- `X < Y` and its kin. -/
  | compare (op : String) (pos p : Pos) (x : String) (r : Token) (negated : Bool)
      (hop : isComparisonPred op = true) (hr : r.isPlain = true) :
      Parsed { pred := op, pos, args := [.var p x, r], negated }

/-- A rule as the parser builds it. -/
structure Rule.Parsed (r : Rule) : Prop where
  /-- Arguments of the head. -/
  head : ∀ a ∈ r.head.args, a.Parsed
  /-- Body. -/
  body : ∀ a ∈ r.body, a.Parsed

end DatalogDafsa.Typecheck
