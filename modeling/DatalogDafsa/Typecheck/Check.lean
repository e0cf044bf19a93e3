import Mathlib

/-!
# The rule typechecker

When a schema is attached, the rules are checked against it before they are
compiled: one left-to-right pass over each rule gives every variable the column
type of its first typed occurrence and compares the later ones with it.  There is
no unification; a variable that nothing has typed yet is left alone, and at the end
of the rule every variable must have been typed.

## Main definitions

* `Scalar`, `ColSpec`, `Schema` — column types and the declared relations.
* `Token`, `Expr`, `Atom`, `Rule` — rules with their source positions.
* `VTab` — the variable table of a rule.
* `TypeErr` — the diagnostics.
* `typeRelational`, `typeEquality`, `typeListBuiltin` and their kin,
  `typeBodyAtom`, `typeRule`, `dlTypecheckRules` — the pass.
-/

namespace DatalogDafsa.Typecheck

/-! ## Types and schemas -/

/-- The flat scalars of `dl_coltype`. -/
inductive Scalar
  | natural | text | bool | char | date | timestamp | signed
  deriving DecidableEq

/-- `dl_colspec`, without the constraints on values, which `dl_colspec_eq` ignores. -/
inductive ColSpec
  /-- A flat scalar. -/
  | flat (s : Scalar)
  /-- `List<elem>`. -/
  | list (elem : Scalar)
  /-- `Optional<elem>`. -/
  | optional (elem : Scalar)
  /-- An enumeration of these values. -/
  | enum (values : List String)
  deriving DecidableEq

/-- `scalar(DLT_NATURAL)`. -/
abbrev natural : ColSpec := .flat .natural

/-- `scalar(DLT_TEXT)`. -/
abbrev text : ColSpec := .flat .text

/-- `dl_reldef`. -/
structure RelDef where
  /-- Name. -/
  name : String
  /-- Column types; their number is the arity. -/
  cols : List ColSpec

/-- `dl_schema`. -/
abbrev Schema := List RelDef

/-- `dl_schema_find`. -/
def Schema.find (σ : Schema) (name : String) : Option RelDef := σ.find? (·.name = name)

/-- `isOrderable`: scalars whose raw order is their order. -/
def isOrderable : Option ColSpec → Bool
  | some (.flat s) => s = .natural || s = .timestamp || s = .date || s = .bool || s = .char
  | _ => false

/-! ## Rules with positions -/

/-- A line and a column of the source. -/
structure Pos where
  line : ℕ
  col : ℕ

/-- `token`: an argument. -/
inductive Token
  /-- `TOK_VAR`. -/
  | var (pos : Pos) (text : String)
  /-- `TOK_IDENT`. -/
  | ident (pos : Pos) (text : String)
  /-- `TOK_STRING`. -/
  | string (pos : Pos) (text : String)
  /-- `TOK_INT`. -/
  | int (pos : Pos) (ival : UInt32)
  /-- `TOK_AGGREGATE`: one of the words `count`, `sum`, `min`, `max`. -/
  | aggregate (pos : Pos) (text : String)
  /-- `TOK_LIST`: elements, and what comes after the bar. -/
  | list (pos : Pos) (children : List Token) (tail : Option Token)

/-- Where a token stands. -/
def Token.pos : Token → Pos
  | var p _ | ident p _ | string p _ | int p _ | aggregate p _ | list p _ _ => p

/-- `expr`: an arithmetic expression. -/
inductive Expr
  /-- `EX_INT`. -/
  | int (ival : UInt32)
  /-- `EX_VAR`. -/
  | var (name : String)
  /-- `EX_BINOP`. -/
  | binop (op : Char) (l r : Expr)

/-- `atom`. -/
structure Atom where
  /-- Predicate name; the result variable of an aggregate. -/
  pred : String
  /-- Where it stands. -/
  pos : Pos
  /-- Arguments. -/
  args : List Token
  /-- Preceded by `!`. -/
  negated : Bool := false
  /-- An aggregate. -/
  aggregate : Bool := false
  /-- Its operator. -/
  aggOp : Option String := none
  /-- The pattern of a `~` or `~~` atom. -/
  pattern : Option String := none
  /-- The expression of an atom `X = E`. -/
  arith : Option Expr := none

/-- `rule`. -/
structure Rule where
  /-- Head. -/
  head : Atom
  /-- Body. -/
  body : List Atom

/-! ## Names of builtins -/

/-- `isComparisonPred`. -/
def isComparisonPred (p : String) : Bool := p ∈ ["<", "<=", ">", ">=", "!="]

/-- `isStrProducingPred`. -/
def isStrProducingPred (p : String) : Bool := p ∈ ["concat", "length", "lower", "upper"]

/-- `isStrFilterPred`. -/
def isStrFilterPred (p : String) : Bool := p ∈ ["prefix", "suffix", "contains"]

/-- `isListBuiltinPred`. -/
def isListBuiltinPred (p : String) : Bool := p ∈ ["cons", "car", "cdr", "append", "member"]

/-- `isRangeBuiltinPred`. -/
def isRangeBuiltinPred (p : String) : Bool := p = "range"

/-- `isReservedBuiltinName`. -/
def isReservedBuiltinName (p : String) : Bool :=
  p ∈ ["member", "car", "cons", "cdr", "append", "concat", "length", "lower", "upper", "prefix",
    "suffix", "contains", "range"]

/-! ## The variable table -/

/-- `varent`: a variable, and the site that typed it. -/
structure VarEnt where
  /-- Name. -/
  name : String
  /-- Its type, once it has one. -/
  type : Option ColSpec
  /-- Where it got it. -/
  pos : Pos
  /-- The predicate it got it from. -/
  site : String

/-- `vtab`. -/
abbrev VTab := List VarEnt

namespace VTab

/-- `vtabFind`. -/
def find (t : VTab) (name : String) : Option VarEnt := t.find? (·.name = name)

/-- `vtabGet`: add an untyped entry for a name that has none. -/
def get (t : VTab) (name : String) : VTab :=
  if (t.find name).isSome then t else t ++ [⟨name, none, ⟨0, 0⟩, ""⟩]

/-- Overwrite the entry of a name. -/
def set (t : VTab) (e : VarEnt) : VTab := t.map fun e' => if e'.name = e.name then e else e'

/-- The type of a variable, if it has one. -/
def typeOf (t : VTab) (name : String) : Option ColSpec := (t.find name).bind (·.type)

end VTab

/-! ## Diagnostics -/

/-- What the pass can object to. -/
inductive TypeErr
  | conflict (pos : Pos) (name : String) (want : ColSpec) (site : String) (was : ColSpec)
      (wasPos : Pos) (wasSite : String)
  | intConst (pos : Pos) (ival : UInt32) (want : ColSpec) (site : String)
  | textConst (pos : Pos) (text : String) (want : ColSpec) (site : String)
  | listInColumn (pos : Pos) (want : ColSpec) (site : String)
  | reservedHead (pos : Pos) (pred : String)
  | undeclared (pos : Pos) (pred : String)
  | arity (pos : Pos) (pred : String) (declared used : ℕ)
  | listInt (pos : Pos) (elem : Scalar) (site : String)
  | listText (pos : Pos) (text : String) (elem : Scalar) (site : String)
  | nestedElem (pos : Pos) (site : String)
  | patternOperand (pos : Pos)
  | varElem (pos : Pos)
  | nestedLiteral (pos : Pos)
  | mixed (pos : Pos) (got other : Scalar)
  | emptyList (pos : Pos)
  | mismatched (pos : Pos)
  | operandUntyped (pos : Pos) (op : String)
  | operandType (pos : Pos) (op : String) (was : ColSpec)
  | missingOperand (pred : String)
  | cannotInfer (pos : Pos) (pred text : String)
  | notList (pos : Pos) (text pred : String) (was : ColSpec)
  | constOperand (pos : Pos) (pred : String)
  | consHead (pos : Pos)
  | appendOperand (pos : Pos)
  | rangeArity (pos : Pos)
  | rangeRel (pos : Pos)
  | untyped (name pred : String)

/-! ## Occurrences -/

/-- A step of the pass: the table after it, or a diagnostic. -/
abbrev Pass := Except TypeErr VTab

/-- `constrainVar`. -/
def constrainVar (t : VTab) (name : String) (want : ColSpec) (pos : Pos) (site : String) : Pass :=
  match (t.get name).find name with
  | some ⟨_, some was, wasPos, wasSite⟩ =>
    if was = want then .ok (t.get name)
    else .error (.conflict pos name want site was wasPos wasSite)
  | _ => .ok ((t.get name).set ⟨name, some want, pos, site⟩)

/-- `constrainListElem`: an element of a list literal. -/
def constrainListElem (t : VTab) (e : Token) (elem : Scalar) (site : String) : Pass :=
  match e with
  | .var pos x => constrainVar t x (.flat elem) pos site
  | .int pos _ => if elem = .natural then .ok t else .error (.listInt pos elem site)
  | .ident pos x | .string pos x =>
    if elem = .text then .ok t else .error (.listText pos x elem site)
  | .list pos _ _ => .error (.nestedElem pos site)
  | .aggregate _ _ => .ok t

/-- The variable after the bar of a list, which is a list of its elements. -/
def constrainTail (t : VTab) (tail : Option Token) (elem : Scalar) (site : String) : Pass :=
  match tail with
  | some (.var pos x) => constrainVar t x (.list elem) pos site
  | _ => .ok t

/-- `typeListLiteralKnown`: a list literal whose element type is known. -/
def typeListLiteralKnown (t : VTab) (children : List Token) (tail : Option Token) (elem : Scalar)
    (site : String) : Pass :=
  (children.foldlM (fun t e => constrainListElem t e elem site) t).bind fun t =>
    constrainTail t tail elem site

/-- `constrainArg`: an argument of a known type. -/
def constrainArg (t : VTab) (a : Token) (want : ColSpec) (site : String) : Pass :=
  match a with
  | .var pos x => constrainVar t x want pos site
  | .int pos n => if want = natural then .ok t else .error (.intConst pos n want site)
  | .ident pos x | .string pos x =>
    if want = text then .ok t else .error (.textConst pos x want site)
  | .list pos children tail =>
    match want with
    | .list elem => typeListLiteralKnown t children tail elem site
    | _ => .error (.listInColumn pos want site)
  | .aggregate _ _ => .ok t

/-- The result position of a builtin, looked at only when it is a variable. -/
def constrainResult (t : VTab) (a : Option Token) (want : ColSpec) (site : String) : Pass :=
  match a with
  | some (.var pos x) => constrainVar t x want pos site
  | _ => .ok t

/-- Arguments that all have one type. -/
def constrainAll (t : VTab) (args : List Token) (want : ColSpec) (site : String) : Pass :=
  args.foldlM (fun t a => constrainArg t a want site) t

/-! ## Atoms -/

/-- `typeRelational`. -/
def typeRelational (σ : Schema) (t : VTab) (a : Atom) (isHead : Bool) : Pass :=
  if isHead ∧ isReservedBuiltinName a.pred then .error (.reservedHead a.pos a.pred)
  else
    match σ.find a.pred with
    | none => .error (.undeclared a.pos a.pred)
    | some rd =>
      if a.args.length ≠ rd.cols.length then
        .error (.arity a.pos a.pred rd.cols.length a.args.length)
      else (a.args.zip rd.cols).foldlM (fun t p => constrainArg t p.1 p.2 a.pred) t

/-- `typeExpr`: the variables of an expression are numbers. -/
def typeExpr (t : VTab) (e : Expr) (pos : Pos) (site : String) : Pass :=
  match e with
  | .int _ => .ok t
  | .var x => constrainVar t x natural pos site
  | .binop _ l r => (typeExpr t l pos site).bind fun t => typeExpr t r pos site

/-- `typeArith`: `X = E`. -/
def typeArith (t : VTab) (a : Atom) (e : Expr) : Pass :=
  (constrainResult t a.args.head? natural a.pred).bind fun t => typeExpr t e a.pos a.pred

/-- `tokenInherentType`. -/
def tokenInherentType : Token → Option ColSpec
  | .int _ _ => some natural
  | .ident _ _ | .string _ _ => some text
  | _ => none

/-- `elemOfConst`. -/
def elemOfConst : Token → Option Scalar
  | .int _ _ => some .natural
  | .ident _ _ | .string _ _ => some .text
  | _ => none

/-- The loop of `inferListLiteralElem`: the element type so far. -/
def inferElems (pos : Pos) : Option Scalar → List Token → Except TypeErr (Option Scalar)
  | got, [] => .ok got
  | _, .var p _ :: _ => .error (.varElem p)
  | _, .list p _ _ :: _ => .error (.nestedLiteral p)
  | got, e :: es =>
    match elemOfConst e, got with
    | none, _ => inferElems pos got es
    | some ec, none => inferElems pos (some ec) es
    | some ec, some g =>
      if g = ec then inferElems pos (some g) es else .error (.mixed pos g ec)

/-- `inferListLiteralElem`: the element type of a literal of constants. -/
def inferListLiteralElem (pos : Pos) (children : List Token) (tail : Option Token) :
    Except TypeErr Scalar :=
  if tail.isSome then .error (.patternOperand pos)
  else (inferElems pos none children).bind fun got =>
    match got with
    | none => .error (.emptyList pos)
    | some e => .ok e

/-- `resolveListOperand`: the element type of a list operand. -/
def resolveListOperand (t : VTab) (tok : Option Token) (pred : String) : Except TypeErr Scalar :=
  match tok with
  | none => .error (.missingOperand pred)
  | some (.list pos children tail) => inferListLiteralElem pos children tail
  | some (.var pos x) =>
    match t.typeOf x with
    | some (.list elem) => .ok elem
    | none => .error (.cannotInfer pos pred x)
    | some was => .error (.notList pos x pred was)
  | some tok => .error (.constOperand tok.pos pred)

/-- `typeListAssignment`: `[X|Xs] = L`. -/
def typeListAssignment (t : VTab) (a : Atom) (children : List Token) (tail : Option Token) : Pass :=
  (resolveListOperand t a.args[1]? a.pred).bind fun elem =>
    (children.foldlM (fun t e => constrainResult t (some e) (.flat elem) a.pred) t).bind fun t =>
      constrainTail t tail elem a.pred

/-- What one side of an equality is known to be. -/
def sideType (t : VTab) (s : Option Token) : Option ColSpec :=
  match s with
  | some (.var _ x) => t.typeOf x
  | some tok => tokenInherentType tok
  | none => none

/-- Register a side that is a variable. -/
def registerSide (t : VTab) (s : Option Token) : VTab :=
  match s with
  | some (.var _ x) => t.get x
  | _ => t

/-- `typeEquality`: `X = Y`. -/
def typeEquality (t : VTab) (a : Atom) : Pass :=
  match (a.args[0]? : Option Token) with
  | some (.list _ children tail) => typeListAssignment t a children tail
  | l =>
    let r : Option Token := a.args[1]?
    match sideType t l, sideType t r with
    | some lt, some rt =>
      if lt = rt then .ok t
      else
        match l, r with
        | _, some (.var pos x) => constrainVar t x lt pos a.pred
        | some (.var pos x), _ => constrainVar t x rt pos a.pred
        | _, _ => .error (.mismatched a.pos)
    | some lt, none => constrainResult t r lt a.pred
    | none, some rt => constrainResult t l rt a.pred
    | none, none => .ok (registerSide (registerSide t l) r)

/-- `typeAggregate`. -/
def typeAggregate (t : VTab) (a : Atom) : Pass :=
  let op := a.aggOp.getD ""
  if op = "min" ∨ op = "max" then
    match a.args.head? with
    | some (.var pos x) =>
      match t.typeOf x with
      | none => .error (.operandUntyped pos op)
      | some ot =>
        if ot = natural ∨ ot = .flat .timestamp ∨ ot = .flat .date then
          constrainVar t a.pred ot a.pos op
        else .error (.operandType pos op ot)
    | _ => constrainVar t a.pred natural a.pos op
  else
    (constrainVar t a.pred natural a.pos op).bind fun t =>
      if op = "count" then .ok t else constrainResult t a.args.head? natural op

/-- `typeStrProducing`. -/
def typeStrProducing (t : VTab) (a : Atom) : Pass :=
  if a.pred = "length" then
    (constrainResult t a.args[0]? natural a.pred).bind fun t =>
      match a.args[1]? with
      | some s => constrainArg t s text a.pred
      | none => .ok t
  else constrainAll t a.args text a.pred

/-- `typeStrFilter`. -/
def typeStrFilter (t : VTab) (a : Atom) : Pass := constrainAll t a.args text a.pred

/-- The head operand of `cons`. -/
def typeConsHead (t : VTab) (h : Option Token) (elem : Scalar) (site : String) : Pass :=
  match h with
  | none => .ok t
  | some (.list pos _ _) => .error (.consHead pos)
  | some h => constrainListElem t h elem site

/-- The second operand of `append`. -/
def typeAppendOperand (t : VTab) (b : Option Token) (elem : Scalar) (site : String) : Pass :=
  match b with
  | none => .ok t
  | some (.var pos x) => constrainVar t x (.list elem) pos site
  | some (.list _ children tail) => typeListLiteralKnown t children tail elem site
  | some b => .error (.appendOperand b.pos)

/-- `typeListBuiltin`. -/
def typeListBuiltin (t : VTab) (a : Atom) : Pass :=
  let p := a.pred
  if p = "member" ∨ p = "car" then
    (resolveListOperand t a.args[1]? p).bind fun elem =>
      constrainResult t a.args[0]? (.flat elem) p
  else if p = "cdr" then
    (resolveListOperand t a.args[1]? p).bind fun elem =>
      constrainResult t a.args[0]? (.list elem) p
  else if p = "cons" then
    (resolveListOperand t a.args[2]? p).bind fun elem =>
      (typeConsHead t a.args[1]? elem p).bind fun t =>
        constrainResult t a.args[0]? (.list elem) p
  else
    (resolveListOperand t a.args[1]? p).bind fun elem =>
      (typeAppendOperand t a.args[2]? elem p).bind fun t =>
        constrainResult t a.args[0]? (.list elem) p

/-- `typeRange`: `range(X, Rel, Lo, Hi)`. -/
def typeRange (t : VTab) (a : Atom) : Pass :=
  match a.args with
  | [x, rl, lo, hi] =>
    match rl with
    | .ident _ _ =>
      (constrainResult t (some x) natural "range").bind fun t =>
        (constrainArg t lo natural "range").bind fun t => constrainArg t hi natural "range"
    | rl => .error (.rangeRel rl.pos)
  | _ => .error (.rangeArity a.pos)

/-- What the operand of a comparison is known to be, before the table is asked. -/
def compareType (t : VTab) (s : Option Token) (default : Option ColSpec) : Option ColSpec :=
  match s with
  | some (.var _ x) =>
    match t.find x with
    | some e => e.type
    | none => default
  | _ => default

/-- `<`, `<=`, `>`, `>=`: one orderable type for both sides. -/
def typeComparison (t : VTab) (a : Atom) : Pass :=
  let l₀ := (a.args[0]?.map tokenInherentType).getD (some natural)
  let r₀ := (a.args[1]?.map tokenInherentType).getD l₀
  let lc := compareType t a.args[0]? l₀
  let rc := compareType t a.args[1]? r₀
  let want :=
    if isOrderable lc then lc.getD natural
    else if isOrderable rc then rc.getD natural else natural
  constrainAll t a.args want a.pred

/-- `!=`: the variables are registered and not constrained. -/
def registerAll (t : VTab) (args : List Token) : VTab :=
  args.foldl (fun t a => registerSide t (some a)) t

/-- `typeBodyAtom`. -/
def typeBodyAtom (σ : Schema) (t : VTab) (a : Atom) : Pass :=
  if a.aggregate then typeAggregate t a
  else if a.pattern.isSome then constrainAll t a.args text "~"
  else
    match a.arith with
    | some e => typeArith t a e
    | none =>
      if a.pred = "!=" then .ok (registerAll t a.args)
      else if isComparisonPred a.pred then typeComparison t a
      else if a.pred = "=" ∧ a.args.length = 2 then typeEquality t a
      else if isStrProducingPred a.pred then typeStrProducing t a
      else if isStrFilterPred a.pred then typeStrFilter t a
      else if isListBuiltinPred a.pred then typeListBuiltin t a
      else if isRangeBuiltinPred a.pred then typeRange t a
      else typeRelational σ t a false

/-! ## Rules -/

/-- `typeRule`. -/
def typeRule (σ : Schema) (r : Rule) : Except TypeErr Unit :=
  (typeRelational σ [] r.head true).bind fun t =>
    (r.body.foldlM (typeBodyAtom σ) t).bind fun t =>
      match t.find? (·.type.isNone) with
      | some e => .error (.untyped e.name r.head.pred)
      | none => .ok ()

/-- `dl_typecheck_rules`: the first diagnostic of the first rule that has one. -/
def dlTypecheckRules (σ : Schema) (rules : List Rule) : Except TypeErr Unit :=
  rules.forM (typeRule σ)

end DatalogDafsa.Typecheck
