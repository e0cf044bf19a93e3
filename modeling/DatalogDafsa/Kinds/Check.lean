import DatalogDafsa.Typecheck.Check

/-!
# Column kinds

Values are bare words, numbers or symbol ids, so a program that compares a column of
numbers with a column of symbols answers by accident.  Before rules are compiled the
kinds of their head columns are propagated until nothing changes, the declared kind
of a column before the propagated one and that before the recorded one; a column to
which two rules give different kinds is a conflict.  Then each rule is looked at: a
variable must not join numbers and symbols, and a constant must have the kind of its
column.

## Main definitions

* `Kind`, `kindJoin`, `KindDb`, `relColKind` — kinds, and where a column has its from.
* `bodyKinds`, `headStep`, `propagateRule`, `kindRound`, `propagateHeadKinds` — the
  propagation.
* `checkRuleVarKinds`, `checkRuleConsts`, `checkAllRuleConstKinds` — the check.
-/

namespace DatalogDafsa.Kinds

/-! ## Kinds -/

/-- The kind of a recorded column. -/
inductive Definite
  /-- `KIND_INT`. -/
  | int
  /-- `KIND_SYM`. -/
  | sym
  deriving DecidableEq

/-- The kind of a column while it is propagated. -/
inductive Kind
  /-- `KIND_UNKNOWN`. -/
  | unknown
  /-- `KIND_INT`. -/
  | int
  /-- `KIND_SYM`. -/
  | sym
  /-- `KIND_MIXED`. -/
  | mixed
  deriving DecidableEq

/-- `HOMOG_MAX_RELS`. -/
def maxRels : ℕ := 64

/-- `HOMOG_MAX_ARITY`. -/
def maxArity : ℕ := 8

/-- `MAX_VARS`. -/
def maxVars : ℕ := 64

/-- `kindJoin`. -/
def kindJoin (a b : Kind) : Kind :=
  if a = .unknown then b else if b = .unknown then a else if a = b then a else .mixed

/-- `tokenColKind`. -/
def tokenColKind : Typecheck.Token → Kind
  | .int _ _ => .int
  | .ident _ _ | .string _ _ => .sym
  | _ => .unknown

/-- `colTypeKind`. -/
def colTypeKind : Typecheck.ColSpec → Kind
  | .flat .text | .enum _ => .sym
  | .flat _ => .int
  | .list _ | .optional _ => .unknown

/-- The kind of a record. -/
def Kind.ofRecord : Option Definite → Kind
  | none => .unknown
  | some .int => .int
  | some .sym => .sym

/-! ## The database -/

/-- What the check reads of a relation. -/
structure RelEntry where
  /-- Name. -/
  name : String
  /-- `RELK_VARIADIC`. -/
  variadic : Bool := false
  /-- `rel_arity`. -/
  arity : ℕ
  /-- `rel_col_kind`: a record is never mixed. -/
  colKind : ℕ → Option Definite
  /-- `rel_count` is zero. -/
  empty : Bool

/-- What the check reads of a database. -/
structure KindDb where
  /-- The relations, in the order of their ids. -/
  rels : List RelEntry
  /-- The attached schema. -/
  schema : Option Typecheck.Schema := none

/-- Propagated kinds, by relation and column. -/
abbrev Cache := ℕ → ℕ → Kind

/-- Nothing is propagated yet. -/
def Cache.zero : Cache := fun _ _ => .unknown

/-- Set one cell. -/
def Cache.set (cache : Cache) (ri col : ℕ) (k : Kind) : Cache :=
  Function.update cache ri (Function.update (cache ri) col k)

namespace KindDb

variable (db : KindDb)

/-- `db_find_rel`. -/
def find (name : String) : Option ℕ := db.rels.findIdx? (·.name = name)

/-- The declaration of a relation in the attached schema. -/
def declared (e : RelEntry) : Option Typecheck.RelDef := db.schema.bind (·.find e.name)

/-- `headEmpty`. -/
def headEmpty (ri : ℕ) : Bool :=
  match db.rels[ri]? with
  | none => true
  | some e => !e.variadic && e.empty

/-- Is the relation variadic? -/
def isVariadic (ri : ℕ) : Bool :=
  match db.rels[ri]? with
  | none => false
  | some e => e.variadic

/-- `db_rel_arity`. -/
def relArity (ri : ℕ) : ℕ :=
  match db.rels[ri]? with
  | none => 0
  | some e => e.arity

end KindDb

/-- The kind of a column of a known relation: declared, propagated or recorded. -/
def entryKind (db : KindDb) (cache : Cache) (e : RelEntry) (ri col : ℕ) : Kind :=
  match db.declared e with
  | some rd =>
    match rd.cols[col]? with
    | some ct => colTypeKind ct
    | none => .unknown
  | none => if cache ri col ≠ .unknown then cache ri col else .ofRecord (e.colKind col)

/-- `relColKind`. -/
def relColKind (db : KindDb) (cache : Cache) (ri col arity : ℕ) : Kind :=
  if maxArity ≤ col ∨ maxArity < arity ∨ arity = 0 ∨ maxRels ≤ ri then .unknown
  else
    match db.rels[ri]? with
    | none => .unknown
    | some e => if e.variadic then .unknown else entryKind db cache e ri col

/-! ## Builtins, as the compiler tells them -/

/-- `is_comparison`. -/
def isComparison (a : Typecheck.Atom) : Bool := a.pred ∈ ["<", "<=", ">", ">=", "!="]

/-- `is_arith`. -/
def isArith (a : Typecheck.Atom) : Bool := a.pred = "=" && a.arith.isSome

/-- `is_equality`. -/
def isEquality (a : Typecheck.Atom) : Bool :=
  a.pred = "=" && a.args.length = 2 && a.arith.isNone

/-- `is_list_assign`. -/
def isListAssign (a : Typecheck.Atom) : Bool :=
  isEquality a &&
    match (a.args[0]? : Option Typecheck.Token) with
    | some (.list _ _ _) => true
    | _ => false

/-- `is_str_producing`. -/
def isStrProducing (a : Typecheck.Atom) : Bool := a.pred ∈ ["concat", "length", "lower", "upper"]

/-- `is_str_filter`. -/
def isStrFilter (a : Typecheck.Atom) : Bool := a.pred ∈ ["prefix", "suffix", "contains"]

/-- `is_list_producing`. -/
def isListProducing (a : Typecheck.Atom) : Bool := a.pred ∈ ["cons", "car", "cdr", "append"]

/-- `is_list_filter`. -/
def isListFilter (a : Typecheck.Atom) : Bool := a.pred = "member"

/-- `is_range_builtin`. -/
def isRange (a : Typecheck.Atom) : Bool := a.pred = "range"

/-- `is_builtin_pred`. -/
def isBuiltinPred (a : Typecheck.Atom) : Bool :=
  isEquality a || isComparison a || isArith a || isStrProducing a || isStrFilter a ||
    isListProducing a || isListFilter a || isRange a

/-- The name of an argument that is a variable. -/
def varName : Option Typecheck.Token → Option String
  | some (.var _ x) => some x
  | _ => none

/-- The name of an argument that is an identifier. -/
def identName : Option Typecheck.Token → Option String
  | some (.ident _ x) => some x
  | _ => none

/-- A relation atom of a size the check looks at, with the id of its relation. -/
def relationalAtom (db : KindDb) (a : Typecheck.Atom) : Option ℕ :=
  if a.aggregate || isBuiltinPred a || a.args.length = 0 || maxArity < a.args.length then none
  else db.find a.pred

/-! ## Propagation -/

/-- The kind of each column of each relation, an atom of so many arguments asking. -/
abbrev ColKinds := ℕ → ℕ → ℕ → Kind

/-- `vnames`, `vkinds`: the variables of a rule and their kinds. -/
abbrev VarKinds := List (String × Kind)

/-- The kind of a variable; unknown when it is not in the table. -/
def VarKinds.kindOf (t : VarKinds) (name : String) : Kind := (t.lookup name).getD .unknown

/-- Join a kind into the entry of a variable; a full table takes no new one. -/
def VarKinds.note (t : VarKinds) (name : String) (k : Kind) : VarKinds :=
  if (t.lookup name).isSome then t.map fun p => if p.1 = name then (p.1, kindJoin p.2 k) else p
  else if maxVars ≤ t.length then t
  else t ++ [(name, k)]

/-- The kind of an argument that is a variable. -/
def argKind (kinds : String → Kind) (arg : Option Typecheck.Token) : Kind :=
  ((varName arg).map kinds).getD .unknown

/-- The variables of an atom with the kinds of the columns they stand in. -/
def atomKinds (db : KindDb) (cols : ColKinds) (a : Typecheck.Atom) : VarKinds :=
  if a.negated then []
  else
    match relationalAtom db a with
    | none => []
    | some ri =>
      a.args.zipIdx.filterMap fun p =>
        (varName (some p.1)).map (·, cols ri p.2 a.args.length)

/-- The kinds of the variables of a positive relation atom. -/
def noteAtom (db : KindDb) (cols : ColKinds) (t : VarKinds) (a : Typecheck.Atom) : VarKinds :=
  (atomKinds db cols a).foldl (fun t p => t.note p.1 p.2) t

/-- The kind of the column that a range atom runs over. -/
def rangeKind (db : KindDb) (cols : ColKinds) (a : Typecheck.Atom) : Option Kind :=
  if a.args.length = 4 then
    (identName a.args[1]?).bind fun rel =>
      (db.find rel).map fun ri => cols ri 0 (db.relArity ri)
  else none

/-- The variable that an aggregate, an arithmetic, a string or a range atom binds, and the
kind of its values. -/
def resultKind (db : KindDb) (cols : ColKinds) (kinds : String → Kind) (a : Typecheck.Atom) :
    Option (String × Kind) :=
  if a.negated then none
  else if a.aggregate then
    let op := a.aggOp.getD ""
    if op = "count" ∨ op = "sum" then some (a.pred, .int)
    else if op = "min" ∨ op = "max" then some (a.pred, argKind kinds a.args[0]?)
    else none
  else if isArith a then (varName a.args[0]?).map (·, .int)
  else if isStrProducing a then
    (varName a.args[0]?).map (·, if a.pred = "length" then .int else .sym)
  else if isRange a then
    (varName a.args[0]?).bind fun x => (rangeKind db cols a).map (x, ·)
  else none

/-- The kind of the result of an atom. -/
def noteResult (db : KindDb) (cols : ColKinds) (t : VarKinds) (a : Typecheck.Atom) : VarKinds :=
  match resultKind db cols t.kindOf a with
  | some (x, k) => if k = .unknown then t else t.note x k
  | none => t

/-- The variables of a body and their kinds: relation atoms first, results after. -/
def bodyKinds (db : KindDb) (cols : ColKinds) (body : List Typecheck.Atom) : VarKinds :=
  body.foldl (noteResult db cols) (body.foldl (noteAtom db cols) [])

/-- The relation whose columns a rule gives kinds to. -/
def headTarget (db : KindDb) (r : Typecheck.Rule) : Option ℕ :=
  if r.head.aggregate || r.head.args.length = 0 || maxArity < r.head.args.length then none
  else (db.find r.head.pred).filter fun ri => decide (ri < maxRels) && !db.isVariadic ri

/-- The kind a head column has before rules give it one: declared or recorded, when the
relation holds rows. -/
def seedKind (db : KindDb) (ri col arity : ℕ) : Kind :=
  if db.headEmpty ri then .unknown else relColKind db .zero ri col arity

/-- The kind of a head column. -/
def curKind (db : KindDb) (cache : Cache) (ri col arity : ℕ) : Kind :=
  if cache ri col = .unknown then seedKind db ri col arity else cache ri col

/-- One head column of a rule; `none` is a conflict.  The flag says that a kind changed. -/
def headStep (db : KindDb) (ri arity : ℕ) (t : VarKinds) (st : Cache × Bool)
    (arg : Typecheck.Token × ℕ) : Option (Cache × Bool) :=
  let contrib := argKind t.kindOf (some arg.1)
  if contrib = .unknown then some st
  else
    let cur := curKind db st.1 ri arg.2 arity
    if (cur = .int ∧ contrib = .sym) ∨ (cur = .sym ∧ contrib = .int) then none
    else
      let joined := kindJoin cur contrib
      if joined ≠ st.1 ri arg.2 then some (st.1.set ri arg.2 joined, true) else some st

/-- One rule. -/
def propagateRule (db : KindDb) (st : Cache × Bool) (r : Typecheck.Rule) : Option (Cache × Bool) :=
  match headTarget db r with
  | none => some st
  | some ri =>
    let t := bodyKinds db (relColKind db st.1) r.body
    r.head.args.zipIdx.foldlM (headStep db ri r.head.args.length t) st

/-- One round over the rules. -/
def kindRound (db : KindDb) (rules : List Typecheck.Rule) (cache : Cache) :
    Option (Cache × Bool) :=
  rules.foldlM (propagateRule db) (cache, false)

/-- Rounds while something changes. -/
def kindRounds (db : KindDb) (rules : List Typecheck.Rule) : ℕ → Cache → Option Cache
  | 0, cache => some cache
  | rounds + 1, cache =>
    match kindRound db rules cache with
    | none => none
    | some (cache', false) => some cache'
    | some (cache', true) => kindRounds db rules rounds cache'

/-- **`propagateHeadKinds`**: 64 rounds at most. -/
def propagateHeadKinds (db : KindDb) (rules : List Typecheck.Rule) : Option Cache :=
  kindRounds db rules 64 .zero

/-! ## Variables of a rule -/

mutual

/-- `token_contains_var`. -/
def tokenContainsVar (name : String) : Typecheck.Token → Bool
  | .var _ x => x = name
  | .list _ children none => tokensContainVar name children
  | .list _ children (some tail) => tokensContainVar name children || tokenContainsVar name tail
  | _ => false

/-- Does one of the tokens contain the variable? -/
def tokensContainVar (name : String) : List Typecheck.Token → Bool
  | [] => false
  | t :: ts => tokenContainsVar name t || tokensContainVar name ts

end

/-- `expr_contains_var`. -/
def exprContainsVar (name : String) : Typecheck.Expr → Bool
  | .int _ => false
  | .var x => x = name
  | .binop _ l r => exprContainsVar name l || exprContainsVar name r

/-- A negated relation atom. -/
def isNegatedRelational (a : Typecheck.Atom) : Bool :=
  a.negated && !a.aggregate && !isBuiltinPred a

/-- Does an atom that is not a negated relation atom use the variable? -/
def usesVar (name : String) (a : Typecheck.Atom) : Bool :=
  (a.aggregate && a.pred = name) ||
    (isArith a && a.arith.any (exprContainsVar name)) || tokensContainVar name a.args

/-- `neg_wildcard_var`: the variable occurs in negated relation atoms only. -/
def negWildcardVar (r : Typecheck.Rule) (name : String) : Bool :=
  !tokensContainVar name r.head.args &&
    r.body.all (fun a => isNegatedRelational a || !usesVar name a) &&
    r.body.any fun a => isNegatedRelational a && tokensContainVar name a.args

/-- The sites of a variable: was there one of numbers, one of symbols, one of lists? -/
structure VarSites where
  /-- Name. -/
  name : String
  /-- `vint_rel`. -/
  int : Bool := false
  /-- `vsym_rel`. -/
  sym : Bool := false
  /-- `vlist_rel`. -/
  list : Bool := false

/-- The kind of a site. -/
inductive SiteKind
  /-- The kind of a column. -/
  | col (k : Kind)
  /-- `KIND_LIST`: a handle of a list. -/
  | list
  deriving DecidableEq

/-- The variables of a rule and their sites. -/
abbrev SiteTab := List VarSites

/-- The sites of a variable, when it is in the table. -/
def SiteTab.find (t : SiteTab) (name : String) : Option VarSites := t.find? (·.name = name)

/-- Add a site. -/
def VarSites.add (v : VarSites) : SiteKind → VarSites
  | .col .int => { v with int := true }
  | .col .sym => { v with sym := true }
  | .list => { v with list := true }
  | _ => v

/-- Add a site of a variable; a full table takes no new one. -/
def SiteTab.note (t : SiteTab) (name : String) (k : SiteKind) : SiteTab :=
  if (t.find name).isSome then t.map fun v => if v.name = name then v.add k else v
  else if maxVars ≤ t.length then t
  else t ++ [VarSites.add { name := name } k]

/-- The sites in a relation atom, negated or not; a variable of negated atoms only is no
join. -/
def siteAtom (db : KindDb) (cache : Cache) (r : Typecheck.Rule) (t : SiteTab)
    (a : Typecheck.Atom) : SiteTab :=
  match relationalAtom db a with
  | none => t
  | some ri =>
    a.args.zipIdx.foldl (fun t p =>
      match varName (some p.1) with
      | some x =>
        if a.negated && negWildcardVar r x then t
        else t.note x (.col (relColKind db cache ri p.2 a.args.length))
      | none => t) t

/-- The kind of the elements of a list of constants, when they have one. -/
def elemsKind (children : List Typecheck.Token) : Kind :=
  match children.map tokenColKind with
  | [] => .unknown
  | k :: ks => if ks.all (· = k) then k else .unknown

/-- The variable that an aggregate or a builtin binds, and the kind of its values. -/
def siteKind (db : KindDb) (cache : Cache) (t : SiteTab) (a : Typecheck.Atom) :
    Option (String × SiteKind) :=
  if a.negated then none
  else if a.aggregate then
    let op := a.aggOp.getD ""
    if op = "count" ∨ op = "sum" then some (a.pred, .col .int)
    else if op = "min" ∨ op = "max" then
      ((varName a.args[0]?).bind t.find).map fun v =>
        (a.pred, .col (if v.int then .int else if v.sym then .sym else .unknown))
    else none
  else if isArith a then (varName a.args[0]?).map (·, .col .int)
  else if isStrProducing a then
    (varName a.args[0]?).map (·, .col (if a.pred = "length" then .int else .sym))
  else if isListProducing a then
    if a.pred = "car" then none else (varName a.args[0]?).map (·, .list)
  else if isRange a then
    (varName a.args[0]?).bind fun x => (rangeKind db (relColKind db cache) a).map (x, .col ·)
  else if isListFilter a && a.args.length = 2 then
    match (a.args[1]? : Option Typecheck.Token) with
    | some (.list _ children none) => (varName a.args[0]?).map (·, .col (elemsKind children))
    | _ => none
  else none

/-- The site of the result of an atom. -/
def siteResult (db : KindDb) (cache : Cache) (t : SiteTab) (a : Typecheck.Atom) : SiteTab :=
  match siteKind db cache t a with
  | some (x, k) => if k = .col .unknown then t else t.note x k
  | none => t

/-- The settled kind of a variable. -/
inductive VarKind
  | unknown | int | sym | list
  deriving DecidableEq

/-- `vk`. -/
def VarSites.kind (v : VarSites) : VarKind :=
  if v.int then .int else if v.sym then .sym else if v.list then .list else .unknown

/-- The kind of an operand that is a variable. -/
def operandKind (t : SiteTab) (arg : Option Typecheck.Token) : VarKind :=
  (((varName arg).bind t.find).map VarSites.kind).getD .unknown

/-- `exprSymVar`: a variable of symbols or lists in an expression. -/
def exprSymVar (t : SiteTab) : Typecheck.Expr → Bool
  | .int _ => false
  | .var x => ((t.find x).map VarSites.kind).any fun k => k = .sym || k = .list
  | .binop _ l r => exprSymVar t l || exprSymVar t r

/-- A comparison: no order between symbols or lists, no symbol against a number. -/
def comparisonOk (t : SiteTab) (a : Typecheck.Atom) : Bool :=
  let k₀ := operandKind t a.args[0]?
  let k₁ := operandKind t a.args[1]?
  if a.pred = "!=" then
    !(k₀ = .sym && k₁ = .int) && !(k₁ = .sym && k₀ = .int)
  else !(k₀ = .sym || k₀ = .list) && !(k₁ = .sym || k₁ = .list)

/-- An equality: no two known kinds that differ. -/
def equalityOk (t : SiteTab) (a : Typecheck.Atom) : Bool :=
  let k₀ := operandKind t a.args[0]?
  let k₁ := operandKind t a.args[1]?
  k₀ = .unknown || k₁ = .unknown || k₀ = k₁

/-- An arithmetic atom: numbers in, a number out. -/
def arithOk (t : SiteTab) (a : Typecheck.Atom) : Bool :=
  !a.arith.any (exprSymVar t) && operandKind t a.args[0]? ≠ .sym

/-- The kinds of the operands of a builtin. -/
def builtinOk (t : SiteTab) (a : Typecheck.Atom) : Bool :=
  if a.negated then true
  else if isComparison a then comparisonOk t a
  else if isEquality a && !isListAssign a then equalityOk t a
  else if isArith a then arithOk t a
  else true

/-- The sites of the variables of a rule. -/
def ruleSites (db : KindDb) (cache : Cache) (r : Typecheck.Rule) : SiteTab :=
  r.body.foldl (siteResult db cache) (r.body.foldl (siteAtom db cache r) [])

/-- `checkRuleVarKinds`: is the rule accepted? -/
def checkRuleVarKinds (db : KindDb) (cache : Cache) (r : Typecheck.Rule) : Bool :=
  let t := ruleSites db cache r
  t.all (fun v => !(v.int && v.sym)) && r.body.all (builtinOk t)

/-! ## Constants -/

/-- The constants of an atom have the kinds of their columns. -/
def checkAtomConsts (db : KindDb) (cache : Cache) (a : Typecheck.Atom) : Bool :=
  match relationalAtom db a with
  | none => true
  | some ri =>
    a.args.zipIdx.all fun p =>
      let ck := tokenColKind p.1
      let colk := relColKind db cache ri p.2 a.args.length
      ck = .unknown || colk = .unknown || colk = .mixed || colk = ck

/-- The constants of a rule. -/
def checkRuleConsts (db : KindDb) (cache : Cache) (r : Typecheck.Rule) : Bool :=
  (r.head :: r.body).all (checkAtomConsts db cache)

/-- The checks of a rule against settled kinds. -/
def checkRule (db : KindDb) (cache : Cache) (r : Typecheck.Rule) : Bool :=
  checkRuleVarKinds db cache r && checkRuleConsts db cache r

/-- **`checkAllRuleConstKinds`**: are the rules accepted? -/
def checkAllRuleConstKinds (db : KindDb) (rules : List Typecheck.Rule) : Bool :=
  if rules = [] then true
  else
    match propagateHeadKinds db rules with
    | none => false
    | some cache =>
      rules.all (checkRuleVarKinds db cache) && rules.all (checkRuleConsts db cache)

end DatalogDafsa.Kinds
