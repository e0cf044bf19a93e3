import DatalogDafsa.Dafsa

/-!
# Rules as the parser hands them over

A rule is a head atom and a list of body atoms.  A body atom is a relation atom,
possibly negated or with a pattern, an aggregate, or a builtin, which the compiler
tells from the predicate name.

## Main definitions

* `Token`, `Expr`, `Atom`, `Rule` — the abstract syntax.
* `isRangeBuiltin` and its kin — the builtins.
* `Decls` — the names of the declared relations, in the order of their ids.
-/

namespace DatalogDafsa

/-- `token`: an argument of an atom. -/
inductive Token
  /-- `TOK_VAR`. -/
  | var (text : String)
  /-- `TOK_IDENT`. -/
  | ident (text : String)
  /-- `TOK_STRING`. -/
  | str (text : String)
  /-- `TOK_INT`. -/
  | int (ival : Val)
  /-- `TOK_LIST`: elements, and what comes after the bar. -/
  | list (children : List Token) (tail : Option Token)

/-- `expr`: an arithmetic expression. -/
inductive Expr
  /-- A literal. -/
  | int (ival : Val)
  /-- A variable. -/
  | var (name : String)
  /-- An operation. -/
  | binop (op : Char) (l r : Expr)

/-- `atom`. -/
structure Atom where
  /-- Predicate name; the result variable of an aggregate. -/
  pred : String
  /-- Arguments. -/
  args : List Token
  /-- Preceded by `!`. -/
  negated : Bool := false
  /-- The operator of an aggregate. -/
  aggOp : Option String := none
  /-- The pattern of a `~` atom. -/
  pattern : Option String := none
  /-- Its column. -/
  patternCol : ℕ := 0
  /-- The expression of an atom `X = E`. -/
  arith : Option Expr := none

/-- `rule`. -/
structure Rule where
  /-- Head. -/
  head : Atom
  /-- Body. -/
  body : List Atom

/-- `is_range_builtin`. -/
def isRangeBuiltin (a : Atom) : Bool := a.pred = "range"

/-- The relation a range atom runs over, when its second argument names one. -/
def rangeRel (a : Atom) : Option String :=
  if isRangeBuiltin a then
    match a.args[1]? with
    | some (Token.ident text) => some text
    | _ => none
  else none

/-- The names of the declared relations, in the order of their ids. -/
abbrev Decls := List String

/-- `db_find_rel`: the id of a relation. -/
def Decls.find (d : Decls) (name : String) : Option ℕ := d.findIdx? (· = name)

theorem Decls.find_lt {d : Decls} {name : String} {id : ℕ} (h : d.find name = some id) :
    id < d.length := by
  obtain ⟨hlt, -⟩ := List.findIdx?_eq_some_iff_getElem.mp h
  exact hlt

end DatalogDafsa
