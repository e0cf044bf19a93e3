import DatalogDafsa.Kinds.Order
import DatalogDafsa.Lib.Operators

/-!
# Programs on tagged values

The engine evaluates on bare words.  What is meant is an evaluation on values that
carry their kind, where a number is never a symbol.  Both are the perfect model of
the same rules, over words and over tagged values, and a program is *read the same*
when the one is the image of the other.  It is when the columns have definite kinds
that the rules respect: every row has the kinds of its columns then, and every match
of words is a match of tagged values.

## Main definitions

* `Tagged`, `argValue`, `Matches` — values, and the rows an atom matches.
* `ruleOper`, `opers`, `evaluate` — rules as operators, and their perfect model.
* `Relational` — rules of relation atoms that the compiler takes.
* `WellKinded` — column kinds that a rule respects.

## Main results

* `evaluate_erase` — evaluating on words gives the image of evaluating on tagged values.
-/

namespace DatalogDafsa.Kinds

open Operators (Oper PerfectModel Stratified)

/-! ## Values and rows -/

/-- A number, or the id of a symbol. -/
structure Tagged where
  /-- Which of the two. -/
  kind : Definite
  /-- The word that is stored. -/
  word : UInt32
  deriving DecidableEq

/-- The row that is stored. -/
def erase (row : List Tagged) : List UInt32 := row.map Tagged.word

/-- The value of a constant; `syms` are the ids of the symbols. -/
def constValue (syms : String → UInt32) : Typecheck.Token → Option Tagged
  | .int _ n => some ⟨.int, n⟩
  | .ident _ x | .string _ x => some ⟨.sym, syms x⟩
  | _ => none

section Semantics

variable {V : Type} (syms : String → UInt32) (c : Tagged → V)

/-- The value of an argument; `c` is how a value is seen. -/
def argValue (env : String → V) : Typecheck.Token → Option V
  | .var _ x => some (env x)
  | t => (constValue syms t).map c

/-- The arguments have these values. -/
def Matches (env : String → V) (args : List Typecheck.Token) (row : List V) : Prop :=
  List.Forall₂ (fun t v => argValue syms c env t = some v) args row

/-- Two environments agree but for the variables that stand in negated atoms only. -/
def SameBound (r : Typecheck.Rule) (env env' : String → V) : Prop :=
  ∀ x, negWildcardVar r x = false → env' x = env x

/-- A relation atom holds: a row matches it, and none when it is negated. -/
def AtomHolds (r : Typecheck.Rule) (C : ℕ → Set (List V)) (env : String → V)
    (a : Typecheck.Atom) (ri : ℕ) : Prop :=
  if a.negated then ∀ env', SameBound r env env' → ∀ row ∈ C ri, ¬ Matches syms c env' a.args row
  else ∃ row ∈ C ri, Matches syms c env a.args row

/-- The body of a rule holds. -/
def BodyHolds (db : KindDb) (r : Typecheck.Rule) (C : ℕ → Set (List V)) (env : String → V) : Prop :=
  ∀ a ∈ r.body, ∀ ri, db.find a.pred = some ri → AtomHolds syms c r C env a ri

/-- The relations of the atoms of one sign. -/
def readBy (db : KindDb) (r : Typecheck.Rule) (negated : Bool) : Set ℕ :=
  {ri | ∃ a ∈ r.body, a.negated = negated ∧ db.find a.pred = some ri}

theorem bodyHolds_mono {db : KindDb} {r : Typecheck.Rule} {C C' : ℕ → Set (List V)}
    (hpos : ∀ s ∈ readBy db r false, C s ⊆ C' s) (hneg : ∀ s ∈ readBy db r true, C' s ⊆ C s)
    {env : String → V} (h : BodyHolds syms c db r C env) : BodyHolds syms c db r C' env := by
  intro a ha ri hri
  have hold := h a ha ri hri
  unfold AtomHolds at hold ⊢
  split
  · next hn =>
    rw [if_pos hn] at hold
    exact fun env' henv row hrow => hold env' henv row (hneg ri ⟨a, ha, hn, hri⟩ hrow)
  · next hn =>
    rw [if_neg hn] at hold
    obtain ⟨row, hrow, hmatch⟩ := hold
    exact ⟨row, hpos ri ⟨a, ha, by simpa using hn, hri⟩ hrow, hmatch⟩

/-- A rule adds the rows of its head. -/
def ruleOper (db : KindDb) (r : Typecheck.Rule) (head : ℕ) : Oper ℕ (List V) where
  head := head
  pos := readBy db r false
  strict := readBy db r true
  out C := {row | ∃ env, BodyHolds syms c db r C env ∧ Matches syms c env r.head.args row}
  mono _ _ hpos hstrict _ := fun ⟨env, hbody, hhead⟩ =>
    ⟨env, bodyHolds_mono syms c hpos (fun s hs => (hstrict s hs).ge) hbody, hhead⟩

/-- The rules as operators. -/
def opers (db : KindDb) (rules : List Typecheck.Rule) : List (Oper ℕ (List V)) :=
  rules.filterMap fun r => (db.find r.head.pred).map (ruleOper syms c db r)

/-- What the rules evaluate to over the facts `B`, stratum by stratum. -/
noncomputable def evaluate (db : KindDb) (rules : List Typecheck.Rule) (lv : ℕ → ℕ)
    (B : ℕ → Set (List V)) : ℕ → Set (List V) :=
  Operators.perfect (opers syms c db rules) lv B

variable {syms c}

theorem mem_opers {db : KindDb} {rules : List Typecheck.Rule} {o : Oper ℕ (List V)} :
    o ∈ opers syms c db rules ↔
      ∃ r ∈ rules, ∃ head, db.find r.head.pred = some head ∧ o = ruleOper syms c db r head := by
  unfold opers
  rw [List.mem_filterMap]
  refine exists_congr fun r => and_congr_right fun _ => ?_
  rw [Option.map_eq_some_iff]
  exact exists_congr fun head => and_congr_right fun _ => eq_comm

end Semantics

/-! ## Rules of relation atoms -/

/-- An argument that is a variable or a constant. -/
def isFlat : Typecheck.Token → Bool
  | .var _ _ | .int _ _ | .ident _ _ | .string _ _ => true
  | _ => false

/-- An atom over a relation of the database, of its arity. -/
structure OverDb (db : KindDb) (a : Typecheck.Atom) : Prop where
  /-- It is no aggregate. -/
  aggregate : a.aggregate = false
  /-- It is no builtin. -/
  builtin : isBuiltinPred a = false
  /-- Its relation, which has its arity. -/
  rel : ∃ ri e, db.find a.pred = some ri ∧ db.rels[ri]? = some e ∧ e.arity = a.args.length
  /-- Variables and constants only. -/
  flat : ∀ t ∈ a.args, isFlat t = true

/-- The variable stands in a positive atom. -/
def Grounded (r : Typecheck.Rule) (x : String) : Prop :=
  ∃ a ∈ r.body, a.negated = false ∧ some x ∈ a.args.map fun t => varName (some t)

/-- A rule of relation atoms that the compiler takes. -/
structure Relational (db : KindDb) (r : Typecheck.Rule) : Prop where
  /-- The head. -/
  head : OverDb db r.head
  /-- The head has variables only. -/
  headVars : ∀ t ∈ r.head.args, (varName (some t)).isSome = true
  /-- The body. -/
  body : ∀ a ∈ r.body, OverDb db a
  /-- The variables of the head are grounded. -/
  headSafe : ∀ t ∈ r.head.args, ∀ x, varName (some t) = some x → Grounded r x
  /-- So are those of negated atoms, but for those that stand nowhere else. -/
  negSafe : ∀ a ∈ r.body, a.negated = true → ∀ t ∈ a.args, ∀ x, varName (some t) = some x →
    negWildcardVar r x = false → Grounded r x
  /-- A variable that stands nowhere else stands once in its atom. -/
  once : ∀ a ∈ r.body, a.negated = true → ∀ x, negWildcardVar r x = true →
    ∀ i j : ℕ, varName a.args[i]? = some x → varName a.args[j]? = some x → i = j
  /-- The variables fit the table. -/
  fits : Fits r

/-! ## Kinds that a rule respects -/

/-- The kind of each column. -/
abbrev Columns := ℕ → ℕ → Kind

/-- The row has the kinds of its columns. -/
def HasKinds (K : Columns) (ri : ℕ) (row : List Tagged) : Prop :=
  ∀ (col : ℕ) (v : Tagged), row[col]? = some v → K ri col = .ofRecord (some v.kind)

/-- The site of a variable in an atom. -/
def SiteOf (db : KindDb) (a : Typecheck.Atom) (x : String) (ri col : ℕ) : Prop :=
  db.find a.pred = some ri ∧ varName a.args[col]? = some x

/-- The kinds of the columns, as a rule uses them. -/
structure WellKinded (db : KindDb) (K : Columns) (r : Typecheck.Rule) : Prop where
  /-- A variable does not join numbers and symbols. -/
  sites : ∀ x, negWildcardVar r x = false → ∀ a ∈ r.body, ∀ b ∈ r.body, ∀ ri col ri' col',
    SiteOf db a x ri col → SiteOf db b x ri' col' → ¬ (K ri col = .int ∧ K ri' col' = .sym)
  /-- A constant has the kind of its column. -/
  consts : ∀ a ∈ r.body, ∀ ri, db.find a.pred = some ri → ∀ (col : ℕ) t, a.args[col]? = some t →
    tokenColKind t = .unknown ∨ K ri col = .unknown ∨ K ri col = tokenColKind t
  /-- A head column has the kind of its variable. -/
  head : ∀ ri, db.find r.head.pred = some ri → ∀ (col : ℕ) x, varName r.head.args[col]? = some x →
    ∀ a ∈ r.body, a.negated = false → ∀ ri' col', SiteOf db a x ri' col' →
      ∀ d, K ri' col' = .ofRecord (some d) → K ri col = .ofRecord (some d)

section Erase

variable {syms : String → UInt32} {db : KindDb} {K : Columns} {r : Typecheck.Rule}

/-- The words a row of words matches are those of a row of tagged values. -/
theorem matches_word_iff {env : String → Tagged} {args : List Typecheck.Token} {row : List UInt32} :
    Matches syms Tagged.word (Tagged.word ∘ env) args row ↔
      ∃ row', Matches syms id env args row' ∧ erase row' = row := by
  have harg : ∀ t w, argValue syms Tagged.word (Tagged.word ∘ env) t = some w ↔
      ∃ v, argValue syms id env t = some v ∧ v.word = w := by
    intro t w
    have hconst : (constValue syms t).map Tagged.word = some w ↔
        ∃ v, (constValue syms t).map id = some v ∧ v.word = w := by
      rw [Option.map_eq_some_iff, Option.map_id, id]
    cases t with
    | var p x => simp [argValue]
    | _ => exact hconst
  induction args generalizing row with
  | nil =>
    constructor
    · intro h
      cases h
      exact ⟨[], .nil, rfl⟩
    · rintro ⟨row', h, rfl⟩
      cases h
      exact .nil
  | cons t args ih =>
    constructor
    · intro h
      cases h with
      | cons ht hargs =>
        obtain ⟨v, hv, rfl⟩ := (harg t _).1 ht
        obtain ⟨row', hrow', rfl⟩ := ih.1 hargs
        exact ⟨v :: row', .cons hv hrow', rfl⟩
    · rintro ⟨row', h, rfl⟩
      cases h with
      | cons ht hargs => exact .cons ((harg t _).2 ⟨_, ht, rfl⟩) (ih.2 ⟨_, hargs, rfl⟩)

theorem Matches.get {V : Type} {c : Tagged → V} {env : String → V} {args : List Typecheck.Token}
    {row : List V} (h : Matches syms c env args row) {i : ℕ} {t : Typecheck.Token}
    (ht : args[i]? = some t) : ∃ v, row[i]? = some v ∧ argValue syms c env t = some v := by
  obtain ⟨hi, rfl⟩ := List.getElem?_eq_some_iff.1 ht
  have hi' : i < row.length := h.length_eq ▸ hi
  exact ⟨row[i], List.getElem?_eq_getElem hi', (List.forall₂_iff_get.1 h).2 i hi hi'⟩

/-- The kind of a constant is that of its value. -/
theorem tokenColKind_of_constValue {t : Typecheck.Token} {v : Tagged}
    (h : constValue syms t = some v) : tokenColKind t = .ofRecord (some v.kind) := by
  cases t with
  | int p n => obtain rfl := Option.some.inj h; rfl
  | ident p x => obtain rfl := Option.some.inj h; rfl
  | string p x => obtain rfl := Option.some.inj h; rfl
  | var p x => cases h
  | aggregate p x => cases h
  | list p cs tl => cases h

theorem ofRecord_inj {d d' : Definite} (h : Kind.ofRecord (some d) = .ofRecord (some d')) :
    d = d' := by
  cases d <;> cases d' <;> first | rfl | cases h

/-- The other way: the row that a match reads at a place. -/
theorem Matches.arg {V : Type} {c : Tagged → V} {env : String → V} {args : List Typecheck.Token}
    {row : List V} (h : Matches syms c env args row) {i : ℕ} {v : V} (hv : row[i]? = some v) :
    ∃ t, args[i]? = some t ∧ argValue syms c env t = some v := by
  obtain ⟨hi, rfl⟩ := List.getElem?_eq_some_iff.1 hv
  have hi' : i < args.length := h.length_eq ▸ hi
  exact ⟨args[i], List.getElem?_eq_getElem hi', (List.forall₂_iff_get.1 h).2 i hi' hi⟩

/-- An argument that is a variable. -/
theorem eq_var_of_varName {t : Typecheck.Token} {x : String} (h : varName (some t) = some x) :
    ∃ p, t = .var p x := by
  cases t with
  | var p y => exact ⟨p, by obtain rfl := Option.some.inj h; rfl⟩
  | _ => cases h

theorem argValue_of_varName {V : Type} {c : Tagged → V} {env : String → V} {t : Typecheck.Token}
    {x : String} (h : varName (some t) = some x) : argValue syms c env t = some (env x) := by
  obtain ⟨p, rfl⟩ := eq_var_of_varName h
  rfl

/-- An argument that is no variable has the value of a constant. -/
theorem argValue_of_not_var {V : Type} {c : Tagged → V} {env : String → V} {t : Typecheck.Token}
    (h : varName (some t) = none) : argValue syms c env t = (constValue syms t).map c := by
  cases t with
  | var p x => cases h
  | _ => rfl

/-- Words and kinds together make a tagged value. -/
theorem Tagged.eq_of {v v' : Tagged} (hword : v.word = v'.word) (hkind : v.kind = v'.kind) :
    v = v' := by
  cases v
  cases v'
  simp_all

/-- **A match of words is a match of tagged values**, when the row has the kinds of its
columns and so have the variables. -/
theorem matches_of_erase (hw : WellKinded db K r) {a : Typecheck.Atom} (ha : a ∈ r.body) {ri : ℕ}
    (hri : db.find a.pred = some ri) {row : List Tagged} (hrow : HasKinds K ri row)
    {env : String → Tagged}
    (henv : ∀ (i : ℕ) x v, varName a.args[i]? = some x → row[i]? = some v → (env x).kind = v.kind)
    (h : Matches syms Tagged.word (Tagged.word ∘ env) a.args (erase row)) :
    Matches syms id env a.args row := by
  obtain ⟨row', hmatch, herase⟩ := matches_word_iff.1 h
  have heq : row' = row := by
    have hlen : row'.length = row.length := by
      simpa [erase] using congrArg List.length herase
    refine List.ext_getElem hlen fun i hi hi' => ?_
    have hword : row'[i].word = row[i].word := by
      have := congrArg (fun l : List UInt32 => l[i]?) herase
      simpa [erase, hi, hi'] using this
    obtain ⟨t, ht, hval⟩ := hmatch.arg (List.getElem?_eq_getElem hi)
    have hcol := hrow i row[i] (List.getElem?_eq_getElem hi')
    cases hvar : varName (some t) with
    | some x =>
      rw [argValue_of_varName hvar] at hval
      have hkind := henv i x row[i] (by rw [ht]; exact hvar) (List.getElem?_eq_getElem hi')
      rw [Option.some.inj hval] at hkind
      exact Tagged.eq_of hword hkind
    | none =>
      rw [argValue_of_not_var hvar, Option.map_id, id] at hval
      have htok := tokenColKind_of_constValue hval
      refine Tagged.eq_of hword (ofRecord_inj ?_)
      rcases hw.consts a ha ri hri i t ht with h | h | h
      · rw [htok] at h
        cases hk : row'[i].kind <;> rw [hk] at h <;> cases h
      · rw [hcol] at h
        cases hk : row[i].kind <;> rw [hk] at h <;> cases h
      · rw [← htok, ← h, hcol]
  exact heq ▸ hmatch

open Classical in
/-- The kind of a variable: symbols, when one of its sites is a column of symbols. -/
noncomputable def tagOf (db : KindDb) (K : Columns) (r : Typecheck.Rule) (x : String) : Definite :=
  if ∃ a ∈ r.body, ∃ ri col, SiteOf db a x ri col ∧ K ri col = .sym then .sym else .int

/-- Every site of a variable has its kind. -/
theorem tagOf_eq (hw : WellKinded db K r) {x : String} (hx : negWildcardVar r x = false)
    {a : Typecheck.Atom} (ha : a ∈ r.body) {ri col : ℕ} (hs : SiteOf db a x ri col) {d : Definite}
    (hd : K ri col = .ofRecord (some d)) : d = tagOf db K r x := by
  unfold tagOf
  cases d with
  | int =>
    rw [if_neg]
    rintro ⟨b, hb, ri', col', hs', hsym⟩
    exact hw.sites x hx a ha b hb ri col ri' col' hs hs' ⟨hd, hsym⟩
  | sym => rw [if_pos ⟨a, ha, ri, col, hs, hd⟩]

/-- The place of a grounded variable, and the row that grounds it. -/
theorem Grounded.value (hrel : Relational db r) {V : Type} {c : Tagged → V}
    {C : ℕ → Set (List V)} {env : String → V} (hbody : BodyHolds syms c db r C env) {x : String}
    (hx : Grounded r x) : ∃ a ∈ r.body, a.negated = false ∧ ∃ ri col, SiteOf db a x ri col ∧
      ∃ row ∈ C ri, Matches syms c env a.args row ∧ row[col]? = some (env x) := by
  obtain ⟨a, ha, hpos, hmem⟩ := hx
  obtain ⟨ri, e, hri, -⟩ := (hrel.body a ha).rel
  obtain ⟨col, hcol, hvar⟩ := List.mem_iff_getElem.1 hmem
  rw [List.length_map] at hcol
  rw [List.getElem_map] at hvar
  have hget : a.args[col]? = some a.args[col] := List.getElem?_eq_getElem hcol
  have hholds := hbody a ha ri hri
  rw [AtomHolds, if_neg (by simp [hpos])] at hholds
  obtain ⟨row, hrow, hmatch⟩ := hholds
  obtain ⟨v, hv, hval⟩ := hmatch.get hget
  rw [argValue_of_varName hvar] at hval
  refine ⟨a, ha, hpos, ri, col, ⟨hri, by rw [hget]; exact hvar⟩, row, hrow, hmatch, ?_⟩
  rw [hv, Option.some.inj hval]

end Erase

/-- A variable of negated atoms only stands in no positive atom. -/
theorem not_site_of_wild {r : Typecheck.Rule} {x : String} (h : negWildcardVar r x = true)
    {a : Typecheck.Atom} (ha : a ∈ r.body) (hpos : a.negated = false) (i : ℕ) :
    varName a.args[i]? ≠ some x := by
  intro hvar
  obtain ⟨t, ht, htvar⟩ := exists_of_varName_get hvar
  have hmem : ∀ ts : List Typecheck.Token, t ∈ ts → tokensContainVar x ts = true := by
    intro ts
    induction ts with
    | nil => intro h; cases h
    | cons u ts ih =>
      intro h
      unfold tokensContainVar
      rcases List.mem_cons.1 h with rfl | h
      · obtain ⟨p, rfl⟩ := eq_var_of_varName htvar
        simp [tokenContainsVar]
      · rw [ih h, Bool.or_true]
  unfold negWildcardVar at h
  rw [Bool.and_eq_true, Bool.and_eq_true, List.all_eq_true] at h
  have hone := h.1.2 a ha
  have huses : usesVar x a = true := by
    unfold usesVar
    rw [hmem _ (List.mem_of_getElem? ht), Bool.or_true]
  rw [huses, isNegatedRelational, hpos] at hone
  simp at hone

/-! ## The two evaluations -/

section Evaluations

variable {syms : String → UInt32} {db : KindDb} {K : Columns} {rules : List Typecheck.Rule}
  {lv : ℕ → ℕ} {B M : ℕ → Set (List Tagged)}

/-- **Evaluated rows have the kinds of their columns.** -/
theorem hasKinds_of_model (hrel : ∀ r ∈ rules, Relational db r)
    (hkind : ∀ r ∈ rules, WellKinded db K r) (hlv : Stratified (opers syms id db rules) lv)
    (hB : ∀ s, ∀ row ∈ B s, HasKinds K s row)
    (hM : PerfectModel (opers syms id db rules) lv B M) : ∀ s, ∀ row ∈ M s, HasKinds K s row := by
  have key : ∀ k s, lv s = k → ∀ row ∈ M s, HasKinds K s row := by
    intro k
    induction k using Nat.strong_induction_on with
    | _ k ih =>
      let N : ℕ → Set (List Tagged) := fun s => {row | row ∈ M s ∧ HasKinds K s row}
      have hle : ∀ s, N s ⊆ M s := fun s row h => h.1
      have hge : ∀ s, lv s < k → M s ⊆ N s := fun s hs row h => ⟨h, ih (lv s) hs s rfl row h⟩
      have hsub := hM.least k N ?_ ?_ ?_
      · exact fun s hs row hrow => (hsub s hs hrow).2
      · exact fun s hs => Set.Subset.antisymm (hle s) (hge s hs)
      · exact fun s row hrow => ⟨hM.base s hrow, hB s row hrow⟩
      · intro o ho hlevel row hout
        obtain ⟨r, hr, head, hhead, rfl⟩ := mem_opers.1 ho
        obtain ⟨env, hbody, hmatch⟩ := hout
        have hstrict := (hlv _ ho).2
        have hbodyM : BodyHolds syms id db r M env :=
          bodyHolds_mono syms id (fun s _ => hle s) (fun s hs => hge s (hlevel ▸ hstrict s hs)) hbody
        refine ⟨hM.closed _ ho ⟨env, hbodyM, hmatch⟩, ?_⟩
        intro col v hv
        obtain ⟨t, ht, hval⟩ := hmatch.arg hv
        have htmem : t ∈ r.head.args := List.mem_of_getElem? ht
        obtain ⟨x, hx⟩ := Option.isSome_iff_exists.1 ((hrel r hr).headVars t htmem)
        rw [argValue_of_varName hx] at hval
        obtain ⟨a, ha, hpos, ri', col', hs, row', hrow', -, hget⟩ :=
          ((hrel r hr).headSafe t htmem x hx).value (hrel r hr) hbody
        have henv : env x = v := Option.some.inj hval
        rw [henv] at hget
        exact (hkind r hr).head head hhead col x (by rw [ht]; exact hx) a ha hpos ri' col' hs _
          (hrow'.2 col' v hget)
  exact fun s => key (lv s) s rfl

/-- The operators of the two evaluations read and add to the same relations. -/
theorem stratified_word (hlv : Stratified (opers syms id db rules) lv) :
    Stratified (opers syms Tagged.word db rules) lv := by
  intro o ho
  obtain ⟨r, hr, head, hhead, rfl⟩ := mem_opers.1 ho
  exact hlv (ruleOper syms id db r head) (mem_opers.2 ⟨r, hr, head, hhead, rfl⟩)

/-- A body that holds of tagged values holds of their words, for positive atoms; negated
ones are met by the rows of the model. -/
theorem bodyHolds_word {r : Typecheck.Rule} (hrel : Relational db r) (hkind : WellKinded db K r)
    {C : ℕ → Set (List Tagged)} {C' : ℕ → Set (List UInt32)}
    (hC : ∀ s, ∀ row ∈ C s, HasKinds K s row)
    (hpos : ∀ s ∈ readBy db r false, ∀ row ∈ C s, erase row ∈ C' s)
    (hneg : ∀ s ∈ readBy db r true, ∀ row ∈ C' s, ∃ row' ∈ C s, erase row' = row)
    {env : String → Tagged} (h : BodyHolds syms id db r C env) :
    BodyHolds syms Tagged.word db r C' (Tagged.word ∘ env) := by
  intro a ha ri hri
  have hold := h a ha ri hri
  unfold AtomHolds at hold ⊢
  split
  · next hn =>
    rw [if_pos hn] at hold
    intro env' henv row hrow hmatch
    obtain ⟨row', hrow', rfl⟩ := hneg ri ⟨a, ha, hn, hri⟩ row hrow
    -- A variable that stands here only takes its value from the row.
    have hval : ∀ (i : ℕ) x v, varName a.args[i]? = some x → row'[i]? = some v →
        v.word = env' x := by
      intro i x v hvar hv
      obtain ⟨t, ht, htvar⟩ := exists_of_varName_get hvar
      obtain ⟨w, hw, harg⟩ := hmatch.get ht
      rw [argValue_of_varName htvar] at harg
      have hw' : (erase row')[i]? = some v.word := by simp [erase, hv]
      rw [hw'] at hw
      rw [Option.some.inj hw, Option.some.inj harg]
    have hex : ∀ x, ∃ v : Tagged, v.word = env' x ∧ (negWildcardVar r x = false → v = env x) ∧
        (negWildcardVar r x = true → ∀ (i : ℕ) w, varName a.args[i]? = some x →
          row'[i]? = some w → v = w) := by
      intro x
      cases hwild : negWildcardVar r x with
      | false => exact ⟨env x, (henv x hwild).symm, fun _ => rfl, fun h => by cases h⟩
      | true =>
        by_cases hplace : ∃ (i : ℕ) (w : Tagged), varName a.args[i]? = some x ∧ row'[i]? = some w
        · obtain ⟨i, w, hvar, hw⟩ := hplace
          refine ⟨w, hval i x w hvar hw, fun h => (by cases h), fun _ j w' hvar' hw' => ?_⟩
          rw [hrel.once a ha hn x hwild i j hvar hvar', hw'] at hw
          exact (Option.some.inj hw).symm
        · exact ⟨⟨.int, env' x⟩, rfl, fun h => (by cases h),
            fun _ i w hvar hw => absurd ⟨i, w, hvar, hw⟩ hplace⟩
    choose env₂ hword hbound hrow using hex
    refine hold env₂ hbound row' hrow' (matches_of_erase hkind ha hri (hC ri row' hrow') ?_ ?_)
    · intro i x v hvar hv
      cases hwild : negWildcardVar r x with
      | true => rw [hrow x hwild i v hvar hv]
      | false =>
        rw [hbound x hwild]
        obtain ⟨t, ht, htvar⟩ := exists_of_varName_get hvar
        obtain ⟨b, hb, -, rb, cb, hs, rowb, hrowb, -, hget⟩ :=
          (hrel.negSafe a ha hn t (List.mem_of_getElem? ht) x htvar hwild).value hrel h
        rw [tagOf_eq hkind hwild ha ⟨hri, hvar⟩ (hC ri row' hrow' i v hv),
          ← tagOf_eq hkind hwild hb hs (hC rb rowb hrowb cb _ hget)]
    · rw [show Tagged.word ∘ env₂ = env' from funext hword]
      exact hmatch
  · next hn =>
    rw [if_neg hn] at hold
    obtain ⟨row, hrow, hmatch⟩ := hold
    exact ⟨erase row, hpos ri ⟨a, ha, by simpa using hn, hri⟩ row hrow,
      matches_word_iff.2 ⟨row, hmatch, rfl⟩⟩

/-- Words that match the positive atoms of a body are the words of tagged values that do;
no row of tagged values meets a negated atom whose rows of words are not met. -/
theorem bodyHolds_of_word {r : Typecheck.Rule} (hkind : WellKinded db K r) {C : ℕ → Set (List Tagged)}
    (hC : ∀ s, ∀ row ∈ C s, HasKinds K s row) {env : String → UInt32}
    (h : BodyHolds syms Tagged.word db r (fun s => erase '' C s) env) :
    ∃ env' : String → Tagged, Tagged.word ∘ env' = env ∧ BodyHolds syms id db r C env' := by
  refine ⟨fun x => ⟨tagOf db K r x, env x⟩, rfl, fun a ha ri hri => ?_⟩
  have hold := h a ha ri hri
  unfold AtomHolds at hold ⊢
  split
  · next hn =>
    rw [if_pos hn] at hold
    intro env' henv row hrow hmatch
    refine hold (Tagged.word ∘ env') (fun x hx => ?_) (erase row) ⟨row, hrow, rfl⟩
      (matches_word_iff.2 ⟨row, hmatch, rfl⟩)
    exact congrArg Tagged.word (henv x hx)
  · next hn =>
    rw [if_neg hn] at hold
    obtain ⟨-, ⟨row, hrow, rfl⟩, hmatch⟩ := hold
    refine ⟨row, hrow, matches_of_erase hkind ha hri (hC ri row hrow) ?_ hmatch⟩
    intro i x v hvar hv
    -- A variable of a positive atom stands elsewhere than in negated atoms.
    have hwild : negWildcardVar r x = false := by
      rw [Bool.eq_false_iff]
      intro hwild
      exact absurd hvar (not_site_of_wild hwild ha (by simpa using hn) i)
    exact (tagOf_eq hkind hwild ha ⟨hri, hvar⟩ (hC ri row hrow i v hv)).symm

/-- **Erasing the kinds of a model gives the model on words.** -/
theorem PerfectModel.erase_image (hrel : ∀ r ∈ rules, Relational db r)
    (hkind : ∀ r ∈ rules, WellKinded db K r) (hlv : Stratified (opers syms id db rules) lv)
    (hB : ∀ s, ∀ row ∈ B s, HasKinds K s row)
    (hM : PerfectModel (opers syms id db rules) lv B M) :
    PerfectModel (opers syms Tagged.word db rules) lv (fun s => erase '' B s)
      (fun s => erase '' M s) where
  base s := Set.image_mono (hM.base s)
  closed o ho row hout := by
    obtain ⟨r, hr, head, hhead, rfl⟩ := mem_opers.1 ho
    obtain ⟨env, hbody, hmatch⟩ := hout
    obtain ⟨env', rfl, hbody'⟩ := bodyHolds_of_word (hkind r hr)
      (hasKinds_of_model hrel hkind hlv hB hM) hbody
    obtain ⟨row', hmatch', rfl⟩ := matches_word_iff.1 hmatch
    exact ⟨row', hM.closed _ (mem_opers.2 ⟨r, hr, head, hhead, rfl⟩) ⟨env', hbody', hmatch'⟩, rfl⟩
  least k N hbelow hBN hclosed := by
    have htyped := hasKinds_of_model hrel hkind hlv hB hM
    let C : ℕ → Set (List Tagged) := fun s => {row | row ∈ M s ∧ erase row ∈ N s}
    have hle : ∀ s, C s ⊆ M s := fun s row h => h.1
    have hge : ∀ s, lv s < k → M s ⊆ C s := fun s hs row h => by
      refine ⟨h, ?_⟩
      rw [hbelow s hs]
      exact ⟨row, h, rfl⟩
    have hsub := hM.least k C ?_ ?_ ?_
    · rintro s hs - ⟨row, hrow, rfl⟩
      exact (hsub s hs hrow).2
    · exact fun s hs => Set.Subset.antisymm (hle s) (hge s hs)
    · exact fun s row hrow => ⟨hM.base s hrow, hBN s ⟨row, hrow, rfl⟩⟩
    · intro o ho hlevel row hout
      obtain ⟨r, hr, head, hhead, rfl⟩ := mem_opers.1 ho
      obtain ⟨env, hbody, hmatch⟩ := hout
      have hstrict := (hlv _ ho).2
      have hbodyM : BodyHolds syms id db r M env :=
        bodyHolds_mono syms id (fun s _ => hle s) (fun s hs => hge s (hlevel ▸ hstrict s hs)) hbody
      have hbodyN : BodyHolds syms Tagged.word db r N (Tagged.word ∘ env) := by
        refine bodyHolds_word (hrel r hr) (hkind r hr) (fun s row h => htyped s row h.1)
          (fun s _ row h => h.2) (fun s hs row h => ?_) hbody
        have hlt : lv s < k := hlevel ▸ hstrict s hs
        rw [hbelow s hlt] at h
        obtain ⟨row', hrow', rfl⟩ := h
        exact ⟨row', hge s hlt hrow', rfl⟩
      refine ⟨hM.closed _ ho ⟨env, hbodyM, hmatch⟩, ?_⟩
      exact hclosed _ (mem_opers.2 ⟨r, hr, head, hhead, rfl⟩) hlevel
        ⟨Tagged.word ∘ env, hbodyN, matches_word_iff.2 ⟨row, hmatch, rfl⟩⟩

/-- **Evaluating on words gives the image of evaluating on tagged values**, when there are
kinds that the rules respect and the facts have. -/
theorem evaluate_erase (hrel : ∀ r ∈ rules, Relational db r)
    (hkind : ∀ r ∈ rules, WellKinded db K r) (hlv : Stratified (opers syms id db rules) lv)
    (hB : ∀ s, ∀ row ∈ B s, HasKinds K s row) :
    evaluate syms Tagged.word db rules lv (fun s => erase '' B s) =
      fun s => erase '' evaluate syms id db rules lv B s :=
  (stratified_word hlv).perfectModel.unique
    (PerfectModel.erase_image hrel hkind hlv hB hlv.perfectModel)

end Evaluations

end DatalogDafsa.Kinds
