import DatalogDafsa.Intern.Table
import DatalogDafsa.Search.Ranked

/-!
# The index of the observations

A posting is a pair of the symbol of a token and the symbol of a content.  The index is
brought up to date in one transaction: the contents without a posting are cut into tokens,
and a posting is made for each.  Nothing is done when there are postings for as many
contents as have tokens.

## Main definitions

* `tokenize` — the tokens of a text.
* `IndexDb` — the interner and the two relations.
* `auxIndexAddPosting`, `dlIndexObservations` — a posting by hand, and the index.
* `IndexOp`, `IndexOp.apply` — one call.
-/

namespace DatalogDafsa.Search

open Intern (Interner Enum Str internStr internStrOf ensureFwd)

/-! ## Tokens -/

/-- `isAlnumAscii`. -/
def isAlnumAscii (ch : UInt8) : Bool :=
  (97 ≤ ch && ch ≤ 122) || (65 ≤ ch && ch ≤ 90) || (48 ≤ ch && ch ≤ 57)

/-- `toLowerAscii`. -/
def toLowerAscii (ch : UInt8) : UInt8 := if 65 ≤ ch && ch ≤ 90 then ch - 65 + 97 else ch

/-- The two loops of `tokenize` as one pass: `cur` has the bytes of the token that is being
read, the last one first. -/
def tokenizeFrom : Str → Str → List Str
  | [], cur => if cur = [] then [] else [cur.reverse]
  | ch :: p, cur =>
    if isAlnumAscii ch then tokenizeFrom p (toLowerAscii ch :: cur)
    else if cur = [] then tokenizeFrom p []
    else cur.reverse :: tokenizeFrom p []

/-- `tokenize`; no tokens for its null answer. -/
def tokenize (text : Str) : List Str := tokenizeFrom text []

/-! ## The database -/

/-- What the index reads and writes. Both relations have two columns; none is there
before it is declared. -/
structure IndexDb where
  /-- The symbols. -/
  ir : Interner
  /-- `observation`: entities and contents. -/
  observation : Option Dafsa
  /-- `__postings__`: terms and contents. -/
  postings : Option Dafsa

/-- What the writes of a call are answered. -/
structure Env where
  /-- `dl_declare_relation` of the postings. -/
  declares : Bool
  /-- `dl_txn_begin`. -/
  begins : Bool
  /-- `dl_txn_add_fact`, or `dl_add_fact`, of a posting. -/
  takes : Row → Bool
  /-- `dl_txn_commit`. -/
  commits : Bool

/-- `aux_index_ensure_postings`. -/
def auxIndexEnsurePostings (env : Env) (db : IndexDb) : Option IndexDb :=
  if env.declares then some { db with postings := some (db.postings.getD .create) } else none

/-- `aux_index_add_posting`. -/
def auxIndexAddPosting (env : Env) (termSym obsId : Val) (db : IndexDb) : IndexDb :=
  if termSym = 0 ∨ obsId = 0 then db
  else
    (auxIndexEnsurePostings env db).elim db fun db =>
      if env.takes [termSym, obsId] then
        { db with postings := db.postings.map (·.add [termSym, obsId]) }
      else db

/-! ## Counting -/

/-- The content of a row, and of a posting. -/
def contentOf (cols : Row) : Val := cols.getD 1 0

/-- What `tokenObsCb` and `distinctObsCb` share: the contents that are met first, and how
many of them are counted. -/
def countNew (counts : Val → Bool) (acc : U64Set × ℕ) (cols : Row) : U64Set × ℕ :=
  let r := u64SetAdd acc.1 (contentOf cols).toUInt64
  (r.2, if r.1 && counts (contentOf cols) then acc.2 + 1 else acc.2)

/-- Does the text of a content have a token? -/
def hasAlnum (ir : Interner) (content : Val) : Bool :=
  (internStrOf ir content.toNat).elim false fun text => text.any isAlnumAscii

/-- `tokenObsCb`. -/
def tokenObsCb (ir : Interner) : U64Set × ℕ → Row → U64Set × ℕ := countNew (hasAlnum ir)

/-- `distinctObsCb`. -/
def distinctObsCb : U64Set × ℕ → Row → U64Set × ℕ := countNew fun _ => true

/-! ## Indexing -/

/-- `IndexObsCtx`, with the postings that wait for the commit. -/
structure IndexObsCtx where
  /-- The symbols. -/
  ir : Interner
  /-- The buffer of the transaction. -/
  buffer : List Row
  /-- `postings_added`. -/
  postingsAdded : ℕ
  /-- `error_occurred`. -/
  errorOccurred : Bool
  /-- The pairs seen in this run. -/
  seen : U64Set

variable (enum : Enum) (env : Env)

/-- The loop over the tokens of a content. -/
def tokenLoop (postings : Dafsa) (content : Val) : List Str → IndexObsCtx → IndexObsCtx
  | [], ctx => ctx
  | tok :: toks, ctx =>
    match internStr enum ctx.ir tok with
    | none => { ctx with errorOccurred := true }
    | some (ir, termSym) =>
      if termSym = 0 then { ctx with ir, errorOccurred := true }
      else
        let pc : Row := [UInt32.ofNat termSym, content]
        let isNew := u64SetAdd ctx.seen (pack (UInt32.ofNat termSym) content.toNat)
        if isNew.1 && !postings.lookup pc then
          if env.takes pc then
            tokenLoop postings content toks
              { ctx with
                ir, seen := isNew.2, buffer := ctx.buffer ++ [pc]
                postingsAdded := ctx.postingsAdded + 1 }
          else { ctx with ir, seen := isNew.2, errorOccurred := true }
        else tokenLoop postings content toks { ctx with ir, seen := isNew.2 }

/-- The enumeration with `indexObsCb`. -/
def indexObs (postings : Dafsa) (indexed : U64Set) : List Row → IndexObsCtx → IndexObsCtx
  | [], ctx => ctx
  | cols :: rows, ctx =>
    if u64SetContains indexed (contentOf cols).toUInt64 then indexObs postings indexed rows ctx
    else
      match internStrOf ctx.ir (contentOf cols).toNat with
      | none => { ctx with errorOccurred := true }
      | some text =>
        let ctx := tokenLoop enum env postings (contentOf cols) (tokenize text) ctx
        if ctx.errorOccurred then ctx else indexObs postings indexed rows ctx

/-- The part of `dl_index_observations` behind the count: one transaction. -/
def rebuildIndex (obs postings : Dafsa) (indexed : U64Set) (db : IndexDb) : Option ℕ × IndexDb :=
  let ir := ensureFwd db.ir true
  if env.begins then
    let ctx := indexObs enum env postings indexed obs.keys ⟨ir, [], 0, false, .empty⟩
    if ctx.errorOccurred then (none, { db with ir := ctx.ir })
    else if env.commits then
      (some ctx.postingsAdded,
        { db with ir := ctx.ir, postings := some (ctx.buffer.foldl Dafsa.add postings) })
    else (none, { db with ir := ctx.ir })
  else (none, { db with ir })

/-- `dl_index_observations`; `none` is its answer `-1`. -/
def dlIndexObservations (db : IndexDb) : Option ℕ × IndexDb :=
  (auxIndexEnsurePostings env db).elim (none, db) fun db =>
    let postings := db.postings.getD .create
    db.observation.elim (some 0, db) fun obs =>
      let oc := obs.keys.foldl (tokenObsCb db.ir) (.empty, 0)
      let dc := postings.keys.foldl distinctObsCb (.empty, 0)
      if oc.2 ≤ dc.2 then (some 0, db)
      else rebuildIndex enum env obs postings dc.1 db

/-! ## One call -/

/-- A call. A string ends at its zero byte. -/
inductive IndexOp
  /-- `dl_intern_str`. -/
  | intern (str : {str : Str // 0 ∉ str})
  /-- `dl_declare_relation`, of the observations. -/
  | declare
  /-- `dl_add_fact` of an observation, and whether it is taken. -/
  | add (entity content : Val) (ok : Bool)
  /-- `dl_delete_fact` of an observation, and whether it is taken. -/
  | delete (entity content : Val) (ok : Bool)
  /-- `aux_index_add_posting`. -/
  | addPosting (env : Env) (termSym obsId : Val)
  /-- `dl_index_observations`. -/
  | index (env : Env)

/-- The database after a call. -/
def IndexOp.apply (db : IndexDb) : IndexOp → IndexDb
  | .intern str => { db with ir := (internStr enum db.ir str).elim db.ir Prod.fst }
  | .declare => { db with observation := some (db.observation.getD .create) }
  | .add entity content ok =>
    if ok then { db with observation := db.observation.map (·.add [entity, content]) } else db
  | .delete entity content ok =>
    if ok then { db with observation := db.observation.map (·.delete [entity, content]) } else db
  | .addPosting env termSym obsId => auxIndexAddPosting env termSym obsId db
  | .index env => (dlIndexObservations enum env db).2

/-- A new database. -/
def IndexDb.init : IndexDb := ⟨Intern.internCreate, none, none⟩

/-- The database after a history of calls. -/
def IndexDb.after (ops : List IndexOp) : IndexDb := ops.foldl (IndexOp.apply enum) .init

end DatalogDafsa.Search
