import DatalogDafsa.Lib.Text

/-!
# The list of relations

A store has at most sixty-four relations, fixed or *variadic*; a variadic one is
declared with arity zero and keeps one tuple set for each arity from one to eight,
in files named after its *variants* `name.1`, …, `name.8`.  Declaring refuses an
arity above eight, the reserved names, a name that a variant of another relation
already answers to, and a second declaration at another arity.  Nothing else about
a name is checked: it may be empty, and it may hold any byte but zero.

A byte of a name is written as the character of its code.  Whether the files of a
new relation can be opened is an input of the declaration.

## Main definitions

* `isReservedPiName`, `isVariantStem` — the two tests on names.
* `RelEntry`, `findRel`, `dlDeclareRelationKind` — the list and one declaration.
* `declareAll` — the list after a sequence of declarations.
* `Accepted` — what every such list satisfies.
-/

namespace DatalogDafsa.Catalog

open Text (findInfix isHexDigit hex)

/-- A relation name: the bytes before the terminating zero. -/
abbrev Name := List Char

/-- `MAX_RELS`. -/
def maxRels : ℕ := 64

/-- `MAX_VAR_ARITY`. -/
def maxVarArity : ℕ := 8

/-! ## Tests on names -/

/-- The mark of a permutation index's name. -/
def piMark : Name := ['_', '_', 'P', 'I']

/-- `isReservedPiName`: only the *first* mark of the name is looked at. -/
def isReservedPiName (name : Name) : Bool :=
  match findInfix piMark name with
  | none => false
  | some p =>
    let rest := p.drop 4
    !(rest.takeWhile isHexDigit).isEmpty && ['_', '_'].isPrefixOf (rest.dropWhile isHexDigit)

/-- `isVariantStem`: the stem of a name that reads `stem.d` with `d` in `1..8`. -/
def isVariantStem (name : Name) : Option Name :=
  let len := name.length
  if len < 3 ∨ 254 < len then none
  else if name[len - 2]? ≠ some '.' then none
  else if (name[len - 1]?).any (fun d => d < '1' || '8' < d) then none
  else some (name.take (len - 2))

/-- The digit of an arity, as `makeVpath` writes it. -/
def digit (a : ℕ) : Char := Char.ofNat (48 + a % 10)

/-- The name `stem.a` of a variant. -/
def variantName (stem : Name) (a : ℕ) : Name := stem ++ ['.', digit a]

@[simp] theorem length_variantName (stem : Name) (a : ℕ) :
    (variantName stem a).length = stem.length + 2 := by
  simp [variantName]

theorem digit_facts : ∀ a < 9, 0 < a → ¬ digit a < '1' ∧ ¬ '8' < digit a ∧ digit a ≠ '_' ∧
    digit a ≠ 'e' ∧ digit a ≠ 's' ∧ digit a ≠ 'n' := by
  decide

theorem digit_inj : ∀ a < 9, ∀ b < 9, digit a = digit b → a = b := by
  decide

/-- The test finds the stem of a variant's name, within the bounds on the length. -/
theorem isVariantStem_variantName {stem : Name} {a : ℕ} (ha : 0 < a) (ha8 : a ≤ maxVarArity)
    (hlen : 3 ≤ (variantName stem a).length) (hlen' : (variantName stem a).length ≤ 254) :
    isVariantStem (variantName stem a) = some stem := by
  have hd := digit_facts a (by unfold maxVarArity at ha8; omega) ha
  rw [length_variantName] at hlen hlen'
  unfold isVariantStem
  dsimp only
  rw [length_variantName, if_neg (by omega)]
  have h2 : (variantName stem a)[stem.length + 2 - 2]? = some '.' := by
    simp [variantName]
  have h1 : (variantName stem a)[stem.length + 2 - 1]? = some (digit a) := by
    simp [variantName]
  rw [h2, h1, if_neg (by simp), if_neg (by simp [hd.1, hd.2.1])]
  simp [variantName]

/-! ## The list, and one declaration -/

/-- An entry of the list (`RelEntry`): arity zero is a variadic relation. -/
structure RelEntry where
  /-- The name. -/
  name : Name
  /-- The arity, zero when variadic. -/
  arity : ℕ
  deriving DecidableEq

/-- `RELK_VARIADIC`. -/
abbrev RelEntry.Variadic (e : RelEntry) : Prop := e.arity = 0

/-- `findRel`: the first entry of that name. -/
def findRel (rels : List RelEntry) (name : Name) : Option RelEntry :=
  rels.find? fun e => e.name = name

/-- Would the files of a variant belong to two relations?  A fixed name is tested
against the variadic relations, a variadic one against the fixed names. -/
def collides (rels : List RelEntry) (name : Name) (arity : ℕ) : Bool :=
  if arity = 0 then
    rels.any fun e => ¬ e.Variadic ∧ e.name ≠ [] ∧ isVariantStem e.name = some name
  else
    (isVariantStem name).any fun stem => (findRel rels stem).any fun e => e.Variadic

/-- `dlDeclareRelationKind` on an open, writable store; `none` is the answer −1.
`opens` says whether the files of a new relation can be opened. -/
def dlDeclareRelationKind (rels : List RelEntry) (name : Name) (arity : ℕ) (opens : Bool) :
    Option (List RelEntry) :=
  if 8 < arity then none
  else if name = ['r', 'e', 'v'] ∧ arity ≠ 2 then none
  else if isReservedPiName name then none
  else if collides rels name arity then none
  else match findRel rels name with
    | some e => if e.arity = arity then some rels else none
    | none =>
      if maxRels ≤ rels.length then none
      else if opens then some (rels ++ [⟨name, arity⟩])
      else none

/-- One call of the declaration, with what the file system answers. -/
structure Declaration where
  /-- The name. -/
  name : Name
  /-- The arity, zero for a variadic relation. -/
  arity : ℕ
  /-- Can the files be opened? -/
  opens : Bool

/-- One call; a refused one leaves the list as it is. -/
def declare (rels : List RelEntry) (d : Declaration) : List RelEntry :=
  (dlDeclareRelationKind rels d.name d.arity d.opens).getD rels

/-- The list after a sequence of calls. -/
def declareAll (ds : List Declaration) : List RelEntry := ds.foldl declare []

/-! ## What every list satisfies -/

/-- What the tests at declaration leave of a list of relations. -/
structure Accepted (rels : List RelEntry) : Prop where
  /-- No two relations have one name. -/
  names : (rels.map RelEntry.name).Nodup
  /-- Arities are at most eight. -/
  arity_le : ∀ e ∈ rels, e.arity ≤ 8
  /-- No name is reserved. -/
  reserved : ∀ e ∈ rels, isReservedPiName e.name = false
  /-- The revision relation has arity two. -/
  rev : ∀ e ∈ rels, e.name = ['r', 'e', 'v'] → e.arity = 2
  /-- No fixed relation is found to be a variant of a variadic one. -/
  variant : ∀ e ∈ rels, ¬ e.Variadic → ∀ f ∈ rels, f.Variadic →
    isVariantStem e.name ≠ some f.name
  /-- There is room for every relation. -/
  length_le : rels.length ≤ maxRels

theorem findRel_eq_none {rels : List RelEntry} {name : Name} (h : findRel rels name = none) :
    ∀ e ∈ rels, e.name ≠ name := by
  intro e he heq
  have := List.find?_eq_none.1 h e he
  simp [heq] at this

theorem findRel_eq_some {rels : List RelEntry} {name : Name} {e : RelEntry}
    (h : findRel rels name = some e) : e ∈ rels ∧ e.name = name :=
  ⟨List.mem_of_find?_eq_some h, by simpa using List.find?_some h⟩

theorem Accepted.eq_of_name {rels : List RelEntry} (ha : Accepted rels) {e f : RelEntry}
    (he : e ∈ rels) (hf : f ∈ rels) (h : e.name = f.name) : e = f :=
  List.inj_on_of_nodup_map ha.names he hf h

theorem Accepted.findRel {rels : List RelEntry} (ha : Accepted rels) {e : RelEntry}
    (he : e ∈ rels) : findRel rels e.name = some e := by
  cases h : Catalog.findRel rels e.name with
  | none => exact absurd rfl (findRel_eq_none h e he)
  | some f =>
    obtain ⟨hf, hname⟩ := findRel_eq_some h
    rw [ha.eq_of_name hf he hname]

/-- A name that reads as a variant's is not empty. -/
theorem ne_nil_of_isVariantStem {name stem : Name} (h : isVariantStem name = some stem) :
    name ≠ [] := by
  rintro rfl
  simp [isVariantStem] at h

/-- **What one accepted call does**: nothing, or it appends a relation that passed
the tests. -/
theorem dlDeclareRelationKind_cases {rels rels' : List RelEntry} {name : Name} {arity : ℕ}
    {opens : Bool} (h : dlDeclareRelationKind rels name arity opens = some rels') :
    (rels' = rels ∧ ∃ e ∈ rels, e.name = name ∧ e.arity = arity) ∨
      (rels' = rels ++ [⟨name, arity⟩] ∧ arity ≤ 8 ∧
        ¬ (name = ['r', 'e', 'v'] ∧ arity ≠ 2) ∧ isReservedPiName name = false ∧
        collides rels name arity = false ∧ findRel rels name = none ∧ rels.length < maxRels) := by
  unfold dlDeclareRelationKind at h
  split at h
  · cases h
  next harity =>
  split at h
  · cases h
  next hrev =>
  split at h
  · cases h
  next hres =>
  split at h
  · cases h
  next hcol =>
  cases hf : findRel rels name with
  | some e =>
    rw [hf] at h
    dsimp only at h
    split at h
    · next hea =>
      obtain ⟨he, hname⟩ := findRel_eq_some hf
      exact .inl ⟨(Option.some.inj h).symm, e, he, hname, hea⟩
    · cases h
  | none =>
    rw [hf] at h
    dsimp only at h
    split at h
    · cases h
    next hroom =>
    split at h
    · exact .inr ⟨(Option.some.inj h).symm, by omega, hrev, by simpa using hres,
        by simpa using hcol, rfl, by omega⟩
    · cases h

theorem accepted_nil : Accepted [] where
  names := List.nodup_nil
  arity_le := by simp
  reserved := by simp
  rev := by simp
  variant := by simp
  length_le := by simp

/-- **One call keeps the list accepted.** -/
theorem Accepted.declare {rels : List RelEntry} (ha : Accepted rels) (d : Declaration) :
    Accepted (declare rels d) := by
  unfold Catalog.declare
  cases h : dlDeclareRelationKind rels d.name d.arity d.opens with
  | none => exact ha
  | some rels' =>
    rw [Option.getD_some]
    obtain ⟨rfl, -⟩ | ⟨rfl, harity, hrev, hres, hcol, hfind, hroom⟩ := dlDeclareRelationKind_cases h
    · exact ha
    · have hnew := findRel_eq_none hfind
      constructor
      · rw [List.map_append, List.nodup_append]
        refine ⟨ha.names, List.nodup_singleton _, ?_⟩
        intro x hx y hy hxy
        obtain ⟨e, he, rfl⟩ := List.mem_map.1 hx
        rw [List.map_singleton, List.mem_singleton] at hy
        exact hnew e he (hxy.trans hy)
      · intro e he
        rcases List.mem_append.1 he with he | he
        · exact ha.arity_le e he
        · rw [List.mem_singleton.1 he]
          exact harity
      · intro e he
        rcases List.mem_append.1 he with he | he
        · exact ha.reserved e he
        · rw [List.mem_singleton.1 he]
          exact hres
      · intro e he hname
        rcases List.mem_append.1 he with he | he
        · exact ha.rev e he hname
        · rw [List.mem_singleton.1 he] at hname ⊢
          exact not_not.1 fun h2 => hrev ⟨hname, h2⟩
      · -- The new relation is on one side of the pair at most: either test looks at it.
        intro e he hefix f hf hfvar hstem
        rcases List.mem_append.1 he with he | he <;> rcases List.mem_append.1 hf with hf | hf
        · exact ha.variant e he hefix f hf hfvar hstem
        · rw [List.mem_singleton.1 hf] at hfvar hstem
          have hzero : d.arity = 0 := hfvar
          rw [collides, if_pos hzero, List.any_eq_false] at hcol
          exact hcol e he (by simpa using ⟨hefix, ne_nil_of_isVariantStem hstem, hstem⟩)
        · rw [List.mem_singleton.1 he] at hefix hstem
          rw [collides, if_neg hefix, hstem, Option.any_some, ha.findRel hf, Option.any_some] at hcol
          simp [hfvar] at hcol
        · rw [List.mem_singleton.1 he] at hefix
          rw [List.mem_singleton.1 hf] at hfvar
          exact hefix hfvar
      · rw [List.length_append, List.length_singleton]
        omega

/-- **Every sequence of declarations leaves an accepted list.** -/
theorem accepted_declareAll (ds : List Declaration) : Accepted (declareAll ds) := by
  have key : ∀ (ds : List Declaration) (rels : List RelEntry), Accepted rels →
      Accepted (ds.foldl declare rels) := by
    intro ds
    induction ds with
    | nil => exact fun _ h => h
    | cons d ds ih => exact fun rels h => ih _ (h.declare d)
  exact key ds [] accepted_nil

end DatalogDafsa.Catalog
