import DatalogDafsa.Catalog.Declare

/-!
# Which stores share a file

The engine keeps each store in files named after it: a relation or a variant in
`name.dafsa`, `name.base.dafsa` and `name.wal`, and in a snapshot in `name.dafsa`;
the interner, the terms, the transaction log and the list of relations in files of
fixed names; a permutation index of a snapshot in a file named after its relation
and its number, cut to a buffer of 128 bytes.  The interner's automaton is written in a
snapshot only, and only when `DL_PUB_DERIVED` asks for it.

Two stores share a path exactly when a relation has one of a few names.  The tests
at declaration exclude none of them, except a variant's name between three and 254
bytes.

Paths are written relative to their directory, and compared as texts.

## Main definitions

* `Part`, `DbFile`, `SnapFile` — the stores with a file, in a database directory and
  in a snapshot.
* `DbFile.path`, `SnapFile.path` — their paths.
* `Apart` — no relation has one of those names.

## Main results

* `paths_nodup_iff` — the paths are pairwise distinct exactly when `Apart` holds.
-/

namespace DatalogDafsa.Catalog

open Text (findInfix isHexDigit hex)

/-! ## The files of a relation -/

/-- A relation with files of its own: a fixed relation (variant zero), or a variant of
a variadic one. -/
structure Part where
  /-- The relation. -/
  rel : RelEntry
  /-- The variant, zero for a fixed relation. -/
  variant : ℕ
  deriving DecidableEq

/-- The name the files of a part are named after. -/
def Part.stem (p : Part) : Name :=
  if p.rel.Variadic then variantName p.rel.name p.variant else p.rel.name

/-- The parts of one relation. -/
def RelEntry.parts (e : RelEntry) : List Part :=
  if e.Variadic then (List.range maxVarArity).map fun a => ⟨e, a + 1⟩ else [⟨e, 0⟩]

/-- The parts of all relations. -/
def parts (rels : List RelEntry) : List Part := rels.flatMap RelEntry.parts

/-- `.dafsa`. -/
def dafsaExt : Name := ['.', 'd', 'a', 'f', 's', 'a']

/-- `.base`, before `.dafsa`. -/
def baseExt : Name := ['.', 'b', 'a', 's', 'e']

/-- `.wal`. -/
def walExt : Name := ['.', 'w', 'a', 'l']

/-- `symbols`. -/
def symbolsName : Name := ['s', 'y', 'm', 'b', 'o', 'l', 's']

/-- `txn`. -/
def txnName : Name := ['t', 'x', 'n']

/-- `symbols.array`. -/
def arrayPath : Name := symbolsName ++ ['.', 'a', 'r', 'r', 'a', 'y']

/-- `terms.bin`. -/
def termsPath : Name := ['t', 'e', 'r', 'm', 's', '.', 'b', 'i', 'n']

/-- `rels.txt`. -/
def relsPath : Name := ['r', 'e', 'l', 's', '.', 't', 'x', 't']

/-- `manifest.txt`. -/
def manifestPath : Name := ['m', 'a', 'n', 'i', 'f', 'e', 's', 't', '.', 't', 'x', 't']

/-- The files of a database directory. -/
inductive DbFile
  /-- The interner's strings. -/
  | array
  /-- The list terms. -/
  | terms
  /-- The transaction log. -/
  | txn
  /-- The list of relations. -/
  | rels
  /-- The tuples of a part; the derived view, once it is split. -/
  | dafsa (p : Part)
  /-- The base facts of a split part. -/
  | base (p : Part)
  /-- The write-ahead log of a part. -/
  | wal (p : Part)
  deriving DecidableEq

/-- Where a file of the database directory is. -/
def DbFile.path : DbFile → Name
  | array => arrayPath
  | terms => termsPath
  | txn => txnName ++ walExt
  | rels => relsPath
  | dafsa p => p.stem ++ dafsaExt
  | base p => p.stem ++ baseExt ++ dafsaExt
  | wal p => p.stem ++ walExt

/-- The files of fixed names. -/
def systemFiles : List DbFile := [.array, .terms, .txn, .rels]

/-- The three files of a part. -/
def Part.files (p : Part) : List DbFile := [.dafsa p, .base p, .wal p]

/-- Every file the engine writes in the database directory. -/
def dbFiles (rels : List RelEntry) : List DbFile :=
  systemFiles ++ (parts rels).flatMap Part.files

/-! ## The files of a snapshot -/

/-- An entry of the table of permutation indices. -/
structure Perm where
  /-- The relation's name. -/
  rel : Name
  /-- Has the index been built? -/
  built : Bool
  deriving DecidableEq

/-- The full name of the index number `i` over a relation. -/
def permName (rel : Name) (i : ℕ) : Name := rel ++ (piMark ++ (hex i ++ ['_', '_']))

/-- The bytes of the buffer that the name is printed into, without the closing zero. -/
def permNameMax : ℕ := 127

/-- The name in the buffer. -/
def Perm.fileName (x : Perm × ℕ) : Name := (permName x.1.rel x.2).take permNameMax

/-- The indices that are saved, each with its number. -/
def savedPerms (perms : List Perm) : List (Perm × ℕ) := perms.zipIdx.filter fun x => x.1.built

/-- The files of a snapshot directory. -/
inductive SnapFile
  /-- The interner's strings. -/
  | array
  /-- The interner's automaton. -/
  | symbols
  /-- The list terms. -/
  | terms
  /-- The manifest. -/
  | manifest
  /-- A relation or a variant. -/
  | part (p : Part)
  /-- A permutation index. -/
  | perm (x : Perm × ℕ)
  deriving DecidableEq

/-- Where a file of a snapshot is. -/
def SnapFile.path : SnapFile → Name
  | array => arrayPath
  | symbols => symbolsName ++ dafsaExt
  | terms => termsPath
  | manifest => manifestPath
  | part p => p.stem ++ dafsaExt
  | perm x => Perm.fileName x ++ dafsaExt

/-- The files of a snapshot with a fixed name; `derived` is `DL_PUB_DERIVED`. -/
def snapSystemFiles (derived : Bool) : List SnapFile :=
  if derived then [.symbols, .array, .terms, .manifest] else [.array, .terms, .manifest]

/-- Every file that `materializeSnapshot` writes. -/
def snapFiles (derived : Bool) (rels : List RelEntry) (perms : List Perm) : List SnapFile :=
  snapSystemFiles derived ++ ((parts rels).map .part ++ (savedPerms perms).map .perm)

/-! ## The names that make two stores share a file -/

/-- Can the name of an index be that of a relation?  It is reserved when the relation's
name has no mark in it and the buffer holds all of it. -/
def Perm.Loose (x : Perm × ℕ) : Prop :=
  findInfix piMark x.1.rel ≠ none ∨ permNameMax < (permName x.1.rel x.2).length

/-- No relation has a name that makes its files those of another store. -/
structure Apart (derived : Bool) (rels : List RelEntry) (perms : List Perm) : Prop where
  /-- No fixed relation is called `txn`. -/
  txn : ∀ e ∈ rels, ¬ e.Variadic → e.name ≠ txnName
  /-- None is called `symbols`, when the automaton of the interner is written. -/
  symbols : derived = true → ∀ e ∈ rels, ¬ e.Variadic → e.name ≠ symbolsName
  /-- No fixed relation is called `s.base`, where `s` has files. -/
  base : ∀ e ∈ rels, ¬ e.Variadic → ∀ p ∈ parts rels, e.name ≠ p.stem ++ baseExt
  /-- No fixed relation of under three or over 254 bytes is called like a variant. -/
  variant : ∀ e ∈ rels, ¬ e.Variadic → e.name.length < 3 ∨ 254 < e.name.length →
    ∀ p ∈ parts rels, p.rel.Variadic → e.name ≠ p.stem
  /-- No relation or variant is called like an index of a marked name, or a cut one. -/
  perm : ∀ x ∈ savedPerms perms, Perm.Loose x → ∀ p ∈ parts rels, p.stem ≠ Perm.fileName x
  /-- The name of an index that the buffer cuts is that of no other index. -/
  cut : ∀ x ∈ savedPerms perms, permNameMax < (permName x.1.rel x.2).length →
    ∀ y ∈ savedPerms perms, x ≠ y → Perm.fileName x ≠ Perm.fileName y

/-! ## Parts -/

theorem mem_parts {rels : List RelEntry} {p : Part} :
    p ∈ parts rels ↔ p.rel ∈ rels ∧ (p.rel.Variadic ∧ 0 < p.variant ∧ p.variant ≤ maxVarArity ∨
      ¬ p.rel.Variadic ∧ p.variant = 0) := by
  unfold parts RelEntry.parts
  rw [List.mem_flatMap]
  constructor
  · rintro ⟨e, he, hp⟩
    split at hp
    · next hvar =>
      obtain ⟨a, ha, rfl⟩ := List.mem_map.1 hp
      exact ⟨he, .inl ⟨hvar, a.succ_pos, List.mem_range.1 ha⟩⟩
    · next hvar =>
      rw [List.mem_singleton.1 hp]
      exact ⟨he, .inr ⟨hvar, rfl⟩⟩
  · rintro ⟨he, ⟨hvar, hpos, hle⟩ | ⟨hvar, hzero⟩⟩
    · refine ⟨p.rel, he, ?_⟩
      rw [if_pos hvar]
      exact List.mem_map.2 ⟨p.variant - 1, List.mem_range.2 (by omega), by
        cases p
        simp only [Part.mk.injEq, true_and]
        exact Nat.sub_add_cancel hpos⟩
    · refine ⟨p.rel, he, ?_⟩
      rw [if_neg hvar, List.mem_singleton, ← hzero]

theorem mem_parts_fixed {rels : List RelEntry} {e : RelEntry} (he : e ∈ rels)
    (hfix : ¬ e.Variadic) : ⟨e, 0⟩ ∈ parts rels :=
  mem_parts.2 ⟨he, .inr ⟨hfix, rfl⟩⟩

theorem Part.stem_fixed {p : Part} (h : ¬ p.rel.Variadic) : p.stem = p.rel.name := if_neg h

theorem Part.stem_variadic {p : Part} (h : p.rel.Variadic) :
    p.stem = variantName p.rel.name p.variant := if_pos h

/-- A variant's name ends in a digit from one to eight. -/
theorem Part.stem_eq_append_digit {rels : List RelEntry} {p : Part} (hp : p ∈ parts rels)
    (hvar : p.rel.Variadic) : ∃ a < 9, 0 < a ∧ p.stem = p.rel.name ++ ['.'] ++ [digit a] := by
  obtain ⟨-, ⟨-, hpos, hle⟩ | ⟨hfix, -⟩⟩ := mem_parts.1 hp
  · refine ⟨p.variant, by unfold maxVarArity at hle; omega, hpos, ?_⟩
    rw [p.stem_variadic hvar, variantName]
    simp
  · exact absurd hvar hfix

/-- A name ending in `c`, which is no digit from one to eight, is a fixed relation's. -/
theorem Part.fixed_of_stem {rels : List RelEntry} {p : Part} (hp : p ∈ parts rels) {s : Name}
    {c : Char} (hc : ∀ a < 9, 0 < a → digit a ≠ c) (h : p.stem = s ++ [c]) :
    ¬ p.rel.Variadic ∧ p.rel.name = s ++ [c] := by
  have hfix : ¬ p.rel.Variadic := by
    intro hvar
    obtain ⟨a, ha, hpos, hstem⟩ := Part.stem_eq_append_digit hp hvar
    rw [hstem] at h
    exact hc a ha hpos (by simpa using (List.append_inj' h rfl).2)
  exact ⟨hfix, by rw [← h, p.stem_fixed hfix]⟩

theorem nodup_parts {rels : List RelEntry} (ha : Accepted rels) : (parts rels).Nodup := by
  refine List.nodup_flatMap.2 ⟨fun e _ => ?_, ?_⟩
  · unfold RelEntry.parts
    split
    · exact (List.nodup_range).map fun a b h => by simpa using h
    · exact List.nodup_singleton _
  · refine (List.Nodup.of_map _ ha.names).imp ?_
    intro e f hne p hpe hpf
    have hrel : ∀ {g : RelEntry}, p ∈ g.parts → p.rel = g := by
      intro g hg
      have hpg : p ∈ parts [g] := List.mem_flatMap.2 ⟨g, by simp, hg⟩
      simpa using (mem_parts.1 hpg).1
    exact hne ((hrel hpe).symm.trans (hrel hpf))

/-- **Parts of one name are one part**, when no fixed relation is called like a variant
without the test at declaration seeing it. -/
theorem Accepted.part_eq {derived : Bool} {rels : List RelEntry} {perms : List Perm}
    (ha : Accepted rels) (hap : Apart derived rels perms) {p q : Part} (hp : p ∈ parts rels)
    (hq : q ∈ parts rels) (h : p.stem = q.stem) : p = q := by
  -- A fixed name and a variant: too short or too long for the test, or refused by it.
  have mixed : ∀ {p q : Part}, p ∈ parts rels → q ∈ parts rels → ¬ p.rel.Variadic →
      q.rel.Variadic → p.stem ≠ q.stem := by
    intro p q hp hq hfix hvar hpq
    rw [p.stem_fixed hfix] at hpq
    obtain ⟨hqrel, ⟨-, hpos, hle⟩ | ⟨hqfix, -⟩⟩ := mem_parts.1 hq
    · by_cases hlen : p.rel.name.length < 3 ∨ 254 < p.rel.name.length
      · exact hap.variant _ (mem_parts.1 hp).1 hfix hlen q hq hvar hpq
      · rw [q.stem_variadic hvar] at hpq
        have hstem : isVariantStem (variantName q.rel.name q.variant) = some q.rel.name :=
          isVariantStem_variantName hpos hle (by rw [← hpq]; omega) (by rw [← hpq]; omega)
        rw [← hpq] at hstem
        exact ha.variant _ (mem_parts.1 hp).1 hfix _ hqrel hvar hstem
    · exact hqfix hvar
  obtain ⟨hprel, hpcase⟩ := mem_parts.1 hp
  obtain ⟨hqrel, hqcase⟩ := mem_parts.1 hq
  rcases hpcase with ⟨hpvar, hppos, hple⟩ | ⟨hpfix, hpzero⟩
  · rcases hqcase with ⟨hqvar, hqpos, hqle⟩ | ⟨hqfix, -⟩
    · rw [p.stem_variadic hpvar, q.stem_variadic hqvar, variantName, variantName] at h
      obtain ⟨hname, hdigit⟩ := List.append_inj' h rfl
      have hrel := ha.eq_of_name hprel hqrel hname
      have hvariant : p.variant = q.variant := by
        unfold maxVarArity at hple hqle
        exact digit_inj _ (by omega) _ (by omega) (by simpa using hdigit)
      cases p
      cases q
      simp_all
    · exact absurd h.symm (mixed hq hp hqfix hpvar)
  · rcases hqcase with ⟨hqvar, -⟩ | ⟨hqfix, hqzero⟩
    · exact absurd h (mixed hp hq hpfix hqvar)
    · rw [p.stem_fixed hpfix, q.stem_fixed hqfix] at h
      have hrel := ha.eq_of_name hprel hqrel h
      cases p
      cases q
      simp_all

/-! ## The database directory -/

/-- A text that does not end in `ext` is no name with that extension. -/
theorem ne_append_of_not_suffix {c s ext : Name} (h : ¬ ext <:+ c) : c ≠ s ++ ext :=
  fun heq => h (heq ▸ List.suffix_append s ext)

/-- The name of a part whose file `symbols.dafsa` is. -/
theorem Apart.stem_ne_symbols {rels : List RelEntry} {perms : List Perm}
    (hap : Apart true rels perms) {p : Part} (hp : p ∈ parts rels) : p.stem ≠ symbolsName := by
  intro h
  obtain ⟨hfix, hname⟩ := Part.fixed_of_stem hp (s := ['s', 'y', 'm', 'b', 'o', 'l']) (c := 's')
    (fun a ha hpos => (digit_facts a ha hpos).2.2.2.2.1) h
  exact hap.symbols rfl _ (mem_parts.1 hp).1 hfix hname

/-- The name of a part whose log `txn.wal` is. -/
theorem Apart.stem_ne_txn {derived : Bool} {rels : List RelEntry} {perms : List Perm}
    (hap : Apart derived rels perms) {p : Part} (hp : p ∈ parts rels) : p.stem ≠ txnName := by
  intro h
  obtain ⟨hfix, hname⟩ := Part.fixed_of_stem hp (s := ['t', 'x']) (c := 'n')
    (fun a ha hpos => (digit_facts a ha hpos).2.2.2.2.2) h
  exact hap.txn _ (mem_parts.1 hp).1 hfix hname

/-- A view is not the base of another part. -/
theorem Apart.stem_ne_base {derived : Bool} {rels : List RelEntry} {perms : List Perm}
    (hap : Apart derived rels perms) {p q : Part} (hp : p ∈ parts rels) (hq : q ∈ parts rels) :
    p.stem ≠ q.stem ++ baseExt := by
  intro h
  obtain ⟨hfix, hname⟩ := Part.fixed_of_stem hp (s := q.stem ++ ['.', 'b', 'a', 's']) (c := 'e')
    (fun a ha hpos => (digit_facts a ha hpos).2.2.2.1) (by rw [h]; simp [baseExt])
  exact hap.base _ (mem_parts.1 hp).1 hfix q hq (by rw [hname]; simp [baseExt])

theorem dafsaExt_ne_walExt (s t : Name) : s ++ dafsaExt ≠ t ++ walExt := by
  intro h
  have := congrArg List.reverse h
  simp [dafsaExt, walExt] at this

/-- No file of a fixed name is a part's. -/
theorem Apart.system_ne_part {derived : Bool} {rels : List RelEntry} {perms : List Perm}
    (hap : Apart derived rels perms) {f g : DbFile} (hf : f ∈ systemFiles) {p : Part}
    (hp : p ∈ parts rels) (hg : g ∈ p.files) : f.path ≠ g.path := by
  simp only [Part.files, List.mem_cons, List.not_mem_nil, or_false] at hg
  rcases hg with rfl | rfl | rfl
  · have hno : ∀ f ∈ systemFiles, ¬ dafsaExt <:+ f.path := by decide
    exact ne_append_of_not_suffix (hno f hf)
  · have hno : ∀ f ∈ systemFiles, ¬ baseExt ++ dafsaExt <:+ f.path := by decide
    show f.path ≠ p.stem ++ baseExt ++ dafsaExt
    rw [List.append_assoc]
    exact ne_append_of_not_suffix (hno f hf)
  · have hno : ∀ f ∈ systemFiles, walExt <:+ f.path → f = .txn := by decide
    intro h
    obtain rfl := hno f hf (h ▸ List.suffix_append p.stem walExt)
    exact hap.stem_ne_txn hp (List.append_cancel_right h).symm

/-- Files of parts with one path are one file. -/
theorem Apart.part_files_inj {derived : Bool} {rels : List RelEntry} {perms : List Perm}
    (ha : Accepted rels) (hap : Apart derived rels perms) {f g : DbFile} {p q : Part}
    (hp : p ∈ parts rels) (hq : q ∈ parts rels) (hf : f ∈ p.files) (hg : g ∈ q.files)
    (h : f.path = g.path) : f = g := by
  simp only [Part.files, List.mem_cons, List.not_mem_nil, or_false] at hf hg
  rcases hf with rfl | rfl | rfl <;> rcases hg with rfl | rfl | rfl
  · rw [ha.part_eq hap hp hq (List.append_cancel_right h)]
  · exact absurd (List.append_cancel_right h) (hap.stem_ne_base hp hq)
  · exact absurd h (dafsaExt_ne_walExt _ _)
  · exact absurd (List.append_cancel_right h).symm (hap.stem_ne_base hq hp)
  · rw [ha.part_eq hap hp hq (List.append_cancel_right (List.append_cancel_right h))]
  · exact absurd h (dafsaExt_ne_walExt _ _)
  · exact absurd h.symm (dafsaExt_ne_walExt _ _)
  · exact absurd h.symm (dafsaExt_ne_walExt _ _)
  · rw [ha.part_eq hap hp hq (List.append_cancel_right h)]

theorem mem_dbFiles {rels : List RelEntry} {f : DbFile} :
    f ∈ dbFiles rels ↔ f ∈ systemFiles ∨ ∃ p ∈ parts rels, f ∈ p.files := by
  simp [dbFiles]

theorem nodup_dbFiles {rels : List RelEntry} (ha : Accepted rels) : (dbFiles rels).Nodup := by
  refine List.nodup_append.2 ⟨by decide, ?_, ?_⟩
  · refine List.nodup_flatMap.2 ⟨fun p _ => by simp [Part.files], ?_⟩
    refine (nodup_parts ha).imp ?_
    intro p q hne f hf hg
    simp only [Part.files, List.mem_cons, List.not_mem_nil, or_false] at hf hg
    rcases hf with rfl | rfl | rfl <;> simp_all
  · intro f hf g hg hfg
    obtain ⟨p, -, hg⟩ := List.mem_flatMap.1 hg
    subst hfg
    simp only [systemFiles, Part.files, List.mem_cons, List.not_mem_nil, or_false] at hf hg
    rcases hg with rfl | rfl | rfl <;> simp at hf

/-- **The paths of the database directory**, when the names are apart. -/
theorem Apart.db_paths_nodup {derived : Bool} {rels : List RelEntry} {perms : List Perm}
    (ha : Accepted rels) (hap : Apart derived rels perms) :
    ((dbFiles rels).map DbFile.path).Nodup := by
  refine (List.nodup_map_iff_inj_on (nodup_dbFiles ha)).2 ?_
  intro f hf g hg h
  rcases mem_dbFiles.1 hf with hf | ⟨p, hp, hf⟩ <;> rcases mem_dbFiles.1 hg with hg | ⟨q, hq, hg⟩
  · have hsys : ∀ f ∈ systemFiles, ∀ g ∈ systemFiles, f.path = g.path → f = g := by decide
    exact hsys f hf g hg h
  · exact absurd h (hap.system_ne_part hf hq hg)
  · exact absurd h.symm (hap.system_ne_part hg hp hf)
  · exact hap.part_files_inj ha hp hq hf hg h

/-! ## The snapshot directory -/

theorem borderless_piMark : Text.Borderless piMark := by decide

theorem not_isHexDigit_I : isHexDigit 'I' = false := by decide

/-- The name of an index over an unmarked name is reserved. -/
theorem isReservedPiName_permName {rel : Name} (h : findInfix piMark rel = none) (i : ℕ) :
    isReservedPiName (permName rel i) = true := by
  have hfind := Text.findInfix_append borderless_piMark (by decide) h (hex i ++ ['_', '_'])
  unfold isReservedPiName permName
  rw [hfind]
  dsimp only
  have hdrop : (piMark ++ (hex i ++ ['_', '_'])).drop 4 = hex i ++ ['_', '_'] := rfl
  have hall : ∀ c ∈ hex i, isHexDigit c = true := fun c => Text.isHexDigit_of_mem_hex
  have hstop : isHexDigit '_' = false := by decide
  rw [hdrop, List.takeWhile_append_of_pos hall, List.dropWhile_append_of_pos hall,
    List.takeWhile_cons_of_neg (by simp [hstop]), List.dropWhile_cons_of_neg (by simp [hstop])]
  have hne := Text.hex_ne_nil i
  cases hx : hex i with
  | nil => exact absurd hx hne
  | cons c s => rfl

theorem fileName_of_fits {x : Perm × ℕ} (h : ¬ permNameMax < (permName x.1.rel x.2).length) :
    Perm.fileName x = permName x.1.rel x.2 :=
  List.take_of_length_le (not_lt.1 h)

theorem length_fileName_of_cut {x : Perm × ℕ} (h : permNameMax < (permName x.1.rel x.2).length) :
    (Perm.fileName x).length = permNameMax := by
  rw [Perm.fileName, List.length_take]
  exact min_eq_left h.le

theorem permName_eq_append (rel : Name) (i : ℕ) :
    permName rel i = (rel ++ (piMark ++ (hex i ++ ['_']))) ++ ['_'] := by
  simp [permName]

/-- An index that fits has a name of its own. -/
theorem permName_number_inj {m n : Name} {i j : ℕ} (h : permName m i = permName n j) : i = j := by
  have hcut : ∀ (rel : Name) (k : ℕ),
      permName rel k = ((rel ++ ['_', '_', 'P']) ++ 'I' :: hex k) ++ ['_', '_'] := by
    intro rel k
    simp [permName, piMark]
  rw [hcut, hcut] at h
  exact Text.hex_inj (Text.last_run_inj (p := isHexDigit) (fun _ => Text.isHexDigit_of_mem_hex)
    (fun _ => Text.isHexDigit_of_mem_hex) not_isHexDigit_I not_isHexDigit_I
    (List.append_cancel_right h))

/-- An index has no name of a part. -/
theorem Apart.stem_ne_fileName {derived : Bool} {rels : List RelEntry} {perms : List Perm}
    (ha : Accepted rels) (hap : Apart derived rels perms) {p : Part} (hp : p ∈ parts rels)
    {x : Perm × ℕ} (hx : x ∈ savedPerms perms) : p.stem ≠ Perm.fileName x := by
  by_cases hloose : Perm.Loose x
  · exact hap.perm x hx hloose p hp
  · unfold Perm.Loose at hloose
    rw [not_or, not_not] at hloose
    rw [fileName_of_fits hloose.2]
    intro h
    obtain ⟨hfix, hname⟩ := Part.fixed_of_stem hp
      (fun a ha hpos => (digit_facts a ha hpos).2.2.1) (h.trans (permName_eq_append _ _))
    rw [← permName_eq_append] at hname
    have := ha.reserved _ (mem_parts.1 hp).1
    rw [hname, isReservedPiName_permName hloose.1] at this
    cases this

/-- The entry and its number determine each other. -/
theorem savedPerms_eq_of_number {perms : List Perm} {x y : Perm × ℕ} (hx : x ∈ savedPerms perms)
    (hy : y ∈ savedPerms perms) (h : x.2 = y.2) : x = y := by
  have hx' := List.mem_zipIdx_iff_getElem?.1 (List.mem_filter.1 hx).1
  have hy' := List.mem_zipIdx_iff_getElem?.1 (List.mem_filter.1 hy).1
  rw [h] at hx'
  exact Prod.ext (Option.some.inj (hx'.symm.trans hy')) h

/-- Two indices have two names. -/
theorem Apart.fileName_inj {derived : Bool} {rels : List RelEntry} {perms : List Perm}
    (hap : Apart derived rels perms) {x y : Perm × ℕ} (hx : x ∈ savedPerms perms)
    (hy : y ∈ savedPerms perms) (h : Perm.fileName x = Perm.fileName y) : x = y := by
  by_contra hne
  by_cases hcx : permNameMax < (permName x.1.rel x.2).length
  · exact hap.cut x hx hcx y hy hne h
  · by_cases hcy : permNameMax < (permName y.1.rel y.2).length
    · exact hap.cut y hy hcy x hx (Ne.symm hne) h.symm
    · rw [fileName_of_fits hcx, fileName_of_fits hcy] at h
      exact hne (savedPerms_eq_of_number hx hy (permName_number_inj h))

/-- An index is not the interner. -/
theorem fileName_ne_symbols (x : Perm × ℕ) : Perm.fileName x ≠ symbolsName := by
  by_cases hcut : permNameMax < (permName x.1.rel x.2).length
  · intro h
    have hlen := length_fileName_of_cut hcut
    rw [h] at hlen
    exact absurd hlen (by decide)
  · rw [fileName_of_fits hcut, permName_eq_append]
    exact (ne_append_of_not_suffix (by decide)).symm

theorem mem_snapFiles {derived : Bool} {rels : List RelEntry} {perms : List Perm} {f : SnapFile} :
    f ∈ snapFiles derived rels perms ↔ f ∈ snapSystemFiles derived ∨
      (∃ p ∈ parts rels, f = .part p) ∨ ∃ x ∈ savedPerms perms, f = .perm x := by
  simp only [snapFiles, List.mem_append, List.mem_map, eq_comm]

theorem nodup_savedPerms (perms : List Perm) : (savedPerms perms).Nodup := by
  refine List.Nodup.filter _ (List.Nodup.of_map Prod.snd ?_)
  rw [List.zipIdx_map_snd]
  exact List.nodup_range'

theorem nodup_snapFiles {rels : List RelEntry} (ha : Accepted rels) (derived : Bool)
    (perms : List Perm) : (snapFiles derived rels perms).Nodup := by
  have hsystem : ∀ derived, (snapSystemFiles derived).Nodup := by decide
  refine List.nodup_append.2 ⟨hsystem derived, List.nodup_append.2 ⟨?_, ?_, ?_⟩, ?_⟩
  · exact (nodup_parts ha).map fun p q h => SnapFile.part.inj h
  · exact (nodup_savedPerms perms).map fun x y h => SnapFile.perm.inj h
  · intro f hf g hg
    obtain ⟨p, -, rfl⟩ := List.mem_map.1 hf
    obtain ⟨x, -, rfl⟩ := List.mem_map.1 hg
    exact SnapFile.noConfusion
  · intro f hf g hg hfg
    subst hfg
    rcases List.mem_append.1 hg with hg | hg
    all_goals
      obtain ⟨z, -, rfl⟩ := List.mem_map.1 hg
      cases derived <;> simp [snapSystemFiles] at hf

/-- No file of a fixed name in a snapshot has the name `s.dafsa` of another store. -/
theorem snapSystem_ne {derived : Bool} {f : SnapFile} (hf : f ∈ snapSystemFiles derived)
    {s : Name} (hs : derived = true → s ≠ symbolsName) : f.path ≠ s ++ dafsaExt := by
  have hno : ∀ derived, ∀ f ∈ snapSystemFiles derived, dafsaExt <:+ f.path →
      derived = true ∧ f = .symbols := by decide
  intro h
  obtain ⟨hder, rfl⟩ := hno derived f hf (h ▸ List.suffix_append s dafsaExt)
  exact hs hder (List.append_cancel_right h).symm

/-- **The paths of a snapshot**, when the names are apart. -/
theorem Apart.snap_paths_nodup {derived : Bool} {rels : List RelEntry} {perms : List Perm}
    (ha : Accepted rels) (hap : Apart derived rels perms) :
    ((snapFiles derived rels perms).map SnapFile.path).Nodup := by
  have hne : ∀ p ∈ parts rels, derived = true → p.stem ≠ symbolsName := by
    rintro p hp rfl
    exact hap.stem_ne_symbols hp
  refine (List.nodup_map_iff_inj_on (nodup_snapFiles ha derived perms)).2 ?_
  intro f hf g hg h
  rcases mem_snapFiles.1 hf with hf | ⟨p, hp, rfl⟩ | ⟨x, hx, rfl⟩ <;>
    rcases mem_snapFiles.1 hg with hg | ⟨q, hq, rfl⟩ | ⟨y, hy, rfl⟩
  · have hsys : ∀ derived, ∀ f ∈ snapSystemFiles derived, ∀ g ∈ snapSystemFiles derived,
        f.path = g.path → f = g := by decide
    exact hsys derived f hf g hg h
  · exact absurd h (snapSystem_ne hf (hne q hq))
  · exact absurd h (snapSystem_ne hf fun _ => fileName_ne_symbols y)
  · exact absurd h.symm (snapSystem_ne hg (hne p hp))
  · rw [ha.part_eq hap hp hq (List.append_cancel_right h)]
  · exact absurd (List.append_cancel_right h) (hap.stem_ne_fileName ha hp hy)
  · exact absurd h.symm (snapSystem_ne hg fun _ => fileName_ne_symbols x)
  · exact absurd (List.append_cancel_right h).symm (hap.stem_ne_fileName ha hq hx)
  · rw [hap.fileName_inj hx hy (List.append_cancel_right h)]

/-! ## The exact condition -/

/-- **Distinct paths need names that are apart.** -/
theorem apart_of_paths_nodup {derived : Bool} {rels : List RelEntry} {perms : List Perm}
    (hdb : ((dbFiles rels).map DbFile.path).Nodup)
    (hsnap : ((snapFiles derived rels perms).map SnapFile.path).Nodup) :
    Apart derived rels perms := by
  have hdb := List.inj_on_of_nodup_map hdb
  have hsnap := List.inj_on_of_nodup_map hsnap
  have hsystem : ∀ f ∈ systemFiles, f ∈ dbFiles rels := fun f hf => mem_dbFiles.2 (.inl hf)
  have hpart : ∀ p ∈ parts rels, ∀ f ∈ p.files, f ∈ dbFiles rels :=
    fun p hp f hf => mem_dbFiles.2 (.inr ⟨p, hp, hf⟩)
  have hview : ∀ p : Part, DbFile.dafsa p ∈ p.files := fun p => by simp [Part.files]
  have hbase : ∀ p : Part, DbFile.base p ∈ p.files := fun p => by simp [Part.files]
  have hwal : ∀ p : Part, DbFile.wal p ∈ p.files := fun p => by simp [Part.files]
  constructor
  · intro e he hfix
    have hstem := Part.stem_fixed (p := ⟨e, 0⟩) hfix
    intro hname
    have := hdb (hpart _ (mem_parts_fixed he hfix) _ (hwal _)) (hsystem .txn (by decide))
      (by simp only [DbFile.path, hstem, hname])
    cases this
  · rintro rfl e he hfix hname
    have hstem := Part.stem_fixed (p := ⟨e, 0⟩) hfix
    have := hsnap (mem_snapFiles.2 (.inr (.inl ⟨_, mem_parts_fixed he hfix, rfl⟩)))
      (mem_snapFiles.2 (.inl (by decide : SnapFile.symbols ∈ snapSystemFiles true)))
      (by simp only [SnapFile.path, hstem, hname])
    cases this
  · intro e he hfix q hq hname
    have hstem := Part.stem_fixed (p := ⟨e, 0⟩) hfix
    have := hdb (hpart _ (mem_parts_fixed he hfix) _ (hview _)) (hpart q hq _ (hbase q))
      (by simp only [DbFile.path, hstem, hname])
    cases this
  · intro e he hfix _ q hq hvar hname
    have hstem := Part.stem_fixed (p := ⟨e, 0⟩) hfix
    have := hdb (hpart _ (mem_parts_fixed he hfix) _ (hview _)) (hpart q hq _ (hview q))
      (by simp only [DbFile.path, hstem, hname])
    have hrel : e = q.rel := congrArg Part.rel (DbFile.dafsa.inj this)
    exact hfix (hrel ▸ hvar)
  · intro x hx _ p hp hname
    have := hsnap (mem_snapFiles.2 (.inr (.inl ⟨p, hp, rfl⟩)))
      (mem_snapFiles.2 (.inr (.inr ⟨x, hx, rfl⟩))) (by simp only [SnapFile.path, hname])
    cases this
  · intro x hx _ y hy hne hname
    have := hsnap (mem_snapFiles.2 (.inr (.inr ⟨x, hx, rfl⟩)))
      (mem_snapFiles.2 (.inr (.inr ⟨y, hy, rfl⟩))) (by simp only [SnapFile.path, hname])
    exact hne (SnapFile.perm.inj this)

/-- **When no two stores share a file.**  After any sequence of declarations, with any
table of indices and whether or not a snapshot gets the interner's automaton, the paths of
the files in the database directory and those of the files in a snapshot are pairwise
distinct exactly when no relation has one of the names that `Apart` lists. -/
theorem paths_nodup_iff (ds : List Declaration) (perms : List Perm) (derived : Bool) :
    ((dbFiles (declareAll ds)).map DbFile.path).Nodup ∧
      ((snapFiles derived (declareAll ds) perms).map SnapFile.path).Nodup ↔
    Apart derived (declareAll ds) perms := by
  constructor
  · rintro ⟨hdb, hsnap⟩
    exact apart_of_paths_nodup hdb hsnap
  · intro hap
    have ha := accepted_declareAll ds
    exact ⟨hap.db_paths_nodup ha, hap.snap_paths_nodup ha⟩

/-- A relation called `txn` is accepted, and its log is the transaction log. -/
theorem not_paths_nodup :
    ¬ ∀ (ds : List Declaration) (perms : List Perm) (derived : Bool),
      ((dbFiles (declareAll ds)).map DbFile.path).Nodup ∧
        ((snapFiles derived (declareAll ds) perms).map SnapFile.path).Nodup := by
  intro h
  have hdb := (h [⟨txnName, 2, true⟩] [] false).1
  revert hdb
  decide

/-- A relation may also be called like another one's base file. -/
example : ¬ ((dbFiles (declareAll [⟨['p'], 1, true⟩, ⟨['p'] ++ baseExt, 1, true⟩])).map
    DbFile.path).Nodup := by
  decide

end DatalogDafsa.Catalog
