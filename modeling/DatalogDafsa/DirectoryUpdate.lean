import DatalogDafsa.Directory

/-!
# What an operation does to a directory

While the names are in order every fixed relation has files of its own, so an operation on
one relation of a directory is one on the store behind it.  `Follows` says this of any
function of directories, and is closed under composition and folds.

## Main results

* `get_update` — an operation changes the relation of its name, and no other.
* `Follows.update`, `Follows.foldl`, `Follows.each` — operations on one relation, on a list
  of them, and on every relation.
-/

namespace DatalogDafsa.Directory

open SetLog (Rec)
open Catalog (Name RelEntry Part DbFile MetaLine GoodName dbFiles readRelsTxt Accepted Buildable)
open Kinds (Definite)
open Durable TxnLog
open TxnWal (Bytes)

variable {crc : Bytes → UInt32} {st : St}

/-! ## Finding a relation -/

theorem findFixed_eq_some {rels : List Rel} {n : RelName} {r : Rel} :
    findFixed rels n = some r ↔ RelName.ofName n.name = n ∧
      rels.find? (fun r => r.entry.name = n.name) = some r ∧ ¬ r.entry.Variadic := by
  unfold findFixed
  split
  · rename_i hn
    simp [hn, Option.filter_eq_some_iff]
  · rename_i hn
    simp [hn]

/-- What is found is of the list. -/
theorem findFixed_mem {rels : List Rel} {n : RelName} {r : Rel} (h : findFixed rels n = some r) :
    r ∈ rels ∧ RelName.ofName r.entry.name = n ∧ ¬ r.entry.Variadic := by
  obtain ⟨hn, hfind, hfix⟩ := findFixed_eq_some.1 h
  have hname : r.entry.name = n.name := by simpa using List.find?_some hfind
  exact ⟨List.mem_of_find?_eq_some hfind, hname ▸ hn, hfix⟩

/-- A fixed relation of the list is found. -/
theorem findFixed_of_mem {rels : List Rel} (hnames : (rels.map fun r => r.entry.name).Nodup)
    {r : Rel} (hr : r ∈ rels) (hfix : ¬ r.entry.Variadic) :
    findFixed rels (.ofName r.entry.name) = some r := by
  refine findFixed_eq_some.2 ⟨by simp, ?_, hfix⟩
  cases h : rels.find? (fun r' => r'.entry.name = (RelName.ofName r.entry.name).name) with
  | none =>
    have := List.find?_eq_none.1 h r hr
    simp at this
  | some r' =>
    have hname : r'.entry.name = r.entry.name := by simpa using List.find?_some h
    exact congrArg some (List.inj_on_of_nodup_map hnames (List.mem_of_find?_eq_some h) hr hname)

/-- A change that keeps the entries is a change of what is found. -/
theorem findFixed_map {g : Rel → Rel} (hg : ∀ r, (g r).entry = r.entry) (rels : List Rel)
    (n : RelName) : findFixed (rels.map g) n = (findFixed rels n).map g := by
  unfold findFixed
  split
  · rw [List.find?_map]
    have hcomp : ((fun r : Rel => decide (r.entry.name = n.name)) ∘ g) =
        fun r => decide (r.entry.name = n.name) := by
      funext r
      simp [hg]
    rw [hcomp]
    cases rels.find? fun r => decide (r.entry.name = n.name) with
    | none => rfl
    | some r => by_cases hv : r.entry.Variadic <;> simp [Option.filter, hg, hv]
  · rfl

/-- The arity of a name, from the relation it finds. -/
theorem arityOf_entries (st : St) (n : RelName) :
    arityOf st.entries n = (findFixed st.rels n).map fun r => r.entry.arity := by
  unfold arityOf findFixed
  split
  · rw [Catalog.findRel, St.entries, List.find?_map]
    have hcomp : ((fun e : RelEntry => decide (e.name = n.name)) ∘ Rel.entry) =
        fun r => decide (r.entry.name = n.name) := rfl
    rw [hcomp]
    cases st.rels.find? fun r => decide (r.entry.name = n.name) with
    | none => rfl
    | some r => by_cases hv : r.entry.Variadic <;> simp [Option.filter, hv]
  · rfl

theorem isSome_arityOf (st : St) (n : RelName) :
    (arityOf st.entries n).isSome = (findFixed st.rels n).isSome := by
  rw [arityOf_entries, Option.isSome_map]

/-! ## The invariant of a run -/

/-- The list can be built up again, its names are in order, and nothing was ever written to
a file that is not one of its relations'. -/
structure Sound (st : St) : Prop where
  /-- The names. -/
  names : NamesOk st.entries
  /-- The entries passed the tests. -/
  accepted : Accepted st.entries
  /-- They pass them again. -/
  buildable : Buildable st.entries
  /-- One kind for each column. -/
  kinds : ∀ r ∈ st.rels, r.kinds.length = r.entry.arity
  /-- Other files. -/
  clean : ∀ x, (∀ f ∈ dbFiles st.entries, f.path ≠ x) → st.automata x = .create ∧ st.logs x = []

/-- The entry of a line. -/
def lineEntry (m : MetaLine) : RelEntry := ⟨m.name, m.arity⟩

/-- And it is the list of `rels.txt`. -/
structure Inv (st : St) : Prop extends Sound st where
  /-- The lines. -/
  lines : (readRelsTxt st.relsTxt).map lineEntry = st.entries

theorem NamesOk.listed {entries : List RelEntry} (h : NamesOk entries) (ha : Accepted entries) :
    Listed entries where
  ne_nil e he := (h.good e he).ne_nil
  length_le e he := (h.good e he).length_le
  bytes := h.bytes
  arity_le := ha.arity_le

/-- Files with one path are one file. -/
theorem NamesOk.file_inj {entries : List RelEntry} (h : NamesOk entries) {f g : DbFile}
    (hf : f ∈ dbFiles entries) (hg : g ∈ dbFiles entries) (hpath : f.path = g.path) : f = g :=
  List.inj_on_of_nodup_map h.apart hf hg hpath

theorem file_mem {entries : List RelEntry} {p : Part} (hp : p ∈ Catalog.parts entries) {f : DbFile}
    (hf : f ∈ p.files) : f ∈ dbFiles entries :=
  Catalog.mem_dbFiles.2 (.inr ⟨p, hp, hf⟩)

theorem part_mem {r : Rel} (hr : r ∈ st.rels) (hfix : ¬ r.entry.Variadic) :
    r.part ∈ Catalog.parts st.entries :=
  Catalog.mem_parts_fixed (List.mem_map_of_mem hr) hfix

theorem Sound.nodup_names (h : Sound st) : (st.rels.map fun r => r.entry.name).Nodup := by
  have := h.accepted.names
  rwa [St.entries, List.map_map] at this

/-! ## The files of a part -/

section Files

variable {entries : List RelEntry} {p q : Part}

/-- What was written to the files of a part is read back. -/
theorem files_writeFiles_same (h : NamesOk entries) (hp : p ∈ Catalog.parts entries)
    (st : St) (f : RelFiles) (idb : Bool) :
    (st.writeFiles p f).files p idb = { f with idb } := by
  have hne : (DbFile.dafsa p).path ≠ (DbFile.base p).path := by
    intro heq
    have := h.file_inj (file_mem hp (by simp [Part.files])) (file_mem hp (by simp [Part.files])) heq
    cases this
  simp [St.writeFiles, St.files, Function.update_of_ne hne]

/-- The files of another part are left alone. -/
theorem files_writeFiles_of_ne (h : NamesOk entries) (hp : p ∈ Catalog.parts entries)
    (hq : q ∈ Catalog.parts entries) (hpq : p ≠ q) (st : St) (f : RelFiles) (idb : Bool) :
    (st.writeFiles p f).files q idb = st.files q idb := by
  have hne : ∀ f ∈ p.files, ∀ g ∈ q.files, g.path ≠ f.path := by
    intro f hf g hg heq
    obtain rfl := h.file_inj (file_mem hq hg) (file_mem hp hf) heq
    have h₁ := Catalog.part?_of_mem_files hf
    rw [Catalog.part?_of_mem_files hg] at h₁
    exact hpq (Option.some.inj h₁).symm
  have hdd := hne (.dafsa p) (by simp [Part.files]) (.dafsa q) (by simp [Part.files])
  have hbd := hne (.base p) (by simp [Part.files]) (.dafsa q) (by simp [Part.files])
  have hdb := hne (.dafsa p) (by simp [Part.files]) (.base q) (by simp [Part.files])
  have hbb := hne (.base p) (by simp [Part.files]) (.base q) (by simp [Part.files])
  have hww := hne (.wal p) (by simp [Part.files]) (.wal q) (by simp [Part.files])
  simp [St.writeFiles, St.files, Function.update_of_ne, hdd, hbd, hdb, hbb, hww]

/-- Files that are no part's stay as they are. -/
theorem clean_writeFiles (hp : p ∈ Catalog.parts entries) (st : St) (f : RelFiles) {x : Name}
    (hx : ∀ f ∈ dbFiles entries, f.path ≠ x) :
    (st.writeFiles p f).automata x = st.automata x ∧ (st.writeFiles p f).logs x = st.logs x := by
  have hne : ∀ f ∈ p.files, x ≠ f.path := fun f hf => (hx f (file_mem hp hf)).symm
  have hd := hne (.dafsa p) (by simp [Part.files])
  have hb := hne (.base p) (by simp [Part.files])
  have hw := hne (.wal p) (by simp [Part.files])
  simp [St.writeFiles, Function.update_of_ne, hd, hb, hw]

end Files

/-! ## One operation -/

/-- An operation on a relation leaves its line alone. -/
def KeepsMark (f : RelState → RelState) : Prop := ∀ s, (f s).files.idb = s.files.idb

@[simp] theorem entry_setMem (e : RelEntry) (m : Relation) (r : Rel) :
    (setMem e m r).entry = r.entry := by
  unfold setMem
  split <;> rfl

@[simp] theorem entries_update (st : St) (n : RelName) (f : RelState → RelState) :
    (st.update n f).entries = st.entries := by
  unfold St.update
  split
  · rfl
  · simp [St.entries, Function.comp_def]

/-- An operation leaves the lines, the mark and the transaction log alone. -/
structure Kept (st st' : St) : Prop where
  /-- The list. -/
  entries : st'.entries = st.entries
  /-- Whether `rels.txt` is stale. -/
  metaDirty : st'.metaDirty = st.metaDirty
  /-- Its text. -/
  relsTxt : st'.relsTxt = st.relsTxt
  /-- The transaction log. -/
  txnLog : st'.txnLog = st.txnLog

theorem Kept.refl (st : St) : Kept st st := ⟨rfl, rfl, rfl, rfl⟩

theorem Kept.trans {st₁ st₂ st₃ : St} (h : Kept st₁ st₂) (h' : Kept st₂ st₃) : Kept st₁ st₃ :=
  ⟨h'.entries.trans h.entries, h'.metaDirty.trans h.metaDirty, h'.relsTxt.trans h.relsTxt,
    h'.txnLog.trans h.txnLog⟩

theorem kept_update (st : St) (n : RelName) (f : RelState → RelState) :
    Kept st (st.update n f) := by
  refine ⟨entries_update st n f, ?_, ?_, ?_⟩ <;> unfold St.update <;> split <;> rfl

/-- The store behind a directory, but for the relations. -/
theorem Kept.abs {st' : St} (h : Kept st st') :
    st'.abs crc = { st.abs crc with db := { (st.abs crc).db with rels := st'.get } } := by
  unfold St.abs
  rw [h.entries, h.metaDirty, h.txnLog]

theorem Kept.abs_db {st' : St} (h : Kept st st') :
    st'.abs crc = { st.abs crc with db := (st'.abs crc).db } := by
  rw [h.abs]

theorem Kept.logOk {st' : St} (h : Kept st st') {es : List (RelName × Rec Row)}
    (hlog : LogOk crc st.entries st.txnLog es) : LogOk crc st'.entries st'.txnLog es := by
  rw [h.entries, h.txnLog]
  exact hlog

/-- The relation that is found, with its files. -/
theorem get_of_find {n : RelName} {r : Rel} (h : findFixed st.rels n = some r) :
    st.get n = st.relState r := by
  rw [St.get, h]
  rfl

theorem get_of_none {n : RelName} (h : findFixed st.rels n = none) : st.get n = blank := by
  rw [St.get, h]
  rfl

/-- **An operation on one relation** changes that relation, and no other. -/
theorem get_update (h : Inv st) {n : RelName} (hn : (arityOf st.entries n).isSome)
    {f : RelState → RelState} (hf : KeepsMark f) :
    (st.update n f).get = Function.update st.get n (f (st.get n)) := by
  rw [isSome_arityOf, Option.isSome_iff_exists] at hn
  obtain ⟨r, hr⟩ := hn
  obtain ⟨hmem, hname, hfix⟩ := findFixed_mem hr
  have hupd : st.update n f =
      { st.writeFiles r.part (f (st.relState r)).files with
        rels := st.rels.map (setMem r.entry (f (st.relState r)).mem) } := by
    unfold St.update
    rw [hr]
  have hget := get_of_find hr
  funext m
  by_cases hm : m = n
  · subst hm
    have hfound : findFixed (st.update m f).rels m =
        some (setMem r.entry (f (st.relState r)).mem r) := by
      rw [hupd]
      dsimp only
      rw [findFixed_map (entry_setMem _ _), hr, Option.map_some]
    rw [Function.update_self, get_of_find hfound, hget]
    have hfiles := files_writeFiles_same h.names (part_mem hmem hfix) st (f (st.relState r)).files
      (st.mark r.entry.name)
    have hmark : (f (st.relState r)).files.idb = st.mark r.entry.name := hf _
    rw [hupd]
    show (⟨(setMem r.entry _ r).mem, St.files _ (setMem r.entry _ r).part _⟩ : RelState) = _
    rw [setMem, if_pos rfl]
    show (⟨_, (st.writeFiles r.part _).files r.part (st.mark r.entry.name)⟩ : RelState) = _
    rw [hfiles, ← hmark]
  · rw [Function.update_of_ne hm]
    cases hfind : findFixed st.rels m with
    | none =>
      rw [get_of_none hfind, get_of_none]
      rw [hupd]
      dsimp only
      rw [findFixed_map (entry_setMem _ _), hfind, Option.map_none]
    | some r' =>
      obtain ⟨hmem', hname', hfix'⟩ := findFixed_mem hfind
      have hne : r'.entry ≠ r.entry := by
        intro heq
        rw [heq] at hname'
        exact hm (hname'.symm.trans hname)
      have hfound : findFixed (st.update n f).rels m = some r' := by
        rw [hupd]
        dsimp only
        rw [findFixed_map (entry_setMem _ _), hfind, Option.map_some, setMem, if_neg hne]
      rw [get_of_find hfind, get_of_find hfound, hupd]
      show (⟨r'.mem, (st.writeFiles r.part _).files r'.part (st.mark r'.entry.name)⟩ : RelState) = _
      rw [files_writeFiles_of_ne h.names (part_mem hmem hfix) (part_mem hmem' hfix')
        fun heq => hne (congrArg Part.rel heq).symm]
      rfl

/-- A directory with the same list, and nothing new in the other files. -/
theorem Inv.of_entries {st' : St} (h : Inv st) (hentries : st'.entries = st.entries)
    (htext : st'.relsTxt = st.relsTxt)
    (hkinds : ∀ r ∈ st'.rels, r.kinds.length = r.entry.arity)
    (hclean : ∀ x, (∀ f ∈ dbFiles st.entries, f.path ≠ x) →
      st'.automata x = st.automata x ∧ st'.logs x = st.logs x) : Inv st' := by
  refine ⟨⟨?_, ?_, ?_, hkinds, ?_⟩, ?_⟩
  · rw [hentries]
    exact h.names
  · rw [hentries]
    exact h.accepted
  · rw [hentries]
    exact h.buildable
  · intro x hx
    rw [hentries] at hx
    rw [(hclean x hx).1, (hclean x hx).2]
    exact h.clean x hx
  · rw [hentries, htext]
    exact h.lines

/-- An operation keeps the invariant. -/
theorem Inv.update (h : Inv st) (n : RelName) (f : RelState → RelState) : Inv (st.update n f) := by
  have hk := kept_update st n f
  apply h.of_entries hk.entries hk.relsTxt
  · unfold St.update
    split
    · exact h.kinds
    · intro r hr
      obtain ⟨r', hr', rfl⟩ := List.mem_map.1 hr
      rw [entry_setMem]
      unfold setMem
      split <;> exact h.kinds r' hr'
  · intro x hx
    unfold St.update
    cases hfind : findFixed st.rels n with
    | none => exact ⟨rfl, rfl⟩
    | some r =>
      obtain ⟨hmem, -, hfix⟩ := findFixed_mem hfind
      exact clean_writeFiles (part_mem hmem hfix) st _ hx

/-! ## Functions of directories -/

variable (crc) in
/-- On directories with the list `entries`, what `f` does is `g` on the store behind it. -/
def Follows (entries : List RelEntry) (f : St → St) (g : Db → Db) : Prop :=
  ∀ st, Inv st → st.entries = entries →
    Inv (f st) ∧ Kept st (f st) ∧ ((f st).abs crc).db = g (st.abs crc).db

namespace Follows

variable {entries : List RelEntry} {f f' : St → St} {g g' : Db → Db}

theorem refl : Follows crc entries (fun st => st) (fun db => db) := fun st h _ =>
  ⟨h, Kept.refl st, rfl⟩

theorem comp (h : Follows crc entries f g) (h' : Follows crc entries f' g') :
    Follows crc entries (fun st => f' (f st)) (fun db => g' (g db)) := by
  intro st hinv hst
  obtain ⟨hinv₁, hkept₁, hdb₁⟩ := h st hinv hst
  obtain ⟨hinv₂, hkept₂, hdb₂⟩ := h' (f st) hinv₁ (hkept₁.entries.trans hst)
  exact ⟨hinv₂, hkept₁.trans hkept₂, by rw [hdb₂, hdb₁]⟩

theorem foldl {α : Type} {l : List α} {f : St → α → St} {g : Db → α → Db}
    (h : ∀ a ∈ l, Follows crc entries (fun st => f st a) (fun db => g db a)) :
    Follows crc entries (fun st => l.foldl f st) (fun db => l.foldl g db) := by
  induction l with
  | nil => exact refl
  | cons a l ih =>
    exact (h a (List.mem_cons_self ..)).comp (ih fun b hb => h b (List.mem_cons_of_mem _ hb))

/-- An operation on one relation. -/
theorem update {n : RelName} (hn : (arityOf entries n).isSome) {φ : RelState → RelState}
    (hφ : KeepsMark φ) :
    Follows crc entries (fun st => st.update n φ) (fun db => db.setRel n (φ (db.rels n))) := by
  rintro st hinv rfl
  refine ⟨hinv.update n φ, kept_update st n φ, ?_⟩
  rw [(kept_update st n φ).abs, get_update hinv hn hφ]
  rfl

end Follows

/-- The fixed relations, from the list. -/
def fixedOf (entries : List RelEntry) : List RelName :=
  (entries.filter fun e => ¬ e.Variadic).map fun e => .ofName e.name

theorem fixed_eq (st : St) : st.fixed = fixedOf st.entries := by
  rw [St.fixed, fixedOf, St.entries, List.filter_map, List.map_map]
  rfl

theorem nodup_fixedOf {entries : List RelEntry} (h : Accepted entries) :
    (fixedOf entries).Nodup := by
  have hnames : ((entries.filter fun e => ¬ e.Variadic).map RelEntry.name).Nodup :=
    h.names.sublist (List.filter_sublist.map _)
  have : fixedOf entries =
      ((entries.filter fun e => ¬ e.Variadic).map RelEntry.name).map RelName.ofName := by
    rw [List.map_map]
    rfl
  rw [this]
  exact hnames.map fun m n heq => RelName.ofName_inj heq

/-- The fixed relations are those that are found. -/
theorem mem_fixed (h : Inv st) {n : RelName} :
    n ∈ st.fixed ↔ (arityOf st.entries n).isSome := by
  rw [isSome_arityOf, Option.isSome_iff_exists]
  constructor
  · intro hn
    obtain ⟨r, hr, rfl⟩ := List.mem_map.1 hn
    rw [List.mem_filter] at hr
    exact ⟨r, findFixed_of_mem h.nodup_names hr.1 (by simpa using hr.2)⟩
  · rintro ⟨r, hr⟩
    obtain ⟨hmem, hname, hfix⟩ := findFixed_mem hr
    exact List.mem_map.2 ⟨r, List.mem_filter.2 ⟨hmem, by simpa using hfix⟩, hname⟩

theorem get_of_not_fixed (h : Inv st) {n : RelName} (hn : n ∉ st.fixed) : st.get n = blank := by
  rw [mem_fixed h, isSome_arityOf, Bool.not_eq_true, Option.isSome_eq_false_iff,
    Option.isNone_iff_eq_none] at hn
  exact get_of_none hn

/-- Changing relations one by one changes each of them. -/
theorem rels_foldl_setRel {ns : List RelName} (hns : ns.Nodup) (φ : RelState → RelState) (db : Db) :
    ns.foldl (fun db n => db.setRel n (φ (db.rels n))) db =
      { db with rels := fun n => if n ∈ ns then φ (db.rels n) else db.rels n } := by
  induction ns generalizing db with
  | nil => simp
  | cons n ns ih =>
    rw [List.foldl_cons, ih hns.of_cons]
    have hn := (List.nodup_cons.1 hns).1
    rw [Db.setRel]
    congr 1
    funext m
    by_cases hm : m = n
    · subst hm
      simp [hn]
    · simp [hm]

/-- **An operation on some of the fixed relations**, in the order of the list. -/
theorem Follows.touched {entries : List RelEntry} {φ : RelState → RelState} (hφ : KeepsMark φ)
    {p : RelName → Bool} (hp : ∀ n, p n = true → (arityOf entries n).isSome ∨ φ blank = blank) :
    Follows crc entries (fun st => (st.fixed.filter p).foldl (fun st n => st.update n φ) st)
      (fun db => { db with rels := fun n => if p n then φ (db.rels n) else db.rels n }) := by
  rintro st hinv rfl
  have hfold : Follows crc st.entries
      (fun st' => (st.fixed.filter p).foldl (fun st n => st.update n φ) st')
      (fun db => (st.fixed.filter p).foldl (fun db n => db.setRel n (φ (db.rels n))) db) :=
    Follows.foldl fun n hn =>
      Follows.update ((mem_fixed hinv).1 (List.mem_filter.1 hn).1) hφ
  obtain ⟨hinv', hkept, hdb⟩ := hfold st hinv rfl
  refine ⟨hinv', hkept, hdb.trans ?_⟩
  have hnodup : (st.fixed.filter p).Nodup := by
    rw [fixed_eq]
    exact (nodup_fixedOf hinv.accepted).filter _
  dsimp only
  rw [rels_foldl_setRel hnodup]
  congr 1
  funext n
  show (if n ∈ st.fixed.filter p then φ (st.get n) else st.get n) =
    if p n = true then φ (st.get n) else st.get n
  by_cases hpn : p n = true
  · by_cases hn : n ∈ st.fixed
    · rw [if_pos (List.mem_filter.2 ⟨hn, hpn⟩), if_pos hpn]
    · rw [if_neg fun hmem => hn (List.mem_filter.1 hmem).1, if_pos hpn, get_of_not_fixed hinv hn]
      refine ((hp n hpn).resolve_left fun hsome => hn ((mem_fixed hinv).2 hsome)).symm
  · rw [if_neg fun hmem => hpn (List.mem_filter.1 hmem).2, if_neg hpn]

/-- An operation on every fixed relation that does nothing to an empty one. -/
theorem Follows.each {entries : List RelEntry} {φ : RelState → RelState} (hφ : KeepsMark φ)
    (hblank : φ blank = blank) :
    Follows crc entries (fun st => st.fixed.foldl (fun st n => st.update n φ) st)
      (fun db => { db with rels := fun n => φ (db.rels n) }) := by
  have h := @Follows.touched crc entries φ hφ (fun _ => true) fun _ _ => .inr hblank
  simpa using h

end DatalogDafsa.Directory
