import DatalogDafsa.Catalog.Reopen

/-!
# Reopening restores the relations

The invariant of a run says that the list of relations is one the declarations build
up entry by entry, so that reading it back in order is accepted again, and that what
has not changed since the open is what its files give.  Closing writes the files of
what has, and since no two stores share a path each file ends with its own store's
tuples.

## Main definitions

* `Buildable` — a list that declarations build up.
* `Inv` — the invariant of a run.

## Main results

* `dlOpen_eq` — opening gives the entries of the list, each as its files give it.
* `Inv.step`, `Inv.run` — the invariant, along a run.
* `reopen_restored` — reopening restores the relations.
-/

namespace DatalogDafsa.Catalog

open Kinds (Definite)

/-! ## Opening a list -/

/-- Each entry was accepted after those before it. -/
def Buildable (es : List RelEntry) : Prop :=
  ∀ pre e post, es = pre ++ e :: post →
    dlDeclareRelationKind pre e.name e.arity true = some (pre ++ [e])

theorem Buildable.append {es : List RelEntry} (h : Buildable es) {e : RelEntry}
    (he : dlDeclareRelationKind es e.name e.arity true = some (es ++ [e])) :
    Buildable (es ++ [e]) := by
  intro pre e' post heq
  rcases List.eq_nil_or_concat post with rfl | ⟨post, x, rfl⟩
  · obtain ⟨rfl, hlast⟩ := List.append_inj' heq rfl
    obtain rfl : e = e' := by simpa using hlast
    exact he
  · have hsplit : es ++ [e] = (pre ++ e' :: post) ++ [x] := by simpa using heq
    exact h pre e' post (List.append_inj' hsplit rfl).1

/-- A relation as it is opened from its line. -/
def openRel (disk : Disk) (m : MetaLine) : RelState where
  name := m.name
  arity := m.arity
  kinds := m.kinds
  store a := openPart disk m.idb ⟨⟨m.name, m.arity⟩, a⟩
  dirty _ := false

theorem noteAll_replicate (read : List (Option Definite)) :
    noteAll read (List.replicate read.length none) = read := by
  have key : ∀ n ≤ read.length, (List.range n).foldl
      (fun kinds col => (read[col]?).join.elim kinds (noteKinds kinds col))
      (List.replicate read.length none) = read.take n ++ List.replicate (read.length - n) none := by
    intro n hn
    induction n with
    | zero => simp
    | succ n ih =>
      have hlt : n < read.length := hn
      obtain ⟨m, hm⟩ : ∃ m, read.length - n = m + 1 := ⟨read.length - n - 1, by omega⟩
      have hm' : read.length - (n + 1) = m := by omega
      have htake : (read.take n).length = n := by rw [List.length_take]; omega
      rw [List.range_succ, List.foldl_append, ih (by omega), hm, hm', List.foldl_cons,
        List.foldl_nil, List.take_add_one, List.getElem?_eq_getElem hlt]
      cases hk : read[n] with
      | none => simp [List.replicate_succ]
      | some k =>
        have hget : (read.take n ++ List.replicate (m + 1) none)[n]? =
            some (none : Option Definite) := by
          rw [List.getElem?_append_right htake.le, htake]
          simp
        have hset : (read.take n ++ List.replicate (m + 1) none).set n (some k) =
            read.take n ++ some k :: List.replicate m none := by
          rw [List.set_append_right _ _ htake.le, htake]
          simp [List.replicate_succ]
        simp only [Option.join_some, Option.elim_some, noteKinds, hget, if_true, hset]
        simp
  rw [noteAll, key _ le_rfl]
  simp

/-- The last entry is changed. -/
theorem modify_length_append {α : Type} (l : List α) (x : α) (f : α → α) :
    (l ++ [x]).modify l.length f = l ++ [f x] := by
  rw [List.modify_eq_take_cons_drop (by simp)]
  simp

/-- **One line is opened as a new relation.** -/
theorem openLine_eq {s : State} {m : MetaLine} (hkinds : m.kinds.length = m.arity)
    (h : dlDeclareRelationKind s.entries m.name m.arity true =
      some (s.entries ++ [⟨m.name, m.arity⟩])) :
    openLine s m = { s with rels := s.rels ++ [openRel s.disk m] } := by
  have hlen : s.entries.length = s.rels.length := List.length_map _
  have hdecl : declareKind s ⟨m.name, m.arity⟩ m.idb true =
      { s with rels := s.rels ++ [newRel s.disk ⟨m.name, m.arity⟩ m.idb] } := by
    unfold declareKind
    dsimp only
    rw [h]
    dsimp only
    rw [if_neg (by simp [hlen]), if_pos rfl]
  unfold openLine
  dsimp only
  rw [hdecl]
  split
  · next hzero =>
    have hnil : m.kinds = [] := List.length_eq_zero_iff.1 (hkinds.trans hzero)
    simp [newRel, openRel, hzero, hnil]
  · -- The name is new, so it is found at the end.
    have hnew : ∀ r ∈ s.rels, r.name ≠ m.name := by
      obtain ⟨heq, -⟩ | ⟨-, -, -, -, -, hfind, -⟩ := dlDeclareRelationKind_cases h
      · simp at heq
      · exact fun r hr => findRel_eq_none hfind r.entry (List.mem_map_of_mem hr)
    have hidx : (s.rels ++ [newRel s.disk ⟨m.name, m.arity⟩ m.idb]).findIdx?
        (fun r => decide (r.name = m.name)) = some s.rels.length := by
      rw [List.findIdx?_append, List.findIdx?_eq_none_iff.2 (by simpa using hnew)]
      simp [newRel, List.findIdx?_cons]
    rw [hidx]
    dsimp only
    rw [modify_length_append]
    simp [newRel, openRel, ← hkinds, noteAll_replicate]

/-- **Opening gives the entries of the list**, each as its files give it. -/
theorem dlOpen_eq {disk : Disk} {text : List Char} {ms : List MetaLine}
    (hread : readRelsTxt text = ms) (hkinds : ∀ m ∈ ms, m.kinds.length = m.arity)
    (hb : Buildable (ms.map fun m => ⟨m.name, m.arity⟩)) :
    dlOpen disk text = ⟨ms.map (openRel disk), false, disk, text⟩ := by
  have key : ∀ pre post, ms = pre ++ post →
      post.foldl openLine ⟨pre.map (openRel disk), false, disk, text⟩ =
        ⟨ms.map (openRel disk), false, disk, text⟩ := by
    intro pre post
    induction post generalizing pre with
    | nil =>
      rintro rfl
      simp
    | cons m post ih =>
      intro heq
      have hentries : (⟨pre.map (openRel disk), false, disk, text⟩ : State).entries =
          pre.map fun m => ⟨m.name, m.arity⟩ := by
        simp [State.entries, RelState.entry, openRel, Function.comp_def]
      have hone : openLine ⟨pre.map (openRel disk), false, disk, text⟩ m = _ :=
        openLine_eq (hkinds m (by simp [heq])) (by
          rw [hentries]
          exact hb (pre.map fun m => ⟨m.name, m.arity⟩) ⟨m.name, m.arity⟩
            (post.map fun m => ⟨m.name, m.arity⟩) (by simp [heq]))
      rw [List.foldl_cons, hone]
      have := ih (pre ++ [m]) (by simp [heq])
      simpa using this
  rw [dlOpen, hread]
  exact key [] ms rfl

/-! ## The files after closing -/

theorem writeFiles_of_ne {ws : List (DbFile × Dafsa)} (disk : Disk) {x : Name}
    (h : ∀ w ∈ ws, w.1.path ≠ x) : writeFiles ws disk x = disk x := by
  induction ws generalizing disk with
  | nil => rfl
  | cons w ws ih =>
    rw [writeFiles, List.foldl_cons]
    have := ih (Function.update disk w.1.path (some w.2))
      fun w' hw' => h w' (List.mem_cons_of_mem _ hw')
    rw [writeFiles] at this
    rw [this, Function.update_of_ne (Ne.symm (h w (by simp)))]

theorem writeFiles_of_mem {ws : List (DbFile × Dafsa)} {disk : Disk} {x : Name} {d : Dafsa}
    (hex : ∃ w ∈ ws, w.1.path = x) (h : ∀ w ∈ ws, w.1.path = x → w.2 = d) :
    writeFiles ws disk x = some d := by
  induction ws generalizing disk with
  | nil =>
    obtain ⟨w, hw, -⟩ := hex
    cases hw
  | cons w ws ih =>
    by_cases hrest : ∃ w' ∈ ws, w'.1.path = x
    · exact ih hrest fun w' hw' => h w' (List.mem_cons_of_mem _ hw')
    · have hno : ∀ w' ∈ ws, w'.1.path ≠ x := fun w' hw' hx => hrest ⟨w', hw', hx⟩
      obtain ⟨w', hw', hx⟩ := hex
      rcases List.mem_cons.1 hw' with rfl | hw'
      · have hupd := writeFiles_of_ne (Function.update disk w'.1.path (some w'.2)) hno
        rw [writeFiles] at hupd
        rw [writeFiles, List.foldl_cons, hupd, ← hx, Function.update_self, h w' (by simp) hx]
      · exact absurd hx (hno w' hw')

section Files

variable {s : State}

theorem mem_parts_of_mem {r : RelState} (hr : r ∈ s.rels) {p : Part} (hp : p ∈ r.entry.parts) :
    p ∈ parts s.entries :=
  List.mem_flatMap.2 ⟨r.entry, List.mem_map_of_mem hr, hp⟩

theorem rel_of_mem_parts {e : RelEntry} {p : Part} (hp : p ∈ e.parts) : p.rel = e := by
  have hpe : p ∈ parts [e] := List.mem_flatMap.2 ⟨e, by simp, hp⟩
  simpa using (mem_parts.1 hpe).1

/-- Files with one path are one file. -/
theorem NamesOk.file_inj (hn : NamesOk s) {f g : DbFile} (hf : f ∈ dbFiles s.entries)
    (hg : g ∈ dbFiles s.entries) (h : f.path = g.path) : f = g :=
  List.inj_on_of_nodup_map hn.apart hf hg h

theorem file_mem {r : RelState} (hr : r ∈ s.rels) {p : Part} (hp : p ∈ r.entry.parts) {f : DbFile}
    (hf : f ∈ p.files) : f ∈ dbFiles s.entries :=
  mem_dbFiles.2 (.inr ⟨p, mem_parts_of_mem hr hp, hf⟩)

theorem mem_closeWrites {w : DbFile × Dafsa} :
    w ∈ closeWrites s.rels ↔ ∃ r ∈ s.rels, ∃ p ∈ r.entry.parts, w ∈ partWrites r p := by
  simp [closeWrites]

theorem files_of_partWrites {r : RelState} {p : Part} {w : DbFile × Dafsa}
    (h : w ∈ partWrites r p) : w.1 ∈ p.files := by
  unfold partWrites at h
  split at h
  · split at h
    · rcases List.mem_pair.1 h with rfl | rfl <;> simp [Part.files]
    · rw [List.mem_singleton.1 h]
      simp [Part.files]
  · cases h

/-- The part a file belongs to. -/
def DbFile.part? : DbFile → Option Part
  | .dafsa p => some p
  | .base p => some p
  | .wal p => some p
  | _ => none

theorem part?_of_mem_files {p : Part} {f : DbFile} (h : f ∈ p.files) : f.part? = some p := by
  simp only [Part.files, List.mem_cons, List.not_mem_nil, or_false] at h
  rcases h with rfl | rfl | rfl <;> rfl

/-- **A write to the path of a part's file is that part's own.** -/
theorem NamesOk.write_of_path (hn : NamesOk s) (ha : Accepted s.entries) {r : RelState}
    (hr : r ∈ s.rels) {p : Part} (hp : p ∈ r.entry.parts) {f : DbFile} (hf : f ∈ p.files)
    {w : DbFile × Dafsa} (hw : w ∈ closeWrites s.rels) (h : w.1.path = f.path) :
    w.1 = f ∧ w ∈ partWrites r p := by
  obtain ⟨r', hr', p', hp', hw'⟩ := mem_closeWrites.1 hw
  have hfile := files_of_partWrites hw'
  have heq : w.1 = f := hn.file_inj (file_mem hr' hp' hfile) (file_mem hr hp hf) h
  have hpart : p' = p := by
    have h₁ := part?_of_mem_files hfile
    rw [heq, part?_of_mem_files hf] at h₁
    exact (Option.some.inj h₁).symm
  subst hpart
  have hname : r'.entry = r.entry := (rel_of_mem_parts hp').symm.trans (rel_of_mem_parts hp)
  have hrr : r' = r := by
    have hnames : (s.rels.map RelState.name).Nodup := by
      have := ha.names
      rwa [State.entries, List.map_map] at this
    exact List.inj_on_of_nodup_map hnames hr' hr (congrArg RelEntry.name hname)
  exact ⟨heq, hrr ▸ hw'⟩

/-! ## The files of one part -/

/-- Opening reads two files. -/
theorem openPart_congr {disk disk' : Disk} {p : Part}
    (hd : disk' (DbFile.dafsa p).path = disk (DbFile.dafsa p).path)
    (hb : disk' (DbFile.base p).path = disk (DbFile.base p).path) (idb : Bool) :
    openPart disk' idb p = openPart disk idb p := by
  rw [openPart, openPart, hd, hb]

/-- The mark is for fixed relations only. -/
theorem openPart_variadic {p : Part} (hvar : p.rel.Variadic) (disk : Disk) (idb idb' : Bool) :
    openPart disk idb p = openPart disk idb' p := by
  rw [openPart, openPart, if_pos hvar, if_pos hvar]

theorem isIdb_openPart_fixed {p : Part} (hfix : ¬ p.rel.Variadic) (disk : Disk) (idb : Bool) :
    (openPart disk idb p).isIdb = idb := by
  unfold openPart
  dsimp only
  rw [if_neg hfix]
  cases idb <;> rfl

theorem isIdb_openPart_variadic {p : Part} (hvar : p.rel.Variadic) (disk : Disk) (idb : Bool) :
    (openPart disk idb p).isIdb = (disk (DbFile.base p).path).isSome := by
  unfold openPart
  dsimp only
  rw [if_pos hvar]
  cases (disk (DbFile.base p).path).isSome <;> rfl

theorem view_openPart (disk : Disk) (idb : Bool) (p : Part) :
    (openPart disk idb p).view = (disk (DbFile.dafsa p).path).getD .create := by
  unfold openPart
  dsimp only
  generalize (if p.rel.Variadic then (disk (DbFile.base p).path).isSome else idb) = c
  cases c <;> rfl

theorem openPart_aliased {disk : Disk} {p : Part}
    (h : p.rel.Variadic → disk (DbFile.base p).path = none) :
    openPart disk false p = .aliased ((disk (DbFile.dafsa p).path).getD .create) := by
  unfold openPart
  dsimp only
  by_cases hvar : p.rel.Variadic
  · rw [if_pos hvar, h hvar]
    rfl
  · rw [if_neg hvar]
    rfl

theorem openPart_split {disk : Disk} {p : Part} {b : Dafsa}
    (h : disk (DbFile.base p).path = some b) :
    openPart disk true p = .split b ((disk (DbFile.dafsa p).path).getD .create) := by
  unfold openPart
  dsimp only
  rw [h, Option.isSome_some, ite_self]
  rfl

/-- What was opened says how it was opened. -/
theorem openPart_isIdb (disk : Disk) (idb : Bool) (p : Part) :
    openPart disk (openPart disk idb p).isIdb p = openPart disk idb p := by
  by_cases hvar : p.rel.Variadic
  · exact openPart_variadic hvar disk _ _
  · rw [isIdb_openPart_fixed hvar]

/-! ## The invariant -/

/-- A relation and its files. -/
structure RelOk (disk : Disk) (r : RelState) : Prop where
  /-- One kind for each column. -/
  kinds : r.kinds.length = r.arity
  /-- What has not changed is what the files give. -/
  sync : ∀ p ∈ r.entry.parts, r.dirty p.variant = false →
    openPart disk (r.store p.variant).isIdb p = r.store p.variant
  /-- A variant with a base file is split. -/
  base : r.arity = 0 → ∀ p ∈ r.entry.parts, (r.store p.variant).isIdb = false →
    disk (DbFile.base p).path = none

/-- The line has the relation, and a relation whose line says so is split. -/
structure Lists (r : RelState) (m : MetaLine) : Prop where
  /-- The name. -/
  name : m.name = r.name
  /-- The arity. -/
  arity : m.arity = r.arity
  /-- The kinds. -/
  kinds : m.kinds = r.kinds
  /-- The mark. -/
  idb : r.arity ≠ 0 → m.idb = true → (r.store 0).isIdb = true

/-- **The invariant of a run.** -/
structure Inv (s : State) : Prop where
  /-- The list can be built up again. -/
  buildable : Buildable s.entries
  /-- Its entries passed the tests. -/
  accepted : Accepted s.entries
  /-- Every relation goes with its files. -/
  rels : ∀ r ∈ s.rels, RelOk s.disk r
  /-- The list in the directory, unless it is to be written. -/
  list : s.metaDirty = false → List.Forall₂ Lists s.rels (readRelsTxt s.relsTxt)

theorem Inv.fresh : Inv .fresh where
  buildable pre e post h := by simp [State.fresh, State.entries] at h
  accepted := accepted_nil
  rels r hr := by cases hr
  list _ := List.Forall₂.nil

theorem NamesOk.fresh : NamesOk .fresh where
  good r hr := by cases hr
  apart := by decide

section Step

variable {s : State}

/-- The part of a fixed relation. -/
theorem part_fixed {e : RelEntry} (h : e.arity ≠ 0) : e.parts = [⟨e, 0⟩] := if_neg h

/-- A change of one relation that keeps its entry. -/
theorem Inv.modify (h : Inv s) (i : ℕ) (dirty : Bool) {f : RelState → RelState}
    (hf : ∀ r, (f r).entry = r.entry) (hrel : ∀ r, RelOk s.disk r → RelOk s.disk (f r))
    (hlist : dirty = false → s.metaDirty = false ∧ ∀ r m, Lists r m → Lists (f r) m) :
    Inv { s with rels := s.rels.modify i f, metaDirty := dirty } := by
  have hentries : (s.rels.modify i f).map RelState.entry = s.rels.map RelState.entry := by
    refine List.ext_getElem (by simp) fun j hj hj' => ?_
    rw [List.getElem_map, List.getElem_map, List.getElem_modify]
    split
    · exact hf _
    · rfl
  constructor
  · rw [State.entries, hentries]
    exact h.buildable
  · rw [State.entries, hentries]
    exact h.accepted
  · intro r hr
    obtain ⟨j, hj, rfl⟩ := List.mem_iff_getElem.1 hr
    dsimp only at hj ⊢
    rw [List.getElem_modify]
    split
    · exact hrel _ (h.rels _ (List.getElem_mem _))
    · exact h.rels _ (List.getElem_mem _)
  · intro hdirty
    obtain ⟨hmeta, hline⟩ := hlist hdirty
    have hold := h.list hmeta
    refine List.forall₂_iff_get.2 ⟨by simpa using hold.length_eq, fun j hj hj' => ?_⟩
    have hone := (List.forall₂_iff_get.1 hold).2 j (by simpa using hj) hj'
    dsimp only [List.get_eq_getElem] at hone ⊢
    rw [List.getElem_modify]
    split
    · exact hline _ _ hone
    · exact hone

@[simp] theorem entry_change (r : RelState) (a : ℕ) (f : Store → Store) :
    (r.change a f).entry = r.entry := by
  unfold RelState.change
  split <;> rfl

/-- A changed part is no longer what the files give, and stays split. -/
theorem RelOk.change {disk : Disk} {r : RelState} (h : RelOk disk r) (a : ℕ) {f : Store → Store}
    (hf : ∀ st : Store, st.isIdb = true → (f st).isIdb = true) : RelOk disk (r.change a f) := by
  unfold RelState.change
  split
  · refine ⟨h.kinds, ?_, ?_⟩
    · intro p hp hdirty
      by_cases hpa : p.variant = a
      · dsimp only at hdirty
        rw [hpa, Function.update_self] at hdirty
        cases hdirty
      · dsimp only at hdirty ⊢
        rw [Function.update_of_ne hpa] at hdirty ⊢
        exact h.sync p hp hdirty
    · intro hvar p hp hidb
      refine h.base hvar p hp ?_
      by_cases hpa : p.variant = a
      · dsimp only at hidb
        rw [hpa, Function.update_self] at hidb
        cases hst : (r.store a).isIdb with
        | true => rw [hf _ hst] at hidb; cases hidb
        | false => rw [hpa, hst]
      · dsimp only at hidb
        rwa [Function.update_of_ne hpa] at hidb
  · exact h

theorem Lists.change {r : RelState} {m : MetaLine} (h : Lists r m) (a : ℕ) {f : Store → Store}
    (hf : ∀ st : Store, st.isIdb = true → (f st).isIdb = true) : Lists (r.change a f) m := by
  unfold RelState.change
  split
  · refine ⟨h.name, h.arity, h.kinds, fun hfix hm => ?_⟩
    have hold := h.idb hfix hm
    dsimp only
    by_cases ha : 0 = a
    · subst ha
      rw [Function.update_self]
      exact hf _ hold
    · rwa [Function.update_of_ne ha]
  · exact h

theorem isIdb_writeStore (base view : Dafsa) (st : Store) (h : st.isIdb = true) :
    (writeStore base view st).isIdb = true := by
  cases st with
  | aliased d => cases h
  | split b d => rfl

/-- **A declaration appends a relation as its files give it.** -/
theorem Inv.declareKind (h : Inv s) (e : RelEntry) : Inv (declareKind s e false false) := by
  unfold Catalog.declareKind
  cases hdecl : dlDeclareRelationKind s.entries e.name e.arity true with
  | none => exact h
  | some es =>
    dsimp only
    have hlen : s.entries.length = s.rels.length := List.length_map _
    obtain ⟨rfl, -⟩ | ⟨rfl, -⟩ := dlDeclareRelationKind_cases hdecl
    · rw [if_pos hlen]
      exact h
    · rw [if_neg (by simp [hlen]), if_neg Bool.false_ne_true]
      have hentries : (s.rels ++ [newRel s.disk e false]).map RelState.entry =
          s.entries ++ [⟨e.name, e.arity⟩] := by
        simp [State.entries, RelState.entry, newRel]
      constructor
      · rw [State.entries, hentries]
        exact h.buildable.append hdecl
      · rw [State.entries, hentries]
        have hacc := h.accepted.declare ⟨e.name, e.arity, true⟩
        rwa [declare, hdecl, Option.getD_some] at hacc
      · intro r hr
        rcases List.mem_append.1 hr with hr | hr
        · exact h.rels r hr
        · rw [List.mem_singleton.1 hr]
          refine ⟨List.length_replicate, fun p hp _ => ?_, fun hvar p hp hidb => ?_⟩
          · have hpe : (⟨e, p.variant⟩ : Part) = p := by
              rw [← show p.rel = e from rel_of_mem_parts hp]
            dsimp only [newRel]
            rw [hpe]
            exact openPart_isIdb _ _ _
          · have hpe : (⟨e, p.variant⟩ : Part) = p := by
              rw [← show p.rel = e from rel_of_mem_parts hp]
            have hpv : p.rel.Variadic := by
              rw [show p.rel = e from rel_of_mem_parts hp]
              exact hvar
            dsimp only [newRel] at hidb
            rw [hpe, isIdb_openPart_variadic hpv] at hidb
            exact Option.isSome_eq_false_iff.1 hidb |> Option.isNone_iff_eq_none.1
      · intro hfalse
        cases hfalse

/-! ## Saving -/

theorem system_path_ne (hn : NamesOk s) {f : DbFile} (hf : f ∈ systemFiles) {r : RelState}
    (hr : r ∈ s.rels) {p : Part} (hp : p ∈ r.entry.parts) {g : DbFile} (hg : g ∈ p.files) :
    f.path ≠ g.path := by
  intro h
  have hmem : f ∈ dbFiles s.entries := mem_dbFiles.2 (.inl hf)
  have heq := hn.file_inj hmem (file_mem hr hp hg) h
  subst heq
  have hpart := part?_of_mem_files hg
  have hnone : ∀ f ∈ systemFiles, f.part? = none := by decide
  rw [hnone f hf] at hpart
  cases hpart

theorem dafsa_mem_files (p : Part) : DbFile.dafsa p ∈ p.files := by simp [Part.files]

theorem base_mem_files (p : Part) : DbFile.base p ∈ p.files := by simp [Part.files]

/-- Other files leave a relation as it was. -/
theorem RelOk.of_disk {disk disk' : Disk} {r : RelState} (h : RelOk disk r)
    (hdisk : ∀ p ∈ r.entry.parts, ∀ f ∈ p.files, disk' f.path = disk f.path) :
    RelOk disk' r where
  kinds := h.kinds
  sync p hp hdirty := by
    rw [openPart_congr (hdisk p hp _ (dafsa_mem_files p)) (hdisk p hp _ (base_mem_files p))]
    exact h.sync p hp hdirty
  base hvar p hp hidb := by
    rw [hdisk p hp _ (base_mem_files p)]
    exact h.base hvar p hp hidb

theorem part_eta {r : RelState} {p : Part} (hp : p ∈ r.entry.parts) :
    (⟨r.entry, p.variant⟩ : Part) = p := by
  rw [← rel_of_mem_parts hp]

/-- The file that is saved, and its tuples. -/
theorem openPart_base {disk : Disk} {r : RelState} (h : RelOk disk r) {p : Part}
    (hp : p ∈ r.entry.parts) :
    let disk' := writeFiles [(saveFile r p.variant, (r.store p.variant).base)] disk
    (r.dirty p.variant = false →
      openPart disk' (r.store p.variant).isIdb p = r.store p.variant) ∧
    (r.arity = 0 → (r.store p.variant).isIdb = false → disk' (DbFile.base p).path = none) := by
  intro disk'
  have hne : (DbFile.base p).path ≠ (DbFile.dafsa p).path := by
    intro heq
    have hlen := congrArg List.length heq
    simp [DbFile.path, dafsaExt, baseExt] at hlen
  have hpe := part_eta hp
  cases hst : r.store p.variant with
  | aliased d =>
    have hdisk' : disk' = Function.update disk (DbFile.dafsa p).path (some d) := by
      simp [disk', writeFiles, saveFile, hst, hpe, Store.isIdb, Store.base]
    have hb : disk' (DbFile.base p).path = disk (DbFile.base p).path := by
      rw [hdisk', Function.update_of_ne hne]
    have hnone : r.arity = 0 → disk (DbFile.base p).path = none := fun hvar =>
      h.base hvar p hp (by rw [hst]; rfl)
    refine ⟨fun _ => ?_, fun hvar _ => by rw [hb, hnone hvar]⟩
    have hd : disk' (DbFile.dafsa p).path = some d := by
      rw [hdisk', Function.update_self]
    have hvar : p.rel.Variadic → disk' (DbFile.base p).path = none := by
      intro hvar
      rw [rel_of_mem_parts hp] at hvar
      rw [hb, hnone hvar]
    rw [Store.isIdb, openPart_aliased hvar, hd, Option.getD_some]
  | split b d =>
    have hdisk' : disk' = Function.update disk (DbFile.base p).path (some b) := by
      simp [disk', writeFiles, saveFile, hst, hpe, Store.isIdb, Store.base]
    refine ⟨fun hdirty => ?_, fun _ hidb => by cases hidb⟩
    have hview := congrArg Store.view (h.sync p hp hdirty)
    rw [view_openPart, hst, Store.view] at hview
    have hd : disk' (DbFile.dafsa p).path = disk (DbFile.dafsa p).path := by
      rw [hdisk', Function.update_of_ne (Ne.symm hne)]
    have hb : disk' (DbFile.base p).path = some b := by
      rw [hdisk', Function.update_self]
    rw [Store.isIdb, openPart_split hb, hd, hview]

/-- **Saving the base between open and close keeps the invariant.** -/
theorem Inv.save (h : Inv s) (hn : NamesOk s) {r : RelState} (hr : r ∈ s.rels) {a : ℕ}
    (ha : ⟨r.entry, a⟩ ∈ r.entry.parts) :
    Inv { s with disk := writeFiles [(saveFile r a, (r.store a).base)] s.disk } := by
  have hfile : saveFile r a ∈ (⟨r.entry, a⟩ : Part).files := by
    unfold saveFile
    split
    · exact base_mem_files _
    · exact dafsa_mem_files _
  have hother : ∀ r' ∈ s.rels, ∀ p ∈ r'.entry.parts, p ≠ ⟨r.entry, a⟩ → ∀ f ∈ p.files,
      writeFiles [(saveFile r a, (r.store a).base)] s.disk f.path = s.disk f.path := by
    intro r' hr' p hp hne f hf
    refine writeFiles_of_ne _ fun w hw heq => hne ?_
    rw [List.mem_singleton.1 hw] at heq
    have hfeq := hn.file_inj (file_mem hr ha hfile) (file_mem hr' hp hf) heq
    have hpart := part?_of_mem_files hf
    rw [← hfeq, part?_of_mem_files hfile] at hpart
    exact (Option.some.inj hpart).symm
  refine ⟨h.buildable, h.accepted, fun r' hr' => ?_, h.list⟩
  have hold := h.rels r' hr'
  by_cases hrr : r' = r
  · subst hrr
    refine ⟨hold.kinds, fun p hp hdirty => ?_, fun hvar p hp hidb => ?_⟩
    · by_cases hpa : p = ⟨r'.entry, a⟩
      · subst hpa
        exact (openPart_base hold hp).1 hdirty
      · have hframe := hother r' hr' p hp hpa
        dsimp only
        rw [openPart_congr (hframe _ (dafsa_mem_files p)) (hframe _ (base_mem_files p))]
        exact hold.sync p hp hdirty
    · by_cases hpa : p = ⟨r'.entry, a⟩
      · subst hpa
        exact (openPart_base hold hp).2 hvar hidb
      · dsimp only
        rw [hother r' hr' p hp hpa _ (base_mem_files p)]
        exact hold.base hvar p hp hidb
  · refine hold.of_disk fun p hp => hother r' hr' p hp ?_
    -- Another relation has another name.
    rintro rfl
    have hnames : (s.rels.map RelState.name).Nodup := by
      have := h.accepted.names
      rwa [State.entries, List.map_map] at this
    exact hrr (List.inj_on_of_nodup_map hnames hr' hr
      (congrArg RelEntry.name (rel_of_mem_parts hp)).symm)

theorem Inv.saveSystem (h : Inv s) (hn : NamesOk s) {f : DbFile} (hf : f ∈ systemFiles)
    (d : Dafsa) : Inv { s with disk := writeFiles [(f, d)] s.disk } := by
  refine ⟨h.buildable, h.accepted, fun r hr => (h.rels r hr).of_disk fun p hp g hg => ?_, h.list⟩
  refine writeFiles_of_ne _ fun w hw => ?_
  rw [List.mem_singleton.1 hw]
  exact system_path_ne hn hf hr hp hg

/-! ## Closing and opening again -/

/-- **After closing, the files of a part give its tuples.** -/
theorem openPart_closed (h : Inv s) (hn : NamesOk s) {r : RelState} (hr : r ∈ s.rels) {p : Part}
    (hp : p ∈ r.entry.parts) :
    openPart (dlClose s).1 (r.store p.variant).isIdb p = r.store p.variant := by
  have hwrite := fun f (hf : f ∈ p.files) (w : DbFile × Dafsa) (hw : w ∈ closeWrites s.rels)
    (heq : w.1.path = f.path) => hn.write_of_path h.accepted hr hp hf hw heq
  have hmem : ∀ w ∈ partWrites r p, w ∈ closeWrites s.rels := fun w hw =>
    mem_closeWrites.2 ⟨r, hr, p, hp, hw⟩
  cases hdirty : r.dirty p.variant with
  | false =>
    have hnone : partWrites r p = [] := by
      rw [partWrites, hdirty]
      rfl
    have hframe : ∀ f ∈ p.files, (dlClose s).1 f.path = s.disk f.path := by
      intro f hf
      refine writeFiles_of_ne _ fun w hw heq => ?_
      have := (hwrite f hf w hw heq).2
      rw [hnone] at this
      cases this
    rw [openPart_congr (hframe _ (dafsa_mem_files p)) (hframe _ (base_mem_files p))]
    exact (h.rels r hr).sync p hp hdirty
  | true =>
    cases hst : r.store p.variant with
    | aliased d =>
      have hws : partWrites r p = [(.dafsa p, d)] := by
        simp [partWrites, hdirty, hst, Store.isIdb, Store.base]
      have hd : (dlClose s).1 (DbFile.dafsa p).path = some d := by
        refine writeFiles_of_mem ⟨_, hmem (.dafsa p, d) (by rw [hws]; simp), rfl⟩ ?_
        intro w hw heq
        have := (hwrite _ (dafsa_mem_files p) w hw heq).2
        rw [hws, List.mem_singleton] at this
        rw [this]
      have hb : (dlClose s).1 (DbFile.base p).path = s.disk (DbFile.base p).path := by
        refine writeFiles_of_ne _ fun w hw heq => ?_
        obtain ⟨hfile, hone⟩ := hwrite _ (base_mem_files p) w hw heq
        rw [hws, List.mem_singleton] at hone
        rw [hone] at hfile
        cases hfile
      have hvar : p.rel.Variadic → (dlClose s).1 (DbFile.base p).path = none := by
        intro hvar
        rw [rel_of_mem_parts hp] at hvar
        rw [hb, (h.rels r hr).base hvar p hp (by rw [hst]; rfl)]
      rw [Store.isIdb, openPart_aliased hvar, hd, Option.getD_some]
    | split b d =>
      have hws : partWrites r p = [(.base p, b), (.dafsa p, d)] := by
        simp [partWrites, hdirty, hst, Store.isIdb, Store.base, Store.view]
      have hd : (dlClose s).1 (DbFile.dafsa p).path = some d := by
        refine writeFiles_of_mem ⟨_, hmem (.dafsa p, d) (by rw [hws]; simp), rfl⟩ ?_
        intro w hw heq
        obtain ⟨hfile, hone⟩ := hwrite _ (dafsa_mem_files p) w hw heq
        rw [hws, List.mem_pair] at hone
        rcases hone with rfl | rfl
        · cases hfile
        · rfl
      have hb : (dlClose s).1 (DbFile.base p).path = some b := by
        refine writeFiles_of_mem ⟨_, hmem (.base p, b) (by rw [hws]; simp), rfl⟩ ?_
        intro w hw heq
        obtain ⟨hfile, hone⟩ := hwrite _ (base_mem_files p) w hw heq
        rw [hws, List.mem_pair] at hone
        rcases hone with rfl | rfl
        · rfl
        · cases hfile
      rw [Store.isIdb, openPart_split hb, hd, Option.getD_some]

/-- The line has the relation as it is. -/
structure Says (r : RelState) (m : MetaLine) : Prop extends Lists r m where
  /-- The mark, the other way. -/
  split : r.arity ≠ 0 → (r.store 0).isIdb = true → m.idb = true

theorem anyIdb_fixed {r : RelState} (h : r.arity ≠ 0) : r.anyIdb = (r.store 0).isIdb := by
  rw [RelState.anyIdb, part_fixed h]
  simp

theorem says_line (r : RelState) : Says r r.line where
  name := rfl
  arity := rfl
  kinds := rfl
  idb hfix h := by
    rw [← anyIdb_fixed hfix]
    exact h
  split hfix h := by
    rw [← anyIdb_fixed hfix] at h
    exact h

theorem goodLine_line (h : Inv s) (hn : NamesOk s) {r : RelState} (hr : r ∈ s.rels) :
    GoodLine r.line where
  name := hn.good r hr
  arity_le := h.accepted.arity_le r.entry (List.mem_map_of_mem hr)
  kinds := (h.rels r hr).kinds

/-- **The list that is read back** has the relations as they are. -/
theorem says_closed (h : Inv s) (hn : NamesOk s) (hc : CloseOk s) :
    List.Forall₂ Says s.rels (readRelsTxt (dlClose s).2) := by
  rw [dlClose]
  cases hmeta : s.metaDirty with
  | true =>
    have hlen : (s.rels.map RelState.line).length ≤ maxRels := by
      have := h.accepted.length_le
      simpa [State.entries] using this
    have hgood : ∀ m ∈ s.rels.map RelState.line, GoodLine m := by
      intro m hm
      obtain ⟨r, hr, rfl⟩ := List.mem_map.1 hm
      exact goodLine_line h hn hr
    rw [if_pos rfl, State.text, readRelsTxt_writeRelsTxt hgood hlen, List.forall₂_map_right_iff]
    exact List.forall₂_same.2 fun r _ => says_line r
  | false =>
    rw [if_neg Bool.false_ne_true]
    have hlist := h.list hmeta
    have hmarks := hc.resolve_left (by simp [hmeta])
    refine List.forall₂_iff_get.2 ⟨hlist.length_eq, fun j hj hj' => ?_⟩
    have hone := (List.forall₂_iff_get.1 hlist).2 j hj hj'
    refine ⟨hone, fun hfix hidb => ?_⟩
    obtain ⟨m, hm, hname, hmidb⟩ := hmarks _ (List.get_mem _ _) hfix hidb
    -- Only one line has the name.
    have hnames : (readRelsTxt s.relsTxt).map MetaLine.name = s.rels.map RelState.name := by
      refine List.ext_get (by simpa using hlist.length_eq.symm) fun k hk hk' => ?_
      have := ((List.forall₂_iff_get.1 hlist).2 k (by simpa using hk') (by simpa using hk)).name
      simpa using this
    have hnodup : ((readRelsTxt s.relsTxt).map MetaLine.name).Nodup := by
      rw [hnames]
      have := h.accepted.names
      rwa [State.entries, List.map_map] at this
    have hsame := List.inj_on_of_nodup_map hnodup hm (List.get_mem _ ⟨j, hj'⟩)
      (hname.trans hone.name.symm)
    rw [← hsame]
    exact hmidb

/-- What is read back is opened. -/
theorem reopen_eq (h : Inv s) (hn : NamesOk s) (hc : CloseOk s) :
    reopen s = ⟨(readRelsTxt (dlClose s).2).map (openRel (dlClose s).1), false, (dlClose s).1,
      (dlClose s).2⟩ ∧
    (readRelsTxt (dlClose s).2).map (fun m => (⟨m.name, m.arity⟩ : RelEntry)) = s.entries := by
  have hsaid := says_closed h hn hc
  have hentries : (readRelsTxt (dlClose s).2).map (fun m => (⟨m.name, m.arity⟩ : RelEntry)) =
      s.entries := by
    refine List.ext_get (by simpa [State.entries] using hsaid.length_eq.symm) fun k hk hk' => ?_
    have := (List.forall₂_iff_get.1 hsaid).2 k (by simpa [State.entries] using hk')
      (by simpa using hk)
    simpa [State.entries, RelState.entry] using ⟨this.name, this.arity⟩
  refine ⟨dlOpen_eq rfl (fun m hm => ?_) (hentries ▸ h.buildable), hentries⟩
  obtain ⟨j, hj, rfl⟩ := List.mem_iff_get.1 hm
  have hj' : (j : ℕ) < s.rels.length := by
    rw [hsaid.length_eq]
    exact j.2
  have hone := (List.forall₂_iff_get.1 hsaid).2 j hj' j.2
  rw [hone.kinds, hone.arity]
  exact (h.rels _ (List.get_mem _ _)).kinds

/-- **One line brings its relation back.** -/
theorem store_openRel (h : Inv s) (hn : NamesOk s) {r : RelState} (hr : r ∈ s.rels) {m : MetaLine}
    (hsaid : Says r m) {p : Part} (hp : p ∈ r.entry.parts) :
    (openRel (dlClose s).1 m).store p.variant = r.store p.variant := by
  have hpe : (⟨⟨m.name, m.arity⟩, p.variant⟩ : Part) = p := by
    rw [hsaid.name, hsaid.arity]
    exact part_eta hp
  have hclosed := openPart_closed h hn hr hp
  dsimp only [openRel]
  rw [hpe, ← hclosed]
  by_cases hvar : p.rel.Variadic
  · exact openPart_variadic hvar _ _ _
  · have hfix : r.arity ≠ 0 := by
      rw [rel_of_mem_parts hp] at hvar
      exact hvar
    have hzero : p.variant = 0 := by
      rw [part_fixed hfix, List.mem_singleton] at hp
      rw [hp]
    have hidb : m.idb = (r.store p.variant).isIdb := by
      rw [hzero, Bool.eq_iff_iff]
      exact ⟨hsaid.idb hfix, hsaid.split hfix⟩
    rw [hidb]

/-- **Closing and opening again keeps the invariant.** -/
theorem Inv.reopen (h : Inv s) (hn : NamesOk s) (hc : CloseOk s) : Inv (reopen s) := by
  obtain ⟨heq, hentries⟩ := reopen_eq h hn hc
  have hlist : (Catalog.reopen s).entries = s.entries := by
    rw [heq, ← hentries]
    simp [State.entries, RelState.entry, openRel, Function.comp_def]
  have hsaid := says_closed h hn hc
  constructor
  · rw [hlist]
    exact h.buildable
  · rw [hlist]
    exact h.accepted
  · rw [heq]
    intro r' hr'
    obtain ⟨m, hm, rfl⟩ := List.mem_map.1 hr'
    obtain ⟨j, rfl⟩ := List.mem_iff_get.1 hm
    have hj' : (j : ℕ) < s.rels.length := by
      rw [hsaid.length_eq]
      exact j.2
    have hone := (List.forall₂_iff_get.1 hsaid).2 j hj' j.2
    refine ⟨?_, fun p hp _ => ?_, fun hvar p hp hidb => ?_⟩
    · dsimp only [openRel]
      rw [hone.kinds, hone.arity]
      exact (h.rels _ (List.get_mem _ _)).kinds
    · have hpe := part_eta hp
      dsimp only [openRel, RelState.entry] at hpe ⊢
      rw [hpe]
      exact openPart_isIdb _ _ _
    · have hpe := part_eta hp
      have hpv : p.rel.Variadic := by
        rw [rel_of_mem_parts hp]
        exact hvar
      dsimp only [openRel, RelState.entry] at hpe hidb ⊢
      rw [hpe, isIdb_openPart_variadic hpv] at hidb
      exact Option.isNone_iff_eq_none.1 (Option.isSome_eq_false_iff.1 hidb)
  · rw [heq]
    intro _
    rw [List.forall₂_map_left_iff]
    refine List.forall₂_same.2 fun m _ => ⟨rfl, rfl, rfl, fun hfix hidb => ?_⟩
    dsimp only [openRel]
    rw [isIdb_openPart_fixed hfix]
    exact hidb

/-! ## Runs -/

theorem isIdb_split (view : Dafsa) (st : Store) (_ : st.isIdb = true) :
    (Store.split st.base view).isIdb = true := rfl

/-- **Every step keeps the invariant.** -/
theorem Inv.step (h : Inv s) (hn : NamesOk s) {op : Op} (hop : op = .reopen → CloseOk s) :
    Inv (step s op) := by
  cases op with
  | declare e => exact h.declareKind e
  | note i col k =>
    unfold Catalog.step
    dsimp only
    cases hr : s.rels[i]? with
    | none => exact h
    | some r =>
      dsimp only
      split
      · refine h.modify i true (fun _ => rfl) (fun r hrel => ⟨?_, hrel.sync, hrel.base⟩) (by simp)
        dsimp only [noteKinds]
        split
        · rw [List.length_set]
          exact hrel.kinds
        · exact hrel.kinds
      · exact h
  | write i a base view =>
    exact h.modify i s.metaDirty (fun r => entry_change r a _)
      (fun r hrel => hrel.change a (isIdb_writeStore base view))
      fun hmeta => ⟨hmeta, fun r m hline => hline.change a (isIdb_writeStore base view)⟩
  | eval i a view =>
    exact h.modify i s.metaDirty (fun r => entry_change r a _)
      (fun r hrel => hrel.change a (isIdb_split view))
      fun hmeta => ⟨hmeta, fun r m hline => hline.change a (isIdb_split view)⟩
  | save i a =>
    unfold Catalog.step
    dsimp only
    cases hr : s.rels[i]? with
    | none => exact h
    | some r =>
      dsimp only
      split
      · next ha => exact h.save hn (List.mem_of_getElem? hr) ha
      · exact h
  | saveSystem f d =>
    unfold Catalog.step
    dsimp only
    split
    · next hf => exact h.saveSystem hn hf d
    · exact h
  | reopen => exact h.reopen hn (hop rfl)

/-- **A run whose steps are right keeps the invariant.** -/
theorem Inv.run {s : State} (h : Inv s) (hn : NamesOk s) {ops : List Op} (hops : RunOk s ops) :
    Inv (run s ops) ∧ NamesOk (Catalog.run s ops) := by
  induction ops generalizing s with
  | nil => exact ⟨h, hn⟩
  | cons op ops ih =>
    obtain ⟨⟨hnext, hclose⟩, hrest⟩ := hops
    exact ih (h.step hn hclose) hnext hrest

theorem restored_of_inv (h : Inv s) (hn : NamesOk s) (hc : CloseOk s) : Restored s (reopen s) := by
  obtain ⟨heq, -⟩ := reopen_eq h hn hc
  have hsaid := says_closed h hn hc
  rw [heq]
  constructor
  · refine List.ext_get (by simpa using hsaid.length_eq.symm) fun k hk hk' => ?_
    have := (List.forall₂_iff_get.1 hsaid).2 k (by simpa using hk') (by simpa using hk)
    simpa [openRel] using ⟨this.name, this.arity, this.kinds⟩
  · intro i r r' hr hr' p hp
    obtain ⟨hi, rfl⟩ := List.getElem?_eq_some_iff.1 hr
    obtain ⟨hi', rfl⟩ := List.getElem?_eq_some_iff.1 hr'
    have hone := (List.forall₂_iff_get.1 hsaid).2 i hi (by simpa using hi')
    dsimp only
    rw [List.getElem_map]
    exact store_openRel h hn (List.getElem_mem _) hone hp

end Step

end Files

/-- **Reopening restores the relations** after every run whose names fit the list and
the files, and whose closes find the list as it is or have it written. -/
theorem reopen_restored (ops : List Op) (hrun : RunOk .fresh ops)
    (hclose : CloseOk (run .fresh ops)) :
    Restored (run .fresh ops) (reopen (run .fresh ops)) := by
  obtain ⟨h, hn⟩ := Inv.fresh.run NamesOk.fresh hrun
  exact restored_of_inv h hn hclose

/-- A relation is declared, written and derived, and another declared later. -/
def sampleOps : List Op :=
  [.declare ⟨['q'], 1⟩, .note 0 0 .int, .write 0 0 (.ofRows [[1]]) .create,
    .eval 0 0 (.ofRows [[1], [2]]), .reopen, .declare ⟨['v'], 0⟩, .eval 1 2 (.ofRows [[3, 4]])]

theorem reopen_restored_sample : RunOk .fresh sampleOps ∧ CloseOk (run .fresh sampleOps) ∧
    Restored (run .fresh sampleOps) (reopen (run .fresh sampleOps)) :=
  ⟨by decide +kernel, by decide +kernel,
    reopen_restored sampleOps (by decide +kernel) (by decide +kernel)⟩

/-- `q(1)` and `p(9)` are added, the database is opened again, and the rule
`p(X) :- q(X)` is evaluated: nothing is declared and no kind is new, so the list keeps
its mark. -/
def unmarkedOps : List Op :=
  [.declare ⟨['q'], 1⟩, .declare ⟨['p'], 1⟩, .note 0 0 .int, .write 0 0 (.ofRows [[1]]) .create,
    .note 1 0 .int, .write 1 0 (.ofRows [[9]]) .create, .reopen, .eval 1 0 (.ofRows [[1], [9]])]

/-- The derived tuple comes back as a base fact. -/
theorem not_reopen_restored :
    (∃ r, (run .fresh unmarkedOps).rels[1]? = some r ∧
      r.store 0 = .split (.ofRows [[9]]) (.ofRows [[1], [9]])) ∧
    (∃ r, (reopen (run .fresh unmarkedOps)).rels[1]? = some r ∧
      r.store 0 = .aliased (.ofRows [[1], [9]])) ∧
    ¬ Restored (run .fresh unmarkedOps) (reopen (run .fresh unmarkedOps)) := by
  have hbefore : (run .fresh unmarkedOps).rels[1]?.map (fun r => (r.entry, r.store 0)) =
      some (⟨['p'], 1⟩, .split (.ofRows [[9]]) (.ofRows [[1], [9]])) := by decide +kernel
  have hafter : (reopen (run .fresh unmarkedOps)).rels[1]?.map (fun r => r.store 0) =
      some (.aliased (.ofRows [[1], [9]])) := by decide +kernel
  obtain ⟨r, hr, hrs⟩ := Option.map_eq_some_iff.1 hbefore
  obtain ⟨r', hr', hrs'⟩ := Option.map_eq_some_iff.1 hafter
  obtain ⟨hentry, hstore⟩ := Prod.mk.inj hrs
  refine ⟨⟨r, hr, hstore⟩, ⟨r', hr', hrs'⟩, fun h => ?_⟩
  have := h.store 1 r r' hr hr' ⟨⟨['p'], 1⟩, 0⟩ (by rw [hentry]; decide)
  dsimp only at this
  rw [hstore, hrs'] at this
  cases this

end DatalogDafsa.Catalog
