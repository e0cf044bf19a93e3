import DatalogDafsa.Dafsa

/-!
# The cache of snapshot views

Reading a published version maps its files.  A few mapped files, *views*, are kept open
in slots, each filed under a relation name and a version; a name is cut to 63 bytes when
it is filed and compared whole when it is looked for.  A full cache closes the view that
was used least.

A view remembers here which file it was opened from, and views are numbered in the order
they are opened, so that it can be said which are closed.  The use count of a slot is a C
`int`: counting past its largest value has no result.

## Main definitions

* `View`, `Slot`, `Cache` — the cache.
* `viewOpenCached`, `vcacheDropVersion`, `vcacheInvalidate` — the calls.
* `Right` — the view is one of the file that was asked for, and open.
* `Clear` — the slot that is found was filled for a name that fits.
* `viewOpenCached_right_iff` — **the view is right exactly then**.
-/

namespace DatalogDafsa.ViewCache

/-- A name: the bytes of a C string. -/
abbrev Name := List UInt8

/-- A mapped snapshot file. -/
structure View where
  /-- Views are numbered as they are opened. -/
  id : ℕ
  /-- The relation it was opened for. -/
  name : Name
  /-- The version it was opened from. -/
  version : ℕ
  /-- The rows of the file. -/
  rows : Dafsa
  deriving DecidableEq

/-- `view_cache_slot`. -/
structure Slot where
  /-- `rel_name`: at most 63 bytes. -/
  relName : Name
  /-- The view, when the slot is in use. -/
  view : Option View
  /-- How often the slot was used. -/
  used : ℕ
  /-- The version of the view. -/
  version : ℕ
  deriving DecidableEq

/-- `DL_VIEW_CACHE_SZ`. -/
abbrev cacheSize : ℕ := 8

/-- The slots, and which views were opened and closed. -/
structure Cache where
  /-- The slots. -/
  slots : Fin cacheSize → Slot
  /-- So many views were opened. -/
  opened : ℕ
  /-- The views that were closed. -/
  closed : Finset ℕ

/-- The snapshot files: the rows of a relation's file in a version, when there is one. -/
abbrev Files := ℕ → Name → Option Dafsa

/-- A slot that is not in use. -/
def Slot.clear : Slot := ⟨[], none, 0, 0⟩

/-- No slot is in use. -/
def Cache.empty : Cache := ⟨fun _ => .clear, 0, ∅⟩

/-- `dafsa_view_close` of the view in a slot. -/
def closeView (closed : Finset ℕ) (v : Option View) : Finset ℕ :=
  v.elim closed fun v => insert v.id closed

/-! ## The calls -/

/-- Close and clear the slots of a kind. -/
def dropSlots (vc : Cache) (drop : Slot → Bool) : Cache :=
  { vc with
    slots := fun i => if drop (vc.slots i) then .clear else vc.slots i
    closed := (List.finRange cacheSize).foldl
      (fun closed i => if drop (vc.slots i) then closeView closed (vc.slots i).view else closed)
      vc.closed }

/-- `vcache_invalidate`. -/
def vcacheInvalidate (vc : Cache) : Cache := dropSlots vc fun _ => true

/-- `vcache_drop_version`. -/
def vcacheDropVersion (vc : Cache) (version : ℕ) : Cache :=
  dropSlots vc fun s => s.view.isSome && s.version = version

/-- Does a slot answer a request? -/
def Slot.answers (s : Slot) (name : Name) (version : ℕ) : Bool :=
  s.view.isSome && s.version = version && s.relName = name

/-- The first slot that answers a request. -/
def findSlot (vc : Cache) (name : Name) (version : ℕ) : Option (Fin cacheSize) :=
  (List.finRange cacheSize).find? fun i => (vc.slots i).answers name version

/-- What the loop over the slots keeps. -/
structure Scan where
  /-- `lru_idx`. -/
  lruIdx : Fin cacheSize
  /-- `empty_idx`. -/
  emptyIdx : Option (Fin cacheSize)
  /-- `lru_used_val`. -/
  lruUsed : ℕ

/-- One slot that does not answer. -/
def noteSlot (vc : Cache) (st : Scan) (i : Fin cacheSize) : Scan where
  emptyIdx := if (vc.slots i).view = none ∧ st.emptyIdx = none then some i else st.emptyIdx
  lruIdx := if (vc.slots i).used < st.lruUsed then i else st.lruIdx
  lruUsed := if (vc.slots i).used < st.lruUsed then (vc.slots i).used else st.lruUsed

/-- The slot a new view goes to: the first empty one, or the least used one. -/
def freeSlot (vc : Cache) : Fin cacheSize :=
  let st := (List.finRange cacheSize).foldl (noteSlot vc) ⟨0, none, 0x7FFFFFFF⟩
  st.emptyIdx.getD st.lruIdx

/-- Put a view into a slot, closing the one that is there. -/
def fillSlot (vc : Cache) (i : Fin cacheSize) (v : View) : Cache where
  slots := Function.update vc.slots i ⟨v.name.take 63, some v, 1, v.version⟩
  opened := vc.opened + 1
  closed := closeView vc.closed (vc.slots i).view

/-- **`view_open_cached`**: no view when the file cannot be opened. -/
def viewOpenCached (files : Files) (vc : Cache) (name : Name) (version : ℕ) :
    Option (Option View × Cache) :=
  match findSlot vc name version with
  | some i =>
    let s := vc.slots i
    if s.used = 0x7FFFFFFF then none
    else some (s.view, { vc with slots := Function.update vc.slots i { s with used := s.used + 1 } })
  | none =>
    match files version name with
    | none => some (none, vc)
    | some rows =>
      let v : View := ⟨vc.opened, name, version, rows⟩
      some (some v, fillSlot vc (freeSlot vc) v)

/-- The rows with the given leading columns, read through the cache. -/
def readCached (files : Files) (vc : Cache) (name : Name) (version : ℕ) (leading : Row) :
    Option (Option (List Row)) :=
  (viewOpenCached files vc name version).map fun p => p.1.map fun v => v.rows.scan leading

/-- The rows with the given leading columns, read from the file. -/
def readFile (files : Files) (name : Name) (version : ℕ) (leading : Row) : Option (List Row) :=
  (files version name).map fun rows => rows.scan leading

/-- A call. -/
inductive Op
  /-- `view_open_cached`. -/
  | openCached (name : Name) (version : ℕ)
  /-- `vcache_drop_version`. -/
  | dropVersion (version : ℕ)
  /-- `vcache_invalidate`. -/
  | invalidate

/-- One call. -/
def step (files : Files) (vc : Cache) : Op → Option Cache
  | .openCached name version => (viewOpenCached files vc name version).map Prod.snd
  | .dropVersion version => some (vcacheDropVersion vc version)
  | .invalidate => some (vcacheInvalidate vc)

/-- A sequence of calls, from an empty cache. -/
def run (files : Files) (ops : List Op) : Option Cache := ops.foldlM (step files) .empty

/-! ## The invariant -/

/-- A slot and its view: the view is of a file, is open and filed under its name, cut. -/
structure SlotOk (files : Files) (vc : Cache) (s : Slot) (v : View) : Prop where
  /-- The view has the rows of its file. -/
  file : files v.version v.name = some v.rows
  /-- It is filed under its version. -/
  version : s.version = v.version
  /-- It is filed under its name, cut. -/
  name : s.relName = v.name.take 63
  /-- It was opened. -/
  opened : v.id < vc.opened
  /-- It was not closed. -/
  live : v.id ∉ vc.closed

/-- The cache between calls. -/
structure Inv (files : Files) (vc : Cache) : Prop where
  /-- The slots are in order. -/
  slot : ∀ i v, (vc.slots i).view = some v → SlotOk files vc (vc.slots i) v
  /-- No view is in two slots. -/
  apart : ∀ i j v w, (vc.slots i).view = some v → (vc.slots j).view = some w → v.id = w.id → i = j
  /-- What was closed was opened. -/
  closed : ∀ n ∈ vc.closed, n < vc.opened

theorem inv_empty (files : Files) : Inv files .empty where
  slot i v h := by cases h
  apart i j v w h := by cases h
  closed n h := absurd h (Finset.notMem_empty n)

theorem mem_closeView {closed : Finset ℕ} {v : Option View} {n : ℕ} :
    n ∈ closeView closed v ↔ n ∈ closed ∨ ∃ w, v = some w ∧ n = w.id := by
  cases v with
  | none => simp [closeView]
  | some w => simp [closeView, or_comm]

theorem mem_dropSlots_closed {vc : Cache} {drop : Slot → Bool} {n : ℕ} :
    n ∈ (dropSlots vc drop).closed ↔
      n ∈ vc.closed ∨ ∃ i w, drop (vc.slots i) = true ∧ (vc.slots i).view = some w ∧ n = w.id := by
  have key : ∀ (l : List (Fin cacheSize)) (closed : Finset ℕ),
      n ∈ l.foldl (fun closed i =>
        if drop (vc.slots i) then closeView closed (vc.slots i).view else closed) closed ↔
      n ∈ closed ∨ ∃ i ∈ l, ∃ w, drop (vc.slots i) = true ∧ (vc.slots i).view = some w ∧
        n = w.id := by
    intro l
    induction l with
    | nil => simp
    | cons i l ih =>
      intro closed
      rw [List.foldl_cons, ih]
      by_cases hd : drop (vc.slots i) = true
      · rw [if_pos hd, mem_closeView]
        simp only [List.mem_cons, exists_eq_or_imp, hd, true_and]
        exact or_assoc
      · simp [hd]
  refine (key _ _).trans (or_congr_right (exists_congr fun i => ?_))
  simp

/-- Dropping slots keeps the others open. -/
theorem Inv.dropSlots {files : Files} {vc : Cache} (h : Inv files vc) (drop : Slot → Bool) :
    Inv files (dropSlots vc drop) := by
  have hkeep : ∀ i v, ((ViewCache.dropSlots vc drop).slots i).view = some v →
      (ViewCache.dropSlots vc drop).slots i = vc.slots i ∧ ¬drop (vc.slots i) = true ∧
        (vc.slots i).view = some v := by
    intro i v hv
    unfold ViewCache.dropSlots at hv ⊢
    dsimp only at hv ⊢
    split at hv
    · cases hv
    · rename_i hd
      rw [if_neg hd]
      exact ⟨rfl, hd, hv⟩
  refine ⟨fun i v hv => ?_, fun i j v w hv hw hid => ?_, fun n hn => ?_⟩
  · obtain ⟨heq, hd, hv⟩ := hkeep i v hv
    have hok := h.slot i v hv
    rw [heq]
    refine ⟨hok.file, hok.version, hok.name, hok.opened, fun hclosed => ?_⟩
    rcases mem_dropSlots_closed.mp hclosed with hin | ⟨j, w, hdj, hw, hid⟩
    · exact hok.live hin
    · obtain rfl := h.apart i j v w hv hw hid
      exact hd hdj
  · exact h.apart i j v w (hkeep i v hv).2.2 (hkeep j w hw).2.2 hid
  · rcases mem_dropSlots_closed.mp hn with hin | ⟨i, w, -, hw, rfl⟩
    · exact h.closed n hin
    · exact (h.slot i w hw).opened

/-- A hit changes the use count only. -/
theorem Inv.hit {files : Files} {vc : Cache} (h : Inv files vc) (i : Fin cacheSize) (used : ℕ) :
    Inv files { vc with slots := Function.update vc.slots i { vc.slots i with used := used } } := by
  have hview : ∀ j, (Function.update vc.slots i { vc.slots i with used := used } j).view =
      (vc.slots j).view := by
    intro j
    by_cases hj : j = i
    · subst hj
      rw [Function.update_self]
    · rw [Function.update_of_ne hj]
  refine ⟨fun j v hv => ?_, fun j k v w hv hw hid => ?_, h.closed⟩
  · have hok := h.slot j v ((hview j).symm.trans hv)
    dsimp only
    by_cases hj : j = i
    · subst hj
      rw [Function.update_self]
      exact ⟨hok.file, hok.version, hok.name, hok.opened, hok.live⟩
    · rw [Function.update_of_ne hj]
      exact ⟨hok.file, hok.version, hok.name, hok.opened, hok.live⟩
  · exact h.apart j k v w ((hview j).symm.trans hv) ((hview k).symm.trans hw) hid

/-- A new view closes only the one it replaces. -/
theorem Inv.fill {files : Files} {vc : Cache} (h : Inv files vc) (i : Fin cacheSize) {name : Name}
    {version : ℕ} {rows : Dafsa} (hfile : files version name = some rows) :
    Inv files (fillSlot vc i ⟨vc.opened, name, version, rows⟩) ∧
      vc.opened ∉ (fillSlot vc i ⟨vc.opened, name, version, rows⟩).closed := by
  have hclosed : ∀ n, n ∈ (fillSlot vc i ⟨vc.opened, name, version, rows⟩).closed → n < vc.opened := by
    intro n hn
    rcases mem_closeView.mp hn with hin | ⟨w, hw, rfl⟩
    · exact h.closed n hin
    · exact (h.slot i w hw).opened
  have hnew : vc.opened ∉ (fillSlot vc i ⟨vc.opened, name, version, rows⟩).closed := fun hin =>
    lt_irrefl _ (hclosed _ hin)
  have hold : ∀ j v, j ≠ i → ((fillSlot vc i ⟨vc.opened, name, version, rows⟩).slots j).view = some v →
      (vc.slots j).view = some v := by
    intro j v hj hv
    rwa [show (fillSlot vc i ⟨vc.opened, name, version, rows⟩).slots j = vc.slots j from
      Function.update_of_ne hj _ _] at hv
  have hself : (fillSlot vc i ⟨vc.opened, name, version, rows⟩).slots i =
      ⟨name.take 63, some ⟨vc.opened, name, version, rows⟩, 1, version⟩ := Function.update_self _ _ _
  refine ⟨⟨fun j v hv => ?_, fun j k v w hv hw hid => ?_, fun n hn => ?_⟩, hnew⟩
  · by_cases hj : j = i
    · subst hj
      rw [hself] at hv ⊢
      obtain rfl := Option.some.inj hv
      exact ⟨hfile, rfl, rfl, Nat.lt_succ_self _, hnew⟩
    · have hok := h.slot j v (hold j v hj hv)
      rw [show (fillSlot vc i ⟨vc.opened, name, version, rows⟩).slots j = vc.slots j from
        Function.update_of_ne hj _ _]
      refine ⟨hok.file, hok.version, hok.name, Nat.lt_succ_of_lt hok.opened, fun hclosed => ?_⟩
      rcases mem_closeView.mp hclosed with hin | ⟨w, hw, hid⟩
      · exact hok.live hin
      · exact hj (h.apart j i v w (hold j v hj hv) hw hid)
  · by_cases hj : j = i <;> by_cases hk : k = i
    · rw [hj, hk]
    · subst hj
      rw [hself] at hv
      obtain rfl := Option.some.inj hv
      exact absurd hid.symm (h.slot k w (hold k w hk hw)).opened.ne
    · subst hk
      rw [hself] at hw
      obtain rfl := Option.some.inj hw
      exact absurd hid (h.slot j v (hold j v hj hv)).opened.ne
    · exact h.apart j k v w (hold j v hj hv) (hold k w hk hw) hid
  · exact Nat.lt_succ_of_lt (hclosed n hn)

theorem findSlot_some {vc : Cache} {name : Name} {version : ℕ} {i : Fin cacheSize}
    (h : findSlot vc name version = some i) :
    ∃ v, (vc.slots i).view = some v ∧ (vc.slots i).version = version ∧
      (vc.slots i).relName = name := by
  have hans := List.find?_some h
  unfold Slot.answers at hans
  simp only [Bool.and_eq_true, decide_eq_true_eq] at hans
  obtain ⟨⟨hsome, hversion⟩, hname⟩ := hans
  obtain ⟨v, hv⟩ := Option.isSome_iff_exists.mp hsome
  exact ⟨v, hv, hversion, hname⟩

theorem Inv.viewOpenCached {files : Files} {vc vc' : Cache} (h : Inv files vc) {name : Name}
    {version : ℕ} {res : Option View}
    (hopen : viewOpenCached files vc name version = some (res, vc')) : Inv files vc' := by
  unfold ViewCache.viewOpenCached at hopen
  cases hfind : findSlot vc name version with
  | some i =>
    rw [hfind] at hopen
    dsimp only at hopen
    split at hopen
    · cases hopen
    · obtain ⟨-, rfl⟩ := Prod.mk.inj (Option.some.inj hopen)
      exact h.hit i _
  | none =>
    rw [hfind] at hopen
    cases hfile : files version name with
    | none =>
      rw [hfile] at hopen
      obtain ⟨-, rfl⟩ := Prod.mk.inj (Option.some.inj hopen)
      exact h
    | some rows =>
      rw [hfile] at hopen
      obtain ⟨-, rfl⟩ := Prod.mk.inj (Option.some.inj hopen)
      exact (h.fill _ hfile).1

theorem Inv.step {files : Files} {vc vc' : Cache} (h : Inv files vc) {op : Op}
    (hstep : step files vc op = some vc') : Inv files vc' := by
  cases op with
  | openCached name version =>
    obtain ⟨p, hp, rfl⟩ := Option.map_eq_some_iff.mp hstep
    exact h.viewOpenCached hp
  | dropVersion version =>
    obtain rfl := Option.some.inj hstep
    exact h.dropSlots _
  | invalidate =>
    obtain rfl := Option.some.inj hstep
    exact h.dropSlots _

/-- **The invariant holds after every sequence of calls.** -/
theorem inv_run {files : Files} {ops : List Op} {vc : Cache} (h : run files ops = some vc) :
    Inv files vc := by
  have key : ∀ (ops : List Op) (vc₀ : Cache), Inv files vc₀ →
      ops.foldlM (ViewCache.step files) vc₀ = some vc → Inv files vc := by
    intro ops
    induction ops with
    | nil =>
      intro vc₀ h₀ hrun
      obtain rfl := Option.some.inj hrun
      exact h₀
    | cons op ops ih =>
      intro vc₀ h₀ hrun
      rw [List.foldlM_cons] at hrun
      obtain ⟨vc₁, hstep, hrest⟩ := Option.bind_eq_some_iff.mp hrun
      exact ih vc₁ (h₀.step hstep) hrest
  exact key ops .empty (inv_empty files) h

/-! ## Right views -/

/-- The answer to a request is a view of the file that was asked for, and open; or there
is no such file. -/
def Right (files : Files) (name : Name) (version : ℕ) (p : Option View × Cache) : Prop :=
  (p.1 = none ∧ files version name = none) ∨
    ∃ v, p.1 = some v ∧ v.name = name ∧ v.version = version ∧
      files version name = some v.rows ∧ v.id ∉ p.2.closed

/-- The slot that a request finds was filled for a name of at most 63 bytes, and its uses
can be counted. -/
def Clear (vc : Cache) (name : Name) (version : ℕ) : Prop :=
  ∀ i, findSlot vc name version = some i →
    (vc.slots i).used ≠ 0x7FFFFFFF ∧ ∀ v, (vc.slots i).view = some v → v.name.length ≤ 63

/-- A request that no slot answers opens its file. -/
theorem right_of_miss {files : Files} {vc : Cache} (h : Inv files vc) {name : Name} {version : ℕ}
    (hfind : findSlot vc name version = none) :
    ∃ p, viewOpenCached files vc name version = some p ∧ Right files name version p := by
  unfold viewOpenCached
  rw [hfind]
  dsimp only
  cases hfile : files version name with
  | none => exact ⟨_, rfl, .inl ⟨rfl, hfile⟩⟩
  | some rows => exact ⟨_, rfl, .inr ⟨_, rfl, rfl, rfl, hfile, (h.fill _ hfile).2⟩⟩

/-- A slot that was filled for a name that fits answers rightly. -/
theorem right_of_hit {files : Files} {vc : Cache} (h : Inv files vc) {name : Name} {version : ℕ}
    {i : Fin cacheSize} (hfind : findSlot vc name version = some i)
    (hused : (vc.slots i).used ≠ 0x7FFFFFFF)
    (hlen : ∀ v, (vc.slots i).view = some v → v.name.length ≤ 63) :
    ∃ p, viewOpenCached files vc name version = some p ∧ Right files name version p := by
  obtain ⟨v, hv, hversion, hname⟩ := findSlot_some hfind
  have hok := h.slot i v hv
  have hsame : v.name = name := by
    rw [← hname, hok.name, List.take_of_length_le (hlen v hv)]
  have hver : v.version = version := hok.version.symm.trans hversion
  unfold viewOpenCached
  rw [hfind]
  dsimp only
  rw [if_neg hused]
  refine ⟨_, rfl, .inr ⟨v, hv, hsame, hver, ?_, hok.live⟩⟩
  rw [← hsame, ← hver]
  exact hok.file

/-- A right answer reads what the file holds. -/
theorem readCached_of_right {files : Files} {vc : Cache} {name : Name} {version : ℕ}
    (h : ∃ p, viewOpenCached files vc name version = some p ∧ Right files name version p)
    (leading : Row) :
    readCached files vc name version leading = some (readFile files name version leading) := by
  obtain ⟨p, hopen, hright⟩ := h
  unfold readCached readFile
  rw [hopen, Option.map_some]
  rcases hright with ⟨hp, hfile⟩ | ⟨v, hp, -, -, hfile, -⟩
  · rw [hp, hfile]
    rfl
  · rw [hp, hfile]
    rfl

/-- **The cache is right exactly when the slot that is found was filled for a name that
fits**: after every sequence of calls, the next request is answered by an open view of its
own file if and only if it is clear, and it then reads what the file holds. -/
theorem viewOpenCached_right_iff {files : Files} {ops : List Op} {vc : Cache}
    (h : run files ops = some vc) (name : Name) (version : ℕ) :
    ((∃ p, viewOpenCached files vc name version = some p ∧ Right files name version p) ↔
        Clear vc name version) ∧
      (Clear vc name version → ∀ leading,
        readCached files vc name version leading = some (readFile files name version leading)) := by
  have hinv := inv_run h
  have hclear : Clear vc name version →
      ∃ p, viewOpenCached files vc name version = some p ∧ Right files name version p := by
    intro hc
    cases hfind : findSlot vc name version with
    | none => exact right_of_miss hinv hfind
    | some i => exact right_of_hit hinv hfind (hc i hfind).1 (hc i hfind).2
  refine ⟨⟨fun ⟨p, hopen, hright⟩ i hfind => ?_, hclear⟩, fun hc => readCached_of_right (hclear hc)⟩
  obtain ⟨v, hv, -, hname⟩ := findSlot_some hfind
  unfold viewOpenCached at hopen
  rw [hfind] at hopen
  dsimp only at hopen
  by_cases hused : (vc.slots i).used = 0x7FFFFFFF
  · rw [if_pos hused] at hopen
    cases hopen
  rw [if_neg hused, hv] at hopen
  obtain rfl := Option.some.inj hopen
  refine ⟨hused, fun w hw => ?_⟩
  obtain rfl := Option.some.inj (hv.symm.trans hw)
  rcases hright with ⟨hnone, -⟩ | ⟨u, hu, huname, -⟩
  · cases hnone
  · obtain rfl := Option.some.inj hu
    have hcut := (hinv.slot i v hv).name
    rw [hname, ← huname] at hcut
    rw [hcut]
    exact List.length_take_le 63 v.name

/-- Two names of which the first is the second, cut. -/
def shortName : Name := List.replicate 63 97

/-- A name that does not fit. -/
def longName : Name := List.replicate 64 97

/-- One row under the short name, none under the long one. -/
def sampleFiles : Files := fun _ name =>
  if name = shortName then some (Dafsa.create.add [7])
  else if name = longName then some .create
  else none

theorem viewOpenCached_right_iff_sample :
    ∃ vc, run sampleFiles [.openCached shortName 1, .openCached longName 1] = some vc ∧
      ((∃ p, viewOpenCached sampleFiles vc shortName 1 = some p ∧
        Right sampleFiles shortName 1 p) ↔ Clear vc shortName 1) := by
  have hrun : ∃ vc, run sampleFiles [.openCached shortName 1, .openCached longName 1] = some vc :=
    Option.isSome_iff_exists.mp (by decide)
  obtain ⟨vc, hvc⟩ := hrun
  exact ⟨vc, hvc, (viewOpenCached_right_iff hvc shortName 1).1⟩

/-- The cache after a read of the long name. -/
def longCache : Cache := fillSlot .empty 0 ⟨0, longName, 1, .create⟩

theorem run_longName : run sampleFiles [.openCached longName 1] = some longCache := by
  have hfile : sampleFiles 1 longName = some .create := by
    unfold sampleFiles
    rw [if_neg (by decide), if_pos rfl]
  have hfind : findSlot .empty longName 1 = none := by decide
  have hfree : freeSlot .empty = 0 := by decide
  have hopen : viewOpenCached sampleFiles .empty longName 1 =
      some (some ⟨0, longName, 1, .create⟩, longCache) := by
    unfold viewOpenCached
    rw [hfind, hfile, hfree]
    rfl
  have hstep : step sampleFiles .empty (.openCached longName 1) = some longCache := by
    unfold step
    dsimp only
    rw [hopen]
    rfl
  unfold run
  rw [List.foldlM_cons, hstep]
  rfl

theorem findSlot_longCache : findSlot longCache shortName 1 = some 0 := by decide

/-- A view of the long name answers a request for the short one. -/
theorem not_viewOpenCached_right :
    ∃ vc p, run sampleFiles [.openCached longName 1] = some vc ∧
      viewOpenCached sampleFiles vc shortName 1 = some p ∧ ¬Right sampleFiles shortName 1 p ∧
      readCached sampleFiles vc shortName 1 [] = some (some []) ∧
      readFile sampleFiles shortName 1 [] = some [[7]] := by
  have hopen : viewOpenCached sampleFiles longCache shortName 1 =
      some (some ⟨0, longName, 1, .create⟩, { longCache with
        slots := Function.update longCache.slots 0 { longCache.slots 0 with used := 2 } }) := by
    unfold viewOpenCached
    rw [findSlot_longCache]
    rfl
  refine ⟨longCache, _, run_longName, hopen, ?_, ?_, ?_⟩
  · rintro (⟨hnone, -⟩ | ⟨v, hv, hname, -⟩)
    · cases hnone
    · obtain rfl := Option.some.inj hv
      exact absurd (congrArg List.length hname) (by decide)
  · unfold readCached
    rw [hopen]
    rfl
  · unfold readFile sampleFiles
    rw [if_pos rfl]
    rfl

end DatalogDafsa.ViewCache
