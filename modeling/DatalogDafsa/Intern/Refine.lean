import DatalogDafsa.Intern.Interner

/-!
# The interner numbers strings for good

What the interner is for is a list of distinct strings, each numbered by its place, and
for each path the list that was saved there last.  The interner refines that, through
every change of the automaton and every way a file is written, as long as no string ends
in a carriage return, there are not too many strings, and no save goes through a file
that was saved.

## Main definitions

* `Spec`, `Spec.step`, `Spec.run` — the purpose.
* `Sim` — the relation between the interner and its purpose.
* `sim_step`, `sim_run` — the refinement.
* `faithful_of_clear` — whole runs.
-/

namespace DatalogDafsa.Intern

/-! ## The purpose -/

/-- Strings numbered by their place, and what was saved. -/
structure Spec where
  /-- The strings. -/
  strings : List Str
  /-- The strings saved last, by path. -/
  saved : Path → Option (List Str)

/-- The number of a string; `0` if there is none. -/
def number (strings : List Str) (str : Str) : ℕ :=
  if str ∈ strings then strings.idxOf str + 1 else 0

/-- Is a string too long for a key? -/
def TooLong (str : Str) : Prop := maxWordLen < str.length + 1 + 4

instance (str : Str) : Decidable (TooLong str) := inferInstanceAs (Decidable (_ < _))

/-- A call. -/
def Spec.step (sp : Spec) : Op → Spec × Out
  | .intern str =>
    if str ∈ sp.strings then (sp, .id (number sp.strings str))
    else if TooLong str then (sp, .id 0)
    else ({ sp with strings := sp.strings ++ [str] }, .id (sp.strings.length + 1))
  | .find str => (sp, .id (number sp.strings str))
  | .strOf symId => (sp, .str (if symId = 0 then none else sp.strings[symId - 1]?))
  | .fwd => (sp, .done)
  | .fwdMutable => (sp, .done)
  | .save path => ({ sp with saved := Function.update sp.saved path (some sp.strings) }, .done)
  | .load path => ({ sp with strings := (sp.saved path).getD [] }, .done)

/-- Calls one after another. -/
def Spec.run : Spec → List Op → Spec × List Out
  | sp, [] => (sp, [])
  | sp, op :: ops => ((Spec.run (sp.step op).1 ops).1, (sp.step op).2 :: (Spec.run (sp.step op).1 ops).2)

/-- Nothing. -/
def Spec.init : Spec := ⟨[], fun _ => none⟩

/-! ## Keys -/

/-- What is known of the enumeration: it hands out exactly what stands behind the string
and a zero byte. -/
def Enumerates (enum : Enum) : Prop :=
  ∀ keys str payload, payload ∈ enum keys str ↔ str ++ 0 :: payload ∈ keys

theorem ofNat_toNat_mod (n : ℕ) : (UInt8.ofNat n).toNat = n % 256 := UInt8.toNat_ofNat'

/-- Four bytes hold a number. -/
theorem capture_be32 {id : ℕ} (h : id < 2 ^ 32) (rest : List Key) :
    capture (be32 id :: rest) = id := by
  simp only [capture, be32, ofNat_toNat_mod]
  omega

/-- A key tells its string and its number. -/
theorem fillKey_inj {s : Str} {id : ℕ} {str : Str} {payload : List UInt8} (hs : 0 ∉ s)
    (hstr : 0 ∉ str) (h : str ++ 0 :: payload = fillKey s id) : str = s ∧ payload = be32 id := by
  unfold fillKey at h
  induction str generalizing s with
  | nil =>
    cases s with
    | nil => exact ⟨rfl, List.tail_eq_of_cons_eq h⟩
    | cons b s => exact absurd (List.head_eq_of_cons_eq h ▸ List.mem_cons_self ..) hs
  | cons b str ih =>
    rw [List.mem_cons, not_or] at hstr
    cases s with
    | nil => exact absurd (List.head_eq_of_cons_eq h).symm hstr.1
    | cons c s =>
      rw [List.mem_cons, not_or] at hs
      obtain ⟨rfl, rfl⟩ := ih hs.2 hstr.2 (List.tail_eq_of_cons_eq h)
      exact ⟨by rw [List.head_eq_of_cons_eq h], rfl⟩

/-! ## Lists of strings -/

/-- The most strings there is room for. -/
def maxStrings : ℕ := 2 ^ 31

/-- Strings that are numbered without loss. -/
structure NameTable (strings : List Str) : Prop where
  /-- They are distinct. -/
  nodup : strings.Nodup
  /-- They end at their NUL. -/
  noZero : ∀ s ∈ strings, 0 ∉ s
  /-- They are not too long for a key. -/
  short : ∀ s ∈ strings, ¬ TooLong s
  /-- There are not too many. -/
  few : strings.length ≤ maxStrings

/-- Strings that are numbered and saved without loss. -/
structure Valid (strings : List Str) : Prop where
  /-- They are distinct. -/
  nodup : strings.Nodup
  /-- They end at their NUL. -/
  noZero : ∀ s ∈ strings, 0 ∉ s
  /-- They are not too long for a key. -/
  short : ∀ s ∈ strings, ¬ TooLong s
  /-- They do not end in a carriage return. -/
  noCr : ∀ s ∈ strings, s.getLast? ≠ some carriageReturn
  /-- There are not too many. -/
  few : strings.length ≤ maxStrings

theorem Valid.table {strings : List Str} (h : Valid strings) : NameTable strings :=
  ⟨h.nodup, h.noZero, h.short, h.few⟩

theorem NameTable.nil : NameTable [] :=
  ⟨List.nodup_nil, nofun, nofun, Nat.zero_le _⟩

theorem NameTable.snoc {strings : List Str} (h : NameTable strings) {str : Str}
    (hnew : str ∉ strings) (hzero : 0 ∉ str) (hshort : ¬ TooLong str)
    (hfew : strings.length < maxStrings) : NameTable (strings ++ [str]) := by
  have hmem : ∀ {P : Str → Prop}, (∀ s ∈ strings, P s) → P str → ∀ s ∈ strings ++ [str], P s := by
    intro P hold hone s hs
    rcases List.mem_append.mp hs with hs | hs
    · exact hold s hs
    · exact List.mem_singleton.mp hs ▸ hone
  refine ⟨?_, hmem h.noZero hzero, hmem h.short hshort, ?_⟩
  · rw [List.nodup_append]
    refine ⟨h.nodup, List.nodup_singleton _, fun a ha b hb hab => ?_⟩
    rw [List.mem_singleton.mp hb] at hab
    exact hnew (hab ▸ ha)
  · rw [List.length_append, List.length_singleton]
    omega

theorem Valid.nil : Valid [] :=
  ⟨List.nodup_nil, nofun, nofun, nofun, Nat.zero_le _⟩

theorem Valid.snoc {strings : List Str} (h : Valid strings) {str : Str} (hnew : str ∉ strings)
    (hzero : 0 ∉ str) (hshort : ¬ TooLong str) (hcr : str.getLast? ≠ some carriageReturn)
    (hfew : strings.length < maxStrings) : Valid (strings ++ [str]) := by
  obtain ⟨hnodup, hnoZero, hshort, hfew⟩ := h.table.snoc hnew hzero hshort hfew
  refine ⟨hnodup, hnoZero, hshort, fun s hs => ?_, hfew⟩
  rcases List.mem_append.mp hs with hs | hs
  · exact h.noCr s hs
  · exact List.mem_singleton.mp hs ▸ hcr

/-- **Strings that were saved are read back.** -/
theorem Valid.load {strings : List Str} (h : Valid strings) :
    loadSymbols (writeSymbols strings) = strings := by
  rw [loadSymbols_writeSymbols h.noZero]
  conv_rhs => rw [← List.map_id strings]
  refine List.map_congr_left fun s hs => ?_
  exact if_neg (h.noCr s hs)

theorem number_append_of_mem {strings : List Str} {str : Str} (h : str ∈ strings)
    (more : List Str) : number (strings ++ more) str = number strings str := by
  rw [number, number, if_pos h, if_pos (List.mem_append_left _ h), List.idxOf_append_of_mem h]

theorem scan_eq_number (rev : List Str) (str : Str) : scan rev str = number rev str := by
  unfold scan number
  split
  · rename_i i hi
    obtain ⟨hlt, hget, -⟩ := List.findIdx?_eq_some_iff_getElem.mp hi
    have hmem : str ∈ rev := by
      rw [← beq_iff_eq.mp hget]
      exact List.getElem_mem hlt
    rw [if_pos hmem, List.idxOf, List.findIdx_eq_getD_findIdx?, hi]
    rfl
  · rename_i hnone
    rw [if_neg]
    intro hmem
    have := List.findIdx?_eq_none_iff.mp hnone str hmem
    simp at this

/-- The room for one more string. -/
theorem growRev_spec {cap id : ℕ} (hcap : 0 < cap) (hle : id ≤ cap + 1) (hfew : id ≤ maxStrings) :
    ∃ cap', growRev cap id = some cap' ∧ id ≤ cap' ∧ cap ≤ cap' := by
  unfold growRev
  have hmax : maxStrings = 2147483648 := rfl
  by_cases hlt : cap < id
  · have hdouble : cap * 2 % 2 ^ 32 = cap * 2 := Nat.mod_eq_of_lt (by omega)
    have hroom : ¬ cap * 2 < id := by omega
    rw [if_pos hlt]
    dsimp only
    rw [hdouble, if_neg hroom, if_neg hroom]
    exact ⟨cap * 2, rfl, by omega, by omega⟩
  · exact ⟨cap, if_neg hlt, by omega, le_rfl⟩

/-- The room for the strings of a file. -/
theorem growAll_spec {n : ℕ} (hfew : n ≤ maxStrings) :
    ∃ cap, (List.range n).foldlM (fun cap i => growRev cap (i + 1)) internRevInitCap = some cap ∧
      0 < cap ∧ n ≤ cap := by
  induction n with
  | zero => exact ⟨internRevInitCap, rfl, by decide, Nat.zero_le _⟩
  | succ n ih =>
    obtain ⟨cap, hcap, hpos, hle⟩ := ih (by omega)
    obtain ⟨cap', hgrow, hid, -⟩ := @growRev_spec cap (n + 1) hpos (by omega) hfew
    refine ⟨cap', ?_, by omega, hid⟩
    rw [List.range_succ, List.foldlM_append, hcap]
    simpa using hgrow

/-! ## The relation -/

/-- The keys of numbered strings. -/
def KeysOf (strings : List Str) (keys : Finset Key) : Prop :=
  ∀ k, k ∈ keys ↔ ∃ i s, strings[i]? = some s ∧ k = fillKey s (i + 1)

/-- A record tells what its file holds, as long as the file has the mark of the record. -/
structure SlotOk (strings : List Str) (fs : Fs) (slot : SavedPrefix) : Prop where
  /-- The mark is not a new one. -/
  old : slot.mark < fs.clock
  /-- The strings below its number are in the file. -/
  holds : ∀ f, fs.files slot.path = some f → f.mark = slot.mark →
    1 ≤ slot.nextId ∧ slot.nextId ≤ strings.length + 1 ∧
      f.bytes = writeSymbols (strings.take (slot.nextId - 1))

/-- The interner has strings `strings`. -/
structure Holds (s : Interner) (fs : Fs) (strings : List Str) : Prop where
  /-- It has the strings. -/
  rev : s.rev = strings
  /-- There is room for them. -/
  room : strings.length ≤ s.revCap
  /-- There is room. -/
  cap_pos : 0 < s.revCap
  /-- The automaton has their keys when it is current. -/
  fwd : ∀ keys, s.fwd = some keys → s.fwdGen = s.nextId → KeysOf strings keys
  /-- The records are right. -/
  slots : ∀ slot, some slot ∈ s.saved → SlotOk strings fs slot

/-- The files are what was saved. -/
structure Stored (fs : Fs) (saved : Path → Option (List Str)) : Prop where
  /-- By path. -/
  bytes : ∀ path, (fs.files path).map (·.bytes) = (saved path).map writeSymbols
  /-- The marks are not new ones. -/
  old : ∀ path f, fs.files path = some f → f.mark < fs.clock
  /-- What was saved can be read back. -/
  valid : ∀ path strings, saved path = some strings → Valid strings

/-- The interner and the files are what they are for. -/
structure Sim (st : State) (sp : Spec) : Prop where
  /-- The interner. -/
  ir : Holds st.ir st.fs sp.strings
  /-- The files. -/
  fs : Stored st.fs sp.saved
  /-- The strings. -/
  valid : Valid sp.strings

theorem sim_init : Sim .init .init where
  ir := by
    refine ⟨rfl, Nat.zero_le _, by decide, fun keys hkeys hgen => ?_, fun slot hslot => ?_⟩
    · cases hgen
    · simp [State.init, internCreate, Interner.empty] at hslot
  fs := ⟨fun _ => rfl, nofun, nofun⟩
  valid := .nil

variable {enum : Enum} {s : Interner} {fs : Fs} {strings : List Str}

/-! ## Lookups -/

/-- **A lookup in either way** gives the number of the string. -/
theorem lookup_eq (hroom : s.rev.length ≤ s.revCap)
    (hfwd : ∀ keys, s.fwd = some keys → s.fwdGen = s.nextId → KeysOf s.rev keys)
    (henum : Enumerates enum) (hv : NameTable s.rev) {str : Str} (hstr : 0 ∉ str) :
    lookup enum s str = number s.rev str := by
  have hscan : scan (s.rev.take s.revCap) str = number s.rev str := by
    rw [List.take_of_length_le hroom, scan_eq_number]
  unfold Intern.lookup
  split
  · rename_i keys hkeys
    split
    · rename_i hgen
      have hof := hfwd keys hkeys hgen
      have hpayload : ∀ payload, payload ∈ enum keys str ↔
          ∃ i, s.rev[i]? = some str ∧ payload = be32 (i + 1) := by
        intro payload
        rw [henum, hof]
        constructor
        · rintro ⟨i, t, ht, heq⟩
          obtain ⟨rfl, rfl⟩ :=
            fillKey_inj (hv.noZero t (List.mem_of_getElem? ht)) hstr heq
          exact ⟨i, ht, rfl⟩
        · rintro ⟨i, hi, rfl⟩
          exact ⟨i, str, hi, rfl⟩
      unfold number
      split
      · rename_i hmem
        have hlt : s.rev.idxOf str < s.rev.length := List.idxOf_lt_length_iff.mpr hmem
        have hget : s.rev[s.rev.idxOf str]? = some str := by
          rw [List.getElem?_eq_getElem hlt, List.getElem_idxOf]
        cases hlist : enum keys str with
        | nil =>
          have := (hpayload _).mpr ⟨_, hget, rfl⟩
          rw [hlist] at this
          cases this
        | cons payload rest =>
          obtain ⟨i, hi, rfl⟩ := (hpayload payload).mp (by rw [hlist]; exact List.mem_cons_self ..)
          have hfew := hv.few
          obtain ⟨hilt, hget⟩ := List.getElem?_eq_some_iff.mp hi
          have hmax : maxStrings = 2147483648 := rfl
          have hidx := List.Nodup.idxOf_getElem hv.nodup i hilt
          rw [hget] at hidx
          rw [capture_be32 (by omega), hidx]
      · rename_i hmem
        cases hlist : enum keys str with
        | nil => rfl
        | cons payload rest =>
          obtain ⟨i, hi, -⟩ := (hpayload payload).mp (by rw [hlist]; exact List.mem_cons_self ..)
          exact absurd (List.mem_of_getElem? hi) hmem
    · exact hscan
  · exact hscan

theorem Holds.lookup (h : Holds s fs strings) (henum : Enumerates enum) (hv : NameTable strings)
    {str : Str} (hstr : 0 ∉ str) : lookup enum s str = number strings str := by
  obtain rfl := h.rev
  exact lookup_eq h.room h.fwd henum hv hstr

theorem number_eq_zero {str : Str} : number strings str = 0 ↔ str ∉ strings := by
  unfold number
  split <;> simp_all

/-! ## Numbering -/

theorem SlotOk.snoc {slot : SavedPrefix} (h : SlotOk strings fs slot) (str : Str) :
    SlotOk (strings ++ [str]) fs slot := by
  refine ⟨h.old, fun f hf hmark => ?_⟩
  obtain ⟨hpos, hle, hbytes⟩ := h.holds f hf hmark
  refine ⟨hpos, ?_, ?_⟩
  · rw [List.length_append]
    omega
  · rw [hbytes, List.take_append_of_le_length (by omega)]

theorem keysOf_snoc {keys : Finset Key} (h : KeysOf strings keys) (str : Str) :
    KeysOf (strings ++ [str]) (insert (fillKey str (strings.length + 1)) keys) := by
  intro k
  rw [Finset.mem_insert, h k]
  constructor
  · rintro (rfl | ⟨i, t, ht, rfl⟩)
    · exact ⟨strings.length, str, List.getElem?_concat_length, rfl⟩
    · refine ⟨i, t, ?_, rfl⟩
      rw [List.getElem?_append_left (List.getElem?_eq_some_iff.mp ht).1]
      exact ht
  · rintro ⟨i, t, ht, rfl⟩
    rcases lt_trichotomy i strings.length with hi | rfl | hi
    · rw [List.getElem?_append_left hi] at ht
      exact .inr ⟨i, t, ht, rfl⟩
    · rw [List.getElem?_concat_length] at ht
      cases ht
      exact .inl rfl
    · rw [List.getElem?_eq_none (by simp; omega)] at ht
      cases ht

/-- **A string is numbered.** -/
theorem Holds.internStr (h : Holds s fs strings) (henum : Enumerates enum) (hv : NameTable strings)
    {str : Str} (hstr : 0 ∉ str)
    (hfew : str ∈ strings ∨ TooLong str ∨ strings.length < maxStrings) :
    ∃ s', internStr enum s str = some (s',
        if str ∈ strings then number strings str
        else if TooLong str then 0 else strings.length + 1) ∧
      Holds s' fs
        (if str ∈ strings then strings
          else if TooLong str then strings else strings ++ [str]) := by
  have hlookup := h.lookup henum hv hstr
  unfold Intern.internStr
  dsimp only
  rw [hlookup]
  by_cases hmem : str ∈ strings
  · rw [if_pos (fun h0 => number_eq_zero.mp h0 hmem), if_pos hmem, if_pos hmem]
    exact ⟨s, rfl, h⟩
  rw [if_neg (by rw [not_not]; exact number_eq_zero.mpr hmem), if_neg hmem, if_neg hmem]
  by_cases hlong : TooLong str
  · rw [if_pos hlong, if_pos hlong, if_pos (show maxWordLen < _ from hlong)]
    exact ⟨_, rfl, h.rev, h.room, h.cap_pos, h.fwd, h.slots⟩
  rw [if_neg hlong, if_neg hlong, if_neg (show ¬ maxWordLen < _ from hlong)]
  have hnext : s.nextId = strings.length + 1 := by rw [Interner.nextId, h.rev]
  have hfew := (hfew.resolve_left hmem).resolve_left hlong
  obtain ⟨cap, hgrow, hid, -⟩ := @growRev_spec _ s.nextId h.cap_pos
    (by have := h.room; omega) (by omega)
  rw [hgrow]
  refine ⟨_, by rw [hnext], by rw [h.rev], ?_, ?_, fun keys hkeys hgen => ?_, fun slot hslot => ?_⟩
  · rw [List.length_append, List.length_singleton]
    show strings.length + 1 ≤ cap
    omega
  · show 0 < cap
    omega
  · dsimp only at hkeys
    split at hkeys
    · rename_i hgrown
      obtain ⟨old, hold, rfl⟩ := Option.map_eq_some_iff.mp hkeys
      have hcur : s.fwdGen = s.nextId := by
        simp only [Bool.and_eq_true, beq_iff_eq] at hgrown
        rw [hnext]
        exact hgrown.2
      exact keysOf_snoc (h.fwd old hold hcur) str
    · cases hkeys
  · exact (h.slots slot hslot).snoc str

theorem internStrOf_eq (h : Holds s fs strings) (symId : ℕ) :
    internStrOf s symId = if symId = 0 then none else strings[symId - 1]? := by
  unfold internStrOf Interner.nextId
  rw [h.rev]
  by_cases hzero : symId = 0
  · rw [if_pos (.inl hzero), if_pos hzero]
  · rw [if_neg hzero]
    by_cases hlarge : strings.length + 1 ≤ symId
    · rw [if_pos (.inr (.inl hlarge)), List.getElem?_eq_none (by omega)]
    · have := h.room
      rw [if_neg (by omega)]

theorem mem_keysOf {rev : List Str} (hshort : ∀ t ∈ rev, ¬ TooLong t) : KeysOf rev (keysOf rev) := by
  intro k
  unfold keysOf
  simp only [List.mem_toFinset, List.mem_filterMap, Prod.exists, List.mk_mem_zipIdx_iff_getElem?]
  constructor
  · rintro ⟨t, i, hget, hk⟩
    split at hk
    · cases hk
    · cases hk
      exact ⟨i, t, hget, rfl⟩
  · rintro ⟨i, t, hget, rfl⟩
    exact ⟨t, i, hget, if_neg (hshort t (List.mem_of_getElem? hget))⟩

theorem Holds.ensureFwd (h : Holds s fs strings) (hv : Valid strings) (wantMutable : Bool) :
    Holds (ensureFwd s wantMutable) fs strings := by
  unfold Intern.ensureFwd
  split
  · exact h
  · refine ⟨h.rev, h.room, h.cap_pos, fun keys hkeys _ => ?_, h.slots⟩
    cases hkeys
    rw [List.take_of_length_le (by rw [h.rev]; exact h.room), h.rev]
    exact mem_keysOf hv.short

/-! ## Records -/

/-- Files are as they were, gone, or have a new mark. -/
structure Later (fs fs' : Fs) : Prop where
  /-- Marks are used up. -/
  clock : fs.clock ≤ fs'.clock
  /-- By path. -/
  files : ∀ path f, fs'.files path = some f →
    fs.files path = some f ∨ f.mark = fs.clock ∧ fs.clock < fs'.clock

theorem later_write (fs : Fs) (path : Path) (bytes : List UInt8) :
    Later fs (fs.write path bytes) := by
  refine ⟨Nat.le_succ _, fun p f hf => ?_⟩
  unfold Fs.write at hf
  dsimp only at hf
  by_cases hp : p = path
  · subst hp
    rw [Function.update_self] at hf
    cases hf
    exact .inr ⟨rfl, Nat.lt_succ_self _⟩
  · rw [Function.update_of_ne hp] at hf
    exact .inl hf

theorem later_replace (fs : Fs) (tmp path : Path) (bytes : List UInt8) :
    Later fs (fs.replace tmp path bytes) := by
  refine ⟨Nat.le_succ _, fun p f hf => ?_⟩
  unfold Fs.replace at hf
  dsimp only at hf
  by_cases hp : p = path
  · subst hp
    rw [Function.update_self] at hf
    cases hf
    exact .inr ⟨rfl, Nat.lt_succ_self _⟩
  · rw [Function.update_of_ne hp] at hf
    by_cases ht : p = tmp
    · subst ht
      rw [Function.update_self] at hf
      cases hf
    · rw [Function.update_of_ne ht] at hf
      exact .inl hf

theorem SlotOk.later {fs' : Fs} {slot : SavedPrefix} (h : SlotOk strings fs slot)
    (hlater : Later fs fs') : SlotOk strings fs' slot := by
  refine ⟨h.old.trans_le hlater.clock, fun f hf hmark => ?_⟩
  rcases hlater.files _ f hf with hf | ⟨hnew, -⟩
  · exact h.holds f hf hmark
  · have := h.old
    omega

theorem Holds.later {fs' : Fs} (h : Holds s fs strings) (hlater : Later fs fs') :
    Holds s fs' strings :=
  ⟨h.rev, h.room, h.cap_pos, h.fwd, fun slot hslot => (h.slots slot hslot).later hlater⟩

/-- A record of a file that holds the strings is right. -/
theorem Holds.remember (h : Holds s fs strings) {path : Path} {f : File}
    (hf : fs.files path = some f) (hbytes : f.bytes = writeSymbols strings)
    (hold : f.mark < fs.clock) (expect : Option ℕ) :
    Holds (rememberSavedAt s fs path expect) fs strings := by
  unfold rememberSavedAt
  rw [hf]
  split
  · exact h
  · dsimp only
    split
    · exact h
    · refine ⟨h.rev, h.room, h.cap_pos, h.fwd, fun slot hslot => ?_⟩
      rcases List.mem_or_eq_of_mem_set hslot with hslot | hslot
      · exact h.slots slot hslot
      · cases hslot
        refine ⟨hold, fun f' hf' _ => ?_⟩
        obtain rfl : f = f' := Option.some.inj (hf.symm.trans hf')
        show 1 ≤ s.nextId ∧ s.nextId ≤ strings.length + 1 ∧ _
        rw [Interner.nextId, h.rev, Nat.add_sub_cancel, List.take_length]
        exact ⟨by omega, le_rfl, hbytes⟩

theorem Holds.drop (h : Holds s fs strings) (path : Path) :
    Holds (dropSlot s path) fs strings := by
  refine ⟨h.rev, h.room, h.cap_pos, h.fwd, fun slot hslot => ?_⟩
  obtain ⟨old, hold, heq⟩ := List.mem_map.mp hslot
  obtain ⟨rfl, -⟩ := Option.filter_eq_some_iff.mp heq
  exact h.slots slot hold

theorem savedSlot_spec {path : Path} {slot : SavedPrefix} (h : savedSlot s path = some slot) :
    some slot ∈ s.saved ∧ slot.path = path := by
  unfold savedSlot at h
  split at h
  · cases h
  · obtain ⟨old, hold, heq⟩ := List.exists_of_findSome?_eq_some h
    obtain ⟨rfl, hpath⟩ := Option.filter_eq_some_iff.mp heq
    exact ⟨hold, beq_iff_eq.mp hpath⟩

/-! ## Saving and loading -/

variable {saved : Path → Option (List Str)}

/-- The file of a path is written. -/
theorem Stored.update {fs' : Fs} (h : Stored fs saved) (hv : Valid strings) {path : Path}
    {f : File} (hlater : Later fs fs') (hf : fs'.files path = some f) (hmark : f.mark < fs'.clock)
    (hbytes : f.bytes = writeSymbols strings)
    (hother : ∀ p, p ≠ path → fs'.files p = fs.files p) :
    Stored fs' (Function.update saved path (some strings)) := by
  refine ⟨fun p => ?_, fun p g hg => ?_, fun p strs hp => ?_⟩
  · by_cases hpath : p = path
    · subst hpath
      rw [hf, Function.update_self, Option.map_some, Option.map_some, hbytes]
    · rw [hother p hpath, Function.update_of_ne hpath]
      exact h.bytes p
  · by_cases hpath : p = path
    · subst hpath
      exact Option.some.inj (hf.symm.trans hg) ▸ hmark
    · rw [hother p hpath] at hg
      exact (h.old p g hg).trans_le hlater.clock
  · by_cases hpath : p = path
    · subst hpath
      rw [Function.update_self] at hp
      exact Option.some.inj hp ▸ hv
    · rw [Function.update_of_ne hpath] at hp
      exact h.valid p strs hp

/-- **Symbols are appended**, or the file is left as it is. -/
theorem appendSymbols_spec (h : Holds s fs strings) (hst : Stored fs saved) (hv : Valid strings)
    (path : Path) :
    match appendSymbols s fs path with
    | (s', none) => Holds s' fs strings
    | (s', some fs') =>
      Holds s' fs' strings ∧ Stored fs' (Function.update saved path (some strings)) := by
  have hnext : s.nextId = strings.length + 1 := by rw [Interner.nextId, h.rev]
  unfold appendSymbols
  cases hslot : savedSlot s path with
  | none => exact h
  | some slot =>
    obtain ⟨hin, rfl⟩ := savedSlot_spec hslot
    dsimp only
    by_cases hbeyond : s.nextId < slot.nextId
    · rw [if_pos hbeyond]
      exact h.drop _
    rw [if_neg hbeyond]
    cases hf : fs.files slot.path with
    | none => exact h.drop _
    | some f =>
      dsimp only
      by_cases hrec : isRecordedFile slot f = false
      · rw [if_pos hrec]
        exact h.drop _
      rw [if_neg hrec]
      have hmark : f.mark = slot.mark := by
        rw [Bool.not_eq_false, isRecordedFile, Bool.and_eq_true] at hrec
        exact of_decide_eq_true hrec.1
      obtain ⟨hpos, hle, hbytes⟩ := (h.slots slot hin).holds f hf hmark
      by_cases hsame : slot.nextId = s.nextId
      · rw [if_pos hsame]
        have hall : f.bytes = writeSymbols strings := by
          rw [hbytes, List.take_of_length_le (by omega)]
        exact ⟨h, hst.update hv ⟨le_rfl, fun _ _ hp => .inl hp⟩ hf (hst.old _ f hf) hall
          fun _ _ => rfl⟩
      · rw [if_neg hsame]
        have hall : f.bytes ++ writeSymbols (s.rev.drop (slot.nextId - 1)) =
            writeSymbols strings := by
          rw [hbytes, h.rev, ← writeSymbols_append, List.take_append_drop]
        rw [hall]
        have hlater := later_write fs slot.path (writeSymbols strings)
        have hfile : (fs.write slot.path (writeSymbols strings)).files slot.path =
            some ⟨writeSymbols strings, fs.clock⟩ := Function.update_self ..
        exact ⟨(h.later hlater).remember hfile rfl (Nat.lt_succ_self _) none,
          hst.update hv hlater hfile (Nat.lt_succ_self _) rfl fun p hp =>
            Function.update_of_ne hp ..⟩

/-- No save of a path goes through a file that was saved. -/
def SaveClear (s : Interner) (fs : Fs) (path : Path) : Prop :=
  (appendSymbols s fs path).2.isSome = true ∨ (fs.files (tmpNameOf path)).isNone = true

instance (s : Interner) (fs : Fs) (path : Path) : Decidable (SaveClear s fs path) :=
  inferInstanceAs (Decidable (_ ∨ _))

/-- **The strings are saved.** -/
theorem internSave_spec (h : Holds s fs strings) (hst : Stored fs saved) (hv : Valid strings)
    {path : Path} (hclear : SaveClear s fs path) :
    Holds (internSave s fs path).1 (internSave s fs path).2 strings ∧
      Stored (internSave s fs path).2 (Function.update saved path (some strings)) := by
  have happ := appendSymbols_spec h hst hv path
  unfold internSave
  unfold SaveClear at hclear
  rcases hres : appendSymbols s fs path with ⟨s', _ | fs'⟩
  · rw [hres] at happ hclear
    dsimp only at happ ⊢
    have htmp : fs.files (tmpNameOf path) = none :=
      Option.isNone_iff_eq_none.mp (hclear.resolve_left (by simp))
    rw [happ.rev]
    have hlater := later_replace fs (tmpNameOf path) path (writeSymbols strings)
    have hfile : (fs.replace (tmpNameOf path) path (writeSymbols strings)).files path =
        some ⟨writeSymbols strings, fs.clock⟩ := Function.update_self ..
    have hrem := (happ.later hlater).remember hfile rfl (Nat.lt_succ_self _) none
    refine ⟨⟨hrem.rev, hrem.room, hrem.cap_pos, hrem.fwd, hrem.slots⟩,
      hst.update hv hlater hfile (Nat.lt_succ_self _) rfl fun p hp => ?_⟩
    show Function.update (Function.update fs.files (tmpNameOf path) none) path _ p = _
    rw [Function.update_of_ne hp]
    by_cases ht : p = tmpNameOf path
    · rw [ht, Function.update_self, htmp]
    · rw [Function.update_of_ne ht]
  · rw [hres] at happ
    obtain ⟨hrem, hst'⟩ := happ
    exact ⟨⟨hrem.rev, hrem.room, hrem.cap_pos, hrem.fwd, hrem.slots⟩, hst'⟩

theorem holds_empty (fs : Fs) : Holds (.empty none) fs [] := by
  refine ⟨rfl, Nat.zero_le _, by decide, nofun, fun slot hslot => ?_⟩
  simp [Interner.empty] at hslot

/-- **What was saved is loaded.** -/
theorem internLoad_spec (hst : Stored fs saved) (path : Path) :
    ∃ s, internLoad fs path = some s ∧ Holds s fs ((saved path).getD []) := by
  have hbytes := hst.bytes path
  unfold internLoad
  cases hsaved : saved path with
  | none =>
    rw [hsaved, Option.map_none, Option.map_eq_none_iff] at hbytes
    rw [hbytes]
    exact ⟨_, rfl, holds_empty fs⟩
  | some strings =>
    rw [hsaved, Option.map_some, Option.map_eq_some_iff] at hbytes
    obtain ⟨f, hf, hbytes⟩ := hbytes
    have hv := hst.valid path strings hsaved
    have hold := hst.old path f hf
    rw [hf]
    dsimp only
    rw [Option.getD_some, hbytes]
    by_cases hnil : strings = []
    · subst hnil
      exact ⟨_, if_pos rfl, (holds_empty fs).remember hf hbytes hold (some 0)⟩
    · rw [if_neg (mt writeSymbols_eq_nil.mp hnil), hv.load, getLast_writeSymbols hnil]
      obtain ⟨cap, hcap, hpos, hle⟩ := growAll_spec hv.few
      rw [hcap]
      dsimp only
      rw [if_pos rfl]
      refine ⟨_, rfl, Holds.remember ?_ hf hbytes hold _⟩
      refine ⟨rfl, hle, hpos, nofun, fun slot hslot => ?_⟩
      simp [Interner.empty] at hslot

/-! ## Runs -/

/-- A call that loses nothing: a new string does not end in a carriage return and there is
room for it, and no save goes through a file that was saved. -/
def Clear (st : State) : Op → Prop
  | .intern str =>
    str ∈ st.ir.rev ∨ TooLong str ∨
      str.getLast? ≠ some carriageReturn ∧ st.ir.rev.length < maxStrings
  | .save path => SaveClear st.ir st.fs path
  | _ => True

instance (st : State) (op : Op) : Decidable (Clear st op) :=
  match op with
  | .intern _ => inferInstanceAs (Decidable (_ ∨ _))
  | .save path => inferInstanceAs (Decidable (SaveClear st.ir st.fs path))
  | .find _ | .strOf _ | .fwd | .fwdMutable | .load _ => .isTrue trivial

/-- Every call of a run loses nothing. -/
def RunClear (enum : Enum) : State → List Op → Prop
  | _, [] => True
  | st, op :: ops =>
    Clear st op ∧
      match step enum st op with
      | some r => RunClear enum r.1 ops
      | none => True

instance RunClear.decidable (enum : Enum) :
    ∀ (st : State) (ops : List Op), Decidable (RunClear enum st ops)
  | _, [] => .isTrue trivial
  | st, op :: ops =>
    match h : step enum st op with
    | some r =>
      have := RunClear.decidable enum r.1 ops
      decidable_of_iff (Clear st op ∧ RunClear enum r.1 ops) (by simp [RunClear, h])
    | none => decidable_of_iff (Clear st op) (by simp [RunClear, h])

/-- The strings of a call end at their NUL. -/
def Op.Text : Op → Prop
  | .intern str => 0 ∉ str
  | .find str => 0 ∉ str
  | _ => True

instance (op : Op) : Decidable op.Text :=
  match op with
  | .intern str | .find str => inferInstanceAs (Decidable (0 ∉ str))
  | .strOf _ | .fwd | .fwdMutable | .save _ | .load _ => .isTrue trivial

/-- **A call does what it is for.** -/
theorem sim_step (henum : Enumerates enum) {st : State} {sp : Spec} (h : Sim st sp) {op : Op}
    (htext : op.Text) (hclear : Clear st op) :
    ∃ st', step enum st op = some (st', (sp.step op).2) ∧ Sim st' (sp.step op).1 := by
  obtain ⟨hir, hfs, hv⟩ := h
  cases op with
  | intern str =>
    have hclear : str ∈ sp.strings ∨ TooLong str ∨
        str.getLast? ≠ some carriageReturn ∧ sp.strings.length < maxStrings := hir.rev ▸ hclear
    obtain ⟨s', hstep, hholds⟩ := hir.internStr henum hv.table htext
      (hclear.imp_right fun h => h.imp_right And.right)
    refine ⟨⟨s', st.fs⟩, ?_, ?_⟩
    · simp only [step, Spec.step, hstep, Option.map_some]
      split_ifs <;> rfl
    · unfold Spec.step
      dsimp only
      split_ifs at hholds ⊢ with hmem hlong
      · exact ⟨hholds, hfs, hv⟩
      · exact ⟨hholds, hfs, hv⟩
      · obtain ⟨hcr, hfew⟩ := (hclear.resolve_left hmem).resolve_left hlong
        exact ⟨hholds, hfs, hv.snoc hmem htext hlong hcr hfew⟩
  | find str =>
    exact ⟨st, by rw [step, hir.lookup henum hv.table htext]; rfl, hir, hfs, hv⟩
  | strOf symId =>
    exact ⟨st, by rw [step, internStrOf_eq hir]; rfl, hir, hfs, hv⟩
  | fwd => exact ⟨_, rfl, hir.ensureFwd hv false, hfs, hv⟩
  | fwdMutable => exact ⟨_, rfl, hir.ensureFwd hv true, hfs, hv⟩
  | save path =>
    obtain ⟨hholds, hstored⟩ := internSave_spec hir hfs hv hclear
    exact ⟨_, rfl, hholds, hstored, hv⟩
  | load path =>
    obtain ⟨s', hload, hholds⟩ := internLoad_spec hfs path
    refine ⟨⟨s', st.fs⟩, by rw [step, hload]; rfl, hholds, hfs, ?_⟩
    show Valid ((sp.saved path).getD [])
    cases hsaved : sp.saved path with
    | none => exact .nil
    | some strings => exact hfs.valid path strings hsaved

/-- **So does a run.** -/
theorem sim_run (henum : Enumerates enum) {ops : List Op} {st : State} {sp : Spec} (h : Sim st sp)
    (htext : ∀ op ∈ ops, op.Text) (hclear : RunClear enum st ops) :
    ∃ st', run enum st ops = some (st', (sp.run ops).2) ∧ Sim st' (sp.run ops).1 := by
  induction ops generalizing st sp with
  | nil => exact ⟨st, rfl, h⟩
  | cons op ops ih =>
    obtain ⟨st₁, hstep, hsim⟩ := sim_step henum h (htext op (List.mem_cons_self ..)) hclear.1
    have hrest := hclear.2
    rw [hstep] at hrest
    obtain ⟨st', hrun, hsim'⟩ := ih hsim (fun o ho => htext o (List.mem_cons_of_mem _ ho)) hrest
    exact ⟨st', by rw [run, hstep]; simp only [hrun, Option.map_some, Spec.run], hsim'⟩

theorem Spec.run_append (sp : Spec) (before after : List Op) :
    (sp.run (before ++ after)).1 = ((sp.run before).1.run after).1 := by
  induction before generalizing sp with
  | nil => rfl
  | cons op before ih => exact ih _

/-- Numbers stay as long as nothing is loaded. -/
theorem Spec.run_keeps {ops : List Op} (h : ∀ path, .load path ∉ ops) (sp : Spec) :
    sp.strings <+: (sp.run ops).1.strings := by
  induction ops generalizing sp with
  | nil => exact List.prefix_rfl
  | cons op ops ih =>
    refine List.IsPrefix.trans ?_ (ih (fun path hp => h path (List.mem_cons_of_mem _ hp)) _)
    cases op with
    | intern str =>
      unfold Spec.step
      dsimp only
      split_ifs
      · exact List.prefix_rfl
      · exact List.prefix_rfl
      · exact List.prefix_append _ _
    | load path => exact absurd (List.mem_cons_self ..) (h path)
    | find | strOf | fwd | fwdMutable | save => exact List.prefix_rfl

/-- What is asked of a run: it returns what numbering strings for good returns, and at its
end the strings are distinct, each is found by its number and its number by it, a lookup
agrees with the scan, and the strings there were before the last loading have kept their
numbers. -/
def Faithful (enum : Enum) (ops : List Op) : Prop :=
  ∃ st, run enum .init ops = some (st, (Spec.init.run ops).2) ∧
    st.ir.rev = (Spec.init.run ops).1.strings ∧ st.ir.rev.Nodup ∧
    (∀ str, 0 ∉ str → lookup enum st.ir str = scan st.ir.rev str) ∧
    (∀ i str, st.ir.rev[i]? = some str →
      lookup enum st.ir str = i + 1 ∧ internStrOf st.ir (i + 1) = some str) ∧
    ∀ before after, ops = before ++ after → (∀ path, .load path ∉ after) →
      (Spec.init.run before).1.strings <+: st.ir.rev

/-- **The interner numbers strings for good**, in every run whose calls lose nothing. -/
theorem faithful_of_clear (enum : Enum) (henum : Enumerates enum) (ops : List Op)
    (htext : ∀ op ∈ ops, op.Text) (hclear : RunClear enum .init ops) : Faithful enum ops := by
  obtain ⟨st, hrun, hir, -, hv⟩ := sim_run henum sim_init htext hclear
  have hlookup : ∀ str, 0 ∉ str → lookup enum st.ir str = scan st.ir.rev str := by
    intro str hstr
    rw [hir.lookup henum hv.table hstr, scan_eq_number, hir.rev]
  refine ⟨st, hrun, hir.rev, hir.rev ▸ hv.nodup, hlookup, fun i str hi => ?_,
    fun before after hops hload => ?_⟩
  · rw [hir.rev] at hi
    obtain ⟨hlt, hget⟩ := List.getElem?_eq_some_iff.mp hi
    have hmem := List.mem_of_getElem? hi
    have hidx := List.Nodup.idxOf_getElem hv.nodup i hlt
    rw [hget] at hidx
    rw [hlookup str (hv.noZero str hmem), scan_eq_number, hir.rev, number, if_pos hmem, hidx,
      internStrOf_eq hir, if_neg (by omega), Nat.add_sub_cancel]
    exact ⟨rfl, hi⟩
  · rw [hir.rev, hops, Spec.run_append]
    exact Spec.run_keeps hload _

/-- The enumeration in the order of the bytes. -/
def sortedEnum : Enum := fun keys str =>
  ((keys.filter fun k => (str ++ [0]) <+: k).sort (· ≤ ·)).map (·.drop (str.length + 1))

theorem enumerates_sortedEnum : Enumerates sortedEnum := by
  intro keys str payload
  have hlen : str.length + 1 = (str ++ [0]).length := by simp
  simp only [sortedEnum, List.mem_map, Finset.mem_sort, Finset.mem_filter]
  constructor
  · rintro ⟨k, ⟨hk, rest, rfl⟩, rfl⟩
    rw [hlen, List.drop_left]
    simpa using hk
  · intro hk
    refine ⟨str ++ 0 :: payload, ⟨hk, payload, by simp⟩, ?_⟩
    have happ : str ++ 0 :: payload = (str ++ [0]) ++ payload := by simp
    rw [hlen, happ, List.drop_left]

/-- Two strings, saved whole and by appending, read back and looked up. -/
theorem faithful_two :
    Faithful sortedEnum [.intern [97, 92, 10], .save [115], .intern [], .save [115], .load [115],
      .fwd, .find []] :=
  faithful_of_clear sortedEnum enumerates_sortedEnum _ (by decide) (by decide)

/-- A carriage return at the end of a string is lost. -/
theorem not_faithful_carriageReturn :
    ¬ Faithful sortedEnum [.intern [97, 13], .save [115], .load [115], .strOf 1] := by
  rintro ⟨st, hrun, -⟩
  have hout : (run sortedEnum .init [.intern [97, 13], .save [115], .load [115], .strOf 1]).map
      (·.2) = some [.id 1, .done, .done, .str (some [97])] := by decide
  have hspec : (Spec.init.run [.intern [97, 13], .save [115], .load [115], .strOf 1]).2 ≠
      [.id 1, .done, .done, .str (some [97])] := by decide
  rw [hrun, Option.map_some] at hout
  exact hspec (Option.some.inj hout)

end DatalogDafsa.Intern
