import DatalogDafsa.Intern.Stamp

/-!
# Tables of names

What numbering keeps when nothing is saved: there is room for the strings, they end at their
NUL, and an automaton that is current has their keys.  Where the strings are distinct and
none is too long, as they are unless a file had others, they are numbered without loss.  A
table only grows, so a number keeps its string.

## Main definitions

* `Grows` — a table and a later one.
* `NamesOk`, `NamesOk.intern` — any table, and numbering a string in it.
* `TableOk`, `TableOk.intern` — a table whose names are numbered without loss.
* `ListOk`, `ListOk.lookup`, `ListOk.intern` — a table with repetitions, in which the first of
  the equal strings is found.
* `Made`, `Numbered` — tables as the program makes them.
-/

namespace DatalogDafsa.Intern

variable {enum : Enum} {s s' : Interner}

/-- The name of a symbol. -/
theorem internStrOf_room (hroom : s.rev.length ≤ s.revCap) (id : ℕ) :
    internStrOf s id = if id = 0 then none else s.rev[id - 1]? := by
  unfold Intern.internStrOf Interner.nextId
  by_cases hzero : id = 0
  · rw [if_pos (.inl hzero), if_pos hzero]
  · rw [if_neg hzero]
    by_cases hlarge : s.rev.length + 1 ≤ id
    · rw [if_pos (.inr (.inl hlarge)), List.getElem?_eq_none (by omega)]
    · rw [if_neg (by omega)]

/-- A later table: strings were put at the end. -/
def Grows (s s' : Interner) : Prop := ∃ more, s'.rev = s.rev ++ more

theorem Grows.refl (s : Interner) : Grows s s := ⟨[], (List.append_nil _).symm⟩

theorem Grows.trans {s₁ s₂ s₃ : Interner} (h : Grows s₁ s₂) (h' : Grows s₂ s₃) : Grows s₁ s₃ := by
  obtain ⟨more, hmore⟩ := h
  obtain ⟨more', hmore'⟩ := h'
  exact ⟨more ++ more', by rw [hmore', hmore, List.append_assoc]⟩

/-- A symbol keeps its name. -/
theorem Grows.nameOf (hg : Grows s s') (hroom : s.rev.length ≤ s.revCap)
    (hroom' : s'.rev.length ≤ s'.revCap) {id : ℕ} {str : Str}
    (hname : internStrOf s id = some str) : internStrOf s' id = some str := by
  obtain ⟨more, hmore⟩ := hg
  rw [internStrOf_room hroom] at hname
  rw [internStrOf_room hroom', hmore]
  split at hname
  · cases hname
  · rename_i hzero
    rw [if_neg hzero, List.getElem?_append_left (List.getElem?_eq_some_iff.mp hname).1]
    exact hname

/-! ## Any table -/

/-- The strings have room, and an automaton that is current has only keys of theirs.  Some
strings may be there twice, as a file may have them. -/
structure NamesOk (s : Interner) : Prop where
  /-- There is room. -/
  room : s.rev.length ≤ s.revCap
  /-- The room. -/
  cap : RoomOk s.revCap
  /-- The automaton. -/
  fwd : ∀ keys, s.fwd = some keys → s.fwdGen = s.nextId →
    ∀ k ∈ keys, ∃ i t, s.rev[i]? = some t ∧ k = fillKey t (i + 1)
  /-- The strings end at their NUL. -/
  noZero : ∀ t ∈ s.rev, 0 ∉ t
  /-- There are not too many. -/
  few : s.rev.length ≤ maxStrings

/-- A number that is found is one of the string. -/
theorem NamesOk.lookup (h : NamesOk s) (henum : Enumerates enum) {str : Str} (hstr : 0 ∉ str)
    (hne : lookup enum s str ≠ 0) : ∃ i, s.rev[i]? = some str ∧ lookup enum s str = i + 1 := by
  have hscan : scan (s.rev.take s.revCap) str ≠ 0 →
      ∃ i, s.rev[i]? = some str ∧ scan (s.rev.take s.revCap) str = i + 1 := by
    rw [List.take_of_length_le h.room, scan_eq_number]
    intro hne
    have hmem : str ∈ s.rev := by
      by_contra hno
      exact hne (number_eq_zero.mpr hno)
    have hlt : s.rev.idxOf str < s.rev.length := List.idxOf_lt_length_iff.mpr hmem
    refine ⟨s.rev.idxOf str, ?_, by rw [number, if_pos hmem]⟩
    rw [List.getElem?_eq_getElem hlt, List.getElem_idxOf]
  unfold Intern.lookup at hne ⊢
  cases hkeys : s.fwd with
  | none =>
    rw [hkeys] at hne
    exact hscan hne
  | some keys =>
    rw [hkeys] at hne
    dsimp only at hne ⊢
    by_cases hgen : s.fwdGen = s.nextId
    · rw [if_pos hgen] at hne ⊢
      cases hlist : enum keys str with
      | nil =>
        rw [hlist] at hne
        exact absurd rfl hne
      | cons payload rest =>
        have hkey : str ++ 0 :: payload ∈ keys :=
          (henum keys str payload).mp (by rw [hlist]; exact List.mem_cons_self ..)
        obtain ⟨i, t, hi, heq⟩ := h.fwd keys hkeys hgen _ hkey
        obtain ⟨rfl, rfl⟩ := fillKey_inj (h.noZero t (List.mem_of_getElem? hi)) hstr heq
        have hlt := (List.getElem?_eq_some_iff.mp hi).1
        have hfew := h.few
        have hmax : maxStrings = 2147483648 := rfl
        exact ⟨i, hi, capture_be32 (by omega) _⟩
    · rw [if_neg hgen] at hne ⊢
      exact hscan hne

/-- **A string is numbered**, with a number that names it, unless it is too long. -/
theorem NamesOk.intern (h : NamesOk s) (henum : Enumerates enum) {str : Str} (hstr : 0 ∉ str)
    {id : ℕ} (hnew : internStr enum s str = some (s', id)) :
    NamesOk s' ∧ Grows s s' ∧ (id ≠ 0 → internStrOf s' id = some str ∧ id ≤ maxStrings) := by
  have hfound := h.lookup henum hstr
  unfold Intern.internStr at hnew
  dsimp only at hnew
  by_cases hne : Intern.lookup enum s str ≠ 0
  · rw [if_pos hne] at hnew
    cases hnew
    obtain ⟨i, hi, heq⟩ := hfound hne
    have hlt := (List.getElem?_eq_some_iff.mp hi).1
    refine ⟨h, .refl _, fun _ => ⟨?_, ?_⟩⟩
    · rw [heq, internStrOf_room h.room, if_neg (Nat.succ_ne_zero i), Nat.add_sub_cancel]
      exact hi
    · rw [heq]
      exact (Nat.succ_le_of_lt hlt).trans h.few
  rw [if_neg hne] at hnew
  by_cases hlong : TooLong str
  · rw [if_pos (show maxWordLen < _ from hlong)] at hnew
    cases hnew
    exact ⟨⟨h.room, h.cap, h.fwd, h.noZero, h.few⟩, .refl _, fun hne => absurd rfl hne⟩
  rw [if_neg (show ¬ maxWordLen < _ from hlong)] at hnew
  have hnext : s.nextId = s.rev.length + 1 := rfl
  obtain ⟨hfew, hmany⟩ := @growRev_room s.revCap s.nextId h.cap (by have := h.room; omega)
  by_cases hle : s.nextId ≤ maxStrings
  · obtain ⟨cap, hgrow, hroom, hcap⟩ := hfew hle
    rw [hgrow] at hnew
    cases hnew
    have hlen : (s.rev ++ [str]).length ≤ cap := by
      rw [List.length_append, List.length_singleton]
      exact hcap
    refine ⟨⟨hlen, hroom, fun keys hkeys _ => ?_, fun t ht => ?_, ?_⟩, ⟨[str], rfl⟩,
      fun hne => ⟨?_, hle⟩⟩
    · dsimp only at hkeys ⊢
      split at hkeys
      · rename_i hgrown
        obtain ⟨old, hold, rfl⟩ := Option.map_eq_some_iff.mp hkeys
        simp only [Bool.and_eq_true, beq_iff_eq] at hgrown
        intro k hk
        rcases Finset.mem_insert.mp hk with rfl | hk
        · exact ⟨s.rev.length, str, List.getElem?_concat_length, rfl⟩
        · obtain ⟨i, t, hi, heq⟩ := h.fwd old hold hgrown.2 k hk
          refine ⟨i, t, ?_, heq⟩
          rw [List.getElem?_append_left (List.getElem?_eq_some_iff.mp hi).1]
          exact hi
      · cases hkeys
    · rcases List.mem_append.mp ht with ht | ht
      · exact h.noZero t ht
      · exact List.mem_singleton.mp ht ▸ hstr
    · rw [List.length_append, List.length_singleton]
      exact hle
    · rw [internStrOf_room hlen, if_neg hne]
      simp [hnext]
  · rw [hmany (by omega)] at hnew
    cases hnew

/-! ## Tables without loss -/

/-- The names are numbered without loss, and an automaton that is current is theirs. -/
structure TableOk (s : Interner) : Prop where
  /-- There is room. -/
  room : s.rev.length ≤ s.revCap
  /-- The room. -/
  cap : RoomOk s.revCap
  /-- The automaton. -/
  fwd : ∀ keys, s.fwd = some keys → s.fwdGen = s.nextId → KeysOf s.rev keys
  /-- The names. -/
  table : NameTable s.rev

theorem TableOk.namesOk (h : TableOk s) : NamesOk s where
  room := h.room
  cap := h.cap
  fwd := fun keys hkeys hgen k hk => (h.fwd keys hkeys hgen k).mp hk
  noZero := h.table.noZero
  few := h.table.few

theorem tableOk_create : TableOk internCreate where
  room := Nat.zero_le _
  cap := ⟨8, by decide, rfl⟩
  fwd := fun keys _ hgen => absurd hgen (by decide)
  table := .nil

theorem TableOk.intern (h : TableOk s) (henum : Enumerates enum) {str : Str} (hstr : 0 ∉ str)
    {id : ℕ} (hnew : internStr enum s str = some (s', id)) : TableOk s' := by
  obtain ⟨hnames, -, -⟩ := h.namesOk.intern henum hstr hnew
  have hlookup := lookup_eq h.room h.fwd henum h.table hstr
  unfold Intern.internStr at hnew
  dsimp only at hnew
  rw [hlookup] at hnew
  by_cases hmem : str ∈ s.rev
  · rw [if_pos fun h0 => number_eq_zero.mp h0 hmem] at hnew
    cases hnew
    exact h
  rw [if_neg (by rw [not_not]; exact number_eq_zero.mpr hmem)] at hnew
  by_cases hlong : TooLong str
  · rw [if_pos (show maxWordLen < _ from hlong)] at hnew
    cases hnew
    exact ⟨h.room, h.cap, h.fwd, h.table⟩
  rw [if_neg (show ¬ maxWordLen < _ from hlong)] at hnew
  cases hgrow : growRev s.revCap s.nextId with
  | none => rw [hgrow] at hnew; cases hnew
  | some cap =>
    rw [hgrow] at hnew
    cases hnew
    have hfew := hnames.few
    rw [List.length_append, List.length_singleton] at hfew
    refine ⟨hnames.room, hnames.cap, fun keys hkeys _ => ?_, h.table.snoc hmem hstr hlong hfew⟩
    dsimp only at hkeys
    split at hkeys
    · rename_i hgrown
      obtain ⟨old, hold, rfl⟩ := Option.map_eq_some_iff.mp hkeys
      simp only [Bool.and_eq_true, beq_iff_eq] at hgrown
      exact keysOf_snoc (h.fwd old hold hgrown.2) str
    · cases hkeys

/-- The automaton that is built is that of the names. -/
theorem TableOk.build (h : TableOk s) (wantMutable : Bool) :
    TableOk (ensureFwd s wantMutable) ∧
      ∀ keys, (ensureFwd s wantMutable).fwd = some keys → KeysOf s.rev keys := by
  unfold Intern.ensureFwd
  split
  · rename_i hcur
    exact ⟨h, fun keys hkeys => h.fwd keys hkeys hcur.2.2⟩
  · have hkeys : KeysOf s.rev (keysOf (s.rev.take s.revCap)) := by
      rw [List.take_of_length_le h.room]
      exact mem_keysOf h.table.short
    refine ⟨⟨h.room, h.cap, fun keys hfwd _ => ?_, h.table⟩, fun keys hfwd => ?_⟩
    · cases hfwd
      exact hkeys
    · cases hfwd
      exact hkeys

/-! ## Tables with repetitions -/

/-- The automaton lists what follows a string in the order of the keys. -/
structure Ordered (enum : Enum) : Prop where
  /-- What it lists. -/
  enumerates : Enumerates enum
  /-- The order. -/
  sorted : ∀ keys str, (enum keys str).Pairwise (· < ·)

theorem lt_of_append_lt (p : List UInt8) {a b : List UInt8} (h : p ++ a < p ++ b) : a < b := by
  induction p with
  | nil => exact h
  | cons x p ih =>
    rcases List.cons_lt_cons_iff.mp h with hx | ⟨-, h⟩
    · exact absurd hx (by simp)
    · exact ih h

theorem ordered_sortedEnum : Ordered sortedEnum := by
  refine ⟨enumerates_sortedEnum, fun keys str => ?_⟩
  have hlen : str.length + 1 = (str ++ [0]).length := by simp
  have hsort : ((keys.filter fun k => (str ++ [0]) <+: k).sort (· ≤ ·)).Pairwise
      fun a b => str ++ [0] <+: a ∧ str ++ [0] <+: b ∧ a < b := by
    refine ((Finset.pairwise_sort _ _).and (Finset.sort_nodup _ _)).imp_of_mem fun ha hb hab => ?_
    simp only [Finset.mem_sort, Finset.mem_filter] at ha hb
    exact ⟨ha.2, hb.2, List.not_le.mp fun hle => hab.2 (List.le_antisymm hab.1 hle)⟩
  refine hsort.map _ ?_
  rintro _ _ ⟨⟨a, rfl⟩, ⟨b, rfl⟩, hlt⟩
  rw [hlen, List.drop_left, List.drop_left]
  exact lt_of_append_lt _ hlt

/-- A string is put at the end of a table that does not have it. -/
def addName (names : List Str) (str : Str) : List Str :=
  if str ∈ names then names else names ++ [str]

/-- No string is too long and an automaton that is current is that of the strings, some of
which may be there twice: two strings are read as one from a file when they differ by a
carriage return at the end. -/
structure ListOk (s : Interner) : Prop where
  /-- There is room. -/
  room : s.rev.length ≤ s.revCap
  /-- The room. -/
  cap : RoomOk s.revCap
  /-- The automaton. -/
  fwd : ∀ keys, s.fwd = some keys → s.fwdGen = s.nextId → KeysOf s.rev keys
  /-- The strings end at their NUL. -/
  noZero : ∀ t ∈ s.rev, 0 ∉ t
  /-- None is too long. -/
  short : ∀ t ∈ s.rev, ¬ TooLong t
  /-- There are not too many. -/
  few : s.rev.length ≤ maxStrings

theorem mem_addName {names : List Str} {str t : Str} :
    t ∈ addName names str ↔ t ∈ names ∨ t = str := by
  unfold addName
  split
  · rename_i hmem
    exact ⟨.inl, fun h => h.elim id fun heq => heq ▸ hmem⟩
  · rw [List.mem_append, List.mem_singleton]

/-- The bytes of a number go by its size. -/
theorem le_of_not_be32_lt {m n : ℕ} (hm : m < 2 ^ 32) (hn : n < 2 ^ 32)
    (h : ¬ be32 n < be32 m) : m ≤ n := by
  by_contra hlt
  rw [not_le] at hlt
  apply h
  unfold be32
  simp only [List.cons_lt_cons_iff, UInt8.lt_iff_toNat_lt, ← UInt8.toNat_inj, ofNat_toNat_mod]
  -- the first byte that differs decides
  rcases (show n / 2 ^ 24 ≤ m / 2 ^ 24 by omega).lt_or_eq with h₃ | h₃
  · exact .inl (by omega)
  refine .inr ⟨by omega, ?_⟩
  rcases (show n / 2 ^ 16 ≤ m / 2 ^ 16 by omega).lt_or_eq with h₂ | h₂
  · exact .inl (by omega)
  refine .inr ⟨by omega, ?_⟩
  rcases (show n / 2 ^ 8 ≤ m / 2 ^ 8 by omega).lt_or_eq with h₁ | h₁
  · exact .inl (by omega)
  exact .inr ⟨by omega, .inl (by omega)⟩

/-- **A lookup finds the first** of the equal strings. -/
theorem ListOk.lookup (h : ListOk s) (henum : Ordered enum) {str : Str} (hstr : 0 ∉ str) :
    lookup enum s str = number s.rev str := by
  have hscan : scan (s.rev.take s.revCap) str = number s.rev str := by
    rw [List.take_of_length_le h.room, scan_eq_number]
  unfold Intern.lookup
  cases hkeys : s.fwd with
  | none => exact hscan
  | some keys =>
    dsimp only
    split
    · rename_i hgen
      have hof := h.fwd keys hkeys hgen
      have hpayload : ∀ payload, payload ∈ enum keys str ↔
          ∃ i, s.rev[i]? = some str ∧ payload = be32 (i + 1) := by
        intro payload
        rw [henum.enumerates, hof]
        constructor
        · rintro ⟨i, t, ht, heq⟩
          obtain ⟨rfl, rfl⟩ := fillKey_inj (h.noZero t (List.mem_of_getElem? ht)) hstr heq
          exact ⟨i, ht, rfl⟩
        · rintro ⟨i, hi, rfl⟩
          exact ⟨i, str, hi, rfl⟩
      have hsorted := henum.sorted keys str
      unfold number
      split
      · rename_i hmem
        have hlt : s.rev.idxOf str < s.rev.length := List.idxOf_lt_length_iff.mpr hmem
        have hfirst := (hpayload _).mpr
          ⟨s.rev.idxOf str, by rw [List.getElem?_eq_getElem hlt, List.getElem_idxOf], rfl⟩
        cases hlist : enum keys str with
        | nil =>
          rw [hlist] at hfirst
          cases hfirst
        | cons payload rest =>
          obtain ⟨i, hi, rfl⟩ := (hpayload payload).mp (by rw [hlist]; exact List.mem_cons_self ..)
          obtain ⟨hilt, hget⟩ := List.getElem?_eq_some_iff.mp hi
          have hfew := h.few
          have hmax : maxStrings = 2147483648 := rfl
          -- the first one is not after the others, and not before the first string
          have hle : s.rev.idxOf str ≤ i := by
            by_contra hlt
            have := List.not_of_lt_findIdx (not_le.mp hlt)
            simp [hget] at this
          have hge : i + 1 ≤ s.rev.idxOf str + 1 := by
            rw [hlist] at hfirst hsorted
            rcases List.mem_cons.mp hfirst with heq | hrest
            · refine le_of_not_be32_lt (by omega) (by omega) ?_
              rw [heq]
              exact List.lt_irrefl _
            · refine le_of_not_be32_lt (by omega) (by omega) ?_
              exact List.lt_asymm ((List.pairwise_cons.mp hsorted).1 _ hrest)
          rw [capture_be32 (by omega)]
          omega
      · rename_i hmem
        cases hlist : enum keys str with
        | nil => rfl
        | cons payload rest =>
          obtain ⟨i, hi, -⟩ := (hpayload payload).mp (by rw [hlist]; exact List.mem_cons_self ..)
          exact absurd (List.mem_of_getElem? hi) hmem
    · exact hscan

/-- A string that is too long is refused. -/
theorem ListOk.intern_tooLong (h : ListOk s) (henum : Ordered enum) {str : Str} (hstr : 0 ∉ str)
    (hlong : TooLong str) : ∃ s', internStr enum s str = some (s', 0) ∧ ListOk s' := by
  have hnot : str ∉ s.rev := fun hmem => h.short str hmem hlong
  unfold Intern.internStr
  dsimp only
  rw [h.lookup henum hstr, number_eq_zero.mpr hnot, if_neg (not_not.mpr rfl),
    if_pos (show maxWordLen < _ from hlong)]
  exact ⟨_, rfl, h.room, h.cap, h.fwd, h.noZero, h.short, h.few⟩

/-- **A string gets its number**: that of the first one equal to it, or the next. -/
theorem ListOk.intern (h : ListOk s) (henum : Ordered enum) {str : Str} (hstr : 0 ∉ str)
    (hshort : ¬ TooLong str) (hfew : (addName s.rev str).length ≤ maxStrings) :
    ∃ s', internStr enum s str = some (s', number (addName s.rev str) str) ∧ ListOk s' ∧
      s'.rev = addName s.rev str := by
  have hlookup := h.lookup henum hstr
  unfold Intern.internStr addName at *
  dsimp only
  rw [hlookup]
  by_cases hmem : str ∈ s.rev
  · rw [if_pos fun h0 => number_eq_zero.mp h0 hmem, if_pos hmem]
    exact ⟨s, rfl, h, rfl⟩
  rw [if_neg hmem] at hfew ⊢
  rw [if_neg (not_not.mpr (number_eq_zero.mpr hmem)), if_neg (show ¬ maxWordLen < _ from hshort)]
  rw [List.length_append, List.length_singleton] at hfew
  have hnext : s.nextId = s.rev.length + 1 := rfl
  obtain ⟨cap, hgrow, hroom, hcap⟩ :=
    (@growRev_room s.revCap s.nextId h.cap (by have := h.room; omega)).1 hfew
  have hnumber : number (s.rev ++ [str]) str = s.nextId := by
    rw [number, if_pos (by simp), List.idxOf_append, if_neg hmem, List.idxOf_cons_self,
      Nat.zero_add]
    rfl
  rw [hgrow, hnumber]
  refine ⟨_, rfl, ?_, rfl⟩
  refine ⟨by rw [List.length_append, List.length_singleton]; exact hcap, hroom,
    fun keys hkeys _ => ?_, fun t ht => ?_, fun t ht => ?_, ?_⟩
  · dsimp only at hkeys ⊢
    split at hkeys
    · rename_i hgrown
      obtain ⟨old, hold, rfl⟩ := Option.map_eq_some_iff.mp hkeys
      simp only [Bool.and_eq_true, beq_iff_eq] at hgrown
      exact keysOf_snoc (h.fwd old hold hgrown.2) str
    · cases hkeys
  · rcases List.mem_append.mp ht with ht | ht
    · exact h.noZero t ht
    · exact List.mem_singleton.mp ht ▸ hstr
  · rcases List.mem_append.mp ht with ht | ht
    · exact h.short t ht
    · exact List.mem_singleton.mp ht ▸ hshort
  · rw [List.length_append, List.length_singleton]
    exact hfew

/-- Without room there is no result. -/
theorem ListOk.intern_full (h : ListOk s) (henum : Ordered enum) {str : Str} (hstr : 0 ∉ str)
    (hshort : ¬ TooLong str) (hfull : maxStrings < (addName s.rev str).length) :
    internStr enum s str = none := by
  have hmem : str ∉ s.rev := by
    intro hmem
    rw [addName, if_pos hmem] at hfull
    exact absurd h.few (not_le.mpr hfull)
  rw [addName, if_neg hmem, List.length_append, List.length_singleton] at hfull
  have hnext : s.nextId = s.rev.length + 1 := rfl
  unfold Intern.internStr
  dsimp only
  rw [h.lookup henum hstr, if_neg (not_not.mpr (number_eq_zero.mpr hmem)),
    if_neg (show ¬ maxWordLen < _ from hshort),
    (@growRev_room s.revCap s.nextId h.cap (by have := h.room; omega)).2 hfull]

/-- The first of the equal strings names its number. -/
theorem ListOk.strOf_number (h : ListOk s) {str : Str} (hmem : str ∈ s.rev) :
    internStrOf s (number s.rev str) = some str ∧ number s.rev str ≤ maxStrings := by
  have hlt : s.rev.idxOf str < s.rev.length := List.idxOf_lt_length_iff.mpr hmem
  rw [internStrOf_room h.room, number, if_pos hmem, if_neg (Nat.succ_ne_zero _),
    Nat.add_sub_cancel, List.getElem?_eq_getElem hlt, List.getElem_idxOf]
  exact ⟨rfl, (Nat.succ_le_of_lt hlt).trans h.few⟩

/-- The automaton that is built is that of the strings. -/
theorem ListOk.build (h : ListOk s) (wantMutable : Bool) : ListOk (ensureFwd s wantMutable) := by
  unfold Intern.ensureFwd
  split
  · exact h
  · refine ⟨h.room, h.cap, fun keys hkeys _ => ?_, h.noZero, h.short, h.few⟩
    cases hkeys
    rw [List.take_of_length_le h.room]
    exact mem_keysOf h.short

/-! ## Tables that the program makes -/

/-- A table of strings, as the program makes it; it reads files that it wrote, and writes no
string that is too long. -/
inductive Made (enum : Enum) : Interner → Prop
  /-- `intern_create`. -/
  | create : Made enum internCreate
  /-- `intern_load`. -/
  | load {fs : Fs} {path : Path} {s : Interner} : internLoad fs path = some s →
      (∀ t ∈ loadSymbols (contents fs path), ¬ TooLong t) → Made enum s
  /-- `intern_str`. -/
  | intern {s s' : Interner} {str : Str} {id : ℕ} :
      Made enum s → 0 ∉ str → internStr enum s str = some (s', id) → Made enum s'
  /-- `intern_fwd` and `intern_fwd_mutable`. -/
  | fwd {s : Interner} (wantMutable : Bool) : Made enum s → Made enum (ensureFwd s wantMutable)

theorem mem_decodeRuns {text : List UInt8} {x : UInt8} (h : x ∈ decodeRuns text) :
    x ∈ text ∨ x = newline := by
  induction text using decodeRuns.induct with
  | case1 => exact .inl h
  | case2 b => exact .inl h
  | case3 b c s hnl ih =>
    rw [decodeRuns, if_pos hnl] at h
    rcases List.mem_cons.mp h with rfl | h
    · exact .inr rfl
    · exact (ih h).imp_left fun h => List.mem_cons_of_mem _ (List.mem_cons_of_mem _ h)
  | case4 b c s hnl hbs ih =>
    rw [decodeRuns, if_neg hnl, if_pos hbs] at h
    rcases List.mem_cons.mp h with rfl | h
    · exact .inl (hbs.1 ▸ List.mem_cons_self ..)
    · exact (ih h).imp_left fun h => List.mem_cons_of_mem _ (List.mem_cons_of_mem _ h)
  | case5 b c s hnl hbs ih =>
    rw [decodeRuns, if_neg hnl, if_neg hbs] at h
    rcases List.mem_cons.mp h with rfl | h
    · exact .inl (List.mem_cons_self ..)
    · exact (ih h).imp_left fun h => List.mem_cons_of_mem _ h

theorem zero_notMem_decodeLine (line : List UInt8) : 0 ∉ decodeLine line := by
  have htake : 0 ∉ (stripCr line).takeWhile (· != 0) := fun h => by
    have := List.mem_takeWhile_imp h
    simp at this
  unfold decodeLine
  dsimp only
  split
  · exact fun h => (mem_decodeRuns h).elim htake (by decide)
  · exact htake

theorem Made.listOk (henum : Ordered enum) (h : Made enum s) : ListOk s := by
  induction h with
  | create =>
    exact ⟨Nat.zero_le _, ⟨8, by decide, rfl⟩, fun keys _ hgen => absurd hgen (by decide),
      fun t ht => (by cases ht), fun t ht => (by cases ht), Nat.zero_le _⟩
  | @load fs path s hload hshort =>
    obtain ⟨hfew, hmany⟩ := internLoad_table fs path
    by_cases hle : (loadSymbols (contents fs path)).length ≤ maxStrings
    · obtain ⟨s', hload', hrev, hroomy⟩ := hfew hle
      rw [hload] at hload'
      cases hload'
      refine ⟨hroomy.room, hroomy.cap, fun keys hkeys => ?_, fun t ht => ?_, hrev ▸ hshort,
        hrev ▸ hle⟩
      · rw [hroomy.fwd] at hkeys
        cases hkeys
      · rw [hrev] at ht
        obtain ⟨line, -, rfl⟩ := List.mem_map.mp ht
        exact zero_notMem_decodeLine line
    · rw [hmany (by omega)] at hload
      cases hload
  | @intern s s' str id _ hstr hnew ih =>
    by_cases hlong : TooLong str
    · obtain ⟨t, hnew', ht⟩ := ih.intern_tooLong henum hstr hlong
      rw [hnew] at hnew'
      cases hnew'
      exact ht
    by_cases hfew : (addName s.rev str).length ≤ maxStrings
    · obtain ⟨t, hnew', ht, -⟩ := ih.intern henum hstr hlong hfew
      rw [hnew] at hnew'
      cases hnew'
      exact ht
    · rw [ih.intern_full henum hstr hlong (not_le.mp hfew)] at hnew
      cases hnew
  | fwd wantMutable _ ih => exact ih.build wantMutable

/-- A table of names, as the program makes them: names are numbered in an empty table, or
in one that was read from a file of distinct names, and the automaton of the keys may be
built at any time. -/
inductive Numbered (enum : Enum) : Interner → Prop
  /-- `intern_create`. -/
  | create : Numbered enum internCreate
  /-- `intern_load`. -/
  | load {fs : Fs} {path : Path} {s : Interner} :
      internLoad fs path = some s → NameTable (loadSymbols (contents fs path)) → Numbered enum s
  /-- `intern_str`. -/
  | intern {s s' : Interner} {str : Str} {id : ℕ} :
      Numbered enum s → 0 ∉ str → internStr enum s str = some (s', id) → Numbered enum s'
  /-- `intern_fwd` and `intern_fwd_mutable`. -/
  | fwd {s : Interner} (wantMutable : Bool) :
      Numbered enum s → Numbered enum (ensureFwd s wantMutable)

theorem Numbered.tableOk (henum : Enumerates enum) (h : Numbered enum s) : TableOk s := by
  induction h with
  | create => exact tableOk_create
  | @load fs path s hload hnames =>
    obtain ⟨s', hload', hrev, hroomy⟩ := (internLoad_table fs path).1 hnames.few
    rw [hload] at hload'
    cases hload'
    refine ⟨hroomy.room, hroomy.cap, fun keys hkeys => ?_, hrev ▸ hnames⟩
    rw [hroomy.fwd] at hkeys
    cases hkeys
  | intern _ hstr hnew ih => exact ih.intern henum hstr hnew
  | fwd wantMutable _ ih => exact (ih.build wantMutable).1

end DatalogDafsa.Intern
