import DatalogDafsa.Intern.Format

/-!
# The interner

Strings are numbered from one in the order they are met.  The array of the strings is
what is saved; the automaton of the keys `string \0 number` is a cache of it that is
used when it is current.  A save appends to a file that is still the one this interner
wrote or read last, and replaces any other.

The engine of the automaton is not part of the repository: a set of keys stands for an
automaton, and `enum` for its enumeration, which hands out what stands behind a key and
a zero byte.  Allocation and input and output do not fail.  A file has a mark for its
device, inode and times: whatever writes a file gives it a mark that no file had before.
The hash of the symbols is left out; nothing here reads it.

## Main definitions

* `Interner`, `lookup`, `internStr`, `ensureFwd` — numbering.
* `Fs`, `appendSymbols`, `internSave`, `internLoad` — saving and loading.
* `Op`, `step`, `run` — sequences of calls.
-/

namespace DatalogDafsa.Intern

/-! ## The automaton of the keys -/

/-- A key of the automaton. -/
abbrev Key := List UInt8

/-- A number in four bytes, the highest first. -/
def be32 (id : ℕ) : List UInt8 :=
  [UInt8.ofNat (id / 2 ^ 24), UInt8.ofNat (id / 2 ^ 16), UInt8.ofNat (id / 2 ^ 8), UInt8.ofNat id]

/-- `fillKey`. -/
def fillKey (str : Str) (id : ℕ) : Key := str ++ 0 :: be32 id

/-- `captureCB`, on what is handed to it first. -/
def capture : List Key → ℕ
  | [] => 0
  | payload :: _ =>
    match payload with
    | b₃ :: b₂ :: b₁ :: b₀ :: _ =>
      b₃.toNat * 2 ^ 24 + b₂.toNat * 2 ^ 16 + b₁.toNat * 2 ^ 8 + b₀.toNat
    | _ => 0

/-- The enumeration of an automaton: what stands behind a string and a zero byte in its
keys, in some order. -/
abbrev Enum := Finset Key → Str → List Key

/-! ## Numbering -/

/-- `MAX_WORD_LEN`. -/
def maxWordLen : ℕ := 65536

/-- `INTERN_REV_INIT_CAP`. -/
def internRevInitCap : ℕ := 256

/-- `MAX_SAVED_PATH`. -/
def maxSavedPath : ℕ := 4096

/-- The path of a file. -/
abbrev Path := List UInt8

/-- `SavedPrefix`. -/
structure SavedPrefix where
  /-- Where the file is. -/
  path : Path
  /-- The strings below this number are in it. -/
  nextId : ℕ
  /-- Its size. -/
  bytes : ℕ
  /-- Its mark. -/
  mark : ℕ
  /-- When the record was made. -/
  used : ℕ

/-- `Interner`. -/
structure Interner where
  /-- The automaton, if there is one. -/
  fwd : Option (Finset Key)
  /-- The strings. -/
  rev : List Str
  /-- Room for strings. -/
  revCap : ℕ
  /-- Are there strings that were not saved? -/
  dirty : Bool
  /-- The automaton is not to be changed. -/
  fwdRo : Bool
  /-- `nextId` when the automaton was current. -/
  fwdGen : ℕ
  /-- The two records of saved files. -/
  saved : List (Option SavedPrefix)
  /-- The clock of the records. -/
  savedSeq : ℕ

/-- `next_id`. -/
def Interner.nextId (s : Interner) : ℕ := s.rev.length + 1

/-- An interner without strings. -/
def Interner.empty (fwd : Option (Finset Key)) : Interner :=
  ⟨fwd, [], internRevInitCap, false, false, 0, [none, none], 0⟩

/-- `intern_create`. -/
def internCreate : Interner := .empty (some ∅)

/-- The scan of `lookup`. -/
def scan (rev : List Str) (str : Str) : ℕ :=
  match rev.findIdx? (· == str) with
  | some i => i + 1
  | none => 0

/-- `lookup`. -/
def lookup (enum : Enum) (s : Interner) (str : Str) : ℕ :=
  match s.fwd with
  | some keys =>
    if s.fwdGen = s.nextId then capture (enum keys str) else scan (s.rev.take s.revCap) str
  | none => scan (s.rev.take s.revCap) str

/-- The room for a string with the number `id`, in arithmetic of 32 bits; none when it
becomes less. -/
def growRev (cap id : ℕ) : Option ℕ :=
  if cap < id then
    let newCap := cap * 2 % 2 ^ 32
    let newCap := if newCap < id then id * 2 % 2 ^ 32 else newCap
    if newCap < id then none else some newCap
  else some cap

/-- `intern_str`, with the number. -/
def internStr (enum : Enum) (s : Interner) (str : Str) : Option (Interner × ℕ) :=
  let found := lookup enum s str
  if found ≠ 0 then some (s, found)
  else if maxWordLen < str.length + 1 + 4 then some ({ s with dirty := true }, 0)
  else
    let id := s.nextId
    match growRev s.revCap id with
    | none => none
    | some revCap =>
      let grown := s.fwd.isSome && !s.fwdRo && s.fwdGen == id
      some
        ({ s with
            dirty := true
            revCap
            rev := s.rev ++ [str]
            fwd := if grown then s.fwd.map (insert (fillKey str id)) else none
            fwdGen := if grown then id + 1 else s.fwdGen }, id)

/-- `intern_str_of`. -/
def internStrOf (s : Interner) (symId : ℕ) : Option Str :=
  if symId = 0 ∨ s.nextId ≤ symId ∨ s.revCap < symId then none else s.rev[symId - 1]?

/-- The keys of the strings. -/
def keysOf (rev : List Str) : Finset Key :=
  (rev.zipIdx.filterMap fun p =>
    if maxWordLen < p.1.length + 1 + 4 then none else some (fillKey p.1 (p.2 + 1))).toFinset

/-- `ensureFwd`. -/
def ensureFwd (s : Interner) (wantMutable : Bool) : Interner :=
  if s.fwd.isSome ∧ (wantMutable = false ∨ s.fwdRo = false) ∧ s.fwdGen = s.nextId then s
  else
    { s with
      fwd := some (keysOf (s.rev.take s.revCap))
      fwdRo := !wantMutable
      fwdGen := s.nextId }

/-! ## Files -/

/-- A file. -/
structure File where
  /-- What it holds. -/
  bytes : List UInt8
  /-- Its mark. -/
  mark : ℕ

/-- The files. -/
structure Fs where
  /-- By path. -/
  files : Path → Option File
  /-- The next mark. -/
  clock : ℕ

/-- Write a file. -/
def Fs.write (fs : Fs) (path : Path) (bytes : List UInt8) : Fs :=
  ⟨Function.update fs.files path (some ⟨bytes, fs.clock⟩), fs.clock + 1⟩

/-- Write a file under another path and move it; what was at either path is gone. -/
def Fs.replace (fs : Fs) (tmp path : Path) (bytes : List UInt8) : Fs :=
  ⟨Function.update (Function.update fs.files tmp none) path (some ⟨bytes, fs.clock⟩), fs.clock + 1⟩

/-- `tmpNameOf`. -/
def tmpNameOf (path : Path) : Path := path.take (8192 - 1 - 4) ++ [46, 116, 109, 112]

/-- `isRecordedFile`. -/
def isRecordedFile (slot : SavedPrefix) (f : File) : Bool :=
  f.mark = slot.mark && f.bytes.length = slot.bytes

/-- `savedSlot`. -/
def savedSlot (s : Interner) (path : Path) : Option SavedPrefix :=
  if maxSavedPath ≤ path.length then none
  else s.saved.findSome? fun slot => slot.filter (·.path == path)

/-- The record of a path is forgotten. -/
def dropSlot (s : Interner) (path : Path) : Interner :=
  { s with saved := s.saved.map fun slot => slot.filter (·.path != path) }

/-- The index of the record that `rememberSavedAt` makes: that of the path, else one
that is free, else the oldest. -/
def targetSlot (saved : List (Option SavedPrefix)) (path : Path) : ℕ :=
  match saved.findIdx? (·.any (·.path == path)) with
  | some i => i
  | none =>
    match saved.findIdx? (·.isNone) with
    | some i => i
    | none =>
      match saved with
      | [some a, some b] => if b.used < a.used then 1 else 0
      | _ => 0

/-- `rememberSavedAt`. -/
def rememberSavedAt (s : Interner) (fs : Fs) (path : Path) (expectBytes : Option ℕ) : Interner :=
  if maxSavedPath ≤ path.length then s
  else
    match fs.files path with
    | none => s
    | some f =>
      if expectBytes.any (· != f.bytes.length) then s
      else
        { s with
          saved := s.saved.set (targetSlot s.saved path)
            (some ⟨path, s.nextId, f.bytes.length, f.mark, s.savedSeq + 1⟩)
          savedSeq := s.savedSeq + 1 }

/-- `appendSymbols`; none when the file has to be written whole, with what is left of the
records. -/
def appendSymbols (s : Interner) (fs : Fs) (path : Path) : Interner × Option Fs :=
  match savedSlot s path with
  | none => (s, none)
  | some slot =>
    if s.nextId < slot.nextId then (dropSlot s path, none)
    else
      match fs.files path with
      | none => (dropSlot s path, none)
      | some f =>
        if isRecordedFile slot f = false then (dropSlot s path, none)
        else if slot.nextId = s.nextId then (s, some fs)
        else
          let fs := fs.write path (f.bytes ++ writeSymbols (s.rev.drop (slot.nextId - 1)))
          (rememberSavedAt s fs path none, some fs)

/-- `intern_save`. -/
def internSave (s : Interner) (fs : Fs) (path : Path) : Interner × Fs :=
  match appendSymbols s fs path with
  | (s, some fs) => ({ s with dirty := false }, fs)
  | (s, none) =>
    let fs := fs.replace (tmpNameOf path) path (writeSymbols s.rev)
    ({ rememberSavedAt s fs path none with dirty := false }, fs)

/-- `intern_load`. -/
def internLoad (fs : Fs) (path : Path) : Option Interner :=
  match fs.files path with
  | none => some (.empty none)
  | some f =>
    if f.bytes = [] then some (rememberSavedAt (.empty none) fs path (some 0))
    else
      let rev := loadSymbols f.bytes
      match (List.range rev.length).foldlM (fun cap i => growRev cap (i + 1)) internRevInitCap with
      | none => none
      | some revCap =>
        let s : Interner := { Interner.empty none with rev, revCap }
        some (if f.bytes.getLast? = some newline then
          rememberSavedAt s fs path (some f.bytes.length) else s)

/-! ## Sequences of calls -/

/-- A call. -/
inductive Op
  /-- `intern_str`. -/
  | intern (str : Str)
  /-- `intern_str_find`. -/
  | find (str : Str)
  /-- `intern_str_of`. -/
  | strOf (symId : ℕ)
  /-- `intern_fwd`. -/
  | fwd
  /-- `intern_fwd_mutable`. -/
  | fwdMutable
  /-- `intern_save`. -/
  | save (path : Path)
  /-- `intern_load`; what was not saved is gone. -/
  | load (path : Path)

/-- What a call returns. -/
inductive Out
  /-- A number. -/
  | id (symId : ℕ)
  /-- A string. -/
  | str (s : Option Str)
  /-- Nothing that matters. -/
  | done
  deriving DecidableEq

/-- An interner and the files. -/
structure State where
  /-- The interner. -/
  ir : Interner
  /-- The files. -/
  fs : Fs

/-- No strings and no files. -/
def State.init : State := ⟨internCreate, ⟨fun _ => none, 0⟩⟩

/-- A call. -/
def step (enum : Enum) (st : State) : Op → Option (State × Out)
  | .intern str => (internStr enum st.ir str).map fun r => (⟨r.1, st.fs⟩, .id r.2)
  | .find str => some (st, .id (lookup enum st.ir str))
  | .strOf symId => some (st, .str (internStrOf st.ir symId))
  | .fwd => some (⟨ensureFwd st.ir false, st.fs⟩, .done)
  | .fwdMutable => some (⟨ensureFwd st.ir true, st.fs⟩, .done)
  | .save path =>
    let r := internSave st.ir st.fs path
    some (⟨r.1, r.2⟩, .done)
  | .load path => (internLoad st.fs path).map fun ir => (⟨ir, st.fs⟩, .done)

/-- Calls one after another, with what they return. -/
def run (enum : Enum) : State → List Op → Option (State × List Out)
  | st, [] => some (st, [])
  | st, op :: ops =>
    match step enum st op with
    | none => none
    | some (st, out) => (run enum st ops).map fun r => (r.1, out :: r.2)

end DatalogDafsa.Intern
