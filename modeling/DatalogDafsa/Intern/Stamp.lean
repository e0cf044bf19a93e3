import DatalogDafsa.Intern.Refine
import DatalogDafsa.Lib.StreamHash

/-!
# The stamp of the symbols

A stamp tells two vocabularies apart: the number of the symbols, and two hashes of the
bytes a save would write.  Loading hashes the bytes of the file before it decodes them,
and keeps that hash when it saw no line that a save would write otherwise; numbering a new
symbol feeds its line; and a stamp catches up with what was not fed.  The stamp is that of
the table, as long as the table has no more symbols than there is room for.

The hash is a parameter, of which only one thing is known: pieces do not matter.

## Main definitions

* `Stamped`, `loadImpl`, `internStrStamped`, `symStamp` — the table with its hash.
* `lineFuses`, `fuses_iff` — the lines a save would write.
* `Stamps`, `stamps_iff` — whole runs.
-/

namespace DatalogDafsa.Intern

variable (H : StreamHash)

/-! ## The hash -/

/-- `seed_b`. -/
def seedB : UInt64 := 0x9e3779b97f4a7c15

/-- `SymHash`. -/
structure SymHash where
  /-- With the seed zero. -/
  a : H.State
  /-- With the seed `seedB`. -/
  b : H.State

/-- `SymHash.init`. -/
def SymHash.init : SymHash H := ⟨H.init 0, H.init seedB⟩

variable {H}

/-- `SymHash.feed`. -/
def SymHash.feed (s : SymHash H) (bytes : List UInt8) : SymHash H :=
  ⟨H.update s.a bytes, H.update s.b bytes⟩

/-- `SymStamp`. -/
structure SymStamp where
  /-- The number of the symbols. -/
  count : ℕ
  /-- The first hash. -/
  h0 : UInt64
  /-- The second hash. -/
  h1 : UInt64
  deriving DecidableEq

/-! ## What a save would write, in pieces -/

/-- The pieces of a symbol in `writeSymbolsTo`: runs, and the escapes between them. -/
def escapePuts : Str → Str → List (List UInt8)
  | run, [] => if run = [] then [] else [run]
  | run, b :: s =>
    if b = backslash ∨ b = newline then
      (if run = [] then [] else [run]) ++
        [backslash, if b = backslash then backslash else letterN] :: escapePuts [] s
    else escapePuts (run ++ [b]) s

/-- The pieces of `writeSymbolsTo`. -/
def symbolPuts (symbols : List Str) : List (List UInt8) :=
  symbols.flatMap fun s => escapePuts [] s ++ [[newline]]

/-- `writeSymbolsTo` into a `DirectSink`. -/
def directFeed (h : SymHash H) (symbols : List Str) : SymHash H :=
  (symbolPuts symbols).foldl SymHash.feed h

/-- The buffer of a `HashSink`. -/
def hashSinkRoom : ℕ := 64 * 1024

/-- `writeSymbolsTo` into a `HashSink`. -/
def stagedFeed (h : SymHash H) (symbols : List Str) : SymHash H :=
  ((symbolPuts symbols).foldl (Staging.put hashSinkRoom) .empty).flush.sent.foldl SymHash.feed h

/-! ## The table with its hash -/

variable (H) in
/-- `Interner`, with its hash. -/
structure Stamped where
  /-- The table. -/
  ir : Interner
  /-- `sym_hash`. -/
  symHash : SymHash H
  /-- `sym_hashed`: how many symbols were fed. -/
  symHashed : ℕ

/-- Is every backslash up to the first NUL part of an escape?  The flag `canonical` of
`decodeRuns`. -/
def runsCanonical : List UInt8 → Bool
  | [] => true
  | [b] => b != backslash
  | b :: c :: s =>
    if b = backslash ∧ (c = letterN ∨ c = backslash) then runsCanonical s
    else b != backslash && runsCanonical (c :: s)

/-- Does `Splitter.one` leave `fuse_ok`? -/
def lineFuses (line : List UInt8) : Bool :=
  let text := stripCr line
  line.getLast? != some carriageReturn &&
    if backslash ∈ text then runsCanonical (text.takeWhile (· != 0)) && !text.contains 0
    else !text.contains 0

/-- `fuse_ok` after the last line. -/
def fuses (bytes : List UInt8) : Bool := (splitLines [] bytes).all lineFuses

/-- What a file holds; nothing if there is none. -/
def contents (fs : Fs) (path : Path) : List UInt8 := ((fs.files path).map (·.bytes)).getD []

variable (H) in
/-- `loadImpl` with `want_stamp`: a file that is not there, or is empty, feeds nothing. -/
def loadImpl (fs : Fs) (path : Path) : Option (Stamped H) :=
  match internLoad fs path with
  | none => none
  | some ir =>
    match fs.files path with
    | none => some ⟨ir, .init H, 0⟩
    | some f =>
      if f.bytes = [] then some ⟨ir, .init H, 0⟩
      else if fuses f.bytes then
        let h := (SymHash.init H).feed f.bytes
        some ⟨ir, if f.bytes.getLast? = some newline then h else h.feed [newline], ir.nextId - 1⟩
      else some ⟨ir, .init H, 0⟩

/-- `intern_str`: the line of a new symbol is fed when all before it were. -/
def internStrStamped (enum : Enum) (s : Stamped H) (str : Str) : Option (Stamped H) :=
  match internStr enum s.ir str with
  | none => none
  | some (ir, id) =>
    if ir.nextId = s.ir.nextId then some { s with ir }
    else if s.symHashed = id - 1 then some ⟨ir, directFeed s.symHash [str], id⟩
    else some { s with ir }

/-- `symStamp`, with what it leaves behind. -/
def symStamp (s : Stamped H) : Stamped H × SymStamp :=
  let s :=
    if s.symHashed + 1 < s.ir.nextId then
      ⟨s.ir, stagedFeed s.symHash (s.ir.rev.drop s.symHashed), s.ir.nextId - 1⟩
    else s
  (s, ⟨s.ir.nextId - 1, H.final s.symHash.a, H.final s.symHash.b⟩)

/-- A call. -/
inductive StampCall
  /-- `intern_str`. -/
  | internStr (str : Str)
  /-- `symStamp`. -/
  | symStamp

/-- A call. -/
def stampStep (enum : Enum) (s : Stamped H) : StampCall → Option (Stamped H)
  | .internStr str => internStrStamped enum s str
  | .symStamp => some (symStamp s).1

/-- Calls one after another. -/
def stampRun (enum : Enum) (s : Stamped H) (calls : List StampCall) : Option (Stamped H) :=
  calls.foldlM (stampStep enum) s

/-! ## The lines a save would write -/

/-- A file, with the newline that may be missing at its end. -/
def closed (bytes : List UInt8) : List UInt8 :=
  if bytes = [] ∨ bytes.getLast? = some newline then bytes else bytes ++ [newline]

/-- **Only valid escapes are written again as they were.**  Something may follow, which
cannot complete an escape. -/
theorem escape_decodeRuns_iff {t r : List UInt8} (hnl : newline ∉ t)
    (hr : r.head? ≠ some backslash) :
    escape (decodeRuns t) = t ++ r ↔ runsCanonical t = true ∧ r = [] := by
  induction t using decodeRuns.induct with
  | case1 =>
    simp only [decodeRuns, escape, runsCanonical, List.nil_append, true_and]
    exact eq_comm
  | case2 b =>
    have hb : b ≠ newline := fun h => hnl (h ▸ List.mem_singleton_self _)
    by_cases hslash : b = backslash
    · subst hslash
      simp only [decodeRuns, escape, if_pos, runsCanonical, bne_self_eq_false, Bool.false_eq_true,
        false_and, iff_false]
      intro heq
      have htail : [backslash] = r := List.tail_eq_of_cons_eq heq
      exact hr (htail ▸ rfl)
    · rw [decodeRuns, escape, if_neg hslash, if_neg hb, escape, List.singleton_append,
        List.cons.injEq, runsCanonical, bne_iff_ne]
      exact and_congr ⟨fun _ => hslash, fun _ => rfl⟩ eq_comm
  | case3 b c s hn ih =>
    obtain ⟨rfl, rfl⟩ := hn
    have hs : newline ∉ s := fun h => hnl (List.mem_cons_of_mem _ (List.mem_cons_of_mem _ h))
    rw [decodeRuns, if_pos ⟨rfl, rfl⟩, escape, if_neg (by decide), if_pos rfl, runsCanonical,
      if_pos ⟨rfl, .inl rfl⟩, ← ih hs]
    simp
  | case4 b c s hn hslash ih =>
    obtain ⟨rfl, rfl⟩ := hslash
    have hs : newline ∉ s := fun h => hnl (List.mem_cons_of_mem _ (List.mem_cons_of_mem _ h))
    rw [decodeRuns, if_neg hn, if_pos ⟨rfl, rfl⟩, escape, if_pos rfl, runsCanonical,
      if_pos ⟨rfl, .inr rfl⟩, ← ih hs]
    simp
  | case5 b c s hn hslash ih =>
    have hb : b ≠ newline := fun h => hnl (h ▸ List.mem_cons_self ..)
    have hcs : newline ∉ c :: s := fun h => hnl (List.mem_cons_of_mem _ h)
    have hno : ¬ (b = backslash ∧ (c = letterN ∨ c = backslash)) := by
      rintro ⟨rfl, rfl | rfl⟩
      · exact hn ⟨rfl, rfl⟩
      · exact hslash ⟨rfl, rfl⟩
    rw [decodeRuns, if_neg hn, if_neg hslash, runsCanonical, if_neg hno]
    by_cases hb' : b = backslash
    · subst hb'
      rw [escape, if_pos rfl]
      simp only [bne_self_eq_false, Bool.false_and, Bool.false_eq_true, false_and, iff_false]
      intro heq
      have htail := List.tail_eq_of_cons_eq heq
      exact hslash ⟨rfl, (List.head_eq_of_cons_eq htail).symm⟩
    · rw [escape, if_neg hb', if_neg hb, List.cons_append, List.cons.injEq, ih hcs]
      simp [hb']

theorem decodeRuns_of_notMem {t : List UInt8} (h : backslash ∉ t) : decodeRuns t = t := by
  induction t using decodeRuns.induct with
  | case1 => rfl
  | case2 b => rfl
  | case3 b c s hn ih => exact absurd (hn.1 ▸ List.mem_cons_self ..) h
  | case4 b c s hn hslash ih => exact absurd (hslash.1 ▸ List.mem_cons_self ..) h
  | case5 b c s hn hslash ih =>
    rw [decodeRuns, if_neg hn, if_neg hslash, ih fun hm => h (List.mem_cons_of_mem _ hm)]

theorem runsCanonical_of_notMem {t : List UInt8} (h : backslash ∉ t) : runsCanonical t = true := by
  induction t using runsCanonical.induct with
  | case1 => rfl
  | case2 b =>
    rw [runsCanonical, bne_iff_ne]
    exact fun hb => h (hb ▸ List.mem_singleton_self _)
  | case3 b c s hn ih => exact absurd (hn.1 ▸ List.mem_cons_self ..) h
  | case4 b c s hn ih =>
    have hb : b ≠ backslash := fun hb => h (hb ▸ List.mem_cons_self ..)
    rw [runsCanonical, if_neg hn, ih fun hm => h (List.mem_cons_of_mem _ hm)]
    simpa using hb

/-- What a line is cut to, and what is cut off. -/
theorem line_split (line : List UInt8) :
    ∃ r, line = (stripCr line).takeWhile (· != 0) ++ r ∧ r.head? ≠ some backslash ∧
      (r = [] ↔ line.getLast? ≠ some carriageReturn ∧ 0 ∉ stripCr line) := by
  have hcut : ∀ text : List UInt8, (text.dropWhile (· != 0)).head? ≠ some backslash ∧
      (text.dropWhile (· != 0) = [] ↔ 0 ∉ text) := by
    intro text
    constructor
    · intro hhead
      have := List.head?_dropWhile_not (· != 0) text
      rw [hhead] at this
      exact absurd this (by decide)
    · rw [List.dropWhile_eq_nil_iff]
      simp only [bne_iff_ne, ne_eq]
      exact ⟨fun h h0 => h 0 h0 rfl, fun h x hx hx0 => h (hx0 ▸ hx)⟩
  by_cases hcr : line.getLast? = some carriageReturn
  · obtain ⟨init, rfl⟩ := List.getLast?_eq_some_iff.mp hcr
    have hstrip : stripCr (init ++ [carriageReturn]) = init := by
      rw [stripCr, if_pos hcr, List.dropLast_concat]
    refine ⟨init.dropWhile (· != 0) ++ [carriageReturn], ?_, ?_, ?_⟩
    · rw [hstrip, ← List.append_assoc, List.takeWhile_append_dropWhile]
    · cases hd : init.dropWhile (· != 0) with
      | nil => simp [carriageReturn, backslash]
      | cons x xs => simpa [hd] using (hcut init).1
    · simp
  · have hstrip : stripCr line = line := if_neg hcr
    rw [hstrip]
    exact ⟨line.dropWhile (· != 0), List.takeWhile_append_dropWhile.symm, (hcut line).1,
      (hcut line).2.trans ⟨fun h => ⟨hcr, h⟩, And.right⟩⟩

/-- **The lines that fuse** are those a save would write. -/
theorem lineFuses_iff {line : List UInt8} (hnl : newline ∉ line) :
    lineFuses line = true ↔ escape (decodeLine line) = line := by
  obtain ⟨r, hline, hhead, hr⟩ := line_split line
  have hsub : ∀ {b}, b ∈ (stripCr line).takeWhile (· != 0) → b ∈ stripCr line :=
    fun hb => (List.takeWhile_sublist _).subset hb
  have hdecode : decodeLine line = decodeRuns ((stripCr line).takeWhile (· != 0)) := by
    unfold decodeLine
    dsimp only
    split
    · rfl
    · rename_i hno
      exact (decodeRuns_of_notMem fun hb => hno (hsub hb)).symm
  have hfuses : lineFuses line = true ↔
      runsCanonical ((stripCr line).takeWhile (· != 0)) = true ∧ r = [] := by
    unfold lineFuses
    rw [hr]
    dsimp only
    split
    · simp
      tauto
    · rename_i hno
      simp [runsCanonical_of_notMem fun hb => hno (hsub hb)]
  have hnl' : newline ∉ (stripCr line).takeWhile (· != 0) := fun h =>
    hnl ((stripCr_sublist line).subset (hsub h))
  rw [hfuses, ← escape_decodeRuns_iff hnl' hhead, ← hline, hdecode]

theorem newline_notMem_splitLines {cur bytes : List UInt8} (hcur : newline ∉ cur) :
    ∀ line ∈ splitLines cur bytes, newline ∉ line := by
  induction bytes generalizing cur with
  | nil =>
    unfold splitLines
    split
    · exact fun line h => absurd h List.not_mem_nil
    · exact fun line h => List.mem_singleton.mp h ▸ hcur
  | cons b bytes ih =>
    unfold splitLines
    split
    · intro line h
      rcases List.mem_cons.mp h with rfl | h
      · exact hcur
      · exact ih List.not_mem_nil line h
    · rename_i hb
      exact ih (by simpa [hcur] using fun h : newline = b => hb h.symm)

/-- The lines are the file. -/
theorem flatMap_splitLines {cur bytes : List UInt8} (hcur : newline ∉ cur) :
    (splitLines cur bytes).flatMap (· ++ [newline]) = closed (cur ++ bytes) := by
  induction bytes generalizing cur with
  | nil =>
    unfold splitLines closed
    rw [List.append_nil]
    by_cases hnil : cur = []
    · simp [hnil]
    · have hlast : cur.getLast? ≠ some newline := fun h => hcur (List.mem_of_getLast? h)
      simp [hnil, hlast]
  | cons b bytes ih =>
    unfold splitLines
    split
    · rename_i hb
      subst hb
      rw [List.flatMap_cons, ih List.not_mem_nil, List.nil_append]
      unfold closed
      by_cases hnil : bytes = []
      · simp [hnil]
      · obtain ⟨init, last, rfl⟩ := (List.eq_nil_or_concat' bytes).resolve_left hnil
        have hlast : (cur ++ newline :: (init ++ [last])).getLast? = some last := by
          rw [← List.cons_append, ← List.append_assoc, List.getLast?_append]
          simp
        rw [hlast]
        by_cases hl : last = newline <;> simp [hl]
    · rename_i hb
      have hcur' : newline ∉ cur ++ [b] := by
        simpa [hcur] using fun h : newline = b => hb h.symm
      rw [ih hcur', List.append_assoc, List.singleton_append]

theorem splitLines_flatMap {lines : List (List UInt8)} (h : ∀ line ∈ lines, newline ∉ line) :
    splitLines [] (lines.flatMap (· ++ [newline])) = lines := by
  induction lines with
  | nil => rfl
  | cons line lines ih =>
    have hcons : (line :: lines).flatMap (· ++ [newline]) =
        line ++ newline :: lines.flatMap (· ++ [newline]) := by simp
    rw [hcons, splitLines_line (h line (List.mem_cons_self ..)), List.nil_append,
      ih fun l hl => h l (List.mem_cons_of_mem _ hl)]

/-- **A file fuses when a save would write it**, up to the newline at its end. -/
theorem fuses_iff (bytes : List UInt8) :
    fuses bytes = true ↔ closed bytes = writeSymbols (loadSymbols bytes) := by
  have hnl : ∀ line ∈ splitLines [] bytes, newline ∉ line :=
    newline_notMem_splitLines List.not_mem_nil
  have hlines : closed bytes = (splitLines [] bytes).flatMap (· ++ [newline]) :=
    (flatMap_splitLines List.not_mem_nil).symm
  have hwrite : writeSymbols (loadSymbols bytes) =
      ((splitLines [] bytes).map fun line => escape (decodeLine line)).flatMap (· ++ [newline]) := by
    simp [writeSymbols, loadSymbols, List.flatMap_map]
  have hall : fuses bytes = true ↔ ∀ line ∈ splitLines [] bytes, escape (decodeLine line) = line := by
    rw [fuses, List.all_eq_true]
    exact forall₂_congr fun line hline => lineFuses_iff (hnl line hline)
  rw [hall, hlines, hwrite]
  constructor
  · intro h
    congr 1
    conv_lhs => rw [← List.map_id (splitLines [] bytes)]
    exact List.map_congr_left fun line hline => (h line hline).symm
  · intro h line hline
    have hsplit := congrArg (splitLines []) h
    rw [splitLines_flatMap hnl, splitLines_flatMap] at hsplit
    · rw [← List.map_id (splitLines [] bytes), List.map_map] at hsplit
      exact (List.map_inj_left.mp hsplit line hline).symm
    · intro l hl
      obtain ⟨x, -, rfl⟩ := List.mem_map.mp hl
      exact newline_notMem_escape _

/-! ## What was fed -/

/-- Both hashes were fed these bytes. -/
structure SymFed (h : SymHash H) (bytes : List UInt8) : Prop where
  /-- The first. -/
  a : H.Fed 0 h.a bytes
  /-- The second. -/
  b : H.Fed seedB h.b bytes

theorem symFed_init : SymFed (SymHash.init H) [] := ⟨StreamHash.fed_init, StreamHash.fed_init⟩

theorem SymFed.feed {h : SymHash H} {bytes : List UInt8} (hf : SymFed h bytes)
    (piece : List UInt8) : SymFed (h.feed piece) (bytes ++ piece) :=
  ⟨hf.a.update piece, hf.b.update piece⟩

theorem SymFed.foldl {h : SymHash H} {bytes : List UInt8} (hf : SymFed h bytes)
    (pieces : List (List UInt8)) : SymFed (pieces.foldl SymHash.feed h) (bytes ++ pieces.flatten) := by
  induction pieces generalizing h bytes with
  | nil => rwa [List.flatten_nil, List.append_nil]
  | cons piece pieces ih =>
    rw [List.foldl_cons, List.flatten_cons, ← List.append_assoc]
    exact ih (hf.feed piece)

theorem flatten_escapePuts (run s : Str) : (escapePuts run s).flatten = run ++ escape s := by
  have hrun : ∀ run : Str, (if run = [] then [] else [run]).flatten = run := by
    intro run
    split
    · rename_i h
      rw [h, List.flatten_nil]
    · exact List.flatten_singleton
  induction s generalizing run with
  | nil => rw [escapePuts, hrun, escape, List.append_nil]
  | cons b s ih =>
    rw [escapePuts, escape]
    by_cases hb : b = backslash
    · rw [if_pos (.inl hb), if_pos hb, if_pos hb, List.flatten_append, List.flatten_cons, hrun, ih]
      rfl
    · by_cases hn : b = newline
      · rw [if_pos (.inr hn), if_neg hb, if_neg hb, if_pos hn, List.flatten_append,
          List.flatten_cons, hrun, ih]
        rfl
      · rw [if_neg (not_or.mpr ⟨hb, hn⟩), if_neg hb, if_neg hn, ih, List.append_assoc,
          List.singleton_append]

/-- The pieces are what a save writes. -/
theorem flatten_symbolPuts (symbols : List Str) :
    (symbolPuts symbols).flatten = writeSymbols symbols := by
  unfold symbolPuts writeSymbols
  induction symbols with
  | nil => rfl
  | cons s symbols ih =>
    rw [List.flatMap_cons, List.flatMap_cons, List.flatten_append, ih, List.flatten_append,
      flatten_escapePuts, List.flatten_singleton, List.nil_append]

theorem SymFed.directFeed {h : SymHash H} {bytes : List UInt8} (hf : SymFed h bytes)
    (symbols : List Str) : SymFed (directFeed h symbols) (bytes ++ writeSymbols symbols) := by
  rw [← flatten_symbolPuts]
  exact hf.foldl _

theorem SymFed.stagedFeed {h : SymHash H} {bytes : List UInt8} (hf : SymFed h bytes)
    (symbols : List Str) : SymFed (stagedFeed h symbols) (bytes ++ writeSymbols symbols) := by
  have hsent := Staging.sent_flush_foldl hashSinkRoom .empty (symbolPuts symbols)
  rw [Staging.all_empty, List.nil_append, flatten_symbolPuts] at hsent
  rw [← hsent]
  exact hf.foldl _

/-! ## The room for the symbols -/

/-- The room is a power of two, and is not more than there can be. -/
def RoomOk (cap : ℕ) : Prop := ∃ j ≤ 31, cap = 2 ^ j

/-- One more symbol has room until there are too many. -/
theorem growRev_room {cap id : ℕ} (hcap : RoomOk cap) (hle : id ≤ cap + 1) :
    (id ≤ maxStrings → ∃ cap', growRev cap id = some cap' ∧ RoomOk cap' ∧ id ≤ cap') ∧
      (maxStrings < id → growRev cap id = none) := by
  obtain ⟨j, hj, rfl⟩ := hcap
  have hmax : maxStrings = 2 ^ 31 := rfl
  unfold growRev
  constructor
  · intro hfew
    by_cases hlt : 2 ^ j < id
    · have hj' : j < 31 := by
        by_contra hge
        have : j = 31 := by omega
        rw [this] at hlt
        omega
      have hpow : 2 ^ (j + 1) < 2 ^ 32 := Nat.pow_lt_pow_right (by decide) (by omega)
      have hdouble : 2 ^ j * 2 % 2 ^ 32 = 2 ^ (j + 1) := by
        rw [← pow_succ, Nat.mod_eq_of_lt hpow]
      have hpos : 0 < 2 ^ j := by positivity
      have hroom : ¬ 2 ^ (j + 1) < id := by rw [pow_succ]; omega
      rw [if_pos hlt]
      dsimp only
      rw [hdouble, if_neg hroom, if_neg hroom]
      exact ⟨_, rfl, ⟨j + 1, by omega, rfl⟩, by omega⟩
    · exact ⟨_, if_neg hlt, ⟨j, hj, rfl⟩, by omega⟩
  · intro hmany
    have hpow : 2 ^ j ≤ 2 ^ 31 := Nat.pow_le_pow_right (by decide) hj
    have hcap : 2 ^ j = 2 ^ 31 := by omega
    obtain rfl : id = 2 ^ 31 + 1 := by omega
    rw [hcap]
    decide

/-- The symbols of a file have room unless there are too many. -/
theorem growAll_room (n : ℕ) :
    (n ≤ maxStrings → ∃ cap, (List.range n).foldlM (fun cap i => growRev cap (i + 1))
        internRevInitCap = some cap ∧ RoomOk cap ∧ n ≤ cap) ∧
      (maxStrings < n → (List.range n).foldlM (fun cap i => growRev cap (i + 1))
        internRevInitCap = none) := by
  induction n with
  | zero => exact ⟨fun _ => ⟨_, rfl, ⟨8, by decide, rfl⟩, Nat.zero_le _⟩, fun h => absurd h (Nat.not_lt_zero _)⟩
  | succ n ih =>
    have hstep : (List.range (n + 1)).foldlM (fun cap i => growRev cap (i + 1)) internRevInitCap =
        ((List.range n).foldlM (fun cap i => growRev cap (i + 1)) internRevInitCap).bind
          fun cap => growRev cap (n + 1) := by
      rw [List.range_succ, List.foldlM_append]
      simp
    rw [hstep]
    by_cases hn : n ≤ maxStrings
    · obtain ⟨cap, hcap, hroom, hle⟩ := ih.1 hn
      rw [hcap]
      exact growRev_room hroom (by omega)
    · rw [ih.2 (by omega)]
      exact ⟨fun h => absurd h (by omega), fun _ => rfl⟩

/-- A table without an automaton, with room for its symbols. -/
structure Roomy (s : Interner) : Prop where
  /-- There is no automaton. -/
  fwd : s.fwd = none
  /-- There is room. -/
  room : s.rev.length ≤ s.revCap
  /-- The room. -/
  cap : RoomOk s.revCap

theorem roomy_empty : Roomy (.empty none) :=
  ⟨rfl, Nat.zero_le _, 8, by decide, rfl⟩

/-- A record of a file does not change the table. -/
theorem rememberSavedAt_table (s : Interner) (fs : Fs) (path : Path) (expect : Option ℕ) :
    (rememberSavedAt s fs path expect).rev = s.rev ∧
      (Roomy s → Roomy (rememberSavedAt s fs path expect)) := by
  unfold rememberSavedAt
  split
  · exact ⟨rfl, id⟩
  · split
    · exact ⟨rfl, id⟩
    · split
      · exact ⟨rfl, id⟩
      · exact ⟨rfl, fun h => ⟨h.fwd, h.room, h.cap⟩⟩

/-- A loaded table. -/
theorem internLoad_table (fs : Fs) (path : Path) :
    ((loadSymbols (contents fs path)).length ≤ maxStrings →
      ∃ s, internLoad fs path = some s ∧ s.rev = loadSymbols (contents fs path) ∧ Roomy s) ∧
    (maxStrings < (loadSymbols (contents fs path)).length → internLoad fs path = none) := by
  unfold internLoad contents
  cases fs.files path with
  | none => exact ⟨fun _ => ⟨_, rfl, rfl, roomy_empty⟩, fun h => absurd h (Nat.not_lt_zero _)⟩
  | some f =>
    rw [Option.map_some, Option.getD_some]
    dsimp only
    by_cases hnil : f.bytes = []
    · obtain ⟨hrev, hroomy⟩ := rememberSavedAt_table (.empty none) fs path (some 0)
      rw [if_pos hnil, hnil]
      exact ⟨fun _ => ⟨_, rfl, hrev, hroomy roomy_empty⟩, fun h => absurd h (Nat.not_lt_zero _)⟩
    · rw [if_neg hnil]
      obtain ⟨hfew, hmany⟩ := growAll_room (loadSymbols f.bytes).length
      refine ⟨fun h => ?_, fun h => by rw [hmany h]⟩
      obtain ⟨cap, hcap, hroom, hle⟩ := hfew h
      rw [hcap]
      have hloaded : Roomy { Interner.empty none with rev := loadSymbols f.bytes, revCap := cap } :=
        ⟨rfl, hle, hroom⟩
      dsimp only
      split
      · obtain ⟨hrev, hroomy⟩ := rememberSavedAt_table
          { Interner.empty none with rev := loadSymbols f.bytes, revCap := cap } fs path
          (some f.bytes.length)
        exact ⟨_, rfl, hrev, hroomy hloaded⟩
      · exact ⟨_, rfl, rfl, hloaded⟩

/-- A symbol that is there, or too long, changes nothing; a new one is put at the end, if it
has room. -/
theorem internStr_table {s : Interner} (hs : Roomy s) (enum : Enum) (str : Str) :
    (str ∈ s.rev ∨ TooLong str → ∃ s' id, internStr enum s str = some (s', id) ∧
        s'.rev = s.rev ∧ Roomy s') ∧
      (¬ (str ∈ s.rev ∨ TooLong str) →
        (s.rev.length < maxStrings → ∃ s', internStr enum s str = some (s', s.rev.length + 1) ∧
          s'.rev = s.rev ++ [str] ∧ Roomy s') ∧
        (maxStrings ≤ s.rev.length → internStr enum s str = none)) := by
  have hlookup : lookup enum s str = number s.rev str := by
    unfold Intern.lookup
    rw [hs.fwd, List.take_of_length_le hs.room]
    exact scan_eq_number s.rev str
  unfold internStr
  dsimp only
  rw [hlookup]
  by_cases hmem : str ∈ s.rev
  · rw [if_pos fun h0 => number_eq_zero.mp h0 hmem]
    exact ⟨fun _ => ⟨s, _, rfl, rfl, hs⟩, fun h => absurd (.inl hmem) h⟩
  rw [if_neg (by rw [not_not]; exact number_eq_zero.mpr hmem)]
  by_cases hlong : TooLong str
  · rw [if_pos (show maxWordLen < _ from hlong)]
    exact ⟨fun _ => ⟨_, _, rfl, rfl, hs.fwd, hs.room, hs.cap⟩, fun h => absurd (.inr hlong) h⟩
  rw [if_neg (show ¬ maxWordLen < _ from hlong)]
  refine ⟨fun h => absurd h (not_or.mpr ⟨hmem, hlong⟩), fun _ => ?_⟩
  have hnext : s.nextId = s.rev.length + 1 := rfl
  obtain ⟨hfew, hmany⟩ := @growRev_room s.revCap s.nextId hs.cap (by have := hs.room; omega)
  constructor
  · intro hlt
    obtain ⟨cap, hgrow, hroom, hle⟩ := hfew (by omega)
    rw [hgrow]
    refine ⟨_, rfl, rfl, ?_, ?_, hroom⟩
    · simp [hs.fwd]
    · rw [List.length_append, List.length_singleton]
      exact hle
  · intro hge
    rw [hmany (by omega)]

/-! ## Runs -/

/-- The table after a call. -/
def stampTable (table : List Str) : StampCall → List Str
  | .internStr str => if str ∈ table ∨ TooLong str then table else table ++ [str]
  | .symStamp => table

/-- The table after calls on what a file holds. -/
def tableOf (bytes : List UInt8) (calls : List StampCall) : List Str :=
  calls.foldl stampTable (loadSymbols bytes)

variable (H) in
/-- The stamp of a table, from scratch. -/
def scratchStamp (table : List Str) : SymStamp :=
  ⟨table.length, H.hash 0 (writeSymbols table), H.hash seedB (writeSymbols table)⟩

/-- The hash is that of the first symbols. -/
structure StampOk (s : Stamped H) : Prop where
  /-- The table. -/
  table : Roomy s.ir
  /-- No more symbols were fed than there are. -/
  le : s.symHashed ≤ s.ir.rev.length
  /-- What was fed. -/
  fed : SymFed s.symHash (writeSymbols (s.ir.rev.take s.symHashed))

/-- Loading keeps the hash of a file that a save would write, and drops any other. -/
theorem loadImpl_spec (fs : Fs) (path : Path) :
    ((loadSymbols (contents fs path)).length ≤ maxStrings →
      ∃ s, loadImpl H fs path = some s ∧ s.ir.rev = loadSymbols (contents fs path) ∧ StampOk s ∧
        s.symHashed = if fuses (contents fs path) then s.ir.rev.length else 0) ∧
    (maxStrings < (loadSymbols (contents fs path)).length → loadImpl H fs path = none) := by
  obtain ⟨hfew, hmany⟩ := internLoad_table fs path
  refine ⟨fun h => ?_, fun h => by rw [loadImpl, hmany h]⟩
  obtain ⟨ir, hload, hrev, hroomy⟩ := hfew h
  have hzero : StampOk (⟨ir, .init H, 0⟩ : Stamped H) :=
    ⟨hroomy, Nat.zero_le _, symFed_init⟩
  rw [loadImpl, hload]
  dsimp only
  have hcontents : contents fs path = ((fs.files path).map (·.bytes)).getD [] := rfl
  cases hf : fs.files path with
  | none =>
    rw [hf, Option.map_none, Option.getD_none] at hcontents
    rw [hcontents] at hrev ⊢
    exact ⟨_, rfl, hrev, hzero, by rw [hrev]; rfl⟩
  | some f =>
    rw [hf, Option.map_some, Option.getD_some] at hcontents
    rw [hcontents] at hrev ⊢
    dsimp only
    by_cases hnil : f.bytes = []
    · rw [if_pos hnil]
      rw [hnil] at hrev ⊢
      exact ⟨_, rfl, hrev, hzero, by rw [hrev]; rfl⟩
    rw [if_neg hnil]
    by_cases hfuse : fuses f.bytes = true
    · rw [if_pos hfuse]
      refine ⟨_, rfl, hrev, ⟨hroomy, le_rfl, ?_⟩, (if_pos hfuse).symm⟩
      have hclosed := (fuses_iff f.bytes).mp hfuse
      have hfed := (symFed_init (H := H)).feed f.bytes
      show SymFed _ (writeSymbols (ir.rev.take ir.rev.length))
      rw [List.take_length, hrev, ← hclosed, closed]
      by_cases hend : f.bytes.getLast? = some newline
      · rw [if_pos hend, if_pos (.inr hend)]
        exact hfed
      · rw [if_neg hend, if_neg (not_or.mpr ⟨hnil, hend⟩)]
        exact hfed.feed [newline]
    · rw [if_neg hfuse]
      exact ⟨_, rfl, hrev, hzero, (if_neg hfuse).symm⟩

/-- A stamp changes the hash only, and is that of the table. -/
theorem symStamp_spec {s : Stamped H} (hs : StampOk s) :
    (symStamp s).1.ir = s.ir ∧ StampOk (symStamp s).1 ∧ (symStamp s).2 = scratchStamp H s.ir.rev := by
  have hnext : s.ir.nextId = s.ir.rev.length + 1 := rfl
  have hsplit : writeSymbols (s.ir.rev.take s.symHashed) ++
      writeSymbols (s.ir.rev.drop s.symHashed) = writeSymbols s.ir.rev := by
    rw [← writeSymbols_append, List.take_append_drop]
  have hstamp : ∀ {h : SymHash H}, SymFed h (writeSymbols s.ir.rev) →
      (⟨s.ir.nextId - 1, H.final h.a, H.final h.b⟩ : SymStamp) = scratchStamp H s.ir.rev :=
    fun hfed => by rw [hfed.a.final_eq, hfed.b.final_eq]; rfl
  unfold symStamp
  by_cases hbehind : s.symHashed + 1 < s.ir.nextId
  · rw [if_pos hbehind]
    have hfed := hs.fed.stagedFeed (s.ir.rev.drop s.symHashed)
    rw [hsplit] at hfed
    refine ⟨rfl, ⟨hs.table, le_rfl, ?_⟩, hstamp hfed⟩
    show SymFed _ (writeSymbols (s.ir.rev.take s.ir.rev.length))
    rwa [List.take_length]
  · rw [if_neg hbehind]
    have hall : s.ir.rev.take s.symHashed = s.ir.rev := List.take_of_length_le (by omega)
    have hfed := hs.fed
    rw [hall] at hfed
    exact ⟨rfl, hs, hstamp hfed⟩

/-- **A call** makes the table it is for, unless there is no room. -/
theorem stampStep_spec (enum : Enum) {s : Stamped H} (hs : StampOk s) (call : StampCall)
    (hfew : s.ir.rev.length ≤ maxStrings) :
    ((stampTable s.ir.rev call).length ≤ maxStrings → ∃ s', stampStep enum s call = some s' ∧
        s'.ir.rev = stampTable s.ir.rev call ∧ StampOk s') ∧
      (maxStrings < (stampTable s.ir.rev call).length → stampStep enum s call = none) := by
  cases call with
  | symStamp =>
    obtain ⟨hir, hok, -⟩ := symStamp_spec hs
    exact ⟨fun _ => ⟨_, rfl, congrArg _ hir, hok⟩, fun h => absurd hfew (not_le.mpr h)⟩
  | internStr str =>
    obtain ⟨hold, hnew⟩ := internStr_table hs.table enum str
    unfold stampStep stampTable internStrStamped
    dsimp only
    by_cases hsame : str ∈ s.ir.rev ∨ TooLong str
    · rw [if_pos hsame]
      obtain ⟨s', id, hcall, hrev, hroomy⟩ := hold hsame
      refine ⟨fun _ => ?_, fun h => absurd hfew (not_le.mpr h)⟩
      rw [hcall]
      dsimp only
      rw [if_pos (by rw [Interner.nextId, hrev]; rfl)]
      exact ⟨_, rfl, hrev, hroomy, hrev ▸ hs.le, hrev ▸ hs.fed⟩
    · rw [if_neg hsame, List.length_append, List.length_singleton]
      obtain ⟨hroom, hfull⟩ := hnew hsame
      refine ⟨fun h => ?_, fun h => by rw [hfull (by omega)]⟩
      obtain ⟨s', hcall, hrev, hroomy⟩ := hroom (by omega)
      have hlen : s'.rev.length = s.ir.rev.length + 1 := by
        rw [hrev, List.length_append, List.length_singleton]
      rw [hcall]
      dsimp only
      rw [if_neg (by rw [Interner.nextId, Interner.nextId, hlen]; omega), Nat.add_sub_cancel]
      by_cases hcaught : s.symHashed = s.ir.rev.length
      · rw [if_pos hcaught]
        refine ⟨_, rfl, hrev, hroomy, hlen.ge, ?_⟩
        have hfed := hs.fed.directFeed [str]
        rw [hcaught, List.take_length, ← writeSymbols_append, ← hrev] at hfed
        show SymFed _ (writeSymbols (s'.rev.take (s.ir.rev.length + 1)))
        rwa [← hlen, List.take_length]
      · rw [if_neg hcaught]
        have hle := hs.le
        refine ⟨_, rfl, hrev, hroomy, by rw [hlen]; exact hle.trans (Nat.le_succ _), ?_⟩
        show SymFed s.symHash (writeSymbols (s'.rev.take s.symHashed))
        rw [hrev, List.take_append_of_le_length hle]
        exact hs.fed

theorem length_le_foldl_stampTable (table : List Str) (calls : List StampCall) :
    table.length ≤ (calls.foldl stampTable table).length := by
  induction calls generalizing table with
  | nil => exact le_rfl
  | cons call calls ih =>
    refine le_trans ?_ (ih _)
    cases call with
    | symStamp => exact le_rfl
    | internStr str =>
      rw [stampTable]
      split
      · rfl
      · rw [List.length_append]
        exact Nat.le_add_right _ _

/-- **So does a run.** -/
theorem stampRun_spec (enum : Enum) {s : Stamped H} (hs : StampOk s) (calls : List StampCall)
    (hfew : s.ir.rev.length ≤ maxStrings) :
    ((calls.foldl stampTable s.ir.rev).length ≤ maxStrings → ∃ s', stampRun enum s calls = some s' ∧
        s'.ir.rev = calls.foldl stampTable s.ir.rev ∧ StampOk s') ∧
      (maxStrings < (calls.foldl stampTable s.ir.rev).length → stampRun enum s calls = none) := by
  induction calls generalizing s with
  | nil => exact ⟨fun _ => ⟨s, rfl, rfl, hs⟩, fun h => absurd hfew (not_le.mpr h)⟩
  | cons call calls ih =>
    obtain ⟨hroom, hfull⟩ := stampStep_spec enum hs call hfew
    have hle := length_le_foldl_stampTable (stampTable s.ir.rev call) calls
    unfold stampRun at ih ⊢
    rw [List.foldlM_cons, List.foldl_cons]
    by_cases hmany : maxStrings < (stampTable s.ir.rev call).length
    · rw [hfull hmany]
      exact ⟨fun h => absurd (hle.trans h) (not_le.mpr hmany), fun _ => rfl⟩
    · obtain ⟨s₁, hstep, hrev, hok⟩ := hroom (not_lt.mp hmany)
      rw [hstep, ← hrev]
      exact ih hok (hrev ▸ not_lt.mp hmany)

variable (H) in
/-- What is asked of a stamp after calls on a loaded file: the calls return, the stamp is
the one from scratch, and the hash of the loading was kept exactly when a save would write
the file, up to a missing newline at its end. -/
def Stamps (enum : Enum) (fs : Fs) (path : Path) (calls : List StampCall) : Prop :=
  ∃ s₀ s, loadImpl H fs path = some s₀ ∧ stampRun enum s₀ calls = some s ∧
    s.ir.rev = tableOf (contents fs path) calls ∧ (symStamp s).2 = scratchStamp H s.ir.rev ∧
    s₀.symHashed = if closed (contents fs path) = writeSymbols (loadSymbols (contents fs path))
      then s₀.ir.rev.length else 0

/-- **A stamp is the one from scratch** exactly when there are not more symbols than there
is room for. -/
theorem stamps_iff (H : StreamHash) (enum : Enum) (fs : Fs) (path : Path)
    (calls : List StampCall) :
    Stamps H enum fs path calls ↔ (tableOf (contents fs path) calls).length ≤ 2 ^ 31 := by
  obtain ⟨hload, hfull⟩ := loadImpl_spec (H := H) fs path
  have hle := length_le_foldl_stampTable (loadSymbols (contents fs path)) calls
  constructor
  · rintro ⟨s₀, s, hs₀, hrun, -⟩
    by_contra hmany
    by_cases hmany₀ : maxStrings < (loadSymbols (contents fs path)).length
    · rw [hfull hmany₀] at hs₀
      cases hs₀
    · obtain ⟨s₁, hs₁, hrev, hok, -⟩ := hload (not_lt.mp hmany₀)
      obtain rfl : s₀ = s₁ := Option.some.inj (hs₀.symm.trans hs₁)
      have hnone := (stampRun_spec enum hok calls (hrev ▸ not_lt.mp hmany₀)).2
        (hrev ▸ not_le.mp hmany)
      rw [hnone] at hrun
      cases hrun
  · intro hfew
    obtain ⟨s₀, hs₀, hrev, hok, hkept⟩ := hload (hle.trans hfew)
    obtain ⟨s, hrun, hrev', hok'⟩ := (stampRun_spec enum hok calls (hrev ▸ hle.trans hfew)).1
      (hrev ▸ hfew)
    refine ⟨s₀, s, hs₀, hrun, by rw [hrev', hrev]; rfl, (symStamp_spec hok').2.2, ?_⟩
    rw [hkept]
    exact if_congr (fuses_iff _) rfl rfl

/-- A hash that keeps its seed and what it was fed. -/
def sampleHash : StreamHash where
  State := UInt64 × List UInt8
  init seed := (seed, [])
  update s bytes := (s.1, s.2 ++ bytes)
  final s := s.2.foldl (fun h b => h * 31 + b.toUInt64) s.1
  final_foldl seed pieces := by
    have hfold : ∀ s : UInt64 × List UInt8, pieces.foldl (fun s bytes => (s.1, s.2 ++ bytes)) s =
        (s.1, s.2 ++ pieces.flatten) := by
      induction pieces with
      | nil => exact fun s => by simp
      | cons piece pieces ih => exact fun s => by simp [ih]
    rw [hfold]

/-- A file of `2 ^ 31 + 1` empty lines cannot be loaded: the room for its symbols wraps. -/
theorem not_stamps_newlines :
    ¬ Stamps sampleHash (fun _ _ => [])
      ⟨fun _ => some ⟨List.replicate (2 ^ 31 + 1) newline, 0⟩, 1⟩ [115] [] := by
  have hlines : ∀ n, (loadSymbols (List.replicate n newline)).length = n := by
    intro n
    induction n with
    | zero => rfl
    | succ n ih =>
      rw [List.replicate_succ, loadSymbols, splitLines, if_pos rfl, List.map_cons,
        List.length_cons]
      exact congrArg (· + 1) ih
  rintro ⟨s₀, s, hs₀, -⟩
  rw [(loadImpl_spec _ _).2 (by
    show maxStrings < (loadSymbols (List.replicate (2 ^ 31 + 1) newline)).length
    rw [hlines]
    exact Nat.lt_succ_self _)] at hs₀
  cases hs₀

end DatalogDafsa.Intern
