import Mathlib

/-!
# The file of the symbols

`symbols.array` holds a symbol in each line, newlines and backslashes escaped.  Reading
it back drops one carriage return at the end of a line.

## Main definitions

* `writeSymbols` — what `writeSymbolsTo` writes.
* `decodeRuns`, `decodeLine`, `loadSymbols` — the pass of `Splitter`.
* `loadSymbols_writeSymbols` — what is read back.
-/

namespace DatalogDafsa.Intern

/-- A string, without its NUL. -/
abbrev Str := List UInt8

instance : LawfulBEq Str := inferInstance

/-- A backslash. -/
def backslash : UInt8 := 92

/-- A newline. -/
def newline : UInt8 := 10

/-- A carriage return. -/
def carriageReturn : UInt8 := 13

/-- The byte that stands for a newline behind a backslash. -/
def letterN : UInt8 := 110

/-! ## Writing -/

/-- The text of a symbol, escaped. -/
def escape : Str → Str
  | [] => []
  | b :: s =>
    if b = backslash then backslash :: backslash :: escape s
    else if b = newline then backslash :: letterN :: escape s
    else b :: escape s

/-- `writeSymbolsTo`, on the symbols it writes. -/
def writeSymbols (symbols : List Str) : List UInt8 :=
  symbols.flatMap fun s => escape s ++ [newline]

/-! ## Reading -/

/-- `decodeRuns`, up to the first NUL; clean runs are copied whole. -/
def decodeRuns : List UInt8 → Str
  | [] => []
  | [b] => [b]
  | b :: c :: s =>
    if b = backslash ∧ c = letterN then newline :: decodeRuns s
    else if b = backslash ∧ c = backslash then backslash :: decodeRuns s
    else b :: decodeRuns (c :: s)

/-- One trailing carriage return is dropped. -/
def stripCr (line : List UInt8) : List UInt8 :=
  if line.getLast? = some carriageReturn then line.dropLast else line

/-- `Splitter.one`. -/
def decodeLine (line : List UInt8) : Str :=
  let text := (stripCr line).takeWhile (· != 0)
  if backslash ∈ stripCr line then decodeRuns text else text

/-- `Splitter.run` and `Splitter.finish`: the lines, of which the last may not be
complete. -/
def splitLines : List UInt8 → List UInt8 → List (List UInt8)
  | cur, [] => if cur = [] then [] else [cur]
  | cur, b :: s => if b = newline then cur :: splitLines [] s else splitLines (cur ++ [b]) s

/-- The symbols of a file. -/
def loadSymbols (bytes : List UInt8) : List Str := (splitLines [] bytes).map decodeLine

/-! ## What is read back -/

theorem writeSymbols_append (xs ys : List Str) :
    writeSymbols (xs ++ ys) = writeSymbols xs ++ writeSymbols ys := List.flatMap_append

theorem newline_notMem_escape (s : Str) : newline ∉ escape s := by
  induction s with
  | nil => exact List.not_mem_nil
  | cons b s ih =>
    unfold escape
    split_ifs with hb hn
    · simp only [List.mem_cons, not_or]
      exact ⟨by decide, by decide, ih⟩
    · simp only [List.mem_cons, not_or]
      exact ⟨by decide, by decide, ih⟩
    · simp only [List.mem_cons, not_or]
      exact ⟨fun h => hn h.symm, ih⟩

theorem zero_notMem_escape {s : Str} (h : 0 ∉ s) : 0 ∉ escape s := by
  induction s with
  | nil => exact List.not_mem_nil
  | cons b s ih =>
    rw [List.mem_cons, not_or] at h
    have ih := ih h.2
    unfold escape
    split_ifs
    · simp only [List.mem_cons, not_or]
      exact ⟨by decide, by decide, ih⟩
    · simp only [List.mem_cons, not_or]
      exact ⟨by decide, by decide, ih⟩
    · exact List.not_mem_cons_of_ne_of_not_mem h.1 ih

/-- **Decoding undoes the escapes.** -/
theorem decodeRuns_escape (s : Str) : decodeRuns (escape s) = s := by
  induction s with
  | nil => rfl
  | cons b s ih =>
    unfold escape
    split_ifs with hb hn
    · subst hb
      rw [decodeRuns, if_neg (by decide), if_pos ⟨rfl, rfl⟩, ih]
    · subst hn
      rw [decodeRuns, if_pos ⟨rfl, rfl⟩, ih]
    · cases hs : escape s with
      | nil =>
        rw [hs] at ih
        rw [decodeRuns, ← ih]
        rfl
      | cons c t =>
        rw [decodeRuns, if_neg fun h => hb h.1, if_neg fun h => hb h.1, ← hs, ih]

theorem escape_append (s t : Str) : escape (s ++ t) = escape s ++ escape t := by
  induction s with
  | nil => rfl
  | cons b s ih =>
    rw [List.cons_append, escape, escape, ih]
    split_ifs <;> rfl

/-- Escaping keeps a carriage return at the end, and makes none. -/
theorem stripCr_escape (s : Str) : stripCr (escape s) = escape (stripCr s) := by
  induction s using List.reverseRecOn with
  | nil => rfl
  | append_singleton s b _ =>
    have hlast : (s ++ [b]).getLast? = some b := by simp
    unfold stripCr
    rw [hlast, escape_append]
    by_cases hb : b = carriageReturn
    · subst hb
      have hone : escape [carriageReturn] = [carriageReturn] := by decide
      rw [hone, if_pos (by simp), if_pos rfl, List.dropLast_concat, List.dropLast_concat]
    · have hne : (escape s ++ escape [b]).getLast? ≠ some carriageReturn := by
        unfold escape
        split_ifs with hslash hnl
        · simp [escape, backslash, carriageReturn]
        · simp [escape, letterN, carriageReturn]
        · simpa [escape] using hb
      rw [if_neg hne, if_neg (by simpa using hb), escape_append]

theorem takeWhile_of_zero_notMem {s : List UInt8} (h : 0 ∉ s) : s.takeWhile (· != 0) = s := by
  refine List.takeWhile_eq_self_iff.mpr fun b hb => ?_
  simp only [bne_iff_ne]
  rintro rfl
  exact h hb

theorem escape_of_backslash_notMem {s : Str} (h : backslash ∉ escape s) : escape s = s := by
  induction s with
  | nil => rfl
  | cons b s ih =>
    unfold escape at h ⊢
    split_ifs at h ⊢ with hb hn
    · exact absurd (List.mem_cons_self ..) h
    · exact absurd (List.mem_cons_self ..) h
    · rw [ih fun hs => h (List.mem_cons_of_mem _ hs)]

theorem stripCr_sublist (s : List UInt8) : (stripCr s).Sublist s := by
  unfold stripCr
  split_ifs
  · exact List.dropLast_sublist s
  · exact List.Sublist.refl s

/-- **A line that was written** is the symbol, without a carriage return at its end. -/
theorem decodeLine_escape {s : Str} (h : 0 ∉ s) : decodeLine (escape s) = stripCr s := by
  have hno : 0 ∉ stripCr s := fun h0 => h ((stripCr_sublist s).subset h0)
  unfold decodeLine
  dsimp only
  rw [stripCr_escape, takeWhile_of_zero_notMem (zero_notMem_escape hno)]
  split_ifs with hslash
  · exact decodeRuns_escape _
  · exact escape_of_backslash_notMem hslash

theorem splitLines_line {line : List UInt8} (h : newline ∉ line) (cur rest : List UInt8) :
    splitLines cur (line ++ newline :: rest) = (cur ++ line) :: splitLines [] rest := by
  induction line generalizing cur with
  | nil => rw [List.nil_append, splitLines, if_pos rfl, List.append_nil]
  | cons b line ih =>
    rw [List.mem_cons, not_or] at h
    rw [List.cons_append, splitLines, if_neg fun hb => h.1 hb.symm, ih h.2]
    simp

/-- **What is read back** is every symbol, without a carriage return at its end. -/
theorem loadSymbols_writeSymbols {symbols : List Str} (h : ∀ s ∈ symbols, 0 ∉ s) :
    loadSymbols (writeSymbols symbols) = symbols.map stripCr := by
  unfold loadSymbols
  induction symbols with
  | nil => rfl
  | cons s symbols ih =>
    have hcons : writeSymbols (s :: symbols) = escape s ++ newline :: writeSymbols symbols := by
      simp [writeSymbols]
    rw [hcons, splitLines_line (newline_notMem_escape s), List.nil_append, List.map_cons,
      decodeLine_escape (h s (List.mem_cons_self ..)),
      ih fun t ht => h t (List.mem_cons_of_mem _ ht), List.map_cons]

/-- A file that was written ends at a line boundary. -/
theorem getLast_writeSymbols {symbols : List Str} (h : symbols ≠ []) :
    (writeSymbols symbols).getLast? = some newline := by
  obtain ⟨init, s, rfl⟩ := (List.eq_nil_or_concat' symbols).resolve_left h
  simp [writeSymbols]

theorem writeSymbols_eq_nil {symbols : List Str} : writeSymbols symbols = [] ↔ symbols = [] := by
  constructor
  · intro h
    by_contra hne
    have := getLast_writeSymbols hne
    rw [h] at this
    cases this
  · rintro rfl
    rfl

end DatalogDafsa.Intern
