import DatalogDafsa.Catalog.Paths
import DatalogDafsa.Kinds.Check

/-!
# The text of `rels.txt`

The list of relations is kept as a text, a line for each: the name, the arity or a
star, the mark `edb` or `idb`, and when a kind is recorded a letter for each column.
The fields are separated by colons, and nothing is escaped: a name with a colon or a
line feed in it is read back as something else, an empty name not at all, and a name
is cut to 255 bytes.

## Main definitions

* `MetaLine`, `writeLine`, `writeRelsTxt` — an entry, its line, the text.
* `readLine`, `readRelsTxt` — the reader of `dlOpenCommon`.
* `GoodName`, `GoodLine` — what survives.

## Main results

* `readRelsTxt_writeRelsTxt` — reading gives back what was written.
-/

namespace DatalogDafsa.Catalog

open Kinds (Definite)

/-- One entry of the list. -/
structure MetaLine where
  /-- The name. -/
  name : Name
  /-- The arity, zero when variadic. -/
  arity : ℕ
  /-- The mark: is it `idb`? -/
  idb : Bool
  /-- The recorded kinds, one for each column of a fixed relation. -/
  kinds : List (Option Definite)
  deriving DecidableEq

/-! ## Writing -/

/-- The letter of a kind. -/
def kindLetter : Option Definite → Char
  | none => 'u'
  | some .int => 'n'
  | some .sym => 't'

/-- The mark. -/
def markText (idb : Bool) : List Char := if idb then ['i', 'd', 'b'] else ['e', 'd', 'b']

/-- The fields after the name. -/
def lineRest (m : MetaLine) : List Char :=
  if m.arity = 0 then '*' :: ':' :: markText m.idb
  else
    Nat.toDigits 10 m.arity ++ ':' :: markText m.idb ++
      if m.kinds.any Option.isSome then ':' :: m.kinds.map kindLetter else []

/-- A line, with its line feed. -/
def writeLine (m : MetaLine) : List Char := m.name ++ ':' :: lineRest m ++ ['\n']

/-- `writeRelsTxt`: the text. -/
def writeRelsTxt (ms : List MetaLine) : List Char := ms.flatMap writeLine

/-! ## Reading -/

/-- `getline`: the lines, each with its line feed. -/
def getLines : List Char → List (List Char)
  | [] => []
  | c :: s =>
    if c = '\n' then [c] :: getLines s
    else match getLines s with
      | [] => [[c]]
      | l :: ls => (c :: l) :: ls

/-- White space before a number. -/
def isCSpace (c : Char) : Bool := c = ' ' || ('\t' ≤ c && c ≤ '\r')

/-- `atoiC`, modulo `2 ^ 32`. -/
def atoiC (s : List Char) : UInt32 :=
  let s := s.dropWhile isCSpace
  let neg := s.head? = some '-'
  let s := if s.head? = some '+' ∨ s.head? = some '-' then s.tail else s
  let v := (s.takeWhile Char.isDigit).foldl (fun v c => v * 10 + (c.toNat - 48).toUInt32) 0
  if neg then 0 - v else v

/-- One trailing character is stripped. -/
def chop (c : Char) (s : List Char) : List Char := if s.getLast? = some c then s.dropLast else s

/-- The kind of a letter; `m` is let through and then ignored. -/
def kindOfLetter : Char → Option Definite
  | 'n' => some .int
  | 't' => some .sym
  | _ => none

/-- What follows the first colon, if there is one. -/
def afterColon (s : List Char) : Option (List Char) :=
  if ':' ∈ s then some (s.dropWhile (· ≠ ':')).tail else none

/-- One line of the file; a line that is not understood is skipped. -/
def readLine (line : List Char) : Option MetaLine :=
  let l := chop '\r' (chop '\n' line)
  match afterColon l with
  | none => none
  | some rest =>
    let name := l.takeWhile (· ≠ ':')
    let arity := (atoiC rest).toNat
    let isVariadic := rest.head? = some '*'
    let field := afterColon rest
    let isIdb := field.any fun tok => tok.takeWhile (· ≠ ':') = ['i', 'd', 'b']
    let letters := ((field.bind afterColon).getD [])
    if name ≠ [] ∧ (isVariadic ∨ 1 ≤ arity ∧ arity ≤ 8) then
      let ar := if isVariadic then 0 else arity
      some ⟨name.take 255, ar, isIdb, (List.range ar).map fun k => (letters[k]?).bind kindOfLetter⟩
    else none

/-- The whole file, up to `MAX_RELS` entries. -/
def readRelsTxt (text : List Char) : List MetaLine :=
  ((getLines text).filterMap readLine).take maxRels

/-! ## The round trip -/

/-- A name that the file can hold. -/
structure GoodName (name : Name) : Prop where
  /-- It is not empty. -/
  ne_nil : name ≠ []
  /-- It has no colon. -/
  colon : ':' ∉ name
  /-- It has no line feed. -/
  newline : '\n' ∉ name
  /-- It fits the buffer. -/
  length_le : name.length ≤ 255

/-- An entry that the file can hold. -/
structure GoodLine (m : MetaLine) : Prop where
  /-- The name. -/
  name : GoodName m.name
  /-- The arity. -/
  arity_le : m.arity ≤ 8
  /-- One kind for each column. -/
  kinds : m.kinds.length = m.arity

theorem afterColon_append {s t : List Char} (h : ':' ∉ s) :
    afterColon (s ++ ':' :: t) = some t := by
  have hall : ∀ c ∈ s, (c ≠ ':') = true := by
    intro c hc
    simpa using fun hcolon : c = ':' => h (hcolon ▸ hc)
  rw [afterColon, if_pos (by simp), List.dropWhile_append_of_pos (by simpa using hall)]
  simp

theorem takeWhile_append_colon {s t : List Char} (h : ':' ∉ s) :
    (s ++ ':' :: t).takeWhile (· ≠ ':') = s := by
  have hall : ∀ c ∈ s, (c ≠ ':') = true := by
    intro c hc
    simpa using fun hcolon : c = ':' => h (hcolon ▸ hc)
  rw [List.takeWhile_append_of_pos (by simpa using hall)]
  simp

theorem takeWhile_of_no_colon {s : List Char} (h : ':' ∉ s) : s.takeWhile (· ≠ ':') = s := by
  refine List.takeWhile_eq_self_iff.2 fun c hc => ?_
  simpa using fun hcolon : c = ':' => h (hcolon ▸ hc)

theorem afterColon_of_no_colon {s : List Char} (h : ':' ∉ s) : afterColon s = none := if_neg h

theorem colon_notMem_markText (idb : Bool) : ':' ∉ markText idb := by
  cases idb <;> decide

theorem kindOfLetter_kindLetter (k : Option Definite) : kindOfLetter (kindLetter k) = k := by
  rcases k with _ | _ | _ <;> rfl

/-- The letters of a list of kinds give it back. -/
theorem map_range_kindLetter (kinds : List (Option Definite)) :
    (List.range kinds.length).map (fun k => ((kinds.map kindLetter)[k]?).bind kindOfLetter) =
      kinds := by
  refine List.ext_getElem (by simp) fun k hk hk' => ?_
  simp [List.getElem?_eq_getElem hk', kindOfLetter_kindLetter]

/-- A field without letters stands for no kinds. -/
theorem map_range_none {kinds : List (Option Definite)} (h : ¬ kinds.any Option.isSome = true) :
    (List.range kinds.length).map (fun k => (([] : List Char)[k]?).bind kindOfLetter) = kinds := by
  refine List.ext_getElem (by simp) fun k hk hk' => ?_
  have hnone : kinds[k] = none := by
    cases hkk : kinds[k] with
    | none => rfl
    | some d => exact absurd (List.any_eq_true.2 ⟨_, List.getElem_mem hk', by rw [hkk]; rfl⟩) h
  simp [hnone]

/-- A number of one digit. -/
theorem atoiC_digit {c : Char} (hspace : isCSpace c = false) (hplus : c ≠ '+') (hminus : c ≠ '-')
    (hdigit : c.isDigit = true) (t : List Char) :
    atoiC (c :: ':' :: t) = (c.toNat - 48).toUInt32 := by
  have hdrop : (c :: ':' :: t).dropWhile isCSpace = c :: ':' :: t :=
    List.dropWhile_cons_of_neg (by simp [hspace])
  have htake : (c :: ':' :: t).takeWhile Char.isDigit = [c] := by
    rw [List.takeWhile_cons_of_pos hdigit, List.takeWhile_cons_of_neg (by decide)]
  unfold atoiC
  dsimp only
  rw [hdrop]
  simp only [List.head?_cons, Option.some.injEq, hplus, hminus, or_self, if_false, htake,
    List.foldl_cons, List.foldl_nil]
  rw [UInt32.zero_mul, UInt32.zero_add]

theorem arity_facts : ∀ a < 9, 0 < a → ∃ c : Char, Nat.toDigits 10 a = [c] ∧ c ≠ ':' ∧ c ≠ '*' ∧
    isCSpace c = false ∧ c ≠ '+' ∧ c ≠ '-' ∧ c.isDigit = true ∧
      (c.toNat - 48).toUInt32 = a.toUInt32 := by
  intro a ha hpos
  refine ⟨Nat.digitChar a, Nat.toDigits_of_lt_base (by omega), ?_⟩
  revert a
  decide

/-- The arity is read back, and is no star. -/
theorem read_arity {a : ℕ} (ha : a ≤ 8) (hpos : 0 < a) :
    ':' ∉ Nat.toDigits 10 a ∧ ∀ t, (Nat.toDigits 10 a ++ ':' :: t).head? ≠ some '*' ∧
      (atoiC (Nat.toDigits 10 a ++ ':' :: t)).toNat = a := by
  obtain ⟨c, hc, hcolon, hstar, hspace, hplus, hminus, hdigit, hval⟩ :=
    arity_facts a (Nat.lt_succ_of_le ha) hpos
  rw [hc]
  refine ⟨by simpa using Ne.symm hcolon, fun t => ⟨by simpa using hstar, ?_⟩⟩
  rw [List.singleton_append, atoiC_digit hspace hplus hminus hdigit, hval]
  exact UInt32.toNat_ofNat_of_lt' (lt_of_le_of_lt ha (by decide))

/-- The last character of a line is no line end. -/
theorem getLast?_lineRest (m : MetaLine) :
    (m.name ++ ':' :: lineRest m).getLast? ≠ some '\n' ∧
      (m.name ++ ':' :: lineRest m).getLast? ≠ some '\r' := by
  have hmark : ∀ (idb : Bool) (s : List Char), (s ++ markText idb).getLast? = some 'b' := by
    intro idb s
    cases idb <;> simp [markText]
  have hletter : ∀ (ks : List (Option Definite)) (s : List Char), ks ≠ [] →
      (s ++ ks.map kindLetter).getLast? ≠ some '\n' ∧
        (s ++ ks.map kindLetter).getLast? ≠ some '\r' := by
    intro ks s hne
    obtain ⟨ks, k, rfl⟩ := List.eq_nil_or_concat ks |>.resolve_left hne
    rcases k with _ | _ | _ <;> simp [kindLetter]
  unfold lineRest
  split
  · have := hmark m.idb (m.name ++ [':', '*', ':'])
    simp only [List.append_assoc, List.cons_append, List.nil_append] at this
    rw [this]
    decide
  · split
    · next hany =>
      have hne : m.kinds ≠ [] := by
        rintro h
        simp [h] at hany
      have := hletter m.kinds
        (m.name ++ ':' :: (Nat.toDigits 10 m.arity ++ ':' :: markText m.idb ++ [':'])) hne
      simpa [List.append_assoc] using this
    · have := hmark m.idb (m.name ++ ':' :: (Nat.toDigits 10 m.arity ++ [':']))
      simp only [List.append_assoc, List.cons_append, List.nil_append] at this
      simp only [List.append_nil, this]
      decide

theorem chop_append (s : List Char) (c : Char) : chop c (s ++ [c]) = s := by
  simp [chop]

theorem chop_of_ne {s : List Char} {c : Char} (h : s.getLast? ≠ some c) : chop c s = s := if_neg h

/-- **One line is read back.** -/
theorem readLine_writeLine {m : MetaLine} (h : GoodLine m) : readLine (writeLine m) = some m := by
  obtain ⟨name, arity, idb, kinds⟩ := m
  obtain ⟨hname, harity, hkinds⟩ := h
  dsimp only at hname harity hkinds
  have hlast := getLast?_lineRest ⟨name, arity, idb, kinds⟩
  have hstrip : chop '\r' (chop '\n' (writeLine ⟨name, arity, idb, kinds⟩)) =
      name ++ ':' :: lineRest ⟨name, arity, idb, kinds⟩ := by
    rw [writeLine, chop_append, chop_of_ne hlast.2]
  unfold readLine
  dsimp only
  rw [hstrip, afterColon_append hname.colon]
  dsimp only
  rw [takeWhile_append_colon hname.colon, List.take_of_length_le hname.length_le]
  rcases Nat.eq_zero_or_pos arity with rfl | hpos
  · -- A variadic relation has no kinds.
    have hrest : lineRest ⟨name, 0, idb, kinds⟩ = ['*'] ++ ':' :: markText idb := rfl
    obtain rfl : kinds = [] := List.length_eq_zero_iff.1 hkinds
    rw [hrest, afterColon_append (by decide)]
    have hidb : (decide (markText idb = ['i', 'd', 'b'])) = idb := by
      cases idb <;> rfl
    simp only [Option.any_some, takeWhile_of_no_colon (colon_notMem_markText idb), hidb]
    rw [if_pos ⟨hname.ne_nil, .inl rfl⟩]
    simp
  · obtain ⟨hcolon, hread⟩ := read_arity harity hpos
    have hidb : (decide (markText idb = ['i', 'd', 'b'])) = idb := by
      cases idb <;> rfl
    by_cases hany : kinds.any Option.isSome = true
    · have hrest : lineRest ⟨name, arity, idb, kinds⟩ = Nat.toDigits 10 arity ++
          ':' :: (markText idb ++ ':' :: kinds.map kindLetter) := by
        simp [lineRest, hpos.ne', hany]
      rw [hrest, afterColon_append hcolon]
      simp only [Option.any_some, Option.bind_some, (hread _).1, (hread _).2,
        takeWhile_append_colon (colon_notMem_markText idb), hidb,
        afterColon_append (colon_notMem_markText idb), Option.getD_some]
      rw [if_pos ⟨hname.ne_nil, .inr ⟨hpos, harity⟩⟩]
      simp only [if_neg (show ¬ False by simp), ← hkinds, map_range_kindLetter]
    · have hrest : lineRest ⟨name, arity, idb, kinds⟩ =
          Nat.toDigits 10 arity ++ ':' :: markText idb := by
        simp [lineRest, hpos.ne', hany]
      rw [hrest, afterColon_append hcolon]
      simp only [Option.any_some, Option.bind_some, (hread _).1, (hread _).2,
        takeWhile_of_no_colon (colon_notMem_markText idb), hidb,
        afterColon_of_no_colon (colon_notMem_markText idb), Option.getD_none]
      rw [if_pos ⟨hname.ne_nil, .inr ⟨hpos, harity⟩⟩]
      simp only [if_neg (show ¬ False by simp), ← hkinds, map_range_none hany]

/-- A line ends at its line feed. -/
theorem getLines_append {l : List Char} (h : '\n' ∉ l) (rest : List Char) :
    getLines (l ++ ['\n'] ++ rest) = (l ++ ['\n']) :: getLines rest := by
  induction l with
  | nil => simp [getLines]
  | cons c l ih =>
    rw [List.mem_cons, not_or] at h
    rw [List.cons_append, List.cons_append, getLines, if_neg (Ne.symm h.1), ih h.2]

theorem newline_notMem_line {m : MetaLine} (h : GoodLine m) :
    '\n' ∉ m.name ++ ':' :: lineRest m := by
  have hmark : '\n' ∉ markText m.idb := by
    cases m.idb <;> decide
  have hletter : ∀ k : Option Definite, kindLetter k ≠ '\n' := by
    rintro (_ | _ | _) <;> decide
  have hdigits : ∀ a < 9, '\n' ∉ Nat.toDigits 10 a := by decide
  have harity := hdigits m.arity (Nat.lt_succ_of_le h.arity_le)
  have hkinds : '\n' ∉ m.kinds.map kindLetter := by
    intro hmem
    obtain ⟨k, -, hk⟩ := List.mem_map.1 hmem
    exact hletter k hk
  intro hmem
  rcases List.mem_append.1 hmem with hmem | hmem
  · exact h.name.newline hmem
  · unfold lineRest at hmem
    split at hmem
    · simp [hmark] at hmem
    · split at hmem
      · simp only [List.mem_cons, List.mem_append, harity, hmark, hkinds, or_false] at hmem
        simp at hmem
      · simp only [List.mem_cons, List.mem_append, harity, hmark, List.not_mem_nil, or_false] at hmem
        simp at hmem

/-- **Reading gives back what was written**, when every entry is one the file can hold. -/
theorem readRelsTxt_writeRelsTxt {ms : List MetaLine} (h : ∀ m ∈ ms, GoodLine m)
    (hlen : ms.length ≤ maxRels) : readRelsTxt (writeRelsTxt ms) = ms := by
  have key : ∀ ms : List MetaLine, (∀ m ∈ ms, GoodLine m) →
      (getLines (writeRelsTxt ms)).filterMap readLine = ms := by
    intro ms
    induction ms with
    | nil => exact fun _ => rfl
    | cons m ms ih =>
      intro h
      have hm := h m (by simp)
      rw [writeRelsTxt, List.flatMap_cons, writeLine, getLines_append (newline_notMem_line hm),
        List.filterMap_cons]
      have hone := readLine_writeLine hm
      rw [writeLine] at hone
      rw [hone]
      dsimp only
      exact congrArg (m :: ·) (ih fun m' hm' => h m' (List.mem_cons_of_mem _ hm'))
  rw [readRelsTxt, key ms h, List.take_of_length_le hlen]

end DatalogDafsa.Catalog
