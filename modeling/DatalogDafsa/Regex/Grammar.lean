import DatalogDafsa.Lib.Thompson

/-!
# Patterns and their languages

The documented patterns: literal bytes, `.`, classes with ranges and negation, `*`, `+`,
`?`, `|` and groups, with an optional `^` in front and `$` behind.  An escape always
stands for a literal byte; a byte that is not escaped may be an operator.

What a class denotes is a parameter of the grammar, since the parser of the program has
a reading of its own.

## Main definitions

* `Sym`, `scan` — the bytes of a pattern, its escapes resolved.
* `Rx`, `Rx.lang` — expressions, and what they match.
* `Reads`, `ReadsPattern` — the grammar; `ReadsPattern.unique`: a pattern has one reading.
* `docClass`, `Reads.doc` — the documented reading of classes.
-/

namespace DatalogDafsa.Regex

open scoped Computability

/-! ## Bytes and escapes -/

/-- A byte of a pattern. -/
inductive Sym
  /-- As it stands. -/
  | bare (b : UInt8)
  /-- Written as an escape. -/
  | quoted (b : UInt8)
  deriving DecidableEq

/-- The byte. -/
def Sym.byte : Sym → UInt8
  | bare b => b
  | quoted b => b

/-- A character that is not escaped. -/
abbrev op (c : Char) : Sym := .bare c.toUInt8

/-- Is a byte an octal digit? -/
def isOctal (b : UInt8) : Bool := '0'.toUInt8 ≤ b && b ≤ '7'.toUInt8

/-- The value of a hexadecimal digit. -/
def hexValue (b : UInt8) : Option UInt8 :=
  if '0'.toUInt8 ≤ b ∧ b ≤ '9'.toUInt8 then some (b - '0'.toUInt8)
  else if 'a'.toUInt8 ≤ b ∧ b ≤ 'f'.toUInt8 then some (b - 'a'.toUInt8 + 10)
  else if 'A'.toUInt8 ≤ b ∧ b ≤ 'F'.toUInt8 then some (b - 'A'.toUInt8 + 10)
  else none

/-- The byte a letter names in an escape. -/
def named (c : UInt8) : UInt8 :=
  if c = 'n'.toUInt8 then '\n'.toUInt8
  else if c = 'r'.toUInt8 then '\r'.toUInt8
  else if c = 't'.toUInt8 then '\t'.toUInt8
  else c

/-- The byte of two hexadecimal digits. -/
def hexByte : List UInt8 → Option (UInt8 × List UInt8)
  | h :: l :: s =>
    match hexValue h, hexValue l with
    | some h, some l => some (h * 16 + l, s)
    | _, _ => none
  | _ => none

/-- The byte of an escape, behind its backslash: `\0` with at most two octal digits,
`\xHH`, a named byte, or the character itself. -/
def escape : List UInt8 → Option (UInt8 × List UInt8)
  | [] => none
  | c :: s =>
    if c = '0'.toUInt8 then
      let digits := (s.take 2).takeWhile isOctal
      some (digits.foldl (fun v d => v * 8 + (d - '0'.toUInt8)) 0, s.drop digits.length)
    else if c = 'x'.toUInt8 ∨ c = 'X'.toUInt8 then hexByte s
    else some (named c, s)

/-- A backslash. -/
def backslash : UInt8 := 92

/-- The first byte of a pattern, and the rest. -/
def scanOne : List UInt8 → Option (Sym × List UInt8)
  | [] => none
  | b :: s => if b = backslash then (escape s).map fun r => (.quoted r.1, r.2) else some (.bare b, s)

/-- The symbols of a pattern; none when an escape is not complete. -/
inductive Scan : List UInt8 → List Sym → Prop
  /-- The end. -/
  | nil : Scan [] []
  /-- One more. -/
  | cons {s s' : List UInt8} {y : Sym} {ys : List Sym} :
      scanOne s = some (y, s') → Scan s' ys → Scan s (y :: ys)

theorem Scan.unique {s : List UInt8} {ys zs : List Sym} (h : Scan s ys) (h' : Scan s zs) :
    ys = zs := by
  induction h generalizing zs with
  | nil =>
    cases h' with
    | nil => rfl
    | cons hone _ => cases hone
  | cons hone _ ih =>
    cases h' with
    | nil => cases hone
    | cons hone' hrest =>
      rw [hone] at hone'
      cases hone'
      rw [ih hrest]

/-! ## Expressions -/

/-- An expression. -/
inductive Rx
  /-- The empty string. -/
  | empty
  /-- One byte of a set. -/
  | bytes (S : UInt8 → Bool)
  /-- One after another. -/
  | seq (r r' : Rx)
  /-- Either. -/
  | alt (r r' : Rx)
  /-- Any number of times. -/
  | star (r : Rx)
  /-- At least once. -/
  | plus (r : Rx)
  /-- At most once. -/
  | opt (r : Rx)

/-- What an expression matches. -/
def Rx.lang : Rx → Language UInt8
  | empty => 1
  | bytes S => {w | ∃ b, S b = true ∧ w = [b]}
  | seq r r' => r.lang * r'.lang
  | alt r r' => r.lang + r'.lang
  | star r => r.lang∗
  | plus r => r.lang * r.lang∗
  | opt r => 1 + r.lang

/-! ## The grammar -/

/-- How a class is read: what stands behind the `[` gives the bytes and what stands
behind the `]`. -/
abbrev ClassReading := List Sym → Option ((UInt8 → Bool) × List Sym)

/-- The parts of a pattern. -/
inductive Part
  /-- One byte, a class or a group. -/
  | atom
  /-- An atom that may be repeated. -/
  | item
  /-- Items in a row. -/
  | seq
  /-- Sequences to choose from. -/
  | alt
  deriving DecidableEq

/-- A bare character that is an operator outside classes. -/
def isOperator (b : UInt8) : Bool :=
  ['.', '*', '+', '?', '|', '(', ')', '[', ']', '^', '$'].any fun c => c.toUInt8 == b

/-- A symbol that stands for itself. -/
def Sym.isLiteral : Sym → Bool
  | bare b => !isOperator b
  | quoted _ => true

/-- What may stand behind an atom, and what it means. -/
inductive Suffix : List Sym → (Rx → Rx) → Prop
  /-- Once. -/
  | once : Suffix [] id
  /-- Any number of times. -/
  | star : Suffix [op '*'] .star
  /-- At least once. -/
  | plus : Suffix [op '+'] .plus
  /-- At most once. -/
  | opt : Suffix [op '?'] .opt

/-- **The grammar.** -/
inductive Reads (cls : ClassReading) : Part → List Sym → Rx → Prop
  /-- A literal byte. -/
  | byte {y : Sym} : y.isLiteral = true → Reads cls .atom [y] (.bytes fun b => b == y.byte)
  /-- Any byte. -/
  | any : Reads cls .atom [op '.'] (.bytes fun _ => true)
  /-- A class. -/
  | cls {ys : List Sym} {S : UInt8 → Bool} :
      cls ys = some (S, []) → Reads cls .atom (op '[' :: ys) (.bytes S)
  /-- A group. -/
  | group {ys : List Sym} {r : Rx} :
      Reads cls .alt ys r → Reads cls .atom (op '(' :: (ys ++ [op ')'])) r
  /-- An atom, perhaps repeated. -/
  | item {ys post : List Sym} {r : Rx} {f : Rx → Rx} :
      Reads cls .atom ys r → Suffix post f → Reads cls .item (ys ++ post) (f r)
  /-- A last item. -/
  | last {ys : List Sym} {r : Rx} : Reads cls .item ys r → Reads cls .seq ys r
  /-- One more item. -/
  | next {ys zs : List Sym} {r r' : Rx} :
      Reads cls .item ys r → Reads cls .seq zs r' → Reads cls .seq (ys ++ zs) (.seq r r')
  /-- A last choice. -/
  | only {ys : List Sym} {r : Rx} : Reads cls .seq ys r → Reads cls .alt ys r
  /-- One more choice. -/
  | either {ys zs : List Sym} {r r' : Rx} : Reads cls .seq ys r → Reads cls .alt zs r' →
      Reads cls .alt (ys ++ op '|' :: zs) (.alt r r')

/-- **A pattern**: not empty, with its anchors. -/
def ReadsPattern (cls : ClassReading) (p : List UInt8) (r : Rx) : Prop :=
  p ≠ [] ∧ ∃ pre body post, Scan p (pre ++ (body ++ post)) ∧ (pre = [] ∨ pre = [op '^']) ∧
    (post = [] ∨ post = [op '$']) ∧ (Reads cls .alt body r ∨ body = [] ∧ r = .empty)

/-! ## One reading -/

/-- What follows a class is not looked at. -/
def Stable (cls : ClassReading) : Prop :=
  ∀ ys S rest more, cls ys = some (S, rest) → cls (ys ++ more) = some (S, rest ++ more)

/-- Can an atom begin with the symbol? -/
def Sym.starts (y : Sym) : Bool := y.isLiteral || y == op '.' || y == op '[' || y == op '('

/-- What may stand behind a part, so that it is not read on. -/
def Follows : Part → List Sym → Prop
  | .atom, _ => True
  | .item, ys => ∀ y ∈ ys.head?, y ≠ op '*' ∧ y ≠ op '+' ∧ y ≠ op '?'
  | .seq, ys => ∀ y ∈ ys.head?, y = op '|' ∨ y = op ')' ∨ y = op '$'
  | .alt, ys => ∀ y ∈ ys.head?, y = op ')' ∨ y = op '$'

variable {cls : ClassReading}

/-- Every part begins with an atom. -/
theorem Reads.starts {part : Part} {ys : List Sym} {r : Rx} (h : Reads cls part ys r) :
    ∃ y ys', ys = y :: ys' ∧ y.starts = true := by
  induction h with
  | byte hy => exact ⟨_, [], rfl, by simp [Sym.starts, hy]⟩
  | any => exact ⟨_, [], rfl, by decide⟩
  | cls h => exact ⟨_, _, rfl, by decide⟩
  | group h ih => exact ⟨_, _, rfl, by decide⟩
  | item h _ ih =>
    obtain ⟨y, ys', rfl, hy⟩ := ih
    exact ⟨y, _, rfl, hy⟩
  | last h ih => exact ih
  | next h h' ih ih' =>
    obtain ⟨y, ys', rfl, hy⟩ := ih
    exact ⟨y, _, rfl, hy⟩
  | only h ih => exact ih
  | either h h' ih ih' =>
    obtain ⟨y, ys', rfl, hy⟩ := ih
    exact ⟨y, _, rfl, hy⟩

theorem Follows.seq {rest : List Sym} (h : Follows .alt rest) : Follows .seq rest :=
  fun y hy => .inr (h y hy)

theorem Follows.item {rest : List Sym} (h : Follows .seq rest) : Follows .item rest := by
  intro y hy
  rcases h y hy with rfl | rfl | rfl <;> decide

/-- An item ends where the next one begins. -/
theorem Reads.follows {part : Part} {ys : List Sym} {r : Rx} (h : Reads cls part ys r)
    (rest : List Sym) : Follows .item (ys ++ rest) := by
  obtain ⟨y, ys', rfl, hy⟩ := h.starts
  rintro _ ⟨rfl⟩
  refine ⟨?_, ?_, ?_⟩ <;> rintro rfl <;> revert hy <;> decide

/-- What follows a sequence does not begin an item. -/
theorem Follows.not_starts {ys rest rest' : List Sym} {part : Part} {r : Rx}
    (h : Follows .seq rest) (hreads : Reads cls part ys r) (heq : rest = ys ++ rest') : False := by
  obtain ⟨y, ys', rfl, hy⟩ := hreads.starts
  subst heq
  rcases h y rfl with rfl | rfl | rfl <;> revert hy <;> decide

/-- What stands behind an atom is read in one way. -/
theorem Suffix.unique {post post' rest rest' : List Sym} {f f' : Rx → Rx} (h : Suffix post f)
    (h' : Suffix post' f') (heq : post ++ rest = post' ++ rest') (hrest : Follows .item rest)
    (hrest' : Follows .item rest') : post = post' ∧ f = f' := by
  have hnone : ∀ {y : Sym} {zs ys : List Sym}, Follows .item ys → ys = y :: zs →
      y ≠ op '*' ∧ y ≠ op '+' ∧ y ≠ op '?' := fun hys heq => hys _ (by simp [heq])
  cases h with
  | once =>
    cases h' with
    | once => exact ⟨rfl, rfl⟩
    | star => exact absurd rfl (hnone hrest heq).1
    | plus => exact absurd rfl (hnone hrest heq).2.1
    | opt => exact absurd rfl (hnone hrest heq).2.2
  | star =>
    cases h' with
    | once => exact absurd rfl (hnone hrest' heq.symm).1
    | star => exact ⟨rfl, rfl⟩
    | plus => exact absurd (List.head_eq_of_cons_eq heq) (by decide)
    | opt => exact absurd (List.head_eq_of_cons_eq heq) (by decide)
  | plus =>
    cases h' with
    | once => exact absurd rfl (hnone hrest' heq.symm).2.1
    | star => exact absurd (List.head_eq_of_cons_eq heq) (by decide)
    | plus => exact ⟨rfl, rfl⟩
    | opt => exact absurd (List.head_eq_of_cons_eq heq) (by decide)
  | opt =>
    cases h' with
    | once => exact absurd rfl (hnone hrest' heq.symm).2.2
    | star => exact absurd (List.head_eq_of_cons_eq heq) (by decide)
    | plus => exact absurd (List.head_eq_of_cons_eq heq) (by decide)
    | opt => exact ⟨rfl, rfl⟩

/-- **A part is read in one way.** -/
theorem Reads.unique (hcls : Stable cls) {part : Part} {ys : List Sym} {r : Rx}
    (h : Reads cls part ys r) {zs rest rest' : List Sym} {r' : Rx} (h' : Reads cls part zs r')
    (heq : ys ++ rest = zs ++ rest') (hrest : Follows part rest) (hrest' : Follows part rest') :
    ys = zs ∧ r = r' := by
  induction h generalizing zs rest rest' r' with
  | byte hy =>
    cases h' with
    | byte _ => simp_all
    | any =>
      obtain ⟨rfl, -⟩ : _ = op '.' ∧ _ := by simpa using heq
      exact absurd hy (by decide)
    | cls _ =>
      obtain ⟨rfl, -⟩ : _ = op '[' ∧ _ := by simpa using heq
      exact absurd hy (by decide)
    | group _ =>
      obtain ⟨rfl, -⟩ : _ = op '(' ∧ _ := by simpa using heq
      exact absurd hy (by decide)
  | any =>
    cases h' with
    | byte hy =>
      obtain ⟨rfl, -⟩ : op '.' = _ ∧ _ := by simpa using heq
      exact absurd hy (by decide)
    | any => exact ⟨rfl, rfl⟩
    | cls _ => exact absurd (List.head_eq_of_cons_eq heq) (by decide)
    | group _ => exact absurd (List.head_eq_of_cons_eq heq) (by decide)
  | @cls ys S hread =>
    cases h' with
    | byte hy =>
      obtain ⟨rfl, -⟩ : op '[' = _ ∧ _ := by simpa using heq
      exact absurd hy (by decide)
    | any => exact absurd (List.head_eq_of_cons_eq heq) (by decide)
    | @cls zs S' hread' =>
      have htail : ys ++ rest = zs ++ rest' := List.tail_eq_of_cons_eq heq
      have hone := hcls ys S [] rest hread
      have htwo := hcls zs S' [] rest' hread'
      rw [htail, htwo] at hone
      obtain ⟨rfl, rfl⟩ : S' = S ∧ rest' = rest := by simpa using hone
      exact ⟨congrArg _ (List.append_cancel_right htail), rfl⟩
    | group _ => exact absurd (List.head_eq_of_cons_eq heq) (by decide)
  | @group ys r h ih =>
    cases h' with
    | byte hy =>
      obtain ⟨rfl, -⟩ : op '(' = _ ∧ _ := by simpa using heq
      exact absurd hy (by decide)
    | any => exact absurd (List.head_eq_of_cons_eq heq) (by decide)
    | cls _ => exact absurd (List.head_eq_of_cons_eq heq) (by decide)
    | @group zs r' h' =>
      have htail : ys ++ op ')' :: rest = zs ++ op ')' :: rest' := by simpa using heq
      obtain ⟨rfl, rfl⟩ := ih h' htail (by simp [Follows]) (by simp [Follows])
      exact ⟨rfl, rfl⟩
  | @item ys post r f h hpost ih =>
    cases h' with
    | @item zs post' r' f' h' hpost' =>
      rw [List.append_assoc, List.append_assoc] at heq
      obtain ⟨rfl, rfl⟩ := ih h' heq trivial trivial
      obtain ⟨rfl, rfl⟩ := hpost.unique hpost' (List.append_cancel_left heq) hrest hrest'
      exact ⟨rfl, rfl⟩
  | @last ys r h ih =>
    cases h' with
    | last h' => exact ih h' heq hrest.item hrest'.item
    | @next zs us r' r'' h' h'' =>
      rw [List.append_assoc] at heq
      obtain ⟨rfl, -⟩ := ih h' heq hrest.item (h''.follows rest')
      exact (hrest.not_starts h'' (List.append_cancel_left heq)).elim
  | @next ys us r r'' h h'' ih ih' =>
    cases h' with
    | last h' =>
      rw [List.append_assoc] at heq
      obtain ⟨rfl, -⟩ := ih h' heq (h''.follows rest) hrest'.item
      exact (hrest'.not_starts h'' (List.append_cancel_left heq).symm).elim
    | @next zs us' r' r''' h' hright =>
      rw [List.append_assoc, List.append_assoc] at heq
      obtain ⟨rfl, rfl⟩ := ih h' heq (h''.follows rest) (hright.follows rest')
      obtain ⟨rfl, rfl⟩ := ih' hright (List.append_cancel_left heq) hrest hrest'
      exact ⟨rfl, rfl⟩
  | @only ys r h ih =>
    cases h' with
    | only h' => exact ih h' heq hrest.seq hrest'.seq
    | @either zs us r' r'' h' h'' =>
      rw [List.append_assoc] at heq
      obtain ⟨rfl, -⟩ := ih h' heq hrest.seq (by simp [Follows])
      have htail := List.append_cancel_left heq
      rcases hrest (op '|') (by simp [htail]) with h | h <;> exact absurd h (by decide)
  | @either ys us r r'' h h'' ih ih' =>
    cases h' with
    | only h' =>
      rw [List.append_assoc] at heq
      obtain ⟨rfl, -⟩ := ih h' heq (by simp [Follows]) hrest'.seq
      have htail := (List.append_cancel_left heq).symm
      rcases hrest' (op '|') (by simp [htail]) with h | h <;> exact absurd h (by decide)
    | @either zs us' r' r''' h' hright =>
      rw [List.append_assoc, List.append_assoc] at heq
      obtain ⟨rfl, rfl⟩ := ih h' heq (by simp [Follows]) (by simp [Follows])
      have htail := List.tail_eq_of_cons_eq (List.append_cancel_left heq)
      obtain ⟨rfl, rfl⟩ := ih' hright htail hrest hrest'
      exact ⟨rfl, rfl⟩

/-- **A pattern has one reading.** -/
theorem ReadsPattern.unique (hcls : Stable cls) {p : List UInt8} {r r' : Rx}
    (h : ReadsPattern cls p r) (h' : ReadsPattern cls p r') : r = r' := by
  obtain ⟨-, pre, body, post, hscan, hpre, hpost, hbody⟩ := h
  obtain ⟨-, pre', body', post', hscan', hpre', hpost', hbody'⟩ := h'
  have heq := hscan.unique hscan'
  have hcaret : ∀ (body : List Sym) {post rest : List Sym} {r : Rx}, (post = [] ∨ post = [op '$']) →
      (Reads cls .alt body r ∨ body = [] ∧ r = .empty) → body ++ post ≠ op '^' :: rest := by
    rintro body post rest r hpost (hbody | ⟨rfl, -⟩) heq
    · obtain ⟨y, ys, rfl, hy⟩ := hbody.starts
      have := List.head_eq_of_cons_eq heq
      subst this
      exact absurd hy (by decide)
    · rcases hpost with rfl | rfl
      · cases heq
      · exact absurd (List.head_eq_of_cons_eq heq) (by decide)
  have hdollar : ∀ {body post post' : List Sym} {r : Rx}, (post' = [] ∨ post' = [op '$']) →
      Reads cls .alt body r → body ++ post ≠ post' := by
    rintro body post post' r hpost' hbody heq
    obtain ⟨y, ys, rfl, hy⟩ := hbody.starts
    rcases hpost' with rfl | rfl
    · cases heq
    · have := List.head_eq_of_cons_eq heq
      subst this
      exact absurd hy (by decide)
  have hrest : body ++ post = body' ++ post' := by
    rcases hpre with rfl | rfl <;> rcases hpre' with rfl | rfl
    · exact heq
    · exact absurd heq (hcaret body hpost hbody)
    · exact absurd heq.symm (hcaret body' hpost' hbody')
    · exact List.tail_eq_of_cons_eq heq
  have hfollows : ∀ {post : List Sym}, (post = [] ∨ post = [op '$']) → Follows .alt post := by
    rintro post (rfl | rfl) <;> simp [Follows]
  rcases hbody with hbody | ⟨rfl, rfl⟩ <;> rcases hbody' with hbody' | ⟨rfl, rfl⟩
  · exact (hbody.unique hcls hbody' hrest (hfollows hpost) (hfollows hpost')).2
  · exact absurd hrest (hdollar hpost' hbody)
  · exact absurd hrest.symm (hdollar hpost hbody')
  · rfl

/-- Two readings of classes that agree on those of a part. -/
theorem Reads.congr {cls' : ClassReading} {part : Part} {ys : List Sym} {r : Rx}
    (h : Reads cls part ys r)
    (hcls : ∀ zs S, op '[' :: zs <:+: ys → cls zs = some (S, []) → cls' zs = some (S, [])) :
    Reads cls' part ys r := by
  induction h with
  | byte hy => exact .byte hy
  | any => exact .any
  | cls h => exact .cls (hcls _ _ (List.infix_refl _) h)
  | @group ys r h ih =>
    refine .group (ih fun zs S hin => hcls zs S (hin.trans ?_))
    exact ⟨[op '('], [op ')'], by simp⟩
  | item h hpost ih =>
    exact .item (ih fun zs S hin => hcls zs S (hin.trans (List.prefix_append ..).isInfix)) hpost
  | last h ih => exact .last (ih hcls)
  | next h h' ih ih' =>
    exact .next (ih fun zs S hin => hcls zs S (hin.trans (List.prefix_append ..).isInfix))
      (ih' fun zs S hin => hcls zs S (hin.trans (List.suffix_append ..).isInfix))
  | only h ih => exact .only (ih hcls)
  | @either ys zs r r' h h' ih ih' =>
    refine .either (ih fun zs S hin => hcls zs S (hin.trans (List.prefix_append ..).isInfix))
      (ih' fun us S hin => hcls us S (hin.trans ?_))
    exact ⟨ys ++ [op '|'], [], by simp⟩

/-! ## Classes -/

/-- What stands in a class, up to its `]`, and what follows. -/
def takeItems : List Sym → Option (List Sym × List Sym)
  | [] => none
  | y :: ys =>
    if y = op ']' then some ([], ys)
    else if y = op '[' then none
    else (takeItems ys).map fun r => (y :: r.1, r.2)

/-- A class behind its `[`: a caret that negates it, a first `]` that is literal, and
what `items` makes of the rest. -/
def readClass (caret : Sym → Bool) (items : List Sym → UInt8 → Bool) : ClassReading := fun ys =>
  let negate := ys.head?.any caret
  let ys := if negate then ys.tail else ys
  let first := ys.head? == some (op ']')
  let ys := if first then ys.tail else ys
  (takeItems ys).map fun r =>
    (fun b => negate != (first && b == ']'.toUInt8 || items r.1 b), r.2)

/-- The bytes of a range; the three bytes of one that goes down. -/
def inRange (lo hi b : UInt8) : Bool :=
  if lo ≤ hi then lo ≤ b && b ≤ hi else b == lo || b == '-'.toUInt8 || b == hi

/-- The bytes of a class: between two others a `-` makes a range, elsewhere it is
literal. -/
def docItems : List Sym → UInt8 → Bool
  | [], _ => false
  | [y], b => b == y.byte
  | [y, z], b => b == y.byte || b == z.byte
  | lo :: dash :: hi :: ys, b =>
    if dash = op '-' then inRange lo.byte hi.byte b || docItems ys b
    else b == lo.byte || docItems (dash :: hi :: ys) b

/-- **The documented reading of classes**: only a bare caret negates. -/
def docClass : ClassReading := readClass (· == op '^') docItems

theorem takeItems_append {ys zs rest : List Sym} (h : takeItems ys = some (zs, rest))
    (more : List Sym) : takeItems (ys ++ more) = some (zs, rest ++ more) := by
  induction ys generalizing zs with
  | nil => cases h
  | cons y ys ih =>
    rw [List.cons_append, takeItems]
    rw [takeItems] at h
    split at h
    · cases h
      rw [if_pos ‹_›]
    · rw [if_neg ‹_›]
      split at h
      · cases h
      · rw [if_neg ‹_›]
        obtain ⟨⟨zs', rest'⟩, htake, heq⟩ := Option.map_eq_some_iff.mp h
        cases heq
        rw [ih htake]
        rfl

theorem stable_readClass (caret : Sym → Bool) (items : List Sym → UInt8 → Bool) :
    Stable (readClass caret items) := by
  intro ys S rest more h
  have hskip : ∀ (b : Bool) (ys : List Sym), ys ≠ [] →
      (if b then (ys ++ more).tail else ys ++ more) = (if b then ys.tail else ys) ++ more := by
    intro b ys hne
    cases b with
    | false => rfl
    | true => exact List.tail_append_of_ne_nil hne
  unfold readClass at h ⊢
  dsimp only at h ⊢
  obtain ⟨⟨zs, r⟩, htake, heq⟩ := Option.map_eq_some_iff.mp h
  cases heq
  have hne : ys ≠ [] := by
    rintro rfl
    simp [takeItems] at htake
  rw [List.head?_append_of_ne_nil ys hne, hskip _ ys hne]
  set ys₁ := if ys.head?.any caret then ys.tail else ys with hys₁
  have hne₁ : ys₁ ≠ [] := by
    intro hnil
    rw [hnil] at htake
    simp [takeItems] at htake
  rw [List.head?_append_of_ne_nil ys₁ hne₁, hskip _ ys₁ hne₁, takeItems_append htake]
  rfl

end DatalogDafsa.Regex
