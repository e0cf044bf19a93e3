import DatalogDafsa.Regex.Lexer

/-!
# How classes are read

`parseCharClass` forgets which bytes were escaped, and its loop over the bytes differs
from the documented reading in more than that: before a last `-` it drops a byte, a
range that goes down or has equal ends is not what it should be.

## Main definitions

* `loopItems`, `codeClass` — what the loop makes of the bytes, and of a class.
* `parseCharClass_spec` — a class that is taken is read so.
* `PlainItems`, `PlainClass` — the classes that are read as documented
  (`codeClass_eq_docClass`).
-/

namespace DatalogDafsa.Regex

/-- What the loop of `parseCharClass` makes of the bytes of a class. -/
def loopItems : Option UInt8 → List UInt8 → UInt8 → Bool
  | prev, [], b => prev.any (b == ·)
  | prev, [ch], b =>
    if prev.any (· < ch) then prev.any (· ≤ b) && b ≤ ch
    else b == ch || prev.any fun lo => b == lo || b == '-'.toUInt8
  | prev, ch :: next :: rest, b =>
    if prev.any (· < ch) then (prev.any (· ≤ b) && b ≤ ch) || loopItems none (next :: rest) b
    else if next = '-'.toUInt8 then
      if rest.isEmpty then b == '-'.toUInt8 || prev.any (b == ·) else loopItems (some ch) rest b
    else (b == ch || prev.any fun lo => b == lo || b == '-'.toUInt8) ||
      loopItems none (next :: rest) b

/-- The reading of `parseCharClass`. -/
def codeClass : ClassReading :=
  readClass (fun y => y.byte == '^'.toUInt8) fun ys => loopItems none (ys.map Sym.byte)

/-! ## The loop -/

theorem loopItems_range {prev : Option UInt8} {ch : UInt8} (h : prev.any (· < ch) = true)
    (l : List UInt8) (b : UInt8) :
    loopItems prev (ch :: l) b = ((prev.any (· ≤ b) && b ≤ ch) || loopItems none l b) := by
  cases l with
  | nil => simp [loopItems, h]
  | cons next rest => rw [loopItems, if_pos h]

theorem loopItems_byte {prev : Option UInt8} {ch : UInt8} (h : prev.any (· < ch) = false)
    {l : List UInt8} (hl : ∀ next ∈ l.head?, next ≠ '-'.toUInt8) (b : UInt8) :
    loopItems prev (ch :: l) b =
      ((b == ch || prev.any fun lo => b == lo || b == '-'.toUInt8) || loopItems none l b) := by
  cases l with
  | nil => simp [loopItems, h]
  | cons next rest =>
    rw [loopItems, if_neg (by simp [h]), if_neg (hl next rfl)]

theorem classByte_spec {t : RxToken} {y : Sym} {ch : UInt8} (hy : TokIs t y)
    (h : classByte t = some ch) : y.byte = ch ∧ y ≠ op ']' ∧ y ≠ op '[' := by
  have hop : ∀ {c : Char}, kindChar t.kind = some c → c.toUInt8 = ch → c ≠ ']' → c ≠ '[' →
      c.toUInt8 ≠ ']'.toUInt8 → c.toUInt8 ≠ '['.toUInt8 →
      y.byte = ch ∧ y ≠ op ']' ∧ y ≠ op '[' := by
    intro c hc hch _ _ h₁ h₂
    rw [hy.eq_op hc]
    exact ⟨hch, by simpa using h₁, by simpa using h₂⟩
  unfold classByte at h
  split at h
  all_goals first
    | (rename_i hkind
       cases h
       exact hop (by rw [hkind]; rfl) rfl (by decide) (by decide) (by decide) (by decide))
    | skip
  · rename_i hkind
    cases h
    refine ⟨hy.byte hkind, ?_, ?_⟩ <;> rintro rfl
    · exact absurd (hy.1.symm.trans hkind) (by decide)
    · exact absurd (hy.1.symm.trans hkind) (by decide)
  · cases h

/-- A dash or a caret, escaped or not, is a `char`. -/
theorem TokIs.of_byte {t : RxToken} {y : Sym} (hy : TokIs t y) {c : Char}
    (hc : rxKind c.toUInt8 = .char) (hbyte : y.byte = c.toUInt8) :
    t.kind = .char ∧ t.ch = c.toUInt8 := by
  cases y with
  | bare b =>
    obtain rfl : b = c.toUInt8 := hbyte
    exact ⟨hy.1.trans hc, hy.2.1 hc⟩
  | quoted b => exact ⟨hy.1, hy.2.1.trans hbyte⟩

/-- **The loop of `parseCharClass`**, when it ends at a `]`. -/
theorem classLoop_spec {fuel : ℕ} {p p' : RxParser} {bitmap bitmap' : UInt8 → Bool}
    {prev : Option UInt8} (hsane : Sane p)
    (h : classLoop fuel p bitmap prev = .ok (bitmap', p')) (hend : (rxPeek p').tok.kind = .rbracket) :
    Sane p' ∧ ∀ tail, Upcoming p' tail →
      ∃ ys, Upcoming p (ys ++ tail) ∧ (∀ y ∈ ys, y ≠ op ']' ∧ y ≠ op '[') ∧
        (ys = [] → (rxPeek p).tok.kind = .rbracket) ∧
        ∀ b, bitmap' b = (bitmap b || loopItems prev (ys.map Sym.byte) b) := by
  induction fuel generalizing p bitmap prev with
  | zero => cases h
  | succ fuel ih =>
    rw [classLoop] at h
    dsimp only at h
    split at h
    · cases h
      rw [rxPeek_rxPeek] at hend
      refine ⟨hsane.peek, fun tail htail =>
        ⟨[], htail.of_peek, fun y hy => (List.not_mem_nil hy).elim, fun _ => hend, fun b => ?_⟩⟩
      cases prev <;> simp [setPrev, setBit, loopItems]
    rename_i hgo
    have hne : (rxPeek p).tok.kind ≠ .eof := fun heof => hgo (.inr heof)
    split at h
    · cases h
    rename_i ch hch
    -- the first symbol, once what follows it is known
    have hfirst : ∀ {zs : List Sym}, Upcoming (rxNext (rxPeek p)) zs →
        ∃ y, Upcoming p (y :: zs) ∧ y.byte = ch ∧ y ≠ op ']' ∧ y ≠ op '[' := by
      intro zs hzs
      obtain ⟨y, hy, hup⟩ := hzs.of_next hsane hne
      exact ⟨y, hup, classByte_spec hy hch⟩
    split at h
    · rename_i hrange
      obtain ⟨hsane', hrest⟩ := ih sane_rxNext h
      refine ⟨hsane', fun tail htail => ?_⟩
      obtain ⟨ys, hys, hno, -, hbits⟩ := hrest tail htail
      obtain ⟨y, hup, rfl, hy⟩ := hfirst hys
      refine ⟨y :: ys, hup, List.forall_mem_cons.mpr ⟨hy, hno⟩, fun hnil => (by cases hnil),
        fun b => ?_⟩
      rw [hbits, List.map_cons, loopItems_range hrange, Bool.or_assoc]
    · rename_i hnorange
      rw [Bool.not_eq_true] at hnorange
      split at h
      · rename_i hdash
        -- the dash, once what follows it is known
        have hsecond : ∀ {zs : List Sym}, Upcoming (rxPeek (rxNext (rxPeek (rxNext (rxPeek p))))) zs →
            ∃ y d, Upcoming p (y :: d :: zs) ∧ (y.byte = ch ∧ y ≠ op ']' ∧ y ≠ op '[') ∧
              d.byte = '-'.toUInt8 ∧ d ≠ op ']' ∧ d ≠ op '[' := by
          intro zs hzs
          obtain ⟨d, hd, hup⟩ := hzs.of_peek.of_next sane_rxNext (by rw [hdash.1]; decide)
          obtain ⟨y, hup', hy⟩ := hfirst hup
          refine ⟨y, d, hup', hy, (hd.byte hdash.1).trans hdash.2, ?_, ?_⟩ <;> rintro rfl
          · exact absurd (hd.1.symm.trans hdash.1) (by decide)
          · exact absurd (hd.1.symm.trans hdash.1) (by decide)
        split at h
        · rename_i hclose
          obtain ⟨hsane', hrest⟩ := ih sane_rxNext.peek h
          refine ⟨hsane', fun tail htail => ?_⟩
          obtain ⟨ys, hys, hno, -, hbits⟩ := hrest tail htail
          obtain ⟨y, d, hup, hy, hd, hdno⟩ := hsecond hys
          obtain rfl : ys = [] := by
            rcases ys with _ | ⟨z, zs⟩
            · rfl
            rw [← rxPeek_rxPeek] at hys
            rcases hys.peeked with ⟨-, hnil⟩ | ⟨z', zs', heq, hz⟩
            · cases hnil
            · cases heq
              rw [rxPeek_rxPeek] at hz
              have : z = op ']' := hz.eq_op (by rw [hclose]; rfl)
              exact absurd this (hno z (List.mem_cons_self ..)).1
          refine ⟨[y, d], hup, by simp [hy.2, hdno], fun hnil => (by cases hnil), fun b => ?_⟩
          rw [hbits]
          simp only [List.map_cons, List.map_nil, hy.1, hd, loopItems, hnorange, Bool.false_eq_true,
            if_false, if_true, List.isEmpty_nil, Option.any_none, Bool.or_false]
          cases prev <;> simp [setPrev, setBit, Bool.or_assoc]
        · rename_i hgo'
          obtain ⟨hsane', hrest⟩ := ih sane_rxNext.peek h
          refine ⟨hsane', fun tail htail => ?_⟩
          obtain ⟨ys, hys, hno, hnil, hbits⟩ := hrest tail htail
          rw [rxPeek_rxPeek] at hnil
          obtain ⟨y, d, hup, hy, hd, hdno⟩ := hsecond hys
          refine ⟨y :: d :: ys, hup,
            List.forall_mem_cons.mpr ⟨hy.2, List.forall_mem_cons.mpr ⟨hdno, hno⟩⟩,
            fun hnil => (by cases hnil), fun b => ?_⟩
          have hys' : ys.map Sym.byte ≠ [] := fun heq =>
            hgo' (hnil (List.map_eq_nil_iff.mp heq))
          rw [hbits, List.map_cons, List.map_cons, hy.1, hd, loopItems, if_neg (by simp [hnorange]),
            if_pos rfl, if_neg (by simpa using hys')]
      · rename_i hnodash
        have hnext : ∀ {ys tail : List Sym}, Upcoming (rxPeek (rxNext (rxPeek p))) (ys ++ tail) →
            ∀ next ∈ (ys.map Sym.byte).head?, next ≠ '-'.toUInt8 := by
          rintro ys tail hup next hnext rfl
          rcases ys with _ | ⟨z, zs⟩
          · cases hnext
          rcases hup.peeked with ⟨-, hnil⟩ | ⟨z', zs', heq, hz⟩
          · cases hnil
          · cases heq
            have hbyte : z.byte = '-'.toUInt8 := by simpa using hnext
            exact hnodash (hz.of_byte (by decide) hbyte)
        have hdone : ∀ {bits : UInt8 → Bool},
            (∀ b, bits b = (bitmap b || (b == ch || prev.any fun lo =>
              b == lo || b == '-'.toUInt8))) →
            classLoop fuel (rxPeek (rxNext (rxPeek p))) bits none = .ok (bitmap', p') →
            Sane p' ∧ ∀ tail, Upcoming p' tail →
              ∃ ys, Upcoming p (ys ++ tail) ∧ (∀ y ∈ ys, y ≠ op ']' ∧ y ≠ op '[') ∧
                (ys = [] → (rxPeek p).tok.kind = .rbracket) ∧
                ∀ b, bitmap' b = (bitmap b || loopItems prev (ys.map Sym.byte) b) := by
          intro bits hbits h
          obtain ⟨hsane', hrest⟩ := ih sane_rxNext.peek h
          refine ⟨hsane', fun tail htail => ?_⟩
          obtain ⟨ys, hys, hno, -, hbits'⟩ := hrest tail htail
          obtain ⟨y, hup, rfl, hy⟩ := hfirst hys.of_peek
          refine ⟨y :: ys, hup, List.forall_mem_cons.mpr ⟨hy, hno⟩, fun hnil => (by cases hnil),
            fun b => ?_⟩
          rw [hbits', hbits, List.map_cons, loopItems_byte hnorange (hnext hys), Bool.or_assoc]
        cases prev with
        | none => exact hdone (fun b => by simp [setBit]) h
        | some lo =>
          refine hdone (fun b => ?_) h
          simp [setBit, Bool.or_assoc]

theorem takeItems_close {ys : List Sym} (h : ∀ y ∈ ys, y ≠ op ']' ∧ y ≠ op '[') :
    takeItems (ys ++ [op ']']) = some (ys, []) := by
  induction ys with
  | nil => rfl
  | cons y ys ih =>
    obtain ⟨⟨hclose, hopen⟩, hys⟩ := List.forall_mem_cons.mp h
    rw [List.cons_append, takeItems, if_neg hclose, if_neg hopen, ih hys]
    rfl

/-- **A class that is taken** is read as `codeClass` does. -/
theorem parseCharClass_spec {fuel : ℕ} {p p' : RxParser} {S : UInt8 → Bool} (hsane : Sane p)
    (h : parseCharClass fuel p = .ok (S, p')) :
    Sane p' ∧ ∀ tail, Upcoming p' tail →
      ∃ ys, Upcoming p (ys ++ tail) ∧ codeClass ys = some (S, []) := by
  unfold parseCharClass at h
  dsimp only at h
  set negate : Bool :=
    decide ((rxPeek p).tok.kind = .char ∧ (rxPeek p).tok.ch = '^'.toUInt8) with hnegate
  set q := if negate = true then rxNext (rxPeek p) else rxPeek p with hq
  have hsaneq : Sane q := by
    rw [hq]
    split
    · exact sane_rxNext
    · exact hsane.peek
  obtain ⟨first, q', hfirst⟩ : ∃ first q', rxMatch q .rbracket = (first, q') := ⟨_, _, rfl⟩
  rw [hfirst] at h
  dsimp only at h
  split at h
  · cases h
  rename_i bitmap q'' hloop
  split at h
  · cases h
  rename_i p'' hclose
  cases h
  have hend : (rxPeek q'').tok.kind = .rbracket := by
    by_contra hne
    rw [rxMatch, if_neg hne] at hclose
    cases hclose
  have hsaneq' : Sane q' := by
    cases first with
    | true => exact (rxMatch_true hsaneq (c := ']') rfl hfirst).1
    | false =>
      rw [(rxMatch_false hfirst).1]
      exact hsaneq.peek
  obtain ⟨hsaneq'', hrest⟩ := classLoop_spec hsaneq' hloop hend
  obtain ⟨hsane', hback⟩ := rxMatch_true hsaneq'' (c := ']') rfl hclose
  refine ⟨hsane', fun tail htail => ?_⟩
  obtain ⟨ys, hys, hno, hnil, hbits⟩ := hrest _ (hback tail htail)
  have hhead : first = false → (ys ++ [op ']']).head? ≠ some (op ']') := by
    rintro rfl hhead
    obtain ⟨rfl, hkind⟩ := rxMatch_false hfirst
    rcases ys with _ | ⟨y, ys⟩
    · rw [rxPeek_rxPeek] at hnil
      exact hkind (hnil rfl)
    · exact (hno y (List.mem_cons_self ..)).1 (by simpa using hhead)
  -- what stands behind the caret
  set zs := (if first then [op ']'] else []) ++ (ys ++ [op ']']) with hzs
  have hupq : Upcoming q (zs ++ tail) := by
    rw [hzs]
    cases first with
    | true => simpa using (rxMatch_true hsaneq (c := ']') rfl hfirst).2 _ hys
    | false =>
      rw [(rxMatch_false hfirst).1] at hys
      simpa using hys.of_peek
  have hzsne : zs ≠ [] := by
    rw [hzs]
    simp
  have hread : ∀ neg : Bool, (let first' := zs.head? == some (op ']')
      let zs' := if first' then zs.tail else zs
      (takeItems zs').map fun r => ((fun b => neg != (first' && b == ']'.toUInt8 ||
        loopItems none (r.1.map Sym.byte) b) : UInt8 → Bool), r.2)) =
      some (fun b => neg != bitmap b, []) := by
    intro neg
    have hfirst' : (zs.head? == some (op ']')) = first := by
      cases first with
      | true => simp [hzs]
      | false =>
        rw [beq_eq_false_iff_ne, hzs]
        exact hhead rfl
    have htail : (if first then zs.tail else zs) = ys ++ [op ']'] := by
      cases first <;> simp [hzs]
    dsimp only
    rw [hfirst', htail, takeItems_close hno, Option.map_some]
    simp only [hbits]
  cases hneg : negate with
  | true =>
    have hchar : (rxPeek p).tok.kind = .char ∧ (rxPeek p).tok.ch = '^'.toUInt8 := by
      simpa [hnegate] using hneg
    rw [hneg, if_pos rfl] at hq
    rw [hq] at hupq
    obtain ⟨y, hy, hup⟩ := hupq.of_next hsane (by rw [hchar.1]; decide)
    refine ⟨y :: zs, hup, ?_⟩
    have hcaret : (y.byte == '^'.toUInt8) = true := by
      rw [beq_iff_eq, hy.byte hchar.1, hchar.2]
    have := hread true
    simpa [codeClass, readClass, hcaret] using this
  | false =>
    rw [hneg, if_neg (by simp)] at hq
    rw [hq] at hupq
    refine ⟨zs, hupq.of_peek, ?_⟩
    have hcaret : zs.head?.any (fun y => y.byte == '^'.toUInt8) = false := by
      obtain ⟨z, zs', hz⟩ := List.exists_cons_of_ne_nil hzsne
      rw [hz] at hupq ⊢
      rcases hupq.peeked with ⟨-, hnil⟩ | ⟨z', zs'', heq, hz'⟩
      · cases hnil
      · cases heq
        by_contra hbyte
        have hbyte : z.byte = '^'.toUInt8 := by simpa using hbyte
        have hchar := hz'.of_byte (by decide) hbyte
        simp [hnegate, hchar] at hneg
    have := hread false
    simpa [codeClass, readClass, hcaret] using this

/-! ## Classes that are read as documented -/

/-- Where the loop reads the bytes of a class as documented: no escaped dash is between
two others, a range goes up or, going down, is not followed by a dash, and no byte but
a dash is before a last dash. -/
def PlainItems : List Sym → Prop
  | [] => True
  | [_] => True
  | [y, z] => z.byte = '-'.toUInt8 → y.byte = '-'.toUInt8
  | lo :: dash :: hi :: ys =>
    if dash.byte = '-'.toUInt8 then
      dash = op '-' ∧ PlainItems ys ∧ (lo.byte < hi.byte ∨
        (hi.byte < lo.byte ∨ lo.byte = '-'.toUInt8) ∧ ∀ y ∈ ys.head?, y.byte ≠ '-'.toUInt8)
    else PlainItems (dash :: hi :: ys)

/-- What stands in a class behind a caret and a first `]`. -/
def classBody (ys : List Sym) : List Sym :=
  let ys := if ys.head?.any (· == op '^') then ys.tail else ys
  if ys.head? == some (op ']') then ys.tail else ys

/-- A class that is read as documented, from behind its `[`: the first byte is no escaped
caret either. -/
def PlainClass (ys : List Sym) : Prop :=
  ys.head? ≠ some (.quoted '^'.toUInt8) ∧ ∀ r ∈ takeItems (classBody ys), PlainItems r.1

theorem loopItems_eq_docItems {ys : List Sym} (h : PlainItems ys) (b : UInt8) :
    loopItems none (ys.map Sym.byte) b = docItems ys b := by
  induction ys using PlainItems.induct with
  | case1 => rfl
  | case2 y => simp [loopItems, docItems]
  | case3 y z =>
    rw [PlainItems] at h
    by_cases hz : z.byte = '-'.toUInt8
    · simp [loopItems, docItems, hz, h hz]
    · simp [loopItems, docItems, hz]
  | case4 lo dash hi ys hdash ih =>
    rw [PlainItems, if_pos hdash] at h
    obtain ⟨rfl, hys, hrange⟩ := h
    rw [docItems, if_pos rfl, ← ih hys, List.map_cons, List.map_cons, List.map_cons, loopItems,
      if_neg (by simp), if_pos (by rfl), if_neg (by simp)]
    by_cases hlt : lo.byte < hi.byte
    · rw [loopItems_range (by simpa using hlt), inRange, if_pos (UInt8.le_of_lt hlt)]
      rfl
    · obtain ⟨hle, hnext⟩ := hrange.resolve_left hlt
      rw [loopItems_byte (by simpa using hlt) (by simpa using hnext), inRange]
      by_cases hgt : hi.byte < lo.byte
      · rw [if_neg (UInt8.not_le.mpr hgt), Option.any_some, Bool.or_comm (b == hi.byte)]
      · have heq : hi.byte = lo.byte :=
          UInt8.le_antisymm (UInt8.not_lt.mp hlt) (UInt8.not_lt.mp hgt)
        have hlo : lo.byte = '-'.toUInt8 := hle.resolve_left hgt
        rw [heq, hlo, if_pos (UInt8.le_refl _), Option.any_some, Bool.or_self, Bool.or_self]
        congr 1
        rw [Bool.eq_iff_iff, beq_iff_eq, Bool.and_eq_true, decide_eq_true_eq, decide_eq_true_eq]
        constructor
        · rintro rfl
          exact ⟨UInt8.le_refl _, UInt8.le_refl _⟩
        · exact fun hb => UInt8.le_antisymm hb.2 hb.1
  | case5 lo dash hi ys hdash ih =>
    rw [PlainItems, if_neg hdash] at h
    have hne : dash ≠ op '-' := fun heq => hdash (by rw [heq]; rfl)
    rw [docItems, if_neg hne, ← ih h, List.map_cons, List.map_cons, loopItems_byte (by simp)
      (by simpa using hdash)]
    simp

/-- **A plain class is read as documented.** -/
theorem codeClass_eq_docClass {ys : List Sym} (h : PlainClass ys) : codeClass ys = docClass ys := by
  have hcaret : ys.head?.any (fun y => y.byte == '^'.toUInt8) =
      ys.head?.any (· == op '^') := by
    cases ys with
    | nil => rfl
    | cons y ys =>
      cases y with
      | bare b => by_cases hb : b = '^'.toUInt8 <;> simp [Sym.byte, op, hb]
      | quoted b =>
        have hb : b ≠ '^'.toUInt8 := by simpa using h.1
        simp [Sym.byte, op, hb]
  have hitems := h.2
  unfold classBody at hitems
  dsimp only at hitems
  unfold codeClass docClass readClass
  dsimp only
  rw [hcaret]
  refine Option.map_congr fun r hr => ?_
  congr 1
  funext b
  rw [loopItems_eq_docItems (hitems r hr)]

/-- **The patterns whose classes are read as documented.** -/
def PlainPattern (p : List UInt8) : Prop :=
  ∀ ys, Scan p ys → ∀ zs, op '[' :: zs <:+: ys → PlainClass zs

/-- Reading a pattern with the classes of the program is reading it as documented. -/
theorem ReadsPattern.doc {p : List UInt8} {r : Rx} (hplain : PlainPattern p)
    (h : ReadsPattern codeClass p r) : ReadsPattern docClass p r := by
  obtain ⟨hne, pre, body, post, hscan, hpre, hpost, hbody⟩ := h
  refine ⟨hne, pre, body, post, hscan, hpre, hpost, hbody.imp_left fun hreads => ?_⟩
  refine hreads.congr fun zs S hin hcls => ?_
  rw [← codeClass_eq_docClass (hplain _ hscan zs (hin.trans ⟨pre, post, by simp⟩))]
  exact hcls

end DatalogDafsa.Regex
