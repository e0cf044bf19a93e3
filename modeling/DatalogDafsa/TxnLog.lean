import DatalogDafsa.Durable
import DatalogDafsa.TxnWal

/-!
# Rows in the transaction log

A commit writes one record for each change of a row: the name of its relation and the
key of the row, big endian with a terminator.  The append refuses a record without a
name, and the commit then stops without a marker.

Opening the directory looks the names of the records up in the list of relations and
applies the changes.  A record whose name is not found, or is that of a variadic relation,
is passed over; one with a name of 256 bytes or with an impossible key stops the replay.

## Main definitions

* `nameBytes`, `bytesName` — names and their bytes.
* `arityOf`, `ChangeOk` — the relation of a change, and a change of a row of its arity.
* `encodeFactKey`, `encodeRec`, `decodeRec`, `decodeLog` — records of rows.
* `commitItems`, `commitLog`, `replayTxnWal` — what a commit and an open do to the file.
* `Listed` — names that the log can hold.
* `LogOk` — the committed records of a file; kept by a commit (`LogOk.commit`) and by one
  that is cut short (`LogOk.cut`).
-/

namespace DatalogDafsa.TxnLog

open SetLog (Rec)
open Catalog (Name RelEntry findRel)
open Durable TxnWal

/-! ## Names -/

/-- The bytes of a name. -/
def nameBytes (n : Name) : Bytes := n.map fun c => c.toNat.toUInt8

/-- The name in a buffer, up to the first zero. -/
def bytesName (b : Bytes) : Name := (b.takeWhile (· ≠ 0)).map fun x => Char.ofNat x.toNat

/-- The characters of a C string stand for bytes, and none of them is zero. -/
def IsCString (n : Name) : Prop := ∀ c ∈ n, 0 < c.toNat ∧ c.toNat < 256

instance (n : Name) : Decidable (IsCString n) :=
  List.decidableBAll (fun c : Char => 0 < c.toNat ∧ c.toNat < 256) n

theorem toNat_toUInt8_of_lt {k : ℕ} (h : k < 256) : k.toUInt8.toNat = k := by
  simpa using Nat.mod_eq_of_lt h

/-- **A name is read back from its bytes.** -/
theorem bytesName_nameBytes {n : Name} (h : IsCString n) : bytesName (nameBytes n) = n := by
  have hne : ∀ x ∈ nameBytes n, (decide (x ≠ 0)) = true := by
    intro x hx
    obtain ⟨c, hc, rfl⟩ := List.mem_map.1 hx
    have hval := toNat_toUInt8_of_lt (h c hc).2
    have hpos := (h c hc).1
    simp only [decide_eq_true_eq]
    intro hzero
    rw [hzero] at hval
    simp at hval
    omega
  rw [bytesName, List.takeWhile_eq_self_iff.2 hne, nameBytes, List.map_map]
  refine Eq.trans (List.map_congr_left fun c hc => ?_) (List.map_id n)
  show Char.ofNat (c.toNat.toUInt8).toNat = c
  rw [toNat_toUInt8_of_lt (h c hc).2, Char.ofNat_toNat]

@[simp] theorem length_nameBytes (n : Name) : (nameBytes n).length = n.length := by
  simp [nameBytes]

/-- The arity of a fixed relation; none when the list has none of that name. -/
def arityOf (rels : List RelEntry) (n : RelName) : Option ℕ :=
  if RelName.ofName n.name = n then
    ((findRel rels n.name).filter fun e => ¬ e.Variadic).map RelEntry.arity
  else none

/-- A fixed relation is found by its name. -/
theorem arityOf_eq_some {rels : List RelEntry} {n : RelName} {k : ℕ} :
    arityOf rels n = some k ↔
      RelName.ofName n.name = n ∧ ∃ e, findRel rels n.name = some e ∧ ¬ e.Variadic ∧
        e.arity = k := by
  unfold arityOf
  split
  · rename_i hn
    simp [hn, Option.filter_eq_some_iff, and_assoc]
  · rename_i hn
    simp [hn]

/-- Names that the log can hold, of relations that it can hold rows of. -/
structure Listed (rels : List RelEntry) : Prop where
  /-- A record has a name. -/
  ne_nil : ∀ e ∈ rels, e.name ≠ []
  /-- It fits the buffer of `txnReplayCb`. -/
  length_le : ∀ e ∈ rels, e.name.length ≤ 255
  /-- The names are C strings. -/
  bytes : ∀ e ∈ rels, IsCString e.name
  /-- Arities are at most eight. -/
  arity_le : ∀ e ∈ rels, e.arity ≤ 8

/-! ## Keys -/

/-- A column, most significant byte first. -/
def be32 (v : Val) : Bytes := (le 4 v.toNat).reverse

/-- The column four bytes spell. -/
def unBe32 (p : Bytes) : Val := UInt32.ofNat (leVal 4 (p.take 4).reverse)

/-- `encodeFactKey`; the buffer holds eight columns. -/
def encodeFactKey (r : Row) : Bytes := (r.take 8).flatMap be32 ++ [0]

/-- The columns of a key. -/
def decodeCols (key : Bytes) : Row :=
  (List.range ((key.length - 1) / 4)).map fun i => unBe32 (key.drop (4 * i))

@[simp] theorem length_be32 (v : Val) : (be32 v).length = 4 := by
  rw [be32, List.length_reverse, length_le]

theorem length_encodeFactKey (r : Row) : (encodeFactKey r).length = 4 * min 8 r.length + 1 := by
  have hlen : ∀ cols : Row, (cols.flatMap be32).length = 4 * cols.length := by
    intro cols
    induction cols with
    | nil => rfl
    | cons v cols ih =>
      rw [List.flatMap_cons, List.length_append, ih, List.length_cons]
      rw [length_be32]
      omega
  rw [encodeFactKey, List.length_append, hlen, List.length_take, List.length_singleton]

theorem unBe32_be32 (v : Val) (rest : Bytes) : unBe32 (be32 v ++ rest) = v := by
  have hval := leVal_le 4 v.toNat [] (by have := v.toNat_lt; norm_num at this ⊢; omega)
  rw [List.append_nil] at hval
  rw [unBe32, List.take_left' (length_be32 v), be32, List.reverse_reverse, hval,
    UInt32.ofNat_toNat]

theorem decodeCols_encodeFactKey {r : Row} (h : r.length ≤ 8) :
    decodeCols (encodeFactKey r) = r := by
  have hcols : ∀ (cols : Row) (tail : Bytes),
      (List.range cols.length).map (fun i => unBe32 ((cols.flatMap be32 ++ tail).drop (4 * i))) =
        cols := by
    intro cols
    induction cols with
    | nil => intro tail; rfl
    | cons v cols ih =>
      intro tail
      rw [List.length_cons, List.range_succ_eq_map, List.map_cons, List.map_map,
        List.flatMap_cons, List.append_assoc, Nat.mul_zero, List.drop_zero, unBe32_be32]
      congr 1
      refine Eq.trans (List.map_congr_left fun i _ => ?_) (ih tail)
      show unBe32 ((be32 v ++ (cols.flatMap be32 ++ tail)).drop (4 * (i + 1))) = _
      rw [Nat.mul_add, Nat.add_comm, ← List.drop_drop, List.drop_left' (length_be32 v)]
  have hlen : ((encodeFactKey r).length - 1) / 4 = r.length := by
    rw [length_encodeFactKey]
    omega
  rw [decodeCols, hlen, encodeFactKey, List.take_of_length_le h]
  exact hcols r [0]

/-! ## Records -/

/-- The operation of a record. -/
def recOp : Rec Row → RecOp
  | .add _ => .add
  | .del _ => .del

/-- What a record of a change says. -/
def recTriple (e : RelName × Rec Row) : Bytes × UInt8 × Bytes :=
  (nameBytes e.1.name, (recOp e.2).byte, encodeFactKey e.2.key)

/-- The record `dl_txn_commit` appends for a change; none when the append refuses it. -/
def encodeRec (e : RelName × Rec Row) : Option TxnRec :=
  if h : 0 < (nameBytes e.1.name).length ∧ (nameBytes e.1.name).length < 2 ^ 16 then
    some
      { rel := nameBytes e.1.name
        op := recOp e.2
        key := encodeFactKey e.2.key
        rel_pos := h.1
        rel_lt := h.2
        key_lt := by
          rw [length_encodeFactKey]
          omega }
  else none

theorem triple_of_encodeRec {e : RelName × Rec Row} {r : TxnRec} (h : encodeRec e = some r) :
    r.triple = recTriple e := by
  unfold encodeRec at h
  split at h
  · cases h
    rfl
  · cases h

section Records

variable (rels : List RelEntry)

/-- `txnReplayCb` on one record: none when it fails, and no change when the record names
no fixed relation. -/
def decodeRec (r : Bytes × UInt8 × Bytes) : Option (List (RelName × Rec Row)) :=
  if 256 ≤ r.1.length then none
  else
    match findRel rels (bytesName r.1) with
    | none => some []
    | some e =>
      if e.Variadic then some []
      else if r.2.2.length < 5 ∨ 33 < r.2.2.length ∨ (r.2.2.length - 1) % 4 ≠ 0 then none
      else if r.2.1 = RecOp.add.byte then some [(.ofName e.name, .add (decodeCols r.2.2))]
      else if r.2.1 = RecOp.del.byte then some [(.ofName e.name, .del (decodeCols r.2.2))]
      else none

/-- The changes of the delivered records, up to one that fails; did none fail? -/
def decodeLog : List (Bytes × UInt8 × Bytes) → List (RelName × Rec Row) × Bool
  | [] => ([], true)
  | r :: rs =>
    match decodeRec rels r with
    | none => ([], false)
    | some es => (es ++ (decodeLog rs).1, (decodeLog rs).2)

/-- A change of a row of a fixed relation of the list. -/
def ChangeOk (e : RelName × Rec Row) : Prop := arityOf rels e.1 = some e.2.key.length

instance (e : RelName × Rec Row) : Decidable (ChangeOk rels e) :=
  inferInstanceAs (Decidable (_ = _))

theorem decodeRec_of_find {r : Bytes × UInt8 × Bytes} {e : RelEntry} (hname : r.1.length < 256)
    (hfind : findRel rels (bytesName r.1) = some e) (hfix : ¬ e.Variadic) {k : ℕ} (hk : 0 < k)
    (hk8 : k ≤ 8) (hkey : r.2.2.length = 4 * k + 1) :
    decodeRec rels r =
      if r.2.1 = RecOp.add.byte then some [(.ofName e.name, .add (decodeCols r.2.2))]
      else if r.2.1 = RecOp.del.byte then some [(.ofName e.name, .del (decodeCols r.2.2))]
      else none := by
  unfold decodeRec
  rw [if_neg (by omega), hfind]
  dsimp only
  rw [if_neg hfix, if_neg (by omega)]

variable {rels}

/-- **A record is read back**, by a reader that has its relation in the list. -/
theorem decodeRec_recTriple (hl : Listed rels) {e : RelName × Rec Row} (h : ChangeOk rels e) :
    decodeRec rels (recTriple e) = some [e] := by
  obtain ⟨n, e⟩ := e
  obtain ⟨hn, entry, hfind, hfix, harity⟩ := arityOf_eq_some.1 h
  obtain ⟨hmem, hname⟩ := Catalog.findRel_eq_some hfind
  have hle : e.key.length ≤ 8 := harity ▸ hl.arity_le entry hmem
  have hpos : 0 < e.key.length := harity ▸ Nat.pos_of_ne_zero hfix
  have hlen : (encodeFactKey e.key).length = 4 * e.key.length + 1 := by
    rw [length_encodeFactKey]
    omega
  have hshort : (nameBytes n.name).length < 256 := by
    rw [length_nameBytes, ← hname]
    exact Nat.lt_succ_of_le (hl.length_le entry hmem)
  have hback : findRel rels (bytesName (nameBytes n.name)) = some entry := by
    rw [bytesName_nameBytes (hname ▸ hl.bytes entry hmem)]
    exact hfind
  have hcols : decodeCols (recTriple (n, e)).2.2 = e.key := decodeCols_encodeFactKey hle
  rw [decodeRec_of_find rels hshort hback hfix hpos hle hlen, hcols, hname, hn]
  cases e <;> rfl

theorem decodeLog_recTriple (hl : Listed rels) {es : List (RelName × Rec Row)}
    (h : ∀ e ∈ es, ChangeOk rels e) : decodeLog rels (es.map recTriple) = (es, true) := by
  induction es with
  | nil => rfl
  | cons e es ih =>
    rw [List.map_cons, decodeLog, decodeRec_recTriple hl (h e (List.mem_cons_self ..)),
      ih fun e he => h e (List.mem_cons_of_mem _ he)]
    rfl

end Records

/-! ## The file -/

/-- What a commit appends: its records and a marker, or its records up to one that the
append refuses. -/
def commitItems : List (RelName × Rec Row) → List Item
  | [] => [none]
  | e :: es =>
    match encodeRec e with
    | some r => some r :: commitItems es
    | none => []

/-- Does a commit get to its marker? -/
def commitWhole (es : List (RelName × Rec Row)) : Bool := es.all fun e => (encodeRec e).isSome

theorem commitItems_whole {es : List (RelName × Rec Row)} (h : commitWhole es = true) :
    ∃ t : Txn, commitItems es = t.map some ++ [none] ∧ t.map TxnRec.triple = es.map recTriple := by
  induction es with
  | nil => exact ⟨[], rfl, rfl⟩
  | cons e es ih =>
    rw [commitWhole, List.all_cons, Bool.and_eq_true, Option.isSome_iff_exists] at h
    obtain ⟨⟨r, hr⟩, hes⟩ := h
    obtain ⟨t, ht, htriples⟩ := ih hes
    refine ⟨r :: t, ?_, ?_⟩
    · rw [commitItems, hr]
      dsimp only
      rw [ht, List.map_cons, List.cons_append]
    · rw [List.map_cons, List.map_cons, triple_of_encodeRec hr, htriples]

theorem commitItems_refused {es : List (RelName × Rec Row)} (h : commitWhole es = false) :
    none ∉ commitItems es := by
  induction es with
  | nil => cases h
  | cons e es ih =>
    rw [commitItems]
    cases hr : encodeRec e with
    | none => exact List.not_mem_nil
    | some r =>
      rw [commitWhole, List.all_cons, hr, Option.isSome_some, Bool.true_and] at h
      simpa using ih h

/-- The names of the list can be written. -/
theorem commitWhole_of_listed {rels : List RelEntry} (hl : Listed rels)
    {es : List (RelName × Rec Row)} (h : ∀ e ∈ es, ChangeOk rels e) : commitWhole es = true := by
  rw [commitWhole, List.all_eq_true]
  intro e he
  obtain ⟨-, entry, hfind, -, -⟩ := arityOf_eq_some.1 (h e he)
  obtain ⟨hmem, hname⟩ := Catalog.findRel_eq_some hfind
  have hpos : 0 < e.1.name.length := List.length_pos_of_ne_nil (hname ▸ hl.ne_nil entry hmem)
  have hle : e.1.name.length ≤ 255 := hname ▸ hl.length_le entry hmem
  rw [encodeRec, dif_pos]
  · rfl
  · rw [length_nameBytes]
    omega

section File

variable (crc : Bytes → UInt32) (rels : List RelEntry)

/-- The bytes a commit appends. -/
def commitBytes (es : List (RelName × Rec Row)) : Bytes := encItems crc (commitItems es)

/-- Step (d) of `dl_txn_commit`, when `n` bytes of what it appends reach the file; none
when the log cannot be opened. -/
def commitLog (log : Bytes) (es : List (RelName × Rec Row)) (n : ℕ) : Option Bytes :=
  match openRw crc log with
  | .error _ => none
  | .ok file => some (file ++ (commitBytes crc es).take n)

/-- `replayTxnWal`: the changes it applies, did all go well, and the file it leaves. -/
def replayTxnWal (log : Bytes) : List (RelName × Rec Row) × Bool × Bytes :=
  match openRw crc log with
  | .error _ => ([], false, log)
  | .ok file =>
    match replay crc file with
    | (rs, .ok ()) =>
      match decodeLog rels rs with
      | (es, true) => (es, true, file.take 16)
      | (es, false) => (es, false, file)
    | (rs, .error _) => ((decodeLog rels rs).1, false, file)

/-- The file holds the committed changes `es`, and records of a commit that was cut
short. -/
structure LogOk (log : Bytes) (es : List (RelName × Rec Row)) : Prop where
  /-- A header, transactions, and what was cut short. -/
  shape : ∃ head txns more tail, head.length = 16 ∧ validateHeader crc head = true ∧
    none ∉ more ∧ Fits crc (items txns ++ more) ∧ NoRecord crc tail ∧
    log = head ++ (encItems crc (items txns ++ more) ++ tail) ∧
    txns.flatten.map TxnRec.triple = es.map recTriple
  /-- The rows are those of the relations of the list. -/
  changes : ∀ e ∈ es, ChangeOk rels e

variable {crc rels}

theorem logOk_header : LogOk crc rels (header crc) [] where
  shape := ⟨header crc, [], [], [], length_header, validateHeader_header, List.not_mem_nil,
    fun i hi => by simp [items] at hi, noRecord_nil, by simp [items], rfl⟩
  changes e he := by cases he

/-- A list with more relations reads the file the same way. -/
theorem LogOk.mono {rels' : List RelEntry} {log : Bytes} {es : List (RelName × Rec Row)}
    (h : LogOk crc rels log es) (hle : ∀ n k, arityOf rels n = some k → arityOf rels' n = some k) :
    LogOk crc rels' log es :=
  ⟨h.shape, fun e he => hle _ _ (h.changes e he)⟩

/-- Every item of a commit fits. -/
theorem fits_commitItems (es : List (RelName × Rec Row)) : Fits crc (commitItems es) := by
  induction es with
  | nil =>
    intro i hi
    rw [commitItems, List.mem_singleton] at hi
    subst hi
    show (frame crc [] commitByte []).length < 2 ^ 32
    rw [length_frame]
    norm_num
  | cons e es ih =>
    rw [commitItems]
    cases hr : encodeRec e with
    | none => exact fun i hi => by cases hi
    | some r =>
      intro i hi
      rcases List.mem_cons.1 hi with rfl | hi
      · have htriple := triple_of_encodeRec hr
        have hkey : r.key.length = 4 * min 8 e.2.key.length + 1 := by
          rw [← length_encodeFactKey]
          exact congrArg (fun t => t.2.2.length) htriple
        have hrel := r.rel_lt
        show (frame crc r.rel _ r.key).length < 2 ^ 32
        rw [length_frame]
        omega
      · exact ih i hi

/-- An open cuts the file back to its transactions. -/
theorem LogOk.open {log : Bytes} {es : List (RelName × Rec Row)} (h : LogOk crc rels log es) :
    ∃ head txns, head.length = 16 ∧ validateHeader crc head = true ∧
      Fits crc (items txns) ∧ openRw crc log = .ok (head ++ encTxns crc txns) ∧
      txns.flatten.map TxnRec.triple = es.map recTriple := by
  obtain ⟨head, txns, more, tail, hlen, hhead, hmore, hfits, htail, rfl, htriples⟩ := h.shape
  exact ⟨head, txns, hlen, hhead, fun i hi => hfits i (List.mem_append_left _ hi),
    openRw_log hlen hhead hmore hfits htail, htriples⟩

/-- What is whole of a list of items is of the list. -/
theorem mem_of_mem_whole {is : List Item} {n : ℕ} {i : Item} (h : i ∈ whole crc n is) : i ∈ is := by
  induction is generalizing n with
  | nil => exact h
  | cons j is ih =>
    unfold whole at h
    split at h
    · rcases List.mem_cons.1 h with rfl | h
      · exact List.mem_cons_self ..
      · exact List.mem_cons_of_mem _ (ih h)
    · cases h

/-- **A commit that is cut short** before the end of its marker, or refused before it gets
there, commits nothing. -/
theorem LogOk.cut {log : Bytes} {es : List (RelName × Rec Row)} (h : LogOk crc rels log es)
    (es' : List (RelName × Rec Row)) {n : ℕ}
    (hn : n < (commitBytes crc es').length ∨ commitWhole es' = false) :
    ∃ log', commitLog crc log es' n = some log' ∧ LogOk crc rels log' es := by
  obtain ⟨head, txns, hlen, hhead, hfits, hopen, htriples⟩ := h.open
  obtain ⟨piece, hpiece, hno⟩ := take_encItems crc (commitItems es') n
  refine ⟨_, by rw [commitLog, hopen], ⟨head, txns, whole crc n (commitItems es'),
    piece, hlen, hhead, ?_, ?_, hno, ?_, htriples⟩, h.changes⟩
  · cases hw : commitWhole es' with
    | false => exact fun hmem => commitItems_refused hw (mem_of_mem_whole hmem)
    | true =>
      obtain ⟨t, ht, -⟩ := commitItems_whole hw
      have hlt : n < (encTxns crc [t]).length := by
        have := hn.resolve_right (by simp [hw])
        rwa [commitBytes, ht, show t.map some ++ [none] = items [t] by simp [items]] at this
      rw [ht]
      exact none_notMem_whole t hlt
  · exact List.forall_mem_append.mpr
      ⟨hfits, fun i hi => fits_commitItems es' i (mem_of_mem_whole hi)⟩
  · show head ++ encItems crc (items txns) ++ (encItems crc (commitItems es')).take n = _
    rw [hpiece, encItems_append, List.append_assoc, List.append_assoc]

/-- **A commit whose marker is whole** commits its changes. -/
theorem LogOk.commit {log : Bytes} {es : List (RelName × Rec Row)} (h : LogOk crc rels log es)
    {es' : List (RelName × Rec Row)} (hes : ∀ e ∈ es', ChangeOk rels e)
    (hw : commitWhole es' = true) {n : ℕ} (hn : (commitBytes crc es').length ≤ n) :
    ∃ log', commitLog crc log es' n = some log' ∧ LogOk crc rels log' (es ++ es') := by
  obtain ⟨head, txns, hlen, hhead, hfits, hopen, htriples⟩ := h.open
  obtain ⟨t, ht, htriple⟩ := commitItems_whole hw
  have hitems : items (txns ++ [t]) = items txns ++ commitItems es' := by
    simp [items, ht]
  refine ⟨_, by rw [commitLog, hopen], ⟨head, txns ++ [t], [], [], hlen, hhead,
    List.not_mem_nil, ?_, noRecord_nil, ?_, ?_⟩, List.forall_mem_append.mpr ⟨h.changes, hes⟩⟩
  · rw [List.append_nil, hitems]
    exact List.forall_mem_append.mpr ⟨hfits, fits_commitItems es'⟩
  · rw [List.take_of_length_le hn, List.append_nil, List.append_nil, hitems, encItems_append,
      List.append_assoc]
    rfl
  · rw [List.flatten_append, List.map_append, htriples, List.map_append, ← htriple]
    simp

/-- **An open replays the committed changes**, and empties the file. -/
theorem LogOk.replay {log : Bytes} {es : List (RelName × Rec Row)} (h : LogOk crc rels log es)
    (hl : Listed rels) :
    ∃ log', replayTxnWal crc rels log = (es, true, log') ∧ LogOk crc rels log' [] := by
  obtain ⟨head, txns, hlen, hhead, hfits, hopen, htriples⟩ := h.open
  have hreplay := replay_log hlen hhead List.not_mem_nil
    (show Fits crc (items txns ++ []) by rwa [List.append_nil]) noRecord_nil
  rw [List.append_nil, List.append_nil] at hreplay
  have hreplay' : TxnWal.replay crc (head ++ encTxns crc txns) = (es.map recTriple, .ok ()) :=
    htriples ▸ hreplay
  refine ⟨head, ?_, ⟨head, [], [], [], hlen, hhead, List.not_mem_nil,
    fun i hi => by simp [items] at hi, noRecord_nil, by simp [items], rfl⟩,
    fun e he => by cases he⟩
  rw [replayTxnWal, hopen]
  dsimp only
  rw [hreplay']
  dsimp only
  rw [decodeLog_recTriple hl h.changes]
  dsimp only
  rw [List.take_left' hlen]

end File

end DatalogDafsa.TxnLog
