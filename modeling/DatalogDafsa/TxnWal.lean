import DatalogDafsa.TupleSet

/-!
# The bytes of the transaction log

`txn.wal` is a 16-byte header followed by records, each with its length fields and a
checksum; a transaction is its records and a commit marker.  Recovery scans the
records up to the first one that is torn or corrupt and keeps what lies before the
last commit marker of the scan.

The checksum `crc32_compute` comes from the automaton engine and is a parameter: no
property of it is used.  A record of `2 ^ 32` bytes or more makes the scan compute a
size that does not fit its 32-bit variable; that outcome is `overflow`.

## Main definitions

* `le`, `leVal` — little-endian numbers.
* `TxnRec`, `encRec`, `encCommit` — what the append functions write.
* `validateRecord`, `committedEnd`, `openRw`, `replay` — the readers.
* `survivors` — the transactions whose marker lies before a cut.
* `recovers_iff` — when recovery gives back exactly the surviving transactions.
-/

namespace DatalogDafsa.TxnWal

/-- Contents of a file. -/
abbrev Bytes := List UInt8

/-! ## Little-endian numbers -/

/-- The `n` low bytes of a number, lowest first. -/
def le : ℕ → ℕ → Bytes
  | 0, _ => []
  | n + 1, v => UInt8.ofNat v :: le n (v / 256)

/-- The number `n` bytes spell; missing bytes read as `0`. -/
def leVal : ℕ → Bytes → ℕ
  | 0, _ => 0
  | n + 1, p => (p.headD 0).toNat + 256 * leVal n p.tail

@[simp] theorem length_le (n v : ℕ) : (le n v).length = n := by
  induction n generalizing v with
  | zero => rfl
  | succ n ih => simp [le, ih]

theorem leVal_le (n v : ℕ) (rest : Bytes) (h : v < 256 ^ n) : leVal n (le n v ++ rest) = v := by
  induction n generalizing v with
  | zero => simp [leVal] at h ⊢; omega
  | succ n ih =>
    have hdiv : v / 256 < 256 ^ n := by
      rw [Nat.div_lt_iff_lt_mul (by norm_num)]
      rw [pow_succ] at h
      omega
    simp only [le, leVal, List.cons_append, List.headD_cons, List.tail_cons, ih _ hdiv,
      UInt8.toNat_ofNat']
    have := Nat.div_add_mod v 256
    omega

/-! ## What is appended -/

/-- `TXNWAL_OP_ADD`, `TXNWAL_OP_DEL`: the operations of a record. -/
inductive RecOp
  | add | del
  deriving DecidableEq, Repr

/-- The byte of an operation. -/
def RecOp.byte : RecOp → UInt8
  | add => 1
  | del => 2

/-- `TXNWAL_OP_COMMIT`. -/
def commitByte : UInt8 := 3

/-- What `txnwal_append_record` accepts: a name, an operation and a key. -/
structure TxnRec where
  /-- Relation name. -/
  rel : Bytes
  /-- Operation. -/
  op : RecOp
  /-- Key of the row. -/
  key : Bytes
  /-- A record carries a name. -/
  rel_pos : 0 < rel.length
  /-- The length of the name is an `u16`. -/
  rel_lt : rel.length < 2 ^ 16
  /-- The length of the key is an `u32`. -/
  key_lt : key.length < 2 ^ 32

/-- A transaction: its records, in buffer order. -/
abbrev Txn := List TxnRec

section Format

variable (crc : Bytes → UInt32)

/-- Length fields, name, operation and key, followed by their checksum. -/
def frame (rel : Bytes) (op : UInt8) (key : Bytes) : Bytes :=
  let body := le 2 rel.length ++ rel ++ [op] ++ le 4 key.length ++ key
  body ++ le 4 (crc body).toNat

/-- The bytes of a record. -/
def encRec (r : TxnRec) : Bytes := frame crc r.rel r.op.byte r.key

/-- The bytes of a commit marker. -/
def encCommit : Bytes := frame crc [] commitByte []

/-- The header `txnwalWriteHeader` writes: magic, version 1, flags 0. -/
def header : Bytes :=
  let hdr : Bytes := [0x44, 0x54, 0x58, 0x4C, 1, 0, 0, 0, 0, 0, 0, 0]
  hdr ++ le 4 (crc hdr).toNat

/-- `txnwal_append_record`. -/
def appendRecord (file : Bytes) (r : TxnRec) : Bytes := file ++ encRec crc r

/-- `txnwal_append_commit`. -/
def appendCommit (file : Bytes) : Bytes := file ++ encCommit crc

/-- The appends of one commit. -/
def appendTxn (file : Bytes) (t : Txn) : Bytes := appendCommit crc (t.foldl (appendRecord crc) file)

/-! ## What is read -/

/-- What `txnwalValidateRecord` finds at the start of the bytes left. -/
inductive RecResult
  /-- `0`: a record, and the bytes after it. -/
  | ok (rel : Bytes) (op : UInt8) (key rest : Bytes)
  /-- `-1`. -/
  | corrupt
  /-- `-2`. -/
  | torn
  /-- The size of the record does not fit the `u32` it is returned in. -/
  | overflow
  deriving DecidableEq

/-- `txnwalValidateRecord`. -/
def validateRecord (p : Bytes) : RecResult :=
  let rem := p.length
  if rem < 11 then .torn
  else
    let rlen := leVal 2 p
    if rem < 2 + rlen + 1 + 4 + 4 then .torn
    else
      let o := p.getD (2 + rlen) 0
      if o ≠ RecOp.add.byte ∧ o ≠ RecOp.del.byte ∧ o ≠ commitByte then .corrupt
      else if o = commitByte ∧ rlen ≠ 0 then .corrupt
      else
        let klen := leVal 4 (p.drop (2 + rlen + 1))
        let body := 2 + rlen + 1 + 4 + klen
        if rem < body + 4 then .torn
        else if (crc (p.take body)).toNat ≠ leVal 4 (p.drop body) then .corrupt
        else if 2 ^ 32 ≤ body + 4 then .overflow
        else .ok ((p.drop 2).take rlen) o ((p.drop (2 + rlen + 1 + 4)).take klen)
          (p.drop (body + 4))

/-- `txnwalValidateHeader`. -/
def validateHeader (p : Bytes) : Bool :=
  decide (16 ≤ p.length) && decide (p.take 4 = [0x44, 0x54, 0x58, 0x4C]) &&
    decide (leVal 4 (p.drop 4) = 1) &&
    decide ((crc (p.take 12)).toNat = leVal 4 (p.drop 12))

/-- Why a log is not read. -/
inductive WalErr
  /-- The function returns an error. -/
  | refused
  /-- A size does not fit its variable. -/
  | overflow
  deriving DecidableEq

/-- The scan of `txnwalCommittedEnd`: `off` bytes are read, the last marker ended at
`committed`.  Every record takes a byte, so the length of the file is enough fuel. -/
def commitScan : ℕ → Bytes → ℕ → ℕ → Except WalErr ℕ
  | 0, _, _, committed => .ok committed
  | fuel + 1, p, off, committed =>
    match validateRecord crc p with
    | .corrupt | .torn => .ok committed
    | .overflow => .error .overflow
    | .ok _ op _ rest =>
      let off := off + (p.length - rest.length)
      commitScan fuel rest off (if op = commitByte then off else committed)

/-- `txnwalCommittedEnd`. -/
def committedEnd (file : Bytes) : Except WalErr ℕ :=
  if validateHeader crc file then commitScan crc file.length (file.drop 16) 16 16
  else .error .refused

/-- `txnwal_open_rw`: the file it leaves. -/
def openRw (file : Bytes) : Except WalErr Bytes :=
  if file.length = 0 then .ok (header crc)
  else if validateHeader crc file then
    match committedEnd crc file with
    | .ok n => .ok (file.take n)
    | .error e => .error e
  else if file.length = 16 then .ok (header crc)
  else .error .refused

/-- The delivery loop of `txnwal_replay`: the records handed to the callback, and
how it ended. -/
def deliver : ℕ → Bytes → List (Bytes × UInt8 × Bytes) × Except WalErr Unit
  | 0, _ => ([], .ok ())
  | fuel + 1, p =>
    if p.length = 0 then ([], .ok ())
    else
      match validateRecord crc p with
      | .corrupt | .torn => ([], .error .refused)
      | .overflow => ([], .error .overflow)
      | .ok rel op key rest =>
        let (out, res) := deliver fuel rest
        (if op ≠ commitByte then (rel, op, key) :: out else out, res)

/-- `txnwal_replay`. -/
def replay (file : Bytes) : List (Bytes × UInt8 × Bytes) × Except WalErr Unit :=
  if file.length < 16 then ([], .error .refused)
  else
    match committedEnd crc file with
    | .error e => ([], .error e)
    | .ok n => deliver crc file.length ((file.take n).drop 16)

end Format

/-! ## One record -/

section Proofs

variable {crc : Bytes → UInt32}

theorem leVal_take (n m : ℕ) (p : Bytes) (h : n ≤ m) : leVal n (p.take m) = leVal n p := by
  induction n generalizing m p with
  | zero => rfl
  | succ n ih =>
    obtain ⟨m, rfl⟩ : ∃ k, m = k + 1 := ⟨m - 1, by omega⟩
    cases p with
    | nil => simp
    | cons b p => simp [leVal, ih m p (by omega)]

theorem leVal_append (n : ℕ) (p rest : Bytes) (h : n ≤ p.length) :
    leVal n (p ++ rest) = leVal n p := by
  rw [← leVal_take n p.length (p ++ rest) h, List.take_left]

theorem length_frame (rel : Bytes) (op : UInt8) (key : Bytes) :
    (frame crc rel op key).length = 11 + rel.length + key.length := by
  simp [frame]
  omega

/-- What a frame can carry. -/
structure FrameOk (rel : Bytes) (op : UInt8) (key : Bytes) : Prop where
  /-- The length of the name is an `u16`. -/
  rel_lt : rel.length < 2 ^ 16
  /-- The length of the key is an `u32`. -/
  key_lt : key.length < 2 ^ 32
  /-- The operation is known. -/
  op_mem : op = RecOp.add.byte ∨ op = RecOp.del.byte ∨ op = commitByte
  /-- A marker has no name. -/
  marker : op = commitByte → rel = []

variable (crc) in
/-- The fields of a frame, wherever it is cut behind them. -/
theorem frame_fields {rel : Bytes} {op : UInt8} {key : Bytes} (h : FrameOk rel op key)
    (rest : Bytes) :
    leVal 2 (frame crc rel op key ++ rest) = rel.length ∧
      (frame crc rel op key ++ rest).getD (2 + rel.length) 0 = op ∧
      leVal 4 ((frame crc rel op key ++ rest).drop (2 + rel.length + 1)) = key.length := by
  set c := le 4 (crc (le 2 rel.length ++ rel ++ [op] ++ le 4 key.length ++ key)).toNat with hc
  have hbytes : frame crc rel op key ++ rest =
      le 2 rel.length ++ (rel ++ (op :: (le 4 key.length ++ (key ++ (c ++ rest))))) := by
    simp [frame, hc]
  have hhead : (le 2 rel.length ++ rel).length = 2 + rel.length := by simp
  refine ⟨?_, ?_, ?_⟩
  · rw [hbytes]
    exact leVal_le 2 _ _ (by have := h.rel_lt; norm_num at this ⊢; omega)
  · rw [List.getD_eq_getElem?_getD, hbytes, ← List.append_assoc,
      List.getElem?_append_right (by omega), hhead]
    simp
  · have hdrop : (frame crc rel op key ++ rest).drop (2 + rel.length + 1) =
        le 4 key.length ++ (key ++ (c ++ rest)) := by
      rw [hbytes, ← List.append_assoc, ← List.drop_drop, List.drop_left' hhead]
      rfl
    rw [hdrop]
    exact leVal_le 4 _ _ (by have := h.key_lt; norm_num at this ⊢; omega)

/-- **A whole record is read back**, unless its size does not fit. -/
theorem validateRecord_frame {rel : Bytes} {op : UInt8} {key : Bytes} (h : FrameOk rel op key)
    (rest : Bytes) : validateRecord crc (frame crc rel op key ++ rest) =
      if 2 ^ 32 ≤ (frame crc rel op key).length then .overflow else .ok rel op key rest := by
  obtain ⟨hrlen, hop, hklen⟩ := frame_fields crc h rest
  set p := frame crc rel op key ++ rest with hp
  have hlen : (frame crc rel op key).length = 11 + rel.length + key.length := length_frame _ _ _
  have hplen : p.length = 11 + rel.length + key.length + rest.length := by
    rw [hp, List.length_append, hlen]
  set body := le 2 rel.length ++ rel ++ [op] ++ le 4 key.length ++ key with hbody
  have hbodylen : body.length = 2 + rel.length + 1 + 4 + key.length := by simp [hbody]; omega
  have hsplit : p = body ++ (le 4 (crc body).toNat ++ rest) := by
    rw [hp]
    simp [frame, hbody]
  have htake : p.take (2 + rel.length + 1 + 4 + key.length) = body := by
    rw [hsplit, List.take_left' hbodylen]
  have hdrop : p.drop (2 + rel.length + 1 + 4 + key.length) = le 4 (crc body).toNat ++ rest := by
    rw [hsplit, List.drop_left' hbodylen]
  have hrest : p.drop (2 + rel.length + 1 + 4 + key.length + 4) = rest := by
    rw [← List.drop_drop, hdrop, List.drop_left' (length_le 4 _)]
  have hrel : (p.drop 2).take rel.length = rel := by
    rw [hsplit, hbody]
    simp only [List.append_assoc]
    rw [List.drop_left' (length_le 2 _), List.take_left]
  have hkey : (p.drop (2 + rel.length + 1 + 4)).take key.length = key := by
    have hhead : (le 2 rel.length ++ rel ++ [op] ++ le 4 key.length).length =
        2 + rel.length + 1 + 4 := by simp; omega
    rw [hsplit, hbody, List.append_assoc, List.drop_left' hhead, List.take_left]
  have hcrc : leVal 4 (p.drop (2 + rel.length + 1 + 4 + key.length)) = (crc body).toNat := by
    rw [hdrop]
    exact leVal_le 4 _ _ (by have := (crc body).toNat_lt; norm_num at this ⊢; omega)
  unfold validateRecord
  simp only [hrlen, hop, hklen, htake, hrest, hrel, hkey, hcrc, hplen, hlen]
  have hmem : ¬ (op ≠ RecOp.add.byte ∧ op ≠ RecOp.del.byte ∧ op ≠ commitByte) := by
    rcases h.op_mem with h | h | h <;> simp [h]
  have hmark : ¬ (op = commitByte ∧ rel.length ≠ 0) := by
    rintro ⟨hop, hlen⟩
    exact hlen (by rw [h.marker hop]; rfl)
  rw [if_neg (by omega), if_neg (by omega), if_neg hmem, if_neg hmark, if_neg (by omega),
    if_neg (by simp)]
  refine if_congr ?_ rfl rfl
  omega

/-- **A record that is cut short is torn.** -/
theorem validateRecord_take {rel : Bytes} {op : UInt8} {key : Bytes} (h : FrameOk rel op key)
    {m : ℕ} (hm : m < (frame crc rel op key).length) :
    validateRecord crc ((frame crc rel op key).take m) = .torn := by
  obtain ⟨hrlen, hop, hklen⟩ := frame_fields crc h []
  rw [List.append_nil] at hrlen hop hklen
  set p := frame crc rel op key with hp
  have hlen : p.length = 11 + rel.length + key.length := length_frame _ _ _
  have hplen : (p.take m).length = m := by
    rw [List.length_take]
    omega
  unfold validateRecord
  simp only [hplen]
  by_cases h11 : m < 11
  · rw [if_pos h11]
  · rw [if_neg h11, leVal_take 2 m p (by omega), hrlen]
    by_cases hhead : m < 2 + rel.length + 1 + 4 + 4
    · rw [if_pos hhead]
    · have hop' : (p.take m).getD (2 + rel.length) 0 = op := by
        rw [← hop, List.getD_eq_getElem?_getD, List.getD_eq_getElem?_getD,
          List.getElem?_take_of_lt (by omega)]
      have hklen' : leVal 4 ((p.take m).drop (2 + rel.length + 1)) = key.length := by
        rw [List.drop_take, leVal_take 4 _ _ (by omega), hklen]
      have hmem : ¬ (op ≠ RecOp.add.byte ∧ op ≠ RecOp.del.byte ∧ op ≠ commitByte) := by
        rcases h.op_mem with h | h | h <;> simp [h]
      have hmark : ¬ (op = commitByte ∧ rel.length ≠ 0) := by
        rintro ⟨hop, hlen⟩
        exact hlen (by rw [h.marker hop]; rfl)
      rw [if_neg hhead, hop', if_neg hmem, if_neg hmark, hklen', if_pos (by omega)]
/-! ## The log as a list of records and markers -/

/-- A record, or a commit marker. -/
abbrev Item := Option TxnRec

/-- The bytes of a record or a marker. -/
def encItem (crc : Bytes → UInt32) : Item → Bytes
  | some r => encRec crc r
  | none => encCommit crc

/-- The bytes of records and markers. -/
def encItems (crc : Bytes → UInt32) (is : List Item) : Bytes := is.flatMap (encItem crc)

/-- The records of transactions, with their markers. -/
def items (txns : List Txn) : List Item := txns.flatMap fun t => t.map some ++ [none]

/-- The bytes of transactions. -/
def encTxns (crc : Bytes → UInt32) (txns : List Txn) : Bytes := encItems crc (items txns)

/-- What `validateRecord` finds of an item. -/
def Item.result (rest : Bytes) : Item → RecResult
  | some r => .ok r.rel r.op.byte r.key rest
  | none => .ok [] commitByte [] rest

theorem frameOk_rec (r : TxnRec) : FrameOk r.rel r.op.byte r.key where
  rel_lt := r.rel_lt
  key_lt := r.key_lt
  op_mem := by cases r.op <;> simp [RecOp.byte]
  marker h := by cases hop : r.op <;> rw [hop] at h <;> cases h

theorem frameOk_commit : FrameOk [] commitByte [] where
  rel_lt := by simp
  key_lt := by simp
  op_mem := by simp
  marker _ := rfl

theorem validateRecord_encItem (i : Item) (rest : Bytes) :
    validateRecord crc (encItem crc i ++ rest) =
      if 2 ^ 32 ≤ (encItem crc i).length then .overflow else i.result rest := by
  cases i with
  | some r => exact validateRecord_frame (frameOk_rec r) rest
  | none => exact validateRecord_frame frameOk_commit rest

theorem validateRecord_take_encItem (i : Item) {m : ℕ} (hm : m < (encItem crc i).length) :
    validateRecord crc ((encItem crc i).take m) = .torn := by
  cases i with
  | some r => exact validateRecord_take (frameOk_rec r) hm
  | none => exact validateRecord_take frameOk_commit hm

variable (crc) in
theorem length_encItem_pos (i : Item) : 11 ≤ (encItem crc i).length := by
  cases i with
  | some r =>
    show 11 ≤ (frame crc _ _ _).length
    rw [length_frame]
    omega
  | none =>
    show 11 ≤ (frame crc _ _ _).length
    rw [length_frame]
    omega

@[simp] theorem encItems_nil : encItems crc [] = [] := rfl

@[simp] theorem encItems_cons (i : Item) (is : List Item) :
    encItems crc (i :: is) = encItem crc i ++ encItems crc is := rfl

@[simp] theorem encItems_append (is js : List Item) :
    encItems crc (is ++ js) = encItems crc is ++ encItems crc js := List.flatMap_append

/-- Nothing that follows starts a record. -/
def NoRecord (crc : Bytes → UInt32) (p : Bytes) : Prop :=
  validateRecord crc p = .torn ∨ validateRecord crc p = .corrupt

/-- The items that fit their `u32` size. -/
def Fits (crc : Bytes → UInt32) (is : List Item) : Prop :=
  ∀ i ∈ is, (encItem crc i).length < 2 ^ 32

/-- Where the last marker ends. -/
def lastMarker (crc : Bytes → UInt32) : List Item → ℕ → ℕ → ℕ
  | [], _, committed => committed
  | i :: is, off, committed =>
    let off := off + (encItem crc i).length
    lastMarker crc is off (if i.isNone then off else committed)

/-- **The scan of a log** ends at its last marker, when every record fits. -/
theorem commitScan_encItems (is : List Item) {tail : Bytes} (htail : NoRecord crc tail)
    {fuel : ℕ} (off committed : ℕ) (hfuel : is.length ≤ fuel) :
    (Fits crc is → commitScan crc fuel (encItems crc is ++ tail) off committed =
        .ok (lastMarker crc is off committed)) ∧
      (¬ Fits crc is → commitScan crc fuel (encItems crc is ++ tail) off committed =
        .error .overflow) := by
  induction is generalizing fuel off committed with
  | nil =>
    refine ⟨fun _ => ?_, fun h => absurd (fun i hi => by cases hi) h⟩
    cases fuel with
    | zero => rfl
    | succ fuel =>
      rw [encItems_nil, List.nil_append, commitScan]
      rcases htail with h | h <;> rw [h] <;> rfl
  | cons i is ih =>
    obtain ⟨fuel, rfl⟩ : ∃ k, fuel = k + 1 := ⟨fuel - 1, by simp at hfuel; omega⟩
    have hfuel' : is.length ≤ fuel := by simpa using hfuel
    rw [encItems_cons, List.append_assoc, commitScan, validateRecord_encItem]
    by_cases hi : 2 ^ 32 ≤ (encItem crc i).length
    · rw [if_pos hi]
      refine ⟨fun h => absurd (h i (by simp)) (by omega), fun _ => rfl⟩
    · rw [if_neg hi]
      have hfits : Fits crc (i :: is) ↔ Fits crc is :=
        ⟨fun h j hj => h j (by simp [hj]), fun h => List.forall_mem_cons.mpr ⟨by omega, h⟩⟩
      have hlen : off + ((encItem crc i ++ (encItems crc is ++ tail)).length -
          (encItems crc is ++ tail).length) = off + (encItem crc i).length := by
        rw [List.length_append]
        omega
      rw [hfits]
      cases i with
      | some r =>
        have hop : r.op.byte ≠ commitByte := by cases r.op <;> decide
        simp only [Item.result, hlen, if_neg hop]
        exact ih _ _ hfuel'
      | none =>
        simp only [Item.result, hlen, if_pos]
        exact ih _ _ hfuel'

/-! ## Cuts -/

/-- The items that lie whole in the first `m` bytes. -/
def whole (crc : Bytes → UInt32) : ℕ → List Item → List Item
  | _, [] => []
  | m, i :: is =>
    if (encItem crc i).length ≤ m then i :: whole crc (m - (encItem crc i).length) is else []

variable (crc) in
/-- **A cut leaves whole items and a piece that is no record.** -/
theorem take_encItems (is : List Item) (m : ℕ) :
    ∃ piece, (encItems crc is).take m = encItems crc (whole crc m is) ++ piece ∧
      NoRecord crc piece := by
  have hnil : NoRecord crc [] := .inl rfl
  induction is generalizing m with
  | nil => exact ⟨[], by simp [whole], hnil⟩
  | cons i is ih =>
    unfold whole
    by_cases hi : (encItem crc i).length ≤ m
    · obtain ⟨piece, hpiece, hno⟩ := ih (m - (encItem crc i).length)
      refine ⟨piece, ?_, hno⟩
      rw [if_pos hi, encItems_cons, encItems_cons, List.take_append, List.take_of_length_le hi,
        hpiece, List.append_assoc]
    · refine ⟨(encItem crc i).take m, ?_, .inl (validateRecord_take_encItem i (by omega))⟩
      rw [if_neg hi, encItems_cons, List.take_append_of_le_length (by omega)]
      rfl

/-- The transactions whose marker lies in the first `m` bytes. -/
def survivors (crc : Bytes → UInt32) : ℕ → List Txn → List Txn
  | _, [] => []
  | m, t :: ts =>
    if (encTxns crc [t]).length ≤ m then t :: survivors crc (m - (encTxns crc [t]).length) ts
    else []

theorem encTxns_cons (t : Txn) (ts : List Txn) :
    encTxns crc (t :: ts) = encTxns crc [t] ++ encTxns crc ts := by
  simp [encTxns, items]

theorem whole_append_of_le (is js : List Item) {m : ℕ} (hm : (encItems crc is).length ≤ m) :
    whole crc m (is ++ js) = is ++ whole crc (m - (encItems crc is).length) js := by
  induction is generalizing m with
  | nil => rfl
  | cons i is ih =>
    rw [encItems_cons, List.length_append] at hm ⊢
    rw [List.cons_append, whole, if_pos (by omega), ih (by omega), Nat.sub_sub]
    rfl

theorem whole_append_of_lt (is js : List Item) {m : ℕ} (hm : m < (encItems crc is).length) :
    whole crc m (is ++ js) = whole crc m is := by
  induction is generalizing m with
  | nil => simp at hm
  | cons i is ih =>
    rw [encItems_cons, List.length_append] at hm
    rw [List.cons_append, whole, whole]
    by_cases hi : (encItem crc i).length ≤ m
    · rw [if_pos hi, if_pos hi, ih (by omega)]
    · rw [if_neg hi, if_neg hi]

/-- A cut before the marker leaves records only. -/
theorem none_notMem_whole (t : Txn) {m : ℕ} (hm : m < (encTxns crc [t]).length) :
    none ∉ whole crc m (t.map some ++ [none]) := by
  have hlen : encTxns crc [t] = encItems crc (t.map some ++ [none]) := by
    simp [encTxns, items]
  rw [hlen] at hm
  induction t generalizing m with
  | nil =>
    simp only [List.map_nil, List.nil_append, encItems_cons, encItems_nil, List.append_nil] at hm ⊢
    rw [whole, if_neg (by omega)]
    exact List.not_mem_nil
  | cons r t ih =>
    rw [List.map_cons, List.cons_append, encItems_cons, List.length_append] at hm
    rw [List.map_cons, List.cons_append, whole]
    by_cases hr : (encItem crc (some r)).length ≤ m
    · rw [if_pos hr, List.mem_cons, not_or]
      refine ⟨by simp, ih (by omega) ?_⟩
      simp [encTxns, items]
    · rw [if_neg hr]
      exact List.not_mem_nil

variable (crc) in
/-- **The whole items of a cut** are those of the surviving transactions and records
without a marker. -/
theorem whole_items (txns : List Txn) (m : ℕ) :
    ∃ more, whole crc m (items txns) = items (survivors crc m txns) ++ more ∧ none ∉ more := by
  induction txns generalizing m with
  | nil => exact ⟨[], rfl, List.not_mem_nil⟩
  | cons t ts ih =>
    have hitems : items (t :: ts) = (t.map some ++ [none]) ++ items ts := rfl
    have hone : encTxns crc [t] = encItems crc (t.map some ++ [none]) := by
      simp [encTxns, items]
    rw [hitems, survivors]
    by_cases ht : (encTxns crc [t]).length ≤ m
    · obtain ⟨more, hmore, hno⟩ := ih (m - (encTxns crc [t]).length)
      refine ⟨more, ?_, hno⟩
      rw [whole_append_of_le _ _ (hone ▸ ht), if_pos ht, ← hone, hmore]
      simp [items]
    · refine ⟨whole crc m (t.map some ++ [none]), ?_, none_notMem_whole t (by omega)⟩
      rw [whole_append_of_lt _ _ (by rw [← hone]; omega), if_neg ht]
      rfl

theorem lastMarker_append (is js : List Item) (off committed : ℕ) :
    lastMarker crc (is ++ js) off committed =
      lastMarker crc js (off + (encItems crc is).length) (lastMarker crc is off committed) := by
  induction is generalizing off committed with
  | nil => rfl
  | cons i is ih =>
    rw [List.cons_append, lastMarker, ih, lastMarker, encItems_cons, List.length_append, add_assoc]

theorem lastMarker_records (is : List Item) (h : none ∉ is) (off committed : ℕ) :
    lastMarker crc is off committed = committed := by
  induction is generalizing off with
  | nil => rfl
  | cons i is ih =>
    rw [List.mem_cons, not_or] at h
    cases i with
    | some r => exact ih h.2 _
    | none => exact absurd rfl h.1

theorem lastMarker_items (txns : List Txn) (off : ℕ) :
    lastMarker crc (items txns) off off = off + (encTxns crc txns).length := by
  induction txns generalizing off with
  | nil => rfl
  | cons t ts ih =>
    have hitems : items (t :: ts) = t.map some ++ ([none] ++ items ts) := by simp [items]
    have hrecs : lastMarker crc (t.map some) off off = off := lastMarker_records _ (by simp) _ _
    rw [hitems, lastMarker_append, lastMarker_append, hrecs, encTxns_cons, List.length_append]
    have hone : (encTxns crc [t]).length =
        (encItems crc (t.map some)).length + (encItems crc [none]).length := by
      simp [encTxns, items]
    have hmark : lastMarker crc [none] (off + (encItems crc (t.map some)).length) off =
        off + (encItems crc (t.map some)).length + (encItems crc [none]).length := by
      simp [lastMarker]
    rw [hmark, ih, hone]
    omega

/-! ## Recovery -/

/-- A record, as the callback gets it. -/
def TxnRec.triple (r : TxnRec) : Bytes × UInt8 × Bytes := (r.rel, r.op.byte, r.key)

/-- **Delivery** of a log whose records fit. -/
theorem deliver_encItems (is : List Item) (h : Fits crc is) {fuel : ℕ} (hfuel : is.length ≤ fuel) :
    deliver crc fuel (encItems crc is) = ((is.filterMap id).map TxnRec.triple, .ok ()) := by
  induction is generalizing fuel with
  | nil => cases fuel <;> rfl
  | cons i is ih =>
    obtain ⟨fuel, rfl⟩ : ∃ k, fuel = k + 1 := ⟨fuel - 1, by simp at hfuel; omega⟩
    have hi : ¬ 2 ^ 32 ≤ (encItem crc i).length := by
      have := h i (by simp)
      omega
    have hpos : (encItems crc (i :: is)).length ≠ 0 := by
      have := length_encItem_pos crc i
      rw [encItems_cons, List.length_append]
      omega
    rw [deliver, if_neg hpos, encItems_cons, validateRecord_encItem, if_neg hi]
    have hrest := ih (fun j hj => h j (by simp [hj])) (by simpa using hfuel)
    cases i with
    | some r =>
      have hop : r.op.byte ≠ commitByte := by cases r.op <;> decide
      simp [Item.result, hrest, hop, TxnRec.triple]
    | none => simp [Item.result, hrest]

theorem filterMap_items (txns : List Txn) : (items txns).filterMap id = txns.flatten := by
  induction txns with
  | nil => rfl
  | cons t ts ih =>
    have hitems : items (t :: ts) = t.map some ++ ([none] ++ items ts) := by simp [items]
    rw [hitems, List.filterMap_append, List.filterMap_append, ih]
    simp

variable (crc) in
theorem length_le_encItems (is : List Item) : is.length ≤ (encItems crc is).length := by
  induction is with
  | nil => exact Nat.zero_le _
  | cons i is ih =>
    have := length_encItem_pos crc i
    rw [encItems_cons, List.length_append, List.length_cons]
    omega

theorem validateHeader_append {head : Bytes} (hlen : head.length = 16) (rest : Bytes) :
    validateHeader crc (head ++ rest) = validateHeader crc head := by
  have h4 : leVal 4 ((head ++ rest).drop 4) = leVal 4 (head.drop 4) := by
    rw [List.drop_append_of_le_length (by omega), leVal_append _ _ _ (by rw [List.length_drop]; omega)]
  have h12 : leVal 4 ((head ++ rest).drop 12) = leVal 4 (head.drop 12) := by
    rw [List.drop_append_of_le_length (by omega), leVal_append _ _ _ (by rw [List.length_drop]; omega)]
  unfold validateHeader
  rw [List.take_append_of_le_length (by omega), List.take_append_of_le_length (by omega), h4, h12]
  simp [hlen]

theorem length_header : (header crc).length = 16 := by
  simp [header]

theorem validateHeader_header : validateHeader crc (header crc) = true := by
  have hcrc := leVal_le 4 (crc [0x44, 0x54, 0x58, 0x4C, 1, 0, 0, 0, 0, 0, 0, 0]).toNat []
    (by have := (crc [0x44, 0x54, 0x58, 0x4C, 1, 0, 0, 0, 0, 0, 0, 0]).toNat_lt
        norm_num at this ⊢
        omega)
  rw [List.append_nil] at hcrc
  have h12 : (header crc).take 12 = [0x44, 0x54, 0x58, 0x4C, 1, 0, 0, 0, 0, 0, 0, 0] :=
    List.take_left' rfl
  have h12' : (header crc).drop 12 =
      le 4 (crc [0x44, 0x54, 0x58, 0x4C, 1, 0, 0, 0, 0, 0, 0, 0]).toNat := List.drop_left' rfl
  unfold validateHeader
  rw [length_header, h12, h12', hcrc]
  simp only [le_refl, decide_true, Bool.true_and, Bool.and_true, Bool.and_eq_true,
    decide_eq_true_eq]
  exact ⟨rfl, rfl⟩

/-- **The committed end of a log**: the last marker, when every record fits. -/
theorem committedEnd_log {head : Bytes} (hlen : head.length = 16)
    (hhead : validateHeader crc head = true) (is : List Item) {tail : Bytes}
    (htail : NoRecord crc tail) :
    (Fits crc is → committedEnd crc (head ++ (encItems crc is ++ tail)) =
        .ok (lastMarker crc is 16 16)) ∧
      (¬ Fits crc is → committedEnd crc (head ++ (encItems crc is ++ tail)) = .error .overflow) := by
  have hfuel : is.length ≤ (head ++ (encItems crc is ++ tail)).length := by
    have := length_le_encItems crc is
    simp only [List.length_append]
    omega
  unfold committedEnd
  rw [validateHeader_append hlen, if_pos hhead, List.drop_left' hlen]
  exact commitScan_encItems is htail 16 16 hfuel

/-- The log the appends of transactions leave. -/
def logFile (crc : Bytes → UInt32) (txns : List Txn) : Bytes :=
  txns.foldl (appendTxn crc) (header crc)

theorem foldl_appendTxn (txns : List Txn) (file : Bytes) :
    txns.foldl (appendTxn crc) file = file ++ encTxns crc txns := by
  have hrecs : ∀ (t : Txn) (file : Bytes),
      t.foldl (appendRecord crc) file = file ++ encItems crc (t.map some) := by
    intro t
    induction t with
    | nil => intro file; simp
    | cons r t ih =>
      intro file
      rw [List.foldl_cons, ih, List.map_cons, encItems_cons, appendRecord, List.append_assoc]
      rfl
  induction txns generalizing file with
  | nil => simp [encTxns, items]
  | cons t ts ih =>
    rw [List.foldl_cons, ih, encTxns_cons, appendTxn, appendCommit, hrecs]
    simp [encTxns, items, encItem]

/-- The log cut after `n` bytes, with other bytes behind the cut. -/
def damaged (crc : Bytes → UInt32) (txns : List Txn) (n : ℕ) (junk : Bytes) : Bytes :=
  (logFile crc txns).take n ++ junk

/-- The items that lie whole before the cut. -/
def kept (crc : Bytes → UInt32) (txns : List Txn) (n : ℕ) : List Item :=
  whole crc (n - 16) (items txns)

/-- What follows them. -/
def leftover (crc : Bytes → UInt32) (txns : List Txn) (n : ℕ) (junk : Bytes) : Bytes :=
  (damaged crc txns n junk).drop (16 + (encItems crc (kept crc txns n)).length)

/-- The header that is kept: the one in the file, or a new one. -/
def headOf (crc : Bytes → UInt32) (file : Bytes) : Bytes :=
  if validateHeader crc file then file.take 16 else header crc

/-- The log of the surviving transactions. -/
def recovered (crc : Bytes → UInt32) (txns : List Txn) (n : ℕ) (junk : Bytes) : Bytes :=
  headOf crc (damaged crc txns n junk) ++ encTxns crc (survivors crc (n - 16) txns)

/-- Recovery gives back exactly the surviving transactions. -/
structure Recovers (crc : Bytes → UInt32) (txns : List Txn) (n : ℕ) (junk : Bytes) : Prop where
  /-- Replay delivers their records, in order. -/
  delivers : (replay crc (damaged crc txns n junk)).1 =
    (survivors crc (n - 16) txns).flatten.map TxnRec.triple
  /-- Replay ends well when the header is whole. -/
  ends : 16 ≤ n → (replay crc (damaged crc txns n junk)).2 = .ok ()
  /-- Opening cuts the file back to them. -/
  opens : openRw crc (damaged crc txns n junk) = .ok (recovered crc txns n junk)
  /-- Opening again changes nothing. -/
  again : openRw crc (recovered crc txns n junk) = .ok (recovered crc txns n junk)
  /-- Later appends come after them, and expose nothing else. -/
  later : ∀ more, Fits crc (items more) →
    replay crc (more.foldl (appendTxn crc) (recovered crc txns n junk)) =
      ((survivors crc (n - 16) txns ++ more).flatten.map TxnRec.triple, .ok ())

/-- The header can be read, or there is none. -/
def Readable (crc : Bytes → UInt32) (file : Bytes) : Prop :=
  file.length = 0 ∨ file.length = 16 ∨ validateHeader crc file = true

variable (crc) in
theorem length_headOf (file : Bytes) : (headOf crc file).length = 16 := by
  unfold headOf
  split
  · rename_i h
    have hlen : 16 ≤ file.length := by
      unfold validateHeader at h
      simp only [Bool.and_eq_true, decide_eq_true_eq] at h
      exact h.1.1.1
    rw [List.length_take]
    omega
  · exact length_header

variable (crc) in
theorem validateHeader_headOf (file : Bytes) : validateHeader crc (headOf crc file) = true := by
  unfold headOf
  split
  · rename_i h
    have hlen : (file.take 16).length = 16 := by
      have := length_headOf crc file
      unfold headOf at this
      rwa [if_pos h] at this
    rw [← validateHeader_append hlen (file.drop 16), List.take_append_drop]
    exact h
  · exact validateHeader_header

theorem noRecord_nil : NoRecord crc [] := .inl rfl

/-- A log whose records fit is replayed whole. -/
theorem replay_log {head : Bytes} (hlen : head.length = 16)
    (hhead : validateHeader crc head = true) {txns : List Txn} {more : List Item}
    (hmore : none ∉ more) (hfits : Fits crc (items txns ++ more)) {tail : Bytes}
    (htail : NoRecord crc tail) :
    replay crc (head ++ (encItems crc (items txns ++ more) ++ tail)) =
      (txns.flatten.map TxnRec.triple, .ok ()) := by
  have hend := (committedEnd_log hlen hhead (items txns ++ more) htail).1 hfits
  rw [lastMarker_append, lastMarker_records _ hmore, lastMarker_items] at hend
  have htake : ((head ++ (encItems crc (items txns ++ more) ++ tail)).take
      (16 + (encTxns crc txns).length)).drop 16 = encItems crc (items txns) := by
    rw [List.drop_take, List.drop_left' hlen, Nat.add_sub_cancel_left, encItems_append,
      List.append_assoc]
    exact List.take_left
  have hfuel : (items txns).length ≤
      (head ++ (encItems crc (items txns ++ more) ++ tail)).length := by
    have := length_le_encItems crc (items txns)
    simp only [encItems_append, List.length_append]
    omega
  unfold replay
  rw [if_neg (by simp [hlen]), hend]
  dsimp only
  rw [htake, deliver_encItems _ (fun i hi => hfits i (by simp [hi])) hfuel, filterMap_items]

/-- A log whose records fit is cut back to its transactions. -/
theorem openRw_log {head : Bytes} (hlen : head.length = 16)
    (hhead : validateHeader crc head = true) {txns : List Txn} {more : List Item}
    (hmore : none ∉ more) (hfits : Fits crc (items txns ++ more)) {tail : Bytes}
    (htail : NoRecord crc tail) :
    openRw crc (head ++ (encItems crc (items txns ++ more) ++ tail)) =
      .ok (head ++ encTxns crc txns) := by
  have hend := (committedEnd_log hlen hhead (items txns ++ more) htail).1 hfits
  rw [lastMarker_append, lastMarker_records _ hmore, lastMarker_items] at hend
  unfold openRw
  rw [if_neg (by simp [hlen]), validateHeader_append hlen, if_pos hhead, hend]
  dsimp only
  rw [List.take_append, List.take_of_length_le (by omega), hlen, Nat.add_sub_cancel_left,
    encItems_append, List.append_assoc]
  exact congrArg (fun x => Except.ok (head ++ x)) List.take_left

variable (crc) in
/-- The bytes behind the header are the kept items and what follows them. -/
theorem drop_damaged (txns : List Txn) (n : ℕ) (junk : Bytes) :
    (damaged crc txns n junk).drop 16 =
      encItems crc (kept crc txns n) ++ leftover crc txns n junk := by
  unfold leftover
  rw [← List.drop_drop]
  by_cases hn : 16 ≤ n
  · obtain ⟨piece, hpiece, -⟩ := take_encItems crc (items txns) (n - 16)
    have hdrop : (damaged crc txns n junk).drop 16 =
        encItems crc (kept crc txns n) ++ (piece ++ junk) := by
      unfold damaged logFile
      rw [foldl_appendTxn, List.take_append, List.take_of_length_le (by rw [length_header]; omega),
        length_header, List.append_assoc, List.drop_left' length_header]
      show (encItems crc (items txns)).take (n - 16) ++ junk = _
      rw [hpiece, List.append_assoc]
      rfl
    rw [hdrop, List.drop_left]
  · have hkept : kept crc txns n = [] := by
      unfold kept
      rw [show n - 16 = 0 by omega]
      cases items txns with
      | nil => rfl
      | cons i is =>
        have := length_encItem_pos crc i
        rw [whole, if_neg (by omega)]
    rw [hkept]
    rfl

/-- What a cut leaves behind the kept items is no record. -/
theorem noRecord_leftover (txns : List Txn) (n : ℕ) (junk : Bytes)
    (hjunk : junk ≠ [] → NoRecord crc (leftover crc txns n junk)) :
    NoRecord crc (leftover crc txns n junk) := by
  by_cases hj : junk = []
  · subst hj
    have hdrop := drop_damaged crc txns n []
    by_cases hn : 16 ≤ n
    · obtain ⟨piece, hpiece, hno⟩ := take_encItems crc (items txns) (n - 16)
      have hdrop' : (damaged crc txns n []).drop 16 = encItems crc (kept crc txns n) ++ piece := by
        unfold damaged logFile
        rw [foldl_appendTxn, List.take_append,
          List.take_of_length_le (by rw [length_header]; omega), length_header, List.append_nil,
          List.drop_left' length_header]
        exact hpiece
      rw [hdrop'] at hdrop
      rwa [← List.append_cancel_left hdrop]
    · have hlen : (damaged crc txns n []).length ≤ n := by
        simp [damaged]
      have hnil : (damaged crc txns n []).drop 16 = [] := List.drop_eq_nil_of_le (by omega)
      rw [hnil] at hdrop
      rw [(List.append_eq_nil_iff.mp hdrop.symm).2]
      exact noRecord_nil
  · exact hjunk hj

/-- A cut behind the header leaves it readable. -/
theorem validateHeader_damaged (txns : List Txn) {n : ℕ} (hn : 16 ≤ n) (junk : Bytes) :
    validateHeader crc (damaged crc txns n junk) = true := by
  unfold damaged logFile
  rw [foldl_appendTxn, List.take_append, List.take_of_length_le (by rw [length_header]; omega),
    List.append_assoc, validateHeader_append length_header]
  exact validateHeader_header

/-- Without a readable header nothing survives. -/
theorem survivors_zero (txns : List Txn) : survivors crc 0 txns = [] := by
  cases txns with
  | nil => rfl
  | cons t ts =>
    have hpos : 0 < (encTxns crc [t]).length := by
      have hmark := length_encItem_pos crc none
      have hone : encTxns crc [t] = encItems crc (t.map some) ++ encItem crc none := by
        simp [encTxns, items]
      rw [hone, List.length_append]
      omega
    rw [survivors, if_neg (by omega)]

/-- A recovered log is opened as it is. -/
theorem openRw_recovered {txns : List Txn} {n : ℕ} {junk : Bytes}
    (hfits : Fits crc (items (survivors crc (n - 16) txns))) :
    openRw crc (recovered crc txns n junk) = .ok (recovered crc txns n junk) := by
  have hfits' : Fits crc (items (survivors crc (n - 16) txns) ++ []) := by simpa using hfits
  have h := openRw_log (length_headOf crc (damaged crc txns n junk)) (validateHeader_headOf crc _)
    List.not_mem_nil hfits' noRecord_nil
  rw [List.append_nil, List.append_nil] at h
  exact h

/-- What is appended to a recovered log is delivered after the survivors. -/
theorem replay_appended {txns : List Txn} {n : ℕ} {junk : Bytes}
    (hfits : Fits crc (items (survivors crc (n - 16) txns))) (more : List Txn)
    (hmore : Fits crc (items more)) :
    replay crc (more.foldl (appendTxn crc) (recovered crc txns n junk)) =
      ((survivors crc (n - 16) txns ++ more).flatten.map TxnRec.triple, .ok ()) := by
  have hitems : items (survivors crc (n - 16) txns ++ more) =
      items (survivors crc (n - 16) txns) ++ items more := by simp [items]
  have hfits' : Fits crc (items (survivors crc (n - 16) txns ++ more) ++ []) := by
    rw [List.append_nil, hitems]
    exact List.forall_mem_append.mpr ⟨hfits, hmore⟩
  have h := replay_log (length_headOf crc (damaged crc txns n junk)) (validateHeader_headOf crc _)
    List.not_mem_nil hfits' noRecord_nil
  rw [List.append_nil, List.append_nil, hitems, encItems_append, ← List.append_assoc] at h
  rw [foldl_appendTxn]
  exact h

/-- **Transaction log recovery**, for every cut and everything behind it that is no
record: it gives back exactly the surviving transactions if and only if the header can
be read, or there is none, and every record before the cut is smaller than `2 ^ 32`
bytes. -/
theorem recovers_iff (crc : Bytes → UInt32) (txns : List Txn) (n : ℕ) (junk : Bytes)
    (hjunk : junk ≠ [] → NoRecord crc (leftover crc txns n junk)) :
    Recovers crc txns n junk ↔
      Readable crc (damaged crc txns n junk) ∧ Fits crc (kept crc txns n) := by
  have hno := noRecord_leftover txns n junk hjunk
  obtain ⟨more, hkept, hmore⟩ := whole_items crc txns (n - 16)
  have hhead := length_headOf crc (damaged crc txns n junk)
  have hvalid := validateHeader_headOf crc (damaged crc txns n junk)
  by_cases hv : validateHeader crc (damaged crc txns n junk) = true
  · -- the file is its header, the kept items and what follows them
    have hfile : damaged crc txns n junk = headOf crc (damaged crc txns n junk) ++
        (encItems crc (kept crc txns n) ++ leftover crc txns n junk) := by
      rw [← drop_damaged, headOf, if_pos hv, List.take_append_drop]
    have hpos : (damaged crc txns n junk).length ≠ 0 := by
      rw [hfile, List.length_append, hhead]
      omega
    constructor
    · intro h
      refine ⟨.inr (.inr hv), ?_⟩
      by_contra hfits
      have hend := (committedEnd_log hhead hvalid _ hno).2 hfits
      rw [← hfile] at hend
      have hopen := h.opens
      unfold openRw at hopen
      rw [if_neg hpos, if_pos hv, hend] at hopen
      cases hopen
    · rintro ⟨-, hfits⟩
      have hk : kept crc txns n = items (survivors crc (n - 16) txns) ++ more := hkept
      rw [hk] at hfits hfile
      have hreplay := replay_log hhead hvalid hmore hfits hno
      have hopen := openRw_log hhead hvalid hmore hfits hno
      rw [← hfile] at hreplay hopen
      have hsurv : Fits crc (items (survivors crc (n - 16) txns)) := fun i hi =>
        hfits i (List.mem_append_left _ hi)
      exact ⟨by rw [hreplay], fun _ => by rw [hreplay], hopen, openRw_recovered hsurv,
        replay_appended hsurv⟩
  · -- no readable header: the cut lies in it, so nothing survives
    have hn : n < 16 := by
      by_contra hn
      exact hv (validateHeader_damaged txns (by omega) junk)
    have hsurv : survivors crc (n - 16) txns = [] := by
      rw [show n - 16 = 0 by omega]
      exact survivors_zero txns
    rw [hsurv] at hkept
    have hfits : Fits crc (kept crc txns n) := fun i hi => by
      have hzero : kept crc txns n = [] := by
        unfold kept
        rw [show n - 16 = 0 by omega]
        cases items txns with
        | nil => rfl
        | cons j js =>
          have := length_encItem_pos crc j
          rw [whole, if_neg (by omega)]
      rw [hzero] at hi
      cases hi
    have hrec : recovered crc txns n junk = header crc := by
      unfold recovered headOf
      rw [if_neg hv, hsurv]
      simp [encTxns, items]
    have hend : committedEnd crc (damaged crc txns n junk) = .error .refused := by
      unfold committedEnd
      rw [if_neg hv]
    constructor
    · intro h
      refine ⟨?_, hfits⟩
      have hopen := h.opens
      unfold openRw at hopen
      by_cases hzero : (damaged crc txns n junk).length = 0
      · exact .inl hzero
      · rw [if_neg hzero, if_neg hv] at hopen
        by_cases hlen : (damaged crc txns n junk).length = 16
        · exact .inr (.inl hlen)
        · rw [if_neg hlen] at hopen
          cases hopen
    · rintro ⟨hread, -⟩
      have hopen : openRw crc (damaged crc txns n junk) = .ok (recovered crc txns n junk) := by
        unfold openRw
        rw [hrec]
        rcases hread with h | h | h
        · rw [if_pos h]
        · rw [if_neg (by omega), if_neg hv, if_pos h]
        · exact absurd h hv
      have hreplay : (replay crc (damaged crc txns n junk)).1 = [] := by
        unfold replay
        split
        · rfl
        · rw [hend]
      refine ⟨by rw [hreplay, hsurv]; rfl, fun h => absurd h (by omega), hopen,
        openRw_recovered (by rw [hsurv]; exact fun i hi => by cases hi),
        replay_appended (by rw [hsurv]; exact fun i hi => by cases hi)⟩

end Proofs

/-! ## Sample logs -/

/-- The record that adds a row with a key of `k` zero bytes to `r`. -/
def zeroRec (k : ℕ) (hk : k < 2 ^ 32) : TxnRec :=
  ⟨[0x72], .add, List.replicate k 0, by decide, by decide, by rwa [List.length_replicate]⟩

/-- One short transaction, and three bytes that are no record behind it. -/
theorem recovers_short : Recovers (fun _ => 0) [[zeroRec 4 (by norm_num)]] 43 [1, 2, 3] :=
  (recovers_iff (fun _ => 0) [[zeroRec 4 (by norm_num)]] 43 [1, 2, 3]
    fun _ => .inl (by decide)).mpr ⟨.inr (.inr (by decide)), by unfold Fits; decide⟩

/-- A log with a record whose size does not fit is not recovered. -/
theorem not_recovers_of_big (crc : Bytes → UInt32) {r : TxnRec}
    (hr : 2 ^ 32 ≤ (encRec crc r).length) :
    ¬ Recovers crc [[r]] (logFile crc [[r]]).length [] := by
  intro h
  have hfile : damaged crc [[r]] (logFile crc [[r]]).length [] =
      header crc ++ (encItems crc [some r, none] ++ []) := by
    unfold damaged
    rw [List.take_length, List.append_nil, List.append_nil, logFile, foldl_appendTxn]
    rfl
  have hbig : ¬ Fits crc [some r, none] := fun hfits =>
    absurd (hfits (some r) (by simp)) (not_lt.mpr hr)
  have hno : NoRecord crc [] := noRecord_nil
  have hend := (committedEnd_log length_header validateHeader_header [some r, none] hno).2 hbig
  have hopen := h.opens
  unfold openRw at hopen
  rw [hfile] at hopen
  rw [if_neg (by simp [length_header]), validateHeader_append length_header,
    if_pos validateHeader_header, hend] at hopen
  cases hopen

/-- **Two logs that are not recovered**: a header cut short is refused, and the size of
a record of `2 ^ 32` bytes does not fit. -/
theorem recovery_fails :
    (∀ crc, ¬ Recovers crc [] 8 []) ∧ ∃ r : TxnRec, r.rel = [0x72] ∧ r.key.length = 2 ^ 32 - 12 ∧
      ∀ crc, ¬ Recovers crc [[r]] (logFile crc [[r]]).length [] := by
  constructor
  · intro crc h
    have hlen : (damaged crc [] 8 []).length = 8 := by
      simp [damaged, logFile, length_header]
    have hopen := h.opens
    unfold openRw at hopen
    rw [if_neg (by omega), if_neg (by simp [validateHeader, hlen]), if_neg (by omega)] at hopen
    cases hopen
  · obtain ⟨k, hk⟩ : ∃ k, k = 2 ^ 32 - 12 := ⟨_, rfl⟩
    refine ⟨zeroRec k (by omega), rfl, List.length_replicate.trans hk, fun crc => ?_⟩
    refine not_recovers_of_big crc ?_
    have hlen : (encRec crc (zeroRec k (by omega))).length = 11 + 1 + k := by
      show (frame crc _ _ _).length = _
      rw [length_frame]
      simp [zeroRec]
    omega

end DatalogDafsa.TxnWal
