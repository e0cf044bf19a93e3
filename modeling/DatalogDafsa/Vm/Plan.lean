import DatalogDafsa.Vm.Exec

/-!
# What a rule derives

The interpreter visits rows in some order, through indices and materialized
buffers, and hands out head rows.  This file says which: each atom instruction
chooses a row of its *source* and extends the bindings by it, each test keeps the
bindings, and the head row is read off at the end.  A `Plan` is the tree a rule's
bytecode spells: one pipeline of instructions, or a join of two sub-plans followed
by one.

## Main definitions

* `Sig`, `rowMatch` — matching one row of a source against an instruction.
* `Env`, `Succ`, `Reach` — what a rule reads, and one or several instructions on it.
* `Plan`, `Plan.sol` — a plan and its head rows.
* `Plan.sol_mono`, `Plan.sol_instance` — head rows are monotone in the sources, and
  each is derived from one row of each source.
-/

namespace DatalogDafsa

/-! ## Bindings only grow -/

/-- `b'` binds what `b` binds, to the same values. -/
def Bindings.Le (b b' : Bindings) : Prop := ∀ s v, b s = some v → b' s = some v

theorem Bindings.Le.refl (b : Bindings) : b.Le b := fun _ _ h => h

theorem Bindings.Le.trans {b₁ b₂ b₃ : Bindings} (h : b₁.Le b₂) (h' : b₂.Le b₃) : b₁.Le b₃ :=
  fun s v hs => h' s v (h s v hs)

theorem Bindings.Le.bOk {b b' : Bindings} (h : b.Le b') {s : ℕ} (hs : bOk b s = true) :
    bOk b' s = true := by
  simp only [DatalogDafsa.bOk, Bool.and_eq_true, decide_eq_true_eq, Option.isSome_iff_exists] at hs ⊢
  exact ⟨hs.1, hs.2.imp fun v hv => h s v hv⟩

theorem bTry_le {b b' : Bindings} {s : ℕ} {v : Val} (h : bTry b s v = some b') : b.Le b' := by
  unfold bTry at h
  split at h
  · cases h
  · split at h
    · split at h
      · cases h; exact Bindings.Le.refl b
      · cases h
    · rename_i hnone
      cases h
      intro t w ht
      by_cases hts : t = s
      · subst hts; rw [hnone] at ht; cases ht
      · rwa [Function.update_of_ne hts]

theorem bTry_bOk {b b' : Bindings} {s : ℕ} {v : Val} (h : bTry b s v = some b') :
    bOk b' s = true := by
  unfold bTry at h
  split at h
  · cases h
  · rename_i hlt
    have hlt : s < maxVars := by omega
    split at h
    · rename_i w hw
      split at h
      · cases h; simp [bOk, hlt, hw]
      · cases h
    · cases h; simp [bOk, hlt]

/-- Binding a bound slot to its own value changes nothing. -/
theorem bTry_self {b : Bindings} {s : ℕ} (h : bOk b s = true) : bTry b s (bGet b s) = some b := by
  simp only [bOk, Bool.and_eq_true, decide_eq_true_eq, Option.isSome_iff_exists] at h
  obtain ⟨hlt, v, hv⟩ := h
  simp [bTry, bGet, hlt, hv]

/-! ## Rows against instructions -/

/-- One column of a row against its slot: the step of `bindRowPerm`. -/
def bindCol (i : VmInstr) (row : Row) (perm : Option (List ℕ)) (b : Bindings) (pp : ℕ) :
    Option Bindings :=
  if i.slot (origCol perm pp) = noSlot then some b
  else bTry b (i.slot (origCol perm pp)) (row.getD pp 0)

theorem bindRowPerm_eq (i : VmInstr) (row : Row) (sc ar : ℕ) (perm : Option (List ℕ))
    (b : Bindings) :
    bindRowPerm i row sc ar perm b =
      (List.range' sc (ar - sc)).foldlM (bindCol i row perm) b := rfl

theorem foldlM_bindCol_le {i : VmInstr} {row : Row} {perm : Option (List ℕ)} (cols : List ℕ)
    {b b' : Bindings} (h : cols.foldlM (bindCol i row perm) b = some b') : b.Le b' := by
  induction cols generalizing b with
  | nil => cases h; exact Bindings.Le.refl _
  | cons pp cols ih =>
    rw [List.foldlM_cons] at h
    obtain ⟨b₁, h₁, h₂⟩ := Option.bind_eq_some_iff.mp h
    refine Bindings.Le.trans ?_ (ih h₂)
    unfold bindCol at h₁
    split at h₁
    · cases h₁; exact Bindings.Le.refl b
    · exact bTry_le h₁

theorem foldlM_bindCol_bOk {i : VmInstr} {row : Row} {perm : Option (List ℕ)} (cols : List ℕ)
    {b b' : Bindings} (h : cols.foldlM (bindCol i row perm) b = some b') {pp : ℕ} (hpp : pp ∈ cols)
    (hs : i.slot (origCol perm pp) ≠ noSlot) : bOk b' (i.slot (origCol perm pp)) = true := by
  induction cols generalizing b with
  | nil => cases hpp
  | cons q cols ih =>
    rw [List.foldlM_cons] at h
    obtain ⟨b₁, h₁, h₂⟩ := Option.bind_eq_some_iff.mp h
    rcases List.mem_cons.mp hpp with rfl | hpp
    · unfold bindCol at h₁
      rw [if_neg hs] at h₁
      exact (foldlM_bindCol_le cols h₂).bOk (bTry_bOk h₁)
    · exact ih h₂ hpp

theorem bindRowPerm_le {i : VmInstr} {row : Row} {sc ar : ℕ} {perm : Option (List ℕ)}
    {b b' : Bindings} (h : bindRowPerm i row sc ar perm b = some b') : b.Le b' :=
  foldlM_bindCol_le _ h

/-- What the meaning of a rule takes from the database besides rows. -/
structure Sig where
  /-- Column orders of the permutation indices. -/
  perm : ℕ → ℕ → Option (List ℕ)
  /-- Symbols and list terms. -/
  tbl : SymTables
  /-- The patterns of the rule. -/
  pats : List (Val → Bool)

/-- The values of the leading slots of a lookup. -/
def lookupKey (i : VmInstr) (perm : Option (List ℕ)) (b : Bindings) : Row :=
  (List.range i.b).map fun pk => bGet b (i.slot (origCol perm pk))

/-- The test of a pattern atom. -/
def walkTest (i : VmInstr) (m : Val → Bool) (row : Row) : Bool :=
  decide (i.c < i.b) && (row.getD i.c 0 != 0) && m (row.getD i.c 0)

/-- The test of a hash join. -/
def hashTest (i : VmInstr) (b : Bindings) (row : Row) : Bool :=
  (List.range i.b).all fun pk =>
    bGet b (i.slot ((unpackPerm i.imm i.c).getD pk 0)) ==
      row.getD ((unpackPerm i.imm i.c).getD pk 0) 0

/-- Match one row of the source of an atom. -/
def rowMatch (G : Sig) (i : VmInstr) (b : Bindings) (row : Row) : Option Bindings :=
  match i.op with
  | .scan => bindRowPerm i row 0 i.b none b
  | .walk =>
    match G.pats[i.imm.toNat]? with
    | some m => if walkTest i m row then bindRowPerm i row 0 i.b none b else none
    | none => none
  | .lookup =>
    if (lookupKey i none b).isPrefixOf row then bindRowPerm i row i.b i.c none b else none
  | .lookupPerm =>
    match G.perm i.a i.imm.toNat with
    | some perm =>
      if (lookupKey i (some perm) b).isPrefixOf (permRow perm i.c row) then
        bindRowPerm i (permRow perm i.c row) i.b i.c (some perm) b
      else none
    | none => none
  | .hashJoin =>
    if hashTest i b row then
      bindRowPerm i (permRow (unpackPerm i.imm i.c) i.c row) i.b i.c
        (some (unpackPerm i.imm i.c)) b
    else none
  | _ => none

theorem rowMatch_le {G : Sig} {i : VmInstr} {b b' : Bindings} {row : Row}
    (h : rowMatch G i b row = some b') : b.Le b' := by
  unfold rowMatch at h
  split at h
  · exact bindRowPerm_le h
  · split at h
    · split at h
      · exact bindRowPerm_le h
      · cases h
    · cases h
  · split at h
    · exact bindRowPerm_le h
    · cases h
  · split at h
    · split at h
      · exact bindRowPerm_le h
      · cases h
    · cases h
  · split at h
    · exact bindRowPerm_le h
    · cases h
  · cases h

/-! ## Instructions on sets of rows -/

/-- `driverFeeds`: the opcodes that read a body atom. -/
def driverFeeds : Op → Bool
  | .scan | .lookup | .lookupPerm | .hashJoin | .walk => true
  | _ => false

/-- What a rule reads. -/
structure Env where
  /-- Column orders, tables and patterns. -/
  sig : Sig
  /-- The views that negated and range atoms read. -/
  view : ℕ → Set Row
  /-- The rows each body atom reads. -/
  src : ℕ → Set Row
  /-- The joined rows of the buffers. -/
  mat : Set Row
  /-- Their width. -/
  matAr : ℕ

/-- The environment of the pipeline over a join. -/
def Env.withMat (E : Env) (mat : Set Row) (matAr : ℕ) : Env := { E with mat, matAr }

/-- No row of the view agrees with the bound columns. -/
def NegHolds (V : Set Row) (i : VmInstr) (b : Bindings) : Prop :=
  ¬ ∃ row ∈ V, ∀ j < i.b, bOk b (i.slot j) = true → row.getD j 0 = bGet b (i.slot j)

/-- A value of the first column in `[lo, hi)`. -/
def RangeSucc (V : Set Row) (i : VmInstr) (b b' : Bindings) : Prop :=
  if bOk b i.c then
    b' = b ∧ bGet b i.a ≤ bGet b i.c ∧ bGet b i.c < bGet b i.b ∧ ∃ row ∈ V, [bGet b i.c] <+: row
  else
    ∃ row ∈ V, bGet b i.a ≤ row.getD 0 0 ∧ row.getD 0 0 < bGet b i.b ∧
      b' = (bTry b (i.slot 0) (row.getD 0 0)).getD b

/-- An element of a list. -/
def MemberSucc (tbl : SymTables) (i : VmInstr) (b b' : Bindings) : Prop :=
  bOk b i.a = true ∧ tbl.terms.isList (bGet b i.a) = true ∧
    if bOk b i.b then b' = b ∧ bGet b i.b ∈ tbl.terms.elems (bGet b i.a)
    else ∃ v ∈ tbl.terms.elems (bGet b i.a), bindRowPerm i [v] 0 1 none b = some b'

/-- One instruction before the leaf takes `b` to `b'`. -/
def Succ (E : Env) (i : VmInstr) (b b' : Bindings) : Prop :=
  match i.op with
  | .negCheck => b' = b ∧ NegHolds (E.view i.a) i b
  | .range => RangeSucc (E.view i.imm.toNat) i b b'
  | .listMember => MemberSucc E.sig.tbl i b b'
  | .matJoin => ∃ row ∈ E.mat, bindRowPerm i row 0 E.matAr none b = some b'
  | op =>
    if driverFeeds op then ∃ row ∈ E.src i.bodyIdx, rowMatch E.sig i b row = some b'
    else execBuiltin E.sig.tbl i b = .next b'

/-- The instructions of a pipeline, one after the other. -/
def Reach (E : Env) : List VmInstr → Bindings → Bindings → Prop
  | [], b, b' => b' = b
  | i :: is, b, b' => ∃ b₁, Succ E i b b₁ ∧ Reach E is b₁ b'

/-- The head row at the end of a pipeline. -/
def leafRow (leaf : VmInstr) (b : Bindings) : Row :=
  (List.range leaf.b).map fun j => bGet b (leaf.slot j)

theorem succ_atom {E : Env} {i : VmInstr} (h : driverFeeds i.op = true) (b b' : Bindings) :
    Succ E i b b' ↔ ∃ row ∈ E.src i.bodyIdx, rowMatch E.sig i b row = some b' := by
  unfold Succ
  split <;> simp_all [driverFeeds]

/-! ## Plans -/

/-- The tree of a rule's bytecode. -/
inductive Plan
  /-- One pipeline and its leaf. -/
  | flat (body : List VmInstr) (leaf : VmInstr)
  /-- Two sub-plans, the join of their buffers, and a pipeline over the join. -/
  | join (mbL : VmInstr) (l : Plan) (mbR : VmInstr) (r : Plan) (mj : VmInstr)
      (body : List VmInstr) (leaf : VmInstr)

namespace Plan

/-- The leaf of the outermost pipeline. -/
def leaf : Plan → VmInstr
  | flat _ leaf => leaf
  | join _ _ _ _ _ _ leaf => leaf

/-- The rows of a join on the first `cc` columns. -/
def joinSet (cc : ℕ) (L R : Set Row) : Set Row :=
  {row | ∃ lrow ∈ L, ∃ rrow ∈ R, rrow.take cc = lrow.take cc ∧ row = lrow ++ rrow.drop cc}

/-- The head rows of a plan. -/
def sol (E : Env) : Plan → Set Row
  | flat body leaf => {t | ∃ b, Reach E body bInit b ∧ t = leafRow leaf b}
  | join mbL l mbR r mj body leaf =>
    {t | ∃ b, Reach (E.withMat (joinSet mj.c (sol E l) (sol E r))
            (mj.c + (mbL.b - mj.c) + (mbR.b - mj.c))) (mj :: body) bInit b ∧ t = leafRow leaf b}

/-- The atom instructions of a pipeline. -/
def bodyAtoms (body : List VmInstr) : List VmInstr := body.filter fun i => driverFeeds i.op

/-- The atom instructions of a plan. -/
def atoms : Plan → List VmInstr
  | flat body _ => bodyAtoms body
  | join _ l _ r _ body _ => l.atoms ++ r.atoms ++ bodyAtoms body

/-- All instructions of a plan. -/
def instrs : Plan → List VmInstr
  | flat body leaf => body ++ [leaf]
  | join mbL l mbR r mj body leaf =>
    mbL :: l.instrs ++ (mbR :: r.instrs) ++ (mj :: body ++ [leaf])

/-- The relations negated and range atoms read. -/
def strictReads (is : List VmInstr) : Set ℕ :=
  {id | ∃ i ∈ is, (i.op = .negCheck ∧ id = i.a) ∨ (i.op = .range ∧ id = i.imm.toNat)}

end Plan

/-! ## Monotonicity -/

theorem succ_mono {E E' : Env} {i : VmInstr} {b b' : Bindings} (hsig : E'.sig = E.sig)
    (hview : (i.op = .negCheck → E'.view i.a = E.view i.a) ∧
      (i.op = .range → E'.view i.imm.toNat = E.view i.imm.toNat))
    (hsrc : driverFeeds i.op = true → E.src i.bodyIdx ⊆ E'.src i.bodyIdx)
    (hmat : i.op = .matJoin → E.mat ⊆ E'.mat ∧ E'.matAr = E.matAr)
    (h : Succ E i b b') : Succ E' i b b' := by
  unfold Succ at h ⊢
  split at h
  · rename_i hop
    simpa only [hview.1 hop] using h
  · rename_i hop
    simpa only [hview.2 hop] using h
  · simpa only [hsig] using h
  · rename_i hop
    obtain ⟨row, hrow, hb⟩ := h
    exact ⟨row, (hmat hop).1 hrow, by rw [(hmat hop).2]; exact hb⟩
  · simp only [hsig]
    by_cases hfeeds : driverFeeds i.op = true
    · simp only [hfeeds, if_true] at h ⊢
      obtain ⟨row, hrow, hb⟩ := h
      exact ⟨row, hsrc hfeeds hrow, hb⟩
    · simp only [hfeeds] at h ⊢
      exact h

/-- Two environments that agree on what the instructions read, but for larger sources. -/
structure EnvLe (is : List VmInstr) (E E' : Env) : Prop where
  /-- Same column orders, tables and patterns. -/
  sig : E'.sig = E.sig
  /-- Same views of negated and range atoms. -/
  view : ∀ id ∈ Plan.strictReads is, E'.view id = E.view id
  /-- Larger sources. -/
  src : ∀ i ∈ is, driverFeeds i.op = true → E.src i.bodyIdx ⊆ E'.src i.bodyIdx

theorem EnvLe.of_subset {is j : List VmInstr} {E E' : Env} (h : EnvLe is E E')
    (hsub : ∀ i ∈ j, i ∈ is) : EnvLe j E E' where
  sig := h.sig
  view id := fun ⟨i, hi, hid⟩ => h.view id ⟨i, hsub i hi, hid⟩
  src i hi := h.src i (hsub i hi)

theorem EnvLe.withMat {is : List VmInstr} {E E' : Env} (h : EnvLe is E E') (m m' : Set Row)
    (ar : ℕ) : EnvLe is (E.withMat m ar) (E'.withMat m' ar) :=
  ⟨h.sig, h.view, h.src⟩

theorem reach_mono {E E' : Env} (is : List VmInstr) {b b' : Bindings} (hE : EnvLe is E E')
    (hmat : E.mat ⊆ E'.mat ∧ E'.matAr = E.matAr) (h : Reach E is b b') : Reach E' is b b' := by
  induction is generalizing b with
  | nil => exact h
  | cons i is ih =>
    obtain ⟨b₁, h₁, h₂⟩ := h
    refine ⟨b₁, succ_mono hE.sig ⟨fun hop => ?_, fun hop => ?_⟩ (hE.src i (by simp))
      (fun _ => hmat) h₁, ih (hE.of_subset (by simp +contextual)) h₂⟩
    · exact hE.view _ ⟨i, by simp, .inl ⟨hop, rfl⟩⟩
    · exact hE.view _ ⟨i, by simp, .inr ⟨hop, rfl⟩⟩

theorem Plan.joinSet_mono {cc : ℕ} {L L' R R' : Set Row} (hL : L ⊆ L') (hR : R ⊆ R') :
    joinSet cc L R ⊆ joinSet cc L' R' := fun _ ⟨l, hl, r, hr, h⟩ => ⟨l, hL hl, r, hR hr, h⟩

/-- **Larger sources give more head rows**, as long as negated and range atoms read
the same views. -/
theorem Plan.sol_mono (E E' : Env) (P : Plan) (hE : EnvLe P.instrs E E')
    (hmat : E.mat ⊆ E'.mat ∧ E'.matAr = E.matAr) : P.sol E ⊆ P.sol E' := by
  induction P generalizing E E' with
  | flat body leaf =>
    rintro t ⟨b, hb, rfl⟩
    exact ⟨b, reach_mono body (hE.of_subset (by simp +contextual [Plan.instrs])) hmat hb, rfl⟩
  | join mbL l mbR r mj body leaf ihl ihr =>
    rintro t ⟨b, hb, rfl⟩
    have hl : l.sol E ⊆ l.sol E' :=
      ihl E E' (hE.of_subset (by simp +contextual [Plan.instrs])) hmat
    have hr : r.sol E ⊆ r.sol E' :=
      ihr E E' (hE.of_subset (by simp +contextual [Plan.instrs])) hmat
    have hle := (hE.of_subset (j := mj :: body) (by simp +contextual [Plan.instrs])).withMat
      (joinSet mj.c (l.sol E) (r.sol E)) (joinSet mj.c (l.sol E') (r.sol E'))
      (mj.c + (mbL.b - mj.c) + (mbR.b - mj.c))
    exact ⟨b, reach_mono (mj :: body) hle ⟨joinSet_mono hl hr, rfl⟩ hb, rfl⟩

/-! ## Instances -/

/-- The opcodes of a pipeline before its leaf. -/
def bodyOp : Op → Bool
  | .halt | .project | .openRel | .aggAcc | .aggEmit | .matBegin | .matJoin => false
  | _ => true

/-- Every instruction of a plan is of the kind its place asks for. -/
def Plan.Shape : Plan → Prop
  | .flat body leaf => (∀ i ∈ body, bodyOp i.op = true) ∧ leaf.op = .project
  | .join mbL l mbR r mj body leaf =>
    mbL.op = .matBegin ∧ l.Shape ∧ mbR.op = .matBegin ∧ r.Shape ∧ mj.op = .matJoin ∧
      (∀ i ∈ body, bodyOp i.op = true) ∧ leaf.op = .project

/-- Every body atom is read by one instruction. -/
def Plan.OneEach (P : Plan) : Prop := (P.atoms.map VmInstr.bodyIdx).Nodup

/-- The environment where each atom reads one given row. -/
def Env.only (E : Env) (ρ : ℕ → Row) : Env := { E with src := fun n => {ρ n} }

theorem Plan.mem_atoms_of_instrs {P : Plan} (hP : P.Shape) {i : VmInstr} (hi : i ∈ P.instrs)
    (hf : driverFeeds i.op = true) : i ∈ P.atoms := by
  induction P with
  | flat body leaf =>
    rcases List.mem_append.mp hi with hi | hi
    · exact List.mem_filter.mpr ⟨hi, hf⟩
    · obtain rfl : i = leaf := by simpa using hi
      rw [hP.2] at hf
      cases hf
  | join mbL l mbR r mj body leaf ihl ihr =>
    obtain ⟨hL, hl, hR, hr, hmj, hbody, hleaf⟩ := hP
    simp only [instrs, List.cons_append, List.mem_cons, List.mem_append, List.not_mem_nil,
      or_false] at hi
    simp only [atoms, List.mem_append]
    rcases hi with rfl | (hi | rfl | hi) | rfl | hi | rfl
    · rw [hL] at hf; cases hf
    · exact .inl (.inl (ihl hl hi))
    · rw [hR] at hf; cases hf
    · exact .inl (.inr (ihr hr hi))
    · rw [hmj] at hf; cases hf
    · exact .inr (List.mem_filter.mpr ⟨hi, hf⟩)
    · rw [hleaf] at hf; cases hf

theorem Plan.mem_instrs_of_atoms {P : Plan} {i : VmInstr} (hi : i ∈ P.atoms) :
    i ∈ P.instrs ∧ driverFeeds i.op = true := by
  induction P with
  | flat body leaf =>
    obtain ⟨hmem, hf⟩ := List.mem_filter.mp hi
    exact ⟨by simp [instrs, hmem], hf⟩
  | join mbL l mbR r mj body leaf ihl ihr =>
    simp only [atoms, List.mem_append] at hi
    rcases hi with (hi | hi) | hi
    · exact ⟨by simp [instrs, (ihl hi).1], (ihl hi).2⟩
    · exact ⟨by simp [instrs, (ihr hi).1], (ihr hi).2⟩
    · obtain ⟨hmem, hf⟩ := List.mem_filter.mp hi
      exact ⟨by simp [instrs, hmem], hf⟩

/-- Head rows have the width of the leaf. -/
theorem Plan.length_of_mem_sol {E : Env} {P : Plan} {t : Row} (ht : t ∈ P.sol E) :
    t.length = P.leaf.b := by
  cases P with
  | flat body leaf =>
    obtain ⟨b, -, rfl⟩ := ht
    simp [leafRow, Plan.leaf]
  | join mbL l mbR r mj body leaf =>
    obtain ⟨b, -, rfl⟩ := ht
    simp [leafRow, Plan.leaf]

/-- A body instruction does not see the buffers. -/
theorem succ_congr_mat (E E' : Env) {i : VmInstr} (hi : i.op ≠ .matJoin)
    (hsig : E'.sig = E.sig) (hview : E'.view = E.view)
    (hsrc : driverFeeds i.op = true → E'.src i.bodyIdx = E.src i.bodyIdx) {b b' : Bindings}
    (h : Succ E i b b') : Succ E' i b b' :=
  succ_mono hsig ⟨fun _ => by rw [hview], fun _ => by rw [hview]⟩ (fun hf => (hsrc hf).ge)
    (fun hop => absurd hop hi) h

theorem matJoin_of_bodyOp {i : VmInstr} (h : bodyOp i.op = true) : i.op ≠ .matJoin := by
  intro hop
  rw [hop] at h
  cases h

theorem reach_congr_src (E E' : Env) {body : List VmInstr} (hbody : ∀ i ∈ body, bodyOp i.op = true)
    (hsig : E'.sig = E.sig) (hview : E'.view = E.view)
    (hsrc : ∀ i ∈ Plan.bodyAtoms body, E'.src i.bodyIdx = E.src i.bodyIdx) {b b' : Bindings}
    (h : Reach E body b b') : Reach E' body b b' := by
  induction body generalizing b with
  | nil => exact h
  | cons i is ih =>
    obtain ⟨b₁, h₁, h₂⟩ := h
    refine ⟨b₁, succ_congr_mat E E' (matJoin_of_bodyOp (hbody i (by simp))) hsig hview (fun hf =>
      hsrc i (List.mem_filter.mpr ⟨by simp, hf⟩)) h₁, ih (fun j hj => hbody j (by simp [hj]))
      (fun j hj => hsrc j ?_) h₂⟩
    simp only [Plan.bodyAtoms, List.mem_filter] at hj ⊢
    exact ⟨List.mem_cons_of_mem _ hj.1, hj.2⟩

/-- A pipeline chooses one row of the source of each of its atoms. -/
theorem reach_instance {E : Env} {body : List VmInstr} (hbody : ∀ i ∈ body, bodyOp i.op = true)
    (hone : ((Plan.bodyAtoms body).map VmInstr.bodyIdx).Nodup) {b b' : Bindings}
    (h : Reach E body b b') :
    ∃ ρ : ℕ → Row, (∀ i ∈ Plan.bodyAtoms body, ρ i.bodyIdx ∈ E.src i.bodyIdx) ∧
      Reach (E.only ρ) body b b' := by
  induction body generalizing b with
  | nil => exact ⟨fun _ => [], by simp [Plan.bodyAtoms], h⟩
  | cons i is ih =>
    obtain ⟨b₁, h₁, h₂⟩ := h
    have hi := matJoin_of_bodyOp (hbody i (by simp))
    have his : ∀ j ∈ is, bodyOp j.op = true := fun j hj => hbody j (by simp [hj])
    by_cases hf : driverFeeds i.op = true
    · have hatoms : Plan.bodyAtoms (i :: is) = i :: Plan.bodyAtoms is := by
        simp [Plan.bodyAtoms, hf]
      rw [hatoms, List.map_cons, List.nodup_cons] at hone
      obtain ⟨ρ, hρ, hreach⟩ := ih his hone.2 h₂
      obtain ⟨row, hrow, hb⟩ := (succ_atom hf b b₁).mp h₁
      have hne : ∀ j ∈ Plan.bodyAtoms is, j.bodyIdx ≠ i.bodyIdx := fun j hj he =>
        hone.1 (he ▸ List.mem_map_of_mem hj)
      refine ⟨Function.update ρ i.bodyIdx row, ?_, b₁, ?_, ?_⟩
      · intro j hj
        rcases List.mem_cons.mp (hatoms ▸ hj) with rfl | hj
        · simpa using hrow
        · rw [Function.update_of_ne (hne j hj)]
          exact hρ j hj
      · exact (succ_atom hf b b₁).mpr ⟨row, by simp [Env.only], hb⟩
      · refine reach_congr_src (E.only ρ) (E.only (Function.update ρ i.bodyIdx row)) his rfl rfl
          (fun j hj => ?_) hreach
        simp only [Env.only]
        rw [Function.update_of_ne (hne j hj)]
    · have hatoms : Plan.bodyAtoms (i :: is) = Plan.bodyAtoms is := by
        simp [Plan.bodyAtoms, hf]
      rw [hatoms] at hone ⊢
      obtain ⟨ρ, hρ, hreach⟩ := ih his hone h₂
      exact ⟨ρ, hρ, b₁, succ_congr_mat E (E.only ρ) hi rfl rfl (fun h => absurd h hf) h₁, hreach⟩

theorem Plan.sol_congr (E E' : Env) {P : Plan} (hP : P.Shape) (hsig : E'.sig = E.sig)
    (hview : E'.view = E.view) (hsrc : ∀ i ∈ P.atoms, E'.src i.bodyIdx = E.src i.bodyIdx) :
    P.sol E = P.sol E' := by
  have half : ∀ {E E' : Env}, E'.sig = E.sig → E'.view = E.view →
      (∀ i ∈ P.atoms, E'.src i.bodyIdx = E.src i.bodyIdx) → P.sol E ⊆ P.sol E' := by
    clear hsig hview hsrc
    intro E E' hsig hview hsrc
    induction P generalizing E E' with
    | flat body leaf =>
      rintro t ⟨b, hb, rfl⟩
      exact ⟨b, reach_congr_src E E' hP.1 hsig hview hsrc hb, rfl⟩
    | join mbL l mbR r mj body leaf ihl ihr =>
      rintro t ⟨b, ⟨b₁, h₁, h₂⟩, rfl⟩
      obtain ⟨hL, hl, hR, hr, hmj, hbody, hleaf⟩ := hP
      have hLE : l.sol E ⊆ l.sol E' := ihl hl hsig hview fun i hi => hsrc i (by simp [atoms, hi])
      have hRE : r.sol E ⊆ r.sol E' := ihr hr hsig hview fun i hi => hsrc i (by simp [atoms, hi])
      refine ⟨b, ⟨b₁, ?_, reach_congr_src (E.withMat (joinSet mj.c (sol E l) (sol E r)) _)
        (E'.withMat (joinSet mj.c (sol E' l) (sol E' r)) _) hbody hsig hview
        (fun i hi => hsrc i (by simp [atoms, hi])) h₂⟩, rfl⟩
      simp only [Succ, hmj] at h₁ ⊢
      obtain ⟨row, hrow, hb₁⟩ := h₁
      exact ⟨row, joinSet_mono hLE hRE hrow, hb₁⟩
  exact (half hsig hview hsrc).antisymm (half hsig.symm hview.symm fun i hi => (hsrc i hi).symm)

/-- **Every head row is an instance**: it is derived from one row of the source of
each body atom. -/
theorem Plan.sol_instance {E : Env} {P : Plan} (hP : P.Shape) (hone : P.OneEach) {t : Row}
    (ht : t ∈ P.sol E) : ∃ ρ : ℕ → Row, (∀ i ∈ P.atoms, ρ i.bodyIdx ∈ E.src i.bodyIdx) ∧
      t ∈ P.sol (E.only ρ) := by
  classical
  induction P generalizing t with
  | flat body leaf =>
    obtain ⟨b, hb, rfl⟩ := ht
    obtain ⟨ρ, hρ, hreach⟩ := reach_instance hP.1 hone hb
    exact ⟨ρ, hρ, b, hreach, rfl⟩
  | join mbL l mbR r mj body leaf ihl ihr =>
    obtain ⟨b, ⟨b₁, h₁, h₂⟩, rfl⟩ := ht
    obtain ⟨hL, hl, hR, hr, hmj, hbody, hleaf⟩ := hP
    simp only [OneEach, atoms, List.map_append, List.nodup_append, List.mem_append,
      List.mem_map] at hone
    obtain ⟨⟨honel, honer, hlr⟩, honeb, hlrb⟩ := hone
    simp only [Succ, hmj] at h₁
    obtain ⟨row, ⟨lrow, hlrow, rrow, hrrow, htake, hrow⟩, hb₁⟩ := h₁
    obtain ⟨ρl, hρl, hsl⟩ := ihl hl honel hlrow
    obtain ⟨ρr, hρr, hsr⟩ := ihr hr honer hrrow
    obtain ⟨ρb, hρb, hsb⟩ := reach_instance hbody honeb h₂
    let ρ : ℕ → Row := fun n =>
      if ∃ i ∈ l.atoms, i.bodyIdx = n then ρl n
      else if ∃ i ∈ r.atoms, i.bodyIdx = n then ρr n else ρb n
    have hl' : ∀ i ∈ l.atoms, ρ i.bodyIdx = ρl i.bodyIdx := fun i hi => if_pos ⟨i, hi, rfl⟩
    have hr' : ∀ i ∈ r.atoms, ρ i.bodyIdx = ρr i.bodyIdx := fun i hi => by
      have hno : ¬ ∃ j ∈ l.atoms, j.bodyIdx = i.bodyIdx := fun ⟨j, hj, he⟩ =>
        hlr _ ⟨j, hj, rfl⟩ _ ⟨i, hi, rfl⟩ he
      simp only [ρ, if_neg hno]
      exact if_pos ⟨i, hi, rfl⟩
    have hb' : ∀ i ∈ bodyAtoms body, ρ i.bodyIdx = ρb i.bodyIdx := fun i hi => by
      have hno : ¬ ∃ j ∈ l.atoms, j.bodyIdx = i.bodyIdx := fun ⟨j, hj, he⟩ =>
        hlrb _ (.inl ⟨j, hj, rfl⟩) _ ⟨i, hi, rfl⟩ he
      have hno' : ¬ ∃ j ∈ r.atoms, j.bodyIdx = i.bodyIdx := fun ⟨j, hj, he⟩ =>
        hlrb _ (.inr ⟨j, hj, rfl⟩) _ ⟨i, hi, rfl⟩ he
      simp only [ρ, if_neg hno, if_neg hno']
    refine ⟨ρ, ?_, b, ⟨b₁, ?_, ?_⟩, rfl⟩
    · intro i hi
      simp only [atoms, List.mem_append] at hi
      rcases hi with (hi | hi) | hi
      · rw [hl' i hi]; exact hρl i hi
      · rw [hr' i hi]; exact hρr i hi
      · rw [hb' i hi]; exact hρb i hi
    · simp only [Succ, hmj]
      refine ⟨row, ⟨lrow, ?_, rrow, ?_, htake, hrow⟩, hb₁⟩
      · rw [← sol_congr (E.only ρl) (E.only ρ) hl rfl rfl fun i hi => by simp only [Env.only, hl' i hi]]
        exact hsl
      · rw [← sol_congr (E.only ρr) (E.only ρ) hr rfl rfl fun i hi => by simp only [Env.only, hr' i hi]]
        exact hsr
    · refine reach_congr_src ((E.withMat (joinSet mj.c (sol E l) (sol E r)) _).only ρb)
        ((E.only ρ).withMat (joinSet mj.c (sol (E.only ρ) l) (sol (E.only ρ) r)) _) hbody rfl rfl
        (fun i hi => ?_) hsb
      simp only [Env.only, Env.withMat, hb' i hi]

/-- The head rows of a plan are those of its instances. -/
theorem Plan.mem_sol_iff {E : Env} {P : Plan} (hP : P.Shape) (hone : P.OneEach) {t : Row} :
    t ∈ P.sol E ↔ ∃ ρ : ℕ → Row, (∀ i ∈ P.atoms, ρ i.bodyIdx ∈ E.src i.bodyIdx) ∧
      t ∈ P.sol (E.only ρ) := by
  refine ⟨sol_instance hP hone, fun ⟨ρ, hρ, ht⟩ => ?_⟩
  refine sol_mono (E.only ρ) E P ⟨rfl, fun _ _ => rfl, fun i hi hf => ?_⟩ ⟨subset_rfl, rfl⟩ ht
  exact Set.singleton_subset_iff.mpr (hρ i (mem_atoms_of_instrs hP hi hf))

end DatalogDafsa
