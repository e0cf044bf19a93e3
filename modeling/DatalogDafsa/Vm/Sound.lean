import DatalogDafsa.Vm.Step

/-!
# The interpreter derives what its plan says

A pipeline of instructions reaches its leaf once for each solution, in order, and
`MAT_BEGIN` fills a buffer with the head rows of a sub-plan.  Put together: a run
of a rule either hits the frame limit or hands out exactly the head rows of the
rule's plan.

## Main definitions

* `KeysOk` — a pipeline binds the keys of its hash joins before it uses them.
* `At`, `Plan.Codes` — where the bytecode spells a plan.
* `search_pipeline`, `mem_sols_iff` — a pipeline and its solutions.
* `RunsPlan`, `runsPlan` — a range of bytecode runs its plan.
-/

namespace DatalogDafsa

open Backtrack

/-! ## Bound slots -/

/-- The columns an atom binds: from, to, and their order. -/
def bindCols (G : Sig) (i : VmInstr) : ℕ × ℕ × Option (List ℕ) :=
  match i.op with
  | .scan | .walk => (0, i.b, none)
  | .lookup => (i.b, i.c, none)
  | .lookupPerm => (i.b, i.c, G.perm i.a i.imm.toNat)
  | .hashJoin => (i.b, i.c, some (unpackPerm i.imm i.c))
  | _ => (0, 0, none)

/-- The slots an atom leaves bound. -/
def newBound (G : Sig) (i : VmInstr) : List ℕ :=
  let (sc, ar, perm) := bindCols G i
  ((List.range' sc (ar - sc)).map fun pp => i.slot (origCol perm pp)).filter fun s => s ≠ noSlot

/-- The keys of every hash join are bound by the atoms before it. -/
def KeysOk (G : Sig) : List ℕ → List VmInstr → Prop
  | _, [] => True
  | D, i :: is =>
    (i.op = .hashJoin → i.b ≤ i.c ∧
      ∀ pk < i.b, i.slot ((unpackPerm i.imm i.c).getD pk 0) ∈ D) ∧
    KeysOk G (newBound G i ++ D) is

theorem bindRowPerm_bOk {i : VmInstr} {row : Row} {sc ar : ℕ} {perm : Option (List ℕ)}
    {b b' : Bindings} (h : bindRowPerm i row sc ar perm b = some b') {s : ℕ}
    (hs : s ∈ ((List.range' sc (ar - sc)).map fun pp => i.slot (origCol perm pp)).filter
      fun s => s ≠ noSlot) : bOk b' s = true := by
  simp only [ne_eq, decide_not, List.mem_filter, List.mem_map, Bool.not_eq_true',
    decide_eq_false_iff_not] at hs
  obtain ⟨⟨pp, hpp, rfl⟩, hne⟩ := hs
  rw [bindRowPerm_eq] at h
  exact foldlM_bindCol_bOk _ h hpp hne

theorem rowMatch_bOk {G : Sig} {i : VmInstr} {b b' : Bindings} {row : Row}
    (h : rowMatch G i b row = some b') {s : ℕ} (hs : s ∈ newBound G i) : bOk b' s = true := by
  unfold newBound bindCols at hs
  unfold rowMatch at h
  split at h
  · rename_i hop
    simp only [hop] at hs
    exact bindRowPerm_bOk h hs
  · rename_i hop
    simp only [hop] at hs
    split at h
    · split at h
      · exact bindRowPerm_bOk h hs
      · cases h
    · cases h
  · rename_i hop
    simp only [hop] at hs
    split at h
    · exact bindRowPerm_bOk h hs
    · cases h
  · rename_i hop
    simp only [hop] at hs
    split at h
    · rename_i perm hperm
      rw [hperm] at hs
      split at h
      · exact bindRowPerm_bOk h hs
      · cases h
    · cases h
  · rename_i hop
    simp only [hop] at hs
    split at h
    · exact bindRowPerm_bOk h hs
    · cases h
  · cases h

theorem getD_bTry_le (b : Bindings) (s : ℕ) (v : Val) : b.Le ((bTry b s v).getD b) := by
  cases h : bTry b s v with
  | none => exact Bindings.Le.refl b
  | some b' => exact bTry_le h

theorem execBuiltin_le {tbl : SymTables} {i : VmInstr} {b b' : Bindings}
    (h : execBuiltin tbl i b = .next b') : b.Le b' := by
  have hpass : ∀ t, passIf t b = .next b' → b.Le b' := fun t ht => by
    cases t
    · cases ht
    · cases ht; exact Bindings.Le.refl b
  have hbind : ∀ s v, bindResult b s v = .next b' → b.Le b' := by
    intro s v hv
    unfold bindResult at hv
    cases v with
    | none => cases hv
    | some v =>
      simp only at hv
      cases hb : bTry b s v with
      | none => rw [hb] at hv; cases hv
      | some b₁ => rw [hb] at hv; cases hv; exact bTry_le hb
  unfold execBuiltin at h
  split at h
  · split at h
    · exact hpass _ h
    · cases h; exact getD_bTry_le _ _ _
    · cases h; exact getD_bTry_le _ _ _
    · cases h; exact Bindings.Le.refl b
  · split at h
    · exact hpass _ h
    · cases h; exact getD_bTry_le _ _ _
  all_goals first
    | exact hpass _ h
    | exact hbind _ _ h
    | (cases h; exact Bindings.Le.refl _)

theorem succ_le {E : Env} {i : VmInstr} {b b' : Bindings} (h : Succ E i b b') : b.Le b' := by
  unfold Succ at h
  split at h
  · rw [h.1]; exact Bindings.Le.refl b
  · unfold RangeSucc at h
    split at h
    · rw [h.1]; exact Bindings.Le.refl b
    · obtain ⟨row, -, -, -, rfl⟩ := h
      exact getD_bTry_le _ _ _
  · obtain ⟨-, -, h⟩ := h
    split at h
    · rw [h.1]; exact Bindings.Le.refl b
    · obtain ⟨v, -, hv⟩ := h
      exact bindRowPerm_le hv
  · obtain ⟨row, -, hb⟩ := h
    exact bindRowPerm_le hb
  · split at h
    · obtain ⟨row, -, hb⟩ := h
      exact rowMatch_le hb
    · exact execBuiltin_le h

theorem newBound_nil {G : Sig} {i : VmInstr} (h : driverFeeds i.op = false) :
    newBound G i = [] := by
  obtain ⟨op, a, b, c, imm, slots, bi⟩ := i
  cases op <;> simp_all [newBound, bindCols, driverFeeds]

/-- After an instruction the slots it binds are bound, and the old ones still are. -/
theorem succ_bound {E : Env} {i : VmInstr} {b b' : Bindings} {D : List ℕ}
    (hD : ∀ s ∈ D, bOk b s = true) (h : Succ E i b b') :
    ∀ s ∈ newBound E.sig i ++ D, bOk b' s = true := by
  intro s hs
  rcases List.mem_append.mp hs with hs | hs
  · cases hf : driverFeeds i.op with
    | true =>
      obtain ⟨row, -, hb⟩ := (succ_atom hf b b').mp h
      exact rowMatch_bOk hb hs
    | false => rw [newBound_nil hf] at hs; cases hs
  · exact (succ_le h).bOk (hD s hs)

/-! ## One instruction -/

/-- The environment of a pipeline over a join is what the buffers hold. -/
def MatOk (pool : List TupleSet) (i : VmInstr) (E : Env) : Prop :=
  ∃ L R arL arR, PoolOk pool i L R arL arR ∧ E.mat = Plan.joinSet i.c L R ∧
    E.matAr = i.c + (arL - i.c) + (arR - i.c)

theorem succsVm_openFrame_some (p : List VmInstr) (ip : ℕ) (i : VmInstr) (sc ar : ℕ)
    (b : Bindings) (f : VmFrame) : ∃ L, succsVm p ip (openFrame i sc ar b f) = some L := by
  unfold openFrame
  split
  · exact ⟨_, rfl⟩
  · exact ⟨_, rfl⟩

/-- A hash join opens a frame whether or not its keys are bound. -/
theorem succsVm_hashJoin_some {db : Db} {ov : List VmOverride} {S : Set Row} {i : VmInstr}
    (hop : i.op = .hashJoin) (hS : SrcOk db ov S i) (p : List VmInstr) (ip : ℕ) (b : Bindings) :
    ∃ L, succsVm p ip (execHashJoin db ov i b) = some L := by
  simp only [SrcOk, hop, reduceCtorEq, if_false, atomArity, or_self] at hS
  unfold execHashJoin
  dsimp only
  cases hov : liveOv ov i.bodyIdx with
  | some ts => exact succsVm_openFrame_some _ _ _ _ _ _ _
  | none =>
    rw [hov] at hS
    obtain ⟨r, hr, -⟩ := hS
    simp only [hr]
    exact succsVm_openFrame_some _ _ _ _ _ _ _

/-- **An instruction goes on with what `Succ` allows.** -/
theorem mem_succs_iff {cr : CompiledRule} {db : Db} {ov : List VmOverride}
    (pool : List TupleSet) {p : List VmInstr} (ip : ℕ) {i : VmInstr} {E : Env}
    {is : List VmInstr} (hE : EnvOk cr db ov is E) (hmem : i ∈ is) (hi : instrAt p ip = i)
    (hop : bodyOp i.op = true ∨ i.op = .matJoin) (hmat : i.op = .matJoin → MatOk pool i E)
    (b : Bindings) :
    ∃ L, succsVm p ip (bodyOutcome cr ov db pool i 0 b) = some L ∧
      ((i.op = .hashJoin → KeysBound i b) → ∀ b', b' ∈ L ↔ Succ E i b b') := by
  have hatom : ∀ {o : VmOutcome}, driverFeeds i.op = true →
      (∃ L, succsVm p ip o = some L ∧
        ∀ b', b' ∈ L ↔ ∃ row ∈ E.src i.bodyIdx, rowMatch E.sig i b row = some b') →
      ∃ L, succsVm p ip o = some L ∧
        ((i.op = .hashJoin → KeysBound i b) → ∀ b', b' ∈ L ↔ Succ E i b b') :=
    fun hf ⟨L, hL, hb⟩ => ⟨L, hL, fun _ b' => by rw [hb, succ_atom hf]⟩
  unfold bodyOutcome
  split
  · rename_i h
    have hf : driverFeeds i.op = true := by rw [h]; rfl
    exact hatom hf (succs_scan hi h (hE.src i hmem hf) b)
  · rename_i h
    have hf : driverFeeds i.op = true := by rw [h]; rfl
    obtain ⟨m, hm⟩ := hE.pats i hmem h
    exact hatom hf (succs_walk hi h (hE.src i hmem hf) hm (by rw [hE.sig]; rfl) b)
  · rename_i h
    have hf : driverFeeds i.op = true := by rw [h]; rfl
    exact hatom hf (succs_lookup hi h (hE.src i hmem hf) b)
  · rename_i h
    have hf : driverFeeds i.op = true := by rw [h]; rfl
    exact hatom hf (succs_lookupPerm hi h (hE.src i hmem hf) (by rw [hE.sig]; rfl) b)
  · rename_i h
    have hf : driverFeeds i.op = true := by rw [h]; rfl
    obtain ⟨L, hL⟩ := succsVm_hashJoin_some h (hE.src i hmem hf) p ip b
    refine ⟨L, hL, fun hk b' => ?_⟩
    obtain ⟨L', hL', hb⟩ := succs_hashJoin (G := E.sig) hi h (hE.src i hmem hf) (hk h)
    rw [hL] at hL'
    cases hL'
    rw [hb, succ_atom hf]
  · rename_i h
    obtain ⟨L, R, arL, arR, hpool, hset, har⟩ := hmat h
    obtain ⟨L', hL', hb⟩ := succs_matJoin hi hpool b
    refine ⟨L', hL', fun _ b' => ?_⟩
    rw [hb]
    simp only [Succ, h, hset, har]
  · rename_i h
    obtain ⟨r, hr, hV, hlen⟩ := hE.neg i hmem h
    simp only [hr]
    obtain ⟨L, hL, hb⟩ := succs_negCheck hV hlen p ip b
    refine ⟨L, hL, fun _ b' => ?_⟩
    rw [hb]
    simp only [Succ, h]
  · rename_i h
    have htbl : E.sig.tbl = db.tbl := by rw [hE.sig]; rfl
    obtain ⟨L, hL, hb⟩ := succs_listMember hi db.tbl b
    refine ⟨L, hL, fun _ b' => ?_⟩
    rw [hb]
    simp only [Succ, h, htbl]
  · rename_i h
    obtain ⟨e, he, hV⟩ := hE.range i hmem h
    obtain ⟨L, hL, hb⟩ := succs_range hi he hV b
    refine ⟨L, hL, fun _ b' => ?_⟩
    rw [hb]
    simp only [Succ, h]
  · have htbl : E.sig.tbl = db.tbl := by rw [hE.sig]; rfl
    obtain ⟨L, hL, hb⟩ := succs_builtin p ip db.tbl i b
    refine ⟨L, hL, fun _ b' => ?_⟩
    rw [hb]
    unfold Succ
    rw [htbl]
    rcases hop with hop | hop <;> split
    all_goals simp_all [driverFeeds, bodyOp]

/-! ## Where the code is -/

/-- The bytecode spells these instructions from `ip` on. -/
def At (p : List VmInstr) (ip : ℕ) (code : List VmInstr) : Prop := code <+: p.drop ip

theorem At.head {p : List VmInstr} {ip : ℕ} {i : VmInstr} {is : List VmInstr}
    (h : At p ip (i :: is)) : instrAt p ip = i := by
  obtain ⟨rest, hrest⟩ := h
  have hget : (p.drop ip)[0]? = some i := by rw [← hrest]; rfl
  rw [List.getElem?_drop, Nat.add_zero] at hget
  simp [instrAt, hget]

theorem At.tail {p : List VmInstr} {ip : ℕ} {i : VmInstr} {is : List VmInstr}
    (h : At p ip (i :: is)) : At p (ip + 1) is := by
  obtain ⟨rest, hrest⟩ := h
  refine ⟨rest, ?_⟩
  rw [← List.drop_drop, ← hrest]
  rfl

theorem At.left {p : List VmInstr} {ip : ℕ} {is j : List VmInstr} (h : At p ip (is ++ j)) :
    At p ip is := (List.prefix_append is j).trans h

theorem At.right {p : List VmInstr} {ip : ℕ} {is j : List VmInstr} (h : At p ip (is ++ j)) :
    At p (ip + is.length) j := by
  induction is generalizing ip with
  | nil => exact h
  | cons i is ih =>
    have h' := ih (At.tail (i := i) h)
    rw [List.length_cons]
    rwa [show ip + 1 + is.length = ip + (is.length + 1) by omega] at h'

theorem At.mem {p : List VmInstr} {ip : ℕ} {code : List VmInstr} (h : At p ip code)
    {i : VmInstr} (hi : i ∈ code) : i ∈ p := List.mem_of_mem_drop (h.subset hi)

/-! ## Pipelines -/

/-- What each position of a pipeline goes on with. -/
def stepList (cr : CompiledRule) (ov : List VmOverride) (db : Db) (pool : List TupleSet) (ip : ℕ)
    (b : Bindings) : List Bindings :=
  (succsVm cr.instrs ip (bodyOutcome cr ov db pool (instrAt cr.instrs ip) 0 b)).getD []

/-- The solutions of a pipeline are the bindings that reach its leaf. -/
theorem mem_sols_iff {cr : CompiledRule} {db : Db} {ov : List VmOverride} {pool : List TupleSet}
    {E : Env} {js : List VmInstr} (hE : EnvOk cr db ov js E) (is : List VmInstr) {D : List ℕ}
    {ip : ℕ} (hat : At cr.instrs ip is) (hsub : ∀ i ∈ is, i ∈ js)
    (hop : ∀ i ∈ is, bodyOp i.op = true ∨ i.op = .matJoin)
    (hmat : ∀ i ∈ is, i.op = .matJoin → MatOk pool i E) (hkeys : KeysOk E.sig D is)
    {b : Bindings} (hD : ∀ s ∈ D, bOk b s = true) (b' : Bindings) :
    b' ∈ Machine.sols (stepList cr ov db pool) is.length ip b ↔ Reach E is b b' := by
  induction is generalizing ip b D with
  | nil => simp [Machine.sols, Reach]
  | cons i is ih =>
    obtain ⟨L, hL, hmem⟩ := mem_succs_iff pool ip hE (hsub i (by simp)) hat.head (hop i (by simp))
      (hmat i (by simp)) b
    have hkb : i.op = .hashJoin → KeysBound i b := fun h =>
      ⟨(hkeys.1 h).1, fun pk hpk => hD _ ((hkeys.1 h).2 pk hpk)⟩
    have hstep : stepList cr ov db pool ip b = L := by
      simp only [stepList, hat.head, hL, Option.getD_some]
    simp only [List.length_cons, Machine.sols, hstep, List.mem_flatMap, Reach]
    refine exists_congr fun b₁ => ?_
    rw [hmem hkb]
    refine and_congr_right fun h₁ => ?_
    exact ih hat.tail (fun j hj => hsub j (by simp [hj])) (fun j hj => hop j (by simp [hj]))
      (fun j hj => hmat j (by simp [hj])) hkeys.2 (succ_bound hD h₁)

/-- **A pipeline visits its leaf once for each solution**, or the frame limit is hit.
`P` is what the leaf keeps true of the state; while it holds the instructions
behave as in the state `s₀`. -/
theorem search_pipeline {cr : CompiledRule} {md : Mode} (sub : SubRun) {stop : ℕ} {s₀ : ExecSt}
    {E : Env} {js : List VmInstr} (hE : EnvOk cr s₀.db md.ov js E) {is : List VmInstr}
    {leaf : VmInstr} {start : ℕ} (hat : At cr.instrs start (is ++ [leaf]))
    (hsub : ∀ i ∈ is, i ∈ js) (hop : ∀ i ∈ is, bodyOp i.op = true ∨ i.op = .matJoin)
    (hmat : ∀ i ∈ is, i.op = .matJoin → MatOk s₀.pool i E) (hstop : start + is.length < stop)
    (P : ExecSt → Prop) (eff : ExecSt → Bindings → ExecSt)
    (hP : ∀ s, P s → ∀ i ∈ is, ∀ sp b, bodyOutcome cr md.ov s.db s.pool i sp b =
      bodyOutcome cr md.ov s₀.db s₀.pool i sp b)
    (hleaf : ∀ d s b, P s → exec cr md sub stop (start + is.length) d s b = (eff s b, .fail) ∧
      P (eff s b))
    {fuel : ℕ} (hfuel : is.length < fuel) (d : ℕ) (s : ExecSt) (b : Bindings) (hs : P s) :
    ((machine cr md sub stop).search stop fuel start d s b = .more
        ((Machine.sols (stepList cr md.ov s₀.db s₀.pool) is.length start b).foldl eff s) ∧
      P ((Machine.sols (stepList cr md.ov s₀.db s₀.pool) is.length start b).foldl eff s)) ∨
      Machine.Gave ((machine cr md sub stop).search stop fuel start d s b) := by
  have hinstr : ∀ ip, start ≤ ip → ip < start + is.length → instrAt cr.instrs ip ∈ is := by
    intro ip hge hlt
    obtain ⟨rest, hrest⟩ := hat.left
    have hget : (cr.instrs.drop start)[ip - start]? = is[ip - start]? := by
      rw [← hrest, List.getElem?_append_left (by omega)]
    rw [List.getElem?_drop, show start + (ip - start) = ip by omega] at hget
    rw [List.getElem?_eq_getElem (by omega : ip - start < is.length)] at hget
    simp only [instrAt, List.getD_eq_getElem?_getD, hget, Option.getD_some]
    exact List.getElem_mem _
  refine Machine.search_eq_foldl start hstop ?_ ?_ is.length fuel start d s b le_rfl
    rfl hfuel hs
  · intro ip hge hlt d s b hs
    have hi := hinstr ip hge hlt
    have hexec : exec cr md sub stop ip d s b =
        (s, bodyOutcome cr md.ov s₀.db s₀.pool (instrAt cr.instrs ip) d b) := by
      rw [exec_body rfl (hop _ hi), hP s hs _ hi]
    obtain ⟨L, hL, -⟩ := mem_succs_iff s₀.pool ip hE (hsub _ hi) rfl (hop _ hi)
      (hmat _ hi) b
    rcases bodyOutcome_cases cr md.ov s₀.db s₀.pool (instrAt cr.instrs ip) d b with h | h
    · left
      refine ⟨_, hexec, ?_⟩
      rw [succs_machine, h, hL]
      simp only [stepList, hL, Option.getD_some]
    · right
      exact ⟨.frameLimit, by rw [← h]; exact hexec⟩
  · intro d s b hs
    exact hleaf d s b hs

/-! ## Ranges that spell plans -/

namespace Plan

/-- The bytecode in `[start, stop)` spells a plan. -/
def Codes (p : List VmInstr) : Plan → ℕ → ℕ → Prop
  | flat body leaf, start, stop =>
    At p start (body ++ [leaf]) ∧ stop = start + body.length + 1
  | join mbL l mbR r mj body leaf, start, stop =>
    instrAt p start = mbL ∧ l.Codes p (start + 1) mbL.imm.toNat ∧
      instrAt p mbL.imm.toNat = mbR ∧ r.Codes p (mbL.imm.toNat + 1) mbR.imm.toNat ∧
      At p mbR.imm.toNat (mj :: body ++ [leaf]) ∧ stop = mbR.imm.toNat + body.length + 2

/-- The buffers of a plan. -/
def bufs : Plan → List ℕ
  | flat _ _ => []
  | join mbL l mbR r _ _ _ => mbL.a :: mbR.a :: (l.bufs ++ r.bufs)

/-- How deep its ranges nest. -/
def height : Plan → ℕ
  | flat _ _ => 0
  | join _ l _ r _ _ _ => max l.height r.height + 1

/-- A join reads the buffers its sub-plans fill, and its rows fit. -/
def Fits : Plan → Prop
  | flat _ _ => True
  | join mbL l mbR r mj _ _ =>
    l.Fits ∧ r.Fits ∧ mj.a = mbL.a ∧ mj.b = mbR.a ∧ mbL.b = l.leaf.b ∧ mbR.b = r.leaf.b ∧
      0 < mbL.b ∧ 0 < mbR.b ∧ mj.c ≤ mbL.b ∧ mj.c ≤ mbR.b ∧
      mj.c + (mbL.b - mj.c) + (mbR.b - mj.c) ≤ maxArity

/-- The pipelines of a plan bind the keys of their hash joins. -/
def Keys (G : Sig) : Plan → Prop
  | flat body _ => KeysOk G [] body
  | join _ l _ r mj body _ => l.Keys G ∧ r.Keys G ∧ KeysOk G [] (mj :: body)

theorem Codes.lt {p : List VmInstr} {P : Plan} {start stop : ℕ} (h : P.Codes p start stop) :
    start < stop := by
  induction P generalizing start stop with
  | flat body leaf => have := h.2; omega
  | join mbL l mbR r mj body leaf ihl ihr =>
    obtain ⟨-, hl, -, hr, -, hstop⟩ := h
    have hl' := ihl hl
    have hr' := ihr hr
    omega

end Plan

/-- Nothing but some buffers changed. -/
structure SameBut (bufs : List ℕ) (s s' : ExecSt) : Prop where
  /-- The database. -/
  db : s'.db = s.db
  /-- The rows handed out. -/
  out : s'.out = s.out
  /-- The groups. -/
  buckets : s'.buckets = s.buckets
  /-- The other buffers. -/
  pool : ∀ n, n ∉ bufs → s'.pool[n]? = s.pool[n]?

/-- Hand out head rows, or capture them. -/
def record (md : Mode) (s : ExecSt) (rows : List Row) : ExecSt :=
  match md.capture with
  | some buf => { s with pool := s.pool.modify buf fun ts => ts.addAll rows }
  | none => { s with out := s.out ++ rows }

/-- Head rows go to a buffer, or are handed out without being stored. -/
def Records (db : Db) (md : Mode) (leaf : VmInstr) : Prop :=
  md.capture ≠ none ∨ (md.capture = none ∧ md.dry = true ∧
    db.relAtArityRo leaf.a leaf.b ≠ none ∧ ∀ j < leaf.b, leaf.slot j ≠ noSlot)

theorem execProject_record {md : Mode} {leaf : VmInstr} {s : ExecSt}
    (h : Records s.db md leaf) (b : Bindings) :
    execProject md leaf s b = (record md s [leafRow leaf b], .fail) := by
  unfold execProject record leafRow
  dsimp only
  cases hc : md.capture with
  | some buf => simp [TupleSet.addAll]
  | none =>
    rcases h with h | ⟨-, hdry, hrel, hslots⟩
    · exact absurd hc h
    · obtain ⟨r, hr⟩ := Option.ne_none_iff_exists'.mp hrel
      have hno : ((List.range leaf.b).any fun j => leaf.slot j == noSlot) = false := by
        simpa using hslots
      simp only [hr, hno, hdry, if_true, Bool.false_eq_true, if_false]

theorem record_append (md : Mode) (s : ExecSt) (xs ys : List Row) :
    record md (record md s xs) ys = record md s (xs ++ ys) := by
  unfold record
  cases md.capture with
  | some buf =>
    simp only [TupleSet.addAll, List.foldl_append]
    congr 1
    refine List.ext_getElem? fun n => ?_
    simp only [List.getElem?_modify]
    cases s.pool[n]? with
    | none => rfl
    | some ts => by_cases hn : buf = n <;> simp [hn]
  | none => simp

theorem record_nil (md : Mode) (s : ExecSt) : record md s [] = s := by
  unfold record
  cases md.capture with
  | some buf =>
    simp only [TupleSet.addAll, List.foldl_nil]
    congr 1
    refine List.ext_getElem? fun n => ?_
    simp only [List.getElem?_modify]
    cases s.pool[n]? with
    | none => rfl
    | some ts => by_cases hn : buf = n <;> simp [hn]
  | none => simp

theorem foldl_record (md : Mode) (leaf : VmInstr) (bs : List Bindings) (s : ExecSt) :
    bs.foldl (fun s b => record md s [leafRow leaf b]) s =
      record md s (bs.map (leafRow leaf)) := by
  induction bs generalizing s with
  | nil => exact (record_nil md s).symm
  | cons b bs ih =>
    rw [List.foldl_cons, ih, record_append, List.map_cons, List.singleton_append]

/-- The end of a range without aggregates changes nothing. -/
theorem finish_eq {md : Mode} {p : List VmInstr} (hagg : ∀ i ∈ p, i.op ≠ .aggAcc)
    (start stop : ℕ) (r : Final ExecSt VmErr) : finish md p start stop r = r := by
  cases r with
  | failed err s => rfl
  | done s =>
    have hnone : ((p.take stop).drop start).reverse.find? (fun i => decide (i.op = .aggAcc)) =
        none := by
      rw [List.find?_eq_none]
      intro i hi
      have := hagg i (List.mem_of_mem_take (List.mem_of_mem_drop (List.mem_reverse.mp hi)))
      simpa using this
    simp only [finish, emitBuckets, hnone]

theorem db_record (md : Mode) (s : ExecSt) (rows : List Row) : (record md s rows).db = s.db := by
  unfold record
  cases md.capture <;> rfl

theorem pool_record {md : Mode} {s : ExecSt} {rows : List Row} {n : ℕ}
    (h : ∀ buf, md.capture = some buf → n ≠ buf) : (record md s rows).pool[n]? = s.pool[n]? := by
  unfold record
  cases hc : md.capture with
  | some buf =>
    simp only [List.getElem?_modify]
    have hne := h buf hc
    cases s.pool[n]? with
    | none => rfl
    | some ts => simp [Ne.symm hne]
  | none => rfl

/-- The pipeline at the end of a plan records its head rows. -/
theorem search_tail {cr : CompiledRule} {md : Mode} (sub : SubRun) (stop : ℕ) {start : ℕ}
    {s₀ : ExecSt} {E : Env} {is : List VmInstr} {leaf : VmInstr}
    (hE : EnvOk cr s₀.db md.ov is E) (hat : At cr.instrs start (is ++ [leaf]))
    (hop : ∀ i ∈ is, bodyOp i.op = true ∨ i.op = .matJoin)
    (hmat : ∀ i ∈ is, i.op = .matJoin → MatOk s₀.pool i E ∧
      ∀ buf, md.capture = some buf → i.a ≠ buf ∧ i.b ≠ buf)
    (hkeys : KeysOk E.sig [] is) (hleaf : leaf.op = .project) (hrec : Records s₀.db md leaf)
    (hstop : start + is.length < stop) (fuel : ℕ) (hfuel : is.length < fuel) (d : ℕ) :
    (∃ rows, (machine cr md sub stop).search stop fuel start d s₀ bInit =
        .more (record md s₀ rows) ∧ ∀ t, t ∈ rows ↔ ∃ b, Reach E is bInit b ∧ t = leafRow leaf b) ∨
      Machine.Gave ((machine cr md sub stop).search stop fuel start d s₀ bInit) := by
  have hleafAt : instrAt cr.instrs (start + is.length) = leaf := hat.right.head
  have hpipe := search_pipeline sub hE hat (fun i hi => hi) hop
    (fun i hi h => (hmat i hi h).1) hstop (fun s => ∃ rows, s = record md s₀ rows)
    (fun s b => record md s [leafRow leaf b]) ?_ ?_ hfuel d s₀ bInit
    ⟨[], (record_nil md s₀).symm⟩
  · rcases hpipe with ⟨hsearch, -⟩ | hgave
    · left
      rw [foldl_record] at hsearch
      refine ⟨_, hsearch, fun t => ?_⟩
      simp only [List.mem_map]
      refine exists_congr fun b => ?_
      rw [mem_sols_iff hE is hat.left (fun i hi => hi) hop (fun i hi h => (hmat i hi h).1) hkeys
        (by simp)]
      exact and_congr_right fun _ => eq_comm
    · exact .inr hgave
  · rintro s ⟨rows, rfl⟩ i hi sp b
    unfold bodyOutcome
    rw [db_record]
    split
    all_goals try rfl
    rename_i h
    unfold execMatJoin
    rw [pool_record fun buf hb => ((hmat i hi h).2 buf hb).1,
      pool_record fun buf hb => ((hmat i hi h).2 buf hb).2]
  · rintro d' s b ⟨rows, rfl⟩
    have hexec : exec cr md sub stop (start + is.length) d' (record md s₀ rows) b =
        execProject md leaf (record md s₀ rows) b := by
      unfold exec
      simp only [instrAt] at hleafAt
      simp only [hleafAt, hleaf]
    rw [hexec, execProject_record (by rw [db_record]; exact hrec), record_append]
    exact ⟨rfl, _, rfl⟩

/-! ## Filling buffers -/

theorem EnvOk.of_subset {cr : CompiledRule} {db : Db} {ov : List VmOverride}
    {is j : List VmInstr} {E : Env} (h : EnvOk cr db ov is E) (hsub : ∀ i ∈ j, i ∈ is) :
    EnvOk cr db ov j E where
  sig := h.sig
  neg i hi := h.neg i (hsub i hi)
  range i hi := h.range i (hsub i hi)
  src i hi := h.src i (hsub i hi)
  pats i hi := h.pats i (hsub i hi)

theorem EnvOk.withMat {cr : CompiledRule} {db : Db} {ov : List VmOverride} {is : List VmInstr}
    {E : Env} (h : EnvOk cr db ov is E) (m : Set Row) (ar : ℕ) :
    EnvOk cr db ov is (E.withMat m ar) :=
  ⟨h.sig, h.neg, h.range, h.src, h.pats⟩

/-- A range of the bytecode spells a plan, and the state is ready to run it. -/
structure PlanAt (cr : CompiledRule) (ov : List VmOverride) (E : Env) (P : Plan)
    (start stop : ℕ) (s : ExecSt) : Prop where
  /-- The code is there. -/
  codes : P.Codes cr.instrs start stop
  /-- The database holds the environment. -/
  env : EnvOk cr s.db ov P.instrs E
  /-- Instructions are of the right kinds. -/
  shape : P.Shape
  /-- Joins fit their buffers. -/
  fits : P.Fits
  /-- Keys of hash joins are bound. -/
  keys : P.Keys E.sig
  /-- No buffer is used twice. -/
  nodup : P.bufs.Nodup
  /-- No buffer is in use. -/
  fresh : ∀ n ∈ P.bufs, ∃ ts, s.pool[n]? = some ts ∧ ts.arity = 0

/-- A run of a plan records its head rows and changes its own buffers only, or the
frame limit is hit. -/
def RunsPlan (cr : CompiledRule) (md : Mode) (depth stop fuel start d : ℕ) (s : ExecSt) (P : Plan)
    (E : Env) : Prop :=
  (∃ rows s₁, (machine cr md (subRun cr md depth) stop).search stop fuel start d s bInit =
      .more (record md s₁ rows) ∧ SameBut P.bufs s s₁ ∧ ∀ t, t ∈ rows ↔ t ∈ P.sol E) ∨
    Machine.Gave ((machine cr md (subRun cr md depth) stop).search stop fuel start d s bInit)

theorem SameBut.refl (bufs : List ℕ) (s : ExecSt) : SameBut bufs s s :=
  ⟨rfl, rfl, rfl, fun _ _ => rfl⟩

theorem SameBut.trans {bs bs' : List ℕ} {s s' s'' : ExecSt} (h : SameBut bs s s')
    (h' : SameBut bs' s' s'') : SameBut (bs ++ bs') s s'' where
  db := h'.db.trans h.db
  out := h'.out.trans h.out
  buckets := h'.buckets.trans h.buckets
  pool n hn := by
    simp only [List.mem_append, not_or] at hn
    rw [h'.pool n hn.2, h.pool n hn.1]

theorem SameBut.of_subset {bs bs' : List ℕ} {s s' : ExecSt} (h : SameBut bs s s')
    (hsub : ∀ n ∈ bs, n ∈ bs') : SameBut bs' s s' :=
  ⟨h.db, h.out, h.buckets, fun n hn => h.pool n fun hb => hn (hsub n hb)⟩

/-- `MAT_BEGIN` fills its buffer with the head rows of a sub-plan and goes on after it. -/
theorem search_matBegin {cr : CompiledRule} (hagg : ∀ i ∈ cr.instrs, i.op ≠ .aggAcc) {md : Mode}
    {depth start : ℕ} (stop fuel d : ℕ) {s : ExecSt} {E : Env} {mb : VmInstr} {l : Plan}
    (hmb : instrAt cr.instrs start = mb) (hop : mb.op = .matBegin) (hlt : start + 1 < mb.imm.toNat)
    (hstop : mb.imm.toNat ≤ stop) (hbuf : ∃ ts, s.pool[mb.a]? = some ts ∧ ts.arity = 0)
    (hnot : mb.a ∉ l.bufs)
    (hsub : RunsPlan cr { md with capture := some mb.a } depth mb.imm.toNat
      (mb.imm.toNat - (start + 1) + 1) (start + 1) 0
      { s with pool := s.pool.set mb.a (TupleSet.init mb.b), buckets := [] } l E) :
    (∃ s₁, (machine cr md (subRun cr md (depth + 1)) stop).search stop (fuel + 1) start d s bInit =
        (machine cr md (subRun cr md (depth + 1)) stop).search stop fuel mb.imm.toNat d s₁ bInit ∧
      SameBut (mb.a :: l.bufs) s s₁ ∧ ∃ ts, s₁.pool[mb.a]? = some ts ∧ ts.arity = mb.b ∧
        ∀ x, x ∈ ts.rows ↔ x ∈ l.sol E) ∨
      Machine.Gave ((machine cr md (subRun cr md (depth + 1)) stop).search stop (fuel + 1) start d s
        bInit) := by
  obtain ⟨ts₀, hts₀, har₀⟩ := hbuf
  have hle : ¬ stop ≤ start := by omega
  have hguard : ¬ (mb.imm.toNat ≤ start + 1 ∨ stop < mb.imm.toNat) := by omega
  have hexec : (machine cr md (subRun cr md (depth + 1)) stop).exec start d s bInit =
      execMatBegin (subRun cr md (depth + 1)) stop start mb s bInit := by
    show exec cr md (subRun cr md (depth + 1)) stop start d s bInit = _
    unfold exec
    simp only [instrAt] at hmb
    simp only [hmb, hop]
  have hcall : subRun cr md (depth + 1) mb.a (start + 1) mb.imm.toNat
      { s with pool := s.pool.set mb.a (TupleSet.init mb.b), buckets := [] } =
      ((machine cr { md with capture := some mb.a }
        (subRun cr { md with capture := some mb.a } depth) mb.imm.toNat).search mb.imm.toNat
        (mb.imm.toNat - (start + 1) + 1) (start + 1) 0
        { s with pool := s.pool.set mb.a (TupleSet.init mb.b), buckets := [] } bInit).final :=
    finish_eq hagg _ _ _
  rcases hsub with ⟨rows, s₁, hsearch, hsame, hrows⟩ | ⟨err, s₁, hgave⟩
  · left
    rw [hsearch] at hcall
    set s₂ := record { md with capture := some mb.a } s₁ rows with hs₂
    have hget : s₂.pool[mb.a]? = some ((TupleSet.init mb.b).addAll rows) := by
      have hset : s₁.pool[mb.a]? = some (TupleSet.init mb.b) := by
        rw [hsame.pool _ hnot]
        simp only
        rw [List.getElem?_set_self]
        exact (List.getElem?_eq_some_iff.mp hts₀).1
      simp only [hs₂, record, List.getElem?_modify, hset]
      simp
    refine ⟨{ s₂ with buckets := s.buckets }, ?_, ⟨?_, ?_, rfl, ?_⟩, _, hget, ?_, ?_⟩
    · rw [Machine.search, if_neg hle, hexec]
      unfold execMatBegin
      simp only [hts₀, hguard, if_false, har₀, if_true, hcall, Branch.final]
    · exact (db_record _ _ _).trans hsame.db
    · exact hsame.out
    · intro n hn
      simp only [List.mem_cons, not_or] at hn
      show s₂.pool[n]? = s.pool[n]?
      rw [hs₂, pool_record fun buf hb => ?_, hsame.pool n hn.2]
      · simp only
        rw [List.getElem?_set_ne (Ne.symm hn.1)]
      · cases hb; exact hn.1
    · simp
    · intro x
      simp [hrows]
  · right
    rw [hgave] at hcall
    refine ⟨err, { s₁ with buckets := s.buckets }, ?_⟩
    rw [Machine.search, if_neg hle, hexec]
    unfold execMatBegin
    simp only [hts₀, hguard, if_false, har₀, if_true, hcall, Branch.final]

/-- **A range that spells a plan records the plan's head rows.**  The induction is
on the plan; the buffers of its two sides are filled one after the other. -/
theorem runsPlan {cr : CompiledRule} (hagg : ∀ i ∈ cr.instrs, i.op ≠ .aggAcc) {E : Env}
    (P : Plan) : ∀ (md : Mode) {depth stop start stop' : ℕ} (fuel d : ℕ) {s : ExecSt},
    PlanAt cr md.ov E P start stop' s → Records s.db md P.leaf → stop' ≤ stop →
    P.height ≤ depth → (∀ buf, md.capture = some buf → buf ∉ P.bufs) → stop' - start < fuel →
    RunsPlan cr md depth stop fuel start d s P E := by
  induction P with
  | flat body leaf =>
    intro md depth stop start stop' fuel d s h hrec hstop hdepth hcap hfuel
    obtain ⟨hat, hlen⟩ := h.codes
    have hne : ∀ i ∈ body, i.op ≠ .matJoin := fun i hi => matJoin_of_bodyOp (h.shape.1 i hi)
    rcases search_tail (subRun cr md depth) stop
      (h.env.of_subset fun i hi => by simp [Plan.instrs, hi]) hat
      (fun i hi => .inl (h.shape.1 i hi)) (fun i hi hm => absurd hm (hne i hi)) h.keys h.shape.2
      hrec (by omega) fuel (by omega) d with ⟨rows, hsearch, hrows⟩ | hgave
    · exact .inl ⟨rows, s, hsearch, SameBut.refl _ _, hrows⟩
    · exact .inr hgave
  | join mbL l mbR r mj body leaf ihl ihr =>
    intro md depth stop start stop' fuel d s h hrec hstop hdepth hcap hfuel
    obtain ⟨hmbL, hl, hmbR, hr, hat, hlen⟩ := h.codes
    obtain ⟨hopL, hshl, hopR, hshr, hopj, hbody, hleafop⟩ := h.shape
    obtain ⟨hfl, hfr, hja, hjb, hwL, hwR, hpL, hpR, hcL, hcR, hmax⟩ := h.fits
    obtain ⟨hkl, hkr, hkb⟩ := h.keys
    have hnodup := h.nodup
    simp only [Plan.bufs, List.nodup_cons, List.mem_cons, List.mem_append, not_or,
      List.nodup_append] at hnodup
    obtain ⟨⟨hLR, hLl, hLr⟩, ⟨hRl, hRr⟩, hndl, hndr, hdisj⟩ := hnodup
    simp only [Plan.height] at hdepth
    obtain ⟨depth, rfl⟩ := Nat.exists_eq_succ_of_ne_zero (by omega : depth ≠ 0)
    have hltl := hl.lt
    have hltr := hr.lt
    obtain ⟨fuel, rfl⟩ : ∃ f, fuel = f + 2 := ⟨fuel - 2, by omega⟩
    have hEl : EnvOk cr s.db md.ov l.instrs E := h.env.of_subset fun i hi => by
      simp [Plan.instrs, hi]
    have hEr : EnvOk cr s.db md.ov r.instrs E := h.env.of_subset fun i hi => by
      simp [Plan.instrs, hi]
    have hEb : EnvOk cr s.db md.ov (mj :: body) E := h.env.of_subset fun i hi => by
      rcases List.mem_cons.mp hi with rfl | hi <;> simp [Plan.instrs, *]
    -- the left buffer
    have hrunL : RunsPlan cr { md with capture := some mbL.a } depth mbL.imm.toNat
        (mbL.imm.toNat - (start + 1) + 1) (start + 1) 0
        { s with pool := s.pool.set mbL.a (TupleSet.init mbL.b), buckets := [] } l E := by
      refine ihl _ _ 0 ⟨hl, hEl, hshl, hfl, hkl, hndl, fun n hn => ?_⟩ (.inl (by simp)) le_rfl
        (by omega) (fun buf hb => ?_) (by omega)
      · obtain ⟨ts, hts, har⟩ := h.fresh n (by simp [Plan.bufs, hn])
        refine ⟨ts, ?_, har⟩
        simp only
        rw [List.getElem?_set_ne (by rintro rfl; exact hLl hn)]
        exact hts
      · cases hb; exact hLl
    rcases search_matBegin hagg stop (fuel + 1) d hmbL hopL hltl (by omega)
      (h.fresh _ (by simp [Plan.bufs])) hLl hrunL with
      ⟨s₁, hs₁, hsame₁, tsL, htsL, harL, hmemL⟩ | hgave
    swap
    · exact .inr hgave
    -- the right buffer
    have hfresh₁ : ∀ n, n = mbR.a ∨ n ∈ r.bufs → ∃ ts, s₁.pool[n]? = some ts ∧ ts.arity = 0 := by
      intro n hn
      obtain ⟨ts, hts, har⟩ := h.fresh n (by rcases hn with rfl | hn <;> simp [Plan.bufs, *])
      refine ⟨ts, ?_, har⟩
      rw [hsame₁.pool, hts]
      simp only [List.mem_cons, not_or]
      rcases hn with rfl | hn
      · exact ⟨fun he => hLR he.symm, hRl⟩
      · exact ⟨fun he => hLr (he ▸ hn), fun hnl => hdisj n hnl n hn rfl⟩
    have hrunR : RunsPlan cr { md with capture := some mbR.a } depth mbR.imm.toNat
        (mbR.imm.toNat - (mbL.imm.toNat + 1) + 1) (mbL.imm.toNat + 1) 0
        { s₁ with pool := s₁.pool.set mbR.a (TupleSet.init mbR.b), buckets := [] } r E := by
      refine ihr _ _ 0 ⟨hr, by simpa only [hsame₁.db] using hEr, hshr, hfr, hkr, hndr, fun n hn => ?_⟩
        (.inl (by simp)) le_rfl (by omega) (fun buf hb => ?_) (by omega)
      · obtain ⟨ts, hts, har⟩ := hfresh₁ n (.inr hn)
        refine ⟨ts, ?_, har⟩
        simp only
        rw [List.getElem?_set_ne (by rintro rfl; exact hRr hn)]
        exact hts
      · cases hb; exact hRr
    rcases search_matBegin hagg stop fuel d hmbR hopR hltr (by omega)
      (hfresh₁ _ (.inl rfl)) hRr hrunR with
      ⟨s₂, hs₂, hsame₂, tsR, htsR, harR, hmemR⟩ | hgave
    swap
    · exact .inr (by rw [hs₁]; exact hgave)
    -- the pipeline over the join
    have htsL₂ : s₂.pool[mbL.a]? = some tsL := by
      rw [hsame₂.pool, htsL]
      simp only [List.mem_cons, not_or]
      exact ⟨hLR, hLr⟩
    have hmatOk : MatOk s₂.pool mj (E.withMat (Plan.joinSet mj.c (l.sol E) (r.sol E))
        (mj.c + (mbL.b - mj.c) + (mbR.b - mj.c))) :=
      ⟨l.sol E, r.sol E, mbL.b, mbR.b, ⟨⟨tsL, tsR, hja ▸ htsL₂, hjb ▸ htsR, harL, harR, hmemL, hmemR⟩,
        hpL, hpR, hcL, hcR, hmax⟩, rfl, rfl⟩
    have hdb₂ : s₂.db = s.db := hsame₂.db.trans hsame₁.db
    have hsame : SameBut (Plan.join mbL l mbR r mj body leaf).bufs s s₂ :=
      (hsame₁.trans hsame₂).of_subset fun n hn => by
        simp only [List.cons_append, List.mem_cons, List.mem_append] at hn
        simp only [Plan.bufs, List.mem_cons, List.mem_append]
        tauto
    have hnotin : ∀ buf, md.capture = some buf → mj.a ≠ buf ∧ mj.b ≠ buf := fun buf hb => by
      have hb' := hcap buf hb
      simp only [Plan.bufs, List.mem_cons, not_or] at hb'
      exact ⟨fun he => hb'.1 (by rw [← he, hja]), fun he => hb'.2.1 (by rw [← he, hjb])⟩
    have hmatAll : ∀ i ∈ mj :: body, i.op = .matJoin → MatOk s₂.pool i (E.withMat
        (Plan.joinSet mj.c (l.sol E) (r.sol E)) (mj.c + (mbL.b - mj.c) + (mbR.b - mj.c))) ∧
        ∀ buf, md.capture = some buf → i.a ≠ buf ∧ i.b ≠ buf := by
      intro i hi hm
      rcases List.mem_cons.mp hi with rfl | hi
      · exact ⟨hmatOk, hnotin⟩
      · exact absurd hm (matJoin_of_bodyOp (hbody i hi))
    have hops : ∀ i ∈ mj :: body, bodyOp i.op = true ∨ i.op = .matJoin := by
      intro i hi
      rcases List.mem_cons.mp hi with rfl | hi
      · exact .inr hopj
      · exact .inl (hbody i hi)
    rcases search_tail (subRun cr md (depth + 1)) stop
      (hdb₂ ▸ hEb.withMat _ _) hat hops hmatAll hkb hleafop (hdb₂ ▸ hrec)
      (by simp only [List.length_cons]; omega) fuel (by simp only [List.length_cons]; omega) d with
      ⟨rows, hsearch, hrows⟩ | hgave
    · exact .inl ⟨rows, s₂, by rw [hs₁, hs₂]; exact hsearch, hsame, hrows⟩
    · exact .inr (by rw [hs₁, hs₂]; exact hgave)

end DatalogDafsa
