import DatalogDafsa.Eval.Recursive

/-!
# Executing a rule set

`vm_execute` resets the views of all heads to their stored facts and evaluates the
rules: in one call when none is recursive, and stratum by stratum otherwise.

## Main definitions

* `resetHeads`, `vmExecuteMode`, `vmExecute`, `vmExecuteIvm` — the driver.
* `resetContents`, `resetHeads_spec` — what the evaluation starts from.
-/

namespace DatalogDafsa

open Backtrack Operators

/-! ## The driver -/

/-- Reset the view of each head once, and mark its permutation indices. -/
def resetHeads : List CompiledRule → List ℕ → Db → Final Db VmErr
  | [], _, db => .done db
  | cr :: rules, seen, db =>
    if maxRels ≤ cr.headRelId then .failed .internal db
    else if cr.headRelId ∈ seen then resetHeads rules seen db
    else
      match db.rels[cr.headRelId]? with
      | none => .failed .internal db
      | some _ =>
        resetHeads rules (cr.headRelId :: seen)
          ((db.updStore cr.headRelId Store.resetView).permMarkDirty cr.headRelId)

/-- Rules evaluated in one stratum. -/
def maxStratumRules : ℕ := 256

/-- Evaluate one stratum. -/
def evalStratum (pend : Pending) (rules : List CompiledRule) (ivm : Bool) (s : ℕ) (db : Db) :
    Final Db VmErr :=
  let all := rules.filter fun cr => cr.stratum = s
  let strat := all.take maxStratumRules
  if strat.isEmpty then .done db
  else if all.any CompiledRule.isRecursive then evalStratumRecursive db pend strat ivm
  else evalNonrecursive db strat

/-- The highest stratum. -/
def maxStratum (rules : List CompiledRule) : ℕ := (rules.map CompiledRule.stratum).foldl max 0

/-- Evaluate rules over views that are ready. -/
def evalRules (db : Db) (pend : Pending) (rules : List CompiledRule) (ivm : Bool) :
    Final Db VmErr :=
  if !rules.any CompiledRule.isRecursive then evalNonrecursive db rules
  else runAll (evalStratum pend rules ivm) (List.range (maxStratum rules + 1)) db

/-- `vmExecuteMode`. -/
def vmExecuteMode (db : Db) (pend : Pending) (rules : List CompiledRule) (ivm : Bool) :
    Final Db VmErr :=
  if rules.isEmpty then .done db
  else if ivm then evalRules db.permBuildDirty pend rules ivm
  else
    match resetHeads rules [] db with
    | .failed err db' => .failed err db'
    | .done db' => evalRules db'.permBuildDirty pend rules ivm

/-- **`vm_execute`**: evaluate from scratch. -/
def vmExecute (db : Db) (pend : Pending) (rules : List CompiledRule) : Final Db VmErr :=
  vmExecuteMode db pend rules false

/-- Pending insertions in key order. -/
def Pending.sorted (pend : Pending) : Pending := fun id =>
  if id < maxRels then (pend id).sort else pend id

/-- **`vm_execute_ivm`**: propagate pending insertions. -/
def vmExecuteIvm (db : Db) (pend : Pending) (rules : List CompiledRule) : Final Db VmErr :=
  vmExecuteMode db pend.sorted rules true

/-! ## The reset -/

/-- What a from-scratch evaluation starts from: heads hold their stored facts. -/
def resetContents (db : Db) (rules : List CompiledRule) (id : ℕ) : Set Row :=
  {x | x ∈ if rules.any (fun cr => cr.headRelId = id) then db.base id else db.view id}

theorem resetContents_head {rules : List CompiledRule} {cr : CompiledRule} (hcr : cr ∈ rules)
    (db : Db) : resetContents db rules cr.headRelId = {x | x ∈ db.base cr.headRelId} := by
  have hany : rules.any (fun c => c.headRelId = cr.headRelId) = true :=
    List.any_eq_true.mpr ⟨cr, hcr, by simp⟩
  unfold resetContents
  rw [hany, if_pos rfl]

theorem resetContents_other {rules : List CompiledRule} {id : ℕ}
    (hid : ∀ cr ∈ rules, cr.headRelId ≠ id) (db : Db) :
    resetContents db rules id = db.contents id := by
  have hany : rules.any (fun c => c.headRelId = id) = false := by simpa using hid
  unfold resetContents
  rw [hany, if_neg (by simp)]
  rfl

/-- What the reset of some heads does. -/
structure Reset (heads : Set ℕ) (db db' : Db) : Prop where
  /-- The schema stays. -/
  schema : db'.schema = db.schema
  /-- Stored facts stay. -/
  base : ∀ id, db'.base id = db.base id
  /-- Heads hold their stored facts. -/
  head : ∀ id ∈ heads, db'.view id = db.base id
  /-- Other relations stay as they are. -/
  other : ∀ id ∉ heads, db'.rels[id]? = db.rels[id]?
  /-- Base and view of a head are separate. -/
  split : ∀ id ∈ heads, db'.Split id
  /-- Indices that are not marked dirty are up to date. -/
  perms : db.PermsOk → db'.PermsOk

namespace Reset

variable {heads heads' : Set ℕ} {db db' db'' : Db}

theorem refl (db : Db) : Reset ∅ db db :=
  ⟨rfl, fun _ => rfl, fun _ h => absurd h (Set.notMem_empty _), fun _ _ => rfl,
    fun _ h => absurd h (Set.notMem_empty _), id⟩

theorem view_eq (h : Reset heads db db') {id : ℕ} (hid : id ∉ heads) : db'.view id = db.view id := by
  simp only [Db.view, h.other id hid]

theorem trans (h : Reset heads db db') (h' : Reset heads' db' db'') :
    Reset (heads ∪ heads') db db'' where
  schema := h'.schema.trans h.schema
  base id := (h'.base id).trans (h.base id)
  head id hid := by
    by_cases hin : id ∈ heads'
    · rw [h'.head id hin, h.base]
    · rw [h'.view_eq hin]
      exact h.head id (hid.resolve_right hin)
  other id hid := by
    rw [Set.mem_union, not_or] at hid
    exact (h'.other id hid.2).trans (h.other id hid.1)
  split id hid := by
    by_cases hin : id ∈ heads'
    · exact h'.split id hin
    · have hs := h.split id (hid.resolve_right hin)
      unfold Db.Split at hs ⊢
      rwa [h'.other id hin]
  perms hp := h'.perms (h.perms hp)

/-- Resetting one head. -/
theorem one (db : Db) (id : ℕ) :
    Reset {id} db ((db.updStore id Store.resetView).permMarkDirty id) where
  schema := by simp
  base n := by
    rw [Db.base_permMarkDirty, Db.base_updStore]
    unfold Db.base
    cases db.rels[n]? with
    | none => rfl
    | some e => by_cases h : id = n <;> simp [h]
  head n hn := by
    obtain rfl : n = id := hn
    rw [Db.view_permMarkDirty, Db.view_updStore]
    unfold Db.base
    cases db.rels[n]? with
    | none => rfl
    | some e => simp
  other n hn := by
    have hne : id ≠ n := fun h => hn h.symm
    simp only [Db.permMarkDirty, Db.updStore, List.getElem?_modify, if_neg hne]
    cases db.rels[n]? <;> rfl
  split n hn e he := by
    obtain rfl : n = id := hn
    simp only [Db.permMarkDirty, Db.updStore, List.getElem?_modify, Option.map_eq_map,
      Option.map_eq_some_iff] at he
    obtain ⟨e₀, -, rfl⟩ := he
    simp
  perms := Db.permsOk_markDirty (db.schema_updStore id _) rfl
    fun n hn => db.view_updStore_of_ne (Ne.symm hn) _

end Reset

/-- **The driver resets each head.** -/
theorem resetHeads_spec {rules : List CompiledRule} {seen : List ℕ} {db db' : Db}
    (h : resetHeads rules seen db = .done db') :
    Reset {id | (∃ cr ∈ rules, cr.headRelId = id) ∧ id ∉ seen} db db' ∧
      ∀ cr ∈ rules, cr.headRelId < maxRels := by
  induction rules generalizing seen db with
  | nil =>
    cases h
    have hempty : {id | (∃ cr ∈ ([] : List CompiledRule), cr.headRelId = id) ∧ id ∉ seen} = ∅ :=
      Set.eq_empty_of_forall_notMem fun id ⟨⟨cr, hcr, _⟩, _⟩ => by cases hcr
    rw [hempty]
    exact ⟨Reset.refl _, fun cr hcr => by cases hcr⟩
  | cons cr rules ih =>
    unfold resetHeads at h
    by_cases hmax : maxRels ≤ cr.headRelId
    · rw [if_pos hmax] at h
      cases h
    · rw [if_neg hmax] at h
      by_cases hseen : cr.headRelId ∈ seen
      · rw [if_pos hseen] at h
        obtain ⟨hreset, hlt⟩ := ih h
        have heads : {id | (∃ c ∈ cr :: rules, c.headRelId = id) ∧ id ∉ seen} =
            {id | (∃ c ∈ rules, c.headRelId = id) ∧ id ∉ seen} := by
          ext id
          refine and_congr_left fun hid => ⟨?_, fun ⟨c, hc, h⟩ => ⟨c, by simp [hc], h⟩⟩
          rintro ⟨c, hc, rfl⟩
          rcases List.mem_cons.mp hc with rfl | hc
          · exact absurd hseen hid
          · exact ⟨c, hc, rfl⟩
        rw [heads]
        exact ⟨hreset, List.forall_mem_cons.mpr ⟨by omega, hlt⟩⟩
      · rw [if_neg hseen] at h
        cases he : db.rels[cr.headRelId]? with
        | none => rw [he] at h; cases h
        | some e =>
          rw [he] at h
          obtain ⟨hreset, hlt⟩ := ih h
          have heads : {id | (∃ c ∈ cr :: rules, c.headRelId = id) ∧ id ∉ seen} =
              {cr.headRelId} ∪
                {id | (∃ c ∈ rules, c.headRelId = id) ∧ id ∉ cr.headRelId :: seen} := by
            ext id
            simp only [List.mem_cons, Set.mem_ofPred_eq, Set.mem_union, Set.mem_singleton_iff,
              not_or]
            by_cases hid : id = cr.headRelId
            · subst hid
              exact iff_of_true ⟨⟨cr, .inl rfl, rfl⟩, hseen⟩ (.inl rfl)
            · constructor
              · rintro ⟨⟨c, rfl | hc, rfl⟩, hn⟩
                · exact absurd rfl hid
                · exact .inr ⟨⟨c, hc, rfl⟩, hid, hn⟩
              · rintro (h | ⟨⟨c, hc, rfl⟩, -, hn⟩)
                · exact absurd h hid
                · exact ⟨⟨c, .inr hc, rfl⟩, hn⟩
          rw [heads]
          exact ⟨(Reset.one db _).trans hreset, List.forall_mem_cons.mpr ⟨by omega, hlt⟩⟩

/-- Rows of a reset database have the arity of their relation. -/
theorem Reset.rowsOk {heads : Set ℕ} {db db' : Db} (h : Reset heads db db') (hdb : db.RowsOk) :
    db'.RowsOk := by
  intro id ar har
  rw [h.schema] at har
  obtain ⟨hview, hbase⟩ := hdb id ar har
  refine ⟨?_, by rwa [h.base id]⟩
  by_cases hid : id ∈ heads
  · rwa [h.head id hid]
  · rwa [h.view_eq hid]

/-- A from-scratch evaluation that succeeds has reset the heads and evaluated the rules. -/
theorem vmExecute_started {db db' : Db} {pend : Pending} {rules : List CompiledRule}
    (hne : rules ≠ []) (h : vmExecute db pend rules = .done db') :
    ∃ db₀, resetHeads rules [] db = .done db₀ ∧
      evalRules db₀.permBuildDirty pend rules false = .done db' := by
  unfold vmExecute vmExecuteMode at h
  have hempty : rules.isEmpty = false := by simpa using hne
  simp only [hempty, Bool.false_eq_true, if_false] at h
  cases hr : resetHeads rules [] db with
  | failed err db₀ => rw [hr] at h; cases h
  | done db₀ =>
    rw [hr] at h
    exact ⟨db₀, rfl, h⟩

/-- What the rules are evaluated on: the reset contents, with indices up to date. -/
theorem resetHeads_ready {db db₀ : Db} {rules : List CompiledRule} (hrows : db.RowsOk)
    (hperms : db.PermsOk) (hr : resetHeads rules [] db = .done db₀) :
    Reset {id | ∃ cr ∈ rules, cr.headRelId = id} db db₀.permBuildDirty ∧ db₀.permBuildDirty.Ok ∧
      db₀.permBuildDirty.contents = resetContents db rules ∧
      ∀ cr ∈ rules, cr.headRelId < maxRels := by
  obtain ⟨hreset, hlt⟩ := resetHeads_spec hr
  simp only [List.not_mem_nil, not_false_eq_true, and_true] at hreset
  obtain ⟨hbuilt, hclean⟩ := Db.permBuildDirty_ok (hreset.perms hperms)
  refine ⟨?_, ⟨?_, hbuilt, hclean⟩, ?_, hlt⟩
  · exact ⟨by simpa using hreset.schema, hreset.base, hreset.head, hreset.other, hreset.split,
      fun _ => hbuilt⟩
  · intro id ar har
    exact hreset.rowsOk hrows id ar (by simpa using har)
  · funext id
    ext x
    show x ∈ db₀.view id ↔ x ∈ resetContents db rules id
    unfold resetContents
    by_cases hid : ∃ cr ∈ rules, cr.headRelId = id
    · have hany : rules.any (fun cr => cr.headRelId = id) = true := by simpa using hid
      rw [hreset.head id hid, Set.mem_ofPred_eq, hany, if_pos rfl]
    · have hany : rules.any (fun cr => cr.headRelId = id) = false := by simpa using hid
      rw [hreset.view_eq hid, Set.mem_ofPred_eq, hany, if_neg (by simp)]

/-- **A from-scratch evaluation** resets the heads, brings the indices up to date and
evaluates the rules over the reset contents. -/
theorem vmExecute_reset {db db' : Db} {pend : Pending} {rules : List CompiledRule}
    (hne : rules ≠ []) (hrows : db.RowsOk) (hperms : db.PermsOk)
    (h : vmExecute db pend rules = .done db') :
    ∃ db₁, Reset {id | ∃ cr ∈ rules, cr.headRelId = id} db db₁ ∧ db₁.Ok ∧
      db₁.contents = resetContents db rules ∧ (∀ cr ∈ rules, cr.headRelId < maxRels) ∧
      evalRules db₁ pend rules false = .done db' := by
  obtain ⟨db₀, hr, heval⟩ := vmExecute_started hne h
  obtain ⟨hreset, hok, hcont, hlt⟩ := resetHeads_ready hrows hperms hr
  exact ⟨db₀.permBuildDirty, hreset, hok, hcont, hlt, heval⟩

end DatalogDafsa
