import DatalogDafsa.Eval.Layers
import DatalogDafsa.Eval.Propagate
import DatalogDafsa.Lib.Rederive

/-!
# Deletions

`vm_dred_delete` brings the views up to date after deletions, mixed with insertions, for
rules without recursion.  First the rules are fired, stratum by stratum, with one atom
reading what was deleted or is already out and the others what is there: what comes out
is taken from the views, stored facts apart.  Heads with a negation, and all that reads
them, are reset instead.  Then the rules of every head that anything could have reached
are swept again.

Deleted facts are gone from the relations before this starts, so a derivation that read
two of them is found at neither of its atoms.

## Main definitions

* `vmDredEligible` — the rule sets the code accepts.
* `resetHeadsOf`, `goneFire`, `goneStrata`, `dropGone`, `affectedOf`, `rederive` — the
  steps.
* `vmDredDelete` — the whole pass.
-/

namespace DatalogDafsa

open Backtrack Operators Worklist

/-! ## The code -/

/-- **`vm_dred_eligible`**, over relations of fixed arity. -/
def vmDredEligible (rules : List CompiledRule) : Bool :=
  !hasListBuiltin rules && !hasRangeBuiltin rules &&
    rules.all fun cr => !cr.isRecursive && !cr.hasAggregate && cr.instrs.all fun i =>
      match i.op with
      | .walk | .lookupPerm | .hashJoin | .matBegin | .matJoin => false
      | _ => true

/-- The instructions that read a relation. -/
def readsRel : Op → Bool
  | .scan | .lookup | .negCheck | .walk | .lookupPerm | .hashJoin => true
  | _ => false

/-- `dredRuleReads`. -/
def dredRuleReads (cr : CompiledRule) (id : ℕ) : Bool :=
  cr.instrs.any fun i => readsRel i.op && i.a = id

/-- Something is recorded for a relation. -/
def recorded (ins del : Pending) (id : ℕ) : Bool :=
  !(ins id).rows.isEmpty || !(del id).rows.isEmpty

/-- A rule negates something. -/
def negates (cr : CompiledRule) : Bool := cr.instrs.any fun i => i.op = .negCheck

/-- The heads to reset from the start: those of rules that negate something. -/
def resetStart (rules : List CompiledRule) : List ℕ :=
  (((rules.filter negates).map CompiledRule.headRelId).filter (· < maxRels)).dedup

/-- Reset the head of a rule that reads a head to reset. -/
def resetStep (s : List ℕ × Bool) (cr : CompiledRule) : List ℕ × Bool :=
  if maxRels ≤ cr.headRelId ∨ cr.headRelId ∈ s.1 then s
  else if cr.instrs.any fun i => readsRel i.op && (i.a < maxRels && s.1.contains i.a) then
    (cr.headRelId :: s.1, true)
  else s

/-- One pass over the rules. -/
def resetPass (rules : List CompiledRule) (reset : List ℕ) : Final (List ℕ × Bool) Empty :=
  .done (rules.foldl resetStep (reset, false))

/-- The heads to reset; the first argument bounds the passes. -/
def resetHeadsOf (fuel : ℕ) (rules : List CompiledRule) (ins del : Pending) :
    Option (Final (List ℕ) Empty) :=
  if rules.any negates && (List.range maxRels).any (recorded ins del) then
    saturate (resetPass rules) fuel (resetStart rules)
  else some (.done [])

/-- The rows that are out from the start: the deleted ones. -/
def goneStart (db : Db) (del : Pending) : Pending := fun id =>
  match db.rels[id]? with
  | some e => ((TupleSet.init e.arity).addAll (del id).rows).sort
  | none => TupleSet.init 0

/-- Fire a rule with the atom of one instruction reading the rows that are out. -/
def goneFire (db : Db) (reset : List ℕ) (f : CompiledRule × VmInstr) (s : Pending × Bool) :
    Final (Pending × Bool) VmErr :=
  if f.2.op ≠ .scan ∧ f.2.op ≠ .lookup ∨ maxRels ≤ f.2.a ∨ (s.1 f.2.a).rows = [] ∨ f.2.a ∈ reset then
    .done s
  else
    match db.rels[f.1.headRelId]? with
    | none => .failed .internal s
    | some e =>
      match execRule db f.1 [⟨f.2.bodyIdx, s.1 f.2.a⟩] true with
      | .failed err _ => .failed err s
      | .done r =>
        let cand := (TupleSet.init e.arity).addAll r.out
        .done (Function.update s.1 f.1.headRelId ((s.1 f.1.headRelId).addAll cand.rows).sort,
          s.2 || cand.rows.any fun t => !(s.1 f.1.headRelId).contains t)

/-- The firings of a stratum: rules whose head is not reset, in order, and of each its
instructions in order. -/
def goneFirings (rules : List CompiledRule) (reset : List ℕ) (k : ℕ) :
    List (CompiledRule × VmInstr) :=
  (rules.filter fun cr => cr.stratum = k && !(maxRels ≤ cr.headRelId || reset.contains cr.headRelId)).flatMap
    fun cr => cr.instrs.map fun i => (cr, i)

/-- One pass over the rules of a stratum. -/
def gonePass (db : Db) (rules : List CompiledRule) (reset : List ℕ) (k : ℕ) (gone : Pending) :
    Final (Pending × Bool) VmErr := runAll (goneFire db reset) (goneFirings rules reset k) (gone, false)

/-- The strata in order, each until nothing more comes out. -/
def goneStrata (fuel : ℕ) (db : Db) (rules : List CompiledRule) (reset : List ℕ) :
    List ℕ → Pending → Option (Final Pending VmErr)
  | [], gone => some (.done gone)
  | k :: ks, gone =>
    match saturate (gonePass db rules reset k) fuel gone with
    | none => none
    | some (.failed err gone') => some (.failed err gone')
    | some (.done gone') => goneStrata fuel db rules reset ks gone'

/-- Take one row from the view, unless it is a stored fact. -/
def dropRow (s : Store × Bool) (t : Row) : Store × Bool :=
  if s.1.base.lookup t then s else (s.1.delete t, s.2 || s.1.view.lookup t)

/-- Take the rows that are out from the view of one relation. -/
def dropRel (reset : List ℕ) (gone : Pending) (db : Db) (id : ℕ) : Db :=
  match db.rels[id]? with
  | none => db
  | some e =>
    if (gone id).rows = [] ∨ id ∈ reset then db
    else
      let r := (gone id).rows.foldl dropRow (e.store, false)
      let db' := db.updStore id fun _ => r.1
      if r.2 then db'.permMarkDirty id else db'

/-- Reset the view of one head. -/
def resetRel (reset : List ℕ) (db : Db) (id : ℕ) : Db :=
  if id ∈ reset then (db.updStore id Store.resetView).permMarkDirty id else db

/-- The views without what is out, the indices up to date. -/
def dropGone (reset : List ℕ) (gone : Pending) (db : Db) : Db :=
  let ids := List.range db.rels.length
  (ids.foldl (resetRel reset) (ids.foldl (dropRel reset gone) db)).permBuildDirty

/-- The relations a change is known of. -/
def affectedStart (db : Db) (reset : List ℕ) (gone ins del : Pending) : List ℕ :=
  (List.range maxRels).filter fun id =>
    (id < db.rels.length && recorded ins del id) || reset.contains id || !(gone id).rows.isEmpty

/-- Mark the head of a rule that reads a relation; a newly marked one is queued. -/
def affectStep (r : ℕ) (s : List ℕ × List ℕ) (cr : CompiledRule) : List ℕ × List ℕ :=
  if maxRels ≤ cr.headRelId ∨ cr.headRelId ∈ s.1 then s
  else if dredRuleReads cr r then
    (s.1 ++ [cr.headRelId], if s.1.length < maxRels then s.2 ++ [cr.headRelId] else s.2)
  else s

/-- One item of the queue. -/
def affect (rules : List CompiledRule) (r : ℕ) (affected : List ℕ) :
    Final (List ℕ × List ℕ) Empty := .done (rules.foldl (affectStep r) (affected, []))

/-- The relations a change can reach; the first argument bounds the queue. -/
def affectedOf (fuel : ℕ) (rules : List CompiledRule) (start : List ℕ) :
    Option (Final (List ℕ) Empty) := drain (affect rules) fuel start start

/-- Sweep the rules of a stratum whose heads are affected. -/
def rederive (rules : List CompiledRule) (affected : List ℕ) (k : ℕ) (db : Db) : Final Db VmErr :=
  let srules := (rules.filter fun cr => cr.stratum = k &&
    !(cr.headRelId < maxRels && !affected.contains cr.headRelId)).take maxStratumRules
  if srules.isEmpty then .done db else evalNonrecursive db srules

/-- **`vm_dred_delete`**; the first argument bounds the passes and the queue. -/
def vmDredDelete (fuel : ℕ) (db : Db) (ins del : Pending) (rules : List CompiledRule) :
    Option (Final Db VmErr) :=
  let plain := rules.filter fun cr => !cr.hasAggregate
  match resetHeadsOf fuel plain ins del with
  | none => none
  | some (.failed err _) => err.elim
  | some (.done reset) =>
    match goneStrata fuel db plain reset (List.range (maxStratum plain + 1)) (goneStart db del) with
    | none => none
    | some (.failed err _) => some (.failed err db)
    | some (.done gone) =>
      let db₁ := dropGone reset gone db
      match affectedOf fuel plain (affectedStart db reset gone ins del) with
      | none => none
      | some (.failed err _) => err.elim
      | some (.done affected) =>
        some (runAll (rederive plain affected) (List.range (maxStratum plain + 1)) db₁)

/-! ## The heads to reset -/

section Reset

variable {rules : List CompiledRule} {ins del : Pending}

/-- A rule that does not ask for its head to be reset any more. -/
def ResetDone (reset : List ℕ) (cr : CompiledRule) : Prop :=
  cr.headRelId < maxRels → (∃ i ∈ cr.instrs, readsRel i.op = true ∧ i.a < maxRels ∧ i.a ∈ reset) →
    cr.headRelId ∈ reset

/-- One step adds the head of the rule, or the rule is done. -/
theorem resetStep_cases (s : List ℕ × Bool) (cr : CompiledRule) :
    (resetStep s cr = s ∧ ResetDone s.1 cr) ∨
      (cr.headRelId < maxRels ∧ cr.headRelId ∉ s.1 ∧ resetStep s cr = (cr.headRelId :: s.1, true)) := by
  unfold resetStep
  split
  · rename_i h
    refine .inl ⟨rfl, fun hlt _ => h.resolve_left (by omega)⟩
  · rename_i h
    rw [not_or, not_le] at h
    split
    · exact .inr ⟨h.1, h.2, rfl⟩
    · rename_i hany
      refine .inl ⟨rfl, fun _ ⟨i, hi, hop, hlt, hin⟩ => absurd ?_ hany⟩
      exact List.any_eq_true.mpr ⟨i, hi, by simp [hop, hlt, hin]⟩

/-- The heads to reset, while they are collected. -/
structure Resetting (rules : List CompiledRule) (reset : List ℕ) : Prop where
  /-- Each is listed once. -/
  nodup : reset.Nodup
  /-- They are heads. -/
  head : ∀ id ∈ reset, id < maxRels ∧ ∃ cr ∈ rules, cr.headRelId = id
  /-- The heads of rules that negate something are among them. -/
  start : ∀ id ∈ resetStart rules, id ∈ reset

theorem Resetting.init : Resetting rules (resetStart rules) := by
  refine ⟨List.nodup_dedup _, fun id hid => ?_, fun _ h => h⟩
  simp only [resetStart, List.mem_dedup, List.mem_filter, List.mem_map, decide_eq_true_eq] at hid
  obtain ⟨⟨cr, ⟨hcr, -⟩, rfl⟩, hlt⟩ := hid
  exact ⟨hlt, cr, hcr, rfl⟩

/-- There are no more heads to reset than rules. -/
theorem Resetting.length_le {reset : List ℕ} (h : Resetting rules reset) :
    reset.length ≤ rules.length := by
  have hsub : reset ⊆ rules.map CompiledRule.headRelId := fun id hid => by
    obtain ⟨-, cr, hcr, rfl⟩ := h.head id hid
    exact List.mem_map_of_mem hcr
  have hle := (List.subperm_of_subset h.nodup hsub).length_le
  rwa [List.length_map] at hle

/-- One pass: something is added, or every rule is done. -/
theorem resetSteps_spec {todo : List CompiledRule} (hsub : ∀ cr ∈ todo, cr ∈ rules)
    {s : List ℕ × Bool} (h : Resetting rules s.1) :
    Resetting rules (todo.foldl resetStep s).1 ∧
      s.1.length ≤ (todo.foldl resetStep s).1.length ∧
      ((todo.foldl resetStep s).2 = true → s.2 = false →
        s.1.length < (todo.foldl resetStep s).1.length) ∧
      ((todo.foldl resetStep s).2 = false →
        todo.foldl resetStep s = s ∧ ∀ cr ∈ todo, ResetDone s.1 cr) := by
  induction todo generalizing s with
  | nil =>
    refine ⟨h, le_rfl, fun ht hf => ?_, fun _ => ⟨rfl, fun cr hcr => absurd hcr List.not_mem_nil⟩⟩
    rw [List.foldl_nil, hf] at ht
    cases ht
  | cons cr todo ih =>
    have hrest : ∀ c ∈ todo, c ∈ rules := fun c hc => hsub c (List.mem_cons_of_mem _ hc)
    rw [List.foldl_cons]
    rcases resetStep_cases s cr with ⟨heq, hdone⟩ | ⟨hlt, hno, heq⟩
    · rw [heq]
      obtain ⟨hr, hle, hgrow, hstill⟩ := ih hrest h
      refine ⟨hr, hle, hgrow, fun hf => ⟨(hstill hf).1, fun c hc => ?_⟩⟩
      rcases List.mem_cons.mp hc with rfl | hc
      · exact hdone
      · exact (hstill hf).2 c hc
    · have hnext : Resetting rules (cr.headRelId :: s.1) := by
        refine ⟨List.nodup_cons.mpr ⟨hno, h.nodup⟩, fun id hid => ?_,
          fun id hid => List.mem_cons_of_mem _ (h.start id hid)⟩
        rcases List.mem_cons.mp hid with rfl | hid
        · exact ⟨hlt, cr, hsub cr (List.mem_cons_self ..), rfl⟩
        · exact h.head id hid
      rw [heq]
      obtain ⟨hr, hle, -, hstill⟩ := ih (s := (cr.headRelId :: s.1, true)) hrest hnext
      rw [List.length_cons] at hle
      refine ⟨hr, by omega, fun _ _ => by omega, fun hf => ?_⟩
      have heq' := (hstill hf).1
      rw [heq'] at hf
      cases hf

/-- What the reset heads are. -/
structure ResetOk (rules : List CompiledRule) (ins del : Pending) (reset : List ℕ) : Prop where
  /-- They are heads. -/
  head : ∀ id ∈ reset, id < maxRels ∧ ∃ cr ∈ rules, cr.headRelId = id
  /-- When something is recorded, heads with a negation are among them. -/
  negates : (∃ id < maxRels, recorded ins del id = true) → ∀ cr ∈ rules, negates cr = true →
    cr.headRelId < maxRels → cr.headRelId ∈ reset
  /-- They are closed under reading. -/
  closed : ∀ cr ∈ rules, ResetDone reset cr

theorem resetPass_keeps {s s' : List ℕ} {b : Bool} (hs : Resetting rules s)
    (hp : resetPass rules s = .done (s', b)) : Resetting rules s' ∧ (b = true → s.length < s'.length) ∧
      (b = false → s' = s ∧ ∀ cr ∈ rules, ResetDone s cr) := by
  have hp' : rules.foldl resetStep (s, false) = (s', b) := Final.done.inj hp
  obtain ⟨hs', -, hgrow, hstill⟩ := resetSteps_spec (fun _ h => h) (s := (s, false)) hs
  rw [hp'] at hs' hgrow hstill
  exact ⟨hs', fun hb => hgrow hb rfl, fun hb => ⟨congrArg Prod.fst (hstill hb).1, (hstill hb).2⟩⟩

/-- **The heads to reset are found.** -/
theorem resetHeadsOf_spec (rules : List CompiledRule) (ins del : Pending) :
    ∃ n reset, (∀ m, n ≤ m → resetHeadsOf m rules ins del = some (.done reset)) ∧
      ResetOk rules ins del reset := by
  by_cases hany : (rules.any negates && (List.range maxRels).any (recorded ins del)) = true
  · have hstep : ∀ k s s', (Resetting rules s ∧ k ≤ s.length) → resetPass rules s = .done (s', true) →
        k < rules.length ∧ Resetting rules s' ∧ k + 1 ≤ s'.length := by
      rintro k s s' ⟨hs, hk⟩ hp
      obtain ⟨hs', hgrow, -⟩ := resetPass_keeps hs hp
      have hlt := hgrow rfl
      have hle := hs'.length_le
      exact ⟨by omega, hs', by omega⟩
    obtain ⟨r, hr⟩ := saturate_settles hstep (rules.length + 1) 0 (Nat.zero_le _) (by omega)
      (resetStart rules) ⟨Resetting.init, Nat.zero_le _⟩
    have hrun : ∀ m, rules.length + 1 ≤ m → resetHeadsOf m rules ins del = some r := by
      intro m hm
      unfold resetHeadsOf
      rw [if_pos hany]
      exact hr m hm
    cases r with
    | failed err reset => exact err.elim
    | done reset =>
      obtain ⟨hres, s₀, hres₀, hlast⟩ := saturate_inv (I := Resetting rules)
        (fun s s' b hs hp => (resetPass_keeps hs hp).1) _ _ Resetting.init (hr _ le_rfl)
      obtain ⟨-, -, hstill⟩ := resetPass_keeps hres₀ hlast
      obtain ⟨rfl, hdone⟩ := hstill rfl
      refine ⟨_, reset, hrun, hres.head, fun _ cr hcr hneg hlt => hres.start _ ?_, hdone⟩
      simp only [resetStart, List.mem_dedup, List.mem_filter, List.mem_map, decide_eq_true_eq]
      exact ⟨⟨cr, ⟨hcr, hneg⟩, rfl⟩, hlt⟩
  · refine ⟨0, [], fun m _ => ?_, fun id hid => absurd hid List.not_mem_nil, ?_, ?_⟩
    · unfold resetHeadsOf
      rw [if_neg hany]
    · rintro ⟨id, hid, hrec⟩ cr hcr hneg
      refine absurd ?_ hany
      rw [Bool.and_eq_true]
      exact ⟨List.any_eq_true.mpr ⟨cr, hcr, hneg⟩,
        List.any_eq_true.mpr ⟨id, List.mem_range.mpr hid, hrec⟩⟩
    · rintro cr - - ⟨i, -, -, -, hin⟩
      exact absurd hin List.not_mem_nil

end Reset

/-! ## What a change can reach -/

section Affected

variable {rules : List CompiledRule}

/-- A rule whose head is marked if it reads a relation. -/
def Marked (affected : List ℕ) (r : ℕ) (cr : CompiledRule) : Prop :=
  cr.headRelId < maxRels → dredRuleReads cr r = true → cr.headRelId ∈ affected

/-- The marks, while the queue is worked off. -/
structure Marking (rules : List CompiledRule) (start queue affected : List ℕ) : Prop where
  /-- Each relation is marked once. -/
  nodup : affected.Nodup
  /-- Relations are marked. -/
  lt : ∀ id ∈ affected, id < maxRels
  /-- What was marked from the start stays marked. -/
  start : ∀ id ∈ start, id ∈ affected
  /-- What is marked and not queued has been worked off. -/
  closed : ∀ r ∈ affected, r ∈ queue ∨ ∀ cr ∈ rules, Marked affected r cr

/-- There are no more marks than relations. -/
theorem length_le_maxRels {ids : List ℕ} (hnodup : ids.Nodup) (hlt : ∀ id ∈ ids, id < maxRels) :
    ids.length ≤ maxRels := by
  have hle := (List.subperm_of_subset hnodup fun id hid => List.mem_range.mpr (hlt id hid)).length_le
  rwa [List.length_range] at hle

/-- One item: what is newly marked is queued, and the rules that read the item are done. -/
theorem affectSteps_spec (r : ℕ) (todo : List CompiledRule) {s : List ℕ × List ℕ}
    (hnodup : s.1.Nodup) (hlt : ∀ id ∈ s.1, id < maxRels) :
    ∃ new, todo.foldl (affectStep r) s = (s.1 ++ new, s.2 ++ new) ∧ (s.1 ++ new).Nodup ∧
      (∀ id ∈ s.1 ++ new, id < maxRels) ∧ (∀ id ∈ new, ∃ cr ∈ todo, cr.headRelId = id) ∧
      ∀ cr ∈ todo, Marked (s.1 ++ new) r cr := by
  induction todo generalizing s with
  | nil =>
    refine ⟨[], by simp, by simpa using hnodup, by simpa using hlt, fun id hid => ?_, fun cr hcr => ?_⟩
    · exact absurd hid List.not_mem_nil
    · exact absurd hcr List.not_mem_nil
  | cons cr todo ih =>
    by_cases hmark : cr.headRelId < maxRels ∧ cr.headRelId ∉ s.1 ∧ dredRuleReads cr r = true
    · obtain ⟨hid, hno, hreads⟩ := hmark
      have hnodup' : (s.1 ++ [cr.headRelId]).Nodup := by
        rw [List.nodup_append]
        refine ⟨hnodup, List.nodup_singleton _, fun x hx y hy heq => hno ?_⟩
        rwa [← List.mem_singleton.mp hy, ← heq]
      have hlt' : ∀ id ∈ s.1 ++ [cr.headRelId], id < maxRels := by
        intro id hin
        rcases List.mem_append.mp hin with hin | hin
        · exact hlt id hin
        · rw [List.mem_singleton.mp hin]
          exact hid
      have hroom : s.1.length < maxRels := by
        have hle := length_le_maxRels hnodup' hlt'
        rw [List.length_append, List.length_singleton] at hle
        omega
      have hstep : affectStep r s cr = (s.1 ++ [cr.headRelId], s.2 ++ [cr.headRelId]) := by
        unfold affectStep
        rw [if_neg (by rw [not_or, not_le]; exact ⟨hid, hno⟩), if_pos hreads, if_pos hroom]
      obtain ⟨new, heq, hnd, hltn, hheads, hall⟩ := ih (s := (s.1 ++ [cr.headRelId], s.2 ++ [cr.headRelId]))
        hnodup' hlt'
      rw [List.append_assoc] at hnd hltn
      refine ⟨[cr.headRelId] ++ new, ?_, hnd, hltn, fun id hin => ?_, fun c hc => ?_⟩
      · rw [List.foldl_cons, hstep, heq, List.append_assoc, List.append_assoc]
      · rcases List.mem_append.mp hin with hin | hin
        · exact ⟨cr, List.mem_cons_self .., (List.mem_singleton.mp hin).symm⟩
        · obtain ⟨c, hc, hcid⟩ := hheads id hin
          exact ⟨c, List.mem_cons_of_mem _ hc, hcid⟩
      · rcases List.mem_cons.mp hc with rfl | hc
        · exact fun _ _ => by simp
        · rw [← List.append_assoc]
          exact hall c hc
    · have hstep : affectStep r s cr = s := by
        unfold affectStep
        by_cases hskip : maxRels ≤ cr.headRelId ∨ cr.headRelId ∈ s.1
        · rw [if_pos hskip]
        · rw [not_or, not_le] at hskip
          rw [if_neg (by rw [not_or, not_le]; exact hskip), if_neg fun hr => hmark ⟨hskip.1, hskip.2, hr⟩]
      obtain ⟨new, heq, hnd, hltn, hheads, hall⟩ := ih hnodup hlt
      refine ⟨new, by rw [List.foldl_cons, hstep, heq], hnd, hltn, fun id hin => ?_, fun c hc => ?_⟩
      · obtain ⟨c, hc, hcid⟩ := hheads id hin
        exact ⟨c, List.mem_cons_of_mem _ hc, hcid⟩
      · rcases List.mem_cons.mp hc with rfl | hc
        · intro hid hreads
          by_contra hno
          exact hmark ⟨hid, fun hin => hno (List.mem_append_left _ hin), hreads⟩
        · exact hall c hc

/-- One item of the queue keeps the marks, and makes queue and unmarked heads fewer. -/
theorem affect_marking {start queue affected : List ℕ} {r : ℕ} {s : List ℕ × List ℕ}
    (h : Marking rules start (r :: queue) affected) (hrun : affect rules r affected = .done s) :
    Marking rules start (queue ++ s.2) s.1 ∧ s.1.length = affected.length + s.2.length := by
  obtain ⟨new, heq, hnd, hlt, -, hall⟩ := affectSteps_spec r rules (s := (affected, [])) h.nodup
    h.lt
  have hs : rules.foldl (affectStep r) (affected, []) = s := Final.done.inj hrun
  rw [hs, List.nil_append] at heq
  subst heq
  refine ⟨⟨hnd, hlt, fun id hid => List.mem_append_left _ (h.start id hid), fun x hx => ?_⟩,
    List.length_append⟩
  rcases List.mem_append.mp hx with hx | hx
  · rcases h.closed x hx with hq | hdone
    · rcases List.mem_cons.mp hq with rfl | hq
      · exact .inr hall
      · exact .inl (List.mem_append_left _ hq)
    · exact .inr fun cr hcr hid hreads => List.mem_append_left _ (hdone cr hcr hid hreads)
  · exact .inl (List.mem_append_right _ hx)

/-- What the affected relations are. -/
structure AffectedOk (rules : List CompiledRule) (start affected : List ℕ) : Prop where
  /-- They hold what was known from the start. -/
  start : ∀ id ∈ start, id ∈ affected
  /-- They are closed under reading. -/
  closed : ∀ r ∈ affected, ∀ cr ∈ rules, Marked affected r cr

/-- **What a change can reach is found.** -/
theorem affectedOf_spec (rules : List CompiledRule) {start : List ℕ} (hnodup : start.Nodup)
    (hlt : ∀ id ∈ start, id < maxRels) :
    ∃ n affected, (∀ m, n ≤ m → affectedOf m rules start = some (.done affected)) ∧
      AffectedOk rules start affected := by
  have hinit : Marking rules start start start :=
    ⟨hnodup, hlt, fun _ h => h, fun r hr => .inl hr⟩
  obtain ⟨r, hr⟩ := drain_settles_of (fun queue affected => queue.length + (maxRels - affected.length))
    (I := Marking rules start) (fun w q s r hI (hrun : affect rules w s = .done r) => by
      obtain ⟨hm, hlen⟩ := affect_marking hI hrun
      refine ⟨hm, ?_⟩
      have hle := length_le_maxRels hm.nodup hm.lt
      simp only [List.length_append, List.length_cons]
      omega) _ start start hinit (Nat.lt_succ_self _)
  cases r with
  | failed err s => exact err.elim
  | done affected =>
    refine ⟨_, affected, hr, ?_⟩
    have hend := drain_inv (I := Marking rules start)
      (fun w q s r hI hrun => (affect_marking hI hrun).1) _ _ _ hinit (hr _ le_rfl)
    exact ⟨hend.start, fun r hr => (hend.closed r hr).resolve_left List.not_mem_nil⟩

end Affected

/-! ## Taking the rows out -/

section Drop

variable {reset : List ℕ} {gone : Pending}

theorem delete_of_notMem {d : Dafsa} {t : Row} (h : t ∉ d) : d.delete t = d := by
  refine Dafsa.ext_mem fun x => ?_
  rw [Dafsa.mem_delete]
  exact ⟨fun hx => hx.1, fun hx => ⟨hx, fun heq => h (heq ▸ hx)⟩⟩

/-- One row: stored facts stay, and so does the base. -/
theorem dropRow_spec (s : Store × Bool) (t : Row) :
    (dropRow s t).1.base = s.1.base ∧ (dropRow s t).1.isIdb = s.1.isIdb ∧
      (∀ x, x ∈ (dropRow s t).1.view ↔ x ∈ s.1.view ∧ (x ≠ t ∨ x ∈ s.1.base)) ∧
      ((dropRow s t).2 = false → s.2 = false ∧ (dropRow s t).1.view = s.1.view) := by
  obtain ⟨st, dirtied⟩ := s
  unfold dropRow
  by_cases hbase : t ∈ st.base
  · rw [if_pos (Dafsa.lookup_iff.mpr hbase)]
    refine ⟨rfl, rfl, fun x => ⟨fun hx => ⟨hx, ?_⟩, fun hx => hx.1⟩, fun h => ⟨h, rfl⟩⟩
    by_cases heq : x = t
    · exact .inr (heq ▸ hbase)
    · exact .inl heq
  · have hno : ¬ st.base.lookup t = true := fun h => hbase (Dafsa.lookup_iff.mp h)
    rw [if_neg hno]
    refine ⟨?_, ?_, fun x => ?_, fun h => ?_⟩
    · cases st with
      | aliased d => exact delete_of_notMem hbase
      | split b d => rfl
    · cases st <;> rfl
    · have hview : x ∈ (st.delete t).view ↔ x ∈ st.view ∧ x ≠ t := by
        cases st <;> exact Dafsa.mem_delete
      rw [hview]
      refine and_congr_right fun _ => ⟨.inl, fun h => ?_⟩
      rintro rfl
      exact h.elim (fun h => h rfl) hbase
    · rw [Bool.or_eq_false_iff] at h
      refine ⟨h.1, ?_⟩
      have hgone : t ∉ st.view := fun hin => by
        rw [Dafsa.lookup_iff.mpr hin] at h
        cases h.2
      cases st <;> exact delete_of_notMem hgone

/-- The rows one after the other. -/
theorem dropRows_spec (rows : List Row) (s : Store × Bool) :
    (rows.foldl dropRow s).1.base = s.1.base ∧ (rows.foldl dropRow s).1.isIdb = s.1.isIdb ∧
      (∀ x, x ∈ (rows.foldl dropRow s).1.view ↔ x ∈ s.1.view ∧ (x ∉ rows ∨ x ∈ s.1.base)) ∧
      ((rows.foldl dropRow s).2 = false → s.2 = false ∧ (rows.foldl dropRow s).1.view = s.1.view) := by
  induction rows generalizing s with
  | nil => exact ⟨rfl, rfl, fun x => by simp, fun h => ⟨h, rfl⟩⟩
  | cons t rows ih =>
    obtain ⟨hb, hi, hv, hd⟩ := dropRow_spec s t
    obtain ⟨hb', hi', hv', hd'⟩ := ih (dropRow s t)
    rw [List.foldl_cons]
    refine ⟨hb'.trans hb, hi'.trans hi, fun x => ?_, fun h => ?_⟩
    · rw [hv', hv, hb, List.mem_cons, not_or]
      tauto
    · obtain ⟨h₁, h₂⟩ := hd' h
      exact ⟨(hd h₁).1, h₂.trans (hd h₁).2⟩

/-- What taking rows out of some relations does. -/
structure Dropped (ids : Set ℕ) (gone : Pending) (db db' : Db) : Prop where
  /-- The schema stays. -/
  schema : db'.schema = db.schema
  /-- Stored facts stay. -/
  base : ∀ id, db'.base id = db.base id
  /-- Split relations stay split. -/
  split : ∀ id, db.Split id → db'.Split id
  /-- Others stay as they are. -/
  aliased : ∀ id, db.Aliased id → db'.Aliased id
  /-- Other relations stay as they are. -/
  other : ∀ id ∉ ids, db'.rels[id]? = db.rels[id]?
  /-- What is out leaves the view, stored facts apart. -/
  view : ∀ id ∈ ids, ∀ x, x ∈ db'.view id ↔ x ∈ db.view id ∧ (x ∉ (gone id).rows ∨ x ∈ db.base id)
  /-- Indices that are not marked dirty are up to date. -/
  perms : db.PermsOk → db'.PermsOk

theorem Dropped.refl (db : Db) : Dropped ∅ gone db db :=
  ⟨rfl, fun _ => rfl, fun _ h => h, fun _ h => h, fun _ _ => rfl,
    fun _ h => absurd h (Set.notMem_empty _), id⟩

theorem Dropped.trans {ids ids' : Set ℕ} {db db' db'' : Db} (h : Dropped ids gone db db')
    (h' : Dropped ids' gone db' db'') (hdisj : ∀ id ∈ ids, id ∉ ids') :
    Dropped (ids ∪ ids') gone db db'' where
  schema := h'.schema.trans h.schema
  base id := (h'.base id).trans (h.base id)
  split id hid := h'.split id (h.split id hid)
  aliased id hid := h'.aliased id (h.aliased id hid)
  other id hid := by
    rw [Set.mem_union, not_or] at hid
    exact (h'.other id hid.2).trans (h.other id hid.1)
  view id hid x := by
    rcases hid with hid | hid
    · have hsame : db''.view id = db'.view id := by
        unfold Db.view
        rw [h'.other id (hdisj id hid)]
      rw [hsame]
      exact h.view id hid x
    · have hsame : db'.view id = db.view id := by
        unfold Db.view
        rw [h.other id fun hin => hdisj id hin hid]
      rw [h'.view id hid x, h.base, hsame]
  perms hp := h'.perms (h.perms hp)

/-- **One relation.** -/
theorem dropRel_spec (db : Db) {id : ℕ} (hid : id ∉ reset) :
    Dropped {id} gone db (dropRel reset gone db id) := by
  unfold dropRel
  cases he : db.rels[id]? with
  | none =>
    refine ⟨rfl, fun _ => rfl, fun _ h => h, fun _ h => h, fun _ _ => rfl, fun n hn x => ?_,
      fun h => h⟩
    obtain rfl : n = id := hn
    have hno : x ∉ db.view n := by
      unfold Db.view
      rw [he]
      exact Dafsa.not_mem_create x
    exact ⟨fun hx => absurd hx hno, fun hx => hx.1⟩
  | some e =>
    dsimp only
    by_cases hempty : (gone id).rows = []
    · rw [if_pos (.inl hempty)]
      refine ⟨rfl, fun _ => rfl, fun _ h => h, fun _ h => h, fun _ _ => rfl, fun n hn x => ?_,
        fun h => h⟩
      obtain rfl : n = id := hn
      simp [hempty]
    · rw [if_neg (by rw [not_or]; exact ⟨hempty, hid⟩)]
      obtain ⟨hb, hi, hv, hd⟩ := dropRows_spec (gone id).rows (e.store, false)
      set r := (gone id).rows.foldl dropRow (e.store, false)
      set db₁ := db.updStore id fun _ => r.1 with hdb₁
      have hschema : db₁.schema = db.schema := db.schema_updStore id _
      have hrel : db₁.rels[id]? = some { e with store := r.1 } := by
        simp [hdb₁, Db.updStore, he]
      have hother : ∀ n, n ≠ id → db₁.rels[n]? = db.rels[n]? := by
        intro n hn
        simp only [hdb₁, Db.updStore, List.getElem?_modify, if_neg (Ne.symm hn)]
        cases db.rels[n]? <;> rfl
      have hview₁ : db₁.view id = r.1.view := by
        unfold Db.view
        rw [hrel]
      have hview₀ : db.view id = e.store.view := by
        unfold Db.view
        rw [he]
      have hbase₀ : db.base id = e.store.base := by
        unfold Db.base
        rw [he]
      have hbase : ∀ n, db₁.base n = db.base n := by
        intro n
        by_cases hn : n = id
        · subst hn
          rw [hbase₀, ← hb]
          unfold Db.base
          rw [hrel]
        · unfold Db.base
          rw [hother n hn]
      have hsplit : ∀ n, db.Split n → db₁.Split n := by
        intro n hn e' he'
        by_cases hne : n = id
        · subst hne
          rw [hrel] at he'
          cases he'
          exact hi.trans (hn e he)
        · rw [hother n hne] at he'
          exact hn e' he'
      have haliased : ∀ n, db.Aliased n → db₁.Aliased n := by
        intro n hn e' he'
        by_cases hne : n = id
        · subst hne
          rw [hrel] at he'
          cases he'
          exact hi.trans (hn e he)
        · rw [hother n hne] at he'
          exact hn e' he'
      have hviews : ∀ n ∈ ({id} : Set ℕ), ∀ x, x ∈ db₁.view n ↔
          x ∈ db.view n ∧ (x ∉ (gone n).rows ∨ x ∈ db.base n) := by
        intro n hn x
        obtain rfl : n = id := hn
        rw [hview₁, hview₀, hbase₀]
        exact hv x
      have hoff : ∀ n, n ≠ id → db₁.view n = db.view n := by
        intro n hn
        unfold Db.view
        rw [hother n hn]
      by_cases hdirty : r.2 = true
      · rw [if_pos hdirty]
        exact ⟨by simpa using hschema, hbase, hsplit, haliased, fun n hn => hother n hn, hviews,
          Db.permsOk_markDirty hschema rfl hoff⟩
      · rw [if_neg hdirty]
        have hsame := (hd (by simpa using hdirty)).2
        refine ⟨hschema, hbase, hsplit, haliased, fun n hn => hother n hn, hviews,
          fun hp pe hpe hclean => ?_⟩
        refine Db.fresh_congr hschema ?_ (hp pe hpe hclean)
        by_cases hn : pe.relId = id
        · rw [hn, hview₁, hview₀, hsame]
        · exact hoff _ hn

/-- The relations one after the other. -/
theorem dropRels_spec (reset : List ℕ) (gone : Pending) (ids : List ℕ) (hnodup : ids.Nodup) (db : Db) :
    Dropped {id | id ∈ ids ∧ id ∉ reset} gone db (ids.foldl (dropRel reset gone) db) := by
  induction ids generalizing db with
  | nil =>
    have hempty : {id | id ∈ ([] : List ℕ) ∧ id ∉ reset} = ∅ :=
      Set.eq_empty_of_forall_notMem fun id h => absurd h.1 List.not_mem_nil
    rw [hempty]
    exact Dropped.refl db
  | cons id ids ih =>
    obtain ⟨hno, hnodup'⟩ := List.nodup_cons.mp hnodup
    have hrest := ih hnodup' (dropRel reset gone db id)
    rw [List.foldl_cons]
    by_cases hid : id ∈ reset
    · have hskip : dropRel reset gone db id = db := by
        unfold dropRel
        cases db.rels[id]? with
        | none => rfl
        | some e => exact if_pos (.inr hid)
      have heq : {n | n ∈ id :: ids ∧ n ∉ reset} = {n | n ∈ ids ∧ n ∉ reset} := by
        ext n
        refine and_congr_left fun hn => ⟨fun h => ?_, fun h => List.mem_cons_of_mem _ h⟩
        rcases List.mem_cons.mp h with rfl | h
        · exact absurd hid hn
        · exact h
      rw [heq]
      rw [hskip] at hrest ⊢
      exact hrest
    · have heq : {n | n ∈ id :: ids ∧ n ∉ reset} = {id} ∪ {n | n ∈ ids ∧ n ∉ reset} := by
        ext n
        constructor
        · rintro ⟨h, hn⟩
          rcases List.mem_cons.mp h with rfl | h
          · exact .inl rfl
          · exact .inr ⟨h, hn⟩
        · rintro (rfl | ⟨h, hn⟩)
          · exact ⟨List.mem_cons_self .., hid⟩
          · exact ⟨List.mem_cons_of_mem _ h, hn⟩
      rw [heq]
      refine (dropRel_spec db hid).trans hrest fun n hn hin => ?_
      obtain rfl : n = id := hn
      exact hno hin.1

/-- The heads to reset, one after the other. -/
theorem resetRels_spec (reset : List ℕ) (ids : List ℕ) (db : Db) :
    Reset {id | id ∈ ids ∧ id ∈ reset} db (ids.foldl (resetRel reset) db) := by
  induction ids generalizing db with
  | nil =>
    have hempty : {id | id ∈ ([] : List ℕ) ∧ id ∈ reset} = ∅ :=
      Set.eq_empty_of_forall_notMem fun id h => absurd h.1 List.not_mem_nil
    rw [hempty]
    exact Reset.refl db
  | cons id ids ih =>
    rw [List.foldl_cons]
    have hrest := ih (resetRel reset db id)
    by_cases hid : id ∈ reset
    · have hone : Reset {id} db (resetRel reset db id) := by
        unfold resetRel
        rw [if_pos hid]
        exact Reset.one db id
      have heq : {n | n ∈ id :: ids ∧ n ∈ reset} = {id} ∪ {n | n ∈ ids ∧ n ∈ reset} := by
        ext n
        constructor
        · rintro ⟨h, hn⟩
          rcases List.mem_cons.mp h with rfl | h
          · exact .inl rfl
          · exact .inr ⟨h, hn⟩
        · rintro (rfl | ⟨h, hn⟩)
          · exact ⟨List.mem_cons_self .., hid⟩
          · exact ⟨List.mem_cons_of_mem _ h, hn⟩
      rw [heq]
      exact hone.trans hrest
    · have hskip : resetRel reset db id = db := if_neg hid
      have heq : {n | n ∈ id :: ids ∧ n ∈ reset} = {n | n ∈ ids ∧ n ∈ reset} := by
        ext n
        refine and_congr_left fun hn => ⟨fun h => ?_, fun h => List.mem_cons_of_mem _ h⟩
        rcases List.mem_cons.mp h with rfl | h
        · exact absurd hn hid
        · exact h
      rw [heq]
      rw [hskip] at hrest ⊢
      exact hrest

/-- What is left when the rows are out and the heads reset. -/
structure Left (reset : List ℕ) (gone : Pending) (db db' : Db) : Prop where
  /-- The schema stays. -/
  schema : db'.schema = db.schema
  /-- Stored facts stay. -/
  base : ∀ id, db'.base id = db.base id
  /-- Split relations stay split. -/
  split : ∀ id, db.Split id → db'.Split id
  /-- Others stay as they are, but for the reset heads. -/
  aliased : ∀ id ∉ reset, db.Aliased id → db'.Aliased id
  /-- The database is ready. -/
  ok : db'.Ok
  /-- Reset heads hold their stored facts. -/
  heads : ∀ id ∈ reset, db'.view id = db.base id
  /-- Elsewhere what is out is gone, stored facts apart. -/
  view : ∀ id ∉ reset, ∀ x, x ∈ db'.view id ↔
    x ∈ db.view id ∧ (x ∉ (gone id).rows ∨ x ∈ db.base id)

/-- **Taking out what is out.** -/
theorem dropGone_spec {db : Db} (hrows : db.RowsOk) (hperms : db.PermsOk) :
    Left reset gone db (dropGone reset gone db) := by
  set ids := List.range db.rels.length with hids
  have hdrop := dropRels_spec reset gone ids List.nodup_range db
  set db₁ := ids.foldl (dropRel reset gone) db
  have hreset := resetRels_spec reset ids db₁
  set db₂ := ids.foldl (resetRel reset) db₁
  obtain ⟨hbuilt, hclean⟩ := Db.permBuildDirty_ok (hreset.perms (hdrop.perms hperms))
  -- undeclared relations hold nothing
  have hnone : ∀ id ∉ ids, ∀ db' : Db, db'.schema = db.schema →
      db'.view id = Dafsa.create ∧ db'.base id = Dafsa.create := by
    intro id hid db' hs
    have har : db'.schema.arities[id]? = none := by
      rw [hs, Db.arities_getElem?, List.getElem?_eq_none, Option.map_none]
      rw [hids, List.mem_range] at hid
      omega
    rw [Db.arities_getElem?, Option.map_eq_none_iff] at har
    unfold Db.view Db.base
    rw [har]
    exact ⟨rfl, rfl⟩
  have hschema : db₂.schema = db.schema := hreset.schema.trans hdrop.schema
  have hbase : ∀ id, db₂.base id = db.base id := fun id => (hreset.base id).trans (hdrop.base id)
  have hheads : ∀ id ∈ reset, db₂.view id = db.base id := by
    intro id hid
    by_cases hin : id ∈ ids
    · rw [hreset.head id ⟨hin, hid⟩, hdrop.base]
    · rw [(hnone id hin db₂ hschema).1, (hnone id hin db rfl).2]
  have hview : ∀ id ∉ reset, ∀ x, x ∈ db₂.view id ↔
      x ∈ db.view id ∧ (x ∉ (gone id).rows ∨ x ∈ db.base id) := by
    intro id hid x
    rw [hreset.view_eq fun h => hid h.2]
    by_cases hin : id ∈ ids
    · exact hdrop.view id ⟨hin, hid⟩ x
    · rw [(hnone id hin db₁ hdrop.schema).1, (hnone id hin db rfl).1]
      exact ⟨fun h => absurd h (Dafsa.not_mem_create x), fun h => h.1⟩
  have hbuild : (dropGone reset gone db).schema = db.schema :=
    (Db.schema_permBuildDirty db₂).trans hschema
  refine ⟨hbuild, hbase, fun id hid => ?_, fun id hid hal e he => ?_,
    ⟨fun id ar har => ?_, hbuilt, hclean⟩, hheads, hview⟩
  · have hsplit : db₂.Split id := by
      by_cases hin : id ∈ ids ∧ id ∈ reset
      · exact hreset.split id hin
      · intro e he
        rw [hreset.other id hin] at he
        exact hdrop.split id hid e he
    exact hsplit
  · have he' : db₂.rels[id]? = some e := he
    rw [hreset.other id fun h => hid h.2] at he'
    exact hdrop.aliased id hal e he'
  · rw [hbuild] at har
    obtain ⟨hv, hb⟩ := hrows id ar har
    refine ⟨fun x hx => ?_, fun x hx => hb x (hbase id ▸ hx)⟩
    have hx' : x ∈ db₂.view id := hx
    by_cases hid : id ∈ reset
    · rw [hheads id hid] at hx'
      exact hb x hx'
    · exact hv x ((hview id hid x).mp hx').1

end Drop

end DatalogDafsa
