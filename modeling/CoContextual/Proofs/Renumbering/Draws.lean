import CoContextual.Discharge
import CoContextual.Proofs.Expression.Rules

/-!
# What a computation draws

All that a rule learns from the source of identities is the identities that it draws: with any other
source that hands out the same ones it gives the same result. Where a range ends and where the next
block lies does not matter as long as the range lasts.

- `Local`: a computation that depends on its source through what it draws alone. It is a class, so
  that a computation made of local ones is seen to be local;
- an instance for each rule, for discharging requirements and for each operation of the typer.
-/

namespace CoContextual

/-- A state of a computation that draws identities and may keep a trace. -/
class Drawing (σ : Type) where
  /-- Where identities come from. -/
  source : σ → IdSource
  /-- Whether a trace is kept. -/
  traced : σ → Bool

instance : Drawing IdSource := ⟨id, fun _ => false⟩

instance : Drawing Typer := ⟨Typer.ids, Typer.tracing⟩

section

variable {σ α β : Type} [Drawing σ]

/-- The second state is the first one after `j` draws. -/
def After (j : ℕ) (s t : σ) : Prop :=
  Drawing.source t = (Drawing.source s).advance j ∧ Drawing.traced t = Drawing.traced s

/-- The next `j` draws give the same from both states. -/
def DrawAlike (j : ℕ) (s s' : σ) : Prop :=
  (Drawing.source s').taken j = (Drawing.source s).taken j ∧ Drawing.traced s' = Drawing.traced s

/-- A computation that depends on the source through the identities it draws alone. -/
class Local (f : StateT σ (Except Fault) α) : Prop where
  /-- It gives the same from every state from which the same identities are drawn. -/
  run {s : σ} {a : α} {t : σ} (h : f s = .ok (a, t)) :
    ∃ j, After j s t ∧ ∀ s', DrawAlike j s s' → ∃ t', f s' = .ok (a, t') ∧ After j s' t'

namespace Local

theorem of_unchanged {f : StateT σ (Except Fault) α}
    (h : ∀ {s a t}, f s = .ok (a, t) → After 0 s t ∧
      ∀ s', Drawing.traced s' = Drawing.traced s → ∃ t', f s' = .ok (a, t') ∧ After 0 s' t') :
    Local f where
  run hrun := ⟨0, (h hrun).1, fun s' hs' => (h hrun).2 s' hs'.2⟩

instance pure (a : α) : Local (Pure.pure a : StateT σ (Except Fault) α) := by
  refine of_unchanged fun h => ?_
  cases h
  exact ⟨⟨rfl, rfl⟩, fun s' _ => ⟨s', rfl, rfl, rfl⟩⟩

instance bind {f : StateT σ (Except Fault) α} {g : α → StateT σ (Except Fault) β} [hf : Local f]
    [hg : ∀ a, Local (g a)] : Local (f >>= g) where
  run {s b u} h := by
    obtain ⟨a, t, hfirst, hsecond⟩ := bind_eq_ok.1 h
    obtain ⟨i, ⟨hsource, htraced⟩, hf⟩ := hf.run hfirst
    obtain ⟨j, ⟨hsource', htraced'⟩, hg⟩ := (hg a).run hsecond
    refine ⟨i + j, ⟨?_, htraced'.trans htraced⟩, fun s' ⟨hdraws, hs'⟩ => ?_⟩
    · rw [hsource', hsource, IdSource.advance_add]
    -- the second half draws from where the first one leaves off
    rw [IdSource.taken_add, IdSource.taken_add] at hdraws
    obtain ⟨hdraws, hdraws'⟩ := List.append_inj hdraws (by rw [IdSource.length_taken,
      IdSource.length_taken])
    obtain ⟨t', hfirst', ⟨hsource₁, htraced₁⟩⟩ := hf s' ⟨hdraws, hs'⟩
    rw [← hsource, ← hsource₁] at hdraws'
    obtain ⟨u', hsecond', ⟨hsource₂, htraced₂⟩⟩ :=
      hg t' ⟨hdraws', by rw [htraced₁, hs', htraced]⟩
    refine ⟨u', bind_eq_ok.2 ⟨a, t', hfirst', hsecond'⟩, ?_, htraced₂.trans htraced₁⟩
    rw [hsource₂, hsource₁, IdSource.advance_add]

instance map {f : StateT σ (Except Fault) α} (c : α → β) [Local f] : Local (c <$> f) :=
  inferInstanceAs (Local (f >>= fun a => Pure.pure (c a)))

instance unlessSome (fault : Fault) (a : Option α) : Local (Inference.unlessSome fault a) := by
  refine of_unchanged fun h => ?_
  obtain ⟨rfl, rfl⟩ := Inference.unlessSome_eq_ok h
  exact ⟨⟨rfl, rfl⟩, fun s' _ => ⟨s', rfl, rfl, rfl⟩⟩

end Local

end

/-! ## Types with fresh identities -/

/-- A computation that draws identities is local as a rule. -/
abbrev Fresh.Local {α : Type} (f : Fresh α) : Prop := CoContextual.Local (liftM f : Inference α)

namespace Fresh.Local

variable {α β : Type}

instance freshId : Fresh.Local freshId where
  run h := by
    cases h
    refine ⟨1, ⟨rfl, rfl⟩, fun s' hs' => ⟨_, congrArg Except.ok (Prod.ext ?_ rfl), rfl, rfl⟩⟩
    exact List.head_eq_of_cons_eq hs'.1

instance pure (a : α) : Fresh.Local (Pure.pure a) := CoContextual.Local.pure a

instance bind {f : Fresh α} {g : α → Fresh β} [Fresh.Local f] [∀ a, Fresh.Local (g a)] :
    Fresh.Local (f >>= g) :=
  inferInstanceAs (CoContextual.Local ((liftM f : Inference α) >>= fun a => liftM (g a)))

end Fresh.Local

namespace Ty

instance : Fresh.Local fresh := by unfold fresh; infer_instance

instance : Fresh.Local freshRigid := by unfold freshRigid; infer_instance

instance (kind : Primitive) : Fresh.Local (newPrimitive kind) := by
  unfold newPrimitive; infer_instance

instance (d c : Ty) : Fresh.Local (newArrow d c) := by unfold newArrow; infer_instance

instance (ts : List Ty) : Fresh.Local (newProduct ts) := by unfold newProduct; infer_instance

instance (bound : List TyVar) (body : Ty) : Fresh.Local (quantify bound body) := by
  unfold quantify
  split <;> infer_instance

instance (t : Ty) (fixed : List NodeId) : Fresh.Local (t.generalize fixed) := by
  unfold generalize; infer_instance

instance (t : Ty) : Fresh.Local t.quantifyRigid := by unfold quantifyRigid; infer_instance

instance (ts : List Ty) : Fresh.Local (ofArguments ts) := by
  unfold ofArguments
  split <;> infer_instance

instance {α : Type} (l : List α) : Fresh.Local (l.mapM fun _ => fresh) := by
  induction l with
  | nil => exact Fresh.Local.pure _
  | cons a l ih =>
    rw [List.mapM_cons]
    infer_instance

instance (t : Ty) : Fresh.Local t.instantiate := by
  unfold instantiate
  split <;> infer_instance

end Ty

namespace TypeExpr

instance (name : String) (names : Names) : Fresh.Local (rigidFor name names) := by
  unfold rigidFor
  split <;> infer_instance

mutual

theorem local_toTyWith : ∀ (a : TypeExpr) (names : Names), Fresh.Local (a.toTyWith names)
  | named name, names => by
    rw [toTyWith]
    split <;> infer_instance
  | arrow d c, names => by
    have hd := local_toTyWith d
    have hc := local_toTyWith c
    rw [toTyWith]
    infer_instance
  | product cs, names => by
    have hcs := local_toTysWith cs
    rw [toTyWith]
    infer_instance

theorem local_toTysWith : ∀ (as : List TypeExpr) (names : Names), Fresh.Local (toTysWith as names)
  | [], names => by
    rw [toTysWith]
    infer_instance
  | a :: as, names => by
    have ha := local_toTyWith a
    have has := local_toTysWith as
    rw [toTysWith]
    infer_instance

end

instance (a : TypeExpr) : Fresh.Local a.toTy := by
  have ha := local_toTyWith a
  unfold toTy
  infer_instance

end TypeExpr

/-! ## Rules -/

namespace Derivation

instance (a : Atom) : Local (ofAtom a) := by
  unfold ofAtom
  split <;> infer_instance

instance (operator : String) (span : Span) (operand : Placed Derivation) :
    Fresh.Local (ofUnary operator span operand) := by
  unfold ofUnary; infer_instance

instance (lhs : Placed Derivation) (operator : String) (span : Span) (rhs : Placed Derivation) :
    Fresh.Local (ofBinary lhs operator span rhs) := by
  unfold ofBinary; infer_instance

instance : Fresh.Local ofMissing := by unfold ofMissing; infer_instance

instance (callee : Placed Derivation) (arguments : List (Placed Derivation)) (span : Span) :
    Local (ofCall callee arguments span) := by
  unfold ofCall
  have hsite : ∀ (result domain expected : Ty) (attempt : Attempt), Local (do
      let site ←
        match attempt.result with
        | .ok s =>
          Inference.unlessSome .diverges (CallSite.fitting?
            (inheritedRequirements callee arguments) result expected s)
        | .error e =>
          Inference.unlessSome .overflow (CallSite.clashing?
            (inheritedRequirements callee arguments) callee span result domain expected e)
      return (Derivation.call site callee arguments, attempt.steps) : Inference _) := by
    intro result domain expected attempt
    split <;> infer_instance
  infer_instance

end Derivation

namespace Declaration

instance (name : Ident) (value : Derivation) : Fresh.Local (unannotated name value) := by
  unfold unannotated; infer_instance

instance (name : Ident) (ascription : Located Ty) (value : Derivation) (s : Substitution) :
    Local (fitting name ascription value s) := by
  unfold fitting; infer_instance

instance (name : Ident) (ascription : Located Ty) (value : Placed Derivation) :
    Local (clashing name ascription value) := by
  unfold clashing; infer_instance

instance (name : Ident) (written : Located TypeExpr) (value : Placed Derivation) :
    Local (annotated name written value) := by
  have hdeclaration : ∀ (ascription : Located Ty) (attempt : Attempt), Local (do
      let declaration ←
        match attempt.result with
        | .ok s => fitting name ascription value.item s
        | .error _ => clashing name ascription value
      return (declaration, attempt.steps) : Inference _) := by
    intro ascription attempt
    split <;> infer_instance
  unfold annotated
  infer_instance

end Declaration

instance (name : Ident) (ascription : Option (Located TypeExpr)) (value : Placed Derivation) :
    Local (Statement.ofDeclaration name ascription value) := by
  unfold Statement.ofDeclaration
  split <;> infer_instance

/-! ## Discharges -/

/-- Unifying uses with instances of their declarations, as a computation. -/
def linking : List Use → Substitution → Inference (Substitution × List Failure)
  | [], s => return (s, [])
  | use :: uses, s => do
    let type ← use.declared.instantiate
    let attempt ← Inference.unlessSome .diverges (s.unify? use.required type)
    match attempt.result with
    | .ok s => linking uses s
    | .error error => do
      let (s, failures) ← linking uses s
      return (s, ⟨use, error⟩ :: failures)

theorem linking_run (uses : List Use) (s : Substitution) (ids : IdSource) :
    linking uses s ids
      = (Fault.diverges.unlessSome (linkUses uses s ids)).map fun r => ((r.1, r.2.1), r.2.2) := by
  induction uses generalizing s ids with
  | nil => rfl
  | cons use uses ih =>
    rw [linking, linkUses, Inference.lift_bind, StateT.run]
    generalize use.declared.instantiate ids = drawn
    obtain ⟨type, ids'⟩ := drawn
    dsimp only
    cases s.unify? use.required type with
    | none => rfl
    | some attempt =>
      rw [Inference.unlessSome_bind]
      cases hresult : attempt.result with
      | ok s' => simp [hresult, ih]
      | error e =>
        show (linking uses s ids').bind _ = _
        rw [ih]
        cases linkUses uses s ids' <;> simp [hresult] <;> rfl

namespace Requirements

/-- Discharging requirements, as a computation. -/
def discharging (r : Requirements) (b : Bindings) (s : Substitution) : Inference Discharge :=
  fun ids => Fault.diverges.unlessSome (r.discharge? b s ids)

theorem discharging_eq (r : Requirements) (b : Bindings) (s : Substitution) :
    r.discharging b s = do
      let (s, failures) ← linking (r.declaredUses b) s
      return ⟨s, r.undeclared b, failures⟩ := by
  funext ids
  show _ = (linking (r.declaredUses b) s ids).bind _
  rw [discharging, discharge?, linking_run]
  cases linkUses (r.declaredUses b) s ids <;> rfl

end Requirements

instance local_linking (uses : List Use) (s : Substitution) : Local (linking uses s) := by
  induction uses generalizing s with
  | nil =>
    unfold linking
    infer_instance
  | cons use uses ih =>
    have hrest : ∀ attempt : Attempt, Local (match attempt.result with
        | .ok s => linking uses s
        | .error error => do
          let (s, failures) ← linking uses s
          return (s, ⟨use, error⟩ :: failures) : Inference _) := by
      intro attempt
      split <;> infer_instance
    unfold linking
    infer_instance

instance (r : Requirements) (b : Bindings) (s : Substitution) : Local (r.discharging b s) := by
  rw [Requirements.discharging_eq]
  infer_instance

/-! ## The typer -/

namespace Typer

theorem tracing_of_infer {α : Type} {rule : Inference α} {a : α} {g g' : Typer}
    (h : infer rule g = .ok (a, g')) : g'.tracing = g.tracing := by
  unfold infer at h
  cases hrun : rule.run g.ids with
  | error e =>
    rw [hrun] at h
    cases h
  | ok p =>
    rw [hrun] at h
    cases h
    rfl

instance {α : Type} (rule : Inference α) [hrule : Local rule] : Local (infer rule) where
  run {g a g'} h := by
    obtain ⟨j, ⟨hids, -⟩, hrun⟩ := hrule.run (infer_eq_ok h)
    refine ⟨j, ⟨hids, tracing_of_infer h⟩, fun s' ⟨hdraws, hs'⟩ => ?_⟩
    obtain ⟨ids', hrun', hids', -⟩ := hrun s'.ids ⟨hdraws, rfl⟩
    refine ⟨{ s' with ids := ids' }, ?_, hids', rfl⟩
    unfold infer
    rw [StateT.run, hrun']
    rfl

instance {α : Type} (f : Fresh α) [hf : Fresh.Local f] : Local (fresh f) :=
  inferInstanceAs (Local (infer (liftM f)))

theorem observe_run (steps : List Step) (g : Typer) :
    ∃ g', observe steps g = .ok ((), g') ∧ After 0 g g' := by
  refine ⟨_, rfl, ?_, ?_⟩
  · show (if g.tracing then _ else g).ids = g.ids
    split <;> rfl
  · show (if g.tracing then _ else g).tracing = g.tracing
    split <;> rfl

instance (steps : List Step) : Local (observe steps) := by
  refine Local.of_unchanged fun {g _ g'} h => ?_
  obtain ⟨g'', hrun, hafter⟩ := observe_run steps g
  rw [h] at hrun
  cases hrun
  exact ⟨hafter, fun s' _ => observe_run steps s'⟩

/-- Keeping a trace fails only if it has to count findings that overflow. -/
theorem record_run (rule : Rule) (type : Ty) (detail : String) (requirements : Requirements)
    (findings : Option (List Diagnostic)) (g : Typer) :
    (g.tracing = true ∧ findings = none ∧
        record rule type detail requirements findings g = .error .overflow) ∨
      (g.tracing = true → findings.isSome) ∧
        ∃ g', record rule type detail requirements findings g = .ok ((), g') ∧ After 0 g g' := by
  unfold record
  cases htracing : g.tracing with
  | false => exact .inr ⟨nofun, g, rfl, rfl, rfl⟩
  | true =>
    cases findings with
    | none => exact .inl ⟨rfl, rfl, rfl⟩
    | some ds => exact .inr ⟨fun _ => rfl, _, rfl, rfl, htracing.symm⟩

instance (rule : Rule) (type : Ty) (detail : String) (requirements : Requirements)
    (findings : Option (List Diagnostic)) :
    Local (record rule type detail requirements findings) := by
  refine Local.of_unchanged fun {g _ _} h => ?_
  obtain ⟨-, -, hrun⟩ | ⟨hfindings, g', hrun, hafter⟩ :=
    record_run rule type detail requirements findings g
  · rw [h] at hrun
    cases hrun
  · rw [h] at hrun
    cases hrun
    refine ⟨hafter, fun s' (hs' : s'.tracing = g.tracing) => ?_⟩
    obtain ⟨htracing, hnone, -⟩ | ⟨-, hagain⟩ :=
      record_run rule type detail requirements findings s'
    · simp [hnone, hs' ▸ htracing] at hfindings
    · exact hagain

instance (rule : Rule) (detail : String) (d : Derivation) :
    Local (recordExpression rule detail d) := by
  unfold recordExpression; infer_instance

instance (rule : Rule) (detail : String) (s : Statement) :
    Local (recordStatement rule detail s) := by
  unfold recordStatement; infer_instance

instance (a : Atom) : Local (atom a) := by unfold atom; infer_instance

instance (inner : Placed Derivation) : Local (grouping inner) := by
  unfold grouping; infer_instance

instance (operator : String) (span : Span) (operand : Placed Derivation) :
    Local (unary operator span operand) := by
  unfold unary; infer_instance

instance (lhs : Placed Derivation) (operator : String) (span : Span) (rhs : Placed Derivation) :
    Local (binary lhs operator span rhs) := by
  unfold binary; infer_instance

instance (callee : Placed Derivation) (arguments : List (Placed Derivation)) (span : Span) :
    Local (call callee arguments span) := by
  unfold call; infer_instance

instance : Local missing := by unfold missing; infer_instance

instance (name : Ident) (ascription : Option (Located TypeExpr)) (value : Placed Derivation) :
    Local (declare name ascription value) := by
  unfold declare; infer_instance

instance (value : Placed Derivation) : Local (ret value) := by unfold ret; infer_instance

end Typer

end CoContextual
