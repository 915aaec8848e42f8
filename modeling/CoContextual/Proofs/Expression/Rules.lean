import CoContextual.Proofs.Expression.Session
import CoContextual.Proofs.Unify.Depth

/-!
# The rules, opened

Computations that draw identities and may fault are opened step by step (`bind_eq_ok`), and each
rule for expressions is stated by what it returns when it succeeds: the node it makes, with the
identities it drew.
-/

namespace CoContextual

/-- A sequence succeeds exactly if both halves do. -/
theorem bind_eq_ok {σ ε α β : Type} {x : StateT σ (Except ε) α} {f : α → StateT σ (Except ε) β}
    {s : σ} {r : β × σ} :
    (x >>= f) s = .ok r ↔ ∃ a s', x s = .ok (a, s') ∧ f a s' = .ok r := by
  show (x s).bind (fun p => f p.1 p.2) = .ok r ↔ _
  cases x s with
  | error e => simp [Except.bind]
  | ok p =>
    obtain ⟨a, s'⟩ := p
    simp [Except.bind]

theorem Inference.lift_eq_ok {α : Type} {f : Fresh α} {a : α} {ids ids' : IdSource}
    (h : (liftM f : Inference α) ids = .ok (a, ids')) : f ids = (a, ids') := Except.ok.inj h

theorem Inference.lift_bind {α β : Type} (f : Fresh α) (k : α → Inference β) (ids : IdSource) :
    ((liftM f : Inference α) >>= k) ids = k (f ids).1 (f ids).2 := rfl

theorem Inference.unlessSome_bind {α β : Type} (fault : Fault) (a : α) (k : α → Inference β)
    (ids : IdSource) : (Inference.unlessSome fault (some a) >>= k) ids = k a ids := rfl

theorem Inference.unlessSome_eq_ok {α : Type} {fault : Fault} {a : Option α} {x : α}
    {ids ids' : IdSource} (h : Inference.unlessSome fault a ids = .ok (x, ids')) :
    a = some x ∧ ids' = ids := by
  cases a with
  | none => cases h
  | some y =>
    cases h
    exact ⟨rfl, rfl⟩

/-! ## The typer -/

namespace Typer

variable {g g' : Typer}

theorem infer_eq_ok {α : Type} {rule : Inference α} {a : α} (h : infer rule g = .ok (a, g')) :
    rule g.ids = .ok (a, g'.ids) := by
  unfold infer at h
  cases hr : rule.run g.ids with
  | error e => simp [hr, bind, Except.bind] at h
  | ok p =>
    simp only [hr, bind, Except.bind, pure, Except.pure, Except.ok.injEq, Prod.mk.injEq] at h
    obtain ⟨rfl, rfl⟩ := h
    exact hr

/-- A rule that comes to an end is carried out. -/
theorem infer_of_ok {α : Type} {rule : Inference α} {a : α} {ids : IdSource}
    (h : rule g.ids = .ok (a, ids)) : infer rule g = .ok (a, { g with ids := ids }) := by
  rw [infer, StateT.run, h]
  rfl

theorem infer_of_error {α : Type} {rule : Inference α} {fault : Fault}
    (h : rule g.ids = .error fault) : infer rule g = .error fault := by
  rw [infer, StateT.run, h]
  rfl

theorem fresh_eq_ok {α : Type} {f : Fresh α} {a : α} (h : fresh f g = .ok (a, g')) :
    f g.ids = (a, g'.ids) := by
  cases h
  rfl

theorem record_eq_ok {rule : Rule} {type : Ty} {detail : String} {requirements : Requirements}
    {findings : Option (List Diagnostic)} {u : Unit}
    (h : record rule type detail requirements findings g = .ok (u, g')) : g'.ids = g.ids := by
  unfold record at h
  split at h
  · cases hf : Fault.overflow.unlessSome findings with
    | error e => simp [hf, bind, Except.bind] at h
    | ok ds =>
      simp only [hf, bind, Except.bind, pure, Except.pure, Except.ok.injEq, Prod.mk.injEq] at h
      obtain ⟨-, rfl⟩ := h
      rfl
  · cases h
    rfl

/-- Only finding out how many findings there are can go wrong. -/
theorem record_cases (rule : Rule) (type : Ty) (detail : String) (requirements : Requirements)
    (findings : Option (List Diagnostic)) (g : Typer) :
    (∃ g', record rule type detail requirements findings g = .ok ((), g')) ∨
      g.tracing = true ∧ record rule type detail requirements findings g = .error .overflow ∧
        findings = none := by
  unfold record
  cases htracing : g.tracing with
  | false => exact .inl ⟨g, rfl⟩
  | true =>
    cases findings with
    | none => exact .inr ⟨rfl, rfl, rfl⟩
    | some ds => exact .inl ⟨_, rfl⟩

/-- Keeping a trace changes neither the derivation nor the supply. -/
theorem recordExpression_eq_ok {rule : Rule} {detail : String} {d d' : Derivation}
    (h : recordExpression rule detail d g = .ok (d', g')) : d' = d ∧ g'.ids = g.ids := by
  obtain ⟨u, g₁, hrecord, hret⟩ := bind_eq_ok.1 h
  cases hret
  exact ⟨rfl, record_eq_ok hrecord⟩

theorem recordStatement_eq_ok {rule : Rule} {detail : String} {s s' : Statement}
    (h : recordStatement rule detail s g = .ok (s', g')) : s' = s ∧ g'.ids = g.ids := by
  obtain ⟨u, g₁, hrecord, hret⟩ := bind_eq_ok.1 h
  cases hret
  exact ⟨rfl, record_eq_ok hrecord⟩

theorem observe_eq_ok {steps : List Step} {u : Unit} (h : observe steps g = .ok (u, g')) :
    g'.ids = g.ids := by
  cases h
  show (if g.tracing then _ else g).ids = g.ids
  split <;> rfl

/-- A rule that a typer carries out and records. -/
theorem infer_record_eq_ok {rule : Inference Derivation} {name : Rule} {detail : String}
    {d : Derivation} (h : (infer rule >>= recordExpression name detail) g = .ok (d, g')) :
    rule g.ids = .ok (d, g'.ids) := by
  obtain ⟨d', g₁, hinfer, hrecord⟩ := bind_eq_ok.1 h
  obtain ⟨rfl, hids⟩ := recordExpression_eq_ok hrecord
  rw [hids]
  exact infer_eq_ok hinfer

theorem fresh_record_eq_ok {rule : Fresh Derivation} {name : Rule} {detail : String}
    {d : Derivation} (h : (fresh rule >>= recordExpression name detail) g = .ok (d, g')) :
    rule g.ids = (d, g'.ids) := by
  obtain ⟨d', g₁, hfresh, hrecord⟩ := bind_eq_ok.1 h
  obtain ⟨rfl, hids⟩ := recordExpression_eq_ok hrecord
  rw [hids]
  exact fresh_eq_ok hfresh

end Typer

/-! ## Argument lists -/

/-- The type of an argument list, and the identities that were drawn for it. -/
inductive Ty.IsArguments : List Ty → Ty → List NodeId → Prop
  | none (i : NodeId) : Ty.IsArguments [] (.primitive i .unit) [i]
  | one (t : Ty) : Ty.IsArguments [t] t []
  | many (i : NodeId) (t u : Ty) (ts : List Ty) :
      Ty.IsArguments (t :: u :: ts) (.product i (t :: u :: ts)) [i]

theorem Ty.ofArguments_run (types : List Ty) (ids : IdSource) :
    ∃ n domain, Ty.ofArguments types ids = (domain, ids.advance n) ∧
      Ty.IsArguments types domain (ids.taken n) := by
  match types with
  | [] => exact ⟨1, _, rfl, .none _⟩
  | [t] => exact ⟨0, t, rfl, .one t⟩
  | t :: u :: ts => exact ⟨1, _, rfl, .many _ t u ts⟩

/-! ## The rules for expressions -/

namespace Derivation

variable {ids ids' : IdSource} {d : Derivation}

theorem ofAtom_name_eq_ok {text : String} (h : ofAtom (.name text) ids = .ok (d, ids')) :
    ∃ id span, [id] = ids.taken 1 ∧ ids' = ids.advance 1 ∧ Span.ofText? text = some span ∧
      d = .atom (.flexible id) (Requirements.empty.add (.name text) (.flexible id)) span := by
  obtain ⟨type, ids₁, htype, h⟩ := bind_eq_ok.1 h
  cases htype
  obtain ⟨p, ids₂, hp, h⟩ := bind_eq_ok.1 h
  cases hp
  obtain ⟨span, ids₃, hunless, h⟩ := bind_eq_ok.1 h
  cases h
  obtain ⟨hspan, rfl⟩ := Inference.unlessSome_eq_ok hunless
  exact ⟨_, span, rfl, rfl, hspan, rfl⟩

theorem ofAtom_literal_eq_ok {form : LiteralForm} {text : String}
    (h : ofAtom (.literal form text) ids = .ok (d, ids')) :
    ∃ id span, [id] = ids.taken 1 ∧ ids' = ids.advance 1 ∧ Span.ofText? text = some span ∧
      d = .atom (.primitive id (.ofLiteral form text)) .empty span := by
  obtain ⟨type, ids₁, htype, h⟩ := bind_eq_ok.1 h
  cases htype
  obtain ⟨p, ids₂, hp, h⟩ := bind_eq_ok.1 h
  cases hp
  obtain ⟨span, ids₃, hunless, h⟩ := bind_eq_ok.1 h
  cases h
  obtain ⟨hspan, rfl⟩ := Inference.unlessSome_eq_ok hunless
  exact ⟨_, span, rfl, rfl, hspan, rfl⟩

/-- A call draws the result first, then what the argument list needs, then the function type, and
then tries to unify. -/
theorem ofCall_run (callee : Placed Derivation) (arguments : List (Placed Derivation))
    (span : Span) (ids : IdSource) :
    ∃ n result arrow extra domain,
      result :: (extra ++ [arrow]) = ids.taken n ∧
      Ty.IsArguments (arguments.map fun a => a.item.type) domain extra ∧
      ofCall callee arguments span ids = (do
        let attempt ← Inference.unlessSome .diverges
          (Substitution.empty.unify? callee.item.type (.arrow arrow domain (.flexible result)))
        let site ←
          match attempt.result with
          | .ok s =>
            Inference.unlessSome .diverges (CallSite.fitting?
              (inheritedRequirements callee arguments) (.flexible result)
              (.arrow arrow domain (.flexible result)) s)
          | .error e =>
            Inference.unlessSome .overflow (CallSite.clashing?
              (inheritedRequirements callee arguments) callee span (.flexible result) domain
              (.arrow arrow domain (.flexible result)) e)
        return (.call site callee arguments, attempt.steps) : Inference _) (ids.advance n) := by
  obtain ⟨n, domain, hrun, harguments⟩ :=
    Ty.ofArguments_run (arguments.map fun a => a.item.type) ids.draw.2
  refine ⟨n + 1 + 1, ids.draw.1, (ids.draw.2.advance n).draw.1, ids.draw.2.taken n, domain, ?_,
    harguments, ?_⟩
  · rw [IdSource.taken, IdSource.taken_add]
    rfl
  · have hadvance : ids.advance (n + 1 + 1) = (ids.draw.2.advance n).draw.2 := by
      rw [IdSource.advance, IdSource.advance_add]
      rfl
    -- what was drawn for the argument list is what the rule draws
    obtain rfl : (Ty.ofArguments _ ids.draw.2).1 = domain := congrArg Prod.fst hrun
    have hnext : (Ty.ofArguments _ ids.draw.2).2 = ids.draw.2.advance n := congrArg Prod.snd hrun
    rw [hadvance, ← hnext]
    rfl

/-- What a call that succeeds returns: the callee's type was unified with the expected function
type, and the outcome made the call site. -/
theorem ofCall_eq_ok {callee : Placed Derivation} {arguments : List (Placed Derivation)}
    {span : Span} {steps : List Step}
    (h : ofCall callee arguments span ids = .ok ((d, steps), ids')) :
    ∃ n result arrow extra domain attempt site,
      result :: (extra ++ [arrow]) = ids.taken n ∧ ids' = ids.advance n ∧
      Ty.IsArguments (arguments.map fun a => a.item.type) domain extra ∧
      Substitution.empty.unify? callee.item.type (.arrow arrow domain (.flexible result))
        = some attempt ∧
      d = .call site callee arguments ∧
      match attempt.result with
      | .ok s =>
        CallSite.fitting? (inheritedRequirements callee arguments) (.flexible result)
          (.arrow arrow domain (.flexible result)) s = some site
      | .error e =>
        CallSite.clashing? (inheritedRequirements callee arguments) callee span
          (.flexible result) domain (.arrow arrow domain (.flexible result)) e = some site := by
  obtain ⟨n, result, arrow, extra, domain, htaken, harguments, hrun⟩ :=
    ofCall_run callee arguments span ids
  rw [hrun] at h
  obtain ⟨attempt, ids₁, hunless, h⟩ := bind_eq_ok.1 h
  obtain ⟨hattempt, rfl⟩ := Inference.unlessSome_eq_ok hunless
  refine ⟨n, result, arrow, extra, domain, attempt, ?_⟩
  -- both outcomes draw nothing more
  cases hres : attempt.result with
  | ok s =>
    simp only [hres] at h ⊢
    obtain ⟨site, ids₂, hunless, h⟩ := bind_eq_ok.1 h
    obtain ⟨hsite, rfl⟩ := Inference.unlessSome_eq_ok hunless
    cases h
    exact ⟨site, htaken, rfl, harguments, hattempt, rfl, hsite⟩
  | error e =>
    simp only [hres] at h ⊢
    obtain ⟨site, ids₂, hunless, h⟩ := bind_eq_ok.1 h
    obtain ⟨hsite, rfl⟩ := Inference.unlessSome_eq_ok hunless
    cases h
    exact ⟨site, htaken, rfl, harguments, hattempt, rfl, hsite⟩

end Derivation

/-- A call that a typer carries out and records. -/
theorem Typer.call_eq_ok {g g' : Typer} {callee : Placed Derivation}
    {arguments : List (Placed Derivation)} {span : Span} {d : Derivation}
    (h : Typer.call callee arguments span g = .ok (d, g')) :
    ∃ steps, Derivation.ofCall callee arguments span g.ids = .ok ((d, steps), g'.ids) := by
  obtain ⟨⟨d', steps⟩, g₁, hinfer, h⟩ := bind_eq_ok.1 h
  obtain ⟨u, g₂, hobserve, hrecord⟩ := bind_eq_ok.1 h
  obtain ⟨rfl, hids⟩ := recordExpression_eq_ok hrecord
  refine ⟨steps, ?_⟩
  rw [hids, observe_eq_ok hobserve]
  exact infer_eq_ok hinfer

/-- A declaration that a typer carries out and records. -/
theorem Typer.declare_eq_ok {g g' : Typer} {name : Ident} {ascription : Option (Located TypeExpr)}
    {value : Placed Derivation} {s : Statement}
    (h : Typer.declare name ascription value g = .ok (s, g')) :
    ∃ steps, Statement.ofDeclaration name ascription value g.ids = .ok ((s, steps), g'.ids) := by
  obtain ⟨⟨s', steps⟩, g₁, hinfer, h⟩ := bind_eq_ok.1 h
  obtain ⟨u, g₂, hobserve, hrecord⟩ := bind_eq_ok.1 h
  obtain ⟨rfl, hids⟩ := recordStatement_eq_ok hrecord
  refine ⟨steps, ?_⟩
  rw [hids, observe_eq_ok hobserve]
  exact infer_eq_ok hinfer

end CoContextual
