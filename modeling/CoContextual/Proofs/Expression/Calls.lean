import CoContextual.Proofs.Expression.Failures
import CoContextual.Proofs.Unify.Soundness

/-!
# What a call knows

A call unifies the type of its callee with a function type made of its arguments and a fresh result.
If that succeeds with a store in which everything can be resolved, what the call knows fits together
(`CallSite.Fits`): the function type leads from the resolved arguments to the type of the call, the
callee has that type, the uses of the parts are resolved one by one, and nothing is left of the
variables that the store speaks of. If it fails, the call is reported, its types are invalid, and
the uses of the parts stay as they are (`CallSite.Clashes`).

The parts are any derivations whatever, and so are their types. The call is made in both cases,
unless a position outgrows its word (`Typer.call_coheres`).
-/

namespace CoContextual

/-- The types at which an identifier is used in the parts of a call, the callee's first. -/
def Derivation.partUses (callee : Placed Derivation) (arguments : List (Placed Derivation))
    (token : Ident) : List Ty :=
  callee.item.requirements.get token ++ arguments.flatMap fun a => a.item.requirements.get token

namespace CallSite

variable {site : CallSite} {callee : Placed Derivation} {arguments : List (Placed Derivation)}
  {result arrow : NodeId} {extra : List NodeId} {domain : Ty} {s : Substitution}

/-- What a call knows whose callee fits, as the store `s` of the unification says. -/
structure Fits (site : CallSite) (callee : Placed Derivation) (arguments : List (Placed Derivation))
    (result arrow : NodeId) (extra : List NodeId) (s : Substitution) : Prop where
  /-- The call keeps the store. -/
  substitution : site.substitution = s
  /-- The call has the type of its result. -/
  type : s.resolve? (.flexible result) = some site.type
  /-- The function type leads from the resolved arguments to the type of the call. -/
  functionType : ∃ types domain, (arguments.map fun a => a.item.type).mapM s.resolve? = some types ∧
    Ty.IsArguments types domain extra ∧ site.functionType = .arrow arrow domain site.type
  /-- The callee has the function type, except where one of them is invalid. -/
  agrees : ∃ t, s.resolve? callee.item.type = some t ∧ t.agrees site.functionType = true
  /-- Nothing is reported. -/
  diagnostics : site.diagnostics = []
  /-- The uses of the parts are resolved one by one. -/
  requirements : ∀ token, (Derivation.partUses callee arguments token).mapM s.resolve?
    = some (site.requirements.get token)
  /-- No variable that the store speaks of is left. -/
  resolved : ∀ v e, s.get? v = some e → v ∉ site.type.mentions ∧ v ∉ site.functionType.mentions ∧
    site.requirements.Each fun _ t => v ∉ t.mentions

/-- What a call knows whose callee does not fit. -/
structure Clashes (site : CallSite) (callee : Placed Derivation)
    (arguments : List (Placed Derivation)) (result arrow : NodeId) : Prop where
  /-- The call is reported. -/
  diagnostics : site.diagnostics ≠ []
  /-- The type of the call is invalid under the identity of the result. -/
  type : site.type = .invalid result
  /-- The function type is invalid under the identity it had. -/
  functionType : site.functionType = .invalid arrow
  /-- Nothing is learned. -/
  substitution : site.substitution = .empty
  /-- Nothing is replaced. -/
  origins : site.origins = .empty
  /-- The uses of the parts stay as they are. -/
  requirements : ∀ token, site.requirements.get token = Derivation.partUses callee arguments token

/-- A store in which everything can be resolved makes a call that fits. -/
theorem exists_fits (hdomain : Ty.IsArguments (arguments.map fun a => a.item.type) domain extra)
    {steps : List Step}
    (hunify : Substitution.empty.unify? callee.item.type (.arrow arrow domain (.flexible result))
      = some ⟨steps, .ok s⟩) (hs : s.Acyclic) :
    ∃ site, fitting? (Derivation.inheritedRequirements callee arguments) (.flexible result)
        (.arrow arrow domain (.flexible result)) s = some site ∧
      site.Fits callee arguments result arrow extra s := by
  obtain ⟨origins, -, hsite⟩ := exists_fitting? hs
    (Derivation.inheritedRequirements callee arguments) (.flexible result)
    (.arrow arrow domain (.flexible result))
  have hagrees := (Substitution.unify?_eq_some_iff.1 hunify).agrees rfl hs.satisfiedBy_image
  have hleft : ∀ {v e}, s.get? v = some e → ∀ t : Ty, v ∉ (t.substitute s.image).mentions := by
    intro v e he t hv
    rw [hs.get?_eq_none_of_mem_substitute hv] at he
    cases he
  refine ⟨_, hsite, ?_⟩
  exact {
    substitution := rfl
    type := hs.resolve?_eq _
    functionType := by
      refine ⟨_, _, hs.mapM_resolve? _, hdomain.substitute s.image, ?_⟩
      rw [Ty.substitute_arrow]
    agrees := ⟨_, hs.resolve?_eq _, hagrees _ (.head _)⟩
    diagnostics := rfl
    requirements := by
      intro token
      rw [hs.mapM_resolve?, Requirements.get_mapTypes, Derivation.get_inheritedRequirements]
      rfl
    resolved := fun v e he =>
      ⟨hleft he _, hleft he _, Requirements.each_mapTypes.2 fun token t _ => hleft he t⟩ }

/-- A call that does not fit is made, unless its callee has a place that outgrows its word. -/
theorem exists_clashes (callee : Placed Derivation) (arguments : List (Placed Derivation))
    (span : Span) (result arrow : NodeId) (domain : Ty) (e : UnifyError) :
    (∃ site : CallSite, clashing? (Derivation.inheritedRequirements callee arguments) callee span
        (.flexible result) domain (.arrow arrow domain (.flexible result)) e = some site ∧
      site.Clashes callee arguments result arrow) ∨
    clashing? (Derivation.inheritedRequirements callee arguments) callee span
        (.flexible result) domain (.arrow arrow domain (.flexible result)) e = none ∧
      Derivation.ownSpans? callee = none := by
  rw [clashing?]
  cases hplaces : Derivation.ownSpans? callee with
  | none => exact .inr ⟨rfl, rfl⟩
  | some places =>
    refine .inl ⟨_, rfl, ?_⟩
    exact {
      diagnostics := Derivation.atEach_ne_nil_of_ownSpans? hplaces _ _ _
      type := rfl
      functionType := rfl
      substitution := rfl
      origins := rfl
      requirements := Derivation.get_inheritedRequirements callee arguments }

end CallSite

namespace Typer

/-- The rule returns `d`, unless a trace is kept and a position in `d` outgrows its word. -/
def Returns (rule : TyperM Derivation) (g : Typer) (d : Derivation) : Prop :=
  (∃ g', rule g = .ok (d, g')) ∨
    g.tracing = true ∧ rule g = .error .overflow ∧ d.diagnostics? = none

theorem Makes.returns {rule : TyperM Derivation} {g : Typer} {d : Derivation}
    (h : Makes rule g d) : Returns rule g d := by
  cases htracing : g.tracing with
  | false =>
    have hsilent : g.silent = g := by rw [Typer.silent, ← htracing]
    exact .inl (hsilent ▸ h.silent)
  | true =>
    obtain ⟨name, detail, g₁, hrecords⟩ := h.records
    rw [Returns, hrecords]
    rcases recordExpression_cases name detail d g₁ with hok | ⟨herror, hfound⟩
    · exact .inl hok
    · exact .inr ⟨htracing, herror, hfound⟩

/-- A call is coherent, whatever its parts are. It draws a result, an argument list and a function
type. If the callee's type unifies with that function type and the store has no cycle, the call
fits. If the two types clash, the call is reported, unless a place to report outgrows its word. -/
theorem call_coheres (callee : Placed Derivation) (arguments : List (Placed Derivation))
    (span : Span) (g : Typer) :
    ∃ n result arrow extra domain,
      result :: (extra ++ [arrow]) = g.ids.taken n ∧
      Ty.IsArguments (arguments.map fun a => a.item.type) domain extra ∧
      (∀ steps s, Substitution.empty.unify? callee.item.type
          (.arrow arrow domain (.flexible result)) = some ⟨steps, .ok s⟩ → s.Acyclic →
        ∃ site : CallSite, site.Fits callee arguments result arrow extra s ∧
          Returns (call callee arguments span) g (.call site callee arguments)) ∧
      ∀ steps e, Substitution.empty.unify? callee.item.type
          (.arrow arrow domain (.flexible result)) = some ⟨steps, .error e⟩ →
        (∃ site : CallSite, site.Clashes callee arguments result arrow ∧
          Returns (call callee arguments span) g (.call site callee arguments)) ∨
        call callee arguments span g = .error .overflow ∧ Derivation.ownSpans? callee = none := by
  obtain ⟨n, result, arrow, extra, domain, htaken, hdomain, hrun⟩ :=
    Derivation.ofCall_run callee arguments span g.ids
  refine ⟨n, result, arrow, extra, domain, htaken, hdomain, ?_, ?_⟩
  · intro steps s hunify hs
    obtain ⟨site, hsite, hfits⟩ := CallSite.exists_fits hdomain hunify hs
    rw [hunify] at hrun
    simp only [Inference.unlessSome_bind, hsite] at hrun
    exact ⟨site, hfits, (makes_call hrun).returns⟩
  · intro steps e hunify
    rw [hunify] at hrun
    rcases CallSite.exists_clashes callee arguments span result arrow domain e with
      ⟨site, hsite, hclashes⟩ | ⟨hsite, hplaces⟩
    · simp only [Inference.unlessSome_bind, hsite] at hrun
      exact .inl ⟨site, hclashes, (makes_call hrun).returns⟩
    · simp only [Inference.unlessSome_bind, hsite] at hrun
      exact .inr ⟨call_eq_error hrun, hplaces⟩

/-- A callee that takes a pair is called with two arguments and with none. -/
theorem call_coheres_pair : ∃ (callee : Placed Derivation) (arguments : List (Placed Derivation))
    (s : Substitution) (site site' : CallSite),
    callee.item.type = .arrow 1 (.product 2 [.flexible 3, .invalid 4]) (.flexible 3) ∧
    arguments.map (fun a => a.item.type) = [.flexible 6, .primitive 7 .string] ∧
    site.Fits callee arguments 10 12 [11] s ∧
    Returns (call callee arguments .zero) (.ofSource (.pinnedAt 10) false)
      (.call site callee arguments) ∧
    site'.Clashes callee [] 10 12 ∧
    Returns (call callee [] .zero) (.ofSource (.pinnedAt 10) false) (.call site' callee []) := by
  let callee : Placed Derivation :=
    ⟨.zero, .atom (.arrow 1 (.product 2 [.flexible 3, .invalid 4]) (.flexible 3)) .empty .zero⟩
  let arguments : List (Placed Derivation) :=
    [⟨.zero, .atom (.flexible 6) (Requirements.empty.add (.name "x") (.flexible 6)) .zero⟩,
      ⟨.zero, .atom (.primitive 7 .string) .empty .zero⟩]
  refine ⟨callee, arguments,
    (Substitution.empty.assign 3 (.flexible 6)).assign 6 (.flexible 10), ?_⟩
  obtain ⟨n, result, arrow, extra, domain, htaken, hdomain, hfits, -⟩ :=
    call_coheres callee arguments .zero (.ofSource (.pinnedAt 10) false)
  obtain ⟨n', result', arrow', extra', domain', htaken', hdomain', -, hclashes⟩ :=
    call_coheres callee [] .zero (.ofSource (.pinnedAt 10) false)
  -- both calls draw three identities, from ten on
  obtain rfl := hdomain.draws_eq htaken
  obtain rfl := hdomain'.draws_eq htaken'
  cases hdomain
  cases hdomain'
  cases htaken
  cases htaken'
  obtain ⟨site, hsite, hreturns⟩ := hfits _ _ rfl
    (Substitution.acyclic_of_measure (fun v => 10 - v) (by decide))
  rcases hclashes _ _ rfl with ⟨site', hsite', hreturns'⟩ | ⟨-, hplaces⟩
  · exact ⟨site, site', rfl, rfl, hsite, hreturns, hsite', hreturns'⟩
  · cases hplaces

end Typer

end CoContextual
