import CoContextual.Proofs.Discharge.Generalization
import CoContextual.Proofs.Expression.Inferred
import CoContextual.Proofs.Unify.Rigid

/-!
# Declarations with an annotation

An annotation denotes a type without flexible variables (`TypeExpr.written_toTy`), so that unifying
it with the type of a value binds variables of the value only. A value that fits is an instance of
its annotation; one that is less general, because it wants two of the annotation's variables to be
the same or one of them to be a certain type, clashes with it.

- `Declaration.Upholds`: what a declaration then knows, whether or not its value fits;
- `Typer.declare_upholds`: every declaration with an annotation is of this kind, and is made unless
  a position outgrows its word.

The name is bound to the annotation, quantified over all variables in it (`TypeExpr.toScheme`). That
is told from the annotation and the supply of identities, without a look at the value.
-/

namespace CoContextual

/-! ## What annotations denote -/

namespace Ty

/-- The type is made of primitive types and rigid variables. -/
structure Written (t : Ty) : Prop where
  /-- It has neither schemes nor invalid parts. -/
  plain : t.plain = true
  /-- It has no flexible variables. -/
  rigid : t.Rigid

namespace Written

variable {t d c : Ty} {cs : List Ty}

theorem primitive (id : NodeId) (kind : Primitive) : (Ty.primitive id kind).Written :=
  ⟨rfl, fun _ => List.not_mem_nil⟩

theorem var (v : NodeId) : (Ty.var (.rigid v)).Written := ⟨rfl, fun _ => List.not_mem_nil⟩

theorem arrow (id : NodeId) (hd : d.Written) (hc : c.Written) : (Ty.arrow id d c).Written where
  plain := plain_arrow.2 ⟨hd.plain, hc.plain⟩
  rigid v hv := (List.mem_append.1 hv).elim (hd.rigid v) (hc.rigid v)

theorem product (id : NodeId) (h : ∀ c ∈ cs, c.Written) : (Ty.product id cs).Written where
  plain := plain_product.2 fun c hc => (h c hc).plain
  rigid v hv := by
    obtain ⟨c, hc, hv⟩ := mem_mentions_product.1 hv
    exact (h c hc).rigid v hv

/-- What an annotation denotes is resolved already. -/
theorem substitute (h : t.Written) (f : NodeId → Ty) : t.substitute f = t :=
  h.rigid.substitute (plain_iff.1 h.plain).1 f

end Written

end Ty

namespace TypeExpr

/-- Every name that was met stands for a rigid variable. -/
def Names.Rigid (names : Names) : Prop :=
  ∀ name t, names.get? name = some t → ∃ v, t = .var (.rigid v)

theorem Names.rigid_empty : Names.Rigid .empty := fun _ _ h => nomatch h

theorem Names.Rigid.insert {names : Names} (h : Names.Rigid names) (name : String) (v : NodeId) :
    Names.Rigid (names.insert name (.var (.rigid v))) := by
  intro other t ht
  rw [Table.get?_insert] at ht
  split at ht
  · cases ht
    exact ⟨v, rfl⟩
  · exact h other t ht

theorem written_rigidFor {names : Names} (h : Names.Rigid names) (name : String) (ids : IdSource) :
    (rigidFor name names ids).1.1.Written ∧ Names.Rigid (rigidFor name names ids).1.2 := by
  rw [rigidFor]
  cases hget : names.get? name with
  | none => exact ⟨.var _, h.insert name _⟩
  | some known =>
    obtain ⟨v, rfl⟩ := h name known hget
    exact ⟨.var v, h⟩

mutual

/-- An annotation denotes a type of primitive types and rigid variables, and names go on to stand
for rigid variables. -/
theorem written_toTyWith : ∀ (a : TypeExpr) {names : Names} (_ : Names.Rigid names)
    (ids : IdSource), (a.toTyWith names ids).1.1.Written ∧ Names.Rigid (a.toTyWith names ids).1.2
  | named name, names, h, ids => by
    rw [toTyWith]
    cases Primitive.ofName? name with
    | none => exact written_rigidFor h name ids
    | some kind => exact ⟨.primitive _ kind, h⟩
  | arrow d c, names, h, ids => by
    obtain ⟨hd, hnames⟩ := written_toTyWith d h ids
    obtain ⟨hc, hnames⟩ := written_toTyWith c hnames (d.toTyWith names ids).2
    rw [toTyWith]
    exact ⟨hd.arrow _ hc, hnames⟩
  | product cs, names, h, ids => by
    obtain ⟨hcs, hnames⟩ := written_toTysWith cs h ids
    rw [toTyWith]
    exact ⟨.product _ hcs, hnames⟩

theorem written_toTysWith : ∀ (as : List TypeExpr) {names : Names} (_ : Names.Rigid names)
    (ids : IdSource),
    (∀ t ∈ (toTysWith as names ids).1.1, t.Written) ∧ Names.Rigid (toTysWith as names ids).1.2
  | [], names, h, ids => by
    rw [toTysWith]
    exact ⟨fun t ht => absurd ht List.not_mem_nil, h⟩
  | a :: as, names, h, ids => by
    obtain ⟨ha, hnames⟩ := written_toTyWith a h ids
    obtain ⟨has, hnames⟩ := written_toTysWith as hnames (a.toTyWith names ids).2
    rw [toTysWith]
    exact ⟨List.forall_mem_cons.2 ⟨ha, has⟩, hnames⟩

end

theorem written_toTy (a : TypeExpr) (ids : IdSource) : (a.toTy ids).1.Written :=
  (written_toTyWith a Names.rigid_empty ids).1

/-- The type that a name is bound to by an annotation: what the annotation denotes, quantified over
the variables in it. -/
def toScheme (a : TypeExpr) : Fresh Ty := do (← a.toTy).quantifyRigid

end TypeExpr

/-- Quantifying the rigid variables of a type without others closes it. -/
theorem Ty.Rigid.freeVars_quantifyRigid {t : Ty} (h : t.Rigid) (ids : IdSource) :
    (t.quantifyRigid ids).1.freeVars = [] := by
  have hall : ∀ v ∈ t.freeVars, v ∈ t.freeVarSet.filter TyVar.isRigid := by
    intro v hv
    refine List.mem_filter.2 ⟨Table.mem_keys_ofList.2 hv, ?_⟩
    cases v with
    | flexible v => exact absurd (mem_mentions_of_mem_freeVars hv) (h v)
    | rigid v => rfl
  rw [quantifyRigid]
  generalize t.freeVarSet.filter TyVar.isRigid = bound at hall
  cases bound with
  | nil => exact List.eq_nil_iff_forall_not_mem.2 fun v hv => nomatch hall v hv
  | cons w bound =>
    exact List.filter_eq_nil_iff.2 fun v hv => by
      simpa only [decide_eq_true_eq, not_not] using hall v hv

/-! ## What the declaration knows -/

namespace Declaration

variable {d : Declaration} {s : Substitution}

/-- What a declaration knows whose value fits the annotation. -/
structure Fits (d : Declaration) (ascribed : Ty) (value : Derivation) : Prop where
  /-- The store is that of the unification, which succeeds. -/
  unified : ∃ steps, Substitution.empty.unify? ascribed value.type
    = some ⟨steps, .ok d.substitution⟩
  /-- The store has no cycle. -/
  acyclic : d.substitution.Acyclic
  /-- The value's type resolves to the annotation, except where it is invalid. -/
  agrees : ∃ t, d.substitution.resolve? value.type = some t ∧ t.agrees ascribed = true ∧
    (t.invalidFree = true → t.alike ascribed = true)
  /-- The uses in the value are resolved one by one. -/
  requirements : ∀ token, (value.requirements.get token).mapM d.substitution.resolve?
    = some (d.requirements.get token)
  /-- No variable that the store speaks of is left in them. -/
  resolved : ∀ v e, d.substitution.get? v = some e → d.requirements.Each fun _ t => v ∉ t.mentions

/-- What a declaration knows whose value does not fit the annotation. -/
structure Clashes (d : Declaration) (ascribed : Ty) (value : Derivation) : Prop where
  /-- The unification fails. -/
  failed : ∃ steps e, Substitution.empty.unify? ascribed value.type = some ⟨steps, .error e⟩
  /-- Nothing is learned. -/
  substitution : d.substitution = .empty
  /-- Nothing is replaced. -/
  origins : d.origins = .empty
  /-- The uses in the value stay as they are. -/
  requirements : d.requirements = value.requirements

/-- What a declaration with an annotation knows: its binding is the given one whether or not the
value fits, and a value that does not fit is reported. -/
structure Upholds (d : Declaration) (name : Ident) (ascribed : Located Ty) (binding : Ty)
    (value : Derivation) : Prop where
  /-- The declared identifier. -/
  name : d.name = name
  /-- The annotation is kept as it is. -/
  ascription : d.ascription = some ascribed
  /-- The name is bound to the given type. -/
  binding : d.binding = binding
  /-- A declaration without a finding of its own fits. -/
  fits : d.diagnostics = [] → d.Fits ascribed.item value
  /-- A declaration with one does not. -/
  clashes : d.diagnostics ≠ [] → d.Clashes ascribed.item value

/-- A value that fits is declared, with the uses in it resolved. -/
theorem fitting_run (name : Ident) {ascribed : Located Ty} (hwritten : ascribed.item.Written)
    (value : Derivation) (hs : s.Acyclic) (ids : IdSource) :
    ∃ origins, fitting name ascribed value s ids = .ok
      ({ name
         ascription := some ascribed
         substitution := s
         origins
         binding := (ascribed.item.quantifyRigid ids).1
         requirements := value.requirements.mapTypes (Ty.substitute s.image)
         diagnostics := [] }, (ascribed.item.quantifyRigid ids).2) := by
  obtain ⟨⟨declared, records⟩, hdeclared, htype, -⟩ := hs.applyTo?_eq ascribed.item
  obtain ⟨replaced, hreplaced, -⟩ := Requirements.substitute?_eq hs value.requirements
  rw [hwritten.substitute] at htype
  cases htype
  refine ⟨Origins.ofResolved (⟨ascribed.item, records⟩ :: replaced), ?_⟩
  rw [fitting, hdeclared, hreplaced]
  rfl

/-- A value that fits makes a declaration that upholds its annotation. -/
theorem exists_fitting (name : Ident) {ascribed : Located Ty}
    (hwritten : ascribed.item.Written) (value : Derivation) {steps : List Step}
    (hunify : Substitution.empty.unify? ascribed.item value.type = some ⟨steps, .ok s⟩)
    (ids : IdSource) :
    ∃ d ids', fitting name ascribed value s ids = .ok (d, ids') ∧
      d.Upholds name ascribed (ascribed.item.quantifyRigid ids).1 value := by
  obtain ⟨hs, hagrees⟩ := Substitution.unify?_rigid (Substitution.allEntries_empty _)
    hwritten.rigid hwritten.plain hunify
  obtain ⟨origins, hrun⟩ := fitting_run name hwritten value hs ids
  refine ⟨_, _, hrun, rfl, rfl, rfl, fun _ => ?_, fun hne => absurd rfl hne⟩
  exact {
    unified := ⟨steps, hunify⟩
    acyclic := hs
    agrees := hagrees
    requirements := fun token => by rw [hs.mapM_resolve?, Requirements.get_mapTypes]
    resolved := by
      intro v e he
      refine Requirements.each_mapTypes.2 fun token t _ hv => ?_
      rw [hs.get?_eq_none_of_mem_substitute hv] at he
      cases he }

/-- A value that does not fit makes one too, unless a place of its type outgrows its word. -/
theorem exists_clashing (name : Ident) (ascribed : Located Ty) (value : Placed Derivation)
    {steps : List Step} {e : UnifyError}
    (hunify : Substitution.empty.unify? ascribed.item value.item.type = some ⟨steps, .error e⟩)
    (ids : IdSource) :
    (∃ d ids', clashing name ascribed value ids = .ok (d, ids') ∧
      d.Upholds name ascribed (ascribed.item.quantifyRigid ids).1 value.item) ∨
    clashing name ascribed value ids = .error .overflow ∧ Derivation.ownSpans? value = none := by
  cases hplaces : Derivation.ownSpans? value with
  | none =>
    refine .inr ⟨?_, rfl⟩
    rw [clashing, hplaces]
    rfl
  | some places =>
    have hreported := Derivation.atEach_ne_nil_of_ownSpans? hplaces .annotationMismatch
      (message name ascribed.item value.item.type) ascribed.span
    refine .inl ⟨_, _, by rw [clashing, hplaces]; rfl, rfl, rfl, rfl, fun h => absurd h hreported,
      fun _ => ?_⟩
    exact ⟨⟨steps, e, hunify⟩, rfl, rfl, rfl⟩

/-- The rule for a declaration with an annotation: its value fits or clashes. -/
theorem exists_annotated (name : Ident) (written : Located TypeExpr) (value : Placed Derivation)
    (ids : IdSource) :
    (∃ d steps ids', annotated name written value ids = .ok ((d, steps), ids') ∧
      d.Upholds name ⟨(written.item.toTy ids).1, written.span⟩ (written.item.toScheme ids).1
        value.item) ∨
    annotated name written value ids = .error .overflow ∧ Derivation.ownSpans? value = none := by
  let ascribed : Located Ty := ⟨(written.item.toTy ids).1, written.span⟩
  have hwritten : ascribed.item.Written := written.item.written_toTy ids
  obtain ⟨⟨steps, outcome⟩, hunify, -⟩ := Substitution.exists_unify?_rigid
    (Substitution.allEntries_empty _) hwritten.rigid value.item.type
  cases outcome with
  | ok s =>
    have hrun : annotated name written value ids
        = (fitting name ascribed value.item s >>= fun d => pure (d, steps))
          (written.item.toTy ids).2 := by
      rw [annotated, Inference.lift_bind, hunify, Inference.unlessSome_bind]
    obtain ⟨d, ids', hfitting, hd⟩ :=
      exists_fitting name hwritten value.item hunify (written.item.toTy ids).2
    refine .inl ⟨d, steps, ids', ?_, hd⟩
    rw [hrun]
    exact bind_eq_ok.2 ⟨d, ids', hfitting, rfl⟩
  | error e =>
    have hrun : annotated name written value ids
        = (clashing name ascribed value >>= fun d => pure (d, steps))
          (written.item.toTy ids).2 := by
      rw [annotated, Inference.lift_bind, hunify, Inference.unlessSome_bind]
    rw [hrun]
    rcases exists_clashing name ascribed value hunify (written.item.toTy ids).2 with
      ⟨d, ids', hclashing, hd⟩ | ⟨herror, hplaces⟩
    · exact .inl ⟨d, steps, ids', bind_eq_ok.2 ⟨d, ids', hclashing, rfl⟩, hd⟩
    · refine .inr ⟨?_, hplaces⟩
      show (clashing name ascribed value _).bind _ = _
      rw [herror]
      rfl

end Declaration

namespace Typer

/-- The rule returns `s`, unless a trace is kept and a position in `s` outgrows its word. -/
def ReturnsStatement (rule : TyperM Statement) (g : Typer) (s : Statement) : Prop :=
  (∃ g', rule g = .ok (s, g')) ∨
    g.tracing = true ∧ rule g = .error .overflow ∧ s.diagnostics? = none

theorem recordStatement_returns (name : Rule) (detail : String) (s : Statement) (g : Typer) :
    ReturnsStatement (recordStatement name detail s) g s := by
  show (∃ g', (record _ _ _ _ _ g).bind _ = _) ∨ _ ∧ (record _ _ _ _ _ g).bind _ = _ ∧ _
  rcases record_cases name s.type detail s.requirements s.diagnostics? g with
    ⟨g', hok⟩ | ⟨htracing, herror, hfound⟩
  · rw [hok]
    exact .inl ⟨g', rfl⟩
  · rw [herror]
    exact .inr ⟨htracing, rfl, hfound⟩

/-- A declaration that the rule makes is returned. -/
theorem declare_returns {name : Ident} {ascription : Option (Located TypeExpr)}
    {value : Placed Derivation} {g : Typer} {s : Statement} {steps : List Step} {ids : IdSource}
    (h : Statement.ofDeclaration name ascription value g.ids = .ok ((s, steps), ids)) :
    ReturnsStatement (declare name ascription value) g s := by
  obtain ⟨source, tracing, trace, unifyTrace⟩ := g
  -- once the rule is carried out and its steps are kept, the statement is recorded
  obtain ⟨kept, hdeclare⟩ : ∃ kept,
      declare name ascription value ⟨source, tracing, trace, unifyTrace⟩
        = recordStatement .declaration name.render s ⟨ids, tracing, trace, kept⟩ := by
    refine ⟨if tracing then unifyTrace ++ numberFrom 0 steps else unifyTrace, ?_⟩
    show (infer _ _).bind _ = _
    rw [infer_of_ok h]
    cases tracing <;> rfl
  rw [ReturnsStatement, hdeclare]
  exact recordStatement_returns _ _ s _

/-- A declaration with an annotation upholds it, whatever its value is: the name is bound to the
annotation, closed over its variables. The declaration is made, unless a place to report outgrows
its word. -/
theorem declare_upholds (name : Ident) (written : Located TypeExpr) (value : Placed Derivation)
    (g : Typer) :
    (written.item.toScheme g.ids).1.freeVars = [] ∧
      ((∃ d : Declaration,
        d.Upholds name ⟨(written.item.toTy g.ids).1, written.span⟩ (written.item.toScheme g.ids).1
          value.item ∧
        ReturnsStatement (declare name (some written) value) g (.declare d value)) ∨
      declare name (some written) value g = .error .overflow ∧
        Derivation.ownSpans? value = none) := by
  refine ⟨(written.item.written_toTy g.ids).rigid.freeVars_quantifyRigid _, ?_⟩
  rcases Declaration.exists_annotated name written value g.ids with
    ⟨d, steps, ids, hrun, hd⟩ | ⟨herror, hplaces⟩
  · have hrule : Statement.ofDeclaration name (some written) value g.ids
        = .ok ((.declare d value, steps), ids) := bind_eq_ok.2 ⟨_, _, hrun, rfl⟩
    exact .inl ⟨d, hd, declare_returns hrule⟩
  · refine .inr ⟨?_, hplaces⟩
    have hrule : Statement.ofDeclaration name (some written) value g.ids = .error .overflow := by
      show (Declaration.annotated name written value g.ids).bind _ = _
      rw [herror]
      rfl
    show (infer _ g).bind _ = _
    rw [infer_of_error hrule]
    rfl

/-- A function from a type to the same type is declared as one from `T` to `U`, and as one from `T`
to `T`. -/
theorem declare_upholds_shared_variable : ∃ (value : Placed Derivation) (d d' : Declaration),
    value.item.type = .arrow 1 (.flexible 2) (.flexible 2) ∧
    d.Clashes (.arrow 12 (.var (.rigid 10)) (.var (.rigid 11))) value.item ∧
    d.binding = .scheme 13 [.rigid 10, .rigid 11]
      (.arrow 12 (.var (.rigid 10)) (.var (.rigid 11))) ∧
    ReturnsStatement (declare (.name "f") (some ⟨.arrow (.named "T") (.named "U"), .zero⟩) value)
      (.ofSource (.pinnedAt 10) false) (.declare d value) ∧
    d'.Fits (.arrow 11 (.var (.rigid 10)) (.var (.rigid 10))) value.item ∧
    d'.binding = .scheme 12 [.rigid 10] (.arrow 11 (.var (.rigid 10)) (.var (.rigid 10))) ∧
    ReturnsStatement (declare (.name "f") (some ⟨.arrow (.named "T") (.named "T"), .zero⟩) value)
      (.ofSource (.pinnedAt 10) false) (.declare d' value) := by
  let value : Placed Derivation :=
    ⟨.zero, .atom (.arrow 1 (.flexible 2) (.flexible 2))
      (Requirements.empty.add (.name "x") (.flexible 2)) .zero⟩
  -- the value has a place of its own, so that both declarations are made
  obtain ⟨-, hcase⟩ := declare_upholds (.name "f") ⟨.arrow (.named "T") (.named "U"), .zero⟩ value
    (.ofSource (.pinnedAt 10) false)
  obtain ⟨-, hcase'⟩ := declare_upholds (.name "f") ⟨.arrow (.named "T") (.named "T"), .zero⟩ value
    (.ofSource (.pinnedAt 10) false)
  obtain ⟨d, hd, hreturns⟩ := hcase.resolve_right fun h => nomatch h.2
  obtain ⟨d', hd', hreturns'⟩ := hcase'.resolve_right fun h => nomatch h.2
  have hclash : d.diagnostics ≠ [] := by
    intro hnone
    obtain ⟨steps, hunify⟩ := (hd.fits hnone).unified
    cases hunify
  have hfit : d'.diagnostics = [] := by
    by_contra hsome
    obtain ⟨steps, e, hunify⟩ := (hd'.clashes hsome).failed
    cases hunify
  exact ⟨value, d, d', rfl, hd.clashes hclash, hd.binding.trans rfl, hreturns, hd'.fits hfit,
    hd'.binding.trans rfl, hreturns'⟩

end Typer

end CoContextual
