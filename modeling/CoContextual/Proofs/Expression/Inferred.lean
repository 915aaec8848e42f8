import CoContextual.Proofs.Expression.Rules
import CoContextual.Proofs.Requirements

/-!
# What a session infers

`Inferred e d ids` says that `d` is a derivation of the expression `e` as the rules make it, and
that `ids` lists the identities that were drawn for it. A call has one of three outcomes, by the
type of its callee: a variable becomes the expected function type, an invalid type is absorbed, and
a primitive type clashes. There are no others, since the type of an expression is a variable, a
primitive type or an invalid one (`Inferred.leaf`, `CallSite.settles_of_unify?`).
-/

namespace CoContextual

/-- Maps `v` to `t` and every other variable to itself. -/
def Ty.only (v : NodeId) (t : Ty) (w : NodeId) : Ty := if w = v then t else .flexible w

@[simp]
theorem Ty.only_self (v : NodeId) (t : Ty) : Ty.only v t v = t := if_pos rfl

theorem Ty.only_of_ne {v w : NodeId} (h : w ≠ v) (t : Ty) : Ty.only v t w = .flexible w := if_neg h

theorem Ty.only_elim {P : Ty → Prop} {v w : NodeId} {t : Ty} (ht : w = v → P t)
    (hw : w ≠ v → P (.flexible w)) : P (Ty.only v t w) := by
  by_cases h : w = v
  · rw [h, only_self]
    exact ht h
  · rw [only_of_ne h]
    exact hw h

/-- What becomes of a call with arguments of type `domain`, by the type of its callee. The result
and the function type have the identities `result` and `arrow`. -/
inductive CallSite.Settles (inherited : Requirements) (result arrow : NodeId)
    (domain callee : Ty) : CallSite → Prop
  | fits {v : NodeId} (hcallee : callee = .flexible v) (s : Substitution) {origins : Origins}
      (horigins : ∀ id source, origins.get? id = some source → id = arrow) (hs : s.Acyclic) :
      Settles inherited result arrow domain callee
        { type := .flexible result
          functionType := .arrow arrow domain (.flexible result)
          requirements := inherited.mapTypes
            (Ty.substitute (Ty.only v (.arrow arrow domain (.flexible result))))
          substitution := s
          origins
          diagnostics := [] }
  | absorbs {i : NodeId} (hcallee : callee = .invalid i) (s : Substitution) {origins : Origins}
      (horigins : ∀ id, origins.get? id = none) (hs : s.Acyclic) :
      Settles inherited result arrow domain callee
        { type := .flexible result
          functionType := .arrow arrow domain (.flexible result)
          requirements := inherited.mapTypes (Ty.substitute Ty.flexible)
          substitution := s
          origins
          diagnostics := [] }
  | clashes {i : NodeId} {kind : Primitive} (hcallee : callee = .primitive i kind)
      {diagnostics : List Diagnostic} (hne : diagnostics ≠ []) :
      Settles inherited result arrow domain callee
        { type := .invalid result
          functionType := .invalid arrow
          requirements := inherited
          substitution := .empty
          origins := .empty
          diagnostics }

/-- What a call reports by the type of its callee: a primitive type wherever the callee's type comes
from, with the argument list as the other place, and nothing if the callee has another type. -/
def CallSite.Reports (site : CallSite) (callee : Placed Derivation) (argumentsSpan : Span) : Prop :=
  match callee.item.type with
  | .primitive _ _ => ∃ message places, Derivation.ownSpans? callee = some places ∧
      site.diagnostics = Diagnostic.atEach .typeMismatch message argumentsSpan places
  | _ => site.diagnostics = []

/-- A typed expression with the identities that were drawn for it. -/
structure Part where
  /-- The expression. -/
  expr : Expr
  /-- Its derivation. -/
  derivation : Derivation
  /-- The identities that were drawn. -/
  ids : List NodeId

/-- The derivations that the rules make of expressions. -/
inductive Inferred : Expr → Derivation → List NodeId → Prop
  | name (text : String) (id : NodeId) {span : Span} (hspan : Span.ofText? text = some span) :
      Inferred (.atom (.name text))
        (.atom (.flexible id) (Requirements.empty.add (.name text) (.flexible id)) span) [id]
  | literal (form : LiteralForm) (text : String) (id : NodeId) {span : Span}
      (hspan : Span.ofText? text = some span) :
      Inferred (.atom (.literal form text))
        (.atom (.primitive id (.ofLiteral form text)) .empty span) [id]
  | missing (id : NodeId) : Inferred .missing (.missing (.invalid id)) [id]
  | grouping {e : Expr} {d : Derivation} {ids : List NodeId} (offset : Offset)
      (h : Inferred e d ids) : Inferred (.grouping ⟨offset, e⟩) (.grouping ⟨offset, d⟩) ids
  | unary {e : Expr} {d : Derivation} {ids : List NodeId} (operator : String) (span : Span)
      (offset : Offset) (result arrow : NodeId) (h : Inferred e d ids) :
      Inferred (.unary operator span ⟨offset, e⟩)
        (.unary
          { type := .flexible result
            operatorType := .arrow arrow d.type (.flexible result)
            operator
            span
            requirements := d.requirements.add (.operator operator)
              (.arrow arrow d.type (.flexible result)) }
          ⟨offset, d⟩)
        (result :: arrow :: ids)
  | binary {e e' : Expr} {d d' : Derivation} {ids ids' : List NodeId} (offset : Offset)
      (operator : String) (span : Span) (offset' : Offset) (result operands arrow : NodeId)
      (h : Inferred e d ids) (h' : Inferred e' d' ids') :
      Inferred (.binary ⟨offset, e⟩ operator span ⟨offset', e'⟩)
        (.binary
          { type := .flexible result
            operatorType :=
              .arrow arrow (.product operands [d.type, d'.type]) (.flexible result)
            operator
            span
            requirements := (d.requirements ++ d'.requirements).add (.operator operator)
              (.arrow arrow (.product operands [d.type, d'.type]) (.flexible result)) }
          ⟨offset, d⟩ ⟨offset', d'⟩)
        (result :: operands :: arrow :: (ids ++ ids'))
  | call {e : Expr} {d : Derivation} {ids extra : List NodeId} {domain : Ty} {site : CallSite}
      (offset : Offset) (arguments : List (Placed Part)) (span : Span) (result arrow : NodeId)
      (hdomain : Ty.IsArguments (arguments.map fun p => p.item.derivation.type) domain extra)
      (hsite : site.Settles
        (Derivation.inheritedRequirements ⟨offset, d⟩
          (arguments.map (Placed.map Part.derivation)))
        result arrow domain d.type)
      (hreport : site.Reports ⟨offset, d⟩ span) (h : Inferred e d ids)
      (hargs : ∀ p ∈ arguments, Inferred p.item.expr p.item.derivation p.item.ids) :
      Inferred (.call ⟨offset, e⟩ (arguments.map (Placed.map Part.expr)) span)
        (.call site ⟨offset, d⟩ (arguments.map (Placed.map Part.derivation)))
        (result :: (extra ++ arrow :: (ids ++ arguments.flatMap fun p => p.item.ids)))

/-! ## Types and uses of a derivation -/

/-- The types that expressions have: a variable, a primitive type or an invalid one, under an
identity in `ids`. -/
inductive Ty.Leaf (ids : List NodeId) : Ty → Prop
  | flexible {v : NodeId} (h : v ∈ ids) : Ty.Leaf ids (.flexible v)
  | primitive {i : NodeId} (h : i ∈ ids) (kind : Primitive) : Ty.Leaf ids (.primitive i kind)
  | invalid {i : NodeId} (h : i ∈ ids) : Ty.Leaf ids (.invalid i)

/-- A scheme-free type whose own identity and variables are in `ids`. -/
structure Ty.Over (ids : List NodeId) (t : Ty) : Prop where
  /-- There is no scheme in it. -/
  schemeFree : t.schemeFree = true
  /-- Its identity is in the list. -/
  id_mem : t.id ∈ ids
  /-- Its variables are in the list. -/
  mentions_mem : ∀ v ∈ t.mentions, v ∈ ids

theorem Ty.Leaf.over {ids : List NodeId} {t : Ty} (h : t.Leaf ids) : t.Over ids := by
  cases h with
  | flexible h => exact ⟨rfl, h, by simpa using h⟩
  | primitive h kind => exact ⟨rfl, h, by simp⟩
  | invalid h => exact ⟨rfl, h, by simp⟩

theorem Ty.Over.mono {ids ids' : List NodeId} {t : Ty} (h : t.Over ids) (hsub : ids ⊆ ids') :
    t.Over ids' :=
  ⟨h.schemeFree, hsub h.id_mem, fun v hv => hsub (h.mentions_mem v hv)⟩

theorem Inferred.leaf {e : Expr} {d : Derivation} {ids : List NodeId} (h : Inferred e d ids) :
    d.type.Leaf ids := by
  induction h with
  | name text id hspan => exact .flexible (.head _)
  | literal form text id hspan => exact .primitive (.head _) _
  | missing id => exact .invalid (.head _)
  | grouping offset _ ih => exact ih
  | unary operator span offset result arrow _ ih => exact .flexible (.head _)
  | binary offset operator span offset' result operands arrow _ _ ih ih' =>
    exact .flexible (.head _)
  | call offset arguments span result arrow hdomain hsite _ _ _ ih ihs =>
    cases hsite with
    | fits => exact .flexible (.head _)
    | absorbs => exact .flexible (.head _)
    | clashes => exact .invalid (.head _)

namespace Ty.IsArguments

variable {types : List Ty} {domain : Ty} {extra : List NodeId}

theorem schemeFree (h : Ty.IsArguments types domain extra)
    (htypes : ∀ t ∈ types, t.schemeFree = true) : domain.schemeFree = true := by
  cases h with
  | none i => rfl
  | one => exact htypes domain (.head _)
  | many i t u ts => exact schemeFree_product.2 htypes

theorem exists_of_mem_mentions (h : Ty.IsArguments types domain extra) {v : NodeId}
    (hv : v ∈ domain.mentions) : ∃ t ∈ types, v ∈ t.mentions := by
  cases h with
  | none i => simp at hv
  | one => exact ⟨domain, .head _, hv⟩
  | many i t u ts => exact mem_mentions_product.1 hv

/-- The type of an argument list is found in the same way after a substitution. -/
theorem substitute (h : Ty.IsArguments types domain extra) (A : NodeId → Ty) :
    Ty.IsArguments (types.map (Ty.substitute A)) (domain.substitute A) extra := by
  cases h with
  | none i =>
    rw [substitute_primitive]
    exact .none i
  | one => exact .one _
  | many i t u ts =>
    rw [substitute_product]
    exact .many i _ _ _

end Ty.IsArguments

/-- The uses of an identifier in a call: the callee's, then those of the arguments. -/
theorem Derivation.get_inheritedRequirements (callee : Placed Derivation)
    (arguments : List (Placed Derivation)) (token : Ident) :
    (inheritedRequirements callee arguments).get token
      = callee.item.requirements.get token
        ++ arguments.flatMap fun a => a.item.requirements.get token := by
  rw [inheritedRequirements]
  -- the uses so far are the accumulator of the fold
  generalize callee.item.requirements = r
  induction arguments generalizing r with
  | nil => simp
  | cons a arguments ih =>
    rw [List.foldl_cons, ih, Requirements.get_append, List.flatMap_cons, List.append_assoc]

/-- What holds of every use in the parts of a call holds of what the call inherits. -/
theorem Derivation.each_inheritedRequirements {P : Ident → Ty → Prop} {callee : Placed Derivation}
    {arguments : List (Placed Derivation)} :
    (inheritedRequirements callee arguments).Each P ↔
      callee.item.requirements.Each P ∧ ∀ a ∈ arguments, a.item.requirements.Each P := by
  simp only [Requirements.Each, get_inheritedRequirements, List.mem_append, List.mem_flatMap]
  constructor
  · intro h
    exact ⟨fun token t ht => h token t (.inl ht),
      fun a ha token t ht => h token t (.inr ⟨a, ha, ht⟩)⟩
  · rintro ⟨h, hargs⟩ token t (ht | ⟨a, ha, ht⟩)
    · exact h token t ht
    · exact hargs a ha token t ht

/-! ## The outcome of a call -/

/-- A part's own type has a place, at the start of the part if nowhere else. -/
theorem Derivation.ne_nil_of_ownSpans? {part : Placed Derivation} {places : List Span}
    (h : ownSpans? part = some places) : places ≠ [] := by
  rw [ownSpans?] at h
  obtain ⟨spans, -, h⟩ := Option.bind_eq_some_iff.1 h
  split at h
  · obtain ⟨start, -, h⟩ := Option.bind_eq_some_iff.1 h
    cases h
    exact List.cons_ne_nil _ _
  · rename_i hne
    cases h
    simpa using hne

/-- What is reported wherever a part's own type comes from is reported somewhere. -/
theorem Derivation.atEach_ne_nil_of_ownSpans? {part : Placed Derivation} {places : List Span}
    (h : ownSpans? part = some places) (category : Category) (message : String) (other : Span) :
    Diagnostic.atEach category message other places ≠ [] := by
  rw [Diagnostic.atEach, ne_eq, List.map_eq_nil_iff]
  exact ne_nil_of_ownSpans? h

namespace Substitution

/-- A variable that stands for itself leaves no record. -/
theorem origins_expand_of_unbound {s : Substitution} {w : NodeId} {n : ℕ} {r : Resolved}
    (hw : s.find? w = some (.unbound w)) (hr : s.expand n w = some r) : r.origins = [] := by
  cases n with
  | zero => cases hr
  | succ n =>
    rw [expand, hw] at hr
    simp only [↓reduceIte, Option.some.injEq] at hr
    rw [← hr]

/-- The store of a call whose callee is a variable. -/
theorem acyclic_assign {v : NodeId} {t : Ty} (hv : v ∉ t.mentions) :
    (Substitution.empty.assign v t).Acyclic := by
  intro w hw
  -- the one entry is that of `v`
  have hdom : ∀ x y, (Substitution.empty.assign v t).Refers x y → x = v ∧ y ∈ t.mentions := by
    rintro x y ⟨e, he, hy⟩
    rcases get?_assign_cases he with he | ⟨rfl, rfl⟩
    · cases he
    · exact ⟨rfl, hy⟩
  -- a chain of references has one step, and that one leads away from `v`
  obtain ⟨x, hfirst, -⟩ := Relation.TransGen.head'_iff.1 hw
  obtain ⟨y, -, hlast⟩ := Relation.TransGen.tail'_iff.1 hw
  obtain ⟨rfl, -⟩ := hdom _ _ hfirst
  exact hv (hdom _ _ hlast).2

theorem image_empty : Substitution.empty.image = Ty.flexible :=
  funext fun _ => acyclic_empty.image_of_none rfl

/-- Resolving through the store of such a call replaces one variable. -/
theorem image_assign {v : NodeId} {t : Ty} (hv : v ∉ t.mentions) (ht : t.schemeFree = true) :
    (Substitution.empty.assign v t).image = Ty.only v t := by
  have hacyclic := acyclic_assign hv
  have hother : ∀ w, w ≠ v → (Substitution.empty.assign v t).image w = .flexible w := by
    intro w hw
    refine hacyclic.image_of_none ?_
    rw [get?_assign_of_ne _ _ hw]
    rfl
  have hself : t ≠ .flexible v := by
    rintro rfl
    simp at hv
  funext w
  refine Ty.only_elim (P := (Substitution.image _ w = ·)) (fun hw => ?_) (hother w)
  -- the entry of `v` is `t`, in which no variable is bound
  obtain ⟨e, he, htarget⟩ := get?_assign_self (s := .empty) hself
  rw [hw, hacyclic.image_eq he, htarget]
  exact Ty.substitute_self ht fun x hx => hother x fun h => hv (h ▸ hx)

/-- The store of such a call records the identity of the function type and nothing else. -/
theorem eq_of_mem_origins_assign {v w arrow id : NodeId} {domain codomain source : Ty}
    (hfresh : v ∉ (Ty.arrow arrow domain codomain).mentions) {n : ℕ} {r : Resolved}
    (hr : (Substitution.empty.assign v (.arrow arrow domain codomain)).expand n w = some r)
    (hmem : (id, source) ∈ r.origins) : id = arrow := by
  have hunbound : ∀ x, x ≠ v →
      (Substitution.empty.assign v (.arrow arrow domain codomain)).find? x = some (.unbound x) :=
    fun x hx => find?_of_none ((get?_assign_of_ne _ _ hx).trans rfl)
  by_cases hw : w = v
  · -- the variable was expanded to the arrow, and nothing inside the arrow was
    subst hw
    have hget : (Substitution.empty.assign w (.arrow arrow domain codomain)).get? w
        = some (.bound (.arrow arrow domain codomain)) := Table.get?_upsert_self _ _ _
    cases n with
    | zero => cases hr
    | succ n =>
      rw [expand, find?_of_bound hget] at hr
      obtain ⟨inner, hinner, hr⟩ := Option.bind_eq_some_iff.1 hr
      cases hr
      rcases List.mem_append.1 hmem with hmem | hmem
      · obtain ⟨x, hx, r, hr, hmem⟩ := Ty.exists_of_mem_origins hinner hmem
        have hxw : x ≠ w := fun h => hfresh (h ▸ hx)
        rw [origins_expand_of_unbound (hunbound x hxw) hr] at hmem
        cases hmem
      · obtain ⟨rfl, -⟩ := Prod.mk.inj (List.mem_singleton.1 hmem)
        rw [Ty.applyWith] at hinner
        obtain ⟨d', -, hinner⟩ := Option.bind_eq_some_iff.1 hinner
        obtain ⟨c', -, hinner⟩ := Option.bind_eq_some_iff.1 hinner
        cases hinner
        rfl
  · rw [origins_expand_of_unbound (hunbound w hw) hr] at hmem
    cases hmem

end Substitution

namespace CallSite

variable {inherited : Requirements} {result expected : Ty} {s : Substitution} {site : CallSite}

/-- A call that fits resolves everything through its store, and its records are those of expanded
variables. -/
theorem exists_fitting? (hs : s.Acyclic) (inherited : Requirements) (result expected : Ty) :
    ∃ origins : Origins,
      (∀ id source, origins.get? id = some source →
        ∃ w r, s.expand (s.size + 1) w = some r ∧ (id, source) ∈ r.origins) ∧
      fitting? inherited result expected s = some
        { type := result.substitute s.image
          functionType := expected.substitute s.image
          requirements := inherited.mapTypes (Ty.substitute s.image)
          substitution := s
          origins
          diagnostics := [] } := by
  obtain ⟨replaced, hreplaced, hrecords⟩ := Requirements.substitute?_eq hs inherited
  obtain ⟨type, htype, htypeEq, htypeRecords⟩ := hs.applyTo?_eq result
  obtain ⟨function, hfunction, hfunctionEq, hfunctionRecords⟩ := hs.applyTo?_eq expected
  -- the call keeps the records of its uses, of its result and of the function type
  refine ⟨Origins.ofResolved (replaced ++ [type, function]), fun id source hget => ?_, ?_⟩
  · have hmem := Table.mem_of_get?_ofList hget
    simp only [List.flatMap_append, List.flatMap_cons, List.flatMap_nil, List.append_nil,
      List.mem_append] at hmem
    rcases hmem with hmem | hmem | hmem
    · exact hrecords _ hmem
    · obtain ⟨w, -, hrest⟩ := htypeRecords _ hmem
      exact ⟨w, hrest⟩
    · obtain ⟨w, -, hrest⟩ := hfunctionRecords _ hmem
      exact ⟨w, hrest⟩
  · rw [fitting?, hreplaced, ← htypeEq, ← hfunctionEq]
    simp only [htype, hfunction, Option.bind_eq_bind, Option.bind_some, Option.pure_def]

/-- A call that fits reports nothing. -/
theorem diagnostics_fitting? (h : fitting? inherited result expected s = some site) :
    site.diagnostics = [] := by
  obtain ⟨replaced, -, h⟩ := Option.bind_eq_some_iff.1 h
  obtain ⟨type, -, h⟩ := Option.bind_eq_some_iff.1 h
  obtain ⟨function, -, h⟩ := Option.bind_eq_some_iff.1 h
  cases h
  rfl

variable {arrow r : NodeId} {domain : Ty}

/-- A variable as callee becomes the expected function type. -/
theorem settles_flexible {v : NodeId} (hdomain : domain.schemeFree = true)
    (hfresh : v ∉ (Ty.arrow arrow domain (.flexible r)).mentions)
    (hsite : fitting? inherited (.flexible r) (.arrow arrow domain (.flexible r))
      (Substitution.empty.assign v (.arrow arrow domain (.flexible r))) = some site) :
    site.Settles inherited r arrow domain (.flexible v) := by
  have hacyclic := Substitution.acyclic_assign hfresh
  have himage := Substitution.image_assign hfresh (by simpa using hdomain)
  obtain ⟨origins, hrecords, hfits⟩ := exists_fitting? hacyclic inherited (.flexible r)
    (.arrow arrow domain (.flexible r))
  obtain rfl := Option.some.inj (hfits.symm.trans hsite)
  have hne : r ≠ v := by
    rintro rfl
    simp at hfresh
  have hexpected : (Ty.arrow arrow domain (.flexible r)).substitute
      (Ty.only v (.arrow arrow domain (.flexible r))) = .arrow arrow domain (.flexible r) := by
    refine Ty.substitute_self (by simpa using hdomain) fun w hw => ?_
    exact Ty.only_of_ne (fun h : w = v => hfresh (h ▸ hw)) _
  have hresult : (Ty.flexible r).substitute (Ty.only v (.arrow arrow domain (.flexible r)))
      = .flexible r := by
    rw [Ty.substitute_flexible, Ty.only_of_ne hne]
  -- the callee's variable occurs in neither, so that the result and the function type stay
  rw [himage, hresult, hexpected]
  refine .fits rfl _ (fun id source hget => ?_) hacyclic
  obtain ⟨w, res, hres, hmem⟩ := hrecords id source hget
  exact Substitution.eq_of_mem_origins_assign hfresh hres hmem

/-- An invalid type as callee takes any arguments. -/
theorem settles_invalid {i : NodeId} (hdomain : domain.schemeFree = true)
    (hsite : fitting? inherited (.flexible r) (.arrow arrow domain (.flexible r)) .empty
      = some site) : site.Settles inherited r arrow domain (.invalid i) := by
  obtain ⟨origins, hrecords, hfits⟩ := exists_fitting? Substitution.acyclic_empty inherited
    (.flexible r) (.arrow arrow domain (.flexible r))
  obtain rfl := Option.some.inj (hfits.symm.trans hsite)
  have hexpected : (Ty.arrow arrow domain (.flexible r)).substitute Ty.flexible
      = .arrow arrow domain (.flexible r) :=
    Ty.substitute_self (by simpa using hdomain) fun _ _ => rfl
  rw [Substitution.image_empty, hexpected, Ty.substitute_flexible]
  refine .absorbs rfl _ (fun id => ?_) Substitution.acyclic_empty
  -- a record would come from a variable that is bound, and the store is empty
  by_contra hsome
  obtain ⟨source, hget⟩ := Option.ne_none_iff_exists'.1 hsome
  obtain ⟨w, res, hres, hmem⟩ := hrecords id source hget
  rw [Substitution.origins_expand_of_unbound (Substitution.find?_of_none rfl) hres] at hmem
  cases hmem

/-- A primitive type as callee is reported. -/
theorem settles_primitive {i : NodeId} {kind : Primitive} {callee : Placed Derivation}
    {span : Span} {e : UnifyError}
    (hsite : clashing? inherited callee span (.flexible r) domain
      (.arrow arrow domain (.flexible r)) e = some site) :
    site.Settles inherited r arrow domain (.primitive i kind) := by
  obtain ⟨places, hplaces, hsite⟩ := Option.bind_eq_some_iff.1 hsite
  cases hsite
  -- there is one diagnostic per place of the callee's type
  exact .clashes rfl (Derivation.atEach_ne_nil_of_ownSpans? hplaces _ _ _)

/-- What comes of unifying a callee whose type is a leaf with the expected function type. -/
inductive Expects (expected : Ty) : Ty → Except UnifyError Substitution → Prop
  | binds (v : NodeId) : Expects expected (.flexible v) (.ok (Substitution.empty.assign v expected))
  | absorbs (i : NodeId) : Expects expected (.invalid i) (.ok .empty)
  | clashes (i : NodeId) (kind : Primitive) (found found' : Ty) :
      Expects expected (.primitive i kind) (.error (.mismatch found found'))

/-- A leaf and a function type are unified in one step. -/
theorem exists_unify?_leaf {c : Ty} {ids : List NodeId} (hc : c.Leaf ids) (arrow r : NodeId)
    (domain : Ty) :
    ∃ attempt, Substitution.empty.unify? c (.arrow arrow domain (.flexible r)) = some attempt ∧
      Expects (.arrow arrow domain (.flexible r)) c attempt.result := by
  cases hc with
  | @flexible v hv =>
    refine ⟨_, Substitution.unify?_eq_some_iff.2 (.bind (by simp [Ty.alike]) (.left v _)
      (Substitution.find?_of_none rfl) rfl (.done _)), .binds v⟩
  | invalid h =>
    exact ⟨_, Substitution.unify?_eq_some_iff.2 (.absorb (by simp [Ty.alike]) rfl (.done _)),
      .absorbs _⟩
  | primitive h kind =>
    exact ⟨_, Substitution.unify?_eq_some_iff.2 (.clash [] (by simp [Ty.alike]) rfl
      (Substitution.acyclic_empty.resolve?_eq _) (Substitution.acyclic_empty.resolve?_eq _)),
      .clashes _ _ _ _⟩

/-- What a call makes of a callee whose type is a leaf, and what it reports. -/
theorem settles_of_unify? {ids : List NodeId} {callee : Placed Derivation} {span : Span}
    {attempt : Attempt} (hc : callee.item.type.Leaf ids) (hdomain : domain.schemeFree = true)
    (hfresh : ∀ v ∈ ids, v ∉ (Ty.arrow arrow domain (.flexible r)).mentions)
    (hattempt : Substitution.empty.unify? callee.item.type (.arrow arrow domain (.flexible r))
      = some attempt)
    (hsite : match attempt.result with
      | .ok s => fitting? inherited (.flexible r) (.arrow arrow domain (.flexible r)) s = some site
      | .error e => clashing? inherited callee span (.flexible r) domain
          (.arrow arrow domain (.flexible r)) e = some site) :
    site.Settles inherited r arrow domain callee.item.type ∧ site.Reports callee span := by
  -- a unification takes one course only
  obtain ⟨attempt', hattempt', hexpects⟩ := exists_unify?_leaf hc arrow r domain
  obtain rfl : attempt' = attempt := Option.some.inj (hattempt'.symm.trans hattempt)
  have hmentioned : ∀ v, callee.item.type = .flexible v → v ∈ ids := by
    intro v hv
    rw [hv] at hc
    cases hc with | flexible h => exact h
  rw [Reports]
  generalize callee.item.type = c at hexpects hmentioned ⊢
  generalize attempt'.result = outcome at hexpects hsite
  cases hexpects with
  | binds v =>
    exact ⟨settles_flexible hdomain (hfresh v (hmentioned v rfl)) hsite, diagnostics_fitting? hsite⟩
  | absorbs i => exact ⟨settles_invalid hdomain hsite, diagnostics_fitting? hsite⟩
  | clashes i kind found found' =>
    refine ⟨settles_primitive hsite, ?_⟩
    obtain ⟨places, hplaces, hsite⟩ := Option.bind_eq_some_iff.1 hsite
    cases hsite
    exact ⟨_, places, hplaces, rfl⟩

end CallSite

end CoContextual
