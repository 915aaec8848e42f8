import CoContextual.Proofs.Expression.Identities
import CoContextual.Proofs.Expression.Pool

/-!
# The uses of an expression

What an expression requires of an identifier has one entry per occurrence, in the order in which
the rules meet the occurrences, and the identity of each entry leads back to the one place where
the identifier stands.

- `Expr.occurrences?`: the occurrences of identifiers, read off the expression alone;
- `Inferred.traced`: the entries of a derivation and the places its search finds for them;
- `Session.uses_traced`: the same along a session, and in the statements made of its derivations.

A call renames: the entry for its callee takes the identity of the function type that the call
expects, and the search finds that type where it found the callee's. All other entries keep the
identities they had, and since no identity is drawn twice the search in one part of an expression
finds nothing that belongs to another.
-/

namespace CoContextual

/-! ## Occurrences -/

/-- A place where an identifier is used. -/
structure Occurrence where
  /-- The identifier. -/
  token : Ident
  /-- Where it stands. -/
  span : Span

namespace Occurrence

/-- The occurrence seen from an origin that lies `offset` earlier. -/
def shift? (o : Occurrence) (offset : Offset) : Option Occurrence :=
  (o.span.shift? offset).map fun span => ⟨o.token, span⟩

/-- Where `token` stands, occurrence by occurrence. -/
def spansOf (token : Ident) (occurrences : List Occurrence) : List Span :=
  (occurrences.filter (·.token = token)).map span

@[simp]
theorem spansOf_nil (token : Ident) : spansOf token [] = [] := rfl

theorem spansOf_append (token : Ident) (l l' : List Occurrence) :
    spansOf token (l ++ l') = spansOf token l ++ spansOf token l' := by
  rw [spansOf, List.filter_append, List.map_append]
  rfl

theorem spansOf_cons (token : Ident) (o : Occurrence) (l : List Occurrence) :
    spansOf token (o :: l) = if o.token = token then o.span :: spansOf token l
      else spansOf token l := by
  rw [spansOf, List.filter_cons]
  simp only [decide_eq_true_eq]
  split <;> rfl

end Occurrence

namespace Expr

mutual

/-- The occurrences of identifiers in an expression, relative to it: those in operands before the
operator, from left to right, and those in a callee before those in the arguments. There is no
answer if a position outgrows its word. -/
def occurrences? : Expr → Option (List Occurrence)
  | atom (.name text) => do return [⟨.name text, ← Span.ofText? text⟩]
  | atom (.literal _ _) => some []
  | missing => some []
  | grouping inner => occurrencesIn? inner
  | unary operator span operand => do
    return (← occurrencesIn? operand) ++ [⟨.operator operator, span⟩]
  | binary lhs operator span rhs => do
    return (← occurrencesIn? lhs) ++ (← occurrencesIn? rhs) ++ [⟨.operator operator, span⟩]
  | call callee arguments _ => do
    return (← occurrencesIn? callee) ++ (← occurrencesInAll? arguments)

/-- The occurrences in a part, relative to the whole. -/
def occurrencesIn? : Placed Expr → Option (List Occurrence)
  | ⟨offset, part⟩ => do (← occurrences? part).mapM fun o => o.shift? offset

/-- The occurrences in several parts, relative to the whole. -/
def occurrencesInAll? : List (Placed Expr) → Option (List Occurrence)
  | [] => some []
  | part :: parts => do return (← occurrencesIn? part) ++ (← occurrencesInAll? parts)

end

end Expr

/-! ## Searches -/

/-- Joins what two searches find. -/
def both (search search' : NodeId → Option (List Span)) (id : NodeId) : Option (List Span) := do
  return (← search id) ++ (← search' id)

/-- The search finds one place for each of the types, in this order. -/
def Traces (search : NodeId → Option (List Span)) (types : List Ty) (spans : List Span) : Prop :=
  List.Forall₂ (fun t span => search t.id = some [span]) types spans

theorem eq_some_of_both {search search' : NodeId → Option (List Span)} {id : NodeId}
    {spans : List Span} (h : both search search' id = some spans) (h' : search' id = some []) :
    search id = some spans := by
  obtain ⟨found, hfound, h⟩ := Option.bind_eq_some_iff.1 h
  rw [h', Option.bind_eq_bind, Option.bind_some, List.append_nil] at h
  rwa [hfound]

namespace Traces

variable {search search' : NodeId → Option (List Span)} {types types' : List Ty}
  {spans spans' : List Span}

theorem append (h : Traces search types spans) (h' : Traces search types' spans') :
    Traces search (types ++ types') (spans ++ spans') := by
  induction h with
  | nil => exact h'
  | cons hone _ ih => exact .cons hone ih

/-- Types whose identities change may be traced by another search. -/
theorem map (h : Traces search types spans) {f : Ty → Ty}
    (hf : ∀ t ∈ types, ∀ span, search t.id = some [span] → search' (f t).id = some [span]) :
    Traces search' (types.map f) spans := by
  induction h with
  | nil => exact .nil
  | cons hone _ ih =>
    exact .cons (hf _ (.head _) _ hone) (ih fun t ht => hf t (.tail _ ht))

theorem imp (h : Traces search types spans)
    (hsearch : ∀ t ∈ types, ∀ span, search t.id = some [span] → search' t.id = some [span]) :
    Traces search' types spans := by
  rw [← List.map_id types]
  exact h.map hsearch

/-- Two searches that find nothing for each other's types trace the types of both. -/
theorem both (h : Traces search types spans) (h' : Traces search' types' spans')
    (hleft : ∀ t ∈ types', search t.id = some []) (hright : ∀ t ∈ types, search' t.id = some []) :
    Traces (both search search') (types ++ types') (spans ++ spans') := by
  refine (h.imp ?_).append (h'.imp ?_)
  · intro t ht span hspan
    simp [CoContextual.both, hspan, hright t ht]
  · intro t ht span hspan
    simp [CoContextual.both, hspan, hleft t ht]

/-- A search in a part finds the same places as the part itself, seen from the whole. -/
theorem shift {token : Ident} {occurrences occurrences' : List Occurrence} {offset : Offset}
    (h : Traces search types (Occurrence.spansOf token occurrences))
    (hshift : (occurrences.mapM fun o => o.shift? offset) = some occurrences')
    (hsearch : ∀ id span, search id = some [span] →
      search' id = (span.shift? offset).map fun span => [span]) :
    Traces search' types (Occurrence.spansOf token occurrences') := by
  induction occurrences generalizing types occurrences' with
  | nil =>
    cases hshift
    cases h
    exact .nil
  | cons o occurrences ih =>
    rw [List.mapM_cons] at hshift
    obtain ⟨o', ho, hshift⟩ := Option.bind_eq_some_iff.1 hshift
    obtain ⟨rest, hrest, hshift⟩ := Option.bind_eq_some_iff.1 hshift
    cases hshift
    obtain ⟨span, hspan, rfl⟩ := Option.map_eq_some_iff.1 ho
    rw [Occurrence.spansOf_cons] at h ⊢
    dsimp only
    -- occurrences of other identifiers are shifted too, but take no part in the tracing
    split at h
    · rename_i htoken
      rw [if_pos htoken]
      obtain ⟨t, types, hone, hothers, rfl⟩ := List.forall₂_cons_right_iff.1 h
      refine .cons ?_ (ih hothers hrest)
      rw [hsearch _ _ hone, hspan]
      rfl
    · rename_i htoken
      rw [if_neg htoken]
      exact ih h hrest

end Traces

/-! ## Where a search leads -/

/-- Replacing a variable keeps the identities of all other types. -/
theorem Ty.id_substitute_only {t u : Ty} {v : NodeId} (ht : t.schemeFree = true)
    (hne : t ≠ .flexible v) : (t.substitute (Ty.only v u)).id = t.id := by
  cases t with
  | primitive => rw [substitute_primitive]
  | arrow =>
    rw [substitute_arrow]
    rfl
  | product =>
    rw [substitute_product]
    rfl
  | invalid => rw [substitute_invalid]
  | scheme => cases ht
  | var w =>
    cases w with
    | flexible w =>
      have hw : w ≠ v := by
        rintro rfl
        exact hne rfl
      rw [substitute_flexible, only_of_ne hw]
    | rigid w => rw [substitute_rigid]

namespace Operation

variable {o : Operation} {id : NodeId} {ids : List NodeId}

theorem owns_operatorType (o : Operation) : o.owns o.operatorType.id = true := by simp [owns]

theorem not_owns (hid : id ∈ ids) (htype : o.type.id ∉ ids) (hoperator : o.operatorType.id ∉ ids) :
    ¬ o.owns id = true := by
  simp only [owns, Bool.or_eq_true, decide_eq_true_eq]
  rintro (rfl | rfl)
  · exact htype hid
  · exact hoperator hid

end Operation

namespace Derivation

variable {d : Derivation} {id : NodeId} {span : Span} {callee : Placed Derivation}
  {arguments : List (Placed Derivation)} {site : CallSite}

theorem spansIn?_of_nil (offset : Offset) (h : d.spansFor? id = some []) :
    spansIn? ⟨offset, d⟩ id = some [] := by
  rw [spansIn?, h]
  rfl

theorem spansIn?_of_singleton (offset : Offset) (h : d.spansFor? id = some [span]) :
    spansIn? ⟨offset, d⟩ id = (span.shift? offset).map fun span => [span] := by
  rw [spansIn?, h]
  show Span.shiftAll? [span] offset = _
  rw [Span.shiftAll?, List.mapM_cons]
  cases span.shift? offset <;> rfl

theorem spansInAll?_of_nil {parts : List (Placed Derivation)}
    (h : ∀ p ∈ parts, spansIn? p id = some []) : spansInAll? parts id = some [] := by
  induction parts with
  | nil => rw [spansInAll?]
  | cons p parts ih =>
    rw [spansInAll?, h p (.head _), ih fun q hq => h q (.tail _ hq)]
    rfl

/-- A call looks for most identities in its parts. -/
theorem spansFor?_call_of_not_owned (hown : site.owns id = false)
    (horigins : site.origins.get? id = none) :
    (call site callee arguments).spansFor? id
      = both (spansIn? callee) (spansInAll? arguments) id := by
  simp only [spansFor?, throughOrigins, hown, horigins]
  exact bind_pure _

/-- The types of a call lead to its callee. -/
theorem spansFor?_call_of_owned (hown : site.owns id = true)
    (hspan : spansIn? callee callee.item.type.id = some [span]) :
    (call site callee arguments).spansFor? id = some [span] := by
  simp only [spansFor?, throughOrigins, hown, ↓reduceIte, hspan]
  cases site.origins.get? id <;> simp

end Derivation

namespace CallSite.Settles

variable {inherited : Requirements} {result arrow id : NodeId} {domain callee : Ty}
  {site : CallSite}

theorem owns_eq (h : site.Settles inherited result arrow domain callee) :
    site.owns id = (decide (result = id) || decide (arrow = id)) := by
  cases h <;> rfl

theorem origins_of_ne (h : site.Settles inherited result arrow domain callee) (hid : id ≠ arrow) :
    site.origins.get? id = none := by
  cases h with
  | fits hcallee s horigins =>
    by_contra hsome
    obtain ⟨source, hget⟩ := Option.ne_none_iff_exists'.1 hsome
    exact hid (horigins id source hget)
  | absorbs hcallee s horigins => exact horigins id
  | clashes hcallee hne => rfl

/-- Identities that a call did not draw are looked for in its parts. -/
theorem spansFor?_eq (h : site.Settles inherited result arrow domain callee) (hresult : id ≠ result)
    (harrow : id ≠ arrow) (part : Placed Derivation) (arguments : List (Placed Derivation)) :
    (Derivation.call site part arguments).spansFor? id
      = both (Derivation.spansIn? part) (Derivation.spansInAll? arguments) id := by
  refine Derivation.spansFor?_call_of_not_owned ?_ (h.origins_of_ne harrow)
  rw [h.owns_eq]
  simp [hresult.symm, harrow.symm]

end CallSite.Settles

/-- A derivation knows no place for an identity that was not drawn for it. -/
theorem Inferred.silent {e : Expr} {d : Derivation} {ids : List NodeId} (h : Inferred e d ids)
    {id : NodeId} (hid : id ∉ ids) : d.spansFor? id = some [] := by
  induction h with
  | name text i hspan =>
    rw [List.mem_singleton] at hid
    rw [Derivation.spansFor?]
    exact congrArg some (if_neg (Ne.symm hid))
  | literal form text i hspan =>
    rw [List.mem_singleton] at hid
    rw [Derivation.spansFor?]
    exact congrArg some (if_neg (Ne.symm hid))
  | missing i => rw [Derivation.spansFor?]
  | grouping offset _ ih =>
    rw [Derivation.spansFor?]
    exact Derivation.spansIn?_of_nil offset (ih hid)
  | unary operator span offset result arrow _ ih =>
    simp only [List.mem_cons, not_or] at hid
    rw [Derivation.spansFor?, if_neg]
    · exact Derivation.spansIn?_of_nil offset (ih hid.2.2)
    · simp [Operation.owns, Ty.id, TyVar.id, Ne.symm hid.1, Ne.symm hid.2.1]
  | binary offset operator span offset' result operands arrow _ _ ih ih' =>
    simp only [List.mem_cons, List.mem_append, not_or] at hid
    rw [Derivation.spansFor?, if_neg]
    · rw [Derivation.spansIn?_of_nil offset (ih hid.2.2.2.1),
        Derivation.spansIn?_of_nil offset' (ih' hid.2.2.2.2)]
      rfl
    · simp [Operation.owns, Ty.id, TyVar.id, Ne.symm hid.1, Ne.symm hid.2.2.1]
  | call offset arguments span result arrow hdomain hsite _ _ _ ih ihs =>
    simp only [List.mem_cons, List.mem_append, List.mem_flatMap, not_or, not_exists, not_and] at hid
    obtain ⟨hresult, -, harrow, hcallee, hargs⟩ := hid
    -- the call passes the search on to its parts
    rw [hsite.spansFor?_eq hresult harrow, both, Derivation.spansIn?_of_nil offset (ih hcallee),
      Derivation.spansInAll?_of_nil]
    · rfl
    · intro q hq
      obtain ⟨p, hp, rfl⟩ := List.mem_map.1 hq
      exact Derivation.spansIn?_of_nil p.offset (ihs p hp (hargs p hp))

section

variable {e : Expr} {d : Derivation} {ids : List NodeId} {id : NodeId}
  {arguments : List (Placed Part)}

theorem Inferred.spansIn?_of_not_mem (h : Inferred e d ids) (offset : Offset) (hid : id ∉ ids) :
    Derivation.spansIn? ⟨offset, d⟩ id = some [] :=
  Derivation.spansIn?_of_nil offset (h.silent hid)

/-- Several arguments know no place for an identity that was drawn for none of them. -/
theorem Inferred.spansInAll?_of_not_mem
    (hargs : ∀ p ∈ arguments, Inferred p.item.expr p.item.derivation p.item.ids)
    (hid : id ∉ arguments.flatMap fun p => p.item.ids) :
    Derivation.spansInAll? (arguments.map (Placed.map Part.derivation)) id = some [] := by
  refine Derivation.spansInAll?_of_nil fun q hq => ?_
  obtain ⟨p, hp, rfl⟩ := List.mem_map.1 hq
  exact (hargs p hp).spansIn?_of_not_mem _ fun hmem => hid (List.mem_flatMap.2 ⟨p, hp, hmem⟩)

/-- The entries of several arguments have identities that were drawn for these. -/
theorem Inferred.id_mem_of_mem_flatMap
    (hargs : ∀ p ∈ arguments, Inferred p.item.expr p.item.derivation p.item.ids) {token : Ident}
    {t : Ty} (ht : t ∈ arguments.flatMap fun p => p.item.derivation.requirements.get token) :
    t.id ∈ arguments.flatMap fun p => p.item.ids := by
  obtain ⟨p, hp, ht⟩ := List.mem_flatMap.1 ht
  exact List.mem_flatMap.2 ⟨p, hp, ((hargs p hp).over token t ht).id_mem⟩

end

/-! ## The ledger -/

/-- The entries of a part are traced from the whole. -/
theorem Traces.placed {d : Derivation} {e : Expr} {types : List Ty} {token : Ident}
    {occurrences : List Occurrence} {offset : Offset}
    (h : ∀ {inner}, e.occurrences? = some inner →
      Traces d.spansFor? types (Occurrence.spansOf token inner))
    (hocc : Expr.occurrencesIn? ⟨offset, e⟩ = some occurrences) :
    Traces (Derivation.spansIn? ⟨offset, d⟩) types (Occurrence.spansOf token occurrences) := by
  rw [Expr.occurrencesIn?] at hocc
  obtain ⟨inner, hinner, hshift⟩ := Option.bind_eq_some_iff.1 hocc
  exact (h hinner).shift hshift fun id span => Derivation.spansIn?_of_singleton offset

/-- The entries of several parts are traced from the whole, if no identity belongs to two of the
parts. -/
theorem Traces.placedAll {arguments : List (Placed Part)} {token : Ident}
    {occurrences : List Occurrence}
    (hargs : ∀ p ∈ arguments, Inferred p.item.expr p.item.derivation p.item.ids)
    (hnodup : (arguments.flatMap fun p => p.item.ids).Nodup)
    (h : ∀ p ∈ arguments, ∀ {inner}, p.item.expr.occurrences? = some inner →
      Traces p.item.derivation.spansFor? (p.item.derivation.requirements.get token)
        (Occurrence.spansOf token inner))
    (hocc : Expr.occurrencesInAll? (arguments.map (Placed.map Part.expr)) = some occurrences) :
    Traces (Derivation.spansInAll? (arguments.map (Placed.map Part.derivation)))
      (arguments.flatMap fun p => p.item.derivation.requirements.get token)
      (Occurrence.spansOf token occurrences) := by
  induction arguments generalizing occurrences with
  | nil =>
    rw [List.map_nil, Expr.occurrencesInAll?] at hocc
    cases hocc
    exact .nil
  | cons p arguments ih =>
    rw [List.map_cons, Expr.occurrencesInAll?] at hocc
    obtain ⟨first, hfirst, hocc⟩ := Option.bind_eq_some_iff.1 hocc
    obtain ⟨rest, hrest, hocc⟩ := Option.bind_eq_some_iff.1 hocc
    cases hocc
    rw [List.flatMap_cons, List.nodup_append'] at hnodup
    obtain ⟨-, hnodup, hdisjoint⟩ := hnodup
    have hone := Traces.placed (h p (.head _)) hfirst
    have hothers := ih (fun q hq => hargs q (.tail _ hq)) hnodup (fun q hq => h q (.tail _ hq))
      hrest
    rw [List.flatMap_cons, Occurrence.spansOf_append]
    -- no identity of the first part is found in the others, or the other way round
    have hrestArgs := fun q hq => hargs q (.tail _ hq)
    refine (hone.both hothers ?_ ?_).imp fun t _ span hspan => ?_
    · intro t ht
      have hmem := Inferred.id_mem_of_mem_flatMap hrestArgs ht
      exact (hargs p (.head _)).spansIn?_of_not_mem _ fun hp => hdisjoint hp hmem
    · intro t ht
      have hmem := ((hargs p (.head _)).over token t ht).id_mem
      exact Inferred.spansInAll?_of_not_mem hrestArgs fun hq => hdisjoint hmem hq
    · rw [List.map_cons, Derivation.spansInAll?]
      exact hspan

/-- One more use, which the search finds at one more place. -/
theorem Traces.add {search search' : NodeId → Option (List Span)} {r : Requirements}
    {token token' : Ident} {occurrences : List Occurrence} {t : Ty} {span : Span}
    (h : Traces search (r.get token) (Occurrence.spansOf token occurrences))
    (hold : ∀ u ∈ r.get token, search' u.id = search u.id) (hnew : search' t.id = some [span]) :
    Traces search' ((r.add token' t).get token)
      (Occurrence.spansOf token (occurrences ++ [⟨token', span⟩])) := by
  have h' : Traces search' (r.get token) (Occurrence.spansOf token occurrences) :=
    h.imp fun u hu span hspan => (hold u hu).trans hspan
  rw [Requirements.add, Requirements.get_addAll, Occurrence.spansOf_append, Occurrence.spansOf_cons,
    Occurrence.spansOf_nil]
  by_cases htoken : token = token'
  · subst htoken
    rw [if_pos rfl, if_pos rfl]
    exact h'.append (.cons hnew .nil)
  · rw [if_neg htoken, if_neg (Ne.symm htoken), List.append_nil]
    exact h'

/-- In a call the inherited entries are traced as in its parts, the callee's under the identity of
the function type. -/
theorem CallSite.Settles.traced {inherited : Requirements} {result arrow : NodeId} {domain : Ty}
    {site : CallSite} {callee : Placed Derivation} {arguments : List (Placed Derivation)}
    {spans : List Span} {token : Ident} {ids : List NodeId}
    (h : site.Settles inherited result arrow domain callee.item.type)
    (hover : ∀ t ∈ inherited.get token, t.Over ids) (hresult : result ∉ ids) (harrow : arrow ∉ ids)
    (hargs : Derivation.spansInAll? arguments callee.item.type.id = some [])
    (hparts : Traces (both (Derivation.spansIn? callee) (Derivation.spansInAll? arguments))
      (inherited.get token) spans) :
    Traces (Derivation.call site callee arguments).spansFor? (site.requirements.get token)
      spans := by
  have hsame : ∀ t ∈ inherited.get token,
      (Derivation.call site callee arguments).spansFor? t.id
        = both (Derivation.spansIn? callee) (Derivation.spansInAll? arguments) t.id := by
    intro t ht
    refine h.spansFor?_eq ?_ ?_ callee arguments
    · exact fun hid => hresult (hid ▸ (hover t ht).id_mem)
    · exact fun hid => harrow (hid ▸ (hover t ht).id_mem)
  have howns : site.owns arrow = true := by
    rw [h.owns_eq]
    simp
  cases h with
  | @fits v hcallee s origins horigins =>
    rw [Requirements.get_mapTypes]
    refine hparts.map fun t ht span hspan => ?_
    by_cases hv : t = .flexible v
    · -- the callee's own entry: its place is now found through the function type
      subst hv
      rw [Ty.substitute_flexible, Ty.only_self]
      refine Derivation.spansFor?_call_of_owned howns ?_
      rw [hcallee] at hargs ⊢
      exact eq_some_of_both hspan hargs
    · rw [Ty.id_substitute_only (hover t ht).schemeFree hv, hsame t ht, hspan]
  | absorbs hcallee s horigins =>
    rw [Requirements.get_mapTypes]
    refine hparts.map fun t ht span hspan => ?_
    rw [Ty.substitute_self (hover t ht).schemeFree fun _ _ => rfl, hsame t ht, hspan]
  | clashes hcallee hne => exact hparts.imp fun t ht span hspan => (hsame t ht).trans hspan

section

variable {e e' : Expr} {d d' : Derivation} {ids ids' : List NodeId} {token : Ident}
  {offset offset' : Offset}

/-- In an operation on two operands the inherited entries are traced as in the operands, which have
identities of their own, and the entry of the operator comes after them. -/
theorem Inferred.traced_binary {o : Operation} {left right : List Occurrence}
    (h : Inferred e d ids) (h' : Inferred e' d' ids') (hdisjoint : ids.Disjoint ids')
    (hresult : o.type.id ∉ ids ++ ids') (harrow : o.operatorType.id ∉ ids ++ ids')
    (hrequirements : o.requirements
      = (d.requirements ++ d'.requirements).add (.operator o.operator) o.operatorType)
    (hleft : Traces (Derivation.spansIn? ⟨offset, d⟩) (d.requirements.get token)
      (Occurrence.spansOf token left))
    (hright : Traces (Derivation.spansIn? ⟨offset', d'⟩) (d'.requirements.get token)
      (Occurrence.spansOf token right)) :
    Traces (Derivation.binary o ⟨offset, d⟩ ⟨offset', d'⟩).spansFor? (o.requirements.get token)
      (Occurrence.spansOf token (left ++ right ++ [⟨.operator o.operator, o.span⟩])) := by
  have hid : ∀ t ∈ d.requirements.get token, t.id ∈ ids := fun t ht => (h.over token t ht).id_mem
  have hid' : ∀ t ∈ d'.requirements.get token, t.id ∈ ids' :=
    fun t ht => (h'.over token t ht).id_mem
  -- each search is silent about what belongs to the other operand
  have hparts : Traces
      (both (Derivation.spansIn? ⟨offset, d⟩) (Derivation.spansIn? ⟨offset', d'⟩))
      ((d.requirements ++ d'.requirements).get token)
      (Occurrence.spansOf token (left ++ right)) := by
    rw [Requirements.get_append, Occurrence.spansOf_append]
    refine hleft.both hright (fun t ht => ?_) fun t ht => ?_
    · exact h.spansIn?_of_not_mem _ fun hmem => hdisjoint hmem (hid' t ht)
    · exact h'.spansIn?_of_not_mem _ fun hmem => hdisjoint (hid t ht) hmem
  rw [hrequirements]
  refine hparts.add (fun t ht => ?_) ?_
  · have hmem : t.id ∈ ids ++ ids' := by
      rw [Requirements.get_append, List.mem_append] at ht
      exact List.mem_append.2 (ht.imp (hid t) (hid' t))
    rw [Derivation.spansFor?, if_neg (Operation.not_owns hmem hresult harrow)]
    rfl
  · rw [Derivation.spansFor?, if_pos (Operation.owns_operatorType _)]

/-- In a call the entries are traced as in the callee and in the arguments, which have identities of
their own. -/
theorem Inferred.traced_call {domain : Ty} {site : CallSite} {arguments : List (Placed Part)}
    {result arrow : NodeId} {first rest : List Occurrence}
    (hsite : site.Settles
      (Derivation.inheritedRequirements ⟨offset, d⟩ (arguments.map (Placed.map Part.derivation)))
      result arrow domain d.type)
    (h : Inferred e d ids)
    (hargs : ∀ p ∈ arguments, Inferred p.item.expr p.item.derivation p.item.ids)
    (hapart : CallSite.Apart result arrow ids arguments)
    (hcallee : Traces (Derivation.spansIn? ⟨offset, d⟩) (d.requirements.get token)
      (Occurrence.spansOf token first))
    (harguments : Traces (Derivation.spansInAll? (arguments.map (Placed.map Part.derivation)))
      (arguments.flatMap fun p => p.item.derivation.requirements.get token)
      (Occurrence.spansOf token rest)) :
    Traces
      (Derivation.call site ⟨offset, d⟩ (arguments.map (Placed.map Part.derivation))).spansFor?
      (site.requirements.get token) (Occurrence.spansOf token (first ++ rest)) := by
  -- what belongs to the callee is not found in the arguments
  have hforeign : ∀ {id}, id ∈ ids →
      Derivation.spansInAll? (arguments.map (Placed.map Part.derivation)) id = some [] :=
    fun hid => Inferred.spansInAll?_of_not_mem hargs fun hmem => hapart.disjoint hid hmem
  have hover := Derivation.inheritedRequirements_over offset h.over fun p hp => (hargs p hp).over
  refine hsite.traced (hover token) hapart.result_not_mem hapart.arrow_not_mem
    (hforeign h.leaf.over.id_mem) ?_
  rw [Derivation.get_inheritedRequirements, Occurrence.spansOf_append, List.flatMap_map]
  refine hcallee.both harguments (fun t ht => ?_) fun t ht => hforeign (h.over token t ht).id_mem
  have hmem := Inferred.id_mem_of_mem_flatMap hargs ht
  exact h.spansIn?_of_not_mem _ fun hid => hapart.disjoint hid hmem

end

/-- The entries that a derivation has for an identifier are traced to the occurrences of the
identifier. -/
theorem Inferred.traced {e : Expr} {d : Derivation} {ids : List NodeId} (h : Inferred e d ids)
    (hnodup : ids.Nodup) (token : Ident) {occurrences : List Occurrence}
    (hocc : e.occurrences? = some occurrences) :
    Traces d.spansFor? (d.requirements.get token) (Occurrence.spansOf token occurrences) := by
  induction h generalizing occurrences with
  | @name text id span hspan =>
    rw [Expr.occurrences?, hspan] at hocc
    cases hocc
    have hnone : Traces (fun _ => none) (Requirements.empty.get token)
        (Occurrence.spansOf token []) := .nil
    refine hnone.add (fun _ hu => nomatch hu) ?_
    rw [Derivation.spansFor?]
    exact congrArg some (if_pos rfl)
  | literal form text id hspan =>
    rw [Expr.occurrences?] at hocc
    cases hocc
    exact .nil
  | missing id =>
    rw [Expr.occurrences?] at hocc
    cases hocc
    exact .nil
  | @grouping e d ids offset _ ih =>
    rw [Expr.occurrences?] at hocc
    refine (Traces.placed (ih hnodup) hocc).imp fun t _ span hspan => ?_
    rw [Derivation.spansFor?, hspan]
  | @unary e d ids operator span offset result arrow h ih =>
    rw [Expr.occurrences?] at hocc
    obtain ⟨inner, hinner, hocc⟩ := Option.bind_eq_some_iff.1 hocc
    cases hocc
    simp only [List.nodup_cons, List.mem_cons, not_or] at hnodup
    obtain ⟨⟨-, hresult⟩, harrow, hnodup⟩ := hnodup
    refine (Traces.placed (ih hnodup) hinner).add (fun t ht => ?_) ?_
    · have hmem := (h.over token t ht).id_mem
      rw [Derivation.spansFor?, if_neg]
      exact Operation.not_owns hmem hresult harrow
    · rw [Derivation.spansFor?, if_pos (Operation.owns_operatorType _)]
  | @binary e e' d d' ids ids' offset operator span offset' result operands arrow h h' ih ih' =>
    rw [Expr.occurrences?] at hocc
    obtain ⟨left, hleft, hocc⟩ := Option.bind_eq_some_iff.1 hocc
    obtain ⟨right, hright, hocc⟩ := Option.bind_eq_some_iff.1 hocc
    cases hocc
    simp only [List.nodup_cons, List.mem_cons, not_or] at hnodup
    obtain ⟨⟨-, -, hresult⟩, -, harrow, hnodup⟩ := hnodup
    obtain ⟨hids, hids', hdisjoint⟩ := List.nodup_append'.1 hnodup
    exact h.traced_binary h' hdisjoint hresult harrow rfl (Traces.placed (ih hids) hleft)
      (Traces.placed (ih' hids') hright)
  | @call e d ids extra domain site offset arguments span result arrow hdomain hsite _ h hargs ih
      ihs =>
    rw [Expr.occurrences?] at hocc
    obtain ⟨first, hfirst, hocc⟩ := Option.bind_eq_some_iff.1 hocc
    obtain ⟨rest, hrest, hocc⟩ := Option.bind_eq_some_iff.1 hocc
    cases hocc
    have hapart := CallSite.Apart.of_nodup hnodup
    have hcallee := Traces.placed (ih hapart.callee_nodup) hfirst
    have harguments := Traces.placedAll hargs hapart.arguments_nodup
      (fun p hp => ihs p hp (hapart.argument_nodup hp)) hrest
    exact Inferred.traced_call hsite h hargs hapart hcallee harguments

/-! ## Along a session -/

namespace Statement

variable {d : Derivation} {e : Expr} {offset : Offset} {token : Ident} {g g' : Typer}
  {s : Statement} {spans : List Span}

/-- Returning a value keeps its entries. -/
theorem traced_of_ret (hs : Typer.ret ⟨offset, d⟩ g = .ok (s, g'))
    (h : Traces (Derivation.spansIn? ⟨offset, d⟩) (d.requirements.get token) spans) :
    Traces s.spansFor? (s.requirements.get token) spans := by
  obtain ⟨rfl, -⟩ := Typer.recordStatement_eq_ok hs
  exact h

/-- Declaring a name for a value keeps the value's entries. -/
theorem traced_of_declare {name : Ident} (hs : Typer.declare name none ⟨offset, d⟩ g = .ok (s, g'))
    (h : Traces (Derivation.spansIn? ⟨offset, d⟩) (d.requirements.get token) spans) :
    Traces s.spansFor? (s.requirements.get token) spans := by
  obtain ⟨⟨s', steps⟩, g₁, hinfer, hrest⟩ := bind_eq_ok.1 hs
  obtain ⟨u, g₂, -, hrecord⟩ := bind_eq_ok.1 hrest
  obtain ⟨rfl, -⟩ := Typer.recordStatement_eq_ok hrecord
  obtain ⟨declaration, ids, hdeclaration, hret⟩ := bind_eq_ok.1 (Typer.infer_eq_ok hinfer)
  cases hret
  obtain rfl := congrArg Prod.fst (Inference.lift_eq_ok hdeclaration)
  refine h.imp fun t _ span hspan => ?_
  show throughOrigins .empty (fun id => do return [] ++ (← Derivation.spansIn? ⟨offset, d⟩ id)) t.id
    = some [span]
  rw [throughOrigins, hspan]
  rfl

end Statement

/-- The entries that a derivation at hand has for an identifier lead one by one to the occurrences
of the identifier, in this order, and so they do in a statement made of the derivation. -/
theorem Session.uses_traced {g₀ g : Typer} {trees : List (Expr × Derivation)}
    (h : Session g₀ g trees) (hids : g₀.ids.Distinct g.ids) {e : Expr} {d : Derivation}
    (hmem : (e, d) ∈ trees) (token : Ident) :
    (∀ occurrences, e.occurrences? = some occurrences →
      Traces d.spansFor? (d.requirements.get token) (Occurrence.spansOf token occurrences)) ∧
    ∀ offset occurrences, Expr.occurrencesIn? ⟨offset, e⟩ = some occurrences →
      ∀ (g₁ g₂ : Typer) (s : Statement),
        (Typer.ret ⟨offset, d⟩ g₁ = .ok (s, g₂) ∨
          ∃ name, Typer.declare name none ⟨offset, d⟩ g₁ = .ok (s, g₂)) →
        Traces s.spansFor? (s.requirements.get token) (Occurrence.spansOf token occurrences) := by
  obtain ⟨-, ids, -, -, hinferred, hnodup⟩ := h.exists_inferred hids hmem
  refine ⟨fun occurrences hocc => hinferred.traced hnodup token hocc, ?_⟩
  intro offset occurrences hocc g₁ g₂ s hs
  have hvalue := Traces.placed (hinferred.traced hnodup token) hocc
  rcases hs with hs | ⟨name, hs⟩
  · exact Statement.traced_of_ret hs hvalue
  · exact Statement.traced_of_declare hs hvalue

/-- In `f(f)` both uses of `f` are found where they stand, the callee's through the call. -/
theorem Session.uses_traced_callee_and_argument : ∃ g d,
    Session (.ofSource (.pinnedAt 0) false) g
      [(.call ⟨.zero, .atom (.name "f")⟩ [⟨⟨0, 2⟩, .atom (.name "f")⟩] ⟨⟨0, 1⟩, ⟨0, 4⟩⟩, d)] ∧
    Traces d.spansFor? (d.requirements.get (.name "f"))
      [⟨⟨0, 0⟩, ⟨0, 1⟩⟩, ⟨⟨0, 2⟩, ⟨0, 3⟩⟩] := by
  have hstart : Session (.ofSource (.pinnedAt 0) false) _ [] := .start
  have hcallee := Session.atom (.name "f") hstart rfl
  have hargument := Session.atom (.name "f") hcallee rfl
  have hcall := Session.call ⟨.zero, _⟩ [⟨⟨0, 2⟩, _⟩] ⟨⟨0, 1⟩, ⟨0, 4⟩⟩ hargument (.swap _ _ []) rfl
  refine ⟨_, _, hcall, ?_⟩
  have huses := hcall.uses_traced (IdSource.Ascending.distinct ⟨by decide, .inr rfl⟩) (.head _)
  exact (huses (.name "f")).1 _ rfl

end CoContextual
