import CoContextual.Discharge
import CoContextual.Proofs.Expression.Failures
import CoContextual.Proofs.Uses.Raised

/-!
# Failed uses are reported where they were raised

What an expression requires is what its names and operators raised, use by use, and a failure of a
use that is kept apart is reported where the use was raised. The expressions are those that a typer
makes of names, literals, missing operands and typed leaves that require nothing
(`Derivation.Generated`), with acyclic stores; the statements are made of such an expression, with
or without an annotation (`Statement.MadeOf`).

- `Derivation.Generated.exists_lists`: the ledger is the list of raised uses;
- `Derivation.Generated.finds`: the uses that all nodes keep apart are found where they were raised;
- `Derivation.Generated.uses_anchored`: all of it, with the failures of these uses.

Not every use is kept apart. It may take on an identity that leads to an annotation, to the callee
of a call or to another use; and where several variables take on one identity, the record that is
kept may be for one that nothing goes by, so that the use is found nowhere
(`Raised.found_elsewhere`).
-/

namespace CoContextual

/-! ## The ledger, use by use -/

namespace Raised

/-- The types at which `token` is used, first use first. -/
def typesOf (token : Ident) (uses : List Raised) : List Ty :=
  (uses.filter (·.token = token)).map type

@[simp]
theorem typesOf_nil (token : Ident) : typesOf token [] = [] := rfl

theorem typesOf_cons (token : Ident) (u : Raised) (uses : List Raised) :
    typesOf token (u :: uses)
      = if u.token = token then u.type :: typesOf token uses else typesOf token uses := by
  rw [typesOf, List.filter_cons]
  simp only [decide_eq_true_eq]
  split <;> rfl

theorem typesOf_append (token : Ident) (uses uses' : List Raised) :
    typesOf token (uses ++ uses') = typesOf token uses ++ typesOf token uses' := by
  rw [typesOf, List.filter_append, List.map_append]
  rfl

theorem mem_typesOf {u : Raised} {uses : List Raised} (h : u ∈ uses) :
    u.type ∈ typesOf u.token uses :=
  List.mem_map_of_mem (List.mem_filter.2 ⟨h, by simp⟩)

variable {uses uses' : List Raised} {settle : Ty → Option Ty} {keepsApart : Ty → Ty → Prop}
  {offset : Offset}

/-- Passing uses on settles their types one by one. -/
theorem mapM_typesOf (h : uses.mapM (pass? settle keepsApart) = some uses') (token : Ident) :
    (typesOf token uses).mapM settle = some (typesOf token uses') := by
  induction uses generalizing uses' with
  | nil =>
    cases h
    rfl
  | cons u uses ih =>
    obtain ⟨u', rest, hu, hrest, rfl⟩ := mapM_cons_eq_some h
    obtain ⟨type, htype, rfl⟩ := Option.map_eq_some_iff.1 hu
    rw [typesOf_cons, typesOf_cons]
    dsimp only
    -- the identifier of a use does not change, so that both lists have an entry for it or neither
    split
    · rw [List.mapM_cons, htype, ih hrest]
      rfl
    · exact ih hrest

theorem typesOf_shift (h : (uses.mapM fun u => u.shift? offset) = some uses') (token : Ident) :
    typesOf token uses' = typesOf token uses := by
  induction uses generalizing uses' with
  | nil =>
    cases h
    rfl
  | cons u uses ih =>
    obtain ⟨u', rest, hu, hrest, rfl⟩ := mapM_cons_eq_some h
    obtain ⟨span, -, rfl⟩ := Option.map_eq_some_iff.1 hu
    rw [typesOf_cons, typesOf_cons, ih hrest]

end Raised

/-- The ledger has one entry per use, in the order of the uses, and the uses stand at some of the
places. -/
structure Lists (ledger : Ident → List Ty) (places : List Span) (uses : List Raised) : Prop where
  /-- The entries of each identifier. -/
  types : ∀ token, ledger token = Raised.typesOf token uses
  /-- Where the uses stand. -/
  spans : ∀ u ∈ uses, u.span ∈ places

namespace Lists

variable {ledger ledger' : Ident → List Ty} {places places' : List Span}
  {uses uses' : List Raised} {offset : Offset}

theorem mem (h : Lists ledger places uses) {u : Raised} (hu : u ∈ uses) : u.type ∈ ledger u.token :=
  h.types u.token ▸ Raised.mem_typesOf hu

theorem empty (places : List Span) : Lists Requirements.empty.get places [] :=
  ⟨fun _ => rfl, nofun⟩

theorem append (h : Lists ledger places uses) (h' : Lists ledger' places' uses') :
    Lists (fun token => ledger token ++ ledger' token) (places ++ places') (uses ++ uses') where
  types token := by rw [h.types, h'.types, Raised.typesOf_append]
  spans := List.forall_mem_append.2 ⟨fun u hu => List.mem_append_left _ (h.spans u hu),
    fun u hu => List.mem_append_right _ (h'.spans u hu)⟩

/-- One more use, at one more place. -/
theorem add {r : Requirements} (h : Lists r.get places uses) (token : Ident) (t : Ty)
    (span : Span) :
    Lists (r.add token t).get (span :: places) (uses ++ [⟨token, t, span, True⟩]) where
  types other := by
    rw [Requirements.add, Requirements.get_addAll, h.types, h.types, Raised.typesOf_append,
      Raised.typesOf_cons, Raised.typesOf_nil]
    dsimp only
    by_cases htoken : other = token
    · subst htoken
      rw [if_pos rfl, if_pos rfl]
    · rw [if_neg htoken, if_neg (Ne.symm htoken), List.append_nil]
  spans := List.forall_mem_append.2 ⟨fun u hu => .tail _ (h.spans u hu), by simp⟩

/-- If the places of a part fit their words, so do those of its uses. -/
theorem shift (h : Lists ledger places uses)
    (hplaces : Span.shiftAll? places offset = some places') :
    ∃ uses', (uses.mapM fun u => u.shift? offset) = some uses' ∧ Lists ledger places' uses' := by
  have hshift : ∀ u ∈ uses, ∃ span ∈ places', u.span.shift? offset = some span :=
    fun u hu => exists_mem_of_mapM hplaces (h.spans u hu)
  obtain ⟨uses', huses⟩ := exists_mapM (f := fun u : Raised => u.shift? offset) fun u hu => by
    obtain ⟨span, -, hspan⟩ := hshift u hu
    exact ⟨_, congrArg (Option.map _) hspan⟩
  refine ⟨uses', huses, fun token => ?_, fun u' hu' => ?_⟩
  · rw [h.types, Raised.typesOf_shift huses]
  · obtain ⟨u, hu, hu'⟩ := exists_of_mem_mapM huses hu'
    obtain ⟨span, hmem, hspan⟩ := hshift u hu
    rw [Raised.shift?, hspan] at hu'
    cases hu'
    exact hmem

/-- The uses that a node passes on are the entries that it settles on. -/
theorem pass {settle : Ty → Option Ty} (h : Lists ledger places uses)
    (hsettle : ∀ token, (ledger token).mapM settle = some (ledger' token))
    (keepsApart : Ty → Ty → Prop) :
    ∃ uses', uses.mapM (Raised.pass? settle keepsApart) = some uses' ∧
      Lists ledger' places uses' := by
  obtain ⟨uses', huses⟩ := exists_mapM (f := Raised.pass? settle keepsApart) fun u hu => by
    -- the use is an entry of the ledger, which is settled as a whole
    have hmem := Raised.mem_typesOf hu
    rw [← h.types] at hmem
    obtain ⟨t, -, ht⟩ := exists_mem_of_mapM (hsettle u.token) hmem
    exact ⟨_, congrArg (Option.map _) ht⟩
  refine ⟨uses', huses, fun token => ?_, fun u' hu' => ?_⟩
  · have htypes := Raised.mapM_typesOf huses token
    rw [← h.types, hsettle] at htypes
    exact Option.some.inj htypes
  · obtain ⟨u, hu, hu'⟩ := exists_of_mem_mapM huses hu'
    obtain ⟨t, -, rfl⟩ := Option.map_eq_some_iff.1 hu'
    exact h.spans u hu

end Lists

/-! ## Substituted ledgers -/

/-- Looking up a value after a traversal is looking it up before. -/
theorem Table.lookup_mapM {κ υ ω : Type} [Ord κ] {f : υ → Option ω} {l : List (κ × υ)}
    {m : List (κ × ω)} (h : l.mapM (fun e => (f e.2).map (e.1, ·)) = some m) (k : κ) :
    (lookup k l = none ∧ lookup k m = none) ∨
      ∃ v w, lookup k l = some v ∧ f v = some w ∧ lookup k m = some w := by
  induction l generalizing m with
  | nil =>
    cases h
    exact .inl ⟨rfl, rfl⟩
  | cons e l ih =>
    obtain ⟨e', rest, he, hrest, rfl⟩ := mapM_cons_eq_some h
    obtain ⟨w, hw, rfl⟩ := Option.map_eq_some_iff.1 he
    rw [lookup, lookup]
    split
    · exact .inr ⟨e.2, w, rfl, hw, rfl⟩
    · exact ih hrest

theorem Substitution.mapM_resolve? {s : Substitution} {ts : List Ty} {rs : List Resolved}
    (h : s.applyToAll? ts = some rs) : ts.mapM s.resolve? = some (rs.map Resolved.type) := by
  induction ts generalizing rs with
  | nil =>
    cases h
    rfl
  | cons t ts ih =>
    rw [applyToAll?, Ty.applyAllWith] at h
    obtain ⟨r, hr, h⟩ := Option.bind_eq_some_iff.1 h
    obtain ⟨rest, hrest, h⟩ := Option.bind_eq_some_iff.1 h
    cases h
    rw [List.mapM_cons, ih hrest, resolve?, applyTo?, hr]
    rfl

/-- Substituting in a ledger resolves its entries one by one. -/
theorem Requirements.mapM_get_of_substitute? {r r' : Requirements} {s : Substitution}
    {replaced : List Resolved} (h : r.substitute? s = some (r', replaced)) (token : Ident) :
    (r.get token).mapM s.resolve? = some (r'.get token) := by
  obtain ⟨resolved, htraverse, h⟩ := Option.map_eq_some_iff.1 h
  cases h
  rw [get, get, Table.get?_map]
  rcases Table.lookup_mapM (Table.traverse_eq_some_iff.1 htraverse) token with
    ⟨hnone, hnone'⟩ | ⟨ts, rs, hts, hrs, hrs'⟩
  · rw [Table.get?, Table.get?, hnone, hnone']
    rfl
  · rw [Table.get?, Table.get?, hts, hrs']
    exact Substitution.mapM_resolve? hrs

/-! ## Expressions -/

/-- The expressions that a typer makes of names, literals, missing operands and typed leaves that
require nothing. -/
inductive Derivation.Generated : Derivation → Prop
  | atom {a : Atom} {g g' : Typer} {d : Derivation} (h : Typer.atom a g = .ok (d, g')) :
      Generated d
  | typed (type : Ty) (span : Span) (h : type.schemeFree = true) :
      Generated (.atom type .empty span)
  | missing {g g' : Typer} {d : Derivation} (h : Typer.missing g = .ok (d, g')) : Generated d
  | grouping {inner : Placed Derivation} {g g' : Typer} {d : Derivation}
      (hinner : Generated inner.item) (h : Typer.grouping inner g = .ok (d, g')) : Generated d
  | unary {operator : String} {span : Span} {operand : Placed Derivation} {g g' : Typer}
      {d : Derivation} (hoperand : Generated operand.item)
      (h : Typer.unary operator span operand g = .ok (d, g')) : Generated d
  | binary {lhs rhs : Placed Derivation} {operator : String} {span : Span} {g g' : Typer}
      {d : Derivation} (hlhs : Generated lhs.item) (hrhs : Generated rhs.item)
      (h : Typer.binary lhs operator span rhs g = .ok (d, g')) : Generated d
  | call {callee : Placed Derivation} {arguments : List (Placed Derivation)} {span : Span}
      {g g' : Typer} {d : Derivation} (hcallee : Generated callee.item)
      (harguments : ∀ a ∈ arguments, Generated a.item)
      (h : Typer.call callee arguments span g = .ok (d, g')) : Generated d

namespace Derivation

variable {part : Placed Derivation} {parts : List (Placed Derivation)} {places : List Span}

theorem exists_lists_in (h : ∀ {places}, part.item.places? = some places →
      ∃ uses, part.item.raised? = some uses ∧ Lists part.item.requirements.get places uses)
    (hplaces : placesIn? part = some places) :
    ∃ uses, raisedIn? part = some uses ∧ Lists part.item.requirements.get places uses := by
  rw [placesIn?] at hplaces
  obtain ⟨inner, hinner, hshift⟩ := Option.bind_eq_some_iff.1 hplaces
  obtain ⟨uses, huses, hlists⟩ := h hinner
  obtain ⟨uses', huses', hlists'⟩ := hlists.shift hshift
  refine ⟨uses', ?_, hlists'⟩
  rw [raisedIn?, huses]
  exact huses'

theorem exists_lists_inAll (h : ∀ a ∈ parts, ∀ {places}, a.item.places? = some places →
      ∃ uses, a.item.raised? = some uses ∧ Lists a.item.requirements.get places uses)
    (hplaces : placesInAll? parts = some places) :
    ∃ uses, raisedInAll? parts = some uses ∧
      Lists (fun token => parts.flatMap fun a => a.item.requirements.get token) places uses := by
  induction parts generalizing places with
  | nil => exact ⟨[], by rw [raisedInAll?], fun _ => rfl, fun _ hu => nomatch hu⟩
  | cons a parts ih =>
    obtain ⟨first, rest, hfirst, hrest, rfl⟩ := placesInAll?_cons hplaces
    obtain ⟨one, hone, hlists⟩ := exists_lists_in (h a (.head _)) hfirst
    obtain ⟨others, hothers, hlists'⟩ := ih (fun b hb => h b (.tail _ hb)) hrest
    refine ⟨one ++ others, ?_, hlists.append hlists'⟩
    rw [raisedInAll?, hone, hothers]
    rfl

/-- A call settles what its parts require. -/
theorem mapM_settle?_of_ofCall {callee : Placed Derivation} {arguments : List (Placed Derivation)}
    {span : Span} {d : Derivation} {steps : List Step} {ids ids' : IdSource}
    (h : ofCall callee arguments span ids = .ok ((d, steps), ids')) :
    ∃ site, d = .call site callee arguments ∧ ∀ token,
      ((inheritedRequirements callee arguments).get token).mapM
        (site.substitution.settle? site.diagnostics) = some (site.requirements.get token) := by
  obtain ⟨n, result, arrow, extra, domain, attempt, site, -, -, -, -, hd, hsite⟩ := ofCall_eq_ok h
  refine ⟨site, hd, fun token => ?_⟩
  cases hres : attempt.result with
  | ok s =>
    rw [hres] at hsite
    obtain ⟨⟨requirements, replaced⟩, hsubstitute, hsite⟩ := Option.bind_eq_some_iff.1 hsite
    obtain ⟨type, -, hsite⟩ := Option.bind_eq_some_iff.1 hsite
    obtain ⟨functionType, -, hsite⟩ := Option.bind_eq_some_iff.1 hsite
    cases hsite
    exact Requirements.mapM_get_of_substitute? hsubstitute token
  | error e =>
    -- a call that does not fit is reported, and its parts keep what they require
    rw [hres] at hsite
    obtain ⟨places, hplaces, hsite⟩ := Option.bind_eq_some_iff.1 hsite
    cases hsite
    rw [Substitution.settle?_of_ne_nil]
    · exact mapM_some _
    · exact atEach_ne_nil_of_ownSpans? hplaces _ _ _

theorem raised?_atom_empty (type : Ty) (span : Span) :
    (atom type .empty span).raised? = some [] := by
  rw [raised?]
  rfl

theorem raised?_atom_name (text : String) (type : Ty) (span : Span) :
    (atom type (Requirements.empty.add (.name text) type) span).raised?
      = some [⟨.name text, type, span, True⟩] := by
  rw [raised?]
  show some [Raised.mk (.name text) type span (type.id = type.id)] = _
  rw [eq_self]

/-- A binary operator lists the uses in its operands, and its own last. -/
theorem exists_lists_binary {lhs rhs : Placed Derivation} {operation : Operation}
    {left right : List Span} {inLeft inRight : List Raised}
    (hinLeft : raisedIn? lhs = some inLeft) (hinRight : raisedIn? rhs = some inRight)
    (hlists : Lists lhs.item.requirements.get left inLeft)
    (hlists' : Lists rhs.item.requirements.get right inRight)
    (hrequirements : operation.requirements = (lhs.item.requirements ++ rhs.item.requirements).add
      (.operator operation.operator) operation.operatorType) :
    ∃ uses, (binary operation lhs rhs).raised? = some uses ∧
      Lists (binary operation lhs rhs).requirements.get (operation.span :: (left ++ right))
        uses := by
  have hjoined : Lists (lhs.item.requirements ++ rhs.item.requirements).get (left ++ right)
      (inLeft ++ inRight) := by
    rw [show Requirements.get _ = _ from funext (Requirements.get_append _ _)]
    exact hlists.append hlists'
  obtain ⟨passed, hpassed, hlists⟩ := hjoined.pass (fun token => mapM_some _)
    fun _ after => operation.owns after.id = false
  refine ⟨passed ++ [⟨.operator operation.operator, operation.operatorType, operation.span, True⟩],
    ?_, ?_⟩
  · rw [raised?, hinLeft, hinRight]
    simp only [Option.bind_eq_bind, Option.bind_some]
    rw [hpassed]
    rfl
  · rw [requirements, hrequirements]
    exact hlists.add _ _ _

/-- A call lists the uses in its callee and its arguments, each with the type that it settles on. -/
theorem exists_lists_call {site : CallSite} {callee : Placed Derivation}
    {arguments : List (Placed Derivation)} {first rest : List Span} {raised raisedAll : List Raised}
    (hraised : raisedIn? callee = some raised)
    (hraisedAll : raisedInAll? arguments = some raisedAll)
    (hlists : Lists callee.item.requirements.get first raised)
    (hlists' : Lists (fun token => arguments.flatMap fun a => a.item.requirements.get token) rest
      raisedAll)
    (hsettle : ∀ token, ((inheritedRequirements callee arguments).get token).mapM
      (site.substitution.settle? site.diagnostics) = some (site.requirements.get token)) :
    ∃ uses, (call site callee arguments).raised? = some uses ∧
      Lists (call site callee arguments).requirements.get (first ++ rest) uses := by
  -- the inherited entries are settled as one list, and those of the parts are pieces of it
  have hpieces : ∀ token, ∃ ts ts',
      (callee.item.requirements.get token).mapM
        (site.substitution.settle? site.diagnostics) = some ts ∧
      (arguments.flatMap fun a => a.item.requirements.get token).mapM
        (site.substitution.settle? site.diagnostics) = some ts' ∧
      site.requirements.get token = ts ++ ts' := by
    intro token
    have hone := hsettle token
    rw [get_inheritedRequirements] at hone
    exact mapM_append_eq_some hone
  choose ledger ledger' hcalleeSettle hargumentsSettle happend using hpieces
  -- callee and arguments are asked for different identities, but settled in the same way
  obtain ⟨inCallee, hinCallee, hlists⟩ := hlists.pass hcalleeSettle _
  obtain ⟨inArguments, hinArguments, hlists'⟩ := hlists'.pass hargumentsSettle _
  refine ⟨inCallee ++ inArguments, ?_, ?_⟩
  · rw [raised?, hraised, hraisedAll]
    simp only [Option.bind_eq_bind, Option.bind_some]
    rw [hinCallee, hinArguments]
    rfl
  · have hledger : (call site callee arguments).requirements.get
        = fun token => ledger token ++ ledger' token := funext happend
    rw [hledger]
    exact hlists.append hlists'

end Derivation

/-- What an expression requires is what its names and operators raised. -/
theorem Derivation.Generated.exists_lists {d : Derivation} (h : d.Generated) {places : List Span}
    (hplaces : d.places? = some places) :
    ∃ uses, d.raised? = some uses ∧ Lists d.requirements.get places uses := by
  induction h generalizing places with
  | @atom a g g' d h =>
    have hatom := Typer.infer_record_eq_ok h
    cases a with
    | name text =>
      obtain ⟨id, span, -, -, -, rfl⟩ := Derivation.ofAtom_name_eq_ok hatom
      rw [Derivation.places?] at hplaces
      cases hplaces
      exact ⟨_, Derivation.raised?_atom_name text _ span, (Lists.empty []).add _ _ _⟩
    | literal form text =>
      obtain ⟨id, span, -, -, -, rfl⟩ := Derivation.ofAtom_literal_eq_ok hatom
      exact ⟨[], Derivation.raised?_atom_empty _ span, .empty _⟩
  | typed type span h => exact ⟨[], Derivation.raised?_atom_empty type span, .empty _⟩
  | missing h =>
    have hrun := Typer.fresh_record_eq_ok h
    obtain ⟨rfl, -⟩ := Prod.mk.inj hrun
    exact ⟨[], by rw [Derivation.raised?], .empty _⟩
  | grouping hinner h ih =>
    obtain ⟨rfl, -⟩ := Typer.recordExpression_eq_ok h
    rw [Derivation.places?] at hplaces
    obtain ⟨uses, huses, hlists⟩ := Derivation.exists_lists_in ih hplaces
    refine ⟨uses, ?_, hlists⟩
    rw [Derivation.raised?, huses]
  | unary hoperand h ih =>
    have hrun := Typer.fresh_record_eq_ok h
    obtain ⟨rfl, -⟩ := Prod.mk.inj hrun
    obtain ⟨inner, hinner, rfl⟩ := Derivation.places?_unary hplaces
    obtain ⟨uses, huses, hlists⟩ := Derivation.exists_lists_in ih hinner
    obtain ⟨passed, hpassed, hlists⟩ := hlists.pass (fun token => mapM_some _) _
    refine ⟨_, ?_, hlists.add _ _ _⟩
    rw [Derivation.raised?, huses, Option.bind_eq_bind, Option.bind_some, hpassed]
    rfl
  | binary hlhs hrhs h ih ih' =>
    have hrun := Typer.fresh_record_eq_ok h
    obtain ⟨rfl, -⟩ := Prod.mk.inj hrun
    obtain ⟨left, right, hleft, hright, rfl⟩ := Derivation.places?_binary hplaces
    obtain ⟨inLeft, hinLeft, hlists⟩ := Derivation.exists_lists_in ih hleft
    obtain ⟨inRight, hinRight, hlists'⟩ := Derivation.exists_lists_in ih' hright
    exact Derivation.exists_lists_binary hinLeft hinRight hlists hlists' rfl
  | call hcallee harguments h ih ihs =>
    obtain ⟨steps, h⟩ := Typer.call_eq_ok h
    obtain ⟨site, rfl, hsettle⟩ := Derivation.mapM_settle?_of_ofCall h
    obtain ⟨first, rest, hfirst, hrest, rfl⟩ := Derivation.places?_call hplaces
    obtain ⟨raised, hraised, hlists⟩ := Derivation.exists_lists_in ih hfirst
    obtain ⟨raisedAll, hraisedAll, hlists'⟩ := Derivation.exists_lists_inAll ihs hrest
    exact Derivation.exists_lists_call hraised hraisedAll hlists hlists' hsettle

/-! ## Uses that are found -/

namespace Derivation

variable {callee : Placed Derivation} {arguments : List (Placed Derivation)} {places : List Span}
  {uses : List Raised}

/-- What the parts of generated expressions raise, they require. -/
theorem Generated.mem_requirements {part : Placed Derivation} (h : part.item.Generated)
    (hplaces : placesIn? part = some places) (huses : raisedIn? part = some uses) {u : Raised}
    (hu : u ∈ uses) : u.type ∈ part.item.requirements.get u.token := by
  obtain ⟨uses', huses', hlists⟩ := exists_lists_in h.exists_lists hplaces
  cases huses.symm.trans huses'
  exact hlists.mem hu

theorem Generated.mem_requirementsInAll (h : ∀ a ∈ arguments, a.item.Generated)
    (hplaces : placesInAll? arguments = some places) (huses : raisedInAll? arguments = some uses)
    {u : Raised} (hu : u ∈ uses) :
    u.type ∈ arguments.flatMap fun a => a.item.requirements.get u.token := by
  obtain ⟨uses', huses', hlists⟩ := exists_lists_inAll (fun a ha => (h a ha).exists_lists) hplaces
  cases huses.symm.trans huses'
  exact hlists.mem hu

/-- A call that has nothing to report has a record for each variable that alone takes on an
identity. -/
theorem get?_origins_of_ofCall_of_only {span : Span} {site : CallSite} {steps : List Step}
    {ids ids' : IdSource} {token : Ident} {v : NodeId}
    (h : ofCall callee arguments span ids = .ok ((call site callee arguments, steps), ids'))
    (hs : site.substitution.Acyclic) (hfits : site.diagnostics = [])
    (hv : .flexible v ∈ (inheritedRequirements callee arguments).get token)
    (hne : site.substitution.image v ≠ .flexible v)
    (honly : ∀ w, (site.crossing callee arguments).Replaces w (site.substitution.image v).id →
      w = v) :
    site.origins.get? (site.substitution.image v).id = some (.flexible v) := by
  obtain ⟨n, result, arrow, extra, domain, attempt, site', -, -, hdomain, -, hd, hsite⟩ :=
    ofCall_eq_ok h
  cases hd
  cases hres : attempt.result with
  | ok s =>
    rw [hres] at hsite
    exact get?_origins_of_fitting?_of_only hdomain hsite hs hv hne honly
  | error e =>
    rw [hres] at hsite
    obtain ⟨found, hfound, hsite⟩ := Option.bind_eq_some_iff.1 hsite
    cases hsite
    exact absurd hfits (atEach_ne_nil_of_ownSpans? hfound _ _ _)

/-- An operation finds the uses that it keeps apart, if its operands find theirs. -/
theorem finds_binary {operation : Operation} {lhs rhs : Placed Derivation} {left right : List Span}
    (hlhs : ∀ {places uses}, lhs.item.places? = some places → lhs.item.raised? = some uses →
      Finds lhs.item.spansFor? uses)
    (hrhs : ∀ {places uses}, rhs.item.places? = some places → rhs.item.raised? = some uses →
      Finds rhs.item.spansFor? uses)
    (hleft : placesIn? lhs = some left) (hright : placesIn? rhs = some right)
    (huses : (binary operation lhs rhs).raised? = some uses) :
    Finds (binary operation lhs rhs).spansFor? uses := by
  rw [raised?] at huses
  obtain ⟨inLeft, hinLeft, huses⟩ := Option.bind_eq_some_iff.1 huses
  obtain ⟨inRight, hinRight, huses⟩ := Option.bind_eq_some_iff.1 huses
  obtain ⟨passed, hpassed, huses⟩ := Option.bind_eq_some_iff.1 huses
  cases huses
  have hboth := (finds_spansIn? hlhs hleft hinLeft).both (finds_spansIn? hrhs hright hinRight)
    (covered_spansIn? covered hleft) (covered_spansIn? covered hright)
  refine finds_passed_operator hboth hpassed (fun id hnot => ?_) ?_
  · rw [spansFor?, if_neg (by simpa using hnot)]
    rfl
  · rw [spansFor?, if_pos (Operation.owns_operatorType _)]

/-- A call that the rule has made finds the uses that it keeps apart, if its parts find theirs. -/
theorem finds_call {span : Span} {site : CallSite} {steps : List Step} {ids ids' : IdSource}
    {first rest : List Span}
    (h : ofCall callee arguments span ids = .ok ((call site callee arguments, steps), ids'))
    (hs : site.substitution.Acyclic) (hcallee : callee.item.Generated)
    (harguments : ∀ a ∈ arguments, a.item.Generated)
    (hfinds : ∀ {places uses}, callee.item.places? = some places →
      callee.item.raised? = some uses → Finds callee.item.spansFor? uses)
    (hfindsAll : ∀ a ∈ arguments, ∀ {places uses}, a.item.places? = some places →
      a.item.raised? = some uses → Finds a.item.spansFor? uses)
    (hfirst : placesIn? callee = some first) (hrest : placesInAll? arguments = some rest)
    (huses : (call site callee arguments).raised? = some uses) :
    Finds (call site callee arguments).spansFor? uses := by
  rw [raised?] at huses
  obtain ⟨raised, hraised, huses⟩ := Option.bind_eq_some_iff.1 huses
  obtain ⟨inCallee, hinCallee, huses⟩ := Option.bind_eq_some_iff.1 huses
  obtain ⟨raisedAll, hraisedAll, huses⟩ := Option.bind_eq_some_iff.1 huses
  obtain ⟨inArguments, hinArguments, huses⟩ := Option.bind_eq_some_iff.1 huses
  cases huses
  refine finds_passed_call (finds_spansIn? hfinds hfirst hraised)
    (finds_spansInAll? hfindsAll hrest hraisedAll) (covered_spansIn? covered hfirst)
    (covered_spansInAll? (fun _ _ => covered) hrest) (fun u hu v hv hfits hne honly => ?_) hinCallee
    hinArguments
  -- what is raised in a part is required there, and the call has replaced it
  have hmem : u.type ∈ (inheritedRequirements callee arguments).get u.token := by
    rw [get_inheritedRequirements, List.mem_append]
    exact (List.mem_append.1 hu).imp (hcallee.mem_requirements hfirst hraised)
      (Generated.mem_requirementsInAll harguments hrest hraisedAll)
  exact get?_origins_of_ofCall_of_only h hs hfits (hv ▸ hmem) hne honly

end Derivation

/-- The uses that all nodes keep apart are found where they were raised. -/
theorem Derivation.Generated.finds {d : Derivation} (h : d.Generated)
    (hstores : ∀ s ∈ d.stores, s.Acyclic) {places : List Span} {uses : List Raised}
    (hplaces : d.places? = some places) (huses : d.raised? = some uses) :
    Finds d.spansFor? uses := by
  induction h generalizing places uses with
  | @atom a g g' d h =>
    have hatom := Typer.infer_record_eq_ok h
    cases a with
    | name text =>
      obtain ⟨id, span, -, -, -, rfl⟩ := Derivation.ofAtom_name_eq_ok hatom
      exact finds_atom huses
    | literal form text =>
      obtain ⟨id, span, -, -, -, rfl⟩ := Derivation.ofAtom_literal_eq_ok hatom
      exact finds_atom huses
  | typed type span h => exact finds_atom huses
  | missing h =>
    have hrun := Typer.fresh_record_eq_ok h
    obtain ⟨rfl, -⟩ := Prod.mk.inj hrun
    rw [raised?] at huses
    cases huses
    exact fun _ hu => absurd hu List.not_mem_nil
  | grouping hinner h ih =>
    obtain ⟨rfl, -⟩ := Typer.recordExpression_eq_ok h
    rw [places?] at hplaces
    rw [raised?] at huses
    rw [stores, storesIn] at hstores
    refine (finds_spansIn? (ih hstores) hplaces huses).imp fun id span hlocates => ?_
    rwa [Locates, spansFor?]
  | unary hoperand h ih =>
    have hrun := Typer.fresh_record_eq_ok h
    obtain ⟨rfl, -⟩ := Prod.mk.inj hrun
    obtain ⟨inner, hinner, -⟩ := places?_unary hplaces
    rw [stores, storesIn] at hstores
    rw [raised?] at huses
    obtain ⟨raised, hraised, huses⟩ := Option.bind_eq_some_iff.1 huses
    obtain ⟨passed, hpassed, huses⟩ := Option.bind_eq_some_iff.1 huses
    cases huses
    refine finds_passed_operator (finds_spansIn? (ih hstores) hinner hraised) hpassed
      (fun id hnot => ?_) ?_
    · rw [spansFor?, if_neg (by simpa using hnot)]
    · rw [spansFor?, if_pos (Operation.owns_operatorType _)]
  | binary hlhs hrhs h ih ih' =>
    have hrun := Typer.fresh_record_eq_ok h
    obtain ⟨rfl, -⟩ := Prod.mk.inj hrun
    obtain ⟨left, right, hleft, hright, -⟩ := places?_binary hplaces
    rw [stores, storesIn, storesIn, List.forall_mem_append] at hstores
    exact finds_binary (ih hstores.1) (ih' hstores.2) hleft hright huses
  | @call callee arguments span g g' d hcallee harguments h ih ihs =>
    obtain ⟨steps, h⟩ := Typer.call_eq_ok h
    obtain ⟨site, rfl, -⟩ := mapM_settle?_of_ofCall h
    obtain ⟨first, rest, hfirst, hrest, -⟩ := places?_call hplaces
    rw [stores, storesIn, List.forall_mem_cons, List.forall_mem_append] at hstores
    obtain ⟨hstore, hstoresIn, hstoresInAll⟩ := hstores
    exact finds_call h hstore hcallee harguments (ih hstoresIn)
      (fun a ha => ihs a ha fun s hs => hstoresInAll s (mem_storesInAll.2 ⟨a, ha, hs⟩)) hfirst hrest
      huses

/-! ## Statements -/

namespace Declaration

variable {name : Ident} {ascription : Located Ty} {declaration : Declaration} {ids ids' : IdSource}

/-- An annotation that fits is resolved in what the value requires. -/
theorem mapM_settle?_of_fitting {value : Derivation} {s : Substitution}
    (h : fitting name ascription value s ids = .ok (declaration, ids')) (token : Ident) :
    (value.requirements.get token).mapM declaration.settle?
      = some (declaration.requirements.get token) := by
  obtain ⟨declared, ids₁, -, hsettle⟩ := bind_eq_ok.1 h
  obtain ⟨⟨requirements, replaced⟩, ids₂, hunless, hquantify⟩ := bind_eq_ok.1 hsettle
  obtain ⟨binding, ids₃, -, hret⟩ := bind_eq_ok.1 hquantify
  obtain ⟨hsubstitute, -⟩ := Inference.unlessSome_eq_ok hunless
  obtain ⟨rfl, -⟩ := Prod.mk.inj (Except.ok.inj hret)
  exact Requirements.mapM_get_of_substitute? hsubstitute token

/-- An annotation that does not fit is reported. -/
theorem diagnostics_of_clashing {value : Placed Derivation}
    (h : clashing name ascription value ids = .ok (declaration, ids')) :
    declaration.diagnostics ≠ [] := by
  obtain ⟨places, ids₁, hunless, hquantify⟩ := bind_eq_ok.1 h
  obtain ⟨binding, ids₂, -, hret⟩ := bind_eq_ok.1 hquantify
  obtain ⟨hplaces, -⟩ := Inference.unlessSome_eq_ok hunless
  obtain ⟨rfl, -⟩ := Prod.mk.inj (Except.ok.inj hret)
  exact Derivation.atEach_ne_nil_of_ownSpans? hplaces _ _ _

/-- It leaves what the value requires alone. -/
theorem mapM_settle?_of_clashing {value : Placed Derivation}
    (h : clashing name ascription value ids = .ok (declaration, ids')) (token : Ident) :
    (value.item.requirements.get token).mapM declaration.settle?
      = some (declaration.requirements.get token) := by
  have hreported := diagnostics_of_clashing h
  obtain ⟨places, ids₁, hunless, hquantify⟩ := bind_eq_ok.1 h
  obtain ⟨binding, ids₂, -, hret⟩ := bind_eq_ok.1 hquantify
  obtain ⟨hplaces, -⟩ := Inference.unlessSome_eq_ok hunless
  obtain ⟨rfl, -⟩ := Prod.mk.inj (Except.ok.inj hret)
  show List.mapM (Substitution.settle? .empty _) _ = _
  rw [Substitution.settle?_of_ne_nil _ hreported]
  exact mapM_some _

end Declaration

/-- A declaration is made by one of three rules: without an annotation, with one that fits the
value, or with one that does not. -/
theorem Statement.declare_cases {name : Ident} {ascription : Option (Located TypeExpr)}
    {value : Placed Derivation} {g g' : Typer} {s : Statement}
    (h : Typer.declare name ascription value g = .ok (s, g')) :
    ∃ declaration, s = .declare declaration value ∧
      ((∃ ids ids', Declaration.unannotated name value.item ids = (declaration, ids')) ∨
        (∃ type steps store ids ids',
          Substitution.empty.unify? type.item value.item.type = some ⟨steps, .ok store⟩ ∧
          Declaration.fitting name type value.item store ids = .ok (declaration, ids')) ∨
        ∃ type ids ids', Declaration.clashing name type value ids = .ok (declaration, ids')) := by
  obtain ⟨steps, hrule⟩ := Typer.declare_eq_ok h
  cases ascription with
  | none =>
    obtain ⟨declaration, ids, hlift, hret⟩ := bind_eq_ok.1 hrule
    cases hret
    exact ⟨declaration, rfl, .inl ⟨_, _, Inference.lift_eq_ok hlift⟩⟩
  | some written =>
    obtain ⟨⟨declaration, steps'⟩, ids, hannotated, hret⟩ := bind_eq_ok.1 hrule
    cases hret
    refine ⟨declaration, rfl, .inr ?_⟩
    obtain ⟨type, ids₁, -, hrest⟩ := bind_eq_ok.1 hannotated
    obtain ⟨⟨tried, outcome⟩, ids₂, hunless, hrest⟩ := bind_eq_ok.1 hrest
    obtain ⟨hattempt, -⟩ := Inference.unlessSome_eq_ok hunless
    cases outcome with
    | ok store =>
      obtain ⟨declaration', ids₃, hfitting, hret⟩ := bind_eq_ok.1 hrest
      cases hret
      exact .inl ⟨_, _, _, _, _, hattempt, hfitting⟩
    | error e =>
      obtain ⟨declaration', ids₃, hclashing, hret⟩ := bind_eq_ok.1 hrest
      cases hret
      exact .inr ⟨_, _, _, hclashing⟩

/-- A declaration settles what its value requires. -/
theorem Statement.mapM_settle?_of_declare {name : Ident} {ascription : Option (Located TypeExpr)}
    {value : Placed Derivation} {g g' : Typer} {s : Statement}
    (h : Typer.declare name ascription value g = .ok (s, g')) :
    ∃ declaration, s = .declare declaration value ∧ ∀ token,
      (value.item.requirements.get token).mapM declaration.settle?
        = some (declaration.requirements.get token) := by
  obtain ⟨declaration, rfl, ⟨ids, ids', hmade⟩ | ⟨type, steps, store, ids, ids', -, hmade⟩ |
    ⟨type, ids, ids', hmade⟩⟩ := declare_cases h
  · obtain rfl := congrArg Prod.fst hmade
    exact ⟨_, rfl, fun token => mapM_some _⟩
  · exact ⟨declaration, rfl, Declaration.mapM_settle?_of_fitting hmade⟩
  · exact ⟨declaration, rfl, Declaration.mapM_settle?_of_clashing hmade⟩

/-- The statements that a typer makes of a value. -/
inductive Statement.MadeOf (value : Placed Derivation) : Statement → Prop
  | ret {g g' : Typer} {s : Statement} (h : Typer.ret value g = .ok (s, g')) : MadeOf value s
  | declare {name : Ident} {ascription : Option (Located TypeExpr)} {g g' : Typer} {s : Statement}
      (h : Typer.declare name ascription value g = .ok (s, g')) : MadeOf value s

/-- What a statement requires is what the names and operators in its value raised. -/
theorem Statement.MadeOf.exists_lists {value : Placed Derivation} {s : Statement}
    (h : s.MadeOf value) (hvalue : value.item.Generated) {places : List Span}
    (hplaces : Derivation.placesIn? value = some places) :
    s.value = value ∧ ∃ uses, s.raised? = some uses ∧ Lists s.requirements.get places uses := by
  obtain ⟨uses, huses, hlists⟩ := Derivation.exists_lists_in hvalue.exists_lists hplaces
  cases h with
  | ret h =>
    obtain ⟨rfl, -⟩ := Typer.recordStatement_eq_ok h
    exact ⟨rfl, uses, huses, hlists⟩
  | declare h =>
    obtain ⟨declaration, rfl, hsettle⟩ := Statement.mapM_settle?_of_declare h
    obtain ⟨passed, hpassed, hlists⟩ := hlists.pass hsettle
      (declaration.crossing value).KeepsApart
    refine ⟨rfl, passed, ?_, hlists⟩
    rw [raised?, huses]
    exact hpassed

namespace Statement

/-- The stores that a statement and the calls in it settled on. -/
def stores : Statement → List Substitution
  | declare declaration value => declaration.substitution :: value.item.stores
  | ret value => value.item.stores

variable {value : Placed Derivation} {places : List Span} {uses : List Raised}

/-- A declaration has a record for each variable that alone takes on an identity. -/
theorem get?_origins_of_declare_of_only {name : Ident} {ascription : Option (Located TypeExpr)}
    {g g' : Typer} {s : Statement} (h : Typer.declare name ascription value g = .ok (s, g')) :
    ∃ declaration, s = .declare declaration value ∧
      (declaration.substitution.Acyclic → declaration.diagnostics = [] →
        ∀ token v, .flexible v ∈ value.item.requirements.get token →
          declaration.substitution.image v ≠ .flexible v →
          (∀ w, (declaration.crossing value).Replaces w (declaration.substitution.image v).id →
            w = v) →
          declaration.origins.get? (declaration.substitution.image v).id = some (.flexible v)) := by
  obtain ⟨declaration, rfl, ⟨ids, ids', hmade⟩ | ⟨type, steps, store, ids, ids', -, hmade⟩ |
    ⟨type, ids, ids', hmade⟩⟩ := declare_cases h
  · obtain rfl := congrArg Prod.fst hmade
    refine ⟨_, rfl, fun _ _ token v _ hne => absurd ?_ hne⟩
    exact congrFun Substitution.image_empty v
  · refine ⟨declaration, rfl, fun hs _ token v hv hne honly => ?_⟩
    exact Declaration.get?_origins_of_fitting_of_only hmade hs hv hne honly
  · refine ⟨declaration, rfl, fun _ hfits => absurd hfits ?_⟩
    exact Declaration.diagnostics_of_clashing hmade

/-- The uses that all nodes keep apart are found from the statement where they were raised. -/
theorem MadeOf.finds {s : Statement} (h : s.MadeOf value) (hvalue : value.item.Generated)
    (hstores : ∀ t ∈ s.stores, t.Acyclic) (hplaces : Derivation.placesIn? value = some places)
    (huses : s.raised? = some uses) : Finds s.spansFor? uses := by
  cases h with
  | ret h =>
    obtain ⟨rfl, -⟩ := Typer.recordStatement_eq_ok h
    exact Derivation.finds_spansIn? (hvalue.finds hstores) hplaces huses
  | declare h =>
    obtain ⟨declaration, rfl, hrecord⟩ := get?_origins_of_declare_of_only h
    obtain ⟨hstore, hstoresIn⟩ := List.forall_mem_cons.1 hstores
    obtain ⟨raised, hraised, hpassed⟩ := Option.bind_eq_some_iff.1 huses
    refine finds_declare (Derivation.finds_spansIn? (hvalue.finds hstoresIn) hplaces hraised)
      (fun u hu v hv hfits hne honly => ?_) hpassed
    have hmem := hvalue.mem_requirements hplaces hraised hu
    exact hrecord hstore hfits u.token v (hv ▸ hmem) hne honly

end Statement

/-! ## Reports -/

/-- If every search ends, every failure is reported, at all places that the search finds for its
type. -/
theorem Discharge.exists_diagnostics? {search : NodeId → Option (List Span)} {places : List Span}
    (h : Covered search places) (outcome : Discharge) :
    ∃ reports, outcome.diagnostics? search = some reports ∧
      ∀ f ∈ outcome.failures, ∀ span, Locates search f.use.required.id span →
        ⟨.requirementMismatch, f.message, span, .zero⟩ ∈ reports := by
  have hfailure : ∀ f : Failure, ∃ reports, f.diagnostics? search = some reports ∧
      ∀ span, Locates search f.use.required.id span →
        ⟨.requirementMismatch, f.message, span, .zero⟩ ∈ reports := by
    intro f
    obtain ⟨spans, hspans, -⟩ := h f.use.required.id
    rw [Failure.diagnostics?, hspans]
    refine ⟨_, rfl, fun span hlocates => ?_⟩
    obtain ⟨spans', hspans', hmem⟩ := hlocates
    cases hspans.symm.trans hspans'
    rw [if_neg (by simpa using List.ne_nil_of_mem hmem)]
    exact List.mem_map_of_mem hmem
  -- failures are reported one after the other, and none is left out
  obtain ⟨reports, hreports⟩ := exists_mapM (l := outcome.failures) fun f _ =>
    let ⟨reports, hreports, _⟩ := hfailure f
    ⟨reports, hreports⟩
  refine ⟨reports.flatten, congrArg (Option.map _) hreports, fun f hf span hlocates => ?_⟩
  obtain ⟨ofFailure, hmem, heq⟩ := exists_mem_of_mapM hreports hf
  obtain ⟨reports', heq', hreported⟩ := hfailure f
  cases heq.symm.trans heq'
  exact List.mem_flatten.2 ⟨ofFailure, hmem, hreported span hlocates⟩

/-- The ledger has one entry per use, and every use that was kept apart is found where it was
raised. If the use fails when the ledger is discharged, the failure is reported there. -/
def Anchored (search : NodeId → Option (List Span)) (r : Requirements) (uses : List Raised) :
    Prop :=
  (∀ token, r.get token = Raised.typesOf token uses) ∧
  ∀ u ∈ uses, u.apart →
    (∃ spans, search u.type.id = some spans ∧ u.span ∈ spans) ∧
    ∀ outcome : Discharge, ∃ reports, outcome.diagnostics? search = some reports ∧
      ∀ f ∈ outcome.failures, f.use.token = u.token → f.use.required = u.type →
        ⟨.requirementMismatch, f.message, u.span, .zero⟩ ∈ reports

theorem Anchored.of_finds {search : NodeId → Option (List Span)} {r : Requirements}
    {places covers : List Span} {uses : List Raised} (hlists : Lists r.get places uses)
    (hfinds : Finds search uses) (hcovered : Covered search covers) : Anchored search r uses := by
  refine ⟨hlists.types, fun u hu hapart => ⟨hfinds u hu hapart, ?_⟩⟩
  intro outcome
  obtain ⟨reports, hreports, hall⟩ := outcome.exists_diagnostics? hcovered
  refine ⟨reports, hreports, fun f hf _ htype => hall f hf u.span ?_⟩
  rw [htype]
  exact hfinds u hu hapart

/-- What an expression requires is what its names and operators raised, and each use that all nodes
above it keep apart is found, and reported if it fails, where it was raised. So it is in a statement
made of the expression, with an annotation or without. -/
theorem Derivation.Generated.uses_anchored {d : Derivation} (h : d.Generated) :
    (∀ places, d.places? = some places → (∀ s ∈ d.stores, s.Acyclic) →
      ∃ uses, d.raised? = some uses ∧ Anchored d.spansFor? d.requirements uses) ∧
    ∀ offset places, Derivation.placesIn? ⟨offset, d⟩ = some places →
      ∀ s : Statement, s.MadeOf ⟨offset, d⟩ → (∀ t ∈ s.stores, t.Acyclic) →
        ∃ uses, s.raised? = some uses ∧ Anchored s.spansFor? s.requirements uses := by
  refine ⟨fun places hplaces hstores => ?_, fun offset places hplaces s hs hstores => ?_⟩
  · obtain ⟨uses, huses, hlists⟩ := h.exists_lists hplaces
    exact ⟨uses, huses, .of_finds hlists (h.finds hstores hplaces huses)
      (Derivation.covered hplaces)⟩
  -- a statement adds at most one node above its value
  · obtain ⟨hvalue, uses, huses, hlists⟩ := hs.exists_lists h hplaces
    have hfinds := hs.finds h hstores hplaces huses
    rw [← hvalue] at hplaces
    obtain ⟨covers, hcovered⟩ := Statement.exists_covered hplaces
    exact ⟨uses, huses, .of_finds hlists hfinds hcovered⟩

/-- In `let f : i32 -> i32 = h(x, y)`, where `h` takes something and a number and gives a function
from that to itself, the use of `y` has the type that `h` takes, and that of `x` stays open until
the annotation closes it. They are found through the records of the call and of the declaration. -/
theorem Derivation.Generated.uses_anchored_arguments : ∃ (x y d : Derivation) (s : Statement)
    (g₁ g₂ g₃ g₄ : Typer),
    Typer.atom (.name "x") (.ofSource (.pinnedAt 5) false) = .ok (x, g₁) ∧
    Typer.atom (.name "y") g₁ = .ok (y, g₂) ∧
    Typer.call
      ⟨.zero, .atom (.arrow 4 (.product 3 [.flexible 1, .primitive 0 .i32])
        (.arrow 2 (.flexible 1) (.flexible 1))) .empty ⟨⟨0, 0⟩, ⟨0, 1⟩⟩⟩
      [⟨⟨0, 2⟩, x⟩, ⟨⟨0, 5⟩, y⟩] ⟨⟨0, 1⟩, ⟨0, 7⟩⟩ g₂ = .ok (d, g₃) ∧
    Typer.declare (.name "f") (some ⟨.arrow (.named "i32") (.named "i32"), ⟨⟨0, 7⟩, ⟨0, 17⟩⟩⟩)
      ⟨⟨0, 20⟩, d⟩ g₃ = .ok (s, g₄) ∧
    (∀ t ∈ s.stores, t.Acyclic) ∧
    d.requirements.get (.name "y") = [.primitive 0 .i32] ∧
    s.requirements.get (.name "x") = [.primitive 10 .i32] ∧
    (∃ spans, d.spansFor? 0 = some spans ∧ ⟨⟨0, 5⟩, ⟨0, 6⟩⟩ ∈ spans) ∧
    ∃ spans, s.spansFor? 10 = some spans ∧ ⟨⟨0, 22⟩, ⟨0, 23⟩⟩ ∈ spans := by
  let callee : Placed Derivation :=
    ⟨.zero, .atom (.arrow 4 (.product 3 [.flexible 1, .primitive 0 .i32])
      (.arrow 2 (.flexible 1) (.flexible 1))) .empty ⟨⟨0, 0⟩, ⟨0, 1⟩⟩⟩
  let arguments : Derivation → Derivation → List (Placed Derivation) :=
    fun x y => [⟨⟨0, 2⟩, x⟩, ⟨⟨0, 5⟩, y⟩]
  -- the call turns `y` into a number and leaves `x` open
  obtain ⟨x, y, site, g₁, g₂, g₃, hx, hy, hcall, hstores, hplaces, p, q, hraised, hp, hq,
    declaration, g₄, hdeclare, hstores', hplacesIn, p', q', hraised', hp'⟩ :
      ∃ x y site g₁ g₂ g₃,
      Typer.atom (.name "x") (.ofSource (.pinnedAt 5) false) = .ok (x, g₁) ∧
      Typer.atom (.name "y") g₁ = .ok (y, g₂) ∧
      Typer.call callee (arguments x y) ⟨⟨0, 1⟩, ⟨0, 7⟩⟩ g₂
        = .ok (.call site callee (arguments x y), g₃) ∧
      (∀ s ∈ (Derivation.call site callee (arguments x y)).stores, s.Acyclic) ∧
      (Derivation.call site callee (arguments x y)).places?
        = some [⟨⟨0, 0⟩, ⟨0, 1⟩⟩, ⟨⟨0, 2⟩, ⟨0, 3⟩⟩, ⟨⟨0, 5⟩, ⟨0, 6⟩⟩] ∧
      ∃ p q, (Derivation.call site callee (arguments x y)).raised?
        = some [⟨.name "x", .flexible 5, ⟨⟨0, 2⟩, ⟨0, 3⟩⟩, p⟩,
          ⟨.name "y", .primitive 0 .i32, ⟨⟨0, 5⟩, ⟨0, 6⟩⟩, q⟩] ∧ p ∧ q ∧
      ∃ declaration g₄,
      Typer.declare (.name "f") (some ⟨.arrow (.named "i32") (.named "i32"), ⟨⟨0, 7⟩, ⟨0, 17⟩⟩⟩)
        ⟨⟨0, 20⟩, .call site callee (arguments x y)⟩ g₃
        = .ok (.declare declaration ⟨⟨0, 20⟩, .call site callee (arguments x y)⟩, g₄) ∧
      (∀ s ∈ (Statement.declare declaration
        ⟨⟨0, 20⟩, .call site callee (arguments x y)⟩).stores, s.Acyclic) ∧
      Derivation.placesIn? ⟨⟨0, 20⟩, .call site callee (arguments x y)⟩
        = some [⟨⟨0, 20⟩, ⟨0, 21⟩⟩, ⟨⟨0, 22⟩, ⟨0, 23⟩⟩, ⟨⟨0, 25⟩, ⟨0, 26⟩⟩] ∧
      ∃ p q, (Statement.declare declaration
          ⟨⟨0, 20⟩, .call site callee (arguments x y)⟩).raised?
        = some [⟨.name "x", .primitive 10 .i32, ⟨⟨0, 22⟩, ⟨0, 23⟩⟩, p⟩,
          ⟨.name "y", .primitive 0 .i32, ⟨⟨0, 25⟩, ⟨0, 26⟩⟩, q⟩] ∧ p := by
    -- the result leads to the parameter of `h`, which leads to `x`
    let measure : NodeId → ℕ := fun v => if v = 7 then 9 else 6 - v
    refine ⟨_, _, _, _, _, _, rfl, rfl, rfl, List.forall_mem_singleton.2 ?_, rfl, _, _, rfl,
      ⟨rfl, ⟨rfl, .inl rfl⟩⟩, ⟨rfl, .of_entries ?_ rfl rfl (by decide) (by decide)⟩, _, _, rfl,
      List.forall_mem_cons.2 ⟨?_, List.forall_mem_singleton.2 ?_⟩, rfl, _, _, rfl,
      ⟨rfl, ⟨rfl, .inl rfl⟩⟩, .of_entries ?_ rfl rfl (by decide) (by decide)⟩
    · exact Substitution.acyclic_of_measure measure (by decide)
    · exact Substitution.acyclic_of_measure measure (by decide)
    · exact Substitution.acyclic_of_measure id (by decide)
    · exact Substitution.acyclic_of_measure measure (by decide)
    · exact Substitution.acyclic_of_measure id (by decide)
  have hgenerated : (Derivation.call site callee (arguments x y)).Generated :=
    .call (.typed _ _ rfl)
      (List.forall_mem_cons.2 ⟨.atom hx, List.forall_mem_singleton.2 (.atom hy)⟩) hcall
  obtain ⟨hexpression, hstatement⟩ := hgenerated.uses_anchored
  obtain ⟨uses, huses, hledger, hanchored⟩ := hexpression _ hplaces hstores
  cases hraised.symm.trans huses
  obtain ⟨uses', huses', hledger', hanchored'⟩ :=
    hstatement _ _ hplacesIn _ (.declare hdeclare) hstores'
  cases hraised'.symm.trans huses'
  exact ⟨x, y, _, _, g₁, g₂, g₃, g₄, hx, hy, hcall, hdeclare, hstores', hledger _, hledger' _,
    (hanchored _ (.tail _ (.head _)) hq).1, (hanchored' _ (.head _) hp').1⟩

/-- Uses that are not found where they were raised, although all stores are acyclic.

In `h(a, g(x), p)`, where `h` takes `(t1, t2, (t1, i32))`, `g` takes `t3 -> i32` and `p` is
`(t3, t3)`, the use of `a` takes on the identity of the number in the type of `h`, and so does `t3`.
The record is for `t3`, by which nothing goes. The use is found nowhere, and its failure is reported
at the start of the text.

In `let a : i32 = x` the use of `x` takes on the identity of the annotation, and its failure is
reported there. In `id(x)` it takes on that of the result, and the types of a call lead to the
callee. In `f(x, y)`, where `f` takes two of a kind, it takes on that of the use of `y`. -/
theorem Raised.found_elsewhere :
    (∃ (a x inner d : Derivation) (g₁ g₂ g₃ g₄ : Typer) (outcome : Discharge) (ids : IdSource)
      (reports : List Diagnostic),
      Typer.atom (.name "a") (.ofSource (.pinnedAt 13) false) = .ok (a, g₁) ∧
      Typer.atom (.name "x") g₁ = .ok (x, g₂) ∧
      Typer.call ⟨.zero, .atom (.arrow 10 (.arrow 9 (.flexible 3) (.primitive 8 .i32))
          (.primitive 11 .i32)) .empty ⟨⟨0, 0⟩, ⟨0, 1⟩⟩⟩
        [⟨⟨0, 2⟩, x⟩] ⟨⟨0, 1⟩, ⟨0, 4⟩⟩ g₂ = .ok (inner, g₃) ∧
      Typer.call ⟨.zero, .atom (.arrow 7 (.product 6
          [.flexible 1, .flexible 2, .product 5 [.flexible 1, .primitive 0 .i32]])
          (.primitive 4 .i32)) .empty ⟨⟨0, 0⟩, ⟨0, 1⟩⟩⟩
        [⟨⟨0, 2⟩, a⟩, ⟨⟨0, 5⟩, inner⟩,
          ⟨⟨0, 11⟩, .atom (.product 12 [.flexible 3, .flexible 3]) .empty ⟨⟨0, 0⟩, ⟨0, 1⟩⟩⟩]
        ⟨⟨0, 1⟩, ⟨0, 13⟩⟩ g₃ = .ok (d, g₄) ∧
      (∀ s ∈ d.stores, s.Acyclic) ∧
      d.requirements.get (.name "a") = [.primitive 0 .i32] ∧
      d.spansFor? 0 = some [] ∧
      d.requirements.discharge? (.single (.name "a") (.primitive 30 .string)) .empty g₄.ids
        = some (outcome, ids) ∧
      outcome.diagnostics? d.spansFor? = some reports ∧
      reports.map Diagnostic.primary = [.zero]) ∧
    (∃ (x : Derivation) (g : Typer) (s : Statement) (g' : Typer) (outcome : Discharge)
      (ids : IdSource) (reports : List Diagnostic),
      Typer.atom (.name "x") (.ofSource (.pinnedAt 0) false) = .ok (x, g) ∧
      Typer.declare (.name "a") (some ⟨.named "i32", ⟨⟨0, 7⟩, ⟨0, 10⟩⟩⟩) ⟨⟨0, 12⟩, x⟩ g
        = .ok (s, g') ∧
      (∀ t ∈ s.stores, t.Acyclic) ∧
      s.requirements.get (.name "x") = [.primitive 1 .i32] ∧
      s.spansFor? 1 = some [⟨⟨0, 7⟩, ⟨0, 10⟩⟩] ∧
      s.requirements.discharge? (.single (.name "x") (.primitive 9 .string)) .empty g'.ids
        = some (outcome, ids) ∧
      outcome.diagnostics? s.spansFor? = some reports ∧
      reports.map Diagnostic.primary = [⟨⟨0, 7⟩, ⟨0, 10⟩⟩]) ∧
    (∃ (x d : Derivation) (g g' : Typer),
      Typer.atom (.name "x") (.ofSource (.pinnedAt 3) false) = .ok (x, g) ∧
      Typer.call ⟨.zero, .atom (.arrow 2 (.flexible 1) (.flexible 1)) .empty ⟨⟨0, 0⟩, ⟨0, 2⟩⟩⟩
        [⟨⟨0, 3⟩, x⟩] ⟨⟨0, 2⟩, ⟨0, 5⟩⟩ g = .ok (d, g') ∧
      (∀ s ∈ d.stores, s.Acyclic) ∧
      d.requirements.get (.name "x") = [.flexible 4] ∧
      d.spansFor? 4 = some [⟨⟨0, 0⟩, ⟨0, 2⟩⟩]) ∧
    ∃ (x y d : Derivation) (g g' g'' : Typer),
      Typer.atom (.name "x") (.ofSource (.pinnedAt 5) false) = .ok (x, g) ∧
      Typer.atom (.name "y") g = .ok (y, g') ∧
      Typer.call ⟨.zero, .atom (.arrow 4 (.product 3 [.flexible 1, .flexible 1])
          (.primitive 2 .i32)) .empty ⟨⟨0, 0⟩, ⟨0, 1⟩⟩⟩
        [⟨⟨0, 2⟩, x⟩, ⟨⟨0, 5⟩, y⟩] ⟨⟨0, 1⟩, ⟨0, 7⟩⟩ g' = .ok (d, g'') ∧
      (∀ s ∈ d.stores, s.Acyclic) ∧
      d.requirements.get (.name "x") = [.flexible 6] ∧
      d.spansFor? 6 = some [⟨⟨0, 5⟩, ⟨0, 6⟩⟩] := by
  -- in `h(a, g(x), p)` the variables lead from `h` to `a` and on to `t3`
  let measure : NodeId → ℕ := fun v => if v = 3 then 1 else if v = 1 then 40 else v
  refine ⟨⟨_, _, _, _, _, _, _, _, _, _, _, rfl, rfl, rfl, rfl,
      List.forall_mem_cons.2 ⟨?_, List.forall_mem_singleton.2 ?_⟩, rfl, rfl, rfl, rfl, rfl⟩,
    ⟨_, _, _, _, _, _, _, rfl, rfl, List.forall_mem_singleton.2 ?_, rfl, rfl, rfl, rfl, rfl⟩,
    ⟨_, _, _, _, rfl, rfl, List.forall_mem_singleton.2 ?_, rfl, rfl⟩,
    ⟨_, _, _, _, _, _, rfl, rfl, rfl, List.forall_mem_singleton.2 ?_, rfl, rfl⟩⟩
  · exact Substitution.acyclic_of_measure measure (by decide)
  · exact Substitution.acyclic_of_measure measure (by decide)
  · exact Substitution.acyclic_of_measure id (by decide)
  -- in the other calls variables lead to later ones
  · exact Substitution.acyclic_of_measure (fun v => 9 - v) (by decide)
  · exact Substitution.acyclic_of_measure (fun v => 9 - v) (by decide)

end CoContextual
