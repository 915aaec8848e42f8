import CoContextual.Proofs.Optional
import CoContextual.Proofs.Uses.Apart

/-!
# Where uses are found

A use is raised where a name or an operator stands. On the way up its type is rewritten, by the
calls above it and by an annotation, and takes on other identities. As long as every node keeps the
use apart from all else that goes by its identity, a search for the last identity comes back to it.

- `Derivation.raised?`: the uses of an expression, each with its type by now, its own place, and
  whether all nodes above it kept it apart;
- `Derivation.places?`: the places that an expression knows, which a search does not leave
  (`Derivation.covered`);
- `Crossing.locates`: a search above a node finds the uses that the node keeps apart.
-/

namespace CoContextual

/-! ## Raised uses -/

/-- A use of an identifier, as a node above it knows it. -/
structure Raised where
  /-- The identifier. -/
  token : Ident
  /-- The type that the use has by now. -/
  type : Ty
  /-- Where the identifier stands. -/
  span : Span
  /-- Whether all nodes so far kept the use apart. -/
  apart : Prop

namespace Raised

/-- The use seen from an origin that lies `offset` earlier. -/
def shift? (u : Raised) (offset : Offset) : Option Raised :=
  (u.span.shift? offset).map fun span => { u with span }

/-- The use as a node passes it on, with the type that the node settles on. -/
def pass? (settle : Ty → Option Ty) (keepsApart : Ty → Ty → Prop) (u : Raised) : Option Raised :=
  (settle u.type).map fun type => { u with type, apart := u.apart ∧ keepsApart u.type type }

end Raised

namespace Substitution

/-- The type of a use above a node that settled on `s`. A node that has something to report leaves
the uses alone. -/
def settle? (s : Substitution) (findings : List Diagnostic) (t : Ty) : Option Ty :=
  if findings.isEmpty then s.resolve? t else some t

theorem settle?_of_ne_nil (s : Substitution) {findings : List Diagnostic} (h : findings ≠ []) :
    s.settle? findings = some := by
  funext t
  rw [settle?, if_neg (by simpa using h)]

/-- A type either stays or is resolved, where nothing is reported. -/
theorem settle?_cases {s : Substitution} {findings : List Diagnostic} {t t' : Ty}
    (h : s.settle? findings t = some t') : t' = t ∨ findings = [] ∧ s.resolve? t = some t' := by
  cases findings with
  | nil => exact .inr ⟨rfl, h⟩
  | cons =>
    cases h
    exact .inl rfl

end Substitution

namespace CallSite

/-- What the call finds without its records. -/
def search? (site : CallSite) (callee : Placed Derivation) (arguments : List (Placed Derivation))
    (id : NodeId) : Option (List Span) :=
  if site.owns id then Derivation.spansIn? callee callee.item.type.id
  else both (Derivation.spansIn? callee) (Derivation.spansInAll? arguments) id

end CallSite

namespace Derivation

mutual

/-- The uses in an expression, in the order in which the rules meet them. There is no answer if a
position outgrows its word. -/
def raised? : Derivation → Option (List Raised)
  | atom type requirements span =>
    -- an atom is found under the identity of its own type and under no other
    some (requirements.uses.toList.flatMap fun e =>
      e.2.map fun t => ⟨e.1, t, span, type.id = t.id⟩)
  | grouping inner => raisedIn? inner
  | unary operation operand => do
    -- uses keep their types here, but the operator takes its own two identities to itself
    let passed ← (← raisedIn? operand).mapM
      (Raised.pass? some fun _ after => operation.owns after.id = false)
    return passed ++ [⟨.operator operation.operator, operation.operatorType, operation.span, True⟩]
  | binary operation lhs rhs => do
    let passed ← ((← raisedIn? lhs) ++ (← raisedIn? rhs)).mapM
      (Raised.pass? some fun _ after => operation.owns after.id = false)
    return passed ++ [⟨.operator operation.operator, operation.operatorType, operation.span, True⟩]
  | call site callee arguments => do
    let settle := site.substitution.settle? site.diagnostics
    let crossing := site.crossing callee arguments
    -- only the callee is asked on behalf of the call's own types
    let inCallee ← (← raisedIn? callee).mapM (Raised.pass? settle fun before after =>
      site.owns after.id = true ∧ before.id = callee.item.type.id ∨
        crossing.KeepsApart before after)
    let inArguments ← (← raisedInAll? arguments).mapM (Raised.pass? settle crossing.KeepsApart)
    return inCallee ++ inArguments
  | missing _ => some []

/-- The uses in a part, placed relative to the whole. -/
def raisedIn? : Placed Derivation → Option (List Raised)
  | ⟨offset, part⟩ => do (← raised? part).mapM fun u => u.shift? offset

/-- The uses in several parts, placed relative to the whole. -/
def raisedInAll? : List (Placed Derivation) → Option (List Raised)
  | [] => some []
  | part :: parts => do return (← raisedIn? part) ++ (← raisedInAll? parts)

end

mutual

/-- The places of all names, literals and operators in an expression, relative to it. -/
def places? : Derivation → Option (List Span)
  | atom _ _ span => some [span]
  | grouping inner => placesIn? inner
  | unary operation operand => do return operation.span :: (← placesIn? operand)
  | binary operation lhs rhs => do
    return operation.span :: ((← placesIn? lhs) ++ (← placesIn? rhs))
  | call _ callee arguments => do return (← placesIn? callee) ++ (← placesInAll? arguments)
  | missing _ => some []

/-- The places in a part, relative to the whole. -/
def placesIn? : Placed Derivation → Option (List Span)
  | ⟨offset, part⟩ => do Span.shiftAll? (← places? part) offset

/-- The places in several parts, relative to the whole. -/
def placesInAll? : List (Placed Derivation) → Option (List Span)
  | [] => some []
  | part :: parts => do return (← placesIn? part) ++ (← placesInAll? parts)

end

end Derivation

/-! ## Searches -/

/-- The search finds nothing but the given places, and always ends. -/
def Covered (search : NodeId → Option (List Span)) (places : List Span) : Prop :=
  ∀ id, ∃ spans, search id = some spans ∧ spans ⊆ places

/-- The search finds the place under the identity. -/
def Locates (search : NodeId → Option (List Span)) (id : NodeId) (span : Span) : Prop :=
  ∃ spans, search id = some spans ∧ span ∈ spans

/-- The search finds all uses that were kept apart. -/
def Finds (search : NodeId → Option (List Span)) (uses : List Raised) : Prop :=
  ∀ u ∈ uses, u.apart → Locates search u.type.id u.span

/-- A search in a part, with the places seen from the whole. -/
def shifted (search : NodeId → Option (List Span)) (offset : Offset) (id : NodeId) :
    Option (List Span) := do
  Span.shiftAll? (← search id) offset

variable {search search' : NodeId → Option (List Span)} {places places' : List Span}
  {uses uses' : List Raised} {id : NodeId} {span : Span} {offset : Offset} {origins : Origins}

/-- Where something is found at once, the records are not looked into. -/
theorem throughOrigins_of_ne_nil {spans : List Span} (h : search id = some spans)
    (hne : spans ≠ []) : throughOrigins origins search id = some spans := by
  rw [throughOrigins, h]
  cases origins.get? id <;> simp [hne]

/-- Where nothing is found at once, the record counts. -/
theorem throughOrigins_of_nil {source : Ty} (h : search id = some [])
    (hsource : origins.get? id = some source) (hne : source.id ≠ id) :
    throughOrigins origins search id = search source.id := by
  rw [throughOrigins, h, hsource]
  simp [hne]

namespace Covered

theorem mono (h : Covered search places) (hsub : places ⊆ places') : Covered search places' := by
  intro id
  obtain ⟨spans, hspans, hin⟩ := h id
  exact ⟨spans, hspans, List.Subset.trans hin hsub⟩

theorem both (h : Covered search places) (h' : Covered search' places') :
    Covered (both search search') (places ++ places') := by
  intro id
  obtain ⟨spans, hspans, hin⟩ := h id
  obtain ⟨spans', hspans', hin'⟩ := h' id
  refine ⟨spans ++ spans', ?_, List.append_subset.2 ⟨fun _ hs => ?_, fun _ hs => ?_⟩⟩
  · rw [CoContextual.both, hspans, hspans']
    rfl
  · exact List.mem_append_left _ (hin hs)
  · exact List.mem_append_right _ (hin' hs)

/-- Looking into the records asks the same search once more at most. -/
theorem throughOrigins (h : Covered search places) (origins : Origins) :
    Covered (throughOrigins origins search) places := by
  intro id
  obtain ⟨spans, hspans, hin⟩ := h id
  rw [CoContextual.throughOrigins, hspans]
  cases origins.get? id with
  | none => exact ⟨spans, rfl, hin⟩
  | some source =>
    simp only [Option.bind_eq_bind, Option.bind_some]
    split
    · exact h source.id
    · exact ⟨spans, rfl, hin⟩

/-- If the places of a part fit their words, so does all that a search in the part finds. -/
theorem shift (h : Covered search places)
    (hshift : Span.shiftAll? places offset = some places') :
    Covered (shifted search offset) places' := by
  intro id
  obtain ⟨spans, hspans, hin⟩ := h id
  -- shifting is done place by place, so that it succeeds on some of the places if on all
  have hsome : ∀ s ∈ spans, ∃ s', s.shift? offset = some s' := fun s hs =>
    let ⟨s', _, hs'⟩ := exists_mem_of_mapM hshift (hin hs)
    ⟨s', hs'⟩
  obtain ⟨spans', hshifted⟩ := exists_mapM hsome
  refine ⟨spans', ?_, fun s' hs' => ?_⟩
  · rw [shifted, hspans]
    exact hshifted
  · obtain ⟨s, hs, heq⟩ := exists_of_mem_mapM hshifted hs'
    obtain ⟨s'', hs'', heq'⟩ := exists_mem_of_mapM hshift (hin hs)
    cases heq.symm.trans heq'
    exact hs''

end Covered

namespace Locates

theorem left (h : Locates search id span) (h' : Covered search' places') :
    Locates (both search search') id span := by
  obtain ⟨spans, hspans, hmem⟩ := h
  obtain ⟨spans', hspans', -⟩ := h' id
  refine ⟨spans ++ spans', ?_, List.mem_append_left _ hmem⟩
  rw [both, hspans, hspans']
  rfl

theorem right (h : Locates search' id span) (h' : Covered search places) :
    Locates (both search search') id span := by
  obtain ⟨spans, hspans, -⟩ := h' id
  obtain ⟨spans', hspans', hmem⟩ := h
  refine ⟨spans ++ spans', ?_, List.mem_append_right _ hmem⟩
  rw [both, hspans, hspans']
  rfl

/-- Where something is found at once, it is found. -/
theorem throughOrigins (h : Locates search id span) (origins : Origins) :
    Locates (throughOrigins origins search) id span := by
  obtain ⟨spans, hspans, hmem⟩ := h
  exact ⟨spans, throughOrigins_of_ne_nil hspans (List.ne_nil_of_mem hmem), hmem⟩

end Locates

namespace Finds

theorem append (h : Finds search uses) (h' : Finds search uses') : Finds search (uses ++ uses') :=
  List.forall_mem_append.2 ⟨h, h'⟩

theorem imp (h : Finds search uses)
    (himp : ∀ id span, Locates search id span → Locates search' id span) : Finds search' uses :=
  fun u hu hapart => himp _ _ (h u hu hapart)

/-- A search that is joined with another one loses nothing. -/
theorem both (h : Finds search uses) (h' : Finds search' uses') (hcovered : Covered search places)
    (hcovered' : Covered search' places') : Finds (both search search') (uses ++ uses') :=
  (h.imp fun _ _ hlocates => hlocates.left hcovered').append
    (h'.imp fun _ _ hlocates => hlocates.right hcovered)

/-- A node that finds under the new identities what a part holds under the old ones finds the uses
that it passes on. -/
theorem pass {settle : Ty → Option Ty} {keepsApart : Ty → Ty → Prop} (h : Finds search uses)
    (hpass : uses.mapM (Raised.pass? settle keepsApart) = some uses')
    (hkeeps : ∀ u ∈ uses, ∀ type, settle u.type = some type → keepsApart u.type type →
      Locates search u.type.id u.span → Locates search' type.id u.span) : Finds search' uses' := by
  intro u' hu' hapart
  obtain ⟨u, hu, hpassed⟩ := exists_of_mem_mapM hpass hu'
  obtain ⟨type, htype, rfl⟩ := Option.map_eq_some_iff.1 hpassed
  exact hkeeps u hu type htype hapart.2 (h u hu hapart.1)

/-- The uses in a part are found from the whole. -/
theorem shift (h : Finds search uses) (hcovered : Covered search places)
    (hplaces : Span.shiftAll? places offset = some places')
    (huses : (uses.mapM fun u => u.shift? offset) = some uses') :
    Finds (shifted search offset) uses' := by
  intro u' hu' hapart
  obtain ⟨u, hu, hshifted⟩ := exists_of_mem_mapM huses hu'
  obtain ⟨span, hspan, rfl⟩ := Option.map_eq_some_iff.1 hshifted
  obtain ⟨spans, hspans, hmem⟩ := h u hu hapart
  -- whatever else is found with the use fits its words too
  obtain ⟨spans', hsearch, -⟩ := hcovered.shift hplaces u.type.id
  refine ⟨spans', hsearch, ?_⟩
  rw [shifted, hspans] at hsearch
  obtain ⟨span', hspan', heq⟩ := exists_mem_of_mapM hsearch hmem
  cases hspan.symm.trans heq
  exact hspan'

end Finds

/-- Above a node that keeps a use apart the use is found under its new identity, through the record
of the variable that took it on, if it is a new one. -/
theorem Crossing.locates {c : Crossing} {before after : Ty} {findings : List Diagnostic}
    (hpart : ∀ id, c.owns id = false → Locates search id span → Locates search' id span)
    (hnothing : ∀ id, c.owns id = false → id ∉ c.known → search' id = some [])
    (hrecord : ∀ v, before = .flexible v → findings = [] → c.store.image v ≠ .flexible v →
      (∀ w, c.Replaces w (c.store.image v).id → w = v) →
      origins.get? (c.store.image v).id = some (.flexible v))
    (hsettle : after = before ∨ findings = [] ∧ c.store.resolve? before = some after)
    (hkeeps : c.KeepsApart before after) (h : Locates search before.id span) :
    Locates (throughOrigins origins search') after.id span := by
  obtain ⟨hown, hchange⟩ := hkeeps
  by_cases hid : after.id = before.id
  · rw [hid] at hown ⊢
    exact (hpart _ hown h).throughOrigins origins
  obtain ⟨v, rfl, hownv, hknown, honly⟩ := hchange.resolve_left hid
  -- the variable does not stay, so that the node has replaced it
  obtain rfl | ⟨hfindings, hresolve⟩ := hsettle
  · exact absurd rfl hid
  obtain rfl : c.store.image v = after := by rw [Substitution.image, hresolve, Option.getD_some]
  have hne : c.store.image v ≠ .flexible v := fun himage => hid (congrArg Ty.id himage)
  have hsource := hrecord v rfl hfindings hne honly
  rw [Locates, throughOrigins_of_nil (hnothing _ hown hknown) hsource (Ne.symm hid)]
  exact hpart v hownv h

/-! ## Expressions -/

namespace Derivation

variable {d : Derivation} {part : Placed Derivation} {parts : List (Placed Derivation)}

theorem places?_unary {operation : Operation} {operand : Placed Derivation}
    (h : (unary operation operand).places? = some places) :
    ∃ inner, placesIn? operand = some inner ∧ places = operation.span :: inner := by
  rw [places?] at h
  obtain ⟨inner, hinner, h⟩ := Option.bind_eq_some_iff.1 h
  exact ⟨inner, hinner, (Option.some.inj h).symm⟩

theorem places?_binary {operation : Operation} {lhs rhs : Placed Derivation}
    (h : (binary operation lhs rhs).places? = some places) :
    ∃ left right, placesIn? lhs = some left ∧ placesIn? rhs = some right ∧
      places = operation.span :: (left ++ right) := by
  rw [places?] at h
  obtain ⟨left, hleft, h⟩ := Option.bind_eq_some_iff.1 h
  obtain ⟨right, hright, h⟩ := Option.bind_eq_some_iff.1 h
  exact ⟨left, right, hleft, hright, (Option.some.inj h).symm⟩

theorem places?_call {site : CallSite} {callee : Placed Derivation}
    {arguments : List (Placed Derivation)}
    (h : (call site callee arguments).places? = some places) :
    ∃ first rest, placesIn? callee = some first ∧ placesInAll? arguments = some rest ∧
      places = first ++ rest := by
  rw [places?] at h
  obtain ⟨first, hfirst, h⟩ := Option.bind_eq_some_iff.1 h
  obtain ⟨rest, hrest, h⟩ := Option.bind_eq_some_iff.1 h
  exact ⟨first, rest, hfirst, hrest, (Option.some.inj h).symm⟩

theorem placesInAll?_cons (h : placesInAll? (part :: parts) = some places) :
    ∃ first rest, placesIn? part = some first ∧ placesInAll? parts = some rest ∧
      places = first ++ rest := by
  rw [placesInAll?] at h
  obtain ⟨first, hfirst, h⟩ := Option.bind_eq_some_iff.1 h
  obtain ⟨rest, hrest, h⟩ := Option.bind_eq_some_iff.1 h
  exact ⟨first, rest, hfirst, hrest, (Option.some.inj h).symm⟩

theorem spansIn?_eq (part : Placed Derivation) :
    spansIn? part = shifted part.item.spansFor? part.offset := by
  funext id
  rw [spansIn?]
  rfl

theorem spansInAll?_cons (part : Placed Derivation) (parts : List (Placed Derivation)) :
    spansInAll? (part :: parts) = both (spansIn? part) (spansInAll? parts) := by
  funext id
  rw [spansInAll?]
  rfl

theorem covered_spansIn? (h : ∀ {places}, part.item.places? = some places →
      Covered part.item.spansFor? places) (hplaces : placesIn? part = some places) :
    Covered (spansIn? part) places := by
  rw [placesIn?] at hplaces
  obtain ⟨inner, hinner, hshift⟩ := Option.bind_eq_some_iff.1 hplaces
  rw [spansIn?_eq]
  exact (h hinner).shift hshift

theorem covered_spansInAll? (h : ∀ a ∈ parts, ∀ {places}, a.item.places? = some places →
      Covered a.item.spansFor? places) (hplaces : placesInAll? parts = some places) :
    Covered (spansInAll? parts) places := by
  induction parts generalizing places with
  | nil => exact fun id => ⟨[], by rw [spansInAll?], List.nil_subset _⟩
  | cons a parts ih =>
    obtain ⟨first, rest, hfirst, hrest, rfl⟩ := placesInAll?_cons hplaces
    have hone := covered_spansIn? (h a (.head _)) hfirst
    have hothers := ih (fun b hb => h b (.tail _ hb)) hrest
    rw [spansInAll?_cons]
    exact hone.both hothers

theorem spansFor?_call (site : CallSite) (callee : Placed Derivation)
    (arguments : List (Placed Derivation)) :
    (call site callee arguments).spansFor?
      = throughOrigins site.origins (site.search? callee arguments) := by
  funext id
  rw [spansFor?]
  rfl

theorem covered_search? {site : CallSite} {callee : Placed Derivation}
    {arguments : List (Placed Derivation)} (h : Covered (spansIn? callee) places)
    (h' : Covered (spansInAll? arguments) places') :
    Covered (site.search? callee arguments) (places ++ places') := by
  intro id
  rw [CallSite.search?]
  split
  · exact (h.mono (List.subset_append_left _ _)) _
  · exact h.both h' id

/-- If the places of an expression fit their words, every search in it ends, and finds some of
them. -/
theorem covered (hplaces : d.places? = some places) : Covered d.spansFor? places := by
  induction d using ind generalizing places with
  | atom type requirements span =>
    rw [places?] at hplaces
    cases hplaces
    intro id
    refine ⟨_, by rw [spansFor?], ?_⟩
    split
    · exact List.Subset.refl _
    · exact List.nil_subset _
  | grouping inner ih =>
    rw [places?] at hplaces
    intro id
    rw [spansFor?]
    exact covered_spansIn? ih hplaces id
  | unary operation operand ih =>
    obtain ⟨inner, hinner, rfl⟩ := places?_unary hplaces
    intro id
    rw [spansFor?]
    split
    · exact ⟨_, rfl, List.cons_subset_cons _ (List.nil_subset _)⟩
    · exact (covered_spansIn? ih hinner).mono (List.subset_cons_self _ _) id
  | binary operation lhs rhs ih ih' =>
    obtain ⟨left, right, hleft, hright, rfl⟩ := places?_binary hplaces
    intro id
    rw [spansFor?]
    split
    · exact ⟨_, rfl, List.cons_subset_cons _ (List.nil_subset _)⟩
    · have hboth := (covered_spansIn? ih hleft).both (covered_spansIn? ih' hright)
      exact hboth.mono (List.subset_cons_self _ _) id
  | call site callee arguments ih ihs =>
    obtain ⟨first, rest, hfirst, hrest, rfl⟩ := places?_call hplaces
    rw [spansFor?_call]
    exact (covered_search? (covered_spansIn? ih hfirst)
      (covered_spansInAll? ihs hrest)).throughOrigins _
  | missing type => exact fun id => ⟨[], by rw [spansFor?], List.nil_subset _⟩

theorem finds_spansIn? (h : ∀ {places uses}, part.item.places? = some places →
      part.item.raised? = some uses → Finds part.item.spansFor? uses)
    (hplaces : placesIn? part = some places) (huses : raisedIn? part = some uses) :
    Finds (spansIn? part) uses := by
  rw [placesIn?] at hplaces
  obtain ⟨inner, hinner, hshift⟩ := Option.bind_eq_some_iff.1 hplaces
  rw [raisedIn?] at huses
  obtain ⟨raised, hraised, huses⟩ := Option.bind_eq_some_iff.1 huses
  rw [spansIn?_eq]
  exact (h hinner hraised).shift (covered hinner) hshift huses

theorem finds_spansInAll? (h : ∀ a ∈ parts, ∀ {places uses}, a.item.places? = some places →
      a.item.raised? = some uses → Finds a.item.spansFor? uses)
    (hplaces : placesInAll? parts = some places) (huses : raisedInAll? parts = some uses) :
    Finds (spansInAll? parts) uses := by
  induction parts generalizing places uses with
  | nil =>
    rw [raisedInAll?] at huses
    cases huses
    exact fun _ hu => nomatch hu
  | cons a parts ih =>
    obtain ⟨first, rest, hfirst, hrest, -⟩ := placesInAll?_cons hplaces
    rw [raisedInAll?] at huses
    obtain ⟨one, hone, huses⟩ := Option.bind_eq_some_iff.1 huses
    obtain ⟨others, hothers, huses⟩ := Option.bind_eq_some_iff.1 huses
    cases huses
    rw [spansInAll?_cons]
    exact (finds_spansIn? (h a (.head _)) hfirst hone).both
      (ih (fun b hb => h b (.tail _ hb)) hrest hothers) (covered_spansIn? covered hfirst)
      (covered_spansInAll? (fun _ _ => covered) hrest)

section

variable {site : CallSite} {callee : Placed Derivation} {arguments : List (Placed Derivation)}

/-- A call asks its callee for the callee's type on behalf of its own types. -/
theorem locates_search?_of_owned (hown : site.owns id = true)
    (h : Locates (spansIn? callee) callee.item.type.id span) :
    Locates (site.search? callee arguments) id span := by
  rwa [Locates, CallSite.search?, if_pos hown]

/-- For other identities it asks all its parts. -/
theorem search?_of_not_owned (hown : site.owns id = false) :
    site.search? callee arguments id = both (spansIn? callee) (spansInAll? arguments) id := by
  rw [CallSite.search?, if_neg (by simpa using hown)]

/-- A call finds nothing under an identity that is not its own and that its parts do not go by. -/
theorem search?_of_not_known (hown : site.owns id = false)
    (hid : id ∉ (site.crossing callee arguments).known) :
    site.search? callee arguments id = some [] := by
  obtain ⟨hcallee, harguments⟩ := not_or.1 fun h => hid (List.mem_append.2 h)
  rw [search?_of_not_owned hown, both, spansIn?_of_not_goesBy hcallee,
    spansInAll?_of_not_goesBy harguments]
  rfl

end

/-- An operator's own use is found at the operator. -/
theorem finds_operator {operation : Operation} (hpassed : Finds search uses)
    (hown : search operation.operatorType.id = some [operation.span]) :
    Finds search (uses ++ [⟨.operator operation.operator, operation.operatorType, operation.span,
      True⟩]) := by
  refine hpassed.append fun u hu _ => ?_
  obtain rfl := List.mem_singleton.1 hu
  exact ⟨_, hown, .head _⟩

/-- An operator leaves the types of uses alone, and what it does not take to itself is looked for in
its operands. -/
theorem finds_passed_operator {operation : Operation} (h : Finds search uses)
    (hpassed : uses.mapM (Raised.pass? some fun _ after => operation.owns after.id = false)
      = some uses')
    (hsearch : ∀ id, operation.owns id = false → search' id = search id)
    (hown : search' operation.operatorType.id = some [operation.span]) :
    Finds search' (uses' ++ [⟨.operator operation.operator, operation.operatorType, operation.span,
      True⟩]) := by
  refine finds_operator (h.pass hpassed ?_) hown
  rintro u - type ⟨⟩ hnot hlocates
  rwa [Locates, hsearch _ hnot]

/-- A use that stands at a leaf is found there, if it has the identity of the leaf's type. -/
theorem finds_atom {type : Ty} {requirements : Requirements}
    (huses : (atom type requirements span).raised? = some uses) :
    Finds (atom type requirements span).spansFor? uses := by
  rw [raised?] at huses
  cases huses
  intro u hu hapart
  obtain ⟨e, -, hu⟩ := List.mem_flatMap.1 hu
  obtain ⟨t, -, rfl⟩ := List.mem_map.1 hu
  exact ⟨[span], by rw [spansFor?, if_pos hapart], .head _⟩

/-- A call finds the uses in its parts that it keeps apart, if it has a record for each variable
that alone takes on an identity. -/
theorem finds_passed_call {site : CallSite} {callee : Placed Derivation}
    {arguments : List (Placed Derivation)} {raised raisedAll inCallee inArguments : List Raised}
    (hcallee : Finds (spansIn? callee) raised)
    (harguments : Finds (spansInAll? arguments) raisedAll)
    (hcovered : Covered (spansIn? callee) places)
    (hcovered' : Covered (spansInAll? arguments) places')
    (hrecord : ∀ u ∈ raised ++ raisedAll, ∀ v, u.type = .flexible v → site.diagnostics = [] →
      site.substitution.image v ≠ .flexible v →
      (∀ w, (site.crossing callee arguments).Replaces w (site.substitution.image v).id → w = v) →
      site.origins.get? (site.substitution.image v).id = some (.flexible v))
    (hinCallee : raised.mapM (Raised.pass? (site.substitution.settle? site.diagnostics)
      fun before after => site.owns after.id = true ∧ before.id = callee.item.type.id ∨
        (site.crossing callee arguments).KeepsApart before after) = some inCallee)
    (hinArguments : raisedAll.mapM (Raised.pass? (site.substitution.settle? site.diagnostics)
      (site.crossing callee arguments).KeepsApart) = some inArguments) :
    Finds (call site callee arguments).spansFor? (inCallee ++ inArguments) := by
  rw [spansFor?_call]
  have hnothing : ∀ id, site.owns id = false → id ∉ (site.crossing callee arguments).known →
      site.search? callee arguments id = some [] := fun id => search?_of_not_known
  refine (hcallee.pass hinCallee ?_).append (harguments.pass hinArguments ?_)
  · rintro u hu type hsettle (⟨hown, hid⟩ | hkeeps) hlocates
    · rw [hid] at hlocates
      exact (locates_search?_of_owned hown hlocates).throughOrigins _
    · refine Crossing.locates (fun id hnot h => ?_) hnothing
        (hrecord u (List.mem_append_left _ hu)) (Substitution.settle?_cases hsettle) hkeeps hlocates
      rw [Locates, search?_of_not_owned hnot]
      exact h.left hcovered'
  · intro u hu type hsettle hkeeps hlocates
    refine Crossing.locates (fun id hnot h => ?_) hnothing
      (hrecord u (List.mem_append_right _ hu)) (Substitution.settle?_cases hsettle) hkeeps hlocates
    rw [Locates, search?_of_not_owned hnot]
    exact h.right hcovered

end Derivation

/-! ## Statements -/

namespace Declaration

/-- The type of a use above the declaration. Without an annotation the uses are left alone. -/
def settle? (declaration : Declaration) : Ty → Option Ty :=
  match declaration.ascription with
  | none => some
  | some _ => declaration.substitution.settle? declaration.diagnostics

theorem settle?_cases {declaration : Declaration} {t t' : Ty}
    (h : declaration.settle? t = some t') :
    t' = t ∨ declaration.diagnostics = [] ∧ declaration.substitution.resolve? t = some t' := by
  rw [settle?] at h
  cases hascription : declaration.ascription with
  | none =>
    rw [hascription] at h
    cases h
    exact .inl rfl
  | some ascription =>
    rw [hascription] at h
    exact Substitution.settle?_cases h

/-- What the declaration finds without its records. -/
def search? (declaration : Declaration) (value : Placed Derivation) : NodeId → Option (List Span) :=
  both (fun id => some (declaration.ownSpans id)) (Derivation.spansIn? value)

theorem covered_ownSpans (declaration : Declaration) :
    Covered (fun id => some (declaration.ownSpans id)) [declaration.ascriptionSpan] := by
  intro id
  refine ⟨_, rfl, ?_⟩
  rw [ownSpans, ascriptionSpan]
  cases declaration.ascription with
  | none => exact List.nil_subset _
  | some ascription =>
    dsimp only
    split
    · exact List.Subset.refl _
    · exact List.nil_subset _

/-- A declaration finds nothing under an identity that neither its annotation nor its value goes
by. -/
theorem search?_of_not_known {declaration : Declaration} {value : Placed Derivation}
    (hid : id ∉ (declaration.crossing value).known) : declaration.search? value id = some [] := by
  obtain ⟨hown, hvalue⟩ := not_or.1 fun h => hid (List.mem_append.2 h)
  have hnone : declaration.ownSpans id = [] := by
    rw [ownSpans]
    cases hascription : declaration.ascription with
    | none => rfl
    | some ascription =>
      rw [hascription] at hown
      exact if_neg fun heq => hown (by simp [heq])
  rw [search?, both, hnone, Derivation.spansIn?_of_not_goesBy hvalue]
  rfl

end Declaration

namespace Statement

/-- The uses in a statement. -/
def raised? : Statement → Option (List Raised)
  | declare declaration value => do
    (← Derivation.raisedIn? value).mapM
      (Raised.pass? declaration.settle? (declaration.crossing value).KeepsApart)
  | ret value => Derivation.raisedIn? value

theorem spansFor?_declare (declaration : Declaration) (value : Placed Derivation) :
    (declare declaration value).spansFor?
      = throughOrigins declaration.origins (declaration.search? value) := rfl

variable {s : Statement}

/-- If the places of the value fit their words, every search in a statement ends. -/
theorem exists_covered (hplaces : Derivation.placesIn? s.value = some places) :
    ∃ places, Covered s.spansFor? places := by
  have hvalue := Derivation.covered_spansIn? Derivation.covered hplaces
  cases s with
  | ret value => exact ⟨places, hvalue⟩
  | declare declaration value =>
    exact ⟨_, (declaration.covered_ownSpans.both hvalue).throughOrigins _⟩

/-- A declaration finds the uses in its value that it keeps apart, if it has a record for each
variable that alone takes on an identity. -/
theorem finds_declare {declaration : Declaration} {value : Placed Derivation}
    {raised : List Raised} (hvalue : Finds (Derivation.spansIn? value) raised)
    (hrecord : ∀ u ∈ raised, ∀ v, u.type = .flexible v → declaration.diagnostics = [] →
      declaration.substitution.image v ≠ .flexible v →
      (∀ w, (declaration.crossing value).Replaces w (declaration.substitution.image v).id → w = v) →
      declaration.origins.get? (declaration.substitution.image v).id = some (.flexible v))
    (hpassed : raised.mapM (Raised.pass? declaration.settle?
      (declaration.crossing value).KeepsApart) = some uses) :
    Finds (declare declaration value).spansFor? uses := by
  rw [spansFor?_declare]
  refine hvalue.pass hpassed fun u hu type hsettle hkeeps hlocates => ?_
  -- the value is asked for whatever the declaration is asked for
  refine Crossing.locates (fun id _ h => ?_) (fun id _ => Declaration.search?_of_not_known)
    (hrecord u hu) (Declaration.settle?_cases hsettle) hkeeps hlocates
  exact h.right declaration.covered_ownSpans

end Statement

end CoContextual
