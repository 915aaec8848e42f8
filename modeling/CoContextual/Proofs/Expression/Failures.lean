import CoContextual.Proofs.Expression.Ledger

/-!
# Where typing fails

The rules reject no expression, and typing one comes to an end: the callee of a call has a variable
of its own, so that the store of the call has no cycle. What can go wrong is a call of a literal.

- `Expr.literalCalls?`: the calls of literals, read off the expression alone;
- `Inferred.reported`: the findings in a derivation are one mismatch for each of these calls;
- `Applies`: the rules that a session can apply to the derivations it has at hand;
- `Session.fails_at_literal_calls`: all of it along a session. A rule that is applied next yields a
  derivation unless a position outgrows its word.
-/

namespace CoContextual

/-! ## Calls of literals -/

/-- A call whose callee is a literal. -/
structure LiteralCall where
  /-- Where the literal stands. -/
  literal : Span
  /-- Where the argument list stands. -/
  arguments : Span

namespace LiteralCall

/-- The call seen from an origin that lies `offset` earlier. -/
def shift? (c : LiteralCall) (offset : Offset) : Option LiteralCall := do
  return ⟨← c.literal.shift? offset, ← c.arguments.shift? offset⟩

/-- The diagnostic is the one for the call: a mismatch at the literal, with the argument list as
the other place. -/
structure ReportedBy (c : LiteralCall) (d : Diagnostic) : Prop where
  /-- It is a mismatch. -/
  category : d.category = .typeMismatch
  /-- It shows at the literal. -/
  primary : d.primary = c.literal
  /-- The other place is the argument list. -/
  secondary : d.secondary = c.arguments

/-- If the places of all calls fit their words, there is one diagnostic for each call, in this
order, and no other. -/
def AllReported (calls : Option (List LiteralCall)) (found : Option (List Diagnostic)) : Prop :=
  ∀ cs, calls = some cs → ∃ ds, found = some ds ∧ List.Forall₂ ReportedBy cs ds

end LiteralCall

namespace Expr

/-- The expression inside all parentheses around it. -/
def core : Expr → Expr
  | grouping ⟨_, inner⟩ => inner.core
  | e => e

/-- Whether the expression is a literal, in parentheses or not. -/
def isLiteral (e : Expr) : Bool :=
  match e.core with
  | atom (.literal _ _) => true
  | _ => false

/-- Whether the expression is a call of a literal, in parentheses or not. -/
def isLiteralCall (e : Expr) : Bool :=
  match e.core with
  | call callee _ _ => callee.item.isLiteral
  | _ => false

/-- Where a literal stands, relative to the parentheses around it. -/
def literalSpan? : Expr → Option Span
  | atom (.literal _ text) => Span.ofText? text
  | grouping ⟨offset, inner⟩ => do (← literalSpan? inner).shift? offset
  | _ => none

/-- Where a part that is a literal stands, relative to the whole. -/
def literalSpanIn? (part : Placed Expr) : Option Span := do
  (← part.item.literalSpan?).shift? part.offset

/-- The call itself, if it is the call of a literal. -/
def ownLiteralCall? (callee : Placed Expr) (argumentsSpan : Span) : Option (List LiteralCall) :=
  if callee.item.isLiteral then do return [⟨← literalSpanIn? callee, argumentsSpan⟩] else some []

mutual

/-- The calls of literals in an expression, relative to it: a call before those in its callee and
in its arguments, and parts from left to right. There is no answer if a position outgrows its
word. -/
def literalCalls? : Expr → Option (List LiteralCall)
  | atom a => (Span.ofText? a.text).map fun _ => []
  | missing => some []
  | grouping inner => literalCallsIn? inner
  | unary _ _ operand => literalCallsIn? operand
  | binary lhs _ _ rhs => do return (← literalCallsIn? lhs) ++ (← literalCallsIn? rhs)
  | call callee arguments span => do
    return (← ownLiteralCall? callee span) ++ (← literalCallsIn? callee)
      ++ (← literalCallsInAll? arguments)

/-- The calls of literals in a part, relative to the whole. -/
def literalCallsIn? : Placed Expr → Option (List LiteralCall)
  | ⟨offset, part⟩ => do (← literalCalls? part).mapM fun c => c.shift? offset

/-- The calls of literals in several parts, relative to the whole. -/
def literalCallsInAll? : List (Placed Expr) → Option (List LiteralCall)
  | [] => some []
  | part :: parts => do return (← literalCallsIn? part) ++ (← literalCallsInAll? parts)

end

end Expr

namespace Derivation

mutual

/-- The stores that the calls in an expression settled on. -/
def stores : Derivation → List Substitution
  | atom _ _ _ => []
  | grouping inner => storesIn inner
  | unary _ operand => storesIn operand
  | binary _ lhs rhs => storesIn lhs ++ storesIn rhs
  | call site callee arguments => site.substitution :: (storesIn callee ++ storesInAll arguments)
  | missing _ => []

/-- The stores in a part. -/
def storesIn : Placed Derivation → List Substitution
  | ⟨_, part⟩ => stores part

/-- The stores in several parts. -/
def storesInAll : List (Placed Derivation) → List Substitution
  | [] => []
  | part :: parts => storesIn part ++ storesInAll parts

end

theorem mem_storesInAll {s : Substitution} {parts : List (Placed Derivation)} :
    s ∈ storesInAll parts ↔ ∃ p ∈ parts, s ∈ p.item.stores := by
  induction parts with
  | nil => simp [storesInAll]
  | cons p parts ih =>
    obtain ⟨offset, part⟩ := p
    simp [storesInAll, storesIn, ih]

end Derivation

/-! ## Stores and types -/

variable {e : Expr} {d : Derivation} {ids : List NodeId}

theorem CallSite.Settles.acyclic {inherited : Requirements} {result arrow : NodeId}
    {domain callee : Ty} {site : CallSite}
    (h : site.Settles inherited result arrow domain callee) : site.substitution.Acyclic := by
  cases h with
  | fits hcallee s horigins hs => exact hs
  | absorbs hcallee s horigins hs => exact hs
  | clashes hcallee hne => exact Substitution.acyclic_empty

/-- No store in a derivation has a cycle. -/
theorem Inferred.acyclic_of_mem_stores (h : Inferred e d ids) {s : Substitution}
    (hs : s ∈ d.stores) : s.Acyclic := by
  induction h with
  | name text id hspan => simp [Derivation.stores] at hs
  | literal form text id hspan => simp [Derivation.stores] at hs
  | missing id => simp [Derivation.stores] at hs
  | grouping offset _ ih =>
    rw [Derivation.stores, Derivation.storesIn] at hs
    exact ih hs
  | unary operator span offset result arrow _ ih =>
    rw [Derivation.stores, Derivation.storesIn] at hs
    exact ih hs
  | binary offset operator span offset' result operands arrow _ _ ih ih' =>
    rw [Derivation.stores, Derivation.storesIn, Derivation.storesIn, List.mem_append] at hs
    exact hs.elim ih ih'
  | call offset arguments span result arrow hdomain hsite _ _ _ ih ihs =>
    rw [Derivation.stores, Derivation.storesIn, List.mem_cons, List.mem_append,
      Derivation.mem_storesInAll] at hs
    rcases hs with rfl | hs | ⟨_, hmem, hs⟩
    · exact hsite.acyclic
    · exact ih hs
    · obtain ⟨p, hp, rfl⟩ := List.mem_map.1 hmem
      exact ihs p hp hs

/-- Only a literal has a primitive type. -/
theorem Inferred.isLiteral_iff (h : Inferred e d ids) :
    e.isLiteral = true ↔ ∃ i kind, d.type = .primitive i kind := by
  induction h with
  | grouping offset _ ih => exact ih
  | literal form text id hspan => exact iff_of_true rfl ⟨id, _, rfl⟩
  | call offset arguments span result arrow hdomain hsite _ _ _ ih ihs =>
    refine iff_of_false Bool.false_ne_true ?_
    cases hsite <;> simp [Derivation.type]
  | _ => exact iff_of_false Bool.false_ne_true (by simp [Derivation.type])

/-- Only a missing operand and a call of a literal have an invalid type. -/
theorem Inferred.isInvalid_iff (h : Inferred e d ids) :
    d.type.isInvalid = true ↔ e.core = .missing ∨ e.isLiteralCall = true := by
  induction h with
  | grouping offset _ ih => exact ih
  | missing id => exact iff_of_true rfl (.inl rfl)
  | @call e d _ _ _ _ offset arguments span result arrow hdomain hsite _ h _ ih ihs =>
    have hcore : (Expr.call ⟨offset, e⟩ (arguments.map (Placed.map Part.expr)) span).core
      ≠ .missing := by simp [Expr.core]
    rw [or_iff_right hcore]
    show _ ↔ e.isLiteral = true
    rw [h.isLiteral_iff]
    cases hsite <;> simp_all [Derivation.type, Ty.isInvalid]
  | _ => exact iff_of_false Bool.false_ne_true (by simp [Expr.core, Expr.isLiteralCall])

/-! ## Findings -/

/-- A literal's own type comes from the literal. -/
theorem Inferred.spansFor?_literal (h : Inferred e d ids) (hliteral : e.isLiteral = true) :
    d.spansFor? d.type.id = e.literalSpan?.map fun span => [span] := by
  induction h with
  | literal form text id hspan =>
    rw [Expr.literalSpan?, hspan, Derivation.spansFor?]
    exact congrArg some (if_pos rfl)
  | @grouping e d ids offset _ ih =>
    have hinner := ih hliteral
    rw [Derivation.spansFor?, Expr.literalSpan?]
    cases hspan : e.literalSpan? with
    | none =>
      rw [hspan] at hinner
      show Derivation.spansIn? ⟨offset, d⟩ d.type.id = none
      rw [Derivation.spansIn?, hinner]
      rfl
    | some span =>
      rw [hspan] at hinner
      exact Derivation.spansIn?_of_singleton offset hinner
  | _ => cases hliteral

theorem Inferred.ownSpans?_literal (h : Inferred e d ids) (hliteral : e.isLiteral = true)
    (offset : Offset) :
    Derivation.ownSpans? ⟨offset, d⟩
      = (Expr.literalSpanIn? ⟨offset, e⟩).map fun span => [span] := by
  -- the part in its place is like the part in parentheses
  have hspans : Derivation.spansIn? ⟨offset, d⟩ d.type.id
      = (Expr.literalSpanIn? ⟨offset, e⟩).map fun span => [span] := by
    have hgrouping := (Inferred.grouping offset h).spansFor?_literal hliteral
    rwa [Derivation.spansFor?, Expr.literalSpan?] at hgrouping
  rw [Derivation.ownSpans?, hspans]
  cases Expr.literalSpanIn? ⟨offset, e⟩ <;> rfl

namespace LiteralCall

variable {calls calls' : Option (List LiteralCall)} {found found' : Option (List Diagnostic)}

theorem allReported_nil : AllReported (some []) (some []) := by
  rintro _ ⟨⟩
  exact ⟨[], rfl, .nil⟩

theorem AllReported.append (h : AllReported calls found) (h' : AllReported calls' found') :
    AllReported (do return (← calls) ++ (← calls')) (do return (← found) ++ (← found')) := by
  intro cs hcs
  obtain ⟨left, hleft, hcs⟩ := Option.bind_eq_some_iff.1 hcs
  obtain ⟨right, hright, hcs⟩ := Option.bind_eq_some_iff.1 hcs
  cases hcs
  obtain ⟨ds, rfl, hds⟩ := h left hleft
  obtain ⟨ds', rfl, hds'⟩ := h' right hright
  exact ⟨ds ++ ds', rfl, List.rel_append hds hds'⟩

/-- A diagnostic moves with the call that it reports. -/
theorem ReportedBy.shift {c c' : LiteralCall} {d : Diagnostic} {offset : Offset}
    (h : c.ReportedBy d) (hc : c.shift? offset = some c') :
    ∃ d', d.shift? offset = some d' ∧ c'.ReportedBy d' := by
  obtain ⟨literal, hliteral, hc⟩ := Option.bind_eq_some_iff.1 hc
  obtain ⟨arguments, harguments, hc⟩ := Option.bind_eq_some_iff.1 hc
  cases hc
  rw [← h.primary] at hliteral
  rw [← h.secondary] at harguments
  refine ⟨{ d with primary := literal, secondary := arguments }, ?_, h.category, rfl, rfl⟩
  simp [Diagnostic.shift?, hliteral, harguments]

theorem exists_shiftAll? {cs cs' : List LiteralCall} {ds : List Diagnostic} {offset : Offset}
    (h : List.Forall₂ ReportedBy cs ds) (hcs : (cs.mapM fun c => c.shift? offset) = some cs') :
    ∃ ds', Diagnostic.shiftAll? ds offset = some ds' ∧ List.Forall₂ ReportedBy cs' ds' := by
  induction h generalizing cs' with
  | nil =>
    cases hcs
    exact ⟨[], rfl, .nil⟩
  | cons hone _ ih =>
    rw [List.mapM_cons] at hcs
    obtain ⟨c', hc', hcs⟩ := Option.bind_eq_some_iff.1 hcs
    obtain ⟨rest, hrest, hcs⟩ := Option.bind_eq_some_iff.1 hcs
    cases hcs
    obtain ⟨d', hd', hone'⟩ := hone.shift hc'
    obtain ⟨ds', hds', hothers⟩ := ih hrest
    refine ⟨d' :: ds', ?_, .cons hone' hothers⟩
    rw [Diagnostic.shiftAll?] at hds' ⊢
    rw [List.mapM_cons, hd', hds']
    rfl

theorem AllReported.shift (h : AllReported calls found) (offset : Offset) :
    AllReported (do (← calls).mapM fun c => c.shift? offset)
      (do Diagnostic.shiftAll? (← found) offset) := by
  intro cs hcs
  obtain ⟨inner, hinner, hcs⟩ := Option.bind_eq_some_iff.1 hcs
  obtain ⟨ds, rfl, hds⟩ := h inner hinner
  exact exists_shiftAll? hds hcs

end LiteralCall

/-- A call reports itself if its callee is a literal, and nothing otherwise. -/
theorem CallSite.Reports.allReported {site : CallSite} {offset : Offset} {span : Span}
    (h : site.Reports ⟨offset, d⟩ span) (hcallee : Inferred e d ids) :
    LiteralCall.AllReported (Expr.ownLiteralCall? ⟨offset, e⟩ span) (some site.diagnostics) := by
  rw [Reports] at h
  rw [Expr.ownLiteralCall?]
  split at h
  · rename_i i kind htype
    have hliteral : e.isLiteral = true := hcallee.isLiteral_iff.2 ⟨i, kind, htype⟩
    obtain ⟨message, places, hplaces, hdiagnostics⟩ := h
    rw [hcallee.ownSpans?_literal hliteral, Option.map_eq_some_iff] at hplaces
    obtain ⟨place, hplace, rfl⟩ := hplaces
    rw [if_pos hliteral, hplace, hdiagnostics]
    rintro _ ⟨⟩
    exact ⟨_, rfl, .cons ⟨rfl, rfl, rfl⟩ .nil⟩
  · rename_i hother
    have hliteral : ¬ e.isLiteral = true := by
      intro hliteral
      obtain ⟨i, kind, htype⟩ := hcallee.isLiteral_iff.1 hliteral
      exact hother i kind htype
    rw [if_neg hliteral, h]
    exact LiteralCall.allReported_nil

/-- The findings in several parts. -/
theorem Inferred.allReported_parts {arguments : List (Placed Part)}
    (h : ∀ p ∈ arguments, LiteralCall.AllReported p.item.expr.literalCalls?
      p.item.derivation.diagnostics?) :
    LiteralCall.AllReported (Expr.literalCallsInAll? (arguments.map (Placed.map Part.expr)))
      (Derivation.diagnosticsInAll? (arguments.map (Placed.map Part.derivation))) := by
  induction arguments with
  | nil =>
    rw [List.map_nil, List.map_nil, Expr.literalCallsInAll?, Derivation.diagnosticsInAll?]
    exact LiteralCall.allReported_nil
  | cons p arguments ih =>
    rw [List.map_cons, List.map_cons, Expr.literalCallsInAll?, Derivation.diagnosticsInAll?]
    refine .append ?_ (ih fun q hq => h q (.tail _ hq))
    rw [Placed.map, Placed.map, Expr.literalCallsIn?, Derivation.diagnosticsIn?]
    exact (h p (.head _)).shift p.offset

/-- The findings in a derivation are one mismatch for each call of a literal. -/
theorem Inferred.allReported (h : Inferred e d ids) :
    LiteralCall.AllReported e.literalCalls? d.diagnostics? := by
  induction h with
  | name text id hspan =>
    rw [Expr.literalCalls?, Derivation.diagnostics?, Atom.text, hspan]
    exact LiteralCall.allReported_nil
  | literal form text id hspan =>
    rw [Expr.literalCalls?, Derivation.diagnostics?, Atom.text, hspan]
    exact LiteralCall.allReported_nil
  | missing id =>
    rw [Expr.literalCalls?, Derivation.diagnostics?]
    exact LiteralCall.allReported_nil
  | grouping offset _ ih =>
    rw [Expr.literalCalls?, Derivation.diagnostics?, Expr.literalCallsIn?,
      Derivation.diagnosticsIn?]
    exact ih.shift offset
  | unary operator span offset result arrow _ ih =>
    rw [Expr.literalCalls?, Derivation.diagnostics?, Expr.literalCallsIn?,
      Derivation.diagnosticsIn?]
    exact ih.shift offset
  | binary offset operator span offset' result operands arrow _ _ ih ih' =>
    rw [Expr.literalCalls?, Derivation.diagnostics?, Expr.literalCallsIn?,
      Derivation.diagnosticsIn?, Expr.literalCallsIn?, Derivation.diagnosticsIn?]
    exact (ih.shift offset).append (ih'.shift offset')
  | call offset arguments span result arrow hdomain hsite hreport h _ ih ihs =>
    rw [Expr.literalCalls?, Derivation.diagnostics?, Expr.literalCallsIn?,
      Derivation.diagnosticsIn?]
    have hown := hreport.allReported h
    have hfirst := hown.append (ih.shift offset)
    have hall := hfirst.append (allReported_parts ihs)
    simpa [Option.bind_assoc] using hall

/-! ## What a session can do next -/

/-- How many identities the rule for an expression draws. -/
def Expr.draws : Expr → ℕ
  | atom _ => 1
  | missing => 1
  | grouping _ => 0
  | unary _ _ _ => 2
  | binary _ _ _ _ => 3
  | call _ arguments _ => if arguments.length = 1 then 2 else 3

/-- The rules that apply to the derivations at hand: which expression a rule is for, which
derivations it leaves, and what the typer does. -/
inductive Applies (trees : List (Expr × Derivation)) :
    Expr → List (Expr × Derivation) → TyperM Derivation → Prop
  | atom (a : Atom) : Applies trees (.atom a) trees (Typer.atom a)
  | missing : Applies trees .missing trees Typer.missing
  | grouping {rest : List (Expr × Derivation)} (inner : Placed (Expr × Derivation))
      (hpick : trees.Perm (inner.item :: rest)) :
      Applies trees (.grouping (inner.map Prod.fst)) rest (Typer.grouping (inner.map Prod.snd))
  | unary {rest : List (Expr × Derivation)} (operator : String) (span : Span)
      (operand : Placed (Expr × Derivation)) (hpick : trees.Perm (operand.item :: rest)) :
      Applies trees (.unary operator span (operand.map Prod.fst)) rest
        (Typer.unary operator span (operand.map Prod.snd))
  | binary {rest : List (Expr × Derivation)} (lhs : Placed (Expr × Derivation))
      (operator : String) (span : Span) (rhs : Placed (Expr × Derivation))
      (hpick : trees.Perm (lhs.item :: rhs.item :: rest)) :
      Applies trees (.binary (lhs.map Prod.fst) operator span (rhs.map Prod.fst)) rest
        (Typer.binary (lhs.map Prod.snd) operator span (rhs.map Prod.snd))
  | call {rest : List (Expr × Derivation)} (callee : Placed (Expr × Derivation))
      (arguments : List (Placed (Expr × Derivation))) (span : Span)
      (hpick : trees.Perm (callee.item :: (arguments.map Placed.item ++ rest))) :
      Applies trees (.call (callee.map Prod.fst) (arguments.map (Placed.map Prod.fst)) span) rest
        (Typer.call (callee.map Prod.snd) (arguments.map (Placed.map Prod.snd)) span)

section

variable {g₀ g g' : Typer} {trees rest : List (Expr × Derivation)} {rule : TyperM Derivation}

/-- A session goes on with a rule that succeeds. -/
theorem Applies.session (h : Applies trees e rest rule) (hsession : Session g₀ g trees)
    (hd : rule g = .ok (d, g')) : Session g₀ g' ((e, d) :: rest) := by
  cases h with
  | atom a => exact .atom a hsession hd
  | missing => exact .missing hsession hd
  | grouping inner hpick => exact .grouping inner hsession hpick hd
  | unary operator span operand hpick => exact .unary operator span operand hsession hpick hd
  | binary lhs operator span rhs hpick => exact .binary lhs operator span rhs hsession hpick hd
  | call callee arguments span hpick => exact .call callee arguments span hsession hpick hd

/-- A call draws two identities, and one more unless it has one argument. -/
theorem Ty.IsArguments.draws_eq {types : List Ty} {domain : Ty} {extra : List NodeId}
    (h : Ty.IsArguments types domain extra) {result arrow : NodeId} {source : IdSource} {n : ℕ}
    (htaken : result :: (extra ++ [arrow]) = source.taken n) :
    n = if types.length = 1 then 2 else 3 := by
  have hlength := congrArg List.length htaken
  rw [IdSource.length_taken] at hlength
  rw [← hlength]
  cases h <;> simp

theorem Applies.ids_eq (h : Applies trees e rest rule) (hd : rule g = .ok (d, g')) :
    g'.ids = g.ids.advance e.draws := by
  cases h with
  | atom a =>
    have hrun := Typer.infer_record_eq_ok hd
    cases a with
    | name text =>
      obtain ⟨-, -, -, hadvance, -⟩ := Derivation.ofAtom_name_eq_ok hrun
      exact hadvance
    | literal form text =>
      obtain ⟨-, -, -, hadvance, -⟩ := Derivation.ofAtom_literal_eq_ok hrun
      exact hadvance
  | missing => exact (congrArg Prod.snd (Typer.fresh_record_eq_ok hd)).symm
  | grouping inner hpick => exact (Typer.recordExpression_eq_ok hd).2
  | unary operator span operand hpick =>
    exact (congrArg Prod.snd (Typer.fresh_record_eq_ok hd)).symm
  | binary lhs operator span rhs hpick =>
    exact (congrArg Prod.snd (Typer.fresh_record_eq_ok hd)).symm
  | call callee arguments span hpick =>
    obtain ⟨steps, hrun⟩ := Typer.call_eq_ok hd
    obtain ⟨n, result, arrow, extra, domain, -, -, htaken, hadvance, hdomain, -⟩ :=
      Derivation.ofCall_eq_ok hrun
    rw [hadvance, hdomain.draws_eq htaken, Expr.draws]
    simp only [List.length_map]

/-- The typer without its trace. -/
def Typer.silent (g : Typer) : Typer := { g with tracing := false }

/-- A rule makes `d`, and all that is left to do is to record it. -/
structure Typer.Makes (rule : TyperM Derivation) (g : Typer) (d : Derivation) : Prop where
  /-- It makes `d` also if no trace is kept. -/
  silent : ∃ g', rule g.silent = .ok (d, g')
  /-- It ends by recording `d`. -/
  records : ∃ name detail g', rule g = recordExpression name detail d g'

theorem Typer.recordExpression_cases (name : Rule) (detail : String) (d : Derivation) (g : Typer) :
    (∃ g', recordExpression name detail d g = .ok (d, g')) ∨
      recordExpression name detail d g = .error .overflow ∧ d.diagnostics? = none := by
  show (∃ g', (record _ _ _ _ _ g).bind _ = _) ∨ (record _ _ _ _ _ g).bind _ = _ ∧ _
  rcases record_cases name d.type detail d.requirements d.diagnostics? g with
    ⟨g', hok⟩ | ⟨-, herror, hfound⟩
  · rw [hok]
    exact .inl ⟨g', rfl⟩
  · rw [herror]
    exact .inr ⟨rfl, hfound⟩

theorem Typer.makes_atom (a : Atom) (g : Typer) :
    (∃ d, Makes (atom a) g d) ∨ atom a g = .error .overflow ∧ Span.ofText? a.text = none := by
  cases hspan : Span.ofText? a.text with
  | none =>
    refine .inr ⟨?_, rfl⟩
    cases a <;> simp only [atom, Derivation.ofAtom, hspan] <;> rfl
  | some span =>
    refine .inl ?_
    cases a <;> simp only [atom, Derivation.ofAtom, hspan] <;> exact ⟨_, ⟨_, rfl⟩, _, _, _, rfl⟩

/-- A call of a leaf comes to an end, if the callee's variable is not in the function type. -/
theorem Derivation.ofCall_cases (callee : Placed Derivation) (arguments : List (Placed Derivation))
    (span : Span) (source : IdSource) (hcallee : callee.item.type.Leaf ids)
    (hfresh : ∀ n result arrow extra domain, result :: (extra ++ [arrow]) = source.taken n →
      Ty.IsArguments (arguments.map fun a => a.item.type) domain extra →
      ∀ v ∈ ids, v ∉ (Ty.arrow arrow domain (.flexible result)).mentions) :
    (∃ r, ofCall callee arguments span source = .ok r) ∨
      ofCall callee arguments span source = .error .overflow ∧ ownSpans? callee = none ∧
        ∃ i kind, callee.item.type = .primitive i kind := by
  obtain ⟨n, result, arrow, extra, domain, htaken, harguments, hrun⟩ :=
    ofCall_run callee arguments span source
  obtain ⟨⟨steps, outcome⟩, hattempt, hexpects⟩ :=
    CallSite.exists_unify?_leaf hcallee arrow result domain
  have hfresh := hfresh n result arrow extra domain htaken harguments
  rw [hattempt] at hrun
  -- a store without a cycle resolves everything, so that a call that fits is made
  have hfits : ∀ s : Substitution, s.Acyclic → outcome = .ok s →
      ∃ r, ofCall callee arguments span source = .ok r := by
    rintro s hs rfl
    obtain ⟨origins, -, hsite⟩ := CallSite.exists_fitting? hs
      (inheritedRequirements callee arguments) (.flexible result)
      (.arrow arrow domain (.flexible result))
    simp only [Inference.unlessSome_bind, hsite] at hrun
    exact ⟨_, hrun⟩
  generalize hc : callee.item.type = c at hcallee hexpects
  cases hexpects with
  | binds v =>
    cases hcallee with
    | flexible hv => exact .inl (hfits _ (Substitution.acyclic_assign (hfresh v hv)) rfl)
  | absorbs i => exact .inl (hfits _ Substitution.acyclic_empty rfl)
  | clashes i kind found found' =>
    simp only [Inference.unlessSome_bind, CallSite.clashing?] at hrun
    cases hplaces : ownSpans? callee with
    | none =>
      rw [hplaces] at hrun
      exact .inr ⟨hrun, rfl, i, kind, rfl⟩
    | some places =>
      rw [hplaces] at hrun
      exact .inl ⟨_, hrun⟩

/-- What `ofCall` makes, the typer records. -/
theorem Typer.makes_call {callee : Placed Derivation} {arguments : List (Placed Derivation)}
    {span : Span} {r : (Derivation × List Step) × IdSource}
    (h : Derivation.ofCall callee arguments span g.ids = .ok r) :
    Makes (call callee arguments span) g r.1.1 := by
  obtain ⟨⟨d, steps⟩, ids'⟩ := r
  have hcall : ∀ g' : Typer, g'.ids = g.ids → call callee arguments span g'
      = (observe steps >>= fun _ => recordExpression .call callee.item.type.render d)
          { g' with ids := ids' } := by
    intro g' hids
    show (infer _ g').bind _ = _
    rw [infer_of_ok (hids ▸ h)]
    rfl
  refine ⟨?_, ?_⟩
  · rw [hcall g.silent rfl]
    exact ⟨_, rfl⟩
  · rw [hcall g rfl]
    exact ⟨_, _, _, rfl⟩

theorem Typer.call_eq_error {callee : Placed Derivation} {arguments : List (Placed Derivation)}
    {span : Span} {fault : Fault}
    (h : Derivation.ofCall callee arguments span g.ids = .error fault) :
    call callee arguments span g = .error fault := by
  show (infer _ g).bind _ = _
  rw [infer_of_error h]
  rfl

/-- A call of parts with identities of their own is made, unless a position outgrows its word. -/
theorem Pool.makes_call {drawn : List NodeId} {p : Part} {arguments : List (Placed Part)}
    (h : Pool drawn (p :: arguments.map Placed.item)) (offset : Offset) (span : Span)
    (hnew : drawn.Disjoint (g.ids.taken (if arguments.length = 1 then 2 else 3))) :
    (∃ d, Typer.Makes (Typer.call ⟨offset, p.derivation⟩
      (arguments.map (Placed.map Part.derivation)) span) g d) ∨
    Typer.call ⟨offset, p.derivation⟩ (arguments.map (Placed.map Part.derivation)) span g
        = .error .overflow ∧
      (Expr.call ⟨offset, p.expr⟩ (arguments.map (Placed.map Part.expr)) span).literalCalls?
        = none := by
  have hp := h.inferred p (.head _)
  have hcases := Derivation.ofCall_cases ⟨offset, p.derivation⟩
    (arguments.map (Placed.map Part.derivation)) span g.ids hp.leaf
    fun n result arrow extra domain htaken hdomain => by
      rw [List.map_map] at hdomain
      have hn := hdomain.draws_eq htaken
      rw [List.length_map] at hn
      exact h.callee_fresh (fun id hid hid' => hnew (h.subset hid) (hn ▸ hid')) hdomain htaken
  rcases hcases with ⟨r, hr⟩ | ⟨herror, hspans, hprimitive⟩
  · exact .inl ⟨_, Typer.makes_call hr⟩
  · refine .inr ⟨Typer.call_eq_error herror, ?_⟩
    have hliteral := hp.isLiteral_iff.2 hprimitive
    rw [hp.ownSpans?_literal hliteral, Option.map_eq_none_iff] at hspans
    rw [Expr.literalCalls?, Expr.ownLiteralCall?, if_pos hliteral, hspans]
    rfl

/-- Every rule that a session can apply makes a derivation, unless a position outgrows its word. -/
theorem Applies.makes (h : Applies trees e rest rule) (hsession : Session g₀ g trees)
    (hids : g₀.ids.Distinct (g.ids.advance e.draws)) :
    (∃ d, Typer.Makes rule g d) ∨ rule g = .error .overflow ∧ e.literalCalls? = none := by
  cases h with
  | atom a =>
    rcases Typer.makes_atom a g with hmakes | ⟨herror, hspan⟩
    · exact .inl hmakes
    · refine .inr ⟨herror, ?_⟩
      rw [Expr.literalCalls?, hspan]
      rfl
  | missing => exact .inl ⟨_, ⟨_, rfl⟩, _, _, _, rfl⟩
  | grouping inner hpick => exact .inl ⟨_, ⟨_, rfl⟩, _, _, _, rfl⟩
  | unary operator span operand hpick => exact .inl ⟨_, ⟨_, rfl⟩, _, _, _, rfl⟩
  | binary lhs operator span rhs hpick => exact .inl ⟨_, ⟨_, rfl⟩, _, _, _, rfl⟩
  | call callee arguments span hpick =>
    obtain ⟨k, hk, hpooled⟩ := hsession.orderly (hids.of_reaches ⟨_, rfl⟩)
    obtain ⟨parts, others, hparts, -, hpool⟩ := hpooled.pick (List.cons_append ▸ hpick)
    obtain ⟨p, parts, rfl, hp, hparts⟩ := List.map_eq_cons_iff.1 hparts
    obtain ⟨args, rfl, rfl⟩ := exists_placed_parts hparts
    obtain ⟨offset, _⟩ := callee
    subst hp
    -- what the call draws is in none of the derivations at hand
    have hnodup := hids (k + _) (by rw [hk, IdSource.advance_add])
    rw [IdSource.taken_add, ← hk] at hnodup
    obtain ⟨-, -, hnew⟩ := List.nodup_append'.1 hnodup
    simp only [Expr.draws, List.length_map] at hnew
    have hmakes := hpool.left.makes_call offset span hnew
    rw [List.map_map, List.map_map]
    exact hmakes

end

/-- Typing fails where a literal is called and nowhere else. In a derivation at hand no store has a
cycle, there is one mismatch for each call of a literal and no other finding, and the type is
invalid exactly for a missing operand and a call of a literal. A rule that is applied next makes a
derivation unless a position outgrows its word. -/
theorem Session.fails_at_literal_calls {g₀ g : Typer} {trees : List (Expr × Derivation)}
    (h : Session g₀ g trees) :
    (g₀.ids.Distinct g.ids → ∀ e d, (e, d) ∈ trees →
      (∀ s ∈ d.stores, s.Acyclic) ∧
      LiteralCall.AllReported e.literalCalls? d.diagnostics? ∧
      (d.type.isInvalid = true ↔ e.core = .missing ∨ e.isLiteralCall = true)) ∧
    ∀ e rest rule, Applies trees e rest rule → g₀.ids.Distinct (g.ids.advance e.draws) →
      (∃ d g', rule g = .ok (d, g') ∧ Session g₀ g' ((e, d) :: rest)) ∨
        rule g = .error .overflow ∧ e.literalCalls? = none := by
  constructor
  · intro hids e d hmem
    obtain ⟨-, ids, -, -, hinferred, -⟩ := h.exists_inferred hids hmem
    exact ⟨fun s => hinferred.acyclic_of_mem_stores, hinferred.allReported, hinferred.isInvalid_iff⟩
  · intro e rest rule hrule hids
    rcases hrule.makes h hids with ⟨d, ⟨g₁, hsilent⟩, name, detail, g₂, hrecords⟩ | hoverflow
    · rcases Typer.recordExpression_cases name detail d g₂ with ⟨g', hok⟩ | ⟨herror, hfound⟩
      · rw [← hrecords] at hok
        exact .inl ⟨d, g', hok, hrule.session h hok⟩
      · -- without a trace the derivation is made, and its findings would be counted
        refine .inr ⟨hrecords.trans herror, Option.eq_none_iff_forall_ne_some.2 fun cs hcs => ?_⟩
        have hsession : Session g₀ g.silent trees := h.other (.refl _)
        have hadvance : g₁.ids = g.ids.advance e.draws := hrule.ids_eq (g := g.silent) hsilent
        obtain ⟨-, ids, -, -, hinferred, -⟩ :=
          (hrule.session hsession hsilent).exists_inferred (hadvance ▸ hids) (.head _)
        obtain ⟨ds, hds, -⟩ := hinferred.allReported cs hcs
        rw [hfound] at hds
        cases hds
    · exact .inr hoverflow

/-- In `f((1)(x))` the inner call is reported at the literal, and the outer call has a valid
type. -/
theorem Session.fails_at_literal_calls_nested : ∃ g d,
    Session (.ofSource (.pinnedAt 0) false) g
      [(.call ⟨.zero, .atom (.name "f")⟩
        [⟨⟨0, 2⟩, .call ⟨.zero, .grouping ⟨⟨0, 1⟩, .atom (.literal .int "1")⟩⟩
          [⟨⟨0, 4⟩, .atom (.name "x")⟩] ⟨⟨0, 3⟩, ⟨0, 6⟩⟩⟩] ⟨⟨0, 1⟩, ⟨0, 9⟩⟩, d)] ∧
    (∀ s ∈ d.stores, s.Acyclic) ∧ d.type.isInvalid = false ∧
    ∃ ds, d.diagnostics? = some ds ∧
      List.Forall₂ LiteralCall.ReportedBy [⟨⟨⟨0, 3⟩, ⟨0, 4⟩⟩, ⟨⟨0, 5⟩, ⟨0, 8⟩⟩⟩] ds := by
  have hstart : Session (.ofSource (.pinnedAt 0) false) _ [] := .start
  have hliteral := Session.atom (.literal .int "1") hstart rfl
  have hgrouping := Session.grouping ⟨⟨0, 1⟩, _⟩ hliteral (.refl _) rfl
  have hargument := Session.atom (.name "x") hgrouping rfl
  have hinner := Session.call ⟨.zero, _⟩ [⟨⟨0, 4⟩, _⟩] ⟨⟨0, 3⟩, ⟨0, 6⟩⟩ hargument (.swap _ _ []) rfl
  have hcallee := Session.atom (.name "f") hinner rfl
  have houter := Session.call ⟨.zero, _⟩ [⟨⟨0, 2⟩, _⟩] ⟨⟨0, 1⟩, ⟨0, 9⟩⟩ hcallee (.refl _) rfl
  obtain ⟨hstores, hreported, hinvalid⟩ := houter.fails_at_literal_calls.1
    (IdSource.Ascending.distinct ⟨by decide, .inr rfl⟩) _ _ (.head _)
  refine ⟨_, _, houter, hstores, Bool.eq_false_iff.2 fun h => ?_, hreported _ rfl⟩
  -- the outer callee is a name
  rcases hinvalid.1 h with hmissing | hcall
  · cases hmissing
  · exact Bool.false_ne_true hcall

end CoContextual
