import CoContextual.Proofs.Expression.Identities
import CoContextual.Proofs.Ty.Instance

/-!
# Typing with declarations at hand

`HasType b e t` is the typing judgement that knows its surroundings: names and operators have the
instances of the types that `b` declares, and every type is scheme-free. Instances leave the
identities of nodes open, so that types count up to these.

The rules for expressions know no declarations and collect requirements instead. An assignment meets
these if it makes every use of a declared identifier an instance of its declaration
(`Bindings.Meets`); the lemmas about it follow the way in which rules collect requirements.
-/

namespace CoContextual

/-- The typing judgement: under the declarations `b` the expression has the type. -/
inductive HasType (b : Bindings) : Expr → Ty → Prop
  | name {text : String} {declared t : Ty} (hb : b.get? (.name text) = some declared)
      (hinstance : declared.HasInstance Ty.flexible t) (ht : t.schemeFree = true) :
      HasType b (.atom (.name text)) t
  | literal (form : LiteralForm) (text : String) (i : NodeId) :
      HasType b (.atom (.literal form text)) (.primitive i (.ofLiteral form text))
  | grouping {e : Expr} {t : Ty} (offset : Offset) (h : HasType b e t) :
      HasType b (.grouping ⟨offset, e⟩) t
  | unary {e : Expr} {declared t u : Ty} {operator : String} (span : Span) (offset : Offset)
      (i : NodeId) (h : HasType b e t) (hb : b.get? (.operator operator) = some declared)
      (hinstance : declared.HasInstance Ty.flexible (.arrow i t u)) (hu : u.schemeFree = true) :
      HasType b (.unary operator span ⟨offset, e⟩) u
  | binary {e e' : Expr} {declared t t' u : Ty} {operator : String} (offset : Offset) (span : Span)
      (offset' : Offset) (i j : NodeId) (h : HasType b e t) (h' : HasType b e' t')
      (hb : b.get? (.operator operator) = some declared)
      (hinstance : declared.HasInstance Ty.flexible (.arrow i (.product j [t, t']) u))
      (hu : u.schemeFree = true) :
      HasType b (.binary ⟨offset, e⟩ operator span ⟨offset', e'⟩) u
  | call {e : Expr} {arguments : List (Placed Expr)} {types : List Ty} {domain u : Ty}
      {extra : List NodeId} (offset : Offset) (span : Span) (i : NodeId)
      (h : HasType b e (.arrow i domain u)) (hlen : arguments.length = types.length)
      (hargs : ∀ p ∈ arguments.zip types, HasType b p.1.item p.2)
      (hdomain : Ty.IsArguments types domain extra) :
      HasType b (.call ⟨offset, e⟩ arguments span) u

/-- The types of expressions are scheme-free. -/
theorem HasType.schemeFree {b : Bindings} {e : Expr} {t : Ty} (h : HasType b e t) :
    t.schemeFree = true := by
  induction h with
  | name hb hinstance ht => exact ht
  | literal form text i => rfl
  | grouping offset _ ih => exact ih
  | unary span offset i _ hb hinstance hu _ => exact hu
  | binary offset span offset' i j _ _ hb hinstance hu _ _ => exact hu
  | call offset span i _ hlen hargs hdomain ih _ =>
    rw [Ty.schemeFree_arrow, Bool.and_eq_true] at ih
    exact ih.2

/-- The identifier is declared with a closed type. -/
def Bindings.Closes (b : Bindings) (token : Ident) : Prop :=
  ∃ declared, b.get? token = some declared ∧ declared.closed = true

/-- No operand is missing, and every name and operator is declared with a closed type. -/
inductive Expr.Covered (b : Bindings) : Expr → Prop
  | name {text : String} (h : b.Closes (.name text)) : Covered b (.atom (.name text))
  | literal (form : LiteralForm) (text : String) : Covered b (.atom (.literal form text))
  | grouping {e : Expr} {offset : Offset} (h : Covered b e) : Covered b (.grouping ⟨offset, e⟩)
  | unary {e : Expr} {operator : String} {span : Span} {offset : Offset}
      (hop : b.Closes (.operator operator)) (h : Covered b e) :
      Covered b (.unary operator span ⟨offset, e⟩)
  | binary {e e' : Expr} {operator : String} {offset offset' : Offset} {span : Span}
      (hop : b.Closes (.operator operator)) (h : Covered b e) (h' : Covered b e') :
      Covered b (.binary ⟨offset, e⟩ operator span ⟨offset', e'⟩)
  | call {e : Expr} {offset : Offset} {arguments : List (Placed Expr)} {span : Span}
      (h : Covered b e) (hargs : ∀ a ∈ arguments, Covered b a.item) :
      Covered b (.call ⟨offset, e⟩ arguments span)

/-! ## Requirements that an assignment meets -/

/-- Under the assignment every use of a declared identifier is an instance of its declaration. -/
def Bindings.Meets (b : Bindings) (r : Requirements) (A : NodeId → Ty) : Prop :=
  r.Each fun token t => ∀ declared, b.get? token = some declared →
    declared.HasInstance Ty.flexible (t.substitute A)

namespace Bindings

variable {b : Bindings} {r : Requirements} {A B : NodeId → Ty}

theorem meets_add {token : Ident} {declared t : Ty} (hb : b.get? token = some declared) :
    b.Meets (r.add token t) A ↔
      b.Meets r A ∧ declared.HasInstance Ty.flexible (t.substitute A) := by
  rw [Meets, Requirements.each_add, hb]
  simp only [Option.some.injEq, forall_eq']
  rfl

/-- Replacing variables in the uses is composing the assignment. -/
theorem meets_mapTypes {f : NodeId → Ty} (hr : r.Each fun _ t => t.schemeFree = true) :
    b.Meets (r.mapTypes (Ty.substitute f)) A ↔ b.Meets r fun v => (f v).substitute A := by
  rw [Meets, Requirements.each_mapTypes]
  refine forall_congr' fun token => forall₂_congr fun t ht => ?_
  simp only [Ty.substitute_substitute (hr token t ht)]

/-- Only the variables that the uses mention matter, and these up to the identities of nodes. -/
theorem Meets.congr {ids : List NodeId} (h : b.Meets r A) (hr : r.Each fun _ t => t.Over ids)
    (hAB : ∀ v ∈ ids, (A v).erase = (B v).erase) : b.Meets r B := by
  intro token t ht declared hb
  refine (h token t ht declared hb).congr (Ty.erase_substitute_congr rfl fun v hv => ?_)
  exact hAB v ((hr token t ht).mentions_mem v hv)

end Bindings

end CoContextual
