import CoContextual.Table
import CoContextual.Primitive
import CoContextual.NodeId

/-!
# Types

A type is a tree whose nodes carry identities. The identities link nodes to source text and play
no part in comparing types: `Ty.alike` looks at the structure alone, and
`Ty.alike_iff_erase_eq` says that it decides equality of the trees without their identities.

Variables are of two sorts. Inference makes flexible ones and may bind them; rigid ones come from
annotations and stay as they are.
-/

namespace CoContextual

/-- A type variable, known by its identity. -/
inductive TyVar where
  /-- A placeholder that inference may bind. -/
  | flexible (id : NodeId)
  /-- A variable that an annotation introduced. -/
  | rigid (id : NodeId)
deriving DecidableEq

namespace TyVar

/-- The identity of the variable. -/
def id : TyVar → NodeId
  | flexible id => id
  | rigid id => id

/-- Whether the variable comes from an annotation. -/
def isRigid : TyVar → Bool
  | flexible _ => false
  | rigid _ => true

/-- The identity of a flexible variable. -/
def flexibleId? : TyVar → Option NodeId
  | flexible id => some id
  | rigid _ => none

/-- Flexible variables come before rigid ones; within a sort the identities decide. -/
instance : Ord TyVar := ⟨compareLex (compareOn isRigid) (compareOn id)⟩

instance : Std.TransOrd TyVar :=
  inferInstanceAs (Std.TransCmp (compareLex (compareOn isRigid) (compareOn id)))

instance : Std.LawfulEqOrd TyVar where
  eq_of_compare {a b} h := by
    have h : compareLex (compareOn isRigid) (compareOn id) a b = .eq := h
    rw [compareLex_eq_eq] at h
    have sort : a.isRigid = b.isRigid := Std.LawfulEqOrd.eq_of_compare h.1
    have same : a.id = b.id := Std.LawfulEqOrd.eq_of_compare h.2
    cases a <;> cases b <;> simp_all [isRigid, id]

end TyVar

/-- A type. -/
inductive Ty where
  /-- A type without parameters. -/
  | primitive (id : NodeId) (kind : Primitive)
  /-- The type of functions. -/
  | arrow (id : NodeId) (domain codomain : Ty)
  /-- The type of tuples and argument lists; how many components there are matters. -/
  | product (id : NodeId) (components : List Ty)
  /-- A type variable. -/
  | var (v : TyVar)
  /-- A type quantified over the variables in `bound`. -/
  | scheme (id : NodeId) (bound : List TyVar) (body : Ty)
  /-- What a failed inference leaves behind. -/
  | invalid (id : NodeId)

namespace Ty

/-- Induction on types; for a product the hypothesis holds of every component. -/
theorem ind {P : Ty → Prop} (primitive : ∀ id kind, P (.primitive id kind))
    (arrow : ∀ id d c, P d → P c → P (.arrow id d c))
    (product : ∀ id cs, (∀ c ∈ cs, P c) → P (.product id cs)) (var : ∀ v, P (.var v))
    (scheme : ∀ id bound body, P body → P (.scheme id bound body))
    (invalid : ∀ id, P (.invalid id)) (t : Ty) : P t :=
  @Ty.rec P (fun cs => ∀ c ∈ cs, P c) primitive arrow product var scheme invalid
    (by simp) (fun _ _ hc hcs => by simpa using ⟨hc, hcs⟩) t

/-- The identity of the top node; a variable is its own identity. -/
def id : Ty → NodeId
  | primitive id _ => id
  | arrow id _ _ => id
  | product id _ => id
  | var v => v.id
  | scheme id _ _ => id
  | invalid id => id

/-- Whether the type is what a failed inference left behind. -/
def isInvalid : Ty → Bool
  | invalid _ => true
  | _ => false

/-- The variable that the type is, if it is one. -/
def asVar? : Ty → Option TyVar
  | var v => some v
  | _ => none

/-- The flexible variable with the given identity, as a type. -/
abbrev flexible (id : NodeId) : Ty := .var (.flexible id)

/-! ## Nodes -/

mutual

/-- The identities of the nodes, a node before its parts; quantifier lists are no nodes. -/
def nodeIds : Ty → List NodeId
  | primitive id _ => [id]
  | arrow id d c => id :: (nodeIds d ++ nodeIds c)
  | product id cs => id :: nodeIdsAll cs
  | var v => [v.id]
  | scheme id _ body => id :: nodeIds body
  | invalid id => [id]

/-- The identities of the nodes of several types, one type after the other. -/
def nodeIdsAll : List Ty → List NodeId
  | [] => []
  | t :: ts => nodeIds t ++ nodeIdsAll ts

end

mutual

/-- The number of nodes. -/
def size : Ty → Nat
  | arrow _ d c => size d + size c + 1
  | product _ cs => sizeAll cs + 1
  | scheme _ _ body => size body + 1
  | _ => 1

/-- The number of nodes of several types. -/
def sizeAll : List Ty → Nat
  | [] => 0
  | t :: ts => size t + sizeAll ts

end

/-! ## Comparing without identities -/

mutual

/-- The tree with every identity that is not a variable's set to zero. -/
def erase : Ty → Ty
  | primitive _ kind => primitive 0 kind
  | arrow _ d c => arrow 0 (erase d) (erase c)
  | product _ cs => product 0 (eraseAll cs)
  | var v => var v
  | scheme _ bound body => scheme 0 bound (erase body)
  | invalid _ => invalid 0

/-- Erases the identities of several types. -/
def eraseAll : List Ty → List Ty
  | [] => []
  | t :: ts => erase t :: eraseAll ts

end

mutual

/-- Whether two types have the same structure. Node identities are ignored, variables are
compared as they are, and all invalid types are alike. -/
def alike : Ty → Ty → Bool
  | primitive _ k, primitive _ k' => k = k'
  | arrow _ d c, arrow _ d' c' => alike d d' && alike c c'
  | product _ cs, product _ cs' => alikeAll cs cs'
  | var v, var v' => v = v'
  | scheme _ bound body, scheme _ bound' body' => bound = bound' && alike body body'
  | invalid _, invalid _ => true
  | _, _ => false

/-- Whether two lists have the same length and are alike place by place. -/
def alikeAll : List Ty → List Ty → Bool
  | [], [] => true
  | t :: ts, u :: us => alike t u && alikeAll ts us
  | _, _ => false

end

theorem alikeAll_iff {ts us : List Ty}
    (ih : ∀ t ∈ ts, ∀ u, alike t u = true ↔ erase t = erase u) :
    alikeAll ts us = true ↔ eraseAll ts = eraseAll us := by
  induction ts generalizing us with
  | nil => cases us <;> simp [alikeAll, eraseAll]
  | cons t ts ihs =>
    cases us with
    | nil => simp [alikeAll, eraseAll]
    | cons u us =>
      rw [alikeAll, Bool.and_eq_true, ih t (by simp), ihs fun t ht => ih t (by simp [ht])]
      simp [eraseAll]

/-- Being alike is being the same tree once the identities are erased. -/
theorem alike_iff_erase_eq (t u : Ty) : alike t u = true ↔ erase t = erase u := by
  induction t using ind generalizing u with
  | primitive id kind => cases u <;> simp [alike, erase]
  | arrow id d c ihd ihc => cases u <;> simp [alike, erase, ihd, ihc]
  | product id cs ih => cases u <;> simp [alike, erase, alikeAll_iff ih]
  | var v => cases u <;> simp [alike, erase]
  | scheme id bound body ih => cases u <;> simp [alike, erase, ih]
  | invalid id => cases u <;> simp [alike, erase]

/-! ## Free variables -/

mutual

/-- The variables that occur outside the reach of their quantifier, in order of occurrence. -/
def freeVars : Ty → List TyVar
  | arrow _ d c => freeVars d ++ freeVars c
  | product _ cs => freeVarsAll cs
  | var v => [v]
  | scheme _ bound body => (freeVars body).filter fun v => v ∉ bound
  | _ => []

/-- The free variables of several types, one type after the other. -/
def freeVarsAll : List Ty → List TyVar
  | [] => []
  | t :: ts => freeVars t ++ freeVarsAll ts

end

/-- The free variables, each once, in ascending order. -/
def freeVarSet (t : Ty) : List TyVar := (Table.ofList (t.freeVars.map (·, ()))).keys

/-- The flexible free variables, each once, in ascending order. -/
def freeFlexible (t : Ty) : List NodeId := t.freeVarSet.filterMap TyVar.flexibleId?

/-! ## Building types with fresh identities -/

/-- A flexible variable that occurs nowhere else. -/
def fresh : Fresh Ty := return .flexible (← freshId)

/-- A rigid variable that occurs nowhere else. -/
def freshRigid : Fresh Ty := return .var (.rigid (← freshId))

/-- A primitive type with a fresh identity. -/
def newPrimitive (kind : Primitive) : Fresh Ty := return .primitive (← freshId) kind

/-- A function type with a fresh identity. -/
def newArrow (domain codomain : Ty) : Fresh Ty := return .arrow (← freshId) domain codomain

/-- A product with a fresh identity. -/
def newProduct (components : List Ty) : Fresh Ty := return .product (← freshId) components

/-- The type `body` quantified over `bound`, under a fresh identity; without variables to
quantify it is `body` itself. -/
def quantify (bound : List TyVar) (body : Ty) : Fresh Ty :=
  if bound.isEmpty then return body else return .scheme (← freshId) bound body

/-- The type of an argument list: `unit` for none, the argument's own type for one, and a product
for more. -/
def ofArguments : List Ty → Fresh Ty
  | [] => newPrimitive .unit
  | [t] => return t
  | ts => newProduct ts

end Ty

end CoContextual
