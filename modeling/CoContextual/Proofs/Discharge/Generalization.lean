import CoContextual.Proofs.Discharge.Outcome
import CoContextual.Proofs.Expression.Rules
import CoContextual.Proofs.Substitution.Resolved

/-!
# Generalizing before linking

A declaration without an annotation quantifies its variables before it is known what the
identifiers it uses are declared as. This is safe: a variable that the uses do not mention is never
bound when they are discharged, and stays quantified.

- `Requirements.mem_freeFlexible`: what is collected from the uses is what is free in one of them;
- `Ty.substitute_schemeOver`: replacing other variables leaves a quantifier list as it is;
- `Statement.declare_generalizes`: the variables that a declaration quantifies, and what becomes of
  them when the uses in its value are discharged.
-/

namespace CoContextual

/-! ## Collected variables -/

namespace Table

variable {κ υ : Type} [Ord κ]

theorem sorted_keys (t : Table κ υ) : t.keys.Pairwise fun a b => compare a b = .lt :=
  List.pairwise_map.2 t.sorted

/-- Collecting keys in a table drops repeats and nothing else. -/
theorem mem_keys_ofList [Std.TransOrd κ] [Std.LawfulEqOrd κ] [DecidableEq κ] {l : List κ} {k : κ} :
    k ∈ (ofList (l.map (·, ()))).keys ↔ k ∈ l := by
  rw [keys, List.mem_map]
  constructor
  · rintro ⟨⟨k, u⟩, hmem, rfl⟩
    have hlist := mem_of_get?_ofList (mem_toList_iff.1 hmem)
    simpa using hlist
  · intro hk
    have hsome : ((ofList (l.map (·, ()))).get? k).isSome :=
      get?_ofList_isSome (by simpa using hk)
    obtain ⟨u, hu⟩ := Option.isSome_iff_exists.1 hsome
    exact ⟨(k, u), mem_toList_iff.2 hu, rfl⟩

end Table

namespace Ty

theorem mem_freeFlexible {t : Ty} {v : NodeId} : v ∈ t.freeFlexible ↔ .flexible v ∈ t.freeVars := by
  rw [freeFlexible, List.mem_filterMap]
  constructor
  · rintro ⟨w, hw, hv⟩
    cases w with
    | flexible w =>
      cases hv
      exact Table.mem_keys_ofList.1 hw
    | rigid w => cases hv
  · intro hv
    exact ⟨.flexible v, Table.mem_keys_ofList.2 hv, rfl⟩

/-- Flexible variables are collected in the order of their identities. -/
theorem sorted_freeFlexible (t : Ty) : t.freeFlexible.Pairwise (· < ·) := by
  refine (Table.sorted_keys _).filterMap _ fun v w hvw a ha b hb => ?_
  -- between two flexible variables the identities decide
  cases v with
  | rigid v => cases ha
  | flexible v =>
    cases w with
    | rigid w => cases hb
    | flexible w =>
      cases ha
      cases hb
      exact Nat.compare_eq_lt.1 hvw

end Ty

/-- What is collected from the uses is what is free in one of them. -/
theorem Requirements.mem_freeFlexible {r : Requirements} {v : NodeId} :
    v ∈ r.freeFlexible ↔ ∃ token, ∃ t ∈ r.get token, .flexible v ∈ t.freeVars := by
  rw [freeFlexible, Table.mem_keys_ofList, List.mem_flatMap]
  simp only [Ty.mem_freeFlexible, List.mem_flatten, Table.values, List.mem_map]
  constructor
  · rintro ⟨t, ⟨_, ⟨⟨token, types⟩, hmem, rfl⟩, ht⟩, hv⟩
    refine ⟨token, t, ?_, hv⟩
    rw [get, Table.mem_toList_iff.1 hmem]
    exact ht
  · rintro ⟨token, t, ht, hv⟩
    rw [get] at ht
    cases hget : r.uses.get? token with
    | none => simp [hget] at ht
    | some types =>
      rw [hget] at ht
      exact ⟨t, ⟨types, ⟨(token, types), Table.mem_toList_iff.2 hget, rfl⟩, ht⟩, hv⟩

/-! ## Quantifier lists -/

namespace TyVar

/-- Variables in ascending order all remain quantified. -/
theorem remaining_of_sorted {vs : List NodeId} (h : vs.Pairwise (· < ·)) :
    remaining (vs.map Ty.flexible) = vs.map .flexible := by
  have hsorted : (vs.map TyVar.flexible).Pairwise fun x y => x.id ≤ y.id :=
    List.pairwise_map.2 (h.imp Nat.le_of_lt)
  have hdistinct : (vs.map TyVar.flexible).Pairwise (· ≠ ·) :=
    List.pairwise_map.2 (h.imp fun hlt heq => hlt.ne (TyVar.flexible.inj heq))
  have hvars : vs.map Ty.flexible = (vs.map TyVar.flexible).map Ty.var := by
    rw [List.map_map]
    rfl
  rw [hvars, remaining_map_var, sortById_eq_self hsorted, dropRepeats_eq_self hdistinct.isChain]

end TyVar

namespace Ty

/-- The type `body` quantified over `bound`, under the identity `id`; without variables to quantify
it is `body` itself. -/
def schemeOver (id : NodeId) (bound : List NodeId) (body : Ty) : Ty :=
  if bound = [] then body else .scheme id (bound.map .flexible) body

theorem quantified_schemeOver {id : NodeId} {bound : List NodeId} {body : Ty}
    (h : body.schemeFree = true) : (schemeOver id bound body).quantified = bound.map .flexible := by
  by_cases hbound : bound = []
  · rw [schemeOver, if_pos hbound, hbound]
    cases body with
    | scheme => cases h
    | _ => rfl
  · rw [schemeOver, if_neg hbound]
    rfl

theorem mem_freeVars_schemeOver {id v : NodeId} {bound : List NodeId} {body : Ty} :
    .flexible v ∈ (schemeOver id bound body).freeVars ↔
      .flexible v ∈ body.freeVars ∧ v ∉ bound := by
  by_cases hbound : bound = []
  · simp [schemeOver, hbound]
  · have hmem : TyVar.flexible v ∈ bound.map TyVar.flexible ↔ v ∈ bound := by simp
    rw [schemeOver, if_neg hbound, freeVars, List.mem_filter, decide_eq_true_eq, hmem]

/-- Replacing other variables leaves the quantifier list as it is. -/
theorem substitute_schemeOver {f : NodeId → Ty} {bound : List NodeId}
    (hsorted : bound.Pairwise (· < ·)) (hf : ∀ v ∈ bound, f v = .flexible v) (id : NodeId)
    (body : Ty) :
    (schemeOver id bound body).substitute f = schemeOver id bound (body.substitute f) := by
  by_cases hbound : bound = []
  · rw [schemeOver, if_pos hbound, schemeOver, if_pos hbound]
  · have hvars : (bound.map TyVar.flexible).map (TyVar.substitute f) = bound.map Ty.flexible := by
      rw [List.map_map]
      exact List.map_congr_left hf
    rw [schemeOver, if_neg hbound, schemeOver, if_neg hbound, substitute, hvars,
      TyVar.remaining_of_sorted hsorted]
    split
    · rename_i hnil
      exact absurd (List.map_eq_nil_iff.1 hnil) hbound
    · rfl

/-- Generalizing quantifies the variables that are not fixed. -/
theorem generalize_run (t : Ty) (fixed : List NodeId) (ids : IdSource) :
    ∃ id, (t.generalize fixed ids).1
      = schemeOver id (t.freeFlexible.filter fun v => v ∉ fixed) t := by
  refine ⟨ids.draw.1, ?_⟩
  rw [generalize, quantify, schemeOver]
  generalize t.freeFlexible.filter (fun v => v ∉ fixed) = bound
  cases bound <;> rfl

end Ty

/-! ## Declarations -/

/-- A declaration without an annotation requires what its value does, and binds its name to the
value's type, quantified over the variables that are free in none of the uses. -/
theorem Statement.ofDeclaration_none {name : Ident} {value : Placed Derivation} {s : Statement}
    {steps : List Step} {ids ids' : IdSource}
    (h : ofDeclaration name none value ids = .ok ((s, steps), ids')) :
    s.requirements = value.item.requirements ∧
      ∃ id, s.bindings = .single name (.schemeOver id
        (value.item.type.freeFlexible.filter fun v => v ∉ value.item.requirements.freeFlexible)
        value.item.type) := by
  obtain ⟨declaration, ids₁, hlift, hret⟩ := bind_eq_ok.1 h
  cases hret
  obtain rfl := congrArg Prod.fst (Inference.lift_eq_ok hlift)
  obtain ⟨id, hid⟩ := Ty.generalize_run value.item.type value.item.requirements.freeFlexible ids
  exact ⟨rfl, id, congrArg (Bindings.single name) hid⟩

/-- A declaration without an annotation quantifies variables that its uses do not mention, and
whatever else is free in its binding is free in a use. Discharging the uses against declarations
that do not mention the quantified variables leaves these unbound and out of all that is bound, so
that the binding resolves to a type that is quantified over the same variables. -/
theorem Statement.declare_generalizes {name : Ident} {value : Placed Derivation} {g g' : Typer}
    {s : Statement} (hs : Typer.declare name none value g = .ok (s, g'))
    (htype : value.item.type.schemeFree = true)
    (hrequired : ∀ token, ∀ t ∈ value.item.requirements.get token, t.schemeFree = true) :
    ∃ (id : NodeId) (bound : List NodeId),
      s.bindings = .single name (.schemeOver id bound value.item.type) ∧
      (Ty.schemeOver id bound value.item.type).quantified = bound.map .flexible ∧
      (∀ token, ∀ t ∈ s.requirements.get token, ∀ v ∈ bound, .flexible v ∉ t.freeVars) ∧
      (∀ v, .flexible v ∈ (Ty.schemeOver id bound value.item.type).freeVars →
        ∃ token, ∃ t ∈ s.requirements.get token, .flexible v ∈ t.freeVars) ∧
      ∀ (b : Bindings) (ids ids' : IdSource) (d : Discharge),
        (∀ token t, b.get? token = some t → ∀ v ∈ bound, v ∉ t.mentions) →
        ids.Ahead (· ∈ value.item.type.mentions) ids' →
        s.requirements.discharge? b .empty ids = some (d, ids') →
        (∀ v ∈ bound, d.substitution.get? v = none) ∧
        (∀ v ∈ bound, ∀ w e, d.substitution.get? w = some e → v ∉ e.toTy.mentions) ∧
        (d.substitution.Acyclic →
          ∃ body, d.substitution.resolve? value.item.type = some body ∧
            d.substitution.resolve? (.schemeOver id bound value.item.type)
              = some (.schemeOver id bound body)) := by
  obtain ⟨steps, hs⟩ := Typer.declare_eq_ok hs
  obtain ⟨hrequirements, id, hbindings⟩ := ofDeclaration_none hs
  rw [hrequirements]
  set fixed := value.item.requirements.freeFlexible
  set bound := value.item.type.freeFlexible.filter fun v => v ∉ fixed
  -- what is quantified: the variables of the value's type that are free in no use
  have hmem : ∀ v, v ∈ bound ↔ .flexible v ∈ value.item.type.freeVars ∧ v ∉ fixed := by
    intro v
    rw [List.mem_filter, Ty.mem_freeFlexible, decide_eq_true_eq]
  have hsorted : bound.Pairwise (· < ·) := value.item.type.sorted_freeFlexible.filter _
  have hfree : ∀ token, ∀ t ∈ value.item.requirements.get token, ∀ v ∈ bound,
      .flexible v ∉ t.freeVars := fun token t ht v hv hfree =>
    ((hmem v).1 hv).2 (Requirements.mem_freeFlexible.2 ⟨token, t, ht, hfree⟩)
  refine ⟨id, bound, hbindings, Ty.quantified_schemeOver htype, hfree, fun v hv => ?_, ?_⟩
  -- a variable that is left free was kept from being quantified by a use
  · rw [Ty.mem_freeVars_schemeOver, hmem, not_and_not_right] at hv
    exact Requirements.mem_freeFlexible.1 (hv.2 hv.1)
  · intro b ids ids' d hdeclared hahead hd
    -- the quantified variables are in no use, in no declaration, and below all that is drawn
    have hamong : d.substitution.Among (· ∉ bound) := by
      refine Requirements.among_of_discharge? hd (Substitution.among_empty _) ?_ ?_ ?_
      · intro token t ht v hv hbound
        exact hfree token t ht v hbound ((Ty.mem_mentions_iff (hrequired token t ht)).1 hv)
      · exact fun token t ht v hv hbound => hdeclared token t ht v hbound hv
      · rintro n rfl v hv hbound
        refine hahead.not_of_mem_taken hv ?_
        exact Ty.mem_mentions_of_mem_freeVars ((hmem v).1 hbound).1
    have hnone : ∀ v ∈ bound, d.substitution.get? v = none := by
      intro v hv
      by_contra hsome
      obtain ⟨e, he⟩ := Option.ne_none_iff_exists'.1 hsome
      exact hamong.keys v e he hv
    refine ⟨hnone, fun v hv w e he hmention => hamong.entries w e he v hmention hv, ?_⟩
    intro hacyclic
    refine ⟨_, hacyclic.resolve?_eq _, ?_⟩
    -- the quantified variables resolve to themselves, in ascending order as they were
    rw [hacyclic.resolve?_eq, Ty.substitute_schemeOver hsorted]
    exact fun v hv => hacyclic.image_of_none (hnone v hv)

/-- A function whose result is the type of `x` is polymorphic in its argument, and stays so when `x`
turns out to be a number. -/
theorem Statement.declare_generalizes_open_result : ∃ (s : Statement) (g' : Typer) (d : Discharge)
    (ids' : IdSource),
    Typer.declare (.name "f") none
      ⟨.zero, .atom (.arrow 1 (.flexible 2) (.flexible 3))
        (Requirements.empty.add (.name "x") (.flexible 3)) .zero⟩
      (.ofSource (.pinnedAt 4) false) = .ok (s, g') ∧
    s.bindings = .single (.name "f")
      (.scheme 4 [.flexible 2] (.arrow 1 (.flexible 2) (.flexible 3))) ∧
    s.requirements.discharge? (.single (.name "x") (.primitive 9 .i32)) .empty (.pinnedAt 20)
      = some (d, ids') ∧
    d.substitution.get? 2 = none ∧
    d.substitution.resolve? (.scheme 4 [.flexible 2] (.arrow 1 (.flexible 2) (.flexible 3)))
      = some (.scheme 4 [.flexible 2] (.arrow 1 (.flexible 2) (.primitive 9 .i32))) := by
  let value : Derivation := .atom (.arrow 1 (.flexible 2) (.flexible 3))
    (Requirements.empty.add (.name "x") (.flexible 3)) .zero
  let b := Bindings.single (.name "x") (.primitive 9 .i32)
  obtain ⟨s, g', hs, hbinding, d, ids', hd, hids, hacyclic, hresolved⟩ : ∃ s g',
      Typer.declare (.name "f") none ⟨.zero, value⟩ (.ofSource (.pinnedAt 4) false) = .ok (s, g') ∧
      s.bindings = .single (.name "f") (.scheme 4 [.flexible 2] value.type) ∧ ∃ d ids',
      s.requirements.discharge? b .empty (.pinnedAt 20) = some (d, ids') ∧ ids'.nextBlock = 0 ∧
      d.substitution.Acyclic ∧ d.substitution.resolve? value.type
        = some (.arrow 1 (.flexible 2) (.primitive 9 .i32)) :=
    ⟨_, _, rfl, rfl, _, _, rfl, rfl, Substitution.acyclic_of_measure (fun v => v) (by decide), rfl⟩
  obtain ⟨id, bound, hbindings, hquantified, -, -, hlinked⟩ := declare_generalizes hs rfl
    (Requirements.each_add.2 ⟨Requirements.each_empty, rfl⟩)
  -- the binding is at hand, so that its quantifier list is known
  have hscheme : Ty.schemeOver id bound value.type = .scheme 4 [.flexible 2] value.type := by
    have hget := congrArg (Bindings.get? · (.name "f")) (hbindings.symm.trans hbinding)
    rw [Bindings.get?_single, Bindings.get?_single, if_pos rfl, if_pos rfl] at hget
    exact Option.some.inj hget
  obtain rfl : bound = [2] := by
    rw [show Ty.schemeOver id bound _ = _ from hscheme] at hquantified
    exact List.map_injective_iff.2 (fun _ _ h => TyVar.flexible.inj h) hquantified.symm
  obtain rfl : id = 4 := by
    rw [Ty.schemeOver, if_neg (List.cons_ne_nil _ _)] at hscheme
    injection hscheme
  obtain ⟨hnone, -, hresolves⟩ := hlinked b (.pinnedAt 20) ids' d
    (fun token t ht v _ hv => by
      rw [Bindings.get?_single, Option.ite_none_right_eq_some] at ht
      cases ht.2
      cases hv)
    ⟨⟨by decide, .inr hids⟩, by decide⟩ hd
  obtain ⟨body, hbody, hresolve⟩ := hresolves hacyclic
  obtain rfl := Option.some.inj (hbody.symm.trans hresolved)
  exact ⟨s, g', d, ids', hs, hbindings, hd, hnone 2 (.head _), hresolve⟩

end CoContextual
