import CoContextual.Proofs.Typing.Agreement
import Mathlib.Algebra.Order.BigOperators.Group.List

/-!
# Expressions with one type

If a primitive type is the only one that the judgement gives an expression, then inference finds it:
the requirements of the expression are discharged without a failure, and its type is resolved to
the primitive one (`Inferred.discharges_to`). A variable that were left in the resolved type could
stand for any type, so that the judgement would give the expression others.
-/

namespace CoContextual

open Substitution

/-- The primitive type is the one type that the judgement gives the expression. -/
structure Expr.Definite (b : Bindings) (e : Expr) (kind : Primitive) : Prop where
  /-- The expression has the type. -/
  hasType : ∃ i, HasType b e (.primitive i kind)
  /-- It has no other. -/
  unique : ∀ t, HasType b e t → ∃ i, t = .primitive i kind

theorem Ty.alike_primitive_iff {t : Ty} {i : NodeId} {kind : Primitive} :
    t.alike (.primitive i kind) = true ↔ ∃ j, t = .primitive j kind := by
  cases t <;> simp [alike]

/-! ## What is drawn for the instances -/

/-- Instances draw no more than every declaration may quantify. -/
theorem Use.drawn_le {uses : List Use} {m : ℕ}
    (h : ∀ u ∈ uses, u.declared.quantified.length ≤ m) : drawn uses ≤ uses.length * m := by
  have hsum := List.sum_le_card_nsmul (uses.map fun u => u.declared.quantified.length) m
    (List.forall_mem_map.2 h)
  rwa [List.length_map, nsmul_eq_mul, Nat.cast_id] at hsum

/-- If one identifier is required only, its uses are all that is discharged. -/
theorem Requirements.declaredUses_of_only {r : Requirements} {b : Bindings} {token : Ident}
    {declared : Ty} (h : r.Only (· = token)) (hb : b.get? token = some declared) :
    r.declaredUses b = (r.get token).map fun t => ⟨token, t, declared⟩ := by
  have hkeys : ∀ e ∈ r.uses.toList, e.1 = token := by
    rintro ⟨other, types⟩ he
    refine h other ?_
    rw [contains, Table.contains, Table.mem_toList_iff.1 he]
    rfl
  obtain ⟨⟨l, sorted⟩⟩ := r
  rw [declaredUses, get, Table.get?]
  cases l with
  | nil => rfl
  | cons e rest =>
    obtain ⟨he, hrest⟩ := List.forall_mem_cons.1 hkeys
    obtain ⟨_, types⟩ := e
    subst he
    -- an entry behind the first would have another key
    obtain rfl : rest = [] := by
      refine List.eq_nil_iff_forall_not_mem.2 fun e he => ?_
      have hlt := (List.pairwise_cons.1 sorted).1 e he
      simp [hrest e he, Std.ReflCmp.compare_self] at hlt
    simp [Table.lookup, hb, Std.ReflCmp.compare_self]

/-! ## Resolving -/

/-- What is resolved once the requirements of an expression are discharged holds no scheme. -/
theorem Inferred.schemeFree_of_discharge? {b : Bindings} {e : Expr} {d : Derivation}
    {ids : List NodeId} {source source' : IdSource} {s : Substitution} {remaining : Requirements}
    {resolved : Ty} (h : Inferred e d ids) (hcovered : e.Covered b)
    (hclean : d.diagnostics? = some [])
    (hdischarge : d.requirements.discharge? b .empty source = some (⟨s, remaining, []⟩, source'))
    (hs : s.Acyclic) (hresolved : s.resolve? d.type = some resolved) :
    resolved.schemeFree = true := by
  rw [Requirements.discharge?] at hdischarge
  obtain ⟨⟨s', failures, source''⟩, hlink, hdischarge⟩ := Option.bind_eq_some_iff.1 hdischarge
  cases hdischarge
  have hplain := plain_of_linkUses hlink (fun u hu => (h.use_plain hcovered hclean u hu).1)
    (allEntries_empty _)
  obtain rfl := Option.some.inj ((hs.resolve?_eq d.type).symm.trans hresolved)
  exact (Ty.schemeFree_substitute h.leaf.over.schemeFree).2 fun v _ =>
    (Ty.plain_iff.1 (hs.plain_image hplain v)).1

/-- An expression with one type is resolved to it. -/
theorem Inferred.discharges_to {b : Bindings} {e : Expr} {d : Derivation} {ids : List NodeId}
    {source : IdSource} {kind : Primitive} (h : Inferred e d ids) (hnodup : ids.Nodup)
    (hcovered : e.Covered b)
    (hdrawn : (source.taken (Use.drawn (d.requirements.declaredUses b))).Nodup)
    (hnew : ∀ v ∈ source.taken (Use.drawn (d.requirements.declaredUses b)), v ∉ ids)
    (hdefinite : e.Definite b kind) :
    ∃ s source' i, d.requirements.discharge? b .empty source = some (⟨s, .empty, []⟩, source') ∧
      s.resolve? d.type = some (.primitive i kind) := by
  obtain ⟨i, htype⟩ := hdefinite.hasType
  obtain ⟨hclean, s, source', resolved, hdischarge, hs, hresolved, -⟩ :=
    h.exists_discharge? hnodup hcovered hdrawn hnew htype
  have hscheme := h.schemeFree_of_discharge? hcovered hclean hdischarge hs hresolved
  obtain ⟨resolved', hresolved', hinstances⟩ :=
    h.hasType_of_discharge? hnodup hcovered hclean hdischarge rfl hs
  obtain rfl := Option.some.inj (hresolved.symm.trans hresolved')
  -- a variable that is left could as well stand for the invalid type
  obtain ⟨j, hj⟩ := hdefinite.unique _ (hinstances (fun _ => .invalid 0) fun _ => rfl)
  refine ⟨s, source', j, hdischarge, hresolved.trans (congrArg some ?_)⟩
  cases resolved with
  | primitive k kind' => exact hj
  | arrow => simp at hj
  | product => simp at hj
  | var v => cases v <;> simp at hj
  | scheme => simp at hscheme
  | invalid => simp at hj

/-- The same along a session, with a source that draws nothing twice. -/
theorem Session.discharges_to {g₀ g : Typer} {trees : List (Expr × Derivation)} {b : Bindings}
    {e : Expr} {d : Derivation} {source : IdSource} {kind : Primitive} (h : Session g₀ g trees)
    (hmem : (e, d) ∈ trees) (hcovered : e.Covered b) (hreach : g.ids.Reaches source)
    (hids : g₀.ids.Distinct (source.advance (Use.drawn (d.requirements.declaredUses b))))
    (hdefinite : e.Definite b kind) :
    ∃ s source' i, d.requirements.discharge? b .empty source = some (⟨s, .empty, []⟩, source') ∧
      s.resolve? d.type = some (.primitive i kind) := by
  obtain ⟨n, ids, hn, hsub, hinferred, hnodup⟩ :=
    h.exists_inferred (hids.of_reaches (hreach.trans (IdSource.reaches_advance _ _))) hmem
  obtain ⟨k, rfl⟩ := hreach
  -- what discharging draws is distinct from all that was drawn before
  have hall := hids (n + k + Use.drawn (d.requirements.declaredUses b))
    (by rw [hn, IdSource.advance_add, IdSource.advance_add])
  rw [IdSource.taken_add, IdSource.advance_add, ← hn, IdSource.taken_add] at hall
  obtain ⟨-, hdrawn, hdisjoint⟩ := List.nodup_append'.1 hall
  exact hinferred.discharges_to hnodup hcovered hdrawn
    (fun v hv hold => hdisjoint (List.mem_append_left _ (hsub hold)) hv) hdefinite

end CoContextual
