import CoContextual.Proofs.Renumbering.Types
import CoContextual.Proofs.Unify.Course

/-!
# Renumbering stores

Following aliases, resolving types and unifying them commute with renumbering. The number of
entries and the sizes of types, from which the bounds on these searches are computed, stay as they
are, so that a search on a renumbered store ends exactly if the search on the store does.

- `Substitution.applyTo?_renumber`: resolving, with the record of what was replaced;
- `Substitution.unify?_renumber`: unifying, with all steps and the reason for a failure.
-/

namespace CoContextual

variable (k : ℕ)

/-! ## Entries and lookups -/

/-- The entry with `k` added to every identity. -/
def Entry.renumber : Entry → Entry
  | bound t => bound (t.renumber k)
  | redirect w => redirect (w + k)

theorem Entry.size_renumber (e : Entry) : (e.renumber k).size = e.size := by
  cases e <;> simp [renumber, size]

/-- What a lookup leads to, with `k` added to every identity. -/
def Lookup.renumber : Lookup → Lookup
  | unbound w => unbound (w + k)
  | bound t => bound (t.renumber k)

namespace Substitution

/-- The store with `k` added to every identity, those of its variables included. -/
def renumber (s : Substitution) : Substitution :=
  ⟨s.entries.image (NodeId.compare_add k) (Entry.renumber k)⟩

@[simp]
theorem renumber_empty : Substitution.empty.renumber k = .empty := rfl

theorem get?_renumber (s : Substitution) (v : NodeId) :
    (s.renumber k).get? (v + k) = (s.get? v).map (Entry.renumber k) :=
  Table.get?_image (NodeId.compare_add k) (Entry.renumber k) s.entries v

@[simp]
theorem size_renumber (s : Substitution) : (s.renumber k).size = s.size := Table.size_image _ _ _

theorem weight_renumber (s : Substitution) : (s.renumber k).weight = s.weight := by
  rw [weight, renumber, Table.values_image, List.foldr_map]
  simp only [Entry.size_renumber]
  rfl

theorem assign_of_ne_flexible {s : Substitution} {v : NodeId} {t : Ty}
    (ht : ∀ w, t ≠ .flexible w) : s.assign v t = ⟨s.entries.insert v (.bound t)⟩ := by
  unfold assign
  split
  · rename_i w
    exact absurd rfl (ht w)
  · rfl

theorem assign_renumber (s : Substitution) (v : NodeId) (t : Ty) :
    (s.renumber k).assign (v + k) (t.renumber k) = (s.assign v t).renumber k := by
  have hinsert : ∀ e, (⟨(s.renumber k).entries.insert (v + k) (Entry.renumber k e)⟩ : Substitution)
      = renumber k ⟨s.entries.insert v e⟩ := fun e =>
    congrArg mk (Table.insert_image (NodeId.compare_add k) (Entry.renumber k) s.entries v e).symm
  by_cases ht : ∃ w, t = .flexible w
  · obtain ⟨w, rfl⟩ := ht
    rw [Ty.renumber_flexible, assign, assign]
    simp only [Nat.add_right_cancel_iff]
    split
    · rfl
    · exact hinsert (.redirect w)
  · rw [assign_of_ne_flexible fun w h => ht ⟨w, h⟩,
      assign_of_ne_flexible (Ty.renumber_ne_flexible k fun w h => ht ⟨w, h⟩)]
    exact hinsert (.bound t)

theorem findWithin_renumber (s : Substitution) (fuel : ℕ) (v : NodeId) :
    (s.renumber k).findWithin fuel (v + k) = (s.findWithin fuel v).map (Lookup.renumber k) := by
  induction fuel generalizing v with
  | zero => rfl
  | succ fuel ih =>
    rw [findWithin, findWithin, get?_renumber]
    cases s.get? v with
    | none => rfl
    | some e =>
      cases e with
      | bound t => rfl
      | redirect w => exact ih w

theorem find?_renumber (s : Substitution) (v : NodeId) :
    (s.renumber k).find? (v + k) = (s.find? v).map (Lookup.renumber k) := by
  rw [find?, find?, size_renumber, findWithin_renumber]

end Substitution

/-! ## Resolving -/

namespace TyVar

theorem insertById_renumber (v : TyVar) (ws : List TyVar) :
    insertById (v.renumber k) (ws.map (renumber k)) = (insertById v ws).map (renumber k) := by
  induction ws with
  | nil => rfl
  | cons w ws ih =>
    simp only [List.map_cons, insertById, id_renumber, Nat.add_le_add_iff_right, ih]
    split <;> rfl

theorem sortById_renumber (vs : List TyVar) :
    sortById (vs.map (renumber k)) = (sortById vs).map (renumber k) := by
  induction vs with
  | nil => rfl
  | cons v vs ih => rw [List.map_cons, sortById, sortById, ih, insertById_renumber]

theorem dropRepeats_renumber (vs : List TyVar) :
    dropRepeats (vs.map (renumber k)) = (dropRepeats vs).map (renumber k) := by
  fun_induction dropRepeats vs with
  | case1 => rfl
  | case2 v => rfl
  | case3 v rest ih =>
    rw [List.map_cons, List.map_cons, dropRepeats, if_pos rfl, ← List.map_cons, ih]
  | case4 v w rest hne ih =>
    rw [List.map_cons, List.map_cons, dropRepeats, if_neg (by simpa using hne), ← List.map_cons, ih,
      List.map_cons]

end TyVar

namespace Resolved

/-- The resolved type and its records with `k` added to every identity. -/
def renumber (r : Resolved) : Resolved :=
  ⟨r.type.renumber k, r.origins.map fun p => (p.1 + k, p.2.renumber k)⟩

@[simp]
theorem type_renumber (r : Resolved) : (r.renumber k).type = r.type.renumber k := rfl

theorem map_type_renumber (rs : List Resolved) :
    (rs.map (renumber k)).map type = (rs.map type).map (Ty.renumber k) := by
  rw [List.map_map, List.map_map]
  rfl

theorem flatMap_origins_renumber (rs : List Resolved) :
    (rs.map (renumber k)).flatMap origins
      = (rs.flatMap origins).map fun p => (p.1 + k, p.2.renumber k) := by
  rw [List.flatMap_map, List.map_flatMap]
  rfl

end Resolved

namespace Ty

theorem remainingBound_renumber (rs : List Resolved) :
    remainingBound (rs.map (Resolved.renumber k)) = (remainingBound rs).map (TyVar.renumber k) := by
  rw [remainingBound, remainingBound, ← TyVar.dropRepeats_renumber, ← TyVar.sortById_renumber,
    List.filterMap_map, List.map_filterMap]
  simp only [Function.comp_def, Resolved.type_renumber, asVar?_renumber]

variable {replace replace' : NodeId → Option Resolved}

theorem applyVar_renumber (h : ∀ v, replace' (v + k) = (replace v).map (Resolved.renumber k))
    (v : TyVar) :
    applyVar replace' (v.renumber k) = (applyVar replace v).map (Resolved.renumber k) := by
  cases v with
  | flexible v => exact h v
  | rigid v => simp [applyVar, TyVar.renumber, Resolved.renumber]

theorem applyAllWith_renumber {ts : List Ty}
    (ih : ∀ t ∈ ts,
      (t.renumber k).applyWith replace' = (t.applyWith replace).map (Resolved.renumber k)) :
    applyAllWith replace' (ts.map (renumber k))
      = (applyAllWith replace ts).map (List.map (Resolved.renumber k)) := by
  induction ts with
  | nil => rfl
  | cons t ts ihs =>
    rw [List.map_cons, applyAllWith, applyAllWith, ih t (.head _),
      ihs fun u hu => ih u (.tail _ hu)]
    cases t.applyWith replace with
    | none => rfl
    | some r => cases applyAllWith replace ts <;> rfl

/-- Replacing renumbered variables by what takes the place of the variables. -/
theorem applyWith_renumber (h : ∀ v, replace' (v + k) = (replace v).map (Resolved.renumber k))
    (t : Ty) :
    (t.renumber k).applyWith replace' = (t.applyWith replace).map (Resolved.renumber k) := by
  induction t using ind with
  | primitive id kind => simp [applyWith, Resolved.renumber]
  | arrow id d c ihd ihc =>
    rw [renumber_arrow, applyWith, applyWith, ihd, ihc]
    cases d.applyWith replace with
    | none => rfl
    | some d' => cases c.applyWith replace <;> simp [Resolved.renumber]
  | product id cs ih =>
    rw [renumber_product, applyWith, applyWith, applyAllWith_renumber k ih]
    cases applyAllWith replace cs with
    | none => rfl
    | some rs =>
      simp only [Option.map_some, Option.bind_eq_bind, Option.bind_some, Option.pure_def,
        Resolved.map_type_renumber, Resolved.flatMap_origins_renumber, Resolved.renumber,
        renumber_product]
  | var v =>
    rw [renumber_var, applyWith, applyWith, applyVar_renumber k h]
  | scheme id bound body ih =>
    rw [renumber_scheme, applyWith, applyWith, mapM_map_eq (applyVar_renumber k h), ih]
    cases bound.mapM (applyVar replace) with
    | none => rfl
    | some vars =>
      cases body.applyWith replace with
      | none => rfl
      | some body' =>
        simp only [Option.map_some, Option.bind_eq_bind, Option.bind_some, remainingBound_renumber,
          Resolved.flatMap_origins_renumber]
        cases remainingBound vars <;> simp [Resolved.renumber]
  | invalid id => simp [applyWith, Resolved.renumber]

end Ty

namespace Substitution

theorem expand_renumber (s : Substitution) (fuel : ℕ) (v : NodeId) :
    (s.renumber k).expand fuel (v + k) = (s.expand fuel v).map (Resolved.renumber k) := by
  induction fuel generalizing v with
  | zero => rfl
  | succ fuel ih =>
    rw [expand, expand, find?_renumber]
    match s.find? v with
    | none => rfl
    | some (.unbound w) =>
      simp only [Option.map_some, Lookup.renumber, Nat.add_right_cancel_iff, Resolved.renumber,
        Ty.renumber_flexible]
      split <;> simp [TyVar.renumber]
    | some (.bound t) =>
      simp only [Option.map_some, Lookup.renumber, Ty.applyWith_renumber k ih]
      cases t.applyWith (s.expand fuel) with
      | none => rfl
      | some r => simp [Resolved.renumber, TyVar.renumber]

/-- Resolving a renumbered type on a renumbered store. -/
theorem applyTo?_renumber (s : Substitution) (t : Ty) :
    (s.renumber k).applyTo? (t.renumber k) = (s.applyTo? t).map (Resolved.renumber k) := by
  rw [applyTo?, applyTo?, size_renumber]
  exact Ty.applyWith_renumber k (expand_renumber k s _) t

theorem applyToAll?_renumber (s : Substitution) (ts : List Ty) :
    (s.renumber k).applyToAll? (ts.map (Ty.renumber k))
      = (s.applyToAll? ts).map (List.map (Resolved.renumber k)) := by
  rw [applyToAll?, applyToAll?, size_renumber]
  exact Ty.applyAllWith_renumber k fun t _ => Ty.applyWith_renumber k (expand_renumber k s _) t

theorem resolve?_renumber (s : Substitution) (t : Ty) :
    (s.renumber k).resolve? (t.renumber k) = (s.resolve? t).map (Ty.renumber k) := by
  rw [resolve?, resolve?, applyTo?_renumber, Option.map_map, Option.map_map]
  rfl

end Substitution

/-! ## Unifying -/

/-- The reason for a failure, with `k` added to every identity. -/
def UnifyError.renumber : UnifyError → UnifyError
  | mismatch expected found => mismatch (expected.renumber k) (found.renumber k)
  | arity expected found => arity expected found

@[simp]
theorem UnifyError.category_renumber (e : UnifyError) : (e.renumber k).category = e.category := by
  cases e <;> rfl

/-- The step with `k` added to every identity. -/
def Step.renumber (step : Step) : Step := ⟨step.action, step.left.renumber k, step.right.renumber k⟩

/-- What came of a unification, with `k` added to every identity. -/
def Attempt.renumberResult : Except UnifyError Substitution → Except UnifyError Substitution
  | .ok s => .ok (s.renumber k)
  | .error e => .error (e.renumber k)

namespace Attempt

/-- The attempt with `k` added to every identity. -/
def renumber (a : Attempt) : Attempt := ⟨a.steps.map (Step.renumber k), renumberResult k a.result⟩

theorem andThen_renumber {next next' : Substitution → Option Attempt} (a : Attempt)
    (hnext : ∀ s, next' (s.renumber k) = (next s).map (renumber k)) :
    (a.renumber k).andThen next' = (a.andThen next).map (renumber k) := by
  obtain ⟨steps, e | s⟩ := a
  · rfl
  · simp only [andThen, renumber, renumberResult, hnext, Option.map_map]
    refine congrArg (Option.map · (next s)) (funext fun b => ?_)
    simp [renumber]

end Attempt

namespace Ty

theorem Faces.renumber {l r other : Ty} {v : NodeId} (h : Faces l r v other) :
    Faces (l.renumber k) (r.renumber k) (v + k) (other.renumber k) := by
  cases h with
  | left v r =>
    rw [renumber_flexible]
    exact .left (v + k) (r.renumber k)
  | right v hl =>
    rw [renumber_flexible]
    exact .right (v + k) (renumber_ne_flexible k hl)

theorem absorbs_renumber (l r : Ty) : (l.renumber k).absorbs (r.renumber k) = l.absorbs r := by
  rcases l with _ | _ | _ | ⟨_ | _⟩ | _ | _ <;> rcases r with _ | _ | _ | ⟨_ | _⟩ | _ | _ <;>
    simp [absorbs, TyVar.renumber]

theorem clashes_renumber (l r : Ty) : (l.renumber k).clashes (r.renumber k) = l.clashes r := by
  rcases l with _ | _ | _ | ⟨_ | _⟩ | _ | _ <;> rcases r with _ | _ | _ | ⟨_ | _⟩ | _ | _ <;>
    simp [clashes, TyVar.renumber]

theorem Matches.renumber {l r : Ty} {action : Action} {ls rs : List Ty}
    (h : Matches l r action ls rs) :
    Matches (l.renumber k) (r.renumber k) action (ls.map (Ty.renumber k))
      (rs.map (Ty.renumber k)) := by
  cases h with
  | arrow i j d c d' c' =>
    rw [renumber_arrow, renumber_arrow]
    exact .arrow _ _ _ _ _ _
  | product i j hlen =>
    rw [renumber_product, renumber_product]
    exact .product _ _ (by simpa using hlen)

end Ty

namespace Substitution

theorem target?_renumber (s : Substitution) (other : Ty) :
    (s.renumber k).target? (other.renumber k) = (s.target? other).map (Ty.renumber k) := by
  by_cases hother : ∃ w, other = .flexible w
  · obtain ⟨w, rfl⟩ := hother
    rw [Ty.renumber_flexible, target?, target?, find?_renumber, Option.map_map, Option.map_map]
    refine congrArg (Option.map · (s.find? w)) (funext fun look => ?_)
    cases look with
    | unbound v => exact (Ty.renumber_flexible k v).symm
    | bound t => rfl
  · have hother : ∀ w, other ≠ .flexible w := fun w h => hother ⟨w, h⟩
    rw [target?_of_ne_flexible hother, target?_of_ne_flexible (Ty.renumber_ne_flexible k hother)]
    rfl

theorem bindTo_renumber (s : Substitution) (v : NodeId) (target : Ty) :
    (s.renumber k).bindTo (v + k) (target.renumber k) = (s.bindTo v target).renumber k := by
  rw [bindTo.eq_def, bindTo.eq_def, assign_renumber, ← Ty.renumber_flexible]
  rcases target with _ | _ | _ | ⟨_ | _⟩ | _ | _ <;>
    simp [Attempt.single, Attempt.renumber, Attempt.renumberResult, Step.renumber, TyVar.renumber]

variable {recur recur' : Substitution → Ty → Ty → Option Attempt}

/-- The second search does on renumbered stores and types what the first does. -/
def Renumbers (recur recur' : Substitution → Ty → Ty → Option Attempt) : Prop :=
  ∀ s l r, recur' (s.renumber k) (l.renumber k) (r.renumber k)
    = (recur s l r).map (Attempt.renumber k)

theorem Renumbers.unifyVar (h : Renumbers k recur recur') (s : Substitution) (v : NodeId)
    (other : Ty) :
    (s.renumber k).unifyVar recur' (v + k) (other.renumber k)
      = (s.unifyVar recur v other).map (Attempt.renumber k) := by
  rw [Substitution.unifyVar, Substitution.unifyVar, find?_renumber]
  cases s.find? v with
  | none => rfl
  | some look =>
    cases look with
    | bound t => exact h s other t
    | unbound w =>
      simp only [Option.map_some, Lookup.renumber, target?_renumber, Option.map_map]
      exact congrArg (Option.map · (s.target? other)) (funext fun t => bindTo_renumber k s w t)

theorem Renumbers.unifyAll (h : Renumbers k recur recur') (s : Substitution) (ls rs : List Ty) :
    (s.renumber k).unifyAll recur' (ls.map (Ty.renumber k)) (rs.map (Ty.renumber k))
      = (s.unifyAll recur ls rs).map (Attempt.renumber k) := by
  induction ls generalizing s rs with
  | nil => rfl
  | cons l ls ih =>
    cases rs with
    | nil => rfl
    | cons r rs =>
      rw [List.map_cons, List.map_cons, Substitution.unifyAll, Substitution.unifyAll, h]
      cases recur s l r with
      | none => rfl
      | some a => exact a.andThen_renumber k fun s => ih s rs

theorem clash_renumber (s : Substitution) (l r : Ty) :
    (s.renumber k).clash (l.renumber k) (r.renumber k)
      = (s.clash l r).map (Attempt.renumber k) := by
  rw [clash, clash, resolve?_renumber, resolve?_renumber]
  cases s.resolve? l with
  | none => rfl
  | some l' => cases s.resolve? r <;> rfl

/-- One step on renumbered types is of the same kind. -/
theorem Renumbers.unifyStep (h : Renumbers k recur recur') :
    Renumbers k (unifyStep recur) (unifyStep recur') := by
  intro s l r
  cases heq : l.alike r with
  | true =>
    rw [unifyStep_of_alike heq, unifyStep_of_alike (by rwa [Ty.alike_renumber])]
    rfl
  | false =>
    have heq' : (l.renumber k).alike (r.renumber k) = false := by rwa [Ty.alike_renumber]
    cases Ty.confrontation l r with
    | faces hface =>
      rw [unifyStep_of_faces heq hface, unifyStep_of_faces heq' (hface.renumber k)]
      exact h.unifyVar k s _ _
    | absorb habs =>
      rw [unifyStep_of_absorbs heq habs, unifyStep_of_absorbs heq' (by rwa [Ty.absorbs_renumber])]
      rfl
    | parts hparts =>
      rw [unifyStep_of_matches heq hparts, unifyStep_of_matches heq' (hparts.renumber k),
        h.unifyAll k, Option.map_map, Option.map_map]
      rfl
    | @arity i j ls rs hlen =>
      rw [unifyStep_of_arity i j hlen, Ty.renumber_product, Ty.renumber_product,
        unifyStep_of_arity _ _ (by simpa using hlen)]
      simp [Attempt.single, Attempt.renumber, Attempt.renumberResult, Step.renumber,
        UnifyError.renumber]
    | clash hclash =>
      rw [unifyStep_of_clashes heq hclash, unifyStep_of_clashes heq' (by rwa [Ty.clashes_renumber])]
      exact clash_renumber k s l r

theorem renumbers_unifyWithin (fuel : ℕ) : Renumbers k (unifyWithin fuel) (unifyWithin fuel) := by
  induction fuel with
  | zero => exact fun _ _ _ => rfl
  | succ fuel ih => exact ih.unifyStep k

/-- Unifying renumbered types on a renumbered store. -/
theorem unify?_renumber (s : Substitution) (l r : Ty) :
    (s.renumber k).unify? (l.renumber k) (r.renumber k)
      = (s.unify? l r).map (Attempt.renumber k) := by
  rw [unify?, unify?, unifyFuel, Ty.size_renumber, Ty.size_renumber, weight_renumber, ← unifyFuel]
  exact renumbers_unifyWithin k _ s l r

end Substitution

end CoContextual
