import CoContextual.Proofs.Substitution.Origins
import CoContextual.Discharge

/-!
# Requirements use by use

What holds of every use (`Requirements.Each`) is told from the way in which requirements are put
together. On an acyclic store all uses are replaced at once (`Requirements.substitute?_eq`). Which
uses are discharged and which remain does not depend on types (`Requirements.declaredUses_mapTypes`,
`Requirements.undeclared_mapTypes`).
-/

namespace CoContextual

namespace Requirements

/-- The uses with every type changed in the same way. -/
def mapTypes (f : Ty → Ty) (r : Requirements) : Requirements := ⟨r.uses.map fun ts => ts.map f⟩

@[simp]
theorem get_mapTypes (f : Ty → Ty) (r : Requirements) (token : Ident) :
    (r.mapTypes f).get token = (r.get token).map f := by
  rw [get, get, mapTypes, Table.get?_map]
  cases r.uses.get? token <;> rfl

/-- On an acyclic store all uses are replaced, and every record was left where some variable was
expanded. -/
theorem substitute?_eq {s : Substitution} (h : s.Acyclic) (r : Requirements) :
    ∃ replaced, r.substitute? s = some (r.mapTypes (Ty.substitute s.image), replaced) ∧
      ∀ p ∈ replaced.flatMap Resolved.origins, ∃ w r', s.expand (s.size + 1) w = some r' ∧
        p ∈ r'.origins := by
  -- resolving is total here, so that it is a function on the uses of each identifier
  choose g hg htypes horigins using h.applyToAll?_eq
  refine ⟨(r.uses.map g).values.flatten, ?_, fun p hp => ?_⟩
  · rw [substitute?, Table.traverse_eq_map hg, Option.map_some, Table.map_map, mapTypes]
    simp only [htypes]
  · simp only [Table.values, List.mem_flatMap, List.mem_flatten, List.mem_map] at hp
    obtain ⟨res, ⟨rs, ⟨⟨token, rs'⟩, hmem, rfl⟩, hres⟩, hp⟩ := hp
    obtain ⟨⟨token', ts⟩, -, heq⟩ := List.mem_map.1 hmem
    cases heq
    exact horigins ts p (List.mem_flatMap.2 ⟨res, hres, hp⟩)

/-! ## What holds of every use -/

/-- The property holds of every use, together with the identifier that is used. -/
def Each (P : Ident → Ty → Prop) (r : Requirements) : Prop := ∀ token, ∀ t ∈ r.get token, P token t

variable {P Q : Ident → Ty → Prop} {r r' : Requirements}

theorem each_empty : Each P .empty := fun _ _ ht => nomatch ht

theorem Each.imp (h : r.Each P) (hPQ : ∀ token t, P token t → Q token t) : r.Each Q :=
  fun token t ht => hPQ token t (h token t ht)

theorem each_append : (r ++ r').Each P ↔ r.Each P ∧ r'.Each P := by
  simp only [Each, get_append, List.mem_append, or_imp, forall_and]

theorem each_add {token : Ident} {t : Ty} : (r.add token t).Each P ↔ r.Each P ∧ P token t := by
  -- one entry more for `token`, at the end
  have hget : ∀ other, (r.add token t).get other
      = r.get other ++ if other = token then [t] else [] := by
    intro other
    rw [add, get_addAll]
    split
    · rename_i h
      rw [h]
    · rw [List.append_nil]
  simp only [Each, hget, List.mem_append, or_imp, forall_and]
  refine and_congr_right fun _ => ⟨fun h => h token t (by simp), fun h other u hu => ?_⟩
  split at hu
  · rename_i hother
    obtain rfl := List.mem_singleton.1 hu
    exact hother ▸ h
  · cases hu

theorem each_mapTypes {f : Ty → Ty} :
    (r.mapTypes f).Each P ↔ r.Each fun token t => P token (f t) := by
  simp only [Each, get_mapTypes, List.forall_mem_map]

/-! ## The identifiers that are used -/

/-- The property holds of every identifier that is used. -/
def Only (P : Ident → Prop) (r : Requirements) : Prop := ∀ token, r.contains token = true → P token

variable {S : Ident → Prop}

theorem only_empty : Only S .empty := fun _ h => nomatch h

theorem Only.addAll (h : r.Only S) {token : Ident} (hS : S token) (types : List Ty) :
    (r.addAll token types).Only S := by
  intro other hother
  rw [contains, Table.contains, Requirements.addAll, Table.get?_upsert] at hother
  split at hother
  · rename_i heq
    exact heq ▸ hS
  · exact h other hother

theorem Only.append (h : r.Only S) (h' : r'.Only S) : (r ++ r').Only S := by
  have hentries : ∀ e ∈ r'.uses.toList, S e.1 := by
    rintro ⟨token, types⟩ he
    refine h' token ?_
    rw [contains, Table.contains, Table.mem_toList_iff.1 he]
    rfl
  -- joining adds the uses of the second identifier by identifier
  show (r'.uses.toList.foldl (fun acc e => acc.addAll e.1 e.2) r).Only S
  generalize r'.uses.toList = l at hentries
  induction l generalizing r with
  | nil => exact h
  | cons e l ih =>
    obtain ⟨he, hentries⟩ := List.forall_mem_cons.1 hentries
    exact ih (h.addAll he e.2) hentries

theorem Only.mapTypes (h : r.Only S) (f : Ty → Ty) : (r.mapTypes f).Only S := by
  intro token htoken
  refine h token ?_
  rwa [contains, Table.contains, Requirements.mapTypes, Table.get?_map, Option.isSome_map] at htoken

theorem contains_of_mem_get {token : Ident} {t : Ty} (h : t ∈ r.get token) :
    r.contains token = true := by
  rw [contains, Table.contains]
  rw [get] at h
  cases hget : r.uses.get? token with
  | none => simp [hget] at h
  | some types => rfl

end Requirements

/-! ## What is discharged -/

/-- The declarations with every type changed in the same way. -/
def Bindings.mapTypes (f : Ty → Ty) (b : Bindings) : Bindings := ⟨b.types.map f⟩

/-- The use with both types changed in the same way. -/
def Use.mapTypes (f : Ty → Ty) (u : Use) : Use := ⟨u.token, f u.required, f u.declared⟩

namespace Requirements

variable (f : Ty → Ty) (r : Requirements) (b : Bindings)

theorem declaredUses_mapTypes :
    (r.mapTypes f).declaredUses (b.mapTypes f) = (r.declaredUses b).map (Use.mapTypes f) := by
  have hlist : (r.mapTypes f).uses.toList = r.uses.toList.map fun e => (e.1, e.2.map f) := rfl
  have hget : ∀ token, (b.mapTypes f).get? token = (b.get? token).map f := Table.get?_map b.types f
  rw [declaredUses, declaredUses, hlist, List.flatMap_map, List.map_flatMap]
  refine List.flatMap_congr fun e _ => ?_
  obtain ⟨token, types⟩ := e
  simp only [hget]
  cases b.get? token with
  | none => rfl
  | some declared =>
    simp only [Option.map_some, List.map_map]
    rfl

theorem undeclared_mapTypes :
    (r.mapTypes f).undeclared (b.mapTypes f) = (r.undeclared b).mapTypes f := by
  have hcontains : ∀ token, (b.mapTypes f).contains token = b.contains token := by
    intro token
    rw [Bindings.contains, Bindings.contains, Table.contains, Table.contains, Bindings.mapTypes,
      Table.get?_map, Option.isSome_map]
  simp only [undeclared, hcontains, mapTypes, Table.map, Table.filterKeys, List.filter_map]
  rfl

end Requirements

end CoContextual
