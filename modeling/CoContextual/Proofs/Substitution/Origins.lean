import CoContextual.Proofs.Substitution.Acyclic
import CoContextual.Substitution.Apply

/-!
# What applying a substitution records

Every record of a replacement was made where a variable was expanded
(`Ty.exists_of_mem_origins`). On an acyclic store every type can be resolved
(`Substitution.Acyclic.applyTo?_eq`).
-/

namespace CoContextual

namespace Table

variable {κ υ ω : Type} [Ord κ]

/-- A function that is defined everywhere is applied to every value. -/
theorem traverse_eq_map {t : Table κ υ} {f : υ → Option ω} {g : υ → ω}
    (h : ∀ v, f v = some (g v)) : t.traverse f = some (t.map g) := by
  rw [traverse_eq_some_iff]
  show t.toList.mapM (fun e => (f e.2).map (e.1, ·)) = some (t.toList.map fun e => (e.1, g e.2))
  induction t.toList with
  | nil => rfl
  | cons e rest ih => rw [List.mapM_cons, ih, h, List.map_cons]; rfl

theorem map_map (t : Table κ υ) {ω' : Type} (f : υ → ω) (g : ω → ω') :
    (t.map f).map g = t.map fun v => g (f v) := by
  simp [map, Function.comp_def]

variable [Std.TransOrd κ] [Std.LawfulEqOrd κ]

theorem get?_insertAll_mem [DecidableEq κ] {t : Table κ υ} {l : List (κ × υ)} {k : κ} {v : υ}
    (h : (t.insertAll l).get? k = some v) : (k, v) ∈ l ∨ t.get? k = some v := by
  induction l generalizing t with
  | nil => exact .inr h
  | cons e rest ih =>
    rcases ih (t := t.insert e.1 e.2) h with hmem | hget
    · exact .inl (.tail _ hmem)
    · rw [get?_insert] at hget
      split at hget
      · rename_i hk
        cases hget
        exact .inl (by rw [hk]; exact .head _)
      · exact .inr hget

/-- A table made from a list holds entries of the list only. -/
theorem mem_of_get?_ofList [DecidableEq κ] {l : List (κ × υ)} {k : κ} {v : υ}
    (h : (ofList l).get? k = some v) : (k, v) ∈ l := by
  rcases get?_insertAll_mem h with hmem | hget
  · exact hmem
  · rw [get?_empty] at hget
    cases hget

/-- Inserting entries keeps a key that is there. -/
theorem get?_insertAll_isSome [DecidableEq κ] {l : List (κ × υ)} {t : Table κ υ} {k : κ}
    (h : (t.get? k).isSome) : ((t.insertAll l).get? k).isSome := by
  induction l generalizing t with
  | nil => exact h
  | cons e rest ih =>
    refine ih (t := t.insert e.1 e.2) ?_
    rw [get?_insert]
    split
    · rfl
    · exact h

/-- A table made from a list holds an entry for every key of the list. -/
theorem get?_ofList_isSome [DecidableEq κ] {l : List (κ × υ)} {k : κ} (h : k ∈ l.map Prod.fst) :
    ((ofList l).get? k).isSome := by
  suffices ∀ t : Table κ υ, ((t.insertAll l).get? k).isSome from this .empty
  induction l with
  | nil => cases h
  | cons e rest ih =>
    intro t
    rcases List.mem_cons.1 h with rfl | h
    -- a later entry may overwrite the value of the key, but it does not remove it
    · refine get?_insertAll_isSome (t := t.insert e.1 e.2) ?_
      rw [get?_insert, if_pos rfl]
      rfl
    · exact ih h (t.insert e.1 e.2)

end Table

/-! ## Where records come from -/

namespace Ty

variable {replace : NodeId → Option Resolved} {p : NodeId × Ty}

theorem exists_of_mem_origins_applyVar {v : TyVar} {r : Resolved}
    (hr : applyVar replace v = some r) (hp : p ∈ r.origins) :
    ∃ w r', v = .flexible w ∧ replace w = some r' ∧ p ∈ r'.origins := by
  cases v with
  | flexible w => exact ⟨w, r, rfl, hr, hp⟩
  | rigid w =>
    cases hr
    cases hp

theorem exists_of_mem_origins_mapM {vs : List TyVar} {rs : List Resolved}
    (hrs : vs.mapM (applyVar replace) = some rs) (hp : p ∈ rs.flatMap Resolved.origins) :
    ∃ w r', .flexible w ∈ vs ∧ replace w = some r' ∧ p ∈ r'.origins := by
  obtain ⟨r, hr, hp⟩ := List.mem_flatMap.1 hp
  obtain ⟨v, hv, hvr⟩ := exists_of_mem_mapM hrs hr
  obtain ⟨w, r', rfl, hr', hp'⟩ := exists_of_mem_origins_applyVar hvr hp
  exact ⟨w, r', hv, hr', hp'⟩

theorem exists_of_mem_origins_applyAll {ts : List Ty} {rs : List Resolved}
    (ih : ∀ t ∈ ts, ∀ r, t.applyWith replace = some r → p ∈ r.origins →
      ∃ w ∈ t.mentions, ∃ r', replace w = some r' ∧ p ∈ r'.origins)
    (hrs : applyAllWith replace ts = some rs) (hp : p ∈ rs.flatMap Resolved.origins) :
    ∃ t ∈ ts, ∃ w ∈ t.mentions, ∃ r', replace w = some r' ∧ p ∈ r'.origins := by
  rw [applyAllWith_eq_mapM] at hrs
  obtain ⟨r, hr, hp⟩ := List.mem_flatMap.1 hp
  obtain ⟨t, ht, htr⟩ := exists_of_mem_mapM hrs hr
  exact ⟨t, ht, ih t ht r htr hp⟩

/-- A record that replacing leaves was left by the replacement of some variable. -/
theorem exists_of_mem_origins {t : Ty} {r : Resolved} (hr : t.applyWith replace = some r)
    (hp : p ∈ r.origins) : ∃ w ∈ t.mentions, ∃ r', replace w = some r' ∧ p ∈ r'.origins := by
  induction t using ind generalizing r with
  | primitive id kind =>
    rw [applyWith] at hr
    cases hr
    cases hp
  | arrow id d c ihd ihc =>
    rw [applyWith] at hr
    obtain ⟨d', hd, hr⟩ := Option.bind_eq_some_iff.1 hr
    obtain ⟨c', hc, hr⟩ := Option.bind_eq_some_iff.1 hr
    cases hr
    rw [mentions_arrow]
    rcases List.mem_append.1 hp with hp | hp
    · obtain ⟨w, hw, hrest⟩ := ihd hd hp
      exact ⟨w, List.mem_append_left _ hw, hrest⟩
    · obtain ⟨w, hw, hrest⟩ := ihc hc hp
      exact ⟨w, List.mem_append_right _ hw, hrest⟩
  | product id cs ih =>
    rw [applyWith] at hr
    obtain ⟨rs, hrs, hr⟩ := Option.bind_eq_some_iff.1 hr
    cases hr
    obtain ⟨t, ht, w, hw, hrest⟩ :=
      exists_of_mem_origins_applyAll (fun t ht r hr hp => ih t ht hr hp) hrs hp
    exact ⟨w, mem_mentions_product.2 ⟨t, ht, hw⟩, hrest⟩
  | var v =>
    rw [applyWith] at hr
    obtain ⟨w, r', rfl, hr', hp'⟩ := exists_of_mem_origins_applyVar hr hp
    exact ⟨w, by simp, r', hr', hp'⟩
  | scheme id bound body ih =>
    rw [applyWith] at hr
    obtain ⟨vars, hvars, hr⟩ := Option.bind_eq_some_iff.1 hr
    obtain ⟨body', hbody, hr⟩ := Option.bind_eq_some_iff.1 hr
    -- the records are the same whether or not the scheme keeps a quantifier
    have horigins : r.origins = vars.flatMap Resolved.origins ++ body'.origins := by
      split at hr <;> (cases hr; rfl)
    rw [horigins, List.mem_append] at hp
    rw [mentions_scheme]
    rcases hp with hp | hp
    · obtain ⟨w, r', hw, hr', hp'⟩ := exists_of_mem_origins_mapM hvars hp
      exact ⟨w, List.mem_append_left _ (List.mem_filterMap.2 ⟨_, hw, rfl⟩), r', hr', hp'⟩
    · obtain ⟨w, hw, hrest⟩ := ih hbody hp
      exact ⟨w, List.mem_append_right _ hw, hrest⟩
  | invalid id =>
    rw [applyWith] at hr
    cases hr
    cases hp

end Ty

namespace Substitution

variable {s : Substitution}

/-- Resolving succeeds on an acyclic store, and every record was left where some variable was
expanded. -/
theorem Acyclic.applyTo?_eq (h : s.Acyclic) (t : Ty) :
    ∃ r, s.applyTo? t = some r ∧ r.type = t.substitute s.image ∧
      ∀ p ∈ r.origins, ∃ w ∈ t.mentions, ∃ r', s.expand (s.size + 1) w = some r' ∧
        p ∈ r'.origins := by
  obtain ⟨r, hr, htype⟩ := Option.map_eq_some_iff.1 (h.resolve?_eq t)
  exact ⟨r, hr, htype, fun p hp => Ty.exists_of_mem_origins hr hp⟩

theorem Acyclic.applyToAll?_eq (h : s.Acyclic) (ts : List Ty) :
    ∃ rs, s.applyToAll? ts = some rs ∧ rs.map Resolved.type = ts.map (Ty.substitute s.image) ∧
      ∀ p ∈ rs.flatMap Resolved.origins, ∃ w r', s.expand (s.size + 1) w = some r' ∧
        p ∈ r'.origins := by
  have hall : ∀ t ∈ ts, (t.applyWith (s.expand (s.size + 1))).map Resolved.type
      = some (t.substitute s.image) := fun t _ => h.resolve?_eq t
  obtain ⟨rs, hrs, htypes⟩ := Ty.map_type_applyAllWith hall
  refine ⟨rs, hrs, htypes, fun p hp => ?_⟩
  obtain ⟨t, -, w, -, r', hr', hp'⟩ :=
    Ty.exists_of_mem_origins_applyAll (fun t _ r hr hp => Ty.exists_of_mem_origins hr hp) hrs hp
  exact ⟨w, r', hr', hp'⟩

end Substitution

end CoContextual
