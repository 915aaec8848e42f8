import CoContextual.Proofs.Substitution.Acyclic

/-!
# Resolving what was resolved

Resolving rewrites a scheme from within: of its quantifier list those variables remain that are
still variables, sorted and without repeats, and a scheme whose list is empty gives way to its body.
A type in which every list is already as this leaves it is settled (`Ty.settled`), and what comes of
resolving is settled (`Substitution.Acyclic.settled_image`, `Ty.settled_substitute`).

- `Ty.applyWith_of_settled`: where all variables stay, a settled type stays as it is, and nothing is
  recorded;
- `Substitution.Acyclic.applyTo?_resolved`: on an acyclic store one pass resolves a type for good.
-/

namespace CoContextual

/-! ## Quantifier lists -/

namespace TyVar

theorem sorted_insertById {v : TyVar} {vs : List TyVar}
    (h : vs.Pairwise fun x y => x.id ≤ y.id) :
    (insertById v vs).Pairwise fun x y => x.id ≤ y.id := by
  induction h with
  | nil => exact List.pairwise_singleton _ _
  | @cons w ws hw hws ih =>
    rw [insertById]
    split
    · rename_i hvw
      refine .cons (List.forall_mem_cons.2 ⟨hvw, fun x hx => hvw.trans (hw x hx)⟩) (.cons hw hws)
    · rename_i hvw
      refine .cons (fun x hx => ?_) ih
      rcases mem_of_mem_insertById hx with rfl | hx
      · exact Nat.le_of_not_le hvw
      · exact hw x hx

theorem sorted_sortById (vs : List TyVar) :
    (sortById vs).Pairwise fun x y => x.id ≤ y.id := by
  induction vs with
  | nil => exact .nil
  | cons v vs ih => exact sorted_insertById ih

/-- Sorting leaves a sorted list as it is, also where identities repeat. -/
theorem sortById_eq_self {vs : List TyVar} (h : vs.Pairwise fun x y => x.id ≤ y.id) :
    sortById vs = vs := by
  induction h with
  | nil => rfl
  | @cons v vs hv _ ih =>
    rw [sortById, ih]
    cases vs with
    | nil => rfl
    | cons w ws => rw [insertById, if_pos (hv w (.head _))]

theorem dropRepeats_sublist (vs : List TyVar) : (dropRepeats vs).Sublist vs := by
  fun_induction dropRepeats vs with
  | case1 => exact .slnil
  | case2 v => exact .refl _
  | case3 v rest ih => exact .cons _ ih
  | case4 v w rest hne ih => exact .cons_cons _ ih

/-- The first variable of a list is the first one that is kept. -/
theorem exists_dropRepeats_cons (v : TyVar) (vs : List TyVar) :
    ∃ ws, dropRepeats (v :: vs) = v :: ws := by
  induction vs with
  | nil => exact ⟨[], rfl⟩
  | cons w vs ih =>
    rw [dropRepeats]
    split
    · rename_i heq
      rwa [← heq]
    · exact ⟨_, rfl⟩

theorem isChain_dropRepeats (vs : List TyVar) : (dropRepeats vs).IsChain (· ≠ ·) := by
  fun_induction dropRepeats vs with
  | case1 => exact .nil
  | case2 v => exact .singleton v
  | case3 v rest ih => exact ih
  | case4 v w rest hne ih =>
    obtain ⟨ws, hws⟩ := exists_dropRepeats_cons w rest
    rw [hws] at ih ⊢
    exact .cons_cons hne ih

/-- Where no variable repeats the one before it, nothing is dropped. -/
theorem dropRepeats_eq_self {vs : List TyVar} (h : vs.IsChain (· ≠ ·)) : dropRepeats vs = vs := by
  induction h with
  | nil => rfl
  | singleton v => rfl
  | cons_cons hne _ ih => rw [dropRepeats, if_neg hne, ih]

theorem remaining_map_var (vs : List TyVar) :
    remaining (vs.map Ty.var) = dropRepeats (sortById vs) := by
  rw [remaining, List.filterMap_map]
  congr 2
  exact List.filterMap_some

/-- What is left of a quantifier list stays when its variables do. -/
theorem remaining_remaining (ts : List Ty) :
    remaining ((remaining ts).map .var) = remaining ts := by
  have hsorted := (sorted_sortById (ts.filterMap Ty.asVar?)).sublist (dropRepeats_sublist _)
  rw [remaining_map_var, remaining, sortById_eq_self hsorted,
    dropRepeats_eq_self (isChain_dropRepeats _)]

end TyVar

/-! ## Settled types -/

namespace Ty

/-- Whether the type is no scheme, or one whose quantifier list stays as it is when its variables
do. -/
def orderly : Ty → Bool
  | scheme _ bound _ => !bound.isEmpty && TyVar.remaining (bound.map .var) = bound
  | _ => true

/-- Whether every quantifier list in the type stays as it is when its variables do. -/
def settled (t : Ty) : Bool := t.everyNode orderly

@[simp]
theorem settled_primitive (id : NodeId) (kind : Primitive) :
    (primitive id kind).settled = true := rfl

@[simp]
theorem settled_arrow (id : NodeId) (d c : Ty) :
    (arrow id d c).settled = (d.settled && c.settled) := rfl

@[simp]
theorem settled_product {id : NodeId} {cs : List Ty} :
    (product id cs).settled = true ↔ ∀ c ∈ cs, c.settled = true := everyNodeAll_iff

@[simp]
theorem settled_var (v : TyVar) : (var v).settled = true := rfl

@[simp]
theorem settled_scheme (id : NodeId) (bound : List TyVar) (body : Ty) :
    (scheme id bound body).settled = (orderly (.scheme id bound body) && body.settled) := rfl

@[simp]
theorem settled_invalid (id : NodeId) : (invalid id).settled = true := rfl

/-- Replacing variables by settled types settles a type: every quantifier list was gone through. -/
theorem settled_substitute {f : NodeId → Ty} {t : Ty}
    (hf : ∀ v ∈ t.mentions, (f v).settled = true) : (t.substitute f).settled = true := by
  induction t using ind with
  | primitive id kind => simp
  | arrow id d c ihd ihc =>
    simp only [mentions_arrow, List.mem_append] at hf
    rw [substitute_arrow, settled_arrow, ihd fun v hv => hf v (.inl hv),
      ihc fun v hv => hf v (.inr hv), Bool.true_and]
  | product id cs ih =>
    rw [substitute_product, settled_product, List.forall_mem_map]
    exact fun c hc => ih c hc fun v hv => hf v (mem_mentions_product.2 ⟨c, hc, hv⟩)
  | var v =>
    cases v with
    | flexible v => exact hf v (.head _)
    | rigid v => rfl
  | scheme id bound body ih =>
    simp only [mentions_scheme, List.mem_append] at hf
    have hbody := ih fun v hv => hf v (.inr hv)
    rw [substitute]
    split
    · exact hbody
    · rename_i hrest
      rw [settled_scheme, orderly, TyVar.remaining_remaining, hbody]
      simpa using hrest
  | invalid id => simp

/-! ## Replacing variables by themselves -/

section

variable {replace : NodeId → Option Resolved}

/-- Variables that stay are replaced by themselves, and nothing is recorded. -/
theorem mapM_applyVar_self {vs : List TyVar}
    (h : ∀ v, .flexible v ∈ vs → replace v = some ⟨.flexible v, []⟩) :
    vs.mapM (applyVar replace) = some (vs.map fun v => ⟨.var v, []⟩) := by
  induction vs with
  | nil => rfl
  | cons v vs ih =>
    have hv : applyVar replace v = some ⟨.var v, []⟩ := by
      cases v with
      | flexible v => exact h v (.head _)
      | rigid v => rfl
    rw [List.mapM_cons, hv, ih fun w hw => h w (.tail _ hw)]
    rfl

theorem applyAllWith_self {ts : List Ty} (ih : ∀ t ∈ ts, t.applyWith replace = some ⟨t, []⟩) :
    applyAllWith replace ts = some (ts.map fun t => ⟨t, []⟩) := by
  rw [applyAllWith_eq_mapM]
  exact mapM_eq_some_map ih

/-- Where all variables stay, a settled type stays as it is, and nothing is recorded. -/
theorem applyWith_of_settled {t : Ty} (ht : t.settled = true)
    (h : ∀ v ∈ t.mentions, replace v = some ⟨.flexible v, []⟩) :
    t.applyWith replace = some ⟨t, []⟩ := by
  induction t using ind with
  | primitive id kind => rfl
  | arrow id d c ihd ihc =>
    rw [settled_arrow, Bool.and_eq_true] at ht
    simp only [mentions_arrow, List.mem_append] at h
    rw [applyWith, ihd ht.1 fun v hv => h v (.inl hv), ihc ht.2 fun v hv => h v (.inr hv)]
    rfl
  | product id cs ih =>
    rw [settled_product] at ht
    have hcs := applyAllWith_self fun c hc =>
      ih c hc (ht c hc) fun v hv => h v (mem_mentions_product.2 ⟨c, hc, hv⟩)
    simp [applyWith, hcs, Function.comp_def]
  | var v =>
    cases v with
    | flexible v => exact h v (.head _)
    | rigid v => rfl
  | scheme id bound body ih =>
    rw [settled_scheme, Bool.and_eq_true, orderly, Bool.and_eq_true] at ht
    obtain ⟨⟨hne, hlist⟩, hbody⟩ := ht
    simp only [mentions_scheme, List.mem_append, List.mem_filterMap] at h
    have hvars := mapM_applyVar_self fun v hv => h v (.inl ⟨_, hv, rfl⟩)
    -- the list that is left is the list itself, and it is not empty
    have hrest : remainingBound (bound.map fun v => ⟨.var v, []⟩) = bound := by
      rw [remainingBound_eq, List.map_map]
      exact of_decide_eq_true hlist
    simp only [applyWith, hvars, ih hbody fun v hv => h v (.inr hv), hrest, Option.bind_eq_bind,
      Option.bind_some]
    cases bound with
    | nil => simp at hne
    | cons v vs => simp [List.flatMap_map]
  | invalid id => rfl

end

end Ty

namespace Substitution

variable {s s' : Substitution}

/-! ## Resolving twice -/

theorem Acyclic.settled_image (h : s.Acyclic) (v : NodeId) : (s.image v).settled = true :=
  h.image_induction (P := fun _ t => t.settled = true) (fun _ _ => rfl)
    (fun _ _ _ ih => Ty.settled_substitute ih) v

/-- A variable without an entry stays, and nothing is recorded. -/
theorem expand_of_none {v : NodeId} (hv : s.get? v = none) (n : ℕ) :
    s.expand (n + 1) v = some ⟨.flexible v, []⟩ := by
  rw [expand, find?_of_none hv]
  simp

/-- On an acyclic store one pass resolves a type for good: no variable with an entry is left, not
even in a quantifier list, and another pass gives the same type and records nothing. -/
theorem Acyclic.applyTo?_resolved (h : s.Acyclic) (t : Ty) :
    ∃ u, s.resolve? t = some u ∧ (∀ v ∈ u.mentions, s.get? v = none) ∧
      s.applyTo? u = some ⟨u, []⟩ := by
  have hnone : ∀ v ∈ (t.substitute s.image).mentions, s.get? v = none :=
    fun v hv => h.get?_eq_none_of_mem_substitute hv
  refine ⟨_, h.resolve?_eq t, hnone, ?_⟩
  exact Ty.applyWith_of_settled (Ty.settled_substitute fun v _ => h.settled_image v)
    fun v hv => expand_of_none (hnone v hv) s.size

/-- A variable under a quantifier is bound to another scheme. An alias merges two quantified
variables of either scheme, and a primitive type takes the place of a third. -/
theorem Acyclic.applyTo?_resolved_nested_scheme : ∃ (s : Substitution) (u : Ty), s.Acyclic ∧
    s.resolve? (.scheme 20 [.flexible 3, .flexible 2, .flexible 1]
      (.product 21 [.flexible 3, .flexible 1])) = some u ∧
    u = .scheme 20 [.flexible 2] (.product 21
      [.scheme 10 [.flexible 2]
        (.arrow 11 (.flexible 2) (.arrow 12 (.primitive 5 .i32) (.flexible 2))), .flexible 2]) ∧
    (∀ v ∈ u.mentions, s.get? v = none) ∧ s.applyTo? u = some ⟨u, []⟩ := by
  let inner : Ty := .scheme 10 [.flexible 1, .flexible 2, .flexible 4]
    (.arrow 11 (.flexible 1) (.arrow 12 (.flexible 4) (.flexible 2)))
  let s := ((Substitution.empty.assign 1 (.flexible 2)).assign 3 inner).assign 4 (.primitive 5 .i32)
  -- the scheme mentions the alias and the variable with a primitive type
  let measure : NodeId → ℕ := fun v => if v = 3 then 2 else if v = 2 then 0 else 1
  have hs : s.Acyclic := acyclic_of_measure measure (by decide)
  obtain ⟨u, hu, hnone, hagain⟩ := hs.applyTo?_resolved (.scheme 20
    [.flexible 3, .flexible 2, .flexible 1] (.product 21 [.flexible 3, .flexible 1]))
  exact ⟨s, u, hs, hu, Option.some.inj (hu.symm.trans rfl), hnone, hagain⟩

end Substitution

end CoContextual
