import CoContextual.Proofs.Unify.Soundness

/-!
# What unifying leaves alone

A store only grows, so that resolving through an earlier store is part of resolving through a later
one, and what is resolved early is resolved the same in the end
(`Substitution.resolve?_early`).

The variables that a unification binds are found at the ends of aliases and inside the types that
variables are bound to, those that were bound on the way included. All of them are open in one of
the two types as the store it starts from resolves them (`Substitution.Course.binds_open`). A type
that resolves without these variables resolves the same afterwards, even if the new store is cyclic
elsewhere (`Substitution.unify?_local`).
-/

namespace CoContextual

namespace Substitution

variable {s s' : Substitution} {v w : NodeId} {K : NodeId → Prop}

/-! ## Resolving early -/

/-- What a variable resolves to early resolves later to what the variable does. -/
theorem Extends.substitute_image (h : s'.Extends s) (hs' : s'.Acyclic)
    (hscheme : AllEntries (fun u => u.schemeFree = true) s) (v : NodeId) :
    (s.image v).substitute s'.image = s'.image v := by
  refine (hs'.of_extends h).image_induction
    (P := fun v t => t.substitute s'.image = s'.image v) ?_ ?_ v
  · intro v _
    rw [Ty.substitute_flexible]
  · intro v e hget ih
    -- the later store has the entry too
    rw [hs'.image_eq (h v e hget), Ty.substitute_substitute (hscheme v e hget)]
    exact Ty.substitute_congr ih

/-- A type may be resolved on the way: through every acyclic store that unifications lead to, what
it resolved to and the type itself resolve to the same tree. -/
theorem resolve?_early (h : Relation.ReflTransGen Unifies s s') (hs' : s'.Acyclic)
    (hscheme : AllEntries (fun u => u.schemeFree = true) s) {t : Ty} (ht : t.schemeFree = true) :
    ∃ u r, s.resolve? t = some u ∧ s'.resolve? u = some r ∧ s'.resolve? t = some r := by
  have hext := extends_of_reflTransGen h
  have heq : (t.substitute s.image).substitute s'.image = t.substitute s'.image := by
    rw [Ty.substitute_substitute ht]
    exact Ty.substitute_congr fun v _ => hext.substitute_image hs' hscheme v
  refine ⟨_, _, (hs'.of_extends hext).resolve?_eq t, ?_, hs'.resolve?_eq t⟩
  rw [hs'.resolve?_eq, heq]

/-- A representative that is still open early on is bound by one unification, and a variable of what
it is bound to by the next. -/
theorem resolve?_early_bound_twice : ∃ (s s' : Substitution) (u r : Ty),
    Relation.ReflTransGen Unifies s s' ∧ s'.Acyclic ∧
    s.resolve? (.product 8 [.flexible 1, .flexible 3]) = some u ∧
    u = .product 8 [.flexible 2, .flexible 3] ∧
    s'.resolve? u = some r ∧ s'.resolve? (.product 8 [.flexible 1, .flexible 3]) = some r ∧
    r = .product 8 [.arrow 5 (.primitive 7 .i32) (.primitive 6 .string), .primitive 7 .i32] := by
  let s := Substitution.empty.assign 1 (.flexible 2)
  let t := s.assign 2 (.arrow 5 (.flexible 3) (.primitive 6 .string))
  let s' := t.assign 3 (.primitive 7 .i32)
  have hfirst : Unifies s t := ⟨.flexible 1, .arrow 5 (.flexible 3) (.primitive 6 .string), _, rfl⟩
  have hsecond : Unifies t s' := ⟨.flexible 3, .primitive 7 .i32, _, rfl⟩
  have hrun : Relation.ReflTransGen Unifies s s' := .tail (.single hfirst) hsecond
  have hs' : s'.Acyclic := acyclic_of_measure (fun v => 3 - v) (by decide)
  have hscheme : AllEntries (fun u => u.schemeFree = true) s := (allEntries_empty _).assign rfl
  obtain ⟨u, r, hu, hur, hr⟩ :=
    resolve?_early hrun hs' hscheme (t := .product 8 [.flexible 1, .flexible 3]) rfl
  exact ⟨s, s', u, r, hrun, hs', hu, Option.some.inj (hu.symm.trans rfl), hur, hr,
    Option.some.inj (hr.symm.trans rfl)⟩

/-! ## Open variables -/

/-- The property holds of all flexible variables that are free in what the type resolves to. -/
def OpenAmong (s : Substitution) (K : NodeId → Prop) (t : Ty) : Prop :=
  ∀ v, .flexible v ∈ (t.substitute s.image).freeVars → K v

theorem partClosed_openAmong (s : Substitution) (K : NodeId → Prop) :
    Ty.PartClosed (s.OpenAmong K) := by
  intro t ht c hc v hv
  cases t with
  | arrow id d e =>
    refine ht v ?_
    rw [Ty.substitute_arrow, Ty.freeVars_arrow, List.mem_append]
    rcases List.mem_pair.1 hc with rfl | rfl
    · exact .inl hv
    · exact .inr hv
  | product id cs =>
    refine ht v ?_
    rw [Ty.substitute_product, Ty.mem_freeVars_product]
    exact ⟨_, List.mem_map_of_mem hc, hv⟩
  | _ => cases hc

/-- A variable with an entry is open where its entry is. -/
theorem Acyclic.entriesKeep_openAmong (hs : s.Acyclic) (K : NodeId → Prop) :
    EntriesKeep (s.OpenAmong K) s := by
  intro v e he hv
  rwa [OpenAmong, Ty.substitute_flexible, hs.image_eq he] at hv

/-- Every entry is one of `s`, or that of a variable in `K` which has none in `s`. -/
def BindsAmong (s : Substitution) (K : NodeId → Prop) (s' : Substitution) : Prop :=
  ∀ v e, s'.get? v = some e → s.get? v = some e ∨ s.get? v = none ∧ K v

/-- A course binds only variables that are open in its goals, as the store it starts from resolves
them. -/
theorem Course.binds_open {goals : List (Ty × Ty)} {a : Attempt} (h : Course s goals a)
    (hs : s.Acyclic) (hgoals : ∀ g ∈ goals, s.OpenAmong K g.1 ∧ s.OpenAmong K g.2)
    (hres : a.result = .ok s') : s.BindsAmong K s' := by
  have hpair := h.preserves_reached (partClosed_openAmong s K)
    (P := fun t => t.Extends s ∧ s.BindsAmong K t) ?_ (hs.entriesKeep_openAmong K)
    ⟨.refl s, fun _ _ => .inl⟩ hgoals hres
  · exact hpair.2
  · rintro t v w other target hkeep ⟨hext, hbinds⟩ hv - hfind -
    -- the variable at the end of the aliases is open like the one the course came upon
    have hw : t.get? w = none := get?_eq_none_of_find? hfind
    have hnone : s.get? w = none := hext.get?_eq_none hw
    have hopen : s.OpenAmong K (.flexible w) := hkeep.find? hv hfind
    rw [OpenAmong, Ty.substitute_flexible, hs.image_of_none hnone] at hopen
    refine ⟨(extends_assign hw target).trans hext, fun x e hx => ?_⟩
    rcases get?_assign_cases hx with hx | ⟨rfl, -⟩
    · exact hbinds x e hx
    · exact .inr ⟨hnone, hopen x (.head _)⟩

/-! ## Variables that stay unbound -/

/-- A larger store expands a variable to the same type if nothing in that type was bound. -/
theorem Extends.expand_eq (h : s'.Extends s) (hs : s.Acyclic)
    (hscheme : AllEntries (fun u => u.schemeFree = true) s)
    (hfree : ∀ w ∈ (s.image v).mentions, s'.get? w = none) {n : ℕ} (hn : s.rank v < n) :
    (s'.expand n v).map Resolved.type = some (s.image v) := by
  induction n generalizing v with
  | zero => omega
  | succ n ih =>
    obtain ⟨look, hv⟩ := hs.exists_find? v
    cases look with
    | unbound w =>
      rw [hs.image_of_unbound hv] at hfree ⊢
      have hw := find?_of_none (hfree w (.head _))
      exact map_type_expand_of_unbound ((h.find?_unbound hv).trans hw) n
    | bound u =>
      obtain ⟨x, hx⟩ := exists_get?_of_find? hv
      have hu : u.schemeFree = true := hscheme x _ hx
      rw [hs.image_of_bound hv] at hfree ⊢
      rw [map_type_expand_of_bound (h.find?_bound hv)]
      -- the variables of `u` have smaller rank, and all that they resolve to is in the result
      refine Ty.map_type_applyWith fun w hw => ih (fun y hy => ?_) ?_
      · exact hfree y (Ty.mem_mentions_substitute hu hw hy)
      · have := hs.rank_lt_of_find? hv hw
        omega

/-- In a larger store a type resolves as before if nothing in what it resolved to was bound. -/
theorem Extends.resolve?_eq (h : s'.Extends s) (hs : s.Acyclic)
    (hscheme : AllEntries (fun u => u.schemeFree = true) s) {t : Ty} (ht : t.schemeFree = true)
    (hfree : ∀ w ∈ (t.substitute s.image).mentions, s'.get? w = none) :
    s'.resolve? t = some (t.substitute s.image) := by
  refine Ty.map_type_applyWith fun v hv => h.expand_eq hs hscheme (fun w hw => ?_) ?_
  · exact hfree w (Ty.mem_mentions_substitute ht hv hw)
  · exact Nat.lt_succ_of_le ((s.rank_le_size v).trans h.size_le)

/-- Unification is local: it binds only variables that had no entry and are open in one of the two
types as they resolve. Whatever resolves to a type without these variables resolves to that type
also afterwards. -/
theorem unify?_local {l r : Ty} {steps : List Step} (hs : s.Acyclic)
    (h : s.unify? l r = some ⟨steps, .ok s'⟩) :
    ∃ l' r', s.resolve? l = some l' ∧ s.resolve? r = some r' ∧
      (∀ v e, s'.get? v = some e → s.get? v = some e ∨
        s.get? v = none ∧ (.flexible v ∈ l'.freeVars ∨ .flexible v ∈ r'.freeVars)) ∧
      (AllEntries (fun u => u.schemeFree = true) s → ∀ t, t.schemeFree = true →
        ∃ t', s.resolve? t = some t' ∧
          ((∀ v ∈ t'.mentions, .flexible v ∉ l'.freeVars ∧ .flexible v ∉ r'.freeVars) →
            s'.resolve? t = some t')) := by
  have hcourse := unify?_eq_some_iff.1 h
  have hbinds : s.BindsAmong (fun v => .flexible v ∈ (l.substitute s.image).freeVars ∨
      .flexible v ∈ (r.substitute s.image).freeVars) s' :=
    hcourse.binds_open hs (List.forall_mem_singleton.2 ⟨fun _ => .inl, fun _ => .inr⟩) rfl
  refine ⟨_, _, hs.resolve?_eq l, hs.resolve?_eq r, hbinds, fun hscheme t ht => ?_⟩
  refine ⟨_, hs.resolve?_eq t, fun hapart => ?_⟩
  refine (hcourse.extends rfl).resolve?_eq hs hscheme ht fun v hv => ?_
  -- a variable of the result had no entry, and it is not among those that got one
  cases hget : s'.get? v with
  | none => rfl
  | some e =>
    rcases hbinds v e hget with hold | ⟨-, hopen | hopen⟩
    · rw [hs.get?_eq_none_of_mem_substitute hv] at hold
      cases hold
    · exact absurd hopen (hapart v hv).1
    · exact absurd hopen (hapart v hv).2

/-- A variable is bound to a type that contains it. The store is cyclic from then on, and a type
without that variable resolves as before. -/
theorem unify?_local_cyclic : ∃ (s s' : Substitution) (steps : List Step), s.Acyclic ∧
    s.unify? (.flexible 1) (.arrow 5 (.flexible 2) (.flexible 3)) = some ⟨steps, .ok s'⟩ ∧
    ¬ s'.Acyclic ∧
    (∀ v e, s'.get? v = some e → s.get? v = some e ∨ s.get? v = none ∧ (v = 2 ∨ v = 3)) ∧
    s'.resolve? (.product 8 [.flexible 4, .flexible 7])
      = some (.product 8 [.primitive 6 .i32, .flexible 7]) := by
  let s := (Substitution.empty.assign 1 (.flexible 2)).assign 4 (.primitive 6 .i32)
  let s' := s.assign 2 (.arrow 5 (.flexible 2) (.flexible 3))
  obtain ⟨steps, hunify⟩ : ∃ steps, s.unify? (.flexible 1) (.arrow 5 (.flexible 2) (.flexible 3))
      = some ⟨steps, .ok s'⟩ := ⟨_, rfl⟩
  have hs : s.Acyclic := acyclic_of_measure (fun v => 2 - v) (by decide)
  have hempty := allEntries_empty fun u => u.schemeFree = true
  have hscheme : AllEntries (fun u => u.schemeFree = true) s := (hempty.assign rfl).assign rfl
  have hcyclic : s'.Refers 2 2 := ⟨_, rfl, .head _⟩
  obtain ⟨l', r', hl, hr, hbinds, hframe⟩ := unify?_local hs hunify
  obtain rfl : l' = .flexible 2 := Option.some.inj (hl.symm.trans rfl)
  obtain rfl : r' = .arrow 5 (.flexible 2) (.flexible 3) := Option.some.inj (hr.symm.trans rfl)
  obtain ⟨t', ht', hsame⟩ := hframe hscheme (.product 8 [.flexible 4, .flexible 7]) rfl
  obtain rfl : t' = .product 8 [.primitive 6 .i32, .flexible 7] :=
    Option.some.inj (ht'.symm.trans rfl)
  refine ⟨s, s', steps, hs, hunify, fun h => h 2 (.single hcyclic), fun v e he => ?_, ?_⟩
  · simpa [Ty.freeVars] using hbinds v e he
  · exact hsame (by simp [Ty.freeVars])

end Substitution

end CoContextual
