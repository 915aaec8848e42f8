import CoContextual.Proofs.Unify.Soundness

/-!
# Unifying independently

Where two stores speak of different variables, neither hides an entry of the other, and they may be
joined in either order (`Substitution.append_comm`). A unification that keeps to the variables of
one store takes the same course on the joined store: it looks up, binds and resolves these variables
only, and none of them has an entry in the other store.

- `Substitution.Avoids`: no variable with the given property has an entry;
- `Substitution.Course.atop`: a course is the same, step by step, with such a store below;
- `Substitution.unify?_independent`: unifications over different variables commute.
-/

namespace CoContextual

/-- The attempt with `base` below the store that it ends with. -/
def Attempt.atop (a : Attempt) (base : Substitution) : Attempt :=
  ⟨a.steps, a.result.map (base ++ ·)⟩

namespace Substitution

variable {base s s' : Substitution} {K : NodeId → Prop} {goals : List (Ty × Ty)} {a : Attempt}

/-! ## Joined stores -/

theorem append_empty (base : Substitution) : base ++ empty = base := by
  refine ext_get? fun v => ?_
  rw [get?_append]
  rfl

theorem extends_append (base s : Substitution) : (base ++ s).Extends s := by
  intro v e he
  rw [get?_append, he, Option.some_or]

/-- Stores that speak of different variables may be joined in either order. -/
theorem append_comm (h : ∀ v, base.get? v = none ∨ s.get? v = none) : base ++ s = s ++ base := by
  refine ext_get? fun v => ?_
  rw [get?_append, get?_append]
  rcases h v with hv | hv <;> simp [hv]

/-- Assigning in the right store is assigning in the joined one. -/
theorem append_assign (base s : Substitution) (w : NodeId) (target : Ty) :
    base ++ s.assign w target = (base ++ s).assign w target := by
  by_cases hself : target = .flexible w
  · rw [hself, assign_self, assign_self]
  refine ext_get? fun v => ?_
  by_cases hv : v = w
  · obtain ⟨e, he, -⟩ := get?_assign_self (s := s) hself
    rw [hv, get?_append, he, Option.some_or, ← he]
    exact get?_assign_self_congr _ _ hself
  · rw [get?_append, get?_assign_of_ne _ _ hv, get?_assign_of_ne _ _ hv, get?_append]

/-! ## A store of other variables below -/

/-- None of the variables has an entry. -/
def Avoids (base : Substitution) (K : NodeId → Prop) : Prop := ∀ v, K v → base.get? v = none

section Avoids

variable {v : NodeId} (hbase : base.Avoids K) (hs : EntriesKeep (Ty.Among K) s)

include hbase hs

/-- A lookup ends where it does without the store below. -/
theorem Avoids.find? {look : Lookup} (hv : (Ty.flexible v).Among K) (h : s.find? v = some look) :
    (base ++ s).find? v = some look := by
  have hlook := hs.find? hv h
  cases look with
  | bound u => exact (extends_append base s).find?_bound h
  | unbound w =>
    -- neither store has an entry for the variable at the end of the aliases
    rw [(extends_append base s).find?_unbound h]
    refine find?_of_none ?_
    rw [get?_append, get?_eq_none_of_find? h, hbase w (hlook w (.head _))]
    rfl

theorem Avoids.target? {other target : Ty} (hother : other.Among K)
    (h : s.target? other = some target) : (base ++ s).target? other = some target := by
  rw [Substitution.target?.eq_def] at h ⊢
  split at h
  · obtain ⟨look, hlook, rfl⟩ := Option.map_eq_some_iff.1 h
    rw [hbase.find? hs hother hlook, Option.map_some]
  · exact h

theorem Avoids.expand {n m : ℕ} (hnm : n ≤ m) (hv : (Ty.flexible v).Among K) {u : Ty}
    (h : (s.expand n v).map Resolved.type = some u) :
    ((base ++ s).expand m v).map Resolved.type = some u := by
  induction n generalizing v m u with
  | zero => cases h
  | succ n ih =>
    obtain ⟨m, rfl⟩ : ∃ k, m = k + 1 := ⟨m - 1, by omega⟩
    cases hfind : s.find? v with
    | none => simp [Substitution.expand, hfind] at h
    | some look =>
      have hfind' := hbase.find? hs hv hfind
      cases look with
      | unbound w =>
        rw [map_type_expand_of_unbound hfind] at h
        rw [map_type_expand_of_unbound hfind', h]
      | bound t =>
        -- the variables of the type are again among those that the store below avoids
        have ht : t.Among K := hs.find? hv hfind
        rw [map_type_expand_of_bound hfind] at h
        rw [map_type_expand_of_bound hfind']
        obtain ⟨f, hf, rfl⟩ := Ty.map_type_applyWith_eq_some_iff.1 h
        exact Ty.map_type_applyWith fun w hw =>
          ih (by omega) (List.forall_mem_singleton.2 (ht w hw)) (hf w hw)

/-- A type resolves as it does without the store below. -/
theorem Avoids.resolve? {t u : Ty} (ht : t.Among K) (h : s.resolve? t = some u) :
    (base ++ s).resolve? t = some u := by
  obtain ⟨f, hf, rfl⟩ := Ty.map_type_applyWith_eq_some_iff.1 h
  refine Ty.map_type_applyWith fun v hv => ?_
  exact hbase.expand hs (Nat.succ_le_succ (extends_append base s).size_le)
    (List.forall_mem_singleton.2 (ht v hv)) (hf v hv)

end Avoids

/-- A course is the same, step by step, with a store below it that has no entry for its variables.
The store that it ends with is joined to that one. -/
theorem Course.atop (h : Course s goals a) (hbase : base.Avoids K)
    (hs : EntriesKeep (Ty.Among K) s) (hgoals : ∀ g ∈ goals, g.1.Among K ∧ g.2.Among K) :
    Course (base ++ s) goals (a.atop base) := by
  induction h with
  | done s => exact .done _
  | identity heq _ ih => exact .identity heq (ih hs (List.forall_mem_cons.1 hgoals).2)
  | expand hne hface hv _ ih =>
    obtain ⟨⟨hl, hr⟩, hgoals⟩ := List.forall_mem_cons.1 hgoals
    obtain ⟨hvar, hother⟩ := hface.both hl hr
    refine .expand hne hface (hbase.find? hs hvar hv) (ih hs ?_)
    exact List.forall_mem_cons.2 ⟨⟨hother, hs.find? hvar hv⟩, hgoals⟩
  | bind hne hface hv ht _ ih =>
    obtain ⟨⟨hl, hr⟩, hgoals⟩ := List.forall_mem_cons.1 hgoals
    obtain ⟨hvar, hother⟩ := hface.both hl hr
    have hrest := ih (hs.assign (hs.target? hother ht)) hgoals
    rw [append_assign] at hrest
    exact .bind hne hface (hbase.find? hs hvar hv) (hbase.target? hs hother ht) hrest
  | absorb hne habs _ ih => exact .absorb hne habs (ih hs (List.forall_mem_cons.1 hgoals).2)
  | decompose hne hparts _ ih =>
    obtain ⟨⟨hl, hr⟩, hgoals⟩ := List.forall_mem_cons.1 hgoals
    refine .decompose hne hparts (ih hs (List.forall_mem_append.2 ⟨?_, hgoals⟩))
    exact hparts.of_partClosed (Ty.partClosed_among K) hl hr
  | arity i j goals hlen => exact .arity i j goals hlen
  | clash goals hne hclash hl hr =>
    obtain ⟨⟨hamongl, hamongr⟩, -⟩ := List.forall_mem_cons.1 hgoals
    exact .clash goals hne hclash (hbase.resolve? hs hamongl hl) (hbase.resolve? hs hamongr hr)

/-! ## Different variables -/

/-- What a unification does without a store it does on top of a store of other variables. -/
theorem Avoids.unify? {l r : Ty} (hbase : base.Avoids K) (hl : l.Among K) (hr : r.Among K)
    (h : empty.unify? l r = some a) : base.unify? l r = some (a.atop base) := by
  have hcourse := (unify?_eq_some_iff.1 h).atop hbase (allEntries_empty _).keep
    (List.forall_mem_singleton.2 ⟨hl, hr⟩)
  rw [append_empty] at hcourse
  exact unify?_eq_some_iff.2 hcourse

/-- What a unification leaves has entries for variables of the two types only. -/
theorem avoids_of_unify? {l r : Ty} (h : empty.unify? l r = some a) (hres : a.result = .ok s) :
    s.Avoids fun v => v ∉ l.mentions ∧ v ∉ r.mentions := by
  rintro v ⟨hl, hr⟩
  have hamong : s.Among fun v => v ∈ l.mentions ∨ v ∈ r.mentions :=
    (unify?_eq_some_iff.1 h).among (among_empty _)
      (List.forall_mem_singleton.2 ⟨fun _ => .inl, fun _ => .inr⟩) hres
  cases hget : s.get? v with
  | none => rfl
  | some e => exact absurd (hamong.keys v e hget) (not_or.2 ⟨hl, hr⟩)

/-- Unifications over different variables commute: after the one succeeded, the other takes the same
steps and ends with the same failure or with the two stores joined, and it does not matter in which
order they are. -/
theorem unify?_independent {a b c d : Ty} {first second : Attempt}
    (hdisjoint : ∀ v, v ∈ a.mentions ∨ v ∈ b.mentions → v ∉ c.mentions ∧ v ∉ d.mentions)
    (hab : empty.unify? a b = some first) (hcd : empty.unify? c d = some second) :
    (∀ s₁, first.result = .ok s₁ →
      s₁.unify? c d = some ⟨second.steps, second.result.map (s₁ ++ ·)⟩) ∧
    (∀ s₂, second.result = .ok s₂ →
      s₂.unify? a b = some ⟨first.steps, first.result.map (s₂ ++ ·)⟩) ∧
    ∀ s₁ s₂, first.result = .ok s₁ → second.result = .ok s₂ → s₁ ++ s₂ = s₂ ++ s₁ := by
  refine ⟨fun s₁ h₁ => ?_, fun s₂ h₂ => ?_, fun s₁ s₂ h₁ h₂ => append_comm fun v => ?_⟩
  · refine (avoids_of_unify? hab h₁).unify? (fun v hv => ?_) (fun v hv => ?_) hcd
    · exact ⟨fun ha => (hdisjoint v (.inl ha)).1 hv, fun hb => (hdisjoint v (.inr hb)).1 hv⟩
    · exact ⟨fun ha => (hdisjoint v (.inl ha)).2 hv, fun hb => (hdisjoint v (.inr hb)).2 hv⟩
  · exact (avoids_of_unify? hcd h₂).unify? (fun v hv => hdisjoint v (.inl hv))
      (fun v hv => hdisjoint v (.inr hv)) hab
  · -- a variable of the first two types has no entry in the second store, others have none in the
    -- first
    by_cases hv : v ∈ a.mentions ∨ v ∈ b.mentions
    · exact .inr (avoids_of_unify? hcd h₂ v (hdisjoint v hv))
    · exact .inl (avoids_of_unify? hab h₁ v (not_or.1 hv))

/-- One unification makes an alias and binds what it leads to, another binds a variable to a type
with a variable in it, and a third fails after it has bound a variable. -/
theorem unify?_independent_alias : ∃ (s₁ s₂ : Substitution) (e : UnifyError),
    s₁.size = 2 ∧ s₂.size = 1 ∧ s₁ ++ s₂ = s₂ ++ s₁ ∧
    (∃ steps, s₁.unify? (.flexible 3) (.arrow 8 (.flexible 4) (.flexible 4))
      = some ⟨steps, .ok (s₁ ++ s₂)⟩) ∧
    (∃ steps, s₂.unify? (.product 5 [.flexible 1, .flexible 1])
      (.product 6 [.flexible 2, .primitive 7 .i32]) = some ⟨steps, .ok (s₂ ++ s₁)⟩) ∧
    e = .mismatch (.arrow 13 (.primitive 9 .i32) (.flexible 4)) (.primitive 10 .string) ∧
    ∃ steps, s₁.unify? (.product 11 [.flexible 3, .arrow 13 (.flexible 3) (.flexible 4)])
      (.product 12 [.primitive 9 .i32, .primitive 10 .string]) = some ⟨steps, .error e⟩ := by
  obtain ⟨steps, s₁, hab, hsize⟩ : ∃ steps s₁,
      empty.unify? (.product 5 [.flexible 1, .flexible 1])
        (.product 6 [.flexible 2, .primitive 7 .i32]) = some ⟨steps, .ok s₁⟩ ∧ s₁.size = 2 :=
    ⟨_, _, rfl, rfl⟩
  obtain ⟨steps', s₂, hcd, hsize'⟩ : ∃ steps s₂,
      empty.unify? (.flexible 3) (.arrow 8 (.flexible 4) (.flexible 4)) = some ⟨steps, .ok s₂⟩ ∧
        s₂.size = 1 := ⟨_, _, rfl, rfl⟩
  obtain ⟨steps'', e, hfail, he⟩ : ∃ steps e,
      empty.unify? (.product 11 [.flexible 3, .arrow 13 (.flexible 3) (.flexible 4)])
        (.product 12 [.primitive 9 .i32, .primitive 10 .string]) = some ⟨steps, .error e⟩ ∧
        e = .mismatch (.arrow 13 (.primitive 9 .i32) (.flexible 4)) (.primitive 10 .string) :=
    ⟨_, _, rfl, rfl⟩
  obtain ⟨hforth, hback, hjoin⟩ := unify?_independent (by simp) hab hcd
  obtain ⟨hforth', -, -⟩ := unify?_independent (by simp) hab hfail
  exact ⟨s₁, s₂, e, hsize, hsize', hjoin s₁ s₂ rfl rfl, ⟨_, hforth s₁ rfl⟩, ⟨_, hback s₂ rfl⟩, he,
    _, hforth' s₁ rfl⟩

end Substitution

end CoContextual
