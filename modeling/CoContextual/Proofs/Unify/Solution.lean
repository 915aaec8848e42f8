import CoContextual.Proofs.Substitution.Acyclic
import CoContextual.Proofs.Unify.Course

/-!
# Solutions of a store

An assignment gives every flexible variable a type; rigid variables are constants. It satisfies a
store if it makes every variable equal to what its entry says (`Substitution.SatisfiedBy`). Types
are compared without the identities of their nodes.

- `Substitution.SatisfiedBy.find?`: a solution gives a variable the same type as what the variable
  leads to;
- `Substitution.satisfiedBy_assign`: what binding a variable adds to the conditions;
- `Substitution.Acyclic.satisfiedBy_image`: on an acyclic store, resolving is a solution;
- `Substitution.SatisfiedBy.resolved`: there it is the most general one.
-/

namespace CoContextual

namespace Substitution

variable {s t : Substitution} {A : NodeId → Ty} {v w : NodeId}

/-- Every variable with an entry has the type that the entry says. -/
def SatisfiedBy (s : Substitution) (A : NodeId → Ty) : Prop :=
  ∀ v e, s.get? v = some e → (A v).alike (e.toTy.substitute A) = true

theorem SatisfiedBy.of_extends (h : t.SatisfiedBy A) (hts : t.Extends s) : s.SatisfiedBy A :=
  fun v e he => h v e (hts v e he)

theorem satisfiedBy_empty (A : NodeId → Ty) : Substitution.empty.SatisfiedBy A := by
  intro v e he
  cases he

/-- A variable has the type of what it leads to. -/
theorem SatisfiedBy.find? (h : s.SatisfiedBy A) {look : Lookup} (hv : s.find? v = some look) :
    (A v).erase = (look.toTy.substitute A).erase := by
  refine find?_induction (s := s)
    (P := fun v look => (A v).erase = (look.toTy.substitute A).erase) ?_ ?_ ?_ hv
  · intro v _
    rw [Lookup.toTy, Ty.substitute_flexible]
  · intro v u hget
    exact (Ty.alike_iff_erase_eq _ _).1 (h v _ hget)
  · intro v w look hget _ ih
    have hvw := (Ty.alike_iff_erase_eq _ _).1 (h v _ hget)
    rw [Entry.toTy, Ty.substitute_flexible] at hvw
    rw [hvw, ih]

/-- What a variable is bound to has the type of what the variable faces. -/
theorem SatisfiedBy.target? (h : s.SatisfiedBy A) {other target : Ty}
    (ht : s.target? other = some target) :
    (other.substitute A).erase = (target.substitute A).erase := by
  rcases target?_eq_some ht with ⟨w, look, rfl, hlook, rfl⟩ | ⟨-, rfl⟩
  · rw [Ty.substitute_flexible]
    exact h.find? hlook
  · rfl

/-- Binding a variable adds one condition. -/
theorem satisfiedBy_assign (hw : s.get? w = none) {target : Ty} :
    (s.assign w target).SatisfiedBy A ↔
      s.SatisfiedBy A ∧ (A w).erase = (target.substitute A).erase := by
  -- a variable is not redirected to itself, and equals itself in every solution
  by_cases hself : target = .flexible w
  · rw [hself, assign_self, Ty.substitute_flexible]
    simp
  obtain ⟨e, he, rfl⟩ := get?_assign_self (s := s) hself
  constructor
  · intro h
    exact ⟨h.of_extends (extends_assign hw _), (Ty.alike_iff_erase_eq _ _).1 (h w e he)⟩
  · rintro ⟨h, hA⟩ v e' he'
    by_cases hv : v = w
    · rw [hv, he] at he'
      cases he'
      rw [hv, Ty.alike_iff_erase_eq, hA]
    · rw [get?_assign_of_ne s _ hv] at he'
      exact h v e' he'

/-- On an acyclic store, resolving is a solution. -/
theorem Acyclic.satisfiedBy_image (h : s.Acyclic) : s.SatisfiedBy s.image := by
  intro v e he
  rw [h.image_eq he]
  exact Ty.alike_refl _

theorem Acyclic.plain_image (h : s.Acyclic) (hplain : AllEntries (fun u => u.plain = true) s)
    (v : NodeId) : (s.image v).plain = true :=
  h.image_induction (P := fun _ t => t.plain = true) (fun _ _ => rfl)
    (fun v e hget ih => Ty.plain_substitute (hplain v e hget) ih) v

/-- On an acyclic store every solution factors through resolving. -/
theorem SatisfiedBy.image (h : s.SatisfiedBy A) (hs : s.Acyclic)
    (hscheme : AllEntries (fun u => u.schemeFree = true) s) (v : NodeId) :
    (A v).erase = ((s.image v).substitute A).erase := by
  refine hs.image_induction (P := fun v t => (A v).erase = (t.substitute A).erase) ?_ ?_ v
  · intro v _
    rw [Ty.substitute_flexible]
  · intro v e hget ih
    rw [Ty.substitute_substitute (hscheme v e hget), (Ty.alike_iff_erase_eq _ _).1 (h v e hget)]
    exact Ty.erase_substitute_congr rfl ih

/-- A solution gives a type and its resolved form the same value. -/
theorem SatisfiedBy.resolved (h : s.SatisfiedBy A) (hs : s.Acyclic)
    (hscheme : AllEntries (fun u => u.schemeFree = true) s) {t : Ty} (ht : t.schemeFree = true) :
    (t.substitute A).erase = ((t.substitute s.image).substitute A).erase := by
  rw [Ty.substitute_substitute ht]
  exact Ty.erase_substitute_congr rfl fun v _ => h.image hs hscheme v

end Substitution

/-! ## Known variables -/

namespace Ty

/-- The property holds of all variables of the type. -/
def Among (K : NodeId → Prop) (t : Ty) : Prop := ∀ v ∈ t.mentions, K v

variable {K K' : NodeId → Prop} {t : Ty}

theorem Among.mono (h : t.Among K) (hK : ∀ v, K v → K' v) : t.Among K' := fun v hv => hK v (h v hv)

theorem Among.erase_substitute {A B : NodeId → Ty} (h : t.Among K) (hAB : ∀ v, K v → B v = A v) :
    (t.substitute B).erase = (t.substitute A).erase :=
  erase_substitute_congr rfl fun v hv => by rw [hAB v (h v hv)]

theorem partClosed_among (K : NodeId → Prop) : PartClosed (Among K) := by
  intro t ht c hc
  cases t with
  | arrow id d e =>
    intro v hv
    rcases List.mem_pair.1 hc with rfl | rfl
    · exact ht v (by simp [hv])
    · exact ht v (by simp [hv])
  | product id cs => exact fun v hv => ht v (mem_mentions_product.2 ⟨c, hc, hv⟩)
  | _ => cases hc

end Ty

namespace Substitution

variable {s s' : Substitution} {A B : NodeId → Ty} {K K' : NodeId → Prop}

/-- The property holds of all variables that the store speaks of. -/
structure Among (K : NodeId → Prop) (s : Substitution) : Prop where
  /-- The variables with an entry. -/
  keys : ∀ v e, s.get? v = some e → K v
  /-- The variables that entries mention. -/
  entries : AllEntries (Ty.Among K) s

theorem among_empty (K : NodeId → Prop) : Substitution.empty.Among K :=
  ⟨fun _ _ he => (nomatch he), allEntries_empty _⟩

theorem Among.mono (h : s.Among K) (hK : ∀ v, K v → K' v) : s.Among K' :=
  ⟨fun v e he => hK v (h.keys v e he), fun v e he => (h.entries v e he).mono hK⟩

/-- Unifying types brings in no other variables. -/
theorem Course.among {goals : List (Ty × Ty)} {a : Attempt} (h : Course s goals a)
    (hs : s.Among K) (hgoals : ∀ g ∈ goals, g.1.Among K ∧ g.2.Among K) (hres : a.result = .ok s') :
    s'.Among K := by
  have hpair := h.preserves_within (Ty.partClosed_among K)
    (P := fun s => ∀ v e, s.get? v = some e → K v) ?_ hs.entries hs.keys hgoals hres
  · exact ⟨hpair.2, hpair.1⟩
  · -- the variable that gets an entry is one that a variable of the goals leads to
    intro s v w other target hs hkeys hv _ hfind _ x e hx
    rcases get?_assign_cases hx with hx | ⟨rfl, -⟩
    · exact hkeys x e hx
    · exact hs.keep.find? hv hfind x (.head _)

/-- Variables that the store does not speak of may be given other types. -/
theorem SatisfiedBy.of_agree (h : s.SatisfiedBy A) (hs : s.Among K)
    (hAB : ∀ v, K v → B v = A v) : s.SatisfiedBy B := by
  intro v e he
  rw [Ty.alike_iff_erase_eq, hAB v (hs.keys v e he), (hs.entries v e he).erase_substitute hAB]
  exact (Ty.alike_iff_erase_eq _ _).1 (h v e he)

end Substitution

end CoContextual
