import CoContextual.Proofs.Substitution.Acyclic

/-!
# Stores that are the same but for identities

Two types are alike if they are the same tree once the identities of their nodes are erased
(`Ty.alike_iff_erase_eq`). Stores are compared in the same way, entry by entry
(`Substitution.alike_iff_erase_eq`). What a variable leads to in one of two such stores it leads to
in the other, up to identities, and so it is with what a type resolves to: if the one has an answer,
so has the other (`Substitution.exists_find?_alike`, `Substitution.resolve?_alike`). Not even a
quantifier list, which resolving sorts by identities, tells them apart: its members are variables,
and erasing leaves these as they are.
-/

namespace CoContextual

/-- Two partial results are related if each answer on the left has a related one on the right, and
there is one on the left wherever there is one on the right. -/
theorem rel_of_exists {α β : Type} {R : α → β → Prop} {x : Option α} {y : Option β}
    (h : ∀ a, x = some a → ∃ b, y = some b ∧ R a b) (h' : ∀ b, y = some b → ∃ a, x = some a) :
    Option.Rel R x y := by
  cases x with
  | none =>
    cases y with
    | none => exact .none
    | some b =>
      obtain ⟨a, ha⟩ := h' b rfl
      cases ha
  | some a =>
    obtain ⟨b, rfl, hab⟩ := h a rfl
    exact .some hab

/-! ## Types -/

namespace Ty

theorem erase_eq_var_iff {t : Ty} {v : TyVar} : t.erase = .var v ↔ t = .var v := by
  cases t <;> simp

theorem alike_congr {l l' r r' : Ty} (hl : l.erase = l'.erase) (hr : r.erase = r'.erase) :
    l.alike r = l'.alike r' := by
  rw [Bool.eq_iff_iff, alike_iff_erase_eq, alike_iff_erase_eq, hl, hr]

/-- Erasing keeps the variables. -/
theorem mem_mentions_erase {t : Ty} {v : NodeId} : v ∈ t.erase.mentions ↔ v ∈ t.mentions := by
  induction t using ind with
  | arrow id d c ihd ihc => simp [ihd, ihc]
  | product id cs ih =>
    rw [erase_product, mem_mentions_product, mem_mentions_product]
    constructor
    · rintro ⟨u, hu, hv⟩
      obtain ⟨c, hc, rfl⟩ := List.mem_map.1 hu
      exact ⟨c, hc, (ih c hc).1 hv⟩
    · rintro ⟨c, hc, hv⟩
      exact ⟨_, List.mem_map_of_mem hc, (ih c hc).2 hv⟩
  | scheme id bound body ih => simp [ih]
  | _ => simp

/-- If types that are alike have their variables replaced by types that are alike, the results are
alike; and the one has a result if the other has. -/
theorem exists_applyWith_alike {replace replace' : NodeId → Option Resolved} {t t' u : Ty}
    (ht : t.erase = t'.erase)
    (hreplace : ∀ v x, (replace v).map Resolved.type = some x →
      ∃ x', (replace' v).map Resolved.type = some x' ∧ x.erase = x'.erase)
    (hu : (t.applyWith replace).map Resolved.type = some u) :
    ∃ u', (t'.applyWith replace').map Resolved.type = some u' ∧ u.erase = u'.erase := by
  obtain ⟨f, hf, rfl⟩ := map_type_applyWith_eq_some_iff.1 hu
  let g : NodeId → Ty := fun v => ((replace' v).map Resolved.type).getD (.flexible v)
  have hg : ∀ v ∈ t.mentions, (replace' v).map Resolved.type = some (g v) ∧
      (f v).erase = (g v).erase := by
    intro v hv
    obtain ⟨x, hx, heq⟩ := hreplace v (f v) (hf v hv)
    have hgv : g v = x := by simp only [g, hx, Option.getD_some]
    rw [hgv]
    exact ⟨hx, heq⟩
  refine ⟨t'.substitute g, map_type_applyWith fun v hv => (hg v ?_).1,
    erase_substitute_congr ht fun v hv => (hg v hv).2⟩
  rwa [← mem_mentions_erase, ht, mem_mentions_erase]

end Ty

/-! ## Entries -/

namespace Entry

/-- The entry with the identities of its type erased. -/
def erase : Entry → Entry
  | bound t => bound t.erase
  | redirect w => redirect w

theorem alike_iff_erase_eq (e f : Entry) : e.alike f = true ↔ e.erase = f.erase := by
  cases e <;> cases f <;> simp [alike, erase, Ty.alike_iff_erase_eq]

end Entry

/-- What a lookup leads to, with the identities of a type erased. -/
def Lookup.erase : Lookup → Lookup
  | unbound w => unbound w
  | bound t => bound t.erase

namespace Substitution

variable {s t : Substitution} {v w : NodeId}

/-- The store with the identities of all types erased. -/
def erase (s : Substitution) : Substitution := ⟨s.entries.map Entry.erase⟩

theorem get?_erase (s : Substitution) (v : NodeId) :
    s.erase.get? v = (s.get? v).map Entry.erase := Table.get?_map ..

theorem size_erase (s : Substitution) : s.erase.size = s.size := List.length_map _

theorem alikeEntries_iff {l m : List (NodeId × Entry)} :
    alikeEntries l m = true ↔
      l.map (fun e => (e.1, e.2.erase)) = m.map fun e => (e.1, e.2.erase) := by
  induction l generalizing m with
  | nil => cases m <;> simp [alikeEntries]
  | cons e l ih =>
    cases m with
    | nil => simp [alikeEntries]
    | cons f m => simp [alikeEntries, ih, Entry.alike_iff_erase_eq]

/-- Stores are alike if they are the same once the identities are erased. -/
theorem alike_iff_erase_eq (s t : Substitution) : s.alike t = true ↔ s.erase = t.erase := by
  rw [alike, alikeEntries_iff, erase, erase, mk.injEq, Table.map, Table.map, Table.mk.injEq]

theorem assign_erase (s : Substitution) (v : NodeId) (target : Ty) :
    (s.assign v target).erase = s.erase.assign v target.erase := by
  have hinsert : ∀ e, erase ⟨s.entries.insert v e⟩ = ⟨s.erase.entries.insert v e.erase⟩ := by
    refine fun e => ext_get? fun w => ?_
    rw [get?_erase, get?, get?, Table.get?_insert, Table.get?_insert, apply_ite (Option.map _)]
    exact congrArg _ (get?_erase s w).symm
  rcases target with _ | _ | _ | ⟨w | w⟩ | _ | _
  case var.flexible =>
    rw [Ty.erase_var, assign, assign]
    split
    · rfl
    · exact hinsert _
  all_goals exact hinsert _

theorem findWithin_erase (s : Substitution) (n : ℕ) (v : NodeId) :
    s.erase.findWithin n v = (s.findWithin n v).map Lookup.erase := by
  induction n generalizing v with
  | zero => rfl
  | succ n ih =>
    rw [findWithin, findWithin, get?_erase]
    cases s.get? v with
    | none => rfl
    | some e =>
      cases e with
      | bound u => rfl
      | redirect w => exact ih w

theorem find?_erase (s : Substitution) (v : NodeId) :
    s.erase.find? v = (s.find? v).map Lookup.erase := by
  rw [find?, find?, size_erase, findWithin_erase]

/-! ## Two stores -/

section

variable (h : s.erase = t.erase)

include h

/-- What a variable leads to in a store it leads to in one that is alike. -/
theorem exists_find?_alike {look : Lookup} (hv : s.find? v = some look) :
    ∃ look', t.find? v = some look' ∧ look.erase = look'.erase := by
  have heq : (s.find? v).map Lookup.erase = (t.find? v).map Lookup.erase := by
    rw [← find?_erase, h, find?_erase]
  rw [hv, Option.map_some, eq_comm, Option.map_eq_some_iff] at heq
  obtain ⟨look', hlook, heq⟩ := heq
  exact ⟨look', hlook, heq.symm⟩

theorem find?_unbound_alike (hv : s.find? v = some (.unbound w)) :
    t.find? v = some (.unbound w) := by
  obtain ⟨look, hlook, heq⟩ := exists_find?_alike h hv
  cases look with
  | unbound w' =>
    cases heq
    exact hlook
  | bound u => cases heq

theorem exists_find?_bound_alike {u : Ty} (hv : s.find? v = some (.bound u)) :
    ∃ u', t.find? v = some (.bound u') ∧ u.erase = u'.erase := by
  obtain ⟨look, hlook, heq⟩ := exists_find?_alike h hv
  cases look with
  | unbound w => cases heq
  | bound u' =>
    rw [Lookup.erase, Lookup.erase, Lookup.bound.injEq] at heq
    exact ⟨u', hlook, heq⟩

theorem exists_expand_alike {n : ℕ} {u : Ty} (hu : (s.expand n v).map Resolved.type = some u) :
    ∃ u', (t.expand n v).map Resolved.type = some u' ∧ u.erase = u'.erase := by
  induction n generalizing v u with
  | zero => cases hu
  | succ n ih =>
    cases hfind : s.find? v with
    | none => simp [expand, hfind] at hu
    | some look =>
      cases look with
      | unbound w =>
        rw [map_type_expand_of_unbound hfind] at hu
        exact ⟨u, (map_type_expand_of_unbound (find?_unbound_alike h hfind) n).trans hu, rfl⟩
      | bound x =>
        obtain ⟨x', hfind', hx⟩ := exists_find?_bound_alike h hfind
        rw [map_type_expand_of_bound hfind] at hu
        rw [map_type_expand_of_bound hfind']
        exact Ty.exists_applyWith_alike hx (fun _ _ => ih) hu

/-- Types that are alike resolve to types that are alike. -/
theorem exists_resolve?_alike {x x' u : Ty} (hx : x.erase = x'.erase) (hu : s.resolve? x = some u) :
    ∃ u', t.resolve? x' = some u' ∧ u.erase = u'.erase := by
  have hsize : s.size = t.size := by rw [← size_erase, h, size_erase]
  rw [resolve?, applyTo?, hsize] at hu
  exact Ty.exists_applyWith_alike hx (fun _ _ => exists_expand_alike h) hu

/-- Types that are alike resolve to types that are alike, or neither resolves to anything. -/
theorem resolve?_alike {x x' : Ty} (hx : x.erase = x'.erase) :
    Option.Rel (fun u u' => u.alike u' = true) (s.resolve? x) (t.resolve? x') := by
  refine rel_of_exists (fun u hu => ?_) fun u' hu' => ?_
  · obtain ⟨u', hu', heq⟩ := exists_resolve?_alike h hx hu
    exact ⟨u', hu', (Ty.alike_iff_erase_eq _ _).2 heq⟩
  · obtain ⟨u, hu, -⟩ := exists_resolve?_alike h.symm hx.symm hu'
    exact ⟨u, hu⟩

end

end Substitution

end CoContextual
