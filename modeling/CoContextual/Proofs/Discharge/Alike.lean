import CoContextual.Proofs.Discharge.Link
import CoContextual.Proofs.Requirements
import CoContextual.Proofs.Unify.Alike

/-!
# Discharging does not look at identities

Instances that are made of types that are alike, with the same fresh variables, are alike
(`Ty.erase_renew_congr`), and unification does not tell them apart (`Substitution.unify?_alike`).
So uses that are alike are linked side by side: each fits on both sides or on neither
(`linkUses_alike`).

Unifying, resolving and discharging taken together, identities play no part in what comes of them
(`Substitution.identities_irrelevant`). They only tell where a type comes from.
-/

namespace CoContextual

/-- The uses are the same but for identities. -/
structure Use.Alike (u v : Use) : Prop where
  /-- The identifiers. -/
  token : u.token = v.token
  /-- The types at which it is used. -/
  required : u.required.alike v.required = true
  /-- The types with which it is declared. -/
  declared : u.declared.alike v.declared = true

/-- The failures are the same but for identities. -/
structure Failure.Alike (f g : Failure) : Prop where
  /-- The uses. -/
  use : f.use.Alike g.use
  /-- Why they do not fit. -/
  error : f.error.Alike g.error

/-- The requirements are the same but for identities. -/
def Requirements.Alike (r r' : Requirements) : Prop := r.mapTypes Ty.erase = r'.mapTypes Ty.erase

/-- The declarations are the same but for identities. -/
def Bindings.Alike (b b' : Bindings) : Prop := b.mapTypes Ty.erase = b'.mapTypes Ty.erase

/-- The outcomes are the same but for identities. -/
structure Discharge.Alike (d d' : Discharge) : Prop where
  /-- What the uses imply. -/
  substitution : d.substitution.alike d'.substitution = true
  /-- What is not declared. -/
  remaining : d.remaining.Alike d'.remaining
  /-- What does not fit. -/
  failures : List.Forall₂ Failure.Alike d.failures d'.failures

/-! ## Uses -/

theorem Use.alike_of_mapTypes {u v : Use} (h : u.mapTypes Ty.erase = v.mapTypes Ty.erase) :
    u.Alike v := by
  rw [mapTypes, mapTypes, mk.injEq] at h
  exact ⟨h.1, (Ty.alike_iff_erase_eq _ _).2 h.2.1, (Ty.alike_iff_erase_eq _ _).2 h.2.2⟩

namespace Requirements

variable {r r' : Requirements} {b b' : Bindings}

theorem Alike.declaredUses (hr : r.Alike r') (hb : b.Alike b') :
    List.Forall₂ Use.Alike (r.declaredUses b) (r'.declaredUses b') := by
  have heq : (r.declaredUses b).map (Use.mapTypes Ty.erase)
      = (r'.declaredUses b').map (Use.mapTypes Ty.erase) := by
    rw [← declaredUses_mapTypes, hr, hb, declaredUses_mapTypes]
  rw [← List.forall₂_eq_eq_eq, List.forall₂_map_left_iff, List.forall₂_map_right_iff] at heq
  exact heq.imp fun _ _ => Use.alike_of_mapTypes

theorem Alike.undeclared (hr : r.Alike r') (hb : b.Alike b') :
    (r.undeclared b).Alike (r'.undeclared b') := by
  rw [Alike, ← undeclared_mapTypes, hr, hb, undeclared_mapTypes]

end Requirements

/-! ## Side by side -/

/-- Linking uses that are alike, on stores that are alike and from one source, leads to stores and
failures that are alike and to one source, or ends on neither side. -/
theorem linkUses_alike {uses uses' : List Use} {s s' : Substitution}
    (huses : List.Forall₂ Use.Alike uses uses') (h : s.erase = s'.erase) (ids : IdSource) :
    Option.Rel
      (fun x y => x.1.alike y.1 = true ∧ List.Forall₂ Failure.Alike x.2.1 y.2.1 ∧ x.2.2 = y.2.2)
      (linkUses uses s ids) (linkUses uses' s' ids) := by
  induction huses generalizing s s' ids with
  | nil => exact .some ⟨(Substitution.alike_iff_erase_eq s s').2 h, .nil, rfl⟩
  | @cons u u' uses uses' hu _ ih =>
    have hdeclared := (Ty.alike_iff_erase_eq _ _).1 hu.declared
    have hdrawn : u.declared.quantified = u'.declared.quantified := by
      rw [← Ty.quantified_erase, hdeclared, Ty.quantified_erase]
    rw [linkUses, linkUses, Ty.instantiate_run, Ty.instantiate_run, hdrawn]
    generalize u'.declared.quantified.length = n
    have hunify := Substitution.unify?_alike h ((Ty.alike_iff_erase_eq _ _).1 hu.required)
      (Ty.erase_renew_congr hdeclared (ids.taken n))
    dsimp only
    -- the attempts are on both sides or on neither, and so are their stores
    generalize s.unify? u.required _ = attempt at hunify ⊢
    generalize s'.unify? u'.required _ = attempt' at hunify ⊢
    cases hunify with
    | none => exact .none
    | @some a a' ha =>
      obtain ⟨steps, result⟩ := a
      obtain ⟨steps', result'⟩ := a'
      cases ha.result with
      | ok hs => exact ih ((Substitution.alike_iff_erase_eq _ _).1 hs) _
      | error he =>
        have hrest := ih h (ids.advance n)
        dsimp only [Option.bind_eq_bind, Option.bind_some]
        generalize linkUses uses s _ = rest at hrest ⊢
        generalize linkUses uses' s' _ = rest' at hrest ⊢
        cases hrest with
        | none => exact .none
        | some hrest => exact .some ⟨hrest.1, .cons ⟨hu, he⟩ hrest.2.1, hrest.2.2⟩

namespace Requirements

variable {r r' : Requirements} {b b' : Bindings} {s s' : Substitution}

/-- Discharging requirements that are alike against declarations that are alike, on stores that are
alike and from one source, has outcomes that are alike and leads to one source, or ends on neither
side. -/
theorem discharge?_alike (hr : r.Alike r') (hb : b.Alike b') (h : s.erase = s'.erase)
    (ids : IdSource) :
    Option.Rel (fun x y => x.1.Alike y.1 ∧ x.2 = y.2) (r.discharge? b s ids)
      (r'.discharge? b' s' ids) := by
  have hlink := linkUses_alike (hr.declaredUses hb) h ids
  rw [discharge?, discharge?]
  generalize linkUses (r.declaredUses b) s ids = x at hlink ⊢
  generalize linkUses (r'.declaredUses b') s' ids = y at hlink ⊢
  cases hlink with
  | none => exact .none
  | some hlink => exact .some ⟨⟨hlink.1, hr.undeclared hb, hlink.2.1⟩, hlink.2.2⟩

end Requirements

namespace Substitution

/-- Identities play no part in what comes of types. On stores that are alike, unifying types that
are alike takes steps that are alike and ends in stores or in errors that are alike, and such types
resolve to types that are alike, always so if the stores are acyclic. Discharging requirements that
are alike against declarations that are alike, from one source, has outcomes that are alike. What
does not end on one side does not end on the other. -/
theorem identities_irrelevant {s s' : Substitution} {l l' r r' : Ty} {uses uses' : Requirements}
    {b b' : Bindings} (hs : s.alike s' = true) (hl : l.alike l' = true) (hr : r.alike r' = true)
    (huses : uses.Alike uses') (hb : b.Alike b') (ids : IdSource) :
    Option.Rel Attempt.Alike (s.unify? l r) (s'.unify? l' r') ∧
    Option.Rel (fun t t' => t.alike t' = true) (s.resolve? l) (s'.resolve? l') ∧
    (s.Acyclic → (s.resolve? l).isSome = true ∧ (s'.resolve? l').isSome = true) ∧
    Option.Rel (fun x y => x.1.Alike y.1 ∧ x.2 = y.2) (uses.discharge? b s ids)
      (uses'.discharge? b' s' ids) := by
  rw [alike_iff_erase_eq] at hs
  rw [Ty.alike_iff_erase_eq] at hl hr
  refine ⟨unify?_alike hs hl hr, resolve?_alike hs hl, fun hacyclic => ?_,
    Requirements.discharge?_alike huses hb hs ids⟩
  obtain ⟨t', ht', -⟩ := exists_resolve?_alike hs hl (hacyclic.resolve?_eq l)
  rw [hacyclic.resolve?_eq, ht']
  exact ⟨rfl, rfl⟩

/-- On both sides `0` is a function into `i32` and `2` stands for `3`, and an identifier is declared
as a function into `string` and used at two types, of which one does not fit. No node has the same
identity on both sides. -/
theorem identities_irrelevant_other_nodes : ∃ (s s' : Substitution) (uses uses' : Requirements)
    (b b' : Bindings) (a a' : Attempt) (t t' : Ty) (d d' : Discharge) (ids : IdSource),
    s.get? 0 = some (.bound (.arrow 10 (.flexible 1) (.primitive 11 .i32))) ∧
    s'.get? 0 = some (.bound (.arrow 40 (.flexible 1) (.primitive 41 .i32))) ∧
    s.get? 2 = some (.redirect 3) ∧ s'.get? 2 = some (.redirect 3) ∧
    uses.get (.name "f") = [.arrow 12 (.flexible 4) (.flexible 2), .flexible 0] ∧
    uses'.get (.name "f") = [.arrow 42 (.flexible 4) (.flexible 2), .flexible 0] ∧
    b.get? (.name "f")
      = some (.scheme 13 [.flexible 5] (.arrow 14 (.flexible 5) (.primitive 15 .string))) ∧
    b'.get? (.name "f")
      = some (.scheme 43 [.flexible 5] (.arrow 44 (.flexible 5) (.primitive 45 .string))) ∧
    s.unify? (.product 16 [.flexible 0, .flexible 2])
      (.product 17 [.arrow 18 (.primitive 19 .string) (.flexible 4), .primitive 20 .i32])
      = some a ∧
    s'.unify? (.product 46 [.flexible 0, .flexible 2])
      (.product 47 [.arrow 48 (.primitive 49 .string) (.flexible 4), .primitive 50 .i32])
      = some a' ∧
    a.Alike a' ∧
    s.resolve? (.product 16 [.flexible 0, .flexible 2]) = some t ∧
    s'.resolve? (.product 46 [.flexible 0, .flexible 2]) = some t' ∧ t.alike t' = true ∧
    uses.discharge? b s (.pinnedAt 60) = some (d, ids) ∧
    uses'.discharge? b' s' (.pinnedAt 60) = some (d', ids) ∧ d.Alike d' ∧
    d.failures.length = 1 := by
  let storeAt (i : NodeId) :=
    (Substitution.empty.assign 0 (.arrow i (.flexible 1) (.primitive (i + 1) .i32))).assign 2
      (.flexible 3)
  let usesAt (i : NodeId) :=
    (Requirements.empty.add (.name "f") (.arrow i (.flexible 4) (.flexible 2))).add (.name "f")
      (.flexible 0)
  let declaredAt (i : NodeId) := Bindings.single (.name "f")
    (.scheme i [.flexible 5] (.arrow (i + 1) (.flexible 5) (.primitive (i + 2) .string)))
  let leftAt (i : NodeId) : Ty := .product i [.flexible 0, .flexible 2]
  let rightAt (i : NodeId) : Ty :=
    .product i [.arrow (i + 1) (.primitive (i + 2) .string) (.flexible 4), .primitive (i + 3) .i32]
  have hacyclic : (storeAt 10).Acyclic :=
    acyclic_of_measure (fun v => if v = 0 ∨ v = 2 then 1 else 0) (by decide)
  obtain ⟨hunify, hresolve, hresolved, hdischarge⟩ := @identities_irrelevant (storeAt 10)
    (storeAt 40) (leftAt 16) (leftAt 46) (rightAt 17) (rightAt 47) (usesAt 12) (usesAt 42)
    (declaredAt 13) (declaredAt 43) rfl rfl rfl rfl rfl (.pinnedAt 60)
  obtain ⟨a, a', ha, ha'⟩ : ∃ a a', (storeAt 10).unify? (leftAt 16) (rightAt 17) = some a ∧
      (storeAt 40).unify? (leftAt 46) (rightAt 47) = some a' := ⟨_, _, rfl, rfl⟩
  obtain ⟨t, ht⟩ := Option.isSome_iff_exists.1 (hresolved hacyclic).1
  obtain ⟨t', ht'⟩ := Option.isSome_iff_exists.1 (hresolved hacyclic).2
  obtain ⟨d, d', ids, hd, hd', hfailures⟩ : ∃ d d' ids,
      (usesAt 12).discharge? (declaredAt 13) (storeAt 10) (.pinnedAt 60) = some (d, ids) ∧
      (usesAt 42).discharge? (declaredAt 43) (storeAt 40) (.pinnedAt 60) = some (d', ids) ∧
      d.failures.length = 1 := ⟨_, _, _, rfl, rfl, rfl⟩
  rw [ha, ha'] at hunify
  rw [ht, ht'] at hresolve
  rw [hd, hd'] at hdischarge
  cases hunify with | some hunify
  cases hresolve with | some hresolve
  cases hdischarge with | some hdischarge
  exact ⟨storeAt 10, storeAt 40, usesAt 12, usesAt 42, declaredAt 13, declaredAt 43, a, a', t, t',
    d, d', ids, rfl, rfl, rfl, rfl, rfl, rfl, rfl, rfl, ha, ha', hunify, ht, ht', hresolve, hd,
    hd', hdischarge.1, hfailures⟩

end Substitution

end CoContextual
