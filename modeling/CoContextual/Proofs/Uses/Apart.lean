import CoContextual.Proofs.Expression.Ledger
import CoContextual.Proofs.Substitution.Records
import CoContextual.Proofs.Substitution.Visited

/-!
# Uses that stay apart

A call or an annotation replaces variables in the uses of its parts, and keeps one record for each
identity that takes the place of a variable. A search for the new type of a use comes back to the
use through its record, unless something else in the node goes by the same identity, or another
variable takes on the same identity and its record is the one that is kept.

- `Crossing.KeepsApart`: when types and identities tell a use apart from all else in a node;
- `Derivation.goesBy`: the identities that something in an expression goes by. Under any other
  identity nothing is found (`Derivation.spansFor?_of_not_goesBy`);
- `Substitution.Acyclic.get?_ofResolved`: the record of a variable that alone takes on an identity
  is kept. So it is in calls and declarations (`Derivation.get?_origins_of_fitting?_of_only`,
  `Declaration.get?_origins_of_fitting_of_only`).
-/

namespace CoContextual

/-! ## Nodes that change types -/

/-- A node with a store, as the uses in its parts meet it. -/
structure Crossing where
  /-- The identities that the node takes to itself. -/
  owns : NodeId → Bool
  /-- The identities that its parts go by. -/
  known : List NodeId
  /-- The store. -/
  store : Substitution
  /-- The types that the store is applied to. -/
  resolves : Ty → Prop

namespace Crossing

/-- Resolving comes to the variable `v`, and puts a type with the identity `id` in its place. -/
structure Replaces (c : Crossing) (v id : NodeId) : Prop where
  /-- The variable is met. -/
  visits : ∃ t, c.resolves t ∧ c.store.Visits t v
  /-- It does not stay. -/
  image_ne : c.store.image v ≠ .flexible v
  /-- What takes its place. -/
  id_eq : (c.store.image v).id = id

/-- A use of type `before`, which has the type `after` above the node, can be told by its identity
there. Either the identity is the old one, or no part goes by it, and of all variables only the one
that was the type of the use has taken it on. -/
def KeepsApart (c : Crossing) (before after : Ty) : Prop :=
  c.owns after.id = false ∧ (after.id = before.id ∨
    ∃ v, before = .flexible v ∧ c.owns v = false ∧ after.id ∉ c.known ∧
      ∀ w, c.Replaces w after.id → w = v)

end Crossing

namespace Derivation

mutual

/-- The identities that something in an expression goes by: those of leaves, those that operators
and calls take to themselves, and those that calls have put in the place of variables. -/
def goesBy : Derivation → List NodeId
  | atom type _ _ => [type.id]
  | grouping inner => goesByIn inner
  | unary operation operand =>
    operation.type.id :: operation.operatorType.id :: goesByIn operand
  | binary operation lhs rhs =>
    operation.type.id :: operation.operatorType.id :: (goesByIn lhs ++ goesByIn rhs)
  | call site callee arguments =>
    site.type.id :: site.functionType.id ::
      (site.origins.keys ++ (goesByIn callee ++ goesByInAll arguments))
  | missing _ => []

/-- The identities that something in a part goes by. -/
def goesByIn : Placed Derivation → List NodeId
  | ⟨_, part⟩ => goesBy part

/-- The identities that something in one of several parts goes by. -/
def goesByInAll : List (Placed Derivation) → List NodeId
  | [] => []
  | part :: parts => goesByIn part ++ goesByInAll parts

end

theorem goesByIn_eq (part : Placed Derivation) : goesByIn part = part.item.goesBy := by
  rw [goesByIn]

theorem mem_goesByInAll {parts : List (Placed Derivation)} {part : Placed Derivation}
    (hpart : part ∈ parts) {id : NodeId} (hid : id ∈ goesByIn part) : id ∈ goesByInAll parts := by
  induction parts with
  | nil => cases hpart
  | cons p parts ih =>
    rw [goesByInAll, List.mem_append]
    rcases List.mem_cons.1 hpart with rfl | hpart
    · exact .inl hid
    · exact .inr (ih hpart)

end Derivation

/-- A call, as the uses in its callee and its arguments meet it. Beside the uses it resolves the
types of its arguments and its own, which is what became of the variable drawn for its result. -/
def CallSite.crossing (site : CallSite) (callee : Placed Derivation)
    (arguments : List (Placed Derivation)) : Crossing where
  owns := site.owns
  known := Derivation.goesByIn callee ++ Derivation.goesByInAll arguments
  store := site.substitution
  resolves t :=
    (∃ p ∈ callee :: arguments, ∃ token, t ∈ p.item.requirements.get token) ∨
    (∃ a ∈ arguments, t = a.item.type) ∨
    ∃ v, t = .flexible v ∧ site.substitution.image v = site.type

/-- A declaration, as the uses in its value meet it. Its annotation goes by its own identity. -/
def Declaration.crossing (declaration : Declaration) (value : Placed Derivation) : Crossing where
  owns _ := false
  known := (declaration.ascription.map fun a => a.item.id).toList ++ Derivation.goesByIn value
  store := declaration.substitution
  resolves t := (∃ token, t ∈ value.item.requirements.get token) ∨
    ∃ a, declaration.ascription = some a ∧ t = a.item

/-! ## Where nothing is found -/

theorem Table.get?_eq_none_of_not_mem_keys {κ υ : Type} [Ord κ] [Std.TransOrd κ]
    [Std.LawfulEqOrd κ] {t : Table κ υ} {k : κ} (h : k ∉ t.keys) : t.get? k = none := by
  cases hget : t.get? k with
  | none => rfl
  | some v => exact absurd (List.mem_map_of_mem (Table.mem_toList_iff.2 hget)) h

/-- It is enough to look at the variables that have an entry, since the others stay. -/
theorem Crossing.KeepsApart.of_entries {c : Crossing} {v : NodeId} {after : Ty}
    (hs : c.store.Acyclic) (hown : c.owns after.id = false) (hownv : c.owns v = false)
    (hknown : after.id ∉ c.known)
    (honly : ∀ w ∈ c.store.entries.keys, (c.store.image w).id = after.id → w = v) :
    c.KeepsApart (.flexible v) after := by
  refine ⟨hown, .inr ⟨v, rfl, hownv, hknown, fun w hw => honly w ?_ hw.id_eq⟩⟩
  by_contra hkey
  exact hw.image_ne (hs.image_of_none (Table.get?_eq_none_of_not_mem_keys hkey))

namespace Derivation

variable {d : Derivation} {id : NodeId}

/-- Under an identity that nothing in the expression goes by nothing is found. -/
theorem spansFor?_of_not_goesBy (hid : id ∉ d.goesBy) : d.spansFor? id = some [] := by
  induction d using ind with
  | atom type requirements span =>
    rw [goesBy, List.mem_singleton] at hid
    rw [spansFor?, if_neg (Ne.symm hid)]
  | grouping inner ih =>
    rw [goesBy, goesByIn_eq] at hid
    rw [spansFor?]
    exact spansIn?_of_nil _ (ih hid)
  | unary operation operand ih =>
    rw [goesBy, goesByIn_eq, List.mem_cons, List.mem_cons, not_or, not_or] at hid
    obtain ⟨htype, hoperator, hid⟩ := hid
    rw [spansFor?, if_neg (by simp [Operation.owns, Ne.symm htype, Ne.symm hoperator])]
    exact spansIn?_of_nil _ (ih hid)
  | binary operation lhs rhs ih ih' =>
    rw [goesBy, goesByIn_eq, goesByIn_eq, List.mem_cons, List.mem_cons, not_or, not_or,
      List.mem_append, not_or] at hid
    obtain ⟨htype, hoperator, hleft, hright⟩ := hid
    rw [spansFor?, if_neg (by simp [Operation.owns, Ne.symm htype, Ne.symm hoperator]),
      spansIn?_of_nil _ (ih hleft), spansIn?_of_nil _ (ih' hright)]
    rfl
  | call site callee arguments ih ihs =>
    rw [goesBy, goesByIn_eq, List.mem_cons, List.mem_cons, not_or, not_or, List.mem_append,
      not_or, List.mem_append, not_or] at hid
    obtain ⟨htype, hfunction, hkeys, hcallee, harguments⟩ := hid
    have hown : site.owns id = false := by
      simp [CallSite.owns, Ne.symm htype, Ne.symm hfunction]
    have hnone : ∀ a ∈ arguments, id ∉ a.item.goesBy := fun a ha hid =>
      harguments (mem_goesByInAll ha (goesByIn_eq a ▸ hid))
    rw [spansFor?_call_of_not_owned hown (Table.get?_eq_none_of_not_mem_keys hkeys), both,
      spansIn?_of_nil _ (ih hcallee),
      spansInAll?_of_nil fun a ha => spansIn?_of_nil _ (ihs a ha (hnone a ha))]
    rfl
  | missing type => rw [spansFor?]

theorem spansIn?_of_not_goesBy {part : Placed Derivation} (hid : id ∉ goesByIn part) :
    spansIn? part id = some [] :=
  spansIn?_of_nil _ (spansFor?_of_not_goesBy (goesByIn_eq part ▸ hid))

theorem spansInAll?_of_not_goesBy {parts : List (Placed Derivation)}
    (hid : id ∉ goesByInAll parts) : spansInAll? parts id = some [] :=
  spansInAll?_of_nil fun _ ha => spansIn?_of_not_goesBy fun h => hid (mem_goesByInAll ha h)

end Derivation

/-! ## Which record is kept -/

/-- If all entries of a list under one key have the same value, the table has it. -/
theorem Table.get?_ofList_of_forall {κ υ : Type} [Ord κ] [Std.TransOrd κ] [Std.LawfulEqOrd κ]
    [DecidableEq κ] {l : List (κ × υ)} {k : κ} {v : υ} (hmem : (k, v) ∈ l)
    (h : ∀ v', (k, v') ∈ l → v' = v) : (ofList l).get? k = some v := by
  obtain ⟨v', hv'⟩ := Option.isSome_iff_exists.1
    (get?_ofList_isSome (List.mem_map_of_mem (f := Prod.fst) hmem))
  rw [hv', h v' (mem_of_get?_ofList hv')]

/-- If of all variables that resolving comes to only `v` takes on the identity of what is put in its
place, the record under this identity is the one for `v`. -/
theorem Substitution.Acyclic.get?_ofResolved {s : Substitution} (hs : s.Acyclic)
    {visited : NodeId → Prop} {rs : List Resolved}
    (hrs : ∀ r ∈ rs, ∃ t, s.applyTo? t = some r ∧ ∀ w, s.Visits t w → visited w) {v : NodeId}
    (hv : ∃ r ∈ rs, s.applyTo? (.flexible v) = some r) (hne : s.image v ≠ .flexible v)
    (honly : ∀ w, visited w → s.image w ≠ .flexible w → (s.image w).id = (s.image v).id → w = v) :
    (Origins.ofResolved rs).get? (s.image v).id = some (.flexible v) := by
  refine Table.get?_ofList_of_forall ?_ fun t ht => ?_
  · obtain ⟨r, hr, hrv⟩ := hv
    have hvisits : s.Visits (.flexible v) v := ⟨v, by simp, .refl⟩
    exact List.mem_flatMap.2 ⟨r, hr, (hs.mem_origins_iff hrv).2 ⟨v, hvisits, hne, rfl⟩⟩
  -- any other record under the identity would be for another variable that took it on
  · obtain ⟨r, hr, hp⟩ := List.mem_flatMap.1 ht
    obtain ⟨t', ht', hvisited⟩ := hrs r hr
    obtain ⟨w, hw, hchanged, hp⟩ := (hs.mem_origins_iff ht').1 hp
    obtain ⟨hid, rfl⟩ := Prod.mk.inj hp
    rw [honly w (hvisited w hw) hchanged hid.symm]

/-! ## Records of calls and declarations -/

namespace Derivation

variable {callee : Placed Derivation} {arguments : List (Placed Derivation)}

theorem exists_of_mem_inheritedRequirements {token : Ident} {t : Ty}
    (h : t ∈ (inheritedRequirements callee arguments).get token) :
    ∃ p ∈ callee :: arguments, t ∈ p.item.requirements.get token := by
  rw [get_inheritedRequirements, List.mem_append, List.mem_flatMap] at h
  rcases h with h | ⟨a, ha, h⟩
  · exact ⟨callee, .head _, h⟩
  · exact ⟨a, .tail _ ha, h⟩

/-- Resolving in a call that fits comes only to variables of the types that the call resolves. -/
theorem visits_of_fitting? {site : CallSite} {s : Substitution} {result arrow : NodeId}
    {domain : Ty} {extra : List NodeId}
    (hdomain : Ty.IsArguments (arguments.map fun a => a.item.type) domain extra)
    (htype : s.image result = site.type) (hstore : site.substitution = s) {w : NodeId}
    (hw : s.Visits (.arrow arrow domain (.flexible result)) w) :
    ∃ t, (site.crossing callee arguments).resolves t ∧ s.Visits t w := by
  obtain ⟨v, hv, hvw⟩ := hw
  rw [Ty.mentions_arrow, List.mem_append] at hv
  rcases hv with hv | hv
  · obtain ⟨t, ht, hv⟩ := hdomain.exists_of_mem_mentions hv
    obtain ⟨a, ha, rfl⟩ := List.mem_map.1 ht
    exact ⟨_, .inr (.inl ⟨a, ha, rfl⟩), v, hv, hvw⟩
  · exact ⟨.flexible result, .inr (.inr ⟨result, rfl, hstore ▸ htype⟩), v, hv, hvw⟩

/-- Where a call fits, a variable in a use has its record kept if it alone takes on an identity. -/
theorem get?_origins_of_fitting?_of_only {site : CallSite} {s : Substitution}
    {result arrow v : NodeId} {domain : Ty} {extra : List NodeId} {token : Ident}
    (hdomain : Ty.IsArguments (arguments.map fun a => a.item.type) domain extra)
    (hsite : CallSite.fitting? (inheritedRequirements callee arguments) (.flexible result)
      (.arrow arrow domain (.flexible result)) s = some site) (hs : site.substitution.Acyclic)
    (hv : .flexible v ∈ (inheritedRequirements callee arguments).get token)
    (hne : site.substitution.image v ≠ .flexible v)
    (honly : ∀ w, (site.crossing callee arguments).Replaces w (site.substitution.image v).id →
      w = v) :
    site.origins.get? (site.substitution.image v).id = some (.flexible v) := by
  obtain ⟨⟨requirements, replaced⟩, hreplaced, hsite⟩ := Option.bind_eq_some_iff.1 hsite
  obtain ⟨type, htype, hsite⟩ := Option.bind_eq_some_iff.1 hsite
  obtain ⟨functionType, hfunction, hsite⟩ := Option.bind_eq_some_iff.1 hsite
  obtain rfl := Option.some.inj hsite
  have hs : s.Acyclic := hs
  have hresult : s.image result = type.type := by
    rw [Substitution.image, Substitution.resolve?, htype]
    rfl
  refine hs.get?_ofResolved (fun r hr => ?_) ?_ hne fun w hw hchanged hid =>
    honly w ⟨hw, hchanged, hid⟩
  · rcases List.mem_append.1 hr with hr | hr
    · obtain ⟨token', t, ht, htr⟩ := Requirements.exists_of_mem_replaced hreplaced hr
      obtain ⟨p, hp, ht⟩ := exists_of_mem_inheritedRequirements ht
      exact ⟨t, htr, fun w hw => ⟨t, .inl ⟨p, hp, token', ht⟩, hw⟩⟩
    rcases List.mem_pair.1 hr with rfl | rfl
    · exact ⟨_, htype, fun w hw => ⟨_, .inr (.inr ⟨result, rfl, hresult⟩), hw⟩⟩
    · exact ⟨_, hfunction, fun w hw => visits_of_fitting? hdomain hresult rfl hw⟩
  · obtain ⟨r, hr, hrv⟩ := Requirements.exists_mem_replaced hreplaced hv
    exact ⟨r, List.mem_append_left _ hr, hrv⟩

end Derivation

namespace Declaration

/-- So it is where an annotation fits. -/
theorem get?_origins_of_fitting_of_only {name : Ident} {ascription : Located Ty}
    {value : Placed Derivation} {s : Substitution} {declaration : Declaration}
    {ids ids' : IdSource} {token : Ident} {v : NodeId}
    (h : fitting name ascription value.item s ids = .ok (declaration, ids'))
    (hs : declaration.substitution.Acyclic)
    (hv : .flexible v ∈ value.item.requirements.get token)
    (hne : declaration.substitution.image v ≠ .flexible v)
    (honly : ∀ w, (declaration.crossing value).Replaces w (declaration.substitution.image v).id →
      w = v) :
    declaration.origins.get? (declaration.substitution.image v).id = some (.flexible v) := by
  obtain ⟨declared, ids₁, hunless, hsettle⟩ := bind_eq_ok.1 h
  obtain ⟨⟨requirements, replaced⟩, ids₂, hunless', hquantify⟩ := bind_eq_ok.1 hsettle
  obtain ⟨binding, ids₃, -, hret⟩ := bind_eq_ok.1 hquantify
  obtain ⟨hdeclared, -⟩ := Inference.unlessSome_eq_ok hunless
  obtain ⟨hreplaced, -⟩ := Inference.unlessSome_eq_ok hunless'
  obtain ⟨rfl, -⟩ := Prod.mk.inj (Except.ok.inj hret)
  have hs : s.Acyclic := hs
  refine hs.get?_ofResolved (fun r hr => ?_) ?_ hne fun w hw hchanged hid =>
    honly w ⟨hw, hchanged, hid⟩
  · rcases List.mem_cons.1 hr with rfl | hr
    · exact ⟨_, hdeclared, fun w hw => ⟨_, .inr ⟨ascription, rfl, rfl⟩, hw⟩⟩
    · obtain ⟨token', t, ht, htr⟩ := Requirements.exists_of_mem_replaced hreplaced hr
      exact ⟨t, htr, fun w hw => ⟨t, .inl ⟨token', ht⟩, hw⟩⟩
  · obtain ⟨r, hr, hrv⟩ := Requirements.exists_mem_replaced hreplaced hv
    exact ⟨r, .tail _ hr, hrv⟩

end Declaration

end CoContextual
