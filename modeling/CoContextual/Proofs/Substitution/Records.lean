import CoContextual.Proofs.Optional
import CoContextual.Proofs.Substitution.Origins
import CoContextual.Proofs.Unify.Course
import CoContextual.Requirements

/-!
# Identities of records

A record of a replacement is kept under the identity of what took the place of a variable. That is
the identity of a node of some type that the store was made from, or of a variable in it that is
left unbound.

- `Ty.identities`: the identities of all nodes of a type, quantified variables included;
- `Ty.Within`: a type whose nodes are known, save that a variable may also be one that the store
  knows about;
- `Resolved.Known`: a replacement with known nodes only, and with records under known identities;
- `Substitution.known_of_applyTo?`: replacing in such types gives such replacements.
-/

namespace CoContextual

namespace Ty

/-! ## Identities -/

mutual

/-- The identities of all nodes but variables, and what `f` gives for each variable, be it a node or
quantified. -/
def collect (f : TyVar → List NodeId) : Ty → List NodeId
  | primitive id _ => [id]
  | arrow id d c => id :: (collect f d ++ collect f c)
  | product id cs => id :: collectAll f cs
  | var v => f v
  | scheme id bound body => id :: (bound.flatMap f ++ collect f body)
  | invalid id => [id]

/-- The same for several types, one type after the other. -/
def collectAll (f : TyVar → List NodeId) : List Ty → List NodeId
  | [] => []
  | t :: ts => collect f t ++ collectAll f ts

end

/-- The identities of all nodes and of all quantified variables. -/
def identities (t : Ty) : List NodeId := t.collect fun v => [v.id]

/-- The identities that stay when flexible variables are replaced. -/
def solids (t : Ty) : List NodeId := t.collect fun v => if v.isRigid then [v.id] else []

section

variable {f g : TyVar → List NodeId} {id : NodeId} {t : Ty}

theorem mem_collectAll {ts : List Ty} : id ∈ collectAll f ts ↔ ∃ t ∈ ts, id ∈ t.collect f := by
  induction ts with
  | nil => simp [collectAll]
  | cons t ts ih => simp [collectAll, ih]

theorem mem_collect_mono (hfg : ∀ v, f v ⊆ g v) (h : id ∈ t.collect f) : id ∈ t.collect g := by
  induction t using ind with
  | primitive i kind => exact h
  | arrow i d c ihd ihc =>
    simp only [collect, List.mem_cons, List.mem_append] at h ⊢
    exact h.imp_right fun h => h.imp ihd ihc
  | product i cs ih =>
    simp only [collect, List.mem_cons, mem_collectAll] at h ⊢
    exact h.imp_right fun ⟨c, hc, hid⟩ => ⟨c, hc, ih c hc hid⟩
  | var v => exact hfg v h
  | scheme i bound body ih =>
    simp only [collect, List.mem_cons, List.mem_append, List.mem_flatMap] at h ⊢
    exact h.imp_right fun h => h.imp (fun ⟨v, hv, hid⟩ => ⟨v, hv, hfg v hid⟩) ih
  | invalid i => exact h

theorem mem_identities_of_mem_solids (h : id ∈ t.solids) : id ∈ t.identities :=
  mem_collect_mono (fun v => by split <;> simp) h

theorem mem_identities_of_mem_mentions (h : id ∈ t.mentions) : id ∈ t.identities := by
  rw [identities]
  induction t using ind with
  | primitive i kind => cases h
  | arrow i d c ihd ihc =>
    rw [mentions_arrow, List.mem_append] at h
    simp only [collect, List.mem_cons, List.mem_append]
    exact .inr (h.imp ihd ihc)
  | product i cs ih =>
    rw [mem_mentions_product] at h
    simp only [collect, List.mem_cons, mem_collectAll]
    exact .inr (h.imp fun c ⟨hc, hid⟩ => ⟨hc, ih c hc hid⟩)
  | var v =>
    cases v with
    | flexible v => exact h
    | rigid v => cases h
  | scheme i bound body ih =>
    rw [mentions_scheme, List.mem_append, List.mem_filterMap] at h
    simp only [collect, List.mem_cons, List.mem_append, List.mem_flatMap]
    refine .inr (h.imp (fun ⟨v, hv, hid⟩ => ⟨v, hv, ?_⟩) ih)
    cases v with
    | flexible v =>
      cases hid
      exact .inl rfl
    | rigid v => cases hid
  | invalid i => cases h

theorem id_mem_identities (t : Ty) : t.id ∈ t.identities := by cases t <;> exact .head _

end

/-- The nodes of the type are known, but its flexible variables are of a kind of their own. -/
@[mk_iff]
structure Within (K F : NodeId → Prop) (t : Ty) : Prop where
  /-- Everything but flexible variables. -/
  solids : ∀ id ∈ t.solids, K id
  /-- The flexible variables, those in quantifier lists included. -/
  mentions : ∀ v ∈ t.mentions, F v

section

variable {K F : NodeId → Prop} {id : NodeId} {t : Ty}

theorem Within.of_identities (h : ∀ id ∈ t.identities, K id) (hKF : ∀ id, K id → F id) :
    t.Within K F :=
  ⟨fun id hid => h id (mem_identities_of_mem_solids hid),
    fun v hv => hKF v (h v (mem_identities_of_mem_mentions hv))⟩

theorem within_primitive {kind : Primitive} : (primitive id kind).Within K F ↔ K id := by
  simp [within_iff, solids, collect, mentions]

theorem within_flexible {v : NodeId} : (flexible v).Within K F ↔ F v := by
  simp [within_iff, solids, collect, TyVar.isRigid]

theorem within_rigid {v : NodeId} : (var (.rigid v)).Within K F ↔ K v := by
  simp [within_iff, solids, collect, TyVar.isRigid, TyVar.id]

theorem within_arrow {d c : Ty} :
    (arrow id d c).Within K F ↔ K id ∧ d.Within K F ∧ c.Within K F := by
  simp only [within_iff, solids, collect, mentions_arrow, List.forall_mem_cons,
    List.forall_mem_append]
  tauto

theorem within_product {cs : List Ty} :
    (product id cs).Within K F ↔ K id ∧ ∀ c ∈ cs, c.Within K F := by
  simp only [within_iff, solids, collect, mem_mentions_product, List.forall_mem_cons,
    mem_collectAll]
  grind

theorem within_scheme {bound : List TyVar} {body : Ty} :
    (scheme id bound body).Within K F ↔
      K id ∧ (∀ v ∈ bound, (var v).Within K F) ∧ body.Within K F := by
  have hbound : (∀ v ∈ bound, (var v).Within K F) ↔
      (∀ i ∈ bound.flatMap fun v => if v.isRigid then [v.id] else [], K i) ∧
        ∀ v ∈ bound.filterMap TyVar.flexibleId?, F v := by
    simp only [List.mem_flatMap, List.mem_filterMap]
    constructor
    · intro h
      exact ⟨fun i ⟨v, hv, hi⟩ => (h v hv).solids i hi, fun w ⟨v, hv, hw⟩ =>
        (h v hv).mentions w (by simp [mentions, hw])⟩
    · rintro ⟨hsolid, hflexible⟩ v hv
      refine ⟨fun i hi => hsolid i ⟨v, hv, hi⟩, fun w hw => hflexible w ⟨v, hv, ?_⟩⟩
      simpa [mentions] using hw
  rw [hbound, within_iff, within_iff, solids, collect, mentions_scheme, List.forall_mem_cons,
    List.forall_mem_append, List.forall_mem_append]
  tauto

/-- Unification takes such types apart into such types. -/
theorem partClosed_within (K F : NodeId → Prop) : PartClosed (Within K F) := by
  intro t ht c hc
  cases t with
  | arrow id d e =>
    obtain ⟨-, hd, he⟩ := within_arrow.1 ht
    rcases List.mem_pair.1 hc with rfl | rfl
    · exact hd
    · exact he
  | product id cs => exact (within_product.1 ht).2 c hc
  | _ => cases hc

end

end Ty

/-! ## Replacements -/

namespace Requirements

variable {s : Substitution} {q q' : Requirements} {replaced : List Resolved}

/-- Whatever is replaced in a list of uses is one of the uses. -/
theorem exists_of_mem_replaced (h : q.substitute? s = some (q', replaced)) {r : Resolved}
    (hr : r ∈ replaced) : ∃ token, ∃ t ∈ q.get token, s.applyTo? t = some r := by
  obtain ⟨resolved, htraverse, h⟩ := Option.map_eq_some_iff.1 h
  cases h
  obtain ⟨rs, hrs, hr⟩ := List.mem_flatten.1 hr
  obtain ⟨e', he', rfl⟩ := List.mem_map.1 hrs
  obtain ⟨e, he, hentry⟩ := exists_of_mem_mapM (Table.traverse_eq_some_iff.1 htraverse) he'
  obtain ⟨rs, happlied, rfl⟩ := Option.map_eq_some_iff.1 hentry
  rw [Substitution.applyToAll?, Ty.applyAllWith_eq_mapM] at happlied
  obtain ⟨t, ht, htr⟩ := exists_of_mem_mapM happlied hr
  refine ⟨e.1, t, ?_, htr⟩
  rw [get, Table.mem_toList_iff.1 he]
  exact ht

/-- Every use is replaced. -/
theorem exists_mem_replaced (h : q.substitute? s = some (q', replaced)) {token : Ident} {t : Ty}
    (ht : t ∈ q.get token) : ∃ r ∈ replaced, s.applyTo? t = some r := by
  obtain ⟨resolved, htraverse, h⟩ := Option.map_eq_some_iff.1 h
  cases h
  cases huses : q.uses.get? token with
  | none =>
    rw [get, huses] at ht
    cases ht
  | some ts =>
    rw [get, huses] at ht
    obtain ⟨e, he, hentry⟩ := exists_mem_of_mapM (Table.traverse_eq_some_iff.1 htraverse)
      (Table.mem_toList_iff.2 huses)
    obtain ⟨rs, happlied, rfl⟩ := Option.map_eq_some_iff.1 hentry
    rw [Substitution.applyToAll?, Ty.applyAllWith_eq_mapM] at happlied
    obtain ⟨r, hr, htr⟩ := exists_mem_of_mapM happlied ht
    exact ⟨r, List.mem_flatten.2 ⟨rs, List.mem_map_of_mem he, hr⟩, htr⟩

end Requirements

/-- All nodes of the new type are known, and all records are under known identities. -/
structure Resolved.Known (K : NodeId → Prop) (r : Resolved) : Prop where
  /-- The nodes of the new type, quantified variables included. -/
  identities : ∀ id ∈ r.type.identities, K id
  /-- The records that were left. -/
  origins : ∀ p ∈ r.origins, K p.1

namespace Ty

variable {K F : NodeId → Prop} {replace : NodeId → Option Resolved} {t : Ty} {r : Resolved}

theorem exists_of_mem_remainingBound {rs : List Resolved} {v : TyVar} (h : v ∈ remainingBound rs) :
    ∃ r ∈ rs, r.type = .var v := by
  have hmem := TyVar.mem_of_mem_sortById (TyVar.mem_of_mem_dropRepeats h)
  obtain ⟨r, hr, hv⟩ := List.mem_filterMap.1 hmem
  refine ⟨r, hr, ?_⟩
  cases htype : r.type <;> simp_all [asVar?]

section

variable (hreplace : ∀ v r, F v → replace v = some r → r.Known K)

include hreplace

theorem known_of_applyVar {v : TyVar} (hv : (var v).Within K F)
    (hr : applyVar replace v = some r) : r.Known K := by
  cases v with
  | flexible v => exact hreplace v r (hv.mentions v (.head _)) hr
  | rigid v =>
    cases hr
    exact ⟨hv.solids, List.forall_mem_nil _⟩

/-- What comes of known replacements is known. -/
theorem known_of_applyWith (ht : t.Within K F) (hr : t.applyWith replace = some r) : r.Known K := by
  induction t using ind generalizing r with
  | primitive id kind =>
    rw [applyWith] at hr
    cases hr
    exact ⟨ht.solids, List.forall_mem_nil _⟩
  | arrow id d c ihd ihc =>
    obtain ⟨hid, hd, hc⟩ := within_arrow.1 ht
    rw [applyWith] at hr
    obtain ⟨d', hd', hr⟩ := Option.bind_eq_some_iff.1 hr
    obtain ⟨c', hc', hr⟩ := Option.bind_eq_some_iff.1 hr
    cases hr
    have hknown := ihd hd hd'
    have hknown' := ihc hc hc'
    exact ⟨List.forall_mem_cons.2 ⟨hid,
      List.forall_mem_append.2 ⟨hknown.identities, hknown'.identities⟩⟩,
      List.forall_mem_append.2 ⟨hknown.origins, hknown'.origins⟩⟩
  | product id cs ih =>
    obtain ⟨hid, hcs⟩ := within_product.1 ht
    rw [applyWith, applyAllWith_eq_mapM] at hr
    obtain ⟨rs, hrs, hr⟩ := Option.bind_eq_some_iff.1 hr
    cases hr
    have hknown : ∀ x ∈ rs, x.Known K := fun x hx => by
      obtain ⟨c, hc, hcx⟩ := exists_of_mem_mapM hrs hx
      exact ih c hc (hcs c hc) hcx
    refine ⟨List.forall_mem_cons.2 ⟨hid, fun i hi => ?_⟩, fun p hp => ?_⟩
    · obtain ⟨c, hc, hi⟩ := mem_collectAll.1 hi
      obtain ⟨x, hx, rfl⟩ := List.mem_map.1 hc
      exact (hknown x hx).identities i hi
    · obtain ⟨x, hx, hp⟩ := List.mem_flatMap.1 hp
      exact (hknown x hx).origins p hp
  | var v => exact known_of_applyVar hreplace ht (by rwa [applyWith] at hr)
  | scheme id bound body ih =>
    obtain ⟨hid, hbound, hbody⟩ := within_scheme.1 ht
    rw [applyWith] at hr
    obtain ⟨vars, hvars, hr⟩ := Option.bind_eq_some_iff.1 hr
    obtain ⟨body', hbody', hr⟩ := Option.bind_eq_some_iff.1 hr
    have hvarsKnown : ∀ x ∈ vars, x.Known K := fun x hx => by
      obtain ⟨v, hv, hvx⟩ := exists_of_mem_mapM hvars hx
      exact known_of_applyVar hreplace (hbound v hv) hvx
    have hbodyKnown := ih hbody hbody'
    have horigins : ∀ p ∈ vars.flatMap Resolved.origins ++ body'.origins, K p.1 :=
      List.forall_mem_append.2 ⟨fun p hp => by
        obtain ⟨x, hx, hp⟩ := List.mem_flatMap.1 hp
        exact (hvarsKnown x hx).origins p hp, hbodyKnown.origins⟩
    dsimp only at hr
    split at hr
    -- the scheme keeps the quantifiers that are still variables, or falls apart
    · cases hr
      exact ⟨hbodyKnown.identities, horigins⟩
    · cases hr
      refine ⟨List.forall_mem_cons.2 ⟨hid, List.forall_mem_append.2 ⟨fun i hi => ?_,
        hbodyKnown.identities⟩⟩, horigins⟩
      obtain ⟨v, hv, hi⟩ := List.mem_flatMap.1 hi
      obtain ⟨x, hx, hxv⟩ := exists_of_mem_remainingBound hv
      exact (hvarsKnown x hx).identities i (by rwa [hxv])
  | invalid id =>
    rw [applyWith] at hr
    cases hr
    exact ⟨ht.solids, List.forall_mem_nil _⟩

end

end Ty

namespace Substitution

variable {K F : NodeId → Prop} {s : Substitution}

section

variable (hs : AllEntries (Ty.Within K F) s)
  (hunbound : ∀ w, F w → s.find? w = some (.unbound w) → K w)

include hs hunbound

/-- What takes the place of a variable is known, however deep the expansion. -/
theorem known_of_expand {n : ℕ} {v : NodeId} {r : Resolved} (hv : F v)
    (hr : s.expand n v = some r) : r.Known K := by
  induction n generalizing v r with
  | zero => cases hr
  | succ n ih =>
    rw [expand] at hr
    have hfound : ∀ {look : Lookup}, s.find? v = some look → look.toTy.Within K F :=
      hs.keep.find? (Ty.within_flexible.2 hv)
    split at hr
    · cases hr
    · rename_i w hfind
      cases hr
      -- a representative has no entry, so that it is known
      have hw : K w := hunbound w (Ty.within_flexible.1 (hfound hfind))
        (find?_of_none (get?_eq_none_of_find? hfind))
      refine ⟨List.forall_mem_singleton.2 hw, fun p hp => ?_⟩
      dsimp only at hp
      split at hp
      · cases hp
      · obtain rfl := List.mem_singleton.1 hp
        exact hw
    · rename_i u hfind
      obtain ⟨inner, hinner, hr⟩ := Option.bind_eq_some_iff.1 hr
      cases hr
      have hknown := Ty.known_of_applyWith (fun v r hv => ih hv) (hfound hfind) hinner
      refine ⟨hknown.identities, List.forall_mem_append.2 ⟨hknown.origins, fun p hp => ?_⟩⟩
      obtain rfl := List.mem_singleton.1 hp
      exact hknown.identities _ inner.type.id_mem_identities

theorem known_of_applyTo? {t : Ty} {r : Resolved} (ht : t.Within K F)
    (hr : s.applyTo? t = some r) : r.Known K :=
  Ty.known_of_applyWith (fun _ _ => known_of_expand hs hunbound) ht hr

/-- What is replaced in a list of uses is known. -/
theorem known_of_substitute? {q q' : Requirements} {replaced : List Resolved}
    (hq : ∀ token, ∀ t ∈ q.get token, t.Within K F) (h : q.substitute? s = some (q', replaced)) :
    ∀ r ∈ replaced, r.Known K := by
  intro r hr
  obtain ⟨token, t, ht, htr⟩ := Requirements.exists_of_mem_replaced h hr
  exact known_of_applyTo? hs hunbound (hq token t ht) htr

end

end Substitution

/-- There are no records under other identities. -/
theorem Origins.get?_ofResolved_eq_none {K : NodeId → Prop} {rs : List Resolved} {id : NodeId}
    (h : ∀ r ∈ rs, r.Known K) (hid : ¬ K id) : (Origins.ofResolved rs).get? id = none := by
  by_contra hsome
  obtain ⟨source, hsource⟩ := Option.ne_none_iff_exists'.1 hsome
  obtain ⟨r, hr, hp⟩ := List.mem_flatMap.1 (Table.mem_of_get?_ofList hsource)
  exact hid ((h r hr).origins _ hp)

end CoContextual
