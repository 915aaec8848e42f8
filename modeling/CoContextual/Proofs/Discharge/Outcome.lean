import CoContextual.Proofs.Discharge.Link
import CoContextual.Proofs.Requirements

/-!
# The outcome of discharging

Discharging goes through the uses of declared identifiers and leaves the others alone. Its outcome
accounts for every use (`Requirements.discharge?_accounts`): a use of an identifier that is not
declared remains, and a use of a declared one is reported or agrees, once all uses have been tried,
with an instance that was made for it alone.

No failure is spurious (`Requirements.discharge?_clean`): if some assignment makes every use an
instance of its declaration, nothing is reported, and the assignment solves the resulting store
when it is extended to the variables that were drawn on the way.
-/

namespace CoContextual

open Substitution

namespace Requirements

/-- The variables of the uses, of the declarations and of the store that discharging starts from. -/
inductive Known (r : Requirements) (b : Bindings) (s : Substitution) : NodeId → Prop
  | required {token : Ident} {t : Ty} {v : NodeId} (ht : t ∈ r.get token) (hv : v ∈ t.mentions) :
      Known r b s v
  | declared {token : Ident} {t : Ty} {v : NodeId} (ht : b.get? token = some t)
      (hv : v ∈ t.mentions) : Known r b s v
  | bound {v : NodeId} {e : Entry} (he : s.get? v = some e) : Known r b s v
  | stored {v w : NodeId} {e : Entry} (he : s.get? w = some e) (hv : v ∈ e.toTy.mentions) :
      Known r b s v

variable {r : Requirements} {b : Bindings} {s : Substitution} {ids ids' : IdSource}
  {d : Discharge}

/-- The store that discharging starts from speaks of known variables only. -/
theorem among_known (r : Requirements) (b : Bindings) (s : Substitution) :
    s.Among (r.Known b s) :=
  ⟨fun _ _ he => .bound he, fun _ _ he _ hv => .stored he hv⟩

/-- What remains is what is not declared. -/
theorem get?_undeclared (r : Requirements) (b : Bindings) (token : Ident) :
    (r.undeclared b).uses.get? token
      = if b.contains token = true then none else r.uses.get? token := by
  rw [undeclared, Table.get?_filterKeys]
  cases b.contains token <;> rfl

/-! ## Every use is accounted for -/

/-- Discharging links the uses of declared identifiers, in order. -/
theorem exists_linking_of_discharge? (h : r.discharge? b s ids = some (d, ids')) :
    ∃ links, Linking links s ids d.substitution ids' ∧
      links.map Link.use = r.declaredUses b ∧ links.filterMap Link.failure? = d.failures ∧
      d.remaining = r.undeclared b := by
  obtain ⟨⟨s', failures, ids₁⟩, hlink, hd⟩ := Option.bind_eq_some_iff.1 h
  cases hd
  obtain ⟨links, hlinks, huses, hfailures⟩ := exists_linking hlink
  exact ⟨links, hlinks, huses, hfailures, rfl⟩

/-- Discharging brings in no other variables than those of the uses, of the declarations and of
the source. -/
theorem among_of_discharge? {K : NodeId → Prop} (h : r.discharge? b s ids = some (d, ids'))
    (hs : s.Among K) (hrequired : ∀ token, ∀ t ∈ r.get token, t.Among K)
    (hdeclared : ∀ token t, b.get? token = some t → t.Among K)
    (hdrawn : ∀ n, ids' = ids.advance n → ∀ v ∈ ids.taken n, K v) : d.substitution.Among K := by
  obtain ⟨links, hlinks, huses, -, -⟩ := exists_linking_of_discharge? h
  obtain ⟨hids, hnew⟩ := hlinks.ids_eq
  refine hlinks.among hs fun l hl => ?_
  -- each link is a use of a declared identifier, with variables of its own in the instance
  obtain ⟨hb, hmem⟩ := mem_declaredUses.1 (huses ▸ List.mem_map_of_mem hl)
  refine ⟨hrequired _ _ hmem, fun v hv => ?_⟩
  rcases Ty.mem_mentions_renew (hlinks.length_new l hl) hv with hv | hv
  · refine hdrawn _ hids v ?_
    rw [← hnew]
    exact List.mem_flatMap.2 ⟨l, hl, hv⟩
  · exact hdeclared _ _ hb v hv

/-- The failures that are reported stand in the order of the uses. -/
theorem sublist_failures (links : List Link) :
    ((links.filterMap Link.failure?).map Failure.use).Sublist (links.map Link.use) := by
  induction links with
  | nil => exact .refl _
  | cons l links ih =>
    rw [List.filterMap_cons, List.map_cons]
    cases herror : l.error with
    | none =>
      rw [Link.failure?, herror]
      exact ih.cons _
    | some e =>
      rw [Link.failure?, herror]
      exact ih.cons_cons _

/-- Discharging accounts for every use. What is not declared remains as it was, the failures are
some of the uses of declared identifiers in their order, no entry of the store is lost, and every
use that is not reported agrees with an instance of its declaration, if the resulting store is
acyclic. The variables of the instance were drawn for this use alone. -/
theorem discharge?_accounts (h : r.discharge? b s ids = some (d, ids'))
    (hahead : ids.Ahead (r.Known b s) ids') :
    (∀ token, d.remaining.uses.get? token
      = if b.contains token = true then none else r.uses.get? token) ∧
    (d.failures.map Failure.use).Sublist (r.declaredUses b) ∧
    (∀ v e, s.get? v = some e → d.substitution.get? v = some e) ∧
    ∃ links : List Link,
      links.map Link.use = r.declaredUses b ∧ links.filterMap Link.failure? = d.failures ∧
      (links.flatMap Link.new).Nodup ∧ (∀ v ∈ links.flatMap Link.new, ¬ r.Known b s v) ∧
      ∀ l ∈ links, l.use.declared.quantified.length = l.new.length ∧
        (d.substitution.Acyclic → l.error = none →
          ∃ required declared, d.substitution.resolve? l.use.required = some required ∧
            d.substitution.resolve? l.declaredInstance = some declared ∧
            required.agrees declared = true) := by
  obtain ⟨links, hlinks, huses, hfailures, hremaining⟩ := exists_linking_of_discharge? h
  obtain ⟨hids, hnew⟩ := hlinks.ids_eq
  rw [hids] at hahead
  refine ⟨fun token => ?_, ?_, hlinks.extends, links, huses, hfailures, ?_, fun v hv => ?_, ?_⟩
  · rw [hremaining, get?_undeclared]
  · rw [← hfailures, ← huses]
    exact sublist_failures links
  · rw [hnew]
    exact hahead.distinct _ rfl
  · rw [hnew] at hv
    exact hahead.not_of_mem_taken hv
  · intro l hl
    refine ⟨hlinks.length_new l hl, fun hacyclic hnone => ?_⟩
    -- resolving through the final store is a solution of it
    exact ⟨_, _, hacyclic.resolve?_eq _, hacyclic.resolve?_eq _,
      hlinks.agrees hacyclic.satisfiedBy_image l hl hnone⟩

/-- The identity is used at two types, of which the second does not fit it, and one identifier is
not declared. The failure is reported, and the first use agrees with its instance all the same. -/
theorem discharge?_accounts_identity_misused : ∃ (r : Requirements) (b : Bindings)
    (d : Discharge) (ids' : IdSource),
    r.get (.name "f") = [.arrow 1 (.primitive 2 .i32) (.flexible 3),
      .arrow 4 (.primitive 5 .i32) (.primitive 6 .string)] ∧
    b.get? (.name "f") = some (.scheme 8 [.flexible 9] (.arrow 10 (.flexible 9) (.flexible 9))) ∧
    r.discharge? b .empty (.pinnedAt 20) = some (d, ids') ∧ d.failures.length = 1 ∧
    d.remaining.tokens = [.name "y"] ∧
    ∃ links : List Link,
      links.map Link.use = r.declaredUses b ∧ links.filterMap Link.failure? = d.failures ∧
      (links.flatMap Link.new).Nodup ∧ (∀ v ∈ links.flatMap Link.new, ¬ r.Known b .empty v) ∧
      ∀ l ∈ links, l.error = none →
        ∃ required declared, d.substitution.resolve? l.use.required = some required ∧
          d.substitution.resolve? l.declaredInstance = some declared ∧
          required.agrees declared = true := by
  let r := ((Requirements.empty.add (.name "f") (.arrow 1 (.primitive 2 .i32) (.flexible 3))).add
    (.name "f") (.arrow 4 (.primitive 5 .i32) (.primitive 6 .string))).add (.name "y") (.flexible 7)
  let declared : Ty := .scheme 8 [.flexible 9] (.arrow 10 (.flexible 9) (.flexible 9))
  let b := Bindings.single (.name "f") declared
  obtain ⟨d, ids', hd, hids, hfailures, hremaining, hacyclic⟩ : ∃ d ids',
      r.discharge? b .empty (.pinnedAt 20) = some (d, ids') ∧ ids'.nextBlock = 0 ∧
      d.failures.length = 1 ∧ d.remaining.tokens = [.name "y"] ∧ d.substitution.Acyclic :=
    ⟨_, _, rfl, rfl, rfl, rfl, acyclic_of_measure (fun v => if v = 20 then 0 else 1) (by decide)⟩
  have hrequired : r.Each fun _ t => ∀ v ∈ t.mentions, v < 20 := by
    refine each_add.2 ⟨each_add.2 ⟨each_add.2 ⟨each_empty, ?_⟩, ?_⟩, ?_⟩ <;> decide
  have hdeclared : ∀ v ∈ declared.mentions, v < 20 := by decide
  have hahead : (IdSource.pinnedAt 20).Ahead (r.Known b .empty) ids' := by
    refine ⟨⟨by decide, .inr hids⟩, fun v hv => ?_⟩
    cases hv with
    | required ht hv => exact hrequired _ _ ht v hv
    | declared ht hv =>
      rw [Bindings.get?_single, Option.ite_none_right_eq_some] at ht
      cases ht.2
      exact hdeclared v hv
    | bound he => cases he
    | stored he => cases he
  obtain ⟨-, -, -, links, huses, hreported, hnodup, hnew, hlinks⟩ := discharge?_accounts hd hahead
  exact ⟨r, b, d, ids', rfl, rfl, hd, hfailures, hremaining, links, huses, hreported, hnodup, hnew,
    fun l hl => (hlinks l hl).2 hacyclic⟩

/-! ## No failure is spurious -/

/-- If an assignment solves the store and makes every use of a declared identifier an instance of
the declaration, discharging ends without a failure, in an acyclic store, and the assignment solves
this store when it is extended to the variables that were drawn. -/
theorem discharge?_clean {A : NodeId → Ty} (hbuilt : Built s) (hacyclic : s.Acyclic)
    (hentries : ∀ v u, s.get? v = some (.bound u) → u.plain = true)
    (hrequired : ∀ token, ∀ t ∈ r.get token, t.plain = true)
    (hdeclared : ∀ token t, b.get? token = some t → t.declarable = true)
    (hahead : ids.Ahead (r.Known b s) (ids.advance (Use.drawn (r.declaredUses b))))
    (hA : s.SatisfiedBy A)
    (hinstances : ∀ token declared, b.get? token = some declared → ∀ t ∈ r.get token,
      declared.HasInstance A (t.substitute A)) :
    ∃ d, r.discharge? b s ids = some (d, ids.advance (Use.drawn (r.declaredUses b))) ∧
      d.failures = [] ∧ d.substitution.Acyclic ∧
      ∃ B : NodeId → Ty, d.substitution.SatisfiedBy B ∧
        ∀ v, v ∉ ids.taken (Use.drawn (r.declaredUses b)) → B v = A v := by
  have hfits : ∀ u ∈ r.declaredUses b, u.Fits A (r.Known b s) := by
    intro u hu
    obtain ⟨hb, hmem⟩ := mem_declaredUses.1 hu
    refine ⟨⟨hrequired u.token _ hmem, hdeclared u.token _ hb⟩, fun v hv => .required hmem hv,
      fun v hv => ?_, hinstances u.token _ hb _ hmem⟩
    exact .declared hb (Ty.mem_mentions_of_mem_freeVars hv)
  have hsolvable : Solvable A s [] :=
    { Solvable.empty A with
      wellFormed := hbuilt.wellFormed hacyclic
      plain := fun v e he => by
        cases e with
        | bound u => exact hentries v u he
        | redirect w => rfl
      satisfied := hA }
  obtain ⟨s', B, hlink, hs', hB⟩ := linkUses_of_fits hfits hsolvable (among_known r b s)
    (hahead.distinct _ rfl) fun v hv => hahead.not_of_mem_taken hv
  refine ⟨⟨s', r.undeclared b, []⟩, ?_, rfl, hs'.acyclic, B, hs'.satisfied, hB⟩
  rw [discharge?, hlink]
  rfl

/-- A polymorphic function with a result that is still open is used at two types, one of which the
store knows. -/
theorem discharge?_clean_open_result : ∃ (r : Requirements) (b : Bindings) (d : Discharge)
    (ids' : IdSource) (B : NodeId → Ty),
    r.get (.name "f") = [.arrow 3 (.flexible 1) (.flexible 4),
      .arrow 5 (.primitive 6 .string) (.flexible 7)] ∧
    b.get? (.name "f") = some (.scheme 8 [.flexible 9] (.arrow 10 (.flexible 9) (.flexible 11))) ∧
    r.discharge? b (Substitution.empty.assign 1 (.primitive 2 .i32)) (.pinnedAt 20)
      = some (d, ids') ∧
    d.failures = [] ∧ d.substitution.Acyclic ∧ d.substitution.SatisfiedBy B := by
  let r := (Requirements.empty.add (.name "f") (.arrow 3 (.flexible 1) (.flexible 4))).add
    (.name "f") (.arrow 5 (.primitive 6 .string) (.flexible 7))
  let declared : Ty := .scheme 8 [.flexible 9] (.arrow 10 (.flexible 9) (.flexible 11))
  let b := Bindings.single (.name "f") declared
  let s := Substitution.empty.assign 1 (.primitive 2 .i32)
  let A : NodeId → Ty := fun _ => .primitive 0 .i32
  have hdeclared : ∀ {token t}, b.get? token = some t → t = declared := by
    intro token t ht
    rw [Bindings.get?_single, Option.ite_none_right_eq_some] at ht
    exact (Option.some.inj ht.2).symm
  have hentry : ∀ {v e}, s.get? v = some e → v = 1 ∧ e = .bound (.primitive 2 .i32) := by
    intro v e he
    have hmem := List.mem_singleton.1 (Table.mem_toList_iff.2 he)
    exact ⟨congrArg Prod.fst hmem, congrArg Prod.snd hmem⟩
  have hmentions : r.Each fun _ t => ∀ v ∈ t.mentions, v < 20 :=
    each_add.2 ⟨each_add.2 ⟨each_empty, by decide⟩, by decide⟩
  have hopen : ∀ v ∈ declared.mentions, v < 20 := by decide
  have hahead : (IdSource.pinnedAt 20).Ahead (r.Known b s)
      ((IdSource.pinnedAt 20).advance (Use.drawn (r.declaredUses b))) := by
    refine ⟨⟨by decide, .inr rfl⟩, fun v hv => ?_⟩
    cases hv with
    | required ht hv => exact hmentions _ _ ht v hv
    | declared ht hv => exact hopen v (hdeclared ht ▸ hv)
    | bound he =>
      rw [(hentry he).1]
      decide
    | stored he hv =>
      rw [(hentry he).2] at hv
      cases hv
  have hinstances : r.Each fun _ t => declared.HasInstance A (t.substitute A) :=
    each_add.2 ⟨each_add.2 ⟨each_empty, fun _ => .primitive 0 .i32, rfl⟩,
      fun _ => .primitive 0 .string, rfl⟩
  obtain ⟨d, hd, hfailures, hacyclic, B, hB, -⟩ := discharge?_clean (r := r) (A := A)
    (Built.empty.assign 1 (.primitive 2 .i32)) (acyclic_of_measure id (by decide))
    (fun v u he => by cases (hentry he).2; rfl)
    (each_add.2 ⟨each_add.2 ⟨each_empty, rfl⟩, rfl⟩) (fun token t ht => hdeclared ht ▸ rfl) hahead
    ((satisfiedBy_assign rfl).2 ⟨satisfiedBy_empty A, rfl⟩)
    fun token t ht use huse => hdeclared ht ▸ hinstances token use huse
  exact ⟨r, b, d, _, B, rfl, rfl, hd, hfailures, hacyclic, hB⟩

end Requirements

end CoContextual
