import CoContextual.Discharge
import CoContextual.Proofs.Ty.Instance
import CoContextual.Proofs.Unify.Completeness

/-!
# Linking uses with declarations

Uses are unified with instances of the declared types, one after the other (`Linking`). Whatever
became of the uses before and after it, a use that did not fail agrees with its instance in every
solution of the final store (`Linking.agrees`), and the store speaks of no variables but those of
the uses, of the declarations and of the instances (`Linking.among`).

If an assignment makes every use an instance of its declaration, each of the unifications succeeds,
and the assignment is extended to the variables that were drawn for the instances
(`linkUses_of_fits`). Conversely, where no use fails and the final store is acyclic, each resolved
use is an instance of its declaration (`hasInstance_of_linkUses`).
-/

namespace CoContextual

open Substitution

namespace Use

/-- How many variables instantiating the declared types of some uses draws. -/
def drawn (uses : List Use) : ℕ := (uses.map fun u => u.declared.quantified.length).sum

@[simp]
theorem drawn_cons (u : Use) (uses : List Use) :
    drawn (u :: uses) = u.declared.quantified.length + drawn uses := rfl

/-- Neither side of the use holds a scheme that unification would meet, or an invalid type. -/
structure Plain (u : Use) : Prop where
  /-- The type at which the identifier is used. -/
  required : u.required.plain = true
  /-- The type with which it is declared. -/
  declared : u.declared.declarable = true

/-- A use over known variables that the assignment makes an instance of the declaration. -/
structure Fits (A : NodeId → Ty) (K : NodeId → Prop) (u : Use) : Prop extends u.Plain where
  /-- The variables of the use are known. -/
  required_among : u.required.Among K
  /-- The variables that are free in the declaration are known. -/
  declared_among : ∀ v, .flexible v ∈ u.declared.freeVars → K v
  /-- The use is an instance. -/
  hasInstance : u.declared.HasInstance A (u.required.substitute A)

/-- Assigning other types to variables that are not known changes nothing. -/
theorem Fits.of_agree {A B : NodeId → Ty} {K K' : NodeId → Prop} {u : Use} (h : u.Fits A K)
    (hK : ∀ v, K v → K' v) (hAB : ∀ v, K v → B v = A v) : u.Fits B K' where
  toPlain := h.toPlain
  required_among := h.required_among.mono hK
  declared_among v hv := hK v (h.declared_among v hv)
  hasInstance := by
    have hinstance := h.hasInstance.of_agree h.declared fun v hv =>
      (hAB v (h.declared_among v hv)).symm
    exact hinstance.congr (h.required_among.erase_substitute hAB).symm

end Use

/-- The uses that are discharged are the entries of declared identifiers. -/
theorem Requirements.mem_declaredUses {r : Requirements} {b : Bindings} {u : Use} :
    u ∈ r.declaredUses b ↔ b.get? u.token = some u.declared ∧ u.required ∈ r.get u.token := by
  rw [declaredUses, List.mem_flatMap]
  constructor
  · rintro ⟨⟨token, types⟩, hmem, hu⟩
    cases hb : b.get? token with
    | none => simp [hb] at hu
    | some declared =>
      simp only [hb, List.mem_map] at hu
      obtain ⟨required, hrequired, rfl⟩ := hu
      refine ⟨hb, ?_⟩
      rw [get, Table.mem_toList_iff.1 hmem]
      exact hrequired
  · rintro ⟨hb, hu⟩
    rw [get] at hu
    cases hget : r.uses.get? u.token with
    | none => simp [hget] at hu
    | some types =>
      rw [hget] at hu
      refine ⟨(u.token, types), Table.mem_toList_iff.2 hget, ?_⟩
      simp only [hb]
      exact List.mem_map.2 ⟨u.required, hu, rfl⟩

/-- One use that unifies with its instance. -/
theorem linkUses_cons_of_ok {u : Use} {uses : List Use} {s s' : Substitution} {ids : IdSource}
    {steps : List Step}
    (h : s.unify? u.required (u.declared.renew (ids.taken u.declared.quantified.length))
      = some ⟨steps, .ok s'⟩) :
    linkUses (u :: uses) s ids = linkUses uses s' (ids.advance u.declared.quantified.length) := by
  rw [linkUses, Ty.instantiate_run]
  simp only [h, Option.bind_eq_bind, Option.bind_some]

/-! ## The course of linking -/

/-- What became of a use. -/
structure Link where
  /-- The use. -/
  use : Use
  /-- The variables that were drawn for its instance. -/
  new : List NodeId
  /-- Why the use does not fit its instance, if it does not. -/
  error : Option UnifyError

namespace Link

/-- The instance of the declared type that was made for the use alone. -/
def declaredInstance (l : Link) : Ty := l.use.declared.renew l.new

/-- The failure that is reported for the use, if there is one. -/
def failure? (l : Link) : Option Failure := l.error.map fun e => ⟨l.use, e⟩

end Link

/-- Linking some uses leads from one store and one source to others; a use that fails leaves the
store alone, but not the source. -/
inductive Linking : List Link → Substitution → IdSource → Substitution → IdSource → Prop
  | done (s : Substitution) (ids : IdSource) : Linking [] s ids s ids
  | fits {u : Use} {links : List Link} {steps : List Step} {s s₁ s' : Substitution}
      {ids ids' : IdSource}
      (hunify : s.unify? u.required (u.declared.renew (ids.taken u.declared.quantified.length))
        = some ⟨steps, .ok s₁⟩)
      (rest : Linking links s₁ (ids.advance u.declared.quantified.length) s' ids') :
      Linking (⟨u, ids.taken u.declared.quantified.length, none⟩ :: links) s ids s' ids'
  | fails {u : Use} {links : List Link} {steps : List Step} {e : UnifyError}
      {s s' : Substitution} {ids ids' : IdSource}
      (hunify : s.unify? u.required (u.declared.renew (ids.taken u.declared.quantified.length))
        = some ⟨steps, .error e⟩)
      (rest : Linking links s (ids.advance u.declared.quantified.length) s' ids') :
      Linking (⟨u, ids.taken u.declared.quantified.length, some e⟩ :: links) s ids s' ids'

/-- Linking that ends has taken a course, and reports the uses that failed in it. -/
theorem exists_linking {uses : List Use} {s s' : Substitution} {failures : List Failure}
    {ids ids' : IdSource} (h : linkUses uses s ids = some (s', failures, ids')) :
    ∃ links, Linking links s ids s' ids' ∧ links.map Link.use = uses ∧
      links.filterMap Link.failure? = failures := by
  induction uses generalizing s ids failures with
  | nil =>
    cases h
    exact ⟨[], .done _ _, rfl, rfl⟩
  | cons u uses ih =>
    rw [linkUses, Ty.instantiate_run] at h
    obtain ⟨⟨steps, result⟩, hunify, h⟩ := Option.bind_eq_some_iff.1 h
    cases result with
    | ok s₁ =>
      obtain ⟨links, hlinks, rfl, rfl⟩ := ih h
      exact ⟨_, .fits hunify hlinks, rfl, rfl⟩
    | error e =>
      obtain ⟨⟨s₁, others, ids₁⟩, hrest, h⟩ := Option.bind_eq_some_iff.1 h
      cases h
      obtain ⟨links, hlinks, rfl, rfl⟩ := ih hrest
      exact ⟨_, .fails hunify hlinks, rfl, rfl⟩

section

variable {links : List Link} {s s' : Substitution} {ids ids' : IdSource}

/-- The source is drawn from for the instances and for nothing else. -/
theorem Linking.ids_eq (h : Linking links s ids s' ids') :
    ids' = ids.advance (Use.drawn (links.map Link.use)) ∧
      links.flatMap Link.new = ids.taken (Use.drawn (links.map Link.use)) := by
  induction h with
  | done s ids => exact ⟨rfl, rfl⟩
  | fits hunify _ ih | fails hunify _ ih =>
    obtain ⟨hadvance, htaken⟩ := ih
    rw [List.map_cons, Use.drawn_cons, IdSource.advance_add, IdSource.taken_add, List.flatMap_cons]
    exact ⟨hadvance, by rw [htaken]⟩

theorem Linking.length_new (h : Linking links s ids s' ids') :
    ∀ l ∈ links, l.use.declared.quantified.length = l.new.length := by
  induction h with
  | done s ids => exact fun _ hl => nomatch hl
  | fits _ _ ih | fails _ _ ih =>
    exact List.forall_mem_cons.2 ⟨(IdSource.length_taken ..).symm, ih⟩

/-- The entries of the store are kept. -/
theorem Linking.extends (h : Linking links s ids s' ids') : s'.Extends s := by
  induction h with
  | done s ids => exact .refl s
  | fits hunify _ ih => exact ih.trans ((unify?_eq_some_iff.1 hunify).extends rfl)
  | fails _ _ ih => exact ih

/-- A use that did not fail agrees with its instance in every solution of the final store. -/
theorem Linking.agrees (h : Linking links s ids s' ids') {A : NodeId → Ty} (hA : s'.SatisfiedBy A) :
    ∀ l ∈ links, l.error = none →
      (l.use.required.substitute A).agrees (l.declaredInstance.substitute A) = true := by
  induction h with
  | done s ids => exact fun _ hl => nomatch hl
  | fits hunify rest ih =>
    -- a solution of the final store solves the store right after this use
    refine List.forall_mem_cons.2 ⟨fun _ => ?_, ih hA⟩
    exact (unify?_eq_some_iff.1 hunify).agrees rfl (hA.of_extends rest.extends) _ (.head _)
  | fails _ _ ih => exact List.forall_mem_cons.2 ⟨nofun, ih hA⟩

/-- What holds of all parts of the uses and of their instances holds of what the store binds. -/
theorem Linking.allEntries {T : Ty → Prop} (hT : Ty.PartClosed T) (h : Linking links s ids s' ids')
    (hs : AllEntries T s) (hlinks : ∀ l ∈ links, T l.use.required ∧ T l.declaredInstance) :
    AllEntries T s' := by
  induction h with
  | done s ids => exact hs
  | fits hunify _ ih =>
    obtain ⟨hl, hlinks⟩ := List.forall_mem_cons.1 hlinks
    refine ih ?_ hlinks
    exact (unify?_eq_some_iff.1 hunify).allEntries hT hs (List.forall_mem_singleton.2 hl) rfl
  | fails _ _ ih => exact ih hs (List.forall_mem_cons.1 hlinks).2

/-- Linking brings in no other variables than those of the uses and of their instances. -/
theorem Linking.among {K : NodeId → Prop} (h : Linking links s ids s' ids') (hs : s.Among K)
    (hlinks : ∀ l ∈ links, l.use.required.Among K ∧ l.declaredInstance.Among K) : s'.Among K := by
  induction h with
  | done s ids => exact hs
  | fits hunify _ ih =>
    obtain ⟨hl, hlinks⟩ := List.forall_mem_cons.1 hlinks
    exact ih ((unify?_eq_some_iff.1 hunify).among hs (List.forall_mem_singleton.2 hl) rfl) hlinks
  | fails _ _ ih => exact ih hs (List.forall_mem_cons.1 hlinks).2

end

/-! ## Uses that fit are linked -/

/-- A use that fits is unified with its instance, if the variables drawn for the instance are not
known. The assignment is extended to these, and solves the new store. -/
theorem Use.Fits.exists_unify? {A : NodeId → Ty} {K : NodeId → Prop} {u : Use} {s : Substitution}
    {new : List NodeId} (h : u.Fits A K) (hs : Solvable A s []) (hamong : s.Among K)
    (hlen : u.declared.quantified.length = new.length) (hnodup : new.Nodup)
    (hnew : ∀ v ∈ new, ¬ K v) :
    ∃ steps s' B,
      s.unify? u.required (u.declared.renew new) = some ⟨steps, .ok s'⟩ ∧ Solvable B s' [] ∧
      s'.Among (fun v => K v ∨ v ∈ new) ∧ ∀ v, v ∉ new → B v = A v := by
  obtain ⟨B, hold, hinstance⟩ := h.hasInstance.exists_renew h.declared hlen hnodup
    fun w hw hmem => hnew w hw (h.declared_among w hmem)
  -- the store and the use know nothing of the new variables, so that `B` serves them as `A` did
  have hagree : ∀ v, K v → B v = A v := fun v hv => hold v fun hmem => hnew v hmem hv
  have hsolvable : Solvable B s [(u.required, u.declared.renew new)] :=
    { wellFormed := hs.wellFormed
      plain := hs.plain
      satisfied := hs.satisfied.of_agree hamong hagree
      goalsPlain := by simpa using ⟨h.required, Ty.plain_renew h.declared hlen⟩
      goalsEqual := by simpa using (h.required_among.erase_substitute hagree).trans hinstance }
  obtain ⟨steps, s', hunify, hs'⟩ := hsolvable.exists_unify?
  refine ⟨steps, s', B, hunify, hs', ?_, hold⟩
  refine (unify?_eq_some_iff.1 hunify).among (hamong.mono fun _ => .inl) ?_ rfl
  simp only [List.forall_mem_singleton]
  refine ⟨h.required_among.mono fun _ => .inl, fun w hw => ?_⟩
  rcases Ty.mem_of_mem_mentions_renew h.declared hlen hw with hw | hw
  · exact .inr hw
  · exact .inl (h.declared_among w hw)

/-- If an assignment solves the store and makes every use an instance of its declaration, no use
fails, and the assignment is extended to the variables that were drawn. -/
theorem linkUses_of_fits {A : NodeId → Ty} {K : NodeId → Prop} {uses : List Use}
    {s : Substitution} {ids : IdSource} (huses : ∀ u ∈ uses, u.Fits A K) (hs : Solvable A s [])
    (hamong : s.Among K) (hnodup : (ids.taken (Use.drawn uses)).Nodup)
    (hnew : ∀ v ∈ ids.taken (Use.drawn uses), ¬ K v) :
    ∃ s' B, linkUses uses s ids = some (s', [], ids.advance (Use.drawn uses)) ∧ Solvable B s' [] ∧
      ∀ v, v ∉ ids.taken (Use.drawn uses) → B v = A v := by
  induction uses generalizing A K s ids with
  | nil => exact ⟨s, A, rfl, hs, fun _ _ => rfl⟩
  | cons u uses ih =>
    -- the draws split into those for this use and those for the others
    rw [Use.drawn_cons, IdSource.taken_add] at hnodup hnew
    obtain ⟨hfirst, hrest, hdisjoint⟩ := List.nodup_append'.1 hnodup
    obtain ⟨hnewFirst, hnewRest⟩ := List.forall_mem_append.1 hnew
    obtain ⟨hu, huses⟩ := List.forall_mem_cons.1 huses
    obtain ⟨steps, s₁, B₁, hunify, hs₁, hamong₁, hB₁⟩ :=
      hu.exists_unify? hs hamong (IdSource.length_taken ..).symm hfirst hnewFirst
    -- the variables of this instance are known to the uses that follow
    obtain ⟨s', B, hlink, hs', hB⟩ := ih
      (fun v hv => (huses v hv).of_agree (fun _ => .inl) fun w hw =>
        hB₁ w fun hmem => hnewFirst w hmem hw)
      hs₁ hamong₁ hrest fun v hv hknown =>
        hknown.elim (hnewRest v hv) fun hmem => hdisjoint hmem hv
    rw [Use.drawn_cons, IdSource.advance_add, IdSource.taken_add]
    refine ⟨s', B, (linkUses_cons_of_ok hunify).trans hlink, hs', fun v hv => ?_⟩
    rw [List.mem_append, not_or] at hv
    rw [hB v hv.2, hB₁ v hv.1]

/-! ## Linked uses are instances -/

/-- Where no failure is reported, no use failed. -/
theorem Link.error_eq_none {links : List Link} (h : links.filterMap Link.failure? = []) :
    ∀ l ∈ links, l.error = none := by
  intro l hl
  have hfailure := List.filterMap_eq_nil_iff.1 h l hl
  rwa [failure?, Option.map_eq_none_iff] at hfailure

/-- Linking plain uses leaves a plain store. -/
theorem plain_of_linkUses {uses : List Use} {s s' : Substitution} {ids ids' : IdSource}
    (h : linkUses uses s ids = some (s', [], ids')) (huses : ∀ u ∈ uses, u.Plain)
    (hs : AllEntries (fun u => u.plain = true) s) : AllEntries (fun u => u.plain = true) s' := by
  obtain ⟨links, hlinks, rfl, -⟩ := exists_linking h
  refine hlinks.allEntries Ty.partClosed_plain hs fun l hl => ?_
  have hplain := huses l.use (List.mem_map_of_mem hl)
  exact ⟨hplain.required, Ty.plain_renew hplain.declared (hlinks.length_new l hl)⟩

/-- Where no use fails and the final store is acyclic, each resolved use is an instance of its
declaration, whatever the variables that are left are replaced by. -/
theorem hasInstance_of_linkUses {uses : List Use} {s s' : Substitution} {ids ids' : IdSource}
    (h : linkUses uses s ids = some (s', [], ids')) (huses : ∀ u ∈ uses, u.Plain)
    (hs : AllEntries (fun u => u.plain = true) s) (hacyclic : s'.Acyclic) (τ : NodeId → Ty) :
    ∀ u ∈ uses, u.declared.HasInstance (fun v => (s'.image v).substitute τ)
      (u.required.substitute fun v => (s'.image v).substitute τ) := by
  intro u hu
  have himage := hacyclic.plain_image (plain_of_linkUses h huses hs)
  obtain ⟨links, hlinks, rfl, hnone⟩ := exists_linking h
  obtain ⟨l, hl, rfl⟩ := List.mem_map.1 hu
  have hagrees := hlinks.agrees hacyclic.satisfiedBy_image l hl (Link.error_eq_none hnone l hl)
  have hrequired := (huses _ hu).required
  have hrenewed := Ty.plain_renew (huses _ hu).declared (hlinks.length_new l hl)
  -- resolved types hold nothing invalid, so that agreeing is being alike, and replacing the
  -- variables that are left keeps them alike
  have halike := Ty.alike_of_agrees
    (Ty.plain_iff.1 (Ty.plain_substitute hrequired fun v _ => himage v)).2
    (Ty.plain_iff.1 (Ty.plain_substitute hrenewed fun v _ => himage v)).2 hagrees
  have hequal := (Ty.alike_iff_erase_eq _ _).1 (Ty.alike_substitute (f := τ) halike)
  rw [Ty.substitute_substitute (Ty.plain_iff.1 hrequired).1,
    Ty.substitute_substitute (Ty.plain_iff.1 hrenewed).1] at hequal
  exact (Ty.hasInstance_renew (huses _ hu).declared l.new _).congr hequal.symm

end CoContextual
