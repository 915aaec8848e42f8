import CoContextual.Proofs.Renumbering.Derivations
import CoContextual.Proofs.Renumbering.Draws

/-!
# Two runs of the rules

A rule looks at the identities that it draws only to compare them. Two runs of a rule, on inputs
that are the same up to identities and with sources that run in parallel, therefore yield results
that are the same up to identities.

How far the runs are apart is given by two numbers: the identity `id` of the first run and `id'` of
the second belong together if `id + m = id' + n`. So a value of the first run and one of the second
are the same up to identities if the first, renumbered by `m`, is the second, renumbered by `n`. The
runs may begin anywhere, since no identity has to be lowered.

- `Mirrors`: two computations that succeed with results that are the same up to identities, or fail
  in the same way;
- `Mirrors.bind`: computations in sequence;
- one lemma `mirrors_f` for each rule `f`.
-/

namespace CoContextual

variable {n m : ℕ}

/-! ## Sources in parallel -/

/-- The two sources hand out identities that belong together. -/
structure IdSource.Parallel (n m : ℕ) (s s' : IdSource) : Prop where
  /-- The next identities belong together. -/
  next : s.supply.next + m = s'.supply.next + n
  /-- So do the ends of the ranges. -/
  stop : s.supply.stop + m = s'.supply.stop + n
  /-- So do the blocks that are taken next. -/
  block : s.nextBlock + m = s'.nextBlock + n

theorem IdSource.Parallel.draw {s s' : IdSource} (h : s.Parallel n m s') :
    s.draw.1 + m = s'.draw.1 + n ∧ s.draw.2.Parallel n m s'.draw.2 := by
  obtain ⟨hnext, hstop, hblock⟩ := h
  have hspent : s.supply.next = s.supply.stop ↔ s'.supply.next = s'.supply.stop := by lia
  unfold IdSource.draw IdSource.refill
  by_cases hs : s.supply.next = s.supply.stop
  · rw [if_pos hs, if_pos (hspent.1 hs)]
    refine ⟨hblock, ⟨?_, ?_, ?_⟩⟩ <;> simp only [IdSupply.block] <;> lia
  · rw [if_neg hs, if_neg (hspent.not.1 hs)]
    refine ⟨hnext, ⟨?_, hstop, hblock⟩⟩
    show s.supply.next + 1 + m = s'.supply.next + 1 + n
    lia

/-- The sources of two states run in parallel, and both or neither keep a trace. -/
def Parallel {σ : Type} [Drawing σ] (n m : ℕ) (s s' : σ) : Prop :=
  (Drawing.source s).Parallel n m (Drawing.source s') ∧ Drawing.traced s = Drawing.traced s'

/-! ## Computations side by side -/

/-- Both computations succeeded, with what `view` shows of their results the same up to
identities, or both ran into the same fault. -/
inductive Outcomes {σ α β : Type} [Drawing σ] (n m : ℕ) (view : ℕ → α → β) :
    Except Fault (α × σ) → Except Fault (α × σ) → Prop
  | ok {a a' : α} {t t' : σ} (hview : view m a = view n a') (hstate : Parallel n m t t') :
      Outcomes n m view (.ok (a, t)) (.ok (a', t'))
  | error (fault : Fault) : Outcomes n m view (.error fault) (.error fault)

/-- From states in parallel the two computations have the same outcome up to identities. -/
def Mirrors {σ α β : Type} [Drawing σ] (n m : ℕ) (view : ℕ → α → β)
    (f f' : StateT σ (Except Fault) α) : Prop :=
  ∀ s s', Parallel n m s s' → Outcomes n m view (f s) (f' s')

namespace Mirrors

variable {σ α β γ δ : Type} [Drawing σ] {view : ℕ → α → β} {view' : ℕ → γ → δ}

theorem pure {a a' : α} (h : view m a = view n a') :
    Mirrors n m view (Pure.pure a : StateT σ (Except Fault) α) (Pure.pure a') :=
  fun _ _ hs => .ok h hs

/-- Computations in sequence mirror each other if their parts do. -/
theorem bind {f f' : StateT σ (Except Fault) α} {g g' : α → StateT σ (Except Fault) γ}
    (hf : Mirrors n m view f f')
    (hg : ∀ a a', view m a = view n a' → Mirrors n m view' (g a) (g' a')) :
    Mirrors n m view' (f >>= g) (f' >>= g') := by
  intro s s' hs
  show Outcomes n m view' ((f s).bind fun p => g p.1 p.2) ((f' s').bind fun p => g' p.1 p.2)
  have hfirst := hf s s' hs
  generalize f s = r at hfirst
  generalize f' s' = r' at hfirst
  cases hfirst with
  | ok hview hstate => exact hg _ _ hview _ _ hstate
  | error fault => exact .error fault

theorem map {f f' : StateT σ (Except Fault) α} {c c' : α → γ} (h : Mirrors n m view f f')
    (hc : ∀ a a', view m a = view n a' → view' m (c a) = view' n (c' a')) :
    Mirrors n m view' (c <$> f) (c' <$> f') :=
  .bind h fun a a' ha => .pure (hc a a' ha)

/-- Optional results that are the same up to identities. -/
theorem unlessSome (view : ℕ → α → β) (fault : Fault) {o o' : Option α}
    (h : o.map (view m) = o'.map (view n)) :
    Mirrors n m view (Inference.unlessSome fault o) (Inference.unlessSome fault o') := by
  intro s s' hs
  obtain ⟨rfl, rfl⟩ | ⟨a, a', rfl, rfl, ha⟩ := map_eq_map_cases h
  · exact .error fault
  · exact .ok ha hs

end Mirrors

/-- From sources in parallel the two computations give the same up to identities. -/
def Fresh.Mirrors {α β : Type} (n m : ℕ) (view : ℕ → α → β) (f f' : Fresh α) : Prop :=
  ∀ s s', s.Parallel n m s' →
    view m (f s).1 = view n (f' s').1 ∧ (f s).2.Parallel n m (f' s').2

namespace Fresh.Mirrors

variable {α β γ δ : Type} {view : ℕ → α → β} {view' : ℕ → γ → δ} {f f' : Fresh α}

theorem pure {a a' : α} (h : view m a = view n a') :
    Fresh.Mirrors n m view (Pure.pure a) (Pure.pure a') :=
  fun _ _ hs => ⟨h, hs⟩

theorem bind {g g' : α → Fresh γ} (hf : Fresh.Mirrors n m view f f')
    (hg : ∀ a a', view m a = view n a' → Fresh.Mirrors n m view' (g a) (g' a')) :
    Fresh.Mirrors n m view' (f >>= g) (f' >>= g') := by
  intro s s' hs
  obtain ⟨hview, hstate⟩ := hf s s' hs
  exact hg _ _ hview _ _ hstate

theorem freshId : Fresh.Mirrors n m (fun k id => id + k) freshId CoContextual.freshId :=
  fun _ _ hs => hs.draw

theorem lift (h : Fresh.Mirrors n m view f f') :
    CoContextual.Mirrors n m view (liftM f : Inference α) (liftM f') := by
  intro s s' hs
  obtain ⟨hview, hstate⟩ := h s s' hs.1
  exact .ok hview ⟨hstate, rfl⟩

end Fresh.Mirrors

/-! ## Types with fresh identities -/

theorem NodeId.mem_map_add {k : ℕ} {v : NodeId} {vs : List NodeId} :
    v + k ∈ vs.map (· + k) ↔ v ∈ vs := by simp

namespace Ty

theorem mirrors_fresh : Fresh.Mirrors n m renumber fresh fresh :=
  .bind .freshId fun id id' hid => .pure (by simp only [renumber_flexible, hid])

theorem mirrors_freshRigid : Fresh.Mirrors n m renumber freshRigid freshRigid :=
  .bind .freshId fun id id' hid => .pure (by simp only [renumber_var, TyVar.renumber, hid])

theorem mirrors_newPrimitive (kind : Primitive) :
    Fresh.Mirrors n m renumber (newPrimitive kind) (newPrimitive kind) :=
  .bind .freshId fun id id' hid => .pure (by simp only [renumber_primitive, hid])

theorem mirrors_newArrow {d d' c c' : Ty} (hd : d.renumber m = d'.renumber n)
    (hc : c.renumber m = c'.renumber n) :
    Fresh.Mirrors n m renumber (newArrow d c) (newArrow d' c') :=
  .bind .freshId fun id id' hid => .pure (by simp only [renumber_arrow, hid, hd, hc])

theorem mirrors_newProduct {ts ts' : List Ty} (h : ts.map (renumber m) = ts'.map (renumber n)) :
    Fresh.Mirrors n m renumber (newProduct ts) (newProduct ts') :=
  .bind .freshId fun id id' hid => .pure (by simp only [renumber_product, hid, h])

theorem mirrors_quantify {bound bound' : List TyVar} {body body' : Ty}
    (hbound : bound.map (TyVar.renumber m) = bound'.map (TyVar.renumber n))
    (hbody : body.renumber m = body'.renumber n) :
    Fresh.Mirrors n m renumber (quantify bound body) (quantify bound' body') := by
  have hempty : bound.isEmpty = bound'.isEmpty := by
    simpa using congrArg List.isEmpty hbound
  rw [quantify, quantify, hempty]
  split
  · exact .pure hbody
  · refine .bind .freshId fun id id' hid => .pure ?_
    simp only [renumber_scheme, hid, hbound, hbody]

theorem mirrors_ofArguments {ts ts' : List Ty} (h : ts.map (renumber m) = ts'.map (renumber n)) :
    Fresh.Mirrors n m renumber (ofArguments ts) (ofArguments ts') := by
  have hlength : ts.length = ts'.length := by simpa using congrArg List.length h
  match ts, ts' with
  | [], [] => exact mirrors_newPrimitive .unit
  | [t], [t'] => exact .pure (List.head_eq_of_cons_eq h)
  | t :: u :: ts, t' :: u' :: ts' => exact mirrors_newProduct h

theorem mirrors_generalize {t t' : Ty} {fixed fixed' : List NodeId}
    (ht : t.renumber m = t'.renumber n) (hfixed : fixed.map (· + m) = fixed'.map (· + n)) :
    Fresh.Mirrors n m renumber (t.generalize fixed) (t'.generalize fixed') := by
  -- which variables are quantified is told from the renumbered type
  have hbound : ∀ (k : ℕ) (t : Ty) (fixed : List NodeId),
      ((t.freeFlexible.filter fun v => v ∉ fixed).map TyVar.flexible).map (TyVar.renumber k)
        = ((t.renumber k).freeFlexible.filter fun v => v ∉ fixed.map (· + k)).map
          TyVar.flexible := by
    intro k t fixed
    rw [freeFlexible_renumber, List.filter_map, List.map_map, List.map_map]
    simp only [Function.comp_def, NodeId.mem_map_add, TyVar.renumber]
  refine mirrors_quantify ?_ ht
  rw [hbound, hbound, ht, hfixed]

theorem mirrors_quantifyRigid {t t' : Ty} (ht : t.renumber m = t'.renumber n) :
    Fresh.Mirrors n m renumber t.quantifyRigid t'.quantifyRigid := by
  have hbound : ∀ (k : ℕ) (t : Ty),
      (t.freeVarSet.filter TyVar.isRigid).map (TyVar.renumber k)
        = (t.renumber k).freeVarSet.filter TyVar.isRigid := by
    intro k t
    rw [freeVarSet_renumber, List.filter_map]
    simp [Function.comp_def]
  refine mirrors_quantify ?_ ht
  rw [hbound, hbound, ht]

/-- Of two lists of the same length, one fresh variable per member. -/
theorem mirrors_mapM_fresh {α α' : Type} {l : List α} {l' : List α'}
    (h : l.length = l'.length) :
    Fresh.Mirrors n m (fun k ts => ts.map (renumber k)) (l.mapM fun _ => fresh)
      (l'.mapM fun _ => fresh) := by
  induction l generalizing l' with
  | nil =>
    cases l' with
    | nil => exact .pure rfl
    | cons a' l' => cases h
  | cons a l ih =>
    cases l' with
    | nil => cases h
    | cons a' l' =>
      rw [List.mapM_cons, List.mapM_cons]
      refine .bind mirrors_fresh fun t t' ht => ?_
      refine .bind (ih (Nat.succ.inj h)) fun ts ts' hts => ?_
      exact .pure (by rw [List.map_cons, List.map_cons, ht, hts])

/-- What the quantified variables are replaced by, told from the renumbered variables and types. -/
theorem rename_zip_renumber (k : ℕ) (bound : List TyVar) (new : List Ty) (body : Ty) :
    (body.rename fun v => ((Table.ofList (bound.zip new)).get? v).getD (.var v)).renumber k
      = (body.renumber k).rename fun v =>
          ((Table.ofList ((bound.map (TyVar.renumber k)).zip (new.map (renumber k)))).get?
            v).getD (.var v) := by
  refine (rename_renumber k (fun v => ?_) body).symm
  have himage := Table.ofList_image (TyVar.compare_renumber k) (renumber k) (bound.zip new)
  have hzip : (bound.zip new).map (fun e => (e.1.renumber k, e.2.renumber k))
      = (bound.map (TyVar.renumber k)).zip (new.map (renumber k)) := List.zip_map.symm
  rw [← hzip, ← himage, Table.get?_image]
  cases (Table.ofList (bound.zip new)).get? v <;> simp

theorem mirrors_instantiate {t t' : Ty} (ht : t.renumber m = t'.renumber n) :
    Fresh.Mirrors n m renumber t.instantiate t'.instantiate := by
  rcases t with _ | _ | _ | _ | ⟨id, bound, body⟩ | _
  case scheme =>
    rcases t' with _ | _ | _ | _ | ⟨id', bound', body'⟩ | _
    case scheme =>
      rw [renumber_scheme, renumber_scheme] at ht
      obtain ⟨-, hbound, hbody⟩ := scheme.inj ht
      have hlength : bound.length = bound'.length := by simpa using congrArg List.length hbound
      refine .bind (mirrors_mapM_fresh hlength) fun new new' hnew => .pure ?_
      rw [rename_zip_renumber, rename_zip_renumber, hbound, hbody, hnew]
    all_goals simp at ht
  -- a type that is no scheme is its own instance
  all_goals
    cases t'
    case scheme => simp at ht
    all_goals exact .pure ht

end Ty

/-! ## Annotations -/

namespace TypeExpr

/-- The type that was read and the names met, with `k` added to every identity. -/
def view (k : ℕ) (p : Ty × Names) : Ty × Names := (p.1.renumber k, p.2.map (Ty.renumber k))

/-- The types that were read and the names met, with `k` added to every identity. -/
def viewAll (k : ℕ) (p : List Ty × Names) : List Ty × Names :=
  (p.1.map (Ty.renumber k), p.2.map (Ty.renumber k))

theorem mirrors_rigidFor (name : String) {names names' : Names}
    (h : names.map (Ty.renumber m) = names'.map (Ty.renumber n)) :
    Fresh.Mirrors n m view (rigidFor name names) (rigidFor name names') := by
  have hget : (names.get? name).map (Ty.renumber m) = (names'.get? name).map (Ty.renumber n) := by
    rw [← Table.get?_map, h, Table.get?_map]
  rw [rigidFor, rigidFor]
  obtain ⟨hnone, hnone'⟩ | ⟨known, known', hsome, hsome', hknown⟩ := map_eq_map_cases hget
  · rw [hnone, hnone']
    refine .bind Ty.mirrors_freshRigid fun new new' hnew => .pure ?_
    rw [view, view, Table.map_insert, Table.map_insert, hnew, h]
  · rw [hsome, hsome']
    exact .pure (by rw [view, view, hknown, h])

mutual

theorem mirrors_toTyWith : ∀ (a : TypeExpr) {names names' : Names},
    names.map (Ty.renumber m) = names'.map (Ty.renumber n) →
      Fresh.Mirrors n m view (a.toTyWith names) (a.toTyWith names')
  | named name, names, names', h => by
    rw [toTyWith, toTyWith]
    cases Primitive.ofName? name with
    | none => exact mirrors_rigidFor name h
    | some kind =>
      refine .bind (Ty.mirrors_newPrimitive kind) fun t t' ht => .pure ?_
      rw [view, view, ht, h]
  | arrow d c, names, names', h => by
    rw [toTyWith, toTyWith]
    refine .bind (mirrors_toTyWith d h) fun p p' hp => ?_
    obtain ⟨hdomain, hnames⟩ := Prod.mk.inj hp
    refine .bind (mirrors_toTyWith c hnames) fun q q' hq => ?_
    obtain ⟨hcodomain, hnames⟩ := Prod.mk.inj hq
    refine .bind (Ty.mirrors_newArrow hdomain hcodomain) fun t t' ht => .pure ?_
    rw [view, view, ht, hnames]
  | product cs, names, names', h => by
    rw [toTyWith, toTyWith]
    refine .bind (mirrors_toTysWith cs h) fun p p' hp => ?_
    obtain ⟨hcomponents, hnames⟩ := Prod.mk.inj hp
    refine .bind (Ty.mirrors_newProduct hcomponents) fun t t' ht => .pure ?_
    rw [view, view, ht, hnames]

theorem mirrors_toTysWith : ∀ (as : List TypeExpr) {names names' : Names},
    names.map (Ty.renumber m) = names'.map (Ty.renumber n) →
      Fresh.Mirrors n m viewAll (toTysWith as names) (toTysWith as names')
  | [], names, names', h => by
    rw [toTysWith, toTysWith]
    exact .pure (by rw [viewAll, viewAll, h]; rfl)
  | a :: as, names, names', h => by
    rw [toTysWith, toTysWith]
    refine .bind (mirrors_toTyWith a h) fun p p' hp => ?_
    obtain ⟨hfirst, hnames⟩ := Prod.mk.inj hp
    refine .bind (mirrors_toTysWith as hnames) fun q q' hq => .pure ?_
    obtain ⟨hrest, hnames⟩ := Prod.mk.inj hq
    rw [viewAll, viewAll, List.map_cons, List.map_cons, hfirst, hrest, hnames]

end

theorem mirrors_toTy (a : TypeExpr) : Fresh.Mirrors n m Ty.renumber a.toTy a.toTy :=
  .bind (mirrors_toTyWith a rfl) fun _ _ hp => .pure (congrArg Prod.fst hp)

end TypeExpr

/-! ## Expressions -/

section

variable {part part' : Placed Derivation} {parts parts' : List (Placed Derivation)}

theorem Derivation.type_item_mirrors (h : renumberIn m part = renumberIn n part') :
    part.item.type.renumber m = part'.item.type.renumber n := by
  rw [← type_renumber, ← item_renumberIn, h, item_renumberIn, type_renumber]

theorem Derivation.requirements_item_mirrors (h : renumberIn m part = renumberIn n part') :
    part.item.requirements.renumber m = part'.item.requirements.renumber n := by
  rw [← requirements_renumber, ← item_renumberIn, h, item_renumberIn, requirements_renumber]

theorem Derivation.ownSpans?_mirrors (h : renumberIn m part = renumberIn n part') :
    ownSpans? part = ownSpans? part' := by
  rw [← ownSpans?_renumber m, h, ownSpans?_renumber]

theorem Derivation.types_mirrors (h : parts.map (renumberIn m) = parts'.map (renumberIn n)) :
    (parts.map fun p => p.item.type).map (Ty.renumber m)
      = (parts'.map fun p => p.item.type).map (Ty.renumber n) := by
  have htypes : ∀ (k : ℕ) (ps : List (Placed Derivation)),
      (ps.map fun p => p.item.type).map (Ty.renumber k)
        = (ps.map (renumberIn k)).map fun p => p.item.type := by
    intro k ps
    simp [item_renumberIn, type_renumber]
  rw [htypes, htypes, h]

end

theorem Requirements.add_mirrors {r r' : Requirements} {t t' : Ty} (token : Ident)
    (hr : r.renumber m = r'.renumber n) (ht : t.renumber m = t'.renumber n) :
    (r.add token t).renumber m = (r'.add token t').renumber n := by
  rw [← add_renumber, hr, ht, add_renumber]

namespace Derivation

theorem mirrors_ofAtom (a : Atom) : Mirrors n m renumber (ofAtom a) (ofAtom a) := by
  -- what is left to do once the type is made
  have hrest : ∀ {t t' : Ty} {r r' : Requirements}, t.renumber m = t'.renumber n →
      r.renumber m = r'.renumber n →
      Mirrors n m renumber
        (do return .atom t r (← Inference.unlessSome .overflow (Span.ofText? a.text)))
        (do return .atom t' r' (← Inference.unlessSome .overflow (Span.ofText? a.text))) := by
    intro t t' r r' ht hr
    refine .bind (.unlessSome (fun _ span => span) .overflow rfl) fun span span' hspan => .pure ?_
    rw [renumber, renumber, ht, hr, hspan]
  cases a with
  | name text =>
    exact .bind Ty.mirrors_fresh.lift fun t t' ht =>
      hrest ht (Requirements.add_mirrors _ rfl ht)
  | literal form text =>
    exact .bind (Ty.mirrors_newPrimitive _).lift fun t t' ht => hrest ht rfl

theorem mirrors_ofUnary (operator : String) (span : Span) {operand operand' : Placed Derivation}
    (h : renumberIn m operand = renumberIn n operand') :
    Fresh.Mirrors n m renumber (ofUnary operator span operand)
      (ofUnary operator span operand') := by
  refine .bind Ty.mirrors_fresh fun t t' ht => ?_
  refine .bind (Ty.mirrors_newArrow (type_item_mirrors h) ht) fun u u' hu => .pure ?_
  rw [renumber, renumber, h, Operation.renumber, Operation.renumber, ht, hu,
    Requirements.add_mirrors _ (requirements_item_mirrors h) hu]

theorem mirrors_ofBinary (operator : String) (span : Span)
    {lhs lhs' rhs rhs' : Placed Derivation} (hl : renumberIn m lhs = renumberIn n lhs')
    (hr : renumberIn m rhs = renumberIn n rhs') :
    Fresh.Mirrors n m renumber (ofBinary lhs operator span rhs)
      (ofBinary lhs' operator span rhs') := by
  have hrequirements : (lhs.item.requirements ++ rhs.item.requirements).renumber m
      = (lhs'.item.requirements ++ rhs'.item.requirements).renumber n := by
    rw [← Requirements.append_renumber, requirements_item_mirrors hl,
      requirements_item_mirrors hr, Requirements.append_renumber]
  refine .bind Ty.mirrors_fresh fun t t' ht => ?_
  refine .bind (Ty.mirrors_newProduct ?_) fun u u' hu => ?_
  · simp only [List.map_cons, List.map_nil, type_item_mirrors hl, type_item_mirrors hr]
  refine .bind (Ty.mirrors_newArrow hu ht) fun v v' hv => .pure ?_
  rw [renumber, renumber, hl, hr, Operation.renumber, Operation.renumber, ht, hv,
    Requirements.add_mirrors _ hrequirements hv]

theorem mirrors_ofMissing : Fresh.Mirrors n m renumber ofMissing ofMissing :=
  .bind .freshId fun id id' hid => .pure (by simp only [renumber, Ty.renumber_invalid, hid])

end Derivation

/-! ## Calls -/

/-- Unifications that are the same up to identities both succeed or both fail. -/
theorem Attempt.mirrors_cases {a a' : Attempt} (h : a.renumber m = a'.renumber n) :
    (∃ s s', a.result = .ok s ∧ a'.result = .ok s' ∧ s.renumber m = s'.renumber n) ∨
      ∃ e e', a.result = .error e ∧ a'.result = .error e' ∧ e.renumber m = e'.renumber n := by
  have hresult : renumberResult m a.result = renumberResult n a'.result := congrArg result h
  cases hr : a.result with
  | ok s =>
    cases hr' : a'.result with
    | ok s' =>
      rw [hr, hr'] at hresult
      exact .inl ⟨s, s', rfl, rfl, Except.ok.inj hresult⟩
    | error e' =>
      rw [hr, hr'] at hresult
      cases hresult
  | error e =>
    cases hr' : a'.result with
    | ok s' =>
      rw [hr, hr'] at hresult
      cases hresult
    | error e' =>
      rw [hr, hr'] at hresult
      exact .inr ⟨e, e', rfl, rfl, Except.error.inj hresult⟩

theorem UnifyError.category_mirrors {e e' : UnifyError} (h : e.renumber m = e'.renumber n) :
    e.category = e'.category := by
  rw [← category_renumber m, h, category_renumber]

theorem CallSite.fitting?_renumber (k : ℕ) (inherited : Requirements) (result expected : Ty)
    (s : Substitution) :
    fitting? (inherited.renumber k) (result.renumber k) (expected.renumber k) (s.renumber k)
      = (fitting? inherited result expected s).map (CallSite.renumber k) := by
  simp only [fitting?, Requirements.substitute?_renumber, Substitution.applyTo?_renumber]
  cases inherited.substitute? s with
  | none => rfl
  | some p =>
    cases s.applyTo? result with
    | none => rfl
    | some type =>
      cases s.applyTo? expected with
      | none => rfl
      | some functionType =>
        have horigins := Origins.ofResolved_renumber k (p.2 ++ [type, functionType])
        simpa [CallSite.renumber] using horigins

/-- The reports of calls that do not fit agree in all but their texts. -/
theorem CallSite.clashing?_mirrors {inherited inherited' : Requirements}
    {callee callee' : Placed Derivation} {result result' domain domain' expected expected' : Ty}
    {e e' : UnifyError} (span : Span) (hinherited : inherited.renumber m = inherited'.renumber n)
    (hcallee : Derivation.renumberIn m callee = Derivation.renumberIn n callee')
    (hresult : result.renumber m = result'.renumber n)
    (hexpected : expected.renumber m = expected'.renumber n) (he : e.category = e'.category) :
    (clashing? inherited callee span result domain expected e).map (CallSite.renumber m)
      = (clashing? inherited' callee' span result' domain' expected' e').map
          (CallSite.renumber n) := by
  have hid : result.id + m = result'.id + n := by
    rw [← Ty.id_renumber, hresult, Ty.id_renumber]
  have hid' : expected.id + m = expected'.id + n := by
    rw [← Ty.id_renumber, hexpected, Ty.id_renumber]
  rw [clashing?, clashing?, Derivation.ownSpans?_mirrors hcallee]
  cases Derivation.ownSpans? callee' with
  | none => rfl
  | some places =>
    show some _ = some _
    simp only [CallSite.renumber, Ty.renumber_invalid, hid, hid', hinherited, he]
    rw [Diagnostic.wordless_atEach]
    rfl

namespace Derivation

theorem inheritedRequirements_renumber (k : ℕ) (callee : Placed Derivation)
    (arguments : List (Placed Derivation)) :
    inheritedRequirements (renumberIn k callee) (arguments.map (renumberIn k))
      = (inheritedRequirements callee arguments).renumber k := by
  rw [inheritedRequirements, inheritedRequirements, item_renumberIn, requirements_renumber]
  generalize callee.item.requirements = acc
  induction arguments generalizing acc with
  | nil => rfl
  | cons a arguments ih =>
    rw [List.map_cons, List.foldl_cons, List.foldl_cons, item_renumberIn, requirements_renumber,
      Requirements.append_renumber, ih]

theorem mirrors_ofCall {callee callee' : Placed Derivation}
    {arguments arguments' : List (Placed Derivation)} (span : Span)
    (hcallee : renumberIn m callee = renumberIn n callee')
    (harguments : arguments.map (renumberIn m) = arguments'.map (renumberIn n)) :
    Mirrors n m (fun k p => p.1.renumber k) (ofCall callee arguments span)
      (ofCall callee' arguments' span) := by
  have hinherited : (inheritedRequirements callee arguments).renumber m
      = (inheritedRequirements callee' arguments').renumber n := by
    rw [← inheritedRequirements_renumber, hcallee, harguments, inheritedRequirements_renumber]
  refine .bind Ty.mirrors_fresh.lift fun result result' hresult => ?_
  refine .bind (Ty.mirrors_ofArguments (types_mirrors harguments)).lift
    fun domain domain' hdomain => ?_
  refine .bind (Ty.mirrors_newArrow hdomain hresult).lift fun expected expected' hexpected => ?_
  refine .bind (.unlessSome Attempt.renumber .diverges ?_)
    fun attempt attempt' hattempt => ?_
  · rw [← Substitution.unify?_renumber, ← Substitution.unify?_renumber,
      type_item_mirrors hcallee, hexpected]
    rfl
  have hcall : ∀ site site' : CallSite, site.renumber m = site'.renumber n →
      Mirrors n m (fun k (p : Derivation × List Step) => p.1.renumber k)
        (pure (.call site callee arguments, attempt.steps) : Inference _)
        (pure (.call site' callee' arguments', attempt'.steps)) := by
    intro site site' hsite
    refine .pure ?_
    rw [renumber, renumber, hsite, hcallee, renumberInAll_eq_map, renumberInAll_eq_map,
      harguments]
  -- both calls fit, or both are reported
  obtain ⟨s, s', hs, hs', hstore⟩ | ⟨e, e', he, he', hcategory⟩ := Attempt.mirrors_cases hattempt
  · simp only [hs, hs']
    refine .bind (.unlessSome CallSite.renumber .diverges ?_) hcall
    rw [← CallSite.fitting?_renumber, ← CallSite.fitting?_renumber, hinherited, hresult,
      hexpected, hstore]
  · simp only [he, he']
    refine .bind (.unlessSome CallSite.renumber .overflow ?_) hcall
    exact CallSite.clashing?_mirrors span hinherited hcallee hresult hexpected
      (UnifyError.category_mirrors hcategory)

end Derivation

/-! ## Statements -/

namespace Declaration

variable {value value' : Placed Derivation}

theorem mirrors_unannotated (name : Ident)
    (h : Derivation.renumberIn m value = Derivation.renumberIn n value') :
    Fresh.Mirrors n m renumber (unannotated name value.item) (unannotated name value'.item) := by
  have hrequirements := Derivation.requirements_item_mirrors h
  refine .bind (Ty.mirrors_generalize (Derivation.type_item_mirrors h) ?_)
    fun binding binding' hbinding => .pure ?_
  · rw [← Requirements.freeFlexible_renumber, hrequirements, Requirements.freeFlexible_renumber]
  · simp only [renumber, hbinding, hrequirements]
    rfl

theorem mirrors_fitting (name : Ident) (span : Span) {t t' : Ty} {s s' : Substitution}
    (h : Derivation.renumberIn m value = Derivation.renumberIn n value')
    (ht : t.renumber m = t'.renumber n) (hs : s.renumber m = s'.renumber n) :
    Mirrors n m renumber (fitting name ⟨t, span⟩ value.item s)
      (fitting name ⟨t', span⟩ value'.item s') := by
  refine .bind (.unlessSome Resolved.renumber .diverges ?_) fun declared declared' hdeclared => ?_
  · rw [← Substitution.applyTo?_renumber, ht, hs, Substitution.applyTo?_renumber]
  refine .bind (.unlessSome
    (fun k (p : Requirements × List Resolved) => (p.1.renumber k, p.2.map (Resolved.renumber k)))
    .diverges ?_) fun p p' hp => ?_
  · rw [← Requirements.substitute?_renumber, Derivation.requirements_item_mirrors h, hs,
      Requirements.substitute?_renumber]
  obtain ⟨hrequirements, hreplaced⟩ := Prod.mk.inj hp
  have horigins : Origins.renumber m (.ofResolved (declared :: p.2))
      = Origins.renumber n (.ofResolved (declared' :: p'.2)) := by
    rw [← Origins.ofResolved_renumber, List.map_cons, hdeclared, hreplaced, ← List.map_cons,
      Origins.ofResolved_renumber]
  refine .bind (Ty.mirrors_quantifyRigid (congrArg Resolved.type hdeclared)).lift
    fun binding binding' hbinding => .pure ?_
  simp only [renumber, Option.map_some, Located.map, ht, hs, hbinding, hrequirements, horigins,
    List.map_nil]

theorem mirrors_clashing (name : Ident) (span : Span) {t t' : Ty}
    (h : Derivation.renumberIn m value = Derivation.renumberIn n value')
    (ht : t.renumber m = t'.renumber n) :
    Mirrors n m renumber (clashing name ⟨t, span⟩ value) (clashing name ⟨t', span⟩ value') := by
  refine .bind (.unlessSome (fun _ places => places) .overflow ?_) fun places places' hplaces => ?_
  · rw [Derivation.ownSpans?_mirrors h]
  refine .bind (Ty.mirrors_quantifyRigid ht).lift fun binding binding' hbinding => .pure ?_
  simp only [renumber, Option.map_some, Located.map, ht, hbinding,
    Derivation.requirements_item_mirrors h, hplaces]
  rw [Diagnostic.wordless_atEach]
  rfl

theorem mirrors_annotated (name : Ident) (written : Located TypeExpr)
    (h : Derivation.renumberIn m value = Derivation.renumberIn n value') :
    Mirrors n m (fun k p => p.1.renumber k) (annotated name written value)
      (annotated name written value') := by
  refine .bind written.item.mirrors_toTy.lift fun t t' ht => ?_
  refine .bind (.unlessSome Attempt.renumber .diverges ?_) fun attempt attempt' hattempt => ?_
  · rw [← Substitution.unify?_renumber, ← Substitution.unify?_renumber,
      Derivation.type_item_mirrors h, ht]
    rfl
  obtain ⟨s, s', hs, hs', hstore⟩ | ⟨e, e', he, he', -⟩ := Attempt.mirrors_cases hattempt
  · simp only [hs, hs']
    exact .bind (mirrors_fitting name written.span h ht hstore) fun _ _ hdeclaration =>
      .pure hdeclaration
  · simp only [he, he']
    exact .bind (mirrors_clashing name written.span h ht) fun _ _ hdeclaration =>
      .pure hdeclaration

end Declaration

theorem Statement.mirrors_ofDeclaration (name : Ident) (ascription : Option (Located TypeExpr))
    {value value' : Placed Derivation}
    (h : Derivation.renumberIn m value = Derivation.renumberIn n value') :
    Mirrors n m (fun k p => p.1.renumber k) (ofDeclaration name ascription value)
      (ofDeclaration name ascription value') := by
  cases ascription with
  | none =>
    refine .bind (Declaration.mirrors_unannotated name h).lift fun d d' hd => .pure ?_
    rw [renumber, renumber, hd, h]
  | some written =>
    refine .bind (Declaration.mirrors_annotated name written h) fun p p' hp => .pure ?_
    rw [renumber, renumber, hp, h]

/-! ## Discharges -/

theorem mirrors_linking {uses uses' : List Use} {s s' : Substitution}
    (huses : uses.map (Use.renumber m) = uses'.map (Use.renumber n))
    (hs : s.renumber m = s'.renumber n) :
    Mirrors n m
      (fun k (p : Substitution × List Failure) =>
        (p.1.renumber k, p.2.map (Failure.renumber k)))
      (linking uses s) (linking uses' s') := by
  -- a use that fails leaves the store as it was, so the stores are the same in either case
  induction uses generalizing uses' s s' with
  | nil =>
    cases uses' with
    | nil => exact .pure (by rw [hs]; rfl)
    | cons use' uses' => cases huses
  | cons use uses ih =>
    cases uses' with
    | nil => cases huses
    | cons use' uses' =>
      obtain ⟨huse, huses⟩ := List.cons.inj huses
      obtain ⟨-, hrequired, hdeclared⟩ := Use.mk.inj huse
      refine .bind (Ty.mirrors_instantiate hdeclared).lift fun t t' ht => ?_
      refine .bind (.unlessSome Attempt.renumber .diverges ?_) fun attempt attempt' hattempt => ?_
      · rw [← Substitution.unify?_renumber, hs, hrequired, ht, Substitution.unify?_renumber]
      obtain ⟨u, u', hu, hu', hstore⟩ | ⟨e, e', he, he', herror⟩ :=
        Attempt.mirrors_cases hattempt
      · simp only [hu, hu']
        exact ih huses hstore
      · simp only [he, he']
        refine .bind (ih huses hs) fun p p' hp => .pure ?_
        obtain ⟨hstore, hfailures⟩ := Prod.mk.inj hp
        rw [hstore, List.map_cons, List.map_cons, hfailures, Failure.renumber, Failure.renumber,
          huse, herror]

theorem Requirements.mirrors_discharging {r r' : Requirements} {b b' : Bindings}
    {s s' : Substitution} (hr : r.renumber m = r'.renumber n) (hb : b.renumber m = b'.renumber n)
    (hs : s.renumber m = s'.renumber n) :
    Mirrors n m Discharge.renumber (r.discharging b s) (r'.discharging b' s') := by
  have huses : (r.declaredUses b).map (Use.renumber m)
      = (r'.declaredUses b').map (Use.renumber n) := by
    rw [← declaredUses_renumber, hr, hb, declaredUses_renumber]
  have hundeclared : (r.undeclared b).renumber m = (r'.undeclared b').renumber n := by
    rw [← undeclared_renumber, hr, hb, undeclared_renumber]
  rw [discharging_eq, discharging_eq]
  refine .bind (mirrors_linking huses hs) fun p p' hp => .pure ?_
  obtain ⟨hstore, hfailures⟩ := Prod.mk.inj hp
  rw [Discharge.renumber, Discharge.renumber, hstore, hundeclared, hfailures]

/-! ## The typer -/

namespace Typer

variable {α β : Type} {view : ℕ → α → β}

theorem mirrors_infer {rule rule' : Inference α} (h : Mirrors n m view rule rule') :
    Mirrors n m view (infer rule) (infer rule') := by
  intro g g' hg
  have hrule := h g.ids g'.ids ⟨hg.1, rfl⟩
  unfold infer
  rw [StateT.run, StateT.run]
  generalize rule g.ids = r at hrule ⊢
  generalize rule' g'.ids = r' at hrule ⊢
  cases hrule with
  | ok hview hids => exact .ok hview ⟨hids.1, hg.2⟩
  | error fault => exact .error fault

theorem mirrors_fresh {f f' : Fresh α} (h : Fresh.Mirrors n m view f f') :
    Mirrors n m view (fresh f) (fresh f') :=
  mirrors_infer h.lift

/-- States stay in parallel if nothing is drawn. -/
theorem parallel_of_after {g g' t t' : Typer} (h : Parallel n m g g') (ht : After 0 g t)
    (ht' : After 0 g' t') : Parallel n m t t' := by
  obtain ⟨hids, htracing⟩ := h
  refine ⟨?_, (ht.2.trans htracing).trans ht'.2.symm⟩
  rw [ht.1, ht'.1]
  exact hids

theorem mirrors_observe (steps steps' : List Step) :
    Mirrors n m (fun _ u => u) (observe steps) (observe steps') := by
  intro g g' hg
  obtain ⟨t, hrun, hafter⟩ := observe_run steps g
  obtain ⟨t', hrun', hafter'⟩ := observe_run steps' g'
  rw [hrun, hrun']
  exact .ok rfl (parallel_of_after hg hafter hafter')

/-- Whether a trace can be kept is told from what the findings are, up to their texts. -/
theorem mirrors_record (rule : Rule) {type type' : Ty} {detail detail' : String}
    {requirements requirements' : Requirements} {findings findings' : Option (List Diagnostic)}
    (h : findings.isSome = findings'.isSome) :
    Mirrors n m (fun _ u => u) (record rule type detail requirements findings)
      (record rule type' detail' requirements' findings') := by
  intro g g' hg
  have htracing : g.tracing = g'.tracing := hg.2
  obtain ⟨ht, hnone, hrun⟩ | ⟨hsome, t, hrun, hafter⟩ :=
    record_run rule type detail requirements findings g <;>
  obtain ⟨ht', hnone', hrun'⟩ | ⟨hsome', t', hrun', hafter'⟩ :=
    record_run rule type' detail' requirements' findings' g' <;>
  rw [hrun, hrun']
  · exact .error .overflow
  · simp [hnone, ← h, ← htracing, ht] at hsome'
  · simp [hnone', h, htracing, ht'] at hsome
  · exact .ok rfl (parallel_of_after hg hafter hafter')

theorem mirrors_recordExpression (rule : Rule) {detail detail' : String} {d d' : Derivation}
    (h : d.renumber m = d'.renumber n) :
    Mirrors n m Derivation.renumber (recordExpression rule detail d)
      (recordExpression rule detail' d') := by
  refine .bind (mirrors_record rule ?_) fun _ _ _ => .pure h
  have hfindings := congrArg Derivation.diagnostics? h
  rw [Derivation.diagnostics?_renumber, Derivation.diagnostics?_renumber] at hfindings
  simpa using congrArg Option.isSome hfindings

theorem mirrors_recordStatement (rule : Rule) {detail detail' : String} {s s' : Statement}
    (h : s.renumber m = s'.renumber n) :
    Mirrors n m Statement.renumber (recordStatement rule detail s)
      (recordStatement rule detail' s') := by
  refine .bind (mirrors_record rule ?_) fun _ _ _ => .pure h
  have hfindings := congrArg Statement.diagnostics? h
  rw [Statement.diagnostics?_renumber, Statement.diagnostics?_renumber] at hfindings
  simpa using congrArg Option.isSome hfindings

theorem mirrors_atom (a : Atom) : Mirrors n m Derivation.renumber (atom a) (atom a) :=
  .bind (mirrors_infer (Derivation.mirrors_ofAtom a)) fun _ _ h => mirrors_recordExpression _ h

theorem mirrors_missing : Mirrors n m Derivation.renumber missing missing :=
  .bind (mirrors_fresh Derivation.mirrors_ofMissing) fun _ _ h => mirrors_recordExpression _ h

section

variable {part part' lhs lhs' rhs rhs' : Placed Derivation}
  {parts parts' : List (Placed Derivation)}

theorem mirrors_grouping (h : Derivation.renumberIn m part = Derivation.renumberIn n part') :
    Mirrors n m Derivation.renumber (grouping part) (grouping part') :=
  mirrors_recordExpression _ (by rw [Derivation.renumber, Derivation.renumber, h])

theorem mirrors_unary (operator : String) (span : Span)
    (h : Derivation.renumberIn m part = Derivation.renumberIn n part') :
    Mirrors n m Derivation.renumber (unary operator span part) (unary operator span part') :=
  .bind (mirrors_fresh (Derivation.mirrors_ofUnary operator span h)) fun _ _ h =>
    mirrors_recordExpression _ h

theorem mirrors_binary (operator : String) (span : Span)
    (hl : Derivation.renumberIn m lhs = Derivation.renumberIn n lhs')
    (hr : Derivation.renumberIn m rhs = Derivation.renumberIn n rhs') :
    Mirrors n m Derivation.renumber (binary lhs operator span rhs)
      (binary lhs' operator span rhs') :=
  .bind (mirrors_fresh (Derivation.mirrors_ofBinary operator span hl hr)) fun _ _ h =>
    mirrors_recordExpression _ h

theorem mirrors_call (span : Span)
    (h : Derivation.renumberIn m part = Derivation.renumberIn n part')
    (hparts : parts.map (Derivation.renumberIn m) = parts'.map (Derivation.renumberIn n)) :
    Mirrors n m Derivation.renumber (call part parts span) (call part' parts' span) :=
  .bind (mirrors_infer (Derivation.mirrors_ofCall span h hparts)) fun _ _ hd =>
    .bind (mirrors_observe _ _) fun _ _ _ => mirrors_recordExpression _ hd

theorem mirrors_declare (name : Ident) (ascription : Option (Located TypeExpr))
    (h : Derivation.renumberIn m part = Derivation.renumberIn n part') :
    Mirrors n m Statement.renumber (declare name ascription part)
      (declare name ascription part') :=
  .bind (mirrors_infer (Statement.mirrors_ofDeclaration name ascription h)) fun _ _ hs =>
    .bind (mirrors_observe _ _) fun _ _ _ => mirrors_recordStatement _ hs

theorem mirrors_ret (h : Derivation.renumberIn m part = Derivation.renumberIn n part') :
    Mirrors n m Statement.renumber (ret part) (ret part') :=
  mirrors_recordStatement _ (by rw [Statement.renumber, Statement.renumber, h])

end

end Typer

end CoContextual
