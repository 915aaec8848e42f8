import CoContextual.Family
import CoContextual.Proofs.Expression.Line
import CoContextual.Proofs.Expression.Runs
import CoContextual.Proofs.Typing.Definite

/-!
# Calls inside one another

`Family.nestedCalls depth` makes a derivation of `f(f(...f(1)...))` at every depth for which the
columns fit their word, and links it with a declaration of `f` (`Family.nestedCalls_links`). The
uses of `f` are listed from the outermost call inwards. Each leads from the type of what is inside
its call to the type of the call, so that the types of neighbouring calls hang together, and the
type of the innermost argument decides those of all calls.

What is inside a call is made before the call, and keeps its uses when they are taken over: the
variable that the call replaces is that of its own callee (`Family.inferred_nested_succ`).

Discharging starts with the outermost use, when the type of the innermost argument is not known yet.
That this does not matter is seen from the judgement: with either declaration `i32` is the only type
of the whole expression (`Family.definite_nested`), so that the last use decides all types.
-/

namespace CoContextual

/-! ## What is inside a call -/

namespace Derivation

/-- The argument of a call that has one argument. -/
def argument? : Derivation → Option Derivation
  | call _ _ [argument] => some argument.item
  | _ => none

/-- What is inside the `k` outermost calls, if these have one argument each. -/
def inside? : ℕ → Derivation → Option Derivation
  | 0, d => some d
  | k + 1, d => do inside? k (← d.argument?)

end Derivation

/-- The place that is found for one of some types. -/
theorem Traces.getElem? {search : NodeId → Option (List Span)} {types : List Ty}
    {spans : List Span} (h : Traces search types spans) {k : ℕ} {t : Ty} {span : Span}
    (ht : types[k]? = some t) (hspan : spans[k]? = some span) : search t.id = some [span] := by
  induction h generalizing k with
  | nil => simp at ht
  | cons hone _ ih =>
    cases k with
    | zero =>
      cases ht
      cases hspan
      exact hone
    | succ k => exact ih ht hspan

namespace Family

/-! ## The expression -/

/-- Calls of `f` inside one another, `depth` deep, around the literal `1`. -/
def nested : ℕ → Expr
  | 0 => .atom (.literal .int "1")
  | depth + 1 =>
    .call ⟨.zero, .atom (.name "f")⟩ [⟨.atColumn 2, nested depth⟩] (.columns 1 3)

theorem literalCalls?_callee : (Expr.atom (.name "f")).literalCalls? = some [] :=
  Expr.literalCalls?_atom (by decide) (by decide)

theorem literalCalls?_nested (depth : ℕ) : (nested depth).literalCalls? = some [] := by
  induction depth with
  | zero => exact Expr.literalCalls?_atom (by decide) (by decide)
  | succ depth ih =>
    rw [nested, Expr.literalCalls?, Expr.literalCallsInAll?, Expr.literalCallsInAll?,
      Expr.literalCallsIn?, Expr.literalCallsIn?, literalCalls?_callee, ih]
    rfl

/-- Where `f` stands for the call that is inside `k` others. -/
def calleeSpan (k : ℕ) : Span := .columns (2 * k) (2 * k + 1)

theorem occurrences?_nested {depth : ℕ} (h : 2 * depth ≤ UInt32.size) :
    (nested depth).occurrences?
      = some ((List.range depth).map fun k => ⟨.name "f", calleeSpan k⟩) := by
  induction depth with
  | zero => rw [nested, Expr.occurrences?]; rfl
  | succ depth ih =>
    have hcallee : Expr.occurrencesIn? ⟨.zero, .atom (.name "f")⟩
        = some [⟨.name "f", calleeSpan 0⟩] :=
      Expr.occurrencesIn?_name (k := 0) (by decide) (by decide)
    -- what is inside the call stands two columns further to the right
    have hshift : ((List.range depth).map fun k => Occurrence.mk (.name "f") (calleeSpan k)).mapM
          (fun o => o.shift? (.atColumn 2))
        = some ((List.range depth).map fun k => ⟨.name "f", calleeSpan (k + 1)⟩) := by
      rw [List.mapM_map]
      refine mapM_eq_some_map fun k hk => ?_
      have hk := List.mem_range.1 hk
      rw [Function.comp_apply, Occurrence.shift?, calleeSpan,
        Span.shift?_columns (by omega) (by omega)]
      rw [calleeSpan, show 2 * (k + 1) = 2 + 2 * k by omega]
      rfl
    rw [nested, Expr.occurrences?, hcallee, Expr.occurrencesInAll?, Expr.occurrencesInAll?,
      Expr.occurrencesIn?, ih (by omega)]
    simp only [Option.bind_eq_bind, Option.bind_some, hshift, Option.pure_def, List.append_nil,
      List.range_succ_eq_map, List.map_cons, List.map_map]
    rfl

/-! ## The run -/

/-- The calls are made one after the other, from the innermost outwards. -/
theorem nestedCalls_run {g₀ g : Typer} {trees : List (Expr × Derivation)} (depth : ℕ)
    (h : Session g₀ g trees) (hids : g₀.ids.Distinct (g.ids.advance (3 * depth + 1))) :
    ∃ d g', nestedCalls depth g = .ok (d, g') ∧ g'.ids = g.ids.advance (3 * depth + 1) ∧
      Session g₀ g' ((nested depth, d) :: trees) := by
  induction depth with
  | zero => exact (Applies.atom _).exists_ok h hids (literalCalls?_nested 0)
  | succ depth ih =>
    have hadvance : g.ids.advance (3 * (depth + 1) + 1)
        = ((g.ids.advance (3 * depth + 1)).advance 1).advance 2 := by
      rw [← IdSource.advance_add, ← IdSource.advance_add]
      rfl
    rw [hadvance] at hids ⊢
    have hcallee := hids.of_reaches (IdSource.reaches_advance 2 _)
    obtain ⟨d, g₁, hrun, hg₁, h₁⟩ := ih (hcallee.of_reaches (IdSource.reaches_advance 1 _))
    rw [← hg₁] at hids hcallee ⊢
    obtain ⟨callee, g₂, hatom, hg₂, h₂⟩ :=
      (Applies.atom (.name "f")).exists_ok h₁ hcallee literalCalls?_callee
    rw [← show g₂.ids = g₁.ids.advance 1 from hg₂] at hids ⊢
    obtain ⟨d', g₃, hcall, hg₃, h₃⟩ :=
      (Applies.call ⟨.zero, _⟩ [⟨.atColumn 2, _⟩] (.columns 1 3) (.refl _)).exists_ok h₂ hids
        (literalCalls?_nested (depth + 1))
    refine ⟨d', g₃, ?_, hg₃, h₃⟩
    exact bind_eq_ok.2 ⟨d, g₁, hrun, bind_eq_ok.2 ⟨callee, g₂, hatom, hcall⟩⟩

/-! ## What the calls require -/

/-- A call around other calls: its own use comes before theirs, which stay as they are. -/
theorem inferred_nested_succ {depth : ℕ} {d : Derivation} {ids : List NodeId}
    (h : Inferred (nested (depth + 1)) d ids) (hnodup : ids.Nodup) :
    ∃ inner ids' arrow result, d.argument? = some inner ∧ Inferred (nested depth) inner ids' ∧
      ids'.Nodup ∧ d.type = .flexible result ∧
      d.requirements.get (.name "f")
        = .arrow arrow inner.type (.flexible result) :: inner.requirements.get (.name "f") := by
  generalize hexpr : nested (depth + 1) = e at h
  cases h with
  | @call _ d _ extra domain site offset arguments span result arrow hdomain hsite _ h hargs =>
    obtain ⟨hcallee, harguments, rfl⟩ := Expr.call.inj hexpr
    obtain ⟨rfl, rfl⟩ := Placed.mk.inj hcallee
    obtain ⟨p, rfl, hp⟩ := List.map_eq_singleton_iff.1 harguments.symm
    obtain ⟨offset', part⟩ := p
    obtain ⟨rfl, hpart⟩ := Placed.mk.inj hp
    have hinner := hargs _ (.head _)
    have hapart := CallSite.Apart.of_nodup hnodup
    rw [hpart] at hinner
    cases hdomain with | one =>
    cases h with | @name _ v nameSpan _ =>
    cases hsite with
    | fits hvar s horigins hs =>
      obtain rfl := TyVar.flexible.inj (Ty.var.inj hvar)
      refine ⟨part.derivation, part.ids, arrow, result, rfl, hinner,
        hapart.argument_nodup (.head _), rfl, ?_⟩
      -- the variable of the callee is not in what the argument requires
      have hkept : ∀ t ∈ part.derivation.requirements.get (.name "f"),
          t.substitute (Ty.only v (.arrow arrow part.derivation.type (.flexible result))) = t := by
        intro t ht
        have hover := hinner.over _ t ht
        refine Ty.substitute_self hover.schemeFree fun w hw => Ty.only_of_ne ?_ _
        rintro rfl
        exact hapart.disjoint (.head _) (by simpa using hover.mentions_mem w hw)
      have hinherited : (Derivation.inheritedRequirements
          ⟨.zero, .atom (.flexible v) (Requirements.empty.add (.name "f") (.flexible v)) nameSpan⟩
          [⟨.atColumn 2, part.derivation⟩]).get (.name "f")
            = .flexible v :: part.derivation.requirements.get (.name "f") := by
        rw [Derivation.get_inheritedRequirements, List.flatMap_singleton]
        rfl
      refine (Requirements.get_mapTypes _ _ _).trans ((congrArg (List.map _) hinherited).trans ?_)
      rw [List.map_cons, Ty.substitute_flexible, Ty.only_self, List.map_congr_left hkept,
        List.map_id']
    | absorbs hinvalid => cases hinvalid
    | clashes hprimitive => cases hprimitive
  | _ => cases hexpr

/-- The types that hang together in calls inside one another. -/
structure Chained (depth : ℕ) (d : Derivation) : Prop where
  /-- There is one use for each call. -/
  length : (d.requirements.get (.name "f")).length = depth
  /-- Uses are listed from the outermost call inwards. Each leads from the type of what is inside
  the call to the type of the call, which is a variable. -/
  links : ∀ k < depth, ∃ outer inner arrow result,
    d.inside? k = some outer ∧ d.inside? (k + 1) = some inner ∧ outer.type = .flexible result ∧
    (d.requirements.get (.name "f"))[k]? = some (.arrow arrow inner.type outer.type)
  /-- Inside all calls there is an integer. -/
  innermost : ∃ inner i, d.inside? depth = some inner ∧ inner.type = .primitive i .i32

theorem chained_of_inferred {depth : ℕ} {d : Derivation} {ids : List NodeId}
    (h : Inferred (nested depth) d ids) (hnodup : ids.Nodup) : Chained depth d := by
  induction depth generalizing d ids with
  | zero =>
    cases h with
    | literal form text i hspan =>
      exact ⟨rfl, fun k hk => absurd hk (Nat.not_lt_zero k), _, i, rfl, rfl⟩
  | succ depth ih =>
    obtain ⟨inner, ids', arrow, result, hargument, hinner, hnodup', htype, huses⟩ :=
      inferred_nested_succ h hnodup
    obtain ⟨hlength, hlinks, hinnermost⟩ := ih hinner hnodup'
    have hinside : ∀ k, d.inside? (k + 1) = inner.inside? k := by
      intro k
      rw [Derivation.inside?, hargument]
      rfl
    refine ⟨by rw [huses, List.length_cons, hlength], fun k hk => ?_, ?_⟩
    · cases k with
      | zero =>
        refine ⟨d, inner, arrow, result, rfl, hinside 0, htype, ?_⟩
        rw [huses, htype]
        rfl
      | succ k =>
        obtain ⟨outer, next, arrow', result', houter, hnext, htype', huse⟩ :=
          hlinks k (Nat.lt_of_succ_lt_succ hk)
        refine ⟨outer, next, arrow', result', (hinside k).trans houter,
          (hinside (k + 1)).trans hnext, htype', ?_⟩
        rw [huses, List.getElem?_cons_succ, huse]
    · obtain ⟨one, i, hone, htype'⟩ := hinnermost
      exact ⟨one, i, (hinside depth).trans hone, htype'⟩

/-- Uses are found where their `f` stands. -/
theorem spansFor?_nested {depth : ℕ} {d : Derivation} {ids : List NodeId}
    (h : Inferred (nested depth) d ids) (hnodup : ids.Nodup) (hwidth : 2 * depth ≤ UInt32.size)
    {k : ℕ} {t : Ty} (ht : (d.requirements.get (.name "f"))[k]? = some t) :
    d.spansFor? t.id = some [calleeSpan k] := by
  have hk : k < depth := by
    rw [← (chained_of_inferred h hnodup).length]
    exact (List.getElem?_eq_some_iff.1 ht).1
  refine (h.traced hnodup (.name "f") (occurrences?_nested hwidth)).getElem? ht ?_
  have hspans : ∀ ks : List ℕ, Occurrence.spansOf (.name "f")
      (ks.map fun k => ⟨.name "f", calleeSpan k⟩) = ks.map calleeSpan := by
    intro ks
    induction ks with
    | nil => rfl
    | cons k ks ih => rw [List.map_cons, Occurrence.spansOf_cons, if_pos rfl, ih, List.map_cons]
  rw [hspans, List.getElem?_map, List.getElem?_range hk]
  rfl

theorem covered_nested {b : Bindings} (hf : b.Closes (.name "f")) (depth : ℕ) :
    (nested depth).Covered b := by
  induction depth with
  | zero => exact .literal _ _
  | succ depth ih => exact .call (.name hf) (by simpa using ih)

/-- Nothing but `f` is required. -/
theorem only_of_inferred {depth : ℕ} {d : Derivation} {ids : List NodeId}
    (h : Inferred (nested depth) d ids) : d.requirements.Only (· = .name "f") := by
  have hcovered := covered_nested (b := .single (.name "f") (.primitive 0 .i32)) ⟨_, rfl, rfl⟩ depth
  intro token htoken
  obtain ⟨declared, hb, -⟩ := h.only_closes hcovered token htoken
  rw [Bindings.get?_single] at hb
  split at hb
  · assumption
  · cases hb

/-! ## Declarations of `f` -/

/-- A declaration with an instance that takes `i32`, and takes it to `i32` in every instance. -/
structure KeepsInt (declared : Ty) : Prop where
  /-- No variable is free in the declared type. -/
  closed : declared.closed = true
  /-- At most one variable is drawn for an instance. -/
  quantified : declared.quantified.length ≤ 1
  /-- There is an instance from `i32` to `i32`. -/
  hasInstance : declared.HasInstance Ty.flexible (.arrow 0 (.primitive 0 .i32) (.primitive 0 .i32))
  /-- No other instance takes `i32`. -/
  codomain : ∀ i j u, declared.HasInstance Ty.flexible (.arrow i (.primitive j .i32) u) →
    ∃ k, u = .primitive k .i32

/-- The function type over `i32`. -/
theorem keepsInt_arrow (i j k : NodeId) :
    KeepsInt (.arrow i (.primitive j .i32) (.primitive k .i32)) where
  closed := rfl
  quantified := by simp [Ty.quantified]
  hasInstance := ⟨Ty.var, rfl⟩
  codomain i' j' u := by
    rintro ⟨σ, hσ⟩
    simp only [Ty.matrix, Ty.rename_arrow, Ty.rename_primitive, Ty.alike, Bool.and_eq_true] at hσ
    exact Ty.alike_primitive_iff.1 hσ.2

/-- The type of the identity. -/
theorem keepsInt_identity (i j : NodeId) (a : TyVar) :
    KeepsInt (.scheme i [a] (.arrow j (.var a) (.var a))) where
  closed := by simp [Ty.closed, Ty.declarable, Ty.matrix, Ty.freeVars]
  quantified := Nat.le_refl 1
  hasInstance := by
    refine ⟨fun _ => .primitive 0 .i32, ?_⟩
    simp [Ty.matrix, Ty.quantified, Ty.alike]
  codomain i' j' u := by
    rintro ⟨σ, hσ⟩
    simp only [Ty.matrix, Ty.quantified, Ty.rename_arrow, Ty.rename_var, List.mem_singleton,
      if_true, Ty.alike, Bool.and_eq_true] at hσ
    -- both ends of the arrow are what was chosen for the quantified variable
    rw [Ty.alike_comm, Ty.alike_primitive_iff] at hσ
    obtain ⟨⟨k, hk⟩, hu⟩ := hσ
    rw [hk] at hu
    exact Ty.alike_primitive_iff.1 hu

section

variable {b : Bindings} {declared : Ty}

/-- With such a declaration calls inside one another have the type `i32` and no other. -/
theorem definite_nested (hb : b.get? (.name "f") = some declared) (h : KeepsInt declared)
    (depth : ℕ) : (nested depth).Definite b .i32 := by
  induction depth with
  | zero =>
    refine ⟨⟨0, .literal .int "1" 0⟩, fun t ht => ?_⟩
    cases ht with
    | literal form text i => exact ⟨i, rfl⟩
  | succ depth ih =>
    obtain ⟨⟨i, htype⟩, hunique⟩ := ih
    constructor
    · have hf : HasType b (.atom (.name "f")) (.arrow 0 (.primitive i .i32) (.primitive 0 .i32)) :=
        .name hb (h.hasInstance.congr rfl) rfl
      exact ⟨0, .call .zero _ 0 hf rfl (by simpa using htype) (.one _)⟩
    · intro t ht
      rw [nested] at ht
      cases ht with
      | @call _ _ types domain _ extra _ _ i hf hlen hargs hdomain =>
        obtain ⟨t', rfl⟩ := List.length_eq_one_iff.1 hlen.symm
        cases hdomain with | one =>
        obtain ⟨j, rfl⟩ := hunique domain (hargs _ (.head _))
        cases hf with
        | name hb' hinstance _ =>
          rw [hb] at hb'
          cases hb'
          exact h.codomain _ _ _ hinstance

end

/-! ## The whole -/

/-- Calls of `f` inside one another are typed at every depth at which the columns fit their word,
and link with a declaration of `f` as a function over `i32` or as the identity. Nothing is reported
and nothing but `f` is required, once for each call, from the outermost call inwards; the use in the
call that is inside `k` others stands in the columns from `2 * k` to `2 * k + 1`. -/
theorem nestedCalls_links (depth : ℕ) (g : Typer) (hwidth : 2 * depth ≤ UInt32.size)
    (hids : g.ids.Distinct (g.ids.advance (3 * depth + 1))) :
    ∃ d g', nestedCalls depth g = .ok (d, g') ∧ g'.ids = g.ids.advance (3 * depth + 1) ∧
      d.diagnostics? = some [] ∧ d.requirements.Only (· = .name "f") ∧ Chained depth d ∧
      (∀ k t, (d.requirements.get (.name "f"))[k]? = some t →
        d.spansFor? t.id = some [.columns (2 * k) (2 * k + 1)]) ∧
      ∀ (b : Bindings) (declared : Ty) (i j k : NodeId) (a : TyVar),
        b.get? (.name "f") = some declared →
        declared = .arrow i (.primitive j .i32) (.primitive k .i32) ∨
          declared = .scheme i [a] (.arrow j (.var a) (.var a)) →
        ∀ ids, g'.ids.Reaches ids → g.ids.Distinct (ids.advance depth) →
          ∃ s ids' i', d.requirements.discharge? b .empty ids = some (⟨s, .empty, []⟩, ids') ∧
            s.resolve? d.type = some (.primitive i' .i32) := by
  obtain ⟨d, g', hrun, hg', hsession⟩ := nestedCalls_run depth .start hids
  obtain ⟨-, ids₀, -, -, hinferred, hnodup⟩ := hsession.exists_inferred (hg' ▸ hids) (.head _)
  have hchained := chained_of_inferred hinferred hnodup
  have honly := only_of_inferred hinferred
  refine ⟨d, g', hrun, hg', hinferred.diagnostics?_eq_nil (literalCalls?_nested depth), honly,
    hchained, fun k t ht => spansFor?_nested hinferred hnodup hwidth ht, ?_⟩
  intro b declared i j k a hb hdeclared ids hreach hdistinct
  have hkeeps : KeepsInt declared := by
    rcases hdeclared with rfl | rfl
    · exact keepsInt_arrow i j k
    · exact keepsInt_identity i j a
  have hdrawn : Use.drawn (d.requirements.declaredUses b) ≤ depth := by
    rw [Requirements.declaredUses_of_only honly hb]
    refine (Use.drawn_le (m := 1) (List.forall_mem_map.2 fun _ _ => hkeeps.quantified)).trans ?_
    rw [List.length_map, hchained.length, Nat.mul_one]
  refine hsession.discharges_to (.head _) (covered_nested ⟨declared, hb, hkeeps.closed⟩ depth)
    hreach (hdistinct.of_reaches ⟨depth - Use.drawn (d.requirements.declaredUses b), ?_⟩)
    (definite_nested hb hkeeps depth)
  rw [← IdSource.advance_add, Nat.add_sub_cancel' hdrawn]

/-- Three calls around the literal, linked with the identity. -/
theorem nestedCalls_links_three : ∃ d g',
    nestedCalls 3 (.ofSource (.pinnedAt 0) false) = .ok (d, g') ∧ g'.ids = .pinnedAt 10 ∧
    d.diagnostics? = some [] ∧ Chained 3 d ∧
    (∀ k t, (d.requirements.get (.name "f"))[k]? = some t →
      d.spansFor? t.id = some [.columns (2 * k) (2 * k + 1)]) ∧
    ∃ s ids i, d.requirements.discharge?
        (.single (.name "f") (.scheme 20 [.rigid 21] (.arrow 22 (.var (.rigid 21))
          (.var (.rigid 21))))) .empty (.pinnedAt 10) = some (⟨s, .empty, []⟩, ids) ∧
      s.resolve? d.type = some (.primitive i .i32) := by
  obtain ⟨d, g', hrun, hg', hclean, -, hchained, hspans, hlinks⟩ :=
    nestedCalls_links 3 (.ofSource (.pinnedAt 0) false) (by decide)
      (IdSource.Ascending.distinct ⟨by decide, .inr rfl⟩)
  let declared : Ty := .scheme 20 [.rigid 21] (.arrow 22 (.var (.rigid 21)) (.var (.rigid 21)))
  have hf : (Bindings.single (.name "f") declared).get? (.name "f") = some declared := rfl
  have hdischarge := hlinks _ declared 20 22 22 (.rigid 21) hf (.inr rfl) (.pinnedAt 10)
    (hg' ▸ .refl _) (IdSource.Ascending.distinct ⟨by decide, .inr rfl⟩)
  exact ⟨d, g', hrun, hg', hclean, hchained, hspans, hdischarge⟩

end Family

end CoContextual
