import CoContextual.Proofs.Renumbering.Scripts
import CoContextual.Unify.Unifier

/-!
# What tracing changes

A trace has a line for each node, and the line counts the findings in the node. Without a trace
nothing counts them. So an operation with a trace reads the positions of all findings in what it has
made, and it stops if one of them outgrows its word. That is all that a trace can change: up to such
an operation a program makes the same values, draws the same identities, reaches the same
substitutions and the same verdicts on unifications, step by step, and if there is no such operation
it ends with the same fault.

- `Typer.CarriesOut`: an operation that carries out a rule and keeps a trace beside that. All
  operations are put together from such ones (`Command.carriesOut`);
- `Bench`: a typer with what it has made, and unifiers;
- `Bench.step_compares`: one step with a trace and without;
- `Bench.Advances`: what a single step does;
- `Bench.run_compares`: whole programs.
-/

namespace CoContextual

/-! ## Operations -/

namespace Typer

variable {α β : Type}

/-- What an operation does to the typer `g`, compared with the rule that it carries out. -/
inductive Follows (findings : α → Option (List Diagnostic)) (g : Typer) :
    Except Fault (α × IdSource) → Except Fault (α × Typer) → Prop
  /-- The rule has no result, and so the operation has none. -/
  | fault (e : Fault) : Follows findings g (.error e) (.error e)
  /-- Only a typer that keeps a trace changes anything but its supply, and it can count the
  findings. -/
  | made {a : α} {ids : IdSource} {g' : Typer} (hids : g'.ids = ids)
      (htracing : g'.tracing = g.tracing)
      (hsilent : g.tracing = false → g' = { g with ids := g'.ids })
      (hcounted : g.tracing = true → (findings a).isSome) :
      Follows findings g (.ok (a, ids)) (.ok (a, g'))
  /-- The findings cannot be counted. -/
  | uncounted {a : α} {ids : IdSource} (htracing : g.tracing = true) (hnone : findings a = none) :
      Follows findings g (.ok (a, ids)) (.error .overflow)

/-- The operation carries out a rule. Beside that it may keep a trace, for which it counts the
findings in its result. -/
def CarriesOut (f : TyperM α) (rule : Inference α) (findings : α → Option (List Diagnostic)) :
    Prop :=
  ∀ g, Follows findings g (rule g.ids) (f g)

namespace CarriesOut

variable {f : TyperM α} {rule : Inference α} {findings : α → Option (List Diagnostic)}

/-- Where there is nothing to find, nothing is counted. -/
theorem infer (rule : Inference α) : CarriesOut (Typer.infer rule) rule fun _ => some [] := by
  intro g
  cases hrun : rule g.ids with
  | error e =>
    rw [infer_of_error hrun]
    exact .fault e
  | ok r =>
    obtain ⟨a, ids⟩ := r
    rw [infer_of_ok hrun]
    exact .made rfl rfl (fun _ => rfl) fun _ => rfl

theorem fresh (f : Fresh α) : CarriesOut (Typer.fresh f) (liftM f) fun _ => some [] :=
  infer (liftM f)

/-- If the findings are counted last, they are counted once. -/
theorem bind {k : α → TyperM β} {rule' : α → Inference β}
    {findings' : β → Option (List Diagnostic)} (hf : CarriesOut f rule fun _ => some [])
    (hk : ∀ a, CarriesOut (k a) (rule' a) findings') :
    CarriesOut (f >>= k) (rule >>= rule') findings' := by
  intro g
  show Follows findings' g ((rule g.ids).bind fun p => rule' p.1 p.2)
    ((f g).bind fun p => k p.1 p.2)
  have hfirst := hf g
  generalize rule g.ids = r, f g = o at hfirst
  cases hfirst with
  | fault e => exact .fault e
  -- the first operation has no findings, so that it cannot stop at them
  | uncounted _ hnone => cases hnone
  | @made a _ g' hids htracing hsilent _ =>
    subst hids
    have hsecond := hk a g'
    show Follows findings' g (rule' a g'.ids) (k a g')
    generalize rule' a g'.ids = r, k a g' = o at hsecond
    cases hsecond with
    | fault e => exact .fault e
    | made hids' htracing' hsilent' hcounted' =>
      refine .made hids' (htracing'.trans htracing) (fun hoff => ?_) fun hon =>
        hcounted' (htracing.trans hon)
      rw [hsilent' (htracing.trans hoff), hsilent hoff]
    | uncounted htracing' hnone => exact .uncounted (htracing ▸ htracing') hnone

theorem map {findings' : β → Option (List Diagnostic)} (hf : CarriesOut f rule findings)
    (c : α → β) (hc : ∀ a, findings' (c a) = findings a) :
    CarriesOut (c <$> f) (c <$> rule) findings' := by
  intro g
  show Follows findings' g ((rule g.ids).map fun p => (c p.1, p.2))
    ((f g).map fun p => (c p.1, p.2))
  have hrun := hf g
  generalize rule g.ids = r, f g = o at hrun
  cases hrun with
  | fault e => exact .fault e
  | made hids htracing hsilent hcounted =>
    exact .made hids htracing hsilent fun hon => (hc _).symm ▸ hcounted hon
  | uncounted htracing hnone => exact .uncounted htracing ((hc _).trans hnone)

theorem observe (steps : List Step) :
    CarriesOut (Typer.observe steps) (pure ()) fun _ => some [] := by
  rintro ⟨ids, tracing, trace, unifyTrace⟩
  cases tracing with
  | false => exact .made rfl rfl (fun _ => rfl) nofun
  | true => exact .made rfl rfl nofun fun _ => rfl

/-- Recording is the one operation that counts findings. -/
theorem record (name : Rule) (type : Ty) (detail : String) (requirements : Requirements) (a : α)
    (findings : α → Option (List Diagnostic)) :
    CarriesOut (do Typer.record name type detail requirements (findings a); return a) (pure a)
      findings := by
  rintro ⟨ids, tracing, trace, unifyTrace⟩
  show Follows _ _ _ ((Typer.record name type detail requirements (findings a) _).bind _)
  cases tracing with
  | false => exact .made rfl rfl (fun _ => rfl) nofun
  | true =>
    cases hfindings : findings a with
    | none => exact .uncounted rfl hfindings
    | some found => exact .made rfl rfl nofun fun _ => hfindings ▸ rfl

theorem recordExpression (name : Rule) (detail : String) (d : Derivation) :
    CarriesOut (Typer.recordExpression name detail d) (pure d) Derivation.diagnostics? :=
  record name d.type detail d.requirements d Derivation.diagnostics?

theorem recordStatement (name : Rule) (detail : String) (s : Statement) :
    CarriesOut (Typer.recordStatement name detail s) (pure s) Statement.diagnostics? :=
  record name s.type detail s.requirements s Statement.diagnostics?

end CarriesOut

section

variable {f : TyperM α} {rule : Inference α} {findings : α → Option (List Diagnostic)}
  (hf : CarriesOut f rule findings) {g : Typer}
include hf

theorem CarriesOut.tracing_eq {a : α} {g' : Typer} (hrun : f g = .ok (a, g')) :
    g'.tracing = g.tracing := by
  have hg := hf g
  rw [hrun] at hg
  generalize rule g.ids = r at hg
  cases hg with
  | made _ htracing _ _ => exact htracing

theorem CarriesOut.silent {a : α} {g' : Typer} (hoff : g.tracing = false)
    (hrun : f g = .ok (a, g')) : g' = { g with ids := g'.ids } := by
  have hg := hf g
  rw [hrun] at hg
  generalize rule g.ids = r at hg
  cases hg with
  | made _ _ hsilent _ => exact hsilent hoff

/-- An operation with a trace and without, when the next identities are the same. -/
theorem CarriesOut.compare {g' : Typer} (hids : g.ids = g'.ids) (hon : g.tracing = true)
    (hoff : g'.tracing = false) :
    (∃ e, f g = .error e ∧ f g' = .error e) ∨
    (∃ a t t', f g = .ok (a, t) ∧ f g' = .ok (a, t') ∧ t.ids = t'.ids ∧ (findings a).isSome) ∨
    ∃ a t', f g = .error .overflow ∧ f g' = .ok (a, t') ∧ findings a = none := by
  have hg := hf g
  have hg' := hf g'
  -- both operations follow one and the same result of the rule
  rw [← hids] at hg'
  generalize rule g.ids = r, f g = o, f g' = o' at hg hg'
  cases hg with
  | fault e =>
    cases hg'
    exact .inl ⟨e, rfl, rfl⟩
  | @made a ids t ht _ _ hcounted =>
    cases hg' with
    | made ht' _ _ _ => exact .inr (.inl ⟨a, t, _, rfl, rfl, ht.trans ht'.symm, hcounted hon⟩)
    | uncounted hon' _ => exact absurd (hoff.symm.trans hon') nofun
  | @uncounted a ids _ hnone =>
    cases hg' with
    | made _ _ _ _ => exact .inr (.inr ⟨a, _, rfl, rfl, hnone⟩)
    | uncounted hon' _ => exact absurd (hoff.symm.trans hon') nofun

end

end Typer

namespace Value

/-- The findings in an expression or a statement. -/
def findings? : Value → Option (List Diagnostic)
  | expression d => d.diagnostics?
  | statement s => s.diagnostics?
  | _ => some []

end Value

/-- Every command carries out some rule. -/
theorem Command.carriesOut {c : Command} {values : List Value} {operation : TyperM Value}
    (h : c.operation? values = some operation) :
    ∃ rule, Typer.CarriesOut operation rule Value.findings? := by
  have hexpression : ∀ {f rule}, Typer.CarriesOut f rule Derivation.diagnostics? →
      ∃ rule, Typer.CarriesOut (Value.expression <$> f) rule Value.findings? :=
    fun hf => ⟨_, hf.map _ fun _ => rfl⟩
  have hstatement : ∀ {f rule}, Typer.CarriesOut f rule Statement.diagnostics? →
      ∃ rule, Typer.CarriesOut (Value.statement <$> f) rule Value.findings? :=
    fun hf => ⟨_, hf.map _ fun _ => rfl⟩
  cases c with
  | atom a =>
    cases h
    exact hexpression ((Typer.CarriesOut.infer _).bind fun d => .recordExpression _ _ d)
  | missing =>
    cases h
    exact hexpression ((Typer.CarriesOut.fresh _).bind fun d => .recordExpression _ _ d)
  | grouping inner =>
    obtain ⟨inner', -, h⟩ := Option.bind_eq_some_iff.1 h
    cases h
    exact hexpression (.recordExpression _ _ _)
  | unary operator span operand =>
    obtain ⟨operand', -, h⟩ := Option.bind_eq_some_iff.1 h
    cases h
    exact hexpression ((Typer.CarriesOut.fresh _).bind fun d => .recordExpression _ _ d)
  | binary lhs operator span rhs =>
    obtain ⟨lhs', -, h⟩ := Option.bind_eq_some_iff.1 h
    obtain ⟨rhs', -, h⟩ := Option.bind_eq_some_iff.1 h
    cases h
    exact hexpression ((Typer.CarriesOut.fresh _).bind fun d => .recordExpression _ _ d)
  | call callee arguments argumentsSpan =>
    obtain ⟨callee', -, h⟩ := Option.bind_eq_some_iff.1 h
    obtain ⟨arguments', -, h⟩ := Option.bind_eq_some_iff.1 h
    cases h
    exact hexpression ((Typer.CarriesOut.infer _).bind fun r =>
      (Typer.CarriesOut.observe r.2).bind fun _ => .recordExpression _ _ r.1)
  | declare name ascription value =>
    obtain ⟨value', -, h⟩ := Option.bind_eq_some_iff.1 h
    cases h
    exact hstatement ((Typer.CarriesOut.infer _).bind fun r =>
      (Typer.CarriesOut.observe r.2).bind fun _ => .recordStatement _ _ r.1)
  | ret value =>
    obtain ⟨value', -, h⟩ := Option.bind_eq_some_iff.1 h
    cases h
    exact hstatement (.recordStatement _ _ _)
  | freshVariable =>
    cases h
    exact ⟨_, (Typer.CarriesOut.fresh _).map _ fun _ => rfl⟩
  | argumentsType types =>
    obtain ⟨types', -, h⟩ := Option.bind_eq_some_iff.1 h
    cases h
    exact ⟨_, (Typer.CarriesOut.fresh _).map _ fun _ => rfl⟩
  | discharge required declared start =>
    obtain ⟨r, -, h⟩ := Option.bind_eq_some_iff.1 h
    obtain ⟨b, -, h⟩ := Option.bind_eq_some_iff.1 h
    obtain ⟨s, -, h⟩ := Option.bind_eq_some_iff.1 h
    cases h
    exact ⟨_, (Typer.CarriesOut.infer _).map _ fun _ => rfl⟩

/-! ## Unifiers -/

/-- Unifiers with the same substitution come to the same verdict and the same substitution. -/
theorem Unifier.unify?_alike {u u' : Unifier} (h : u.substitution = u'.substitution) (l r : Ty) :
    (u.unify? l r).map (fun p => (p.1, p.2.substitution))
      = (u'.unify? l r).map fun p => (p.1, p.2.substitution) := by
  have hobserve : ∀ (u : Unifier) (steps : List Step),
      (u.observe steps).substitution = u.substitution := by
    intro u steps
    rw [observe]
    split <;> rfl
  rw [unify?, unify?, h, Option.map_map, Option.map_map]
  refine congrArg (Option.map · _) (funext fun a => ?_)
  cases hresult : a.result with
  | ok s => simp [hresult, commit]
  | error e => simp [hresult, commit, hobserve, h]

theorem Unifier.unify?_silent {u u' : Unifier} {l r : Ty} {verdict : Except UnifyError Unit}
    (hu : u.tracing = false) (h : u.unify? l r = some (verdict, u')) :
    u'.tracing = false ∧ u'.trace = u.trace := by
  obtain ⟨a, -, hcommit⟩ := Option.map_eq_some_iff.1 h
  rw [observe, if_neg (by simp [hu])] at hcommit
  cases hresult : a.result <;> rw [hresult] at hcommit <;> cases hcommit <;> exact ⟨hu, rfl⟩

/-! ## Programs -/

/-- A typer with what was made so far, and unifiers with the verdicts that they gave. -/
structure Bench where
  /-- The typer. -/
  typer : Typer
  /-- What was made, first things first. -/
  values : List Value
  /-- The unifiers. -/
  unifiers : List Unifier
  /-- The verdicts on unifications, first things first. -/
  verdicts : List (Except UnifyError Unit)
  /-- What the typer has made in the last step, if that was an operation. -/
  made : Option Value

/-- All of a bench but its traces. -/
@[ext]
structure Bench.View where
  /-- Where fresh identities come from. -/
  ids : IdSource
  /-- What was made. -/
  values : List Value
  /-- The substitutions of the unifiers. -/
  substitutions : List Substitution
  /-- The verdicts on unifications. -/
  verdicts : List (Except UnifyError Unit)
  /-- What was made in the last step. -/
  made : Option Value

/-- One step of a program. What it is about may depend on all that was seen before. -/
inductive Move where
  /-- An operation of the typer. -/
  | command (c : Command)
  /-- Adds a value that is made by hand, with identities from the typer's supply. -/
  | value (make : Bench.View → Fresh Value)
  /-- Adds a unifier, which keeps a trace if the typer does. -/
  | unifier (start : Bench.View → Substitution)
  /-- Has a unifier unify two types. -/
  | unify (i : ℕ) (lhs rhs : Bench.View → Ty)
  /-- Takes the trace of a unifier. -/
  | takeTrace (i : ℕ)

namespace Bench

/-- A bench with nothing on it. -/
def start (ids : IdSource) (tracing : Bool) : Bench := ⟨.ofSource ids tracing, [], [], [], none⟩

/-- What can be seen of a bench beside its traces. -/
def view (b : Bench) : View :=
  ⟨b.typer.ids, b.values, b.unifiers.map Unifier.substitution, b.verdicts, b.made⟩

/-- The bench after a step. A step that speaks of what is not there is passed over. -/
def step (b : Bench) : Move → Except Fault Bench
  | .command c =>
    match c.operation? b.values with
    | some operation => (operation b.typer).map fun r =>
        { b with typer := r.2, values := b.values ++ [r.1], made := some r.1 }
    | none => .ok { b with made := none }
  | .value make =>
    let (v, ids) := make b.view b.typer.ids
    .ok { b with typer := { b.typer with ids }, values := b.values ++ [v], made := none }
  | .unifier start =>
    let u := .ofSubstitution (start b.view) b.typer.tracing
    .ok { b with unifiers := b.unifiers ++ [u], made := none }
  | .unify i lhs rhs =>
    match b.unifiers[i]? with
    | some u =>
      (Fault.diverges.unlessSome (u.unify? (lhs b.view) (rhs b.view))).map fun r =>
        { b with unifiers := b.unifiers.set i r.2, verdicts := b.verdicts ++ [r.1], made := none }
    | none => .ok { b with made := none }
  | .takeTrace i =>
    match b.unifiers[i]? with
    | some u => .ok { b with unifiers := b.unifiers.set i u.takeTrace.2, made := none }
    | none => .ok { b with made := none }

/-- The benches after the steps of a program, and the fault that ends it early, if there is one. -/
def run : List Move → Bench → List Bench × Option Fault
  | [], _ => ([], none)
  | move :: moves, b =>
    match b.step move with
    | .ok b' => (b' :: (run moves b').1, (run moves b').2)
    | .error fault => ([], some fault)

/-- The findings in what the last operation has made can be counted: all positions fit. -/
def counted (b : Bench) : Bool := b.made.all fun v => v.findings?.isSome

/-- Nothing is recorded, and nothing will be. -/
structure Silent (b : Bench) : Prop where
  /-- The typer keeps no trace. -/
  tracing : b.typer.tracing = false
  /-- No node is recorded. -/
  trace : b.typer.trace = []
  /-- No step of a unification is recorded by the typer. -/
  unifyTrace : b.typer.unifyTrace = []
  /-- The unifiers keep no traces, and have recorded nothing. -/
  unifiers : ∀ u ∈ b.unifiers, u.tracing = false ∧ u.trace = []

section

variable {b b' : Bench} (h : b.view = b'.view)
include h

theorem substitutions_eq :
    b.unifiers.map Unifier.substitution = b'.unifiers.map Unifier.substitution :=
  congrArg View.substitutions h

/-- A unifier that is there on one bench is there on the other, with the same substitution. -/
theorem unifiers_alike (i : ℕ) :
    (b.unifiers[i]? = none ∧ b'.unifiers[i]? = none) ∨
      ∃ u u', b.unifiers[i]? = some u ∧ b'.unifiers[i]? = some u' ∧
        u.substitution = u'.substitution := by
  refine map_eq_map_cases ?_
  rw [← List.getElem?_map, substitutions_eq h, List.getElem?_map]

theorem substitutions_set (i : ℕ) {u u' : Unifier} (hu : u.substitution = u'.substitution) :
    (b.unifiers.set i u).map Unifier.substitution
      = (b'.unifiers.set i u').map Unifier.substitution := by
  rw [List.map_set, List.map_set, hu, substitutions_eq h]

end

/-- A step with a trace, compared with the same step without. -/
inductive Compares : Except Fault Bench → Except Fault Bench → Prop
  /-- Both fail, for the same reason. -/
  | fault (e : Fault) : Compares (.error e) (.error e)
  /-- Both benches show the same, and the findings were counted. -/
  | alike {b b' : Bench} (hview : b.view = b'.view) (hcounted : b'.counted = true) :
      Compares (.ok b) (.ok b')
  /-- The trace cannot count the findings in what the operation makes. -/
  | uncounted {b' : Bench} (huncounted : b'.counted = false) :
      Compares (.error .overflow) (.ok b')

/-- One step on benches that show the same, one with a trace and one without. -/
theorem step_compares {b b' : Bench} (h : b.view = b'.view) (hon : b.typer.tracing = true)
    (hoff : b'.typer.tracing = false) (move : Move) : Compares (b.step move) (b'.step move) := by
  have hids : b.typer.ids = b'.typer.ids := congrArg View.ids h
  have hvalues : b.values = b'.values := congrArg View.values h
  have hsubstitutions := substitutions_eq h
  have hverdicts : b.verdicts = b'.verdicts := congrArg View.verdicts h
  cases move with
  | command c =>
    rw [step, step, ← hvalues]
    cases hop : c.operation? b.values with
    | none => exact .alike (View.ext hids rfl hsubstitutions hverdicts rfl) rfl
    | some operation =>
      obtain ⟨rule, hrule⟩ := Command.carriesOut hop
      rcases hrule.compare hids hon hoff with
        ⟨e, he, he'⟩ | ⟨v, g, g', hg, hg', hdrawn, hsome⟩ | ⟨v, g', hg, hg', hnone⟩
      · simp only [he, he']
        exact .fault e
      · simp only [hg, hg']
        exact .alike (View.ext hdrawn rfl hsubstitutions hverdicts rfl) hsome
      · simp only [hg, hg']
        refine .uncounted ?_
        simp only [counted, Option.all_some, hnone, Option.isSome_none]
  | value make =>
    simp only [step, h, hids, hvalues]
    exact .alike (View.ext rfl rfl hsubstitutions hverdicts rfl) rfl
  | unifier start =>
    refine .alike (View.ext hids hvalues ?_ hverdicts rfl) rfl
    show List.map _ (_ ++ _) = List.map _ (_ ++ _)
    rw [List.map_append, List.map_append, hsubstitutions, h]
    rfl
  | unify i lhs rhs =>
    rw [step, step, ← h]
    rcases unifiers_alike h i with ⟨hnone, hnone'⟩ | ⟨u, u', hu, hu', hsame⟩
    · rw [hnone, hnone']
      exact .alike (View.ext hids hvalues hsubstitutions hverdicts rfl) rfl
    · rw [hu, hu']
      rcases map_eq_map_cases (Unifier.unify?_alike hsame (lhs b.view) (rhs b.view)) with
        ⟨hnone, hnone'⟩ | ⟨⟨verdict, t⟩, ⟨verdict', t'⟩, ht, ht', heq⟩
      · simp only [hnone, hnone']
        exact .fault .diverges
      · obtain ⟨rfl, hsame'⟩ := Prod.mk.inj heq
        simp only [ht, ht']
        exact .alike (View.ext hids hvalues (substitutions_set h i hsame')
          (congrArg (· ++ [verdict]) hverdicts) rfl) rfl
  | takeTrace i =>
    rw [step, step]
    rcases unifiers_alike h i with ⟨hnone, hnone'⟩ | ⟨u, u', hu, hu', hsame⟩
    · rw [hnone, hnone']
      exact .alike (View.ext hids hvalues hsubstitutions hverdicts rfl) rfl
    · rw [hu, hu']
      exact .alike (View.ext hids hvalues (substitutions_set h i hsame) hverdicts rfl) rfl

/-- What a step that goes through does to the bench. -/
inductive Advances (b : Bench) : Bench → Prop
  /-- What the step speaks of is not there. -/
  | idle : Advances b { b with made := none }
  /-- The typer carries out an operation. -/
  | operation {f : TyperM Value} {rule : Inference Value} {v : Value} {g : Typer}
      (hf : Typer.CarriesOut f rule Value.findings?) (hrun : f b.typer = .ok (v, g)) :
      Advances b { b with typer := g, values := b.values ++ [v], made := some v }
  /-- A value is made by hand. -/
  | value (v : Value) (ids : IdSource) :
      Advances b { b with
        typer := { b.typer with ids }
        values := b.values ++ [v]
        made := none }
  /-- There is one more unifier. -/
  | unifier (s : Substitution) :
      Advances b { b with
        unifiers := b.unifiers ++ [.ofSubstitution s b.typer.tracing]
        made := none }
  /-- A unifier gives its verdict. -/
  | unify {i : ℕ} {u u' : Unifier} {l r : Ty} {verdict : Except UnifyError Unit}
      (hu : b.unifiers[i]? = some u) (hunify : u.unify? l r = some (verdict, u')) :
      Advances b { b with
        unifiers := b.unifiers.set i u'
        verdicts := b.verdicts ++ [verdict]
        made := none }
  /-- A unifier gives away its trace. -/
  | takeTrace {i : ℕ} {u : Unifier} (hu : b.unifiers[i]? = some u) :
      Advances b { b with unifiers := b.unifiers.set i u.takeTrace.2, made := none }

theorem step_advances {b b' : Bench} {move : Move} (hstep : b.step move = .ok b') :
    b.Advances b' := by
  cases move with
  | command c =>
    rw [step] at hstep
    cases hop : c.operation? b.values with
    | none =>
      rw [hop] at hstep
      cases hstep
      exact .idle
    | some operation =>
      obtain ⟨rule, hrule⟩ := Command.carriesOut hop
      simp only [hop] at hstep
      cases hrun : operation b.typer with
      | error e =>
        rw [hrun] at hstep
        cases hstep
      | ok r =>
        rw [hrun] at hstep
        cases hstep
        exact .operation hrule hrun
  | value make =>
    cases hstep
    exact .value _ _
  | unifier start =>
    cases hstep
    exact .unifier _
  | unify i lhs rhs =>
    rw [step] at hstep
    cases hu : b.unifiers[i]? with
    | none =>
      rw [hu] at hstep
      cases hstep
      exact .idle
    | some u =>
      simp only [hu] at hstep
      cases hunify : u.unify? (lhs b.view) (rhs b.view) with
      | none =>
        rw [hunify] at hstep
        cases hstep
      | some r =>
        rw [hunify] at hstep
        cases hstep
        exact .unify hu hunify
  | takeTrace i =>
    rw [step] at hstep
    cases hu : b.unifiers[i]? with
    | none =>
      rw [hu] at hstep
      cases hstep
      exact .idle
    | some u =>
      rw [hu] at hstep
      cases hstep
      exact .takeTrace hu

/-- A step turns tracing neither on nor off. -/
theorem Advances.tracing_eq {b b' : Bench} (h : b.Advances b') :
    b'.typer.tracing = b.typer.tracing := by
  cases h with
  | operation hf hrun => exact hf.tracing_eq hrun
  | _ => rfl

theorem Silent.set {b : Bench} (h : b.Silent) (i : ℕ) {u : Unifier}
    (hu : u.tracing = false ∧ u.trace = []) :
    ∀ t ∈ b.unifiers.set i u, t.tracing = false ∧ t.trace = [] := by
  intro t ht
  rcases List.mem_or_eq_of_mem_set ht with ht | rfl
  · exact h.unifiers t ht
  · exact hu

/-- A silent bench stays silent. -/
theorem Advances.silent {b b' : Bench} (h : b.Advances b') (hb : b.Silent) : b'.Silent := by
  cases h with
  | idle => exact ⟨hb.tracing, hb.trace, hb.unifyTrace, hb.unifiers⟩
  | operation hf hrun =>
    -- the typer changes its supply only
    have hsame := hf.silent hb.tracing hrun
    refine ⟨?_, ?_, ?_, hb.unifiers⟩ <;> dsimp only <;> rw [hsame]
    · exact hb.tracing
    · exact hb.trace
    · exact hb.unifyTrace
  | value v ids => exact ⟨hb.tracing, hb.trace, hb.unifyTrace, hb.unifiers⟩
  | unifier s =>
    exact ⟨hb.tracing, hb.trace, hb.unifyTrace, List.forall_mem_append.2
      ⟨hb.unifiers, List.forall_mem_singleton.2 ⟨hb.tracing, rfl⟩⟩⟩
  | @unify i u u' l r verdict hu hunify =>
    obtain ⟨htracing, htrace⟩ := hb.unifiers u (List.mem_of_getElem? hu)
    obtain ⟨htracing', htrace'⟩ := Unifier.unify?_silent htracing hunify
    exact ⟨hb.tracing, hb.trace, hb.unifyTrace, hb.set i ⟨htracing', htrace'.trans htrace⟩⟩
  | @takeTrace i u hu =>
    have htracing := (hb.unifiers u (List.mem_of_getElem? hu)).1
    exact ⟨hb.tracing, hb.trace, hb.unifyTrace, hb.set i ⟨htracing, rfl⟩⟩

/-- A program with a trace goes like the same program without, up to the first operation whose
findings cannot be counted. There it stops, and otherwise it ends in the same way. -/
theorem run_compares {b b' : Bench} (h : b.view = b'.view) (hon : b.typer.tracing = true)
    (hoff : b'.Silent) (moves : List Move) :
    (run moves b).1.map view = ((run moves b').1.takeWhile counted).map view ∧
      (run moves b).2
        = if (run moves b').1.all counted then (run moves b').2 else some .overflow := by
  induction moves generalizing b b' with
  | nil => exact ⟨rfl, rfl⟩
  | cons move moves ih =>
    -- the next two benches again show the same, the one with a trace and the other without
    have hcompares := step_compares h hon hoff.tracing move
    have hon' : ∀ c, b.step move = .ok c → c.typer.tracing = true :=
      fun c hc => (step_advances hc).tracing_eq.trans hon
    have hoff' : ∀ c, b'.step move = .ok c → c.Silent := fun c hc => (step_advances hc).silent hoff
    rw [run, run]
    generalize b.step move = o, b'.step move = o' at hcompares hon' hoff'
    cases hcompares with
    | fault e => exact ⟨rfl, rfl⟩
    | @alike c c' hview hcounted =>
      obtain ⟨hviews, hfault⟩ := ih hview (hon' c rfl) (hoff' c' rfl)
      simp only [List.map_cons, List.takeWhile_cons_of_pos hcounted, hview, hviews, hfault,
        List.all_cons, hcounted, Bool.true_and, and_self]
    -- the trace ends here, whatever the rest of the program does without one
    | uncounted huncounted => simp [huncounted]

theorem run_silent {b : Bench} (h : b.Silent) (moves : List Move) :
    ∀ b' ∈ (run moves b).1, b'.Silent := by
  induction moves generalizing b with
  | nil => exact fun _ hb => absurd hb List.not_mem_nil
  | cons move moves ih =>
    cases hstep : b.step move with
    | error e =>
      simp only [run, hstep]
      exact fun _ hb => absurd hb List.not_mem_nil
    | ok c =>
      have hc := (step_advances hstep).silent h
      simp only [run, hstep]
      exact List.forall_mem_cons.2 ⟨hc, ih hc⟩

theorem silent_start (ids : IdSource) : (start ids false).Silent :=
  ⟨rfl, rfl, rfl, fun _ hu => absurd hu List.not_mem_nil⟩

/-- A program that is run with tracing makes the same values with the same identities, and reaches
the same substitutions and verdicts, step by step, as without, up to the first operation that makes
something whose findings cannot be counted. That operation fails with tracing only. If there is
none, both runs end after the same step, with the same fault if they fail. Without tracing, nothing
is recorded. -/
theorem tracing_only_counts (moves : List Move) (ids : IdSource) :
    (run moves (start ids true)).1.map view
      = ((run moves (start ids false)).1.takeWhile counted).map view ∧
    (run moves (start ids true)).2
      = (if (run moves (start ids false)).1.all counted then (run moves (start ids false)).2
        else some .overflow) ∧
    ∀ b ∈ (run moves (start ids false)).1, b.Silent :=
  have hstart : (start ids true).view = (start ids false).view := rfl
  have hcompares := run_compares hstart rfl (silent_start ids) moves
  ⟨hcompares.1, hcompares.2, run_silent (silent_start ids) moves⟩

/-- `1` is called, at the far end of a line, and the call is put in parentheses, in which it stands
at `inside`. A call of a number does not fit, and the finding is where the callee is. -/
def parenthesized (inside : Offset) : List Move :=
  [.command (.atom (.literal .int "1")),
    .command (.call ⟨⟨0, 4294967294⟩, 0⟩ [] ⟨⟨0, 0⟩, ⟨0, 2⟩⟩),
    .command (.grouping ⟨inside, 1⟩)]

/-- If the call starts a line of its own, the program goes through with a trace as it does without.
If the parenthesis stands before it in its line, the run with a trace ends where the other one
still has a step to do. -/
theorem tracing_only_counts_call :
    ((run (parenthesized ⟨1, 0⟩) (start (.pinnedAt 0) true)).1.map view
        = (run (parenthesized ⟨1, 0⟩) (start (.pinnedAt 0) false)).1.map view ∧
      (run (parenthesized ⟨1, 0⟩) (start (.pinnedAt 0) true)).2 = none) ∧
    (run (parenthesized ⟨0, 1⟩) (start (.pinnedAt 0) true)).1.map view
      = ((run (parenthesized ⟨0, 1⟩) (start (.pinnedAt 0) false)).1.take 2).map view := by
  obtain ⟨hviews, hfault, -⟩ := tracing_only_counts (parenthesized ⟨1, 0⟩) (.pinnedAt 0)
  obtain ⟨hviews', -, -⟩ := tracing_only_counts (parenthesized ⟨0, 1⟩) (.pinnedAt 0)
  exact ⟨⟨hviews, hfault⟩, hviews'⟩

/-- The positions of a finding can stop an operation with a trace where it goes through without. -/
theorem traced_grouping_overflows :
    ((run (parenthesized ⟨0, 1⟩) (start (.pinnedAt 0) true)).1.length = 2 ∧
      (run (parenthesized ⟨0, 1⟩) (start (.pinnedAt 0) true)).2 = some .overflow) ∧
    (run (parenthesized ⟨0, 1⟩) (start (.pinnedAt 0) false)).1.length = 3 ∧
      (run (parenthesized ⟨0, 1⟩) (start (.pinnedAt 0) false)).2 = none :=
  ⟨⟨rfl, rfl⟩, rfl, rfl⟩

end Bench

end CoContextual
