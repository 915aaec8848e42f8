import CoContextual.Proofs.Renumbering.Rules

/-!
# Scripts

A script is a sequence of commands to a typer: operations on what earlier commands have left behind,
and discharges of requirements against declarations that the script has made. Everything in it is
made in the run, so that two runs of a script differ only in the identities that their sources hand
out.

- `script`: what a script leaves behind;
- `mirrors_script`, `local_script`: two runs with sources in parallel, and what a run depends on;
- `Mirrors.pinned`: from parallel sources to pinned ones that start anywhere;
- `Value.Corresponds`: values of two runs that are the same up to identities.
-/

namespace CoContextual

/-! ## Values -/

/-- What a command leaves behind. -/
inductive Value where
  | expression (d : Derivation)
  | statement (s : Statement)
  | type (t : Ty)
  | discharge (d : Discharge)

namespace Value

/-- The type of an expression, or the type itself. -/
def type? : Value → Option Ty
  | expression d => some d.type
  | type t => some t
  | _ => none

/-- What the value requires; after a discharge, what remains required. -/
def requirements? : Value → Option Requirements
  | expression d => some d.requirements
  | statement s => some s.requirements
  | discharge d => some d.remaining
  | type _ => none

/-- What a statement declares. -/
def bindings? : Value → Option Bindings
  | statement s => some s.bindings
  | _ => none

/-- The substitution that a call, a declaration or a discharge settled on. -/
def substitution? : Value → Option Substitution
  | expression (.call site _ _) => some site.substitution
  | statement (.declare declaration _) => some declaration.substitution
  | discharge d => some d.substitution
  | _ => none

/-- The places where the type node `id` comes from. -/
def spansFor? : Value → NodeId → Option (List Span)
  | expression d, id => d.spansFor? id
  | statement s, id => s.spansFor? id
  | _, _ => some []

/-- The findings; `locate` tells the places of the uses that a discharge reports. -/
def diagnostics? (locate : NodeId → Option (List Span)) : Value → Option (List Diagnostic)
  | expression d => d.diagnostics?
  | statement s => s.diagnostics?
  | type _ => some []
  | discharge d => d.diagnostics? locate

/-- The value with `k` added to every identity and without the texts of its diagnostics. -/
def renumber (k : ℕ) : Value → Value
  | expression d => expression (d.renumber k)
  | statement s => statement (s.renumber k)
  | type t => type (t.renumber k)
  | discharge d => discharge (d.renumber k)

section

variable (k : ℕ) (v : Value)

theorem type?_renumber : (v.renumber k).type? = v.type?.map (Ty.renumber k) := by
  cases v <;> simp [renumber, type?, Derivation.type_renumber]

theorem requirements?_renumber :
    (v.renumber k).requirements? = v.requirements?.map (Requirements.renumber k) := by
  cases v <;> simp [renumber, requirements?, Derivation.requirements_renumber,
    Statement.requirements_renumber, Discharge.renumber]

theorem bindings?_renumber :
    (v.renumber k).bindings? = v.bindings?.map (Bindings.renumber k) := by
  cases v <;> simp [renumber, bindings?, Statement.bindings_renumber]

theorem substitution?_renumber :
    (v.renumber k).substitution? = v.substitution?.map (Substitution.renumber k) := by
  rcases v with d | s | t | d
  case expression =>
    cases d <;> simp [renumber, substitution?, Derivation.renumber, CallSite.renumber]
  case statement =>
    cases s <;> simp [renumber, substitution?, Statement.renumber, Declaration.renumber]
  all_goals simp [renumber, substitution?, Discharge.renumber]

theorem spansFor?_renumber (id : NodeId) : (v.renumber k).spansFor? (id + k) = v.spansFor? id := by
  cases v with
  | expression d => exact d.spansFor?_renumber k id
  | statement s => exact s.spansFor?_renumber k id
  | _ => rfl

theorem diagnostics?_renumber {locate locate' : NodeId → Option (List Span)}
    (h : ∀ id, locate' (id + k) = locate id) :
    ((v.renumber k).diagnostics? locate').map (List.map Diagnostic.wordless)
      = (v.diagnostics? locate).map (List.map Diagnostic.wordless) := by
  have hwordless : ∀ found : Option (List Diagnostic),
      (found.map (List.map Diagnostic.wordless)).map (List.map Diagnostic.wordless)
        = found.map (List.map Diagnostic.wordless) := by
    intro found
    rw [Option.map_map]
    refine congrArg (Option.map · found) (funext fun ds => ?_)
    simp [Diagnostic.wordless]
  cases v with
  | expression d =>
    rw [renumber, diagnostics?, diagnostics?, Derivation.diagnostics?_renumber, hwordless]
  | statement s =>
    rw [renumber, diagnostics?, diagnostics?, Statement.diagnostics?_renumber, hwordless]
  | type t => rfl
  | discharge d => exact d.diagnostics?_renumber k h

end

end Value

/-! ## Commands -/

/-- A type that a script has at hand, told by the number of the value that it is in. -/
inductive TypeRef where
  /-- The type of an expression, or a type. -/
  | of (value : ℕ)
  /-- The type of one of the uses that a value requires. -/
  | use (value : ℕ) (token : Ident) (number : ℕ)
  /-- The type that a statement gives to an identifier. -/
  | bound (value : ℕ) (token : Ident)

/-- A part of what is required or declared. -/
inductive LedgerPart where
  /-- All that a value requires or declares. -/
  | all (value : ℕ)
  /-- A single identifier. -/
  | one (token : Ident) (type : TypeRef)

/-- A command to a typer. Values are told by their numbers, in the order in which they were made. -/
inductive Command where
  | atom (a : Atom)
  | missing
  | grouping (inner : Placed ℕ)
  | unary (operator : String) (span : Span) (operand : Placed ℕ)
  | binary (lhs : Placed ℕ) (operator : String) (span : Span) (rhs : Placed ℕ)
  | call (callee : Placed ℕ) (arguments : List (Placed ℕ)) (argumentsSpan : Span)
  | declare (name : Ident) (ascription : Option (Located TypeExpr)) (value : Placed ℕ)
  | ret (value : Placed ℕ)
  | freshVariable
  /-- The type of an argument list. -/
  | argumentsType (types : List TypeRef)
  /-- Discharges requirements on top of the substitution of a value, or of none. -/
  | discharge (required declared : List LedgerPart) (start : Option ℕ)

namespace TypeRef

/-- The type that is meant. -/
def get? (values : List Value) : TypeRef → Option Ty
  | of i => do (← values[i]?).type?
  | use i token number => do ((← (← values[i]?).requirements?).get token)[number]?
  | bound i token => do (← (← values[i]?).bindings?).get? token

end TypeRef

namespace LedgerPart

/-- Adds what is required to `r`. -/
def require? (values : List Value) (r : Requirements) : LedgerPart → Option Requirements
  | all i => do return r ++ (← (← values[i]?).requirements?)
  | one token type => do return r.add token (← type.get? values)

/-- Adds what is declared to `b`. -/
def declare? (values : List Value) (b : Bindings) : LedgerPart → Option Bindings
  | all i => do return b ++ (← (← values[i]?).bindings?)
  | one token type => do return b.add token (← type.get? values)

end LedgerPart

namespace Command

/-- The expression with the given number, at its place. -/
def part? (values : List Value) (p : Placed ℕ) : Option (Placed Derivation) :=
  match values[p.item]? with
  | some (.expression d) => some ⟨p.offset, d⟩
  | _ => none

/-- The substitution that a discharge builds on. -/
def start? (values : List Value) : Option ℕ → Option Substitution
  | some i => do (← values[i]?).substitution?
  | none => some .empty

/-- The operation that a command stands for, if the values that it speaks of are there. -/
def operation? (values : List Value) : Command → Option (TyperM Value)
  | atom a => some (.expression <$> Typer.atom a)
  | missing => some (.expression <$> Typer.missing)
  | grouping inner => do return .expression <$> Typer.grouping (← part? values inner)
  | unary operator span operand => do
    return .expression <$> Typer.unary operator span (← part? values operand)
  | binary lhs operator span rhs => do
    return .expression <$>
      Typer.binary (← part? values lhs) operator span (← part? values rhs)
  | call callee arguments argumentsSpan => do
    return .expression <$>
      Typer.call (← part? values callee) (← arguments.mapM (part? values)) argumentsSpan
  | declare name ascription value => do
    return .statement <$> Typer.declare name ascription (← part? values value)
  | ret value => do return .statement <$> Typer.ret (← part? values value)
  | freshVariable => some (.type <$> Typer.fresh Ty.fresh)
  | argumentsType types => do
    return .type <$> Typer.fresh (Ty.ofArguments (← types.mapM (TypeRef.get? values)))
  | discharge required declared start => do
    let r ← required.foldlM (LedgerPart.require? values) .empty
    let b ← declared.foldlM (LedgerPart.declare? values) .empty
    let s ← start? values start
    return .discharge <$> Typer.infer (r.discharging b s)

end Command

/-- The values after the commands. A command that speaks of values that are not there is passed
over. -/
def script : List Command → List Value → TyperM (List Value)
  | [], values => return values
  | c :: cs, values =>
    match c.operation? values with
    | some operation => do script cs (values ++ [← operation])
    | none => script cs values

/-! ## Two runs -/

variable {n m : ℕ}

/-- Two lookups that find nothing, or what is the same up to identities. -/
def Found {α β : Type} (n m : ℕ) (view : ℕ → α → β) (o o' : Option α) : Prop :=
  o.map (view m) = o'.map (view n)

namespace Found

variable {α β γ δ : Type} {view : ℕ → α → β} {view' : ℕ → γ → δ} {o o' : Option α}

theorem bind {k k' : α → Option γ} (h : Found n m view o o')
    (hk : ∀ a a', view m a = view n a' → Found n m view' (k a) (k' a')) :
    Found n m view' (o >>= k) (o' >>= k') := by
  obtain ⟨rfl, rfl⟩ | ⟨a, a', rfl, rfl, ha⟩ := map_eq_map_cases h
  · rfl
  · exact hk a a' ha

theorem pure {a a' : α} (h : view m a = view n a') :
    Found n m view (Pure.pure a) (Pure.pure a') :=
  congrArg some h

theorem mapM {ι : Type} {f f' : ι → Option α} (h : ∀ i, Found n m view (f i) (f' i))
    (l : List ι) :
    Found n m (fun k => List.map (view k)) (l.mapM f) (l.mapM f') := by
  unfold Found
  rw [map_mapM, map_mapM]
  exact congrArg (List.mapM · l) (funext h)

theorem foldlM {ι : Type} {f f' : α → ι → Option α}
    (h : ∀ a a' i, view m a = view n a' → Found n m view (f a i) (f' a' i)) (l : List ι) {a a' : α}
    (ha : view m a = view n a') : Found n m view (l.foldlM f a) (l.foldlM f' a') := by
  induction l generalizing a a' with
  | nil => exact .pure ha
  | cons i l ih => exact .bind (h a a' i ha) fun _ _ hb => ih hb

theorem rel_bind {R : γ → γ → Prop} {k k' : α → Option γ} (h : Found n m view o o')
    (hk : ∀ a a', view m a = view n a' → Option.Rel R (k a) (k' a')) :
    Option.Rel R (o >>= k) (o' >>= k') := by
  obtain ⟨rfl, rfl⟩ | ⟨a, a', rfl, rfl, ha⟩ := map_eq_map_cases h
  · exact .none
  · exact hk a a' ha

end Found

namespace Value

variable {v v' : Value} (h : v.renumber m = v'.renumber n)
include h

theorem found_type? : Found n m Ty.renumber v.type? v'.type? := by
  rw [Found, ← type?_renumber, h, type?_renumber]

theorem found_requirements? : Found n m Requirements.renumber v.requirements? v'.requirements? := by
  rw [Found, ← requirements?_renumber, h, requirements?_renumber]

theorem found_bindings? : Found n m Bindings.renumber v.bindings? v'.bindings? := by
  rw [Found, ← bindings?_renumber, h, bindings?_renumber]

theorem found_substitution? : Found n m Substitution.renumber v.substitution? v'.substitution? := by
  rw [Found, ← substitution?_renumber, h, substitution?_renumber]

end Value

section

variable {values values' : List Value}
  (hvalues : values.map (Value.renumber m) = values'.map (Value.renumber n))
include hvalues

theorem found_value (i : ℕ) : Found n m Value.renumber values[i]? values'[i]? := by
  unfold Found
  rw [← List.getElem?_map, hvalues, List.getElem?_map]

theorem TypeRef.found_get? (t : TypeRef) :
    Found n m Ty.renumber (t.get? values) (t.get? values') := by
  cases t with
  | of i => exact .bind (found_value hvalues i) fun v v' hv => Value.found_type? hv
  | use i token number =>
    refine .bind (found_value hvalues i) fun v v' hv => ?_
    refine .bind (Value.found_requirements? hv) fun r r' hr => ?_
    rw [Found, ← List.getElem?_map, ← List.getElem?_map, ← Requirements.get_mapTypes,
      ← Requirements.get_mapTypes]
    exact congrArg (fun r => (Requirements.get r token)[number]?) hr
  | bound i token =>
    refine .bind (found_value hvalues i) fun v v' hv => ?_
    refine .bind (Value.found_bindings? hv) fun b b' hb => ?_
    rw [Found, ← Bindings.get?_renumber, hb, Bindings.get?_renumber]

theorem LedgerPart.found_require? (p : LedgerPart) {r r' : Requirements}
    (hr : r.renumber m = r'.renumber n) :
    Found n m Requirements.renumber (p.require? values r) (p.require? values' r') := by
  cases p with
  | all i =>
    refine .bind (found_value hvalues i) fun v v' hv => ?_
    refine .bind (Value.found_requirements? hv) fun u u' hu => .pure ?_
    rw [← Requirements.append_renumber, hr, hu, Requirements.append_renumber]
  | one token type =>
    refine .bind (type.found_get? hvalues) fun t t' ht => .pure ?_
    exact Requirements.add_mirrors token hr ht

theorem LedgerPart.found_declare? (p : LedgerPart) {b b' : Bindings}
    (hb : b.renumber m = b'.renumber n) :
    Found n m Bindings.renumber (p.declare? values b) (p.declare? values' b') := by
  cases p with
  | all i =>
    refine .bind (found_value hvalues i) fun v v' hv => ?_
    refine .bind (Value.found_bindings? hv) fun c c' hc => .pure ?_
    rw [← Bindings.append_renumber, hb, hc, Bindings.append_renumber]
  | one token type =>
    refine .bind (type.found_get? hvalues) fun t t' ht => .pure ?_
    rw [← Bindings.add_renumber, hb, ht, Bindings.add_renumber]

namespace Command

theorem found_part? (p : Placed ℕ) :
    Found n m Derivation.renumberIn (part? values p) (part? values' p) := by
  unfold part?
  obtain ⟨hnone, hnone'⟩ | ⟨v, v', hv, hv', h⟩ := map_eq_map_cases (found_value hvalues p.item)
  · rw [hnone, hnone']
    rfl
  · rw [hv, hv']
    cases v <;> cases v' <;> simp [Value.renumber] at h <;> simp [Found, Derivation.renumberIn, h]

theorem found_start? (start : Option ℕ) :
    Found n m Substitution.renumber (start? values start) (start? values' start) := by
  cases start with
  | none => rfl
  | some i => exact .bind (found_value hvalues i) fun _ _ hv => Value.found_substitution? hv

/-- The operations that a command stands for in two runs have the same outcome up to identities. -/
theorem rel_operation? (c : Command) :
    Option.Rel (Mirrors n m Value.renumber) (c.operation? values) (c.operation? values') := by
  have hpart := found_part? hvalues
  have hexpression : ∀ {f f' : TyperM Derivation}, Mirrors n m Derivation.renumber f f' →
      Option.Rel (Mirrors n m Value.renumber) (some (Value.expression <$> f))
        (some (Value.expression <$> f')) :=
    fun h => .some (h.map fun _ _ hd => congrArg Value.expression hd)
  have hstatement : ∀ {f f' : TyperM Statement}, Mirrors n m Statement.renumber f f' →
      Option.Rel (Mirrors n m Value.renumber) (some (Value.statement <$> f))
        (some (Value.statement <$> f')) :=
    fun h => .some (h.map fun _ _ hs => congrArg Value.statement hs)
  have htype : ∀ {f f' : Fresh Ty}, Fresh.Mirrors n m Ty.renumber f f' →
      Option.Rel (Mirrors n m Value.renumber) (some (Value.type <$> Typer.fresh f))
        (some (Value.type <$> Typer.fresh f')) :=
    fun h => .some ((Typer.mirrors_fresh h).map fun _ _ ht => congrArg Value.type ht)
  cases c with
  | atom a => exact hexpression (Typer.mirrors_atom a)
  | missing => exact hexpression Typer.mirrors_missing
  | grouping inner =>
    exact (hpart inner).rel_bind fun _ _ h => hexpression (Typer.mirrors_grouping h)
  | unary operator span operand =>
    exact (hpart operand).rel_bind fun _ _ h => hexpression (Typer.mirrors_unary operator span h)
  | binary lhs operator span rhs =>
    refine (hpart lhs).rel_bind fun _ _ hl => (hpart rhs).rel_bind fun _ _ hr => ?_
    exact hexpression (Typer.mirrors_binary operator span hl hr)
  | call callee arguments span =>
    refine (hpart callee).rel_bind fun _ _ h => (Found.mapM hpart arguments).rel_bind
      fun _ _ hs => ?_
    exact hexpression (Typer.mirrors_call span h hs)
  | declare name ascription value =>
    exact (hpart value).rel_bind fun _ _ h =>
      hstatement (Typer.mirrors_declare name ascription h)
  | ret value => exact (hpart value).rel_bind fun _ _ h => hstatement (Typer.mirrors_ret h)
  | freshVariable => exact htype Ty.mirrors_fresh
  | argumentsType types =>
    exact (Found.mapM (TypeRef.found_get? hvalues) types).rel_bind fun _ _ h =>
      htype (Ty.mirrors_ofArguments h)
  | discharge required declared start =>
    have hrequired : Found n m Requirements.renumber
        (required.foldlM (LedgerPart.require? values) .empty)
        (required.foldlM (LedgerPart.require? values') .empty) :=
      .foldlM (fun _ _ p hr => p.found_require? hvalues hr) required rfl
    have hdeclared : Found n m Bindings.renumber
        (declared.foldlM (LedgerPart.declare? values) .empty)
        (declared.foldlM (LedgerPart.declare? values') .empty) :=
      .foldlM (fun _ _ p hb => p.found_declare? hvalues hb) declared rfl
    refine hrequired.rel_bind fun r r' hr => hdeclared.rel_bind fun b b' hb => ?_
    refine (found_start? hvalues start).rel_bind fun s s' hs => .some ?_
    exact (Typer.mirrors_infer (Requirements.mirrors_discharging hr hb hs)).map
      fun _ _ hd => congrArg Value.discharge hd

end Command

end

/-- Two runs of a script with sources in parallel leave behind the same up to identities. -/
theorem mirrors_script (cs : List Command) {values values' : List Value}
    (hvalues : values.map (Value.renumber m) = values'.map (Value.renumber n)) :
    Mirrors n m (fun k => List.map (Value.renumber k)) (script cs values)
      (script cs values') := by
  -- the invariant is that the values so far are the same up to identities
  induction cs generalizing values values' with
  | nil => exact .pure hvalues
  | cons c cs ih =>
    have hoperation := c.rel_operation? hvalues
    rw [script, script]
    generalize c.operation? values = o at hoperation ⊢
    generalize c.operation? values' = o' at hoperation ⊢
    cases hoperation with
    -- a command is passed over in both runs or in neither
    | none => exact ih hvalues
    | some hmirrors =>
      refine .bind hmirrors fun v v' hv => ih ?_
      rw [List.map_append, List.map_append, hvalues, List.map_singleton, List.map_singleton, hv]

/-! ## What a run depends on -/

/-- If there is an operation, it is local. -/
class LocalIfAny {α : Type} (o : Option (TyperM α)) : Prop where
  of_mem (f : TyperM α) (h : o = some f) : Local f

namespace LocalIfAny

variable {α β : Type}

instance some (f : TyperM α) [hf : Local f] : LocalIfAny (some f) := ⟨by rintro _ ⟨⟩; exact hf⟩

instance pure (f : TyperM α) [Local f] : LocalIfAny (Pure.pure f) := LocalIfAny.some f

instance bind {o : Option β} {k : β → Option (TyperM α)} [hk : ∀ b, LocalIfAny (k b)] :
    LocalIfAny (o >>= k) where
  of_mem f h := by
    obtain ⟨b, -, h⟩ := Option.bind_eq_some_iff.1 h
    exact (hk b).of_mem f h

end LocalIfAny

instance (c : Command) (values : List Value) : LocalIfAny (c.operation? values) := by
  cases c <;>
  · unfold Command.operation?
    infer_instance

instance local_script (cs : List Command) (values : List Value) : Local (script cs values) := by
  induction cs generalizing values with
  | nil =>
    unfold script
    infer_instance
  | cons c cs ih =>
    unfold script
    split
    · rename_i operation hoperation
      have hlocal := LocalIfAny.of_mem operation hoperation
      infer_instance
    · infer_instance

/-! ## Pinned sources -/

/-- A source whose range holds `count` identities from `first` on. -/
def IdSource.ranging (first count : ℕ) : IdSource := ⟨⟨first, first + count⟩, first⟩

theorem IdSource.advance_ranging (first count : ℕ) :
    (ranging first count).advance count = ⟨⟨first + count, first + count⟩, first⟩ :=
  advance_of_le (Nat.le_refl _)

theorem IdSource.taken_ranging (first count : ℕ) :
    (ranging first count).taken count = List.range' first count :=
  taken_of_le (Nat.le_refl _)

section

variable {α : Type} {f : TyperM α} [hf : Local f] {tracing : Bool} {a : α}

/-- A run with a pinned source that lasts does the same with no more than the range it uses. -/
theorem Local.exists_ranging {g : Typer}
    (hrun : f (.ofSource (.pinnedAt n) tracing) = .ok (a, g)) (hblock : g.ids.nextBlock = 0) :
    ∃ count t, g.ids.supply.next = n + count ∧
      f (.ofSource (.ranging n count) tracing) = .ok (a, t) ∧
      t.ids = (IdSource.ranging n count).advance count := by
  obtain ⟨count, ⟨hids, -⟩, hmove⟩ := hf.run hrun
  replace hids : g.ids = (IdSource.pinnedAt n).advance count := hids
  rw [hids] at hblock
  obtain ⟨htaken, hnext⟩ := IdSource.taken_of_nextBlock hblock
  obtain ⟨t, ht, ⟨hids', -⟩⟩ := hmove (.ofSource (.ranging n count) tracing)
    ⟨(IdSource.taken_ranging n count).trans htaken.symm, rfl⟩
  exact ⟨count, t, by rw [hids, hnext]; rfl, ht, hids'⟩

/-- A run that uses up its range does the same with a pinned source that lasts as long. -/
theorem Local.exists_pinned {count : ℕ} {t : Typer}
    (hrun : f (.ofSource (.ranging m count) tracing) = .ok (a, t))
    (ht : t.ids = (IdSource.ranging m count).advance count) (hfits : m + count ≤ NodeId.limit) :
    ∃ g, f (.ofSource (.pinnedAt m) tracing) = .ok (a, g) ∧
      g.ids = ⟨⟨m + count, NodeId.limit⟩, 0⟩ := by
  obtain ⟨i, ⟨hids, -⟩, hmove⟩ := hf.run hrun
  replace hids : (IdSource.ranging m count).advance count = (IdSource.ranging m count).advance i :=
    ht.symm.trans hids
  -- no block is taken, so the number of draws can be read off
  rw [IdSource.advance_ranging] at hids
  obtain ⟨-, hnext⟩ := IdSource.taken_of_nextBlock (s := .ranging m count) (j := i)
    (by rw [← hids]; rfl)
  obtain rfl : i = count := by
    rw [← hids] at hnext
    exact (Nat.add_left_cancel hnext).symm
  obtain ⟨g, hg, ⟨hids', -⟩⟩ := hmove (.ofSource (.pinnedAt m) tracing)
    ⟨(IdSource.taken_of_le hfits).trans (IdSource.taken_ranging m i).symm, rfl⟩
  exact ⟨g, hg, hids'.trans (IdSource.advance_of_le hfits)⟩

end

/-- What mirrors each other with sources in parallel does so with pinned sources, as long as their
ranges last. -/
theorem Mirrors.pinned {α β : Type} {view : ℕ → α → β} {f f' : TyperM α} [Local f] [Local f']
    (h : Mirrors n m view f f') {tracing : Bool} {a : α} {g : Typer}
    (hrun : f (.ofSource (.pinnedAt n) tracing) = .ok (a, g)) (hblock : g.ids.nextBlock = 0)
    (hroom : g.ids.supply.next + m ≤ NodeId.limit + n) :
    ∃ a' g', f' (.ofSource (.pinnedAt m) tracing) = .ok (a', g') ∧ g'.ids.nextBlock = 0 ∧
      g.ids.supply.next + m = g'.ids.supply.next + n ∧ view m a = view n a' := by
  obtain ⟨count, t, hnext, hfirst, ht⟩ := Local.exists_ranging hrun hblock
  -- the ranges that the two runs use are parallel
  have hparallel : (IdSource.ranging n count).Parallel n m (.ranging m count) :=
    ⟨Nat.add_comm n m, by simp only [IdSource.ranging]; lia, Nat.add_comm n m⟩
  have houtcome := h (.ofSource (.ranging n count) tracing) (.ofSource (.ranging m count) tracing)
    ⟨hparallel, rfl⟩
  rw [hfirst] at houtcome
  generalize hsecond : f' (.ofSource (.ranging m count) tracing) = r at houtcome
  cases houtcome with
  | @ok _ a' _ t' hview hstate =>
    obtain ⟨hnext', hstop', hblock'⟩ : IdSource.Parallel n m t.ids t'.ids := hstate.1
    have ht' : t'.ids = (IdSource.ranging m count).advance count := by
      rw [ht, IdSource.advance_ranging] at hnext' hstop' hblock'
      rw [IdSource.advance_ranging]
      generalize t'.ids = ids' at hnext' hstop' hblock' ⊢
      obtain ⟨⟨next, stop⟩, block⟩ := ids'
      simp only [IdSource.mk.injEq, IdSupply.mk.injEq] at hnext' hstop' hblock' ⊢
      lia
    obtain ⟨g', hrun', hids'⟩ := Local.exists_pinned hsecond ht' (by lia)
    refine ⟨a', g', hrun', by rw [hids'], ?_, hview⟩
    rw [hnext, hids']
    simp only
    lia

/-! ## A script started elsewhere -/

/-- Two values are the same up to identities, where `id` of the first belongs to `id'` of the second
if `id' = id + (m - n)`, written without subtraction. -/
structure Value.Corresponds (n m : ℕ) (v v' : Value) : Prop where
  /-- Types, requirements, bindings, substitutions, origins, failures and diagnostics are the same
  after `m` is added to each identity of the first and `n` to each of the second. -/
  renumber : v.renumber m = v'.renumber n
  /-- Types come from the same places. -/
  spans (id id' : NodeId) : id + m = id' + n → v.spansFor? id = v'.spansFor? id'
  /-- The findings are the same up to their texts. -/
  diagnostics {locate locate' : NodeId → Option (List Span)} :
    (∀ id id', id + m = id' + n → locate id = locate' id') →
      (v.diagnostics? locate).map (List.map Diagnostic.wordless)
        = (v'.diagnostics? locate').map (List.map Diagnostic.wordless)

theorem Value.Corresponds.of_renumber {v v' : Value} (h : v.renumber m = v'.renumber n) :
    v.Corresponds n m v' where
  renumber := h
  spans id id' hid := by rw [← v.spansFor?_renumber m, h, hid, v'.spansFor?_renumber n]
  diagnostics {locate locate'} hlocate := by
    -- a search for the renumbered values of both runs
    let search : NodeId → Option (List Span) := fun id =>
      if n ≤ id then locate' (id - n) else locate (id - m)
    have hsearch : ∀ id, search (id + m) = locate id := by
      intro id
      by_cases hn : n ≤ id + m
      · rw [hlocate id (id + m - n) (by lia)]
        exact if_pos hn
      · simp only [search, if_neg hn, Nat.add_sub_cancel]
    have hsearch' : ∀ id, search (id + n) = locate' id := by
      intro id
      simp only [search, if_pos (Nat.le_add_left n id), Nat.add_sub_cancel]
    rw [← v.diagnostics?_renumber m hsearch, h, v'.diagnostics?_renumber n hsearch']

/-- Run with a source that starts at `m` instead of `n`, and with neither run reaching the end of
its range, a script leaves behind the same with `m - n` added to every identity. -/
theorem script_renumbers {cs : List Command} {tracing : Bool} {values : List Value} {g : Typer}
    (hrun : script cs [] (.ofSource (.pinnedAt n) tracing) = .ok (values, g))
    (hblock : g.ids.nextBlock = 0) (hroom : g.ids.supply.next + m ≤ NodeId.limit + n) :
    ∃ values' g', script cs [] (.ofSource (.pinnedAt m) tracing) = .ok (values', g') ∧
      g'.ids.nextBlock = 0 ∧ g.ids.supply.next + m = g'.ids.supply.next + n ∧
      List.Forall₂ (Value.Corresponds n m) values values' := by
  have hmirrors : Mirrors n m (fun k => List.map (Value.renumber k)) (script cs [])
      (script cs []) := mirrors_script cs rfl
  obtain ⟨values', g', hrun', hblock', hnext, hvalues⟩ := hmirrors.pinned hrun hblock hroom
  refine ⟨values', g', hrun', hblock', hnext, ?_⟩
  have hsame : List.Forall₂ (· = ·) (values.map (Value.renumber m))
      (values'.map (Value.renumber n)) := by
    rw [List.forall₂_eq_eq_eq]
    exact hvalues
  rw [List.forall₂_map_left_iff, List.forall₂_map_right_iff] at hsame
  exact hsame.imp fun v v' h => .of_renumber h

/-- The script for `let y: char = f(1)`, discharged against a declaration of `f` as a number, run
from 7 and from 3. -/
theorem script_renumbers_downwards : ∃ (cs : List Command) (values values' : List Value)
    (g g' : Typer),
    script cs [] (.ofSource (.pinnedAt 7) false) = .ok (values, g) ∧
    script cs [] (.ofSource (.pinnedAt 3) false) = .ok (values', g') ∧
    values.length = 5 ∧ g.ids.supply.next = 12 ∧ g'.ids.supply.next = 8 ∧
    List.Forall₂ (Value.Corresponds 7 3) values values' := by
  let cs : List Command := [
    .atom (.name "f"),
    .atom (.literal .int "1"),
    .call ⟨.zero, 0⟩ [⟨⟨0, 2⟩, 1⟩] ⟨⟨0, 1⟩, ⟨0, 4⟩⟩,
    .declare (.name "y") (some ⟨.named "char", ⟨⟨0, 7⟩, ⟨0, 11⟩⟩⟩) ⟨⟨0, 14⟩, 2⟩,
    .discharge [.all 3] [.one (.name "f") (.of 1)] none]
  obtain ⟨values, g, hrun, hlength, hblock, hnext⟩ : ∃ values g,
      script cs [] (.ofSource (.pinnedAt 7) false) = .ok (values, g) ∧ values.length = 5 ∧
      g.ids.nextBlock = 0 ∧ g.ids.supply.next = 12 :=
    ⟨_, _, rfl, rfl, rfl, rfl⟩
  have hroom : g.ids.supply.next + 3 ≤ NodeId.limit + 7 := by
    rw [hnext]
    decide
  obtain ⟨values', g', hrun', -, hnext', hsame⟩ := script_renumbers hrun hblock hroom
  exact ⟨cs, values, values', g, g', hrun, hrun', hlength, hnext, by lia, hsame⟩

end CoContextual
