import CoContextual.Proofs.Statement.Ascription
import CoContextual.Proofs.Substitution.Records
import Mathlib.Data.List.Dedup

/-!
# What annotations are read as

Reading an annotation keeps its shape. The names of primitive types become those types and all other
names become rigid variables, told by a function `f` from names to identities
(`TypeExpr.reading`). What is drawn on the way is one identity for every node that is no variable,
and one for every name that stands for a variable (`TypeExpr.exists_reading`). If no identity is
drawn twice, different names hence stand for different variables.

The names met so far are handed from the parts on the left to those on the right, while identities
are drawn in between. `TypeExpr.Passage` says what happens to names and source along a part, and is
put together along the annotation.
-/

namespace CoContextual

namespace TypeExpr

/-! ## What an annotation says -/

mutual

/-- The names that stand for variables, from left to right and with repeats. -/
def varNames : TypeExpr → List String
  | named name =>
    match Primitive.ofName? name with
    | some _ => []
    | none => [name]
  | arrow d c => varNames d ++ varNames c
  | product cs => varNamesAll cs

/-- The names that stand for variables in several annotations. -/
def varNamesAll : List TypeExpr → List String
  | [] => []
  | a :: as => varNames a ++ varNamesAll as

end

mutual

/-- The type that an annotation says, without identities, where the name `x` stands for the rigid
variable `f x` unless it is the name of a primitive type. -/
def reading (f : String → NodeId) : TypeExpr → Ty
  | named name =>
    match Primitive.ofName? name with
    | some kind => .primitive 0 kind
    | none => .var (.rigid (f name))
  | arrow d c => .arrow 0 (reading f d) (reading f c)
  | product cs => .product 0 (readingAll f cs)

/-- The types that several annotations say. -/
def readingAll (f : String → NodeId) : List TypeExpr → List Ty
  | [] => []
  | a :: as => reading f a :: readingAll f as

end

section

variable {f : String → NodeId} {v : TyVar}

mutual

/-- The variables of the type are those that the names stand for. -/
theorem mem_freeVars_reading : ∀ a : TypeExpr,
    v ∈ (a.reading f).freeVars ↔ ∃ x ∈ a.varNames, v = .rigid (f x)
  | named name => by
    rw [reading, varNames]
    cases Primitive.ofName? name <;> simp
  | arrow d c => by
    rw [reading, varNames, Ty.freeVars_arrow, List.mem_append, mem_freeVars_reading d,
      mem_freeVars_reading c]
    simp only [List.mem_append, or_and_right, exists_or]
  | product cs => by
    rw [reading, varNames, Ty.mem_freeVars_product]
    exact mem_freeVars_readingAll cs

theorem mem_freeVars_readingAll : ∀ as : List TypeExpr,
    (∃ t ∈ readingAll f as, v ∈ t.freeVars) ↔ ∃ x ∈ varNamesAll as, v = .rigid (f x)
  | [] => by simp [readingAll, varNamesAll]
  | a :: as => by
    rw [readingAll, varNamesAll, List.exists_mem_cons_iff, mem_freeVars_reading a,
      mem_freeVars_readingAll as]
    simp only [List.mem_append, or_and_right, exists_or]

end

end

/-! ## Reading one part after the other -/

/-- The names that were met stand for the variables that `f` tells. -/
def Names.Follow (names : Names) (f : String → NodeId) : Prop :=
  ∀ x t, names.get? x = some t → t = .var (.rigid (f x))

/-- The way from one list of names and one source to another, along a part of an annotation with the
variables `vars` that becomes nodes with the identities `nodes`. -/
structure Passage (vars : List String) (nodes : List NodeId) (names : Names) (ids : IdSource)
    (names' : Names) (ids' : IdSource) : Prop where
  /-- A name that was met keeps its variable. -/
  kept : ∀ x t, names.get? x = some t → names'.get? x = some t
  /-- The names that were met are those from before and those of the part. -/
  met : ∀ x, names'.get? x = none ↔ names.get? x = none ∧ x ∉ vars
  /-- The identities drawn are those of the nodes, and one for each name that is new. -/
  draws : ∃ (n : ℕ) (new : List String), ids' = ids.advance n ∧ new.Nodup ∧
    (∀ x, x ∈ new ↔ names.get? x = none ∧ x ∈ vars) ∧
    ∀ f, names'.Follow f → (nodes ++ new.map f).Perm (ids.taken n)

namespace Passage

variable {vars vars' : List String} {nodes nodes' : List NodeId} {names names₁ names₂ : Names}
  {ids ids₁ ids₂ : IdSource} {f : String → NodeId}

theorem follow (h : Passage vars nodes names ids names₁ ids₁) (hf : names₁.Follow f) :
    names.Follow f := fun x t hx => hf x t (h.kept x t hx)

theorem refl (names : Names) (ids : IdSource) : Passage [] [] names ids names ids where
  kept _ _ h := h
  met := by simp
  draws := ⟨0, [], rfl, .nil, by simp, fun _ _ => .nil⟩

/-- Two parts one after the other. A name that is new in the second was not met in the first. -/
theorem trans (h : Passage vars nodes names ids names₁ ids₁)
    (h' : Passage vars' nodes' names₁ ids₁ names₂ ids₂) :
    Passage (vars ++ vars') (nodes ++ nodes') names ids names₂ ids₂ where
  kept x t hx := h'.kept x t (h.kept x t hx)
  met x := by
    rw [h'.met, h.met, List.mem_append, not_or, and_assoc]
  draws := by
    obtain ⟨n, new, rfl, hnodup, hnew, hperm⟩ := h.draws
    obtain ⟨n', new', rfl, hnodup', hnew', hperm'⟩ := h'.draws
    refine ⟨n + n', new ++ new', (IdSource.advance_add n n' ids).symm, ?_, fun x => ?_, ?_⟩
    · refine List.nodup_append'.2 ⟨hnodup, hnodup', fun x hx hx' => ?_⟩
      exact ((h.met x).1 ((hnew' x).1 hx').1).2 ((hnew x).1 hx).2
    · rw [List.mem_append, hnew, hnew', h.met, List.mem_append]
      tauto
    · intro f hf
      -- the names that are new in the first part come in front of the second part's nodes
      have hswap : (nodes' ++ (new ++ new').map f).Perm (new.map f ++ (nodes' ++ new'.map f)) := by
        rw [List.map_append]
        exact List.perm_append_comm_assoc ..
      have hparts := (hperm f (h'.follow hf)).append (hperm' f hf)
      rw [List.append_assoc] at hparts
      rw [IdSource.taken_add, List.append_assoc]
      exact (hswap.append_left nodes).trans hparts

/-- A node is made of the parts. -/
theorem node (h : Passage vars nodes names ids names₁ ids₁) :
    Passage vars (ids₁.draw.1 :: nodes) names ids names₁ ids₁.draw.2 where
  kept := h.kept
  met := h.met
  draws := by
    obtain ⟨n, new, rfl, hnodup, hnew, hperm⟩ := h.draws
    refine ⟨n + 1, new, (IdSource.advance_add n 1 ids).symm, hnodup, hnew, fun f hf => ?_⟩
    rw [IdSource.taken_add]
    exact ((hperm f hf).cons _).trans (List.perm_append_singleton _ _).symm

end Passage

section

variable {x : String} {names : Names}

theorem rigidFor_of_some {known : Ty} (hx : names.get? x = some known) (ids : IdSource) :
    rigidFor x names ids = ((known, names), ids) := by
  rw [rigidFor, hx]
  rfl

/-- A variable is drawn for a name that is met for the first time. -/
theorem rigidFor_of_none (hx : names.get? x = none) (ids : IdSource) :
    rigidFor x names ids = ((.var (.rigid ids.draw.1), names.insert x (.var (.rigid ids.draw.1))),
      ids.draw.2) := by
  rw [rigidFor, hx]
  rfl

/-- What a name stands for is kept under it. -/
theorem get?_rigidFor (x : String) (names : Names) (ids : IdSource) :
    (rigidFor x names ids).1.2.get? x = some (rigidFor x names ids).1.1 := by
  cases hx : names.get? x with
  | some known =>
    rw [rigidFor_of_some hx]
    exact hx
  | none =>
    rw [rigidFor_of_none hx, Table.get?_insert, if_pos rfl]

theorem passage_rigidFor (x : String) (names : Names) (ids : IdSource) :
    Passage [x] [] names ids (rigidFor x names ids).1.2 (rigidFor x names ids).2 := by
  cases hx : names.get? x with
  | some known =>
    have hmet : ∀ y, names.get? y = none → y ∉ [x] := by
      intro y hy hmem
      rw [List.mem_singleton.1 hmem, hx] at hy
      cases hy
    rw [rigidFor_of_some hx]
    exact {
      kept := fun _ _ h => h
      met := fun y => ⟨fun hy => ⟨hy, hmet y hy⟩, And.left⟩
      -- nothing is drawn, and nothing is new
      draws := ⟨0, [], rfl, .nil,
        fun y => ⟨fun hy => absurd hy List.not_mem_nil, fun hy => absurd hy.2 (hmet y hy.1)⟩,
        fun _ _ => .nil⟩ }
  | none =>
    rw [rigidFor_of_none hx]
    refine ⟨fun y t hy => ?_, fun y => ?_, 1, [x], rfl, List.nodup_singleton x, fun y => ?_,
      fun f hf => ?_⟩
    · have hne : y ≠ x := by
        rintro rfl
        cases hx.symm.trans hy
      rw [Table.get?_insert, if_neg hne, hy]
    · rw [Table.get?_insert, List.mem_singleton]
      split <;> simp_all
    · rw [List.mem_singleton]
      exact ⟨by rintro rfl; exact ⟨hx, rfl⟩, And.right⟩
    · -- whatever tells the variables tells the one that was drawn
      have hdrawn := hf x (.var (.rigid ids.draw.1)) (by rw [Table.get?_insert, if_pos rfl])
      have hid : ids.draw.1 = f x := congrArg Ty.id hdrawn
      show [f x].Perm [ids.draw.1]
      rw [hid]

end

mutual

/-- Reading an annotation draws the identities of the nodes, and one for each name that is new. -/
theorem passage_toTyWith : ∀ (a : TypeExpr) {names : Names} (_ : Names.Rigid names)
    (ids : IdSource), Passage a.varNames ((a.toTyWith names ids).1.1.collect fun _ => []) names ids
      (a.toTyWith names ids).1.2 (a.toTyWith names ids).2
  | named x, names, h, ids => by
    rw [toTyWith, varNames]
    cases Primitive.ofName? x with
    | some kind => exact (Passage.refl names ids).node
    | none =>
      obtain ⟨v, hv⟩ := (written_rigidFor h x ids).2 x _ (get?_rigidFor x names ids)
      have hvar : (rigidFor x names ids).1.1.collect (fun _ => []) = [] := by
        rw [hv]
        rfl
      show Passage [x] ((rigidFor x names ids).1.1.collect fun _ => []) names ids _ _
      rw [hvar]
      exact passage_rigidFor x names ids
  | arrow d c, names, h, ids => by
    obtain ⟨-, hnames⟩ := written_toTyWith d h ids
    have hd := passage_toTyWith d h ids
    have hc := passage_toTyWith c hnames (d.toTyWith names ids).2
    rw [toTyWith, varNames]
    exact (hd.trans hc).node
  | product cs, names, h, ids => by
    have hcs := passage_toTysWith cs h ids
    rw [toTyWith, varNames]
    exact hcs.node

theorem passage_toTysWith : ∀ (as : List TypeExpr) {names : Names} (_ : Names.Rigid names)
    (ids : IdSource), Passage (varNamesAll as)
      (Ty.collectAll (fun _ => []) (toTysWith as names ids).1.1) names ids
      (toTysWith as names ids).1.2 (toTysWith as names ids).2
  | [], names, h, ids => by
    rw [toTysWith, varNamesAll]
    exact .refl names ids
  | a :: as, names, h, ids => by
    obtain ⟨-, hnames⟩ := written_toTyWith a h ids
    have ha := passage_toTyWith a h ids
    have has := passage_toTysWith as hnames (a.toTyWith names ids).2
    rw [toTysWith, varNamesAll]
    exact ha.trans has

end

mutual

/-- Without its identities the type is what the annotation says. -/
theorem erase_toTyWith {f : String → NodeId} : ∀ (a : TypeExpr) {names : Names}
    (_ : Names.Rigid names) (ids : IdSource) (_ : Names.Follow (a.toTyWith names ids).1.2 f),
    (a.toTyWith names ids).1.1.erase = a.reading f
  | named x, names, h, ids, hf => by
    rw [toTyWith] at hf ⊢
    rw [reading]
    cases hx : Primitive.ofName? x with
    | some kind => rfl
    | none =>
      rw [hx] at hf
      exact congrArg Ty.erase (hf x _ (get?_rigidFor x names ids))
  | arrow d c, names, h, ids, hf => by
    obtain ⟨-, hnames⟩ := written_toTyWith d h ids
    rw [toTyWith] at hf ⊢
    -- what tells the variables at the end tells those met in the domain
    have hc := erase_toTyWith c hnames (d.toTyWith names ids).2 hf
    have hd := erase_toTyWith d h ids ((passage_toTyWith c hnames _).follow hf)
    rw [reading, ← hd, ← hc]
    rfl
  | product cs, names, h, ids, hf => by
    rw [toTyWith] at hf ⊢
    rw [reading, ← erase_toTysWith cs h ids hf]
    exact Ty.erase_product _ _

theorem erase_toTysWith {f : String → NodeId} : ∀ (as : List TypeExpr) {names : Names}
    (_ : Names.Rigid names) (ids : IdSource) (_ : Names.Follow (toTysWith as names ids).1.2 f),
    (toTysWith as names ids).1.1.map Ty.erase = readingAll f as
  | [], names, h, ids, hf => by
    rw [toTysWith, readingAll]
    rfl
  | a :: as, names, h, ids, hf => by
    obtain ⟨-, hnames⟩ := written_toTyWith a h ids
    rw [toTysWith] at hf ⊢
    have has := erase_toTysWith as hnames (a.toTyWith names ids).2 hf
    have ha := erase_toTyWith a h ids ((passage_toTysWith as hnames _).follow hf)
    rw [readingAll, ← ha, ← has]
    rfl

end

/-- Names that stand for rigid variables are told by a function. -/
theorem Names.Rigid.exists_follow {names : Names} (h : Names.Rigid names) :
    ∃ f, names.Follow f := by
  refine ⟨fun x => ((names.get? x).map Ty.id).getD 0, fun x t hx => ?_⟩
  obtain ⟨v, rfl⟩ := h x t hx
  show Ty.var (.rigid v) = .var (.rigid (((names.get? x).map Ty.id).getD 0))
  rw [hx]
  rfl

/-- Reading an annotation gives the type that it says, for some choice of variables. It draws one
identity for every node of the type that is no variable, and one for every name that stands for a
variable. -/
theorem exists_reading (a : TypeExpr) (ids : IdSource) : ∃ (n : ℕ) (f : String → NodeId),
    (a.toTy ids).2 = ids.advance n ∧ (a.toTy ids).1.erase = a.reading f ∧
      (((a.toTy ids).1.collect fun _ => []) ++ a.varNames.dedup.map f).Perm (ids.taken n) := by
  obtain ⟨-, hnames⟩ := written_toTyWith a Names.rigid_empty ids
  obtain ⟨f, hf⟩ := hnames.exists_follow
  obtain ⟨n, new, hids, hnodup, hnew, hperm⟩ := (passage_toTyWith a Names.rigid_empty ids).draws
  refine ⟨n, f, hids, erase_toTyWith a Names.rigid_empty ids hf, ?_⟩
  -- no name was met before, so that each is new once
  have hdedup : a.varNames.dedup.Perm new := by
    rw [List.perm_ext_iff_of_nodup (List.nodup_dedup _) hnodup]
    intro x
    rw [List.mem_dedup, hnew, Table.get?_empty, and_iff_right rfl]
  exact ((hdedup.map f).append_left _).trans (hperm f hf)

end TypeExpr

/-! ## The scheme that is made of it -/

namespace Ty

variable {t : Ty} {v : TyVar}

/-- Erasing keeps the free variables. -/
theorem mem_freeVars_erase : v ∈ t.erase.freeVars ↔ v ∈ t.freeVars := by
  induction t using ind with
  | arrow id d c ihd ihc => simp [ihd, ihc]
  | product id cs ih =>
    rw [erase_product, mem_freeVars_product, mem_freeVars_product]
    constructor
    · rintro ⟨u, hu, hv⟩
      obtain ⟨c, hc, rfl⟩ := List.mem_map.1 hu
      exact ⟨c, hc, (ih c hc).1 hv⟩
    · rintro ⟨c, hc, hv⟩
      exact ⟨_, List.mem_map_of_mem hc, (ih c hc).2 hv⟩
  | scheme id bound body ih => simp [freeVars, ih]
  | _ => simp

/-- Quantifying leaves the type as it is under the quantifier, and quantifies what it is told to. -/
theorem quantify_run (ht : t.schemeFree = true) (bound : List TyVar) (ids : IdSource) :
    (quantify bound t ids).1.matrix = t ∧ (quantify bound t ids).1.quantified = bound := by
  cases bound with
  | nil =>
    show t.matrix = t ∧ t.quantified = []
    cases t with
    | scheme => cases ht
    | _ => exact ⟨rfl, rfl⟩
  | cons w bound => exact ⟨rfl, rfl⟩

/-- The scheme over the rigid variables of a type quantifies each of them once. -/
theorem quantifyRigid_run (ht : t.schemeFree = true) (ids : IdSource) :
    (t.quantifyRigid ids).1.matrix = t ∧ (t.quantifyRigid ids).1.quantified.Nodup ∧
      ∀ v, v ∈ (t.quantifyRigid ids).1.quantified ↔ v ∈ t.freeVars ∧ v.isRigid = true := by
  obtain ⟨hmatrix, hquantified⟩ := quantify_run ht (t.freeVarSet.filter TyVar.isRigid) ids
  rw [quantifyRigid, hquantified]
  refine ⟨hmatrix, ?_, fun v => ?_⟩
  · apply List.Nodup.filter
    exact (Table.sorted_keys _).imp fun {a b} h heq => by
      simp [heq, Std.ReflCmp.compare_self] at h
  · rw [List.mem_filter, freeVarSet, Table.mem_keys_ofList]

end Ty

/-- An annotation is bound to what it denotes, quantified over the variables that its names stand
for. -/
theorem TypeExpr.toScheme_run (a : TypeExpr) (ids : IdSource) {f : String → NodeId}
    (hf : (a.toTy ids).1.erase = a.reading f) :
    (a.toScheme ids).1.matrix = (a.toTy ids).1 ∧ (a.toScheme ids).1.quantified.Nodup ∧
      ∀ v, v ∈ (a.toScheme ids).1.quantified ↔ ∃ x ∈ a.varNames, v = .rigid (f x) := by
  have hwritten := a.written_toTy ids
  obtain ⟨hmatrix, hnodup, hmem⟩ :=
    Ty.quantifyRigid_run (Ty.plain_iff.1 hwritten.plain).1 (a.toTy ids).2
  refine ⟨hmatrix, hnodup, fun v => (hmem v).trans ?_⟩
  rw [← Ty.mem_freeVars_erase, hf, mem_freeVars_reading]
  constructor
  · exact And.left
  · rintro ⟨x, hx, rfl⟩
    exact ⟨⟨x, hx, rfl⟩, rfl⟩

namespace Typer

/-- A declaration reads its annotation faithfully. The type has the shape of the annotation, with
the primitive types that it names, and with the variable `f x` wherever it has another name `x`.
What is drawn is one identity for every node that is no variable and one for every such name; as
long as identities go up, they are distinct and none lies before the source, and different names
have different variables. The name is bound to the type, quantified over each of the variables
once, unless a place to report outgrows its word. -/
theorem declare_reads (name : Ident) (written : Located TypeExpr) (value : Placed Derivation)
    (g : Typer) : ∃ (n : ℕ) (f : String → NodeId) (t : Ty),
    written.item.toTy g.ids = (t, g.ids.advance n) ∧ t.erase = written.item.reading f ∧
      ((t.collect fun _ => []) ++ written.item.varNames.dedup.map f).Perm (g.ids.taken n) ∧
      (g.ids.Ascending (g.ids.advance n) →
        (g.ids.taken n).Nodup ∧ (∀ id ∈ g.ids.taken n, g.ids.supply.next ≤ id) ∧
          ∀ x ∈ written.item.varNames, ∀ y ∈ written.item.varNames, f x = f y ↔ x = y) ∧
      ((∃ d : Declaration,
        d.ascription = some ⟨t, written.span⟩ ∧ d.binding.matrix = t ∧
          d.binding.quantified.Nodup ∧
          (∀ v, v ∈ d.binding.quantified ↔ ∃ x ∈ written.item.varNames, v = .rigid (f x)) ∧
          ReturnsStatement (declare name (some written) value) g (.declare d value)) ∨
        declare name (some written) value g = .error .overflow ∧
          Derivation.ownSpans? value = none) := by
  obtain ⟨n, f, hids, herase, hperm⟩ := written.item.exists_reading g.ids
  refine ⟨n, f, _, Prod.ext rfl hids, herase, hperm, fun hascending => ?_, ?_⟩
  · obtain ⟨-, -, hnodup, hrange⟩ := hascending.advance (.refl _)
    refine ⟨hnodup, fun id hid => (hrange id hid).1, fun x hx y hy => ⟨fun heq => ?_, congrArg f⟩⟩
    -- two names with one variable would draw its identity twice
    have hvars := (List.nodup_append'.1 (hperm.nodup_iff.2 hnodup)).2.1
    exact List.inj_on_of_nodup_map hvars (List.mem_dedup.2 hx) (List.mem_dedup.2 hy) heq
  · rcases Declaration.exists_annotated name written value g.ids with
      ⟨d, steps, ids, hrun, hd⟩ | ⟨herror, hplaces⟩
    · have hrule : Statement.ofDeclaration name (some written) value g.ids
          = .ok ((.declare d value, steps), ids) := bind_eq_ok.2 ⟨_, _, hrun, rfl⟩
      obtain ⟨hmatrix, hnodup, hmem⟩ := written.item.toScheme_run g.ids herase
      rw [← hd.binding] at hmatrix hnodup hmem
      exact .inl ⟨d, hd.ascription, hmatrix, hnodup, hmem, declare_returns hrule⟩
    · refine .inr ⟨?_, hplaces⟩
      have hrule : Statement.ofDeclaration name (some written) value g.ids = .error .overflow := by
        show (Declaration.annotated name written value g.ids).bind _ = _
        rw [herror]
        rfl
      show (infer _ g).bind _ = _
      rw [infer_of_error hrule]
      rfl

/-- In `T -> (U, i32, T)` the name `T` is met twice, on both sides of the arrow. -/
theorem declare_reads_shared_name : ∃ (value : Placed Derivation) (d : Declaration)
    (f : String → NodeId), f "T" ≠ f "U" ∧
    d.binding.matrix = .arrow 14 (.var (.rigid 10))
      (.product 13 [.var (.rigid 11), .primitive 12 .i32, .var (.rigid 10)]) ∧
    d.binding.matrix.erase = (TypeExpr.arrow (.named "T")
      (.product [.named "U", .named "i32", .named "T"])).reading f ∧
    d.binding.quantified.Nodup ∧
    (∀ v, v ∈ d.binding.quantified ↔ ∃ x ∈ ["T", "U", "T"], v = .rigid (f x)) ∧
    ReturnsStatement (declare (.name "a") (some ⟨.arrow (.named "T")
      (.product [.named "U", .named "i32", .named "T"]), .zero⟩) value)
      (.ofSource (.pinnedAt 10) false) (.declare d value) := by
  let value : Placed Derivation := ⟨.zero, .atom (.primitive 5 .i32) .empty .zero⟩
  obtain ⟨n, f, t, hrun, herase, -, hdistinct, hlet⟩ := declare_reads (.name "a")
    ⟨.arrow (.named "T") (.product [.named "U", .named "i32", .named "T"]), .zero⟩ value
    (.ofSource (.pinnedAt 10) false)
  obtain ⟨ht, hids⟩ := Prod.ext_iff.1 hrun
  -- five identities are drawn, and no block is taken for them
  obtain ⟨-, -, hinjective⟩ := hdistinct ⟨by decide, .inr (congrArg IdSource.nextBlock hids).symm⟩
  obtain ⟨d, -, hmatrix, hnodup, hmem, hreturns⟩ := hlet.resolve_right fun h => nomatch h.2
  refine ⟨value, d, f, fun heq => ?_, hmatrix.trans ht.symm, ?_, hnodup, hmem, hreturns⟩
  · exact absurd ((hinjective "T" (by decide) "U" (by decide)).1 heq) (by decide)
  · rw [hmatrix, herase]

/-- A source that is pinned at the end of all ranges takes a block, and its identities start over:
the type that `i32` is read as there has the identity 0. -/
theorem declare_reads_at_limit : ¬ ∀ (a : TypeExpr) (first : NodeId), first ≤ NodeId.limit →
    ∀ id ∈ (a.toTy (.pinnedAt first)).1.nodeIds, first ≤ id := by
  intro h
  have hzero : (0 : NodeId) ∈ ((TypeExpr.named "i32").toTy (.pinnedAt NodeId.limit)).1.nodeIds :=
    .head _
  exact absurd (h _ _ (Nat.le_refl _) 0 hzero) (by decide)

end Typer

end CoContextual
