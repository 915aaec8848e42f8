import CoContextual.Proofs.Unify.Invalid
import CoContextual.Proofs.Unify.Locality
import Mathlib.Data.List.Zip

/-!
# The sides of a failure

A failure names what was expected and what was found. Nodes are taken apart side by side, and two
bound variables that meet are both replaced, so that the left type is what was expected and the
right one what was found. A variable that meets anything else is put on the right when it is
replaced, no matter where it stood. Below such a variable its side is the one that was found, until
another one is replaced further down.

For types that resolve without open variables nothing is bound on the way. Then the failure is that
of the first pair that clashes, and the last variable that was replaced alone decides which way
round it is reported (`Substitution.unify?_error_sides`). The sides are kept apart exactly if there
is no such variable on the way to the clash.

- `Substitution.FirstClash`: the first pair that clashes and the side of that variable;
- `Substitution.FirstClash.ends`: the failure that it leads to, in either order;
- `Substitution.Grounds.decided`: two such types unify or meet a first clash.
-/

namespace CoContextual

/-- One of the two types that are unified. -/
inductive Side where
  /-- The first type. -/
  | left
  /-- The second type. -/
  | right
deriving DecidableEq

/-- The opposite side. -/
def Side.other : Side → Side
  | left => right
  | right => left

namespace UnifyError

/-- The same failure with the sides exchanged. -/
def exchange : UnifyError → UnifyError
  | mismatch expected found => mismatch found expected
  | arity expected found => arity found expected

@[simp]
theorem exchange_exchange (e : UnifyError) : e.exchange.exchange = e := by cases e <;> rfl

/-- How a failure is reported if the last variable that was replaced alone stood on the given side:
that side is what was found. -/
def reported (e : UnifyError) : Option Side → UnifyError
  | some .left => e.exchange
  | _ => e

/-- If a variable was replaced alone, the report is the same with the sides exchanged. -/
theorem reported_exchange (e : UnifyError) (side : Side) :
    e.exchange.reported (some side.other) = e.reported (some side) := by
  cases side <;> simp [reported, Side.other]

theorem reported_orElse_left (e : UnifyError) (inner : Option Side) :
    e.reported (inner <|> some .left) = e.exchange.reported (inner.map Side.other) := by
  cases inner with
  | none => rfl
  | some side => exact (reported_exchange e side).symm

theorem reported_orElse_right (e : UnifyError) (inner : Option Side) :
    e.reported (inner <|> some .right) = e.reported inner := by
  cases inner <;> rfl

theorem reported_exchange_orElse (e : UnifyError) (inner : Option Side) (side : Side) :
    e.exchange.reported ((inner <|> some side).map Side.other)
      = e.reported (inner <|> some side) := by
  cases inner with
  | none => exact reported_exchange e side
  | some inner => exact reported_exchange e inner

end UnifyError

namespace Ty

/-- What a part of a node resolves to is smaller than what the node does. -/
theorem Matches.size_substitute_lt {l r : Ty} {action : Action} {ls rs : List Ty} {A : NodeId → Ty}
    (h : Matches l r action ls rs) {g : Ty × Ty} (hg : g ∈ ls.zip rs) :
    (g.1.substitute A).size < (l.substitute A).size := by
  have hmem : g.1 ∈ ls := (List.of_mem_zip hg).1
  cases h with
  | arrow i j d c d' c' =>
    rw [substitute_arrow, size_arrow]
    rcases List.mem_pair.1 hmem with heq | heq <;> rw [heq] <;> omega
  | product i j hlen =>
    rw [substitute_product, size_product]
    exact Nat.lt_succ_of_le (size_le_sizeAll (List.mem_map_of_mem hmem))

end Ty

namespace Substitution

variable {s : Substitution} {l r x y : Ty} {goals : List (Ty × Ty)}

/-! ## Pairs in a row -/

/-- Pairs that bind nothing leave the work on the others as it is. -/
theorem exists_course_append {before : List (Ty × Ty)} {a : Attempt}
    (hbefore : ∀ g ∈ before, s.Ends g.1 g.2 (.ok s)) (h : Course s goals a) :
    ∃ steps, Course s (before ++ goals) ⟨steps, a.result⟩ := by
  induction before with
  | nil => exact ⟨a.steps, h⟩
  | cons g before ih =>
    obtain ⟨⟨steps, hg⟩, hbefore⟩ := List.forall_mem_cons.1 hbefore
    obtain ⟨steps', hrest⟩ := ih hbefore
    refine ⟨steps ++ steps', follows_unifyWithin _ hg (b := ⟨steps', a.result⟩) fun s' hs' => ?_⟩
    cases hs'
    exact hrest

theorem exists_course_first {before : List (Ty × Ty)} {p : Ty × Ty} {e : UnifyError}
    (hbefore : ∀ g ∈ before, s.Ends g.1 g.2 (.ok s)) (hp : s.Ends p.1 p.2 (.error e))
    (after : List (Ty × Ty)) : ∃ steps, Course s (before ++ p :: after) ⟨steps, .error e⟩ := by
  obtain ⟨steps, hp⟩ := hp
  -- nothing after the failure is looked at, so that any attempt may stand for it
  exact exists_course_append hbefore (follows_unifyWithin _ hp (b := ⟨[], .ok s⟩) nofun)

/-! ## The first clash -/

/-- Two types that can be taken no further, and how they fail if the left one was expected. -/
inductive Clash (s : Substitution) : Ty → Ty → UnifyError → Prop
  | arity (i j : NodeId) {ls rs : List Ty} (hlen : ls.length ≠ rs.length) :
      Clash s (.product i ls) (.product j rs) (.arity ls.length rs.length)
  | mismatch {l r l' r' : Ty} (hne : l.alike r = false) (hclash : l.clashes r = true)
      (hl : s.resolve? l = some l') (hr : s.resolve? r = some r') :
      Clash s l r (.mismatch l' r')

theorem Clash.exchange {e : UnifyError} (h : s.Clash l r e) : s.Clash r l e.exchange := by
  cases h with
  | arity i j hlen => exact .arity j i hlen.symm
  | mismatch hne hclash hl hr =>
    rw [Ty.alike_comm] at hne
    rw [Ty.clashes_comm] at hclash
    exact .mismatch hne hclash hr hl

theorem Clash.ends {e : UnifyError} (h : s.Clash l r e) : s.Ends l r (.error e) := by
  cases h with
  | arity i j hlen => exact ends_of_course (.arity i j [] hlen)
  | mismatch hne hclash hl hr => exact ends_of_course (.clash [] hne hclash hl hr)

/-- Replacing the variables of a pair by what they are bound to, and the side of the variable if
there is only one. -/
inductive Expands (s : Substitution) : Ty → Ty → Option Side → Ty → Ty → Prop
  | left {v : NodeId} {u r : Ty} (hv : s.find? v = some (.bound u)) (hr : ∀ w, r ≠ .flexible w) :
      Expands s (.flexible v) r (some .left) u r
  | right {v : NodeId} {l u : Ty} (hl : ∀ w, l ≠ .flexible w) (hv : s.find? v = some (.bound u)) :
      Expands s l (.flexible v) (some .right) l u
  -- two variables keep their sides, and neither was replaced alone
  | both {v w : NodeId} {u u' : Ty} (hv : s.find? v = some (.bound u))
      (hw : s.find? w = some (.bound u')) : Expands s (.flexible v) (.flexible w) none u u'

/-- Two bound variables are replaced one after the other, and each keeps its side. -/
theorem WellFormed.ends_of_bound_both (hs : s.WellFormed) {v w : NodeId} {u u' : Ty}
    {result : Except UnifyError Substitution}
    (hne : (Ty.flexible v).alike (.flexible w) = false) (hv : s.find? v = some (.bound u))
    (hw : s.find? w = some (.bound u')) (h : s.Ends u u' result) :
    s.Ends (.flexible v) (.flexible w) result := by
  obtain ⟨z, hz⟩ := exists_get?_of_find? hv
  have hnext : (Ty.flexible w).alike u = false := Ty.alike_flexible_of_ne (hs.tidy z u hz)
  exact (h.expand hnext (.left w u) hw).expand hne (.left v _) hv

/-- The first clash that unifying `l` with `r` meets: how it fails if the type from `l` is expected,
and the side of the last variable that was replaced alone on the way. -/
inductive FirstClash (s : Substitution) : Ty → Ty → Option Side → UnifyError → Prop
  | here {l r : Ty} {e : UnifyError} (h : s.Clash l r e) : FirstClash s l r none e
  -- of the variables that were replaced alone the innermost counts
  | expand {l r x y : Ty} {side inner : Option Side} {e : UnifyError} (hne : l.alike r = false)
      (h : s.Expands l r side x y) (hfirst : FirstClash s x y inner e) :
      FirstClash s l r (inner <|> side) e
  -- the parts are taken from left to right
  | part {l r x y : Ty} {action : Action} {ls rs : List Ty} {before after : List (Ty × Ty)}
      {side : Option Side} {e : UnifyError} (hne : l.alike r = false)
      (h : Ty.Matches l r action ls rs) (hzip : ls.zip rs = before ++ (x, y) :: after)
      (hbefore : ∀ g ∈ before, s.Passes g.1 g.2) (hfirst : FirstClash s x y side e) :
      FirstClash s l r side e

/-- Two nodes end as their parts do. -/
theorem ends_of_parts {action : Action} {ls rs : List Ty} {steps : List Step}
    {result : Except UnifyError Substitution} (hne : l.alike r = false)
    (hparts : Ty.Matches l r action ls rs) (h : Course s (ls.zip rs) ⟨steps, result⟩) :
    s.Ends l r result := by
  rw [← List.append_nil (ls.zip rs)] at h
  exact ends_of_course (.decompose hne hparts h)

/-- A first clash is what unifying ends with, in either order. -/
theorem FirstClash.ends {side : Option Side} {e : UnifyError} (h : s.FirstClash l r side e)
    (hs : s.WellFormed) : s.Ends l r (.error (e.reported side)) ∧
      s.Ends r l (.error (e.exchange.reported (side.map Side.other))) := by
  induction h with
  | here h => exact ⟨h.ends, h.exchange.ends⟩
  | @expand l r x y side inner e hne hexp _ ih =>
    obtain ⟨hx, hy⟩ := ih
    cases hexp with
    | left hv hr =>
      -- from either side the work goes on with the variable's type on the right
      rw [e.reported_exchange_orElse, e.reported_orElse_left]
      exact ends_of_bound hr hv hy
    | right hl hv =>
      rw [e.reported_exchange_orElse, e.reported_orElse_right]
      exact (ends_of_bound hl hv hx).symm
    | both hv hw =>
      have hne' := hne
      rw [Ty.alike_comm] at hne'
      have hside : (inner <|> none) = inner := by cases inner <;> rfl
      rw [hside]
      exact ⟨hs.ends_of_bound_both hne hv hw hx, hs.ends_of_bound_both hne' hw hv hy⟩
  | @part l r x y action ls rs before after side e hne hparts hzip hbefore _ ih =>
    obtain ⟨hx, hy⟩ := ih
    have hne' := hne
    rw [Ty.alike_comm] at hne'
    obtain ⟨steps, hcourse⟩ :=
      exists_course_first (p := (x, y)) (fun g hg => (hbefore g hg).1) hx after
    -- the same parts with their sides exchanged
    have hzip' : rs.zip ls = before.map Prod.swap ++ (y, x) :: after.map Prod.swap := by
      rw [← List.zip_swap ls rs, hzip, List.map_append, List.map_cons]
      rfl
    have hbefore' : ∀ g ∈ before.map Prod.swap, s.Ends g.1 g.2 (.ok s) :=
      List.forall_mem_map.2 fun g hg => (hbefore g hg).2
    obtain ⟨steps', hcourse'⟩ :=
      exists_course_first (p := (y, x)) hbefore' hy (after.map Prod.swap)
    rw [← hzip] at hcourse
    rw [← hzip'] at hcourse'
    exact ⟨ends_of_parts hne hparts hcourse, ends_of_parts hne' hparts.symm hcourse'⟩

/-! ## Pairs that are decided without binding anything -/

/-- The two types can be unified without binding anything, or meet a first clash. -/
inductive Decided (s : Substitution) (l r : Ty) : Prop
  | passes (h : s.Passes l r)
  | clashes {side : Option Side} {e : UnifyError} (h : s.FirstClash l r side e)

namespace Decided

/-- A pair is decided as what its variables are bound to. -/
theorem expand {side : Option Side} (hs : s.WellFormed) (hexp : s.Expands l r side x y)
    (hne : l.alike r = false) (h : s.Decided x y) : s.Decided l r := by
  cases h with
  | clashes h => exact .clashes (.expand hne hexp h)
  | passes h =>
    cases hexp with
    | left hv hr => exact .passes (ends_of_bound hr hv h.2)
    | right hl hv => exact .passes (ends_of_bound hl hv h.1).symm
    | both hv hw =>
      have hne' := hne
      rw [Ty.alike_comm] at hne'
      exact .passes ⟨hs.ends_of_bound_both hne hv hw h.1, hs.ends_of_bound_both hne' hw hv h.2⟩

/-- Of several pairs, either all pass, or one is the first that does not. -/
theorem all_or_first (h : ∀ g ∈ goals, s.Decided g.1 g.2) :
    (∀ g ∈ goals, s.Passes g.1 g.2) ∨
      ∃ before x y after side e, goals = before ++ (x, y) :: after ∧
        (∀ g ∈ before, s.Passes g.1 g.2) ∧ s.FirstClash x y side e := by
  induction goals with
  | nil => exact .inl (by simp)
  | cons g goals ih =>
    obtain ⟨hg, hgoals⟩ := List.forall_mem_cons.1 h
    cases hg with
    | clashes hclash => exact .inr ⟨[], g.1, g.2, goals, _, _, rfl, by simp, hclash⟩
    | passes hpass =>
      rcases ih hgoals with hall | ⟨before, x, y, after, side, e, rfl, hbefore, hclash⟩
      · exact .inl (List.forall_mem_cons.2 ⟨hpass, hall⟩)
      · exact .inr ⟨g :: before, x, y, after, side, e, rfl,
          List.forall_mem_cons.2 ⟨hpass, hbefore⟩, hclash⟩

/-- Two nodes are decided as their parts are. -/
theorem of_parts {action : Action} {ls rs : List Ty} (hparts : Ty.Matches l r action ls rs)
    (h : ∀ g ∈ ls.zip rs, s.Decided g.1 g.2) : s.Decided l r := by
  by_cases heq : l.alike r = true
  · exact .passes (passes_of_alike heq)
  have hne : l.alike r = false := by simpa using heq
  have hne' : r.alike l = false := by rwa [Ty.alike_comm]
  rcases all_or_first h with hall | ⟨before, x, y, after, side, e, hzip, hbefore, hclash⟩
  · obtain ⟨steps, hcourse⟩ := exists_course_append (fun g hg => (hall g hg).1) (.done s)
    have hall' : ∀ g ∈ rs.zip ls, s.Ends g.1 g.2 (.ok s) := by
      rw [← List.zip_swap ls rs, List.forall_mem_map]
      exact fun g hg => (hall g hg).2
    obtain ⟨steps', hcourse'⟩ := exists_course_append hall' (.done s)
    rw [List.append_nil] at hcourse hcourse'
    exact .passes ⟨ends_of_parts hne hparts hcourse, ends_of_parts hne' hparts.symm hcourse'⟩
  · exact .clashes (.part hne hparts hzip hbefore hclash)

end Decided

/-! ## Types without open variables -/

/-- No flexible variable is free in what the type resolves to. -/
def Grounds (s : Substitution) (t : Ty) : Prop :=
  ∀ v, TyVar.flexible v ∉ (t.substitute s.image).freeVars

theorem partClosed_grounds (s : Substitution) : Ty.PartClosed s.Grounds :=
  s.partClosed_openAmong fun _ => False

/-- A type without open variables is no variable, or a variable that is bound to such a type. -/
theorem Grounds.head {t : Ty} (h : s.Grounds t) (hs : s.WellFormed) (hacyclic : s.Acyclic) :
    (∀ w, t ≠ .flexible w) ∨ ∃ v u, t = .flexible v ∧ s.find? v = some (.bound u) ∧
      (∀ w, u ≠ .flexible w) ∧ u.substitute s.image = t.substitute s.image := by
  by_cases ht : ∃ v, t = .flexible v
  · obtain ⟨v, rfl⟩ := ht
    obtain ⟨look, hv⟩ := hs.rooted v
    cases look with
    | unbound w =>
      refine absurd ?_ (h w)
      rw [Ty.substitute_flexible, hacyclic.image_of_unbound hv]
      exact .head _
    | bound u =>
      obtain ⟨x, hx⟩ := exists_get?_of_find? hv
      refine .inr ⟨v, u, rfl, hv, hs.tidy x u hx, ?_⟩
      rw [Ty.substitute_flexible, hacyclic.image_of_bound hv]
  · exact .inl fun w hw => ht ⟨w, hw⟩

/-- Two types that are no variables are decided once their parts are. -/
theorem Acyclic.decided_of_ne_flexible (hacyclic : s.Acyclic) (hl : ∀ w, l ≠ .flexible w)
    (hr : ∀ w, r ≠ .flexible w) (hparts : ∀ action ls rs, Ty.Matches l r action ls rs →
      ∀ g ∈ ls.zip rs, s.Decided g.1 g.2) : s.Decided l r := by
  cases Ty.confrontation l r with
  | faces hface =>
    cases hface with
    | left => exact absurd rfl (hl _)
    | right => exact absurd rfl (hr _)
  | absorb habs => exact .passes (passes_of_absorbs habs)
  | parts hmatch => exact .of_parts hmatch (hparts _ _ _ hmatch)
  | arity i j hlen => exact .clashes (.here (.arity i j hlen))
  | clash hclash =>
    by_cases heq : l.alike r = true
    · exact .passes (passes_of_alike heq)
    · have hne : l.alike r = false := by simpa using heq
      exact .clashes (.here
        (.mismatch hne hclash (hacyclic.resolve?_eq l) (hacyclic.resolve?_eq r)))

/-- Two types without open variables can be unified without binding anything, or meet a first
clash. -/
theorem Grounds.decided (hl : s.Grounds l) (hr : s.Grounds r) (hs : s.WellFormed)
    (hacyclic : s.Acyclic) : s.Decided l r := by
  induction hn : (l.substitute s.image).size using Nat.strong_induction_on generalizing l r with
  | _ n ih =>
  -- replacing a variable keeps the size, and taking a node apart makes it smaller
  have hnode : ∀ x y, (∀ w, x ≠ .flexible w) → (∀ w, y ≠ .flexible w) →
      x.substitute s.image = l.substitute s.image → y.substitute s.image = r.substitute s.image →
      s.Decided x y := by
    intro x y hx hy hxl hyr
    refine hacyclic.decided_of_ne_flexible hx hy fun action xs ys hmatch g hg => ?_
    have hgx : s.Grounds x := by rwa [Grounds, hxl]
    have hgy : s.Grounds y := by rwa [Grounds, hyr]
    obtain ⟨hg1, hg2⟩ := hmatch.of_partClosed (partClosed_grounds s) hgx hgy g hg
    refine ih _ ?_ hg1 hg2 rfl
    rw [← hn, ← hxl]
    exact hmatch.size_substitute_lt hg
  by_cases heq : l.alike r = true
  · exact .passes (passes_of_alike heq)
  have hne : l.alike r = false := by simpa using heq
  rcases hl.head hs hacyclic with hl' | ⟨v, u, rfl, hv, hu, hul⟩ <;>
    rcases hr.head hs hacyclic with hr' | ⟨w, u', rfl, hw, hu', hur⟩
  · exact hnode l r hl' hr' rfl rfl
  · exact .expand hs (.right hl' hw) hne (hnode l u' hl' hu' rfl hur)
  · exact .expand hs (.left hv hr') hne (hnode u r hu hr' hul rfl)
  · exact .expand hs (.both hv hw) hne (hnode u u' hu hu' hul hur)

/-- If two types without open variables cannot be unified, they meet a first clash, and their
failure is that of the clash. It is reported the other way round if the last variable that was
replaced alone stood on the left. Unifying in the other order fails too, with the sides exchanged if
no variable was replaced alone, and else with the same report. -/
theorem unify?_error_sides {a b a' b' : Ty} {steps : List Step} {e : UnifyError}
    (hbuilt : Relation.ReflTransGen Unifies .empty s) (hacyclic : s.Acyclic)
    (ha : s.resolve? a = some a') (hfree : ∀ v, TyVar.flexible v ∉ a'.freeVars)
    (hb : s.resolve? b = some b') (hfree' : ∀ v, TyVar.flexible v ∉ b'.freeVars)
    (h : s.unify? a b = some ⟨steps, .error e⟩) :
    (∃ side clash, s.FirstClash a b side clash) ∧
      ∀ side clash, s.FirstClash a b side clash → e = clash.reported side ∧
        ∃ steps', s.unify? b a
          = some ⟨steps', .error (if side = none then e.exchange else e)⟩ := by
  have hs := wellFormed_of_reflTransGen hbuilt
  rw [hacyclic.resolve?_eq, Option.some.injEq] at ha hb
  have hga : s.Grounds a := by rwa [Grounds, ha]
  have hgb : s.Grounds b := by rwa [Grounds, hb]
  constructor
  · cases hga.decided hgb hs hacyclic with
    | clashes hclash => exact ⟨_, _, hclash⟩
    | passes hpass =>
      obtain ⟨⟨steps', hok⟩, -⟩ := hpass
      rw [hok] at h
      cases h
  · intro side clash hclash
    obtain ⟨⟨steps', hab⟩, steps'', hba⟩ := hclash.ends hs
    rw [hab] at h
    cases h
    refine ⟨rfl, steps'', ?_⟩
    rw [hba]
    cases side with
    | none => rfl
    | some side => simp [UnifyError.reported_exchange]

/-- Below an arrow, a variable that is bound to one type meets another. -/
theorem unify?_error_sides_codomain : ∃ e steps',
    (Substitution.empty.assign 0 (.primitive 5 .i32)).FirstClash
      (.arrow 6 (.flexible 0) (.flexible 0))
      (.arrow 7 (.primitive 8 .i32) (.primitive 9 .string)) (some .left)
      (.mismatch (.primitive 5 .i32) (.primitive 9 .string)) ∧
    e = .mismatch (.primitive 9 .string) (.primitive 5 .i32) ∧
    (Substitution.empty.assign 0 (.primitive 5 .i32)).unify?
        (.arrow 7 (.primitive 8 .i32) (.primitive 9 .string))
        (.arrow 6 (.flexible 0) (.flexible 0)) = some ⟨steps', .error e⟩ := by
  have hbuilt : Relation.ReflTransGen Unifies .empty
      (Substitution.empty.assign 0 (.primitive 5 .i32)) :=
    .single ⟨.flexible 0, .primitive 5 .i32, _, rfl⟩
  have hacyclic : (Substitution.empty.assign 0 (.primitive 5 .i32)).Acyclic :=
    acyclic_of_measure (fun _ => 0) (by decide)
  obtain ⟨steps, e, hfail⟩ : ∃ steps e, (Substitution.empty.assign 0 (.primitive 5 .i32)).unify?
      (.arrow 6 (.flexible 0) (.flexible 0)) (.arrow 7 (.primitive 8 .i32) (.primitive 9 .string))
      = some ⟨steps, .error e⟩ := ⟨_, _, rfl⟩
  -- the domains pass, and the variable is replaced alone on the left of the codomains
  have hdomain : ∀ g ∈ [(Ty.flexible 0, Ty.primitive 8 .i32)],
      (Substitution.empty.assign 0 (.primitive 5 .i32)).Passes g.1 g.2 := by
    simpa using ⟨⟨_, rfl⟩, ⟨_, rfl⟩⟩
  have hexpands : (Substitution.empty.assign 0 (.primitive 5 .i32)).Expands (.flexible 0)
      (.primitive 9 .string) (some .left) (.primitive 5 .i32) (.primitive 9 .string) :=
    .left rfl nofun
  have hclash := FirstClash.part rfl (.arrow 6 7 _ _ _ _) rfl hdomain
    (.expand rfl hexpands (.here (.mismatch rfl rfl rfl rfl)))
  obtain ⟨-, hsides⟩ := unify?_error_sides hbuilt hacyclic rfl (by simp [Ty.freeVars]) rfl
    (by simp [Ty.freeVars]) hfail
  obtain ⟨he, steps', hother⟩ := hsides _ _ hclash
  exact ⟨e, steps', hclash, he, hother⟩

/-- A variable that is bound to one type meets another: in either order the report is that the type
of the variable was found. -/
theorem unify?_error_same_sides : ∃ (s : Substitution) (e : UnifyError) (steps steps' : List Step),
    Relation.ReflTransGen Unifies .empty s ∧ s.Acyclic ∧
    s.resolve? (.flexible 0) = some (.primitive 5 .i32) ∧
    s.unify? (.flexible 0) (.primitive 6 .string) = some ⟨steps, .error e⟩ ∧
    s.unify? (.primitive 6 .string) (.flexible 0) = some ⟨steps', .error e⟩ ∧
    e = .mismatch (.primitive 6 .string) (.primitive 5 .i32) ∧ e ≠ e.exchange :=
  ⟨Substitution.empty.assign 0 (.primitive 5 .i32), _, _, _,
    .single ⟨.flexible 0, .primitive 5 .i32, _, rfl⟩,
    acyclic_of_measure (fun _ => 0) (by decide), rfl, rfl, rfl, rfl, by simp [UnifyError.exchange]⟩

end Substitution

end CoContextual
