import CoContextual.Proofs.Expression.Inferred

/-!
# The derivations at hand

The derivations that a session has at hand are as the rules make them, and each has identities of
its own (`Pool`). A step takes some of them, draws new identities and puts a new derivation in
their place (`Pool.step`); along a whole session that gives `Session.orderly`.
-/

namespace CoContextual

/-- Derivations as the rules make them. No identity belongs to two of them, and all were `drawn`
already. -/
structure Pool (drawn : List NodeId) (parts : List Part) : Prop where
  /-- The rules made the derivations. -/
  inferred : ∀ p ∈ parts, Inferred p.expr p.derivation p.ids
  /-- No identity was drawn twice. -/
  nodup : (parts.flatMap Part.ids).Nodup
  /-- All identities were drawn already. -/
  subset : parts.flatMap Part.ids ⊆ drawn

namespace Pool

variable {drawn drawn' : List NodeId} {parts parts' picked rest : List Part}

theorem perm (h : Pool drawn parts) (hperm : parts'.Perm parts) : Pool drawn parts' := by
  have hids := hperm.flatMap_right Part.ids
  exact ⟨fun p hp => h.inferred p (hperm.mem_iff.1 hp), hids.nodup_iff.2 h.nodup,
    fun id hid => h.subset (hids.mem_iff.1 hid)⟩

theorem mono (h : Pool drawn parts) (hsub : drawn ⊆ drawn') : Pool drawn' parts :=
  ⟨h.inferred, h.nodup, fun _ hid => hsub (h.subset hid)⟩

theorem left (h : Pool drawn (picked ++ rest)) : Pool drawn picked := by
  obtain ⟨hinferred, hnodup, hsubset⟩ := h
  rw [List.flatMap_append] at hnodup hsubset
  exact ⟨fun p hp => hinferred p (List.mem_append_left _ hp), (List.nodup_append'.1 hnodup).1,
    fun id hid => hsubset (List.mem_append_left _ hid)⟩

/-- A derivation takes the place of those it is made of. -/
theorem step (h : Pool drawn (picked ++ rest)) {new : List NodeId} {p : Part} (hnodup : new.Nodup)
    (hnew : drawn.Disjoint new) (hp : Inferred p.expr p.derivation p.ids)
    (hids : p.ids = new ++ picked.flatMap Part.ids) : Pool (drawn ++ new) (p :: rest) := by
  -- the identities at hand are the old ones and the new ones
  have hflat : (p :: rest).flatMap Part.ids = new ++ (picked ++ rest).flatMap Part.ids := by
    rw [List.flatMap_cons, hids, List.flatMap_append, List.append_assoc]
  refine ⟨?_, ?_, ?_⟩
  · intro q hq
    rcases List.mem_cons.1 hq with rfl | hq
    · exact hp
    · exact h.inferred q (List.mem_append_right _ hq)
  · rw [hflat, List.nodup_append']
    exact ⟨hnodup, h.nodup, fun id hid hold => hnew (h.subset hold) hid⟩
  · intro id hid
    rw [hflat, List.mem_append] at hid
    rcases hid with hid | hid
    · exact List.mem_append_right _ hid
    · exact List.mem_append_left _ (h.subset hid)

end Pool

/-- The expression of a part with its derivation. -/
def Part.tree (p : Part) : Expr × Derivation := (p.expr, p.derivation)

/-- Reordering what a list is mapped to is reordering the list. -/
theorem exists_perm_of_map_perm {α β : Type} {f : α → β} {l : List α} {m : List β}
    (h : (l.map f).Perm m) : ∃ l' : List α, l'.Perm l ∧ l'.map f = m := by
  generalize hm : l.map f = m' at h
  induction h generalizing l with
  | nil => exact ⟨l, .refl l, hm⟩
  | cons x _ ih =>
    obtain ⟨a, l, rfl, rfl, hl⟩ := List.map_eq_cons_iff.1 hm
    obtain ⟨l', hperm, hmap⟩ := ih hl
    exact ⟨a :: l', hperm.cons a, by rw [List.map_cons, hmap]⟩
  | swap x y m =>
    obtain ⟨a, l, rfl, rfl, hl⟩ := List.map_eq_cons_iff.1 hm
    obtain ⟨b, l, rfl, rfl, rfl⟩ := List.map_eq_cons_iff.1 hl
    exact ⟨b :: a :: l, .swap a b l, rfl⟩
  | trans _ _ ih₁ ih₂ =>
    obtain ⟨l₁, hperm₁, hmap₁⟩ := ih₁ hm
    obtain ⟨l₂, hperm₂, hmap₂⟩ := ih₂ hmap₁
    exact ⟨l₂, hperm₂.trans hperm₁, hmap₂⟩

/-- The derivations that some trees come from. -/
def Pooled (drawn : List NodeId) (trees : List (Expr × Derivation)) : Prop :=
  ∃ parts, parts.map Part.tree = trees ∧ Pool drawn parts

/-- Trees that are picked from those at hand come from some of the derivations. -/
theorem Pooled.pick {drawn : List NodeId} {trees picked rest : List (Expr × Derivation)}
    (h : Pooled drawn trees) (hpick : trees.Perm (picked ++ rest)) :
    ∃ parts others, parts.map Part.tree = picked ∧ others.map Part.tree = rest ∧
      Pool drawn (parts ++ others) := by
  obtain ⟨parts, rfl, hpool⟩ := h
  obtain ⟨parts', hperm, hmap⟩ := exists_perm_of_map_perm hpick
  obtain ⟨left, right, rfl, hleft, hright⟩ := List.map_eq_append_iff.1 hmap
  exact ⟨left, right, hleft, hright, hpool.perm hperm⟩

/-- What a session that began with the source `s` knows of its typer and of the derivations at
hand. -/
def Orderly (s : IdSource) (g : Typer) (trees : List (Expr × Derivation)) : Prop :=
  ∃ n, g.ids = s.advance n ∧ Pooled (s.taken n) trees

/-- A rule that draws identities and makes a derivation of those it picks keeps a session
orderly. -/
theorem Orderly.step {s : IdSource} {g g' : Typer} {trees rest : List (Expr × Derivation)}
    {e : Expr} {d : Derivation} (h : Orderly s g trees) (picked : List (Expr × Derivation))
    (hpick : trees.Perm (picked ++ rest)) (hids : s.Distinct g'.ids)
    (hinferred : ∀ parts : List Part, parts.map Part.tree = picked →
      ∃ n, g'.ids = g.ids.advance n ∧
        ((parts.flatMap Part.ids).Disjoint (g.ids.taken n) → ∀ drawn, Pool drawn parts →
          Inferred e d (g.ids.taken n ++ parts.flatMap Part.ids))) :
    Orderly s g' ((e, d) :: rest) := by
  obtain ⟨k, hk, hpooled⟩ := h
  obtain ⟨parts, others, hparts, rfl, hpool⟩ := hpooled.pick hpick
  obtain ⟨n, hn, hinferred⟩ := hinferred parts hparts
  have hadvance : g'.ids = s.advance (k + n) := by rw [hn, hk, IdSource.advance_add]
  -- what is drawn now is distinct from all that was drawn before
  have hnodup := hids (k + n) hadvance
  rw [IdSource.taken_add, ← hk] at hnodup
  obtain ⟨-, hnodup, hnew⟩ := List.nodup_append'.1 hnodup
  have hd := hinferred (fun id hid hid' => hnew (hpool.left.subset hid) hid') _ hpool.left
  refine ⟨k + n, hadvance, ⟨e, d, g.ids.taken n ++ parts.flatMap Part.ids⟩ :: others, rfl, ?_⟩
  rw [IdSource.taken_add, ← hk]
  exact hpool.step hnodup hnew hd rfl

/-- A rule without operands keeps a session orderly. -/
theorem Orderly.leaf {s : IdSource} {g g' : Typer} {trees : List (Expr × Derivation)} {e : Expr}
    {d : Derivation} {n : ℕ} (h : Orderly s g trees) (hids : s.Distinct g'.ids)
    (hadvance : g'.ids = g.ids.advance n) (hinferred : Inferred e d (g.ids.taken n)) :
    Orderly s g' ((e, d) :: trees) := by
  refine h.step [] (.refl _) hids fun parts hparts => ⟨n, hadvance, fun _ _ _ => ?_⟩
  obtain rfl := List.map_eq_nil_iff.1 hparts
  rwa [List.flatMap_nil, List.append_nil]

/-- A rule with one operand keeps a session orderly. -/
theorem Orderly.node {s : IdSource} {g g' : Typer} {trees rest : List (Expr × Derivation)}
    {e : Expr} {d : Derivation} {n : ℕ} {operand : Expr × Derivation} (h : Orderly s g trees)
    (hpick : trees.Perm (operand :: rest)) (hids : s.Distinct g'.ids)
    (hadvance : g'.ids = g.ids.advance n)
    (hinferred : ∀ ids, Inferred operand.1 operand.2 ids → Inferred e d (g.ids.taken n ++ ids)) :
    Orderly s g' ((e, d) :: rest) := by
  refine h.step [operand] hpick hids fun parts hparts => ⟨n, hadvance, fun _ _ hpool => ?_⟩
  obtain ⟨p, rfl, rfl⟩ := List.map_eq_singleton_iff.1 hparts
  rw [List.flatMap_singleton]
  exact hinferred p.ids (hpool.inferred p (.head _))

/-- Placed trees come from placed derivations. -/
theorem exists_placed_parts {arguments : List (Placed (Expr × Derivation))} {parts : List Part}
    (h : parts.map Part.tree = arguments.map Placed.item) :
    ∃ args : List (Placed Part), args.map Placed.item = parts ∧
      args.map (Placed.map Part.tree) = arguments := by
  induction arguments generalizing parts with
  | nil => exact ⟨[], by simpa using h.symm, rfl⟩
  | cons a arguments ih =>
    obtain ⟨p, parts, rfl, hp, hparts⟩ := List.map_eq_cons_iff.1 h
    obtain ⟨args, rfl, rfl⟩ := ih hparts
    refine ⟨⟨a.offset, p⟩ :: args, rfl, ?_⟩
    rw [List.map_cons, Placed.map, hp]

/-- The callee's identities occur neither in the arguments nor among the new ones. -/
theorem Pool.callee_fresh {drawn new extra : List NodeId} {p : Part}
    {arguments : List (Placed Part)} {domain : Ty} {result arrow : NodeId}
    (h : Pool drawn (p :: arguments.map Placed.item))
    (hnew : ((p :: arguments.map Placed.item).flatMap Part.ids).Disjoint new)
    (hdomain : Ty.IsArguments (arguments.map fun a => a.item.derivation.type) domain extra)
    (htaken : result :: (extra ++ [arrow]) = new) :
    ∀ v ∈ p.ids, v ∉ (Ty.arrow arrow domain (.flexible result)).mentions := by
  intro v hv hmem
  rw [Ty.mentions_arrow, List.mem_append, Ty.mentions_flexible, List.mem_singleton] at hmem
  have hnodup := h.nodup
  rw [List.flatMap_cons] at hnodup hnew
  rcases hmem with hmem | rfl
  · obtain ⟨t, ht, hmem⟩ := hdomain.exists_of_mem_mentions hmem
    obtain ⟨a, ha, rfl⟩ := List.mem_map.1 ht
    have hitem := List.mem_map_of_mem (f := Placed.item) ha
    refine (List.nodup_append'.1 hnodup).2.2 hv (List.mem_flatMap.2 ⟨a.item, hitem, ?_⟩)
    exact (h.inferred a.item (.tail _ hitem)).leaf.over.mentions_mem v hmem
  · rw [← htaken] at hnew
    exact hnew (List.mem_append_left _ hv) (.head _)

/-- The rule for calls makes derivations of its kind, if the parts have identities of their own. -/
theorem Inferred.of_ofCall {ids ids' : IdSource} {offset : Offset} {p : Part}
    {arguments : List (Placed Part)} {span : Span} {d : Derivation} {steps : List Step}
    (h : Derivation.ofCall ⟨offset, p.derivation⟩ (arguments.map (Placed.map Part.derivation)) span
      ids = .ok ((d, steps), ids')) :
    ∃ n, ids' = ids.advance n ∧
      (((p :: arguments.map Placed.item).flatMap Part.ids).Disjoint (ids.taken n) →
        ∀ drawn, Pool drawn (p :: arguments.map Placed.item) →
        Inferred (.call ⟨offset, p.expr⟩ (arguments.map (Placed.map Part.expr)) span) d
          (ids.taken n ++ (p :: arguments.map Placed.item).flatMap Part.ids)) := by
  obtain ⟨n, result, arrow, extra, domain, attempt, site, htaken, hadvance, hdomain, hattempt, rfl,
    hsite⟩ := Derivation.ofCall_eq_ok h
  refine ⟨n, hadvance, fun hdisjoint drawn hpool => ?_⟩
  -- the rule sees derivations, and `Inferred` the parts they belong to
  have htypes : ((arguments.map (Placed.map Part.derivation)).map fun a => a.item.type)
      = arguments.map fun a => a.item.derivation.type := by
    rw [List.map_map]
    rfl
  rw [htypes] at hdomain
  have hp := hpool.inferred p (.head _)
  have hargs : ∀ a ∈ arguments, Inferred a.item.expr a.item.derivation a.item.ids :=
    fun a ha => hpool.inferred a.item (.tail _ (List.mem_map_of_mem ha))
  have hflat : (p :: arguments.map Placed.item).flatMap Part.ids
      = p.ids ++ arguments.flatMap fun a => a.item.ids := by
    rw [List.flatMap_cons, List.flatMap_map]
  have hfresh := hpool.callee_fresh hdisjoint hdomain htaken
  have hscheme : domain.schemeFree = true :=
    hdomain.schemeFree (List.forall_mem_map.2 fun a ha => (hargs a ha).leaf.over.schemeFree)
  obtain ⟨hsettles, hreports⟩ := CallSite.settles_of_unify? hp.leaf hscheme hfresh hattempt hsite
  have hcall := Inferred.call offset arguments span result arrow hdomain hsettles hreports hp hargs
  rw [hflat, ← htaken]
  simpa using hcall

/-- Along a session each derivation at hand is as the rules make it, with identities of its own. -/
theorem Session.orderly {g₀ g : Typer} {trees : List (Expr × Derivation)}
    (h : Session g₀ g trees) (hids : g₀.ids.Distinct g.ids) : Orderly g₀.ids g trees := by
  induction h with
  | start => exact ⟨0, rfl, [], rfl, ⟨by simp, by simp, by simp⟩⟩
  | @other g g' trees _ hother ih =>
    -- other work may draw identities, which then belong to no derivation
    obtain ⟨k, hk, parts, rfl, hpool⟩ := ih (hids.of_reaches hother)
    obtain ⟨n, hn⟩ := hother
    refine ⟨k + n, by rw [hn, hk, IdSource.advance_add], parts, rfl, ?_⟩
    rw [IdSource.taken_add]
    exact hpool.mono (List.subset_append_left _ _)
  | @atom g g' trees d a _ hd ih =>
    have hrun := Typer.infer_record_eq_ok hd
    cases a with
    | name text =>
      obtain ⟨id, span, hid, hadvance, hspan, rfl⟩ := Derivation.ofAtom_name_eq_ok hrun
      refine (ih (hids.of_reaches ⟨1, hadvance⟩)).leaf hids hadvance ?_
      rw [← hid]
      exact .name text id hspan
    | literal form text =>
      obtain ⟨id, span, hid, hadvance, hspan, rfl⟩ := Derivation.ofAtom_literal_eq_ok hrun
      refine (ih (hids.of_reaches ⟨1, hadvance⟩)).leaf hids hadvance ?_
      rw [← hid]
      exact .literal form text id hspan
  | @missing g g' trees d _ hd ih =>
    have hrun := Typer.fresh_record_eq_ok hd
    obtain ⟨rfl, hadvance⟩ := Prod.mk.inj hrun
    have hbefore := ih (hids.of_reaches ⟨1, hadvance.symm⟩)
    exact hbefore.leaf (n := 1) hids hadvance.symm (.missing _)
  | @grouping g g' trees rest d inner _ hpick hd ih =>
    obtain ⟨rfl, hsame⟩ := Typer.recordExpression_eq_ok hd
    -- nothing is drawn for a grouping
    have hbefore := ih (hids.of_reaches ⟨0, hsame⟩)
    exact hbefore.node (n := 0) hpick hids hsame fun _ => .grouping inner.offset
  | @unary g g' trees rest d operator span operand _ hpick hd ih =>
    have hrun := Typer.fresh_record_eq_ok hd
    obtain ⟨rfl, hadvance⟩ := Prod.mk.inj hrun
    have hbefore := ih (hids.of_reaches ⟨2, hadvance.symm⟩)
    exact hbefore.node (n := 2) hpick hids hadvance.symm fun _ =>
      .unary operator span operand.offset g.ids.draw.1 g.ids.draw.2.draw.1
  | @binary g g' trees rest d lhs operator span rhs _ hpick hd ih =>
    have hrun := Typer.fresh_record_eq_ok hd
    obtain ⟨rfl, hadvance⟩ := Prod.mk.inj hrun
    refine (ih (hids.of_reaches ⟨3, hadvance.symm⟩)).step [lhs.item, rhs.item] hpick hids ?_
    intro parts hparts
    obtain ⟨p, _, rfl, hp, hparts⟩ := List.map_eq_cons_iff.1 hparts
    obtain ⟨q, rfl, hq⟩ := List.map_eq_singleton_iff.1 hparts
    obtain ⟨offset, _⟩ := lhs
    obtain ⟨offset', _⟩ := rhs
    subst hp hq
    refine ⟨3, hadvance.symm, fun _ _ hpool => ?_⟩
    rw [List.flatMap_cons, List.flatMap_singleton]
    have hlhs := hpool.inferred p (.head _)
    have hrhs := hpool.inferred q (.tail _ (.head _))
    have hbinary := Inferred.binary offset operator span offset' g.ids.draw.1 g.ids.draw.2.draw.1
      g.ids.draw.2.draw.2.draw.1 hlhs hrhs
    exact hbinary
  | @call g g' trees rest d callee arguments span _ hpick hd ih =>
    -- how many identities a call draws depends on the number of its arguments
    obtain ⟨steps, hrun⟩ := Typer.call_eq_ok hd
    obtain ⟨n, -, -, -, -, -, -, -, hadvance, -⟩ := Derivation.ofCall_eq_ok hrun
    refine (ih (hids.of_reaches ⟨n, hadvance⟩)).step (callee.item :: arguments.map Placed.item)
      (by rwa [List.cons_append]) hids ?_
    intro parts hparts
    obtain ⟨p, parts, rfl, hp, hparts⟩ := List.map_eq_cons_iff.1 hparts
    obtain ⟨args, rfl, rfl⟩ := exists_placed_parts hparts
    obtain ⟨offset, _⟩ := callee
    subst hp
    rw [List.map_map] at hrun ⊢
    exact Inferred.of_ofCall hrun

/-- The derivation of a tree at hand is as the rules make it, with distinct identities that the
session has drawn. -/
theorem Session.exists_inferred {g₀ g : Typer} {trees : List (Expr × Derivation)}
    (h : Session g₀ g trees) (hids : g₀.ids.Distinct g.ids) {e : Expr} {d : Derivation}
    (hmem : (e, d) ∈ trees) :
    ∃ n ids, g.ids = g₀.ids.advance n ∧ ids ⊆ g₀.ids.taken n ∧ Inferred e d ids ∧ ids.Nodup := by
  obtain ⟨n, hn, parts, rfl, hpool⟩ := h.orderly hids
  obtain ⟨p, hp, htree⟩ := List.mem_map.1 hmem
  obtain ⟨rfl, rfl⟩ := Prod.mk.inj htree
  refine ⟨n, p.ids, hn, fun id hid => ?_, hpool.inferred p hp,
    (List.nodup_flatMap.1 hpool.nodup).1 p hp⟩
  exact hpool.subset (List.mem_flatMap.2 ⟨p, hp, hid⟩)

end CoContextual
