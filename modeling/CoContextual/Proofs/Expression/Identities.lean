import CoContextual.Proofs.Expression.Inferred

/-!
# The identities of a derivation

The types in a derivation are over the identities that were drawn for it: the type of the
expression (`Inferred.leaf`) and all types at which identifiers are used (`Inferred.over`). If no
identity is drawn twice, the parts of an expression have identities of their own; for the parts of
a call that is `CallSite.Apart`.
-/

namespace CoContextual

/-! ## Uses -/

/-- The types that come of a substitution have the identities of what was put in. -/
theorem Ty.Over.substitute {f : NodeId → Ty} {ids : List NodeId} {t : Ty} (h : t.Over ids)
    (hf : ∀ v ∈ t.mentions, (f v).Over ids) : (t.substitute f).Over ids := by
  refine ⟨(schemeFree_substitute h.schemeFree).2 fun v hv => (hf v hv).schemeFree, ?_, ?_⟩
  -- only a flexible variable gives up its identity
  · obtain ⟨hscheme, hid, -⟩ := h
    cases t with
    | scheme => cases hscheme
    | var v =>
      cases v with
      | flexible v => exact (hf v (.head _)).id_mem
      | rigid v => exact hid
    | _ => exact hid
  · intro w hw
    obtain ⟨v, hv, hw⟩ := exists_of_mem_mentions_substitute hw
    exact (hf v hv).mentions_mem w hw

theorem Ty.Over.flexible {ids : List NodeId} {v : NodeId} (h : v ∈ ids) :
    (Ty.flexible v).Over ids :=
  (Ty.Leaf.flexible h).over

/-- The function type that a call expects is over the identities of the call. -/
theorem Ty.IsArguments.over {types : List Ty} {domain : Ty} {extra ids : List NodeId}
    {result arrow : NodeId} (h : Ty.IsArguments types domain extra)
    (htypes : ∀ t ∈ types, t.Over ids) (hresult : result ∈ ids) (harrow : arrow ∈ ids) :
    (Ty.arrow arrow domain (.flexible result)).Over ids := by
  have hscheme := h.schemeFree fun t ht => (htypes t ht).schemeFree
  refine ⟨by simpa using hscheme, harrow, fun w hw => ?_⟩
  rw [mentions_arrow, List.mem_append, mentions_flexible, List.mem_singleton] at hw
  rcases hw with hw | rfl
  · obtain ⟨t, ht, hw⟩ := h.exists_of_mem_mentions hw
    exact (htypes t ht).mentions_mem w hw
  · exact hresult

/-- What a call requires is over the identities of what it inherits and of the function type. -/
theorem CallSite.Settles.over {inherited : Requirements} {result arrow : NodeId}
    {domain callee : Ty} {site : CallSite} {ids : List NodeId}
    (h : site.Settles inherited result arrow domain callee)
    (hinherited : inherited.Each fun _ t => t.Over ids)
    (harrow : (Ty.arrow arrow domain (.flexible result)).Over ids) :
    site.requirements.Each fun _ t => t.Over ids := by
  cases h with
  | @fits v hcallee s origins horigins =>
    rw [Requirements.each_mapTypes]
    refine hinherited.imp fun _ t ht => ht.substitute fun w hw => ?_
    exact Ty.only_elim (fun _ => harrow) fun _ => .flexible (ht.mentions_mem w hw)
  | absorbs hcallee s horigins =>
    rw [Requirements.each_mapTypes]
    exact hinherited.imp fun _ t ht => ht.substitute fun w hw => .flexible (ht.mentions_mem w hw)
  | clashes hcallee hne => exact hinherited

/-- What a call inherits is over the identities of its parts. -/
theorem Derivation.inheritedRequirements_over {d : Derivation} {ids : List NodeId} (offset : Offset)
    {arguments : List (Placed Part)} (hcallee : d.requirements.Each fun _ t => t.Over ids)
    (hargs : ∀ p ∈ arguments, p.item.derivation.requirements.Each fun _ t => t.Over p.item.ids) :
    (inheritedRequirements ⟨offset, d⟩ (arguments.map (Placed.map Part.derivation))).Each
      fun _ t => t.Over (ids ++ arguments.flatMap fun p => p.item.ids) := by
  refine each_inheritedRequirements.2 ⟨hcallee.imp fun _ t ht => ?_, ?_⟩
  · exact ht.mono (List.subset_append_left _ _)
  · refine List.forall_mem_map.2 fun p hp => (hargs p hp).imp fun _ t ht => ?_
    refine ht.mono fun id hid => ?_
    exact List.mem_append_right _ (List.mem_flatMap.2 ⟨p, hp, hid⟩)

/-- What a derivation requires is over the identities that were drawn for it. -/
theorem Inferred.over {e : Expr} {d : Derivation} {ids : List NodeId} (h : Inferred e d ids) :
    d.requirements.Each fun _ t => t.Over ids := by
  induction h with
  | name text id hspan =>
    exact Requirements.each_add.2 ⟨Requirements.each_empty, .flexible (.head _)⟩
  | literal form text id hspan => exact Requirements.each_empty
  | missing id => exact Requirements.each_empty
  | grouping offset _ ih => exact ih
  | @unary e d ids operator span offset result arrow h ih =>
    have hsub : ids ⊆ result :: arrow :: ids := fun _ hv => .tail _ (.tail _ hv)
    -- the operator's type is that of a function on one argument
    refine Requirements.each_add.2 ⟨ih.imp fun _ t ht => ht.mono hsub, ?_⟩
    exact (Ty.IsArguments.one d.type).over (by simpa using h.leaf.over.mono hsub) (.head _)
      (.tail _ (.head _))
  | @binary e e' d d' ids ids' offset operator span offset' result operands arrow h h' ih ih' =>
    have hsub : ids ⊆ result :: operands :: arrow :: (ids ++ ids') := fun _ hv =>
      .tail _ (.tail _ (.tail _ (List.mem_append_left _ hv)))
    have hsub' : ids' ⊆ result :: operands :: arrow :: (ids ++ ids') := fun _ hv =>
      .tail _ (.tail _ (.tail _ (List.mem_append_right _ hv)))
    refine Requirements.each_add.2 ⟨Requirements.each_append.2 ⟨?_, ?_⟩, ?_⟩
    · exact ih.imp fun _ t ht => ht.mono hsub
    · exact ih'.imp fun _ t ht => ht.mono hsub'
    · refine (Ty.IsArguments.many operands d.type d'.type []).over ?_ (.head _)
        (.tail _ (.tail _ (.head _)))
      simpa using ⟨h.leaf.over.mono hsub, h'.leaf.over.mono hsub'⟩
  | @call e d ids extra domain site offset arguments span result arrow hdomain hsite _ h hargs ih
      ihs =>
    have hsub : ids ++ (arguments.flatMap fun p => p.item.ids)
        ⊆ result :: (extra ++ arrow :: (ids ++ arguments.flatMap fun p => p.item.ids)) :=
      fun v hv => .tail _ (List.mem_append_right _ (.tail _ hv))
    have hinherited := Derivation.inheritedRequirements_over offset ih ihs
    refine hsite.over (hinherited.imp fun _ t ht => ht.mono hsub) (hdomain.over ?_ (.head _)
      (.tail _ (List.mem_append_right _ (.head _))))
    refine List.forall_mem_map.2 fun p hp => (hargs p hp).leaf.over.mono fun id hid => hsub ?_
    exact List.mem_append_right _ (List.mem_flatMap.2 ⟨p, hp, hid⟩)

/-! ## The parts of a call -/

/-- The parts of a call share no identity with each other, and none with the two of the call. -/
structure CallSite.Apart (result arrow : NodeId) (ids : List NodeId)
    (arguments : List (Placed Part)) : Prop where
  /-- The result has an identity of its own. -/
  result_not_mem : result ∉ ids ++ arguments.flatMap fun p => p.item.ids
  /-- The function type has an identity of its own. -/
  arrow_not_mem : arrow ∉ ids ++ arguments.flatMap fun p => p.item.ids
  /-- The identities of the callee are distinct. -/
  callee_nodup : ids.Nodup
  /-- The identities of the arguments are distinct. -/
  arguments_nodup : (arguments.flatMap fun p => p.item.ids).Nodup
  /-- No identity belongs to the callee and to an argument. -/
  disjoint : ids.Disjoint (arguments.flatMap fun p => p.item.ids)

namespace CallSite.Apart

variable {result arrow : NodeId} {ids : List NodeId} {arguments : List (Placed Part)}

theorem of_nodup {extra : List NodeId}
    (h : (result :: (extra ++ arrow :: (ids ++ arguments.flatMap fun p => p.item.ids))).Nodup) :
    Apart result arrow ids arguments := by
  obtain ⟨hresult, h⟩ := List.nodup_cons.1 h
  obtain ⟨-, h, -⟩ := List.nodup_append'.1 h
  obtain ⟨harrow, h⟩ := List.nodup_cons.1 h
  obtain ⟨hcallee, harguments, hdisjoint⟩ := List.nodup_append'.1 h
  exact ⟨fun hmem => hresult (List.mem_append_right _ (.tail _ hmem)), harrow, hcallee, harguments,
    hdisjoint⟩

theorem argument_nodup (h : Apart result arrow ids arguments) {p : Placed Part}
    (hp : p ∈ arguments) : p.item.ids.Nodup :=
  (List.nodup_flatMap.1 h.arguments_nodup).1 p hp

end CallSite.Apart

end CoContextual
