import CoContextual.Proofs.Unify.Course
import Mathlib.Data.Finset.Card
import Mathlib.Data.Finset.Prod
import Mathlib.Tactic.Ring

/-!
# How deep a unification descends

All types that a unification meets are parts of the two types and of the entries at the start. The
store either stays as it is or binds one more of the variables among them. A search that ends does
not meet a pair of types again below itself with the same store, so there are at most as many
levels as there are pairs and stores.

- `Substitution.unifyWithin_of_unseen`: the bound on the depth, for a set of pairs that are known
  to need more;
- `Substitution.unify?_of_unifyWithin`: `unify?` descends deep enough for every search that ends;
- `Substitution.unify?_eq_some_iff`: the answers of `unify?` are exactly the courses.
-/

namespace CoContextual

/-! ## Sets of types with all their parts -/

namespace Ty

theorem PartClosed.union [DecidableEq Ty] {U V : Finset Ty} (hU : PartClosed (· ∈ U))
    (hV : PartClosed (· ∈ V)) : PartClosed (· ∈ U ∪ V) := by
  intro t ht c hc
  rcases Finset.mem_union.1 ht with ht | ht
  · exact Finset.mem_union_left _ (hU t ht c hc)
  · exact Finset.mem_union_right _ (hV t ht c hc)

/-- The parts of several types, given the parts of each. -/
theorem exists_partClosed_all (ts : List Ty)
    (ih : ∀ t ∈ ts, ∃ U : Finset Ty, PartClosed (· ∈ U) ∧ t ∈ U ∧ U.card ≤ t.size) :
    ∃ U : Finset Ty, PartClosed (· ∈ U) ∧ (∀ t ∈ ts, t ∈ U) ∧ U.card ≤ sizeAll ts := by
  classical
  induction ts with
  | nil => exact ⟨∅, by simp [PartClosed], by simp, by simp⟩
  | cons t ts ihs =>
    obtain ⟨U, hU, ht, hcard⟩ := ih t (by simp)
    obtain ⟨V, hV, hts, hcards⟩ := ihs fun t ht => ih t (by simp [ht])
    refine ⟨U ∪ V, hU.union hV, ?_, ?_⟩
    · intro u hu
      rcases List.mem_cons.1 hu with rfl | hu
      · exact Finset.mem_union_left _ ht
      · exact Finset.mem_union_right _ (hts u hu)
    · have := Finset.card_union_le U V
      rw [sizeAll]
      omega

/-- A node joins the parts of its children. -/
theorem exists_partClosed_node (t : Ty) (hsize : sizeAll t.children + 1 ≤ t.size)
    (ih : ∀ c ∈ t.children, ∃ U : Finset Ty, PartClosed (· ∈ U) ∧ c ∈ U ∧ U.card ≤ c.size) :
    ∃ U : Finset Ty, PartClosed (· ∈ U) ∧ t ∈ U ∧ U.card ≤ t.size := by
  classical
  obtain ⟨U, hU, hmem, hcard⟩ := exists_partClosed_all _ ih
  refine ⟨insert t U, ?_, Finset.mem_insert_self _ _, ?_⟩
  · intro u hu c hc
    rcases Finset.mem_insert.1 hu with rfl | hu
    · exact Finset.mem_insert_of_mem (hmem c hc)
    · exact Finset.mem_insert_of_mem (hU u hu c hc)
  · have := Finset.card_insert_le t U
    omega

/-- A type has no more parts than nodes. -/
theorem exists_partClosed (t : Ty) :
    ∃ U : Finset Ty, PartClosed (· ∈ U) ∧ t ∈ U ∧ U.card ≤ t.size := by
  induction t using ind with
  | arrow id d c ihd ihc =>
    exact exists_partClosed_node _ (by simp [children, sizeAll]) (by simp [children, ihd, ihc])
  | product id cs ih => exact exists_partClosed_node _ (by simp [children]) ih
  | _ => exact exists_partClosed_node _ (by simp [children, sizeAll, size]) (by simp [children])

end Ty

namespace Substitution

variable {s s' : Substitution} {U : Finset Ty}

/-! ## What a unification meets -/

open scoped Classical in
/-- How many variables of `U` have no entry. -/
noncomputable def unboundIn (U : Finset Ty) (s : Substitution) : ℕ :=
  (U.filter fun t => ∃ v, t = .flexible v ∧ s.get? v = none).card

theorem unboundIn_le_card (U : Finset Ty) (s : Substitution) : unboundIn U s ≤ U.card := by
  classical
  exact Finset.card_filter_le _ _

/-- Binding a variable of the set leaves fewer of them unbound. -/
theorem unboundIn_assign_lt {w : NodeId} (hw : .flexible w ∈ U) (hnone : s.get? w = none)
    {target : Ty} (hne : target ≠ .flexible w) :
    unboundIn U (s.assign w target) < unboundIn U s := by
  classical
  obtain ⟨e, he, -⟩ := get?_assign_self (s := s) hne
  -- `w` is counted before and not after, and no other variable is counted anew
  apply Finset.card_lt_card
  rw [Finset.ssubset_iff_of_subset]
  · refine ⟨.flexible w, Finset.mem_filter.2 ⟨hw, w, rfl, hnone⟩, fun hmem => ?_⟩
    obtain ⟨-, v, hv, hget⟩ := Finset.mem_filter.1 hmem
    cases hv
    rw [he] at hget
    cases hget
  · intro t ht
    obtain ⟨htU, v, rfl, hget⟩ := Finset.mem_filter.1 ht
    refine Finset.mem_filter.2 ⟨htU, v, rfl, ?_⟩
    have hvw : v ≠ w := by
      rintro rfl
      rw [he] at hget
      cases hget
    rwa [get?_assign_of_ne s target hvw] at hget

/-- The store is the same, or it binds more variables of the set. -/
def Advances (U : Finset Ty) (s s' : Substitution) : Prop :=
  s' = s ∨ unboundIn U s' < unboundIn U s

theorem Advances.assign {s₀ : Substitution} (h : Advances U s₀ s) (hs : AllEntries (· ∈ U) s)
    {v w : NodeId} (hv : .flexible v ∈ U) (hfind : s.find? v = some (.unbound w)) (target : Ty) :
    Advances U s₀ (s.assign w target) := by
  by_cases hself : target = .flexible w
  · rw [hself, assign_self]
    exact h
  · have hlt := unboundIn_assign_lt (hs.keep.find? hv hfind) (get?_eq_none_of_find? hfind) hself
    rcases h with rfl | h
    · exact .inr hlt
    · exact .inr (hlt.trans h)

/-- A course among the types of a set never leaves it. -/
theorem Course.advances (hU : Ty.PartClosed (· ∈ U)) {goals : List (Ty × Ty)} {a : Attempt}
    {s₀ : Substitution} (h : Course s goals a) (hs : AllEntries (· ∈ U) s)
    (hadv : Advances U s₀ s) (hgoals : ∀ g ∈ goals, g.1 ∈ U ∧ g.2 ∈ U)
    (hres : a.result = .ok s') : AllEntries (· ∈ U) s' ∧ Advances U s₀ s' :=
  h.preserves_within hU (P := Advances U s₀)
    (fun _ _ _ _ target hs hadv hv _ hfind _ => hadv.assign hs hv hfind target) hs hadv hgoals hres

/-! ## The depth of a search that ends -/

/-- A search that ends does not meet a pair again below itself on the same store. The pairs in
`seen` are known to need more than `n` levels. -/
theorem unifyWithin_of_unseen (hU : Ty.PartClosed (· ∈ U)) {n : ℕ} (hs : AllEntries (· ∈ U) s)
    {l r : Ty} (hl : l ∈ U) (hr : r ∈ U) {a : Attempt} (ha : unifyWithin n s l r = some a)
    {seen : Finset (Ty × Ty)} (hseen : seen ⊆ U ×ˢ U)
    (hlate : ∀ g ∈ seen, unifyWithin n s g.1 g.2 = none) :
    unifyWithin (unboundIn U s * (U ×ˢ U).card + ((U ×ˢ U).card - seen.card)) s l r = some a := by
  classical
  induction n generalizing s l r a seen with
  | zero => cases ha
  | succ n ih =>
    have hlate' : ∀ g ∈ seen, unifyWithin n s g.1 g.2 = none := by
      intro g hg
      by_contra hne
      obtain ⟨b, hb⟩ := Option.ne_none_iff_exists'.1 hne
      have := unifyWithin_mono n.le_succ hb
      rw [hlate g hg] at this
      cases this
    cases hn : unifyWithin n s l r with
    | some b =>
      have hab : some b = some a := (unifyWithin_mono n.le_succ hn).symm.trans ha
      rw [hab] at hn
      exact ih hs hl hr hn hseen hlate'
    | none =>
      -- the pair needs all `n + 1` levels, so it can join the pairs that were seen
      have hnew : (l, r) ∉ seen := by
        intro hmem
        have := hlate _ hmem
        rw [ha] at this
        cases this
      have hsub : insert (l, r) seen ⊆ U ×ˢ U :=
        Finset.insert_subset (Finset.mem_product.2 ⟨hl, hr⟩) hseen
      have hcard := Finset.card_le_card hsub
      rw [Finset.card_insert_of_notMem hnew] at hcard
      obtain ⟨m, hm⟩ : ∃ m, unboundIn U s * (U ×ˢ U).card + ((U ×ˢ U).card - seen.card) = m + 1 :=
        ⟨unboundIn U s * (U ×ˢ U).card + ((U ×ˢ U).card - seen.card) - 1, by omega⟩
      have hlate'' : ∀ g ∈ insert (l, r) seen, unifyWithin n s g.1 g.2 = none := by
        intro g hg
        rcases Finset.mem_insert.1 hg with rfl | hg
        · exact hn
        · exact hlate' g hg
      have hle : Within (fun s' => AllEntries (· ∈ U) s' ∧ Advances U s s') (· ∈ U)
          (unifyWithin n) (unifyWithin m) := by
        rintro s' l' r' b ⟨hs', hadv⟩ hl' hr' hb
        have hgoals : ∀ g ∈ [(l', r')], g.1 ∈ U ∧ g.2 ∈ U := by simpa using ⟨hl', hr'⟩
        refine ⟨?_, fun s'' => (course_of_unifyWithin hb).advances hU hs' hadv hgoals⟩
        · rcases hadv with rfl | hlt
          · have hfound := ih hs' hl' hr' hb hsub hlate''
            rw [Finset.card_insert_of_notMem hnew] at hfound
            exact unifyWithin_mono (by omega) hfound
          · -- a variable was bound on the way, so all pairs may come again
            have hfound := ih hs' hl' hr' hb (Finset.empty_subset _) (by simp)
            refine unifyWithin_mono ?_ hfound
            have hmul : (unboundIn U s' + 1) * (U ×ˢ U).card ≤ unboundIn U s * (U ×ˢ U).card :=
              Nat.mul_le_mul_right _ hlt
            rw [Nat.add_mul, Nat.one_mul] at hmul
            rw [Finset.card_empty]
            omega
      rw [hm]
      refine hle.unifyStep ⟨hs, .inl rfl⟩ ?_ (fun h => h.of_partClosed hU hl hr) ha
      intro v other u hface hv
      obtain ⟨hvar, hother⟩ := hface.both (P := (· ∈ U)) hl hr
      exact ⟨hother, hs.keep.find? hvar hv⟩

/-- The entries of a store and their parts are no more than its weight. -/
theorem exists_allEntries (s : Substitution) :
    ∃ U : Finset Ty, Ty.PartClosed (· ∈ U) ∧ AllEntries (· ∈ U) s ∧ U.card ≤ s.weight := by
  obtain ⟨U, hU, hmem, hcard⟩ := Ty.exists_partClosed_all (s.entries.values.map Entry.toTy)
    fun t _ => t.exists_partClosed
  refine ⟨U, hU, ?_, hcard.trans ?_⟩
  · intro v e he
    refine hmem _ (List.mem_map.2 ⟨e, ?_, rfl⟩)
    exact List.mem_map.2 ⟨(v, e), Table.mem_toList_iff.2 he, rfl⟩
  · rw [weight]
    induction s.entries.values with
    | nil => simp [Ty.sizeAll]
    | cons e es ih =>
      have hsize : e.toTy.size ≤ e.size := by cases e <;> simp [Entry.toTy, Entry.size, Ty.size]
      simp only [List.map_cons, Ty.sizeAll, List.foldr_cons]
      omega

/-- Unification descends deep enough for every search that ends. -/
theorem unify?_of_unifyWithin {n : ℕ} {l r : Ty} {a : Attempt}
    (ha : unifyWithin n s l r = some a) : s.unify? l r = some a := by
  classical
  obtain ⟨U, hU, hs, hcard⟩ := s.exists_allEntries
  obtain ⟨V, hV, hmem, hcardV⟩ := Ty.exists_partClosed_all [l, r]
    fun t _ => t.exists_partClosed
  -- all pairs that the search meets are over the parts of the store and of the two types
  have hfound := unifyWithin_of_unseen (hU.union hV)
    (fun v e he => Finset.mem_union_left _ (hs v e he))
    (Finset.mem_union_right _ (hmem l (by simp))) (Finset.mem_union_right _ (hmem r (by simp))) ha
    (Finset.empty_subset _) (by simp)
  have hsmall : (U ∪ V).card + 1 ≤ l.size + r.size + s.weight + 1 := by
    have := Finset.card_union_le U V
    simp only [Ty.sizeAll] at hcardV
    omega
  have hunbound := unboundIn_le_card (U ∪ V) s
  refine unifyWithin_mono ?_ hfound
  rw [Finset.card_empty, Nat.sub_zero, Finset.card_product, unifyFuel]
  -- one round over all pairs for each variable that can still be bound, and a last one
  generalize (U ∪ V).card = k at *
  calc unboundIn (U ∪ V) s * (k * k) + k * k ≤ k * (k * k) + k * k := by gcongr
    _ = (k + 1) * k * k := by ring
    _ ≤ _ := by gcongr <;> omega

/-- The answers of unification are exactly the courses of its one goal. -/
theorem unify?_eq_some_iff {l r : Ty} {a : Attempt} :
    s.unify? l r = some a ↔ Course s [(l, r)] a := by
  refine ⟨course_of_unifyWithin, fun h => ?_⟩
  obtain ⟨n, hn⟩ := h.exists_unifyAll
  obtain ⟨first, hfirst, ha⟩ := Option.bind_eq_some_iff.1 hn
  obtain rfl : first = a := Option.some.inj (first.andThen_stop.symm.trans ha)
  exact unify?_of_unifyWithin hfirst

end Substitution

end CoContextual
