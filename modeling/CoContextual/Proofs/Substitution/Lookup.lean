import CoContextual.Proofs.Ty.Substitute
import Mathlib.Data.Finset.Card

/-!
# Looking up variables

`Substitution.find?` allows one step more than there are entries. That is enough for every chain
of aliases that ends (`Substitution.find?_of_findWithin`), so that a lookup obeys the equations one
expects of it: it stops at an unbound variable and at a bound one, and looking up an alias is
looking up its target.

`Substitution.Extends` says that all entries were kept. A lookup that ended at a type ends there in
every extension, and one that ended at an unbound variable goes on from that variable.
-/

namespace CoContextual

/-- The type that an entry stands for. -/
def Entry.toTy : Entry → Ty
  | bound t => t
  | redirect w => .flexible w

/-- The type that a lookup stands for. -/
def Lookup.toTy : Lookup → Ty
  | unbound w => .flexible w
  | bound t => t

namespace Substitution

variable {s t : Substitution} {v w : NodeId}

/-- The variables that have an entry. -/
def domain (s : Substitution) : Finset NodeId := s.entries.keys.toFinset

theorem mem_domain {e : Entry} (h : s.get? v = some e) : v ∈ s.domain := by
  rw [domain, List.mem_toFinset, Table.keys, List.mem_map]
  exact ⟨(v, e), Table.mem_toList_iff.2 h, rfl⟩

theorem exists_get?_of_mem_domain (h : v ∈ s.domain) : ∃ e, s.get? v = some e := by
  rw [domain, List.mem_toFinset, Table.keys, List.mem_map] at h
  obtain ⟨⟨w, e⟩, hmem, rfl⟩ := h
  exact ⟨e, Table.mem_toList_iff.1 hmem⟩

/-- A store has as many entries as variables with an entry. -/
theorem card_domain (s : Substitution) : s.domain.card = s.size := by
  have hlt : s.entries.keys.Pairwise fun a b => compare a b = .lt :=
    List.pairwise_map.2 s.entries.sorted
  have hnodup : s.entries.keys.Nodup := hlt.imp fun h heq => by
    simp [heq, Std.ReflCmp.compare_self] at h
  rw [domain, List.toFinset_card_of_nodup hnodup, Table.keys, List.length_map, size, Table.size]

theorem card_domain_le (s : Substitution) : s.domain.card ≤ s.size := s.card_domain.le

/-- Stores with the same entries are equal. -/
theorem ext_get? (h : ∀ v, s.get? v = t.get? v) : s = t := by
  cases s
  cases t
  exact congrArg mk (Table.ext_get? h)

/-- In a joined store the entries of the right store win. -/
theorem get?_append (s t : Substitution) (v : NodeId) :
    (s ++ t).get? v = (t.get? v).or (s.get? v) := Table.get?_union s.entries t.entries v

/-! ## Enough steps -/

/-- More steps never change an answer. -/
theorem findWithin_mono {n m : ℕ} {l : Lookup} (h : s.findWithin n v = some l) (hnm : n ≤ m) :
    s.findWithin m v = some l := by
  induction n generalizing v m with
  | zero => simp [findWithin] at h
  | succ n ih =>
    obtain ⟨m, rfl⟩ : ∃ k, m = k + 1 := ⟨m - 1, by omega⟩
    rw [findWithin] at h ⊢
    split at h
    · exact h
    · exact h
    · exact ih h (by omega)

/-- A chain that ends never meets a variable twice, so it is no longer than the store. -/
theorem findWithin_of_unseen {n : ℕ} {l : Lookup} (h : s.findWithin n v = some l)
    {seen : Finset NodeId} (hseen : seen ⊆ s.domain)
    (hlate : ∀ u ∈ seen, s.findWithin n u = none) :
    s.findWithin (s.domain.card - seen.card + 1) v = some l := by
  induction n generalizing v seen with
  | zero => simp [findWithin] at h
  | succ n ih =>
    -- what needs more than `n + 1` steps needs more than `n`
    have hlate' : ∀ u ∈ seen, s.findWithin n u = none := by
      intro u hu
      by_contra hne
      obtain ⟨l', hl'⟩ := Option.ne_none_iff_exists'.1 hne
      have := findWithin_mono hl' (Nat.le_succ n)
      rw [hlate u hu] at this
      cases this
    cases hn : s.findWithin n v with
    -- `n` steps are enough already
    | some l' =>
      have hl' : some l' = some l := (findWithin_mono hn (Nat.le_succ n)).symm.trans h
      rw [hl'] at hn
      exact ih hn hseen hlate'
    | none =>
      rw [findWithin] at h ⊢
      cases hv : s.get? v with
      | none => simpa [hv] using h
      | some e =>
        cases e with
        | bound t => simpa [hv] using h
        | redirect w =>
          -- `v` needs all `n + 1` steps, so it can join the variables that were seen
          simp only [hv] at h ⊢
          have hnew : v ∉ seen := by
            intro hmem
            have := hlate v hmem
            rw [findWithin, hv] at this
            simp only [h] at this
            cases this
          have hsub : insert v seen ⊆ s.domain :=
            Finset.insert_subset (mem_domain hv) hseen
          have hcard := Finset.card_le_card hsub
          rw [Finset.card_insert_of_notMem hnew] at hcard
          have hlate'' : ∀ u ∈ insert v seen, s.findWithin n u = none := by
            intro u hu
            rcases Finset.mem_insert.1 hu with rfl | hu
            · exact hn
            · exact hlate' u hu
          have hfound := ih h hsub hlate''
          rw [Finset.card_insert_of_notMem hnew] at hfound
          exact findWithin_mono hfound (by omega)

/-- A lookup has an answer whenever some number of steps gives one. -/
theorem find?_of_findWithin {n : ℕ} {l : Lookup} (h : s.findWithin n v = some l) :
    s.find? v = some l := by
  have hfound := findWithin_of_unseen h (Finset.empty_subset _) (by simp)
  rw [Finset.card_empty, Nat.sub_zero] at hfound
  exact findWithin_mono hfound (Nat.succ_le_succ s.card_domain_le)

theorem find?_of_none (h : s.get? v = none) : s.find? v = some (.unbound v) := by
  rw [find?, findWithin, h]

theorem find?_of_bound {u : Ty} (h : s.get? v = some (.bound u)) : s.find? v = some (.bound u) := by
  rw [find?, findWithin, h]

theorem find?_of_redirect (h : s.get? v = some (.redirect w)) : s.find? v = s.find? w := by
  have hstep : ∀ n, s.findWithin (n + 1) v = s.findWithin n w := by
    intro n
    rw [findWithin, h]
  apply Option.ext
  intro l
  constructor
  · intro hl
    rw [find?, hstep] at hl
    exact find?_of_findWithin hl
  · intro hl
    exact find?_of_findWithin ((hstep _).trans hl)

/-- Induction along the chain of aliases that a lookup follows. -/
theorem find?_induction {P : NodeId → Lookup → Prop}
    (unbound : ∀ v, s.get? v = none → P v (.unbound v))
    (bound : ∀ v u, s.get? v = some (.bound u) → P v (.bound u))
    (redirect : ∀ v w l, s.get? v = some (.redirect w) → s.find? w = some l → P w l → P v l)
    {v : NodeId} {l : Lookup} (h : s.find? v = some l) : P v l := by
  -- the induction is on the steps of the lookup, which the statement does not mention
  have hsteps : ∀ n v, s.findWithin n v = some l → P v l := by
    intro n
    induction n with
    | zero => intro v h; simp [findWithin] at h
    | succ n ih =>
      intro v h
      rw [findWithin] at h
      split at h
      next hv => cases h; exact unbound v hv
      next hv => cases h; exact bound v _ hv
      next hv => exact redirect v _ l hv (find?_of_findWithin h) (ih _ h)
  exact hsteps _ v h

/-- A lookup stops at a variable without an entry. -/
theorem get?_eq_none_of_find? (h : s.find? v = some (.unbound w)) : s.get? w = none := by
  have := find?_induction (s := s) (P := fun _ l => ∀ w, l = .unbound w → s.get? w = none)
    (fun v hv w hw => by cases hw; exact hv) (fun v u hv w hw => by cases hw)
    (fun v w l hv hw ih => ih) h
  exact this w rfl

/-- A lookup that ends at a type ends at a type some variable is bound to. -/
theorem exists_get?_of_find? {u : Ty} (h : s.find? v = some (.bound u)) :
    ∃ w, s.get? w = some (.bound u) := by
  have := find?_induction (s := s)
    (P := fun _ l => ∀ u, l = .bound u → ∃ w, s.get? w = some (.bound u))
    (fun v hv u hu => by cases hu) (fun v u hv u' hu => by cases hu; exact ⟨v, hv⟩)
    (fun v w l hv hw ih => ih) h
  exact this u rfl

/-! ## Extensions -/

/-- Every entry of `s` is in `t` unchanged. -/
def Extends (t s : Substitution) : Prop := ∀ v e, s.get? v = some e → t.get? v = some e

namespace Extends

theorem refl (s : Substitution) : s.Extends s := fun _ _ h => h

theorem trans {r : Substitution} (htr : t.Extends r) (hrs : r.Extends s) : t.Extends s :=
  fun v e h => htr v e (hrs v e h)

theorem domain_subset (h : t.Extends s) : s.domain ⊆ t.domain := by
  intro v hv
  obtain ⟨e, he⟩ := exists_get?_of_mem_domain hv
  exact mem_domain (h v e he)

theorem size_le (h : t.Extends s) : s.size ≤ t.size := by
  rw [← s.card_domain, ← t.card_domain]
  exact Finset.card_le_card h.domain_subset

theorem get?_eq_none (h : t.Extends s) (hv : t.get? v = none) : s.get? v = none := by
  cases hget : s.get? v with
  | none => rfl
  | some e =>
    rw [h v e hget] at hv
    cases hv

/-- What a variable is bound to stays when the store grows. -/
theorem find?_bound (h : t.Extends s) {u : Ty} (hv : s.find? v = some (.bound u)) :
    t.find? v = some (.bound u) := by
  have := find?_induction (s := s)
    (P := fun v l => ∀ u, l = .bound u → t.find? v = some (.bound u))
    (fun v hv u hu => by cases hu)
    (fun v u hv u' hu => by cases hu; exact find?_of_bound (h v _ hv))
    (fun v w l hv hw ih u hu => by rw [find?_of_redirect (h v _ hv)]; exact ih u hu) hv
  exact this u rfl

/-- A lookup that ended at an unbound variable goes on from there when the store grows. -/
theorem find?_unbound (h : t.Extends s) (hv : s.find? v = some (.unbound w)) :
    t.find? v = t.find? w := by
  have := find?_induction (s := s) (P := fun v l => ∀ w, l = .unbound w → t.find? v = t.find? w)
    (fun v hv w hw => by cases hw; rfl) (fun v u hv w hw => by cases hw)
    (fun v w l hv hw ih w' hw' => by rw [find?_of_redirect (h v _ hv)]; exact ih w' hw') hv
  exact this w rfl

end Extends

/-- The entry that an assignment makes, unless the target is the variable itself. -/
theorem get?_assign_self {target : Ty} (hne : target ≠ .flexible v) :
    ∃ e, (s.assign v target).get? v = some e ∧ e.toTy = target := by
  unfold assign
  split
  · rename_i w
    have hw : w ≠ v := fun h => hne (by rw [h])
    rw [if_neg hw]
    exact ⟨_, Table.get?_upsert_self _ _ _, rfl⟩
  · exact ⟨_, Table.get?_upsert_self _ _ _, rfl⟩

/-- The entry that an assignment makes is the same in every store. -/
theorem get?_assign_self_congr (s t : Substitution) {target : Ty} (hne : target ≠ .flexible v) :
    (s.assign v target).get? v = (t.assign v target).get? v := by
  unfold assign
  split
  · rename_i w
    have hw : w ≠ v := fun h => hne (by rw [h])
    rw [if_neg hw, if_neg hw, get?, get?, Table.get?_insert, Table.get?_insert, if_pos rfl,
      if_pos rfl]
  · rw [get?, get?, Table.get?_insert, Table.get?_insert, if_pos rfl, if_pos rfl]

/-- An assignment adds at most one entry, which says the target. -/
theorem get?_assign_cases {target : Ty} {e : Entry} (h : (s.assign w target).get? v = some e) :
    s.get? v = some e ∨ v = w ∧ e.toTy = target := by
  by_cases hv : v = w
  · subst hv
    by_cases hself : target = .flexible v
    · rw [hself, assign, if_pos rfl] at h
      exact .inl h
    · obtain ⟨e', he', htarget⟩ := get?_assign_self (s := s) hself
      rw [he'] at h
      cases h
      exact .inr ⟨rfl, htarget⟩
  · rw [get?_assign_of_ne s target hv] at h
    exact .inl h

theorem assign_self (s : Substitution) (v : NodeId) : s.assign v (.flexible v) = s := by
  simp [assign]

/-- Assigning to an unbound variable keeps all entries. -/
theorem extends_assign (hv : s.get? v = none) (target : Ty) :
    (s.assign v target).Extends s := by
  intro w e hw
  have hne : w ≠ v := by
    rintro rfl
    rw [hv] at hw
    cases hw
  rw [get?_assign_of_ne s target hne, hw]

/-- Assigning to a variable without an entry gives one to it, and to no other. -/
theorem domain_assign (hw : s.get? w = none) {target : Ty} (hne : target ≠ .flexible w) :
    (s.assign w target).domain = insert w s.domain := by
  ext v
  rw [Finset.mem_insert]
  constructor
  · intro hv
    obtain ⟨e, he⟩ := exists_get?_of_mem_domain hv
    rcases get?_assign_cases he with he | ⟨rfl, -⟩
    · exact .inr (mem_domain he)
    · exact .inl rfl
  · rintro (rfl | hv)
    · obtain ⟨e, he, -⟩ := get?_assign_self (s := s) hne
      exact mem_domain he
    · exact (extends_assign hw target).domain_subset hv

end Substitution

end CoContextual
