import Mathlib.Data.List.Forall2
import Mathlib.Data.Option.Basic

/-!
# Lists of optional results

A partial function is taken along a list with `List.mapM`, which has a result if it has one for
every item. These lemmas tell what the result then holds, item by item.
-/

namespace CoContextual

variable {α β γ : Type} {f : α → Option β} {l : List α} {l' : List β}

theorem exists_mapM (h : ∀ a ∈ l, ∃ b, f a = some b) : ∃ l', l.mapM f = some l' := by
  induction l with
  | nil => exact ⟨[], rfl⟩
  | cons a l ih =>
    obtain ⟨b, hb⟩ := h a (.head _)
    obtain ⟨bs, hbs⟩ := ih fun c hc => h c (.tail _ hc)
    exact ⟨b :: bs, by simp [List.mapM_cons, hb, hbs]⟩

theorem mapM_cons_eq_some {a : α} (h : (a :: l).mapM f = some l') :
    ∃ b bs, f a = some b ∧ l.mapM f = some bs ∧ l' = b :: bs := by
  rw [List.mapM_cons] at h
  obtain ⟨b, hb, h⟩ := Option.bind_eq_some_iff.1 h
  obtain ⟨bs, hbs, h⟩ := Option.bind_eq_some_iff.1 h
  cases h
  exact ⟨b, bs, hb, hbs, rfl⟩

theorem mapM_append_eq_some {m : List α} (h : (l ++ m).mapM f = some l') :
    ∃ first rest, l.mapM f = some first ∧ m.mapM f = some rest ∧ l' = first ++ rest := by
  rw [List.mapM_append] at h
  obtain ⟨first, hfirst, h⟩ := Option.bind_eq_some_iff.1 h
  obtain ⟨rest, hrest, h⟩ := Option.bind_eq_some_iff.1 h
  exact ⟨first, rest, hfirst, hrest, (Option.some.inj h).symm⟩

theorem mapM_some (l : List α) : l.mapM some = some l := by
  induction l with
  | nil => rfl
  | cons a l ih => rw [List.mapM_cons, ih]; rfl

/-- What the function gives for the items of the list may be told by a total function. -/
theorem mapM_eq_some_map {g : α → β} (h : ∀ a ∈ l, f a = some (g a)) :
    l.mapM f = some (l.map g) := by
  induction l with
  | nil => rfl
  | cons a l ih =>
    rw [List.mapM_cons, h a (.head _), ih fun b hb => h b (.tail _ hb)]
    rfl

/-- What is in the result comes from the list. -/
theorem exists_of_mem_mapM (h : l.mapM f = some l') {b : β} (hb : b ∈ l') :
    ∃ a ∈ l, f a = some b := by
  induction l generalizing l' with
  | nil =>
    cases h
    cases hb
  | cons a l ih =>
    obtain ⟨c, cs, hc, hcs, rfl⟩ := mapM_cons_eq_some h
    rcases List.mem_cons.1 hb with rfl | hb
    · exact ⟨a, .head _, hc⟩
    · obtain ⟨a', ha', heq⟩ := ih hcs hb
      exact ⟨a', .tail _ ha', heq⟩

/-- What is in the list is in the result. -/
theorem exists_mem_of_mapM (h : l.mapM f = some l') {a : α} (ha : a ∈ l) :
    ∃ b ∈ l', f a = some b := by
  induction l generalizing l' with
  | nil => cases ha
  | cons a' l ih =>
    obtain ⟨c, cs, hc, hcs, rfl⟩ := mapM_cons_eq_some h
    rcases List.mem_cons.1 ha with rfl | ha
    · exact ⟨c, .head _, hc⟩
    · obtain ⟨b, hb, heq⟩ := ih hcs ha
      exact ⟨b, .tail _ hb, heq⟩

/-- The result holds what the function gives for one item after the other. -/
theorem forall₂_of_mapM (h : l.mapM f = some l') : List.Forall₂ (fun a b => f a = some b) l l' := by
  induction l generalizing l' with
  | nil =>
    cases h
    exact .nil
  | cons a l ih =>
    obtain ⟨b, bs, hb, hbs, rfl⟩ := mapM_cons_eq_some h
    exact .cons hb (ih hbs)

/-! ## Two steps -/

/-- A partial function that is taken in two steps can be taken along a list step by step. -/
theorem mapM_eq_bind_mapM {f : α → Option γ} {g : α → Option β} {h : β → Option γ}
    (hstep : ∀ a, f a = (g a).bind h) (l : List α) : l.mapM f = (l.mapM g).bind (·.mapM h) := by
  induction l with
  | nil => rfl
  | cons a l ih =>
    simp only [List.mapM_cons, hstep a, ih, Option.bind_eq_bind, Option.bind_assoc,
      Option.pure_def, Option.bind_some]
    exact Option.bind_congr fun _ _ => Option.bind_comm _ _

/-- Where a partial function implies two steps, so it does along a list. -/
theorem exists_mapM_mapM {f : α → Option γ} {g : α → Option β} {h : β → Option γ} {m : List γ}
    (hstep : ∀ a c, f a = some c → ∃ b, g a = some b ∧ h b = some c) (hm : l.mapM f = some m) :
    ∃ l', l.mapM g = some l' ∧ l'.mapM h = some m := by
  induction l generalizing m with
  | nil => exact ⟨[], rfl, hm⟩
  | cons a l ih =>
    obtain ⟨c, cs, hc, hcs, rfl⟩ := mapM_cons_eq_some hm
    obtain ⟨b, hb, hbc⟩ := hstep a c hc
    obtain ⟨bs, hbs, hrest⟩ := ih hcs
    exact ⟨b :: bs, by rw [List.mapM_cons, hb, hbs]; rfl, by rw [List.mapM_cons, hbc, hrest]; rfl⟩

end CoContextual
