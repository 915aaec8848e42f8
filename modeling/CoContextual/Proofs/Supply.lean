import CoContextual.Ty.Polymorphism
import Mathlib.Data.List.Nodup

/-!
# Fresh identities

What draws from a source relies on getting no identity twice (`IdSource.Distinct`). A source hands
out ascending identities as long as its range lasts, and goes on ascending if the blocks it refills
from lie past the range. That is so for every source that takes blocks, and for a pinned one that
does not use up its range (`IdSource.Ascending`).

- `IdSource.advance`, `IdSource.taken`: the source after some draws, and what the draws gave;
- `IdSource.Ascending.advance`: the identities drawn are distinct and lie between the two sources;
- `IdSource.Ahead`: a source that is past all identities of some kind draws none of them.
-/

namespace CoContextual

namespace IdSource

variable {s t : IdSource}

/-- The source after `n` draws. -/
def advance : ℕ → IdSource → IdSource
  | 0, s => s
  | n + 1, s => advance n s.draw.2

/-- The identities that the next `n` draws give. -/
def taken : ℕ → IdSource → List NodeId
  | 0, _ => []
  | n + 1, s => s.draw.1 :: taken n s.draw.2

theorem advance_add (m n : ℕ) (s : IdSource) : s.advance (m + n) = (s.advance m).advance n := by
  induction m generalizing s with
  | zero => rw [Nat.zero_add, advance]
  | succ m ih => rw [Nat.succ_add, advance, advance, ih]

theorem taken_add (m n : ℕ) (s : IdSource) :
    s.taken (m + n) = s.taken m ++ (s.advance m).taken n := by
  induction m generalizing s with
  | zero => rw [Nat.zero_add, taken, advance, List.nil_append]
  | succ m ih => rw [Nat.succ_add, taken, taken, advance, ih, List.cons_append]

theorem length_taken (n : ℕ) (s : IdSource) : (s.taken n).length = n := by
  induction n generalizing s with
  | zero => rfl
  | succ n ih => rw [taken, List.length_cons, ih]

/-- Some draws lead from one source to the other. -/
def Reaches (s t : IdSource) : Prop := ∃ n, t = s.advance n

theorem Reaches.refl (s : IdSource) : s.Reaches s := ⟨0, rfl⟩

theorem Reaches.trans {u : IdSource} (hst : s.Reaches t) (htu : t.Reaches u) : s.Reaches u := by
  obtain ⟨m, rfl⟩ := hst
  obtain ⟨n, rfl⟩ := htu
  exact ⟨m + n, (advance_add m n s).symm⟩

theorem reaches_advance (n : ℕ) (s : IdSource) : s.Reaches (s.advance n) := ⟨n, rfl⟩

/-- On the way from one source to the other no identity is drawn twice. -/
def Distinct (s t : IdSource) : Prop := ∀ n, t = s.advance n → (s.taken n).Nodup

/-- What is drawn on a part of the way is distinct. -/
theorem Distinct.of_reaches {r : IdSource} (h : s.Distinct t) (hreach : r.Reaches t) :
    s.Distinct r := by
  rintro n rfl
  obtain ⟨m, hm⟩ := hreach
  rw [← advance_add] at hm
  have hnodup := h (n + m) hm
  rw [taken_add] at hnodup
  exact (List.nodup_append'.1 hnodup).1

theorem nextBlock_le_draw (s : IdSource) : s.nextBlock ≤ s.draw.2.nextBlock := by
  unfold draw refill
  dsimp only
  split
  · exact Nat.le_add_right _ _
  · exact Nat.le_refl _

/-- Blocks are taken one after the other. -/
theorem Reaches.nextBlock_le (h : s.Reaches t) : s.nextBlock ≤ t.nextBlock := by
  obtain ⟨n, rfl⟩ := h
  induction n generalizing s with
  | zero => exact Nat.le_refl _
  | succ n ih => exact Nat.le_trans s.nextBlock_le_draw ih

/-- From `s` to `t` identities only go up: blocks lie past the current range, or none was taken. -/
structure Ascending (s t : IdSource) : Prop where
  /-- The next identity is in the range or just past it. -/
  inRange : s.supply.next ≤ s.supply.stop
  /-- A refill does not go back. -/
  ahead : s.supply.stop ≤ s.nextBlock ∨ t.nextBlock = s.nextBlock

/-- One draw gives an identity that is not below the next one and moves past it. -/
theorem Ascending.draw (h : s.Ascending t) (hreach : s.draw.2.Reaches t) :
    s.supply.next ≤ s.draw.1 ∧ s.draw.2.supply.next = s.draw.1 + 1 ∧ s.draw.2.Ascending t := by
  have hblock := hreach.nextBlock_le
  obtain ⟨hrange, hahead⟩ := h
  by_cases hspent : s.supply.next = s.supply.stop
  -- the range is used up, and the new block lies past it
  · have hrefill : s.refill = ⟨.block s.nextBlock, s.nextBlock + NodeId.blockSize⟩ := by
      rw [refill, if_pos hspent]
    simp only [IdSource.draw, hrefill, IdSupply.block, NodeId.blockSize] at hblock ⊢
    refine ⟨by lia, trivial, ⟨?_, .inl (Nat.le_refl _)⟩⟩
    show s.nextBlock + 1 ≤ s.nextBlock + 1024
    lia
  · have hrefill : s.refill = s := by rw [refill, if_neg hspent]
    simp only [IdSource.draw, hrefill] at hblock ⊢
    refine ⟨Nat.le_refl _, trivial, ⟨?_, hahead⟩⟩
    show s.supply.next + 1 ≤ s.supply.stop
    lia

/-- Several draws give distinct identities between the two sources. -/
theorem Ascending.advance {n : ℕ} (h : s.Ascending t) (hreach : (s.advance n).Reaches t) :
    (s.advance n).Ascending t ∧ s.supply.next ≤ (s.advance n).supply.next ∧
      (s.taken n).Nodup ∧
      ∀ id ∈ s.taken n, s.supply.next ≤ id ∧ id < (s.advance n).supply.next := by
  induction n generalizing s with
  | zero => exact ⟨h, Nat.le_refl _, List.nodup_nil, by simp [taken]⟩
  | succ n ih =>
    obtain ⟨hle, hnext, hdraw⟩ := h.draw ((reaches_advance n _).trans hreach)
    obtain ⟨hlast, hmono, hnodup, hmem⟩ := ih hdraw hreach
    rw [hnext] at hmono
    rw [IdSource.advance, taken]
    -- all later identities are above the one drawn now
    refine ⟨hlast, by lia, List.nodup_cons.2 ⟨fun hin => ?_, hnodup⟩, ?_⟩
    · have := (hmem _ hin).1
      lia
    · intro id hid
      rcases List.mem_cons.1 hid with rfl | hid
      · lia
      · have := hmem id hid
        lia

/-- What goes up on the whole way goes up on its first part. -/
theorem Ascending.of_reaches {r : IdSource} (h : s.Ascending t) (hsr : s.Reaches r)
    (hrt : r.Reaches t) : s.Ascending r where
  inRange := h.inRange
  ahead := h.ahead.imp_right fun hsame =>
    Nat.le_antisymm (Nat.le_trans hrt.nextBlock_le (Nat.le_of_eq hsame)) hsr.nextBlock_le

theorem Ascending.distinct (h : s.Ascending t) : s.Distinct t := by
  rintro n rfl
  obtain ⟨-, -, hnodup, -⟩ := h.advance (.refl _)
  exact hnodup

theorem draw_of_ne {s : IdSource} (h : s.supply.next ≠ s.supply.stop) :
    s.draw = (s.supply.next, ⟨⟨s.supply.next + 1, s.supply.stop⟩, s.nextBlock⟩) := by
  rw [draw, refill, if_neg h]

/-- While no block is taken the draws count up. -/
theorem taken_of_nextBlock {s : IdSource} {j : ℕ} (h : (s.advance j).nextBlock = s.nextBlock) :
    s.taken j = List.range' s.supply.next j ∧
      (s.advance j).supply.next = s.supply.next + j := by
  induction j generalizing s with
  | zero => exact ⟨rfl, rfl⟩
  | succ j ih =>
    have hlater : s.draw.2.nextBlock ≤ s.nextBlock := h ▸ (reaches_advance j s.draw.2).nextBlock_le
    have hlasts : s.supply.next ≠ s.supply.stop := by
      intro hspent
      rw [draw, refill, if_pos hspent] at hlater
      exact absurd hlater (Nat.not_le.2 (Nat.lt_add_of_pos_right (by decide)))
    rw [advance, draw_of_ne hlasts] at h ⊢
    obtain ⟨htaken, hnext⟩ := ih h
    rw [taken, draw_of_ne hlasts, htaken, hnext, List.range'_succ]
    exact ⟨rfl, by lia⟩

/-- A range that is long enough is counted through. -/
theorem advance_of_le {s : IdSource} {j : ℕ} (h : s.supply.next + j ≤ s.supply.stop) :
    s.advance j = ⟨⟨s.supply.next + j, s.supply.stop⟩, s.nextBlock⟩ := by
  induction j generalizing s with
  | zero => rfl
  | succ j ih =>
    rw [advance, draw_of_ne (by lia), ih (by simp only; lia)]
    simp only [mk.injEq, IdSupply.mk.injEq, and_true]
    lia

theorem taken_of_le {s : IdSource} {j : ℕ} (h : s.supply.next + j ≤ s.supply.stop) :
    s.taken j = List.range' s.supply.next j :=
  (taken_of_nextBlock (by rw [advance_of_le h])).1

/-- From `s` to `t` identities only go up, and all that the property holds of lie below them. -/
structure Ahead (K : NodeId → Prop) (s t : IdSource) : Prop extends s.Ascending t where
  /-- The next identity is past all of them. -/
  above : ∀ id, K id → id < s.supply.next

/-- What a source draws is none of the identities that it is ahead of. -/
theorem Ahead.not_of_mem_taken {K : NodeId → Prop} {n : ℕ} {id : NodeId}
    (h : s.Ahead K (s.advance n)) (hid : id ∈ s.taken n) : ¬ K id := by
  intro hknown
  obtain ⟨-, -, -, hrange⟩ := h.toAscending.advance (.refl _)
  have hbelow := h.above id hknown
  have hdrawn := (hrange id hid).1
  lia

theorem Ahead.mono {K K' : NodeId → Prop} (h : s.Ahead K t) (hK : ∀ id, K' id → K id) :
    s.Ahead K' t :=
  ⟨h.toAscending, fun id hid => h.above id (hK id hid)⟩

theorem Ahead.of_reaches {K : NodeId → Prop} {r : IdSource} (h : s.Ahead K t) (hsr : s.Reaches r)
    (hrt : r.Reaches t) : s.Ahead K r :=
  ⟨h.toAscending.of_reaches hsr hrt, h.above⟩

/-- After some draws a source is still ahead of what it was ahead of, and also of what it drew. -/
theorem Ahead.advance {K : NodeId → Prop} {n : ℕ} (h : s.Ahead K t)
    (hreach : (s.advance n).Reaches t) :
    (s.advance n).Ahead (fun id => K id ∨ id ∈ s.taken n) t := by
  obtain ⟨hlast, hmono, -, hrange⟩ := h.toAscending.advance hreach
  refine ⟨hlast, fun id hid => ?_⟩
  rcases hid with hknown | hdrawn
  · exact Nat.lt_of_lt_of_le (h.above id hknown) hmono
  · exact (hrange id hdrawn).2

end IdSource

/-! ## Drawing in sequence -/

theorem Ty.fresh_run (s : IdSource) : Ty.fresh s = (.flexible s.draw.1, s.draw.2) := rfl

theorem Ty.newArrow_run (d c : Ty) (s : IdSource) :
    Ty.newArrow d c s = (.arrow s.draw.1 d c, s.draw.2) := rfl

/-- One fresh variable per element of a list. -/
theorem mapM_fresh {α : Type} (l : List α) (s : IdSource) :
    (l.mapM fun _ => Ty.fresh).run s
      = ((s.taken l.length).map Ty.flexible, s.advance l.length) := by
  induction l generalizing s with
  | nil => rfl
  | cons a l ih =>
    rw [List.mapM_cons]
    show ((List.mapM (fun _ => Ty.fresh) l).run s.draw.2).map (Ty.flexible s.draw.1 :: ·) id = _
    rw [ih]
    rfl

end CoContextual
