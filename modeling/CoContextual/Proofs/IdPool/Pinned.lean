import CoContextual.Proofs.IdPool

/-!
# Pinned supplies

A range is counted through from its first identity to its last, whatever happens to the other
supplies of the pool (`IdPool.serve?_counts`). As long as it lasts, a draw leaves the shared counter
alone.

A pinned range lasts up to `NodeId.limit` and no further: this identity marks the end, so that it is
never handed out. The draw that would give it takes a block, as does the very first one from a
supply that is pinned there (`IdPool.serve?_pinned_at_limit`). `IdPool.serve?_pinned` tells every
draw up to that one.
-/

namespace CoContextual

namespace IdPool

variable {p q : IdPool} {i : ℕ} {id first stop : NodeId}

/-- What the draws from supply `i` handed out, first to last. -/
def idsOf (i : ℕ) (draws : List Draw) : List NodeId :=
  (draws.filter (·.supply = i)).map Draw.id

theorem idsOf_cons_self (id : NodeId) (draws : List Draw) :
    idsOf i (⟨i, id⟩ :: draws) = id :: idsOf i draws := by
  rw [idsOf, List.filter_cons_of_pos (by simp), List.map_cons, idsOf]

theorem idsOf_cons_of_ne {j : ℕ} (h : j ≠ i) (id : NodeId) (draws : List Draw) :
    idsOf i (⟨j, id⟩ :: draws) = idsOf i draws := by
  rw [idsOf, List.filter_cons_of_neg (by simpa using h), idsOf]

/-! ## One request -/

/-- A supply that is opened later changes nothing for those that are there. -/
theorem getElem?_append_supply {s : IdSupply} (h : p.supplies[i]? = some s) (new : IdSupply) :
    (p.supplies ++ [new])[i]? = some s := by
  rw [← h]
  exact List.getElem?_append_left (List.getElem?_eq_some_iff.1 h).1

/-- A draw from a range that is not used up gives its next identity and leaves the counter alone. -/
theorem draw?_of_ne (h : p.supplies[i]? = some ⟨first, stop⟩) (hne : first ≠ stop) :
    p.draw? i = some (first, ⟨p.supplies.set i ⟨first + 1, stop⟩, p.nextBlock⟩) := by
  rw [draw?, h]
  simp [IdSource.draw, IdSource.refill, hne]

/-- A draw from a range that is used up gives the first identity of the next block. -/
theorem draw?_of_spent (h : p.supplies[i]? = some ⟨stop, stop⟩) :
    p.draw? i = some (p.nextBlock,
      ⟨p.supplies.set i ⟨p.nextBlock + 1, p.nextBlock + NodeId.blockSize⟩,
        p.nextBlock + NodeId.blockSize⟩) := by
  rw [draw?, h]
  simp [IdSource.draw, IdSource.refill, IdSupply.block]

/-- A draw from another supply leaves this one as it is. -/
theorem getElem?_draw_of_ne {j : ℕ} (hdraw : p.draw? j = some (id, q)) (h : j ≠ i) :
    q.supplies[i]? = p.supplies[i]? := by
  obtain ⟨s, -, hcase⟩ := draw?_eq_some hdraw
  rcases hcase with ⟨-, -, rfl⟩ | ⟨-, -, rfl⟩
  · exact List.getElem?_set_ne h
  · exact List.getElem?_set_ne h

/-! ## Any number of requests -/

/-- A range is counted through, as far as it lasts: its draws give one identity after the other, and
what is left of it begins after the last one. -/
theorem serve?_counts {requests : List Request} {draws : List Draw}
    (hsupply : p.supplies[i]? = some ⟨first, stop⟩) (h : serve? requests p = some (draws, q))
    (hlasts : first + (idsOf i draws).length ≤ stop) :
    idsOf i draws = List.range' first (idsOf i draws).length ∧
      q.supplies[i]? = some ⟨first + (idsOf i draws).length, stop⟩ := by
  induction requests generalizing p first draws with
  | nil =>
    cases h
    exact ⟨rfl, hsupply⟩
  | cons request requests ih =>
    cases request with
    | openPinned other => exact ih (getElem?_append_supply hsupply _) h hlasts
    | openBlock => exact ih (getElem?_append_supply hsupply _) h hlasts
    | draw j =>
      obtain ⟨⟨id, p'⟩, hdraw, h⟩ := Option.bind_eq_some_iff.1 h
      obtain ⟨⟨later, q'⟩, hserve, h⟩ := Option.bind_eq_some_iff.1 h
      cases h
      by_cases hij : j = i
      · -- the next identity is drawn, and the rest of the range is counted through afterwards
        subst hij
        rw [idsOf_cons_self, List.length_cons] at hlasts ⊢
        rw [draw?_of_ne hsupply (by lia)] at hdraw
        cases hdraw
        have hnext : (p.supplies.set j ⟨first + 1, stop⟩)[j]? = some ⟨first + 1, stop⟩ :=
          List.getElem?_set_self (List.getElem?_eq_some_iff.1 hsupply).1
        obtain ⟨hids, hleft⟩ := ih hnext hserve (by lia)
        refine ⟨?_, ?_⟩
        · rw [List.range'_succ, ← hids]
        · rw [hleft]
          congr 2
          lia
      · rw [idsOf_cons_of_ne hij] at hlasts ⊢
        exact ih ((getElem?_draw_of_ne hdraw hij).trans hsupply) hserve hlasts

/-- A supply that is pinned at `first` counts up from there, whatever is asked of the others in
between. After `k` draws it has handed out the `k` identities from `first` on. If `first + k` lies
below the limit the next draw gives it and does not touch the counter; if it is the limit, the draw
takes the next block and gives its first identity. -/
theorem serve?_pinned (p : IdPool) (first : NodeId) (requests : List Request) {draws : List Draw}
    (h : serve? requests (p.openPinned first) = some (draws, q)) {k : ℕ}
    (hk : (idsOf p.supplies.length draws).length = k) :
    (first + k ≤ NodeId.limit → idsOf p.supplies.length draws = List.range' first k) ∧
      (first + k < NodeId.limit → ∃ q', q.draw? p.supplies.length = some (first + k, q') ∧
        q'.nextBlock = q.nextBlock) ∧
      (first + k = NodeId.limit → ∃ q', q.draw? p.supplies.length = some (q.nextBlock, q') ∧
        q'.nextBlock = q.nextBlock + NodeId.blockSize) := by
  subst hk
  have hsupply : (p.openPinned first).supplies[p.supplies.length]? = some ⟨first, NodeId.limit⟩ :=
    List.getElem?_concat_length
  have hcounts := serve?_counts hsupply h
  refine ⟨fun hle => (hcounts hle).1, fun hlt => ?_, fun hlimit => ?_⟩
  · exact ⟨_, draw?_of_ne (hcounts hlt.le).2 hlt.ne, rfl⟩
  · obtain ⟨-, hspent⟩ := hcounts hlimit.le
    rw [hlimit] at hspent
    exact ⟨_, draw?_of_spent hspent, rfl⟩

/-- A supply is pinned three identities before the limit. While it is drawn from, another one takes
a block and a third one is opened. -/
theorem serve?_pinned_interleaved : ∃ draws q q',
    serve? [.draw 0, .openBlock, .draw 1, .draw 0, .openPinned 7, .draw 2]
      (empty.openPinned (NodeId.limit - 3)) = some (draws, q) ∧
    (idsOf 0 draws).length = 2 ∧
    idsOf 0 draws = [18446744073709551612, 18446744073709551613] ∧
    q.draw? 0 = some (18446744073709551614, q') ∧ q.nextBlock = 1024 ∧ q'.nextBlock = 1024 := by
  obtain ⟨hids, hnext, -⟩ := serve?_pinned empty (NodeId.limit - 3)
    [.draw 0, .openBlock, .draw 1, .draw 0, .openPinned 7, .draw 2] rfl rfl
  obtain ⟨q', hdraw, hcounter⟩ := hnext (by decide)
  exact ⟨_, _, q', rfl, rfl, hids (by decide), hdraw, rfl, hcounter⟩

/-- The first identity from a supply that is pinned at the limit is not the limit. It comes from a
block, which is taken from the shared counter. -/
theorem serve?_pinned_at_limit : ∃ id q,
    serve? [.draw 0] (empty.openPinned NodeId.limit) = some ([⟨0, id⟩], q) ∧
      id ≠ NodeId.limit + 0 ∧ q.blocksTaken = 1 :=
  ⟨0, _, rfl, by decide, rfl⟩

end IdPool

end CoContextual
