import CoContextual.NodeId
import Mathlib.Data.List.Nodup
import Mathlib.Data.UInt

/-!
# Supplies that share a counter

Several supplies draw at the same time and refill from one counter. Taking a block is the only step
that touches what they share, so that whatever they do is a sequence of requests to the pool
(`IdPool.serve?`), in an order that nobody controls.

What can still be handed out is what is left of some block or not taken yet (`IdPool.Open`). As long
as the supplies have blocks of their own (`IdPool.Separate`), a draw closes the identity that it
hands out and opens none (`IdPool.Separate.draw`), so that no identity is handed out twice
(`IdPool.serve?_unique`).
-/

namespace CoContextual

namespace IdPool

/-- What a pool is asked for. -/
inductive Request where
  /-- Another supply that is pinned at `first`. -/
  | openPinned (first : NodeId)
  /-- Another supply that takes blocks. -/
  | openBlock
  /-- An identity from a supply. -/
  | draw (supply : ℕ)

/-- An identity that was handed out. -/
structure Draw where
  /-- The supply it came from. -/
  supply : ℕ
  /-- The identity. -/
  id : NodeId

/-- Answers requests one after the other. There is no answer to a draw from a supply that was not
opened. -/
def serve? : List Request → IdPool → Option (List Draw × IdPool)
  | [], p => some ([], p)
  | .openPinned first :: requests, p => serve? requests (p.openPinned first)
  | .openBlock :: requests, p => serve? requests p.openBlock
  | .draw i :: requests, p => do
    let (id, p) ← p.draw? i
    let (draws, p) ← serve? requests p
    return (⟨i, id⟩ :: draws, p)

/-- How many blocks were taken from the counter. -/
def blocksTaken (p : IdPool) : ℕ := p.nextBlock / NodeId.blockSize

/-- What the draws from supply `i` handed out, as 64-bit words, first to last. -/
def wordsOf (i : ℕ) (draws : List Draw) : List UInt64 :=
  (draws.filter (·.supply = i)).map fun d => UInt64.ofNat d.id

/-! ## Blocks of their own -/

/-- The identity can still be handed out: it is left in a block, or its block was not taken yet. -/
def Open (p : IdPool) (id : NodeId) : Prop :=
  (∃ (i : ℕ) (s : IdSupply), p.supplies[i]? = some s ∧ s.next ≤ id ∧ id < s.stop) ∨ p.nextBlock ≤ id

/-- Every supply has what is left of a block that it took, and no two have the same block. -/
structure Separate (p : IdPool) : Prop where
  /-- The next identity is in the block or just past it. -/
  inRange : ∀ (i : ℕ) (s : IdSupply), p.supplies[i]? = some s → s.next ≤ s.stop
  /-- The block was taken. -/
  taken : ∀ (i : ℕ) (s : IdSupply), p.supplies[i]? = some s → s.stop ≤ p.nextBlock
  /-- Of two supplies one has all that is left of its block before the other. -/
  apart : ∀ (i j : ℕ) (s t : IdSupply), i ≠ j → p.supplies[i]? = some s →
    p.supplies[j]? = some t → s.stop ≤ t.next ∨ t.stop ≤ s.next
  /-- The counter is at the start of a block. -/
  whole : NodeId.blockSize ∣ p.nextBlock

theorem separate_empty : empty.Separate where
  inRange := by simp [empty]
  taken := by simp [empty]
  apart := by simp [empty]
  whole := Nat.dvd_zero _

variable {p q : IdPool} {i : ℕ} {id : NodeId}

/-- A supply in a longer list is one that was there or the one that was added. -/
theorem getElem?_openBlock {s : IdSupply} (h : p.openBlock.supplies[i]? = some s) :
    p.supplies[i]? = some s ∨ i = p.supplies.length ∧ s = .block p.nextBlock := by
  rw [openBlock, List.getElem?_append] at h
  split at h
  · exact .inl h
  · rw [List.getElem?_singleton] at h
    split at h
    · cases h
      exact .inr ⟨by omega, rfl⟩
    · cases h

theorem Separate.openBlock (hp : p.Separate) : p.openBlock.Separate := by
  have hnext : p.openBlock.nextBlock = p.nextBlock + NodeId.blockSize := rfl
  have hstop : (IdSupply.block p.nextBlock).stop = p.nextBlock + NodeId.blockSize := rfl
  refine ⟨fun i s hs => ?_, fun i s hs => ?_, fun i j s t hij hs ht => ?_, ?_⟩
  · rcases getElem?_openBlock hs with hs | ⟨-, rfl⟩
    · exact hp.inRange i s hs
    · exact Nat.le_add_right _ _
  · rcases getElem?_openBlock hs with hs | ⟨-, rfl⟩
    · exact (hp.taken i s hs).trans (Nat.le_add_right _ _)
    · exact Nat.le_refl _
  · -- what was taken before lies below the new block
    rcases getElem?_openBlock hs with hs | ⟨rfl, rfl⟩ <;>
      rcases getElem?_openBlock ht with ht | ⟨rfl, rfl⟩
    · exact hp.apart i j s t hij hs ht
    · exact .inl (hp.taken i s hs)
    · exact .inr (hp.taken j t ht)
    · exact absurd rfl hij
  · rw [hnext]
    exact Nat.dvd_add hp.whole (Nat.dvd_refl _)

theorem Open.of_openBlock (h : p.openBlock.Open id) : p.Open id := by
  rcases h with ⟨i, s, hs, hle, hlt⟩ | hle
  · rcases getElem?_openBlock hs with hs | ⟨-, rfl⟩
    · exact .inl ⟨i, s, hs, hle, hlt⟩
    · exact .inr hle
  · exact .inr (Nat.le_trans (Nat.le_add_right _ _) hle)

/-! ## One draw -/

/-- A draw hands out the next identity of a block, which is a new one if the block was used up. -/
theorem draw?_eq_some (h : p.draw? i = some (id, q)) :
    ∃ s, p.supplies[i]? = some s ∧
      (s.next ≠ s.stop ∧ id = s.next ∧ q = ⟨p.supplies.set i ⟨s.next + 1, s.stop⟩, p.nextBlock⟩ ∨
        s.next = s.stop ∧ id = p.nextBlock ∧
        q = ⟨p.supplies.set i ⟨p.nextBlock + 1, p.nextBlock + NodeId.blockSize⟩,
          p.nextBlock + NodeId.blockSize⟩) := by
  obtain ⟨s, hs, hdraw⟩ := Option.map_eq_some_iff.1 h
  refine ⟨s, hs, ?_⟩
  simp only [IdSource.draw, IdSource.refill] at hdraw
  by_cases hspent : s.next = s.stop
  · rw [if_pos hspent] at hdraw
    cases hdraw
    exact .inr ⟨hspent, rfl, rfl⟩
  · rw [if_neg hspent] at hdraw
    cases hdraw
    exact .inl ⟨hspent, rfl, rfl⟩

/-- A supply in an updated list is the new one or another one that was there. -/
theorem getElem?_set_cases {supplies : List IdSupply} {new s : IdSupply} {j : ℕ}
    (h : (supplies.set i new)[j]? = some s) :
    i = j ∧ s = new ∨ i ≠ j ∧ supplies[j]? = some s := by
  rw [List.getElem?_set] at h
  split at h
  · rename_i hij
    split at h
    · cases h
      exact .inl ⟨hij, rfl⟩
    · cases h
  · rename_i hij
    exact .inr ⟨hij, h⟩

/-- Putting another range in the place of a supply keeps supplies apart, if the range lies in what
was left of the supply's block or past all blocks. -/
theorem Separate.set (hp : p.Separate) {s : IdSupply} (new : IdSupply) {nextBlock : NodeId}
    (hs : p.supplies[i]? = some s) (hrange : new.next ≤ new.stop) (htaken : new.stop ≤ nextBlock)
    (hgrow : p.nextBlock ≤ nextBlock) (hwhole : NodeId.blockSize ∣ nextBlock)
    (hnew : s.next ≤ new.next ∧ new.stop = s.stop ∨ p.nextBlock ≤ new.next) :
    Separate ⟨p.supplies.set i new, nextBlock⟩ := by
  -- the new range is apart from every other one
  have hapart : ∀ j t, i ≠ j → p.supplies[j]? = some t →
      new.stop ≤ t.next ∨ t.stop ≤ new.next := by
    intro j t hij ht
    rcases hnew with ⟨hle, hstop⟩ | hpast
    · rw [hstop]
      exact (hp.apart i j s t hij hs ht).imp_right fun h => h.trans hle
    · exact .inr ((hp.taken j t ht).trans hpast)
  refine ⟨fun j t ht => ?_, fun j t ht => ?_, fun j k t u hjk ht hu => ?_, hwhole⟩
  · rcases getElem?_set_cases ht with ⟨-, rfl⟩ | ⟨-, ht⟩
    · exact hrange
    · exact hp.inRange j t ht
  · rcases getElem?_set_cases ht with ⟨-, rfl⟩ | ⟨-, ht⟩
    · exact htaken
    · exact (hp.taken j t ht).trans hgrow
  · rcases getElem?_set_cases ht with ⟨rfl, rfl⟩ | ⟨hij, ht'⟩ <;>
      rcases getElem?_set_cases hu with ⟨rfl, rfl⟩ | ⟨hik, hu'⟩
    · exact absurd rfl hjk
    · exact hapart k u hik hu'
    · exact (hapart j t hij ht').symm
    · exact hp.apart j k t u hjk ht' hu'

/-- What a draw from supply `i` does to a pool: it closes the identity that it hands out, opens
none, and moves the supply past it. -/
structure Draws (p : IdPool) (i : ℕ) (id : NodeId) (q : IdPool) : Prop where
  /-- The supplies still have blocks of their own. -/
  separate : q.Separate
  /-- The identity could be handed out before. -/
  wasOpen : p.Open id
  /-- It cannot be handed out again. -/
  closed : ¬ q.Open id
  /-- Nothing else can be handed out that could not before. -/
  shrinks : ∀ x, q.Open x → p.Open x
  /-- Other supplies stay as they are, and this one moves on. -/
  ascends : ∀ (j : ℕ) (s : IdSupply), p.supplies[j]? = some s → ∃ t : IdSupply,
    q.supplies[j]? = some t ∧ s.next ≤ t.next ∧ (j = i → s.next ≤ id ∧ id < t.next)

theorem Separate.draw (hp : p.Separate) (h : p.draw? i = some (id, q)) : p.Draws i id q := by
  obtain ⟨s, hs, hcase⟩ := draw?_eq_some h
  have hrange := hp.inRange i s hs
  have htaken := hp.taken i s hs
  have hset : ∀ new : IdSupply, (p.supplies.set i new)[i]? = some new := fun new => by
    rw [List.getElem?_set_self (List.getElem?_eq_some_iff.1 hs).1]
  rcases hcase with ⟨hne, rfl, rfl⟩ | ⟨hspent, rfl, rfl⟩
  -- the block is not used up: the identity is its first one
  · have hlt : s.next < s.stop := lt_of_le_of_ne hrange hne
    have hq := hp.set ⟨s.next + 1, s.stop⟩ hs hlt htaken (Nat.le_refl _) hp.whole
      (.inl ⟨Nat.le_succ _, rfl⟩)
    refine ⟨hq, .inl ⟨i, s, hs, Nat.le_refl _, hlt⟩, ?_, ?_, ?_⟩
    · rintro (⟨j, t, ht, hle, hlt'⟩ | hle)
      · rcases getElem?_set_cases ht with ⟨-, rfl⟩ | ⟨hij, ht⟩
        · exact absurd hle (Nat.not_succ_le_self _)
        · -- no other supply has it
          rcases hp.apart i j s t hij hs ht with hbefore | hafter
          · exact absurd (hlt.trans_le (hbefore.trans hle)) (lt_irrefl _)
          · exact absurd (hlt'.trans_le hafter) (lt_irrefl _)
      · exact absurd (hlt.trans_le (htaken.trans hle)) (lt_irrefl _)
    · rintro x (⟨j, t, ht, hle, hlt'⟩ | hle)
      · rcases getElem?_set_cases ht with ⟨-, rfl⟩ | ⟨-, ht⟩
        · exact .inl ⟨i, s, hs, Nat.le_of_succ_le hle, hlt'⟩
        · exact .inl ⟨j, t, ht, hle, hlt'⟩
      · exact .inr hle
    · intro j t ht
      by_cases hij : j = i
      · subst hij
        obtain rfl : s = t := Option.some.inj (hs.symm.trans ht)
        exact ⟨_, hset _, Nat.le_succ _, fun _ => ⟨Nat.le_refl _, Nat.lt_succ_self _⟩⟩
      · refine ⟨t, ?_, Nat.le_refl _, fun h => absurd h hij⟩
        rw [← ht]
        exact List.getElem?_set_ne (Ne.symm hij)
  -- the block is used up: the identity is the first one of the block that the counter gives
  · have hsize : 1 ≤ NodeId.blockSize := by decide
    have hq := hp.set ⟨p.nextBlock + 1, p.nextBlock + NodeId.blockSize⟩ hs
      (Nat.add_le_add_left hsize _) (Nat.le_refl _) (Nat.le_add_right _ _)
      (Nat.dvd_add hp.whole (Nat.dvd_refl _)) (.inr (Nat.le_succ _))
    refine ⟨hq, .inr (Nat.le_refl _), ?_, ?_, ?_⟩
    · rintro (⟨j, t, ht, hle, hlt⟩ | hle)
      · rcases getElem?_set_cases ht with ⟨-, rfl⟩ | ⟨-, ht⟩
        · exact absurd hle (Nat.not_succ_le_self _)
        · exact absurd (hlt.trans_le (hp.taken j t ht)) (lt_irrefl _)
      · exact absurd (Nat.lt_of_lt_of_le (Nat.lt_add_of_pos_right hsize) hle) (lt_irrefl _)
    · rintro x (⟨j, t, ht, hle, hlt⟩ | hle)
      · rcases getElem?_set_cases ht with ⟨-, rfl⟩ | ⟨-, ht⟩
        · exact .inr (Nat.le_of_succ_le hle)
        · exact .inl ⟨j, t, ht, hle, hlt⟩
      · exact .inr (Nat.le_trans (Nat.le_add_right _ _) hle)
    · intro j t ht
      by_cases hij : j = i
      · subst hij
        obtain rfl : s = t := Option.some.inj (hs.symm.trans ht)
        have hle : s.next ≤ p.nextBlock := hrange.trans htaken
        exact ⟨_, hset _, Nat.le_succ_of_le hle, fun _ => ⟨hle, Nat.lt_succ_self _⟩⟩
      · refine ⟨t, ?_, Nat.le_refl _, fun h => absurd h hij⟩
        rw [← ht]
        exact List.getElem?_set_ne (Ne.symm hij)

/-! ## Any number of requests -/

/-- What requests to a pool of separate supplies hand out was open before, is handed out once, and
ascends for each supply. Nothing that was handed out is open afterwards. -/
structure Serves (p : IdPool) (draws : List Draw) (q : IdPool) : Prop where
  /-- The supplies still have blocks of their own. -/
  separate : q.Separate
  /-- Only open identities are handed out. -/
  wasOpen : ∀ d ∈ draws, p.Open d.id
  /-- What was handed out cannot be handed out again. -/
  closed : ∀ d ∈ draws, ¬ q.Open d.id
  /-- Nothing can be handed out that could not before. -/
  shrinks : ∀ x, q.Open x → p.Open x
  /-- No identity is handed out twice. -/
  nodup : (draws.map Draw.id).Nodup
  /-- Each supply hands out ascending identities. -/
  ascending : ∀ i, ((draws.filter (·.supply = i)).map Draw.id).Pairwise (· < ·)
  /-- A supply hands out nothing below its next identity. -/
  above : ∀ (i : ℕ) (s : IdSupply), p.supplies[i]? = some s → ∀ d ∈ draws, d.supply = i →
    s.next ≤ d.id

theorem Separate.serve? {requests : List Request} {draws : List Draw} (hp : p.Separate)
    (hblocks : ∀ first, .openPinned first ∉ requests)
    (h : serve? requests p = some (draws, q)) : p.Serves draws q := by
  induction requests generalizing p draws with
  | nil =>
    cases h
    exact ⟨hp, by simp, by simp, fun _ hx => hx, by simp, by simp, by simp⟩
  | cons request requests ih =>
    have hrest : ∀ first, .openPinned first ∉ requests := fun first hmem =>
      hblocks first (.tail _ hmem)
    cases request with
    | openPinned first => exact absurd (.head _) (hblocks first)
    | openBlock =>
      obtain ⟨hq, hopen, hclosed, hshrinks, hnodup, hascending, habove⟩ :=
        ih hp.openBlock hrest h
      refine ⟨hq, fun d hd => (hopen d hd).of_openBlock, hclosed,
        fun x hx => (hshrinks x hx).of_openBlock, hnodup, hascending, fun i s hs => ?_⟩
      refine habove i s ?_
      rw [← hs]
      exact List.getElem?_append_left (List.getElem?_eq_some_iff.1 hs).1
    | draw i =>
      obtain ⟨⟨id, p'⟩, hdraw, h⟩ := Option.bind_eq_some_iff.1 h
      obtain ⟨⟨later, q'⟩, hserve, h⟩ := Option.bind_eq_some_iff.1 h
      cases h
      have hfirst := hp.draw hdraw
      have hlater := ih hfirst.separate hrest hserve
      refine ⟨hlater.separate, ?_, ?_, fun x hx => hfirst.shrinks x (hlater.shrinks x hx), ?_, ?_,
        ?_⟩
      · exact List.forall_mem_cons.2
          ⟨hfirst.wasOpen, fun d hd => hfirst.shrinks _ (hlater.wasOpen d hd)⟩
      · exact List.forall_mem_cons.2
          ⟨fun hx => hfirst.closed (hlater.shrinks _ hx), hlater.closed⟩
      · -- what comes later was open after the draw, and the drawn identity was not
        refine List.nodup_cons.2 ⟨fun hmem => ?_, hlater.nodup⟩
        obtain ⟨d, hd, heq⟩ := List.mem_map.1 hmem
        have hopen := hlater.wasOpen d hd
        rw [heq] at hopen
        exact hfirst.closed hopen
      · intro j
        by_cases hij : i = j
        · obtain ⟨s, hs, -⟩ := draw?_eq_some hdraw
          obtain ⟨t, ht, -, hid⟩ := hfirst.ascends i s hs
          rw [List.filter_cons_of_pos (by simpa using hij), List.map_cons, List.pairwise_cons]
          refine ⟨fun x hx => ?_, hlater.ascending j⟩
          obtain ⟨d, hd, rfl⟩ := List.mem_map.1 hx
          rw [List.mem_filter, decide_eq_true_eq] at hd
          exact (hid rfl).2.trans_le (hlater.above i t ht d hd.1 (hd.2.trans hij.symm))
        · rw [List.filter_cons_of_neg (by simpa using hij)]
          exact hlater.ascending j
      · intro j s hs
        obtain ⟨t, ht, hle, hid⟩ := hfirst.ascends j s hs
        refine List.forall_mem_cons.2 ⟨fun hij => (hid hij.symm).1, fun d hd hdj => ?_⟩
        exact hle.trans (hlater.above j t ht d hd hdj)

/-- Whatever supplies are opened and drawn from in whatever order, all identities that they hand out
are distinct and those of one supply ascend, as 64-bit words too, as long as the blocks that were
taken have room in 64 bits. -/
theorem serve?_unique (requests : List Request) {draws : List Draw}
    (hblocks : ∀ first, .openPinned first ∉ requests)
    (h : serve? requests empty = some (draws, q))
    (hroom : q.blocksTaken * NodeId.blockSize < 2 ^ 64) :
    (draws.map fun d => UInt64.ofNat d.id).Nodup ∧
      ∀ i, (wordsOf i draws).Pairwise (· < ·) := by
  have hserves := separate_empty.serve? hblocks h
  -- what was handed out lies below the counter, and the counter did not wrap
  have hfits : ∀ d ∈ draws, d.id < 2 ^ 64 := by
    intro d hd
    rw [blocksTaken, Nat.div_mul_cancel hserves.separate.whole] at hroom
    refine lt_of_not_ge fun hge => hserves.closed d hd (.inr ?_)
    exact hroom.le.trans hge
  constructor
  · have hnodup := hserves.nodup
    rw [List.nodup_iff_pairwise_ne, List.pairwise_map] at hnodup ⊢
    refine hnodup.imp_of_mem fun {d d'} hd hd' hne heq => hne ?_
    rw [← UInt64.toNat_inj, UInt64.toNat_ofNat_of_lt' (hfits d hd),
      UInt64.toNat_ofNat_of_lt' (hfits d' hd')] at heq
    exact heq
  · intro i
    have hascending := hserves.ascending i
    rw [wordsOf]
    rw [List.pairwise_map] at hascending ⊢
    refine hascending.imp_of_mem fun {d d'} hd hd' hlt => ?_
    rw [UInt64.lt_iff_toNat_lt, UInt64.toNat_ofNat_of_lt' (hfits d (List.mem_filter.1 hd).1),
      UInt64.toNat_ofNat_of_lt' (hfits d' (List.mem_filter.1 hd').1)]
    exact hlt

/-- A supply is opened between two draws from another one. -/
theorem serve?_unique_interleaved : ∃ draws q,
    serve? [.openBlock, .draw 0, .openBlock, .draw 1, .draw 0, .draw 1] empty = some (draws, q) ∧
    q.blocksTaken = 2 ∧ wordsOf 0 draws = [0, 1] ∧ wordsOf 1 draws = [1024, 1025] ∧
    (draws.map fun d => UInt64.ofNat d.id).Nodup ∧ ∀ i, (wordsOf i draws).Pairwise (· < ·) := by
  refine ⟨_, _, rfl, rfl, by decide, by decide, ?_⟩
  exact serve?_unique [.openBlock, .draw 0, .openBlock, .draw 1, .draw 0, .draw 1] (by simp) rfl
    (by decide)

end IdPool

end CoContextual
