import CoContextual.Proofs.Position
import Mathlib.Data.UInt
import Mathlib.Order.Compare

/-!
# The order of positions

Positions are ordered by line and then by column. Placing a position after another one never leads
back, and positions that are placed after the same one stay in their order, so that moving a range
of text neither empties it nor turns it round. Reading is placing what was read piece by piece: two
texts in a row lead to the position of the second placed after that of the first.

- `Offset.add?_eq_some_iff`: when two offsets have a sum, and what it is, told in numbers;
- `Offset.compare_add?`: placing two offsets after a third keeps how they compare;
- `Offset.ofText?_append`: the place that a text leads to, from the places its two halves lead to;
- `Offset.add?_ordered`: the laws of placing, ordering and reading together.
-/

namespace CoContextual

namespace Offset

/-- One position comes before the other. -/
instance : LT Offset := ltOfOrd

/-- One position does not come after the other. -/
instance : LE Offset := leOfOrd

instance : Std.TransOrd Offset :=
  inferInstanceAs (Std.TransCmp (compareLex (compareOn line) (compareOn column)))

instance : Std.LawfulEqOrd Offset where
  eq_of_compare {a b} h := by
    have h : compareLex (compareOn line) (compareOn column) a b = .eq := h
    obtain ⟨hline, hcolumn⟩ := compareLex_eq_eq.1 h
    have hline : a.line = b.line := Std.LawfulEqOrd.eq_of_compare hline
    have hcolumn : a.column = b.column := Std.LawfulEqOrd.eq_of_compare hcolumn
    cases a
    cases b
    simp_all

variable {a b c ab ac abc : Offset}

/-! ## Positions in numbers -/

theorem lt_iff : a < b ↔ a.line.toNat < b.line.toNat ∨
    a.line.toNat = b.line.toNat ∧ a.column.toNat < b.column.toNat := by
  have hcompare : a < b ↔ (compare a.line b.line).then (compare a.column b.column) = .lt := Iff.rfl
  rw [hcompare, Ordering.then_eq_lt, Std.compare_eq_lt, Std.compare_eq_lt, Std.compare_eq_iff_eq,
    UInt32.lt_iff_toNat_lt, UInt32.lt_iff_toNat_lt, ← UInt32.toNat_inj]

theorem le_iff : a ≤ b ↔ a.line.toNat < b.line.toNat ∨
    a.line.toNat = b.line.toNat ∧ a.column.toNat ≤ b.column.toNat := by
  -- not to come after is not to be preceded
  have hle : a ≤ b ↔ ¬ b < a := by
    show (compare a b).isLE = true ↔ ¬ compare b a = .lt
    rw [← Std.OrientedCmp.gt_iff_lt]
    cases compare a b <;> simp
  rw [hle, lt_iff]
  omega

/-- There is a sum if what is added up fits a word: the columns on one line, otherwise the lines. -/
theorem add?_eq_some_iff : a.add? b = some c ↔
    b.line.toNat = 0 ∧ c.line.toNat = a.line.toNat ∧
      a.column.toNat + b.column.toNat = c.column.toNat ∨
    b.line.toNat ≠ 0 ∧ a.line.toNat + b.line.toNat = c.line.toNat ∧
      c.column.toNat = b.column.toNat := by
  have hzero : b.line = 0 ↔ b.line.toNat = 0 := by rw [← UInt32.toNat_inj, UInt32.toNat_zero]
  by_cases hb : b.line = 0
  · rw [add?_of_line_eq_zero a hb, Option.map_eq_some_iff]
    simp only [checkedAdd_eq_some_iff, hzero.1 hb, true_and, ne_eq, not_true_eq_false, false_and,
      or_false]
    constructor
    · rintro ⟨column, hcolumn, rfl⟩
      exact ⟨rfl, hcolumn⟩
    · rintro ⟨hline, hcolumn⟩
      refine ⟨c.column, hcolumn, ?_⟩
      rw [← UInt32.toNat_inj.1 hline]
  · rw [add?_of_line_ne_zero a hb, Option.map_eq_some_iff]
    simp only [checkedAdd_eq_some_iff, mt hzero.2 hb, false_and, ne_eq, not_false_eq_true,
      true_and, false_or]
    constructor
    · rintro ⟨line, hline, rfl⟩
      exact ⟨hline, rfl⟩
    · rintro ⟨hline, hcolumn⟩
      refine ⟨c.line, hline, ?_⟩
      rw [← UInt32.toNat_inj.1 hcolumn]

/-! ## Placing keeps the order -/

/-- Nothing that is placed after a position comes before it. -/
theorem le_of_add? (h : a.add? b = some ab) : a ≤ ab := by
  rw [le_iff]
  -- the columns add up on one line, and a lower line is later whatever its columns
  rcases add?_eq_some_iff.1 h with ⟨hline, hsame, hcolumn⟩ | ⟨hline, hsum, hcolumn⟩
  · omega
  · omega

/-- Of two offsets that are placed after the same one the earlier stays the earlier. -/
theorem add?_lt_add? (hb : a.add? b = some ab) (hc : a.add? c = some ac) (h : b < c) :
    ab < ac := by
  rw [lt_iff] at h ⊢
  rcases add?_eq_some_iff.1 hb with hb | hb <;> rcases add?_eq_some_iff.1 hc with hc | hc
  -- both on the line of `a`, or only the later one below it
  · omega
  · omega
  -- the earlier one cannot be below the line of the later one
  · omega
  · omega

/-- Placing two offsets after a third keeps how they compare. -/
theorem compare_add? (hb : a.add? b = some ab) (hc : a.add? c = some ac) :
    compare ab ac = compare b c := by
  cases hcompare : compare b c with
  | lt => exact add?_lt_add? hb hc hcompare
  | eq =>
    obtain rfl := Std.LawfulEqOrd.eq_of_compare hcompare
    obtain rfl := Option.some.inj (hb.symm.trans hc)
    exact Std.ReflCmp.compare_self
  | gt =>
    apply Std.OrientedCmp.gt_of_lt
    exact add?_lt_add? hc hb (Std.OrientedCmp.lt_of_gt hcompare)

/-! ## Reading -/

/-- Reading two texts in a row leads to where the second leads, placed after where the first
does; and if all that can be told, each can be read on its own. -/
theorem ofText?_append {s t : String} {total : Offset} (h : ofText? (s ++ t) = some total) :
    ∃ first second, ofText? s = some first ∧ ofText? t = some second ∧
      first.add? second = some total := by
  rw [ofText?, String.toList_append, List.foldlM_append] at h
  obtain ⟨first, hfirst, h⟩ := Option.bind_eq_some_iff.1 h
  -- reading is summing the moves of the characters
  have hmoves : ∀ start : Offset, t.toList.foldlM (fun reached c => reached.add? (ofChar c)) start
      = (t.toList.map ofChar).foldlM add? start := fun start => by rw [List.foldlM_map]
  rw [hmoves] at h
  obtain ⟨second, hsecond, hsum⟩ := exists_foldlM_add? (add?_zero first) h
  exact ⟨first, second, hfirst, (hmoves zero).trans hsecond, hsum⟩

end Offset

/-! ## Ranges -/

namespace Span

variable {s shifted : Span} {offset : Offset}

/-- The ends of a range compare as before when the range is moved. -/
theorem compare_of_shift? (h : s.shift? offset = some shifted) :
    compare shifted.start shifted.stop = compare s.start s.stop := by
  obtain ⟨start, hstart, h⟩ := Option.bind_eq_some_iff.1 h
  obtain ⟨stop, hstop, h⟩ := Option.bind_eq_some_iff.1 h
  cases h
  exact Offset.compare_add? hstart hstop

/-- A range is empty after a move exactly if it was empty before. -/
theorem isEmpty_of_shift? (h : s.shift? offset = some shifted) : shifted.isEmpty = s.isEmpty := by
  have hends := compare_of_shift? h
  rw [isEmpty, isEmpty, decide_eq_decide, ← Std.compare_eq_iff_eq, hends, Std.compare_eq_iff_eq]

end Span

/-- Offsets are an ordered monoid as far as their sums fit their words, and reading is a
homomorphism into it. Sums can be regrouped to the right, the origin is a unit on both sides, no sum
comes before its left summand, and adding on the left keeps and reflects the order, so that moving a
range neither empties it nor turns it round. What two texts in a row lead to is the sum of what each
leads to. -/
theorem Offset.add?_ordered :
    (∀ a b c ab abc : Offset, a.add? b = some ab → ab.add? c = some abc →
      ∃ bc, b.add? c = some bc ∧ a.add? bc = some abc) ∧
    (∀ a : Offset, zero.add? a = some a ∧ a.add? zero = some a) ∧
    (∀ a b ab : Offset, a.add? b = some ab → a ≤ ab) ∧
    (∀ a b c ab ac : Offset, a.add? b = some ab → a.add? c = some ac → (ab < ac ↔ b < c)) ∧
    (∀ (s shifted : Span) (offset : Offset), s.shift? offset = some shifted →
      shifted.isEmpty = s.isEmpty ∧
        compare shifted.start shifted.stop = compare s.start s.stop) ∧
    (∀ (s t : String) (total : Offset), ofText? (s ++ t) = some total →
      ∃ first second, ofText? s = some first ∧ ofText? t = some second ∧
        first.add? second = some total) ∧
    ofText? "" = some zero := by
  refine ⟨fun a b c ab abc hab habc => ?_, fun a => ⟨zero_add? a, add?_zero a⟩,
    fun a b ab => le_of_add?, fun a b c ab ac hab hac => ?_,
    fun s shifted offset h => ⟨Span.isEmpty_of_shift? h, Span.compare_of_shift? h⟩,
    fun s t total => ofText?_append, rfl⟩
  · rw [add?_add? hab] at habc
    exact Option.bind_eq_some_iff.1 habc
  · show compare ab ac = .lt ↔ compare b c = .lt
    rw [compare_add? hab hac]

/-- At the limits of both words: the columns of the last line but one are full, and a line feed
forgets them. -/
theorem Offset.add?_ordered_at_limit : ∃ bc first second : Offset,
    add? ⟨4294967294, 7⟩ ⟨0, 4294967288⟩ = some ⟨4294967294, 4294967295⟩ ∧
    add? ⟨4294967294, 4294967295⟩ ⟨1, 9⟩ = some ⟨4294967295, 9⟩ ∧
    add? ⟨0, 4294967288⟩ ⟨1, 9⟩ = some bc ∧ add? ⟨4294967294, 7⟩ bc = some ⟨4294967295, 9⟩ ∧
    (⟨4294967294, 4294967295⟩ : Offset) < ⟨4294967295, 9⟩ ∧
    ofText? ("ab\nc" ++ "d\n\ne") = some ⟨3, 1⟩ ∧ ofText? "ab\nc" = some first ∧
    ofText? "d\n\ne" = some second ∧ first.add? second = some ⟨3, 1⟩ := by
  obtain ⟨hassoc, -, -, hlt, -, hread, -⟩ := add?_ordered
  have hab : add? ⟨4294967294, 7⟩ ⟨0, 4294967288⟩ = some ⟨4294967294, 4294967295⟩ := by decide
  have habc : add? ⟨4294967294, 4294967295⟩ ⟨1, 9⟩ = some ⟨4294967295, 9⟩ := by decide
  obtain ⟨bc, hbc, htotal⟩ := hassoc _ _ _ _ _ hab habc
  have hac : add? ⟨4294967294, 7⟩ ⟨1, 9⟩ = some ⟨4294967295, 9⟩ := by decide
  have htext : ofText? ("ab\nc" ++ "d\n\ne") = some ⟨3, 1⟩ := by decide
  obtain ⟨first, second, hfirst, hsecond, hsum⟩ := hread _ _ _ htext
  exact ⟨bc, first, second, hab, habc, hbc, htotal, (hlt _ _ _ _ _ hab hac).2 (by decide), htext,
    hfirst, hsecond, hsum⟩

end CoContextual
