import CoContextual.Diagnostic
import CoContextual.Proofs.Optional

/-!
# The algebra of positions

Placing one offset after another has the origin as its unit, and is associative as far as the sum
on the left has a value (`Offset.add?_add?`). The other grouping can have a value where that one has
none: a column that a later line feed forgets is never added. A span or a finding that is shifted
twice is therefore shifted by the sum of the offsets, with the same overflows, as long as the
offsets themselves have a sum.

- `Offset.sum?`: the sum of a path of offsets, from the outermost inwards;
- `Offset.sum?_cons`: it is also the outermost offset placed before the sum of the others.
-/

namespace CoContextual

/-! ## Words -/

theorem checkedAdd_eq_some_iff {a b c : UInt32} :
    checkedAdd a b = some c ↔ a.toNat + b.toNat = c.toNat := by
  have hc := c.toNat_lt
  rw [checkedAdd, UInt32.size]
  split <;> rename_i hfits
  · rw [Option.some.injEq, ← UInt32.toNat_inj, UInt32.toNat_add, Nat.mod_eq_of_lt hfits]
  · refine ⟨nofun, fun h => ?_⟩
    omega

theorem checkedAdd_zero (a : UInt32) : checkedAdd a 0 = some a :=
  checkedAdd_eq_some_iff.2 (by simp)

theorem zero_checkedAdd (a : UInt32) : checkedAdd 0 a = some a :=
  checkedAdd_eq_some_iff.2 (by simp)

/-- Words are added in any grouping, as far as the first two have a sum. -/
theorem checkedAdd_checkedAdd {a b ab : UInt32} (h : checkedAdd a b = some ab) (c : UInt32) :
    checkedAdd ab c = (checkedAdd b c).bind (checkedAdd a) := by
  rw [checkedAdd_eq_some_iff] at h
  ext x
  simp only [Option.bind_eq_some_iff, checkedAdd_eq_some_iff]
  constructor
  · intro hx
    have hlt : b.toNat + c.toNat < UInt32.size := by
      have := x.toNat_lt
      rw [UInt32.size]
      omega
    refine ⟨UInt32.ofNatLT _ hlt, ?_, ?_⟩ <;> rw [UInt32.toNat_ofNatLT]
    omega
  · rintro ⟨bc, hbc, hx⟩
    omega

/-- A sum is not zero if one of its summands is not. -/
theorem ne_zero_of_checkedAdd {a b c : UInt32} (h : checkedAdd a b = some c) (hb : b ≠ 0) :
    c ≠ 0 := by
  rw [checkedAdd_eq_some_iff] at h
  rw [Ne, ← UInt32.toNat_inj, UInt32.toNat_zero] at hb ⊢
  omega

/-! ## Offsets -/

namespace Offset

variable {a b ab c total : Offset} {path : List Offset}

theorem add?_of_line_eq_zero (a : Offset) (h : b.line = 0) :
    a.add? b = (checkedAdd a.column b.column).map fun column => ⟨a.line, column⟩ := by
  rw [add?, if_pos h]

theorem add?_of_line_ne_zero (a : Offset) (h : b.line ≠ 0) :
    a.add? b = (checkedAdd a.line b.line).map fun line => ⟨line, b.column⟩ := by
  rw [add?, if_neg h]

theorem add?_zero (a : Offset) : a.add? zero = some a := by
  rw [add?_of_line_eq_zero a rfl, show zero.column = 0 from rfl, checkedAdd_zero]
  rfl

theorem zero_add? (a : Offset) : zero.add? a = some a := by
  by_cases h : a.line = 0
  · rw [add?_of_line_eq_zero _ h, show zero.column = 0 from rfl, zero_checkedAdd, Option.map_some,
      show zero.line = a.line from h.symm]
  · rw [add?_of_line_ne_zero _ h, show zero.line = 0 from rfl, zero_checkedAdd, Option.map_some]

/-- Offsets are added in any grouping, as far as the first two have a sum. -/
theorem add?_add? (h : a.add? b = some ab) (c : Offset) :
    ab.add? c = (b.add? c).bind a.add? := by
  by_cases hb : b.line = 0
  · rw [add?_of_line_eq_zero a hb] at h
    obtain ⟨column, hcolumn, rfl⟩ := Option.map_eq_some_iff.1 h
    by_cases hc : c.line = 0
    -- all three stay on the line of `a`
    · rw [add?_of_line_eq_zero _ hc, add?_of_line_eq_zero b hc, checkedAdd_checkedAdd hcolumn,
        Option.map_bind, Option.bind_map]
      exact Option.bind_congr fun later _ => (add?_of_line_eq_zero (b := ⟨b.line, later⟩) a hb).symm
    -- `c` starts a line of its own, and the columns before it are forgotten
    · rw [add?_of_line_ne_zero _ hc, add?_of_line_ne_zero b hc, hb, zero_checkedAdd,
        Option.map_some, Option.bind_some, add?_of_line_ne_zero a hc]
  · rw [add?_of_line_ne_zero a hb] at h
    obtain ⟨line, hline, rfl⟩ := Option.map_eq_some_iff.1 h
    by_cases hc : c.line = 0
    -- `b` starts a line of its own, and `c` stays on it
    · rw [add?_of_line_eq_zero _ hc, add?_of_line_eq_zero b hc, Option.bind_map,
        Option.map_eq_bind]
      refine Option.bind_congr fun later _ => ?_
      have h : a.add? ⟨b.line, later⟩ = _ := add?_of_line_ne_zero a hb
      rw [Function.comp_apply, Function.comp_apply, h, hline, Option.map_some]
    -- both start lines of their own
    · rw [add?_of_line_ne_zero _ hc, add?_of_line_ne_zero b hc, checkedAdd_checkedAdd hline,
        Option.map_bind, Option.bind_map]
      refine Option.bind_congr fun below hbelow => ?_
      have h : a.add? ⟨below, c.column⟩ = _ :=
        add?_of_line_ne_zero a (ne_zero_of_checkedAdd hbelow hc)
      rw [Function.comp_apply, Function.comp_apply, h]

-- the other grouping has a value here, since the column of the first two is never needed
example : add? ⟨0, 4294967295⟩ ⟨0, 1⟩ = none ∧
    (add? ⟨0, 1⟩ ⟨1, 0⟩).bind (add? ⟨0, 4294967295⟩) = some ⟨1, 0⟩ := by decide

/-- The sum of a path of offsets, each placed after those before it. -/
def sum? (path : List Offset) : Option Offset := path.foldlM add? zero

theorem sum?_nil : sum? [] = some zero := rfl

/-- A path that is summed after `b` is summed after `a` and `b` by placing the sum after `a`. -/
theorem exists_foldlM_add? (h : a.add? b = some ab) (hpath : path.foldlM add? ab = some total) :
    ∃ rest, path.foldlM add? b = some rest ∧ a.add? rest = some total := by
  induction path generalizing b ab with
  | nil => exact ⟨b, rfl, h.trans hpath⟩
  | cons c path ih =>
    rw [List.foldlM_cons] at hpath ⊢
    obtain ⟨abc, habc, hpath⟩ := Option.bind_eq_some_iff.1 hpath
    rw [add?_add? h] at habc
    obtain ⟨bc, hbc, habc⟩ := Option.bind_eq_some_iff.1 habc
    rw [hbc]
    exact ih habc hpath

/-- Where a path has a sum, so has what is left of it without its first offset, and that sum is
placed after the first offset. -/
theorem sum?_cons (h : sum? (a :: path) = some total) :
    ∃ rest, sum? path = some rest ∧ a.add? rest = some total := by
  rw [sum?, List.foldlM_cons, zero_add?] at h
  exact exists_foldlM_add? (add?_zero a) h

end Offset

/-! ## Spans and findings -/

section

variable {a b ab : Offset} (hadd : a.add? b = some ab)

include hadd

theorem Span.shift?_shift? (s : Span) : s.shift? ab = (s.shift? b).bind (·.shift? a) := by
  simp only [Span.shift?, Offset.add?_add? hadd, Option.bind_eq_bind, Option.bind_assoc,
    Option.pure_def, Option.bind_some]
  exact Option.bind_congr fun _ _ => Option.bind_comm _ _

theorem Span.shiftAll?_shiftAll? (spans : List Span) :
    Span.shiftAll? spans ab = (Span.shiftAll? spans b).bind (Span.shiftAll? · a) :=
  mapM_eq_bind_mapM (Span.shift?_shift? hadd) spans

theorem Diagnostic.shift?_shift? (d : Diagnostic) :
    d.shift? ab = (d.shift? b).bind (·.shift? a) := by
  simp only [Diagnostic.shift?, Span.shift?_shift? hadd, Option.bind_eq_bind, Option.bind_assoc,
    Option.pure_def, Option.bind_some]
  exact Option.bind_congr fun _ _ => Option.bind_comm _ _

theorem Diagnostic.shiftAll?_shiftAll? (ds : List Diagnostic) :
    Diagnostic.shiftAll? ds ab = (Diagnostic.shiftAll? ds b).bind (Diagnostic.shiftAll? · a) :=
  mapM_eq_bind_mapM (Diagnostic.shift?_shift? hadd) ds

end

theorem Span.shift?_zero (s : Span) : s.shift? .zero = some s := by
  rw [Span.shift?, Offset.zero_add?, Offset.zero_add?]
  rfl

theorem Span.shiftAll?_zero (spans : List Span) : Span.shiftAll? spans .zero = some spans := by
  rw [Span.shiftAll?, funext Span.shift?_zero]
  exact mapM_some spans

theorem Diagnostic.shift?_zero (d : Diagnostic) : d.shift? .zero = some d := by
  rw [Diagnostic.shift?, Span.shift?_zero, Span.shift?_zero]
  rfl

theorem Diagnostic.shiftAll?_zero (ds : List Diagnostic) :
    Diagnostic.shiftAll? ds .zero = some ds := by
  rw [Diagnostic.shiftAll?, funext Diagnostic.shift?_zero]
  exact mapM_some ds

end CoContextual
