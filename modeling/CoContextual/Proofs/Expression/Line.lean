import CoContextual.Proofs.Expression.Failures
import CoContextual.Proofs.Position

/-!
# Positions on one line

On the first line positions are columns. There they are moved by adding the columns up, and reading
a text without a line feed moves by its length, as long as the columns fit their word. So names and
literals on one line have places that can be told from the lengths of texts.
-/

namespace CoContextual

namespace Offset

/-- The position in column `n` of the first line. -/
def atColumn (n : Nat) : Offset := ⟨0, n.toUInt32⟩

variable {m n : Nat}

/-- Columns add up if their sum fits. -/
theorem add?_atColumn (h : m + n < UInt32.size) :
    (atColumn m).add? (atColumn n) = some (atColumn (m + n)) := by
  have hsum : checkedAdd m.toUInt32 n.toUInt32 = some (m + n).toUInt32 := by
    rw [checkedAdd_eq_some_iff, UInt32.toNat_ofNat_of_lt' (by omega),
      UInt32.toNat_ofNat_of_lt' (by omega), UInt32.toNat_ofNat_of_lt' h]
  rw [add?_of_line_eq_zero _ rfl]
  exact congrArg (Option.map _) hsum

theorem foldlM_atColumn {l : List Char} (hline : '\n' ∉ l) (h : n + l.length < UInt32.size) :
    l.foldlM (fun reached c => reached.add? (ofChar c)) (atColumn n)
      = some (atColumn (n + l.length)) := by
  induction l generalizing n with
  | nil => rfl
  | cons c l ih =>
    rw [List.mem_cons, not_or] at hline
    rw [List.length_cons] at h
    have hchar : ofChar c = atColumn 1 := if_neg (Ne.symm hline.1)
    rw [List.foldlM_cons, hchar, add?_atColumn (by omega), List.length_cons, Nat.add_comm l.length,
      ← Nat.add_assoc]
    exact ih hline.2 (by omega)

end Offset

namespace Span

/-- The columns from `m` up to `n` on the first line. -/
def columns (m n : Nat) : Span := ⟨.atColumn m, .atColumn n⟩

/-- Seen from an earlier column the range lies later. -/
theorem shift?_columns {m n k : Nat} (hm : k + m < UInt32.size) (hn : k + n < UInt32.size) :
    (columns m n).shift? (.atColumn k) = some (columns (k + m) (k + n)) := by
  simp only [shift?, columns, Offset.add?_atColumn hm, Offset.add?_atColumn hn]
  rfl

/-- A text on one line covers as many columns as it has characters. -/
theorem ofText?_of_line {text : String} (hline : '\n' ∉ text.toList)
    (h : text.length < UInt32.size) : ofText? text = some (columns 0 text.length) := by
  rw [← String.length_toList] at h ⊢
  have hread := Offset.foldlM_atColumn (n := 0) hline (by omega)
  rw [Nat.zero_add] at hread
  exact congrArg (Option.map _) hread

end Span

namespace Expr

theorem literalCalls?_atom {a : Atom} (hline : '\n' ∉ a.text.toList)
    (h : a.text.length < UInt32.size) : (atom a).literalCalls? = some [] := by
  rw [literalCalls?, Span.ofText?_of_line hline h]
  rfl

/-- A name in column `k` occurs in as many columns from there on as it has characters. -/
theorem occurrencesIn?_name {text : String} {k : Nat} (hline : '\n' ∉ text.toList)
    (h : k + text.length < UInt32.size) :
    occurrencesIn? ⟨.atColumn k, .atom (.name text)⟩
      = some [⟨.name text, .columns k (k + text.length)⟩] := by
  have hshift : Occurrence.shift? ⟨.name text, .columns 0 text.length⟩ (.atColumn k)
      = some ⟨.name text, .columns k (k + text.length)⟩ := by
    rw [Occurrence.shift?, Span.shift?_columns (by omega) h, Nat.add_zero]
    rfl
  rw [occurrencesIn?, occurrences?, Span.ofText?_of_line hline (by omega)]
  show (Occurrence.shift? _ _).bind _ = _
  rw [hshift]
  rfl

end Expr

end CoContextual
