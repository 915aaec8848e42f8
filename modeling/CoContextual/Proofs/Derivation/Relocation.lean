import CoContextual.Proofs.Derivation.Nodes
import CoContextual.Proofs.Position
import Mathlib.Data.List.Basic

/-!
# Where findings and places end up

Positions are shifted on the way up, by the offset of one part after the other, so that the
innermost offset is placed first. A reader of the whole counts the other way, from the outermost
offset inwards. The two agree wherever the reader's count has a sum.

- `Derivation.reports`: the findings of all nodes, a node's own before those of its parts, and where
  a reader sees them (`Nested.place?`);
- `Derivation.diagnostics?_eq_mapM_place?`: these are all findings of the expression, in that order;
- `Derivation.positions_relocate`: the same of statements, and what parentheses around an
  expression do to its findings and places.

The converse does not hold: an expression can know all its findings while a reader's count does not
fit, if that adds columns which a later line feed forgets.
-/

namespace CoContextual

/-! ## Expressions -/

namespace Nested

/-- A finding as the whole sees it: shifted by the sum of the offsets that lead to it. There is
none if the sum or one of the finding's spans outgrows its word. -/
def place? (n : Nested Diagnostic) : Option Diagnostic := do
  n.item.shift? (← Offset.sum? n.path)

theorem place?_atRoot (e : Diagnostic) : place? ⟨[], e⟩ = some e := by
  rw [place?, Offset.sum?_nil]
  exact e.shift?_zero

theorem mapM_place?_atRoot (es : List Diagnostic) :
    (es.map fun e => (⟨[], e⟩ : Nested Diagnostic)).mapM place? = some es := by
  rw [List.mapM_map, show place? ∘ (fun e => ⟨[], e⟩) = some from funext place?_atRoot]
  exact mapM_some es

/-- What a whole sees, its part sees too, and shifts it to where the whole sees it. -/
theorem place?_under {offset : Offset} {n : Nested Diagnostic} {e : Diagnostic}
    (h : (n.under offset).place? = some e) :
    ∃ inner, n.place? = some inner ∧ inner.shift? offset = some e := by
  obtain ⟨total, htotal, h⟩ := Option.bind_eq_some_iff.1 h
  obtain ⟨rest, hrest, hadd⟩ := Offset.sum?_cons htotal
  rw [Diagnostic.shift?_shift? hadd] at h
  obtain ⟨inner, hinner, h⟩ := Option.bind_eq_some_iff.1 h
  exact ⟨inner, Option.bind_eq_some_iff.2 ⟨rest, hrest, hinner⟩, h⟩

end Nested

namespace Derivation

/-- What is wrong with the topmost node itself. Only calls have findings of their own. -/
def own : Derivation → List Diagnostic
  | call site _ _ => site.diagnostics
  | _ => []

/-- The findings of all nodes of an expression. -/
def reports (d : Derivation) : List (Nested Diagnostic) :=
  d.nodes.flatMap fun n => n.item.own.map fun e => ⟨n.path, e⟩

/-- The findings of all nodes of a part, seen from the whole. -/
def reportsIn (part : Placed Derivation) : List (Nested Diagnostic) :=
  part.item.reports.map (·.under part.offset)

theorem diagnostics?_eq (d : Derivation) :
    d.diagnostics? = (diagnosticsInAll? d.parts).map (d.own ++ ·) := by
  cases d <;> simp [diagnostics?, diagnosticsInAll?, parts, own]

theorem reports_eq (d : Derivation) :
    d.reports = d.own.map (fun e => ⟨[], e⟩) ++ d.parts.flatMap reportsIn := by
  rw [reports, nodes_eq, List.flatMap_cons, List.flatMap_assoc]
  congr 1
  refine List.flatMap_congr fun part _ => ?_
  obtain ⟨offset, part⟩ := part
  rw [nodesIn, reportsIn, reports, List.flatMap_map, List.map_flatMap]
  simp only [Nested.under, List.map_map, Function.comp_def]

/-! ### Relocation -/

variable {d : Derivation} {part : Placed Derivation} {parts : List (Placed Derivation)}
  {found : List Diagnostic}

/-- A part's findings are relocated if those of the expression in it are. -/
theorem diagnosticsIn?_eq_mapM_place?
    (h : ∀ {found}, part.item.reports.mapM Nested.place? = some found →
      part.item.diagnostics? = some found)
    (hfound : (reportsIn part).mapM Nested.place? = some found) :
    diagnosticsIn? part = some found := by
  rw [reportsIn, List.mapM_map] at hfound
  obtain ⟨inner, hinner, hshift⟩ := exists_mapM_mapM (fun _ _ => Nested.place?_under) hfound
  rw [diagnosticsIn?]
  exact Option.bind_eq_some_iff.2 ⟨inner, h hinner, hshift⟩

theorem diagnosticsInAll?_eq_mapM_place?
    (h : ∀ p ∈ parts, ∀ {found}, p.item.reports.mapM Nested.place? = some found →
      p.item.diagnostics? = some found)
    (hfound : (parts.flatMap reportsIn).mapM Nested.place? = some found) :
    diagnosticsInAll? parts = some found := by
  induction parts generalizing found with
  | nil => rwa [diagnosticsInAll?]
  | cons part parts ih =>
    rw [List.flatMap_cons] at hfound
    obtain ⟨first, rest, hfirst, hrest, rfl⟩ := mapM_append_eq_some hfound
    rw [diagnosticsInAll?, diagnosticsIn?_eq_mapM_place? (h part (.head _)) hfirst,
      ih (fun p hp => h p (.tail _ hp)) hrest]
    rfl

/-- If a reader can place the findings of all nodes, these are the findings of the expression. -/
theorem diagnostics?_eq_mapM_place? (h : d.reports.mapM Nested.place? = some found) :
    d.diagnostics? = some found := by
  induction d using ind_parts generalizing found with
  | step d ih =>
    rw [reports_eq] at h
    obtain ⟨own, rest, hown, hrest, rfl⟩ := mapM_append_eq_some h
    cases hown.symm.trans (Nested.mapM_place?_atRoot d.own)
    rw [diagnostics?_eq, diagnosticsInAll?_eq_mapM_place? (fun p hp _ => ih p hp) hrest,
      Option.map_some]

/-- An expression in parentheses, the outermost pair first, each at its offset. -/
def wrap (offsets : List Offset) (d : Derivation) : Derivation :=
  offsets.foldr (fun offset inner => grouping ⟨offset, inner⟩) d

theorem diagnostics?_wrap {offsets : List Offset} {total : Offset}
    (h : Offset.sum? offsets = some total) (d : Derivation) :
    (d.wrap offsets).diagnostics? = d.diagnostics?.bind (Diagnostic.shiftAll? · total) := by
  induction offsets generalizing total with
  | nil =>
    cases h
    rw [wrap, List.foldr_nil, funext Diagnostic.shiftAll?_zero, Option.bind_fun_some]
  | cons offset offsets ih =>
    obtain ⟨rest, hrest, hadd⟩ := Offset.sum?_cons h
    rw [show d.wrap (offset :: offsets) = grouping ⟨offset, d.wrap offsets⟩ from rfl,
      diagnostics?, diagnosticsIn?, Option.bind_eq_bind, ih hrest, Option.bind_assoc]
    exact Option.bind_congr fun found _ => (Diagnostic.shiftAll?_shiftAll? hadd found).symm

theorem spansFor?_wrap {offsets : List Offset} {total : Offset}
    (h : Offset.sum? offsets = some total) (d : Derivation) (id : NodeId) :
    (d.wrap offsets).spansFor? id = (d.spansFor? id).bind (Span.shiftAll? · total) := by
  induction offsets generalizing total with
  | nil =>
    cases h
    rw [wrap, List.foldr_nil, funext Span.shiftAll?_zero, Option.bind_fun_some]
  | cons offset offsets ih =>
    obtain ⟨rest, hrest, hadd⟩ := Offset.sum?_cons h
    rw [show d.wrap (offset :: offsets) = grouping ⟨offset, d.wrap offsets⟩ from rfl,
      spansFor?, spansIn?, Option.bind_eq_bind, ih hrest, Option.bind_assoc]
    exact Option.bind_congr fun spans _ => (Span.shiftAll?_shiftAll? hadd spans).symm

end Derivation

/-! ## Statements -/

namespace Statement

/-- What is wrong with the statement itself. Only declarations have findings of their own. -/
def own : Statement → List Diagnostic
  | declare declaration _ => declaration.diagnostics
  | ret _ => []

/-- The findings of the statement and of all nodes of its value. -/
def reports (s : Statement) : List (Nested Diagnostic) :=
  s.own.map (fun e => ⟨[], e⟩) ++ Derivation.reportsIn s.value

theorem diagnostics?_eq (s : Statement) :
    s.diagnostics? = (Derivation.diagnosticsIn? s.value).map (s.own ++ ·) := by
  cases s with
  | declare declaration value => exact Option.map_eq_bind.symm
  | ret value => simp [diagnostics?, own, Statement.value]

/-- If a reader can place the findings of a statement, these are what it reports. -/
theorem diagnostics?_eq_mapM_place? {s : Statement} {found : List Diagnostic}
    (h : s.reports.mapM Nested.place? = some found) : s.diagnostics? = some found := by
  obtain ⟨own, rest, hown, hrest, rfl⟩ := mapM_append_eq_some h
  cases hown.symm.trans (Nested.mapM_place?_atRoot s.own)
  rw [diagnostics?_eq, Derivation.diagnosticsIn?_eq_mapM_place?
    Derivation.diagnostics?_eq_mapM_place? hrest, Option.map_some]

end Statement

/-- Findings and places are relocated by the sum of the offsets that lead to them. If a reader of
the whole can place every finding, the whole knows exactly these findings, one for one and a node's
own before those of its parts. An expression in parentheses has the findings and the places that it
has without them, shifted by the sum of the offsets at which the parentheses open; where that
outgrows a word, there is no answer. -/
theorem Derivation.positions_relocate :
    (∀ d : Derivation, (∀ r ∈ d.reports, ∃ e, r.place? = some e) →
      ∃ found, d.diagnostics? = some found ∧
        List.Forall₂ (fun r e => r.place? = some e) d.reports found) ∧
    (∀ s : Statement, (∀ r ∈ s.reports, ∃ e, r.place? = some e) →
      ∃ found, s.diagnostics? = some found ∧
        List.Forall₂ (fun r e => r.place? = some e) s.reports found) ∧
    ∀ (d : Derivation) (offsets : List Offset) (total : Offset), Offset.sum? offsets = some total →
      (d.wrap offsets).diagnostics? = d.diagnostics?.bind (Diagnostic.shiftAll? · total) ∧
      ∀ id, (d.wrap offsets).spansFor? id = (d.spansFor? id).bind (Span.shiftAll? · total) := by
  refine ⟨fun d h => ?_, fun s h => ?_, fun d offsets total h => ?_⟩
  · obtain ⟨found, hfound⟩ := exists_mapM h
    exact ⟨found, diagnostics?_eq_mapM_place? hfound, forall₂_of_mapM hfound⟩
  · obtain ⟨found, hfound⟩ := exists_mapM h
    exact ⟨found, Statement.diagnostics?_eq_mapM_place? hfound, forall₂_of_mapM hfound⟩
  · exact ⟨diagnostics?_wrap h d, spansFor?_wrap h d⟩

/-- A failing call in parentheses inside the argument of a failing call, as the value of a
declaration that fails too. The first of the offsets around the inner call leaves hardly a column,
but the next one starts a line of its own. -/
theorem Derivation.positions_relocate_nested_calls :
    ∃ (declaration : Declaration) (site site' : CallSite) (callee : Placed Derivation)
      (inner : Derivation) (s : Statement) (found : List Diagnostic),
      declaration.diagnostics.map Diagnostic.primary = [⟨⟨0, 7⟩, ⟨0, 10⟩⟩] ∧
      site.diagnostics.map Diagnostic.primary = [⟨⟨0, 1⟩, ⟨0, 9⟩⟩] ∧
      site'.diagnostics.map Diagnostic.primary = [⟨⟨0, 2⟩, ⟨0, 4⟩⟩] ∧
      inner = (call site' callee []).wrap [⟨0, 4294967280⟩, ⟨2, 7⟩] ∧
      s = .declare declaration ⟨⟨1, 3⟩, call site callee [⟨⟨0, 5⟩, inner⟩]⟩ ∧
      (∀ r ∈ s.reports, ∃ e, r.place? = some e) ∧
      s.diagnostics? = some found ∧
      List.Forall₂ (fun r e => r.place? = some e) s.reports found ∧
      found.map Diagnostic.primary
        = [⟨⟨0, 7⟩, ⟨0, 10⟩⟩, ⟨⟨1, 4⟩, ⟨1, 12⟩⟩, ⟨⟨3, 9⟩, ⟨3, 11⟩⟩] ∧
      (∀ r ∈ inner.reports, ∃ e, r.place? = some e) ∧
      (∃ found, inner.diagnostics? = some found ∧ found.map Diagnostic.primary
        = [⟨⟨2, 9⟩, ⟨2, 11⟩⟩]) ∧
      Offset.sum? [⟨0, 4294967280⟩, ⟨2, 7⟩] = some ⟨2, 7⟩ ∧
      inner.diagnostics? = (call site' callee []).diagnostics?.bind
        (Diagnostic.shiftAll? · ⟨2, 7⟩) := by
  let finding (start stop : UInt32) : Diagnostic :=
    ⟨.typeMismatch, "", ⟨⟨0, start⟩, ⟨0, stop⟩⟩, .zero⟩
  let site (e : Diagnostic) : CallSite :=
    ⟨.primitive 1 .i32, .primitive 2 .i32, .empty, .empty, .empty, [e]⟩
  let callee : Placed Derivation := .atOrigin (.atom (.primitive 3 .i32) .empty ⟨.zero, ⟨0, 1⟩⟩)
  let inner := (call (site (finding 2 4)) callee []).wrap [⟨0, 4294967280⟩, ⟨2, 7⟩]
  let s : Statement :=
    .declare ⟨.name "x", none, .empty, .empty, .primitive 4 .i32, .empty, [finding 7 10]⟩
      ⟨⟨1, 3⟩, call (site (finding 1 9)) callee [⟨⟨0, 5⟩, inner⟩]⟩
  have hs : ∀ r ∈ s.reports, ∃ e, r.place? = some e := fun r hr =>
    Option.isSome_iff_exists.1 (List.all_eq_true.1
      (show (s.reports.all fun r => r.place?.isSome) = true from by decide +kernel) r hr)
  have hinner : ∀ r ∈ inner.reports, ∃ e, r.place? = some e := fun r hr =>
    Option.isSome_iff_exists.1 (List.all_eq_true.1
      (show (inner.reports.all fun r => r.place?.isSome) = true from by decide +kernel) r hr)
  have hsum : Offset.sum? [⟨0, 4294967280⟩, ⟨2, 7⟩] = some ⟨2, 7⟩ := rfl
  obtain ⟨hd, hstmt, hwrap⟩ := positions_relocate
  obtain ⟨found, hfound, hall⟩ := hstmt s hs
  obtain ⟨found', hfound', -⟩ := hd inner hinner
  refine ⟨_, _, _, _, _, _, found, ?_, ?_, ?_, rfl, rfl, hs, hfound, hall, ?_, hinner,
    ⟨found', hfound', ?_⟩, hsum, (hwrap _ _ _ hsum).1⟩
  · rfl
  · rfl
  · rfl
  · cases hfound.symm.trans rfl
    rfl
  · cases hfound'.symm.trans rfl
    rfl

end CoContextual
