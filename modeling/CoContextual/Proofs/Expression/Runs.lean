import CoContextual.Proofs.Expression.Calls

/-!
# Rules that run

Whether the next step of a session succeeds can be told from the expression alone: if the literals
that it calls have places that fit their words, the rule makes a derivation, and makes it also if a
trace is kept. Findings are then as many as there are such calls, and none if there are none.
-/

namespace CoContextual

variable {g₀ g : Typer} {trees rest : List (Expr × Derivation)} {e : Expr} {d : Derivation}
  {rule : TyperM Derivation}

/-- A session can go on with every rule whose positions fit their words. -/
theorem Applies.exists_ok (h : Applies trees e rest rule) (hsession : Session g₀ g trees)
    (hids : g₀.ids.Distinct (g.ids.advance e.draws)) {calls : List LiteralCall}
    (hcalls : e.literalCalls? = some calls) :
    ∃ d g', rule g = .ok (d, g') ∧ g'.ids = g.ids.advance e.draws ∧
      Session g₀ g' ((e, d) :: rest) := by
  rcases h.makes hsession hids with ⟨d, hmakes⟩ | ⟨-, hnone⟩
  · rcases hmakes.returns with ⟨g', hok⟩ | ⟨-, -, hfound⟩
    · exact ⟨d, g', hok, h.ids_eq hok, h.session hsession hok⟩
    · -- a typer without a trace makes the same derivation, and its findings have places
      obtain ⟨g', hok⟩ := hmakes.silent
      have hsilent : Session g₀ g.silent trees := hsession.other (.refl _)
      have hadvance : g'.ids = g.silent.ids.advance e.draws := h.ids_eq hok
      obtain ⟨-, ids, -, -, hinferred, -⟩ :=
        (h.session hsilent hok).exists_inferred (hadvance ▸ hids) (.head _)
      obtain ⟨ds, hds, -⟩ := hinferred.allReported calls hcalls
      rw [hfound] at hds
      cases hds
  · rw [hcalls] at hnone
    cases hnone

/-- Where no literal is called there is no finding. -/
theorem Inferred.diagnostics?_eq_nil {ids : List NodeId} (h : Inferred e d ids)
    (hcalls : e.literalCalls? = some []) : d.diagnostics? = some [] := by
  obtain ⟨ds, hds, hreported⟩ := h.allReported [] hcalls
  rw [hds, List.forall₂_nil_left_iff.1 hreported]

end CoContextual
