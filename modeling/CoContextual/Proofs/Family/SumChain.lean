import CoContextual.Family
import CoContextual.Proofs.Expression.Line
import CoContextual.Proofs.Expression.Runs
import CoContextual.Proofs.Ty.Text
import CoContextual.Proofs.Typing.Definite

/-!
# Sums on one line

`Family.sumChain terms` makes a derivation of the sum `x0 + x1 + ...` of any number of names for
which the line fits its word, and links it with the declarations that `Family.sumChainBindings`
makes (`Family.sumChain_links`). Every name is used once, at a variable that leads to the columns of
the name in the text.

The columns are computed from the text (`Family.sumText`), which grows by more than before when the
numbers of the names gain a digit. That every name is used once rests on names of different numbers
being different (`Family.summand_injective`). In which order the uses are discharged does not
matter: with the declarations at hand `i32` is the only type of the sum (`Family.definite_sum`), so
that its type is resolved to `i32` once all uses are discharged.
-/

namespace CoContextual

namespace Family

/-! ## The text -/

/-- What stands before the `i`-th summand. -/
def sumPrefix : ℕ → String
  | 0 => ""
  | i + 1 => sumPrefix i ++ summand i ++ " + "

/-- The sum of the first `terms` summands as it is written, for at least one of them. -/
def sumText (terms : ℕ) : String := sumPrefix (terms - 1) ++ summand (terms - 1)

example : sumText 3 = "x0 + x1 + x2" := by decide

/-- The columns of the `i`-th summand. -/
def summandSpan (i : ℕ) : Span := .columns (sumPrefix i).length (sumPrefix i ++ summand i).length

/-- The column of the operator behind `n + 1` summands. -/
def plusSpan (n : ℕ) : Span :=
  .columns ((sumText (n + 1)).length + 1) ((sumText (n + 1)).length + 2)

theorem toList_summand (i : ℕ) : (summand i).toList = 'x' :: Nat.toDigits 10 i := by
  simp [summand]

theorem summand_injective {i j : ℕ} (h : summand i = summand j) : i = j := by
  have hchars := congrArg String.toList h
  rw [toList_summand, toList_summand, List.cons.injEq, ← List.append_nil (Nat.toDigits 10 i),
    ← List.append_nil (Nat.toDigits 10 j)] at hchars
  exact (toDigits_append_inj endsNumber_nil endsNumber_nil hchars.2).1

theorem newline_not_mem_summand (i : ℕ) : '\n' ∉ (summand i).toList := by
  rw [toList_summand, List.mem_cons, not_or]
  refine ⟨by decide, fun hmem => ?_⟩
  have hdigit := Nat.isDigit_of_mem_toDigits (by decide) (by decide) hmem
  exact absurd hdigit (by decide)

theorem length_sumPrefix_succ (n : ℕ) :
    (sumPrefix (n + 1)).length = (sumText (n + 1)).length + 3 := by
  rw [sumPrefix, String.length_append]
  rfl

theorem summandSpan_succ (n : ℕ) : summandSpan (n + 1) = .columns ((sumText (n + 1)).length + 3)
    ((sumText (n + 1)).length + 3 + (summand (n + 1)).length) := by
  rw [summandSpan, String.length_append, length_sumPrefix_succ]

theorem length_sumText_succ (n : ℕ) :
    (sumText (n + 2)).length = (sumText (n + 1)).length + 3 + (summand (n + 1)).length := by
  rw [← length_sumPrefix_succ]
  simp [sumText]

/-- The text gets longer with every summand. -/
theorem length_sumText_le {m n : ℕ} (h : m ≤ n) :
    (sumText (m + 1)).length ≤ (sumText (n + 1)).length := by
  induction h with
  | refl => exact Nat.le_refl _
  | @step n _ ih =>
    rw [length_sumText_succ]
    omega

/-- Every summand is a part of the text. -/
theorem exists_sumText_eq {terms i : ℕ} (h : i < terms) :
    ∃ rest, sumText terms = sumPrefix i ++ summand i ++ rest := by
  induction terms with
  | zero => exact absurd h (Nat.not_lt_zero i)
  | succ n ih =>
    rcases Nat.lt_succ_iff_lt_or_eq.1 h with hlt | rfl
    · obtain ⟨rest, hrest⟩ := ih hlt
      obtain ⟨m, rfl⟩ := Nat.exists_eq_add_one_of_ne_zero (Nat.ne_zero_of_lt hlt)
      refine ⟨rest ++ " + " ++ summand (m + 1), ?_⟩
      rw [← String.append_assoc, ← String.append_assoc, ← hrest]
      rfl
    · exact ⟨"", (String.append_empty ..).symm⟩

/-! ## The expression -/

/-- The sum of `n + 1` summands, nested to the left. -/
def sum : ℕ → Expr
  | 0 => .atom (.name (summand 0))
  | n + 1 => .binary ⟨.zero, sum n⟩ "+" (plusSpan n)
      ⟨.atColumn ((sumText (n + 1)).length + 3), .atom (.name (summand (n + 1)))⟩

theorem literalCalls?_summand {i : ℕ} (h : (summand i).length < UInt32.size) :
    (Expr.atom (.name (summand i))).literalCalls? = some [] :=
  Expr.literalCalls?_atom (newline_not_mem_summand i) h

theorem literalCalls?_sum {n : ℕ} (h : (sumText (n + 1)).length < UInt32.size) :
    (sum n).literalCalls? = some [] := by
  induction n with
  | zero => exact literalCalls?_summand h
  | succ n ih =>
    rw [length_sumText_succ] at h
    rw [sum, Expr.literalCalls?, Expr.literalCallsIn?, Expr.literalCallsIn?, ih (by omega),
      literalCalls?_summand (by omega)]
    rfl

/-- The occurrences in the sum of `n + 1` summands. -/
def sumOccurrences : ℕ → List Occurrence
  | 0 => [⟨.name (summand 0), summandSpan 0⟩]
  | n + 1 => sumOccurrences n ++ [⟨.name (summand (n + 1)), summandSpan (n + 1)⟩]
      ++ [⟨.operator "+", plusSpan n⟩]

theorem occurrences?_sum {n : ℕ} (h : (sumText (n + 1)).length < UInt32.size) :
    (sum n).occurrences? = some (sumOccurrences n) := by
  induction n with
  | zero =>
    rw [sum, Expr.occurrences?, Span.ofText?_of_line (newline_not_mem_summand 0) h]
    rfl
  | succ n ih =>
    rw [length_sumText_succ] at h
    have hleft : Expr.occurrencesIn? ⟨.zero, sum n⟩ = some (sumOccurrences n) := by
      have hzero : ∀ o : Occurrence, o.shift? .zero = some o := fun o => by
        rw [Occurrence.shift?, Span.shift?_zero]
        rfl
      rw [Expr.occurrencesIn?, ih (by omega), Option.bind_eq_bind, Option.bind_some, funext hzero,
        mapM_some]
    have hright := Expr.occurrencesIn?_name (k := (sumText (n + 1)).length + 3)
      (newline_not_mem_summand (n + 1)) h
    rw [sum, Expr.occurrences?, hleft, hright, ← summandSpan_succ]
    rfl

theorem spansOf_summand (n i : ℕ) :
    Occurrence.spansOf (.name (summand i)) (sumOccurrences n)
      = if i ≤ n then [summandSpan i] else [] := by
  have hname : ∀ j, Occurrence.spansOf (.name (summand i)) [⟨.name (summand j), summandSpan j⟩]
      = if j = i then [summandSpan i] else [] := by
    intro j
    rw [Occurrence.spansOf_cons, Occurrence.spansOf_nil]
    by_cases hj : j = i
    · rw [hj, if_pos rfl, if_pos rfl]
    · rw [if_neg hj, if_neg]
      exact fun h => hj (summand_injective (Ident.name.inj h))
  induction n with
  | zero =>
    rw [sumOccurrences, hname]
    simp only [Nat.le_zero, eq_comm]
  | succ n ih =>
    have hplus : Occurrence.spansOf (.name (summand i)) [⟨.operator "+", plusSpan n⟩] = [] := by
      rw [Occurrence.spansOf_cons, if_neg (by simp), Occurrence.spansOf_nil]
    rw [sumOccurrences, Occurrence.spansOf_append, Occurrence.spansOf_append, ih, hname, hplus,
      List.append_nil]
    by_cases hi : i ≤ n
    · rw [if_pos hi, if_neg (by omega), if_pos (by omega), List.append_nil]
    · rw [if_neg hi, List.nil_append]
      exact if_congr (by omega) rfl rfl

theorem length_spansOf_plus (n : ℕ) :
    (Occurrence.spansOf (.operator "+") (sumOccurrences n)).length = n := by
  induction n with
  | zero => rfl
  | succ n ih =>
    rw [sumOccurrences, Occurrence.spansOf_append, Occurrence.spansOf_append, List.length_append,
      List.length_append, ih]
    rfl

/-! ## The run -/

theorem column_run {n : ℕ} (h : n < UInt32.size) (g : Typer) :
    column n g = .ok (.atColumn n, g) := by
  unfold column
  rw [if_pos h]
  rfl

/-- One summand after the other is added to the sum. -/
theorem extendSum_run {g₀ g : Typer} {trees : List (Expr × Derivation)} {d : Derivation}
    (count : ℕ) {n : ℕ} (h : Session g₀ g ((sum n, d) :: trees))
    (hwidth : (sumText (n + count + 1)).length < UInt32.size)
    (hids : g₀.ids.Distinct (g.ids.advance (4 * count))) :
    ∃ d' g', extendSum count (n + 1) (sumText (n + 1)).length d g = .ok (d', g') ∧
      g'.ids = g.ids.advance (4 * count) ∧ Session g₀ g' ((sum (n + count), d') :: trees) := by
  induction count generalizing g d n with
  | zero => exact ⟨d, g, rfl, rfl, h⟩
  | succ count ih =>
    have hfits : (sumText (n + 2)).length < UInt32.size :=
      Nat.lt_of_le_of_lt (length_sumText_le (by omega)) hwidth
    have hcalls := literalCalls?_sum hfits
    rw [length_sumText_succ] at hfits
    have hadvance : g.ids.advance (4 * (count + 1))
        = ((g.ids.advance 1).advance 3).advance (4 * count) := by
      rw [← IdSource.advance_add, ← IdSource.advance_add]
      congr 1
      omega
    rw [hadvance] at hids ⊢
    have hsum := hids.of_reaches (IdSource.reaches_advance _ _)
    -- the summand, then the sum around it
    obtain ⟨rhs, g₁, hatom, hg₁, h₁⟩ := (Applies.atom (.name (summand (n + 1)))).exists_ok h
      (hsum.of_reaches (IdSource.reaches_advance _ _)) (literalCalls?_summand (by omega))
    rw [← show g₁.ids = g.ids.advance 1 from hg₁] at hids hsum ⊢
    obtain ⟨d₂, g₂, hbinary, hg₂, h₂⟩ :=
      (Applies.binary ⟨.zero, _⟩ "+" (plusSpan n) ⟨.atColumn ((sumText (n + 1)).length + 3), _⟩
        (.swap _ _ _)).exists_ok h₁ hsum hcalls
    rw [← show g₂.ids = g₁.ids.advance 3 from hg₂] at hids ⊢
    obtain ⟨d', g', hrest, hg', h'⟩ := ih h₂ (by rwa [Nat.add_right_comm n 1]) hids
    refine ⟨d', g', ?_, hg', by rwa [Nat.add_right_comm n 1] at h'⟩
    rw [length_sumText_succ] at hrest
    rw [extendSum]
    exact bind_eq_ok.2 ⟨rhs, g₁, hatom, bind_eq_ok.2 ⟨_, g₁, column_run (by omega) g₁,
      bind_eq_ok.2 ⟨_, g₁, column_run (by omega) g₁, bind_eq_ok.2 ⟨_, g₁, column_run (by omega) g₁,
      bind_eq_ok.2 ⟨d₂, g₂, hbinary, bind_eq_ok.2 ⟨_, g₂, column_run hfits g₂, hrest⟩⟩⟩⟩⟩⟩

theorem sumChain_run {g₀ g : Typer} {trees : List (Expr × Derivation)} {n : ℕ}
    (h : Session g₀ g trees) (hwidth : (sumText (n + 1)).length < UInt32.size)
    (hids : g₀.ids.Distinct (g.ids.advance (4 * n + 1))) :
    ∃ d g', sumChain (n + 1) g = .ok (d, g') ∧ g'.ids = g.ids.advance (4 * n + 1) ∧
      Session g₀ g' ((sum n, d) :: trees) := by
  have hfirst : (sumText 1).length < UInt32.size :=
    Nat.lt_of_le_of_lt (length_sumText_le (Nat.zero_le n)) hwidth
  rw [Nat.add_comm (4 * n), IdSource.advance_add] at hids ⊢
  obtain ⟨d, g₁, hatom, hg₁, h₁⟩ := (Applies.atom (.name (summand 0))).exists_ok h
    (hids.of_reaches (IdSource.reaches_advance _ _)) (literalCalls?_summand hfirst)
  rw [← show g₁.ids = g.ids.advance 1 from hg₁] at hids ⊢
  obtain ⟨d', g', hrest, hg', h'⟩ := extendSum_run n h₁ (by rwa [Nat.zero_add]) hids
  rw [Nat.zero_add] at h'
  exact ⟨d', g', bind_eq_ok.2 ⟨d, g₁, hatom, hrest⟩, hg', h'⟩

/-! ## What the sum requires -/

theorem covered_sum {b : Bindings} {n : ℕ} (hnames : ∀ i ≤ n, b.Closes (.name (summand i)))
    (hplus : b.Closes (.operator "+")) : (sum n).Covered b := by
  induction n with
  | zero => exact .name (hnames 0 (Nat.le_refl 0))
  | succ n ih =>
    exact .binary hplus (ih fun i hi => hnames i (by omega)) (.name (hnames _ (Nat.le_refl _)))

theorem requirements_summand {i : ℕ} {d : Derivation} {ids : List NodeId}
    (h : Inferred (.atom (.name (summand i))) d ids) :
    ∃ v, d.requirements = Requirements.empty.add (.name (summand i)) (.flexible v) := by
  cases h with
  | name text v hspan => exact ⟨v, rfl⟩

/-- One more summand is one more use of its name and of the operator. -/
theorem requirements_sum_succ {n : ℕ} {d : Derivation} {ids : List NodeId}
    (h : Inferred (sum (n + 1)) d ids) :
    ∃ left ids' v operatorType, Inferred (sum n) left ids' ∧
      d.requirements = (left.requirements
        ++ Requirements.empty.add (.name (summand (n + 1))) (.flexible v)).add (.operator "+")
          operatorType := by
  generalize hexpr : sum (n + 1) = e at h
  cases h with
  | @binary _ _ left _ ids _ offset operator span offset' result operands arrow h h' =>
    obtain ⟨hlhs, rfl, -, hrhs⟩ := Expr.binary.inj hexpr
    obtain ⟨-, rfl⟩ := Placed.mk.inj hlhs
    obtain ⟨-, rfl⟩ := Placed.mk.inj hrhs
    obtain ⟨v, hv⟩ := requirements_summand h'
    exact ⟨left, ids, v, _, h, by rw [← hv]; rfl⟩
  | _ => cases hexpr

/-- Names are used at variables. -/
theorem flexible_of_inferred {n : ℕ} {d : Derivation} {ids : List NodeId}
    (h : Inferred (sum n) d ids) :
    d.requirements.Each fun token t => ∀ text, token = .name text → ∃ v, t = .flexible v := by
  induction n generalizing d ids with
  | zero =>
    obtain ⟨v, hv⟩ := requirements_summand h
    rw [hv, Requirements.each_add]
    exact ⟨Requirements.each_empty, fun _ _ => ⟨v, rfl⟩⟩
  | succ n ih =>
    obtain ⟨left, ids', v, operatorType, hleft, hrequirements⟩ := requirements_sum_succ h
    rw [hrequirements, Requirements.each_add, Requirements.each_append, Requirements.each_add]
    exact ⟨⟨ih hleft, Requirements.each_empty, fun _ _ => ⟨v, rfl⟩⟩, fun _ hname => nomatch hname⟩

/-- The identifiers in the sum of `n` summands. -/
def InSum (n : ℕ) (token : Ident) : Prop :=
  token = .operator "+" ∨ ∃ i < n, token = .name (summand i)

/-- Nothing but the summands and the operator is required. -/
theorem inSum_of_inferred {n : ℕ} {d : Derivation} {ids : List NodeId}
    (h : Inferred (sum n) d ids) : d.requirements.Only (InSum (n + 1)) := by
  have hown : ∀ i v,
      (Requirements.empty.add (.name (summand i)) (.flexible v)).Only (InSum (i + 1)) :=
    fun i v => Requirements.only_empty.addAll (.inr ⟨i, Nat.lt_succ_self i, rfl⟩) _
  induction n generalizing d ids with
  | zero =>
    obtain ⟨v, hv⟩ := requirements_summand h
    rw [hv]
    exact hown 0 v
  | succ n ih =>
    obtain ⟨left, ids', v, operatorType, hleft, hrequirements⟩ := requirements_sum_succ h
    have hleft : left.requirements.Only (InSum (n + 2)) := fun token htoken =>
      (ih hleft token htoken).imp_right fun ⟨i, hi, hname⟩ => ⟨i, Nat.lt_succ_of_lt hi, hname⟩
    rw [hrequirements]
    exact (hleft.append (hown (n + 1) v)).addAll (.inl rfl) _

/-! ## Declarations of the summands -/

/-- The first `n` summands are declared as `i32`. -/
def DeclaresSummands (b : Bindings) (n : ℕ) : Prop :=
  ∀ i < n, ∃ j, b.get? (.name (summand i)) = some (.primitive j .i32)

theorem declaresSummands_declareSummands {b : Bindings} (count : ℕ) {n : ℕ}
    (h : DeclaresSummands b n) (ids : IdSource) :
    DeclaresSummands ((declareSummands count n b).run ids).1 (n + count) := by
  induction count generalizing b n ids with
  | zero => exact h
  | succ count ih =>
    have hnext : DeclaresSummands
        (b.add (.name (summand n)) (.primitive ids.draw.1 .i32)) (n + 1) := by
      intro i hi
      rw [Bindings.get?_add]
      split
      · exact ⟨_, rfl⟩
      · rename_i hne
        refine h i (Nat.lt_of_le_of_ne (Nat.le_of_lt_succ hi) ?_)
        rintro rfl
        exact hne rfl
    have hrest := ih hnext ids.draw.2
    rw [Nat.add_right_comm] at hrest
    exact hrest

/-- The operator takes two `i32` to a third. -/
def DeclaresPlus (b : Bindings) : Prop :=
  ∃ i j l r k, b.get? (.operator "+")
    = some (.arrow i (.product j [.primitive l .i32, .primitive r .i32]) (.primitive k .i32))

theorem declares_sumChainBindings (terms : ℕ) (ids : IdSource) :
    DeclaresSummands ((sumChainBindings terms).run ids).1 terms ∧
      DeclaresPlus ((sumChainBindings terms).run ids).1 := by
  have hnames := declaresSummands_declareSummands (b := .empty) terms
    (fun _ hi => absurd hi (Nat.not_lt_zero _)) ids
  rw [Nat.zero_add] at hnames
  obtain ⟨i, j, l, r, k, hb⟩ : ∃ i j l r k, ((sumChainBindings terms).run ids).1
      = ((declareSummands terms 0 .empty).run ids).1.add (.operator "+")
        (.arrow i (.product j [.primitive l .i32, .primitive r .i32]) (.primitive k .i32)) :=
    ⟨_, _, _, _, _, rfl⟩
  rw [hb]
  constructor
  · intro i hi
    rw [Bindings.get?_add, if_neg (by simp)]
    exact hnames i hi
  · exact ⟨i, j, l, r, k, by rw [Bindings.get?_add, if_pos rfl]⟩

section

variable {b : Bindings} {n : ℕ}

/-- With such declarations the sum has the type `i32` and no other. -/
theorem definite_sum (hnames : DeclaresSummands b (n + 1)) (hplus : DeclaresPlus b) :
    (sum n).Definite b .i32 := by
  obtain ⟨p, q, l, r, k, hb⟩ := hplus
  have hname : ∀ i ≤ n, (Expr.atom (.name (summand i))).Definite b .i32 := by
    intro i hi
    obtain ⟨j, hj⟩ := hnames i (Nat.lt_succ_of_le hi)
    refine ⟨⟨0, .name hj ⟨Ty.var, rfl⟩ rfl⟩, fun t ht => ?_⟩
    cases ht with
    | name hdeclared hinstance _ =>
      rw [hj] at hdeclared
      cases hdeclared
      obtain ⟨σ, hσ⟩ := hinstance
      exact Ty.alike_primitive_iff.1 hσ
  induction n with
  | zero => exact hname 0 (Nat.le_refl 0)
  | succ n ih =>
    obtain ⟨⟨i, hleft⟩, -⟩ := ih (fun i hi => hnames i (Nat.lt_succ_of_lt hi))
      fun i hi => hname i (Nat.le_succ_of_le hi)
    obtain ⟨⟨j, hright⟩, -⟩ := hname (n + 1) (Nat.le_refl _)
    constructor
    · exact ⟨0, .binary .zero _ _ 0 0 hleft hright hb ⟨Ty.var, rfl⟩ rfl⟩
    · intro t ht
      rw [sum] at ht
      cases ht with
      | binary offset span offset' i' j' _ _ hdeclared hinstance _ =>
        rw [hb] at hdeclared
        cases hdeclared
        -- the operator has no other instance than its type
        obtain ⟨σ, hσ⟩ := hinstance
        simp only [Ty.matrix, Ty.rename_arrow, Ty.rename_primitive, Ty.alike,
          Bool.and_eq_true] at hσ
        exact Ty.alike_primitive_iff.1 hσ.2

/-- What is declared in this way is closed and quantifies nothing. -/
theorem closed_of_declared (hnames : DeclaresSummands b n) (hplus : DeclaresPlus b)
    (token : Ident) (htoken : InSum n token) :
    ∃ declared, b.get? token = some declared ∧ declared.closed = true ∧
      declared.quantified = [] := by
  rcases htoken with rfl | ⟨i, hi, rfl⟩
  · obtain ⟨p, q, l, r, k, hb⟩ := hplus
    exact ⟨_, hb, rfl, rfl⟩
  · obtain ⟨j, hj⟩ := hnames i hi
    exact ⟨_, hj, rfl, rfl⟩

/-- The uses of the sum are discharged, whatever identities come next. -/
theorem discharge?_sum {d : Derivation} {ids : List NodeId} (h : Inferred (sum n) d ids)
    (hnodup : ids.Nodup) (hnames : DeclaresSummands b (n + 1)) (hplus : DeclaresPlus b)
    (source : IdSource) :
    ∃ s source' i, d.requirements.discharge? b .empty source = some (⟨s, .empty, []⟩, source') ∧
      s.resolve? d.type = some (.primitive i .i32) := by
  have hdeclared := closed_of_declared hnames hplus
  have hcloses : ∀ token, InSum (n + 1) token → b.Closes token := by
    intro token htoken
    obtain ⟨declared, hb, hclosed, -⟩ := hdeclared token htoken
    exact ⟨declared, hb, hclosed⟩
  -- nothing is drawn, since nothing is quantified
  have hdrawn : Use.drawn (d.requirements.declaredUses b) = 0 := by
    refine Nat.le_zero.1 (Use.drawn_le (m := 0) fun u hu => ?_)
    obtain ⟨hb, hmem⟩ := Requirements.mem_declaredUses.1 hu
    have hused := inSum_of_inferred h u.token (Requirements.contains_of_mem_get hmem)
    obtain ⟨declared, hb', -, hquantified⟩ := hdeclared u.token hused
    rw [hb] at hb'
    cases hb'
    rw [hquantified]
    exact Nat.le_refl 0
  have hcovered : (sum n).Covered b :=
    covered_sum (fun i hi => hcloses _ (.inr ⟨i, Nat.lt_succ_of_le hi, rfl⟩)) (hcloses _ (.inl rfl))
  refine h.discharges_to hnodup hcovered ?_ ?_ (definite_sum hnames hplus)
  · rw [hdrawn]
    exact List.nodup_nil
  · rw [hdrawn]
    exact fun _ hv => nomatch hv

end

/-! ## The whole -/

/-- The sum of any number of names is typed if the line fits its word, and links with the
declarations that are made for it. Nothing is reported, the names and the operator are required and
nothing else, every name once, and the variable of a name leads to the columns of the name. -/
theorem sumChain_links (terms : ℕ) (g : Typer) (hterms : 1 ≤ terms)
    (hwidth : (sumText terms).length < UInt32.size)
    (hids : g.ids.Distinct (g.ids.advance (4 * terms - 3))) :
    ∃ d g', sumChain terms g = .ok (d, g') ∧ g'.ids = g.ids.advance (4 * terms - 3) ∧
      d.diagnostics? = some [] ∧ d.requirements.Only (InSum terms) ∧
      (∀ i < terms, ∃ v rest, sumText terms = sumPrefix i ++ summand i ++ rest ∧
        d.requirements.get (.name (summand i)) = [.flexible v] ∧
        d.spansFor? v
          = some [.columns (sumPrefix i).length (sumPrefix i ++ summand i).length]) ∧
      (d.requirements.get (.operator "+")).length = terms - 1 ∧
      ∃ b ids s ids' i, (sumChainBindings terms).run g'.ids = (b, ids) ∧
        d.requirements.discharge? b .empty ids = some (⟨s, .empty, []⟩, ids') ∧
        s.resolve? d.type = some (.primitive i .i32) := by
  obtain ⟨n, rfl⟩ := Nat.exists_eq_add_one_of_ne_zero (Nat.one_le_iff_ne_zero.1 hterms)
  rw [show 4 * (n + 1) - 3 = 4 * n + 1 by omega] at hids ⊢
  obtain ⟨d, g', hrun, hg', hsession⟩ := sumChain_run .start hwidth hids
  obtain ⟨-, ids, -, -, hinferred, hnodup⟩ := hsession.exists_inferred (hg' ▸ hids) (.head _)
  have htraced := fun token => hinferred.traced hnodup token (occurrences?_sum hwidth)
  have honly := inSum_of_inferred hinferred
  refine ⟨d, g', hrun, hg', hinferred.diagnostics?_eq_nil (literalCalls?_sum hwidth), honly,
    fun i hi => ?_, ?_, ?_⟩
  · have huse := htraced (.name (summand i))
    rw [spansOf_summand, if_pos (Nat.le_of_lt_succ hi)] at huse
    obtain ⟨t, types, hone, hnone, htypes⟩ := List.forall₂_cons_right_iff.1 huse
    obtain rfl := List.forall₂_nil_right_iff.1 hnone
    obtain ⟨v, rfl⟩ := flexible_of_inferred hinferred (.name (summand i)) t (htypes ▸ .head _) _ rfl
    obtain ⟨rest, hrest⟩ := exists_sumText_eq hi
    exact ⟨v, rest, hrest, htypes, hone⟩
  · rw [List.Forall₂.length_eq (htraced (.operator "+")), length_spansOf_plus]
    rfl
  · obtain ⟨hnames, hplus⟩ := declares_sumChainBindings (n + 1) g'.ids
    generalize hmade : (sumChainBindings (n + 1)).run g'.ids = made at hnames hplus
    obtain ⟨b, source⟩ := made
    obtain ⟨s, ids', i, hdischarge, hresolved⟩ :=
      discharge?_sum hinferred hnodup hnames hplus source
    exact ⟨b, source, s, ids', i, rfl, hdischarge, hresolved⟩

/-- Eleven names, the last of which has a digit more than the others. -/
theorem sumChain_links_eleven : ∃ d g' v b ids s ids' i,
    sumChain 11 (.ofSource (.pinnedAt 0) false) = .ok (d, g') ∧ g'.ids = .pinnedAt 41 ∧
    d.diagnostics? = some [] ∧ d.requirements.get (.name "x10") = [.flexible v] ∧
    d.spansFor? v = some [.columns 50 53] ∧ (d.requirements.get (.operator "+")).length = 10 ∧
    (sumChainBindings 11).run (.pinnedAt 41) = (b, ids) ∧
    d.requirements.discharge? b .empty ids = some (⟨s, .empty, []⟩, ids') ∧
    s.resolve? d.type = some (.primitive i .i32) := by
  have hname : summand 10 = "x10" := by decide
  have hcolumns : (sumPrefix 10).length = 50 ∧ (sumPrefix 10 ++ summand 10).length = 53 := by
    decide +kernel
  have hadvance : IdSource.advance (4 * 11 - 3) (.pinnedAt 0) = .pinnedAt 41 :=
    IdSource.advance_of_le (by decide)
  have hblock : (IdSource.advance (4 * 11 - 3) (.pinnedAt 0)).nextBlock = 0 :=
    congrArg IdSource.nextBlock hadvance
  obtain ⟨d, g', hrun, hg', hclean, -, hnames, hplus, b, ids, s, ids', i, hmade, hdischarge,
    hresolved⟩ := sumChain_links 11 (.ofSource (.pinnedAt 0) false) (by decide) (by decide +kernel)
      (IdSource.Ascending.distinct ⟨by decide, .inr hblock⟩)
  have hg' : g'.ids = .pinnedAt 41 := hg'.trans hadvance
  obtain ⟨v, rest, -, hget, hspan⟩ := hnames 10 (by decide)
  rw [hname] at hget
  rw [hcolumns.1, hcolumns.2] at hspan
  rw [hg'] at hmade
  exact ⟨d, g', v, b, ids, s, ids', i, hrun, hg', hclean, hget, hspan, hplus, hmade, hdischarge,
    hresolved⟩

end Family

end CoContextual
