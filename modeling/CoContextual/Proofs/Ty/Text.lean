import CoContextual.Ty.Printer
import CoContextual.Proofs.Ty.Substitute

/-!
# Reading a type off its text

The text of a type says everything about the type but its identities: two types are shown as the
same text exactly if they are alike (`Ty.render_eq_render_iff_alike`).

A text is read from the left. How it starts tells the form of the type, and where the text of each
part ends is known once that part is read, as long as no number runs on into what follows. So the
statement that carries the induction is about texts with a continuation: `Ty.Legible` says that a
type and what follows its text can both be read off, and there is one lemma about it for every way
to build a type.
-/

namespace CoContextual

/-! ## Numbers and names -/

/-- Whether a text can follow a number without prolonging it. -/
def EndsNumber (s : List Char) : Prop := ∀ c ∈ s.head?, c.isDigit = false

@[simp]
theorem endsNumber_nil : EndsNumber [] := by simp [EndsNumber]

@[simp]
theorem endsNumber_cons {c : Char} {s : List Char} : EndsNumber (c :: s) ↔ c.isDigit = false := by
  simp [EndsNumber]

section

variable {s s' : List Char}

theorem takeWhile_toDigits_append (n : Nat) (hs : EndsNumber s) :
    (Nat.toDigits 10 n ++ s).takeWhile Char.isDigit = Nat.toDigits 10 n := by
  have hdigits : ∀ c ∈ Nat.toDigits 10 n, c.isDigit = true := fun c hc =>
    Nat.isDigit_of_mem_toDigits (by decide) (by decide) hc
  rw [List.takeWhile_append_of_pos hdigits]
  cases s with
  | nil => simp
  | cons c s => simp [endsNumber_cons.1 hs]

/-- A number can be read off its digits, with what follows them. -/
theorem toDigits_append_inj {m n : Nat} (hs : EndsNumber s) (hs' : EndsNumber s')
    (h : Nat.toDigits 10 m ++ s = Nat.toDigits 10 n ++ s') : m = n ∧ s = s' := by
  have hdigits : Nat.toDigits 10 m = Nat.toDigits 10 n := by
    rw [← takeWhile_toDigits_append m hs, h, takeWhile_toDigits_append n hs']
  refine ⟨?_, List.append_cancel_left (h.trans (hdigits ▸ rfl))⟩
  calc m = Nat.ofDigitChars 10 (Nat.toDigits 10 m) 0 := Nat.ofDigitChars_ten_toDigits.symm
    _ = Nat.ofDigitChars 10 (Nat.toDigits 10 n) 0 := by rw [hdigits]
    _ = n := Nat.ofDigitChars_ten_toDigits

/-- A primitive type can be read off its name, as no name is the beginning of another. -/
theorem Primitive.name_append_inj {p q : Primitive}
    (h : p.name.toList ++ s = q.name.toList ++ s') : p = q ∧ s = s' := by
  have hall : ∀ p : Primitive, p ∈ all := fun p => by cases p <;> decide
  have hfree : ∀ p ∈ all, ∀ q ∈ all, p.name.toList <+: q.name.toList → p = q := by decide
  have hpq : p = q := by
    rcases List.prefix_or_prefix_of_prefix ⟨s, h⟩ ⟨s', rfl⟩ with hprefix | hprefix
    · exact hfree p (hall p) q (hall q) hprefix
    · exact (hfree q (hall q) p (hall p) hprefix).symm
  subst hpq
  exact ⟨rfl, List.append_cancel_left h⟩

namespace TyVar

theorem toList_render_flexible (v : NodeId) :
    (flexible v).render.toList = 't' :: Nat.toDigits 10 v := by
  simp [render]

theorem toList_render_rigid (v : NodeId) :
    (rigid v).render.toList = '\'' :: 'u' :: Nat.toDigits 10 v := by
  simp [render]

/-- A variable can be read off its text. -/
theorem render_append_inj {v w : TyVar} (hs : EndsNumber s) (hs' : EndsNumber s')
    (h : v.render.toList ++ s = w.render.toList ++ s') : v = w ∧ s = s' := by
  cases v with
  | flexible v =>
    cases w with
    | flexible w =>
      simp only [toList_render_flexible, List.cons_append, List.cons.injEq, true_and] at h
      exact (toDigits_append_inj hs hs' h).imp_left (congrArg flexible)
    | rigid w => simp [toList_render_flexible, toList_render_rigid] at h
  | rigid v =>
    cases w with
    | flexible w => simp [toList_render_flexible, toList_render_rigid] at h
    | rigid w =>
      simp only [toList_render_rigid, List.cons_append, List.cons.injEq, true_and] at h
      exact (toDigits_append_inj hs hs' h).imp_left (congrArg rigid)

end TyVar

end

namespace Ty

/-! ## Texts as lists of characters -/

section

variable (id : NodeId)

@[simp]
theorem toList_render_primitive (kind : Primitive) :
    (primitive id kind).render.toList = kind.name.toList := rfl

@[simp]
theorem toList_render_arrow (d c : Ty) : (arrow id d c).render.toList
    = '(' :: (d.render.toList ++ (" -> ".toList ++ (c.render.toList ++ [')']))) := by
  simp [render]

@[simp]
theorem toList_render_product (cs : List Ty) :
    (product id cs).render.toList = '(' :: ((renderComponents cs).toList ++ [')']) := by
  simp [render]

@[simp]
theorem toList_render_var (v : TyVar) : (var v).render.toList = v.render.toList := rfl

@[simp]
theorem toList_render_scheme (bound : List TyVar) (body : Ty) :
    (scheme id bound body).render.toList
      = "forall".toList ++ ((renderBound bound).toList ++ ('.' :: ' ' :: body.render.toList)) := by
  simp [render]

@[simp]
theorem toList_render_invalid : (invalid id).render.toList = "<invalid>".toList := rfl

end

/-! ## Types that are shown as the same text -/

theorem renderRest_congr {ts us : List Ty} (ih : ∀ t ∈ ts, ∀ u : Ty, t.erase = u.erase →
    t.render = u.render) (h : ts.map erase = us.map erase) : renderRest ts = renderRest us := by
  induction ts generalizing us with
  | nil => rw [List.map_eq_nil_iff.1 h.symm]
  | cons t ts ihs =>
    obtain ⟨u, us, rfl, hu, hus⟩ := List.map_eq_cons_iff.1 h.symm
    rw [renderRest, renderRest, ih t (.head _) u hu.symm,
      ihs (fun t ht => ih t (.tail _ ht)) hus.symm]

/-- Identities are not shown, those of variables apart. -/
theorem render_eq_of_erase_eq {t u : Ty} (h : t.erase = u.erase) : t.render = u.render := by
  induction t using ind generalizing u with
  | primitive id kind => cases u <;> simp_all [render]
  | arrow id d c ihd ihc =>
    cases u with
    | arrow id' d' c' =>
      simp only [erase_arrow, arrow.injEq, true_and] at h
      rw [render, render, ihd h.1, ihc h.2]
    | _ => simp at h
  | product id cs ih =>
    cases u with
    | product id' us =>
      simp only [erase_product, product.injEq, true_and] at h
      rw [render, render]
      cases cs with
      | nil => rw [List.map_eq_nil_iff.1 h.symm]
      | cons c cs =>
        obtain ⟨u, us, rfl, hu, hus⟩ := List.map_eq_cons_iff.1 h.symm
        rw [renderComponents, renderComponents, ih c (.head _) hu.symm,
          renderRest_congr (fun t ht _ => ih t (.tail _ ht)) hus.symm]
    | _ => simp at h
  | var v => cases u <;> simp_all [render]
  | scheme id bound body ih =>
    cases u with
    | scheme id' bound' body' =>
      simp only [erase_scheme, scheme.injEq, true_and] at h
      rw [render, render, h.1, ih h.2]
    | _ => simp at h
  | invalid id => cases u <;> simp_all [render]

/-! ## How texts start -/

/-- What the first characters of a text tell about the type. Arrows and products start alike. -/
inductive Form where
  /-- The name of a primitive type. -/
  | name
  /-- An arrow or a product. -/
  | parens
  /-- A flexible variable. -/
  | flexible
  /-- A rigid variable. -/
  | rigid
  /-- A scheme. -/
  | scheme
  /-- The invalid type. -/
  | invalid
deriving DecidableEq

/-- The form of a type. -/
def form : Ty → Form
  | primitive _ _ => .name
  | arrow _ _ _ => .parens
  | product _ _ => .parens
  | var (.flexible _) => .flexible
  | var (.rigid _) => .rigid
  | scheme _ _ _ => .scheme
  | invalid _ => .invalid

/-- The form that a text starts with, if a type can start so. -/
def Form.read? : List Char → Option Form
  | ')' :: _ => none
  | '(' :: _ => some .parens
  | 't' :: _ => some .flexible
  | '\'' :: _ => some .rigid
  | 'f' :: 'o' :: _ => some .scheme
  | '<' :: _ => some .invalid
  | _ => some .name

/-- How its text starts tells the form of a type. -/
theorem read?_render_append (t : Ty) (s : List Char) :
    Form.read? (t.render.toList ++ s) = some t.form := by
  cases t with
  | primitive id kind => cases kind <;> simp [Primitive.name, Form.read?, form]
  | var v =>
    cases v <;> simp [TyVar.toList_render_flexible, TyVar.toList_render_rigid, Form.read?, form]
  | _ => simp [Form.read?, form]

theorem render_append_ne_closing (t : Ty) (s s' : List Char) :
    t.render.toList ++ s ≠ ')' :: s' := by
  intro h
  have hread := read?_render_append t s
  rw [h] at hread
  cases hread

/-! ## Reading -/

/-- Whether the type, up to identities, and what follows it can be read off a text that starts
with the text of the type. -/
def Legible (t : Ty) : Prop :=
  ∀ ⦃u : Ty⦄ ⦃s s' : List Char⦄, EndsNumber s → EndsNumber s' →
    t.render.toList ++ s = u.render.toList ++ s' → t.erase = u.erase ∧ s = s'

section

variable {s s' : List Char}

/-- A list of quantified variables can be read off its text, up to the dot that ends it. -/
theorem renderBound_append_inj {vs ws : List TyVar}
    (h : (renderBound vs).toList ++ '.' :: s = (renderBound ws).toList ++ '.' :: s') :
    vs = ws ∧ s = s' := by
  have hends : ∀ vs : List TyVar, ∀ s, EndsNumber ((renderBound vs).toList ++ '.' :: s) := by
    intro vs s
    cases vs <;> simp [renderBound]
  induction vs generalizing ws with
  | nil => cases ws <;> simp_all [renderBound]
  | cons v vs ih =>
    cases ws with
    | nil => simp [renderBound] at h
    | cons w ws =>
      simp only [renderBound, String.toList_append, List.append_assoc, List.append_cancel_left_eq]
        at h
      obtain ⟨rfl, hrest⟩ := TyVar.render_append_inj (hends vs s) (hends ws s') h
      obtain ⟨rfl, hs⟩ := ih hrest
      exact ⟨rfl, hs⟩

theorem endsNumber_renderRest_append (ts : List Ty) (s : List Char) :
    EndsNumber ((renderRest ts).toList ++ ')' :: s) := by
  cases ts <;> simp [renderRest]

/-- The further components of a product can be read off, up to the parenthesis that ends them. -/
theorem renderRest_append_inj {ts us : List Ty} (ih : ∀ t ∈ ts, t.Legible)
    (h : (renderRest ts).toList ++ ')' :: s = (renderRest us).toList ++ ')' :: s') :
    ts.map erase = us.map erase ∧ s = s' := by
  induction ts generalizing us with
  | nil => cases us <;> simp_all [renderRest]
  | cons t ts ihs =>
    cases us with
    | nil => simp [renderRest] at h
    | cons u us =>
      simp only [renderRest, String.toList_append, List.append_assoc, List.append_cancel_left_eq]
        at h
      obtain ⟨ht, hrest⟩ := ih t (.head _) (endsNumber_renderRest_append ts s)
        (endsNumber_renderRest_append us s') h
      obtain ⟨hts, hs⟩ := ihs (fun t ht => ih t (.tail _ ht)) hrest
      exact ⟨by rw [List.map_cons, List.map_cons, ht, hts], hs⟩

/-- The components of a product can be read off, up to the parenthesis that ends them. -/
theorem renderComponents_append_inj {ts us : List Ty} (ih : ∀ t ∈ ts, t.Legible)
    (h : (renderComponents ts).toList ++ ')' :: s = (renderComponents us).toList ++ ')' :: s') :
    ts.map erase = us.map erase ∧ s = s' := by
  cases ts with
  | nil =>
    cases us with
    | nil => exact ⟨rfl, (List.cons.inj h).2⟩
    | cons u us =>
      rw [renderComponents, renderComponents, String.toList_append, List.append_assoc] at h
      exact absurd h.symm (render_append_ne_closing u _ _)
  | cons t ts =>
    rw [renderComponents, String.toList_append, List.append_assoc] at h
    cases us with
    | nil => exact absurd h (render_append_ne_closing t _ _)
    | cons u us =>
      rw [renderComponents, String.toList_append, List.append_assoc] at h
      obtain ⟨ht, hrest⟩ := ih t (.head _) (endsNumber_renderRest_append ts s)
        (endsNumber_renderRest_append us s') h
      obtain ⟨hts, hs⟩ := renderRest_append_inj (fun t ht => ih t (.tail _ ht)) hrest
      exact ⟨by rw [List.map_cons, List.map_cons, ht, hts], hs⟩

end

/-- Types with the same text have the same form, whatever follows. -/
theorem form_eq {t u : Ty} {s s' : List Char}
    (h : t.render.toList ++ s = u.render.toList ++ s') : t.form = u.form := by
  rw [← Option.some.injEq, ← read?_render_append t s, h, read?_render_append]

theorem legible_primitive (id : NodeId) (kind : Primitive) : (primitive id kind).Legible := by
  intro u s s' _ _ h
  have hform := form_eq h
  cases u with
  | primitive id' kind' =>
    exact (Primitive.name_append_inj h).imp_left fun hkind => by rw [hkind]; rfl
  | var v => cases v <;> cases hform
  | _ => cases hform

theorem legible_var (v : TyVar) : (var v).Legible := by
  intro u s s' hs hs' h
  have hform := form_eq h
  cases u with
  | var w =>
    exact (TyVar.render_append_inj hs hs' h).imp_left fun hv => by rw [hv]
  | _ => cases v <;> cases hform

theorem legible_invalid (id : NodeId) : (invalid id).Legible := by
  intro u s s' _ _ h
  have hform := form_eq h
  cases u with
  | invalid id' => exact ⟨rfl, List.append_cancel_left h⟩
  | var v => cases v <;> cases hform
  | _ => cases hform

theorem Legible.scheme {body : Ty} (hbody : body.Legible) (id : NodeId) (bound : List TyVar) :
    (scheme id bound body).Legible := by
  intro u s s' hs hs' h
  have hform := form_eq h
  cases u with
  | scheme id' bound' body' =>
    simp only [toList_render_scheme, List.append_assoc, List.append_cancel_left_eq,
      List.cons_append] at h
    obtain ⟨rfl, hrest⟩ := renderBound_append_inj h
    obtain ⟨he, hrest⟩ := hbody hs hs' (List.cons.inj hrest).2
    exact ⟨by rw [erase_scheme, erase_scheme, he], hrest⟩
  | var v => cases v <;> cases hform
  | _ => cases hform

theorem Legible.arrow {d c : Ty} (hd : d.Legible) (hc : c.Legible) (id : NodeId) :
    (arrow id d c).Legible := by
  intro u s s' hs hs' h
  have hform := form_eq h
  cases u with
  | arrow id' d' c' =>
    simp only [toList_render_arrow, List.append_assoc, List.cons_append, List.cons.injEq,
      true_and] at h
    obtain ⟨hde, hrest⟩ := hd (by simp) (by simp) h
    obtain ⟨hce, hrest⟩ := hc (by simp) (by simp) (List.append_cancel_left hrest)
    exact ⟨by rw [erase_arrow, erase_arrow, hde, hce], (List.cons.inj hrest).2⟩
  | product id' us =>
    -- the first component ends where the domain ends, and there is no arrow behind it
    simp only [toList_render_arrow, toList_render_product, List.append_assoc, List.cons_append,
      List.cons.injEq, true_and] at h
    cases us with
    | nil => exact absurd h (render_append_ne_closing d _ _)
    | cons u us =>
      simp only [renderComponents, String.toList_append, List.append_assoc] at h
      obtain ⟨-, hrest⟩ := hd (by simp) (endsNumber_renderRest_append us s') h
      cases us <;> simp [renderRest] at hrest
  | var v => cases v <;> cases hform
  | _ => cases hform

theorem Legible.product {cs : List Ty} (hcs : ∀ c ∈ cs, c.Legible) (id : NodeId) :
    (product id cs).Legible := by
  intro u s s' hs hs' h
  have hform := form_eq h
  cases u with
  | arrow id' d c =>
    simp only [toList_render_arrow, toList_render_product, List.append_assoc, List.cons_append,
      List.cons.injEq, true_and] at h
    cases cs with
    | nil => exact absurd h.symm (render_append_ne_closing d _ _)
    | cons t ts =>
      simp only [renderComponents, String.toList_append, List.append_assoc] at h
      obtain ⟨-, hrest⟩ := hcs t (.head _) (endsNumber_renderRest_append ts s) (by simp) h
      cases ts <;> simp [renderRest] at hrest
  | product id' us =>
    simp only [toList_render_product, List.append_assoc, List.cons_append, List.cons.injEq,
      true_and] at h
    obtain ⟨hmap, hrest⟩ := renderComponents_append_inj hcs h
    exact ⟨by rw [erase_product, erase_product, hmap], hrest⟩
  | var v => cases v <;> cases hform
  | _ => cases hform

/-- Every type can be read off its text, and what follows it too. -/
theorem legible (t : Ty) : t.Legible := by
  induction t using ind with
  | primitive id kind => exact legible_primitive id kind
  | arrow id d c ihd ihc => exact ihd.arrow ihc id
  | product id cs ih => exact .product ih id
  | var v => exact legible_var v
  | scheme id bound body ih => exact ih.scheme id bound
  | invalid id => exact legible_invalid id

/-- The text of a type identifies it: two types are shown as the same text exactly if they are the
same up to the identities of their nodes. -/
theorem render_eq_render_iff_alike (t u : Ty) : t.render = u.render ↔ t.alike u = true := by
  rw [alike_iff_erase_eq]
  refine ⟨fun h => ?_, render_eq_of_erase_eq⟩
  exact (legible t endsNumber_nil endsNumber_nil (by rw [h])).1

end Ty

end CoContextual
