import CoContextual.Ty.Basic

/-!
# The shape of types

Predicates on the nodes of a type, the variables that a type mentions, and equality up to invalid
parts.

- `Ty.schemeFree`, `Ty.invalidFree`, `Ty.plain`: no scheme, no invalid type, neither of them;
- `Ty.mentions`: the flexible variables of a type, those of its quantifier lists included;
- `Ty.agrees`: the two types have the same structure except where one of them is invalid. The
  relation is reflexive and symmetric (`Ty.agrees_of_alike`, `Ty.agrees_comm`), and on types
  without invalid parts it is `Ty.alike` (`Ty.alike_of_agrees`).
-/

namespace CoContextual

namespace Ty

/-! ## Properties of all nodes -/

/-- Whether the type is a scheme. -/
def isScheme : Ty → Bool
  | scheme _ _ _ => true
  | _ => false

mutual

/-- Whether `p` holds of every node. -/
def everyNode (p : Ty → Bool) : Ty → Bool
  | primitive id kind => p (.primitive id kind)
  | arrow id d c => p (.arrow id d c) && (everyNode p d && everyNode p c)
  | product id cs => p (.product id cs) && everyNodeAll p cs
  | var v => p (.var v)
  | scheme id bound body => p (.scheme id bound body) && everyNode p body
  | invalid id => p (.invalid id)

/-- Whether `p` holds of every node of several types. -/
def everyNodeAll (p : Ty → Bool) : List Ty → Bool
  | [] => true
  | t :: ts => everyNode p t && everyNodeAll p ts

end

theorem everyNodeAll_iff {p : Ty → Bool} {ts : List Ty} :
    everyNodeAll p ts = true ↔ ∀ t ∈ ts, t.everyNode p = true := by
  induction ts with
  | nil => simp [everyNodeAll]
  | cons t ts ih => simp [everyNodeAll, ih]

/-- Whether no node is a scheme. -/
def schemeFree (t : Ty) : Bool := t.everyNode fun u => !u.isScheme

/-- Whether no node is an invalid type. -/
def invalidFree (t : Ty) : Bool := t.everyNode fun u => !u.isInvalid

/-- Whether no node is a scheme or an invalid type. -/
def plain (t : Ty) : Bool := t.schemeFree && t.invalidFree

@[simp]
theorem schemeFree_primitive (id : NodeId) (kind : Primitive) :
    (primitive id kind).schemeFree = true := rfl

@[simp]
theorem schemeFree_arrow (id : NodeId) (d c : Ty) :
    (arrow id d c).schemeFree = (d.schemeFree && c.schemeFree) := rfl

@[simp]
theorem schemeFree_product {id : NodeId} {cs : List Ty} :
    (product id cs).schemeFree = true ↔ ∀ c ∈ cs, c.schemeFree = true := everyNodeAll_iff

@[simp]
theorem schemeFree_var (v : TyVar) : (var v).schemeFree = true := rfl

@[simp]
theorem schemeFree_scheme (id : NodeId) (bound : List TyVar) (body : Ty) :
    (scheme id bound body).schemeFree = false := rfl

@[simp]
theorem schemeFree_invalid (id : NodeId) : (invalid id).schemeFree = true := rfl

@[simp]
theorem invalidFree_primitive (id : NodeId) (kind : Primitive) :
    (primitive id kind).invalidFree = true := rfl

@[simp]
theorem invalidFree_arrow (id : NodeId) (d c : Ty) :
    (arrow id d c).invalidFree = (d.invalidFree && c.invalidFree) := rfl

@[simp]
theorem invalidFree_product {id : NodeId} {cs : List Ty} :
    (product id cs).invalidFree = true ↔ ∀ c ∈ cs, c.invalidFree = true := everyNodeAll_iff

@[simp]
theorem invalidFree_var (v : TyVar) : (var v).invalidFree = true := rfl

@[simp]
theorem invalidFree_scheme (id : NodeId) (bound : List TyVar) (body : Ty) :
    (scheme id bound body).invalidFree = body.invalidFree := rfl

@[simp]
theorem invalidFree_invalid (id : NodeId) : (invalid id).invalidFree = false := rfl

theorem plain_iff {t : Ty} : t.plain = true ↔ t.schemeFree = true ∧ t.invalidFree = true := by
  simp [plain]

@[simp]
theorem plain_primitive (id : NodeId) (kind : Primitive) : (primitive id kind).plain = true := rfl

@[simp]
theorem plain_arrow {id : NodeId} {d c : Ty} :
    (arrow id d c).plain = true ↔ d.plain = true ∧ c.plain = true := by
  simp only [plain_iff, schemeFree_arrow, invalidFree_arrow, Bool.and_eq_true]
  exact and_and_and_comm

@[simp]
theorem plain_product {id : NodeId} {cs : List Ty} :
    (product id cs).plain = true ↔ ∀ c ∈ cs, c.plain = true := by
  simp only [plain_iff, schemeFree_product, invalidFree_product]
  exact ⟨fun h c hc => ⟨h.1 c hc, h.2 c hc⟩,
    fun h => ⟨fun c hc => (h c hc).1, fun c hc => (h c hc).2⟩⟩

@[simp]
theorem plain_var (v : TyVar) : (var v).plain = true := rfl

@[simp]
theorem plain_scheme (id : NodeId) (bound : List TyVar) (body : Ty) :
    (scheme id bound body).plain = false := rfl

@[simp]
theorem plain_invalid (id : NodeId) : (invalid id).plain = false := rfl

/-! ## Variables -/

mutual

/-- The flexible variables that occur in the type, as nodes or in quantifier lists. -/
def mentions : Ty → List NodeId
  | arrow _ d c => mentions d ++ mentions c
  | product _ cs => mentionsAll cs
  | var v => v.flexibleId?.toList
  | scheme _ bound body => bound.filterMap TyVar.flexibleId? ++ mentions body
  | _ => []

/-- The flexible variables that occur in several types. -/
def mentionsAll : List Ty → List NodeId
  | [] => []
  | t :: ts => mentions t ++ mentionsAll ts

end

theorem mem_mentionsAll {v : NodeId} {ts : List Ty} :
    v ∈ mentionsAll ts ↔ ∃ t ∈ ts, v ∈ t.mentions := by
  induction ts with
  | nil => simp [mentionsAll]
  | cons t ts ih => simp [mentionsAll, ih]

@[simp]
theorem mentions_primitive (id : NodeId) (kind : Primitive) :
    (primitive id kind).mentions = [] := rfl

@[simp]
theorem mentions_arrow (id : NodeId) (d c : Ty) :
    (arrow id d c).mentions = d.mentions ++ c.mentions := rfl

@[simp]
theorem mem_mentions_product {v id : NodeId} {cs : List Ty} :
    v ∈ (product id cs).mentions ↔ ∃ c ∈ cs, v ∈ c.mentions := by
  rw [mentions, mem_mentionsAll]

@[simp]
theorem mentions_flexible (v : NodeId) : (flexible v).mentions = [v] := rfl

@[simp]
theorem mentions_rigid (v : NodeId) : (var (.rigid v)).mentions = [] := rfl

@[simp]
theorem mentions_scheme (id : NodeId) (bound : List TyVar) (body : Ty) :
    (scheme id bound body).mentions = bound.filterMap TyVar.flexibleId? ++ body.mentions := rfl

@[simp]
theorem mentions_invalid (id : NodeId) : (invalid id).mentions = [] := rfl

/-! ## Equality up to invalid parts -/

mutual

/-- Whether two types have the same structure except at places where one of them is invalid. Node
identities are ignored. -/
def agrees : Ty → Ty → Bool
  | invalid _, _ => true
  | primitive _ k, u =>
    match u with
    | primitive _ k' => k = k'
    | invalid _ => true
    | _ => false
  | arrow _ d c, u =>
    match u with
    | arrow _ d' c' => agrees d d' && agrees c c'
    | invalid _ => true
    | _ => false
  | product _ cs, u =>
    match u with
    | product _ cs' => agreesAll cs cs'
    | invalid _ => true
    | _ => false
  | var v, u =>
    match u with
    | var v' => v = v'
    | invalid _ => true
    | _ => false
  | scheme _ bound body, u =>
    match u with
    | scheme _ bound' body' => bound = bound' && agrees body body'
    | invalid _ => true
    | _ => false

/-- Whether two lists have the same length and agree place by place. -/
def agreesAll : List Ty → List Ty → Bool
  | [], [] => true
  | t :: ts, u :: us => agrees t u && agreesAll ts us
  | _, _ => false

end

@[simp]
theorem agrees_invalid_left (id : NodeId) (u : Ty) : agrees (invalid id) u = true := rfl

@[simp]
theorem agrees_invalid_right (t : Ty) (id : NodeId) : agrees t (invalid id) = true := by
  cases t <;> rfl

@[simp]
theorem agrees_arrow (i j : NodeId) (d c d' c' : Ty) :
    agrees (arrow i d c) (arrow j d' c') = (agrees d d' && agrees c c') := rfl

@[simp]
theorem agrees_product (i j : NodeId) (cs cs' : List Ty) :
    agrees (product i cs) (product j cs') = agreesAll cs cs' := rfl

/-- Lists of equal length agree when the pairs in the same place do. -/
theorem agreesAll_of_zip {ts us : List Ty} (hlen : ts.length = us.length)
    (h : ∀ p ∈ ts.zip us, agrees p.1 p.2 = true) : agreesAll ts us = true := by
  induction ts generalizing us with
  | nil =>
    cases us with
    | nil => rfl
    | cons u us => simp at hlen
  | cons t ts ih =>
    cases us with
    | nil => simp at hlen
    | cons u us =>
      rw [List.zip_cons_cons] at h
      rw [agreesAll, Bool.and_eq_true]
      refine ⟨h (t, u) (by simp), ih (by simpa using hlen) fun p hp => h p (by simp [hp])⟩

theorem agreesAll_of_alikeAll {ts us : List Ty}
    (ih : ∀ t ∈ ts, ∀ u, alike t u = true → agrees t u = true)
    (h : alikeAll ts us = true) : agreesAll ts us = true := by
  induction ts generalizing us with
  | nil =>
    cases us with
    | nil => rfl
    | cons u us => simp [alikeAll] at h
  | cons t ts ihs =>
    cases us with
    | nil => simp [alikeAll] at h
    | cons u us =>
      rw [alikeAll, Bool.and_eq_true] at h
      rw [agreesAll, Bool.and_eq_true]
      exact ⟨ih t (by simp) u h.1, ihs (fun t ht => ih t (by simp [ht])) h.2⟩

/-- Types that are alike agree. -/
theorem agrees_of_alike {t u : Ty} (h : t.alike u = true) : t.agrees u = true := by
  induction t using ind generalizing u with
  | primitive id kind => cases u <;> simp_all [alike, agrees]
  | arrow id d c ihd ihc =>
    cases u <;> simp_all [alike]
  | product id cs ih =>
    cases u with
    | product j cs' =>
      rw [alike] at h
      rw [agrees_product]
      exact agreesAll_of_alikeAll (fun t ht u hu => ih t ht hu) h
    | _ => simp [alike] at h
  | var v => cases u <;> simp_all [alike, agrees]
  | scheme id bound body ih => cases u <;> simp_all [alike, agrees]
  | invalid id => simp

theorem agreesAll_comm {ts us : List Ty} (ih : ∀ t ∈ ts, ∀ u, agrees t u = agrees u t) :
    agreesAll ts us = agreesAll us ts := by
  induction ts generalizing us with
  | nil => cases us <;> rfl
  | cons t ts ihs =>
    cases us with
    | nil => rfl
    | cons u us =>
      rw [agreesAll, agreesAll, ih t (by simp), ihs fun t ht => ih t (by simp [ht])]

/-- Agreement does not depend on the order of the sides. -/
theorem agrees_comm (t u : Ty) : t.agrees u = u.agrees t := by
  induction t using ind generalizing u with
  | primitive id kind => cases u <;> simp [agrees, eq_comm]
  | arrow id d c ihd ihc => cases u <;> simp [agrees, ihd, ihc]
  | product id cs ih => cases u <;> simp [agrees, agreesAll_comm ih]
  | var v => cases u <;> simp [agrees, eq_comm]
  | scheme id bound body ih => cases u <;> simp [agrees, ih, eq_comm]
  | invalid id => simp

theorem alikeAll_of_agreesAll {ts us : List Ty}
    (ih : ∀ t ∈ ts, ∀ u, u.invalidFree = true → agrees t u = true → alike t u = true)
    (hus : ∀ u ∈ us, u.invalidFree = true) (h : agreesAll ts us = true) :
    alikeAll ts us = true := by
  induction ts generalizing us with
  | nil =>
    cases us with
    | nil => rfl
    | cons u us => simp [agreesAll] at h
  | cons t ts ihs =>
    cases us with
    | nil => simp [agreesAll] at h
    | cons u us =>
      rw [agreesAll, Bool.and_eq_true] at h
      rw [alikeAll, Bool.and_eq_true]
      exact ⟨ih t (by simp) u (hus u (by simp)) h.1,
        ihs (fun t ht => ih t (by simp [ht])) (fun u hu => hus u (by simp [hu])) h.2⟩

/-- On types without invalid parts, agreeing is being alike. -/
theorem alike_of_agrees {t u : Ty} (ht : t.invalidFree = true) (hu : u.invalidFree = true)
    (h : t.agrees u = true) : t.alike u = true := by
  induction t using ind generalizing u with
  | primitive id kind => cases u <;> simp_all [alike, agrees]
  | arrow id d c ihd ihc => cases u <;> simp_all [alike, agrees]
  | product id cs ih =>
    cases u with
    | product j cs' =>
      rw [agrees_product] at h
      rw [alike]
      rw [invalidFree_product] at ht hu
      exact alikeAll_of_agreesAll (fun t hm u hu h => ih t hm (ht t hm) hu h) hu h
    -- an invalid type would agree with any product
    | invalid j => simp at hu
    | _ => simp [agrees] at h
  | var v => cases u <;> simp_all [alike, agrees]
  | scheme id bound body ih => cases u <;> simp_all [alike, agrees]
  | invalid id => simp at ht

end Ty

end CoContextual
