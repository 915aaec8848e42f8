import CoContextual.Proofs.Substitution.Lookup
import CoContextual.Unify.Basic

/-!
# The course of a unification

Unification works through a list of goals. Each step looks at the first pair, decides it by one of
a few rules, and puts what is left to do in its place. `Substitution.Course s goals a` says that
this work, started on top of `s`, takes the course `a`; it has one rule per kind of step, and every
rule but those that end the work leads to one further course.

- `Ty.confrontation`: some kind of step applies to any two types;
- `Substitution.course_of_unifyWithin`: what the nested search does is such a course;
- `Substitution.Course.exists_unifyAll`: every course is found by the nested search once it may
  descend deep enough.
-/

namespace CoContextual

/-! ## Two types that meet -/

namespace Ty

/-- The pair `l`, `r` is decided by the variable `v`, which faces `other`. If both sides are
variables, the left one decides. -/
inductive Faces : Ty → Ty → NodeId → Ty → Prop
  | left (v : NodeId) (r : Ty) : Faces (.flexible v) r v r
  | right {l : Ty} (v : NodeId) (hl : ∀ w, l ≠ .flexible w) : Faces l (.flexible v) v l

/-- What holds of both sides holds of the variable and of what it faces. -/
theorem Faces.both {l r other : Ty} {v : NodeId} {P : Ty → Prop} (h : Faces l r v other)
    (hl : P l) (hr : P r) : P (.flexible v) ∧ P other := by
  cases h with
  | left => exact ⟨hl, hr⟩
  | right => exact ⟨hr, hl⟩

/-- Two nodes of the same form, the action that takes them apart, and their parts. -/
inductive Matches : Ty → Ty → Action → List Ty → List Ty → Prop
  | arrow (i j : NodeId) (d c d' c' : Ty) :
      Matches (.arrow i d c) (.arrow j d' c') .decomposeArrow [d, c] [d', c']
  | product (i j : NodeId) {ls rs : List Ty} (hlen : ls.length = rs.length) :
      Matches (.product i ls) (.product j rs) .decomposeProduct ls rs

theorem Matches.length_eq {l r : Ty} {action : Action} {ls rs : List Ty}
    (h : Matches l r action ls rs) : ls.length = rs.length := by
  cases h with
  | arrow => rfl
  | product _ _ hlen => exact hlen

theorem Matches.symm {l r : Ty} {action : Action} {ls rs : List Ty}
    (h : Matches l r action ls rs) : Matches r l action rs ls := by
  cases h with
  | arrow i j d c d' c' => exact .arrow j i d' c' d c
  | product i j hlen => exact .product j i hlen.symm

/-- The types that a type is directly made of, as unification takes it apart. -/
def children : Ty → List Ty
  | arrow _ d c => [d, c]
  | product _ cs => cs
  | _ => []

/-- The property passes from a type to its parts. -/
def PartClosed (T : Ty → Prop) : Prop := ∀ t, T t → ∀ c ∈ t.children, T c

theorem Matches.eq_children {l r : Ty} {action : Action} {ls rs : List Ty}
    (h : Matches l r action ls rs) : ls = l.children ∧ rs = r.children := by
  cases h <;> exact ⟨rfl, rfl⟩

theorem Matches.of_partClosed {T : Ty → Prop} (hT : PartClosed T) {l r : Ty} {action : Action}
    {ls rs : List Ty} (h : Matches l r action ls rs) (hl : T l) (hr : T r) :
    ∀ g ∈ ls.zip rs, T g.1 ∧ T g.2 := by
  obtain ⟨rfl, rfl⟩ := h.eq_children
  intro g hg
  obtain ⟨hgl, hgr⟩ := List.of_mem_zip hg
  exact ⟨hT l hl _ hgl, hT r hr _ hgr⟩

/-- Neither side is a variable that can be bound, and one of them is invalid. -/
def absorbs : Ty → Ty → Bool
  | .var (.flexible _), _ => false
  | _, .var (.flexible _) => false
  | .invalid _, _ => true
  | _, .invalid _ => true
  | _, _ => false

/-- Whether two types can be unified only if they are alike. -/
def clashes : Ty → Ty → Bool
  | .var (.flexible _), _ => false
  | _, .var (.flexible _) => false
  | .invalid _, _ => false
  | _, .invalid _ => false
  | .arrow _ _ _, .arrow _ _ _ => false
  | .product _ _, .product _ _ => false
  | _, _ => true

theorem absorbs_comm (l r : Ty) : l.absorbs r = r.absorbs l := by
  rcases l with _ | _ | _ | ⟨_ | _⟩ | _ | _ <;> rcases r with _ | _ | _ | ⟨_ | _⟩ | _ | _ <;> rfl

theorem clashes_comm (l r : Ty) : l.clashes r = r.clashes l := by
  rcases l with _ | _ | _ | ⟨_ | _⟩ | _ | _ <;> rcases r with _ | _ | _ | ⟨_ | _⟩ | _ | _ <;> rfl

/-- What kind of step two types call for if they are not alike. -/
inductive Confrontation : Ty → Ty → Prop
  | faces {l r other : Ty} {v : NodeId} (h : Faces l r v other) : Confrontation l r
  | absorb {l r : Ty} (h : l.absorbs r = true) : Confrontation l r
  | parts {l r : Ty} {action : Action} {ls rs : List Ty} (h : Matches l r action ls rs) :
      Confrontation l r
  | arity (i j : NodeId) {ls rs : List Ty} (hlen : ls.length ≠ rs.length) :
      Confrontation (.product i ls) (.product j rs)
  | clash {l r : Ty} (h : l.clashes r = true) : Confrontation l r

/-- Some kind of step applies to any two types. -/
theorem confrontation (l r : Ty) : Confrontation l r := by
  by_cases hl : ∃ w, l = .flexible w
  · obtain ⟨w, rfl⟩ := hl
    exact .faces (.left w r)
  · have hl : ∀ w, l ≠ .flexible w := fun w h => hl ⟨w, h⟩
    by_cases hr : ∃ w, r = .flexible w
    · obtain ⟨w, rfl⟩ := hr
      exact .faces (.right w hl)
    · have hr : ∀ w, r ≠ .flexible w := fun w h => hr ⟨w, h⟩
      by_cases ha : l.absorbs r = true
      · exact .absorb ha
      · by_cases hc : l.clashes r = true
        · exact .clash hc
        · -- only two arrows or two products are left
          rcases l with _ | ⟨i, d, c⟩ | ⟨i, ls⟩ | ⟨_ | _⟩ | _ | _ <;>
          rcases r with _ | ⟨j, d', c'⟩ | ⟨j, rs⟩ | ⟨_ | _⟩ | _ | _ <;>
          simp [absorbs, clashes] at hl hr ha hc
          · exact .parts (.arrow i j d c d' c')
          · by_cases hlen : ls.length = rs.length
            · exact .parts (.product i j hlen)
            · exact .arity i j hlen

end Ty

/-! ## Attempts in sequence -/

namespace Attempt

/-- The steps of one attempt and, if it succeeds, those of the next. -/
def followedBy (a b : Attempt) : Attempt :=
  match a.result with
  | .error _ => a
  | .ok _ => ⟨a.steps ++ b.steps, b.result⟩

theorem followedBy_of_error {a : Attempt} {e : UnifyError} (h : a.result = .error e)
    (b : Attempt) : a.followedBy b = a := by
  rw [followedBy, h]

theorem followedBy_of_ok {a : Attempt} {s : Substitution} (h : a.result = .ok s) (b : Attempt) :
    a.followedBy b = ⟨a.steps ++ b.steps, b.result⟩ := by
  rw [followedBy, h]

theorem after_followedBy (action : Action) (l r : Ty) (a b : Attempt) :
    (a.after action l r).followedBy b = (a.followedBy b).after action l r := by
  rcases a with ⟨steps, _ | _⟩ <;> rfl

theorem followedBy_assoc (a b c : Attempt) :
    (a.followedBy b).followedBy c = a.followedBy (b.followedBy c) := by
  rcases a with ⟨steps, _ | _⟩ <;> rcases b with ⟨steps', _ | _⟩ <;>
    simp [followedBy, List.append_assoc]

theorem andThen_of_error {a : Attempt} {e : UnifyError} (h : a.result = .error e)
    (next : Substitution → Option Attempt) : a.andThen next = some a := by
  rw [andThen, h]

theorem andThen_of_ok {a : Attempt} {s : Substitution} (h : a.result = .ok s)
    (next : Substitution → Option Attempt) : a.andThen next = (next s).map a.followedBy := by
  have hfollow : a.followedBy = fun b => ⟨a.steps ++ b.steps, b.result⟩ :=
    funext (followedBy_of_ok h)
  rw [andThen, h, hfollow]

theorem followedBy_andThen {a : Attempt} {s : Substitution} (h : a.result = .ok s) (b : Attempt)
    (next : Substitution → Option Attempt) :
    (a.followedBy b).andThen next = (b.andThen next).map a.followedBy := by
  cases hb : b.result with
  | error e =>
    have hab : (a.followedBy b).result = .error e := by rw [followedBy_of_ok h, hb]
    rw [andThen_of_error hb, andThen_of_error hab, Option.map_some]
  | ok s' =>
    have hab : (a.followedBy b).result = .ok s' := by rw [followedBy_of_ok h, hb]
    rw [andThen_of_ok hb, andThen_of_ok hab, Option.map_map]
    congr 1
    exact funext (followedBy_assoc a b)

/-- Stopping after an attempt changes nothing. -/
theorem andThen_stop (a : Attempt) : (a.andThen fun s => some ⟨[], .ok s⟩) = some a := by
  rcases a with ⟨steps, _ | _⟩ <;> simp [andThen]

end Attempt

namespace Substitution

/-- A variable is bound to what a facing variable stands for, and to any other type as it is. -/
theorem target?_eq_some {s : Substitution} {other target : Ty} (h : s.target? other = some target) :
    (∃ w look, other = .flexible w ∧ s.find? w = some look ∧ target = look.toTy) ∨
      (∀ w, other ≠ .flexible w) ∧ target = other := by
  rw [target?.eq_def] at h
  split at h
  · rename_i w
    obtain ⟨look, hlook, rfl⟩ := Option.map_eq_some_iff.1 h
    refine .inl ⟨w, look, rfl, hlook, ?_⟩
    cases look <;> rfl
  · rename_i hother
    cases h
    exact .inr ⟨hother, rfl⟩

theorem target?_of_ne_flexible {s : Substitution} {other : Ty} (h : ∀ w, other ≠ .flexible w) :
    s.target? other = some other := by
  rw [target?.eq_def]
  split
  · rename_i w
    exact absurd rfl (h w)
  · rfl

/-- The property `T` passes from every variable to what it is mapped to. -/
def EntriesKeep (T : Ty → Prop) (s : Substitution) : Prop :=
  ∀ v e, s.get? v = some e → T (.flexible v) → T e.toTy

/-- The property `T` holds of everything that variables are mapped to. -/
def AllEntries (T : Ty → Prop) (s : Substitution) : Prop := ∀ v e, s.get? v = some e → T e.toTy

theorem allEntries_empty (T : Ty → Prop) : AllEntries T .empty := fun _ _ he => nomatch he

section Entries

variable {T : Ty → Prop} {s : Substitution}

theorem AllEntries.keep (h : AllEntries T s) : EntriesKeep T s := fun v e he _ => h v e he

theorem EntriesKeep.find? (h : EntriesKeep T s) {v : NodeId} (hv : T (.flexible v)) {look : Lookup}
    (hlook : s.find? v = some look) : T look.toTy := by
  refine find?_induction (s := s) (P := fun v look => T (.flexible v) → T look.toTy)
    (fun v _ hv => hv) (fun v u hget hv => h v _ hget hv) ?_ hlook hv
  intro v w look hget _ ih hv
  exact ih (h v _ hget hv)

theorem EntriesKeep.target? (h : EntriesKeep T s) {other target : Ty} (ho : T other)
    (ht : s.target? other = some target) : T target := by
  rcases target?_eq_some ht with ⟨w, look, rfl, hlook, rfl⟩ | ⟨-, rfl⟩
  · exact h.find? ho hlook
  · exact ho

theorem EntriesKeep.assign (h : EntriesKeep T s) {w : NodeId} {target : Ty} (ht : T target) :
    EntriesKeep T (s.assign w target) := by
  intro v e he hv
  rcases get?_assign_cases he with he | ⟨-, rfl⟩
  · exact h v e he hv
  · exact ht

theorem AllEntries.assign (h : AllEntries T s) {w : NodeId} {target : Ty} (ht : T target) :
    AllEntries T (s.assign w target) := by
  intro v e he
  rcases get?_assign_cases he with he | ⟨-, rfl⟩
  · exact h v e he
  · exact ht

end Entries

/-- The course of unifying the pairs of a list one after the other. -/
inductive Course : Substitution → List (Ty × Ty) → Attempt → Prop
  | done (s : Substitution) : Course s [] ⟨[], .ok s⟩
  | identity {s : Substitution} {l r : Ty} {goals : List (Ty × Ty)} {a : Attempt}
      (heq : l.alike r = true) (rest : Course s goals a) :
      Course s ((l, r) :: goals) (a.after .identity l r)
  | expand {s : Substitution} {l r other u : Ty} {v : NodeId} {goals : List (Ty × Ty)}
      {a : Attempt} (hne : l.alike r = false) (hface : Ty.Faces l r v other)
      (hv : s.find? v = some (.bound u)) (rest : Course s ((other, u) :: goals) a) :
      Course s ((l, r) :: goals) a
  | bind {s : Substitution} {l r other target : Ty} {v w : NodeId} {goals : List (Ty × Ty)}
      {a : Attempt} (hne : l.alike r = false) (hface : Ty.Faces l r v other)
      (hv : s.find? v = some (.unbound w)) (ht : s.target? other = some target)
      (rest : Course (s.assign w target) goals a) :
      Course s ((l, r) :: goals) ((s.bindTo w target).followedBy a)
  | absorb {s : Substitution} {l r : Ty} {goals : List (Ty × Ty)} {a : Attempt}
      (hne : l.alike r = false) (habs : l.absorbs r = true) (rest : Course s goals a) :
      Course s ((l, r) :: goals) (a.after .absorb l r)
  | decompose {s : Substitution} {l r : Ty} {action : Action} {ls rs : List Ty}
      {goals : List (Ty × Ty)} {a : Attempt} (hne : l.alike r = false)
      (hparts : Ty.Matches l r action ls rs) (rest : Course s (ls.zip rs ++ goals) a) :
      Course s ((l, r) :: goals) (a.after action l r)
  | arity {s : Substitution} (i j : NodeId) {ls rs : List Ty} (goals : List (Ty × Ty))
      (hlen : ls.length ≠ rs.length) :
      Course s ((.product i ls, .product j rs) :: goals)
        (.single .arityError (.product i ls) (.product j rs)
          (.error (.arity ls.length rs.length)))
  | clash {s : Substitution} {l r l' r' : Ty} (goals : List (Ty × Ty)) (hne : l.alike r = false)
      (hclash : l.clashes r = true) (hl : s.resolve? l = some l') (hr : s.resolve? r = some r') :
      Course s ((l, r) :: goals) (.single .structureError l r (.error (.mismatch l' r')))

section Preserves

variable {s s' : Substitution} {goals : List (Ty × Ty)} {a : Attempt}

/-- If a property of types holds of the goals and passes to parts and along entries, it holds of all
types that a course meets. What every binding with such types preserves, the course preserves. -/
theorem Course.preserves_reached {T : Ty → Prop} (hT : Ty.PartClosed T) {P : Substitution → Prop}
    (h : Course s goals a)
    (hbind : ∀ s v w other target, EntriesKeep T s → P s → T (.flexible v) → T target →
      s.find? v = some (.unbound w) → s.target? other = some target → P (s.assign w target))
    (hs : EntriesKeep T s) (hP : P s) (hgoals : ∀ g ∈ goals, T g.1 ∧ T g.2)
    (hres : a.result = .ok s') : P s' := by
  induction h with
  | done s =>
    cases hres
    exact hP
  | identity _ _ ih => exact ih hs hP (List.forall_mem_cons.1 hgoals).2 hres
  | expand _ hface hv _ ih =>
    obtain ⟨⟨hl, hr⟩, hgoals⟩ := List.forall_mem_cons.1 hgoals
    obtain ⟨hvar, hother⟩ := hface.both hl hr
    exact ih hs hP (List.forall_mem_cons.2 ⟨⟨hother, hs.find? hvar hv⟩, hgoals⟩) hres
  | bind _ hface hv ht _ ih =>
    obtain ⟨⟨hl, hr⟩, hgoals⟩ := List.forall_mem_cons.1 hgoals
    obtain ⟨hvar, hother⟩ := hface.both hl hr
    have htarget := hs.target? hother ht
    exact ih (hs.assign htarget) (hbind _ _ _ _ _ hs hP hvar htarget hv ht) hgoals hres
  | absorb _ _ _ ih => exact ih hs hP (List.forall_mem_cons.1 hgoals).2 hres
  | decompose _ hparts _ ih =>
    obtain ⟨⟨hl, hr⟩, hgoals⟩ := List.forall_mem_cons.1 hgoals
    exact ih hs hP (List.forall_mem_append.2 ⟨hparts.of_partClosed hT hl hr, hgoals⟩) hres
  | arity => cases hres
  | clash => cases hres

/-- A property that holds of the entries and goals and passes to parts holds of all types that a
course meets, those of its last store included. -/
theorem Course.preserves_within {T : Ty → Prop} (hT : Ty.PartClosed T) {P : Substitution → Prop}
    (h : Course s goals a)
    (hbind : ∀ s v w other target, AllEntries T s → P s → T (.flexible v) → T target →
      s.find? v = some (.unbound w) → s.target? other = some target → P (s.assign w target))
    (hs : AllEntries T s) (hP : P s) (hgoals : ∀ g ∈ goals, T g.1 ∧ T g.2)
    (hres : a.result = .ok s') : AllEntries T s' ∧ P s' := by
  refine h.preserves_reached hT (P := fun s => AllEntries T s ∧ P s) ?_ hs.keep ⟨hs, hP⟩ hgoals hres
  rintro s v w other target - ⟨hs, hP⟩ hv htarget hfind ht
  exact ⟨hs.assign htarget, hbind s v w other target hs hP hv htarget hfind ht⟩

theorem Course.allEntries {T : Ty → Prop} (hT : Ty.PartClosed T) (h : Course s goals a)
    (hs : AllEntries T s) (hgoals : ∀ g ∈ goals, T g.1 ∧ T g.2) (hres : a.result = .ok s') :
    AllEntries T s' :=
  (h.preserves_within hT (P := fun _ => True) (fun _ _ _ _ _ _ _ _ _ _ _ => trivial) hs trivial
    hgoals hres).1

/-- What every binding on the way preserves, a course that succeeds preserves. -/
theorem Course.preserves {P : Substitution → Prop} (h : Course s goals a)
    (hbind : ∀ s v w other target, P s → s.find? v = some (.unbound w) →
      s.target? other = some target → P (s.assign w target))
    (hP : P s) (hres : a.result = .ok s') : P s' :=
  (h.preserves_within (T := fun _ => True) (fun _ _ _ _ => trivial)
    (fun s v w other target _ hP _ _ hv ht => hbind s v w other target hP hv ht)
    (fun _ _ _ => trivial) hP (fun _ _ => ⟨trivial, trivial⟩) hres).2

end Preserves

/-! ## One equation per kind of step -/

section Step

variable {recur : Substitution → Ty → Ty → Option Attempt} {s : Substitution} {l r : Ty}

theorem unifyStep_of_alike (h : l.alike r = true) :
    unifyStep recur s l r = some (.single .identity l r (.ok s)) := by
  unfold unifyStep
  rw [if_pos h]

theorem unifyStep_of_faces (hne : l.alike r = false) {v : NodeId} {other : Ty}
    (h : Ty.Faces l r v other) : unifyStep recur s l r = s.unifyVar recur v other := by
  unfold unifyStep
  rw [if_neg (by simp [hne])]
  cases h with
  | left => rfl
  | right _ hl =>
    rcases l with _ | _ | _ | ⟨w | _⟩ | _ | _
    case var.flexible => exact absurd rfl (hl w)
    all_goals rfl

theorem unifyStep_of_absorbs (hne : l.alike r = false) (h : l.absorbs r = true) :
    unifyStep recur s l r = some (.single .absorb l r (.ok s)) := by
  unfold unifyStep
  rw [if_neg (by simp [hne])]
  rcases l with _ | _ | _ | ⟨_ | _⟩ | _ | _ <;> rcases r with _ | _ | _ | ⟨_ | _⟩ | _ | _ <;>
    simp [Ty.absorbs] at h ⊢

theorem unifyStep_of_matches (hne : l.alike r = false) {action : Action} {ls rs : List Ty}
    (h : Ty.Matches l r action ls rs) :
    unifyStep recur s l r = (s.unifyAll recur ls rs).map (·.after action l r) := by
  unfold unifyStep
  rw [if_neg (by simp [hne])]
  cases h with
  | arrow i j d c d' c' =>
    simp only [unifyAll, Option.bind_eq_bind]
    cases recur s d d' with
    | none => rfl
    | some a =>
      -- the codomains come last, and nothing is left to do after them
      have hlast : ∀ s', ((recur s' c c').bind fun b => b.andThen fun s => some ⟨[], .ok s⟩)
          = recur s' c c' := by
        intro s'
        cases recur s' c c' with
        | none => rfl
        | some b => exact b.andThen_stop
      simp only [Option.bind_some, hlast]
      cases a.andThen fun s => recur s c c' <;> rfl
  | product i j hlen => simp only [hlen, ↓reduceIte]

theorem unifyStep_of_arity (i j : NodeId) {ls rs : List Ty} (h : ls.length ≠ rs.length) :
    unifyStep recur s (.product i ls) (.product j rs)
      = some (.single .arityError (.product i ls) (.product j rs)
          (.error (.arity ls.length rs.length))) := by
  have hne : ¬ (Ty.product i ls).alike (.product j rs) = true := by
    rw [Ty.alike_iff_erase_eq, Ty.erase_product, Ty.erase_product]
    intro heq
    injection heq with _ heq
    exact h (by simpa using congrArg List.length heq)
  unfold unifyStep
  rw [if_neg hne]
  simp only [h, ↓reduceIte]

theorem unifyStep_of_clashes (hne : l.alike r = false) (h : l.clashes r = true) :
    unifyStep recur s l r = s.clash l r := by
  unfold unifyStep
  rw [if_neg (by simp [hne])]
  rcases l with _ | _ | _ | ⟨_ | _⟩ | _ | _ <;> rcases r with _ | _ | _ | ⟨_ | _⟩ | _ | _ <;>
    simp [Ty.clashes] at h ⊢

end Step

/-! ## The nested search takes a course -/

variable {recur recur' : Substitution → Ty → Ty → Option Attempt} {s : Substitution}

/-- The answers of `recur` are courses, whatever goals come after. -/
def Follows (recur : Substitution → Ty → Ty → Option Attempt) : Prop :=
  ∀ ⦃s l r a⦄, recur s l r = some a → ∀ ⦃goals b⦄,
    (∀ s', a.result = .ok s' → Course s' goals b) → Course s ((l, r) :: goals) (a.followedBy b)

theorem Follows.unifyAll (hrec : Follows recur) {ls rs : List Ty} {a : Attempt}
    (ha : s.unifyAll recur ls rs = some a) {goals : List (Ty × Ty)} {b : Attempt}
    (hb : ∀ s', a.result = .ok s' → Course s' goals b) :
    Course s (ls.zip rs ++ goals) (a.followedBy b) := by
  induction ls generalizing s rs a with
  | nil =>
    cases ha
    exact hb s rfl
  | cons l ls ih =>
    cases rs with
    | nil =>
      cases ha
      exact hb s rfl
    | cons r rs =>
      obtain ⟨first, hfirst, ha⟩ := Option.bind_eq_some_iff.1 ha
      rw [List.zip_cons_cons, List.cons_append]
      cases hres : first.result with
      | error e =>
        -- the first pair fails, so that what comes after it is never asked for
        rw [Attempt.andThen_of_error hres] at ha
        cases ha
        exact hrec hfirst (fun s' hs' => by rw [hres] at hs'; cases hs')
      | ok s' =>
        rw [Attempt.andThen_of_ok hres] at ha
        obtain ⟨others, hothers, rfl⟩ := Option.map_eq_some_iff.1 ha
        have hok : (first.followedBy others).result = others.result := by
          rw [Attempt.followedBy_of_ok hres]
        rw [Attempt.followedBy_assoc]
        refine hrec hfirst fun s'' hs'' => ?_
        rw [hres] at hs''
        cases hs''
        exact ih hothers fun s'' hs'' => hb s'' (hok.trans hs'')

theorem Follows.unifyVar (hrec : Follows recur) {l r other : Ty} {v : NodeId} {a : Attempt}
    (hne : l.alike r = false) (hface : Ty.Faces l r v other)
    (ha : s.unifyVar recur v other = some a) {goals : List (Ty × Ty)} {b : Attempt}
    (hb : ∀ s', a.result = .ok s' → Course s' goals b) :
    Course s ((l, r) :: goals) (a.followedBy b) := by
  rw [Substitution.unifyVar] at ha
  cases hv : s.find? v with
  | none => simp [hv] at ha
  | some look =>
    cases look with
    | bound u =>
      simp only [hv] at ha
      exact .expand hne hface hv (hrec ha hb)
    | unbound w =>
      simp only [hv] at ha
      obtain ⟨target, ht, rfl⟩ := Option.map_eq_some_iff.1 ha
      exact .bind hne hface hv ht (hb _ rfl)

theorem Follows.unifyStep (hrec : Follows recur) : Follows (unifyStep recur) := by
  intro s l r a ha goals b hb
  by_cases heq : l.alike r = true
  · rw [unifyStep_of_alike heq] at ha
    cases ha
    exact .identity heq (hb s rfl)
  have hne : l.alike r = false := by simpa using heq
  -- the remaining cases are the kinds of step, each with its equation
  cases Ty.confrontation l r with
  | faces hface =>
    rw [unifyStep_of_faces hne hface] at ha
    exact hrec.unifyVar hne hface ha hb
  | absorb habs =>
    rw [unifyStep_of_absorbs hne habs] at ha
    cases ha
    exact .absorb hne habs (hb s rfl)
  | parts hparts =>
    rw [unifyStep_of_matches hne hparts] at ha
    obtain ⟨inner, hinner, rfl⟩ := Option.map_eq_some_iff.1 ha
    rw [Attempt.after_followedBy]
    exact .decompose hne hparts (hrec.unifyAll hinner hb)
  | arity i j hlen =>
    rw [unifyStep_of_arity i j hlen] at ha
    cases ha
    exact .arity i j goals hlen
  | clash hclash =>
    rw [unifyStep_of_clashes hne hclash, Substitution.clash] at ha
    obtain ⟨l', hl', ha⟩ := Option.bind_eq_some_iff.1 ha
    obtain ⟨r', hr', ha⟩ := Option.bind_eq_some_iff.1 ha
    cases ha
    exact .clash goals hne hclash hl' hr'

theorem follows_unifyWithin (n : ℕ) : Follows (unifyWithin n) := by
  induction n with
  | zero => intro s l r a ha; cases ha
  | succ n ih => exact ih.unifyStep

/-- What the search finds at any depth is a course. -/
theorem course_of_unifyWithin {n : ℕ} {l r : Ty} {a : Attempt}
    (ha : unifyWithin n s l r = some a) : Course s [(l, r)] a := by
  cases hres : a.result with
  | error e =>
    rw [← Attempt.followedBy_of_error hres a]
    exact follows_unifyWithin n ha fun s' hs' => by rw [hres] at hs'; cases hs'
  | ok s' =>
    have hstop : a = a.followedBy ⟨[], .ok s'⟩ := by
      rw [Attempt.followedBy_of_ok hres, List.append_nil, ← hres]
    rw [hstop]
    refine follows_unifyWithin n ha fun s'' hs'' => ?_
    rw [hres] at hs''
    cases hs''
    exact .done s'

/-! ## Every course is found -/

/-- Whatever `recur` finds for types in `T` on a store in `P`, `recur'` finds too, and the store
that comes of it is in `P` again. -/
def Within (P : Substitution → Prop) (T : Ty → Prop)
    (recur recur' : Substitution → Ty → Ty → Option Attempt) : Prop :=
  ∀ ⦃s l r a⦄, P s → T l → T r → recur s l r = some a →
    recur' s l r = some a ∧ ∀ s', a.result = .ok s' → P s'

section Within

variable {P : Substitution → Prop} {T : Ty → Prop} {a : Attempt}

theorem Within.unifyAll (hle : Within P T recur recur') (hs : P s) {ls rs : List Ty}
    (hparts : ∀ g ∈ ls.zip rs, T g.1 ∧ T g.2) (ha : s.unifyAll recur ls rs = some a) :
    s.unifyAll recur' ls rs = some a := by
  induction ls generalizing s rs a with
  | nil => exact ha
  | cons l ls ih =>
    cases rs with
    | nil => exact ha
    | cons r rs =>
      obtain ⟨first, hfirst, ha⟩ := Option.bind_eq_some_iff.1 ha
      obtain ⟨⟨hl, hr⟩, hparts⟩ := List.forall_mem_cons.1 hparts
      -- the other search finds the first pair too, and its store is in `P` for the rest
      obtain ⟨hfirst, hnext⟩ := hle hs hl hr hfirst
      refine Option.bind_eq_some_iff.2 ⟨first, hfirst, ?_⟩
      cases hres : first.result with
      | error e =>
        rw [Attempt.andThen_of_error hres] at ha ⊢
        exact ha
      | ok s' =>
        rw [Attempt.andThen_of_ok hres] at ha ⊢
        obtain ⟨others, hothers, rfl⟩ := Option.map_eq_some_iff.1 ha
        rw [ih (hnext s' hres) hparts hothers, Option.map_some]

/-- A step finds more if the search of what it leads to does. -/
theorem Within.unifyStep (hle : Within P T recur recur') (hs : P s) {l r : Ty}
    (hfind : ∀ {v other u}, Ty.Faces l r v other → s.find? v = some (.bound u) → T other ∧ T u)
    (hparts : ∀ {action ls rs}, Ty.Matches l r action ls rs → ∀ g ∈ ls.zip rs, T g.1 ∧ T g.2)
    (ha : unifyStep recur s l r = some a) : unifyStep recur' s l r = some a := by
  by_cases heq : l.alike r = true
  · rwa [unifyStep_of_alike heq] at ha ⊢
  have hne : l.alike r = false := by simpa using heq
  cases Ty.confrontation l r with
  | faces hface =>
    rw [unifyStep_of_faces hne hface, unifyVar] at ha ⊢
    cases hv : s.find? _ with
    | none => simp [hv] at ha
    | some look =>
      cases look with
      | unbound w => simpa [hv] using ha
      | bound u =>
        simp only [hv] at ha ⊢
        obtain ⟨hother, hu⟩ := hfind hface hv
        exact (hle hs hother hu ha).1
  | absorb habs => rwa [unifyStep_of_absorbs hne habs] at ha ⊢
  | parts h =>
    rw [unifyStep_of_matches hne h] at ha ⊢
    obtain ⟨inner, hinner, rfl⟩ := Option.map_eq_some_iff.1 ha
    rw [hle.unifyAll hs (hparts h) hinner, Option.map_some]
  | arity i j hlen => rwa [unifyStep_of_arity i j hlen] at ha ⊢
  | clash hclash => rwa [unifyStep_of_clashes hne hclash] at ha ⊢

end Within

/-- A deeper search finds whatever a shallower one does. -/
theorem unifyWithin_mono {n m : ℕ} (hnm : n ≤ m) {l r : Ty} {a : Attempt}
    (ha : unifyWithin n s l r = some a) : unifyWithin m s l r = some a := by
  induction n generalizing m s l r a with
  | zero => cases ha
  | succ n ih =>
    obtain ⟨m, rfl⟩ : ∃ k, m = k + 1 := ⟨m - 1, by omega⟩
    have hle : Within (fun _ => True) (fun _ => True) (unifyWithin n) (unifyWithin m) :=
      fun s l r a _ _ _ ha => ⟨ih (by omega) ha, fun _ _ => trivial⟩
    exact hle.unifyStep trivial (fun _ _ => ⟨trivial, trivial⟩)
      (fun _ _ _ => ⟨trivial, trivial⟩) ha

theorem unifyAll_mono {n m : ℕ} (hnm : n ≤ m) {ls rs : List Ty} {a : Attempt}
    (ha : s.unifyAll (unifyWithin n) ls rs = some a) :
    s.unifyAll (unifyWithin m) ls rs = some a := by
  have hle : Within (fun _ => True) (fun _ => True) (unifyWithin n) (unifyWithin m) :=
    fun s l r a _ _ _ ha => ⟨unifyWithin_mono hnm ha, fun _ _ => trivial⟩
  exact hle.unifyAll trivial (fun _ _ => ⟨trivial, trivial⟩) ha

/-- Unifying two stretches of pairs is unifying the one and then the other. -/
theorem unifyAll_append {ls rs : List Ty} (hlen : ls.length = rs.length) (ls' rs' : List Ty) :
    s.unifyAll recur (ls ++ ls') (rs ++ rs')
      = (s.unifyAll recur ls rs).bind fun a => a.andThen fun s => s.unifyAll recur ls' rs' := by
  induction ls generalizing s rs with
  | nil =>
    obtain rfl : rs = [] := by simpa using hlen.symm
    simp [unifyAll, Attempt.andThen]
  | cons l ls ih =>
    cases rs with
    | nil => simp at hlen
    | cons r rs =>
      have hlen : ls.length = rs.length := by simpa using hlen
      simp only [List.cons_append, unifyAll, Option.bind_eq_bind, ih hlen]
      cases recur s l r with
      | none => rfl
      | some first =>
        simp only [Option.bind_some]
        cases hres : first.result with
        | error e => simp [Attempt.andThen_of_error hres]
        | ok s' =>
          rw [Attempt.andThen_of_ok hres, Attempt.andThen_of_ok hres]
          cases s'.unifyAll recur ls rs with
          | none => rfl
          | some others =>
            rw [Option.bind_some, Option.map_some, Option.bind_some,
              Attempt.followedBy_andThen hres]

/-- A first goal that is found, and what comes after it. -/
theorem unifyAll_cons_of_ok {l r : Ty} {s' : Substitution} {first others : Attempt}
    {ls rs : List Ty} (hfirst : recur s l r = some first) (hres : first.result = .ok s')
    (hothers : s'.unifyAll recur ls rs = some others) :
    s.unifyAll recur (l :: ls) (r :: rs) = some (first.followedBy others) := by
  rw [unifyAll, hfirst, Option.bind_eq_bind, Option.bind_some, Attempt.andThen_of_ok hres, hothers,
    Option.map_some]

theorem unifyAll_cons_of_error {l r : Ty} {e : UnifyError} {first : Attempt} {ls rs : List Ty}
    (hfirst : recur s l r = some first) (hres : first.result = .error e) :
    s.unifyAll recur (l :: ls) (r :: rs) = some first := by
  rw [unifyAll, hfirst, Option.bind_eq_bind, Option.bind_some, Attempt.andThen_of_error hres]

/-- Every course is found by a search that may descend deep enough. -/
theorem Course.exists_unifyAll {goals : List (Ty × Ty)} {a : Attempt} (h : Course s goals a) :
    ∃ n, s.unifyAll (unifyWithin n) (goals.map Prod.fst) (goals.map Prod.snd) = some a := by
  induction h with
  | done s => exact ⟨0, rfl⟩
  | @identity s l r goals a heq _ ih =>
    obtain ⟨n, hn⟩ := ih
    refine ⟨n + 1, ?_⟩
    have hrest := unifyAll_mono n.le_succ hn
    exact unifyAll_cons_of_ok (unifyStep_of_alike heq) rfl hrest
  | @expand s l r other u v goals a hne hface hv _ ih =>
    obtain ⟨n, hn⟩ := ih
    refine ⟨n + 1, ?_⟩
    -- the pair is found one level above what replaces it
    have hpair : unifyWithin (n + 1) s l r = unifyWithin n s other u := by
      rw [unifyWithin, unifyStep_of_faces hne hface, unifyVar, hv]
    obtain ⟨first, hfirst, ha⟩ := Option.bind_eq_some_iff.1 hn
    cases hres : first.result with
    | error e =>
      rw [Attempt.andThen_of_error hres] at ha
      cases ha
      exact unifyAll_cons_of_error (hpair.trans hfirst) hres
    | ok s' =>
      rw [Attempt.andThen_of_ok hres] at ha
      obtain ⟨others, hothers, rfl⟩ := Option.map_eq_some_iff.1 ha
      have hrest := unifyAll_mono n.le_succ hothers
      exact unifyAll_cons_of_ok (hpair.trans hfirst) hres hrest
  | @bind s l r other target v w goals a hne hface hv ht _ ih =>
    obtain ⟨n, hn⟩ := ih
    refine ⟨n + 1, ?_⟩
    have hpair : unifyWithin (n + 1) s l r = some (s.bindTo w target) := by
      rw [unifyWithin, unifyStep_of_faces hne hface, unifyVar, hv]
      simp only [ht, Option.map_some]
    have hrest := unifyAll_mono n.le_succ hn
    exact unifyAll_cons_of_ok hpair rfl hrest
  | @absorb s l r goals a hne habs _ ih =>
    obtain ⟨n, hn⟩ := ih
    refine ⟨n + 1, ?_⟩
    have hrest := unifyAll_mono n.le_succ hn
    exact unifyAll_cons_of_ok (unifyStep_of_absorbs hne habs) rfl hrest
  | @decompose s l r action ls rs goals a hne hparts _ ih =>
    obtain ⟨n, hn⟩ := ih
    refine ⟨n + 1, ?_⟩
    have hlen := hparts.length_eq
    rw [List.map_append, List.map_append, List.map_fst_zip (Nat.le_of_eq hlen),
      List.map_snd_zip (Nat.le_of_eq hlen.symm),
      unifyAll_append hlen] at hn
    obtain ⟨inner, hinner, ha⟩ := Option.bind_eq_some_iff.1 hn
    -- the parts come first among the goals, and together they answer for the node
    have hpair : unifyWithin (n + 1) s l r = some (inner.after action l r) := by
      rw [unifyWithin, unifyStep_of_matches hne hparts, hinner, Option.map_some]
    cases hres : inner.result with
    | error e =>
      rw [Attempt.andThen_of_error hres] at ha
      cases ha
      exact unifyAll_cons_of_error hpair hres
    | ok s' =>
      rw [Attempt.andThen_of_ok hres] at ha
      obtain ⟨others, hothers, rfl⟩ := Option.map_eq_some_iff.1 ha
      have hrest := unifyAll_mono n.le_succ hothers
      rw [← Attempt.after_followedBy]
      exact unifyAll_cons_of_ok hpair hres hrest
  | @arity s i j ls rs goals hlen =>
    exact ⟨1, unifyAll_cons_of_error (unifyStep_of_arity i j hlen) rfl⟩
  | @clash s l r l' r' goals hne hclash hl hr =>
    refine ⟨1, unifyAll_cons_of_error (e := .mismatch l' r') ?_ rfl⟩
    rw [unifyWithin, unifyStep_of_clashes hne hclash, Substitution.clash, hl, hr]
    rfl

end Substitution

end CoContextual
