import CoContextual.Token

/-!
# Primitive types

The fixed types without parameters, their names in source text, and the one that each literal
selects. Names determine primitives: `Primitive.ofName?_eq_some_iff`.
-/

namespace CoContextual

/-- A type without parameters. -/
inductive Primitive where
  | i8
  | i16
  | i32
  | i64
  | u8
  | u16
  | u32
  | u64
  | f32
  | f64
  | char
  | string
  | unit
deriving DecidableEq

namespace Primitive

/-- The name of the type in source text. -/
def name : Primitive → String
  | i8 => "i8"
  | i16 => "i16"
  | i32 => "i32"
  | i64 => "i64"
  | u8 => "u8"
  | u16 => "u16"
  | u32 => "u32"
  | u64 => "u64"
  | f32 => "f32"
  | f64 => "f64"
  | char => "char"
  | string => "string"
  | unit => "unit"

/-- All primitive types. -/
def all : List Primitive :=
  [i8, i16, i32, i64, u8, u16, u32, u64, f32, f64, char, string, unit]

/-- The primitive type that is written `text`, if it is the name of one. -/
def ofName? (text : String) : Option Primitive := all.find? fun p => p.name = text

theorem name_injective {p q : Primitive} (h : p.name = q.name) : p = q := by
  cases p <;> cases q <;> simp_all [name]

/-- A text names a primitive exactly when it is that primitive's name. -/
theorem ofName?_eq_some_iff {text : String} {p : Primitive} :
    ofName? text = some p ↔ p.name = text := by
  constructor
  · intro h
    simpa using List.find?_some h
  · rintro rfl
    have found : (ofName? p.name).isSome := List.find?_isSome.2 ⟨p, by cases p <;> simp [all]⟩
    obtain ⟨q, hq⟩ := Option.isSome_iff_exists.1 found
    have same : q.name = p.name := by simpa using List.find?_some hq
    rw [hq, name_injective same]

/-! ## Literals -/

/-- The type of an integer literal. The last character selects the width (`b` for 8 bits, `s` for
16, `l` for 64, anything else for 32) and a `u` anywhere makes it unsigned; case is ignored. -/
def ofIntText (text : String) : Primitive :=
  let unsigned := text.toList.any fun c => c.toLower = 'u'
  match text.toList.getLast?.map Char.toLower, unsigned with
  | some 'b', false => i8
  | some 'b', true => u8
  | some 's', false => i16
  | some 's', true => u16
  | some 'l', false => i64
  | some 'l', true => u64
  | _, false => i32
  | _, true => u32

/-- The type of a floating-point literal: 64 bits with a final `d`, otherwise 32. -/
def ofFloatText (text : String) : Primitive :=
  match text.toList.getLast? with
  | some 'd' => f64
  | some 'D' => f64
  | _ => f32

/-- The type of a literal. A broken literal has the type it was meant to have. -/
def ofLiteral (form : LiteralForm) (text : String) : Primitive :=
  match form with
  | .int => ofIntText text
  | .float => ofFloatText text
  | .char => char
  | .brokenChar => char
  | .string => string
  | .brokenString => string

end Primitive

end CoContextual
