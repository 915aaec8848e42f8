import CoContextual.Position

/-!
# Diagnostics

A diagnostic tells what is wrong and where. Its spans are relative to the node that holds it;
`Diagnostic.shift?` re-expresses them for an enclosing node. Lists of diagnostics are joined on
the way up and nothing is dropped from them.
-/

namespace CoContextual

/-- The kinds of diagnostic. -/
inductive Category where
  /-- Types of different structure meet at a call. -/
  | typeMismatch
  /-- Products of different length meet. -/
  | arityMismatch
  /-- An annotation disagrees with the type of the value. -/
  | annotationMismatch
  /-- A use disagrees with the declaration of its identifier. -/
  | requirementMismatch
deriving DecidableEq

namespace Category

/-- All categories. -/
def all : List Category :=
  [typeMismatch, arityMismatch, annotationMismatch, requirementMismatch]

/-- The name of the category. -/
def name : Category → String
  | typeMismatch => "type_mismatch"
  | arityMismatch => "arity_mismatch"
  | annotationMismatch => "annotation_mismatch"
  | requirementMismatch => "requirement_mismatch"

/-- The category with the given name. -/
def ofName? (text : String) : Option Category := all.find? fun c => c.name = text

/-- The code that stands for the category in messages. -/
def code : Category → String
  | typeMismatch => "E0001"
  | arityMismatch => "E0002"
  | annotationMismatch => "E0003"
  | requirementMismatch => "E0004"

/-- What a diagnostic of the category means. -/
def description : Category → String
  | typeMismatch => "Expression type does not match expected type."
  | arityMismatch => "A function was called with the wrong number of arguments."
  | annotationMismatch => "A declared type annotation does not match the inferred type."
  | requirementMismatch => "An identifier is used at a type its declaration does not admit."

end Category

/-- One finding. -/
structure Diagnostic where
  /-- What kind of finding it is. -/
  category : Category
  /-- What is wrong. -/
  message : String
  /-- Where it shows. -/
  primary : Span
  /-- The other place that is involved, or the empty span at the origin. -/
  secondary : Span := .zero
deriving DecidableEq

namespace Diagnostic

/-- The code of the diagnostic's category. -/
def code (d : Diagnostic) : String := d.category.code

/-- The diagnostic seen from an origin that lies `offset` earlier. -/
def shift? (d : Diagnostic) (offset : Offset) : Option Diagnostic := do
  return { d with
    primary := ← d.primary.shift? offset
    secondary := ← d.secondary.shift? offset }

/-- Several diagnostics seen from an origin that lies `offset` earlier. -/
def shiftAll? (ds : List Diagnostic) (offset : Offset) : Option (List Diagnostic) :=
  ds.mapM fun d => d.shift? offset

/-- Those diagnostics that are of the given category. -/
def ofCategory (ds : List Diagnostic) (category : Category) : List Diagnostic :=
  ds.filter fun d => d.category = category

/-- One diagnostic at each of several places. -/
def atEach (category : Category) (message : String) (secondary : Span) (places : List Span) :
    List Diagnostic :=
  places.map fun primary => { category, message, primary, secondary }

/-- The line that shows a diagnostic. -/
def render (d : Diagnostic) : String :=
  "error[" ++ d.code ++ "]: " ++ d.message ++ " at " ++ d.primary.render

/-- Success if there are no diagnostics, and otherwise failure with all of them. -/
def check : List Diagnostic → Except (List Diagnostic) Unit
  | [] => .ok ()
  | ds => .error ds

/-- The text for a list of diagnostics: that of the first one. -/
def summary (ds : List Diagnostic) : String := (ds.head?.map render).getD ""

end Diagnostic

end CoContextual
