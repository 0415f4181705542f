/-!
Options of the segmentation: which lines open an operation, and what becomes of a marker that closes the tape. Both
rules have a name by which option files and command lines choose them.
-/

namespace Machining

inductive BoundaryRule
  | lineNumberOrToolChange
  /-- A numbered line counts only with a comment on it; for programs that number every line. -/
  | annotated
  deriving DecidableEq, Repr, Inhabited

inductive TrailingRule
  | keep
  /-- The closing marker and what is blank behind it are taken off the last operation. -/
  | sentinel
  deriving DecidableEq, Repr, Inhabited

structure Options where
  boundary : BoundaryRule := .lineNumberOrToolChange
  trailing : TrailingRule := .keep
  deriving DecidableEq, Repr, Inhabited

def BoundaryRule.name : BoundaryRule → String
  | .lineNumberOrToolChange => "line_number_or_tool_change"
  | .annotated => "annotated"

def BoundaryRule.ofName? (name : String) : Option BoundaryRule :=
  [lineNumberOrToolChange, annotated].find? (·.name == name)

def TrailingRule.name : TrailingRule → String
  | .keep => "none"
  | .sentinel => "sentinel"

def TrailingRule.ofName? (name : String) : Option TrailingRule :=
  [keep, sentinel].find? (·.name == name)

theorem BoundaryRule.ofName?_name (r : BoundaryRule) : ofName? r.name = some r := by
  cases r <;> decide

theorem TrailingRule.ofName?_name (r : TrailingRule) : ofName? r.name = some r := by
  cases r <;> decide

end Machining
