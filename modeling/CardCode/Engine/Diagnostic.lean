import Mathlib.Algebra.Order.Ring.Int
import Mathlib.Data.List.Basic

/-! # Source spans and diagnostics

`std::string` values of the engine are `String`s here, one character per byte.
-/

namespace CardCode

/-- Byte, line and column range into the source text. -/
structure SourceSpan where
  startOffset : UInt32 := 0
  endOffset : UInt32 := 0
  startLine : UInt32 := 0
  startColumn : UInt32 := 0
  endLine : UInt32 := 0
  endColumn : UInt32 := 0
  deriving Repr, DecidableEq, Inhabited

/-- The span from the start of the first to the end of the second. -/
def SourceSpan.join (first second : SourceSpan) : SourceSpan where
  startOffset := first.startOffset
  endOffset := second.endOffset
  startLine := first.startLine
  startColumn := first.startColumn
  endLine := second.endLine
  endColumn := second.endColumn

inductive DiagnosticSeverity where
  | error
  | warning
  deriving Repr, DecidableEq, Inhabited

structure Diagnostic where
  severity : DiagnosticSeverity := .error
  span : SourceSpan := {}
  message : String := ""
  deriving Repr, DecidableEq, Inhabited

def hasErrors (diagnostics : List Diagnostic) : Bool :=
  diagnostics.any fun diagnostic => diagnostic.severity = .error

@[simp] theorem hasErrors_nil : hasErrors [] = false := rfl

@[simp] theorem hasErrors_append (first second : List Diagnostic) :
    hasErrors (first ++ second) = (hasErrors first || hasErrors second) :=
  List.any_append

theorem hasErrors_error (span : SourceSpan) (message : String) :
    hasErrors [⟨.error, span, message⟩] = true := by
  simp [hasErrors]

end CardCode
