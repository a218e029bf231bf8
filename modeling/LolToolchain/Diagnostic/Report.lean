import LolToolchain.Diagnostic.Basic
import LolToolchain.Source.Position

/-!
Plain-text reports: a heading with the place of the fault, then for each remark the source line
with carets under the span. What would be out of bounds or repeated a negative number of times has no
result.
-/
namespace LolToolchain

/-- One byte a number of times over, which must not be negative. -/
def Text.repeated? (n : Int) (b : UInt8) : Option Text :=
  if n < 0 then none else some (Text.repeated n.toNat b)

def blanks? (n : Int) : Option Text := Text.repeated? n 0x20

def carets? (n : Int) : Option Text := Text.repeated? n 0x5E

namespace Diagnostic

/-- The source line of a remark with carets under its span. A span that ends on a later line, or
that is empty, gets one caret. -/
def snippet? (source : Source) (note : Note) : Option Text := do
  let first ← source.position? note.span.start
  let last ← source.position? note.span.stop
  let line ← source.line? first.line
  let number := Text.ofNat first.line
  let margin ← blanks? number.length
  let width : Int :=
    if last.line = first.line ∧ first.column < last.column then last.column - first.column else 1
  let column : Int := if first.column < 1 then 1 else first.column
  let indent ← blanks? (column - 1)
  let marks ← carets? width
  pure (margin ++ " |\n"
    ++ number ++ " | " ++ line ++ "\n"
    ++ margin ++ " | " ++ indent ++ marks ++ " " ++ note.message ++ "\n")

def report? (sources : Sources) (d : Diagnostic) : Option Text :=
  match sources.get? d.span.file with
  | none => some ("error[" ++ d.kind.tag ++ "]: " ++ d.message ++ "\n")
  | some source => do
    let place ← source.position? d.span.start
    let snippets ← d.notes.mapM fun note =>
      snippet? ((sources.get? note.span.file).getD source) note
    pure ("error[" ++ d.kind.tag ++ "]: " ++ d.kind.description ++ "\n"
      ++ "  --> " ++ source.name ++ ":" ++ place.render ++ "\n"
      ++ snippets.flatten)

end Diagnostic

namespace Failure

def report? (sources : Sources) (f : Failure) : Option Text :=
  match f with
  | .many ds => List.flatten <$> ds.mapM (Diagnostic.report? sources)
  | f =>
    match f.diagnostic? with
    | some d => d.report? sources
    | none => some ("error: " ++ f.message ++ "\n")

/-- The report as it is shown; `report?` never fails. -/
def report (sources : Sources) (f : Failure) : Text :=
  (f.report? sources).getD []

end Failure

end LolToolchain
