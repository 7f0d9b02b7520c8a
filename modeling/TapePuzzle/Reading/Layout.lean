import TapePuzzle.Diagnosis.Diagnostic

/-!
# Layout of a program text

A program text is a header line, a data segment and a text segment, each segment opened by a marker
on a line of its own. Nothing is read of a text that is laid out differently.
-/

namespace TapePuzzle

/-- A program text divided into its segments. -/
structure Layout where
  data : List SourceLine
  /-- The line of the text marker. -/
  textLine : Nat
  text : List SourceLine
  deriving DecidableEq, Repr

/-- Whether a line is the text marker. -/
def isTextMarker (line : SourceLine) : Bool := trim (codePart line.text) = textMarker.toList

/-- Whether a line, possibly missing, is `wanted` but for trailing white space. -/
def isMarker (wanted : String) (line? : Option SourceLine) : Bool :=
  line?.any fun line => trimEnd line.text = wanted.toList

/-- Divides a program text into its segments. -/
def Layout.ofLines (lines : List SourceLine) : Except Finding Layout :=
  if !isMarker headerLine lines[0]? then .error ⟨.missingHeader, Span.point 1 1⟩
  else if !isMarker dataMarker lines[1]? then .error ⟨.missingDataMarker, Span.point 2 1⟩
  else
    let body := lines.drop 2
    match body.filter isTextMarker with
    | [] => .error ⟨.missingTextMarker, Span.point lines.length 1⟩
    | [marker] =>
        .ok
          { data := body.takeWhile fun line => !isTextMarker line
            textLine := marker.number
            text := (body.dropWhile fun line => !isTextMarker line).drop 1 }
    | _ :: second :: _ => .error ⟨.duplicateTextMarker, Span.point second.number 1⟩

end TapePuzzle
