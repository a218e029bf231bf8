import LolToolchain.Editor.Explanation
import LolToolchain.Editor.Word
import LolToolchain.Pipeline

/-!
The side of an editor session that knows the language: it keeps the open documents, and reports on
a document whenever that changes.
-/
namespace LolToolchain.Editor

inductive CompletionKind where
  | keyword
  | identifier
  deriving DecidableEq, Repr, Inhabited

structure Completion where
  label : Text
  kind : CompletionKind
  deriving DecidableEq, Repr, Inhabited

def CompletionKind.name : CompletionKind → Text
  | .keyword => "keyword"
  | .identifier => "identifier"

def sortedKeywords : List Text :=
  (Keyword.spellings.map fun e => (e.1 : Text)).mergeSort fun a b => !Text.less b a

def maxCompletions : Nat := 100

/-- The keywords, and then the other identifiers of a text, that go on from a part of a word. -/
def completions [CharNames] (text start : Text) : List Completion :=
  let keywords := sortedKeywords.filter start.isPrefixOf
  let names := (identifiers text).filter fun n => n != start && start.isPrefixOf n
  let offers : List Completion := keywords.map (⟨·, .keyword⟩) ++ names.map (⟨·, .identifier⟩)
  offers.take maxCompletions

/-- A remark in a document; without a code it is about none of its places. -/
structure Mark where
  first : Place
  last : Place
  code : Option Text
  message : Text
  deriving DecidableEq, Repr, Inhabited

def placeOf (source : Source) (offset : Int) : Place :=
  let p := source.position offset
  ⟨p.line - 1, p.column - 1⟩

def marks (text : Text) : Option Failure → List Mark
  | none => []
  | some f =>
    let source : Source := ⟨[], text⟩
    match f.diagnostics with
    | [] => [⟨⟨0, 0⟩, ⟨0, 0⟩, none, f.message⟩]
    | ds => ds.map fun d =>
      ⟨placeOf source d.span.start, placeOf source d.span.stop, some d.kind.tag, d.message⟩

/-- A session: the open documents by name, whether programs are simplified, and whether documents
are still checked. -/
structure Session where
  documents : List (Text × Text)
  optimize : Bool
  checking : Bool
  deriving DecidableEq, Repr, Inhabited

/-- The remarks for a document, which take the place of earlier ones. -/
structure Publication where
  document : Text
  marks : List Mark
  deriving DecidableEq, Repr, Inhabited

namespace Session

def start (optimize : Bool) : Session := ⟨[], optimize, true⟩

def document? (s : Session) (name : Text) : Option Text :=
  s.documents.lookup name

def check [CharNames] (s : Session) (name text : Text) : Option Publication :=
  if s.checking then
    let failure? := match compileSource 0 text s.optimize with
      | .ok _ => none
      | .error d => some (Failure.single d)
    some ⟨name, marks text failure?⟩
  else none

def setDocument [CharNames] (s : Session) (name text : Text) : Option Publication × Session :=
  (s.check name text,
    { s with documents := (name, text) :: s.documents.filter (·.1 != name) })

/-- A document after changes, `none` being one of a part. Only the last change counts, and only if
it is of the whole text. -/
def change [CharNames] (s : Session) (name : Text) (changes : List (Option Text)) :
    Option Publication × Session :=
  match changes.getLast? with
  | some (some text) => s.setDocument name text
  | _ => (none, s)

def close (s : Session) (name : Text) : Publication × Session :=
  (⟨name, []⟩, { s with documents := s.documents.filter (·.1 != name) })

def stop (s : Session) : Session :=
  { s with checking := false }

def complete [CharNames] (s : Session) (name : Text) (p : Place) : List Completion :=
  match s.document? name with
  | none => []
  | some text =>
    let start := wordBefore text p
    if start.isEmpty then [] else completions text start

def hover (s : Session) (name : Text) (p : Place) : Option Text := do
  let text ← s.document? name
  explain? (wordAt text p)

end Session
end LolToolchain.Editor
