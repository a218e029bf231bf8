import LolToolchain.Diagnostic.Basic
import LolToolchain.Numbar.Reading
import LolToolchain.Program.Tree
import LolToolchain.Token.Items

/-!
From tokens to the program tree, by recursive descent with one token of lookahead. Parsing stops at
the first fault; a lexical fault counts as soon as it comes into view.

Recursion is bounded by a number that is at least the number of tokens. Every nested call and every
round of a loop has consumed a token first, so the bound is never reached; a parser that reached it
would stop with a fault of its own.
-/
namespace LolToolchain

inductive ParseFault where
  | expected (what : Text) (found : Token)
  | outOfRange (digits : Text)
  | badNumber (whole fraction : Text)
  | labelMismatch (opened closed : Text)
  | exhausted
  deriving DecidableEq, Repr, Inhabited

namespace ParseFault

def kind : ParseFault → Diagnostic.Kind
  | .labelMismatch _ _ => .unmatchedBlockName
  | .exhausted => .runtime
  | _ => .badGrammar

def message : ParseFault → Text
  | .expected what found => "expected " ++ what ++ ", found " ++ found.describe
  | .outOfRange digits => "number " ++ digits ++ " is out of range"
  | .badNumber whole fraction => "invalid number " ++ whole ++ "." ++ fraction
  | .labelMismatch opened closed => "expected " ++ opened ++ ", found " ++ closed
  | .exhausted => "the bound on the recursion is reached"

def toDiagnostic (f : ParseFault) (span : Span) : Diagnostic :=
  .new f.kind span f.message

end ParseFault

/-- The tokens in view: the current one, those ahead, and where the last consumed one ended. -/
structure Window where
  current : Token
  ahead : List (Except Diagnostic Token)
  prevEnd : Int
  deriving Inhabited

namespace Window

/-- Brings tokens into view. A fault in the lookahead place surfaces at once. -/
def show? (current : Token) (ahead : List (Except Diagnostic Token)) (prevEnd : Int) :
    Except Diagnostic Window :=
  match ahead with
  | .error d :: _ => .error d
  | _ => .ok ⟨current, ahead, prevEnd⟩

def start? (eof : Token) : List (Except Diagnostic Token) → Except Diagnostic Window
  | [] => .ok ⟨eof, [], 0⟩
  | .error d :: _ => .error d
  | .ok t :: rest => show? t rest 0

def nextKind (w : Window) : TokenKind :=
  match w.ahead with
  | .ok t :: _ => t.kind
  | _ => w.current.kind

/-- Consumes the current token; the end of input stays in view. -/
def advance (w : Window) : Except Diagnostic Window :=
  match w.ahead with
  | [] => .ok { w with prevEnd := w.current.span.stop }
  | .error d :: _ => .error d
  | .ok t :: rest => show? t rest w.current.span.stop

def skipBreaks (current : Token) (ahead : List (Except Diagnostic Token)) (prevEnd : Int) :
    Except Diagnostic Window :=
  if current.kind == .lineBreak then
    match ahead with
    | [] => .ok ⟨current, [], prevEnd⟩
    | .error d :: _ => .error d
    | .ok t :: rest => skipBreaks t rest current.span.stop
  else show? current ahead prevEnd

end Window

/-- A parser consumes tokens and yields a tree, or stops with a diagnostic. -/
abbrev Parser := StateT Window (Except Diagnostic)

namespace Parser

def current : Parser Token := do
  return (← get).current

def kind : Parser TokenKind := do
  return (← current).kind

def sees (k : TokenKind) : Parser Bool := do
  return (← kind) == k

def seesWord (k : Keyword) : Parser Bool :=
  sees (.keyword k)

def advance : Parser Unit := fun w => do
  return ((), ← w.advance)

def skipBreaks : Parser Unit := fun w => do
  return ((), ← Window.skipBreaks w.current w.ahead w.prevEnd)

def fail {α : Type} (f : ParseFault) (span : Span) : Parser α :=
  throw (f.toDiagnostic span)

def expected {α : Type} (what : Text) : Parser α := do
  let t ← current
  fail (.expected what t) t.span

/-- Stops where the bound on the recursion is reached. -/
def exhausted {α : Type} : Parser α := do
  let t ← current
  fail .exhausted t.span

def expect (k : TokenKind) : Parser Unit := do
  if ← sees k then advance else expected k.name

def expectWord (k : Keyword) : Parser Unit :=
  expect (.keyword k)

def expectWords : List Keyword → Parser Unit
  | [] => pure ()
  | k :: ks => do
    expectWord k
    expectWords ks

/-- Consumes a reserved word if it is there. -/
def accept (k : Keyword) : Parser Bool := do
  if ← seesWord k then
    advance
    return true
  else return false

/-- At least one line break, and all that follow it. -/
def expectBreak : Parser Unit := do
  expect .lineBreak
  skipBreaks

/-- The span from the start of a node to the end of the last consumed token. -/
def spanFrom (start : Span) : Parser Span := do
  let stop := (← get).prevEnd
  return ⟨start.start, if stop < start.start then start.stop else stop, start.file⟩

def ident : Parser Ident := do
  let t ← current
  match t.lexeme with
  | .identifier name =>
    advance
    return ⟨name, t.span⟩
  | _ => expected TokenKind.identifier.name

/-- The place a value is written to: a variable or IT. -/
def target : Parser Ident := do
  let t ← current
  if ← accept .IT then return ⟨"IT", t.span⟩ else ident

def typeOfWord? : Keyword → Option TypeName
  | .NOOB => some .noob
  | .TROOF => some .troof
  | .NUMBR => some .numbr
  | .NUMBAR => some .numbar
  | .YARN => some .yarn
  | .BUKKIT => some .bukkit
  | _ => none

def typeName : Parser TypeName := do
  match (← kind) with
  | .keyword k =>
    match typeOfWord? k with
    | some t =>
      advance
      return t
    | none => expected "a type"
  | _ => expected "a type"

/-- A whole number, or a fraction made of two numbers around a dot. -/
def number (whole : Text) (span : Span) : Parser Expr := do
  advance
  if ← sees .dot then
    advance
    let t ← current
    match t.lexeme with
    | .number fraction =>
      if fraction.head? == some 0x2D then expected TokenKind.number.name
      else
        advance
        match Numbar.read? (whole ++ "." ++ fraction) with
        | some x => return .float (span.cover t.span) x
        | none => fail (.badNumber whole fraction) (span.cover t.span)
    | _ => expected TokenKind.number.name
  else
    match readNumbr? whole with
    | some n => return .int span n
    | none => fail (.outOfRange whole) span

/-- The operator of an expression `word OF a AN b`. -/
def binaryOfWord? : Keyword → Option BinaryOp
  | .SUM => some .add
  | .DIFF => some .sub
  | .PRODUKT => some .mul
  | .QUOSHUNT => some .div
  | .MOD => some .mod
  | .BIGGR => some .max
  | .SMALLR => some .min
  | .EITHER => some .or
  | .WON => some .xor
  | _ => none

def operands (sub : Parser Expr) (start : Span) (op : BinaryOp) : Parser Expr := do
  let left ← sub
  expectWord .AN
  let right ← sub
  return .binary (← spanFrom start) op left right

/-- Two operands; AN between them may be left out. -/
def looseOperands (sub : Parser Expr) (start : Span) (op : BinaryOp) : Parser Expr := do
  let left ← sub
  let _ ← accept .AN
  let right ← sub
  return .binary (← spanFrom start) op left right

/-- Operands up to MKAY, each possibly followed by AN. -/
def untilMkay (sub : Parser Expr) : Nat → Parser (List Expr)
  | 0 => exhausted
  | fuel + 1 => do
    if ← accept .MKAY then return []
    else if (← sees .lineBreak) || (← sees .endOfInput) then expected "MKAY"
    else
      let x ← sub
      let _ ← accept .AN
      return x :: (← untilMkay sub fuel)

/-- Parts up to MKAY, a `!` or the end of the line; AN between them may be left out. -/
def concatParts (sub : Parser Expr) : Nat → Parser (List Expr)
  | 0 => exhausted
  | fuel + 1 => do
    let x ← sub
    if ← accept .AN then return x :: (← concatParts sub fuel)
    else if ← accept .MKAY then return [x]
    else if (← sees .lineBreak) || (← sees .endOfInput) || (← sees .bang) then return [x]
    else return x :: (← concatParts sub fuel)

def callArgs (sub : Parser Expr) : Nat → Parser (List Expr)
  | 0 => exhausted
  | fuel + 1 => do
    expectWord .YR
    let x ← sub
    if ← accept .AN then return x :: (← callArgs sub fuel) else return [x]

def listElems (sub : Parser Expr) : Nat → Parser (List Expr)
  | 0 => exhausted
  | fuel + 1 => do
    if ← seesWord .MKAY then return []
    else
      let x ← sub
      if ← accept .AN then return x :: (← listElems sub fuel) else return [x]

/-- An expression that starts with a reserved word; `sub` parses the expressions inside it. -/
def wordExpr (sub : Parser Expr) (fuel : Nat) (t : Token) (k : Keyword) : Parser Expr := do
  match k with
  | .WIN => advance; return .bool t.span true
  | .FAIL => advance; return .bool t.span false
  | .NOOB => advance; return .null t.span
  | .IT => advance; return .it t.span
  | .BOTH =>
    if (← get).nextKind == .keyword .SAEM then
      advance
      advance
      looseOperands sub t.span .equal
    else
      advance
      expectWord .OF
      operands sub t.span .and
  | .DIFFRINT =>
    advance
    looseOperands sub t.span .notEqual
  | .NOT =>
    advance
    let x ← sub
    return .unary (← spanFrom t.span) .not x
  | .LEN =>
    advance
    expectWord .OF
    let x ← sub
    return .unary (← spanFrom t.span) .length x
  | .ALL =>
    advance
    expectWord .OF
    let xs ← untilMkay sub fuel
    return .nary (← spanFrom t.span) .all xs
  | .ANY =>
    advance
    expectWord .OF
    let xs ← untilMkay sub fuel
    return .nary (← spanFrom t.span) .any xs
  | .SMOOSH =>
    advance
    let xs ← concatParts sub fuel
    return .concat (← spanFrom t.span) xs
  | .MAEK =>
    advance
    let x ← sub
    let _ ← accept .A
    let goal ← typeName
    return .cast (← spanFrom t.span) x goal
  | .I =>
    expectWords [.I, .IZ]
    let name ← ident
    let xs ← if ← seesWord .YR then callArgs sub fuel else pure []
    expectWord .MKAY
    return .call (← spanFrom t.span) name xs
  | .BUKKIT =>
    advance
    let xs ← if ← accept .OF then do
        let xs ← listElems sub fuel
        expectWord .MKAY
        pure xs
      else pure []
    return .list (← spanFrom t.span) xs
  | .PICK =>
    advance
    if ← accept .FRONT then
      expectWord .OUTTA
      let source ← sub
      return .pickFront (← spanFrom t.span) source
    else if ← accept .BAK then
      expectWord .OUTTA
      let source ← sub
      return .pickBack (← spanFrom t.span) source
    else
      let index ← sub
      expectWord .OUTTA
      let source ← sub
      return .pickAt (← spanFrom t.span) index source
  | k =>
    match binaryOfWord? k with
    | some op =>
      advance
      expectWord .OF
      operands sub t.span op
    | none => expected "expression"

def spliceOf (i : Insertion) : Splice :=
  ⟨i.offset, ⟨i.name, i.span⟩⟩

def exprForm (sub : Parser Expr) (fuel : Nat) : Parser Expr := do
  let t ← current
  match t.lexeme with
  | .number digits => number digits t.span
  | .string text [] =>
    advance
    return .string t.span text
  | .string text insertions =>
    advance
    return .interp t.span text (insertions.map spliceOf)
  | .identifier name =>
    advance
    return .var t.span ⟨name, t.span⟩
  | .keyword k _ => wordExpr sub fuel t k
  | _ => expected "expression"

def expr : Nat → Parser Expr
  | 0 => exhausted
  | fuel + 1 => exprForm (expr fuel) fuel

/-- Whether the current token ends a block. IM ends a loop's block only in IM OUTTA. -/
def atEnd (ends : List Keyword) : Parser Bool := do
  let w ← get
  return w.current.kind == .endOfInput || ends.any fun k =>
    w.current.kind == .keyword k && (k != .IM || w.nextKind == .keyword .OUTTA)

/-- Parameters of a function: `YR x AN YR y ...`. -/
def params : Nat → Parser (List Ident)
  | 0 => exhausted
  | fuel + 1 => do
    expectWord .YR
    let x ← ident
    if ← accept .AN then return x :: (← params fuel) else return [x]

/-- Arms that start with a word and an expression. -/
def arms (sub : Parser Expr) (block : List Keyword → Parser Block) (word : Keyword)
    (ends : List Keyword) : Nat → Parser (List Arm)
  | 0 => exhausted
  | fuel + 1 => do
    if ← accept word then
      let test ← sub
      expectBreak
      let body ← block ends
      return ⟨test, body⟩ :: (← arms sub block word ends fuel)
    else return []

/-- Arguments of VISIBLE; AN between them may be left out. -/
def printArgs (sub : Parser Expr) : Nat → Parser (List Expr)
  | 0 => exhausted
  | fuel + 1 => do
    let x ← sub
    if ← accept .AN then return x :: (← printArgs sub fuel)
    else if (← sees .bang) || (← sees .lineBreak) || (← sees .endOfInput) then return [x]
    else return x :: (← printArgs sub fuel)

/-- `op YR var [TIL|WILE expr]` in the head of a loop. -/
def loopUpdate (sub : Parser Expr) : Parser LoopUpdate := do
  let t ← current
  let change ← match t.lexeme with
    | .keyword .UPPIN _ => do advance; pure LoopChange.up
    | .keyword .NERFIN _ => do advance; pure LoopChange.down
    | .identifier _ => do pure (LoopChange.apply (← ident))
    | _ => expected "UPPIN, NERFIN or a function name"
  expectWord .YR
  let v ← ident
  if ← accept .TIL then return ⟨change, v, .untilTrue (← sub)⟩
  else if ← accept .WILE then return ⟨change, v, .whileTrue (← sub)⟩
  else return ⟨change, v, .forever⟩

def exprStmt (sub : Parser Expr) (start : Span) : Parser Stmt := do
  let x ← sub
  return .expr (← spanFrom start) x

def declaration (sub : Parser Expr) (start : Span) : Parser Stmt := do
  expectWords [.I, .HAS, .A]
  let name ← ident
  let initial ← if ← accept .ITZ then
      if ← accept .A then Initial.typed <$> typeName else Initial.value <$> sub
    else pure .absent
  return .declare (← spanFrom start) name initial

def assignment (sub : Parser Expr) (start : Span) : Parser Stmt := do
  let name ← target
  expectWord .R
  let value ← sub
  return .assign (← spanFrom start) name value

def castStmt (start : Span) : Parser Stmt := do
  let name ← ident
  expectWords [.IS, .NOW, .A]
  let goal ← typeName
  return .cast (← spanFrom start) name goal

def loadStmt (start : Span) : Parser Stmt := do
  expectWords [.CAN, .HAS]
  let name ← ident
  expect .question
  return .load (← spanFrom start) name

def definition (block : List Keyword → Parser Block) (fuel : Nat) (start : Span) : Parser Stmt := do
  expectWords [.HOW, .IZ, .I]
  let name ← ident
  let ps ← if ← seesWord .YR then params fuel else pure []
  expectBreak
  let body ← block [.IF]
  expectWords [.IF, .U, .SAY, .SO]
  return .define (← spanFrom start) name ps body

def switchStmt (sub : Parser Expr) (block : List Keyword → Parser Block) (fuel : Nat)
    (start : Span) : Parser Stmt := do
  expectWord .WTF
  expect .question
  expectBreak
  let cases ← arms sub block .OMG [.OMG, .OMGWTF, .OIC] fuel
  let otherwise ← if ← accept .OMGWTF then do
      expectBreak
      some <$> block [.OIC]
    else pure none
  expectWord .OIC
  return .switch (← spanFrom start) cases otherwise

def branchStmt (sub : Parser Expr) (block : List Keyword → Parser Block) (fuel : Nat)
    (start : Span) : Parser Stmt := do
  expectWords [.O, .RLY]
  expect .question
  expectBreak
  let yes ← if ← accept .YA then do
      expectWord .RLY
      expectBreak
      some <$> block [.MEBBE, .NO, .OIC]
    else pure none
  let cases ← arms sub block .MEBBE [.MEBBE, .NO, .OIC] fuel
  let no ← if ← accept .NO then do
      expectWord .WAI
      expectBreak
      some <$> block [.OIC]
    else pure none
  expectWord .OIC
  return .branch (← spanFrom start) yes cases no

def loopStmt (sub : Parser Expr) (block : List Keyword → Parser Block) (start : Span) :
    Parser Stmt := do
  expectWords [.IM, .IN, .YR]
  let label ← ident
  let update ← if ← sees .lineBreak then pure none else some <$> loopUpdate sub
  expectBreak
  let body ← block [.IM]
  expectWords [.IM, .OUTTA, .YR]
  let close ← ident
  if close.name == label.name then return .loop (← spanFrom start) label close update body
  else
    throw (((ParseFault.labelMismatch label.name close.name).toDiagnostic close.span).annotate
      label.span ("loop " ++ label.name ++ " opened here"))

def printStmt (sub : Parser Expr) (fuel : Nat) (start : Span) : Parser Stmt := do
  advance
  let args ← printArgs sub fuel
  let quiet ← sees .bang
  if quiet then advance
  return .print (← spanFrom start) args (!quiet)

def readStmt (start : Span) : Parser Stmt := do
  advance
  let name ← target
  return .read (← spanFrom start) name

def putStmt (sub : Parser Expr) (start : Span) : Parser Stmt := do
  advance
  let value ← sub
  expectWords [.IN, .MAH]
  let name ← ident
  if ← accept .AT then
    let index ← sub
    return .store (← spanFrom start) name index value
  else return .append (← spanFrom start) name value

def returnStmt (sub : Parser Expr) (start : Span) : Parser Stmt := do
  expectWords [.FOUND, .YR]
  let value ← sub
  return .ret (← spanFrom start) value

/-- A statement; `sub` and `block` parse the expressions and blocks inside it. -/
def stmtForm (sub : Parser Expr) (block : List Keyword → Parser Block) (fuel : Nat) :
    Parser Stmt := do
  let t ← current
  let next := (← get).nextKind
  match t.lexeme with
  | .identifier _ =>
    if next == .keyword .R then assignment sub t.span
    else if next == .keyword .IS then castStmt t.span
    else exprStmt sub t.span
  | .keyword k _ =>
    match k with
    | .I => if next == .keyword .IZ then exprStmt sub t.span else declaration sub t.span
    | .IT => if next == .keyword .R then assignment sub t.span else exprStmt sub t.span
    | .CAN => loadStmt t.span
    | .HOW => definition block fuel t.span
    | .WTF => switchStmt sub block fuel t.span
    | .O => branchStmt sub block fuel t.span
    | .GTFO => advance; return .leave t.span
    | .IM => loopStmt sub block t.span
    | .FOUND => returnStmt sub t.span
    | .VISIBLE => printStmt sub fuel t.span
    | .GIMMEH => readStmt t.span
    | .PUT => putStmt sub t.span
    | _ => exprStmt sub t.span
  | _ => exprStmt sub t.span

/-- A block from its statements; it ends with the last of them. -/
def blockOf (stmts : Parser (List Stmt)) : Parser Block := do
  let start := (← current).span
  let ss ← stmts
  let stop := match ss.getLast? with
    | some s => s.span.stop
    | none => start.start
  return ⟨⟨start.start, stop, start.file⟩, ss⟩

/-- Statements on lines of their own, up to one of the words that end the block. -/
def stmts (sub : Parser Expr) : Nat → List Keyword → Parser (List Stmt)
  | 0, _ => exhausted
  | fuel + 1, ends => do
    skipBreaks
    if ← atEnd ends then return []
    else
      let s ← stmtForm sub (fun inner => blockOf (stmts sub fuel inner)) fuel
      if (← sees .lineBreak) || (← atEnd ends) then return s :: (← stmts sub fuel ends)
      else expected "line break"

def digits : Parser Text := do
  let t ← current
  expect .number
  return t.lexeme.text

/-- A whole program, from HAI to KTHXBYE and the end of the text. -/
def program (fuel : Nat) : Parser Program := do
  skipBreaks
  let start := (← current).span
  expectWord .HAI
  let major ← digits
  expect .dot
  let minor ← digits
  expectBreak
  let body ← blockOf (stmts (expr fuel) fuel [.KTHXBYE])
  expectWord .KTHXBYE
  let span ← spanFrom start
  skipBreaks
  closed
  return ⟨span, major ++ "." ++ minor, body⟩
where
  /-- Nothing but the end of the text is left. -/
  closed : Parser Unit := do
    if ← sees .endOfInput then pure () else expected TokenKind.endOfInput.name

end Parser

def Program.ofItems (eof : Token) (items : List (Except Diagnostic Token)) :
    Except Diagnostic Program := do
  let w ← Window.start? eof items
  let (p, _) ← (Parser.program (items.length + 1)).run w
  return p

def Program.parse [CharNames] (file : Int) (text : Text) : Except Diagnostic Program :=
  ofItems ⟨.endOfInput, ⟨text.length, text.length, file⟩⟩ (Token.items file text)

end LolToolchain
