import LolToolchain.Proofs.Program.Parsing
import LolToolchain.Proofs.Text.Numeral
import LolToolchain.Proofs.Token.Joining

/-!
Programs written out in one canonical form: a statement on each line, with every `AN` and `MKAY`
that can be written. Well-formed programs are those that have such a form. The form of a fraction is
left open; it is given by a function from numbers to pairs of digit runs.
-/
namespace LolToolchain

/-- A reserved word in its usual spelling. -/
def Keyword.lexeme (k : Keyword) : Lexeme :=
  .keyword k (Text.ofString k.word)

/-- Reserved words one behind another. -/
def Keyword.lexemes (ks : List Keyword) : List Lexeme :=
  ks.map Keyword.lexeme

def TypeName.word : TypeName → Keyword
  | .noob => .NOOB
  | .troof => .TROOF
  | .numbr => .NUMBR
  | .numbar => .NUMBAR
  | .yarn => .YARN
  | .bukkit => .BUKKIT

/-- The words in front of two operands; orderings have none. -/
def BinaryOp.words : BinaryOp → List Keyword
  | .add => [.SUM, .OF]
  | .sub => [.DIFF, .OF]
  | .mul => [.PRODUKT, .OF]
  | .div => [.QUOSHUNT, .OF]
  | .mod => [.MOD, .OF]
  | .max => [.BIGGR, .OF]
  | .min => [.SMALLR, .OF]
  | .and => [.BOTH, .OF]
  | .or => [.EITHER, .OF]
  | .xor => [.WON, .OF]
  | .equal => [.BOTH, .SAEM]
  | .notEqual => [.DIFFRINT]
  | .gt | .lt | .ge | .le => []

def ListOp.words : ListOp → List Keyword
  | .all => [.ALL, .OF]
  | .any => [.ANY, .OF]

def UnaryOp.words : UnaryOp → List Keyword
  | .not => [.NOT]
  | .length => [.LEN, .OF]

section

variable (spell : Numbar → Text × Text)

def Ident.lexeme (id : Ident) : Lexeme :=
  .identifier id.name

/-- A place that is written to; the implicit variable is a reserved word. -/
def Ident.targetLexeme (id : Ident) : Lexeme :=
  if id.name = implicitName then Keyword.lexeme .IT else id.lexeme

/-- The variable of a splice in a string. -/
def Splice.insertion (x : Splice) : Insertion :=
  ⟨x.offset, x.name.name, .zero⟩

namespace Expr

mutual

/-- The lexemes of an expression. -/
@[simp] def lexemes : Expr → List Lexeme
  | .int _ v => [.number (Text.ofInt v.toInt)]
  | .float _ x => [.number (spell x).1, .dot, .number (spell x).2]
  | .string _ t => [.string t []]
  | .interp _ t splices => [.string t (splices.map Splice.insertion)]
  | .bool _ b => [Keyword.lexeme (if b then .WIN else .FAIL)]
  | .null _ => [Keyword.lexeme .NOOB]
  | .it _ => [Keyword.lexeme .IT]
  | .var _ id => [id.lexeme]
  | .list _ xs => Keyword.lexemes [.BUKKIT, .OF] ++ listed [] xs ++ [Keyword.lexeme .MKAY]
  | .call _ id xs =>
    Keyword.lexemes [.I, .IZ] ++ id.lexeme :: listed [.YR] xs ++ [Keyword.lexeme .MKAY]
  | .concat _ xs => Keyword.lexeme .SMOOSH :: listed [] xs ++ [Keyword.lexeme .MKAY]
  | .cast _ x t => Keyword.lexeme .MAEK :: lexemes x ++ Keyword.lexemes [.A, t.word]
  | .binary _ op x y => Keyword.lexemes op.words ++ lexemes x ++ Keyword.lexeme .AN :: lexemes y
  | .nary _ op xs => Keyword.lexemes op.words ++ listed [] xs ++ [Keyword.lexeme .MKAY]
  | .unary _ op x => Keyword.lexemes op.words ++ lexemes x
  | .pickAt _ i x => Keyword.lexeme .PICK :: lexemes i ++ Keyword.lexeme .OUTTA :: lexemes x
  | .pickFront _ x => Keyword.lexemes [.PICK, .FRONT, .OUTTA] ++ lexemes x
  | .pickBack _ x => Keyword.lexemes [.PICK, .BAK, .OUTTA] ++ lexemes x

/-- Expressions with `AN` between them and words in front of each. -/
def listed (lead : List Keyword) : List Expr → List Lexeme
  | [] => []
  | [x] => Keyword.lexemes lead ++ lexemes x
  | x :: y :: ys =>
    Keyword.lexemes lead ++ lexemes x ++ Keyword.lexeme .AN :: listed lead (y :: ys)

end

end Expr

def Initial.lexemes : Initial → List Lexeme
  | .absent => []
  | .value e => Keyword.lexeme .ITZ :: e.lexemes spell
  | .typed t => Keyword.lexemes [.ITZ, .A, t.word]

/-- Parameters with `AN` between them. -/
def Ident.listed : List Ident → List Lexeme
  | [] => []
  | [id] => [Keyword.lexeme .YR, id.lexeme]
  | id :: id' :: ids => Keyword.lexeme .YR :: id.lexeme :: Keyword.lexeme .AN :: Ident.listed (id' :: ids)

def LoopChange.lexeme : LoopChange → Lexeme
  | .up => Keyword.lexeme .UPPIN
  | .down => Keyword.lexeme .NERFIN
  | .apply f => f.lexeme

def LoopTest.lexemes : LoopTest → List Lexeme
  | .forever => []
  | .untilTrue e => Keyword.lexeme .TIL :: e.lexemes spell
  | .whileTrue e => Keyword.lexeme .WILE :: e.lexemes spell

def LoopUpdate.lexemes : Option LoopUpdate → List Lexeme
  | none => []
  | some u => u.change.lexeme :: Keyword.lexeme .YR :: u.counter.lexeme :: u.test.lexemes spell

mutual

/-- The lexemes of a statement, without the end of its line. -/
@[simp] def Stmt.lexemes : Stmt → List Lexeme
  | .assign _ id x => id.targetLexeme :: Keyword.lexeme .R :: x.lexemes spell
  | .declare _ id initial =>
    Keyword.lexemes [.I, .HAS, .A] ++ id.lexeme :: initial.lexemes spell
  | .load _ id => Keyword.lexemes [.CAN, .HAS] ++ [id.lexeme, .question]
  | .define _ id params (.mk _ body) =>
    Keyword.lexemes [.HOW, .IZ, .I] ++ id.lexeme :: Ident.listed params
      ++ .lineBreak :: Stmt.lexemesAll body ++ Keyword.lexemes [.IF, .U, .SAY, .SO]
  | .expr _ x => x.lexemes spell
  | .switch _ arms otherwise =>
    Keyword.lexeme .WTF :: .question :: .lineBreak :: Arm.lexemesAll .OMG arms
      ++ Block.lexemesOption [.OMGWTF] otherwise ++ [Keyword.lexeme .OIC]
  | .branch _ yes arms no =>
    Keyword.lexemes [.O, .RLY] ++ .question :: .lineBreak :: Block.lexemesOption [.YA, .RLY] yes
      ++ Arm.lexemesAll .MEBBE arms ++ Block.lexemesOption [.NO, .WAI] no ++ [Keyword.lexeme .OIC]
  | .cast _ id t => id.lexeme :: Keyword.lexemes [.IS, .NOW, .A, t.word]
  | .leave _ => [Keyword.lexeme .GTFO]
  | .loop _ label close update (.mk _ body) =>
    Keyword.lexemes [.IM, .IN, .YR] ++ label.lexeme :: LoopUpdate.lexemes spell update
      ++ .lineBreak :: Stmt.lexemesAll body
      ++ Keyword.lexemes [.IM, .OUTTA, .YR] ++ [close.lexeme]
  | .ret _ x => Keyword.lexemes [.FOUND, .YR] ++ x.lexemes spell
  | .print _ args newline =>
    Keyword.lexeme .VISIBLE :: Expr.listed spell [] args ++ if newline then [] else [.bang]
  | .read _ id => [Keyword.lexeme .GIMMEH, id.targetLexeme]
  | .append _ id x => Keyword.lexeme .PUT :: x.lexemes spell ++ Keyword.lexemes [.IN, .MAH] ++ [id.lexeme]
  | .store _ id i x =>
    Keyword.lexeme .PUT :: x.lexemes spell ++ Keyword.lexemes [.IN, .MAH]
      ++ id.lexeme :: Keyword.lexeme .AT :: i.lexemes spell

/-- Statements on lines of their own. -/
def Stmt.lexemesAll : List Stmt → List Lexeme
  | [] => []
  | s :: ss => Stmt.lexemes s ++ .lineBreak :: Stmt.lexemesAll ss

/-- A block behind the words that open it. -/
def Block.lexemesOption (lead : List Keyword) : Option Block → List Lexeme
  | none => []
  | some (.mk _ body) => Keyword.lexemes lead ++ .lineBreak :: Stmt.lexemesAll body

def Arm.lexemesAll (lead : Keyword) : List Arm → List Lexeme
  | [] => []
  | .mk test (.mk _ body) :: arms =>
    lead.lexeme :: test.lexemes spell ++ .lineBreak :: Stmt.lexemesAll body
      ++ Arm.lexemesAll lead arms

end

/-- The numbers in front of and behind the dot of a version. -/
def Text.versionParts (t : Text) : Text × Text :=
  (t.takeWhile (· != 0x2E), (t.dropWhile (· != 0x2E)).drop 1)

def Program.lexemes (p : Program) : List Lexeme :=
  let (major, minor) := p.version.versionParts
  Keyword.lexeme .HAI :: .number major :: .dot :: .number minor :: .lineBreak
    :: Stmt.lexemesAll spell p.body.stmts ++ [Keyword.lexeme .KTHXBYE, .lineBreak]

/-- The canonical text of a program. -/
def Program.render (p : Program) : Text :=
  Text.ofChars (Lexeme.joined (p.lexemes spell))

end

theorem isNumeral_ofInt (n : Int) : (Text.ofInt n).IsNumeral := by
  cases n with
  | ofNat n =>
    exact ⟨[], Nat.toDigits 10 n, .inl rfl, Nat.toDigits_ne_nil,
      fun _ => Text.isDigit_of_mem_decimal, rfl⟩
  | negSucc n =>
    exact ⟨_, Nat.toDigits 10 (n + 1), .inr rfl, Nat.toDigits_ne_nil,
      fun _ => Text.isDigit_of_mem_decimal, rfl⟩

/-- There is no dot in a number. -/
private theorem Text.IsNumeral.ne_dot {t : Text} (h : t.IsNumeral) : ∀ b ∈ t, (b != 0x2E) = true := by
  obtain ⟨sign, ds, hsign, -, hds, rfl⟩ := h
  refine List.forall_mem_append.2 ⟨?_, fun b hb => ?_⟩
  · rcases hsign with rfl | rfl
    · exact nofun
    · exact List.forall_mem_singleton.2 rfl
  · obtain ⟨d, hd, hb⟩ := List.mem_flatMap.1 hb
    have hdigit := digitOf?_digit (hds d hd)
    rw [Text.encodeChar_digit (hds d hd), List.mem_singleton] at hb
    refine bne_iff_ne.2 fun heq => ?_
    rw [← hb, heq] at hdigit
    cases hdigit

/-- The numbers of a version are found again. -/
theorem Text.versionParts_append {major minor : Text} (hmajor : major.IsNumeral) :
    (major ++ "." ++ minor).versionParts = (major, minor) := by
  have hdot : Text.ofString "." ++ minor = 0x2E :: minor := rfl
  rw [versionParts, List.append_assoc, hdot, List.takeWhile_append_of_pos hmajor.ne_dot,
    List.dropWhile_append_of_pos hmajor.ne_dot]
  simp

def Ident.unspanned (id : Ident) : Ident :=
  { id with span := .zero }

def Splice.unspanned (x : Splice) : Splice :=
  { x with name := x.name.unspanned }

namespace Expr

mutual

/-- The expression without regard to where it stands. -/
@[simp] def unspanned : Expr → Expr
  | .int _ v => .int .zero v
  | .float _ x => .float .zero x
  | .string _ t => .string .zero t
  | .interp _ t splices => .interp .zero t (splices.map Splice.unspanned)
  | .bool _ b => .bool .zero b
  | .null _ => .null .zero
  | .it _ => .it .zero
  | .var _ id => .var .zero id.unspanned
  | .list _ xs => .list .zero (unspannedAll xs)
  | .call _ id xs => .call .zero id.unspanned (unspannedAll xs)
  | .concat _ xs => .concat .zero (unspannedAll xs)
  | .cast _ x t => .cast .zero (unspanned x) t
  | .binary _ op x y => .binary .zero op (unspanned x) (unspanned y)
  | .nary _ op xs => .nary .zero op (unspannedAll xs)
  | .unary _ op x => .unary .zero op (unspanned x)
  | .pickAt _ i x => .pickAt .zero (unspanned i) (unspanned x)
  | .pickFront _ x => .pickFront .zero (unspanned x)
  | .pickBack _ x => .pickBack .zero (unspanned x)

def unspannedAll : List Expr → List Expr
  | [] => []
  | x :: xs => unspanned x :: unspannedAll xs

end

end Expr

def Initial.unspanned : Initial → Initial
  | .absent => .absent
  | .value e => .value e.unspanned
  | .typed t => .typed t

def LoopChange.unspanned : LoopChange → LoopChange
  | .up => .up
  | .down => .down
  | .apply f => .apply f.unspanned

def LoopTest.unspanned : LoopTest → LoopTest
  | .forever => .forever
  | .untilTrue e => .untilTrue e.unspanned
  | .whileTrue e => .whileTrue e.unspanned

def LoopUpdate.unspanned (u : LoopUpdate) : LoopUpdate :=
  ⟨u.change.unspanned, u.counter.unspanned, u.test.unspanned⟩

mutual

/-- The statement without regard to where it stands. -/
@[simp] def Stmt.unspanned : Stmt → Stmt
  | .assign _ id x => .assign .zero id.unspanned x.unspanned
  | .declare _ id initial => .declare .zero id.unspanned initial.unspanned
  | .load _ id => .load .zero id.unspanned
  | .define _ id params (.mk _ body) =>
    .define .zero id.unspanned (params.map Ident.unspanned) (.mk .zero (Stmt.unspannedAll body))
  | .expr _ x => .expr .zero x.unspanned
  | .switch _ arms otherwise =>
    .switch .zero (Arm.unspannedAll arms) (Block.unspannedOption otherwise)
  | .branch _ yes arms no =>
    .branch .zero (Block.unspannedOption yes) (Arm.unspannedAll arms) (Block.unspannedOption no)
  | .cast _ id t => .cast .zero id.unspanned t
  | .leave _ => .leave .zero
  | .loop _ label close update (.mk _ body) =>
    .loop .zero label.unspanned close.unspanned (update.map LoopUpdate.unspanned)
      (.mk .zero (Stmt.unspannedAll body))
  | .ret _ x => .ret .zero x.unspanned
  | .print _ args newline => .print .zero (Expr.unspannedAll args) newline
  | .read _ id => .read .zero id.unspanned
  | .append _ id x => .append .zero id.unspanned x.unspanned
  | .store _ id i x => .store .zero id.unspanned i.unspanned x.unspanned

def Stmt.unspannedAll : List Stmt → List Stmt
  | [] => []
  | s :: ss => Stmt.unspanned s :: Stmt.unspannedAll ss

def Block.unspannedOption : Option Block → Option Block
  | none => none
  | some (.mk _ body) => some (.mk .zero (Stmt.unspannedAll body))

def Arm.unspannedAll : List Arm → List Arm
  | [] => []
  | .mk test (.mk _ body) :: arms =>
    .mk test.unspanned (.mk .zero (Stmt.unspannedAll body)) :: Arm.unspannedAll arms

end

def Program.unspanned (p : Program) : Program :=
  ⟨.zero, p.version, .mk .zero (Stmt.unspannedAll p.body.stmts)⟩

/-- A value that a literal can be written for. -/
def Value.Rendered (spell : Numbar → Text × Text) : Value → Prop
  | .numbar x => x.SpelledBy (spell x).1 (spell x).2
  | .yarn t => t.isUtf8 = true
  | .interp (some t) =>
    t.text.isUtf8 = true ∧ t.misplaced? = none ∧ t.offsets ≠ [] ∧
      ∀ off ∈ t.offsets, t.text.IsBoundary off.toNat
  | .interp none | .bukkit _ | .unknown _ => False
  | .noob | .troof _ | .numbr _ | .funkshon _ => True

/-- What well-formed trees meet. Any name may stand in a string, also a reserved word. -/
def Criteria.rendered (spell : Numbar → Text × Text) : Criteria where
  literal := Value.Rendered spell
  span _ := True
  name := Text.IsIdentifier
  spliced t := Lexer.isName t = true
  operator := BinaryOp.IsWritten

/-- What a string can name: an identifier, or the implicit variable. -/
def Text.IsVariable (t : Text) : Prop :=
  t.IsIdentifier ∨ t = implicitName

/-- A string with variables in it has one at least, and their places are in order, each between two
characters. -/
def Value.Shaped : Value → Prop
  | .interp (some t) =>
    t.misplaced? = none ∧ t.offsets ≠ [] ∧ ∀ off ∈ t.offsets, t.text.IsBoundary off.toNat
  | _ => True

/-- The shape of well-formed trees, where the words that a string can name are given. -/
def Criteria.shaped (spliced : Text → Prop) : Criteria where
  literal := Value.Shaped
  span _ := True
  name := Text.IsIdentifier
  spliced := spliced
  operator _ := True

/-- A value that some literal stands for. A string is made of characters, so its bytes are UTF-8. -/
def Value.HasText (spell : Numbar → Text × Text) : Value → Prop
  | .numbar x => x.SpelledBy (spell x).1 (spell x).2
  | .yarn t => t.isUtf8 = true
  | .interp (some t) => t.text.isUtf8 = true
  | .interp none | .bukkit _ | .unknown _ => False
  | .noob | .troof _ | .numbr _ | .funkshon _ => True

/-- The leaves of trees that can be written. The strict orderings and their converses have no words:
they come only from folded comparisons. -/
def Criteria.worded (spell : Numbar → Text × Text) : Criteria where
  literal := Value.HasText spell
  span _ := True
  name _ := True
  spliced _ := True
  operator := BinaryOp.IsWritten

/-- A condition on the words that strings name. -/
def Criteria.splicing (spliced : Text → Prop) : Criteria where
  literal _ := True
  span _ := True
  name _ := True
  spliced := spliced
  operator _ := True

namespace Program

variable (spell : Numbar → Text × Text) (p : Program)

/-- Names are identifiers, something is joined and printed, loops are closed under their own names,
strings with variables are in order, and the variables are identifiers or the implicit one. -/
def WellFormed : Prop :=
  Stmt.MeetsAll (.shaped Text.IsVariable) p.body.stmts

/-- A program that is well formed, but for strings that may name any word. -/
def Shaped : Prop :=
  Stmt.MeetsAll (.shaped fun t => Lexer.isName t = true) p.body.stmts

/-- Strings name variables only. -/
def SplicesVariables : Prop :=
  Stmt.MeetsAll (.splicing Text.IsVariable) p.body.stmts

/-- The leaves of a program can be written, with fractions in a given form, and its version too. -/
def HasText : Prop :=
  p.Meets (.worded spell)

end Program

/-- Lexemes that can all be written. -/
def Lexeme.AllWritable (ls : List Lexeme) : Prop :=
  ∀ l ∈ ls, l.Writable

namespace Lexeme.AllWritable

variable {l : Lexeme} {ls ms : List Lexeme}

theorem nil : AllWritable [] :=
  nofun

theorem cons (hl : l.Writable) (hls : AllWritable ls) : AllWritable (l :: ls) :=
  List.forall_mem_cons.2 ⟨hl, hls⟩

theorem single (hl : l.Writable) : AllWritable [l] :=
  cons hl nil

theorem append (hls : AllWritable ls) (hms : AllWritable ms) : AllWritable (ls ++ ms) :=
  List.forall_mem_append.2 ⟨hls, hms⟩

theorem line (hls : AllWritable ls) : AllWritable (.lineBreak :: ls) :=
  cons trivial hls

theorem question (hls : AllWritable ls) : AllWritable (.question :: ls) :=
  cons trivial hls

end Lexeme.AllWritable

open Lexeme (AllWritable)

theorem Keyword.writable (k : Keyword) : k.lexeme.Writable :=
  rfl

theorem Keyword.allWritable (ks : List Keyword) : AllWritable (Keyword.lexemes ks) := by
  intro l hl
  obtain ⟨k, -, rfl⟩ := List.mem_map.1 hl
  exact k.writable

variable {spell : Numbar → Text × Text}

theorem Ident.Meets.writable {id : Ident} (h : id.Meets (.rendered spell)) : id.lexeme.Writable :=
  h.2

theorem Ident.MeetsTarget.writable {id : Ident} (h : id.MeetsTarget (.rendered spell)) :
    id.targetLexeme.Writable := by
  rw [targetLexeme]
  split
  · exact Keyword.writable _
  · rename_i hne
    exact h.2.resolve_right hne

private theorem Splice.writable {t : Text} {splices : List Splice}
    (ht : Value.Rendered spell (.interp (some (Splice.template t splices))))
    (h : ∀ x ∈ splices, x.Meets (.rendered spell)) :
    (Lexeme.string t (splices.map Splice.insertion)).Writable := by
  obtain ⟨hutf8, hordered, -, hplaces⟩ := ht
  have hoffsets : Insertion.offsets (splices.map Splice.insertion) =
      (Splice.template t splices).offsets := by
    rw [Insertion.offsets, List.map_map]
    rfl
  refine ⟨hutf8, hoffsets ▸ hordered, fun i hi => ?_⟩
  obtain ⟨x, hx, rfl⟩ := List.mem_map.1 hi
  exact ⟨hplaces x.offset (List.mem_map.2 ⟨x, hx, rfl⟩), (h x hx).2, rfl⟩

namespace Expr

mutual

theorem Meets.writable : ∀ {x : Expr}, x.Meets (.rendered spell) → AllWritable (x.lexemes spell)
  | .int _ v, _ => .single (isNumeral_ofInt v.toInt)
  | .float _ _, h => .cons h.2.numeral (.cons trivial (.single h.2.places))
  | .string _ _, h => .single ⟨h.2, rfl, nofun⟩
  | .interp _ _ _, h => .single (Splice.writable h.2.1 h.2.2)
  | .bool _ _, _ | .null _, _ | .it _, _ => .single (Keyword.writable _)
  | .var _ _, h => .single h.2.writable
  | .list _ _, h => ((Keyword.allWritable _).append (MeetsAll.writable h.2)).append
      (.single (Keyword.writable _))
  | .call _ _ _, h => ((Keyword.allWritable _).append
      (.cons h.2.1.writable (MeetsAll.writable h.2.2))).append (.single (Keyword.writable _))
  | .concat _ _, h => (AllWritable.cons (Keyword.writable _) (MeetsAll.writable h.2.1)).append
      (.single (Keyword.writable _))
  | .cast _ _ _, h => (AllWritable.cons (Keyword.writable _) (Meets.writable h.2)).append
      (Keyword.allWritable _)
  | .binary _ _ _ _, h => ((Keyword.allWritable _).append (Meets.writable h.2.1.1)).append
      (.cons (Keyword.writable _) (Meets.writable h.2.1.2))
  | .nary _ _ _, h => ((Keyword.allWritable _).append (MeetsAll.writable h.2)).append
      (.single (Keyword.writable _))
  | .unary _ _ _, h | .pickFront _ _, h | .pickBack _ _, h =>
    (Keyword.allWritable _).append (Meets.writable h.2)
  | .pickAt _ _ _, h => (AllWritable.cons (Keyword.writable _) (Meets.writable h.2.1)).append
      (.cons (Keyword.writable _) (Meets.writable h.2.2))

theorem MeetsAll.writable {lead : List Keyword} : ∀ {xs : List Expr},
    MeetsAll (.rendered spell) xs → AllWritable (listed spell lead xs)
  | [], _ => .nil
  | [_], h => (Keyword.allWritable _).append (Meets.writable h.1)
  | _ :: _ :: _, h => ((Keyword.allWritable _).append (Meets.writable h.1)).append
      (.cons (Keyword.writable _) (MeetsAll.writable h.2))

end

end Expr

private theorem Initial.Meets.writable {i : Initial} (h : i.Meets (.rendered spell)) :
    AllWritable (i.lexemes spell) := by
  cases i with
  | absent => exact .nil
  | value e => exact .cons (Keyword.writable _) (Expr.Meets.writable h)
  | typed t => exact Keyword.allWritable _

private theorem Ident.allWritable : ∀ {ids : List Ident}, (∀ id ∈ ids, id.Meets (.rendered spell)) →
    AllWritable (Ident.listed ids)
  | [], _ => .nil
  | [_], h => .cons (Keyword.writable _) (.single (List.forall_mem_cons.1 h).1.writable)
  | _ :: _ :: _, h =>
    .cons (Keyword.writable _) (.cons (List.forall_mem_cons.1 h).1.writable
      (.cons (Keyword.writable _) (Ident.allWritable (List.forall_mem_cons.1 h).2)))

private theorem LoopUpdate.allWritable {update : Option LoopUpdate}
    (h : ∀ u ∈ update, u.Meets (.rendered spell)) :
    AllWritable (LoopUpdate.lexemes spell update) := by
  cases update with
  | none => exact .nil
  | some u =>
    obtain ⟨hchange, hcounter, htest⟩ := h u rfl
    refine .cons ?_ (.cons (Keyword.writable _) (.cons hcounter.writable ?_))
    · cases hu : u.change with
      | up | down => exact Keyword.writable _
      | apply f =>
        rw [hu] at hchange
        exact Ident.Meets.writable hchange
    · cases hu : u.test with
      | forever => exact .nil
      | untilTrue e | whileTrue e =>
        rw [hu] at htest
        exact .cons (Keyword.writable _) (Expr.Meets.writable htest)

mutual

theorem Stmt.Meets.writable : ∀ {s : Stmt}, s.Meets (.rendered spell) →
    AllWritable (s.lexemes spell)
  | .assign _ _ _, h => .cons h.2.1.writable (.cons (Keyword.writable _) h.2.2.writable)
  | .declare _ _ _, h => (Keyword.allWritable _).append (.cons h.2.1.writable h.2.2.writable)
  | .load _ _, h => (Keyword.allWritable _).append (.cons h.2.writable (.single trivial))
  | .define _ _ _ (.mk _ _), h => (((Keyword.allWritable _).append
      (.cons h.2.1.writable (Ident.allWritable h.2.2.2))).append
      (.line (Stmt.MeetsAll.writable h.2.2.1))).append (Keyword.allWritable _)
  | .expr _ _, h => h.2.writable
  | .switch _ _ _, h => ((AllWritable.cons (Keyword.writable _) (.question (.line
      (Arm.MeetsAll.writable h.2.1)))).append (Block.MeetsOption.writable h.2.2)).append
      (.single (Keyword.writable _))
  | .branch _ _ _ _, h => ((((Keyword.allWritable _).append (.question (.line
      (Block.MeetsOption.writable h.2.1)))).append (Arm.MeetsAll.writable h.2.2.1)).append
      (Block.MeetsOption.writable h.2.2.2)).append (.single (Keyword.writable _))
  | .cast _ _ _, h => .cons h.2.writable (Keyword.allWritable _)
  | .leave _, _ => .single (Keyword.writable _)
  | .loop _ label close _ (.mk _ _), h => by
    have hclose : close.lexeme.Writable := by
      rw [Ident.lexeme, h.2.2.2.2]
      exact h.2.2.2.1.writable
    exact ((((Keyword.allWritable _).append (.cons h.2.2.2.1.writable
      (LoopUpdate.allWritable h.2.1))).append (.line
      (Stmt.MeetsAll.writable h.2.2.1))).append (Keyword.allWritable _)).append (.single hclose)
  | .ret _ _, h => (Keyword.allWritable _).append h.2.writable
  | .print _ _ newline, h => by
    refine (AllWritable.cons (Keyword.writable _) h.2.1.writable).append ?_
    cases newline with
    | true => exact .nil
    | false => exact .single trivial
  | .read _ _, h => .cons (Keyword.writable _) (.single h.2.writable)
  | .append _ _ _, h => ((AllWritable.cons (Keyword.writable _) h.2.2.writable).append
      (Keyword.allWritable _)).append (.single h.2.1.writable)
  | .store _ _ _ _, h => ((AllWritable.cons (Keyword.writable _) h.2.2.2.writable).append
      (Keyword.allWritable _)).append
      (.cons h.2.1.writable (.cons (Keyword.writable _) h.2.2.1.writable))

theorem Stmt.MeetsAll.writable : ∀ {ss : List Stmt}, Stmt.MeetsAll (.rendered spell) ss →
    AllWritable (Stmt.lexemesAll spell ss)
  | [], _ => .nil
  | _ :: _, h => (Stmt.Meets.writable h.1).append (.line (Stmt.MeetsAll.writable h.2))

theorem Block.MeetsOption.writable {lead : List Keyword} : ∀ {block : Option Block},
    Block.MeetsOption (.rendered spell) block → AllWritable (Block.lexemesOption spell lead block)
  | none, _ => .nil
  | some (.mk _ _), h => (Keyword.allWritable _).append (.line (Stmt.MeetsAll.writable h))

theorem Arm.MeetsAll.writable {lead : Keyword} : ∀ {arms : List Arm},
    Arm.MeetsAll (.rendered spell) arms → AllWritable (Arm.lexemesAll spell lead arms)
  | [], _ => .nil
  | .mk _ (.mk _ _) :: _, h => ((AllWritable.cons (Keyword.writable _) h.1.writable).append
      (.line (Stmt.MeetsAll.writable h.2.1))).append (Arm.MeetsAll.writable h.2.2)

end

theorem Program.Meets.writable {p : Program} (h : p.Meets (.rendered spell)) :
    AllWritable (p.lexemes spell) := by
  obtain ⟨-, hbody, major, minor, hmajor, hminor, hversion⟩ := h
  rw [lexemes, hversion, Text.versionParts_append hmajor]
  refine .append (.cons (Keyword.writable _) (.cons hmajor (.cons trivial (.cons hminor
    (.cons trivial hbody.writable))))) (.cons (Keyword.writable _) (.single trivial))

end LolToolchain
