import LolToolchain.Proofs.Program.Rendering
import LolToolchain.Proofs.Token.Extents

/-!
The tokens that the nodes of a program tree are written with. A node has parts, tokens and smaller
nodes, that stand one behind another in the text, and its span runs from the first of its tokens to
the last; only a block leaves out the line breaks around its statements. Such spans mirror the tree:
the children of a node lie inside it, one behind another.
-/
namespace LolToolchain.Grammar

/-- The nodes of a program tree. -/
inductive Node where
  | name (id : Ident)
  | expr (x : Expr)
  | stmt (s : Stmt)
  | block (b : Block)
  | program (p : Program)

/-- What a node is written with. -/
inductive Piece where
  /-- A token of one of these classes. -/
  | token (kinds : List TokenKind)
  /-- A token of a class, which may be left out. -/
  | optional (kind : TokenKind)
  /-- Any number of line breaks. -/
  | breaks
  /-- A string that names variables. -/
  | inside (names : List Ident)
  | node (n : Node)

/-- Reserved words. -/
def words (ks : List Keyword) : List Piece :=
  ks.map fun k => .token [.keyword k]

/-- Expressions behind words; AN may follow each of them. -/
def listed (lead : List Keyword) (xs : List Expr) : List Piece :=
  xs.flatMap fun x => words lead ++ [Piece.node (.expr x), Piece.optional (.keyword .AN)]

/-- A block on the lines below. -/
def body (b : Block) : List Piece :=
  [.token [.lineBreak], .breaks, .node (.block b)]

/-- A block behind the words that open it, or none. -/
def optionalBody (lead : List Keyword) : Option Block → List Piece
  | none => []
  | some b => words lead ++ body b

def armParts (lead : Keyword) (arms : List Arm) : List Piece :=
  arms.flatMap fun a => words [lead] ++ [Piece.node (.expr a.test)] ++ body a.body

def initialParts : Initial → List Piece
  | .absent => []
  | .value e => words [.ITZ] ++ [.node (.expr e)]
  | .typed t => words [.ITZ, .A, t.word]

def params (ids : List Ident) : List Piece :=
  ids.flatMap fun id => words [.YR] ++ [Piece.node (.name id), Piece.optional (.keyword .AN)]

def changeParts : LoopChange → List Piece
  | .up => words [.UPPIN]
  | .down => words [.NERFIN]
  | .apply f => [.node (.name f)]

def testParts : LoopTest → List Piece
  | .forever => []
  | .untilTrue e => words [.TIL] ++ [.node (.expr e)]
  | .whileTrue e => words [.WILE] ++ [.node (.expr e)]

def updateParts : Option LoopUpdate → List Piece
  | none => []
  | some u => changeParts u.change ++ words [.YR] ++ [.node (.name u.counter)] ++ testParts u.test

def exprParts : Expr → List Piece
  | .int _ _ => [.token [.number]]
  | .float _ _ => [.token [.number], .token [.dot], .token [.number]]
  | .string _ _ => [.token [.string]]
  | .interp _ _ splices => [.inside (splices.map Splice.name)]
  | .bool _ b => words [if b then .WIN else .FAIL]
  | .null _ => words [.NOOB]
  | .it _ => words [.IT]
  | .var _ id => [.node (.name id)]
  | .list _ xs =>
    words [.BUKKIT] ++ [.optional (.keyword .OF)] ++ listed [] xs ++ [.optional (.keyword .MKAY)]
  | .call _ f xs => words [.I, .IZ] ++ [.node (.name f)] ++ listed [.YR] xs ++ words [.MKAY]
  | .concat _ xs => words [.SMOOSH] ++ listed [] xs ++ [.optional (.keyword .MKAY)]
  | .cast _ x t =>
    words [.MAEK] ++ [.node (.expr x)] ++ [.optional (.keyword .A)] ++ words [t.word]
  | .binary _ op x y =>
    words op.words ++ [.node (.expr x)] ++ [.optional (.keyword .AN)] ++ [.node (.expr y)]
  | .nary _ op xs => words op.words ++ listed [] xs ++ words [.MKAY]
  | .unary _ op x => words op.words ++ [.node (.expr x)]
  | .pickAt _ i x => words [.PICK] ++ [.node (.expr i)] ++ words [.OUTTA] ++ [.node (.expr x)]
  | .pickFront _ x => words [.PICK, .FRONT, .OUTTA] ++ [.node (.expr x)]
  | .pickBack _ x => words [.PICK, .BAK, .OUTTA] ++ [.node (.expr x)]

def stmtParts : Stmt → List Piece
  | .assign _ id x => [.node (.name id)] ++ words [.R] ++ [.node (.expr x)]
  | .declare _ id initial => words [.I, .HAS, .A] ++ [.node (.name id)] ++ initialParts initial
  | .load _ id => words [.CAN, .HAS] ++ [.node (.name id)] ++ [.token [.question]]
  | .define _ id ids b =>
    words [.HOW, .IZ, .I] ++ [.node (.name id)] ++ params ids ++ body b ++ words [.IF, .U, .SAY, .SO]
  | .expr _ x => [.node (.expr x)]
  | .switch _ arms otherwise =>
    words [.WTF] ++ [.token [.question]] ++ [.token [.lineBreak], .breaks] ++ armParts .OMG arms
      ++ optionalBody [.OMGWTF] otherwise ++ words [.OIC]
  | .branch _ yes arms no =>
    words [.O, .RLY] ++ [.token [.question]] ++ [.token [.lineBreak], .breaks]
      ++ optionalBody [.YA, .RLY] yes ++ armParts .MEBBE arms ++ optionalBody [.NO, .WAI] no
      ++ words [.OIC]
  | .cast _ id t => [.node (.name id)] ++ words [.IS, .NOW, .A] ++ words [t.word]
  | .leave _ => words [.GTFO]
  | .loop _ label close update b =>
    words [.IM, .IN, .YR] ++ [.node (.name label)] ++ updateParts update ++ body b
      ++ words [.IM, .OUTTA, .YR] ++ [.node (.name close)]
  | .ret _ x => words [.FOUND, .YR] ++ [.node (.expr x)]
  | .print _ xs newline =>
    words [.VISIBLE] ++ listed [] xs ++ if newline then [] else [.token [.bang]]
  | .read _ id => words [.GIMMEH] ++ [.node (.name id)]
  | .append _ id x =>
    words [.PUT] ++ [.node (.expr x)] ++ words [.IN, .MAH] ++ [.node (.name id)]
  | .store _ id i x =>
    words [.PUT] ++ [.node (.expr x)] ++ words [.IN, .MAH] ++ [.node (.name id)] ++ words [.AT]
      ++ [.node (.expr i)]

/-- Statements on lines of their own. -/
def lines (ss : List Stmt) : List Piece :=
  ss.flatMap fun s => [.node (.stmt s), .breaks]

def programParts (p : Program) : List Piece :=
  words [.HAI] ++ [Piece.token [.number]] ++ [Piece.token [.dot]] ++ [Piece.token [.number]]
    ++ body p.body ++ words [.KTHXBYE]

namespace Node

/-- The parts of a node in the order of the text. A name that is written to may be IT. -/
def parts : Node → List Piece
  | .name _ => [.token [.identifier, .keyword .IT]]
  | .expr x => exprParts x
  | .stmt s => stmtParts s
  | .block b => lines b.stmts
  | .program p => programParts p

def span : Node → Span
  | .name id => id.span
  | .expr x => x.span
  | .stmt s => s.span
  | .block b => b.span
  | .program p => p.span

/-- The span of a node that is written with some tokens: from the first to the last of them. A block
runs from its first statement to its last, and without statements it is empty and stands in front of
the next token. -/
def SpansOver (ts : List Token) (next : Token) : Node → Prop
  | .block b =>
    match b.stmts with
    | [] => b.span = ⟨next.span.start, next.span.start, next.span.file⟩
    | s :: ss => b.span = ⟨s.span.start, (ss.getLast?.getD s).span.stop, s.span.file⟩
  | n => ∃ first last, ts.head? = some first ∧ ts.getLast? = some last ∧
    n.span = ⟨first.span.start, last.span.stop, first.span.file⟩

end Node

/-- Tokens that some parts are written with one behind another, in front of a token. -/
inductive Reads : List Piece → List Token → Token → Prop
  | nil (next : Token) : Reads [] [] next
  | token {kinds : List TokenKind} {t : Token} {ps : List Piece} {ts : List Token} {next : Token}
    (h : t.kind ∈ kinds) (hrest : Reads ps ts next) : Reads (.token kinds :: ps) (t :: ts) next
  | taken {t : Token} {ps : List Piece} {ts : List Token} {next : Token}
    (hrest : Reads ps ts next) : Reads (.optional t.kind :: ps) (t :: ts) next
  | omitted {kind : TokenKind} {ps : List Piece} {ts : List Token} {next : Token}
    (hrest : Reads ps ts next) : Reads (.optional kind :: ps) ts next
  | breaks {bs : List Token} {ps : List Piece} {ts : List Token} {next : Token}
    (h : ∀ t ∈ bs, t.kind = .lineBreak) (hrest : Reads ps ts next) :
    Reads (.breaks :: ps) (bs ++ ts) next
  | inside {ids : List Ident} {t : Token} {ps : List Piece} {ts : List Token} {next : Token}
    (hkind : t.kind = .interpolated) (h : ids.map Ident.span = t.insertions.map Insertion.span)
    (hrest : Reads ps ts next) : Reads (.inside ids :: ps) (t :: ts) next
  | node {n : Node} {ps : List Piece} {ts us : List Token} {next : Token}
    (hparts : Reads n.parts ts (us.headD next)) (hspan : n.SpansOver ts (us.headD next))
    (hrest : Reads ps us next) : Reads (.node n :: ps) (ts ++ us) next

/-- The nodes that are parts, or stand inside them. -/
def Piece.nodes : Piece → List Node
  | .inside ids => ids.map .name
  | .node n => [n]
  | _ => []

/-- The children of a node in the order of the text. -/
def Node.children (n : Node) : List Node :=
  n.parts.flatMap Piece.nodes

/-- A node of a source whose children lie inside it, one behind another, and are such nodes. -/
inductive Node.Nested (file : Int) : Node → Prop
  | mk {n : Node} (hfile : n.span.file = file)
    (hrow : Span.Row n.span.start (n.children.map Node.span) n.span.stop)
    (hchildren : ∀ m ∈ n.children, Nested file m) : Nested file n

/-- A token of a source with its variables inside it. -/
structure Sound (file : Int) (t : Token) : Prop where
  source : t.span.file = file
  inside : Span.Row t.span.start (t.insertions.map Insertion.span) t.span.stop
  sources : ∀ i ∈ t.insertions, i.span.file = file

/-- Every block is followed by a token of the node that it is a part of. -/
def Shut : List Piece → Prop
  | [] => True
  | .node (.block _) :: ps => (∃ kinds, .token kinds ∈ ps) ∧ Shut ps
  | _ :: ps => Shut ps

section Shut

variable {ps qs : List Piece}

theorem shut_append (hq : Shut qs) (htoken : ∃ kinds, .token kinds ∈ qs) : Shut (ps ++ qs) := by
  obtain ⟨kinds, hkinds⟩ := htoken
  fun_induction Shut ps with
  | case1 => exact hq
  | case2 b ps ih => exact ⟨⟨kinds, List.mem_append_right _ hkinds⟩, ih⟩
  | case3 p ps hp ih =>
    cases p with
    | node n =>
      cases n with
      | block b => exact absurd rfl (hp b)
      | _ => exact ih
    | _ => exact ih

theorem shut_of_forall (h : ∀ b, .node (.block b) ∉ ps) : Shut ps := by
  fun_induction Shut ps with
  | case1 => trivial
  | case2 b ps ih => exact absurd List.mem_cons_self (h b)
  | case3 p ps hp ih => exact ih fun b hb => h b (List.mem_cons_of_mem _ hb)

end Shut

private theorem shut_words (ks : List Keyword) : Shut (words ks) := by
  refine shut_of_forall fun b hb => ?_
  obtain ⟨k, -, hk⟩ := List.mem_map.1 hb
  cases hk

private theorem shut_append_word (ps : List Piece) (k : Keyword) (ks : List Keyword) :
    Shut (ps ++ words (k :: ks)) :=
  shut_append (shut_words _) ⟨_, List.mem_cons_self⟩

theorem not_block_mem_words {ks : List Keyword} {b : Block} : .node (.block b) ∉ words ks := by
  intro hb
  obtain ⟨k, -, hk⟩ := List.mem_map.1 hb
  cases hk

theorem not_block_mem_listed {lead : List Keyword} {xs : List Expr} {b : Block} :
    .node (.block b) ∉ listed lead xs := by
  intro hb
  obtain ⟨x, -, hx⟩ := List.mem_flatMap.1 hb
  rcases List.mem_append.1 hx with hx | hx
  · exact not_block_mem_words hx
  · simp at hx

/-- No expression is written with a block. -/
private theorem not_block_mem_exprParts (x : Expr) (b : Block) : .node (.block b) ∉ exprParts x := by
  cases x <;>
    simp [exprParts, not_block_mem_words, not_block_mem_listed]

theorem shut_parts (n : Node) : Shut n.parts := by
  cases n with
  | name id => trivial
  | expr x => exact shut_of_forall (not_block_mem_exprParts x)
  | block b =>
    refine shut_of_forall fun b' hb' => ?_
    obtain ⟨s, -, hs⟩ := List.mem_flatMap.1 hb'
    simp at hs
  | program p => exact shut_append_word _ _ _
  | stmt s =>
    cases s with
    | define | switch | branch => exact shut_append_word _ _ _
    | loop =>
      rw [Node.parts, stmtParts, List.append_assoc]
      exact shut_append (shut_of_forall (by simp [not_block_mem_words])) ⟨_, List.mem_cons_self⟩
    | declare span id initial =>
      cases initial <;>
        exact shut_of_forall (by simp [Node.parts, stmtParts, initialParts, not_block_mem_words])
    | print span xs newline =>
      cases newline <;>
        exact shut_of_forall (by simp [Node.parts, stmtParts, not_block_mem_words, not_block_mem_listed])
    | _ => exact shut_of_forall (by simp [Node.parts, stmtParts, not_block_mem_words])

theorem children_block (b : Block) : (Node.block b).children = b.stmts.map .stmt := by
  change (lines b.stmts).flatMap Piece.nodes = _
  induction b.stmts with
  | nil => rfl
  | cons s ss ih => exact congrArg (Node.stmt s :: ·) ih

namespace Reads

variable {file : Int} {ps : List Piece} {ts : List Token} {next : Token}

/-- A block that is followed by a token has that token behind it. -/
private theorem ne_nil (h : Reads ps ts next) (htoken : ∃ kinds, .token kinds ∈ ps) : ts ≠ [] := by
  obtain ⟨kinds, hkinds⟩ := htoken
  induction h with
  | nil => cases hkinds
  | token | inside => exact List.cons_ne_nil _ _
  | taken => exact List.cons_ne_nil _ _
  | omitted _ ih =>
    rcases List.mem_cons.1 hkinds with hkinds | hkinds
    · cases hkinds
    · exact ih hkinds
  | breaks _ _ ih | node _ _ _ _ ih =>
    rcases List.mem_cons.1 hkinds with hkinds | hkinds
    · cases hkinds
    · exact List.append_ne_nil_of_right_ne_nil _ (ih hkinds)

end Reads

section Nested

variable {file lo hi : Int} {ts us : List Token} {next : Token}

/-- Names have no children. -/
private theorem nested_name {id : Ident} (hfile : id.span.file = file)
    (hordered : id.span.start ≤ id.span.stop) : (Node.name id).Nested file :=
  .mk hfile hordered nofun

/-- A node from its first token to its last holds its children if its tokens do. -/
private theorem nested_of_tokens {n : Node} {first last : Token} (hfirst : ts.head? = some first)
    (hlast : ts.getLast? = some last)
    (hspan : n.span = ⟨first.span.start, last.span.stop, first.span.file⟩)
    (hrow : Span.Row lo (ts.map Token.span) hi) (hsound : ∀ t ∈ ts, Sound file t)
    (h : ∀ {lo hi : Int}, Span.Row lo (ts.map Token.span) hi →
      Span.Row lo (n.children.map Node.span) hi ∧ ∀ m ∈ n.children, m.Nested file) :
    n.Nested file ∧ Span.Row lo [n.span] hi := by
  cases ts with
  | nil => cases hfirst
  | cons t ts =>
    obtain rfl : t = first := Option.some.inj hfirst
    have hstop : ((ts.map Token.span).getLast?.getD t.span).stop = last.span.stop := by
      rw [List.getLast?_cons] at hlast
      rw [← Option.some.inj hlast, List.getLast?_map]
      cases ts.getLast? <;> rfl
    obtain ⟨htight, hle⟩ := hrow.tighten
    rw [hstop] at htight hle
    obtain ⟨hchildren, hnested⟩ := h htight
    have hfile := (hsound t List.mem_cons_self).source
    rw [hspan]
    refine ⟨.mk (by rw [hspan]; exact hfile) (by rw [hspan]; exact hchildren) hnested,
      hrow.1, htight.le, hle⟩

/-- A block with statements runs from the first to the last of them. -/
private theorem nested_of_stmts {b : Block} {s : Stmt} {ss : List Stmt} (hstmts : b.stmts = s :: ss)
    (hspan : b.span = ⟨s.span.start, (ss.getLast?.getD s).span.stop, s.span.file⟩)
    (hrow : Span.Row lo ((Node.block b).children.map Node.span) hi)
    (hnested : ∀ m ∈ (Node.block b).children, m.Nested file) :
    (Node.block b).Nested file ∧ Span.Row lo [b.span] hi := by
  have hchildren : (Node.block b).children = .stmt s :: ss.map .stmt := by
    rw [children_block, hstmts, List.map_cons]
  have hstop : (((ss.map Node.stmt).map Node.span).getLast?.getD (Node.stmt s).span).stop =
      (ss.getLast?.getD s).span.stop := by
    rw [List.map_map, List.getLast?_map]
    cases ss.getLast? <;> rfl
  rw [hchildren] at hrow hnested
  obtain ⟨htight, hle⟩ := hrow.tighten
  rw [hstop] at htight hle
  have hfile : s.span.file = file := by
    cases hnested (.stmt s) List.mem_cons_self with
    | mk hfile => exact hfile
  rw [hspan]
  refine ⟨.mk (by rw [Node.span, hspan]; exact hfile) ?_ (by rw [hchildren]; exact hnested),
    hrow.1, htight.le, hle⟩
  rw [hchildren, Node.span, hspan]
  exact htight

/-- A block without statements is empty. -/
private theorem nested_of_empty {b : Block} {t : Token} (hstmts : b.stmts = [])
    (hspan : b.span = ⟨t.span.start, t.span.start, t.span.file⟩) (hfile : t.span.file = file) :
    (Node.block b).Nested file := by
  have hchildren : (Node.block b).children = [] := by rw [children_block, hstmts, List.map_nil]
  refine .mk (by rw [Node.span, hspan]; exact hfile) ?_ (by rw [hchildren]; nofun)
  rw [hchildren, Node.span, hspan]
  exact Int.le_refl _

/-- The nodes among parts stand one behind another, and their children inside them. -/
theorem Reads.nested {ps : List Piece} (h : Reads ps ts next) (hshut : Shut ps)
    (hrow : Span.Row lo (ts.map Token.span) hi) (hsound : ∀ t ∈ ts, Sound file t) :
    Span.Row lo ((ps.flatMap Piece.nodes).map Node.span) hi ∧
      ∀ m ∈ ps.flatMap Piece.nodes, m.Nested file := by
  induction h generalizing lo hi with
  | nil => exact ⟨hrow, nofun⟩
  | token _ _ ih | taken _ ih =>
    obtain ⟨-, htail⟩ := List.forall_mem_cons.1 hsound
    obtain ⟨hnodes, hnested⟩ := ih hshut hrow.2.2 htail
    exact ⟨hnodes.lower (Int.le_trans hrow.1 hrow.2.1), hnested⟩
  | omitted _ ih => exact ih hshut hrow hsound
  | breaks _ _ ih =>
    rw [List.map_append] at hrow
    obtain ⟨mid, hbreaks, hrest⟩ := hrow.split
    obtain ⟨hnodes, hnested⟩ := ih hshut hrest fun t ht => hsound t (List.mem_append_right _ ht)
    exact ⟨hnodes.lower hbreaks.le, hnested⟩
  | @inside ids t ps ts next _ hids _ ih =>
    obtain ⟨ht, htail⟩ := List.forall_mem_cons.1 hsound
    obtain ⟨hnodes, hnested⟩ := ih hshut hrow.2.2 htail
    have hspans : (ids.map Node.name).map Node.span = t.insertions.map Insertion.span := by
      rw [List.map_map, ← hids]
      rfl
    have hinside : Span.Row lo ((ids.map Node.name).map Node.span) t.span.stop := by
      rw [hspans]
      exact ht.inside.lower hrow.1
    rw [List.flatMap_cons, List.map_append]
    refine ⟨hinside.append hnodes, List.forall_mem_append.2 ⟨fun m hm => ?_, hnested⟩⟩
    obtain ⟨id, hid, rfl⟩ := List.mem_map.1 hm
    have hspan : id.span ∈ t.insertions.map Insertion.span := hids ▸ List.mem_map_of_mem hid
    obtain ⟨i, hi, hspan'⟩ := List.mem_map.1 hspan
    exact nested_name (hspan' ▸ ht.sources i hi) (ht.inside.le_of_mem hspan)
  | @node n ps ts us next _ hspan hrest ihparts ih =>
    rw [List.map_append] at hrow
    obtain ⟨mid, hts, hus⟩ := hrow.split
    have hsoundts : ∀ t ∈ ts, Sound file t := fun t ht => hsound t (List.mem_append_left _ ht)
    have hsoundus : ∀ t ∈ us, Sound file t := fun t ht => hsound t (List.mem_append_right _ ht)
    have hparts {lo hi : Int} (hrow : Span.Row lo (ts.map Token.span) hi) :
        Span.Row lo (n.children.map Node.span) hi ∧ ∀ m ∈ n.children, m.Nested file :=
      ihparts (shut_parts n) hrow hsoundts
    have hcons (hn : n.Nested file ∧ Span.Row lo [n.span] mid) (hps : Shut ps) :
        Span.Row lo (((Piece.node n :: ps).flatMap Piece.nodes).map Node.span) hi ∧
          ∀ m ∈ (Piece.node n :: ps).flatMap Piece.nodes, m.Nested file := by
      obtain ⟨hnodes, hnested⟩ := ih hps hus hsoundus
      exact ⟨hn.2.append hnodes, List.forall_mem_cons.2 ⟨hn.1, hnested⟩⟩
    cases n with
    | block b =>
      obtain ⟨hchildren, hnested⟩ := hparts hts
      cases hstmts : b.stmts with
      | cons s ss =>
        rw [Node.SpansOver, hstmts] at hspan
        exact hcons (nested_of_stmts hstmts hspan hchildren hnested) hshut.2
      | nil =>
        rw [Node.SpansOver, hstmts] at hspan
        cases us with
        | nil => exact absurd rfl (hrest.ne_nil hshut.1)
        | cons u us =>
          -- The block is empty in front of the token behind it, so the row goes on from there.
          obtain ⟨hnodes, hrests⟩ := ih hshut.2 ⟨Int.le_refl u.span.start, hus.2⟩ hsoundus
          have hblock := nested_of_empty hstmts hspan (hsoundus u List.mem_cons_self).source
          refine ⟨⟨?_, ?_, ?_⟩, List.forall_mem_cons.2 ⟨hblock, hrests⟩⟩
          · rw [Node.span, hspan]
            exact Int.le_trans hts.le hus.1
          · exact Int.le_of_eq (by rw [Node.span, hspan])
          · rw [Node.span, hspan]
            exact hnodes
    | name | expr | stmt | program =>
      obtain ⟨first, last, hfirst, hlast, hspan⟩ := hspan
      exact hcons (nested_of_tokens hfirst hlast hspan hts hsoundts hparts) hshut

end Nested

end LolToolchain.Grammar
