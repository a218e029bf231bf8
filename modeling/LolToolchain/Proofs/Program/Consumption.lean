import LolToolchain.Proofs.Program.Grammar

/-!
What parsers consume. A run of a parser goes over the tokens in view, and what it yields is written
with just these tokens; otherwise it stops with the first fault of the text, or at a token in front of
it. The bound on the recursion counts for as many tokens as there are in view, and with it no run ends
for want of a larger bound.
-/
namespace LolToolchain

open Grammar (Piece Node words)
open Diagnostic (Ends)

theorem Lexeme.eq_endOfInput {l : Lexeme} (h : l.kind = .endOfInput) : l = .endOfInput := by
  cases l with
  | endOfInput => rfl
  | string text insertions => cases insertions <;> cases h
  | _ => cases h

/-- Items that are closed by the end of the input. -/
def Token.Closed : List (Except Diagnostic Token) → Prop
  | [] => False
  | .error _ :: items => Closed items
  | .ok t :: items => (t.kind = .endOfInput ∧ items = []) ∨ (t.kind ≠ .endOfInput ∧ Closed items)

/-- A diagnostic to stop with: the first fault among items, or one at a token in front of it that is
not for want of a larger bound. -/
def Token.Stops (items : List (Except Diagnostic Token)) (d : Diagnostic) : Prop :=
  (untilFault items).2 = some d ∨
    d.kind ≠ .runtime ∧ ∃ t ∈ (untilFault items).1, d.span.start = t.span.start

namespace Token

variable {ts : List Token} {items : List (Except Diagnostic Token)} {lo : Int}

theorem Closed.of_append (h : Closed (ts.map .ok ++ items)) (hne : items ≠ []) : Closed items := by
  induction ts with
  | nil => exact h
  | cons t ts ih =>
    rcases h with ⟨-, hnil⟩ | ⟨-, hrest⟩
    · exact absurd (List.append_eq_nil_iff.1 hnil).2 hne
    · exact ih hrest

theorem Ordered.of_append (h : Ordered lo (ts.map .ok ++ items)) : ∃ lo', Ordered lo' items := by
  induction ts generalizing lo with
  | nil => exact ⟨lo, h⟩
  | cons t ts ih => exact ih h.2

/-- Tokens in order stand in a row. -/
theorem Ordered.row (h : Ordered lo (ts.map .ok ++ items))
    (hts : ∀ t ∈ ts, t.span.start ≤ t.span.stop) : ∃ hi, Span.Row lo (ts.map Token.span) hi := by
  induction ts generalizing lo with
  | nil => exact ⟨lo, Int.le_refl lo⟩
  | cons t ts ih =>
    obtain ⟨ht, htail⟩ := List.forall_mem_cons.1 hts
    obtain ⟨hi, hrow⟩ := ih h.2 htail
    exact ⟨hi, h.1, ht, hrow⟩

theorem Closed.of_proper {eof : Token} (heof : eof.kind = .endOfInput)
    (h : ∀ t, .ok t ∈ items → t.kind ≠ .endOfInput) : Closed (items ++ [Except.ok eof]) := by
  induction items with
  | nil => exact .inl ⟨heof, rfl⟩
  | cons item items ih =>
    have hrest := ih fun t ht => h t (List.mem_cons_of_mem _ ht)
    cases item with
    | error d => exact hrest
    | ok t => exact .inr ⟨h t List.mem_cons_self, hrest⟩

theorem Ordered.concat {eof : Token} (h : Ordered lo items) (hlo : lo ≤ eof.span.start)
    (hstop : ∀ t, .ok t ∈ items → t.span.stop ≤ eof.span.start) :
    Ordered lo (items ++ [Except.ok eof]) := by
  induction items generalizing lo with
  | nil => exact ⟨hlo, trivial⟩
  | cons item items ih =>
    have hrest (t : Token) (ht : .ok t ∈ items) := hstop t (List.mem_cons_of_mem _ ht)
    cases item with
    | error d => exact ⟨h.1, ih h.2 hlo hrest⟩
    | ok t => exact ⟨h.1, ih h.2 (hstop t List.mem_cons_self) hrest⟩

/-- Tokens in front of a fault end before it. -/
theorem Ordered.stop_le {d : Diagnostic} {rest : List (Except Diagnostic Token)}
    (h : Ordered lo (ts.map .ok ++ Except.error d :: rest))
    (hts : ∀ t ∈ ts, t.span.start ≤ t.span.stop) :
    lo ≤ d.span.start ∧ ∀ t ∈ ts, t.span.stop ≤ d.span.start := by
  induction ts generalizing lo with
  | nil => exact ⟨h.1, nofun⟩
  | cons t ts ih =>
    obtain ⟨ht, htail⟩ := List.forall_mem_cons.1 hts
    obtain ⟨hlo, hrest⟩ := ih h.2 htail
    exact ⟨Int.le_trans h.1 (Int.le_trans ht hlo), List.forall_mem_cons.2 ⟨hlo, hrest⟩⟩

theorem eq_append_of_untilFault {d : Diagnostic} (h : (untilFault items).2 = some d) :
    ∃ rest, items = (untilFault items).1.map .ok ++ Except.error d :: rest := by
  induction items with
  | nil => cases h
  | cons item items ih =>
    cases item with
    | error d' =>
      obtain rfl := Option.some.inj h
      exact ⟨items, rfl⟩
    | ok t =>
      obtain ⟨rest, hrest⟩ := ih h
      exact ⟨rest, congrArg (.ok t :: ·) hrest⟩

theorem untilFault_append (ts : List Token) (items : List (Except Diagnostic Token)) :
    untilFault (ts.map .ok ++ items) = (ts ++ (untilFault items).1, (untilFault items).2) := by
  induction ts with
  | nil => rfl
  | cons t ts ih =>
    rw [List.map_cons, List.cons_append, untilFault, ih]
    rfl

end Token

namespace Window

/-- The items from the current token on. -/
def items (w : Window) : List (Except Diagnostic Token) :=
  .ok w.current :: w.ahead

/-- A view of the items of a text. -/
structure Sound (w : Window) : Prop where
  closed : Token.Closed w.items
  ordered : ∃ lo, Token.Ordered lo w.items
  tokens : ∀ t, .ok t ∈ w.items → t.span.start ≤ t.span.stop

/-- The tokens between one view and another. -/
structure Passes (w : Window) (ts : List Token) (w' : Window) : Prop where
  items : w.items = ts.map .ok ++ w'.items
  prevEnd : w'.prevEnd = (ts.getLast?.map fun t => t.span.stop).getD w.prevEnd

/-- Some parts are written with the tokens between one view and another. -/
def Reads (w : Window) (ps : List Piece) (w' : Window) : Prop :=
  ∃ ts, Grammar.Reads ps ts w'.current ∧ w.Passes ts w'

/-- A diagnostic that a parser may stop with in view of some items. -/
def Stops (w : Window) (d : Diagnostic) : Prop :=
  Token.Stops w.items d

variable {w w₁ w₂ : Window} {ts us : List Token} {ps qs : List Piece}

private theorem items_ne_nil (w : Window) : w.items ≠ [] :=
  List.cons_ne_nil _ _

theorem Passes.refl (w : Window) : w.Passes [] w :=
  ⟨rfl, rfl⟩

theorem Passes.trans (h : w.Passes ts w₁) (h' : w₁.Passes us w₂) : w.Passes (ts ++ us) w₂ := by
  refine ⟨?_, ?_⟩
  · rw [h.items, h'.items, List.map_append, List.append_assoc]
  · rw [h'.prevEnd, h.prevEnd, List.getLast?_append]
    cases us.getLast? <;> rfl

theorem Passes.sound (hw : w.Sound) (h : w.Passes ts w₁) : w₁.Sound := by
  obtain ⟨lo, hordered⟩ := hw.ordered
  have hclosed := hw.closed
  rw [h.items] at hordered hclosed
  refine ⟨hclosed.of_append w₁.items_ne_nil, hordered.of_append, fun t ht => hw.tokens t ?_⟩
  rw [h.items]
  exact List.mem_append_right _ ht

theorem Passes.row (hw : w.Sound) (h : w.Passes ts w₁) :
    ∃ lo hi, Span.Row lo (ts.map Token.span) hi := by
  obtain ⟨lo, hordered⟩ := hw.ordered
  rw [h.items] at hordered
  refine ⟨lo, hordered.row fun t ht => hw.tokens t ?_⟩
  rw [h.items]
  exact List.mem_append_left _ (List.mem_map_of_mem ht)

theorem Passes.head (h : w.Passes ts w₁) : w.current = ts.headD w₁.current := by
  have hitems := h.items
  cases ts with
  | nil => exact Except.ok.inj (List.cons.inj hitems).1
  | cons t ts => exact Except.ok.inj (List.cons.inj hitems).1

/-- The token behind the current one is in view. -/
theorem Passes.nextKind {t : Token} (h : w.Passes [t] w₁) : w.nextKind = w₁.current.kind := by
  rw [Window.nextKind, (List.cons.inj h.items).2]
  rfl

theorem Passes.length (h : w.Passes ts w₁) : w.items.length = ts.length + w₁.items.length := by
  rw [h.items, List.length_append, List.length_map]

/-- What stops a parser later on stops it from the start. -/
theorem Passes.stops (h : w.Passes ts w₁) {d : Diagnostic} (hd : w₁.Stops d) : w.Stops d := by
  rw [Stops, Token.Stops, h.items, Token.untilFault_append]
  rcases hd with hd | ⟨hkind, t, ht, hspan⟩
  · exact .inl hd
  · exact .inr ⟨hkind, t, List.mem_append_right _ ht, hspan⟩

/-- A fault at a token that is passed. -/
theorem Passes.stops_at (h : w.Passes ts w₁) {d : Diagnostic} (hkind : d.kind ≠ .runtime) {t : Token}
    (ht : t ∈ ts) (hspan : d.span.start = t.span.start) : w.Stops d := by
  rw [Stops, Token.Stops, h.items, Token.untilFault_append]
  exact .inr ⟨hkind, t, List.mem_append_left _ ht, hspan⟩

/-- A fault at the current token. -/
theorem stops_here (w : Window) {f : ParseFault} (hf : f.kind ≠ .runtime) {span : Span}
    (hspan : span.start = w.current.span.start) : w.Stops (f.toDiagnostic span) :=
  .inr ⟨hf, w.current, List.mem_cons_self, hspan⟩

/-- The first fault stops a parser as soon as it is in view. -/
theorem stops_error (t : Token) (d : Diagnostic) (rest : List (Except Diagnostic Token))
    (prevEnd : Int) : Stops ⟨t, .error d :: rest, prevEnd⟩ d :=
  .inl rfl

end Window

private theorem Grammar.Reads.append {ps qs : List Piece} {ts us : List Token} {next : Token}
    (hp : Grammar.Reads ps ts (us.headD next)) (hq : Grammar.Reads qs us next) :
    Grammar.Reads (ps ++ qs) (ts ++ us) next := by
  generalize hnext : us.headD next = mid at hp
  induction hp with
  | nil => exact hq
  | token h _ ih => exact .token h (ih hnext)
  | taken _ ih => exact .taken (ih hnext)
  | omitted _ ih => exact .omitted (ih hnext)
  | breaks h _ ih =>
    rw [List.append_assoc]
    exact .breaks h (ih hnext)
  | inside hkind h _ ih => exact .inside hkind h (ih hnext)
  | @node n ps ts vs mid hparts hspan _ _ ih =>
    have hhead : (vs ++ us).headD next = vs.headD mid := by
      cases vs with
      | nil => exact hnext
      | cons v vs => rfl
    rw [List.append_assoc]
    exact .node (hhead ▸ hparts) (hhead ▸ hspan) (ih hnext)

namespace Window

variable {w w₁ w₂ : Window} {ps qs : List Piece} {p : Piece}

theorem Reads.refl (w : Window) : w.Reads [] w :=
  ⟨[], .nil _, .refl w⟩

theorem Reads.trans (h : w.Reads ps w₁) (h' : w₁.Reads qs w₂) : w.Reads (ps ++ qs) w₂ := by
  obtain ⟨ts, hps, hts⟩ := h
  obtain ⟨us, hqs, hus⟩ := h'
  rw [hus.head] at hps
  exact ⟨ts ++ us, hps.append hqs, hts.trans hus⟩

theorem Reads.sound (hw : w.Sound) (h : w.Reads ps w₁) : w₁.Sound := by
  obtain ⟨ts, -, hpasses⟩ := h
  exact hpasses.sound hw

theorem Reads.ends {α : Type} {r : Except Diagnostic α} {good : α → Prop} (h : w.Reads ps w₁)
    (hr : Ends w₁.Stops r good) : Ends w.Stops r good := by
  obtain ⟨ts, -, hpasses⟩ := h
  cases r with
  | error d => exact hpasses.stops hr
  | ok a => exact hr

theorem Reads.leaveOut {kind : TokenKind} (h : w.Reads ps w₁) :
    w.Reads (ps ++ [Piece.optional kind]) w₁ :=
  h.trans ⟨[], .omitted (.nil _), .refl w₁⟩

/-- Parts without tokens leave the view as it is. -/
theorem eq_of_reads_nil (h : w.Reads [] w₁) : w₁ = w := by
  obtain ⟨ts, hts, hpasses⟩ := h
  cases hts
  have hitems := hpasses.items
  have hprev := hpasses.prevEnd
  cases w
  cases w₁
  obtain ⟨hcurrent, hahead⟩ := List.cons.inj hitems
  cases hcurrent
  cases hahead
  cases hprev
  rfl

/-- Line breaks in front of something else are none. -/
theorem Reads.of_breaks (h : w.Reads (.breaks :: ps) w₁) (hkind : w.current.kind ≠ .lineBreak) :
    w.Reads ps w₁ := by
  obtain ⟨ts, hts, hpasses⟩ := h
  cases hts with
  | @breaks bs _ ts _ hbs hrest =>
    cases bs with
    | nil => exact ⟨ts, hrest, hpasses⟩
    | cons t bs => exact absurd (hpasses.head ▸ hbs t List.mem_cons_self) hkind

end Window

namespace Grammar

/-- Nodes whose span covers all their tokens. -/
def Node.IsWhole : Node → Prop
  | .block _ => False
  | _ => True

/-- Parts that cannot be written without tokens. -/
def Solid : List Piece → Prop
  | [] => False
  | .token _ :: _ | .inside _ :: _ => True
  | .node n :: _ => n.IsWhole
  | .optional _ :: ps | .breaks :: ps => Solid ps

theorem Solid.append {ps qs : List Piece} (h : Solid ps) : Solid (ps ++ qs) := by
  induction ps with
  | nil => exact h.elim
  | cons p ps ih =>
    cases p with
    | optional | breaks => exact ih h
    | _ => exact h

theorem Node.spansOver_whole {n : Node} (hn : n.IsWhole) {ts : List Token} {next : Token} :
    n.SpansOver ts next ↔ ∃ first last, ts.head? = some first ∧ ts.getLast? = some last ∧
      n.span = ⟨first.span.start, last.span.stop, first.span.file⟩ := by
  cases n with
  | block b => exact hn.elim
  | _ => exact Iff.rfl

/-- A part that is written with one token. -/
def Piece.Fits (p : Piece) (t : Token) : Prop :=
  ∀ next, Reads [p] [t] next

theorem fits_token {ks : List TokenKind} {t : Token} (h : t.kind ∈ ks) : (Piece.token ks).Fits t :=
  fun next => .token h (.nil next)

theorem fits_kind {k : TokenKind} {t : Token} (h : t.kind = k) : (Piece.token [k]).Fits t :=
  fits_token (h ▸ List.mem_cons_self)

theorem fits_optional {k : TokenKind} {t : Token} (h : t.kind = k) : (Piece.optional k).Fits t :=
  h ▸ fun next => .taken (.nil next)

theorem fits_inside {ids : List Ident} {t : Token} (hkind : t.kind = .interpolated)
    (h : ids.map Ident.span = t.insertions.map Insertion.span) : (Piece.inside ids).Fits t :=
  fun next => .inside hkind h (.nil next)

/-- A node that is one token. -/
theorem fits_node {n : Node} {p : Piece} {t : Token} (hn : n.IsWhole) (hparts : n.parts = [p])
    (hp : p.Fits t) (hspan : n.span = t.span) : (Piece.node n).Fits t := by
  intro next
  refine @Reads.node n [] [t] [] next (hparts ▸ hp next) ?_ (.nil next)
  exact (Node.spansOver_whole hn).2 ⟨t, t, rfl, rfl, hspan⟩

theorem Reads.ne_nil_of_solid {ps : List Piece} {ts : List Token} {next : Token}
    (h : Reads ps ts next) (hp : Solid ps) : ts ≠ [] := by
  induction h with
  | nil => exact hp.elim
  | token | inside | taken => exact List.cons_ne_nil _ _
  | omitted _ ih => exact ih hp
  | breaks _ _ ih => exact List.append_ne_nil_of_right_ne_nil _ (ih hp)
  | @node _ _ ts us _ _ hspan _ =>
    obtain ⟨first, last, hfirst, -⟩ := (Node.spansOver_whole hp).1 hspan
    refine List.append_ne_nil_of_left_ne_nil ?_ _
    rintro rfl
    cases hfirst

/-- A node starts with one of the tokens. -/
theorem Reads.exists_start {n : Node} {ps : List Piece} {ts : List Token} {next : Token}
    (h : Reads ps ts next) (hn : n.IsWhole) (hmem : .node n ∈ ps) :
    ∃ t ∈ ts, n.span.start = t.span.start := by
  induction h with
  | nil => cases hmem
  | token _ _ ih | taken _ ih | inside _ _ _ ih =>
    rcases List.mem_cons.1 hmem with hmem | hmem
    · cases hmem
    · obtain ⟨t, ht, hspan⟩ := ih hmem
      exact ⟨t, List.mem_cons_of_mem _ ht, hspan⟩
  | omitted _ ih =>
    rcases List.mem_cons.1 hmem with hmem | hmem
    · cases hmem
    · exact ih hmem
  | breaks _ _ ih =>
    rcases List.mem_cons.1 hmem with hmem | hmem
    · cases hmem
    · obtain ⟨t, ht, hspan⟩ := ih hmem
      exact ⟨t, List.mem_append_right _ ht, hspan⟩
  | node _ hspan _ _ ih =>
    rcases List.mem_cons.1 hmem with hmem | hmem
    · cases hmem
      obtain ⟨first, last, hfirst, -, hspan⟩ := (Node.spansOver_whole hn).1 hspan
      exact ⟨first, List.mem_append_left _ (List.mem_of_head? hfirst), by rw [hspan]⟩
    · obtain ⟨t, ht, hspan⟩ := ih hmem
      exact ⟨t, List.mem_append_right _ ht, hspan⟩

end Grammar

namespace Window

variable {w w₁ : Window} {ps : List Piece}

theorem Reads.length_lt (h : w.Reads ps w₁) (hp : Grammar.Solid ps) :
    w₁.items.length < w.items.length := by
  obtain ⟨ts, hts, hpasses⟩ := h
  have hlength := hpasses.length
  have hpos := List.length_pos_iff.2 (hts.ne_nil_of_solid hp)
  omega

theorem Reads.length_le (h : w.Reads ps w₁) : w₁.items.length ≤ w.items.length := by
  obtain ⟨ts, -, hpasses⟩ := h
  have hlength := hpasses.length
  omega

/-- A node with its parts and a span from the first token to the last that is consumed. -/
theorem Reads.node (h : w.Reads ps w₁) (hp : Grammar.Solid ps) {n : Node} (hn : n.IsWhole)
    (hparts : n.parts = ps)
    (hspan : n.span = ⟨w.current.span.start, w₁.prevEnd, w.current.span.file⟩) :
    w.Reads [.node n] w₁ := by
  obtain ⟨ts, hts, hpasses⟩ := h
  refine ⟨ts ++ [], .node (hparts ▸ hts) ?_ (.nil _), (List.append_nil ts).symm ▸ hpasses⟩
  rw [Node.spansOver_whole hn]
  have hhead := hpasses.head
  have hprev := hpasses.prevEnd
  cases hlast : ts.getLast? with
  | none => exact absurd (List.getLast?_eq_none_iff.1 hlast) (hts.ne_nil_of_solid hp)
  | some last =>
    cases ts with
    | nil => cases hlast
    | cons first ts =>
      rw [hlast] at hprev
      have hcurrent : w.current = first := hhead
      have hend : w₁.prevEnd = last.span.stop := hprev
      exact ⟨first, last, rfl, rfl, by rw [hspan, hcurrent, hend]⟩

/-- A node that is a single token. -/
theorem Reads.leaf {ks : List TokenKind} (h : w.Reads [.token ks] w₁) {n : Node} (hn : n.IsWhole)
    (hparts : n.parts = [.token ks]) (hspan : n.span = w.current.span) : w.Reads [.node n] w₁ := by
  obtain ⟨ts, hts, hpasses⟩ := h
  cases hts with
  | token hkind hnil =>
    cases hnil
    rw [hpasses.head] at hspan
    exact ⟨_, Grammar.fits_node hn hparts (Grammar.fits_token hkind) hspan _, hpasses⟩

/-- The end of what has been consumed is not in front of its start. -/
theorem Reads.start_le (hw : w.Sound) (h : w.Reads ps w₁) (hp : Grammar.Solid ps) :
    w.current.span.start ≤ w₁.prevEnd := by
  obtain ⟨ts, hts, hpasses⟩ := h
  obtain ⟨lo, hi, hrow⟩ := hpasses.row hw
  have hhead := hpasses.head
  have hprev := hpasses.prevEnd
  cases ts with
  | nil => exact absurd rfl (hts.ne_nil_of_solid hp)
  | cons first ts =>
    obtain ⟨htight, -⟩ := hrow.tighten
    have hstop : ((ts.map Token.span).getLast?.getD first.span).stop = w₁.prevEnd := by
      rw [hprev, List.getLast?_cons, List.getLast?_map]
      cases ts.getLast? <;> rfl
    have hcurrent : w.current = first := hhead
    rw [hcurrent, ← hstop]
    exact htight.le

end Window

private theorem Grammar.reads_noBreaks (next : Token) : Grammar.Reads [.breaks] [] next :=
  @Grammar.Reads.breaks [] [] [] next nofun (.nil next)

namespace Window

variable {w w₁ w₂ : Window}

theorem passes_advance (hw : w.Sound) (hend : w.current.kind ≠ .endOfInput) :
    Ends w.Stops w.advance fun w₁ => w.Passes [w.current] w₁ := by
  obtain ⟨t, ahead, prevEnd⟩ := w
  rcases hw.closed with ⟨heof, -⟩ | ⟨-, hclosed⟩
  · exact absurd heof hend
  · cases ahead with
    | nil => exact hclosed.elim
    | cons item rest =>
      cases item with
      | error d => exact stops_error t d rest prevEnd
      | ok u =>
        cases rest with
        | nil => exact ⟨rfl, rfl⟩
        | cons item rest =>
          cases item with
          | error d => exact .inl rfl
          | ok v => exact ⟨rfl, rfl⟩

private theorem Reads.moreBreaks {t : Token} (h : w₁.Reads [.breaks] w₂) (hpasses : w.Passes [t] w₁)
    (hkind : t.kind = .lineBreak) : w.Reads [.breaks] w₂ := by
  obtain ⟨ts, hts, hpassed⟩ := h
  cases hts with
  | @breaks bs _ us _ hbs hnil =>
    refine ⟨[t] ++ (bs ++ us), ?_, hpasses.trans hpassed⟩
    rw [← List.append_assoc]
    exact .breaks (List.forall_mem_cons.2 ⟨hkind, hbs⟩) hnil

/-- All line breaks in view are consumed. -/
theorem reads_skipBreaks {t : Token} {ahead : List (Except Diagnostic Token)}
    (hclosed : Token.Closed (.ok t :: ahead)) (prevEnd : Int) :
    Ends (Stops ⟨t, ahead, prevEnd⟩) (skipBreaks t ahead prevEnd) fun w₁ =>
      Reads ⟨t, ahead, prevEnd⟩ [.breaks] w₁ ∧ w₁.current.kind ≠ .lineBreak := by
  have hnone (w : Window) : w.Reads [.breaks] w := ⟨[], Grammar.reads_noBreaks _, .refl w⟩
  induction ahead generalizing t prevEnd with
  | nil =>
    rcases hclosed with ⟨heof, -⟩ | ⟨-, hnil⟩
    · have hbreak : t.kind ≠ .lineBreak := heof ▸ nofun
      rw [skipBreaks.eq_def, if_neg (mt eq_of_beq hbreak)]
      exact ⟨hnone _, hbreak⟩
    · exact hnil.elim
  | cons item rest ih =>
    rw [skipBreaks.eq_def]
    cases item with
    | error d => split <;> exact stops_error t d rest prevEnd
    | ok u =>
      by_cases hbreak : t.kind = .lineBreak
      · rw [if_pos (beq_iff_eq.2 hbreak)]
        rcases hclosed with ⟨heof, -⟩ | ⟨-, hrest⟩
        · rw [heof] at hbreak
          cases hbreak
        · have hpasses : Passes ⟨t, .ok u :: rest, prevEnd⟩ [t] ⟨u, rest, t.span.stop⟩ := ⟨rfl, rfl⟩
          have hrun := ih hrest t.span.stop
          dsimp only
          cases hresult : skipBreaks u rest t.span.stop with
          | error d =>
            rw [hresult] at hrun
            exact hpasses.stops hrun
          | ok w₁ =>
            rw [hresult] at hrun
            exact ⟨hrun.1.moreBreaks hpasses hbreak, hrun.2⟩
      · rw [if_neg (mt eq_of_beq hbreak)]
        exact ⟨hnone _, hbreak⟩

end Window

namespace Parser

/-- A run of a parser when parts have been read since a view of at most `n` items. -/
def From {α : Type} (n : Nat) (w₀ : Window) (ps : List Piece) (x : Parser α)
    (good : α → Window → Prop) : Prop :=
  w₀.Sound → w₀.items.length ≤ n → ∀ w, w₀.Reads ps w →
    Ends w₀.Stops (x w) fun r => good r.1 r.2

/-- In views of at most `n` items a parser consumes the parts of what it yields. -/
def Takes {α : Type} (n : Nat) (x : Parser α) (parts : α → List Piece) : Prop :=
  ∀ w, From n w [] x fun a w₁ => w.Reads (parts a) w₁

variable {α β : Type} {n m : Nat} {w₀ : Window} {p : Piece} {ps : List Piece} {x : Parser α}
  {y : Parser β}  {f : α → Parser β} {parts : α → List Piece} {good : β → Window → Prop}

theorem Takes.of_le (hx : Takes n x parts) (hle : m ≤ n) : Takes m x parts :=
  fun w hw hm => hx w hw (Nat.le_trans hm hle)

/-- No view has no items. -/
theorem takes_zero : Takes 0 x parts := by
  intro w _ hlength
  exact absurd hlength (Nat.not_succ_le_zero _)

namespace From

theorem pure {a : β} (h : ∀ w, w₀.Reads ps w → good a w) : From n w₀ ps (pure a) good :=
  fun _ _ w hw => h w hw

/-- A parser at a view that is reached, and what follows it. -/
theorem run {w : Window} (hw : w₀.Sound) (hn : w₀.items.length ≤ n) (hps : w₀.Reads ps w)
    (hx : Ends w.Stops (x w) fun r => w.Reads (parts r.1) r.2)
    (hf : ∀ a, From n w₀ (ps ++ parts a) (f a) good) :
    Ends w₀.Stops ((x >>= f) w) fun r => good r.1 r.2 :=
  (hps.ends hx).bind fun r hr => hf r.1 hw hn r.2 (hps.trans hr)

theorem bind (hx : Takes n x parts) (hf : ∀ a, From n w₀ (ps ++ parts a) (f a) good) :
    From n w₀ ps (x >>= f) good := by
  intro hw hn w hps
  exact run hw hn hps (hx w (hps.sound hw) (Nat.le_trans hps.length_le hn) w (.refl w)) hf

/-- The last parser of a run. -/
theorem last {parts : β → List Piece} (hy : Takes n y parts)
    (h : ∀ b w, w₀.Reads (ps ++ parts b) w → good b w) : From n w₀ ps y good := by
  rw [← bind_pure y]
  exact bind hy fun b => pure (h b)

/-- Behind a token, a smaller bound is enough. -/
theorem within (hp : Grammar.Solid ps) (hx : Takes n x parts)
    (hf : ∀ a, From (n + 1) w₀ (ps ++ parts a) (f a) good) :
    From (n + 1) w₀ ps (x >>= f) good := by
  intro hw hn w hps
  have hlt := hps.length_lt hp
  exact run hw hn hps (hx w (hps.sound hw) (by omega) w (.refl w)) hf

/-- A run of its own from the view that is reached. -/
theorem nested (h : ∀ w, w₀.Reads ps w → From n w [] y good) : From n w₀ ps y good :=
  fun hw hn w hps => hps.ends (h w hps (hps.sound hw) (Nat.le_trans hps.length_le hn) w (.refl w))

theorem ite {b : Prop} [Decidable b] {y z : Parser β} (hy : From n w₀ ps y good)
    (hz : From n w₀ ps z good) : From n w₀ ps (if b then y else z) good := by
  split
  · exact hy
  · exact hz

theorem onTrue {y z : Parser β} (hy : From n w₀ ps y good) :
    From n w₀ ps (if true = true then y else z) good :=
  hy

theorem onFalse {y z : Parser β} (hz : From n w₀ ps z good) :
    From n w₀ ps (if false = true then y else z) good :=
  hz

theorem get {f : Window → Parser β} (h : ∀ w, From n w₀ ps (f w) good) :
    From n w₀ ps (get >>= f) good :=
  fun hw hn w hps => h w hw hn w hps

theorem current {f : Token → Parser β} (h : ∀ t, From n w₀ ps (f t) good) :
    From n w₀ ps (Parser.current >>= f) good :=
  fun hw hn w hps => h w.current hw hn w hps

/-- The current token of a view that is reached. -/
theorem view {f : Token → Parser β} (h : w₀.Sound → w₀.items.length ≤ n → ∀ w, w₀.Reads ps w →
      Ends w₀.Stops (f w.current w) fun r => good r.1 r.2) :
    From n w₀ ps (Parser.current >>= f) good :=
  h

/-- The first token of a run is the current one of its view. -/
theorem start {f : Token → Parser β} (h : From n w₀ [] (f w₀.current) good) :
    From n w₀ [] (Parser.current >>= f) good := by
  intro hw hn w hps
  obtain rfl := Window.eq_of_reads_nil hps
  exact h hw hn w hps

theorem sees {k : TokenKind} {f : Bool → Parser β} (h : ∀ b, From n w₀ ps (f b) good) :
    From n w₀ ps (Parser.sees k >>= f) good :=
  fun hw hn w hps => h _ hw hn w hps

theorem atEnd {ends : List Keyword} {f : Bool → Parser β} (h : ∀ b, From n w₀ ps (f b) good) :
    From n w₀ ps (Parser.atEnd ends >>= f) good :=
  fun hw hn w hps => h _ hw hn w hps

theorem leaveOut {kind : TokenKind} {y : Parser β}
    (h : From n w₀ (ps ++ [Piece.optional kind]) y good) : From n w₀ ps y good :=
  fun hw hn w hps => h hw hn w hps.leaveOut

/-- A fault at the start of the node that is being read. -/
theorem fail {fault : ParseFault} {span : Span} (hfault : fault.kind ≠ .runtime)
    (hspan : span.start = w₀.current.span.start) : From n w₀ ps (Parser.fail fault span) good :=
  fun _ _ _ _ => w₀.stops_here hfault hspan

/-- A fault at a name that has been read. -/
theorem throwAt {id : Ident} {d : Diagnostic} (hkind : d.kind ≠ .runtime)
    (hspan : d.span = id.span) :
    From n w₀ (ps ++ [Piece.node (.name id)]) (throwThe Diagnostic d) good := by
  rintro - - w ⟨ts, hts, hpasses⟩
  obtain ⟨t, ht, hstart⟩ :=
    hts.exists_start (n := .name id) trivial (List.mem_append_right _ List.mem_cons_self)
  exact hpasses.stops_at hkind ht (hspan ▸ hstart)

/-- A fault at the current token. -/
theorem expected {what : Text} : From n w₀ ps (Parser.expected what) good := by
  intro hw _ w hps
  exact hps.ends (w.stops_here (by rintro ⟨⟩) rfl)

/-- The current token is consumed. -/
theorem step {w : Window} {f : Unit → Parser β} (hw : w₀.Sound) (hps : w₀.Reads ps w)
    (hend : w.current.kind ≠ .endOfInput) (hf : ∀ w₁, w.Passes [w.current] w₁ →
      Ends w₀.Stops (f () w₁) fun r => good r.1 r.2) :
    Ends w₀.Stops ((Parser.advance >>= f) w) fun r => good r.1 r.2 := by
  have hadvance : Ends w.Stops (Parser.advance w) fun r => w.Passes [w.current] r.2 :=
    (Window.passes_advance (hps.sound hw) hend).bind fun w₁ hw₁ => hw₁
  exact (hps.ends hadvance).bind fun r hr => hf r.2 hr

/-- The current token is consumed as a part. -/
theorem token {w : Window} {f : Unit → Parser β} (hw : w₀.Sound) (hn : w₀.items.length ≤ n)
    (hps : w₀.Reads ps w) (hfit : p.Fits w.current) (hend : w.current.kind ≠ .endOfInput)
    (hf : From n w₀ (ps ++ [p]) (f ()) good) :
    Ends w₀.Stops ((Parser.advance >>= f) w) fun r => good r.1 r.2 :=
  step hw hps hend fun w₁ hw₁ => hf hw hn w₁ (hps.trans ⟨[w.current], hfit _, hw₁⟩)

/-- The first token of a run is consumed. -/
theorem first {k : TokenKind} {f : Unit → Parser β} (hkind : w₀.current.kind = k)
    (hend : k ≠ .endOfInput) (hfit : p.Fits w₀.current) (hf : From n w₀ [p] (f ()) good) :
    From n w₀ [] (Parser.advance >>= f) good := by
  intro hw hn w hps
  obtain rfl := Window.eq_of_reads_nil hps
  exact token hw hn hps hfit (hkind ▸ hend) hf

/-- The view at the start of a run. -/
theorem startView {f : Window → Parser β} (h : From n w₀ [] (f w₀) good) :
    From n w₀ [] (MonadState.get >>= f) good := by
  intro hw hn w hps
  obtain rfl := Window.eq_of_reads_nil hps
  exact h hw hn w hps

theorem startKind {f : TokenKind → Parser β} (h : From n w₀ [] (f w₀.current.kind) good) :
    From n w₀ [] (Parser.kind >>= f) good := by
  intro hw hn w hps
  obtain rfl := Window.eq_of_reads_nil hps
  exact h hw hn w hps

/-- A token is consumed if it is seen. -/
theorem seesToken {k : TokenKind} {f : Bool → Parser β} {g : Unit → Parser β}
    (hend : k ≠ .endOfInput) (htrue : f true = Parser.advance >>= g)
    (hfit : ∀ w, w₀.Reads ps w → w.current.kind = k → p.Fits w.current)
    (hg : From n w₀ (ps ++ [p]) (g ()) good) (hf : From n w₀ ps (f false) good) :
    From n w₀ ps (Parser.sees k >>= f) good := by
  intro hw hn w hps
  have hsees : (Parser.sees k >>= f) w = f (w.current.kind == k) w := rfl
  rw [hsees]
  by_cases hkind : w.current.kind = k
  · rw [beq_iff_eq.2 hkind, htrue]
    exact token hw hn hps (hfit w hps hkind) (hkind ▸ hend) hg
  · rw [beq_eq_false_iff_ne.2 hkind]
    exact hf hw hn w hps

theorem seesKind {k : TokenKind} {f : Bool → Parser β} {g : Unit → Parser β}
    (hend : k ≠ .endOfInput) (htrue : f true = Parser.advance >>= g)
    (hg : From n w₀ (ps ++ [Piece.token [k]]) (g ()) good) (hf : From n w₀ ps (f false) good) :
    From n w₀ ps (Parser.sees k >>= f) good :=
  seesToken hend htrue (fun _ _ hkind => Grammar.fits_kind hkind) hg hf

/-- A word is consumed if it is there. -/
theorem accept {word : Keyword} {f : Bool → Parser β}
    (hfit : ∀ w, w₀.Reads ps w → w.current.kind = .keyword word → p.Fits w.current)
    (ht : From n w₀ (ps ++ [p]) (f true) good) (hf : From n w₀ ps (f false) good) :
    From n w₀ ps (Parser.accept word >>= f) good := by
  have haccept : Parser.accept word >>= f = Parser.sees (.keyword word) >>= fun b =>
      if b = true then Parser.advance >>= fun _ => f true else f false := by
    rw [Parser.accept, bind_assoc]
    refine bind_congr fun b => ?_
    cases b <;> simp
  rw [haccept]
  exact seesToken (by rintro ⟨⟩) (if_pos rfl) hfit ht (onFalse hf)

end From

section Tokens

variable {k : TokenKind} {word : Keyword}

/-- A token that has to be there. -/
theorem takes_expectPart (hk : k ≠ .endOfInput) (hfit : ∀ t : Token, t.kind = k → p.Fits t) :
    Takes n (expect k) fun _ => [p] := by
  intro w
  have hexpect : expect k = sees k >>= fun b => if b = true
      then advance >>= fun _ => Pure.pure () else expected k.name := by
    rw [bind_pure_unit]
    rfl
  rw [hexpect]
  exact .seesToken hk (if_pos rfl) (fun w₁ _ h => hfit _ h) (.pure fun w₁ hw₁ => hw₁)
    (.onFalse .expected)

theorem takes_expect (hk : k ≠ .endOfInput) : Takes n (expect k) fun _ => [.token [k]] :=
  takes_expectPart hk fun _ ht => Grammar.fits_kind ht

theorem takes_expectWord : Takes n (expectWord word) fun _ => words [word] :=
  takes_expect (by rintro ⟨⟩)

theorem takes_expectWords {ks : List Keyword} : Takes n (expectWords ks) fun _ => words ks := by
  induction ks with
  | nil => exact fun w => .pure fun w₁ hw₁ => hw₁
  | cons k ks ih =>
    intro w
    exact .bind takes_expectWord fun _ => .last ih fun _ w₁ hw₁ => hw₁

/-- A word that has to be there where others could leave it out. -/
theorem takes_expectOptional : Takes n (expectWord word) fun _ => [.optional (.keyword word)] :=
  takes_expectPart (by rintro ⟨⟩) fun _ ht => Grammar.fits_optional ht

/-- A word that may be left out. -/
theorem takes_optional : Takes n (accept word) fun _ => [.optional (.keyword word)] := by
  intro w
  rw [← bind_pure (accept word)]
  exact .accept (fun w₁ _ h => Grammar.fits_optional h) (.pure fun w₁ hw₁ => hw₁)
    (.leaveOut (.pure fun w₁ hw₁ => hw₁))

theorem takes_ident : Takes n ident fun id => [.node (.name id)] := by
  intro w
  refine .start ?_
  split
  · rename_i name heq
    have hkind : w.current.kind = .identifier := congrArg Lexeme.kind heq
    refine .first hkind (by rintro ⟨⟩) ?_ (.pure fun w₁ hw₁ => hw₁)
    exact Grammar.fits_node trivial rfl (Grammar.fits_token (hkind ▸ List.mem_cons_self)) rfl
  · exact .expected

theorem takes_target : Takes n target fun id => [.node (.name id)] := by
  intro w
  refine .start (.accept (fun w₁ hw₁ hkind => ?_) (.onTrue (.pure fun w₁ hw₁ => hw₁))
    (.onFalse (.last takes_ident fun _ w₁ hw₁ => hw₁)))
  obtain rfl := Window.eq_of_reads_nil hw₁
  refine Grammar.fits_node trivial rfl (Grammar.fits_token ?_) rfl
  rw [hkind]
  exact List.mem_cons_of_mem _ List.mem_cons_self

private theorem word_of_typeOfWord? {t : TypeName} (h : typeOfWord? word = some t) : t.word = word := by
  cases word with
  | NOOB | TROOF | NUMBR | NUMBAR | YARN | BUKKIT =>
    cases h
    rfl
  | _ => cases h

theorem takes_typeName : Takes n typeName fun t => words [t.word] := by
  intro w
  refine .startKind ?_
  split
  · rename_i word hkind
    split
    · rename_i t ht
      refine .first hkind (by rintro ⟨⟩) (Grammar.fits_token ?_) (.pure fun w₁ hw₁ => hw₁)
      rw [word_of_typeOfWord? ht, hkind]
      exact List.mem_cons_self
    · exact .expected
  · exact .expected

theorem takes_skipBreaks : Takes n skipBreaks fun _ => [.breaks] := by
  intro w hw _ v hv
  obtain rfl := Window.eq_of_reads_nil hv
  exact (Window.reads_skipBreaks hw.closed v.prevEnd).bind fun w₁ hw₁ => hw₁.1

theorem takes_expectBreak : Takes n expectBreak fun _ => [.token [.lineBreak], .breaks] := by
  intro w
  exact .bind (takes_expect (by rintro ⟨⟩)) fun _ => .last takes_skipBreaks fun _ w₁ hw₁ => hw₁

theorem takes_digits : Takes n digits fun _ => [.token [.number]] := by
  intro w
  exact .current fun t => .bind (takes_expect (by rintro ⟨⟩)) fun _ => .pure fun w₁ hw₁ => hw₁

end Tokens

/-- A parser for a block consumes its statements where no line break comes first. -/
def TakesBlock (n : Nat) (x : Parser Block) : Prop :=
  ∀ w, w.Sound → w.items.length ≤ n → w.current.kind ≠ .lineBreak →
    Ends w.Stops (x w) fun r => w.Reads [.node (.block r.1)] r.2

theorem TakesBlock.of_le {x : Parser Block} (hx : TakesBlock n x) (hle : m ≤ n) : TakesBlock m x :=
  fun w hw hm => hx w hw (Nat.le_trans hm hle)

/-- The line break in front of a block makes the bound for the block smaller. -/
theorem takes_body {x : Parser Block} (hx : TakesBlock n x) :
    Takes (n + 1) (Parser.expectBreak >>= fun _ => x) Grammar.body := by
  intro w
  rw [Parser.expectBreak, bind_assoc]
  refine .bind (takes_expect (by rintro ⟨⟩)) fun _ => ?_
  intro hw hn w₁ hw₁
  have hlt := hw₁.length_lt trivial
  have hskip : Ends w₁.Stops (Parser.skipBreaks w₁) fun r =>
      w₁.Reads [.breaks] r.2 ∧ r.2.current.kind ≠ .lineBreak :=
    (Window.reads_skipBreaks (hw₁.sound hw).closed w₁.prevEnd).bind fun _ h => h
  refine (hw₁.ends hskip).bind fun r hr => ?_
  have hreads := hw₁.trans hr.1
  have hblock := hx r.2 (hreads.sound hw) (by have := hr.1.length_le; omega) hr.2
  exact (hreads.ends hblock).mono fun b hb => hreads.trans hb

namespace From

theorem map {γ : Type} {g : α → γ} {f : γ → Parser β} (hx : Takes n x parts)
    (hf : ∀ a, From n w₀ (ps ++ parts a) (f (g a)) good) : From n w₀ ps (g <$> x >>= f) good := by
  simp only [map_eq_pure_bind, bind_assoc, pure_bind]
  exact bind hx hf

theorem cast {qs : List Piece} (heq : qs = ps) {y : Parser β} (h : From n w₀ qs y good) :
    From n w₀ ps y good :=
  heq ▸ h

/-- A node ends with the last token that has been consumed. -/
theorem node {m : Span → Node} {f : Span → Parser β} (hps : Grammar.Solid ps)
    (hwhole : ∀ s, (m s).IsWhole) (hparts : ∀ s, (m s).parts = ps) (hspan : ∀ s, (m s).span = s)
    (hf : ∀ s, From n w₀ [.node (m s)] (f s) good) :
    From n w₀ ps (Parser.spanFrom w₀.current.span >>= f) good := by
  intro hw hn w hw₁
  have hstart := hw₁.start_le hw hps
  refine hf _ hw hn w (hw₁.node hps (hwhole _) (hparts _) ?_)
  rw [hspan, if_neg (Int.not_lt.2 hstart)]

theorem expr {g : Span → Expr} (hps : Grammar.Solid ps)
    (hparts : ∀ s, Grammar.exprParts (g s) = ps) (hspan : ∀ s, (g s).span = s) :
    From n w₀ ps (Parser.spanFrom w₀.current.span >>= fun s => Pure.pure (g s)) fun x w₁ =>
      w₀.Reads [.node (.expr x)] w₁ :=
  node (m := fun s => .expr (g s)) hps (fun _ => trivial) hparts hspan fun _ => pure fun _ h => h

theorem stmt {g : Span → Stmt} (hps : Grammar.Solid ps)
    (hparts : ∀ s, Grammar.stmtParts (g s) = ps) (hspan : ∀ s, (g s).span = s) :
    From n w₀ ps (Parser.spanFrom w₀.current.span >>= fun s => Pure.pure (g s)) fun x w₁ =>
      w₀.Reads [.node (.stmt x)] w₁ :=
  node (m := fun s => .stmt (g s)) hps (fun _ => trivial) hparts hspan fun _ => pure fun _ h => h

/-- A word is consumed if it is there. -/
theorem acceptWord {word : Keyword} {f : Bool → Parser β}
    (ht : From n w₀ (ps ++ words [word]) (f true) good) (hf : From n w₀ ps (f false) good) :
    From n w₀ ps (Parser.accept word >>= f) good :=
  accept (fun _ _ hkind => Grammar.fits_kind hkind) ht hf

/-- The first word of a run. -/
theorem firstWord {k : Keyword} {f : Unit → Parser β} (hkind : w₀.current.kind = .keyword k)
    (hf : From n w₀ (words [k]) (f ()) good) : From n w₀ [] (Parser.advance >>= f) good :=
  first hkind (by rintro ⟨⟩) (Grammar.fits_kind hkind) hf

/-- The first two words of a run. -/
theorem firstWords {k l : Keyword} {f : Unit → Parser β} (hkind : w₀.current.kind = .keyword k)
    (hnext : w₀.nextKind = .keyword l) (hf : From n w₀ (words [k, l]) (f ()) good) :
    From n w₀ [] (Parser.advance >>= fun _ => Parser.advance >>= f) good := by
  intro hw hn w hps
  obtain rfl := Window.eq_of_reads_nil hps
  refine step hw hps (hkind ▸ nofun) fun w₁ hw₁ => ?_
  have hsecond : w₁.current.kind = .keyword l := hw₁.nextKind ▸ hnext
  exact token hw hn (hps.trans ⟨_, Grammar.fits_kind hkind _, hw₁⟩) (Grammar.fits_kind hsecond)
    (hsecond ▸ nofun) hf

/-- A node that is a single token. -/
theorem leaf {k : TokenKind} {toNode : β → Node} {b : β} (hkind : w₀.current.kind = k)
    (hend : k ≠ .endOfInput) (hfit : (Piece.node (toNode b)).Fits w₀.current) :
    From n w₀ [] (Parser.advance >>= fun _ => Pure.pure b) fun b w₁ =>
      w₀.Reads [.node (toNode b)] w₁ :=
  first hkind hend hfit (pure fun _ h => h)

/-- A node that is a single word. -/
theorem leafWord {k : Keyword} {toNode : β → Node} {b : β} (hkind : w₀.current.kind = .keyword k)
    (hwhole : (toNode b).IsWhole) (hparts : (toNode b).parts = words [k])
    (hspan : (toNode b).span = w₀.current.span) :
    From n w₀ [] (Parser.advance >>= fun _ => Pure.pure b) fun b w₁ =>
      w₀.Reads [.node (toNode b)] w₁ :=
  leaf hkind (by rintro ⟨⟩)
    (Grammar.fits_node hwhole hparts (Grammar.fits_kind hkind) hspan)

/-- A block on the lines below. -/
theorem body {x : Parser Block} {f : Block → Parser β} (hx : TakesBlock n x)
    (hf : ∀ b, From (n + 1) w₀ (ps ++ Grammar.body b) (f b) good) :
    From (n + 1) w₀ ps (Parser.expectBreak >>= fun _ => x >>= f) good := by
  rw [← bind_assoc]
  exact bind (takes_body hx) hf

/-- A block behind the words that open it. -/
theorem someBody {x : Parser Block} {f : Option Block → Parser β} {lead : List Keyword}
    (hx : TakesBlock n x)
    (hf : ∀ b, From (n + 1) w₀ (ps ++ Grammar.optionalBody lead b) (f b) good) :
    From (n + 1) w₀ (ps ++ words lead)
      (Parser.expectBreak >>= fun _ => some <$> x >>= f) good := by
  simp only [map_eq_pure_bind, bind_assoc, pure_bind]
  refine body hx fun b => ?_
  rw [List.append_assoc]
  exact hf (some b)

/-- A block that a word opens may be left out. -/
theorem optionalBody {x : Parser Block} {f : Option Block → Parser β} {k : Keyword}
    (hx : TakesBlock n x)
    (hf : ∀ b, From (n + 1) w₀ (ps ++ Grammar.optionalBody [k] b) (f b) good) :
    From (n + 1) w₀ ps (Parser.accept k >>= fun b =>
      if b = true then Parser.expectBreak >>= fun _ => some <$> x >>= f else f none) good :=
  acceptWord (onTrue (someBody hx hf)) (onFalse (cast (List.append_nil ps) (hf none)))

/-- A block that two words open may be left out. -/
theorem optionalBody₂ {x : Parser Block} {f : Option Block → Parser β} {k l : Keyword}
    (hx : TakesBlock n x)
    (hf : ∀ b, From (n + 1) w₀ (ps ++ Grammar.optionalBody [k, l] b) (f b) good) :
    From (n + 1) w₀ ps (Parser.accept k >>= fun b =>
      if b = true then Parser.expectWord l >>= fun _ => Parser.expectBreak >>= fun _ =>
        some <$> x >>= f
      else f none) good := by
  refine acceptWord (onTrue (bind takes_expectWord fun _ => ?_))
    (onFalse (cast (List.append_nil ps) (hf none)))
  rw [List.append_assoc]
  exact someBody hx hf

end From

end Parser
end LolToolchain
