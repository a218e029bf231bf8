import LolToolchain.Proofs.Program.Rendering

/-!
Written programs are read back. Each parser is followed on a window whose lexemes are known: it
yields the tree that they were written for, up to spans, and leaves what stands behind them in view.
-/
namespace LolToolchain

theorem Lexeme.kind_unspanned (l : Lexeme) : l.unspanned.kind = l.kind := by
  cases l with
  | string text insertions => cases insertions <;> rfl
  | _ => rfl

theorem Lexeme.exists_of_unspanned_string {l : Lexeme} {t : Text} {ins : List Insertion}
    (h : l.unspanned = .string t ins) :
    ∃ ins', l = .string t ins' ∧ ins'.map Insertion.unspanned = ins := by
  cases l with
  | string text insertions =>
    obtain ⟨rfl, rfl⟩ := Lexeme.string.inj h
    exact ⟨insertions, rfl, rfl⟩
  | _ => cases h

/-- A lexeme without spans in it is known as it is. -/
theorem Lexeme.eq_of_unspanned {l m : Lexeme} (h : l.unspanned = m)
    (hm : ∀ text insertions, m ≠ .string text insertions) : l = m := by
  cases l with
  | string text insertions => exact absurd h.symm (hm _ _)
  | _ => exact h

namespace Window

/-- The lexemes in view, from the current one to the last. -/
def Shows (w : Window) (ls : List Lexeme) : Prop :=
  ∃ ts : List Token, w.ahead = ts.map .ok ∧
    w.current.lexeme.unspanned :: ts.map (fun t => t.lexeme.unspanned) = ls

variable {w : Window} {l m : Lexeme} {ls : List Lexeme}

theorem Shows.current (h : w.Shows (l :: ls)) : w.current.lexeme.unspanned = l := by
  obtain ⟨ts, -, hls⟩ := h
  exact (List.cons.inj hls).1

theorem Shows.kind (h : w.Shows (l :: ls)) : w.current.kind = l.kind := by
  rw [← h.current, Lexeme.kind_unspanned]
  rfl

theorem Shows.nextKind (h : w.Shows (l :: m :: ls)) : w.nextKind = m.kind := by
  obtain ⟨ts, hahead, hls⟩ := h
  obtain ⟨-, hls⟩ := List.cons.inj hls
  cases ts with
  | nil => cases hls
  | cons t ts =>
    obtain ⟨ht, -⟩ := List.cons.inj hls
    rw [Window.nextKind, hahead, ← ht, Lexeme.kind_unspanned]
    rfl

theorem show?_eq {t : Token} {ts : List Token} {prevEnd : Int} :
    show? t (ts.map .ok) prevEnd = .ok ⟨t, ts.map .ok, prevEnd⟩ := by
  cases ts <;> rfl

/-- At the start of a text its tokens are in view. -/
theorem exists_start (eof : Token) {ts : List Token} (hts : ts ≠ []) :
    ∃ w, start? eof (ts.map .ok) = .ok w ∧ w.Shows (ts.map fun t => t.lexeme.unspanned) := by
  cases ts with
  | nil => exact absurd rfl hts
  | cons t ts => exact ⟨⟨t, ts.map .ok, 0⟩, show?_eq, ts, rfl, rfl⟩

theorem Shows.advance (h : w.Shows (l :: ls)) (hls : ls ≠ []) :
    ∃ w', w.advance = .ok w' ∧ w'.Shows ls := by
  obtain ⟨ts, hahead, heq⟩ := h
  obtain ⟨-, rfl⟩ := List.cons.inj heq
  cases ts with
  | nil => exact absurd rfl hls
  | cons t ts =>
    refine ⟨⟨t, ts.map .ok, w.current.span.stop⟩, ?_, ts, rfl, rfl⟩
    rw [Window.advance, hahead]
    exact show?_eq

/-- Without a line break in view nothing is skipped. -/
theorem Shows.skipBreaks_none (h : w.Shows (l :: ls)) (hl : l.kind ≠ .lineBreak) :
    ∃ w', skipBreaks w.current w.ahead w.prevEnd = .ok w' ∧ w'.Shows (l :: ls) := by
  have hkind := h.kind
  obtain ⟨ts, hahead, heq⟩ := h
  refine ⟨⟨w.current, ts.map .ok, w.prevEnd⟩, ?_, ts, rfl, heq⟩
  rw [hahead]
  unfold skipBreaks
  rw [hkind, if_neg (mt beq_iff_eq.1 hl)]
  exact show?_eq

theorem Shows.skipBreaks_one (h : w.Shows (.lineBreak :: l :: ls)) (hl : l.kind ≠ .lineBreak) :
    ∃ w', skipBreaks w.current w.ahead w.prevEnd = .ok w' ∧ w'.Shows (l :: ls) := by
  have hkind := h.kind
  obtain ⟨ts, hahead, heq⟩ := h
  obtain ⟨-, heq⟩ := List.cons.inj heq
  cases ts with
  | nil => cases heq
  | cons t ts =>
    have hnext : Shows ⟨t, ts.map .ok, w.current.span.stop⟩ (l :: ls) := ⟨ts, rfl, heq⟩
    obtain ⟨w', hskip, hw'⟩ := hnext.skipBreaks_none hl
    refine ⟨w', ?_, hw'⟩
    unfold skipBreaks
    rw [hkind, hahead]
    exact hskip

end Window

namespace Parser

/-- A parser that yields something good from a window and leaves lexemes in view. -/
def Gives {α : Type} (x : Parser α) (w : Window) (good : α → Prop) (rest : List Lexeme) : Prop :=
  ∃ a w', x w = .ok (a, w') ∧ good a ∧ w'.Shows rest

namespace Gives

variable {α β : Type} {x : Parser α} {w : Window} {good : α → Prop} {good' : β → Prop}
  {l : Lexeme} {ls rest rest' : List Lexeme} {k : Keyword} {kind : TokenKind}

theorem bind {f : α → Parser β} (hx : Gives x w good rest)
    (hf : ∀ a w', good a → w'.Shows rest → Gives (f a) w' good' rest') :
    Gives (x >>= f) w good' rest' := by
  obtain ⟨a, w', hrun, ha, hw'⟩ := hx
  obtain ⟨b, w'', hrun', hb, hw''⟩ := hf a w' ha hw'
  refine ⟨b, w'', ?_, hb, hw''⟩
  change (x w >>= fun p => f p.1 p.2) = _
  rw [hrun]
  exact hrun'

theorem pure {a : α} (h : good a) (hw : w.Shows rest) : Gives (pure a) w good rest :=
  ⟨a, w, rfl, h, hw⟩

theorem bindMap {γ : Type} {g : α → γ} {f : γ → Parser β} (hx : Gives x w good rest)
    (hf : ∀ a w', good a → w'.Shows rest → Gives (f (g a)) w' good' rest') :
    Gives (g <$> x >>= f) w good' rest' := by
  rw [bind_map_left]
  exact hx.bind hf

/-! Looking at the window does not change it, so what follows is judged at the same window. -/

theorem run_peeked {f : α → Parser β} {a : α} (hx : x w = .ok (a, w)) : (x >>= f) w = f a w := by
  change (x w >>= fun p => f p.1 p.2) = _
  rw [hx]
  rfl

theorem peeked {f : α → Parser β} {a : α} (hx : x w = .ok (a, w)) (h : Gives (f a) w good' rest) :
    Gives (x >>= f) w good' rest := by
  rw [Gives, run_peeked hx]
  exact h

theorem seen {f : Bool → Parser β} (hkind : w.current.kind = kind)
    (h : Gives (f true) w good' rest) : Gives (sees kind >>= f) w good' rest :=
  peeked (congrArg (fun b => Except.ok (b, w)) (beq_iff_eq.2 hkind)) h

theorem unseen {f : Bool → Parser β} (hkind : w.current.kind ≠ kind)
    (h : Gives (f false) w good' rest) : Gives (sees kind >>= f) w good' rest :=
  peeked (congrArg (fun b => Except.ok (b, w)) (beq_eq_false_iff_ne.2 hkind)) h

/-- A word that is not there is not taken. -/
theorem refused {f : Bool → Parser β} (hkind : w.current.kind ≠ .keyword k)
    (h : Gives (f false) w good' rest) : Gives (accept k >>= f) w good' rest := by
  refine peeked ?_ h
  change (if (w.current.kind == .keyword k) = true then _ else _ : Parser Bool) w = _
  rw [beq_eq_false_iff_ne.2 hkind]
  rfl

/-- A node over the text that was read. -/
theorem node {start : Span} {f : Span → α} (hw : w.Shows rest) (hf : ∀ s, good (f s)) :
    Gives (do return f (← spanFrom start)) w good rest :=
  ⟨_, w, rfl, hf _, hw⟩

theorem advance (hw : w.Shows (l :: ls)) (hls : ls ≠ []) :
    Gives advance w (fun _ => True) ls := by
  obtain ⟨w', hrun, hw'⟩ := hw.advance hls
  refine ⟨(), w', ?_, trivial, hw'⟩
  change (do return ((), ← w.advance)) = _
  rw [hrun]
  rfl

theorem expect (hw : w.Shows (l :: ls)) (hl : l.kind = kind) (hls : ls ≠ []) :
    Gives (expect kind) w (fun _ => True) ls :=
  seen (hw.kind.trans hl) (advance hw hls)

theorem expectWord (hw : w.Shows (k.lexeme :: ls)) (hls : ls ≠ []) :
    Gives (expectWord k) w (fun _ => True) ls :=
  expect hw rfl hls

theorem expectWords : ∀ {ks : List Keyword} {w : Window}, w.Shows (Keyword.lexemes ks ++ ls) →
    ls ≠ [] → Gives (expectWords ks) w (fun _ => True) ls
  | [], _, hw, _ => pure trivial hw
  | _ :: _, _, hw, hls =>
    (expectWord hw (List.append_ne_nil_of_right_ne_nil _ hls)).bind fun _ _ _ hw' =>
      expectWords hw' hls

theorem accept (hw : w.Shows (k.lexeme :: ls)) (hls : ls ≠ []) :
    Gives (accept k) w (· = true) ls :=
  seen hw.kind ((advance hw hls).bind fun _ _ _ hw' => pure rfl hw')

theorem skipBreaks (hw : w.Shows (l :: ls) ∨ w.Shows (.lineBreak :: l :: ls))
    (hl : l.kind ≠ .lineBreak) : Gives skipBreaks w (fun _ => True) (l :: ls) := by
  obtain ⟨w', hrun, hw'⟩ := hw.elim (·.skipBreaks_none hl) (·.skipBreaks_one hl)
  refine ⟨(), w', ?_, trivial, hw'⟩
  change (do return ((), ← Window.skipBreaks w.current w.ahead w.prevEnd)) = _
  rw [hrun]
  rfl

theorem expectBreak (hw : w.Shows (.lineBreak :: l :: ls)) (hl : l.kind ≠ .lineBreak) :
    Gives expectBreak w (fun _ => True) (l :: ls) :=
  (expect hw rfl (by simp)).bind fun _ _ _ hw' => skipBreaks (.inl hw') hl

theorem ident {id : Ident} (hw : w.Shows (id.lexeme :: ls)) (hls : ls ≠ []) :
    Gives ident w (fun id' => id'.unspanned = id.unspanned) ls := by
  have hlexeme : w.current.lexeme = .identifier id.name :=
    Lexeme.eq_of_unspanned hw.current (by rintro _ _ ⟨⟩)
  refine peeked rfl ?_
  simp only [hlexeme]
  exact (advance hw hls).bind fun _ _ _ hw' => pure rfl hw'

theorem target {id : Ident} (hw : w.Shows (id.targetLexeme :: ls)) (hls : ls ≠ []) :
    Gives target w (fun id' => id'.unspanned = id.unspanned) ls := by
  refine peeked rfl ?_
  rw [Ident.targetLexeme] at hw
  split at hw
  · rename_i hname
    refine (accept hw hls).bind fun b _ hb hw' => ?_
    rw [hb]
    refine pure ?_ hw'
    rw [Ident.unspanned, Ident.unspanned, hname]
    rfl
  · refine refused ?_ (ident hw hls)
    rw [hw.kind]
    rintro ⟨⟩

theorem typeName {t : TypeName} (hw : w.Shows (t.word.lexeme :: ls)) (hls : ls ≠ []) :
    Gives typeName w (· = t) ls := by
  have htype : typeOfWord? t.word = some t := by cases t <;> rfl
  refine peeked rfl ?_
  rw [hw.kind]
  simp only [Keyword.lexeme, Lexeme.kind, htype]
  exact (advance hw hls).bind fun _ _ _ hw' => pure rfl hw'

end Gives

/-- Tokens that do not end anything; an expression starts with one of them. -/
def starts : TokenKind → Bool
  | .lineBreak | .endOfInput => false
  | .keyword k =>
    k ∉ [.MKAY, .FRONT, .BAK, .A, .IF, .IM, .OMG, .OMGWTF, .OIC, .MEBBE, .NO, .KTHXBYE]
  | _ => true

variable {spell : Numbar → Text × Text} {sub : Parser Expr} {n fuel : Nat} {w : Window}
  {l : Lexeme} {ls rest : List Lexeme} {x y : Expr} {xs : List Expr}

theorem ne_of_starts {kind kind' : TokenKind} (h : starts kind = true)
    (h' : starts kind' = false) : kind ≠ kind' := by
  rintro rfl
  rw [h'] at h
  cases h

theorem exists_starts (hx : x.Meets (.rendered spell)) :
    ∃ l ls, x.lexemes spell = l :: ls ∧ starts l.kind = true := by
  cases x with
  | binary _ op x y =>
    have hop : op.IsWritten := hx.2.2
    cases op with
    | gt | lt | ge | le => exact hop.elim
    | _ => exact ⟨_, _, rfl, rfl⟩
  | interp _ _ splices => cases splices <;> exact ⟨_, _, rfl, rfl⟩
  | bool _ b => cases b <;> exact ⟨_, _, rfl, rfl⟩
  | unary _ op x => cases op <;> exact ⟨_, _, rfl, rfl⟩
  | nary _ op x => cases op <;> exact ⟨_, _, rfl, rfl⟩
  | _ => exact ⟨_, _, rfl, rfl⟩

theorem starts_of_shows (hx : x.Meets (.rendered spell)) (hw : w.Shows (x.lexemes spell ++ ls)) :
    starts w.current.kind = true := by
  obtain ⟨m, ms, hms, hm⟩ := exists_starts hx
  rw [hms] at hw
  rw [hw.kind, hm]

theorem lexemes_ne_nil (hx : x.Meets (.rendered spell)) : x.lexemes spell ≠ [] := by
  obtain ⟨l, ls, hls, -⟩ := exists_starts hx
  rw [hls]
  exact List.cons_ne_nil l ls

theorem unspannedAll_cons {x' : Expr} {xs' : List Expr} (hx : x'.unspanned = x.unspanned)
    (hxs : Expr.unspannedAll xs' = Expr.unspannedAll xs) :
    Expr.unspannedAll (x' :: xs') = Expr.unspannedAll (x :: xs) := by
  rw [Expr.unspannedAll, Expr.unspannedAll, hx, hxs]

/-- What stands behind an element of a list: `AN` and the elements left, if there are any. -/
def following (spell : Numbar → Text × Text) (lead : List Keyword) :
    List Expr → List Lexeme → List Lexeme
  | [], tail => tail
  | x :: xs, tail => Keyword.lexeme .AN :: (Expr.listed spell lead (x :: xs) ++ tail)

theorem listed_cons (spell : Numbar → Text × Text) (lead : List Keyword) (x : Expr)
    (xs : List Expr) (tail : List Lexeme) :
    Expr.listed spell lead (x :: xs) ++ tail =
      Keyword.lexemes lead ++ (x.lexemes spell ++ following spell lead xs tail) := by
  cases xs with
  | nil => rw [Expr.listed, List.append_assoc, following]
  | cons y ys => rw [Expr.listed, List.append_assoc, List.append_assoc, List.cons_append, following]

/-- Each element takes part in the length of a list. -/
theorem length_listed (lead : List Keyword) (xs : List Expr) (hx : x.Meets (.rendered spell)) :
    (x.lexemes spell).length ≤ (Expr.listed spell lead (x :: xs)).length ∧
      (Expr.listed spell lead xs).length < (Expr.listed spell lead (x :: xs)).length := by
  obtain ⟨l, ls, hls, -⟩ := exists_starts hx
  have h := congrArg List.length (listed_cons spell lead x xs [])
  rw [hls] at h ⊢
  cases xs with
  | nil =>
    simp only [following, Expr.listed, List.append_nil, List.length_append, List.length_cons,
      List.length_nil] at h ⊢
    omega
  | cons y ys =>
    simp only [following, List.append_nil, List.length_append, List.length_cons] at h ⊢
    omega

/-- A parser that reads expressions of up to a number of lexemes back. A dot behind an expression
would become part of it. -/
def ReadsBack (spell : Numbar → Text × Text) (sub : Parser Expr) (n : Nat) : Prop :=
  ∀ ⦃x : Expr⦄ ⦃w : Window⦄ ⦃l : Lexeme⦄ ⦃rest : List Lexeme⦄,
    w.Shows (x.lexemes spell ++ l :: rest) → l.kind ≠ .dot → x.Meets (.rendered spell) →
    (x.lexemes spell).length ≤ n → Gives sub w (fun y => y.unspanned = x.unspanned) (l :: rest)

/-- What `ReadsBack` says of one expression. -/
def ReadsBackAt (spell : Numbar → Text × Text) (sub : Parser Expr) (n : Nat) (x : Expr) : Prop :=
  ∀ ⦃w : Window⦄ ⦃l : Lexeme⦄ ⦃rest : List Lexeme⦄,
    w.Shows (x.lexemes spell ++ l :: rest) → l.kind ≠ .dot → x.Meets (.rendered spell) →
    (x.lexemes spell).length ≤ n → Gives sub w (fun y => y.unspanned = x.unspanned) (l :: rest)

namespace ReadsBack

variable (hsub : ReadsBack spell sub n)

include hsub

theorem operands {start : Span} {op : BinaryOp}
    (hw : w.Shows (x.lexemes spell ++ Keyword.lexeme .AN :: (y.lexemes spell ++ l :: rest)))
    (hl : l.kind ≠ .dot) (hx : x.Meets (.rendered spell)) (hy : y.Meets (.rendered spell))
    (hlen : (x.lexemes spell).length + (y.lexemes spell).length ≤ n) :
    Gives (operands sub start op) w
      (fun e => e.unspanned = .binary .zero op x.unspanned y.unspanned) (l :: rest) := by
  refine (hsub hw nofun hx (by omega)).bind fun x' _ hx' hw => ?_
  refine (Gives.expectWord hw (by simp)).bind fun _ _ _ hw => ?_
  refine (hsub hw hl hy (by omega)).bind fun y' _ hy' hw => ?_
  refine Gives.node hw fun s => ?_
  rw [Expr.unspanned, hx', hy']

theorem looseOperands {start : Span} {op : BinaryOp}
    (hw : w.Shows (x.lexemes spell ++ Keyword.lexeme .AN :: (y.lexemes spell ++ l :: rest)))
    (hl : l.kind ≠ .dot) (hx : x.Meets (.rendered spell)) (hy : y.Meets (.rendered spell))
    (hlen : (x.lexemes spell).length + (y.lexemes spell).length ≤ n) :
    Gives (looseOperands sub start op) w
      (fun e => e.unspanned = .binary .zero op x.unspanned y.unspanned) (l :: rest) := by
  refine (hsub hw nofun hx (by omega)).bind fun x' _ hx' hw => ?_
  refine (Gives.accept hw (by simp)).bind fun _ _ _ hw => ?_
  refine (hsub hw hl hy (by omega)).bind fun y' _ hy' hw => ?_
  refine Gives.node hw fun s => ?_
  rw [Expr.unspanned, hx', hy']

/-- An element of a list is read, and `AN` behind it unless it is the last. -/
theorem element {β : Type} {f : Expr → Bool → Parser β} {good : β → Prop} {lead : List Keyword}
    {rest' : List Lexeme} (hw : w.Shows (x.lexemes spell ++ following spell lead xs (l :: rest)))
    (hdot : l.kind ≠ .dot) (hand : l.kind ≠ .keyword .AN) (hx : x.Meets (.rendered spell))
    (hlen : (x.lexemes spell).length ≤ n)
    (hf : ∀ x' w', x'.unspanned = x.unspanned →
      w'.Shows (Expr.listed spell lead xs ++ l :: rest) → Gives (f x' !xs.isEmpty) w' good rest') :
    Gives (do f (← sub) (← accept .AN)) w good rest' := by
  cases xs with
  | nil =>
    refine (hsub hw hdot hx hlen).bind fun x' _ hx' hw => ?_
    exact Gives.refused (by rwa [hw.kind]) (hf x' _ hx' hw)
  | cons y ys =>
    refine (hsub hw nofun hx hlen).bind fun x' _ hx' hw => ?_
    refine (Gives.accept hw (by simp)).bind fun b _ hb hw => ?_
    rw [hb]
    exact hf x' _ hx' hw

/-- Operands are read up to the `MKAY` behind them. -/
theorem untilMkay
    (hw : w.Shows (Expr.listed spell [] xs ++ Keyword.lexeme .MKAY :: l :: rest))
    (hxs : Expr.MeetsAll (.rendered spell) xs) (hlen : (Expr.listed spell [] xs).length ≤ n)
    (hfuel : (Expr.listed spell [] xs).length < fuel) :
    Gives (untilMkay sub fuel) w (fun ys => Expr.unspannedAll ys = Expr.unspannedAll xs)
      (l :: rest) := by
  induction xs generalizing fuel w with
  | nil =>
    obtain ⟨fuel, rfl⟩ : ∃ k, fuel = k + 1 := ⟨fuel - 1, by omega⟩
    refine (Gives.accept hw (by simp)).bind fun b _ hb hw => ?_
    rw [hb]
    exact .pure rfl hw
  | cons x xs ih =>
    obtain ⟨fuel, rfl⟩ : ∃ k, fuel = k + 1 := ⟨fuel - 1, by omega⟩
    obtain ⟨hx, hxs⟩ := hxs
    have hlength := length_listed [] xs hx
    rw [listed_cons] at hw
    have hstarts := starts_of_shows hx hw
    refine Gives.refused (ne_of_starts hstarts rfl) ?_
    refine Gives.unseen (ne_of_starts hstarts rfl) ?_
    refine Gives.unseen (ne_of_starts hstarts rfl) ?_
    refine hsub.element hw nofun nofun hx (by omega) fun x' _ hx' hw => ?_
    exact (ih hw hxs (by omega) (by omega)).bind fun xs' _ hxs' hw =>
      .pure (unspannedAll_cons hx' hxs') hw

/-- Parts are read up to the `MKAY` behind them. -/
theorem concatParts
    (hw : w.Shows (Expr.listed spell [] xs ++ Keyword.lexeme .MKAY :: l :: rest)) (hne : xs ≠ [])
    (hxs : Expr.MeetsAll (.rendered spell) xs) (hlen : (Expr.listed spell [] xs).length ≤ n)
    (hfuel : (Expr.listed spell [] xs).length ≤ fuel) :
    Gives (concatParts sub fuel) w (fun ys => Expr.unspannedAll ys = Expr.unspannedAll xs)
      (l :: rest) := by
  induction xs generalizing fuel w with
  | nil => exact absurd rfl hne
  | cons x xs ih =>
    obtain ⟨hx, hxs⟩ := hxs
    have hlength := length_listed [] xs hx
    obtain ⟨fuel, rfl⟩ : ∃ k, fuel = k + 1 := ⟨fuel - 1, by omega⟩
    rw [listed_cons] at hw
    refine hsub.element hw nofun nofun hx (by omega) fun x' _ hx' hw => ?_
    cases xs with
    | nil =>
      refine (Gives.accept hw (by simp)).bind fun b _ hb hw => ?_
      rw [hb]
      exact .pure (unspannedAll_cons hx' rfl) hw
    | cons y ys =>
      exact (ih hw nofun hxs (by omega) (by omega)).bind fun xs' _ hxs' hw =>
        .pure (unspannedAll_cons hx' hxs') hw

/-- Arguments are read up to a word that is not `AN`. -/
private theorem callArgs (hw : w.Shows (Expr.listed spell [.YR] xs ++ l :: rest)) (hdot : l.kind ≠ .dot)
    (hand : l.kind ≠ .keyword .AN) (hne : xs ≠ []) (hxs : Expr.MeetsAll (.rendered spell) xs)
    (hlen : (Expr.listed spell [.YR] xs).length ≤ n)
    (hfuel : (Expr.listed spell [.YR] xs).length ≤ fuel) :
    Gives (callArgs sub fuel) w (fun ys => Expr.unspannedAll ys = Expr.unspannedAll xs)
      (l :: rest) := by
  induction xs generalizing fuel w with
  | nil => exact absurd rfl hne
  | cons x xs ih =>
    obtain ⟨hx, hxs⟩ := hxs
    have hlength := length_listed [.YR] xs hx
    obtain ⟨fuel, rfl⟩ : ∃ k, fuel = k + 1 := ⟨fuel - 1, by omega⟩
    rw [listed_cons] at hw
    refine (Gives.expectWord hw (by simp [lexemes_ne_nil hx])).bind fun _ _ _ hw => ?_
    refine hsub.element hw hdot hand hx (by omega) fun x' _ hx' hw => ?_
    cases xs with
    | nil =>
      exact .pure (unspannedAll_cons hx' rfl) hw
    | cons y ys =>
      exact (ih hw nofun hxs (by omega) (by omega)).bind fun xs' _ hxs' hw =>
        .pure (unspannedAll_cons hx' hxs') hw

/-- A call may have no arguments. -/
theorem optionalArgs {β : Type} {f : List Expr → Parser β} {good : β → Prop}
    {rest' : List Lexeme}
    (hw : w.Shows (Expr.listed spell [.YR] xs ++ Keyword.lexeme .MKAY :: rest))
    (hxs : Expr.MeetsAll (.rendered spell) xs)
    (hlen : (Expr.listed spell [.YR] xs).length ≤ n)
    (hfuel : (Expr.listed spell [.YR] xs).length ≤ fuel)
    (hf : ∀ ys w', Expr.unspannedAll ys = Expr.unspannedAll xs →
      w'.Shows (Keyword.lexeme .MKAY :: rest) → Gives (f ys) w' good rest') :
    Gives (do
      if ← seesWord .YR then Parser.callArgs sub fuel >>= f
      else Pure.pure [] >>= f) w good rest' := by
  cases xs with
  | nil =>
    refine Gives.unseen (by rw [hw.kind]; nofun) ?_
    exact hf [] w rfl hw
  | cons x xs =>
    refine Gives.seen ?_ ((hsub.callArgs hw nofun nofun nofun hxs hlen hfuel).bind hf)
    rw [listed_cons] at hw
    exact hw.kind

/-- Elements are read up to `MKAY`, which stays in view. -/
theorem listElems
    (hw : w.Shows (Expr.listed spell [] xs ++ Keyword.lexeme .MKAY :: rest))
    (hxs : Expr.MeetsAll (.rendered spell) xs) (hlen : (Expr.listed spell [] xs).length ≤ n)
    (hfuel : (Expr.listed spell [] xs).length < fuel) :
    Gives (listElems sub fuel) w (fun ys => Expr.unspannedAll ys = Expr.unspannedAll xs)
      (Keyword.lexeme .MKAY :: rest) := by
  induction xs generalizing fuel w with
  | nil =>
    obtain ⟨fuel, rfl⟩ : ∃ k, fuel = k + 1 := ⟨fuel - 1, by omega⟩
    exact Gives.seen hw.kind (.pure rfl hw)
  | cons x xs ih =>
    obtain ⟨hx, hxs⟩ := hxs
    have hlength := length_listed [] xs hx
    obtain ⟨fuel, rfl⟩ : ∃ k, fuel = k + 1 := ⟨fuel - 1, by omega⟩
    rw [listed_cons] at hw
    refine Gives.unseen (ne_of_starts (starts_of_shows hx hw) rfl) ?_
    refine hsub.element hw nofun nofun hx (by omega) fun x' _ hx' hw => ?_
    cases xs with
    | nil =>
      exact .pure (unspannedAll_cons hx' rfl) hw
    | cons y ys =>
      exact (ih hw hxs (by omega) (by omega)).bind fun xs' _ hxs' hw =>
        .pure (unspannedAll_cons hx' hxs') hw

end ReadsBack

private theorem map_spliceOf {ins : List Insertion} {splices : List Splice}
    (h : ins.map Insertion.unspanned = splices.map Splice.insertion) :
    (ins.map spliceOf).map Splice.unspanned = splices.map Splice.unspanned := by
  have hsplices := congrArg (List.map spliceOf) h
  rw [List.map_map, List.map_map] at hsplices
  rw [List.map_map]
  exact hsplices

/-- A whole number; no dot makes it a fraction. -/
theorem gives_int {span : Span} {t : Text} {v : Int64} (hw : w.Shows (.number t :: l :: rest))
    (hl : l.kind ≠ .dot) (hv : readNumbr? t = some v) :
    Gives (number t span) w (fun e => e.unspanned = .int .zero v) (l :: rest) := by
  refine (Gives.advance hw (by simp)).bind fun _ _ _ hw => ?_
  refine Gives.unseen (by rwa [hw.kind]) ?_
  simp only [hv]
  exact .pure rfl hw

theorem gives_float {span : Span} {whole fraction : Text} {v : Numbar}
    (hw : w.Shows (.number whole :: .dot :: .number fraction :: l :: rest))
    (hv : v.SpelledBy whole fraction) :
    Gives (number whole span) w (fun e => e.unspanned = .float .zero v) (l :: rest) := by
  refine (Gives.advance hw (by simp)).bind fun _ _ _ hw => ?_
  refine Gives.seen hw.kind ?_
  refine (Gives.advance hw (by simp)).bind fun _ w' _ hw => ?_
  have hlexeme : w'.current.lexeme = .number fraction :=
    Lexeme.eq_of_unspanned hw.current (by rintro _ _ ⟨⟩)
  refine Gives.peeked rfl ?_
  simp only [hlexeme, beq_eq_false_iff_ne.2 hv.unsigned]
  refine (Gives.advance hw (by simp)).bind fun _ _ _ hw => ?_
  simp only [hv.read]
  exact .pure rfl hw

theorem gives_string {span : Span} {t : Text}
    (hw : w.Shows ((Expr.string span t).lexemes spell ++ l :: rest)) :
    Gives (exprForm sub fuel) w (fun e => e.unspanned = .string .zero t) (l :: rest) := by
  obtain ⟨ins, hlexeme, hins⟩ := Lexeme.exists_of_unspanned_string hw.current
  obtain rfl := List.map_eq_nil_iff.1 hins
  refine Gives.peeked rfl ?_
  simp only [hlexeme]
  exact (Gives.advance hw (by simp)).bind fun _ _ _ hw => .pure rfl hw

/-- A string with variables in it. -/
theorem gives_interp {span : Span} {t : Text} {splices : List Splice}
    (hw : w.Shows ((Expr.interp span t splices).lexemes spell ++ l :: rest)) (hne : splices ≠ []) :
    Gives (exprForm sub fuel) w (fun e => e.unspanned = (Expr.interp span t splices).unspanned)
      (l :: rest) := by
  obtain ⟨ins, hlexeme, hins⟩ := Lexeme.exists_of_unspanned_string hw.current
  have hsplices := map_spliceOf hins
  refine Gives.peeked rfl ?_
  cases ins with
  | nil =>
    rw [List.map_nil, eq_comm, List.map_eq_nil_iff] at hins
    exact absurd hins hne
  | cons i ins =>
    simp only [hlexeme]
    refine (Gives.advance hw (by simp)).bind fun _ _ _ hw => .pure ?_ hw
    rw [Expr.unspanned, hsplices, Expr.unspanned]

/-- An expression that starts with a reserved word. -/
theorem gives_word {k : Keyword} {good : Expr → Prop} (hw : w.Shows (k.lexeme :: ls))
    (h : ∀ t, Gives (wordExpr sub fuel t k) w good rest) :
    Gives (exprForm sub fuel) w good rest := by
  have hlexeme : w.current.lexeme = k.lexeme := Lexeme.eq_of_unspanned hw.current (by rintro _ _ ⟨⟩)
  refine Gives.peeked rfl ?_
  simp only [hlexeme, Keyword.lexeme]
  exact h _

namespace ReadsBack

variable (hsub : ReadsBack spell sub n)

include hsub

theorem concat {span : Span} (hw : w.Shows ((Expr.concat span xs).lexemes spell ++ l :: rest))
    (hx : (Expr.concat span xs).Meets (.rendered spell)) (hfuel : n ≤ fuel)
    (hlen : ((Expr.concat span xs).lexemes spell).length ≤ n + 1) :
    Gives (exprForm sub fuel) w (fun e => e.unspanned = (Expr.concat span xs).unspanned)
      (l :: rest) := by
  simp only [Expr.lexemes, List.append_assoc, List.cons_append, List.nil_append] at hw
  simp only [Expr.lexemes, List.length_append, List.length_cons] at hlen
  refine gives_word hw fun t => ?_
  refine (Gives.advance hw (by simp)).bind fun _ _ _ hw => ?_
  refine (hsub.concatParts hw hx.2.2 hx.2.1 (by omega) (by omega)).bind fun xs' _ hxs' hw => ?_
  refine Gives.node hw fun s => ?_
  rw [Expr.unspanned, hxs', Expr.unspanned]

theorem list {span : Span} (hfuel : n ≤ fuel) :
    ReadsBackAt spell (exprForm sub fuel) (n + 1) (.list span xs) := by
  intro w l rest hw _ hx hlen
  simp only [Expr.lexemes, List.append_assoc, List.cons_append, List.nil_append] at hw
  simp only [Expr.lexemes, List.length_append, List.length_cons, Keyword.lexemes,
    List.length_map] at hlen
  refine gives_word hw fun t => ?_
  refine (Gives.advance hw (by simp)).bind fun _ _ _ hw => ?_
  refine (Gives.accept hw (by simp)).bind fun b _ hb hw => ?_
  rw [hb]
  refine (hsub.listElems hw hx.2 (by omega) (by omega)).bind fun xs' _ hxs' hw => ?_
  refine (Gives.expectWord hw (by simp)).bind fun _ _ _ hw => ?_
  rw [pure_bind]
  refine Gives.node hw fun s => ?_
  rw [Expr.unspanned, hxs', Expr.unspanned]

theorem call {span : Span} {id : Ident} (hfuel : n ≤ fuel) :
    ReadsBackAt spell (exprForm sub fuel) (n + 1) (.call span id xs) := by
  intro w l rest hw _ hx hlen
  simp only [Expr.lexemes, List.append_assoc, List.cons_append, List.nil_append] at hw
  simp only [Expr.lexemes, List.length_append, List.length_cons] at hlen
  refine gives_word hw fun t => ?_
  refine (Gives.expectWords hw (by simp)).bind fun _ _ _ hw => ?_
  refine (Gives.ident hw (by simp)).bind fun id' _ hid hw => ?_
  refine hsub.optionalArgs hw hx.2.2 (by omega) (by omega) fun xs' _ hxs' hw => ?_
  refine (Gives.expectWord hw (by simp)).bind fun _ _ _ hw => ?_
  refine Gives.node hw fun s => ?_
  rw [Expr.unspanned, hid, hxs', Expr.unspanned]

theorem cast {span : Span} {goal : TypeName} :
    ReadsBackAt spell (exprForm sub fuel) (n + 1) (.cast span x goal) := by
  intro w l rest hw _ hx hlen
  simp only [Expr.lexemes, List.append_assoc, List.cons_append] at hw
  simp only [Expr.lexemes, List.length_append, List.length_cons] at hlen
  refine gives_word hw fun t => ?_
  refine (Gives.advance hw (by simp)).bind fun _ _ _ hw => ?_
  refine (hsub hw (by rintro ⟨⟩) hx.2 (by omega)).bind fun x' _ hx' hw => ?_
  refine (Gives.accept hw (by simp)).bind fun b _ hb hw => ?_
  refine (Gives.typeName hw (by simp)).bind fun goal' _ hgoal hw => ?_
  refine Gives.node hw fun s => ?_
  rw [Expr.unspanned, hx', hgoal, Expr.unspanned]

private theorem nary {span : Span} {op : ListOp} (hfuel : n ≤ fuel) :
    ReadsBackAt spell (exprForm sub fuel) (n + 1) (.nary span op xs) := by
  intro w l rest hw _ hx hlen
  simp only [Expr.lexemes, List.append_assoc, List.cons_append, List.nil_append] at hw
  simp only [Expr.lexemes, List.length_append, List.length_cons] at hlen
  cases op with
  | all | any =>
    simp only [ListOp.words, Keyword.lexemes, List.length_map, List.length_cons] at hlen
    refine gives_word hw fun t => ?_
    refine (Gives.advance hw (by simp)).bind fun _ _ _ hw => ?_
    refine (Gives.expectWord hw (by simp)).bind fun _ _ _ hw => ?_
    refine (hsub.untilMkay hw hx.2 (by omega) (by omega)).bind fun xs' _ hxs' hw => ?_
    refine Gives.node hw fun s => ?_
    rw [Expr.unspanned, hxs', Expr.unspanned]

private theorem unary {span : Span} {op : UnaryOp} :
    ReadsBackAt spell (exprForm sub fuel) (n + 1) (.unary span op x) := by
  intro w l rest hw hl hx hlen
  simp only [Expr.lexemes, List.append_assoc] at hw
  simp only [Expr.lexemes, List.length_append] at hlen
  cases op with
  | not =>
    simp only [UnaryOp.words, Keyword.lexemes, List.length_map, List.length_cons] at hlen
    refine gives_word hw fun t => ?_
    refine (Gives.advance hw (by simp)).bind fun _ _ _ hw => ?_
    refine (hsub hw hl hx.2 (by omega)).bind fun x' _ hx' hw => ?_
    refine Gives.node hw fun s => ?_
    rw [Expr.unspanned, hx', Expr.unspanned]
  | length =>
    simp only [UnaryOp.words, Keyword.lexemes, List.length_map, List.length_cons] at hlen
    refine gives_word hw fun t => ?_
    refine (Gives.advance hw (by simp)).bind fun _ _ _ hw => ?_
    refine (Gives.expectWord hw (by simp)).bind fun _ _ _ hw => ?_
    refine (hsub hw hl hx.2 (by omega)).bind fun x' _ hx' hw => ?_
    refine Gives.node hw fun s => ?_
    rw [Expr.unspanned, hx', Expr.unspanned]

private theorem pickAt {span : Span} {i : Expr} :
    ReadsBackAt spell (exprForm sub fuel) (n + 1) (.pickAt span i x) := by
  intro w l rest hw hl hx hlen
  simp only [Expr.lexemes, List.append_assoc, List.cons_append] at hw
  simp only [Expr.lexemes, List.length_append, List.length_cons] at hlen
  refine gives_word hw fun t => ?_
  refine (Gives.advance hw (by simp)).bind fun _ _ _ hw => ?_
  have hstarts := starts_of_shows hx.2.1 hw
  refine Gives.refused (ne_of_starts hstarts rfl) ?_
  refine Gives.refused (ne_of_starts hstarts rfl) ?_
  refine (hsub hw (by rintro ⟨⟩) hx.2.1 (by omega)).bind fun i' _ hi' hw => ?_
  refine (Gives.expectWord hw (by simp)).bind fun _ _ _ hw => ?_
  refine (hsub hw hl hx.2.2 (by omega)).bind fun x' _ hx' hw => ?_
  refine Gives.node hw fun s => ?_
  rw [Expr.unspanned, hi', hx', Expr.unspanned]

private theorem pickFront {span : Span} :
    ReadsBackAt spell (exprForm sub fuel) (n + 1) (.pickFront span x) := by
  intro w l rest hw hl hx hlen
  simp only [Expr.lexemes, List.append_assoc] at hw
  simp only [Expr.lexemes, List.length_append, Keyword.lexemes, List.length_map,
    List.length_cons] at hlen
  refine gives_word hw fun t => ?_
  refine (Gives.advance hw (by simp)).bind fun _ _ _ hw => ?_
  refine (Gives.accept hw (by simp)).bind fun b _ hb hw => ?_
  rw [hb]
  refine (Gives.expectWord hw (by simp)).bind fun _ _ _ hw => ?_
  refine (hsub hw hl hx.2 (by omega)).bind fun x' _ hx' hw => ?_
  refine Gives.node hw fun s => ?_
  rw [Expr.unspanned, hx', Expr.unspanned]

private theorem pickBack {span : Span} :
    ReadsBackAt spell (exprForm sub fuel) (n + 1) (.pickBack span x) := by
  intro w l rest hw hl hx hlen
  simp only [Expr.lexemes, List.append_assoc] at hw
  simp only [Expr.lexemes, List.length_append, Keyword.lexemes, List.length_map,
    List.length_cons] at hlen
  refine gives_word hw fun t => ?_
  refine (Gives.advance hw (by simp)).bind fun _ _ _ hw => ?_
  refine Gives.refused (by rw [hw.kind]; rintro ⟨⟩) ?_
  refine (Gives.accept hw (by simp)).bind fun b _ hb hw => ?_
  rw [hb]
  refine (Gives.expectWord hw (by simp)).bind fun _ _ _ hw => ?_
  refine (hsub hw hl hx.2 (by omega)).bind fun x' _ hx' hw => ?_
  refine Gives.node hw fun s => ?_
  rw [Expr.unspanned, hx', Expr.unspanned]

theorem binary {start : Span} {op : BinaryOp} :
    ReadsBackAt spell (exprForm sub fuel) (n + 1) (.binary start op x y) := by
  intro w l rest hw hl hx hlen
  obtain ⟨-, ⟨hx, hy⟩, hop⟩ := hx
  simp only [Expr.lexemes, List.append_assoc, List.cons_append] at hw
  simp only [Expr.lexemes, List.length_append, List.length_cons] at hlen
  have hsize : (x.lexemes spell).length + (y.lexemes spell).length ≤ n := by omega
  -- Nine of the operators are a word and `OF`.
  have hfamily {k : Keyword} (hform : ∀ t, wordExpr sub fuel t k = (do
        advance
        expectWord .OF
        Parser.operands sub t.span op))
      (hw : w.Shows (k.lexeme :: Keyword.lexeme .OF :: (x.lexemes spell ++
        Keyword.lexeme .AN :: (y.lexemes spell ++ l :: rest)))) :
      Gives (exprForm sub fuel) w
        (fun e => e.unspanned = .binary .zero op x.unspanned y.unspanned) (l :: rest) := by
    refine gives_word hw fun t => ?_
    rw [hform]
    refine (Gives.advance hw (by simp)).bind fun _ _ _ hw => ?_
    refine (Gives.expectWord hw (by simp)).bind fun _ _ _ hw => ?_
    exact hsub.operands hw hl hx hy hsize
  cases op with
  | gt | lt | ge | le => exact hop.elim
  | add | sub | mul | div | mod | min | max | or | xor => exact hfamily (fun _ => rfl) hw
  | and =>
    refine gives_word hw fun t => Gives.peeked rfl ?_
    rw [hw.nextKind]
    refine (Gives.advance hw (by simp)).bind fun _ _ _ hw => ?_
    refine (Gives.expectWord hw (by simp)).bind fun _ _ _ hw => ?_
    exact hsub.operands hw hl hx hy hsize
  | equal =>
    refine gives_word hw fun t => Gives.peeked rfl ?_
    rw [hw.nextKind]
    refine (Gives.advance hw (by simp)).bind fun _ _ _ hw => ?_
    refine (Gives.advance hw (by simp)).bind fun _ _ _ hw => ?_
    exact hsub.looseOperands hw hl hx hy hsize
  | notEqual =>
    refine gives_word hw fun t => ?_
    refine (Gives.advance hw (by simp)).bind fun _ _ _ hw => ?_
    exact hsub.looseOperands hw hl hx hy hsize

/-- What a form is made of is read back, so the form is. -/
private theorem exprForm (hfuel : n ≤ fuel) : ReadsBack spell (exprForm sub fuel) (n + 1) := by
  intro x w l rest hw hl hx hlen
  cases x with
  | int _ v =>
    have hlexeme : w.current.lexeme = _ := Lexeme.eq_of_unspanned hw.current (by rintro _ _ ⟨⟩)
    refine Gives.peeked rfl ?_
    simp only [hlexeme]
    exact gives_int hw hl (readNumbr?_ofInt v)
  | float _ v =>
    have hlexeme : w.current.lexeme = _ := Lexeme.eq_of_unspanned hw.current (by rintro _ _ ⟨⟩)
    refine Gives.peeked rfl ?_
    simp only [hlexeme]
    exact gives_float hw hx.2
  | var _ id =>
    have hlexeme : w.current.lexeme = .identifier id.name :=
      Lexeme.eq_of_unspanned hw.current (by rintro _ _ ⟨⟩)
    refine Gives.peeked rfl ?_
    simp only [hlexeme]
    exact (Gives.advance hw (by simp)).bind fun _ _ _ hw => .pure rfl hw
  | string _ t => exact gives_string hw
  | interp _ t splices =>
    exact gives_interp hw fun h => hx.2.1.2.2.1 (congrArg (List.map _) h)
  | bool _ b =>
    cases b with
    | true | false =>
      exact gives_word hw fun t => (Gives.advance hw (by simp)).bind fun _ _ _ hw => .pure rfl hw
  | null _ | it _ =>
    exact gives_word hw fun t => (Gives.advance hw (by simp)).bind fun _ _ _ hw => .pure rfl hw
  | list _ _ => exact hsub.list hfuel hw hl hx hlen
  | call _ _ _ => exact hsub.call hfuel hw hl hx hlen
  | concat _ xs => exact hsub.concat hw hx hfuel hlen
  | cast _ _ _ => exact hsub.cast hw hl hx hlen
  | binary _ _ _ _ => exact hsub.binary hw hl hx hlen
  | nary _ _ _ => exact hsub.nary hfuel hw hl hx hlen
  | unary _ _ _ => exact hsub.unary hw hl hx hlen
  | pickAt _ _ _ => exact hsub.pickAt hw hl hx hlen
  | pickFront _ _ => exact hsub.pickFront hw hl hx hlen
  | pickBack _ _ => exact hsub.pickBack hw hl hx hlen

end ReadsBack

/-- Written expressions are read back, with their number of lexemes as the bound. -/
theorem readsBack_expr (spell : Numbar → Text × Text) : ∀ n, ReadsBack spell (expr n) n
  | 0 => fun _ _ _ _ _ _ hx hlen => absurd (List.length_eq_zero_iff.1 (Nat.le_zero.1 hlen))
    (lexemes_ne_nil hx)
  | n + 1 => (readsBack_expr spell n).exprForm (Nat.le_refl n)

end Parser
end LolToolchain
