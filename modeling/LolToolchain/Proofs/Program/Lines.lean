import LolToolchain.Proofs.Program.Reading

/-!
Written statements are read back, each up to the end of its line, and blocks up to the word that
closes them.
-/
namespace LolToolchain

namespace Parser

variable {spell : Numbar → Text × Text} {sub : Parser Expr} {block : List Keyword → Parser Block}
  {n fuel : Nat} {w : Window} {l : Lexeme} {ls rest rest' : List Lexeme} {ends : List Keyword}
  {s : Stmt} {ss : List Stmt} {start : Span}

/-- A word that closes a block, in front of the rest of the text. -/
def Closes (ends : List Keyword) (l : Lexeme) (rest : List Lexeme) : Prop :=
  ∃ k ∈ ends, l.kind = .keyword k ∧ (k = .IM → ∃ ms, rest = Keyword.lexeme .OUTTA :: ms)

theorem Closes.of_word {k : Keyword} (hk : k ∈ ends) (him : k ≠ .IM) (rest : List Lexeme) :
    Closes ends k.lexeme rest :=
  ⟨k, hk, rfl, fun h => absurd h him⟩

theorem Closes.kind_ne (h : Closes ends l rest) : l.kind ≠ .lineBreak := by
  obtain ⟨k, -, hk, -⟩ := h
  rw [hk]
  nofun

theorem Closes.atEnd (h : Closes ends l rest) (hw : w.Shows (l :: rest)) :
    atEnd ends w = .ok (true, w) := by
  obtain ⟨k, hmem, hk, him⟩ := h
  have hany : (ends.any fun k => w.current.kind == .keyword k &&
      (k != .IM || w.nextKind == .keyword .OUTTA)) = true := by
    refine List.any_eq_true.2 ⟨k, hmem, ?_⟩
    rw [hw.kind, hk, beq_self_eq_true, Bool.true_and]
    by_cases hk' : k = .IM
    · obtain ⟨ms, rfl⟩ := him hk'
      rw [hw.nextKind]
      exact Bool.or_eq_true_iff.2 (.inr rfl)
    · rw [bne_iff_ne.2 hk', Bool.true_or]
  change Except.ok (w.current.kind == .endOfInput || _, w) = _
  rw [hany, Bool.or_true]

/-- A statement does not start like the end of a block. -/
theorem exists_stmt_starts (hs : s.Meets (.rendered spell)) (rest : List Lexeme) :
    ∃ l m ls, s.lexemes spell ++ .lineBreak :: rest = l :: m :: ls ∧
      (starts l.kind = true ∨ l.kind = .keyword .IM ∧ m.kind ≠ .keyword .OUTTA) := by
  cases s with
  | expr _ x =>
    obtain ⟨l, ls, hls, hl⟩ := exists_starts hs.2
    rw [Stmt.lexemes, hls]
    cases ls with
    | nil => exact ⟨l, _, _, rfl, .inl hl⟩
    | cons m ms => exact ⟨l, m, _, rfl, .inl hl⟩
  | assign _ id x =>
    refine ⟨id.targetLexeme, _, _, rfl, .inl ?_⟩
    rw [Ident.targetLexeme]
    split <;> rfl
  | loop _ label close update body =>
    cases body with
    | mk _ body => exact ⟨_, _, _, rfl, .inr ⟨rfl, by rintro ⟨⟩⟩⟩
  | define _ id params body =>
    cases body with
    | mk _ body => exact ⟨_, _, _, rfl, .inl rfl⟩
  | print _ args newline =>
    obtain ⟨x, xs, rfl⟩ := List.exists_cons_of_ne_nil hs.2.2
    obtain ⟨l, ls, hls, hl⟩ := exists_starts hs.2.1.1
    simp only [Stmt.lexemes, List.append_assoc, List.cons_append, listed_cons, hls]
    exact ⟨_, _, _, rfl, .inl rfl⟩
  | append _ id x =>
    obtain ⟨l, ls, hls, hl⟩ := exists_starts hs.2.2
    rw [Stmt.lexemes, hls]
    exact ⟨_, _, _, rfl, .inl rfl⟩
  | store _ id i x =>
    obtain ⟨l, ls, hls, hl⟩ := exists_starts hs.2.2.2
    rw [Stmt.lexemes, hls]
    exact ⟨_, _, _, rfl, .inl rfl⟩
  | _ => exact ⟨_, _, _, rfl, .inl rfl⟩

theorem atEnd_of_stmt (hs : s.Meets (.rendered spell))
    (hw : w.Shows (s.lexemes spell ++ .lineBreak :: rest))
    (hends : ∀ k ∈ ends, starts (.keyword k) = false) : atEnd ends w = .ok (false, w) := by
  obtain ⟨l, m, ls, hls, hl⟩ := exists_stmt_starts hs rest
  rw [hls] at hw
  have heof : (w.current.kind == .endOfInput) = false := by
    rw [hw.kind]
    refine beq_eq_false_iff_ne.2 ?_
    rcases hl with hl | ⟨hl, -⟩
    · exact ne_of_starts hl rfl
    · rw [hl]
      nofun
  have hany : (ends.any fun k => w.current.kind == .keyword k &&
      (k != .IM || w.nextKind == .keyword .OUTTA)) = false := by
    refine List.any_eq_false.2 fun k hk => ?_
    rw [hw.kind, hw.nextKind, Bool.not_eq_true, Bool.and_eq_false_iff]
    rcases hl with hl | ⟨hl, hm⟩
    · exact .inl (beq_eq_false_iff_ne.2 (ne_of_starts hl (hends k hk)))
    · by_cases hk' : k = .IM
      · exact .inr (by rw [hk', beq_eq_false_iff_ne.2 hm]; rfl)
      · refine .inl (beq_eq_false_iff_ne.2 fun h => hk' ?_)
        rw [hl] at h
        exact (TokenKind.keyword.inj h).symm
  change Except.ok (w.current.kind == .endOfInput || _, w) = _
  rw [heof, hany]
  rfl

/-- A parser that reads blocks of less than a number of lexemes back. -/
def ReadsBlocks (spell : Numbar → Text × Text) (block : List Keyword → Parser Block) (n : Nat) :
    Prop :=
  ∀ ⦃ss : List Stmt⦄ ⦃w : Window⦄ ⦃l : Lexeme⦄ ⦃rest : List Lexeme⦄ ⦃ends : List Keyword⦄,
    w.Shows (Stmt.lexemesAll spell ss ++ l :: rest) → Closes ends l rest →
    (∀ k ∈ ends, starts (.keyword k) = false) → Stmt.MeetsAll (.rendered spell) ss →
    (Stmt.lexemesAll spell ss).length < n →
    Gives (block ends) w (fun b => Stmt.unspannedAll b.stmts = Stmt.unspannedAll ss) (l :: rest)

/-- Statements do not start with a line break, nor does the word behind them. -/
theorem exists_line (rest : List Lexeme) (hss : Stmt.MeetsAll (.rendered spell) ss)
    (hl : l.kind ≠ .lineBreak) :
    ∃ m ms, Stmt.lexemesAll spell ss ++ l :: rest = m :: ms ∧ m.kind ≠ .lineBreak := by
  cases ss with
  | nil => exact ⟨l, rest, rfl, hl⟩
  | cons s ss =>
    obtain ⟨m, m', ms, hms, hm⟩ := exists_stmt_starts hss.1 (Stmt.lexemesAll spell ss ++ l :: rest)
    refine ⟨m, m' :: ms, ?_, ?_⟩
    · rw [Stmt.lexemesAll, List.append_assoc, List.cons_append, hms]
    · rcases hm with hm | ⟨hm, -⟩
      · exact ne_of_starts hm rfl
      · rw [hm]
        nofun

/-- The end of the line in front of a block. -/
theorem gives_break (hw : w.Shows (.lineBreak :: (Stmt.lexemesAll spell ss ++ l :: rest)))
    (hss : Stmt.MeetsAll (.rendered spell) ss) (hl : l.kind ≠ .lineBreak) :
    Gives expectBreak w (fun _ => True) (Stmt.lexemesAll spell ss ++ l :: rest) := by
  obtain ⟨m, ms, hms, hm⟩ := exists_line rest hss hl
  rw [hms] at hw ⊢
  exact Gives.expectBreak hw hm

/-- Parameters are read up to the end of the line. -/
private theorem gives_params {ids : List Ident} (hw : w.Shows (Ident.listed ids ++ .lineBreak :: rest))
    (hne : ids ≠ []) (hfuel : (Ident.listed ids).length ≤ fuel) :
    Gives (params fuel) w (fun ids' => ids'.map Ident.unspanned = ids.map Ident.unspanned)
      (.lineBreak :: rest) := by
  induction ids generalizing fuel w with
  | nil => exact absurd rfl hne
  | cons id ids ih =>
    cases ids with
    | nil =>
      obtain ⟨fuel, rfl⟩ : ∃ k, fuel = k + 1 := ⟨fuel - 1, by simp [Ident.listed] at hfuel; omega⟩
      refine (Gives.expectWord hw (by simp)).bind fun _ _ _ hw => ?_
      refine (Gives.ident hw (by simp)).bind fun id' _ hid hw => ?_
      refine Gives.refused (by rw [hw.kind]; nofun) (.pure ?_ hw)
      rw [List.map_singleton, hid, List.map_singleton]
    | cons id₂ ids =>
      simp only [Ident.listed, List.length_cons] at hfuel
      obtain ⟨fuel, rfl⟩ : ∃ k, fuel = k + 1 := ⟨fuel - 1, by omega⟩
      refine (Gives.expectWord hw (by simp)).bind fun _ _ _ hw => ?_
      refine (Gives.ident hw (by simp)).bind fun id' _ hid hw => ?_
      refine (Gives.accept hw (by simp)).bind fun b _ hb hw => ?_
      rw [hb]
      exact (ih hw nofun (by omega)).bind fun ids' _ hids hw =>
        .pure (List.cons_eq_cons.2 ⟨hid, hids⟩) hw

/-- A definition may have no parameters. -/
theorem optionalParams {β : Type} {f : List Ident → Parser β} {good : β → Prop} {ids : List Ident}
    (hw : w.Shows (Ident.listed ids ++ .lineBreak :: rest))
    (hfuel : (Ident.listed ids).length ≤ fuel)
    (hf : ∀ ids' w', ids'.map Ident.unspanned = ids.map Ident.unspanned →
      w'.Shows (.lineBreak :: rest) → Gives (f ids') w' good rest') :
    Gives (do if ← seesWord .YR then params fuel >>= f else pure [] >>= f) w good rest' := by
  cases ids with
  | nil => exact Gives.unseen (by rw [hw.kind]; nofun) (hf [] w rfl hw)
  | cons id ids =>
    refine Gives.seen ?_ ((gives_params hw nofun hfuel).bind hf)
    cases ids <;> exact hw.kind

/-- Arguments are read up to the end of the line or an exclamation mark. -/
theorem ReadsBack.printArgs {xs : List Expr} (hsub : ReadsBack spell sub n)
    (hw : w.Shows (Expr.listed spell [] xs ++ l :: rest)) (hl : l = .bang ∨ l = .lineBreak)
    (hne : xs ≠ []) (hxs : Expr.MeetsAll (.rendered spell) xs)
    (hlen : (Expr.listed spell [] xs).length ≤ n)
    (hfuel : (Expr.listed spell [] xs).length ≤ fuel) :
    Gives (printArgs sub fuel) w (fun ys => Expr.unspannedAll ys = Expr.unspannedAll xs)
      (l :: rest) := by
  have hdot : l.kind ≠ .dot := by rcases hl with rfl | rfl <;> nofun
  have hand : l.kind ≠ .keyword .AN := by rcases hl with rfl | rfl <;> nofun
  induction xs generalizing fuel w with
  | nil => exact absurd rfl hne
  | cons x xs ih =>
    obtain ⟨hx, hxs⟩ := hxs
    have hlength := length_listed [] xs hx
    obtain ⟨fuel, rfl⟩ : ∃ k, fuel = k + 1 := ⟨fuel - 1, by omega⟩
    rw [listed_cons] at hw
    refine hsub.element hw hdot hand hx (by omega) fun x' w' hx' hw => ?_
    cases xs with
    | nil =>
      have hkind : w'.current.kind = l.kind := hw.kind
      refine Gives.peeked rfl (Gives.peeked rfl (Gives.peeked rfl ?_))
      rcases hl with rfl | rfl <;>
      · rw [hkind]
        exact .pure (unspannedAll_cons hx' rfl) hw
    | cons y ys =>
      exact (ih hw nofun hxs (by omega) (by omega)).bind fun xs' _ hxs' hw =>
        .pure (unspannedAll_cons hx' hxs') hw

/-- Arms start with their word, if there are any. -/
theorem exists_arms_start (spell : Numbar → Text × Text) (word : Keyword) (arms : List Arm)
    (l : Lexeme) (rest : List Lexeme) :
    ∃ m ms, Arm.lexemesAll spell word arms ++ l :: rest = m :: ms ∧ (m = word.lexeme ∨ m = l) := by
  cases arms with
  | nil => exact ⟨l, rest, rfl, .inr rfl⟩
  | cons arm arms =>
    obtain ⟨test, ⟨span, body⟩⟩ := arm
    exact ⟨_, _, rfl, .inl rfl⟩

/-- Arms are read up to another word that closes the last of them. -/
theorem gives_arms {word k : Keyword} {arms : List Arm} (hsub : ReadsBack spell sub n)
    (hblock : ReadsBlocks spell block n)
    (hw : w.Shows (Arm.lexemesAll spell word arms ++ k.lexeme :: rest))
    (hword : word ∈ ends) (hk : k ∈ ends) (hne : k ≠ word) (him : .IM ∉ ends)
    (hends : ∀ k ∈ ends, starts (.keyword k) = false)
    (harms : Arm.MeetsAll (.rendered spell) arms)
    (hlen : (Arm.lexemesAll spell word arms).length ≤ n)
    (hfuel : (Arm.lexemesAll spell word arms).length < fuel) :
    Gives (Parser.arms sub block word ends fuel) w
      (fun arms' => Arm.unspannedAll arms' = Arm.unspannedAll arms) (k.lexeme :: rest) := by
  induction arms generalizing fuel w with
  | nil =>
    obtain ⟨fuel, rfl⟩ : ∃ k, fuel = k + 1 := ⟨fuel - 1, by omega⟩
    refine Gives.refused (fun h => hne ?_) (.pure rfl hw)
    rw [hw.kind] at h
    exact TokenKind.keyword.inj h
  | cons arm arms ih =>
    obtain ⟨test, ⟨span, body⟩⟩ := arm
    obtain ⟨htest, hbody, harms⟩ := harms
    obtain ⟨m, ms, hms, hm⟩ := exists_arms_start spell word arms k.lexeme rest
    have hclose : Closes ends m ms := by
      rcases hm with rfl | rfl
      · exact .of_word hword (ne_of_mem_of_not_mem hword him) ms
      · exact .of_word hk (ne_of_mem_of_not_mem hk him) ms
    simp only [Arm.lexemesAll, List.append_assoc, List.cons_append, hms] at hw
    simp only [Arm.lexemesAll, List.length_append, List.length_cons] at hlen hfuel
    obtain ⟨fuel, rfl⟩ : ∃ k, fuel = k + 1 := ⟨fuel - 1, by omega⟩
    refine (Gives.accept hw (by simp)).bind fun b _ hb hw => ?_
    rw [hb]
    refine (hsub hw nofun htest (by omega)).bind fun test' _ htest' hw => ?_
    refine (gives_break hw hbody hclose.kind_ne).bind fun _ _ _ hw => ?_
    refine (hblock hw hclose hends hbody (by omega)).bind fun body' _ hbody' hw => ?_
    rw [← hms] at hw
    refine (ih hw harms (by omega) (by omega)).bind fun arms' _ harms' hw => .pure ?_ hw
    obtain ⟨span', body'⟩ := body'
    rw [Arm.unspannedAll, Arm.unspannedAll, htest', harms']
    exact congrArg (fun ss => Arm.mk _ (.mk _ ss) :: _) hbody'

/-- The head of a loop is read up to the end of the line. -/
private theorem ReadsBack.loopUpdate {u : LoopUpdate} (hsub : ReadsBack spell sub n)
    (hw : w.Shows (LoopUpdate.lexemes spell (some u) ++ .lineBreak :: rest))
    (hu : u.Meets (.rendered spell))
    (hlen : (LoopUpdate.lexemes spell (some u)).length ≤ n) :
    Gives (loopUpdate sub) w (fun u' => u'.unspanned = u.unspanned) (.lineBreak :: rest) := by
  obtain ⟨change, counter, test⟩ := u
  simp only [LoopUpdate.lexemes, List.cons_append] at hw
  simp only [LoopUpdate.lexemes, List.length_cons] at hlen
  -- Behind the change of the variable, the three kinds of loop do the same.
  have htail (change' : LoopChange) (hchange : change'.unspanned = change.unspanned) {w : Window}
      (hw : w.Shows (Keyword.lexeme .YR :: counter.lexeme :: (test.lexemes spell ++
        .lineBreak :: rest))) :
      Gives (do
        expectWord .YR
        let v ← ident
        if ← accept .TIL then return ⟨change', v, .untilTrue (← sub)⟩
        else if ← accept .WILE then return ⟨change', v, .whileTrue (← sub)⟩
        else return (⟨change', v, .forever⟩ : LoopUpdate)) w
        (fun u' => u'.unspanned = LoopUpdate.unspanned ⟨change, counter, test⟩)
        (.lineBreak :: rest) := by
    refine (Gives.expectWord hw (by simp)).bind fun _ _ _ hw => ?_
    refine (Gives.ident hw (by simp)).bind fun v _ hv hw => ?_
    cases test with
    | forever =>
      refine Gives.refused (by rw [hw.kind]; rintro ⟨⟩) ?_
      refine Gives.refused (by rw [hw.kind]; rintro ⟨⟩) (.pure ?_ hw)
      simp only [LoopUpdate.unspanned, hchange, hv]
    | untilTrue e =>
      simp only [LoopTest.lexemes, List.length_cons] at hlen
      refine (Gives.accept hw (by simp)).bind fun b _ hb hw => ?_
      rw [hb]
      refine (hsub hw (by rintro ⟨⟩) hu.2.2 (by omega)).bind fun e' _ he hw => .pure ?_ hw
      simp only [LoopUpdate.unspanned, LoopTest.unspanned, hchange, hv, he]
    | whileTrue e =>
      simp only [LoopTest.lexemes, List.length_cons] at hlen
      refine Gives.refused (by rw [hw.kind]; rintro ⟨⟩) ?_
      refine (Gives.accept hw (by simp)).bind fun b _ hb hw => ?_
      rw [hb]
      refine (hsub hw (by rintro ⟨⟩) hu.2.2 (by omega)).bind fun e' _ he hw => .pure ?_ hw
      simp only [LoopUpdate.unspanned, LoopTest.unspanned, hchange, hv, he]
  refine Gives.peeked rfl ?_
  cases change with
  | up | down =>
    have hlexeme : w.current.lexeme = _ := Lexeme.eq_of_unspanned hw.current (by rintro _ _ ⟨⟩)
    simp only [hlexeme, LoopChange.lexeme, Keyword.lexeme]
    refine (Gives.advance hw (by simp)).bind fun _ _ _ hw => ?_
    exact htail _ rfl hw
  | apply f =>
    have hlexeme : w.current.lexeme = _ := Lexeme.eq_of_unspanned hw.current (by rintro _ _ ⟨⟩)
    simp only [hlexeme, LoopChange.lexeme, Ident.lexeme]
    refine (Gives.ident hw (by simp)).bind fun f' _ hf hw => ?_
    exact htail (.apply f') (congrArg LoopChange.apply hf) hw

/-- A loop may have no variable. -/
theorem ReadsBack.optionalUpdate {β : Type} {f : Option LoopUpdate → Parser β} {good : β → Prop}
    {update : Option LoopUpdate} (hsub : ReadsBack spell sub n)
    (hw : w.Shows (LoopUpdate.lexemes spell update ++ .lineBreak :: rest))
    (hupdate : ∀ u ∈ update, u.Meets (.rendered spell))
    (hlen : (LoopUpdate.lexemes spell update).length ≤ n)
    (hf : ∀ update' w', update'.map LoopUpdate.unspanned = update.map LoopUpdate.unspanned →
      w'.Shows (.lineBreak :: rest) → Gives (f update') w' good rest') :
    Gives (do
      if ← sees .lineBreak then pure none >>= f
      else some <$> Parser.loopUpdate sub >>= f) w good rest' := by
  cases update with
  | none => exact Gives.seen hw.kind (hf none w rfl hw)
  | some u =>
    refine Gives.unseen ?_ ((hsub.loopUpdate hw (hupdate u rfl) hlen).bindMap fun u' _ hu' hw =>
      hf (some u') _ (congrArg some hu') hw)
    rw [hw.kind]
    cases u.change <;> nofun

/-- A declaration may give a value or a type. -/
private theorem ReadsBack.initial {β : Type} {f : Initial → Parser β} {good : β → Prop}
    {initial : Initial} (hsub : ReadsBack spell sub n)
    (hw : w.Shows (initial.lexemes spell ++ .lineBreak :: rest))
    (hinitial : initial.Meets (.rendered spell)) (hlen : (initial.lexemes spell).length ≤ n)
    (hf : ∀ initial' w', initial'.unspanned = initial.unspanned → w'.Shows (.lineBreak :: rest) →
      Gives (f initial') w' good rest') :
    Gives (do
      if ← accept .ITZ then
        if ← accept .A then Initial.typed <$> typeName >>= f else Initial.value <$> sub >>= f
      else pure .absent >>= f) w good rest' := by
  cases initial with
  | absent => exact Gives.refused (by rw [hw.kind]; nofun) (hf .absent w rfl hw)
  | value e =>
    simp only [Initial.lexemes, List.length_cons] at hlen
    refine (Gives.accept hw (by simp)).bind fun b _ hb hw => ?_
    rw [hb]
    refine Gives.refused (ne_of_starts (starts_of_shows hinitial hw) rfl) ?_
    exact (hsub hw nofun hinitial (by omega)).bindMap fun e' _ he hw =>
      hf (.value e') _ (congrArg Initial.value he) hw
  | typed t =>
    refine (Gives.accept hw (by simp)).bind fun b _ hb hw => ?_
    rw [hb]
    refine (Gives.accept hw (by simp)).bind fun b _ hb hw => ?_
    rw [hb]
    exact (Gives.typeName hw (by simp)).bindMap fun t' _ ht hw =>
      hf (.typed t') _ (congrArg Initial.typed ht) hw

section

variable (hsub : ReadsBack spell sub n)

include hsub

theorem gives_declaration {id : Ident} {initial : Initial}
    (hw : w.Shows (Keyword.lexemes [.I, .HAS, .A] ++ id.lexeme ::
      (initial.lexemes spell ++ .lineBreak :: rest)))
    (hinitial : initial.Meets (.rendered spell)) (hlen : (initial.lexemes spell).length ≤ n) :
    Gives (declaration sub start) w
      (fun s => s.unspanned = .declare .zero id.unspanned initial.unspanned)
      (.lineBreak :: rest) := by
  refine (Gives.expectWords hw (by simp)).bind fun _ _ _ hw => ?_
  refine (Gives.ident hw (by simp)).bind fun id' _ hid hw => ?_
  refine hsub.initial hw hinitial hlen fun initial' _ hinitial' hw => ?_
  refine Gives.node hw fun s => ?_
  rw [Stmt.unspanned, hid, hinitial']

theorem gives_assignment {id : Ident} {x : Expr}
    (hw : w.Shows (id.targetLexeme :: Keyword.lexeme .R :: (x.lexemes spell ++ .lineBreak :: rest)))
    (hx : x.Meets (.rendered spell)) (hlen : (x.lexemes spell).length ≤ n) :
    Gives (assignment sub start) w
      (fun s => s.unspanned = .assign .zero id.unspanned x.unspanned) (.lineBreak :: rest) := by
  refine (Gives.target hw (by simp)).bind fun id' _ hid hw => ?_
  refine (Gives.expectWord hw (by simp)).bind fun _ _ _ hw => ?_
  refine (hsub hw nofun hx hlen).bind fun x' _ hx' hw => ?_
  refine Gives.node hw fun s => ?_
  rw [Stmt.unspanned, hid, hx']

theorem gives_exprStmt {x : Expr} (hw : w.Shows (x.lexemes spell ++ .lineBreak :: rest))
    (hx : x.Meets (.rendered spell)) (hlen : (x.lexemes spell).length ≤ n) :
    Gives (exprStmt sub start) w (fun s => s.unspanned = .expr .zero x.unspanned)
      (.lineBreak :: rest) := by
  refine (hsub hw nofun hx hlen).bind fun x' _ hx' hw => ?_
  refine Gives.node hw fun s => ?_
  rw [Stmt.unspanned, hx']

theorem gives_return {x : Expr}
    (hw : w.Shows (Keyword.lexemes [.FOUND, .YR] ++ (x.lexemes spell ++ .lineBreak :: rest)))
    (hx : x.Meets (.rendered spell)) (hlen : (x.lexemes spell).length ≤ n) :
    Gives (returnStmt sub start) w (fun s => s.unspanned = .ret .zero x.unspanned)
      (.lineBreak :: rest) := by
  refine (Gives.expectWords hw (by simp)).bind fun _ _ _ hw => ?_
  refine (hsub hw nofun hx hlen).bind fun x' _ hx' hw => ?_
  refine Gives.node hw fun s => ?_
  rw [Stmt.unspanned, hx']

theorem gives_print {xs : List Expr} {newline : Bool}
    (hw : w.Shows (Keyword.lexeme .VISIBLE :: (Expr.listed spell [] xs ++
      ((if newline then [] else [Lexeme.bang]) ++ .lineBreak :: rest))))
    (hxs : Expr.MeetsAll (.rendered spell) xs) (hne : xs ≠ [])
    (hlen : (Expr.listed spell [] xs).length ≤ n)
    (hfuel : (Expr.listed spell [] xs).length ≤ fuel) :
    Gives (printStmt sub fuel start) w
      (fun s => s.unspanned = .print .zero (Expr.unspannedAll xs) newline)
      (.lineBreak :: rest) := by
  refine (Gives.advance hw (by simp)).bind fun _ _ _ hw => ?_
  cases newline with
  | true =>
    refine (hsub.printArgs hw (.inr rfl) hne hxs hlen hfuel).bind fun xs' _ hxs' hw => ?_
    refine Gives.unseen (by rw [hw.kind]; nofun) ?_
    refine Gives.node hw fun s => ?_
    rw [Stmt.unspanned, hxs']
    rfl
  | false =>
    refine (hsub.printArgs hw (.inl rfl) hne hxs hlen hfuel).bind fun xs' _ hxs' hw => ?_
    refine Gives.seen hw.kind ?_
    refine (Gives.advance hw (by simp)).bind fun _ _ _ hw => ?_
    refine Gives.node hw fun s => ?_
    rw [Stmt.unspanned, hxs']
    rfl

theorem gives_append {id : Ident} {x : Expr}
    (hw : w.Shows (Keyword.lexeme .PUT :: (x.lexemes spell ++
      (Keyword.lexemes [.IN, .MAH] ++ id.lexeme :: .lineBreak :: rest))))
    (hx : x.Meets (.rendered spell)) (hlen : (x.lexemes spell).length ≤ n) :
    Gives (putStmt sub start) w (fun s => s.unspanned = .append .zero id.unspanned x.unspanned)
      (.lineBreak :: rest) := by
  refine (Gives.advance hw (by simp)).bind fun _ _ _ hw => ?_
  refine (hsub hw nofun hx hlen).bind fun x' _ hx' hw => ?_
  refine (Gives.expectWords hw (by simp)).bind fun _ _ _ hw => ?_
  refine (Gives.ident hw (by simp)).bind fun id' _ hid hw => ?_
  refine Gives.refused (by rw [hw.kind]; nofun) ?_
  refine Gives.node hw fun s => ?_
  rw [Stmt.unspanned, hid, hx']

theorem gives_store {id : Ident} {i x : Expr}
    (hw : w.Shows (Keyword.lexeme .PUT :: (x.lexemes spell ++ (Keyword.lexemes [.IN, .MAH] ++
      id.lexeme :: Keyword.lexeme .AT :: (i.lexemes spell ++ .lineBreak :: rest)))))
    (hi : i.Meets (.rendered spell)) (hx : x.Meets (.rendered spell))
    (hlen : (x.lexemes spell).length + (i.lexemes spell).length ≤ n) :
    Gives (putStmt sub start) w
      (fun s => s.unspanned = .store .zero id.unspanned i.unspanned x.unspanned)
      (.lineBreak :: rest) := by
  refine (Gives.advance hw (by simp)).bind fun _ _ _ hw => ?_
  refine (hsub hw nofun hx (by omega)).bind fun x' _ hx' hw => ?_
  refine (Gives.expectWords hw (by simp)).bind fun _ _ _ hw => ?_
  refine (Gives.ident hw (by simp)).bind fun id' _ hid hw => ?_
  refine (Gives.accept hw (by simp)).bind fun b _ hb hw => ?_
  rw [hb]
  refine (hsub hw nofun hi (by omega)).bind fun i' _ hi' hw => ?_
  refine Gives.node hw fun s => ?_
  rw [Stmt.unspanned, hid, hx', hi']

end

theorem gives_cast {id : Ident} {t : TypeName}
    (hw : w.Shows (id.lexeme :: (Keyword.lexemes [.IS, .NOW, .A, t.word] ++ .lineBreak :: rest))) :
    Gives (castStmt start) w (fun s => s.unspanned = .cast .zero id.unspanned t)
      (.lineBreak :: rest) := by
  refine (Gives.ident hw (by simp)).bind fun id' w' hid hw => ?_
  have hw : w'.Shows (Keyword.lexemes [.IS, .NOW, .A] ++ t.word.lexeme :: .lineBreak :: rest) := hw
  refine (Gives.expectWords hw (by simp)).bind fun _ _ _ hw => ?_
  refine (Gives.typeName hw (by simp)).bind fun t' _ ht hw => ?_
  refine Gives.node hw fun s => ?_
  rw [Stmt.unspanned, hid, ht]

theorem gives_load {id : Ident}
    (hw : w.Shows (Keyword.lexemes [.CAN, .HAS] ++ id.lexeme :: .question :: .lineBreak :: rest)) :
    Gives (loadStmt start) w (fun s => s.unspanned = .load .zero id.unspanned)
      (.lineBreak :: rest) := by
  refine (Gives.expectWords hw (by simp)).bind fun _ _ _ hw => ?_
  refine (Gives.ident hw (by simp)).bind fun id' _ hid hw => ?_
  refine (Gives.expect hw rfl (by simp)).bind fun _ _ _ hw => ?_
  refine Gives.node hw fun s => ?_
  rw [Stmt.unspanned, hid]

theorem gives_read {id : Ident}
    (hw : w.Shows (Keyword.lexeme .GIMMEH :: id.targetLexeme :: .lineBreak :: rest)) :
    Gives (readStmt start) w (fun s => s.unspanned = .read .zero id.unspanned)
      (.lineBreak :: rest) := by
  refine (Gives.advance hw (by simp)).bind fun _ _ _ hw => ?_
  refine (Gives.target hw (by simp)).bind fun id' _ hid hw => ?_
  refine Gives.node hw fun s => ?_
  rw [Stmt.unspanned, hid]

/-- A block that may be left out starts with its word. -/
theorem exists_option_start (spell : Numbar → Text × Text) (k : Keyword) (ks : List Keyword)
    (b : Option Block) (l : Lexeme) (rest : List Lexeme) :
    ∃ m ms, Block.lexemesOption spell (k :: ks) b ++ l :: rest = m :: ms ∧
      (m = k.lexeme ∨ m = l) := by
  cases b with
  | none => exact ⟨l, rest, rfl, .inr rfl⟩
  | some b =>
    obtain ⟨span, ss⟩ := b
    exact ⟨_, _, rfl, .inl rfl⟩

theorem unspannedOption_some {b : Block} {span : Span}
    (h : Stmt.unspannedAll b.stmts = Stmt.unspannedAll ss) :
    Block.unspannedOption (some b) = Block.unspannedOption (some (.mk span ss)) := by
  obtain ⟨span', ss'⟩ := b
  exact congrArg (fun ss => some (Block.mk .zero ss)) h

section

variable (hblock : ReadsBlocks spell block n)

include hblock

theorem gives_definition {id : Ident} {ids : List Ident}
    (hw : w.Shows (Keyword.lexemes [.HOW, .IZ, .I] ++ id.lexeme :: (Ident.listed ids ++
      .lineBreak :: (Stmt.lexemesAll spell ss ++
        (Keyword.lexemes [.IF, .U, .SAY, .SO] ++ .lineBreak :: rest)))))
    (hss : Stmt.MeetsAll (.rendered spell) ss) (hlen : (Stmt.lexemesAll spell ss).length < n)
    (hfuel : (Ident.listed ids).length ≤ fuel) :
    Gives (definition block fuel start) w
      (fun s => s.unspanned = .define .zero id.unspanned (ids.map Ident.unspanned)
        (.mk .zero (Stmt.unspannedAll ss))) (.lineBreak :: rest) := by
  refine (Gives.expectWords hw (by simp)).bind fun _ _ _ hw => ?_
  refine (Gives.ident hw (by simp)).bind fun id' _ hid hw => ?_
  have hclose : Closes [.IF] (Keyword.lexeme .IF)
      (Keyword.lexemes [.U, .SAY, .SO] ++ .lineBreak :: rest) :=
    ⟨.IF, List.mem_singleton_self _, rfl, nofun⟩
  refine optionalParams hw hfuel fun ids' _ hids hw => ?_
  refine (gives_break hw hss hclose.kind_ne).bind fun _ _ _ hw => ?_
  refine (hblock hw hclose (by decide) hss hlen).bind fun body _ hbody hw => ?_
  refine (Gives.expectWords hw (by simp)).bind fun _ _ _ hw => ?_
  refine Gives.node hw fun s => ?_
  obtain ⟨span, body⟩ := body
  rw [Stmt.unspanned, hid, hids]
  exact congrArg (fun ss => Stmt.define _ _ _ (.mk _ ss)) hbody

theorem gives_loop {label close : Ident} {update : Option LoopUpdate} {sub : Parser Expr}
    (hsub : ReadsBack spell sub n)
    (hw : w.Shows (Keyword.lexemes [.IM, .IN, .YR] ++ label.lexeme ::
      (LoopUpdate.lexemes spell update ++ .lineBreak :: (Stmt.lexemesAll spell ss ++
        (Keyword.lexemes [.IM, .OUTTA, .YR] ++ close.lexeme :: .lineBreak :: rest)))))
    (hupdate : ∀ u ∈ update, u.Meets (.rendered spell))
    (hss : Stmt.MeetsAll (.rendered spell) ss) (hlabel : close.name = label.name)
    (hlen : (Stmt.lexemesAll spell ss).length < n)
    (hulen : (LoopUpdate.lexemes spell update).length ≤ n) :
    Gives (loopStmt sub block start) w
      (fun s => s.unspanned = .loop .zero label.unspanned close.unspanned
        (update.map LoopUpdate.unspanned) (.mk .zero (Stmt.unspannedAll ss)))
      (.lineBreak :: rest) := by
  refine (Gives.expectWords hw (by simp)).bind fun _ _ _ hw => ?_
  refine (Gives.ident hw (by simp)).bind fun label' _ hlabel' hw => ?_
  have hclose : Closes [.IM] (Keyword.lexeme .IM)
      (Keyword.lexemes [.OUTTA, .YR] ++ close.lexeme :: .lineBreak :: rest) :=
    ⟨.IM, List.mem_singleton_self _, rfl, fun _ => ⟨_, rfl⟩⟩
  refine hsub.optionalUpdate hw hupdate hulen fun update' _ hupdate' hw => ?_
  refine (gives_break hw hss hclose.kind_ne).bind fun _ _ _ hw => ?_
  refine (hblock hw hclose (by decide) hss hlen).bind fun body _ hbody hw => ?_
  refine (Gives.expectWords hw (by simp)).bind fun _ _ _ hw => ?_
  refine (Gives.ident hw (by simp)).bind fun close' _ hclose' hw => ?_
  have hname : (close'.name == label'.name) = true := by
    rw [beq_iff_eq]
    exact ((congrArg Ident.name hclose').trans hlabel).trans (congrArg Ident.name hlabel').symm
  rw [hname]
  refine Gives.node hw fun s => ?_
  obtain ⟨span, body⟩ := body
  rw [Stmt.unspanned, hlabel', hclose', hupdate']
  exact congrArg (fun ss => Stmt.loop _ _ _ _ (.mk _ ss)) hbody

/-- A block behind two words, which may be left out. -/
private theorem gives_option {β : Type} {f : Option Block → Parser β} {good : β → Prop}
    {b : Option Block} {k k' : Keyword}
    (hw : w.Shows (Block.lexemesOption spell [k, k'] b ++ l :: rest))
    (hk : l.kind ≠ .keyword k) (hclose : Closes ends l rest)
    (hends : ∀ k ∈ ends, starts (.keyword k) = false)
    (hb : Block.MeetsOption (.rendered spell) b)
    (hlen : (Block.lexemesOption spell [k, k'] b).length ≤ n)
    (hf : ∀ b' w', Block.unspannedOption b' = Block.unspannedOption b → w'.Shows (l :: rest) →
      Gives (f b') w' good rest') :
    Gives (do
      if ← accept k then
        expectWord k'
        expectBreak
        some <$> block ends >>= f
      else pure none >>= f) w good rest' := by
  cases b with
  | none => exact Gives.refused (by rwa [hw.kind]) (hf none w rfl hw)
  | some b =>
    obtain ⟨span, ss⟩ := b
    simp only [Block.lexemesOption, List.append_assoc, List.cons_append] at hw
    simp only [Block.lexemesOption, List.length_append, List.length_cons] at hlen
    refine (Gives.accept hw (by simp)).bind fun b _ hb hw => ?_
    rw [hb]
    refine (Gives.expectWord hw (by simp)).bind fun _ _ _ hw => ?_
    refine (gives_break hw ‹_› hclose.kind_ne).bind fun _ _ _ hw => ?_
    exact (hblock hw hclose hends ‹_› (by omega)).bindMap fun b' _ hb' hw =>
      hf (some b') _ (unspannedOption_some hb') hw

theorem gives_branch {sub : Parser Expr} {yes no : Option Block} {arms : List Arm}
    (hsub : ReadsBack spell sub n)
    (hw : w.Shows (Keyword.lexemes [.O, .RLY] ++ .question :: .lineBreak ::
      (Block.lexemesOption spell [.YA, .RLY] yes ++ (Arm.lexemesAll spell .MEBBE arms ++
        (Block.lexemesOption spell [.NO, .WAI] no ++ Keyword.lexeme .OIC :: .lineBreak :: rest)))))
    (hyes : Block.MeetsOption (.rendered spell) yes) (harms : Arm.MeetsAll (.rendered spell) arms)
    (hno : Block.MeetsOption (.rendered spell) no)
    (hyeslen : (Block.lexemesOption spell [.YA, .RLY] yes).length ≤ n)
    (harmslen : (Arm.lexemesAll spell .MEBBE arms).length ≤ n)
    (hnolen : (Block.lexemesOption spell [.NO, .WAI] no).length ≤ n)
    (hfuel : (Arm.lexemesAll spell .MEBBE arms).length < fuel) :
    Gives (branchStmt sub block fuel start) w
      (fun s => s.unspanned = .branch .zero (Block.unspannedOption yes) (Arm.unspannedAll arms)
        (Block.unspannedOption no)) (.lineBreak :: rest) := by
  refine (Gives.expectWords hw (by simp)).bind fun _ _ _ hw => ?_
  refine (Gives.expect hw rfl (by simp)).bind fun _ _ _ hw => ?_
  obtain ⟨l₂, ls₂, hls₂, hl₂⟩ :=
    exists_option_start spell .NO [.WAI] no (Keyword.lexeme .OIC) (.lineBreak :: rest)
  rw [hls₂] at hw
  obtain ⟨l₁, ls₁, hls₁, hl₁⟩ := exists_arms_start spell .MEBBE arms l₂ ls₂
  rw [hls₁] at hw
  obtain ⟨l₀, ls₀, hls₀, hl₀⟩ := exists_option_start spell .YA [.RLY] yes l₁ ls₁
  rw [hls₀] at hw
  have hk₂ : ∃ k, l₂ = Keyword.lexeme k ∧ k ∈ [.NO, .OIC] := by
    rcases hl₂ with rfl | rfl <;> exact ⟨_, rfl, by decide⟩
  obtain ⟨k₂, rfl, hk₂⟩ := hk₂
  have hk₁ : ∃ k, l₁ = Keyword.lexeme k ∧ k ∈ [.MEBBE, .NO, .OIC] := by
    rcases hl₁ with rfl | rfl
    · exact ⟨_, rfl, by decide⟩
    · exact ⟨k₂, rfl, List.mem_cons_of_mem _ hk₂⟩
  obtain ⟨k₁, rfl, hk₁⟩ := hk₁
  have hbreak : l₀.kind ≠ .lineBreak := by rcases hl₀ with rfl | rfl <;> nofun
  refine (Gives.expectBreak hw hbreak).bind fun _ _ _ hw => ?_
  rw [← hls₀] at hw
  have hya : (Keyword.lexeme k₁).kind ≠ .keyword .YA :=
    mt TokenKind.keyword.inj (ne_of_mem_of_not_mem hk₁ (by decide))
  have hclose : Closes [.MEBBE, .NO, .OIC] (Keyword.lexeme k₁) ls₁ :=
    .of_word hk₁ (ne_of_mem_of_not_mem hk₁ (by decide)) ls₁
  refine gives_option hblock hw hya hclose (by decide) hyes hyeslen fun yes' _ hyes' hw => ?_
  rw [← hls₁] at hw
  refine (gives_arms hsub hblock hw (by decide) (List.mem_cons_of_mem _ hk₂)
    (ne_of_mem_of_not_mem hk₂ (by decide)) (by decide) (by decide) harms harmslen hfuel).bind
    fun arms' _ harms' hw => ?_
  rw [← hls₂] at hw
  refine gives_option hblock hw nofun (.of_word (by decide) (by decide) _) (by decide) hno hnolen
    fun no' _ hno' hw => ?_
  refine (Gives.expectWord hw (by simp)).bind fun _ _ _ hw => ?_
  refine Gives.node hw fun s => ?_
  rw [Stmt.unspanned, hyes', harms', hno']

private theorem gives_switch {sub : Parser Expr} {otherwise : Option Block} {arms : List Arm}
    (hsub : ReadsBack spell sub n)
    (hw : w.Shows (Keyword.lexeme .WTF :: .question :: .lineBreak ::
      (Arm.lexemesAll spell .OMG arms ++ (Block.lexemesOption spell [.OMGWTF] otherwise ++
        Keyword.lexeme .OIC :: .lineBreak :: rest))))
    (harms : Arm.MeetsAll (.rendered spell) arms)
    (hotherwise : Block.MeetsOption (.rendered spell) otherwise)
    (harmslen : (Arm.lexemesAll spell .OMG arms).length ≤ n)
    (holen : (Block.lexemesOption spell [.OMGWTF] otherwise).length ≤ n)
    (hfuel : (Arm.lexemesAll spell .OMG arms).length < fuel) :
    Gives (switchStmt sub block fuel start) w
      (fun s => s.unspanned = .switch .zero (Arm.unspannedAll arms)
        (Block.unspannedOption otherwise)) (.lineBreak :: rest) := by
  refine (Gives.expectWord hw (by simp)).bind fun _ _ _ hw => ?_
  refine (Gives.expect hw rfl (by simp)).bind fun _ _ _ hw => ?_
  obtain ⟨l₁, ls₁, hls₁, hl₁⟩ :=
    exists_option_start spell .OMGWTF [] otherwise (Keyword.lexeme .OIC) (.lineBreak :: rest)
  rw [hls₁] at hw
  obtain ⟨l₀, ls₀, hls₀, hl₀⟩ := exists_arms_start spell .OMG arms l₁ ls₁
  rw [hls₀] at hw
  have hk₁ : ∃ k, l₁ = Keyword.lexeme k ∧ k ∈ [.OMGWTF, .OIC] := by
    rcases hl₁ with rfl | rfl <;> exact ⟨_, rfl, by decide⟩
  obtain ⟨k₁, rfl, hk₁⟩ := hk₁
  have hbreak : l₀.kind ≠ .lineBreak := by rcases hl₀ with rfl | rfl <;> nofun
  refine (Gives.expectBreak hw hbreak).bind fun _ _ _ hw => ?_
  rw [← hls₀] at hw
  refine (gives_arms hsub hblock hw (by decide) (List.mem_cons_of_mem _ hk₁)
    (ne_of_mem_of_not_mem hk₁ (by decide)) (by decide) (by decide) harms harmslen hfuel).bind
    fun arms' _ harms' hw => ?_
  rw [← hls₁] at hw
  have hclose : Closes [.OIC] (Keyword.lexeme .OIC) (.lineBreak :: rest) :=
    .of_word (by decide) (by decide) _
  cases otherwise with
  | none =>
    refine Gives.refused (by rw [hw.kind]; nofun) (Gives.peeked rfl ?_)
    refine (Gives.expectWord hw (by simp)).bind fun _ _ _ hw => ?_
    refine Gives.node hw fun s => ?_
    rw [Stmt.unspanned, harms']
  | some b =>
    obtain ⟨span, ss⟩ := b
    simp only [Block.lexemesOption, List.append_assoc, List.cons_append] at hw
    simp only [Block.lexemesOption, List.length_append, List.length_cons] at holen
    refine (Gives.accept hw (by simp)).bind fun b _ hb hw => ?_
    rw [hb]
    refine (gives_break hw hotherwise hclose.kind_ne).bind fun _ _ _ hw => ?_
    refine (hblock hw hclose (by decide) hotherwise (by omega)).bindMap fun b' _ hb' hw => ?_
    refine (Gives.expectWord hw (by simp)).bind fun _ _ _ hw => ?_
    refine Gives.node hw fun s => ?_
    rw [Stmt.unspanned, harms', unspannedOption_some hb']

end

/-- Words that a statement other than an expression starts with. -/
def stmtWords : List Keyword :=
  [.I, .IT, .CAN, .HOW, .WTF, .O, .GTFO, .IM, .FOUND, .VISIBLE, .GIMMEH, .PUT]

theorem Window.Shows.lexeme {k : Keyword} (hw : w.Shows (k.lexeme :: ls)) :
    w.current.lexeme = .keyword k (Text.ofString k.word) :=
  Lexeme.eq_of_unspanned hw.current (by rintro _ _ ⟨⟩)

/-- Any other word starts an expression. -/
private theorem stmtForm_word {k : Keyword} (hw : w.Shows (k.lexeme :: ls)) (hk : k ∉ stmtWords) :
    stmtForm sub block fuel w = exprStmt sub w.current.span w := by
  have hlexeme := Window.Shows.lexeme hw
  rw [stmtForm, Gives.run_peeked rfl, Gives.run_peeked rfl]
  simp only [hlexeme]
  cases k <;> first | rfl | exact absurd (by decide) hk

/-- An expression on a line of its own is not taken for another statement. -/
private theorem gives_expr {x : Expr} (hsub : ReadsBack spell sub n)
    (hw : w.Shows (x.lexemes spell ++ .lineBreak :: rest)) (hx : x.Meets (.rendered spell))
    (hlen : (x.lexemes spell).length ≤ n) :
    Gives (stmtForm sub block fuel) w (fun s => s.unspanned = .expr .zero x.unspanned)
      (.lineBreak :: rest) := by
  have hstmt : ∀ start, Gives (exprStmt sub start) w
      (fun s => s.unspanned = .expr .zero x.unspanned) (.lineBreak :: rest) :=
    fun start => gives_exprStmt hsub hw hx hlen
  have hword {k : Keyword} {ls : List Lexeme} (hw : w.Shows (k.lexeme :: ls))
      (hk : k ∉ stmtWords) : Gives (stmtForm sub block fuel) w
        (fun s => s.unspanned = .expr .zero x.unspanned) (.lineBreak :: rest) := by
    rw [Gives, stmtForm_word hw hk]
    exact hstmt _
  cases x with
  | int _ v | float _ v =>
    have hlexeme : w.current.lexeme = _ := Lexeme.eq_of_unspanned hw.current (by rintro _ _ ⟨⟩)
    refine Gives.peeked rfl (Gives.peeked rfl ?_)
    simp only [hlexeme]
    exact hstmt _
  | string _ t | interp _ t splices =>
    obtain ⟨ins, hlexeme, -⟩ := Lexeme.exists_of_unspanned_string hw.current
    refine Gives.peeked rfl (Gives.peeked rfl ?_)
    simp only [hlexeme]
    exact hstmt _
  | var _ id =>
    have hlexeme : w.current.lexeme = .identifier id.name :=
      Lexeme.eq_of_unspanned hw.current (by rintro _ _ ⟨⟩)
    refine Gives.peeked rfl (Gives.peeked rfl ?_)
    simp only [hlexeme, hw.nextKind]
    exact hstmt _
  | it _ =>
    refine Gives.peeked rfl (Gives.peeked rfl ?_)
    simp only [Window.Shows.lexeme hw, hw.nextKind]
    exact hstmt _
  | call _ id xs =>
    refine Gives.peeked rfl (Gives.peeked rfl ?_)
    simp only [Window.Shows.lexeme hw, hw.nextKind]
    exact hstmt _
  | binary _ op x y =>
    have hop : op.IsWritten := hx.2.2
    cases op with
    | gt | lt | ge | le => exact hop.elim
    | _ => exact hword hw (by decide)
  | bool _ b => cases b <;> exact hword hw (by decide)
  | unary _ op x => cases op <;> exact hword hw (by decide)
  | nary _ op xs => cases op <;> exact hword hw (by decide)
  | _ => exact hword hw (by decide)

/-- A statement is read back up to the end of its line. -/
private theorem gives_stmt (hsub : ReadsBack spell sub n) (hblock : ReadsBlocks spell block n)
    (hw : w.Shows (s.lexemes spell ++ .lineBreak :: rest)) (hs : s.Meets (.rendered spell))
    (hlen : (s.lexemes spell).length ≤ n) :
    Gives (stmtForm sub block n) w (fun s' => s'.unspanned = s.unspanned)
      (.lineBreak :: rest) := by
  cases s with
  | expr _ x =>
    rw [Stmt.lexemes] at hw hlen
    exact gives_expr hsub hw hs.2 hlen
  | assign _ id x =>
    simp only [Stmt.lexemes, List.cons_append] at hw
    simp only [Stmt.lexemes, List.length_cons] at hlen
    have hform : ∀ start, Gives (assignment sub start) w
        (fun s => s.unspanned = .assign .zero id.unspanned x.unspanned) (.lineBreak :: rest) :=
      fun start => gives_assignment hsub hw hs.2.2 (by omega)
    refine Gives.peeked rfl (Gives.peeked rfl ?_)
    rw [Ident.targetLexeme] at hw
    split at hw
    · simp only [Window.Shows.lexeme hw, hw.nextKind]
      exact hform _
    · have hlexeme : w.current.lexeme = .identifier id.name :=
        Lexeme.eq_of_unspanned hw.current (by rintro _ _ ⟨⟩)
      simp only [hlexeme, hw.nextKind]
      exact hform _
  | declare _ id initial =>
    simp only [Stmt.lexemes, List.append_assoc, List.cons_append] at hw
    simp only [Stmt.lexemes, List.length_append, List.length_cons] at hlen
    refine Gives.peeked rfl (Gives.peeked rfl ?_)
    simp only [Window.Shows.lexeme hw, hw.nextKind]
    exact gives_declaration hsub hw hs.2.2 (by omega)
  | cast _ id t =>
    refine Gives.peeked rfl (Gives.peeked rfl ?_)
    have hlexeme : w.current.lexeme = .identifier id.name :=
      Lexeme.eq_of_unspanned hw.current (by rintro _ _ ⟨⟩)
    simp only [hlexeme, hw.nextKind]
    exact gives_cast hw
  | load _ id =>
    refine Gives.peeked rfl (Gives.peeked rfl ?_)
    simp only [Window.Shows.lexeme hw]
    exact gives_load hw
  | define _ id params body =>
    obtain ⟨span, body⟩ := body
    simp only [Stmt.lexemes, List.append_assoc, List.cons_append] at hw
    simp only [Stmt.lexemes, List.length_append, List.length_cons] at hlen
    refine Gives.peeked rfl (Gives.peeked rfl ?_)
    simp only [Window.Shows.lexeme hw]
    exact gives_definition hblock hw hs.2.2.1 (by omega) (by omega)
  | switch _ arms otherwise =>
    simp only [Stmt.lexemes, List.append_assoc, List.cons_append, List.nil_append] at hw
    simp only [Stmt.lexemes, List.length_append, List.length_cons] at hlen
    refine Gives.peeked rfl (Gives.peeked rfl ?_)
    simp only [Window.Shows.lexeme hw]
    exact gives_switch hblock hsub hw hs.2.1 hs.2.2 (by omega) (by omega) (by omega)
  | branch _ yes arms no =>
    simp only [Stmt.lexemes, List.append_assoc, List.cons_append, List.nil_append] at hw
    simp only [Stmt.lexemes, List.length_append, List.length_cons] at hlen
    refine Gives.peeked rfl (Gives.peeked rfl ?_)
    simp only [Window.Shows.lexeme hw]
    exact gives_branch hblock hsub hw hs.2.1 hs.2.2.1 hs.2.2.2 (by omega) (by omega) (by omega)
      (by omega)
  | leave _ =>
    refine Gives.peeked rfl (Gives.peeked rfl ?_)
    simp only [Window.Shows.lexeme hw]
    exact (Gives.advance hw (by simp)).bind fun _ _ _ hw => .pure rfl hw
  | loop _ label close update body =>
    obtain ⟨span, body⟩ := body
    simp only [Stmt.lexemes, List.append_assoc, List.cons_append, List.nil_append] at hw
    simp only [Stmt.lexemes, List.length_append, List.length_cons] at hlen
    refine Gives.peeked rfl (Gives.peeked rfl ?_)
    simp only [Window.Shows.lexeme hw]
    exact gives_loop hblock hsub hw hs.2.1 hs.2.2.1 hs.2.2.2.2 (by omega) (by omega)
  | ret _ x =>
    simp only [Stmt.lexemes, List.append_assoc] at hw
    simp only [Stmt.lexemes, List.length_append] at hlen
    refine Gives.peeked rfl (Gives.peeked rfl ?_)
    simp only [Window.Shows.lexeme hw]
    exact gives_return hsub hw hs.2 (by omega)
  | print _ args newline =>
    simp only [Stmt.lexemes, List.append_assoc, List.cons_append] at hw
    simp only [Stmt.lexemes, List.length_append, List.length_cons] at hlen
    refine Gives.peeked rfl (Gives.peeked rfl ?_)
    simp only [Window.Shows.lexeme hw]
    exact gives_print hsub hw hs.2.1 hs.2.2 (by omega) (by omega)
  | read _ id =>
    refine Gives.peeked rfl (Gives.peeked rfl ?_)
    simp only [Window.Shows.lexeme hw]
    exact gives_read hw
  | append _ id x =>
    simp only [Stmt.lexemes, List.append_assoc, List.cons_append, List.nil_append] at hw
    simp only [Stmt.lexemes, List.length_append, List.length_cons] at hlen
    refine Gives.peeked rfl (Gives.peeked rfl ?_)
    simp only [Window.Shows.lexeme hw]
    exact gives_append hsub hw hs.2.2 (by omega)
  | store _ id i x =>
    simp only [Stmt.lexemes, List.append_assoc, List.cons_append] at hw
    simp only [Stmt.lexemes, List.length_append, List.length_cons] at hlen
    refine Gives.peeked rfl (Gives.peeked rfl ?_)
    simp only [Window.Shows.lexeme hw]
    exact gives_store hsub hw hs.2.2.1 hs.2.2.2 (by omega)

private theorem ReadsBack.mono {m : Nat} (hsub : ReadsBack spell sub m) (h : n ≤ m) :
    ReadsBack spell sub n :=
  fun _ _ _ _ hw hl hx hlen => hsub hw hl hx (Nat.le_trans hlen h)

theorem gives_blockOf {p : Parser (List Stmt)}
    (h : Gives p w (fun ss' => Stmt.unspannedAll ss' = Stmt.unspannedAll ss) rest) :
    Gives (blockOf p) w (fun b => Stmt.unspannedAll b.stmts = Stmt.unspannedAll ss) rest :=
  Gives.peeked rfl (h.bind fun _ _ hss hw => .pure hss hw)

/-- Statements are read back up to the word that closes their block. -/
theorem gives_stmts {m : Nat} (hsub : ReadsBack spell sub m) (hn : n ≤ m + 1)
    (hw : w.Shows (Stmt.lexemesAll spell ss ++ l :: rest) ∨
      w.Shows (.lineBreak :: (Stmt.lexemesAll spell ss ++ l :: rest)))
    (hclose : Closes ends l rest) (hends : ∀ k ∈ ends, starts (.keyword k) = false)
    (hss : Stmt.MeetsAll (.rendered spell) ss) (hlen : (Stmt.lexemesAll spell ss).length < n) :
    Gives (stmts sub n ends) w (fun ss' => Stmt.unspannedAll ss' = Stmt.unspannedAll ss)
      (l :: rest) := by
  induction n generalizing w ss l rest ends with
  | zero => omega
  | succ n ih =>
    obtain ⟨m, ms, hms, hm⟩ := exists_line rest hss hclose.kind_ne
    rw [hms] at hw
    refine (Gives.skipBreaks hw hm).bind fun _ _ _ hw => ?_
    rw [← hms] at hw
    cases ss with
    | nil => exact Gives.peeked (hclose.atEnd hw) (.pure rfl hw)
    | cons s ss =>
      obtain ⟨hs, hss⟩ := hss
      simp only [Stmt.lexemesAll, List.append_assoc, List.cons_append] at hw
      simp only [Stmt.lexemesAll, List.length_append, List.length_cons] at hlen
      refine Gives.peeked (atEnd_of_stmt hs hw hends) ?_
      have hblock : ReadsBlocks spell (fun inner => blockOf (stmts sub n inner)) n :=
        fun _ _ _ _ _ hw hclose hends hss hlen =>
          gives_blockOf (ih (by omega) (.inl hw) hclose hends hss hlen)
      refine (gives_stmt (hsub.mono (by omega)) hblock hw hs (by omega)).bind fun s' _ hs' hw => ?_
      refine Gives.seen hw.kind (Gives.peeked rfl ?_)
      refine (ih (by omega) (.inr hw) hclose hends hss (by omega)).bind fun ss' _ hss' hw =>
        .pure ?_ hw
      rw [Stmt.unspannedAll, hs', hss', Stmt.unspannedAll]

end Parser
end LolToolchain
