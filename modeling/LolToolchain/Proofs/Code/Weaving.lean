import LolToolchain.Proofs.Code.Admission
import LolToolchain.Proofs.Code.Erasure
import LolToolchain.Proofs.Code.Folding
import LolToolchain.Proofs.Program.Weaving
import LolToolchain.Text.CommonNames

/-!
A string with variables in it and the joined strings and variables do the same. One of them fills a
template from the constants with as many values as it has places, the other joins one value after
another to the text so far. Both can be compiled where each of the variables can be read, and both
give the texts with the texts of the variables between them.
-/
namespace LolToolchain

open Assemble

namespace Expr

mutual

theorem scoped_unspanned {ρ : Lookup} : ∀ x : Expr, x.unspanned.Scoped ρ ↔ x.Scoped ρ
  | .int _ _ | .float _ _ | .string _ _ | .bool _ _ | .null _ | .it _ | .var _ _ => Iff.rfl
  | .interp _ _ _ => List.forall_mem_map
  | .call _ _ xs => by
    rw [unspanned, Scoped, Scoped, length_unspannedAll, scoped_unspannedAll xs]
    rfl
  | .list _ xs | .concat _ xs | .nary _ _ xs => scoped_unspannedAll xs
  | .cast _ x _ | .unary _ _ x | .pickFront _ x | .pickBack _ x => scoped_unspanned x
  | .binary _ _ x y => and_congr (scoped_unspanned x) (scoped_unspanned y)
  | .pickAt _ i x => and_congr (scoped_unspanned x) (scoped_unspanned i)

theorem scoped_unspannedAll {ρ : Lookup} : ∀ xs : List Expr,
    ScopedAll ρ (unspannedAll xs) ↔ ScopedAll ρ xs
  | [] => Iff.rfl
  | x :: xs => and_congr (scoped_unspanned x) (scoped_unspannedAll xs)

end

variable {x y : Expr} (h : x.unspanned = y.unspanned)

include h

theorem scoped_of_unspanned {ρ : Lookup} : x.Scoped ρ ↔ y.Scoped ρ := by
  rw [← scoped_unspanned x, h, scoped_unspanned]

theorem hasCall_of_unspanned : x.hasCall = y.hasCall := by
  rw [← hasCall_unspanned x, h, hasCall_unspanned]

/-- The code of an expression gives the value of another one that differs from it in spans only. -/
theorem gives_of_unspanned {a b : Assembly} {s : Settings} {m : Machine} {v : Value} {after : Heap}
    (hs : s.tracing = false) (ha : a.Lexical)
    (haligned : a.chunk.positions.size = a.chunk.code.size) (hm : m.Suits a)
    (hcall : y.hasCall = false) (hrun : x.assemble a = .ok ((), b))
    (hvalue : y.value (m.read a) m.heap = .ok (v, after)) : m.Gives b.chunk s (.ok v) := by
  have hgives := gives_value hs ha haligned hm ((hasCall_of_unspanned h).trans hcall) hrun
  rwa [← value_unspanned, h, value_unspanned, hvalue] at hgives

end Expr

namespace Weave

variable {w : Weave} {ρ : Lookup}

private theorem scoped_reference (r : Reference) : r.expr.Scoped ρ ↔ r.ident.Scoped ρ := by
  unfold Reference.expr
  split
  · rename_i hname
    exact iff_of_true trivial (.inl hname)
  · exact Iff.rfl

private theorem scoped_splicesFrom (n : Nat) (rest : List (Reference × Segment)) :
    (∀ x ∈ splicesFrom n rest, x.name.Scoped ρ) ↔ ∀ p ∈ rest, p.1.ident.Scoped ρ := by
  induction rest generalizing n with
  | nil => exact iff_of_true nofun nofun
  | cons p rest ih =>
    rw [splicesFrom, List.forall_mem_cons, List.forall_mem_cons, ih]

private theorem scoped_exprs (rest : List (Reference × Segment)) :
    Expr.ScopedAll ρ (exprs rest) ↔ ∀ p ∈ rest, p.1.ident.Scoped ρ := by
  induction rest with
  | nil => exact iff_of_true trivial nofun
  | cons p rest ih =>
    rw [List.forall_mem_cons, ← ih, ← scoped_reference]
    exact and_congr_right fun _ => iff_of_eq (true_and _)

/-- The same names are used in both ways. -/
theorem scoped_literal_iff_joined : w.literal.Scoped ρ ↔ w.joined.Scoped ρ :=
  (scoped_splicesFrom _ w.rest).trans ((scoped_exprs w.rest).symm.trans (iff_of_eq (true_and _)).symm)

theorem hasCall_joined : w.joined.hasCall = false := by
  have hexprs (rest : List (Reference × Segment)) : Expr.anyCall (exprs rest) = false := by
    induction rest with
    | nil => rfl
    | cons p rest ih =>
      have hp : p.1.expr.hasCall = false := by
        unfold Reference.expr
        split <;> rfl
      exact Bool.or_eq_false_iff.2 ⟨hp, ih⟩
  exact hexprs w.rest

end Weave

namespace Weave

variable (w : Weave) {f : Text → Text} {read : Text → Value} {heap : Heap}

/-- The texts with the texts of the variables between them. -/
def filled (f : Text → Text) : Text :=
  w.first.text ++ w.rest.flatMap fun p => f p.1.name ++ p.2.text

/-- Filling goes on behind the texts that are done, with one more text before the next place. -/
private theorem fillFrom_splicesFrom (before piece : Text) (rest : List (Reference × Segment)) :
    Template.fillFrom (before ++ (piece ++ rest.flatMap fun p => p.2.text)) before.length
      ((splicesFrom (before.length + piece.length) rest).map fun x => (x.offset : Int))
      (rest.map fun p => f p.1.name) =
        some (piece ++ rest.flatMap fun p => f p.1.name ++ p.2.text) := by
  induction rest generalizing before piece with
  | nil =>
    have hbounds : before.length ≤ (before ++ piece).length := by
      rw [List.length_append]
      exact Nat.le_add_right _ _
    rw [List.flatMap_nil, List.flatMap_nil, List.append_nil, splicesFrom, List.map_nil,
      Template.fillFrom, if_pos ⟨Int.natCast_nonneg _, Int.ofNat_le.2 hbounds⟩, Int.toNat_natCast,
      List.drop_left]
  | cons p rest ih =>
    obtain ⟨r, s⟩ := p
    have hrest := ih (before ++ piece) s.text
    rw [List.length_append, List.append_assoc] at hrest
    have hpiece : ((before ++ (piece ++ (s.text ++ rest.flatMap fun p => p.2.text))).take
        (before.length + piece.length)).drop before.length = piece := by
      rw [← List.append_assoc, List.take_left' List.length_append, List.drop_left]
    have hbounds : before.length + piece.length ≤
        (before ++ (piece ++ (s.text ++ rest.flatMap fun p => p.2.text))).length := by
      rw [List.length_append, List.length_append]
      omega
    rw [splicesFrom, List.map_cons, List.map_cons, List.flatMap_cons, List.flatMap_cons,
      Template.fillFrom, if_pos ⟨Int.natCast_nonneg _, Int.ofNat_le.2 (Nat.le_add_right _ _),
        Int.ofNat_le.2 hbounds⟩, List.tail_cons, List.headD_cons, Int.toNat_natCast,
      Int.toNat_natCast, hpiece, hrest, Option.map_some, List.append_assoc, List.append_assoc]

private theorem fill_literal : (⟨w.text, (splicesFrom w.first.text.length w.rest).map fun x => x.offset, 0⟩ :
    Template).fill (w.rest.map fun p => f p.1.name) = some (w.filled f) := by
  have hfill := fillFrom_splicesFrom (f := f) [] w.first.text w.rest
  rw [List.length_nil, Nat.zero_add] at hfill
  exact hfill

theorem value_literal (hread : ∀ name, (read name).text heap = .ok (f name)) :
    w.literal.value read heap = .ok (.yarn (w.filled f), heap) := by
  have hparts (n : Nat) (rest : List (Reference × Segment)) :
      ((splicesFrom n rest).map fun x => read x.name.name).mapM (Value.text heap) =
        .ok (rest.map fun p => f p.1.name) := by
    induction rest generalizing n with
    | nil => rfl
    | cons p rest ih =>
      rw [splicesFrom, List.map_cons, List.mapM_cons, Reference.ident, hread, ih]
      rfl
  have hvalue : Splice.fill w.text (splicesFrom w.first.text.length w.rest)
      ((splicesFrom w.first.text.length w.rest).map fun x => read x.name.name) heap =
        .ok (.yarn (w.filled f)) := by
    simp only [Splice.fill, hparts, bind, Except.bind, w.fill_literal]
    rfl
  exact congrArg (Except.map (·, heap)) hvalue

private theorem value_reference (r : Reference) : r.expr.value read = pure (read r.name) := by
  unfold Reference.expr
  split
  · rename_i hname
    rw [hname]
    rfl
  · rfl

/-- The text of an expression is joined to the text in front of it. -/
private theorem valueEach_cons {x : Expr} {v : Value} {t u : Text} (xs : List Expr)
    (hx : x.value read = pure v) (hv : v.text heap = .ok u) :
    Expr.valueEach read Value.joined (.yarn t) (x :: xs) heap =
      Expr.valueEach read Value.joined (.yarn (t ++ u)) xs heap := by
  have hjoin : (Value.yarn t).joined heap v = .ok (.yarn (t ++ u)) := by
    rw [Value.joined, hv]
    rfl
  rw [Expr.valueEach, hx, pure_bind, Calc.run_bind]
  simp only [Calc.operate, Calc.perform, hjoin, Except.map, Except.bind]

private theorem valueEach_exprs (hread : ∀ name, (read name).text heap = .ok (f name)) (t : Text)
    (rest : List (Reference × Segment)) :
    Expr.valueEach read Value.joined (.yarn t) (exprs rest) heap =
      .ok (.yarn (t ++ rest.flatMap fun p => f p.1.name ++ p.2.text), heap) := by
  induction rest generalizing t with
  | nil =>
    rw [List.flatMap_nil, List.append_nil]
    rfl
  | cons p rest ih =>
    obtain ⟨r, s⟩ := p
    change Expr.valueEach read Value.joined (.yarn t) (r.expr :: s.expr :: exprs rest) heap = _
    rw [valueEach_cons _ (value_reference r) (hread r.name),
      valueEach_cons (v := .yarn s.text) (u := s.text) _ rfl rfl, ih, List.flatMap_cons,
      List.append_assoc, List.append_assoc, List.append_assoc]

private theorem value_joined (hread : ∀ name, (read name).text heap = .ok (f name)) :
    w.joined.value read heap = .ok (.yarn (w.filled f), heap) := by
  obtain ⟨first, rest, hne⟩ := w
  cases rest with
  | nil => exact absurd rfl hne
  | cons p rest => exact valueEach_exprs hread first.text (p :: rest)

end Weave

namespace Weave

variable {w : Weave} {x y : Expr} {a : Assembly}

/-- The two ways are judged alike by the compiler. -/
private theorem assemble_alike (hx : x.unspanned = w.literal.unspanned)
    (hy : y.unspanned = w.joined.unspanned) (hfits : Fits (x.assemble a))
    (hfits' : Fits (y.assemble a)) :
    (∃ r r', x.assemble a = .ok r ∧ y.assemble a = .ok r') ∨
      ∃ d d', (x.assemble a = .error d ∧ d.kind = .unknownSymbol) ∧
        y.assemble a = .error d' ∧ d'.kind = .unknownSymbol := by
  have hjudged {z : Expr} (hcall : z.hasCall = false) :
      Judged a.lookup z.assemble (z.Scoped a.lookup) fun d => d.kind = .unknownSymbol :=
    z.judged (fun _ h => h) fun h => absurd (hcall.symm.trans h) Bool.false_ne_true
  have hscoped : x.Scoped a.lookup ↔ y.Scoped a.lookup :=
    (Expr.scoped_of_unspanned hx).trans
      (scoped_literal_iff_joined.trans (Expr.scoped_of_unspanned hy).symm)
  exact (hjudged (Expr.hasCall_of_unspanned hx)).both
    (hjudged ((Expr.hasCall_of_unspanned hy).trans hasCall_joined)) hscoped hfits hfits'

/-- Wherever an expression can stand, a string with variables in it, with no blanks between them, and
the joined strings and variables are read as expressions that fail to compile with diagnostics of the
same kind, or that give the same text in each state in which no list contains itself: the texts, with
the texts of the variables between them. Operands that are too large are left aside. -/
theorem literal_agrees_joined [CharNames] (w : Weave) :
    w.literal.IsReadFrom w.literalSource ∧ w.joined.IsReadFrom w.joinedSource ∧
      ∀ (x y : Expr) (a : Assembly), x.unspanned = w.literal.unspanned →
        y.unspanned = w.joined.unspanned → a.Lexical →
        a.chunk.positions.size = a.chunk.code.size → Fits (x.assemble a) → Fits (y.assemble a) →
        match x.assemble a, y.assemble a with
        | .error d, .error d' => d.kind = d'.kind
        | .ok (_, b), .ok (_, b') => ∀ (s : Settings) (m : Machine), s.tracing = false → m.Suits a →
          Heap.Grounded m.heap → ∃ f : Text → Text,
            (∀ name, (m.read a name).render m.heap = .ok (f name)) ∧
            m.Gives b.chunk s (.ok (.yarn (w.filled f))) ∧
            m.Gives b'.chunk s (.ok (.yarn (w.filled f)))
        | _, _ => False := by
  refine ⟨w.literal_isReadFrom, w.joined_isReadFrom, fun x y a hx hy ha haligned hfits hfits' => ?_⟩
  obtain ⟨r, r', hrun, hrun'⟩ | ⟨d, d', ⟨hrun, hkind⟩, hrun', hkind'⟩ :=
    assemble_alike hx hy hfits hfits'
  · rw [hrun, hrun']
    intro s m hs hm hground
    have hheap : Heap.Whole m.heap := fun elems helems v hv => hm.whole v (.element elems helems hv)
    choose f hf using fun name => hground.exists_render hheap (hm.whole_read name)
    have htext (name : Text) : (m.read a name).text m.heap = .ok (f name) := by
      rw [Value.text, hf]
      rfl
    exact ⟨f, hf, Expr.gives_of_unspanned hx hs ha haligned hm rfl hrun (w.value_literal htext),
      Expr.gives_of_unspanned hy hs ha haligned hm hasCall_joined hrun' (w.value_joined htext)⟩
  · rw [hrun, hrun']
    exact hkind.trans hkind'.symm

/-- `é`, the implicit variable twice with nothing in between, and a quotation mark. -/
def greeting : Weave where
  first := .ofChars ['é']
  rest := [(⟨implicitName, .inr rfl⟩, .ofChars []), (⟨implicitName, .inr rfl⟩, .ofChars ['"'])]
  woven := nofun

attribute [local instance] CharNames.common

theorem literal_agrees_joined_greeting :
    greeting.literalSource = "\"é:\x7bIT\x7d:\x7bIT\x7d:\"\"".toList ∧
      greeting.joinedSource = "SMOOSH \"é\" AN IT AN \"\" AN IT AN \":\"\" MKAY".toList ∧
      ∃ (b b' : Assembly) (f : Text → Text),
        greeting.literal.assemble ⟨.empty, .empty, []⟩ = .ok ((), b) ∧
        greeting.joined.assemble ⟨.empty, .empty, []⟩ = .ok ((), b') ∧
        ((Machine.idle #[]).start []).Gives b.chunk {} (.ok (.yarn (greeting.filled f))) ∧
        ((Machine.idle #[]).start []).Gives b'.chunk {} (.ok (.yarn (greeting.filled f))) := by
  refine ⟨by decide +kernel, by decide +kernel, ?_⟩
  obtain ⟨⟨⟨⟩, b⟩, hb, -⟩ : ∃ r, greeting.literal.assemble ⟨.empty, .empty, []⟩ = .ok r ∧
      decide (r.2.chunk.code.size = 4) = true := exists_of_toOption_any (by decide +kernel)
  obtain ⟨⟨⟨⟩, b'⟩, hb', -⟩ : ∃ r, greeting.joined.assemble ⟨.empty, .empty, []⟩ = .ok r ∧
      decide (r.2.chunk.code.size = 12) = true := exists_of_toOption_any (by decide +kernel)
  have hagree := greeting.literal_agrees_joined.2.2 greeting.literal greeting.joined
    ⟨.empty, .empty, []⟩ rfl rfl Assembly.lexical_start rfl (hb ▸ nofun) (hb' ▸ nofun)
  rw [hb, hb'] at hagree
  obtain ⟨f, -, hgives, hgives'⟩ :=
    hagree {} _ rfl (Machine.suits_start []) Heap.grounded_empty
  exact ⟨b, b', f, hb, hb', hgives, hgives'⟩

end Weave
end LolToolchain
