import LolToolchain.Proofs.Code.Calculation
import LolToolchain.Proofs.Code.Reuse
import LolToolchain.Proofs.Evaluation.Ordering
import LolToolchain.Text.CommonNames

/-!
What the folding of comparisons does to the runs of a program. Nothing, where a comparison is one of
numbers and the compared operand stands in it twice; but an operand may be a text, which an ordering
takes for a number, and a negative zero is taken for the same as a positive one.
-/
namespace LolToolchain

private theorem Stack.mem_toList_of_get? {s : Stack} {i : Nat} {v : Value} (h : s.get? i = some v) :
    v ∈ s.toList := by
  rw [get?] at h
  split at h
  · rename_i hi
    refine List.mem_of_getElem? (i := i) ?_
    rwa [toList, List.getElem?_take_of_lt hi, Array.getElem?_toList]
  · cases h

namespace Machine

variable {m : Machine} {a : Assembly}

/-- The values of names are values of the machine, or functions. -/
theorem Suits.whole_read (h : m.Suits a) (name : Text) : (m.read a name).Whole m.heap.size := by
  unfold read
  split
  · exact h.whole _ (.implicit rfl)
  · split
    · rename_i n _
      cases hget : m.stack.get? (m.base + n) with
      | none => trivial
      | some v =>
        exact h.whole v (.stack (Stack.mem_toList_of_get? hget))
    · cases Names.function? name (a.outer.map Scope.names) <;> trivial

/-- A machine that has been started can run what is compiled first. -/
theorem suits_start (input : Text) : ((idle #[]).start input).Suits ⟨.empty, .empty, []⟩ where
  next := rfl
  frames := nofun
  stack := Nat.le_refl _
  locals := Nat.le_refl _
  whole := fun _ hv => (sound_start input).whole hv

end Machine

namespace Expr

variable {span : Span} {op : BinaryOp} {left right other matched rest : Expr} {extreme : Extreme}

/-- With no call in the operands of the extreme, there is none in the comparison, folded or not. -/
private theorem Folds.noCalls (h : Folds op left right extreme other matched rest) (span : Span)
    (hleft : extreme.left.hasCall = false) (hright : extreme.right.hasCall = false) :
    (binary span op left right).hasCall = false ∧
      (foldComparison span op left right).hasCall = false := by
  have hextreme (s : Span) : (binary s extreme.op extreme.left extreme.right).hasCall = false :=
    Bool.or_eq_false_iff.2 ⟨hleft, hright⟩
  constructor
  · obtain ⟨s, ⟨rfl, rfl⟩ | ⟨rfl, rfl⟩⟩ := h.sides_eq
    · exact Bool.or_eq_false_iff.2 ⟨hextreme s, h.noCall⟩
    · exact Bool.or_eq_false_iff.2 ⟨h.noCall, hextreme s⟩
  · obtain ⟨hmatched, hrest⟩ : matched.hasCall = false ∧ rest.hasCall = false := by
      obtain ⟨-, ⟨rfl, rfl⟩ | ⟨rfl, rfl⟩⟩ := h.operands_eq
      · exact ⟨hleft, hright⟩
      · exact ⟨hright, hleft⟩
    rw [h.fold_eq, Extreme.ordering]
    split
    · exact Bool.or_eq_false_iff.2 ⟨hmatched, hrest⟩
    · exact Bool.or_eq_false_iff.2 ⟨hrest, hmatched⟩

/-- A comparison of numbers that is folded, with no call in its operands, gives the same truth value
or the same fault as it does unfolded, from every machine that can run it: where the operand that is
found again is spelled in the same way both times and gives a `NUMBR`, and the other operand does not
come down to a `NUMBAR`. -/
theorem Folds.gives_same (h : Folds op left right extreme other matched rest)
    (hleft : extreme.left.hasCall = false) (hright : extreme.right.hasCall = false)
    (hsame : matched.unspanned = other.unspanned) {a kept folded : Assembly} (ha : a.Lexical)
    (haligned : a.chunk.positions.size = a.chunk.code.size)
    (hkept : (binary span op left right).assemble a = .ok ((), kept))
    (hfolded : (foldComparison span op left right).assemble a = .ok ((), folded))
    (hshort : kept.chunk.code.size < 2 ^ 31) (hshort' : folded.chunk.code.size < 2 ^ 31)
    {s : Settings} (hs : s.tracing = false) {m : Machine} (hm : m.Suits a) {p : Int64} {after : Heap}
    (hmatched : matched.value (m.read a) m.heap = .ok (.numbr p, after))
    (hrest : ∀ v after y, rest.value (m.read a) m.heap = .ok (v, after) →
      Number.ofValue v ≠ .ok (.float y)) :
    ∃ r : Except Fault Bool,
      m.Gives kept.chunk s (r.map .troof) ∧ m.Gives folded.chunk s (r.map .troof) := by
  have hheap : Heap.Whole m.heap := fun elems helems v hv => hm.whole v (.element elems helems hv)
  obtain ⟨r, hr, hr'⟩ := h.value_eq span hsame hheap hm.whole_read hmatched hrest
  obtain ⟨hcalls, hcalls'⟩ := h.noCalls span hleft hright
  exact ⟨r, hr ▸ gives hs ha haligned hm hcalls hkept hshort,
    hr' ▸ gives hs ha haligned hm hcalls' hfolded hshort'⟩

/-- A text that is read as a number takes part as that number. -/
theorem Folds.gives_same_five : ∃ kept folded : Assembly,
    (binary .zero .equal (.int .zero 3)
      (.binary .zero .max (.string .zero "5") (.int ⟨8, 9, 0⟩ 3))).assemble ⟨.empty, .empty, []⟩ =
        .ok ((), kept) ∧
    (foldComparison .zero .equal (.int .zero 3)
      (.binary .zero .max (.string .zero "5") (.int ⟨8, 9, 0⟩ 3))).assemble ⟨.empty, .empty, []⟩ =
        .ok ((), folded) ∧
    ∃ r : Except Fault Bool, ((Machine.idle #[]).start []).Gives kept.chunk {} (r.map .troof) ∧
      ((Machine.idle #[]).start []).Gives folded.chunk {} (r.map .troof) := by
  have hfolds : Folds .equal (.int .zero 3)
      (.binary .zero .max (.string .zero "5") (.int ⟨8, 9, 0⟩ 3))
      ⟨true, .string .zero "5", .int ⟨8, 9, 0⟩ 3⟩ (.int .zero 3) (.int ⟨8, 9, 0⟩ 3)
      (.string .zero "5") := ⟨.inl rfl, rfl, rfl, rfl, rfl⟩
  refine ⟨_, _, rfl, rfl, ?_⟩
  have hthree : (int ⟨8, 9, 0⟩ 3).value
      (((Machine.idle #[]).start []).read ⟨.empty, .empty, []⟩) #[] = .ok (.numbr 3, #[]) := rfl
  refine hfolds.gives_same rfl rfl rfl Assembly.lexical_start rfl rfl rfl (by decide) (by decide) rfl
    (Machine.suits_start []) hthree fun v after y hv hy => ?_
  cases hv
  have hfive : Number.ofValue (.yarn "5") = .ok (.int 5) := rfl
  rw [hfive] at hy
  cases hy

end Expr

namespace Pipeline

/-- What is seen of a source text that is compiled and run. -/
theorem runSource_fst [CharNames] {optimize : Bool} {fuel : Nat} {cs : List Char} {report : Outcome}
    (h : (compileWithin 0 (.ofChars cs) optimize).toOption.any (fun c =>
      decide (runChunk fuel ⟨optimize, false, false⟩ ⟨[], none, none, none⟩ [] c = report)) = true) :
    (runSource fuel ⟨optimize, false, false⟩ ⟨[], none, none, none⟩ none []
      (String.ofList cs)).1 = report := by
  obtain ⟨c, hcompile, hreport⟩ := exists_compileSource _ h
  have hrun := runSource_of_compile (o := ⟨optimize, false, false⟩) (compile_fresh hcompile) fuel
    ⟨[], none, none, none⟩ []
  exact (congrArg Prod.fst hrun).trans (of_decide_eq_true hreport)

attribute [local instance] CharNames.common

/-- A text is compared with the greater of itself and a number. -/
def textAndGreater : String :=
  "HAI 1.2\nI HAS A x ITZ \"5\"\nVISIBLE BOTH SAEM x AN BIGGR OF x AN 1\nKTHXBYE\n"

/-- A text is no number when it is compared as it is, but it is one in an ordering: folded, the
comparison of a text with the greater of itself and a number comes out the other way. -/
theorem folded_text_differs :
    (runSource 9 ⟨false, false, false⟩ ⟨[], none, none, none⟩ none [] textAndGreater).1 =
        ⟨"FAIL\n", [], none⟩ ∧
    (runSource 9 ⟨true, false, false⟩ ⟨[], none, none, none⟩ none [] textAndGreater).1 =
        ⟨"WIN\n", [], none⟩ :=
  ⟨runSource_fst (by decide +kernel), runSource_fst (by decide +kernel)⟩

/-- The length of the text of a negative zero is compared with the greater of that of a positive one
and a number. -/
def zerosAndGreater : String :=
  "HAI 1.2\nVISIBLE BOTH SAEM LEN OF SMOOSH -0.0 MKAY AN BIGGR OF LEN OF SMOOSH 0.0 MKAY AN 0\nKTHXBYE\n"

/-- A negative zero and a positive one are found to be the same, but their texts are not of the same
length: folded, the comparison of the length of the one with the greater of the length of the other
and a number comes out the other way. -/
theorem folded_zero_differs :
    (runSource 20 ⟨false, false, false⟩ ⟨[], none, none, none⟩ none [] zerosAndGreater).1 =
        ⟨"FAIL\n", [], none⟩ ∧
    (runSource 20 ⟨true, false, false⟩ ⟨[], none, none, none⟩ none [] zerosAndGreater).1 =
        ⟨"WIN\n", [], none⟩ :=
  ⟨runSource_fst (by decide +kernel), runSource_fst (by decide +kernel)⟩

end Pipeline
end LolToolchain
