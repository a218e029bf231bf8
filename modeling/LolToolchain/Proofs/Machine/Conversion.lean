import LolToolchain.Machine.Sequence
import LolToolchain.Proofs.Text.Numeral

/-!
Conversions between types. What a conversion gives is of the type asked for and stays as it is when it
is converted again; a `NUMBR` that is written out is read back, and its text counts as the number in
arithmetic and orderings, also with white space around it.
-/
namespace LolToolchain

variable {heap : Heap}

theorem exists_of_bind {ε α β : Type} {x : Except ε α} {f : α → Except ε β} {b : β}
    (h : x >>= f = .ok b) : ∃ a, x = .ok a ∧ f a = .ok b := by
  cases x with
  | error e => cases h
  | ok a => exact ⟨a, rfl, h⟩

private theorem Text.trimmed_append {before cs after : List Char} (hne : cs ≠ [])
    (hbefore : ∀ c ∈ before, isBlank c = true) (hcs : ∀ c ∈ cs, isBlank c = false)
    (hafter : ∀ c ∈ after, isBlank c = true) :
    (ofChars before ++ ofChars cs ++ ofChars after).trimmed = ofChars cs := by
  have hblank {ds : List Char} (hds : ∀ c ∈ ds, isBlank c = true) :
      ∀ g ∈ ds.map Glyph.char, blankGlyph g = true := by
    intro g hg
    obtain ⟨c, hc, rfl⟩ := List.mem_map.1 hg
    exact hds c hc
  have hdrop (gs hs : List Glyph) (ds : List Char) (hds : ∀ c ∈ ds, isBlank c = true)
      (hgs : gs ≠ []) (hfirst : ∀ g ∈ gs, blankGlyph g = false) :
      (ds.map Glyph.char ++ (gs ++ hs)).dropWhile blankGlyph = gs ++ hs := by
    obtain ⟨g, gs, rfl⟩ := List.exists_cons_of_ne_nil hgs
    rw [List.dropWhile_append_of_pos (hblank hds), List.cons_append]
    exact List.dropWhile_cons_of_neg (Bool.eq_false_iff.1 (hfirst g List.mem_cons_self))
  have hinside : ∀ g ∈ cs.map Glyph.char, blankGlyph g = false := by
    intro g hg
    obtain ⟨c, hc, rfl⟩ := List.mem_map.1 hg
    exact hcs c hc
  have hmap : cs.map Glyph.char ≠ [] := by simpa using hne
  -- The end is trimmed as the front of the reversed row of characters.
  have hend : ((cs.map Glyph.char ++ after.map Glyph.char).reverse.dropWhile blankGlyph).reverse =
      cs.map Glyph.char := by
    have hrev := hdrop (cs.map Glyph.char).reverse [] after.reverse
      (fun c hc => hafter c (List.mem_reverse.1 hc)) (by simpa using hne)
      (fun g hg => hinside g (List.mem_reverse.1 hg))
    rw [List.append_nil, List.map_reverse] at hrev
    rw [List.reverse_append, hrev, List.reverse_reverse]
  rw [trimmed, ← ofChars_append, ← ofChars_append, glyphs_ofChars, List.map_append, List.map_append,
    List.append_assoc, hdrop _ _ _ hbefore hmap hinside]
  simp only [hend]
  rw [ofGlyphs, List.flatMap_map]
  rfl

/-- The text of a number, also between blanks, is read as that number. -/
private theorem Number.ofText_numeral (n : Int64) {before after : List Char}
    (hbefore : ∀ c ∈ before, Text.isBlank c = true) (hafter : ∀ c ∈ after, Text.isBlank c = true) :
    ofText (Text.ofChars before ++ Text.ofInt n.toInt ++ Text.ofChars after) = .ok (.int n) := by
  obtain ⟨cs, hcs, hchars⟩ := Text.exists_chars_ofInt n.toInt
  have hblank : ∀ c ∈ cs, Text.isBlank c = false := by
    intro c hc
    obtain rfl | hdigit := hchars c hc
    · rfl
    · exact Text.isBlank_digit hdigit
  have hne : cs ≠ [] := by
    rintro rfl
    have hread := readNumbr?_ofInt n
    rw [hcs] at hread
    cases hread
  have hpoint : (Text.ofInt n.toInt).any (· == 0x2E) = false := by
    rw [List.any_eq_false]
    intro b hb hpoint
    obtain rfl | ⟨hlow, -⟩ := Text.mem_ofInt hb
    · cases hpoint
    · rw [beq_iff_eq.1 hpoint] at hlow
      exact absurd hlow (by decide)
  have htrim := Text.trimmed_append hne hbefore hblank hafter
  rw [← hcs] at htrim
  simp only [ofText, htrim, hpoint, readNumbr?_ofInt, Bool.false_eq_true, if_false]

namespace Value

variable {heap' : Heap} {v w : Value} {t : TypeName}

/-- The type of a value. Functions and the templates of string literals have none that a program can
name. -/
def typeName? : Value → Option TypeName
  | .noob => some .noob
  | .troof _ => some .troof
  | .numbr _ => some .numbr
  | .numbar _ => some .numbar
  | .yarn _ => some .yarn
  | .bukkit _ => some .bukkit
  | _ => none

/-- A conversion gives a value of the type asked for. -/
theorem typeName?_of_cast (h : v.cast heap t = .ok (w, heap')) : w.typeName? = some t := by
  cases t with
  | noob =>
    cases h
    rfl
  | troof =>
    obtain ⟨b, -, hb⟩ := exists_of_bind h
    cases hb
    rfl
  | numbr =>
    obtain ⟨x, -, hx⟩ := exists_of_bind h
    obtain ⟨n, -, hn⟩ := exists_of_bind hx
    cases hn
    rfl
  | numbar =>
    obtain ⟨x, -, hx⟩ := exists_of_bind h
    cases hx
    rfl
  | yarn =>
    obtain ⟨u, -, hu⟩ := exists_of_bind h
    cases hu
    rfl
  | bukkit =>
    cases v <;> cases h <;> rfl

/-- A value of a type is its own conversion to it, and no list is made for it. -/
private theorem cast_of_typeName? (h : v.typeName? = some t) (heap : Heap) :
    v.cast heap t = .ok (v, heap) := by
  cases v <;> cases h <;> rfl

/-- What counts as the same number gives the same results in arithmetic and in orderings, on either
side. -/
private theorem eval_congr (h : Number.ofValue v = Number.ofValue w) (u : Value) :
    (∀ op : Arithmetic, op.eval v u = op.eval w u ∧ op.eval u v = op.eval u w) ∧
      ∀ op : Comparison, op.eval v u = op.eval w u ∧ op.eval u v = op.eval u w := by
  simp only [Arithmetic.eval, Comparison.eval, h, implies_true, and_self]

/-- A conversion that succeeds gives a value of its type, which is converted to itself from then on,
whatever lists are made or changed meanwhile. A `NUMBR` is what its text is converted to, and the text,
with or without white space around it, gives what the number gives in arithmetic and in orderings. -/
theorem cast_settles (heap : Heap) :
    (∀ (v w : Value) (t : TypeName) (heap' : Heap), v.cast heap t = .ok (w, heap') →
      w.typeName? = some t ∧ ∀ later : Heap, w.cast later t = .ok (w, later)) ∧
    ∀ n : Int64, ∃ digits : Text, cast heap (.numbr n) .yarn = .ok (.yarn digits, heap) ∧
      ∀ before after : List Char, (∀ c ∈ before, Text.isBlank c = true) →
        (∀ c ∈ after, Text.isBlank c = true) →
        let spaced : Value := .yarn (Text.ofChars before ++ digits ++ Text.ofChars after)
        cast heap spaced .numbr = .ok (.numbr n, heap) ∧
          ∀ v : Value,
            (∀ op : Arithmetic, op.eval spaced v = op.eval (.numbr n) v ∧
              op.eval v spaced = op.eval v (.numbr n)) ∧
            ∀ op : Comparison, op.eval spaced v = op.eval (.numbr n) v ∧
              op.eval v spaced = op.eval v (.numbr n) := by
  refine ⟨fun v w t heap' h => ?_, fun n => ⟨Text.ofInt n.toInt, rfl, ?_⟩⟩
  · have htype := typeName?_of_cast h
    exact ⟨htype, cast_of_typeName? htype⟩
  · intro before after hbefore hafter spaced
    have hnumber : Number.ofValue spaced = .ok (.int n) :=
      Number.ofText_numeral n hbefore hafter
    refine ⟨?_, eval_congr hnumber⟩
    rw [cast, hnumber]
    rfl

/-- `NOOB` becomes a list, which stays that list, and the least number is read back from its text with
blanks of several widths around it. -/
theorem cast_settles_least : ∃ heap : Heap, heap = #[#[]] ∧
    cast heap .noob .bukkit = .ok (.bukkit 1, #[#[], #[]]) ∧
    (typeName? (.bukkit 1) = some .bukkit ∧
      ∀ later : Heap, cast later (.bukkit 1) .bukkit = .ok (.bukkit 1, later)) ∧
    ∃ digits : Text, cast heap (.numbr Int64.minValue) .yarn = .ok (.yarn digits, heap) ∧
      (∀ c ∈ [' ', '\u2003'], Text.isBlank c = true) ∧ (∀ c ∈ ['\n'], Text.isBlank c = true) ∧
      let spaced : Value := .yarn (Text.ofChars [' ', '\u2003'] ++ digits ++ Text.ofChars ['\n'])
      cast heap spaced .numbr = .ok (.numbr Int64.minValue, heap) ∧
        Arithmetic.eval .add spaced (.numbr (-1)) =
          Arithmetic.eval .add (.numbr Int64.minValue) (.numbr (-1)) ∧
        Comparison.eval .lt (.numbr 0) spaced = Comparison.eval .lt (.numbr 0) (.numbr Int64.minValue) := by
  have hmade : cast #[#[]] .noob .bukkit = .ok (.bukkit 1, #[#[], #[]]) := rfl
  have hbefore : ∀ c ∈ [' ', '\u2003'], Text.isBlank c = true :=
    List.forall_mem_cons.2 ⟨rfl, List.forall_mem_singleton.2 rfl⟩
  have hafter : ∀ c ∈ ['\n'], Text.isBlank c = true := List.forall_mem_singleton.2 rfl
  obtain ⟨digits, hdigits, hspaced⟩ := (cast_settles #[#[]]).2 Int64.minValue
  obtain ⟨hcast, heval⟩ := hspaced _ _ hbefore hafter
  refine ⟨_, rfl, hmade, (cast_settles #[#[]]).1 _ _ _ _ hmade, digits, hdigits, hbefore, hafter,
    hcast, ?_, ?_⟩
  · exact ((heval _).1 .add).1
  · exact ((heval _).2 .lt).2

end Value
end LolToolchain
