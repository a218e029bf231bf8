import LolToolchain.Proofs.Text.Utf8

/-!
Texts that need not be well-formed, read from either end. What stands in front, a character or a byte
at which none starts, is read first, and the rest is read as if it stood alone. No character ends
inside another one, so the last four bytes of a text show its last character as the first four show
the first.
-/
namespace LolToolchain

namespace Glyph

/-- A byte at which no character starts leaves what stands behind it as it is. -/
private theorem eq_of_attach_stray {b b' : UInt8} {gs hs : List Glyph} (h : attach b gs = .stray b' :: hs) :
    gs = hs := by
  unfold attach at h
  split at h
  · cases h
  · repeat' split at h
    all_goals
      cases h
      try rfl

/-- Glyphs are shown alike when they are the same character or both none. -/
theorem map_toChar_eq {x y : Option Glyph} (hnone : x = none ↔ y = none)
    (hchar : ∀ c, x = some (.char c) ↔ y = some (.char c)) : x.map toChar = y.map toChar := by
  cases x with
  | none => rw [hnone.1 rfl]
  | some g =>
    cases g with
    | char c => rw [(hchar c).1 rfl]
    | stray b =>
      cases y with
      | none => cases hnone.2 rfl
      | some g' =>
        cases g' with
        | char c => cases (hchar c).2 rfl
        | stray b' => rfl

end Glyph

namespace Text

variable {t u : Text} {c : Char} {b : UInt8} {g : Glyph} {gs : List Glyph}

/-- A text is its first glyph and a rest that is read alone. -/
theorem exists_of_glyphs_cons (h : t.glyphs = g :: gs) :
    ∃ u : Text, t = g.bytes ++ u ∧ u.glyphs = gs := by
  have ht : g.bytes ++ ofGlyphs gs = t := by
    rw [← ofGlyphs_glyphs t, h]
    rfl
  subst ht
  refine ⟨ofGlyphs gs, rfl, ?_⟩
  cases g with
  | char c =>
    rw [Glyph.bytes, glyphs_encodeChar_append] at h
    exact (List.cons.inj h).2
  | stray b => exact Glyph.eq_of_attach_stray h

theorem glyphs_eq_nil_iff : t.glyphs = [] ↔ t = [] := by
  constructor
  · intro h
    rw [← ofGlyphs_glyphs t, h]
    rfl
  · rintro rfl
    rfl

theorem head?_glyphs_char_iff : t.glyphs.head? = some (.char c) ↔ encodeChar c <+: t := by
  constructor
  · intro h
    obtain ⟨gs, hgs⟩ := List.head?_eq_some_iff.1 h
    obtain ⟨u, rfl, -⟩ := exists_of_glyphs_cons hgs
    exact List.prefix_append _ _
  · rintro ⟨u, rfl⟩
    rw [glyphs_encodeChar_append]
    rfl

private theorem getLast?_glyphs_char_iff : t.glyphs.getLast? = some (.char c) ↔ encodeChar c <:+ t := by
  constructor
  · intro h
    obtain ⟨gs, hgs⟩ := List.getLast?_eq_some_iff.1 h
    refine ⟨ofGlyphs gs, ?_⟩
    rw [← ofGlyphs_glyphs t, hgs, ofGlyphs, ofGlyphs, List.flatMap_append, List.flatMap_singleton]
    rfl
  · rintro ⟨u, rfl⟩
    have hread := glyphs_append_encodeChar u c []
    rw [List.append_nil] at hread
    rw [hread]
    exact List.getLast?_concat

theorem firstChar?_eq (t : Text) : t.firstChar? = t.chars.head? := by
  rw [chars, List.head?_map]
  apply Glyph.map_toChar_eq
  · simp [glyphs_eq_nil_iff]
  · intro c
    rw [head?_glyphs_char_iff, head?_glyphs_char_iff]
    exact List.prefix_take_iff.trans (and_iff_left (length_encodeChar_le c))

theorem lastChar?_eq (t : Text) : t.lastChar? = t.chars.getLast? := by
  rw [chars, List.getLast?_map]
  apply Glyph.map_toChar_eq
  · simp only [List.getLast?_eq_none_iff, glyphs_eq_nil_iff, List.drop_eq_nil_iff]
    cases t with
    | nil => simp
    | cons b t => simp only [List.length_cons, reduceCtorEq, iff_false]; omega
  · intro c
    rw [getLast?_glyphs_char_iff, getLast?_glyphs_char_iff]
    constructor
    · intro h
      exact h.trans (List.drop_suffix _ _)
    · intro h
      -- A character is at most four bytes long, so all of it is among the last four.
      refine List.suffix_of_suffix_length_le h (List.drop_suffix _ _) ?_
      have hlength := length_encodeChar_le c
      have hle := h.length_le
      rw [List.length_drop]
      omega

theorem length_chars_le (t : Text) : t.chars.length ≤ t.length := by
  have hle : ∀ gs : List Glyph, gs.length ≤ (ofGlyphs gs).length := by
    intro gs
    induction gs with
    | nil => exact Nat.le_refl 0
    | cons g gs ih =>
      have hwidth := Glyph.one_le_width g
      rw [ofGlyphs, List.flatMap_cons, List.length_append, List.length_cons]
      rw [Glyph.width] at hwidth
      rw [ofGlyphs] at ih
      omega
  rw [chars, List.length_map]
  exact Nat.le_trans (hle _) (Nat.le_of_eq (congrArg List.length (ofGlyphs_glyphs t)))

/-- A text and what it becomes when each byte at which no character starts, and that is part of none in
front of it, is replaced by U+FFFD. -/
inductive Repairs : Text → Text → Prop where
  | nil : Repairs [] []
  | char (c : Char) {t u : Text} (h : Repairs t u) : Repairs (encodeChar c ++ t) (encodeChar c ++ u)
  | byte (b : UInt8) {t u : Text} (hb : ∀ c, ¬ encodeChar c <+: b :: t) (h : Repairs t u) :
    Repairs (b :: t) (encodeChar (Char.ofNat 0xFFFD) ++ u)

private theorem glyphs_cons_of_not_prefix (h : ∀ c, ¬ encodeChar c <+: b :: t) :
    glyphs (b :: t) = .stray b :: t.glyphs := by
  cases hgs : glyphs (b :: t) with
  | nil => cases glyphs_eq_nil_iff.1 hgs
  | cons g gs =>
    cases g with
    | char c =>
      have hhead : (glyphs (b :: t)).head? = some (.char c) := by rw [hgs, List.head?_cons]
      exact absurd (head?_glyphs_char_iff.1 hhead) (h c)
    | stray b' =>
      obtain ⟨u, hu, rfl⟩ := exists_of_glyphs_cons hgs
      obtain ⟨rfl, rfl⟩ := List.cons.inj hu
      rfl

private theorem repairs_repaired (t : Text) : t.Repairs t.repaired := by
  rw [repaired]
  generalize hgs : t.glyphs = gs
  induction gs generalizing t with
  | nil =>
    rw [glyphs_eq_nil_iff.1 hgs]
    exact .nil
  | cons g gs ih =>
    obtain ⟨u, rfl, hu⟩ := exists_of_glyphs_cons hgs
    have hrest := ih u hu
    cases g with
    | char c => exact .char c hrest
    | stray b =>
      refine .byte b (fun c hc => ?_) hrest
      have hhead := head?_glyphs_char_iff.2 hc
      change (glyphs ([b] ++ u)).head? = _ at hhead
      rw [← Glyph.bytes, hgs] at hhead
      cases hhead

/-- The repaired text is the one that is meant: a text is repaired in just one way. -/
theorem repairs_iff : t.Repairs u ↔ u = t.repaired := by
  constructor
  · intro h
    induction h with
    | nil => rfl
    | @char c t u h ih => rw [ih, repaired, repaired, glyphs_encodeChar_append]; rfl
    | @byte b t u hb h ih => rw [ih, repaired, repaired, glyphs_cons_of_not_prefix hb]; rfl
  · rintro rfl
    exact repairs_repaired t

end Text
end LolToolchain
