import LolToolchain.Token.Cursor

/-!
Texts and their glyphs: splitting a text into glyphs loses nothing, and the text of a list of
characters is split into just these characters.
-/
namespace LolToolchain

theorem toNat_ofNat {n : Nat} (h : n.isValidChar) : (Char.ofNat n).toNat = n := by
  rw [Char.ofNat, dif_pos h]
  rfl

/-- A byte is determined by its number. -/
theorem toUInt8_eq {n : Nat} {b : UInt8} (h : n = b.toNat) : n.toUInt8 = b := by
  rw [h]
  exact UInt8.ofNat_toNat

namespace Glyph

theorem isContinuation_iff {b : UInt8} : isContinuation b = true ↔ 0x80 ≤ b.toNat ∧ b.toNat < 0xC0 := by
  rw [isContinuation, Bool.and_eq_true, decide_eq_true_eq, decide_eq_true_eq, UInt8.le_iff_toNat_le,
    UInt8.lt_iff_toNat_lt]
  rfl

private theorem encodeChar_of_pair? {b0 b1 : UInt8} {c : Char} (h : pair? b0 b1 = some c) :
    Text.encodeChar c = [b0, b1] := by
  rw [pair?] at h
  split at h
  · rename_i hb
    cases h
    simp only [Bool.and_eq_true, decide_eq_true_eq, isContinuation_iff, UInt8.le_iff_toNat_le,
      UInt8.lt_iff_toNat_lt, UInt8.reduceToNat] at hb
    have h1 : payload b1 = b1.toNat % 0x40 := rfl
    rw [Text.encodeChar, toNat_ofNat (.inl (by omega)), if_neg (by omega), if_pos (by omega),
      toUInt8_eq (b := b0) (by omega), toUInt8_eq (b := b1) (by omega)]
  · cases h

private theorem encodeChar_of_triple? {b0 b1 b2 : UInt8} {c : Char} (h : triple? b0 b1 b2 = some c) :
    Text.encodeChar c = [b0, b1, b2] := by
  dsimp only [triple?] at h
  split at h
  · rename_i hb
    cases h
    simp only [Bool.and_eq_true, Bool.not_eq_true', Bool.and_eq_false_iff, decide_eq_true_eq,
      decide_eq_false_iff_not, isContinuation_iff, UInt8.le_iff_toNat_le, UInt8.lt_iff_toNat_lt,
      UInt8.reduceToNat] at hb
    have h1 : payload b1 = b1.toNat % 0x40 := rfl
    have h2 : payload b2 = b2.toNat % 0x40 := rfl
    rw [Text.encodeChar, toNat_ofNat (by simp only [Nat.isValidChar]; omega), if_neg (by omega),
      if_neg (by omega), if_pos (by omega), toUInt8_eq (b := b0) (by omega),
      toUInt8_eq (b := b1) (by omega), toUInt8_eq (b := b2) (by omega)]
  · cases h

private theorem encodeChar_of_quad? {b0 b1 b2 b3 : UInt8} {c : Char} (h : quad? b0 b1 b2 b3 = some c) :
    Text.encodeChar c = [b0, b1, b2, b3] := by
  dsimp only [quad?] at h
  split at h
  · rename_i hb
    cases h
    simp only [Bool.and_eq_true, decide_eq_true_eq, isContinuation_iff, UInt8.le_iff_toNat_le,
      UInt8.lt_iff_toNat_lt, UInt8.reduceToNat] at hb
    have h1 : payload b1 = b1.toNat % 0x40 := rfl
    have h2 : payload b2 = b2.toNat % 0x40 := rfl
    have h3 : payload b3 = b3.toNat % 0x40 := rfl
    rw [Text.encodeChar, toNat_ofNat (by simp only [Nat.isValidChar]; omega), if_neg (by omega),
      if_neg (by omega), if_neg (by omega), toUInt8_eq (b := b0) (by omega),
      toUInt8_eq (b := b1) (by omega), toUInt8_eq (b := b2) (by omega),
      toUInt8_eq (b := b3) (by omega)]
  · cases h

private theorem encodeChar_of_lt {b : UInt8} (h : b < 0x80) : Text.encodeChar (Char.ofNat b.toNat) = [b] := by
  have hb : b.toNat < 0x80 := UInt8.lt_iff_toNat_lt.1 h
  rw [Text.encodeChar, toNat_ofNat (.inl (by omega)), if_pos hb, toUInt8_eq rfl]

/-- Putting a byte in front of glyphs puts it in front of their bytes. -/
private theorem ofGlyphs_attach (b : UInt8) (gs : List Glyph) :
    Text.ofGlyphs (attach b gs) = b :: Text.ofGlyphs gs := by
  fun_cases attach b gs
  case case1 h => simp [Text.ofGlyphs, bytes, encodeChar_of_lt h]
  case case2 h => simp [Text.ofGlyphs, bytes, encodeChar_of_pair? h]
  case case3 h => simp [Text.ofGlyphs, bytes, encodeChar_of_triple? h]
  case case4 h => simp [Text.ofGlyphs, bytes, encodeChar_of_quad? h]
  all_goals rfl

theorem one_le_width (g : Glyph) : 1 ≤ g.width := by
  cases g with
  | char c =>
    rw [width, bytes, Text.encodeChar]
    repeat' split
    all_goals exact Nat.succ_le_succ (Nat.zero_le _)
  | stray b => exact Nat.le_refl _

end Glyph

namespace Text

/-- The glyphs of a text spell the text. -/
theorem ofGlyphs_glyphs (t : Text) : ofGlyphs t.glyphs = t := by
  induction t with
  | nil => rfl
  | cons b t ih =>
    change ofGlyphs (Glyph.attach b (glyphs t)) = b :: t
    rw [Glyph.ofGlyphs_attach, ih]

end Text

namespace Cursor

theorem widthOf_eq (gs : List Glyph) : widthOf gs = (Text.ofGlyphs gs).length := by
  induction gs with
  | nil => rfl
  | cons g gs ih =>
    rw [Text.ofGlyphs, List.flatMap_cons, List.length_append, ← Text.ofGlyphs, ← ih]
    rfl

theorem widthOf_append (gs hs : List Glyph) : widthOf (gs ++ hs) = widthOf gs + widthOf hs := by
  rw [widthOf_eq, widthOf_eq, widthOf_eq, Text.ofGlyphs, List.flatMap_append, List.length_append]
  rfl

theorem widthOf_glyphs (t : Text) : widthOf t.glyphs = t.length := by
  rw [widthOf_eq, Text.ofGlyphs_glyphs]

end Cursor

namespace Glyph

private theorem not_lead {b : UInt8} (h : b.toNat < 0xC0) (b1 b2 b3 : UInt8) :
    pair? b b1 = none ∧ triple? b b1 b2 = none ∧ quad? b b1 b2 b3 = none := by
  refine ⟨if_neg ?_, if_neg ?_, if_neg ?_⟩ <;>
    simp only [Bool.and_eq_true, decide_eq_true_eq, UInt8.le_iff_toNat_le, UInt8.reduceToNat] <;>
    omega

/-- A continuation byte stands alone until the start of its character is put in front of it. -/
theorem attach_continuation {b : UInt8} {gs : List Glyph} (h : isContinuation b = true) :
    attach b gs = .stray b :: gs := by
  obtain ⟨hlow, hhigh⟩ := isContinuation_iff.1 h
  have hlead := not_lead hhigh
  fun_cases attach b gs
  case case1 h => exact absurd (UInt8.lt_iff_toNat_lt.1 h) (Nat.not_lt.2 hlow)
  case case2 b1 gs1 c h => cases (hlead b1 0 0).1.symm.trans h
  case case3 b1 h b2 gs2 c h' => cases (hlead b1 b2 0).2.1.symm.trans h'
  case case4 b1 h b2 h' b3 gs3 c h'' => cases (hlead b1 b2 b3).2.2.symm.trans h''
  all_goals rfl

theorem toNat_toUInt8 {n : Nat} (h : n < 0x100) : n.toUInt8.toNat = n :=
  UInt8.toNat_ofNat_of_lt' h

theorem not_lt_of_toNat {b : UInt8} (h : 0x80 ≤ b.toNat) : ¬b < 0x80 :=
  fun hb => Nat.not_lt.2 h (UInt8.lt_iff_toNat_lt.1 hb)

private theorem attach_two {b0 b1 : UInt8} {gs : List Glyph} (hlow : 0xC2 ≤ b0.toNat)
    (hhigh : b0.toNat < 0xE0) (h1 : isContinuation b1 = true) :
    attach b0 (.stray b1 :: gs) = .char (Char.ofNat (b0.toNat % 0x20 * 0x40 + payload b1)) :: gs := by
  have hpair : pair? b0 b1 = some (Char.ofNat (b0.toNat % 0x20 * 0x40 + payload b1)) := by
    rw [pair?, if_pos]
    simp only [Bool.and_eq_true, decide_eq_true_eq, UInt8.le_iff_toNat_le, UInt8.lt_iff_toNat_lt]
    exact ⟨⟨hlow, hhigh⟩, h1⟩
  unfold attach
  rw [if_neg (not_lt_of_toNat (by omega))]
  simp only [hpair]

private theorem attach_three {b0 b1 b2 : UInt8} {gs : List Glyph} {n : Nat} (hlow : 0xE0 ≤ b0.toNat)
    (hhigh : b0.toNat < 0xF0) (h1 : isContinuation b1 = true) (h2 : isContinuation b2 = true)
    (hn : b0.toNat % 0x10 * 0x1000 + payload b1 * 0x40 + payload b2 = n) (hshort : 0x800 ≤ n)
    (hvalid : n.isValidChar) :
    attach b0 (.stray b1 :: .stray b2 :: gs) = .char (Char.ofNat n) :: gs := by
  have hpair : pair? b0 b1 = none := by
    refine if_neg ?_
    simp only [Bool.and_eq_true, decide_eq_true_eq, UInt8.lt_iff_toNat_lt, UInt8.reduceToNat]
    omega
  have htriple : triple? b0 b1 b2 = some (Char.ofNat n) := by
    dsimp only [triple?]
    rw [hn, if_pos]
    simp only [Bool.and_eq_true, Bool.not_eq_true', Bool.and_eq_false_iff, decide_eq_true_eq,
      decide_eq_false_iff_not, UInt8.le_iff_toNat_le, UInt8.lt_iff_toNat_lt]
    refine ⟨⟨⟨⟨⟨hlow, hhigh⟩, h1⟩, h2⟩, hshort⟩, ?_⟩
    simp only [Nat.isValidChar] at hvalid
    omega
  unfold attach
  rw [if_neg (not_lt_of_toNat (by omega))]
  simp only [hpair, htriple]

private theorem attach_four {b0 b1 b2 b3 : UInt8} {gs : List Glyph} {n : Nat} (hlow : 0xF0 ≤ b0.toNat)
    (hhigh : b0.toNat < 0xF8) (h1 : isContinuation b1 = true) (h2 : isContinuation b2 = true)
    (h3 : isContinuation b3 = true)
    (hn : b0.toNat % 0x08 * 0x40000 + payload b1 * 0x1000 + payload b2 * 0x40 + payload b3 = n)
    (hshort : 0x10000 ≤ n) (hvalid : n.isValidChar) :
    attach b0 (.stray b1 :: .stray b2 :: .stray b3 :: gs) = .char (Char.ofNat n) :: gs := by
  have hpair : pair? b0 b1 = none := by
    refine if_neg ?_
    simp only [Bool.and_eq_true, decide_eq_true_eq, UInt8.lt_iff_toNat_lt, UInt8.reduceToNat]
    omega
  have htriple : triple? b0 b1 b2 = none := by
    refine if_neg ?_
    simp only [Bool.and_eq_true, decide_eq_true_eq, UInt8.lt_iff_toNat_lt, UInt8.reduceToNat]
    omega
  have hquad : quad? b0 b1 b2 b3 = some (Char.ofNat n) := by
    dsimp only [quad?]
    rw [hn, if_pos]
    simp only [Bool.and_eq_true, decide_eq_true_eq, UInt8.le_iff_toNat_le, UInt8.lt_iff_toNat_lt]
    refine ⟨⟨⟨⟨⟨⟨hlow, hhigh⟩, h1⟩, h2⟩, h3⟩, hshort⟩, ?_⟩
    simp only [Nat.isValidChar] at hvalid
    omega
  unfold attach
  rw [if_neg (not_lt_of_toNat (by omega))]
  simp only [hpair, htriple, hquad]

/-- The bytes of a character are read as that character. -/
private theorem attach_encodeChar (c : Char) (gs : List Glyph) :
    (Text.encodeChar c).foldr attach gs = .char c :: gs := by
  have hvalid : c.toNat.isValidChar := c.valid
  have hc : Char.ofNat c.toNat = c := Char.ofNat_toNat c
  have hmax : c.toNat < 0x110000 := by
    simp only [Nat.isValidChar] at hvalid
    omega
  have tail (k : Nat) : isContinuation (0x80 + k % 0x40).toUInt8 = true := by
    rw [isContinuation_iff, toNat_toUInt8 (by omega)]
    omega
  have low (k : Nat) : payload (0x80 + k % 0x40).toUInt8 = k % 0x40 := by
    rw [payload, toNat_toUInt8 (by omega)]
    omega
  rw [Text.encodeChar]
  generalize hn : c.toNat = n at hvalid hc hmax
  split
  · rename_i h
    have h0 : n.toUInt8.toNat = n := toNat_toUInt8 (by omega)
    rw [List.foldr_cons, List.foldr_nil]
    unfold attach
    rw [if_pos (UInt8.lt_iff_toNat_lt.2 (by rw [h0]; exact h)), h0, hc]
  · split
    · have h0 : (0xC0 + n / 0x40).toUInt8.toNat = 0xC0 + n / 0x40 := toNat_toUInt8 (by omega)
      rw [List.foldr_cons, List.foldr_cons, List.foldr_nil, attach_continuation (tail _),
        attach_two (by omega) (by omega) (tail _), h0, low]
      congr 2
      rw [← hc]
      congr 1
      omega
    · split
      · have h0 : (0xE0 + n / 0x1000).toUInt8.toNat = 0xE0 + n / 0x1000 :=
          toNat_toUInt8 (by omega)
        rw [List.foldr_cons, List.foldr_cons, List.foldr_cons, List.foldr_nil,
          attach_continuation (tail _), attach_continuation (tail _),
          attach_three (n := n) (by omega) (by omega) (tail _) (tail _) (by rw [h0, low, low]; omega)
            (by omega) hvalid, hc]
      · have h0 : (0xF0 + n / 0x40000).toUInt8.toNat = 0xF0 + n / 0x40000 :=
          toNat_toUInt8 (by omega)
        rw [List.foldr_cons, List.foldr_cons, List.foldr_cons, List.foldr_cons, List.foldr_nil,
          attach_continuation (tail _), attach_continuation (tail _), attach_continuation (tail _),
          attach_four (n := n) (by omega) (by omega) (tail _) (tail _) (tail _)
            (by rw [h0, low, low, low]; omega) (by omega) hvalid, hc]

/-- A byte is read by what stands behind it up to the next character. -/
private theorem attach_append (b : UInt8) (gs : List Glyph) (c : Char) (hs : List Glyph) :
    attach b (gs ++ .char c :: hs) = attach b gs ++ .char c :: hs := by
  unfold attach
  split
  · rfl
  · rcases gs with - | ⟨⟨d⟩ | b1, - | ⟨⟨d⟩ | b2, - | ⟨⟨d⟩ | b3, gs⟩⟩⟩ <;>
      dsimp only [List.nil_append, List.cons_append] <;> repeat' split
    all_goals rfl

end Glyph

namespace Text

theorem length_encodeChar_le (c : Char) : (encodeChar c).length ≤ 4 := by
  dsimp only [encodeChar]
  split
  · exact Nat.le_of_ble_eq_true rfl
  · split
    · exact Nat.le_of_ble_eq_true rfl
    · split <;> exact Nat.le_of_ble_eq_true rfl

theorem glyphs_encodeChar_append (c : Char) (t : Text) :
    glyphs (encodeChar c ++ t) = .char c :: t.glyphs := by
  rw [glyphs, List.foldr_append]
  exact Glyph.attach_encodeChar c _

/-- What stands in front of a character is read without it. -/
theorem glyphs_append_encodeChar (t : Text) (c : Char) (u : Text) :
    (t ++ (encodeChar c ++ u)).glyphs = t.glyphs ++ .char c :: u.glyphs := by
  induction t with
  | nil => exact glyphs_encodeChar_append c u
  | cons b t ih =>
    change Glyph.attach b (glyphs (t ++ (encodeChar c ++ u))) = Glyph.attach b (glyphs t) ++ _
    rw [ih, Glyph.attach_append]

/-- The text of some characters is read as these characters. -/
theorem glyphs_ofChars (cs : List Char) : (ofChars cs).glyphs = cs.map .char := by
  induction cs with
  | nil => rfl
  | cons c cs ih =>
    rw [ofChars, List.flatMap_cons, glyphs_encodeChar_append, List.map_cons, ← ih]
    rfl

theorem isUtf8_ofChars (cs : List Char) : (ofChars cs).isUtf8 = true := by
  rw [isUtf8, glyphs_ofChars, List.all_map]
  exact List.all_eq_true.2 fun _ _ => rfl

/-- The characters that a text is read as. -/
def chars (t : Text) : List Char :=
  t.glyphs.map Glyph.toChar

theorem chars_ofChars (cs : List Char) : (ofChars cs).chars = cs := by
  rw [chars, glyphs_ofChars, List.map_map]
  exact List.map_id _

theorem ofChars_append (cs ds : List Char) : ofChars (cs ++ ds) = ofChars cs ++ ofChars ds :=
  List.flatMap_append

theorem glyphs_ofChars_append (cs : List Char) (t : Text) :
    (ofChars cs ++ t).glyphs = cs.map .char ++ t.glyphs := by
  induction cs with
  | nil => rfl
  | cons c cs ih =>
    rw [ofChars, List.flatMap_cons, List.append_assoc, glyphs_encodeChar_append, List.map_cons,
      List.cons_append, ← ih]
    rfl

/-- A text that is read alike whatever stands behind it. -/
def IsClosed (t : Text) : Prop :=
  ∀ u : Text, (t ++ u).glyphs = t.glyphs ++ u.glyphs

theorem closed_ofChars (cs : List Char) : (ofChars cs).IsClosed := by
  intro u
  rw [glyphs_ofChars_append, glyphs_ofChars]

theorem IsClosed.append {t u : Text} (ht : t.IsClosed) (hu : u.IsClosed) :
    IsClosed (t ++ u) := by
  intro v
  rw [List.append_assoc, ht, hu, ht, List.append_assoc]

theorem closed_ofString (s : String) : (ofString s).IsClosed :=
  closed_ofChars s.toList

/-- What stands in front of characters is read without them. -/
theorem glyphs_append_ofChars (t : Text) (c : Char) (cs : List Char) (u : Text) :
    (t ++ (ofChars (c :: cs) ++ u)).glyphs = t.glyphs ++ (ofChars (c :: cs) ++ u).glyphs := by
  rw [ofChars, List.flatMap_cons, List.append_assoc, glyphs_append_encodeChar,
    glyphs_encodeChar_append]

theorem closed_append_ofChars (t : Text) (c : Char) (cs : List Char) :
    IsClosed (t ++ ofChars (c :: cs)) := by
  intro u
  have hnil := glyphs_append_ofChars t c cs []
  rw [List.append_nil] at hnil
  rw [List.append_assoc, glyphs_append_ofChars, hnil, closed_ofChars, List.append_assoc]

/-- A well-formed text is the text of its characters. -/
theorem ofChars_chars {t : Text} (h : t.isUtf8 = true) : ofChars t.chars = t := by
  have hglyphs : ∀ gs : List Glyph, (∀ g ∈ gs, ∃ c, g = .char c) →
      ofChars (gs.map Glyph.toChar) = ofGlyphs gs := by
    intro gs hgs
    induction gs with
    | nil => rfl
    | cons g gs ih =>
      obtain ⟨⟨c, rfl⟩, htail⟩ := List.forall_mem_cons.1 hgs
      rw [List.map_cons, ofChars, List.flatMap_cons, ofGlyphs, List.flatMap_cons]
      exact congrArg _ (ih htail)
  rw [chars, hglyphs, ofGlyphs_glyphs]
  intro g hg
  have hchar := List.all_eq_true.1 h g hg
  cases g with
  | char c => exact ⟨c, rfl⟩
  | stray b => cases hchar

theorem glyphs_of_isUtf8 {t : Text} (h : t.isUtf8 = true) : t.glyphs = t.chars.map .char :=
  (congrArg glyphs (ofChars_chars h)).symm.trans (glyphs_ofChars t.chars)

/-- What stands behind a well-formed part of a well-formed text is well-formed. -/
theorem isUtf8_of_append {t u : Text} (ht : t.isUtf8 = true) (h : (t ++ u).isUtf8 = true) :
    u.isUtf8 = true := by
  rw [← ofChars_chars ht, isUtf8, glyphs_ofChars_append, List.all_append] at h
  exact (Bool.and_eq_true_iff.1 h).2

/-- Well-formed texts one behind the other are well-formed. -/
theorem isUtf8_append {t u : Text} (ht : t.isUtf8 = true) (hu : u.isUtf8 = true) :
    (t ++ u).isUtf8 = true := by
  rw [← ofChars_chars ht, ← ofChars_chars hu, ← ofChars_append]
  exact isUtf8_ofChars _

theorem isUtf8_flatten {pieces : List Text} (h : ∀ t ∈ pieces, t.isUtf8 = true) :
    Text.isUtf8 pieces.flatten = true := by
  induction pieces with
  | nil => rfl
  | cons t pieces ih =>
    obtain ⟨ht, hpieces⟩ := List.forall_mem_cons.1 h
    exact isUtf8_append ht (ih hpieces)

end Text
end LolToolchain
