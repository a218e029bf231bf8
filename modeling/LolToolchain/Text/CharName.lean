import LolToolchain.Text.Blank

/-!
Characters by their Unicode name. The names themselves come from outside, as a `CharNames`: what
reads a source text works with any. A name is matched without regard to case and without white space
at its ends.
-/
namespace LolToolchain

/-- The Unicode names, each with its character, in the order of the code points. A character has one
name at most, and every name is plain ASCII. -/
class CharNames where
  rows : List (Char × String)
  ascending : rows.Pairwise fun row later => row.1 < later.1
  ascii : ∀ row ∈ rows, ∀ c ∈ row.2.toList, c.toNat < 0x80

namespace CharNames

/-- Whether a name is one that a text can give; those in angle brackets are shared by many
characters. -/
def isProper (name : String) : Bool :=
  match name.toList with
  | [] | '<' :: _ => false
  | _ => true

private theorem find?_rows_eq_some_iff [CharNames] {p : Char × String → Bool} {row : Char × String} :
    rows.find? p = some row ↔
      row ∈ rows ∧ p row ∧ ∀ earlier ∈ rows, earlier.1 < row.1 → p earlier = false := by
  constructor
  · intro h
    obtain ⟨hp, before, behind, hrows, hbefore⟩ := List.find?_eq_some_iff_append.mp h
    refine ⟨List.mem_of_find?_eq_some h, hp, fun earlier hmem hlt => ?_⟩
    have hasc := List.pairwise_append.mp (hrows ▸ ascending)
    rw [hrows] at hmem
    obtain hmem | rfl | hmem : earlier ∈ before ∨ earlier = row ∨ earlier ∈ behind := by
      simpa using hmem
    · simpa using hbefore earlier hmem
    · exact absurd hlt (Char.lt_irrefl _)
    · exact absurd hlt (Char.lt_asymm (List.rel_of_pairwise_cons hasc.2.1 hmem))
  · rintro ⟨hmem, hp, hfirst⟩
    obtain ⟨before, behind, hrows⟩ := List.append_of_mem hmem
    have hasc := List.pairwise_append.mp (hrows ▸ ascending)
    refine List.find?_eq_some_iff_append.mpr ⟨hp, before, behind, hrows, fun earlier hearlier => ?_⟩
    have hlt : earlier.1 < row.1 := hasc.2.2 earlier hearlier row List.mem_cons_self
    simp [hfirst earlier (hrows ▸ List.mem_append_left _ hearlier) hlt]

end CharNames

namespace Text

/-- Upper case for the characters whose upper case is an ASCII letter: the ASCII letters, the
dotless i and the long s. -/
def upperToAscii (c : Char) : Char :=
  if c.toNat = 0x131 then 'I'
  else if c.toNat = 0x17F then 'S'
  else c.toUpper

def charName (t : Text) : List Char :=
  t.trimmed.glyphs.map fun g => upperToAscii g.toChar

/-- The first character with the name that a text gives. -/
def charNamed? [CharNames] (t : Text) : Option Char :=
  (CharNames.rows.find? fun row => CharNames.isProper row.2 && row.2.toList == t.charName).map
    Prod.fst

private theorem charNamed?_eq_some_iff [CharNames] {t : Text} {c : Char} :
    t.charNamed? = some c ↔
      ∃ name, (c, name) ∈ CharNames.rows ∧ CharNames.isProper name ∧ name.toList = t.charName ∧
        ∀ d < c, (d, name) ∉ CharNames.rows := by
  have hrow (row : Char × String) :
      (CharNames.isProper row.2 && row.2.toList == t.charName) = true ↔
        CharNames.isProper row.2 ∧ row.2.toList = t.charName := by
    simp
  simp only [charNamed?, Option.map_eq_some_iff, CharNames.find?_rows_eq_some_iff, hrow]
  constructor
  · rintro ⟨⟨d, name⟩, ⟨hmem, ⟨hproper, hname⟩, hfirst⟩, rfl⟩
    refine ⟨name, hmem, hproper, hname, fun e he hearlier => ?_⟩
    have := hfirst _ hearlier he
    simp [hproper, hname] at this
  · rintro ⟨name, hmem, hproper, hname, hfirst⟩
    refine ⟨(c, name), ⟨hmem, ⟨hproper, hname⟩, fun earlier hearlier hlt => ?_⟩, rfl⟩
    refine Bool.eq_false_iff.mpr fun hmatch => hfirst _ hlt ?_
    have hsame : earlier.2 = name := String.toList_inj.mp (((hrow _).mp hmatch).2.trans hname.symm)
    exact hsame ▸ hearlier

/-- Upper case for characters beyond `upperToAscii` plays no part: it is not ASCII, and a name is. -/
theorem charNamed?_eq_none [CharNames] {t : Text} {c : Char} (hc : c ∈ t.charName)
    (hbeyond : 0x80 ≤ c.toNat) : t.charNamed? = none := by
  refine Option.eq_none_iff_forall_ne_some.mpr fun d hd => ?_
  obtain ⟨name, hmem, -, hname, -⟩ := charNamed?_eq_some_iff.mp hd
  have := CharNames.ascii _ hmem c (hname ▸ hc)
  omega

end Text
end LolToolchain
