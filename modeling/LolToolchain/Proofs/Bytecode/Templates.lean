import LolToolchain.Proofs.Evaluation.Validity

/-!
Which templates can be filled. A template whose places are in order is a text that is cut at its
places, and filling puts each part behind its piece. A template with a place out of order cannot be
filled with anything, so a chunk that holds one has to be refused.
-/
namespace LolToolchain

namespace Text

/-- The offsets behind each of some pieces that stand one behind another from `start` on. -/
def endsFrom (start : Nat) : List Text → List Int
  | [] => []
  | piece :: pieces => (start + piece.length : Nat) :: endsFrom (start + piece.length) pieces

/-- Deletes parts one after another, each from the offset where it stands when those in front of it
are gone. -/
def deleteAll : List Int → List Text → Text → Text
  | off :: offs, part :: parts, t =>
    deleteAll offs parts (t.take off.toNat ++ t.drop (off.toNat + part.length))
  | _, _, t => t

variable {pieces parts : List Text}

theorem length_endsFrom (start : Nat) (pieces : List Text) :
    (endsFrom start pieces).length = pieces.length := by
  induction pieces generalizing start with
  | nil => rfl
  | cons piece pieces ih => rw [endsFrom, List.length_cons, List.length_cons, ih]

/-- Deleting what stands behind each piece leaves the pieces. -/
theorem deleteAll_endsFrom (before last : Text) (h : parts.length = pieces.length) :
    deleteAll (endsFrom before.length pieces) parts
      (before ++ ((List.zipWith (· ++ ·) pieces parts).flatten ++ last)) =
        before ++ (pieces.flatten ++ last) := by
  induction pieces generalizing before parts with
  | nil =>
    obtain rfl := List.length_eq_zero_iff.1 h
    rfl
  | cons piece pieces ih =>
    obtain ⟨part, parts, rfl⟩ := List.exists_cons_of_length_eq_add_one h
    have hrest := ih (before ++ piece) (Nat.succ.inj h)
    rw [List.length_append] at hrest
    rw [List.zipWith_cons_cons, List.flatten_cons, List.flatten_cons,
      List.append_assoc (piece ++ part)]
    generalize (List.zipWith (· ++ ·) pieces parts).flatten ++ last = rest at hrest ⊢
    have htext : before ++ (piece ++ part ++ rest) = (before ++ piece) ++ (part ++ rest) := by
      simp only [List.append_assoc]
    have hoff : before.length + piece.length = (before ++ piece).length := List.length_append.symm
    rw [endsFrom, deleteAll, Int.toNat_natCast, htext, hoff, List.take_left, ← List.drop_drop,
      List.drop_left, List.drop_left, ← hoff, hrest, List.append_assoc, List.append_assoc]

end Text

namespace Template

variable {pieces parts : List Text} {text last : Text} {offs : List Int} {start : Int}

/-- A template cut at its places: a piece in front of each of them, and what stands behind the last
one. -/
structure Cut (t : Template) (pieces : List Text) (last : Text) : Prop where
  text : t.text = pieces.flatten ++ last
  offsets : t.offsets = Text.endsFrom 0 pieces

/-- Filling puts each part behind its piece. -/
private theorem fillFrom_endsFrom (before last : Text) (h : parts.length = pieces.length) :
    fillFrom (before ++ (pieces.flatten ++ last)) before.length (Text.endsFrom before.length pieces)
      parts = some ((List.zipWith (· ++ ·) pieces parts).flatten ++ last) := by
  induction pieces generalizing before parts with
  | nil =>
    have hle : before.length ≤ (before ++ last).length := by
      rw [List.length_append]
      exact Nat.le_add_right _ _
    rw [Text.endsFrom, List.flatten_nil, List.nil_append, fillFrom,
      if_pos ⟨Int.natCast_nonneg _, Int.ofNat_le.2 hle⟩, Int.toNat_natCast, List.drop_left]
    rfl
  | cons piece pieces ih =>
    obtain ⟨part, parts, rfl⟩ := List.exists_cons_of_length_eq_add_one h
    have hrest := ih (before ++ piece) (Nat.succ.inj h)
    rw [List.length_append, List.append_assoc] at hrest
    rw [List.flatten_cons, List.append_assoc, List.zipWith_cons_cons, List.flatten_cons]
    have hbounds : before.length + piece.length ≤
        (before ++ (piece ++ (pieces.flatten ++ last))).length := by
      rw [List.length_append, List.length_append]
      omega
    have hpiece : ((before ++ (piece ++ (pieces.flatten ++ last))).take
        (before.length + piece.length)).drop before.length = piece := by
      rw [← List.append_assoc, List.take_left' List.length_append, List.drop_left]
    rw [Text.endsFrom, fillFrom, if_pos ⟨Int.natCast_nonneg _, Int.ofNat_le.2 (Nat.le_add_right _ _),
      Int.ofNat_le.2 hbounds⟩, List.tail_cons, List.headD_cons, Int.toNat_natCast,
      Int.toNat_natCast, hpiece, hrest, Option.map_some, List.append_assoc (piece ++ part)]

/-- Places in order cut the text that is left behind a place. -/
private theorem exists_endsFrom (before rest : Text)
    (h : misplacedFrom (before ++ rest).length before.length offs = none) :
    ∃ pieces last, rest = pieces.flatten ++ last ∧ offs = Text.endsFrom before.length pieces := by
  induction offs generalizing before rest with
  | nil => exact ⟨[], rest, rfl, rfl⟩
  | cons off offs ih =>
    rw [misplacedFrom] at h
    split at h
    · cases h
    next hplace =>
      have hsize : (before ++ rest).length = before.length + rest.length := List.length_append
      obtain ⟨piece, rest, rfl, hoff⟩ : ∃ piece behind, rest = piece ++ behind ∧
          off = (before.length + piece.length : Nat) := by
        refine ⟨rest.take (off.toNat - before.length), rest.drop (off.toNat - before.length),
          (List.take_append_drop _ _).symm, ?_⟩
        rw [List.length_take]
        omega
      rw [← List.append_assoc, hoff, ← List.length_append] at h
      obtain ⟨pieces, last, rfl, rfl⟩ := ih (before ++ piece) rest h
      refine ⟨piece :: pieces, last, ?_, ?_⟩
      · rw [List.flatten_cons, List.append_assoc]
      · rw [Text.endsFrom, hoff, List.length_append]

private theorem exists_cut {t : Template} (h : t.misplaced? = none) : ∃ pieces last, t.Cut pieces last := by
  obtain ⟨pieces, last, htext, hoffsets⟩ := exists_endsFrom [] t.text h
  exact ⟨pieces, last, htext, hoffsets⟩

private theorem Cut.fill {t : Template} (h : t.Cut pieces last) (hparts : parts.length = t.offsets.length) :
    t.fill parts = some ((List.zipWith (· ++ ·) pieces parts).flatten ++ last) := by
  rw [h.offsets, Text.length_endsFrom] at hparts
  rw [Template.fill, h.text, h.offsets]
  exact fillFrom_endsFrom [] last hparts

/-- A text is only filled at places in order. -/
private theorem misplacedFrom_of_isSome (h : (fillFrom text start offs parts).isSome = true) :
    misplacedFrom text.length start offs = none := by
  induction offs generalizing start parts with
  | nil => rfl
  | cons off offs ih =>
    rw [fillFrom] at h
    split at h
    next hplace =>
      rw [Option.isSome_map] at h
      rw [misplacedFrom, if_neg (by omega)]
      exact ih h
    next => cases h

end Template

namespace Chunk

/-- A chunk whose only constant is a template has nothing wrong with its shape exactly if the
template can be filled with whatever parts. Then a part for each place is put behind the piece of the
text in front of that place, and without the parts that is the text. -/
theorem fault?_eq_none_iff_fills {c : Chunk} {t : Template}
    (hpositions : c.positions.size = c.code.size)
    (hconstants : c.pool.constants.toList.map Constant.value = [.interp (some t)]) :
    (c.fault? = none ↔ ∀ parts, (t.fill parts).isSome = true) ∧
    (c.fault? = none → ∀ parts, parts.length = t.offsets.length →
      ∃ pieces last filled, t.Cut pieces last ∧ t.fill parts = some filled ∧
        filled = (List.zipWith (· ++ ·) pieces parts).flatten ++ last ∧
        Text.deleteAll t.offsets parts filled = t.text) := by
  obtain ⟨k, hk, hvalue⟩ := List.map_eq_singleton_iff.1 hconstants
  have hfault : c.fault? = none ↔ t.misplaced? = none := by
    have hone : constantFault? 0 k.value = t.misplaced?.map (.misplacedSplice 0) := by
      rw [hvalue]
      rfl
    rw [fault?, if_neg (not_not_intro hpositions), hk, constantsFault?, hone]
    cases t.misplaced? with
    | none => exact iff_of_true rfl rfl
    | some place => exact iff_of_false nofun nofun
  rw [hfault]
  refine ⟨⟨Template.isSome_fill, fun h => Template.misplacedFrom_of_isSome (h [])⟩, ?_⟩
  intro hplaces parts hparts
  obtain ⟨pieces, last, hcut⟩ := Template.exists_cut hplaces
  refine ⟨pieces, last, _, hcut, hcut.fill hparts, rfl, ?_⟩
  have hcount := hparts
  rw [hcut.offsets, Text.length_endsFrom] at hcount
  rw [hcut.offsets, hcut.text]
  exact Text.deleteAll_endsFrom [] last hcount

/-- A chunk with a template of two letters, filled in front of the second one twice and behind it. -/
def twoLetters : Chunk :=
  .ofParts [] [] [.interp (some ⟨"ab", [1, 1, 2], 0⟩)]

theorem fault?_eq_none_iff_fills_twoLetters :
    twoLetters.positions.size = twoLetters.code.size ∧
    twoLetters.pool.constants.toList.map Constant.value = [.interp (some ⟨"ab", [1, 1, 2], 0⟩)] ∧
    (∀ parts, (Template.fill ⟨"ab", [1, 1, 2], 0⟩ parts).isSome = true) ∧
    Text.deleteAll [1, 1, 2] ["x", "yy", "z"] "axyybz" = "ab" := by
  have hconstants : twoLetters.pool.constants.toList.map Constant.value =
    [.interp (some ⟨"ab", [1, 1, 2], 0⟩)] := by decide
  obtain ⟨hiff, hfills⟩ := fault?_eq_none_iff_fills (c := twoLetters) rfl hconstants
  have hfault : twoLetters.fault? = none := by decide
  obtain ⟨-, -, filled, -, hfill, -, hdelete⟩ := hfills hfault ["x", "yy", "z"] rfl
  obtain rfl : filled = "axyybz" := Option.some.inj (hfill.symm.trans (by decide))
  exact ⟨rfl, hconstants, hiff.1 hfault, hdelete⟩

end Chunk
end LolToolchain
