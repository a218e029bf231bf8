import LolToolchain.Diagnostic.Report
import LolToolchain.Proofs.Text.Utf8
import Mathlib.Data.List.DropRight

/-!
Places in a source by counting line ends. The table of line starts that is searched by halving, and
the slices that are taken around its entries, give what the plain definitions give, and no access is
out of bounds.
-/
namespace LolToolchain

section

variable {α : Type} {test : Nat → Option Bool} {bound : Nat}

theorem element?_natCast (xs : List α) (i : Nat) : element? xs i = xs[i]? := by
  rw [element?, if_neg (by omega), Int.toNat_natCast]

theorem slice?_append (xs ys zs : List α) :
    slice? (xs ++ (ys ++ zs)) xs.length ((xs.length + ys.length : Nat) : Int) = some ys := by
  have hbounds : (0 : Int) ≤ xs.length ∧ (xs.length : Int) ≤ (xs.length + ys.length : Nat) ∧
      ((xs.length + ys.length : Nat) : Int) ≤ (xs ++ (ys ++ zs)).length := by
    simp only [List.length_append]
    omega
  rw [slice?, if_pos hbounds, Int.toNat_natCast, Int.toNat_natCast, ← List.append_assoc,
    ← List.length_append, List.take_left, List.drop_left]

/-- Halving finds the bound at which a test turns from false to true. -/
theorem search?_eq {low high : Nat} (hlow : low ≤ bound) (hhigh : bound ≤ high)
    (htest : ∀ i, low ≤ i → i < high → test i = some (decide (bound ≤ i))) :
    search? test low high = some bound := by
  fun_induction search? test low high with
  | case1 low high hlt middle ihbelow ihabove =>
    have hmiddle := htest middle (by omega) (by omega)
    rw [hmiddle, Option.bind_some]
    by_cases hbound : bound ≤ middle
    · rw [decide_eq_true hbound, if_pos rfl]
      exact ihbelow hlow hbound fun i hi hi' => htest i hi (by omega)
    · rw [decide_eq_false hbound, if_neg Bool.false_ne_true]
      exact ihabove (by omega) hhigh fun i hi hi' => htest i (by omega) hi'
  | case2 low high hle => rw [Nat.le_antisymm hlow (Nat.le_trans hhigh (Nat.le_of_not_lt hle))]

end

namespace Text

/-- What stands behind the last line end. -/
def lastLine (t : Text) : Text :=
  t.rtakeWhile (· != 0x0A)

/-- The line without the CR of a line end that is CR LF. -/
def dropFinalReturn (line : Text) : Text :=
  if line.getLast? = some 0x0D then line.dropLast else line

/-- A text behind which a line starts. -/
def EndsLine (t : Text) : Prop :=
  t = [] ∨ ∃ u : Text, t = u ++ [0x0A]

variable {t u v w : Text} {i o : Nat}

theorem lastLine_append (hu : u.EndsLine) (hw : 0x0A ∉ w) : lastLine (u ++ w) = w := by
  have hnone : ∀ b ∈ w.reverse, (b != 0x0A) = true := fun b hb =>
    bne_iff_ne.2 fun heq => hw (heq ▸ List.mem_reverse.1 hb)
  rw [lastLine, List.rtakeWhile, List.reverse_append, List.takeWhile_append_of_pos hnone]
  obtain rfl | ⟨v, rfl⟩ := hu <;> simp

theorem not_mem_lastLine (t : Text) : 0x0A ∉ t.lastLine :=
  fun h => bne_iff_ne.1 (List.mem_rtakeWhile_imp (p := (· != 0x0A)) h) rfl

/-- A line starts behind each number of line ends that the text has. -/
theorem exists_endsLine (h : i ≤ t.count 0x0A) :
    ∃ u v, t = u ++ v ∧ u.EndsLine ∧ u.count 0x0A = i := by
  induction t using List.reverseRecOn generalizing i with
  | nil => exact ⟨[], [], rfl, .inl rfl, (Nat.le_zero.1 h).symm⟩
  | append_singleton t b ih =>
    rw [List.count_append] at h
    by_cases hi : i ≤ t.count 0x0A
    · obtain ⟨u, v, rfl, hu, hcount⟩ := ih hi
      exact ⟨u, v ++ [b], List.append_assoc _ _ _, hu, hcount⟩
    · obtain rfl : b = 0x0A := by
        by_contra hb
        rw [List.count_singleton, if_neg (by simpa using hb)] at h
        omega
      refine ⟨t ++ [0x0A], [], (List.append_nil _).symm, .inr ⟨t, rfl⟩, ?_⟩
      rw [List.count_append]
      rw [List.count_singleton_self] at h ⊢
      omega

/-- A text is what stands up to its last line end, and the last line. -/
theorem exists_lastLine (t : Text) :
    ∃ u, t = u ++ t.lastLine ∧ u.EndsLine ∧ u.count 0x0A = t.count 0x0A := by
  obtain ⟨u, w, rfl, hu, hcount⟩ := exists_endsLine (Nat.le_refl (t.count 0x0A))
  have hw : 0x0A ∉ w := by
    rw [List.count_append] at hcount
    exact List.count_eq_zero.1 (by omega)
  exact ⟨u, by rw [lastLine_append hu hw], hu, hcount⟩

/-- What has no line end goes on with the last line. -/
theorem lastLine_append_line (t : Text) (hw : 0x0A ∉ w) : lastLine (t ++ w) = lastLine t ++ w := by
  obtain ⟨u, htext, hu, -⟩ := exists_lastLine t
  conv_lhs => rw [htext, List.append_assoc]
  exact lastLine_append hu fun h => (List.mem_append.1 h).elim (not_mem_lastLine t) hw

theorem charCount_append_ofChars (t : Text) (cs : List Char) :
    charCount (t ++ ofChars cs) = charCount t + cs.length := by
  cases cs with
  | nil => rw [ofChars, List.flatMap_nil, List.append_nil, List.length_nil, Nat.add_zero]
  | cons c cs =>
    have hglyphs := glyphs_append_ofChars t c cs []
    rw [List.append_nil, glyphs_ofChars] at hglyphs
    rw [charCount, hglyphs, List.length_append, List.length_map, charCount]

/-- A line starts behind an offset exactly if more line ends stand in front of it. -/
theorem lt_length_iff (hu : u.EndsLine) :
    o < u.length ↔ ((u ++ v).take o).count 0x0A < u.count 0x0A := by
  constructor
  · intro ho
    obtain rfl | ⟨u, rfl⟩ := hu
    · exact absurd ho (Nat.not_lt_zero o)
    · have hle : o ≤ u.length := by
        rw [List.length_append] at ho
        exact Nat.le_of_lt_succ ho
      rw [List.append_assoc, List.take_append_of_le_length hle, List.count_append,
        List.count_singleton_self]
      exact Nat.lt_succ_of_le ((List.take_sublist o u).count_le _)
  · intro hcount
    by_contra ho
    rw [List.take_append, List.take_of_length_le (Nat.le_of_not_lt ho), List.count_append] at hcount
    omega

theorem exists_lineEnd (t : Text) :
    ∃ w after : Text, t = w ++ after ∧ 0x0A ∉ w ∧ (after = [] ∨ ∃ rest, after = 0x0A :: rest) := by
  induction t with
  | nil => exact ⟨[], [], rfl, List.not_mem_nil, .inl rfl⟩
  | cons b t ih =>
    obtain ⟨w, after, rfl, hw, hafter⟩ := ih
    by_cases hb : b = 0x0A
    · exact ⟨[], b :: (w ++ after), rfl, List.not_mem_nil, .inr ⟨w ++ after, by rw [hb]⟩⟩
    · refine ⟨b :: w, after, rfl, ?_, hafter⟩
      rw [List.mem_cons, not_or]
      exact ⟨Ne.symm hb, hw⟩

theorem length_pieces (t : Text) : (List.splitOn 0x0A t).length = t.count 0x0A + 1 := by
  rw [List.splitOn_eq_splitOnP]
  induction t with
  | nil => rfl
  | cons b t ih =>
    rw [List.splitOnP_cons_eq_if_modifyHead, List.count_cons]
    split <;> simp [ih]

theorem pieces_append_line (hw : 0x0A ∉ w) (h : v = [] ∨ ∃ rest, v = 0x0A :: rest) :
    ∃ ps, List.splitOn 0x0A (w ++ v) = w :: ps := by
  obtain rfl | ⟨rest, rfl⟩ := h
  · exact ⟨[], by rw [List.append_nil, List.splitOn_eq_singleton hw]⟩
  · exact ⟨_, List.splitOn_append_cons_self_of_not_mem hw rest⟩

theorem getElem?_pieces_append (hu : u.EndsLine) :
    (List.splitOn 0x0A (u ++ v))[u.count 0x0A]? = (List.splitOn 0x0A v)[0]? := by
  obtain rfl | ⟨u, rfl⟩ := hu
  · rfl
  · have hlength : (List.splitOnP (· == 0x0A) u).length = u.count 0x0A + 1 := length_pieces u
    rw [List.append_assoc, List.splitOn_eq_splitOnP, List.singleton_append,
      List.splitOnP_append_cons _ _ (by rfl), List.count_append, List.count_singleton_self,
      List.getElem?_append_right (by rw [hlength]), hlength, Nat.sub_self, List.splitOn_eq_splitOnP]

end Text

/-- Earlier in a text: on an earlier line, or in an earlier column of the same line. -/
def Position.Precedes (p q : Position) : Prop :=
  p.line < q.line ∨ p.line = q.line ∧ p.column < q.column

namespace Source

open Text

variable {s : Source} {u v : Text} {i o : Nat}

theorem length_startsFrom (k : Nat) (t : Text) : (startsFrom k t).length = t.count 0x0A := by
  induction t generalizing k with
  | nil => rfl
  | cons b t ih =>
    rw [startsFrom, List.count_cons]
    split <;> simp_all

private theorem startsFrom_append (k : Nat) (t u : Text) :
    startsFrom k (t ++ u) = startsFrom k t ++ startsFrom (k + t.length) u := by
  induction t generalizing k with
  | nil => rfl
  | cons b t ih =>
    rw [List.cons_append, startsFrom, startsFrom, ih, List.length_cons, Nat.add_right_comm, Nat.add_assoc]
    split <;> rfl

theorem lineCount_eq (s : Source) : s.lineCount = 1 + s.text.count 0x0A := by
  rw [lineCount, lineStarts, List.length_cons, length_startsFrom, Nat.add_comm]

/-- The start of a line stands in the table under the number of line ends in front of it. -/
theorem getElem?_lineStarts (h : s.text = u ++ v) (hu : u.EndsLine) :
    s.lineStarts[u.count 0x0A]? = some u.length := by
  rw [lineStarts, h]
  obtain rfl | ⟨u, rfl⟩ := hu
  · rfl
  · rw [List.append_assoc, startsFrom_append, List.count_append, List.count_singleton_self,
      List.getElem?_cons_succ, List.getElem?_append_right (by rw [length_startsFrom]),
      length_startsFrom, Nat.sub_self]
    simp [startsFrom]

/-- The first line that starts behind an offset is found by halving. -/
private theorem search?_lineStarts (s : Source) (o : Nat) :
    search? (fun i => s.lineStarts[i]?.map fun start => decide (o < start)) 0 s.lineStarts.length =
      some ((s.text.take o).count 0x0A + 1) := by
  have hlength : s.lineStarts.length = 1 + s.text.count 0x0A := s.lineCount_eq
  have hbegun : (s.text.take o).count 0x0A ≤ s.text.count 0x0A := (List.take_sublist o _).count_le _
  refine search?_eq (Nat.zero_le _) (by omega) fun i _ hi => ?_
  obtain ⟨u, v, htext, hu, rfl⟩ := exists_endsLine (t := s.text) (i := i) (by omega)
  rw [getElem?_lineStarts htext hu, Option.map_some, Option.some.injEq, decide_eq_decide, htext,
    lt_length_iff hu]
  rfl

/-- The line and the column of an offset by counting. -/
theorem position?_eq (s : Source) (offset : Int) :
    s.position? offset = some ⟨1 + (s.text.take (s.clamp offset)).count 0x0A,
      1 + charCount (lastLine (s.text.take (s.clamp offset)))⟩ := by
  have hclamp : s.clamp offset ≤ s.text.length := Nat.min_le_right _ _
  rw [position?]
  generalize s.clamp offset = o at hclamp
  obtain ⟨u, htake, hu, hcount⟩ := exists_lastLine (s.text.take o)
  generalize lastLine (s.text.take o) = w at htake ⊢
  have htext : s.text = u ++ (w ++ s.text.drop o) := by
    rw [← List.append_assoc, ← htake, List.take_append_drop]
  have hlength : o = u.length + w.length := by
    rw [← List.length_append, ← htake, List.length_take, Nat.min_eq_left hclamp]
  have hstart : element? s.lineStarts (((s.text.take o).count 0x0A + 1 : Nat) - 1) = some u.length := by
    rw [Int.natCast_add_one, Int.add_sub_cancel, element?_natCast, ← hcount,
      getElem?_lineStarts htext hu]
  have hslice : slice? s.text u.length o = some w := by
    rw [hlength, htext]
    exact slice?_append _ _ _
  rw [search?_lineStarts, Option.bind_eq_bind, Option.bind_some, hstart, Option.bind_eq_bind,
    Option.bind_some, hslice, Nat.add_comm 1, Nat.add_comm 1]
  rfl

variable {w after : Text}

private theorem stop?_eq (h : s.text = u ++ (w ++ after)) (hw : 0x0A ∉ w)
    (hafter : after = [] ∨ ∃ rest, after = 0x0A :: rest) :
    s.stop? (u.count 0x0A + 1 : Nat) = some ((u.length + w.length : Nat) : Int) := by
  have hlength : s.lineStarts.length = 1 + s.text.count 0x0A := s.lineCount_eq
  have hnone : w.count 0x0A = 0 := List.count_eq_zero.2 hw
  rw [stop?]
  obtain rfl | ⟨rest, rfl⟩ := hafter
  · rw [List.append_nil] at h
    rw [h, List.count_append] at hlength
    rw [if_neg (by omega), h, List.length_append]
  · have hends : EndsLine (u ++ w ++ [0x0A]) := .inr ⟨_, rfl⟩
    have hnext := getElem?_lineStarts (s := s) (v := rest) (by rw [h]; simp) hends
    rw [List.count_append, List.count_append, hnone, List.count_singleton_self] at hnext
    rw [h, List.count_append, List.count_append, List.count_cons_self] at hlength
    rw [if_pos (by omega), element?_natCast, hnext, Option.map_some, List.length_append,
      List.length_append, List.length_singleton, Int.natCast_add_one, Int.add_sub_cancel]

private theorem slice?_beforeReturn? (u w after : Text) :
    (beforeReturn? (u ++ (w ++ after)) u.length (u.length + w.length : Nat)).bind
        (slice? (u ++ (w ++ after)) u.length) = some (dropFinalReturn w) := by
  obtain rfl | ⟨w, b, rfl⟩ := List.eq_nil_or_concat' w
  · rw [beforeReturn?, if_neg (by simp)]
    exact slice?_append u [] after
  · have hlast : element? (u ++ (w ++ [b] ++ after)) ((u.length + (w ++ [b]).length : Nat) - 1) = some b := by
      rw [List.length_append, List.length_singleton, ← Nat.add_assoc, Int.natCast_add_one,
        Int.add_sub_cancel, element?_natCast]
      simp
    have hlt : (u.length : Int) < (u.length + (w ++ [b]).length : Nat) := by
      rw [List.length_append, List.length_singleton]
      omega
    rw [beforeReturn?, if_pos hlt, hlast, Option.map_some, Option.bind_some, dropFinalReturn,
      List.getLast?_concat]
    by_cases hb : b = 0x0D
    · rw [if_pos hb, if_pos (congrArg some hb), List.dropLast_concat, List.length_append,
        List.length_singleton, ← Nat.add_assoc, Int.natCast_add_one, Int.add_sub_cancel,
        List.append_assoc]
      exact slice?_append u w _
    · rw [if_neg hb, if_neg fun h => hb (Option.some.inj h)]
      exact slice?_append u (w ++ [b]) after

/-- A line stops in front of the next line end, or with the text. -/
private theorem line?_eq (h : s.text = u ++ (w ++ after)) (hu : u.EndsLine) (hw : 0x0A ∉ w)
    (hafter : after = [] ∨ ∃ rest, after = 0x0A :: rest) :
    s.line? (u.count 0x0A + 1 : Nat) = some (dropFinalReturn w) := by
  have hlength : s.lineStarts.length = 1 + s.text.count 0x0A := s.lineCount_eq
  have hcount : u.count 0x0A ≤ s.text.count 0x0A := by
    rw [h, List.count_append]
    omega
  have hstart : element? s.lineStarts ((u.count 0x0A + 1 : Nat) - 1) = some u.length := by
    rw [Int.natCast_add_one, Int.add_sub_cancel, element?_natCast, getElem?_lineStarts h hu]
  rw [line?, if_neg (by omega), hstart, Option.bind_eq_bind, Option.bind_some,
    stop?_eq h hw hafter, Option.bind_eq_bind, Option.bind_some, h]
  exact slice?_beforeReturn? u w after

/-- The lines are the pieces between the line ends. -/
theorem line?_of_piece {piece : Text} (h : (List.splitOn 0x0A s.text)[i]? = some piece) :
    s.line? (i + 1 : Nat) = some (dropFinalReturn piece) := by
  have hi : i ≤ s.text.count 0x0A := by
    have hlt := (List.getElem?_eq_some_iff.1 h).1
    rw [length_pieces] at hlt
    exact Nat.le_of_lt_succ hlt
  obtain ⟨u, v, htext, hu, rfl⟩ := exists_endsLine hi
  obtain ⟨w, after, rfl, hw, hafter⟩ := exists_lineEnd v
  obtain ⟨ps, hps⟩ := pieces_append_line hw hafter
  rw [htext, getElem?_pieces_append hu, hps] at h
  obtain rfl : w = piece := Option.some.inj h
  exact line?_eq htext hu hw hafter

theorem line?_of_lineCount_lt {k : Int} (h : k < 1 ∨ s.lineCount < k) : s.line? k = some [] :=
  if_pos h

theorem length_pieces (s : Source) : (List.splitOn 0x0A s.text).length = s.lineCount := by
  rw [Text.length_pieces, lineCount_eq, Nat.add_comm]

theorem line?_eq_line (s : Source) (k : Int) : s.line? k = some (s.line k) := by
  have hsome : ∃ w, s.line? k = some w := by
    by_cases hk : k < 1 ∨ s.lineCount < k
    · exact ⟨[], line?_of_lineCount_lt hk⟩
    · obtain ⟨i, rfl⟩ : ∃ i : Nat, k = (i + 1 : Nat) := ⟨(k - 1).toNat, by omega⟩
      have hi : i < (List.splitOn 0x0A s.text).length := by
        rw [length_pieces]
        omega
      exact ⟨_, line?_of_piece (List.getElem?_eq_getElem hi)⟩
  obtain ⟨w, hw⟩ := hsome
  rw [line, hw, Option.getD_some]

theorem position?_eq_position (s : Source) (offset : Int) :
    s.position? offset = some (s.position offset) := by
  rw [position, position?_eq, Option.getD_some]

theorem position_eq (s : Source) (offset : Int) :
    s.position offset = ⟨1 + (s.text.take (s.clamp offset)).count 0x0A,
      1 + charCount (lastLine (s.text.take (s.clamp offset)))⟩ :=
  Option.some.inj ((s.position?_eq_position offset).symm.trans (s.position?_eq offset))

/-- An offset between characters of a text that is well-formed UTF-8. -/
def IsBoundary (s : Source) (o : Nat) : Prop :=
  ∃ cs ds, s.text = ofChars cs ++ ofChars ds ∧ (ofChars cs).length = o

private theorem position_boundary {cs ds : List Char} (h : s.text = ofChars cs ++ ofChars ds) :
    s.position (ofChars cs).length = ⟨1 + (ofChars cs).count 0x0A, 1 + charCount (lastLine (ofChars cs))⟩ := by
  have hclamp : s.clamp (ofChars cs).length = (ofChars cs).length := by
    rw [clamp, h, List.length_append, Int.toNat_natCast]
    omega
  rw [position_eq, hclamp, h, List.take_left]

/-- Characters that are added take a text to a later position. -/
private theorem precedes_append {cs es : List Char} (hes : es ≠ []) :
    Position.Precedes ⟨1 + (ofChars cs).count 0x0A, 1 + charCount (lastLine (ofChars cs))⟩
      ⟨1 + (ofChars (cs ++ es)).count 0x0A, 1 + charCount (lastLine (ofChars (cs ++ es)))⟩ := by
  simp only [Position.Precedes, ofChars_append, List.count_append]
  by_cases hlf : 0x0A ∈ ofChars es
  · have hpos := List.count_pos_iff.2 hlf
    left
    omega
  · have hnone : (ofChars es).count 0x0A = 0 := List.count_eq_zero.2 hlf
    have hlength := List.length_pos_iff.2 hes
    right
    refine ⟨by omega, ?_⟩
    rw [lastLine_append_line _ hlf, charCount_append_ofChars]
    omega

theorem precedes_of_lt {o o' : Nat} (ho : s.IsBoundary o) (ho' : s.IsBoundary o') (h : o < o') :
    (s.position o).Precedes (s.position o') := by
  obtain ⟨cs, ds, htext, rfl⟩ := ho
  obtain ⟨cs', ds', htext', rfl⟩ := ho'
  have hchars : cs ++ ds = cs' ++ ds' := by
    rw [← chars_ofChars (cs ++ ds), ← chars_ofChars (cs' ++ ds'), ofChars_append, ofChars_append,
      ← htext, htext']
  have hprefix : cs <+: cs' := by
    obtain hle | ⟨es, rfl⟩ := List.prefix_or_prefix_of_prefix (List.prefix_append cs ds)
      (hchars ▸ List.prefix_append cs' ds')
    · exact hle
    · rw [ofChars_append, List.length_append] at h
      omega
  obtain ⟨es, rfl⟩ := hprefix
  rw [position_boundary htext, position_boundary htext']
  exact precedes_append fun hes => by simp [hes] at h

theorem eq_of_position_eq {o o' : Nat} (ho : s.IsBoundary o) (ho' : s.IsBoundary o')
    (h : s.position o = s.position o') : o = o' := by
  have hirreflexive (p : Position) : ¬p.Precedes p := by
    rw [Position.Precedes]
    omega
  obtain hlt | heq | hlt := Nat.lt_trichotomy o o'
  · exact absurd (h ▸ precedes_of_lt ho ho' hlt) (hirreflexive _)
  · exact heq
  · exact absurd (h ▸ precedes_of_lt ho' ho hlt) (hirreflexive _)

end Source

private theorem exists_repeated? {n : Int} (h : 0 ≤ n) (b : UInt8) : ∃ t, Text.repeated? n b = some t :=
  ⟨_, if_neg (Int.not_lt.2 h)⟩

theorem exists_mapM {α β : Type} {f : α → Option β} (h : ∀ x, ∃ y, f x = some y) (xs : List α) :
    ∃ ys, xs.mapM f = some ys := by
  choose g hg using h
  rw [funext hg]
  exact ⟨xs.map g, List.mapM_pure⟩

namespace Diagnostic

variable (sources : Sources)

private theorem exists_snippet? (source : Source) (note : Note) : ∃ t, snippet? source note = some t := by
  simp only [snippet?, Source.position?_eq_position, Source.line?_eq_line, Option.bind_eq_bind,
    Option.bind_some]
  generalize source.position note.span.start = first
  generalize source.position note.span.stop = last
  obtain ⟨margin, hmargin⟩ : ∃ t, blanks? (Text.ofNat first.line).length = some t :=
    exists_repeated? (Int.natCast_nonneg _) _
  obtain ⟨indent, hindent⟩ :
      ∃ t, blanks? ((if first.column < 1 then 1 else (first.column : Int)) - 1) = some t :=
    exists_repeated? (by split <;> omega) _
  obtain ⟨marks, hmarks⟩ : ∃ t, carets? (if last.line = first.line ∧ first.column < last.column then
      (last.column : Int) - first.column else 1) = some t :=
    exists_repeated? (by split <;> omega) _
  simp only [hmargin, hindent, hmarks, Option.bind_some]
  exact ⟨_, rfl⟩

private theorem exists_report? (d : Diagnostic) : ∃ t, d.report? sources = some t := by
  rw [report?]
  cases sources.get? d.span.file with
  | none => exact ⟨_, rfl⟩
  | some source =>
    obtain ⟨snippets, hsnippets⟩ := exists_mapM
      (fun note : Note => exists_snippet? ((sources.get? note.span.file).getD source) note) d.notes
    simp only [Source.position?_eq_position, hsnippets, Option.bind_eq_bind, Option.bind_some]
    exact ⟨_, rfl⟩

end Diagnostic

private theorem Failure.report?_eq_report (sources : Sources) (f : Failure) :
    f.report? sources = some (f.report sources) := by
  have hsome : ∃ t, f.report? sources = some t := by
    unfold report?
    split
    · rename_i ds
      obtain ⟨ts, hts⟩ := exists_mapM (Diagnostic.exists_report? sources) ds
      exact ⟨_, congrArg _ hts⟩
    · split
      · exact Diagnostic.exists_report? sources _
      · exact ⟨_, rfl⟩
  obtain ⟨t, ht⟩ := hsome
  rw [report, ht, Option.getD_some]

namespace Source

/-- What the table of lines, halving and slices give is what counting gives: the line of an offset
is the number of line ends in front of it, its column the number of characters behind the last of
them, and the lines are the pieces between line ends. No access is out of bounds, neither for a
place nor for a report with spans of any kind, and later boundaries of characters have later
positions. -/
theorem places_by_counting (s : Source) :
    (∀ offset : Int, s.position? offset = some (s.position offset) ∧
      s.position offset = ⟨1 + (s.text.take (s.clamp offset)).count 0x0A,
        1 + Text.charCount (Text.lastLine (s.text.take (s.clamp offset)))⟩) ∧
    (s.lineCount = 1 + s.text.count 0x0A ∧ (List.splitOn 0x0A s.text).length = s.lineCount) ∧
    (∀ k : Int, s.line? k = some (s.line k)) ∧
    (∀ (i : Nat) (piece : Text), (List.splitOn 0x0A s.text)[i]? = some piece →
      s.line (i + 1) = Text.dropFinalReturn piece) ∧
    (∀ k : Int, k < 1 ∨ s.lineCount < k → s.line k = []) ∧
    (∀ o o' : Nat, s.IsBoundary o → s.IsBoundary o' →
      (o < o' → (s.position o).Precedes (s.position o')) ∧ (s.position o = s.position o' → o = o')) ∧
    ∀ (sources : Sources) (f : Failure), f.report? sources = some (f.report sources) := by
  refine ⟨fun offset => ⟨s.position?_eq_position offset, s.position_eq offset⟩,
    ⟨s.lineCount_eq, s.length_pieces⟩, s.line?_eq_line, fun i piece hpiece => ?_, fun k hk => ?_,
    fun o o' ho ho' => ⟨precedes_of_lt ho ho', eq_of_position_eq ho ho'⟩,
    Failure.report?_eq_report⟩
  · exact Option.some.inj ((s.line?_eq_line _).symm.trans (line?_of_piece hpiece))
  · exact Option.some.inj ((s.line?_eq_line _).symm.trans (line?_of_lineCount_lt hk))

/-- An accented letter, a line end with a CR, and a second line. -/
def accented : Source :=
  ⟨[], "é\r\nb"⟩

theorem places_by_counting_accented :
    (List.splitOn 0x0A accented.text)[0]? = some ("é\r" : Text) ∧ accented.line 1 = "é" ∧
    (accented.lineCount < (3 : Int) ∧ accented.line 3 = []) ∧
    accented.IsBoundary 2 ∧ accented.IsBoundary 4 ∧
    (accented.position 2).Precedes (accented.position 4) ∧
    (accented.position 4 = accented.position 4 ∧ (4 : Nat) = 4) := by
  obtain ⟨-, -, -, hpiece, houtside, horder, -⟩ := places_by_counting accented
  have hfirst : (List.splitOn 0x0A accented.text)[0]? = some ("é\r" : Text) := by decide +kernel
  have hcount : (accented.lineCount : Int) < 3 := by decide +kernel
  have hletter : accented.IsBoundary 2 := ⟨['é'], ['\r', '\n', 'b'], by decide, by decide⟩
  have hline : accented.IsBoundary 4 := ⟨['é', '\r', '\n'], ['b'], by decide, by decide⟩
  exact ⟨hfirst, hpiece 0 _ hfirst, ⟨hcount, houtside 3 (.inr hcount)⟩, hletter, hline,
    (horder 2 4 hletter hline).1 (by decide), rfl, (horder 4 4 hline hline).2 rfl⟩

end Source

end LolToolchain
