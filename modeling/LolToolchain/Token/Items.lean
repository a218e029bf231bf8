import LolToolchain.Token.Lexer

/-!
The items of a whole source text, tokens and faults in order, closed by the end-of-input token.
Every step of the reading moves on, which is why the list is finite.
-/
namespace LolToolchain

namespace Lexer

private theorem length_delimited_error {file : Int} {start : Nat} {closer : Char} {c : Cursor}
    {s : Scanned} (h : delimited file start closer c = .error s) :
    s.next.rest.length ≤ c.rest.length := by
  simp only [delimited] at h
  split at h
  · cases h
  · cases h
    simp [fault, Cursor.skip, Cursor.past]

private theorem length_named_error [CharNames] {file : Int} {start : Nat} {closer : Char}
    {c : Cursor} {s : Scanned} (h : escape.named file start c closer = .error s) :
    s.next.rest.length ≤ c.rest.length := by
  simp only [escape.named, bind, Except.bind] at h
  split at h
  · cases h
    exact length_delimited_error ‹_›
  · rename_i hv
    split at h <;> cases h
    exact length_delimited_le hv

private theorem length_escape_error [CharNames] {file : Int} {start : Nat} {c : Cursor}
    {s : Scanned} (h : escape file start c = .error s) : s.next.rest.length ≤ c.rest.length := by
  simp only [escape, bind, Except.bind] at h
  repeat' split at h
  all_goals first
    | exact length_named_error h
    | cases h
  all_goals first
    | exact Nat.le_refl _
    | exact Cursor.length_skip_le _ _
    | exact length_delimited_error ‹_›
    | exact length_delimited_le ‹_›

/-- Reading a string never goes back. -/
theorem length_stringBody_le [CharNames] (file : Int) (start : Nat) (text : Text)
    (insertions : List Insertion) (c : Cursor) :
    (stringBody file start text insertions c).next.rest.length ≤ c.rest.length := by
  fun_induction stringBody file start text insertions c with
  | case1 => exact Nat.le_refl _
  | case2 _ _ _ _ _ _ _ hn => exact Nat.le_of_lt hn
  | case3 _ _ _ _ _ _ _ hn _ _ s he =>
    exact Nat.le_trans (length_escape_error he) (Nat.le_of_lt hn)
  | case4 _ _ _ _ _ _ _ hn _ _ ch behind he hb ih => omega
  | case5 _ _ _ _ _ _ _ hn _ _ name behind he hb ih => omega
  | case6 _ _ _ _ _ _ _ hn _ _ ih => omega

private theorem length_continued_le {file : Int} {c next : Cursor}
    (h : (continued file c).next? = some next) : next.rest.length ≤ c.rest.length := by
  have hs := c.length_skipWhile_le isGap
  simp only [continued] at h
  split at h <;> rename_i hk <;> simp only [continuation] at hk <;> repeat' split at hk
  all_goals cases hk
  all_goals
    cases h
    exact Nat.le_trans (Cursor.length_skip_le _ _) hs

private theorem length_breaks_le (pos : Nat) (gs : List Glyph) :
    (skipBreaks.go pos gs).rest.length ≤ gs.length := by
  fun_induction skipBreaks.go pos gs <;> simp_all <;> omega

private theorem length_lineComment_le (pos : Nat) (gs : List Glyph) :
    (skipLineComment.go pos gs).rest.length ≤ gs.length := by
  fun_induction skipLineComment.go pos gs <;> simp_all; omega

private theorem length_blockComment_le (pos : Nat) (gs : List Glyph) :
    (skipBlockComment.go pos gs).rest.length ≤ gs.length := by
  fun_induction skipBlockComment.go pos gs <;> simp_all <;> omega

private theorem length_skipWhile_lt {c : Cursor} {p : Char → Bool} {ch : Char}
    (hc : c.peek? 0 = some ch) (hp : p ch) : (c.skipWhile p).rest.length < c.rest.length := by
  obtain ⟨pos, rest⟩ := c
  cases rest with
  | nil => simp [Cursor.peek?] at hc
  | cons g rest =>
    have hg : g.toChar = ch := by simpa [Cursor.peek?] using hc
    have hw : (⟨pos, g :: rest⟩ : Cursor).ahead p = g :: rest.takeWhile fun g => p g.toChar := by
      simp [Cursor.ahead, hg, hp]
    rw [Cursor.skipWhile, Cursor.length_past, hw, List.length_cons, List.length_cons]
    omega

private theorem eq_char_of_toChar {g : Glyph} {c : Char} (h : g.toChar = c) (hc : c.toNat ≠ 0xFFFD) :
    g = .char c := by
  cases g with
  | char c => exact congrArg _ h
  | stray b =>
    subst h
    exact absurd rfl hc

private theorem length_skipBreaks_lt {c : Cursor} {ch : Char} (hc : c.peek? 0 = some ch)
    (hgap : (isGap ch || (ch == '\r' && (c.skip 1).peek? 0 != some '\n')) = false)
    (hb : (ch == '\n' || ch == '\r') = true) : (skipBreaks c).rest.length < c.rest.length := by
  obtain ⟨pos, rest⟩ := c
  cases rest with
  | nil => simp [Cursor.peek?] at hc
  | cons g rest =>
    simp only [Cursor.peek?, List.getElem?_cons_zero, Option.map_some, Option.some.injEq] at hc
    rcases Bool.or_eq_true_iff.1 hb with h | h
    · have hg := eq_char_of_toChar (hc.trans (eq_of_beq h)) (by decide)
      subst hg
      have := length_breaks_le (pos + 1) rest
      simp only [skipBreaks, skipBreaks.go, List.length_cons]
      omega
    · have hr := eq_of_beq h
      have hg := eq_char_of_toChar (hc.trans hr) (by decide)
      subst hg
      subst hr
      cases rest with
      | nil => simp [Cursor.peek?, Cursor.skip, Cursor.past] at hgap
      | cons g' rest =>
        simp [Cursor.peek?, Cursor.skip, Cursor.past] at hgap
        have hg' := eq_char_of_toChar hgap.2 (by decide)
        subst hg'
        have := length_breaks_le (pos + 2) rest
        simp only [skipBreaks, skipBreaks.go, List.length_cons]
        omega

private theorem length_named_lt {file : Int} {c next : Cursor} {ch : Char}
    (hc : c.peek? 0 = some ch) (hs : startsName ch) (h : (named file c).next? = some next) :
    next.rest.length < c.rest.length := by
  have hb := length_skipWhile_lt (p := continuesName) hc (by simp [continuesName, hs])
  simp only [named] at h
  split at h
  · cases h
    exact Nat.lt_of_le_of_lt (length_lineComment_le _ _) hb
  · split at h
    · cases h
      exact Nat.lt_of_le_of_lt (length_blockComment_le _ _) hb
    · cases h
      simp only [word]
      split <;> exact hb

private theorem next?_ite {p : Prop} [Decidable p] {a b : Step} {next : Cursor}
    (h : (if p then a else b).next? = some next) :
    (p ∧ a.next? = some next) ∨ (¬p ∧ b.next? = some next) := by
  by_cases hp : p
  · exact .inl ⟨hp, by rwa [if_pos hp] at h⟩
  · exact .inr ⟨hp, by rwa [if_neg hp] at h⟩

/-- Every step of the reading moves on. -/
theorem length_step_lt [CharNames] {file : Int} {c next : Cursor}
    (h : (step file c).next? = some next) : next.rest.length < c.rest.length := by
  simp only [step] at h
  split at h
  · cases h
  · rename_i ch hc
    have hne : c.rest ≠ [] := by
      intro he
      simp [Cursor.peek?, he] at hc
    have h1 := Cursor.length_skip_lt (c := c) Nat.one_pos hne
    have h3 := Cursor.length_skip_lt (c := c) (n := 3) (by decide) hne
    rcases next?_ite h with ⟨_, h⟩ | ⟨hgap, h⟩
    · cases h; exact h1
    rcases next?_ite h with ⟨hb, h⟩ | ⟨_, h⟩
    · cases h; exact length_skipBreaks_lt hc (Bool.eq_false_iff.2 hgap) hb
    rcases next?_ite h with ⟨_, h⟩ | ⟨_, h⟩
    · cases h; exact h1
    rcases next?_ite h with ⟨_, h⟩ | ⟨_, h⟩
    · cases h; exact h1
    rcases next?_ite h with ⟨_, h⟩ | ⟨_, h⟩
    · cases h; exact h1
    rcases next?_ite h with ⟨_, h⟩ | ⟨_, h⟩
    · exact Nat.lt_of_le_of_lt (length_continued_le h) h3
    rcases next?_ite h with ⟨_, h⟩ | ⟨_, h⟩
    · exact Nat.lt_of_le_of_lt (length_continued_le h) h1
    rcases next?_ite h with ⟨_, h⟩ | ⟨_, h⟩
    · cases h; exact h1
    rcases next?_ite h with ⟨_, h⟩ | ⟨_, h⟩
    · cases h; exact Nat.lt_of_le_of_lt (length_stringBody_le _ _ _ _ _) h1
    rcases next?_ite h with ⟨_, h⟩ | ⟨_, h⟩
    · rcases next?_ite h with ⟨_, h⟩ | ⟨_, h⟩
      · cases h; exact Nat.lt_of_le_of_lt (Cursor.length_skipWhile_le _ _) h1
      · cases h; exact h1
    rcases next?_ite h with ⟨hd, h⟩ | ⟨_, h⟩
    · cases h; exact length_skipWhile_lt hc hd
    rcases next?_ite h with ⟨hn, h⟩ | ⟨_, h⟩
    · exact length_named_lt hc hn h
    · cases h; exact h1

/-- The items from a place on, in a text of `size` bytes. -/
def itemsFrom [CharNames] (file : Int) (size : Nat) (c : Cursor) : List (Except Diagnostic Token) :=
  match hs : step file c with
  | .stop => [.ok ⟨.endOfInput, ⟨size, size, file⟩⟩]
  | .gap next =>
    have : next.rest.length < c.rest.length := length_step_lt (by rw [hs]; rfl)
    itemsFrom file size next
  | .item s =>
    have : s.next.rest.length < c.rest.length := length_step_lt (by rw [hs]; rfl)
    s.item :: itemsFrom file size s.next
termination_by c.rest.length

end Lexer

/-- The tokens and faults of a source text, in order, closed by the end-of-input token. -/
def Token.items [CharNames] (file : Int) (text : Text) : List (Except Diagnostic Token) :=
  Lexer.itemsFrom file text.length (.ofText text)

/-- The tokens before the first fault, and that fault if there is one. -/
def Token.untilFault : List (Except Diagnostic Token) → List Token × Option Diagnostic
  | [] => ([], none)
  | .ok t :: rest =>
    let (ts, d) := untilFault rest
    (t :: ts, d)
  | .error d :: _ => ([], some d)

end LolToolchain
