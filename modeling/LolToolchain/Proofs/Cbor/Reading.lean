import LolToolchain.Cbor.Decode

/-!
What reading gives. The strings of an item that is read have no more bytes than there were to read,
its arrays have no more members than are allowed, and no reader leaves more than it was given.
-/
namespace LolToolchain.Cbor

theorem length_of_split? {k : Nat} {t front rest : Text} (h : split? k t = some (front, rest)) :
    front.length + rest.length = t.length := by
  dsimp only [split?] at h
  split at h
  · cases h
    rw [← List.length_append, List.take_append_drop]
  · cases h

theorem length_of_readHead? {t rest : Text} {h : Head} (hread : readHead? t = some (h, rest)) :
    rest.length ≤ t.length := by
  cases t with
  | nil => cases hread
  | cons b t =>
    have hfollow (k : Nat) (hmap : ((split? k t).map fun r =>
        ((⟨b.toNat / 0x20, b.toNat % 0x20, ofBigEndian r.1⟩ : Head), r.2)) = some (h, rest)) :
        rest.length ≤ (b :: t).length := by
      obtain ⟨⟨front, rest'⟩, hsplit, heq⟩ := Option.map_eq_some_iff.1 hmap
      obtain ⟨-, rfl⟩ := Prod.mk.inj heq
      have hlength := length_of_split? hsplit
      dsimp only [List.length_cons]
      omega
    dsimp only [readHead?] at hread
    split at hread
    · cases hread
      exact Nat.le_succ _
    · split at hread
      · exact hfollow 1 hread
      · exact hfollow 2 hread
      · exact hfollow 4 hread
      · exact hfollow 8 hread
      · cases hread
        exact Nat.le_succ _
      · cases hread

private theorem length_of_readPieces? {major : Nat} : ∀ {fuel : Nat} {t rest : Text} {pieces : List Text},
    readPieces? major fuel t = some (pieces, rest) →
      pieces.flatten.length + rest.length ≤ t.length
  | 0, _, _, _, h => by cases h
  | fuel + 1, t, rest, pieces, h => by
    rw [readPieces?] at h
    split at h
    · cases h
      simp
    · obtain ⟨⟨head, rest₁⟩, hhead, h⟩ := Option.bind_eq_some_iff.1 h
      dsimp only at h
      split at h
      · cases h
      · obtain ⟨⟨piece, rest₂⟩, hsplit, h⟩ := Option.bind_eq_some_iff.1 h
        obtain ⟨⟨pieces', rest₃⟩, hpieces, h⟩ := Option.bind_eq_some_iff.1 h
        change some (piece :: pieces', rest₃) = _ at h
        cases h
        have hle₁ := length_of_readHead? hhead
        have hle₂ := length_of_split? hsplit
        have hle₃ : pieces'.flatten.length + rest.length ≤ rest₂.length := length_of_readPieces? hpieces
        rw [List.flatten_cons, List.length_append]
        omega

private theorem length_of_readString? {head : Head} {t rest : Text} {pieces : List Text}
    (h : readString? head t = some (pieces, rest)) :
    pieces.flatten.length + rest.length ≤ t.length := by
  rw [readString?] at h
  split at h
  · exact length_of_readPieces? h
  · obtain ⟨⟨piece, rest'⟩, hsplit, h⟩ := Option.bind_eq_some_iff.1 h
    cases h
    rw [List.flatten_singleton]
    exact Nat.le_of_eq (length_of_split? hsplit)

private theorem mem_of_pairUp? : ∀ {xs : List Cbor} {es : List (Cbor × Cbor)}, pairUp? xs = some es →
    ∀ e ∈ es, e.2 ∈ xs
  | [], _, h, e, he => by
    cases h
    cases he
  | [_], _, h, _, _ => by cases h
  | k :: v :: xs, es, h, e, he => by
    obtain ⟨es', hes', rfl⟩ := Option.map_eq_some_iff.1 h
    rcases List.mem_cons.1 he with rfl | he
    · exact List.mem_cons_of_mem _ List.mem_cons_self
    · exact List.mem_cons_of_mem _ (List.mem_cons_of_mem _ (mem_of_pairUp? hes' e he))

/-- An item without a string of more than `n` bytes or an array with too many members, the keys of
maps apart. -/
inductive Bounded (n : Nat) : Cbor → Prop
  | nat (k : Nat) : Bounded n (.nat k)
  | neg (k : Nat) : Bounded n (.neg k)
  | bytes {b : Text} (h : b.length ≤ n) : Bounded n (.bytes b)
  | text {pieces : List Text} (h : pieces.flatten.length ≤ n) : Bounded n (.text pieces)
  | array {xs : List Cbor} (hcount : xs.length ≤ maxCount) (hxs : ∀ x ∈ xs, Bounded n x) :
    Bounded n (.array xs)
  | map {es : List (Cbor × Cbor)} (hes : ∀ e ∈ es, Bounded n e.2) : Bounded n (.map es)
  | tag {k : Nat} {x : Cbor} (hx : Bounded n x) : Bounded n (.tag k x)
  | simple (k : Nat) : Bounded n (.simple k)
  | float (x : Numbar) : Bounded n (.float x)

variable {n : Nat}

private theorem bounded_of_primitive? {head : Head} {x : Cbor} (h : primitive? head = some x) :
    x.Bounded n := by
  rw [primitive?] at h
  repeat' split at h
  all_goals cases h
  all_goals constructor

mutual

/-- An item that is read from at most `n` bytes. -/
theorem bounded_of_read? : ∀ {fuel depth : Nat} {t rest : Text} {x : Cbor}, t.length ≤ n →
    read? fuel depth t = some (x, rest) → x.Bounded n ∧ rest.length ≤ t.length
  | 0, _, _, _, _, _, h => by cases h
  | fuel + 1, depth, t, rest, x, ht, h => by
    rw [read?] at h
    obtain ⟨⟨head, rest₁⟩, hhead, h⟩ := Option.bind_eq_some_iff.1 h
    have hle := length_of_readHead? hhead
    dsimp only at h
    split at h
    · split at h
      · cases h
      · cases h
        exact ⟨.nat _, hle⟩
    · split at h
      · cases h
      · cases h
        exact ⟨.neg _, hle⟩
    · obtain ⟨⟨pieces, rest₂⟩, hstring, h⟩ := Option.bind_eq_some_iff.1 h
      have hlength := length_of_readString? hstring
      cases h
      exact ⟨.bytes (Nat.le_trans (Nat.le_trans (Nat.le_of_add_right_le hlength) hle) ht),
        Nat.le_trans (Nat.le_of_add_left_le hlength) hle⟩
    · obtain ⟨⟨pieces, rest₂⟩, hstring, h⟩ := Option.bind_eq_some_iff.1 h
      have hlength := length_of_readString? hstring
      cases h
      exact ⟨.text (Nat.le_trans (Nat.le_trans (Nat.le_of_add_right_le hlength) hle) ht),
        Nat.le_trans (Nat.le_of_add_left_le hlength) hle⟩
    · obtain ⟨⟨items, rest₂⟩, hmembers, h⟩ := Option.bind_eq_some_iff.1 h
      cases h
      obtain ⟨hcount, hitems, hrest⟩ := bounded_of_readMembers? (Nat.le_trans hle ht) hmembers
      exact ⟨.array (by rwa [Nat.mul_one] at hcount) hitems, Nat.le_trans hrest hle⟩
    · obtain ⟨⟨items, rest₂⟩, hmembers, h⟩ := Option.bind_eq_some_iff.1 h
      obtain ⟨es, hes, h⟩ := Option.bind_eq_some_iff.1 h
      cases h
      obtain ⟨-, hitems, hrest⟩ := bounded_of_readMembers? (Nat.le_trans hle ht) hmembers
      exact ⟨.map fun e he => hitems _ (mem_of_pairUp? hes e he), Nat.le_trans hrest hle⟩
    · split at h
      · cases h
      · split at h
        · cases h
        · obtain ⟨⟨item, rest₂⟩, hitem, h⟩ := Option.bind_eq_some_iff.1 h
          cases h
          obtain ⟨hitem, hrest⟩ := bounded_of_read? (Nat.le_trans hle ht) hitem
          exact ⟨.tag hitem, Nat.le_trans hrest hle⟩
    · obtain ⟨item, hitem, h⟩ := Option.bind_eq_some_iff.1 h
      cases h
      exact ⟨bounded_of_primitive? hitem, hle⟩

theorem bounded_of_readMembers? : ∀ {fuel depth : Nat} {head : Head} {width : Nat} {t rest : Text}
    {xs : List Cbor}, t.length ≤ n → readMembers? fuel depth head width t = some (xs, rest) →
      xs.length ≤ maxCount * width ∧ (∀ x ∈ xs, x.Bounded n) ∧ rest.length ≤ t.length
  | 0, _, _, _, _, _, _, _, h => by cases h
  | _ + 1, 0, _, _, _, _, _, _, h => by cases h
  | fuel + 1, depth + 1, head, width, t, rest, xs, ht, h => by
    rw [readMembers?] at h
    split at h
    · obtain ⟨⟨items, rest₁⟩, hitems, h⟩ := Option.bind_eq_some_iff.1 h
      dsimp only at h
      split at h
      · cases h
      · rename_i hcount
        cases h
        exact ⟨Nat.not_lt.1 hcount, bounded_of_readUntilBreak? ht hitems⟩
    · split at h
      · cases h
      · rename_i hcount
        obtain ⟨hlength, hxs⟩ := bounded_of_readMany? ht h
        exact ⟨hlength ▸ Nat.mul_le_mul_right _ (Nat.not_lt.1 hcount), hxs⟩

theorem bounded_of_readMany? : ∀ {fuel depth k : Nat} {t rest : Text} {xs : List Cbor},
    t.length ≤ n → readMany? fuel depth k t = some (xs, rest) →
      xs.length = k ∧ (∀ x ∈ xs, x.Bounded n) ∧ rest.length ≤ t.length
  | 0, _, _, _, _, _, _, h => by cases h
  | _ + 1, _, 0, _, _, _, _, h => by
    cases h
    exact ⟨rfl, nofun, Nat.le_refl _⟩
  | fuel + 1, depth, k + 1, t, rest, xs, ht, h => by
    rw [readMany?] at h
    obtain ⟨⟨x, rest₁⟩, hread, h⟩ := Option.bind_eq_some_iff.1 h
    obtain ⟨⟨xs', rest₂⟩, hmany, h⟩ := Option.bind_eq_some_iff.1 h
    cases h
    obtain ⟨hx, hrest₁⟩ := bounded_of_read? ht hread
    obtain ⟨hlength, hxs, hrest₂⟩ := bounded_of_readMany? (Nat.le_trans hrest₁ ht) hmany
    exact ⟨congrArg Nat.succ hlength, List.forall_mem_cons.2 ⟨hx, hxs⟩, Nat.le_trans hrest₂ hrest₁⟩

theorem bounded_of_readUntilBreak? : ∀ {fuel depth : Nat} {t rest : Text} {xs : List Cbor},
    t.length ≤ n → readUntilBreak? fuel depth t = some (xs, rest) →
      (∀ x ∈ xs, x.Bounded n) ∧ rest.length ≤ t.length
  | 0, _, _, _, _, _, h => by cases h
  | fuel + 1, depth, t, rest, xs, ht, h => by
    rw [readUntilBreak?] at h
    split at h
    · cases h
      refine ⟨nofun, ?_⟩
      rw [List.length_drop]
      exact Nat.sub_le _ _
    · obtain ⟨⟨x, rest₁⟩, hread, h⟩ := Option.bind_eq_some_iff.1 h
      obtain ⟨⟨xs', rest₂⟩, huntil, h⟩ := Option.bind_eq_some_iff.1 h
      cases h
      obtain ⟨hx, hrest₁⟩ := bounded_of_read? ht hread
      obtain ⟨hxs, hrest₂⟩ := bounded_of_readUntilBreak? (Nat.le_trans hrest₁ ht) huntil
      exact ⟨List.forall_mem_cons.2 ⟨hx, hxs⟩, Nat.le_trans hrest₂ hrest₁⟩

end

/-- The strings of an item have no more bytes than the text it is read from. -/
theorem bounded_of_decode? {t : Text} {x : Cbor} (h : decode? t = some x) : x.Bounded t.length := by
  obtain ⟨⟨item, rest⟩, hread, h⟩ := Option.bind_eq_some_iff.1 h
  dsimp only at h
  split at h
  · cases h
    exact (bounded_of_read? (Nat.le_refl _) hread).1
  · cases h

end LolToolchain.Cbor
