import LolToolchain.Proofs.Bytecode.RoundTrip
import LolToolchain.Proofs.Cbor.Reading
import LolToolchain.Proofs.Effect
import LolToolchain.Proofs.Text.Utf8

/-!
Chunks that were read are written in one form. Bytes can say the same in many ways: with longer
numbers than needed, lengths left open, entries that are of no use, fields a constant does not need.
Whatever a chunk was read from, its written form is read as the chunk with canonical numbers, and
that chunk is written in this form again.
-/
namespace LolToolchain

variable {n : Nat}

namespace Cbor

private theorem Bounded.untag? {x y : Cbor} (hx : x.Bounded n) (h : x.untag? = some y) : y.Bounded n := by
  induction hx with
  | tag hx ih =>
    rw [Cbor.untag?] at h
    split at h
    · cases h
    · split at h
      · cases h
        exact .tag hx
      · exact ih h
  | nat k => cases h; exact .nat k
  | neg k => cases h; exact .neg k
  | bytes hb => cases h; exact .bytes hb
  | text hpieces => cases h; exact .text hpieces
  | array hcount hxs => cases h; exact .array hcount hxs
  | map hes => cases h; exact .map hes
  | simple k => cases h; exact .simple k
  | float x => cases h; exact .float x

/-- What is read is the zero, or it is read from a plain item. -/
theorem Bounded.valueOr? {α : Type} {zero a : α} {read : Cbor → Option α} {x : Cbor}
    (hx : x.Bounded n) (h : Cbor.valueOr? zero read x = some a) :
    a = zero ∨ ∃ y, y.Bounded n ∧ read y = some a := by
  obtain ⟨y, hy, h⟩ := Option.bind_eq_some_iff.1 h
  split at h
  · cases h
    exact .inl rfl
  · exact .inr ⟨y, hx.untag? hy, h⟩

theorem range_of_int64? {x : Cbor} {k : Int} (h : int64? x = some k) :
    Numbr.least ≤ k ∧ k ≤ Numbr.greatest := by
  obtain ⟨y, -, h⟩ := Option.bind_eq_some_iff.1 h
  split at h
  · cases h
    decide
  · exact of_decide_eq_true (Option.filter_eq_some_iff.1 h).2

theorem Bounded.string? {x : Cbor} {t : Text} (hx : x.Bounded n) (hn : n < 2 ^ 63)
    (h : Cbor.string? x = some t) : t.Storable := by
  rcases hx.valueOr? h with rfl | ⟨y, hy, h⟩
  · exact ⟨rfl, Nat.two_pow_pos 63⟩
  · split at h
    · split at h
      · rename_i pieces hutf8
        cases h
        cases hy with
        | text hlength =>
          exact ⟨Text.isUtf8_flatten (List.all_eq_true.1 hutf8), Nat.lt_of_le_of_lt hlength hn⟩
      · cases h
    · cases h

theorem mem_of_mapM {α β : Type} {read : α → Option β} : ∀ {xs : List α} {ys : List β},
    xs.mapM read = some ys → ys.length = xs.length ∧ ∀ y ∈ ys, ∃ x ∈ xs, read x = some y
  | [], _, h => by
    cases h
    exact ⟨rfl, nofun⟩
  | x :: xs, ys, h => by
    rw [List.mapM_cons] at h
    obtain ⟨y, hy, h⟩ := Option.bind_eq_some_iff.1 h
    obtain ⟨ys', hys, h⟩ := Option.bind_eq_some_iff.1 h
    cases h
    obtain ⟨hlength, hmem⟩ := mem_of_mapM hys
    refine ⟨congrArg Nat.succ hlength, List.forall_mem_cons.2 ⟨⟨x, List.mem_cons_self, hy⟩, ?_⟩⟩
    intro y' hy'
    obtain ⟨x', hx', hread⟩ := hmem y' hy'
    exact ⟨x', List.mem_cons_of_mem _ hx', hread⟩

theorem Bounded.list? {α : Type} {read : Cbor → Option α} {x : Cbor} {ys : List α}
    (hx : x.Bounded n) (h : Cbor.list? read x = some ys) :
    ys.length ≤ maxCount ∧ ∀ a ∈ ys, ∃ y, y.Bounded n ∧ read y = some a := by
  rcases hx.valueOr? h with rfl | ⟨y, hy, h⟩
  · exact ⟨Nat.zero_le _, nofun⟩
  · split at h
    · cases hy with
      | array hcount hxs =>
        obtain ⟨hlength, hmem⟩ := mem_of_mapM h
        refine ⟨hlength ▸ hcount, fun a ha => ?_⟩
        obtain ⟨z, hz, hread⟩ := hmem a ha
        exact ⟨z, hxs z hz, hread⟩
    · cases h

theorem Bounded.fields? {x : Cbor} {fs : List (Nat × Cbor)} (hx : x.Bounded n)
    (h : Cbor.fields? x = some fs) : ∀ f ∈ fs, f.2.Bounded n := by
  rcases hx.valueOr? h with rfl | ⟨y, hy, h⟩
  · exact nofun
  · split at h
    · cases hy with
      | map hes =>
        intro f hf
        obtain ⟨e, he, hread⟩ := (mem_of_mapM h).2 f hf
        obtain ⟨k, -, rfl⟩ := Option.map_eq_some_iff.1 hread
        exact hes e he
    · cases h

/-- A field is the zero, or it is read from an item. -/
theorem field?_cases {α : Type} {fs : List (Nat × Cbor)} {k : Nat} {zero a : α}
    {read : Cbor → Option α} (hfs : ∀ f ∈ fs, f.2.Bounded n)
    (h : field? fs k zero read = some a) : a = zero ∨ ∃ y, y.Bounded n ∧ read y = some a := by
  rw [field?] at h
  split at h
  · cases h
    exact .inl rfl
  · rename_i x hlookup
    obtain ⟨before, behind, rfl, -⟩ := List.lookup_eq_some_iff.1 hlookup
    exact .inr ⟨x, hfs (k, x) (List.mem_append_right _ List.mem_cons_self), h⟩

end Cbor

/-- Fields of a constant as they can be read: the text and the offsets are kept when they are
written. -/
structure StoredConstant.Loaded (s : StoredConstant) : Prop where
  yarn : s.yarn.Storable
  offsets : ∀ off ∈ s.offsets, Numbr.least ≤ off ∧ off ≤ Numbr.greatest
  count : s.offsets.length ≤ Cbor.maxCount

/-- A chunk as it can be read. -/
structure Chunk.Loaded (c : Chunk) : Prop where
  coded : c.coded = false → c.code = #[]
  spans : ∀ s ∈ c.positions.toList, s.Storable
  positions : c.positions.size ≤ Cbor.maxCount
  constants : ∃ ss : List StoredConstant, c.pool = .ofList (ss.map StoredConstant.toConstant) ∧
    ss.length ≤ Cbor.maxCount ∧ ∀ s ∈ ss, s.Loaded
  names : c.names.length ≤ Cbor.maxCount ∧ ∀ t ∈ c.names, t.Storable

private theorem Span.storable_of_ofCbor? {x : Cbor} {s : Span} (h : Span.ofCbor? x = some s) :
    s.Storable := by
  obtain ⟨y, -, h⟩ := Option.bind_eq_some_iff.1 h
  split at h
  · cases h
    exact ⟨by decide, by decide, by decide⟩
  · dsimp only at h
    split at h
    · obtain ⟨start, hstart, h⟩ := Option.bind_eq_some_iff.1 h
      obtain ⟨stop, hstop, h⟩ := Option.bind_eq_some_iff.1 h
      obtain ⟨file, hfile, h⟩ := Option.bind_eq_some_iff.1 h
      cases h
      exact ⟨Cbor.range_of_int64? hstart, Cbor.range_of_int64? hstop, Cbor.range_of_int64? hfile⟩
    · cases h

private theorem StoredConstant.loaded_of_ofCbor? {x : Cbor} {s : StoredConstant} (hx : x.Bounded n)
    (hn : n < 2 ^ 63) (h : StoredConstant.ofCbor? x = some s) : s.Loaded := by
  obtain ⟨fs, hfs, h⟩ := Option.bind_eq_some_iff.1 h
  obtain ⟨kind, -, h⟩ := Option.bind_eq_some_iff.1 h
  obtain ⟨troof, -, h⟩ := Option.bind_eq_some_iff.1 h
  obtain ⟨numbr, -, h⟩ := Option.bind_eq_some_iff.1 h
  obtain ⟨numbar, -, h⟩ := Option.bind_eq_some_iff.1 h
  obtain ⟨yarn, hyarn, h⟩ := Option.bind_eq_some_iff.1 h
  obtain ⟨offsets, hoffsets, h⟩ := Option.bind_eq_some_iff.1 h
  cases h
  have hbounded := hx.fields? hfs
  have hstorable : Text.Storable yarn := by
    rcases Cbor.field?_cases hbounded hyarn with rfl | ⟨y, hy, hread⟩
    · exact ⟨rfl, Nat.two_pow_pos 63⟩
    · exact hy.string? hn hread
  have hlist : offsets.length ≤ Cbor.maxCount ∧
      ∀ off ∈ offsets, Numbr.least ≤ off ∧ off ≤ Numbr.greatest := by
    rcases Cbor.field?_cases hbounded hoffsets with rfl | ⟨y, hy, hread⟩
    · exact ⟨Nat.zero_le _, nofun⟩
    · obtain ⟨hcount, hmem⟩ := hy.list? hread
      refine ⟨hcount, fun off hoff => ?_⟩
      obtain ⟨z, -, hz⟩ := hmem off hoff
      exact Cbor.range_of_int64? hz
  exact ⟨hstorable, hlist.2, hlist.1⟩

namespace Chunk

variable {c : Chunk}

private theorem loaded_of_ofCbor? {x : Cbor} (hx : x.Bounded n) (hn : n < 2 ^ 63)
    (h : ofCbor? x = some c) : c.Loaded := by
  obtain ⟨fs, hfs, h⟩ := Option.bind_eq_some_iff.1 h
  obtain ⟨code, -, h⟩ := Option.bind_eq_some_iff.1 h
  obtain ⟨positions, hpositions, h⟩ := Option.bind_eq_some_iff.1 h
  obtain ⟨constants, hconstants, h⟩ := Option.bind_eq_some_iff.1 h
  obtain ⟨names, hnames, h⟩ := Option.bind_eq_some_iff.1 h
  cases h
  have hbounded := hx.fields? hfs
  have hlist : ∀ {α : Type} {k : Nat} {read : Cbor → Option α} {ys : List α},
      Cbor.field? fs k [] (Cbor.list? read) = some ys →
        ys.length ≤ Cbor.maxCount ∧ ∀ a ∈ ys, ∃ y, y.Bounded n ∧ read y = some a := by
    intro α k read ys hys
    rcases Cbor.field?_cases hbounded hys with rfl | ⟨y, hy, hread⟩
    · exact ⟨Nat.zero_le _, nofun⟩
    · exact hy.list? hread
  obtain ⟨hcount, hspans⟩ := hlist hpositions
  obtain ⟨hconstantCount, hstored⟩ := hlist hconstants
  obtain ⟨hnameCount, htexts⟩ := hlist hnames
  refine ⟨fun hcoded => ?_, fun s hs => ?_, hcount, ⟨constants, rfl, hconstantCount, ?_⟩,
    hnameCount, ?_⟩
  · cases code with
    | none => rfl
    | some b => cases hcoded
  · obtain ⟨y, -, hy⟩ := hspans s hs
    exact Span.storable_of_ofCbor? hy
  · intro s hs
    obtain ⟨y, hy, hread⟩ := hstored s hs
    exact StoredConstant.loaded_of_ofCbor? hy hn hread
  · intro t ht
    obtain ⟨y, hy, hread⟩ := htexts t ht
    exact hy.string? hn hread

/-- A chunk that is read has the right shape. -/
theorem loaded_of_decode {data : Text} (hsize : data.length < 2 ^ 63)
    (h : decode data = .ok c) : c.Loaded ∧ c.fault? = none := by
  rw [decode] at h
  split at h
  · cases h
  · dsimp only [bind, Except.bind, pure, Except.pure] at h
    split at h
    · cases h
    · split at h
      · cases h
      · rename_i c' hread
        split at h
        · cases h
        · rename_i hfault
          cases h
          obtain ⟨x, hx, hread⟩ := Option.bind_eq_some_iff.1 hread
          refine ⟨loaded_of_ofCbor? (Cbor.bounded_of_decode? hx) ?_ hread, hfault⟩
          simp only [List.length_drop]
          omega

end Chunk

namespace StoredConstant

variable {s : StoredConstant}

/-- The fields of a constant that is made from fields are these; only templates keep offsets. -/
theorem ofConstant_toConstant (s : StoredConstant) :
    ofConstant s.toConstant = { s with offsets := if s.kind = 5 then s.offsets else [] } := by
  obtain ⟨kind, troof, numbr, numbar, yarn, offsets⟩ := s
  unfold toConstant
  split <;> simp_all [ofConstant, Value.kindCode]

/-- Offsets count for templates only. -/
private theorem toConstant_offsets (s : StoredConstant) :
    toConstant { s with offsets := if s.kind = 5 then s.offsets else [] } = s.toConstant := by
  by_cases h : s.kind = 5
  · rw [if_pos h]
  · obtain ⟨kind, troof, numbr, numbar, yarn, offsets⟩ := s
    rw [if_neg h]
    unfold toConstant
    split <;> simp_all

/-- Fields with a canonical number make the constant in normal form. -/
private theorem toConstant_canonical (s : StoredConstant) : s.canonical.toConstant = s.toConstant.normal := by
  obtain ⟨kind, troof, numbr, numbar, yarn, offsets⟩ := s
  have hzero : Numbar.zero.canonical = .zero := rfl
  unfold toConstant canonical
  split <;> simp_all [Constant.normal, Value.canonical]

end StoredConstant

/-- The tag of a template is not stored. -/
theorem StoredConstant.ofConstant_retag (k : Constant) (i : Nat) :
    ofConstant { k with value := k.value.retag i } = ofConstant k := by
  obtain ⟨v, spare⟩ := k
  cases v with
  | interp t => cases t <;> rfl
  | _ => rfl

private theorem Constant.normal_retag (k : Constant) (i : Nat) :
    Constant.normal { k with value := k.value.retag i } =
      { k.normal with value := k.normal.value.retag i } := by
  obtain ⟨v, spare⟩ := k
  cases v with
  | interp t => cases t <;> rfl
  | _ => rfl

namespace Chunk

variable {c : Chunk}

/-- The constants of a chunk that was read, in normal form. -/
theorem constants_normal {ks : List Constant} (h : c.pool = .ofList ks) :
    c.normal.pool.constants.toList =
      (ks.map Constant.normal).mapIdx fun i k => { k with value := k.value.retag i } := by
  change c.pool.constants.toList.map Constant.normal = _
  rw [h, Pool.constants_ofList]
  refine List.ext_getElem? fun i => ?_
  rw [List.getElem?_map, List.getElem?_mapIdx, List.getElem?_mapIdx, List.getElem?_map,
    Option.map_map, Option.map_map]
  cases ks[i]? with
  | none => rfl
  | some k => exact congrArg some (k.normal_retag i)

/-- The fields of a chunk that was read make its constants in normal form. -/
private theorem refilled_normal (h : c.Loaded) : c.normal.refilled = c.normal := by
  obtain ⟨ss, hpool, -, -⟩ := h.constants
  have hfields : c.normal.pool.constants.toList.map
        (fun k => (StoredConstant.ofConstant k).toConstant) =
      (ss.map StoredConstant.toConstant).map Constant.normal := by
    rw [constants_normal hpool]
    refine List.ext_getElem? fun i => ?_
    rw [List.getElem?_map, List.getElem?_mapIdx, List.map_map, List.getElem?_map]
    cases ss[i]? with
    | none => rfl
    | some s =>
      change some (StoredConstant.ofConstant { s.toConstant.normal with
        value := s.toConstant.normal.value.retag i }).toConstant = some s.toConstant.normal
      rw [StoredConstant.ofConstant_retag, StoredConstant.ofConstant_normal,
        StoredConstant.toConstant_canonical, StoredConstant.ofConstant_toConstant,
        StoredConstant.toConstant_offsets]
  have hconstants : (Pool.ofList ((ss.map StoredConstant.toConstant).map Constant.normal)).constants =
      c.normal.pool.constants :=
    Array.ext' (by rw [Pool.constants_ofList, constants_normal hpool])
  have hnormal : c.normal.pool = ⟨c.normal.pool.constants, c.pool.hidden, c.pool.indexed⟩ := rfl
  rw [refilled, hfields, Pool.ofList_eq, hconstants]
  rw [hpool, Pool.ofList_eq] at hnormal
  rw [← hnormal]

/-- The parts of a chunk that was read are kept when it is written in normal form. -/
private theorem Loaded.kept_normal (h : c.Loaded) (hfault : c.fault? = none) :
    c.normal.Kept ∧ c.normal.Fits := by
  obtain ⟨ss, hpool, hcount, hss⟩ := h.constants
  have hmem : ∀ k ∈ c.normal.pool.constants.toList, ∃ s ∈ ss,
      StoredConstant.ofConstant k = (StoredConstant.ofConstant s.toConstant).canonical := by
    intro k hk
    rw [constants_normal hpool] at hk
    obtain ⟨i, hi, rfl⟩ := List.mem_mapIdx.1 hk
    simp only [List.length_map] at hi
    refine ⟨ss[i], List.getElem_mem hi, ?_⟩
    rw [StoredConstant.ofConstant_retag, List.getElem_map, List.getElem_map,
      StoredConstant.ofConstant_normal]
  have hoffsets : ∀ s : StoredConstant,
      (StoredConstant.ofConstant s.toConstant).canonical.offsets = s.offsets ∨
        (StoredConstant.ofConstant s.toConstant).canonical.offsets = [] := by
    intro s
    rw [StoredConstant.ofConstant_toConstant]
    change (if s.kind = 5 then s.offsets else []) = _ ∨ (if s.kind = 5 then s.offsets else []) = _
    split
    · exact .inl rfl
    · exact .inr rfl
  have hyarn : ∀ s : StoredConstant,
      (StoredConstant.ofConstant s.toConstant).canonical.yarn = s.yarn := by
    intro s
    rw [StoredConstant.ofConstant_toConstant]
    rfl
  refine ⟨⟨h.coded, (of_fault?_eq_none hfault).1, h.spans, fun k hk => ?_, h.names.2⟩,
    ⟨h.positions, ?_, fun k hk => ?_, h.names.1⟩⟩
  · obtain ⟨s, hs, heq⟩ := hmem k hk
    have hloaded := hss s hs
    rw [heq, hyarn]
    refine ⟨⟨Numbar.canonical_canonical _, ?_, fun off hoff => ?_⟩,
      Nat.lt_trans hloaded.yarn.2 (by decide)⟩
    · rw [hyarn]
      exact hloaded.yarn.1
    · rcases hoffsets s with h | h
      · exact hloaded.offsets off (h ▸ hoff)
      · rw [h] at hoff
        cases hoff
  · rw [← Array.length_toList, constants_normal hpool, List.length_mapIdx, List.length_map,
      List.length_map]
    exact hcount
  · obtain ⟨s, hs, heq⟩ := hmem k hk
    rw [← StoredConstant.offsets_ofConstant, heq]
    rcases hoffsets s with h | h
    · exact h ▸ (hss s hs).count
    · exact h ▸ Nat.zero_le _

/-- Whatever bytes a chunk was read from, it is written, and its written form is read as the chunk
with canonical numbers; this one is written in the same form again. -/
theorem encode_of_decode {data : Text} (hsize : data.length < 2 ^ 63) (h : decode data = .ok c) :
    ∃ data', c.encode = .ok data' ∧ decode data' = .ok c.normal ∧ c.normal.encode = .ok data' := by
  obtain ⟨hloaded, hfault⟩ := loaded_of_decode hsize h
  obtain ⟨hkept, hfits⟩ := hloaded.kept_normal hfault
  have hnormal : c.normal.fault? = none := (fault?_normal c).trans hfault
  have hrefilled := refilled_normal hloaded
  obtain ⟨data', hencode, hdecode⟩ :=
    hkept.decode_encode hnormal (hrefilled.symm ▸ hnormal) (hkept.readable hfits)
  rw [hrefilled] at hdecode
  exact ⟨data', (encode_normal c).symm.trans hencode, hdecode, hencode⟩

/-- A map without a length that has a long key, code in pieces, an entry of no use and one that comes
too late; a negative zero with a text to spare, and a NaN. -/
def looseData : Text :=
  marker ++ [0x00, 0x01, 0xBF, 0x18, 0x01, 0x5F, 0x41, 0xFF, 0xFF, 0x02, 0x81, 0x83, 0x00, 0x19, 0x00,
    0x01, 0x00, 0x03, 0x82, 0xA3, 0x01, 0x03, 0x04, 0xFA, 0x80, 0x00, 0x00, 0x00, 0x05, 0x61, 0x78,
    0xA2, 0x01, 0x18, 0x03, 0x04, 0xFB, 0x7F, 0xF8, 0x00, 0x00, 0x00, 0x00, 0x00, 0x07, 0x09, 0xF6,
    0x01, 0x40, 0xFF]

theorem encode_of_decode_loose :
    looseData.length < 2 ^ 63 ∧ ∃ c data', decode looseData = .ok c ∧
      c.pool.constants = #[⟨.numbar (.ofMagnitude true 0), { yarn := "x" }⟩,
        ⟨.numbar ⟨0x7FF8000000000007⟩, {}⟩] ∧
      c.encode = .ok data' ∧ decode data' = .ok c.normal ∧ c.normal.encode = .ok data' := by
  obtain ⟨c, hdecode, hgood⟩ : ∃ c, decode looseData = .ok c ∧
      decide (c.pool.constants = #[⟨.numbar (.ofMagnitude true 0), { yarn := "x" }⟩,
        ⟨.numbar ⟨0x7FF8000000000007⟩, {}⟩]) = true :=
    exists_of_toOption_any (by decide +kernel)
  have hconstants := of_decide_eq_true hgood
  obtain ⟨data', hencode, hdecode', hagain⟩ := encode_of_decode (by decide) hdecode
  exact ⟨by decide, c, data', hdecode, hconstants, hencode, hdecode', hagain⟩

end Chunk
end LolToolchain
