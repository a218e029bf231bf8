import LolToolchain.Proofs.Bytecode.Storage

/-!
Writing a chunk and reading it back. A chunk and its canonical form are written alike, and the
canonical form is read back as it was; so any chunk of the right shape comes back with its numbers
in canonical form.
-/
namespace LolToolchain

namespace Numbar

theorem canonical_of_not_isZero {x : Numbar} (h : ¬x.isZero = true) : x.canonical = x.quiet :=
  if_neg h

theorem isZero_quiet (x : Numbar) : x.quiet.isZero = x.isZero := by
  by_cases h : x.isNaN = true
  · have hzero : x.isZero = false := beq_eq_false_iff_ne.2 fun heq => by
      rw [isNaN, heq] at h
      cases h
    rw [quiet, if_pos h, hzero]
    rfl
  · rw [quiet, if_neg h]

theorem isZero_canonical (x : Numbar) : x.canonical.isZero = x.isZero := by
  by_cases h : x.isZero = true
  · rw [canonical, if_pos h, h]
    rfl
  · rw [canonical_of_not_isZero h, isZero_quiet]

theorem canonical_canonical (x : Numbar) : x.canonical.canonical = x.canonical := by
  by_cases h : x.isZero = true
  · rw [canonical, canonical, if_pos h]
    rfl
  · rw [canonical_of_not_isZero h, canonical, isZero_quiet, if_neg h, quiet_quiet]

private theorem eq_of_isZero {x : Numbar} (h : x.isZero = true) : x = .zero ∨ x = .ofMagnitude true 0 := by
  have hmagnitude : x.magnitude = 0 := eq_of_beq h
  have hx := x.ofMagnitude_magnitude
  rw [hmagnitude] at hx
  cases hsign : x.isNegative with
  | false =>
    rw [hsign] at hx
    exact .inl hx.symm
  | true =>
    rw [hsign] at hx
    exact .inr hx.symm

/-- Only the negative zero and NaNs are not canonical. -/
theorem canonical_eq_self {x : Numbar} (hzero : x ≠ .ofMagnitude true 0) (hnan : x.isNaN = false) :
    x.canonical = x := by
  by_cases h : x.isZero = true
  · rw [canonical, if_pos h]
    exact ((eq_of_isZero h).resolve_right hzero).symm
  · rw [canonical_of_not_isZero h, quiet, hnan, if_neg Bool.false_ne_true]

end Numbar

/-- The value as it is read back. -/
def Value.canonical : Value → Value
  | .numbar x => .numbar x.canonical
  | v => v

/-- The constant as it is read back. -/
def Constant.canonical (k : Constant) : Constant :=
  { k with value := k.value.canonical }

/-- The constant with the numbers in all of its fields as they are read back. -/
def Constant.normal (k : Constant) : Constant :=
  ⟨k.value.canonical, { k.spare with numbar := k.spare.numbar.canonical }⟩

theorem Constant.normal_eq_canonical {k : Constant} (h : k.spare = {}) : k.normal = k.canonical := by
  cases k
  subst h
  rfl

/-- The chunk with the constants as they are read back. -/
def Chunk.canonical (c : Chunk) : Chunk :=
  { c with pool :=
    { c.pool with constants := (c.pool.constants.toList.map Constant.canonical).toArray } }

/-- The chunk with the numbers in all fields of its constants as they are read back. -/
def Chunk.normal (c : Chunk) : Chunk :=
  { c with pool :=
    { c.pool with constants := (c.pool.constants.toList.map Constant.normal).toArray } }

namespace Cbor

theorem encodeAll_map_congr {α : Type} {f g : α → Cbor} {xs : List α}
    (h : ∀ x ∈ xs, (f x).encode = (g x).encode) : encodeAll (xs.map f) = encodeAll (xs.map g) := by
  induction xs with
  | nil => rfl
  | cons x xs ih =>
    obtain ⟨hx, hxs⟩ := List.forall_mem_cons.1 h
    rw [List.map_cons, List.map_cons, encodeAll, encodeAll, hx, ih hxs]

theorem encode_array_congr {α β : Type} {f : α → Cbor} {g : β → Cbor} {xs : List α} {ys : List β}
    (hlength : xs.length = ys.length) (h : encodeAll (xs.map f) = encodeAll (ys.map g)) :
    (array (xs.map f)).encode = (array (ys.map g)).encode := by
  rw [encode, encode, h, List.length_map, List.length_map, hlength]

/-- Maps whose values are written alike are written alike. -/
theorem encode_ofFields_congr (pre : List (Nat × Cbor)) {post : List (Nat × Cbor)} {n : Nat}
    {x y : Cbor} (h : x.encode = y.encode) :
    (ofFields (pre ++ (n, x) :: post)).encode = (ofFields (pre ++ (n, y) :: post)).encode := by
  rw [ofFields, ofFields, encode, encode, List.length_map, List.length_map, List.length_append,
    List.length_append]
  congr 1
  induction pre with
  | nil =>
    simp only [List.nil_append, List.map_cons, encodeEntries]
    rw [h]
  | cons f pre ih =>
    simp only [List.cons_append, List.map_cons, encodeEntries]
    rw [ih]

end Cbor

namespace StoredConstant

/-- The fields with the number as it is read back. -/
def canonical (s : StoredConstant) : StoredConstant :=
  { s with numbar := s.numbar.canonical }

private theorem encode_canonical (s : StoredConstant) : s.canonical.toCbor.encode = s.toCbor.encode := by
  by_cases hzero : s.numbar.isZero = true
  · have hentry (x : Cbor) : entry 4 s.numbar.isZero x = [] := by rw [entry, if_pos hzero]
    rw [toCbor, toCbor, canonical]
    simp only [Numbar.isZero_canonical, hentry]
  · have hfields (x : Numbar) (hx : ¬x.isZero = true) :
        fields { s with numbar := x } =
          ((1, .nat s.kind.toNat) :: Cbor.optional 2 (!s.troof) (.ofBool s.troof)
            ++ Cbor.optional 3 (s.numbr == 0) (.ofInt s.numbr.toInt))
          ++ (4, .float x)
            :: (Cbor.optional 5 s.yarn.isEmpty (.ofText s.yarn)
              ++ Cbor.optional 6 s.offsets.isEmpty (.array (s.offsets.map Cbor.ofInt))) := by
      have hoptional : Cbor.optional 4 x.isZero (.float x) = [(4, .float x)] := if_neg hx
      rw [fields, hoptional]
      simp only [List.append_assoc, List.cons_append, List.nil_append]
    have hcanonical : ¬s.numbar.canonical.isZero = true := by
      rwa [Numbar.isZero_canonical]
    have hfloat : (Cbor.float s.numbar.canonical).encode = (Cbor.float s.numbar).encode := by
      rw [Cbor.encode, Cbor.encode, Numbar.canonical_of_not_isZero hzero, Numbar.encodeFloat_quiet]
    rw [toCbor_eq, toCbor_eq, canonical, hfields _ hcanonical, hfields s.numbar hzero]
    exact Cbor.encode_ofFields_congr _ hfloat

theorem ofConstant_normal (k : Constant) : ofConstant k.normal = (ofConstant k).canonical := by
  obtain ⟨v, spare⟩ := k
  cases v with
  | interp t => cases t <;> rfl
  | _ => rfl

end StoredConstant

namespace Chunk

variable {c : Chunk}

private theorem constantsFault?_normal (ks : List Constant) :
    ∀ place, constantsFault? place (ks.map Constant.normal) = constantsFault? place ks := by
  induction ks with
  | nil => exact fun _ => rfl
  | cons k ks ih =>
    intro place
    have hvalue : k.normal.value = k.value.canonical := rfl
    have hfault : constantFault? place k.value.canonical = constantFault? place k.value := by
      cases k.value <;> rfl
    rw [List.map_cons, constantsFault?, constantsFault?, ih, hvalue, hfault]

theorem fault?_normal (c : Chunk) : c.normal.fault? = c.fault? := by
  have hconstants := constantsFault?_normal c.pool.constants.toList 0
  rw [fault?, fault?, ← hconstants]
  rfl

/-- A chunk and its normal form are written alike. -/
theorem encode_normal (c : Chunk) : c.normal.encode = c.encode := by
  have hconstants : (Cbor.array (c.normal.pool.constants.toList.map fun k =>
        (StoredConstant.ofConstant k).toCbor)).encode =
      (Cbor.array (c.pool.constants.toList.map fun k =>
        (StoredConstant.ofConstant k).toCbor)).encode := by
    refine Cbor.encode_array_congr (List.length_map _) ?_
    change Cbor.encodeAll ((c.pool.constants.toList.map Constant.normal).map _) = _
    rw [List.map_map]
    refine Cbor.encodeAll_map_congr fun k _ => ?_
    change (StoredConstant.ofConstant k.normal).toCbor.encode = _
    rw [StoredConstant.ofConstant_normal, StoredConstant.encode_canonical]
  have hcbor : c.normal.toCbor.encode = c.toCbor.encode := by
    rw [toCbor_eq, toCbor_eq]
    exact Cbor.encode_ofFields_congr [_, _] hconstants
  rw [encode, encode, fault?_normal, hcbor]

/-- A chunk without spare fields and its canonical form are written alike. -/
theorem encode_canonical (h : ∀ k ∈ c.pool.constants.toList, k.spare = {}) :
    c.canonical.encode = c.encode := by
  have hconstants : c.pool.constants.toList.map Constant.normal =
      c.pool.constants.toList.map Constant.canonical :=
    List.map_congr_left fun k hk => Constant.normal_eq_canonical (h k hk)
  have hnormal : c.normal = c.canonical := by rw [normal, canonical, hconstants]
  rw [← hnormal, encode_normal]

end Chunk

/-- The text of a constant. -/
def Value.texts : Value → List Text
  | .yarn t => [t]
  | .interp (some t) => [t.text]
  | _ => []

private theorem Chunk.constantFault?_of_mem {k : Constant} : ∀ {ks : List Constant} {place : Nat},
    constantsFault? place ks = none → k ∈ ks → ∃ i, constantFault? i k.value = none
  | [], _, _, hk => absurd hk List.not_mem_nil
  | x :: xs, place, h, hk => by
    rw [constantsFault?] at h
    split at h
    · cases h
    · rename_i hx
      rcases List.mem_cons.1 hk with rfl | hk
      · exact ⟨place, hx⟩
      · exact constantFault?_of_mem h hk

/-- A chunk of the right shape has a span for each byte of code, and nothing is wrong with its
constants. -/
theorem Chunk.of_fault?_eq_none {c : Chunk} (h : c.fault? = none) :
    c.positions.size = c.code.size ∧
      ∀ k ∈ c.pool.constants.toList, ∃ i, constantFault? i k.value = none := by
  rw [fault?] at h
  split at h
  · cases h
  · exact ⟨Decidable.not_not.1 (by assumption), fun k hk => constantFault?_of_mem h hk⟩

private theorem Value.storable_canonical {v : Value} {place : Nat}
    (hfault : Chunk.constantFault? place v = none) (htexts : ∀ t ∈ v.texts, t.Storable) :
    v.canonical.Storable := by
  cases v with
  | numbar x => exact x.canonical_canonical
  | yarn t => exact htexts t List.mem_cons_self
  | interp t =>
    cases t with
    | none => cases hfault
    | some t => exact ⟨htexts t.text List.mem_cons_self, Option.map_eq_none_iff.1 hfault⟩
  | bukkit r | unknown k => cases hfault
  | _ => trivial

namespace Chunk

/-- A chunk that can be written: its shape is right, no constant has spare fields, its spans are
pairs of machine integers, and its texts are well-formed. A chunk without code has no code bytes. -/
structure Encodable (c : Chunk) : Prop where
  shape : c.fault? = none
  coded : c.coded = false → c.code = #[]
  spare : ∀ k ∈ c.pool.constants.toList, k.spare = {}
  spans : ∀ s ∈ c.positions.toList, s.Storable
  texts : ∀ k ∈ c.pool.constants.toList, ∀ t ∈ k.value.texts, t.Storable
  names : ∀ n ∈ c.names, n.Storable

variable {c : Chunk}

private theorem Encodable.storable_canonical (h : c.Encodable) : c.canonical.Storable where
  coded := h.coded
  aligned := (of_fault?_eq_none h.shape).1
  spare k hk := by
    obtain ⟨k', hk', rfl⟩ := List.mem_map.1 hk
    exact h.spare k' hk'
  spans := h.spans
  constants k hk := by
    obtain ⟨k', hk', rfl⟩ := List.mem_map.1 hk
    obtain ⟨place, hplace⟩ := (of_fault?_eq_none h.shape).2 k' hk'
    exact Value.storable_canonical hplace (h.texts k' hk')
  names := h.names

private theorem Fits.canonical (h : c.Fits) : c.canonical.Fits where
  positions := h.positions
  constants := by
    have hsize : c.canonical.pool.constants.size = c.pool.constants.size := by
      simp [Chunk.canonical]
    exact hsize ▸ h.constants
  offsets k hk := by
    obtain ⟨k', hk', rfl⟩ := List.mem_map.1 hk
    have hoffsets : k'.canonical.value.offsets = k'.value.offsets := by
      obtain ⟨v, spare⟩ := k'
      cases v <;> rfl
    exact hoffsets ▸ h.offsets k' hk'
  names := h.names

/-- A chunk of the right shape is written and read back: code, spans and names come back as they
were, and so do the constants in their order, but for the sign of a zero and the bits of a NaN. A
template that is read is told apart by its place. -/
theorem decode_encode_canonical (h : c.Encodable) (hfits : c.Fits) :
    ∃ data c', c.encode = .ok data ∧ decode data = .ok c' ∧ c'.code = c.code ∧
      c'.coded = c.coded ∧ c'.positions = c.positions ∧ c'.names = c.names ∧
      c'.pool.constants.toList =
        c.pool.constants.toList.mapIdx fun i k => ⟨k.value.canonical.retag i, {}⟩ := by
  have hstorable := h.storable_canonical
  obtain ⟨data, hencode, hdecode⟩ :=
    decode_encode hstorable (readable_of_fits hstorable hfits.canonical)
  refine ⟨data, c.canonical.reloaded, ?_, hdecode, rfl, rfl, rfl, rfl, ?_⟩
  · rw [← encode_canonical h.spare, hencode]
  · change c.canonical.pool.reloaded.constants.toList = _
    rw [Pool.constants_reloaded]
    change List.mapIdx _ (c.pool.constants.toList.map Constant.canonical) = _
    refine List.ext_getElem? fun i => ?_
    rw [List.getElem?_mapIdx, List.getElem?_mapIdx, List.getElem?_map, Option.map_map]
    cases hk : c.pool.constants.toList[i]? with
    | none => rfl
    | some k =>
      have hspare := h.spare k (List.mem_of_getElem? hk)
      cases k
      subst hspare
      rfl

/-- A chunk with a constant of each form that is changed or told apart. -/
def sampleChunk : Chunk where
  code := #[0, 1]
  coded := true
  positions := #[⟨0, 3, 0⟩, ⟨3, 7, 0⟩]
  pool := ⟨#[⟨.numbar (.ofMagnitude true 0), {}⟩, ⟨.numbar .nan, {}⟩, ⟨.yarn [0x68, 0x69], {}⟩,
    ⟨.interp (some ⟨[0x68, 0x69], [0, 2], 9⟩), {}⟩], [], false⟩
  names := [[0x78]]

/-- A negative zero loses its sign, a NaN its bits, and a template its tag. -/
theorem decode_encode_canonical_sample :
    ∃ data c', sampleChunk.encode = .ok data ∧ decode data = .ok c' ∧
      c'.pool.constants.toList = [⟨.numbar .zero, {}⟩, ⟨.numbar ⟨0x7FF8000000000000⟩, {}⟩,
        ⟨.yarn [0x68, 0x69], {}⟩, ⟨.interp (some ⟨[0x68, 0x69], [0, 2], 3⟩), {}⟩] := by
  have hstorable : Text.Storable [0x68, 0x69] := ⟨by decide, by decide⟩
  have hencodable : sampleChunk.Encodable :=
    { shape := by decide
      coded := nofun
      spare := by decide
      spans := by
        refine List.forall_mem_cons.2 ⟨?_, List.forall_mem_singleton.2 ?_⟩ <;>
          exact ⟨by decide, by decide, by decide⟩
      texts := by
        refine List.forall_mem_cons.2 ⟨nofun, List.forall_mem_cons.2 ⟨nofun,
          List.forall_mem_cons.2 ⟨?_, List.forall_mem_singleton.2 ?_⟩⟩⟩ <;>
          exact List.forall_mem_singleton.2 hstorable
      names := List.forall_mem_singleton.2 ⟨by decide, by decide⟩ }
  have hfits : sampleChunk.Fits :=
    ⟨by decide, by decide, by decide, by decide⟩
  obtain ⟨data, c', hencode, hdecode, -, -, -, -, hconstants⟩ :=
    decode_encode_canonical hencodable hfits
  exact ⟨data, c', hencode, hdecode, hconstants⟩

end Chunk
end LolToolchain
