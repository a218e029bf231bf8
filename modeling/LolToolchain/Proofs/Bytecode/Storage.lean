import LolToolchain.Bytecode.Stored
import LolToolchain.Proofs.Cbor.Encoding
import LolToolchain.Proofs.Numbar.Basic
import LolToolchain.Proofs.Table

/-!
Stored chunks are read back in canonical form. A number that is a zero is left out of its entry, and
what is left out is read as the positive zero; all NaNs are written as one. Everything else in a
chunk that fits the reader's limits comes back as it was.
-/
namespace LolToolchain

/-- The number as it is read back: a zero has no sign, and there is one NaN. -/
def Numbar.canonical (x : Numbar) : Numbar :=
  if x.isZero then .zero else x.quiet

theorem Numbar.quiet_of_canonical {x : Numbar} (h : x.canonical = x) : x.quiet = x := by
  by_cases hzero : x.isZero = true
  · rw [← h, canonical, if_pos hzero]
    rfl
  · exact (if_neg hzero).symm.trans h

/-- A span whose ends are stored as they are. -/
structure Span.Storable (s : Span) : Prop where
  start : Numbr.least ≤ s.start ∧ s.start ≤ Numbr.greatest
  stop : Numbr.least ≤ s.stop ∧ s.stop ≤ Numbr.greatest
  file : Numbr.least ≤ s.file ∧ s.file ≤ Numbr.greatest

/-- A text that is stored as it is. -/
def Text.Storable (t : Text) : Prop :=
  t.isUtf8 = true ∧ t.length < 2 ^ 63

/-- The places of the parts of a template. -/
def Value.offsets : Value → List Int
  | .interp (some t) => t.offsets
  | _ => []

/-- A value that is read back as it was when it is a stored constant. -/
def Value.Storable : Value → Prop
  | .numbar x => x.canonical = x
  | .yarn t => t.Storable
  | .interp (some t) => t.text.Storable ∧ t.misplaced? = none
  | .interp none | .bukkit _ | .unknown _ => False
  | .noob | .troof _ | .numbr _ | .funkshon _ => True

theorem Value.Storable.retag {v : Value} (h : v.Storable) (i : Nat) : (v.retag i).Storable := by
  cases v with
  | interp t =>
    cases t with
    | none => exact h
    | some t => exact h
  | _ => exact h

namespace Cbor

theorem mapM_map {α β : Type} {f : α → Cbor} {read : Cbor → Option β} {g : α → β} {xs : List α}
    (h : ∀ x ∈ xs, read (f x) = some (g x)) : (xs.map f).mapM read = some (xs.map g) := by
  induction xs with
  | nil => rfl
  | cons x xs ih =>
    obtain ⟨hx, hxs⟩ := List.forall_mem_cons.1 h
    rw [List.map_cons, List.mapM_cons, hx, ih hxs]
    rfl

theorem intIn?_nat {low high : Int} {n : Nat} (h : low ≤ n ∧ n ≤ high) :
    intIn? low high (.nat n) = some (n : Int) := by
  have hread : intIn? low high (.nat n) =
      (some (n : Int)).filter fun m => decide (low ≤ m ∧ m ≤ high) := rfl
  rw [hread, Option.filter_some, if_pos (decide_eq_true h)]

private theorem intIn?_neg {low high : Int} {n : Nat} (hn : n < 0x8000000000000000)
    (h : low ≤ -1 - (n : Int) ∧ -1 - (n : Int) ≤ high) :
    intIn? low high (.neg n) = some (-1 - (n : Int)) := by
  have hread : intIn? low high (.neg n) =
      (negative? n).filter fun m => decide (low ≤ m ∧ m ≤ high) := rfl
  rw [hread, negative?, if_pos hn, Option.filter_some, if_pos (decide_eq_true h)]

theorem int64?_ofInt {n : Int} (h : Numbr.least ≤ n ∧ n ≤ Numbr.greatest) :
    int64? (ofInt n) = some n := by
  cases n with
  | ofNat n => exact intIn?_nat h
  | negSucc n =>
    have heq : -1 - (n : Int) = Int.negSucc n := by omega
    have hleast : Numbr.least = -0x8000000000000000 := rfl
    rw [← heq] at h
    exact (intIn?_neg (by omega) h).trans (congrArg some heq)

theorem byte?_nat (b : UInt8) : byte? (.nat b.toNat) = some b := by
  have hb : b.toNat < 256 := b.toNat_lt
  rw [byte?, intIn?_nat (by omega)]
  exact congrArg some UInt8.ofNat_toNat

theorem string?_ofText {t : Text} (h : t.isUtf8 = true) : string? (ofText t) = some t := by
  change (if [t].all Text.isUtf8 then some [t].flatten else none) = _
  rw [List.all_cons, h, List.flatten_singleton]
  rfl

theorem list?_array {α β : Type} {f : α → Cbor} {read : Cbor → Option β} {g : α → β} {xs : List α}
    (h : ∀ x ∈ xs, read (f x) = some (g x)) :
    list? read (.array (xs.map f)) = some (xs.map g) :=
  mapM_map h

theorem bool?_ofBool (b : Bool) : bool? (ofBool b) = some b := by
  cases b <;> rfl

end Cbor

theorem Span.ofCbor?_toCbor {s : Span} (h : s.Storable) : Span.ofCbor? s.toCbor = some s := by
  change (do return (⟨← Cbor.int64? (.ofInt s.start), ← Cbor.int64? (.ofInt s.stop),
    ← Cbor.int64? (.ofInt s.file)⟩ : Span)) = some s
  rw [Cbor.int64?_ofInt h.start, Cbor.int64?_ofInt h.stop, Cbor.int64?_ofInt h.file]
  rfl

namespace Cbor

/-- The map with numbers as keys. -/
def ofFields (fields : List (Nat × Cbor)) : Cbor :=
  .map (fields.map fun f => (.nat f.1, f.2))

theorem fields?_ofFields (fields : List (Nat × Cbor)) : fields? (ofFields fields) = some fields := by
  have hread : fields? (ofFields fields) = (fields.map fun f => (Cbor.nat f.1, f.2)).mapM
      fun f => (fieldNumber? f.1).map fun n => (n, f.2) := rfl
  rw [hread]
  induction fields with
  | nil => rfl
  | cons f fields ih =>
    rw [List.map_cons, List.mapM_cons, ih rfl]
    rfl

/-- A field that is left out when it says nothing. -/
def optional (n : Nat) (isZero : Bool) (x : Cbor) : List (Nat × Cbor) :=
  if isZero then [] else [(n, x)]

theorem lookup_optional (n m : Nat) (isZero : Bool) (x : Cbor) :
    (optional n isZero x).lookup m =
      if m = n then if isZero then none else some x else none := by
  cases isZero with
  | true => simp [optional]
  | false =>
    by_cases h : m = n
    · simp [optional, h]
    · simp [optional, h, lookup_cons_of_ne h]

/-- A field is read as it was, and as the zero if it was left out. -/
theorem field?_eq {α : Type} {fields : List (Nat × Cbor)} {n : Nat} {isZero : Bool} {x : Cbor}
    {zero a : α} {read : Cbor → Option α}
    (hlookup : fields.lookup n = if isZero then none else some x)
    (hzero : isZero = true → a = zero) (hread : isZero = false → read x = some a) :
    field? fields n zero read = some a := by
  rw [field?, hlookup]
  cases isZero with
  | true => exact congrArg some (hzero rfl).symm
  | false => exact hread rfl

end Cbor

/-- Offsets that are in order lie in the text. -/
theorem Template.offsets_within {size : Nat} : ∀ {previous : Int} {offs : List Int}, 0 ≤ previous →
    misplacedFrom size previous offs = none → ∀ off ∈ offs, 0 ≤ off ∧ off ≤ size
  | _, [], _, _ => fun _ hoff => absurd hoff List.not_mem_nil
  | previous, off :: offs, hprevious, h => by
    rw [misplacedFrom] at h
    split at h
    · cases h
    next hplace =>
      have hoff : 0 ≤ off ∧ off ≤ size := by omega
      exact List.forall_mem_cons.2 ⟨hoff, offsets_within hoff.1 h⟩

namespace StoredConstant

/-- The fields of a stored constant, as far as they are written. -/
def fields (s : StoredConstant) : List (Nat × Cbor) :=
  (1, .nat s.kind.toNat)
    :: Cbor.optional 2 (!s.troof) (.ofBool s.troof)
    ++ Cbor.optional 3 (s.numbr == 0) (.ofInt s.numbr.toInt)
    ++ Cbor.optional 4 s.numbar.isZero (.float s.numbar)
    ++ Cbor.optional 5 s.yarn.isEmpty (.ofText s.yarn)
    ++ Cbor.optional 6 s.offsets.isEmpty (.array (s.offsets.map Cbor.ofInt))

theorem toCbor_eq (s : StoredConstant) : s.toCbor = Cbor.ofFields s.fields := by
  have hentry (n : Nat) (isZero : Bool) (x : Cbor) :
      entry n isZero x = (Cbor.optional n isZero x).map fun f => (.nat f.1, f.2) := by
    cases isZero <;> rfl
  rw [toCbor, hentry, hentry, hentry, hentry, hentry, Cbor.ofFields, fields]
  simp only [List.map_append, List.map_cons]

/-- Fields that are stored as they are. -/
structure Storable (s : StoredConstant) : Prop where
  numbar : s.numbar.canonical = s.numbar
  yarn : s.yarn.isUtf8 = true
  offsets : ∀ off ∈ s.offsets, Numbr.least ≤ off ∧ off ≤ Numbr.greatest

private theorem lookup_fields (s : StoredConstant) :
    s.fields.lookup 1 = some (.nat s.kind.toNat) ∧
    s.fields.lookup 2 = (if !s.troof then none else some (.ofBool s.troof)) ∧
    s.fields.lookup 3 = (if s.numbr == 0 then none else some (.ofInt s.numbr.toInt)) ∧
    s.fields.lookup 4 = (if s.numbar.isZero then none else some (.float s.numbar)) ∧
    s.fields.lookup 5 = (if s.yarn.isEmpty then none else some (.ofText s.yarn)) ∧
    s.fields.lookup 6 =
      (if s.offsets.isEmpty then none else some (.array (s.offsets.map Cbor.ofInt))) := by
  refine ⟨rfl, ?_, ?_, ?_, ?_, ?_⟩ <;>
    simp [fields, List.lookup_append, List.lookup_cons, Cbor.lookup_optional]

/-- Stored fields are read as they were. -/
theorem ofCbor?_toCbor {s : StoredConstant} (h : s.Storable) : ofCbor? s.toCbor = some s := by
  obtain ⟨h1, h2, h3, h4, h5, h6⟩ := s.lookup_fields
  have hkind : Cbor.field? s.fields 1 0 Cbor.byte? = some s.kind := by
    rw [Cbor.field?, h1]
    exact Cbor.byte?_nat s.kind
  have htroof : Cbor.field? s.fields 2 false Cbor.bool? = some s.troof :=
    Cbor.field?_eq h2 (fun hz => by simpa using hz) fun _ => Cbor.bool?_ofBool s.troof
  have hnumbr : Cbor.field? s.fields 3 0 Cbor.int64? = some s.numbr.toInt := by
    refine Cbor.field?_eq h3 (fun hz => ?_) fun _ => Cbor.int64?_ofInt ?_
    · rw [eq_of_beq hz]
      rfl
    · exact ⟨s.numbr.le_toInt, Int.le_of_lt_add_one s.numbr.toInt_lt⟩
  have hnumbar : Cbor.field? s.fields 4 Numbar.zero Cbor.float? = some s.numbar :=
    Cbor.field?_eq h4 (fun hz => h.numbar.symm.trans (if_pos hz)) fun _ => rfl
  have hyarn : Cbor.field? s.fields 5 [] Cbor.string? = some s.yarn :=
    Cbor.field?_eq h5 (fun hz => List.isEmpty_iff.1 hz) fun _ => Cbor.string?_ofText h.yarn
  have hoffsets : Cbor.field? s.fields 6 [] (Cbor.list? Cbor.int64?) = some s.offsets := by
    refine Cbor.field?_eq h6 (fun hz => List.isEmpty_iff.1 hz) fun _ => ?_
    have hlist := Cbor.list?_array (g := id) fun off hoff => Cbor.int64?_ofInt (h.offsets off hoff)
    rwa [List.map_id] at hlist
  rw [ofCbor?, toCbor_eq, Cbor.fields?_ofFields]
  change (do return (StoredConstant.mk (← Cbor.field? s.fields 1 0 Cbor.byte?)
    (← Cbor.field? s.fields 2 false Cbor.bool?)
    (Int64.ofInt (← Cbor.field? s.fields 3 0 Cbor.int64?))
    (← Cbor.field? s.fields 4 Numbar.zero Cbor.float?) (← Cbor.field? s.fields 5 [] Cbor.string?)
    (← Cbor.field? s.fields 6 [] (Cbor.list? Cbor.int64?)))) = _
  rw [hkind, htroof, hnumbr, hnumbar, hyarn, hoffsets]
  exact congrArg (fun n => some (StoredConstant.mk _ _ n _ _ _)) (Int64.ofInt_toInt s.numbr)

/-- The stored form of a constant that is alone in its fields. -/
theorem storable_ofConstant {v : Value} (h : v.Storable) : (ofConstant ⟨v, {}⟩).Storable := by
  cases v with
  | numbar x => exact ⟨h, rfl, fun off hoff => absurd hoff List.not_mem_nil⟩
  | yarn t => exact ⟨rfl, h.1, fun off hoff => absurd hoff List.not_mem_nil⟩
  | interp t =>
    cases t with
    | none => exact h.elim
    | some t =>
      refine ⟨rfl, h.1.1, fun off hoff => ?_⟩
      have hwithin := Template.offsets_within (Int.le_refl 0) h.2 off hoff
      have hlength : t.text.length < 2 ^ 63 := h.1.2
      have hleast : Numbr.least = -0x8000000000000000 := rfl
      have hgreatest : Numbr.greatest = 0x7FFFFFFFFFFFFFFF := rfl
      omega
  | bukkit r => exact h.elim
  | unknown k => exact h.elim
  | _ => exact ⟨rfl, rfl, fun off hoff => absurd hoff List.not_mem_nil⟩

theorem offsets_ofConstant (k : Constant) : (ofConstant k).offsets = k.value.offsets := by
  obtain ⟨v, spare⟩ := k
  cases v with
  | interp t => cases t <;> rfl
  | _ => rfl

theorem length_yarn_ofConstant {v : Value} (h : v.Storable) :
    (ofConstant ⟨v, {}⟩).yarn.length < 2 ^ 64 := by
  cases v with
  | yarn t => exact Nat.lt_trans h.2 (by decide)
  | interp t =>
    cases t with
    | none => exact h.elim
    | some t => exact Nat.lt_trans h.1.2 (by decide)
  | _ => exact Nat.two_pow_pos 64

theorem toConstant_ofConstant {v : Value} (h : v.Storable) :
    (ofConstant ⟨v, {}⟩).toConstant = ⟨v.retag 0, {}⟩ := by
  cases v with
  | interp t =>
    cases t with
    | none => exact h.elim
    | some t => rfl
  | bukkit r => exact h.elim
  | unknown k => exact h.elim
  | _ => rfl

end StoredConstant

theorem Value.retag_retag (i j : Nat) (v : Value) : (v.retag i).retag j = v.retag j := by
  cases v with
  | interp t => cases t <;> rfl
  | _ => rfl

namespace Pool

/-- A pool as it is filled by sharing alone: all constants can be found, none has spare fields, and
templates are told apart by their place. -/
structure Shared (p : Pool) : Prop where
  indexed : p.indexed = true
  hidden : p.hidden = []
  spare : ∀ k ∈ p.constants.toList, k.spare = {}
  tagged : ∀ (i : Nat) (k : Constant), p.constants.toList[i]? = some k → k.value.retag i = k.value

/-- The pool that is filled anew with the same values. -/
def reloaded (p : Pool) : Pool :=
  ofList (p.constants.toList.map fun k => ⟨k.value.retag 0, {}⟩)

theorem foldl_push (ks : List Constant) : ∀ p : Pool, p.indexed = false → p.hidden = [] →
    ks.foldl push p = ⟨p.constants ++ ((ks.zipIdx p.size).map fun k =>
      { k.1 with value := k.1.value.retag k.2 }), [], false⟩ := by
  induction ks with
  | nil =>
    intro p hindexed hhidden
    cases p
    subst hindexed hhidden
    simp
  | cons k ks ih =>
    intro p hindexed hhidden
    have hsize : (p.push k).size = p.size + 1 := Array.size_push _
    rw [List.foldl_cons, ih (p.push k) hindexed (by simp [push, hindexed, hhidden]), hsize]
    simp [push]

/-- The constants of a pool that is filled from a list: templates are told apart by their place. -/
theorem constants_ofList (ks : List Constant) : (ofList ks).constants.toList =
    ks.mapIdx fun i k => { k with value := k.value.retag i } := by
  rw [ofList, foldl_push _ _ rfl rfl]
  simp only [unindexed, Array.toList_appendList, List.nil_append]
  refine List.ext_getElem? fun i => ?_
  rw [List.getElem?_map, List.getElem?_zipIdx, List.getElem?_mapIdx]
  cases ks[i]? with
  | none => rfl
  | some k => simp [size]

theorem ofList_eq (ks : List Constant) : ofList ks = ⟨(ofList ks).constants, [], true⟩ := by
  rw [ofList, foldl_push _ _ rfl rfl]

theorem constants_reloaded (p : Pool) : p.reloaded.constants.toList =
    p.constants.toList.mapIdx fun i k => ⟨k.value.retag i, {}⟩ := by
  rw [reloaded, constants_ofList]
  refine List.ext_getElem? fun i => ?_
  rw [List.getElem?_mapIdx, List.getElem?_mapIdx, List.getElem?_map]
  cases p.constants.toList[i]? with
  | none => rfl
  | some k => simp [Value.retag_retag]

/-- A pool that is filled by sharing is the same when it is filled anew. -/
theorem Shared.reloaded_eq {p : Pool} (h : p.Shared) : p.reloaded = p := by
  have hconstants : p.reloaded.constants = p.constants := by
    refine Array.ext' (p.constants_reloaded.trans (List.ext_getElem? fun i => ?_))
    rw [List.getElem?_mapIdx]
    cases hk : p.constants.toList[i]? with
    | none => rfl
    | some k =>
      have hvalue := h.tagged i k hk
      have hzero : k.spare = {} := h.spare k (List.mem_of_getElem? hk)
      rw [Option.map_some, hvalue, ← hzero]
  have hreloaded : p.reloaded = ⟨p.reloaded.constants, [], true⟩ := ofList_eq _
  rw [hreloaded, hconstants, ← h.indexed, ← h.hidden]

end Pool

namespace Chunk

/-- The chunk with its pool filled anew. -/
def reloaded (c : Chunk) : Chunk :=
  { c with pool := c.pool.reloaded }

/-- A chunk that is read back as it was. -/
structure Storable (c : Chunk) : Prop where
  coded : c.coded = false → c.code = #[]
  aligned : c.positions.size = c.code.size
  spare : ∀ k ∈ c.pool.constants.toList, k.spare = {}
  spans : ∀ s ∈ c.positions.toList, s.Storable
  constants : ∀ k ∈ c.pool.constants.toList, k.value.Storable
  names : ∀ n ∈ c.names, n.Storable

/-- The fields of a stored chunk. -/
def fields (c : Chunk) : List (Nat × Cbor) :=
  [(1, if c.coded then Cbor.bytes c.code.toList else Cbor.null),
    (2, Cbor.array (c.positions.toList.map Span.toCbor)),
    (3, Cbor.array (c.pool.constants.toList.map fun k => (StoredConstant.ofConstant k).toCbor))]
    ++ Cbor.optional 4 c.names.isEmpty (.array (c.names.map Cbor.ofText))

variable {c : Chunk}

theorem toCbor_eq (c : Chunk) : c.toCbor = Cbor.ofFields c.fields := by
  rw [toCbor, Cbor.ofFields, fields]
  cases c.names.isEmpty <;> rfl

/-- A chunk of which each part is read as it is written. Constants may have spare fields. -/
structure Kept (c : Chunk) : Prop where
  coded : c.coded = false → c.code = #[]
  aligned : c.positions.size = c.code.size
  spans : ∀ s ∈ c.positions.toList, s.Storable
  constants : ∀ k ∈ c.pool.constants.toList, (StoredConstant.ofConstant k).Storable ∧
    (StoredConstant.ofConstant k).yarn.length < 2 ^ 64
  names : ∀ n ∈ c.names, n.Storable

/-- The chunk with the constants that are read from their stored fields. -/
def refilled (c : Chunk) : Chunk :=
  { c with pool :=
    .ofList (c.pool.constants.toList.map fun k => (StoredConstant.ofConstant k).toConstant) }

theorem Storable.kept (h : c.Storable) : c.Kept where
  coded := h.coded
  aligned := h.aligned
  spans := h.spans
  constants k hk := by
    have hspare := h.spare k hk
    have hvalue := h.constants k hk
    cases k
    subst hspare
    exact ⟨StoredConstant.storable_ofConstant hvalue, StoredConstant.length_yarn_ofConstant hvalue⟩
  names := h.names

theorem Storable.refilled_eq (h : c.Storable) : c.refilled = c.reloaded := by
  rw [refilled, reloaded, Pool.reloaded]
  congr 2
  refine List.map_congr_left fun k hk => ?_
  have hspare := h.spare k hk
  have hvalue := h.constants k hk
  cases k
  subst hspare
  exact StoredConstant.toConstant_ofConstant hvalue

private theorem Kept.ofCbor?_toCbor (h : c.Kept) : ofCbor? c.toCbor = some c.refilled := by
  have hcode : Cbor.field? c.fields 1 none Cbor.code? =
      some (if c.coded then some c.code.toList else none) := by
    have hlookup : c.fields.lookup 1 = some (if c.coded then .bytes c.code.toList else .null) := rfl
    rw [Cbor.field?, hlookup]
    cases c.coded <;> rfl
  have hpositions : Cbor.field? c.fields 2 [] (Cbor.list? Span.ofCbor?) =
      some c.positions.toList := by
    have hlist := Cbor.list?_array (g := id) fun s hs => Span.ofCbor?_toCbor (h.spans s hs)
    rwa [List.map_id] at hlist
  have hconstants : Cbor.field? c.fields 3 [] (Cbor.list? StoredConstant.ofCbor?) =
      some (c.pool.constants.toList.map StoredConstant.ofConstant) :=
    Cbor.list?_array fun k hk => StoredConstant.ofCbor?_toCbor (h.constants k hk).1
  have hnames : Cbor.field? c.fields 4 [] (Cbor.list? Cbor.string?) = some c.names := by
    have hlookup : c.fields.lookup 4 =
        if c.names.isEmpty then none else some (.array (c.names.map Cbor.ofText)) := by
      simp [fields, List.lookup_cons, Cbor.lookup_optional]
    refine Cbor.field?_eq hlookup List.isEmpty_iff.1 fun _ => ?_
    have hlist := Cbor.list?_array (g := id) fun n hn => Cbor.string?_ofText (h.names n hn).1
    rwa [List.map_id] at hlist
  rw [ofCbor?, toCbor_eq, Cbor.fields?_ofFields]
  change (do
    let code ← Cbor.field? c.fields 1 none Cbor.code?
    let positions ← Cbor.field? c.fields 2 [] (Cbor.list? Span.ofCbor?)
    let constants ← Cbor.field? c.fields 3 [] (Cbor.list? StoredConstant.ofCbor?)
    let names ← Cbor.field? c.fields 4 [] (Cbor.list? Cbor.string?)
    return Chunk.mk (code.getD []).toArray code.isSome positions.toArray
      (.ofList (constants.map StoredConstant.toConstant)) names) = _
  rw [hcode, hpositions, hconstants, hnames]
  change some (Chunk.mk _ _ c.positions (.ofList (List.map _ (List.map _ _))) c.names) = _
  rw [List.map_map, refilled]
  cases hcoded : c.coded with
  | true => rfl
  | false => rw [h.coded hcoded]; rfl

/-- The reader of items takes back what is written of the chunk. -/
def Readable (c : Chunk) : Prop :=
  Cbor.decode? c.toCbor.encode = some c.toCbor

theorem constantsFault?_eq_none {ks : List Constant} (h : ∀ k ∈ ks, k.value.Storable) :
    ∀ place, constantsFault? place ks = none := by
  induction ks with
  | nil => exact fun _ => rfl
  | cons k ks ih =>
    intro place
    obtain ⟨hk, hks⟩ := List.forall_mem_cons.1 h
    have hfault : constantFault? place k.value = none := by
      cases hv : k.value with
      | interp t =>
        rw [hv] at hk
        cases t with
        | none => exact hk.elim
        | some t => exact congrArg (Option.map _) hk.2
      | bukkit r => exact (hv ▸ hk : Value.Storable (.bukkit r)).elim
      | unknown n => exact (hv ▸ hk : Value.Storable (.unknown n)).elim
      | _ => rfl
    rw [constantsFault?, hfault]
    exact ih hks _

private theorem Storable.fault?_eq_none (h : c.Storable) : c.fault? = none := by
  rw [fault?, if_neg (not_not_intro h.aligned)]
  exact constantsFault?_eq_none h.constants 0

private theorem Storable.fault?_reloaded (h : c.Storable) : c.reloaded.fault? = none := by
  have haligned : c.reloaded.positions.size = c.reloaded.code.size := h.aligned
  rw [fault?, if_neg (not_not_intro haligned)]
  refine constantsFault?_eq_none (fun k hk => ?_) 0
  change k ∈ c.pool.reloaded.constants.toList at hk
  rw [Pool.constants_reloaded] at hk
  obtain ⟨i, hi, rfl⟩ := List.mem_mapIdx.1 hk
  exact (h.constants _ (List.getElem_mem hi)).retag i

/-- A chunk whose parts are kept is read back with the constants of its stored fields. -/
theorem Kept.decode_encode (h : c.Kept) (hfault : c.fault? = none)
    (hrefilled : c.refilled.fault? = none) (hreadable : c.Readable) :
    ∃ data, c.encode = .ok data ∧ decode data = .ok c.refilled := by
  refine ⟨marker ++ Cbor.bigEndian 2 formatVersion ++ c.toCbor.encode, ?_, ?_⟩
  · rw [encode, hfault]
  · rw [List.append_assoc, decode]
    have hencoded : isEncoded (marker ++ (Cbor.bigEndian 2 formatVersion ++ c.toCbor.encode)) =
        true := List.isPrefixOf_iff_prefix.2 (List.prefix_append _ _)
    have hlength : ¬(marker ++ (Cbor.bigEndian 2 formatVersion ++ c.toCbor.encode)).length <
        marker.length + 2 := by
      simp only [List.length_append, Cbor.length_bigEndian]
      omega
    have hversion : Cbor.ofBigEndian ((Cbor.bigEndian 2 formatVersion ++ c.toCbor.encode).take 2) =
        formatVersion := rfl
    have hdrop : (Cbor.bigEndian 2 formatVersion ++ c.toCbor.encode).drop 2 = c.toCbor.encode := rfl
    have hread : (Cbor.decode? c.toCbor.encode).bind ofCbor? = some c.refilled := by
      rw [hreadable]
      exact h.ofCbor?_toCbor
    simp only [hencoded, hlength, List.drop_left, hversion, hdrop, hread, hrefilled]
    rfl

/-- A stored chunk is read back as it was. -/
theorem decode_encode (h : c.Storable) (hreadable : c.Readable) :
    ∃ data, c.encode = .ok data ∧ decode data = .ok c.reloaded := by
  have hdecode := h.kept.decode_encode h.fault?_eq_none (h.refilled_eq ▸ h.fault?_reloaded) hreadable
  rwa [h.refilled_eq] at hdecode

end Chunk

namespace Cbor

theorem plainAll_map {α : Type} {f : α → Cbor} {depth : Nat} {xs : List α}
    (h : ∀ x ∈ xs, (f x).Plain depth) : PlainAll depth (xs.map f) := by
  induction xs with
  | nil => trivial
  | cons x xs ih =>
    obtain ⟨hx, hxs⟩ := List.forall_mem_cons.1 h
    exact ⟨hx, ih hxs⟩

theorem plain_nat {n : Nat} (h : n < 2 ^ 64) (depth : Nat) : (Cbor.nat n).Plain depth := by
  cases depth <;> exact h

theorem plain_ofInt {n : Int} (h : Numbr.least ≤ n ∧ n ≤ Numbr.greatest) (depth : Nat) :
    (ofInt n).Plain depth := by
  have hleast : Numbr.least = -0x8000000000000000 := rfl
  have hgreatest : Numbr.greatest = 0x7FFFFFFFFFFFFFFF := rfl
  cases n with
  | ofNat n =>
    have hn : (n : Int) ≤ Numbr.greatest := h.2
    exact plain_nat (by omega) depth
  | negSucc n =>
    have hn : n < 2 ^ 64 := by omega
    cases depth <;> exact hn

theorem plain_ofText {t : Text} (h : t.length < 2 ^ 64) (depth : Nat) : (ofText t).Plain depth := by
  have hplain : [t].length = 1 ∧ [t].flatten.length < 2 ^ 64 :=
    ⟨rfl, by rwa [List.flatten_singleton]⟩
  cases depth <;> exact hplain

theorem plain_ofFields {fields : List (Nat × Cbor)} (depth : Nat) (hlength : fields.length ≤ maxCount)
    (h : ∀ f ∈ fields, f.1 < 2 ^ 64 ∧ f.2.Plain depth) : (ofFields fields).Plain (depth + 1) := by
  refine ⟨by rwa [List.length_map], ?_⟩
  clear hlength
  induction fields with
  | nil => trivial
  | cons f fields ih =>
    obtain ⟨hf, hfields⟩ := List.forall_mem_cons.1 h
    exact ⟨plain_nat hf.1 depth, hf.2, ih hfields⟩

theorem mem_optional {n : Nat} {isZero : Bool} {x : Cbor} {f : Nat × Cbor}
    (h : f ∈ optional n isZero x) : f = (n, x) := by
  cases isZero with
  | true => cases h
  | false => exact List.mem_singleton.1 h

end Cbor

private theorem Span.plain_toCbor {s : Span} (h : s.Storable) (depth : Nat) : s.toCbor.Plain (depth + 1) :=
  ⟨by simp [Cbor.maxCount], Cbor.plain_ofInt h.start _, Cbor.plain_ofInt h.stop _, Cbor.plain_ofInt h.file _,
    trivial⟩

private theorem StoredConstant.plain_toCbor {s : StoredConstant} (h : s.Storable) (hyarn : s.yarn.length < 2 ^ 64)
    (hoffsets : s.offsets.length ≤ Cbor.maxCount) (depth : Nat) : s.toCbor.Plain (depth + 2) := by
  rw [toCbor_eq]
  refine Cbor.plain_ofFields (depth + 1) ?_ fun f hf => ?_
  · have hone (n : Nat) (isZero : Bool) (x : Cbor) : (Cbor.optional n isZero x).length ≤ 1 := by
      cases isZero <;> simp [Cbor.optional]
    have hlength : s.fields.length ≤ 6 := by
      have h2 := hone 2 (!s.troof) (.ofBool s.troof)
      have h3 := hone 3 (s.numbr == 0) (.ofInt s.numbr.toInt)
      have h4 := hone 4 s.numbar.isZero (.float s.numbar)
      have h5 := hone 5 s.yarn.isEmpty (.ofText s.yarn)
      have h6 := hone 6 s.offsets.isEmpty (.array (s.offsets.map Cbor.ofInt))
      simp only [fields, List.length_append, List.length_cons]
      omega
    exact Nat.le_trans hlength (by decide)
  · have hkind := s.kind.toNat_lt
    simp only [fields, List.mem_append, List.mem_cons] at hf
    rcases hf with ((((rfl | hf) | hf) | hf) | hf) | hf
    · exact ⟨by simp, Cbor.plain_nat (by omega) _⟩
    all_goals cases Cbor.mem_optional hf
    · exact ⟨by simp, by cases s.troof <;> simp [Cbor.ofBool, Cbor.Plain]⟩
    · exact ⟨by simp,
        Cbor.plain_ofInt ⟨s.numbr.le_toInt, Int.le_of_lt_add_one s.numbr.toInt_lt⟩ _⟩
    · exact ⟨by simp, Numbar.quiet_of_canonical h.numbar⟩
    · exact ⟨by simp, Cbor.plain_ofText hyarn _⟩
    · exact ⟨by simp, by rwa [List.length_map],
        Cbor.plainAll_map fun off hoff => Cbor.plain_ofInt (h.offsets off hoff) _⟩

namespace Chunk

variable {c : Chunk}

/-- A chunk within the limits of the reader of items. -/
structure Fits (c : Chunk) : Prop where
  positions : c.positions.size ≤ Cbor.maxCount
  constants : c.pool.constants.size ≤ Cbor.maxCount
  offsets : ∀ k ∈ c.pool.constants.toList, k.value.offsets.length ≤ Cbor.maxCount
  names : c.names.length ≤ Cbor.maxCount

/-- A chunk within the limits of the reader is taken back. -/
theorem Kept.readable (h : c.Kept) (hfits : c.Fits) : c.Readable := by
  refine Cbor.decode?_encode ?_
  have hcount : Cbor.maxCount < 2 ^ 64 := by decide
  rw [toCbor_eq]
  refine Cbor.plain_ofFields 31 ?_ fun f hf => ?_
  · cases hnames : c.names.isEmpty <;> simp [fields, hnames, Cbor.optional, Cbor.maxCount]
  simp only [fields, List.mem_append, List.mem_cons, List.not_mem_nil, or_false] at hf
  rcases hf with (rfl | rfl | rfl) | hf
  · refine ⟨by simp, ?_⟩
    cases c.coded with
    | true => exact Nat.lt_of_le_of_lt (Nat.le_trans (Nat.le_of_eq h.aligned.symm) hfits.positions) hcount
    | false => exact (by decide : 22 < 24)
  · refine ⟨by simp, ?_, Cbor.plainAll_map fun s hs => Span.plain_toCbor (h.spans s hs) _⟩
    rw [List.length_map, Array.length_toList]
    exact hfits.positions
  · refine ⟨by simp, ?_, Cbor.plainAll_map fun k hk => ?_⟩
    · rw [List.length_map, Array.length_toList]
      exact hfits.constants
    · obtain ⟨hstorable, hyarn⟩ := h.constants k hk
      refine StoredConstant.plain_toCbor hstorable hyarn ?_ _
      rw [StoredConstant.offsets_ofConstant]
      exact hfits.offsets k hk
  · cases Cbor.mem_optional hf
    exact ⟨by simp, by rw [List.length_map]; exact hfits.names,
      Cbor.plainAll_map fun n hn =>
        Cbor.plain_ofText (Nat.lt_trans (h.names n hn).2 (by decide)) _⟩

theorem readable_of_fits (h : c.Storable) (hfits : c.Fits) : c.Readable :=
  h.kept.readable hfits

end Chunk
end LolToolchain
