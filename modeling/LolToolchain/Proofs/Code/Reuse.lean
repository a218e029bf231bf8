import LolToolchain.Proofs.Bytecode.RoundTrip
import LolToolchain.Proofs.Code.Safety
import LolToolchain.Text.CommonNames

/-!
Programs that are stored and run again. The chunk of a source text is read back from its stored form
as it was, bit for bit, unless it has a negative zero among its constants; so a program runs alike
when it is fresh, when it has been built, and when it comes from a cache. A negative zero comes back
without its sign, which a program can show.
-/
namespace LolToolchain

namespace NameTable

private theorem mem_intern {t : NameTable} {name x : Text} (h : x ∈ (t.intern name).2.names.toList) :
    x ∈ t.names.toList ∨ x = name := by
  rw [intern] at h
  split at h
  · exact .inl h
  · rw [Array.toList_push] at h
    rcases List.mem_append.1 h with h | h
    · exact .inl h
    · exact .inr (List.mem_singleton.1 h)

theorem mem_ofList {names : List Text} {x : Text} (h : x ∈ (ofList names).names.toList) :
    x ∈ names := by
  have hfold : ∀ (names : List Text) (t : NameTable),
      x ∈ (names.foldl (fun t name => (t.intern name).2) t).names.toList →
        x ∈ t.names.toList ∨ x ∈ names := by
    intro names
    induction names with
    | nil => exact fun t h => .inl h
    | cons name names ih =>
      intro t h
      rcases ih _ h with h | h
      · rcases mem_intern h with h | rfl
        · exact .inl h
        · exact .inr List.mem_cons_self
      · exact .inr (List.mem_cons_of_mem _ h)
  exact (hfold names empty h).resolve_left List.not_mem_nil

end NameTable

namespace Token

/-- Whether a token names something, by itself or inside a string. -/
def Names (t : Token) (name : Text) : Prop :=
  t.name? = some name ∨ ∃ i ∈ t.insertions, i.name = name

private theorem mem_go {name : Text} : ∀ {ts later : List Token}, name ∈ introduced.go ts later →
    (∃ t ∈ ts, t.Names name) ∨ ∃ t ∈ later, t.Names name
  | [], _, h => absurd h List.not_mem_nil
  | t :: ts, [], h => by
    rcases List.mem_append.1 h with h | h
    · exact .inl ⟨t, List.mem_cons_self, .inr (List.mem_map.1 h)⟩
    · rcases mem_go h with ⟨u, hu, hname⟩ | ⟨u, hu, -⟩
      · exact .inl ⟨u, List.mem_cons_of_mem _ hu, hname⟩
      · exact absurd hu List.not_mem_nil
  | t :: ts, a :: later, h => by
    rw [introduced.go, List.append_assoc] at h
    rcases List.mem_append.1 h with h | h
    · exact .inr ⟨a, List.mem_cons_self, .inl (Option.mem_toList.1 h)⟩
    rcases List.mem_append.1 h with h | h
    · exact .inl ⟨t, List.mem_cons_self, .inr (List.mem_map.1 h)⟩
    rcases mem_go h with ⟨u, hu, hname⟩ | ⟨u, hu, hname⟩
    · exact .inl ⟨u, List.mem_cons_of_mem _ hu, hname⟩
    · exact .inr ⟨u, List.mem_cons_of_mem _ hu, hname⟩

/-- A name that is brought in stands in a token. -/
private theorem exists_of_mem_introduced {name : Text} {ts : List Token} (h : name ∈ introduced ts) :
    ∃ t ∈ ts, t.Names name := by
  rcases List.mem_append.1 h with h | h
  · obtain ⟨t, ht, hname⟩ := List.mem_filterMap.1 h
    exact ⟨t, List.mem_of_mem_take ht, .inl hname⟩
  · rcases mem_go h with h | ⟨t, ht, hname⟩
    · exact h
    · exact ⟨t, List.mem_of_mem_drop ht, hname⟩

private theorem mem_untilFault {t : Token} : ∀ {items : List (Except Diagnostic Token)},
    t ∈ (untilFault items).1 → .ok t ∈ items
  | [], h => absurd h List.not_mem_nil
  | .error _ :: _, h => absurd h List.not_mem_nil
  | .ok _ :: _, h =>
    (List.mem_cons.1 h).elim (fun heq => heq ▸ List.mem_cons_self)
      fun h => List.mem_cons_of_mem _ (mem_untilFault h)

private theorem Valid.names {file : Int} {size : Nat} {t : Token} {name : Text} (h : t.Valid file size)
    (hname : t.Names name) : Lexer.isName name = true ∧ name.length ≤ size := by
  have hlexeme := h.lexeme
  rcases hname with hname | ⟨i, hi, rfl⟩
  · rw [name?] at hname
    split at hname
    · rename_i heq
      cases hname
      rw [heq] at hlexeme
      exact ⟨hlexeme.1.name, hlexeme.2⟩
    · cases hname
  · rw [insertions] at hi
    split at hi
    · rename_i heq
      rw [heq] at hlexeme
      have hvalid := hlexeme.2.2 i hi
      exact ⟨hvalid.name, hvalid.length⟩
    · exact absurd hi List.not_mem_nil

end Token

/-- The names of a source text: the implicit variable, and names that are written in the text. -/
theorem NameTable.mem_ofSource [CharNames] {file : Int} {text name : Text}
    (h : name ∈ (ofSource file text).names.toList) :
    name = implicitName ∨ Lexer.isName name = true ∧ name.length ≤ text.length := by
  rcases List.mem_cons.1 (mem_ofList h) with rfl | h
  · exact .inl rfl
  · obtain ⟨t, ht, hname⟩ := Token.exists_of_mem_introduced h
    exact .inr ((Token.valid_items (Token.mem_untilFault ht)).names hname)

/-- The names of a source text are stored as they are. -/
theorem NameTable.storable_ofSource [CharNames] {file : Int} {text : Text}
    (hlength : text.length < 2 ^ 63)
    {name : Text} (h : name ∈ (ofSource file text).names.toList) : name.Storable := by
  rcases mem_ofSource h with rfl | ⟨hshape, hle⟩
  · exact ⟨by decide, by decide⟩
  · exact ⟨Lexer.isUtf8_of_isName hshape, Nat.lt_of_le_of_lt hle hlength⟩

theorem Span.Within.storable {file : Int} {size : Nat} {s : Span} (h : s.Within file size)
    (hfile : Numbr.least ≤ file ∧ file ≤ Numbr.greatest) (hsize : size < 2 ^ 63) : s.Storable := by
  have hstart := h.start
  have hordered := h.ordered
  have hstop := h.stop
  have hleast : Numbr.least = -0x8000000000000000 := rfl
  have hgreatest : Numbr.greatest = 0x7FFFFFFFFFFFFFFF := rfl
  exact ⟨⟨by omega, by omega⟩, ⟨by omega, by omega⟩, h.file ▸ hfile⟩

theorem Text.Spelled.storable {size : Nat} {t : Text} (h : t.Spelled size) (hsize : size < 2 ^ 61) :
    t.Storable := by
  have hlength := h.2
  exact ⟨h.1, by omega⟩

private theorem Value.Written.storable {size : Nat} {v : Value} (h : v.Written size)
    (hsize : size < 2 ^ 61) (hzero : v ≠ .numbar (.ofMagnitude true 0)) : v.Storable := by
  cases v with
  | numbar x =>
    obtain ⟨whole, fraction, hspelled⟩ := h
    exact Numbar.canonical_eq_self (fun heq => hzero (heq ▸ rfl))
      (Numbar.finite_of_read? hspelled.read).isNaN
  | yarn t => exact Text.Spelled.storable h hsize
  | interp t =>
    cases t with
    | none => exact h.elim
    | some t => exact ⟨h.1.storable hsize, h.2.1⟩
  | bukkit r | unknown k => exact h.elim
  | _ => trivial

private theorem Value.Made.storable {v : Value} (h : v.Made) : v.Storable := by
  cases v with
  | numbar x =>
    obtain rfl : x = .zero := h
    exact rfl
  | yarn t =>
    obtain rfl : t = [] := h
    exact ⟨rfl, by decide⟩
  | interp t | bukkit r | unknown k => exact h.elim
  | _ => trivial

namespace Chunk

/-- A chunk that comes back from its stored form with the sign of each zero: no constant is a negative
zero. -/
def Unsigned (c : Chunk) : Prop :=
  ∀ k ∈ c.pool.constants.toList, k.value ≠ .numbar (.ofMagnitude true 0)

instance (c : Chunk) : Decidable c.Unsigned :=
  inferInstanceAs (Decidable (∀ k ∈ c.pool.constants.toList, _))

variable {file : Int} {text : Text} {optimize : Bool} {c : Chunk}

private theorem Contents.storable (h : c.Contents (Criteria.source file text.length).relaxed)
    (hfile : Numbr.least ≤ file ∧ file ≤ Numbr.greatest) (hlength : text.length < 2 ^ 61)
    (hzero : c.Unsigned) (hnames : ∀ name ∈ c.names, name.Storable) : c.Storable where
  coded hcoded := by
    rw [h.coded] at hcoded
    cases hcoded
  aligned := h.aligned
  spare := h.pool.spare
  spans s hs := Span.Within.storable (h.spans s hs) hfile (by omega)
  constants k hk := by
    obtain ⟨v, tag, hv, hvalue⟩ := h.constants k hk
    have hne := hzero k hk
    rw [hvalue] at hne ⊢
    refine Value.Storable.retag ?_ tag
    rcases hv with hv | hv
    · refine Value.Written.storable hv hlength fun heq => hne ?_
      rw [heq]
      rfl
    · exact hv.storable
  names := hnames

/-- The chunk of a source text is read back as it was. -/
theorem decode_encode_of_compileSource [CharNames] (h : compileSource file text optimize = .ok c)
    (hfile : Numbr.least ≤ file ∧ file ≤ Numbr.greatest) (hlength : text.length < 2 ^ 61)
    (hfits : c.Fits) (hzero : c.Unsigned) : ∃ data, c.encode = .ok data ∧ decode data = .ok c := by
  obtain ⟨p, hmeets, hp⟩ := exists_program_of_compileSource h
  have hcontents := hmeets.contents hp
  have hnames : ∀ name ∈ c.names, name.Storable := by
    obtain ⟨a', -, rfl⟩ := Program.compile_parts hp
    exact fun name hname => NameTable.storable_ofSource (by omega) hname
  have hstorable := hcontents.storable hfile hlength hzero hnames
  obtain ⟨data, hencode, hdecode⟩ := decode_encode hstorable (readable_of_fits hstorable hfits)
  have hreloaded : c.reloaded = c := by
    rw [reloaded, hcontents.pool.reloaded_eq]
  exact ⟨data, hencode, hreloaded ▸ hdecode⟩

end Chunk

theorem ok_of_toOption {ε α : Type} {x : Except ε α} {a : α} (h : x.toOption = some a) :
    x = .ok a := by
  cases x with
  | error e => cases h
  | ok b => exact congrArg _ (Option.some.inj h)

namespace Store

variable {s : Store} {key : Text} {row : Row} {c : Chunk}

private theorem row?_insert (s : Store) (key : Text) (row : Row) : (s.insert key row).row? key = some row :=
  List.lookup_cons_self

private theorem get_of_row? (hrow : s.row? key = some row) (hchunk : row.chunk? = some c) :
    s.get key = (some c, s) := by
  simp only [get, hrow, hchunk]

/-- A row with the stored form of a chunk. -/
theorem chunk?_of_decode {data : Text} (h : Chunk.decode data = .ok c) :
    (Row.mk formatVersion data).chunk? = some c := by
  rw [Row.chunk?, if_pos rfl, h]
  rfl

end Store

namespace Pipeline

variable {text : Text} {optimize : Bool} {c : Chunk} {cache : Cache}

/-- Without a cache a source text is compiled. -/
theorem compile_fresh [CharNames] (hcompile : compileSource 0 text optimize = .ok c) :
    compile optimize none text = (.ok c, none) := by
  rw [compile, hcompile]
  rfl

/-- A source text whose row can be read is not compiled. -/
private theorem compile_of_row? [CharNames] (hopen : cache.isOpen = true) {row : Row}
    (hrow : cache.store.row? (Store.key text optimize) = some row) (hchunk : row.chunk? = some c) :
    compile optimize (some cache) text = (.ok c, some cache) := by
  have hget : cache.get (Store.key text optimize) = .ok (some c, cache) := by
    rw [Cache.get, if_pos hopen, Store.get_of_row? hrow hchunk]
  simp only [compile, hget]
  rfl

/-- A source text that the cache does not have is compiled, and its row is put there. -/
private theorem compile_of_miss [CharNames] (hopen : cache.isOpen = true)
    (hmiss : (cache.store.get (Store.key text optimize)).1 = none)
    (hcompile : compileSource 0 text optimize = .ok c) {data : Text} (hencode : c.encode = .ok data) :
    ∃ later : Cache, compile optimize (some cache) text = (.ok c, some later) ∧
      later.isOpen = true ∧
      later.store.row? (Store.key text optimize) = some ⟨formatVersion, data⟩ := by
  obtain ⟨store, hstore⟩ : ∃ store, cache.store.get (Store.key text optimize) = (none, store) :=
    ⟨_, Prod.ext hmiss rfl⟩
  have hget : cache.get (Store.key text optimize) = .ok (none, { cache with store }) := by
    rw [Cache.get, if_pos hopen, hstore]
  have hput : ({ cache with store } : Cache).put (Store.key text optimize) c =
      .ok { cache with store := store.insert (Store.key text optimize) ⟨formatVersion, data⟩ } := by
    rw [Cache.put, Store.put, hencode]
    exact if_pos hopen
  refine ⟨{ cache with store := store.insert (Store.key text optimize) ⟨formatVersion, data⟩ }, ?_,
    hopen, Store.row?_insert _ _ _⟩
  simp only [compile, hget, Except.toOption, Option.getD_some, hcompile, hput]

theorem runSource_of_compile [CharNames] {o : Options} {before after : Option Cache}
    (h : compile o.optimize before text = (.ok c, after)) (fuel : Nat) (s : Streams) (name : Text) :
    runSource fuel o s before name text = (runChunk fuel o s name c, after) := by
  rw [runSource, h]

/-- What is built is the stored form of the chunk. -/
theorem build_of_compile [CharNames] {o : Options} {before after : Option Cache}
    (h : compile o.optimize before text = (.ok c, after)) {data : Text} (hencode : c.encode = .ok data)
    {s : Streams} (hout : s.outputFault = none) (herr : s.errorFault = none) (name : Text) :
    ∃ listing, build o s before name text = (⟨data, listing, none⟩, after) := by
  obtain ⟨listing, hlist⟩ : ∃ listing, list o s name c = .ok listing := by
    rw [list, herr]
    split
    · exact ⟨_, rfl⟩
    · exact ⟨_, rfl⟩
  refine ⟨listing, ?_⟩
  simp only [build, h, hlist, hencode, hout]

/-- A program runs alike when it is compiled afresh, when it is read back from what is built, and
when it comes from a cache that has the row which an earlier use put there. Its chunk must be within
the limits of the reader, and have no negative zero. -/
theorem runs_alike [CharNames] (hcompile : compileSource 0 text optimize = .ok c)
    (hlength : text.length < 2 ^ 61) (hfits : c.Fits) (hzero : c.Unsigned) :
    ∃ data,
      (∀ (o : Options) (s : Streams) (name : Text), o.optimize = optimize →
        s.outputFault = none → s.errorFault = none →
          ∃ listing, build o s none name text = (⟨data, listing, none⟩, none)) ∧
      (∀ (fuel : Nat) (o : Options) (s : Streams) (name : Text), o.optimize = optimize →
        (Chunk.decode data).map (runChunk fuel o s name) =
          .ok (runSource fuel o s none name text).1) ∧
      ∀ cache : Cache, cache.isOpen = true →
        (cache.store.get (Store.key text optimize)).1 = none →
        ∃ stored : Cache, compile optimize (some cache) text = (.ok c, some stored) ∧
          stored.isOpen = true ∧ ∀ later : Cache, later.isOpen = true →
            later.store.row? (Store.key text optimize) =
              stored.store.row? (Store.key text optimize) →
            ∀ (fuel : Nat) (o : Options) (s : Streams) (name : Text), o.optimize = optimize →
              runSource fuel o s (some later) name text =
                ((runSource fuel o s none name text).1, some later) := by
  obtain ⟨data, hencode, hdecode⟩ := Chunk.decode_encode_of_compileSource hcompile
    ⟨by decide, by decide⟩ hlength hfits hzero
  have hfresh := compile_fresh hcompile
  refine ⟨data, ?_, ?_, ?_⟩
  · rintro o s name rfl hout herr
    exact build_of_compile hfresh hencode hout herr name
  · rintro fuel o s name rfl
    rw [runSource_of_compile hfresh, hdecode]
    rfl
  · intro cache hopen hmiss
    obtain ⟨stored, hstored, hstays, hrow⟩ := compile_of_miss hopen hmiss hcompile hencode
    refine ⟨stored, hstored, hstays, ?_⟩
    rintro later hlater hsame fuel o s name rfl
    have hhit := compile_of_row? hlater (hsame.trans hrow) (Store.chunk?_of_decode hdecode)
    rw [runSource_of_compile hhit, runSource_of_compile hfresh]

attribute [local instance] CharNames.common

/-- A program that prints a half does so again, built or from a cache that was empty at first. -/
theorem runs_alike_half :
    ∃ data stored outcome,
      (compile false (some (.ofStore .empty)) "HAI 1.2\nVISIBLE 0.5\nKTHXBYE\n").2 = some stored ∧
      runSource 4 ⟨false, false, false⟩ ⟨[], none, none, none⟩ (some stored) []
        "HAI 1.2\nVISIBLE 0.5\nKTHXBYE\n" = (outcome, some stored) ∧
      (Chunk.decode data).map (runChunk 4 ⟨false, false, false⟩ ⟨[], none, none, none⟩ []) =
        .ok outcome ∧
      outcome.output = "0.5\n" := by
  obtain ⟨c, hcompile, hc⟩ : ∃ c,
      compileSource 0 "HAI 1.2\nVISIBLE 0.5\nKTHXBYE\n" false = .ok c ∧
      decide (c.Unsigned ∧ c.positions.size ≤ Cbor.maxCount ∧
        c.pool.constants.size ≤ Cbor.maxCount ∧
        (∀ k ∈ c.pool.constants.toList, k.value.offsets.length ≤ Cbor.maxCount) ∧
        c.names.length ≤ Cbor.maxCount ∧
        (runChunk 4 ⟨false, false, false⟩ ⟨[], none, none, none⟩ [] c).output = "0.5\n") = true :=
    exists_compileSource _ (by decide +kernel)
  obtain ⟨hzero, hpositions, hconstants, hoffsets, hnames, houtput⟩ := of_decide_eq_true hc
  obtain ⟨data, -, hdecoded, hcached⟩ :=
    runs_alike hcompile (by decide) ⟨hpositions, hconstants, hoffsets, hnames⟩ hzero
  obtain ⟨stored, hstored, hstays, hlater⟩ := hcached (.ofStore .empty) rfl rfl
  have hrun := runSource_of_compile (o := ⟨false, false, false⟩) (compile_fresh hcompile) 4
    ⟨[], none, none, none⟩ []
  exact ⟨data, stored, _, congrArg Prod.snd hstored, hlater stored hstays rfl 4 _ _ [] rfl,
    hdecoded 4 _ _ [] rfl, (congrArg (fun r => r.1.output) hrun).trans houtput⟩

/-- A program that prints a negative zero prints it without its sign when it has been built. -/
theorem negative_zero_reads_back :
    ∃ data listing c',
      build ⟨false, false, false⟩ ⟨[], none, none, none⟩ none []
        "HAI 1.2\nVISIBLE -0.0\nKTHXBYE\n" = (⟨data, listing, none⟩, none) ∧
      Chunk.decode data = .ok c' ∧
      (runSource 4 ⟨false, false, false⟩ ⟨[], none, none, none⟩ none []
        "HAI 1.2\nVISIBLE -0.0\nKTHXBYE\n").1.output = "-0\n" ∧
      (runChunk 4 ⟨false, false, false⟩ ⟨[], none, none, none⟩ [] c').output = "0\n" := by
  obtain ⟨c, hcompile, hc⟩ : ∃ c,
      compileSource 0 "HAI 1.2\nVISIBLE -0.0\nKTHXBYE\n" false = .ok c ∧
      (c.encode.toOption.any fun data => (Chunk.decode data).toOption.any fun c' =>
        (runChunk 4 ⟨false, false, false⟩ ⟨[], none, none, none⟩ [] c).output = "-0\n" ∧
        (runChunk 4 ⟨false, false, false⟩ ⟨[], none, none, none⟩ [] c').output = "0\n") = true :=
    exists_compileSource _ (by decide +kernel)
  obtain ⟨data, hencode, hdata⟩ := (Option.any_eq_true _ _).1 hc
  obtain ⟨c', hdecode, houtput⟩ := (Option.any_eq_true _ _).1 hdata
  obtain ⟨hfresh, hread⟩ := of_decide_eq_true houtput
  obtain ⟨listing, hbuild⟩ := build_of_compile (o := ⟨false, false, false⟩) (compile_fresh hcompile)
    (ok_of_toOption hencode) (s := ⟨[], none, none, none⟩) rfl rfl []
  have hrun := runSource_of_compile (o := ⟨false, false, false⟩) (compile_fresh hcompile) 4
    ⟨[], none, none, none⟩ []
  exact ⟨data, listing, c', hbuild, ok_of_toOption hdecode,
    (congrArg (fun r => r.1.output) hrun).trans hfresh, hread⟩

end Pipeline
end LolToolchain
