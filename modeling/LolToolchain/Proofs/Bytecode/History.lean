import LolToolchain.Bytecode.Store
import LolToolchain.Proofs.Effect
import LolToolchain.Proofs.Table
import Mathlib.Data.Set.Card

/-!
Histories of a cache. After any sequence of operations the cache is what its rows say: a chunk is
found where there is a row of our format with bytes that can be read, and the chunk is the one that is
read from them. A row that is of no use is gone once it has been looked up.
-/
namespace LolToolchain

namespace Store

variable {s : Store} {key key' : Text} {row : Row}

def keys (s : Store) : List Text :=
  s.rows.map Prod.fst

theorem row?_eq_none_iff : s.row? key = none ↔ key ∉ s.keys :=
  lookup_eq_none_iff

@[simp]
theorem row?_erase_self : (s.erase key).row? key = none :=
  lookup_filter_self

theorem row?_erase_of_ne (h : key' ≠ key) : (s.erase key).row? key' = s.row? key' :=
  lookup_filter_of_ne h

@[simp]
theorem row?_insert_self : (s.insert key row).row? key = some row :=
  List.lookup_cons_self

theorem row?_insert_of_ne (h : key' ≠ key) : (s.insert key row).row? key' = s.row? key' :=
  lookup_cons_filter_of_ne h

theorem nodup_erase (h : s.keys.Nodup) : (s.erase key).keys.Nodup :=
  h.sublist (List.filter_sublist.map _)

theorem nodup_insert (h : s.keys.Nodup) : (s.insert key row).keys.Nodup :=
  List.nodup_cons.2 ⟨row?_eq_none_iff.1 row?_erase_self, nodup_erase h⟩

/-- The rows are as many as the keys that have one. -/
theorem size_eq_ncard (h : s.keys.Nodup) : s.size = {key | s.row? key ≠ none}.ncard := by
  have hset : {key | s.row? key ≠ none} = (s.keys.toFinset : Set Text) := by
    ext key
    rw [Set.mem_ofPred_eq, Ne, row?_eq_none_iff, not_not, Finset.mem_coe, List.mem_toFinset]
  rw [hset, Set.ncard_coe_finset, List.toFinset_card_of_nodup h, keys, List.length_map, size]

theorem get_fst (s : Store) (key : Text) : (s.get key).1 = (s.row? key).bind Row.chunk? := by
  rw [get]
  cases s.row? key with
  | none => rfl
  | some row =>
    dsimp only [Option.bind_some]
    split
    · rename_i chunk hrow
      exact hrow.symm
    · rename_i hrow
      exact hrow.symm

/-- A chunk is found where a row of our format can be read. -/
theorem get_eq_some_iff {chunk : Chunk} : (s.get key).1 = some chunk ↔
    ∃ row, s.row? key = some row ∧ row.format = formatVersion ∧ Chunk.decode row.data = .ok chunk := by
  have hchunk (row : Row) : row.chunk? = some chunk ↔
      row.format = formatVersion ∧ Chunk.decode row.data = .ok chunk := by
    rw [Row.chunk?]
    by_cases hformat : row.format = formatVersion
    · rw [if_pos hformat]
      cases Chunk.decode row.data <;> simp [Except.toOption, hformat]
    · simp [hformat]
  simp only [get_fst, Option.bind_eq_some_iff, hchunk]

/-- Looking up drops the row if nothing is found, and leaves the store otherwise. -/
theorem get_snd (s : Store) (key : Text) :
    (s.get key).2 = if (s.get key).1 = none then s.erase key else s := by
  have hfst := s.get_fst key
  cases hrow : s.row? key with
  | none =>
    have hkept : ∀ r ∈ s.rows, (r.1 != key) = true := fun r hr =>
      bne_iff_ne.2 fun heq => row?_eq_none_iff.1 hrow (List.mem_map.2 ⟨r, hr, heq⟩)
    have herase : s.erase key = s := by rw [erase, List.filter_eq_self.2 hkept]
    rw [hfst, get, hrow]
    exact herase.symm
  | some row =>
    rw [hrow, Option.bind_some] at hfst
    rw [hfst, get, hrow]
    dsimp only
    cases row.chunk? <;> rfl

/-- After a lookup without success there is no row with the key. -/
theorem row?_get_of_none (h : (s.get key).1 = none) : (s.get key).2.row? key = none := by
  rw [get_snd, if_pos h, row?_erase_self]

theorem row?_get_of_ne (h : key' ≠ key) : (s.get key).2.row? key' = s.row? key' := by
  rw [get_snd]
  split
  · exact row?_erase_of_ne h
  · rfl

theorem nodup_get (h : s.keys.Nodup) : (s.get key).2.keys.Nodup := by
  rw [get_snd]
  split
  · exact nodup_erase h
  · exact h

theorem put_of_encode {chunk : Chunk} {data : Text} (h : chunk.encode = .ok data) :
    s.put key chunk = .ok (s.insert key ⟨formatVersion, data⟩) := by
  rw [put, h]
  rfl

theorem put_of_fault {chunk : Chunk} {f : ChunkFault} (h : chunk.encode = .error f) :
    s.put key chunk = .error f := by
  rw [put, h]
  rfl

end Store

namespace Cache

/-- What can be asked of a cache. -/
inductive Operation where
  | get (key : Text)
  | put (key : Text) (chunk : Chunk)
  | clear
  | size
  deriving Inhabited

/-- What a cache answers. -/
inductive Answer where
  | found (chunk : Option Chunk)
  | done
  | count (n : Nat)
  deriving Inhabited

/-- An operation and what it leaves; one that fails leaves the cache as it was. -/
def perform (c : Cache) : Operation → Except StoreFault Answer × Cache
  | .get key =>
    match c.get key with
    | .ok (chunk, c') => (.ok (.found chunk), c')
    | .error f => (.error f, c)
  | .put key chunk =>
    match c.put key chunk with
    | .ok c' => (.ok .done, c')
    | .error f => (.error f, c)
  | .clear =>
    match c.clear with
    | .ok c' => (.ok .done, c')
    | .error f => (.error f, c)
  | .size => (c.size.map .count, c)

/-- The cache after operations. -/
def after (c : Cache) (ops : List Operation) : Cache :=
  ops.foldl (fun c op => (c.perform op).2) c

/-- Whether an operation writes the row of a key: lookups only drop what is of no use. -/
def Operation.writes (key : Text) : Operation → Prop
  | .put key' _ => key' = key
  | .clear => True
  | .get _ | .size => False

variable {s : Store} {key key' : Text} {chunk : Chunk} {op : Operation}

theorem perform_get (s : Store) (key : Text) :
    (ofStore s).perform (.get key) = (.ok (.found (s.get key).1), ofStore (s.get key).2) := rfl

theorem perform_size (s : Store) : (ofStore s).perform .size = (.ok (.count s.size), ofStore s) := rfl

theorem perform_put_of_encode {data : Text} (h : chunk.encode = .ok data) :
    (ofStore s).perform (.put key chunk) =
      (.ok .done, ofStore (s.insert key ⟨formatVersion, data⟩)) := by
  simp only [perform, Cache.put, ofStore, Store.put_of_encode h, if_true]

theorem perform_put_of_fault {f : ChunkFault} (h : chunk.encode = .error f) :
    (ofStore s).perform (.put key chunk) = (.error (.encoding f), ofStore s) := by
  simp only [perform, Cache.put, ofStore, Store.put_of_fault h]

/-- An operation leaves an open cache, again with one row for each key. -/
theorem exists_perform (h : s.keys.Nodup) (op : Operation) :
    ∃ s', ((ofStore s).perform op).2 = ofStore s' ∧ s'.keys.Nodup := by
  cases op with
  | get key => exact ⟨_, rfl, Store.nodup_get h⟩
  | put key chunk =>
    cases hencode : chunk.encode with
    | error f => exact ⟨s, by rw [perform_put_of_fault hencode], h⟩
    | ok data => exact ⟨_, by rw [perform_put_of_encode hencode], Store.nodup_insert h⟩
  | clear => exact ⟨.empty, rfl, List.nodup_nil⟩
  | size => exact ⟨s, rfl, h⟩

theorem exists_after (h : s.keys.Nodup) (ops : List Operation) :
    ∃ s', (ofStore s).after ops = ofStore s' ∧ s'.keys.Nodup := by
  induction ops generalizing s with
  | nil => exact ⟨s, rfl, h⟩
  | cons op ops ih =>
    obtain ⟨s', hs', hnodup⟩ := exists_perform h op
    obtain ⟨s'', hs'', hnodup''⟩ := ih hnodup
    exact ⟨s'', by rw [← hs'', ← hs']; rfl, hnodup''⟩

/-- What a lookup answers is changed by writing the row only. -/
private theorem get_of_perform (h : ¬op.writes key) {s' : Store}
    (hs' : ((ofStore s).perform op).2 = ofStore s') : (s'.get key).1 = (s.get key).1 := by
  cases op with
  | get key' =>
    obtain rfl : (s.get key').2 = s' := congrArg Cache.store hs'
    rw [Store.get_fst, Store.get_fst s]
    by_cases heq : key = key'
    · subst heq
      cases hget : (s.get key).1 with
      | none => rw [Store.row?_get_of_none hget, ← Store.get_fst, hget]; rfl
      | some c => rw [Store.get_snd, hget, if_neg nofun]
    · rw [Store.row?_get_of_ne heq]
  | put key' chunk =>
    have hne : key ≠ key' := fun heq => h heq.symm
    cases hencode : chunk.encode with
    | error f =>
      rw [perform_put_of_fault hencode] at hs'
      rw [show s = s' from congrArg Cache.store hs']
    | ok data =>
      rw [perform_put_of_encode hencode] at hs'
      obtain rfl := congrArg Cache.store hs'
      rw [Store.get_fst, Store.get_fst s]
      exact congrArg (Option.bind · _) (Store.row?_insert_of_ne hne)
  | clear => exact absurd trivial h
  | size => rw [show s = s' from congrArg Cache.store hs']

/-- What a lookup answers after operations of which none writes the row. -/
private theorem get_of_after {ops : List Operation} (hops : ∀ op ∈ ops, ¬op.writes key)
    (hnodup : s.keys.Nodup) {s' : Store} (hs' : (ofStore s).after ops = ofStore s') :
    (s'.get key).1 = (s.get key).1 := by
  induction ops generalizing s with
  | nil => rw [show s = s' from congrArg Cache.store hs']
  | cons op ops ih =>
    obtain ⟨hop, hops⟩ := List.forall_mem_cons.1 hops
    obtain ⟨s₁, hs₁, hnodup₁⟩ := exists_perform hnodup op
    have hrest : (ofStore s₁).after ops = ofStore s' := by
      rw [← hs₁]
      exact hs'
    rw [ih hops hnodup₁ hrest, get_of_perform hop hs₁]

/-- A cache that stands for the table of its rows. -/
structure Faithful (c : Cache) : Prop where
  get : ∀ key, ∃ found, (c.perform (.get key)).1 = .ok (.found found) ∧ ∀ chunk,
    found = some chunk ↔ ∃ row, c.store.row? key = some row ∧ row.format = formatVersion ∧
      Chunk.decode row.data = .ok chunk
  hit : ∀ key chunk, (c.perform (.get key)).1 = .ok (.found (some chunk)) →
    (c.perform (.get key)).2 = c
  miss : ∀ key, (c.perform (.get key)).1 = .ok (.found none) →
    (c.perform (.get key)).2.store.row? key = none
  others : ∀ key key' op, key' ≠ key → (op = .get key ∨ ∃ chunk, op = .put key chunk) →
    (c.perform op).2.store.row? key' = c.store.row? key'
  stored : ∀ key chunk, chunk.fault? = none → ∃ data, chunk.encode = .ok data ∧
    (c.perform (.put key chunk)).1 = .ok .done ∧
    (c.perform (.put key chunk)).2.store.row? key = some ⟨formatVersion, data⟩
  refused : ∀ key chunk f, chunk.fault? = some f →
    c.perform (.put key chunk) = (.error (.encoding f), c)
  cleared : ∀ key, (c.perform .clear).1 = .ok .done ∧ (c.perform .clear).2.store.row? key = none
  size : c.perform .size = (.ok (.count {key | c.store.row? key ≠ none}.ncard), c)

private theorem encode_of_fault {f : ChunkFault} (h : chunk.fault? = some f) : chunk.encode = .error f := by
  rw [Chunk.encode, h]

private theorem encode_of_shape (h : chunk.fault? = none) : ∃ data, chunk.encode = .ok data := by
  rw [Chunk.encode, h]
  exact ⟨_, rfl⟩

private theorem faithful_ofStore (h : s.keys.Nodup) : (ofStore s).Faithful where
  get key := ⟨(s.get key).1, rfl, fun _ => Store.get_eq_some_iff⟩
  hit key chunk hfound := by
    have hget : (s.get key).1 = some chunk := by
      injection hfound with hfound
      injection hfound
    rw [perform_get, Store.get_snd, hget, if_neg nofun]
  miss key hfound := by
    injection hfound with hfound
    injection hfound with hget
    exact Store.row?_get_of_none hget
  others key key' op hne hop := by
    rcases hop with rfl | ⟨chunk, rfl⟩
    · exact Store.row?_get_of_ne hne
    · cases hencode : chunk.encode with
      | error f => rw [perform_put_of_fault hencode]
      | ok data =>
        rw [perform_put_of_encode hencode]
        exact Store.row?_insert_of_ne hne
  stored key chunk hshape := by
    obtain ⟨data, hencode⟩ := encode_of_shape hshape
    rw [perform_put_of_encode hencode]
    exact ⟨data, hencode, rfl, Store.row?_insert_self⟩
  refused key chunk f hfault := perform_put_of_fault (encode_of_fault hfault)
  cleared key := ⟨rfl, rfl⟩
  size := by rw [perform_size, Store.size_eq_ncard h, ofStore]

/-- After any operations on a table of rows the cache stands for its rows; and a chunk that was put in
is found, as it is read back, until its row is written again or the cache is cleared. -/
theorem faithful_after {s : Store} (h : s.keys.Nodup) (ops : List Operation) :
    ((ofStore s).after ops).Faithful ∧
      ∀ pre key chunk post data, ops = pre ++ .put key chunk :: post → chunk.encode = .ok data →
        (∀ op ∈ post, ¬op.writes key) →
        (((ofStore s).after ops).perform (.get key)).1 =
          .ok (.found (Chunk.decode data).toOption) := by
  obtain ⟨s', hs', hnodup⟩ := exists_after h ops
  refine ⟨hs' ▸ faithful_ofStore hnodup, ?_⟩
  rintro pre key chunk post data rfl hencode hpost
  obtain ⟨s₁, hs₁, hnodup₁⟩ := exists_after h pre
  have hrest : (ofStore (s₁.insert key ⟨formatVersion, data⟩)).after post = ofStore s' := by
    rw [← hs', after, after, List.foldl_append, List.foldl_cons]
    change _ = post.foldl _ (((ofStore s).after pre).perform (.put key chunk)).2
    rw [hs₁, perform_put_of_encode hencode]
  have hget := get_of_after hpost (Store.nodup_insert hnodup₁) hrest
  rw [hs', perform_get, hget, Store.get_fst, Store.row?_insert_self]
  rfl

/-- A store with a row of another format and one with bytes that are no chunk. -/
def mixedStore : Store :=
  ⟨[("a", ⟨2, []⟩), ("b", ⟨formatVersion, [0x4C]⟩)]⟩

/-- Both rows are dropped when they are looked up, and the chunk that is put in stays. -/
theorem faithful_after_mixed :
    mixedStore.keys.Nodup ∧ ∃ data, Chunk.empty.encode = .ok data ∧
      let c := (ofStore mixedStore).after [.get "a", .put "c" .empty, .get "b"]
      c.Faithful ∧ c.store.rows = [(("c" : Text), ⟨formatVersion, data⟩)] ∧
        (c.perform (.get "c")).1 = .ok (.found (Chunk.decode data).toOption) := by
  have hnodup : mixedStore.keys.Nodup := by decide
  obtain ⟨data, hencode, hrows⟩ : ∃ data, Chunk.empty.encode = .ok data ∧
      decide (((ofStore mixedStore).after [.get "a", .put "c" .empty, .get "b"]).store.rows =
        [(("c" : Text), ⟨formatVersion, data⟩)]) = true :=
    exists_of_toOption_any (by decide +kernel)
  obtain ⟨hfaithful, hstored⟩ := faithful_after hnodup [.get "a", .put "c" .empty, .get "b"]
  exact ⟨hnodup, data, hencode, hfaithful, of_decide_eq_true hrows,
    hstored [.get "a"] "c" .empty [.get "b"] data rfl hencode
      (List.forall_mem_singleton.2 not_false)⟩

end Cache
end LolToolchain
