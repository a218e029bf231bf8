import LolToolchain.Proofs.Code.Completion
import LolToolchain.Proofs.Code.Scoping
import LolToolchain.Proofs.Evaluation.Definitions
import LolToolchain.Proofs.Table

/-!
What the compiler emits for expressions. The names of a scope are what the layout of code is stated
with; expressions use them and leave them as they are.
-/
namespace LolToolchain

/-- The names of a scope, with the addresses of the functions that they are known to hold. -/
def Scope.names (s : Scope) : Names :=
  s.locals.map fun l => (l.name, l.function.map KnownFunction.offset)

@[simp] theorem Scope.length_names (s : Scope) : s.names.length = s.locals.length :=
  List.length_map _

theorem Scope.mem_names {s : Scope} {l : Local} {f : KnownFunction} (hl : l ∈ s.locals)
    (hf : l.function = some f) : (l.name, some f.offset) ∈ s.names :=
  List.mem_map.2 ⟨l, hl, by rw [hf]; rfl⟩

/-- If the value is a function, it is one of the first `total`. -/
def Value.KnownFunction (address : Nat → Nat) (total : Nat) (v : Value) : Prop :=
  ∀ offset, v = .funkshon offset → ∃ j < total, v = functionValue (address j)

/-- The functions that the names in use are known to hold, and those among the constants, are the first
`total` of the program. -/
structure Assembly.Known (address : Nat → Nat) (total : Nat) (a : Assembly) : Prop where
  constants : ∀ x ∈ a.chunk.pool.constants.toList, x.value.KnownFunction address total
  scope : a.scope.names.Known address total
  outer : ∀ ns ∈ a.outer.map Scope.names, ns.Known address total

namespace Assembly.Known

variable {address : Nat → Nat} {total : Nat} {a : Assembly} {c : Chunk} {v : Value}

/-- Code does not name functions. -/
theorem chunk (h : a.Known address total) (hpool : c.pool = a.chunk.pool) :
    { a with chunk := c }.Known address total :=
  { h with constants := by rw [hpool]; exact h.constants }

theorem share (h : a.Known address total) (hv : v.KnownFunction address total) :
    { a with chunk := { a.chunk with pool := (a.chunk.pool.share v).2 } }.Known address total :=
  { h with
    constants := fun x hx => by
      rcases Pool.mem_share hx with hx | hx
      · exact h.constants x hx
      · intro offset hoffset
        rw [hx] at hoffset ⊢
        cases v with
        | funkshon n => exact hv n rfl
        | interp t => cases t <;> cases hoffset
        | _ => cases hoffset }

/-- A function that a variable around the current function is known to hold. -/
theorem function? (h : a.Known address total) {s : Scope} (hs : s ∈ a.outer) {l : Local}
    (hl : l ∈ s.locals) {f : KnownFunction} (hf : l.function = some f) :
    (functionValue f.offset).KnownFunction address total := by
  obtain ⟨j, hj, heq⟩ := h.outer s.names (List.mem_map_of_mem hs) l.name f.offset
    (Scope.mem_names hl hf)
  exact fun _ _ => ⟨j, hj, congrArg functionValue heq⟩

end Assembly.Known

namespace Assemble

variable {α β : Type} {a a' : Assembly}

/-- A compilation in two parts. -/
theorem ok_of_bind {x : Assemble α} {f : α → Assemble β} {r : β × Assembly}
    (h : (x >>= f) a = .ok r) : ∃ b a₁, x a = .ok (b, a₁) ∧ f b a₁ = .ok r := by
  obtain hx | ⟨b, a₁, hx⟩ : (∃ err, x a = .error err) ∨ ∃ b a₁, x a = .ok (b, a₁) := by
    cases x a with
    | error err => exact .inl ⟨err, rfl⟩
    | ok r => exact .inr ⟨r.1, r.2, rfl⟩
  · obtain ⟨err, hx⟩ := hx
    have hb : (x >>= f) a = Except.bind (x a) fun r => f r.1 r.2 := rfl
    rw [hb, hx] at h
    cases h
  · have hb : (x >>= f) a = Except.bind (x a) fun r => f r.1 r.2 := rfl
    rw [hb, hx] at h
    exact ⟨b, a₁, hx, h⟩

/-- From one state to another only code is added, and no jump is left open. The code is as `P` says
if names are resolved lexically. -/
structure Emits (a a' : Assembly) (P : Chunk → Prop) : Prop where
  scope : a'.scope = a.scope
  outer : a'.outer = a.outer
  chunk : a.chunk.Extends a'.chunk [] fun C => a.Lexical → P C
  known : ∀ address total, a.Known address total → a'.Known address total

variable {P Q : Chunk → Prop}

theorem Emits.lexical (h : Emits a a' P) (ha : a.Lexical) : a'.Lexical :=
  ha.congr h.scope h.outer

/-- Code that is the same however names are resolved. -/
theorem Emits.of_extends (hscope : a'.scope = a.scope) (houter : a'.outer = a.outer)
    (h : a.chunk.Extends a'.chunk [] P)
    (hknown : ∀ address total, a.Known address total → a'.Known address total) : Emits a a' P :=
  ⟨hscope, houter, h.mono fun _ hC _ => hC, hknown⟩

theorem Emits.trans {a₁ : Assembly} (h₁ : Emits a a₁ P) (h₂ : Emits a₁ a' Q) :
    Emits a a' fun C => P C ∧ Q C :=
  ⟨h₂.scope.trans h₁.scope, h₂.outer.trans h₁.outer,
    (h₁.chunk.trans h₂.chunk).mono fun _ hC ha => ⟨hC.1 ha, hC.2 (h₁.lexical ha)⟩,
    fun address total h => h₂.known address total (h₁.known address total h)⟩

theorem Emits.mono (h : Emits a a' P) (hPQ : ∀ C, P C → Q C) : Emits a a' Q :=
  ⟨h.scope, h.outer, h.chunk.mono fun C hC ha => hPQ C (hC ha), h.known⟩

theorem Emits.refl (h : ∀ C, P C) : Emits a a P :=
  .of_extends rfl rfl (.refl h) fun _ _ h => h

variable {span : Span} {op short long : Opcode} {n : Nat} {v : Value}

theorem emits_emit (hop : op.operandLength = 0) (h : emit op span [] a = .ok ((), a')) :
    Emits a a' fun C => C.Has op 0 span a.chunk.code.size a'.chunk.code.size := by
  cases h
  exact .of_extends rfl rfl (Chunk.extends_emit_plain hop) fun _ _ h => h.chunk rfl

theorem emits_emit_byte {x : UInt8} (hop : op.operandLength = 1)
    (h : emit op span [x] a = .ok ((), a')) :
    Emits a a' fun C => C.Has op x.toNat span a.chunk.code.size a'.chunk.code.size := by
  cases h
  exact .of_extends rfl rfl (Chunk.extends_emit_short hop) fun _ _ h => h.chunk rfl

theorem extends_emitIndexed {c c' : Chunk} (hshort : short.operandLength = 1)
    (hlong : long.operandLength = 3) (h : c.emitIndexed short long n span = .ok c') :
    c.Extends c' [] fun C => C.HasIndexed short long n span c.code.size c'.code.size := by
  unfold Chunk.emitIndexed Chunk.emitIndexedByte at h
  split at h
  · cases h
  · rename_i hrange
    split at h
    · rename_i hle
      cases h
      have hn : (n : Int).toNat.toUInt8.toNat = n := by
        simp only [Chunk.maxShort] at hle
        simp
        omega
      refine Chunk.Extends.mono (Chunk.extends_emit_short hshort) fun C hC => ?_
      rw [hn] at hC
      exact ⟨short, .inl rfl, hC⟩
    · cases h
      have hle : n ≤ Chunk.maxLong := by omega
      exact Chunk.Extends.mono (Chunk.extends_emit_long hlong hle) fun C hC => ⟨long, .inr rfl, hC⟩

theorem pool_emitIndexed {c c' : Chunk} (h : c.emitIndexed short long n span = .ok c') :
    c'.pool = c.pool := by
  unfold Chunk.emitIndexed Chunk.emitIndexedByte at h
  split at h
  · cases h
  · split at h <;> cases h <;> rfl

theorem emits_emitIndexed (hshort : short.operandLength = 1) (hlong : long.operandLength = 3)
    (h : emitIndexed short long n span a = .ok ((), a')) :
    Emits a a' fun C => C.HasIndexed short long n span a.chunk.code.size a'.chunk.code.size := by
  obtain ⟨b, a₁, hget, h⟩ := ok_of_bind h
  cases hget
  cases hc : a.chunk.emitIndexed short long n span with
  | ok c =>
    rw [hc] at h
    cases h
    exact .of_extends rfl rfl (extends_emitIndexed hshort hlong hc) fun _ _ h =>
      h.chunk (pool_emitIndexed hc)
  | error f =>
    rw [hc] at h
    cases h

private theorem constant_eq {i : Nat} (h : constant v a = .ok (i, a')) :
    i = (a.chunk.pool.share v).1 ∧
      a' = { a with chunk := { a.chunk with pool := (a.chunk.pool.share v).2 } } := by
  have heq := Except.ok.inj h
  rw [Prod.mk.injEq] at heq
  exact ⟨heq.1.symm, heq.2.symm⟩

theorem size_constant {i : Nat} (h : constant v a = .ok (i, a')) :
    a'.chunk.code.size = a.chunk.code.size := by
  obtain ⟨-, rfl⟩ := constant_eq h
  rfl

private theorem emits_constant (hv : v.isTemplate = false) {i : Nat} (h : constant v a = .ok (i, a'))
    (hknown : ∀ address total, a.Known address total → v.KnownFunction address total) :
    Emits a a' fun C => C.pool.get? i = some v := by
  obtain ⟨rfl, rfl⟩ := constant_eq h
  refine .of_extends rfl rfl ((Chunk.extends_share v).mono fun C hC => ?_) fun address total h =>
    h.share (hknown address total h)
  exact hC v (Pool.get?_share_plain a.chunk.pool hv)

theorem emits_template {i : Nat} {text : Text} {splices : List Splice}
    (h : constant (.interp (some ⟨text, splices.map fun x => x.offset, 0⟩)) a = .ok (i, a')) :
    Emits a a' fun C => C.HasTemplate i text splices := by
  obtain ⟨rfl, rfl⟩ := constant_eq h
  refine .of_extends rfl rfl ((Chunk.extends_share _).mono fun C hC => ?_) fun _ _ h =>
    h.share nofun
  obtain ⟨tag, htag⟩ := Pool.get?_share_template a.chunk.pool
    ⟨text, splices.map fun x => x.offset, 0⟩
  exact ⟨tag, hC _ htag⟩

theorem emits_emitConstant (hv : v.isTemplate = false) (h : emitConstant v span a = .ok ((), a'))
    (hknown : ∀ address total, a.Known address total → v.KnownFunction address total) :
    Emits a a' fun C => C.HasConstant v span a.chunk.code.size a'.chunk.code.size := by
  obtain ⟨i, a₁, hconst, h⟩ := ok_of_bind h
  obtain ⟨a₂, a₃, hget, h⟩ := ok_of_bind h
  cases hget
  have hshare := emits_constant hv hconst hknown
  have hsize := size_constant hconst
  cases hc : a₁.chunk.emitIndexed .loadConst .loadConstLong i span with
  | ok c =>
    rw [hc] at h
    cases h
    have hindexed := extends_emitIndexed rfl rfl hc
    refine ⟨hshare.scope, hshare.outer, (hshare.chunk.trans hindexed).mono fun C hC ha => ?_,
      fun address total h => (hshare.known address total h).chunk (pool_emitIndexed hc)⟩
    rw [hsize] at hC
    exact ⟨i, hC.2, hC.1 ha⟩
  | error f =>
    rw [hc] at h
    cases h

theorem emits_emitPops (h : emitPops n span a = .ok ((), a')) :
    Emits a a' fun C => C.HasPops n span a.chunk.code.size a'.chunk.code.size := by
  unfold emitPops at h
  split at h
  · rename_i hn
    cases h
    refine .refl fun C => ?_
    rw [Chunk.HasPops, if_pos hn]
  · rename_i hn
    refine (emits_emitIndexed rfl rfl h).mono fun C hC => ?_
    rw [Chunk.HasPops, if_neg hn]
    exact hC

end Assemble

namespace Scope

variable {name : Text} {n : Nat} {l : Local} {s : Scope}

theorem slot?_names (name : Text) (s : Scope) : s.names.slot? name = slotIn name s.locals := by
  unfold names
  induction s.locals with
  | nil => rfl
  | cons x ls ih => rw [List.map_cons, Names.slot?, slotIn, ih, List.length_map]

theorem lookup_eq_none_of_names {ls : List Local} (h : ∀ l ∈ ls, l.name ≠ name) :
    (ls.map fun l => (l.name, l.function.map KnownFunction.offset)).lookup name = none := by
  rw [lookup_eq_none_iff, List.map_map]
  intro hmem
  obtain ⟨l, hl, heq⟩ := List.mem_map.1 hmem
  exact h l hl heq

private theorem lookup_names_of_find? (hs : s.Lexical) (h : s.find? name = some (n, l)) :
    s.names.lookup name = some (l.function.map KnownFunction.offset) := by
  obtain ⟨newer, m, older, heq, rfl, hm, hnewer⟩ := slotIn_eq_some_iff.1 (hs.slotIn_of_find? h)
  obtain rfl : m = l := Option.some.inj ((local?_append heq).symm.trans (local?_of_find? h).2)
  rw [names, heq, List.map_append, List.lookup_append, lookup_eq_none_of_names hnewer,
    List.map_cons, hm]
  simp

theorem names_forget (h : slotIn name s.locals = some n) :
    (s.forget n).names = s.names.forget name := by
  unfold names forget
  revert h
  induction s.locals with
  | nil => exact nofun
  | cons x ls ih =>
    intro h
    rw [slotIn] at h
    rw [forgetIn, List.map_cons, Names.forget]
    split at h
    · rename_i hx
      cases h
      rw [if_pos rfl, if_pos hx]
      rfl
    · rename_i hx
      rw [if_neg (Nat.ne_of_gt (slotIn_lt h)), if_neg hx, List.map_cons, ih h]

/-- A function that is found around the current one is held by a variable there. -/
private theorem exists_of_resolveOuter {outer : List Scope} {b : Binding}
    (h : resolveOuter name outer = .ok b) :
    ∃ f, b = .outer f ∧ ∃ s ∈ outer, ∃ l ∈ s.locals, l.function = some f := by
  induction outer with
  | nil => cases h
  | cons s outer ih =>
    unfold resolveOuter at h
    split at h
    · obtain ⟨f, hb, s', hs', hf⟩ := ih h
      exact ⟨f, hb, s', List.mem_cons_of_mem _ hs', hf⟩
    · rename_i l hfind
      split at h
      · rename_i f hf
        cases h
        exact ⟨f, rfl, s, List.mem_cons_self, l, mem_of_local? (local?_of_find? hfind).2, hf⟩
      · cases h

private theorem function?_of_resolveOuter {outer : List Scope} {f : KnownFunction}
    (hl : ∀ s ∈ outer, s.Lexical) (h : resolveOuter name outer = .ok (.outer f)) :
    Names.function? name (outer.map names) = some f.offset := by
  induction outer with
  | nil => cases h
  | cons s outer ih =>
    obtain ⟨hs, houter⟩ := List.forall_mem_cons.1 hl
    unfold resolveOuter at h
    rw [List.map_cons, Names.function?]
    split at h
    · rename_i hfind
      have hnone := slotIn_eq_none_iff.1 (hs.slotIn_of_find?_none hfind)
      rw [names, lookup_eq_none_of_names hnone]
      exact ih houter h
    · rename_i l hfind
      rw [lookup_names_of_find? hs hfind]
      split at h
      · rename_i f hf
        cases h
        rw [hf]
        rfl
      · cases h

end Scope

private theorem Assembly.Known.forget {address : Nat → Nat} {total : Nat} {a : Assembly}
    (h : a.Known address total) (n : Nat) :
    { a with scope := a.scope.forget n }.Known address total :=
  { h with
    scope := by
      intro name f hf
      obtain ⟨l', hl', heq⟩ := List.mem_map.1 hf
      obtain ⟨l, hl, hkeeps⟩ := Scope.exists_of_mem_keeps (Scope.keeps_forgetIn n a.scope.locals) hl'
      rcases hkeeps.function with hfunction | hfunction
      · refine h.scope name f (List.mem_map.2 ⟨l, hl, ?_⟩)
        rw [← heq, hkeeps.name, hfunction]
      · rw [hfunction] at heq
        cases heq }

namespace Assemble

variable {a a' : Assembly} {id : Ident}

theorem resolve_eq {b : Binding} (h : resolve id a = .ok (b, a')) :
    a' = a ∧ a.scope.resolve a.outer id.name = .ok b := by
  obtain ⟨a₁, a₂, hget, h⟩ := ok_of_bind h
  cases hget
  cases hr : a.scope.resolve a.outer id.name with
  | ok b =>
    rw [hr] at h
    cases h
    exact ⟨rfl, rfl⟩
  | error f =>
    rw [hr] at h
    cases h

/-- What a name leads to, in terms of the names of the scopes. -/
theorem resolve_cases {b : Binding} (h : resolve id a = .ok (b, a')) : a' = a ∧
    ((∃ n f, b = .slot n f ∧ n < a.scope.locals.length ∧
        (a.Lexical → a.scope.names.slot? id.name = some n)) ∨
      ∃ f, b = .outer f ∧ (∃ s ∈ a.outer, ∃ l ∈ s.locals, l.function = some f) ∧
        (a.Lexical → a.scope.names.slot? id.name = none ∧
          Names.function? id.name (a.outer.map Scope.names) = some f.offset)) := by
  obtain ⟨rfl, hr⟩ := resolve_eq h
  refine ⟨rfl, ?_⟩
  unfold Scope.resolve at hr
  split at hr
  · rename_i n l hfind
    cases hr
    refine .inl ⟨n, l.function, rfl, Scope.lt_of_local? (Scope.local?_of_find? hfind).2, fun ha => ?_⟩
    exact (Scope.slot?_names _ _).trans (ha.scope.slotIn_of_find? hfind)
  · rename_i hfind
    obtain ⟨f, rfl, hheld⟩ := Scope.exists_of_resolveOuter hr
    refine .inr ⟨f, rfl, hheld, fun ha => ⟨?_, ?_⟩⟩
    · exact (Scope.slot?_names _ _).trans (ha.scope.slotIn_of_find?_none hfind)
    · exact Scope.function?_of_resolveOuter (List.forall_mem_cons.1 ha).2 hr

theorem emits_readName (h : readName id a = .ok ((), a')) :
    Emits a a' fun C => id.ReadAt C (a.outer.map Scope.names) a.scope.names a.chunk.code.size
      a'.chunk.code.size := by
  unfold readName at h
  split at h
  · rename_i hit
    refine (emits_emit rfl h).mono fun C hC => ?_
    rw [Ident.ReadAt, if_pos hit]
    exact hC
  · rename_i hit
    obtain ⟨b, a₁, hb, h⟩ := ok_of_bind h
    obtain ⟨rfl, ⟨n, f, rfl, -, hslot⟩ | ⟨f, rfl, ⟨s, hs, l, hl, hf⟩, houter⟩⟩ := resolve_cases hb
    · have hemit := emits_emitIndexed rfl rfl h
      refine { hemit with chunk := hemit.chunk.mono fun C hC ha => ?_ }
      simp only [Ident.ReadAt, if_neg hit, hslot ha]
      exact hC ha
    · have hemit := emits_emitConstant rfl h fun _ _ h => h.function? hs hl hf
      refine { hemit with chunk := hemit.chunk.mono fun C hC ha => ?_ }
      simp only [Ident.ReadAt, if_neg hit, houter ha]
      exact hC ha

theorem emits_readCallee {argc : Nat} (h : readCallee id argc a = .ok ((), a')) :
    argc ≤ CompileFault.maxArity ∧ Emits a a' fun C =>
      id.ReadAt C (a.outer.map Scope.names) a.scope.names a.chunk.code.size a'.chunk.code.size := by
  unfold readCallee at h
  split at h
  · cases h
  · rename_i hargc
    refine ⟨by omega, ?_⟩
    split at h
    · obtain ⟨b, a₁, hb, hrest⟩ := ok_of_bind h
      obtain ⟨rfl, -⟩ := resolve_eq hb
      cases hf : b.function? with
      | none =>
        rw [hf] at hrest
        exact emits_readName hrest
      | some f =>
        rw [hf] at hrest
        dsimp only at hrest
        split at hrest
        · cases hrest
        · exact emits_readName hrest
    · exact emits_readName h

/-- Writing to a name changes what is known about it, and nothing else. -/
theorem extends_writeName (h : writeName id a = .ok ((), a')) :
    a'.outer = a.outer ∧
    (a'.scope = a.scope ∨ ∃ n, a'.scope = a.scope.forget n) ∧
    (a.Lexical → a'.scope.names = a.scope.names.written id.name) ∧
    (∀ address total, a.Known address total → a'.Known address total) ∧
    a.chunk.Extends a'.chunk [] fun C => a.Lexical →
      id.WrittenAt C a.scope.names a.chunk.code.size a'.chunk.code.size := by
  unfold writeName at h
  split at h
  · rename_i hit
    have hemit := emits_emit rfl h
    refine ⟨hemit.outer, .inl hemit.scope, fun _ => ?_, hemit.known,
      hemit.chunk.mono fun C hC ha => ?_⟩
    · rw [hemit.scope, Names.written, if_pos hit]
    · rw [Ident.WrittenAt, if_pos hit]
      exact hC ha
  · rename_i hit
    obtain ⟨b, a₁, hb, hrest⟩ := ok_of_bind h
    obtain ⟨rfl, ⟨n, f, rfl, -, hslot⟩ | ⟨f, rfl, -⟩⟩ := resolve_cases hb
    · obtain ⟨_, a₂, hforget, hrest⟩ := ok_of_bind hrest
      cases hforget
      have hemit := emits_emitIndexed rfl rfl hrest
      refine ⟨hemit.outer, .inr ⟨n, hemit.scope⟩, fun ha => ?_,
        fun _ _ h => hemit.known _ _ (h.forget n), hemit.chunk.mono fun C hC ha => ?_⟩
      · rw [hemit.scope, Names.written, if_neg hit]
        exact Scope.names_forget ((Scope.slot?_names _ _).symm.trans (hslot ha))
      · simp only [Ident.WrittenAt, if_neg hit, hslot ha]
        exact hC (ha.update (ha.scope.forget n))
    · cases hrest

end Assemble

open Assemble

variable {a a' : Assembly}

private theorem Splice.emitsAll : ∀ (ss : List Splice) {a a' : Assembly}, readAll ss a = .ok ((), a') →
    Emits a a' fun C => PlacedAll C (a.outer.map Scope.names) a.scope.names ss a.chunk.code.size
      a'.chunk.code.size
  | [], a, a', h => by
    cases h
    exact .refl fun _ => rfl
  | s :: ss, a, a', h => by
    obtain ⟨_, a₁, hs, hss⟩ := ok_of_bind h
    have h₁ := emits_readName hs
    have h₂ := emitsAll ss hss
    rw [h₁.outer, h₁.scope] at h₂
    exact (h₁.trans h₂).mono fun C hC => ⟨_, hC.1, hC.2⟩

namespace Expr

/-- The arguments of a call are few enough for a byte. -/
theorem toNat_toUInt8 {n : Nat} (h : n ≤ CompileFault.maxArity) : n.toUInt8.toNat = n := by
  simp only [CompileFault.maxArity] at h
  simp
  omega

mutual

/-- The compiler places the code of an expression. -/
theorem emits : ∀ (x : Expr) {a a' : Assembly}, x.assemble a = .ok ((), a') →
    Emits a a' fun C => x.Placed C (a.outer.map Scope.names) a.scope.names a.chunk.code.size
      a'.chunk.code.size
  | .int _ _, _, _, h | .float _ _, _, _, h | .string _ _, _, _, h | .bool _ _, _, _, h
  | .null _, _, _, h => emits_emitConstant rfl h (by rintro _ _ - _ ⟨⟩)
  | .it _, _, _, h => emits_emit rfl h
  | .var _ _, _, _, h => emits_readName h
  | .interp _ _ splices, a, a', h => by
    obtain ⟨_, a₁, hs, h⟩ := ok_of_bind h
    obtain ⟨i, a₂, ht, hi⟩ := ok_of_bind h
    have h₁ := Splice.emitsAll splices hs
    have h₃ := emits_emitIndexed rfl rfl hi
    rw [size_constant ht] at h₃
    exact (h₁.trans ((emits_template ht).trans h₃)).mono fun C hC =>
      ⟨_, i, hC.1, hC.2.1, hC.2.2⟩
  | .list _ xs, a, a', h => by
    obtain ⟨_, a₁, hxs, hi⟩ := ok_of_bind h
    exact ((emitsAll xs hxs).trans (emits_emitIndexed rfl rfl hi)).mono fun C hC =>
      ⟨_, hC.1, hC.2⟩
  | .call _ _ xs, a, a', h => by
    obtain ⟨_, a₁, hid, h⟩ := ok_of_bind h
    obtain ⟨_, a₂, hxs, hi⟩ := ok_of_bind h
    obtain ⟨hargc, h₁⟩ := emits_readCallee hid
    have h₂ := emitsAll xs hxs
    rw [h₁.outer, h₁.scope] at h₂
    have h₃ := emits_emit_byte rfl hi
    rw [toNat_toUInt8 hargc] at h₃
    exact (h₁.trans (h₂.trans h₃)).mono fun C hC => ⟨_, _, hC.1, hC.2.1, hC.2.2⟩
  | .concat _ [], _, _, h => emits_emitConstant rfl h (by rintro _ _ - _ ⟨⟩)
  | .concat _ [x], a, a', h => by
    obtain ⟨_, a₁, hc, h⟩ := ok_of_bind h
    obtain ⟨_, a₂, hx, hi⟩ := ok_of_bind h
    have h₁ := emits_emitConstant rfl hc (by rintro _ _ - _ ⟨⟩)
    have h₂ := emits x hx
    rw [h₁.outer, h₁.scope] at h₂
    exact (h₁.trans (h₂.trans (emits_emit rfl hi))).mono fun C hC => ⟨_, _, hC.1, hC.2.1, hC.2.2⟩
  | .concat _ (x :: y :: ys), a, a', h => by
    obtain ⟨_, a₁, hx, hxs⟩ := ok_of_bind h
    have h₁ := emits x hx
    have h₂ := emitsEach rfl (y :: ys) hxs
    rw [h₁.outer, h₁.scope] at h₂
    exact (h₁.trans h₂).mono fun C hC => ⟨_, hC.1, hC.2⟩
  | .cast _ x _, a, a', h => by
    obtain ⟨_, a₁, hx, hi⟩ := ok_of_bind h
    exact ((emits x hx).trans (emits_emit_byte rfl hi)).mono fun C hC => ⟨_, hC.1, hC.2⟩
  | .binary _ op x y, a, a', h => by
    obtain ⟨_, a₁, hx, h⟩ := ok_of_bind h
    obtain ⟨_, a₂, hy, hi⟩ := ok_of_bind h
    have h₁ := emits x hx
    have h₂ := emits y hy
    rw [h₁.outer, h₁.scope] at h₂
    have h₃ := emits_emit (by cases op <;> rfl) hi
    exact (h₁.trans (h₂.trans h₃)).mono fun C hC => ⟨_, _, hC.1, hC.2.1, hC.2.2⟩
  | .nary _ _ [], _, _, h => emits_emitConstant rfl h (by rintro _ _ - _ ⟨⟩)
  | .nary _ _ [x], a, a', h => by
    obtain ⟨_, a₁, hx, hi⟩ := ok_of_bind h
    exact ((emits x hx).trans (emits_emit_byte rfl hi)).mono fun C hC => ⟨_, hC.1, hC.2⟩
  | .nary _ op (x :: y :: ys), a, a', h => by
    obtain ⟨_, a₁, hx, hxs⟩ := ok_of_bind h
    have h₁ := emits x hx
    have h₂ := emitsEach (by cases op <;> rfl) (y :: ys) hxs
    rw [h₁.outer, h₁.scope] at h₂
    exact (h₁.trans h₂).mono fun C hC => ⟨_, hC.1, hC.2⟩
  | .unary _ op x, a, a', h => by
    obtain ⟨_, a₁, hx, hi⟩ := ok_of_bind h
    have h₂ := emits_emit (by cases op <;> rfl) hi
    exact ((emits x hx).trans h₂).mono fun C hC => ⟨_, hC.1, hC.2⟩
  | .pickAt _ i x, a, a', h => by
    obtain ⟨_, a₁, hx, h⟩ := ok_of_bind h
    obtain ⟨_, a₂, hi, hp⟩ := ok_of_bind h
    have h₁ := emits x hx
    have h₂ := emits i hi
    rw [h₁.outer, h₁.scope] at h₂
    exact (h₁.trans (h₂.trans (emits_emit rfl hp))).mono fun C hC => ⟨_, _, hC.1, hC.2.1, hC.2.2⟩
  | .pickFront _ x, a, a', h => by
    obtain ⟨_, a₁, hx, hi⟩ := ok_of_bind h
    exact ((emits x hx).trans (emits_emit rfl hi)).mono fun C hC => ⟨_, hC.1, hC.2⟩
  | .pickBack _ x, a, a', h => by
    obtain ⟨_, a₁, hx, hi⟩ := ok_of_bind h
    exact ((emits x hx).trans (emits_emit rfl hi)).mono fun C hC => ⟨_, hC.1, hC.2⟩

theorem emitsAll : ∀ (xs : List Expr) {a a' : Assembly}, assembleAll xs a = .ok ((), a') →
    Emits a a' fun C => PlacedAll C (a.outer.map Scope.names) a.scope.names xs a.chunk.code.size
      a'.chunk.code.size
  | [], a, a', h => by
    cases h
    exact .refl fun _ => rfl
  | x :: xs, a, a', h => by
    obtain ⟨_, a₁, hx, hxs⟩ := ok_of_bind h
    have h₁ := emits x hx
    have h₂ := emitsAll xs hxs
    rw [h₁.outer, h₁.scope] at h₂
    exact (h₁.trans h₂).mono fun C hC => ⟨_, hC.1, hC.2⟩

theorem emitsEach {op : Opcode} {s : Span} (hop : op.operandLength = 0) :
    ∀ (xs : List Expr) {a a' : Assembly}, assembleEach op s xs a = .ok ((), a') →
    Emits a a' fun C => PlacedEach C (a.outer.map Scope.names) a.scope.names op s xs
      a.chunk.code.size a'.chunk.code.size
  | [], a, a', h => by
    cases h
    exact .refl fun _ => rfl
  | x :: xs, a, a', h => by
    obtain ⟨_, a₁, hx, h⟩ := ok_of_bind h
    obtain ⟨_, a₂, hi, hxs⟩ := ok_of_bind h
    have h₁ := emits x hx
    have h₂ := emits_emit hop hi
    have h₃ := emitsEach hop xs hxs
    rw [h₂.outer, h₂.scope, h₁.outer, h₁.scope] at h₃
    exact (h₁.trans (h₂.trans h₃)).mono fun C hC => ⟨_, _, hC.1, hC.2.1, hC.2.2⟩

end

private theorem emitsJoined : ∀ (xs : List Expr) {a a' : Assembly}, assembleJoined xs a = .ok ((), a') →
    Emits a a' fun C => PlacedJoined C (a.outer.map Scope.names) a.scope.names xs
      a.chunk.code.size a'.chunk.code.size
  | [], a, a', h => by
    cases h
    exact .refl fun _ => rfl
  | x :: xs, a, a', h => by
    obtain ⟨_, a₁, hx, h⟩ := ok_of_bind h
    obtain ⟨_, a₂, hi, hxs⟩ := ok_of_bind h
    have h₁ := emits x hx
    have h₂ := emits_emit rfl hi
    have h₃ := emitsJoined xs hxs
    rw [h₂.outer, h₂.scope, h₁.outer, h₁.scope] at h₃
    exact (h₁.trans (h₂.trans h₃)).mono fun C hC => ⟨_, _, hC.1, hC.2.1, hC.2.2⟩

end Expr

variable {span : Span}

private theorem TypeName.emits {t : TypeName} (h : t.assembleDefault span a = .ok ((), a')) :
    Emits a a' fun C => t.DefaultAt C span a.chunk.code.size a'.chunk.code.size := by
  cases t with
  | bukkit => exact emits_emit_byte rfl h
  | _ => exact emits_emitConstant rfl h (by rintro _ _ - _ ⟨⟩)

theorem Initial.emits {i : Initial} (h : i.assemble span a = .ok ((), a')) :
    Emits a a' fun C => i.Placed C (a.outer.map Scope.names) a.scope.names span
      a.chunk.code.size a'.chunk.code.size := by
  cases i with
  | absent => exact emits_emitConstant rfl h (by rintro _ _ - _ ⟨⟩)
  | value x => exact x.emits h
  | typed t => exact TypeName.emits h

theorem emits_printed {args : List Expr} (h : assemblePrinted span args a = .ok ((), a')) :
    Emits a a' fun C => PrintedAt C (a.outer.map Scope.names) a.scope.names span
      a.chunk.code.size a'.chunk.code.size args := by
  cases args with
  | nil => exact emits_emitConstant rfl h (by rintro _ _ - _ ⟨⟩)
  | cons x xs =>
    obtain ⟨_, a₁, hx, hxs⟩ := ok_of_bind h
    have h₁ := x.emits hx
    have h₂ := Expr.emitsJoined xs hxs
    rw [h₁.outer, h₁.scope] at h₂
    exact (h₁.trans h₂).mono fun C hC => ⟨_, hC.1, hC.2⟩

end LolToolchain
