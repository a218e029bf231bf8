import LolToolchain.Proofs.Bytecode.Storage
import LolToolchain.Proofs.Code.Heights
import LolToolchain.Proofs.Program.Criteria

/-!
What the compiler puts into a chunk. Each byte of the code has a span of the program, and each
constant is a literal of the program or a value that the compiler makes by itself. No template has
more places than there are bytes of code, since each of them is read first. Every step of the
compiler keeps this, or stops with a diagnostic whose spans are of the program.
-/
namespace LolToolchain

/-- A value that the compiler makes by itself. -/
def Value.Made : Value → Prop
  | .numbar x => x = .zero
  | .yarn t => t = []
  | .noob | .troof _ | .numbr _ | .funkshon _ => True
  | .interp _ | .bukkit _ | .unknown _ => False

/-- What a chunk under construction is like, in a program that meets criteria. -/
structure Chunk.Contents (k : Criteria) (c : Chunk) : Prop where
  coded : c.coded = true
  aligned : c.positions.size = c.code.size
  spans : ∀ s ∈ c.positions.toList, k.span s
  pool : c.pool.Shared
  constants : ∀ x ∈ c.pool.constants.toList,
    ∃ v tag, (k.literal v ∨ v.Made) ∧ x.value = v.retag tag
  places : ∀ x ∈ c.pool.constants.toList, x.value.offsets.length ≤ c.code.size

variable {k : Criteria}

theorem Value.offsets_retag (v : Value) (tag : Nat) : (v.retag tag).offsets = v.offsets := by
  cases v with
  | interp t => cases t <;> rfl
  | _ => rfl

namespace Pool

private theorem shared_empty : empty.Shared :=
  ⟨rfl, rfl, nofun, nofun⟩

/-- Sharing adds a constant without spare fields, with its place as tag, or none. -/
private theorem Shared.share {p : Pool} (h : p.Shared) (v : Value) : (p.share v).2.Shared := by
  rw [Pool.share]
  split
  · exact h
  · refine ⟨h.indexed, h.hidden, fun c hc => ?_, fun i c hc => ?_⟩
    · rw [Array.toList_push] at hc
      rcases List.mem_append.1 hc with hc | hc
      · exact h.spare c hc
      · rw [List.mem_singleton.1 hc]
    · rw [Array.toList_push] at hc
      by_cases hi : i < p.constants.toList.length
      · rw [List.getElem?_append_left hi] at hc
        exact h.tagged i c hc
      · rw [List.getElem?_append_right (Nat.not_lt.1 hi)] at hc
        obtain ⟨hlt, rfl⟩ := List.getElem?_eq_some_iff.1 hc
        have hsize : i = p.size := by
          rw [List.length_singleton] at hlt
          rw [Array.length_toList] at hlt hi
          exact Nat.le_antisymm (by rw [size]; omega) (by rw [size]; omega)
        simp only [List.getElem_singleton]
        rw [hsize, Value.retag_retag]

end Pool

namespace Chunk.Contents

variable {c c' : Chunk} {span : Span}

theorem empty : Chunk.empty.Contents k :=
  ⟨rfl, rfl, nofun, Pool.shared_empty, nofun, nofun⟩

theorem emitByte (h : c.Contents k) (hspan : k.span span) (op : UInt8) (operand : List UInt8) :
    (c.emitByte op operand span).Contents k where
  coded := rfl
  aligned := by
    have haligned := h.aligned
    simp only [Chunk.emitByte, ← Array.length_toList, Array.toList_appendList, Array.toList_push,
      List.length_append, List.length_replicate, List.length_singleton] at haligned ⊢
    omega
  spans s hs := by
    simp only [Chunk.emitByte, Array.toList_appendList] at hs
    rcases List.mem_append.1 hs with hs | hs
    · exact h.spans s hs
    · rw [List.eq_of_mem_replicate hs]
      exact hspan
  pool := h.pool
  constants := h.constants
  places x hx := by
    have hplaces := h.places x hx
    simp only [Chunk.emitByte, ← Array.length_toList, Array.toList_appendList, Array.toList_push,
      List.length_append, List.length_singleton] at hplaces ⊢
    omega

theorem emitIndexed {short long : Opcode} {n : Nat} (h : c.Contents k) (hspan : k.span span)
    (hemit : c.emitIndexed short long n span = .ok c') : c'.Contents k := by
  unfold Chunk.emitIndexed Chunk.emitIndexedByte at hemit
  split at hemit
  · cases hemit
  · split at hemit
    · cases hemit
      exact h.emitByte hspan _ _
    · cases hemit
      exact h.emitByte hspan _ _

theorem share (h : c.Contents k) {v : Value} (hv : k.literal v ∨ v.Made)
    (hplaces : v.offsets.length ≤ c.code.size) :
    { c with pool := (c.pool.share v).2 : Chunk }.Contents k where
  coded := h.coded
  aligned := h.aligned
  spans := h.spans
  pool := h.pool.share v
  constants x hx := by
    rcases Pool.mem_share hx with hx | hx
    · exact h.constants x hx
    · exact ⟨v, _, hv, hx⟩
  places x hx := by
    rcases Pool.mem_share hx with hx | hx
    · exact h.places x hx
    · rw [hx, Value.offsets_retag]
      exact hplaces

theorem patchTo (h : c.Contents k) (offset : Nat) (target : Int) :
    (c.patchTo offset target).Contents k := by
  have hsize := Chunk.size_patchTo (c := c) offset target
  have hpool := Chunk.pool_patchTo (c := c) offset target
  constructor
  · rw [Chunk.patchTo]
    exact h.coded
  · rw [hsize, Chunk.positions_patchTo]
    exact h.aligned
  · rw [Chunk.positions_patchTo]
    exact h.spans
  · rw [hpool]
    exact h.pool
  · rw [hpool]
    exact h.constants
  · rw [hpool, hsize]
    exact h.places

end Chunk.Contents

namespace Assemble

/-- A step of the compiler that keeps what the chunk is like, or stops at a span of the program. -/
def Keeps {α : Type} (k : Criteria) (x : Assemble α) : Prop :=
  ∀ a : Assembly, a.chunk.Contents k →
    Diagnostic.Ends (Diagnostic.Points k.span) (x a) fun r => r.2.chunk.Contents k

namespace Keeps

variable {α β : Type} {x : Assemble α} {f : α → Assemble β} {span : Span} {v : Value} {id : Ident}

theorem pure {r : α} : Keeps k (pure r) :=
  fun _ ha => ha

theorem bind (hx : Keeps k x) (hf : ∀ r, Keeps k (f r)) : Keeps k (x >>= f) :=
  fun a ha => (hx a ha).bind fun r hr => hf r.1 r.2 hr

/-- A step, and what follows from where it leads. -/
theorem bindRun {a : Assembly} (hx : Keeps k x) (ha : a.chunk.Contents k)
    (hf : ∀ r a', x a = .ok (r, a') → a'.chunk.Contents k →
      Diagnostic.Ends (Diagnostic.Points k.span) (f r a') fun r => r.2.chunk.Contents k) :
    Diagnostic.Ends (Diagnostic.Points k.span) ((x >>= f) a) fun r => r.2.chunk.Contents k :=
  (hx a ha).bindEq fun r hrun hr => hf r.1 r.2 hrun hr

theorem fail {fault : CompileFault} (hspan : k.span span) :
    Keeps k (fail fault span : Assemble α) :=
  fun _ _ => Diagnostic.points_new hspan

theorem ite {p : Prop} [Decidable p] {y : Assemble α} (hx : Keeps k x) (hy : Keeps k y) :
    Keeps k (if p then x else y) := by
  split
  · exact hx
  · exact hy

theorem get : Keeps k get :=
  fun _ ha => ha

theorem modify {g : Assembly → Assembly}
    (h : ∀ a : Assembly, a.chunk.Contents k → (g a).chunk.Contents k) : Keeps k (modify g) :=
  h

/-- A step that only changes the names in use. -/
theorem updateScope {g : Scope → Scope} : Keeps k (updateScope g) :=
  modify fun _ ha => ha

theorem scope : Keeps k scope :=
  get.bind fun _ => pure

theorem here : Keeps k here :=
  get.bind fun _ => pure

theorem emit {op : Opcode} {operand : List UInt8} (hspan : k.span span) :
    Keeps k (emit op span operand) :=
  modify fun _ ha => ha.emitByte hspan _ _

/-- Adds an operation with an operand that may be too large. -/
theorem indexed {short long : Opcode} {n : Nat} {fault : OperandFault → CompileFault}
    (hspan : k.span span) : Keeps k (do
      let a ← MonadState.get
      match a.chunk.emitIndexed short long n span with
      | .ok chunk => set { a with chunk }
      | .error f => Assemble.fail (fault f) span) := by
  intro a ha
  change Diagnostic.Ends _ ((match a.chunk.emitIndexed short long n span with
    | .ok chunk => set { a with chunk }
    | .error f => Assemble.fail (fault f) span : Assemble Unit) a) _
  cases hemit : a.chunk.emitIndexed short long n span with
  | ok c => exact ha.emitIndexed hspan hemit
  | error f => exact Diagnostic.points_new hspan

theorem emitIndexed {short long : Opcode} {n : Nat} (hspan : k.span span) :
    Keeps k (emitIndexed short long n span) :=
  indexed hspan

/-- A template has its place after the code that reads what it is filled with. -/
theorem constant {a : Assembly} (hv : k.literal v ∨ v.Made)
    (hplaces : v.offsets.length ≤ a.offset) (ha : a.chunk.Contents k) :
    Diagnostic.Ends (Diagnostic.Points k.span) (constant v a) fun r => r.2.chunk.Contents k :=
  ha.share hv hplaces

theorem emitConstant (hspan : k.span span) (hv : k.literal v ∨ v.Made)
    (hplain : v.offsets = []) : Keeps k (emitConstant v span) :=
  Keeps.bind (fun a ha => constant hv (by simp [hplain]) ha) fun _ => indexed hspan

theorem emitPops {n : Nat} (hspan : k.span span) : Keeps k (emitPops n span) :=
  ite pure (emitIndexed hspan)

theorem emitJump {op : Opcode} (hspan : k.span span) : Keeps k (emitJump op span) :=
  fun _ ha => ha.emitByte hspan _ _

theorem patch {j : Nat} : Keeps k (patch j) :=
  modify fun _ ha => ha.patchTo _ _

theorem patchAll {js : List Nat} : Keeps k (patchAll js) := by
  induction js with
  | nil => exact pure
  | cons j js ih => exact patch.bind fun _ => ih

theorem patchOption {j : Option Nat} : Keeps k (patchOption j) := by
  cases j with
  | none => exact pure
  | some j => exact patch

theorem emitLoop {start : Nat} (hspan : k.span span) : Keeps k (emitLoop start span) :=
  modify fun _ ha => Chunk.Contents.patchTo (ha.emitByte hspan _ _) _ _

theorem closeScope (hspan : k.span span) : Keeps k (closeScope span) :=
  scope.bind fun _ => updateScope.bind fun _ => emitPops hspan

theorem closeBreakable : Keeps k closeBreakable := by
  refine scope.bind fun s => ?_
  split
  · exact pure
  · exact patchAll.bind fun _ => updateScope

theorem resolve (hspan : k.span id.span) : Keeps k (resolve id) := by
  refine get.bind fun a => ?_
  split
  · exact pure
  · exact fail hspan

theorem readName (hspan : k.span id.span) : Keeps k (readName id) := by
  refine ite (emit hspan) ((resolve hspan).bind fun b => ?_)
  cases b with
  | slot n f => exact emitIndexed hspan
  | outer f => exact emitConstant hspan (.inr trivial) rfl

theorem writeName (hspan : k.span id.span) : Keeps k (writeName id) := by
  refine ite (emit hspan) ((resolve hspan).bind fun b => ?_)
  cases b with
  | slot n f => exact updateScope.bind fun _ => emitIndexed hspan
  | outer f => exact fail hspan

theorem readCallee {argc : Nat} (hspan : k.span id.span) : Keeps k (readCallee id argc) := by
  refine ite (fail hspan) (ite ((resolve hspan).bind fun b => ?_) (readName hspan))
  cases b.function? with
  | none => exact readName hspan
  | some f => exact ite (fail hspan) (readName hspan)

theorem leave (hspan : k.span span) : Keeps k (leave span) := by
  refine scope.bind fun s => ?_
  cases s.breakables with
  | nil => exact fail hspan
  | cons b rest =>
    dsimp only
    split
    · exact (emitConstant (v := .noob) hspan (.inr trivial) rfl).bind fun _ => emit hspan
    · exact (emitPops hspan).bind fun _ => (emitJump hspan).bind fun _ => updateScope

end Keeps
end Assemble

open Assemble

/-- The code that reads a name has a byte at least. -/
private theorem Assemble.offset_lt_readName {id : Ident} {a a' : Assembly}
    (h : readName id a = .ok ((), a')) : a.offset < a'.offset := by
  unfold readName at h
  split at h
  · cases h
    simp only [Assembly.offset, Chunk.size_code_emit]
    omega
  · obtain ⟨b, a₁, hb, hrest⟩ := ok_of_bind h
    obtain ⟨rfl, -⟩ := resolve_eq hb
    cases b with
    | slot n f => exact offset_lt_emitIndexed hrest
    | outer f => exact offset_lt_emitConstant hrest

private theorem Splice.offset_le_readAll {ss : List Splice} {a a' : Assembly}
    (h : Splice.readAll ss a = .ok ((), a')) : a.offset + ss.length ≤ a'.offset := by
  induction ss generalizing a with
  | nil =>
    cases h
    exact Nat.le_refl _
  | cons s ss ih =>
    obtain ⟨_, a₁, hs, hss⟩ := ok_of_bind h
    have hlt := offset_lt_readName hs
    have hle := ih hss
    rw [List.length_cons]
    omega

private theorem Splice.keeps_readAll : ∀ {ss : List Splice}, (∀ x ∈ ss, x.Meets k) →
    Keeps k (Splice.readAll ss)
  | [], _ => Keeps.pure
  | _ :: _, h =>
    have hcons := List.forall_mem_cons.1 h
    (Keeps.readName hcons.1.1).bind fun _ => keeps_readAll hcons.2

namespace Expr

mutual

/-- The code of an expression. -/
theorem Meets.keeps : ∀ {x : Expr}, x.Meets k → Keeps k x.assemble
  | .int _ _, h | .float _ _, h | .string _ _, h => Keeps.emitConstant h.1 (.inl h.2) rfl
  | .bool _ b, h => Keeps.emitConstant (v := .troof b) h (.inr trivial) rfl
  | .null _, h => Keeps.emitConstant (v := .noob) h (.inr trivial) rfl
  | .it _, h => Keeps.emit h
  | .var _ _, h => Keeps.readName h.2.1
  | .interp _ _ _, h => fun _ ha =>
    Keeps.bindRun (Splice.keeps_readAll h.2.2) ha fun _ _ hrun ha₁ => by
      have hplaces := Nat.le_of_add_left_le (Splice.offset_le_readAll hrun)
      rw [← List.length_map fun x : Splice => (x.offset : Int)] at hplaces
      exact (Keeps.constant (.inl h.2.1) hplaces ha₁).bind fun i hi =>
        Keeps.emitIndexed h.1 i.2 hi
  | .list _ _, h => (MeetsAll.keeps h.2).bind fun _ => Keeps.emitIndexed h.1
  | .call _ _ _, h =>
    (Keeps.readCallee h.2.1.1).bind fun _ => (MeetsAll.keeps h.2.2).bind fun _ => Keeps.emit h.1
  | .concat _ [], h => Keeps.emitConstant (v := .yarn []) h.1 (.inr rfl) rfl
  | .concat _ [_], h =>
    (Keeps.emitConstant (v := .yarn []) h.1 (.inr rfl) rfl).bind fun _ =>
      (Meets.keeps h.2.1.1).bind fun _ => Keeps.emit h.1
  | .concat _ (_ :: _ :: _), h =>
    (Meets.keeps h.2.1.1).bind fun _ => MeetsAll.keepsEach h.1 h.2.1.2
  | .cast _ _ _, h => (Meets.keeps h.2).bind fun _ => Keeps.emit h.1
  | .binary _ _ _ _, h =>
    (Meets.keeps h.2.1.1).bind fun _ => (Meets.keeps h.2.1.2).bind fun _ => Keeps.emit h.1
  | .nary _ op [], h => Keeps.emitConstant (v := .troof (op == .all)) h.1 (.inr trivial) rfl
  | .nary _ _ [_], h => (Meets.keeps h.2.1).bind fun _ => Keeps.emit h.1
  | .nary _ _ (_ :: _ :: _), h =>
    (Meets.keeps h.2.1).bind fun _ => MeetsAll.keepsEach h.1 h.2.2
  | .unary _ _ _, h => (Meets.keeps h.2).bind fun _ => Keeps.emit h.1
  | .pickAt _ _ _, h =>
    (Meets.keeps h.2.2).bind fun _ => (Meets.keeps h.2.1).bind fun _ => Keeps.emit h.1
  | .pickFront _ _, h | .pickBack _ _, h => (Meets.keeps h.2).bind fun _ => Keeps.emit h.1

theorem MeetsAll.keeps : ∀ {xs : List Expr}, MeetsAll k xs → Keeps k (assembleAll xs)
  | [], _ => Keeps.pure
  | _ :: _, h => (Meets.keeps h.1).bind fun _ => MeetsAll.keeps h.2

theorem MeetsAll.keepsEach {op : Opcode} {span : Span} (hspan : k.span span) :
    ∀ {xs : List Expr}, MeetsAll k xs → Keeps k (assembleEach op span xs)
  | [], _ => Keeps.pure
  | _ :: _, h =>
    (Meets.keeps h.1).bind fun _ => (Keeps.emit hspan).bind fun _ => MeetsAll.keepsEach hspan h.2

end

private theorem MeetsAll.keepsJoined : ∀ {xs : List Expr}, MeetsAll k xs → Keeps k (assembleJoined xs)
  | [], _ => Keeps.pure
  | _ :: _, h =>
    (Meets.keeps h.1).bind fun _ => (Keeps.emit h.1.span).bind fun _ => MeetsAll.keepsJoined h.2

end Expr

section

variable {span : Span}

theorem Initial.Meets.keeps {i : Initial} (h : i.Meets k) (hspan : k.span span) :
    Keeps k (i.assemble span) := by
  cases i with
  | absent => exact Keeps.emitConstant (v := .noob) hspan (.inr trivial) rfl
  | value e => exact Expr.Meets.keeps h
  | typed t =>
    cases t with
    | noob => exact Keeps.emitConstant (v := .noob) hspan (.inr trivial) rfl
    | troof => exact Keeps.emitConstant (v := .troof false) hspan (.inr trivial) rfl
    | numbr => exact Keeps.emitConstant (v := .numbr 0) hspan (.inr trivial) rfl
    | numbar => exact Keeps.emitConstant (v := .numbar .zero) hspan (.inr rfl) rfl
    | yarn => exact Keeps.emitConstant (v := .yarn []) hspan (.inr rfl) rfl
    | bukkit => exact Keeps.emit hspan

theorem keeps_assemblePrinted {args : List Expr} (h : Expr.MeetsAll k args)
    (hspan : k.span span) : Keeps k (assemblePrinted span args) := by
  cases args with
  | nil => exact Keeps.emitConstant (v := .yarn []) hspan (.inr rfl) rfl
  | cons x xs => exact (Expr.Meets.keeps h.1).bind fun _ => Expr.MeetsAll.keepsJoined h.2

theorem LoopTest.Meets.keeps {t : LoopTest} (h : t.Meets k) : Keeps k t.assemble := by
  cases t with
  | forever => exact Keeps.pure
  | untilTrue e =>
    exact (Expr.Meets.keeps h).bind fun _ => (Keeps.emit (Expr.Meets.span h)).bind fun _ =>
      (Keeps.emitJump (Expr.Meets.span h)).bind fun _ => Keeps.pure
  | whileTrue e =>
    exact (Expr.Meets.keeps h).bind fun _ => (Keeps.emitJump (Expr.Meets.span h)).bind fun _ =>
      Keeps.pure

private theorem LoopUpdate.Meets.keeps {u : LoopUpdate} (h : u.Meets k) {slot : Nat} :
    Keeps k (u.assembleChange slot) := by
  obtain ⟨hchange, ⟨hcounter, -⟩, -⟩ := h
  unfold assembleChange
  cases hu : u.change with
  | up | down =>
    exact (Keeps.emitIndexed hcounter).bind fun _ =>
      (Keeps.emitConstant (v := .numbr 1) hcounter (.inr trivial) rfl).bind fun _ =>
        (Keeps.emit hcounter).bind fun _ => Keeps.emitIndexed hcounter
  | apply f =>
    rw [hu] at hchange
    exact (Keeps.readCallee hchange.1).bind fun _ => (Keeps.emitIndexed hcounter).bind fun _ =>
      (Keeps.emit hchange.1).bind fun _ => Keeps.emitIndexed hcounter

private theorem keeps_declareParams : ∀ {params : List Ident}, Keeps k (declareParams params)
  | [] => Keeps.pure
  | _ :: _ => Keeps.updateScope.bind fun _ => keeps_declareParams

private theorem keeps_openFunction {name : Ident} {params : List Ident} (hspan : k.span span)
    (hname : k.span name.span) : Keeps k (openFunction span name params) := by
  refine Keeps.ite (Keeps.fail hname) ((Keeps.emitJump hspan).bind fun _ => Keeps.here.bind fun _ => ?_)
  exact (Keeps.emit hspan).bind fun _ => Keeps.updateScope.bind fun _ =>
    Keeps.bind (Keeps.modify fun _ ha => by exact ha) fun _ =>
      keeps_declareParams.bind fun _ => Keeps.pure

private theorem keeps_closeFunction {body : List Stmt} {skip : Nat} {f : KnownFunction}
    (hspan : k.span span) : Keeps k (closeFunction span body skip f) := by
  refine Keeps.ite ((Keeps.emit hspan).bind fun _ => (Keeps.emit hspan).bind fun _ => ?_) ?_
  all_goals
    refine (Keeps.modify fun a ha => ?_).bind fun _ => Keeps.patch.bind fun _ =>
      Keeps.emitConstant hspan (.inr trivial) rfl
    cases a.outer with
    | nil => exact ha
    | cons s rest => exact ha

private theorem keeps_openLoop {update : Option LoopUpdate} (h : ∀ u ∈ update, u.Meets k) :
    Keeps k (openLoop update) := by
  refine Keeps.updateScope.bind fun _ => Keeps.scope.bind fun _ => ?_
  cases update with
  | none => exact Keeps.updateScope.bind fun _ => Keeps.pure
  | some u =>
    exact (Keeps.emitConstant (v := .numbr 0) (h u rfl).2.1.1 (.inr trivial) rfl).bind fun _ =>
      Keeps.updateScope.bind fun _ => Keeps.updateScope.bind fun _ => Keeps.pure

end

mutual

/-- The code of a statement. -/
theorem Stmt.Meets.keeps : ∀ {s : Stmt}, s.Meets k → Keeps k s.assemble
  | .assign _ _ _, h => (Expr.Meets.keeps h.2.2).bind fun _ => Keeps.writeName h.2.1.1
  | .declare _ _ _, h => (h.2.2.keeps h.1).bind fun _ => Keeps.updateScope
  | .load _ _, _ => Keeps.pure
  | .define _ _ _ (.mk _ _), h =>
    (keeps_openFunction h.1 h.2.1.1).bind fun _ => (Stmt.MeetsAll.keeps h.2.2.1).bind fun _ =>
      keeps_closeFunction h.1
  | .expr _ _, h => (Expr.Meets.keeps h.2).bind fun _ => Keeps.emit h.1
  | .switch _ _ _, h =>
    Keeps.updateScope.bind fun _ => (Arm.MeetsAll.keepsSwitch h.1 h.2.1).bind fun _ =>
      Keeps.patchOption.bind fun _ => (Block.MeetsOption.keeps h.1 h.2.2).bind fun _ =>
        Keeps.closeBreakable
  | .branch _ _ _ _, h =>
    (Keeps.emit h.1).bind fun _ => (Keeps.emitJump h.1).bind fun _ =>
      (Block.MeetsOption.keeps h.1 h.2.1).bind fun _ => (Keeps.emitJump h.1).bind fun _ =>
        (Arm.MeetsAll.keepsBranch h.1 h.2.2.1).bind fun _ => Keeps.patch.bind fun _ =>
          (Block.MeetsOption.keeps h.1 h.2.2.2).bind fun _ => Keeps.patchAll
  | .cast _ _ _, h =>
    (Keeps.readName h.2.1).bind fun _ => (Keeps.emit h.1).bind fun _ => Keeps.writeName h.2.1
  | .leave _, h => Keeps.leave h
  | .loop _ _ _ none (.mk _ _), h =>
    (keeps_openLoop h.2.1).bind fun _ => Keeps.here.bind fun _ => Keeps.pure.bind fun _ =>
      Keeps.updateScope.bind fun _ => (Stmt.MeetsAll.keeps h.2.2.1).bind fun _ =>
        (Keeps.closeScope h.1).bind fun _ => (Keeps.emitLoop h.1).bind fun _ =>
          Keeps.patchOption.bind fun _ => Keeps.closeBreakable.bind fun _ => Keeps.closeScope h.1
  | .loop _ _ _ (some u) (.mk _ _), h =>
    (keeps_openLoop h.2.1).bind fun _ => Keeps.here.bind fun _ =>
      (LoopTest.Meets.keeps (h.2.1 u rfl).2.2).bind fun _ =>
        Keeps.updateScope.bind fun _ => (Stmt.MeetsAll.keeps h.2.2.1).bind fun _ =>
          (Keeps.closeScope h.1).bind fun _ => (LoopUpdate.Meets.keeps (h.2.1 u rfl)).bind fun _ =>
            (Keeps.emitLoop h.1).bind fun _ => Keeps.patchOption.bind fun _ =>
              Keeps.closeBreakable.bind fun _ => Keeps.closeScope h.1
  | .ret _ _, h => (Expr.Meets.keeps h.2).bind fun _ => Keeps.emit h.1
  | .print _ _ _, h => (keeps_assemblePrinted h.2.1 h.1).bind fun _ => Keeps.emit h.1
  | .read _ _, h => (Keeps.emit h.1).bind fun _ => Keeps.writeName h.2.1
  | .append _ _ _, h =>
    (Keeps.readName h.2.1.1).bind fun _ => (Expr.Meets.keeps h.2.2).bind fun _ => Keeps.emit h.1
  | .store _ _ _ _, h =>
    (Keeps.readName h.2.1.1).bind fun _ => (Expr.Meets.keeps h.2.2.1).bind fun _ =>
      (Expr.Meets.keeps h.2.2.2).bind fun _ => Keeps.emit h.1

theorem Stmt.MeetsAll.keeps : ∀ {ss : List Stmt}, Stmt.MeetsAll k ss →
    Keeps k (Stmt.assembleAll ss)
  | [], _ => Keeps.pure
  | _ :: _, h => (Stmt.Meets.keeps h.1).bind fun _ => Stmt.MeetsAll.keeps h.2

theorem Block.MeetsOption.keeps {span : Span} (hspan : k.span span) : ∀ {block : Option Block},
    Block.MeetsOption k block → Keeps k (Block.assembleOption span block)
  | none, _ => Keeps.pure
  | some (.mk _ _), h =>
    Keeps.updateScope.bind fun _ => (Stmt.MeetsAll.keeps h).bind fun _ => Keeps.closeScope hspan

theorem Arm.MeetsAll.keepsSwitch {span : Span} (hspan : k.span span) : ∀ {arms : List Arm} {fall : Option Nat},
    Arm.MeetsAll k arms → Keeps k (Arm.assembleSwitch span fall arms)
  | [], _, _ => Keeps.pure
  | .mk _ (.mk _ _) :: _, _, h =>
    (Keeps.emit h.1.span).bind fun _ => (Expr.Meets.keeps h.1).bind fun _ =>
      (Keeps.emit h.1.span).bind fun _ => (Keeps.emitJump h.1.span).bind fun _ =>
        Keeps.patchOption.bind fun _ => Keeps.updateScope.bind fun _ =>
          (Stmt.MeetsAll.keeps h.2.1).bind fun _ => (Keeps.closeScope hspan).bind fun _ =>
            (Keeps.emitJump hspan).bind fun _ => Keeps.patch.bind fun _ =>
              Arm.MeetsAll.keepsSwitch hspan h.2.2

theorem Arm.MeetsAll.keepsBranch {span : Span} (hspan : k.span span) : ∀ {arms : List Arm} {next : Nat},
    Arm.MeetsAll k arms → Keeps k (Arm.assembleBranch span next arms)
  | [], _, _ => Keeps.pure
  | .mk _ (.mk _ _) :: _, _, h =>
    Keeps.patch.bind fun _ => (Expr.Meets.keeps h.1).bind fun _ =>
      (Keeps.emitJump h.1.span).bind fun _ => Keeps.updateScope.bind fun _ =>
        (Stmt.MeetsAll.keeps h.2.1).bind fun _ => (Keeps.closeScope hspan).bind fun _ =>
          (Keeps.emitJump hspan).bind fun _ =>
            (Arm.MeetsAll.keepsBranch hspan h.2.2).bind fun _ => Keeps.pure

end

theorem Program.Meets.keeps {p : Program} (h : p.Meets k) : Keeps k p.assemble :=
  (Stmt.MeetsAll.keeps h.2.1).bind fun _ => Keeps.emit h.1

/-- The chunk of a program that meets criteria. -/
theorem Program.Meets.contents {p : Program} (h : p.Meets k) {names : NameTable} {c : Chunk}
    (hcompile : p.compile names = .ok c) : c.Contents k := by
  obtain ⟨a', hrun, rfl⟩ := Program.compile_parts hcompile
  have ha' := h.keeps ⟨.empty, .empty, []⟩ Chunk.Contents.empty
  rw [show p.assemble ⟨.empty, .empty, []⟩ = _ from hrun] at ha'
  exact ⟨ha'.coded, ha'.aligned, ha'.spans, ha'.pool, ha'.constants, ha'.places⟩

/-- The diagnostic of a program that meets criteria but cannot be compiled. -/
theorem Program.Meets.points {p : Program} (h : p.Meets k) {names : NameTable} {d : Diagnostic}
    (hcompile : p.compile names = .error d) : d.Points k.span := by
  have hends := h.keeps ⟨.empty, .empty, []⟩ Chunk.Contents.empty
  cases hrun : p.assemble ⟨.empty, .empty, []⟩ with
  | ok r =>
    change (p.assemble ⟨.empty, .empty, []⟩ >>= _) = _ at hcompile
    rw [hrun] at hcompile
    cases hcompile
  | error d' =>
    change (p.assemble ⟨.empty, .empty, []⟩ >>= _) = _ at hcompile
    rw [hrun] at hcompile hends
    cases hcompile
    exact hends

end LolToolchain
