import LolToolchain.Proofs.Code.Compilation
import LolToolchain.Proofs.Evaluation.Validity

/-!
How high the stack is at each instruction. A table gives some offsets of the code a height, the
number of values of the current call on the stack; an instruction at such an offset is checked
against the table when it finds its operands, and when every instruction that can follow it has the
height that it leaves. The compiler makes such a table along with the code: here for expressions.
-/
namespace LolToolchain

/-- Offsets at which instructions are met, and the heights at which they are. -/
structure Heights where
  marked : Nat → Prop
  height : Nat → Nat

namespace Heights

/-- An instruction is met at an offset, with a height. -/
def At (H : Heights) (offset n : Nat) : Prop :=
  H.marked offset ∧ H.height offset = n

/-- The entries of a table. -/
def Includes (H : Heights) (T : List (Nat × Nat)) : Prop :=
  ∀ p ∈ T, H.At p.1 p.2

variable {H : Heights} {T U : List (Nat × Nat)}

theorem includes_append : H.Includes (T ++ U) ↔ H.Includes T ∧ H.Includes U :=
  List.forall_mem_append

theorem Includes.singleton {offset n : Nat} (h : H.Includes [(offset, n)]) : H.At offset n :=
  h _ List.mem_cons_self

end Heights

/-- Operations that are followed by the next instruction and by no other. -/
def Opcode.goesOn : Opcode → Bool
  | .jump | .jumpIfFalse | .ret | .halt => false
  | _ => true

namespace Chunk

/-- How many values an instruction takes from the stack. -/
def pops (c : Chunk) (i : Instruction) : Nat :=
  match i.op with
  | .popN | .popNLong | .list | .listLong => i.arg
  | .interp | .interpLong =>
    match c.pool.get? i.arg with
    | some (.interp (some t)) => t.offsets.length
    | _ => 0
  | .call => i.arg + 1
  | op => op.info.pops.getD 0

/-- The height after an instruction. -/
def heightAfter (c : Chunk) (i : Instruction) (n : Nat) : Nat :=
  n - c.pops i + i.op.info.pushes

/-- Whether the operand of an instruction fits a height. The marker of a function has the number of
its parameters. -/
def Accepts (c : Chunk) (l : Linked) (i : Instruction) (n : Nat) : Prop :=
  match i.op with
  | .loadConst | .loadConstLong => ∃ v, c.pool.get? i.arg = some v ∧ v.Valid l 0
  | .readSt | .readStLong => i.arg < n
  | .writeSt | .writeStLong => i.arg + 1 < n
  | .interp | .interpLong => ∃ text splices, c.HasTemplate i.arg text splices
  | .cast => ∃ t, TypeName.ofCode? i.arg.toUInt8 = some t
  | .fnDef => n = i.arg
  | _ => True

/-- The jump with an operand at an offset leads to an instruction with a height. -/
def JumpsTo (c : Chunk) (H : Heights) (operand n : Nat) : Prop :=
  ∃ target : Nat, c.readJump operand = target ∧ H.At target n

/-- Each instruction that can follow has the height that is left. -/
def LeadsOn (c : Chunk) (H : Heights) (offset : Nat) (i : Instruction) (n : Nat) : Prop :=
  match i.op with
  | .ret | .halt => True
  | .jump => c.JumpsTo H (offset + 1) (c.heightAfter i n)
  | .jumpIfFalse =>
    H.At (offset + i.op.length) (c.heightAfter i n) ∧ c.JumpsTo H (offset + 1) (c.heightAfter i n)
  | _ => H.At (offset + i.op.length) (c.heightAfter i n)

/-- There is an instruction that agrees with the table at an offset. -/
def Checks (c : Chunk) (l : Linked) (H : Heights) (offset n : Nat) : Prop :=
  ∃ i, c.fetch offset = .ok i ∧ c.pops i ≤ n ∧ c.Accepts l i n ∧ c.LeadsOn H offset i n

/-- The marker of a function is met at an offset. -/
def Defines (c : Chunk) (H : Heights) (offset : Nat) : Prop :=
  H.marked offset ∧ ∃ arity, c.fetch offset = .ok ⟨.fnDef, arity⟩

variable {c : Chunk} {l : Linked} {H : Heights} {op : Opcode} {arg start stop n m : Nat} {s : Span}

theorem Has.checks (h : c.Has op arg s start stop) (hop : op.goesOn = true)
    (hpops : c.pops ⟨op, arg⟩ ≤ n) (haccepts : c.Accepts l ⟨op, arg⟩ n)
    (hstop : H.At stop (c.heightAfter ⟨op, arg⟩ n)) : c.Checks l H start n := by
  obtain ⟨hfetch, -, rfl⟩ := h
  refine ⟨_, hfetch, hpops, haccepts, ?_⟩
  unfold LeadsOn
  cases op <;> first | exact hstop | cases hop

theorem Has.checks_end (h : c.Has op arg s start stop) (hop : op = .ret ∨ op = .halt)
    (hpops : op.info.pops.getD 0 ≤ n) : c.Checks l H start n := by
  rcases hop with rfl | rfl <;> exact ⟨_, h.1, hpops, trivial, trivial⟩

theorem HasJump.checks_jump {target : Nat} (h : c.HasJump .jump target s start stop)
    (htarget : H.At target n) : c.Checks l H start n :=
  ⟨_, h.1.1, Nat.zero_le _, trivial, target, h.2, htarget⟩

theorem HasJump.checks_test {target : Nat} (h : c.HasJump .jumpIfFalse target s start stop)
    (hstop : H.At stop n) (htarget : H.At target n) : c.Checks l H start (n + 1) := by
  obtain ⟨⟨hfetch, -, rfl⟩, hjump⟩ := h
  exact ⟨_, hfetch, Nat.le_add_left 1 n, trivial, hstop, target, hjump, htarget⟩

theorem HasConstant.checks {v : Value} (h : c.HasConstant v s start stop) (hv : v.Valid l 0)
    (hstop : H.At stop (n + 1)) : c.Checks l H start n := by
  obtain ⟨i, ⟨op, hop, hhas⟩, hget⟩ := h
  have haccepts : ∃ v, c.pool.get? i = some v ∧ v.Valid l 0 := ⟨v, hget, hv⟩
  rcases hop with rfl | rfl <;> exact hhas.checks rfl (Nat.zero_le _) haccepts hstop

/-- A template takes a value for each of its places. -/
theorem HasTemplate.pops {text : Text} {splices : List Splice} {i : Nat}
    (h : c.HasTemplate i text splices) (hop : op = .interp ∨ op = .interpLong) :
    c.pops ⟨op, i⟩ = splices.length := by
  obtain ⟨tag, hget⟩ := h
  rcases hop with rfl | rfl <;> simp [Chunk.pops, hget]

end Chunk

/-- The end of the code so far. -/
abbrev Assembly.offset (a : Assembly) : Nat :=
  a.chunk.code.size

/-- The number of variables in use. -/
abbrev Assembly.live (a : Assembly) : Nat :=
  a.scope.locals.length

namespace Assemble

variable {α : Type}

/-- What holds after a step of the compiler, if the step succeeds. -/
def After (x : Assemble α) (a : Assembly) (P : α → Assembly → Prop) : Prop :=
  ∀ r a', x a = .ok (r, a') → P r a'

theorem After.of_eq {x : Assemble α} {a a' : Assembly} {r : α} {P : α → Assembly → Prop}
    (h : x a = .ok (r, a')) (hP : P r a') : After x a P := by
  intro r' a'' h'
  rw [h] at h'
  cases h'
  exact hP

end Assemble

open Assemble

namespace Expr

mutual

/-- Heights suit an expression that is compiled from a state: its code raises the height by one, and
so does the code of each expression in it. -/
def Leveled (h : Nat → Nat) (x : Expr) (a : Assembly) : Prop :=
  After x.assemble a (fun _ a' => h a'.offset = h a.offset + 1) ∧
  match x with
  | .int _ _ | .float _ _ | .string _ _ | .bool _ _ | .null _ | .it _ | .var _ _
  | .interp _ _ _ => True
  | .list _ xs => LeveledAll h xs a
  | .call _ id xs => After (readCallee id xs.length) a fun _ a => LeveledAll h xs a
  | .concat _ [] | .nary _ _ [] => True
  | .concat s [x] => After (emitConstant (.yarn []) s) a fun _ a => Leveled h x a
  | .concat s (x :: xs) =>
    Leveled h x a ∧ After x.assemble a fun _ a => LeveledEach h .concat s xs a
  | .cast _ x _ | .nary _ _ [x] | .unary _ _ x | .pickFront _ x | .pickBack _ x => Leveled h x a
  | .nary s op (x :: xs) =>
    Leveled h x a ∧ After x.assemble a fun _ a => LeveledEach h op.opcode s xs a
  | .binary _ _ x y | .pickAt _ y x =>
    Leveled h x a ∧ After x.assemble a fun _ a => Leveled h y a

def LeveledAll (h : Nat → Nat) (xs : List Expr) (a : Assembly) : Prop :=
  match xs with
  | [] => True
  | x :: xs => Leveled h x a ∧ After x.assemble a fun _ a => LeveledAll h xs a

def LeveledEach (h : Nat → Nat) (op : Opcode) (span : Span) (xs : List Expr) (a : Assembly) : Prop :=
  match xs with
  | [] => True
  | x :: xs => Leveled h x a ∧ After x.assemble a fun _ a => After (emit op span) a fun _ a =>
      LeveledEach h op span xs a

end

end Expr

/-- A table for the code between two offsets. -/
structure Covers (T : List (Nat × Nat)) (start stop : Nat) : Prop where
  within : ∀ p ∈ T, start ≤ p.1 ∧ p.1 < stop
  ordered : T.Pairwise fun p q => p.1 < q.1

namespace Covers

variable {T U : List (Nat × Nat)} {x y z n : Nat}

theorem nil (x y : Nat) : Covers [] x y :=
  ⟨nofun, .nil⟩

theorem singleton (h : x < y) : Covers [(x, n)] x y :=
  ⟨List.forall_mem_singleton.2 ⟨Nat.le_refl _, h⟩, List.pairwise_singleton _ _⟩

theorem append (hT : Covers T x y) (hU : Covers U y z) (hxy : x ≤ y) (hyz : y ≤ z) :
    Covers (T ++ U) x z := by
  refine ⟨List.forall_mem_append.2 ⟨fun p hp => ?_, fun p hp => ?_⟩, ?_⟩
  · exact ⟨(hT.within p hp).1, Nat.lt_of_lt_of_le (hT.within p hp).2 hyz⟩
  · exact ⟨Nat.le_trans hxy (hU.within p hp).1, (hU.within p hp).2⟩
  · refine List.pairwise_append.2 ⟨hT.ordered, hU.ordered, fun p hp q hq => ?_⟩
    exact Nat.lt_of_lt_of_le (hT.within p hp).2 (hU.within q hq).1

end Covers

theorem Names.slot?_lt {name : Text} {ns : Names} {i : Nat} (h : ns.slot? name = some i) :
    i < ns.length := by
  induction ns with
  | nil => cases h
  | cons x ns ih =>
    rw [Names.slot?] at h
    split at h
    · cases h
      exact Nat.lt_succ_self _
    · exact Nat.lt_succ_of_lt (ih h)

/-- The functions that the variables around the current function are known to hold. -/
def Assembly.Knows (l : Linked) (a : Assembly) : Prop :=
  ∀ s ∈ a.outer, ∀ x ∈ s.locals, ∀ f, x.function = some f → (functionValue f.offset).Valid l 0

namespace Assemble

/-- Code is added that is met with the height `n` and left with the height `m`: each instruction of
it agrees with a table, and `Q` holds of the heights. -/
def Raises (a a' : Assembly) (n m : Nat) (Q : (Nat → Nat) → Prop) : Prop :=
  ∃ T, Covers T a.offset a'.offset ∧
    (∀ H : Heights, H.Includes T → H.At a'.offset m → H.At a.offset n) ∧
    Emits a a' fun C => ∀ (l : Linked) (H : Heights), H.Includes T → H.At a'.offset m → a.Knows l →
      (∀ p ∈ T, C.Checks l H p.1 p.2) ∧ Q H.height

variable {a a₁ a' : Assembly} {n m k : Nat} {P Q : (Nat → Nat) → Prop}

namespace Raises

theorem scope (h : Raises a a' n m Q) : a'.scope = a.scope := by
  obtain ⟨T, -, -, hemits⟩ := h
  exact hemits.scope

theorem refl (hQ : ∀ h, Q h) : Raises a a n n Q :=
  ⟨[], .nil _ _, fun _ _ h => h, .refl fun _ _ _ _ _ _ => ⟨nofun, hQ _⟩⟩

/-- One instruction. -/
theorem single {P : Chunk → Prop} (h : Emits a a' P) (hlt : a.offset < a'.offset)
    (hchecks : ∀ C, P C → ∀ (l : Linked) (H : Heights), H.At a'.offset m → a.Knows l →
      C.Checks l H a.offset n) : Raises a a' n m fun _ => True :=
  ⟨[(a.offset, n)], .singleton hlt, fun _ hT _ => hT.singleton,
    h.mono fun C hC l H _ hend hknows =>
      ⟨List.forall_mem_singleton.2 (hchecks C hC l H hend hknows), trivial⟩⟩

theorem trans (h₁ : Raises a a₁ n m P) (h₂ : Raises a₁ a' m k Q) :
    Raises a a' n k fun h => P h ∧ Q h := by
  obtain ⟨T, hT, henter₁, hemits₁⟩ := h₁
  obtain ⟨U, hU, henter₂, hemits₂⟩ := h₂
  refine ⟨T ++ U, hT.append hU hemits₁.chunk.size hemits₂.chunk.size, fun H hH hend => ?_, ?_⟩
  · obtain ⟨hHT, hHU⟩ := Heights.includes_append.1 hH
    exact henter₁ H hHT (henter₂ H hHU hend)
  · refine (hemits₁.trans hemits₂).mono fun C hC l H hH hend hknows => ?_
    obtain ⟨hHT, hHU⟩ := Heights.includes_append.1 hH
    have hknows' : a₁.Knows l := by
      rw [Assembly.Knows, hemits₁.outer]
      exact hknows
    obtain ⟨hchecks₁, hP⟩ := hC.1 l H hHT (henter₂ H hHU hend) hknows
    obtain ⟨hchecks₂, hQ⟩ := hC.2 l H hHU hend hknows'
    exact ⟨List.forall_mem_append.2 ⟨hchecks₁, hchecks₂⟩, hP, hQ⟩

theorem mono (h : Raises a a' n m P)
    (hPQ : ∀ h : Nat → Nat, h a.offset = n → h a'.offset = m → P h → Q h) : Raises a a' n m Q := by
  obtain ⟨T, hT, henter, hemits⟩ := h
  refine ⟨T, hT, henter, hemits.mono fun C hC l H hH hend hknows => ?_⟩
  obtain ⟨hchecks, hP⟩ := hC l H hH hend hknows
  exact ⟨hchecks, hPQ _ (henter H hH hend).2 hend.2 hP⟩

end Raises

variable {span : Span} {op short long : Opcode} {v : Value} {arg : Nat}

/-- Operations without an operand, those aside that end a call or a run. -/
theorem raises_emit (hlen : op.operandLength = 0) (hop : op.goesOn = true)
    (h : emit op span [] a = .ok ((), a')) (hn : n = k + op.info.pops.getD 0)
    (hm : m = k + op.info.pushes) : Raises a a' n m fun _ => True := by
  have hlt : a.offset < a'.offset := by
    cases h
    simp only [Assembly.offset, Chunk.size_code_emit]
    omega
  refine .single (emits_emit hlen h) hlt fun C hC l H hend _ => ?_
  have hpops : C.pops ⟨op, 0⟩ = op.info.pops.getD 0 := by
    cases op <;> first | rfl | cases hlen
  have haccepts : C.Accepts l ⟨op, 0⟩ n := by
    cases op <;> trivial
  have hafter : C.heightAfter ⟨op, 0⟩ n = m := by
    rw [Chunk.heightAfter, hpops, hn, Nat.add_sub_cancel, hm]
  exact hC.checks hop (by omega) haccepts (by rw [hafter]; exact hend)

/-- Operations with a byte as their operand. -/
theorem raises_emit_byte {x : UInt8} (hlen : op.operandLength = 1) (hop : op.goesOn = true)
    (h : emit op span [x] a = .ok ((), a'))
    (hpops : ∀ C : Chunk, C.pops ⟨op, x.toNat⟩ = n - k) (hk : k ≤ n)
    (haccepts : ∀ (C : Chunk) (l : Linked), C.Accepts l ⟨op, x.toNat⟩ n)
    (hm : m = k + op.info.pushes) : Raises a a' n m fun _ => True := by
  have hlt : a.offset < a'.offset := by
    cases h
    simp only [Assembly.offset, Chunk.size_code_emit]
    omega
  refine .single (emits_emit_byte hlen h) hlt fun C hC l H hend _ => ?_
  have hafter : C.heightAfter ⟨op, x.toNat⟩ n = m := by
    rw [Chunk.heightAfter, hpops C, Nat.sub_sub_self hk, hm]
  exact hC.checks hop (by rw [hpops C]; omega) (haccepts C l) (by rw [hafter]; exact hend)

theorem size_lt_emitIndexed {c c' : Chunk} (h : c.emitIndexed short long arg span = .ok c') :
    c.code.size < c'.code.size := by
  have hemit : ∀ (op : Opcode) (operand : List UInt8),
      c.code.size < (c.emit op operand span).code.size := by
    intro op operand
    rw [Chunk.size_code_emit]
    omega
  unfold Chunk.emitIndexed Chunk.emitIndexedByte at h
  split at h
  · cases h
  · split at h
    · cases h
      exact hemit short _
    · cases h
      exact hemit long _

theorem offset_lt_emitIndexed (h : emitIndexed short long arg span a = .ok ((), a')) :
    a.offset < a'.offset := by
  obtain ⟨_, _, hget, h⟩ := ok_of_bind h
  cases hget
  cases hc : a.chunk.emitIndexed short long arg span with
  | ok c =>
    rw [hc] at h
    cases h
    exact size_lt_emitIndexed hc
  | error f =>
    rw [hc] at h
    cases h

theorem offset_lt_emitConstant (h : emitConstant v span a = .ok ((), a')) :
    a.offset < a'.offset := by
  obtain ⟨i, a₁, hconst, h⟩ := ok_of_bind h
  obtain ⟨_, _, hget, h⟩ := ok_of_bind h
  cases hget
  cases hc : a₁.chunk.emitIndexed .loadConst .loadConstLong i span with
  | ok c =>
    rw [hc] at h
    cases h
    have hlt := size_lt_emitIndexed hc
    rw [size_constant hconst] at hlt
    exact hlt
  | error f =>
    rw [hc] at h
    cases h

theorem raises_emitConstant (h : emitConstant v span a = .ok ((), a')) (hv : v.isTemplate = false)
    (hvalid : ∀ l, a.Knows l → v.Valid l 0)
    (hknown : ∀ address total, a.Known address total → v.KnownFunction address total) :
    Raises a a' n (n + 1) fun _ => True :=
  .single (emits_emitConstant hv h hknown) (offset_lt_emitConstant h) fun _ hC l _ hend hknows =>
    hC.checks (hvalid l hknows) hend

/-- A slot of the current call is read. -/
theorem raises_readSlot (harg : arg < n) (h : emitIndexed .readSt .readStLong arg span a = .ok ((), a')) :
    Raises a a' n (n + 1) fun _ => True := by
  refine .single (emits_emitIndexed rfl rfl h) (offset_lt_emitIndexed h) fun C hC l H hend _ => ?_
  obtain ⟨op, hop, hhas⟩ := hC
  rcases hop with rfl | rfl <;> exact hhas.checks rfl (Nat.zero_le _) harg hend

/-- A slot of the current call is written. -/
theorem raises_writeSlot (harg : arg < n)
    (h : emitIndexed .writeSt .writeStLong arg span a = .ok ((), a')) :
    Raises a a' (n + 1) n fun _ => True := by
  refine .single (emits_emitIndexed rfl rfl h) (offset_lt_emitIndexed h) fun C hC l H hend _ => ?_
  obtain ⟨op, hop, hhas⟩ := hC
  rcases hop with rfl | rfl <;>
    exact hhas.checks rfl (Nat.le_add_left 1 n) (Nat.succ_lt_succ harg) hend

theorem raises_list (h : emitIndexed .list .listLong arg span a = .ok ((), a')) :
    Raises a a' (n + arg) (n + 1) fun _ => True := by
  refine .single (emits_emitIndexed rfl rfl h) (offset_lt_emitIndexed h) fun C hC l H hend _ => ?_
  obtain ⟨op, hop, hhas⟩ := hC
  have hafter : n + arg - arg + 1 = n + 1 := by rw [Nat.add_sub_cancel]
  rw [← hafter] at hend
  rcases hop with rfl | rfl <;> exact hhas.checks rfl (Nat.le_add_left arg n) trivial hend

theorem raises_pops (h : emitPops arg span a = .ok ((), a')) :
    Raises a a' (n + arg) n fun _ => True := by
  unfold emitPops at h
  split at h
  · rename_i harg
    cases h
    rw [harg]
    exact .refl fun _ => trivial
  · refine .single (emits_emitIndexed rfl rfl h) (offset_lt_emitIndexed h) fun C hC l H hend _ => ?_
    obtain ⟨op, hop, hhas⟩ := hC
    have hafter : n + arg - arg + 0 = n := by rw [Nat.add_sub_cancel, Nat.add_zero]
    rw [← hafter] at hend
    rcases hop with rfl | rfl <;> exact hhas.checks rfl (Nat.le_add_left arg n) trivial hend

/-- The values of a string literal are replaced by its text. -/
theorem raises_interp {text : Text} {splices : List Splice} {i : Nat}
    (ht : constant (.interp (some ⟨text, splices.map fun x => x.offset, 0⟩)) a = .ok (i, a₁))
    (h : emitIndexed .interp .interpLong i span a₁ = .ok ((), a')) :
    Raises a a' (n + splices.length) (n + 1) fun _ => True := by
  have hlt := offset_lt_emitIndexed h
  have hemits := (emits_template ht).trans (emits_emitIndexed rfl rfl h)
  rw [Assembly.offset, size_constant ht] at hlt
  rw [size_constant ht] at hemits
  refine .single hemits hlt fun C hC l H hend _ => ?_
  obtain ⟨htemplate, op, hop, hhas⟩ := hC
  have hpops := htemplate.pops hop
  have hafter : n + splices.length - splices.length + 1 = n + 1 := by rw [Nat.add_sub_cancel]
  rw [← hafter] at hend
  refine hhas.checks ?_ ?_ ?_ ?_
  · rcases hop with rfl | rfl <;> rfl
  · rw [hpops]
    exact Nat.le_add_left _ n
  · rcases hop with rfl | rfl <;> exact ⟨text, splices, htemplate⟩
  · rw [Chunk.heightAfter, hpops]
    rcases hop with rfl | rfl <;> exact hend

variable {id : Ident}

theorem raises_readName (hn : a.live ≤ n) (h : readName id a = .ok ((), a')) :
    Raises a a' n (n + 1) fun _ => True := by
  unfold readName at h
  split at h
  · exact raises_emit (k := n) rfl rfl h rfl rfl
  · obtain ⟨b, a₁, hb, h⟩ := ok_of_bind h
    obtain ⟨rfl, ⟨i, f, rfl, hi, -⟩ | ⟨f, rfl, ⟨s, hs, x, hx, hf⟩, -⟩⟩ := resolve_cases hb
    · exact raises_readSlot (Nat.lt_of_lt_of_le hi hn) h
    · exact raises_emitConstant h rfl (fun l hknows => hknows s hs x hx f hf)
        fun _ _ h => h.function? hs hx hf

theorem raises_readCallee {argc : Nat} (hn : a.live ≤ n) (h : readCallee id argc a = .ok ((), a')) :
    Raises a a' n (n + 1) fun _ => True := by
  unfold readCallee at h
  split at h
  · cases h
  · split at h
    · obtain ⟨b, a₁, hb, hrest⟩ := ok_of_bind h
      obtain ⟨rfl, -⟩ := resolve_eq hb
      cases hf : b.function? with
      | none =>
        rw [hf] at hrest
        exact raises_readName hn hrest
      | some f =>
        rw [hf] at hrest
        dsimp only at hrest
        split at hrest
        · cases hrest
        · exact raises_readName hn hrest
    · exact raises_readName hn h

end Assemble

private theorem Splice.raisesAll : ∀ (ss : List Splice) {a a' : Assembly} {n : Nat},
    Splice.readAll ss a = .ok ((), a') → a.live ≤ n → Raises a a' n (n + ss.length) fun _ => True
  | [], _, _, _, h, _ => by
    cases h
    exact .refl fun _ => trivial
  | s :: ss, a, a', n, h, hn => by
    obtain ⟨_, a₁, hs, hss⟩ := ok_of_bind h
    have h₁ := raises_readName hn hs
    have hn₁ : a₁.live ≤ n + 1 := by
      rw [Assembly.live, h₁.scope]
      exact Nat.le_succ_of_le hn
    have h₂ := Splice.raisesAll ss hss hn₁
    rw [Nat.add_assoc, Nat.add_comm 1] at h₂
    exact (h₁.trans h₂).mono fun _ _ _ _ => trivial

namespace Expr

variable {a a' : Assembly} {n : Nat}

/-- The height after an expression whose parts suit the heights. -/
private theorem leveled_of_raises {x : Expr} {Q : (Nat → Nat) → Prop} (h : x.assemble a = .ok ((), a'))
    (hraises : Raises a a' n (n + 1) Q)
    (hQ : ∀ h, Q h → After x.assemble a (fun _ a' => h a'.offset = h a.offset + 1) →
      x.Leveled h a) : Raises a a' n (n + 1) fun h => x.Leveled h a := by
  refine hraises.mono fun ht hstart hend hq => hQ ht hq (.of_eq h ?_)
  rw [hstart, hend]

/-- The scope after an expression is that before it. -/
theorem live_le_of_raises {a₁ : Assembly} {m : Nat} {Q : (Nat → Nat) → Prop}
    (h : Raises a a₁ n m Q) (hn : a.live ≤ n) (k : Nat) : a₁.live ≤ n + k := by
  rw [Assembly.live, h.scope]
  exact Nat.le_add_right_of_le hn

mutual

/-- The code of an expression raises the height by one. -/
theorem raises : ∀ (x : Expr) {a a' : Assembly} {n : Nat}, x.assemble a = .ok ((), a') →
    a.live ≤ n → Raises a a' n (n + 1) fun h => x.Leveled h a
  | .int _ _, _, _, _, h, _ | .float _ _, _, _, _, h, _ | .string _ _, _, _, _, h, _
  | .bool _ _, _, _, _, h, _ | .null _, _, _, _, h, _ | .concat _ [], _, _, _, h, _
  | .nary _ _ [], _, _, _, h, _ =>
    leveled_of_raises h
      (raises_emitConstant h rfl (fun _ _ => trivial) (by rintro _ _ - _ ⟨⟩)) fun _ _ hup =>
      ⟨hup, trivial⟩
  | .it _, _, _, n, h, _ =>
    leveled_of_raises h (raises_emit (k := n) rfl rfl h rfl rfl) fun _ _ hup => ⟨hup, trivial⟩
  | .var _ _, _, _, _, h, hn =>
    leveled_of_raises h (raises_readName hn h) fun _ _ hup => ⟨hup, trivial⟩
  | .interp _ _ splices, a, a', n, h, hn => by
    obtain ⟨_, a₁, hs, hrest⟩ := ok_of_bind h
    obtain ⟨i, a₂, ht, hi⟩ := ok_of_bind hrest
    have h₁ := Splice.raisesAll splices hs hn
    exact leveled_of_raises h (h₁.trans (raises_interp ht hi)) fun _ _ hup => ⟨hup, trivial⟩
  | .list _ xs, a, a', n, h, hn => by
    obtain ⟨_, a₁, hxs, hi⟩ := ok_of_bind h
    exact leveled_of_raises h ((raisesAll xs hxs hn).trans (raises_list hi)) fun _ hq hup =>
      ⟨hup, hq.1⟩
  | .call _ id xs, a, a', n, h, hn => by
    obtain ⟨_, a₁, hid, hrest⟩ := ok_of_bind h
    obtain ⟨_, a₂, hxs, hi⟩ := ok_of_bind hrest
    have hargc := (emits_readCallee hid).1
    have h₁ := raises_readCallee hn hid
    have h₂ := raisesAll xs hxs (live_le_of_raises h₁ hn 1)
    have h₃ : Raises a₂ a' (n + 1 + xs.length) (n + 1) fun _ => True := by
      refine raises_emit_byte (k := n) rfl rfl hi (fun C => ?_) (by omega) (fun _ _ => trivial) rfl
      rw [toNat_toUInt8 hargc]
      change xs.length + 1 = _
      omega
    exact leveled_of_raises h (h₁.trans (h₂.trans h₃)) fun _ hq hup => ⟨hup, .of_eq hid hq.2.1⟩
  | .concat _ [x], a, a', n, h, hn => by
    obtain ⟨_, a₁, hc, hrest⟩ := ok_of_bind h
    obtain ⟨_, a₂, hx, hi⟩ := ok_of_bind hrest
    have h₁ : Raises a a₁ n (n + 1) _ :=
      raises_emitConstant hc rfl (fun _ _ => trivial) (by rintro _ _ - _ ⟨⟩)
    have h₂ := raises x hx (live_le_of_raises h₁ hn 1)
    have h₃ : Raises a₂ a' (n + 1 + 1) (n + 1) _ := raises_emit (k := n) rfl rfl hi rfl rfl
    exact leveled_of_raises h (h₁.trans (h₂.trans h₃)) fun _ hq hup => ⟨hup, .of_eq hc hq.2.1⟩
  | .concat s (x :: y :: ys), a, a', n, h, hn => by
    obtain ⟨_, a₁, hx, hxs⟩ := ok_of_bind h
    have h₁ := raises x hx hn
    have h₂ := raisesEach rfl rfl rfl rfl (y :: ys) hxs (live_le_of_raises h₁ hn 0)
    exact leveled_of_raises h (h₁.trans h₂) fun _ hq hup => ⟨hup, hq.1, .of_eq hx hq.2⟩
  | .cast _ x t, a, a', n, h, hn => by
    obtain ⟨_, a₁, hx, hi⟩ := ok_of_bind h
    have h₂ : Raises a₁ a' (n + 1) (n + 1) _ :=
      raises_emit_byte (k := n) rfl rfl hi (fun _ => (Nat.add_sub_cancel_left n 1).symm)
        (Nat.le_succ n) (fun _ _ => ⟨t, Action.ofCode?_code t⟩) rfl
    exact leveled_of_raises h ((raises x hx hn).trans h₂) fun _ hq hup => ⟨hup, hq.1⟩
  | .binary _ op x y, a, a', n, h, hn => by
    obtain ⟨_, a₁, hx, hrest⟩ := ok_of_bind h
    obtain ⟨_, a₂, hy, hi⟩ := ok_of_bind hrest
    have h₁ := raises x hx hn
    have h₂ := raises y hy (live_le_of_raises h₁ hn 1)
    have h₃ : Raises a₂ a' (n + 1 + 1) (n + 1) _ :=
      raises_emit (k := n) (by cases op <;> rfl) (by cases op <;> rfl) hi (by cases op <;> rfl)
        (by cases op <;> rfl)
    exact leveled_of_raises h (h₁.trans (h₂.trans h₃)) fun _ hq hup =>
      ⟨hup, hq.1, .of_eq hx hq.2.1⟩
  | .nary _ _ [x], a, a', n, h, hn => by
    obtain ⟨_, a₁, hx, hi⟩ := ok_of_bind h
    have h₂ : Raises a₁ a' (n + 1) (n + 1) _ :=
      raises_emit_byte (k := n) rfl rfl hi (fun _ => (Nat.add_sub_cancel_left n 1).symm)
        (Nat.le_succ n) (fun _ _ => ⟨.troof, rfl⟩) rfl
    exact leveled_of_raises h ((raises x hx hn).trans h₂) fun _ hq hup => ⟨hup, hq.1⟩
  | .nary s op (x :: y :: ys), a, a', n, h, hn => by
    obtain ⟨_, a₁, hx, hxs⟩ := ok_of_bind h
    have h₁ := raises x hx hn
    have h₂ := raisesEach (by cases op <;> rfl) (by cases op <;> rfl) (by cases op <;> rfl)
      (by cases op <;> rfl) (y :: ys) hxs (live_le_of_raises h₁ hn 0)
    exact leveled_of_raises h (h₁.trans h₂) fun _ hq hup => ⟨hup, hq.1, .of_eq hx hq.2⟩
  | .unary _ op x, a, a', n, h, hn => by
    obtain ⟨_, a₁, hx, hi⟩ := ok_of_bind h
    have h₂ : Raises a₁ a' (n + 1) (n + 1) _ :=
      raises_emit (k := n) (by cases op <;> rfl) (by cases op <;> rfl) hi (by cases op <;> rfl)
        (by cases op <;> rfl)
    exact leveled_of_raises h ((raises x hx hn).trans h₂) fun _ hq hup => ⟨hup, hq.1⟩
  | .pickAt _ i x, a, a', n, h, hn => by
    obtain ⟨_, a₁, hx, hrest⟩ := ok_of_bind h
    obtain ⟨_, a₂, hi, hp⟩ := ok_of_bind hrest
    have h₁ := raises x hx hn
    have h₂ := raises i hi (live_le_of_raises h₁ hn 1)
    have h₃ : Raises a₂ a' (n + 1 + 1) (n + 1) _ := raises_emit (k := n) rfl rfl hp rfl rfl
    exact leveled_of_raises h (h₁.trans (h₂.trans h₃)) fun _ hq hup =>
      ⟨hup, hq.1, .of_eq hx hq.2.1⟩
  | .pickFront _ x, a, a', n, h, hn | .pickBack _ x, a, a', n, h, hn => by
    obtain ⟨_, a₁, hx, hi⟩ := ok_of_bind h
    have h₂ : Raises a₁ a' (n + 1) (n + 1) _ := raises_emit (k := n) rfl rfl hi rfl rfl
    exact leveled_of_raises h ((raises x hx hn).trans h₂) fun _ hq hup => ⟨hup, hq.1⟩

theorem raisesAll : ∀ (xs : List Expr) {a a' : Assembly} {n : Nat},
    assembleAll xs a = .ok ((), a') → a.live ≤ n →
    Raises a a' n (n + xs.length) fun h => LeveledAll h xs a
  | [], _, _, _, h, _ => by
    cases h
    exact .refl fun _ => trivial
  | x :: xs, a, a', n, h, hn => by
    obtain ⟨_, a₁, hx, hxs⟩ := ok_of_bind h
    have h₁ := raises x hx hn
    have h₂ := raisesAll xs hxs (live_le_of_raises h₁ hn 1)
    rw [Nat.add_assoc, Nat.add_comm 1] at h₂
    exact (h₁.trans h₂).mono fun _ _ _ hq => ⟨hq.1, .of_eq hx hq.2⟩

theorem raisesEach {op : Opcode} {s : Span} (hlen : op.operandLength = 0) (hop : op.goesOn = true)
    (hpops : op.info.pops = some 2) (hpushes : op.info.pushes = 1) :
    ∀ (xs : List Expr) {a a' : Assembly} {n : Nat}, assembleEach op s xs a = .ok ((), a') →
    a.live ≤ n → Raises a a' (n + 1) (n + 1) fun h => LeveledEach h op s xs a
  | [], _, _, _, h, _ => by
    cases h
    exact .refl fun _ => trivial
  | x :: xs, a, a', n, h, hn => by
    obtain ⟨_, a₁, hx, hrest⟩ := ok_of_bind h
    obtain ⟨_, a₂, hi, hxs⟩ := ok_of_bind hrest
    have h₁ := raises x hx (Nat.le_succ_of_le hn)
    have h₂ : Raises a₁ a₂ (n + 1 + 1) (n + 1) _ :=
      raises_emit (k := n) hlen hop hi (by rw [hpops]; rfl) (by rw [hpushes])
    have hn₂ : a₂.live ≤ n := by
      rw [Assembly.live, h₂.scope, h₁.scope]
      exact hn
    have h₃ := raisesEach hlen hop hpops hpushes xs hxs hn₂
    exact (h₁.trans (h₂.trans h₃)).mono fun _ _ _ hq =>
      ⟨hq.1, .of_eq hx (.of_eq hi hq.2.2)⟩

end

end Expr
end LolToolchain
