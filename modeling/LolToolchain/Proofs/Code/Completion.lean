import LolToolchain.Proofs.Bytecode.Keys
import LolToolchain.Proofs.Machine.Instruction

/-!
Chunks under construction. Code is only added at the end, but the operands of jumps are written
when it is known where they lead; until then a jump is open. `Completes` relates a finished chunk to
an earlier state of it, and `Extends` says what a part of the construction adds: which jumps it
leaves open, and what it makes true of every chunk that is completed from its result.
-/
namespace LolToolchain

namespace Pool

variable {p : Pool} {v : Value}

theorem get?_share_of_get? {i : Nat} {u : Value} (h : p.get? i = some u) :
    (p.share v).2.get? i = some u := by
  unfold share
  split
  · exact h
  · obtain ⟨c, hc, hu⟩ := Option.map_eq_some_iff.1 h
    have hi := (Array.getElem?_eq_some_iff.1 hc).1
    simp only [get?, Array.getElem?_push]
    rw [if_neg (by omega), hc, Option.map_some, hu]

/-- The place of a value holds it, or one that can stand for it. -/
theorem get?_share (p : Pool) (v : Value) : ∃ u tag, (p.share v).2.get? (p.share v).1 = some u ∧
    (u.shares v = true ∨ u = v.retag tag) := by
  unfold share
  split
  · rename_i i hi
    have hfind := List.find?_some hi
    simp only [Bool.and_eq_true, Option.any_eq_true] at hfind
    obtain ⟨-, u, hu, hshares⟩ := hfind
    exact ⟨u, 0, hu, .inl hshares⟩
  · exact ⟨v.retag p.size, p.size, by simp [get?, size], .inr rfl⟩

theorem mem_share {p : Pool} {v : Value} {c : Constant} (h : c ∈ (p.share v).2.constants.toList) :
    c ∈ p.constants.toList ∨ c.value = v.retag p.size := by
  rw [Pool.share] at h
  split at h
  · exact .inl h
  · rw [Array.toList_push] at h
    rcases List.mem_append.1 h with h | h
    · exact .inl h
    · rw [List.mem_singleton.1 h]
      exact .inr rfl

end Pool

/-- Whether a value is a template. -/
def Value.isTemplate : Value → Bool
  | .interp _ => true
  | _ => false

theorem Value.retag_eq {v : Value} (hv : v.isTemplate = false) (tag : Nat) : v.retag tag = v := by
  cases v <;> first | rfl | cases hv

private theorem Value.eq_of_shares {u v : Value} (hv : v.isTemplate = false) (h : u.shares v = true) :
    u = v := by
  have halike : u.retag 0 = v := Eq.trans (shares_iff.1 h).2 (retag_eq hv 0)
  cases u with
  | interp t =>
    subst halike
    cases t <;> cases hv
  | _ => exact halike

theorem Pool.get?_share_plain (p : Pool) {v : Value} (hv : v.isTemplate = false) :
    (p.share v).2.get? (p.share v).1 = some v := by
  obtain ⟨u, tag, hu, hs | hr⟩ := p.get?_share v
  · rw [hu, Value.eq_of_shares hv hs]
  · rw [hu, hr, Value.retag_eq hv]

theorem Pool.get?_share_template (p : Pool) (t : Template) :
    ∃ tag, (p.share (.interp (some t))).2.get? (p.share (.interp (some t))).1 =
      some (.interp (some { t with tag })) := by
  obtain ⟨u, tag, hu, hs | hr⟩ := p.get?_share (.interp (some t))
  · have halike : u.retag 0 = .interp (some { t with tag := 0 }) := (Value.shares_iff.1 hs).2
    cases u with
    | interp s =>
      cases s with
      | none => cases halike
      | some s =>
        obtain ⟨htext, hoffsets, -⟩ := Template.mk.inj (Option.some.inj (Value.interp.inj halike))
        refine ⟨s.tag, ?_⟩
        rw [hu, ← htext, ← hoffsets]
    | _ => cases halike
  · exact ⟨tag, by rw [hu, hr]; rfl⟩

namespace Chunk

/-- A finished chunk agrees with an earlier state of it, but for the operands of open jumps. -/
structure Completes (C c : Chunk) (opened : List Nat) : Prop where
  size : c.code.size ≤ C.code.size
  code : ∀ i < c.code.size, (∀ j ∈ opened, i < j ∨ j + 4 ≤ i) → C.code[i]? = c.code[i]?
  spans : ∀ i < c.code.size, C.positions[i]? = c.positions[i]?
  aligned : c.positions.size = c.code.size
  pool : ∀ i v, c.pool.get? i = some v → C.pool.get? i = some v

/-- The operands of two jumps do not overlap. -/
def Apart (i j : Nat) : Prop :=
  i + 4 ≤ j ∨ j + 4 ≤ i

/-- What leads from a chunk to another: the jumps `new` are open in it, and `P` holds of what is
completed from it. -/
structure Extends (c c' : Chunk) (new : List Nat) (P : Chunk → Prop) : Prop where
  size : c.code.size ≤ c'.code.size
  aligned : c.positions.size = c.code.size → c'.positions.size = c'.code.size
  fresh : ∀ j ∈ new, c.code.size ≤ j ∧ j + 4 ≤ c'.code.size
  apart : new.Pairwise Apart
  back : ∀ (C : Chunk) (opened : List Nat), C.Completes c' (new ++ opened) →
    (∀ j ∈ opened, j + 4 ≤ c.code.size) → C.Completes c opened ∧ P C

variable {c c₁ c₂ : Chunk} {new new₁ new₂ : List Nat} {P Q : Chunk → Prop}

theorem Extends.refl (h : ∀ C, P C) : c.Extends c [] P where
  size := Nat.le_refl _
  aligned := id
  fresh := nofun
  apart := .nil
  back _ _ hC _ := ⟨hC, h _⟩

theorem Completes.refl (haligned : c.positions.size = c.code.size) : c.Completes c [] :=
  ⟨Nat.le_refl _, fun _ _ _ => rfl, fun _ _ => rfl, haligned, fun _ _ h => h⟩

theorem Completes.congr {C : Chunk} {opened opened' : List Nat} (h : C.Completes c opened)
    (heq : ∀ j, j ∈ opened → j ∈ opened') : C.Completes c opened' :=
  { h with code := fun i hi hj => h.code i hi fun j hmem => hj j (heq j hmem) }

theorem Extends.trans (h₁ : c.Extends c₁ new₁ P) (h₂ : c₁.Extends c₂ new₂ Q) :
    c.Extends c₂ (new₁ ++ new₂) fun C => P C ∧ Q C where
  size := Nat.le_trans h₁.size h₂.size
  aligned := h₂.aligned ∘ h₁.aligned
  fresh j hj := by
    have hs₁ := h₁.size
    have hs₂ := h₂.size
    rcases List.mem_append.1 hj with hj | hj
    · have := h₁.fresh j hj
      omega
    · have := h₂.fresh j hj
      omega
  apart := by
    refine List.pairwise_append.2 ⟨h₁.apart, h₂.apart, fun i hi j hj => ?_⟩
    have := h₁.fresh i hi
    have := h₂.fresh j hj
    exact .inl (by omega)
  back C opened hC hopened := by
    have hC₂ : C.Completes c₂ (new₂ ++ (new₁ ++ opened)) := by
      refine hC.congr fun j hj => ?_
      simp only [List.mem_append] at hj ⊢
      rcases hj with (hj | hj) | hj
      · exact .inr (.inl hj)
      · exact .inl hj
      · exact .inr (.inr hj)
    obtain ⟨hC₁, hQ⟩ := h₂.back C _ hC₂ fun j hj => by
      have := h₁.size
      rcases List.mem_append.1 hj with hj | hj
      · exact (h₁.fresh j hj).2
      · have := hopened j hj
        omega
    obtain ⟨hC₀, hP⟩ := h₁.back C _ hC₁ hopened
    exact ⟨hC₀, hP, hQ⟩

theorem Extends.mono (h : c.Extends c₁ new P) (hPQ : ∀ C, P C → Q C) : c.Extends c₁ new Q :=
  { h with back := fun C opened hC hopened =>
      let ⟨hc, hP⟩ := h.back C opened hC hopened
      ⟨hc, hPQ C hP⟩ }

theorem Extends.perm (h : c.Extends c₁ new P) (hperm : new.Perm new₁) : c.Extends c₁ new₁ P where
  size := h.size
  aligned := h.aligned
  fresh j hj := h.fresh j (hperm.mem_iff.2 hj)
  apart := h.apart.perm hperm fun hij => hij.symm
  back C opened hC hopened := by
    refine h.back C opened (hC.congr fun j hj => ?_) hopened
    rw [List.mem_append] at hj ⊢
    exact hj.imp hperm.mem_iff.2 id

variable {op : Opcode} {span : Span} {operand : List UInt8} {a b n : Nat}

@[simp] theorem toList_code_emit :
    (c.emit op operand span).code.toList = c.code.toList ++ op.byte :: operand := by
  simp [emit, emitByte, Array.toList_appendList]

@[simp] theorem toList_positions_emit : (c.emit op operand span).positions.toList =
    c.positions.toList ++ List.replicate (operand.length + 1) span := by
  simp [emit, emitByte, Array.toList_appendList]

@[simp] theorem size_code_emit :
    (c.emit op operand span).code.size = c.code.size + (operand.length + 1) := by
  rw [← Array.length_toList, toList_code_emit]
  simp

@[simp] theorem size_positions_emit :
    (c.emit op operand span).positions.size = c.positions.size + (operand.length + 1) := by
  rw [← Array.length_toList, toList_positions_emit]
  simp

theorem Completes.of_emit {C : Chunk} {opened : List Nat}
    (h : C.Completes (c.emit op operand span) opened) : C.Completes c opened := by
  have hsize := h.size
  have haligned := h.aligned
  rw [size_code_emit] at hsize
  rw [size_code_emit, size_positions_emit] at haligned
  refine ⟨by omega, fun i hi hj => ?_, fun i hi => ?_, by omega, h.pool⟩
  · rw [h.code i (by rw [size_code_emit]; omega) hj, ← Array.getElem?_toList, toList_code_emit,
      List.getElem?_append_left (by simpa using hi), Array.getElem?_toList]
  · rw [h.spans i (by rw [size_code_emit]; omega), ← Array.getElem?_toList, toList_positions_emit,
      List.getElem?_append_left (by simp only [Array.length_toList]; omega), Array.getElem?_toList]

theorem Completes.spanAt {C : Chunk} {opened : List Nat}
    (h : C.Completes (c.emit op operand span) opened) {i : Nat} (hi : i < operand.length + 1) :
    C.spanAt (c.code.size + i : Nat) = span := by
  have haligned := h.aligned
  rw [size_code_emit, size_positions_emit] at haligned
  have hspan := h.spans (c.code.size + i) (by rw [size_code_emit]; omega)
  rw [← Array.getElem?_toList, ← Array.getElem?_toList, toList_positions_emit,
    List.getElem?_append_right (by simp only [Array.length_toList]; omega)] at hspan
  have hplace : c.code.size + i - c.positions.toList.length = i := by
    simp only [Array.length_toList]
    omega
  rw [hplace, List.getElem?_replicate_of_lt hi, Array.getElem?_toList] at hspan
  rw [Chunk.spanAt, if_neg (by omega), Int.toNat_natCast, Array.getD_eq_getD_getElem?, hspan,
    Option.getD_some]

/-- A byte that an instruction has brought is there, unless it is the operand of an open jump. -/
theorem Completes.byteAt_emit {C : Chunk} {opened : List Nat}
    (h : C.Completes (c.emit op operand span) opened) {i : Nat} {x : UInt8}
    (hi : (op.byte :: operand)[i]? = some x)
    (hopened : ∀ j ∈ opened, c.code.size + i < j ∨ j + 4 ≤ c.code.size + i) :
    C.code[c.code.size + i]? = some x := by
  have hlt : i < operand.length + 1 := by
    simpa using (List.getElem?_eq_some_iff.1 hi).1
  rw [h.code _ (by rw [size_code_emit]; omega) hopened, ← Array.getElem?_toList, toList_code_emit,
    List.getElem?_append_right (by simp), Array.length_toList, Nat.add_sub_cancel_left, hi]

theorem fetch_of_byte (h : c.code[a]? = some op.byte) (hin : a + op.length ≤ c.code.size) :
    c.fetch a = .ok ⟨op, match op.operandLength with
      | 1 => (c.byteAt (a + 1)).toNat
      | 3 => c.readU24 (a + 1)
      | _ => 0⟩ := by
  unfold fetch
  rw [if_neg (by omega)]
  simp only [Int.toNat_natCast, h, Opcode.ofByte?_byte]
  rewrite [if_neg (by omega)]
  rfl

theorem byteAt_eq {x : UInt8} (h : c.code[a]? = some x) : c.byteAt a = x := by
  rw [byteAt, Array.getD_eq_getD_getElem?, h, Option.getD_some]

/-- What an emitted instruction is, unless it is an open jump. -/
theorem extends_emit (hlen : operand.length = op.operandLength) :
    c.Extends (c.emit op operand span) [] fun C =>
      C.code[c.code.size]? = some op.byte ∧
      (∀ i x, operand[i]? = some x → C.code[c.code.size + 1 + i]? = some x) ∧
      (∀ i < op.length, C.spanAt (c.code.size + i : Nat) = span) ∧
      c.code.size + op.length ≤ C.code.size where
  size := by
    rw [size_code_emit]
    omega
  aligned h := by
    rw [size_code_emit, size_positions_emit, h]
  fresh := nofun
  apart := .nil
  back C opened hC hopened := by
    have hsize := hC.size
    rw [size_code_emit] at hsize
    refine ⟨hC.of_emit, ?_, fun i x hx => ?_, fun i hi => hC.spanAt ?_, ?_⟩
    · refine hC.byteAt_emit (i := 0) rfl fun j hj => ?_
      have := hopened j hj
      omega
    · rw [Nat.add_assoc]
      refine hC.byteAt_emit (i := 1 + i) ?_ fun j hj => ?_
      · rw [Nat.add_comm, List.getElem?_cons_succ, hx]
      · have := hopened j hj
        omega
    · rw [Opcode.length, ← hlen] at hi
      omega
    · rw [Opcode.length, ← hlen]
      omega

theorem extends_emit_plain (hop : op.operandLength = 0) :
    c.Extends (c.emit op [] span) [] fun C =>
      C.Has op 0 span c.code.size (c.emit op [] span).code.size := by
  refine (extends_emit (by simp [hop])).mono fun C h => ?_
  obtain ⟨hbyte, -, hspan, hin⟩ := h
  refine ⟨?_, hspan, by simp [Opcode.length, hop]⟩
  rw [fetch_of_byte hbyte hin, hop]
  rfl

theorem extends_emit_short {x : UInt8} (hop : op.operandLength = 1) :
    c.Extends (c.emit op [x] span) [] fun C =>
      C.Has op x.toNat span c.code.size (c.emit op [x] span).code.size := by
  refine (extends_emit (by simp [hop])).mono fun C h => ?_
  obtain ⟨hbyte, hrest, hspan, hin⟩ := h
  refine ⟨?_, hspan, by simp [Opcode.length, hop]⟩
  rw [fetch_of_byte hbyte hin, hop, byteAt_eq (hrest 0 x rfl)]
  rfl

theorem extends_emit_long (hop : op.operandLength = 3) (hn : n ≤ maxLong) :
    c.Extends (c.emit op (u24Bytes n) span) [] fun C =>
      C.Has op n span c.code.size (c.emit op (u24Bytes n) span).code.size := by
  refine (extends_emit (by simp [hop, u24Bytes])).mono fun C h => ?_
  obtain ⟨hbyte, hrest, hspan, hin⟩ := h
  refine ⟨?_, hspan, by simp [Opcode.length, hop, u24Bytes]⟩
  have hread : C.readU24 (c.code.size + 1) = n := by
    rw [readU24, byteAt_eq (hrest 0 _ rfl), byteAt_eq (hrest 1 _ rfl), byteAt_eq (hrest 2 _ rfl)]
    simp only [maxLong] at hn
    simp
    omega
  rw [fetch_of_byte hbyte hin, hop, hread]
  rfl

/-- An open jump. -/
theorem extends_emitJump (hop : op.isJump = true) :
    c.Extends (c.emitJump op span).2 [c.code.size + 1] fun C =>
      C.Has op 0 span c.code.size (c.emitJump op span).2.code.size where
  size := by
    rw [emitJump, size_code_emit]
    omega
  aligned h := by
    rw [emitJump, size_code_emit, size_positions_emit, h]
  fresh j hj := by
    rw [emitJump, size_code_emit]
    simp only [List.mem_singleton] at hj
    simp only [List.length_cons, List.length_nil]
    omega
  apart := List.pairwise_singleton _ _
  back C opened hC hopened := by
    have hsize := hC.size
    have hlen : op.operandLength = 4 := by
      cases op <;> first | rfl | cases hop
    rw [emitJump, size_code_emit] at hsize
    refine ⟨?_, ?_, fun i hi => Completes.spanAt hC ?_, by simp [emitJump, Opcode.length, hlen]⟩
    · have hC' := Completes.of_emit hC
      refine { hC' with code := fun i hi hj => hC'.code i hi fun j hmem => ?_ }
      rcases List.mem_append.1 hmem with hmem | hmem
      · simp only [List.mem_singleton] at hmem
        omega
      · exact hj j hmem
    · have hbyte : C.code[c.code.size]? = some op.byte := by
        refine Completes.byteAt_emit (i := 0) hC rfl fun j hj => ?_
        rcases List.mem_append.1 hj with hj | hj
        · simp only [List.mem_singleton] at hj
          omega
        · have := hopened j hj
          omega
      rw [fetch_of_byte hbyte (by simp only [Opcode.length, hlen, List.length_cons,
        List.length_nil] at hsize ⊢; omega), hlen]
      rfl
    · rw [Opcode.length, hlen] at hi
      simp only [List.length_cons, List.length_nil]
      omega

/-- Bytes that are overwritten, and those that are not. -/
theorem size_overwrite (code : Array UInt8) (o : Nat) (bytes : List UInt8) :
    (overwrite code o bytes).size = code.size := by
  induction bytes generalizing code o with
  | nil => rfl
  | cons x bytes ih => rw [overwrite, ih, Array.size_setIfInBounds]

theorem getElem?_overwrite_outside {code : Array UInt8} {o i : Nat} {bytes : List UInt8}
    (h : i < o ∨ o + bytes.length ≤ i) : (overwrite code o bytes)[i]? = code[i]? := by
  induction bytes generalizing code o with
  | nil => rfl
  | cons x bytes ih =>
    rw [List.length_cons] at h
    rw [overwrite, ih (by omega), Array.getElem?_setIfInBounds_ne (by omega)]

theorem getElem?_overwrite_inside {code : Array UInt8} {o i : Nat} {bytes : List UInt8}
    (hi : i < bytes.length) (hin : o + bytes.length ≤ code.size) :
    (overwrite code o bytes)[o + i]? = bytes[i]? := by
  induction bytes generalizing code o i with
  | nil => simp at hi
  | cons x bytes ih =>
    rw [List.length_cons] at hi hin
    rw [overwrite]
    cases i with
    | zero =>
      rw [getElem?_overwrite_outside (by omega), Nat.add_zero, List.getElem?_cons_zero,
        Array.getElem?_setIfInBounds_self_of_lt (by omega)]
    | succ i =>
      have hrest := @ih (code.setIfInBounds o x) (o + 1) i (by omega)
        (by rw [Array.size_setIfInBounds]; omega)
      rw [List.getElem?_cons_succ, ← hrest]
      congr 1
      omega

@[simp] theorem length_i32Bytes (n : Int) : (i32Bytes n).length = 4 := rfl

theorem code_patchTo (j : Nat) (target : Int) :
    (c.patchTo j target).code = overwrite c.code j (i32Bytes (target - j)) := by
  rw [patchTo]

theorem positions_patchTo (j : Nat) (target : Int) :
    (c.patchTo j target).positions = c.positions := by
  rw [patchTo]

theorem pool_patchTo (j : Nat) (target : Int) : (c.patchTo j target).pool = c.pool := by
  rw [patchTo]

theorem size_patchTo (j : Nat) (target : Int) : (c.patchTo j target).code.size = c.code.size := by
  rw [code_patchTo, size_overwrite]

private theorem readJump_of_i32Bytes {j target : Nat}
    (h : ∀ i < 4, c.code[j + i]? = (i32Bytes (target - j))[i]?) (hj : j < 2 ^ 31)
    (ht : target < 2 ^ 31) : c.readJump j = target := by
  have h₀ := byteAt_eq (h 0 (by omega))
  have h₁ := byteAt_eq (h 1 (by omega))
  have h₂ := byteAt_eq (h 2 (by omega))
  have h₃ := byteAt_eq (h 3 (by omega))
  rw [Nat.add_zero] at h₀
  rw [readJump, h₀, h₁, h₂, h₃]
  generalize hm : (((target : Int) - j) % 0x100000000).toNat = m
  have hbytes : m.toUInt8.toNat + (m / 0x100).toUInt8.toNat * 0x100
      + (m / 0x10000).toUInt8.toNat * 0x10000 + (m / 0x1000000).toUInt8.toNat * 0x1000000 = m := by
    simp
    omega
  simp only [hbytes]
  split <;> omega

/-- A jump is given its target, which code of more than 31 bits may miss. -/
theorem Extends.patchTo {rest : List Nat} {j target : Nat} (h : c.Extends c₁ (j :: rest) P)
    (ht : target ≤ c₁.code.size) :
    c.Extends (c₁.patchTo j target) rest fun C => P C ∧ (C.code.size < 2 ^ 31 → C.readJump j = target) where
  size := by
    rw [size_patchTo]
    exact h.size
  aligned ha := by
    rw [size_patchTo, positions_patchTo]
    exact h.aligned ha
  fresh i hi := by
    rw [size_patchTo]
    exact h.fresh i (List.mem_cons_of_mem _ hi)
  apart := (List.pairwise_cons.1 h.apart).2
  back C opened hC hopened := by
    have hj := h.fresh j List.mem_cons_self
    have hapart : ∀ i ∈ rest ++ opened, i + 4 ≤ j ∨ j + 4 ≤ i := by
      intro i hi
      rcases List.mem_append.1 hi with hi | hi
      · exact ((List.pairwise_cons.1 h.apart).1 i hi).symm
      · have := hopened i hi
        omega
    have hsize := hC.size
    rw [size_patchTo] at hsize
    have hC₁ : C.Completes c₁ (j :: rest ++ opened) := by
      have hpool := hC.pool
      rw [pool_patchTo] at hpool
      refine ⟨hsize, fun i hi hmem => ?_, fun i hi => ?_, ?_, hpool⟩
      · have hij := hmem j List.mem_cons_self
        rw [hC.code i (by rw [size_patchTo]; exact hi) fun k hk => ?_, code_patchTo]
        · rw [getElem?_overwrite_outside]
          rwa [length_i32Bytes]
        · exact hmem k (List.mem_cons_of_mem _ hk)
      · rw [hC.spans i (by rw [size_patchTo]; exact hi), positions_patchTo]
      · have haligned := hC.aligned
        rwa [size_patchTo, positions_patchTo] at haligned
    obtain ⟨hC₀, hP⟩ := h.back C opened hC₁ hopened
    refine ⟨hC₀, hP, fun hshort => readJump_of_i32Bytes (fun i hi => ?_) (by omega) (by omega)⟩
    rw [hC.code (j + i) (by rw [size_patchTo]; omega) fun k hk => by
      have := hapart k hk
      omega, code_patchTo]
    refine getElem?_overwrite_inside ?_ ?_
    · rwa [length_i32Bytes]
    · rw [length_i32Bytes]
      exact hj.2

theorem extends_emitLoop {start : Nat} (hs : start ≤ c.code.size) :
    c.Extends (c.emitLoop start span) [] fun C => C.code.size < 2 ^ 31 →
      C.HasJump .jump start span c.code.size (c.emitLoop start span).code.size := by
  have hj : c.Extends (c.emitJump .jump span).2 [c.code.size + 1] _ := extends_emitJump rfl
  have hle : start ≤ (c.emitJump .jump span).2.code.size := Nat.le_trans hs hj.size
  refine (hj.patchTo hle).mono fun C h hshort => ⟨?_, h.2 hshort⟩
  rw [emitLoop, size_patchTo]
  exact h.1

theorem pool_emitLoop (start : Int) (span : Span) : (c.emitLoop start span).pool = c.pool :=
  pool_patchTo _ _

/-- A constant gets a place in the pool, and keeps it. -/
theorem extends_share (v : Value) :
    c.Extends { c with pool := (c.pool.share v).2 } [] fun C =>
      ∀ u, (c.pool.share v).2.get? (c.pool.share v).1 = some u →
        C.pool.get? (c.pool.share v).1 = some u where
  size := Nat.le_refl _
  aligned := id
  fresh := nofun
  apart := .nil
  back _ _ hC _ :=
    ⟨{ hC with pool := fun i u hu => hC.pool i u (Pool.get?_share_of_get? hu) },
      fun u hu => hC.pool _ u hu⟩

end Chunk
end LolToolchain
