import LolToolchain.Cbor.Decode
import LolToolchain.Proofs.Code.Completion
import LolToolchain.Proofs.Code.Decoding
import LolToolchain.Proofs.Machine.Fetching
import Mathlib.Algebra.GroupWithZero.Nat
import Mathlib.Data.List.Induction

/-!
Emission and decoding. A draft is a chunk under construction; a ledger says of the same operations,
without any bytes, which instructions have been written and where the jumps among them lead. The code
of a draft spells its ledger, so that whoever decodes it gets the ledger back.
-/
namespace LolToolchain

/-- An operation on a chunk under construction. The jumps that are emitted open are numbered from 0,
and can be given targets by their number. -/
inductive Emission where
  | plain (op : Opcode) (operand : List UInt8) (span : Span)
  | indexed (short long : Opcode) (n : Int) (span : Span)
  | jump (op : Opcode) (span : Span)
  | patch (jump : Nat)
  | patchTo (jump : Nat) (target : Int)
  | loop (start : Int) (span : Span)

/-- Each opcode is given the operand it takes: an open jump is a jump, and the two forms of an indexed
instruction take one and three bytes. -/
def Emission.Proper : Emission → Prop
  | .plain op operand _ => operand.length = op.operandLength
  | .indexed short long _ _ => short.operandLength = 1 ∧ long.operandLength = 3
  | .jump op _ => op.isJump = true
  | .patch _ | .patchTo _ _ | .loop _ _ => True

/-- A chunk under construction, and the places of the operands of its open jumps. -/
structure Draft where
  chunk : Chunk
  places : List Nat

namespace Draft

def empty : Draft := ⟨.empty, []⟩

def apply (d : Draft) : Emission → Draft
  | .plain op operand span => { d with chunk := d.chunk.emit op operand span }
  | .indexed short long n span =>
    match d.chunk.emitIndexedByte short.byte long.byte n span with
    | .ok c => { d with chunk := c }
    | .error _ => d
  | .jump op span =>
    let (place, c) := d.chunk.emitJump op span
    ⟨c, d.places ++ [place]⟩
  | .patch j =>
    match d.places[j]? with
    | some place => { d with chunk := d.chunk.patch place }
    | none => d
  | .patchTo j target =>
    match d.places[j]? with
    | some place => { d with chunk := d.chunk.patchTo place target }
    | none => d
  | .loop start span => { d with chunk := d.chunk.emitLoop start span }

/-- A new chunk after operations on it. -/
def of (es : List Emission) : Draft :=
  es.foldl apply empty

end Draft

/-- An instruction as it was written: its operation, the number in its operand, and, of a jump, where
it leads. -/
structure Written where
  op : Opcode
  arg : Nat
  leads : Option Int
  deriving DecidableEq, Repr

namespace Written

/-- An instruction whose operand bytes are given. The operand of a jump is its distance from the
operand, signed, with the low byte first; other numbers have the high byte first. -/
def ofBytes (o : Nat) (op : Opcode) (operand : List UInt8) : Written :=
  if op.isJump then
    ⟨op, 0, some (o + 1 + (Cbor.ofBigEndian operand.reverse : Int).bmod 0x100000000)⟩
  else ⟨op, Cbor.ofBigEndian operand, none⟩

def instruction (w : Written) : Instruction := ⟨w.op, w.arg⟩

/-- What a listing must say of an instruction. -/
def text (w : Written) : Text :=
  match w.leads with
  | some target => w.op.name ++ " -> " ++ Text.ofHexUpper 4 target
  | none => if w.op.operandLength = 0 then w.op.name else w.op.name ++ " " ++ Text.ofNat w.arg

/-- A jump at an offset leads less far than its operand can say. -/
def Near (w : Written) (o : Nat) : Prop :=
  ∀ target, w.leads = some target → (target - (o + 1)).natAbs < 2 ^ 31

end Written

/-- The instructions that have been written, and which of them are the jumps that were emitted
open. -/
structure Ledger where
  written : List Written
  jumps : List Nat

namespace Ledger

def empty : Ledger := ⟨[], []⟩

/-- Where the next instruction will stand. -/
def size (l : Ledger) : Nat :=
  (l.written.map (·.op.length)).sum

def add (l : Ledger) (w : Written) : Ledger :=
  { l with written := l.written ++ [w] }

/-- Gives a jump a target; nothing else changes. -/
def lead (l : Ledger) (j : Nat) (target : Int) : Ledger :=
  match l.jumps[j]? with
  | some i => { l with written := l.written.modify i fun w => { w with leads := some target } }
  | none => l

/-- What an operation writes. A number that three bytes cannot hold writes nothing, and a jump without
a target leads to itself. -/
def apply (l : Ledger) : Emission → Ledger
  | .plain op operand _ => l.add (.ofBytes l.size op operand)
  | .indexed short long n _ =>
    if n < 0 ∨ 0xFFFFFF < n then l else l.add ⟨if n ≤ 0xFF then short else long, n.toNat, none⟩
  | .jump op _ => { l.add ⟨op, 0, some l.size⟩ with jumps := l.jumps ++ [l.written.length] }
  | .patch j => l.lead j l.size
  | .patchTo j target => l.lead j target
  | .loop start _ => l.add ⟨.jump, 0, some start⟩

def of (es : List Emission) : Ledger :=
  es.foldl apply empty

/-- Instructions with their places, from an offset on. -/
def placed (o : Nat) : List Written → List (Nat × Written)
  | [] => []
  | w :: ws => (o, w) :: placed (o + w.op.length) ws

end Ledger

namespace Written

/-- The operand of an instruction at an offset. -/
def operand (o : Nat) (w : Written) : List UInt8 :=
  match w.leads with
  | some target => Chunk.i32Bytes (target - (o + 1 : Nat))
  | none =>
    match w.op.operandLength with
    | 1 => [w.arg.toUInt8]
    | 3 => Chunk.u24Bytes w.arg
    | _ => []

/-- The bytes of instructions from an offset on. -/
def spell (o : Nat) : List Written → List UInt8
  | [] => []
  | w :: ws => w.op.byte :: w.operand o ++ spell (o + w.op.length) ws

/-- The operand has room for the number, and just the jumps lead somewhere. -/
structure Sound (w : Written) : Prop where
  leads : w.leads.isSome = w.op.isJump
  arg : w.arg < match w.op.operandLength with | 1 => 0x100 | 3 => 0x1000000 | _ => 1

end Written

theorem Opcode.operandLength_cases (op : Opcode) : op.isJump = true ∧ op.operandLength = 4 ∨
    op.isJump = false ∧ (op.operandLength = 0 ∨ op.operandLength = 1 ∨ op.operandLength = 3) := by
  cases op <;> decide

theorem Opcode.operandLength_of_isJump {op : Opcode} (h : op.isJump = true) :
    op.operandLength = 4 :=
  op.operandLength_cases.elim (·.2) fun h' => absurd (h.symm.trans h'.1) nofun

theorem Opcode.isJump_eq_false {op : Opcode} (h : op.operandLength ≠ 4) : op.isJump = false :=
  op.operandLength_cases.elim (fun h' => absurd h'.2 h) (·.1)

namespace Written

variable {w : Written} {ws vs : List Written} {o : Nat}

theorem sound_jump {op : Opcode} (h : op.isJump = true) (target : Int) :
    Sound ⟨op, 0, some target⟩ :=
  ⟨h.symm, by rw [Opcode.operandLength_of_isJump h]; exact Nat.zero_lt_one⟩

theorem Sound.length_operand (h : w.Sound) : (w.operand o).length = w.op.operandLength := by
  have hleads := h.leads
  unfold operand
  rcases w.op.operandLength_cases with ⟨hjump, hlen⟩ | ⟨hjump, hlen⟩
  · obtain ⟨target, htarget⟩ := Option.isSome_iff_exists.1 (hleads.trans hjump)
    rw [htarget, hlen]
    rfl
  · rw [Option.isSome_eq_false_iff.1 (hleads.trans hjump) |> Option.isNone_iff_eq_none.1]
    rcases hlen with hlen | hlen | hlen <;> rw [hlen] <;> rfl

theorem Sound.length_append (h : w.Sound) (front : List UInt8) :
    (front ++ (w.op.byte :: w.operand o)).length = front.length + w.op.length := by
  rw [List.length_append, List.length_cons, h.length_operand, Opcode.length, Nat.add_comm 1]

theorem spell_append (hws : ∀ w ∈ ws, w.Sound) : spell o (ws ++ vs) =
    spell o ws ++ spell (o + (ws.map (·.op.length)).sum) vs := by
  induction ws generalizing o with
  | nil => rfl
  | cons w ws ih =>
    obtain ⟨-, hws⟩ := List.forall_mem_cons.1 hws
    rw [List.cons_append, spell, spell, ih hws, List.map_cons, List.sum_cons, Nat.add_assoc]
    simp only [List.cons_append, List.append_assoc]

theorem length_spell (hws : ∀ w ∈ ws, w.Sound) :
    (spell o ws).length = (ws.map (·.op.length)).sum := by
  induction ws generalizing o with
  | nil => rfl
  | cons w ws ih =>
    obtain ⟨hw, hws⟩ := List.forall_mem_cons.1 hws
    simp only [spell, List.cons_append, List.length_cons, List.length_append, hw.length_operand,
      ih hws, List.map_cons, List.sum_cons, Opcode.length]
    omega

/-- An instruction among others is spelled behind those in front of it. -/
theorem spell_middle (hws : ∀ w ∈ ws, w.Sound) : spell 0 (ws ++ w :: vs) =
    spell 0 ws ++ (w.op.byte :: w.operand (spell 0 ws).length ++
      spell ((spell 0 ws).length + w.op.length) vs) := by
  rw [spell_append hws, Nat.zero_add, ← length_spell hws (o := 0), spell]

end Written

namespace Chunk

variable {c : Chunk} {w : Written} {front back : List UInt8} {o : Nat}

private theorem getElem?_code (h : c.code.toList = front ++ back) (i : Nat) :
    c.code[front.length + i]? = back[i]? := by
  rw [← Array.getElem?_toList, h, List.getElem?_append_right (by omega), Nat.add_sub_cancel_left]

/-- The distance in the operand of a jump. -/
private theorem readJump_of_bytes {distance : Int}
    (h : ∀ i < 4, c.code[o + i]? = (i32Bytes distance)[i]?) :
    c.readJump o = o + distance.bmod 0x100000000 := by
  have h₀ := byteAt_eq (h 0 (by omega))
  have h₁ := byteAt_eq (h 1 (by omega))
  have h₂ := byteAt_eq (h 2 (by omega))
  have h₃ := byteAt_eq (h 3 (by omega))
  rw [Nat.add_zero] at h₀
  rw [readJump, h₀, h₁, h₂, h₃, Int.bmod]
  generalize hm : (distance % 0x100000000).toNat = m
  have hbytes : m.toUInt8.toNat + (m / 0x100).toUInt8.toNat * 0x100
      + (m / 0x10000).toUInt8.toNat * 0x10000 + (m / 0x1000000).toUInt8.toNat * 0x1000000 = m := by
    simp
    omega
  simp only [hbytes]
  split <;> split <;> omega

/-- An instruction is decoded from where it is spelled. -/
theorem decode_of_spelled (hw : w.Sound)
    (h : c.code.toList = front ++ (w.op.byte :: w.operand front.length ++ back)) :
    c.fetch front.length = .ok w.instruction ∧ ∀ target, w.leads = some target →
      c.readJump (front.length + 1) =
        front.length + 1 + (target - (front.length + 1)).bmod 0x100000000 := by
  have hlen := hw.length_operand (o := front.length)
  have harg := hw.arg
  have hbyte : c.code[front.length]? = some w.op.byte := getElem?_code h 0
  have hplace : ∀ i < w.op.operandLength,
      c.code[front.length + 1 + i]? = (w.operand front.length)[i]? := by
    intro i hi
    rw [Nat.add_assoc, getElem?_code h, Nat.add_comm 1 i, List.cons_append, List.getElem?_cons_succ,
      List.getElem?_append_left (hlen ▸ hi)]
  have hsize : front.length + w.op.length ≤ c.code.size := by
    rw [← Array.length_toList, h, Opcode.length, ← hlen]
    simp only [List.length_append, List.length_cons]
    omega
  rw [fetch_of_byte hbyte hsize, Written.instruction, Except.ok.injEq, Instruction.mk.injEq]
  unfold Written.operand at hplace
  rcases w.op.operandLength_cases with ⟨hjump, hop⟩ | ⟨hjump, hop⟩
  · obtain ⟨target, htarget⟩ := Option.isSome_iff_exists.1 (hw.leads.trans hjump)
    rw [hop] at harg hplace ⊢
    rw [htarget] at hplace ⊢
    refine ⟨⟨rfl, (Nat.lt_one_iff.1 harg).symm⟩, ?_⟩
    rintro _ ⟨⟩
    exact readJump_of_bytes hplace
  · have hnone : w.leads = none := by
      rw [← Option.isNone_iff_eq_none, ← Option.isSome_eq_false_iff, hw.leads, hjump]
    rw [hnone] at hplace ⊢
    refine ⟨⟨rfl, ?_⟩, fun target h => absurd h (Option.some_ne_none target).symm⟩
    rcases hop with hop | hop | hop <;> rw [hop] at harg hplace ⊢
    · exact (Nat.lt_one_iff.1 harg).symm
    · change (c.byteAt (front.length + 1)).toNat = w.arg
      rw [byteAt_eq (hplace 0 (by omega))]
      exact Nat.mod_eq_of_lt harg
    · change c.readU24 (front.length + 1) = w.arg
      rw [readU24, byteAt_eq (hplace 1 (by omega)), byteAt_eq (hplace 2 (by omega)),
        byteAt_eq (hplace 0 (by omega))]
      change w.arg < 0x1000000 at harg
      simp
      omega

/-- Behind the first of some instructions the others are spelled. -/
theorem spelled_tail {ws : List Written} (hw : w.Sound)
    (h : c.code.toList = front ++ Written.spell front.length (w :: ws)) :
    ∃ front', front'.length = front.length + w.op.length ∧
      c.code.toList = front' ++ Written.spell front'.length ws := by
  have hnext := hw.length_append (o := front.length) front
  refine ⟨front ++ (w.op.byte :: w.operand front.length), hnext, ?_⟩
  rw [hnext, h, Written.spell, List.append_assoc]

open Ledger in
/-- Each placed instruction is spelled at its place. -/
theorem spelled_of_placed {ws : List Written} (hws : ∀ w ∈ ws, w.Sound)
    (h : c.code.toList = front ++ Written.spell front.length ws) {o : Nat}
    (hmem : (o, w) ∈ placed front.length ws) : w.Sound ∧ ∃ front' back, front'.length = o ∧
      c.code.toList = front' ++ (w.op.byte :: w.operand o ++ back) := by
  induction ws generalizing front with
  | nil => cases hmem
  | cons v ws ih =>
    obtain ⟨hv, hws⟩ := List.forall_mem_cons.1 hws
    rcases List.mem_cons.1 hmem with heq | hmem
    · cases heq
      exact ⟨hv, front, _, rfl, h⟩
    · obtain ⟨front', hnext, hcode⟩ := spelled_tail hv h
      refine ih hws hcode ?_
      rwa [hnext]

open Ledger in
/-- Code that spells instructions is decoded into them. -/
theorem instructionsFrom_of_spelled {ws : List Written} (hws : ∀ w ∈ ws, w.Sound)
    (h : c.code.toList = front ++ Written.spell front.length ws) {fuel : Nat}
    (hfuel : c.code.size ≤ front.length + fuel) : c.instructionsFrom fuel front.length =
      some ((placed front.length ws).map fun p => (p.1, p.2.instruction)) := by
  induction ws generalizing front fuel with
  | nil =>
    have hend : front.length = c.code.size := by
      rw [← Array.length_toList, h, Written.spell, List.append_nil]
    rw [hend, instructionsFrom_size]
    rfl
  | cons w ws ih =>
    obtain ⟨hw, hws⟩ := List.forall_mem_cons.1 hws
    have hfetch := (decode_of_spelled hw h).1
    have hin : front.length + w.op.length ≤ c.code.size := length_le_of_fetch hfetch
    have hlength := lt_length front.length w.op
    obtain ⟨fuel, rfl⟩ : ∃ n, fuel = n + 1 := ⟨fuel - 1, by omega⟩
    obtain ⟨front', hnext, hcode⟩ := spelled_tail hw h
    have hrest := @ih front' hws hcode fuel (by omega)
    rw [instructionsFrom, if_neg (by omega), hfetch]
    dsimp only [Written.instruction]
    rw [← hnext, hrest, placed, hnext]
    rfl

/-- Bytes that are overwritten by as many others. -/
private theorem toList_overwrite {code : Array UInt8} {old new : List UInt8}
    (hlen : old.length = new.length)
    (h : code.toList = front ++ (old ++ back)) :
    (overwrite code front.length new).toList = front ++ (new ++ back) := by
  induction new generalizing code front old with
  | nil =>
    obtain rfl := List.length_eq_zero_iff.1 hlen
    exact h
  | cons x new ih =>
    obtain ⟨y, old, rfl⟩ := List.exists_cons_of_length_eq_add_one hlen
    have hset : (code.setIfInBounds front.length x).toList = (front ++ [x]) ++ (old ++ back) := by
      rw [Array.toList_setIfInBounds, h, List.set_append_right _ _ (Nat.le_refl _), Nat.sub_self]
      simp
    have hrest := ih (Nat.succ.inj hlen) hset
    rw [List.length_append, List.length_singleton] at hrest
    rw [overwrite, hrest]
    simp

/-- A jump is given another target. -/
theorem toList_code_patchTo {x : UInt8} {old : List UInt8} (hlen : old.length = 4)
    (h : c.code.toList = front ++ (x :: old ++ back)) (target : Int) :
    (c.patchTo (front.length + 1) target).code.toList =
      front ++ (x :: i32Bytes (target - (front.length + 1 : Nat)) ++ back) := by
  have hcode : c.code.toList = (front ++ [x]) ++ (old ++ back) := by simpa using h
  have hwrite := @toList_overwrite _ _ _ _ (i32Bytes (target - (front.length + 1 : Nat))) hlen hcode
  rw [List.length_append, List.length_singleton] at hwrite
  rw [code_patchTo, hwrite]
  simp

end Chunk

namespace Written

private theorem u24Bytes_ofBigEndian (a b c : UInt8) :
    Chunk.u24Bytes (Cbor.ofBigEndian [a, b, c]) = [a, b, c] := by
  have ha := a.toNat_lt
  have hb := b.toNat_lt
  have hc := c.toNat_lt
  rw [Chunk.u24Bytes, Cbor.ofBigEndian]
  simp only [List.foldl_cons, List.foldl_nil, List.cons.injEq, and_true, ← UInt8.toNat_inj,
    Nat.toUInt8_eq, UInt8.toNat_ofNat']
  omega

private theorem i32Bytes_ofBigEndian (a b c d : UInt8) (o : Int) :
    Chunk.i32Bytes (o + (Cbor.ofBigEndian [d, c, b, a] : Int).bmod 0x100000000 - o) =
      [a, b, c, d] := by
  have ha := a.toNat_lt
  have hb := b.toNat_lt
  have hc := c.toNat_lt
  have hd := d.toNat_lt
  have hmod : (Cbor.ofBigEndian [d, c, b, a] : Int).bmod 0x100000000 % 0x100000000 =
      Cbor.ofBigEndian [d, c, b, a] % 0x100000000 := Int.bmod_emod
  rw [Chunk.i32Bytes, Int.add_comm o, Int.add_sub_cancel, hmod, Cbor.ofBigEndian]
  simp only [List.foldl_cons, List.foldl_nil, List.cons.injEq, and_true, ← UInt8.toNat_inj,
    Nat.toUInt8_eq, UInt8.toNat_ofNat']
  omega

private theorem ofBigEndian_lt (bytes : List UInt8) : Cbor.ofBigEndian bytes < 0x100 ^ bytes.length := by
  induction bytes using List.reverseRecOn with
  | nil => exact Nat.zero_lt_one
  | append_singleton bytes b ih =>
    have hb := b.toNat_lt
    simp only [Cbor.ofBigEndian, List.foldl_append, List.foldl_cons, List.foldl_nil,
      List.length_append, List.length_singleton, Nat.pow_succ] at ih ⊢
    omega

/-- An instruction whose bytes are given is spelled by them. -/
theorem ofBytes_spec {op : Opcode} {bytes : List UInt8} (hlen : bytes.length = op.operandLength)
    (o : Nat) : (ofBytes o op bytes).op = op ∧ (ofBytes o op bytes).operand o = bytes ∧
      (ofBytes o op bytes).Sound := by
  have hlt := ofBigEndian_lt bytes
  unfold ofBytes operand
  rcases op.operandLength_cases with ⟨hjump, hop⟩ | ⟨hjump, hop⟩
  · rw [if_pos hjump]
    obtain ⟨a, b, c, d, rfl⟩ := List.length_eq_four.1 (hlen.trans hop)
    exact ⟨rfl, i32Bytes_ofBigEndian a b c d (o + 1), hjump.symm, by rw [hop]; exact Nat.zero_lt_one⟩
  · rw [if_neg (ne_true_of_eq_false hjump)]
    rw [hlen] at hlt
    refine ⟨rfl, ?_, hjump.symm, ?_⟩ <;> dsimp only <;> rcases hop with hop | hop | hop <;>
      rw [hop] at hlen hlt ⊢
    · exact (List.length_eq_zero_iff.1 hlen).symm
    · obtain ⟨a, rfl⟩ := List.length_eq_one_iff.1 hlen
      simp [Cbor.ofBigEndian]
    · obtain ⟨a, b, c, rfl⟩ := List.length_eq_three.1 hlen
      exact u24Bytes_ofBigEndian a b c
    all_goals exact hlt

end Written

/-- The one instruction that a target is given to, and the others. -/
private theorem Ledger.exists_lead {l : Ledger} {j i : Nat} {w : Written} (hi : l.jumps[j]? = some i)
    (hw : l.written[i]? = some w) : ∃ front back, front.length = i ∧
      l.written = front ++ w :: back ∧ ∀ target, l.lead j target =
        { l with written := front ++ { w with leads := some target } :: back } := by
  obtain ⟨hlt, hget⟩ := List.getElem?_eq_some_iff.1 hw
  have hcut : l.written = l.written.take i ++ w :: l.written.drop (i + 1) := by
    rw [← hget, List.getElem_cons_drop, List.take_append_drop]
  have hlength : (l.written.take i).length = i := by
    rw [List.length_take, Nat.min_eq_left (Nat.le_of_lt hlt)]
  refine ⟨_, _, hlength, hcut, fun target => ?_⟩
  rw [lead, hi]
  dsimp only
  rw [List.modify_eq_take_cons_drop hlt, hget]

namespace Draft

open Ledger

/-- The code of a draft spells a ledger, and the places it knows are those of the open jumps. -/
structure Spells (d : Draft) (l : Ledger) : Prop where
  code : d.chunk.code.toList = Written.spell 0 l.written
  sound : ∀ w ∈ l.written, w.Sound
  places : d.places = l.jumps.map fun i => ((l.written.map (·.op.length)).take i).sum + 1
  jumps : ∀ i ∈ l.jumps, ∃ w, l.written[i]? = some w ∧ w.op.isJump = true
  pool : d.chunk.pool = .empty

namespace Spells

variable {d : Draft} {l : Ledger} {w : Written} {c : Chunk} {j place : Nat}

theorem size (h : d.Spells l) : d.chunk.code.size = l.size := by
  rw [← Array.length_toList, h.code, Written.length_spell h.sound, Ledger.size]

/-- One more instruction. -/
theorem add (h : d.Spells l) (hw : w.Sound)
    (hcode : c.code.toList = d.chunk.code.toList ++ (w.op.byte :: w.operand l.size))
    (hpool : c.pool = d.chunk.pool) : { d with chunk := c }.Spells (l.add w) where
  code := by
    rw [hcode, h.code, Ledger.add, Written.spell_append h.sound, Nat.zero_add, Written.spell,
      Written.spell, List.append_nil]
    rfl
  sound := List.forall_mem_append.2 ⟨h.sound, List.forall_mem_singleton.2 hw⟩
  places := by
    refine h.places.trans (List.map_congr_left fun i hi => ?_)
    obtain ⟨v, hv, -⟩ := h.jumps i hi
    have hlt := (List.getElem?_eq_some_iff.1 hv).1
    rw [Ledger.add, List.map_append, List.take_append_of_le_length (by rw [List.length_map]; omega)]
  jumps i hi := by
    obtain ⟨v, hv, hjump⟩ := h.jumps i hi
    have hlt := (List.getElem?_eq_some_iff.1 hv).1
    exact ⟨v, (List.getElem?_append_left hlt).trans hv, hjump⟩
  pool := hpool.trans h.pool

/-- A jump is given a target: its operand is all that changes. -/
private theorem lead (h : d.Spells l) (hj : d.places[j]? = some place) (target : Int) :
    { d with chunk := d.chunk.patchTo place target }.Spells (l.lead j target) := by
  rw [h.places, List.getElem?_map] at hj
  obtain ⟨i, hi, rfl⟩ := Option.map_eq_some_iff.1 hj
  obtain ⟨v, hv, hjump⟩ := h.jumps i (List.mem_of_getElem? hi)
  obtain ⟨front, back, rfl, hcut, hlead⟩ := Ledger.exists_lead hi hv
  rw [hlead target]
  have hsound := h.sound
  rw [hcut] at hsound
  obtain ⟨hsounds, hv', hrest⟩ := List.forall_mem_append.1 hsound |>.imp id List.forall_mem_cons.1
  have hplace : ((l.written.map (·.op.length)).take front.length).sum =
      (Written.spell 0 front).length := by
    rw [Written.length_spell hsounds, hcut, List.map_append,
      List.take_left' (List.length_map _)]
  rw [hplace]
  refine ⟨?_, ?_, ?_, fun i hi => ?_, h.pool⟩
  · have hop := Opcode.operandLength_of_isJump hjump
    have hcode := h.code
    rw [hcut, Written.spell_middle hsounds] at hcode
    refine (Chunk.toList_code_patchTo (hv'.length_operand.trans hop) hcode target).trans ?_
    rw [Written.spell_middle hsounds]
    rfl
  · exact List.forall_mem_append.2 ⟨hsounds, List.forall_mem_cons.2 ⟨⟨hjump.symm, hv'.arg⟩, hrest⟩⟩
  · rw [h.places, hcut, List.map_append, List.map_append, List.map_cons, List.map_cons]
  · obtain ⟨u, hu, hop⟩ := h.jumps i hi
    have hops : (front ++ { v with leads := some target } :: back).map (·.op) =
        l.written.map (·.op) := by
      rw [hcut, List.map_append, List.map_append, List.map_cons, List.map_cons]
    have hget : (front ++ { v with leads := some target } :: back)[i]?.map (·.op) = some u.op := by
      rw [← List.getElem?_map, hops, List.getElem?_map, hu, Option.map_some]
    obtain ⟨w, hw, heq⟩ := Option.map_eq_some_iff.1 hget
    exact ⟨w, hw, heq ▸ hop⟩

/-- The instruction that a jump becomes once its placeholder is overwritten. -/
private theorem loop (h : d.Spells l) (start : Int) (span : Span) :
    { d with chunk := d.chunk.emitLoop start span }.Spells (l.add ⟨.jump, 0, some start⟩) := by
  refine h.add (Written.sound_jump rfl start) ?_ (Chunk.pool_emitLoop start span)
  have hcode : (d.chunk.emitJump .jump span).2.code.toList = d.chunk.code.toList ++
      (Opcode.jump.byte :: [0xFF, 0xFF, 0xFF, 0xFF] ++ []) := Chunk.toList_code_emit
  have hplace : d.chunk.code.toList.length = d.chunk.code.size := Array.length_toList
  have hpatch := Chunk.toList_code_patchTo rfl hcode start
  rw [hplace, List.append_nil] at hpatch
  rw [← h.size]
  exact hpatch

private theorem jump (h : d.Spells l) {op : Opcode} (hop : op.isJump = true) (span : Span) :
    (d.apply (.jump op span)).Spells (l.apply (.jump op span)) := by
  -- the placeholder is the distance from the operand back to the jump itself
  have hbytes : Chunk.i32Bytes ((l.size : Int) - (l.size + 1 : Nat)) = [0xFF, 0xFF, 0xFF, 0xFF] := by
    rw [show (l.size : Int) - (l.size + 1 : Nat) = -1 by omega]
    rfl
  have hcode : (d.chunk.emitJump op span).2.code.toList =
      d.chunk.code.toList ++ (op.byte :: Chunk.i32Bytes ((l.size : Int) - (l.size + 1 : Nat))) := by
    rw [hbytes]
    exact Chunk.toList_code_emit
  have hadd := h.add (Written.sound_jump hop l.size) hcode rfl
  refine { hadd with places := ?_, jumps := fun i hi => ?_ }
  · have hlast : d.chunk.code.size =
        (((l.written ++ [(⟨op, 0, some l.size⟩ : Written)]).map (·.op.length)).take
          l.written.length).sum := by
      rw [List.map_append, List.take_left' (List.length_map _)]
      exact h.size
    rw [Ledger.apply, List.map_append]
    exact congrArg₂ (· ++ ·) hadd.places (congrArg (fun o => [o + 1]) hlast)
  · rcases List.mem_append.1 hi with hi | hi
    · exact hadd.jumps i hi
    · obtain rfl := List.mem_singleton.1 hi
      exact ⟨_, List.getElem?_concat_length, hop⟩

private theorem indexed (h : d.Spells l) {short long : Opcode} (hshort : short.operandLength = 1)
    (hlong : long.operandLength = 3) (n : Int) (span : Span) :
    (d.apply (.indexed short long n span)).Spells (l.apply (.indexed short long n span)) := by
  rw [Draft.apply, Ledger.apply, Chunk.emitIndexedByte,
    show (Chunk.maxLong : Int) = 0xFFFFFF from rfl,
    show (Chunk.maxShort : Int) = 0xFF from rfl]
  split_ifs with hout hfits
  · exact h
  · have hsound : Written.Sound ⟨short, n.toNat, none⟩ := by
      refine ⟨(Opcode.isJump_eq_false (by rw [hshort]; decide)).symm, ?_⟩
      rw [hshort]
      change n.toNat < 0x100
      omega
    refine h.add hsound ?_ rfl
    rw [Written.operand]
    dsimp only
    rw [hshort]
    exact Chunk.toList_code_emit
  · have hsound : Written.Sound ⟨long, n.toNat, none⟩ := by
      refine ⟨(Opcode.isJump_eq_false (by rw [hlong]; decide)).symm, ?_⟩
      rw [hlong]
      change n.toNat < 0x1000000
      omega
    refine h.add hsound ?_ rfl
    rw [Written.operand]
    dsimp only
    rw [hlong, Int.toNat_of_nonneg (by omega)]
    exact Chunk.toList_code_emit

private theorem lead_none (h : d.Spells l) (hj : d.places[j]? = none) (target : Int) :
    d.Spells (l.lead j target) := by
  rw [h.places, List.getElem?_map, Option.map_eq_none_iff] at hj
  rwa [Ledger.lead, hj]

private theorem apply (h : d.Spells l) {e : Emission} (he : e.Proper) : (d.apply e).Spells (l.apply e) := by
  cases e with
  | plain op operand span =>
    obtain ⟨hop, hoperand, hsound⟩ := Written.ofBytes_spec he l.size
    refine h.add hsound ?_ rfl
    rw [Chunk.toList_code_emit, hop, hoperand]
  | indexed short long n span => exact h.indexed he.1 he.2 n span
  | jump op span => exact h.jump he span
  | patch j =>
    rw [Draft.apply, Ledger.apply]
    cases hj : d.places[j]? with
    | none => exact h.lead_none hj _
    | some place =>
      rw [← h.size]
      exact h.lead hj _
  | patchTo j target =>
    rw [Draft.apply, Ledger.apply]
    cases hj : d.places[j]? with
    | none => exact h.lead_none hj _
    | some place => exact h.lead hj _
  | loop start span => exact h.loop start span

private theorem foldl {es : List Emission} (hes : ∀ e ∈ es, e.Proper) (h : d.Spells l) :
    (es.foldl Draft.apply d).Spells (es.foldl Ledger.apply l) := by
  induction es generalizing d l with
  | nil => exact h
  | cons e es ih =>
    obtain ⟨he, hes⟩ := List.forall_mem_cons.1 hes
    exact ih hes (h.apply he)

end Spells

/-- A new chunk spells what operations on it have written. -/
theorem spells_of {es : List Emission} (hes : ∀ e ∈ es, e.Proper) :
    (Draft.of es).Spells (Ledger.of es) :=
  Spells.foldl hes ⟨rfl, nofun, rfl, nofun, rfl⟩

end Draft

namespace Chunk

variable {c : Chunk} {w : Written} {o : Nat}

private theorem bmod_of_near {distance : Int} (h : distance.natAbs < 2 ^ 31) :
    distance.bmod 0x100000000 = distance :=
  Int.bmod_eq_of_le (by omega) (by omega)

/-- A listing of a chunk without constants shows an instruction as it was written, with a remark
behind it for some operations. -/
private theorem instructionText_of_written (hw : w.Sound) (hpool : c.pool = .empty) (heap : Heap)
    (hread : ∀ target, w.leads = some target → c.readJump (o + 1) = target) :
    ∃ note : Text, (note = [] ∨ ∃ remark : Text, note = " ; " ++ remark) ∧
      c.instructionText heap o w.instruction = .ok (w.text ++ note) := by
  have hget : c.pool.get? w.arg = none := by
    rw [hpool]
    rfl
  have hjump := hw.leads
  obtain ⟨op, arg, leads⟩ := w
  cases leads with
  | some target =>
    have htarget := hread target rfl
    refine ⟨[], .inl rfl, ?_⟩
    cases op with
    | jump | jumpIfFalse =>
      simp only [instructionText, Written.instruction, htarget, Written.text, List.append_nil]
    | _ => cases hjump
  | none =>
    cases op with
    | jump | jumpIfFalse => cases hjump
    | loadConst | loadConstLong | interp | interpLong =>
      refine ⟨" ; " ++ "?", .inr ⟨"?", rfl⟩, ?_⟩
      simp only [instructionText, Written.instruction, hget]
      rfl
    | cast =>
      refine ⟨_, .inr ⟨TypeName.nameOfCode arg.toUInt8, rfl⟩, ?_⟩
      exact congrArg Except.ok (List.append_assoc _ _ _)
    | print =>
      by_cases hline : arg = 0
      · exact ⟨" ; " ++ "no newline", .inr ⟨"no newline", rfl⟩, by rw [hline]; rfl⟩
      · refine ⟨[], .inl rfl, ?_⟩
        change c.instructionText heap o ⟨.print, arg⟩ = _
        simp only [instructionText, if_neg hline]
        exact congrArg Except.ok (List.append_nil _).symm
    | _ => exact ⟨[], .inl rfl, congrArg Except.ok (List.append_nil _).symm⟩

/-- What is at an offset is the instruction that was written there: the machine does its work, a jump
leads to its target if its operand can say how far that is, and a listing shows it. -/
structure Reads (c : Chunk) (o : Nat) (w : Written) : Prop where
  work : ∀ (s : Settings) (m : Machine), s.tracing = false → m.next = o →
    m.step c s = Action.execute c s (o + 1) w.instruction
      { m with current := o, next := o + w.op.length }
  jump : w.Near o → ∀ target, w.leads = some target → c.readJump (o + 1) = target
  listed : w.Near o → ∀ heap, ∃ note : Text, (note = [] ∨ ∃ remark : Text, note = " ; " ++ remark) ∧
    c.describe heap o = .ok (.ok (w.text ++ note), w.op.length)

private theorem reads_of_spelled {front back : List UInt8} (hw : w.Sound) (hpool : c.pool = .empty)
    (h : c.code.toList = front ++ (w.op.byte :: w.operand front.length ++ back)) :
    c.Reads front.length w := by
  obtain ⟨hfetch, hread⟩ := decode_of_spelled hw h
  have hjump : w.Near front.length → ∀ target, w.leads = some target →
      c.readJump (front.length + 1) = target := by
    intro hnear target htarget
    rw [hread target htarget, bmod_of_near (hnear target htarget)]
    omega
  refine ⟨fun s m ht hm => ?_, hjump, fun hnear heap => ?_⟩
  · rw [Machine.step_of_fetch ht (hm ▸ hfetch), hm]
    rfl
  · obtain ⟨note, hnote, htext⟩ := instructionText_of_written hw hpool heap (hjump hnear)
    refine ⟨note, hnote, ?_⟩
    rw [describe, hfetch, ← htext]
    rfl

/-- Where there is an instruction, a listing shows it, if its constants have texts. -/
private theorem describe_of_fetch {heap : Heap} {i : Instruction} (hfetch : c.fetch o = .ok i)
    (hpool : ∀ n v, c.pool.get? n = some v → ∃ t, v.inspect heap = .ok t) :
    ∃ text, c.describe heap o = .ok (.ok text, i.op.length) := by
  have htext : ∃ text, c.instructionText heap o i = .ok text := by
    obtain ⟨op, arg⟩ := i
    cases op with
    | loadConst | loadConstLong | interp | interpLong =>
      simp only [instructionText]
      cases hget : c.pool.get? arg with
      | none => exact ⟨_, rfl⟩
      | some v =>
        obtain ⟨t, ht⟩ := hpool arg v hget
        dsimp only
        rw [ht]
        exact ⟨_, rfl⟩
    | _ => exact ⟨_, rfl⟩
  obtain ⟨text, htext⟩ := htext
  refine ⟨text, ?_⟩
  rw [describe, hfetch, ← htext]
  rfl

end Chunk

open Ledger in
/-- Operations on a new chunk, each with the operands its opcode takes, write code that is decoded
from its start into what was to be written, with each instruction at its place. And at any offset of
any code a listing fails just where the machine finds no instruction, and with the same fault. -/
theorem Emission.decodes_to_ledger {es : List Emission} (hes : ∀ e ∈ es, e.Proper) :
    (Draft.of es).chunk.instructions? =
      some ((placed 0 (Ledger.of es).written).map fun p => (p.1, p.2.instruction)) ∧
    (∀ o w, (o, w) ∈ placed 0 (Ledger.of es).written → (Draft.of es).chunk.Reads o w) ∧
    ∀ (c : Chunk) (heap : Heap) (s : Settings) (m : Machine) (o : Nat), m.next = o →
      (s.tracing = true → (Action.traceStep c m).1 = .ok ()) →
      (∀ f, c.describe heap o = .error f ↔ (m.step c s).1 = .error (.failed (f.stop o))) ∧
      ((∀ f : FetchFault, (m.step c s).1 ≠ .error (.failed (f.stop o))) →
        (∀ n v, c.pool.get? n = some v → ∃ t, v.inspect heap = .ok t) →
          ∃ i text, c.fetch o = .ok i ∧ c.describe heap o = .ok (.ok text, i.op.length)) := by
  have h := Draft.spells_of hes
  have hcode : (Draft.of es).chunk.code.toList = [] ++ Written.spell 0 (Ledger.of es).written :=
    h.code
  refine ⟨Chunk.instructionsFrom_of_spelled h.sound hcode (Nat.le_add_left _ _), ?_, ?_⟩
  · intro o w hmem
    obtain ⟨hw, front, back, rfl, hspelled⟩ := Chunk.spelled_of_placed h.sound hcode hmem
    exact Chunk.reads_of_spelled hw h.pool hspelled
  · intro c heap s m o hm htrace
    have hstop := Machine.step_error_iff hm htrace
    cases hfetch : c.fetch o with
    | error g =>
      refine ⟨fun f => ?_, fun h => absurd ((hstop g).2 hfetch) (h g)⟩
      rw [hstop f, Chunk.describe, hfetch]
      exact ⟨fun h => congrArg _ (Except.error.inj h), fun h => congrArg _ (Except.error.inj h)⟩
    | ok i =>
      refine ⟨fun f => ?_, fun _ hpool => ?_⟩
      · rw [hstop f, Chunk.describe, hfetch]
        exact iff_of_false (by rintro ⟨⟩) (by rintro ⟨⟩)
      · obtain ⟨text, htext⟩ := Chunk.describe_of_fetch hfetch hpool
        exact ⟨i, text, rfl, htext⟩

/-- A loop: a jump out of it, a number of two bytes, and the way back. -/
def Emission.aroundLoop : List Emission :=
  [.jump .jumpIfFalse .zero, .indexed .popN .popNLong 300 .zero, .plain .add [] .zero, .loop 0 .zero,
    .patch 0]

/-- The instructions of the loop, and what the machine and the listing do behind it. -/
theorem Emission.decodes_to_ledger_aroundLoop : (∀ e ∈ aroundLoop, e.Proper) ∧
    (Draft.of aroundLoop).chunk.instructions? =
      some [(0, ⟨.jumpIfFalse, 0⟩), (5, ⟨.popNLong, 300⟩), (9, ⟨.add, 0⟩), (10, ⟨.jump, 0⟩)] ∧
    (Draft.of aroundLoop).chunk.readJump 1 = 15 ∧ (Draft.of aroundLoop).chunk.readJump 11 = 0 ∧
    (Draft.of aroundLoop).chunk.describe #[] 15 = .error .outside ∧
    (({ Machine.idle #[] with next := 15 }).step (Draft.of aroundLoop).chunk {}).1 =
      .error (.failed .pastEnd) := by
  have hproper : ∀ e ∈ aroundLoop, e.Proper := by
    intro e he
    simp only [aroundLoop, List.mem_cons, List.not_mem_nil, or_false] at he
    rcases he with rfl | rfl | rfl | rfl | rfl
    all_goals trivial
  obtain ⟨hdecoded, hreads, hfails⟩ := Emission.decodes_to_ledger hproper
  have hplaced : Ledger.placed 0 (Ledger.of aroundLoop).written =
      [(0, ⟨.jumpIfFalse, 0, some 15⟩), (5, ⟨.popNLong, 300, none⟩), (9, ⟨.add, 0, none⟩),
        (10, ⟨.jump, 0, some 0⟩)] := by decide
  rw [hplaced] at hdecoded hreads
  have hout := hreads 0 ⟨.jumpIfFalse, 0, some 15⟩ (by simp)
  have hback := hreads 10 ⟨.jump, 0, some 0⟩ (by simp)
  have hend : (Draft.of aroundLoop).chunk.describe #[] 15 = .error .outside := by decide
  refine ⟨hproper, hdecoded, hout.jump ?_ 15 rfl, hback.jump ?_ 0 rfl, hend, ?_⟩
  · rintro _ ⟨⟩
    decide
  · rintro _ ⟨⟩
    decide
  · exact ((hfails _ #[] {} { Machine.idle #[] with next := 15 } 15 rfl nofun).1 .outside).1 hend

end LolToolchain
