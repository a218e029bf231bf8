import LolToolchain.Proofs.Code.Layout
import LolToolchain.Proofs.Machine.Snapshot
import Mathlib.Algebra.Group.Nat.Defs

/-!
What each instruction does to a snapshot: it leads to another one, or it ends the run with a fault
at its own place.
-/
namespace LolToolchain

open Effect Snapshot

private theorem Opcode.byte_of_ofByte? {b : UInt8} {op : Opcode} (h : Opcode.ofByte? b = some op) :
    b = op.byte := by
  unfold Opcode.ofByte? at h
  split at h <;> cases h <;> rfl

namespace Chunk

variable {c : Chunk} {op : Opcode} {a arg : Nat}

theorem length_le_of_fetch (h : c.fetch a = .ok ⟨op, arg⟩) : a + op.length ≤ c.code.size := by
  unfold fetch at h
  split at h <;> try cases h
  dsimp only at h
  split at h <;> try cases h
  split at h <;> try cases h
  split at h <;> cases h
  simp only [Int.toNat_natCast] at *
  omega

theorem byteAt_of_fetch (h : c.fetch a = .ok ⟨op, arg⟩) : c.byteAt a = op.byte := by
  unfold fetch at h
  split at h <;> try cases h
  dsimp only at h
  split at h <;> try cases h
  rename_i b hb
  split at h <;> try cases h
  rename_i op' hop
  split at h <;> cases h
  simp only [Int.toNat_natCast] at hb
  rw [byteAt, Array.getD_eq_getD_getElem?, hb, Option.getD_some, Opcode.byte_of_ofByte? hop]

theorem fnDef_operand (h : c.fetch a = .ok ⟨.fnDef, arg⟩) : (c.byteAt (a + 1)).toNat = arg := by
  unfold fetch at h
  split at h <;> try cases h
  dsimp only at h
  split at h <;> try cases h
  split at h <;> try cases h
  split at h <;> cases h
  rfl

end Chunk

namespace Action

/-- The work of an instruction leads from one snapshot to another. -/
def Does (act : Action Unit) (x y : Snapshot) : Prop :=
  ∀ m : Machine, m.Shows x → ∃ m', act m = (.ok (), m') ∧ m'.Shows y

/-- The work of an instruction has a result, which leads to a snapshot, or it ends with a fault; then
nothing is printed or read. -/
def Performs {α : Type} (act : Action Unit) (x : Snapshot) (r : Except Fault α)
    (y : α → Snapshot) : Prop :=
  ∀ m : Machine, m.Shows x → match r with
    | .ok a => ∃ m', act m = (.ok (), m') ∧ m'.Shows (y a)
    | .error f => ∃ m', act m = (.error (.failed f), m') ∧
      m'.current = m.current ∧ m'.output = m.output ∧ m'.input = m.input

variable {x y : Snapshot} {vs ws : List Value} {v w r : Value} {m : Machine} {fault : Fault}

@[simp] theorem run_fail {α : Type} (f : Fault) (m : Machine) :
    (fail f : Action α) m = (.error (.failed f), m) := rfl

@[simp] theorem run_lift_ok {α : Type} (a : α) (m : Machine) :
    (lift (.ok a) : Action α) m = (.ok a, m) := rfl

@[simp] theorem run_lift_error {α : Type} (f : Fault) (m : Machine) :
    (lift (.error f) : Action α) m = (.error (.failed f), m) := rfl

@[simp] theorem run_push (v : Value) (m : Machine) :
    push v m = (.ok (), { m with stack := m.stack.push v }) := rfl

@[simp] theorem run_drop (n : Nat) (m : Machine) :
    drop n m = (.ok (), { m with stack := m.stack.drop n }) := rfl

@[simp] theorem run_heap (m : Machine) : heap m = (.ok m.heap, m) := rfl

theorem run_pop (h : m.stack.Holds (v :: vs)) :
    pop m = (.ok v, { m with stack := m.stack.drop 1 }) := by
  simp [pop, h.top?]

theorem run_topMost (h : m.stack.Holds (ws ++ vs)) :
    topMost ws.length m = (.ok ws.reverse.toArray, m) := by
  simp [topMost, h.topMost?]

theorem holds_drop_one {s : Stack} (h : s.Holds (v :: vs)) : (s.drop 1).Holds vs := by
  have hone : s.Holds ([v] ++ vs) := h
  exact hone.drop

private theorem Does.push : (push v).Does x { x with stack := v :: x.stack } := by
  intro m hm
  exact ⟨_, rfl, { hm with stack := hm.stack.push v }⟩

theorem performs_binary (f : Heap → Value → Value → Except Fault Value)
    (hx : x.stack = w :: v :: vs) :
    (binary f).Performs x (f x.heap v w) fun r => { x with stack := r :: vs } := by
  intro m hm
  have hs := hx ▸ hm.stack
  have hs' := holds_drop_one hs
  have he : binary f m =
      andThen (lift (f m.heap v w) { m with stack := (m.stack.drop 1).drop 1 }) push := by
    simp only [binary, run_bind, run_pop hs, andThen_ok, run_heap,
      run_pop (m := { m with stack := m.stack.drop 1 }) hs']
  have hr : f m.heap v w = f x.heap v w := by rw [hm.heap]
  rw [he, hr]
  cases f x.heap v w with
  | ok r => exact ⟨_, rfl, { hm with stack := (holds_drop_one hs').push r }⟩
  | error e => exact ⟨_, rfl, rfl, rfl, rfl⟩

theorem performs_unary (f : Heap → Value → Except Fault Value) (hx : x.stack = v :: vs) :
    (unary f).Performs x (f x.heap v) fun r => { x with stack := r :: vs } := by
  intro m hm
  have hs := hx ▸ hm.stack
  have he : unary f m = andThen (lift (f m.heap v) { m with stack := m.stack.drop 1 }) push := by
    simp only [unary, run_bind, run_pop hs, andThen_ok, run_heap]
  have hr : f m.heap v = f x.heap v := by rw [hm.heap]
  rw [he, hr]
  cases f x.heap v with
  | ok r => exact ⟨_, rfl, { hm with stack := (holds_drop_one hs).push r }⟩
  | error e => exact ⟨_, rfl, rfl, rfl, rfl⟩

variable {c : Chunk} {s : Settings} {o n : Nat} {op : Opcode} {f : Frame} {fs : List Frame}

theorem Does.constant (hop : op = .loadConst ∨ op = .loadConstLong) (hv : c.pool.get? n = some v) :
    (execute c s o ⟨op, n⟩).Does x { x with stack := v :: x.stack } := by
  have he : execute c s o ⟨op, n⟩ = Action.push v := by
    rcases hop with rfl | rfl <;> simp only [execute, hv]
  rw [he]
  exact Does.push

private theorem run_slot (hf : m.frames = f :: fs) (h : m.stack.Holds (ws ++ v :: vs))
    (hn : vs.length = f.base + n) : slot n m = (.ok vs.length, m) := by
  have hb : m.base + n = vs.length := by rw [Machine.base, hf, hn]
  have hh : ¬ m.stack.height ≤ vs.length := by
    rw [h.1, List.length_append, List.length_cons]
    omega
  simp [slot, hb, hh]

theorem Does.readSlot (hop : op = .readSt ∨ op = .readStLong) (hf : x.frames = f :: fs)
    (hx : x.stack = ws ++ v :: vs) (hn : vs.length = f.base + n) :
    (execute c s o ⟨op, n⟩).Does x { x with stack := v :: x.stack } := by
  intro m hm
  have hs := hx ▸ hm.stack
  have hslot := run_slot (hm.frames.trans hf) hs hn
  have he : execute c s o ⟨op, n⟩ m = (.ok (), { m with stack := m.stack.push v }) := by
    rcases hop with rfl | rfl <;> simp [execute, hslot, hs.get?]
  exact ⟨_, he, { hm with stack := hm.stack.push v }⟩

theorem Does.writeSlot (hop : op = .writeSt ∨ op = .writeStLong) (hf : x.frames = f :: fs)
    (hx : x.stack = w :: (ws ++ v :: vs)) (hn : vs.length = f.base + n) :
    (execute c s o ⟨op, n⟩).Does x { x with stack := ws ++ w :: vs } := by
  intro m hm
  have hs := hx ▸ hm.stack
  have hs' := holds_drop_one hs
  have hslot := run_slot (m := { m with stack := m.stack.drop 1 }) (hm.frames.trans hf) hs' hn
  have he : execute c s o ⟨op, n⟩ m =
      (.ok (), { m with stack := (m.stack.drop 1).set vs.length w }) := by
    rcases hop with rfl | rfl <;> simp [execute, run_pop hs, hslot]
  exact ⟨_, he, { hm with stack := hs'.set w }⟩

theorem Does.readIt :
    (execute c s o ⟨.readIt, n⟩).Does x { x with stack := x.implicit :: x.stack } := by
  intro m hm
  refine ⟨{ m with stack := m.stack.push m.implicit }, by simp [execute], { hm with stack := ?_ }⟩
  rw [hm.implicit]
  exact hm.stack.push _

theorem Does.writeIt (hx : x.stack = v :: vs) :
    (execute c s o ⟨.writeIt, n⟩).Does x { x with stack := vs, implicit := v } := by
  intro m hm
  have hs := hx ▸ hm.stack
  refine ⟨{ m with stack := m.stack.drop 1, implicit := v }, by simp [execute, run_pop hs], ?_⟩
  exact { hm with stack := holds_drop_one hs, implicit := rfl }

theorem Does.pops (hop : op = .popN ∨ op = .popNLong) (hf : x.frames = f :: fs)
    (hx : x.stack = ws ++ vs) (hn : ws.length = n) (hb : f.base ≤ vs.length) :
    (execute c s o ⟨op, n⟩).Does x { x with stack := vs } := by
  intro m hm
  have hs := hx ▸ hm.stack
  have hm' : m.base = f.base := by rw [Machine.base, hm.frames, hf]
  have hh : ¬ m.stack.height < f.base + n := by
    rw [hs.1, List.length_append]
    omega
  have he : execute c s o ⟨op, n⟩ m = (.ok (), { m with stack := m.stack.drop n }) := by
    rcases hop with rfl | rfl <;> simp [execute, hm', hh]
  exact ⟨_, he, { hm with stack := hn ▸ hs.drop }⟩

theorem execute_binary (op : BinaryOp) : execute c s o ⟨op.opcode, n⟩ = binary op.apply := by
  cases op <;> rfl

theorem execute_unary (op : UnaryOp) : execute c s o ⟨op.opcode, n⟩ = unary op.apply := by
  cases op <;> rfl

theorem execute_listOp (op : ListOp) :
    execute c s o ⟨op.opcode, n⟩ = binary op.binary.apply := by
  cases op <;> rfl

theorem execute_concat : execute c s o ⟨.concat, n⟩ = binary Value.joined := rfl

theorem execute_getIndex : execute c s o ⟨.getIndex, n⟩ = binary Value.pick := rfl

theorem execute_front :
    execute c s o ⟨.front, n⟩ = unary fun h v => v.pickEnd h false := rfl

theorem execute_back : execute c s o ⟨.back, n⟩ = unary fun h v => v.pickEnd h true := rfl

theorem performs_interpolate (hop : op = .interp ∨ op = .interpLong) {text : Text}
    {splices : List Splice} (hc : c.HasTemplate n text splices) (hl : ws.length = splices.length)
    (hx : x.stack = ws.reverse ++ vs) :
    (execute c s o ⟨op, n⟩).Performs x (Splice.fill text splices ws x.heap)
      fun r => { x with stack := r :: vs } := by
  intro m hm
  have hs := hx ▸ hm.stack
  obtain ⟨tag, ht⟩ := hc
  have htop := run_topMost hs
  have hdrop := hs.drop
  rw [List.length_reverse, hl] at htop hdrop
  rw [List.reverse_reverse] at htop
  have he : execute c s o ⟨op, n⟩ m = interpolate c n m := by rcases hop with rfl | rfl <;> rfl
  have hr : ws.mapM (Value.text m.heap) = ws.mapM (Value.text x.heap) := by rw [hm.heap]
  rw [he]
  simp only [interpolate, ht, run_bind, List.length_map, htop, andThen_ok, run_heap, hr]
  cases hparts : ws.mapM (Value.text x.heap) with
  | error e =>
    have hv : Splice.fill text splices ws x.heap = .error e := by
      simp only [Splice.fill, hparts]
      rfl
    rw [hv]
    exact ⟨_, rfl, rfl, rfl, rfl⟩
  | ok parts =>
    -- the number of a template is not seen in the text
    have htag : (⟨text, splices.map fun x => x.offset, 0⟩ : Template).fill parts =
        (⟨text, splices.map fun x => x.offset, tag⟩ : Template).fill parts := rfl
    simp only [run_lift_ok, andThen_ok, run_bind, run_drop]
    simp only [Splice.fill, hparts, bind, Except.bind, htag]
    cases (⟨text, splices.map fun x => x.offset, tag⟩ : Template).fill parts with
    | none => exact ⟨_, rfl, rfl, rfl, rfl⟩
    | some r => exact ⟨_, rfl, { hm with stack := hdrop.push _ }⟩

theorem ofCode?_code (t : TypeName) : TypeName.ofCode? t.code.toNat.toUInt8 = some t := by
  cases t <;> rfl

theorem performs_castTo {t : TypeName} (ht : TypeName.ofCode? n.toUInt8 = some t)
    (hx : x.stack = v :: vs) :
    (execute c s o ⟨.cast, n⟩).Performs x (v.cast x.heap t)
      fun r => { x with stack := r.1 :: vs, heap := r.2 } := by
  intro m hm
  have hs := hx ▸ hm.stack
  have hr : v.cast m.heap t = v.cast x.heap t := by rw [hm.heap]
  simp only [execute, run_bind, run_pop hs, andThen_ok, ht, run_heap, hr]
  cases v.cast x.heap t with
  | ok r => exact ⟨_, rfl, { hm with stack := (holds_drop_one hs).push _, heap := rfl }⟩
  | error e => exact ⟨_, rfl, rfl, rfl, rfl⟩

theorem performs_cast (t : TypeName) (hx : x.stack = v :: vs) :
    (execute c s o ⟨.cast, t.code.toNat⟩).Performs x (v.cast x.heap t)
      fun r => { x with stack := r.1 :: vs, heap := r.2 } :=
  performs_castTo (ofCode?_code t) hx

theorem Does.list (hop : op = .list ∨ op = .listLong) (hn : ws.length = n)
    (hx : x.stack = ws.reverse ++ vs) :
    (execute c s o ⟨op, n⟩).Does x { x with
      stack := .bukkit x.heap.size :: vs
      heap := x.heap.push ws.toArray } := by
  intro m hm
  have hs := hx ▸ hm.stack
  have htop := run_topMost hs
  have hdrop := hs.drop
  rw [List.length_reverse, hn] at htop hdrop
  rw [List.reverse_reverse] at htop
  have he : execute c s o ⟨op, n⟩ m = (.ok (), { m with
      heap := m.heap.push ws.toArray
      stack := (m.stack.drop n).push (.bukkit m.heap.size) }) := by
    rcases hop with rfl | rfl <;> simp [execute, htop]
  refine ⟨_, he, { hm with stack := ?_, heap := ?_ }⟩
  · rw [hm.heap]
    exact hdrop.push _
  · rw [hm.heap]

theorem performs_append (hx : x.stack = w :: v :: vs) :
    (execute c s o ⟨.append, n⟩).Performs x (v.append x.heap w)
      fun h => { x with stack := vs, heap := h } := by
  intro m hm
  have hs := hx ▸ hm.stack
  have hs' := holds_drop_one hs
  have hr : v.append m.heap w = v.append x.heap w := by rw [hm.heap]
  simp only [execute, run_bind, run_pop hs, andThen_ok,
    run_pop (m := { m with stack := m.stack.drop 1 }) hs', run_get, hr]
  cases v.append x.heap w with
  | ok h => exact ⟨_, rfl, { hm with stack := holds_drop_one hs', heap := rfl }⟩
  | error e => exact ⟨_, rfl, rfl, rfl, rfl⟩

theorem performs_setIndex {i : Value} (hx : x.stack = w :: i :: v :: vs) :
    (execute c s o ⟨.setIndex, n⟩).Performs x (v.store x.heap i w)
      fun h => { x with stack := vs, heap := h } := by
  intro m hm
  have hs := hx ▸ hm.stack
  have hs' := holds_drop_one hs
  have hs'' := holds_drop_one hs'
  have hr : v.store m.heap i w = v.store x.heap i w := by rw [hm.heap]
  simp only [execute, run_bind, run_pop hs, andThen_ok,
    run_pop (m := { m with stack := m.stack.drop 1 }) hs',
    run_pop (m := { m with stack := (m.stack.drop 1).drop 1 }) hs'', run_get, hr]
  cases v.store x.heap i w with
  | ok h => exact ⟨_, rfl, { hm with stack := holds_drop_one hs'', heap := rfl }⟩
  | error e => exact ⟨_, rfl, rfl, rfl, rfl⟩

theorem Does.jump {target : Nat} (hj : c.readJump o = target) :
    (execute c s o ⟨.jump, n⟩).Does x { x with next := target } := by
  intro m hm
  exact ⟨_, rfl, { hm with next := hj }⟩

theorem performs_jumpIfFalse {target : Nat} (hj : c.readJump o = target) (hx : x.stack = v :: vs) :
    (execute c s o ⟨.jumpIfFalse, n⟩).Performs x (v.truthy x.heap)
      fun b => { x with stack := vs, next := if b then x.next else target } := by
  intro m hm
  have hs := hx ▸ hm.stack
  have hr : v.truthy m.heap = v.truthy x.heap := by rw [hm.heap]
  simp only [execute, run_bind, run_pop hs, andThen_ok, run_heap, hr]
  cases v.truthy x.heap with
  | error e => exact ⟨_, rfl, rfl, rfl, rfl⟩
  | ok b =>
    cases b with
    | true => exact ⟨_, rfl, { hm with stack := holds_drop_one hs }⟩
    | false => exact ⟨_, rfl, { hm with stack := holds_drop_one hs, next := hj }⟩

/-- What a call needs: the number of arguments that the function takes, and a frame. -/
def admits (s : Settings) (depth arity argc : Nat) : Except Fault Unit :=
  if arity ≠ argc then .error (.arity arity argc)
  else if s.maxFrames ≤ depth then .error .stackOverflow
  else .ok ()

theorem performs_call {target arity after : Nat} {offset : Int64} (hc : c.code.size < 2 ^ 31)
    (hfetch : c.fetch target = .ok ⟨.fnDef, arity⟩) (hafter : after = target + Opcode.fnDef.length)
    (ho : offset.toInt = target) (hf : x.frames = f :: fs) (hb : f.base ≤ vs.length)
    (hx : x.stack = ws.reverse ++ .funkshon offset :: vs) :
    (execute c s o ⟨.call, ws.length⟩).Performs x (admits s x.frames.length arity ws.length)
      fun _ => { x with
        next := after
        frames := ⟨x.next, vs.length + 1, x.implicit⟩ :: x.frames
        implicit := .noob } := by
  intro m hm
  have hs := hx ▸ hm.stack
  subst hafter
  have hlen := Chunk.length_le_of_fetch hfetch
  have hbyte := Chunk.byteAt_of_fetch hfetch
  have harity := Chunk.fnDef_operand hfetch
  have hbase : m.base = f.base := by rw [Machine.base, hm.frames, hf]
  have hheight : m.stack.height = ws.length + (vs.length + 1) := by simp [hs.1]
  have hunder : ¬ m.stack.height < f.base + ws.length + 1 := by omega
  have hplace : m.stack.height - ws.length - 1 = vs.length := by omega
  have hgreat : ¬ (target : Int) = Numbr.greatest := by
    have : (Numbr.greatest : Int) = 9223372036854775807 := rfl
    simp only [Opcode.length] at hlen
    omega
  have hlen' : ¬ (c.code.size : Int) ≤ target + 1 := by
    have : Opcode.fnDef.length = 2 := rfl
    omega
  have hframes : m.frames.length = x.frames.length := by rw [hm.frames]
  have hdef : ¬ ((target : Int) < 0 ∨ (c.code.size : Int) ≤ target + 1
      ∨ c.byteAt target ≠ Opcode.fnDef.byte) := by
    rintro (h | h | h)
    · omega
    · exact hlen' h
    · exact h hbyte
  have he : execute c s o ⟨.call, ws.length⟩ m =
      andThen (lift (admits s x.frames.length arity ws.length) m) fun _ m => (.ok (), { m with
        frames := ⟨m.next, vs.length + 1, m.implicit⟩ :: m.frames
        implicit := .noob
        next := target + Opcode.fnDef.length }) := by
    simp only [execute, call, run_bind, run_get, andThen_ok, hbase, hunder, if_false, hplace,
      hs.get?, ho, hgreat, Int.toNat_natCast, hdef, harity, hframes, admits]
    split
    · rfl
    · split <;> rfl
  rw [he]
  cases admits s x.frames.length arity ws.length with
  | error e => exact ⟨_, rfl, rfl, rfl, rfl⟩
  | ok u =>
    refine ⟨_, rfl, { hm with next := ?_, frames := ?_, implicit := rfl }⟩
    · rfl
    · rw [hm.next, hm.implicit, hm.frames]

theorem performs_call_other (hv : ∀ offset, v ≠ .funkshon offset) (hf : x.frames = f :: fs)
    (hb : f.base ≤ vs.length) (hx : x.stack = ws.reverse ++ v :: vs) :
    (execute c s o ⟨.call, ws.length⟩).Performs x
      (.error (.notCallable v.kindName) : Except Fault Unit) fun _ => x := by
  intro m hm
  have hs := hx ▸ hm.stack
  have hbase : m.base = f.base := by rw [Machine.base, hm.frames, hf]
  have hheight : m.stack.height = ws.length + (vs.length + 1) := by simp [hs.1]
  have hunder : ¬ m.stack.height < f.base + ws.length + 1 := by omega
  have hplace : m.stack.height - ws.length - 1 = vs.length := by omega
  refine ⟨m, ?_, rfl, rfl, rfl⟩
  simp only [execute, call, run_bind, run_get, andThen_ok, hbase, hunder, if_false, hplace, hs.get?,
    run_fail]

/-- A return inside a call. The caller goes on with its own frame. -/
theorem Does.ret {f g : Frame} {fs : List Frame} {target : Nat} (hf : x.frames = f :: g :: fs)
    (ht : f.returnTo = target) (hb : f.base = vs.length + 1) (hx : x.stack = v :: (ws ++ w :: vs)) :
    (execute c s o ⟨.ret, n⟩).Does x { x with
      next := target
      stack := v :: vs
      frames := g :: fs
      implicit := f.saved } := by
  intro m hm
  have hs := hx ▸ hm.stack
  have hs' : (m.stack.drop 1).Holds ((ws ++ [w]) ++ vs) := by simpa using holds_drop_one hs
  have he : execute c s o ⟨.ret, n⟩ m = (.ok (), { m with
      frames := g :: fs
      stack := ((m.stack.drop 1).cutTo vs.length).push v
      next := f.returnTo
      implicit := f.saved }) := by
    have hframes : m.frames = f :: g :: fs := hm.frames.trans hf
    simp [execute, Action.ret, run_pop hs, hframes, hb]
  exact ⟨_, he, { hm with next := ht, stack := hs'.cutTo.push v, frames := rfl, implicit := rfl }⟩

end Action

/-- The output after a value is printed. -/
def Settings.printed (s : Settings) (heap : Heap) (output : Array UInt8) (v : Value)
    (newline : Bool) : Except Fault (Array UInt8) := do
  let t ← v.text heap
  match s.outputFault with
  | some cause => throw (.output cause)
  | none => return output ++ if newline then t ++ [0x0A] else t

namespace Action

variable {x y : Snapshot} {vs ws : List Value} {v w r : Value} {m : Machine}
variable {c : Chunk} {s : Settings} {o n : Nat} {op : Opcode} {f : Frame} {fs : List Frame}

theorem run_print (v : Value) (newline : Bool) (m : Machine) :
    print s v newline m = match s.printed m.heap m.output v newline with
      | .ok output => (.ok (), { m with output })
      | .error e => (.error (.failed e), m) := by
  simp only [print, run_bind, run_heap, andThen_ok, Settings.printed]
  cases v.text m.heap with
  | error e => rfl
  | ok t =>
    simp only [run_lift_ok, andThen_ok, write]
    cases s.outputFault <;> rfl

theorem performs_print (hx : x.stack = v :: vs) :
    (execute c s o ⟨.print, n⟩).Performs x (s.printed x.heap x.output v (n ≠ 0))
      fun output => { x with stack := vs, output } := by
  intro m hm
  have hs := hx ▸ hm.stack
  have hr : s.printed m.heap m.output v (n ≠ 0) = s.printed x.heap x.output v (n ≠ 0) := by
    rw [hm.heap, hm.output]
  simp only [execute, run_bind, run_pop hs, andThen_ok, run_print, hr]
  cases s.printed x.heap x.output v (n ≠ 0) with
  | ok output => exact ⟨_, rfl, { hm with stack := holds_drop_one hs, output := rfl }⟩
  | error e => exact ⟨_, rfl, rfl, rfl, rfl⟩

theorem performs_read :
    (execute c s o ⟨.read, n⟩).Performs x
      (match s.inputFault with | some cause => .error (.input cause) | none => .ok ())
      fun _ =>
        let line := x.input.takeWhile (· != 0x0A)
        { x with
          stack := .yarn (Text.dropRightWhile (· == 0x0D) line) :: x.stack
          input := x.input.drop (line.length + 1) } := by
  intro m hm
  simp only [execute, run_bind, readLine]
  cases s.inputFault with
  | some cause => exact ⟨_, rfl, rfl, rfl, rfl⟩
  | none =>
    refine ⟨_, rfl, { hm with stack := ?_, input := ?_ }⟩
    · rw [hm.input]
      exact hm.stack.push _
    · rw [hm.input]

end Action

/-- An instruction is fetched from a place of the code. -/
theorem Chunk.lt_of_fetch {c : Chunk} {offset : Int} {i : Instruction}
    (h : c.fetch offset = .ok i) : 0 ≤ offset ∧ offset < c.code.size := by
  unfold fetch at h
  split at h
  · cases h
  · rename_i hsign
    dsimp only at h
    split at h
    · cases h
    · rename_i hbyte
      have hlt := (Array.getElem?_eq_some_iff.1 hbyte).1
      omega

/-- Without a trace, a step does the work of the next instruction. -/
theorem Machine.step_of_fetch {c : Chunk} {s : Settings} {m : Machine} {i : Instruction}
    (ht : s.tracing = false) (hfetch : c.fetch m.next = .ok i) :
    m.step c s = Action.execute c s (m.next.toNat + 1) i
      { m with current := m.next, next := m.next + i.op.length } := by
  have hin : ¬ (c.code.size : Int) ≤ m.next := Int.not_le.2 (Chunk.lt_of_fetch hfetch).2
  simp only [Machine.step, Action.step, run_bind, run_get, andThen_ok, hin, ht, if_false,
    Bool.false_eq_true, run_modify, hfetch]

namespace Snapshot

variable {c : Chunk} {s : Settings} {x y : Snapshot} {op : Opcode} {arg after n : Nat} {span : Span}
variable {α : Type} {r : Except Fault α} {z : α → Snapshot}

theorem step_of_fetch {m : Machine} {i : Instruction} (ht : s.tracing = false)
    (hfetch : c.fetch x.next = .ok i) (hm : m.next = x.next) :
    m.step c s = Action.execute c s (x.next + 1) i
      { m with current := x.next, next := (x.next + i.op.length : Nat) } := by
  rw [Machine.step_of_fetch ht (hm.symm ▸ hfetch), hm, Int.toNat_natCast, Int.natCast_add]

theorem step_of_has {m : Machine} (ht : s.tracing = false) (h : c.Has op arg span x.next after)
    (hm : m.next = x.next) :
    m.step c s = Action.execute c s (x.next + 1) ⟨op, arg⟩
      { m with current := x.next, next := after } := by
  obtain ⟨hfetch, -, rfl⟩ := h
  exact step_of_fetch ht hfetch hm

theorem Steps.of_has (ht : s.tracing = false) (h : c.Has op arg span x.next after)
    (hd : (Action.execute c s (x.next + 1) ⟨op, arg⟩).Does { x with next := after } y) :
    Steps c s x y := by
  intro m hm
  rw [step_of_has ht h hm.next]
  exact hd _ { hm with next := rfl }

/-- What an instruction with a result does: with a fault it ends the run. -/
def Goes (c : Chunk) (s : Settings) (x : Snapshot) (span : Span) (r : Except Fault α)
    (z : α → Snapshot) : Prop :=
  match r with
  | .ok a => Steps c s x (z a)
  | .error f => Stops c s x ⟨some (.failed f span), x.output, x.input⟩

theorem Goes.of_has (ht : s.tracing = false) (h : c.Has op arg span x.next after)
    (hp : (Action.execute c s (x.next + 1) ⟨op, arg⟩).Performs { x with next := after } r z) :
    Goes c s x span r z := by
  have hshow : ∀ m : Machine, m.Shows x →
      { m with current := x.next, next := after }.Shows { x with next := after } :=
    fun m hm => { hm with next := rfl }
  cases r with
  | ok a =>
    intro m hm
    rw [step_of_has ht h hm.next]
    exact hp _ (hshow m hm)
  | error f =>
    intro m hm
    obtain ⟨m', he, hcur, hout, hin⟩ := hp _ (hshow m hm)
    refine ⟨_, m', (step_of_has ht h hm.next).trans he, ?_⟩
    simp [Machine.observe, Ending.finish, hcur, hout, hin, hm.output, hm.input, h.spanAt]

/-- A return at the top level prints a value; then the run is over. -/
theorem Stops.ret {f : Frame} {v : Value} {vs : List Value} (ht : s.tracing = false)
    (h : c.Has .ret 0 span x.next after) (hf : x.frames = [f]) (hx : x.stack = v :: vs) :
    Stops c s x (match s.printed x.heap x.output v true with
      | .ok output => ⟨some .found, output, x.input⟩
      | .error e => ⟨some (.failed e span), x.output, x.input⟩) := by
  intro m hm
  have hs := hx ▸ hm.stack
  have hr : s.printed m.heap m.output v true = s.printed x.heap x.output v true := by
    rw [hm.heap, hm.output]
  rw [step_of_has ht h hm.next]
  simp only [Action.execute, Action.ret, run_bind, andThen_ok, run_get,
    Action.run_pop (m := { m with current := x.next, next := after }) hs]
  simp only [hm.frames, hf, run_bind, Action.run_print, hr]
  cases s.printed x.heap x.output v true with
  | ok output =>
    refine ⟨_, _, rfl, ?_⟩
    simp [Machine.observe, Ending.finish, h.1, hm.input]
  | error e =>
    refine ⟨_, _, rfl, ?_⟩
    simp [Machine.observe, Ending.finish, h.spanAt, hm.output, hm.input]

theorem Stops.halt (ht : s.tracing = false) (h : c.Has .halt 0 span x.next after) :
    Stops c s x ⟨some .fellOff, x.output, x.input⟩ := by
  intro m hm
  rw [step_of_has ht h hm.next]
  refine ⟨.halted, _, rfl, ?_⟩
  simp [Machine.observe, Ending.finish, h.1, hm.output, hm.input]

end Snapshot
end LolToolchain
