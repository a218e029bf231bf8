import LolToolchain.Proofs.Code.Heights
import LolToolchain.Proofs.Machine.Instruction

/-!
What holds in each state of a run of code that agrees with heights: the stack has the height of the
next instruction, the frames are nested, and all values belong to the program. One step keeps this,
and does one of three things: it stays within the current call, it enters a function, or it leaves
one.
-/
namespace LolToolchain

open Effect

/-- Frames of calls, the newest first. Each call has its values above those of its caller, which goes
on at an instruction with the height that the returned value leaves. -/
def Frame.Nested (H : Heights) : List Frame → Prop
  | [] => False
  | [f] => f.base = 1
  | f :: g :: fs =>
    g.base < f.base ∧ (∃ i : Nat, f.returnTo = i ∧ H.At i (f.base - g.base)) ∧ Nested H (g :: fs)

/-- What an instruction leaves in the place of the values that it takes. -/
def Chunk.Gives (c : Chunk) (i : Instruction) (ws : List Value) : Prop :=
  match i.op with
  | .loadConst | .loadConstLong => ∃ v, c.pool.get? i.arg = some v ∧ ws = [v]
  | op => ws.length = op.info.pushes

/-- An instruction leaves `m` values in the place of `k`. -/
structure Chunk.Replaces (c : Chunk) (i : Instruction) (k m : Nat) : Prop where
  pops : c.pops i = k
  gives : ∀ ws : List Value, ws.length = m → c.Gives i ws

namespace Snapshot

/-- The place of the first slot of the current call. -/
def base (x : Snapshot) : Nat :=
  match x.frames with
  | [] => 0
  | f :: _ => f.base

/-- The number of values of the current call. -/
def depth (x : Snapshot) : Nat :=
  x.stack.length - x.base

/-- The state of a run of code that agrees with heights. -/
structure Fits (l : Linked) (H : Heights) (x : Snapshot) : Prop where
  frames : Frame.Nested H x.frames
  base : x.base ≤ x.stack.length
  height : H.At x.next x.depth
  stack : ∀ v ∈ x.stack, v.Valid l x.heap.size
  implicit : x.implicit.Valid l x.heap.size
  saved : ∀ f ∈ x.frames, f.saved.Valid l x.heap.size
  heap : Heap.Valid l x.heap

/-- What the instruction `i` does to the frames and to the stack. -/
inductive Moves (c : Chunk) (i : Instruction) (x y : Snapshot) : Prop where
  /-- The top values of the current call are replaced by others. -/
  | within (vs us ws : List Value) (hx : x.stack = us ++ vs) (hy : y.stack = ws ++ vs)
      (hbase : x.base ≤ vs.length) (hpops : us.length = c.pops i) (hgives : c.Gives i ws)
      (hframes : y.frames = x.frames)
  /-- The top value is moved into a slot of the current call. -/
  | write (w v : Value) (ws vs : List Value) (hop : i.op = .writeSt ∨ i.op = .writeStLong)
      (hx : x.stack = w :: (ws ++ v :: vs)) (hy : y.stack = ws ++ w :: vs)
      (hslot : vs.length = x.base + i.arg) (hframes : y.frames = x.frames)
  /-- A function is called with the values above it as arguments. -/
  | enter (args vs : List Value) (offset : Int64) (a : Nat) (hop : i = ⟨.call, args.length⟩)
      (hx : x.stack = args ++ .funkshon offset :: vs) (hbase : x.base ≤ vs.length)
      (hy : y.stack = x.stack)
      (hframes : y.frames = ⟨(x.next + Opcode.call.length : Nat), vs.length + 1, x.implicit⟩
        :: x.frames)
      (himplicit : y.implicit = .noob) (hoffset : offset.toInt = a)
      (hmarker : c.fetch a = .ok ⟨.fnDef, args.length⟩) (hentry : y.next = a + Opcode.fnDef.length)
  /-- A call is left with the top value. -/
  | leave (f g : Frame) (fs : List Frame) (v : Value) (us vs : List Value)
      (hop : i.op = .ret) (hx : x.stack = v :: (us ++ vs))
      (hbase : f.base = vs.length + 1) (hy : y.stack = v :: vs) (hframes : x.frames = f :: g :: fs)
      (hcaller : y.frames = g :: fs) (hnext : f.returnTo = y.next) (hsaved : y.implicit = f.saved)

end Snapshot

/-- Code that agrees with heights: each instruction that is met is checked, and the functions of the
program stand where their values say. -/
structure Chunk.Agrees (c : Chunk) (l : Linked) (H : Heights) : Prop where
  short : c.code.size < 2 ^ 31
  checks : ∀ i, H.marked i → c.Checks l H i (H.height i)
  functions : ∀ f ∈ l.functions, c.Defines H f.address

/-- The marker of a function says how many parameters there are, and so does the height behind it. -/
theorem Chunk.Agrees.entry {c : Chunk} {l : Linked} {H : Heights} (hc : c.Agrees l H) {a arity : Nat}
    (hmarked : H.marked a) (hfetch : c.fetch a = .ok ⟨.fnDef, arity⟩) :
    H.At (a + Opcode.fnDef.length) arity := by
  obtain ⟨i, hi, -, haccepts, hleads⟩ := hc.checks _ hmarked
  rw [hfetch] at hi
  cases hi
  have harity : H.height a = arity := haccepts
  have hat : H.At (a + Opcode.fnDef.length) (H.height a - 0 + 0) := hleads
  rwa [harity] at hat

/-- A function value is the place of a marker. -/
theorem Chunk.Agrees.exists_marker {c : Chunk} {l : Linked} {H : Heights} (hc : c.Agrees l H)
    {offset : Int64} {n : Nat} (h : (Value.funkshon offset).Valid l n) :
    ∃ a arity : Nat, offset.toInt = a ∧ H.marked a ∧ c.fetch a = .ok ⟨.fnDef, arity⟩ := by
  obtain ⟨f, hf⟩ := Option.isSome_iff_exists.1 h
  have haddress : Int64.ofNat f.address = offset := by simpa using List.find?_some hf
  obtain ⟨hmarked, arity, hfetch⟩ := hc.functions f (List.mem_of_find?_eq_some hf)
  have hinside := Chunk.length_le_of_fetch hfetch
  have hshort := hc.short
  refine ⟨f.address, arity, ?_, hmarked, hfetch⟩
  rw [← haddress]
  exact Int64.toInt_ofNat_of_lt (by omega)

namespace Action

/-- The work of an instruction leads from a snapshot to one with a property, or it ends the run in an
allowed way. -/
def Sends (act : Action Unit) (allowed : Fault → Prop) (x : Snapshot) (Q : Snapshot → Prop) : Prop :=
  ∀ m : Machine, m.Shows x → match act m with
    | (.ok (), m') => ∃ y, m'.Shows y ∧ Q y
    | (.error .halted, _) => True
    | (.error (.failed f), _) => allowed f

variable {act : Action Unit} {allowed : Fault → Prop} {x y : Snapshot} {P Q : Snapshot → Prop}

theorem Sends.mono (h : act.Sends allowed x P) (hPQ : ∀ y, P y → Q y) : act.Sends allowed x Q := by
  intro m hm
  have hsends := h m hm
  split at hsends
  · obtain ⟨y, hm', hy⟩ := hsends
    exact ⟨y, hm', hPQ y hy⟩
  · trivial
  · exact hsends

theorem Does.sends (h : act.Does x y) (hQ : Q y) : act.Sends allowed x Q := by
  intro m hm
  obtain ⟨m', hrun, hm'⟩ := h m hm
  rw [hrun]
  exact ⟨y, hm', hQ⟩

theorem Performs.sends {α : Type} {r : Except Fault α} {z : α → Snapshot} (h : act.Performs x r z)
    (hr : Allows allowed (fun a => Q (z a)) r) : act.Sends allowed x Q := by
  intro m hm
  have hperforms := h m hm
  cases r with
  | ok a =>
    obtain ⟨m', hrun, hm'⟩ := hperforms
    rw [hrun]
    exact ⟨z a, hm', hr⟩
  | error f =>
    obtain ⟨m', hrun, -⟩ := hperforms
    rw [hrun]
    exact hr

end Action

namespace Snapshot

variable {l : Linked} {H : Heights} {x y : Snapshot} {c : Chunk} {vs : List Value}
variable {i : Instruction}

namespace Fits

/-- The top values of the current call. -/
theorem split (hx : x.Fits l H) {k : Nat} (hk : k ≤ x.depth) :
    ∃ us vs, x.stack = us ++ vs ∧ us.length = k ∧ x.base ≤ vs.length := by
  have hbase := hx.base
  rw [depth] at hk
  refine ⟨x.stack.take k, x.stack.drop k, (List.take_append_drop k x.stack).symm, ?_, ?_⟩
  · rw [List.length_take]
    omega
  · rw [List.length_drop]
    omega

theorem split_one (hx : x.Fits l H) (hk : 1 ≤ x.depth) :
    ∃ v vs, x.stack = v :: vs ∧ x.base ≤ vs.length := by
  obtain ⟨us, vs, hstack, hlen, hbase⟩ := hx.split hk
  obtain ⟨v, rfl⟩ := List.length_eq_one_iff.1 hlen
  exact ⟨v, vs, hstack, hbase⟩

theorem split_two (hx : x.Fits l H) (hk : 2 ≤ x.depth) :
    ∃ w v vs, x.stack = w :: v :: vs ∧ x.base ≤ vs.length := by
  obtain ⟨us, vs, hstack, hlen, hbase⟩ := hx.split hk
  match us, hlen with
  | [w, v], _ => exact ⟨w, v, vs, hstack, hbase⟩

theorem split_three (hx : x.Fits l H) (hk : 3 ≤ x.depth) :
    ∃ w i v vs, x.stack = w :: i :: v :: vs ∧ x.base ≤ vs.length := by
  obtain ⟨us, vs, hstack, hlen, hbase⟩ := hx.split hk
  match us, hlen with
  | [w, i, v], _ => exact ⟨w, i, v, vs, hstack, hbase⟩

/-- A state in which the top values of the current call are replaced by others. -/
theorem refit (us ws : List Value) (hx : x.Fits l H) (hstack : x.stack = us ++ vs)
    (hbase : x.base ≤ vs.length) (hframes : y.frames = x.frames) (hy : y.stack = ws ++ vs)
    (hnext : H.At y.next (x.depth - us.length + ws.length))
    (hws : ∀ v ∈ ws, v.Valid l y.heap.size) (himplicit : y.implicit.Valid l y.heap.size)
    (hheap : Heap.Valid l y.heap) (hsize : x.heap.size ≤ y.heap.size) : y.Fits l H := by
  have hb : y.base = x.base := by rw [Snapshot.base, Snapshot.base, hframes]
  have hdepth : y.depth = x.depth - us.length + ws.length := by
    rw [depth, depth, hb, hy, hstack, List.length_append, List.length_append]
    omega
  refine ⟨?_, ?_, ?_, ?_, himplicit, ?_, hheap⟩
  · rw [hframes]
    exact hx.frames
  · rw [hb, hy, List.length_append]
    omega
  · rw [hdepth]
    exact hnext
  · rw [hy]
    refine List.forall_mem_append.2 ⟨hws, fun v hv => ?_⟩
    exact (hx.stack v (by rw [hstack]; exact List.mem_append_right _ hv)).mono hsize
  · rw [hframes]
    exact fun f hf => (hx.saved f hf).mono hsize

/-- A step within the current call: the instruction replaces the top values. -/
theorem within (us ws : List Value) (hx : x.Fits l H) (hi : c.Replaces i us.length ws.length)
    (hstack : x.stack = us ++ vs) (hbase : x.base ≤ vs.length) (hframes : y.frames = x.frames)
    (hy : y.stack = ws ++ vs) (hnext : H.At y.next (x.depth - us.length + ws.length))
    (hws : ∀ v ∈ ws, v.Valid l y.heap.size) (himplicit : y.implicit.Valid l y.heap.size)
    (hheap : Heap.Valid l y.heap) (hsize : x.heap.size ≤ y.heap.size) :
    y.Fits l H ∧ x.Moves c i y :=
  ⟨hx.refit us ws hstack hbase hframes hy hnext hws himplicit hheap hsize,
    .within vs us ws hstack hy hbase hi.pops.symm (hi.gives ws rfl) hframes⟩

/-- A step that changes only the stack and the place in the code. -/
theorem replace (us ws : List Value) (hx : x.Fits l H) (hi : c.Replaces i us.length ws.length)
    (hstack : x.stack = us ++ vs) (hbase : x.base ≤ vs.length) {next : Nat}
    (hnext : H.At next (x.depth - us.length + ws.length)) (hws : ∀ v ∈ ws, v.Valid l x.heap.size) :
    let y : Snapshot := { x with next, stack := ws ++ vs }
    y.Fits l H ∧ x.Moves c i y :=
  hx.within us ws hi hstack hbase rfl rfl hnext hws hx.implicit hx.heap (Nat.le_refl _)

/-- The frame of the current call. -/
theorem frame (hx : x.Fits l H) : ∃ f fs, x.frames = f :: fs ∧ x.base = f.base := by
  have hframes := hx.frames
  cases hf : x.frames with
  | nil =>
    rw [hf] at hframes
    exact hframes.elim
  | cons f fs => exact ⟨f, fs, rfl, by rw [Snapshot.base, hf]⟩

end Fits

/-- The work of an instruction keeps a state fit, and does to it what the instruction can do; `next`
is the place behind the instruction. -/
def Keeps (l : Linked) (H : Heights) (c : Chunk) (i : Instruction) (allowed : Fault → Prop)
    (x : Snapshot) (next : Nat) (act : Action Unit) : Prop :=
  act.Sends allowed { x with next } fun y => y.Fits l H ∧ x.Moves c i y

variable {allowed : Fault → Prop} {s : Settings} {o arg next : Nat} {act : Action Unit}

namespace Fits

theorem keeps_same (hx : x.Fits l H) (hi : c.Replaces i 0 0)
    (hdoes : act.Does { x with next } { x with next }) (hnext : H.At next x.depth) :
    x.Keeps l H c i allowed next act :=
  hdoes.sends (hx.replace [] [] hi rfl hx.base hnext nofun)

theorem keeps_push {v : Value} (hx : x.Fits l H) (hi : c.Replaces i 0 1)
    (hdoes : act.Does { x with next } { x with next, stack := v :: x.stack })
    (hv : v.Valid l x.heap.size) (hnext : H.At next (x.depth + 1)) :
    x.Keeps l H c i allowed next act :=
  hdoes.sends (hx.replace [] [v] hi rfl hx.base hnext (List.forall_mem_singleton.2 hv))

theorem keeps_constant {op : Opcode} {v : Value} (hx : x.Fits l H)
    (hop : op = .loadConst ∨ op = .loadConstLong) (hget : c.pool.get? arg = some v)
    (hv : v.Valid l x.heap.size) (hnext : H.At next (x.depth + 1)) :
    x.Keeps l H c ⟨op, arg⟩ allowed next (Action.execute c s o ⟨op, arg⟩) := by
  refine (Action.Does.constant hop hget).sends ⟨hx.refit [] [v] rfl hx.base rfl rfl hnext
    (List.forall_mem_singleton.2 hv) hx.implicit hx.heap (Nat.le_refl _), ?_⟩
  refine .within x.stack [] [v] rfl rfl hx.base ?_ ?_ rfl
  · rcases hop with rfl | rfl <;> rfl
  · rcases hop with rfl | rfl <;> exact ⟨v, hget, rfl⟩

theorem keeps_unary (hx : x.Fits l H) (hi : c.Replaces i 1 1) (hdepth : 1 ≤ x.depth)
    (hnext : H.At next (x.depth - 1 + 1)) {f : Heap → Value → Except Fault Value}
    (hf : ∀ v, v.Valid l x.heap.size →
      Allows allowed (fun u => u.Valid l x.heap.size) (f x.heap v)) :
    x.Keeps l H c i allowed next (Action.unary f) := by
  obtain ⟨v, vs, hstack, hbase⟩ := hx.split_one hdepth
  have hv : v.Valid l x.heap.size := hx.stack v (by rw [hstack]; exact List.mem_cons_self)
  refine (Action.performs_unary (x := { x with next }) f hstack).sends ((hf v hv).mono fun u hu => ?_)
  exact hx.replace [v] [u] hi hstack hbase hnext (List.forall_mem_singleton.2 hu)

theorem keeps_binary (hx : x.Fits l H) (hi : c.Replaces i 2 1) (hdepth : 2 ≤ x.depth)
    (hnext : H.At next (x.depth - 2 + 1)) {f : Heap → Value → Value → Except Fault Value}
    (hf : ∀ v w, v.Valid l x.heap.size → w.Valid l x.heap.size →
      Allows allowed (fun u => u.Valid l x.heap.size) (f x.heap v w)) :
    x.Keeps l H c i allowed next (Action.binary f) := by
  obtain ⟨w, v, vs, hstack, hbase⟩ := hx.split_two hdepth
  have hvalid := hx.stack
  rw [hstack] at hvalid
  obtain ⟨hw, hvalid⟩ := List.forall_mem_cons.1 hvalid
  obtain ⟨hv, -⟩ := List.forall_mem_cons.1 hvalid
  refine (Action.performs_binary (x := { x with next }) f hstack).sends ((hf v w hv hw).mono fun u hu => ?_)
  exact hx.replace [w, v] [u] hi hstack hbase hnext (List.forall_mem_singleton.2 hu)

theorem keeps_pop (hx : x.Fits l H) (hdepth : 1 ≤ x.depth) (hnext : H.At next (x.depth - 1)) :
    x.Keeps l H c ⟨.pop, arg⟩ allowed next (Action.execute c s o ⟨.pop, arg⟩) := by
  obtain ⟨v, vs, hstack, hbase⟩ := hx.split_one hdepth
  have hdoes : (discard Action.pop).Does { x with next } { x with next, stack := vs } := by
    intro m hm
    have hs := hstack ▸ hm.stack
    refine ⟨{ m with stack := m.stack.drop 1 }, ?_, { hm with stack := Action.holds_drop_one hs }⟩
    change ((fun _ => PUnit.unit) <$> Action.pop : Action Unit) m = _
    rw [run_map, Action.run_pop hs]
    rfl
  exact hdoes.sends (hx.replace [v] [] (by exact ⟨rfl, fun _ h => h⟩) hstack hbase hnext nofun)

theorem keeps_pops {op : Opcode} (hx : x.Fits l H) (hop : op = .popN ∨ op = .popNLong)
    (hdepth : arg ≤ x.depth) (hnext : H.At next (x.depth - arg)) :
    x.Keeps l H c ⟨op, arg⟩ allowed next (Action.execute c s o ⟨op, arg⟩) := by
  obtain ⟨us, vs, hstack, rfl, hbase⟩ := hx.split hdepth
  obtain ⟨f, fs, hframes, hf⟩ := hx.frame
  refine (Action.Does.pops (x := { x with next }) hop hframes hstack rfl (hf ▸ hbase)).sends ?_
  refine hx.replace us [] ⟨?_, ?_⟩ hstack hbase hnext nofun
  · rcases hop with rfl | rfl <;> rfl
  · rcases hop with rfl | rfl <;> exact fun _ h => h

theorem keeps_readSlot {op : Opcode} (hx : x.Fits l H) (hop : op = .readSt ∨ op = .readStLong)
    (harg : arg < x.depth) (hnext : H.At next (x.depth + 1)) :
    x.Keeps l H c ⟨op, arg⟩ allowed next (Action.execute c s o ⟨op, arg⟩) := by
  obtain ⟨f, fs, hframes, hf⟩ := hx.frame
  have hlt : f.base + arg < x.stack.length := by
    rw [depth] at harg
    omega
  obtain ⟨ws, v, vs, hstack, hlen⟩ := exists_mem_split hlt
  have hv : v.Valid l x.heap.size :=
    hx.stack v (by rw [hstack]; exact List.mem_append_right _ List.mem_cons_self)
  refine hx.keeps_push ⟨?_, ?_⟩
    (Action.Does.readSlot (x := { x with next }) hop hframes hstack hlen) hv hnext
  · rcases hop with rfl | rfl <;> rfl
  · rcases hop with rfl | rfl <;> exact fun _ h => h

theorem keeps_writeSlot {op : Opcode} (hx : x.Fits l H) (hop : op = .writeSt ∨ op = .writeStLong)
    (harg : arg + 1 < x.depth) (hnext : H.At next (x.depth - 1)) :
    x.Keeps l H c ⟨op, arg⟩ allowed next (Action.execute c s o ⟨op, arg⟩) := by
  obtain ⟨f, fs, hframes, hf⟩ := hx.frame
  obtain ⟨w, rest, hstack, hbase⟩ := hx.split_one (by omega)
  have hlt : f.base + arg < rest.length := by
    rw [depth, hstack, List.length_cons] at harg
    omega
  obtain ⟨ws, v, vs, rfl, hlen⟩ := exists_mem_split hlt
  have hvalid := hx.stack
  rw [hstack] at hvalid
  obtain ⟨hw, hvalid⟩ := List.forall_mem_cons.1 hvalid
  refine (Action.Does.writeSlot (x := { x with next }) hop hframes hstack hlen).sends
    ⟨?_, .write w v ws vs hop hstack rfl (hlen.trans (by rw [hf])) rfl⟩
  have hsplit : x.stack = (w :: (ws ++ [v])) ++ vs := by simpa using hstack
  have hjoin : ws ++ w :: vs = (ws ++ [w]) ++ vs := by simp
  rw [hjoin]
  refine hx.refit _ _ hsplit (by omega) rfl rfl ?_ (List.forall_mem_append.2 ⟨fun u hu => ?_, ?_⟩)
    hx.implicit hx.heap (Nat.le_refl _)
  · simp only [List.length_cons, List.length_append, List.length_nil] at *
    have hsame : x.depth - (ws.length + (0 + 1) + 1) + (ws.length + (0 + 1)) = x.depth - 1 := by
      rw [depth, hstack, List.length_cons, List.length_append, List.length_cons]
      omega
    rw [hsame]
    exact hnext
  · exact hvalid u (List.mem_append_left _ hu)
  · exact List.forall_mem_singleton.2 hw

theorem keeps_writeIt (hx : x.Fits l H) (hdepth : 1 ≤ x.depth) (hnext : H.At next (x.depth - 1)) :
    x.Keeps l H c ⟨.writeIt, arg⟩ allowed next (Action.execute c s o ⟨.writeIt, arg⟩) := by
  obtain ⟨v, vs, hstack, hbase⟩ := hx.split_one hdepth
  have hv : v.Valid l x.heap.size := hx.stack v (by rw [hstack]; exact List.mem_cons_self)
  refine (Action.Does.writeIt (x := { x with next }) hstack).sends ?_
  exact hx.within [v] [] ⟨rfl, fun _ h => h⟩ hstack hbase rfl rfl hnext nofun hv hx.heap
    (Nat.le_refl _)

theorem keeps_list {op : Opcode} (hx : x.Fits l H) (hop : op = .list ∨ op = .listLong)
    (hdepth : arg ≤ x.depth) (hnext : H.At next (x.depth - arg + 1)) :
    x.Keeps l H c ⟨op, arg⟩ allowed next (Action.execute c s o ⟨op, arg⟩) := by
  obtain ⟨us, vs, hstack, rfl, hbase⟩ := hx.split hdepth
  have hrev : x.stack = us.reverse.reverse ++ vs := by rw [List.reverse_reverse, hstack]
  have hvalid : ∀ v ∈ us.reverse.toArray, v.Valid l x.heap.size := by
    intro v hv
    have hmem : v ∈ us := List.mem_reverse.1 (List.mem_toArray.1 hv)
    exact hx.stack v (by rw [hstack]; exact List.mem_append_left _ hmem)
  refine (Action.Does.list (x := { x with next }) hop List.length_reverse hrev).sends ?_
  have hsize : (x.heap.push us.reverse.toArray).size = x.heap.size + 1 := Array.size_push _
  refine hx.within us [.bukkit x.heap.size] ⟨?_, ?_⟩ hstack hbase rfl rfl hnext
    (List.forall_mem_singleton.2 ?_) ?_ (hx.heap.push hvalid) ?_
  · rcases hop with rfl | rfl <;> rfl
  · rcases hop with rfl | rfl <;> exact fun _ h => h
  · change x.heap.size < (x.heap.push us.reverse.toArray).size
    omega
  · exact hx.implicit.mono (by dsimp only; omega)
  · dsimp only
    omega

section

variable (hallowed : ∀ f, f.isInternal = false → allowed f)
include hallowed

theorem keeps_cast {t : TypeName} (hx : x.Fits l H) (ht : TypeName.ofCode? arg.toUInt8 = some t)
    (hdepth : 1 ≤ x.depth) (hnext : H.At next (x.depth - 1 + 1)) :
    x.Keeps l H c ⟨.cast, arg⟩ allowed next (Action.execute c s o ⟨.cast, arg⟩) := by
  obtain ⟨v, vs, hstack, hbase⟩ := hx.split_one hdepth
  have hv : v.Valid l x.heap.size := hx.stack v (by rw [hstack]; exact List.mem_cons_self)
  refine (Action.performs_castTo (x := { x with next }) ht hstack).sends
    ((Value.allows_cast hallowed hx.heap hv t).mono ?_)
  rintro ⟨u, heap⟩ ⟨hu, hheap, hsize⟩
  exact hx.within [v] [u] ⟨rfl, fun _ h => h⟩ hstack hbase rfl rfl hnext
    (List.forall_mem_singleton.2 hu) (hx.implicit.mono hsize) hheap hsize

theorem keeps_append (hx : x.Fits l H) (hdepth : 2 ≤ x.depth) (hnext : H.At next (x.depth - 2)) :
    x.Keeps l H c ⟨.append, arg⟩ allowed next (Action.execute c s o ⟨.append, arg⟩) := by
  obtain ⟨w, v, vs, hstack, hbase⟩ := hx.split_two hdepth
  have hvalid := hx.stack
  rw [hstack] at hvalid
  obtain ⟨hw, hvalid⟩ := List.forall_mem_cons.1 hvalid
  obtain ⟨hv, -⟩ := List.forall_mem_cons.1 hvalid
  refine (Action.performs_append (x := { x with next }) hstack).sends
    ((Value.allows_append hallowed hx.heap hv hw).mono ?_)
  rintro heap ⟨hheap, hsize⟩
  have hle : x.heap.size ≤ heap.size := Nat.le_of_eq hsize.symm
  exact hx.within [w, v] [] ⟨rfl, fun _ h => h⟩ hstack hbase rfl rfl hnext nofun
    (hx.implicit.mono hle) hheap hle

theorem keeps_setIndex (hx : x.Fits l H) (hdepth : 3 ≤ x.depth) (hnext : H.At next (x.depth - 3)) :
    x.Keeps l H c ⟨.setIndex, arg⟩ allowed next (Action.execute c s o ⟨.setIndex, arg⟩) := by
  obtain ⟨w, i, v, vs, hstack, hbase⟩ := hx.split_three hdepth
  have hvalid := hx.stack
  rw [hstack] at hvalid
  obtain ⟨hw, hvalid⟩ := List.forall_mem_cons.1 hvalid
  obtain ⟨-, hvalid⟩ := List.forall_mem_cons.1 hvalid
  obtain ⟨hv, -⟩ := List.forall_mem_cons.1 hvalid
  refine (Action.performs_setIndex (x := { x with next }) hstack).sends
    ((Value.allows_store hallowed hx.heap hv i hw).mono ?_)
  rintro heap ⟨hheap, hsize⟩
  have hle : x.heap.size ≤ heap.size := Nat.le_of_eq hsize.symm
  exact hx.within [w, i, v] [] ⟨rfl, fun _ h => h⟩ hstack hbase rfl rfl hnext nofun
    (hx.implicit.mono hle) hheap hle

theorem keeps_interpolate {op : Opcode} {text : Text} {splices : List Splice} (hx : x.Fits l H)
    (hop : op = .interp ∨ op = .interpLong) (ht : c.HasTemplate arg text splices)
    (hlit : (Value.interp (some (Splice.template text splices))).Literal allowed)
    (hdepth : splices.length ≤ x.depth) (hnext : H.At next (x.depth - splices.length + 1)) :
    x.Keeps l H c ⟨op, arg⟩ allowed next (Action.execute c s o ⟨op, arg⟩) := by
  obtain ⟨us, vs, hstack, hlen, hbase⟩ := hx.split hdepth
  have hrev : x.stack = us.reverse.reverse ++ vs := by rw [List.reverse_reverse, hstack]
  have hvalid : ∀ v ∈ us.reverse, v.Valid l x.heap.size := by
    intro v hv
    exact hx.stack v (by rw [hstack]; exact List.mem_append_left _ (List.mem_reverse.1 hv))
  refine (Action.performs_interpolate (x := { x with next }) hop ht
    (List.length_reverse.trans hlen) hrev).sends
    ((Splice.allows_fill hallowed hx.heap hvalid hlit).mono fun u hu => ?_)
  rw [← hlen] at hnext
  refine hx.replace us [u] ⟨(ht.pops hop).trans hlen.symm, ?_⟩ hstack hbase hnext
    (List.forall_mem_singleton.2 hu)
  rcases hop with rfl | rfl <;> exact fun _ h => h

theorem allows_printed {heap : Heap} {output : Array UInt8} {v : Value} {newline : Bool}
    (hheap : Heap.Valid l heap) (hv : v.Valid l heap.size) :
    Allows allowed (fun _ => True) (s.printed heap output v newline) := by
  refine (Value.allows_text hallowed hheap hv).bind fun t _ => ?_
  cases s.outputFault with
  | some cause => exact hallowed _ rfl
  | none => trivial

theorem keeps_print (hx : x.Fits l H) (hdepth : 1 ≤ x.depth) (hnext : H.At next (x.depth - 1)) :
    x.Keeps l H c ⟨.print, arg⟩ allowed next (Action.execute c s o ⟨.print, arg⟩) := by
  obtain ⟨v, vs, hstack, hbase⟩ := hx.split_one hdepth
  have hv : v.Valid l x.heap.size := hx.stack v (by rw [hstack]; exact List.mem_cons_self)
  refine (Action.performs_print (x := { x with next }) hstack).sends
    ((allows_printed hallowed hx.heap hv).mono fun output _ => ?_)
  exact hx.within [v] [] ⟨rfl, fun _ h => h⟩ hstack hbase rfl rfl hnext nofun hx.implicit hx.heap
    (Nat.le_refl _)

theorem keeps_read (hx : x.Fits l H) (hnext : H.At next (x.depth + 1)) :
    x.Keeps l H c ⟨.read, arg⟩ allowed next (Action.execute c s o ⟨.read, arg⟩) := by
  refine (Action.performs_read (x := { x with next })).sends ?_
  cases s.inputFault with
  | some cause => exact hallowed _ rfl
  | none =>
    exact hx.within [] [_] ⟨rfl, fun _ h => h⟩ rfl hx.base rfl rfl hnext
      (List.forall_mem_singleton.2 trivial) hx.implicit hx.heap (Nat.le_refl _)

end

private theorem keeps_jumpIfFalse (hx : x.Fits l H) (hdepth : 1 ≤ x.depth)
    (hnext : H.At next (x.depth - 1)) (hjump : c.JumpsTo H o (x.depth - 1)) :
    x.Keeps l H c ⟨.jumpIfFalse, arg⟩ allowed next (Action.execute c s o ⟨.jumpIfFalse, arg⟩) := by
  obtain ⟨v, vs, hstack, hbase⟩ := hx.split_one hdepth
  obtain ⟨target, hread, htarget⟩ := hjump
  have hv : v.Valid l x.heap.size := hx.stack v (by rw [hstack]; exact List.mem_cons_self)
  refine (Action.performs_jumpIfFalse (x := { x with next }) hread hstack).sends
    ((Value.allows_truthy hx.heap hv).mono fun b _ => ?_)
  refine hx.replace [v] [] (by exact ⟨rfl, fun _ h => h⟩) hstack hbase ?_ nofun
  cases b
  · exact htarget
  · exact hnext

private theorem keeps_jump (hx : x.Fits l H) (hjump : c.JumpsTo H o x.depth) :
    x.Keeps l H c ⟨.jump, arg⟩ allowed next (Action.execute c s o ⟨.jump, arg⟩) := by
  obtain ⟨target, hread, htarget⟩ := hjump
  refine (Action.Does.jump (x := { x with next }) hread).sends ?_
  exact hx.replace [] [] (by exact ⟨rfl, fun _ h => h⟩) rfl hx.base htarget nofun

/-- A call enters a function of the program, or fails in a way that belongs to the language. -/
private theorem keeps_call (hallowed : ∀ f, f.isInternal = false → allowed f) (hc : c.Agrees l H)
    (hx : x.Fits l H) (hdepth : arg + 1 ≤ x.depth)
    (hnext : H.At (x.next + Opcode.call.length) (x.depth - (arg + 1) + 1)) :
    x.Keeps l H c ⟨.call, arg⟩ allowed (x.next + Opcode.call.length)
      (Action.execute c s o ⟨.call, arg⟩) := by
  obtain ⟨f, fs, hframes, hf⟩ := hx.frame
  have hbase := hx.base
  rw [depth] at hdepth
  have hlt : x.stack.length - arg - 1 < x.stack.length := by omega
  obtain ⟨args, callee, vs, hstack, hlen⟩ := exists_mem_split hlt
  have hsize := congrArg List.length hstack
  rw [List.length_append, List.length_cons] at hsize
  obtain rfl : args.length = arg := by omega
  have hrev : x.stack = args.reverse.reverse ++ callee :: vs := by rw [List.reverse_reverse, hstack]
  have hb : f.base ≤ vs.length := by omega
  have hvalid : callee.Valid l x.heap.size :=
    hx.stack callee (by rw [hstack]; exact List.mem_append_right _ List.mem_cons_self)
  have hother : (∀ offset, callee ≠ .funkshon offset) →
      x.Keeps l H c ⟨.call, args.length⟩ allowed (x.next + Opcode.call.length)
        (Action.execute c s o ⟨.call, args.length⟩) := by
    intro hcallee
    rw [← List.length_reverse]
    exact (Action.performs_call_other (x := { x with next := x.next + Opcode.call.length }) hcallee
      hframes hb hrev).sends (hallowed _ rfl)
  cases callee with
  | funkshon offset =>
    obtain ⟨a, arity, hoffset, hmarked, hgfetch⟩ := hc.exists_marker hvalid
    have hentry := hc.entry hmarked hgfetch
    rw [← List.length_reverse]
    refine (Action.performs_call (x := { x with next := x.next + Opcode.call.length }) hc.short
      hgfetch rfl hoffset hframes hb hrev).sends ?_
    rw [Action.admits]
    split
    · exact hallowed _ rfl
    · rename_i hargs
      split
      · exact hallowed _ rfl
      · rw [List.length_reverse] at hargs
        obtain rfl : arity = args.length := Decidable.of_not_not hargs
        refine ⟨⟨?_, ?_, ?_, hx.stack, trivial, ?_, hx.heap⟩, ?_⟩
        · have hcallers := hx.frames
          rw [hframes] at hcallers
          have hreturn : x.depth - (args.length + 1) + 1 = vs.length + 1 - f.base := by
            rw [depth]
            omega
          rw [hreturn] at hnext
          rw [hframes]
          exact ⟨Nat.lt_succ_of_le hb, ⟨_, rfl, hnext⟩, hcallers⟩
        · change vs.length + 1 ≤ x.stack.length
          omega
        · have hdepth' : args.length = x.stack.length - (vs.length + 1) := by omega
          rw [hdepth'] at hentry
          exact hentry
        · exact List.forall_mem_cons.2 ⟨hx.implicit, hx.saved⟩
        · exact .enter args vs offset a (by rw [List.length_reverse]) hstack (hf ▸ hb) rfl rfl
            rfl hoffset hgfetch rfl
  | _ => exact hother (by rintro _ ⟨⟩)

/-- The value to return, the other values of the current call, and what is below it. -/
theorem split_call (hx : x.Fits l H) {f : Frame} {fs : List Frame} (hframes : x.frames = f :: fs)
    (hdepth : 1 ≤ x.depth) :
    ∃ v ws w vs, x.stack = v :: (ws ++ w :: vs) ∧ f.base = vs.length + 1 := by
  obtain ⟨v, rest, hstack, hbase⟩ := hx.split_one hdepth
  have hpos : 1 ≤ f.base := by
    have hnested := hx.frames
    rw [hframes] at hnested
    cases fs with
    | nil => exact Nat.le_of_eq (Eq.symm hnested)
    | cons g fs => exact Nat.lt_of_le_of_lt (Nat.zero_le _) hnested.1
  have hb : x.base = f.base := by rw [Snapshot.base, hframes]
  have hsplit : f.base - 1 < rest.length := by omega
  obtain ⟨ws, w, vs, rfl, hlen⟩ := exists_mem_split hsplit
  exact ⟨v, ws, w, vs, hstack, by omega⟩

/-- A return leads back to the caller; at the top level it prints a value and ends the run. -/
private theorem keeps_ret (hallowed : ∀ f, f.isInternal = false → allowed f) (hx : x.Fits l H)
    (hdepth : 1 ≤ x.depth) :
    x.Keeps l H c ⟨.ret, arg⟩ allowed next (Action.execute c s o ⟨.ret, arg⟩) := by
  obtain ⟨f, fs, hframes, -⟩ := hx.frame
  obtain ⟨v, ws, w, vs, hstack, hb⟩ := hx.split_call hframes hdepth
  have hvalid := hx.stack
  rw [hstack] at hvalid
  obtain ⟨hv, hvalid⟩ := List.forall_mem_cons.1 hvalid
  have hnested := hx.frames
  rw [hframes] at hnested
  cases fs with
  | nil =>
    intro m hm
    have hs := hstack ▸ hm.stack
    have hprinted : Allows allowed (fun _ => True) (s.printed m.heap m.output v true) := by
      rw [hm.heap]
      exact allows_printed hallowed hx.heap hv
    have hm' : m.frames = [f] := hm.frames.trans hframes
    simp only [Action.execute, Action.ret, run_bind, Action.run_pop hs, andThen_ok, run_get, hm',
      Action.run_print]
    cases hout : s.printed m.heap m.output v true with
    | ok output => trivial
    | error e =>
      rw [hout] at hprinted
      exact hprinted
  | cons g fs =>
    obtain ⟨hlt, ⟨target, hreturn, htarget⟩, hcallers⟩ := hnested
    refine (Action.Does.ret (x := { x with next }) hframes hreturn hb hstack).sends ⟨⟨?_, ?_, ?_, ?_,
      ?_, ?_, hx.heap⟩, ?_⟩
    · exact hcallers
    · change g.base ≤ vs.length + 1
      omega
    · change H.At target (vs.length + 1 - g.base)
      rw [← hb]
      exact htarget
    · exact List.forall_mem_cons.2 ⟨hv, fun u hu =>
        hvalid u (List.mem_append_right _ (List.mem_cons_of_mem _ hu))⟩
    · exact hx.saved f (by rw [hframes]; exact List.mem_cons_self)
    · exact fun h hh => hx.saved h (by rw [hframes]; exact List.mem_cons_of_mem _ hh)
    · exact .leave f g fs v (ws ++ [w]) vs rfl (by simpa using hstack) hb rfl hframes rfl hreturn rfl

/-- Each instruction that is checked keeps the state fit. -/
theorem keeps_execute (hallowed : ∀ f, f.isInternal = false → allowed f)
    (hc : c.Agrees l H) (hx : x.Fits l H) {i : Instruction}
    (hlit : i.op = .interp ∨ i.op = .interpLong →
      ∀ v, c.pool.get? i.arg = some v → v.Literal allowed)
    (hpops : c.pops i ≤ x.depth) (haccepts : c.Accepts l i x.depth)
    (hleads : c.LeadsOn H x.next i x.depth) :
    x.Keeps l H c i allowed (x.next + i.op.length) (Action.execute c s (x.next + 1) i) := by
  have hzero : ∀ {v : Value}, v.Valid l 0 → v.Valid l x.heap.size := fun hv => hv.mono (Nat.zero_le _)
  have hoperator : ∀ op : BinaryOp, 2 ≤ x.depth → H.At (x.next + 1) (x.depth - 2 + 1) →
      x.Keeps l H c ⟨op.opcode, i.arg⟩ allowed (x.next + 1)
        (Action.execute c s (x.next + 1) ⟨op.opcode, i.arg⟩) := by
    intro op hdepth hnext
    have hi : c.Replaces ⟨op.opcode, i.arg⟩ 2 1 := by cases op <;> exact ⟨rfl, fun _ h => h⟩
    rw [Action.execute_binary]
    exact hx.keeps_binary hi hdepth hnext fun v w hv hw => op.allows_apply hallowed hx.heap hv hw
  have htext : ∀ {op : Opcode} {next arg : Nat} {text : Text} {splices : List Splice},
      op = .interp ∨ op = .interpLong → c.HasTemplate arg text splices →
      (∀ v, c.pool.get? arg = some v → v.Literal allowed) → c.pops ⟨op, arg⟩ ≤ x.depth →
      H.At next (x.depth - c.pops ⟨op, arg⟩ + 1) →
      x.Keeps l H c ⟨op, arg⟩ allowed next (Action.execute c s (x.next + 1) ⟨op, arg⟩) := by
    intro op next arg text splices hop htemplate hlit hdepth hnext
    rw [htemplate.pops hop] at hdepth hnext
    obtain ⟨tag, hget⟩ := htemplate
    have hplaced := hlit _ hget
    exact hx.keeps_interpolate hallowed hop ⟨tag, hget⟩ hplaced hdepth hnext
  obtain ⟨op, arg⟩ := i
  cases op with
  | nop | fnDef => exact hx.keeps_same ⟨rfl, fun _ h => h⟩ (fun m hm => ⟨m, rfl, hm⟩) hleads
  | pop => exact hx.keeps_pop hpops hleads
  | popN => exact hx.keeps_pops (.inl rfl) hpops hleads
  | popNLong => exact hx.keeps_pops (.inr rfl) hpops hleads
  | loadConst =>
    obtain ⟨v, hget, hv⟩ := haccepts
    exact hx.keeps_constant (.inl rfl) hget (hzero hv) hleads
  | loadConstLong =>
    obtain ⟨v, hget, hv⟩ := haccepts
    exact hx.keeps_constant (.inr rfl) hget (hzero hv) hleads
  | readSt => exact hx.keeps_readSlot (.inl rfl) haccepts hleads
  | readStLong => exact hx.keeps_readSlot (.inr rfl) haccepts hleads
  | writeSt => exact hx.keeps_writeSlot (.inl rfl) haccepts hleads
  | writeStLong => exact hx.keeps_writeSlot (.inr rfl) haccepts hleads
  | readIt => exact hx.keeps_push ⟨rfl, fun _ h => h⟩ Action.Does.readIt hx.implicit hleads
  | writeIt => exact hx.keeps_writeIt hpops hleads
  | add => exact hoperator .add hpops hleads
  | sub => exact hoperator .sub hpops hleads
  | mul => exact hoperator .mul hpops hleads
  | div => exact hoperator .div hpops hleads
  | mod => exact hoperator .mod hpops hleads
  | min => exact hoperator .min hpops hleads
  | max => exact hoperator .max hpops hleads
  | equal => exact hoperator .equal hpops hleads
  | notEqual => exact hoperator .notEqual hpops hleads
  | gt => exact hoperator .gt hpops hleads
  | lt => exact hoperator .lt hpops hleads
  | ge => exact hoperator .ge hpops hleads
  | le => exact hoperator .le hpops hleads
  | and => exact hoperator .and hpops hleads
  | or => exact hoperator .or hpops hleads
  | xor => exact hoperator .xor hpops hleads
  | not =>
    exact hx.keeps_unary (by exact ⟨rfl, fun _ h => h⟩) hpops hleads fun v hv =>
      UnaryOp.not.allows_apply hallowed hx.heap hv
  | concat =>
    exact hx.keeps_binary (by exact ⟨rfl, fun _ h => h⟩) hpops hleads fun v w hv hw =>
      Value.allows_joined hallowed hx.heap hv hw
  | interp =>
    obtain ⟨text, splices, htemplate⟩ := haccepts
    exact htext (.inl rfl) htemplate (hlit (.inl rfl)) hpops hleads
  | interpLong =>
    obtain ⟨text, splices, htemplate⟩ := haccepts
    exact htext (.inr rfl) htemplate (hlit (.inr rfl)) hpops hleads
  | cast =>
    obtain ⟨t, ht⟩ := haccepts
    exact hx.keeps_cast hallowed ht hpops hleads
  | list => exact hx.keeps_list (.inl rfl) hpops hleads
  | listLong => exact hx.keeps_list (.inr rfl) hpops hleads
  | append => exact hx.keeps_append hallowed hpops hleads
  | getIndex =>
    exact hx.keeps_binary (by exact ⟨rfl, fun _ h => h⟩) hpops hleads fun v w hv _ =>
      Value.allows_pick hallowed hx.heap (fun _ => trivial) hv.whole w
  | setIndex => exact hx.keeps_setIndex hallowed hpops hleads
  | front =>
    exact hx.keeps_unary (by exact ⟨rfl, fun _ h => h⟩) hpops hleads fun v hv =>
      Value.allows_pickEnd hallowed hx.heap (fun _ => trivial) hv.whole false
  | back =>
    exact hx.keeps_unary (by exact ⟨rfl, fun _ h => h⟩) hpops hleads fun v hv =>
      Value.allows_pickEnd hallowed hx.heap (fun _ => trivial) hv.whole true
  | len =>
    exact hx.keeps_unary (by exact ⟨rfl, fun _ h => h⟩) hpops hleads fun v hv =>
      Value.allows_count hallowed hx.heap hv
  | jump => exact hx.keeps_jump hleads
  | jumpIfFalse => exact hx.keeps_jumpIfFalse hpops hleads.1 hleads.2
  | call => exact hx.keeps_call hallowed hc hpops hleads
  | ret => exact hx.keeps_ret hallowed hpops
  | print => exact hx.keeps_print hallowed hpops hleads
  | read => exact hx.keeps_read hallowed hleads
  | halt => exact fun _ _ => trivial

end Fits
end Snapshot

theorem Stack.Holds.toList {s : Stack} {vs : List Value} (h : s.Holds vs) :
    s.toList = vs.reverse := by
  obtain ⟨hheight, hcells⟩ := h
  rw [Stack.toList, hheight, ← List.length_reverse]
  exact (List.prefix_iff_eq_take.1 hcells).symm

namespace Snapshot

variable {l : Linked} {H : Heights} {x : Snapshot} {c : Chunk} {s : Settings} {m : Machine}
variable {allowed : Fault → Prop} {i : Instruction}

private theorem instructionText_ne_broken {heap : Heap} {n offset : Nat} (hheap : Heap.Valid l heap)
    (haccepts : c.Accepts l i n) : c.instructionText heap offset i ≠ .error .broken := by
  have hconstant : ∀ v : Value, v.inspect heap ≠ .error .broken →
      (do return i.op.name ++ " " ++ Text.ofNat i.arg ++ " ; " ++ (← v.inspect heap) :
        Except Unprintable Text) ≠ .error .broken := by
    intro v hv
    cases hinspect : v.inspect heap with
    | ok t => nofun
    | error e =>
      rintro ⟨⟩
      exact hv hinspect
  obtain ⟨op, arg⟩ := i
  cases op with
  | loadConst | loadConstLong =>
    obtain ⟨v, hget, hv⟩ := haccepts
    simp only [Chunk.instructionText, hget]
    exact hconstant v (Value.inspect_ne_broken hheap.whole (hv.mono (Nat.zero_le _)).whole)
  | interp | interpLong =>
    obtain ⟨text, splices, tag, hget⟩ := haccepts
    simp only [Chunk.instructionText, hget]
    exact hconstant _ nofun
  | _ => nofun

/-- Writing the trace changes nothing else; it fails at most because a list contains itself. -/
private theorem Fits.traced (hallowed : ∀ f, f.isInternal = false → allowed f) (hx : x.Fits l H)
    (hm : m.Shows x) (hfetch : c.fetch x.next = .ok i) (haccepts : c.Accepts l i x.depth) :
    (∃ trace, Action.traceStep c m = (.ok (), { m with trace })) ∨
    ∃ f m', Action.traceStep c m = (.error (.failed f), m') ∧ allowed f := by
  have hendless : ∀ {α : Type} {r : Except Unprintable α} {e : Unprintable},
      r = .error e → r ≠ .error .broken → allowed (Fault.ofUnprintable e) := by
    intro α r e he hne
    cases e with
    | broken => exact absurd he hne
    | endless => exact hallowed _ rfl
  have hstack : m.stack.toList.mapM (Value.inspect m.heap) ≠ .error .broken := by
    intro h
    obtain ⟨v, hv, hbroken⟩ := mapM_error h
    rw [hm.stack.toList, List.mem_reverse] at hv
    rw [hm.heap] at hbroken
    exact Value.inspect_ne_broken hx.heap.whole (hx.stack v hv).whole hbroken
  have htext : c.instructionText m.heap x.next i ≠ .error .broken := by
    rw [hm.heap]
    exact instructionText_ne_broken hx.heap haccepts
  simp only [Action.traceStep, run_bind, run_get, andThen_ok, hm.next, Chunk.describe, hfetch,
    Except.map, Int.toNat_natCast]
  cases hvalues : m.stack.toList.mapM (Value.inspect m.heap) with
  | error e => exact .inr ⟨_, _, rfl, hendless hvalues hstack⟩
  | ok values =>
    cases hline : c.instructionText m.heap x.next i with
    | error e => exact .inr ⟨_, _, by simp only [mapError_error]; rfl, hendless hline htext⟩
    | ok text => exact .inl ⟨_, by rw [← hm.next]; rfl⟩

/-- A step writes the trace, if there is one, and does the work of its instruction. -/
private theorem Fits.run_step (hallowed : ∀ f, f.isInternal = false → allowed f) (hx : x.Fits l H)
    (hm : m.Shows x) (hfetch : c.fetch x.next = .ok i) (haccepts : c.Accepts l i x.depth) :
    (∃ trace, m.step c s = Action.execute c s (x.next + 1) i
      { m with trace, current := x.next, next := (x.next + i.op.length : Nat) }) ∨
    ∃ f m', m.step c s = (.error (.failed f), m') ∧ allowed f := by
  have hinside : ¬ (c.code.size : Int) ≤ x.next := by
    have hlen := Chunk.length_le_of_fetch hfetch
    rw [Opcode.length] at hlen
    omega
  simp only [Machine.step, Action.step, run_bind, run_get, andThen_ok, hm.next, hinside, if_false]
  cases s.tracing with
  | false =>
    refine .inl ⟨m.trace, ?_⟩
    simp only [Bool.false_eq_true, if_false, run_bind, run_get, andThen_ok, run_modify, hm.next,
      hfetch, Int.toNat_natCast]
    rfl
  | true =>
    rcases hx.traced hallowed hm hfetch haccepts with ⟨trace, htrace⟩ | ⟨f, m', htrace, hf⟩
    · refine .inl ⟨trace, ?_⟩
      simp only [if_true, run_bind, htrace, run_get, andThen_ok, run_modify, hm.next, hfetch,
        Int.toNat_natCast]
      rfl
    · refine .inr ⟨f, m', ?_, hf⟩
      simp only [if_true, run_bind, htrace, andThen_error]

/-- One step keeps a state fit. -/
theorem Fits.sends_step (hallowed : ∀ f, f.isInternal = false → allowed f)
    (hlit : ∀ i v, c.pool.get? i = some v → v.Literal allowed) (hc : c.Agrees l H)
    (hx : x.Fits l H) :
    (Action.step c s).Sends allowed x fun y =>
      y.Fits l H ∧ ∃ i, c.fetch x.next = .ok i ∧ x.Moves c i y := by
  intro m hm
  obtain ⟨i, hfetch, hpops, haccepts, hleads⟩ := hc.checks x.next hx.height.1
  rw [hx.height.2] at hpops haccepts hleads
  rcases hx.run_step (s := s) hallowed hm hfetch haccepts with ⟨trace, hstep⟩ | ⟨f, m', hstep, hf⟩
  · have hkeeps := hx.keeps_execute (s := s) hallowed hc (fun _ v => hlit _ v) hpops haccepts hleads
    rw [Machine.step] at hstep
    rw [hstep]
    refine hkeeps.mono (fun y hy => ⟨hy.1, i, hfetch, hy.2⟩) _ ?_
    exact ⟨rfl, hm.stack, hm.frames, hm.implicit, hm.heap, hm.input, hm.output⟩
  · rw [Machine.step] at hstep
    rw [hstep]
    exact hf

/-- Without a word about faults: a step from a fit state leads to a fit state. -/
theorem Fits.step (hc : c.Agrees l H) (hx : x.Fits l H) (hm : m.Shows x) {m' : Machine}
    (h : m.step c s = (.ok (), m')) :
    ∃ y, m'.Shows y ∧ y.Fits l H ∧ ∃ i, c.fetch x.next = .ok i ∧ x.Moves c i y := by
  have hsends := hx.sends_step (s := s) (fun _ _ => trivial)
    (fun _ v _ => v.literal_of_allowed trivial) hc m hm
  rw [Machine.step] at h
  rw [h] at hsends
  exact hsends

/-- A run keeps a state fit, as long as it goes on. -/
theorem Fits.run (hc : c.Agrees l H) : ∀ {n : Nat} {x : Snapshot} {m m' : Machine}, x.Fits l H →
    m.Shows x → m.runFor c s n = (none, m') → ∃ y, m'.Shows y ∧ y.Fits l H
  | 0, x, m, m', hx, hm, h => by
    cases h
    exact ⟨x, hm, hx⟩
  | n + 1, x, m, m', hx, hm, h => by
    rw [Machine.runFor] at h
    cases hstep : m.step c s with
    | mk r m₁ =>
      rw [hstep] at h
      cases r with
      | error e => cases h
      | ok u =>
        obtain ⟨y, hm₁, hy, -⟩ := hx.step hc hm hstep
        exact Fits.run hc hy hm₁ h

/-- A run from a fit state ends in an allowed way. -/
theorem Fits.run_failed (hallowed : ∀ f, f.isInternal = false → allowed f)
    (hlit : ∀ i v, c.pool.get? i = some v → v.Literal allowed) (hc : c.Agrees l H) :
    ∀ {n : Nat} {x : Snapshot} {m m' : Machine} {f : Fault}, x.Fits l H → m.Shows x →
      m.runFor c s n = (some (.failed f), m') → allowed f
  | 0, _, _, _, _, _, _, h => by cases h
  | n + 1, x, m, m', f, hx, hm, h => by
    rw [Machine.runFor] at h
    have hsends := hx.sends_step (s := s) hallowed hlit hc m hm
    cases hstep : m.step c s with
    | mk r m₁ =>
      rw [hstep] at h
      rw [Machine.step] at hstep
      rw [hstep] at hsends
      cases r with
      | error e =>
        cases h
        exact hsends
      | ok u =>
        obtain ⟨y, hm₁, hy, -⟩ := hsends
        exact Fits.run_failed hallowed hlit hc hy hm₁ h

end Snapshot
end LolToolchain
