import LolToolchain.Proofs.Evaluation.Validity
import LolToolchain.Proofs.Machine.Instruction

/-!
A call goes on like a run of its own. A machine with the values of one call only is compared with a
machine that has the values and frames of a caller below them: as long as the first does not meet a
fault of the code, each instruction does the same in both.
-/
namespace LolToolchain

open Effect

/-- A caller while its callee runs: its values below the callee's, where it goes on, its implicit
variable, its own frame and those around it, and what has been printed before the call. -/
structure Caller where
  below : List Value
  returnTo : Int
  implicit : Value
  frame : Frame
  outer : List Frame
  output : Array UInt8

namespace Caller

variable (k : Caller)

/-- The frame of the callee. -/
def callee : Frame :=
  ⟨k.returnTo, k.below.length + 1, k.implicit⟩

/-- The frames below the callee's. -/
def frames : List Frame :=
  k.frame :: k.outer

/-- The frame of a call within the callee. -/
def raise (f : Frame) : Frame :=
  { f with base := f.base + k.below.length }

/-- The settings for the callee as a run of its own: the frames of its callers are in use. -/
def settings (s : Settings) : Settings :=
  { s with maxFrames := s.maxFrames - k.frames.length }

/-- The second machine has what the first has, above the values and the frames of the caller. -/
structure Lifts (m M : Machine) : Prop where
  next : M.next = m.next
  current : M.current = m.current
  stack : ∃ vs, m.stack.Holds vs ∧ M.stack.Holds (vs ++ k.below)
  frames : ∃ fs f, m.frames = fs ++ [f] ∧ f.base = 1 ∧
    M.frames = fs.map k.raise ++ k.callee :: k.frames
  implicit : M.implicit = m.implicit
  heap : M.heap = m.heap
  input : M.input = m.input
  output : M.output = k.output ++ m.output

variable {α β : Type} {k} {m M : Machine}

namespace Lifts

theorem height (h : k.Lifts m M) : M.stack.height = m.stack.height + k.below.length := by
  obtain ⟨vs, hm, hM⟩ := h.stack
  rw [hm.1, hM.1, List.length_append]

theorem base (h : k.Lifts m M) : M.base = m.base + k.below.length := by
  obtain ⟨fs, f, hm, hf, hM⟩ := h.frames
  rw [Machine.base, Machine.base, hm, hM]
  cases fs with
  | nil =>
    change k.below.length + 1 = f.base + k.below.length
    rw [hf, Nat.add_comm]
  | cons g fs => rfl

theorem length_frames (h : k.Lifts m M) : M.frames.length = m.frames.length + k.frames.length := by
  obtain ⟨fs, f, hm, -, hM⟩ := h.frames
  simp only [hm, hM, List.length_append, List.length_map, List.length_cons, List.length_nil]
  omega

theorem holds {vs : List Value} (h : k.Lifts m M) (hm : m.stack.Holds vs) :
    M.stack.Holds (vs ++ k.below) := by
  obtain ⟨ws, hws, hM⟩ := h.stack
  rwa [hm.unique hws]

/-- A place of the stack that belongs to the callee. -/
theorem split (h : k.Lifts m M) {i : Nat} (hi : i < m.stack.height) :
    ∃ ws v vs, vs.length = i ∧ m.stack.Holds (ws ++ v :: vs) ∧
      M.stack.Holds (ws ++ v :: (vs ++ k.below)) := by
  obtain ⟨us, hm, hM⟩ := h.stack
  rw [hm.1] at hi
  obtain ⟨ws, v, vs, rfl, hlen⟩ := exists_mem_split hi
  rw [List.append_assoc] at hM
  exact ⟨ws, v, vs, hlen, hm, hM⟩

/-- The top values of the callee. -/
theorem top (h : k.Lifts m M) {n : Nat} (hn : n ≤ m.stack.height) :
    ∃ ws vs, ws.length = n ∧ m.stack.Holds (ws ++ vs) ∧ M.stack.Holds (ws ++ (vs ++ k.below)) := by
  obtain ⟨us, hm, hM⟩ := h.stack
  rw [hm.1] at hn
  refine ⟨us.take n, us.drop n, List.length_take_of_le hn, ?_, ?_⟩
  · rwa [List.take_append_drop]
  · rwa [← List.append_assoc, List.take_append_drop]

theorem get? (h : k.Lifts m M) {i : Nat} (hi : i < m.stack.height) :
    ∃ v, m.stack.get? i = some v ∧ M.stack.get? (i + k.below.length) = some v := by
  obtain ⟨ws, v, vs, rfl, hm, hM⟩ := h.split hi
  refine ⟨v, hm.get?, ?_⟩
  rw [← List.length_append]
  exact hM.get?

end Lifts

/-- Two outcomes are the same, but for the values and frames of the caller; or the first is a fault
of the code. -/
inductive Matches (k : Caller) : Except Ending α × Machine → Except Ending α × Machine → Prop
  | broken {f : Fault} {m : Machine} {r : Except Ending α × Machine} (hf : f.isInternal = true) :
    Matches k (.error (.failed f), m) r
  | same {r : Except Ending α} {m M : Machine} (h : k.Lifts m M) : Matches k (r, m) (r, M)

/-- The work of the second machine has the same outcome as the work of the first. -/
def Mirrors (k : Caller) (x y : Action α) : Prop :=
  ∀ m M : Machine, k.Lifts m M → k.Matches (x m) (y M)

variable {x y : Action α} {f g : α → Action β}

theorem mirrors_pure (a : α) : k.Mirrors (pure a) (pure a) :=
  fun _ _ h => .same h

theorem mirrors_fail (f : Fault) : k.Mirrors (Action.fail f : Action α) (Action.fail f) :=
  fun _ _ h => .same h

theorem mirrors_halted : k.Mirrors (throw .halted : Action α) (throw .halted) :=
  fun _ _ h => .same h

theorem mirrors_lift (r : Except Fault α) : k.Mirrors (Action.lift r) (Action.lift r) := by
  cases r with
  | ok a => exact mirrors_pure a
  | error f => exact mirrors_fail f

theorem mirrors_modify {g G : Machine → Machine}
    (hg : ∀ m M, k.Lifts m M → k.Lifts (g m) (G M)) : k.Mirrors (modify g) (modify G) :=
  fun m M h => .same (hg m M h)

private theorem Matches.andThen {r R : Except Ending α × Machine}
    {f g : α → Machine → Except Ending β × Machine} (h : k.Matches r R)
    (hf : ∀ a m M, k.Lifts m M → k.Matches (f a m) (g a M)) :
    k.Matches (Effect.andThen r f) (Effect.andThen R g) := by
  cases h with
  | broken hbroken => exact .broken hbroken
  | @same r m M h =>
    cases r with
    | error e => exact .same h
    | ok a => exact hf a m M h

theorem Mirrors.bind (hx : k.Mirrors x y) (hf : ∀ a, k.Mirrors (f a) (g a)) :
    k.Mirrors (x >>= f) (y >>= g) := by
  intro m M h
  rw [run_bind, run_bind]
  exact (hx m M h).andThen hf

/-- What is done with the state may depend on it. -/
theorem mirrors_get_bind {f g : Machine → Action α}
    (hf : ∀ m M, k.Lifts m M → k.Matches (f m m) (g M M)) :
    k.Mirrors (get >>= f) (get >>= g) := by
  intro m M h
  rw [run_bind, run_bind]
  exact hf m M h

theorem mirrors_push (v : Value) : k.Mirrors (Action.push v) (Action.push v) :=
  mirrors_modify fun _ _ h =>
    let ⟨vs, hm, hM⟩ := h.stack
    { h with stack := ⟨v :: vs, hm.push v, hM.push v⟩ }

theorem mirrors_heap : k.Mirrors Action.heap Action.heap := by
  intro m M h
  rw [Action.run_heap, Action.run_heap, h.heap]
  exact .same h

theorem mirrors_pop : k.Mirrors Action.pop Action.pop := by
  intro m M h
  obtain ⟨vs, hm, hM⟩ := h.stack
  cases vs with
  | nil =>
    have hempty : m.stack.height = 0 := hm.1
    have hpop : Action.pop m = (.error (.failed .malformed), m) := by
      simp [Action.pop, Stack.top?, hempty]
    rw [hpop]
    exact .broken rfl
  | cons v vs =>
    rw [Action.run_pop hm, Action.run_pop hM]
    exact .same { h with stack := ⟨vs, Action.holds_drop_one hm, Action.holds_drop_one hM⟩ }

theorem mirrors_binary (f : Heap → Value → Value → Except Fault Value) :
    k.Mirrors (Action.binary f) (Action.binary f) :=
  mirrors_pop.bind fun _ => mirrors_pop.bind fun _ => mirrors_heap.bind fun _ =>
    (mirrors_lift _).bind fun _ => mirrors_push _

theorem mirrors_unary (f : Heap → Value → Except Fault Value) :
    k.Mirrors (Action.unary f) (Action.unary f) :=
  mirrors_pop.bind fun _ => mirrors_heap.bind fun _ => (mirrors_lift _).bind fun _ => mirrors_push _

theorem mirrors_print (s : Settings) (v : Value) (newline : Bool) :
    k.Mirrors (Action.print (k.settings s) v newline) (Action.print s v newline) := by
  refine mirrors_heap.bind fun h => (mirrors_lift _).bind fun t => ?_
  have hsame : (k.settings s).outputFault = s.outputFault := rfl
  unfold Action.write
  rw [hsame]
  split
  · exact mirrors_fail _
  · refine mirrors_modify fun m M h => { h with output := ?_ }
    rw [h.output]
    exact Array.toList_inj.1 (by simp)

theorem mirrors_readLine (s : Settings) :
    k.Mirrors (Action.readLine (k.settings s)) (Action.readLine s) := by
  have hsame : (k.settings s).inputFault = s.inputFault := rfl
  unfold Action.readLine
  rw [hsame]
  split
  · exact mirrors_fail _
  · refine mirrors_get_bind fun m M h => ?_
    simp only [run_bind, run_set, andThen_ok, run_pure, h.input]
    exact .same { h with input := rfl }

variable {c : Chunk} {s : Settings} {o n : Nat} {i : Instruction}

theorem mirrors_pops :
    k.Mirrors (Action.execute c (k.settings s) o ⟨.popN, n⟩) (Action.execute c s o ⟨.popN, n⟩) := by
  refine mirrors_get_bind fun m M h => ?_
  have hheight := h.height
  have hbase := h.base
  by_cases hlow : m.stack.height < m.base + n
  · have hlow' : M.stack.height < M.base + n := by omega
    rw [if_pos hlow, if_pos hlow']
    exact .same h
  · have hlow' : ¬ M.stack.height < M.base + n := by omega
    rw [if_neg hlow, if_neg hlow']
    obtain ⟨ws, vs, rfl, hm, hM⟩ := h.top (n := n) (by omega)
    exact .same { h with stack := ⟨vs, hm.drop, hM.drop⟩ }

theorem mirrors_readSlot :
    k.Mirrors (Action.execute c (k.settings s) o ⟨.readSt, n⟩)
      (Action.execute c s o ⟨.readSt, n⟩) := by
  intro m M h
  have hheight := h.height
  have hbase := h.base
  by_cases hout : m.stack.height ≤ m.base + n
  · have hout' : M.stack.height ≤ M.base + n := by omega
    simp only [Action.execute, Action.slot, run_bind, run_get, andThen_ok, run_ite, hout, hout',
      if_true, Action.run_fail, andThen_error]
    exact .same h
  · have hout' : ¬ M.stack.height ≤ M.base + n := by omega
    obtain ⟨v, hm, hM⟩ := h.get? (Nat.lt_of_not_le hout)
    have hplace : m.base + n + k.below.length = M.base + n := by omega
    rw [hplace] at hM
    simp only [Action.execute, Action.slot, run_bind, run_get, andThen_ok, run_ite, hout, hout',
      if_false, run_pure, hm, hM]
    exact mirrors_push v m M h

theorem mirrors_writeSlot :
    k.Mirrors (Action.execute c (k.settings s) o ⟨.writeSt, n⟩)
      (Action.execute c s o ⟨.writeSt, n⟩) := by
  refine mirrors_pop.bind fun w m M h => ?_
  have hheight := h.height
  have hbase := h.base
  by_cases hout : m.stack.height ≤ m.base + n
  · have hout' : M.stack.height ≤ M.base + n := by omega
    simp only [Action.slot, run_bind, run_get, andThen_ok, run_ite, hout, hout', if_true,
      Action.run_fail, andThen_error]
    exact .same h
  · have hout' : ¬ M.stack.height ≤ M.base + n := by omega
    obtain ⟨ws, v, vs, hlen, hm, hM⟩ := h.split (Nat.lt_of_not_le hout)
    have hplace : M.base + n = (vs ++ k.below).length := by
      rw [List.length_append]
      omega
    simp only [Action.slot, run_bind, run_get, andThen_ok, run_ite, hout, hout', if_false, run_pure,
      run_modify]
    rw [hplace, ← hlen]
    refine .same { h with stack := ⟨ws ++ w :: vs, hm.set w, ?_⟩ }
    rw [List.append_assoc]
    exact hM.set w

theorem mirrors_list :
    k.Mirrors (Action.execute c (k.settings s) o ⟨.list, n⟩) (Action.execute c s o ⟨.list, n⟩) := by
  intro m M h
  by_cases hn : n ≤ m.stack.height
  · obtain ⟨ws, vs, rfl, hm, hM⟩ := h.top hn
    simp only [Action.execute, run_bind, Action.run_topMost hm, Action.run_topMost hM, andThen_ok,
      Action.run_drop, run_modify, h.heap]
    exact .same { h with stack := ⟨_ :: vs, hm.drop.push _, hM.drop.push _⟩, heap := rfl }
  · have htop : Action.topMost n m = (.error (.failed .malformed), m) := by
      simp [Action.topMost, Stack.topMost?, hn]
    simp only [Action.execute, run_bind, htop, andThen_error]
    exact .broken rfl

private theorem mirrors_cast :
    k.Mirrors (Action.execute c (k.settings s) o ⟨.cast, n⟩) (Action.execute c s o ⟨.cast, n⟩) := by
  refine mirrors_pop.bind fun v => ?_
  split
  · exact mirrors_fail _
  · refine mirrors_heap.bind fun heap => (mirrors_lift _).bind fun r => mirrors_modify fun m M h => ?_
    obtain ⟨vs, hm, hM⟩ := h.stack
    exact { h with heap := rfl, stack := ⟨r.1 :: vs, hm.push _, hM.push _⟩ }

private theorem mirrors_append :
    k.Mirrors (Action.execute c (k.settings s) o ⟨.append, n⟩)
      (Action.execute c s o ⟨.append, n⟩) := by
  refine mirrors_pop.bind fun v => mirrors_pop.bind fun target => mirrors_get_bind fun m M h => ?_
  rw [h.heap]
  cases target.append m.heap v with
  | ok heap => exact .same { h with heap := rfl }
  | error f => exact .same h

private theorem mirrors_setIndex :
    k.Mirrors (Action.execute c (k.settings s) o ⟨.setIndex, n⟩)
      (Action.execute c s o ⟨.setIndex, n⟩) := by
  refine mirrors_pop.bind fun v => mirrors_pop.bind fun index => mirrors_pop.bind fun target =>
    mirrors_get_bind fun m M h => ?_
  rw [h.heap]
  cases target.store m.heap index v with
  | ok heap => exact .same { h with heap := rfl }
  | error f => exact .same h

private theorem mirrors_jumpIfFalse :
    k.Mirrors (Action.execute c (k.settings s) o ⟨.jumpIfFalse, n⟩)
      (Action.execute c s o ⟨.jumpIfFalse, n⟩) := by
  refine mirrors_pop.bind fun v => mirrors_heap.bind fun heap => (mirrors_lift _).bind fun b => ?_
  cases b with
  | true => exact mirrors_pure _
  | false => exact mirrors_modify fun m M h => { h with next := rfl }

/-- A call within the callee finds the same function, and has as many frames left. -/
private theorem mirrors_call :
    k.Mirrors (Action.call c (k.settings s) n) (Action.call c s n) := by
  intro m M h
  have hheight := h.height
  have hbase := h.base
  have hdepth := h.length_frames
  have hroom : s.maxFrames ≤ M.frames.length ↔ (k.settings s).maxFrames ≤ m.frames.length := by
    change _ ↔ s.maxFrames - k.frames.length ≤ m.frames.length
    omega
  by_cases hlow : m.stack.height < m.base + n + 1
  · have hlow' : M.stack.height < M.base + n + 1 := by omega
    simp only [Action.call, run_bind, run_get, andThen_ok, run_ite, hlow, hlow', if_true,
      Action.run_fail, andThen_error]
    exact .same h
  · have hlow' : ¬ M.stack.height < M.base + n + 1 := by omega
    obtain ⟨v, hm, hM⟩ := h.get? (i := m.stack.height - n - 1) (by omega)
    have hplace : m.stack.height - n - 1 + k.below.length = M.stack.height - n - 1 := by omega
    rw [hplace] at hM
    simp only [Action.call, run_bind, run_get, andThen_ok, run_ite, hlow, hlow', if_false, hm, hM]
    cases v with
    | funkshon offset =>
      simp only [run_bind, run_ite, Action.run_fail, hroom]
      -- the function and its parameters are those of the code; only the frames are of the machine
      split
      · exact .same h
      split
      · exact .same h
      split
      · exact .same h
      split
      · exact .same h
      refine .same { h with next := rfl, frames := ?_, implicit := rfl }
      obtain ⟨fs, f, hfs, hf, hFs⟩ := h.frames
      refine ⟨⟨m.next, m.stack.height - n - 1 + 1, m.implicit⟩ :: fs, f, ?_, hf, ?_⟩
      · rw [hfs]
        rfl
      · have hfirst : M.stack.height - n - 1 + 1 = m.stack.height - n - 1 + 1 + k.below.length := by
          omega
        rw [hFs, List.map_cons, List.cons_append, raise, h.next, h.implicit, hfirst]
    | _ => exact .same h

theorem mirrors_execute (hop : i.op ≠ .interp ∧ i.op ≠ .interpLong) (hret : i.op ≠ .ret) :
    k.Mirrors (Action.execute c (k.settings s) o i) (Action.execute c s o i) := by
  obtain ⟨op, n⟩ := i
  cases op with
  | nop | fnDef => exact mirrors_pure _
  | pop => exact mirrors_pop.bind fun _ => mirrors_pure _
  | popN | popNLong => exact mirrors_pops (c := c) (s := s) (o := o)
  | loadConst | loadConstLong =>
    simp only [Action.execute]
    split
    · exact mirrors_push _
    · exact mirrors_fail _
  | readSt | readStLong => exact mirrors_readSlot (c := c) (s := s) (o := o)
  | writeSt | writeStLong => exact mirrors_writeSlot (c := c) (s := s) (o := o)
  | readIt =>
    refine mirrors_get_bind fun m M h => ?_
    rw [h.implicit]
    exact mirrors_push _ m M h
  | writeIt =>
    exact mirrors_pop.bind fun v => mirrors_modify fun m M h => { h with implicit := rfl }
  | add | sub | mul | div | mod | min | max | equal | notEqual | gt | lt | ge | le | and | or | xor
  | concat | getIndex => exact mirrors_binary _
  | not | front | back | len => exact mirrors_unary _
  | interp => exact absurd rfl hop.1
  | interpLong => exact absurd rfl hop.2
  | cast => exact mirrors_cast
  | list | listLong => exact mirrors_list (c := c) (s := s) (o := o)
  | append => exact mirrors_append
  | setIndex => exact mirrors_setIndex
  | jump => exact mirrors_modify fun m M h => { h with next := rfl }
  | jumpIfFalse => exact mirrors_jumpIfFalse
  | call => exact mirrors_call
  | ret => exact absurd rfl hret
  | print => exact mirrors_pop.bind fun v => mirrors_print s v _
  | read => exact (mirrors_readLine s).bind fun t => mirrors_push _
  | halt => exact mirrors_halted

/-- A template is filled with the same texts. When there are values for all of its places, it comes out
the same even if it is malformed. -/
theorem lifts_interpolate {t : Template} (h : k.Lifts m M)
    (ht : c.pool.get? n = some (.interp (some t))) (hdepth : t.offsets.length ≤ m.stack.height) :
    ∃ r m' M', Action.interpolate c n m = (r, m') ∧ Action.interpolate c n M = (r, M') ∧
      k.Lifts m' M' := by
  obtain ⟨ws, vs, hlen, hm, hM⟩ := h.top hdepth
  have htop := Action.run_topMost hm
  have hTop := Action.run_topMost hM
  have hdrop := hm.drop
  have hDrop := hM.drop
  rw [hlen] at htop hTop hdrop hDrop
  simp only [Action.interpolate, ht, run_bind, htop, hTop, andThen_ok, Action.run_heap, h.heap]
  cases ws.reverse.toArray.toList.mapM (Value.text m.heap) with
  | error f => exact ⟨_, _, _, rfl, rfl, h⟩
  | ok parts =>
    simp only [Action.run_lift_ok, andThen_ok]
    cases t.fill parts with
    | some text =>
      exact ⟨_, _, _, rfl, rfl, { h with stack := ⟨_ :: vs, hdrop.push _, hDrop.push _⟩ }⟩
    | none => exact ⟨_, _, _, rfl, rfl, { h with stack := ⟨vs, hdrop, hDrop⟩ }⟩

/-- A return from a call within the callee. -/
theorem lifts_ret {f g : Frame} {fs : List Frame} {v w : Value} {ws vs : List Value}
    (h : k.Lifts m M) (hframes : m.frames = f :: g :: fs)
    (hstack : m.stack.Holds (v :: (ws ++ w :: vs))) (hbase : f.base = vs.length + 1) :
    ∃ m' M', Action.ret (k.settings s) m = (.ok (), m') ∧ Action.ret s M = (.ok (), M') ∧
      k.Lifts m' M' := by
  have hStack := h.holds hstack
  obtain ⟨gs, b, hgs, hb, hGs⟩ := h.frames
  cases gs with
  | nil =>
    rw [hframes] at hgs
    cases hgs
  | cons f' gs =>
    rw [hframes] at hgs
    obtain ⟨rfl, hcallers⟩ := List.cons.inj hgs
    obtain ⟨G, Gs, hG⟩ : ∃ G Gs, gs.map k.raise ++ k.callee :: k.frames = G :: Gs := by
      cases gs <;> exact ⟨_, _, rfl⟩
    have hFrames : M.frames = k.raise f :: G :: Gs := by rw [hGs, ← hG]; rfl
    have hcut : (k.raise f).base - 1 = (vs ++ k.below).length := by
      rw [List.length_append]
      change f.base + k.below.length - 1 = vs.length + k.below.length
      omega
    have hrest : (m.stack.drop 1).Holds ((ws ++ [w]) ++ vs) := by
      simpa using Action.holds_drop_one hstack
    have hRest : (M.stack.drop 1).Holds ((ws ++ [w]) ++ (vs ++ k.below)) := by
      simpa using Action.holds_drop_one hStack
    refine ⟨{ m with
      frames := g :: fs
      stack := ((m.stack.drop 1).cutTo vs.length).push v
      next := f.returnTo
      implicit := f.saved }, { M with
      frames := G :: Gs
      stack := ((M.stack.drop 1).cutTo (vs ++ k.below).length).push v
      next := f.returnTo
      implicit := f.saved }, ?_, ?_, { h with
      next := rfl
      stack := ⟨v :: vs, hrest.cutTo.push v, hRest.cutTo.push v⟩
      frames := ⟨gs, b, hcallers, hb, hG.symm⟩
      implicit := rfl }⟩
    · simp [Action.ret, Action.run_pop hstack, hframes, hbase]
    · simp only [Action.ret, run_bind, Action.run_pop hStack, andThen_ok, run_get, hFrames, hcut]
      rfl

/-- The callee has returned with a value: its caller goes on with all that it had. -/
structure Returned (k : Caller) (v : Value) (M : Machine) : Prop where
  next : M.next = k.returnTo
  stack : M.stack.Holds (v :: k.below)
  frames : M.frames = k.frames
  implicit : M.implicit = k.implicit

/-- A return from the callee itself. -/
theorem returned_ret {f : Frame} {v w : Value} {ws : List Value} (h : k.Lifts m M)
    (hframes : m.frames = [f]) (hstack : m.stack.Holds (v :: (ws ++ [w]))) :
    ∃ M', Action.ret s M = (.ok (), M') ∧ k.Returned v M' ∧ M'.heap = m.heap ∧
      M'.input = m.input ∧ M'.output = k.output ++ m.output := by
  have hStack := h.holds hstack
  have hFrames : M.frames = k.callee :: k.frame :: k.outer := by
    obtain ⟨gs, b, hgs, -, hGs⟩ := h.frames
    rw [hframes] at hgs
    obtain rfl : gs = [] := by
      cases gs with
      | nil => rfl
      | cons g gs => simp at hgs
    exact hGs
  have hcut : k.callee.base - 1 = k.below.length := rfl
  have hRest : (M.stack.drop 1).Holds ((ws ++ [w]) ++ k.below) := Action.holds_drop_one hStack
  refine ⟨{ M with
    frames := k.frames
    stack := ((M.stack.drop 1).cutTo k.below.length).push v
    next := k.returnTo
    implicit := k.implicit }, ?_, ⟨rfl, hRest.cutTo.push v, rfl, rfl⟩, h.heap, h.input, h.output⟩
  simp only [Action.ret, run_bind, Action.run_pop hStack, andThen_ok, run_get, hFrames, hcut]
  rfl

end Caller
end LolToolchain
