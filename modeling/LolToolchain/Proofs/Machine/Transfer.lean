import LolToolchain.Proofs.Machine.Instruction

/-!
Where a step leads. Only jumps, calls and returns do anything to the place of the next instruction
or to the frames; the work of every other instruction is `Steady`. The place of the instruction at
hand is set before its work is done, and by nothing else.
-/
namespace LolToolchain

open Effect

namespace Action

/-- Neither the places of instructions nor the frames change. -/
def Steady {α : Type} (act : Action α) : Prop :=
  ∀ m : Machine, (act m).2.next = m.next ∧ (act m).2.frames = m.frames ∧
    (act m).2.current = m.current

section

variable {α β : Type}

theorem steady_pure (a : α) : Steady (pure a) :=
  fun _ => ⟨rfl, rfl, rfl⟩

theorem steady_fail (f : Fault) : Steady (fail f : Action α) :=
  fun _ => ⟨rfl, rfl, rfl⟩

theorem steady_halted : Steady (throw .halted : Action α) :=
  fun _ => ⟨rfl, rfl, rfl⟩

theorem steady_get : Steady get :=
  fun _ => ⟨rfl, rfl, rfl⟩

theorem steady_lift (r : Except Fault α) : (lift r).Steady := by
  cases r with
  | ok a => exact steady_pure a
  | error f => exact steady_fail f

theorem steady_modify {g : Machine → Machine}
    (hg : ∀ m, (g m).next = m.next ∧ (g m).frames = m.frames ∧ (g m).current = m.current) :
    Steady (modify g) :=
  hg

theorem Steady.bind {x : Action α} {f : α → Action β} (hx : x.Steady) (hf : ∀ a, (f a).Steady) :
    (x >>= f).Steady := by
  intro m
  obtain ⟨hnext, hframes, hcurrent⟩ := hx m
  rw [run_bind]
  cases hrun : x m with
  | mk r m₁ =>
    rw [hrun] at hnext hframes hcurrent
    cases r with
    | error e => exact ⟨hnext, hframes, hcurrent⟩
    | ok a =>
      obtain ⟨hnext', hframes', hcurrent'⟩ := hf a m₁
      exact ⟨hnext'.trans hnext, hframes'.trans hframes, hcurrent'.trans hcurrent⟩

/-- What is done with the state may depend on it. -/
theorem steady_get_bind {f : Machine → Action α}
    (hf : ∀ m, (f m m).2.next = m.next ∧ (f m m).2.frames = m.frames ∧
      (f m m).2.current = m.current) : Steady (get >>= f) := by
  intro m
  rw [run_bind, run_get, andThen_ok]
  exact hf m

end

theorem steady_push (v : Value) : (push v).Steady :=
  steady_modify fun _ => ⟨rfl, rfl, rfl⟩

theorem steady_drop (n : Nat) : (drop n).Steady :=
  steady_modify fun _ => ⟨rfl, rfl, rfl⟩

theorem steady_heap : heap.Steady :=
  steady_get.bind fun m => steady_pure m.heap

theorem steady_pop : pop.Steady := by
  refine steady_get.bind fun m => ?_
  split
  · exact steady_fail _
  · exact Steady.bind (steady_modify fun _ => ⟨rfl, rfl, rfl⟩) fun _ => steady_pure _

theorem steady_topMost (n : Nat) : (topMost n).Steady := by
  refine steady_get.bind fun m => ?_
  split
  · exact steady_fail _
  · exact steady_pure _

theorem steady_slot (n : Nat) : (slot n).Steady := by
  refine steady_get.bind fun m => ?_
  dsimp only
  split
  · exact (steady_fail _).bind fun _ => steady_pure _
  · exact steady_pure _

theorem steady_print (s : Settings) (v : Value) (newline : Bool) : (print s v newline).Steady := by
  refine steady_heap.bind fun h => (steady_lift _).bind fun t => ?_
  unfold write
  split
  · exact steady_fail _
  · exact steady_modify fun _ => ⟨rfl, rfl, rfl⟩

private theorem steady_readLine (s : Settings) : (readLine s).Steady := by
  unfold readLine
  split
  · exact steady_fail _
  · exact steady_get_bind fun m => ⟨rfl, rfl, rfl⟩

private theorem steady_binary (f : Heap → Value → Value → Except Fault Value) : (binary f).Steady :=
  steady_pop.bind fun _ => steady_pop.bind fun _ => steady_heap.bind fun _ =>
    (steady_lift _).bind fun _ => steady_push _

private theorem steady_unary (f : Heap → Value → Except Fault Value) : (unary f).Steady :=
  steady_pop.bind fun _ => steady_heap.bind fun _ => (steady_lift _).bind fun _ => steady_push _

private theorem steady_interpolate (c : Chunk) (n : Nat) : (interpolate c n).Steady := by
  unfold interpolate
  split
  · refine (steady_topMost _).bind fun vs => steady_heap.bind fun h => (steady_lift _).bind
      fun parts => (steady_drop _).bind fun _ => ?_
    split
    · exact steady_push _
    · exact steady_fail _
  · exact steady_fail _
  · exact steady_fail _

theorem steady_execute (c : Chunk) (s : Settings) (o : Nat) {i : Instruction}
    (hjump : i.op.isJump = false) (hcall : i.op ≠ .call) (hret : i.op ≠ .ret) :
    (execute c s o i).Steady := by
  obtain ⟨op, n⟩ := i
  cases op with
  | nop | fnDef => exact steady_pure _
  | pop => exact steady_pop.bind fun _ => steady_pure _
  | popN | popNLong =>
    refine steady_get.bind fun m => ?_
    dsimp only
    split
    · exact (steady_fail _).bind fun _ => steady_drop _
    · exact steady_drop _
  | loadConst | loadConstLong =>
    simp only [execute]
    split
    · exact steady_push _
    · exact steady_fail _
  | readSt | readStLong =>
    refine (steady_slot n).bind fun place => steady_get.bind fun m => ?_
    split
    · exact steady_push _
    · exact steady_fail _
  | writeSt | writeStLong =>
    exact steady_pop.bind fun v => (steady_slot n).bind fun place =>
      steady_modify fun _ => ⟨rfl, rfl, rfl⟩
  | readIt => exact steady_get.bind fun m => steady_push _
  | writeIt => exact steady_pop.bind fun v => steady_modify fun _ => ⟨rfl, rfl, rfl⟩
  | add | sub | mul | div | mod | min | max | equal | notEqual | gt | lt | ge | le | and | or | xor
  | concat | getIndex => exact steady_binary _
  | not | front | back | len => exact steady_unary _
  | interp | interpLong => exact steady_interpolate c n
  | cast =>
    refine steady_pop.bind fun v => ?_
    split
    · exact steady_fail _
    · exact steady_heap.bind fun h => (steady_lift _).bind fun r =>
        steady_modify fun _ => ⟨rfl, rfl, rfl⟩
  | list | listLong =>
    exact (steady_topMost n).bind fun vs => (steady_drop n).bind fun _ =>
      steady_modify fun _ => ⟨rfl, rfl, rfl⟩
  | append =>
    refine steady_pop.bind fun v => steady_pop.bind fun target => steady_get_bind fun m => ?_
    cases target.append m.heap v <;> exact ⟨rfl, rfl, rfl⟩
  | setIndex =>
    refine steady_pop.bind fun v => steady_pop.bind fun index => steady_pop.bind fun target =>
      steady_get_bind fun m => ?_
    cases target.store m.heap index v <;> exact ⟨rfl, rfl, rfl⟩
  | jump | jumpIfFalse => cases hjump
  | call => exact absurd rfl hcall
  | ret => exact absurd rfl hret
  | print => exact steady_pop.bind fun v => steady_print s v _
  | read => exact (steady_readLine s).bind fun t => steady_push _
  | halt => exact steady_halted

/-- A call pushes one frame, if there is room for it and if the arguments and what is called are
values of the current call, or it changes nothing. -/
theorem call_cases (c : Chunk) (s : Settings) (n : Nat) (m : Machine) :
    (∃ e, call c s n m = (.error e, m)) ∨
    ∃ base target, m.base < base ∧ base + n = m.stack.height ∧
      (m.frames.length : Int) < s.maxFrames ∧ 0 ≤ target ∧ call c s n m = (.ok (), { m with
        frames := ⟨m.next, base, m.implicit⟩ :: m.frames, implicit := .noob, next := target }) := by
  cases hrun : call c s n m with
  | mk r m' =>
    simp only [call, run_bind, run_get, andThen_ok, run_ite] at hrun
    split at hrun
    · cases hrun
      exact .inl ⟨_, rfl⟩
    rename_i henough
    cases hplace : m.stack.get? (m.stack.height - n - 1) with
    | none =>
      rw [hplace] at hrun
      cases hrun
      exact .inl ⟨_, rfl⟩
    | some v =>
      rw [hplace] at hrun
      cases v with
      | funkshon offset =>
        simp only [run_bind, run_ite, run_fail] at hrun
        split at hrun
        · cases hrun
          exact .inl ⟨_, rfl⟩
        split at hrun
        · cases hrun
          exact .inl ⟨_, rfl⟩
        rename_i hinside
        split at hrun
        · cases hrun
          exact .inl ⟨_, rfl⟩
        split at hrun
        · cases hrun
          exact .inl ⟨_, rfl⟩
        rename_i hroom
        cases hrun
        refine .inr ⟨_, _, ?_, ?_, Int.not_le.1 hroom, ?_, rfl⟩
        · omega
        · omega
        · change 0 ≤ offset.toInt + 2
          omega
      | _ =>
        cases hrun
        exact .inl ⟨_, rfl⟩

/-- The trace is all that writing it changes, also when a value on the stack cannot be written. -/
theorem traceStep_cases (c : Chunk) (m : Machine) : ∃ trace,
    traceStep c m = (.ok (), { m with trace }) ∨
      ∃ f, traceStep c m = (.error (.failed f), { m with trace }) := by
  simp only [traceStep, run_bind, run_get, andThen_ok]
  cases m.stack.toList.mapM (Value.inspect m.heap) with
  | error e => exact ⟨_, .inr ⟨_, rfl⟩⟩
  | ok values =>
    cases hline : c.describe m.heap m.next with
    | error e => exact ⟨_, .inl rfl⟩
    | ok line =>
      simp only [mapError_ok, run_lift_ok, andThen_ok, run_bind]
      cases line.1 with
      | error e => exact ⟨_, .inr ⟨_, rfl⟩⟩
      | ok t => exact ⟨_, .inl rfl⟩

/-- The place of the instruction at hand does not change. -/
def Stays {α : Type} (act : Action α) : Prop :=
  ∀ m : Machine, (act m).2.current = m.current

section

variable {α β : Type} {x : Action α} {f : α → Action β}

theorem Steady.stays (h : x.Steady) : x.Stays :=
  fun m => (h m).2.2

theorem Stays.bind (hx : x.Stays) (hf : ∀ a, (f a).Stays) : (x >>= f).Stays := by
  intro m
  have hcurrent := hx m
  rw [run_bind]
  cases hrun : x m with
  | mk r m₁ =>
    rw [hrun] at hcurrent
    cases r with
    | error e => exact hcurrent
    | ok a => exact (hf a m₁).trans hcurrent

end

private theorem stays_modify {g : Machine → Machine} (hg : ∀ m, (g m).current = m.current) :
    Stays (modify g) :=
  hg

private theorem stays_call (c : Chunk) (s : Settings) (n : Nat) : (call c s n).Stays := by
  intro m
  rcases call_cases c s n m with ⟨e, hrun⟩ | ⟨base, target, -, -, -, -, hrun⟩ <;> rw [hrun]

private theorem stays_ret (s : Settings) : (ret s).Stays := by
  refine steady_pop.stays.bind fun v m => ?_
  rw [run_bind, run_get, andThen_ok]
  have hend := ((steady_print s v true).stays.bind fun _ => steady_halted.stays (α := Unit)) m
  cases m.frames with
  | nil => exact hend
  | cons f fs =>
    cases fs with
    | nil => exact hend
    | cons g fs => rfl

theorem stays_execute (c : Chunk) (s : Settings) (o : Nat) (i : Instruction) :
    (execute c s o i).Stays := by
  by_cases hcall : i.op = .call
  · obtain ⟨op, n⟩ := i
    obtain rfl : op = .call := hcall
    exact stays_call c s n
  by_cases hret : i.op = .ret
  · obtain ⟨op, n⟩ := i
    obtain rfl : op = .ret := hret
    exact stays_ret s
  cases hjump : i.op.isJump with
  | false => exact (steady_execute c s o hjump hcall hret).stays
  | true =>
    obtain ⟨op, n⟩ := i
    cases op with
    | jump => exact stays_modify fun _ => rfl
    | jumpIfFalse =>
      refine steady_pop.stays.bind fun v => steady_heap.stays.bind fun h =>
        (steady_lift _).stays.bind fun b => ?_
      cases b with
      | false => exact stays_modify fun _ => rfl
      | true => exact (steady_pure _).stays
    | _ => cases hjump

end Action

/-- Operations after which the next instruction can follow. -/
def Opcode.fallsThrough : Opcode → Bool
  | .jump | .ret | .halt => false
  | _ => true

/-- What a step does to the place of the next instruction and to the frames: it goes on, it enters a
function, or it leaves one. -/
inductive Machine.Transfers (c : Chunk) (s : Settings) (m m' : Machine) : Prop where
  | on (i : Instruction) (hfetch : c.fetch m.next = .ok i) (hframes : m'.frames = m.frames)
      (hnext : i.op.fallsThrough = true ∧ m'.next = m.next + i.op.length ∨
        i.op.isJump = true ∧ m'.next = c.readJump (m.next.toNat + 1))
  | enter (f : Frame) (hroom : (m.frames.length : Int) < s.maxFrames)
      (hframes : m'.frames = f :: m.frames) (hreturn : f.returnTo = m.next + Opcode.call.length)
      (hnext : 0 ≤ m'.next)
  | leave (f g : Frame) (fs : List Frame) (hframes : m.frames = f :: g :: fs)
      (hcallers : m'.frames = g :: fs) (hnext : m'.next = f.returnTo)

namespace Action

variable {c : Chunk} {s : Settings} {m m' : Machine} {o n : Nat}

/-- A call that succeeds pushes one frame, if there is room for it. -/
private theorem call_ok (h : call c s n m = (.ok (), m')) :
    ∃ f : Frame, (m.frames.length : Int) < s.maxFrames ∧ m'.frames = f :: m.frames ∧
      f.returnTo = m.next ∧ 0 ≤ m'.next := by
  rcases call_cases c s n m with ⟨e, hrun⟩ | ⟨base, target, -, -, hroom, htarget, hrun⟩
  · rw [hrun] at h
    cases h
  · rw [hrun] at h
    cases h
    exact ⟨_, hroom, rfl, rfl, htarget⟩

/-- A return that does not end the run pops one frame. -/
private theorem ret_ok (h : ret s m = (.ok (), m')) :
    ∃ f g fs, m.frames = f :: g :: fs ∧ m'.frames = g :: fs ∧ m'.next = f.returnTo := by
  obtain ⟨-, hframes, -⟩ := steady_pop m
  rw [ret, run_bind] at h
  cases hpop : pop m with
  | mk r m₁ =>
    rw [hpop] at h hframes
    cases r with
    | error e => cases h
    | ok v =>
      rw [andThen_ok, run_bind, run_get, andThen_ok] at h
      have hend : ∀ {x : Action Unit}, (x >>= fun _ => throw .halted) m₁ ≠ (.ok (), m') := by
        intro x hx
        rw [run_bind] at hx
        cases hrun : x m₁ with
        | mk r m₂ =>
          rw [hrun] at hx
          cases r <;> cases hx
      cases hfs : m₁.frames with
      | nil =>
        rw [hfs] at h
        exact absurd h hend
      | cons f behind =>
        rw [hfs] at h
        cases behind with
        | nil => exact absurd h hend
        | cons g fs =>
          cases h
          exact ⟨f, g, fs, hframes ▸ hfs, rfl, rfl⟩

/-- A jump leads to its target, or behind itself if it has a condition. -/
private theorem jump_ok {i : Instruction} (hop : i.op.isJump = true)
    (h : execute c s o i m = (.ok (), m')) :
    m'.frames = m.frames ∧
      (i.op.fallsThrough = true ∧ m'.next = m.next ∨ m'.next = c.readJump o) := by
  obtain ⟨op, n⟩ := i
  cases op with
  | jump =>
    cases h
    exact ⟨rfl, .inr rfl⟩
  | jumpIfFalse =>
    obtain ⟨hnext, hframes, -⟩ := steady_pop m
    simp only [execute, run_bind] at h
    cases hpop : pop m with
    | mk r m₁ =>
      rw [hpop] at h hnext hframes
      cases r with
      | error e => cases h
      | ok v =>
        simp only [andThen_ok, run_bind, run_heap] at h
        cases htest : v.truthy m₁.heap with
        | error e =>
          rw [htest] at h
          cases h
        | ok b =>
          rw [htest] at h
          cases b with
          | true =>
            cases h
            exact ⟨hframes, .inl ⟨rfl, hnext⟩⟩
          | false =>
            cases h
            exact ⟨hframes, .inr rfl⟩
  | _ => cases hop

/-- A step writes the trace, fetches an instruction, and does its work from behind it, unless it ends
the run before with a fault. -/
theorem step_cases (c : Chunk) (s : Settings) (m : Machine) : ∃ trace,
    (∃ f, step c s m = (.error (.failed f), { m with trace })) ∨
    m.next < c.code.size ∧
      ((∃ f, step c s m = (.error (.failed f), { m with trace, current := m.next })) ∨
        ∃ i, c.fetch m.next = .ok i ∧ step c s m = execute c s (m.next.toNat + 1) i
          { m with trace, current := m.next, next := m.next + i.op.length }) := by
  simp only [step, run_bind, run_get, andThen_ok, run_ite, run_fail, andThen_error, run_modify]
  split
  · exact ⟨m.trace, .inl ⟨_, rfl⟩⟩
  rename_i hinside
  split
  · obtain ⟨trace, htrace | ⟨f, htrace⟩⟩ := traceStep_cases c m <;> rw [htrace]
    · refine ⟨trace, .inr ⟨Int.not_le.1 hinside, ?_⟩⟩
      simp only [andThen_ok, run_bind, run_get, run_modify]
      cases c.fetch m.next with
      | error e => cases e <;> exact .inl ⟨_, rfl⟩
      | ok i => exact .inr ⟨i, rfl, rfl⟩
    · exact ⟨trace, .inl ⟨f, rfl⟩⟩
  · refine ⟨m.trace, .inr ⟨Int.not_le.1 hinside, ?_⟩⟩
    cases c.fetch m.next with
    | error e => cases e <;> exact .inl ⟨_, rfl⟩
    | ok i => exact .inr ⟨i, rfl, rfl⟩

/-- A step that succeeds has fetched an instruction, and does its work from behind it. -/
private theorem step_ok (h : step c s m = (.ok (), m')) :
    m.next < c.code.size ∧ ∃ i m₁, c.fetch m.next = .ok i ∧ m₁.next = m.next + i.op.length ∧
      m₁.frames = m.frames ∧ execute c s (m.next.toNat + 1) i m₁ = (.ok (), m') := by
  obtain ⟨trace, ⟨e, hstep⟩ | ⟨hinside, ⟨e, hstep⟩ | ⟨i, hfetch, hstep⟩⟩⟩ := step_cases c s m
  · rw [hstep] at h
    cases h
  · rw [hstep] at h
    cases h
  · exact ⟨hinside, i, { m with trace, current := m.next, next := m.next + i.op.length }, hfetch, rfl,
      rfl, hstep.symm.trans h⟩

end Action

/-- A step that does not end the run goes on, enters a function or leaves one. -/
theorem Machine.transfers_of_step {c : Chunk} {s : Settings} {m m' : Machine}
    (h : m.step c s = (.ok (), m')) : m.next < c.code.size ∧ m.Transfers c s m' := by
  obtain ⟨hinside, i, m₁, hfetch, hnext, hframes, hrun⟩ := Action.step_ok h
  refine ⟨hinside, ?_⟩
  by_cases hcall : i.op = .call
  · obtain ⟨op, n⟩ := i
    obtain rfl : op = .call := hcall
    obtain ⟨f, hroom, hpushed, hreturn, hentry⟩ := Action.call_ok hrun
    rw [hframes] at hroom hpushed
    exact .enter f hroom hpushed (hreturn.trans hnext) hentry
  by_cases hret : i.op = .ret
  · obtain ⟨op, n⟩ := i
    obtain rfl : op = .ret := hret
    obtain ⟨f, g, fs, hpopped, hcallers, hback⟩ := Action.ret_ok hrun
    exact .leave f g fs (hframes ▸ hpopped) hcallers hback
  by_cases hjump : i.op.isJump = true
  · obtain ⟨hsame, hon⟩ := Action.jump_ok hjump hrun
    exact .on i hfetch (hsame.trans hframes)
      (hon.imp (fun h => ⟨h.1, h.2.trans hnext⟩) fun h => ⟨hjump, h⟩)
  · have hsteady := Action.steady_execute c s (m.next.toNat + 1) (eq_false_of_ne_true hjump)
      hcall hret m₁
    rw [hrun] at hsteady
    refine .on i hfetch (hsteady.2.1.trans hframes) (.inl ⟨?_, hsteady.1.trans hnext⟩)
    obtain ⟨op, n⟩ := i
    cases op with
    | jump => exact absurd rfl hjump
    | ret => exact absurd rfl hret
    | halt => cases hrun
    | _ => rfl

/-- The instruction at hand after a step, whatever becomes of it: the one that was to come next, or
still the one before. -/
theorem Machine.current_of_step (c : Chunk) (s : Settings) (m : Machine) :
    (m.step c s).2.current = m.current ∨
      m.next < c.code.size ∧ (m.step c s).2.current = m.next := by
  obtain ⟨trace, ⟨e, hstep⟩ | ⟨hinside, ⟨e, hstep⟩ | ⟨i, -, hstep⟩⟩⟩ := Action.step_cases c s m
  · rw [step, hstep]
    exact .inl rfl
  · rw [step, hstep]
    exact .inr ⟨hinside, rfl⟩
  · rw [step, hstep]
    exact .inr ⟨hinside, Action.stays_execute c s _ i _⟩

namespace Machine

variable {c : Chunk} {s : Settings} {n : Nat} {m m' : Machine} {e : Ending}

/-- A run that has not ended goes on with a step. -/
theorem runFor_succ (h : m.runFor c s n = (none, m')) :
    (m.runFor c s (n + 1)).2 = (m'.step c s).2 := by
  induction n generalizing m with
  | zero =>
    cases h
    rw [runFor]
    cases m'.step c s with
    | mk r m₁ => cases r <;> rfl
  | succ n ih =>
    rw [runFor] at h ⊢
    cases hrun : m.step c s with
    | mk r m₁ =>
      rw [hrun] at h
      cases r with
      | error e => cases h
      | ok u => exact ih h

/-- A run that has ended stays as it is. -/
theorem runFor_succ_of_ended (h : m.runFor c s n = (some e, m')) :
    m.runFor c s (n + 1) = (some e, m') := by
  induction n generalizing m with
  | zero => cases h
  | succ n ih =>
    rw [runFor] at h ⊢
    cases hrun : m.step c s with
    | mk r m₁ =>
      rw [hrun] at h
      cases r with
      | error e => exact h
      | ok u => exact ih h

end Machine
end LolToolchain
