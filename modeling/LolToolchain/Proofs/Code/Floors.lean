import LolToolchain.Bytecode.Stored
import LolToolchain.Proofs.Code.Discipline
import LolToolchain.Proofs.Machine.Transfer

/-!
What a call leaves alone. The base of a frame is a floor: the values below it belong to the callers.
`POP_N` and `CALL` look whether the current call has the values they take; other instructions do not,
and whatever lies below the floor is then theirs. As long as each of these finds its values above the
floor, no call reaches below it, whatever the code is and wherever it comes from.
-/
namespace LolToolchain

open Effect

/-- A value is put in place of one that is not among the lowest. -/
theorem Stack.Holds.exists_set {s : Stack} {us vs : List Value} {i : Nat} (h : s.Holds (us ++ vs))
    (hlow : vs.length ≤ i) (hi : i < s.height) (w : Value) :
    ∃ us', (s.set i w).Holds (us' ++ vs) ∧ us'.length = us.length := by
  have hlen := h.1
  rw [List.length_append] at hlen
  have habove : i - vs.length < us.length := by omega
  obtain ⟨ts, v, ws, rfl, hws⟩ := exists_mem_split habove
  refine ⟨ts ++ w :: ws, ?_, by simp⟩
  have hplace : i = (ws ++ vs).length := by
    rw [List.length_append]
    omega
  rw [hplace, List.append_assoc, List.cons_append]
  rw [List.append_assoc, List.cons_append] at h
  exact h.set w

theorem Machine.base_congr {m m' : Machine} (h : m'.frames = m.frames) : m'.base = m.base := by
  rw [Machine.base, Machine.base, h]

theorem Machine.base_of_frames {m : Machine} {f : Frame} {fs : List Frame} (h : m.frames = f :: fs) :
    m.base = f.base := by
  rw [Machine.base, h]

namespace Action

/-- Work for which there are `n` values above some others that belong to callers: these and the frames
stay, and `k` values are left above them if the work succeeds. -/
def Spares {α : Type} (n k : Nat) (act : Action α) : Prop :=
  ∀ (m : Machine) (us vs : List Value), m.stack.Holds (us ++ vs) → vs.length ≤ m.base →
    n ≤ us.length → (act m).2.frames = m.frames ∧
      ∃ us', (act m).2.stack.Holds (us' ++ vs) ∧ ∀ a, (act m).1 = .ok a → k ≤ us'.length

section

variable {α β : Type} {n k l : Nat}

theorem Spares.bind {x : Action α} {f : α → Action β} (hx : x.Spares n k)
    (hf : ∀ a, (f a).Spares k l) : (x >>= f).Spares n l := by
  intro m us vs hs hbase hn
  obtain ⟨hframes, us₁, hs₁, hk⟩ := hx m us vs hs hbase hn
  rw [run_bind]
  cases hrun : x m with
  | mk r m₁ =>
    rw [hrun] at hframes hs₁ hk
    cases r with
    | error e => exact ⟨hframes, us₁, hs₁, nofun⟩
    | ok a =>
      obtain ⟨hframes', us₂, hs₂, hl⟩ :=
        hf a m₁ us₁ vs hs₁ (Machine.base_congr hframes ▸ hbase) (hk a rfl)
      exact ⟨hframes'.trans hframes, us₂, hs₂, hl⟩

/-- Work that does nothing to the stack. -/
theorem spares_of_still {act : Action α}
    (h : ∀ m, (act m).2.frames = m.frames ∧ (act m).2.stack = m.stack) : act.Spares n n := by
  intro m us vs hs _ hn
  obtain ⟨hframes, hstack⟩ := h m
  exact ⟨hframes, us, hstack ▸ hs, fun _ _ => hn⟩

theorem Spares.mono {act : Action α} (h : act.Spares n k) (hl : l ≤ k) : act.Spares n l := by
  intro m us vs hs hbase hn
  obtain ⟨hframes, us', hs', hk⟩ := h m us vs hs hbase hn
  exact ⟨hframes, us', hs', fun a ha => Nat.le_trans hl (hk a ha)⟩

theorem spares_pure (a : α) : Spares n n (pure a) :=
  spares_of_still fun _ => ⟨rfl, rfl⟩

theorem spares_fail (f : Fault) : Spares n k (fail f : Action α) :=
  fun _ us _ hs _ _ => ⟨rfl, us, hs, nofun⟩

theorem spares_halted : Spares n k (throw .halted : Action α) :=
  fun _ us _ hs _ _ => ⟨rfl, us, hs, nofun⟩

theorem spares_lift (r : Except Fault α) : (lift r).Spares n n := by
  cases r with
  | ok a => exact spares_pure a
  | error f => exact spares_fail f

theorem spares_heap : heap.Spares n n :=
  spares_of_still fun _ => ⟨rfl, rfl⟩

/-- What is done with the state may depend on it. -/
theorem spares_get_bind {f : Machine → Action α} (hf : ∀ m₀, (f m₀).Spares n k) :
    Spares n k (get >>= f) :=
  Spares.bind (spares_of_still fun _ => ⟨rfl, rfl⟩) hf

theorem spares_modify {g : Machine → Machine}
    (hg : ∀ m, (g m).frames = m.frames ∧ (g m).stack = m.stack) :
    Spares n n (modify g : Action PUnit) :=
  spares_of_still hg

/-- The state is changed, and a value is pushed. -/
theorem spares_modify_push {g : Machine → Machine} (v : Machine → Value)
    (hg : ∀ m, (g m).frames = m.frames ∧ (g m).stack = m.stack.push (v m)) :
    Spares n (n + 1) (modify g : Action PUnit) := by
  intro m us vs hs _ hn
  obtain ⟨hframes, hstack⟩ := hg m
  refine ⟨hframes, v m :: us, ?_, fun _ _ => Nat.succ_le_succ hn⟩
  exact hstack ▸ hs.push (v m)

theorem spares_push (v : Value) : (push v).Spares n (n + 1) :=
  spares_modify_push (fun _ => v) fun _ => ⟨rfl, rfl⟩

theorem spares_drop (j : Nat) : (drop j).Spares (j + n) n := by
  intro m us vs hs _ hn
  have hlen : (us.take j).length = j := List.length_take_of_le (by omega)
  have hsplit : m.stack.Holds (us.take j ++ (us.drop j ++ vs)) := by
    rwa [← List.append_assoc, List.take_append_drop]
  refine ⟨rfl, us.drop j, ?_, fun _ _ => ?_⟩
  · have hdrop := hsplit.drop
    rwa [hlen] at hdrop
  · rw [List.length_drop]
    omega

theorem spares_pop : pop.Spares (n + 1) n := by
  intro m us vs hs _ hn
  cases us with
  | nil => exact absurd hn (Nat.not_succ_le_zero n)
  | cons v us =>
    rw [run_pop hs]
    exact ⟨rfl, us, holds_drop_one hs, fun _ _ => Nat.le_of_succ_le_succ hn⟩

theorem spares_topMost (j : Nat) : (topMost j).Spares n n := by
  refine spares_get_bind fun m => ?_
  split
  · exact spares_fail _
  · exact spares_pure _

theorem spares_print (s : Settings) (v : Value) (newline : Bool) :
    (print s v newline).Spares n n := by
  refine spares_heap.bind fun _ => (spares_lift _).bind fun t => ?_
  unfold write
  split
  · exact spares_fail _
  · exact spares_modify fun _ => ⟨rfl, rfl⟩

theorem spares_readLine (s : Settings) : (readLine s).Spares n n := by
  unfold readLine
  split
  · exact spares_fail _
  · exact spares_of_still fun _ => ⟨rfl, rfl⟩

theorem spares_binary (f : Heap → Value → Value → Except Fault Value) : (binary f).Spares 2 1 :=
  spares_pop.bind fun _ => spares_pop.bind fun _ => spares_heap.bind fun _ =>
    (spares_lift _).bind fun _ => spares_push _

theorem spares_unary (f : Heap → Value → Except Fault Value) : (unary f).Spares 1 1 :=
  spares_pop.bind fun _ => spares_heap.bind fun _ => (spares_lift _).bind fun _ => spares_push _

private theorem spares_interpolate (c : Chunk) (j : Nat) :
    (interpolate c j).Spares (c.pops ⟨.interp, j⟩) 0 := by
  unfold interpolate
  split
  · rename_i t hget
    have hpops : c.pops ⟨.interp, j⟩ = t.offsets.length + 0 := by simp [Chunk.pops, hget]
    rw [hpops]
    refine (spares_topMost _).bind fun vs => spares_heap.bind fun h => (spares_lift _).bind
      fun parts => (spares_drop t.offsets.length).bind fun _ => ?_
    split
    · exact (spares_push _).mono (Nat.zero_le _)
    · exact spares_fail _
  · exact spares_fail _
  · exact spares_fail _

end

variable {c : Chunk} {s : Settings} {o n : Nat} {op : Opcode}

private theorem spares_readSlot (hop : op = .readSt ∨ op = .readStLong) :
    (execute c s o ⟨op, n⟩).Spares 0 0 := by
  have hslot : (slot n).Spares 0 0 := spares_get_bind fun m => by
    dsimp only
    split
    · exact (spares_fail (k := 0) _).bind fun _ => spares_pure _
    · exact spares_pure _
  have hread : (execute c s o ⟨.readSt, n⟩).Spares 0 0 := hslot.bind fun place =>
    spares_get_bind fun m => by
      split
      · exact (spares_push _).mono (Nat.zero_le _)
      · exact spares_fail _
  rcases hop with rfl | rfl <;> exact hread

/-- The place of a slot is above the base. -/
private theorem spares_writeSlot (hop : op = .writeSt ∨ op = .writeStLong) :
    (execute c s o ⟨op, n⟩).Spares 1 0 := by
  have hwrite : ∀ v, (do
      let place ← slot n
      modify fun m => { m with stack := m.stack.set place v } : Action Unit).Spares 0 0 := by
    intro v m us vs hs hbase _
    simp only [slot, run_bind, run_get, andThen_ok, run_ite, run_fail]
    split
    · exact ⟨rfl, us, hs, fun _ _ => Nat.zero_le _⟩
    · rename_i hin
      obtain ⟨us', hs', hlen⟩ := hs.exists_set (i := m.base + n) (by omega) (by omega) v
      exact ⟨rfl, us', hs', fun _ _ => Nat.zero_le _⟩
  rcases hop with rfl | rfl <;> exact spares_pop.bind hwrite

/-- These look for the values themselves. -/
private theorem spares_pops (hop : op = .popN ∨ op = .popNLong) : (execute c s o ⟨op, n⟩).Spares 0 0 := by
  have hpops : (execute c s o ⟨.popN, n⟩).Spares 0 0 := by
    intro m us vs hs hbase _
    simp only [execute, run_bind, run_get, andThen_ok, run_ite, run_fail]
    split
    · exact ⟨rfl, us, hs, fun _ _ => Nat.zero_le _⟩
    · rename_i henough
      have hlen := hs.1
      rw [List.length_append] at hlen
      exact spares_drop (n := 0) n m us vs hs hbase (by omega)
  rcases hop with rfl | rfl <;> exact hpops

end Action

/-- How many values an instruction takes without a look whether the current call has them. -/
def Chunk.trusts (c : Chunk) (i : Instruction) : Nat :=
  match i.op with
  | .popN | .popNLong | .call => 0
  | _ => c.pops i

namespace Action

variable {c : Chunk} {s : Settings} {o n : Nat}

/-- Every instruction but a call and a return works above the base, with the values it takes there. -/
theorem spares_execute {i : Instruction} (hcall : i.op ≠ .call) (hret : i.op ≠ .ret) :
    (execute c s o i).Spares (c.trusts i) 0 := by
  obtain ⟨op, n⟩ := i
  cases op with
  | nop | fnDef => exact spares_pure _
  | pop => exact spares_pop.bind fun _ => spares_pure _
  | popN => exact spares_pops (.inl rfl)
  | popNLong => exact spares_pops (.inr rfl)
  | loadConst | loadConstLong =>
    simp only [execute]
    split
    · exact (spares_push _).mono (Nat.zero_le _)
    · exact spares_fail _
  | readSt => exact spares_readSlot (.inl rfl)
  | readStLong => exact spares_readSlot (.inr rfl)
  | writeSt => exact spares_writeSlot (.inl rfl)
  | writeStLong => exact spares_writeSlot (.inr rfl)
  | readIt => exact spares_get_bind fun m => (spares_push _).mono (Nat.zero_le _)
  | writeIt => exact spares_pop.bind fun v => spares_modify fun _ => ⟨rfl, rfl⟩
  | add | sub | mul | div | mod | min | max | equal | notEqual | gt | lt | ge | le | and | or | xor
  | concat | getIndex => exact (spares_binary _).mono (Nat.zero_le _)
  | not | front | back | len => exact (spares_unary _).mono (Nat.zero_le _)
  | interp | interpLong => exact spares_interpolate c n
  | cast =>
    refine spares_pop.bind fun v => ?_
    split
    · exact spares_fail _
    · exact spares_heap.bind fun h => (spares_lift _).bind fun r =>
        Spares.mono (spares_modify_push (fun _ => r.1) fun _ => ⟨rfl, rfl⟩) (Nat.zero_le _)
  | list | listLong =>
    exact (spares_topMost n).bind fun vs => (spares_drop (n := 0) n).bind fun _ => Spares.mono
      (spares_modify_push (fun m => .bukkit m.heap.size) fun _ => ⟨rfl, rfl⟩) (Nat.zero_le _)
  | append =>
    refine spares_pop.bind fun v => spares_pop.bind fun target => spares_of_still fun m => ?_
    simp only [run_bind, run_get, andThen_ok]
    cases target.append m.heap v <;> exact ⟨rfl, rfl⟩
  | setIndex =>
    refine spares_pop.bind fun v => spares_pop.bind fun index => spares_pop.bind fun target =>
      spares_of_still fun m => ?_
    simp only [run_bind, run_get, andThen_ok]
    cases target.store m.heap index v <;> exact ⟨rfl, rfl⟩
  | jump => exact spares_modify fun _ => ⟨rfl, rfl⟩
  | jumpIfFalse =>
    refine spares_pop.bind fun v => spares_heap.bind fun h => (spares_lift _).bind fun b => ?_
    cases b with
    | false => exact spares_modify fun _ => ⟨rfl, rfl⟩
    | true => exact spares_pure _
  | call => exact absurd rfl hcall
  | ret => exact absurd rfl hret
  | print => exact spares_pop.bind fun v => spares_print s v _
  | read => exact (spares_readLine s).bind fun t => (spares_push _).mono (Nat.zero_le _)
  | halt => exact spares_halted

end Action

/-- The lowest values of a stack, and what is above them. -/
theorem Stack.Holds.exists_split {s : Stack} {ws : List Value} {n : Nat} (h : s.Holds ws)
    (hn : n ≤ ws.length) : ∃ us vs, s.Holds (us ++ vs) ∧ vs.length = n := by
  refine ⟨ws.take (ws.length - n), ws.drop (ws.length - n), ?_, ?_⟩
  · rwa [List.take_append_drop]
  · rw [List.length_drop]
    omega

namespace Machine

/-- The calls of a machine stand on each other: each has its base above that of its caller, and the
values below the base of the newest are there. -/
structure Founded (m : Machine) : Prop where
  frames : m.frames.Pairwise fun f g => g.base < f.base
  stack : ∃ us vs, m.stack.Holds (us ++ vs) ∧ vs.length = m.base

/-- What a step does to the frames and to the values below the base. -/
inductive Respects (m m' : Machine) : Prop where
  /-- The values below the base stay. -/
  | within (us us' vs : List Value) (hs : m.stack.Holds (us ++ vs)) (hbase : vs.length = m.base)
      (hs' : m'.stack.Holds (us' ++ vs)) (hframes : m'.frames = m.frames)
  /-- A call takes over values of its caller. -/
  | enter (f : Frame) (hbase : m.base < f.base) (hheight : f.base ≤ m.stack.height)
      (hstack : m'.stack = m.stack) (hframes : m'.frames = f :: m.frames)
  /-- A call is left: its result takes the place of the callee. -/
  | leave (f g : Frame) (fs : List Frame) (us : List Value) (v w : Value) (vs : List Value)
      (hs : m.stack.Holds (us ++ w :: vs)) (hbase : f.base = vs.length + 1)
      (hs' : m'.stack.Holds (v :: vs)) (hframes : m.frames = f :: g :: fs)
      (hcaller : m'.frames = g :: fs)

/-- The current call has what the next instruction takes without a look whether it is there. -/
def Affords (c : Chunk) (m : Machine) : Prop :=
  ∀ i, c.fetch m.next = .ok i → c.trusts i ≤ m.stack.height - m.base

variable {c : Chunk} {s : Settings} {m m' : Machine}

namespace Founded

theorem base_le_height (hm : m.Founded) : m.base ≤ m.stack.height := by
  obtain ⟨us, vs, hs, hbase⟩ := hm.stack
  rw [hs.1, List.length_append]
  omega

theorem base_of_mem (hm : m.Founded) {f : Frame} (hf : f ∈ m.frames) : f.base ≤ m.base := by
  have hframes := hm.frames
  unfold Machine.base
  cases hfs : m.frames with
  | nil =>
    rw [hfs] at hf
    cases hf
  | cons g fs =>
    rw [hfs] at hf hframes
    rcases List.mem_cons.1 hf with rfl | hf
    · exact Nat.le_refl _
    · exact Nat.le_of_lt (List.rel_of_pairwise_cons hframes hf)

theorem base_lt (hm : m.Founded) {f g : Frame} {fs : List Frame} (h : m.frames = f :: g :: fs) :
    g.base < f.base := by
  have hframes := hm.frames
  rw [h] at hframes
  exact List.rel_of_pairwise_cons hframes List.mem_cons_self

/-- A machine with the frames of another and more has no lower base. -/
theorem base_le_of_suffix (hm : m'.Founded) (h : m.frames <:+ m'.frames) : m.base ≤ m'.base := by
  rw [Machine.base.eq_def m]
  cases hfs : m.frames with
  | nil => exact Nat.zero_le _
  | cons f fs => exact hm.base_of_mem (h.subset (hfs ▸ List.mem_cons_self))

/-- Where stack and frames are the same, everything is respected. -/
theorem respects_of_same (hm : m.Founded) (hstack : m'.stack = m.stack)
    (hframes : m'.frames = m.frames) : m.Respects m' := by
  obtain ⟨us, vs, hs, hbase⟩ := hm.stack
  exact .within us us vs hs hbase (hstack ▸ hs) hframes

end Founded

namespace Respects

theorem founded (h : m.Respects m') (hm : m.Founded) : m'.Founded := by
  cases h with
  | within us us' vs hs hbase hs' hframes =>
    exact ⟨hframes ▸ hm.frames, us', vs, hs', hbase.trans (base_congr hframes).symm⟩
  | enter f hbase hheight hstack hframes =>
    refine ⟨?_, ?_⟩
    · rw [hframes]
      exact List.pairwise_cons.2 ⟨fun g hg => Nat.lt_of_le_of_lt (hm.base_of_mem hg) hbase, hm.frames⟩
    · obtain ⟨us, vs, hs, -⟩ := hm.stack
      obtain ⟨us', vs', hs', hlen⟩ := hs.exists_split (n := f.base) (hs.1 ▸ hheight)
      exact ⟨us', vs', hstack ▸ hs', hlen.trans (base_of_frames hframes).symm⟩
  | leave f g fs us v w vs hs hbase hs' hframes hcaller =>
    have hlt := hm.base_lt hframes
    have hpairs := hm.frames
    rw [hframes] at hpairs
    refine ⟨?_, ?_⟩
    · rw [hcaller]
      exact hpairs.of_cons
    · obtain ⟨us', vs', hs'', hlen⟩ := hs'.exists_split (n := g.base) (by
        rw [List.length_cons]
        omega)
      exact ⟨us', vs', hs'', hlen.trans (base_of_frames hcaller).symm⟩

/-- Values that are below the base before and after a step stay. -/
theorem keeps (h : m.Respects m') (hm : m.Founded) {us vs : List Value}
    (hs : m.stack.Holds (us ++ vs)) (hlow : vs.length ≤ m.base) (hlow' : vs.length ≤ m'.base) :
    ∃ us', m'.stack.Holds (us' ++ vs) := by
  cases h with
  | within us₁ us₂ vs₁ hs₁ hbase hs₂ hframes =>
    have hsuffix : vs <:+ us₁ ++ _ := hs.unique hs₁ ▸ List.suffix_append us vs
    obtain ⟨ts, rfl⟩ : vs <:+ vs₁ := List.suffix_of_suffix_length_le hsuffix
      (List.suffix_append us₁ vs₁) (by omega)
    exact ⟨us₂ ++ ts, by rwa [List.append_assoc]⟩
  | enter f hbase hheight hstack hframes => exact ⟨us, hstack ▸ hs⟩
  | leave f g fs us₁ v w vs₁ hs₁ hbase hs₂ hframes hcaller =>
    have hlt := hm.base_lt hframes
    have hbase' : m'.base = g.base := base_of_frames hcaller
    have hsuffix : vs <:+ us₁ ++ _ := hs.unique hs₁ ▸ List.suffix_append us vs
    obtain ⟨ts, rfl⟩ : vs <:+ vs₁ := List.suffix_of_suffix_length_le hsuffix
      ((List.suffix_cons w vs₁).trans (List.suffix_append us₁ _)) (by omega)
    exact ⟨v :: ts, hs₂⟩

/-- Frames that are not left stay. -/
theorem suffix (h : m.Respects m') {fs : List Frame} (hfs : fs <:+ m.frames)
    (hlen : fs.length ≤ m'.frames.length) : fs <:+ m'.frames := by
  cases h with
  | within us us' vs hs hbase hs' hframes => exact hframes ▸ hfs
  | enter f hbase hheight hstack hframes => exact hframes ▸ hfs.trans (List.suffix_cons f _)
  | leave f g gs us v w vs hs hbase hs' hframes hcaller =>
    rw [hcaller] at hlen ⊢
    rw [hframes] at hfs
    exact List.suffix_of_suffix_length_le hfs (List.suffix_cons f _) hlen

end Respects
end Machine

namespace Action

variable {c : Chunk} {s : Settings} {m : Machine} {n : Nat}

private theorem Spares.respects {act : Action Unit} {k : Nat} (h : act.Spares n k) (hm : m.Founded)
    (hn : n ≤ m.stack.height - m.base) : m.Respects (act m).2 := by
  obtain ⟨us, vs, hs, hbase⟩ := hm.stack
  have hlen := hs.1
  rw [List.length_append] at hlen
  obtain ⟨hframes, us', hs', -⟩ := h m us vs hs (Nat.le_of_eq hbase) (by omega)
  exact .within us us' vs hs hbase hs' hframes

/-- A call takes a callee and arguments of the current call. -/
private theorem respects_call (hm : m.Founded) : m.Respects (call c s n m).2 := by
  rcases call_cases c s n m with ⟨e, hrun⟩ | ⟨base, target, hbase, hheight, -, -, hrun⟩
  · rw [hrun]
    exact hm.respects_of_same rfl rfl
  · rw [hrun]
    exact .enter _ hbase (Nat.le.intro hheight) rfl rfl

/-- A return takes its result from the current call. -/
private theorem respects_ret (hm : m.Founded) (hn : 1 ≤ m.stack.height - m.base) :
    m.Respects (ret s m).2 := by
  obtain ⟨us, vs, hs, hbase⟩ := hm.stack
  have hlen := hs.1
  rw [List.length_append] at hlen
  cases us with
  | nil =>
    rw [List.length_nil] at hlen
    omega
  | cons v us =>
    have hs₁ : (m.stack.drop 1).Holds (us ++ vs) := holds_drop_one hs
    match hframes : m.frames with
    | f :: g :: fs =>
      have hlt := hm.base_lt hframes
      have hbase' : vs.length = f.base := hbase.trans (Machine.base_of_frames hframes)
      cases vs with
      | nil =>
        rw [List.length_nil] at hbase'
        omega
      | cons w vs =>
        have hs₂ : (m.stack.drop 1).Holds ((us ++ [w]) ++ vs) := by simpa using hs₁
        refine .leave f g fs (v :: us) v w vs hs hbase'.symm ?_ hframes ?_ <;>
          simp only [ret, run_bind, run_pop hs, andThen_ok, run_get, hframes, run_set, ← hbase',
            List.length_cons, Nat.add_sub_cancel]
        exact hs₂.cutTo.push v
    | [_] | [] =>
      have hend : (do print s v true; throw .halted : Action Unit).Spares 0 0 :=
        (spares_print s v true).bind fun _ => spares_halted
      obtain ⟨hsame, us', hs', -⟩ :=
        hend { m with stack := m.stack.drop 1 } us vs hs₁ (Nat.le_of_eq hbase) (Nat.zero_le _)
      refine .within (v :: us) us' vs hs hbase ?_ ?_ <;>
        simp only [ret, run_bind, run_pop hs, andThen_ok, run_get, hframes]
      · simpa only [run_bind, hframes] using hs'
      · simpa only [run_bind, hframes] using hsame

/-- A step leaves the callers what is theirs, if the current call has what it takes unlooked. -/
private theorem respects_execute {o : Nat} {i : Instruction} (hm : m.Founded)
    (hn : c.trusts i ≤ m.stack.height - m.base) : m.Respects (execute c s o i m).2 := by
  by_cases hcall : i.op = .call
  · obtain ⟨op, n⟩ := i
    obtain rfl : op = .call := hcall
    exact respects_call hm
  by_cases hret : i.op = .ret
  · obtain ⟨op, n⟩ := i
    obtain rfl : op = .ret := hret
    exact respects_ret hm hn
  · exact (spares_execute hcall hret).respects hm hn

end Action

namespace Machine

variable {c : Chunk} {s : Settings} {m m' : Machine} {n : Nat}

theorem founded_start (input : Text) : ((idle #[]).start input).Founded :=
  ⟨List.pairwise_singleton _ _, [], [.noob], ⟨rfl, List.prefix_rfl⟩, rfl⟩

private theorem respects_step (hm : m.Founded) (ha : m.Affords c) : m.Respects (m.step c s).2 := by
  rw [Machine.step]
  obtain ⟨trace, ⟨f, hstep⟩ | ⟨-, ⟨f, hstep⟩ | ⟨i, hfetch, hstep⟩⟩⟩ := Action.step_cases c s m
  · rw [hstep]
    exact hm.respects_of_same rfl rfl
  · rw [hstep]
    exact hm.respects_of_same rfl rfl
  · -- the instruction is done by a machine with the same stack and frames
    rw [hstep]
    have hm₁ : { m with trace, current := m.next, next := m.next + i.op.length }.Founded :=
      ⟨hm.frames, hm.stack⟩
    have hexecute := Action.respects_execute (s := s) (o := m.next.toNat + 1) hm₁ (ha i hfetch)
    generalize (Action.execute c s (m.next.toNat + 1) i _).2 = m' at hexecute
    cases hexecute with
    | within us us' vs hs hbase hs' hframes => exact .within us us' vs hs hbase hs' hframes
    | enter f hbase hheight hstack hframes => exact .enter f hbase hheight hstack hframes
    | leave f g fs us v w vs hs hbase hs' hframes hcaller =>
      exact .leave f g fs us v w vs hs hbase hs' hframes hcaller

/-- In each of the first steps of a run the current call has what the instruction takes without a look
whether it is there. -/
def AffordsFor (c : Chunk) (s : Settings) (m : Machine) (n : Nat) : Prop :=
  ∀ k < n, ∀ m', m.runFor c s k = (none, m') → m'.Affords c

theorem respects_runFor (hm : (m.runFor c s n).2.Founded)
    (ha : ∀ m', m.runFor c s n = (none, m') → m'.Affords c) :
    (m.runFor c s n).2.Respects (m.runFor c s (n + 1)).2 := by
  cases hrun : m.runFor c s n with
  | mk r m' =>
    rw [hrun] at hm
    cases r with
    | none =>
      rw [runFor_succ hrun]
      exact respects_step hm (ha m' hrun)
    | some e =>
      rw [runFor_succ_of_ended hrun]
      exact hm.respects_of_same rfl rfl

theorem Founded.runFor (hm : m.Founded) (ha : m.AffordsFor c s n) : (m.runFor c s n).2.Founded := by
  induction n with
  | zero => exact hm
  | succ n ih =>
    have hn := ih fun k hk => ha k (Nat.lt_succ_of_lt hk)
    exact (respects_runFor hn (ha n (Nat.lt_succ_self n))).founded hn

/-- The values below the base of a call are there as long as the call is, and so are its frame and
those of its callers. -/
private theorem Founded.keeps_runFor {j k : Nat} (hm : m.Founded) (ha : m.AffordsFor c s (j + k))
    (hdeep : ∀ i, j ≤ i → i ≤ j + k →
      (m.runFor c s j).2.frames.length ≤ (m.runFor c s i).2.frames.length) {us vs : List Value}
    (hs : (m.runFor c s j).2.stack.Holds (us ++ vs)) (hbase : vs.length = (m.runFor c s j).2.base) :
    (m.runFor c s j).2.frames <:+ (m.runFor c s (j + k)).2.frames ∧
      ∃ us', (m.runFor c s (j + k)).2.stack.Holds (us' ++ vs) := by
  induction k with
  | zero => exact ⟨List.suffix_rfl, us, hs⟩
  | succ k ih =>
    have ha' : m.AffordsFor c s (j + k) := fun i hi => ha i (Nat.lt_succ_of_lt hi)
    obtain ⟨hframes, us', hs'⟩ := ih ha' fun i hj hi => hdeep i hj (Nat.le_succ_of_le hi)
    have hfounded := hm.runFor ha'
    have hnext := respects_runFor hfounded (ha (j + k) (Nat.lt_succ_self _))
    have hframes' := hnext.suffix hframes (hdeep (j + k + 1) (by omega) (Nat.le_refl _))
    refine ⟨hframes', hnext.keeps hfounded hs' ?_ ?_⟩
    · exact hbase ▸ hfounded.base_le_of_suffix hframes
    · exact hbase ▸ (hnext.founded hfounded).base_le_of_suffix hframes'

end Machine

/-- Operations that look for the values they take. -/
def Opcode.looks : Opcode → Bool
  | .popN | .popNLong | .call => true
  | _ => false

/-- An instruction that looks for values, and does not find them above the base, ends the run with a
fault; nothing is taken. -/
private theorem Machine.step_of_looks {c : Chunk} {s : Settings} {m : Machine} {i : Instruction}
    (hfetch : c.fetch m.next = .ok i) (hlooks : i.op.looks = true)
    (hlow : m.stack.height < m.base + c.pops i) :
    ∃ f m', m.step c s = (.error (.failed f), m') ∧ m'.stack = m.stack ∧ m'.frames = m.frames ∧
      (s.tracing = false → f = .stackUnderflow) := by
  have hexecute : ∀ (o : Nat) (m₁ : Machine), m₁.stack = m.stack → m₁.frames = m.frames →
      Action.execute c s o i m₁ = (.error (.failed .stackUnderflow), m₁) := by
    intro o m₁ hstack hframes
    have hbase := base_congr hframes
    obtain ⟨op, n⟩ := i
    cases op with
    | popN | popNLong =>
      have hlow' : m₁.stack.height < m₁.base + n := by rwa [hstack, hbase]
      simp only [Action.execute, run_bind, run_get, andThen_ok, run_ite, if_pos hlow',
        Action.run_fail, andThen_error]
    | call =>
      have hlow' : m₁.stack.height < m₁.base + n + 1 := by rwa [hstack, hbase]
      simp only [Action.execute, Action.call, run_bind, run_get, andThen_ok, run_ite, if_pos hlow',
        Action.run_fail, andThen_error]
    | _ => cases hlooks
  cases htracing : s.tracing with
  | false =>
    have hstep := (Machine.step_of_fetch htracing hfetch).trans (hexecute _ _ rfl rfl)
    exact ⟨_, _, hstep, rfl, rfl, fun _ => rfl⟩
  | true =>
    rw [Machine.step]
    obtain ⟨trace, ⟨f, hstep⟩ | ⟨-, ⟨f, hstep⟩ | ⟨j, hfetch', hstep⟩⟩⟩ := Action.step_cases c s m
    · exact ⟨f, _, hstep, rfl, rfl, Bool.noConfusion⟩
    · exact ⟨f, _, hstep, rfl, rfl, Bool.noConfusion⟩
    · rw [hfetch] at hfetch'
      cases hfetch'
      exact ⟨_, _, hstep.trans (hexecute _ _ rfl rfl), rfl, rfl, Bool.noConfusion⟩

/-- Calls do not reach below their bases in the first steps of a run: the stack has all that is below,
the values and the frames of the callers are there as long as a call goes on, and an instruction that
looks for values of the current call and does not find them ends the run. -/
structure Machine.KeepsFloors (c : Chunk) (s : Settings) (m : Machine) (n : Nat) : Prop where
  floor : ∀ k ≤ n, (m.runFor c s k).2.base ≤ (m.runFor c s k).2.stack.height
  callers : ∀ j k, j ≤ k → k ≤ n →
    (∀ i, j ≤ i → i ≤ k →
      (m.runFor c s j).2.frames.length ≤ (m.runFor c s i).2.frames.length) →
    (m.runFor c s j).2.frames <:+ (m.runFor c s k).2.frames ∧
      (m.runFor c s j).2.stack.toList.take (m.runFor c s j).2.base <+:
        (m.runFor c s k).2.stack.toList
  looks : ∀ k < n, ∀ m' i, m.runFor c s k = (none, m') → c.fetch m'.next = .ok i →
    i.op.looks = true → m'.stack.height < m'.base + c.pops i →
    ∃ f m'', m'.step c s = (.error (.failed f), m'') ∧ m''.stack = m'.stack ∧
      m''.frames = m'.frames ∧ (s.tracing = false → f = .stackUnderflow)

theorem Machine.Founded.keepsFloors {c : Chunk} {s : Settings} {m : Machine} {n : Nat}
    (hm : m.Founded) (h : m.AffordsFor c s n) : m.KeepsFloors c s n where
  floor _ hk := (hm.runFor fun i hi => h i (Nat.lt_of_lt_of_le hi hk)).base_le_height
  callers j k hjk hk hdeep := by
    obtain ⟨d, rfl⟩ := Nat.exists_eq_add_of_le hjk
    have ha : m.AffordsFor c s (j + d) := fun i hi => h i (Nat.lt_of_lt_of_le hi hk)
    have hfounded := hm.runFor (n := j) fun i hi => ha i (Nat.lt_of_lt_of_le hi hjk)
    obtain ⟨us, vs, hs, hbase⟩ := hfounded.stack
    obtain ⟨hframes, us', hs'⟩ := hm.keeps_runFor ha hdeep hs hbase
    refine ⟨hframes, ?_⟩
    rw [hs.toList, hs'.toList, List.reverse_append, List.reverse_append,
      List.take_left' (List.length_reverse.trans hbase)]
    exact List.prefix_append _ _
  looks _ _ _ _ _ hfetch hlooks hlow := Machine.step_of_looks hfetch hlooks hlow

private theorem Chunk.trusts_le (c : Chunk) (i : Instruction) : c.trusts i ≤ c.pops i := by
  unfold trusts
  split <;> first | exact Nat.zero_le _ | exact Nat.le_refl _

/-- In the code of a program each instruction finds its values, so that its calls keep their floors. -/
theorem Program.keepsFloors_of_compile {p : Program} {names : NameTable} {c : Chunk}
    (hcompile : p.compile names = .ok c) (hshort : c.code.size < 2 ^ 31) (s : Settings)
    (input : Text) (n : Nat) : ((Machine.idle #[]).start input).KeepsFloors c s n := by
  refine (Machine.founded_start input).keepsFloors fun k hk m hrun i hfetch => ?_
  obtain ⟨address, H, hH⟩ := Program.exists_heights hcompile hshort
  obtain ⟨x, hm, hx⟩ := hH.fits_run hshort hrun
  obtain ⟨j, hj, hpops, -, -⟩ := (hH.agrees hshort s).checks x.next hx.height.1
  rw [hm.next, hj] at hfetch
  cases hfetch
  have hdepth := hx.height.2
  rw [Snapshot.depth] at hdepth
  rw [hm.stack.1, hm.base, ← hdepth]
  exact Nat.le_trans (c.trusts_le i) hpops

namespace Chunk

/-- Whatever the code is, no call of a run reaches below its base as long as each instruction that does
not look for its values finds them in the current call. -/
theorem keepsFloors_of_affordsFor (c : Chunk) (s : Settings) (input : Text) (n : Nat)
    (h : ((Machine.idle #[]).start input).AffordsFor c s n) :
    ((Machine.idle #[]).start input).KeepsFloors c s n :=
  (Machine.founded_start input).keepsFloors h

/-- A program that calls a function on top of a value, drops what it returns, and prints the value. -/
def withCallee (callee : Array UInt8) : Chunk :=
  let code : Array UInt8 :=
    #[Opcode.loadConst.byte, 0, Opcode.loadConst.byte, 1, Opcode.call.byte, 0, Opcode.pop.byte,
      Opcode.print.byte, 1, Opcode.halt.byte] ++ callee
  { code
    coded := true
    positions := (Array.range code.size).map fun (i : Nat) => ⟨i, i + 1, 0⟩
    pool := .ofList [⟨.yarn "mine", {}⟩, ⟨.funkshon 10, {}⟩, ⟨.yarn "yours", {}⟩, ⟨.noob, {}⟩]
    names := [] }

/-- A function that returns a value of its own. -/
def modestCallee : Array UInt8 :=
  #[Opcode.fnDef.byte, 0, Opcode.loadConst.byte, 2, Opcode.ret.byte]

theorem keepsFloors_of_affordsFor_modest :
    ∃ data c, (withCallee modestCallee).encode = .ok data ∧ decode data = .ok c ∧
      ((Machine.idle #[]).start []).AffordsFor c {} 8 ∧
      (((Machine.idle #[]).start []).runFor c {} 8).1 = some .halted ∧
      (((Machine.idle #[]).start []).runFor c {} 8).2.output = ("mine\n" : Text).toArray ∧
      ((Machine.idle #[]).start []).KeepsFloors c {} 8 := by
  obtain ⟨data, hencode, hdata⟩ : ∃ data, (withCallee modestCallee).encode = .ok data ∧
      ((decode data).toOption.any fun c => decide
        ((∀ k : Nat, k < 8 →
          ((c.fetch (((Machine.idle #[]).start []).runFor c {} k).2.next).toOption.all fun i =>
            decide (c.trusts i ≤ (((Machine.idle #[]).start []).runFor c {} k).2.stack.height -
              (((Machine.idle #[]).start []).runFor c {} k).2.base)) = true) ∧
        (((Machine.idle #[]).start []).runFor c {} 8).1 = some .halted ∧
        (((Machine.idle #[]).start []).runFor c {} 8).2.output = ("mine\n" : Text).toArray)) = true :=
    exists_of_toOption_any (by decide +kernel)
  obtain ⟨c, hdecode, hc⟩ := exists_of_toOption_any hdata
  obtain ⟨htakes, hends, hprints⟩ := of_decide_eq_true hc
  have haffords : ((Machine.idle #[]).start []).AffordsFor c {} 8 := by
    intro k hk m hm i hfetch
    have htake := htakes k hk
    rw [hm, hfetch] at htake
    exact of_decide_eq_true htake
  exact ⟨data, c, hencode, hdecode, haffords, hends, hprints,
    keepsFloors_of_affordsFor c {} [] 8 haffords⟩

/-- A function that drops two values it does not have, and whose own value comes to lie in the place
of one of them. -/
def greedyCallee : Array UInt8 :=
  #[Opcode.fnDef.byte, 0, Opcode.pop.byte, Opcode.pop.byte, Opcode.loadConst.byte, 2,
    Opcode.loadConst.byte, 3, Opcode.ret.byte]

/-- The function reaches below its base, nothing ends the run, and its caller prints a value that it
never had. -/
theorem greedy_callee_replaces_value :
    ∃ data c, (withCallee greedyCallee).encode = .ok data ∧ decode data = .ok c ∧
      (((Machine.idle #[]).start []).runFor c {} 3).2.stack.toList =
        [.noob, .yarn "mine", .funkshon 10] ∧
      (∃ m, ((Machine.idle #[]).start []).runFor c {} 4 = (none, m) ∧ m.base = 3 ∧
        m.stack.height = 2) ∧
      (((Machine.idle #[]).start []).runFor c {} 9).2.stack.toList = [.noob, .yarn "yours"] ∧
      (((Machine.idle #[]).start []).runFor c {} 11).1 = some .halted ∧
      (((Machine.idle #[]).start []).runFor c {} 11).2.output = ("yours\n" : Text).toArray := by
  obtain ⟨data, hencode, hdata⟩ : ∃ data, (withCallee greedyCallee).encode = .ok data ∧
      ((decode data).toOption.any fun c => decide
        ((((Machine.idle #[]).start []).runFor c {} 3).2.stack.toList =
          [.noob, .yarn "mine", .funkshon 10] ∧
        ((((Machine.idle #[]).start []).runFor c {} 4).1 = none ∧
          (((Machine.idle #[]).start []).runFor c {} 4).2.base = 3 ∧
          (((Machine.idle #[]).start []).runFor c {} 4).2.stack.height = 2) ∧
        (((Machine.idle #[]).start []).runFor c {} 9).2.stack.toList = [.noob, .yarn "yours"] ∧
        (((Machine.idle #[]).start []).runFor c {} 11).1 = some .halted ∧
        (((Machine.idle #[]).start []).runFor c {} 11).2.output =
          ("yours\n" : Text).toArray)) = true :=
    exists_of_toOption_any (by decide +kernel)
  obtain ⟨c, hdecode, hc⟩ := exists_of_toOption_any hdata
  obtain ⟨hbefore, ⟨hruns, hbase, hheight⟩, hafter, hends, hprints⟩ := of_decide_eq_true hc
  exact ⟨data, c, hencode, hdecode, hbefore, ⟨_, Prod.ext hruns rfl, hbase, hheight⟩, hafter, hends,
    hprints⟩

end Chunk
end LolToolchain
