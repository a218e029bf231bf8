import LolToolchain.Proofs.Machine.Containment
import LolToolchain.Proofs.Machine.Transfer

/-!
Which faults a step may end with. The work of an instruction never ends with a fault of fetching one,
and a step comes upon a text without an end only where a list contains itself.
-/
namespace LolToolchain

open Effect

/-- Whether the work of an instruction may end with a fault whatever lists there are. -/
def Fault.isPlain : Fault → Bool
  | .endless | .invalidOpcode _ _ | .truncated _ _ | .pastEnd => false
  | _ => true

theorem Fault.isPlain_of_isOfLanguage {f : Fault} (h : f.isOfLanguage = true) :
    f.isPlain = true := by
  cases f <;> first | rfl | cases h

/-- The work of an instruction may end with a fault where these are the lists: there is an
instruction, and no text is without an end unless a list contains itself. -/
def Fault.OfWork (heap : Heap) (f : Fault) : Prop :=
  f.isPlain = true ∨ f = .endless ∧ ¬ Heap.Grounded heap

/-- The fault of a value that has no text. -/
theorem Fault.OfWork.ofUnprintable {heap : Heap} {e : Unprintable}
    (h : e = .endless → ¬ Heap.Grounded heap) : (Fault.ofUnprintable e).OfWork heap := by
  cases e with
  | broken => exact .inl rfl
  | endless => exact .inr ⟨rfl, h rfl⟩

theorem Fault.OfWork.of_isOfLanguage {heap : Heap} {f : Fault} (h : f.isOfLanguage = true) :
    f.OfWork heap :=
  .inl (Fault.isPlain_of_isOfLanguage h)

/-- A result, or a fault that the work of an instruction may end with. -/
def Works {α : Type} (heap : Heap) (r : Except Fault α) : Prop :=
  Allows (Fault.OfWork heap) (fun _ => True) r

section

variable {α β : Type} {heap : Heap}

theorem works_ok (a : α) : Works heap (.ok a) :=
  trivial

theorem works_error {f : Fault} (h : f.isPlain = true) : Works heap (.error f : Except Fault α) :=
  .inl h

theorem Works.bind {r : Except Fault α} {f : α → Except Fault β} (hr : Works heap r)
    (hf : ∀ a, Works heap (f a)) : Works heap (r >>= f) :=
  Allows.bind hr fun a _ => hf a

theorem works_mapM {f : α → Except Fault β} (hf : ∀ a, Works heap (f a)) (xs : List α) :
    Works heap (xs.mapM f) :=
  (Allows.mapM fun x _ => hf x).mono fun _ _ => trivial

end

namespace Value

variable (heap : Heap) (v w : Value)

theorem works_elements (ref : Nat) : Works heap (elements heap ref) := by
  unfold elements
  split
  · trivial
  · exact works_error rfl

theorem works_truthy : Works heap (v.truthy heap) := by
  unfold truthy
  split
  · trivial
  · exact works_error rfl

theorem works_text : Works heap (v.text heap) := by
  unfold text
  cases hrender : v.render heap with
  | ok t => trivial
  | error e =>
    exact .ofUnprintable fun he hground => hground.render_ne_endless v (he ▸ hrender)

theorem works_number : Works heap (Number.ofValue v) :=
  allows_number (fun _ => .of_isOfLanguage) v

theorem works_toNumbr (x : Number) : Works heap x.toNumbr :=
  allows_toNumbr (fun _ => .of_isOfLanguage) x

theorem works_toIndex : Works heap v.toIndex :=
  allows_toIndex (fun _ => .of_isOfLanguage) v

theorem works_arithmetic (op : Arithmetic) : Works heap (op.eval v w) :=
  (allows_arithmetic (fun _ => .of_isOfLanguage) op v w).mono fun _ _ => trivial

theorem works_comparison (op : Comparison) : Works heap ((op.eval v w).map troof) :=
  (allows_comparison (fun _ => .of_isOfLanguage) op v w).map fun _ _ => trivial

theorem works_pick : Works heap (v.pick heap w) := by
  refine (works_toIndex heap w).bind fun i => ?_
  cases v with
  | bukkit ref =>
    refine (works_elements heap ref).bind fun elems => ?_
    dsimp only
    split
    · exact works_error rfl
    · split
      · trivial
      · exact works_error rfl
  | yarn t =>
    dsimp only
    split
    · exact works_error rfl
    · split
      · trivial
      · exact works_error rfl
  | _ => exact works_error rfl

theorem works_pickEnd (last : Bool) : Works heap (v.pickEnd heap last) := by
  cases v with
  | bukkit ref =>
    refine (works_elements heap ref).bind fun elems => ?_
    split
    · trivial
    · exact works_error rfl
  | yarn t =>
    unfold pickEnd
    dsimp only
    split
    · trivial
    · exact works_error rfl
  | _ => exact works_error rfl

theorem works_count : Works heap (v.count heap) := by
  cases v with
  | bukkit ref => exact (works_elements heap ref).bind fun _ => trivial
  | yarn t => trivial
  | _ => exact works_error rfl

theorem works_store (index : Value) : Works heap (v.store heap index w) := by
  cases v with
  | bukkit ref =>
    refine (works_toIndex heap index).bind fun i => (works_elements heap ref).bind fun elems => ?_
    dsimp only
    split
    · exact works_error rfl
    · trivial
  | _ => exact works_error rfl

theorem works_append : Works heap (v.append heap w) := by
  cases v with
  | bukkit ref =>
    unfold append
    dsimp only
    split
    · exact works_error rfl
    · trivial
  | _ => exact works_error rfl

theorem works_cast (t : TypeName) : Works heap (v.cast heap t) := by
  cases t with
  | noob => trivial
  | troof => exact (works_truthy heap v).bind fun _ => trivial
  | yarn => exact (works_text heap v).bind fun _ => trivial
  | numbr => exact (works_number heap v).bind fun x => (works_toNumbr heap x).bind fun _ => trivial
  | numbar => exact (works_number heap v).bind fun _ => trivial
  | bukkit =>
    cases v with
    | noob | bukkit => trivial
    | _ => exact works_error rfl

end Value

/-- Where no list contains itself, an instruction can be shown. -/
theorem Heap.Grounded.instructionText_ne_endless {heap : Heap} (h : Heap.Grounded heap) (c : Chunk)
    (o : Nat) (i : Instruction) : c.instructionText heap o i ≠ .error .endless := by
  intro htext
  rw [Chunk.instructionText] at htext
  split at htext
  case h_1 | h_2 | h_3 | h_4 =>
    cases hget : c.pool.get? i.arg with
    | none =>
      rw [hget] at htext
      cases htext
    | some v =>
      cases hinspect : v.inspect heap with
      | ok t =>
        simp only [hget, hinspect] at htext
        cases htext
      | error e =>
        simp only [hget, hinspect] at htext
        cases htext
        exact h.inspect_ne_endless v hinspect
  all_goals cases htext

namespace Action

/-- Each fault of an action has a property that may depend on the lists there are then. -/
def Fails {α : Type} (P : Heap → Fault → Prop) (act : Action α) : Prop :=
  ∀ m f, (act m).1 = .error (.failed f) → P (act m).2.heap f

/-- An action that fails, if it does, with a fault that the work of an instruction may end with. -/
abbrev Works {α : Type} (act : Action α) : Prop :=
  act.Fails Fault.OfWork

section

variable {α β : Type} {P Q : Heap → Fault → Prop} {x : Action α} {f : α → Action β}

theorem Fails.mono (h : x.Fails P) (hPQ : ∀ heap f, P heap f → Q heap f) : x.Fails Q :=
  fun m f hf => hPQ _ f (h m f hf)

theorem fails_pure (a : α) : Fails P (pure a) := by
  rintro m f ⟨⟩

theorem fails_fail {f : Fault} (h : ∀ heap, P heap f) : Fails P (fail f : Action α) := by
  rintro m f' ⟨⟩
  exact h m.heap

theorem fails_halted : Fails P (throw .halted : Action α) := by
  rintro m f ⟨⟩

theorem fails_get : Fails P get := by
  rintro m f ⟨⟩

theorem fails_set (m : Machine) : Fails P (set m) := by
  rintro m' f ⟨⟩

theorem fails_modify (g : Machine → Machine) : Fails P (modify g) := by
  rintro m f ⟨⟩

theorem Fails.bind (hx : x.Fails P) (hf : ∀ a, (f a).Fails P) : (x >>= f).Fails P := by
  intro m f' h
  rw [run_bind] at h ⊢
  have hxm := hx m f'
  cases hrun : x m with
  | mk r m₁ =>
    rw [hrun] at h hxm
    cases r with
    | error e =>
      cases h
      exact hxm rfl
    | ok a => exact hf a m₁ f' h

/-- What is done with the state may depend on it. -/
theorem fails_get_bind {f : Machine → Action α}
    (hf : ∀ m f', (f m m).1 = .error (.failed f') → P (f m m).2.heap f') :
    (get >>= f).Fails P := by
  intro m
  rw [run_bind, run_get, andThen_ok]
  exact hf m

/-- What is computed from the lists fails in view of these lists. -/
theorem fails_operate {r : Heap → Except Fault α} {k : α → Action β}
    (hr : ∀ h, Allows (P h) (fun _ => True) (r h)) (hk : ∀ a, (k a).Fails P) :
    (heap >>= fun h => lift (r h) >>= k).Fails P := by
  intro m f h
  rw [run_bind, run_heap, andThen_ok, run_bind] at h ⊢
  have hrm := hr m.heap
  cases hrun : r m.heap with
  | error e =>
    rw [hrun] at h hrm
    cases h
    exact hrm
  | ok a =>
    rw [hrun] at h
    exact hk a m f h

/-- A test in front of the rest. -/
theorem fails_unless {p : Prop} [Decidable p] {f : Fault} {x : Action Unit}
    (hf : ∀ heap, P heap f) (hx : x.Fails P) :
    (do if p then fail f
        x : Action Unit).Fails P := by
  split
  · exact (fails_fail hf).bind fun _ => hx
  · exact hx

end

theorem works_fail {α : Type} {f : Fault} (h : f.isPlain = true) : (fail f : Action α).Works :=
  fails_fail fun _ => .inl h

theorem works_unless {p : Prop} [Decidable p] {f : Fault} {x : Action Unit}
    (hf : f.isPlain = true) (hx : x.Works) :
    (do if p then fail f
        x : Action Unit).Works :=
  fails_unless (fun _ => .inl hf) hx

theorem works_push (v : Value) : (push v).Works :=
  fails_modify _

theorem works_drop (n : Nat) : (drop n).Works :=
  fails_modify _

theorem works_pop : pop.Works := by
  refine fails_get.bind fun m => ?_
  split
  · exact works_fail rfl
  · exact (fails_modify _).bind fun _ => fails_pure _

theorem works_topMost (n : Nat) : (topMost n).Works := by
  refine fails_get.bind fun m => ?_
  split
  · exact works_fail rfl
  · exact fails_pure _

theorem works_slot (n : Nat) : (slot n).Works := by
  refine fails_get.bind fun m => ?_
  dsimp only
  split
  · exact (works_fail rfl).bind fun _ => fails_pure _
  · exact fails_pure _

theorem works_print (s : Settings) (v : Value) (newline : Bool) : (print s v newline).Works := by
  refine fails_operate v.works_text fun t => ?_
  unfold write
  split
  · exact works_fail rfl
  · exact fails_modify _

theorem works_readLine (s : Settings) : (readLine s).Works := by
  unfold readLine
  split
  · exact works_fail rfl
  · exact fails_get.bind fun m => (fails_set _).bind fun _ => fails_pure _

private theorem works_binary {f : Heap → Value → Value → Except Fault Value}
    (hf : ∀ h v w, LolToolchain.Works h (f h v w)) : (binary f).Works :=
  works_pop.bind fun w => works_pop.bind fun v =>
    fails_operate (fun h => hf h v w) fun _ => works_push _

private theorem works_unary {f : Heap → Value → Except Fault Value}
    (hf : ∀ h v, LolToolchain.Works h (f h v)) : (unary f).Works :=
  works_pop.bind fun v => fails_operate (fun h => hf h v) fun _ => works_push _

/-- What is done to the lists fails in view of them. -/
private theorem works_setHeap {r : Heap → Except Fault Heap}
    (hr : ∀ h, LolToolchain.Works h (r h)) :
    (do
      let m ← get
      match r m.heap with
      | .ok heap => set { m with heap }
      | .error f => fail f : Action Unit).Works := by
  refine fails_get_bind fun m f hf => ?_
  have hwork := hr m.heap
  cases hrun : r m.heap with
  | ok heap =>
    rw [hrun] at hf
    cases hf
  | error e =>
    rw [hrun] at hf hwork
    cases hf
    exact hwork

private theorem works_interpolate (c : Chunk) (n : Nat) : (interpolate c n).Works := by
  unfold interpolate
  split
  · refine (works_topMost _).bind fun vs =>
      fails_operate (fun h => works_mapM (Value.works_text h) _) fun parts =>
        (works_drop _).bind fun _ => ?_
    split
    · exact works_push _
    · exact works_fail rfl
  · exact works_fail rfl
  · exact works_fail rfl

private theorem works_call (c : Chunk) (s : Settings) (n : Nat) : (call c s n).Works := by
  refine fails_get.bind fun m => works_unless rfl ?_
  split
  · exact works_unless rfl (works_unless rfl (works_unless rfl (works_unless rfl (fails_set _))))
  · exact works_fail rfl
  · exact works_fail rfl

private theorem works_ret (s : Settings) : (ret s).Works := by
  refine works_pop.bind fun v => fails_get.bind fun m => ?_
  split
  · exact fails_set _
  · exact (works_print s v true).bind fun _ => fails_halted

theorem works_execute (c : Chunk) (s : Settings) (o : Nat) (i : Instruction) :
    (execute c s o i).Works := by
  obtain ⟨op, n⟩ := i
  cases op with
  | nop | fnDef => exact fails_pure _
  | pop => exact works_pop.bind fun _ => fails_pure _
  | popN | popNLong => exact fails_get.bind fun m => works_unless rfl (works_drop _)
  | loadConst | loadConstLong =>
    simp only [execute]
    split
    · exact works_push _
    · exact works_fail rfl
  | readSt | readStLong =>
    refine (works_slot n).bind fun place => fails_get.bind fun m => ?_
    split
    · exact works_push _
    · exact works_fail rfl
  | writeSt | writeStLong =>
    exact works_pop.bind fun v => (works_slot n).bind fun place => fails_modify _
  | readIt => exact fails_get.bind fun m => works_push _
  | writeIt => exact works_pop.bind fun v => fails_modify _
  | add | sub | mul | div | mod | min | max =>
    exact works_binary fun h v w => v.works_arithmetic h w _
  | equal | notEqual => exact works_binary fun _ _ _ => works_ok _
  | gt | lt | ge | le => exact works_binary fun h v w => v.works_comparison h w _
  | and =>
    refine works_binary fun h v w => (v.works_truthy h).bind fun b => ?_
    split
    · exact (w.works_truthy h).bind fun _ => works_ok _
    · exact works_ok _
  | or =>
    refine works_binary fun h v w => (v.works_truthy h).bind fun b => ?_
    split
    · exact works_ok _
    · exact (w.works_truthy h).bind fun _ => works_ok _
  | xor =>
    exact works_binary fun h v w =>
      (v.works_truthy h).bind fun _ => (w.works_truthy h).bind fun _ => works_ok _
  | concat =>
    exact works_binary fun h v w =>
      (v.works_text h).bind fun _ => (w.works_text h).bind fun _ => works_ok _
  | getIndex => exact works_binary fun h v w => v.works_pick h w
  | not => exact works_unary fun h v => (v.works_truthy h).bind fun _ => works_ok _
  | front | back => exact works_unary fun h v => v.works_pickEnd h _
  | len => exact works_unary fun h v => v.works_count h
  | interp | interpLong => exact works_interpolate c n
  | cast =>
    refine works_pop.bind fun v => ?_
    split
    · exact works_fail rfl
    · exact fails_operate (fun h => v.works_cast h _) fun r => fails_modify _
  | list | listLong =>
    exact (works_topMost n).bind fun vs => (works_drop n).bind fun _ => fails_modify _
  | append =>
    exact works_pop.bind fun v => works_pop.bind fun target =>
      works_setHeap (r := fun h => target.append h v) fun h => target.works_append h v
  | setIndex =>
    exact works_pop.bind fun v => works_pop.bind fun index => works_pop.bind fun target =>
      works_setHeap (r := fun h => target.store h index v) fun h => target.works_store h v index
  | jump => exact fails_modify _
  | jumpIfFalse =>
    refine works_pop.bind fun v => fails_operate v.works_truthy fun b => ?_
    split
    · exact fails_modify _
    · exact fails_pure _
  | call => exact works_call c s n
  | ret => exact works_ret s
  | print => exact works_pop.bind fun v => works_print s v _
  | read => exact (works_readLine s).bind fun t => works_push _
  | halt => exact fails_halted

/-- Writing the trace fails only on a value, on the stack or among the constants. -/
private theorem works_traceStep (c : Chunk) : (traceStep c).Works := by
  refine fails_get_bind fun m f hf => ?_
  simp only [run_bind] at hf ⊢
  cases hvalues : m.stack.toList.mapM (Value.inspect m.heap) with
  | error e =>
    rw [hvalues] at hf
    cases hf
    refine .ofUnprintable fun he hground => ?_
    obtain ⟨v, -, hv⟩ := mapM_error hvalues
    exact hground.inspect_ne_endless v (he ▸ hv)
  | ok values =>
    rw [hvalues] at hf
    cases hfetch : c.fetch m.next with
    | error e =>
      rw [Chunk.describe, hfetch] at hf
      cases hf
    | ok i =>
      rw [Chunk.describe, hfetch] at hf ⊢
      cases htext : c.instructionText m.heap m.next.toNat i with
      | ok t =>
        simp only [mapError_ok, run_lift_ok, andThen_ok, Except.map, htext] at hf
        cases hf
      | error e =>
        simp only [mapError_ok, run_lift_ok, andThen_ok, Except.map, htext] at hf ⊢
        cases hf
        refine .ofUnprintable fun he hground => ?_
        exact hground.instructionText_ne_endless c _ i (he ▸ htext)

theorem fails_step (c : Chunk) (s : Settings) :
    (step c s).Fails fun heap f => f = .endless → ¬ Heap.Grounded heap := by
  have hwork {act : Action Unit} (hact : act.Works) :
      act.Fails fun heap f => f = .endless → ¬ Heap.Grounded heap := by
    refine hact.mono fun heap f hf heq => ?_
    rcases hf with hf | hf
    · subst heq
      cases hf
    · exact hf.2
  have hfail {f : Fault} (hf : f ≠ .endless) :
      (fail f : Action Unit).Fails fun heap f => f = .endless → ¬ Heap.Grounded heap :=
    fails_fail fun _ heq => absurd heq hf
  refine fails_get.bind fun m => fails_unless (fun _ heq => by cases heq) ?_
  split
  -- with tracing or without, the instruction is fetched and done
  on_goal 1 => refine (hwork (works_traceStep c)).bind fun _ => ?_
  all_goals
    refine fails_get.bind fun m => (fails_modify _).bind fun _ => ?_
    split
    · exact hfail (by rintro ⟨⟩)
    · exact hfail (by rintro ⟨⟩)
    · exact hfail (by rintro ⟨⟩)
    · exact (fails_modify _).bind fun _ => hwork (works_execute c s _ _)

end Action

/-- A run that comes upon a text without an end does so because a list contains itself. -/
theorem Machine.not_grounded_of_endless {c : Chunk} {s : Settings} {n : Nat} {m m' : Machine}
    (h : m.runFor c s n = (some (.failed .endless), m')) : ¬ Heap.Grounded m'.heap := by
  induction n generalizing m with
  | zero => cases h
  | succ n ih =>
    rw [runFor] at h
    have hstep := Action.fails_step c s m .endless
    cases hrun : m.step c s with
    | mk r m₁ =>
      rw [← step, hrun] at hstep
      rw [hrun] at h
      cases r with
      | error e =>
        cases h
        exact hstep rfl rfl
      | ok u => exact ih h

end LolToolchain
