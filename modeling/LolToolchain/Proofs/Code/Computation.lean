import LolToolchain.Proofs.Machine.Instruction
import LolToolchain.Proofs.Table

/-!
Evaluation against code. A `Site` is the place of one call in a run: what is below it on the stack,
and its frames. `Computes` relates a part of an evaluation to a stretch of code: from every state
in which the values `pre` are on top of the variables, the code does what the evaluation does, and
leaves the values `post` instead. What follows is given as an observation of the rest, so that the
relation says something about runs that do not get to the end of the stretch too.
-/
namespace LolToolchain

open Effect Snapshot

namespace Eval

variable {α β : Type}

@[simp] theorem conclude_bind (x : Eval α) (f : α → Eval β) (st : EvalState)
    (k : β → EvalState → Observation) :
    conclude ((x >>= f) st) k = conclude (x st) fun a st => conclude (f a st) k := by
  rw [run_bind]
  obtain ⟨r, st', h⟩ : ∃ r st', x st = (r, st') := ⟨_, _, rfl⟩
  rw [h]
  cases r <;> rfl

@[simp] theorem conclude_pure (a : α) (st : EvalState) (k : α → EvalState → Observation) :
    conclude ((pure a : Eval α) st) k = k a st := rfl

@[simp] theorem conclude_get (st : EvalState) (k : EvalState → EvalState → Observation) :
    conclude ((get : Eval EvalState) st) k = k st st := rfl

@[simp] theorem conclude_set (st st' : EvalState) (k : PUnit → EvalState → Observation) :
    conclude ((set st' : Eval PUnit) st) k = k ⟨⟩ st' := rfl

@[simp] theorem conclude_modify (f : EvalState → EvalState) (st : EvalState)
    (k : PUnit → EvalState → Observation) :
    conclude ((modify f : Eval PUnit) st) k = k ⟨⟩ (f st) := rfl

@[simp] theorem conclude_throw (e : Option Finish) (st : EvalState)
    (k : α → EvalState → Observation) :
    conclude ((throw e : Eval α) st) k = ⟨e, st.output, st.input⟩ := rfl

@[simp] theorem conclude_fail (f : Fault) (span : Span) (st : EvalState)
    (k : α → EvalState → Observation) :
    conclude ((fail f span : Eval α) st) k = ⟨some (.failed f span), st.output, st.input⟩ := rfl

theorem conclude_tick_zero {st : EvalState} (hs : st.steps = 0)
    (k : Unit → EvalState → Observation) :
    conclude (tick st) k = ⟨none, st.output, st.input⟩ := by
  simp only [tick, hs, conclude]

theorem conclude_tick {st : EvalState} {n : Nat} (hs : st.steps = n + 1)
    (k : Unit → EvalState → Observation) :
    conclude (tick st) k = k () { st with steps := n } := by
  simp only [tick, hs, conclude]

theorem conclude_congr {x : Eval α} {st : EvalState} {k k' : α → EvalState → Observation}
    (h : ∀ a st', x st = (.ok a, st') → k a st' = k' a st') :
    conclude (x st) k = conclude (x st) k' := by
  obtain ⟨r, st', hx⟩ : ∃ r st', x st = (r, st') := ⟨_, _, rfl⟩
  rw [hx]
  cases r with
  | ok a => exact h a st' hx
  | error e => rfl

end Eval

open Eval

/-- No function was called that the program does not have. -/
def Observation.Known (o : Observation) : Prop :=
  ∀ offset span, o.ending ≠ some (.failed (.noFunction offset) span)

/-- What is seen of a run from a snapshot, if it has only called functions of the program. -/
def Snapshot.Shown (c : Chunk) (s : Settings) (x : Snapshot) (n : Nat) (o : Observation) : Prop :=
  o.Known → x.Leads c s n o

/-- An observation of which nothing has to be shown. -/
def Observation.unknown : Observation := ⟨some (.failed (.noFunction 0) .zero), #[], []⟩

theorem Snapshot.Shown.unknown {c : Chunk} {s : Settings} {x : Snapshot} {n : Nat} :
    x.Shown c s n .unknown :=
  fun hknown => absurd rfl (hknown 0 .zero)

/-- The code of a function does what `call` does: it is entered with its arguments on the stack, and
leaves its value in the place of the function. -/
def Function.Shown (c : Chunk) (s : Settings) (depth fuel : Nat)
    (call : Function → List Value → Eval Value) (f : Function) : Prop :=
  ∀ (args : List Value) (st : EvalState) (callee : Value) (under : List Value)
    (frames : List Frame) (next : Nat) (k : Value → EvalState → Observation),
    args.length = f.params.length → st.steps < fuel → frames.length = depth →
    (∀ (v : Value) (st' : EvalState), st'.vars = st.vars → st'.implicit = st.implicit →
      st'.steps ≤ st.steps → Snapshot.Shown c s
        ⟨next, v :: under, frames, st'.implicit, st'.heap, st'.input, st'.output⟩ st'.steps
        (k v st')) →
    Snapshot.Shown c s ⟨f.address + Opcode.fnDef.length, args.reverse ++ callee :: under,
      ⟨next, under.length + 1, st.implicit⟩ :: frames, .noob, st.heap, st.input, st.output⟩
      st.steps (conclude (call f args st) k)

/-- The place of a call in a run of a chunk. -/
structure Site where
  context : EvalContext
  chunk : Chunk
  below : List Value
  frame : Frame
  callers : List Frame
  quiet : context.settings.tracing = false
  short : chunk.code.size < 2 ^ 31
  base : frame.base = below.length
  depth : callers.length + 1 = context.depth
  placed : ∀ f ∈ context.functions, f.Placed chunk context.address
  calls : ∀ f ∈ context.functions,
    f.Shown chunk context.settings context.depth context.passes context.call

/-- The variables of a state have given names. -/
def EvalState.HasNames (st : EvalState) (ns : Names) : Prop :=
  st.vars.map Prod.fst = ns.texts

namespace EvalState

theorem HasNames.length {st : EvalState} {ns : Names} (h : st.HasNames ns) :
    st.vars.length = ns.length := by
  have hl := congrArg List.length h
  rwa [List.length_map, Names.length_texts] at hl

variable {vars : List (Text × Value)} {ns : Names} {name : Text} {n : Nat}

theorem exists_of_slot? (hn : vars.map Prod.fst = ns.map Prod.fst) (h : ns.slot? name = some n) :
    ∃ newer v older, vars = newer ++ (name, v) :: older ∧ older.length = n ∧
      vars.lookup name = some v ∧
      ∀ w, assign? name w vars = some (newer ++ (name, w) :: older) := by
  induction vars generalizing ns with
  | nil =>
    cases ns with
    | nil => cases h
    | cons m ns => cases hn
  | cons x vars ih =>
    cases ns with
    | nil => cases hn
    | cons m ns =>
      obtain ⟨y, v⟩ := x
      obtain ⟨hm, hn⟩ := List.cons.inj hn
      simp only [Names.slot?, ← hm] at h
      split at h
      · rename_i hy
        cases h
        subst hy
        have hl := congrArg List.length hn
        simp only [List.length_map] at hl
        exact ⟨[], v, vars, rfl, hl, List.lookup_cons_self, by simp [assign?]⟩
      · rename_i hy
        obtain ⟨newer, u, older, rfl, hl, hlook, hset⟩ := ih hn h
        refine ⟨(y, v) :: newer, u, older, rfl, hl, ?_, fun w => ?_⟩
        · exact (lookup_cons_of_ne (Ne.symm hy)).trans hlook
        · simp only [assign?, if_neg hy, hset, Option.map_some, List.cons_append]

theorem lookup_of_slot?_none (hn : vars.map Prod.fst = ns.map Prod.fst)
    (h : ns.slot? name = none) : vars.lookup name = none := by
  induction vars generalizing ns with
  | nil => rfl
  | cons x vars ih =>
    cases ns with
    | nil => cases hn
    | cons m ns =>
      obtain ⟨y, v⟩ := x
      obtain ⟨hm, hn⟩ := List.cons.inj hn
      simp only [Names.slot?, ← hm] at h
      split at h
      · cases h
      · rename_i hy
        exact (lookup_cons_of_ne (Ne.symm hy)).trans (ih hn h)

end EvalState

namespace Site

variable (e : Site) {ns : Names} {α β : Type}

/-- The state of a machine that is about to do the instruction at an offset, with values on top of
the variables. -/
def snapshot (next : Nat) (ts : List Value) (st : EvalState) : Snapshot :=
  ⟨next, ts ++ (st.vars.map Prod.snd ++ e.below), e.frame :: e.callers, st.implicit, st.heap,
    st.input, st.output⟩

/-- What is seen of a run from there. -/
def Shows (next : Nat) (ts : List Value) (st : EvalState) (o : Observation) : Prop :=
  Snapshot.Shown e.chunk e.context.settings (e.snapshot next ts st) st.steps o

/-- The code from `a` on does what `x` does, and leads to `stop`. -/
def Computes (ns : Names) (pre : List Value) (a : Nat) (x : Eval α) (stop : α → Nat)
    (post : α → List Value) : Prop :=
  ∀ ts st k, st.HasNames ns → st.steps ≤ e.context.passes →
    (∀ r st', st'.HasNames ns → st'.steps ≤ st.steps →
      e.Shows (stop r) (post r ++ ts) st' (k r st')) →
    e.Shows a (pre ++ ts) st (conclude (x st) k)

variable {e} {pre : List Value} {a b : Nat} {x : Eval α} {stop : α → Nat} {post : α → List Value}

theorem Computes.bind {f : α → Eval β} {stop' : β → Nat} {post' : β → List Value}
    (h : e.Computes ns pre a x stop post)
    (hf : ∀ r, e.Computes ns (post r) (stop r) (f r) stop' post') :
    e.Computes ns pre a (x >>= f) stop' post' := by
  intro ts st k hn hs hk
  rw [conclude_bind]
  refine h ts st _ hn hs fun r st' hn' hs' => ?_
  refine hf r ts st' k hn' (Nat.le_trans hs' hs) fun r' st'' hn'' hs'' => ?_
  exact hk r' st'' hn'' (Nat.le_trans hs'' hs')

/-- The first part may have results of a special form only. -/
theorem Computes.bind_of {P : α → Prop} {f : α → Eval β} {stop' : β → Nat}
    {post' : β → List Value} (h : e.Computes ns pre a x stop post)
    (hx : ∀ st r st', x st = (.ok r, st') → P r)
    (hf : ∀ r, P r → e.Computes ns (post r) (stop r) (f r) stop' post') :
    e.Computes ns pre a (x >>= f) stop' post' := by
  classical
  intro ts st k hn hs hk
  have hcongr : conclude ((x >>= f) st) k = conclude (x st)
      fun r st' => if P r then conclude (f r st') k else .unknown := by
    rw [conclude_bind]
    exact conclude_congr fun r st' hr => (if_pos (hx st r st' hr)).symm
  rw [hcongr]
  refine h ts st _ hn hs fun r st' hn' hs' => ?_
  by_cases hr : P r
  · rw [if_pos hr]
    refine hf r hr ts st' k hn' (Nat.le_trans hs' hs) fun r' st'' hn'' hs'' => ?_
    exact hk r' st'' hn'' (Nat.le_trans hs'' hs')
  · rw [if_neg hr]
    exact Snapshot.Shown.unknown

theorem Computes.pure (r : α) (ha : stop r = a) (hp : post r = pre) :
    e.Computes ns pre a (pure r) stop post := by
  intro ts st k hn hs hk
  rw [conclude_pure, ← ha, ← hp]
  exact hk r st hn (Nat.le_refl _)

/-- Further values below those in use are left alone. -/
theorem Computes.frame (h : e.Computes ns pre a x stop post) (below : List Value) :
    e.Computes ns (pre ++ below) a x stop fun r => post r ++ below := by
  intro ts st k hn hs hk
  simp only [List.append_assoc] at hk ⊢
  exact h (below ++ ts) st k hn hs hk

theorem Shows.tick {ts : List Value} {st : EvalState} {y : Snapshot}
    {k : Unit → EvalState → Observation}
    (h : Steps e.chunk e.context.settings (e.snapshot a ts st) y)
    (hk : ∀ n, st.steps = n + 1 →
      y.Shown e.chunk e.context.settings n (k () { st with steps := n })) :
    e.Shows a ts st (conclude (tick st) k) := by
  intro hknown
  cases hs : st.steps with
  | zero =>
    rw [conclude_tick_zero hs]
    exact Leads.zero
  | succ n =>
    rw [conclude_tick hs] at hknown ⊢
    exact (hk n hs hknown).of_steps h

private theorem Shows.perform {span : Span} {f : Heap → Except Fault (α × Heap)} {z : α × Heap → Snapshot}
    {ts : List Value} {st : EvalState} {k : α → EvalState → Observation}
    (h : Goes e.chunk e.context.settings (e.snapshot a ts st) span (f st.heap) z)
    (hk : ∀ r heap n, f st.heap = .ok (r, heap) → st.steps = n + 1 →
      (z (r, heap)).Shown e.chunk e.context.settings n (k r { st with heap, steps := n })) :
    e.Shows a ts st (conclude (perform span f st) k) := by
  intro hknown
  simp only [Eval.perform, conclude_bind, conclude_get] at hknown ⊢
  cases hs : st.steps with
  | zero =>
    rw [conclude_tick_zero hs]
    exact Leads.zero
  | succ n =>
    rw [conclude_tick hs] at hknown ⊢
    cases hf : f st.heap with
    | ok r =>
      simp only [hf] at hknown h ⊢
      exact (hk r.1 r.2 n hf hs hknown).of_steps h
    | error err =>
      simp only [hf] at h ⊢
      exact Leads.of_stops h

theorem Computes.tick {stop : Unit → Nat} {post : Unit → List Value}
    (h : ∀ ts st, st.HasNames ns → Steps e.chunk e.context.settings (e.snapshot a (pre ++ ts) st)
      (e.snapshot (stop ()) (post () ++ ts) st)) :
    e.Computes ns pre a tick stop post := by
  intro ts st k hn hs hk
  refine Shows.tick (h ts st hn) fun n hsteps => ?_
  exact hk () { st with steps := n } hn (by simp only; omega)

theorem Computes.perform {span : Span} {f : Heap → Except Fault (α × Heap)}
    (h : ∀ ts st, st.HasNames ns → Goes e.chunk e.context.settings (e.snapshot a (pre ++ ts) st)
      span (f st.heap) fun r => { e.snapshot (stop r.1) (post r.1 ++ ts) st with heap := r.2 }) :
    e.Computes ns pre a (perform span f) stop post := by
  intro ts st k hn hs hk
  refine Shows.perform (h ts st hn) fun r heap n _ hsteps => ?_
  exact hk r { st with heap, steps := n } hn (by simp only; omega)

theorem Computes.operate {span : Span} {f : Heap → Except Fault α}
    (h : ∀ ts st, st.HasNames ns → Goes e.chunk e.context.settings (e.snapshot a (pre ++ ts) st)
      span (f st.heap) fun r => e.snapshot (stop r) (post r ++ ts) st) :
    e.Computes ns pre a (operate span f) stop post := by
  refine Computes.perform fun ts st hn => ?_
  have hg := h ts st hn
  cases hf : f st.heap with
  | ok r =>
    rw [hf] at hg
    exact hg
  | error err =>
    rw [hf] at hg
    exact hg

variable {s : Span} {v w : Value}

theorem Computes.give (h : e.chunk.HasConstant v s a b) :
    e.Computes ns [] a (give v) (fun _ => b) fun r => [r] := by
  obtain ⟨i, ⟨op, hop, hi⟩, hv⟩ := h
  have htick : e.Computes ns [] a Eval.tick (fun _ => b) fun _ => [v] :=
    Computes.tick fun ts st _ => Steps.of_has e.quiet hi (Action.Does.constant hop hv)
  exact htick.bind fun _ => Computes.pure v rfl rfl

theorem Computes.constantTick (h : e.chunk.HasConstant v s a b) :
    e.Computes ns [] a Eval.tick (fun _ => b) fun _ => [v] := by
  obtain ⟨i, ⟨op, hop, hi⟩, hv⟩ := h
  exact Computes.tick fun ts st _ => Steps.of_has e.quiet hi (Action.Does.constant hop hv)

theorem Computes.readImplicit (h : e.chunk.Has .readIt 0 s a b) :
    e.Computes ns [] a Eval.readImplicit (fun _ => b) fun r => [r] := by
  intro ts st k hn hs hk
  simp only [Eval.readImplicit, conclude_bind, conclude_get, conclude_pure]
  refine Shows.tick (Steps.of_has e.quiet h Action.Does.readIt) fun n hsteps => ?_
  exact hk st.implicit { st with steps := n } hn (by simp only; omega)

theorem Computes.binary {f : Heap → Value → Value → Except Fault Value} {op : Opcode}
    (h : e.chunk.Has op 0 s a b)
    (hop : ∀ o, Action.execute e.chunk e.context.settings o ⟨op, 0⟩ = Action.binary f) :
    e.Computes ns [w, v] a (Eval.operate s fun heap => f heap v w) (fun _ => b) fun r => [r] := by
  refine Computes.operate fun ts st _ => ?_
  refine Goes.of_has e.quiet h ?_
  rw [hop]
  exact Action.performs_binary f rfl

theorem Computes.unary {f : Heap → Value → Except Fault Value} {op : Opcode}
    (h : e.chunk.Has op 0 s a b)
    (hop : ∀ o, Action.execute e.chunk e.context.settings o ⟨op, 0⟩ = Action.unary f) :
    e.Computes ns [v] a (Eval.operate s fun heap => f heap v) (fun _ => b) fun r => [r] := by
  refine Computes.operate fun ts st _ => ?_
  refine Goes.of_has e.quiet h ?_
  rw [hop]
  exact Action.performs_unary f rfl

theorem Computes.equal (h : e.chunk.Has .equal 0 s a b) :
    e.Computes ns [w, v] a (Eval.operate s fun _ => .ok (v.equal w)) (fun _ => b)
      fun r => [.troof r] :=
  Computes.operate fun ts st _ =>
    Goes.of_has (x := e.snapshot a ([w, v] ++ ts) st) e.quiet h
      (Action.performs_binary (fun _ a b => .ok (.troof (a.equal b))) rfl)

theorem Computes.cast {t : TypeName} (h : e.chunk.Has .cast t.code.toNat s a b) :
    e.Computes ns [v] a (Eval.perform s fun heap => v.cast heap t) (fun _ => b) fun r => [r] :=
  Computes.perform fun _ _ _ => Goes.of_has e.quiet h (Action.performs_cast t rfl)

theorem Computes.list {vs : List Value}
    (h : e.chunk.HasIndexed .list .listLong vs.length s a b) :
    e.Computes ns vs.reverse a
      (Eval.perform s fun heap => .ok (.bukkit heap.size, heap.push vs.toArray)) (fun _ => b)
      fun r => [r] := by
  obtain ⟨op, hop, hi⟩ := h
  exact Computes.perform fun _ _ _ => Steps.of_has e.quiet hi (Action.Does.list hop rfl (List.append_assoc ..))

theorem Computes.interpolate {vs : List Value} {i : Nat} {text : Text} {splices : List Splice}
    (hl : vs.length = splices.length) (hc : e.chunk.HasTemplate i text splices)
    (h : e.chunk.HasIndexed .interp .interpLong i s a b) :
    e.Computes ns vs.reverse a (Eval.operate s (Splice.fill text splices vs)) (fun _ => b)
      fun r => [r] := by
  obtain ⟨op, hop, hi⟩ := h
  exact Computes.operate fun _ _ _ =>
    Goes.of_has e.quiet hi (Action.performs_interpolate hop hc hl (List.append_assoc ..))

theorem Computes.append (h : e.chunk.Has .append 0 s a b) :
    e.Computes ns [w, v] a (Eval.perform s fun heap => (v.append heap w).map ((), ·)) (fun _ => b)
      fun _ => [] := by
  refine Computes.perform fun ts st _ => ?_
  have hg := Goes.of_has (x := e.snapshot a ([w, v] ++ ts) st) e.quiet h (Action.performs_append rfl)
  change Goes _ _ _ _ (v.append st.heap w) _ at hg
  cases hf : v.append st.heap w <;> rw [hf] at hg <;> exact hg

theorem Computes.store {i : Value} (h : e.chunk.Has .setIndex 0 s a b) :
    e.Computes ns [w, i, v] a (Eval.perform s fun heap => (v.store heap i w).map ((), ·))
      (fun _ => b) fun _ => [] := by
  refine Computes.perform fun ts st _ => ?_
  have hg := Goes.of_has (x := e.snapshot a ([w, i, v] ++ ts) st) e.quiet h
    (Action.performs_setIndex rfl)
  change Goes _ _ _ _ (v.store st.heap i w) _ at hg
  cases hf : v.store st.heap i w <;> rw [hf] at hg <;> exact hg

theorem Computes.jump {target : Nat} (h : e.chunk.HasJump .jump target s a b) :
    e.Computes ns [] a Eval.tick (fun _ => target) fun _ => [] :=
  Computes.tick fun _ _ _ => Steps.of_has e.quiet h.1 (Action.Does.jump h.2)

/-- A jump on a value: the test may fail. -/
theorem Computes.test {target : Nat} (h : e.chunk.HasJump .jumpIfFalse target s a b) :
    e.Computes ns [v] a (Eval.operate s v.truthy) (fun r => if r then b else target)
      fun _ => [] :=
  Computes.operate fun _ _ _ => Goes.of_has e.quiet h.1 (Action.performs_jumpIfFalse h.2 rfl)

/-- A jump on a truth value, which cannot fail. -/
theorem Computes.branch {target : Nat} {r : Bool} (h : e.chunk.HasJump .jumpIfFalse target s a b) :
    e.Computes ns [.troof r] a Eval.tick (fun _ => if r then b else target) fun _ => [] :=
  Computes.tick fun ts st _ =>
    Goes.of_has (x := e.snapshot a (.troof r :: ts) st) e.quiet h.1
      (Action.performs_jumpIfFalse h.2 rfl)

theorem Computes.readName {id : Ident} (h : id.ReadAt e.chunk e.context.outer ns a b) :
    e.Computes ns [] a (readName e.context id) (fun _ => b) fun r => [r] := by
  intro ts st k hn hs hk
  simp only [Eval.readName, conclude_bind, conclude_get]
  unfold Ident.ReadAt at h
  split at h
  · rename_i hit
    refine Shows.tick (Steps.of_has e.quiet h Action.Does.readIt) fun n hsteps => ?_
    simp only [if_pos hit, conclude_pure]
    exact hk st.implicit { st with steps := n } hn (by simp only; omega)
  · rename_i hit
    split at h
    · rename_i m hslot
      obtain ⟨op, hop, hi⟩ := h
      obtain ⟨newer, v, older, hvars, hlen, hlook, -⟩ := EvalState.exists_of_slot? hn hslot
      have hstack : (e.snapshot b ts st).stack =
          (ts ++ newer.map Prod.snd) ++ v :: (older.map Prod.snd ++ e.below) := by
        simp [snapshot, hvars]
      refine Shows.tick (Steps.of_has e.quiet hi (Action.Does.readSlot hop rfl hstack ?_))
        fun n hsteps => ?_
      · simp [e.base, hlen, Nat.add_comm]
      · simp only [if_neg hit, hlook, conclude_pure]
        exact hk v { st with steps := n } hn (by simp only; omega)
    · rename_i hslot
      have hlook := EvalState.lookup_of_slot?_none hn hslot
      cases haddr : Names.function? id.name e.context.outer with
      | none =>
        rw [haddr] at h
        cases h
      | some address =>
        rw [haddr] at h
        obtain ⟨i, ⟨op, hop, hi⟩, hv⟩ := h
        refine Shows.tick (Steps.of_has e.quiet hi (Action.Does.constant hop hv)) fun n hsteps => ?_
        simp only [if_neg hit, hlook, conclude_pure]
        exact hk _ { st with steps := n } hn (by simp only; omega)

theorem Computes.writeName {id : Ident} (h : id.WrittenAt e.chunk ns a b) :
    e.Computes ns [v] a (writeName id v) (fun _ => b) fun _ => [] := by
  intro ts st k hn hs hk
  simp only [Eval.writeName, conclude_bind, conclude_get]
  unfold Ident.WrittenAt at h
  split at h
  · rename_i hit
    refine Shows.tick (Steps.of_has e.quiet h (Action.Does.writeIt rfl)) fun n hsteps => ?_
    simp only [if_pos hit, conclude_set]
    exact hk () { st with steps := n, implicit := v } hn (by simp only; omega)
  · rename_i hit
    split at h
    · rename_i m hslot
      obtain ⟨op, hop, hi⟩ := h
      obtain ⟨newer, u, older, hvars, hlen, -, hset⟩ := EvalState.exists_of_slot? hn hslot
      have hstack : (e.snapshot b ([v] ++ ts) st).stack =
          v :: ((ts ++ newer.map Prod.snd) ++ u :: (older.map Prod.snd ++ e.below)) := by
        simp [snapshot, hvars]
      refine Shows.tick (Steps.of_has e.quiet hi (Action.Does.writeSlot hop rfl hstack ?_))
        fun n hsteps => ?_
      · simp [e.base, hlen, Nat.add_comm]
      · simp only [if_neg hit, hset, conclude_set]
        have hk' := hk () { st with steps := n, vars := newer ++ (id.name, v) :: older } ?_
          (by simp only; omega)
        · simpa [Shows, snapshot] using hk'
        · simpa [EvalState.HasNames, hvars] using hn
    · cases h

theorem Computes.newest {slot : Nat} (hl : ns.length = slot + 1)
    (h : e.chunk.HasIndexed .readSt .readStLong slot s a b) :
    e.Computes ns [] a newest (fun _ => b) fun r => [r] := by
  intro ts st k hn hs hk
  obtain ⟨op, hop, hi⟩ := h
  have hlen := hn.length
  obtain ⟨x, older, hvars⟩ := List.exists_cons_of_length_eq_add_one (hlen.trans hl)
  have hstack : (e.snapshot b ts st).stack = ts ++ x.2 :: (older.map Prod.snd ++ e.below) := by
    simp [snapshot, hvars]
  have holder : older.length = slot := by
    rw [hvars, List.length_cons] at hlen
    omega
  simp only [Eval.newest, conclude_bind, conclude_get]
  refine Shows.tick (Steps.of_has e.quiet hi (Action.Does.readSlot hop rfl hstack ?_))
    fun n hsteps => ?_
  · simp [e.base, holder, Nat.add_comm]
  · have hk' := hk x.2 { st with steps := n } hn (by simp only; omega)
    obtain ⟨vars, it, heap, input, output, steps⟩ := st
    subst hvars
    exact hk'

theorem Computes.setNewest {slot : Nat} (hl : ns.length = slot + 1)
    (h : e.chunk.HasIndexed .writeSt .writeStLong slot s a b) :
    e.Computes ns [v] a (setNewest v) (fun _ => b) fun _ => [] := by
  intro ts st k hn hs hk
  obtain ⟨op, hop, hi⟩ := h
  have hlen := hn.length
  obtain ⟨x, older, hvars⟩ := List.exists_cons_of_length_eq_add_one (hlen.trans hl)
  have hstack : (e.snapshot b ([v] ++ ts) st).stack =
      v :: (ts ++ x.2 :: (older.map Prod.snd ++ e.below)) := by
    simp [snapshot, hvars]
  have holder : older.length = slot := by
    rw [hvars, List.length_cons] at hlen
    omega
  simp only [Eval.setNewest, conclude_bind, conclude_get]
  refine Shows.tick (Steps.of_has e.quiet hi (Action.Does.writeSlot hop rfl hstack ?_))
    fun n hsteps => ?_
  · simp [e.base, holder, Nat.add_comm]
  · simp only [hvars, conclude_set]
    have hk' := hk () { st with steps := n, vars := (x.1, v) :: older } ?_ (by simp only; omega)
    · simpa [Shows, snapshot] using hk'
    · simpa [EvalState.HasNames, hvars] using hn

/-- The function that a value stands for begins at its offset. -/
private theorem offset_of_function? {offset : Int64} {f : Function} (hc : e.chunk.code.size < 2 ^ 31)
    (hp : f.Placed e.chunk e.context.address)
    (hf : e.context.function? offset = some f) : offset.toInt = f.address := by
  obtain ⟨span, m₁, m₂, m₃, ⟨hfetch, -, -⟩, -⟩ := hp
  have hlen := Chunk.length_le_of_fetch hfetch
  have heq := List.find?_some hf
  have hoff : Int64.ofNat f.address = offset := by simpa using heq
  rw [← hoff]
  exact Int64.toInt_ofNat_of_lt (by omega)

theorem Computes.invoke {args : List Value} (h : e.chunk.Has .call args.length s a b) :
    e.Computes ns (args.reverse ++ [v]) a (invoke e.context s v args) (fun _ => b)
      fun r => [r] := by
  intro ts st k hn hs hk
  have hstack : (e.snapshot b (args.reverse ++ [v] ++ ts) st).stack =
      args.reverse ++ v :: (ts ++ (st.vars.map Prod.snd ++ e.below)) := by simp [snapshot]
  have hbase : e.frame.base ≤ (ts ++ (st.vars.map Prod.snd ++ e.below)).length := by
    simp only [e.base, List.length_append]
    omega
  simp only [Eval.invoke, conclude_bind]
  intro hknown
  cases hsteps : st.steps with
  | zero =>
    rw [conclude_tick_zero hsteps]
    exact Leads.zero
  | succ n =>
    rw [conclude_tick hsteps] at hknown ⊢
    by_cases hv : ∃ offset, v = .funkshon offset
    · obtain ⟨offset, rfl⟩ := hv
      cases hf : e.context.function? offset with
      | none =>
        simp only [hf, conclude_fail] at hknown
        exact absurd rfl (hknown offset.toInt s)
      | some f =>
        have hmem : f ∈ e.context.functions := List.mem_of_find?_eq_some hf
        obtain ⟨span, after, hdef⟩ : ∃ span after,
            e.chunk.Has .fnDef f.params.length span f.address after := by
          obtain ⟨span, after, _, _, hdef, _⟩ := e.placed f hmem
          exact ⟨span, after, hdef⟩
        have hoff := offset_of_function? e.short (e.placed f hmem) hf
        have hg := Goes.of_has (x := e.snapshot a (args.reverse ++ [Value.funkshon offset] ++ ts) st)
          e.quiet h (Action.performs_call e.short hdef.1 hdef.2.2 hoff rfl hbase hstack)
        have hdepth : (e.frame :: e.callers).length = e.context.depth := e.depth
        rw [show (e.snapshot a _ st).frames.length = e.context.depth from hdepth] at hg
        simp only [hf] at hknown ⊢
        by_cases harity : f.params.length ≠ args.length
        · simp only [Action.admits, if_pos harity] at hg
          simp only [conclude_bind, if_pos harity, conclude_fail]
          exact Leads.of_stops hg
        · simp only [if_neg harity] at hknown ⊢
          by_cases hover : e.context.settings.maxFrames ≤ e.context.depth
          · simp only [Action.admits, if_neg harity, if_pos hover] at hg
            simp only [conclude_bind, if_pos hover, conclude_fail]
            exact Leads.of_stops hg
          · simp only [Action.admits, if_neg harity, if_neg hover] at hg
            simp only [if_neg hover] at hknown ⊢
            refine Leads.of_steps hg ?_
            obtain ⟨-, -, rfl⟩ := hdef
            have hcall := e.calls f hmem args { st with steps := n } (.funkshon offset)
              (ts ++ (st.vars.map Prod.snd ++ e.below)) (e.frame :: e.callers) b k (by omega)
              (by simp only; omega) hdepth fun r st' hvars hit hsteps' => ?_
            · rw [← hstack] at hcall
              exact hcall hknown
            · have hk' := hk r st' ?_ (by simp only at hsteps'; omega)
              · simp only [Shows, snapshot, hvars] at hk'
                exact hk'
              · rw [EvalState.HasNames, hvars]
                exact hn
    · have hg := Goes.of_has (x := e.snapshot a (args.reverse ++ [v] ++ ts) st) e.quiet h
        (Action.performs_call_other (fun offset ho => hv ⟨offset, ho⟩) rfl hbase hstack)
      split
      · exact absurd ⟨_, rfl⟩ hv
      · exact Leads.of_stops hg

theorem conclude_print {st : EvalState} {n : Nat} (hs : st.steps = n + 1) (c : Settings)
    (newline : Bool) (k : Unit → EvalState → Observation) :
    conclude (Eval.print c s v newline st) k =
      match c.printed st.heap st.output v newline with
      | .ok output => k () { st with output, steps := n }
      | .error err => ⟨some (.failed err s), st.output, st.input⟩ := by
  simp only [Eval.print, Eval.operate, Eval.perform, conclude_bind, conclude_tick hs, conclude_get,
    Settings.printed]
  cases v.text st.heap with
  | error err => rfl
  | ok t => cases c.outputFault <;> rfl

theorem Computes.print {newline : Bool} (h : e.chunk.Has .print (if newline then 1 else 0) s a b) :
    e.Computes ns [v] a (Eval.print e.context.settings s v newline) (fun _ => b) fun _ => [] := by
  intro ts st k hn hs hk hknown
  have hg := Goes.of_has (x := e.snapshot a ([v] ++ ts) st) e.quiet h (Action.performs_print rfl)
  have hnl : decide ((if newline then 1 else 0) ≠ 0) = newline := by cases newline <;> rfl
  rw [hnl] at hg
  cases hsteps : st.steps with
  | zero =>
    simp only [Eval.print, Eval.operate, Eval.perform, conclude_bind, conclude_tick_zero hsteps]
    exact Leads.zero
  | succ n =>
    rw [conclude_print hsteps] at hknown ⊢
    change Goes _ _ _ _ (e.context.settings.printed st.heap st.output v newline) _ at hg
    cases hp : e.context.settings.printed st.heap st.output v newline with
    | error err =>
      rw [hp] at hg
      exact Leads.of_stops hg
    | ok output =>
      simp only [hp] at hknown ⊢
      rw [hp] at hg
      exact (hk () { st with output, steps := n } hn (by simp only; omega) hknown).of_steps hg

theorem Computes.readLine (h : e.chunk.Has .read 0 s a b) :
    e.Computes ns [] a (Eval.readLine e.context.settings s) (fun _ => b) fun r => [r] := by
  intro ts st k hn hs hk hknown
  have hg := Goes.of_has (x := e.snapshot a ts st) e.quiet h Action.performs_read
  simp only [Eval.readLine, conclude_bind] at hknown ⊢
  cases hsteps : st.steps with
  | zero =>
    rw [conclude_tick_zero hsteps]
    exact Leads.zero
  | succ n =>
    rw [conclude_tick hsteps] at hknown ⊢
    cases hp : e.context.settings.inputFault with
    | some cause =>
      simp only [hp] at hg
      exact Leads.of_stops hg
    | none =>
      simp only [hp] at hg hknown ⊢
      refine Leads.of_steps hg ?_
      exact hk _ { st with steps := n, input := _ } hn (by simp only; omega) hknown

end Site
end LolToolchain
