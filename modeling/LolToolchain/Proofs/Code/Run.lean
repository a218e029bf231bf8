import LolToolchain.Proofs.Code.Statement

/-!
Calls and whole runs. A call is evaluated with less fuel than its caller has, and fuel is never
short as long as there are steps; so by induction on the fuel the code of every function does what
calls of it do, and then the code of the program does what the program does.
-/
namespace LolToolchain

open Effect Snapshot Eval Site

/-- Statements that end with a return are not left to the next one. -/
private theorem Stmt.evalAll_ne_next {c : EvalContext} {ss : List Stmt} (h : endsInReturn ss = true)
    (k : Nat) (st st' : EvalState) : Stmt.evalAll c k ss st ≠ (.ok .next, st') := by
  induction ss generalizing k st with
  | nil => cases h
  | cons s ss ih =>
    intro heval
    obtain ⟨flow, st₁, hs, hflow⟩ := ok_of_bind heval
    cases ss with
    | nil =>
      cases s with
      | ret span value =>
        obtain ⟨v, st₂, -, hv⟩ := ok_of_bind hs
        obtain ⟨rfl, rfl⟩ := eq_of_pure hv
        cases hflow
      | _ => cases h
    | cons t ts =>
      have h' : endsInReturn (t :: ts) = true := by
        rw [endsInReturn, List.getLast?_cons_cons] at h
        exact h
      cases flow with
      | next => exact ih h' _ _ hflow
      | left => cases hflow
      | found v span => cases hflow

private theorem Function.map_snd_bind {f : Function} {args : List Value}
    (h : args.length = f.params.length) : (f.bind args).map Prod.snd = args.reverse := by
  rw [Function.bind, List.map_reverse, List.map_snd_zip]
  rw [List.length_map]
  omega

private theorem Function.map_fst_bind {f : Function} {args : List Value}
    (h : args.length = f.params.length) :
    (f.bind args).map Prod.fst = (Names.ofParams f.params).texts := by
  rw [Function.bind, Names.ofParams, Names.texts, List.map_reverse, List.map_reverse,
    List.map_fst_zip (by rw [List.length_map]; omega), List.map_map]
  rfl

variable {chunk : Chunk} {l : Linked}

/-- What follows a body that is left by a return only. -/
def Flow.thenIfLeft (k : Flow → EvalState → Observation) : Flow → EvalState → Observation
  | .next, _ => .unknown
  | flow, st => k flow st

/-- The body of a function, from its first instruction to a return. What is done with the value is
told by `done`. -/
private theorem Function.shows_body (e : Site) {f : Function} {span : Span} {m₁ m₂ m₃ : Nat}
    (hbody : Stmt.PlacedAll e.chunk e.context.address e.context.outer .function f.first f.body
      (Names.ofParams f.params) m₁ m₂)
    (hret : ReturnAt e.chunk span f.body m₂ m₃) {st : EvalState}
    (hn : st.HasNames (Names.ofParams f.params)) (hs : st.steps ≤ e.context.passes)
    {done : Value → EvalState → Observation}
    (hdone : ∀ (v : Value) (s : Span) (st' : EvalState) (p q : Nat),
      e.chunk.Has .ret 0 s p q → st'.steps ≤ st.steps →
      e.Shows p [v] st' (conclude (tick st') fun _ => done v)) :
    e.Shows m₁ [] st (conclude (Stmt.evalAll e.context f.first f.body st)
      fun flow st' => conclude (flow.value st') done) := by
  have hleft : ∀ (st' : EvalState) (ms : Names) (s : Span) (p q : Nat),
      Exit.function.Placed e.chunk ms s p q → [] <:+ ms.texts → st'.HasNames ms →
      st'.steps ≤ st.steps → e.Shows p [] st' (conclude (Flow.left.value st') done) := by
    intro st' ms s p q hp _ hn' hs'
    obtain ⟨m, hconst, hr⟩ := hp
    simp only [Flow.value, conclude_bind]
    refine (Computes.give hconst).moves st' _ hn' (by omega) fun v st'' _ hs'' => ?_
    exact hdone v s st'' m q hr (by omega)
  have hfound : ∀ (v : Value) (s : Span) (st' : EvalState) (p q : Nat),
      e.chunk.Has .ret 0 s p q → st'.steps ≤ st.steps →
      e.Shows p [v] st' (conclude ((Flow.found v s).value st') done) := by
    intro v s st' p q hr hs'
    simp only [Flow.value, conclude_bind, conclude_pure]
    exact hdone v s st' p q hr hs'
  have hexec := Stmt.executesAll e f.body hbody List.nil_suffix
  by_cases hends : endsInReturn f.body = true
  · -- nothing stands behind the body, and it is not left to what stands there
    have hcongr : conclude (Stmt.evalAll e.context f.first f.body st)
        (fun flow st' => conclude (flow.value st') done) =
        conclude (Stmt.evalAll e.context f.first f.body st)
          (Flow.thenIfLeft fun flow st' => conclude (flow.value st') done) := by
      refine conclude_congr fun flow st' heval => ?_
      cases flow with
      | next => exact absurd heval (Stmt.evalAll_ne_next hends _ _ _)
      | left => rfl
      | found v s => rfl
    rw [hcongr]
    exact hexec st _ hn hs ⟨fun _ _ _ => Shown.unknown, hleft, hfound⟩
  · rw [ReturnAt, if_neg hends] at hret
    obtain ⟨m, hit, hr⟩ := hret
    refine hexec st _ hn hs ⟨fun st' hn' hs' => ?_, hleft, hfound⟩
    simp only [Flow.value, conclude_bind]
    refine (Computes.readImplicit hit).moves st' _ hn' (by omega) fun v st'' _ hs'' => ?_
    exact hdone v span st'' m m₃ hr (by omega)

/-- The code of every function does what calls of it do. -/
theorem Function.shown (hquiet : l.settings.tracing = false) (hshort : chunk.code.size < 2 ^ 31)
    (hplaced : ∀ f ∈ l.functions, f.Placed chunk l.address) (fuel depth : Nat) (hd : 0 < depth)
    (f : Function) (hf : f ∈ l.functions) :
    f.Shown chunk l.settings depth fuel (Function.call l fuel depth) := by
  induction fuel generalizing depth f with
  | zero =>
    intro args st callee under frames next k hlen hsteps
    omega
  | succ fuel ih =>
    intro args st callee under frames next k hlen hsteps hframes hk
    obtain ⟨g, fs, rfl⟩ := List.exists_cons_of_length_pos (by omega : 0 < frames.length)
    obtain ⟨span, m₁, m₂, m₃, ⟨-, -, rfl⟩, hbody, hret⟩ := hplaced f hf
    let e : Site :=
      { context := ⟨l, depth + 1, f.outer, fuel, Function.call l fuel (depth + 1)⟩
        chunk
        below := callee :: under
        frame := ⟨next, under.length + 1, st.implicit⟩
        callers := g :: fs
        quiet := hquiet
        short := hshort
        base := rfl
        depth := by rw [hframes]
        placed := hplaced
        calls := fun f hf => ih (depth + 1) (by omega) f hf }
    have hreturn : ∀ (v : Value) (s : Span) (st' : EvalState) (p q : Nat),
        e.chunk.Has .ret 0 s p q → st'.steps ≤ st.steps →
        e.Shows p [v] st' (conclude (tick st') fun _ st'' =>
          k v { st'' with vars := st.vars, implicit := st.implicit }) := by
      intro v s st' p q hr hs'
      refine Shows.tick (Steps.of_has e.quiet hr (Action.Does.ret
        (w := callee) rfl rfl rfl rfl)) fun n hsteps' => ?_
      exact hk v { st' with vars := st.vars, implicit := st.implicit, steps := n } rfl rfl
        (by simp only; omega)
    have hnames : EvalState.HasNames { st with vars := f.bind args, implicit := .noob }
        (Names.ofParams f.params) := Function.map_fst_bind hlen
    have hshows := Function.shows_body e hbody hret hnames (Nat.le_of_lt_succ hsteps) hreturn
    have hstart : e.snapshot (f.address + Opcode.fnDef.length) []
        { st with vars := f.bind args, implicit := .noob } =
        ⟨f.address + Opcode.fnDef.length, args.reverse ++ callee :: under,
          ⟨next, under.length + 1, st.implicit⟩ :: g :: fs, .noob, st.heap, st.input,
          st.output⟩ := by
      simp only [snapshot, e, Function.map_snd_bind hlen, List.nil_append]
    rw [← hstart]
    simp only [Function.call, conclude_bind, conclude_get, conclude_set, conclude_modify,
      conclude_pure]
    exact hshows

/-- A function whose code stands in a chunk, with its value among the constants. -/
structure Function.Stands (c : Chunk) (address : Nat → Nat) (f : Function) : Prop where
  placed : f.Placed c address
  constant : ∃ i, c.pool.get? i = some (functionValue f.address)

mutual

/-- The functions that a statement defines stand in its code. -/
theorem Stmt.functions_stand {c : Chunk} {address : Nat → Nat} {outer : List Names} :
    ∀ (s : Stmt) {exit : Exit} {k : Nat} {ns : Names} {a b : Nat},
    s.Placed c address outer exit k ns a b →
    ∀ f ∈ Stmt.functions address outer k s ns, f.Stands c address
  | .define _ name params (.mk _ body), _, k, ns, _, _, h => by
    obtain ⟨m₁, m₂, m₃, -, hdef, hbody, hret, hvalue⟩ := h
    intro f hf
    rw [Stmt.functions] at hf
    rcases List.mem_cons.1 hf with rfl | hf
    · exact ⟨⟨_, m₁, m₂, m₃, hdef, hbody, hret⟩, hvalue.imp fun _ => And.right⟩
    · exact Stmt.functionsAll_stand body hbody f hf
  | .switch _ arms otherwise, _, _, _, _, _, h => by
    obtain ⟨entry, m, harms, hdefault⟩ := h
    intro f hf
    rw [Stmt.functions] at hf
    rcases List.mem_append.1 hf with hf | hf
    · exact Arm.functions_standSwitch arms harms f hf
    · exact Block.functionsOption_stand otherwise hdefault f hf
  | .branch _ yes arms no, _, _, _, _, _, h => by
    obtain ⟨m₁, m₂, m₃, next, m₄, -, -, hyes, -, harms, hno⟩ := h
    intro f hf
    rw [Stmt.functions] at hf
    rcases List.mem_append.1 hf with hf | hf
    · rcases List.mem_append.1 hf with hf | hf
      · exact Block.functionsOption_stand yes hyes f hf
      · exact Arm.functions_standBranch arms harms f hf
    · exact Block.functionsOption_stand no hno f hf
  | .loop _ _ _ update (.mk _ body), _, _, _, _, _, h => by
    obtain ⟨start, m₁, m₂, m₃, m₄, beyond, -, -, hbody, -⟩ := h
    intro f hf
    rw [Stmt.functions] at hf
    exact Stmt.functionsAll_stand body hbody f hf
  | .assign _ _ _, _, _, _, _, _, _ | .declare _ _ _, _, _, _, _, _, _ | .load _ _, _, _, _, _, _, _
  | .expr _ _, _, _, _, _, _, _ | .cast _ _ _, _, _, _, _, _, _ | .leave _, _, _, _, _, _, _
  | .ret _ _, _, _, _, _, _, _ | .print _ _ _, _, _, _, _, _, _ | .read _ _, _, _, _, _, _, _
  | .append _ _ _, _, _, _, _, _, _ | .store _ _ _ _, _, _, _, _, _, _ => nofun

theorem Stmt.functionsAll_stand {c : Chunk} {address : Nat → Nat} {outer : List Names} :
    ∀ (ss : List Stmt) {exit : Exit} {k : Nat} {ns : Names} {a b : Nat},
    Stmt.PlacedAll c address outer exit k ss ns a b →
    ∀ f ∈ Stmt.functionsAll address outer k ss ns, f.Stands c address
  | [], _, _, _, _, _, _ => nofun
  | s :: ss, _, _, _, _, _, h => by
    obtain ⟨m, hs, hss⟩ := h
    intro f hf
    rw [Stmt.functionsAll] at hf
    rcases List.mem_append.1 hf with hf | hf
    · exact Stmt.functions_stand s hs f hf
    · exact Stmt.functionsAll_stand ss hss f hf

theorem Block.functionsOption_stand {c : Chunk} {address : Nat → Nat} {outer : List Names} :
    ∀ (block : Option Block) {exit : Exit} {k : Nat} {s : Span} {ns : Names} {a b : Nat},
    Block.PlacedOption c address outer exit k s block ns a b →
    ∀ f ∈ Block.functionsOption address outer k block ns, f.Stands c address
  | none, _, _, _, _, _, _, _ => nofun
  | some (.mk _ body), _, _, _, _, _, _, h => by
    obtain ⟨m, hbody, -⟩ := h
    exact Stmt.functionsAll_stand body hbody

theorem Arm.functions_standSwitch {c : Chunk} {address : Nat → Nat} {outer : List Names} :
    ∀ (arms : List Arm) {exit : Exit} {k : Nat} {s : Span} {ns : Names} {a entry b : Nat},
    Arm.PlacedSwitch c address outer exit k s arms ns a entry b →
    ∀ f ∈ Arm.functionsAll address outer k arms ns, f.Stands c address
  | [], _, _, _, _, _, _, _, _ => nofun
  | .mk _ (.mk _ body) :: arms, _, _, _, _, _, _, _, h => by
    obtain ⟨m₁, m₂, m₃, m₄, m₅, next, entry', -, -, -, -, hbody, -, -, harms⟩ := h
    intro f hf
    rw [Arm.functionsAll] at hf
    rcases List.mem_append.1 hf with hf | hf
    · exact Stmt.functionsAll_stand body hbody f hf
    · exact Arm.functions_standSwitch arms harms f hf

theorem Arm.functions_standBranch {c : Chunk} {address : Nat → Nat} {outer : List Names} :
    ∀ (arms : List Arm) {exit : Exit} {k : Nat} {s : Span} {beyond : Nat} {ns : Names} {a b : Nat},
    Arm.PlacedBranch c address outer exit k s beyond arms ns a b →
    ∀ f ∈ Arm.functionsAll address outer k arms ns, f.Stands c address
  | [], _, _, _, _, _, _, _, _ => nofun
  | .mk _ (.mk _ body) :: arms, _, _, _, _, _, _, _, h => by
    obtain ⟨m₁, m₂, m₃, m₄, next, -, -, hbody, -, -, harms⟩ := h
    intro f hf
    rw [Arm.functionsAll] at hf
    rcases List.mem_append.1 hf with hf | hf
    · exact Stmt.functionsAll_stand body hbody f hf
    · exact Arm.functions_standBranch arms harms f hf

end

namespace Program

variable {c : Chunk} {address : Nat → Nat} {p : Program} {s : Settings}

/-- The top level of a run. -/
def site (hp : p.Placed c address) (hquiet : s.tracing = false) (hshort : c.code.size < 2 ^ 31)
    (fuel : Nat) : Site :=
  let l : Linked := ⟨s, p.functions address, address⟩
  have hplaced : ∀ f ∈ l.functions, f.Placed c l.address := by
    obtain ⟨m, hbody, -⟩ := hp
    exact fun f hf => (Stmt.functionsAll_stand p.body.stmts hbody f hf).placed
  { context := ⟨l, 1, [], fuel, Function.call l fuel 1⟩
    chunk := c
    below := [.noob]
    frame := ⟨0, 1, .noob⟩
    callers := []
    quiet := hquiet
    short := hshort
    base := rfl
    depth := rfl
    placed := hplaced
    calls := Function.shown hquiet hshort hplaced fuel 1 (by omega) }

/-- The run of a program ends behind its code, or with a value that the top level returns. -/
theorem follows_finish (e : Site) {span : Span} {ns : Names} {m₁ m₂ : Nat}
    (hcallers : e.callers = []) (hhalt : e.chunk.Has .halt 0 span m₁ m₂) (n : Nat) :
    e.Follows .none [] ns m₁ n fun flow st => conclude (flow.finish e.context.settings st) nofun := by
  refine ⟨fun st _ _ => ?_, nofun, fun v s st p q hr _ => ?_⟩
  · intro hknown
    simp only [Flow.finish, conclude_bind, conclude_throw]
    cases hsteps : st.steps with
    | zero =>
      rw [conclude_tick_zero hsteps]
      exact Leads.zero
    | succ n =>
      rw [conclude_tick hsteps]
      exact Leads.of_stops (Stops.halt (x := e.snapshot m₁ [] st) e.quiet hhalt)
  · intro hknown
    have hstop := Stops.ret (x := e.snapshot p [v] st) (f := e.frame) e.quiet hr
      (by simp only [snapshot, hcallers]) rfl
    simp only [Flow.finish, conclude_bind, conclude_throw]
    cases hsteps : st.steps with
    | zero =>
      simp only [Eval.print, Eval.operate, Eval.perform, conclude_bind, conclude_tick_zero hsteps]
      exact Leads.zero
    | succ n =>
      rw [conclude_print hsteps]
      exact Leads.of_stops hstop

private theorem shows_start (input : Text) (steps : Nat) (e : Site) (hframes : e.frame = ⟨0, 1, .noob⟩)
    (hcallers : e.callers = []) (hbelow : e.below = [.noob]) :
    ((Machine.idle #[]).start input).Shows (e.snapshot 0 [] (.initial input steps)) := by
  constructor
  · rfl
  · rw [snapshot, hbelow]
    have hempty : (Stack.cutTo .empty 0).Holds [] := ⟨rfl, List.nil_prefix⟩
    exact hempty.push .noob
  · rw [snapshot, hframes, hcallers]
    rfl
  all_goals rfl

/-- A chunk in which the code of a program stands is seen to do what the program does, as long as there is
fuel for its steps. -/
theorem observeWith_of_placed (hp : p.Placed c address) (hquiet : s.tracing = false)
    (hshort : c.code.size < 2 ^ 31) (input : Text) {n fuel : Nat} (hle : n ≤ fuel)
    (hknown : (p.observeWith address s fuel input n).Known) :
    Machine.observe c (((Machine.idle #[]).start input).runFor c s n) =
      p.observeWith address s fuel input n := by
  let e := p.site hp hquiet hshort fuel
  obtain ⟨m, hbody, hhalt⟩ := hp
  have hexec := Stmt.executesAll e p.body.stmts hbody List.nil_suffix
  have hshows := hexec (.initial input n) _ rfl hle (follows_finish e rfl hhalt n)
  rw [← conclude_bind] at hshows
  exact hshows hknown _ (shows_start input n e rfl rfl rfl)

theorem observe_of_placed (hp : p.Placed c address) (hquiet : s.tracing = false)
    (hshort : c.code.size < 2 ^ 31) (input : Text) (n : Nat)
    (hknown : (p.observe address s input n).Known) :
    Machine.observe c (((Machine.idle #[]).start input).runFor c s n) =
      p.observe address s input n :=
  observeWith_of_placed hp hquiet hshort input (Nat.le_refl n) hknown

end Program
end LolToolchain
