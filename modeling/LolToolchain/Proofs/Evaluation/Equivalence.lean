import LolToolchain.Proofs.Evaluation.Avoiding
import LolToolchain.Proofs.Evaluation.Simplification

/-!
The same is seen of the two versions of a program, if all comparisons that are folded are those of
`NUMBR`s. Calls follow each other by induction on how deep they are nested, which the fuel bounds; what a
function does is a matter of its statements alone.
-/
namespace LolToolchain

open Eval

variable {ns : List Text} {p : Program} {s : Settings} {address : Nat → Nat} {b : Bool}

/-- A program as its evaluation is linked. -/
def Program.linked (p : Program) (s : Settings) (address : Nat → Nat) : Linked :=
  ⟨s, p.functions address, address⟩

/-- A value stands for the same function in both versions. -/
private theorem Program.function?_folded (offset : Int64) :
    ((p.folded b).linked s address).function? offset =
      ((p.linked s address).function? offset).map (Function.folded b) := by
  unfold Linked.function? linked
  rw [functions_folded, List.find?_map]
  rfl

/-- A call that is `depth` deep. -/
def Program.context (p : Program) (s : Settings) (address : Nat → Nat) (depth : Nat)
    (outer : List Names) (fuel : Nat) : EvalContext :=
  let l := p.linked s address
  ⟨l, depth, outer, fuel, Function.call l fuel depth⟩

/-- The value of a call. -/
private theorem Flow.follows_value {P : Vars → Prop} (flow : Flow) :
    Follows P flow.value (fun _ => flow.value) fun _ vs => P vs := by
  cases flow with
  | next => exact Follows.readImplicit.bind fun _ => Follows.tick.bind fun _ => .pure fun _ h => h
  | left => exact Follows.give.andThen fun _ _ => Follows.tick.bind fun _ => .pure fun _ h => h
  | found v span => exact Follows.tick.bind fun _ => .pure fun _ h => h

/-- The end of a run. -/
theorem Flow.follows_finish {P : Vars → Prop} {Q : Empty → Vars → Prop} (flow : Flow) :
    Follows P (flow.finish s) (fun _ => flow.finish s) Q := by
  have hthrow (e : Finish) :
      Follows P (throw (some e) : Eval Empty) (fun _ => throw (some e)) Q :=
    .of_settles fun st _ => ⟨0, .error e, st, .of_free fun _ => rfl, nofun⟩
  cases flow with
  | next => exact Follows.tick.bind fun _ => hthrow _
  | left => exact hthrow _
  | found v span => exact Follows.print.bind fun _ => hthrow _

/-- The variables of a call are those of its parameters. -/
private theorem Function.FoldsNumbrs.numbrs_bind {f : Function} (h : f.FoldsNumbrs ns) (args : List Value) :
    Vars.Numbrs ns (f.bind args) := by
  rintro ⟨name, v⟩ hmem hname
  obtain ⟨hmem, -⟩ := List.of_mem_zip (List.mem_reverse.1 hmem)
  obtain ⟨param, hparam, rfl⟩ := List.mem_map.1 hmem
  exact absurd hname (h.params param hparam)

/-- The contexts of a call lead each other if the calls in them follow each other. -/
theorem Program.leads_context {depth fuel : Nat} {outer : List Names}
    (houter : ∀ names ∈ outer, Names.Avoid ns names)
    (hcalls : ∀ f ∈ p.functions address, ∀ args vs, Follows (· = vs)
      (Function.call ((p.folded b).linked s address) fuel depth (f.folded b) args)
      (fun m => Function.call ((p.folded !b).linked s address) m depth (f.folded !b) args)
      fun _ vs' => vs' = vs) :
    EvalContext.Leads ns ((p.folded b).context s address depth outer fuel)
      ((p.folded !b).context s address depth outer) where
  settings _ := rfl
  address _ := rfl
  depth _ := rfl
  outer _ := rfl
  passes _ := rfl
  avoids := houter
  call offset := by
    have hfunction (b : Bool) (fuel : Nat) :
        ((p.folded b).context s address depth outer fuel).function? offset =
          ((p.linked s address).function? offset).map (Function.folded b) :=
      function?_folded offset
    rw [hfunction]
    cases hf : (p.linked s address).function? offset with
    | none => exact fun m => (hfunction (!b) m).trans (congrArg _ hf)
    | some f =>
      exact ⟨f.folded !b, fun m => (hfunction (!b) m).trans (congrArg _ hf), rfl,
        hcalls f (List.mem_of_find?_eq_some hf)⟩

/-- What a call does, from the variables of its parameters on. -/
def Function.run (f : Function) (c : EvalContext) (caller : EvalState) : Eval Value := do
  let flow ← Stmt.evalAll c f.first f.body
  let v ← flow.value
  modify fun st => { st with vars := caller.vars, implicit := caller.implicit }
  return v

/-- A call gives the caller its variables back. -/
private theorem Function.FoldsNumbrs.follows_run {f : Function} (h : f.FoldsNumbrs ns) {c : EvalContext}
    {c' : Nat → EvalContext} (hc : c.Leads ns c') (hit : implicitName ∉ ns) (caller : EvalState)
    (args : List Value) :
    Follows (· = f.bind args) ((f.folded b).run c caller) (fun m => (f.folded !b).run (c' m) caller)
      fun _ vs => vs = caller.vars := by
  have hstart : Vars.Above ns [] (f.bind args) := ⟨h.numbrs_bind args, List.nil_suffix⟩
  have hbody := Stmt.followsAll (b := b) hc hit f.body f.first [] h.body
  refine (hbody.of_holds hstart).bind fun flow => (Flow.follows_value flow).bind fun v => ?_
  let back : EvalState → EvalState := fun st =>
    { st with vars := caller.vars, implicit := caller.implicit }
  have hback : Follows (Vars.Above ns []) (modify back) (fun _ => modify back) fun _ vs =>
      vs = caller.vars := .of_modify (fun _ _ => rfl) fun _ _ => rfl
  exact hback.bind fun _ => .pure fun _ h => h

/-- Of the two versions of a function the calls of the one follow those of the other. -/
private theorem Function.follows_call (h : p.foldsNumbrs ns = true) : ∀ (fuel depth : Nat),
    ∀ f ∈ p.functions address, ∀ args vs, Follows (· = vs)
      (Function.call ((p.folded b).linked s address) fuel depth (f.folded b) args)
      (fun m => Function.call ((p.folded !b).linked s address) m depth (f.folded !b) args)
      fun _ vs' => vs' = vs
  | 0, depth, f, _, args, _ => .spent fun m => Function.spends_call m depth (f.folded !b) args
  | fuel + 1, depth, f, hf, args, vs => by
    have hfolds := p.functions_foldNumbrs h f hf
    have hcontext := Program.leads_context (s := s) (b := b) hfolds.outer
      (follows_call h fuel (depth + 1))
    have hit := (Program.foldsNumbrs_parts h).1
    refine .of_succ fun st hst => ?_
    subst hst
    exact .of_run (fun _ _ => rfl) (hfolds.follows_run hcontext hit st args
      { st with vars := f.bind args, implicit := .noob } rfl)

/-- Of the two versions of a program the one follows the other. -/
private theorem Program.follows (h : p.foldsNumbrs ns = true) (fuel : Nat) :
    Follows (· = []) ((p.folded b).eval ((p.folded b).linked s address) fuel)
      (fun m => (p.folded !b).eval ((p.folded !b).linked s address) m) fun _ _ => True := by
  have hcontext : EvalContext.Leads ns ((p.folded b).context s address 1 [] fuel) _ :=
    leads_context nofun (Function.follows_call h fuel 1)
  obtain ⟨hit, hbody⟩ := foldsNumbrs_parts h
  have hstart : Vars.Above ns [] [] := ⟨nofun, List.nil_suffix⟩
  have hstmts := Stmt.followsAll (b := b) hcontext hit p.body.stmts 0 [] hbody
  simp only [eval, stmts_folded]
  exact (hstmts.of_holds hstart).bind fun flow => flow.follows_finish

/-- An observation without the place of its end. -/
def Observation.unspanned (o : Observation) : Observation :=
  { o with ending := o.ending.map Finish.unspanned }

private theorem Program.observeWith_of_run {input : Text} {fuel n : Nat} {e : Option Finish} {st : EvalState}
    (h : p.eval (p.linked s address) fuel (.initial input n) = (.error e, st)) :
    p.observeWith address s fuel input n = { st.seen with ending := e } := by
  rw [linked] at h
  rw [observeWith, h]
  rfl

/-- What is seen of one of the two versions of a program after some steps is seen of the other one after
certain other steps, unless one of them gets stuck. -/
theorem Program.observe_folded (h : p.foldsNumbrs ns = true) (b : Bool) (input : Text) (n : Nat)
    (hstuck : ((p.folded b).observe address s input n).ending ≠ some .stuck) : ∃ fuel, ∃ k ≤ fuel,
      ((p.folded !b).observeWith address s fuel input k).ending = some .stuck ∨
      ((p.folded !b).observeWith address s fuel input k).unspanned =
        ((p.folded b).observe address s input n).unspanned := by
  have hfollows : Follows _ ((p.folded b).eval ((p.folded b).linked s address) n) _ _ :=
    Program.follows h n
  have hmeets := hfollows (.initial input n) rfl
  obtain ⟨r, st, hr⟩ : ∃ r st, (p.folded b).eval ((p.folded b).linked s address) n
      (.initial input n) = (r, st) := ⟨_, _, rfl⟩
  obtain e | ⟨⟨⟩⟩ := r
  have hobserve : (p.folded b).observe address s input n = { st.seen with ending := e } :=
    observeWith_of_run hr
  rw [hr] at hmeets
  rw [hobserve] at hstuck ⊢
  cases e with
  | none =>
    rcases hmeets with ⟨N, hN⟩ | ⟨k, N, hN⟩
    · obtain ⟨e, st', hrun, rfl⟩ := hN N (Nat.le_refl N) N (Nat.le_refl N)
      exact ⟨N, N, Nat.le_refl N, .inl (congrArg Observation.ending (observeWith_of_run hrun))⟩
    · obtain ⟨st', hrun, hseen⟩ := hN (max N k) (Nat.le_max_left N k)
      refine ⟨max N k, k, Nat.le_max_right N k, .inr (congrArg Observation.unspanned ?_)⟩
      exact (observeWith_of_run hrun).trans (by rw [hseen])
  | some e =>
    obtain ⟨N, hN⟩ := hmeets.resolve_left fun he => hstuck (congrArg some he)
    obtain ⟨e', st', hrun, hlike⟩ := hN N (Nat.le_refl N) N (Nat.le_refl N)
    have hobserve' : (p.folded !b).observeWith address s N input N = _ := observeWith_of_run hrun
    refine ⟨N, N, Nat.le_refl N, hlike.imp (fun he => ?_) fun ⟨hending, hseen⟩ => ?_⟩
    · rw [hobserve', he]
    · simp only [hobserve', hseen, Observation.unspanned, Option.map_some, hending]

end LolToolchain
