import LolToolchain.Proofs.Evaluation.Extremes
import LolToolchain.Proofs.Evaluation.Following
import LolToolchain.Proofs.Evaluation.Versions
import LolToolchain.Proofs.Machine.Conversion

/-!
A comparison of `NUMBR`s and the ordering in its place follow each other. The operand that is found again
changes nothing and always gives the same `NUMBR`, so it makes no difference how often and in which
places it is evaluated; the other operand is evaluated once in each of the two, and may do anything that
leaves the variables of the call alone.
-/
namespace LolToolchain

/-- The names that are known to hold functions are not among `ns`. -/
def Names.Avoid (ns : List Text) (names : Names) : Prop :=
  ∀ name f, (name, some f) ∈ names → name ∉ ns

/-- The names `ns` hold `NUMBR`s. -/
def Vars.Numbrs (ns : List Text) (vs : Vars) : Prop :=
  ∀ x ∈ vs, x.1 ∈ ns → x.2.IsNumbr

/-- The names `ns` are not those of functions around a call. -/
def EvalContext.Avoids (ns : List Text) (c : EvalContext) : Prop :=
  ∀ names ∈ c.outer, Names.Avoid ns names

variable {ns : List Text} {vs : Vars}

/-- A name that only holds `NUMBR`s is not that of a function. -/
theorem EvalContext.Avoids.function?_eq_none {c : EvalContext} (h : c.Avoids ns) {name : Text}
    (hname : name ∈ ns) : Names.function? name c.outer = none := by
  cases hf : Names.function? name c.outer with
  | none => rfl
  | some f =>
    obtain ⟨names, hmem, hnames⟩ := Names.exists_mem_of_function? hf
    exact absurd hname (h names hmem name f hnames)

theorem Vars.Numbrs.of_lookup (h : vs.Numbrs ns) {name : Text} {v : Value} (hname : name ∈ ns)
    (hv : vs.lookup name = some v) : v.IsNumbr := by
  obtain ⟨l₁, l₂, rfl, -⟩ := List.lookup_eq_some_iff.1 hv
  exact h (name, v) (by simp) hname

theorem BinaryOp.apply_of_arithmetic? {op : BinaryOp} {f : Arithmetic} (h : op.arithmetic? = some f)
    (heap : Heap) (v w : Value) : op.apply heap v w = f.eval v w := by
  cases op <;> cases h <;> rfl

theorem Arithmetic.eval_numbr (f : Arithmetic) (p q : Int64) :
    f.eval (.numbr p) (.numbr q) = (f.onNumbr p q).map .numbr := by
  change ((f.onNumbr p q).map Number.int >>= fun n => .ok n.toValue) = _
  cases f.onNumbr p q <;> rfl

theorem Arithmetic.isNumbr_of_eval {f : Arithmetic} {v w r : Value} (hv : v.IsNumbr)
    (hw : w.IsNumbr) (h : f.eval v w = .ok r) : r.IsNumbr := by
  obtain ⟨p, rfl⟩ := hv
  obtain ⟨q, rfl⟩ := hw
  rw [f.eval_numbr] at h
  cases hpq : f.onNumbr p q with
  | error fault =>
    rw [hpq] at h
    cases h
  | ok n =>
    rw [hpq] at h
    exact ⟨n, (Except.ok.inj h).symm⟩

theorem Arithmetic.exists_onNumbr {f : Arithmetic} (h : f.isTotal = true) (p q : Int64) :
    ∃ r, f.onNumbr p q = .ok r := by
  cases f <;> first | exact ⟨_, rfl⟩ | cases h

namespace Eval

variable {α β : Type} {x : EvalContext → Eval α} {f : EvalContext → α → Eval β}

/-- An evaluation that takes a step, changes nothing and comes to `r`, where the variables are `vs`. -/
def Comes (ns : List Text) (vs : Vars) (x : EvalContext → Eval α) (r : Except Finish α) : Prop :=
  ∃ j, ∀ c : EvalContext, c.Avoids ns → ∀ st : EvalState, st.vars = vs →
    Settles (x c) st (j + 1) r st

namespace Comes

theorem give (v : Value) : Comes ns vs (fun _ => give v) (.ok v) :=
  ⟨0, fun _ _ _ _ => .of_tick fun _ => rfl⟩

theorem bind {a : α} {r : Except Finish β} (hx : Comes ns vs x (.ok a))
    (hf : Comes ns vs (fun c => f c a) r) : Comes ns vs (fun c => x c >>= f c) r := by
  obtain ⟨i, hx⟩ := hx
  obtain ⟨j, hf⟩ := hf
  exact ⟨j + 1 + i, fun c hc st hst => (hx c hc st hst).bind (hf c hc st hst)⟩

theorem bind_error {e : Finish} (hx : Comes ns vs x (.error e)) :
    Comes ns vs (fun c => x c >>= f c) (.error e) := by
  obtain ⟨i, hx⟩ := hx
  exact ⟨i, fun c hc st hst => (hx c hc st hst).bind_error⟩

theorem operate {span : Span} {f : Heap → Except Fault α} {a : α} (hf : ∀ heap, f heap = .ok a) :
    Comes ns vs (fun _ => operate span f) (.ok a) :=
  ⟨0, fun _ _ st _ => .perform (congrArg (Except.map (·, st.heap)) (hf st.heap))⟩

theorem operate_error {span : Span} {f : Heap → Except Fault α} {fault : Fault}
    (hf : ∀ heap, f heap = .error fault) :
    Comes ns vs (fun _ => Eval.operate span f) (.error (.failed fault span)) :=
  ⟨0, fun _ _ st _ => .perform_error (congrArg (Except.map (·, st.heap)) (hf st.heap))⟩

end Comes
end Eval

open Eval

namespace Expr

/-- The number that a steady expression gives, unless a name in it has no variable. -/
def number? (vs : Vars) : Expr → Option Int64
  | .int _ v => some v
  | .var _ id =>
    match vs.lookup id.name with
    | some (.numbr p) => some p
    | _ => none
  | .binary _ op a b => do
    let f ← op.arithmetic?
    (f.onNumbr (← a.number? vs) (← b.number? vs)).toOption
  | _ => none

theorem number?_of_same : ∀ {x y : Expr}, x.same y = true → x.isSteady ns = true →
    y.number? vs = x.number? vs
  | .int _ _, y, h, _ => by
    cases y with
    | int s v => rw [number?, number?, eq_of_beq h]
    | _ => cases h
  | .var _ id, y, h, _ => by
    cases y with
    | var s id' =>
      rw [same, beq_iff_eq] at h
      rw [number?, number?, h]
    | _ => cases h
  | .binary _ op a b, y, h, hx => by
    cases y with
    | binary s op' a' b' =>
      simp only [same, isSteady, Bool.and_eq_true, beq_iff_eq] at h hx
      rw [number?, number?, h.1.1, number?_of_same h.1.2 hx.1.2, number?_of_same h.2 hx.2]
    | _ => cases h

/-- What a steady expression comes to. -/
def steady (vs : Vars) (x : Expr) : Except Finish Value :=
  match x.number? vs with
  | some p => .ok (.numbr p)
  | none => .error .stuck

theorem comes_of_isSteady (hit : implicitName ∉ ns) (hvs : vs.Numbrs ns) :
    ∀ {x : Expr}, x.isSteady ns = true → Comes ns vs (fun c => x.eval c) (x.steady vs)
  | .int _ v, _ => .give (.numbr v)
  | .var _ id, h => by
    have hname : id.name ∈ ns := of_decide_eq_true h
    have hne : id.name ≠ implicitName := fun heq => hit (heq ▸ hname)
    refine ⟨0, fun c hc st hst => ?_⟩
    cases hlookup : vs.lookup id.name with
    | none =>
      have hread := Settles.readName_function (c := c) hne (hst ▸ hlookup)
      rw [hc.function?_eq_none hname] at hread
      simp only [steady, number?, hlookup]
      exact hread
    | some v =>
      obtain ⟨p, rfl⟩ := hvs.of_lookup hname hlookup
      simp only [steady, number?, hlookup]
      exact Settles.readName_variable hne (hst ▸ hlookup)
  | .binary span op a b, h => by
    simp only [isSteady, Bool.and_eq_true, Option.any_eq_true] at h
    obtain ⟨⟨⟨f, hop, htotal⟩, ha⟩, hb⟩ := h
    have ha := comes_of_isSteady hit hvs ha
    have hb := comes_of_isSteady hit hvs hb
    rw [steady] at ha hb ⊢
    rw [number?, hop]
    cases hp : a.number? vs with
    | none =>
      rw [hp] at ha
      exact ha.bind_error
    | some p =>
      rw [hp] at ha
      cases hq : b.number? vs with
      | none =>
        rw [hq] at hb
        exact ha.bind hb.bind_error
      | some q =>
        rw [hq] at hb
        obtain ⟨r, hr⟩ := f.exists_onNumbr htotal p q
        have happly (heap : Heap) : op.apply heap (.numbr p) (.numbr q) = .ok (.numbr r) := by
          rw [BinaryOp.apply_of_arithmetic? hop, f.eval_numbr, hr]
          rfl
        change Comes ns vs _ (match (f.onNumbr p q).toOption with | some p => _ | none => _)
        rw [hr]
        exact Comes.bind (f := fun c v => do
          let w ← b.eval c
          Eval.operate span fun heap => op.apply heap v w) ha (hb.bind (.operate happly))

/-- What the rest of an evaluation comes to, compared with the fault or the value that it should come
to: that, at some place, or it gets stuck. -/
def Agrees (v : Except Fault Value) (r : Except Finish Value) : Prop :=
  r = .error .stuck ∨ match v with
    | .ok a => r = .ok a
    | .error f => ∃ span, r = .error (.failed f span)

/-- An evaluation of `rest` with others around it that change nothing: those in front of it, and those
behind it, which come to what `judged` says of its value. -/
inductive Wraps (ns : List Text) (vs : Vars) (good : Value → Prop)
    (judged : Value → Except Fault Value) (rest : EvalContext → Eval Value) :
    (EvalContext → Eval Value) → Prop
  | front {α : Type} {x : EvalContext → Eval α} {f : EvalContext → α → Eval Value} {a : α} :
    Comes ns vs x (.ok a) → Wraps ns vs good judged rest (fun c => f c a) →
    Wraps ns vs good judged rest (fun c => x c >>= f c)
  | stuck {α : Type} {x : EvalContext → Eval α} {f : EvalContext → α → Eval Value} :
    Comes ns vs x (.error .stuck) → Wraps ns vs good judged rest (fun c => x c >>= f c)
  | behind {f : EvalContext → Value → Eval Value} :
    (∀ w, good w → ∃ r, Comes ns vs (fun c => f c w) r ∧ Agrees (judged w) r) →
    Wraps ns vs good judged rest (fun c => rest c >>= f c)

end Expr

namespace Eval

variable {α β : Type} {x : Eval α} {f : α → Eval β} {y : Nat → Eval β} {a : α} {st : EvalState}
variable {j : Nat} {T : β → Vars → Prop}

/-- What changes nothing may stand in front of the evaluation that is followed, if the one that follows
takes a step. -/
private theorem Follows.front (hx : ∀ st : EvalState, st.vars = vs → Settles x st j (.ok a) st)
    (hy : ∀ m, Spends (y m)) (h : Follows (· = vs) (f a) y T) : Follows (· = vs) (x >>= f) y T := by
  intro st hst
  rw [Effect.run_bind]
  obtain hspent | ⟨n, hrun⟩ := (hx st hst).run
  · rw [hspent]
    exact .inr (.of_spends hy rfl)
  · rw [hrun]
    exact h (st.withSteps n) hst

private theorem Follows.front_stuck
    (hx : ∀ st : EvalState, st.vars = vs → Settles x st j (.error .stuck) st)
    (hy : ∀ m, Spends (y m)) : Follows (· = vs) (x >>= f) y T := by
  intro st hst
  rw [Effect.run_bind]
  obtain hspent | ⟨n, hrun⟩ := (hx st hst).run
  · rw [hspent]
    exact .inr (.of_spends hy rfl)
  · rw [hrun]
    exact .inl rfl

/-- What changes nothing may stand in front of the evaluation that follows. -/
private theorem Follows.behind {x : Eval β} {y : Nat → Eval α} {g : Nat → α → Eval β}
    (hy : ∀ m, ∀ st : EvalState, st.vars = vs → Settles (y m) st j (.ok a) st)
    (h : Follows (· = vs) x (fun m => g m a) T) : Follows (· = vs) x (fun m => y m >>= g m) T :=
  fun st hst => Meets.of_gives (.of_settles fun m => hy m st hst) (h st hst)

/-- What comes to the same verdict follows each other. -/
private theorem Follows.of_comes {x y : EvalContext → Eval Value} {r r' : Except Finish Value}
    {v : Except Fault Value} (hx : Comes ns vs x r) (hy : Comes ns vs y r') (h : Expr.Agrees v r)
    (h' : Expr.Agrees v r') {c : EvalContext} {c' : Nat → EvalContext} (hc : c.Avoids ns)
    (hc' : ∀ m, (c' m).Avoids ns) :
    Follows (· = vs) (x c) (fun m => y (c' m)) fun _ vs' => vs' = vs := by
  obtain ⟨i, hx⟩ := hx
  obtain ⟨j, hy⟩ := hy
  intro st hst
  have hx := hx c hc st hst
  have hy := fun m => hy (c' m) (hc' m) st hst
  rcases h' with rfl | h'
  · exact .of_sticks (.of_settles hy fun _ => rfl) _
  · obtain hspent | ⟨n, hrun⟩ := hx.run
    · rw [hspent]
      exact .inr (.of_settles hy)
    · rw [hrun]
      rcases h with rfl | h
      · exact .inl rfl
      · cases v with
        | ok a =>
          obtain ⟨rfl, rfl⟩ := And.intro h h'
          exact .inr ⟨.of_settles fun m => ⟨(hy m).paid, (hy m).spent⟩, hst⟩
        | error f =>
          obtain ⟨⟨span, rfl⟩, span', rfl⟩ := And.intro h h'
          exact .inr (.of_settles hy fun _ => .inr ⟨rfl, rfl⟩)

end Eval

namespace Expr

variable {good : Value → Prop} {judged : Value → Except Fault Value}
variable {x y rest rest' : EvalContext → Eval Value} {c : EvalContext} {c' : Nat → EvalContext}

/-- If the evaluations in the middle follow each other and what is around them comes to the same, the
whole ones follow each other. -/
theorem Wraps.follows (hx : Wraps ns vs good judged rest x) (hy : Wraps ns vs good judged rest' y)
    (hc : c.Avoids ns) (hc' : ∀ m, (c' m).Avoids ns) (hspends : ∀ m, Spends (y (c' m)))
    (hrest : Follows (· = vs) (rest c) (fun m => rest' (c' m)) fun w vs' => vs' = vs ∧ good w) :
    Follows (· = vs) (x c) (fun m => y (c' m)) fun _ vs' => vs' = vs := by
  induction hx with
  | front hlead _ ih =>
    obtain ⟨j, hlead⟩ := hlead
    exact .front (hlead c hc) hspends ih
  | stuck hlead =>
    obtain ⟨j, hlead⟩ := hlead
    exact .front_stuck (hlead c hc) hspends
  | behind hf =>
    clear hspends
    induction hy with
    | front hlead _ ih =>
      obtain ⟨j, hlead⟩ := hlead
      exact .behind (fun m => hlead (c' m) (hc' m)) ih
    | stuck hlead =>
      obtain ⟨j, hlead⟩ := hlead
      exact .of_sticks fun st hst =>
        Ends.bind (.of_settles (fun m => hlead (c' m) (hc' m) st hst) fun _ => rfl)
    | behind hg =>
      refine hrest.bind fun w => .of_each fun vs' ⟨hvs, hw⟩ => ?_
      obtain ⟨r, hr, hagrees⟩ := hf w hw
      obtain ⟨r', hr', hagrees'⟩ := hg w hw
      subst hvs
      exact .of_comes hr hr' hagrees hagrees' hc hc'

variable {op : BinaryOp} {m : Extreme} {p : Int64} {w : Value} {r : Except Fault Bool}
variable {span s : Span} {matched other operand left right a b : Expr}

/-- An extreme that is compared with the number behind it. -/
private theorem Yields.comes {extreme : Heap → Except Fault Value} (h : Yields op p extreme r)
    (hother : Comes ns vs (fun c => other.eval c) (.ok (.numbr p))) :
    ∃ r', Comes ns vs (fun c => do
      let e ← operate s extreme
      let v ← other.eval c
      operate span fun heap => op.apply heap e v) r' ∧ Agrees (r.map .troof) r' := by
  cases r with
  | error f => exact ⟨_, (Comes.operate_error h).bind_error, .inr ⟨s, rfl⟩⟩
  | ok b =>
    obtain ⟨e, hextreme, hcompare⟩ := h
    refine ⟨.ok (.troof b), ?_, .inr rfl⟩
    exact Comes.bind (f := fun c e => do
      let v ← other.eval c
      operate span fun heap => op.apply heap e v) (.operate hextreme)
      (hother.bind (.operate fun heap => (hcompare heap).1))

/-- An extreme that is compared with the number in front of it. -/
private theorem Yields.comes_behind {extreme : Heap → Except Fault Value} (h : Yields op p extreme r) :
    ∃ r', Comes ns vs (fun _ => do
      let e ← operate s extreme
      operate span fun heap => op.apply heap (.numbr p) e) r' ∧ Agrees (r.map .troof) r' := by
  cases r with
  | error f => exact ⟨_, (Comes.operate_error h).bind_error, .inr ⟨s, rfl⟩⟩
  | ok b =>
    obtain ⟨e, hextreme, hcompare⟩ := h
    refine ⟨.ok (.troof b), ?_, .inr rfl⟩
    exact Comes.bind (f := fun _ e => operate span fun heap => op.apply heap (.numbr p) e)
      (.operate hextreme) (.operate fun heap => (hcompare heap).2)

/-- What the comparison of a steady operand with an extreme of itself and another one comes to. -/
def Extreme.verdict (m : Extreme) (op : BinaryOp) (vs : Vars) (matched : Expr) (w : Value) :
    Except Fault Value :=
  m.order op #[] ((matched.number? vs).getD 0) w

/-- A comparison as it is written. -/
theorem wraps_comparison (hop : op = .equal ∨ op = .notEqual)
    (hmatched : Comes ns vs (fun c => matched.eval c) (matched.steady vs))
    (hother : Comes ns vs (fun c => other.eval c) (matched.steady vs))
    (hoperands : a = matched ∧ b = operand ∨ a = operand ∧ b = matched)
    (hsides : left = .binary s m.op a b ∧ right = other ∨
      right = .binary s m.op a b ∧ left = other) :
    Wraps ns vs (fun w => op = .notEqual → w.IsNumbr) (m.verdict op vs matched)
      (fun c => operand.eval c) fun c => (binary span op left right).eval c := by
  rw [steady] at hmatched hother
  cases hp : matched.number? vs with
  | none =>
    rw [hp] at hmatched hother
    rcases hsides with ⟨rfl, rfl⟩ | ⟨rfl, rfl⟩
    · rcases hoperands with ⟨rfl, rfl⟩ | ⟨rfl, rfl⟩
      · simp only [eval, bind_assoc]
        exact .stuck hmatched
      · simp only [eval, bind_assoc]
        exact .behind fun w _ => ⟨_, hmatched.bind_error, .inl rfl⟩
    · simp only [eval]
      exact .stuck hother
  | some p =>
    rw [hp] at hmatched hother
    have hverdict (w : Value) (hw : op = .notEqual → w.IsNumbr) :
        ∃ r, m.Verdict op p w r ∧ m.verdict op vs matched w = r.map .troof := by
      obtain ⟨r, hr⟩ := m.exists_verdict (p := p) hop hw
      exact ⟨r, hr, by rw [Extreme.verdict, hp]; exact hr.order #[]⟩
    rcases hsides with ⟨rfl, rfl⟩ | ⟨rfl, rfl⟩
    · rcases hoperands with ⟨rfl, rfl⟩ | ⟨rfl, rfl⟩
      · simp only [eval, bind_assoc]
        refine .front hmatched (.behind fun w hw => ?_)
        obtain ⟨r, hr, hjudged⟩ := hverdict w hw
        exact hjudged ▸ hr.left.comes hother
      · simp only [eval, bind_assoc]
        refine .behind fun w hw => ?_
        obtain ⟨r, hr, hjudged⟩ := hverdict w hw
        obtain ⟨r', hr', hagrees⟩ := hr.right.comes hother
        exact ⟨r', hmatched.bind hr', hjudged ▸ hagrees⟩
    · rcases hoperands with ⟨rfl, rfl⟩ | ⟨rfl, rfl⟩
      · simp only [eval, bind_assoc]
        refine .front hother (.front hmatched (.behind fun w hw => ?_))
        obtain ⟨r, hr, hjudged⟩ := hverdict w hw
        exact hjudged ▸ hr.left.comes_behind
      · simp only [eval, bind_assoc]
        refine .front hother (.behind fun w hw => ?_)
        obtain ⟨r, hr, hjudged⟩ := hverdict w hw
        obtain ⟨r', hr', hagrees⟩ := hr.right.comes_behind
        exact ⟨r', hmatched.bind hr', hjudged ▸ hagrees⟩

/-- The ordering that takes its place. -/
theorem wraps_ordering (hop : op = .equal ∨ op = .notEqual)
    (hmatched : Comes ns vs (fun c => matched.eval c) (matched.steady vs)) :
    Wraps ns vs (fun w => op = .notEqual → w.IsNumbr) (m.verdict op vs matched)
      (fun c => operand.eval c) fun c => (m.ordering span op matched operand).eval c := by
  have hverdict (w : Value) (hw : op = .notEqual → w.IsNumbr) {p : Int64}
      (hp : matched.number? vs = some p) :
      ∃ r, Comes ns vs (fun _ => operate span fun heap => m.order op heap p w) r ∧
        Agrees (m.verdict op vs matched w) r := by
    obtain ⟨r, hr⟩ := m.exists_verdict (p := p) hop hw
    rw [Extreme.verdict, hp, Option.getD_some, hr.order]
    cases r with
    | error f => exact ⟨_, .operate_error hr.order, .inr ⟨span, rfl⟩⟩
    | ok b => exact ⟨_, .operate hr.order, .inr rfl⟩
  rw [steady] at hmatched
  rcases hop with rfl | rfl
  · change Wraps _ _ _ _ _ fun c => do
      let v ← matched.eval c
      let w ← operand.eval c
      operate span fun heap => (if m.isGreater then BinaryOp.ge else .le).apply heap v w
    cases hp : matched.number? vs with
    | none =>
      rw [hp] at hmatched
      exact .stuck hmatched
    | some p =>
      rw [hp] at hmatched
      exact .front hmatched (.behind fun w hw => hverdict w hw hp)
  · change Wraps _ _ _ _ _ fun c => do
      let w ← operand.eval c
      let v ← matched.eval c
      operate span fun heap => (if m.isGreater then BinaryOp.gt else .lt).apply heap w v
    refine .behind fun w hw => ?_
    cases hp : matched.number? vs with
    | none =>
      rw [hp] at hmatched
      exact ⟨_, hmatched.bind_error, .inl rfl⟩
    | some p =>
      rw [hp] at hmatched
      obtain ⟨r, hr, hagrees⟩ := hverdict w hw hp
      exact ⟨r, hmatched.bind hr, hagrees⟩

end Expr

/-- What is fixed for a call and for the one that follows it, whose fuel is counted anew: both see the same
names, none of `ns` among those of functions, and the calls that they make follow each other. -/
structure EvalContext.Leads (ns : List Text) (c : EvalContext) (c' : Nat → EvalContext) : Prop where
  settings : ∀ m, (c' m).settings = c.settings
  address : ∀ m, (c' m).address = c.address
  depth : ∀ m, (c' m).depth = c.depth
  outer : ∀ m, (c' m).outer = c.outer
  passes : ∀ m, (c' m).passes = m
  avoids : c.Avoids ns
  call : ∀ offset, match c.function? offset with
    | none => ∀ m, (c' m).function? offset = none
    | some f => ∃ f' : Function, (∀ m, (c' m).function? offset = some f') ∧ f'.params = f.params ∧
        ∀ args vs, Follows (· = vs) (c.call f args) (fun m => (c' m).call f' args) fun _ vs' => vs' = vs

namespace EvalContext.Leads

variable {c : EvalContext} {c' : Nat → EvalContext} {b : Bool}

theorem avoids_right (h : c.Leads ns c') (m : Nat) : (c' m).Avoids ns := by
  rw [Avoids, h.outer]
  exact h.avoids

private theorem readName_eq (h : c.Leads ns c') (id : Ident) (m : Nat) :
    readName c id = readName (c' m) id := by
  unfold readName
  rw [h.outer]

/-- The value of a name, which is a `NUMBR` if the name only holds such. -/
theorem readName (h : c.Leads ns c') (hit : implicitName ∉ ns) (hvs : vs.Numbrs ns) (id : Ident) :
    Follows (· = vs) (Eval.readName c id) (fun m => Eval.readName (c' m) id) fun v vs' =>
      vs' = vs ∧ (id.name ∈ ns → v.IsNumbr) := by
  refine (Follows.readName.congr (h.readName_eq id)).mono (fun _ h => h) fun v vs' hv => ?_
  refine ⟨hv.1, fun hname => ?_⟩
  rcases hv.2 fun heq => hit (heq ▸ hname) with hlookup | ⟨address, hf, -⟩
  · exact hvs.of_lookup hname hlookup
  · rw [h.avoids.function?_eq_none hname] at hf
    cases hf

theorem invoke (h : c.Leads ns c') {span : Span} {callee : Value} {args : List Value} :
    Follows (· = vs) (Eval.invoke c span callee args) (fun m => Eval.invoke (c' m) span callee args)
      fun _ vs' => vs' = vs := by
  refine Follows.tick.bind fun _ => ?_
  cases callee with
  | funkshon offset =>
    have hcall := h.call offset
    cases hf : c.function? offset with
    | none =>
      rw [hf] at hcall
      simp only [hf, hcall]
      exact .fail
    | some f =>
      rw [hf] at hcall
      obtain ⟨f', hf', hparams, hfollows⟩ := hcall
      simp only [hf, hf', hparams, h.settings, h.depth]
      exact .ite (fun _ => .fail_bind) fun _ => .ite (fun _ => .fail_bind) fun _ => hfollows args vs
  | _ => exact .fail

end EvalContext.Leads

namespace Expr

/-- The parts of a comparison that is folded, as they are written: the steady operand and the other one,
which are as they were in the extreme, and the steady one that is compared with it. -/
theorem Folds.exists_operand {op : BinaryOp} {left right other matched rest : Expr} {m : Extreme}
    (h : Folds op left.simplify right.simplify m other matched rest)
    (hsteady : matched.isSteady ns = true) :
    ∃ s a b operand, (left = .binary s m.op a b ∧ right = other ∨
        right = .binary s m.op a b ∧ left = other) ∧
      (a = matched ∧ b = operand ∨ a = operand ∧ b = matched) ∧ operand.simplify = rest := by
  obtain ⟨hsame, hoperands⟩ := h.operands_eq
  have hother := isSteady_of_same hsame hsteady
  have hparts {x : Expr} {s : Span} (hx : x.simplify = .binary s m.op m.left m.right) :
      ∃ a b operand, x = .binary s m.op a b ∧ (a = matched ∧ b = operand ∨ a = operand ∧ b = matched) ∧
        operand.simplify = rest := by
    obtain ⟨a, b, hx, ha, hb⟩ := Extreme.eq_of_simplify hx
    rcases hoperands with ⟨hl, hr⟩ | ⟨hl, hr⟩
    · refine ⟨a, b, b, hx, .inl ⟨?_, rfl⟩, hb.trans hr⟩
      have hkept : a.simplify = a := eq_of_simplify_steady (by rwa [ha, hl])
      rw [← hl, ← ha, hkept]
    · refine ⟨a, b, a, hx, .inr ⟨rfl, ?_⟩, ha.trans hl⟩
      have hkept : b.simplify = b := eq_of_simplify_steady (by rwa [hb, hr])
      rw [← hr, ← hb, hkept]
  obtain ⟨s, ⟨hx, hy⟩ | ⟨hx, hy⟩⟩ := h.sides_eq
  · obtain ⟨a, b, operand, hx, hoperands, hrest⟩ := hparts hx
    have hy := (eq_of_simplify_steady (hy ▸ hother)).symm.trans hy
    exact ⟨s, a, b, operand, .inl ⟨hx, hy⟩, hoperands, hrest⟩
  · obtain ⟨a, b, operand, hx, hoperands, hrest⟩ := hparts hx
    have hy := (eq_of_simplify_steady (hy ▸ hother)).symm.trans hy
    exact ⟨s, a, b, operand, .inr ⟨hx, hy⟩, hoperands, hrest⟩

/-- The other operand is a proper part of the comparison, and all in it that is folded is of `NUMBR`s if
this is so of the comparison. -/
theorem operand_of_sides {span s : Span} {op op' : BinaryOp} {left right other matched operand a b : Expr}
    (hsides : left = .binary s op' a b ∧ right = other ∨ right = .binary s op' a b ∧ left = other)
    (hoperands : a = matched ∧ b = operand ∨ a = operand ∧ b = matched)
    (hleft : left.foldsNumbrs ns = true) (hright : right.foldsNumbrs ns = true) :
    sizeOf operand < sizeOf (binary span op left right) ∧ operand.foldsNumbrs ns = true := by
  rcases hsides with ⟨rfl, rfl⟩ | ⟨rfl, rfl⟩ <;> rcases hoperands with ⟨rfl, rfl⟩ | ⟨rfl, rfl⟩ <;>
    simp only [foldsNumbrs, Bool.and_eq_true, binary.sizeOf_spec] at hleft hright ⊢ <;> grind

variable (ns : List Text) (vs : Vars) (b : Bool) (c : EvalContext) (c' : Nat → EvalContext)

/-- Of the two versions of an expression the one follows the other. They leave the variables alone, and give
a `NUMBR` where it can be seen that they do. -/
def Pairs (x : Expr) : Prop :=
  Follows (· = vs) ((x.folded b).eval c) (fun m => (x.folded !b).eval (c' m)) fun v vs' =>
    vs' = vs ∧ (x.isNumbr ns = true → v.IsNumbr)

variable {ns vs b c c'}

theorem Pairs.plain {x : Expr} (h : Pairs ns vs b c c' x) :
    Follows (· = vs) ((x.folded b).eval c) (fun m => (x.folded !b).eval (c' m)) fun _ vs' =>
      vs' = vs :=
  h.mono (fun _ h => h) fun _ _ h => h.1

theorem Pairs.of_plain {x : Expr} (hx : x.isNumbr ns = false)
    (h : Follows (· = vs) ((x.folded b).eval c) (fun m => (x.folded !b).eval (c' m)) fun _ vs' =>
      vs' = vs) : Pairs ns vs b c c' x :=
  h.mono (fun _ h => h) fun _ _ h => ⟨h, fun hn => absurd (hx.symm.trans hn) Bool.false_ne_true⟩

/-- A comparison that is folded. -/
theorem Folds.pairs {span : Span} {op : BinaryOp} {left right other matched rest operand : Expr}
    {m : Extreme} {s : Span} {x y : Expr}
    (h : Folds op left.simplify right.simplify m other matched rest) (hc : c.Leads ns c')
    (hit : implicitName ∉ ns) (hvs : vs.Numbrs ns) (hsteady : matched.isSteady ns = true)
    (hsides : left = .binary s m.op x y ∧ right = other ∨ right = .binary s m.op x y ∧ left = other)
    (hoperands : x = matched ∧ y = operand ∨ x = operand ∧ y = matched)
    (hrest : operand.simplify = rest) (hnumbr : op = .notEqual → operand.isNumbr ns = true)
    (hoperand : Pairs ns vs b c c' operand) : Pairs ns vs b c c' (.binary span op left right) := by
  have hsame := h.operands_eq.1
  have hmatched := comes_of_isSteady hit hvs hsteady
  have hother := comes_of_isSteady hit hvs (isSteady_of_same hsame hsteady)
  rw [steady, number?_of_same hsame hsteady, ← steady] at hother
  have hcomparison : Wraps ns vs (fun w => op = .notEqual → w.IsNumbr) (m.verdict op vs matched)
      (fun c => operand.eval c) fun c => (binary span op left right).eval c :=
    wraps_comparison h.operator hmatched hother hoperands hsides
  have hordering : Wraps ns vs (fun w => op = .notEqual → w.IsNumbr) (m.verdict op vs matched)
      (fun c => operand.simplify.eval c) fun c => (binary span op left right).simplify.eval c := by
    rw [simplify, h.fold_eq, hrest]
    exact wraps_ordering h.operator hmatched
  have hmiddle := hoperand.mono (fun _ h => h) fun w vs' hw => And.intro hw.1 fun hop => hw.2 (hnumbr hop)
  have hnot : (binary span op left right).isNumbr ns = false := by
    rw [isNumbr, (h.not_arithmetic ns span).1]
    rfl
  cases b with
  | false =>
    exact .of_plain hnot
      (hcomparison.follows hordering hc.avoids hc.avoids_right (fun _ => Expr.spends _) hmiddle)
  | true =>
    exact .of_plain hnot
      (hordering.follows hcomparison hc.avoids hc.avoids_right (fun _ => Expr.spends _) hmiddle)

theorem pairs_all : ∀ {xs : List Expr}, (∀ x ∈ xs, Pairs ns vs b c c' x) →
    Follows (· = vs) (evalAll c (xs.map (folded b))) (fun m => evalAll (c' m) (xs.map (folded !b)))
      fun _ vs' => vs' = vs
  | [], _ => .pure fun _ h => h
  | x :: xs, h => by
    obtain ⟨hx, hxs⟩ := List.forall_mem_cons.1 h
    exact hx.plain.bind fun v => (pairs_all hxs).bind fun vs => .pure fun _ h => h

theorem pairs_each {f : Heap → Value → Value → Except Fault Value} {s : Span} :
    ∀ {xs : List Expr} {v : Value}, (∀ x ∈ xs, Pairs ns vs b c c' x) →
    Follows (· = vs) (evalEach c f s v (xs.map (folded b)))
      (fun m => evalEach (c' m) f s v (xs.map (folded !b))) fun _ vs' => vs' = vs
  | [], _, _ => .pure fun _ h => h
  | x :: xs, v, h => by
    obtain ⟨hx, hxs⟩ := List.forall_mem_cons.1 h
    exact hx.plain.bind fun w => Follows.operate.andThen fun v _ => pairs_each hxs

theorem pairs_joined : ∀ {xs : List Expr} {v : Value}, (∀ x ∈ xs, Pairs ns vs b c c' x) →
    Follows (· = vs) (evalJoined c v (xs.map (folded b)))
      (fun m => evalJoined (c' m) v (xs.map (folded !b))) fun _ vs' => vs' = vs
  | [], _, _ => .pure fun _ h => h
  | x :: xs, v, h => by
    obtain ⟨hx, hxs⟩ := List.forall_mem_cons.1 h
    simp only [List.map_cons, evalJoined, span_folded]
    exact hx.plain.bind fun w => Follows.operate.andThen fun v _ => pairs_joined hxs

theorem foldsNumbrsAll_iff {xs : List Expr} :
    foldsNumbrsAll ns xs = true ↔ ∀ x ∈ xs, x.foldsNumbrs ns = true := by
  induction xs with
  | nil => simp [foldsNumbrsAll]
  | cons x xs ih => rw [foldsNumbrsAll, Bool.and_eq_true, List.forall_mem_cons, ih]

end Expr

/-- The values of the variables in a string literal. -/
private theorem Splice.pairs_all {ns : List Text} {vs : Vars} {c : EvalContext} {c' : Nat → EvalContext}
    (hc : c.Leads ns c') (hit : implicitName ∉ ns) (hvs : vs.Numbrs ns) : ∀ ss : List Splice,
    Follows (· = vs) (evalAll c ss) (fun m => evalAll (c' m) ss) fun _ vs' => vs' = vs
  | [] => .pure fun _ h => h
  | s :: ss => (hc.readName hit hvs s.name).andThen fun _ _ =>
      (Splice.pairs_all hc hit hvs ss).bind fun _ => .pure fun _ h => h

private theorem Value.isNumbr_of_count {heap : Heap} {v w : Value} (h : v.count heap = .ok w) :
    w.IsNumbr := by
  cases v with
  | bukkit r =>
    obtain ⟨elems, -, helems⟩ := exists_of_bind h
    cases helems
    exact ⟨_, rfl⟩
  | yarn t =>
    cases h
    exact ⟨_, rfl⟩
  | _ => cases h

theorem Value.isNumbr_of_cast {heap heap' : Heap} {v w : Value}
    (h : v.cast heap .numbr = .ok (w, heap')) : w.IsNumbr := by
  have htype := typeName?_of_cast h
  cases w with
  | numbr p => exact ⟨p, rfl⟩
  | _ => cases htype

namespace Expr

variable {ns : List Text} {vs : Vars} {b : Bool} {c : EvalContext} {c' : Nat → EvalContext}

/-- An operation on the values of two expressions. -/
private theorem Pairs.binary {span : Span} {op : BinaryOp} {x y : Expr} (hx : Pairs ns vs b c c' x)
    (hy : Pairs ns vs b c c' y)
    (hkept : ∀ b, (Expr.binary span op x y).folded b = .binary span op (x.folded b) (y.folded b)) :
    Pairs ns vs b c c' (.binary span op x y) := by
  rw [Pairs, hkept, hkept]
  refine hx.andThen fun v hv => hy.andThen fun w hw => ?_
  refine Follows.operate.mono (fun _ h => h) fun r vs' ⟨hvs, heap, hr⟩ => ⟨hvs, fun hop => ?_⟩
  simp only [isNumbr, Bool.and_eq_true, Option.isSome_iff_exists] at hop
  obtain ⟨⟨⟨f, hf⟩, hxn⟩, hyn⟩ := hop
  rw [BinaryOp.apply_of_arithmetic? hf] at hr
  exact Arithmetic.isNumbr_of_eval (hv hxn) (hw hyn) hr

/-- Of the two versions of an expression the one follows the other. -/
theorem pairs (hc : c.Leads ns c') (hit : implicitName ∉ ns) (hvs : vs.Numbrs ns) :
    ∀ x : Expr, x.foldsNumbrs ns = true → Pairs ns vs b c c' x
  | .int _ v, _ => by
    rw [Pairs, folded_int, folded_int]
    exact Follows.give.mono (fun _ h => h) fun _ _ h => ⟨h.1, fun _ => ⟨v, h.2⟩⟩
  | .float _ _, _ => .of_plain rfl (by rw [folded_float, folded_float]; exact Follows.give.alone)
  | .string _ _, _ => .of_plain rfl (by rw [folded_string, folded_string]; exact Follows.give.alone)
  | .bool _ _, _ => .of_plain rfl (by rw [folded_bool, folded_bool]; exact Follows.give.alone)
  | .null _, _ => .of_plain rfl (by rw [folded_null, folded_null]; exact Follows.give.alone)
  | .it _, _ => .of_plain rfl (by rw [folded_it, folded_it]; exact .readImplicit)
  | .var _ id, _ => by
    rw [Pairs, folded_var, folded_var]
    exact (hc.readName hit hvs id).mono (fun _ h => h) fun _ _ h => ⟨h.1, fun hid =>
      h.2 (of_decide_eq_true hid)⟩
  | .interp s text splices, _ => by
    refine .of_plain rfl ?_
    rw [folded_interp, folded_interp]
    exact (Splice.pairs_all hc hit hvs splices).bind fun _ => Follows.operate.alone
  | .list s xs, hx => by
    have hxs := pairs_all fun x hmem => pairs hc hit hvs x (foldsNumbrsAll_iff.1 hx x hmem)
    refine .of_plain rfl ?_
    rw [folded_list, folded_list]
    exact hxs.bind fun _ => Follows.perform.alone
  | .call s id xs, hx => by
    have hxs := pairs_all fun x hmem => pairs hc hit hvs x (foldsNumbrsAll_iff.1 hx x hmem)
    refine .of_plain rfl ?_
    rw [folded_call, folded_call]
    exact (hc.readName hit hvs id).andThen fun _ _ => hxs.bind fun _ => hc.invoke
  | .concat s [], _ => .of_plain rfl (by rw [folded_concat, folded_concat]; exact Follows.give.alone)
  | .concat s [x], hx => by
    have hx := pairs hc hit hvs x (foldsNumbrsAll_iff.1 hx x List.mem_cons_self)
    refine .of_plain rfl ?_
    rw [folded_concat, folded_concat]
    exact Follows.give.andThen fun _ _ => hx.plain.bind fun _ => Follows.operate.alone
  | .concat s (x :: y :: xs), hx => by
    have hxs : ∀ z ∈ x :: y :: xs, Pairs ns vs b c c' z := fun z hmem =>
      pairs hc hit hvs z (foldsNumbrsAll_iff.1 hx z hmem)
    obtain ⟨hx, hxs⟩ := List.forall_mem_cons.1 hxs
    refine .of_plain rfl ?_
    rw [folded_concat, folded_concat]
    exact hx.plain.bind fun _ => pairs_each hxs
  | .cast s x t, hx => by
    rw [Pairs, folded_cast, folded_cast]
    refine (pairs hc hit hvs x hx).plain.bind fun v => ?_
    refine Follows.perform.mono (fun _ h => h) fun w vs' ⟨hvs, heap, heap', hcast⟩ => ⟨hvs, fun ht => ?_⟩
    obtain rfl : t = .numbr := eq_of_beq ht
    exact Value.isNumbr_of_cast hcast
  | .nary s op [], _ => .of_plain rfl (by rw [folded_nary, folded_nary]; exact Follows.give.alone)
  | .nary s op [x], hx => by
    have hx := pairs hc hit hvs x (foldsNumbrsAll_iff.1 hx x List.mem_cons_self)
    refine .of_plain rfl ?_
    rw [folded_nary, folded_nary]
    exact hx.plain.bind fun _ => Follows.perform.alone
  | .nary s op (x :: y :: xs), hx => by
    have hxs : ∀ z ∈ x :: y :: xs, Pairs ns vs b c c' z := fun z hmem =>
      pairs hc hit hvs z (foldsNumbrsAll_iff.1 hx z hmem)
    obtain ⟨hx, hxs⟩ := List.forall_mem_cons.1 hxs
    refine .of_plain rfl ?_
    rw [folded_nary, folded_nary]
    exact hx.plain.bind fun _ => pairs_each hxs
  | .unary s op x, hx => by
    rw [Pairs, folded_unary, folded_unary]
    refine (pairs hc hit hvs x hx).plain.bind fun v => ?_
    refine Follows.operate.mono (fun _ h => h) fun w vs' ⟨hvs, heap, hcount⟩ => ⟨hvs, fun hop => ?_⟩
    obtain rfl : op = .length := eq_of_beq hop
    exact Value.isNumbr_of_count hcount
  | .pickAt s i x, hx => by
    simp only [foldsNumbrs, Bool.and_eq_true] at hx
    refine .of_plain rfl ?_
    rw [folded_pickAt, folded_pickAt]
    exact (pairs hc hit hvs x hx.2).plain.bind fun _ => (pairs hc hit hvs i hx.1).plain.bind fun _ =>
      Follows.operate.alone
  | .pickFront s x, hx => by
    refine .of_plain rfl ?_
    rw [folded_pickFront, folded_pickFront]
    exact (pairs hc hit hvs x hx).plain.bind fun _ => Follows.operate.alone
  | .pickBack s x, hx => by
    refine .of_plain rfl ?_
    rw [folded_pickBack, folded_pickBack]
    exact (pairs hc hit hvs x hx).plain.bind fun _ => Follows.operate.alone
  | .binary span op x y, h => by
    simp only [foldsNumbrs, Bool.and_eq_true, Bool.or_eq_true, bne_iff_ne] at h
    obtain ⟨⟨hx, hy⟩, hcompares⟩ := h
    obtain hkept | ⟨m, other, matched, rest, hfolds⟩ :=
      foldComparison_cases span op x.simplify y.simplify
    · refine (pairs hc hit hvs x hx).binary (pairs hc hit hvs y hy) fun b => ?_
      cases b
      · rfl
      · exact hkept
    · have hop : ¬ (op ≠ .equal ∧ op ≠ .notEqual) := fun hne => hfolds.operator.elim hne.1 hne.2
      obtain ⟨hsteady, hnumbr⟩ := hfolds.numbrs (hcompares.resolve_left hop)
      obtain ⟨s, a, b, operand, hsides, hoperands, hrest⟩ := hfolds.exists_operand hsteady
      obtain ⟨hlt, hoperand⟩ : sizeOf operand < sizeOf (Expr.binary span op x y) ∧ _ :=
        operand_of_sides hsides hoperands hx hy
      refine hfolds.pairs hc hit hvs hsteady hsides hoperands hrest (fun hnot => ?_)
        (pairs hc hit hvs operand hoperand)
      rw [← isNumbr_simplify, hrest]
      exact hnumbr hnot
termination_by x => sizeOf x

end Expr
end LolToolchain
