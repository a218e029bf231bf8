import LolToolchain.Proofs.Evaluation.Idling

/-!
Evaluations that do the same at different costs. One follows another if it comes to the same end
wherever the other one comes to an end, given enough steps and enough fuel, and if wherever the steps of
the other one are used up, there are steps after which the same can be seen of it. Steps and fuel are
counted anew for the one that follows, so nothing need be known of what either of them costs.
-/
namespace LolToolchain

/-- An ending without its place. -/
def Finish.unspanned : Finish → Finish
  | .failed f _ => .failed f .zero
  | e => e

/-- The variables of a call. -/
abbrev Vars := List (Text × Value)

/-- The names of variables. -/
def Vars.names (vs : Vars) : List Text :=
  vs.map Prod.fst

/-- The state with other steps left. -/
def EvalState.withSteps (st : EvalState) (n : Nat) : EvalState :=
  { st with steps := n }

namespace Eval

variable {α β : Type} {x : Eval α} {f : α → Eval β} {st st₁ st₂ : EvalState} {a : α} {b : β}
variable {e : Finish} {r : Except Finish α} {i j : Nat}

/-- What an evaluation comes to from a state, however many steps are left: it takes `cost` of them, and
with fewer they are used up before anything has changed. -/
structure Settles (x : Eval α) (st : EvalState) (cost : Nat) (r : Except Finish α) (st' : EvalState) :
    Prop where
  paid : ∀ n, x (st.withSteps (n + cost)) = (r.mapError some, st'.withSteps n)
  spent : ∀ n < cost, x (st.withSteps n) = (.error none, st.withSteps 0)

namespace Settles

/-- What takes no step. -/
theorem of_free (h : ∀ n, x (st.withSteps n) = (r.mapError some, st₁.withSteps n)) :
    Settles x st 0 r st₁ :=
  ⟨h, nofun⟩

theorem pure (a : α) : Settles (pure a) st 0 (.ok a) st :=
  of_free fun _ => rfl

/-- What comes behind an evaluation that changes nothing. -/
theorem bind {r : Except Finish β} (hx : Settles x st i (.ok a) st)
    (hf : Settles (f a) st j r st₁) : Settles (x >>= f) st (j + i) r st₁ where
  paid n := by
    rw [Effect.run_bind, ← Nat.add_assoc, hx.paid]
    exact hf.paid n
  spent n hn := by
    rcases Nat.lt_or_ge n i with hlt | hle
    · rw [Effect.run_bind, hx.spent n hlt]
      rfl
    · obtain ⟨k, rfl⟩ := Nat.exists_eq_add_of_le' hle
      rw [Effect.run_bind, hx.paid]
      exact hf.spent k (Nat.add_lt_add_iff_right.1 hn)

theorem bind_error (hx : Settles x st i (.error e) st₁) :
    Settles (x >>= f) st i (.error e) st₁ where
  paid n := by
    rw [Effect.run_bind, hx.paid]
    rfl
  spent n hn := by
    rw [Effect.run_bind, hx.spent n hn]
    rfl

theorem tick : Settles tick st 1 (.ok ()) st where
  paid _ := rfl
  spent n hn := by
    obtain rfl := Nat.lt_one_iff.1 hn
    rfl

/-- What takes one step, and that at its start. -/
theorem of_tick (h : ∀ n, x (st.withSteps n) = (r.mapError some, st₁.withSteps n)) :
    Settles (Eval.tick >>= fun _ => x) st 1 r st₁ :=
  tick.bind (of_free h)

theorem perform {span : Span} {f : Heap → Except Fault (α × Heap)} {heap : Heap}
    (hf : f st.heap = .ok (a, heap)) :
    Settles (perform span f) st 1 (.ok a) { st with heap } :=
  of_tick fun n => by
    rw [Effect.run_bind, Effect.run_get, Effect.andThen_ok, EvalState.withSteps, hf]
    rfl

theorem perform_error {span : Span} {f : Heap → Except Fault (α × Heap)} {fault : Fault}
    (hf : f st.heap = .error fault) :
    Settles (Eval.perform span f) st 1 (.error (.failed fault span)) st :=
  of_tick fun n => by
    rw [Effect.run_bind, Effect.run_get, Effect.andThen_ok, EvalState.withSteps, hf]
    rfl

theorem readName_implicit {c : EvalContext} {id : Ident} (hit : id.name = implicitName) :
    Settles (readName c id) st 1 (.ok st.implicit) st :=
  of_tick fun n => by
    rw [Effect.run_bind, Effect.run_get, Effect.andThen_ok, if_pos hit]
    rfl

theorem readName_variable {c : EvalContext} {id : Ident} {v : Value}
    (hit : id.name ≠ implicitName) (hv : st.vars.lookup id.name = some v) :
    Settles (readName c id) st 1 (.ok v) st :=
  of_tick fun n => by
    rw [Effect.run_bind, Effect.run_get, Effect.andThen_ok, if_neg hit, EvalState.withSteps, hv]
    rfl

theorem readName_function {c : EvalContext} {id : Ident} (hit : id.name ≠ implicitName)
    (hv : st.vars.lookup id.name = none) :
    Settles (readName c id) st 1 (match Names.function? id.name c.outer with
      | some address => .ok (functionValue address)
      | none => .error .stuck) st :=
  of_tick fun n => by
    rw [Effect.run_bind, Effect.run_get, Effect.andThen_ok, if_neg hit, EvalState.withSteps, hv]
    cases Names.function? id.name c.outer <;> rfl

/-- With the steps that a state has, they are used up or the evaluation comes to its end. -/
theorem run (h : Settles x st j r st₁) :
    x st = (.error none, st.withSteps 0) ∨ ∃ n, x st = (r.mapError some, st₁.withSteps n) := by
  rcases Nat.lt_or_ge st.steps j with hlt | hle
  · exact .inl (h.spent st.steps hlt)
  · obtain ⟨n, hn⟩ := Nat.exists_eq_add_of_le' hle
    have hrun := h.paid n
    rw [← hn] at hrun
    exact .inr ⟨n, hrun⟩

end Settles

/-- With enough fuel, `y` gives a value and leaves a state, at a cost that does not depend on the fuel. -/
def Gives (y : Nat → Eval α) (st : EvalState) (a : α) (st' : EvalState) : Prop :=
  ∃ cost N, ∀ m ≥ N, ∀ n, y m (st.withSteps (n + cost)) = (.ok a, st'.withSteps n)

/-- With enough fuel and enough steps, `y` comes to an end of a certain kind. -/
def Ends (y : Nat → Eval α) (st : EvalState) (R : Finish → EvalState → Prop) : Prop :=
  ∃ N, ∀ m ≥ N, ∀ n ≥ N, ∃ e st', y m (st.withSteps n) = (.error (some e), st') ∧ R e st'

/-- With enough fuel and enough steps, `y` gets stuck. -/
def Sticks (y : Nat → Eval α) (st : EvalState) : Prop :=
  Ends y st fun e _ => e = .stuck

/-- With enough fuel and a certain number of steps, the steps of `y` are used up where the same is seen of
it as in the state `st₁`. -/
def Pauses (y : Nat → Eval α) (st st₁ : EvalState) : Prop :=
  ∃ k N, ∀ m ≥ N, ∃ st', y m (st.withSteps k) = (.error none, st') ∧ st'.seen = st₁.seen

/-- An end with the same fault or none, where the same is seen. -/
def EndsLike (e : Finish) (st : EvalState) (e' : Finish) (st' : EvalState) : Prop :=
  e' = .stuck ∨ e'.unspanned = e.unspanned ∧ st'.seen = st.seen

/-- What `y` comes to, compared with a result: unless one of the two gets stuck, `y` gives the same
value and leaves the same state, and `Q` holds of the value and the variables; or `y` ends like it; or `y`
pauses where the steps are used up. -/
def Meets (y : Nat → Eval α) (st : EvalState) (Q : α → Vars → Prop) :
    Except (Option Finish) α × EvalState → Prop
  | (.ok a, st') => Sticks y st ∨ Gives y st a st' ∧ Q a st'.vars
  | (.error none, st') => Sticks y st ∨ Pauses y st st'
  | (.error (some e), st') => e = .stuck ∨ Ends y st (EndsLike e st')

variable {y y' : Nat → Eval α} {g : Nat → α → Eval β} {R R' : Finish → EvalState → Prop}
variable {P P' : Vars → Prop} {Q Q' : α → Vars → Prop} {T : β → Vars → Prop} {vs : Vars}

theorem Gives.of_settles (h : ∀ m, Settles (y m) st j (.ok a) st₁) : Gives y st a st₁ :=
  ⟨j, 0, fun m _ n => (h m).paid n⟩

theorem Gives.bind (hy : Gives y st a st₁) (hg : Gives (fun m => g m a) st₁ b st₂) :
    Gives (fun m => y m >>= g m) st b st₂ := by
  obtain ⟨i, N, hy⟩ := hy
  obtain ⟨j, M, hg⟩ := hg
  refine ⟨j + i, max N M, fun m hm n => ?_⟩
  obtain ⟨hN, hM⟩ := Nat.max_le.1 hm
  exact (Effect.run_bind _ _ _).trans (by rw [← Nat.add_assoc, hy m hN]; exact hg m hM n)

theorem Ends.of_settles (h : ∀ m, Settles (y m) st j (.error e) st₁)
    (hR : ∀ n, R e (st₁.withSteps n)) : Ends y st R := by
  refine ⟨j, fun m _ n hn => ?_⟩
  obtain ⟨k, rfl⟩ := Nat.exists_eq_add_of_le' hn
  exact ⟨e, _, (h m).paid k, hR k⟩

theorem Ends.bind (hy : Ends y st R) : Ends (fun m => y m >>= g m) st R := by
  obtain ⟨N, hy⟩ := hy
  refine ⟨N, fun m hm n hn => ?_⟩
  obtain ⟨e, st', hrun, he⟩ := hy m hm n hn
  exact ⟨e, st', (Effect.run_bind _ _ _).trans (by rw [hrun]; rfl), he⟩

theorem Gives.bind_ends (hy : Gives y st a st₁) (hg : Ends (fun m => g m a) st₁ R) :
    Ends (fun m => y m >>= g m) st R := by
  obtain ⟨i, N, hy⟩ := hy
  obtain ⟨M, hg⟩ := hg
  refine ⟨max N (M + i), fun m hm n hn => ?_⟩
  obtain ⟨hN, hM⟩ := Nat.max_le.1 hm
  obtain ⟨k, rfl⟩ := Nat.exists_eq_add_of_le' (Nat.le_of_add_left_le (Nat.max_le.1 hn).2)
  obtain ⟨e, st', hrun, he⟩ := hg m (Nat.le_of_add_right_le hM) k
    (Nat.add_le_add_iff_right.1 (Nat.max_le.1 hn).2)
  exact ⟨e, st', (Effect.run_bind _ _ _).trans (by rw [hy m hN]; exact hrun), he⟩

theorem Ends.mono (hy : Ends y st R) (h : ∀ e st', R e st' → R' e st') : Ends y st R' := by
  obtain ⟨N, hy⟩ := hy
  refine ⟨N, fun m hm n hn => ?_⟩
  obtain ⟨e, st', hrun, he⟩ := hy m hm n hn
  exact ⟨e, st', hrun, h e st' he⟩

/-- With no step, what takes one pauses where it stands. -/
theorem Pauses.of_spends (hy : ∀ m, Spends (y m)) (hseen : st.seen = st₁.seen) : Pauses y st st₁ := by
  refine ⟨0, 0, fun m _ => ?_⟩
  have hrun := hy m (st.withSteps 0) rfl
  obtain ⟨r, st', hr⟩ : ∃ r st', y m (st.withSteps 0) = (r, st') := ⟨_, _, rfl⟩
  rw [hr] at hrun ⊢
  cases r with
  | ok a => exact hrun.2.elim
  | error e => exact ⟨st', by rw [hrun.1], hrun.2.trans hseen⟩

theorem Pauses.of_settles (h : ∀ m, Settles (y m) st (j + 1) r st₁) : Pauses y st st :=
  ⟨0, 0, fun m _ => ⟨_, (h m).spent 0 (Nat.zero_lt_succ j), rfl⟩⟩

theorem Pauses.bind (hy : Pauses y st st₁) : Pauses (fun m => y m >>= g m) st st₁ := by
  obtain ⟨k, N, hy⟩ := hy
  refine ⟨k, N, fun m hm => ?_⟩
  obtain ⟨st', hrun, hseen⟩ := hy m hm
  exact ⟨st', (Effect.run_bind _ _ _).trans (by rw [hrun]; rfl), hseen⟩

theorem Gives.bind_pauses (hy : Gives y st a st₁) (hg : Pauses (fun m => g m a) st₁ st₂) :
    Pauses (fun m => y m >>= g m) st st₂ := by
  obtain ⟨i, N, hy⟩ := hy
  obtain ⟨k, M, hg⟩ := hg
  refine ⟨k + i, max N M, fun m hm => ?_⟩
  obtain ⟨hN, hM⟩ := Nat.max_le.1 hm
  obtain ⟨st', hrun, hseen⟩ := hg m hM
  exact ⟨st', (Effect.run_bind _ _ _).trans (by rw [hy m hN]; exact hrun), hseen⟩

/-- Only what happens with enough fuel counts. -/
theorem Ends.of_fuel {N : Nat} (heq : ∀ m ≥ N, y m = y' m) (hy : Ends y st R) : Ends y' st R := by
  obtain ⟨M, hM⟩ := hy
  refine ⟨max N M, fun m hm n hn => ?_⟩
  rw [← heq m (Nat.max_le.1 hm).1]
  exact hM m (Nat.max_le.1 hm).2 n (Nat.max_le.1 hn).2

theorem Gives.of_fuel {N : Nat} (heq : ∀ m ≥ N, y m = y' m) (hy : Gives y st a st₁) :
    Gives y' st a st₁ := by
  obtain ⟨cost, M, hM⟩ := hy
  refine ⟨cost, max N M, fun m hm n => ?_⟩
  rw [← heq m (Nat.max_le.1 hm).1]
  exact hM m (Nat.max_le.1 hm).2 n

theorem Pauses.of_fuel {N : Nat} (heq : ∀ m ≥ N, y m = y' m) (hy : Pauses y st st₁) :
    Pauses y' st st₁ := by
  obtain ⟨k, M, hM⟩ := hy
  refine ⟨k, max N M, fun m hm => ?_⟩
  rw [← heq m (Nat.max_le.1 hm).1]
  exact hM m (Nat.max_le.1 hm).2

/-- Fuel may be counted from one on. -/
theorem Ends.of_succ (hy : Ends (fun m => y (m + 1)) st R) : Ends y st R := by
  obtain ⟨N, hN⟩ := hy
  refine ⟨N + 1, fun m hm n hn => ?_⟩
  obtain ⟨k, rfl⟩ := Nat.exists_eq_add_of_le' (Nat.one_le_of_lt hm)
  exact hN k (Nat.le_of_succ_le_succ hm) n (Nat.le_of_succ_le hn)

theorem Gives.of_succ (hy : Gives (fun m => y (m + 1)) st a st₁) : Gives y st a st₁ := by
  obtain ⟨cost, N, hN⟩ := hy
  refine ⟨cost, N + 1, fun m hm n => ?_⟩
  obtain ⟨k, rfl⟩ := Nat.exists_eq_add_of_le' (Nat.one_le_of_lt hm)
  exact hN k (Nat.le_of_succ_le_succ hm) n

theorem Pauses.of_succ (hy : Pauses (fun m => y (m + 1)) st st₁) : Pauses y st st₁ := by
  obtain ⟨k, N, hN⟩ := hy
  refine ⟨k, N + 1, fun m hm => ?_⟩
  obtain ⟨m, rfl⟩ := Nat.exists_eq_add_of_le' (Nat.one_le_of_lt hm)
  exact hN m (Nat.le_of_succ_le_succ hm)

/-- Only what is done from a state counts. -/
theorem Ends.of_run (hrun : ∀ m n, y m (st.withSteps n) = y' m (st₁.withSteps n))
    (hy : Ends y' st₁ R) : Ends y st R := by
  obtain ⟨N, hN⟩ := hy
  exact ⟨N, fun m hm n hn => hrun m n ▸ hN m hm n hn⟩

theorem Gives.of_run (hrun : ∀ m n, y m (st.withSteps n) = y' m (st₁.withSteps n))
    (hy : Gives y' st₁ a st₂) : Gives y st a st₂ := by
  obtain ⟨cost, N, hN⟩ := hy
  exact ⟨cost, N, fun m hm n => (hrun m (n + cost)).trans (hN m hm n)⟩

private theorem Pauses.of_run (hrun : ∀ m n, y m (st.withSteps n) = y' m (st₁.withSteps n))
    (hy : Pauses y' st₁ st₂) : Pauses y st st₂ := by
  obtain ⟨k, N, hN⟩ := hy
  exact ⟨k, N, fun m hm => hrun m k ▸ hN m hm⟩

namespace Meets

/-- What gets stuck meets every result. -/
theorem of_sticks (h : Sticks y st) : ∀ r : Except (Option Finish) α × EvalState, Meets y st Q r
  | (.ok _, _) | (.error none, _) => .inl h
  | (.error (some _), _) => .inr (h.mono fun _ _ he => .inl he)

theorem mono (hQ : ∀ a vs, Q a vs → Q' a vs) :
    ∀ {r : Except (Option Finish) α × EvalState}, Meets y st Q r → Meets y st Q' r
  | (.ok a, st'), h => h.imp id fun h => ⟨h.1, hQ a st'.vars h.2⟩
  | (.error none, _), h | (.error (some _), _), h => h

theorem of_fuel {N : Nat} (heq : ∀ m ≥ N, y m = y' m) :
    ∀ {r : Except (Option Finish) α × EvalState}, Meets y st Q r → Meets y' st Q r
  | (.ok _, _), h => h.imp (Ends.of_fuel heq) fun h => ⟨h.1.of_fuel heq, h.2⟩
  | (.error none, _), h => h.imp (Ends.of_fuel heq) (Pauses.of_fuel heq)
  | (.error (some _), _), h => h.imp id (Ends.of_fuel heq)

theorem of_succ : ∀ {r : Except (Option Finish) α × EvalState},
    Meets (fun m => y (m + 1)) st Q r → Meets y st Q r
  | (.ok _, _), h => h.imp Ends.of_succ fun h => ⟨h.1.of_succ, h.2⟩
  | (.error none, _), h => h.imp Ends.of_succ Pauses.of_succ
  | (.error (some _), _), h => h.imp id Ends.of_succ

theorem of_run (hrun : ∀ m n, y m (st.withSteps n) = y' m (st₁.withSteps n)) :
    ∀ {r : Except (Option Finish) α × EvalState}, Meets y' st₁ Q r → Meets y st Q r
  | (.ok _, _), h => h.imp (Ends.of_run hrun) fun h => ⟨h.1.of_run hrun, h.2⟩
  | (.error none, _), h => h.imp (Ends.of_run hrun) (Pauses.of_run hrun)
  | (.error (some _), _), h => h.imp id (Ends.of_run hrun)

theorem of_gives (hy : Gives y st a st₁) : ∀ {r : Except (Option Finish) β × EvalState},
    Meets (fun m => g m a) st₁ T r → Meets (fun m => y m >>= g m) st T r
  | (.ok _, _), h => h.imp hy.bind_ends fun h => ⟨hy.bind h.1, h.2⟩
  | (.error none, _), h => h.imp hy.bind_ends hy.bind_pauses
  | (.error (some _), _), h => h.imp id hy.bind_ends

private theorem bind (hf : ∀ a st', Q a st'.vars → Meets (fun m => g m a) st' T (f a st')) :
    ∀ {r : Except (Option Finish) α × EvalState}, Meets y st Q r →
    Meets (fun m => y m >>= g m) st T (Effect.andThen r f)
  | (.ok a, st'), h => by
    rcases h with hsticks | ⟨hgives, ha⟩
    · exact of_sticks hsticks.bind _
    · exact of_gives hgives (hf a st' ha)
  | (.error none, _), h => h.imp Ends.bind Pauses.bind
  | (.error (some _), _), h => h.imp id Ends.bind

end Meets

/-- The evaluation `y` follows `x`, from states with variables of which `P` holds: it meets whatever `x`
comes to. -/
def Follows (P : Vars → Prop) (x : Eval α) (y : Nat → Eval α) (Q : α → Vars → Prop) : Prop :=
  ∀ st : EvalState, P st.vars → Meets y st Q (x st)

namespace Follows

theorem pure (h : ∀ vs, P vs → Q a vs) : Follows P (pure a) (fun _ => Pure.pure a) Q :=
  fun st hst => .inr ⟨.of_settles fun _ => .pure a, h st.vars hst⟩

theorem bind (hx : Follows P x y Q) (hf : ∀ a, Follows (Q a) (f a) (fun m => g m a) T) :
    Follows P (x >>= f) (fun m => y m >>= g m) T := by
  intro st hst
  rw [Effect.run_bind]
  exact (hx st hst).bind hf

theorem mono (h : Follows P x y Q) (hP : ∀ vs, P' vs → P vs) (hQ : ∀ a vs, Q a vs → Q' a vs) :
    Follows P' x y Q' :=
  fun st hst => (h st (hP st.vars hst)).mono hQ

/-- What holds of the variables beforehand may be what they are. -/
theorem of_each (h : ∀ vs, P vs → Follows (· = vs) x y Q) : Follows P x y Q :=
  fun st hst => h st.vars hst st rfl

/-- Variables of which `P` holds are enough. -/
theorem of_holds (h : Follows P x y Q) (hvs : P vs) : Follows (· = vs) x y Q :=
  fun st hst => h st (hst ▸ hvs)

/-- What leaves the variables alone keeps whatever holds of them. -/
theorem keep {Q : α → Prop} (h : ∀ vs, P vs → Follows (· = vs) x y fun a vs' => vs' = vs ∧ Q a) :
    Follows P x y fun a vs => P vs ∧ Q a :=
  of_each fun vs hvs => (h vs hvs).mono (fun _ h => h) fun _ _ h => ⟨h.1 ▸ hvs, h.2⟩

theorem alone {Q : α → Vars → Prop} (h : Follows P x y fun a vs => P vs ∧ Q a vs) :
    Follows P x y fun _ => P :=
  h.mono (fun _ h => h) fun _ _ h => h.1

/-- What keeps that which holds of the variables, and what comes behind it. -/
theorem andThen {Q : α → Prop} (hx : Follows P x y fun a vs => P vs ∧ Q a)
    (hf : ∀ a, Q a → Follows P (f a) (fun m => g m a) T) :
    Follows P (x >>= f) (fun m => y m >>= g m) T :=
  hx.bind fun a st hst => hf a hst.2 st hst.1

theorem of_fuel {N : Nat} (heq : ∀ m ≥ N, y m = y' m) (h : Follows P x y Q) : Follows P x y' Q :=
  fun st hst => (h st hst).of_fuel heq

theorem of_succ (h : Follows P x (fun m => y (m + 1)) Q) : Follows P x y Q :=
  fun st hst => (h st hst).of_succ

theorem congr (h : Follows P x y Q) (heq : ∀ m, y m = y' m) : Follows P x y' Q :=
  h.of_fuel (N := 0) fun m _ => heq m

/-- What is used up at once is followed by whatever takes a step first. -/
theorem spent (hy : ∀ m, Spends (y m)) : Follows P (throw none) y Q :=
  fun _ _ => .inr (.of_spends hy rfl)

theorem of_sticks (h : ∀ st : EvalState, P st.vars → Sticks y st) : Follows P x y Q :=
  fun st hst => .of_sticks (h st hst) _

/-- What comes to an end that does not depend on the steps follows itself. -/
theorem of_settles (h : ∀ st : EvalState, P st.vars → ∃ j r st', Settles x st j r st' ∧
    ∀ a, r = .ok a → Q a st'.vars) : Follows P x (fun _ => x) Q := by
  intro st hst
  obtain ⟨j, r, st', hx, hQ⟩ := h st hst
  obtain hspent | ⟨n, hrun⟩ := hx.run
  · rw [hspent]
    exact .inr ⟨st.steps, 0, fun _ _ => ⟨_, hspent, rfl⟩⟩
  · rw [hrun]
    cases r with
    | error e => exact .inr (.of_settles (fun _ => hx) fun _ => .inr ⟨rfl, rfl⟩)
    | ok a => exact .inr ⟨.of_settles fun _ => ⟨hx.paid, hx.spent⟩, hQ a rfl⟩

theorem fail {f : Fault} {span : Span} :
    Follows P (fail f span : Eval α) (fun _ => Eval.fail f span) Q :=
  of_settles fun st _ => ⟨0, .error (.failed f span), st, .of_free fun _ => rfl, nofun⟩

theorem fail_bind {fault : Fault} {span : Span} :
    Follows P (Eval.fail fault span >>= f) (fun m => Eval.fail fault span >>= g m) T :=
  (fail (Q := fun _ _ => False)).bind fun _ _ hst => hst.elim

theorem ite {p : Prop} [Decidable p] {x' : Eval α} (h : p → Follows P x y Q)
    (h' : ¬p → Follows P x' y' Q) :
    Follows P (if p then x else x') (fun m => if p then y m else y' m) Q := by
  by_cases hp : p
  · simp only [if_pos hp]
    exact h hp
  · simp only [if_neg hp]
    exact h' hp

theorem tick : Follows P tick (fun _ => Eval.tick) fun _ vs => P vs :=
  of_settles fun st hst => ⟨_, .ok (), st, .tick, fun _ _ => hst⟩

theorem give {v : Value} : Follows P (give v) (fun _ => Eval.give v) fun a vs => P vs ∧ a = v :=
  of_settles fun st hst => ⟨_, .ok v, st, .of_tick fun _ => rfl,
    fun _ ha => ⟨hst, (Except.ok.inj ha).symm⟩⟩

theorem perform {span : Span} {f : Heap → Except Fault (α × Heap)} :
    Follows P (perform span f) (fun _ => Eval.perform span f) fun a vs =>
      P vs ∧ ∃ heap heap', f heap = .ok (a, heap') := by
  refine of_settles fun st hst => ?_
  cases hf : f st.heap with
  | error e => exact ⟨_, _, _, .perform_error hf, nofun⟩
  | ok r =>
    refine ⟨_, _, _, .perform hf, fun _ ha => ?_⟩
    cases ha
    exact ⟨hst, st.heap, r.2, hf⟩

theorem operate {span : Span} {f : Heap → Except Fault α} :
    Follows P (operate span f) (fun _ => Eval.operate span f) fun a vs =>
      P vs ∧ ∃ heap, f heap = .ok a := by
  refine perform.mono (fun _ h => h) fun a vs ⟨hvs, heap, heap', hf⟩ => ⟨hvs, heap, ?_⟩
  cases hr : f heap with
  | error e =>
    rw [hr] at hf
    cases hf
  | ok b =>
    rw [hr] at hf
    cases hf
    rfl

theorem readImplicit : Follows P readImplicit (fun _ => Eval.readImplicit) fun _ vs => P vs :=
  of_settles fun st hst => ⟨_, .ok st.implicit, st, .of_tick fun _ => rfl, fun _ _ => hst⟩

/-- A name other than the implicit variable gives the variable of that name, or a function that it is
known to hold. -/
theorem readName {c : EvalContext} {id : Ident} :
    Follows (· = vs) (readName c id) (fun _ => Eval.readName c id) fun v vs' => vs' = vs ∧
      (id.name ≠ implicitName → vs.lookup id.name = some v ∨
        ∃ address, Names.function? id.name c.outer = some address ∧ v = functionValue address) := by
  refine of_settles fun st hst => ?_
  by_cases hit : id.name = implicitName
  · exact ⟨_, _, _, .readName_implicit hit, fun _ ha => ⟨hst, fun hne => absurd hit hne⟩⟩
  · cases hlookup : st.vars.lookup id.name with
    | some v =>
      refine ⟨_, _, _, .readName_variable hit hlookup, fun _ ha => ⟨hst, fun _ => .inl ?_⟩⟩
      rw [← hst, hlookup, Except.ok.inj ha]
    | none =>
      refine ⟨_, _, _, .readName_function hit hlookup, fun a ha => ⟨hst, fun _ => .inr ?_⟩⟩
      cases hf : Names.function? id.name c.outer with
      | none =>
        rw [hf] at ha
        cases ha
      | some address =>
        rw [hf] at ha
        exact ⟨address, rfl, (Except.ok.inj ha).symm⟩

theorem writeName {id : Ident} {v : Value} :
    Follows (· = vs) (writeName id v) (fun _ => Eval.writeName id v) fun _ vs' =>
      vs' = vs ∨ EvalState.assign? id.name v vs = some vs' := by
  refine of_settles fun st hst => ?_
  by_cases hit : id.name = implicitName
  · refine ⟨_, .ok (), { st with implicit := v }, .of_tick fun n => ?_, fun _ _ => .inl hst⟩
    rw [Effect.run_bind, Effect.run_get, Effect.andThen_ok, if_pos hit]
    rfl
  · cases hvars : EvalState.assign? id.name v st.vars with
    | none =>
      refine ⟨_, .error .stuck, st, .of_tick fun n => ?_, nofun⟩
      rw [Effect.run_bind, Effect.run_get, Effect.andThen_ok, if_neg hit, EvalState.withSteps, hvars]
      rfl
    | some vars =>
      refine ⟨_, .ok (), { st with vars }, .of_tick fun n => ?_, fun _ _ => .inr (hst ▸ hvars)⟩
      rw [Effect.run_bind, Effect.run_get, Effect.andThen_ok, if_neg hit, EvalState.withSteps, hvars]
      rfl

/-- The newest variable is read. -/
theorem newest : Follows (· = vs) newest (fun _ => Eval.newest) fun v vs' =>
    vs' = vs ∧ ∃ name rest, vs = (name, v) :: rest := by
  refine of_settles fun st hst => ?_
  cases hvars : st.vars with
  | nil =>
    refine ⟨_, .error .stuck, st, .of_tick fun n => ?_, nofun⟩
    rw [Effect.run_bind, Effect.run_get, Effect.andThen_ok, EvalState.withSteps, hvars]
    rfl
  | cons x xs =>
    refine ⟨_, .ok x.2, st, .of_tick fun n => ?_, fun _ ha => ?_⟩
    · rw [Effect.run_bind, Effect.run_get, Effect.andThen_ok, EvalState.withSteps, hvars]
      rfl
    · cases ha
      exact ⟨hst, x.1, xs, by rw [← hst, hvars]⟩

theorem setNewest {name : Text} {v w : Value} :
    Follows (· = (name, v) :: vs) (setNewest w) (fun _ => Eval.setNewest w) fun _ vs' =>
      vs' = (name, w) :: vs := by
  refine of_settles fun st hst => ?_
  refine ⟨_, .ok (), { st with vars := (name, w) :: vs }, .of_tick fun n => ?_, fun _ _ => rfl⟩
  rw [Effect.run_bind, Effect.run_get, Effect.andThen_ok, EvalState.withSteps, hst]
  rfl

theorem of_modify {f : EvalState → EvalState} {Q : Vars → Prop}
    (hf : ∀ st n, f (st.withSteps n) = (f st).withSteps n)
    (hQ : ∀ st : EvalState, P st.vars → Q (f st).vars) :
    Follows P (modify f : Eval Unit) (fun _ => modify f) fun _ => Q :=
  of_settles fun st hst => ⟨_, .ok (), f st, .of_free fun n => congrArg (Prod.mk _) (hf st n),
    fun _ _ => hQ st hst⟩

theorem declare {name : Text} {v : Value} :
    Follows (· = vs) (declare name v) (fun _ => Eval.declare name v) fun _ vs' =>
      vs' = (name, v) :: vs :=
  of_modify (fun _ _ => rfl) fun _ hst => congrArg (List.cons (name, v)) hst

theorem height : Follows P height (fun _ => Eval.height) fun h vs => P vs ∧ h = vs.length :=
  of_settles fun st hst => ⟨_, .ok st.vars.length, st, .of_free fun _ => rfl,
    fun _ ha => ⟨hst, (Except.ok.inj ha).symm⟩⟩

theorem unwind {h : Nat} : Follows (· = vs) (unwind h) (fun _ => Eval.unwind h) fun _ vs' =>
    vs' = vs.drop (vs.length - h) := by
  refine of_settles fun st hst => ?_
  by_cases hlength : st.vars.length = h
  · refine ⟨_, .ok (), st, .of_free fun n => ?_, fun _ _ => ?_⟩
    · rw [Eval.unwind, Effect.run_bind, Effect.run_get, Effect.andThen_ok, EvalState.withSteps,
        if_pos hlength]
      rfl
    · rw [← hst, hlength, Nat.sub_self, List.drop_zero]
  · refine ⟨1, .ok (), st.cut h, ⟨fun n => ?_, fun n hn => ?_⟩, fun _ _ => by rw [← hst]; rfl⟩
    · rw [Eval.unwind, Effect.run_bind, Effect.run_get, Effect.andThen_ok, EvalState.withSteps,
        if_neg hlength]
      rfl
    · obtain rfl := Nat.lt_one_iff.1 hn
      rw [Eval.unwind, Effect.run_bind, Effect.run_get, Effect.andThen_ok, EvalState.withSteps,
        if_neg hlength]
      rfl

theorem readLine {s : Settings} {span : Span} :
    Follows P (readLine s span) (fun _ => Eval.readLine s span) fun _ vs => P vs := by
  refine tick.bind fun _ => ?_
  cases s.inputFault with
  | some cause => exact fail
  | none =>
    refine of_settles fun st hst => ?_
    let line := st.input.takeWhile (· != 0x0A)
    exact ⟨_, .ok (.yarn (Text.dropRightWhile (· == 0x0D) line)),
      { st with input := st.input.drop (line.length + 1) }, .of_free fun _ => rfl, fun _ _ => hst⟩

theorem print {s : Settings} {span : Span} {v : Value} {newline : Bool} :
    Follows P (print s span v newline) (fun _ => Eval.print s span v newline) fun _ vs => P vs := by
  refine (operate (f := v.text)).bind fun t => ?_
  cases s.outputFault with
  | some cause => exact fail
  | none => exact of_modify (fun _ _ => rfl) fun _ hst => hst.1

/-- A loop may be passed as often as there is fuel. -/
theorem iterate {x : Eval (Option Flow)} {y : Nat → Eval (Option Flow)} {Q : Flow → Vars → Prop}
    (h : Follows P x y fun flow vs => match flow with
      | none => P vs
      | some flow => Q flow vs) (hy : ∀ m, Spends (y m)) :
    ∀ (n : Nat) {count : Nat → Nat}, (∀ k, ∃ N, ∀ m ≥ N, k ≤ count m) →
      Follows P (iterate x n) (fun m => Eval.iterate (y m) (count m)) Q
  | 0, count, _ => spent fun m => (hy m).iterate (count m)
  | n + 1, count, hcount => by
    obtain ⟨N, hN⟩ := hcount 1
    have hrest : ∀ k, ∃ N, ∀ m ≥ N, k ≤ count m - 1 := fun k => by
      obtain ⟨M, hM⟩ := hcount (k + 1)
      exact ⟨M, fun m hm => Nat.le_sub_of_add_le (hM m hm)⟩
    have hpass : Follows P (Eval.iterate x (n + 1)) (fun m => Eval.iterate (y m) (count m - 1 + 1)) Q := by
      refine h.bind fun flow => ?_
      cases flow with
      | some flow => exact pure fun _ h => h
      | none => exact iterate h hy n hrest
    exact hpass.of_fuel fun m hm => by rw [Nat.sub_add_cancel (hN m hm)]

end Follows
end Eval
end LolToolchain
