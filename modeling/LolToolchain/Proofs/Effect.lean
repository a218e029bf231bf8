import LolToolchain.Machine.Basic

/-! How computations with a state and an early end compute: each building block, run on a state. -/
namespace LolToolchain.Effect

variable {ε σ α β : Type}

/-- What follows a result, unless the computation has ended. -/
def andThen (r : Except ε α × σ) (f : α → σ → Except ε β × σ) : Except ε β × σ :=
  match r with
  | (.ok a, m) => f a m
  | (.error e, m) => (.error e, m)

@[simp] theorem andThen_ok (a : α) (m : σ) (f : α → σ → Except ε β × σ) :
    andThen (.ok a, m) f = f a m := rfl

@[simp] theorem andThen_error (e : ε) (m : σ) (f : α → σ → Except ε β × σ) :
    andThen (.error e, m) f = (.error e, m) := rfl

@[simp] theorem run_bind (x : ExceptT ε (StateM σ) α) (f : α → ExceptT ε (StateM σ) β) (m : σ) :
    (x >>= f) m = andThen (x m) f := by
  obtain ⟨r, m', h⟩ : ∃ r m', x m = (r, m') := ⟨_, _, rfl⟩
  have hb : (x >>= f) m = (ExceptT.bindCont f (x m).1 : StateM σ (Except ε β)) (x m).2 := rfl
  rw [hb, h]
  cases r <;> rfl

@[simp] theorem run_map (g : α → β) (x : ExceptT ε (StateM σ) α) (m : σ) :
    (g <$> x) m = andThen (x m) fun a m => (.ok (g a), m) := by
  rw [map_eq_pure_bind, run_bind]
  rfl

@[simp] theorem run_pure (a : α) (m : σ) : (pure a : ExceptT ε (StateM σ) α) m = (.ok a, m) := rfl

@[simp] theorem run_throw (e : ε) (m : σ) :
    (throw e : ExceptT ε (StateM σ) α) m = (.error e, m) := rfl

@[simp] theorem run_get (m : σ) : (get : ExceptT ε (StateM σ) σ) m = (.ok m, m) := rfl

@[simp] theorem run_set (m m' : σ) :
    (set m' : ExceptT ε (StateM σ) PUnit) m = (.ok ⟨⟩, m') := rfl

@[simp] theorem run_modify (f : σ → σ) (m : σ) :
    (modify f : ExceptT ε (StateM σ) PUnit) m = (.ok ⟨⟩, f m) := rfl

@[simp] theorem mapError_ok {ε' : Type} (g : ε → ε') (a : α) :
    (Except.ok a : Except ε α).mapError g = .ok a := rfl

@[simp] theorem mapError_error {ε' : Type} (g : ε → ε') (e : ε) :
    (Except.error e : Except ε α).mapError g = .error (g e) := rfl

theorem run_ite (p : Prop) [Decidable p] (x y : ExceptT ε (StateM σ) α) (m : σ) :
    (if p then x else y) m = if p then x m else y m := by
  split <;> rfl

end LolToolchain.Effect

namespace LolToolchain

variable {ε α : Type} {x : Except ε α}

/-- A result that is known to be good by computing it. -/
theorem exists_of_toOption_any {good : α → Bool} (h : x.toOption.any good = true) :
    ∃ a, x = .ok a ∧ good a = true := by
  cases x with
  | error d => cases h
  | ok a => exact ⟨a, rfl, h⟩

/-- The error a computation ends with, if it does. -/
def failure? : Except ε α → Option ε
  | .ok _ => none
  | .error e => some e

/-- An error that is known by computing it. -/
theorem eq_error_of_failure? {e : ε} [BEq ε] [LawfulBEq ε] (h : (failure? x == some e) = true) :
    x = .error e := by
  cases x with
  | error d => rw [Option.some.inj (eq_of_beq h)]
  | ok a => cases eq_of_beq h

end LolToolchain
