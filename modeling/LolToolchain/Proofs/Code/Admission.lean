import LolToolchain.Program.Equality
import LolToolchain.Proofs.Code.Emission

/-!
Which expressions compile. Apart from operands that are too large for their bytes, all that can be
wrong with an expression is in its names: each of them has to lead somewhere, and a call has to have
as many arguments as the function that its name is known to hold has parameters.
-/
namespace LolToolchain

/-- Whether an operand is too large for its bytes. -/
def CompileFault.isLimit : CompileFault → Bool
  | .poolOverflow _ | .operand _ _ => true
  | _ => false

/-- A diagnostic of an operand that is too large for its bytes. -/
def Diagnostic.IsLimit (d : Diagnostic) : Prop :=
  ∃ (f : CompileFault) (span : Span), f.isLimit = true ∧ d = f.diagnostic span

/-- No operand is too large. -/
def Fits {α : Type} (r : Except Diagnostic α) : Prop :=
  ∀ d, r = .error d → ¬ d.IsLimit

/-- What names lead to: nothing, or something that may be known to hold a function with so many
parameters. -/
abbrev Lookup := Text → Option (Option Nat)

def Assembly.lookup (a : Assembly) : Lookup := fun name =>
  (a.scope.resolve a.outer name).toOption.map fun b => b.function?.map KnownFunction.arity

/-- A name that can be read. -/
def Ident.Scoped (ρ : Lookup) (id : Ident) : Prop :=
  id.name = implicitName ∨ (ρ id.name).isSome = true

/-- A name that can be called with a number of arguments. -/
def Ident.ScopedCall (ρ : Lookup) (id : Ident) (argc : Nat) : Prop :=
  argc ≤ CompileFault.maxArity ∧
    (id.name = implicitName ∨ ∃ arity ∈ ρ id.name, ∀ n ∈ arity, n = argc)

namespace Expr

mutual

/-- The names of an expression can be used as they are. -/
def Scoped (ρ : Lookup) : Expr → Prop
  | .int _ _ | .float _ _ | .string _ _ | .bool _ _ | .null _ | .it _ => True
  | .interp _ _ splices => ∀ x ∈ splices, x.name.Scoped ρ
  | .var _ id => id.Scoped ρ
  | .call _ id xs => id.ScopedCall ρ xs.length ∧ ScopedAll ρ xs
  | .list _ xs | .concat _ xs | .nary _ _ xs => ScopedAll ρ xs
  | .cast _ x _ | .unary _ _ x | .pickFront _ x | .pickBack _ x => Scoped ρ x
  | .binary _ _ x y => Scoped ρ x ∧ Scoped ρ y
  | .pickAt _ i x => Scoped ρ x ∧ Scoped ρ i

def ScopedAll (ρ : Lookup) : List Expr → Prop
  | [] => True
  | x :: xs => Scoped ρ x ∧ ScopedAll ρ xs

end

end Expr

namespace Assemble

/-- Where names lead as `ρ` says, a step leaves them alone. It succeeds if `P` holds, apart from operands
that are too large; it fails for other reasons only if `P` does not hold, with a diagnostic of `K`. -/
def Judged {α : Type} (ρ : Lookup) (x : Assemble α) (P : Prop) (K : Diagnostic → Prop) : Prop :=
  ∀ a : Assembly, a.lookup = ρ → match x a with
    | .ok (_, a') => a'.scope = a.scope ∧ a'.outer = a.outer ∧ P
    | .error d => d.IsLimit ∨ ¬ P ∧ K d

variable {α β : Type} {ρ : Lookup} {x : Assemble α} {f : α → Assemble β} {P Q : Prop}
  {K : Diagnostic → Prop} {span : Span}

private theorem lookup_congr {a a' : Assembly} (hscope : a'.scope = a.scope)
    (houter : a'.outer = a.outer) : a'.lookup = a.lookup := by
  unfold Assembly.lookup
  rw [hscope, houter]

namespace Judged

theorem congr (hx : Judged ρ x P K) (h : P ↔ Q) : Judged ρ x Q K :=
  propext h ▸ hx

theorem bind (hx : Judged ρ x P K) (hf : ∀ r, Judged ρ (f r) Q K) :
    Judged ρ (x >>= f) (P ∧ Q) K := by
  intro a ha
  have hx := hx a ha
  change match (x a >>= fun r => f r.1 r.2) with | .ok (_, a') => _ | .error d => _
  cases hrun : x a with
  | error d =>
    rw [hrun] at hx
    exact hx.imp_right fun h => ⟨fun hR => h.1 hR.1, h.2⟩
  | ok r =>
    obtain ⟨r, a₁⟩ := r
    rw [hrun] at hx
    obtain ⟨hscope, houter, hP⟩ := hx
    have hf := hf r a₁ (Eq.trans (lookup_congr hscope houter) ha)
    change match f r a₁ with | .ok (_, a') => _ | .error d => _
    cases hrest : f r a₁ with
    | error d =>
      rw [hrest] at hf
      exact hf.imp_right fun h => ⟨fun hR => h.1 hR.2, h.2⟩
    | ok r' =>
      rw [hrest] at hf
      exact ⟨Eq.trans hf.1 hscope, Eq.trans hf.2.1 houter, hP, hf.2.2⟩

/-- What comes first always succeeds. -/
theorem after (hx : Judged ρ x True K) (hf : ∀ r, Judged ρ (f r) P K) : Judged ρ (x >>= f) P K :=
  (hx.bind hf).congr (iff_of_eq (true_and P))

/-- What comes last always succeeds. -/
theorem before (hx : Judged ρ x P K) (hf : ∀ r, Judged ρ (f r) True K) : Judged ρ (x >>= f) P K :=
  (hx.bind hf).congr (iff_of_eq (and_true P))

theorem pure (r : α) : Judged ρ (pure r) True K :=
  fun _ _ => ⟨rfl, rfl, trivial⟩

theorem emit {op : Opcode} {operand : List UInt8} : Judged ρ (emit op span operand) True K :=
  fun _ _ => ⟨rfl, rfl, trivial⟩

theorem constant {v : Value} : Judged ρ (constant v) True K :=
  fun _ _ => ⟨rfl, rfl, trivial⟩

private theorem get_bind {f : Assembly → Assemble α} (h : ∀ a : Assembly, a.lookup = ρ →
    match f a a with
      | .ok (_, a') => a'.scope = a.scope ∧ a'.outer = a.outer ∧ P
      | .error d => d.IsLimit ∨ ¬ P ∧ K d) : Judged ρ (get >>= f) P K :=
  h

/-- Adds an operation with an operand that may be too large. -/
theorem indexed {short long : Opcode} {n : Nat} {fault : OperandFault → CompileFault}
    (hfault : ∀ f, (fault f).isLimit = true) : Judged ρ (do
      let a ← get
      match a.chunk.emitIndexed short long n span with
      | .ok chunk => set { a with chunk }
      | .error f => fail (fault f) span : Assemble Unit) True K := by
  refine get_bind fun a _ => ?_
  cases a.chunk.emitIndexed short long n span with
  | ok c => exact ⟨rfl, rfl, trivial⟩
  | error f => exact .inl ⟨fault f, span, hfault f, rfl⟩

theorem emitIndexed {short long : Opcode} {n : Nat} :
    Judged ρ (emitIndexed short long n span) True K :=
  indexed fun _ => rfl

theorem emitConstant {v : Value} : Judged ρ (emitConstant v span) True K :=
  constant.after fun _ => indexed fun _ => rfl

theorem emitJump {op : Opcode} : Judged ρ (emitJump op span) True K :=
  fun _ _ => ⟨rfl, rfl, trivial⟩

theorem here : Judged ρ here True K :=
  fun _ _ => ⟨rfl, rfl, trivial⟩

theorem emitLoop {start : Nat} : Judged ρ (emitLoop start span) True K :=
  fun _ _ => ⟨rfl, rfl, trivial⟩

theorem patch {j : Nat} : Judged ρ (patch j) True K :=
  fun _ _ => ⟨rfl, rfl, trivial⟩

theorem patchAll : ∀ {js : List Nat}, Judged ρ (patchAll js) True K
  | [] => pure ()
  | _ :: _ => patch.after fun _ => patchAll

theorem patchOption : ∀ {j : Option Nat}, Judged ρ (patchOption j) True K
  | none => pure ()
  | some _ => patch

/-- A diagnostic that `P` does not hold. -/
theorem fail {f : CompileFault} (hP : ¬ P) (hK : K (f.diagnostic span)) :
    Judged ρ (fail f span : Assemble α) P K :=
  fun _ _ => .inr ⟨hP, hK⟩

end Judged

/-- A name that leads nowhere is an unknown symbol. -/
private theorem kind_of_resolve {s : Scope} {outer : List Scope} {name : Text} {f : CompileFault}
    (h : s.resolve outer name = .error f) : f.kind = .unknownSymbol := by
  have houter (outer : List Scope) (h : Scope.resolveOuter name outer = .error f) :
      f.kind = .unknownSymbol := by
    induction outer with
    | nil =>
      cases h
      rfl
    | cons t outer ih =>
      rw [Scope.resolveOuter] at h
      split at h
      · exact ih h
      · split at h <;> cases h
        rfl
  rw [Scope.resolve] at h
  split at h
  · cases h
  · exact houter outer h

/-- Nothing changes when it is found out where a name leads. -/
theorem run_resolve (id : Ident) (a : Assembly) : resolve id a =
    ((a.scope.resolve a.outer id.name).mapError fun f => f.diagnostic id.span).map (·, a) := by
  unfold resolve
  dsimp only [bind, StateT.bind, get, getThe, MonadStateOf.get, StateT.get, pure, Except.pure,
    Except.bind]
  cases a.scope.resolve a.outer id.name <;> rfl

namespace Judged

/-- What is done with what a name leads to. -/
theorem resolve {id : Ident} {g : Binding → Assemble α} (hK : ∀ d, d.kind = .unknownSymbol → K d)
    (hnone : ρ id.name = none → ¬ P)
    (hsome : ∀ b, ρ id.name = some (b.function?.map KnownFunction.arity) → Judged ρ (g b) P K) :
    Judged ρ (resolve id >>= g) P K := by
  intro a ha
  have hrun : (Assemble.resolve id >>= g) a = (Assemble.resolve id a).bind fun r => g r.1 r.2 := rfl
  rw [hrun, run_resolve]
  have hlookup : ρ id.name = (a.scope.resolve a.outer id.name).toOption.map
      fun b => b.function?.map KnownFunction.arity := by
    rw [← ha]
    rfl
  cases hr : a.scope.resolve a.outer id.name with
  | error f =>
    rw [hr] at hlookup
    exact .inr ⟨hnone hlookup, hK _ (kind_of_resolve hr)⟩
  | ok b =>
    rw [hr] at hlookup
    exact hsome b hlookup a ha

theorem readName {id : Ident} (hK : ∀ d, d.kind = .unknownSymbol → K d) :
    Judged ρ (readName id) (id.Scoped ρ) K := by
  unfold Assemble.readName
  split
  · rename_i hit
    exact emit.congr (iff_of_true trivial (.inl hit))
  · rename_i hit
    refine resolve hK (fun hnone h => ?_) fun b hb => ?_
    · rw [Ident.Scoped, hnone] at h
      exact h.elim hit Bool.false_ne_true
    · have hscoped : id.Scoped ρ := .inr (by rw [hb]; rfl)
      cases b with
      | slot n f => exact emitIndexed.congr (iff_of_true trivial hscoped)
      | outer f => exact emitConstant.congr (iff_of_true trivial hscoped)

theorem ite {c : Prop} [Decidable c] {x y : Assemble α} (hx : c → Judged ρ x P K)
    (hy : ¬ c → Judged ρ y P K) : Judged ρ (if c then x else y) P K := by
  split
  · exact hx ‹_›
  · exact hy ‹_›

theorem emitPops {n : Nat} : Judged ρ (emitPops n span) True K :=
  ite (fun _ => pure ()) fun _ => emitIndexed

theorem readCallee {id : Ident} {argc : Nat}
    (hK : ∀ d, d.kind = .unknownSymbol ∨ d.kind = .argumentCount → K d) :
    Judged ρ (readCallee id argc) (id.ScopedCall ρ argc) K := by
  have hunknown (d : Diagnostic) (hd : d.kind = .unknownSymbol) : K d := hK d (.inl hd)
  -- a name that can be called can be read
  have hread (h : id.Scoped ρ → id.ScopedCall ρ argc) :
      Judged ρ (Assemble.readName id) (id.ScopedCall ρ argc) K :=
    (readName hunknown).congr ⟨h, fun h => h.2.imp_right fun ⟨arity, harity, _⟩ =>
      Option.isSome_iff_exists.2 ⟨arity, harity⟩⟩
  refine ite (fun hmany => fail (fun h => Nat.not_le_of_lt hmany h.1) (hK _ (.inr rfl))) fun hfew =>
    ite (fun hit => resolve hunknown (fun hnone h => ?_) fun b hb => ?_) fun hit =>
      hread fun _ => ⟨Nat.le_of_not_lt hfew, .inl (Decidable.of_not_not hit)⟩
  · obtain ⟨arity, harity, -⟩ := h.2.resolve_left hit
    rw [hnone] at harity
    cases harity
  · cases hfunction : b.function? with
    | none =>
      rw [hfunction] at hb
      exact hread fun _ => ⟨Nat.le_of_not_lt hfew, .inr ⟨none, hb, nofun⟩⟩
    | some f =>
      rw [hfunction] at hb
      refine ite (fun hne => fail (fun h => ?_) (hK _ (.inr rfl))) fun heq => hread fun _ =>
        ⟨Nat.le_of_not_lt hfew, .inr ⟨_, hb, ?_⟩⟩
      · obtain ⟨arity, harity, hargc⟩ := h.2.resolve_left hit
        rw [hb] at harity
        cases harity
        exact hne (hargc f.arity rfl)
      · rintro n ⟨⟩
        exact Decidable.of_not_not heq

/-- Where the same has to hold for two steps, both succeed or both fail, with diagnostics of the same
class, as long as no operand is too large. -/
theorem both {y : Assemble β} {a : Assembly} (hx : Judged a.lookup x P K)
    (hy : Judged a.lookup y Q K) (h : P ↔ Q) (hfits : Fits (x a)) (hfits' : Fits (y a)) :
    (∃ r r', x a = .ok r ∧ y a = .ok r') ∨
      ∃ d d', (x a = .error d ∧ K d) ∧ y a = .error d' ∧ K d' := by
  have hx := hx a rfl
  have hy := hy a rfl
  cases hrun : x a with
  | error d =>
    rw [hrun] at hx
    obtain ⟨hnot, hd⟩ := hx.resolve_left (hfits d hrun)
    cases hrun' : y a with
    | error d' =>
      rw [hrun'] at hy
      exact .inr ⟨d, d', ⟨rfl, hd⟩, rfl, (hy.resolve_left (hfits' d' hrun')).2⟩
    | ok r' =>
      rw [hrun'] at hy
      exact absurd (h.2 hy.2.2) hnot
  | ok r =>
    rw [hrun] at hx
    cases hrun' : y a with
    | error d' =>
      rw [hrun'] at hy
      exact absurd (h.1 hx.2.2) (hy.resolve_left (hfits' d' hrun')).1
    | ok r' => exact .inl ⟨r, r', rfl, rfl⟩

end Judged
end Assemble

open Assemble

variable {ρ : Lookup} {K : Diagnostic → Prop}

private theorem Splice.judged_readAll (hK : ∀ d : Diagnostic, d.kind = .unknownSymbol → K d) :
    ∀ ss : List Splice, Judged ρ (readAll ss) (∀ x ∈ ss, x.name.Scoped ρ) K
  | [] => (Judged.pure ()).congr (iff_of_true trivial nofun)
  | _ :: ss => ((Judged.readName hK).bind fun _ => judged_readAll hK ss).congr
      (List.forall_mem_cons (p := fun x : Splice => x.name.Scoped ρ)).symm

namespace Expr

mutual

/-- An expression compiles if its names can be used as they are, apart from operands that are too
large. Only a call can have a wrong number of arguments. -/
theorem judged (hK : ∀ d : Diagnostic, d.kind = .unknownSymbol → K d) : ∀ x : Expr,
    (x.hasCall = true → ∀ d : Diagnostic, d.kind = .argumentCount → K d) →
      Judged ρ x.assemble (x.Scoped ρ) K
  | .int _ _, _ | .float _ _, _ | .string _ _, _ | .bool _ _, _ | .null _, _ | .concat _ [], _
  | .nary _ _ [], _ => Judged.emitConstant
  | .it _, _ => Judged.emit
  | .var _ _, _ => Judged.readName hK
  | .interp _ _ ss, _ => (Splice.judged_readAll hK ss).before fun _ =>
      Judged.constant.after fun _ => Judged.emitIndexed
  | .list _ xs, hcall => (judgedAll hK xs hcall).before fun _ => Judged.emitIndexed
  | .call _ _ xs, hcall => (Judged.readCallee fun d hd => hd.elim (hK d) (hcall rfl d)).bind
      fun _ => (judgedAll hK xs fun _ => hcall rfl).before fun _ => Judged.emit
  | .concat _ [x], hcall => Judged.emitConstant.after fun _ =>
      ((judged hK x fun h => hcall (Bool.or_eq_true_iff.2 (.inl h))).before fun _ =>
        Judged.emit).congr (iff_of_eq (and_true _)).symm
  | .nary _ _ [x], hcall => ((judged hK x fun h => hcall (Bool.or_eq_true_iff.2 (.inl h))).before
      fun _ => Judged.emit).congr (iff_of_eq (and_true _)).symm
  | .concat _ (x :: y :: ys), hcall | .nary _ _ (x :: y :: ys), hcall =>
    (judged hK x fun h => hcall (Bool.or_eq_true_iff.2 (.inl h))).bind fun _ =>
      judgedEach hK (y :: ys) fun h => hcall (Bool.or_eq_true_iff.2 (.inr h))
  | .cast _ x _, hcall | .unary _ _ x, hcall | .pickFront _ x, hcall | .pickBack _ x, hcall =>
    (judged hK x hcall).before fun _ => Judged.emit
  | .binary _ _ x y, hcall =>
    (judged hK x fun h => hcall (Bool.or_eq_true_iff.2 (.inl h))).bind fun _ =>
      (judged hK y fun h => hcall (Bool.or_eq_true_iff.2 (.inr h))).before fun _ => Judged.emit
  | .pickAt _ i x, hcall =>
    (judged hK x fun h => hcall (Bool.or_eq_true_iff.2 (.inr h))).bind fun _ =>
      (judged hK i fun h => hcall (Bool.or_eq_true_iff.2 (.inl h))).before fun _ => Judged.emit

theorem judgedAll (hK : ∀ d : Diagnostic, d.kind = .unknownSymbol → K d) :
    ∀ xs : List Expr,
    (anyCall xs = true → ∀ d : Diagnostic, d.kind = .argumentCount → K d) →
      Judged ρ (assembleAll xs) (ScopedAll ρ xs) K
  | [], _ => Judged.pure ()
  | x :: xs, hcall => (judged hK x fun h => hcall (Bool.or_eq_true_iff.2 (.inl h))).bind fun _ =>
      judgedAll hK xs fun h => hcall (Bool.or_eq_true_iff.2 (.inr h))

theorem judgedEach (hK : ∀ d : Diagnostic, d.kind = .unknownSymbol → K d)
    {op : Opcode} {span : Span} : ∀ xs : List Expr,
    (anyCall xs = true → ∀ d : Diagnostic, d.kind = .argumentCount → K d) →
      Judged ρ (assembleEach op span xs) (ScopedAll ρ xs) K
  | [], _ => Judged.pure ()
  | x :: xs, hcall => (judged hK x fun h => hcall (Bool.or_eq_true_iff.2 (.inl h))).bind fun _ =>
      Judged.emit.after fun _ => judgedEach hK xs fun h => hcall (Bool.or_eq_true_iff.2 (.inr h))

end

end Expr
end LolToolchain
