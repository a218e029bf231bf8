import LolToolchain.Proofs.Code.Admission
import LolToolchain.Proofs.Program.Sameness

/-!
Folding comparisons does not change which programs compile. A folded comparison drops an operand that
names what an operand it keeps names, and puts the others in another order; whether the names can be
used does not depend on either. The code before a function may get shorter, so functions have other
addresses, but apart from these the names in use stay the same.
-/
namespace LolToolchain

namespace Expr

variable {ρ : Lookup} {span : Span} {op : BinaryOp} {left right x : Expr}

theorem scoped_congr {splices splices' : List Splice} (h : Splice.sameAll splices splices' = true) :
    (∀ x ∈ splices, x.name.Scoped ρ) ↔ ∀ x ∈ splices', x.name.Scoped ρ := by
  have hsplices (ss : List Splice) :
      (∀ x ∈ ss, x.name.Scoped ρ) ↔ ∀ x ∈ ss.map Splice.unspanned, x.name.Scoped ρ := by
    rw [List.forall_mem_map]
    rfl
  rw [hsplices splices, hsplices splices', Splice.sameAll_iff.1 h]

theorem SameAll.length_eq {xs ys : List Expr} (h : SameAll xs ys) : xs.length = ys.length := by
  induction xs generalizing ys with
  | nil =>
    cases h
    rfl
  | cons x xs ih =>
    cases h with
    | cons _ hs => exact congrArg Nat.succ (ih hs)

mutual

theorem Same.scoped : ∀ {x y : Expr}, x.Same y → (x.Scoped ρ ↔ y.Scoped ρ)
  | _, _, .int _ | _, _, .float _ | _, _, .string _ | _, _, .bool _ | _, _, .null | _, _, .it => Iff.rfl
  | _, _, .interp _ h => scoped_congr h
  | _, _, .var h => by rw [Scoped, Scoped, Ident.Scoped, Ident.Scoped, h]
  | _, _, .call hname h => by
    rw [Scoped, Scoped, Ident.ScopedCall, Ident.ScopedCall, hname, h.length_eq, h.scoped]
  | _, _, .list h | _, _, .concat h | _, _, .nary _ h => h.scoped
  | _, _, .cast h _ | _, _, .unary _ h | _, _, .pickFront h | _, _, .pickBack h => h.scoped
  | _, _, .binary _ h h' => and_congr h.scoped h'.scoped
  | _, _, .pickAt h h' => and_congr h'.scoped h.scoped

theorem SameAll.scoped : ∀ {xs ys : List Expr}, SameAll xs ys → (ScopedAll ρ xs ↔ ScopedAll ρ ys)
  | _, _, .nil => Iff.rfl
  | _, _, .cons h hs => and_congr h.scoped hs.scoped

end

/-- The dropped operand names what the kept one names. -/
private theorem scoped_foldComparison :
    (foldComparison span op left right).Scoped ρ ↔ left.Scoped ρ ∧ right.Scoped ρ := by
  rcases foldComparison_cases span op left right with hkept | ⟨m, other, matched, rest, hfolds⟩
  · rw [hkept, Scoped]
  · obtain ⟨hsame, hoperands⟩ := hfolds.operands_eq
    have hother : matched.Scoped ρ ↔ other.Scoped ρ := (same_iff.1 hsame).scoped
    have hordering : (m.ordering span op matched rest).Scoped ρ ↔ matched.Scoped ρ ∧ rest.Scoped ρ := by
      rw [Extreme.ordering]
      split
      · rw [Scoped]
      · rw [Scoped, and_comm]
    have hextreme (s : Span) : (binary s m.op m.left m.right).Scoped ρ ↔
        matched.Scoped ρ ∧ rest.Scoped ρ := by
      rw [Scoped]
      obtain ⟨rfl, rfl⟩ | ⟨rfl, rfl⟩ := hoperands
      · exact Iff.rfl
      · exact and_comm
    rw [hfolds.fold_eq, hordering]
    obtain ⟨s, ⟨rfl, rfl⟩ | ⟨rfl, rfl⟩⟩ := hfolds.sides_eq
    · rw [hextreme, ← hother]
      exact ⟨fun h => ⟨h, h.1⟩, And.left⟩
    · rw [hextreme, ← hother]
      exact ⟨fun h => ⟨h.1, h⟩, And.right⟩

private theorem length_simplifyAll (xs : List Expr) : (simplifyAll xs).length = xs.length := by
  induction xs with
  | nil => rfl
  | cons x xs ih => exact congrArg Nat.succ ih

mutual

theorem scoped_simplify : ∀ x : Expr, x.simplify.Scoped ρ ↔ x.Scoped ρ
  | .int _ _ | .float _ _ | .string _ _ | .interp _ _ _ | .bool _ _ | .null _ | .it _ | .var _ _ => Iff.rfl
  | .call _ _ xs => by
    rw [simplify, Scoped, Scoped, length_simplifyAll, scoped_simplifyAll xs]
  | .list _ xs | .concat _ xs | .nary _ _ xs => scoped_simplifyAll xs
  | .cast _ x _ | .unary _ _ x | .pickFront _ x | .pickBack _ x => scoped_simplify x
  | .binary _ _ x y => scoped_foldComparison.trans (and_congr (scoped_simplify x) (scoped_simplify y))
  | .pickAt _ i x => and_congr (scoped_simplify x) (scoped_simplify i)

theorem scoped_simplifyAll : ∀ xs : List Expr, ScopedAll ρ (simplifyAll xs) ↔ ScopedAll ρ xs
  | [] => Iff.rfl
  | x :: xs => and_congr (scoped_simplify x) (scoped_simplifyAll xs)

end

end Expr

def KnownFunction.outline (f : KnownFunction) : KnownFunction :=
  { f with offset := 0 }

def Local.outline (l : Local) : Local :=
  { l with function := l.function.map KnownFunction.outline }

def Breakable.outline (b : Breakable) : Breakable :=
  { b with exits := [] }

def Binding.outline : Binding → Binding
  | .slot n f => .slot n (f.map KnownFunction.outline)
  | .outer f => .outer f.outline

namespace Scope

/-- A scope without the places in the code that it knows. -/
def outline (s : Scope) : Scope :=
  { s with
    locals := s.locals.map Local.outline
    breakables := s.breakables.map Breakable.outline }

variable {s : Scope} {name : Text}

private theorem find?_outline : s.outline.find? name = (s.find? name).map fun r => (r.1, r.2.outline) := by
  unfold find?
  cases hslot : s.slots name with
  | none =>
    have hslot' : s.outline.slots name = none := hslot
    rw [hslot']
    rfl
  | some n =>
    have hslot' : s.outline.slots name = some n := hslot
    have hlocal : s.outline.local? n = (s.local? n).map Local.outline := by
      rw [local?, local?, outline, ← List.map_reverse, List.getElem?_map]
    rw [hslot']
    simp only [Option.bind_eq_bind, Option.bind_some, hlocal]
    cases s.local? n <;> rfl

theorem resolve_outline (s : Scope) (outer : List Scope) (name : Text) :
    s.outline.resolve (outer.map outline) name = (s.resolve outer name).map Binding.outline := by
  have houter : resolveOuter name (outer.map outline) =
      (resolveOuter name outer).map Binding.outline := by
    induction outer with
    | nil => rfl
    | cons t outer ih =>
      rw [List.map_cons, resolveOuter, resolveOuter, find?_outline]
      cases t.find? name with
      | none => exact ih
      | some r =>
        obtain ⟨n, name, depth, function⟩ := r
        cases function <;> rfl
  rw [resolve, resolve, find?_outline]
  cases s.find? name with
  | none => exact houter
  | some r => rfl

theorem outline_declare (s : Scope) (name : Text) (f : Option KnownFunction) :
    (s.declare name f).outline = s.outline.declare name (f.map KnownFunction.outline) := by
  simp only [declare, outline, List.length_map, List.map_cons, Local.outline]

theorem outline_forget (s : Scope) (n : Nat) : (s.forget n).outline = s.outline.forget n := by
  have hforget (ls : List Local) :
      (forgetIn n ls).map Local.outline = forgetIn n (ls.map Local.outline) := by
    induction ls with
    | nil => rfl
    | cons l ls ih =>
      simp only [forgetIn, List.map_cons, List.length_map]
      split
      · rfl
      · rw [List.map_cons, ih]
  simp only [forget, outline, hforget]

private theorem slotIn_outline (name : Text) (ls : List Local) :
    slotIn name (ls.map Local.outline) = slotIn name ls := by
  induction ls with
  | nil => rfl
  | cons l ls ih =>
    rw [List.map_cons, slotIn, slotIn, ih, List.length_map]
    rfl

private theorem uncover_outline (depth : Nat) (ls : List Local) (slots : Text → Option Nat) :
    uncover depth (ls.map Local.outline) slots = uncover depth ls slots := by
  induction ls generalizing slots with
  | nil => rfl
  | cons l ls ih =>
    rw [List.map_cons, uncover, uncover, ih]
    simp only [slotIn_outline]
    rfl

theorem outline_close (s : Scope) : s.outline.close = (s.close.1, s.close.2.outline) := by
  have hkept (depth : Nat) : (s.locals.map Local.outline).dropWhile (fun l => depth < l.depth) =
      (s.locals.dropWhile fun l => depth < l.depth).map Local.outline :=
    List.dropWhile_map ..
  have hclose : s.outline.close = ((s.locals.map Local.outline).length -
      ((s.locals.map Local.outline).dropWhile fun l => s.depth - 1 < l.depth).length,
      { s.outline with
        locals := (s.locals.map Local.outline).dropWhile fun l => s.depth - 1 < l.depth
        slots := uncover (s.depth - 1) (s.locals.map Local.outline) s.slots
        depth := s.depth - 1 }) := rfl
  rw [hclose, hkept, List.length_map, List.length_map, uncover_outline]
  rfl

/-- Scopes that are alike have the same constructs that `GTFO` can leave. -/
theorem breakables_of_outline {s t : Scope} (h : s.outline = t.outline) :
    (s.breakables = [] ∧ t.breakables = []) ∨ ∃ kind locals exits exits' rest rest',
      s.breakables = ⟨kind, locals, exits⟩ :: rest ∧ t.breakables = ⟨kind, locals, exits'⟩ :: rest' ∧
        rest.map Breakable.outline = rest'.map Breakable.outline := by
  have hbreakables : s.breakables.map Breakable.outline = t.breakables.map Breakable.outline :=
    congrArg Scope.breakables h
  cases hs : s.breakables with
  | nil =>
    rw [hs, List.map_nil, eq_comm, List.map_eq_nil_iff] at hbreakables
    exact .inl ⟨rfl, hbreakables⟩
  | cons b rest =>
    rw [hs, List.map_cons, eq_comm, List.map_eq_cons_iff] at hbreakables
    obtain ⟨b', rest', ht, hb, hrest⟩ := hbreakables
    obtain ⟨kind, locals, exits⟩ := b
    obtain ⟨kind', locals', exits'⟩ := b'
    obtain rfl : kind' = kind := congrArg Breakable.kind hb
    obtain rfl : locals' = locals := congrArg Breakable.locals hb
    exact .inr ⟨_, _, exits, exits', rest, rest', rfl, ht, hrest.symm⟩

end Scope

namespace Assembly

/-- The names in use, without the places in the code that are known of them. -/
def outline (a : Assembly) : Scope × List Scope :=
  (a.scope.outline, a.outer.map Scope.outline)

variable {a b : Assembly}

theorem resolve_of_outline (h : a.outline = b.outline) (name : Text) :
    (a.scope.resolve a.outer name).map Binding.outline =
      (b.scope.resolve b.outer name).map Binding.outline := by
  obtain ⟨hscope, houter⟩ := Prod.mk.inj h
  rw [← Scope.resolve_outline, ← Scope.resolve_outline, hscope, houter]

private theorem lookup_of_outline (h : a.outline = b.outline) : a.lookup = b.lookup := by
  funext name
  have harity (r : Except CompileFault Binding) :
      (r.toOption.map fun b => b.function?.map KnownFunction.arity) =
        (r.map Binding.outline).toOption.map fun b => b.function?.map KnownFunction.arity := by
    cases r with
    | error f => rfl
    | ok b =>
      cases b with
      | slot n f => cases f <;> rfl
      | outer f => rfl
  rw [lookup, harity, resolve_of_outline h, ← harity, lookup]

end Assembly

namespace Assemble

/-- Both compilations succeed, with the same names in use, or both fail; but an operand may be too large
in one of them only. -/
def Tally {α β : Type} (R : α → β → Prop) :
    Except Diagnostic (α × Assembly) → Except Diagnostic (β × Assembly) → Prop
  | .ok (r, a), .ok (r', b) => R r r' ∧ a.outline = b.outline
  | .ok _, .error d | .error d, .ok _ => d.IsLimit
  | .error _, .error _ => True

/-- Two steps that succeed alike where the same names are in use. -/
def Tallies {α β : Type} (x : Assemble α) (y : Assemble β) (R : α → β → Prop) : Prop :=
  ∀ a b : Assembly, a.outline = b.outline → Tally R (x a) (y b)

namespace Tallies

variable {α β γ δ : Type} {x : Assemble α} {y : Assemble β} {f : α → Assemble γ}
  {g : β → Assemble δ} {R : α → β → Prop} {S : γ → δ → Prop} {span span' : Span} {id : Ident}

theorem bind (hx : Tallies x y R) (hf : ∀ r r', R r r' → Tallies (f r) (g r') S) :
    Tallies (x >>= f) (y >>= g) S := by
  intro a b hab
  have hx := hx a b hab
  change Tally S (x a >>= fun r => f r.1 r.2) (y b >>= fun r => g r.1 r.2)
  cases hrun : x a with
  | error d =>
    cases hrun' : y b with
    | error d' => exact trivial
    | ok r' =>
      rw [hrun, hrun'] at hx
      change Tally S (.error d) (g r'.1 r'.2)
      cases g r'.1 r'.2 with
      | error d' => exact trivial
      | ok s => exact hx
  | ok r =>
    cases hrun' : y b with
    | error d' =>
      rw [hrun, hrun'] at hx
      change Tally S (f r.1 r.2) (.error d')
      cases f r.1 r.2 with
      | error d => exact trivial
      | ok s => exact hx
    | ok r' =>
      rw [hrun, hrun'] at hx
      exact hf r.1 r'.1 hx.1 r.2 r'.2 hx.2

/-- Steps that leave the names in use alone, and succeed alike. -/
theorem of_judged {P Q : Lookup → Prop} (hx : ∀ ρ, Judged ρ x (P ρ) fun _ => True)
    (hy : ∀ ρ, Judged ρ y (Q ρ) fun _ => True) (h : ∀ ρ, P ρ ↔ Q ρ) :
    Tallies x y fun _ _ => True := by
  intro a b hab
  have hx := hx a.lookup a rfl
  have hy := hy a.lookup b (Assembly.lookup_of_outline hab).symm
  cases hrun : x a with
  | error d =>
    cases hrun' : y b with
    | error d' => exact trivial
    | ok r' =>
      rw [hrun] at hx
      rw [hrun'] at hy
      exact hx.resolve_right fun hP => hP.1 ((h _).2 hy.2.2)
  | ok r =>
    rw [hrun] at hx
    cases hrun' : y b with
    | error d' =>
      rw [hrun'] at hy
      exact hy.resolve_right fun hQ => hQ.1 ((h _).1 hx.2.2)
    | ok r' =>
      rw [hrun'] at hy
      refine ⟨trivial, ?_⟩
      rw [Assembly.outline, hx.1, hx.2.1, Assembly.outline, hy.1, hy.2.1]
      exact hab

/-- Steps that only add code. -/
theorem of_code (hx : ∀ ρ, Judged ρ x True fun _ => True) (hy : ∀ ρ, Judged ρ y True fun _ => True) :
    Tallies x y fun _ _ => True :=
  of_judged hx hy fun _ => Iff.rfl

section

variable {op op' : Opcode} {operand operand' : List UInt8} {short long : Opcode} {n n' : Nat}
  {v v' : Value}

theorem emit : Tallies (emit op span operand) (emit op' span' operand') fun _ _ => True :=
  of_code (fun _ => .emit) fun _ => .emit

theorem emitIndexed : Tallies (emitIndexed short long n span) (emitIndexed short long n' span')
    fun _ _ => True :=
  of_code (fun _ => .emitIndexed) fun _ => .emitIndexed

theorem emitConstant : Tallies (emitConstant v span) (emitConstant v' span') fun _ _ => True :=
  of_code (fun _ => .emitConstant) fun _ => .emitConstant

theorem emitPops : Tallies (emitPops n span) (emitPops n' span') fun _ _ => True :=
  of_code (fun _ => .emitPops) fun _ => .emitPops

theorem emitJump : Tallies (emitJump op span) (emitJump op' span') fun _ _ => True :=
  of_code (fun _ => .emitJump) fun _ => .emitJump

theorem emitLoop : Tallies (emitLoop n span) (emitLoop n' span') fun _ _ => True :=
  of_code (fun _ => .emitLoop) fun _ => .emitLoop

theorem here : Tallies here here fun _ _ => True :=
  of_code (fun _ => .here) fun _ => .here

theorem patch : Tallies (patch n) (patch n') fun _ _ => True :=
  of_code (fun _ => .patch) fun _ => .patch

theorem patchAll {js js' : List Nat} : Tallies (patchAll js) (patchAll js') fun _ _ => True :=
  of_code (fun _ => .patchAll) fun _ => .patchAll

theorem patchOption {j j' : Option Nat} :
    Tallies (patchOption j) (patchOption j') fun _ _ => True :=
  of_code (fun _ => .patchOption) fun _ => .patchOption

theorem readName : Tallies (readName id) (readName id) fun _ _ => True :=
  of_judged (fun _ => .readName fun _ _ => trivial) (fun _ => .readName fun _ _ => trivial)
    fun _ => Iff.rfl

end

theorem pure {r : α} {r' : β} (h : R r r') : Tallies (pure r) (pure r') R :=
  fun _ _ hab => ⟨h, hab⟩

theorem fail {fault fault' : CompileFault} :
    Tallies (fail fault span : Assemble α) (Assemble.fail fault' span' : Assemble β) R :=
  fun _ _ _ => trivial

theorem ite {p : Prop} [Decidable p] {x' : Assemble α} {y' : Assemble β} (hx : Tallies x y R)
    (hx' : Tallies x' y' R) : Tallies (if p then x else x') (if p then y else y') R := by
  split
  · exact hx
  · exact hx'

theorem modify {g g' : Assembly → Assembly}
    (h : ∀ a b : Assembly, a.outline = b.outline → (g a).outline = (g' b).outline) :
    Tallies (modify g) (modify g') fun _ _ => True :=
  fun a b hab => ⟨trivial, h a b hab⟩

theorem updateScope {g g' : Scope → Scope}
    (h : ∀ s t : Scope, s.outline = t.outline → (g s).outline = (g' t).outline) :
    Tallies (updateScope g) (updateScope g') fun _ _ => True :=
  modify fun _ _ hab => Prod.ext (h _ _ (Prod.mk.inj hab).1) (Prod.mk.inj hab).2

theorem scope : Tallies scope scope fun s t => s.outline = t.outline :=
  fun _ _ hab => ⟨(Prod.mk.inj hab).1, hab⟩

private theorem resolve : Tallies (resolve id) (resolve id) fun r r' => r.outline = r'.outline := by
  intro a b hab
  have hresolve := Assembly.resolve_of_outline hab id.name
  rw [run_resolve, run_resolve]
  cases hr : a.scope.resolve a.outer id.name with
  | error f =>
    rw [hr] at hresolve
    cases hr' : b.scope.resolve b.outer id.name with
    | error f' => exact trivial
    | ok r' =>
      rw [hr'] at hresolve
      cases hresolve
  | ok r =>
    rw [hr] at hresolve
    cases hr' : b.scope.resolve b.outer id.name with
    | error f' =>
      rw [hr'] at hresolve
      cases hresolve
    | ok r' =>
      rw [hr'] at hresolve
      exact ⟨Except.ok.inj hresolve, hab⟩

theorem writeName : Tallies (writeName id) (writeName id) fun _ _ => True := by
  refine ite (emit) (resolve.bind fun r r' hr => ?_)
  cases r with
  | slot n f =>
    cases r' with
    | slot n' f' =>
      obtain rfl : n = n' := (Binding.slot.inj hr).1
      refine bind (updateScope fun s t hst => ?_) fun _ _ _ =>
        emitIndexed
      rw [Scope.outline_forget, Scope.outline_forget, hst]
    | outer f' => cases hr
  | outer f =>
    cases r' with
    | slot n' f' => cases hr
    | outer f' => exact fail

theorem declare {name : Text} {f f' : Option KnownFunction}
    (h : f.map KnownFunction.outline = f'.map KnownFunction.outline) :
    Tallies (declare name f) (declare name f') fun _ _ => True :=
  updateScope fun s t hst => by rw [Scope.outline_declare, Scope.outline_declare, h, hst]

theorem openScope : Tallies openScope openScope fun _ _ => True :=
  updateScope fun _ _ hst => congrArg (fun s : Scope => { s with depth := s.depth + 1 }) hst

theorem closeScope : Tallies (closeScope span) (closeScope span') fun _ _ => True := by
  refine scope.bind fun s t hst => ?_
  have hclose : s.close.2.outline = t.close.2.outline := by
    have hs := s.outline_close
    rw [hst, t.outline_close] at hs
    exact (Prod.mk.inj hs).2.symm
  exact bind (updateScope fun _ _ _ => hclose) fun _ _ _ =>
    emitPops

theorem openBreakable {kind : BreakableKind} :
    Tallies (openBreakable kind) (openBreakable kind) fun _ _ => True :=
  updateScope fun s t hst => by
    have hlocals : s.locals.length = t.locals.length := by
      have h := congrArg (fun u : Scope => u.locals.length) hst
      simpa only [Scope.outline, List.length_map] using h
    rw [hlocals]
    exact congrArg (fun u : Scope =>
      { u with breakables := ⟨kind, t.locals.length, []⟩ :: u.breakables }) hst

theorem closeBreakable : Tallies closeBreakable closeBreakable fun _ _ => True := by
  refine scope.bind fun s t hst => ?_
  obtain ⟨hs, ht⟩ | ⟨kind, locals, exits, exits', rest, rest', hs, ht, hrest⟩ :=
    Scope.breakables_of_outline hst
  · rw [hs, ht]
    exact pure trivial
  · rw [hs, ht]
    refine patchAll.bind fun _ _ _ => updateScope fun u v huv => ?_
    change { u.outline with breakables := rest.map Breakable.outline } =
      { v.outline with breakables := rest'.map Breakable.outline }
    rw [huv, hrest]

theorem leave : Tallies (leave span) (leave span') fun _ _ => True := by
  refine scope.bind fun s t hst => ?_
  obtain ⟨hs, ht⟩ | ⟨kind, locals, exits, exits', rest, rest', hs, ht, hrest⟩ :=
    Scope.breakables_of_outline hst
  · rw [hs, ht]
    exact fail
  · rw [hs, ht]
    have hexit : Tallies (do
          Assemble.emitPops (s.locals.length - locals) span
          let exit ← Assemble.emitJump .jump span
          Assemble.updateScope fun u => { u with
            breakables := ⟨kind, locals, exits ++ [exit]⟩ :: rest })
        (do
          Assemble.emitPops (t.locals.length - locals) span'
          let exit ← Assemble.emitJump .jump span'
          Assemble.updateScope fun u => { u with
            breakables := ⟨kind, locals, exits' ++ [exit]⟩ :: rest' }) fun _ _ => True := by
      refine emitPops.bind fun _ _ _ => emitJump.bind fun _ _ _ => updateScope fun u v huv => ?_
      change { u.outline with breakables := ⟨kind, locals, []⟩ :: rest.map Breakable.outline } =
        { v.outline with breakables := ⟨kind, locals, []⟩ :: rest'.map Breakable.outline }
      rw [huv, hrest]
    cases kind with
    | function => exact emitConstant.bind fun _ _ _ => emit
    | loop | switch => exact hexit

end Tallies
end Assemble

open Assemble

section

variable {span : Span}

theorem Expr.tallies (x : Expr) : Tallies x.assemble x.simplify.assemble fun _ _ => True :=
  .of_judged (fun _ => x.judged (fun _ _ => trivial) fun _ _ _ => trivial)
    (fun _ => x.simplify.judged (fun _ _ => trivial) fun _ _ _ => trivial)
    fun _ => (Expr.scoped_simplify x).symm

theorem Initial.tallies (i : Initial) :
    Tallies (i.assemble span) (i.simplify.assemble span) fun _ _ => True := by
  cases i with
  | absent => exact .emitConstant
  | value e => exact e.tallies
  | typed t =>
    cases t with
    | bukkit => exact .emit
    | _ => exact .emitConstant

private theorem Expr.talliesJoined : ∀ xs : List Expr,
    Tallies (assembleJoined xs) (assembleJoined (simplifyAll xs)) fun _ _ => True
  | [] => .pure trivial
  | x :: xs => x.tallies.bind fun _ _ _ => Tallies.emit.bind fun _ _ _ => talliesJoined xs

theorem tallies_assemblePrinted (args : List Expr) :
    Tallies (assemblePrinted span args) (assemblePrinted span (Expr.simplifyAll args))
      fun _ _ => True := by
  cases args with
  | nil => exact .emitConstant
  | cons x xs => exact x.tallies.bind fun _ _ _ => Expr.talliesJoined xs

theorem LoopTest.tallies (t : LoopTest) :
    Tallies t.assemble t.simplify.assemble fun _ _ => True := by
  have hjump {s s' : Span} : Tallies (do return some (← emitJump .jumpIfFalse s))
      (do return some (← emitJump .jumpIfFalse s')) fun _ _ => True :=
    Tallies.emitJump.bind fun _ _ _ => .pure trivial
  cases t with
  | forever => exact .pure trivial
  | untilTrue e =>
    exact e.tallies.bind fun _ _ _ => Tallies.emit.bind fun _ _ _ => hjump
  | whileTrue e => exact e.tallies.bind fun _ _ _ => hjump

theorem LoopUpdate.tallies (u : LoopUpdate) (slot slot' : Nat) :
    Tallies (u.assembleChange slot) (u.simplify.assembleChange slot') fun _ _ => True := by
  obtain ⟨change, counter, test⟩ := u
  cases change with
  | up | down =>
    have hcode {slot : Nat} {op : Opcode} {ρ : Lookup} : Judged ρ (do
        emitIndexed .readSt .readStLong slot counter.span
        emitConstant (.numbr 1) counter.span
        emit op counter.span
        emitIndexed .writeSt .writeStLong slot counter.span) True fun _ => True :=
      Judged.emitIndexed.after fun _ => Judged.emitConstant.after fun _ => Judged.emit.after fun _ =>
        Judged.emitIndexed
    exact .of_code (fun _ => hcode) fun _ => hcode
  | apply f =>
    have hcall {slot : Nat} {ρ : Lookup} : Judged ρ (do
        readCallee f 1
        emitIndexed .readSt .readStLong slot counter.span
        emit .call f.span [1]
        emitIndexed .writeSt .writeStLong slot counter.span) (f.ScopedCall ρ 1) fun _ => True :=
      (Judged.readCallee fun _ _ => trivial).before fun _ => Judged.emitIndexed.after fun _ =>
        Judged.emit.after fun _ => Judged.emitIndexed
    exact .of_judged (fun _ => hcall) (fun _ => hcall) fun _ => Iff.rfl

private theorem tallies_declareParams : ∀ params : List Ident,
    Tallies (declareParams params) (declareParams params) fun _ _ => True
  | [] => .pure trivial
  | _ :: params => Tallies.bind (.declare rfl) fun _ _ _ => tallies_declareParams params

private theorem tallies_openFunction (name : Ident) (params : List Ident) :
    Tallies (openFunction span name params) (openFunction span name params) fun _ _ => True := by
  rw [openFunction]
  refine Tallies.ite .fail (Tallies.emitJump.bind fun _ _ _ => Tallies.here.bind fun _ _ _ => ?_)
  refine Tallies.emit.bind fun _ _ _ =>
    Tallies.bind (.declare rfl) fun _ _ _ => Tallies.bind (.modify fun a b hab => ?_) fun _ _ _ =>
      (tallies_declareParams params).bind fun _ _ _ => .pure trivial
  obtain ⟨hscope, houter⟩ := Prod.mk.inj hab
  refine Prod.ext rfl ?_
  change a.scope.outline :: a.outer.map Scope.outline = b.scope.outline :: b.outer.map Scope.outline
  rw [hscope, houter]

private theorem endsInReturn_simplifyAll (body : List Stmt) :
    endsInReturn (Stmt.simplifyAll body) = endsInReturn body := by
  have hlast : (Stmt.simplifyAll body).getLast? = body.getLast?.map Stmt.simplify := by
    induction body with
    | nil => rfl
    | cons s ss ih => cases ss with
      | nil => rfl
      | cons s' ss => exact ih
  rw [endsInReturn, endsInReturn, hlast]
  cases body.getLast? with
  | none => rfl
  | some s => cases s <;> rfl

private theorem tallies_closeFunction (body : List Stmt) (skip skip' : Nat) (f f' : KnownFunction) :
    Tallies (closeFunction span body skip f) (closeFunction span (Stmt.simplifyAll body) skip' f')
      fun _ _ => True := by
  rw [closeFunction, closeFunction, endsInReturn_simplifyAll]
  refine Tallies.ite (Tallies.emit.bind fun _ _ _ => Tallies.emit.bind fun _ _ _ => ?_) ?_
  all_goals
    refine Tallies.bind (.modify fun a b hab => ?_) fun _ _ _ =>
      Tallies.patch.bind fun _ _ _ => .emitConstant
    obtain ⟨c, s, outer⟩ := a
    obtain ⟨c', s', outer'⟩ := b
    obtain ⟨-, houter⟩ := Prod.mk.inj hab
    cases outer with
    | nil =>
      obtain rfl : outer' = [] := List.map_eq_nil_iff.1 houter.symm
      exact hab
    | cons t outer =>
      cases outer' with
      | nil => cases houter
      | cons t' outer' => exact Prod.ext (List.cons.inj houter).1 (List.cons.inj houter).2

private theorem tallies_openLoop (update : Option LoopUpdate) :
    Tallies (openLoop update) (openLoop (update.map LoopUpdate.simplify)) fun _ _ => True := by
  refine Tallies.openScope.bind fun _ _ _ => Tallies.scope.bind fun _ _ _ => ?_
  cases update with
  | none => exact Tallies.openBreakable.bind fun _ _ _ => .pure trivial
  | some u =>
    exact Tallies.emitConstant.bind fun _ _ _ =>
      Tallies.bind (.declare rfl) fun _ _ _ => Tallies.openBreakable.bind fun _ _ _ => .pure trivial

end

mutual

/-- A statement compiles as it does when its comparisons are folded. -/
theorem Stmt.tallies : ∀ s : Stmt, Tallies s.assemble s.simplify.assemble fun _ _ => True
  | .assign _ _ x => x.tallies.bind fun _ _ _ => .writeName
  | .declare _ _ i => i.tallies.bind fun _ _ _ => .declare rfl
  | .load _ _ => .pure trivial
  | .define _ name params (.mk _ body) =>
    (tallies_openFunction name params).bind fun r r' _ => (Stmt.talliesAll body).bind
      fun _ _ _ => tallies_closeFunction body r.1 r'.1 r.2 r'.2
  | .expr _ x | .ret _ x => x.tallies.bind fun _ _ _ => .emit
  | .switch _ arms otherwise =>
    Tallies.openBreakable.bind fun _ _ _ => (Arm.talliesSwitch arms none none).bind fun _ _ _ =>
      Tallies.patchOption.bind fun _ _ _ => (Block.talliesOption otherwise).bind
        fun _ _ _ => .closeBreakable
  | .branch _ yes arms no =>
    Tallies.emit.bind fun _ _ _ => Tallies.emitJump.bind fun _ _ _ =>
      (Block.talliesOption yes).bind fun _ _ _ => Tallies.emitJump.bind fun _ _ _ =>
        (Arm.talliesBranch arms _ _).bind fun _ _ _ => Tallies.patch.bind fun _ _ _ =>
          (Block.talliesOption no).bind fun _ _ _ => .patchAll
  | .cast _ _ _ =>
    Tallies.readName.bind fun _ _ _ => Tallies.emit.bind fun _ _ _ => .writeName
  | .leave _ => .leave
  | .loop _ _ _ none (.mk _ body) =>
    (tallies_openLoop none).bind fun _ _ _ => Tallies.here.bind fun _ _ _ =>
      Tallies.bind (.pure (R := fun _ _ => True) trivial) fun _ _ _ =>
        Tallies.openScope.bind fun _ _ _ => (Stmt.talliesAll body).bind fun _ _ _ =>
          Tallies.closeScope.bind fun _ _ _ => Tallies.emitLoop.bind fun _ _ _ =>
            Tallies.patchOption.bind fun _ _ _ => Tallies.closeBreakable.bind
              fun _ _ _ => .closeScope
  | .loop _ _ _ (some u) (.mk _ body) =>
    (tallies_openLoop (some u)).bind fun slot slot' _ => Tallies.here.bind fun _ _ _ =>
      u.test.tallies.bind fun _ _ _ => Tallies.openScope.bind fun _ _ _ =>
        (Stmt.talliesAll body).bind fun _ _ _ => Tallies.closeScope.bind fun _ _ _ =>
          (u.tallies slot slot').bind fun _ _ _ => Tallies.emitLoop.bind fun _ _ _ =>
            Tallies.patchOption.bind fun _ _ _ => Tallies.closeBreakable.bind
              fun _ _ _ => .closeScope
  | .print _ args _ => (tallies_assemblePrinted args).bind fun _ _ _ => .emit
  | .read _ _ => Tallies.emit.bind fun _ _ _ => .writeName
  | .append _ _ x => Tallies.readName.bind fun _ _ _ => x.tallies.bind fun _ _ _ => .emit
  | .store _ _ i x =>
    Tallies.readName.bind fun _ _ _ => i.tallies.bind fun _ _ _ => x.tallies.bind
      fun _ _ _ => .emit

theorem Stmt.talliesAll : ∀ ss : List Stmt,
    Tallies (Stmt.assembleAll ss) (Stmt.assembleAll (Stmt.simplifyAll ss)) fun _ _ => True
  | [] => .pure trivial
  | s :: ss => (Stmt.tallies s).bind fun _ _ _ => Stmt.talliesAll ss

theorem Block.talliesOption {span : Span} : ∀ block : Option Block,
    Tallies (Block.assembleOption span block)
      (Block.assembleOption span (Block.simplifyOption block)) fun _ _ => True
  | none => .pure trivial
  | some (.mk _ body) =>
    Tallies.openScope.bind fun _ _ _ => (Stmt.talliesAll body).bind fun _ _ _ => .closeScope

theorem Arm.talliesSwitch {span : Span} : ∀ (arms : List Arm) (fall fall' : Option Nat),
    Tallies (Arm.assembleSwitch span fall arms)
      (Arm.assembleSwitch span fall' (Arm.simplifyAll arms)) fun _ _ => True
  | [], _, _ => .pure trivial
  | .mk test (.mk _ body) :: arms, _, _ =>
    Tallies.emit.bind fun _ _ _ => test.tallies.bind fun _ _ _ => Tallies.emit.bind fun _ _ _ =>
      Tallies.emitJump.bind fun _ _ _ => Tallies.patchOption.bind fun _ _ _ =>
        Tallies.openScope.bind fun _ _ _ => (Stmt.talliesAll body).bind fun _ _ _ =>
          Tallies.closeScope.bind fun _ _ _ => Tallies.emitJump.bind fun _ _ _ =>
            Tallies.patch.bind fun _ _ _ => Arm.talliesSwitch arms _ _

theorem Arm.talliesBranch {span : Span} : ∀ (arms : List Arm) (next next' : Nat),
    Tallies (Arm.assembleBranch span next arms)
      (Arm.assembleBranch span next' (Arm.simplifyAll arms)) fun _ _ => True
  | [], _, _ => .pure trivial
  | .mk test (.mk _ body) :: arms, _, _ =>
    Tallies.patch.bind fun _ _ _ => test.tallies.bind fun _ _ _ => Tallies.emitJump.bind
      fun _ _ _ => Tallies.openScope.bind fun _ _ _ => (Stmt.talliesAll body).bind fun _ _ _ =>
        Tallies.closeScope.bind fun _ _ _ => Tallies.emitJump.bind fun _ _ _ =>
          (Arm.talliesBranch arms _ _).bind fun _ _ _ => .pure trivial

end

namespace Program

/-- What comes of compiling a program comes of adding its code to an empty chunk. -/
private theorem compile_cases (p : Program) (names : NameTable) :
    (∃ a c, p.assemble ⟨.empty, .empty, []⟩ = .ok ((), a) ∧ p.compile names = .ok c) ∨
      ∃ d, p.assemble ⟨.empty, .empty, []⟩ = .error d ∧ p.compile names = .error d := by
  have hcompile : p.compile names = Except.bind (p.assemble ⟨.empty, .empty, []⟩) fun r =>
      .ok { r.2.chunk with names := names.names.toList } := rfl
  rw [hcompile]
  cases p.assemble ⟨.empty, .empty, []⟩ with
  | error d => exact .inr ⟨d, rfl, rfl⟩
  | ok r => exact .inl ⟨r.2, _, rfl, rfl⟩

/-- Folding comparisons does not change whether a program compiles, as long as no operand is too large
for its bytes. This is asked of the folded program too: its functions have other addresses, so its
constants are not among those of the original, and two addresses that are equal as 64-bit numbers need
not stay so. -/
theorem compile_simplify_iff (p : Program) (names : NameTable) (hfits : Fits (p.compile names))
    (hfits' : Fits (p.simplify.compile names)) :
    (∃ c, p.compile names = .ok c) ↔ ∃ c, p.simplify.compile names = .ok c := by
  have htallies : Tallies p.assemble p.simplify.assemble fun _ _ => True := by
    obtain ⟨span, version, sp, stmts⟩ := p
    exact (Stmt.talliesAll stmts).bind fun _ _ _ => .emit
  have htally := htallies ⟨.empty, .empty, []⟩ ⟨.empty, .empty, []⟩ rfl
  obtain ⟨a, c, hrun, hc⟩ | ⟨d, hrun, hd⟩ := p.compile_cases names
  · obtain ⟨a', c', hrun', hc'⟩ | ⟨d, hrun', hd⟩ := p.simplify.compile_cases names
    · exact ⟨fun _ => ⟨c', hc'⟩, fun _ => ⟨c, hc⟩⟩
    · rw [hrun, hrun'] at htally
      exact absurd htally (hfits' d hd)
  · obtain ⟨a', c', hrun', hc'⟩ | ⟨d', hrun', hd'⟩ := p.simplify.compile_cases names
    · rw [hrun, hrun'] at htally
      exact absurd htally (hfits d hd)
    · rw [hd, hd']
      exact ⟨fun ⟨_, h⟩ => (nomatch h), fun ⟨_, h⟩ => (nomatch h)⟩

/-- `I HAS A X ITZ 4` and `VISIBLE BOTH SAEM X AN BIGGR OF X AN 3`. -/
def atLeastThree : Program :=
  let x : Ident := ⟨"X", .zero⟩
  ⟨.zero, "1.2", .mk .zero
    [.declare .zero x (.value (.int .zero 4)),
      .print .zero [.binary .zero .equal (.var .zero x)
        (.binary .zero .max (.var .zero x) (.int .zero 3))] true]⟩

theorem compile_simplify_atLeastThree :
    Fits (atLeastThree.compile ⟨#[]⟩) ∧ Fits (atLeastThree.simplify.compile ⟨#[]⟩) ∧
      ((∃ c, atLeastThree.compile ⟨#[]⟩ = .ok c) ↔
        ∃ c, atLeastThree.simplify.compile ⟨#[]⟩ = .ok c) := by
  obtain ⟨c, hc, -⟩ : ∃ c, atLeastThree.compile ⟨#[]⟩ = .ok c ∧ decide (c.code.size = 13) = true :=
    exists_of_toOption_any (by decide +kernel)
  obtain ⟨c', hc', -⟩ : ∃ c, atLeastThree.simplify.compile ⟨#[]⟩ = .ok c ∧
      decide (c.code.size = 10) = true :=
    exists_of_toOption_any (by decide +kernel)
  have hfits : Fits (atLeastThree.compile ⟨#[]⟩) := by
    rw [hc]
    exact nofun
  have hfits' : Fits (atLeastThree.simplify.compile ⟨#[]⟩) := by
    rw [hc']
    exact nofun
  exact ⟨hfits, hfits', atLeastThree.compile_simplify_iff ⟨#[]⟩ hfits hfits'⟩

end Program
end LolToolchain
