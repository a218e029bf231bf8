import LolToolchain.Numbar.Reading
import LolToolchain.Program.Simplify
import LolToolchain.Proofs.Program.Literals
import LolToolchain.Proofs.Token.Validity

/-!
Conditions on the literals, the spans, the names and the operators of a tree, stated along the tree,
together with what every tree that is read satisfies: something is joined or printed, and a loop is
closed under its own name. Folding comparisons only takes parts away and brings in orderings, so it
keeps all but the condition on operators.
-/
namespace LolToolchain

/-- Conditions on the parts of a tree. Names inside texts have a condition of their own. -/
structure Criteria where
  literal : Value → Prop
  span : Span → Prop
  name : Text → Prop
  spliced : Text → Prop
  operator : BinaryOp → Prop

namespace Criteria

/-- The conditions without the one on operators. -/
def relaxed (k : Criteria) : Criteria :=
  { k with operator := fun _ => True }

/-- Conditions that follow from others. -/
structure Implies (k k' : Criteria) : Prop where
  literal : ∀ v, k.literal v → k'.literal v
  span : ∀ s, k.span s → k'.span s
  name : ∀ t, k.name t → k'.name t
  spliced : ∀ t, k.spliced t → k'.spliced t
  operator : ∀ op, k.operator op → k'.operator op

theorem implies_relaxed (k : Criteria) : k.Implies k.relaxed :=
  ⟨fun _ h => h, fun _ h => h, fun _ h => h, fun _ h => h, fun _ _ => trivial⟩

/-- Conditions that follow from two others together. -/
structure FollowsFrom (k k₁ k₂ : Criteria) : Prop where
  literal : ∀ v, k₁.literal v → k₂.literal v → k.literal v
  span : ∀ s, k₁.span s → k₂.span s → k.span s
  name : ∀ t, k₁.name t → k₂.name t → k.name t
  spliced : ∀ t, k₁.spliced t → k₂.spliced t → k.spliced t
  operator : ∀ op, k₁.operator op → k₂.operator op → k.operator op

theorem Implies.followsFrom {k k' : Criteria} (h : k.Implies k') : k'.FollowsFrom k k :=
  ⟨fun v hv _ => h.literal v hv, fun s hs _ => h.span s hs, fun t ht _ => h.name t ht,
    fun t ht _ => h.spliced t ht, fun op hop _ => h.operator op hop⟩

end Criteria

variable {k k' : Criteria}

def Ident.Meets (k : Criteria) (id : Ident) : Prop :=
  k.span id.span ∧ k.name id.name

/-- A place that is written to; it can be the implicit variable. -/
def Ident.MeetsTarget (k : Criteria) (id : Ident) : Prop :=
  k.span id.span ∧ (k.name id.name ∨ id.name = implicitName)

def Splice.Meets (k : Criteria) (x : Splice) : Prop :=
  k.span x.name.span ∧ k.spliced x.name.name

namespace Expr

mutual

/-- The parts of an expression meet the criteria. -/
def Meets (k : Criteria) : Expr → Prop
  | .int s v => k.span s ∧ k.literal (.numbr v)
  | .float s v => k.span s ∧ k.literal (.numbar v)
  | .string s t => k.span s ∧ k.literal (.yarn t)
  | .interp s t splices =>
    k.span s ∧ k.literal (.interp (some (Splice.template t splices))) ∧
      ∀ x ∈ splices, x.Meets k
  | .bool s _ | .null s | .it s => k.span s
  | .var s id => k.span s ∧ id.Meets k
  | .call s id xs => k.span s ∧ id.Meets k ∧ MeetsAll k xs
  | .list s xs | .nary s _ xs => k.span s ∧ MeetsAll k xs
  | .concat s xs => k.span s ∧ MeetsAll k xs ∧ xs ≠ []
  | .cast s x _ | .unary s _ x | .pickFront s x | .pickBack s x => k.span s ∧ Meets k x
  | .binary s op x y => k.span s ∧ (Meets k x ∧ Meets k y) ∧ k.operator op
  | .pickAt s x y => k.span s ∧ Meets k x ∧ Meets k y

def MeetsAll (k : Criteria) : List Expr → Prop
  | [] => True
  | x :: xs => Meets k x ∧ MeetsAll k xs

end

theorem Meets.span {x : Expr} (h : x.Meets k) : k.span x.span := by
  cases x with
  | bool | null | it => exact h
  | _ => exact h.1

end Expr

def Initial.Meets (k : Criteria) : Initial → Prop
  | .value e => e.Meets k
  | .absent | .typed _ => True

def LoopTest.Meets (k : Criteria) : LoopTest → Prop
  | .forever => True
  | .untilTrue e | .whileTrue e => e.Meets k

def LoopChange.Meets (k : Criteria) : LoopChange → Prop
  | .up | .down => True
  | .apply f => f.Meets k

def LoopUpdate.Meets (k : Criteria) (u : LoopUpdate) : Prop :=
  u.change.Meets k ∧ u.counter.Meets k ∧ u.test.Meets k

mutual

/-- The parts of a statement meet the criteria. -/
def Stmt.Meets (k : Criteria) : Stmt → Prop
  | .assign s id x => k.span s ∧ id.MeetsTarget k ∧ x.Meets k
  | .append s id x => k.span s ∧ id.Meets k ∧ x.Meets k
  | .declare s id initial => k.span s ∧ id.Meets k ∧ initial.Meets k
  | .expr s x | .ret s x => k.span s ∧ x.Meets k
  | .load s id | .cast s id _ => k.span s ∧ id.Meets k
  | .read s id => k.span s ∧ id.MeetsTarget k
  | .leave s => k.span s
  | .define s id params (.mk _ body) =>
    k.span s ∧ id.Meets k ∧ Stmt.MeetsAll k body ∧ ∀ x ∈ params, x.Meets k
  | .switch s arms otherwise => k.span s ∧ Arm.MeetsAll k arms ∧ Block.MeetsOption k otherwise
  | .branch s yes arms no =>
    k.span s ∧ Block.MeetsOption k yes ∧ Arm.MeetsAll k arms ∧ Block.MeetsOption k no
  | .loop s label close update (.mk _ body) =>
    k.span s ∧ (∀ u ∈ update, u.Meets k) ∧ Stmt.MeetsAll k body ∧ label.Meets k ∧
      close.name = label.name
  | .print s args _ => k.span s ∧ Expr.MeetsAll k args ∧ args ≠ []
  | .store s id i x => k.span s ∧ id.Meets k ∧ i.Meets k ∧ x.Meets k

def Stmt.MeetsAll (k : Criteria) : List Stmt → Prop
  | [] => True
  | s :: ss => Stmt.Meets k s ∧ Stmt.MeetsAll k ss

def Block.MeetsOption (k : Criteria) : Option Block → Prop
  | none => True
  | some (.mk _ body) => Stmt.MeetsAll k body

def Arm.MeetsAll (k : Criteria) : List Arm → Prop
  | [] => True
  | .mk test (.mk _ body) :: arms => test.Meets k ∧ Stmt.MeetsAll k body ∧ Arm.MeetsAll k arms

end

/-- A number that two runs of digits spell with a point between them. -/
structure Numbar.SpelledBy (x : Numbar) (whole fraction : Text) : Prop where
  numeral : whole.IsNumeral
  places : fraction.IsNumeral
  unsigned : fraction.head? ≠ some 0x2D
  read : Numbar.read? (whole ++ "." ++ fraction) = some x

/-- A version: two numbers around a dot. -/
def Text.IsVersion (t : Text) : Prop :=
  ∃ major minor : Text, major.IsNumeral ∧ minor.IsNumeral ∧ t = major ++ "." ++ minor

/-- The parts of a program meet the criteria. -/
def Program.Meets (k : Criteria) (p : Program) : Prop :=
  k.span p.span ∧ Stmt.MeetsAll k p.body.stmts ∧ p.version.IsVersion

namespace Expr

mutual

theorem Meets.literals : ∀ {x : Expr}, x.Meets k → ∀ v ∈ x.literals, k.literal v
  | .int _ _, h | .float _ _, h | .string _ _, h => List.forall_mem_singleton.2 h.2
  | .interp _ _ _, h => List.forall_mem_singleton.2 h.2.1
  | .bool _ _, _ | .null _, _ | .it _, _ | .var _ _, _ => nofun
  | .list _ _, h | .nary _ _ _, h => MeetsAll.literals h.2
  | .concat _ _, h => MeetsAll.literals h.2.1
  | .call _ _ _, h => MeetsAll.literals h.2.2
  | .cast _ x _, h | .unary _ _ x, h | .pickFront _ x, h | .pickBack _ x, h =>
    Meets.literals (x := x) h.2
  | .binary _ _ _ _, h =>
    List.forall_mem_append.2 ⟨Meets.literals h.2.1.1, Meets.literals h.2.1.2⟩
  | .pickAt _ _ _, h =>
    List.forall_mem_append.2 ⟨Meets.literals h.2.1, Meets.literals h.2.2⟩

theorem MeetsAll.literals : ∀ {xs : List Expr}, MeetsAll k xs → ∀ v ∈ literalsAll xs, k.literal v
  | [], _ => nofun
  | _ :: _, h => List.forall_mem_append.2 ⟨Meets.literals h.1, MeetsAll.literals h.2⟩

end

end Expr

private theorem Initial.Meets.literals {i : Initial} (h : i.Meets k) : ∀ v ∈ i.literals, k.literal v := by
  cases i with
  | value e => exact Expr.Meets.literals h
  | absent | typed t => nofun

private theorem LoopTest.Meets.literals {t : LoopTest} (h : t.Meets k) :
    ∀ v ∈ t.literals, k.literal v := by
  cases t with
  | forever => nofun
  | untilTrue e | whileTrue e => exact Expr.Meets.literals h

private theorem LoopUpdate.literals_of_meets {update : Option LoopUpdate} (h : ∀ u ∈ update, u.Meets k) :
    ∀ v ∈ LoopUpdate.literals update, k.literal v := by
  cases update with
  | none => nofun
  | some u => exact (h u rfl).2.2.literals

mutual

theorem Stmt.Meets.literals : ∀ {s : Stmt}, s.Meets k → ∀ v ∈ s.literals, k.literal v
  | .assign _ _ _, h | .append _ _ _, h => h.2.2.literals
  | .declare _ _ _, h => h.2.2.literals
  | .expr _ _, h | .ret _ _, h => h.2.literals
  | .load _ _, _ | .cast _ _ _, _ | .leave _, _ | .read _ _, _ => nofun
  | .define _ _ _ (.mk _ _), h => Stmt.MeetsAll.literals h.2.2.1
  | .switch _ _ _, h =>
    List.forall_mem_append.2 ⟨Arm.MeetsAll.literals h.2.1, Block.MeetsOption.literals h.2.2⟩
  | .branch _ _ _ _, h =>
    List.forall_mem_append.2 ⟨Block.MeetsOption.literals h.2.1,
      List.forall_mem_append.2 ⟨Arm.MeetsAll.literals h.2.2.1, Block.MeetsOption.literals h.2.2.2⟩⟩
  | .loop _ _ _ _ (.mk _ _), h =>
    List.forall_mem_append.2 ⟨LoopUpdate.literals_of_meets h.2.1, Stmt.MeetsAll.literals h.2.2.1⟩
  | .print _ _ _, h => Expr.MeetsAll.literals h.2.1
  | .store _ _ _ _, h => List.forall_mem_append.2 ⟨h.2.2.1.literals, h.2.2.2.literals⟩

theorem Stmt.MeetsAll.literals : ∀ {ss : List Stmt}, Stmt.MeetsAll k ss →
    ∀ v ∈ Stmt.literalsAll ss, k.literal v
  | [], _ => nofun
  | _ :: _, h => List.forall_mem_append.2 ⟨Stmt.Meets.literals h.1, Stmt.MeetsAll.literals h.2⟩

theorem Block.MeetsOption.literals : ∀ {block : Option Block}, Block.MeetsOption k block →
    ∀ v ∈ Block.literalsOption block, k.literal v
  | none, _ => nofun
  | some (.mk _ _), h => Stmt.MeetsAll.literals h

theorem Arm.MeetsAll.literals : ∀ {arms : List Arm}, Arm.MeetsAll k arms →
    ∀ v ∈ Arm.literalsAll arms, k.literal v
  | [], _ => nofun
  | .mk _ (.mk _ _) :: _, h =>
    List.forall_mem_append.2 ⟨h.1.literals,
      List.forall_mem_append.2 ⟨Stmt.MeetsAll.literals h.2.1, Arm.MeetsAll.literals h.2.2⟩⟩

end

theorem Program.Meets.literals {p : Program} (h : p.Meets k) : ∀ v ∈ p.literals, k.literal v :=
  h.2.1.literals

section

variable {k₁ k₂ : Criteria}

theorem Ident.Meets.combine (hk : k'.FollowsFrom k₁ k₂) {id : Ident} (h₁ : id.Meets k₁)
    (h₂ : id.Meets k₂) : id.Meets k' :=
  ⟨hk.span _ h₁.1 h₂.1, hk.name _ h₁.2 h₂.2⟩

theorem Ident.MeetsTarget.combine (hk : k'.FollowsFrom k₁ k₂) {id : Ident} (h₁ : id.MeetsTarget k₁)
    (h₂ : id.MeetsTarget k₂) : id.MeetsTarget k' := by
  refine ⟨hk.span _ h₁.1 h₂.1, ?_⟩
  rcases h₁.2 with hname₁ | hit
  · exact h₂.2.imp_left (hk.name _ hname₁)
  · exact .inr hit

private theorem Splice.Meets.combine (hk : k'.FollowsFrom k₁ k₂) {x : Splice} (h₁ : x.Meets k₁)
    (h₂ : x.Meets k₂) : x.Meets k' :=
  ⟨hk.span _ h₁.1 h₂.1, hk.spliced _ h₁.2 h₂.2⟩

namespace Expr

mutual

theorem Meets.combine (hk : k'.FollowsFrom k₁ k₂) :
    ∀ {x : Expr}, x.Meets k₁ → x.Meets k₂ → x.Meets k'
  | .int _ _, h₁, h₂ | .float _ _, h₁, h₂ | .string _ _, h₁, h₂ =>
    ⟨hk.span _ h₁.1 h₂.1, hk.literal _ h₁.2 h₂.2⟩
  | .interp _ _ _, h₁, h₂ =>
    ⟨hk.span _ h₁.1 h₂.1, hk.literal _ h₁.2.1 h₂.2.1,
      fun x hx => Splice.Meets.combine hk (h₁.2.2 x hx) (h₂.2.2 x hx)⟩
  | .bool _ _, h₁, h₂ | .null _, h₁, h₂ | .it _, h₁, h₂ => hk.span _ h₁ h₂
  | .var _ _, h₁, h₂ => ⟨hk.span _ h₁.1 h₂.1, h₁.2.combine hk h₂.2⟩
  | .call _ _ _, h₁, h₂ =>
    ⟨hk.span _ h₁.1 h₂.1, h₁.2.1.combine hk h₂.2.1, MeetsAll.combine hk h₁.2.2 h₂.2.2⟩
  | .list _ _, h₁, h₂ | .nary _ _ _, h₁, h₂ =>
    ⟨hk.span _ h₁.1 h₂.1, MeetsAll.combine hk h₁.2 h₂.2⟩
  | .concat _ _, h₁, h₂ =>
    ⟨hk.span _ h₁.1 h₂.1, MeetsAll.combine hk h₁.2.1 h₂.2.1, h₁.2.2⟩
  | .cast _ _ _, h₁, h₂ | .unary _ _ _, h₁, h₂ | .pickFront _ _, h₁, h₂ | .pickBack _ _, h₁, h₂ =>
    ⟨hk.span _ h₁.1 h₂.1, Meets.combine hk h₁.2 h₂.2⟩
  | .binary _ _ _ _, h₁, h₂ =>
    ⟨hk.span _ h₁.1 h₂.1,
      ⟨Meets.combine hk h₁.2.1.1 h₂.2.1.1, Meets.combine hk h₁.2.1.2 h₂.2.1.2⟩,
      hk.operator _ h₁.2.2 h₂.2.2⟩
  | .pickAt _ _ _, h₁, h₂ =>
    ⟨hk.span _ h₁.1 h₂.1, Meets.combine hk h₁.2.1 h₂.2.1, Meets.combine hk h₁.2.2 h₂.2.2⟩

theorem MeetsAll.combine (hk : k'.FollowsFrom k₁ k₂) :
    ∀ {xs : List Expr}, MeetsAll k₁ xs → MeetsAll k₂ xs → MeetsAll k' xs
  | [], _, _ => trivial
  | _ :: _, h₁, h₂ => ⟨Meets.combine hk h₁.1 h₂.1, MeetsAll.combine hk h₁.2 h₂.2⟩

end

end Expr

private theorem Initial.Meets.combine (hk : k'.FollowsFrom k₁ k₂) {i : Initial} (h₁ : i.Meets k₁)
    (h₂ : i.Meets k₂) : i.Meets k' := by
  cases i with
  | value e => exact Expr.Meets.combine hk h₁ h₂
  | absent | typed t => trivial

private theorem LoopTest.Meets.combine (hk : k'.FollowsFrom k₁ k₂) {t : LoopTest} (h₁ : t.Meets k₁)
    (h₂ : t.Meets k₂) : t.Meets k' := by
  cases t with
  | forever => trivial
  | untilTrue e | whileTrue e => exact Expr.Meets.combine hk h₁ h₂

private theorem LoopChange.Meets.combine (hk : k'.FollowsFrom k₁ k₂) {u : LoopChange} (h₁ : u.Meets k₁)
    (h₂ : u.Meets k₂) : u.Meets k' := by
  cases u with
  | up | down => trivial
  | apply f => exact Ident.Meets.combine hk h₁ h₂

private theorem LoopUpdate.Meets.combine (hk : k'.FollowsFrom k₁ k₂) {u : LoopUpdate} (h₁ : u.Meets k₁)
    (h₂ : u.Meets k₂) : u.Meets k' :=
  ⟨h₁.1.combine hk h₂.1, h₁.2.1.combine hk h₂.2.1, h₁.2.2.combine hk h₂.2.2⟩

mutual

theorem Stmt.Meets.combine (hk : k'.FollowsFrom k₁ k₂) :
    ∀ {s : Stmt}, s.Meets k₁ → s.Meets k₂ → s.Meets k'
  | .assign _ _ _, h₁, h₂ =>
    ⟨hk.span _ h₁.1 h₂.1, h₁.2.1.combine hk h₂.2.1, h₁.2.2.combine hk h₂.2.2⟩
  | .append _ _ _, h₁, h₂ =>
    ⟨hk.span _ h₁.1 h₂.1, h₁.2.1.combine hk h₂.2.1, h₁.2.2.combine hk h₂.2.2⟩
  | .declare _ _ _, h₁, h₂ =>
    ⟨hk.span _ h₁.1 h₂.1, h₁.2.1.combine hk h₂.2.1, h₁.2.2.combine hk h₂.2.2⟩
  | .expr _ _, h₁, h₂ | .ret _ _, h₁, h₂ => ⟨hk.span _ h₁.1 h₂.1, h₁.2.combine hk h₂.2⟩
  | .load _ _, h₁, h₂ | .cast _ _ _, h₁, h₂ => ⟨hk.span _ h₁.1 h₂.1, h₁.2.combine hk h₂.2⟩
  | .read _ _, h₁, h₂ => ⟨hk.span _ h₁.1 h₂.1, h₁.2.combine hk h₂.2⟩
  | .leave _, h₁, h₂ => hk.span _ h₁ h₂
  | .define _ _ _ (.mk _ _), h₁, h₂ =>
    ⟨hk.span _ h₁.1 h₂.1, h₁.2.1.combine hk h₂.2.1, Stmt.MeetsAll.combine hk h₁.2.2.1 h₂.2.2.1,
      fun x hx => (h₁.2.2.2 x hx).combine hk (h₂.2.2.2 x hx)⟩
  | .switch _ _ _, h₁, h₂ =>
    ⟨hk.span _ h₁.1 h₂.1, Arm.MeetsAll.combine hk h₁.2.1 h₂.2.1,
      Block.MeetsOption.combine hk h₁.2.2 h₂.2.2⟩
  | .branch _ _ _ _, h₁, h₂ =>
    ⟨hk.span _ h₁.1 h₂.1, Block.MeetsOption.combine hk h₁.2.1 h₂.2.1,
      Arm.MeetsAll.combine hk h₁.2.2.1 h₂.2.2.1, Block.MeetsOption.combine hk h₁.2.2.2 h₂.2.2.2⟩
  | .loop _ _ _ _ (.mk _ _), h₁, h₂ =>
    ⟨hk.span _ h₁.1 h₂.1, fun u hu => (h₁.2.1 u hu).combine hk (h₂.2.1 u hu),
      Stmt.MeetsAll.combine hk h₁.2.2.1 h₂.2.2.1, h₁.2.2.2.1.combine hk h₂.2.2.2.1, h₁.2.2.2.2⟩
  | .print _ _ _, h₁, h₂ => ⟨hk.span _ h₁.1 h₂.1, h₁.2.1.combine hk h₂.2.1, h₁.2.2⟩
  | .store _ _ _ _, h₁, h₂ =>
    ⟨hk.span _ h₁.1 h₂.1, h₁.2.1.combine hk h₂.2.1, h₁.2.2.1.combine hk h₂.2.2.1,
      h₁.2.2.2.combine hk h₂.2.2.2⟩

theorem Stmt.MeetsAll.combine (hk : k'.FollowsFrom k₁ k₂) :
    ∀ {ss : List Stmt}, Stmt.MeetsAll k₁ ss → Stmt.MeetsAll k₂ ss → Stmt.MeetsAll k' ss
  | [], _, _ => trivial
  | _ :: _, h₁, h₂ => ⟨Stmt.Meets.combine hk h₁.1 h₂.1, Stmt.MeetsAll.combine hk h₁.2 h₂.2⟩

theorem Block.MeetsOption.combine (hk : k'.FollowsFrom k₁ k₂) :
    ∀ {block : Option Block}, Block.MeetsOption k₁ block → Block.MeetsOption k₂ block →
      Block.MeetsOption k' block
  | none, _, _ => trivial
  | some (.mk _ _), h₁, h₂ => Stmt.MeetsAll.combine hk h₁ h₂

theorem Arm.MeetsAll.combine (hk : k'.FollowsFrom k₁ k₂) :
    ∀ {arms : List Arm}, Arm.MeetsAll k₁ arms → Arm.MeetsAll k₂ arms → Arm.MeetsAll k' arms
  | [], _, _ => trivial
  | .mk _ (.mk _ _) :: _, h₁, h₂ =>
    ⟨h₁.1.combine hk h₂.1, Stmt.MeetsAll.combine hk h₁.2.1 h₂.2.1,
      Arm.MeetsAll.combine hk h₁.2.2 h₂.2.2⟩

end

end

theorem Stmt.MeetsAll.mono (hk : k.Implies k') {ss : List Stmt} (h : Stmt.MeetsAll k ss) :
    Stmt.MeetsAll k' ss :=
  h.combine hk.followsFrom h

theorem Program.Meets.mono (hk : k.Implies k') {p : Program} (h : p.Meets k) : p.Meets k' :=
  ⟨hk.span _ h.1, h.2.1.mono hk, h.2.2⟩

namespace Expr

private theorem meets_of_extreme? {x : Expr} {m : Extreme} (h : x.Meets k) (hm : x.extreme? = some m) :
    m.left.Meets k ∧ m.right.Meets k := by
  cases x with
  | binary s op a b =>
    cases op with
    | max | min =>
      cases hm
      exact h.2.1
    | _ => cases hm
  | _ => cases hm

private theorem meets_of_extremeAndOther? {left right other : Expr} {m : Extreme} (hl : left.Meets k)
    (hr : right.Meets k) (hm : extremeAndOther? left right = some (m, other)) :
    m.left.Meets k ∧ m.right.Meets k := by
  rw [extremeAndOther?] at hm
  cases hleft : left.extreme? with
  | some found =>
    rw [hleft] at hm
    cases hm
    exact meets_of_extreme? hl hleft
  | none =>
    rw [hleft] at hm
    obtain ⟨found, hright, hm⟩ := Option.map_eq_some_iff.1 hm
    cases hm
    exact meets_of_extreme? hr hright

private theorem Extreme.meets_of_split? {m : Extreme} {other matched rest : Expr} (hl : m.left.Meets k)
    (hr : m.right.Meets k) (hm : m.split? other = some (matched, rest)) :
    matched.Meets k ∧ rest.Meets k := by
  rw [Extreme.split?] at hm
  split at hm
  · cases hm
    exact ⟨hl, hr⟩
  · split at hm
    · cases hm
      exact ⟨hr, hl⟩
    · cases hm

private theorem meets_foldComparison (hk : ∀ op, k.operator op) {span : Span} {op : BinaryOp}
    {left right : Expr} (hs : k.span span) (hl : left.Meets k) (hr : right.Meets k) :
    (foldComparison span op left right).Meets k := by
  have hkept : (Expr.binary span op left right).Meets k := ⟨hs, ⟨hl, hr⟩, hk op⟩
  dsimp only [foldComparison]
  split
  · exact hkept
  · split
    · exact hkept
    · rename_i m other hm
      split
      · exact hkept
      · split
        · exact hkept
        · rename_i matched rest hsplit
          obtain ⟨hml, hmr⟩ := meets_of_extremeAndOther? hl hr hm
          obtain ⟨hmatched, hrest⟩ := Extreme.meets_of_split? hml hmr hsplit
          split
          · exact ⟨hs, ⟨hmatched, hrest⟩, hk _⟩
          · exact ⟨hs, ⟨hrest, hmatched⟩, hk _⟩

mutual

theorem Meets.simplify (hk : ∀ op, k.operator op) : ∀ {x : Expr}, x.Meets k → x.simplify.Meets k
  | .int _ _, h | .float _ _, h | .string _ _, h | .interp _ _ _, h | .bool _ _, h | .null _, h
  | .it _, h | .var _ _, h => h
  | .list _ _, h | .nary _ _ _, h => ⟨h.1, MeetsAll.simplify hk h.2⟩
  | .concat _ (_ :: _), h => ⟨h.1, MeetsAll.simplify hk h.2.1, List.cons_ne_nil _ _⟩
  | .concat _ [], h => absurd rfl h.2.2
  | .call _ _ _, h => ⟨h.1, h.2.1, MeetsAll.simplify hk h.2.2⟩
  | .cast _ _ _, h | .unary _ _ _, h | .pickFront _ _, h | .pickBack _ _, h =>
    ⟨h.1, Meets.simplify hk h.2⟩
  | .pickAt _ _ _, h => ⟨h.1, Meets.simplify hk h.2.1, Meets.simplify hk h.2.2⟩
  | .binary _ _ _ _, h =>
    meets_foldComparison hk h.1 (Meets.simplify hk h.2.1.1) (Meets.simplify hk h.2.1.2)

theorem MeetsAll.simplify (hk : ∀ op, k.operator op) : ∀ {xs : List Expr}, MeetsAll k xs →
    MeetsAll k (simplifyAll xs)
  | [], _ => trivial
  | _ :: _, h => ⟨Meets.simplify hk h.1, MeetsAll.simplify hk h.2⟩

end

end Expr

private theorem Initial.Meets.simplify (hk : ∀ op, k.operator op) {i : Initial} (h : i.Meets k) :
    i.simplify.Meets k := by
  cases i with
  | value e => exact Expr.Meets.simplify hk h
  | absent | typed t => trivial

private theorem LoopTest.Meets.simplify (hk : ∀ op, k.operator op) {t : LoopTest} (h : t.Meets k) :
    t.simplify.Meets k := by
  cases t with
  | forever => trivial
  | untilTrue e | whileTrue e => exact Expr.Meets.simplify hk h

private theorem LoopUpdate.meets_simplify (hk : ∀ op, k.operator op) {update : Option LoopUpdate}
    (h : ∀ u ∈ update, u.Meets k) :
    ∀ u ∈ update.map LoopUpdate.simplify, u.Meets k := by
  intro u hu
  obtain ⟨u, hmem, rfl⟩ := Option.map_eq_some_iff.1 hu
  obtain ⟨hchange, hcounter, htest⟩ := h u hmem
  exact ⟨hchange, hcounter, htest.simplify hk⟩

mutual

theorem Stmt.Meets.simplify (hk : ∀ op, k.operator op) : ∀ {s : Stmt}, s.Meets k →
    s.simplify.Meets k
  | .assign _ _ _, h | .append _ _ _, h => ⟨h.1, h.2.1, h.2.2.simplify hk⟩
  | .declare _ _ _, h => ⟨h.1, h.2.1, h.2.2.simplify hk⟩
  | .expr _ _, h | .ret _ _, h => ⟨h.1, h.2.simplify hk⟩
  | .load _ _, h | .cast _ _ _, h | .leave _, h | .read _ _, h => h
  | .define _ _ _ (.mk _ _), h => ⟨h.1, h.2.1, Stmt.MeetsAll.simplify hk h.2.2.1, h.2.2.2⟩
  | .switch _ _ _, h => ⟨h.1, Arm.MeetsAll.simplify hk h.2.1, Block.MeetsOption.simplify hk h.2.2⟩
  | .branch _ _ _ _, h =>
    ⟨h.1, Block.MeetsOption.simplify hk h.2.1, Arm.MeetsAll.simplify hk h.2.2.1,
      Block.MeetsOption.simplify hk h.2.2.2⟩
  | .loop _ _ _ _ (.mk _ _), h =>
    ⟨h.1, LoopUpdate.meets_simplify hk h.2.1, Stmt.MeetsAll.simplify hk h.2.2.1, h.2.2.2⟩
  | .print _ (_ :: _) _, h => ⟨h.1, h.2.1.simplify hk, List.cons_ne_nil _ _⟩
  | .print _ [] _, h => absurd rfl h.2.2
  | .store _ _ _ _, h => ⟨h.1, h.2.1, h.2.2.1.simplify hk, h.2.2.2.simplify hk⟩

theorem Stmt.MeetsAll.simplify (hk : ∀ op, k.operator op) : ∀ {ss : List Stmt}, Stmt.MeetsAll k ss →
    Stmt.MeetsAll k (Stmt.simplifyAll ss)
  | [], _ => trivial
  | _ :: _, h => ⟨Stmt.Meets.simplify hk h.1, Stmt.MeetsAll.simplify hk h.2⟩

theorem Block.MeetsOption.simplify (hk : ∀ op, k.operator op) : ∀ {block : Option Block},
    Block.MeetsOption k block →
    Block.MeetsOption k (Block.simplifyOption block)
  | none, _ => trivial
  | some (.mk _ _), h => Stmt.MeetsAll.simplify hk h

theorem Arm.MeetsAll.simplify (hk : ∀ op, k.operator op) : ∀ {arms : List Arm},
    Arm.MeetsAll k arms →
    Arm.MeetsAll k (Arm.simplifyAll arms)
  | [], _ => trivial
  | .mk _ (.mk _ _) :: _, h =>
    ⟨h.1.simplify hk, Stmt.MeetsAll.simplify hk h.2.1, Arm.MeetsAll.simplify hk h.2.2⟩

end

theorem Program.Meets.simplify (hk : ∀ op, k.operator op) {p : Program} (h : p.Meets k) :
    p.simplify.Meets k := by
  obtain ⟨span, version, span', stmts⟩ := p
  exact ⟨h.1, h.2.1.simplify hk, h.2.2⟩

end LolToolchain
