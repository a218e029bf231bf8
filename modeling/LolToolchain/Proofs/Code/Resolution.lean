import Mathlib.Order.Bounds.Basic
import LolToolchain.Proofs.Code.Tracking
import LolToolchain.Proofs.Effect

/-!
Where names lead while a program is compiled. The compiler passes through states that differ in their
scopes; in each of them names are resolved lexically, and a block gives back the scopes that it was
entered with.
-/
namespace LolToolchain

open Assemble

mutual

/-- The states that the compiler passes through while it compiles a statement. States between which
only code is added, as in an expression, are not told apart. -/
inductive Stmt.Passes : Stmt → Assembly → Assembly → Prop
  | start {s a} : Stmt.Passes s a a
  | done {s a b} (h : s.assemble a = .ok ((), b)) : Stmt.Passes s a b
  | named {span name params block a r} {b : Assembly}
    (h : openFunction span name params a = .ok (r, b.enter params)) :
    Stmt.Passes (.define span name params block) a b
  | entered {span name params block a r} {b : Assembly} (i : Nat)
    (h : openFunction span name params a = .ok (r, b.enter params)) :
    Stmt.Passes (.define span name params block) a (b.enter (params.take i))
  | called {span name params sp body a r a₁ b}
    (h : openFunction span name params a = .ok (r, a₁)) (hbody : Stmt.PassesAll body a₁ b) :
    Stmt.Passes (.define span name params (.mk sp body)) a b
  | omg {span before test block after otherwise a a₁ a₂ a₃ a₄ a₅ a₆ a₇ b fall next}
    (hopen : openBreakable .switch a = .ok ((), a₁))
    (hbefore : Arm.assembleSwitch span none before a₁ = .ok (fall, a₂))
    (hit : emit .readIt test.span [] a₂ = .ok ((), a₃)) (htest : test.assemble a₃ = .ok ((), a₄))
    (hequal : emit .equal test.span [] a₄ = .ok ((), a₅))
    (hnext : emitJump .jumpIfFalse test.span a₅ = .ok (next, a₆))
    (hpatch : patchOption fall a₆ = .ok ((), a₇))
    (hblock : Block.PassesOption span (some block) a₇ b) :
    Stmt.Passes (.switch span (before ++ Arm.mk test block :: after) otherwise) a b
  | omgwtf {span arms otherwise a a₁ a₂ a₃ b fall}
    (hopen : openBreakable .switch a = .ok ((), a₁))
    (harms : Arm.assembleSwitch span none arms a₁ = .ok (fall, a₂))
    (hpatch : patchOption fall a₂ = .ok ((), a₃))
    (hblock : Block.PassesOption span otherwise a₃ b) :
    Stmt.Passes (.switch span arms otherwise) a b
  | yes {span yes arms no a a₁ a₂ b next} (hit : emit .readIt span [] a = .ok ((), a₁))
    (hnext : emitJump .jumpIfFalse span a₁ = .ok (next, a₂))
    (hblock : Block.PassesOption span yes a₂ b) :
    Stmt.Passes (.branch span yes arms no) a b
  | mebbe {span yes before test block after no a a₁ a₂ a₃ a₄ a₅ a₆ a₇ a₈ b next done last ends skip}
    (hit : emit .readIt span [] a = .ok ((), a₁))
    (hnext : emitJump .jumpIfFalse span a₁ = .ok (next, a₂))
    (hyes : Block.assembleOption span yes a₂ = .ok ((), a₃))
    (hdone : emitJump .jump span a₃ = .ok (done, a₄))
    (hbefore : Arm.assembleBranch span next before a₄ = .ok ((last, ends), a₅))
    (hpatch : patch last a₅ = .ok ((), a₆)) (htest : test.assemble a₆ = .ok ((), a₇))
    (hskip : emitJump .jumpIfFalse test.span a₇ = .ok (skip, a₈))
    (hblock : Block.PassesOption span (some block) a₈ b) :
    Stmt.Passes (.branch span yes (before ++ Arm.mk test block :: after) no) a b
  | no {span yes arms no a a₁ a₂ a₃ a₄ a₅ a₆ b next done last ends}
    (hit : emit .readIt span [] a = .ok ((), a₁))
    (hnext : emitJump .jumpIfFalse span a₁ = .ok (next, a₂))
    (hyes : Block.assembleOption span yes a₂ = .ok ((), a₃))
    (hdone : emitJump .jump span a₃ = .ok (done, a₄))
    (harms : Arm.assembleBranch span next arms a₄ = .ok ((last, ends), a₅))
    (hpatch : patch last a₅ = .ok ((), a₆)) (hblock : Block.PassesOption span no a₆ b) :
    Stmt.Passes (.branch span yes arms no) a b
  | opened {span label endLabel update block a b} (h : openScope a = .ok ((), b)) :
    Stmt.Passes (.loop span label endLabel update block) a b
  | counter {span label endLabel u block a a₁ a₂ b} (hopen : openScope a = .ok ((), a₁))
    (hzero : emitConstant (.numbr 0) u.counter.span a₁ = .ok ((), a₂))
    (hdeclare : declare u.counter.name none a₂ = .ok ((), b)) :
    Stmt.Passes (.loop span label endLabel (some u) block) a b
  | pass {span label endLabel update block a slot exit a₁ a₂ b}
    (hopen : openLoop update a = .ok (slot, a₁))
    (htest : LoopUpdate.assembleTest update a₁ = .ok (exit, a₂))
    (hblock : Block.PassesOption span (some block) a₂ b) :
    Stmt.Passes (.loop span label endLabel update block) a b
  | broken {span label endLabel update block a slot exit a₁ a₂ a₃ a₄ a₅ a₆ b}
    (hopen : openLoop update a = .ok (slot, a₁))
    (htest : LoopUpdate.assembleTest update a₁ = .ok (exit, a₂))
    (hblock : Block.assembleOption span (some block) a₂ = .ok ((), a₃))
    (hchange : LoopUpdate.assembleChangeIn slot update a₃ = .ok ((), a₄))
    (hloop : emitLoop a₁.chunk.code.size span a₄ = .ok ((), a₅))
    (hpatch : patchOption exit a₅ = .ok ((), a₆)) (hbreak : closeBreakable a₆ = .ok ((), b)) :
    Stmt.Passes (.loop span label endLabel update block) a b

/-- The states of statements one after another. -/
inductive Stmt.PassesAll : List Stmt → Assembly → Assembly → Prop
  | start {ss a} : Stmt.PassesAll ss a a
  | head {s ss a b} (h : Stmt.Passes s a b) : Stmt.PassesAll (s :: ss) a b
  | tail {s ss a a₁ b} (hs : s.assemble a = .ok ((), a₁)) (hss : Stmt.PassesAll ss a₁ b) :
    Stmt.PassesAll (s :: ss) a b

/-- The states of a block that may be missing. -/
inductive Block.PassesOption : Span → Option Block → Assembly → Assembly → Prop
  | start {span block a} : Block.PassesOption span block a a
  | inside {span sp body a a₁ b} (hopen : openScope a = .ok ((), a₁))
    (hbody : Stmt.PassesAll body a₁ b) : Block.PassesOption span (some (.mk sp body)) a b
  | done {span block a b} (h : Block.assembleOption span block a = .ok ((), b)) :
    Block.PassesOption span block a b

end

/-- The states that the compiler passes through while it compiles a program, up to its end or to the
diagnostic that it ends with. -/
def Program.Passes (p : Program) (a : Assembly) : Prop :=
  Stmt.PassesAll p.body.stmts ⟨.empty, .empty, []⟩ a

section

variable {a a₁ a' : Assembly} {span : Span}

theorem lexical_emitJump {op : Opcode} {j : Nat} (h : emitJump op span a = .ok (j, a'))
    (ha : a.Lexical) : a'.Lexical := by
  cases h
  exact ha.congr rfl rfl

theorem lexical_patchAll : ∀ (js : List Nat) {a a' : Assembly}, patchAll js a = .ok ((), a') →
    a.Lexical → a'.Lexical
  | [], _, _, h, ha => by
    cases h
    exact ha
  | j :: js, a, a', h, ha => by
    obtain ⟨_, a₁, hj, hjs⟩ := ok_of_bind h
    have heq : { a with chunk := a.chunk.patch j } = a₁ := (Prod.mk.inj (Except.ok.inj hj)).2
    exact lexical_patchAll js hjs (heq ▸ ha.congr rfl rfl)

theorem lexical_patchOption {o : Option Nat} (h : patchOption o a = .ok ((), a'))
    (ha : a.Lexical) : a'.Lexical := by
  cases o with
  | none =>
    cases h
    exact ha
  | some j => exact lexical_patchAll [j] h ha

theorem lexical_closeBreakable (h : closeBreakable a = .ok ((), a')) (ha : a.Lexical) :
    a'.Lexical := by
  obtain ⟨s, a₀, hs, hrest⟩ := ok_of_bind h
  cases hs
  cases hbs : a.scope.breakables with
  | nil =>
    rw [hbs] at hrest
    cases hrest
    exact ha
  | cons b bs =>
    rw [hbs] at hrest
    obtain ⟨_, a₁, hpatch, hupdate⟩ := ok_of_bind hrest
    cases hupdate
    have hpatched := lexical_patchAll _ hpatch ha
    exact hpatched.update (hpatched.scope.breakables _)

theorem lexical_emitLoop {start : Nat} (h : emitLoop start span a = .ok ((), a'))
    (ha : a.Lexical) : a'.Lexical := by
  have heq : { a with chunk := a.chunk.emitLoop start span } = a' :=
    (Prod.mk.inj (Except.ok.inj h)).2
  exact heq ▸ ha.congr rfl rfl

/-- A function leads into its body from one state only. -/
private theorem Assembly.enter_injective {params : List Ident} (h : a.enter params = a₁.enter params) :
    a = a₁ := by
  obtain ⟨c, s, o⟩ := a
  obtain ⟨c₁, s₁, o₁⟩ := a₁
  obtain ⟨hchunk, -, houter⟩ := Assembly.mk.inj h
  obtain ⟨hscope, hrest⟩ := List.cons.inj houter
  rw [show c = c₁ from hchunk, show s = s₁ from hscope, show o = o₁ from hrest]

theorem lexical_openFunction {name : Ident} {params : List Ident} {r : Nat × KnownFunction}
    (h : openFunction span name params a = .ok (r, a')) (ha : a.Lexical) : a'.Lexical := by
  obtain ⟨a₁, rfl, -, hmarked⟩ := assembles_openFunction h
  exact (hmarked.lexical ha).enter params

/-- The state of a function before it is entered. -/
theorem lexical_of_enter {name : Ident} {params : List Ident} {r : Nat × KnownFunction}
    (h : openFunction span name params a = .ok (r, a₁.enter params)) (ha : a.Lexical) :
    a₁.Lexical := by
  obtain ⟨a₂, heq, -, hmarked⟩ := assembles_openFunction h
  rw [Assembly.enter_injective heq]
  exact hmarked.lexical ha

theorem lexical_openLoop {update : Option LoopUpdate} {slot : Nat}
    (h : openLoop update a = .ok (slot, a')) (ha : a.Lexical) : a'.Lexical := by
  obtain ⟨-, a₀, a₁, hopen, hstart, hbreak⟩ := openLoop_parts h
  exact lexical_openBreakable hbreak (hstart.lexical (lexical_openScope hopen ha))

/-- A switch up to one of its arms. -/
theorem lexical_switch {arms : List Arm} {fall : Option Nat}
    (h : Arm.assembleSwitch span none arms a = .ok (fall, a')) (ha : a.Lexical) : a'.Lexical := by
  have h₀ : Assembles a a 0 (none.toList ++ []) (fun _ _ ns => ns)
      (fun _ _ _ _ _ _ x y => x = y) :=
    .of_emits (fun _ _ _ x y => x = y) (.refl fun _ => rfl)
  exact (Arm.assemblesSwitch span arms h h₀ ha).lexical ha

/-- A branch up to one of its arms. -/
theorem lexical_branch {yes : Option Block} {arms : List Arm} {next done last : Nat}
    {ends : List Nat} {a₂ a₃ a₄ a₅ : Assembly} (hit : emit .readIt span [] a = .ok ((), a₁))
    (hnext : emitJump .jumpIfFalse span a₁ = .ok (next, a₂))
    (hyes : Block.assembleOption span yes a₂ = .ok ((), a₃))
    (hdone : emitJump .jump span a₃ = .ok (done, a₄))
    (harms : Arm.assembleBranch span next arms a₄ = .ok ((last, ends), a₅))
    (hpatch : patch last a₅ = .ok ((), a')) (ha : a.Lexical) : a'.Lexical := by
  have h₁ := Assembles.of_emits (fun C _ _ => C.Has .readIt 0 span) (emits_emit rfl hit)
  have h₂ := h₁.trans (assembles_emitJump rfl hnext)
  have h₃ := h₂.trans (Block.assemblesOption span yes hyes (h₂.lexical ha))
  have h₄ := h₃.trans (assembles_emitJump rfl hdone)
  exact ((Arm.assemblesBranch span arms harms h₄ ha).patch hpatch).lexical ha

end

mutual

/-- Names are resolved lexically in each state of a statement if they are at its start. -/
theorem Stmt.Passes.lexical {s : Stmt} {a b : Assembly} : s.Passes a b → a.Lexical → b.Lexical
  | .start, ha => ha
  | .done h, ha => (Stmt.assembles s h ha).lexical ha
  | .named h, ha => lexical_of_enter h ha
  | .entered _ h, ha => (lexical_of_enter h ha).enter _
  | .called h hbody, ha => Stmt.PassesAll.lexical hbody (lexical_openFunction h ha)
  | .omg hopen hbefore hit htest hequal hnext hpatch hblock, ha => by
    have ha₂ := lexical_switch hbefore (lexical_openBreakable hopen ha)
    have ha₄ := (Expr.emits _ htest).lexical ((emits_emit rfl hit).lexical ha₂)
    have ha₆ := lexical_emitJump hnext ((emits_emit rfl hequal).lexical ha₄)
    exact Block.PassesOption.lexical hblock (lexical_patchOption hpatch ha₆)
  | .omgwtf hopen harms hpatch hblock, ha => by
    have ha₂ := lexical_switch harms (lexical_openBreakable hopen ha)
    exact Block.PassesOption.lexical hblock (lexical_patchOption hpatch ha₂)
  | .yes hit hnext hblock, ha =>
    Block.PassesOption.lexical hblock (lexical_emitJump hnext ((emits_emit rfl hit).lexical ha))
  | .mebbe hit hnext hyes hdone hbefore hpatch htest
      hskip hblock, ha => by
    have ha₆ := lexical_branch hit hnext hyes hdone hbefore hpatch ha
    exact Block.PassesOption.lexical hblock
      (lexical_emitJump hskip ((Expr.emits _ htest).lexical ha₆))
  | .no hit hnext hyes hdone harms hpatch hblock, ha =>
    Block.PassesOption.lexical hblock (lexical_branch hit hnext hyes hdone harms hpatch ha)
  | .opened h, ha => lexical_openScope h ha
  | .counter hopen hzero hdeclare, ha =>
    (assembles_declare hdeclare).lexical
      ((emits_emitConstant rfl hzero (by rintro _ _ - _ ⟨⟩)).lexical (lexical_openScope hopen ha))
  | .pass hopen htest hblock, ha =>
    Block.PassesOption.lexical hblock
      ((LoopUpdate.assembles_test htest).lexical (lexical_openLoop hopen ha))
  | .broken hopen htest hblock hchange hloop hpatch hbreak, ha => by
    have ha₂ := (LoopUpdate.assembles_test htest).lexical (lexical_openLoop hopen ha)
    have ha₃ := (Block.assemblesOption _ _ hblock ha₂).lexical ha₂
    have ha₄ := (LoopUpdate.assembles_change hchange).lexical ha₃
    have ha₅ := lexical_emitLoop hloop ha₄
    exact lexical_closeBreakable hbreak (lexical_patchOption hpatch ha₅)

theorem Stmt.PassesAll.lexical {ss : List Stmt} {a b : Assembly} :
    Stmt.PassesAll ss a b → a.Lexical → b.Lexical
  | .start, ha => ha
  | .head h, ha => Stmt.Passes.lexical h ha
  | .tail hs hss, ha => Stmt.PassesAll.lexical hss ((Stmt.assembles _ hs ha).lexical ha)

theorem Block.PassesOption.lexical {span : Span} {block : Option Block} {a b : Assembly} :
    Block.PassesOption span block a b → a.Lexical → b.Lexical
  | .start, ha => ha
  | .inside hopen hbody, ha => Stmt.PassesAll.lexical hbody (lexical_openScope hopen ha)
  | .done h, ha => (Block.assemblesOption span block h ha).lexical ha

end

namespace Scope

variable {s : Scope} {name : Text} {n : Nat}

/-- The variable in a slot is the most recent of its name in the innermost block that declares the
name: any other variable of that name belongs to a block further out, or is an older one of the same
block. -/
def Innermost (s : Scope) (name : Text) (n : Nat) : Prop :=
  ∃ l, s.local? n = some l ∧ l.name = name ∧
    ∀ i x, s.local? i = some x → x.name = name → x.depth < l.depth ∨ x.depth = l.depth ∧ i ≤ n

/-- A variable in a slot behind that of another is newer. -/
private theorem mem_of_lt {newer older : List Local} {l x : Local} {i : Nat}
    (h : s.locals = newer ++ l :: older) (hx : s.local? i = some x) (hi : older.length < i) :
    x ∈ newer := by
  rw [local?, h, List.reverse_append, List.reverse_cons] at hx
  rw [List.getElem?_append_right (by rw [List.length_append, List.length_reverse]; exact hi)] at hx
  exact List.mem_reverse.1 (List.mem_of_getElem? hx)

namespace Lexical

/-- A name leads to the greatest slot with a variable of that name. -/
theorem slots_eq_some_iff (h : s.Lexical) :
    s.slots name = some n ↔ IsGreatest {i | ∃ l, s.local? i = some l ∧ l.name = name} n := by
  have hgreatest : ∀ {n}, slotIn name s.locals = some n →
      IsGreatest {i | ∃ l, s.local? i = some l ∧ l.name = name} n := by
    intro n hn
    obtain ⟨newer, l, older, heq, rfl, hl, hnewer⟩ := slotIn_eq_some_iff.1 hn
    refine ⟨⟨l, local?_append heq, hl⟩, ?_⟩
    rintro i ⟨x, hx, hname⟩
    by_contra hi
    exact hnewer x (mem_of_lt heq hx (Nat.lt_of_not_le hi)) hname
  rw [h.slots]
  refine ⟨hgreatest, fun hn => ?_⟩
  obtain ⟨l, hl, hname⟩ := hn.1
  cases hm : slotIn name s.locals with
  | none => exact absurd hname (slotIn_eq_none_iff.1 hm l (mem_of_local? hl))
  | some m => rw [(hgreatest hm).unique hn]

theorem slots_eq_none_iff (h : s.Lexical) :
    s.slots name = none ↔ ∀ l ∈ s.locals, l.name ≠ name := by
  rw [h.slots, slotIn_eq_none_iff]

/-- In the order of their slots, variables belong to blocks further and further in. -/
theorem depths (h : s.Lexical) : (s.locals.reverse.map Local.depth).Pairwise (· ≤ ·) := by
  rw [List.map_reverse, List.pairwise_reverse]
  exact h.ordered

private theorem depth_le_of_le (h : s.Lexical) {i j : Nat} {x y : Local} (hx : s.local? i = some x)
    (hy : s.local? j = some y) (hij : i ≤ j) : x.depth ≤ y.depth := by
  obtain ⟨hi, rfl⟩ := List.getElem?_eq_some_iff.1 hx
  obtain ⟨hj, rfl⟩ := List.getElem?_eq_some_iff.1 hy
  rcases Nat.eq_or_lt_of_le hij with rfl | hlt
  · exact Nat.le_refl _
  · have hpairs := List.pairwise_map.1 h.depths
    exact List.pairwise_iff_getElem.1 hpairs i j hi hj hlt

/-- A name leads to its most recent variable in the innermost block that declares it. -/
theorem innermost (h : s.Lexical) (hn : s.slots name = some n) : s.Innermost name n := by
  obtain ⟨⟨l, hl, hname⟩, hgreatest⟩ := h.slots_eq_some_iff.1 hn
  refine ⟨l, hl, hname, fun i x hx hxname => ?_⟩
  have hi : i ≤ n := hgreatest ⟨x, hx, hxname⟩
  rcases Nat.lt_or_eq_of_le (h.depth_le_of_le hx hl hi) with hlt | heq
  · exact .inl hlt
  · exact .inr ⟨heq, hi⟩

end Lexical
end Scope

/-- A block gives back the scopes that it was entered with, but for functions that variables are no
longer known to hold and for jumps out of the construct around it. -/
structure Assembly.Restored (a a' : Assembly) : Prop where
  outer : a'.outer = a.outer
  depth : a'.scope.depth = a.scope.depth
  locals : List.Forall₂ Local.Keeps a.scope.locals a'.scope.locals
  slots : a'.scope.slots = a.scope.slots
  breakables : ∃ exits, a'.scope.breakables = Breakable.addExits exits a.scope.breakables

theorem Block.restores {span : Span} {block : Block} {a a' : Assembly}
    (h : Block.assembleOption span (some block) a = .ok ((), a')) (ha : a.Lexical) :
    a.Restored a' := by
  obtain ⟨sp, body⟩ := block
  obtain ⟨_, exits, -, hblock⟩ := Block.assemblesOption span (some (.mk sp body)) h ha
  have hkept : List.Forall₂ Local.Keeps a.scope.locals a'.scope.locals := by
    obtain ⟨_, a₀, hopen, hrest⟩ := ok_of_bind h
    obtain ⟨_, a₁, hbody, hclose⟩ := ok_of_bind hrest
    obtain ⟨_, _, -, hstmts⟩ := Stmt.assemblesAll body hbody (lexical_openScope hopen ha)
    cases hopen
    obtain ⟨s, a₂, hs, hrest⟩ := ok_of_bind hclose
    cases hs
    obtain ⟨_, a₃, hupdate, hpops⟩ := ok_of_bind hrest
    cases hupdate
    rw [(emits_emitPops hpops).scope]
    exact (hstmts.grows.close ha.scope.level hstmts.depth).1
  refine ⟨hblock.outer, hblock.depth, hkept, funext fun name => ?_, exits, hblock.breakables⟩
  rw [(hblock.lexical ha).scope.slots, ha.scope.slots, Scope.slotIn_of_keeps hkept]

namespace Assemble

variable {a : Assembly} {id : Ident} {n : Nat}

theorem resolve_slot {l : Local} (h : a.scope.find? id.name = some (n, l)) :
    resolve id a = .ok (.slot n l.function, a) := by
  have hr : a.scope.resolve a.outer id.name = .ok (.slot n l.function) := by
    rw [Scope.resolve, h]
  simp only [resolve, bind, StateT.bind, get, getThe, MonadStateOf.get, StateT.get, Except.bind,
    pure, Except.pure, hr]
  rfl

/-- A name of the current function is read from the slot that it leads to. -/
private theorem readName_slot {l : Local} (hit : id.name ≠ implicitName)
    (h : a.scope.find? id.name = some (n, l)) :
    readName id a = emitIndexed .readSt .readStLong n id.span a := by
  rw [readName, if_neg hit]
  change Except.bind (resolve id a) _ = _
  rw [resolve_slot h]
  rfl

/-- A name of the current function is written to the slot that it leads to. -/
private theorem writeName_slot {l : Local} (hit : id.name ≠ implicitName)
    (h : a.scope.find? id.name = some (n, l)) :
    writeName id a = emitIndexed .writeSt .writeStLong n id.span
      { a with scope := a.scope.forget n } := by
  rw [writeName, if_neg hit]
  change Except.bind (resolve id a) _ = _
  rw [resolve_slot h]
  rfl

end Assemble

private theorem LoopTest.scope_assemble {t : LoopTest} {exit : Option Nat} {a a' : Assembly}
    (h : t.assemble a = .ok (exit, a')) : a'.scope = a.scope := by
  cases t with
  | forever =>
    cases h
    rfl
  | untilTrue e =>
    obtain ⟨_, a₁, he, hrest⟩ := ok_of_bind h
    obtain ⟨_, a₂, hnot, hrest⟩ := ok_of_bind hrest
    obtain ⟨j, a₃, hjump, hpure⟩ := ok_of_bind hrest
    cases hpure
    rw [scope_emitJump hjump, (emits_emit rfl hnot).scope, (e.emits he).scope]
  | whileTrue e =>
    obtain ⟨_, a₁, he, hrest⟩ := ok_of_bind h
    obtain ⟨j, a₂, hjump, hpure⟩ := ok_of_bind hrest
    cases hpure
    rw [scope_emitJump hjump, (e.emits he).scope]

/-- A loop's variable is in the slot that its name leads to when the loop changes it. -/
private theorem LoopUpdate.slots_counter {u : LoopUpdate} {slot : Nat} {exit : Option Nat} {span : Span}
    {block : Block} {a a₁ a₂ a₃ : Assembly} (hopen : openLoop (some u) a = .ok (slot, a₁))
    (htest : u.test.assemble a₁ = .ok (exit, a₂))
    (hblock : Block.assembleOption span (some block) a₂ = .ok ((), a₃)) (ha : a.Lexical) :
    a₃.scope.slots u.counter.name = some slot := by
  have ha₁ := lexical_openLoop hopen ha
  have hscope : a₂.scope = a₁.scope := LoopTest.scope_assemble htest
  have ha₂ : a₂.Lexical := (LoopTest.assembles htest).lexical ha₁
  rw [(Block.restores hblock ha₂).slots, hscope]
  obtain ⟨_, b₀, hopenScope, hrest⟩ := ok_of_bind hopen
  obtain ⟨s, b₁, hs, hrest⟩ := ok_of_bind hrest
  cases hs
  obtain ⟨_, b₂, hzero, hrest⟩ := ok_of_bind hrest
  obtain ⟨_, b₃, hdeclare, hrest⟩ := ok_of_bind hrest
  obtain ⟨_, b₄, hbreak, hpure⟩ := ok_of_bind hrest
  cases hpure
  cases hbreak
  cases hdeclare
  change (if u.counter.name = u.counter.name then some b₂.scope.locals.length else _) = _
  rw [if_pos rfl, (emits_emitConstant rfl hzero (by rintro _ _ - _ ⟨⟩)).scope]

namespace Program

/-- Names are resolved lexically while a program is compiled. In every state that the compiler passes
through, in the current function and in those around it, a name leads to the greatest slot with a
variable of that name, and the variables stand in the order of the blocks that are open; expressions
leave the scopes as they are, and blocks give them back; so each name that the current function
declares is read from and written to its most recent variable in the innermost block that declares
it, and a loop's own variable is changed there. -/
theorem resolves_lexically (p : Program) (a : Assembly) (hpasses : p.Passes a) :
    (∀ s ∈ a.scope :: a.outer,
      (∀ name n, s.slots name = some n ↔
        IsGreatest {i | ∃ l, s.local? i = some l ∧ l.name = name} n) ∧
      (∀ name, s.slots name = none ↔ ∀ l ∈ s.locals, l.name ≠ name) ∧
      (s.locals.reverse.map Local.depth).Pairwise (· ≤ ·) ∧ ∀ l ∈ s.locals, l.depth ≤ s.depth) ∧
    (∀ (x : Expr) (a' : Assembly), x.assemble a = .ok ((), a') →
      a'.scope = a.scope ∧ a'.outer = a.outer) ∧
    (∀ (span : Span) (block : Block) (a' : Assembly),
      Block.assembleOption span (some block) a = .ok ((), a') → a.Restored a') ∧
    (∀ id : Ident, id.name ≠ implicitName → (∃ l ∈ a.scope.locals, l.name = id.name) →
      ∃ n, a.scope.Innermost id.name n ∧
        readName id a = emitIndexed .readSt .readStLong n id.span a ∧
        writeName id a = emitIndexed .writeSt .writeStLong n id.span
          { a with scope := a.scope.forget n }) ∧
    ∀ (u : LoopUpdate) (slot : Nat) (exit : Option Nat) (span : Span) (block : Block)
      (a₁ a₂ a₃ : Assembly), openLoop (some u) a = .ok (slot, a₁) →
      u.test.assemble a₁ = .ok (exit, a₂) →
      Block.assembleOption span (some block) a₂ = .ok ((), a₃) →
      a₃.scope.Innermost u.counter.name slot := by
  have ha : a.Lexical := hpasses.lexical Assembly.lexical_start
  refine ⟨fun s hs => ?_, fun x a' hx => ?_, fun span block a' hblock => Block.restores hblock ha,
    fun id hit hdeclared => ?_, fun u slot exit span block a₁ a₂ a₃ hopen htest hblock => ?_⟩
  · have hlexical := ha s hs
    exact ⟨fun _ _ => hlexical.slots_eq_some_iff, fun _ => hlexical.slots_eq_none_iff,
      hlexical.depths, fun l hl => hlexical.level l.depth (List.mem_map_of_mem hl)⟩
  · exact ⟨(x.emits hx).scope, (x.emits hx).outer⟩
  · obtain ⟨l, hl, hname⟩ := hdeclared
    cases hslot : a.scope.slots id.name with
    | none => exact absurd hname (ha.scope.slots_eq_none_iff.1 hslot l hl)
    | some n =>
      obtain ⟨x, hfind, -⟩ := ha.scope.find?_of_slotIn ((ha.scope.slots _).symm.trans hslot)
      exact ⟨n, ha.scope.innermost hslot, readName_slot hit hfind, writeName_slot hit hfind⟩
  · have ha₂ := (LoopTest.assembles htest).lexical (lexical_openLoop hopen ha)
    have ha₃ := (Block.assemblesOption span (some block) hblock ha₂).lexical ha₂
    exact ha₃.scope.innermost (LoopUpdate.slots_counter hopen htest hblock ha)

/-- A variable that hides another in a block. -/
def shadow : Program :=
  let name : Ident := ⟨"X", .zero⟩
  ⟨.zero, "1.2", .mk .zero
    [.declare .zero name .absent,
      .branch .zero
        (some (.mk .zero [.declare .zero name .absent, .assign .zero name (.int .zero 1)])) [] none]⟩

theorem resolves_lexically_shadow :
    ∃ a, shadow.Passes a ∧ a.scope.locals = [⟨"X", 1, none⟩, ⟨"X", 0, none⟩] ∧
      ∃ n, a.scope.Innermost "X" n ∧
        readName ⟨"X", .zero⟩ a = emitIndexed .readSt .readStLong n .zero a ∧
        writeName ⟨"X", .zero⟩ a = emitIndexed .writeSt .writeStLong n .zero
          { a with scope := a.scope.forget n } := by
  let declared : Stmt := .declare .zero ⟨"X", .zero⟩ .absent
  let steps : Assemble Unit := do
    declared.assemble
    emit .readIt .zero
    let _ ← emitJump .jumpIfFalse .zero
    openScope
    declared.assemble
  obtain ⟨⟨_, a⟩, hsteps, hlocals⟩ : ∃ r, steps ⟨.empty, .empty, []⟩ = .ok r ∧
      decide (r.2.scope.locals = [⟨"X", 1, none⟩, ⟨"X", 0, none⟩]) = true :=
    exists_of_toOption_any (by decide +kernel)
  obtain ⟨_, a₁, hfirst, hsteps⟩ := ok_of_bind hsteps
  obtain ⟨_, a₂, hit, hsteps⟩ := ok_of_bind hsteps
  obtain ⟨next, a₃, hnext, hsteps⟩ := ok_of_bind hsteps
  obtain ⟨_, a₄, hopen, hsecond⟩ := ok_of_bind hsteps
  have hpasses : shadow.Passes a :=
    .tail hfirst (.head (.yes hit hnext (.inside hopen (.head (.done hsecond)))))
  have heq := of_decide_eq_true hlocals
  have hdeclared : ∃ l ∈ a.scope.locals, l.name = "X" := by
    rw [heq]
    exact ⟨_, List.mem_cons_self, rfl⟩
  exact ⟨a, hpasses, heq,
    (shadow.resolves_lexically a hpasses).2.2.2.1 ⟨"X", .zero⟩ (by decide) hdeclared⟩

end Program

end LolToolchain
