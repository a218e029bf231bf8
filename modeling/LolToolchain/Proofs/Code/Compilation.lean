import LolToolchain.Proofs.Code.Assembly

/-!
The compiler places the code of statements and of programs. The theorems follow the recursion of the
compiler; the arms of a switch or a branch are added to what stands before them, because they close
a jump of it.
-/
namespace LolToolchain

open Assemble

variable {a a' : Assembly} {span : Span}

theorem LoopTest.assembles {t : LoopTest} {exit : Option Nat} (h : t.assemble a = .ok (exit, a')) :
    Assembles a a' 0 exit.toList (fun _ _ ns => ns) fun C _ outer _ _ ns x y =>
      ∀ beyond : Nat, (∀ j ∈ exit, C.readJump j = beyond) → t.Placed C outer ns beyond x y := by
  cases t with
  | forever =>
    cases h
    exact (Assembles.of_emits (fun _ _ _ x y => x = y) (.refl fun _ => rfl)).congr rfl
      (fun _ _ => rfl) fun _ _ _ _ hC _ _ => hC
  | untilTrue e =>
    obtain ⟨_, a₁, he, hrest⟩ := ok_of_bind h
    obtain ⟨_, a₂, hnot, hrest⟩ := ok_of_bind hrest
    obtain ⟨j, a₃, hjump, hpure⟩ := ok_of_bind hrest
    cases hpure
    have h₁ := Assembles.of_emits (fun C outer ns => e.Placed C outer ns) (e.emits he)
    have h₂ := Assembles.of_emits (fun C _ _ => C.Has .not 0 e.span) (emits_emit rfl hnot)
    refine ((h₁.trans h₂).trans (assembles_emitJump rfl hjump)).congr rfl (fun _ _ => rfl) ?_
    rintro C _ _ _ ⟨m₂, ⟨m₁, hC₁, hC₂⟩, hC₃⟩ beyond hbeyond
    exact ⟨m₁, m₂, hC₁, hC₂, hC₃ beyond (hbeyond j rfl)⟩
  | whileTrue e =>
    obtain ⟨_, a₁, he, hrest⟩ := ok_of_bind h
    obtain ⟨j, a₃, hjump, hpure⟩ := ok_of_bind hrest
    cases hpure
    have h₁ := Assembles.of_emits (fun C outer ns => e.Placed C outer ns) (e.emits he)
    refine (h₁.trans (assembles_emitJump rfl hjump)).congr rfl (fun _ _ => rfl) ?_
    rintro C _ _ _ ⟨m₁, hC₁, hC₂⟩ beyond hbeyond
    exact ⟨m₁, hC₁, hC₂ beyond (hbeyond j rfl)⟩

theorem LoopUpdate.emits {u : LoopUpdate} {slot : Nat} (h : u.assembleChange slot a = .ok ((), a')) :
    Emits a a' fun C => u.Placed C (a.outer.map Scope.names) a.scope.names slot a.chunk.code.size
      a'.chunk.code.size := by
  unfold assembleChange at h
  dsimp only at h
  cases hu : u.change with
  | up | down =>
    rw [hu] at h
    obtain ⟨_, a₁, hread, hrest⟩ := ok_of_bind h
    obtain ⟨_, a₂, hone, hrest⟩ := ok_of_bind hrest
    obtain ⟨_, a₃, hop, hwrite⟩ := ok_of_bind hrest
    have h₁ := emits_emitIndexed rfl rfl hread
    have h₂ := emits_emitConstant rfl hone (by rintro _ _ - _ ⟨⟩)
    have h₃ := emits_emit rfl hop
    have h₄ := emits_emitIndexed rfl rfl hwrite
    refine (h₁.trans (h₂.trans (h₃.trans h₄))).mono fun C hC => ?_
    simp only [Placed, hu]
    exact ⟨_, hC.2.2.2, _, _, hC.1, hC.2.1, hC.2.2.1⟩
  | apply f =>
    rw [hu] at h
    obtain ⟨_, a₁, hf, hrest⟩ := ok_of_bind h
    obtain ⟨_, a₂, hread, hrest⟩ := ok_of_bind hrest
    obtain ⟨_, a₃, hcall, hwrite⟩ := ok_of_bind hrest
    have h₁ := (emits_readCallee hf).2
    have h₂ := emits_emitIndexed rfl rfl hread
    have h₃ := emits_emit_byte rfl hcall
    have h₄ := emits_emitIndexed rfl rfl hwrite
    refine (h₁.trans (h₂.trans (h₃.trans h₄))).mono fun C hC => ?_
    simp only [Placed, hu]
    exact ⟨_, hC.2.2.2, _, _, hC.1, hC.2.1, hC.2.2.1⟩

theorem declareParams_eq : ∀ (params : List Ident) {a a' : Assembly},
    declareParams params a = .ok ((), a') →
    a' = { a with scope := a.scope.declareParams params }
  | [], a, a', h => by
    cases h
    rfl
  | p :: ps, a, a', h => by
    obtain ⟨_, a₁, hp, hps⟩ := ok_of_bind h
    cases hp
    rw [declareParams_eq ps hps]
    rfl

/-- The state in which the body of a function is compiled. -/
def Assembly.enter (a : Assembly) (params : List Ident) : Assembly :=
  { a with
    scope := Scope.declareParams
      { Scope.empty with depth := 1, breakables := [⟨.function, 0, []⟩] } params
    outer := a.scope :: a.outer }

theorem Assembly.locals_enter (a : Assembly) (params : List Ident) :
    (a.enter params).scope.locals = (params.map fun p => ⟨p.name, 1, none⟩).reverse := by
  rw [enter, Scope.locals_declareParams]
  exact List.append_nil _

theorem Assembly.names_enter (a : Assembly) (params : List Ident) :
    (a.enter params).scope.names = Names.ofParams params := by
  rw [Scope.names, locals_enter, Names.ofParams, List.map_reverse, List.map_map]
  rfl

theorem Assembly.breakables_enter (a : Assembly) (params : List Ident) :
    (a.enter params).scope.breakables = [⟨.function, 0, []⟩] :=
  Scope.breakables_declareParams _ params

theorem Assembly.Lexical.enter (h : a.Lexical) (params : List Ident) : (a.enter params).Lexical :=
  List.forall_mem_cons.2 ⟨(Scope.lexical_empty _ _).declareParams params, h⟩

private theorem Assembly.Known.enter {address : Nat → Nat} {total : Nat} (h : a.Known address total)
    (params : List Ident) : (a.enter params).Known address total where
  constants := h.constants
  scope := by
    rw [Assembly.names_enter]
    exact .ofParams params
  outer := List.forall_mem_cons.2 ⟨h.scope, h.outer⟩

/-- The marker in front of a function's body, and the function's name. -/
private theorem assembles_marker {name : Text} {n : Nat} {a₁ : Assembly}
    (hn : n ≤ CompileFault.maxArity)
    (hmarker : emit .fnDef span [n.toUInt8] a = .ok ((), a₁))
    (hdeclare : declare name (some ⟨a.chunk.code.size, n⟩) a₁ = .ok ((), a')) :
    Assembles a a' 1 [] (fun address k ns => (name, some (address k)) :: ns)
      fun C address _ _ k _ x y => address k = a.chunk.code.size ∧ x = address k ∧
        C.Has .fnDef n span x y := by
  have hemit := emits_emit_byte rfl hmarker
  rw [Expr.toNat_toUInt8 hn] at hemit
  cases hdeclare
  refine ⟨[a.chunk.code.size], [], rfl, ?_⟩
  exact
    { outer := hemit.outer
      depth := by rw [← hemit.scope]; rfl
      grows := by
        rw [← hemit.scope]
        exact .declare a₁.scope name _
      lexical := fun ha => by
        have hend := hemit.lexical ha
        exact hend.update (hend.scope.declare name _)
      breakables := by
        rw [Breakable.addExits_nil, ← hemit.scope]
        rfl
      waits := Breakable.waits_nil _
      within := fun f hf => by
        obtain rfl := List.mem_singleton.1 hf
        refine ⟨Nat.le_refl _, ?_⟩
        have hsize : (a.chunk.emit .fnDef [n.toUInt8] span).code.size = a₁.chunk.code.size := by
          cases hmarker
          rfl
        rw [Chunk.size_code_emit] at hsize
        change a.chunk.code.size < a₁.chunk.code.size
        omega
      ordered := List.pairwise_singleton _ _
      names := fun _ address k hk => by
        rw [hk.1, ← hemit.scope]
        rfl
      chunk := hemit.chunk.mono fun C hC ha _ address k _ hk _ => ⟨hk.1, hk.1.symm, hC ha⟩
      known := fun address total hfs h => by
        obtain ⟨j, hj, hf⟩ := List.forall_mem_singleton.1 hfs
        have hknown := hemit.known address total h
        refine { hknown with scope := ?_ }
        have hnamed := hknown.scope.cons_some name hj
        rwa [← hf] at hnamed }

/-- The start of a function: its marker stands behind the jump over it. -/
theorem assembles_openFunction {name : Ident} {params : List Ident} {skip : Nat}
    {f : KnownFunction} (h : openFunction span name params a = .ok ((skip, f), a')) :
    ∃ a₁, a' = a₁.enter params ∧ (name.name, some f.offset) ∈ a₁.scope.names ∧
      Assembles a a₁ 1 [skip]
      (fun address k ns => (name.name, some (address k)) :: ns)
      fun C address _ _ k _ x y => address k = f.offset ∧
        (∀ target : Nat, C.readJump skip = target → C.HasJump .jump target span x (address k)) ∧
        C.Has .fnDef params.length span (address k) y := by
  unfold openFunction at h
  split at h
  · cases h
  · rename_i hparams
    obtain ⟨j, a₁, hjump, hrest⟩ := ok_of_bind h
    obtain ⟨offset, a₂, hhere, hrest⟩ := ok_of_bind hrest
    cases hhere
    obtain ⟨_, a₃, hmarker, hrest⟩ := ok_of_bind hrest
    obtain ⟨_, a₄, hdeclare, hrest⟩ := ok_of_bind hrest
    obtain ⟨_, a₅, henter, hrest⟩ := ok_of_bind hrest
    obtain ⟨_, a₆, hps, hpure⟩ := ok_of_bind hrest
    cases hpure
    have hjumped := (assembles_emitJump rfl hjump).trans
      (assembles_marker (Nat.le_of_not_lt hparams) hmarker hdeclare)
    have hnamed : (name.name, some a₁.chunk.code.size) ∈ a₄.scope.names := by
      cases hdeclare
      exact List.mem_cons_self
    refine ⟨a₄, ?_, hnamed, hjumped.congr rfl (fun _ _ => rfl) ?_⟩
    · cases henter
      exact declareParams_eq params hps
    · rintro C address exit k ⟨m, htarget, hk, rfl, hmark⟩
      exact ⟨hk, htarget, hmark⟩

/-- The end of a function, step by step. -/
theorem closeFunction_steps {body : List Stmt} {skip : Nat} {f : KnownFunction} {s : Scope}
    {rest : List Scope} (houter : a.outer = s :: rest)
    (h : closeFunction span body skip f a = .ok ((), a')) :
    ∃ a₁ a₂, (if endsInReturn body then a₁ = a else
        ∃ a₀, emit .readIt span [] a = .ok ((), a₀) ∧ emit .ret span [] a₀ = .ok ((), a₁)) ∧
      patch skip { a₁ with scope := s, outer := rest } = .ok ((), a₂) ∧
      emitConstant (functionValue f.offset) span a₂ = .ok ((), a') := by
  unfold closeFunction at h
  split at h
  · rename_i hb
    obtain ⟨_, a₁, hit, hrest⟩ := ok_of_bind h
    obtain ⟨_, a₂, hret, hrest⟩ := ok_of_bind hrest
    obtain ⟨_, a₃, hmodify, hrest⟩ := ok_of_bind hrest
    obtain ⟨_, a₄, hpatch, hconst⟩ := ok_of_bind hrest
    have houter₂ := ((emits_emit rfl hret).outer.trans (emits_emit rfl hit).outer).trans houter
    cases hmodify
    simp only [houter₂] at hpatch
    refine ⟨a₂, a₄, ?_, hpatch, hconst⟩
    rw [if_neg (by simpa using hb)]
    exact ⟨a₁, hit, hret⟩
  · rename_i hb
    obtain ⟨_, a₃, hmodify, hrest⟩ := ok_of_bind h
    obtain ⟨_, a₄, hpatch, hconst⟩ := ok_of_bind hrest
    cases hmodify
    simp only [houter] at hpatch
    refine ⟨a, a₄, ?_, hpatch, hconst⟩
    rw [if_pos (by simpa using hb)]

/-- A body that does not end with a return gives the implicit variable. -/
theorem emits_return {body : List Stmt}
    (h : if endsInReturn body then a' = a else
      ∃ a₀, emit .readIt span [] a = .ok ((), a₀) ∧ emit .ret span [] a₀ = .ok ((), a')) :
    Emits a a' fun C => ReturnAt C span body a.chunk.code.size a'.chunk.code.size := by
  unfold ReturnAt
  split at h
  · rename_i hends
    subst h
    exact .refl fun C => by rw [if_pos hends]
  · rename_i hends
    obtain ⟨a₀, hit, hret⟩ := h
    refine ((emits_emit rfl hit).trans (emits_emit rfl hret)).mono fun C hC => ?_
    rw [if_neg hends]
    exact ⟨_, hC.1, hC.2⟩

/-- The end of a function in its three parts. -/
theorem closeFunction_parts {body : List Stmt} {skip : Nat} {f : KnownFunction} {s : Scope}
    {rest : List Scope} (houter : a.outer = s :: rest)
    (h : closeFunction span body skip f a = .ok ((), a')) :
    ∃ a₁ a₂, Emits a a₁ (fun C => ReturnAt C span body a.chunk.code.size a₁.chunk.code.size) ∧
      patch skip { a₁ with scope := s, outer := rest } = .ok ((), a₂) ∧
      emitConstant (functionValue f.offset) span a₂ = .ok ((), a') := by
  obtain ⟨a₁, a₂, hsteps, hpatch, hconst⟩ := closeFunction_steps houter h
  exact ⟨a₁, a₂, emits_return hsteps, hpatch, hconst⟩

/-- The function that is named in its own scope can be put among the constants. -/
theorem known_of_patch {s : Scope} {rest : List Scope} {skip : Nat} {a₁ a₂ : Assembly} {name : Text}
    {f : Nat} (hpatch : patch skip { a₁ with scope := s, outer := rest } = .ok ((), a₂))
    (hnamed : (name, some f) ∈ s.names) (address : Nat → Nat) (total : Nat)
    (h : a₂.Known address total) : (functionValue f).KnownFunction address total := by
  injection hpatch with hpatch
  have hscope : s = a₂.scope := congrArg (fun r => r.2.scope) hpatch
  rw [hscope] at hnamed
  obtain ⟨j, hj, rfl⟩ := h.scope name f hnamed
  exact fun _ _ => ⟨j, hj, rfl⟩

/-- The body of a function, for the scope around it: nothing in it leaves a construct outside. -/
theorem assembles_body {a₁ a₂ : Assembly} {params : List Ident} {n : Nat} {names : NamesAfter}
    {placed : PlacedAs} (returned : Chunk → Nat → Nat → Prop)
    (hbody : Assembles (a.enter params) a₁ n [] names placed)
    (hret : Emits a₁ a₂ fun C => returned C a₁.chunk.code.size a₂.chunk.code.size) :
    Assembles a { a₂ with scope := a.scope, outer := a.outer } n [] (fun _ _ ns => ns)
      fun C address outer _ k ns x z => ∃ y,
        placed C address (ns :: outer) .function k (Names.ofParams params) x y ∧
          returned C y z := by
  obtain ⟨fs, new, hfs, hp⟩ := hbody
  have hbs := a.breakables_enter params
  obtain rfl : new = [] := by
    have hwaits := hp.waits
    rw [hbs] at hwaits
    exact hwaits rfl
  refine ⟨fs, [], hfs, ?_⟩
  exact
    { outer := rfl
      depth := rfl
      grows := .of_eq rfl
      lexical := fun ha => ha.congr rfl rfl
      breakables := (Breakable.addExits_nil _).symm
      waits := Breakable.waits_nil _
      within := fun f hf => by
        have hw := hp.within f hf
        exact ⟨hw.1, Nat.lt_of_lt_of_le hw.2 hret.chunk.size⟩
      ordered := hp.ordered
      names := fun _ _ _ _ => rfl
      chunk := by
        refine (hp.chunk.trans hret.chunk).mono fun C hC ha hshort address k exit hk _ => ?_
        have hplaced := hC.1 (ha.enter params) hshort address k .function hk (by rw [hbs]; rfl)
        rw [Assembly.names_enter] at hplaced
        exact ⟨_, hplaced, hC.2 (hp.lexical (ha.enter params))⟩
      known := fun address total hfs h =>
        { h with constants :=
          (hret.known address total (hp.known address total hfs (h.enter params))).constants } }

theorem lexical_openScope (h : openScope a = .ok ((), a')) (ha : a.Lexical) : a'.Lexical := by
  cases h
  exact ha.update ha.scope.deeper

theorem lexical_openBreakable {kind : BreakableKind} (h : openBreakable kind a = .ok ((), a'))
    (ha : a.Lexical) : a'.Lexical := by
  cases h
  exact ha.update (ha.scope.breakables _)

theorem LoopUpdate.length_le_names (update : Option LoopUpdate) (ns : Names) :
    ns.length ≤ (LoopUpdate.names update ns).length := by
  rw [names, List.length_append]
  omega

/-- The start of a loop: its variable, if it has one, is in a block of its own. -/
theorem openLoop_parts {update : Option LoopUpdate} {slot : Nat}
    (h : openLoop update a = .ok (slot, a')) :
    slot = a.scope.locals.length ∧ ∃ a₀ a₁, openScope a = .ok ((), a₀) ∧
      Assembles a₀ a₁ 0 [] (fun _ _ ns => LoopUpdate.names update ns)
        (fun C _ _ _ _ _ x y => LoopUpdate.StartAt C x y update) ∧
      openBreakable .loop a₁ = .ok ((), a') := by
  obtain ⟨_, a₀, hopen, hrest⟩ := ok_of_bind h
  obtain ⟨s, a₁, hs, hrest⟩ := ok_of_bind hrest
  cases hs
  have hslot : a₀.scope.locals.length = a.scope.locals.length := by
    cases hopen
    rfl
  cases update with
  | none =>
    obtain ⟨_, a₂, hbreak, hpure⟩ := ok_of_bind hrest
    cases hpure
    refine ⟨hslot, a₀, a₀, hopen, ?_, hbreak⟩
    exact .of_emits (fun _ _ _ x y => x = y) (.refl fun _ => rfl)
  | some u =>
    obtain ⟨_, a₂, hzero, hrest⟩ := ok_of_bind hrest
    obtain ⟨_, a₃, hdeclare, hrest⟩ := ok_of_bind hrest
    obtain ⟨_, a₄, hbreak, hpure⟩ := ok_of_bind hrest
    cases hpure
    refine ⟨hslot, a₀, a₃, hopen, ?_, hbreak⟩
    have hstart := Assembles.of_emits (fun C _ _ => C.HasConstant (.numbr 0) u.counter.span)
      (emits_emitConstant rfl hzero (by rintro _ _ - _ ⟨⟩))
    refine (hstart.trans (assembles_declare hdeclare)).congr rfl (fun _ _ => rfl) ?_
    rintro C _ _ _ ⟨_, hC, rfl⟩
    exact hC

/-- The test of a loop, as the compiler comes to it. -/
def LoopUpdate.assembleTest : Option LoopUpdate → Assemble (Option Nat)
  | none => pure none
  | some u => u.test.assemble

/-- The change of a loop's variable, as the compiler comes to it. -/
def LoopUpdate.assembleChangeIn (slot : Nat) : Option LoopUpdate → Assemble Unit
  | none => pure ()
  | some u => u.assembleChange slot

/-- A loop, step by step. -/
theorem loop_steps {s sp : Span} {label op : Ident} {update : Option LoopUpdate} {body : List Stmt}
    (h : Stmt.assemble (.loop s label op update (.mk sp body)) a = .ok ((), a')) :
    ∃ slot exit a₁ a₂ a₃ a₄ a₅ a₆ a₇ a₈ a₉,
      openLoop update a = .ok (slot, a₁) ∧ LoopUpdate.assembleTest update a₁ = .ok (exit, a₂) ∧
      openScope a₂ = .ok ((), a₃) ∧ Stmt.assembleAll body a₃ = .ok ((), a₄) ∧
      closeScope s a₄ = .ok ((), a₅) ∧
      LoopUpdate.assembleChangeIn slot update a₅ = .ok ((), a₆) ∧
      emitLoop a₁.chunk.code.size s a₆ = .ok ((), a₇) ∧ patchOption exit a₇ = .ok ((), a₈) ∧
      closeBreakable a₈ = .ok ((), a₉) ∧ closeScope s a₉ = .ok ((), a') := by
  obtain ⟨slot, a₁, hopen, hrest⟩ := ok_of_bind h
  obtain ⟨start, a₂, hhere, hrest⟩ := ok_of_bind hrest
  cases hhere
  cases update with
  | none =>
    obtain ⟨exit, a₂, hexit, hrest⟩ := ok_of_bind hrest
    obtain ⟨_, a₃, hscope, hrest⟩ := ok_of_bind hrest
    obtain ⟨_, a₄, hbody, hrest⟩ := ok_of_bind hrest
    obtain ⟨_, a₅, hclose, hrest⟩ := ok_of_bind hrest
    obtain ⟨_, a₇, hloop, hrest⟩ := ok_of_bind hrest
    obtain ⟨_, a₈, hpatch, hrest⟩ := ok_of_bind hrest
    obtain ⟨_, a₉, hbreak, hend⟩ := ok_of_bind hrest
    exact ⟨slot, exit, a₁, a₂, a₃, a₄, a₅, a₅, a₇, a₈, a₉, hopen, hexit, hscope, hbody, hclose, rfl,
      hloop, hpatch, hbreak, hend⟩
  | some u =>
    obtain ⟨exit, a₂, hexit, hrest⟩ := ok_of_bind hrest
    obtain ⟨_, a₃, hscope, hrest⟩ := ok_of_bind hrest
    obtain ⟨_, a₄, hbody, hrest⟩ := ok_of_bind hrest
    obtain ⟨_, a₅, hclose, hrest⟩ := ok_of_bind hrest
    obtain ⟨_, a₆, hchange, hrest⟩ := ok_of_bind hrest
    obtain ⟨_, a₇, hloop, hrest⟩ := ok_of_bind hrest
    obtain ⟨_, a₈, hpatch, hrest⟩ := ok_of_bind hrest
    obtain ⟨_, a₉, hbreak, hend⟩ := ok_of_bind hrest
    exact ⟨slot, exit, a₁, a₂, a₃, a₄, a₅, a₆, a₇, a₈, a₉, hopen, hexit, hscope, hbody, hclose,
      hchange, hloop, hpatch, hbreak, hend⟩

theorem LoopUpdate.assembles_test {update : Option LoopUpdate} {exit : Option Nat}
    (h : LoopUpdate.assembleTest update a = .ok (exit, a')) :
    Assembles a a' 0 exit.toList (fun _ _ ns => ns) fun C _ outer _ _ ns x y =>
      ∀ beyond : Nat, (∀ j ∈ exit, C.readJump j = beyond) →
        LoopUpdate.TestAt C outer ns beyond x y update := by
  cases update with
  | none =>
    cases h
    exact (Assembles.of_emits (fun _ _ _ x y => x = y) (.refl fun _ => rfl)).congr rfl
      (fun _ _ => rfl) fun _ _ _ _ hC _ _ => hC
  | some u => exact LoopTest.assembles h

theorem LoopUpdate.assembles_change {update : Option LoopUpdate} {slot : Nat}
    (h : LoopUpdate.assembleChangeIn slot update a = .ok ((), a')) :
    Assembles a a' 0 [] (fun _ _ ns => ns) fun C _ outer _ _ ns x y =>
      LoopUpdate.ChangeAt C outer ns slot x y update := by
  cases update with
  | none =>
    cases h
    exact .of_emits (fun _ _ _ x y => x = y) (.refl fun _ => rfl)
  | some u =>
    exact .of_emits (fun C outer ns x y => u.Placed C outer ns slot x y) (LoopUpdate.emits h)

abbrev Stmt.AssemblesBody (body : List Stmt) : Prop :=
  ∀ {a a' : Assembly}, Stmt.assembleAll body a = .ok ((), a') → a.Lexical →
    Assembles a a' (Stmt.definitionsAll body) []
      (fun address k ns => Stmt.namesAll address k body ns)
      fun C address outer exit k ns x y => Stmt.PlacedAll C address outer exit k body ns x y

abbrev Block.AssemblesOption (span : Span) (block : Option Block) : Prop :=
  ∀ {a a' : Assembly}, Block.assembleOption span block a = .ok ((), a') → a.Lexical →
    Assembles a a' (Block.definitionsOption block) []
      (fun address k ns => Block.namesOption address k block ns)
      fun C address outer exit k ns x y =>
        Block.PlacedOption C address outer exit k span block ns x y

/-- The arms of a switch, behind code whose open jumps are those that fall into them and others. -/
abbrev Arm.AssemblesSwitch (span : Span) (arms : List Arm) : Prop :=
  ∀ {a₀ a a' : Assembly} {n : Nat} {fall fall' : Option Nat} {js : List Nat} {names : NamesAfter}
    {placed : PlacedAs},
    Arm.assembleSwitch span fall arms a = .ok (fall', a') →
    Assembles a₀ a n (fall.toList ++ js) names placed → a₀.Lexical →
    Assembles a₀ a' (n + Arm.definitionsAll arms) (fall'.toList ++ js)
      (fun address k ns => Arm.namesAll address (k + n) arms (names address k ns))
      fun C address outer exit k ns x z => ∃ y, placed C address outer exit k ns x y ∧
        ((∀ j ∈ fall', C.readJump j = z) → ∃ entry : Nat, (∀ j ∈ fall, C.readJump j = entry) ∧
          Arm.PlacedSwitch C address outer exit (k + n) span arms (names address k ns) y entry z)

/-- The arms of a branch, behind code with an open jump to the first of them. -/
abbrev Arm.AssemblesBranch (span : Span) (arms : List Arm) : Prop :=
  ∀ {a₀ a a' : Assembly} {n : Nat} {next last : Nat} {js ends : List Nat} {names : NamesAfter}
    {placed : PlacedAs},
    Arm.assembleBranch span next arms a = .ok ((last, ends), a') →
    Assembles a₀ a n (next :: js) names placed → a₀.Lexical →
    Assembles a₀ a' (n + Arm.definitionsAll arms) (last :: (ends ++ js))
      (fun address k ns => Arm.namesAll address (k + n) arms (names address k ns))
      fun C address outer exit k ns x z => ∃ y, placed C address outer exit k ns x y ∧
        ∀ beyond : Nat, (∀ j ∈ ends, C.readJump j = beyond) → C.readJump last = z →
          C.readJump next = y ∧ Arm.PlacedBranch C address outer exit (k + n) span beyond arms
            (names address k ns) y z

abbrev Stmt.AssemblesFrom (s : Stmt) (a a' : Assembly) : Prop :=
  Assembles a a' s.definitions [] (fun address k ns => s.names address k ns)
    fun C address outer exit k ns x y => s.Placed C address outer exit k ns x y

private theorem assembles_definition {s sp : Span} {name : Ident} {params : List Ident}
    {body : List Stmt} (hall : Stmt.AssemblesBody body)
    (h : (Stmt.define s name params (.mk sp body)).assemble a = .ok ((), a')) (hl : a.Lexical) :
    (Stmt.define s name params (.mk sp body)).AssemblesFrom a a' := by
  obtain ⟨⟨skip, f⟩, a₁, hopen, hrest⟩ := ok_of_bind h
  obtain ⟨_, a₂, hbody, hclose⟩ := ok_of_bind hrest
  obtain ⟨a₀, rfl, hnamed, hstart⟩ := assembles_openFunction hopen
  have hb := hall hbody ((hstart.lexical hl).enter params)
  obtain ⟨a₃, a₄, hret, hpatch, hconst⟩ := closeFunction_parts hb.outer hclose
  have h₁ := hstart.trans (assembles_body (fun C => ReturnAt C s body) hb hret)
  have h₂ := Assembles.of_emits (fun C _ _ => C.HasConstant (functionValue f.offset) s)
    (emits_emitConstant rfl hconst (known_of_patch hpatch hnamed))
  refine ((h₁.patch hpatch).trans h₂).congr (by rw [Stmt.definitions]; omega) (fun _ _ => rfl) ?_
  rintro C address _ k ⟨m₃, ⟨⟨m₁, ⟨hf, hjump, hmark⟩, m₂, hC₁, hC₂⟩, htarget⟩, hC₃⟩
  refine ⟨m₁, m₂, m₃, hjump m₃ htarget, hmark, hC₁, hC₂, ?_⟩
  rw [hf]
  exact hC₃

private theorem assembles_switch {s : Span} {arms : List Arm} {otherwise : Option Block}
    (hall : Arm.AssemblesSwitch s arms) (hlast : Block.AssemblesOption s otherwise)
    (h : (Stmt.switch s arms otherwise).assemble a = .ok ((), a')) (hl : a.Lexical) :
    (Stmt.switch s arms otherwise).AssemblesFrom a a' := by
  obtain ⟨_, a₀, hopen, hrest⟩ := ok_of_bind h
  obtain ⟨fall, a₁, harms, hrest⟩ := ok_of_bind hrest
  obtain ⟨_, a₂, hpatch, hrest⟩ := ok_of_bind hrest
  obtain ⟨_, a₃, hotherwise, hclose⟩ := ok_of_bind hrest
  have hl₀ := lexical_openBreakable hopen hl
  have h₀ : Assembles a₀ a₀ 0 (none.toList ++ []) (fun _ _ ns => ns)
      (fun _ _ _ _ _ _ x y => x = y) :=
    .of_emits (fun _ _ _ x y => x = y) (.refl fun _ => rfl)
  have h₁ := (hall harms h₀ hl₀).patchOption hpatch
  have h₂ := h₁.trans (hlast hotherwise (h₁.lexical hl₀))
  refine (assembles_breakable (by decide) hopen h₂ hclose).congr ?_ ?_ ?_
  · rw [Stmt.definitions, Nat.zero_add]
  · intro address k
    rw [Stmt.names, Nat.add_zero, Nat.zero_add]
  · rintro C address _ k ⟨m, ⟨⟨_, rfl, hswitch⟩, hfall⟩, hblock⟩
    obtain ⟨entry, -, hplaced⟩ := hswitch hfall
    rw [Nat.add_zero] at hplaced
    rw [Nat.add_zero, Nat.zero_add] at hblock
    exact ⟨entry, m, hplaced, hblock⟩

private theorem assembles_branch {s : Span} {yes no : Option Block} {arms : List Arm}
    (hfirst : Block.AssemblesOption s yes) (hall : Arm.AssemblesBranch s arms)
    (hfinal : Block.AssemblesOption s no)
    (h : (Stmt.branch s yes arms no).assemble a = .ok ((), a')) (hl : a.Lexical) :
    (Stmt.branch s yes arms no).AssemblesFrom a a' := by
  obtain ⟨_, a₁, hit, hrest⟩ := ok_of_bind h
  obtain ⟨next, a₂, hnext, hrest⟩ := ok_of_bind hrest
  obtain ⟨_, a₃, hyes, hrest⟩ := ok_of_bind hrest
  obtain ⟨done, a₄, hdone, hrest⟩ := ok_of_bind hrest
  obtain ⟨⟨last, ends⟩, a₅, harms, hrest⟩ := ok_of_bind hrest
  obtain ⟨_, a₆, hpatch, hrest⟩ := ok_of_bind hrest
  obtain ⟨_, a₇, hno, hends⟩ := ok_of_bind hrest
  have h₁ := Assembles.of_emits (fun C _ _ => C.Has .readIt 0 s) (emits_emit rfl hit)
  have h₂ := h₁.trans (assembles_emitJump rfl hnext)
  have h₃ := h₂.trans (hfirst hyes (h₂.lexical hl))
  have h₄ := h₃.trans (assembles_emitJump rfl hdone)
  have h₅ := (hall harms h₄ hl).patch hpatch
  have h₆ := h₅.trans (hfinal hno (h₅.lexical hl))
  have hperm : (ends ++ [done] ++ []).Perm (done :: ends ++ []) := by
    rw [List.append_nil, List.append_nil]
    exact List.perm_append_singleton done ends
  refine ((h₆.perm hperm).patchAll hends).congr ?_ ?_ ?_
  · rw [Stmt.definitions]
    omega
  · intro address k
    rw [Stmt.names]
    simp only [Nat.add_zero, Nat.zero_add, Nat.add_assoc]
  · rintro C address exit k ⟨⟨m₄, ⟨⟨y, ⟨m₃, ⟨m₂, ⟨m₁, hC₁, hC₂⟩, hC₃⟩, hC₄⟩, harms⟩, hlast⟩,
      hblock⟩, hout⟩
    obtain ⟨hbeyond, hends⟩ := List.forall_mem_cons.1 hout
    obtain ⟨hy, hplaced⟩ := harms _ hends hlast
    simp only [Nat.add_zero, Nat.zero_add, ← Nat.add_assoc] at hC₃ hplaced hblock
    exact ⟨m₁, m₂, m₃, y, m₄, hC₁, hC₂ y hy, hC₃, hC₄ _ hbeyond, hplaced, hblock⟩

private theorem assembles_loop {s sp : Span} {label op : Ident} {update : Option LoopUpdate}
    {body : List Stmt} (hall : Stmt.AssemblesBody body)
    (h : (Stmt.loop s label op update (.mk sp body)).assemble a = .ok ((), a')) (hl : a.Lexical) :
    (Stmt.loop s label op update (.mk sp body)).AssemblesFrom a a' := by
  obtain ⟨slot, exit, a₁, a₂, a₃, a₄, a₅, a₆, a₇, a₈, a₉, hopen, hexit, hscope, hbody, hclose,
    hupdate, hloop, hpatch, hbreak, hend⟩ := loop_steps h
  have htest := LoopUpdate.assembles_test hexit
  have hchange := LoopUpdate.assembles_change hupdate
  obtain ⟨rfl, b₀, b₁, hopen, hstart, hopenBreak⟩ := openLoop_parts hopen
  have hl₀ := lexical_openScope hopen hl
  have hl₁ := lexical_openBreakable hopenBreak (hstart.lexical hl₀)
  have hl₂ := htest.lexical hl₁
  have hblock := assembles_block hscope
    (hall hbody (lexical_openScope hscope hl₂)) hl₂ hclose
  have h₁ := (htest.trans hblock).trans hchange
  have h₂ := h₁.trans (assembles_emitLoop h₁.size hloop)
  have h₃ := assembles_breakable (by decide) hopenBreak
    ((h₂.perm (by simp)).patchOption hpatch) hbreak
  have hpass : Assembles b₁ a₉ (Stmt.definitionsAll body) []
      (fun address k ns => (Stmt.namesAll address k body ns).keep ns.length)
      fun C address outer _ k ns x y => ∃ m₁ m₂ m₃ m₄,
        LoopUpdate.TestAt C outer ns y x m₁ update ∧
        Stmt.PlacedAll C address outer (.to ns.length y) k body ns m₁ m₂ ∧
        C.HasPops ((Stmt.namesAll address k body ns).length - ns.length) s m₂ m₃ ∧
        LoopUpdate.ChangeAt C outer ((Stmt.namesAll address k body ns).keep ns.length)
          a.scope.locals.length m₃ m₄ update ∧
        C.HasJump .jump x s m₄ y := by
    refine h₃.congr (by omega) (fun _ _ => rfl) ?_
    rintro C address _ k ⟨⟨m₄, ⟨m₃, ⟨m₁, hC₁, m₂, hC₂, hC₃⟩, hC₄⟩, hC₅⟩, hbeyond⟩
    cases hopenBreak
    exact ⟨m₁, m₂, m₃, m₄, hC₁ _ hbeyond, hC₂, hC₃, hC₄, hC₅⟩
  refine (assembles_block hopen (hstart.trans hpass) hl hend).congr (Nat.zero_add _) ?_ ?_
  · intro address k
    rw [Stmt.names, Names.keep_keep (LoopUpdate.length_le_names update _)]
    rfl
  · rintro C address _ k ⟨beyond, ⟨start, hC, m₁, m₂, m₃, m₄, hC₁, hC₂, hC₃, hC₄, hC₅⟩, hC₆⟩
    rw [Names.length_keep (Stmt.suffix_namesAll address body _ _)] at hC₆
    rw [← Scope.length_names] at hC₄
    exact ⟨start, m₁, m₂, m₃, m₄, beyond, hC, hC₁, hC₂, hC₃, hC₄, hC₅, hC₆⟩

mutual

/-- The compiler places the code of a statement. -/
theorem Stmt.assembles : ∀ (s : Stmt) {a a' : Assembly}, s.assemble a = .ok ((), a') →
    a.Lexical → s.AssemblesFrom a a'
  | .assign _ target value, a, a', h, _ => by
    obtain ⟨_, a₁, hv, hw⟩ := ok_of_bind h
    have h₁ := Assembles.of_emits (fun C outer ns => value.Placed C outer ns) (value.emits hv)
    exact (h₁.trans (assembles_writeName hw)).congr rfl (fun _ _ => rfl) fun _ _ _ _ hC => hC
  | .declare s name initial, a, a', h, _ => by
    obtain ⟨_, a₁, hi, hd⟩ := ok_of_bind h
    have h₁ := Assembles.of_emits (fun C outer ns x y => initial.Placed C outer ns s x y)
      (Initial.emits hi)
    refine (h₁.trans (assembles_declare hd)).congr rfl (fun _ _ => rfl) ?_
    rintro C _ _ _ ⟨_, hC, rfl⟩
    exact hC
  | .load _ _, a, a', h, _ => by
    cases h
    exact (Assembles.of_emits (fun _ _ _ x y => x = y) (.refl fun _ => rfl)).congr rfl
      (fun _ _ => rfl) fun _ _ _ _ hC => hC
  | .define _ _ _ (.mk _ body), _, _, h, hl => assembles_definition (Stmt.assemblesAll body) h hl
  | .expr s value, a, a', h, _ => by
    obtain ⟨_, a₁, hv, hi⟩ := ok_of_bind h
    have h₁ := Assembles.of_emits (fun C outer ns => value.Placed C outer ns) (value.emits hv)
    have h₂ := Assembles.of_emits (fun C _ _ => C.Has .writeIt 0 s) (emits_emit rfl hi)
    exact (h₁.trans h₂).congr rfl (fun _ _ => rfl) fun _ _ _ _ hC => hC
  | .switch s arms otherwise, _, _, h, hl =>
    assembles_switch (Arm.assemblesSwitch s arms) (Block.assemblesOption s otherwise) h hl
  | .branch s yes arms no, _, _, h, hl =>
    assembles_branch (Block.assemblesOption s yes) (Arm.assemblesBranch s arms)
      (Block.assemblesOption s no) h hl
  | .cast s name target, a, a', h, _ => by
    obtain ⟨_, a₁, hr, hrest⟩ := ok_of_bind h
    obtain ⟨_, a₂, hc, hw⟩ := ok_of_bind hrest
    have h₁ := Assembles.of_emits (fun C outer ns => name.ReadAt C outer ns) (emits_readName hr)
    have h₂ := Assembles.of_emits (fun C _ _ => C.Has .cast target.code.toNat s)
      (emits_emit_byte rfl hc)
    refine ((h₁.trans h₂).trans (assembles_writeName hw)).congr rfl (fun _ _ => rfl) ?_
    rintro C _ _ _ ⟨m₂, ⟨m₁, hC₁, hC₂⟩, hC₃⟩
    exact ⟨m₁, m₂, hC₁, hC₂, hC₃⟩
  | .leave s, a, a', h, _ => assembles_leave h
  | .loop _ _ _ _ (.mk _ body), _, _, h, hl => assembles_loop (Stmt.assemblesAll body) h hl
  | .ret s value, a, a', h, _ => by
    obtain ⟨_, a₁, hv, hi⟩ := ok_of_bind h
    have h₁ := Assembles.of_emits (fun C outer ns => value.Placed C outer ns) (value.emits hv)
    have h₂ := Assembles.of_emits (fun C _ _ => C.Has .ret 0 s) (emits_emit rfl hi)
    exact (h₁.trans h₂).congr rfl (fun _ _ => rfl) fun _ _ _ _ hC => hC
  | .print s args newline, a, a', h, _ => by
    obtain ⟨_, a₁, hv, hi⟩ := ok_of_bind h
    have h₁ := Assembles.of_emits (fun C outer ns x y => PrintedAt C outer ns s x y args)
      (emits_printed hv)
    have h₂ := Assembles.of_emits
      (fun C _ _ => C.Has .print (if newline then 1 else 0 : UInt8).toNat s)
      (emits_emit_byte rfl hi)
    refine (h₁.trans h₂).congr rfl (fun _ _ => rfl) ?_
    rintro C _ _ _ ⟨m, hC₁, hC₂⟩
    refine ⟨m, hC₁, ?_⟩
    cases newline <;> exact hC₂
  | .read s target, a, a', h, _ => by
    obtain ⟨_, a₁, hr, hw⟩ := ok_of_bind h
    have h₁ := Assembles.of_emits (fun C _ _ => C.Has .read 0 s) (emits_emit rfl hr)
    exact (h₁.trans (assembles_writeName hw)).congr rfl (fun _ _ => rfl) fun _ _ _ _ hC => hC
  | .append s target value, a, a', h, _ => by
    obtain ⟨_, a₁, ht, hrest⟩ := ok_of_bind h
    obtain ⟨_, a₂, hv, hi⟩ := ok_of_bind hrest
    have h₁ := Assembles.of_emits (fun C outer ns => target.ReadAt C outer ns) (emits_readName ht)
    have h₂ := Assembles.of_emits (fun C outer ns => value.Placed C outer ns) (value.emits hv)
    have h₃ := Assembles.of_emits (fun C _ _ => C.Has .append 0 s) (emits_emit rfl hi)
    refine ((h₁.trans h₂).trans h₃).congr rfl (fun _ _ => rfl) ?_
    rintro C _ _ _ ⟨m₂, ⟨m₁, hC₁, hC₂⟩, hC₃⟩
    exact ⟨m₁, m₂, hC₁, hC₂, hC₃⟩
  | .store s target index value, a, a', h, _ => by
    obtain ⟨_, a₁, ht, hrest⟩ := ok_of_bind h
    obtain ⟨_, a₂, hx, hrest⟩ := ok_of_bind hrest
    obtain ⟨_, a₃, hv, hi⟩ := ok_of_bind hrest
    have h₁ := Assembles.of_emits (fun C outer ns => target.ReadAt C outer ns) (emits_readName ht)
    have h₂ := Assembles.of_emits (fun C outer ns => index.Placed C outer ns) (index.emits hx)
    have h₃ := Assembles.of_emits (fun C outer ns => value.Placed C outer ns) (value.emits hv)
    have h₄ := Assembles.of_emits (fun C _ _ => C.Has .setIndex 0 s) (emits_emit rfl hi)
    refine (((h₁.trans h₂).trans h₃).trans h₄).congr rfl (fun _ _ => rfl) ?_
    rintro C _ _ _ ⟨m₃, ⟨m₂, ⟨m₁, hC₁, hC₂⟩, hC₃⟩, hC₄⟩
    exact ⟨m₁, m₂, m₃, hC₁, hC₂, hC₃, hC₄⟩

theorem Stmt.assemblesAll : ∀ body : List Stmt, Stmt.AssemblesBody body
  | [], a, a', h, _ => by
    cases h
    exact (Assembles.of_emits (fun _ _ _ x y => x = y) (.refl fun _ => rfl)).congr rfl
      (fun _ _ => rfl) fun _ _ _ _ hC => hC
  | s :: ss, a, a', h, hl => by
    obtain ⟨_, a₁, hs, hss⟩ := ok_of_bind h
    have h₁ := Stmt.assembles s hs hl
    have h₂ := Stmt.assemblesAll ss hss (h₁.lexical hl)
    exact (h₁.trans h₂).congr rfl (fun _ _ => rfl) fun _ _ _ _ hC => hC

theorem Block.assemblesOption (span : Span) :
    ∀ block : Option Block, Block.AssemblesOption span block
  | none, a, a', h, _ => by
    cases h
    exact (Assembles.of_emits (fun _ _ _ x y => x = y) (.refl fun _ => rfl)).congr rfl
      (fun _ _ => rfl) fun _ _ _ _ hC => hC
  | some (.mk _ body), a, a', h, hl => by
    obtain ⟨_, a₀, hopen, hrest⟩ := ok_of_bind h
    obtain ⟨_, a₁, hbody, hclose⟩ := ok_of_bind hrest
    exact (assembles_block hopen (Stmt.assemblesAll body hbody (lexical_openScope hopen hl)) hl
      hclose).congr rfl (fun _ _ => rfl) fun _ _ _ _ hC => hC

theorem Arm.assemblesSwitch (span : Span) : ∀ arms : List Arm, Arm.AssemblesSwitch span arms
  | [], a₀, a, a', n, fall, fall', js, names, placed, h, hacc, _ => by
    cases h
    refine hacc.congr rfl (fun _ _ => rfl) fun C address exit k hC => ?_
    exact ⟨_, hC, fun hfall => ⟨_, hfall, rfl, rfl⟩⟩
  | .mk test (.mk _ body) :: arms, a₀, a, a', n, fall, fall', js, names, placed, h, hacc, hl => by
    obtain ⟨_, a₁, hit, hrest⟩ := ok_of_bind h
    obtain ⟨_, a₂, htest, hrest⟩ := ok_of_bind hrest
    obtain ⟨_, a₃, hequal, hrest⟩ := ok_of_bind hrest
    obtain ⟨next, a₄, hnext, hrest⟩ := ok_of_bind hrest
    obtain ⟨_, a₅, hpatch, hrest⟩ := ok_of_bind hrest
    obtain ⟨_, a₆, hopen, hrest⟩ := ok_of_bind hrest
    obtain ⟨_, a₇, hbody, hrest⟩ := ok_of_bind hrest
    obtain ⟨_, a₈, hclose, hrest⟩ := ok_of_bind hrest
    obtain ⟨jump, a₉, hjump, hrest⟩ := ok_of_bind hrest
    obtain ⟨_, a₁₀, hpatchNext, harms⟩ := ok_of_bind hrest
    have hread := Assembles.of_emits (fun C _ _ => C.Has .readIt 0 test.span) (emits_emit rfl hit)
    have heval := Assembles.of_emits (fun C outer ns => test.Placed C outer ns) (test.emits htest)
    have hcompare := Assembles.of_emits (fun C _ _ => C.Has .equal 0 test.span)
      (emits_emit rfl hequal)
    have h₁ := hacc.trans (((hread.trans heval).trans hcompare).trans (assembles_emitJump rfl hnext))
    have hperm : (fall.toList ++ js ++ [next]).Perm (fall.toList ++ (next :: js)) := by
      rw [List.append_assoc]
      exact (List.perm_append_singleton next js).append_left _
    have h₂ := (h₁.perm hperm).patchOption hpatch
    have hblock := assembles_block hopen
      (Stmt.assemblesAll body hbody (lexical_openScope hopen (h₂.lexical hl))) (h₂.lexical hl) hclose
    have h₃ := (h₂.trans hblock).trans (assembles_emitJump rfl hjump)
    have hperm' : (next :: js ++ [] ++ [jump]).Perm (next :: ((some jump).toList ++ js)) := by
      rw [List.append_nil]
      exact (List.perm_append_singleton jump js).cons next
    have h₄ := (h₃.perm hperm').patch hpatchNext
    refine (Arm.assemblesSwitch span arms harms h₄ hl).congr ?_ ?_ ?_
    · rw [Arm.definitionsAll]
      omega
    · intro address k
      rw [Arm.namesAll]
      simp only [Nat.add_zero, Nat.add_assoc]
    · rintro C address exit k ⟨m, ⟨⟨m₅, ⟨e, ⟨⟨y, hC, m₃, ⟨m₂, ⟨m₁, hC₁, hC₂⟩, hC₃⟩, hC₄⟩, hentry⟩,
        m₄, hC₅, hC₆⟩, hC₇⟩, hnext⟩, hswitch⟩
      refine ⟨y, hC, fun hfall => ?_⟩
      obtain ⟨entry', hjump, hplaced⟩ := hswitch hfall
      simp only [Nat.add_zero, ← Nat.add_assoc] at hC₂ hC₅ hC₆ hplaced
      exact ⟨e, hentry, m₁, m₂, m₃, m₄, m₅, m, entry', hC₁, hC₂, hC₃, hC₄ m hnext, hC₅, hC₆,
        hC₇ entry' (hjump jump rfl), hplaced⟩

theorem Arm.assemblesBranch (span : Span) : ∀ arms : List Arm, Arm.AssemblesBranch span arms
  | [], a₀, a, a', n, next, last, js, ends, names, placed, h, hacc, _ => by
    cases h
    refine hacc.congr rfl (fun _ _ => rfl) fun C address exit k hC => ?_
    exact ⟨_, hC, fun beyond _ hlast => ⟨hlast, rfl⟩⟩
  | .mk test (.mk _ body) :: arms, a₀, a, a', n, next, last, js, ends, names, placed, h, hacc, hl => by
    obtain ⟨_, a₁, hpatch, hrest⟩ := ok_of_bind h
    obtain ⟨_, a₂, htest, hrest⟩ := ok_of_bind hrest
    obtain ⟨skip, a₃, hskip, hrest⟩ := ok_of_bind hrest
    obtain ⟨_, a₄, hopen, hrest⟩ := ok_of_bind hrest
    obtain ⟨_, a₅, hbody, hrest⟩ := ok_of_bind hrest
    obtain ⟨_, a₆, hclose, hrest⟩ := ok_of_bind hrest
    obtain ⟨done, a₇, hdone, hrest⟩ := ok_of_bind hrest
    obtain ⟨⟨last, ends⟩, a₈, harms, hpure⟩ := ok_of_bind hrest
    cases hpure
    have heval := Assembles.of_emits (fun C outer ns => test.Placed C outer ns) (test.emits htest)
    have h₁ := ((hacc.patch hpatch).trans heval).trans (assembles_emitJump rfl hskip)
    have hblock := assembles_block hopen
      (Stmt.assemblesAll body hbody (lexical_openScope hopen (h₁.lexical hl))) (h₁.lexical hl) hclose
    have h₂ := (h₁.trans hblock).trans (assembles_emitJump rfl hdone)
    have hperm : (js ++ [] ++ [skip] ++ [] ++ [done]).Perm (skip :: (js ++ [done])) := by
      simp only [List.append_nil, List.append_assoc]
      exact List.perm_middle
    have h₃ := Arm.assemblesBranch span arms harms (h₂.perm hperm) hl
    have hperm' : (last :: (ends ++ (js ++ [done]))).Perm (last :: (done :: ends ++ js)) := by
      rw [← List.append_assoc]
      exact (List.perm_append_singleton done (ends ++ js)).cons last
    refine (h₃.perm hperm').congr ?_ ?_ ?_
    · rw [Arm.definitionsAll]
      omega
    · intro address k
      rw [Arm.namesAll]
      simp only [Nat.add_zero, Nat.add_assoc]
    · rintro C address exit k ⟨m, ⟨m₄, ⟨m₂, ⟨m₁, ⟨y, ⟨hC, hnext⟩, hC₁⟩, hC₂⟩, m₃, hC₃, hC₄⟩, hC₅⟩,
        hbranch⟩
      refine ⟨y, hC, fun beyond hbeyond hlast => ⟨hnext, ?_⟩⟩
      obtain ⟨hdone, hends⟩ := List.forall_mem_cons.1 hbeyond
      obtain ⟨hskip, hplaced⟩ := hbranch beyond hends hlast
      simp only [Nat.add_zero, ← Nat.add_assoc] at hC₃ hC₄ hplaced
      exact ⟨m₁, m₂, m₃, m₄, m, hC₁, hC₂ m hskip, hC₃, hC₄, hC₅ beyond hdone, hplaced⟩

end

theorem Assembly.lexical_start : Assembly.Lexical ⟨.empty, .empty, []⟩ :=
  List.forall_mem_singleton.2 (Scope.lexical_empty 0 [])

/-- Definitions whose addresses are those of a list. -/
theorem addressed_getD (fs : List Nat) : ∀ {gs : List Nat} {k : Nat}, fs.drop k = gs →
    Addressed (fun i => fs.getD i 0) k gs
  | [], _, _ => trivial
  | g :: gs, k, h => by
    have hk : fs[k]? = some g := by
      rw [← List.head?_drop, h]
      rfl
    refine ⟨?_, addressed_getD fs ?_⟩
    · simp only [List.getD_eq_getElem?_getD, hk, Option.getD_some]
    · rw [← List.tail_drop, h]
      rfl

theorem Program.compile_parts {p : Program} {names : NameTable} {C : Chunk}
    (h : p.compile names = .ok C) : ∃ a', p.assemble ⟨.empty, .empty, []⟩ = .ok ((), a') ∧
      { a'.chunk with names := names.names.toList } = C := by
  have hcompile : p.compile names = Except.bind (p.assemble ⟨.empty, .empty, []⟩) fun r =>
      .ok { r.2.chunk with names := names.names.toList } := rfl
  rw [hcompile] at h
  cases hrun : p.assemble ⟨.empty, .empty, []⟩ with
  | error d =>
    rw [hrun] at h
    cases h
  | ok r =>
    rw [hrun] at h
    exact ⟨r.2, rfl, Except.ok.inj h⟩

/-- The compiler places the code of a program, with the addresses of its functions in the order of
their definitions; no other functions are among the constants. There are no further addresses. -/
theorem Program.placed_of_compile {p : Program} {names : NameTable} {C : Chunk}
    (h : p.compile names = .ok C) (hshort : C.code.size < 2 ^ 31) :
    ∃ address : Nat → Nat,
      (∀ i j, i < j → j < Stmt.definitionsAll p.body.stmts → address i < address j) ∧
      p.Placed C address ∧ (∀ x ∈ C.pool.constants.toList,
        x.value.KnownFunction address (Stmt.definitionsAll p.body.stmts)) ∧
      C.positions.size = C.code.size ∧
      ∀ i, Stmt.definitionsAll p.body.stmts ≤ i → address i = 0 := by
  obtain ⟨a', hrun, rfl⟩ := compile_parts h
  obtain ⟨_, a₁, hbody, hhalt⟩ := ok_of_bind hrun
  obtain ⟨fs, new, hlen, hpart⟩ := Stmt.assemblesAll p.body.stmts hbody Assembly.lexical_start
  obtain rfl : new = [] := hpart.waits
  have hchunk := hpart.chunk.trans (emits_emit rfl hhalt).chunk
  refine ⟨fun i => fs.getD i 0, fun i j hij hj => ?_, ?_, ?_, hchunk.aligned rfl, fun i hi => ?_⟩
  · rw [← hlen] at hj
    have hi : i < fs.length := by omega
    simp only [List.getD_eq_getElem?_getD, List.getElem?_eq_getElem hi, List.getElem?_eq_getElem hj,
      Option.getD_some]
    exact List.pairwise_iff_getElem.1 hpart.ordered i j hi hj hij
  · have hcompletes : Chunk.Completes { a'.chunk with names := names.names.toList } a'.chunk [] :=
      ⟨Nat.le_refl _, fun _ _ _ => rfl, fun _ _ => rfl, hchunk.aligned rfl, fun _ _ h => h⟩
    obtain ⟨-, hplaced, hhalted⟩ := hchunk.back _ [] hcompletes nofun
    exact ⟨_, hplaced Assembly.lexical_start hshort _ 0 .none (addressed_getD fs rfl) rfl,
      hhalted (hpart.lexical Assembly.lexical_start)⟩
  · refine ((emits_emit rfl hhalt).known _ _ (hpart.known _ _ (fun f hf => ?_) ?_)).constants
    · obtain ⟨j, hj, rfl⟩ := List.mem_iff_getElem.1 hf
      exact ⟨j, hlen ▸ hj, (List.getElem_eq_getD 0 : fs[j] = fs.getD j 0)⟩
    · exact ⟨nofun, .nil, nofun⟩
  · simp only [List.getD_eq_getElem?_getD, List.getElem?_eq_none (hlen ▸ hi), Option.getD_none]

end LolToolchain
