import LolToolchain.Proofs.Code.Emission

/-!
What a piece of a program makes of the state of the compiler. It may declare variables, define
functions and leave jumps open, some of which wait for the end of the innermost construct around it.
`Assembles` says all of this about the state before and after, for any numbering of the definitions
that agrees with the addresses at which the functions were placed.
-/
namespace LolToolchain

open Assemble

/-- Definitions have given addresses, from a number on. -/
def Addressed (address : Nat → Nat) : Nat → List Nat → Prop
  | _, [] => True
  | k, f :: fs => address k = f ∧ Addressed address (k + 1) fs

theorem addressed_append {address : Nat → Nat} {k : Nat} {fs gs : List Nat} :
    Addressed address k (fs ++ gs) ↔
      Addressed address k fs ∧ Addressed address (k + fs.length) gs := by
  induction fs generalizing k with
  | nil => simp [Addressed]
  | cons f fs ih =>
    rw [List.cons_append, Addressed, Addressed, ih, List.length_cons, and_assoc]
    rw [show k + 1 + fs.length = k + (fs.length + 1) by omega]

/-- The constructs around a statement with further jumps that wait for the end of the innermost. -/
def Breakable.addExits (new : List Nat) : List Breakable → List Breakable
  | [] => []
  | b :: bs => { b with exits := b.exits ++ new } :: bs

/-- Only a loop or a switch has jumps that wait for its end. -/
def Breakable.Waits (new : List Nat) : List Breakable → Prop
  | [] => new = []
  | b :: _ => b.kind = .function → new = []

/-- The exit of the innermost construct: the open jumps lead there. -/
def Exit.Leads (exit : Exit) (C : Chunk) (new : List Nat) : List Breakable → Prop
  | [] => exit = .none
  | b :: _ =>
    if b.kind = .function then exit = .function
    else ∃ target, exit = .to b.locals target ∧ ∀ j ∈ new, C.readJump j = target

/-- The names after a piece of a program. -/
abbrev NamesAfter := (Nat → Nat) → Nat → Names → Names

/-- The layout of a piece of a program. -/
abbrev PlacedAs := Chunk → (Nat → Nat) → List Names → Exit → Nat → Names → Nat → Nat → Prop

/-- What a piece of a program makes of the state of the compiler: `fs` are the addresses of its
functions, `new` are the jumps that wait for the end of the construct around it, and `js` are other
open jumps. Names and code are as stated if names are resolved lexically. -/
structure Part (a a' : Assembly) (fs new js : List Nat) (names : NamesAfter)
    (placed : PlacedAs) : Prop where
  outer : a'.outer = a.outer
  depth : a'.scope.depth = a.scope.depth
  grows : a.scope.Grows a'.scope
  lexical : a.Lexical → a'.Lexical
  breakables : a'.scope.breakables = Breakable.addExits new a.scope.breakables
  waits : Breakable.Waits new a.scope.breakables
  within : ∀ f ∈ fs, a.chunk.code.size ≤ f ∧ f < a'.chunk.code.size
  ordered : fs.Pairwise (· < ·)
  names : a.Lexical → ∀ address k, Addressed address k fs →
    a'.scope.names = names address k a.scope.names
  chunk : a.chunk.Extends a'.chunk (new ++ js) fun C => a.Lexical → C.code.size < 2 ^ 31 →
    ∀ address k exit, Addressed address k fs → exit.Leads C new a.scope.breakables →
    placed C address (a.outer.map Scope.names) exit k a.scope.names a.chunk.code.size
      a'.chunk.code.size
  known : ∀ address total, (∀ f ∈ fs, ∃ j < total, f = address j) → a.Known address total →
    a'.Known address total

/-- A piece of a program with `n` definitions, of which the jumps `js` are still open. -/
def Assembles (a a' : Assembly) (n : Nat) (js : List Nat) (names : NamesAfter)
    (placed : PlacedAs) : Prop :=
  ∃ fs new, fs.length = n ∧ Part a a' fs new js names placed

namespace Breakable

variable {new new₁ new₂ : List Nat} {bs : List Breakable}

@[simp] theorem addExits_nil (bs : List Breakable) : addExits [] bs = bs := by
  cases bs with
  | nil => rfl
  | cons b bs => simp [addExits]

private theorem addExits_addExits : addExits new₂ (addExits new₁ bs) = addExits (new₁ ++ new₂) bs := by
  cases bs with
  | nil => rfl
  | cons b bs => simp [addExits]

theorem waits_nil (bs : List Breakable) : Waits [] bs := by
  cases bs with
  | nil => rfl
  | cons b bs => exact fun _ => rfl

private theorem Waits.append (h₁ : Waits new₁ bs) (h₂ : Waits new₂ (addExits new₁ bs)) :
    Waits (new₁ ++ new₂) bs := by
  cases bs with
  | nil =>
    rw [Waits] at h₁ ⊢
    rw [addExits, Waits] at h₂
    rw [h₁, h₂]
    rfl
  | cons b bs =>
    intro hb
    rw [h₁ hb, h₂ hb]
    rfl

end Breakable

namespace Exit

variable {exit : Exit} {C : Chunk} {new new₁ : List Nat} {bs : List Breakable}

private theorem leads_addExits : exit.Leads C new (Breakable.addExits new₁ bs) ↔ exit.Leads C new bs := by
  cases bs <;> rfl

theorem Leads.mono (h : exit.Leads C new bs) (hsub : ∀ j ∈ new₁, j ∈ new) :
    exit.Leads C new₁ bs := by
  cases bs with
  | nil => exact h
  | cons b bs =>
    simp only [Leads] at h ⊢
    by_cases hb : b.kind = .function
    · rw [if_pos hb] at h ⊢
      exact h
    · rw [if_neg hb] at h ⊢
      obtain ⟨target, hexit, hj⟩ := h
      exact ⟨target, hexit, fun j hmem => hj j (hsub j hmem)⟩

end Exit

namespace Part

variable {a a₁ a' : Assembly} {fs fs₁ fs₂ new new₁ new₂ js js₁ js₂ : List Nat}
variable {names names₁ names₂ : NamesAfter} {placed placed₁ placed₂ : PlacedAs}

/-- Two pieces one after the other. -/
theorem trans (h₁ : Part a a₁ fs₁ new₁ js₁ names₁ placed₁)
    (h₂ : Part a₁ a' fs₂ new₂ js₂ names₂ placed₂) :
    Part a a' (fs₁ ++ fs₂) (new₁ ++ new₂) (js₁ ++ js₂)
      (fun address k ns => names₂ address (k + fs₁.length) (names₁ address k ns))
      fun C address outer exit k ns x z => ∃ y, placed₁ C address outer exit k ns x y ∧
        placed₂ C address outer exit (k + fs₁.length) (names₁ address k ns) y z where
  outer := h₂.outer.trans h₁.outer
  depth := h₂.depth.trans h₁.depth
  grows := h₁.grows.trans h₂.grows h₁.depth
  lexical ha := h₂.lexical (h₁.lexical ha)
  breakables := by rw [h₂.breakables, h₁.breakables, Breakable.addExits_addExits]
  waits := h₁.waits.append (h₁.breakables ▸ h₂.waits)
  within f hf := by
    have hs₁ := h₁.chunk.size
    have hs₂ := h₂.chunk.size
    rcases List.mem_append.1 hf with hf | hf
    · have := h₁.within f hf
      omega
    · have := h₂.within f hf
      omega
  ordered := by
    refine List.pairwise_append.2 ⟨h₁.ordered, h₂.ordered, fun f hf g hg => ?_⟩
    exact Nat.lt_of_lt_of_le (h₁.within f hf).2 (h₂.within g hg).1
  names ha address k hk := by
    obtain ⟨hk₁, hk₂⟩ := addressed_append.1 hk
    rw [h₂.names (h₁.lexical ha) address _ hk₂, h₁.names ha address k hk₁]
  chunk := by
    have hperm : ((new₁ ++ js₁) ++ (new₂ ++ js₂)).Perm ((new₁ ++ new₂) ++ (js₁ ++ js₂)) := by
      rw [List.perm_iff_count]
      intro j
      simp only [List.count_append]
      omega
    refine ((h₁.chunk.trans h₂.chunk).perm hperm).mono fun C hC ha hshort address k exit hk hexit => ?_
    obtain ⟨hk₁, hk₂⟩ := addressed_append.1 hk
    have hp₁ := hC.1 ha hshort address k exit hk₁ (hexit.mono fun j hj => List.mem_append_left _ hj)
    have hp₂ := hC.2 (h₁.lexical ha) hshort address _ exit hk₂ (by
      rw [h₁.breakables, Exit.leads_addExits]
      exact hexit.mono fun j hj => List.mem_append_right _ hj)
    rw [h₁.outer, h₁.names ha address k hk₁] at hp₂
    exact ⟨_, hp₁, hp₂⟩
  known address total hfs h := by
    obtain ⟨hfs₁, hfs₂⟩ := List.forall_mem_append.1 hfs
    exact h₂.known address total hfs₂ (h₁.known address total hfs₁ h)

end Part

namespace Assembles

variable {a a₁ a' : Assembly} {n n₁ n₂ : Nat} {js js₁ js₂ : List Nat}
variable {names names₁ names₂ : NamesAfter} {placed placed₁ placed₂ : PlacedAs}

theorem lexical (h : Assembles a a' n js names placed) (ha : a.Lexical) : a'.Lexical := by
  obtain ⟨_, _, _, hpart⟩ := h
  exact hpart.lexical ha

theorem outer (h : Assembles a a' n js names placed) : a'.outer = a.outer := by
  obtain ⟨_, _, _, hpart⟩ := h
  exact hpart.outer

theorem size (h : Assembles a a' n js names placed) :
    a.chunk.code.size ≤ a'.chunk.code.size := by
  obtain ⟨_, _, _, hpart⟩ := h
  exact hpart.chunk.size

/-- A piece that uses the names as they are, and may have jumps. -/
theorem of_emits_short (placed : Chunk → List Names → Names → Nat → Nat → Prop)
    (h : Emits a a' fun C => C.code.size < 2 ^ 31 → placed C (a.outer.map Scope.names) a.scope.names
      a.chunk.code.size a'.chunk.code.size) :
    Assembles a a' 0 [] (fun _ _ ns => ns) fun C _ outer _ _ ns x y => placed C outer ns x y :=
  ⟨[], [], rfl,
    { outer := h.outer
      depth := by rw [h.scope]
      grows := .of_eq (by rw [h.scope])
      lexical := h.lexical
      breakables := by rw [h.scope, Breakable.addExits_nil]
      waits := Breakable.waits_nil _
      within := nofun
      ordered := .nil
      names := fun _ _ _ _ => by rw [h.scope]
      chunk := h.chunk.mono fun _ hC ha hshort _ _ _ _ _ => hC ha hshort
      known := fun address total _ => h.known address total }⟩

theorem of_emits (placed : Chunk → List Names → Names → Nat → Nat → Prop)
    (h : Emits a a' fun C => placed C (a.outer.map Scope.names) a.scope.names a.chunk.code.size
      a'.chunk.code.size) :
    Assembles a a' 0 [] (fun _ _ ns => ns) fun C _ outer _ _ ns x y => placed C outer ns x y :=
  .of_emits_short placed (h.mono fun _ hC _ => hC)

theorem trans (h₁ : Assembles a a₁ n₁ js₁ names₁ placed₁)
    (h₂ : Assembles a₁ a' n₂ js₂ names₂ placed₂) :
    Assembles a a' (n₁ + n₂) (js₁ ++ js₂)
      (fun address k ns => names₂ address (k + n₁) (names₁ address k ns))
      fun C address outer exit k ns x z => ∃ y, placed₁ C address outer exit k ns x y ∧
        placed₂ C address outer exit (k + n₁) (names₁ address k ns) y z := by
  obtain ⟨fs₁, new₁, rfl, hp₁⟩ := h₁
  obtain ⟨fs₂, new₂, rfl, hp₂⟩ := h₂
  exact ⟨fs₁ ++ fs₂, new₁ ++ new₂, List.length_append, hp₁.trans hp₂⟩

theorem congr (h : Assembles a a' n₁ js names₁ placed₁) (hn : n₁ = n)
    (hnames : ∀ address k, names₁ address k a.scope.names = names address k a.scope.names)
    (hplaced : ∀ C address exit k,
      placed₁ C address (a.outer.map Scope.names) exit k a.scope.names a.chunk.code.size
        a'.chunk.code.size →
      placed C address (a.outer.map Scope.names) exit k a.scope.names a.chunk.code.size
        a'.chunk.code.size) :
    Assembles a a' n js names placed := by
  obtain ⟨fs, new, hfs, hp⟩ := h
  refine ⟨fs, new, hfs.trans hn, { hp with names := fun ha address k hk => ?_, chunk := ?_ }⟩
  · rw [hp.names ha address k hk, hnames]
  · exact hp.chunk.mono fun C hC ha hshort address k exit hk hexit =>
      hplaced C address exit k (hC ha hshort address k exit hk hexit)

theorem perm (h : Assembles a a' n js names placed) (hperm : js.Perm js₁) :
    Assembles a a' n js₁ names placed := by
  obtain ⟨fs, new, hfs, hp⟩ := h
  exact ⟨fs, new, hfs, { hp with chunk := hp.chunk.perm (hperm.append_left new) }⟩

end Assembles

variable {a a' : Assembly} {span : Span}

/-- A jump whose target is still open. -/
theorem assembles_emitJump {op : Opcode} {j : Nat} (hop : op.isJump = true)
    (h : emitJump op span a = .ok (j, a')) :
    Assembles a a' 0 [j] (fun _ _ ns => ns)
      fun C _ _ _ _ _ x y => ∀ target : Nat, C.readJump j = target →
        C.HasJump op target span x y := by
  cases h
  refine ⟨[], [], rfl, ?_⟩
  exact
    { outer := rfl
      depth := rfl
      grows := .of_eq rfl
      lexical := fun ha => ha.congr rfl rfl
      breakables := (Breakable.addExits_nil _).symm
      waits := Breakable.waits_nil _
      within := nofun
      ordered := .nil
      names := fun _ _ _ _ => rfl
      chunk := (Chunk.extends_emitJump hop).mono fun _ hC _ _ _ _ _ _ _ _ htarget => ⟨hC, htarget⟩
      known := fun _ _ _ h => h.chunk rfl }

theorem assembles_emitLoop {start : Nat} (hs : start ≤ a.chunk.code.size)
    (h : emitLoop start span a = .ok ((), a')) :
    Assembles a a' 0 [] (fun _ _ ns => ns)
      fun C _ _ _ _ _ x y => C.HasJump .jump start span x y := by
  have heq : { a with chunk := a.chunk.emitLoop start span } = a' :=
    (Prod.mk.inj (Except.ok.inj h)).2
  subst heq
  exact .of_emits_short (fun C _ _ x y => C.HasJump .jump start span x y)
    (.of_extends rfl rfl (Chunk.extends_emitLoop hs) fun _ _ h =>
      h.chunk (Chunk.pool_emitLoop start span))

/-- Jumps are given the end of the code as their target. -/
theorem extends_patchAll {c : Chunk} {js opened : List Nat} {P : Chunk → Prop}
    (h : c.Extends a.chunk (js ++ opened) P) (hpatch : patchAll js a = .ok ((), a')) :
    a'.scope = a.scope ∧ a'.outer = a.outer ∧ a'.chunk.code.size = a.chunk.code.size ∧
    (∀ address total, a.Known address total → a'.Known address total) ∧
    c.Extends a'.chunk opened fun C =>
      P C ∧ (C.code.size < 2 ^ 31 → ∀ j ∈ js, C.readJump j = a.chunk.code.size) := by
  induction js generalizing a P with
  | nil =>
    cases hpatch
    exact ⟨rfl, rfl, rfl, fun _ _ h => h, h.mono fun C hC => ⟨hC, fun _ => nofun⟩⟩
  | cons j js ih =>
    obtain ⟨_, a₁, hj, hjs⟩ := ok_of_bind hpatch
    have heq : { a with chunk := a.chunk.patch j } = a₁ := (Prod.mk.inj (Except.ok.inj hj)).2
    have hsize : a₁.chunk.code.size = a.chunk.code.size := by
      rw [← heq]
      exact Chunk.size_patchTo _ _
    have hchunk : c.Extends a₁.chunk (js ++ opened) fun C =>
        P C ∧ (C.code.size < 2 ^ 31 → C.readJump j = a.chunk.code.size) := by
      rw [← heq]
      exact h.patchTo (Nat.le_refl _)
    obtain ⟨hscope, houter, hsize', hknown, hrest⟩ := ih hchunk hjs
    rw [hsize] at hsize' hrest
    refine ⟨hscope.trans (by rw [← heq]), houter.trans (by rw [← heq]), hsize',
      fun address total h => hknown address total (heq ▸ h.chunk (Chunk.pool_patchTo _ _)), ?_⟩
    exact hrest.mono fun C hC =>
      ⟨hC.1.1, fun hshort => List.forall_mem_cons.2 ⟨hC.1.2 hshort, hC.2 hshort⟩⟩

namespace Assembles

variable {a₁ : Assembly} {n j : Nat} {js : List Nat} {names : NamesAfter} {placed : PlacedAs}

/-- Jumps of a piece lead to its end. -/
theorem patchAll {ends : List Nat} (h : Assembles a a₁ n (ends ++ js) names placed)
    (hpatch : Assemble.patchAll ends a₁ = .ok ((), a')) :
    Assembles a a' n js names fun C address outer exit k ns x y =>
      placed C address outer exit k ns x y ∧ ∀ j ∈ ends, C.readJump j = y := by
  obtain ⟨fs, new, hfs, hp⟩ := h
  have hperm : (new ++ (ends ++ js)).Perm (ends ++ (new ++ js)) := by
    rw [List.perm_iff_count]
    intro j
    simp only [List.count_append]
    omega
  obtain ⟨hscope, houter, hsize, hknown, hchunk⟩ := extends_patchAll (hp.chunk.perm hperm) hpatch
  refine ⟨fs, new, hfs, ?_⟩
  exact
    { outer := houter.trans hp.outer
      depth := by rw [hscope, hp.depth]
      grows := by rw [hscope]; exact hp.grows
      lexical := fun ha => (hp.lexical ha).congr hscope houter
      breakables := by rw [hscope, hp.breakables]
      waits := hp.waits
      within := by rw [hsize]; exact hp.within
      ordered := hp.ordered
      names := by rw [hscope]; exact hp.names
      chunk := hchunk.mono fun C hC ha hshort address k exit hk hexit => by
        rw [hsize]
        exact ⟨hC.1 ha hshort address k exit hk hexit, hC.2 hshort⟩
      known := fun address total hfs h => hknown address total (hp.known address total hfs h) }

theorem patch (h : Assembles a a₁ n (j :: js) names placed)
    (hpatch : Assemble.patch j a₁ = .ok ((), a')) :
    Assembles a a' n js names fun C address outer exit k ns x y =>
      placed C address outer exit k ns x y ∧ C.readJump j = y := by
  have hopened : Assembles a a₁ n ([j] ++ js) names placed := h
  have hall : Assemble.patchAll [j] a₁ = .ok ((), a') := hpatch
  exact (hopened.patchAll hall).congr rfl (fun _ _ => rfl) fun _ _ _ _ hC =>
    ⟨hC.1, hC.2 j List.mem_cons_self⟩

theorem patchOption {o : Option Nat} (h : Assembles a a₁ n (o.toList ++ js) names placed)
    (hpatch : Assemble.patchOption o a₁ = .ok ((), a')) :
    Assembles a a' n js names fun C address outer exit k ns x y =>
      placed C address outer exit k ns x y ∧ ∀ j ∈ o, C.readJump j = y := by
  cases o with
  | none =>
    cases hpatch
    exact h.congr rfl (fun _ _ => rfl) fun _ _ _ _ hC => ⟨hC, nofun⟩
  | some j =>
    refine (h.patch hpatch).congr rfl (fun _ _ => rfl) fun _ _ _ _ hC => ⟨hC.1, ?_⟩
    rintro _ ⟨⟩
    exact hC.2

end Assembles

theorem assembles_writeName {id : Ident} (h : writeName id a = .ok ((), a')) :
    Assembles a a' 0 [] (fun _ _ ns => ns.written id.name)
      fun C _ _ _ _ ns x y => id.WrittenAt C ns x y := by
  obtain ⟨houter, hscope, hnames, hknown, hchunk⟩ := extends_writeName h
  have hdepth : a'.scope.depth = a.scope.depth := by
    rcases hscope with hs | ⟨n, hs⟩ <;> rw [hs]
    rfl
  have hgrows : a.scope.Grows a'.scope := by
    rcases hscope with hs | ⟨n, hs⟩ <;> rw [hs]
    · exact .of_eq rfl
    · exact .forget a.scope n
  have hbreakables : a'.scope.breakables = a.scope.breakables := by
    rcases hscope with hs | ⟨n, hs⟩ <;> rw [hs]
    rfl
  refine ⟨[], [], rfl, ?_⟩
  exact
    { outer := houter
      depth := hdepth
      grows := hgrows
      lexical := fun ha => by
        rw [Assembly.Lexical, houter, List.forall_mem_cons]
        refine ⟨?_, (List.forall_mem_cons.1 ha).2⟩
        rcases hscope with hs | ⟨n, hs⟩ <;> rw [hs]
        · exact ha.scope
        · exact ha.scope.forget n
      breakables := by rw [hbreakables, Breakable.addExits_nil]
      waits := Breakable.waits_nil _
      within := nofun
      ordered := .nil
      names := fun ha _ _ _ => hnames ha
      chunk := hchunk.mono fun C hC ha _ _ _ _ _ _ => hC ha
      known := fun address total _ => hknown address total }

theorem assembles_declare {name : Text} (h : declare name none a = .ok ((), a')) :
    Assembles a a' 0 [] (fun _ _ ns => (name, none) :: ns) fun _ _ _ _ _ _ x y => x = y := by
  cases h
  refine ⟨[], [], rfl, ?_⟩
  exact
    { outer := rfl
      depth := rfl
      grows := .declare a.scope name none
      lexical := fun ha => ha.update (ha.scope.declare name none)
      breakables := (Breakable.addExits_nil _).symm
      waits := Breakable.waits_nil _
      within := nofun
      ordered := .nil
      names := fun _ _ _ _ => rfl
      chunk := .refl fun _ _ _ _ _ _ _ _ => rfl
      known := fun _ _ _ h => { h with scope := h.scope.cons_none name } }

/-- A block: its variables go out of use at its end. -/
theorem assembles_block {a a₀ a₁ a₂ : Assembly} {m : Nat} {js : List Nat} {names : NamesAfter}
    {placed : PlacedAs} (hopen : openScope a = .ok ((), a₀))
    (hblock : Assembles a₀ a₁ m js names placed) (hl : a.Lexical)
    (hclose : closeScope span a₁ = .ok ((), a₂)) :
    Assembles a a₂ m js (fun address k ns => (names address k ns).keep ns.length)
      fun C address outer exit k ns x z => ∃ y, placed C address outer exit k ns x y ∧
        C.HasPops ((names address k ns).length - ns.length) span y z := by
  cases hopen
  obtain ⟨fs, new, hfs, hbody⟩ := hblock
  obtain ⟨hkeeps, hdrop, hcount⟩ := hbody.grows.close hl.scope.level hbody.depth
  obtain ⟨s, a₃, hs, hrest⟩ := ok_of_bind hclose
  cases hs
  obtain ⟨_, a₄, hupdate, hpops⟩ := ok_of_bind hrest
  cases hupdate
  have hemit := emits_emitPops hpops
  have hopened : Assembly.Lexical { a with scope := { a.scope with depth := a.scope.depth + 1 } } :=
    hl.update hl.scope.deeper
  have hnames : ∀ address k, Addressed address k fs →
      (names address k a.scope.names).length - a.scope.names.length = a₁.scope.close.1 := by
    intro address k hk
    have heq : a₁.scope.names = names address k a.scope.names := hbody.names hopened address k hk
    rw [hcount, ← heq, Scope.length_names, Scope.length_names]
  refine ⟨fs, new, hfs, ?_⟩
  exact
    { outer := hemit.outer.trans hbody.outer
      depth := by
        rw [hemit.scope]
        change a₁.scope.depth - 1 = a.scope.depth
        rw [hbody.depth, Nat.add_sub_cancel]
      grows := by
        rw [hemit.scope]
        exact .of_keeps hkeeps
      lexical := fun _ => by
        refine hemit.lexical ?_
        have hend := hbody.lexical hopened
        exact hend.update hend.scope.close
      breakables := by
        rw [hemit.scope]
        exact hbody.breakables
      waits := hbody.waits
      within := fun f hf => by
        have hw := hbody.within f hf
        exact ⟨hw.1, Nat.lt_of_lt_of_le hw.2 hemit.chunk.size⟩
      ordered := hbody.ordered
      names := fun _ address k hk => by
        have heq : a₁.scope.names = names address k a.scope.names :=
          hbody.names hopened address k hk
        rw [Names.keep, hnames address k hk, hemit.scope, ← heq]
        change a₁.scope.close.2.locals.map _ = _
        rw [hdrop]
        exact List.map_drop
      chunk := by
        have htrans := hbody.chunk.trans hemit.chunk
        rw [List.append_nil] at htrans
        refine htrans.mono fun C hC _ hshort address k exit hk hexit => ?_
        have hend := hbody.lexical hopened
        refine ⟨_, hC.1 hopened hshort address k exit hk hexit, ?_⟩
        rw [hnames address k hk]
        exact hC.2 (hend.update hend.scope.close)
      known := fun address total hfs h => by
        have hbody := hbody.known address total hfs ⟨h.constants, h.scope, h.outer⟩
        refine hemit.known address total { hbody with scope := ?_ }
        change Names.Known address total (a₁.scope.close.2.locals.map _)
        rw [hdrop, List.map_drop]
        exact fun name f hf => hbody.scope name f (List.mem_of_mem_drop hf) }

/-- A loop or a switch: what leaves it leads to its end. -/
theorem assembles_breakable {a a₀ a₁ a₂ : Assembly} {kind : BreakableKind} {n : Nat}
    {names : NamesAfter} {placed : PlacedAs} (hkind : kind ≠ .function)
    (hopen : openBreakable kind a = .ok ((), a₀)) (hbody : Assembles a₀ a₁ n [] names placed)
    (hclose : closeBreakable a₁ = .ok ((), a₂)) :
    Assembles a a₂ n [] names fun C address outer _ k ns x y =>
      placed C address outer (.to ns.length y) k ns x y := by
  cases hopen
  obtain ⟨fs, new, hfs, hp⟩ := hbody
  have hbs : a₁.scope.breakables =
      ⟨kind, a.scope.locals.length, new⟩ :: a.scope.breakables := hp.breakables
  obtain ⟨s, a₃, hs, hrest⟩ := ok_of_bind hclose
  cases hs
  rw [hbs] at hrest
  obtain ⟨_, a₄, hpatch, hupdate⟩ := ok_of_bind hrest
  cases hupdate
  obtain ⟨hscope, houter, hsize, hknown, hchunk⟩ := extends_patchAll hp.chunk hpatch
  have hopened : a.Lexical → Assembly.Lexical { a with scope := { a.scope with
      breakables := ⟨kind, a.scope.locals.length, []⟩ :: a.scope.breakables } } := fun ha =>
    ha.update (ha.scope.breakables _)
  refine ⟨fs, [], hfs, ?_⟩
  exact
    { outer := houter.trans hp.outer
      depth := (congrArg Scope.depth hscope).trans hp.depth
      grows := by
        have hgrows := hp.grows
        rw [← hscope] at hgrows
        exact hgrows
      lexical := fun ha => by
        have hend := (hp.lexical (hopened ha)).congr hscope houter
        exact hend.update (hend.scope.breakables _)
      breakables := (Breakable.addExits_nil _).symm
      waits := Breakable.waits_nil _
      within := fun f hf => by
        have hw := hp.within f hf
        rw [← hsize] at hw
        exact hw
      ordered := hp.ordered
      names := fun ha address k hk => by
        have hnames := hp.names (hopened ha) address k hk
        rw [← hscope] at hnames
        exact hnames
      chunk := hchunk.mono fun C hC ha hshort address k _ hk _ => by
        have hexit : (Exit.to a.scope.locals.length a₁.chunk.code.size).Leads C new
            (⟨kind, a.scope.locals.length, []⟩ :: a.scope.breakables) := by
          rw [Exit.Leads, if_neg hkind]
          exact ⟨_, rfl, hC.2 hshort⟩
        have hplaced := hC.1 (hopened ha) hshort address k _ hk hexit
        rw [← hsize, ← Scope.length_names] at hplaced
        exact hplaced
      known := fun address total hfs h => by
        have hknown := hknown address total (hp.known address total hfs ⟨h.constants, h.scope, h.outer⟩)
        exact ⟨hknown.constants, hknown.scope, hknown.outer⟩ }

/-- `GTFO` in a function returns nothing. -/
private theorem assembles_leaveFunction {b : Breakable} {rest : List Breakable}
    (hbs : a.scope.breakables = b :: rest) (hb : b.kind = .function)
    (h : (do
      emitConstant .noob span
      emit .ret span) a = .ok ((), a')) :
    Assembles a a' 0 [] (fun _ _ ns => ns) fun C _ _ exit _ ns x y =>
      exit.Placed C ns span x y := by
  obtain ⟨_, a₁, hnoob, hret⟩ := ok_of_bind h
  have hemit := (emits_emitConstant rfl hnoob (by rintro _ _ - _ ⟨⟩)).trans (emits_emit rfl hret)
  refine ⟨[], [], rfl, ?_⟩
  exact
    { outer := hemit.outer
      depth := by rw [hemit.scope]
      grows := .of_eq (by rw [hemit.scope])
      lexical := hemit.lexical
      breakables := by rw [hemit.scope, Breakable.addExits_nil]
      waits := Breakable.waits_nil _
      within := nofun
      ordered := .nil
      names := fun _ _ _ _ => by rw [hemit.scope]
      chunk := hemit.chunk.mono fun C hC ha _ address k exit _ hexit => by
        rw [hbs, Exit.Leads, if_pos hb] at hexit
        rw [hexit]
        exact ⟨_, (hC ha).1, (hC ha).2⟩
      known := fun address total _ => hemit.known address total }

/-- `GTFO` in a loop or a switch drops what was declared in it, and its jump waits for the end. -/
private theorem assembles_leaveBlock {b : Breakable} {rest : List Breakable}
    (hbs : a.scope.breakables = b :: rest) (hb : b.kind ≠ .function)
    (h : (do
      emitPops (a.scope.locals.length - b.locals) span
      let exit ← emitJump .jump span
      updateScope fun s =>
        { s with breakables := { b with exits := b.exits ++ [exit] } :: rest }) a = .ok ((), a')) :
    Assembles a a' 0 [] (fun _ _ ns => ns) fun C _ _ exit _ ns x y =>
      exit.Placed C ns span x y := by
  obtain ⟨_, a₁, hpops, hrest⟩ := ok_of_bind h
  obtain ⟨j, a₂, hjump, hupdate⟩ := ok_of_bind hrest
  cases hjump
  cases hupdate
  have hemit := emits_emitPops hpops
  have hjump : a₁.chunk.Extends (a₁.chunk.emitJump .jump span).2 [a₁.chunk.code.size + 1] _ :=
    Chunk.extends_emitJump rfl
  have hchunk := hemit.chunk.trans hjump
  refine ⟨[], [a₁.chunk.code.size + 1], rfl, ?_⟩
  exact
    { outer := hemit.outer
      depth := by rw [hemit.scope]
      grows := .of_eq (by rw [hemit.scope])
      lexical := fun ha => by
        have hend := hemit.lexical ha
        exact hend.update (hend.scope.breakables _)
      breakables := by
        rw [hbs]
        rfl
      waits := by
        rw [hbs]
        exact fun hfunction => absurd hfunction hb
      within := nofun
      ordered := .nil
      names := fun _ _ _ _ => by
        rw [← hemit.scope]
        rfl
      chunk := hchunk.mono fun C hC ha _ address k exit _ hexit => by
        rw [hbs, Exit.Leads, if_neg hb] at hexit
        obtain ⟨target, rfl, htarget⟩ := hexit
        refine ⟨_, ?_, hC.2, htarget _ List.mem_cons_self⟩
        rw [Scope.length_names]
        exact hC.1 ha
      known := fun address total _ h => by
        have hknown := hemit.known address total h
        exact ⟨hknown.constants, hknown.scope, hknown.outer⟩ }

theorem assembles_leave (h : leave span a = .ok ((), a')) :
    Assembles a a' 0 [] (fun _ _ ns => ns) fun C _ _ exit _ ns x y =>
      exit.Placed C ns span x y := by
  obtain ⟨s, a₁, hs, hrest⟩ := ok_of_bind h
  cases hs
  cases hbs : a.scope.breakables with
  | nil =>
    rw [hbs] at hrest
    cases hrest
  | cons b rest =>
    obtain ⟨kind, locals, exits⟩ := b
    rw [hbs] at hrest
    cases kind with
    | function => exact assembles_leaveFunction hbs rfl hrest
    | loop | switch => exact assembles_leaveBlock hbs (by rintro ⟨⟩) hrest

end LolToolchain
