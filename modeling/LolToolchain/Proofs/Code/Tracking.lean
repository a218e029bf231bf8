import LolToolchain.Proofs.Code.Levels

/-!
The heights of statements and of programs. The theorems follow the recursion of the compiler, as
those on where the code of statements is placed; in the end the whole program has a table that its
code agrees with.
-/
namespace LolToolchain

open Assemble

variable {a a₁ a' : Assembly} {span : Span} {n m d : Nat} {js : List (Nat × Nat)}
variable {names : NamesAfter} {Q : (Nat → Nat) → Prop}

private theorem Expr.raisesJoined : ∀ (xs : List Expr) {a a' : Assembly} {n : Nat},
    assembleJoined xs a = .ok ((), a') → a.live ≤ n →
    Raises a a' (n + 1) (n + 1) fun h => LeveledJoined h xs a
  | [], _, _, _, h, _ => by
    cases h
    exact .refl fun _ => trivial
  | x :: xs, a, a', n, h, hn => by
    obtain ⟨_, a₁, hx, hrest⟩ := ok_of_bind h
    obtain ⟨_, a₂, hi, hxs⟩ := ok_of_bind hrest
    have h₁ := x.raises hx (Nat.le_succ_of_le hn)
    have h₂ : Raises a₁ a₂ (n + 1 + 1) (n + 1) _ := raises_emit (k := n) rfl rfl hi rfl rfl
    have hn₂ : a₂.live ≤ n := by
      rw [Assembly.live, h₂.scope, h₁.scope]
      exact hn
    exact (h₁.trans (h₂.trans (raisesJoined xs hxs hn₂))).mono fun _ _ _ hq =>
      ⟨hq.1, .of_eq hx (.of_eq hi hq.2.2)⟩

theorem raises_printed {args : List Expr} (hn : a.live ≤ n)
    (h : assemblePrinted span args a = .ok ((), a')) :
    Raises a a' n (n + 1) fun h => Expr.LeveledPrinted h args a := by
  cases args with
  | nil =>
    exact (raises_emitConstant h rfl (fun _ _ => trivial) (by rintro _ _ - _ ⟨⟩)).mono
      fun _ _ _ _ => trivial
  | cons x xs =>
    obtain ⟨_, a₁, hx, hxs⟩ := ok_of_bind h
    have h₁ := x.raises hx hn
    have h₂ := Expr.raisesJoined xs hxs (Expr.live_le_of_raises h₁ hn 0)
    exact (h₁.trans h₂).mono fun _ _ _ hq => ⟨hq.1, .of_eq hx hq.2⟩

theorem Initial.raises {i : Initial} (hn : a.live ≤ n) (h : i.assemble span a = .ok ((), a')) :
    Raises a a' n (n + 1) fun h => i.Leveled h a := by
  cases i with
  | absent =>
    exact (raises_emitConstant h rfl (fun _ _ => trivial) (by rintro _ _ - _ ⟨⟩)).mono
      fun _ _ _ _ => trivial
  | value x => exact x.raises h hn
  | typed t =>
    cases t with
    | bukkit =>
      have h₁ : Raises a a' n (n + 1) _ := raises_emit_byte (k := n) rfl rfl h
        (fun _ => (Nat.sub_self n).symm) (Nat.le_refl n) (fun _ _ => trivial) rfl
      exact h₁.mono fun _ _ _ _ => trivial
    | _ =>
      exact (raises_emitConstant h rfl (fun _ _ => trivial) (by rintro _ _ - _ ⟨⟩)).mono
        fun _ _ _ _ => trivial

/-- The test of a loop takes the value that it is made from; the jump out of the loop has the same
height. -/
private theorem LoopTest.tracks {t : LoopTest} {exit : Option Nat} (hn : a.live ≤ n)
    (h : t.assemble a = .ok (exit, a')) :
    Tracks a a' 0 (exit.toList.map (·, n)) (fun _ _ ns => ns) n n fun h => t.Leveled h a := by
  cases t with
  | forever =>
    cases h
    exact .of_raises (.refl fun _ => trivial)
  | untilTrue e =>
    obtain ⟨_, a₁, he, hrest⟩ := ok_of_bind h
    obtain ⟨_, a₂, hnot, hrest⟩ := ok_of_bind hrest
    obtain ⟨j, a₃, hjump, hpure⟩ := ok_of_bind hrest
    cases hpure
    have h₁ : Raises a₁ a₂ (n + 1) (n + 1) _ := raises_emit (k := n) rfl rfl hnot rfl rfl
    exact ((Tracks.of_raises ((e.raises he hn).trans h₁)).trans (tracks_emitTest hjump)).mono
      fun _ _ _ hq => hq.1.1
  | whileTrue e =>
    obtain ⟨_, a₁, he, hrest⟩ := ok_of_bind h
    obtain ⟨j, a₃, hjump, hpure⟩ := ok_of_bind hrest
    cases hpure
    exact ((Tracks.of_raises (e.raises he hn)).trans (tracks_emitTest hjump)).mono
      fun _ _ _ hq => hq.1

theorem LoopUpdate.tracks_test {update : Option LoopUpdate} {exit : Option Nat} (hn : a.live ≤ n)
    (h : LoopUpdate.assembleTest update a = .ok (exit, a')) :
    Tracks a a' 0 (exit.toList.map (·, n)) (fun _ _ ns => ns) n n
      fun h => ∀ u ∈ update, u.test.Leveled h a := by
  cases update with
  | none =>
    cases h
    exact .of_raises (.refl fun _ => nofun)
  | some u =>
    refine (LoopTest.tracks hn h).mono fun _ _ _ hq => ?_
    rintro _ ⟨⟩
    exact hq

private theorem LoopUpdate.raises {u : LoopUpdate} {slot : Nat} (hn : a.live ≤ n) (hslot : slot < n)
    (h : u.assembleChange slot a = .ok ((), a')) : Raises a a' n n fun _ => True := by
  unfold assembleChange at h
  dsimp only at h
  cases hu : u.change with
  | up | down =>
    rw [hu] at h
    obtain ⟨_, a₁, hread, hrest⟩ := ok_of_bind h
    obtain ⟨_, a₂, hone, hrest⟩ := ok_of_bind hrest
    obtain ⟨_, a₃, hop, hwrite⟩ := ok_of_bind hrest
    have h₁ := raises_readSlot hslot hread
    have h₂ : Raises a₁ a₂ (n + 1) (n + 1 + 1) _ :=
      raises_emitConstant hone rfl (fun _ _ => trivial) (by rintro _ _ - _ ⟨⟩)
    have h₃ : Raises a₂ a₃ (n + 1 + 1) (n + 1) _ := raises_emit (k := n) rfl rfl hop rfl rfl
    exact (h₁.trans (h₂.trans (h₃.trans (raises_writeSlot hslot hwrite)))).mono fun _ _ _ _ => trivial
  | apply f =>
    rw [hu] at h
    obtain ⟨_, a₁, hf, hrest⟩ := ok_of_bind h
    obtain ⟨_, a₂, hread, hrest⟩ := ok_of_bind hrest
    obtain ⟨_, a₃, hcall, hwrite⟩ := ok_of_bind hrest
    have h₁ := raises_readCallee hn hf
    have h₂ := raises_readSlot (Nat.lt_succ_of_lt hslot) hread
    have h₃ : Raises a₂ a₃ (n + 1 + 1) (n + 1) _ := raises_emit_byte (k := n) rfl rfl hcall
      (fun _ => (Nat.add_sub_cancel_left n 2).symm) (Nat.le_add_right n 2) (fun _ _ => trivial) rfl
    exact (h₁.trans (h₂.trans (h₃.trans (raises_writeSlot hslot hwrite)))).mono fun _ _ _ _ => trivial

theorem LoopUpdate.tracks_change {update : Option LoopUpdate} {slot : Nat} (hn : a.live ≤ n)
    (hslot : ∀ u ∈ update, slot < n)
    (h : LoopUpdate.assembleChangeIn slot update a = .ok ((), a')) :
    a'.scope = a.scope ∧ Tracks a a' 0 [] (fun _ _ ns => ns) n n fun _ => True := by
  cases update with
  | none =>
    cases h
    exact ⟨rfl, .of_raises (.refl fun _ => trivial)⟩
  | some u =>
    have h₁ := LoopUpdate.raises hn (hslot u rfl) h
    exact ⟨h₁.scope, .of_raises h₁⟩

/-- The start of a loop. -/
theorem tracks_openLoop {update : Option LoopUpdate} {slot : Nat}
    (h : openLoop update a = .ok (slot, a')) :
    slot = a.live ∧ ∃ a₀ a₁, openScope a = .ok ((), a₀) ∧
      Tracks a₀ a₁ 0 [] (fun _ _ ns => LoopUpdate.names update ns) a.live a₁.live (fun _ => True) ∧
      (∀ u ∈ update, slot < a₁.live) ∧ openBreakable .loop a₁ = .ok ((), a') := by
  obtain ⟨_, a₀, hopen, hrest⟩ := ok_of_bind h
  obtain ⟨s, a₁, hs, hrest⟩ := ok_of_bind hrest
  cases hs
  have hslot : a₀.live = a.live := by
    cases hopen
    rfl
  cases update with
  | none =>
    obtain ⟨_, a₂, hbreak, hpure⟩ := ok_of_bind hrest
    cases hpure
    refine ⟨hslot, a₀, a₀, hopen, ?_, nofun, hbreak⟩
    rw [← hslot]
    exact .of_raises (.refl fun _ => trivial)
  | some u =>
    obtain ⟨_, a₂, hzero, hrest⟩ := ok_of_bind hrest
    obtain ⟨_, a₃, hdeclare, hrest⟩ := ok_of_bind hrest
    obtain ⟨_, a₄, hbreak, hpure⟩ := ok_of_bind hrest
    cases hpure
    have h₁ : Raises a₀ a₂ a.live (a.live + 1) _ :=
      raises_emitConstant hzero rfl (fun _ _ => trivial) (by rintro _ _ - _ ⟨⟩)
    have hlive : a₃.live = a.live + 1 := by
      cases hdeclare
      change a₂.scope.locals.length + 1 = a.live + 1
      rw [h₁.scope, ← hslot]
    refine ⟨hslot, a₀, a₃, hopen, ?_, fun _ _ => ?_, hbreak⟩
    · rw [hlive]
      exact ((Tracks.of_raises h₁).trans (tracks_declare rfl hdeclare)).mono fun _ _ _ _ => trivial
    · change a₀.live < a₃.live
      rw [hlive, hslot]
      exact Nat.lt_succ_self _

theorem Tracks.sound (h : Tracks a a' d js names n m Q) : names.Sound d := by
  obtain ⟨T, hT⟩ := h
  exact hT.sound

theorem live_openScope (h : openScope a = .ok ((), a')) : a'.live = a.live := by
  cases h
  rfl

theorem scope_emitJump {op : Opcode} {j : Nat} (h : emitJump op span a = .ok (j, a')) :
    a'.scope = a.scope := by
  cases h
  rfl

theorem scope_patchOption {o : Option Nat} (h : patchOption o a = .ok ((), a')) :
    a'.scope = a.scope := by
  cases o with
  | none =>
    cases h
    rfl
  | some j => exact (patchAll_eq [j] h).2

theorem endsInReturn_cons {s : Stmt} {ss : List Stmt} (h : endsInReturn (s :: ss) = true) :
    (ss = [] ∧ ∃ span value, s = .ret span value) ∨ endsInReturn ss = true := by
  cases ss with
  | nil => cases s <;> first | exact .inl ⟨rfl, _, _, rfl⟩ | cases h
  | cons t ts => exact .inr (by rwa [endsInReturn, List.getLast?_cons_cons] at h)

/-- A return: what stands behind it is not met from here, so its height is free. -/
theorem tracks_ret {s : Span} {value : Expr} (m : Nat)
    (h : (Stmt.ret s value).assemble a = .ok ((), a')) :
    a'.live = a.live ∧ Tracks a a' 0 [] (fun _ _ ns => ns) a.live m
      fun h => (Stmt.ret s value).Leveled h a := by
  obtain ⟨_, a₁, hvalue, hret⟩ := ok_of_bind h
  have h₁ := value.raises hvalue (Nat.le_refl _)
  have h₂ := raises_end (n := a.live + 1) m (.inl rfl) hret (Nat.le_add_left 1 _)
  have hraises := h₁.trans h₂
  refine ⟨by rw [Assembly.live, hraises.scope], (Tracks.of_raises hraises).mono ?_⟩
  exact fun _ hstart _ hq => ⟨hstart, hq.1⟩

theorem Tracks.live_eq (h : Tracks a a' d js names n m Q) (ha : a.Lexical)
    (hnames : ∀ address k ns, (names address k ns).texts = ns.texts) : a'.live = a.live := by
  obtain ⟨T, hT⟩ := h
  obtain ⟨address, k, heq⟩ := hT.assembles.exists_names ha
  rw [Assembly.live, ← Scope.length_names, heq, ← Names.length_texts, hnames, Names.length_texts,
    Scope.length_names]

/-- The height at the end of a piece that leaves the variables as they are. -/
theorem Tracks.at_live (h : Tracks a a' d js names n a.live Q) (ha : a.Lexical)
    (hnames : ∀ address k ns, (names address k ns).texts = ns.texts) :
    Tracks a a' d js names n a'.live Q := by
  rw [h.live_eq ha hnames]
  exact h

/-- A statement that leaves the variables as they are. -/
theorem tracks_same (h : Raises a a' a.live a.live Q) :
    Tracks a a' 0 [] (fun _ _ ns => ns) a.live a'.live Q := by
  have hlive : a'.live = a.live := by rw [Assembly.live, h.scope]
  rw [hlive]
  exact .of_raises h

/-- A statement that writes a value to a name. -/
theorem tracks_written {id : Ident} (h : Raises a a₁ a.live (a.live + 1) Q)
    (hwrite : writeName id a₁ = .ok ((), a')) :
    Tracks a a' 0 [] (fun _ _ ns => ns.written id.name) a.live a'.live Q := by
  have hn : a₁.live ≤ a.live := Expr.live_le_of_raises h (Nat.le_refl _) 0
  have hlive : a'.live = a.live := by rw [live_writeName hwrite, Assembly.live, h.scope]
  rw [hlive]
  exact ((Tracks.of_raises h).trans (tracks_writeName hn hwrite)).mono fun _ _ _ hq => hq.1

/-- The heights of a body, wherever its code begins. Behind statements that end with a return the
height is free. -/
abbrev Stmt.TracksBody (body : List Stmt) : Prop :=
  ∀ {a a' : Assembly} {m : Nat}, Stmt.assembleAll body a = .ok ((), a') → a.Ready →
    (m = a'.live ∨ endsInReturn body = true) →
    Tracks a a' (Stmt.definitionsAll body) [] (fun address k ns => Stmt.namesAll address k body ns)
      a.live m fun h => Stmt.LeveledAll h body a

abbrev Block.TracksOption (span : Span) (block : Option Block) : Prop :=
  ∀ {a a' : Assembly}, Block.assembleOption span block a = .ok ((), a') → a.Ready →
    Tracks a a' (Block.definitionsOption block) []
      (fun address k ns => Block.namesOption address k block ns) a.live a.live
      fun h => Block.LeveledOption h block a

/-- The heights of the arms of a switch, behind code whose open jumps are those that fall into them
and others. -/
abbrev Arm.TracksSwitch (span : Span) (arms : List Arm) : Prop :=
  ∀ {a₀ a a' : Assembly} {d n N : Nat} {fall fall' : Option Nat} {js : List (Nat × Nat)}
    {names : NamesAfter} {P : (Nat → Nat) → Prop},
    Arm.assembleSwitch span fall arms a = .ok (fall', a') →
    Tracks a₀ a d (fall.toList.map (·, N) ++ js) names n N P → a₀.Ready → a.live = N →
    Tracks a₀ a' (d + Arm.definitionsAll arms) (fall'.toList.map (·, N) ++ js)
      (fun address k ns => Arm.namesAll address (k + d) arms (names address k ns)) n N
      fun h => P h ∧ Arm.LeveledSwitch h span fall arms a

/-- The heights of the arms of a branch, behind code with an open jump to the first of them. -/
abbrev Arm.TracksBranch (span : Span) (arms : List Arm) : Prop :=
  ∀ {a₀ a a' : Assembly} {d n N : Nat} {next last : Nat} {ends : List Nat} {js : List (Nat × Nat)}
    {names : NamesAfter} {P : (Nat → Nat) → Prop},
    Arm.assembleBranch span next arms a = .ok ((last, ends), a') →
    Tracks a₀ a d ((next, N) :: js) names n N P → a₀.Ready → a.live = N →
    Tracks a₀ a' (d + Arm.definitionsAll arms) ((last, N) :: (ends.map (·, N) ++ js))
      (fun address k ns => Arm.namesAll address (k + d) arms (names address k ns)) n N
      fun h => P h ∧ Arm.LeveledBranch h span next arms a

abbrev Stmt.TracksFrom (s : Stmt) (a a' : Assembly) : Prop :=
  Tracks a a' s.definitions [] (fun address k ns => s.names address k ns) a.live a'.live
    fun h => s.Leveled h a

private theorem tracks_definition {s sp : Span} {name : Ident} {params : List Ident}
    {body : List Stmt} (hall : Stmt.TracksBody body)
    (h : (Stmt.define s name params (.mk sp body)).assemble a = .ok ((), a')) (ha : a.Ready) :
    (Stmt.define s name params (.mk sp body)).TracksFrom a a' := by
  obtain ⟨⟨skip, f⟩, a₁, hopen, hrest⟩ := ok_of_bind h
  obtain ⟨_, a₂, hbody, hclose⟩ := ok_of_bind hrest
  obtain ⟨b, rfl, -, hmarked⟩ := assembles_openFunction hopen
  have hend : (if endsInReturn body then a.live else a₂.live) = a₂.live ∨
      endsInReturn body = true := by
    split
    · exact .inr ‹_›
    · exact .inl rfl
  have hb := hall hbody (.enter (hmarked.lexical ha.lexical) params) hend
  have hparams : (b.enter params).live = params.length := by
    rw [Assembly.live, Assembly.locals_enter, List.length_reverse, List.length_map]
  rw [hparams] at hb
  obtain ⟨hlive, htracks⟩ := tracks_define ha.lexical hopen hb hclose
  rw [Stmt.TracksFrom, hlive]
  exact htracks.mono fun _ hstart _ hq => ⟨hstart, .of_eq hopen hq⟩

private theorem tracks_switch {s : Span} {arms : List Arm} {otherwise : Option Block}
    (hall : Arm.TracksSwitch s arms) (hlast : Block.TracksOption s otherwise)
    (h : (Stmt.switch s arms otherwise).assemble a = .ok ((), a')) (ha : a.Ready) :
    (Stmt.switch s arms otherwise).TracksFrom a a' := by
  obtain ⟨_, a₀, hopen, hrest⟩ := ok_of_bind h
  obtain ⟨fall, a₁, harms, hrest⟩ := ok_of_bind hrest
  obtain ⟨_, a₂, hpatch, hrest⟩ := ok_of_bind hrest
  obtain ⟨_, a₃, hotherwise, hclose⟩ := ok_of_bind hrest
  have ha₀ := ready_openBreakable hopen ha
  have hlive₀ : a₀.live = a.live := by
    cases hopen
    rfl
  have h₀ : Tracks a₀ a₀ 0 (none.toList.map (·, a₀.live) ++ []) (fun _ _ ns => ns) a₀.live a₀.live
      fun _ => True := .of_raises (.refl fun _ => trivial)
  have h₁ := (hall harms h₀ ha₀ rfl).patchOption hpatch
  have hlive₂ := h₁.live_eq ha₀.lexical fun _ _ _ => Arm.texts_namesAll _ _ _ _
  have hblock := hlast hotherwise (h₁.ready ha₀)
  rw [hlive₂] at hblock
  have h₂ := h₁.trans hblock
  rw [hlive₀] at h₂
  refine ((tracks_breakable (by decide) hopen h₂ hclose).congr ?_ ?_ (Stmt.sound_names _)
    ?_).at_live ha.lexical fun address k ns => ?_
  · rw [Stmt.definitions, Nat.zero_add]
  · intro address k
    rw [Stmt.names, Nat.add_zero, Nat.zero_add]
  · rintro _ hstart - ⟨⟨-, hq₁⟩, hq₂⟩
    exact ⟨hstart, .of_eq hopen ⟨hq₁, .of_eq harms (.of_eq hpatch hq₂)⟩⟩
  · rw [Stmt.names, Block.texts_namesOption, Arm.texts_namesAll]

private theorem tracks_branch {s : Span} {yes no : Option Block} {arms : List Arm}
    (hfirst : Block.TracksOption s yes) (hall : Arm.TracksBranch s arms)
    (hlast : Block.TracksOption s no)
    (h : (Stmt.branch s yes arms no).assemble a = .ok ((), a')) (ha : a.Ready) :
    (Stmt.branch s yes arms no).TracksFrom a a' := by
  obtain ⟨_, a₁, hit, hrest⟩ := ok_of_bind h
  obtain ⟨next, a₂, hnext, hrest⟩ := ok_of_bind hrest
  obtain ⟨_, a₃, hyes, hrest⟩ := ok_of_bind hrest
  obtain ⟨done, a₄, hdone, hrest⟩ := ok_of_bind hrest
  obtain ⟨⟨last, ends⟩, a₅, harms, hrest⟩ := ok_of_bind hrest
  obtain ⟨_, a₆, hpatch, hrest⟩ := ok_of_bind hrest
  obtain ⟨_, a₇, hno, hends⟩ := ok_of_bind hrest
  have h₁ : Raises a a₁ a.live (a.live + 1) _ := raises_emit (k := a.live) rfl rfl hit rfl rfl
  have h₂ := (Tracks.of_raises h₁).trans (tracks_emitTest hnext)
  have hlive₂ : a₂.live = a.live := h₂.live_eq ha.lexical fun _ _ _ => rfl
  have hblock₁ := hfirst hyes (h₂.ready ha)
  rw [hlive₂] at hblock₁
  have h₄ := (h₂.trans hblock₁).trans (tracks_emitJump a.live hdone)
  have hlive₄ : a₄.live = a.live :=
    h₄.live_eq ha.lexical fun _ _ _ => Block.texts_namesOption _ _ _ _
  have h₅ := (hall harms h₄ ha hlive₄).patch hpatch
  have hlive₆ : a₆.live = a.live := h₅.live_eq ha.lexical fun _ _ _ => by
    rw [Arm.texts_namesAll, Block.texts_namesOption]
  have hblock₂ := hlast hno (h₅.ready ha)
  rw [hlive₆] at hblock₂
  have hperm : (ends.map (·, a.live) ++ [(done, a.live)] ++ []).Perm
      ((done :: ends).map (·, a.live) ++ []) := by
    rw [List.append_nil, List.append_nil]
    exact List.perm_append_singleton _ _
  refine ((((h₅.trans hblock₂).perm hperm).patchAll hends).congr ?_ ?_ (Stmt.sound_names _)
    ?_).at_live ha.lexical fun address k ns => ?_
  · rw [Stmt.definitions]
    omega
  · intro address k
    rw [Stmt.names]
    simp only [Nat.add_zero, Nat.zero_add, Nat.add_assoc]
  · rintro _ hstart - ⟨⟨⟨⟨-, hq₁⟩, -⟩, hq₂⟩, hq₃⟩
    exact ⟨hstart, .of_eq hit (.of_eq hnext ⟨hq₁, .of_eq hyes (.of_eq hdone ⟨hq₂,
      .of_eq harms (.of_eq hpatch hq₃)⟩)⟩)⟩
  · rw [Stmt.names, Block.texts_namesOption, Arm.texts_namesAll, Block.texts_namesOption]

private theorem tracks_loop {s sp : Span} {op label : Ident} {update : Option LoopUpdate}
    {body : List Stmt} (hall : Stmt.TracksBody body)
    (h : (Stmt.loop s op label update (.mk sp body)).assemble a = .ok ((), a')) (ha : a.Ready) :
    (Stmt.loop s op label update (.mk sp body)).TracksFrom a a' := by
  obtain ⟨slot, exit, a₁, a₂, a₃, a₄, a₅, a₆, a₇, a₈, a₉, hopen, hexit, hscope, hbody, hclose,
    hupdate, hloop, hpatch, hbreak, hend⟩ := loop_steps h
  obtain ⟨rfl, b₀, b₁, hopenScope, hstart, hslot, hopenBreak⟩ := tracks_openLoop hopen
  have hl₁ := hstart.lexical (lexical_openScope hopenScope ha.lexical)
  have ha₁ := ready_openBreakable hopenBreak (hstart.ready (ready_openScope hopenScope ha))
  have hlive₁ : a₁.live = b₁.live := by
    cases hopenBreak
    rfl
  have htest := LoopUpdate.tracks_test (Nat.le_of_eq hlive₁) hexit
  have hlive₂ : a₂.live = b₁.live := (htest.live_eq ha₁.lexical fun _ _ _ => rfl).trans hlive₁
  have ha₂ := htest.ready ha₁
  have hb := hall hbody (ready_openScope hscope ha₂) (.inl rfl)
  rw [live_openScope hscope, hlive₂] at hb
  obtain ⟨hlive₅, hblock⟩ := tracks_block hscope hb ha₂.lexical hclose
  rw [hlive₂] at hblock hlive₅
  obtain ⟨-, hchange⟩ := LoopUpdate.tracks_change (Nat.le_of_eq hlive₅) hslot hupdate
  have hpass := ((htest.trans hblock).trans hchange).back b₁.live hloop
  have hpatched : Tracks a₁ a₈ _ [] _ _ _ _ := (hpass.perm (by simp)).patchOption hpatch
  have hloop := tracks_breakable (by decide) hopenBreak hpatched hbreak
  have hkeep : ∀ (address : Nat → Nat) (k : Nat) (ns : Names),
      ((Stmt.namesAll address k body ns).keep ns.length).texts = ns.texts :=
    fun address k ns => Names.texts_keep (Stmt.suffix_namesAll address body k ns)
  have hwhole := hstart.trans (hloop.at_live hl₁ fun address k ns => hkeep address _ ns)
  refine ((tracks_block hopenScope hwhole ha.lexical hend).2.congr ?_ ?_ (Stmt.sound_names _)
    ?_).at_live ha.lexical fun address k ns => ?_
  · rw [Stmt.definitions]
    omega
  · intro address k
    rw [Stmt.names]
    simp only [Nat.add_zero]
    rw [Names.keep_keep (LoopUpdate.length_le_names update _)]
    rfl
  · rintro _ hstart - ⟨-, ⟨hq₁, hq₂⟩, -⟩
    exact ⟨hstart, .of_eq hopen ⟨hq₁, .of_eq hexit (.of_eq hscope hq₂)⟩⟩
  · rw [Stmt.names]
    exact Names.texts_keep (((NamesAfter.Sound.counter update).adds address k ns).trans
      (Stmt.suffix_namesAll address body k _))

mutual

/-- The code of a statement is met with as many values as there are variables. -/
theorem Stmt.tracks : ∀ (s : Stmt) {a a' : Assembly}, s.assemble a = .ok ((), a') → a.Ready →
    s.TracksFrom a a'
  | .assign _ target value, a, a', h, _ => by
    obtain ⟨_, a₁, hvalue, hwrite⟩ := ok_of_bind h
    exact (tracks_written (value.raises hvalue (Nat.le_refl _)) hwrite).mono
      fun _ hstart _ hq => ⟨hstart, hq⟩
  | .declare s name initial, a, a', h, _ => by
    obtain ⟨_, a₁, hinitial, hdeclare⟩ := ok_of_bind h
    have h₁ := Initial.raises (Nat.le_refl a.live) hinitial
    have hlive : a'.live = a.live + 1 := by
      cases hdeclare
      change a₁.scope.locals.length + 1 = a.live + 1
      rw [h₁.scope]
    rw [Stmt.TracksFrom, hlive]
    exact ((Tracks.of_raises h₁).trans (tracks_declare rfl hdeclare)).mono
      fun _ hstart _ hq => ⟨hstart, hq.1⟩
  | .load _ _, a, a', h, _ => by
    cases h
    have h₁ : Raises a a a.live a.live fun _ => True := .refl fun _ => trivial
    exact (tracks_same h₁).mono fun _ hstart _ _ => ⟨hstart, trivial⟩
  | .define _ _ _ (.mk _ body), _, _, h, ha => tracks_definition (Stmt.tracksAll body) h ha
  | .expr s value, a, a', h, _ => by
    obtain ⟨_, a₁, hvalue, hwrite⟩ := ok_of_bind h
    have h₁ : Raises a₁ a' (a.live + 1) a.live _ := raises_emit (k := a.live) rfl rfl hwrite rfl rfl
    exact (tracks_same ((value.raises hvalue (Nat.le_refl _)).trans h₁)).mono
      fun _ hstart _ hq => ⟨hstart, hq.1⟩
  | .switch s arms otherwise, _, _, h, ha =>
    tracks_switch (Arm.tracksSwitch s arms) (Block.tracksOption s otherwise) h ha
  | .branch s yes arms no, _, _, h, ha =>
    tracks_branch (Block.tracksOption s yes) (Arm.tracksBranch s arms) (Block.tracksOption s no) h
      ha
  | .cast s name target, a, a', h, _ => by
    obtain ⟨_, a₁, hread, hrest⟩ := ok_of_bind h
    obtain ⟨_, a₂, hcast, hwrite⟩ := ok_of_bind hrest
    have h₁ := raises_readName (Nat.le_refl a.live) hread
    have h₂ : Raises a₁ a₂ (a.live + 1) (a.live + 1) _ :=
      raises_emit_byte (k := a.live) rfl rfl hcast (fun _ => (Nat.add_sub_cancel_left _ 1).symm)
        (Nat.le_succ _) (fun _ _ => ⟨target, Action.ofCode?_code target⟩) rfl
    exact (tracks_written (h₁.trans h₂) hwrite).mono fun _ hstart _ _ => ⟨hstart, trivial⟩
  | .leave s, a, a', h, ha => by
    obtain ⟨hlive, htracks⟩ := tracks_leave ha h
    rw [Stmt.TracksFrom, hlive]
    exact htracks.mono fun _ hstart _ _ => ⟨hstart, trivial⟩
  | .loop _ _ _ _ (.mk _ body), _, _, h, ha => tracks_loop (Stmt.tracksAll body) h ha
  | .ret s value, a, a', h, _ => by
    obtain ⟨hlive, htracks⟩ := tracks_ret a.live h
    rw [Stmt.TracksFrom, hlive]
    exact htracks
  | .print s args newline, a, a', h, _ => by
    obtain ⟨_, a₁, hprinted, hprint⟩ := ok_of_bind h
    have h₁ := raises_printed (Nat.le_refl a.live) hprinted
    have h₂ : Raises a₁ a' (a.live + 1) a.live _ :=
      raises_emit_byte (k := a.live) rfl rfl hprint (fun _ => (Nat.add_sub_cancel_left _ 1).symm)
        (Nat.le_succ _) (fun _ _ => trivial) rfl
    exact (tracks_same (h₁.trans h₂)).mono fun _ hstart _ hq => ⟨hstart, hq.1⟩
  | .read s target, a, a', h, _ => by
    obtain ⟨_, a₁, hread, hwrite⟩ := ok_of_bind h
    have h₁ : Raises a a₁ a.live (a.live + 1) _ := raises_emit (k := a.live) rfl rfl hread rfl rfl
    exact (tracks_written h₁ hwrite).mono fun _ hstart _ _ => ⟨hstart, trivial⟩
  | .append s target value, a, a', h, _ => by
    obtain ⟨_, a₁, htarget, hrest⟩ := ok_of_bind h
    obtain ⟨_, a₂, hvalue, happend⟩ := ok_of_bind hrest
    have h₁ := raises_readName (Nat.le_refl a.live) htarget
    have h₂ := value.raises hvalue (Expr.live_le_of_raises h₁ (Nat.le_refl _) 1)
    have h₃ : Raises a₂ a' (a.live + 1 + 1) a.live _ :=
      raises_emit (k := a.live) rfl rfl happend rfl rfl
    exact (tracks_same (h₁.trans (h₂.trans h₃))).mono
      fun _ hstart _ hq => ⟨hstart, .of_eq htarget hq.2.1⟩
  | .store s target index value, a, a', h, _ => by
    obtain ⟨_, a₁, htarget, hrest⟩ := ok_of_bind h
    obtain ⟨_, a₂, hindex, hrest⟩ := ok_of_bind hrest
    obtain ⟨_, a₃, hvalue, hstore⟩ := ok_of_bind hrest
    have h₁ := raises_readName (Nat.le_refl a.live) htarget
    have hn₁ := Expr.live_le_of_raises h₁ (Nat.le_refl _) 1
    have h₂ := index.raises hindex hn₁
    have h₃ := value.raises hvalue (Expr.live_le_of_raises h₂ hn₁ 1)
    have h₄ : Raises a₃ a' (a.live + 1 + 1 + 1) a.live _ :=
      raises_emit (k := a.live) rfl rfl hstore rfl rfl
    exact (tracks_same (h₁.trans (h₂.trans (h₃.trans h₄)))).mono
      fun _ hstart _ hq => ⟨hstart, .of_eq htarget ⟨hq.2.1, .of_eq hindex hq.2.2.1⟩⟩

theorem Stmt.tracksAll : ∀ body : List Stmt, Stmt.TracksBody body
  | [], a, a', m, h, _, hm => by
    cases h
    obtain rfl : m = a.live := hm.resolve_right nofun
    exact .of_raises (.refl fun _ => trivial)
  | s :: ss, a, a', m, h, ha, hm => by
    obtain ⟨_, a₁, hs, hss⟩ := ok_of_bind h
    have h₁ := Stmt.tracks s hs ha
    have hrest : (m = a'.live ∨ endsInReturn ss = true) →
        Tracks a a' (s.definitions + Stmt.definitionsAll ss) []
          (fun address k ns => Stmt.namesAll address (k + s.definitions) ss (s.names address k ns))
          a.live m fun h => Stmt.LeveledAll h (s :: ss) a := by
      intro hm'
      exact (h₁.trans (Stmt.tracksAll ss hss (h₁.ready ha) hm')).mono
        fun _ _ _ hq => ⟨hq.1, .of_eq hs hq.2⟩
    rcases hm with rfl | hends
    · exact hrest (.inl rfl)
    · rcases endsInReturn_cons hends with ⟨rfl, span, value, rfl⟩ | hss'
      · cases hss
        exact (tracks_ret m hs).2.mono fun _ _ _ hq => ⟨hq, .of_eq hs trivial⟩
      · exact hrest (.inr hss')

theorem Block.tracksOption (span : Span) : ∀ block : Option Block, Block.TracksOption span block
  | none, a, a', h, _ => by
    cases h
    exact .of_raises (.refl fun _ => trivial)
  | some (.mk _ body), a, a', h, ha => by
    obtain ⟨_, a₀, hopen, hrest⟩ := ok_of_bind h
    obtain ⟨_, a₁, hbody, hclose⟩ := ok_of_bind hrest
    have hb := Stmt.tracksAll body hbody (ready_openScope hopen ha) (.inl rfl)
    rw [live_openScope hopen] at hb
    exact (tracks_block hopen hb ha.lexical hclose).2.mono fun _ _ _ hq => .of_eq hopen hq

theorem Arm.tracksSwitch (span : Span) : ∀ arms : List Arm, Arm.TracksSwitch span arms
  | [], a₀, a, a', d, n, N, fall, fall', js, names, P, h, hacc, _, _ => by
    cases h
    exact hacc.mono fun _ _ _ hP => ⟨hP, trivial⟩
  | .mk test (.mk _ body) :: arms, a₀, a, a', d, n, N, fall, fall', js, names, P, h, hacc, ha, hN => by
    obtain ⟨_, a₁, hit, hrest⟩ := ok_of_bind h
    obtain ⟨_, a₂, htest, hrest⟩ := ok_of_bind hrest
    obtain ⟨_, a₃, hequal, hrest⟩ := ok_of_bind hrest
    obtain ⟨next, a₄, hnext, hrest⟩ := ok_of_bind hrest
    obtain ⟨_, a₅, hpatch, hrest⟩ := ok_of_bind hrest
    obtain ⟨_, a₆, hopen, hrest⟩ := ok_of_bind hrest
    obtain ⟨_, a₇, hbody, hrest⟩ := ok_of_bind hrest
    obtain ⟨_, a₈, hclose, hrest⟩ := ok_of_bind hrest
    obtain ⟨jump, a₉, hjump, hrest⟩ := ok_of_bind hrest
    obtain ⟨_, a₁₀, hpatchNext, harms⟩ := ok_of_bind hrest
    have hread : Raises a a₁ N (N + 1) _ := raises_emit (k := N) rfl rfl hit rfl rfl
    have heval := test.raises htest (Expr.live_le_of_raises hread (Nat.le_of_eq hN) 1)
    have hcompare : Raises a₂ a₃ (N + 1 + 1) (N + 1) _ := raises_emit (k := N) rfl rfl hequal rfl rfl
    have hvalue := hread.trans (heval.trans hcompare)
    have h₁ := hacc.trans ((Tracks.of_raises hvalue).trans (tracks_emitTest hnext))
    have hperm : (fall.toList.map (·, N) ++ js ++ [(next, N)]).Perm
        (fall.toList.map (·, N) ++ ((next, N) :: js)) := by
      rw [List.append_assoc]
      exact (List.perm_append_singleton _ js).append_left _
    have h₂ := (h₁.perm hperm).patchOption hpatch
    have hscope₅ : a₅.scope = a.scope := by
      rw [scope_patchOption hpatch, scope_emitJump hnext, hvalue.scope]
    have ha₅ := h₂.ready ha
    have hlive₅ : a₅.live = N := by rw [Assembly.live, hscope₅, ← hN]
    have hb := Stmt.tracksAll body hbody (ready_openScope hopen ha₅) (.inl rfl)
    rw [live_openScope hopen, hlive₅] at hb
    obtain ⟨hlive₈, hblock⟩ := tracks_block hopen hb ha₅.lexical hclose
    rw [hlive₅] at hblock hlive₈
    have h₃ := (h₂.trans hblock).trans (tracks_emitJump N hjump)
    have hperm' : ((next, N) :: js ++ [] ++ [(jump, N)]).Perm
        ((next, N) :: ((some jump).toList.map (·, N) ++ js)) := by
      rw [List.append_nil]
      exact (List.perm_append_singleton _ js).cons _
    have h₄ := (h₃.perm hperm').patch hpatchNext
    have hscope₁₀ : a₁₀.scope = a₈.scope := by
      rw [(patchAll_eq [next] hpatchNext).2, scope_emitJump hjump]
    have hlive₁₀ : a₁₀.live = N := by rw [Assembly.live, hscope₁₀, ← hlive₈]
    refine (Arm.tracksSwitch span arms harms h₄ ha hlive₁₀).congr ?_ ?_ ?_ ?_
    · rw [Arm.definitionsAll]
      omega
    · intro address k
      rw [Arm.namesAll]
      simp only [Nat.add_zero, Nat.add_assoc]
    · exact hacc.sound.trans (Arm.sound_namesAll _)
    · rintro _ - - ⟨⟨⟨⟨hP, ⟨-, hq, -⟩, -⟩, hb⟩, -⟩, hq'⟩
      exact ⟨hP, .of_eq hit ⟨hq, .of_eq htest (.of_eq hequal (.of_eq hnext (.of_eq hpatch
        (.of_eq hopen ⟨hb, .of_eq hbody (.of_eq hclose (.of_eq hjump (.of_eq hpatchNext
          hq')))⟩))))⟩⟩

theorem Arm.tracksBranch (span : Span) : ∀ arms : List Arm, Arm.TracksBranch span arms
  | [], a₀, a, a', d, n, N, next, last, ends, js, names, P, h, hacc, _, _ => by
    cases h
    exact hacc.mono fun _ _ _ hP => ⟨hP, trivial⟩
  | .mk test (.mk _ body) :: arms, a₀, a, a', d, n, N, next, last, ends, js, names, P, h, hacc, ha,
      hN => by
    obtain ⟨_, a₁, hpatch, hrest⟩ := ok_of_bind h
    obtain ⟨_, a₂, htest, hrest⟩ := ok_of_bind hrest
    obtain ⟨skip, a₃, hskip, hrest⟩ := ok_of_bind hrest
    obtain ⟨_, a₄, hopen, hrest⟩ := ok_of_bind hrest
    obtain ⟨_, a₅, hbody, hrest⟩ := ok_of_bind hrest
    obtain ⟨_, a₆, hclose, hrest⟩ := ok_of_bind hrest
    obtain ⟨done, a₇, hdone, hrest⟩ := ok_of_bind hrest
    obtain ⟨⟨last, ends⟩, a₈, harms, hpure⟩ := ok_of_bind hrest
    cases hpure
    have hscope₁ := (patchAll_eq [next] hpatch).2
    have hlive₁ : a₁.live = N := by rw [Assembly.live, hscope₁, ← hN]
    have heval := test.raises htest (Nat.le_of_eq hlive₁)
    have h₁ := ((hacc.patch hpatch).trans (.of_raises heval)).trans (tracks_emitTest hskip)
    have hscope₃ : a₃.scope = a.scope := by rw [scope_emitJump hskip, heval.scope, hscope₁]
    have hlive₃ : a₃.live = N := by rw [Assembly.live, hscope₃, ← hN]
    have ha₃ := h₁.ready ha
    have hb := Stmt.tracksAll body hbody (ready_openScope hopen ha₃) (.inl rfl)
    rw [live_openScope hopen, hlive₃] at hb
    obtain ⟨hlive₆, hblock⟩ := tracks_block hopen hb ha₃.lexical hclose
    rw [hlive₃] at hblock hlive₆
    have h₂ := (h₁.trans hblock).trans (tracks_emitJump N hdone)
    have hperm : (js ++ [] ++ [(skip, N)] ++ [] ++ [(done, N)]).Perm
        ((skip, N) :: (js ++ [(done, N)])) := by
      simp only [List.append_nil, List.append_assoc]
      exact List.perm_middle
    have hlive₇ : a₇.live = N := by rw [Assembly.live, scope_emitJump hdone, ← hlive₆]
    have h₃ := Arm.tracksBranch span arms harms (h₂.perm hperm) ha hlive₇
    have hperm' : ((last, N) :: (ends.map (·, N) ++ (js ++ [(done, N)]))).Perm
        ((last, N) :: ((done :: ends).map (·, N) ++ js)) := by
      rw [← List.append_assoc]
      exact (List.perm_append_singleton _ _).cons _
    refine (h₃.perm hperm').congr ?_ ?_ ?_ ?_
    · rw [Arm.definitionsAll]
      omega
    · intro address k
      rw [Arm.namesAll]
      simp only [Nat.add_zero, Nat.add_assoc]
    · exact hacc.sound.trans (Arm.sound_namesAll _)
    · rintro _ - - ⟨⟨⟨⟨⟨hP, hq⟩, -⟩, hb⟩, -⟩, hq'⟩
      exact ⟨hP, .of_eq hpatch ⟨hq, .of_eq htest (.of_eq hskip (.of_eq hopen ⟨hb, .of_eq hbody
        (.of_eq hclose (.of_eq hdone hq'))⟩))⟩⟩

end

namespace Heights

/-- The heights that a table gives. -/
def ofTable (T : List (Nat × Nat)) : Heights :=
  ⟨fun i => ∃ n, (i, n) ∈ T, fun i => (T.lookup i).getD 0⟩

variable {T : List (Nat × Nat)}

private theorem lookup_of_mem (h : T.Pairwise fun p q => p.1 < q.1) {p : Nat × Nat} (hp : p ∈ T) :
    T.lookup p.1 = some p.2 := by
  induction T with
  | nil => cases hp
  | cons q T ih =>
    obtain ⟨hq, hT⟩ := List.pairwise_cons.1 h
    rcases List.mem_cons.1 hp with rfl | hp
    · exact List.lookup_cons_self
    · rw [lookup_cons_of_ne (Nat.ne_of_gt (hq p hp))]
      exact ih hT hp

end Heights

/-- A table with one entry for each of its offsets gives the heights in it. -/
private theorem Covers.includes {T : List (Nat × Nat)} {x y : Nat} (h : Covers T x y) :
    (Heights.ofTable T).Includes T := by
  intro p hp
  refine ⟨⟨p.2, hp⟩, ?_⟩
  change (T.lookup p.1).getD 0 = p.2
  rw [Heights.lookup_of_mem h.ordered hp, Option.getD_some]

/-- The code of a program agrees with heights: every instruction that is met is checked, and the
markers of the functions are among them; the constants have no other functions. -/
structure Program.Measured (p : Program) (c : Chunk) (address : Nat → Nat) (H : Heights) : Prop where
  start : H.At 0 0
  functions : ∀ j < Stmt.definitionsAll p.body.stmts, c.Defines H (address j)
  checks : ∀ (s : Settings) (i : Nat), H.marked i →
    c.Checks ⟨s, p.functions address, address⟩ H i (H.height i)
  leveled : Stmt.LeveledAll H.height p.body.stmts ⟨.empty, .empty, []⟩
  known : ∀ x ∈ c.pool.constants.toList,
    x.value.KnownFunction address (Stmt.definitionsAll p.body.stmts)

theorem Program.valid_functionValue (p : Program) (address : Nat → Nat) (s : Settings) {j : Nat}
    (hj : j < Stmt.definitionsAll p.body.stmts) :
    (functionValue (address j)).Valid ⟨s, p.functions address, address⟩ 0 := by
  obtain ⟨f, hf, haddress⟩ : ∃ f ∈ p.functions address, f.address = address j :=
    Stmt.exists_functionAll p.body.stmts (Nat.zero_le j) (by rwa [Nat.zero_add])
  change (Linked.function? _ _).isSome = true
  rw [Linked.function?, List.find?_isSome]
  exact ⟨f, hf, by rw [haddress, beq_self_eq_true]⟩

/-- The compiler makes code that agrees with some heights. -/
theorem Program.exists_heights {p : Program} {names : NameTable} {C : Chunk}
    (h : p.compile names = .ok C) (hshort : C.code.size < 2 ^ 31) :
    ∃ address H, p.Measured C address H := by
  obtain ⟨a', hrun, rfl⟩ := compile_parts h
  obtain ⟨_, a₁, hbody, hhalt⟩ := ok_of_bind hrun
  have hready : Assembly.Ready ⟨.empty, .empty, []⟩ := ⟨Assembly.lexical_start, nofun⟩
  obtain ⟨T, hT⟩ := Stmt.tracksAll p.body.stmts hbody hready (.inl rfl)
  obtain ⟨fs, new, hlen, hpart⟩ := hT.assembles
  obtain rfl : new = [] := hpart.waits
  have hchunk := hpart.chunk.trans (emits_emit rfl hhalt).chunk
  have hcompletes : Chunk.Completes { a'.chunk with names := names.names.toList } a'.chunk [] :=
    ⟨Nat.le_refl _, fun _ _ _ => rfl, fun _ _ => rfl, hchunk.aligned rfl, fun _ _ h => h⟩
  obtain ⟨-, hplaced, hhalted⟩ := hchunk.back _ [] hcompletes nofun
  obtain ⟨-, -, -, hC⟩ := hplaced hready.lexical hshort _ 0 .none (addressed_getD fs rfl) rfl
  -- the instruction that ends the run is met with the variables of the program
  let U := T ++ [(a₁.offset, a₁.live)]
  have hcovers : Covers U 0 (a₁.offset + 1) :=
    hT.covers.append (.singleton (Nat.lt_succ_self _)) (Nat.zero_le _) (Nat.le_succ _)
  obtain ⟨hHT, hend⟩ := Heights.includes_append.1 hcovers.includes
  obtain ⟨hmarked, hchecks⟩ := hC (.ofTable U) hHT hend.singleton
  have hbasis : ∀ s, Basis ⟨s, p.functions (fun i => fs.getD i 0), fun i => fs.getD i 0⟩
      (.ofTable U) (fun i => fs.getD i 0) (Stmt.definitionsAll p.body.stmts) [] .none [] :=
    fun s => ⟨fun j hj => p.valid_functionValue _ s hj, .nil, nofun, trivial⟩
  have htotal : 0 + Stmt.definitionsAll p.body.stmts ≤ Stmt.definitionsAll p.body.stmts :=
    Nat.le_of_eq (Nat.zero_add _)
  refine ⟨fun i => fs.getD i 0, .ofTable U, hT.enters _ hHT hend.singleton, ?_, ?_, ?_, ?_⟩
  · intro j hj
    exact hmarked j (Nat.zero_le j) (by rwa [Nat.zero_add])
  · rintro s i ⟨n, hi⟩
    rw [(hcovers.includes _ hi).2]
    rcases List.mem_append.1 hi with hi | hi
    · exact (hchecks _ _ htotal (hbasis s) nofun).1 _ hi
    · cases List.mem_singleton.1 hi
      exact (hhalted (hpart.lexical hready.lexical)).checks_end (.inr rfl) (Nat.zero_le _)
  · exact (hchecks _ _ htotal (hbasis {}) nofun).2
  · refine ((emits_emit rfl hhalt).known _ _ (hpart.known _ _ (fun f hf => ?_) ?_)).constants
    · obtain ⟨j, hj, rfl⟩ := List.mem_iff_getElem.1 hf
      exact ⟨j, hlen ▸ hj, (List.getElem_eq_getD 0 : fs[j] = fs.getD j 0)⟩
    · exact ⟨nofun, .nil, nofun⟩

end LolToolchain
