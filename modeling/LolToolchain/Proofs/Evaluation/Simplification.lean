import LolToolchain.Proofs.Evaluation.Folding

/-!
Of the two versions of a program the one follows the other, where all comparisons that are folded are
those of `NUMBR`s. Statements keep the variables whose names hold `NUMBR`s in order, and leave the
variables that they find below those that they declare; so the newest variable behind a loop's body is
the one of the loop.
-/
namespace LolToolchain

open Eval

variable {ns : List Text} {base : List Text} {vs : Vars} {name : Text} {v : Value}

/-- Variables above those with the names `base`, where the names `ns` hold `NUMBR`s. -/
structure Vars.Above (ns base : List Text) (vs : Vars) : Prop where
  numbrs : vs.Numbrs ns
  names : base <:+ vs.names

/-- Just the variables with the names `base`, where the names `ns` hold `NUMBR`s. -/
structure Vars.Level (ns base : List Text) (vs : Vars) : Prop where
  numbrs : vs.Numbrs ns
  names : vs.names = base

theorem Vars.Level.above (h : vs.Level ns base) : vs.Above ns base :=
  ⟨h.numbrs, h.names ▸ List.suffix_rfl⟩

theorem Vars.Above.level (h : vs.Above ns base) : vs.Level ns vs.names :=
  ⟨h.numbrs, rfl⟩

theorem Vars.Above.of_suffix {base' : List Text} (h : vs.Above ns base') (hsub : base <:+ base') :
    vs.Above ns base :=
  ⟨h.numbrs, hsub.trans h.names⟩

theorem Vars.Numbrs.cons (h : vs.Numbrs ns) (hv : name ∈ ns → v.IsNumbr) :
    Vars.Numbrs ns ((name, v) :: vs) :=
  List.forall_mem_cons.2 ⟨hv, h⟩

private theorem Vars.Above.cons (h : vs.Above ns base) (hv : name ∈ ns → v.IsNumbr) :
    Vars.Above ns base ((name, v) :: vs) :=
  ⟨h.numbrs.cons hv, h.names.trans (List.suffix_cons _ _)⟩

/-- The oldest variables are those that were found. -/
private theorem Vars.Above.drop (h : vs.Above ns base) :
    Vars.Level ns base (vs.drop (vs.length - base.length)) where
  numbrs x hx := h.numbrs x (List.mem_of_mem_drop hx)
  names := by
    have hlength : vs.names.length = vs.length := List.length_map _
    rw [Vars.names, List.map_drop, ← hlength]
    exact (List.suffix_iff_eq_drop.1 h.names).symm

private theorem EvalState.names_assign? : ∀ {vs vs' : Vars}, assign? name v vs = some vs' →
    vs'.names = vs.names
  | [], _, h => by cases h
  | x :: xs, vs', h => by
    rw [assign?] at h
    split at h
    · rename_i hname
      cases h
      rw [Vars.names, Vars.names, List.map_cons, List.map_cons, hname]
    · obtain ⟨ys, hys, rfl⟩ := Option.map_eq_some_iff.1 h
      exact congrArg (x.1 :: ·) (names_assign? hys)

private theorem EvalState.numbrs_assign? (hv : name ∈ ns → v.IsNumbr) : ∀ {vs vs' : Vars},
    assign? name v vs = some vs' → vs.Numbrs ns → vs'.Numbrs ns
  | [], _, h, _ => by cases h
  | x :: xs, vs', h, hvs => by
    obtain ⟨hx, hxs⟩ := List.forall_mem_cons.1 hvs
    rw [assign?] at h
    split at h
    · cases h
      exact Vars.Numbrs.cons hxs hv
    · obtain ⟨ys, hys, rfl⟩ := Option.map_eq_some_iff.1 h
      exact List.forall_mem_cons.2 ⟨hx, numbrs_assign? hv hys hxs⟩

namespace Eval.Follows

theorem writes {id : Ident} (hv : id.name ∈ ns → v.IsNumbr) :
    Follows (Vars.Above ns base) (Eval.writeName id v) (fun _ => Eval.writeName id v)
      fun _ => Vars.Above ns base :=
  .of_each fun _ hvs => Follows.writeName.mono (fun _ h => h) fun _ _ h => by
    rcases h with rfl | h
    · exact hvs
    · exact ⟨EvalState.numbrs_assign? hv h hvs.numbrs, EvalState.names_assign? h ▸ hvs.names⟩

theorem declares (hv : name ∈ ns → v.IsNumbr) :
    Follows (Vars.Above ns base) (Eval.declare name v) (fun _ => Eval.declare name v)
      fun _ => Vars.Above ns base :=
  .of_each fun _ hvs => Follows.declare.mono (fun _ h => h) fun _ _ h => h ▸ hvs.cons hv

/-- Variables that are newer than some go out of use. -/
theorem unwinds {h : Nat} (hlength : base.length = h) :
    Follows (Vars.Above ns base) (Eval.unwind h) (fun _ => Eval.unwind h) fun _ => Vars.Level ns base :=
  .of_each fun _ hvs => Follows.unwind.mono (fun _ h => h) fun _ _ heq =>
    heq ▸ hlength ▸ hvs.drop

/-- What begins with the number of the variables. -/
theorem of_height {α : Type} {P : Vars → Prop} {f : Nat → Eval α} {g : Nat → Nat → Eval α}
    {Q : α → Vars → Prop}
    (h : ∀ vs, P vs → Follows (· = vs) (f vs.length) (fun m => g m vs.length) Q) :
    Follows P (Eval.height >>= f) (fun m => Eval.height >>= g m) Q :=
  of_each fun vs hvs => Follows.height.bind fun _ => of_each fun _ hvs' => by
    obtain ⟨rfl, rfl⟩ := hvs'
    exact h _ hvs

variable {body : Eval Flow} {body' : Nat → Eval Flow}

/-- A block gives back the variables that it finds, unless it is left. -/
theorem inBlock (hbody : ∀ base, Follows (Vars.Above ns base) body body' fun _ => Vars.Above ns base) :
    Follows (Vars.Level ns base) (Eval.inBlock body) (fun m => Eval.inBlock (body' m)) fun flow vs =>
      match flow with
      | .next => vs.Level ns base
      | _ => vs.Above ns base := by
  refine of_height fun vs hvs => ?_
  have hlength : base.length = vs.length := hvs.names ▸ List.length_map _
  refine ((hbody base).of_holds hvs.above).bind fun flow => ?_
  cases flow with
  | next => exact (unwinds hlength).bind fun _ => .pure fun _ h => h
  | left => exact .pure fun _ h => h
  | found v span => exact .pure fun _ h => h

/-- What a block leaves is above what it finds. -/
theorem inBlockAbove
    (hbody : ∀ base, Follows (Vars.Above ns base) body body' fun _ => Vars.Above ns base) :
    Follows (Vars.Above ns base) (Eval.inBlock body) (fun m => Eval.inBlock (body' m)) fun _ =>
      Vars.Above ns base :=
  of_each fun vs hvs => ((inBlock hbody).of_holds hvs.level).mono (fun _ h => h) fun flow vs' h => by
    cases flow with
    | next => exact h.above.of_suffix hvs.names
    | left => exact h.of_suffix hvs.names
    | found v span => exact h.of_suffix hvs.names

/-- What is not left goes on behind its end. -/
theorem goesOn {block go : Eval Flow} {block' go' : Nat → Eval Flow}
    (hblock : Follows (Vars.Above ns base) block block' fun _ => Vars.Above ns base)
    (hgo : Follows (Vars.Above ns base) go go' fun _ => Vars.Above ns base) :
    Follows (Vars.Above ns base)
      (do
        match ← block with
        | .next =>
          Eval.tick
          go
        | flow => return flow)
      (fun m => do
        match ← block' m with
        | .next =>
          Eval.tick
          go' m
        | flow => return flow) fun _ => Vars.Above ns base :=
  hblock.bind fun flow => by
    cases flow with
    | next => exact Follows.tick.bind fun _ => hgo
    | left => exact .pure fun _ h => h
    | found v span => exact .pure fun _ h => h

end Eval.Follows

section

variable {c : EvalContext} {c' : Nat → EvalContext} {b : Bool} {P : Vars → Prop}
variable (hc : c.Leads ns c') (hit : implicitName ∉ ns) (hP : ∀ vs, P vs → vs.Numbrs ns)
include hc hit hP

/-- An expression at any place. -/
theorem Expr.follows {x : Expr} (hx : x.foldsNumbrs ns = true) :
    Follows P ((x.folded b).eval c) (fun m => (x.folded !b).eval (c' m)) fun v vs =>
      P vs ∧ (x.isNumbr ns = true → v.IsNumbr) :=
  .keep fun vs hvs => x.pairs hc hit (hP vs hvs) hx

/-- The value of a name. -/
theorem EvalContext.Leads.reads (id : Ident) :
    Follows P (Eval.readName c id) (fun m => Eval.readName (c' m) id) fun v vs =>
      P vs ∧ (id.name ∈ ns → v.IsNumbr) :=
  .keep fun vs hvs => hc.readName hit (hP vs hvs) id

theorem Initial.follows {i : Initial} {span : Span} (hi : i.foldsNumbrs ns = true) :
    Follows P ((i.folded b).eval c span) (fun m => (i.folded !b).eval (c' m) span) fun v vs =>
      P vs ∧ (i.isNumbr ns = true → v.IsNumbr) := by
  cases i with
  | absent =>
    rw [folded_absent, folded_absent]
    exact Follows.give.mono (fun _ h => h) fun _ _ h => ⟨h.1, nofun⟩
  | typed t =>
    rw [folded_typed, folded_typed]
    let start : Heap → Except Fault (Value × Heap) := fun heap => .ok (t.initial heap)
    have hstart : Follows P (perform span start) (fun _ => perform span start) _ := .perform
    refine hstart.mono (fun _ h => h) fun v vs h => ⟨h.1, fun ht => ?_⟩
    obtain rfl : t = .numbr := eq_of_beq ht
    obtain ⟨-, heap, heap', hv⟩ := h
    cases hv
    exact ⟨0, rfl⟩
  | value e =>
    rw [folded_value, folded_value]
    exact e.follows hc hit hP hi

/-- What is printed for arguments. -/
theorem follows_printed {xs : List Expr} (hxs : Expr.foldsNumbrsAll ns xs = true) :
    Follows P (evalPrinted c (xs.map (Expr.folded b)))
      (fun m => evalPrinted (c' m) (xs.map (Expr.folded !b))) fun _ vs => P vs := by
  cases xs with
  | nil => exact Follows.give.alone
  | cons x xs =>
    obtain ⟨hx, hxs⟩ := List.forall_mem_cons.1 (Expr.foldsNumbrsAll_iff.1 hxs)
    refine (x.follows hc hit hP hx).andThen fun v _ => .of_each fun vs hvs => ?_
    exact (Expr.pairs_joined fun x hmem => x.pairs hc hit (hP vs hvs) (hxs x hmem)).mono
      (fun _ h => h) fun _ _ h => h ▸ hvs

/-- Whether a loop goes on. -/
theorem LoopTest.follows {t : LoopTest} (ht : t.foldsNumbrs ns = true) :
    Follows P ((t.folded b).eval c) (fun m => (t.folded !b).eval (c' m)) fun _ vs => P vs := by
  cases t with
  | forever =>
    rw [folded_forever, folded_forever]
    exact .pure fun _ h => h
  | untilTrue e =>
    simp only [folded_untilTrue, eval, Expr.span_folded]
    exact (e.follows hc hit hP ht).andThen fun _ _ => Follows.operate.andThen fun _ _ =>
      Follows.tick.bind fun _ => .pure fun _ h => h
  | whileTrue e =>
    simp only [folded_whileTrue, eval, Expr.span_folded]
    exact (e.follows hc hit hP ht).andThen fun _ _ => Follows.operate.alone

end

theorem Vars.Level.set {w : Value} (h : Vars.Level ns base ((name, v) :: vs))
    (hw : name ∈ ns → w.IsNumbr) : Vars.Level ns base ((name, w) :: vs) :=
  ⟨Vars.Numbrs.cons (List.forall_mem_cons.1 h.numbrs).2 hw, h.names⟩

section

variable {c : EvalContext} {c' : Nat → EvalContext} {b : Bool}

/-- Counting keeps a variable that holds a `NUMBR` one. -/
private theorem Eval.Follows.counts {f : Arithmetic} {span : Span} :
    Follows (Vars.Level ns base)
      (do
        let v ← Eval.newest
        Eval.tick
        let v ← Eval.operate span fun _ => f.eval v (.numbr 1)
        Eval.setNewest v)
      (fun _ => do
        let v ← Eval.newest
        Eval.tick
        let v ← Eval.operate span fun _ => f.eval v (.numbr 1)
        Eval.setNewest v) fun _ => Vars.Level ns base := by
  refine .of_each fun vs hvs => Follows.newest.andThen fun v ⟨name, rest, heq⟩ => ?_
  subst heq
  refine Follows.tick.bind fun _ => Follows.operate.andThen fun w ⟨_, hw⟩ => ?_
  refine Follows.setNewest.mono (fun _ h => h) fun _ vs' hset => ?_
  rw [hset]
  have hv := (List.forall_mem_cons.1 hvs.numbrs).1
  exact hvs.set fun hname => Arithmetic.isNumbr_of_eval (hv hname) ⟨1, rfl⟩ hw

/-- The variable of a loop is changed. -/
private theorem LoopUpdate.follows_advance (hc : c.Leads ns c') (hit : implicitName ∉ ns) {u : LoopUpdate}
    (hu : u.foldsNumbrs ns = true) :
    Follows (Vars.Level ns (u.counter.name :: base)) ((u.folded b).advance c)
      (fun m => (u.folded !b).advance (c' m)) fun _ => Vars.Level ns (u.counter.name :: base) := by
  obtain ⟨change, counter, test⟩ := u
  rw [folded_mk, folded_mk]
  cases change with
  | up => exact Follows.counts
  | down => exact Follows.counts
  | apply f =>
    simp only [foldsNumbrs, Bool.and_eq_true, decide_eq_true_eq] at hu
    refine (hc.reads hit (fun _ h => h.numbrs) f).andThen fun callee _ => ?_
    refine .of_each fun vs hvs => Follows.newest.andThen fun v ⟨name, rest, heq⟩ => ?_
    subst heq
    have hname : name = counter.name := (List.cons.inj hvs.names).1
    refine hc.invoke.bind fun w => Follows.setNewest.mono (fun _ h => h) fun _ vs' hset => ?_
    rw [hset]
    exact hvs.set fun hmem => absurd (hname ▸ hmem) hu.2

/-- The names of the variable of a loop. -/
def LoopUpdate.counters (update : Option LoopUpdate) : List Text :=
  update.toList.map fun u => u.counter.name

variable {update : Option LoopUpdate} {body : Eval Flow} {body' : Nat → Eval Flow}

private theorem LoopUpdate.follows_start :
    Follows (Vars.Level ns base) (start (update.map (folded b)))
      (fun _ => start (update.map (folded !b))) fun _ => Vars.Level ns (counters update ++ base) := by
  cases update with
  | none => exact .pure fun _ h => h
  | some u =>
    obtain ⟨change, counter, test⟩ := u
    rw [Option.map_some, Option.map_some, folded_mk, folded_mk]
    refine Follows.give.andThen fun v hv => .of_each fun vs hvs => ?_
    refine Follows.declare.mono (fun _ h => h) fun _ vs' hvs' => ?_
    rw [hvs']
    exact ⟨hvs.numbrs.cons fun _ => ⟨0, hv⟩, congrArg (counter.name :: ·) hvs.names⟩

private theorem LoopUpdate.follows_test (hc : c.Leads ns c') (hit : implicitName ∉ ns)
    (hupdate : update.all (LoopUpdate.foldsNumbrs ns) = true) :
    Follows (Vars.Level ns base) (evalTest c (update.map (folded b)))
      (fun m => evalTest (c' m) (update.map (folded !b))) fun _ => Vars.Level ns base := by
  cases update with
  | none => exact .pure fun _ h => h
  | some u =>
    obtain ⟨change, counter, test⟩ := u
    simp only [Option.all_some, foldsNumbrs, Bool.and_eq_true] at hupdate
    rw [Option.map_some, Option.map_some, folded_mk, folded_mk]
    exact test.follows hc hit (fun _ h => h.numbrs) hupdate.1

private theorem LoopUpdate.follows_change (hc : c.Leads ns c') (hit : implicitName ∉ ns)
    (hupdate : update.all (LoopUpdate.foldsNumbrs ns) = true) :
    Follows (Vars.Level ns (counters update ++ base)) (evalChange c (update.map (folded b)))
      (fun m => evalChange (c' m) (update.map (folded !b))) fun _ =>
        Vars.Level ns (counters update ++ base) := by
  cases update with
  | none => exact .pure fun _ h => h
  | some u => exact LoopUpdate.follows_advance hc hit hupdate

/-- One pass of a loop. -/
private theorem Eval.Follows.pass (hc : c.Leads ns c') (hit : implicitName ∉ ns)
    (hupdate : update.all (LoopUpdate.foldsNumbrs ns) = true)
    (hbody : ∀ base, Follows (Vars.Above ns base) body body' fun _ => Vars.Above ns base) {h : Nat}
    (hlength : (LoopUpdate.counters update ++ base).length = h) :
    Follows (Vars.Level ns (LoopUpdate.counters update ++ base))
      (Eval.pass c (update.map (LoopUpdate.folded b)) h body)
      (fun m => Eval.pass (c' m) (update.map (LoopUpdate.folded !b)) h (body' m)) fun flow vs =>
        match flow with
        | none => vs.Level ns (LoopUpdate.counters update ++ base)
        | some _ => vs.Above ns (LoopUpdate.counters update ++ base) := by
  refine (LoopUpdate.follows_test hc hit hupdate).bind fun test => ?_
  refine .ite (fun _ => .pure fun _ h => h.above) fun _ => (Follows.inBlock hbody).bind fun flow => ?_
  cases flow with
  | next =>
    exact (LoopUpdate.follows_change hc hit hupdate).bind fun _ => Follows.tick.bind fun _ =>
      .pure fun _ h => h
  | left =>
    exact (Follows.unwinds hlength).bind fun _ => Follows.tick.bind fun _ => .pure fun _ h => h.above
  | found v span => exact .pure fun _ h => h

/-- The passes of a loop. -/
private theorem Eval.Follows.passes (hc : c.Leads ns c') (hit : implicitName ∉ ns)
    (hupdate : update.all (LoopUpdate.foldsNumbrs ns) = true)
    (hbody : ∀ base, Follows (Vars.Above ns base) body body' fun _ => Vars.Above ns base)
    (hidles : ∀ m, Idles (body' m) Flow.Passed) {h : Nat}
    (hlength : (LoopUpdate.counters update ++ base).length = h) (n : Nat) :
    Follows (Vars.Level ns (LoopUpdate.counters update ++ base))
      (Eval.iterate (Eval.pass c (update.map (LoopUpdate.folded b)) h body) n)
      (fun m => Eval.iterate (Eval.pass (c' m) (update.map (LoopUpdate.folded !b)) h (body' m))
        ((c' m).passes + 1)) fun _ => Vars.Above ns base := by
  refine Follows.iterate ((Follows.pass hc hit hupdate hbody hlength).mono (fun _ h => h) ?_)
    (fun m => .pass (hidles m)) n ?_
  · intro flow vs h
    cases flow with
    | none => exact h
    | some flow => exact h.of_suffix (List.suffix_append _ _)
  · exact fun k => ⟨k, fun m hm => by rw [hc.passes]; exact Nat.le_succ_of_le hm⟩

end

section

variable {c : EvalContext} {c' : Nat → EvalContext} {b : Bool}

mutual

/-- Of the two versions of a statement the one follows the other. -/
theorem Stmt.follows (hc : c.Leads ns c') (hit : implicitName ∉ ns) : ∀ (s : Stmt) (k : Nat)
    (base : List Text), s.foldsNumbrs ns = true →
    Follows (Vars.Above ns base) ((s.folded b).eval c k) (fun m => (s.folded !b).eval (c' m) k)
      fun _ => Vars.Above ns base
  | .assign _ target value, k, base, h => by
    simp only [Stmt.foldsNumbrs, Bool.and_eq_true, Bool.or_eq_true, decide_eq_true_eq] at h
    rw [Stmt.folded_assign, Stmt.folded_assign]
    refine (value.follows hc hit (fun _ h => h.numbrs) h.1).andThen fun v hv => ?_
    exact (Follows.writes fun hmem => hv (h.2.resolve_left (not_not_intro hmem))).bind fun _ =>
      .pure fun _ h => h
  | .declare _ name initial, k, base, h => by
    simp only [Stmt.foldsNumbrs, Bool.and_eq_true, Bool.or_eq_true, decide_eq_true_eq] at h
    rw [Stmt.folded_declare, Stmt.folded_declare]
    refine (initial.follows hc hit (fun _ h => h.numbrs) h.1).andThen fun v hv => ?_
    exact (Follows.declares fun hmem => hv (h.2.resolve_left (not_not_intro hmem))).bind fun _ =>
      .pure fun _ h => h
  | .load _ _, k, base, _ => by
    rw [Stmt.folded_load, Stmt.folded_load]
    exact .pure fun _ h => h
  | .define _ name params body, k, base, h => by
    simp only [Stmt.foldsNumbrs, Bool.and_eq_true, decide_eq_true_eq] at h
    simp only [Stmt.folded_define, Stmt.eval, hc.address]
    refine Follows.tick.bind fun _ => Follows.give.andThen fun v _ => ?_
    exact (Follows.declares fun hmem => absurd hmem h.1.1).bind fun _ => .pure fun _ h => h
  | .expr _ value, k, base, h => by
    rw [Stmt.folded_expr, Stmt.folded_expr]
    refine (value.follows hc hit (fun _ h => h.numbrs) h).andThen fun v _ => Follows.tick.bind fun _ => ?_
    let write : EvalState → EvalState := fun st => { st with implicit := v }
    exact (Follows.of_modify (f := write) (fun _ _ => rfl) fun _ h => h).bind fun _ =>
      .pure fun _ h => h
  | .switch _ arms otherwise, k, base, h => by
    simp only [Stmt.foldsNumbrs, Bool.and_eq_true] at h
    simp only [Stmt.folded_switch, Stmt.eval, Arm.definitionsAll_folded]
    refine .of_height fun vs hvs => ?_
    have hdefault := Block.follows hc hit otherwise (k + Arm.definitionsAll arms) vs.names h.2
    refine ((Arm.follows_switch hc hit arms k vs.names false hdefault h.1).of_holds hvs.level.above).bind
      fun flow => ?_
    cases flow with
    | left =>
      exact (Follows.unwinds (List.length_map _)).bind fun _ => Follows.tick.bind fun _ =>
        .pure fun _ h => h.above.of_suffix hvs.names
    | next => exact .pure fun _ h => h.of_suffix hvs.names
    | found v span => exact .pure fun _ h => h.of_suffix hvs.names
  | .branch _ yes arms no, k, base, h => by
    simp only [Stmt.foldsNumbrs, Bool.and_eq_true] at h
    simp only [Stmt.folded_branch, Stmt.eval, Arm.definitionsAll_folded, Block.definitionsOption_folded]
    have hyes := Block.follows hc hit yes k base h.1.1
    refine Follows.readImplicit.bind fun v => Follows.operate.andThen fun t _ => ?_
    exact .ite (fun _ => hyes.goesOn (.pure fun _ h => h)) fun _ =>
      Arm.follows_branch hc hit arms _ base (Block.follows hc hit no _ base h.2) h.1.2
  | .cast _ name target, k, base, h => by
    simp only [Stmt.foldsNumbrs, Bool.or_eq_true, decide_eq_true_eq] at h
    rw [Stmt.folded_cast, Stmt.folded_cast]
    refine (hc.reads hit (fun _ h => h.numbrs) name).andThen fun v _ => Follows.perform.andThen
      fun w hw => ?_
    refine (Follows.writes fun hmem => ?_).bind fun _ => .pure fun _ h => h
    obtain ⟨heap, heap', hw⟩ := hw
    obtain rfl : target = .numbr := eq_of_beq (h.resolve_left (not_not_intro hmem))
    exact Value.isNumbr_of_cast hw
  | .leave _, k, base, _ => by
    rw [Stmt.folded_leave, Stmt.folded_leave]
    exact .pure fun _ h => h
  | .loop _ _ _ update (.mk _ body), k, base, h => by
    simp only [Stmt.foldsNumbrs, Block.foldsNumbrs, Bool.and_eq_true] at h
    simp only [Stmt.folded_loop, Block.folded_mk, Stmt.eval]
    refine .of_height fun vs hvs => (LoopUpdate.follows_start.of_holds hvs.level).bind fun _ => ?_
    refine .of_height fun vs' hvs' => ?_
    have hbody : ∀ base, Follows (Vars.Above ns base) _ _ _ := fun base =>
      Stmt.followsAll hc hit body k base h.2
    have hlength : (LoopUpdate.counters update ++ vs.names).length = vs'.length :=
      hvs'.names ▸ List.length_map _
    have hidles (m : Nat) := Stmt.idlesAll (c := c' m) (body.map (Stmt.folded !b)) k
    refine ((Follows.passes hc hit h.1 hbody hidles hlength _).of_holds hvs').bind fun flow => ?_
    cases flow with
    | next =>
      exact (Follows.unwinds (List.length_map _)).bind fun _ =>
        .pure fun _ h => h.above.of_suffix hvs.names
    | left => exact .pure fun _ h => h.of_suffix hvs.names
    | found v span => exact .pure fun _ h => h.of_suffix hvs.names
  | .ret _ value, k, base, h => by
    rw [Stmt.folded_ret, Stmt.folded_ret]
    exact (value.follows hc hit (fun _ h => h.numbrs) h).andThen fun _ _ => .pure fun _ h => h
  | .print _ args newline, k, base, h => by
    simp only [Stmt.folded_print, Stmt.eval, hc.settings]
    exact (follows_printed hc hit (fun _ h => h.numbrs) h).bind fun _ => Follows.print.bind fun _ =>
      .pure fun _ h => h
  | .read _ target, k, base, h => by
    simp only [Stmt.folded_read, Stmt.eval, hc.settings]
    refine Follows.readLine.bind fun v => ?_
    exact (Follows.writes fun hmem => absurd hmem (of_decide_eq_true h)).bind fun _ =>
      .pure fun _ h => h
  | .append _ target value, k, base, h => by
    rw [Stmt.folded_append, Stmt.folded_append]
    refine (hc.reads hit (fun _ h => h.numbrs) target).andThen fun _ _ => ?_
    exact (value.follows hc hit (fun _ h => h.numbrs) h).andThen fun _ _ =>
      Follows.perform.andThen fun _ _ => .pure fun _ h => h
  | .store _ target index value, k, base, h => by
    simp only [Stmt.foldsNumbrs, Bool.and_eq_true] at h
    rw [Stmt.folded_store, Stmt.folded_store]
    refine (hc.reads hit (fun _ h => h.numbrs) target).andThen fun _ _ => ?_
    refine (index.follows hc hit (fun _ h => h.numbrs) h.1).andThen fun _ _ => ?_
    exact (value.follows hc hit (fun _ h => h.numbrs) h.2).andThen fun _ _ =>
      Follows.perform.andThen fun _ _ => .pure fun _ h => h

theorem Stmt.followsAll (hc : c.Leads ns c') (hit : implicitName ∉ ns) : ∀ (ss : List Stmt) (k : Nat)
    (base : List Text), Stmt.foldsNumbrsAll ns ss = true →
    Follows (Vars.Above ns base) (Stmt.evalAll c k (ss.map (Stmt.folded b)))
      (fun m => Stmt.evalAll (c' m) k (ss.map (Stmt.folded !b))) fun _ => Vars.Above ns base
  | [], k, base, _ => .pure fun _ h => h
  | s :: ss, k, base, h => by
    simp only [Stmt.foldsNumbrsAll, Bool.and_eq_true] at h
    simp only [List.map_cons, Stmt.evalAll, Stmt.definitions_folded]
    refine (Stmt.follows hc hit s k base h.1).bind fun flow => ?_
    cases flow with
    | next => exact Stmt.followsAll hc hit ss _ base h.2
    | left => exact .pure fun _ h => h
    | found v span => exact .pure fun _ h => h

theorem Block.follows (hc : c.Leads ns c') (hit : implicitName ∉ ns) : ∀ (block : Option Block)
    (k : Nat) (base : List Text), Block.foldsNumbrsOption ns block = true →
    Follows (Vars.Above ns base) (Block.evalOption c k (block.map (Block.folded b)))
      (fun m => Block.evalOption (c' m) k (block.map (Block.folded !b))) fun _ => Vars.Above ns base
  | none, k, base, _ => .pure fun _ h => h
  | some (.mk _ body), k, base, h => by
    simp only [Option.map_some, Block.folded_mk, Block.evalOption]
    exact .inBlockAbove fun base => Stmt.followsAll hc hit body k base h

/-- The arms of a switch. -/
theorem Arm.follows_switch (hc : c.Leads ns c') (hit : implicitName ∉ ns) : ∀ (arms : List Arm)
    (k : Nat) (base : List Text) (entered : Bool) {default : Eval Flow} {default' : Nat → Eval Flow},
    Follows (Vars.Above ns base) default default' (fun _ => Vars.Above ns base) →
    Arm.foldsNumbrsAll ns arms = true →
    Follows (Vars.Above ns base) (Arm.evalSwitch c k entered default (arms.map (Arm.folded b)))
      (fun m => Arm.evalSwitch (c' m) k entered (default' m) (arms.map (Arm.folded !b)))
      fun _ => Vars.Above ns base
  | [], k, base, entered, _, _, hdefault, _ => hdefault
  | .mk test (.mk _ body) :: arms, k, base, entered, _, _, hdefault, h => by
    simp only [Arm.foldsNumbrsAll, Block.foldsNumbrs, Bool.and_eq_true] at h
    simp only [List.map_cons, Arm.folded_mk, Block.folded_mk, Arm.evalSwitch, Expr.span_folded,
      Stmt.definitionsAll_folded]
    have hblock : Follows (Vars.Above ns base) _ _ _ := Follows.inBlockAbove fun base =>
      Stmt.followsAll hc hit body k base h.1.2
    have hnext := Arm.follows_switch hc hit arms (k + Stmt.definitionsAll body) base true hdefault h.2
    have hother := Arm.follows_switch hc hit arms (k + Stmt.definitionsAll body) base false hdefault h.2
    refine .ite (fun _ => ?_) fun _ => ?_
    · exact (Follows.pure (a := true) fun _ h => h).bind fun _ =>
        .ite (fun _ => hblock.goesOn hnext) fun _ => hother
    · refine Follows.readImplicit.bind fun it => ?_
      refine (test.follows hc hit (fun _ h => h.numbrs) h.1.1).andThen fun v _ => ?_
      refine Follows.operate.andThen fun enter _ => Follows.tick.bind fun _ => ?_
      exact (Follows.pure (a := enter) fun _ h => h).bind fun _ =>
        .ite (fun _ => hblock.goesOn hnext) fun _ => hother

/-- The further arms of a branch. -/
theorem Arm.follows_branch (hc : c.Leads ns c') (hit : implicitName ∉ ns) : ∀ (arms : List Arm)
    (k : Nat) (base : List Text) {no : Eval Flow} {no' : Nat → Eval Flow},
    Follows (Vars.Above ns base) no no' (fun _ => Vars.Above ns base) →
    Arm.foldsNumbrsAll ns arms = true →
    Follows (Vars.Above ns base) (Arm.evalBranch c k no (arms.map (Arm.folded b)))
      (fun m => Arm.evalBranch (c' m) k (no' m) (arms.map (Arm.folded !b))) fun _ => Vars.Above ns base
  | [], k, base, _, _, hno, _ => hno
  | .mk test (.mk _ body) :: arms, k, base, _, _, hno, h => by
    simp only [Arm.foldsNumbrsAll, Block.foldsNumbrs, Bool.and_eq_true] at h
    simp only [List.map_cons, Arm.folded_mk, Block.folded_mk, Arm.evalBranch, Expr.span_folded,
      Stmt.definitionsAll_folded]
    refine (test.follows hc hit (fun _ h => h.numbrs) h.1.1).andThen fun v _ => ?_
    have hblock : Follows (Vars.Above ns base) _ _ _ := Follows.inBlockAbove fun base =>
      Stmt.followsAll hc hit body k base h.1.2
    exact Follows.operate.andThen fun t _ => .ite (fun _ => hblock.goesOn (.pure fun _ h => h))
      fun _ => Arm.follows_branch hc hit arms _ base hno h.2

end

end

end LolToolchain
