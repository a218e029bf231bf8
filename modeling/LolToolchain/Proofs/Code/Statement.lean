import LolToolchain.Proofs.Code.Expression

/-!
The code of statements. `Moves` is `Computes` for parts that change the variables; `Executes` is for
statements, which can be left in three ways. What follows each of them is given by `Follows`: the
code behind the statement, the code of `GTFO` wherever it is met, and a return wherever it is met.
-/
namespace LolToolchain

open Effect Snapshot Eval

namespace Site

variable (e : Site) {α β : Type}

/-- The code from `a` on does what `x` does, with nothing but variables below. -/
def Moves (ns : Names) (pre : List Value) (a : Nat) (x : Eval α) (ns' : Names) (stop : α → Nat)
    (post : α → List Value) : Prop :=
  ∀ st k, st.HasNames ns → st.steps ≤ e.context.passes →
    (∀ r st', st'.HasNames ns' → st'.steps ≤ st.steps →
      e.Shows (stop r) (post r) st' (k r st')) →
    e.Shows a pre st (conclude (x st) k)

/-- What follows a statement that has at most `n` steps left. `around` are the names that are left
when the innermost construct is left. -/
structure Follows (exit : Exit) (around : List Text) (ns : Names) (b n : Nat)
    (k : Flow → EvalState → Observation) : Prop where
  next : ∀ st : EvalState, st.HasNames ns → st.steps ≤ n → e.Shows b [] st (k .next st)
  left : ∀ (st : EvalState) (ms : Names) (span : Span) (p q : Nat),
    exit.Placed e.chunk ms span p q → around <:+ ms.texts → st.HasNames ms → st.steps ≤ n →
    e.Shows p [] st (k .left st)
  found : ∀ (v : Value) (span : Span) (st : EvalState) (p q : Nat),
    e.chunk.Has .ret 0 span p q → st.steps ≤ n → e.Shows p [v] st (k (.found v span) st)

/-- The code from `a` to `b` does what a statement does. -/
def Executes (exit : Exit) (around : List Text) (ns : Names) (pre : List Value) (a : Nat)
    (x : Eval Flow) (ns' : Names) (b : Nat) : Prop :=
  ∀ st k, st.HasNames ns → st.steps ≤ e.context.passes →
    e.Follows exit around ns' b st.steps k → e.Shows a pre st (conclude (x st) k)

variable {e} {ns ns' ms : Names} {pre : List Value} {a b m : Nat} {s : Span} {v : Value}
variable {exit : Exit} {around : List Text}

theorem Computes.moves {x : Eval α} {stop : α → Nat} {post : α → List Value}
    (h : e.Computes ns pre a x stop post) : e.Moves ns pre a x ns stop post := by
  intro st k hn hs hk
  have hshow := h [] st k hn hs fun r st' hn' hs' => ?_
  · rwa [List.append_nil] at hshow
  · rw [List.append_nil]
    exact hk r st' hn' hs'

theorem Moves.bind {x : Eval α} {f : α → Eval β} {stop : α → Nat} {post : α → List Value}
    {stop' : β → Nat} {post' : β → List Value} (h : e.Moves ns pre a x ms stop post)
    (hf : ∀ r, e.Moves ms (post r) (stop r) (f r) ns' stop' post') :
    e.Moves ns pre a (x >>= f) ns' stop' post' := by
  intro st k hn hs hk
  rw [conclude_bind]
  refine h st _ hn hs fun r st' hn' hs' => ?_
  refine hf r st' k hn' (Nat.le_trans hs' hs) fun r' st'' hn'' hs'' => ?_
  exact hk r' st'' hn'' (Nat.le_trans hs'' hs')

theorem Follows.mono {n n' : Nat} {k : Flow → EvalState → Observation}
    (h : e.Follows exit around ns b n k) (hn : n' ≤ n) : e.Follows exit around ns b n' k where
  next st hnames hs := h.next st hnames (Nat.le_trans hs hn)
  left st ms span p q hp ha hnames hs := h.left st ms span p q hp ha hnames (Nat.le_trans hs hn)
  found v span st p q hr hs := h.found v span st p q hr (Nat.le_trans hs hn)

theorem Moves.executes {x : Eval α} {f : α → Eval Flow} {stop : α → Nat} {post : α → List Value}
    (h : e.Moves ns pre a x ms stop post)
    (hf : ∀ r, e.Executes exit around ms (post r) (stop r) (f r) ns' b) :
    e.Executes exit around ns pre a (x >>= f) ns' b := by
  intro st k hn hs hk
  rw [conclude_bind]
  refine h st _ hn hs fun r st' hn' hs' => ?_
  exact hf r st' k hn' (Nat.le_trans hs' hs) (hk.mono hs')

theorem Computes.executes {x : Eval α} {f : α → Eval Flow} {stop : α → Nat}
    {post : α → List Value} (h : e.Computes ns pre a x stop post)
    (hf : ∀ r, e.Executes exit around ns (post r) (stop r) (f r) ns' b) :
    e.Executes exit around ns pre a (x >>= f) ns' b :=
  h.moves.executes hf

/-- What is known about the names does not matter to the code. -/
theorem Executes.congr {x : Eval Flow} (h : e.Executes exit around ns pre a x ns' b)
    (hns : ns.texts = ms.texts) : e.Executes exit around ms pre a x ns' b :=
  fun st k hn => h st k (hn.trans hns.symm)

theorem Executes.next (h : ns.texts = ns'.texts) :
    e.Executes exit around ns [] a (pure .next) ns' a := by
  intro st k hn hs hk
  exact hk.next st (hn.trans h) (Nat.le_refl _)

theorem Executes.left (h : exit.Placed e.chunk ns s a m) (ha : around <:+ ns.texts) :
    e.Executes exit around ns [] a (pure .left) ns' b := by
  intro st k hn hs hk
  exact hk.left st ns s a m h ha hn (Nat.le_refl _)

theorem Executes.found (h : e.chunk.Has .ret 0 s a m) :
    e.Executes exit around ns [v] a (pure (.found v s)) ns' b := by
  intro st k hn hs hk
  exact hk.found v s st a m h (Nat.le_refl _)

theorem Executes.height {f : Nat → Eval Flow}
    (h : e.Executes exit around ns pre a (f ns.length) ns' b) :
    e.Executes exit around ns pre a (Eval.height >>= f) ns' b := by
  intro st k hn hs hk
  have hheight : Eval.height st = (.ok ns.length, st) := by
    rw [← hn.length]
    rfl
  rw [conclude_bind, hheight]
  exact h st k hn hs hk

/-- A statement and what is done when it is left to the next one. -/
theorem Executes.andThen {x : Eval Flow} {g : Flow → Eval Flow}
    (hx : e.Executes exit around ns pre a x ms m) (hleft : g .left = pure .left)
    (hfound : ∀ v s, g (.found v s) = pure (.found v s))
    (hnext : e.Executes exit around ms [] m (g .next) ns' b) :
    e.Executes exit around ns pre a (x >>= g) ns' b := by
  intro st k hn hs hk
  rw [conclude_bind]
  refine hx st _ hn hs ⟨fun st' hn' hs' => ?_, fun st' ls span p q hp ha hn' hs' => ?_,
    fun v span st' p q hr hs' => ?_⟩
  · exact hnext st' k hn' (Nat.le_trans hs' hs) (hk.mono hs')
  · rw [hleft]
    exact hk.left st' ls span p q hp ha hn' hs'
  · rw [hfound]
    exact hk.found v span st' p q hr hs'

theorem Moves.declare (name : Text) (f : Option Nat) :
    e.Moves ns [v] a (declare name v) ((name, f) :: ns) (fun _ => a) fun _ => [] := by
  intro st k hn hs hk
  refine hk () { st with vars := (name, v) :: st.vars } ?_ (Nat.le_refl _)
  exact congrArg (name :: ·) hn

theorem Executes.setImplicit (h : e.chunk.Has .writeIt 0 s a b) :
    e.Executes exit around ns [v] a
      (do tick; modify fun st => { st with implicit := v }; return .next) ns b := by
  intro st k hn hs hk
  simp only [conclude_bind, conclude_modify, conclude_pure]
  refine Shows.tick (Steps.of_has e.quiet h (Action.Does.writeIt rfl)) fun n hsteps => ?_
  exact hk.next { st with steps := n, implicit := v } hn (by simp only; omega)

theorem Moves.unwind {h : Nat} (hp : e.chunk.HasPops (ns.length - h) s a b) (hle : h ≤ ns.length) :
    e.Moves ns [] a (unwind h) (ns.keep h) (fun _ => b) fun _ => [] := by
  intro st k hn hs hk
  have hlen := hn.length
  simp only [Eval.unwind, conclude_bind, conclude_get]
  by_cases hz : ns.length = h
  · have hz' : st.vars.length = h := by omega
    rw [Chunk.HasPops, if_pos (by omega)] at hp
    rw [if_pos hz', conclude_pure]
    subst hp
    refine hk () st ?_ (Nat.le_refl _)
    rw [Names.keep, hz, Nat.sub_self, List.drop_zero]
    exact hn
  · have hz' : ¬ st.vars.length = h := by omega
    rw [Chunk.HasPops, if_neg (by omega), ← hlen] at hp
    obtain ⟨op, hop, hi⟩ := hp
    rw [if_neg hz', conclude_bind]
    have hstack : (e.snapshot b [] st).stack =
        (st.vars.take (st.vars.length - h)).map Prod.snd ++
          ((st.vars.drop (st.vars.length - h)).map Prod.snd ++ e.below) := by
      rw [← List.append_assoc, ← List.map_append, List.take_append_drop]
      rfl
    refine Shows.tick (Steps.of_has e.quiet hi (Action.Does.pops hop rfl hstack ?_ ?_))
      fun n hsteps => ?_
    · rw [List.length_map, List.length_take]
      omega
    · simp [e.base]
    · refine hk () (EvalState.cut { st with steps := n } h) ?_ (by simp only [EvalState.cut]; omega)
      rw [EvalState.HasNames, EvalState.cut, List.map_drop, hn, hlen, Names.keep, Names.texts,
        Names.texts, List.map_drop]

/-- The end of a block that has been entered with some variables. -/
theorem Executes.block {body : Eval Flow} (hbody : e.Executes exit around ns [] a body ms m)
    (hsuffix : ns.texts <:+ ms.texts) (hp : e.chunk.HasPops (ms.length - ns.length) s m b) :
    e.Executes exit around ns [] a (inBlock body) (ms.keep ns.length) b := by
  have hle : ns.length ≤ ms.length := by simpa using hsuffix.length_le
  refine Executes.height (Executes.andThen hbody rfl (fun _ _ => rfl) ?_)
  exact (Moves.unwind hp hle).executes fun _ => Executes.next rfl

/-- A construct that can be left: then the variables since its start are dropped. -/
theorem Executes.catch {x : Eval Flow} {g : Flow → Eval Flow} {h target : Nat}
    (hx : e.Executes (.to h target) ns.texts ns [] a x ms m) (hh : ns.length = h)
    (hleft : g .left = do unwind h; tick; return .next)
    (hfound : ∀ v s, g (.found v s) = pure (.found v s))
    (hnext : e.Executes exit around ms [] m (g .next) ns' target) (htexts : ns.texts = ns'.texts) :
    e.Executes exit around ns [] a (x >>= g) ns' target := by
  intro st k hn hs hk
  rw [conclude_bind]
  refine hx st _ hn hs ⟨fun st' hn' hs' => ?_, fun st' ls span p q hp ha hn' hs' => ?_,
    fun v span st' p q hr hs' => ?_⟩
  · exact hnext st' k hn' (Nat.le_trans hs' hs) (hk.mono hs')
  · obtain ⟨p', hpops, hjump⟩ := hp
    have hle : h ≤ ls.length := by
      have := ha.length_le
      simp only [Names.length_texts] at this
      omega
    have hkeep : (ls.keep h).texts = ns'.texts := by
      rw [← hh, Names.texts_keep ha, htexts]
    have hrun : e.Executes exit around ls [] p (g .left) ns' target := by
      rw [hleft]
      refine (Moves.unwind hpops hle).executes fun _ => ?_
      exact (Computes.jump hjump).executes fun _ => Executes.next hkeep
    exact hrun st' k hn' (Nat.le_trans hs' hs) (hk.mono hs')
  · rw [hfound]
    exact hk.found v span st' p q hr hs'

end Site

open Site

variable {e : Site} {ns ns' ms : Names} {a b m exit : Nat}

private theorem LoopTest.computes {test : LoopTest}
    (h : test.Placed e.chunk e.context.outer ns exit a b) :
    e.Computes ns [] a (test.eval e.context) (fun r => if r then b else exit) fun _ => [] := by
  cases test with
  | forever => exact .pure true h.symm rfl
  | untilTrue x =>
    obtain ⟨m₁, m₂, hx, hnot, hjump⟩ := h
    refine (x.computes e hx).bind fun v => ?_
    have hoperate : e.Computes ns [v] m₁ (operate x.span v.truthy) (fun _ => m₂)
        fun r => [.troof !r] := by
      refine Computes.operate fun ts st _ => ?_
      have hg := Goes.of_has (x := e.snapshot m₁ ([v] ++ ts) st) e.quiet hnot
        (Action.performs_unary UnaryOp.not.apply rfl)
      change Goes _ _ _ _ (UnaryOp.not.apply st.heap v) _ at hg
      simp only [UnaryOp.apply] at hg
      cases ht : v.truthy st.heap <;> rw [ht] at hg <;> exact hg
    refine hoperate.bind fun r => (Computes.branch hjump).bind fun _ => ?_
    exact .pure (!r) rfl rfl
  | whileTrue x =>
    obtain ⟨m, hx, hjump⟩ := h
    exact (x.computes e hx).bind fun v => Computes.test hjump

namespace LoopUpdate

variable {update : Option LoopUpdate} {slot : Nat}

private theorem computes_test (h : TestAt e.chunk e.context.outer ns exit a b update) :
    e.Computes ns [] a (evalTest e.context update) (fun r => if r then b else exit)
      fun _ => [] := by
  cases update with
  | none => exact .pure true h.symm rfl
  | some u => exact LoopTest.computes h

private theorem computes_advance {u : LoopUpdate} (hl : ns.length = slot + 1)
    (h : u.Placed e.chunk e.context.outer ns slot a b) :
    e.Computes ns [] a (u.advance e.context) (fun _ => b) fun _ => [] := by
  obtain ⟨m, hset, hchange⟩ := h
  unfold advance
  cases hu : u.change with
  | up =>
    rw [hu] at hchange
    obtain ⟨m₁, m₂, hread, hone, hadd⟩ := hchange
    refine (Computes.newest hl hread).bind fun v => ?_
    refine ((Computes.constantTick hone).frame [v]).bind fun _ => ?_
    refine (Computes.binary (f := fun _ => Arithmetic.add.eval) hadd fun _ => rfl).bind fun r => ?_
    exact .setNewest hl hset
  | down =>
    rw [hu] at hchange
    obtain ⟨m₁, m₂, hread, hone, hsub⟩ := hchange
    refine (Computes.newest hl hread).bind fun v => ?_
    refine ((Computes.constantTick hone).frame [v]).bind fun _ => ?_
    refine (Computes.binary (f := fun _ => Arithmetic.sub.eval) hsub fun _ => rfl).bind fun r => ?_
    exact .setNewest hl hset
  | apply f =>
    rw [hu] at hchange
    obtain ⟨m₁, m₂, hf, hread, hcall⟩ := hchange
    refine (Computes.readName hf).bind fun callee => ?_
    refine ((Computes.newest hl hread).frame [callee]).bind fun v => ?_
    refine (Computes.invoke hcall).bind fun r => ?_
    exact .setNewest hl hset

private theorem computes_change (hl : update.isSome → ns.length = slot + 1)
    (h : ChangeAt e.chunk e.context.outer ns slot a b update) :
    e.Computes ns [] a (evalChange e.context update) (fun _ => b) fun _ => [] := by
  cases update with
  | none => exact .pure () h.symm rfl
  | some u => exact computes_advance (hl rfl) h

private theorem moves_start (h : StartAt e.chunk a b update) :
    e.Moves ns [] a (start update) (names update ns) (fun _ => b) fun _ => [] := by
  cases update with
  | none =>
    have hnothing : e.Computes ns [] a (pure ()) (fun _ => b) fun _ => [] := .pure () h.symm rfl
    exact hnothing.moves
  | some u => exact (Computes.give h).moves.bind fun v => Moves.declare u.counter.name none

end LoopUpdate

/-- The code of a loop from its test on: `inner` are the names at the start of a pass, `after` those
at the end of the body. -/
structure LoopAt (e : Site) (update : Option LoopUpdate) (body : Eval Flow) (inner after : Names)
    (start beyond : Nat) : Prop where
  intro ::
  placed : ∃ m₁ m₂ m₃ m₄ slot s,
    LoopUpdate.TestAt e.chunk e.context.outer inner beyond start m₁ update ∧
    e.Executes (.to inner.length beyond) inner.texts inner [] m₁ body after m₂ ∧
    e.chunk.HasPops (after.length - inner.length) s m₂ m₃ ∧
    LoopUpdate.ChangeAt e.chunk e.context.outer (after.keep inner.length) slot m₃ m₄ update ∧
    (update.isSome → inner.length = slot + 1) ∧
    e.chunk.HasJump .jump start s m₄ beyond
  suffix : inner.texts <:+ after.texts

variable {update : Option LoopUpdate} {body : Eval Flow} {inner after : Names} {start beyond : Nat}
variable {out : Exit} {around : List Text}

/-- One pass of a loop. If there is another one, a step has been paid for it. -/
private theorem LoopAt.pass (h : LoopAt e update body inner after start beyond) {st : EvalState}
    {k : Option Flow → EvalState → Observation} (hn : st.HasNames inner)
    (hs : st.steps ≤ e.context.passes)
    (hagain : ∀ st' : EvalState, st'.HasNames inner → st'.steps < st.steps →
      e.Shows start [] st' (k none st'))
    (hbeyond : ∀ st' : EvalState, st'.HasNames inner → st'.steps ≤ st.steps →
      e.Shows beyond [] st' (k (some .next) st'))
    (hfound : ∀ (v : Value) (span : Span) (st' : EvalState) (p q : Nat),
      e.chunk.Has .ret 0 span p q → st'.steps ≤ st.steps →
      e.Shows p [v] st' (k (some (.found v span)) st')) :
    e.Shows start [] st (conclude (Eval.pass e.context update inner.length body st) k) := by
  obtain ⟨m₁, m₂, m₃, m₄, slot, s, htest, hbody, hpops, hchange, hslot, hjump⟩ := h.placed
  have hkeep := Names.texts_keep h.suffix
  simp only [Eval.pass, conclude_bind]
  refine (LoopUpdate.computes_test htest).moves st _ hn hs fun r st₁ hn₁ hs₁ => ?_
  have hle₁ := Nat.le_trans hs₁ hs
  cases r with
  | false => exact hbeyond st₁ hn₁ hs₁
  | true =>
    simp only [Bool.not_true, Bool.false_eq_true, if_false, if_true, conclude_bind]
    refine Executes.block hbody h.suffix hpops st₁ _ hn₁ hle₁
      ⟨fun st₂ hn₂ hs₂ => ?_, fun st₂ ls span p q hp ha hn₂ hs₂ => ?_,
        fun v span st₂ p q hr hs₂ => ?_⟩
    · have hlen : update.isSome → (after.keep inner.length).length = slot + 1 := by
        intro hu
        rw [← Names.length_texts, hkeep, Names.length_texts, hslot hu]
      simp only [conclude_bind]
      refine (LoopUpdate.computes_change hlen hchange).moves st₂ _ hn₂ (by omega)
        fun _ st₃ hn₃ hs₃ => ?_
      refine Shows.tick (Steps.of_has e.quiet hjump.1 (Action.Does.jump hjump.2)) fun n hsteps => ?_
      exact hagain { st₃ with steps := n } (hn₃.trans hkeep) (by simp only; omega)
    · obtain ⟨p', hpops', hjump'⟩ := hp
      have hle : inner.length ≤ ls.length := by simpa using ha.length_le
      simp only [conclude_bind]
      refine Moves.unwind hpops' hle st₂ _ hn₂ (by omega) fun _ st₃ hn₃ hs₃ => ?_
      refine (Computes.jump hjump').moves st₃ _ hn₃ (by omega) fun _ st₄ hn₄ hs₄ => ?_
      exact hbeyond st₄ (hn₄.trans (Names.texts_keep ha)) (by omega)
    · exact hfound v span st₂ p q hr (by omega)

/-- A loop. The steps that are left bound the number of passes. -/
private theorem LoopAt.iterate (h : LoopAt e update body inner after start beyond) (n : Nat)
    {st : EvalState} {k : Flow → EvalState → Observation} (hn : st.HasNames inner)
    (hs : st.steps ≤ e.context.passes) (hlt : st.steps < n)
    (hk : e.Follows out around inner beyond st.steps k) :
    e.Shows start [] st
      (conclude (Eval.iterate (Eval.pass e.context update inner.length body) n st) k) := by
  induction n generalizing st with
  | zero => omega
  | succ n ih =>
    simp only [Eval.iterate, conclude_bind]
    refine h.pass hn hs (fun st' hn' hs' => ?_) hk.next hk.found
    exact ih hn' (by omega) (by omega) (hk.mono (by omega))

private theorem LoopAt.executes (h : LoopAt e update body inner after start beyond) :
    e.Executes out around inner [] start
      (Eval.iterate (Eval.pass e.context update inner.length body) (e.context.passes + 1)) inner
      beyond := by
  intro st k hn hs hk
  exact h.iterate _ hn hs (by omega) hk

variable (e)

mutual

/-- The code of a statement does what the statement does. -/
theorem Stmt.executes : ∀ (s : Stmt) {exit : Exit} {around : List Text} {k : Nat} {ns : Names}
    {a b : Nat}, s.Placed e.chunk e.context.address e.context.outer exit k ns a b →
    around <:+ ns.texts →
    e.Executes exit around ns [] a (s.eval e.context k) (s.names e.context.address k ns) b
  | .assign _ target value, _, _, _, ns, _, _, h, _ => by
    obtain ⟨m, hv, hw⟩ := h
    refine (value.computes e hv).executes fun v => (Computes.writeName hw).executes fun _ => ?_
    exact Executes.next (Names.texts_written target.name ns).symm
  | .declare _ name _, _, _, _, _, _, _, h, _ =>
    (Initial.computes e h).executes fun _ => (Moves.declare name.name none).executes fun _ =>
      Executes.next rfl
  | .load _ _, _, _, _, _, _, _, h, _ => by
    obtain rfl := h
    exact Executes.next rfl
  | .define _ name _ (.mk _ _), _, _, k, _, _, _, h, _ => by
    obtain ⟨m₁, m₂, m₃, hjump, -, -, -, hv⟩ := h
    refine (Computes.jump hjump).executes fun _ => (Computes.give hv).executes fun v => ?_
    exact (Moves.declare name.name (some (e.context.address k))).executes fun _ => Executes.next rfl
  | .expr _ value, _, _, _, _, _, _, h, _ => by
    obtain ⟨m, hv, hw⟩ := h
    exact (value.computes e hv).executes fun v => Executes.setImplicit hw
  | .switch _ arms otherwise, _, _, k, ns, _, _, h, _ => by
    obtain ⟨entry, m, harms, hdefault⟩ := h
    have htexts := Arm.texts_namesAll e.context.address arms k ns
    have haround : ns.texts <:+ (Arm.namesAll e.context.address k arms ns).texts := by
      rewrite [htexts]
      exact List.suffix_rfl
    have hotherwise := Block.executesOption otherwise hdefault haround
    have harms' := Arm.executesSwitch arms harms List.suffix_rfl hotherwise
    refine Executes.height (Executes.catch harms'.1 rfl rfl (fun _ _ => rfl) (Executes.next rfl) ?_)
    rw [Stmt.names, Block.texts_namesOption, htexts]
  | .branch s yes arms no, _, around, k, ns, _, _, h, ha => by
    obtain ⟨m₁, m₂, m₃, next, m₄, hit, htest, hyes, hjump, harms, hno⟩ := h
    have hyes_texts := Block.texts_namesOption e.context.address yes k ns
    have harms_texts := Arm.texts_namesAll e.context.address arms (k + Block.definitionsOption yes)
      (Block.namesOption e.context.address k yes ns)
    have hnames : (Stmt.names e.context.address k (.branch s yes arms no) ns).texts = ns.texts := by
      rw [Stmt.names, Block.texts_namesOption, harms_texts, hyes_texts]
    refine (Computes.readImplicit hit).executes fun v => (Computes.test htest).executes fun r => ?_
    cases r with
    | true =>
      refine Executes.andThen (Block.executesOption yes hyes ha) rfl (fun _ _ => rfl) ?_
      exact (Computes.jump hjump).executes fun _ => Executes.next (hyes_texts.trans hnames.symm)
    | false =>
      rw [← hyes_texts, ← harms_texts] at ha
      have hno' := Block.executesOption no hno ha
      rw [harms_texts, hyes_texts] at ha
      have hbranch := Arm.executesBranch arms harms (by rw [hyes_texts]; exact ha) hno'
        (by rw [Block.texts_namesOption, harms_texts])
      exact hbranch.congr hyes_texts
  | .cast _ name _, _, _, _, ns, _, _, h, _ => by
    obtain ⟨m₁, m₂, hr, hc, hw⟩ := h
    refine (Computes.readName hr).executes fun v => (Computes.cast hc).executes fun r => ?_
    refine (Computes.writeName hw).executes fun _ => ?_
    exact Executes.next (Names.texts_written name.name ns).symm
  | .leave _, _, _, _, _, _, _, h, ha => Executes.left h ha
  | .loop _ _ _ update (.mk _ body), _, _, k, ns, _, _, h, ha => by
    obtain ⟨start, m₁, m₂, m₃, m₄, beyond, hstart, htest, hbody, hpops, hchange, hjump, hdrop⟩ := h
    have hsuffix := Stmt.suffix_namesAll e.context.address body k (LoopUpdate.names update ns)
    have hcounter : ns.texts <:+ (LoopUpdate.names update ns).texts := by
      rw [LoopUpdate.names, Names.texts, Names.texts, List.map_append]
      exact List.suffix_append _ _
    have hslot : update.isSome → (LoopUpdate.names update ns).length = ns.length + 1 := by
      intro hu
      obtain ⟨u, rfl⟩ := Option.isSome_iff_exists.1 hu
      rfl
    have hloop : LoopAt e update (Stmt.evalAll e.context k body) (LoopUpdate.names update ns)
        (Stmt.namesAll e.context.address k body (LoopUpdate.names update ns)) start beyond :=
      ⟨⟨m₁, m₂, m₃, m₄, ns.length, _, htest, Stmt.executesAll body hbody List.suffix_rfl, hpops,
        hchange, hslot, hjump⟩, hsuffix⟩
    have hkeep := Names.texts_keep (hcounter.trans hsuffix)
    have hle : ns.length ≤ (LoopUpdate.names update ns).length := by simpa using hcounter.length_le
    refine Executes.height ((LoopUpdate.moves_start hstart).executes fun _ => Executes.height ?_)
    refine Executes.andThen hloop.executes rfl (fun _ _ => rfl) ?_
    refine (Moves.unwind hdrop hle).executes fun _ => Executes.next ?_
    rw [Names.texts_keep hcounter, Stmt.names]
    exact hkeep.symm
  | .ret _ value, _, _, _, _, _, _, h, _ => by
    obtain ⟨m, hv, hr⟩ := h
    exact (value.computes e hv).executes fun v => Executes.found hr
  | .print _ _ _, _, _, _, _, _, _, h, _ => by
    obtain ⟨m, hv, hp⟩ := h
    refine (computes_printed e hv).executes fun v => (Computes.print hp).executes fun _ => ?_
    exact Executes.next rfl
  | .read _ target, _, _, _, ns, _, _, h, _ => by
    obtain ⟨m, hr, hw⟩ := h
    refine (Computes.readLine hr).executes fun v => (Computes.writeName hw).executes fun _ => ?_
    exact Executes.next (Names.texts_written target.name ns).symm
  | .append _ _ value, _, _, _, _, _, _, h, _ => by
    obtain ⟨m₁, m₂, ht, hv, hi⟩ := h
    refine (Computes.readName ht).executes fun t => ?_
    refine ((value.computes e hv).frame [t]).executes fun v => ?_
    exact (Computes.append hi).executes fun _ => Executes.next rfl
  | .store _ _ index value, _, _, _, _, _, _, h, _ => by
    obtain ⟨m₁, m₂, m₃, ht, hx, hv, hi⟩ := h
    refine (Computes.readName ht).executes fun t => ?_
    refine ((index.computes e hx).frame [t]).executes fun i => ?_
    refine ((value.computes e hv).frame [i, t]).executes fun v => ?_
    exact (Computes.store hi).executes fun _ => Executes.next rfl

theorem Stmt.executesAll : ∀ (ss : List Stmt) {exit : Exit} {around : List Text} {k : Nat}
    {ns : Names} {a b : Nat},
    Stmt.PlacedAll e.chunk e.context.address e.context.outer exit k ss ns a b →
    around <:+ ns.texts →
    e.Executes exit around ns [] a (Stmt.evalAll e.context k ss)
      (Stmt.namesAll e.context.address k ss ns) b
  | [], _, _, _, _, _, _, h, _ => by
    obtain rfl := h
    exact Executes.next rfl
  | s :: ss, _, _, k, ns, _, _, h, ha => by
    obtain ⟨m, hs, hss⟩ := h
    have ha' := ha.trans (s.suffix_names e.context.address k ns)
    exact Executes.andThen (s.executes hs ha) rfl (fun _ _ => rfl) (Stmt.executesAll ss hss ha')

theorem Block.executesOption : ∀ (block : Option Block) {exit : Exit} {around : List Text}
    {k : Nat} {s : Span} {ns : Names} {a b : Nat},
    Block.PlacedOption e.chunk e.context.address e.context.outer exit k s block ns a b →
    around <:+ ns.texts →
    e.Executes exit around ns [] a (Block.evalOption e.context k block)
      (Block.namesOption e.context.address k block ns) b
  | none, _, _, _, _, _, _, _, h, _ => by
    obtain rfl := h
    exact Executes.next rfl
  | some (.mk _ body), _, _, k, _, ns, _, _, h, ha => by
    obtain ⟨m, hbody, hpops⟩ := h
    have hsuffix := Stmt.suffix_namesAll e.context.address body k ns
    exact Executes.block (Stmt.executesAll body hbody ha) hsuffix hpops

theorem Arm.executesSwitch : ∀ (arms : List Arm) {exit : Exit} {around : List Text} {k : Nat}
    {s : Span} {ns ns' : Names} {a entry m b : Nat} {default : Eval Flow},
    Arm.PlacedSwitch e.chunk e.context.address e.context.outer exit k s arms ns a entry m →
    around <:+ ns.texts →
    e.Executes exit around (Arm.namesAll e.context.address k arms ns) [] m default ns' b →
    e.Executes exit around ns [] a (Arm.evalSwitch e.context k false default arms) ns' b ∧
      e.Executes exit around ns [] entry (Arm.evalSwitch e.context k true default arms) ns' b
  | [], _, _, _, _, _, _, _, _, _, _, _, h, _, hdefault => by
    obtain ⟨rfl, rfl⟩ := h
    exact ⟨hdefault, hdefault⟩
  | .mk test (.mk _ body) :: arms, _, _, k, _, ns, _, _, _, _, _, _, h, ha, hdefault => by
    obtain ⟨m₁, m₂, m₃, m₄, m₅, next, entry', hit, htest, heq, hbranch, hbody, hpops, hjump,
      harms⟩ := h
    have hsuffix := Stmt.suffix_namesAll e.context.address body k ns
    have hkeep := Names.texts_keep hsuffix
    have harms' := Arm.executesSwitch arms harms (by rw [hkeep]; exact ha) hdefault
    -- the body, from which the arms behind it are entered
    have hrun := Executes.block (Stmt.executesAll body hbody ha) hsuffix hpops
    refine ⟨?_, ?_⟩
    · refine (Computes.readImplicit hit).executes fun v => ?_
      refine ((test.computes e htest).frame [v]).executes fun w => ?_
      refine (Computes.equal heq).executes fun r => (Computes.branch hbranch).executes fun _ => ?_
      cases r with
      | true =>
        refine Executes.andThen hrun rfl (fun _ _ => rfl) ?_
        exact (Computes.jump hjump).executes fun _ => harms'.2
      | false => exact harms'.1.congr hkeep
    · refine Executes.andThen hrun rfl (fun _ _ => rfl) ?_
      exact (Computes.jump hjump).executes fun _ => harms'.2

theorem Arm.executesBranch : ∀ (arms : List Arm) {exit : Exit} {around : List Text} {k : Nat}
    {s : Span} {beyond : Nat} {ns ns' : Names} {a m : Nat} {no : Eval Flow},
    Arm.PlacedBranch e.chunk e.context.address e.context.outer exit k s beyond arms ns a m →
    around <:+ ns.texts →
    e.Executes exit around (Arm.namesAll e.context.address k arms ns) [] m no ns' beyond →
    ns'.texts = ns.texts →
    e.Executes exit around ns [] a (Arm.evalBranch e.context k no arms) ns' beyond
  | [], _, _, _, _, _, _, _, _, _, _, h, _, hno, _ => by
    obtain rfl := h
    exact hno
  | .mk test (.mk _ body) :: arms, _, _, k, _, _, ns, _, _, _, _, h, ha, hno, hns => by
    obtain ⟨m₁, m₂, m₃, m₄, next, htest, hbranch, hbody, hpops, hjump, harms⟩ := h
    have hsuffix := Stmt.suffix_namesAll e.context.address body k ns
    have hkeep := Names.texts_keep hsuffix
    refine (test.computes e htest).executes fun v => (Computes.test hbranch).executes fun r => ?_
    cases r with
    | true =>
      have hrun := Executes.block (Stmt.executesAll body hbody ha) hsuffix hpops
      refine Executes.andThen hrun rfl (fun _ _ => rfl) ?_
      exact (Computes.jump hjump).executes fun _ => Executes.next (hkeep.trans hns.symm)
    | false =>
      have harms' := Arm.executesBranch arms harms (by rw [hkeep]; exact ha) hno
        (hns.trans hkeep.symm)
      exact harms'.congr hkeep

end

end LolToolchain
