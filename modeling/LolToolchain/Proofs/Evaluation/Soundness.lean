import LolToolchain.Proofs.Effect
import LolToolchain.Proofs.Evaluation.Validity

/-!
Evaluation keeps values valid. A step of it starts in a valid state, ends in one, and stops for no
other reason than one that is allowed; from the steps the same follows for whole runs.
-/
namespace LolToolchain

/-- All values of the state are valid. -/
structure EvalState.Valid (l : Linked) (st : EvalState) : Prop where
  heap : Heap.Valid l st.heap
  implicit : st.implicit.Valid l st.heap.size
  vars : ∀ x ∈ st.vars, x.2.Valid l st.heap.size

def Flow.Valid (l : Linked) (n : Nat) : Flow → Prop
  | .found v _ => v.Valid l n
  | _ => True

theorem Flow.Valid.mono {l : Linked} {n m : Nat} {flow : Flow} (h : flow.Valid l n) (hle : n ≤ m) :
    flow.Valid l m := by
  cases flow with
  | found v span => exact Value.Valid.mono h hle
  | _ => trivial

theorem EvalState.assign?_valid {l : Linked} {n : Nat} {name : Text} {v : Value}
    (hv : v.Valid l n) : ∀ {xs ys : List (Text × Value)}, (∀ x ∈ xs, x.2.Valid l n) →
    assign? name v xs = some ys → ∀ y ∈ ys, y.2.Valid l n
  | [], _, _, h => by cases h
  | x :: xs, ys, hxs, h => by
    obtain ⟨hx, hrest⟩ := List.forall_mem_cons.1 hxs
    rw [assign?] at h
    split at h
    · cases h
      exact List.forall_mem_cons.2 ⟨hv, hrest⟩
    · obtain ⟨zs, hzs, rfl⟩ := Option.map_eq_some_iff.1 h
      exact List.forall_mem_cons.2 ⟨hx, assign?_valid hv hrest hzs⟩

/-- What a part of an evaluation gives when there are `n` lists at least. -/
def Eval.Sound {α : Type} (l : Linked) (allowed : Fault → Prop) (n : Nat) (x : Eval α)
    (Q : Nat → α → Prop) : Prop :=
  ∀ st : EvalState, st.Valid l → n ≤ st.heap.size →
    match x st with
    | (.ok a, st') => st'.Valid l ∧ st.heap.size ≤ st'.heap.size ∧ Q st'.heap.size a
    | (.error e, _) => ∀ f span, e = some (.failed f span) → allowed f

namespace Eval.Sound

variable {α β : Type} {l : Linked} {allowed : Fault → Prop} {n : Nat}
variable {Q : Nat → α → Prop} {R : Nat → β → Prop}

theorem pure {a : α} (h : ∀ m, n ≤ m → Q m a) : Sound l allowed n (pure a) Q :=
  fun _ hst hn => ⟨hst, Nat.le_refl _, h _ hn⟩

theorem bind {x : Eval α} {f : α → Eval β} (hx : Sound l allowed n x Q)
    (hf : ∀ a m, n ≤ m → Q m a → Sound l allowed m (f a) R) : Sound l allowed n (x >>= f) R := by
  intro st hst hn
  have hrun := hx st hst hn
  rw [Effect.run_bind]
  obtain ⟨r, st', hr⟩ : ∃ r st', x st = (r, st') := ⟨_, _, rfl⟩
  rw [hr] at hrun ⊢
  cases r with
  | error e => exact hrun
  | ok a =>
    obtain ⟨hst', hle, ha⟩ := hrun
    have hrest := hf a _ (Nat.le_trans hn hle) ha st' hst' (Nat.le_refl _)
    rw [Effect.andThen_ok]
    obtain ⟨s, st'', hs⟩ : ∃ s st'', f a st' = (s, st'') := ⟨_, _, rfl⟩
    rw [hs] at hrest ⊢
    cases s with
    | error e => exact hrest
    | ok b => exact ⟨hrest.1, Nat.le_trans hle hrest.2.1, hrest.2.2⟩

theorem of_le {x : Eval α} {m : Nat} (h : Sound l allowed n x Q) (hle : n ≤ m) :
    Sound l allowed m x Q :=
  fun st hst hm => h st hst (Nat.le_trans hle hm)

theorem stuck : Sound l allowed n (throw (some .stuck) : Eval α) Q :=
  fun _ _ _ _ _ h => by cases h

theorem spent : Sound l allowed n (throw none : Eval α) Q :=
  fun _ _ _ _ _ h => by cases h

theorem fail {f : Fault} {span : Span} (hf : allowed f) :
    Sound l allowed n (Eval.fail f span : Eval α) Q := by
  intro st _ _ g s h
  cases h
  exact hf

theorem tick : Sound l allowed n Eval.tick fun _ _ => True := by
  intro st hst _
  obtain ⟨vars, implicit, heap, input, output, steps⟩ := st
  cases steps with
  | zero => exact fun f s h => by cases h
  | succ steps => exact ⟨⟨hst.heap, hst.implicit, hst.vars⟩, Nat.le_refl _, trivial⟩

/-- A step that looks at the state. -/
theorem get {f : EvalState → Eval β}
    (h : ∀ st : EvalState, st.Valid l → n ≤ st.heap.size →
      Sound l allowed st.heap.size (f st) R) : Sound l allowed n (get >>= f) R := by
  intro st hst hn
  rw [Effect.run_bind, Effect.run_get, Effect.andThen_ok]
  exact h st hst hn st hst (Nat.le_refl _)

theorem modify {f : EvalState → EvalState}
    (h : ∀ st : EvalState, st.Valid l → n ≤ st.heap.size →
      (f st).Valid l ∧ st.heap.size ≤ (f st).heap.size) :
    Sound l allowed n (modify f : Eval Unit) fun _ _ => True := by
  intro st hst hn
  rw [Effect.run_modify]
  exact ⟨(h st hst hn).1, (h st hst hn).2, trivial⟩

/-- An operation on lists. -/
theorem perform {span : Span} {f : Heap → Except Fault (α × Heap)}
    (h : ∀ heap, Heap.Valid l heap → n ≤ heap.size → Allows allowed
      (fun r => Q r.2.size r.1 ∧ Heap.Valid l r.2 ∧ heap.size ≤ r.2.size) (f heap)) :
    Sound l allowed n (Eval.perform span f) Q := by
  refine tick.bind fun _ m hm _ => ?_
  intro st hst hn
  have hf := h st.heap hst.heap (Nat.le_trans hm hn)
  rw [Effect.run_bind, Effect.run_get, Effect.andThen_ok]
  cases hr : f st.heap with
  | error e =>
    rw [hr] at hf
    intro g s hg
    cases hg
    exact hf
  | ok r =>
    rw [hr] at hf
    obtain ⟨hQ, hheap, hle⟩ := hf
    exact ⟨⟨hheap, hst.implicit.mono hle, fun x hx => (hst.vars x hx).mono hle⟩, hle, hQ⟩

/-- An operation that leaves the lists as they are. -/
theorem operate {span : Span} {f : Heap → Except Fault α}
    (h : ∀ heap, Heap.Valid l heap → n ≤ heap.size → Allows allowed (Q heap.size) (f heap)) :
    Sound l allowed n (Eval.operate span f) Q :=
  perform fun heap hheap hn => (h heap hheap hn).map fun _ ha => ⟨ha, hheap, Nat.le_refl _⟩

theorem give {v : Value} (hv : v.Valid l n) :
    Sound l allowed n (Eval.give v) fun m v => v.Valid l m :=
  tick.bind fun _ _ hm _ => .pure fun _ hm' => hv.mono (Nat.le_trans hm hm')

theorem readImplicit : Sound l allowed n Eval.readImplicit fun m v => v.Valid l m :=
  tick.bind fun _ _ _ _ => .get fun _ hst _ => .pure fun _ hm => hst.implicit.mono hm

theorem height : Sound l allowed n Eval.height fun _ _ => True :=
  .get fun _ _ _ => .pure fun _ _ => trivial

theorem declare {name : Text} {v : Value} (hv : v.Valid l n) :
    Sound l allowed n (Eval.declare name v) fun _ _ => True := by
  refine .modify fun st hst hn => ⟨⟨hst.heap, hst.implicit, ?_⟩, Nat.le_refl _⟩
  exact List.forall_mem_cons.2 ⟨hv.mono hn, hst.vars⟩

theorem unwind (h : Nat) : Sound l allowed n (Eval.unwind h) fun _ _ => True := by
  refine .get fun st _ _ => ?_
  split
  · exact .pure fun _ _ => trivial
  · refine tick.bind fun _ _ _ _ => .modify fun st hst _ => ⟨⟨hst.heap, hst.implicit, ?_⟩,
      Nat.le_refl _⟩
    exact fun x hx => hst.vars x (List.mem_of_mem_drop hx)

theorem newest : Sound l allowed n Eval.newest fun m v => v.Valid l m := by
  refine tick.bind fun _ _ _ _ => .get fun st hst _ => ?_
  cases hvars : st.vars with
  | nil => exact .stuck
  | cons x xs =>
    have hx := hst.vars x (by rw [hvars]; exact List.mem_cons_self)
    exact .pure fun _ hm => hx.mono hm

theorem setNewest {v : Value} (hv : v.Valid l n) :
    Sound l allowed n (Eval.setNewest v) fun _ _ => True := by
  refine tick.bind fun _ m hm _ => ?_
  intro st hst hn
  rw [Effect.run_bind, Effect.run_get, Effect.andThen_ok]
  obtain ⟨vars, implicit, heap, input, output, steps⟩ := st
  cases vars with
  | nil => exact fun f s h => by cases h
  | cons x xs =>
    refine ⟨⟨hst.heap, hst.implicit, ?_⟩, Nat.le_refl _, trivial⟩
    exact List.forall_mem_cons.2
      ⟨hv.mono (Nat.le_trans hm hn), fun y hy => hst.vars y (List.mem_cons_of_mem _ hy)⟩

theorem readLine (hallowed : ∀ f, f.isInternal = false → allowed f) (s : Settings) (span : Span) :
    Sound l allowed n (Eval.readLine s span) fun m v => v.Valid l m := by
  refine tick.bind fun _ m hm _ => ?_
  cases s.inputFault with
  | some cause => exact .fail (hallowed _ rfl)
  | none =>
    intro st hst hn
    exact ⟨⟨hst.heap, hst.implicit, hst.vars⟩, Nat.le_refl _, trivial⟩

theorem print (hallowed : ∀ f, f.isInternal = false → allowed f) {s : Settings} {span : Span}
    {v : Value} {newline : Bool} (hv : v.Valid l n) :
    Sound l allowed n (Eval.print s span v newline) fun _ _ => True := by
  have htext : Sound l allowed n (Eval.operate span v.text) fun _ _ => True :=
    operate fun heap hheap hn => Value.allows_text hallowed hheap (hv.mono hn)
  refine htext.bind fun t _ _ _ => ?_
  cases s.outputFault with
  | some cause => exact .fail (hallowed _ rfl)
  | none => exact .modify fun st hst _ => ⟨⟨hst.heap, hst.implicit, hst.vars⟩, Nat.le_refl _⟩

theorem iterate {pass : Eval (Option Flow)}
    (h : Sound l allowed n pass fun m flow => ∀ f ∈ flow, f.Valid l m) : ∀ count : Nat,
    Sound l allowed n (Eval.iterate pass count) fun m flow => flow.Valid l m
  | 0 => .spent
  | count + 1 => by
    refine h.bind fun flow m hm hflow => ?_
    cases flow with
    | some flow => exact .pure fun m' hm' => (hflow flow rfl).mono hm'
    | none => exact (iterate h count).of_le hm

theorem inBlock {body : Eval Flow} (h : Sound l allowed n body fun m flow => flow.Valid l m) :
    Sound l allowed n (Eval.inBlock body) fun m flow => flow.Valid l m := by
  refine height.bind fun _ _ hm _ => (h.of_le hm).bind fun flow _ _ hflow => ?_
  cases flow with
  | next => exact (unwind _).bind fun _ _ _ _ => .pure fun _ _ => trivial
  | left => exact .pure fun _ _ => trivial
  | found v span => exact .pure fun _ hm' => hflow.mono hm'

end Eval.Sound

/-- What holds of everything that is fixed for one call: the functions that can be reached are those
of the program, and calling them is sound. -/
structure EvalContext.Closed (c : EvalContext) (allowed : Fault → Prop) (total : Nat) : Prop where
  allows : ∀ f, f.isInternal = false → allowed f
  defined : ∀ j < total, (c.function? (Int64.ofNat (c.address j))).isSome = true
  outer : ∀ ns ∈ c.outer, ns.Known c.address total
  call : ∀ f ∈ c.functions, ∀ args n, (∀ v ∈ args, v.Valid c.toLinked n) →
    Eval.Sound c.toLinked allowed n (c.call f args) fun m v => v.Valid c.toLinked m

namespace EvalContext.Closed

variable {c : EvalContext} {allowed : Fault → Prop} {total n : Nat}

theorem functionValue (h : c.Closed allowed total) {j : Nat} (hj : j < total) (n : Nat) :
    (functionValue (c.address j)).Valid c.toLinked n :=
  h.defined j hj

theorem readName (h : c.Closed allowed total) (id : Ident) :
    Eval.Sound c.toLinked allowed n (Eval.readName c id) fun m v => v.Valid c.toLinked m := by
  refine Eval.Sound.tick.bind fun _ _ _ _ => .get fun st hst _ => ?_
  split
  · exact .pure fun _ hm => hst.implicit.mono hm
  · cases hlookup : st.vars.lookup id.name with
    | some v =>
      obtain ⟨l₁, l₂, hvars, -⟩ := List.lookup_eq_some_iff.1 hlookup
      have hv := hst.vars (id.name, v) (by rw [hvars]; simp)
      exact .pure fun _ hm => hv.mono hm
    | none =>
      cases hf : Names.function? id.name c.outer with
      | none => exact .stuck
      | some address =>
        obtain ⟨j, hj, rfl⟩ := Names.Known.function? h.outer hf
        exact .pure fun m _ => h.functionValue hj m

theorem writeName (id : Ident) {v : Value} (hv : v.Valid c.toLinked n) :
    Eval.Sound c.toLinked allowed n (Eval.writeName id v) fun _ _ => True := by
  refine Eval.Sound.tick.bind fun _ m hm _ => ?_
  intro st hst hn
  have hv' := hv.mono (Nat.le_trans hm hn)
  rw [Effect.run_bind, Effect.run_get, Effect.andThen_ok, Effect.run_ite]
  by_cases hit : id.name = implicitName
  · rw [if_pos hit]
    exact ⟨⟨hst.heap, hv', hst.vars⟩, Nat.le_refl _, trivial⟩
  · rw [if_neg hit]
    cases hvars : EvalState.assign? id.name v st.vars with
    | none => exact fun f s h => by cases h
    | some vars =>
      refine ⟨⟨hst.heap, hst.implicit, ?_⟩, Nat.le_refl _, trivial⟩
      exact EvalState.assign?_valid hv' hst.vars hvars

theorem invoke (h : c.Closed allowed total) {span : Span} {callee : Value} {args : List Value}
    (hcallee : callee.Valid c.toLinked n) (hargs : ∀ v ∈ args, v.Valid c.toLinked n) :
    Eval.Sound c.toLinked allowed n (Eval.invoke c span callee args)
      fun m v => v.Valid c.toLinked m := by
  refine Eval.Sound.tick.bind fun _ m hm _ => ?_
  cases callee with
  | funkshon offset =>
    obtain ⟨f, hf⟩ := Option.isSome_iff_exists.1 hcallee
    have hmem : f ∈ c.functions := List.mem_of_find?_eq_some hf
    simp only [hf]
    split
    · exact .fail (h.allows _ rfl)
    · split
      · exact .fail (h.allows _ rfl)
      · exact h.call f hmem args m fun v hv => (hargs v hv).mono hm
  | interp | unknown => exact hcallee.elim
  | _ => exact .fail (h.allows _ rfl)

end EvalContext.Closed

section

variable {c : EvalContext} {allowed : Fault → Prop} {total : Nat}

private theorem Splice.soundAll (h : c.Closed allowed total) : ∀ (ss : List Splice) {n : Nat},
    Eval.Sound c.toLinked allowed n (evalAll c ss) fun m vs => ∀ v ∈ vs, v.Valid c.toLinked m
  | [], _ => .pure fun _ _ => List.forall_mem_nil _
  | s :: ss, n => by
    refine (h.readName s.name).bind fun v m hm hv => ?_
    refine (soundAll h ss).bind fun vs m' hm' hvs => .pure fun m'' hm'' => ?_
    exact List.forall_mem_cons.2
      ⟨hv.mono (Nat.le_trans hm' hm''), fun w hw => (hvs w hw).mono hm''⟩

namespace Expr

mutual

/-- The value of an expression is valid. -/
theorem sound (h : c.Closed allowed total) : ∀ (x : Expr) {n : Nat},
    (∀ v ∈ x.literals, v.Literal allowed) →
    Eval.Sound c.toLinked allowed n (x.eval c) fun m v => v.Valid c.toLinked m
  | .int _ _, _, _ | .float _ _, _, _ | .string _ _, _, _ | .bool _ _, _, _ | .null _, _, _ =>
    .give trivial
  | .it _, _, _ => .readImplicit
  | .var _ id, _, _ => h.readName id
  | .interp s text splices, n, hlit => by
    refine (Splice.soundAll h splices).bind fun vs m hm hvs => ?_
    refine .operate fun heap hheap hle => ?_
    exact Splice.allows_fill h.allows hheap (fun v hv => (hvs v hv).mono hle)
      (hlit _ List.mem_cons_self)
  | .list s xs, n, hlit => by
    refine (soundAll h xs hlit).bind fun vs m hm hvs => ?_
    refine .perform fun heap hheap hle => ?_
    have helems : ∀ v ∈ vs.toArray, v.Valid c.toLinked heap.size := fun v hv =>
      (hvs v (by simpa using hv)).mono hle
    refine ⟨?_, hheap.push helems, ?_⟩
    · change heap.size < (heap.push vs.toArray).size
      rw [Array.size_push]
      exact Nat.lt_succ_self _
    · change heap.size ≤ (heap.push vs.toArray).size
      rw [Array.size_push]
      exact Nat.le_succ _
  | .call s id xs, n, hlit => by
    refine (h.readName id).bind fun f m hm hf => ?_
    refine (soundAll h xs hlit).bind fun vs m' hm' hvs => ?_
    exact h.invoke (hf.mono hm') hvs
  | .concat _ [], _, _ => .give trivial
  | .concat s [x], n, hlit => by
    have hempty : Eval.Sound c.toLinked allowed n (Eval.give (.yarn []))
        fun m v => v.Valid c.toLinked m := .give trivial
    refine hempty.bind fun v m hm hv => ?_
    refine (sound h x fun v hv => hlit v (List.mem_append_left _ hv)).bind fun w m' hm' hw => ?_
    exact .operate fun heap hheap hle =>
      Value.allows_joined h.allows hheap (hv.mono (Nat.le_trans hm' hle)) (hw.mono hle)
  | .concat s (x :: y :: ys), n, hlit => by
    obtain ⟨hx, hys⟩ := List.forall_mem_append.1 hlit
    refine (sound h x hx).bind fun v m hm hv => ?_
    exact soundEach h (fun hheap hv hw => Value.allows_joined h.allows hheap hv hw) (y :: ys) hv hys
  | .cast s x t, n, hlit => by
    refine (sound h x hlit).bind fun v m hm hv => ?_
    exact .perform fun heap hheap hle => Value.allows_cast h.allows hheap (hv.mono hle) t
  | .binary s op x y, n, hlit => by
    obtain ⟨hx, hy⟩ := List.forall_mem_append.1 hlit
    refine (sound h x hx).bind fun v m hm hv => (sound h y hy).bind fun w m' hm' hw => ?_
    exact .operate fun heap hheap hle =>
      op.allows_apply h.allows hheap (hv.mono (Nat.le_trans hm' hle)) (hw.mono hle)
  | .nary _ _ [], _, _ => .give trivial
  | .nary s _ [x], n, hlit => by
    refine (sound h x fun v hv => hlit v (List.mem_append_left _ hv)).bind fun v m hm hv => ?_
    exact .perform fun heap hheap hle => Value.allows_cast h.allows hheap (hv.mono hle) .troof
  | .nary s op (x :: y :: ys), n, hlit => by
    obtain ⟨hx, hys⟩ := List.forall_mem_append.1 hlit
    refine (sound h x hx).bind fun v m hm hv => ?_
    exact soundEach h (fun hheap hv hw => op.binary.allows_apply h.allows hheap hv hw) (y :: ys) hv
      hys
  | .unary s op x, n, hlit => by
    refine (sound h x hlit).bind fun v m hm hv => ?_
    exact .operate fun heap hheap hle => op.allows_apply h.allows hheap (hv.mono hle)
  | .pickAt s i x, n, hlit => by
    obtain ⟨hi, hx⟩ := List.forall_mem_append.1 hlit
    refine (sound h x hx).bind fun v m hm hv => (sound h i hi).bind fun w m' hm' _ => ?_
    exact .operate fun heap hheap hle =>
      Value.allows_pick h.allows hheap (fun _ => trivial) (hv.mono (Nat.le_trans hm' hle)).whole w
  | .pickFront s x, n, hlit => by
    refine (sound h x hlit).bind fun v m hm hv => ?_
    exact .operate fun heap hheap hle => Value.allows_pickEnd h.allows hheap (fun _ => trivial)
      (hv.mono hle).whole false
  | .pickBack s x, n, hlit => by
    refine (sound h x hlit).bind fun v m hm hv => ?_
    exact .operate fun heap hheap hle => Value.allows_pickEnd h.allows hheap (fun _ => trivial)
      (hv.mono hle).whole true

theorem soundAll (h : c.Closed allowed total) : ∀ (xs : List Expr) {n : Nat},
    (∀ v ∈ literalsAll xs, v.Literal allowed) →
    Eval.Sound c.toLinked allowed n (evalAll c xs) fun m vs => ∀ v ∈ vs, v.Valid c.toLinked m
  | [], _, _ => .pure fun _ _ => List.forall_mem_nil _
  | x :: xs, n, hlit => by
    obtain ⟨hx, hxs⟩ := List.forall_mem_append.1 hlit
    refine (sound h x hx).bind fun v m hm hv => ?_
    refine (soundAll h xs hxs).bind fun vs m' hm' hvs => .pure fun m'' hm'' => ?_
    exact List.forall_mem_cons.2
      ⟨hv.mono (Nat.le_trans hm' hm''), fun w hw => (hvs w hw).mono hm''⟩

theorem soundEach (h : c.Closed allowed total) {f : Heap → Value → Value → Except Fault Value}
    {s : Span} (hf : ∀ {heap : Heap} {v w : Value}, Heap.Valid c.toLinked heap →
      v.Valid c.toLinked heap.size → w.Valid c.toLinked heap.size →
      Allows allowed (fun u => u.Valid c.toLinked heap.size) (f heap v w)) :
    ∀ (xs : List Expr) {n : Nat} {v : Value}, v.Valid c.toLinked n →
    (∀ v ∈ literalsAll xs, v.Literal allowed) →
    Eval.Sound c.toLinked allowed n (evalEach c f s v xs) fun m v => v.Valid c.toLinked m
  | [], _, _, hv, _ => .pure fun _ hm => hv.mono hm
  | x :: xs, n, v, hv, hlit => by
    obtain ⟨hx, hxs⟩ := List.forall_mem_append.1 hlit
    refine (sound h x hx).bind fun w m hm hw => ?_
    have hop : Eval.Sound c.toLinked allowed m (Eval.operate s fun heap => f heap v w)
        fun m v => v.Valid c.toLinked m :=
      .operate fun heap hheap hle => hf hheap (hv.mono (Nat.le_trans hm hle)) (hw.mono hle)
    exact hop.bind fun u m' _ hu => soundEach h hf xs hu hxs

end

private theorem soundJoined (h : c.Closed allowed total) : ∀ (xs : List Expr) {n : Nat} {v : Value},
    v.Valid c.toLinked n → (∀ v ∈ literalsAll xs, v.Literal allowed) →
    Eval.Sound c.toLinked allowed n (evalJoined c v xs) fun m v => v.Valid c.toLinked m
  | [], _, _, hv, _ => .pure fun _ hm => hv.mono hm
  | x :: xs, n, v, hv, hlit => by
    obtain ⟨hx, hxs⟩ := List.forall_mem_append.1 hlit
    refine (x.sound h hx).bind fun w m hm hw => ?_
    have hop : Eval.Sound c.toLinked allowed m (Eval.operate x.span fun heap => v.joined heap w)
        fun m v => v.Valid c.toLinked m :=
      .operate fun heap hheap hle =>
        Value.allows_joined h.allows hheap (hv.mono (Nat.le_trans hm hle)) (hw.mono hle)
    exact hop.bind fun u m' _ hu => soundJoined h xs hu hxs

end Expr

theorem Initial.sound (h : c.Closed allowed total) {i : Initial} {n : Nat} {span : Span}
    (hlit : ∀ v ∈ i.literals, v.Literal allowed) :
    Eval.Sound c.toLinked allowed n (i.eval c span) fun m v => v.Valid c.toLinked m := by
  cases i with
  | absent => exact .give trivial
  | value e => exact e.sound h hlit
  | typed t =>
    rw [Initial.eval]
    refine .perform fun heap hheap hle => ?_
    cases t with
    | bukkit => exact Value.allows_cast (v := .noob) h.allows hheap trivial .bukkit
    | _ => exact ⟨trivial, hheap, Nat.le_refl _⟩

theorem sound_printed (h : c.Closed allowed total) {args : List Expr} {n : Nat}
    (hlit : ∀ v ∈ Expr.literalsAll args, v.Literal allowed) :
    Eval.Sound c.toLinked allowed n (evalPrinted c args) fun m v => v.Valid c.toLinked m := by
  cases args with
  | nil => exact .give trivial
  | cons x xs =>
    obtain ⟨hx, hxs⟩ := List.forall_mem_append.1 hlit
    exact (x.sound h hx).bind fun v m hm hv => Expr.soundJoined h xs hv hxs

theorem Eval.Sound.truthy {n : Nat} {v : Value} {span : Span}
    (hv : v.Valid c.toLinked n) :
    Eval.Sound c.toLinked allowed n (Eval.operate span v.truthy) fun _ _ => True :=
  .operate fun _ hheap hle => Value.allows_truthy hheap (hv.mono hle)

private theorem LoopTest.sound (h : c.Closed allowed total) {t : LoopTest} {n : Nat}
    (hlit : ∀ v ∈ t.literals, v.Literal allowed) :
    Eval.Sound c.toLinked allowed n (t.eval c) fun _ _ => True := by
  cases t with
  | forever => exact .pure fun _ _ => trivial
  | untilTrue e =>
    refine (e.sound h hlit).bind fun v m hm hv => (Eval.Sound.truthy hv).bind fun b _ _ _ => ?_
    exact Eval.Sound.tick.bind fun _ _ _ _ => .pure fun _ _ => trivial
  | whileTrue e => exact (e.sound h hlit).bind fun v m hm hv => .truthy hv

private theorem LoopUpdate.sound_advance (h : c.Closed allowed total) (u : LoopUpdate) {n : Nat} :
    Eval.Sound c.toLinked allowed n (u.advance c) fun _ _ => True := by
  have hstep : ∀ op : Arithmetic, Eval.Sound c.toLinked allowed n (do
      let v ← Eval.newest
      Eval.tick
      let v ← Eval.operate u.counter.span fun _ => op.eval v (.numbr 1)
      Eval.setNewest v) fun _ _ => True := by
    intro op
    refine Eval.Sound.newest.bind fun v _ _ _ => Eval.Sound.tick.bind fun _ _ _ _ => ?_
    have hop : ∀ {m}, Eval.Sound c.toLinked allowed m
        (Eval.operate u.counter.span fun _ => op.eval v (.numbr 1))
        fun m v => v.Valid c.toLinked m :=
      .operate fun heap _ _ => (Value.allows_arithmetic (Fault.allowed_of_isOfLanguage h.allows) op v _).mono fun _ hw =>
        Value.valid_of_isNumeric hw
    exact hop.bind fun w _ _ hw => .setNewest hw
  unfold LoopUpdate.advance
  cases u.change with
  | up => exact hstep .add
  | down => exact hstep .sub
  | apply f =>
    refine (h.readName f).bind fun callee m hm hcallee => Eval.Sound.newest.bind fun v m' hm' hv => ?_
    refine (h.invoke (hcallee.mono hm') ?_).bind fun w _ _ hw => .setNewest hw
    exact fun x hx => by
      obtain rfl := List.mem_singleton.1 hx
      exact hv

private theorem LoopUpdate.sound_test (h : c.Closed allowed total) {update : Option LoopUpdate} {n : Nat}
    (hlit : ∀ v ∈ LoopUpdate.literals update, v.Literal allowed) :
    Eval.Sound c.toLinked allowed n (LoopUpdate.evalTest c update) fun _ _ => True := by
  cases update with
  | none => exact .pure fun _ _ => trivial
  | some u => exact u.test.sound h hlit

private theorem LoopUpdate.sound_change (h : c.Closed allowed total) (update : Option LoopUpdate) {n : Nat} :
    Eval.Sound c.toLinked allowed n (LoopUpdate.evalChange c update) fun _ _ => True := by
  cases update with
  | none => exact .pure fun _ _ => trivial
  | some u => exact u.sound_advance h

private theorem LoopUpdate.sound_start (update : Option LoopUpdate) {n : Nat} :
    Eval.Sound c.toLinked allowed n (LoopUpdate.start update) fun _ _ => True := by
  cases update with
  | none => exact .pure fun _ _ => trivial
  | some u =>
    have hzero : Eval.Sound c.toLinked allowed n (Eval.give (.numbr 0))
        fun m v => v.Valid c.toLinked m := .give trivial
    exact hzero.bind fun v m _ hv => .declare hv

private theorem Eval.Sound.pass (h : c.Closed allowed total) {update : Option LoopUpdate} {height n : Nat}
    {body : Eval Flow} (hlit : ∀ v ∈ LoopUpdate.literals update, v.Literal allowed)
    (hbody : ∀ m, n ≤ m →
      Eval.Sound c.toLinked allowed m body fun m flow => flow.Valid c.toLinked m) :
    Eval.Sound c.toLinked allowed n (Eval.pass c update height body)
      fun m flow => ∀ f ∈ flow, f.Valid c.toLinked m := by
  refine (LoopUpdate.sound_test h hlit).bind fun b m hm _ => ?_
  split
  · exact .pure fun _ _ f hf => by cases hf; trivial
  · refine (Eval.Sound.inBlock (hbody m hm)).bind fun flow m' hm' hflow => ?_
    cases flow with
    | next =>
      refine (LoopUpdate.sound_change h update).bind fun _ _ _ _ => ?_
      exact Eval.Sound.tick.bind fun _ _ _ _ => .pure fun _ _ => nofun
    | left =>
      refine (Eval.Sound.unwind _).bind fun _ _ _ _ => Eval.Sound.tick.bind fun _ _ _ _ => ?_
      exact .pure fun _ _ f hf => by cases hf; trivial
    | found v span =>
      refine .pure fun m'' hm'' f hf => ?_
      cases hf
      exact hflow.mono hm''

mutual

/-- A statement keeps the state valid, and what it returns is valid. -/
theorem Stmt.sound (h : c.Closed allowed total) : ∀ (s : Stmt) {k n : Nat},
    k + s.definitions ≤ total → (∀ v ∈ s.literals, v.Literal allowed) →
    Eval.Sound c.toLinked allowed n (s.eval c k) fun m flow => flow.Valid c.toLinked m
  | .assign _ target value, k, n, _, hlit => by
    refine (value.sound h hlit).bind fun v _ _ hv => ?_
    exact (EvalContext.Closed.writeName target hv).bind fun _ _ _ _ => .pure fun _ _ => trivial
  | .declare s name initial, k, n, _, hlit => by
    refine (Initial.sound h hlit).bind fun v _ _ hv => ?_
    exact (Eval.Sound.declare hv).bind fun _ _ _ _ => .pure fun _ _ => trivial
  | .load _ _, _, _, _, _ => .pure fun _ _ => trivial
  | .define _ name _ (.mk _ body), k, n, hk, _ => by
    rw [Stmt.definitions] at hk
    refine Eval.Sound.tick.bind fun _ m _ _ => ?_
    refine (Eval.Sound.give (h.functionValue (by omega) m)).bind fun v _ _ hv => ?_
    exact (Eval.Sound.declare hv).bind fun _ _ _ _ => .pure fun _ _ => trivial
  | .expr _ value, k, n, _, hlit => by
    refine (value.sound h hlit).bind fun v m _ hv => Eval.Sound.tick.bind fun _ m' hm' _ => ?_
    have himplicit : Eval.Sound c.toLinked allowed m'
        (modify fun st => { st with implicit := v } : Eval Unit) fun _ _ => True :=
      .modify fun st hst hle => ⟨⟨hst.heap, hv.mono (Nat.le_trans hm' hle), hst.vars⟩, Nat.le_refl _⟩
    exact himplicit.bind fun _ _ _ _ => .pure fun _ _ => trivial
  | .switch _ arms otherwise, k, n, hk, hlit => by
    rw [Stmt.definitions] at hk
    obtain ⟨harms, hother⟩ := List.forall_mem_append.1 hlit
    refine Eval.Sound.height.bind fun height m _ _ => ?_
    have hdefault : ∀ m', m ≤ m' → Eval.Sound c.toLinked allowed m'
        (Block.evalOption c (k + Arm.definitionsAll arms) otherwise)
        fun m flow => flow.Valid c.toLinked m := fun m' _ =>
      Block.sound h otherwise (by omega) hother
    refine (Arm.soundSwitch h arms (by omega) harms hdefault).bind fun flow _ _ hflow => ?_
    cases flow with
    | left =>
      refine (Eval.Sound.unwind _).bind fun _ _ _ _ => Eval.Sound.tick.bind fun _ _ _ _ => ?_
      exact .pure fun _ _ => trivial
    | next => exact .pure fun _ _ => trivial
    | found v span => exact .pure fun _ hm => hflow.mono hm
  | .branch s yes arms no, k, n, hk, hlit => by
    rw [Stmt.definitions] at hk
    obtain ⟨hyes, hlit⟩ := List.forall_mem_append.1 hlit
    obtain ⟨harms, hno⟩ := List.forall_mem_append.1 hlit
    refine Eval.Sound.readImplicit.bind fun v _ _ hv => (Eval.Sound.truthy hv).bind fun b m _ _ => ?_
    split
    · refine (Block.sound h yes (by omega) hyes).bind fun flow _ _ hflow => ?_
      cases flow with
      | next => exact Eval.Sound.tick.bind fun _ _ _ _ => .pure fun _ _ => trivial
      | left => exact .pure fun _ _ => trivial
      | found v span => exact .pure fun _ hm => hflow.mono hm
    · exact Arm.soundBranch h arms (by omega) harms fun m' _ => Block.sound h no (by omega) hno
  | .cast s name target, k, n, _, _ => by
    refine (h.readName name).bind fun v m _ hv => ?_
    have hcast : Eval.Sound c.toLinked allowed m (Eval.perform s fun heap => v.cast heap target)
        fun m v => v.Valid c.toLinked m :=
      .perform fun heap hheap hle => Value.allows_cast h.allows hheap (hv.mono hle) target
    refine hcast.bind fun w _ _ hw => ?_
    exact (EvalContext.Closed.writeName name hw).bind fun _ _ _ _ => .pure fun _ _ => trivial
  | .leave _, _, _, _, _ => .pure fun _ _ => trivial
  | .loop _ _ _ update (.mk _ body), k, n, hk, hlit => by
    rw [Stmt.definitions] at hk
    obtain ⟨hupdate, hbody⟩ := List.forall_mem_append.1 hlit
    refine Eval.Sound.height.bind fun outside _ _ _ => ?_
    refine (LoopUpdate.sound_start update).bind fun _ _ _ _ => ?_
    refine Eval.Sound.height.bind fun inside m _ _ => ?_
    have hpass : Eval.Sound c.toLinked allowed m
        (Eval.pass c update inside (Stmt.evalAll c k body))
        fun m flow => ∀ f ∈ flow, f.Valid c.toLinked m :=
      Eval.Sound.pass h hupdate fun m' _ => Stmt.soundAll h body hk hbody
    refine (hpass.iterate _).bind fun flow _ _ hflow => ?_
    cases flow with
    | next => exact (Eval.Sound.unwind _).bind fun _ _ _ _ => .pure fun _ _ => trivial
    | left => exact .pure fun _ _ => trivial
    | found v span => exact .pure fun _ hm => hflow.mono hm
  | .ret s value, k, n, _, hlit =>
    (value.sound h hlit).bind fun v _ _ hv => .pure fun _ hm => hv.mono hm
  | .print s args newline, k, n, _, hlit => by
    refine (sound_printed h hlit).bind fun v _ _ hv => ?_
    exact (Eval.Sound.print h.allows hv).bind fun _ _ _ _ => .pure fun _ _ => trivial
  | .read s target, k, n, _, _ => by
    refine (Eval.Sound.readLine h.allows _ s).bind fun v _ _ hv => ?_
    exact (EvalContext.Closed.writeName target hv).bind fun _ _ _ _ => .pure fun _ _ => trivial
  | .append s target value, k, n, _, hlit => by
    refine (h.readName target).bind fun t _ _ ht => (value.sound h hlit).bind fun v m hm hv => ?_
    have happend : Eval.Sound c.toLinked allowed m
        (Eval.perform s fun heap => (t.append heap v).map ((), ·)) fun _ _ => True := by
      refine .perform fun heap hheap hle => ?_
      refine (Value.allows_append h.allows hheap (ht.mono (Nat.le_trans hm hle))
        (hv.mono hle)).map fun heap' hheap' => ?_
      exact ⟨trivial, hheap'.1, Nat.le_of_eq hheap'.2.symm⟩
    exact happend.bind fun _ _ _ _ => .pure fun _ _ => trivial
  | .store s target index value, k, n, _, hlit => by
    obtain ⟨hi, hx⟩ := List.forall_mem_append.1 hlit
    refine (h.readName target).bind fun t _ _ ht => (index.sound h hi).bind fun i m₁ hm₁ _ => ?_
    refine (value.sound h hx).bind fun v m hm hv => ?_
    have hstore : Eval.Sound c.toLinked allowed m
        (Eval.perform s fun heap => (t.store heap i v).map ((), ·)) fun _ _ => True := by
      refine .perform fun heap hheap hle => ?_
      have ht' := ht.mono (Nat.le_trans hm₁ (Nat.le_trans hm hle))
      refine (Value.allows_store h.allows hheap ht' i (hv.mono hle)).map fun heap' hheap' => ?_
      exact ⟨trivial, hheap'.1, Nat.le_of_eq hheap'.2.symm⟩
    exact hstore.bind fun _ _ _ _ => .pure fun _ _ => trivial

theorem Stmt.soundAll (h : c.Closed allowed total) : ∀ (ss : List Stmt) {k n : Nat},
    k + Stmt.definitionsAll ss ≤ total → (∀ v ∈ Stmt.literalsAll ss, v.Literal allowed) →
    Eval.Sound c.toLinked allowed n (Stmt.evalAll c k ss) fun m flow => flow.Valid c.toLinked m
  | [], _, _, _, _ => .pure fun _ _ => trivial
  | s :: ss, k, n, hk, hlit => by
    rw [Stmt.definitionsAll] at hk
    obtain ⟨hs, hss⟩ := List.forall_mem_append.1 hlit
    refine (Stmt.sound h s (by omega) hs).bind fun flow _ _ hflow => ?_
    cases flow with
    | next => exact Stmt.soundAll h ss (by omega) hss
    | left => exact .pure fun _ _ => trivial
    | found v span => exact .pure fun _ hm => hflow.mono hm

theorem Block.sound (h : c.Closed allowed total) : ∀ (block : Option Block) {k n : Nat},
    k + Block.definitionsOption block ≤ total →
    (∀ v ∈ Block.literalsOption block, v.Literal allowed) →
    Eval.Sound c.toLinked allowed n (Block.evalOption c k block)
      fun m flow => flow.Valid c.toLinked m
  | none, _, _, _, _ => .pure fun _ _ => trivial
  | some (.mk _ body), _, _, hk, hlit => (Stmt.soundAll h body hk hlit).inBlock

theorem Arm.soundSwitch (h : c.Closed allowed total) : ∀ (arms : List Arm) {k n : Nat}
    {entered : Bool} {default : Eval Flow}, k + Arm.definitionsAll arms ≤ total →
    (∀ v ∈ Arm.literalsAll arms, v.Literal allowed) →
    (∀ m, n ≤ m → Eval.Sound c.toLinked allowed m default
      fun m flow => flow.Valid c.toLinked m) →
    Eval.Sound c.toLinked allowed n (Arm.evalSwitch c k entered default arms)
      fun m flow => flow.Valid c.toLinked m
  | [], _, n, _, _, _, _, hdefault => hdefault n (Nat.le_refl n)
  | .mk test (.mk _ body) :: arms, k, n, entered, default, hk, hlit, hdefault => by
    rw [Arm.definitionsAll] at hk
    obtain ⟨htest, hlit⟩ := List.forall_mem_append.1 hlit
    obtain ⟨hbody, harms⟩ := List.forall_mem_append.1 hlit
    have hrest : ∀ m, n ≤ m → ∀ enter, Eval.Sound c.toLinked allowed m (if enter = true then do
          match ← Eval.inBlock (Stmt.evalAll c k body) with
          | .next =>
            Eval.tick
            Arm.evalSwitch c (k + Stmt.definitionsAll body) true default arms
          | flow => return flow
        else Arm.evalSwitch c (k + Stmt.definitionsAll body) false default arms)
        fun m flow => flow.Valid c.toLinked m := by
      intro m hm enter
      split
      · refine (Stmt.soundAll h body (by omega) hbody).inBlock.bind fun flow m' hm' hflow => ?_
        cases flow with
        | next =>
          refine Eval.Sound.tick.bind fun _ m'' hm'' _ => ?_
          exact Arm.soundSwitch h arms (by omega) harms fun m₁ hm₁ =>
            hdefault m₁ (Nat.le_trans hm (Nat.le_trans hm' (Nat.le_trans hm'' hm₁)))
        | left => exact .pure fun _ _ => trivial
        | found v span => exact .pure fun _ hm => hflow.mono hm
      · exact Arm.soundSwitch h arms (by omega) harms fun m₁ hm₁ =>
          hdefault m₁ (Nat.le_trans hm hm₁)
    cases entered with
    | true => exact hrest n (Nat.le_refl n) true
    | false =>
      refine Eval.Sound.readImplicit.bind fun it _ hm₁ _ => ?_
      refine (test.sound h htest).bind fun v m hm₂ _ => ?_
      have hequal : Eval.Sound c.toLinked allowed m
          (Eval.operate test.span fun _ => .ok (it.equal v)) fun _ _ => True :=
        .operate fun _ _ _ => trivial
      refine hequal.bind fun b _ hm₃ _ => Eval.Sound.tick.bind fun _ m' hm₄ _ => ?_
      exact hrest m' (Nat.le_trans hm₁ (Nat.le_trans hm₂ (Nat.le_trans hm₃ hm₄))) b

theorem Arm.soundBranch (h : c.Closed allowed total) : ∀ (arms : List Arm) {k n : Nat}
    {no : Eval Flow}, k + Arm.definitionsAll arms ≤ total →
    (∀ v ∈ Arm.literalsAll arms, v.Literal allowed) →
    (∀ m, n ≤ m → Eval.Sound c.toLinked allowed m no fun m flow => flow.Valid c.toLinked m) →
    Eval.Sound c.toLinked allowed n (Arm.evalBranch c k no arms)
      fun m flow => flow.Valid c.toLinked m
  | [], _, n, _, _, _, hno => hno n (Nat.le_refl n)
  | .mk test (.mk _ body) :: arms, k, n, no, hk, hlit, hno => by
    rw [Arm.definitionsAll] at hk
    obtain ⟨htest, hlit⟩ := List.forall_mem_append.1 hlit
    obtain ⟨hbody, harms⟩ := List.forall_mem_append.1 hlit
    refine (test.sound h htest).bind fun v m hm hv => (Eval.Sound.truthy hv).bind fun b m' hm' _ => ?_
    split
    · have hblock := (Stmt.soundAll h body (k := k) (n := m') (by omega) hbody).inBlock
      refine hblock.bind fun flow _ _ hflow => ?_
      cases flow with
      | next => exact Eval.Sound.tick.bind fun _ _ _ _ => .pure fun _ _ => trivial
      | left => exact .pure fun _ _ => trivial
      | found v span => exact .pure fun _ hm => hflow.mono hm
    · exact Arm.soundBranch h arms (by omega) harms fun m'' hm'' =>
        hno m'' (Nat.le_trans hm (Nat.le_trans hm' hm''))

end

private theorem Flow.sound_value {l : Linked} {n : Nat} {flow : Flow} (hflow : flow.Valid l n) :
    Eval.Sound l allowed n flow.value fun m v => v.Valid l m := by
  cases flow with
  | next =>
    refine Eval.Sound.readImplicit.bind fun v _ _ hv => Eval.Sound.tick.bind fun _ _ hm _ => ?_
    exact .pure fun _ hm' => hv.mono (Nat.le_trans hm hm')
  | left =>
    have hnoob : Eval.Sound l allowed n (Eval.give .noob) fun m v => v.Valid l m := .give trivial
    refine hnoob.bind fun v _ _ hv => Eval.Sound.tick.bind fun _ _ hm _ => ?_
    exact .pure fun _ hm' => hv.mono (Nat.le_trans hm hm')
  | found v span =>
    exact Eval.Sound.tick.bind fun _ _ hm _ => .pure fun _ hm' =>
      Value.Valid.mono hflow (Nat.le_trans hm hm')

end

/-- What holds of everything that is fixed for a run. -/
structure Linked.Closed (l : Linked) (allowed : Fault → Prop) (total : Nat) : Prop where
  allows : ∀ f, f.isInternal = false → allowed f
  defined : ∀ j < total, (l.function? (Int64.ofNat (l.address j))).isSome = true
  functions : ∀ f ∈ l.functions, f.Closed l.address total (Value.Literal allowed)

variable {l : Linked} {allowed : Fault → Prop} {total : Nat}

/-- Calls give valid values, however deep they are nested. -/
private theorem Function.sound_call (h : l.Closed allowed total) : ∀ (fuel depth : Nat),
    ∀ f ∈ l.functions, ∀ args n, (∀ v ∈ args, v.Valid l n) →
    Eval.Sound l allowed n (Function.call l fuel depth f args) fun m v => v.Valid l m
  | 0, _, _, _, _, _, _ => .spent
  | fuel + 1, depth, f, hf, args, n, hargs => by
    have hclosed := h.functions f hf
    have hbody : ∀ m, Eval.Sound l allowed m (do
        let flow ← Stmt.evalAll ⟨l, depth + 1, f.outer, fuel, Function.call l fuel (depth + 1)⟩
          f.first f.body
        flow.value) fun m v => v.Valid l m := by
      intro m
      have hc : EvalContext.Closed
          ⟨l, depth + 1, f.outer, fuel, Function.call l fuel (depth + 1)⟩ allowed total :=
        ⟨h.allows, h.defined, hclosed.outer, Function.sound_call h fuel (depth + 1)⟩
      exact (Stmt.soundAll hc f.body hclosed.bound hclosed.literals).bind fun flow _ _ hflow =>
        Flow.sound_value hflow
    intro st hst hn
    have hentered : EvalState.Valid l { st with vars := f.bind args, implicit := .noob } := by
      refine ⟨hst.heap, trivial, fun x hx => ?_⟩
      have hx' := List.mem_reverse.1 hx
      exact (hargs x.2 (List.of_mem_zip hx').2).mono hn
    have hrun := hbody _ _ hentered (Nat.le_refl _)
    rw [Effect.run_bind] at hrun
    unfold Function.call
    simp only [Effect.run_bind, Effect.run_get, Effect.run_set, Effect.andThen_ok]
    obtain ⟨r, st₁, hr⟩ : ∃ r st₁, Stmt.evalAll
        ⟨l, depth + 1, f.outer, fuel, Function.call l fuel (depth + 1)⟩ f.first f.body
        { st with vars := f.bind args, implicit := .noob } = (r, st₁) := ⟨_, _, rfl⟩
    rw [hr] at hrun ⊢
    cases r with
    | error e => exact hrun
    | ok flow =>
      rw [Effect.andThen_ok] at hrun ⊢
      rw [Effect.run_bind]
      obtain ⟨r, st₂, hr⟩ : ∃ r st₂, flow.value st₁ = (r, st₂) := ⟨_, _, rfl⟩
      rw [hr] at hrun ⊢
      cases r with
      | error e => exact hrun
      | ok v =>
        obtain ⟨hst₂, hle, hv⟩ := hrun
        -- the caller's variables are valid in the heap that the callee leaves
        exact ⟨⟨hst₂.heap, hst.implicit.mono hle, fun x hx => (hst.vars x hx).mono hle⟩, hle, hv⟩

/-- The functions of a program are closed, and each of its definitions is one of them. -/
private theorem Program.closed {p : Program} (hallowed : ∀ f, f.isInternal = false → allowed f)
    (hlit : ∀ v ∈ p.literals, v.Literal allowed) (address : Nat → Nat) (s : Settings) :
    Linked.Closed ⟨s, p.functions address, address⟩ allowed (Stmt.definitionsAll p.body.stmts) where
  allows := hallowed
  defined j hj := by
    have hfunction : ∃ f ∈ p.functions address, f.address = address j :=
      Stmt.exists_functionAll p.body.stmts (Nat.zero_le j) (by rwa [Nat.zero_add])
    obtain ⟨f, hf, haddress⟩ := hfunction
    rw [Linked.function?, List.find?_isSome]
    exact ⟨f, hf, by simp [haddress]⟩
  functions := Stmt.functionsAll_closed p.body.stmts (Nat.le_of_eq (Nat.zero_add _)) .nil nofun hlit

/-- A run of a program ends with no other fault than an allowed one. -/
theorem Program.allowed_of_failed {p : Program} (hallowed : ∀ f, f.isInternal = false → allowed f)
    (hlit : ∀ v ∈ p.literals, v.Literal allowed) {address : Nat → Nat} {s : Settings} {input : Text}
    {fuel steps : Nat} {f : Fault} {span : Span}
    (h : (p.observeWith address s fuel input steps).ending = some (.failed f span)) : allowed f := by
  have hclosed := p.closed hallowed hlit address s
  have hc : EvalContext.Closed ⟨⟨s, p.functions address, address⟩, 1, [], fuel,
      Function.call ⟨s, p.functions address, address⟩ fuel 1⟩ allowed
      (Stmt.definitionsAll p.body.stmts) :=
    ⟨hclosed.allows, hclosed.defined, nofun, Function.sound_call hclosed fuel 1⟩
  have hstart : EvalState.Valid ⟨s, p.functions address, address⟩ (.initial input steps) :=
    ⟨nofun, trivial, nofun⟩
  have hrun : Eval.Sound ⟨s, p.functions address, address⟩ allowed 0
      (p.eval ⟨s, p.functions address, address⟩ fuel) fun _ _ => True := by
    refine (Stmt.soundAll hc p.body.stmts (k := 0) (Nat.le_of_eq (Nat.zero_add _))
      hlit).bind fun flow m _ hflow => ?_
    cases flow with
    | next => exact Eval.Sound.tick.bind fun _ _ _ _ => fun st _ _ f s h => by cases h
    | left => exact .stuck
    | found v span =>
      refine (Eval.Sound.print hallowed hflow).bind fun _ _ _ _ => ?_
      exact fun st _ _ f s h => by cases h
  have hend := hrun _ hstart (Nat.zero_le _)
  unfold Program.observeWith at h
  obtain ⟨r, st, hr⟩ : ∃ r st, p.eval ⟨s, p.functions address, address⟩ fuel
    (.initial input steps) = (r, st) := ⟨_, _, rfl⟩
  rw [hr] at h hend
  cases r with
  | ok a => exact a.elim
  | error e => exact hend f span h

end LolToolchain
