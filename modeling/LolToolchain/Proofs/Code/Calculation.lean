import LolToolchain.Proofs.Code.Rendering
import LolToolchain.Proofs.Evaluation.Calculation

/-!
The code of an expression without calls does what the expression calculates: it leaves the value on
top of the stack, with the lists that the calculation has added, or it ends with the same fault.
-/
namespace LolToolchain

open Effect Relation Snapshot

/-- A snapshot of the course of a calculation, with values on top of the stack it began with. -/
def Snapshot.during (x : Snapshot) (next : Nat) (ts : List Value) (heap : Heap) : Snapshot :=
  { x with next, stack := ts ++ x.stack, heap }

/-- A run gets to a result, or ends with a fault before the end of the code. -/
def Snapshot.Arrives {α : Type} (c : Chunk) (s : Settings) (x : Snapshot) (r : Except Fault α)
    (z : α → Snapshot) : Prop :=
  match r with
  | .ok a => ReflTransGen (Steps c s) x (z a)
  | .error f => ∃ y span, ReflTransGen (Steps c s) x y ∧ y.next < c.code.size ∧
      Stops c s y ⟨some (.failed f span), y.output, y.input⟩

/-- From every snapshot in which the values `pre` are on top, the code from `a` on does what a
calculation does, leads to `b` and leaves the values `post` instead. -/
def Calculates {α : Type} (c : Chunk) (s : Settings) (x : Snapshot) (pre : List Value) (a : Nat)
    (k : Calc α) (b : Nat) (post : α → List Value) : Prop :=
  ∀ ts heap, Arrives c s (x.during a (pre ++ ts) heap) (k heap)
    fun r => x.during b (post r.1 ++ ts) r.2

namespace Calculates

variable {α β : Type} {c : Chunk} {s : Settings} {x : Snapshot} {pre : List Value} {a b d : Nat}
variable {k : Calc α} {f : α → Calc β} {post : α → List Value} {post' : β → List Value}

/-- The first part may have results of a special form only. -/
theorem bind_of {P : α → Prop} (hk : Calculates c s x pre a k b post)
    (hP : ∀ heap r, k heap = .ok r → P r.1)
    (hf : ∀ r, P r → Calculates c s x (post r) b (f r) d post') :
    Calculates c s x pre a (k >>= f) d post' := by
  intro ts heap
  have hk := hk ts heap
  rw [Calc.run_bind]
  cases hr : k heap with
  | error fault =>
    rw [hr] at hk
    exact hk
  | ok r =>
    rw [hr] at hk
    have hrest := hf r.1 (hP heap r hr) ts r.2
    simp only [Except.bind]
    cases hs : f r.1 r.2 with
    | error fault =>
      rw [hs] at hrest
      obtain ⟨y, span, hreach, hlt, hstop⟩ := hrest
      exact ⟨y, span, ReflTransGen.trans hk hreach, hlt, hstop⟩
    | ok s =>
      rw [hs] at hrest
      exact ReflTransGen.trans hk hrest

theorem bind (hk : Calculates c s x pre a k b post)
    (hf : ∀ r, Calculates c s x (post r) b (f r) d post') :
    Calculates c s x pre a (k >>= f) d post' :=
  hk.bind_of (P := fun _ => True) (fun _ _ _ => trivial) fun r _ => hf r

theorem pure (r : α) (hp : post r = pre) : Calculates c s x pre a (pure r) a post := by
  intro ts heap
  rw [← hp]
  exact ReflTransGen.refl

/-- Further values below those in use are left alone. -/
theorem frame (hk : Calculates c s x pre a k b post) (below : List Value) :
    Calculates c s x (pre ++ below) a k b fun r => post r ++ below := by
  intro ts heap
  simp only [List.append_assoc]
  exact hk (below ++ ts) heap

variable {op : Opcode} {arg : Nat} {span : Span} {u v w : Value}

/-- A single instruction. -/
theorem of_has (hs : s.tracing = false) (h : c.Has op arg span a b)
    (hp : ∀ ts heap, (Action.execute c s (a + 1) ⟨op, arg⟩).Performs (x.during b (pre ++ ts) heap)
      (k heap) fun r => x.during b (post r.1 ++ ts) r.2) : Calculates c s x pre a k b post := by
  intro ts heap
  have hlt : a < c.code.size := by
    have := (Chunk.lt_of_fetch h.1).2
    omega
  have hgoes := Goes.of_has (x := x.during a (pre ++ ts) heap) hs h (hp ts heap)
  cases hr : k heap with
  | error fault =>
    rw [hr] at hgoes
    exact ⟨_, span, .refl, hlt, hgoes⟩
  | ok r =>
    rw [hr] at hgoes
    exact .single hgoes

/-- A single instruction that leaves the lists as they are. -/
theorem operate {g : Heap → Except Fault α} (hs : s.tracing = false) (h : c.Has op arg span a b)
    (hp : ∀ ts heap, (Action.execute c s (a + 1) ⟨op, arg⟩).Performs (x.during b (pre ++ ts) heap)
      (g heap) fun r => x.during b (post r ++ ts) heap) :
    Calculates c s x pre a (Calc.operate g) b post := by
  refine of_has hs h fun ts heap m hm => ?_
  have hp := hp ts heap m hm
  simp only [Calc.operate, Calc.perform]
  cases hg : g heap <;> rw [hg] at hp <;> exact hp

/-- A single instruction that pushes a value. -/
theorem push (hs : s.tracing = false) (h : c.Has op arg span a b)
    (hp : ∀ ts heap, (Action.execute c s (a + 1) ⟨op, arg⟩).Does (x.during b ts heap)
      (x.during b (v :: ts) heap)) : Calculates c s x [] a (Pure.pure v) b fun r => [r] :=
  of_has hs h fun ts heap => hp ts heap

theorem constant (hs : s.tracing = false) (h : c.HasConstant v span a b) :
    Calculates c s x [] a (Pure.pure v) b fun r => [r] := by
  obtain ⟨i, ⟨op, hop, hi⟩, hv⟩ := h
  exact push hs hi fun ts heap => Action.Does.constant hop hv

theorem binary {g : Heap → Value → Value → Except Fault Value} (hs : s.tracing = false)
    (h : c.Has op 0 span a b) (hop : ∀ o, Action.execute c s o ⟨op, 0⟩ = Action.binary g) :
    Calculates c s x [w, v] a (Calc.operate fun heap => g heap v w) b fun r => [r] :=
  operate hs h fun _ _ => hop _ ▸ Action.performs_binary g rfl

theorem unary {g : Heap → Value → Except Fault Value} (hs : s.tracing = false)
    (h : c.Has op 0 span a b) (hop : ∀ o, Action.execute c s o ⟨op, 0⟩ = Action.unary g) :
    Calculates c s x [v] a (Calc.operate fun heap => g heap v) b fun r => [r] :=
  operate hs h fun _ _ => hop _ ▸ Action.performs_unary g rfl

private theorem cast {t : TypeName} (hs : s.tracing = false) (h : c.Has .cast t.code.toNat span a b) :
    Calculates c s x [v] a (Calc.perform fun heap => v.cast heap t) b fun r => [r] :=
  of_has hs h fun _ _ => Action.performs_cast t rfl

end Calculates

section

/-- Names have given values in a snapshot: those of the current call on the stack, and known
functions of the calls around it. -/
structure Snapshot.Reads (x : Snapshot) (outer : List Names) (ns : Names) (read : Text → Value) :
    Prop where
  implicit : read implicitName = x.implicit
  slots : ∃ f fs, x.frames = f :: fs ∧ ∀ name n, name ≠ implicitName → ns.slot? name = some n →
    ∃ newer older, x.stack = newer ++ read name :: older ∧ older.length = f.base + n
  outer : ∀ name address, name ≠ implicitName → ns.slot? name = none →
    Names.function? name outer = some address → read name = functionValue address

variable {c : Chunk} {s : Settings} {x : Snapshot} {outer : List Names} {ns : Names}
variable {read : Text → Value}

theorem Calculates.readName (hs : s.tracing = false) (hx : x.Reads outer ns read) {id : Ident}
    {a b : Nat} (h : id.ReadAt c outer ns a b) :
    Calculates c s x [] a (Pure.pure (read id.name)) b fun r => [r] := by
  unfold Ident.ReadAt at h
  split at h
  · rename_i hit
    rw [hit, hx.implicit]
    exact push hs h fun ts heap => Action.Does.readIt
  · rename_i hit
    split at h
    · rename_i n hslot
      obtain ⟨f, fs, hframes, hslots⟩ := hx.slots
      obtain ⟨newer, older, hstack, hlen⟩ := hslots id.name n hit hslot
      obtain ⟨op, hop, hi⟩ := h
      have hduring (ts : List Value) (heap : Heap) :
          (x.during b ts heap).stack = (ts ++ newer) ++ read id.name :: older := by
        rw [Snapshot.during, hstack, List.append_assoc]
      exact push hs hi fun ts heap => Action.Does.readSlot hop hframes (hduring ts heap) hlen
    · rename_i hslot
      split at h
      · rename_i address hfunction
        rw [hx.outer id.name address hit hslot hfunction]
        exact constant hs h
      · cases h

private theorem Splice.calculatesAll (hs : s.tracing = false) (hx : x.Reads outer ns read) :
    ∀ (ss : List Splice) {a b : Nat}, PlacedAll c outer ns ss a b →
      Calculates c s x [] a (pure (ss.map fun x => read x.name.name)) b List.reverse
  | [], a, b, h => by
    cases h
    exact .pure [] rfl
  | y :: ys, a, b, h => by
    obtain ⟨m, hy, hys⟩ := h
    intro ts heap
    have hfirst : ReflTransGen (Steps c s) (x.during a ts heap)
        (x.during m (read y.name.name :: ts) heap) := Calculates.readName hs hx hy ts heap
    have hrest : ReflTransGen (Steps c s) (x.during m (read y.name.name :: ts) heap)
        (x.during b ((ys.map fun x => read x.name.name).reverse ++ read y.name.name :: ts) heap) :=
      calculatesAll hs hx ys hys _ heap
    have hstack : (ys.map fun x => read x.name.name).reverse ++ read y.name.name :: ts =
        ((y :: ys).map fun x => read x.name.name).reverse ++ ts := by simp
    rw [hstack] at hrest
    exact hfirst.trans hrest

namespace Expr

private theorem length_of_values {ys : List Expr} {heap : Heap} {r : List Value × Heap}
    (h : values read ys heap = .ok r) : r.1.length = ys.length := by
  induction ys generalizing heap r with
  | nil =>
    cases h
    rfl
  | cons y ys ih =>
    obtain ⟨v, after, -, h⟩ := Calc.ok_of_bind h
    obtain ⟨vs, last, hvs, h⟩ := Calc.ok_of_bind h
    cases h
    exact congrArg Nat.succ (ih hvs)

mutual

/-- The code of an expression without calls does what the expression calculates. -/
theorem calculates (hs : s.tracing = false) (hx : x.Reads outer ns read) : ∀ (y : Expr) {a b : Nat},
    y.hasCall = false → y.Placed c outer ns a b →
      Calculates c s x [] a (y.value read) b fun r => [r]
  | .int _ _, _, _, _, h | .float _ _, _, _, _, h | .string _ _, _, _, _, h | .bool _ _, _, _, _, h
  | .null _, _, _, _, h | .concat _ [], _, _, _, h | .nary _ _ [], _, _, _, h => .constant hs h
  | .it _, _, _, _, h => .push hs h fun _ _ => hx.implicit ▸ Action.Does.readIt
  | .var _ _, _, _, _, h => .readName hs hx h
  | .call .., _, _, hcall, _ => by cases hcall
  | .interp _ text splices, a, b, _, h => by
    obtain ⟨m, i, hsplices, ht, op, hop, hi⟩ := h
    have hlength (heap : Heap) (r : List Value × Heap)
        (hr : (pure (splices.map fun x => read x.name.name) : Calc (List Value)) heap = .ok r) :
        r.1.length = splices.length := by
      cases hr
      exact List.length_map _
    refine (Splice.calculatesAll hs hx splices hsplices).bind_of (P := fun vs =>
      vs.length = splices.length) (f := fun vs => Calc.operate (Splice.fill text splices vs))
        hlength fun vs hl => .operate hs hi fun ts heap => ?_
    exact Action.performs_interpolate hop ht hl (List.append_assoc ..)
  | .list _ xs, _, _, hcall, h => by
    obtain ⟨m, hxs, op, hop, hi⟩ := h
    refine (calculatesAll hs hx xs hcall hxs).bind_of (P := fun vs => vs.length = xs.length)
      (fun _ _ => length_of_values) fun vs hl => .of_has hs hi fun ts heap => ?_
    exact Action.Does.list hop hl (List.append_assoc ..)
  | .concat _ [y], _, _, hcall, h => by
    obtain ⟨m₁, m₂, hc, hy, hi⟩ := h
    have hcally := (Bool.or_eq_false_iff.1 hcall).1
    refine (Calculates.constant hs hc).bind (f := fun v =>
      (y.value read) >>= fun w => Calc.operate fun heap => v.joined heap w) fun v =>
        ((calculates hs hx y hcally hy).frame [v]).bind fun w => ?_
    exact .binary hs hi fun _ => Action.execute_concat
  | .concat _ (y :: z :: zs), _, _, hcall, h => by
    obtain ⟨m, hy, hzs⟩ := h
    obtain ⟨hcally, hcallzs⟩ := Bool.or_eq_false_iff.1 hcall
    refine (calculates hs hx y hcally hy).bind fun v => ?_
    exact calculatesEach hs hx (fun _ => Action.execute_concat) v (z :: zs) hcallzs hzs
  | .cast _ y _, _, _, hcall, h => by
    obtain ⟨m, hy, hi⟩ := h
    exact (calculates hs hx y hcall hy).bind fun v => .cast hs hi
  | .binary _ op y z, _, _, hcall, h => by
    obtain ⟨m₁, m₂, hy, hz, hi⟩ := h
    obtain ⟨hcally, hcallz⟩ := Bool.or_eq_false_iff.1 hcall
    refine (calculates hs hx y hcally hy).bind fun v =>
      ((calculates hs hx z hcallz hz).frame [v]).bind fun w => ?_
    exact .binary hs hi fun _ => Action.execute_binary op
  | .nary _ _ [y], _, _, hcall, h => by
    obtain ⟨m, hy, hi⟩ := h
    exact (calculates hs hx y (Bool.or_eq_false_iff.1 hcall).1 hy).bind fun v => .cast hs hi
  | .nary _ op (y :: z :: zs), _, _, hcall, h => by
    obtain ⟨m, hy, hzs⟩ := h
    obtain ⟨hcally, hcallzs⟩ := Bool.or_eq_false_iff.1 hcall
    refine (calculates hs hx y hcally hy).bind fun v => ?_
    exact calculatesEach hs hx (fun _ => Action.execute_listOp op) v (z :: zs) hcallzs hzs
  | .unary _ op y, _, _, hcall, h => by
    obtain ⟨m, hy, hi⟩ := h
    exact (calculates hs hx y hcall hy).bind fun v => .unary hs hi fun _ => Action.execute_unary op
  | .pickAt _ i y, _, _, hcall, h => by
    obtain ⟨m₁, m₂, hy, hi, hp⟩ := h
    obtain ⟨hcalli, hcally⟩ := Bool.or_eq_false_iff.1 hcall
    refine (calculates hs hx y hcally hy).bind fun v =>
      ((calculates hs hx i hcalli hi).frame [v]).bind fun w => ?_
    exact .binary hs hp fun _ => Action.execute_getIndex
  | .pickFront _ y, _, _, hcall, h => by
    obtain ⟨m, hy, hi⟩ := h
    exact (calculates hs hx y hcall hy).bind fun v => .unary hs hi fun _ => Action.execute_front
  | .pickBack _ y, _, _, hcall, h => by
    obtain ⟨m, hy, hi⟩ := h
    exact (calculates hs hx y hcall hy).bind fun v => .unary hs hi fun _ => Action.execute_back

theorem calculatesAll (hs : s.tracing = false) (hx : x.Reads outer ns read) :
    ∀ (ys : List Expr) {a b : Nat}, anyCall ys = false → PlacedAll c outer ns ys a b →
      Calculates c s x [] a (values read ys) b List.reverse
  | [], _, _, _, h => by
    cases h
    exact .pure [] rfl
  | y :: ys, _, _, hcall, h => by
    obtain ⟨m, hy, hys⟩ := h
    obtain ⟨hcally, hcallys⟩ := Bool.or_eq_false_iff.1 hcall
    refine (calculates hs hx y hcally hy).bind fun v =>
      ((calculatesAll hs hx ys hcallys hys).frame [v]).bind fun vs => ?_
    exact .pure (v :: vs) List.reverse_cons

theorem calculatesEach (hs : s.tracing = false) (hx : x.Reads outer ns read)
    {f : Heap → Value → Value → Except Fault Value} {op : Opcode} {span : Span}
    (hop : ∀ o, Action.execute c s o ⟨op, 0⟩ = Action.binary f) (v : Value) :
    ∀ (ys : List Expr) {a b : Nat}, anyCall ys = false → PlacedEach c outer ns op span ys a b →
      Calculates c s x [v] a (valueEach read f v ys) b fun r => [r]
  | [], _, _, _, h => by
    cases h
    exact .pure v rfl
  | y :: ys, _, _, hcall, h => by
    obtain ⟨m₁, m₂, hy, hi, hys⟩ := h
    obtain ⟨hcally, hcallys⟩ := Bool.or_eq_false_iff.1 hcall
    refine ((calculates hs hx y hcally hy).frame [v]).bind fun w => ?_
    exact (Calculates.binary hs hi hop).bind fun u => calculatesEach hs hx hop u ys hcallys hys

end

end Expr

end

namespace Machine

/-- What a machine gives that runs to the end of the code: a value on top of its stack, or a fault
before it gets there. -/
def Gives (m : Machine) (c : Chunk) (s : Settings) : Except Fault Value → Prop
  | .ok v => ∃ n m', m.runFor c s n = (none, m') ∧ m'.next = c.code.size ∧
      m'.stack.toList = m.stack.toList ++ [v] ∧ m'.frames = m.frames ∧ m'.output = m.output ∧
      m'.input = m.input
  | .error f => ∃ n m', m.runFor c s n = (none, m') ∧ m'.next < c.code.size ∧
      (m'.step c s).1 = .error (.failed f)

/-- The value of a name in code that is compiled next. -/
def read (m : Machine) (a : Assembly) (name : Text) : Value :=
  if name = implicitName then m.implicit
  else match a.scope.names.slot? name with
    | some n => (m.stack.get? (m.base + n)).getD .noob
    | none => ((Names.function? name (a.outer.map Scope.names)).map functionValue).getD .noob

/-- A machine that is about to run what is compiled next: it has got to the end of the code so far, it
has the variables in use on its stack, and all its values are whole. -/
structure Suits (m : Machine) (a : Assembly) : Prop where
  next : m.next = a.chunk.code.size
  frames : m.frames ≠ []
  stack : m.stack.height ≤ m.stack.cells.size
  locals : m.base + a.scope.locals.length ≤ m.stack.height
  whole : ∀ v, m.Has v → v.Whole m.heap.size

/-- What the further course of its run depends on. -/
def snapshot (m : Machine) : Snapshot :=
  ⟨m.next.toNat, m.stack.toList.reverse, m.frames, m.implicit, m.heap, m.input, m.output⟩

variable {m : Machine} {a : Assembly} {c : Chunk} {s : Settings}

theorem Suits.shows (h : m.Suits a) : m.Shows m.snapshot where
  next := by rw [snapshot, h.next, Int.toNat_natCast]
  stack := by
    refine ⟨?_, ?_⟩
    · have := h.stack
      simp only [snapshot, Stack.toList, List.length_reverse, List.length_take, Array.length_toList]
      omega
    · rw [snapshot, List.reverse_reverse]
      exact List.take_prefix _ _
  frames := rfl
  implicit := rfl
  heap := rfl
  input := rfl
  output := rfl

theorem Suits.reads (h : m.Suits a) :
    m.snapshot.Reads (a.outer.map Scope.names) a.scope.names (m.read a) where
  implicit := if_pos rfl
  slots := by
    obtain ⟨f, fs, hframes⟩ := List.exists_cons_of_ne_nil h.frames
    refine ⟨f, fs, hframes, fun name n hname hslot => ?_⟩
    have hlt := Names.slot?_lt hslot
    have hbase : m.base = f.base := by rw [base, hframes]
    have hlocals := h.locals
    have hheight := h.shows.stack.1
    rw [Scope.length_names] at hlt
    have hinside : m.base + n < m.snapshot.stack.length := by omega
    obtain ⟨newer, v, older, hstack, hlen⟩ := exists_mem_split hinside
    have hget := (hstack ▸ h.shows.stack : m.stack.Holds (newer ++ v :: older)).get?
    have hread : m.read a name = v := by
      simp only [read, if_neg hname, hslot, ← hlen, hget, Option.getD_some]
    exact ⟨newer, older, hread ▸ hstack, hbase ▸ hlen⟩
  outer name address hname hslot hfunction := by
    simp only [read, if_neg hname, hslot, hfunction, Option.map_some, Option.getD_some]

private theorem Shows.exists_runFor {x y : Snapshot} (hxy : ReflTransGen (Steps c s) x y)
    (hm : m.Shows x) : ∃ n m', m.runFor c s n = (none, m') ∧ m'.Shows y := by
  induction hxy using ReflTransGen.head_induction_on generalizing m with
  | refl => exact ⟨0, m, rfl, hm⟩
  | head hstep _ ih =>
    obtain ⟨m₁, hrun, hm₁⟩ := hstep m hm
    obtain ⟨n, m', hruns, hm'⟩ := ih hm₁
    exact ⟨n + 1, m', by rw [runFor, hrun]; exact hruns, hm'⟩

/-- What a calculation arrives at is what its code gives. -/
private theorem Suits.gives {r : Except Fault (Value × Heap)} (h : m.Suits a)
    (hr : Arrives c s m.snapshot r fun r => m.snapshot.during c.code.size [r.1] r.2) :
    m.Gives c s (r.map Prod.fst) := by
  cases r with
  | ok r =>
    obtain ⟨n, m', hrun, hm'⟩ := h.shows.exists_runFor hr
    refine ⟨n, m', hrun, hm'.next, ?_, hm'.frames, hm'.output, hm'.input⟩
    rw [hm'.stack.toList, h.shows.stack.toList]
    exact List.reverse_append
  | error f =>
    obtain ⟨y, span, hreach, hlt, hstop⟩ := hr
    obtain ⟨n, m', hrun, hm'⟩ := h.shows.exists_runFor hreach
    obtain ⟨e, m₁, hstep, hobserve⟩ := hstop m' hm'
    have hending : e.finish c m₁.current = .failed f span :=
      Option.some.inj (congrArg Observation.ending hobserve)
    refine ⟨n, m', hrun, by rw [hm'.next]; omega, ?_⟩
    rw [hstep]
    cases e with
    | halted =>
      rw [Ending.finish] at hending
      split at hending <;> cases hending
    | failed f' =>
      cases hending
      rfl

/-- A run can only come to an end in one state. -/
private theorem eq_of_runFor {n n' : Nat} {m₁ m₂ : Machine} {e e' : Ending}
    (h : m.runFor c s n = (none, m₁)) (he : (m₁.step c s).1 = .error e)
    (h' : m.runFor c s n' = (none, m₂)) (he' : (m₂.step c s).1 = .error e') : m₁ = m₂ := by
  induction n generalizing m n' with
  | zero =>
    cases h
    cases n' with
    | zero =>
      cases h'
      rfl
    | succ n' =>
      rw [runFor] at h'
      cases hrun : m₁.step c s with
      | mk r m₃ =>
        rw [hrun] at he h'
        cases he
        cases h'
  | succ n ih =>
    rw [runFor] at h
    cases hrun : m.step c s with
    | mk r m₃ =>
      rw [hrun] at h
      cases r with
      | error e => cases h
      | ok u =>
        cases n' with
        | zero =>
          cases h'
          rw [hrun] at he'
          cases he'
        | succ n' =>
          rw [runFor, hrun] at h'
          exact ih h h'

private theorem step_at_end (h : m.next = c.code.size) :
    (m.step c s).1 = .error (.failed .pastEnd) := by
  have hle : (c.code.size : Int) ≤ m.next := Int.le_of_eq h.symm
  simp [step, Action.step, hle]

/-- A run gives one thing at most. -/
theorem Gives.unique {r r' : Except Fault Value} (h : m.Gives c s r) (h' : m.Gives c s r') :
    r = r' := by
  cases r with
  | ok v =>
    obtain ⟨n, m₁, hrun, hnext, hstack, -⟩ := h
    cases r' with
    | ok v' =>
      obtain ⟨n', m₂, hrun', hnext', hstack', -⟩ := h'
      obtain rfl := eq_of_runFor hrun (step_at_end hnext) hrun' (step_at_end hnext')
      rw [hstack, List.append_cancel_left_eq] at hstack'
      cases hstack'
      rfl
    | error f =>
      obtain ⟨n', m₂, hrun', hnext', hstep⟩ := h'
      obtain rfl := eq_of_runFor hrun (step_at_end hnext) hrun' hstep
      omega
  | error f =>
    obtain ⟨n, m₁, hrun, hnext, hstep⟩ := h
    cases r' with
    | ok v =>
      obtain ⟨n', m₂, hrun', hnext', -⟩ := h'
      obtain rfl := eq_of_runFor hrun hstep hrun' (step_at_end hnext')
      omega
    | error f' =>
      obtain ⟨n', m₂, hrun', -, hstep'⟩ := h'
      obtain rfl := eq_of_runFor hrun hstep hrun' hstep'
      rw [hstep] at hstep'
      cases hstep'
      rfl

end Machine

/-- The code of an expression without calls gives what the expression calculates. -/
theorem Expr.gives_value {y : Expr} {m : Machine} {a a' : Assembly} {s : Settings}
    (hs : s.tracing = false) (ha : a.Lexical)
    (haligned : a.chunk.positions.size = a.chunk.code.size) (hm : m.Suits a)
    (hcall : y.hasCall = false) (h : y.assemble a = .ok ((), a')) :
    m.Gives a'.chunk s ((y.value (m.read a) m.heap).map Prod.fst) := by
  have hemits := emits y h
  have hplaced := (hemits.chunk.back a'.chunk [] (.refl (hemits.chunk.aligned haligned)) nofun).2 ha
  have harrives := calculates hs hm.reads y hcall hplaced [] m.heap
  have hstart : m.snapshot.during a.chunk.code.size [] m.heap = m.snapshot := by
    simp only [Snapshot.during, Machine.snapshot, hm.next, Int.toNat_natCast, List.nil_append]
  exact hm.gives (hstart ▸ harrives)

theorem Expr.gives {y : Expr} {m : Machine} {a a' : Assembly} {s : Settings} (hs : s.tracing = false)
    (ha : a.Lexical) (haligned : a.chunk.positions.size = a.chunk.code.size) (hm : m.Suits a)
    (hcall : y.hasCall = false) (h : y.assemble a = .ok ((), a'))
    (_ : a'.chunk.code.size < 2 ^ 31) :
    m.Gives a'.chunk s ((y.value (m.read a) m.heap).map Prod.fst) :=
  gives_value hs ha haligned hm hcall h

end LolToolchain
