import LolToolchain.Proofs.Machine.Containment
import LolToolchain.Proofs.Machine.Transfer

/-!
When a list of a run comes to contain itself: in the step that stores a value in a list which can be
reached from it, and in no other. All other instructions leave the lists as they are or make a new
one, whose elements were there before it.
-/
namespace LolToolchain

open Effect

/-- All values of a machine are whole, and no list contains itself. The cells above the height count
as well, since the stack can be raised again. -/
structure Machine.Sound (m : Machine) : Prop where
  cells : ∀ v ∈ m.stack.cells, v.Whole m.heap.size
  implicit : m.implicit.Whole m.heap.size
  saved : ∀ f ∈ m.frames, f.saved.Whole m.heap.size
  heap : Heap.Whole m.heap
  grounded : Heap.Grounded m.heap

namespace Stack

variable {s : Stack} {u v : Value}

theorem mem_push (h : u ∈ (s.push v).cells) : u ∈ s.cells ∨ u = v := by
  rw [push] at h
  split at h
  · exact Array.mem_or_eq_of_mem_setIfInBounds h
  · exact Array.mem_push.1 h

theorem mem_set {i : Nat} (h : u ∈ (s.set i v).cells) : u ∈ s.cells ∨ u = v :=
  Array.mem_or_eq_of_mem_setIfInBounds h

theorem mem_of_get? {i : Nat} (h : s.get? i = some v) : v ∈ s.cells := by
  rw [get?] at h
  split at h
  · exact Array.mem_of_getElem? h
  · cases h

theorem mem_of_top? (h : s.top? = some v) : v ∈ s.cells := by
  rw [top?] at h
  split at h
  · cases h
  · exact mem_of_get? h

theorem mem_of_topMost? {n : Nat} {vs : Array Value} (h : s.topMost? n = some vs) (hv : v ∈ vs) :
    v ∈ s.cells := by
  rw [topMost?] at h
  split at h
  · cases h
    obtain ⟨k, hk, rfl⟩ := Array.mem_extract_iff_getElem.1 hv
    exact Array.getElem_mem _
  · cases h

/-- The top value is the last one on the stack. -/
theorem toList_of_top? (h : s.top? = some v) : s.toList = (s.drop 1).toList ++ [v] := by
  rw [top?] at h
  split at h
  · cases h
  · rename_i hheight
    rw [get?, if_pos (by omega)] at h
    obtain ⟨hlt, rfl⟩ := Array.getElem?_eq_some_iff.1 h
    have hsize : s.height - 1 < s.cells.toList.length := by simpa using hlt
    rw [toList, toList, drop, ← Array.getElem_toList, List.take_append_getElem hsize]
    congr 1
    omega

end Stack

namespace Machine.Sound

variable {m : Machine} {v : Value} {elems : Array Value}

theorem cut (h : m.Sound) (height : Nat) : Sound { m with stack := m.stack.cutTo height } :=
  { h with }

theorem push (h : m.Sound) (hv : v.Whole m.heap.size) : Sound { m with stack := m.stack.push v } :=
  { h with cells := fun u hu => (Stack.mem_push hu).elim (h.cells u) fun heq => heq ▸ hv }

theorem top (h : m.Sound) (htop : m.stack.top? = some v) : v.Whole m.heap.size :=
  h.cells v (Stack.mem_of_top? htop)

/-- A new list is made of values that are there. -/
theorem grow (h : m.Sound) (helems : ∀ v ∈ elems, v.Whole m.heap.size) :
    Sound { m with heap := m.heap.push elems, stack := m.stack.push (.bukkit m.heap.size) } := by
  have hmono : ∀ {u : Value}, u.Whole m.heap.size → u.Whole (m.heap.push elems).size := by
    intro u hu
    rw [Array.size_push]
    exact hu.mono (Nat.le_succ _)
  refine ⟨fun u hu => ?_, hmono h.implicit, fun f hf => hmono (h.saved f hf), h.heap.push helems,
    h.grounded.push h.heap helems⟩
  rcases Stack.mem_push hu with hu | rfl
  · exact hmono (h.cells u hu)
  · rw [Array.size_push]
    exact Nat.lt_succ_self _

/-- A value is stored in a list that cannot be reached from it. -/
theorem store {r : Nat} {heap : Heap} (h : m.Sound) (hv : v.Whole m.heap.size)
    (hunreached : ¬ Heap.Reaches m.heap v r) (hstored : Heap.Stored m.heap heap r v) :
    Sound { m with heap } := by
  have hsize := hstored.size_eq
  refine ⟨?_, ?_, ?_, hstored.whole h.heap hv, (hstored.grounded_iff h.grounded).2 hunreached⟩
  · rw [hsize]
    exact h.cells
  · rw [hsize]
    exact h.implicit
  · rw [hsize]
    exact h.saved

end Machine.Sound

namespace Action

section

variable {α β : Type} {heap : Heap} {Q : α → Prop} {R : β → Prop}

/-- From a sound machine with these lists, an action leads to a sound one with the same lists, and
its result has a property. -/
def Calm (act : Action α) (heap : Heap) (Q : α → Prop) : Prop :=
  ∀ m : Machine, m.Sound → m.heap = heap →
    (act m).2.Sound ∧ (act m).2.heap = heap ∧ ∀ a, (act m).1 = .ok a → Q a

theorem calm_pure {a : α} (ha : Q a) : Calm (pure a) heap Q :=
  fun _ hm hheap => ⟨hm, hheap, fun _ heq => Except.ok.inj heq ▸ ha⟩

theorem calm_fail (f : Fault) : Calm (fail f : Action α) heap Q :=
  fun _ hm hheap => ⟨hm, hheap, nofun⟩

theorem calm_halted : Calm (throw .halted : Action α) heap Q :=
  fun _ hm hheap => ⟨hm, hheap, nofun⟩

theorem calm_lift {r : Except Fault α} (hr : Allows (fun _ => True) Q r) :
    Calm (lift r) heap Q := by
  cases r with
  | ok a => exact calm_pure hr
  | error f => exact calm_fail f

theorem calm_get : Calm get heap fun m => m.Sound ∧ m.heap = heap :=
  fun _ hm hheap => ⟨hm, hheap, fun _ heq => Except.ok.inj heq ▸ ⟨hm, hheap⟩⟩

theorem calm_set {m : Machine} (hm : m.Sound) (hheap : m.heap = heap) :
    Calm (set m) heap fun _ => True :=
  fun _ _ _ => ⟨hm, hheap, fun _ _ => trivial⟩

theorem calm_modify {g : Machine → Machine}
    (hg : ∀ m : Machine, m.Sound → m.heap = heap → (g m).Sound ∧ (g m).heap = heap) :
    Calm (modify g) heap fun _ => True :=
  fun m hm hheap => ⟨(hg m hm hheap).1, (hg m hm hheap).2, fun _ _ => trivial⟩

theorem Calm.bind {x : Action α} {f : α → Action β} (hx : x.Calm heap Q)
    (hf : ∀ a, Q a → (f a).Calm heap R) : (x >>= f).Calm heap R := by
  intro m hm hheap
  obtain ⟨hsound, hsame, hresult⟩ := hx m hm hheap
  rw [run_bind]
  cases hrun : x m with
  | mk r m₁ =>
    rw [hrun] at hsound hsame hresult
    cases r with
    | error e => exact ⟨hsound, hsame, nofun⟩
    | ok a => exact hf a (hresult a rfl) m₁ hsound hsame

/-- What follows a calm action may change the lists. -/
theorem Calm.sound_bind {x : Action α} {f : α → Action β} (hx : x.Calm heap Q)
    (hf : ∀ a, Q a → ∀ m : Machine, m.Sound → m.heap = heap → (f a m).2.Sound) {m : Machine}
    (hm : m.Sound) (hheap : m.heap = heap) : ((x >>= f) m).2.Sound := by
  obtain ⟨hsound, hsame, hresult⟩ := hx m hm hheap
  rw [run_bind]
  cases hrun : x m with
  | mk r m₁ =>
    rw [hrun] at hsound hsame hresult
    cases r with
    | error e => exact hsound
    | ok a => exact hf a (hresult a rfl) m₁ hsound hsame

end

variable {heap : Heap} {c : Chunk} {s : Settings} {o n : Nat} {v : Value}

theorem calm_push (hv : v.Whole heap.size) : (push v).Calm heap fun _ => True :=
  calm_modify fun _ hm hheap => ⟨hm.push (hheap ▸ hv), hheap⟩

theorem calm_drop (n : Nat) : (drop n).Calm heap fun _ => True :=
  calm_modify fun _ hm hheap => ⟨hm.cut _, hheap⟩

theorem calm_heap : Action.heap.Calm heap fun h => h = heap :=
  calm_get.bind fun _ hm => calm_pure hm.2

theorem calm_pop : pop.Calm heap fun v => v.Whole heap.size := by
  refine calm_get.bind fun m hm => ?_
  split
  · exact calm_fail _
  · rename_i v htop
    refine Calm.bind (calm_modify fun _ hm hheap => ⟨hm.cut _, hheap⟩) fun _ _ => calm_pure ?_
    exact hm.2 ▸ hm.1.top htop

theorem calm_topMost (n : Nat) :
    (topMost n).Calm heap fun vs => ∀ v ∈ vs, v.Whole heap.size := by
  refine calm_get.bind fun m hm => ?_
  split
  · exact calm_fail _
  · rename_i vs htop
    exact calm_pure fun v hv => hm.2 ▸ hm.1.cells v (Stack.mem_of_topMost? htop hv)

theorem calm_slot (n : Nat) : (slot n).Calm heap fun _ => True := by
  refine calm_get.bind fun m _ => ?_
  dsimp only
  split
  · exact (calm_fail (Q := fun _ => True) _).bind fun _ _ => calm_pure trivial
  · exact calm_pure trivial

theorem calm_print (s : Settings) (v : Value) (newline : Bool) :
    (print s v newline).Calm heap fun _ => True := by
  refine calm_heap.bind fun _ _ => (calm_lift (Allows.of_any _)).bind fun t _ => ?_
  unfold write
  split
  · exact calm_fail _
  · exact calm_modify fun _ hm hheap => ⟨{ hm with }, hheap⟩

theorem calm_readLine (s : Settings) : (readLine s).Calm heap fun _ => True := by
  unfold readLine
  split
  · exact calm_fail _
  · exact calm_get.bind fun m hm =>
      Calm.bind (calm_set { hm.1 with } hm.2) fun _ _ => calm_pure trivial

theorem calm_unary {f : Heap → Value → Except Fault Value}
    (hf : ∀ v, v.Whole heap.size → Allows (fun _ => True) (fun u => u.Whole heap.size) (f heap v)) :
    (unary f).Calm heap fun _ => True := by
  refine calm_pop.bind fun v hv => calm_heap.bind fun _ hheap => ?_
  rw [hheap]
  exact (calm_lift (hf v hv)).bind fun u hu => calm_push hu

private theorem calm_binary {f : Heap → Value → Value → Except Fault Value}
    (hf : ∀ v w, v.Whole heap.size → w.Whole heap.size →
      Allows (fun _ => True) (fun u => u.Whole heap.size) (f heap v w)) :
    (binary f).Calm heap fun _ => True := by
  refine calm_pop.bind fun w hw => calm_pop.bind fun v hv => calm_heap.bind fun _ hheap => ?_
  rw [hheap]
  exact (calm_lift (hf v w hv hw)).bind fun u hu => calm_push hu

private theorem calm_interpolate (c : Chunk) (n : Nat) :
    (interpolate c n).Calm heap fun _ => True := by
  unfold interpolate
  split
  · refine (calm_topMost _).bind fun vs _ => calm_heap.bind fun _ _ =>
      (calm_lift (Allows.of_any _)).bind fun parts _ => (calm_drop _).bind fun _ _ => ?_
    split
    · exact calm_push trivial
    · exact calm_fail _
  · exact calm_fail _
  · exact calm_fail _

private theorem calm_call (c : Chunk) (s : Settings) (n : Nat) :
    (call c s n).Calm heap fun _ => True := by
  intro m hm hheap
  rcases call_cases c s n m with ⟨e, hrun⟩ | ⟨base, target, -, -, -, -, hrun⟩
  · rw [hrun]
    exact ⟨hm, hheap, nofun⟩
  · rw [hrun]
    refine ⟨{ hm with implicit := trivial, saved := ?_ }, hheap, fun _ _ => trivial⟩
    exact List.forall_mem_cons.2 ⟨hm.implicit, hm.saved⟩

private theorem calm_ret (s : Settings) : (ret s).Calm heap fun _ => True := by
  refine calm_pop.bind fun v hv => calm_get.bind fun m ⟨hm, hheap⟩ => ?_
  split
  · rename_i f g fs hframes
    have hsaved := hm.saved
    rw [hframes] at hsaved
    obtain ⟨hf, hsaved⟩ := List.forall_mem_cons.1 hsaved
    refine calm_set ?_ hheap
    exact { (hm.cut (f.base - 1)).push (hheap ▸ hv) with implicit := hf, saved := hsaved }
  · exact (calm_print s v true).bind fun _ _ => calm_halted

/-- The operations of the language give values of the kinds without parts. -/
private theorem Arithmetic.allows_whole (op : Arithmetic) (v w : Value) :
    Allows (fun _ => True) (fun u => u.Whole n) (op.eval v w) :=
  (Value.allows_arithmetic (fun _ _ => trivial) op v w).mono fun u hu => by
    cases u with
    | numbr | numbar => trivial
    | _ => cases hu

/-- All instructions but those that make lists or store in them are calm. -/
theorem calm_execute (hpool : ∀ i v, c.pool.get? i = some v → v.Whole 0) {i : Instruction}
    (hcast : i.op ≠ .cast) (hlist : i.op ≠ .list ∧ i.op ≠ .listLong)
    (hstore : i.op ≠ .append ∧ i.op ≠ .setIndex) (hheap : Heap.Whole heap) :
    (execute c s o i).Calm heap fun _ => True := by
  obtain ⟨op, n⟩ := i
  cases op with
  | nop | fnDef => exact calm_pure trivial
  | pop => exact calm_pop.bind fun _ _ => calm_pure trivial
  | popN | popNLong =>
    refine calm_get.bind fun m _ => ?_
    dsimp only
    split
    · exact (calm_fail (Q := fun _ => True) _).bind fun _ _ => calm_drop _
    · exact calm_drop _
  | loadConst | loadConstLong =>
    simp only [execute]
    split
    · rename_i v hget
      exact calm_push ((hpool _ v hget).mono (Nat.zero_le _))
    · exact calm_fail _
  | readSt | readStLong =>
    refine (calm_slot n).bind fun place _ => calm_get.bind fun m hm => ?_
    split
    · rename_i v hget
      exact calm_push (hm.2 ▸ hm.1.cells v (Stack.mem_of_get? hget))
    · exact calm_fail _
  | writeSt | writeStLong =>
    refine calm_pop.bind fun v hv => (calm_slot n).bind fun place _ =>
      calm_modify fun m hm hheap => ⟨{ hm with cells := fun u hu => ?_ }, hheap⟩
    rcases Stack.mem_set hu with hu | rfl
    · exact hm.cells u hu
    · exact hheap ▸ hv
  | readIt => exact calm_get.bind fun m hm => calm_push (hm.2 ▸ hm.1.implicit)
  | writeIt =>
    exact calm_pop.bind fun v hv =>
      calm_modify fun m hm hheap => ⟨{ hm with implicit := hheap ▸ hv }, hheap⟩
  | add | sub | mul | div | mod | min | max =>
    exact calm_binary fun v w _ _ => Arithmetic.allows_whole _ v w
  | equal | notEqual => exact calm_binary fun _ _ _ _ => trivial
  | gt | lt | ge | le =>
    exact calm_binary fun _ _ _ _ => (Allows.of_any _).map fun _ _ => trivial
  | and | or =>
    refine calm_binary fun _ _ _ _ => (Allows.of_any _).bind fun b _ => ?_
    cases b
    all_goals first
      | trivial
      | exact (Allows.of_any _).bind fun _ _ => trivial
  | xor | concat =>
    exact calm_binary fun _ _ _ _ => (Allows.of_any _).bind fun _ _ => (Allows.of_any _).bind
      fun _ _ => trivial
  | not => exact calm_unary fun _ _ => (Allows.of_any _).bind fun _ _ => trivial
  | getIndex =>
    exact calm_binary fun v w hv _ =>
      Value.allows_pick (fun _ _ => trivial) hheap (fun _ => trivial) hv w
  | front | back =>
    exact calm_unary fun v hv =>
      Value.allows_pickEnd (fun _ _ => trivial) hheap (fun _ => trivial) hv _
  | len =>
    refine calm_unary fun v _ => ?_
    cases v with
    | bukkit r => exact (Allows.of_any _).bind fun _ _ => trivial
    | _ => trivial
  | interp | interpLong => exact calm_interpolate c n
  | cast => exact absurd rfl hcast
  | list => exact absurd rfl hlist.1
  | listLong => exact absurd rfl hlist.2
  | append => exact absurd rfl hstore.1
  | setIndex => exact absurd rfl hstore.2
  | jump => exact calm_modify fun _ hm hheap => ⟨{ hm with }, hheap⟩
  | jumpIfFalse =>
    refine calm_pop.bind fun v _ => calm_heap.bind fun _ _ =>
      (calm_lift (Allows.of_any _)).bind fun b _ => ?_
    cases b with
    | false => exact calm_modify fun _ hm hheap => ⟨{ hm with }, hheap⟩
    | true => exact calm_pure trivial
  | call => exact calm_call c s n
  | ret => exact calm_ret s
  | print => exact calm_pop.bind fun v _ => calm_print s v _
  | read => exact (calm_readLine s).bind fun t _ => calm_push trivial
  | halt => exact calm_halted

variable {m : Machine}

theorem sound_list {op : Opcode} (hop : op = .list ∨ op = .listLong) (hm : m.Sound) :
    (execute c s o ⟨op, n⟩ m).2.Sound := by
  have hlist : ∀ vs : Array Value, (∀ v ∈ vs, v.Whole m.heap.size) → ∀ m₁ : Machine, m₁.Sound →
      m₁.heap = m.heap → ((do
        drop n
        modify fun m => { m with
          heap := m.heap.push vs, stack := m.stack.push (.bukkit m.heap.size) } : Action Unit)
        m₁).2.Sound := by
    intro vs hvs m₁ hm₁ hheap
    refine (calm_drop n).sound_bind (fun _ _ m₂ hm₂ hheap₂ => ?_) hm₁ hheap
    exact hm₂.grow (hheap₂ ▸ hvs)
  rcases hop with rfl | rfl <;> exact (calm_topMost n).sound_bind hlist hm rfl

/-- A value becomes one of another type; at most there is a new list without elements. -/
private theorem allows_cast (hv : v.Whole heap.size) (t : TypeName) :
    Allows (fun _ => True) (fun r => r.2 = heap ∧ r.1.Whole heap.size ∨
      r.2 = heap.push #[] ∧ r.1 = .bukkit heap.size) (v.cast heap t) := by
  cases t with
  | noob => exact .inl ⟨rfl, trivial⟩
  | troof | yarn | numbar => exact (Allows.of_any _).bind fun _ _ => .inl ⟨rfl, trivial⟩
  | numbr =>
    exact (Allows.of_any _).bind fun _ _ => (Allows.of_any _).bind fun _ _ => .inl ⟨rfl, trivial⟩
  | bukkit =>
    cases v with
    | bukkit r => exact .inl ⟨rfl, hv⟩
    | noob => exact .inr ⟨rfl, rfl⟩
    | _ => trivial

theorem sound_cast (hm : m.Sound) : (execute c s o ⟨.cast, n⟩ m).2.Sound := by
  refine calm_pop.sound_bind (fun v hv m₁ hm₁ hheap₁ => ?_) hm rfl
  dsimp only
  cases TypeName.ofCode? n.toUInt8 with
  | none => exact hm₁
  | some t =>
    refine calm_heap.sound_bind (fun h hh m₂ hm₂ hheap₂ => ?_) hm₁ hheap₁
    rw [hh]
    refine (calm_lift (allows_cast hv _)).sound_bind (fun r hr m₃ hm₃ hheap₃ => ?_) hm₂ hheap₂
    obtain ⟨u, heap⟩ := r
    rw [← hheap₃] at hr
    rcases hr with ⟨rfl, hu⟩ | ⟨rfl, rfl⟩
    · exact hm₃.push hu
    · exact hm₃.grow nofun

end Action

/-- A value and a list are on top of the stack for an instruction that stores the one in the
other. -/
def Machine.Puts (m : Machine) (r : Nat) (v : Value) : Opcode → Prop
  | .append => ∃ vs, m.stack.toList = vs ++ [.bukkit r, v]
  | .setIndex => ∃ vs i, m.stack.toList = vs ++ [.bukkit r, i, v]
  | _ => False

/-- The next instruction stores a value in a list that can be reached from it. -/
def Machine.Knots (c : Chunk) (m : Machine) : Prop :=
  ∃ i r v, c.fetch m.next = .ok i ∧ m.Puts r v i.op ∧ Heap.Reaches m.heap v r

/-- What can become of an instruction that stores a value. -/
inductive Machine.Stores (m : Machine) (op : Opcode) : Except Ending Unit × Machine → Prop
  | failed (e : Ending) (height : Nat) :
    Stores m op (.error e, { m with stack := m.stack.cutTo height })
  | stored (r : Nat) (v : Value) (height : Nat) (heap : Heap) (hputs : m.Puts r v op)
    (hv : v ∈ m.stack.cells) (hstored : Heap.Stored m.heap heap r v) :
    Stores m op (.ok (), { m with stack := m.stack.cutTo height, heap })

namespace Action

variable {c : Chunk} {s : Settings} {o n : Nat} {m m' : Machine}

theorem pop_cases (m : Machine) : (∃ e, pop m = (.error e, m)) ∨
    ∃ v, m.stack.toList = (m.stack.drop 1).toList ++ [v] ∧ v ∈ m.stack.cells ∧
      pop m = (.ok v, { m with stack := m.stack.drop 1 }) := by
  simp only [pop, run_bind, run_get, andThen_ok]
  cases htop : m.stack.top? with
  | none => exact .inl ⟨_, rfl⟩
  | some v => exact .inr ⟨v, Stack.toList_of_top? htop, Stack.mem_of_top? htop, rfl⟩

private theorem stores_append : m.Stores .append (execute c s o ⟨.append, n⟩ m) := by
  simp only [execute, run_bind]
  rcases pop_cases m with ⟨e, hpop⟩ | ⟨v, hv, hmem, hpop⟩ <;> rw [hpop]
  · exact .failed e m.stack.height
  rw [andThen_ok, run_bind]
  rcases pop_cases { m with stack := m.stack.drop 1 } with
    ⟨e, hpop⟩ | ⟨target, htarget, -, hpop⟩ <;> rw [hpop]
  · exact .failed e (m.stack.height - 1)
  rw [andThen_ok, run_bind, run_get, andThen_ok]
  have hallows : Allows (fun _ => True)
      (fun heap => ∃ r, target = .bukkit r ∧ Heap.Stored m.heap heap r v)
      (target.append m.heap v) := Heap.allows_append target v
  dsimp only at htarget ⊢
  cases hheap : target.append m.heap v with
  | error f => exact .failed _ (m.stack.height - 1 - 1)
  | ok heap =>
    rw [hheap] at hallows
    obtain ⟨r, rfl, hstored⟩ := hallows
    refine .stored r v (m.stack.height - 1 - 1) heap ⟨((m.stack.drop 1).drop 1).toList, ?_⟩ hmem
      hstored
    rw [hv, htarget, List.append_assoc]
    rfl

private theorem stores_setIndex : m.Stores .setIndex (execute c s o ⟨.setIndex, n⟩ m) := by
  simp only [execute, run_bind]
  rcases pop_cases m with ⟨e, hpop⟩ | ⟨v, hv, hmem, hpop⟩ <;> rw [hpop]
  · exact .failed e m.stack.height
  rw [andThen_ok, run_bind]
  rcases pop_cases { m with stack := m.stack.drop 1 } with
    ⟨e, hpop⟩ | ⟨index, hindex, -, hpop⟩ <;> rw [hpop]
  · exact .failed e (m.stack.height - 1)
  rw [andThen_ok, run_bind]
  rcases pop_cases { m with stack := (m.stack.drop 1).drop 1 } with
    ⟨e, hpop⟩ | ⟨target, htarget, -, hpop⟩ <;> rw [hpop]
  · exact .failed e (m.stack.height - 1 - 1)
  rw [andThen_ok, run_bind, run_get, andThen_ok]
  have hallows : Allows (fun _ => True)
      (fun heap => ∃ r, target = .bukkit r ∧ Heap.Stored m.heap heap r v)
      (target.store m.heap index v) := Heap.allows_store target index v
  dsimp only at hindex htarget ⊢
  cases hheap : target.store m.heap index v with
  | error f => exact .failed _ (m.stack.height - 1 - 1 - 1)
  | ok heap =>
    rw [hheap] at hallows
    obtain ⟨r, rfl, hstored⟩ := hallows
    refine .stored r v (m.stack.height - 1 - 1 - 1) heap
      ⟨(((m.stack.drop 1).drop 1).drop 1).toList, index, ?_⟩ hmem hstored
    rw [hv, hindex, htarget, List.append_assoc, List.append_assoc]
    rfl

end Action

namespace Machine

variable {c : Chunk} {s : Settings} {m m' : Machine} {op : Opcode} {n : Nat}

theorem Puts.unique {r r' : Nat} {v v' : Value} (h : m.Puts r v op) (h' : m.Puts r' v' op) :
    r = r' ∧ v = v' := by
  cases op with
  | append =>
    obtain ⟨vs, hvs⟩ := h
    obtain ⟨vs', hvs'⟩ := h'
    have htops := (List.append_inj' (hvs.symm.trans hvs') rfl).2
    cases htops
    exact ⟨rfl, rfl⟩
  | setIndex =>
    obtain ⟨vs, i, hvs⟩ := h
    obtain ⟨vs', i', hvs'⟩ := h'
    have htops := (List.append_inj' (hvs.symm.trans hvs') rfl).2
    cases htops
    exact ⟨rfl, rfl⟩
  | _ => exact h.elim

theorem Puts.op_eq {r : Nat} {v : Value} (h : m.Puts r v op) : op = .append ∨ op = .setIndex := by
  cases op with
  | append => exact .inl rfl
  | setIndex => exact .inr rfl
  | _ => exact h.elim

theorem stores_execute {o : Nat} (hop : op = .append ∨ op = .setIndex) :
    m.Stores op (Action.execute c s o ⟨op, n⟩ m) := by
  rcases hop with rfl | rfl
  · exact Action.stores_append
  · exact Action.stores_setIndex

/-- The work of an instruction keeps a machine sound, unless it closes a knot. -/
private theorem Sound.execute {o : Nat} {i : Instruction}
    (hpool : ∀ i v, c.pool.get? i = some v → v.Whole 0) (hm : m.Sound)
    (huntied : (Action.execute c s o i m).1 = .ok () → ∀ r v, m.Puts r v i.op →
      ¬ Heap.Reaches m.heap v r) : (Action.execute c s o i m).2.Sound := by
  obtain ⟨op, n⟩ := i
  by_cases hcast : op = .cast
  · subst hcast
    exact Action.sound_cast hm
  by_cases hlist : op = .list ∨ op = .listLong
  · exact Action.sound_list hlist hm
  by_cases hstore : op = .append ∨ op = .setIndex
  · have hstores := stores_execute (c := c) (s := s) (m := m) (n := n) (o := o) hstore
    generalize Action.execute c s o ⟨op, n⟩ m = result at huntied hstores
    cases hstores with
    | failed e height => exact hm.cut height
    | stored r v height heap hputs hv hstored =>
      exact (hm.store (hm.cells v hv) (huntied rfl r v hputs) hstored).cut height
  · exact (Action.calm_execute hpool hcast (not_or.1 hlist) (not_or.1 hstore) hm.heap m hm rfl).1

/-- A step keeps a machine sound, unless it closes a knot. -/
private theorem Sound.step (hpool : ∀ i v, c.pool.get? i = some v → v.Whole 0) (hm : m.Sound)
    (huntied : (m.step c s).1 = .ok () → ¬ m.Knots c) : (m.step c s).2.Sound := by
  rw [Machine.step] at huntied ⊢
  obtain ⟨trace, ⟨e, hstep⟩ | ⟨hinside, ⟨e, hstep⟩ | ⟨i, hfetch, hstep⟩⟩⟩ := Action.step_cases c s m
  · rw [hstep]
    exact { hm with }
  · rw [hstep]
    exact { hm with }
  · rw [hstep] at huntied ⊢
    refine Sound.execute hpool { hm with } fun hok r v hputs hreaches => ?_
    exact huntied hok ⟨i, r, v, hfetch, hputs, hreaches⟩

/-- A step that stores a value in a list which can be reached from it makes a list contain itself. -/
theorem Sound.not_grounded_of_knots (hm : m.Sound) (hknots : m.Knots c)
    (hstep : m.step c s = (.ok (), m')) : ¬ Heap.Grounded m'.heap := by
  obtain ⟨⟨op, n⟩, r, v, hfetch, hputs, hreaches⟩ := hknots
  rw [Machine.step] at hstep
  obtain ⟨trace, ⟨e, hcase⟩ | ⟨hinside, ⟨e, hcase⟩ | ⟨i, hfetch', hcase⟩⟩⟩ := Action.step_cases c s m
  · rw [hcase] at hstep
    cases hstep
  · rw [hcase] at hstep
    cases hstep
  · rw [hfetch] at hfetch'
    cases hfetch'
    rw [hcase] at hstep
    have hstores := stores_execute (c := c) (s := s) (n := n) (o := m.next.toNat + 1) hputs.op_eq
      (m := { m with trace, current := m.next, next := m.next + (⟨op, n⟩ : Instruction).op.length })
    rw [hstep] at hstores
    cases hstores with
    | stored r' v' height heap hputs' hv hstored =>
      obtain ⟨rfl, rfl⟩ := Puts.unique (m := m) hputs hputs'
      exact fun hgrounded => (hstored.grounded_iff hm.grounded).1 hgrounded hreaches

/-- None of the first steps of a run stores a value in a list that can be reached from it. -/
def Untied (c : Chunk) (s : Settings) (m : Machine) (n : Nat) : Prop :=
  ∀ k < n, ∀ m₁ m₂ : Machine, m.runFor c s k = (none, m₁) → m₁.step c s = (.ok (), m₂) →
    ¬ m₁.Knots c

theorem Sound.runFor (hpool : ∀ i v, c.pool.get? i = some v → v.Whole 0) (hm : m.Sound)
    (huntied : m.Untied c s n) : (m.runFor c s n).2.Sound := by
  induction n generalizing m with
  | zero => exact hm
  | succ n ih =>
    have hstep : (m.step c s).2.Sound := by
      refine hm.step hpool fun hok => huntied 0 (Nat.succ_pos n) m (m.step c s).2 rfl ?_
      rw [← hok]
    rw [Machine.runFor]
    cases hrun : m.step c s with
    | mk r m₁ =>
      rw [hrun] at hstep
      cases r with
      | error e => exact hstep
      | ok u =>
        refine ih hstep fun k hk m₂ m₃ hm₂ hm₃ => ?_
        refine huntied (k + 1) (Nat.succ_lt_succ hk) m₂ m₃ ?_ hm₃
        rw [Machine.runFor, hrun]
        exact hm₂

end Machine
end LolToolchain
