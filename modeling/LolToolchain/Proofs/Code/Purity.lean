import LolToolchain.Proofs.Code.Calculation
import LolToolchain.Proofs.Code.Floors
import LolToolchain.Proofs.Evaluation.Renaming

/-!
The code of an expression without calls works on top of the stack only. It pushes one value or ends
with a fault, and the run does not leave it before; frames, the implicit variable, the streams, the
values below and the lists there are stay as they were. Nothing is asked of the values: an operation
that cannot use them ends the run with a fault.
-/
namespace LolToolchain

open Effect
open Heap (Adds)

theorem Value.adds_of_cast {v w : Value} {t : TypeName} {heap heap' : Heap}
    (h : v.cast heap t = .ok (w, heap')) : Adds heap heap' := by
  have hsame {α : Type} {r : Except Fault α} {f : α → Value}
      (hr : (do return (f (← r), heap) : Except Fault (Value × Heap)) = .ok (w, heap')) :
      Adds heap heap' := by
    cases r with
    | error e => cases hr
    | ok a =>
      cases hr
      exact List.prefix_rfl
  cases t with
  | noob =>
    cases h
    exact List.prefix_rfl
  | troof | yarn => exact hsame h
  | numbr =>
    simp only [Value.cast] at h
    cases hnumber : Number.ofValue v with
    | error e =>
      rw [hnumber] at h
      cases h
    | ok x =>
      rw [hnumber] at h
      exact hsame h
  | numbar => exact hsame h
  | bukkit =>
    cases v with
    | bukkit r =>
      cases h
      exact List.prefix_rfl
    | noob =>
      cases h
      exact ⟨[#[]], (Array.toList_push ..).symm⟩
    | _ => cases h

/-- What a machine has besides the stack, the place in the code and new lists stays as it is. -/
structure Machine.Leaves (m m' : Machine) : Prop where
  frames : m'.frames = m.frames
  implicit : m'.implicit = m.implicit
  input : m'.input = m.input
  output : m'.output = m.output
  heap : Adds m.heap m'.heap

namespace Machine.Leaves

theorem refl (m : Machine) : m.Leaves m :=
  ⟨rfl, rfl, rfl, rfl, List.prefix_rfl⟩

theorem trans {m m₁ m₂ : Machine} (h₁ : m.Leaves m₁) (h₂ : m₁.Leaves m₂) : m.Leaves m₂ :=
  ⟨Eq.trans h₂.frames h₁.frames, Eq.trans h₂.implicit h₁.implicit, Eq.trans h₂.input h₁.input,
    Eq.trans h₂.output h₁.output, List.IsPrefix.trans h₁.heap h₂.heap⟩

end Machine.Leaves

namespace Action

/-- Work that takes the `n` values on top of the stack and puts `k` others in their place, or fails:
nothing below them is touched, and it goes on behind it. -/
def Replaces {α : Type} (n k : Nat) (act : Action α) : Prop :=
  ∀ (m : Machine) (us vs : List Value), m.stack.Holds (us ++ vs) → us.length = n →
    m.Leaves (act m).2 ∧ (act m).2.next = m.next ∧ ∃ us', (act m).2.stack.Holds (us' ++ vs) ∧
      (∀ a, (act m).1 = .ok a → us'.length = k) ∧ ∀ e, (act m).1 = .error e → ∃ f, e = .failed f

section

variable {α β : Type} {n k l : Nat}

theorem Replaces.bind {x : Action α} {f : α → Action β} (hx : x.Replaces n k)
    (hf : ∀ a, (f a).Replaces k l) : (x >>= f).Replaces n l := by
  intro m us vs hs hn
  obtain ⟨hleaves, hnext, us₁, hs₁, hk, hfault⟩ := hx m us vs hs hn
  rw [run_bind]
  cases hrun : x m with
  | mk r m₁ =>
    rw [hrun] at hleaves hnext hs₁ hk hfault
    cases r with
    | error e =>
      obtain ⟨fault, rfl⟩ := hfault e rfl
      exact ⟨hleaves, hnext, us₁, hs₁, nofun, fun e he => ⟨fault, (Except.error.inj he).symm⟩⟩
    | ok a =>
      obtain ⟨hleaves', hnext', hrest⟩ := hf a m₁ us₁ vs hs₁ (hk a rfl)
      exact ⟨hleaves.trans hleaves', Eq.trans hnext' hnext, hrest⟩

/-- Work that succeeds, changes no more than the lists and pushes nothing. -/
theorem replaces_of_ok {act : Action α} (h : ∀ m, m.Leaves (act m).2 ∧ (act m).2.next = m.next ∧
    (act m).2.stack = m.stack ∧ ∃ a, (act m).1 = .ok a) : act.Replaces n n := by
  intro m us vs hs hn
  obtain ⟨hleaves, hnext, hstack, a, ha⟩ := h m
  refine ⟨hleaves, hnext, us, hstack ▸ hs, fun _ _ => hn, fun e he => ?_⟩
  rw [ha] at he
  cases he

theorem replaces_pure (a : α) : Replaces n n (pure a) :=
  replaces_of_ok fun m => ⟨.refl m, rfl, rfl, a, rfl⟩

theorem replaces_fail (f : Fault) : Replaces n k (fail f : Action α) :=
  fun m us _ hs _ =>
    ⟨.refl m, rfl, us, hs, nofun, fun _ he => ⟨f, (Except.error.inj he).symm⟩⟩

theorem replaces_lift (r : Except Fault α) : (lift r).Replaces n n := by
  cases r with
  | ok a => exact replaces_pure a
  | error f => exact replaces_fail f

theorem replaces_heap : heap.Replaces n n :=
  replaces_of_ok fun m => ⟨.refl m, rfl, rfl, m.heap, rfl⟩

theorem replaces_get_bind {f : Machine → Action α} (hf : ∀ m₀, (f m₀).Replaces n k) :
    Replaces n k (get >>= f) :=
  Replaces.bind (replaces_of_ok fun m => ⟨.refl m, rfl, rfl, m, rfl⟩) hf

/-- A value is pushed, with new lists if there are any. -/
theorem replaces_modify_push {g : Machine → Machine} (v : Machine → Value)
    (hg : ∀ m, m.Leaves (g m) ∧ (g m).next = m.next ∧ (g m).stack = m.stack.push (v m)) :
    Replaces n (n + 1) (modify g : Action PUnit) := by
  intro m us vs hs hn
  obtain ⟨hleaves, hnext, hstack⟩ := hg m
  refine ⟨hleaves, hnext, v m :: us, ?_, fun _ _ => congrArg Nat.succ hn, nofun⟩
  exact hstack ▸ hs.push (v m)

theorem replaces_push (v : Value) : (push v).Replaces n (n + 1) :=
  replaces_modify_push (fun _ => v) fun _ => ⟨⟨rfl, rfl, rfl, rfl, List.prefix_rfl⟩, rfl, rfl⟩

theorem replaces_drop (j : Nat) : (drop j).Replaces (j + n) n := by
  intro m us vs hs hn
  have hlen : (us.take j).length = j := List.length_take_of_le (by omega)
  have hsplit : m.stack.Holds (us.take j ++ (us.drop j ++ vs)) := by
    rwa [← List.append_assoc, List.take_append_drop]
  refine ⟨⟨rfl, rfl, rfl, rfl, List.prefix_rfl⟩, rfl, us.drop j, ?_, fun _ _ => ?_, nofun⟩
  · have hdrop := hsplit.drop
    rwa [hlen] at hdrop
  · rw [List.length_drop]
    omega

theorem replaces_pop : pop.Replaces (n + 1) n := by
  intro m us vs hs hn
  cases us with
  | nil => cases hn
  | cons v us =>
    rw [run_pop hs]
    exact ⟨⟨rfl, rfl, rfl, rfl, List.prefix_rfl⟩, rfl, us, holds_drop_one hs,
      fun _ _ => Nat.succ.inj hn, nofun⟩

theorem replaces_topMost (j : Nat) : (topMost j).Replaces n n := by
  refine replaces_get_bind fun m => ?_
  split
  · exact replaces_fail _
  · exact replaces_pure _

theorem replaces_binary (f : Heap → Value → Value → Except Fault Value) :
    (binary f).Replaces 2 1 :=
  replaces_pop.bind fun _ => replaces_pop.bind fun _ => replaces_heap.bind fun _ =>
    (replaces_lift _).bind fun _ => replaces_push _

theorem replaces_unary (f : Heap → Value → Except Fault Value) : (unary f).Replaces 1 1 :=
  replaces_pop.bind fun _ => replaces_heap.bind fun _ => (replaces_lift _).bind fun _ =>
    replaces_push _

end

variable {c : Chunk} {s : Settings} {o n : Nat} {op : Opcode}

theorem replaces_constant (hop : op = .loadConst ∨ op = .loadConstLong) :
    (execute c s o ⟨op, n⟩).Replaces 0 1 := by
  have hload : (execute c s o ⟨.loadConst, n⟩).Replaces 0 1 := by
    simp only [execute]
    split
    · exact replaces_push _
    · exact replaces_fail _
  rcases hop with rfl | rfl <;> exact hload

theorem replaces_readIt : (execute c s o ⟨.readIt, n⟩).Replaces 0 1 :=
  replaces_get_bind fun _ => replaces_push _

theorem replaces_readSlot (hop : op = .readSt ∨ op = .readStLong) :
    (execute c s o ⟨op, n⟩).Replaces 0 1 := by
  have hslot : (slot n).Replaces 0 0 := replaces_get_bind fun m => by
    dsimp only
    split
    · exact (replaces_fail (k := 0) _).bind fun _ => replaces_pure _
    · exact replaces_pure _
  have hread : (execute c s o ⟨.readSt, n⟩).Replaces 0 1 := hslot.bind fun place =>
    replaces_get_bind fun m => by
      split
      · exact replaces_push _
      · exact replaces_fail _
  rcases hop with rfl | rfl <;> exact hread

theorem replaces_interpolate (hop : op = .interp ∨ op = .interpLong) {text : Text}
    {splices : List Splice} (hc : c.HasTemplate n text splices) :
    (execute c s o ⟨op, n⟩).Replaces splices.length 1 := by
  have hfill : (interpolate c n).Replaces splices.length 1 := by
    obtain ⟨tag, ht⟩ := hc
    simp only [interpolate, ht, List.length_map]
    refine (replaces_topMost _).bind fun vs => replaces_heap.bind fun h =>
      (replaces_lift _).bind fun parts => (replaces_drop (n := 0) splices.length).bind fun _ => ?_
    split
    · exact replaces_push _
    · exact replaces_fail _
  rcases hop with rfl | rfl <;> exact hfill

theorem replaces_list (hop : op = .list ∨ op = .listLong) :
    (execute c s o ⟨op, n⟩).Replaces n 1 := by
  have hlist : (execute c s o ⟨.list, n⟩).Replaces n 1 :=
    (replaces_topMost n).bind fun vs => (replaces_drop (n := 0) n).bind fun _ =>
      replaces_modify_push (fun m => .bukkit m.heap.size) fun m =>
        ⟨⟨rfl, rfl, rfl, rfl, ⟨[vs], (Array.toList_push ..).symm⟩⟩, rfl, rfl⟩
  rcases hop with rfl | rfl <;> exact hlist

/-- The lists that a conversion brings are new ones of the state it is done in. -/
theorem replaces_cast : (execute c s o ⟨.cast, n⟩).Replaces 1 1 := by
  refine replaces_pop.bind fun v => ?_
  dsimp only
  split
  · exact replaces_fail _
  · rename_i t ht
    intro m us vs hs hn
    simp only [run_bind, run_heap, andThen_ok]
    cases hr : v.cast m.heap t with
    | error e => exact replaces_fail (α := Unit) e m us vs hs hn
    | ok r =>
      have hadds := Value.adds_of_cast hr
      exact ⟨⟨rfl, rfl, rfl, rfl, hadds⟩, rfl, r.1 :: us, hs.push r.1,
        fun _ _ => congrArg Nat.succ hn, nofun⟩

end Action

/-- From every machine with `n` values on top of its stack the code between two offsets leads to its
end and puts `k` others in their place, or ends with a fault; until then it is not left. -/
structure Chunk.Confines (c : Chunk) (s : Settings) (a b n k : Nat) : Prop where
  le : a ≤ b
  runs : ∀ (m : Machine) (us vs : List Value), m.next = a → m.stack.Holds (us ++ vs) →
    us.length = n → ∃ steps r m', m.runFor c s steps = (r, m') ∧ m.Leaves m' ∧
      (∀ j < steps, ∃ m'', m.runFor c s j = (none, m'') ∧ a ≤ m''.next ∧ m''.next < b) ∧
      ∃ us', m'.stack.Holds (us' ++ vs) ∧
        ((r = none ∧ m'.next = b ∧ us'.length = k) ∨ ∃ f, r = some (.failed f))

private theorem Machine.runFor_add {c : Chunk} {s : Settings} {m m₁ : Machine} {i : Nat}
    (h : m.runFor c s i = (none, m₁)) (j : Nat) : m.runFor c s (i + j) = m₁.runFor c s j := by
  induction i generalizing m with
  | zero =>
    cases h
    rw [Nat.zero_add]
  | succ i ih =>
    rw [Nat.succ_add, runFor]
    rw [runFor] at h
    cases hstep : m.step c s with
    | mk r m₂ =>
      rw [hstep] at h
      cases r with
      | error e => cases h
      | ok u => exact ih h

namespace Chunk.Confines

variable {c : Chunk} {s : Settings} {a b d n k l : Nat} {op : Opcode} {arg : Nat} {span : Span}

theorem refl : c.Confines s a a n n where
  le := Nat.le_refl a
  runs m us _ hnext hs hn := ⟨0, none, m, rfl, .refl m, nofun, us, hs, .inl ⟨rfl, hnext, hn⟩⟩

theorem trans (h₁ : c.Confines s a b n k) (h₂ : c.Confines s b d k l) : c.Confines s a d n l where
  le := Nat.le_trans h₁.le h₂.le
  runs m us vs hnext hs hn := by
    have hle₁ := h₁.le
    have hle₂ := h₂.le
    obtain ⟨i, r, m₁, hrun, hleaves, hinside, us₁, hs₁, ⟨rfl, hend, hk⟩ | ⟨f, rfl⟩⟩ :=
      h₁.runs m us vs hnext hs hn
    · obtain ⟨j, r', m₂, hrun', hleaves', hinside', hrest⟩ := h₂.runs m₁ us₁ vs hend hs₁ hk
      refine ⟨i + j, r', m₂, (Machine.runFor_add hrun j).trans hrun', hleaves.trans hleaves',
        fun t ht => ?_, hrest⟩
      by_cases hfirst : t < i
      · obtain ⟨m'', hm'', hlow, hhigh⟩ := hinside t hfirst
        exact ⟨m'', hm'', hlow, by omega⟩
      · obtain ⟨t', rfl⟩ := Nat.exists_eq_add_of_le (Nat.le_of_not_lt hfirst)
        obtain ⟨m'', hm'', hlow, hhigh⟩ := hinside' t' (by omega)
        exact ⟨m'', (Machine.runFor_add hrun t').trans hm'', by omega, hhigh⟩
    · refine ⟨i, _, m₁, hrun, hleaves, fun t ht => ?_, us₁, hs₁, .inr ⟨f, rfl⟩⟩
      obtain ⟨m'', hm'', hlow, hhigh⟩ := hinside t ht
      exact ⟨m'', hm'', hlow, by omega⟩

/-- Further values below those in use are left alone. -/
theorem frame (h : c.Confines s a b n k) (j : Nat) : c.Confines s a b (n + j) (k + j) where
  le := h.le
  runs m us vs hnext hs hn := by
    have hsplit : m.stack.Holds (us.take n ++ (us.drop n ++ vs)) := by
      rwa [← List.append_assoc, List.take_append_drop]
    obtain ⟨steps, r, m', hrun, hleaves, hinside, us', hs', hend⟩ :=
      h.runs m _ _ hnext hsplit (List.length_take_of_le (by omega))
    refine ⟨steps, r, m', hrun, hleaves, hinside, us' ++ us.drop n, ?_, ?_⟩
    · rwa [List.append_assoc]
    · refine hend.imp_left fun h => ⟨h.1, h.2.1, ?_⟩
      rw [List.length_append, List.length_drop]
      omega

/-- A single instruction. -/
theorem of_has (h : c.Has op arg span a b)
    (hop : ∀ o, (Action.execute c s o ⟨op, arg⟩).Replaces n k) : c.Confines s a b n k where
  le := by
    have := h.2.2
    omega
  runs m us vs hnext hs hn := by
    have hlt : a < b := by
      have := h.2.2
      rw [Opcode.length] at this
      omega
    have hinside : ∀ j < 1, ∃ m'', m.runFor c s j = (none, m'') ∧ a ≤ m''.next ∧ m''.next < b := by
      intro j hj
      obtain rfl : j = 0 := by omega
      exact ⟨m, rfl, by omega, by omega⟩
    have hone : m.runFor c s 1 = (failure? (m.step c s).1, (m.step c s).2) := by
      rw [Machine.runFor]
      cases m.step c s with
      | mk r m' => cases r <;> rfl
    refine ⟨1, _, _, hone, ?_⟩
    obtain ⟨trace, ⟨f, hstep⟩ | ⟨-, ⟨f, hstep⟩ | ⟨i, hfetch, hstep⟩⟩⟩ := Action.step_cases c s m
    · rw [Machine.step, hstep]
      exact ⟨⟨rfl, rfl, rfl, rfl, List.prefix_rfl⟩, hinside, us, hs, .inr ⟨f, rfl⟩⟩
    · rw [Machine.step, hstep]
      exact ⟨⟨rfl, rfl, rfl, rfl, List.prefix_rfl⟩, hinside, us, hs, .inr ⟨f, rfl⟩⟩
    · rw [hnext, h.1] at hfetch
      cases hfetch
      rw [Machine.step, hstep]
      obtain ⟨hleaves, hgoes, us', hs', hk, hfault⟩ := hop (m.next.toNat + 1)
        { m with trace, current := m.next, next := m.next + op.length } us vs hs hn
      refine ⟨⟨hleaves.frames, hleaves.implicit, hleaves.input, hleaves.output, hleaves.heap⟩, hinside,
        us', hs', ?_⟩
      revert hk hfault hgoes
      cases Action.execute c s (m.next.toNat + 1) ⟨op, arg⟩
        { m with trace, current := m.next, next := m.next + op.length } with
      | mk r m' =>
        intro hgoes hk hfault
        cases r with
        | ok u =>
          refine .inl ⟨rfl, ?_, hk u rfl⟩
          rw [hgoes, h.2.2, hnext]
          exact (Int.natCast_add a op.length).symm
        | error e =>
          obtain ⟨f, rfl⟩ := hfault e rfl
          exact .inr ⟨f, rfl⟩

theorem constant {v : Value} (h : c.HasConstant v span a b) : c.Confines s a b 0 1 := by
  obtain ⟨i, ⟨op, hop, hi⟩, -⟩ := h
  exact of_has hi fun _ => Action.replaces_constant hop

theorem binary (h : c.Has op 0 span a b) {f : Heap → Value → Value → Except Fault Value}
    (hop : ∀ o, Action.execute c s o ⟨op, 0⟩ = Action.binary f) : c.Confines s a b 2 1 :=
  of_has h fun o => hop o ▸ Action.replaces_binary f

private theorem unary (h : c.Has op 0 span a b) {f : Heap → Value → Except Fault Value}
    (hop : ∀ o, Action.execute c s o ⟨op, 0⟩ = Action.unary f) : c.Confines s a b 1 1 :=
  of_has h fun o => hop o ▸ Action.replaces_unary f

private theorem cast (h : c.Has .cast arg span a b) : c.Confines s a b 1 1 :=
  of_has h fun _ => Action.replaces_cast

end Chunk.Confines

open Chunk (Confines)

variable {c : Chunk} {s : Settings} {outer : List Names} {ns : Names}

theorem Ident.ReadAt.confines {id : Ident} {a b : Nat} (h : id.ReadAt c outer ns a b) :
    c.Confines s a b 0 1 := by
  unfold Ident.ReadAt at h
  split at h
  · exact .of_has h fun _ => Action.replaces_readIt
  · split at h
    · obtain ⟨op, hop, hi⟩ := h
      exact .of_has hi fun _ => Action.replaces_readSlot hop
    · split at h
      · exact .constant h
      · exact h.elim

private theorem Splice.confinesAll : ∀ (ss : List Splice) {a b : Nat}, PlacedAll c outer ns ss a b →
    c.Confines s a b 0 ss.length
  | [], _, _, h => by
    cases h
    exact .refl
  | _ :: ss, _, _, h => by
    obtain ⟨m, hs, hss⟩ := h
    exact hs.confines.trans ((confinesAll ss hss).frame 1)

namespace Expr

mutual

/-- The code of an expression without calls pushes one value or ends with a fault. -/
theorem confines : ∀ (x : Expr) {a b : Nat}, x.hasCall = false → x.Placed c outer ns a b →
    c.Confines s a b 0 1
  | .int _ _, _, _, _, h | .float _ _, _, _, _, h | .string _ _, _, _, _, h | .bool _ _, _, _, _, h
  | .null _, _, _, _, h | .concat _ [], _, _, _, h | .nary _ _ [], _, _, _, h => .constant h
  | .it _, _, _, _, h => .of_has h fun _ => Action.replaces_readIt
  | .var _ _, _, _, _, h => h.confines
  | .call .., _, _, hcall, _ => by cases hcall
  | .interp _ _ splices, _, _, _, h => by
    obtain ⟨m, i, hsplices, ht, op, hop, hi⟩ := h
    exact (Splice.confinesAll splices hsplices).trans
      (.of_has hi fun _ => Action.replaces_interpolate hop ht)
  | .list _ xs, _, _, hcall, h => by
    obtain ⟨m, hxs, op, hop, hi⟩ := h
    exact (confinesAll xs hcall hxs).trans (.of_has hi fun _ => Action.replaces_list hop)
  | .concat _ [x], _, _, hcall, h => by
    obtain ⟨m₁, m₂, hc, hx, hi⟩ := h
    have hcallx := (Bool.or_eq_false_iff.1 hcall).1
    exact (Confines.constant hc).trans (((confines x hcallx hx).frame 1).trans
      (.binary hi fun _ => Action.execute_concat))
  | .concat _ (x :: y :: ys), _, _, hcall, h => by
    obtain ⟨m, hx, hys⟩ := h
    obtain ⟨hcallx, hcallys⟩ := Bool.or_eq_false_iff.1 hcall
    exact (confines x hcallx hx).trans
      (confinesEach (fun _ => Action.execute_concat) (y :: ys) hcallys hys)
  | .cast _ x _, _, _, hcall, h => by
    obtain ⟨m, hx, hi⟩ := h
    exact (confines x hcall hx).trans (.cast hi)
  | .binary _ op x y, _, _, hcall, h => by
    obtain ⟨m₁, m₂, hx, hy, hi⟩ := h
    obtain ⟨hcallx, hcally⟩ := Bool.or_eq_false_iff.1 hcall
    exact (confines x hcallx hx).trans (((confines y hcally hy).frame 1).trans
      (.binary hi fun _ => Action.execute_binary op))
  | .nary _ _ [x], _, _, hcall, h => by
    obtain ⟨m, hx, hi⟩ := h
    exact (confines x (Bool.or_eq_false_iff.1 hcall).1 hx).trans (.cast hi)
  | .nary _ op (x :: y :: ys), _, _, hcall, h => by
    obtain ⟨m, hx, hys⟩ := h
    obtain ⟨hcallx, hcallys⟩ := Bool.or_eq_false_iff.1 hcall
    exact (confines x hcallx hx).trans
      (confinesEach (fun _ => Action.execute_listOp op) (y :: ys) hcallys hys)
  | .unary _ op x, _, _, hcall, h => by
    obtain ⟨m, hx, hi⟩ := h
    exact (confines x hcall hx).trans (.unary hi fun _ => Action.execute_unary op)
  | .pickAt _ i x, _, _, hcall, h => by
    obtain ⟨m₁, m₂, hx, hi, hp⟩ := h
    obtain ⟨hcalli, hcallx⟩ := Bool.or_eq_false_iff.1 hcall
    exact (confines x hcallx hx).trans (((confines i hcalli hi).frame 1).trans
      (.binary hp fun _ => Action.execute_getIndex))
  | .pickFront _ x, _, _, hcall, h => by
    obtain ⟨m, hx, hi⟩ := h
    exact (confines x hcall hx).trans (.unary hi fun _ => Action.execute_front)
  | .pickBack _ x, _, _, hcall, h => by
    obtain ⟨m, hx, hi⟩ := h
    exact (confines x hcall hx).trans (.unary hi fun _ => Action.execute_back)

theorem confinesAll : ∀ (xs : List Expr) {a b : Nat}, anyCall xs = false →
    PlacedAll c outer ns xs a b → c.Confines s a b 0 xs.length
  | [], _, _, _, h => by
    cases h
    exact .refl
  | x :: xs, _, _, hcall, h => by
    obtain ⟨m, hx, hxs⟩ := h
    obtain ⟨hcallx, hcallxs⟩ := Bool.or_eq_false_iff.1 hcall
    exact (confines x hcallx hx).trans ((confinesAll xs hcallxs hxs).frame 1)

theorem confinesEach {f : Heap → Value → Value → Except Fault Value} {op : Opcode} {span : Span}
    (hop : ∀ o, Action.execute c s o ⟨op, 0⟩ = Action.binary f) :
    ∀ (xs : List Expr) {a b : Nat}, anyCall xs = false → PlacedEach c outer ns op span xs a b →
      c.Confines s a b 1 1
  | [], _, _, _, h => by
    cases h
    exact .refl
  | x :: xs, _, _, hcall, h => by
    obtain ⟨m₁, m₂, hx, hi, hxs⟩ := h
    obtain ⟨hcallx, hcallxs⟩ := Bool.or_eq_false_iff.1 hcall
    exact ((confines x hcallx hx).frame 1).trans
      ((Confines.binary hi hop).trans (confinesEach hop xs hcallxs hxs))

end

/-- An expression without calls is pure. From every machine that has got to its code a run pushes one
value and ends behind the code, or ends with a fault; in both cases the values on the stack, the
implicit variable, the frames, the streams and the lists there are stay, and no instruction outside
the code has been executed. -/
theorem pure_of_noCall {x : Expr} (hcall : x.hasCall = false) {a a' : Assembly} (ha : a.Lexical)
    (h : x.assemble a = .ok ((), a')) {opened : List Nat} (hc : c.Completes a'.chunk opened)
    (hopened : ∀ j ∈ opened, j + 4 ≤ a.chunk.code.size) (s : Settings) {m : Machine}
    (hnext : m.next = a.chunk.code.size) (hstack : m.stack.height ≤ m.stack.cells.size) :
    ∃ n r m', m.runFor c s n = (r, m') ∧
      ((r = none ∧ m'.next = a'.chunk.code.size ∧ ∃ v, m'.stack.toList = m.stack.toList ++ [v]) ∨
        ∃ f, r = some (.failed f)) ∧
      m.stack.toList <+: m'.stack.toList ∧ m.Leaves m' ∧
      ∀ j < n, ∃ m'', m.runFor c s j = (none, m'') ∧
        a.chunk.code.size ≤ m''.next ∧ m''.next < a'.chunk.code.size := by
  have hplaced := ((emits x h).chunk.back c opened hc hopened).2 ha
  have hholds : m.stack.Holds ([] ++ m.stack.toList.reverse) := by
    refine ⟨?_, ?_⟩
    · simp only [Stack.toList, List.nil_append, List.length_reverse, List.length_take,
        Array.length_toList]
      omega
    · rw [List.nil_append, List.reverse_reverse]
      exact List.take_prefix _ _
  obtain ⟨n, r, m', hrun, hleaves, hinside, us, hs, hend⟩ :=
    (confines x hcall hplaced (s := s)).runs m [] _ hnext hholds rfl
  have htoList : m'.stack.toList = m.stack.toList ++ us.reverse := by
    rw [hs.toList, List.reverse_append, List.reverse_reverse]
  refine ⟨n, r, m', hrun, hend.imp_left fun h => ⟨h.1, h.2.1, ?_⟩, ⟨us.reverse, htoList.symm⟩,
    hleaves, hinside⟩
  obtain ⟨v, rfl⟩ := List.length_eq_one_iff.1 h.2.2
  exact ⟨v, htoList⟩

/-- A list of the implicit variable and a number, where there is a list already. -/
theorem pure_of_noCall_list : ∃ a', (list .zero [.it .zero, .int .zero 3]).assemble
      ⟨.empty, .empty, []⟩ = .ok ((), a') ∧
    ∃ n r m', ((Machine.idle #[#[.noob]]).start []).runFor a'.chunk {} n = (r, m') ∧
      ((r = none ∧ m'.next = a'.chunk.code.size ∧
        ∃ v, m'.stack.toList = ((Machine.idle #[#[.noob]]).start []).stack.toList ++ [v]) ∨
        ∃ f, r = some (.failed f)) ∧
      ((Machine.idle #[#[.noob]]).start []).stack.toList <+: m'.stack.toList ∧
      ((Machine.idle #[#[.noob]]).start []).Leaves m' ∧
      ∀ j < n, ∃ m'', ((Machine.idle #[#[.noob]]).start []).runFor a'.chunk {} j = (none, m'') ∧
        (0 : Nat) ≤ m''.next ∧ m''.next < a'.chunk.code.size := by
  refine ⟨_, rfl, ?_⟩
  exact pure_of_noCall (x := list .zero [.it .zero, .int .zero 3]) (a := ⟨.empty, .empty, []⟩) rfl
    Assembly.lexical_start rfl (.refl rfl) nofun {} rfl (by decide)

end Expr
end LolToolchain
