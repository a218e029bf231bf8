import LolToolchain.Proofs.Effect
import LolToolchain.Proofs.Evaluation.Basic

/-!
What a run of the machine depends on, and what it can be seen to do. Two machines that show the same
snapshot differ at most in stack cells above the height, in the trace and in the last instruction
begun; `Leads` says what can be seen of every machine that shows a snapshot.
-/
namespace LolToolchain

/-- The part of a list behind one of its elements. -/
theorem exists_mem_split {α : Type} : ∀ {xs : List α} {i : Nat}, i < xs.length →
    ∃ ws v vs, xs = ws ++ v :: vs ∧ vs.length = i
  | [], _, h => absurd h (Nat.not_lt_zero _)
  | x :: xs, i, h => by
    by_cases hi : i < xs.length
    · obtain ⟨ws, v, vs, rfl, hlen⟩ := exists_mem_split hi
      exact ⟨x :: ws, v, vs, rfl, hlen⟩
    · rw [List.length_cons] at h
      exact ⟨[], x, xs, rfl, by omega⟩

namespace Stack

/-- The values on a stack, top first. -/
def Holds (s : Stack) (vs : List Value) : Prop :=
  s.height = vs.length ∧ vs.reverse <+: s.cells.toList

variable {s : Stack} {vs ws : List Value} {v w : Value}

theorem Holds.unique (h : s.Holds vs) (h' : s.Holds ws) : vs = ws := by
  have hlen : vs.reverse.length = ws.reverse.length := by
    rw [List.length_reverse, List.length_reverse, ← h.1, h'.1]
  have hbegin := List.prefix_of_prefix_length_le h.2 h'.2 (Nat.le_of_eq hlen)
  exact List.reverse_inj.1 (hbegin.eq_of_length hlen)

theorem Holds.get? (h : s.Holds (ws ++ v :: vs)) : s.get? vs.length = some v := by
  obtain ⟨hh, t, ht⟩ := h
  simp only [List.length_append, List.length_cons] at hh
  rw [Stack.get?, if_pos (by omega), ← Array.getElem?_toList, ← ht]
  simp

theorem Holds.push (h : s.Holds vs) (v : Value) : (s.push v).Holds (v :: vs) := by
  obtain ⟨hh, t, ht⟩ := h
  have hsize := congrArg List.length ht
  simp only [List.length_append, List.length_reverse, Array.length_toList] at hsize
  unfold Stack.push
  split
  · refine ⟨by simp [hh], ?_⟩
    cases t with
    | nil =>
      simp only [List.length_nil] at hsize
      omega
    | cons x t =>
      refine ⟨t, ?_⟩
      simp [← ht, hh, List.set_append_right]
  · have hnil : t = [] := List.length_eq_zero_iff.1 (by omega)
    subst hnil
    refine ⟨by simp [hh], [], ?_⟩
    simp [← ht]

theorem Holds.top? (h : s.Holds (v :: vs)) : s.top? = some v := by
  have hh := h.1
  simp only [List.length_cons] at hh
  rw [Stack.top?, if_neg (by omega), hh, Nat.add_sub_cancel]
  have hnone : s.Holds ([] ++ v :: vs) := h
  exact hnone.get?

theorem Holds.drop (h : s.Holds (ws ++ vs)) : (s.drop ws.length).Holds vs := by
  refine ⟨by simp [Stack.drop, h.1], ?_⟩
  have hp := h.2
  rw [List.reverse_append] at hp
  exact (List.prefix_append _ _).trans hp

theorem Holds.cutTo (h : s.Holds (ws ++ vs)) : (s.cutTo vs.length).Holds vs := by
  refine ⟨rfl, ?_⟩
  have hp := h.2
  rw [List.reverse_append] at hp
  exact (List.prefix_append _ _).trans hp

theorem Holds.topMost? (h : s.Holds (ws ++ vs)) :
    s.topMost? ws.length = some ws.reverse.toArray := by
  obtain ⟨hh, t, ht⟩ := h
  simp only [List.length_append] at hh
  rw [Stack.topMost?, if_pos (by omega)]
  congr 1
  apply Array.toList_inj.1
  rw [Array.toList_extract, ← ht, hh]
  simp [List.extract]

theorem Holds.set (h : s.Holds (ws ++ v :: vs)) (w : Value) :
    (s.set vs.length w).Holds (ws ++ w :: vs) := by
  obtain ⟨hh, t, ht⟩ := h
  refine ⟨by simpa [Stack.set] using hh, t, ?_⟩
  simp [Stack.set, ← ht, List.set_append_right]

end Stack

/-- What the further course of a run depends on. -/
structure Snapshot where
  next : Nat
  stack : List Value
  frames : List Frame
  implicit : Value
  heap : Heap
  input : Text
  output : Array UInt8

/-- Whether a machine is in the state of a snapshot. -/
structure Machine.Shows (m : Machine) (x : Snapshot) : Prop where
  next : m.next = x.next
  stack : m.stack.Holds x.stack
  frames : m.frames = x.frames
  implicit : m.implicit = x.implicit
  heap : m.heap = x.heap
  input : m.input = x.input
  output : m.output = x.output

theorem Snapshot.exists_shows (x : Snapshot) : ∃ m : Machine, m.Shows x := by
  refine ⟨⟨x.next, 0, ⟨x.stack.reverse.toArray, x.stack.length⟩, x.frames, x.implicit, x.heap, x.input,
    x.output, #[]⟩, ⟨rfl, ⟨rfl, List.prefix_rfl⟩, rfl, rfl, rfl, rfl, rfl⟩⟩

/-- How a run that has ended is seen to have ended: the instruction it ended in tells a return at
the top level from the end of the code, and has the place of a fault. -/
def Ending.finish (c : Chunk) (current : Int) : Ending → Finish
  | .halted =>
    match c.fetch current with
    | .ok ⟨.ret, _⟩ => .found
    | _ => .fellOff
  | .failed f => .failed f (c.spanAt current)

namespace Machine

/-- What can be seen of a run. -/
def observe (c : Chunk) (r : Option Ending × Machine) : Observation :=
  ⟨r.1.map (·.finish c r.2.current), r.2.output, r.2.input⟩

end Machine

namespace Snapshot

variable {c : Chunk} {s : Settings} {x y : Snapshot} {n : Nat} {o : Observation}

/-- What is seen of a run from a snapshot after some steps. -/
def Leads (c : Chunk) (s : Settings) (x : Snapshot) (n : Nat) (o : Observation) : Prop :=
  ∀ m : Machine, m.Shows x → Machine.observe c (m.runFor c s n) = o

/-- One step leads from a snapshot to another. -/
def Steps (c : Chunk) (s : Settings) (x y : Snapshot) : Prop :=
  ∀ m : Machine, m.Shows x → ∃ m', m.step c s = (.ok (), m') ∧ m'.Shows y

/-- The next step from a snapshot ends the run. -/
def Stops (c : Chunk) (s : Settings) (x : Snapshot) (o : Observation) : Prop :=
  ∀ m : Machine, m.Shows x →
    ∃ e m', m.step c s = (.error e, m') ∧ Machine.observe c (some e, m') = o

theorem Leads.zero : x.Leads c s 0 ⟨none, x.output, x.input⟩ := by
  intro m hm
  simp [Machine.runFor, Machine.observe, hm.output, hm.input]

theorem Leads.of_steps (h : Steps c s x y) (hy : y.Leads c s n o) : x.Leads c s (n + 1) o := by
  intro m hm
  obtain ⟨m', hs, hm'⟩ := h m hm
  simp only [Machine.runFor, hs]
  exact hy m' hm'

theorem Leads.of_stops (h : Stops c s x o) : x.Leads c s (n + 1) o := by
  intro m hm
  obtain ⟨e, m', hs, ho⟩ := h m hm
  simp only [Machine.runFor, hs]
  exact ho

end Snapshot
end LolToolchain
