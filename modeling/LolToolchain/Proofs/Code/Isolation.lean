import LolToolchain.Proofs.Code.Discipline
import LolToolchain.Proofs.Machine.Locality

/-!
A function sees only its arguments. Two calls of it with the same arguments, lists and input go on in
the same way, whatever their callers have on the stack and in their implicit variables.
-/
namespace LolToolchain

open Effect

/-- A run of at most as many steps as there is fuel, which stops where no more frames than a number of
them are left. -/
def Machine.runCall (c : Chunk) (s : Settings) (depth : Nat) : Nat → Machine → Option Ending × Machine
  | 0, m => (none, m)
  | fuel + 1, m =>
    if m.frames.length ≤ depth then (none, m)
    else
      match m.step c s with
      | (.ok (), m) => runCall c s depth fuel m
      | (.error e, m) => (some e, m)

/-- Two runs come out the same, each for its own caller: they print the same, leave the same lists and
the same input, and both go on, both fail with the same diagnostic, or both return the same value. -/
structure Caller.Alike (c : Chunk) (k₁ k₂ : Caller) (r₁ r₂ : Option Ending × Machine) : Prop where
  ending : r₁.1 = r₂.1
  failure : r₁.2.failure? c r₁.1 = r₂.2.failure? c r₂.1
  output : ∃ text, r₁.2.output = k₁.output ++ text ∧ r₂.2.output = k₂.output ++ text
  input : r₁.2.input = r₂.2.input
  heap : r₁.2.heap = r₂.2.heap
  depth : r₁.2.frames.length = r₂.2.frames.length
  value : r₁.1 = none → r₁.2.frames.length = k₁.frames.length →
    ∃ v, k₁.Returned v r₁.2 ∧ k₂.Returned v r₂.2

namespace Caller.Alike

variable {c : Chunk} {k₁ k₂ : Caller} {m M₁ M₂ : Machine}

/-- Both callees go on, or end, in one state. -/
theorem of_lifts {e : Option Ending} (h₁ : k₁.Lifts { m with current := M₁.current } M₁)
    (h₂ : k₂.Lifts { m with current := M₂.current } M₂) (hdepth : k₁.outer.length = k₂.outer.length)
    (hcurrent : e = none ∨ M₁.current = M₂.current) : Alike c k₁ k₂ (e, M₁) (e, M₂) where
  ending := rfl
  failure := by
    rcases hcurrent with rfl | hcurrent
    · rfl
    · cases e with
      | none => rfl
      | some e => cases e <;> simp only [Machine.failure?, hcurrent]
  output := ⟨m.output, h₁.output, h₂.output⟩
  input := h₁.input.trans h₂.input.symm
  heap := h₁.heap.trans h₂.heap.symm
  depth := by
    have hlen : k₁.frames.length = k₂.frames.length := congrArg Nat.succ hdepth
    rw [h₁.length_frames, h₂.length_frames, hlen]
  value _ hreturned := by
    -- the callee's own frame is still there
    obtain ⟨fs, f, hframes, -, -⟩ := h₁.frames
    have hlen := h₁.length_frames
    rw [hframes, List.length_append, List.length_singleton, hreturned] at hlen
    omega

/-- Both callees have returned. -/
private theorem of_returned {v : Value} {output : Array UInt8} (h₁ : k₁.Returned v M₁)
    (h₂ : k₂.Returned v M₂) (hdepth : k₁.outer.length = k₂.outer.length)
    (houtput₁ : M₁.output = k₁.output ++ output) (houtput₂ : M₂.output = k₂.output ++ output)
    (hinput : M₁.input = M₂.input) (hheap : M₁.heap = M₂.heap) :
    Alike c k₁ k₂ (none, M₁) (none, M₂) where
  ending := rfl
  failure := rfl
  output := ⟨output, houtput₁, houtput₂⟩
  input := hinput
  heap := hheap
  depth := by
    rw [h₁.frames, h₂.frames]
    exact congrArg Nat.succ hdepth
  value _ _ := ⟨v, h₁, h₂⟩

end Caller.Alike

namespace Caller

variable {c : Chunk} {s : Settings} {k : Caller} {m M : Machine} {n : Nat}

private theorem Lifts.runCall_succ (h : k.Lifts m M) :
    M.runCall c s k.frames.length (n + 1) = match M.step c s with
      | (.ok (), M) => M.runCall c s k.frames.length n
      | (.error e, M) => (some e, M) := by
  obtain ⟨fs, f, hframes, -, -⟩ := h.frames
  have hlen := h.length_frames
  rw [hframes, List.length_append, List.length_singleton] at hlen
  rw [Machine.runCall, if_neg (by omega)]

private theorem Returned.runCall {v : Value} (h : k.Returned v M) :
    M.runCall c s k.frames.length n = (none, M) := by
  cases n with
  | zero => rfl
  | succ n => rw [Machine.runCall, if_pos (Nat.le_of_eq (congrArg List.length h.frames))]

end Caller

namespace Snapshot.Fits

variable {l : Linked} {H : Heights} {x : Snapshot} {c : Chunk} {s : Settings} {m : Machine}

/-- The work of an instruction of a callee, the last return aside, is the same over each caller. -/
private theorem execute_lifts (hc : c.Agrees l H) (hx : x.Fits l H) {i : Instruction}
    (hfetch : c.fetch x.next = .ok i) (hm : m.Shows { x with next := x.next + i.op.length })
    (hret : i.op = .ret → ∃ f g fs, x.frames = f :: g :: fs) {k : Caller} {M : Machine}
    (h : k.Lifts m M) :
    ∃ M', Action.execute c s (x.next + 1) i M =
      ((Action.execute c (k.settings s) (x.next + 1) i m).1, M') ∧
      k.Lifts (Action.execute c (k.settings s) (x.next + 1) i m).2 M' := by
  obtain ⟨j, hj, hpops, haccepts, hleads⟩ := hc.checks x.next hx.height.1
  rw [hfetch] at hj
  cases hj
  rw [hx.height.2] at hpops haccepts hleads
  have hdepth : x.depth ≤ m.stack.height := by
    rw [hm.stack.1, depth]
    exact Nat.sub_le _ _
  by_cases hop : i.op = .interp ∨ i.op = .interpLong
  · obtain ⟨op, n⟩ := i
    have htemplate : ∃ text splices, c.HasTemplate n text splices := by
      rcases hop with rfl | rfl <;> exact haccepts
    obtain ⟨text, splices, tag, hget⟩ := htemplate
    rw [Chunk.HasTemplate.pops ⟨tag, hget⟩ hop] at hpops
    obtain ⟨r, m', M', hrun, hRun, h'⟩ := Caller.lifts_interpolate h hget (by
      rw [List.length_map]
      omega)
    have he : ∀ s, Action.execute c s (x.next + 1) ⟨op, n⟩ = Action.interpolate c n := by
      intro s
      rcases hop with rfl | rfl <;> rfl
    rw [he, he, hrun, hRun]
    exact ⟨M', rfl, h'⟩
  by_cases hleave : i.op = .ret
  · obtain ⟨op, n⟩ := i
    obtain rfl : op = .ret := hleave
    obtain ⟨f, g, fs, hframes⟩ := hret rfl
    obtain ⟨v, ws, w, vs, hstack, hbase⟩ := hx.split_call hframes hpops
    obtain ⟨m', M', hrun, hRun, h'⟩ := Caller.lifts_ret (s := s) h (hm.frames.trans hframes)
      (hstack ▸ hm.stack) hbase
    simp only [Action.execute, hrun, hRun]
    exact ⟨M', rfl, h'⟩
  · have hsafe := hx.keeps_execute (s := k.settings s)
      (fun f (hf : f.isInternal = false) => hf) hc (fun h => absurd h hop) hpops haccepts hleads m hm
    have hmatches := Caller.mirrors_execute (c := c) (s := s) (o := x.next + 1) (i := i)
      (not_or.1 hop) hleave m M h
    revert hsafe hmatches
    generalize Action.execute c (k.settings s) (x.next + 1) i m = r
    generalize Action.execute c s (x.next + 1) i M = R
    intro hsafe hmatches
    cases hmatches with
    | broken hf => exact absurd (hf.symm.trans hsafe) Bool.noConfusion
    | same h' => exact ⟨_, rfl, h'⟩

/-- A step of a callee is its last return, or it is the same over each caller and leads to a fit state. -/
private theorem step_lifts (hc : c.Agrees l H) (htrace : s.tracing = false) (hx : x.Fits l H)
    (hm : m.Shows x) (s' : Settings) :
    (∃ v, ∀ (k : Caller) (M : Machine), k.Lifts { m with current := M.current } M →
      ∃ M', M.step c s = (.ok (), M') ∧ k.Returned v M' ∧ M'.heap = m.heap ∧ M'.input = m.input ∧
        M'.output = k.output ++ m.output) ∨
    ∃ r m', (r = .ok () → ∃ y : Snapshot, m'.Shows y ∧ y.Fits l H) ∧
      ∀ (k : Caller) (M : Machine), k.settings s = s' → k.Lifts { m with current := M.current } M →
        ∃ M', M.step c s = (r, M') ∧ k.Lifts m' M' := by
  obtain ⟨i, hfetch, hpops, haccepts, hleads⟩ := hc.checks x.next hx.height.1
  rw [hx.height.2] at hpops haccepts hleads
  -- the callee as a run of its own, with the instruction fetched
  let next := x.next + i.op.length
  let m₁ : Machine := { m with current := x.next, next := next }
  have hm₁ : m₁.Shows { x with next } := { hm with next := rfl }
  have hstart : ∀ (k : Caller) (M : Machine), k.Lifts { m with current := M.current } M →
      M.step c s = Action.execute c s (x.next + 1) i { M with current := x.next, next := next } ∧
      k.Lifts m₁ { M with current := x.next, next := next } := by
    intro k M h
    have hnext : M.next = x.next := h.next.trans hm.next
    exact ⟨step_of_fetch htrace hfetch hnext, { h with next := rfl, current := rfl }⟩
  obtain ⟨f, fs, hframes, -⟩ := hx.frame
  by_cases hlast : i.op = .ret ∧ fs = []
  · obtain ⟨op, n⟩ := i
    obtain ⟨rfl, rfl⟩ : op = .ret ∧ fs = [] := hlast
    obtain ⟨v, ws, w, vs, hstack, hbase⟩ := hx.split_call hframes hpops
    have hnested := hx.frames
    rw [hframes] at hnested
    obtain rfl : vs = [] := by
      have hfirst : f.base = 1 := hnested
      exact List.length_eq_zero_iff.1 (by omega)
    refine .inl ⟨v, fun k M h => ?_⟩
    obtain ⟨hstep, h₁⟩ := hstart k M h
    rw [hstep]
    exact Caller.returned_ret (m := m₁) h₁ (hm.frames.trans hframes) (hstack ▸ hm.stack)
  · have hkeeps := hx.keeps_execute (s := s') (fun _ _ => trivial) hc
      (fun _ v _ => v.literal_of_allowed trivial) hpops haccepts hleads m₁ hm₁
    refine .inr ⟨(Action.execute c s' (x.next + 1) i m₁).1,
      (Action.execute c s' (x.next + 1) i m₁).2, fun hr => ?_, fun k M hk h => ?_⟩
    · revert hkeeps hr
      generalize Action.execute c s' (x.next + 1) i m₁ = r
      obtain ⟨r, m'⟩ := r
      rintro hkeeps rfl
      obtain ⟨y, hy, hfits, -⟩ := hkeeps
      exact ⟨y, hy, hfits⟩
    · obtain ⟨hstep, h₁⟩ := hstart k M h
      rw [hstep, ← hk]
      refine hx.execute_lifts hc hfetch hm₁ (fun hret => ?_) h₁
      cases fs with
      | nil => exact absurd ⟨hret, rfl⟩ hlast
      | cons g fs => exact ⟨f, g, fs, hframes⟩

/-- A callee goes on in the same way over two callers. -/
private theorem alike_runCall (hc : c.Agrees l H) (htrace : s.tracing = false) {k₁ k₂ : Caller}
    (hdepth : k₁.outer.length = k₂.outer.length) : ∀ (n : Nat) {x : Snapshot} {m M₁ M₂ : Machine},
    x.Fits l H → m.Shows x → k₁.Lifts { m with current := M₁.current } M₁ →
    k₂.Lifts { m with current := M₂.current } M₂ →
    k₁.Alike c k₂ (M₁.runCall c s k₁.frames.length n) (M₂.runCall c s k₂.frames.length n)
  | 0, x, m, M₁, M₂, _, _, h₁, h₂ => .of_lifts h₁ h₂ hdepth (.inl rfl)
  | n + 1, x, m, M₁, M₂, hx, hm, h₁, h₂ => by
    have hsettings : k₂.settings s = k₁.settings s := by
      simp only [Caller.settings, Caller.frames, List.length_cons, hdepth]
    rw [h₁.runCall_succ, h₂.runCall_succ]
    rcases hx.step_lifts hc htrace hm (k₁.settings s) with ⟨v, hlast⟩ | ⟨r, m', hfits, hsame⟩
    · obtain ⟨M₁', hstep₁, hreturned₁, hheap₁, hinput₁, houtput₁⟩ := hlast k₁ M₁ h₁
      obtain ⟨M₂', hstep₂, hreturned₂, hheap₂, hinput₂, houtput₂⟩ := hlast k₂ M₂ h₂
      simp only [hstep₁, hstep₂, hreturned₁.runCall, hreturned₂.runCall]
      exact .of_returned hreturned₁ hreturned₂ hdepth houtput₁ houtput₂ (hinput₁.trans hinput₂.symm)
        (hheap₁.trans hheap₂.symm)
    · obtain ⟨M₁', hstep₁, h₁'⟩ := hsame k₁ M₁ rfl h₁
      obtain ⟨M₂', hstep₂, h₂'⟩ := hsame k₂ M₂ hsettings h₂
      simp only [hstep₁, hstep₂]
      cases r with
      | error e =>
        exact .of_lifts { h₁' with current := rfl } { h₂' with current := rfl } hdepth
          (.inr (h₁'.current.trans h₂'.current.symm))
      | ok u =>
        obtain ⟨y, hm', hy⟩ := hfits rfl
        exact alike_runCall hc htrace hdepth n hy hm' { h₁' with current := rfl }
          { h₂' with current := rfl }

end Snapshot.Fits

/-- A value that a run of some code can have: a function is one of the constants, and a list is on the
heap. -/
def Value.Belongs (c : Chunk) (size : Nat) : Value → Prop
  | .funkshon offset => ∃ x ∈ c.pool.constants.toList, x.value = .funkshon offset
  | .bukkit ref => ref < size
  | .interp _ | .unknown _ => False
  | _ => True

/-- The machine is about to run the body of a function: the caller has just called it. -/
structure Caller.Enters (k : Caller) (c : Chunk) (offset : Int64) (args : List Value) (m : Machine) :
    Prop where
  marker : c.fetch offset.toInt = .ok ⟨.fnDef, args.length⟩
  next : m.next = offset.toInt + Opcode.fnDef.length
  stack : m.stack.Holds (args.reverse ++ Value.funkshon offset :: k.below)
  frames : m.frames = k.callee :: k.frames
  implicit : m.implicit = .noob
  output : m.output = k.output

namespace Program.Measured

variable {p : Program} {c : Chunk} {address : Nat → Nat} {H : Heights}

private theorem valid_of_belongs (h : p.Measured c address H) (s : Settings) {v : Value} {n : Nat}
    (hv : v.Belongs c n) : v.Valid ⟨s, p.functions address, address⟩ n := by
  cases v with
  | funkshon offset =>
    obtain ⟨x, hx, hvalue⟩ := hv
    obtain ⟨j, hj, hknown⟩ := h.known x hx offset hvalue
    rw [← hvalue, hknown]
    exact p.valid_functionValue address s hj
  | _ => exact hv

/-- The callee as a run of its own begins in a fit state. -/
private theorem fits_entry (h : p.Measured c address H) (hshort : c.code.size < 2 ^ 31) (s : Settings)
    {offset : Int64} {args : List Value} (hcallee : (Value.funkshon offset).Belongs c 0)
    (hmarker : c.fetch offset.toInt = .ok ⟨.fnDef, args.length⟩) {heap : Heap}
    (hargs : ∀ v ∈ args, v.Belongs c heap.size)
    (hlists : ∀ elems ∈ heap, ∀ v ∈ elems, v.Belongs c heap.size) (input : Text) :
    ∃ next : Nat, next = offset.toInt + Opcode.fnDef.length ∧
      Snapshot.Fits ⟨s, p.functions address, address⟩ H
        ⟨next, args.reverse ++ [Value.funkshon offset], [⟨0, 1, .noob⟩], .noob, heap, input,
          #[]⟩ := by
  have hc := h.agrees hshort s
  obtain ⟨a, arity, hoffset, hmarked, -⟩ := hc.exists_marker (h.valid_of_belongs s hcallee)
  rw [hoffset] at hmarker
  refine ⟨a + Opcode.fnDef.length, by rw [hoffset, Int.natCast_add], rfl, ?_, ?_, ?_, trivial, ?_, ?_⟩
  · exact Nat.le_of_lt_succ (by simp [Snapshot.base])
  · have hdepth : (args.reverse ++ [Value.funkshon offset]).length - 1 = args.length := by simp
    rw [Snapshot.depth, Snapshot.base]
    dsimp only
    rw [hdepth]
    exact hc.entry hmarked hmarker
  · refine List.forall_mem_append.2 ⟨fun v hv => ?_, List.forall_mem_singleton.2 ?_⟩
    · exact h.valid_of_belongs s (hargs v (List.mem_reverse.1 hv))
    · exact (h.valid_of_belongs s hcallee).mono (Nat.zero_le _)
  · exact List.forall_mem_singleton.2 trivial
  · exact fun elems helems v hv => h.valid_of_belongs s (hlists elems helems v hv)

end Program.Measured

/-- A function sees only its arguments. Two calls of it with the same arguments, the same lists, the same
input and the same number of frames come out the same, whatever the callers have on the stack and in their
implicit variables. A trace would show the callers' values, so there is none. -/
theorem Program.alike_of_enters (p : Program) (names : NameTable) (c : Chunk)
    (hcompile : p.compile names = .ok c) (hshort : c.code.size < 2 ^ 31) (s : Settings)
    (htrace : s.tracing = false) {offset : Int64} {args : List Value} {k₁ k₂ : Caller}
    {m₁ m₂ : Machine} (h₁ : k₁.Enters c offset args m₁) (h₂ : k₂.Enters c offset args m₂)
    (hdepth : m₁.frames.length = m₂.frames.length) (hheap : m₁.heap = m₂.heap)
    (hinput : m₁.input = m₂.input) (hcallee : (Value.funkshon offset).Belongs c 0)
    (hargs : ∀ v ∈ args, v.Belongs c m₁.heap.size)
    (hlists : ∀ elems ∈ m₁.heap, ∀ v ∈ elems, v.Belongs c m₁.heap.size) (n : Nat) :
    k₁.Alike c k₂ (m₁.runCall c s k₁.frames.length n) (m₂.runCall c s k₂.frames.length n) := by
  obtain ⟨address, H, hH⟩ := Program.exists_heights hcompile hshort
  obtain ⟨next, hnext, hfits⟩ := hH.fits_entry hshort s hcallee h₁.marker hargs hlists m₁.input
  obtain ⟨m, hm⟩ := Snapshot.exists_shows
    ⟨next, args.reverse ++ [Value.funkshon offset], [⟨0, 1, .noob⟩], .noob, m₁.heap, m₁.input, #[]⟩
  have hlifts : ∀ {k : Caller} {M : Machine}, k.Enters c offset args M → M.heap = m₁.heap →
      M.input = m₁.input → k.Lifts { m with current := M.current } M := by
    intro k M h hheap hinput
    refine ⟨?_, rfl, ⟨_, hm.stack, ?_⟩, ⟨[], _, hm.frames, rfl, h.frames⟩, ?_, ?_, ?_, ?_⟩
    · exact h.next.trans (hnext.symm.trans hm.next.symm)
    · simpa using h.stack
    · exact h.implicit.trans hm.implicit.symm
    · exact hheap.trans hm.heap.symm
    · exact hinput.trans hm.input.symm
    · rw [h.output, hm.output]
      exact (Array.append_empty).symm
  have houter : k₁.outer.length = k₂.outer.length := by
    rw [h₁.frames, h₂.frames] at hdepth
    exact Nat.succ.inj (Nat.succ.inj hdepth)
  exact hfits.alike_runCall (hH.agrees hshort s) htrace houter n hm (hlifts h₁ rfl rfl)
    (hlifts h₂ hheap.symm hinput.symm)

/-- Two callers of a function that returns its parameter: one has more on the stack and another implicit
variable. -/
theorem Program.alike_of_enters_echo :
    ∃ c, Program.echo.compile ⟨#[]⟩ = .ok c ∧ c.code.size = 21 ∧
      let k₁ : Caller := ⟨[.noob], 16, .noob, ⟨0, 1, .noob⟩, [], #[]⟩
      let k₂ : Caller := ⟨[.yarn "hidden", .noob], 16, .troof true, ⟨0, 1, .noob⟩, [], #[]⟩
      let m₁ : Machine := ⟨7, 14, ⟨#[.noob, .funkshon 5, .numbr 7], 3⟩, k₁.callee :: k₁.frames, .noob,
        #[], [], #[], #[]⟩
      let m₂ : Machine := ⟨7, 14, ⟨#[.noob, .yarn "hidden", .funkshon 5, .numbr 7], 4⟩,
        k₂.callee :: k₂.frames, .noob, #[], [], #[], #[]⟩
      k₁.Enters c 5 [.numbr 7] m₁ ∧ k₂.Enters c 5 [.numbr 7] m₂ ∧
      (m₁.runCall c {} 1 2).2.frames = k₁.frames ∧
      ∀ n, k₁.Alike c k₂ (m₁.runCall c {} 1 n) (m₂.runCall c {} 1 n) := by
  refine ⟨_, rfl, rfl, ?_⟩
  intro k₁ k₂ m₁ m₂
  refine ⟨?h₁, ?h₂, rfl, Program.echo.alike_of_enters ⟨#[]⟩ _ rfl (by decide) {} rfl ?h₁ ?h₂ rfl rfl rfl
    ?_ ?_ nofun⟩
  case h₁ => exact ⟨rfl, rfl, ⟨rfl, List.prefix_rfl⟩, rfl, rfl, rfl⟩
  case h₂ => exact ⟨rfl, rfl, ⟨rfl, List.prefix_rfl⟩, rfl, rfl, rfl⟩
  · exact ⟨_, List.mem_cons_self, rfl⟩
  · exact List.forall_mem_singleton.2 trivial

/-- The value of the function at an offset is among the constants. -/
def Chunk.HasFunction (c : Chunk) (a : Nat) : Prop :=
  ∃ x ∈ c.pool.constants.toList, x.value = functionValue a

private theorem Value.belongs_of_valid {c : Chunk} {l : Linked} {v : Value} {n : Nat}
    (h : v.Valid (l.restrict c.HasFunction) n) : v.Belongs c n := by
  cases v with
  | funkshon offset =>
    obtain ⟨f, hf⟩ := Option.isSome_iff_exists.1 h
    have haddress : Int64.ofNat f.address = offset := by simpa using List.find?_some hf
    obtain ⟨-, x, hx, hvalue⟩ := Linked.mem_restrict.1 (List.mem_of_find?_eq_some hf)
    exact ⟨x, hx, hvalue.trans (congrArg Value.funkshon haddress)⟩
  | _ => exact h

private theorem Chunk.Agrees.restrict_constants {c : Chunk} {l : Linked} {H : Heights} (hc : c.Agrees l H) :
    c.Agrees (l.restrict c.HasFunction) H := by
  refine hc.restrict_functions fun i v hget hv => ?_
  cases v with
  | funkshon offset =>
    obtain ⟨f, hf⟩ := Option.isSome_iff_exists.1 hv
    have haddress : Int64.ofNat f.address = offset := by simpa using List.find?_some hf
    obtain ⟨x, hx, hvalue⟩ := Option.map_eq_some_iff.1 hget
    have hmem : x ∈ c.pool.constants.toList := Array.mem_toList_iff.2 (Array.mem_of_getElem? hx)
    have hnamed : c.HasFunction f.address :=
      ⟨x, hmem, hvalue.trans (congrArg Value.funkshon haddress.symm)⟩
    change (Linked.function? _ offset).isSome = true
    rw [Linked.function?, List.find?_isSome]
    exact ⟨f, Linked.mem_restrict.2 ⟨List.mem_of_find?_eq_some hf, hnamed⟩,
      by rw [haddress, beq_self_eq_true]⟩
  | _ => exact hv

/-- A step that makes one frame more is a call. -/
private theorem Snapshot.Fits.enters_of_step {l : Linked} {H : Heights} {x : Snapshot} {c : Chunk}
    {s : Settings} {m m' : Machine} (hc : c.Agrees l H) (hx : x.Fits l H) (hm : m.Shows x)
    (hstep : m.step c s = (.ok (), m')) (hcalls : m.frames.length < m'.frames.length) :
    ∃ (k : Caller) (offset : Int64) (args : List Value), k.Enters c offset args m' ∧
      (Value.funkshon offset).Valid l 0 ∧ (∀ v ∈ args, v.Valid l m'.heap.size) ∧
      Heap.Valid l m'.heap := by
  obtain ⟨y, hm', hy, i, -, hmoves⟩ := hx.step hc hm hstep
  rw [hm.frames, hm'.frames] at hcalls
  cases hmoves with
  | within _ _ _ _ _ _ _ _ hframes | write _ _ _ _ _ _ _ _ hframes =>
    rw [hframes] at hcalls
    exact absurd hcalls (Nat.lt_irrefl _)
  | leave f g fs v us vs hop hxs hbase hys hframes hcaller hnext hsaved =>
    rw [hframes, hcaller] at hcalls
    exact absurd hcalls (Nat.not_lt.2 (Nat.le_succ _))
  | enter args vs offset a hop hxs hbase hys hframes himplicit hoffset hmarker hentry =>
    obtain ⟨f, fs, hfs, -⟩ := hx.frame
    have hstack : y.stack = args ++ Value.funkshon offset :: vs := hys.trans hxs
    have hvalid := hy.stack
    rw [hstack] at hvalid
    obtain ⟨hargs, hcallee⟩ := List.forall_mem_append.1 hvalid
    refine ⟨⟨vs, (x.next + Opcode.call.length : Nat), x.implicit, f, fs, y.output⟩, offset,
      args.reverse, ⟨?_, ?_, ?_, ?_, hm'.implicit.trans himplicit, hm'.output⟩,
      (List.forall_mem_cons.1 hcallee).1, fun v hv => ?_, ?_⟩
    · rw [hoffset, List.length_reverse]
      exact hmarker
    · rw [hoffset, hm'.next, hentry]
      rfl
    · rw [List.reverse_reverse, ← hstack]
      exact hm'.stack
    · exact (hm'.frames.trans hframes).trans (congrArg _ hfs)
    · rw [hm'.heap]
      exact hargs v (List.mem_reverse.1 hv)
    · rw [hm'.heap]
      exact hy.heap

/-- Each call of a run makes a state of which the above is said. -/
theorem Program.enters_of_run (p : Program) (names : NameTable) (c : Chunk)
    (hcompile : p.compile names = .ok c) (hshort : c.code.size < 2 ^ 31) (s : Settings)
    (input : Text) (n : Nat) {m m' : Machine}
    (hrun : ((Machine.idle #[]).start input).runFor c s n = (none, m))
    (hstep : m.step c s = (.ok (), m')) (hcalls : m.frames.length < m'.frames.length) :
    ∃ (k : Caller) (offset : Int64) (args : List Value), k.Enters c offset args m' ∧
      (Value.funkshon offset).Belongs c 0 ∧ (∀ v ∈ args, v.Belongs c m'.heap.size) ∧
      ∀ elems ∈ m'.heap, ∀ v ∈ elems, v.Belongs c m'.heap.size := by
  obtain ⟨address, H, hH⟩ := Program.exists_heights hcompile hshort
  have hc := (hH.agrees hshort s).restrict_constants
  obtain ⟨x₀, hm₀, hx₀⟩ := Snapshot.exists_fits_start hH.start _ input
  obtain ⟨x, hm, hx⟩ := hx₀.run hc hm₀ hrun
  obtain ⟨k, offset, args, henters, hcallee, hargs, hheap⟩ :=
    hx.enters_of_step hc hm hstep hcalls
  exact ⟨k, offset, args, henters, Value.belongs_of_valid hcallee,
    fun v hv => Value.belongs_of_valid (hargs v hv),
    fun elems helems v hv => Value.belongs_of_valid (hheap elems helems v hv)⟩

end LolToolchain
