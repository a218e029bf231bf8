import LolToolchain.Proofs.Code.Agreement
import LolToolchain.Proofs.Code.Invariant
import LolToolchain.Proofs.Code.Tracking

/-!
The stack discipline of compiled programs. How high the stack is depends on the next instruction
alone, and a call leaves everything of its caller as it was.
-/
namespace LolToolchain

/-- The first state of a run. -/
def Snapshot.start (input : Text) : Snapshot :=
  ⟨0, [.noob], [⟨0, 1, .noob⟩], .noob, #[], input, #[]⟩

theorem Snapshot.shows_start (input : Text) : ((Machine.idle #[]).start input).Shows (.start input) := by
  have hempty : (Stack.cutTo .empty 0).Holds [] := ⟨rfl, List.nil_prefix⟩
  exact ⟨rfl, hempty.push .noob, rfl, rfl, rfl, rfl, rfl⟩

/-- The first state of a run is fit if the first instruction is met with an empty stack. -/
theorem Snapshot.fits_start {H : Heights} (h : H.At 0 0) (l : Linked) (input : Text) :
    (Snapshot.start input).Fits l H :=
  ⟨rfl, Nat.le_refl _, h, List.forall_mem_singleton.2 trivial, trivial,
    List.forall_mem_singleton.2 trivial, nofun⟩

theorem Snapshot.exists_fits_start {H : Heights} (h : H.At 0 0) (l : Linked) (input : Text) :
    ∃ x : Snapshot, ((Machine.idle #[]).start input).Shows x ∧ x.Fits l H :=
  ⟨.start input, shows_start input, fits_start h l input⟩

open Classical in
/-- The functions at some of the offsets. -/
noncomputable def Linked.restrict (l : Linked) (P : Nat → Prop) : Linked :=
  { l with functions := l.functions.filter fun f => P f.address }

theorem Linked.mem_restrict {l : Linked} {P : Nat → Prop} {f : Function} :
    f ∈ (l.restrict P).functions ↔ f ∈ l.functions ∧ P f.address := by
  simp [restrict]

/-- Code agrees with heights when fewer functions are in use, as long as the constants have no others. -/
theorem Chunk.Agrees.restrict_functions {c : Chunk} {l : Linked} {H : Heights} {P : Nat → Prop}
    (hc : c.Agrees l H)
    (hconstants : ∀ i v, c.pool.get? i = some v → v.Valid l 0 → v.Valid (l.restrict P) 0) :
    c.Agrees (l.restrict P) H where
  short := hc.short
  checks o ho := by
    obtain ⟨i, hfetch, hpops, haccepts, hleads⟩ := hc.checks o ho
    refine ⟨i, hfetch, hpops, ?_, hleads⟩
    obtain ⟨op, arg⟩ := i
    cases op with
    | loadConst | loadConstLong =>
      obtain ⟨v, hget, hv⟩ := haccepts
      exact ⟨v, hget, hconstants _ v hget hv⟩
    | _ => exact haccepts
  functions f hf := hc.functions f (Linked.mem_restrict.1 hf).1

namespace Program.Measured

variable {p : Program} {c : Chunk} {address : Nat → Nat} {H : Heights}

theorem agrees (h : p.Measured c address H) (hshort : c.code.size < 2 ^ 31) (s : Settings) :
    c.Agrees ⟨s, p.functions address, address⟩ H where
  short := hshort
  checks := h.checks s
  functions f hf := by
    have hclosed : f.Closed address (Stmt.definitionsAll p.body.stmts) fun _ => True :=
      Stmt.functionsAll_closed p.body.stmts (Nat.le_of_eq (Nat.zero_add _)) .nil
        (List.forall_mem_nil _) (fun _ _ => trivial) f hf
    obtain ⟨j, hj, haddress⟩ := hclosed.numbered
    rw [haddress]
    exact h.functions j hj

/-- A run begins in a fit state. -/
theorem fits_start (h : p.Measured c address H) (l : Linked) (input : Text) :
    ∃ x : Snapshot, ((Machine.idle #[]).start input).Shows x ∧ x.Fits l H :=
  Snapshot.exists_fits_start h.start l input

/-- A run that goes on is in a fit state. -/
theorem fits_run (h : p.Measured c address H) (hshort : c.code.size < 2 ^ 31) {s : Settings}
    {input : Text} {n : Nat} {m : Machine}
    (hrun : ((Machine.idle #[]).start input).runFor c s n = (none, m)) :
    ∃ x : Snapshot, m.Shows x ∧ x.Fits ⟨s, p.functions address, address⟩ H := by
  obtain ⟨x, hm, hx⟩ := h.fits_start ⟨s, p.functions address, address⟩ input
  exact hx.run (h.agrees hshort s) hm hrun

end Program.Measured

theorem Machine.Shows.base {m : Machine} {x : Snapshot} (h : m.Shows x) : m.base = x.base := by
  rewrite [Machine.base, Snapshot.base, h.frames]
  rfl

/-- The heights of a compiled program: in every state of every run, the number of values of the
current call is the height of the next instruction. The height at the start of each statement is the
number of variables in use, and the code of each expression raises it by one. -/
theorem Program.exists_static_heights (p : Program) (names : NameTable) (c : Chunk)
    (hcompile : p.compile names = .ok c) (hshort : c.code.size < 2 ^ 31) :
    ∃ h : Nat → Nat,
      (∀ (s : Settings) (input : Text) (steps : Nat) (m : Machine),
        ((Machine.idle #[]).start input).runFor c s steps = (none, m) →
        ∃ i : Nat, m.next = i ∧ m.stack.height = m.base + h i) ∧
      Stmt.LeveledAll h p.body.stmts ⟨.empty, .empty, []⟩ := by
  obtain ⟨address, H, hH⟩ := Program.exists_heights hcompile hshort
  refine ⟨H.height, fun s input steps m hrun => ?_, hH.leveled⟩
  obtain ⟨x, hm, hx⟩ := hH.fits_run hshort hrun
  refine ⟨x.next, hm.next, ?_⟩
  have hbase := hx.base
  rw [hx.height.2, Snapshot.depth, hm.base, hm.stack.1]
  omega

theorem Program.exists_static_heights_echo :
    ∃ c, Program.echo.compile ⟨#[]⟩ = .ok c ∧ c.code.size = 21 ∧ ∃ h : Nat → Nat,
      (∀ (s : Settings) (input : Text) (steps : Nat) (m : Machine),
        ((Machine.idle #[]).start input).runFor c s steps = (none, m) →
        ∃ i : Nat, m.next = i ∧ m.stack.height = m.base + h i) ∧
      Stmt.LeveledAll h Program.echo.body.stmts ⟨.empty, .empty, []⟩ :=
  ⟨_, rfl, rfl, Program.echo.exists_static_heights ⟨#[]⟩ _ rfl (by decide)⟩

namespace Snapshot

/-- A state in a call that was entered with the frame `f`, or in one that was entered from there: the
frames and the values of the callers are as they were. -/
structure Inside (f : Frame) (callers : List Frame) (vs : List Value) (x : Snapshot) : Prop where
  frames : ∃ new, x.frames = new ++ f :: callers ∧ ∀ g ∈ new, vs.length < g.base
  base : f.base = vs.length + 1
  stack : vs <:+ x.stack

/-- The state of a caller after a call has returned a value. -/
structure Returned (f : Frame) (callers : List Frame) (vs : List Value) (v : Value) (x : Snapshot) :
    Prop where
  frames : x.frames = callers
  stack : x.stack = v :: vs
  implicit : x.implicit = f.saved
  next : f.returnTo = x.next

variable {f : Frame} {callers : List Frame} {vs : List Value} {x y : Snapshot} {c : Chunk}

theorem Inside.lt_base (h : x.Inside f callers vs) : vs.length < x.base := by
  obtain ⟨new, hframes, hnew⟩ := h.frames
  have hbase := h.base
  rw [Snapshot.base, hframes]
  cases new with
  | nil =>
    change vs.length < f.base
    omega
  | cons g new => exact hnew g List.mem_cons_self

/-- A step that changes only values of the current call stays inside. -/
private theorem Inside.within (us ws : List Value) {below : List Value} (h : x.Inside f callers vs)
    (hx : x.stack = us ++ below) (hy : y.stack = ws ++ below) (hbase : x.base ≤ below.length)
    (hsame : y.frames = x.frames) : y.Inside f callers vs := by
  have hlt := h.lt_base
  obtain ⟨new, hframes, hnew⟩ := h.frames
  refine ⟨⟨new, hsame.trans hframes, hnew⟩, h.base, ?_⟩
  have hsuffix := h.stack
  rw [hx] at hsuffix
  -- the values of the callers lie below those of the current call
  have hbelow : vs <:+ below := List.suffix_of_suffix_length_le hsuffix (List.suffix_append us below)
    (by omega)
  rw [hy]
  exact hbelow.trans (List.suffix_append ws below)

/-- A step inside a call stays there, or it is the return from the call. -/
theorem Inside.moves {i : Instruction} (h : x.Inside f callers vs) (hmoves : x.Moves c i y) :
    y.Inside f callers vs ∨
    ∃ v rest, i.op = .ret ∧ x.stack = v :: rest ∧ y.Returned f callers vs v := by
  have hlt := h.lt_base
  obtain ⟨new, hframes, hnew⟩ := h.frames
  cases hmoves with
  | within below us ws hx hy hbase hpops hgives hsame => exact .inl (h.within us ws hx hy hbase hsame)
  | write w v ws below hop hx hy hslot hsame =>
    refine .inl (h.within (w :: (ws ++ [v])) (ws ++ [w]) ?_ ?_ (Nat.le.intro hslot.symm) hsame)
    · rw [hx, List.cons_append, List.append_assoc, List.singleton_append]
    · rw [hy, List.append_assoc, List.singleton_append]
  | enter args below offset a hop hx hbase hy hpushed =>
    refine .inl ⟨⟨_ :: new, by rw [hpushed, hframes]; rfl, ?_⟩, h.base, by rw [hy]; exact h.stack⟩
    refine List.forall_mem_cons.2 ⟨?_, hnew⟩
    change vs.length < below.length + 1
    omega
  | leave g g' gs v us below hop hx hb hy hgs hcaller hnext hsaved =>
    rw [hgs] at hframes
    cases new with
    | nil =>
      obtain ⟨rfl, rfl⟩ := List.cons.inj hframes
      have hsuffix := h.stack
      rw [hx] at hsuffix
      have hsame : vs = below := by
        have hlen : vs.length = below.length := by
          have := h.base
          omega
        have hbelow : vs <:+ below := List.suffix_of_suffix_length_le hsuffix
          (List.suffix_append (v :: us) below) (by omega)
        exact hbelow.eq_of_length hlen
      subst hsame
      exact .inr ⟨v, _, hop, hx, hcaller, hy, hsaved, hnext⟩
    | cons h₀ new =>
      obtain ⟨rfl, hrest⟩ := List.cons.inj hframes
      obtain ⟨hg, hnew⟩ := List.forall_mem_cons.1 hnew
      refine .inl ⟨⟨new, by rw [hcaller]; exact hrest, hnew⟩, h.base, ?_⟩
      have hsuffix := h.stack
      rw [hx] at hsuffix
      have hbelow : vs <:+ below := List.suffix_of_suffix_length_le hsuffix
        (List.suffix_append (v :: us) below) (by omega)
      rw [hy]
      exact hbelow.trans (List.suffix_cons v below)

private theorem Inside.length_lt (h : x.Inside f callers vs) : callers.length < x.frames.length := by
  obtain ⟨new, hframes, -⟩ := h.frames
  rw [hframes, List.length_append, List.length_cons]
  omega

/-- A run stays inside a call as long as its frame, or a newer one, is there. -/
private theorem Inside.run {l : Linked} {H : Heights} {s : Settings} (hc : c.Agrees l H) :
    ∀ {k : Nat} {x : Snapshot} {m m' : Machine}, x.Fits l H → x.Inside f callers vs → m.Shows x →
      m.runFor c s k = (none, m') →
      (∀ j ≤ k, ∀ m', m.runFor c s j = (none, m') → callers.length < m'.frames.length) →
      ∃ y, m'.Shows y ∧ y.Fits l H ∧ y.Inside f callers vs
  | 0, x, m, m', hx, hin, hm, hrun, _ => by
    cases hrun
    exact ⟨x, hm, hx, hin⟩
  | k + 1, x, m, m', hx, hin, hm, hrun, hdeep => by
    rw [Machine.runFor] at hrun
    cases hstep : m.step c s with
    | mk r m₁ =>
      rw [hstep] at hrun
      cases r with
      | error e => cases hrun
      | ok u =>
        have hrest : ∀ j, m.runFor c s (j + 1) = m₁.runFor c s j := by
          intro j
          rw [Machine.runFor, hstep]
        obtain ⟨y, hm₁, hy, i, -, hmoves⟩ := hx.step hc hm hstep
        rcases hin.moves hmoves with hin' | ⟨v, rest, -, -, hreturned⟩
        · refine Inside.run hc hy hin' hm₁ hrun fun j hj m' hm' => ?_
          exact hdeep (j + 1) (Nat.succ_le_succ hj) m' (by rw [hrest]; exact hm')
        · have hlt := hdeep 1 (Nat.le_add_left 1 k) m₁ (by rw [hrest]; rfl)
          rw [hm₁.frames, hreturned.frames] at hlt
          exact absurd hlt (Nat.lt_irrefl _)

/-- A step that adds a frame is a call. -/
private theorem Moves.enter_of_length {i : Instruction} (h : x.Moves c i y)
    (hlen : y.frames.length = x.frames.length + 1) :
    ∃ args vs callee, i = ⟨.call, args.length⟩ ∧ x.stack = args ++ callee :: vs ∧
      let f : Frame := ⟨(x.next + Opcode.call.length : Nat), vs.length + 1, x.implicit⟩
      y.frames = f :: x.frames ∧ y.Inside f x.frames vs := by
  cases h with
  | within _ _ _ _ _ _ _ _ hframes | write _ _ _ _ _ _ _ _ hframes =>
    rw [hframes] at hlen
    omega
  | enter args vs offset a hop hx hbase hy hframes =>
    refine ⟨args, vs, _, hop, hx, hframes, ⟨[], hframes, nofun⟩, rfl, ?_⟩
    rw [hy, hx]
    exact (List.suffix_cons _ vs).trans (List.suffix_append args _)
  | leave _ _ _ _ _ _ _ _ _ _ hframes hcaller =>
    rw [hframes, hcaller, List.length_cons, List.length_cons, List.length_cons] at hlen
    omega

end Snapshot

/-- What the call that leads from a state to the next keeps. As long as its frame or a newer one is
there, the values below the callee and the frames stay; and the step that goes back to the caller is a
return, which leaves the caller's values with the returned one in the place of the callee and the
arguments, and the caller's frames, implicit variable and place in the code. -/
def Machine.KeepsCaller (c : Chunk) (s : Settings) (m₀ m₁ : Machine) : Prop :=
  ∃ argc, c.fetch m₀.next = .ok ⟨.call, argc⟩ ∧ argc < m₀.stack.height ∧
    ∀ (k : Nat) (m : Machine), m₁.runFor c s k = (none, m) →
      (∀ j ≤ k, ∀ m', m₁.runFor c s j = (none, m') → m₀.frames.length < m'.frames.length) →
      let below := m₀.stack.toList.take (m₀.stack.height - argc - 1)
      below <+: m.stack.toList ∧ m₁.frames <:+ m.frames ∧ m₁.frames.tail = m₀.frames ∧
      ∀ m', m.step c s = (.ok (), m') → m'.frames.length ≤ m₀.frames.length →
        (∃ i, c.fetch m.next = .ok i ∧ i.op = .ret) ∧
        ∃ v, m.stack.top? = some v ∧ m'.stack.toList = below ++ [v] ∧
          m'.frames = m₀.frames ∧ m'.implicit = m₀.implicit ∧
          m'.next = m₀.next + Opcode.call.length

/-- Every step of a run that pushes a frame is a call that leaves everything of its caller as it
was. -/
theorem Program.calls_keep_caller (p : Program) (names : NameTable) (c : Chunk)
    (hcompile : p.compile names = .ok c) (hshort : c.code.size < 2 ^ 31) (s : Settings)
    (input : Text) (steps : Nat) (m₀ m₁ : Machine)
    (hrun : ((Machine.idle #[]).start input).runFor c s steps = (none, m₀))
    (hcall : m₀.step c s = (.ok (), m₁)) (hpush : m₁.frames.length = m₀.frames.length + 1) :
    Machine.KeepsCaller c s m₀ m₁ := by
  obtain ⟨address, H, hH⟩ := Program.exists_heights hcompile hshort
  have hc := hH.agrees hshort s
  obtain ⟨x₀, hm₀, hx₀⟩ := hH.fits_run hshort hrun
  obtain ⟨x₁, hm₁, hx₁, i, hfetch, hmoves⟩ := hx₀.step hc hm₀ hcall
  rw [hm₀.frames, hm₁.frames] at hpush
  obtain ⟨args, vs, callee, rfl, hstack, hframes₁, hinside⟩ := hmoves.enter_of_length hpush
  have hheight : m₀.stack.height = args.length + (vs.length + 1) := by
    rw [hm₀.stack.1, hstack, List.length_append, List.length_cons]
  have hplace : m₀.stack.height - args.length - 1 = vs.length := by omega
  have hbelow : m₀.stack.toList.take (m₀.stack.height - args.length - 1) = vs.reverse := by
    rw [hplace, hm₀.stack.toList, hstack]
    simp
  refine ⟨args.length, by rw [hm₀.next]; exact hfetch, by omega, fun k m hk hdeep => ?_⟩
  rw [hm₀.frames] at hdeep
  obtain ⟨x, hm, hx, hin⟩ := hinside.run hc hx₁ hm₁ hk hdeep
  obtain ⟨new, hframes, -⟩ := hin.frames
  intro below
  refine ⟨?_, ?_, ?_, fun m' hstep hback => ?_⟩
  · change m₀.stack.toList.take _ <+: _
    rw [hbelow, hm.stack.toList]
    exact List.reverse_prefix.2 hin.stack
  · rw [hm₁.frames, hframes₁, hm.frames, hframes]
    exact List.suffix_append _ _
  · rw [hm₁.frames, hframes₁, hm₀.frames, List.tail_cons]
  · obtain ⟨y, hm', -, j, hj, hmoves'⟩ := hx.step hc hm hstep
    rw [hm'.frames, hm₀.frames] at hback
    rcases hin.moves hmoves' with hin' | ⟨v, rest, hret, htop, hreturned⟩
    · exact absurd hin'.length_lt (Nat.not_lt_of_le hback)
    · refine ⟨⟨_, by rw [hm.next]; exact hj, hret⟩, v, ?_, ?_, ?_, ?_, ?_⟩
      · exact (htop ▸ hm.stack).top?
      · change _ = m₀.stack.toList.take _ ++ _
        rw [hbelow, hm'.stack.toList, hreturned.stack, List.reverse_cons]
      · rw [hm'.frames, hreturned.frames, hm₀.frames]
      · rw [hm'.implicit, hreturned.implicit, hm₀.implicit]
      · rw [hm'.next, ← hreturned.next, hm₀.next, Int.natCast_add]

theorem Program.calls_keep_caller_echo :
    ∃ c m₀ m₁, Program.echo.compile ⟨#[]⟩ = .ok c ∧
      ((Machine.idle #[]).start []).runFor c {} 4 = (none, m₀) ∧ m₀.step c {} = (.ok (), m₁) ∧
      m₁.frames.length = 2 ∧ Machine.KeepsCaller c {} m₀ m₁ := by
  have hrun : ∀ {r : Option Ending × Machine}, r.1 = none → r = (none, r.2) :=
    fun h => Prod.ext h rfl
  have hstep : ∀ {r : Except Ending Unit × Machine}, r.1 = .ok () → r = (.ok (), r.2) :=
    fun h => Prod.ext h rfl
  exact ⟨_, _, _, rfl, hrun rfl, hstep rfl, rfl, Program.echo.calls_keep_caller ⟨#[]⟩ _ rfl
    (by decide) {} [] 4 _ _ (hrun rfl) (hstep rfl) rfl⟩

end LolToolchain
