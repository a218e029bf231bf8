import LolToolchain.Proofs.Code.Decoding
import LolToolchain.Proofs.Code.Discipline
import LolToolchain.Proofs.Machine.Faults

/-!
Programs without loops come to an end. Their jumps lead forward, so each step takes the current call
on in the code; a call lets its caller go on behind it. What lies ahead of the calls, the oldest call
counted most, gets less with each step.
-/
namespace LolToolchain

/-- The place of the next instruction, and the places where calls go on that wait for a return, the
newest first. -/
def Machine.places (m : Machine) : List Int :=
  m.next :: m.frames.dropLast.map Frame.returnTo

namespace Chunk

/-- How much of the code lies ahead of some places. A place counts more than all that can be put in
front of it, of which there are at most as many as there is `room`. -/
def ahead (c : Chunk) (room : Nat) : List Int → Nat
  | [] => 0
  | p :: ps => (c.code.size - p).toNat * (c.code.size + 1) ^ (room - ps.length) + ahead c room ps

variable {c : Chunk} {room : Nat} {p q q' : Int} {ps : List Int}

private theorem ahead_lt_of_pop (hp : p < c.code.size) : c.ahead room ps < c.ahead room (p :: ps) := by
  have hdigit : 0 < (c.code.size - p).toNat := by omega
  have hweight : 0 < (c.code.size + 1) ^ (room - ps.length) := Nat.pow_pos (Nat.succ_pos _)
  have hpos := Nat.mul_pos hdigit hweight
  rw [ahead]
  omega

private theorem ahead_lt_of_lt (hp : p < c.code.size) (hq : p < q) :
    c.ahead room (q :: ps) < c.ahead room (p :: ps) := by
  have hdigit : (c.code.size - q).toNat < (c.code.size - p).toNat := by omega
  have hweight : 0 < (c.code.size + 1) ^ (room - ps.length) := Nat.pow_pos (Nat.succ_pos _)
  rw [ahead, ahead]
  exact Nat.add_lt_add_right (Nat.mul_lt_mul_of_pos_right hdigit hweight) _

/-- What is put in front of a place is less than what the place itself goes on. -/
private theorem ahead_lt_of_push (hp : p < c.code.size) (hq : p < q) (hq' : 0 ≤ q')
    (hroom : ps.length < room) : c.ahead room (q' :: q :: ps) < c.ahead room (p :: ps) := by
  have hdigit : (c.code.size - q).toNat + 1 ≤ (c.code.size - p).toNat := by omega
  have hnew : (c.code.size - q').toNat < c.code.size + 1 := by omega
  have hexponent : room - ps.length = room - (ps.length + 1) + 1 := by omega
  have hweight : 0 < (c.code.size + 1) ^ (room - (ps.length + 1)) := Nat.pow_pos (Nat.succ_pos _)
  have hfront : (c.code.size - q').toNat * (c.code.size + 1) ^ (room - (ps.length + 1)) <
      (c.code.size + 1) ^ (room - ps.length) := by
    rw [hexponent, Nat.pow_succ, Nat.mul_comm _ (c.code.size + 1)]
    exact Nat.mul_lt_mul_of_pos_right hnew hweight
  have hback := Nat.mul_le_mul_right ((c.code.size + 1) ^ (room - ps.length)) hdigit
  rw [Nat.succ_mul] at hback
  simp only [ahead, List.length_cons]
  omega

end Chunk

namespace Machine

variable {c : Chunk} {s : Settings} {m m' : Machine}

/-- A step leaves less ahead if no jump leads back. -/
theorem Transfers.ahead_lt (h : m.Transfers c s m') (hinside : m.next < c.code.size)
    (hframes : m.frames ≠ [])
    (hforward : ∀ i, c.fetch m.next = .ok i → i.op.isJump = true →
      m.next < c.readJump (m.next.toNat + 1)) :
    c.ahead (s.maxFrames.toNat - 1) m'.places < c.ahead (s.maxFrames.toNat - 1) m.places := by
  cases h with
  | on i hfetch hsame hnext =>
    rw [places, places, hsame]
    refine Chunk.ahead_lt_of_lt hinside ?_
    rcases hnext with ⟨-, hnext⟩ | ⟨hjump, hnext⟩
    · have hlength := Chunk.lt_length 0 i.op
      omega
    · rw [hnext]
      exact hforward i hfetch hjump
  | enter f hroom hpushed hreturn hentry =>
    obtain ⟨g, gs, hgs⟩ := List.exists_cons_of_ne_nil hframes
    rw [places, places, hpushed, hgs, List.dropLast_cons_cons, List.map_cons, hreturn]
    refine Chunk.ahead_lt_of_push hinside (Int.lt_add_of_pos_right _ (by decide)) hentry ?_
    rw [hgs, List.length_cons] at hroom
    rw [List.length_map, List.length_dropLast, List.length_cons]
    omega
  | leave f g fs hpopped hcallers hback =>
    rw [places, places, hpopped, hcallers, hback, List.dropLast_cons_cons, List.map_cons]
    exact Chunk.ahead_lt_of_pop hinside

/-- A run ends if each of its steps makes a number less. -/
theorem exists_end (I : Machine → Prop) (rank : Machine → Nat)
    (hstep : ∀ m m', I m → m.step c s = (.ok (), m') → I m' ∧ rank m' < rank m) :
    ∀ {n : Nat} {m : Machine}, I m → rank m < n → ∃ e m', m.runFor c s n = (some e, m')
  | 0, m, _, hrank => absurd hrank (Nat.not_lt_zero _)
  | n + 1, m, hm, hrank => by
    rw [runFor]
    cases hrun : m.step c s with
    | mk r m₁ =>
      cases r with
      | error e => exact ⟨e, m₁, rfl⟩
      | ok u =>
        obtain ⟨hm₁, hlt⟩ := hstep m m₁ hm hrun
        exact exists_end I rank hstep hm₁ (by omega)

end Machine

/-- Instructions that are met are at some of the offsets at which they may be met. -/
def Heights.restrict (H : Heights) (P : Nat → Prop) : Heights :=
  ⟨fun i => H.marked i ∧ P i, H.height⟩

namespace Chunk

variable {c : Chunk} {l : Linked} {H : Heights} {P : Nat → Prop}

/-- Code agrees with heights at offsets that it does not leave. -/
private theorem Agrees.restrict (hc : c.Agrees l H)
    (hconstants : ∀ i v, c.pool.get? i = some v → v.Valid l 0 → v.Valid (l.restrict P) 0)
    (hnext : ∀ o i, P o → c.fetch o = .ok i → P (o + i.op.length))
    (hjump : ∀ (o t : Nat) i, P o → c.fetch o = .ok i → i.op.isJump = true →
      c.readJump (o + 1) = t → P t) :
    c.Agrees (l.restrict P) (H.restrict P) where
  short := hc.short
  checks o ho := by
    obtain ⟨hmarked, hP⟩ := ho
    obtain ⟨i, hfetch, hpops, haccepts, hleads⟩ := (hc.restrict_functions hconstants).checks o hmarked
    refine ⟨i, hfetch, hpops, haccepts, ?_⟩
    have hbehind := hnext o i hP hfetch
    have hat : ∀ {n}, H.At (o + i.op.length) n → (H.restrict P).At (o + i.op.length) n :=
      fun h => ⟨⟨h.1, hbehind⟩, h.2⟩
    have hto : ∀ {n}, i.op.isJump = true → c.JumpsTo H (o + 1) n →
        c.JumpsTo (H.restrict P) (o + 1) n := by
      rintro n hop ⟨t, hread, ht⟩
      exact ⟨t, hread, ⟨ht.1, hjump o t i hP hfetch hop hread⟩, ht.2⟩
    obtain ⟨op, arg⟩ := i
    cases op with
    | jump => exact hto rfl hleads
    | jumpIfFalse => exact ⟨hat hleads.1, hto rfl hleads.2⟩
    | ret | halt => trivial
    | _ => exact hat hleads
  functions f hf := by
    obtain ⟨hmem, hP⟩ := Linked.mem_restrict.1 hf
    obtain ⟨hmarked, hdefined⟩ := hc.functions f hmem
    exact ⟨⟨hmarked, hP⟩, hdefined⟩

end Chunk

/-- What a run that is over has come to. -/
private theorem Machine.ending_cases {c : Chunk} {s : Settings} {n : Nat} {m m' : Machine} {e : Ending}
    (h : m.runFor c s n = (some e, m')) :
    e = .halted ∨ (∃ f, e = .failed f ∧ f ≠ .endless) ∨
      e = .failed .endless ∧ ∃ r, Relation.TransGen (Heap.Contains m'.heap) r r := by
  cases e with
  | halted => exact .inl rfl
  | failed f =>
    by_cases hf : f = .endless
    · subst hf
      exact .inr (.inr ⟨rfl, not_forall_not.1 (not_grounded_of_endless h)⟩)
    · exact .inr (.inl ⟨f, rfl, hf⟩)

namespace Program

variable {p : Program} {c : Chunk} {address address' : Nat → Nat} {H : Heights}

/-- The code of a program agrees with heights at boundaries: it is not left by a jump, nor by a call
of a function among the constants. -/
theorem Placed.agrees_boundary (h : p.Placed c address)
    (hknown : ∀ x ∈ c.pool.constants.toList,
      x.value.KnownFunction address (Stmt.definitionsAll p.body.stmts))
    {l : Linked} (hc : c.Agrees l H) :
    c.Agrees (l.restrict c.Boundary) (H.restrict c.Boundary) := by
  obtain ⟨m, hbody, hhalt⟩ := id h
  have hlaid := (Stmt.laidAll p.body.stmts hbody .start (.inl trivial)).1
  refine hc.restrict (fun i v hget hv => ?_) (fun o i ho hi => ho.next hi)
    fun o t i ho hi hjump hread => ?_
  · cases v with
    | funkshon n =>
      obtain ⟨g, hg⟩ := Option.isSome_iff_exists.1 hv
      obtain ⟨x, hx, hvalue⟩ := Option.map_eq_some_iff.1 hget
      have hconstant : x.value.KnownFunction address (Stmt.definitionsAll p.body.stmts) :=
        hknown x (Array.mem_toList_iff.2 (Array.mem_of_getElem? hx))
      rw [hvalue] at hconstant
      obtain ⟨f, hf, hfn⟩ := h.exists_function hc.short hconstant
      -- two functions with one value are at one place
      have hgn : Int64.ofNat g.address = n := by simpa using List.find?_some hg
      obtain ⟨-, arity, hgfetch⟩ := hc.functions g (List.mem_of_find?_eq_some hg)
      have hginside := Chunk.length_le_of_fetch hgfetch
      have hshort := hc.short
      have hsame : g.address = f.address := by
        rw [← hgn, Int64.toInt_ofNat_of_lt (by omega)] at hfn
        exact Int.natCast_inj.1 hfn
      have hboundary : c.Boundary g.address := hsame ▸ (h.marker hf).1
      change (Linked.function? _ n).isSome = true
      rw [Linked.function?, List.find?_isSome]
      exact ⟨g, Linked.mem_restrict.2 ⟨List.mem_of_find?_eq_some hg, hboundary⟩,
        by rw [hgn, beq_self_eq_true]⟩
    | _ => exact hv
  · obtain ⟨t', hread', ht', -⟩ := hlaid.jump hhalt ho hi hjump
    rw [hread] at hread'
    rwa [Int.natCast_inj.1 hread']

/-- There is no loop in a program. -/
def LoopFree (p : Program) : Prop :=
  Stmt.LoopFreeAll p.body.stmts

/-- How many steps a program without loops does at most depends on the size of its code and on how
deep calls may go. -/
private theorem exists_ending_of_loopFree {names : NameTable} (hcompile : p.compile names = .ok c)
    (hshort : c.code.size < 2 ^ 31) (hloops : p.LoopFree) (s : Settings) (input : Text) :
    ∃ e m, ((Machine.idle #[]).start input).runFor c s
      (c.code.size * (c.code.size + 1) ^ (s.maxFrames.toNat - 1) + 1) = (some e, m) := by
  obtain ⟨address, -, hplaced, hknown, -⟩ := Program.placed_of_compile hcompile hshort
  obtain ⟨address', H, hH⟩ := Program.exists_heights hcompile hshort
  obtain ⟨m, hbody, hhalt⟩ := id hplaced
  have hlaid : c.Laid False [] 0 m := (Stmt.laidAll p.body.stmts hbody .start (.inr hloops)).1
  have hc := hplaced.agrees_boundary hknown (hH.agrees hshort s)
  let l : Linked := Linked.restrict ⟨s, p.functions address', address'⟩ c.Boundary
  let H' := H.restrict c.Boundary
  let rank := fun m : Machine => c.ahead (s.maxFrames.toNat - 1) m.places
  have hstep : ∀ m m' : Machine, (∃ x : Snapshot, m.Shows x ∧ x.Fits l H') →
      m.step c s = (.ok (), m') →
      (∃ x : Snapshot, m'.Shows x ∧ x.Fits l H') ∧ rank m' < rank m := by
    rintro m m' ⟨x, hm, hx⟩ hstep
    obtain ⟨y, hm', hy, -⟩ := hx.step hc hm hstep
    obtain ⟨hinside, htransfers⟩ := Machine.transfers_of_step hstep
    refine ⟨⟨y, hm', hy⟩, htransfers.ahead_lt hinside ?_ fun i hi hjump => ?_⟩
    · obtain ⟨f, fs, hframes, -⟩ := hx.frame
      rw [hm.frames, hframes]
      exact List.cons_ne_nil f fs
    · rw [hm.next] at hi ⊢
      obtain ⟨t, hread, -, -, hway | hway, -⟩ := hlaid.jump hhalt hx.height.1.2 hi hjump
      · rw [Int.toNat_natCast, hread]
        exact Int.ofNat_lt.2 hway
      · exact hway.elim
  have hstart : H'.At 0 0 := ⟨⟨hH.start.1, .start⟩, hH.start.2⟩
  refine Machine.exists_end _ rank hstep (Snapshot.exists_fits_start hstart l input) ?_
  simp [rank, Machine.places, Machine.start, Chunk.ahead]

/-- A program without loops does finitely many steps, whatever it calls and reads. Then it has come to
the end of its code or to a return at the top level, or to a fault; or it asks for the text of a list
that by now contains itself, and no other step follows, since that text has no end. -/
theorem ends_of_loopFree (p : Program) (names : NameTable) (c : Chunk)
    (hcompile : p.compile names = .ok c) (hshort : c.code.size < 2 ^ 31) (hloops : p.LoopFree)
    (s : Settings) (input : Text) :
    ∃ e m, ((Machine.idle #[]).start input).runFor c s
        (c.code.size * (c.code.size + 1) ^ (s.maxFrames.toNat - 1) + 1) = (some e, m) ∧
      (e = .halted ∨ (∃ f, e = .failed f ∧ f ≠ .endless) ∨
        e = .failed .endless ∧ ∃ r, Relation.TransGen (Heap.Contains m.heap) r r) := by
  obtain ⟨e, m, hrun⟩ := exists_ending_of_loopFree hcompile hshort hloops s input
  exact ⟨e, m, hrun, Machine.ending_cases hrun⟩

end Program

/-- A function that does nothing but call itself. -/
def Program.spiral : Program :=
  let name : Ident := ⟨"SPIN", .zero⟩
  ⟨.zero, "1.2", .mk .zero
    [.define .zero name [] (.mk .zero [.ret .zero (.call .zero name [])]),
      .expr .zero (.call .zero name [])]⟩

theorem Program.ends_of_loopFree_spiral :
    ∃ c, Program.spiral.compile ⟨#[]⟩ = .ok c ∧ c.code.size = 20 ∧ Program.spiral.LoopFree ∧
      ∀ (s : Settings) (input : Text), ∃ e m, ((Machine.idle #[]).start input).runFor c s
          (c.code.size * (c.code.size + 1) ^ (s.maxFrames.toNat - 1) + 1) = (some e, m) ∧
        (e = .halted ∨ (∃ f, e = .failed f ∧ f ≠ .endless) ∨
          e = .failed .endless ∧ ∃ r, Relation.TransGen (Heap.Contains m.heap) r r) :=
  have hloops : Program.spiral.LoopFree := ⟨⟨trivial, trivial⟩, trivial, trivial⟩
  ⟨_, rfl, rfl, hloops, Program.spiral.ends_of_loopFree ⟨#[]⟩ _ rfl (by decide) hloops⟩

end LolToolchain
