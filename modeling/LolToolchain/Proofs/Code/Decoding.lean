import LolToolchain.Proofs.Code.Agreement
import LolToolchain.Proofs.Code.Instructions

/-!
Compiled code is well formed. Read from its start, it splits into whole instructions; its jumps lead
to instructions of the same function, its operands name what they should, and the function values
among its constants are the places of its functions.
-/
namespace LolToolchain

namespace Chunk

/-- The instructions from an offset on, each with its offset, if they end with the code. -/
def instructionsFrom (c : Chunk) : Nat → Nat → Option (List (Nat × Instruction))
  | 0, o => if o = c.code.size then some [] else none
  | fuel + 1, o =>
    if o = c.code.size then some []
    else match c.fetch o with
      | .error _ => none
      | .ok i => (c.instructionsFrom fuel (o + i.op.length)).map ((o, i) :: ·)

/-- The instructions of the whole code. Each fills at least one byte, so as many rounds as there are
bytes are enough. -/
def instructions? (c : Chunk) : Option (List (Nat × Instruction)) :=
  c.instructionsFrom c.code.size 0

/-- What holds of the code of each program, whose instructions are `is`. -/
structure WellFormed (c : Chunk) (is : List (Nat × Instruction)) : Prop where
  decoded : c.instructions? = some is
  ended : ∃ front o, is = front ++ [(o, ⟨.halt, 0⟩)] ∧ ∀ x ∈ front, x.2.op ≠ .halt
  jumps : ∀ o i, (o, i) ∈ is → i.op.isJump = true → ∃ t j, c.readJump (o + 1) = (t : Nat) ∧
    (t, j) ∈ is ∧ ∀ s e, c.Body s e → (s ≤ o ∧ o < e ↔ s ≤ t ∧ t < e)
  bodies : ∀ o arity, (o, ⟨.fnDef, arity⟩) ∈ is → ∃ e, c.Body o e ∧ o < e ∧ e < c.code.size
  operands : ∀ o i, (o, i) ∈ is → c.Operand i
  positions : c.positions.size = c.code.size
  spans : ∀ o i, (o, i) ∈ is → ∀ d < i.op.length, c.spanAt (o + d : Nat) = c.spanAt o

variable {c : Chunk} {a b m n fuel : Nat}

theorem instructionsFrom_size (fuel : Nat) : c.instructionsFrom fuel c.code.size = some [] := by
  cases fuel <;> simp [instructionsFrom]

/-- Before each boundary there is an instruction at each boundary. -/
theorem Boundary.exists_fetch (hb : c.Boundary b) (ha : c.Boundary a) (hlt : a < b) :
    ∃ i, c.fetch a = .ok i := by
  induction b using Nat.strongRecOn with
  | ind b ih =>
    cases hb with
    | start => exact absurd hlt (Nat.not_lt_zero a)
    | @next o i ho hi =>
      rcases Nat.lt_trichotomy a o with hao | rfl | hoa
      · exact ih o (lt_length o i.op) ho hao
      · exact ⟨i, hi⟩
      · exact absurd (ha.add_length_le ho hi hoa) (Nat.not_le_of_lt hlt)

/-- The instructions from one boundary to another come first, then those from there on. -/
private theorem instructionsFrom_append (hb : c.Boundary b) (hsize : b ≤ c.code.size)
    (ha : c.Boundary a) (hle : a ≤ b) (hfuel : c.code.size ≤ a + fuel) :
    ∃ front n, c.code.size ≤ b + n ∧
      c.instructionsFrom fuel a = (c.instructionsFrom n b).map (front ++ ·) ∧
      ∀ o i, (o, i) ∈ front ↔ c.Boundary o ∧ a ≤ o ∧ o < b ∧ c.fetch o = .ok i := by
  induction fuel generalizing a with
  | zero =>
    obtain rfl : a = b := by omega
    exact ⟨[], 0, hfuel, by simp, fun o i => iff_of_false nofun fun h => by omega⟩
  | succ fuel ih =>
    rcases Nat.lt_or_eq_of_le hle with hlt | rfl
    · obtain ⟨i, hi⟩ := hb.exists_fetch ha hlt
      have hnext := hb.add_length_le ha hi hlt
      have hlength := lt_length a i.op
      obtain ⟨front, n, hn, happend, hfront⟩ := ih (ha.next hi) hnext (by omega)
      refine ⟨(a, i) :: front, n, hn, ?_, fun o j => ?_⟩
      · rw [instructionsFrom, if_neg (by omega), hi]
        simp only [happend, Option.map_map]
        rfl
      · rw [List.mem_cons, hfront]
        constructor
        · rintro (heq | ⟨ho, hle, hrest⟩)
          · cases heq
            exact ⟨ha, Nat.le_refl a, hlt, hi⟩
          · exact ⟨ho, by omega, hrest⟩
        · rintro ⟨ho, hao, hob, hj⟩
          rcases Nat.lt_or_eq_of_le hao with hao | rfl
          · exact .inr ⟨ho, ho.add_length_le ha hi hao, hob, hj⟩
          · rw [hi] at hj
            cases hj
            exact .inl rfl
    · exact ⟨[], fuel + 1, hfuel, by simp, fun o i => iff_of_false nofun fun h => by omega⟩

/-- The instructions of a stretch from the start, with the one behind it that ends the run. -/
private theorem Laid.instructions {back : Prop} {span : Span} (h : c.Laid back [] 0 m)
    (hhalt : c.Has .halt 0 span m c.code.size) :
    ∃ front, c.instructions? = some (front ++ [(m, ⟨Opcode.halt, 0⟩)]) ∧
      ∀ o i, (o, i) ∈ front ↔ o < m ∧ c.Boundary o ∧ c.fetch o = .ok i := by
  have hm : c.code.size = m + 1 := hhalt.2.2
  obtain ⟨front, n, hn, hdecoded, hfront⟩ := instructionsFrom_append h.stop
    (by omega) h.start h.le (Nat.le_of_eq (Nat.zero_add _).symm)
  obtain ⟨n, rfl⟩ : ∃ k, n = k + 1 := ⟨n - 1, by omega⟩
  have hlast : c.instructionsFrom (n + 1) m = some [(m, ⟨.halt, 0⟩)] := by
    rw [instructionsFrom, if_neg (by omega), hhalt.1]
    simp only [← hhalt.2.2, instructionsFrom_size, Option.map_some]
  refine ⟨front, ?_, fun o i => (hfront o i).trans ?_⟩
  · rw [instructions?, hdecoded, hlast]
    rfl
  · constructor
    · rintro ⟨ho, -, hom, hi⟩
      exact ⟨hom, ho, hi⟩
    · rintro ⟨hom, ho, hi⟩
      exact ⟨ho, Nat.zero_le o, hom, hi⟩

/-- An instruction before the end of the run, or the one that ends it. -/
theorem Has.lt_or_eq {span : Span} {o : Nat} {i : Instruction}
    (hhalt : c.Has .halt 0 span m c.code.size) (hi : c.fetch o = .ok i) :
    o < m ∨ o = m ∧ i = ⟨.halt, 0⟩ := by
  have hm : c.code.size = m + 1 := hhalt.2.2
  rcases Nat.lt_trichotomy o m with hom | rfl | hmo
  · exact .inl hom
  · rw [hhalt.1] at hi
    cases hi
    exact .inr ⟨rfl, rfl⟩
  · have hinside : o + i.op.length ≤ c.code.size := length_le_of_fetch hi
    have hlength := lt_length o i.op
    omega

/-- The jumps of a whole program lead to its instructions. -/
theorem Laid.jump {back : Prop} {span : Span} {o : Nat} {i : Instruction}
    (h : c.Laid back [] 0 m) (hhalt : c.Has .halt 0 span m c.code.size) (ho : c.Boundary o)
    (hi : c.fetch o = .ok i) (hjump : i.op.isJump = true) :
    ∃ t : Nat, c.readJump (o + 1) = t ∧ c.Boundary t ∧ t ≤ m ∧ (o < t ∨ back) ∧
      ∀ s e, c.Body s e → s < m → (s ≤ o ∧ o < e ↔ s ≤ t ∧ t < e) := by
  rcases hhalt.lt_or_eq hi with hom | ⟨-, rfl⟩
  · obtain ⟨t, hread, ⟨ht, -, htm, hway, hstays⟩ | ⟨hout, -⟩⟩ :=
      h.jumps o i (Nat.zero_le o) hom ho hi hjump
    · exact ⟨t, hread, ht, htm, hway, fun s e hbody => hstays s e hbody (Nat.zero_le s)⟩
    · cases hout
  · cases hjump

/-- A stretch from the start and the instruction that ends the run make up well formed code. -/
theorem Laid.wellFormed {back : Prop} {span : Span} (h : c.Laid back [] 0 m)
    (hhalt : c.Has .halt 0 span m c.code.size) (hpositions : c.positions.size = c.code.size) :
    ∃ is, c.WellFormed is ∧ ∀ o i, c.Boundary o → c.fetch o = .ok i → (o, i) ∈ is := by
  have hm : c.code.size = m + 1 := hhalt.2.2
  obtain ⟨front, hdecoded, hfront⟩ := h.instructions hhalt
  have hwhole : ∀ o i, (o, i) ∈ front → i.op ≠ .halt ∧ c.Whole o i := by
    intro o i hi
    obtain ⟨hom, ho, hi⟩ := (hfront o i).1 hi
    obtain ⟨j, hop, hwhole⟩ := h.inside o (Nat.zero_le o) hom ho
    obtain rfl := hwhole.eq_of_fetch hi
    exact ⟨hop, hwhole⟩
  have hmem : ∀ o i, c.Boundary o → c.fetch o = .ok i →
      (o, i) ∈ front ++ [(m, ⟨Opcode.halt, 0⟩)] := by
    intro o i ho hi
    rcases hhalt.lt_or_eq hi with hom | ⟨rfl, rfl⟩
    · exact List.mem_append_left _ ((hfront o i).2 ⟨hom, ho, hi⟩)
    · exact List.mem_append_right _ List.mem_cons_self
  refine ⟨front ++ [(m, ⟨.halt, 0⟩)], ⟨hdecoded, ⟨front, m, rfl, fun x hx => (hwhole _ _ hx).1⟩,
    fun o i hi hjump => ?_, fun o arity hi => ?_, fun o i hi => ?_, hpositions,
    fun o i hi => ?_⟩, hmem⟩ <;> rcases List.mem_append.1 hi with hi | hi
  · obtain ⟨-, ho, hi⟩ := (hfront o i).1 hi
    obtain ⟨t, hread, ht, htm, -, hstays⟩ := h.jump hhalt ho hi hjump
    obtain ⟨j, hj⟩ := (h.stop.next hhalt.1).exists_fetch ht (Nat.lt_succ_of_le htm)
    refine ⟨t, j, hread, hmem t j ht hj, fun s e hbody => ?_⟩
    obtain ⟨hs, arity, hmarker⟩ := hbody.marker
    rcases hhalt.lt_or_eq hmarker with hsm | ⟨-, heq⟩
    · exact hstays s e hbody hsm
    · cases heq
  · cases List.mem_singleton.1 hi
    cases hjump
  · obtain ⟨hom, ho, hi⟩ := (hfront o _).1 hi
    obtain ⟨e, hbody, -, hoe, hem⟩ := h.markers o arity (Nat.zero_le o) hom ho hi
    exact ⟨e, hbody, hoe, by omega⟩
  · cases List.mem_singleton.1 hi
  · exact (hwhole o i hi).2.operand
  · cases List.mem_singleton.1 hi
    trivial
  · exact (hwhole o i hi).2.spans
  · cases List.mem_singleton.1 hi
    exact (hhalt.whole trivial).spans

theorem Has.next {op : Opcode} {arg : Nat} {span : Span} (h : c.Has op arg span a b)
    (ha : c.Boundary a) : c.Boundary b := by
  rw [h.2.2]
  exact ha.next h.1

end Chunk

mutual

/-- The functions of a statement start at boundaries. -/
theorem Stmt.boundary_functions {c : Chunk} {address : Nat → Nat} : ∀ (s : Stmt)
    {outer : List Names} {exit : Exit} {k : Nat} {ns : Names} {a b : Nat},
    s.Placed c address outer exit k ns a b → c.Boundary a →
    ∀ f ∈ Stmt.functions address outer k s ns, c.Boundary f.address
  | .define _ name params (.mk _ body), _, _, _, _, _, _, h, ha => by
    obtain ⟨m₁, m₂, m₃, hskip, hmarker, hbody, -⟩ := h
    have hstart := hskip.1.next ha
    intro f hf
    rw [Stmt.functions] at hf
    rcases List.mem_cons.1 hf with rfl | hf
    · exact hstart
    · exact Stmt.boundary_functionsAll body hbody (hmarker.next hstart) f hf
  | .switch _ arms otherwise, _, _, _, _, _, _, h, ha => by
    obtain ⟨entry, m, harms, hdefault⟩ := h
    have hm := (Arm.laidSwitch arms harms ha (.inl trivial)).1.stop
    intro f hf
    rw [Stmt.functions] at hf
    rcases List.mem_append.1 hf with hf | hf
    · exact Arm.boundary_functionsSwitch arms harms ha f hf
    · exact Block.boundary_functionsOption otherwise hdefault hm f hf
  | .branch _ yes arms no, _, _, _, _, _, _, h, ha => by
    obtain ⟨m₁, m₂, m₃, next, m₄, hread, htest, hyes, hdone, harms, hno⟩ := h
    have hm₂ := htest.1.next (hread.next ha)
    have hnext := hdone.1.next (Block.laidOption yes hyes hm₂ (.inl trivial)).stop
    have hm₄ := (Arm.laidBranch arms harms hnext (.inl trivial)).stop
    intro f hf
    rw [Stmt.functions] at hf
    rcases List.mem_append.1 hf with hf | hf
    · rcases List.mem_append.1 hf with hf | hf
      · exact Block.boundary_functionsOption yes hyes hm₂ f hf
      · exact Arm.boundary_functionsBranch arms harms hnext f hf
    · exact Block.boundary_functionsOption no hno hm₄ f hf
  | .loop _ _ _ update (.mk _ body), _, _, _, _, _, _, h, ha => by
    obtain ⟨start, m₁, m₂, m₃, m₄, beyond, hstart, htest, hbody, -⟩ := h
    have hm₁ := (LoopUpdate.laid_test True htest
      (LoopUpdate.plain_start hstart ha).stop).stop
    intro f hf
    rw [Stmt.functions] at hf
    exact Stmt.boundary_functionsAll body hbody hm₁ f hf
  | .assign _ _ _, _, _, _, _, _, _, _, _ | .declare _ _ _, _, _, _, _, _, _, _, _
  | .load _ _, _, _, _, _, _, _, _, _ | .expr _ _, _, _, _, _, _, _, _, _
  | .cast _ _ _, _, _, _, _, _, _, _, _ | .leave _, _, _, _, _, _, _, _, _
  | .ret _ _, _, _, _, _, _, _, _, _ | .print _ _ _, _, _, _, _, _, _, _, _
  | .read _ _, _, _, _, _, _, _, _, _ | .append _ _ _, _, _, _, _, _, _, _, _
  | .store _ _ _ _, _, _, _, _, _, _, _, _ => nofun

theorem Stmt.boundary_functionsAll {c : Chunk} {address : Nat → Nat} : ∀ (ss : List Stmt)
    {outer : List Names} {exit : Exit} {k : Nat} {ns : Names} {a b : Nat},
    Stmt.PlacedAll c address outer exit k ss ns a b → c.Boundary a →
    ∀ f ∈ Stmt.functionsAll address outer k ss ns, c.Boundary f.address
  | [], _, _, _, _, _, _, _, _ => nofun
  | s :: ss, _, _, _, _, _, _, h, ha => by
    obtain ⟨m, hs, hss⟩ := h
    have hm := (Stmt.laid s hs ha (.inl trivial)).stop
    intro f hf
    rw [Stmt.functionsAll] at hf
    rcases List.mem_append.1 hf with hf | hf
    · exact Stmt.boundary_functions s hs ha f hf
    · exact Stmt.boundary_functionsAll ss hss hm f hf

theorem Block.boundary_functionsOption {c : Chunk} {address : Nat → Nat} :
    ∀ (block : Option Block) {outer : List Names} {exit : Exit} {k : Nat} {span : Span}
    {ns : Names} {a b : Nat},
    Block.PlacedOption c address outer exit k span block ns a b → c.Boundary a →
    ∀ f ∈ Block.functionsOption address outer k block ns, c.Boundary f.address
  | none, _, _, _, _, _, _, _, _, _ => nofun
  | some (.mk _ body), _, _, _, _, _, _, _, h, ha => by
    obtain ⟨m, hbody, -⟩ := h
    exact Stmt.boundary_functionsAll body hbody ha

theorem Arm.boundary_functionsSwitch {c : Chunk} {address : Nat → Nat} : ∀ (arms : List Arm)
    {outer : List Names} {exit : Exit} {k : Nat} {span : Span} {ns : Names} {a entry b : Nat},
    Arm.PlacedSwitch c address outer exit k span arms ns a entry b → c.Boundary a →
    ∀ f ∈ Arm.functionsAll address outer k arms ns, c.Boundary f.address
  | [], _, _, _, _, _, _, _, _, _, _ => nofun
  | .mk test (.mk _ body) :: arms, _, _, _, _, _, _, _, _, h, ha => by
    obtain ⟨m₁, m₂, m₃, m₄, m₅, next, entry', hread, htest, hequal, hskip, hbody, hpops, hfall,
      harms⟩ := h
    have hentry := hskip.1.next (hequal.next (test.plain htest (hread.next ha)).stop)
    have hm₄ := (Stmt.laidAll body hbody hentry (.inl trivial)).1.stop
    have hnext := hfall.1.next (hpops.plain hm₄).stop
    intro f hf
    rw [Arm.functionsAll] at hf
    rcases List.mem_append.1 hf with hf | hf
    · exact Stmt.boundary_functionsAll body hbody hentry f hf
    · exact Arm.boundary_functionsSwitch arms harms hnext f hf

theorem Arm.boundary_functionsBranch {c : Chunk} {address : Nat → Nat} : ∀ (arms : List Arm)
    {outer : List Names} {exit : Exit} {k : Nat} {span : Span} {beyond : Nat} {ns : Names}
    {a b : Nat},
    Arm.PlacedBranch c address outer exit k span beyond arms ns a b → c.Boundary a →
    ∀ f ∈ Arm.functionsAll address outer k arms ns, c.Boundary f.address
  | [], _, _, _, _, _, _, _, _, _, _ => nofun
  | .mk test (.mk _ body) :: arms, _, _, _, _, _, _, _, _, h, ha => by
    obtain ⟨m₁, m₂, m₃, m₄, next, htest, hskip, hbody, hpops, hdone, harms⟩ := h
    have hm₂ := hskip.1.next (test.plain htest ha).stop
    have hm₃ := (Stmt.laidAll body hbody hm₂ (.inl trivial)).1.stop
    have hnext := hdone.1.next (hpops.plain hm₃).stop
    intro f hf
    rw [Arm.functionsAll] at hf
    rcases List.mem_append.1 hf with hf | hf
    · exact Stmt.boundary_functionsAll body hbody hm₂ f hf
    · exact Arm.boundary_functionsBranch arms harms hnext f hf

end

namespace Program

variable {p : Program} {c : Chunk} {address : Nat → Nat} {f : Function}

/-- The functions of a program have their markers at boundaries. -/
theorem Placed.marker (h : p.Placed c address) (hf : f ∈ p.functions address) :
    c.Boundary f.address ∧ c.fetch f.address = .ok ⟨.fnDef, f.params.length⟩ := by
  obtain ⟨m, hbody, -⟩ := h
  obtain ⟨span, m₁, -, -, hmarker, -⟩ := (Stmt.functionsAll_stand p.body.stmts hbody f hf).placed
  exact ⟨Stmt.boundary_functionsAll p.body.stmts hbody .start f hf, hmarker.1⟩

/-- A known function value is the place of a function. -/
theorem Placed.exists_function (h : p.Placed c address) (hshort : c.code.size < 2 ^ 31)
    {n : Int64}
    (hknown : (Value.funkshon n).KnownFunction address (Stmt.definitionsAll p.body.stmts)) :
    ∃ f ∈ p.functions address, n.toInt = f.address := by
  obtain ⟨j, hj, hvalue⟩ := hknown n rfl
  obtain ⟨f, hf, haddress⟩ : ∃ f ∈ p.functions address, f.address = address j :=
    Stmt.exists_functionAll p.body.stmts (Nat.zero_le j) (by rwa [Nat.zero_add])
  obtain rfl : n = Int64.ofNat (address j) := Value.funkshon.inj hvalue
  have hinside := Chunk.length_le_of_fetch (h.marker hf).2
  have hlength := Chunk.lt_length f.address .fnDef
  rw [haddress] at hinside hlength
  exact ⟨f, hf, by rw [haddress]; exact Int64.toInt_ofNat_of_lt (by omega)⟩

end Program

/-- The compiler makes well formed code. Each function of the program has its marker in it, and each
function value among the constants is the place of a function. -/
theorem Program.wellFormed_of_compile (p : Program) (names : NameTable) (c : Chunk)
    (hcompile : p.compile names = .ok c) (hshort : c.code.size < 2 ^ 31) :
    ∃ (address : Nat → Nat) (is : List (Nat × Instruction)),
      (∀ i j, i < j → j < Stmt.definitionsAll p.body.stmts → address i < address j) ∧
      c.WellFormed is ∧
      (∀ f ∈ p.functions address, (f.address, ⟨.fnDef, f.params.length⟩) ∈ is) ∧
      ∀ x ∈ c.pool.constants.toList, ∀ n, x.value = .funkshon n →
        ∃ f ∈ p.functions address, n.toInt = f.address := by
  obtain ⟨address, hordered, hplaced, hknown, hpositions, -⟩ :=
    Program.placed_of_compile hcompile hshort
  obtain ⟨m, hbody, hhalt⟩ := id hplaced
  have hlaid := (Stmt.laidAll p.body.stmts hbody .start (.inl trivial)).1
  obtain ⟨is, hwell, hmem⟩ := hlaid.wellFormed hhalt hpositions
  refine ⟨address, is, hordered, hwell, fun f hf => ?_, fun x hx n hn => ?_⟩
  · obtain ⟨hboundary, hmarker⟩ := hplaced.marker hf
    exact hmem _ _ hboundary hmarker
  · exact hplaced.exists_function hshort (hn ▸ hknown x hx)

theorem Program.wellFormed_of_compile_echo :
    ∃ c, Program.echo.compile ⟨#[]⟩ = .ok c ∧ c.code.size = 21 ∧
      ∃ (address : Nat → Nat) (is : List (Nat × Instruction)),
        (∀ i j, i < j → j < 1 → address i < address j) ∧
        c.WellFormed is ∧
        (∀ f ∈ Program.echo.functions address, (f.address, ⟨.fnDef, f.params.length⟩) ∈ is) ∧
        ∀ x ∈ c.pool.constants.toList, ∀ n, x.value = .funkshon n →
          ∃ f ∈ Program.echo.functions address, n.toInt = f.address :=
  ⟨_, rfl, rfl, Program.echo.wellFormed_of_compile ⟨#[]⟩ _ rfl (by decide)⟩

end LolToolchain
