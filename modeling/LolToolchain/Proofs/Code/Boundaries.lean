import LolToolchain.Proofs.Code.Compilation

/-!
Where the instructions of compiled code begin, and where its jumps lead. A stretch of code is `Laid`
if it splits into instructions, its jumps lead to instructions of the stretch or to given places
outside, and the code of a function in it is entered and left by no jump. The layout of a statement
gives such a stretch; a jump back is only there if the statement has a loop in it.
-/
namespace LolToolchain

/-- Operations after which the machine goes on to the next instruction or returns. -/
def Opcode.isPlain : Opcode → Bool
  | .jump | .jumpIfFalse | .fnDef | .halt => false
  | _ => true

theorem Opcode.isJump_of_isPlain {op : Opcode} (h : op.isPlain = true) : op.isJump = false := by
  cases op <;> first | rfl | cases h

namespace Chunk

/-- An offset that is come to by reading one instruction after another from the start. -/
inductive Boundary (c : Chunk) : Nat → Prop where
  | start : c.Boundary 0
  | next {o : Nat} {i : Instruction} (h : c.Boundary o) (hfetch : c.fetch o = .ok i) :
    c.Boundary (o + i.op.length)

/-- What the operand of an instruction names is there. -/
def Operand (c : Chunk) (i : Instruction) : Prop :=
  match i.op with
  | .loadConst | .loadConstLong =>
    ∃ v, c.pool.get? i.arg = some v ∧ (∀ t, v ≠ .interp t) ∧ ∀ r, v ≠ .bukkit r
  | .interp | .interpLong => ∃ t, c.pool.get? i.arg = some (.interp (some t))
  | .cast => ∃ t, TypeName.ofCode? i.arg.toUInt8 = some t
  | _ => True

/-- An instruction with what its operand names, and with its span on all of its bytes. -/
structure Whole (c : Chunk) (o : Nat) (i : Instruction) : Prop where
  fetched : c.fetch o = .ok i
  operand : c.Operand i
  spans : ∀ d < i.op.length, c.spanAt (o + d : Nat) = c.spanAt o

/-- The code of a function: it starts with the marker of the function, and ends where the jump before
the marker leads. -/
def Body (c : Chunk) (start stop : Nat) : Prop :=
  ∃ skip arity, c.Boundary skip ∧ c.fetch skip = .ok ⟨.jump, 0⟩ ∧
    start = skip + Opcode.jump.length ∧ c.readJump (skip + 1) = stop ∧
    c.fetch start = .ok ⟨.fnDef, arity⟩

/-- A stretch of code without jumps and functions. -/
structure Plain (c : Chunk) (a b : Nat) : Prop where
  start : c.Boundary a
  stop : c.Boundary b
  le : a ≤ b
  inside : ∀ o, a ≤ o → o < b → c.Boundary o →
    ∃ i, i.op.isPlain = true ∧ c.Whole o i

/-- A stretch of code. Its jumps lead to places in it or to some of `outs`; a jump from the code of a
function stays there, and no other leads there. If `back` does not hold, jumps within the stretch
lead forward. -/
structure Laid (c : Chunk) (back : Prop) (outs : List Nat) (a b : Nat) : Prop where
  start : c.Boundary a
  stop : c.Boundary b
  le : a ≤ b
  inside : ∀ o, a ≤ o → o < b → c.Boundary o →
    ∃ i, i.op ≠ .halt ∧ c.Whole o i
  markers : ∀ o arity, a ≤ o → o < b → c.Boundary o → c.fetch o = .ok ⟨.fnDef, arity⟩ →
    ∃ e, c.Body o e ∧ a + Opcode.jump.length ≤ o ∧ o < e ∧ e ≤ b
  jumps : ∀ o i, a ≤ o → o < b → c.Boundary o → c.fetch o = .ok i → i.op.isJump = true →
    ∃ t : Nat, c.readJump (o + 1) = t ∧
      (c.Boundary t ∧ a ≤ t ∧ t ≤ b ∧ (o < t ∨ back) ∧
          (∀ s e, c.Body s e → a ≤ s → s < b → (s ≤ o ∧ o < e ↔ s ≤ t ∧ t < e)) ∨
        t ∈ outs ∧ ∀ s e, c.Body s e → a ≤ s → s < b → ¬(s ≤ o ∧ o < e))

/-- A place in a stretch of code, or at its end, that is not in a function of the stretch. -/
structure Joint (c : Chunk) (a b t : Nat) : Prop where
  boundary : c.Boundary t
  le : a ≤ t
  ge : t ≤ b
  free : ∀ s e, c.Body s e → a ≤ s → s < b → ¬(s ≤ t ∧ t < e)

/-- The jumps of a stretch that do not leave it end before its last instruction. -/
def Short (c : Chunk) (outs : List Nat) (a b : Nat) : Prop :=
  a < b ∧ ∀ o i, a ≤ o → o < b → c.Boundary o → c.fetch o = .ok i → i.op.isJump = true →
    ∃ t : Nat, c.readJump (o + 1) = t ∧ (t < b ∨ t ∈ outs)

variable {c : Chunk} {back : Prop} {outs outs₁ outs₂ : List Nat} {a b m s e e' t o : Nat}
variable {i : Instruction} {op short long : Opcode} {arg n : Nat} {span : Span}

theorem Whole.eq_of_fetch {j : Instruction} (h : c.Whole o i) (hfetch : c.fetch o = .ok j) :
    i = j := by
  have := h.fetched
  rw [hfetch] at this
  exact (Except.ok.inj this).symm

theorem lt_length (a : Nat) (op : Opcode) : a < a + op.length := by
  rw [Opcode.length]
  omega

namespace Boundary

/-- No boundary lies inside an instruction. -/
theorem add_length_le (hb : c.Boundary b) (ha : c.Boundary a) (hfetch : c.fetch a = .ok i)
    (hlt : a < b) : a + i.op.length ≤ b := by
  induction b using Nat.strongRecOn generalizing a i with
  | ind b ih =>
    cases hb with
    | start => exact absurd hlt (Nat.not_lt_zero a)
    | @next o j ho hj =>
      have hob := lt_length o j.op
      rcases Nat.lt_trichotomy a o with hao | rfl | hoa
      · exact Nat.le_trans (ih o hob ho ha hfetch hao) (Nat.le_of_lt hob)
      · rw [hfetch] at hj
        cases hj
        exact Nat.le_refl _
      · exact absurd (ih a hlt ha ho hj hoa) (Nat.not_le_of_lt hlt)

theorem eq_of_between (ha : c.Boundary a) (hfetch : c.fetch a = .ok i) (ho : c.Boundary o)
    (hle : a ≤ o) (hlt : o < a + i.op.length) : o = a := by
  rcases Nat.lt_or_eq_of_le hle with h | h
  · exact absurd (ho.add_length_le ha hfetch h) (Nat.not_le_of_lt hlt)
  · exact h.symm

end Boundary

namespace Body

theorem unique (h : c.Body s e) (h' : c.Body s e') : e = e' := by
  obtain ⟨skip, _, -, -, rfl, he, -⟩ := h
  obtain ⟨skip', _, -, -, hs, he', -⟩ := h'
  obtain rfl : skip = skip' := by omega
  rw [he] at he'
  exact Int.ofNat.inj he'

theorem marker (h : c.Body s e) : c.Boundary s ∧ ∃ arity, c.fetch s = .ok ⟨.fnDef, arity⟩ := by
  obtain ⟨skip, arity, hskip, hfetch, rfl, -, hmarker⟩ := h
  exact ⟨hskip.next hfetch, arity, hmarker⟩

end Body

namespace Plain

theorem refl (ha : c.Boundary a) : c.Plain a a :=
  ⟨ha, ha, Nat.le_refl a, fun _ hao hoa => absurd hao (Nat.not_le_of_lt hoa)⟩

theorem trans (h₁ : c.Plain a m) (h₂ : c.Plain m b) : c.Plain a b where
  start := h₁.start
  stop := h₂.stop
  le := Nat.le_trans h₁.le h₂.le
  inside o hao hob ho := by
    rcases Nat.lt_or_ge o m with hom | hmo
    · exact h₁.inside o hao hom ho
    · exact h₂.inside o hmo hob ho

variable (back) in
theorem laid (h : c.Plain a b) : c.Laid back outs a b where
  start := h.start
  stop := h.stop
  le := h.le
  inside o hao hob ho := by
    obtain ⟨i, hplain, hwhole⟩ := h.inside o hao hob ho
    refine ⟨i, fun hop => ?_, hwhole⟩
    rw [hop] at hplain
    cases hplain
  markers o arity hao hob ho hmarker := by
    obtain ⟨i, hplain, hwhole⟩ := h.inside o hao hob ho
    obtain rfl := hwhole.eq_of_fetch hmarker
    cases hplain
  jumps o i hao hob ho hjump hop := by
    obtain ⟨j, hplain, hwhole⟩ := h.inside o hao hob ho
    obtain rfl := hwhole.eq_of_fetch hjump
    obtain ⟨op, arg⟩ := j
    exact absurd hop (by rw [Opcode.isJump_of_isPlain hplain]; decide)

end Plain

theorem Has.whole (h : c.Has op arg span a b) (hoperand : c.Operand ⟨op, arg⟩) :
    c.Whole a ⟨op, arg⟩ :=
  ⟨h.1, hoperand, fun d hd => (h.2.1 d hd).trans h.spanAt.symm⟩

theorem Has.plain (h : c.Has op arg span a b) (ha : c.Boundary a)
    (hop : op.isPlain = true) (hoperand : c.Operand ⟨op, arg⟩) :
    c.Plain a b := by
  have hwhole := h.whole hoperand
  obtain ⟨hfetch, -, rfl⟩ := h
  refine ⟨ha, ha.next hfetch, Nat.le_add_right a _, fun o hao hob ho => ?_⟩
  obtain rfl := ha.eq_of_between hfetch ho hao hob
  exact ⟨_, hop, hwhole⟩

theorem Has.lt (h : c.Has op arg span a b) : a < b := by
  rw [h.2.2]
  exact lt_length a op

theorem HasIndexed.plain (h : c.HasIndexed short long n span a b) (ha : c.Boundary a)
    (hshort : short.isPlain = true) (hlong : long.isPlain = true)
    (hoperand : c.Operand ⟨short, n⟩ ∧ c.Operand ⟨long, n⟩) :
    c.Plain a b := by
  obtain ⟨op, rfl | rfl, h⟩ := h
  · exact h.plain ha hshort hoperand.1
  · exact h.plain ha hlong hoperand.2

theorem HasConstant.plain {v : Value} (h : c.HasConstant v span a b) (ha : c.Boundary a)
    (hv : (∀ t, v ≠ .interp t) ∧ ∀ r, v ≠ .bukkit r) :
    c.Plain a b := by
  obtain ⟨i, h, hget⟩ := h
  exact h.plain ha rfl rfl ⟨⟨v, hget, hv⟩, ⟨v, hget, hv⟩⟩

theorem HasPops.plain (h : c.HasPops n span a b) (ha : c.Boundary a) : c.Plain a b := by
  unfold HasPops at h
  split at h
  · subst h
    exact .refl ha
  · exact h.plain ha rfl rfl ⟨trivial, trivial⟩

namespace Laid

variable (back) in
/-- A jump leads out of its own stretch. -/
theorem of_jump (h : c.HasJump op t span a b) (ha : c.Boundary a)
    (hop : op = .jump ∨ op = .jumpIfFalse) : c.Laid back [t] a b := by
  have hwhole : c.Whole a ⟨op, 0⟩ := h.1.whole (by rcases hop with rfl | rfl <;> trivial)
  obtain ⟨⟨hfetch, -, rfl⟩, hread⟩ := h
  have hend := ha.next hfetch
  refine ⟨ha, hend, Nat.le_add_right a _, fun o hao hob ho => ?_, fun o arity hao hob ho hmarker => ?_,
    fun o i hao hob ho hjump _ => ?_⟩ <;> obtain rfl := ha.eq_of_between hfetch ho hao hob
  · exact ⟨_, by rcases hop with rfl | rfl <;> nofun, hwhole⟩
  · rw [hfetch] at hmarker
    cases hmarker
    rcases hop with hop | hop <;> cases hop
  · refine ⟨t, hread, .inr ⟨List.mem_cons_self, fun s e hbody hos hso => ?_⟩⟩
    obtain ⟨hs, arity, hmarker⟩ := hbody.marker
    obtain rfl := ha.eq_of_between hfetch hs hos hso
    rw [hfetch] at hmarker
    cases hmarker
    rcases hop with hop | hop <;> cases hop

theorem mono (h : c.Laid back outs₁ a b) (hsub : ∀ t ∈ outs₁, t ∈ outs) : c.Laid back outs a b := by
  refine { h with jumps := fun o i hao hob ho hfetch hjump => ?_ }
  obtain ⟨t, hread, hin | ⟨hout, hfree⟩⟩ := h.jumps o i hao hob ho hfetch hjump
  · exact ⟨t, hread, .inl hin⟩
  · exact ⟨t, hread, .inr ⟨hsub t hout, hfree⟩⟩

/-- The functions of a stretch lie within it, each behind the jump over it. -/
theorem body (h : c.Laid back outs a b) (hbody : c.Body s e) (has : a ≤ s) (hsb : s < b) :
    a < s ∧ s < e ∧ e ≤ b := by
  obtain ⟨hs, arity, hmarker⟩ := hbody.marker
  obtain ⟨e', hbody', hstart, hse, hstop⟩ := h.markers s arity has hsb hs hmarker
  obtain rfl := hbody.unique hbody'
  exact ⟨Nat.lt_of_lt_of_le (lt_length a _) hstart, hse, hstop⟩

theorem joint_start (h : c.Laid back outs a b) : c.Joint a b a :=
  ⟨h.start, Nat.le_refl a, h.le, fun _ _ hbody has hsb hin => by
    have := h.body hbody has hsb
    omega⟩

theorem joint_stop (h : c.Laid back outs a b) : c.Joint a b b :=
  ⟨h.stop, h.le, Nat.le_refl b, fun _ _ hbody has hsb hin => by
    have := h.body hbody has hsb
    omega⟩

end Laid

namespace Joint

theorem left (h : c.Joint a m t) (h₂ : c.Laid back outs m b) : c.Joint a b t := by
  refine ⟨h.boundary, h.le, Nat.le_trans h.ge h₂.le, fun s e hbody has hsb => ?_⟩
  rcases Nat.lt_or_ge s m with hsm | hms
  · exact h.free s e hbody has hsm
  · have hinside := h₂.body hbody hms hsb
    have hle := h.ge
    omega

private theorem right (h : c.Joint m b t) (h₁ : c.Laid back outs a m) : c.Joint a b t := by
  refine ⟨h.boundary, Nat.le_trans h₁.le h.le, h.ge, fun s e hbody has hsb => ?_⟩
  rcases Nat.lt_or_ge s m with hsm | hms
  · have hinside := h₁.body hbody has hsm
    have hle := h.le
    omega
  · exact h.free s e hbody hms hsb

end Joint

namespace Laid

/-- Two stretches one after the other. A jump out of the first can lead to a joint of the second, and
a jump out of the second back to a joint of the first. -/
theorem trans (h₁ : c.Laid back outs₁ a m) (h₂ : c.Laid back outs₂ m b)
    (k₁ : ∀ t ∈ outs₁, t ∈ outs ∨ c.Joint m b t)
    (k₂ : ∀ t ∈ outs₂, t ∈ outs ∨ back ∧ c.Joint a m t) : c.Laid back outs a b where
  start := h₁.start
  stop := h₂.stop
  le := Nat.le_trans h₁.le h₂.le
  inside o hao hob ho := by
    rcases Nat.lt_or_ge o m with hom | hmo
    · exact h₁.inside o hao hom ho
    · exact h₂.inside o hmo hob ho
  markers o arity hao hob ho hmarker := by
    have hle₁ := h₁.le
    have hle₂ := h₂.le
    rcases Nat.lt_or_ge o m with hom | hmo
    · obtain ⟨e, hbody, hstart, hlt, hstop⟩ := h₁.markers o arity hao hom ho hmarker
      exact ⟨e, hbody, hstart, hlt, by omega⟩
    · obtain ⟨e, hbody, hstart, hlt, hstop⟩ := h₂.markers o arity hmo hob ho hmarker
      exact ⟨e, hbody, by omega, hlt, hstop⟩
  jumps o i hao hob ho hfetch hjump := by
    have hle₁ := h₁.le
    have hle₂ := h₂.le
    have hbody₁ : ∀ {s e}, c.Body s e → a ≤ s → s < m → a < s ∧ s < e ∧ e ≤ m := h₁.body
    have hbody₂ : ∀ {s e}, c.Body s e → m ≤ s → s < b → m < s ∧ s < e ∧ e ≤ b := h₂.body
    rcases Nat.lt_or_ge o m with hom | hmo
    · obtain ⟨t, hread, ⟨ht, hat, htm, hway, hstays⟩ | ⟨hout, hfree⟩⟩ :=
        h₁.jumps o i hao hom ho hfetch hjump
      · refine ⟨t, hread, .inl ⟨ht, hat, by omega, hway, fun s e hbody has hsb => ?_⟩⟩
        rcases Nat.lt_or_ge s m with hsm | hms
        · exact hstays s e hbody has hsm
        · have := hbody₂ hbody hms hsb
          omega
      have hfree' : ∀ s e, c.Body s e → a ≤ s → s < b → ¬(s ≤ o ∧ o < e) := by
        intro s e hbody has hsb
        rcases Nat.lt_or_ge s m with hsm | hms
        · exact hfree s e hbody has hsm
        · omega
      rcases k₁ t hout with hout | hjoint
      · exact ⟨t, hread, .inr ⟨hout, hfree'⟩⟩
      · have hmt := hjoint.le
        refine ⟨t, hread, .inl ⟨hjoint.boundary, by omega, hjoint.ge, .inl (by omega),
          fun s e hbody has hsb => iff_of_false (hfree' s e hbody has hsb) ?_⟩⟩
        exact (hjoint.right h₁).free s e hbody has hsb
    · obtain ⟨t, hread, ⟨ht, hmt, htb, hway, hstays⟩ | ⟨hout, hfree⟩⟩ :=
        h₂.jumps o i hmo hob ho hfetch hjump
      · refine ⟨t, hread, .inl ⟨ht, by omega, htb, hway, fun s e hbody has hsb => ?_⟩⟩
        rcases Nat.lt_or_ge s m with hsm | hms
        · have := hbody₁ hbody has hsm
          omega
        · exact hstays s e hbody hms hsb
      have hfree' : ∀ s e, c.Body s e → a ≤ s → s < b → ¬(s ≤ o ∧ o < e) := by
        intro s e hbody has hsb
        rcases Nat.lt_or_ge s m with hsm | hms
        · have := hbody₁ hbody has hsm
          omega
        · exact hfree s e hbody hms hsb
      rcases k₂ t hout with hout | ⟨hback, hjoint⟩
      · exact ⟨t, hread, .inr ⟨hout, hfree'⟩⟩
      · have htm := hjoint.ge
        refine ⟨t, hread, .inl ⟨hjoint.boundary, hjoint.le, by omega, .inr hback,
          fun s e hbody has hsb => iff_of_false (hfree' s e hbody has hsb) ?_⟩⟩
        exact (hjoint.left h₂).free s e hbody has hsb

theorem append (h₁ : c.Laid back outs a m) (h₂ : c.Laid back outs m b) : c.Laid back outs a b :=
  h₁.trans h₂ (fun _ ht => .inl ht) fun _ ht => .inl ht

/-- A jump out of a stretch can lead to its end. -/
theorem land (h : c.Laid back outs₁ a b) (k : ∀ t ∈ outs₁, t ∈ outs ∨ t = b) :
    c.Laid back outs a b := by
  refine { h with jumps := fun o i hao hob ho hfetch hjump => ?_ }
  obtain ⟨t, hread, hin | ⟨hout, hfree⟩⟩ := h.jumps o i hao hob ho hfetch hjump
  · exact ⟨t, hread, .inl hin⟩
  · rcases k t hout with hout | rfl
    · exact ⟨t, hread, .inr ⟨hout, hfree⟩⟩
    · exact ⟨t, hread, .inl ⟨h.stop, h.le, Nat.le_refl t, .inl hob, fun s e hbody has hsb =>
        iff_of_false (hfree s e hbody has hsb) (h.joint_stop.free s e hbody has hsb)⟩⟩

/-- A function: the jump over it, its marker, and the code that is its own, of which no jump leads to
its end. -/
theorem function (hskip : c.HasJump .jump b span a s) (hmarker : c.Has .fnDef arg span s m)
    (hbody : c.Laid back [] m b) (hshort : c.Short [] m b) (ha : c.Boundary a) :
    c.Laid back outs a b := by
  have hwhole := hskip.1.whole trivial
  have hwhole' := hmarker.whole trivial
  obtain ⟨⟨hfetch, -, rfl⟩, hread⟩ := hskip
  obtain ⟨hmark, -, rfl⟩ := hmarker
  have hs := ha.next hfetch
  have hjump := lt_length a .jump
  have hdef := lt_length (a + Opcode.jump.length) .fnDef
  have hle := hbody.le
  have hlt := hshort.1
  have hown : c.Body (a + Opcode.jump.length) b := ⟨a, arg, ha, hfetch, rfl, hread, hmark⟩
  -- an instruction is the jump over the function, its marker, or behind the marker
  have hcases : ∀ o, a ≤ o → o < b → c.Boundary o →
      o = a ∨ o = a + Opcode.jump.length ∨ a + Opcode.jump.length + Opcode.fnDef.length ≤ o := by
    intro o hao hob ho
    rcases Nat.lt_or_ge o (a + Opcode.jump.length) with hos | hso
    · exact .inl (ha.eq_of_between hfetch ho hao hos)
    · rcases Nat.lt_or_ge o (a + Opcode.jump.length + Opcode.fnDef.length) with hom | hmo
      · exact .inr (.inl (hs.eq_of_between hmark ho hso hom))
      · exact .inr (.inr hmo)
  have hinner : ∀ s e, c.Body s e → a ≤ s → s < b → s = a + Opcode.jump.length ∧ e = b ∨
      a + Opcode.jump.length + Opcode.fnDef.length < s ∧ e ≤ b := by
    intro s e hbody' has hsb
    obtain ⟨hs', arity, hmarker⟩ := hbody'.marker
    rcases hcases s has hsb hs' with rfl | rfl | hms
    · rw [hfetch] at hmarker
      cases hmarker
    · exact .inl ⟨rfl, hbody'.unique hown⟩
    · have := hbody.body hbody' hms hsb
      exact .inr (by omega)
  refine ⟨ha, hbody.stop, by omega, fun o hao hob ho => ?_, fun o arity hao hob ho hmarker => ?_,
    fun o i hao hob ho hinstr hop => ?_⟩
  · rcases hcases o hao hob ho with rfl | rfl | hmo
    · exact ⟨⟨.jump, 0⟩, nofun, hwhole⟩
    · exact ⟨⟨.fnDef, arg⟩, nofun, hwhole'⟩
    · exact hbody.inside o hmo hob ho
  · rcases hcases o hao hob ho with rfl | rfl | hmo
    · rw [hfetch] at hmarker
      cases hmarker
    · exact ⟨b, hown, Nat.le_refl _, by omega, Nat.le_refl b⟩
    · obtain ⟨e, hbody', hstart, hoe, hstop⟩ := hbody.markers o arity hmo hob ho hmarker
      exact ⟨e, hbody', by omega, hoe, hstop⟩
  · rcases hcases o hao hob ho with rfl | rfl | hmo
    · refine ⟨b, hread, .inl ⟨hbody.stop, by omega, Nat.le_refl b, .inl hob,
        fun s e hbody' has hsb => ?_⟩⟩
      have := hinner s e hbody' has hsb
      omega
    · rw [hmark] at hinstr
      cases hinstr
      cases hop
    · obtain ⟨t, hread, ⟨ht, hmt, htb, hway, hstays⟩ | ⟨hout, -⟩⟩ :=
        hbody.jumps o i hmo hob ho hinstr hop
      · obtain ⟨t', hread', htb' | hout⟩ := hshort.2 o i hmo hob ho hinstr hop
        · rw [hread] at hread'
          obtain rfl := Int.ofNat.inj hread'
          refine ⟨t, hread, .inl ⟨ht, by omega, htb, hway, fun s e hbody' has hsb => ?_⟩⟩
          rcases hinner s e hbody' has hsb with ⟨rfl, rfl⟩ | ⟨hms, -⟩
          · omega
          · exact hstays s e hbody' (Nat.le_of_lt hms) hsb
        · cases hout
      · cases hout

end Laid

/-- What stands behind a stretch keeps its jumps from its end. -/
theorem Short.of_append (h₁ : c.Laid back outs a m) (h₂ : c.Short outs m b) : c.Short outs a b := by
  refine ⟨Nat.lt_of_le_of_lt h₁.le h₂.1, fun o i hao hob ho hfetch hop => ?_⟩
  rcases Nat.lt_or_ge o m with hom | hmo
  · obtain ⟨t, hread, ⟨-, -, htm, -, -⟩ | ⟨hout, -⟩⟩ := h₁.jumps o i hao hom ho hfetch hop
    · exact ⟨t, hread, .inl (Nat.lt_of_le_of_lt htm h₂.1)⟩
    · exact ⟨t, hread, .inr hout⟩
  · exact h₂.2 o i hmo hob ho hfetch hop

theorem Short.of_plain (h : c.Plain a b) (hlt : a < b) : c.Short outs a b := by
  refine ⟨hlt, fun o i hao hob ho hfetch hop => ?_⟩
  obtain ⟨j, hplain, hwhole⟩ := h.inside o hao hob ho
  obtain rfl := hwhole.eq_of_fetch hfetch
  rw [Opcode.isJump_of_isPlain hplain] at hop
  cases hop

end Chunk
end LolToolchain
