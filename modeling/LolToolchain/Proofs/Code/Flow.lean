import LolToolchain.Proofs.Code.Instructions
import LolToolchain.Proofs.Code.Knowledge

/-!
What is known along a stretch of code. A stretch has a table of its own; in any table that has it in
it, the instructions of the stretch carry what is known, if what is known at its end and where it
jumps to is no more than the stretch leaves. The code of an expression leaves what was known before,
and pushes a value of which nothing is known.
-/
namespace LolToolchain

namespace Chunk

/-- A stretch of code with a table of its own. No more than `k` is known at its start, if `ends` holds
of what is known at its end. If `outs` holds besides, its instructions carry what is known, and
`gives` holds of the table. -/
structure Flows (c : Chunk) (a b : Nat) (k : Facts) (ends : Facts → Prop)
    (outs gives : (Nat → Facts) → Prop) : Prop where
  start : c.Boundary a
  stop : c.Boundary b
  le : a ≤ b
  table : ∃ K : Nat → Facts, ∀ L : Nat → Facts, (∀ o, a ≤ o → o < b → L o = K o) → ends (L b) →
    (L a).Within k ∧ (outs L → gives L ∧
      ∀ o i, a ≤ o → o < b → c.Boundary o → c.fetch o = .ok i → c.Carries L o i)

variable {c : Chunk} {a b m : Nat} {k k' k'' base : Facts} {ends ends' : Facts → Prop}
variable {outs outs' outs₁ outs₂ P Q : (Nat → Facts) → Prop}
variable {op short long : Opcode} {arg n : Nat} {span : Span} {v : Value}

namespace Flows

theorem refl (ha : c.Boundary a) (hgives : ∀ L : Nat → Facts, (L a).Within k → Q L) :
    c.Flows a a k (·.Within k) outs Q :=
  ⟨ha, ha, Nat.le_refl a, fun _ => [], fun L _ hend => ⟨hend, fun _ => ⟨hgives L hend,
    fun _ _ hao hoa => absurd hao (Nat.not_le_of_lt hoa)⟩⟩⟩

/-- One instruction. -/
theorem single (h : c.Has op arg span a b) (ha : c.Boundary a)
    (hcarries : ∀ L : Nat → Facts, L a = k → ends (L b) → outs L → c.Carries L a ⟨op, arg⟩) :
    c.Flows a b k ends outs fun L => ∀ o, a ≤ o → o < b → L o = k := by
  obtain ⟨hfetch, -, rfl⟩ := h
  refine ⟨ha, ha.next hfetch, Nat.le_add_right a _, fun _ => k, fun L hL hend => ?_⟩
  have hk := hL a (Nat.le_refl a) (lt_length a op)
  refine ⟨?_, fun hout => ⟨hL, fun o i hao hob ho hi => ?_⟩⟩
  · rw [hk]
    exact .refl k
  · obtain rfl := ha.eq_of_between hfetch ho hao hob
    rw [hfetch] at hi
    cases hi
    exact hcarries L hk hend hout

/-- Two stretches one after the other. The first can jump into the second, and the second back to the
start of the first. -/
theorem trans (h₁ : c.Flows a m k (·.Within k') outs₁ P) (h₂ : c.Flows m b k' ends outs₂ Q)
    (back : ∀ L : Nat → Facts, ends (L b) → outs L → (L a).Within k → outs₂ L)
    (forth : ∀ L : Nat → Facts, ends (L b) → outs L → (L m).Within k' → Q L → outs₁ L) :
    c.Flows a b k ends outs fun L => P L ∧ (L m).Within k' ∧ Q L := by
  obtain ⟨K₁, hK₁⟩ := h₁.table
  obtain ⟨K₂, hK₂⟩ := h₂.table
  have hle₁ := h₁.le
  have hle₂ := h₂.le
  refine ⟨h₁.start, h₂.stop, Nat.le_trans hle₁ hle₂, fun o => if o < m then K₁ o else K₂ o,
    fun L hL hend => ?_⟩
  have hL₁ : ∀ o, a ≤ o → o < m → L o = K₁ o := fun o hao hom =>
    (hL o hao (Nat.lt_of_lt_of_le hom hle₂)).trans (if_pos hom)
  have hL₂ : ∀ o, m ≤ o → o < b → L o = K₂ o := fun o hmo hob =>
    (hL o (Nat.le_trans hle₁ hmo) hob).trans (if_neg (Nat.not_lt_of_le hmo))
  obtain ⟨hm, hgives₂⟩ := hK₂ L hL₂ hend
  obtain ⟨ha, hgives₁⟩ := hK₁ L hL₁ hm
  refine ⟨ha, fun hout => ?_⟩
  obtain ⟨hQ, hcarries₂⟩ := hgives₂ (back L hend hout ha)
  obtain ⟨hP, hcarries₁⟩ := hgives₁ (forth L hend hout hm hQ)
  refine ⟨⟨hP, hm, hQ⟩, fun o i hao hob ho hi => ?_⟩
  rcases Nat.lt_or_ge o m with hom | hmo
  · exact hcarries₁ o i hao hom ho hi
  · exact hcarries₂ o i hmo hob ho hi

theorem mono (h : c.Flows a b k ends outs P) (hends : ∀ x, ends' x → ends x)
    (houts : ∀ L, ends' (L b) → outs' L → outs L)
    (hgives : ∀ L, ends' (L b) → outs' L → (L a).Within k → P L → Q L) :
    c.Flows a b k ends' outs' Q := by
  obtain ⟨K, hK⟩ := h.table
  refine ⟨h.start, h.stop, h.le, K, fun L hL hend => ?_⟩
  obtain ⟨ha, hP⟩ := hK L hL (hends _ hend)
  refine ⟨ha, fun hout => ?_⟩
  obtain ⟨hp, hcarries⟩ := hP (houts L hend hout)
  exact ⟨hgives L hend hout ha hp, hcarries⟩

/-- What a stretch asks of the places that it jumps to is implied by something else. -/
theorem under (outs' : (Nat → Facts) → Prop) (h : c.Flows a b k ends outs P)
    (houts : ∀ L, ends (L b) → outs' L → outs L) : c.Flows a b k ends outs' P :=
  h.mono (fun _ h => h) houts fun _ _ _ _ h => h

/-- Two stretches of which none jumps into the other. -/
theorem append (h₁ : c.Flows a m k (·.Within k') outs P) (h₂ : c.Flows m b k' ends outs Q) :
    c.Flows a b k ends outs fun L => P L ∧ Q L :=
  (h₁.trans h₂ (fun _ _ hout _ => hout) fun _ _ hout _ _ => hout).mono (fun _ h => h)
    (fun _ _ h => h) fun _ _ _ _ h => ⟨h.1, h.2.2⟩

/-- Behind a return nothing needs to be known. -/
theorem ret (h : c.Has .ret arg span a b) (ha : c.Boundary a) :
    c.Flows a b k ends outs fun L => ∀ o, a ≤ o → o < b → L o = k :=
  single h ha fun _ _ _ _ => ⟨nofun, nofun, nofun⟩

/-- A jump: less is known where it leads than before it. -/
theorem jump {t : Nat} (h : c.HasJump .jump t span a b) (ha : c.Boundary a) :
    c.Flows a b k ends (fun L => (L t).Within k) fun L => ∀ o, a ≤ o → o < b → L o = k :=
  single h.1 ha fun L hk _ hout =>
    ⟨nofun, fun _ => ⟨t, h.2, by rw [hk]; exact hout⟩, nofun⟩

/-- A jump that takes a value. -/
theorem test {t : Nat} (h : c.HasJump .jumpIfFalse t span a b) (ha : c.Boundary a) :
    c.Flows a b (none :: k) (·.Within k) (fun L => (L t).Within k)
      fun L => ∀ o, a ≤ o → o < b → L o = none :: k := by
  refine single h.1 ha fun L hk hend hout => ⟨fun _ => ?_, fun _ => ⟨t, h.2, ?_⟩, nofun⟩
  · rw [hk, ← h.1.2.2]
    exact hend
  · rw [hk]
    exact hout

end Flows

/-- A stretch without jumps, with what is known before and after it; what it is put upon stays known
throughout. -/
def Works (c : Chunk) (base : Facts) (a b : Nat) (k k' : Facts) : Prop :=
  c.Flows a b k (·.Within k') (fun _ => True) fun L => ∀ o, a ≤ o → o < b → base <:+ L o

namespace Works

theorem refl (ha : c.Boundary a) : c.Works base a a k k :=
  Flows.refl ha fun _ _ _ hao hoa => absurd hao (Nat.not_le_of_lt hoa)

theorem trans (h₁ : c.Works base a m k k') (h₂ : c.Works base m b k' k'') :
    c.Works base a b k k'' :=
  (Flows.append h₁ h₂).mono (fun _ h => h) (fun _ _ h => h) fun _ _ _ _ h o hao hob => by
    rcases Nat.lt_or_ge o m with hom | hmo
    · exact h.1 o hao hom
    · exact h.2 o hmo hob

/-- Whatever is known where other stretches jump to. -/
theorem flows (h : c.Works base a b k k') :
    c.Flows a b k (·.Within k') outs fun L => ∀ o, a ≤ o → o < b → base <:+ L o :=
  Flows.mono h (fun _ h => h) (fun _ _ _ => trivial) fun _ _ _ _ hL => hL

private theorem of_has (h : c.Has op arg span a b) (ha : c.Boundary a) (hbase : base <:+ k)
    (hop : op.isPlain = true) (hafter : k'.Within (c.after ⟨op, arg⟩ k)) : c.Works base a b k k' := by
  have hjump := Opcode.isJump_of_isPlain hop
  refine (Flows.single h ha fun L hk hend _ => ⟨fun _ => ?_, fun hj => ?_, fun hf => ?_⟩).mono
    (fun _ h => h) (fun _ _ h => h) fun L _ _ _ hL o hao hob => ?_
  · rw [hk, ← h.2.2]
    exact hend.trans hafter
  · exact absurd (hjump.symm.trans hj) Bool.false_ne_true
  · obtain rfl : op = .fnDef := hf
    cases hop
  · rw [hL o hao hob]
    exact hbase

end Works

/-- An instruction of which it can be computed what is known after it. -/
theorem Has.works (h : c.Has op arg span a b) (ha : c.Boundary a) (hbase : base <:+ k)
    (hop : op.isPlain = true) (hafter : c.after ⟨op, arg⟩ k = k') : c.Works base a b k k' :=
  .of_has h ha hbase hop (by rw [hafter]; exact .refl k')

theorem HasIndexed.lt (h : c.HasIndexed short long n span a b) : a < b := by
  obtain ⟨op, -, h⟩ := h
  exact h.lt

theorem HasConstant.lt (h : c.HasConstant v span a b) : a < b := by
  obtain ⟨i, h, -⟩ := h
  exact h.lt

theorem HasIndexed.works (h : c.HasIndexed short long n span a b) (ha : c.Boundary a)
    (hbase : base <:+ k) (hshort : short.isPlain = true) (hlong : long.isPlain = true)
    (hafter : c.after ⟨short, n⟩ k = k' ∧ c.after ⟨long, n⟩ k = k') : c.Works base a b k k' := by
  obtain ⟨op, rfl | rfl, h⟩ := h
  · exact h.works ha hbase hshort hafter.1
  · exact h.works ha hbase hlong hafter.2

theorem HasConstant.works_known (h : c.HasConstant v span a b) (ha : c.Boundary a)
    (hbase : base <:+ k) : c.Works base a b k (some v :: k) := by
  obtain ⟨i, h, hget⟩ := h
  exact h.works ha hbase rfl rfl ⟨congrArg (· :: k) hget, congrArg (· :: k) hget⟩

private theorem Works.weaken (h : c.Works base a b k k') (hk : k''.Within k') : c.Works base a b k k'' :=
  Flows.mono h (fun _ hx => Facts.Within.trans hx hk) (fun _ _ _ => trivial) fun _ _ _ _ hL => hL

theorem HasConstant.works (h : c.HasConstant v span a b) (ha : c.Boundary a) (hbase : base <:+ k) :
    c.Works base a b k (none :: k) :=
  (h.works_known ha hbase).weaken (.cons_none _ (.refl k))

theorem HasPops.works (h : c.HasPops n span a b) (ha : c.Boundary a) (hbase : base <:+ k) :
    c.Works base a b k (k.drop n) := by
  unfold HasPops at h
  split at h
  · rename_i hn
    subst h hn
    exact .refl ha
  · exact h.works ha hbase rfl rfl ⟨rfl, rfl⟩

end Chunk

open Chunk

variable {c : Chunk} {outer : List Names} {ns : Names} {span : Span} {base k : Facts} {a b : Nat}

/-- What is known stays known when a value is pushed. -/
theorem Facts.suffix_push (h : base <:+ k) : base <:+ (none :: k) :=
  h.trans (List.suffix_cons none k)

theorem Ident.ReadAt.works {id : Ident} (h : id.ReadAt c outer ns a b) (ha : c.Boundary a)
    (hbase : base <:+ k) : c.Works base a b k (none :: k) := by
  unfold Ident.ReadAt at h
  split at h
  · exact h.works ha hbase rfl rfl
  · split at h
    · exact h.works ha hbase rfl rfl ⟨rfl, rfl⟩
    · split at h
      · exact h.works ha hbase
      · exact h.elim

/-- As many values as are pushed. -/
theorem Facts.replicate_push (n : Nat) (k : Facts) :
    List.replicate n none ++ none :: k = List.replicate (n + 1) none ++ k := by
  rw [List.replicate_succ', List.append_assoc, List.singleton_append]

private theorem Facts.drop_replicate (n : Nat) (k : Facts) : (List.replicate n none ++ k).drop n = k := by
  rw [List.drop_left' List.length_replicate]

private theorem Splice.worksAll : ∀ (ss : List Splice) {a b : Nat} {k : Facts},
    Splice.PlacedAll c outer ns ss a b → c.Boundary a → base <:+ k →
    c.Works base a b k (List.replicate ss.length none ++ k)
  | [], _, _, _, h, ha, _ => by
    obtain rfl := h
    exact .refl ha
  | _ :: ss, _, _, k, h, ha, hbase => by
    obtain ⟨m, hs, hss⟩ := h
    have h₁ := hs.works ha hbase
    have h₂ := Splice.worksAll ss hss h₁.stop (Facts.suffix_push hbase)
    rw [Facts.replicate_push] at h₂
    exact h₁.trans h₂

namespace Expr

mutual

/-- The code of an expression pushes a value of which nothing is known. -/
theorem works : ∀ (e : Expr) {a b : Nat} {k : Facts}, e.Placed c outer ns a b → c.Boundary a →
    base <:+ k → c.Works base a b k (none :: k)
  | .int _ _, _, _, _, h, ha, hbase | .float _ _, _, _, _, h, ha, hbase
  | .string _ _, _, _, _, h, ha, hbase | .bool _ _, _, _, _, h, ha, hbase
  | .null _, _, _, _, h, ha, hbase | .concat _ [], _, _, _, h, ha, hbase
  | .nary _ _ [], _, _, _, h, ha, hbase => HasConstant.works h ha hbase
  | .it _, _, _, _, h, ha, hbase => Has.works h ha hbase rfl rfl
  | .var _ id, _, _, _, h, ha, hbase => Ident.ReadAt.works h ha hbase
  | .interp _ _ splices, _, _, k, h, ha, hbase => by
    obtain ⟨m, i, hsplices, htemplate, hinterp⟩ := h
    have h₁ := Splice.worksAll splices hsplices ha hbase
    have hafter : ∀ {op : Opcode}, op = .interp ∨ op = .interpLong →
        c.after ⟨op, i⟩ (List.replicate splices.length none ++ k) = none :: k := by
      intro op hop
      have hpops := htemplate.pops hop
      rcases hop with rfl | rfl <;>
        simp only [Chunk.after, hpops, Facts.drop_replicate] <;> rfl
    exact h₁.trans (hinterp.works h₁.stop (hbase.trans (List.suffix_append _ _)) rfl rfl
      ⟨hafter (.inl rfl), hafter (.inr rfl)⟩)
  | .list _ xs, _, _, k, h, ha, hbase => by
    obtain ⟨m, hxs, hlist⟩ := h
    have h₁ := worksAll xs hxs ha hbase
    have hafter := congrArg (none :: ·) (Facts.drop_replicate xs.length k)
    exact h₁.trans (hlist.works h₁.stop (hbase.trans (List.suffix_append _ _)) rfl rfl
      ⟨hafter, hafter⟩)
  | .call _ _ xs, _, _, k, h, ha, hbase => by
    obtain ⟨m₁, m₂, hid, hxs, hcall⟩ := h
    have h₁ := hid.works ha hbase
    have h₂ := h₁.trans (worksAll xs hxs h₁.stop (Facts.suffix_push hbase))
    rw [Facts.replicate_push] at h₂
    exact h₂.trans (hcall.works h₂.stop (hbase.trans (List.suffix_append _ _)) rfl
      (congrArg (none :: ·) (Facts.drop_replicate (xs.length + 1) k)))
  | .concat _ [x], _, _, _, h, ha, hbase => by
    obtain ⟨m₁, m₂, hempty, hx, hconcat⟩ := h
    have hbase₁ := Facts.suffix_push hbase
    have h₁ := hempty.works ha hbase
    have h₂ := h₁.trans (works x hx h₁.stop hbase₁)
    exact h₂.trans (hconcat.works h₂.stop (Facts.suffix_push hbase₁) rfl rfl)
  | .concat _ (x :: y :: xs), _, _, _, h, ha, hbase => by
    obtain ⟨m, hx, hxs⟩ := h
    have h₁ := works x hx ha hbase
    exact h₁.trans (worksEach (y :: xs) rfl (fun _ => rfl) hxs h₁.stop (Facts.suffix_push hbase))
  | .cast _ x _, _, _, _, h, ha, hbase | .nary _ _ [x], _, _, _, h, ha, hbase => by
    obtain ⟨m, hx, hcast⟩ := h
    have h₁ := works x hx ha hbase
    exact h₁.trans (hcast.works h₁.stop (Facts.suffix_push hbase) rfl rfl)
  | .binary _ op x y, _, _, _, h, ha, hbase => by
    obtain ⟨m₁, m₂, hx, hy, hop⟩ := h
    have hbase₁ := Facts.suffix_push hbase
    have h₁ := works x hx ha hbase
    have h₂ := h₁.trans (works y hy h₁.stop hbase₁)
    exact h₂.trans (hop.works h₂.stop (Facts.suffix_push hbase₁) (by cases op <;> rfl)
      (by cases op <;> rfl))
  | .nary _ op (x :: y :: xs), _, _, _, h, ha, hbase => by
    obtain ⟨m, hx, hxs⟩ := h
    have h₁ := works x hx ha hbase
    exact h₁.trans (worksEach (y :: xs) (by cases op <;> rfl) (fun _ => by cases op <;> rfl) hxs
      h₁.stop (Facts.suffix_push hbase))
  | .unary _ op x, _, _, _, h, ha, hbase => by
    obtain ⟨m, hx, hop⟩ := h
    have h₁ := works x hx ha hbase
    exact h₁.trans (hop.works h₁.stop (Facts.suffix_push hbase) (by cases op <;> rfl)
      (by cases op <;> rfl))
  | .pickAt _ i x, _, _, _, h, ha, hbase => by
    obtain ⟨m₁, m₂, hx, hi, hget⟩ := h
    have hbase₁ := Facts.suffix_push hbase
    have h₁ := works x hx ha hbase
    have h₂ := h₁.trans (works i hi h₁.stop hbase₁)
    exact h₂.trans (hget.works h₂.stop (Facts.suffix_push hbase₁) rfl rfl)
  | .pickFront _ x, _, _, _, h, ha, hbase | .pickBack _ x, _, _, _, h, ha, hbase => by
    obtain ⟨m, hx, hpick⟩ := h
    have h₁ := works x hx ha hbase
    exact h₁.trans (hpick.works h₁.stop (Facts.suffix_push hbase) rfl rfl)

theorem worksAll : ∀ (xs : List Expr) {a b : Nat} {k : Facts}, PlacedAll c outer ns xs a b →
    c.Boundary a → base <:+ k → c.Works base a b k (List.replicate xs.length none ++ k)
  | [], _, _, _, h, ha, _ => by
    obtain rfl := h
    exact .refl ha
  | x :: xs, _, _, _, h, ha, hbase => by
    obtain ⟨m, hx, hxs⟩ := h
    have h₁ := works x hx ha hbase
    have h₂ := worksAll xs hxs h₁.stop (Facts.suffix_push hbase)
    rw [Facts.replicate_push] at h₂
    exact h₁.trans h₂

/-- Values joined to the one before them by an operation of two values. -/
theorem worksEach {op : Opcode} {s : Span} : ∀ (xs : List Expr) {a b : Nat} {k : Facts},
    op.isPlain = true → (∀ k : Facts, c.after ⟨op, 0⟩ (none :: none :: k) = none :: k) →
    PlacedEach c outer ns op s xs a b → c.Boundary a → base <:+ (none :: k) →
    c.Works base a b (none :: k) (none :: k)
  | [], _, _, _, _, _, h, ha, _ => by
    obtain rfl := h
    exact .refl ha
  | x :: xs, _, _, k, hplain, hafter, h, ha, hbase => by
    obtain ⟨m₁, m₂, hx, hi, hxs⟩ := h
    have h₁ := works x hx ha hbase
    have h₂ := h₁.trans (hi.works h₁.stop (Facts.suffix_push hbase) hplain (hafter k))
    exact h₂.trans (worksEach xs hplain hafter hxs h₂.stop hbase)

end

private theorem worksJoined : ∀ (xs : List Expr) {a b : Nat} {k : Facts}, PlacedJoined c outer ns xs a b →
    c.Boundary a → base <:+ (none :: k) → c.Works base a b (none :: k) (none :: k)
  | [], _, _, _, h, ha, _ => by
    obtain rfl := h
    exact .refl ha
  | x :: xs, _, _, _, h, ha, hbase => by
    obtain ⟨m₁, m₂, hx, hconcat, hxs⟩ := h
    have h₁ := x.works hx ha hbase
    have h₂ := h₁.trans (hconcat.works h₁.stop (Facts.suffix_push hbase) rfl rfl)
    exact h₂.trans (worksJoined xs hxs h₂.stop hbase)

end Expr

theorem Initial.works {i : Initial} (h : i.Placed c outer ns span a b) (ha : c.Boundary a)
    (hbase : base <:+ k) : c.Works base a b k (none :: k) := by
  cases i with
  | absent => exact HasConstant.works h ha hbase
  | value e => exact e.works h ha hbase
  | typed t =>
    cases t with
    | bukkit => exact Has.works h ha hbase rfl rfl
    | _ => exact HasConstant.works h ha hbase

theorem works_printed {args : List Expr} (h : PrintedAt c outer ns span a b args)
    (ha : c.Boundary a) (hbase : base <:+ k) : c.Works base a b k (none :: k) := by
  cases args with
  | nil => exact HasConstant.works h ha hbase
  | cons x xs =>
    obtain ⟨m, hx, hxs⟩ := h
    have h₁ := x.works hx ha hbase
    exact h₁.trans (Expr.worksJoined xs hxs h₁.stop (Facts.suffix_push hbase))

end LolToolchain
