import LolToolchain.Proofs.Code.Boundaries
import LolToolchain.Proofs.Code.Tracking

/-!
The code of each tree is `Laid`. Expressions have no jumps. The jumps of a statement lead to its own
instructions, or where `GTFO` leads; a statement without a loop has no jump back.
-/
namespace LolToolchain

open Chunk

variable {c : Chunk} {address : Nat → Nat} {outer : List Names} {ns : Names} {span : Span}
variable {back : Prop} {outs : List Nat} {a b m : Nat}

theorem Ident.ReadAt.plain {id : Ident} (h : id.ReadAt c outer ns a b) (ha : c.Boundary a) :
    c.Plain a b := by
  unfold Ident.ReadAt at h
  split at h
  · exact h.plain ha rfl trivial
  · split at h
    · exact h.plain ha rfl rfl ⟨trivial, trivial⟩
    · split at h
      · exact h.plain ha ⟨nofun, nofun⟩
      · exact h.elim

theorem Ident.WrittenAt.plain {id : Ident} (h : id.WrittenAt c ns a b) (ha : c.Boundary a) :
    c.Plain a b := by
  unfold Ident.WrittenAt at h
  split at h
  · exact h.plain ha rfl trivial
  · split at h
    · exact h.plain ha rfl rfl ⟨trivial, trivial⟩
    · exact h.elim

private theorem Splice.plainAll : ∀ (ss : List Splice) {a b : Nat}, Splice.PlacedAll c outer ns ss a b →
    c.Boundary a → c.Plain a b
  | [], _, _, h, ha => by
    obtain rfl := h
    exact .refl ha
  | _ :: ss, _, _, h, ha => by
    obtain ⟨m, hs, hss⟩ := h
    have h₁ := hs.plain ha
    exact h₁.trans (Splice.plainAll ss hss h₁.stop)

theorem Chunk.Has.plain_cast {t : TypeName} (h : c.Has .cast t.code.toNat span a b)
    (ha : c.Boundary a) : c.Plain a b :=
  h.plain ha rfl (by cases t <;> exact ⟨_, rfl⟩)

private theorem Chunk.Has.plain_binary {op : BinaryOp} (h : c.Has op.opcode 0 span a b)
    (ha : c.Boundary a) : c.Plain a b :=
  h.plain ha (by cases op <;> rfl) (by cases op <;> trivial)

private theorem Chunk.Has.plain_nary {op : ListOp} (h : c.Has op.opcode 0 span a b)
    (ha : c.Boundary a) : c.Plain a b :=
  h.plain ha (by cases op <;> rfl) (by cases op <;> trivial)

private theorem Chunk.Has.plain_unary {op : UnaryOp} (h : c.Has op.opcode 0 span a b)
    (ha : c.Boundary a) : c.Plain a b :=
  h.plain ha (by cases op <;> rfl) (by cases op <;> trivial)

namespace Expr

mutual

theorem plain : ∀ (e : Expr) {a b : Nat}, e.Placed c outer ns a b → c.Boundary a → c.Plain a b
  | .int _ _, _, _, h, ha | .float _ _, _, _, h, ha | .string _ _, _, _, h, ha
  | .bool _ _, _, _, h, ha | .null _, _, _, h, ha | .concat _ [], _, _, h, ha
  | .nary _ _ [], _, _, h, ha => HasConstant.plain h ha ⟨nofun, nofun⟩
  | .it _, _, _, h, ha => Has.plain h ha rfl trivial
  | .var _ id, _, _, h, ha => Ident.ReadAt.plain h ha
  | .interp _ _ splices, _, _, h, ha => by
    obtain ⟨m, i, hsplices, ⟨tag, htemplate⟩, hinterp⟩ := h
    have h₁ := Splice.plainAll splices hsplices ha
    exact h₁.trans (hinterp.plain h₁.stop rfl rfl ⟨⟨_, htemplate⟩, ⟨_, htemplate⟩⟩)
  | .list _ xs, _, _, h, ha => by
    obtain ⟨m, hxs, hlist⟩ := h
    have h₁ := plainAll xs hxs ha
    exact h₁.trans (hlist.plain h₁.stop rfl rfl ⟨trivial, trivial⟩)
  | .call _ _ xs, _, _, h, ha => by
    obtain ⟨m₁, m₂, hid, hxs, hcall⟩ := h
    have h₁ := hid.plain ha
    have h₂ := h₁.trans (plainAll xs hxs h₁.stop)
    exact h₂.trans (hcall.plain h₂.stop rfl trivial)
  | .concat _ [x], _, _, h, ha => by
    obtain ⟨m₁, m₂, hempty, hx, hconcat⟩ := h
    have h₁ := hempty.plain ha ⟨nofun, nofun⟩
    have h₂ := h₁.trans (plain x hx h₁.stop)
    exact h₂.trans (hconcat.plain h₂.stop rfl trivial)
  | .concat _ (x :: y :: xs), _, _, h, ha => by
    obtain ⟨m, hx, hxs⟩ := h
    have h₁ := plain x hx ha
    have hconcat {s : Span} {a b : Nat} (h : c.Has .concat 0 s a b) (ha : c.Boundary a) :
        c.Plain a b := h.plain ha rfl trivial
    exact h₁.trans (plainEach (y :: xs) hconcat hxs h₁.stop)
  | .cast _ x _, _, _, h, ha => by
    obtain ⟨m, hx, hcast⟩ := h
    have h₁ := plain x hx ha
    exact h₁.trans (hcast.plain_cast h₁.stop)
  | .binary _ _ x y, _, _, h, ha => by
    obtain ⟨m₁, m₂, hx, hy, hop⟩ := h
    have h₁ := plain x hx ha
    have h₂ := h₁.trans (plain y hy h₁.stop)
    exact h₂.trans (hop.plain_binary h₂.stop)
  | .nary _ _ [x], _, _, h, ha => by
    obtain ⟨m, hx, hcast⟩ := h
    have h₁ := plain x hx ha
    exact h₁.trans (hcast.plain_cast h₁.stop)
  | .nary _ _ (x :: y :: xs), _, _, h, ha => by
    obtain ⟨m, hx, hxs⟩ := h
    have h₁ := plain x hx ha
    exact h₁.trans (plainEach (y :: xs) (fun h ha => Has.plain_nary h ha) hxs h₁.stop)
  | .unary _ _ x, _, _, h, ha => by
    obtain ⟨m, hx, hop⟩ := h
    have h₁ := plain x hx ha
    exact h₁.trans (hop.plain_unary h₁.stop)
  | .pickAt _ i x, _, _, h, ha => by
    obtain ⟨m₁, m₂, hx, hi, hget⟩ := h
    have h₁ := plain x hx ha
    have h₂ := h₁.trans (plain i hi h₁.stop)
    exact h₂.trans (hget.plain h₂.stop rfl trivial)
  | .pickFront _ x, _, _, h, ha | .pickBack _ x, _, _, h, ha => by
    obtain ⟨m, hx, hpick⟩ := h
    have h₁ := plain x hx ha
    exact h₁.trans (hpick.plain h₁.stop rfl trivial)

theorem plainAll : ∀ (xs : List Expr) {a b : Nat}, PlacedAll c outer ns xs a b → c.Boundary a →
    c.Plain a b
  | [], _, _, h, ha => by
    obtain rfl := h
    exact .refl ha
  | x :: xs, _, _, h, ha => by
    obtain ⟨m, hx, hxs⟩ := h
    have h₁ := plain x hx ha
    exact h₁.trans (plainAll xs hxs h₁.stop)

theorem plainEach {op : Opcode} : ∀ (xs : List Expr) {s : Span} {a b : Nat},
    (∀ {a b : Nat}, c.Has op 0 s a b → c.Boundary a → c.Plain a b) →
    PlacedEach c outer ns op s xs a b → c.Boundary a → c.Plain a b
  | [], _, _, _, _, h, ha => by
    obtain rfl := h
    exact .refl ha
  | x :: xs, _, _, _, hop, h, ha => by
    obtain ⟨m₁, m₂, hx, hi, hxs⟩ := h
    have h₁ := plain x hx ha
    have h₂ := h₁.trans (hop hi h₁.stop)
    exact h₂.trans (plainEach xs hop hxs h₂.stop)

end

private theorem plainJoined : ∀ (xs : List Expr) {a b : Nat}, PlacedJoined c outer ns xs a b →
    c.Boundary a → c.Plain a b
  | [], _, _, h, ha => by
    obtain rfl := h
    exact .refl ha
  | x :: xs, _, _, h, ha => by
    obtain ⟨m₁, m₂, hx, hconcat, hxs⟩ := h
    have h₁ := x.plain hx ha
    have h₂ := h₁.trans (hconcat.plain h₁.stop rfl trivial)
    exact h₂.trans (plainJoined xs hxs h₂.stop)

end Expr

theorem Initial.plain {i : Initial} (h : i.Placed c outer ns span a b) (ha : c.Boundary a) :
    c.Plain a b := by
  cases i with
  | absent => exact HasConstant.plain h ha ⟨nofun, nofun⟩
  | value e => exact e.plain h ha
  | typed t =>
    cases t with
    | bukkit => exact Has.plain h ha rfl trivial
    | _ => exact HasConstant.plain h ha ⟨nofun, nofun⟩

theorem plain_printed {args : List Expr} (h : PrintedAt c outer ns span a b args)
    (ha : c.Boundary a) : c.Plain a b := by
  cases args with
  | nil => exact HasConstant.plain h ha ⟨nofun, nofun⟩
  | cons x xs =>
    obtain ⟨m, hx, hxs⟩ := h
    have h₁ := x.plain hx ha
    exact h₁.trans (Expr.plainJoined xs hxs h₁.stop)

namespace Chunk.Laid

theorem refl (ha : c.Boundary a) : c.Laid back outs a a :=
  (Plain.refl ha).laid back

theorem append_plain (h₁ : c.Laid back outs a m) (h₂ : c.Plain m b) : c.Laid back outs a b :=
  h₁.append (h₂.laid back)

end Chunk.Laid

variable (back) in
/-- A jump behind a stretch without jumps. -/
theorem Chunk.Plain.jump {op : Opcode} {t : Nat} (h₁ : c.Plain a m)
    (h₂ : c.HasJump op t span m b) (hop : op = .jump ∨ op = .jumpIfFalse) :
    c.Laid back [t] a b :=
  (h₁.laid back).append (.of_jump back h₂ h₁.stop hop)

/-- A stretch that is skipped if the test before it fails. -/
theorem Chunk.Laid.guarded (h₁ : c.Laid back [b] a m) (h₂ : c.Laid back outs m b) :
    c.Laid back outs a b :=
  h₁.trans h₂ (fun t ht => .inr (by
    obtain rfl := List.mem_singleton.1 ht
    exact h₂.joint_stop)) fun _ ht => .inl ht

variable (back) in
theorem LoopUpdate.laid_test {update : Option LoopUpdate} {exit : Nat}
    (h : LoopUpdate.TestAt c outer ns exit a b update) (ha : c.Boundary a) :
    c.Laid back [exit] a b := by
  cases update with
  | none =>
    obtain rfl := h
    exact .refl ha
  | some u =>
    simp only [LoopUpdate.TestAt] at h
    cases ht : u.test with
    | forever =>
      rw [ht] at h
      obtain rfl := h
      exact .refl ha
    | untilTrue e =>
      rw [ht] at h
      obtain ⟨m₁, m₂, he, hnot, hjump⟩ := h
      have h₁ := e.plain he ha
      exact (h₁.trans (hnot.plain h₁.stop rfl trivial)).jump back hjump (.inr rfl)
    | whileTrue e =>
      rw [ht] at h
      obtain ⟨m, he, hjump⟩ := h
      exact (e.plain he ha).jump back hjump (.inr rfl)

theorem LoopUpdate.plain_start {update : Option LoopUpdate}
    (h : LoopUpdate.StartAt c a b update) (ha : c.Boundary a) : c.Plain a b := by
  cases update with
  | none =>
    obtain rfl := h
    exact .refl ha
  | some u => exact HasConstant.plain h ha ⟨nofun, nofun⟩

theorem LoopUpdate.plain_change {update : Option LoopUpdate} {slot : Nat}
    (h : LoopUpdate.ChangeAt c outer ns slot a b update) (ha : c.Boundary a) : c.Plain a b := by
  cases update with
  | none =>
    obtain rfl := h
    exact .refl ha
  | some u =>
    obtain ⟨m, hwrite, hchange⟩ := h
    suffices h₁ : c.Plain a m from h₁.trans (hwrite.plain h₁.stop rfl rfl ⟨trivial, trivial⟩)
    cases hu : u.change with
    | up | down =>
      rw [hu] at hchange
      obtain ⟨m₁, m₂, hread, hone, hop⟩ := hchange
      have h₁ := hread.plain ha rfl rfl ⟨trivial, trivial⟩
      have h₂ := h₁.trans (hone.plain h₁.stop ⟨nofun, nofun⟩)
      exact h₂.trans (hop.plain h₂.stop rfl trivial)
    | apply f =>
      rw [hu] at hchange
      obtain ⟨m₁, m₂, hf, hread, hcall⟩ := hchange
      have h₁ := hf.plain ha
      have h₂ := h₁.trans (hread.plain h₁.stop rfl rfl ⟨trivial, trivial⟩)
      exact h₂.trans (hcall.plain h₂.stop rfl trivial)

namespace Exit

/-- The places that `GTFO` leads to by a jump. -/
def targets : Exit → List Nat
  | .none | .function => []
  | .to _ target => [target]

theorem laid {exit : Exit} (h : exit.Placed c ns span a b) (ha : c.Boundary a) :
    c.Laid back exit.targets a b := by
  match exit, h with
  | .none, h => exact h.elim
  | .function, ⟨m, hnoob, hret⟩ =>
    have h₁ := hnoob.plain ha ⟨nofun, nofun⟩
    exact (h₁.trans (hret.plain h₁.stop rfl trivial)).laid back
  | .to height target, ⟨m, hpops, hjump⟩ =>
    exact (hpops.plain ha).jump back hjump (.inl rfl)

end Exit

/-- No jump of a function's body leads to its end, where a body without a return of its own goes on
with one. -/
private theorem laid_return {body : List Stmt} {m₁ m₂ m₃ : Nat} (hbody : c.Laid back outs m₁ m₂)
    (hends : endsInReturn body = true → c.Short outs m₁ m₂) (h : ReturnAt c span body m₂ m₃) :
    c.Laid back outs m₁ m₃ ∧ c.Short outs m₁ m₃ := by
  unfold ReturnAt at h
  split at h
  · subst h
    exact ⟨hbody, hends ‹_›⟩
  · obtain ⟨m, hread, hret⟩ := h
    have h₁ := hread.plain hbody.stop rfl trivial
    have h₂ := h₁.trans (hret.plain h₁.stop rfl trivial)
    exact ⟨hbody.append_plain h₂, .of_append hbody (.of_plain h₂ (Nat.lt_trans hread.lt hret.lt))⟩

mutual

/-- There is no loop in a statement. -/
def Stmt.LoopFree : Stmt → Prop
  | .define _ _ _ (.mk _ body) => Stmt.LoopFreeAll body
  | .switch _ arms otherwise => Arm.LoopFreeAll arms ∧ Block.LoopFreeOption otherwise
  | .branch _ yes arms no =>
    Block.LoopFreeOption yes ∧ Arm.LoopFreeAll arms ∧ Block.LoopFreeOption no
  | .loop _ _ _ _ _ => False
  | _ => True

def Stmt.LoopFreeAll : List Stmt → Prop
  | [] => True
  | s :: ss => Stmt.LoopFree s ∧ Stmt.LoopFreeAll ss

def Block.LoopFreeOption : Option Block → Prop
  | none => True
  | some (.mk _ body) => Stmt.LoopFreeAll body

def Arm.LoopFreeAll : List Arm → Prop
  | [] => True
  | .mk _ (.mk _ body) :: arms => Stmt.LoopFreeAll body ∧ Arm.LoopFreeAll arms

end

mutual

theorem Stmt.laid : ∀ (s : Stmt) {outer : List Names} {exit : Exit} {k : Nat} {ns : Names}
    {a b : Nat}, s.Placed c address outer exit k ns a b → c.Boundary a → back ∨ s.LoopFree →
    c.Laid back exit.targets a b
  | .assign _ _ value, _, _, _, _, _, _, h, ha, _ => by
    obtain ⟨m, hvalue, hwrite⟩ := h
    have h₁ := value.plain hvalue ha
    exact (h₁.trans (hwrite.plain h₁.stop)).laid back
  | .declare _ _ _, _, _, _, _, _, _, h, ha, _ => (Initial.plain h ha).laid back
  | .load _ _, _, _, _, _, _, _, h, ha, _ => by
    obtain rfl := h
    exact .refl ha
  | .define _ _ _ (.mk _ body), _, exit, _, _, _, _, h, ha, hback => by
    obtain ⟨m₁, m₂, m₃, hskip, hmarker, hbody, hret, hconst⟩ := h
    have hstart := ha.next hskip.1.1
    rw [← hskip.1.2.2] at hstart
    have hinner := hstart.next hmarker.1
    rw [← hmarker.2.2] at hinner
    obtain ⟨hlaid, hends⟩ := Stmt.laidAll body hbody hinner hback
    obtain ⟨hlaid, hshort⟩ := laid_return hlaid hends hret
    have hfunction : c.Laid back exit.targets _ m₃ :=
      .function hskip hmarker hlaid hshort ha
    exact hfunction.append_plain (hconst.plain hlaid.stop ⟨nofun, nofun⟩)
  | .expr _ value, _, _, _, _, _, _, h, ha, _ => by
    obtain ⟨m, hvalue, hwrite⟩ := h
    have h₁ := value.plain hvalue ha
    exact (h₁.trans (hwrite.plain h₁.stop rfl trivial)).laid back
  | .switch _ arms otherwise, _, _, _, _, _, b, h, ha, hback => by
    obtain ⟨entry, m, harms, hdefault⟩ := h
    obtain ⟨hb₁, hb₂⟩ := or_and_left.1 hback
    have h₁ := (Arm.laidSwitch arms harms ha hb₁).1
    have h₂ := Block.laidOption otherwise hdefault h₁.stop hb₂
    exact (h₁.append h₂).land fun t ht => .inr (List.mem_singleton.1 ht)
  | .branch _ yes arms no, _, exit, _, _, _, b, h, ha, hback => by
    obtain ⟨m₁, m₂, m₃, next, m₄, hread, htest, hyes, hdone, harms, hno⟩ := h
    obtain ⟨hb₁, hrest⟩ := or_and_left.1 hback
    obtain ⟨hb₂, hb₃⟩ := or_and_left.1 hrest
    have hhead := (hread.plain ha rfl trivial).jump back htest (.inr rfl)
    have h₁ := (Block.laidOption yes hyes hhead.stop hb₁).mono
      fun t ht => List.mem_cons_of_mem b ht
    have h₂ := hhead.guarded (h₁.append ((Laid.of_jump back hdone h₁.stop (.inl rfl)).mono
      fun t ht => List.mem_cons.2 (.inl (List.mem_singleton.1 ht))))
    have h₃ := h₂.append (Arm.laidBranch arms harms h₂.stop hb₂)
    have h₄ := (Block.laidOption no hno h₃.stop hb₃).mono fun t ht => List.mem_cons_of_mem b ht
    exact (h₃.append h₄).land fun t ht => (List.mem_cons.1 ht).symm
  | .cast _ _ _, _, _, _, _, _, _, h, ha, _ => by
    obtain ⟨m₁, m₂, hread, hcast, hwrite⟩ := h
    have h₁ := hread.plain ha
    have h₂ := h₁.trans (hcast.plain_cast h₁.stop)
    exact (h₂.trans (hwrite.plain h₂.stop)).laid back
  | .leave _, _, _, _, _, _, _, h, ha, _ => Exit.laid h ha
  | .loop _ _ _ update (.mk _ body), _, exit, _, _, _, _, h, ha, hback => by
    obtain ⟨start, m₁, m₂, m₃, m₄, beyond, hstart, htest, hbody, hpops, hchange, hjump, hdrop⟩ := h
    obtain hback : back := hback.resolve_right id
    have h₀ := LoopUpdate.plain_start hstart ha
    have h₁ := LoopUpdate.laid_test back htest h₀.stop
    have h₂ := h₁.append (Stmt.laidAll body hbody h₁.stop (.inl hback)).1
    have h₃ := h₂.append_plain (hpops.plain h₂.stop)
    have h₄ := h₃.append_plain (LoopUpdate.plain_change hchange h₃.stop)
    -- the jump back leads to the start of what it stands behind
    have h₅ : c.Laid back [beyond] start beyond :=
      h₄.trans (.of_jump back hjump h₄.stop (.inl rfl)) (fun t ht => .inl ht) fun t ht =>
        .inr ⟨hback, by
          obtain rfl := List.mem_singleton.1 ht
          exact h₄.joint_start⟩
    have h₆ : c.Laid back exit.targets start beyond :=
      h₅.land fun t ht => .inr (List.mem_singleton.1 ht)
    exact ((h₀.laid back).append h₆).append_plain (hdrop.plain h₆.stop)
  | .ret _ value, _, _, _, _, _, _, h, ha, _ => by
    obtain ⟨m, hvalue, hret⟩ := h
    have h₁ := value.plain hvalue ha
    exact (h₁.trans (hret.plain h₁.stop rfl trivial)).laid back
  | .print _ _ _, _, _, _, _, _, _, h, ha, _ => by
    obtain ⟨m, hargs, hprint⟩ := h
    have h₁ := plain_printed hargs ha
    exact (h₁.trans (hprint.plain h₁.stop rfl trivial)).laid back
  | .read _ _, _, _, _, _, _, _, h, ha, _ => by
    obtain ⟨m, hread, hwrite⟩ := h
    have h₁ := hread.plain ha rfl trivial
    exact (h₁.trans (hwrite.plain h₁.stop)).laid back
  | .append _ _ value, _, _, _, _, _, _, h, ha, _ => by
    obtain ⟨m₁, m₂, hread, hvalue, happend⟩ := h
    have h₁ := hread.plain ha
    have h₂ := h₁.trans (value.plain hvalue h₁.stop)
    exact (h₂.trans (happend.plain h₂.stop rfl trivial)).laid back
  | .store _ _ index value, _, _, _, _, _, _, h, ha, _ => by
    obtain ⟨m₁, m₂, m₃, hread, hindex, hvalue, hset⟩ := h
    have h₁ := hread.plain ha
    have h₂ := h₁.trans (index.plain hindex h₁.stop)
    have h₃ := h₂.trans (value.plain hvalue h₂.stop)
    exact (h₃.trans (hset.plain h₃.stop rfl trivial)).laid back

/-- Statements in order; if they end with a return, no jump leads behind it. -/
theorem Stmt.laidAll : ∀ (ss : List Stmt) {outer : List Names} {exit : Exit} {k : Nat} {ns : Names}
    {a b : Nat}, Stmt.PlacedAll c address outer exit k ss ns a b → c.Boundary a →
    back ∨ Stmt.LoopFreeAll ss →
    c.Laid back exit.targets a b ∧ (endsInReturn ss = true → c.Short exit.targets a b)
  | [], _, _, _, _, _, _, h, ha, _ => by
    obtain rfl := h
    exact ⟨.refl ha, nofun⟩
  | s :: ss, _, _, _, _, _, _, h, ha, hback => by
    obtain ⟨m, hs, hss⟩ := h
    obtain ⟨hb₁, hb₂⟩ := or_and_left.1 hback
    have h₁ := Stmt.laid s hs ha hb₁
    obtain ⟨h₂, hends₂⟩ := Stmt.laidAll ss hss h₁.stop hb₂
    refine ⟨h₁.append h₂, fun hends => ?_⟩
    rcases endsInReturn_cons hends with ⟨rfl, _, value, rfl⟩ | hends
    · obtain ⟨m', hvalue, hret⟩ := hs
      obtain rfl := hss
      have hplain := value.plain hvalue ha
      exact .of_append (hplain.laid back) (.of_plain (hret.plain hplain.stop rfl trivial) hret.lt)
    · exact .of_append h₁ (hends₂ hends)

theorem Block.laidOption : ∀ (block : Option Block) {outer : List Names} {exit : Exit} {k : Nat}
    {span : Span} {ns : Names} {a b : Nat},
    Block.PlacedOption c address outer exit k span block ns a b → c.Boundary a →
    back ∨ Block.LoopFreeOption block → c.Laid back exit.targets a b
  | none, _, _, _, _, _, _, _, h, ha, _ => by
    obtain rfl := h
    exact .refl ha
  | some (.mk _ body), _, _, _, _, _, _, _, h, ha, hback => by
    obtain ⟨m, hbody, hpops⟩ := h
    have h₁ := (Stmt.laidAll body hbody ha hback).1
    exact h₁.append_plain (hpops.plain h₁.stop)

/-- The arms of a switch, whose first body is met from the arm before. -/
theorem Arm.laidSwitch : ∀ (arms : List Arm) {outer : List Names} {exit : Exit} {k : Nat}
    {span : Span} {ns : Names} {a entry b : Nat},
    Arm.PlacedSwitch c address outer exit k span arms ns a entry b → c.Boundary a →
    back ∨ Arm.LoopFreeAll arms → c.Laid back exit.targets a b ∧ c.Joint a b entry
  | [], _, exit, _, _, _, _, _, _, h, ha, _ => by
    obtain ⟨rfl, rfl⟩ := h
    have hrefl : c.Laid back exit.targets _ _ := .refl ha
    exact ⟨hrefl, hrefl.joint_start⟩
  | .mk test (.mk _ body) :: arms, _, exit, _, _, _, _, entry, _, h, ha, hback => by
    obtain ⟨m₁, m₂, m₃, m₄, m₅, next, entry', hread, htest, hequal, hskip, hbody, hpops, hfall,
      harms⟩ := h
    obtain ⟨hb₁, hb₂⟩ := or_and_left.1 hback
    have hp₁ := hread.plain ha rfl trivial
    have hp₂ := hp₁.trans (test.plain htest hp₁.stop)
    have hhead := (hp₂.trans (hequal.plain hp₂.stop rfl trivial)).jump back hskip (.inr rfl)
    have h₁ := (Stmt.laidAll body hbody hhead.stop hb₁).1
    have h₂ := (h₁.append_plain (hpops.plain h₁.stop)).mono
      fun t ht => List.mem_cons_of_mem entry' ht
    have h₃ := h₂.append ((Laid.of_jump back hfall h₂.stop (.inl rfl)).mono
      fun t ht => List.mem_cons.2 (.inl (List.mem_singleton.1 ht)))
    obtain ⟨h₄, hentry'⟩ := Arm.laidSwitch arms harms h₃.stop hb₂
    refine ⟨(hhead.guarded h₃).trans h₄ (fun t ht => ?_) fun _ ht => .inl ht,
      (hhead.joint_stop.left h₃).left h₄⟩
    rcases List.mem_cons.1 ht with rfl | ht
    · exact .inr hentry'
    · exact .inl ht

theorem Arm.laidBranch : ∀ (arms : List Arm) {outer : List Names} {exit : Exit} {k : Nat}
    {span : Span} {beyond : Nat} {ns : Names} {a b : Nat},
    Arm.PlacedBranch c address outer exit k span beyond arms ns a b → c.Boundary a →
    back ∨ Arm.LoopFreeAll arms → c.Laid back (beyond :: exit.targets) a b
  | [], _, _, _, _, _, _, _, _, h, ha, _ => by
    obtain rfl := h
    exact .refl ha
  | .mk test (.mk _ body) :: arms, _, exit, _, _, beyond, _, _, _, h, ha, hback => by
    obtain ⟨m₁, m₂, m₃, m₄, next, htest, hskip, hbody, hpops, hdone, harms⟩ := h
    obtain ⟨hb₁, hb₂⟩ := or_and_left.1 hback
    have hhead := (test.plain htest ha).jump back hskip (.inr rfl)
    have h₁ := (Stmt.laidAll body hbody hhead.stop hb₁).1
    have h₂ := (h₁.append_plain (hpops.plain h₁.stop)).mono
      fun t ht => List.mem_cons_of_mem beyond ht
    have h₃ := h₂.append ((Laid.of_jump back hdone h₂.stop (.inl rfl)).mono
      fun t ht => List.mem_cons.2 (.inl (List.mem_singleton.1 ht)))
    have h₄ := hhead.guarded h₃
    exact h₄.append (Arm.laidBranch arms harms h₄.stop hb₂)

end

end LolToolchain
