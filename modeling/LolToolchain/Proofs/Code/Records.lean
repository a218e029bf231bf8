import LolToolchain.Proofs.Code.Flow

/-!
What the names of a program are known to hold, as the text records it: from a definition to the next
write in the text. What is recorded of old names only gets less along the text. Where no loop changes
what it has recorded at its start, a record at the end of a loop's body is good for its start.
-/
namespace LolToolchain

open Chunk

namespace Names

/-- What is recorded of the values of the names. -/
def records (ns : Names) : Facts :=
  ns.map fun n => n.2.map functionValue

/-- Of the names that were there before, nothing else is recorded afterwards. -/
def Fades (ns ms : Names) : Prop :=
  (ms.keep ns.length).records.Within ns.records

variable {ns ms ls : Names} {name : Text} {n : Nat}

theorem length_records (ns : Names) : ns.records.length = ns.length :=
  List.length_map _

theorem keep_self (ns : Names) : ns.keep ns.length = ns := by
  rw [keep, Nat.sub_self, List.drop_zero]

theorem records_keep (ns : Names) (n : Nat) :
    (ns.keep n).records = ns.records.drop (ns.length - n) :=
  List.map_drop

theorem records_ofParams (params : List Ident) :
    (ofParams params).records = List.replicate params.length none := by
  rw [records, ofParams, List.map_reverse, List.map_map]
  change (params.map fun _ => none).reverse = _
  rw [List.map_const', List.reverse_replicate]

/-- A write to the slot of a name. -/
theorem records_forget (h : ns.slot? name = some n) :
    (ns.forget name).records = ns.records.forget n := by
  induction ns with
  | nil => cases h
  | cons x ns ih =>
    rw [slot?] at h
    rw [forget]
    split at h
    · rename_i hname
      cases h
      rw [if_pos hname]
      exact (if_pos (List.length_map _)).symm
    · rename_i hname
      have hlt : (records ns).length ≠ n := by
        rw [length_records]
        exact Nat.ne_of_gt (slot?_lt h)
      rw [if_neg hname]
      exact (congrArg _ (ih h)).trans (if_neg hlt).symm

theorem within_forget (name : Text) (ns : Names) : (ns.forget name).records.Within ns.records := by
  induction ns with
  | nil => exact .nil
  | cons x ns ih =>
    rw [forget]
    split
    · exact .cons_none _ (.refl (records ns))
    · exact .cons (fun _ h => h) ih

namespace Fades

theorem length_le (h : ns.Fades ms) : ns.length ≤ ms.length := by
  have hlen := h.length
  rw [length_records, length_records, keep, List.length_drop] at hlen
  omega

theorem refl (ns : Names) : ns.Fades ns := by
  rw [Fades, keep_self]
  exact .refl ns.records

theorem of_le (h : ns.Fades ms) (hn : n ≤ ns.length) :
    (ms.keep n).records.Within (ns.keep n).records := by
  have hlen : (ms.keep ns.length).length = ns.length := by
    rw [← length_records, h.length, length_records]
  have hkept : (ms.keep n).records = (ms.keep ns.length).records.drop (ns.length - n) := by
    rw [← keep_keep hn, records_keep (ms.keep ns.length), hlen]
  rw [hkept, records_keep ns]
  exact Facts.Within.drop h _

theorem trans (h : ns.Fades ms) (h' : ms.Fades ls) : ns.Fades ls :=
  (h'.of_le h.length_le).trans h

theorem within (h : ns.Fades ms) (hlen : ms.length = ns.length) :
    ms.records.Within ns.records := by
  rw [Fades, ← hlen, keep_self] at h
  exact h

theorem keep (h : ns.Fades ms) : ns.Fades (ms.keep ns.length) := by
  rw [Fades, keep_keep (Nat.le_refl _)]
  exact h

theorem cons (x : Text × Option Nat) (ns : Names) : ns.Fades (x :: ns) := by
  rw [Fades, Names.keep, List.length_cons, Nat.add_sub_cancel_left]
  exact .refl ns.records

private theorem written (name : Text) (ns : Names) : ns.Fades (ns.written name) := by
  rw [Fades, ← length_written name ns, keep_self, Names.written]
  split
  · exact .refl ns.records
  · exact within_forget name ns

theorem counter (update : Option LoopUpdate) (ns : Names) : ns.Fades (LoopUpdate.names update ns) := by
  cases update with
  | none => exact refl ns
  | some u => exact cons _ ns

end Fades
end Names

variable {address : Nat → Nat}

mutual

theorem Stmt.fades_names : ∀ (s : Stmt) (k : Nat) (ns : Names), ns.Fades (s.names address k ns)
  | .assign _ target _, _, ns => .written target.name ns
  | .declare _ name _, _, ns => .cons _ ns
  | .load _ _, _, ns | .expr _ _, _, ns | .leave _, _, ns | .ret _ _, _, ns | .print _ _ _, _, ns
  | .append _ _ _, _, ns | .store _ _ _ _, _, ns => .refl ns
  | .define _ name _ _, _, ns => .cons _ ns
  | .switch _ arms otherwise, k, ns => by
    rw [Stmt.names]
    exact (Arm.fades_namesAll arms k ns).trans (Block.fades_namesOption otherwise _ _)
  | .branch _ yes arms no, k, ns => by
    rw [Stmt.names]
    exact ((Block.fades_namesOption yes k ns).trans (Arm.fades_namesAll arms _ _)).trans
      (Block.fades_namesOption no _ _)
  | .cast _ name _, _, ns => .written name.name ns
  | .loop _ _ _ update (.mk _ body), k, ns => by
    rw [Stmt.names]
    exact ((Names.Fades.counter update ns).trans (Stmt.fades_namesAll body k _)).keep
  | .read _ target, _, ns => .written target.name ns

theorem Stmt.fades_namesAll : ∀ (ss : List Stmt) (k : Nat) (ns : Names),
    ns.Fades (Stmt.namesAll address k ss ns)
  | [], _, ns => .refl ns
  | s :: ss, k, ns => by
    rw [Stmt.namesAll]
    exact (Stmt.fades_names s k ns).trans (Stmt.fades_namesAll ss _ _)

theorem Block.fades_namesOption : ∀ (block : Option Block) (k : Nat) (ns : Names),
    ns.Fades (Block.namesOption address k block ns)
  | none, _, ns => .refl ns
  | some (.mk _ body), k, ns => by
    rw [Block.namesOption]
    exact (Stmt.fades_namesAll body k ns).keep

theorem Arm.fades_namesAll : ∀ (arms : List Arm) (k : Nat) (ns : Names),
    ns.Fades (Arm.namesAll address k arms ns)
  | [], _, ns => .refl ns
  | .mk _ (.mk _ body) :: arms, k, ns => by
    rw [Arm.namesAll]
    exact (Stmt.fades_namesAll body k ns).keep.trans (Arm.fades_namesAll arms _ _)

end

mutual

/-- The loops in a statement record at the end of their bodies what they have recorded at the start:
no text in them writes to a name that is known to hold a function there. -/
def Stmt.LoopsKeep (address : Nat → Nat) (k : Nat) : Stmt → Names → Prop
  | .define _ _ params (.mk _ body), _ =>
    Stmt.LoopsKeepAll address (k + 1) body (Names.ofParams params)
  | .switch _ arms otherwise, ns =>
    Arm.LoopsKeepAll address k arms ns ∧
      Block.LoopsKeepOption address (k + Arm.definitionsAll arms) otherwise
        (Arm.namesAll address k arms ns)
  | .branch _ yes arms no, ns =>
    let k' := k + Block.definitionsOption yes
    let ns' := Block.namesOption address k yes ns
    Block.LoopsKeepOption address k yes ns ∧ Arm.LoopsKeepAll address k' arms ns' ∧
      Block.LoopsKeepOption address (k' + Arm.definitionsAll arms) no
        (Arm.namesAll address k' arms ns')
  | .loop _ _ _ update (.mk _ body), ns =>
    let inner := LoopUpdate.names update ns
    (Stmt.namesAll address k body inner).keep inner.length = inner ∧
      Stmt.LoopsKeepAll address k body inner
  | _, _ => True

def Stmt.LoopsKeepAll (address : Nat → Nat) (k : Nat) : List Stmt → Names → Prop
  | [], _ => True
  | s :: ss, ns =>
    Stmt.LoopsKeep address k s ns ∧
      Stmt.LoopsKeepAll address (k + s.definitions) ss (s.names address k ns)

def Block.LoopsKeepOption (address : Nat → Nat) (k : Nat) : Option Block → Names → Prop
  | none, _ => True
  | some (.mk _ body), ns => Stmt.LoopsKeepAll address k body ns

def Arm.LoopsKeepAll (address : Nat → Nat) (k : Nat) : List Arm → Names → Prop
  | [], _ => True
  | .mk _ (.mk _ body) :: arms, ns =>
    Stmt.LoopsKeepAll address k body ns ∧
      Arm.LoopsKeepAll address (k + Stmt.definitionsAll body) arms
        ((Stmt.namesAll address k body ns).keep ns.length)

end

/-- What is recorded of the names is known throughout a stretch of code. -/
def Names.NotedAt (L : Nat → Facts) (ns : Names) (a b : Nat) : Prop :=
  ∀ o, a ≤ o → o < b → ns.records <:+ L o

mutual

/-- The code of a statement is placed, and a table knows throughout the code of its parts what is
recorded of the names that these are compiled with. -/
def Stmt.Noted (c : Chunk) (address : Nat → Nat) (L : Nat → Facts) (outer : List Names)
    (exit : Exit) (k : Nat) : Stmt → Names → Nat → Nat → Prop
  | .define s name params (.mk _ body), ns, a, b =>
    ∃ m₁ m₂ m₃, c.HasJump .jump m₃ s a (address k) ∧ ns.NotedAt L a (address k) ∧
      c.Has .fnDef params.length s (address k) m₁ ∧
      Stmt.NotedAll c address L (((name.name, some (address k)) :: ns) :: outer) .function (k + 1)
        body (Names.ofParams params) m₁ m₂ ∧
      ReturnAt c s body m₂ m₃ ∧ c.HasConstant (functionValue (address k)) s m₃ b ∧
      ns.NotedAt L m₃ b
  | .switch s arms otherwise, ns, a, b =>
    ∃ entry m, Arm.NotedSwitch c address L outer (.to ns.length b) k s arms ns a entry m ∧
      Block.NotedOption c address L outer (.to ns.length b) (k + Arm.definitionsAll arms) s
        otherwise (Arm.namesAll address k arms ns) m b
  | .branch s yes arms no, ns, a, b =>
    let k' := k + Block.definitionsOption yes
    let ns' := Block.namesOption address k yes ns
    ∃ m₁ m₂ m₃ next m₄, c.Has .readIt 0 s a m₁ ∧ c.HasJump .jumpIfFalse next s m₁ m₂ ∧
      ns.NotedAt L a m₂ ∧ Block.NotedOption c address L outer exit k s yes ns m₂ m₃ ∧
      c.HasJump .jump b s m₃ next ∧
      Arm.NotedBranch c address L outer exit k' s b arms ns' next m₄ ∧
      Block.NotedOption c address L outer exit (k' + Arm.definitionsAll arms) s no
        (Arm.namesAll address k' arms ns') m₄ b
  | .leave s, ns, a, b => exit.Placed c ns s a b ∧ ns.NotedAt L a (a + 1)
  | .loop s _ _ update (.mk _ body), ns, a, b =>
    let inner := LoopUpdate.names update ns
    let after := Stmt.namesAll address k body inner
    ∃ start m₁ m₂ m₃ m₄ beyond, LoopUpdate.StartAt c a start update ∧ ns.NotedAt L a start ∧
      LoopUpdate.TestAt c outer inner beyond start m₁ update ∧ inner.NotedAt L start m₁ ∧
      Stmt.NotedAll c address L outer (.to inner.length beyond) k body inner m₁ m₂ ∧
      c.HasPops (after.length - inner.length) s m₂ m₃ ∧
      LoopUpdate.ChangeAt c outer (after.keep inner.length) ns.length m₃ m₄ update ∧
      inner.NotedAt L m₃ m₄ ∧ c.HasJump .jump start s m₄ beyond ∧
      c.HasPops (inner.length - ns.length) s beyond b
  | s, ns, a, b => s.Placed c address outer exit k ns a b ∧ ns.NotedAt L a b

def Stmt.NotedAll (c : Chunk) (address : Nat → Nat) (L : Nat → Facts) (outer : List Names)
    (exit : Exit) (k : Nat) : List Stmt → Names → Nat → Nat → Prop
  | [], _, a, b => a = b
  | s :: ss, ns, a, b =>
    ∃ m, Stmt.Noted c address L outer exit k s ns a m ∧
      Stmt.NotedAll c address L outer exit (k + s.definitions) ss (s.names address k ns) m b

def Block.NotedOption (c : Chunk) (address : Nat → Nat) (L : Nat → Facts) (outer : List Names)
    (exit : Exit) (k : Nat) (span : Span) : Option Block → Names → Nat → Nat → Prop
  | none, _, a, b => a = b
  | some (.mk _ body), ns, a, b =>
    ∃ m, Stmt.NotedAll c address L outer exit k body ns a m ∧
      c.HasPops ((Stmt.namesAll address k body ns).length - ns.length) span m b

def Arm.NotedSwitch (c : Chunk) (address : Nat → Nat) (L : Nat → Facts) (outer : List Names)
    (exit : Exit) (k : Nat) (span : Span) : List Arm → Names → Nat → Nat → Nat → Prop
  | [], _, a, entry, b => a = b ∧ entry = b
  | .mk test (.mk _ body) :: arms, ns, a, entry, b =>
    ∃ m₁ m₂ m₃ m₄ m₅ next entry', c.Has .readIt 0 test.span a m₁ ∧
      test.Placed c outer ns m₁ m₂ ∧ c.Has .equal 0 test.span m₂ m₃ ∧
      c.HasJump .jumpIfFalse next test.span m₃ entry ∧ ns.NotedAt L a entry ∧
      Stmt.NotedAll c address L outer exit k body ns entry m₄ ∧
      c.HasPops ((Stmt.namesAll address k body ns).length - ns.length) span m₄ m₅ ∧
      c.HasJump .jump entry' span m₅ next ∧
      Arm.NotedSwitch c address L outer exit (k + Stmt.definitionsAll body) span arms
        ((Stmt.namesAll address k body ns).keep ns.length) next entry' b

def Arm.NotedBranch (c : Chunk) (address : Nat → Nat) (L : Nat → Facts) (outer : List Names)
    (exit : Exit) (k : Nat) (span : Span) (beyond : Nat) : List Arm → Names → Nat → Nat → Prop
  | [], _, a, b => a = b
  | .mk test (.mk _ body) :: arms, ns, a, b =>
    ∃ m₁ m₂ m₃ m₄ next, test.Placed c outer ns a m₁ ∧
      c.HasJump .jumpIfFalse next test.span m₁ m₂ ∧ ns.NotedAt L a m₂ ∧
      Stmt.NotedAll c address L outer exit k body ns m₂ m₃ ∧
      c.HasPops ((Stmt.namesAll address k body ns).length - ns.length) span m₃ m₄ ∧
      c.HasJump .jump beyond span m₄ next ∧
      Arm.NotedBranch c address L outer exit (k + Stmt.definitionsAll body) span beyond arms
        ((Stmt.namesAll address k body ns).keep ns.length) next b

end

end LolToolchain
