import LolToolchain.Program.Tree
import LolToolchain.Token.NameTable

/-!
The names of a program as its text alone gives them. Definitions are numbered in the order in which
they are written, and `address` says what stands for a number in function values. A name is known to
hold a function from its definition to the next statement in the text that writes to it; inside a
function the names around it can be used only as long as they are known to hold functions.
-/
namespace LolToolchain

/-- The names of one function, the newest first, each with the address of the function that it is
known to hold. -/
abbrev Names := List (Text × Option Nat)

namespace Names

/-- The slot of a name: the number of names that are older than the newest of that name. -/
def slot? (name : Text) : Names → Option Nat
  | [] => none
  | n :: ns => if n.1 = name then some ns.length else slot? name ns

/-- The names after a write to one of them. -/
def forget (name : Text) : Names → Names
  | [] => []
  | n :: ns => if n.1 = name then (n.1, none) :: ns else n :: forget name ns

/-- The names after a write; the implicit variable is not among them. -/
def written (name : Text) (ns : Names) : Names :=
  if name = implicitName then ns else ns.forget name

/-- The names that are left when those newer than the oldest `height` go out of use. -/
def keep (height : Nat) (ns : Names) : Names :=
  ns.drop (ns.length - height)

/-- The names alone. -/
def texts (ns : Names) : List Text :=
  ns.map Prod.fst

/-- The names of parameters, the last one first. -/
def ofParams (params : List Ident) : Names :=
  (params.map fun p => (p.name, none)).reverse

/-- The function that a name around the current function stands for, the nearest functions first. -/
def function? (name : Text) : List Names → Option Nat
  | [] => none
  | ns :: outer =>
    match ns.lookup name with
    | none => function? name outer
    | some f => f

@[simp] theorem length_texts (ns : Names) : ns.texts.length = ns.length :=
  List.length_map _

theorem texts_written (name : Text) (ns : Names) : (ns.written name).texts = ns.texts := by
  have hforget : (ns.forget name).texts = ns.texts := by
    induction ns with
    | nil => rfl
    | cons n ns ih =>
      unfold forget
      split
      · rfl
      · simpa [texts] using ih
  unfold written
  split
  · rfl
  · exact hforget

theorem texts_keep {ns ms : Names} (h : ns.texts <:+ ms.texts) :
    (ms.keep ns.length).texts = ns.texts := by
  have hdrop := List.suffix_iff_eq_drop.1 h
  rw [length_texts, length_texts] at hdrop
  rw [hdrop, keep, texts, texts, List.map_drop]

theorem length_keep {ns ms : Names} (h : ns.texts <:+ ms.texts) :
    (ms.keep ns.length).length = ns.length := by
  rw [← length_texts, texts_keep h, length_texts]

theorem keep_keep {n m : Nat} (h : n ≤ m) (ns : Names) : (ns.keep m).keep n = ns.keep n := by
  rw [keep, keep, keep, List.drop_drop, List.length_drop]
  congr 1
  omega

/-- What the names `ms` are known to hold, the names `ns` are known to hold too. -/
def Weaker (ms ns : Names) : Prop :=
  ∀ name f, (name, some f) ∈ ms → (name, some f) ∈ ns

theorem weaker_cons_none (name : Text) (ns : Names) : Weaker ((name, none) :: ns) ns :=
  fun _ _ hmem => (List.mem_cons.1 hmem).resolve_left nofun

theorem weaker_keep (height : Nat) (ns : Names) : Weaker (ns.keep height) ns :=
  fun _ _ => List.mem_of_mem_drop

private theorem weaker_forget (name : Text) : ∀ ns : Names, Weaker (ns.forget name) ns
  | [], _, _, hmem => hmem
  | n :: ns, m, f, hmem => by
    unfold forget at hmem
    split at hmem
    · exact List.mem_cons_of_mem _ (weaker_cons_none _ _ m f hmem)
    · exact List.mem_cons.2 ((List.mem_cons.1 hmem).imp id (weaker_forget name ns m f))

theorem weaker_written (name : Text) (ns : Names) : Weaker (ns.written name) ns := by
  unfold written
  split
  · exact fun _ _ hmem => hmem
  · exact weaker_forget name ns

theorem weaker_counter (update : Option LoopUpdate) (ns : Names) :
    Weaker ((update.toList.map fun u => (u.counter.name, none)) ++ ns) ns := by
  cases update with
  | none => exact fun _ _ hmem => hmem
  | some u => exact weaker_cons_none _ _

/-- A function that a name stands for is one that the names somewhere around hold. -/
theorem exists_mem_of_function? {name : Text} {f : Nat} : ∀ {outer : List Names},
    function? name outer = some f → ∃ ns ∈ outer, (name, some f) ∈ ns
  | [], h => by cases h
  | ns :: outer, h => by
    unfold function? at h
    split at h
    · obtain ⟨ms, hmem, hf⟩ := exists_mem_of_function? h
      exact ⟨ms, List.mem_cons_of_mem _ hmem, hf⟩
    · rename_i hlookup
      rw [h] at hlookup
      obtain ⟨l₁, l₂, rfl, -⟩ := List.lookup_eq_some_iff.1 hlookup
      exact ⟨_, List.mem_cons_self, by simp⟩

end Names

/-- A definition as calls need it: the number of the first definition in its body, and the names
around it. -/
structure Function where
  address : Nat
  params : List Ident
  body : List Stmt
  first : Nat
  outer : List Names

mutual

/-- The number of definitions in a statement. -/
def Stmt.definitions : Stmt → Nat
  | .define _ _ _ (.mk _ body) => Stmt.definitionsAll body + 1
  | .switch _ arms otherwise => Arm.definitionsAll arms + Block.definitionsOption otherwise
  | .branch _ yes arms no =>
    Block.definitionsOption yes + Arm.definitionsAll arms + Block.definitionsOption no
  | .loop _ _ _ _ (.mk _ body) => Stmt.definitionsAll body
  | _ => 0

def Stmt.definitionsAll : List Stmt → Nat
  | [] => 0
  | s :: ss => Stmt.definitions s + Stmt.definitionsAll ss

def Block.definitionsOption : Option Block → Nat
  | none => 0
  | some (.mk _ body) => Stmt.definitionsAll body

def Arm.definitionsAll : List Arm → Nat
  | [] => 0
  | .mk _ (.mk _ body) :: arms => Stmt.definitionsAll body + Arm.definitionsAll arms

end

mutual

/-- The names after a statement whose first definition has the number `k`. -/
def Stmt.names (address : Nat → Nat) (k : Nat) : Stmt → Names → Names
  | .assign _ target _, ns => ns.written target.name
  | .declare _ name _, ns => (name.name, none) :: ns
  | .define _ name _ _, ns => (name.name, some (address k)) :: ns
  | .switch _ arms otherwise, ns =>
    Block.namesOption address (k + Arm.definitionsAll arms) otherwise
      (Arm.namesAll address k arms ns)
  | .branch _ yes arms no, ns =>
    let k' := k + Block.definitionsOption yes
    Block.namesOption address (k' + Arm.definitionsAll arms) no
      (Arm.namesAll address k' arms (Block.namesOption address k yes ns))
  | .cast _ name _, ns => ns.written name.name
  | .loop _ _ _ update (.mk _ body), ns =>
    let counter := update.toList.map fun u => (u.counter.name, none)
    (Stmt.namesAll address k body (counter ++ ns)).keep ns.length
  | .read _ target, ns => ns.written target.name
  | _, ns => ns

def Stmt.namesAll (address : Nat → Nat) (k : Nat) : List Stmt → Names → Names
  | [], ns => ns
  | s :: ss, ns => Stmt.namesAll address (k + s.definitions) ss (Stmt.names address k s ns)

def Block.namesOption (address : Nat → Nat) (k : Nat) : Option Block → Names → Names
  | none, ns => ns
  | some (.mk _ body), ns => (Stmt.namesAll address k body ns).keep ns.length

def Arm.namesAll (address : Nat → Nat) (k : Nat) : List Arm → Names → Names
  | [], ns => ns
  | .mk _ (.mk _ body) :: arms, ns =>
    Arm.namesAll address (k + Stmt.definitionsAll body) arms
      ((Stmt.namesAll address k body ns).keep ns.length)

end

mutual

/-- The functions that a statement defines, in order. -/
def Stmt.functions (address : Nat → Nat) (outer : List Names) (k : Nat) :
    Stmt → Names → List Function
  | .define _ name params (.mk _ body), ns =>
    let around := ((name.name, some (address k)) :: ns) :: outer
    ⟨address k, params, body, k + 1, around⟩
      :: Stmt.functionsAll address around (k + 1) body (Names.ofParams params)
  | .switch _ arms otherwise, ns =>
    Arm.functionsAll address outer k arms ns
      ++ Block.functionsOption address outer (k + Arm.definitionsAll arms) otherwise
        (Arm.namesAll address k arms ns)
  | .branch _ yes arms no, ns =>
    let k' := k + Block.definitionsOption yes
    let ns' := Block.namesOption address k yes ns
    Block.functionsOption address outer k yes ns ++ Arm.functionsAll address outer k' arms ns'
      ++ Block.functionsOption address outer (k' + Arm.definitionsAll arms) no
        (Arm.namesAll address k' arms ns')
  | .loop _ _ _ update (.mk _ body), ns =>
    let counter := update.toList.map fun u => (u.counter.name, none)
    Stmt.functionsAll address outer k body (counter ++ ns)
  | _, _ => []

def Stmt.functionsAll (address : Nat → Nat) (outer : List Names) (k : Nat) :
    List Stmt → Names → List Function
  | [], _ => []
  | s :: ss, ns =>
    Stmt.functions address outer k s ns
      ++ Stmt.functionsAll address outer (k + s.definitions) ss (Stmt.names address k s ns)

def Block.functionsOption (address : Nat → Nat) (outer : List Names) (k : Nat) :
    Option Block → Names → List Function
  | none, _ => []
  | some (.mk _ body), ns => Stmt.functionsAll address outer k body ns

def Arm.functionsAll (address : Nat → Nat) (outer : List Names) (k : Nat) :
    List Arm → Names → List Function
  | [], _ => []
  | .mk _ (.mk _ body) :: arms, ns =>
    Stmt.functionsAll address outer k body ns
      ++ Arm.functionsAll address outer (k + Stmt.definitionsAll body) arms
        ((Stmt.namesAll address k body ns).keep ns.length)

end

mutual

/-- Statements add names and change none. -/
theorem Stmt.suffix_names (address : Nat → Nat) : ∀ (s : Stmt) (k : Nat) (ns : Names),
    ns.texts <:+ (s.names address k ns).texts
  | .assign _ target _, _, ns => by
    rewrite [Stmt.names, Names.texts_written]
    exact List.suffix_rfl
  | .declare _ name _, _, ns => List.suffix_cons name.name ns.texts
  | .load _ _, _, _ => List.suffix_rfl
  | .define _ name _ _, _, ns => List.suffix_cons name.name ns.texts
  | .expr _ _, _, _ => List.suffix_rfl
  | .switch _ arms otherwise, k, ns => by
    rewrite [Stmt.names, Block.texts_namesOption, Arm.texts_namesAll]
    exact List.suffix_rfl
  | .branch _ yes arms no, k, ns => by
    rewrite [Stmt.names, Block.texts_namesOption, Arm.texts_namesAll, Block.texts_namesOption]
    exact List.suffix_rfl
  | .cast _ name _, _, ns => by
    rewrite [Stmt.names, Names.texts_written]
    exact List.suffix_rfl
  | .leave _, _, _ => List.suffix_rfl
  | .loop _ _ _ update (.mk _ body), k, ns => by
    rw [Stmt.names]
    have hcounter : ns.texts <:+ Names.texts
        ((update.toList.map fun u => (u.counter.name, none)) ++ ns) := by
      rw [Names.texts, Names.texts, List.map_append]
      exact List.suffix_append _ _
    rewrite [Names.texts_keep (hcounter.trans (Stmt.suffix_namesAll address body k _))]
    exact List.suffix_rfl
  | .ret _ _, _, _ => List.suffix_rfl
  | .print _ _ _, _, _ => List.suffix_rfl
  | .read _ target, _, ns => by
    rewrite [Stmt.names, Names.texts_written]
    exact List.suffix_rfl
  | .append _ _ _, _, _ => List.suffix_rfl
  | .store _ _ _ _, _, _ => List.suffix_rfl

theorem Stmt.suffix_namesAll (address : Nat → Nat) : ∀ (ss : List Stmt) (k : Nat) (ns : Names),
    ns.texts <:+ (Stmt.namesAll address k ss ns).texts
  | [], _, _ => List.suffix_rfl
  | s :: ss, k, ns => by
    rw [Stmt.namesAll]
    exact (Stmt.suffix_names address s k ns).trans (Stmt.suffix_namesAll address ss _ _)

theorem Block.texts_namesOption (address : Nat → Nat) :
    ∀ (block : Option Block) (k : Nat) (ns : Names),
      (Block.namesOption address k block ns).texts = ns.texts
  | none, _, _ => rfl
  | some (.mk _ body), k, ns => by
    rw [Block.namesOption]
    exact Names.texts_keep (Stmt.suffix_namesAll address body k ns)

theorem Arm.texts_namesAll (address : Nat → Nat) : ∀ (arms : List Arm) (k : Nat) (ns : Names),
    (Arm.namesAll address k arms ns).texts = ns.texts
  | [], _, _ => rfl
  | .mk _ (.mk _ body) :: arms, k, ns => by
    rw [Arm.namesAll, Arm.texts_namesAll address arms]
    exact Names.texts_keep (Stmt.suffix_namesAll address body k ns)

end

/-- The functions of a program, in the order of their definitions. -/
def Program.functions (p : Program) (address : Nat → Nat) : List Function :=
  Stmt.functionsAll address [] 0 p.body.stmts []

end LolToolchain
