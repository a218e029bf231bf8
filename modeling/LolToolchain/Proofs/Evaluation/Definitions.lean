import LolToolchain.Proofs.Evaluation.Names
import LolToolchain.Proofs.Program.Literals

/-!
The definitions of a program. Each number below their count belongs to a function of the program,
and names are only known to hold such functions.
-/
namespace LolToolchain

/-- The functions that names are known to hold are among the first `total`. -/
def Names.Known (address : Nat → Nat) (total : Nat) (ns : Names) : Prop :=
  ∀ name f, (name, some f) ∈ ns → ∃ j < total, f = address j

namespace Names.Known

variable {address : Nat → Nat} {total : Nat} {ns : Names}

theorem nil : Names.Known address total [] := nofun

theorem weaken {ms : Names} (h : ns.Known address total) (hms : ms.Weaker ns) :
    ms.Known address total :=
  fun name f hmem => h name f (hms name f hmem)

theorem cons_none (h : ns.Known address total) (name : Text) :
    Names.Known address total ((name, none) :: ns) :=
  h.weaken (weaker_cons_none name ns)

theorem cons_some (h : ns.Known address total) (name : Text) {k : Nat} (hk : k < total) :
    Names.Known address total ((name, some (address k)) :: ns) := by
  intro n f hmem
  rcases List.mem_cons.1 hmem with heq | hmem
  · cases heq
    exact ⟨k, hk, rfl⟩
  · exact h n f hmem

theorem ofParams (params : List Ident) : (Names.ofParams params).Known address total := by
  intro n f hmem
  simp [Names.ofParams] at hmem

theorem keep (h : ns.Known address total) (height : Nat) : (ns.keep height).Known address total :=
  h.weaken (weaker_keep height ns)

theorem written (h : ns.Known address total) (name : Text) :
    (ns.written name).Known address total :=
  h.weaken (weaker_written name ns)

theorem counter (h : ns.Known address total) (update : Option LoopUpdate) :
    Names.Known address total ((update.toList.map fun u => (u.counter.name, none)) ++ ns) :=
  h.weaken (weaker_counter update ns)

theorem function? {outer : List Names} (h : ∀ ns ∈ outer, ns.Known address total) {name : Text}
    {f : Nat} (hf : Names.function? name outer = some f) : ∃ j < total, f = address j := by
  obtain ⟨ns, hmem, hf⟩ := exists_mem_of_function? hf
  exact h ns hmem name f hf

end Names.Known

variable {address : Nat → Nat} {total : Nat}

mutual

theorem Stmt.known_names : ∀ (s : Stmt) {k : Nat} {ns : Names}, k + s.definitions ≤ total →
    ns.Known address total → (s.names address k ns).Known address total
  | .assign _ target _, _, _, _, hns => hns.written target.name
  | .declare _ name _, _, _, _, hns => hns.cons_none name.name
  | .load _ _, _, _, _, hns => hns
  | .define _ name _ (.mk _ body), k, _, hk, hns => by
    rw [Stmt.definitions] at hk
    exact hns.cons_some name.name (by omega)
  | .expr _ _, _, _, _, hns => hns
  | .switch _ arms otherwise, k, ns, hk, hns => by
    rw [Stmt.definitions] at hk
    exact Block.known_names otherwise (by omega) (Arm.known_names arms (by omega) hns)
  | .branch _ yes arms no, k, ns, hk, hns => by
    rw [Stmt.definitions] at hk
    exact Block.known_names no (by omega)
      (Arm.known_names arms (by omega) (Block.known_names yes (by omega) hns))
  | .cast _ name _, _, _, _, hns => hns.written name.name
  | .leave _, _, _, _, hns => hns
  | .loop _ _ _ update (.mk _ body), k, ns, hk, hns => by
    rw [Stmt.definitions] at hk
    exact (Stmt.known_namesAll body hk (hns.counter update)).keep _
  | .ret _ _, _, _, _, hns => hns
  | .print _ _ _, _, _, _, hns => hns
  | .read _ target, _, _, _, hns => hns.written target.name
  | .append _ _ _, _, _, _, hns => hns
  | .store _ _ _ _, _, _, _, hns => hns

theorem Stmt.known_namesAll : ∀ (ss : List Stmt) {k : Nat} {ns : Names},
    k + Stmt.definitionsAll ss ≤ total → ns.Known address total →
    (Stmt.namesAll address k ss ns).Known address total
  | [], _, _, _, hns => hns
  | s :: ss, k, ns, hk, hns => by
    rw [Stmt.definitionsAll] at hk
    exact Stmt.known_namesAll ss (by omega) (Stmt.known_names s (by omega) hns)

theorem Block.known_names : ∀ (block : Option Block) {k : Nat} {ns : Names},
    k + Block.definitionsOption block ≤ total → ns.Known address total →
    (Block.namesOption address k block ns).Known address total
  | none, _, _, _, hns => hns
  | some (.mk _ body), _, _, hk, hns => (Stmt.known_namesAll body hk hns).keep _

theorem Arm.known_names : ∀ (arms : List Arm) {k : Nat} {ns : Names},
    k + Arm.definitionsAll arms ≤ total → ns.Known address total →
    (Arm.namesAll address k arms ns).Known address total
  | [], _, _, _, hns => hns
  | .mk _ (.mk _ body) :: arms, k, ns, hk, hns => by
    rw [Arm.definitionsAll] at hk
    exact Arm.known_names arms (by omega) ((Stmt.known_namesAll body (by omega) hns).keep _)

end

/-- A function that is one of the first `total` definitions, whose body has only definitions among
them, which sees only such functions around it, and has only certain literals. -/
structure Function.Closed (address : Nat → Nat) (total : Nat) (good : Value → Prop) (f : Function) :
    Prop where
  numbered : ∃ j < total, f.address = address j
  bound : f.first + Stmt.definitionsAll f.body ≤ total
  outer : ∀ ns ∈ f.outer, ns.Known address total
  literals : ∀ v ∈ Stmt.literalsAll f.body, good v

variable {good : Value → Prop}

mutual

/-- The functions of a statement are closed. -/
theorem Stmt.functions_closed : ∀ (s : Stmt) {outer : List Names} {k : Nat} {ns : Names},
    k + s.definitions ≤ total → ns.Known address total → (∀ ms ∈ outer, ms.Known address total) →
    (∀ v ∈ s.literals, good v) →
    ∀ f ∈ s.functions address outer k ns, f.Closed address total good
  | .define _ name params (.mk _ body), outer, k, ns, hk, hns, houter, hlit, f, hf => by
    rw [Stmt.definitions] at hk
    rw [Stmt.literals] at hlit
    have haround : ∀ ms ∈ ((name.name, some (address k)) :: ns) :: outer,
        Names.Known address total ms :=
      List.forall_mem_cons.2 ⟨hns.cons_some name.name (by omega), houter⟩
    rw [Stmt.functions] at hf
    rcases List.mem_cons.1 hf with rfl | hf
    · exact ⟨⟨k, by omega, rfl⟩, by dsimp only; omega, haround, hlit⟩
    · exact Stmt.functionsAll_closed body (by omega) (.ofParams params) haround hlit f hf
  | .switch _ arms otherwise, outer, k, ns, hk, hns, houter, hlit, f, hf => by
    rw [Stmt.definitions] at hk
    rw [Stmt.literals] at hlit
    obtain ⟨hlit₁, hlit₂⟩ := List.forall_mem_append.1 hlit
    rw [Stmt.functions] at hf
    rcases List.mem_append.1 hf with hf | hf
    · exact Arm.functions_closed arms (by omega) hns houter hlit₁ f hf
    · exact Block.functions_closed otherwise (by omega) (Arm.known_names arms (by omega) hns) houter
        hlit₂ f hf
  | .branch _ yes arms no, outer, k, ns, hk, hns, houter, hlit, f, hf => by
    rw [Stmt.definitions] at hk
    rw [Stmt.literals] at hlit
    obtain ⟨hlit₁, hlit₂⟩ := List.forall_mem_append.1 hlit
    obtain ⟨hlit₂, hlit₃⟩ := List.forall_mem_append.1 hlit₂
    have hyes : (Block.namesOption address k yes ns).Known address total :=
      Block.known_names yes (by omega) hns
    rw [Stmt.functions] at hf
    rcases List.mem_append.1 hf with hf | hf
    · rcases List.mem_append.1 hf with hf | hf
      · exact Block.functions_closed yes (by omega) hns houter hlit₁ f hf
      · exact Arm.functions_closed arms (by omega) hyes houter hlit₂ f hf
    · exact Block.functions_closed no (by omega) (Arm.known_names arms (by omega) hyes) houter
        hlit₃ f hf
  | .loop _ _ _ update (.mk _ body), outer, k, ns, hk, hns, houter, hlit, f, hf => by
    rw [Stmt.definitions] at hk
    rw [Stmt.literals] at hlit
    rw [Stmt.functions] at hf
    exact Stmt.functionsAll_closed body hk (hns.counter update) houter
      (List.forall_mem_append.1 hlit).2 f hf
  | .assign _ _ _, _, _, _, _, _, _, _, _, hf | .declare _ _ _, _, _, _, _, _, _, _, _, hf
  | .load _ _, _, _, _, _, _, _, _, _, hf | .expr _ _, _, _, _, _, _, _, _, _, hf
  | .cast _ _ _, _, _, _, _, _, _, _, _, hf | .leave _, _, _, _, _, _, _, _, _, hf
  | .ret _ _, _, _, _, _, _, _, _, _, hf | .print _ _ _, _, _, _, _, _, _, _, _, hf
  | .read _ _, _, _, _, _, _, _, _, _, hf | .append _ _ _, _, _, _, _, _, _, _, _, hf
  | .store _ _ _ _, _, _, _, _, _, _, _, _, hf => by cases hf

theorem Stmt.functionsAll_closed : ∀ (ss : List Stmt) {outer : List Names} {k : Nat} {ns : Names},
    k + Stmt.definitionsAll ss ≤ total → ns.Known address total →
    (∀ ms ∈ outer, ms.Known address total) → (∀ v ∈ Stmt.literalsAll ss, good v) →
    ∀ f ∈ Stmt.functionsAll address outer k ss ns, f.Closed address total good
  | [], _, _, _, _, _, _, _, _, hf => by cases hf
  | s :: ss, outer, k, ns, hk, hns, houter, hlit, f, hf => by
    rw [Stmt.definitionsAll] at hk
    rw [Stmt.literalsAll] at hlit
    obtain ⟨hlit₁, hlit₂⟩ := List.forall_mem_append.1 hlit
    rw [Stmt.functionsAll] at hf
    rcases List.mem_append.1 hf with hf | hf
    · exact Stmt.functions_closed s (by omega) hns houter hlit₁ f hf
    · exact Stmt.functionsAll_closed ss (by omega) (Stmt.known_names s (by omega) hns) houter hlit₂
        f hf

theorem Block.functions_closed : ∀ (block : Option Block) {outer : List Names} {k : Nat}
    {ns : Names}, k + Block.definitionsOption block ≤ total → ns.Known address total →
    (∀ ms ∈ outer, ms.Known address total) → (∀ v ∈ Block.literalsOption block, good v) →
    ∀ f ∈ Block.functionsOption address outer k block ns, f.Closed address total good
  | none, _, _, _, _, _, _, _, _, hf => by cases hf
  | some (.mk _ body), _, _, _, hk, hns, houter, hlit, f, hf =>
    Stmt.functionsAll_closed body hk hns houter hlit f hf

theorem Arm.functions_closed : ∀ (arms : List Arm) {outer : List Names} {k : Nat} {ns : Names},
    k + Arm.definitionsAll arms ≤ total → ns.Known address total →
    (∀ ms ∈ outer, ms.Known address total) → (∀ v ∈ Arm.literalsAll arms, good v) →
    ∀ f ∈ Arm.functionsAll address outer k arms ns, f.Closed address total good
  | [], _, _, _, _, _, _, _, _, hf => by cases hf
  | .mk _ (.mk _ body) :: arms, outer, k, ns, hk, hns, houter, hlit, f, hf => by
    rw [Arm.definitionsAll] at hk
    rw [Arm.literalsAll] at hlit
    obtain ⟨-, hlit⟩ := List.forall_mem_append.1 hlit
    obtain ⟨hlit₁, hlit₂⟩ := List.forall_mem_append.1 hlit
    rw [Arm.functionsAll] at hf
    rcases List.mem_append.1 hf with hf | hf
    · exact Stmt.functionsAll_closed body (by omega) hns houter hlit₁ f hf
    · exact Arm.functions_closed arms (by omega) ((Stmt.known_namesAll body (by omega) hns).keep _)
        houter hlit₂ f hf

end

mutual

/-- Each definition of a statement is one of its functions. -/
theorem Stmt.exists_function : ∀ (s : Stmt) {outer : List Names} {k j : Nat} {ns : Names}, k ≤ j →
    j < k + s.definitions → ∃ f ∈ s.functions address outer k ns, f.address = address j
  | .define _ name params (.mk _ body), outer, k, j, ns, hle, hlt => by
    rw [Stmt.definitions] at hlt
    rw [Stmt.functions]
    by_cases hj : j = k
    · exact ⟨_, List.mem_cons_self, by rw [hj]⟩
    · have hle' : k + 1 ≤ j := by omega
      obtain ⟨f, hf, haddress⟩ := Stmt.exists_functionAll body hle' (by omega)
      exact ⟨f, List.mem_cons_of_mem _ hf, haddress⟩
  | .switch _ arms otherwise, outer, k, j, ns, hle, hlt => by
    rw [Stmt.definitions] at hlt
    rw [Stmt.functions]
    by_cases hj : j < k + Arm.definitionsAll arms
    · obtain ⟨f, hf, haddress⟩ := Arm.exists_function arms hle hj
      exact ⟨f, List.mem_append_left _ hf, haddress⟩
    · obtain ⟨f, hf, haddress⟩ := Block.exists_function otherwise (Nat.le_of_not_lt hj) (by omega)
      exact ⟨f, List.mem_append_right _ hf, haddress⟩
  | .branch _ yes arms no, outer, k, j, ns, hle, hlt => by
    rw [Stmt.definitions] at hlt
    rw [Stmt.functions]
    by_cases hyes : j < k + Block.definitionsOption yes
    · obtain ⟨f, hf, haddress⟩ := Block.exists_function yes hle hyes
      exact ⟨f, List.mem_append_left _ (List.mem_append_left _ hf), haddress⟩
    · by_cases harms : j < k + Block.definitionsOption yes + Arm.definitionsAll arms
      · obtain ⟨f, hf, haddress⟩ := Arm.exists_function arms (Nat.le_of_not_lt hyes) harms
        exact ⟨f, List.mem_append_left _ (List.mem_append_right _ hf), haddress⟩
      · obtain ⟨f, hf, haddress⟩ := Block.exists_function no (Nat.le_of_not_lt harms) (by omega)
        exact ⟨f, List.mem_append_right _ hf, haddress⟩
  | .loop _ _ _ update (.mk _ body), outer, k, j, ns, hle, hlt => by
    rw [Stmt.definitions] at hlt
    rw [Stmt.functions]
    exact Stmt.exists_functionAll body hle hlt
  | .assign _ _ _, _, _, _, _, hle, hlt | .declare _ _ _, _, _, _, _, hle, hlt
  | .load _ _, _, _, _, _, hle, hlt | .expr _ _, _, _, _, _, hle, hlt
  | .cast _ _ _, _, _, _, _, hle, hlt | .leave _, _, _, _, _, hle, hlt
  | .ret _ _, _, _, _, _, hle, hlt | .print _ _ _, _, _, _, _, hle, hlt
  | .read _ _, _, _, _, _, hle, hlt | .append _ _ _, _, _, _, _, hle, hlt
  | .store _ _ _ _, _, _, _, _, hle, hlt => absurd hlt (Nat.not_lt_of_le hle)

theorem Stmt.exists_functionAll : ∀ (ss : List Stmt) {outer : List Names} {k j : Nat} {ns : Names},
    k ≤ j → j < k + Stmt.definitionsAll ss →
    ∃ f ∈ Stmt.functionsAll address outer k ss ns, f.address = address j
  | [], _, _, _, _, hle, hlt => by
    rw [Stmt.definitionsAll] at hlt
    omega
  | s :: ss, outer, k, j, ns, hle, hlt => by
    rw [Stmt.definitionsAll] at hlt
    rw [Stmt.functionsAll]
    by_cases hj : j < k + s.definitions
    · obtain ⟨f, hf, haddress⟩ := Stmt.exists_function s hle hj
      exact ⟨f, List.mem_append_left _ hf, haddress⟩
    · obtain ⟨f, hf, haddress⟩ := Stmt.exists_functionAll ss (Nat.le_of_not_lt hj) (by omega)
      exact ⟨f, List.mem_append_right _ hf, haddress⟩

theorem Block.exists_function : ∀ (block : Option Block) {outer : List Names} {k j : Nat}
    {ns : Names}, k ≤ j → j < k + Block.definitionsOption block →
    ∃ f ∈ Block.functionsOption address outer k block ns, f.address = address j
  | none, _, _, _, _, hle, hlt => by
    rw [Block.definitionsOption] at hlt
    omega
  | some (.mk _ body), _, _, _, _, hle, hlt => Stmt.exists_functionAll body hle hlt

theorem Arm.exists_function : ∀ (arms : List Arm) {outer : List Names} {k j : Nat} {ns : Names},
    k ≤ j → j < k + Arm.definitionsAll arms →
    ∃ f ∈ Arm.functionsAll address outer k arms ns, f.address = address j
  | [], _, _, _, _, hle, hlt => by
    rw [Arm.definitionsAll] at hlt
    omega
  | .mk _ (.mk _ body) :: arms, outer, k, j, ns, hle, hlt => by
    rw [Arm.definitionsAll] at hlt
    rw [Arm.functionsAll]
    by_cases hj : j < k + Stmt.definitionsAll body
    · obtain ⟨f, hf, haddress⟩ := Stmt.exists_functionAll body hle hj
      exact ⟨f, List.mem_append_left _ hf, haddress⟩
    · obtain ⟨f, hf, haddress⟩ := Arm.exists_function arms (Nat.le_of_not_lt hj) (by omega)
      exact ⟨f, List.mem_append_right _ hf, haddress⟩

end

end LolToolchain
