import LolToolchain.Proofs.Code.Compilation
import LolToolchain.Proofs.Code.Run
import LolToolchain.Proofs.Evaluation.Soundness

/-!
The machine does with compiled code what the program says: the compiler places the code of a program
in its chunk, evaluation never calls a function that is not there, and what is placed is seen to run
as evaluation says.
-/
namespace LolToolchain

/-- Evaluation meets no function value without a function. -/
theorem Program.known_observeWith (p : Program) (address : Nat → Nat) (s : Settings) (fuel : Nat)
    (input : Text) (steps : Nat) : (p.observeWith address s fuel input steps).Known := by
  intro offset span hend
  have hallowed : ∀ f : Fault, f.isInternal = false → ∀ offset, f ≠ .noFunction offset := by
    rintro f hf offset rfl
    cases hf
  have hlit : ∀ v ∈ p.literals, v.Literal fun f => ∀ offset, f ≠ .noFunction offset := by
    intro v _
    cases v with
    | interp t =>
      cases t with
      | none => trivial
      | some t => exact .inl nofun
    | _ => trivial
  exact Program.allowed_of_failed hallowed hlit hend offset rfl

private theorem Program.known_observe (p : Program) (address : Nat → Nat) (s : Settings) (input : Text)
    (steps : Nat) : (p.observe address s input steps).Known :=
  p.known_observeWith address s steps input steps

/-- A compiled program is seen to do what the program says, after every number of steps: the same
output, the same rest of the input, and the same end at the same place of the program. Function
values are the addresses of the functions, which are in the order of their definitions. -/
theorem Program.observe_compiled (p : Program) (names : NameTable) (c : Chunk)
    (hcompile : p.compile names = .ok c) (hshort : c.code.size < 2 ^ 31) :
    ∃ address : Nat → Nat,
      (∀ i j, i < j → j < Stmt.definitionsAll p.body.stmts → address i < address j) ∧
      ∀ (maxFrames : Int) (outputFault inputFault : Option Text) (input : Text) (steps : Nat),
        let s : Settings := ⟨maxFrames, false, outputFault, inputFault⟩
        Machine.observe c (((Machine.idle #[]).start input).runFor c s steps) =
          p.observe address s input steps := by
  obtain ⟨address, hordered, hplaced, -⟩ := Program.placed_of_compile hcompile hshort
  refine ⟨address, hordered, fun maxFrames outputFault inputFault input steps => ?_⟩
  exact Program.observe_of_placed hplaced rfl hshort input steps
    (p.known_observe address _ input steps)

/-- A function that returns its parameter, called and printed. -/
def Program.echo : Program :=
  let name : Ident := ⟨"ECHO", .zero⟩
  let param : Ident := ⟨"X", .zero⟩
  ⟨.zero, "1.2", .mk .zero
    [.define .zero name [param] (.mk .zero [.ret .zero (.var .zero param)]),
      .print .zero [.call .zero name [.int .zero 7]] true]⟩

theorem Program.observe_compiled_echo :
    ∃ c, Program.echo.compile ⟨#[]⟩ = .ok c ∧ c.code.size = 21 ∧ ∃ address : Nat → Nat,
      (∀ i j, i < j → j < 1 → address i < address j) ∧
      ∀ (maxFrames : Int) (outputFault inputFault : Option Text) (input : Text) (steps : Nat),
        let s : Settings := ⟨maxFrames, false, outputFault, inputFault⟩
        Machine.observe c (((Machine.idle #[]).start input).runFor c s steps) =
          Program.echo.observe address s input steps :=
  ⟨_, rfl, rfl, Program.echo.observe_compiled ⟨#[]⟩ _ rfl (by decide)⟩

end LolToolchain
