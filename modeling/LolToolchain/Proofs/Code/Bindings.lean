import LolToolchain.Proofs.Code.Carrying
import LolToolchain.Proofs.Code.Safety
import LolToolchain.Proofs.Code.Termination
import LolToolchain.Text.CommonNames

/-!
What names are known to hold while their program runs. A name is known to hold a function from its
definition to the next write in the text. Where no loop writes to a name that is known to hold a
function at its start, this is true in every state of a run. Other loops go back to where the text
before the write begins, and there the name is still taken for the function.
-/
namespace LolToolchain

/-- The values of the current call, the newest first. -/
def Machine.values (m : Machine) : List Value :=
  (m.stack.toList.drop m.base).reverse

namespace Snapshot

private theorem values_of_informed {L : Nat → Facts} {x : Snapshot} {m : Machine} (hm : m.Shows x)
    (hx : x.frames ≠ []) (h : Frame.Informed L x.next x.frames x.stack) :
    (L x.next).Describes m.values := by
  obtain ⟨f, fs, hf⟩ := List.exists_cons_of_ne_nil hx
  rw [hf] at h
  obtain ⟨us, w, rest, r, hstack, hbase, hknown, -⟩ := h
  have hlower : m.base = (rest.reverse ++ [w]).length := by
    rw [hm.base, Snapshot.base, hf, List.length_append, List.length_reverse]
    exact hbase
  have hvalues : m.values = us := by
    rw [Machine.values, hm.stack.toList, hstack, hlower, List.reverse_append, List.reverse_cons,
      List.drop_left, List.reverse_reverse]
  rwa [hvalues]

/-- In the first state there are no values yet. -/
private theorem informed_start {L : Nat → Facts} (h : (L 0).Within []) (input : Text) :
    Frame.Informed L 0 (start input).frames (start input).stack := by
  exact ⟨[], .noob, [], 0, rfl, rfl, h, rfl, fun _ => trivial⟩

end Snapshot

namespace Program

variable {p : Program} {c : Chunk} {address : Nat → Nat} {L : Nat → Facts}

/-- The loops of a program record at the end of their bodies what they have recorded at the start. -/
def LoopsKeep (p : Program) : Prop :=
  ∀ address : Nat → Nat, Stmt.LoopsKeepAll address 0 p.body.stmts []

/-- The code of a program, with a table that knows throughout it what is recorded of the names. -/
def Noted (c : Chunk) (address : Nat → Nat) (L : Nat → Facts) (p : Program) : Prop :=
  ∃ m, Stmt.NotedAll c address L [] .none 0 p.body.stmts [] 0 m ∧
    c.Has .halt 0 p.span m c.code.size

/-- There is a table of what is known along the code of a program. -/
private theorem Placed.exists_table (h : p.Placed c address) (hloops : p.LoopsKeep) :
    ∃ L : Nat → Facts, p.Noted c address L ∧ (L 0).Within [] ∧
      ∀ o i, c.Boundary o → c.fetch o = .ok i → c.Carries L o i := by
  obtain ⟨m, hbody, hhalt⟩ := h
  have hflows := (Stmt.flowsAll p.body.stmts hbody .start (hloops address) trivial).1
  let last := Stmt.namesAll address 0 p.body.stmts []
  have hend : c.Flows m c.code.size last.records (fun _ => True) (Exit.none.Receives last)
      fun L => ∀ o, m ≤ o → o < c.code.size → L o = last.records :=
    .single hhalt hflows.stop fun _ _ _ _ => ⟨nofun, nofun, nofun⟩
  obtain ⟨L, hL⟩ := (hflows.append hend).table
  obtain ⟨hstart, hcarries⟩ := hL L (fun _ _ _ => rfl) trivial
  obtain ⟨⟨hnoted, -⟩, hcarries⟩ := hcarries trivial
  refine ⟨L, ⟨m, hnoted, hhalt⟩, hstart, fun o i ho hi => ?_⟩
  have hinside := Chunk.length_le_of_fetch hi
  have hlength := Chunk.lt_length o i.op
  exact hcarries o i (Nat.zero_le o) (by omega) ho hi

/-- What is recorded of names is true at run time. If no loop of a program writes to a name that is
known to hold a function at its start, then in every state of every run the variables of the current
call hold the functions that are recorded of their names where the next instruction was compiled. -/
theorem holds_recorded (p : Program) (names : NameTable) (c : Chunk)
    (hcompile : p.compile names = .ok c) (hshort : c.code.size < 2 ^ 31) (hloops : p.LoopsKeep) :
    ∃ (address : Nat → Nat) (L : Nat → Facts), p.Noted c address L ∧
      ∀ (s : Settings) (input : Text) (steps : Nat) (m : Machine),
        ((Machine.idle #[]).start input).runFor c s steps = (none, m) →
        ∃ o : Nat, m.next = o ∧ (L o).Describes m.values := by
  obtain ⟨address, -, hplaced, hknown, -⟩ := Program.placed_of_compile hcompile hshort
  obtain ⟨address', H, hH⟩ := Program.exists_heights hcompile hshort
  obtain ⟨L, hnoted, hstart, hcarries⟩ := hplaced.exists_table hloops
  refine ⟨address, L, hnoted, fun s input steps m hrun => ?_⟩
  have hc := hplaced.agrees_boundary hknown (hH.agrees hshort s)
  have hfits := Snapshot.fits_start (H := H.restrict c.Boundary) ⟨⟨hH.start.1, .start⟩, hH.start.2⟩
  obtain ⟨x, hm, hx, hinformed⟩ := (hfits _ input).informed_run hc
    (fun o i ho hi => hcarries o i ho.2 hi) (Snapshot.shows_start input)
    (Snapshot.informed_start hstart input) hrun
  obtain ⟨f, fs, hframes, -⟩ := hx.frame
  refine ⟨x.next, hm.next, Snapshot.values_of_informed hm ?_ hinformed⟩
  rw [hframes]
  exact List.cons_ne_nil f fs

/-- A function that is called in a loop. -/
def chant : Program :=
  let name : Ident := ⟨"CHANT", .zero⟩
  let param : Ident := ⟨"X", .zero⟩
  let label : Ident := ⟨"VERSES", .zero⟩
  let counter : Ident := ⟨"I", .zero⟩
  ⟨.zero, "1.2", .mk .zero
    [.define .zero name [param] (.mk .zero [.ret .zero (.var .zero param)]),
      .loop .zero label label
        (some ⟨.up, counter, .untilTrue (.binary .zero .equal (.var .zero counter) (.int .zero 2))⟩)
        (.mk .zero [.print .zero [.call .zero name [.var .zero counter]] true])]⟩

theorem holds_recorded_chant :
    ∃ c, chant.compile ⟨#[]⟩ = .ok c ∧ c.code.size = 48 ∧ chant.LoopsKeep ∧
      ∃ (address : Nat → Nat) (L : Nat → Facts), chant.Noted c address L ∧
        ∀ (s : Settings) (input : Text) (steps : Nat) (m : Machine),
          ((Machine.idle #[]).start input).runFor c s steps = (none, m) →
          ∃ o : Nat, m.next = o ∧ (L o).Describes m.values := by
  have hloops : chant.LoopsKeep := fun _ => ⟨⟨trivial, trivial⟩, ⟨rfl, trivial, trivial⟩, trivial⟩
  obtain ⟨c, hcompile, hc⟩ : ∃ c, chant.compile ⟨#[]⟩ = .ok c ∧ decide (c.code.size = 48) = true :=
    exists_of_toOption_any (by decide +kernel)
  have hsize := of_decide_eq_true hc
  exact ⟨c, hcompile, hsize, hloops, chant.holds_recorded ⟨#[]⟩ c hcompile (by omega) hloops⟩

end Program

/-- A loop that defines `h`, which calls `f`, and then gives `f` another function. -/
def rebindingLoop : String :=
  "HAI 1.2\nHOW IZ I f\nFOUND YR 1\nIF U SAY SO\nHOW IZ I g\nFOUND YR 2\nIF U SAY SO\nIM IN YR l UPPIN YR i TIL BOTH SAEM i AN 2\nHOW IZ I h\nFOUND YR I IZ f MKAY\nIF U SAY SO\nVISIBLE I IZ h MKAY\nf R g\nIM OUTTA YR l\nKTHXBYE\n"

attribute [local instance] CharNames.common

set_option maxRecDepth 2000 in
/-- The function of a name and the value of its variable come apart: in the second pass of the loop
the variable of `f` holds the second function when `h` is defined, but in `h` the name `f` is the
first function, by the constant at 0x2C. -/
theorem loop_parts_name_from_variable :
    ∃ c, compileSource 0 rebindingLoop true = .ok c ∧
      (c.fetch 0x2C).toOption = some ⟨.loadConst, 1⟩ ∧ c.pool.get? 1 = some (.funkshon 0x05) ∧
      (∃ m, ((Machine.idle #[]).start []).runFor c {} 10 = (none, m) ∧ m.next = 0x25 ∧
        m.base = 1 ∧ m.stack.get? 1 = some (.funkshon 0x05)) ∧
      (∃ m, ((Machine.idle #[]).start []).runFor c {} 33 = (none, m) ∧ m.next = 0x25 ∧
        m.base = 1 ∧ m.stack.get? 1 = some (.funkshon 0x11)) ∧
      ∃ m, ((Machine.idle #[]).start []).runFor c {} 60 = (some .halted, m) ∧
        m.output = (Text.ofString "1\n1\n").toArray := by
  obtain ⟨c, hcompile, hc⟩ : ∃ c, compileSource 0 rebindingLoop true = .ok c ∧
      decide ((c.fetch 0x2C).toOption = some ⟨Opcode.loadConst, 1⟩ ∧
        c.pool.get? 1 = some (Value.funkshon 0x05) ∧
        ((((Machine.idle #[]).start []).runFor c {} 10).1 = none ∧
          (((Machine.idle #[]).start []).runFor c {} 10).2.next = 0x25 ∧
          (((Machine.idle #[]).start []).runFor c {} 10).2.base = 1 ∧
          (((Machine.idle #[]).start []).runFor c {} 10).2.stack.get? 1 =
            some (Value.funkshon 0x05)) ∧
        ((((Machine.idle #[]).start []).runFor c {} 33).1 = none ∧
          (((Machine.idle #[]).start []).runFor c {} 33).2.next = 0x25 ∧
          (((Machine.idle #[]).start []).runFor c {} 33).2.base = 1 ∧
          (((Machine.idle #[]).start []).runFor c {} 33).2.stack.get? 1 =
            some (Value.funkshon 0x11)) ∧
        (((Machine.idle #[]).start []).runFor c {} 60).1 = some Ending.halted ∧
        (((Machine.idle #[]).start []).runFor c {} 60).2.output =
          (Text.ofString "1\n1\n").toArray) = true :=
    exists_compileSource _ (by decide +kernel)
  obtain ⟨hfetch, hget, ⟨hfirst, hfirst'⟩, ⟨hsecond, hsecond'⟩, hend, hout⟩ := of_decide_eq_true hc
  exact ⟨c, hcompile, hfetch, hget, ⟨_, Prod.ext hfirst rfl, hfirst'⟩,
    ⟨_, Prod.ext hsecond rfl, hsecond'⟩, _, Prod.ext hend rfl, hout⟩

end LolToolchain
