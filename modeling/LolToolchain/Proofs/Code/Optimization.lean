import LolToolchain.Proofs.Code.Decoding
import LolToolchain.Proofs.Code.Isolation
import LolToolchain.Proofs.Evaluation.Equivalence
import LolToolchain.Proofs.Token.Items
import Mathlib.Data.Fintype.Order
import LolToolchain.Text.CommonNames

/-!
A program whose comparisons are folded runs like the program as it is written, if all comparisons that
are folded are those of `NUMBR`s and the functions keep their places in the code. A function value shows
its place when it is printed, so functions that move are seen to differ.
-/
namespace LolToolchain

/-- Numbers in order are known by which ones they are. -/
theorem eq_of_ordered {f g : Nat → Nat} {n : Nat} (hf : ∀ i j, i < j → j < n → f i < f j)
    (hg : ∀ i j, i < j → j < n → g i < g j) (h : ∀ a, (∃ i < n, a = f i) ↔ ∃ i < n, a = g i) :
    ∀ i < n, f i = g i := by
  have hmono {f : Nat → Nat} (hf : ∀ i j, i < j → j < n → f i < f j) :
      StrictMono fun i : Fin n => f i := fun i j hij => hf i j hij j.isLt
  have hrange {f : Nat → Nat} (a : Nat) :
      a ∈ Set.range (fun i : Fin n => f i) ↔ ∃ i < n, a = f i :=
    ⟨fun ⟨i, hi⟩ => ⟨i, i.isLt, hi.symm⟩, fun ⟨i, hlt, hi⟩ => ⟨⟨i, hlt⟩, hi.symm⟩⟩
  have heq := ((hmono hf).range_inj (hmono hg)).1
    (Set.ext fun a => (hrange a).trans ((h a).trans (hrange a).symm))
  exact fun i hi => congrFun heq ⟨i, hi⟩

private theorem functionValue_injective {a b : Nat} (ha : a < 2 ^ 31) (hb : b < 2 ^ 31)
    (h : functionValue a = functionValue b) : a = b := by
  have hoffset := congrArg Int64.toInt (Value.funkshon.inj h)
  rw [Int64.toInt_ofNat_of_lt (by omega), Int64.toInt_ofNat_of_lt (by omega)] at hoffset
  exact Int.ofNat.inj hoffset

namespace Program

/-- The code of a program stands in a chunk, with the addresses of its functions in the order of their
definitions, and no other functions are among the constants. -/
structure Stands (p : Program) (c : Chunk) (address : Nat → Nat) : Prop where
  short : c.code.size < 2 ^ 31
  ordered : ∀ i j, i < j → j < Stmt.definitionsAll p.body.stmts → address i < address j
  placed : p.Placed c address
  known : ∀ x ∈ c.pool.constants.toList,
    x.value.KnownFunction address (Stmt.definitionsAll p.body.stmts)
  beyond : ∀ i, Stmt.definitionsAll p.body.stmts ≤ i → address i = 0

namespace Stands

variable {p q : Program} {c c' : Chunk} {address address' : Nat → Nat}

theorem of_compile {names : NameTable} (h : p.compile names = .ok c)
    (hshort : c.code.size < 2 ^ 31) : ∃ address, p.Stands c address := by
  obtain ⟨address, hordered, hplaced, hknown, -, hbeyond⟩ := placed_of_compile h hshort
  exact ⟨address, hshort, hordered, hplaced, hknown, hbeyond⟩

/-- The functions of a program stand in its code, and their values are among the constants. -/
private theorem hasFunction (h : p.Stands c address) {i : Nat} (hi : i < Stmt.definitionsAll p.body.stmts) :
    address i < 2 ^ 31 ∧ c.HasFunction (address i) := by
  obtain ⟨f, hf, haddress⟩ : ∃ f ∈ p.functions address, f.address = address i :=
    Stmt.exists_functionAll p.body.stmts (Nat.zero_le i) (by rwa [Nat.zero_add])
  obtain ⟨m, hbody, -⟩ := h.placed
  obtain ⟨k, hk⟩ := (Stmt.functionsAll_stand p.body.stmts hbody f hf).constant
  obtain ⟨x, hx, hvalue⟩ := Option.map_eq_some_iff.1 hk
  have hinside := Chunk.length_le_of_fetch (h.placed.marker hf).2
  have hlength := Chunk.lt_length f.address .fnDef
  have hshort := h.short
  rw [haddress] at hinside hlength hvalue
  exact ⟨by omega, x, Array.mem_toList_iff.2 (Array.mem_of_getElem? hx), hvalue⟩

private theorem hasFunction_iff (h : p.Stands c address) {a : Nat} :
    a < 2 ^ 31 ∧ c.HasFunction a ↔ ∃ i < Stmt.definitionsAll p.body.stmts, a = address i := by
  constructor
  · rintro ⟨ha, x, hx, hvalue⟩
    obtain ⟨i, hi, hfunction⟩ := h.known x hx _ hvalue
    exact ⟨i, hi, functionValue_injective ha (h.hasFunction hi).1 (hvalue.symm.trans hfunction)⟩
  · rintro ⟨i, hi, rfl⟩
    exact h.hasFunction hi

/-- Programs with the same number of definitions have the same addresses if their functions stand at the
same places. -/
theorem address_eq (h : p.Stands c address) (h' : q.Stands c' address')
    (htotal : Stmt.definitionsAll p.body.stmts = Stmt.definitionsAll q.body.stmts)
    (hplaces : ∀ a, c.HasFunction a ↔ c'.HasFunction a) : address = address' := by
  have hfunctions (a : Nat) : (∃ i < Stmt.definitionsAll p.body.stmts, a = address i) ↔
      ∃ i < Stmt.definitionsAll p.body.stmts, a = address' i := by
    rw [← h.hasFunction_iff, htotal, ← h'.hasFunction_iff, hplaces]
  have hordered := h'.ordered
  rw [← htotal] at hordered
  funext i
  rcases Nat.lt_or_ge i (Stmt.definitionsAll p.body.stmts) with hi | hi
  · exact eq_of_ordered h.ordered hordered hfunctions i hi
  · rw [h.beyond i hi, h'.beyond i (htotal ▸ hi)]

/-- A run of the code is seen to do what the program says. -/
theorem observe (h : p.Stands c address) {s : Settings} (hquiet : s.tracing = false) (input : Text)
    {fuel n : Nat} (hle : n ≤ fuel) :
    Machine.observe c (((Machine.idle #[]).start input).runFor c s n) =
      p.observeWith address s fuel input n :=
  observeWith_of_placed h.placed hquiet h.short input hle (p.known_observeWith address s fuel input n)

end Stands

end Program

/-- What is seen of a run after each number of steps. -/
def Chunk.watch (c : Chunk) (s : Settings) (input : Text) (n : Nat) : Observation :=
  Machine.observe c (((Machine.idle #[]).start input).runFor c s n)

/-- A run of the machine does not get stuck. -/
private theorem Ending.finish_ne_stuck (c : Chunk) (current : Int) (e : Ending) :
    e.finish c current ≠ .stuck := by
  unfold finish
  split
  · split <;> exact nofun
  · exact nofun

private theorem Chunk.watch_ne_stuck (c : Chunk) (s : Settings) (input : Text) (n : Nat) :
    (c.watch s input n).ending ≠ some .stuck := by
  intro h
  obtain ⟨e, -, he⟩ := Option.map_eq_some_iff.1 h
  exact e.finish_ne_stuck c _ he

/-- The same is seen of two runs, each time after some number of steps, but for the places of faults. -/
def SeenAlike (o o' : Nat → Observation) : Prop :=
  ∀ x, (∃ n, (o n).unspanned = x) ↔ ∃ n, (o' n).unspanned = x

/-- If the same is seen of two runs, either both come to an end or neither does. -/
private theorem SeenAlike.forever {o o' : Nat → Observation} (h : SeenAlike o o') :
    (∀ n, (o n).ending = none) ↔ ∀ n, (o' n).ending = none := by
  have hone {o o' : Nat → Observation} (h : ∀ n, ∃ k, (o k).unspanned = (o' n).unspanned)
      (hforever : ∀ n, (o n).ending = none) (n : Nat) : (o' n).ending = none := by
    obtain ⟨k, hk⟩ := h n
    have hending := congrArg Observation.ending hk
    simp only [Observation.unspanned, hforever k, Option.map_none] at hending
    exact Option.map_eq_none_iff.1 hending.symm
  exact ⟨hone fun n => (h _).2 ⟨n, rfl⟩, hone fun n => (h _).1 ⟨n, rfl⟩⟩

/-- What is seen of one of the two versions of a program is seen of the other one. -/
private theorem Program.exists_watch_of_stands {p : Program} {ns : List Text} {c c' : Chunk}
    {address : Nat → Nat} {b : Bool} {s : Settings} (hnumbrs : p.foldsNumbrs ns = true)
    (h : (p.folded b).Stands c address) (h' : (p.folded !b).Stands c' address)
    (hquiet : s.tracing = false) (input : Text) (n : Nat) :
    ∃ k, (c'.watch s input k).unspanned = (c.watch s input n).unspanned := by
  have hwatch : c.watch s input n = (p.folded b).observe address s input n :=
    h.observe hquiet input (Nat.le_refl n)
  obtain ⟨fuel, k, hle, hseen⟩ := p.observe_folded hnumbrs b input n
    (hwatch ▸ c.watch_ne_stuck s input n)
  have hwatch' : c'.watch s input k = (p.folded !b).observeWith address s fuel input k :=
    h'.observe hquiet input hle
  rw [← hwatch, ← hwatch'] at hseen
  exact ⟨k, hseen.resolve_left (c'.watch_ne_stuck s input k)⟩

/-- Optimization does not change what a program does, as long as all comparisons that are folded are seen
to be those of `NUMBR`s and the functions keep their places: the same is seen of both runs, which is what
has been printed, what is left of the input, and how the run has ended if it has. Either both runs go on
forever or neither. The places in the text that faults point to may differ. -/
theorem optimized_seenAlike [CharNames] {file : Int} {text : Text} {p : Program} {ns : List Text}
    {c c' : Chunk} (hparse : Program.parse file text = .ok p) (hnumbrs : p.foldsNumbrs ns = true)
    (hplain : compileSource file text false = .ok c) (hfolded : compileSource file text true = .ok c')
    (hshort : c.code.size < 2 ^ 31) (hshort' : c'.code.size < 2 ^ 31)
    (hplaces : ∀ a, c.HasFunction a ↔ c'.HasFunction a) (s : Settings) (hquiet : s.tracing = false)
    (input : Text) :
    SeenAlike (c.watch s input) (c'.watch s input) ∧
      ((∀ n, (c.watch s input n).ending = none) ↔ ∀ n, (c'.watch s input n).ending = none) := by
  have hcompile (b : Bool) : compileSource file text b =
      (p.folded b).compile (NameTable.ofSource file text) := by
    unfold compileSource
    rw [hparse]
    cases b <;> rfl
  rw [hcompile] at hplain hfolded
  obtain ⟨address, h⟩ := Program.Stands.of_compile hplain hshort
  obtain ⟨address', h'⟩ := Program.Stands.of_compile hfolded hshort'
  have htotal : Stmt.definitionsAll (p.folded false).body.stmts =
      Stmt.definitionsAll (p.folded true).body.stmts := by
    rw [Program.stmts_folded, Program.stmts_folded, Stmt.definitionsAll_folded,
      Stmt.definitionsAll_folded]
  obtain rfl := h.address_eq h' htotal hplaces
  have hseen : SeenAlike (c.watch s input) (c'.watch s input) := by
    rintro x
    constructor
    · rintro ⟨n, rfl⟩
      exact Program.exists_watch_of_stands hnumbrs h h' hquiet input n
    · rintro ⟨n, rfl⟩
      exact Program.exists_watch_of_stands hnumbrs h' h hquiet input n
  exact ⟨hseen, hseen.forever⟩

/-- The functions among the constants. -/
def Chunk.functions (c : Chunk) : List Int64 :=
  c.pool.constants.toList.filterMap fun x => match x.value with
    | .funkshon offset => some offset
    | _ => none

private theorem Chunk.hasFunction_iff {c : Chunk} {a : Nat} : c.HasFunction a ↔ Int64.ofNat a ∈ c.functions := by
  rw [functions, List.mem_filterMap]
  refine exists_congr fun x => and_congr_right fun _ => ?_
  cases x.value <;> simp [functionValue]

/-- A loop that calls a function in each of its passes, whose test is folded. -/
def callingLoop : String :=
  "HAI 1.2\nHOW IZ I f YR x\nFOUND YR x\nIF U SAY SO\nIM IN YR l UPPIN YR i TIL BOTH SAEM i AN BIGGR OF i AN 3\nVISIBLE I IZ f YR i MKAY\nIM OUTTA YR l\nKTHXBYE\n"

attribute [local instance] CharNames.common

set_option maxRecDepth 1000 in
/-- A loop that calls a function in each of its passes, whose test is folded. -/
theorem optimized_seenAlike_count :
    ∃ (p : Program) (c c' : Chunk),
      Program.parse 0 callingLoop = .ok p ∧ p.foldsNumbrs ["i"] = true ∧
      c.code.size = 51 ∧ c'.code.size = 48 ∧ c.functions = [5] ∧ c'.functions = [5] ∧
      SeenAlike (c.watch {} []) (c'.watch {} []) ∧
      ((∀ n, (c.watch {} [] n).ending = none) ↔ ∀ n, (c'.watch {} [] n).ending = none) := by
  obtain ⟨p, hparse, hnumbrs⟩ : ∃ p, Program.parse 0 callingLoop = .ok p ∧
      Program.foldsNumbrs ["i"] p = true := exists_parse _ (by decide +kernel)
  have hcompile (b : Bool) : ∃ c, compileSource 0 callingLoop b = .ok c ∧
      decide (c.code.size = (if b then 48 else 51) ∧ c.functions = [5]) = true := by
    cases b <;> exact exists_compileSource _ (by decide +kernel)
  obtain ⟨c, hplain, hc⟩ := hcompile false
  obtain ⟨c', hfolded, hc'⟩ := hcompile true
  obtain ⟨hsize, hfunctions⟩ := of_decide_eq_true hc
  obtain ⟨hsize', hfunctions'⟩ := of_decide_eq_true hc'
  refine ⟨p, c, c', hparse, hnumbrs, hsize, hsize', hfunctions, hfunctions', ?_⟩
  refine optimized_seenAlike hparse hnumbrs hplain hfolded (hsize ▸ by decide) (hsize' ▸ by decide)
    (fun a => ?_) {} rfl []
  rw [Chunk.hasFunction_iff, Chunk.hasFunction_iff, hfunctions, hfunctions']

end LolToolchain
