import LolToolchain.Proofs.Code.Safety
import LolToolchain.Proofs.Machine.Transfer
import LolToolchain.Text.CommonNames

/-!
Where the diagnostics of a source text point: into the text, whether they come from its lexemes, its
grammar, the compiler or a run. A run is reported at the instruction at hand, and each byte of the
code has a span of the text. Only the fault of an ellipsis that ends the text points behind it.
-/
namespace LolToolchain

variable {file : Int} {text : Text} {optimize : Bool} {c : Chunk} {d : Diagnostic}

/-- What a source text cannot be compiled for is in the text, or it is an ellipsis at its end. -/
theorem located_of_compileSource [CharNames] (h : compileSource file text optimize = .error d) :
    d.Located file text.length := by
  rw [compileSource] at h
  cases hparse : Program.parse file text with
  | error d' =>
    rw [hparse] at h
    cases h
    exact Program.located_of_parse hparse
  | ok p =>
    rw [hparse] at h
    have hmeets := (Program.meets_of_parse hparse).mono (Criteria.implies_relaxed _)
    cases optimize with
    | false => exact .inl (hmeets.points h)
    | true => exact .inl ((hmeets.simplify fun _ => trivial).points h)

/-- The span of a byte of the code is one of the program. -/
private theorem Chunk.Contents.spanAt {k : Criteria} (h : c.Contents k) {i : Int} (hi : 0 ≤ i)
    (hlt : i < c.code.size) : k.span (c.spanAt i) := by
  have haligned := h.aligned
  have hinside : i.toNat < c.positions.size := by omega
  rw [Chunk.spanAt, if_neg (Int.not_lt.2 hi), Array.getD, dif_pos hinside]
  exact h.spans _ (Array.mem_toList_iff.2 (Array.getElem_mem _))

/-- A fault of a run is reported at a span, or without one. -/
private theorem Fault.eq_new_of_mem {f : Fault} {span : Span} (h : d ∈ (f.failure span).diagnostics) :
    ∃ kind message, d = .new kind span message := by
  cases f with
  | output | input => cases h
  | _ => exact ⟨_, _, List.mem_singleton.1 h⟩

/-- In a run from a fit state the instruction at hand is in the code. -/
private theorem Snapshot.Fits.current_run {l : Linked} {H : Heights} {s : Settings} (hc : c.Agrees l H) :
    ∀ {n : Nat} {x : Snapshot} {m m' : Machine} {e : Option Ending}, x.Fits l H → m.Shows x →
      0 ≤ m.current ∧ m.current < c.code.size → m.runFor c s n = (e, m') →
      0 ≤ m'.current ∧ m'.current < c.code.size
  | 0, _, _, _, _, _, _, hcurrent, h => by
    cases h
    exact hcurrent
  | n + 1, x, m, m', e, hx, hm, hcurrent, h => by
    have hstep : 0 ≤ (m.step c s).2.current ∧ (m.step c s).2.current < c.code.size := by
      rcases m.current_of_step c s with heq | ⟨hlt, heq⟩
      · rwa [heq]
      · rw [heq]
        exact ⟨hm.next ▸ Int.natCast_nonneg _, hlt⟩
    rw [Machine.runFor] at h
    cases hrun : m.step c s with
    | mk r m₁ =>
      rw [hrun] at h hstep
      cases r with
      | error e =>
        cases h
        exact hstep
      | ok u =>
        obtain ⟨y, hm₁, hy, -⟩ := hx.step hc hm hrun
        exact Snapshot.Fits.current_run hc hy hm₁ hstep h

/-- What a run of a source text fails for is in the text. -/
private theorem points_of_run [CharNames] (hcompile : compileSource file text optimize = .ok c)
    (hshort : c.code.size < 2 ^ 31) {s : Settings} {input : Text} {steps : Nat}
    {ending : Option Ending} {m : Machine} {f : Failure}
    (hrun : ((Machine.idle #[]).start input).runFor c s steps = (ending, m))
    (hfailure : m.failure? c ending = some f) (hd : d ∈ f.diagnostics) :
    d.Points (Span.Within file text.length) := by
  obtain ⟨p, hmeets, hp⟩ := exists_program_of_compileSource hcompile
  obtain ⟨address, H, hH⟩ := Program.exists_heights hp hshort
  obtain ⟨x, hm, hx⟩ := hH.fits_start ⟨s, p.functions address, address⟩ input
  have hagrees := hH.agrees hshort s
  have hstart : (0 : Int) < c.code.size := by
    obtain ⟨i, hfetch, -⟩ := hagrees.checks _ hH.start.1
    have hlen := Chunk.length_le_of_fetch hfetch
    rw [Opcode.length] at hlen
    omega
  obtain ⟨hnonneg, hlt⟩ := hx.current_run hagrees hm ⟨Int.le_refl 0, hstart⟩ hrun
  have hspan : Span.Within file text.length (c.spanAt m.current) :=
    (hmeets.contents hp).spanAt hnonneg hlt
  cases ending with
  | none =>
    cases hfailure
    cases hd
  | some e =>
    cases e with
    | halted => cases hfailure
    | failed fault =>
      cases hfailure
      obtain ⟨kind, message, rfl⟩ := Fault.eq_new_of_mem hd
      exact Diagnostic.points_new hspan

/-- The diagnostics of a source text: those of its lexemes, that of its compilation, and those of the
runs of its chunk on an input. -/
inductive Diagnosed [CharNames] (file : Int) (text : Text) (optimize : Bool) (s : Settings)
    (input : Text) : Diagnostic → Prop
  | lexing (d : Diagnostic) (hd : .error d ∈ Token.items file text) :
    Diagnosed file text optimize s input d
  | compiling (d : Diagnostic) (hd : compileSource file text optimize = .error d) :
    Diagnosed file text optimize s input d
  | running (c : Chunk) (steps : Nat) (ending : Option Ending) (m : Machine) (f : Failure)
    (d : Diagnostic) (hc : compileSource file text optimize = .ok c)
    (hrun : ((Machine.idle #[]).start input).runFor c s steps = (ending, m))
    (hf : m.failure? c ending = some f) (hd : d ∈ f.diagnostics) :
    Diagnosed file text optimize s input d

/-- Diagnostics point into the source, with all their notes, but for one: an ellipsis that ends the
text is reported at the byte behind the last. -/
theorem points_of_diagnosed [CharNames] {s : Settings} {input : Text}
    (hshort : ∀ c, compileSource file text optimize = .ok c → c.code.size < 2 ^ 31)
    (h : Diagnosed file text optimize s input d) :
    d.Points (Span.Within file text.length) ∨
      d = LexFault.noBreakAfterEllipsis.toDiagnostic ⟨text.length, text.length + 1, file⟩ := by
  cases h with
  | lexing d hd => exact Token.located_items hd
  | compiling d hd => exact located_of_compileSource hd
  | running c steps ending m f d hc hrun hf hd =>
    exact .inl (points_of_run hc (hshort c hc) hrun hf hd)

attribute [local instance] CharNames.common

/-- A run that fails is reported at the instruction that failed. -/
theorem points_of_diagnosed_quotient :
    ∃ c m d, compileSource 3 "HAI 1.2\nVISIBLE QUOSHUNT OF 7 AN 0\nKTHXBYE" true = .ok c ∧
      c.code.size = 8 ∧
      ((Machine.idle #[]).start []).runFor c {} 3 = (some (.failed .divisionByZero), m) ∧
      m.failure? c (some (.failed .divisionByZero)) = some (.single d) ∧ d.span = ⟨16, 34, 3⟩ ∧
      (d.Points (Span.Within 3 42) ∨
        d = LexFault.noBreakAfterEllipsis.toDiagnostic ⟨42, 43, 3⟩) := by
  obtain ⟨c, hcompile, hc⟩ : ∃ c,
      compileSource 3 "HAI 1.2\nVISIBLE QUOSHUNT OF 7 AN 0\nKTHXBYE" true = .ok c ∧
      decide (c.code.size = 8 ∧
        (((Machine.idle #[]).start []).runFor c {} 3).1 = some (.failed .divisionByZero) ∧
        c.spanAt (((Machine.idle #[]).start []).runFor c {} 3).2.current = ⟨16, 34, 3⟩) = true :=
    exists_compileSource _ (by decide +kernel)
  obtain ⟨hsize, hfails, hspan⟩ := of_decide_eq_true hc
  cases hrun : ((Machine.idle #[]).start []).runFor c {} 3 with
  | mk ending m =>
    rw [hrun] at hfails hspan
    obtain rfl : ending = some (.failed .divisionByZero) := hfails
    refine ⟨c, m, _, hcompile, hsize, hrun, rfl, hspan, ?_⟩
    have hd : Diagnosed 3 "HAI 1.2\nVISIBLE QUOSHUNT OF 7 AN 0\nKTHXBYE" true {} []
        (.new .runtime (c.spanAt m.current) "division by zero") :=
      .running c 3 _ m _ _ hcompile hrun rfl (List.mem_singleton_self _)
    refine points_of_diagnosed (fun c' hc' => ?_) hd
    rw [hcompile] at hc'
    cases hc'
    omega

/-- An ellipsis that ends a text of 21 bytes is reported at a byte that is not there. -/
theorem ellipsis_points_behind :
    List.length (α := UInt8) (Text.ofString "HAI 1.2\nVISIBLE 1 ...") = 21 ∧
      ∃ d, compileSource 0 "HAI 1.2\nVISIBLE 1 ..." true = .error d ∧ d.span = ⟨21, 22, 0⟩ ∧
        ¬d.Points (Span.Within 0 21) := by
  have hcompile : compileSource 0 "HAI 1.2\nVISIBLE 1 ..." true =
      .error (LexFault.noBreakAfterEllipsis.toDiagnostic ⟨21, 22, 0⟩) := by
    rw [compileSource_eq]
    exact eq_error_of_failure? (by decide +kernel)
  refine ⟨by decide +kernel, _, hcompile, rfl, fun h => ?_⟩
  have hstop : (22 : Int) ≤ 21 := h.span.stop
  omega

end LolToolchain
