import LolToolchain.Proofs.Code.Contents
import LolToolchain.Proofs.Code.Discipline
import LolToolchain.Proofs.Machine.Faults
import LolToolchain.Proofs.Program.Parsing
import LolToolchain.Proofs.Token.Items
import LolToolchain.Text.CommonNames

/-!
The code of a source text never makes the machine stop with a fault of the code itself. Its
instructions agree with heights, and its templates have their places in order, so each step fails at
most in a way that belongs to the language, or at a list that the program has put into itself.
-/
namespace LolToolchain

/-- The program behind the chunk of a source text. -/
theorem exists_program_of_compileSource [CharNames] {file : Int} {text : Text} {optimize : Bool}
    {c : Chunk} (h : compileSource file text optimize = .ok c) :
    ∃ p : Program, p.Meets (Criteria.source file text.length).relaxed ∧
      p.compile (NameTable.ofSource file text) = .ok c := by
  rw [compileSource] at h
  cases hparse : Program.parse file text with
  | error d =>
    rw [hparse] at h
    cases h
  | ok p =>
    rw [hparse] at h
    have hmeets := (Program.meets_of_parse hparse).mono (Criteria.implies_relaxed _)
    cases optimize with
    | false => exact ⟨p, hmeets, h⟩
    | true => exact ⟨p.simplify, hmeets.simplify fun _ => trivial, h⟩

private theorem Value.Written.literal {size : Nat} {v : Value} {allowed : Fault → Prop}
    (h : v.Written size) :
    v.Literal allowed := by
  cases v with
  | interp t =>
    cases t with
    | none => exact h.elim
    | some t => exact .inr h.2.1
  | _ => trivial

private theorem Value.literal_retag {v : Value} {allowed : Fault → Prop} (tag : Nat)
    (h : v.Literal allowed) : (v.retag tag).Literal allowed := by
  cases v with
  | interp t =>
    cases t with
    | none => trivial
    | some t => exact h
  | _ => trivial

/-- The templates of a chunk that is made from a source text have their places in order. -/
private theorem Chunk.Contents.literal {c : Chunk} {k : Criteria} (allowed : Fault → Prop)
    (h : c.Contents k) {size : Nat} (hk : ∀ v, k.literal v → v.Written size) (i : Nat) (v : Value)
    (hget : c.pool.get? i = some v) : v.Literal allowed := by
  obtain ⟨x, hx, rfl⟩ := Option.map_eq_some_iff.1 hget
  obtain ⟨w, tag, hw, hvalue⟩ := h.constants x (Array.mem_toList_iff.2 (Array.mem_of_getElem? hx))
  rw [hvalue]
  refine Value.literal_retag tag ?_
  rcases hw with hw | hw
  · exact (hk w hw).literal
  · cases w with
    | interp t => exact hw.elim
    | _ => trivial

/-- When the machine stops before the end of the code of a source text, whatever the settings and the
input and however long it has run, then with a fault of the language; else it has come to a text
without an end, and a list contains itself. -/
theorem runFor_compileSource [CharNames] {file : Int} {text : Text} {optimize : Bool} {c : Chunk}
    (hcompile : compileSource file text optimize = .ok c) (hshort : c.code.size < 2 ^ 31)
    (s : Settings) (input : Text) (steps : Nat) {f : Fault} {m : Machine}
    (hfails : ((Machine.idle #[]).start input).runFor c s steps = (some (.failed f), m)) :
    f.isOfLanguage = true ∨
      f = .endless ∧ ∃ r, Relation.TransGen (Heap.Contains m.heap) r r := by
  obtain ⟨p, hmeets, hp⟩ := exists_program_of_compileSource hcompile
  obtain ⟨address, H, hH⟩ := Program.exists_heights hp hshort
  obtain ⟨x, hm, hx⟩ := hH.fits_start ⟨s, p.functions address, address⟩ input
  have hlit := (hmeets.contents hp).literal (fun f => f.isInternal = false) (fun _ hv => hv)
  have hexternal : f.isInternal = false :=
    hx.run_failed (fun _ hf => hf) hlit (hH.agrees hshort s) hm hfails
  rcases f.isOfLanguage_or with hlanguage | rfl | hinternal
  · exact .inl hlanguage
  · exact .inr ⟨rfl, not_forall_not.1 (Machine.not_grounded_of_endless hfails)⟩
  · rw [hexternal] at hinternal
    cases hinternal

attribute [local instance] CharNames.common

/-- A program that fails in a way that belongs to the language. -/
theorem runFor_compileSource_quotient :
    ∃ c m, compileSource 0 "HAI 1.2\nVISIBLE QUOSHUNT OF 7 AN 0\nKTHXBYE" true = .ok c ∧
      c.code.size = 8 ∧
      ((Machine.idle #[]).start []).runFor c {} 3 = (some (.failed .divisionByZero), m) ∧
      (Fault.divisionByZero.isOfLanguage = true ∨ Fault.divisionByZero = .endless ∧
        ∃ r, Relation.TransGen (Heap.Contains m.heap) r r) := by
  obtain ⟨c, hcompile, hc⟩ : ∃ c,
      compileSource 0 "HAI 1.2\nVISIBLE QUOSHUNT OF 7 AN 0\nKTHXBYE" true = .ok c ∧
      decide (c.code.size = 8 ∧ (((Machine.idle #[]).start []).runFor c {} 3).1 =
        some (.failed .divisionByZero)) = true :=
    exists_compileSource _ (by decide +kernel)
  obtain ⟨hsize, hfails⟩ := of_decide_eq_true hc
  have hruns : ((Machine.idle #[]).start []).runFor c {} 3 =
      (some (.failed .divisionByZero), (((Machine.idle #[]).start []).runFor c {} 3).2) :=
    Prod.ext hfails rfl
  exact ⟨c, _, hcompile, hsize, hruns, runFor_compileSource hcompile (by omega) {} [] 3 hruns⟩

end LolToolchain
