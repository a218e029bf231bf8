import LolToolchain.Proofs.Machine.Faults

/-!
Steps that find no instruction. Each ends the run with a fault of its own, and the work of an
instruction never ends with one of these. So the fault of a step tells whether there was an
instruction at its place.
-/
namespace LolToolchain

open Effect

/-- The fault of a step that finds no instruction at an offset. -/
def FetchFault.stop (offset : Nat) : FetchFault → Fault
  | .outside => .pastEnd
  | .invalid b => .invalidOpcode b offset
  | .truncated op => .truncated op offset

variable {c : Chunk} {s : Settings} {m : Machine} {o : Nat}

private theorem FetchFault.not_ofWork_stop (f : FetchFault) (o : Nat) (heap : Heap) :
    ¬ (f.stop o).OfWork heap := by
  rintro (h | ⟨h, -⟩) <;> cases f <;> cases h

private theorem FetchFault.stop_injective {f g : FetchFault} (h : f.stop o = g.stop o) : f = g := by
  cases f <;> cases g <;> cases h <;> rfl

private theorem Chunk.fetch_of_size_le (h : c.code.size ≤ o) : c.fetch o = .error .outside := by
  rw [fetch, if_neg (by omega)]
  simp only [Int.toNat_natCast, Array.getElem?_eq_none h]

private theorem Chunk.fetch_ne_outside (h : o < c.code.size) : c.fetch o ≠ .error .outside := by
  rw [fetch, if_neg (by omega)]
  simp only [Int.toNat_natCast, Array.getElem?_eq_getElem h]
  split
  · nofun
  · split <;> nofun

/-- A step inside the code, if its trace can be written, is decided by what is fetched. -/
theorem Machine.step_of_lt (hm : m.next = o) (hin : o < c.code.size)
    (htrace : s.tracing = true → (Action.traceStep c m).1 = .ok ()) : ∃ m₁ : Machine,
      m.step c s = match c.fetch o with
        | .error f => (.error (.failed (f.stop o)), m₁)
        | .ok i => Action.execute c s (o + 1) i { m₁ with next := o + i.op.length } := by
  have hinside : ¬ (c.code.size : Int) ≤ o := by omega
  have hne := Chunk.fetch_ne_outside hin
  cases hbusy : s.tracing with
  | false =>
    refine ⟨{ m with current := o }, ?_⟩
    simp only [step, Action.step, run_bind, run_get, andThen_ok, hm, hinside, if_false, hbusy,
      Bool.false_eq_true, run_modify, Int.toNat_natCast]
    cases hfetch : c.fetch o with
    | ok i => rfl
    | error f =>
      cases f with
      | outside => exact absurd hfetch hne
      | _ => rfl
  | true =>
    obtain ⟨trace, hrun | ⟨f, hrun⟩⟩ := Action.traceStep_cases c m
    · refine ⟨{ m with trace, current := o }, ?_⟩
      simp only [step, Action.step, run_bind, run_get, andThen_ok, hm, hinside, if_false, hbusy,
        if_true, hrun, run_modify, Int.toNat_natCast]
      cases hfetch : c.fetch o with
      | ok i => rfl
      | error f =>
        cases f with
        | outside => exact absurd hfetch hne
        | _ => rfl
    · have htraced := htrace hbusy
      rw [hrun] at htraced
      cases htraced

/-- A step ends with the fault of finding no instruction if there is none at its place, and only
then. The trace, where one is written, must have a text for what it shows. -/
theorem Machine.step_error_iff (hm : m.next = o)
    (htrace : s.tracing = true → (Action.traceStep c m).1 = .ok ()) (f : FetchFault) :
    (m.step c s).1 = .error (.failed (f.stop o)) ↔ c.fetch o = .error f := by
  rcases Nat.lt_or_ge o c.code.size with hin | hout
  · obtain ⟨m₁, hstep⟩ := step_of_lt hm hin htrace
    rw [hstep]
    cases hfetch : c.fetch o with
    | error g =>
      constructor
      · intro h
        cases FetchFault.stop_injective (Ending.failed.inj (Except.error.inj h))
        rfl
      · rintro ⟨⟩
        rfl
    | ok i =>
      refine iff_of_false (fun h => ?_) nofun
      exact f.not_ofWork_stop o _ (Action.works_execute c s (o + 1) i _ _ h)
  · have hstep : (m.step c s).1 = .error (.failed .pastEnd) := by
      have hout' : (c.code.size : Int) ≤ o := by omega
      simp only [step, Action.step, run_bind, run_get, andThen_ok, hm, hout', if_true,
        Action.run_fail, andThen_error]
    rw [hstep, Chunk.fetch_of_size_le hout]
    constructor
    · intro h
      have hstop : FetchFault.outside.stop o = f.stop o := Ending.failed.inj (Except.error.inj h)
      rw [FetchFault.stop_injective hstop]
    · rintro ⟨⟩
      rfl

end LolToolchain
