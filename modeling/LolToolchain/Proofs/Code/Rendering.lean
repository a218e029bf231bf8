import LolToolchain.Proofs.Code.Safety
import LolToolchain.Proofs.Machine.Knots
import LolToolchain.Text.CommonNames

/-!
Which values of a run have texts. The constants of a source text are whole and bring no lists, so a
run begins with no list at all; what is then needed is that no list is ever stored, directly or
inside of others, in itself. Nothing in the language keeps a program from doing that.
-/
namespace LolToolchain

variable {file : Int} {text : Text} {optimize : Bool} {c : Chunk}

namespace Machine

/-- A value of a state: on the stack, in the implicit variable of a call, or in a list. -/
inductive Has (m : Machine) (v : Value) : Prop where
  | stack (h : v ∈ m.stack.toList)
  | implicit (h : v = m.implicit)
  | saved (f : Frame) (hf : f ∈ m.frames) (h : v = f.saved)
  | element (elems : Array Value) (helems : elems ∈ m.heap) (h : v ∈ elems)

/-- No list of a state contains itself, directly or through others, and each of its values has a text
to print and one to list. -/
structure Printable (m : Machine) : Prop where
  grounded : Heap.Grounded m.heap
  render : ∀ v, m.Has v → ∃ t, v.render m.heap = .ok t
  inspect : ∀ v, m.Has v → ∃ t, v.inspect m.heap = .ok t

variable {m : Machine}

theorem Sound.whole (h : m.Sound) {v : Value} (hv : m.Has v) : v.Whole m.heap.size := by
  cases hv with
  | stack hv => exact h.cells v (Array.mem_toList_iff.1 (List.mem_of_mem_take hv))
  | implicit hv => exact hv ▸ h.implicit
  | saved f hf hv => exact hv ▸ h.saved f hf
  | element elems helems hv => exact h.heap elems helems v hv

private theorem Sound.printable (h : m.Sound) : m.Printable where
  grounded := h.grounded
  render := fun _ hv => h.grounded.exists_render h.heap (h.whole hv)
  inspect := fun _ hv => h.grounded.exists_inspect h.heap (h.whole hv)

theorem sound_start (input : Text) : ((idle #[]).start input).Sound where
  cells := fun v hv => by
    obtain rfl : v = .noob := Array.mem_singleton.1 hv
    trivial
  implicit := trivial
  saved := fun f hf => by
    obtain rfl : f = ⟨0, 1, .noob⟩ := List.mem_singleton.1 hf
    trivial
  heap := nofun
  grounded := Heap.grounded_empty

end Machine

/-- The constants of a source text are whole, and none of them is a list. -/
private theorem whole_of_compileSource [CharNames] (h : compileSource file text optimize = .ok c) {i : Nat}
    {v : Value} (hget : c.pool.get? i = some v) : v.Whole 0 := by
  obtain ⟨p, hmeets, hp⟩ := exists_program_of_compileSource h
  obtain ⟨x, hx, rfl⟩ := Option.map_eq_some_iff.1 hget
  obtain ⟨w, tag, hw, hvalue⟩ :=
    (hmeets.contents hp).constants x (Array.mem_toList_iff.2 (Array.mem_of_getElem? hx))
  rw [hvalue]
  have hwritten : w.Written text.length ∨ w.Made := hw
  cases w with
  | interp t =>
    cases t with
    | none => exact hwritten.elim False.elim False.elim
    | some t => rfl
  | bukkit r => exact hwritten.elim False.elim False.elim
  | _ => trivial

/-- In a run of a source text all values have had texts so far, and no list has contained itself,
exactly when no step has stored a value in a list that can be reached from it. -/
theorem printable_iff_untied [CharNames] (hcompile : compileSource file text optimize = .ok c)
    (s : Settings) (input : Text) (n : Nat) :
    (∀ k ≤ n, (((Machine.idle #[]).start input).runFor c s k).2.Printable) ↔
      ((Machine.idle #[]).start input).Untied c s n := by
  have hsound : ∀ {k}, ((Machine.idle #[]).start input).Untied c s k →
      (((Machine.idle #[]).start input).runFor c s k).2.Sound :=
    (Machine.sound_start input).runFor fun _ _ => whole_of_compileSource hcompile
  constructor
  · intro hprintable
    -- the states are sound one after the other: a knot would show in the next one
    have huntied : ∀ k ≤ n, ((Machine.idle #[]).start input).Untied c s k := by
      intro k
      induction k with
      | zero => exact fun _ _ hk => absurd hk (Nat.not_lt_zero _)
      | succ k ih =>
        intro hle j hj m₁ m₂ hm₁ hm₂ hknots
        rcases Nat.lt_succ_iff_lt_or_eq.1 hj with hlt | rfl
        · exact ih (Nat.le_of_succ_le hle) j hlt m₁ m₂ hm₁ hm₂ hknots
        · have hm₁sound := hsound (ih (Nat.le_of_succ_le hle))
          rw [hm₁] at hm₁sound
          have hnext := (hprintable (j + 1) hle).grounded
          rw [Machine.runFor_succ hm₁, hm₂] at hnext
          exact hm₁sound.not_grounded_of_knots hknots hm₂ hnext
    exact huntied n (Nat.le_refl n)
  · intro huntied k hk
    exact (hsound fun j hj => huntied j (Nat.lt_of_lt_of_le hj hk)).printable

attribute [local instance] CharNames.common

/-- A list is put in another one. -/
def nestedLists : String :=
  "HAI 1.2\nI HAS A x ITZ A BUKKIT\nI HAS A y ITZ A BUKKIT\nPUT x IN MAH y\nVISIBLE y\nKTHXBYE"

/-- A list is put in another one, and both can be printed all the time. -/
theorem printable_iff_untied_nested :
    ∃ c, compileSource 0 nestedLists true = .ok c ∧
      ∀ k ≤ 9, (((Machine.idle #[]).start []).runFor c {} k).2.Printable := by
  obtain ⟨c, hcompile, hc⟩ : ∃ c, compileSource 0 nestedLists true = .ok c ∧
      decide ((∀ k : Nat, k < 9 → k = 4 ∨
          ((c.fetch (((Machine.idle #[]).start []).runFor c {} k).2.next).toOption.all fun i =>
            i.op != .append && i.op != .setIndex) = true) ∧
        (((Machine.idle #[]).start []).runFor c {} 4).2.heap = #[#[], #[]] ∧
        (((Machine.idle #[]).start []).runFor c {} 4).2.stack.toList =
          [Value.noob, Value.bukkit 0, Value.bukkit 1] ++ [Value.bukkit 1, Value.bukkit 0] ∧
        ((c.fetch (((Machine.idle #[]).start []).runFor c {} 4).2.next).toOption.any fun i =>
          i.op == .append) = true) = true :=
    exists_compileSource _ (by decide +kernel)
  obtain ⟨hothers, hheap, hstack, hfetch⟩ := of_decide_eq_true hc
  refine ⟨c, hcompile, (printable_iff_untied hcompile {} [] 9).2 ?_⟩
  rintro k hk m₁ m₂ hm₁ - ⟨i, r, v, hi, hputs, t, rfl, hpath⟩
  rcases hothers k hk with rfl | hop
  · rw [hm₁] at hheap hstack hfetch
    rw [hi] at hfetch
    have hop : i.op = .append := eq_of_beq hfetch
    rw [hop] at hputs
    obtain ⟨rfl, hv⟩ := hputs.unique ⟨_, hstack⟩
    cases hv
    rcases hpath.cases_head with h | ⟨b, ⟨elems, helems, hb⟩, -⟩
    · cases h
    · rw [hheap] at helems
      cases helems
      exact absurd hb (Array.not_mem_empty _)
  · rw [hm₁, hi] at hop
    rcases hputs.op_eq with heq | heq <;> simp [Except.toOption, heq] at hop

/-- A list is put in itself. -/
def knottedList : String :=
  "HAI 1.2\nI HAS A x ITZ A BUKKIT\nPUT x IN MAH x\nVISIBLE BOTH SAEM x AN PICK FRONT OUTTA x\nKTHXBYE\n"

/-- A list is put in itself. It has no text any more. -/
theorem list_contains_itself :
    ∃ c, compileSource 0 knottedList true = .ok c ∧
      ∃ m, ((Machine.idle #[]).start []).runFor c {} 4 = (none, m) ∧ m.Has (.bukkit 0) ∧
        Heap.Contains m.heap 0 0 ∧ (Value.bukkit 0).render m.heap = .error .endless := by
  obtain ⟨c, hcompile, hc⟩ : ∃ c, compileSource 0 knottedList true = .ok c ∧
      decide ((((Machine.idle #[]).start []).runFor c {} 4).1 = none ∧
        (((Machine.idle #[]).start []).runFor c {} 4).2.heap = #[#[.bukkit 0]] ∧
        .bukkit 0 ∈ (((Machine.idle #[]).start []).runFor c {} 4).2.stack.toList) = true :=
    exists_compileSource _ (by decide +kernel)
  obtain ⟨hruns, hheap, hstack⟩ := of_decide_eq_true hc
  refine ⟨c, hcompile, _, Prod.ext hruns rfl, .stack hstack, ?_, ?_⟩
  · rw [hheap]
    exact ⟨_, rfl, Array.mem_singleton.2 rfl⟩
  · rw [hheap]
    rfl

end LolToolchain
