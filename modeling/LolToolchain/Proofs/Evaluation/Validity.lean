import LolToolchain.Proofs.Evaluation.Basic
import LolToolchain.Proofs.Evaluation.Definitions

/-!
Values that a program can have: function values belong to functions of the program, and references
lead to lists. Operations on such values give such values, and they do not fail for a reason that
lies in the code instead of the program.
-/
namespace LolToolchain

namespace Fault

/-- Whether a fault is one of the language: a value of the wrong kind, a wrong number of arguments, a
division by zero, an index or a number out of range, too many calls, or a stream that fails. -/
def isOfLanguage : Fault → Bool
  | .notNumbr _ | .notNumbar _ | .notNumber _ | .notBukkit _ | .notIndexable _ | .notStorable _
  | .notAppendable _ | .noLength _ | .notCallable _ => true
  | .arity _ _ => true
  | .divisionByZero | .moduloByZero => true
  | .indexRange _ _ _ | .noElements _ => true
  | .outsideNumbr _ => true
  | .stackOverflow => true
  | .output _ | .input _ => true
  | _ => false

/-- Whether a fault is one of the code that is run. -/
def isInternal : Fault → Bool
  | .malformed | .stackUnderflow | .slotRange _ | .constantRange _ | .notTemplate _ | .noFunction _
  | .unknownCast _ | .invalidOpcode _ _ | .truncated _ _ | .pastEnd => true
  | _ => false

theorem isOfLanguage_or (f : Fault) :
    f.isOfLanguage = true ∨ f = .endless ∨ f.isInternal = true := by
  cases f <;> simp [isOfLanguage, isInternal]

theorem allowed_of_isOfLanguage {allowed : Fault → Prop}
    (hallowed : ∀ f, f.isInternal = false → allowed f) (f : Fault) (hf : f.isOfLanguage = true) :
    allowed f := by
  refine hallowed f ?_
  cases f <;> first | rfl | cases hf

end Fault

/-- A value all of whose parts are there, where there is some number of lists. -/
def Value.Whole (size : Nat) : Value → Prop
  | .interp t => t.isSome = true
  | .bukkit ref => ref < size
  | _ => True

/-- The elements of all lists are whole. -/
def Heap.Whole (heap : Heap) : Prop :=
  ∀ elems ∈ heap, ∀ v ∈ elems, v.Whole heap.size

/-- A value that a program with some number of lists can have. -/
def Value.Valid (l : Linked) (size : Nat) : Value → Prop
  | .interp _ | .unknown _ => False
  | .funkshon offset => (l.function? offset).isSome = true
  | .bukkit ref => ref < size
  | _ => True

/-- The elements of all lists are valid. -/
def Heap.Valid (l : Linked) (heap : Heap) : Prop :=
  ∀ elems ∈ heap, ∀ v ∈ elems, v.Valid l heap.size

variable {l : Linked} {n m : Nat} {v w : Value} {heap : Heap} {α β : Type}

theorem Value.Whole.mono (h : v.Whole n) (hnm : n ≤ m) : v.Whole m := by
  cases v with
  | bukkit ref => exact Nat.lt_of_lt_of_le h hnm
  | _ => exact h

theorem Value.Valid.mono (h : v.Valid l n) (hnm : n ≤ m) : v.Valid l m := by
  cases v with
  | bukkit ref => exact Nat.lt_of_lt_of_le h hnm
  | _ => exact h

theorem Value.Valid.whole (h : v.Valid l n) : v.Whole n := by
  cases v with
  | interp t => exact h.elim
  | bukkit ref => exact h
  | _ => trivial

theorem Heap.Valid.whole (h : Heap.Valid l heap) : Heap.Whole heap :=
  fun elems helems v hv => (h elems helems v hv).whole

theorem Value.valid_of_isNumeric (h : v.isNumeric = true) : v.Valid l n := by
  cases v with
  | numbr | numbar => trivial
  | _ => cases h

namespace Heap

/-- What holds of all elements holds after a list of such elements is added. -/
theorem forall_push {P : Value → Prop} (h : ∀ elems ∈ heap, ∀ v ∈ elems, P v)
    {elems : Array Value} (helems : ∀ v ∈ elems, P v) :
    ∀ xs ∈ heap.push elems, ∀ v ∈ xs, P v := by
  intro xs hxs v hv
  rcases Array.mem_push.1 hxs with hxs | rfl
  · exact h xs hxs v hv
  · exact helems v hv

/-- What holds of all elements holds after a list is changed into one of such elements. -/
theorem forall_modify {P : Value → Prop} (h : ∀ elems ∈ heap, ∀ v ∈ elems, P v) (ref : Nat)
    {f : Array Value → Array Value} (hf : ∀ elems ∈ heap, ∀ v ∈ f elems, P v) :
    ∀ xs ∈ heap.modify ref f, ∀ v ∈ xs, P v := by
  intro xs hxs v hv
  obtain ⟨i, hi, rfl⟩ := Array.mem_iff_getElem.1 hxs
  rw [Array.getElem_modify] at hv
  split at hv
  · exact hf _ (Array.getElem_mem _) v hv
  · exact h _ (Array.getElem_mem _) v hv

theorem Whole.push (h : Heap.Whole heap) {elems : Array Value}
    (helems : ∀ v ∈ elems, v.Whole heap.size) : Heap.Whole (heap.push elems) := by
  rw [Heap.Whole, Array.size_push]
  exact forall_push (fun xs hxs v hv => (h xs hxs v hv).mono (Nat.le_succ _))
    fun v hv => (helems v hv).mono (Nat.le_succ _)

theorem Whole.modify (h : Heap.Whole heap) (ref : Nat) {f : Array Value → Array Value}
    (hf : ∀ elems ∈ heap, ∀ v ∈ f elems, v.Whole heap.size) :
    Heap.Whole (heap.modify ref f) := by
  rw [Heap.Whole, Array.size_modify]
  exact forall_modify h ref hf

end Heap

namespace Heap.Valid

theorem elements (h : Heap.Valid l heap) {ref : Nat} (href : ref < heap.size) :
    ∃ elems, heap[ref]? = some elems ∧ ∀ v ∈ elems, v.Valid l heap.size :=
  ⟨heap[ref], Array.getElem?_eq_getElem href, h _ (Array.getElem_mem href)⟩

theorem push (h : Heap.Valid l heap) {elems : Array Value} (helems : ∀ v ∈ elems, v.Valid l heap.size) :
    Heap.Valid l (heap.push elems) := by
  rw [Heap.Valid, Array.size_push]
  exact forall_push (fun xs hxs v hv => (h xs hxs v hv).mono (Nat.le_succ _))
    fun v hv => (helems v hv).mono (Nat.le_succ _)

theorem modify (h : Heap.Valid l heap) (ref : Nat) {f : Array Value → Array Value}
    (hf : ∀ elems ∈ heap, ∀ v ∈ f elems, v.Valid l heap.size) :
    Heap.Valid l (heap.modify ref f) := by
  rw [Heap.Valid, Array.size_modify]
  exact forall_modify h ref hf

end Heap.Valid

/-- What is wanted of a result, and which faults are allowed instead of it. -/
def Allows (allowed : Fault → Prop) (Q : α → Prop) : Except Fault α → Prop
  | .ok a => Q a
  | .error f => allowed f

namespace Allows

variable {allowed : Fault → Prop} {Q : α → Prop} {R : β → Prop} {r : Except Fault α}

/-- Nothing is wanted. -/
theorem of_any (r : Except Fault α) : Allows (fun _ => True) (fun _ => True) r := by
  cases r <;> trivial

theorem bind {f : α → Except Fault β} (h : Allows allowed Q r)
    (hf : ∀ a, Q a → Allows allowed R (f a)) : Allows allowed R (r >>= f) := by
  cases r with
  | ok a => exact hf a h
  | error e => exact h

theorem map {f : α → β} (h : Allows allowed Q r) (hf : ∀ a, Q a → R (f a)) :
    Allows allowed R (r.map f) := by
  cases r with
  | ok a => exact hf a h
  | error e => exact h

theorem mono {Q' : α → Prop} (h : Allows allowed Q r) (hQ : ∀ a, Q a → Q' a) :
    Allows allowed Q' r := by
  cases r with
  | ok a => exact hQ a h
  | error e => exact h

theorem mapM {f : α → Except Fault β} : ∀ {xs : List α},
    (∀ x ∈ xs, Allows allowed (fun _ => True) (f x)) →
    Allows allowed (fun ys => ys.length = xs.length) (xs.mapM f)
  | [], _ => rfl
  | x :: xs, h => by
    rw [List.mapM_cons]
    obtain ⟨hx, hxs⟩ := List.forall_mem_cons.1 h
    refine hx.bind fun y _ => (mapM hxs).bind fun ys hys => ?_
    exact congrArg Nat.succ hys

end Allows

/-- Values without a text: an element of a list has none. -/
theorem mapM_error {ε : Type} {f : α → Except ε β} {e : ε} : ∀ {xs : List α},
    xs.mapM f = .error e → ∃ x ∈ xs, f x = .error e
  | [], h => by cases h
  | x :: xs, h => by
    rw [List.mapM_cons] at h
    cases hx : f x with
    | error e' =>
      rw [hx] at h
      cases h
      exact ⟨x, List.mem_cons_self, hx⟩
    | ok y =>
      rw [hx] at h
      cases hxs : xs.mapM f with
      | error e' =>
        have hrest : (xs.mapM f >>= fun ys => pure (y :: ys) : Except ε (List β)) = .error e := h
        rw [hxs] at hrest
        cases hrest
        obtain ⟨z, hz, hfz⟩ := mapM_error hxs
        exact ⟨z, List.mem_cons_of_mem _ hz, hfz⟩
      | ok ys =>
        have hrest : (xs.mapM f >>= fun ys => pure (y :: ys) : Except ε (List β)) = .error e := h
        rw [hxs] at hrest
        cases hrest

namespace Value

theorem renderTo_ne_broken (hheap : Heap.Whole heap) :
    ∀ (depth : Nat) {v : Value}, v.Whole heap.size → v.renderTo heap depth ≠ .error .broken
  | depth, .noob, _ | depth, .troof _, _ | depth, .numbr _, _ | depth, .numbar _, _
  | depth, .yarn _, _ | depth, .interp (some _), _ | depth, .funkshon _, _
  | depth, .unknown _, _ => by
    rw [renderTo]
    nofun
  | 0, .bukkit _, _ => by
    rw [renderTo]
    nofun
  | depth + 1, .bukkit ref, hv => by
    intro h
    have helems : heap[ref]? = some heap[ref] := Array.getElem?_eq_getElem hv
    simp only [renderTo, helems] at h
    cases hparts : heap[ref].toList.mapM (renderTo heap depth) with
    | ok parts =>
      rw [hparts] at h
      cases h
    | error e =>
      rw [hparts] at h
      cases h
      obtain ⟨w, hw, hbroken⟩ := mapM_error hparts
      have hwhole := hheap _ (Array.getElem_mem hv) w (Array.mem_toList_iff.1 hw)
      exact renderTo_ne_broken hheap depth hwhole hbroken

theorem inspect_ne_broken (hheap : Heap.Whole heap) (hv : v.Whole heap.size) :
    v.inspect heap ≠ .error .broken := by
  cases v with
  | yarn t => nofun
  | interp t =>
    cases t with
    | none => cases hv
    | some t => nofun
  | _ => exact renderTo_ne_broken hheap _ hv

variable {allowed : Fault → Prop}

theorem allows_elements {P : Value → Prop} (hheap : ∀ elems ∈ heap, ∀ v ∈ elems, P v) {ref : Nat}
    (href : ref < heap.size) :
    Allows allowed (fun elems => ∀ v ∈ elems, P v) (elements heap ref) := by
  rw [elements, Array.getElem?_eq_getElem href]
  exact hheap _ (Array.getElem_mem href)

theorem allows_truthy (hheap : Heap.Valid l heap) (hv : v.Valid l heap.size) :
    Allows allowed (fun _ => True) (v.truthy heap) := by
  cases v with
  | interp | unknown => exact hv.elim
  | bukkit ref =>
    obtain ⟨elems, helems, -⟩ := hheap.elements hv
    rw [truthy, truthy?, helems]
    trivial
  | _ => trivial

section

variable (hlanguage : ∀ f, f.isOfLanguage = true → allowed f)
include hlanguage

theorem allows_number (v : Value) : Allows allowed (fun _ => True) (Number.ofValue v) := by
  cases v with
  | noob | troof | numbr | numbar => trivial
  | yarn t =>
    unfold Number.ofValue Number.ofText
    dsimp only
    split <;> split
    · trivial
    · exact hlanguage _ rfl
    · trivial
    · exact hlanguage _ rfl
  | interp | funkshon | bukkit | unknown => exact hlanguage _ rfl

theorem allows_toNumbr (x : Number) : Allows allowed (fun _ => True) x.toNumbr := by
  cases x with
  | int => trivial
  | float x =>
    rw [Number.toNumbr]
    cases x.truncate? with
    | some => trivial
    | none => exact hlanguage _ rfl

theorem allows_toIndex (v : Value) : Allows allowed (fun _ => True) v.toIndex :=
  (allows_number hlanguage v).bind fun x _ => (allows_toNumbr hlanguage x).bind fun _ _ => trivial

theorem allows_arithmetic (op : Arithmetic) (v w : Value) :
    Allows allowed (fun u => u.isNumeric = true) (op.eval v w) := by
  have happly : ∀ x y, Allows allowed (fun _ => True) (op.apply x y) := by
    intro x y
    cases x with
    | float => trivial
    | int p =>
      cases y with
      | float => trivial
      | int q =>
        have hint : Allows allowed (fun _ => True) (op.onNumbr p q) := by
          cases op with
          | div | mod =>
            rw [Arithmetic.onNumbr]
            split
            · exact hlanguage _ rfl
            · trivial
          | _ => trivial
        exact hint.map fun _ _ => trivial
  refine (allows_number hlanguage v).bind fun x _ => (allows_number hlanguage w).bind fun y _ => ?_
  refine (happly x y).bind fun z _ => ?_
  cases z <;> rfl

theorem allows_comparison (op : Comparison) (v w : Value) :
    Allows allowed (fun _ => True) (op.eval v w) :=
  (allows_number hlanguage v).bind fun _ _ => (allows_number hlanguage w).bind fun _ _ => trivial

end

variable (hallowed : ∀ f, f.isInternal = false → allowed f)
include hallowed

theorem allows_text (hheap : Heap.Valid l heap) (hv : v.Valid l heap.size) :
    Allows allowed (fun _ => True) (v.text heap) := by
  unfold text render
  cases h : v.renderTo heap (heap.size + 1) with
  | ok t => trivial
  | error e =>
    cases e with
    | broken => exact absurd h (renderTo_ne_broken hheap.whole _ hv.whole)
    | endless => exact hallowed _ rfl

/-- What is picked is an element of a list, or a character. -/
theorem allows_pick {P : Value → Prop} (hheap : ∀ elems ∈ heap, ∀ u ∈ elems, P u)
    (hyarn : ∀ t, P (.yarn t)) (hv : v.Whole heap.size) (w : Value) :
    Allows allowed P (v.pick heap w) := by
  refine (allows_toIndex (Fault.allowed_of_isOfLanguage hallowed) w).bind fun i _ => ?_
  cases v with
  | bukkit ref =>
    refine (allows_elements hheap hv).bind fun elems helems => ?_
    dsimp only
    split
    · exact hallowed _ rfl
    · cases hi : elems[i.toNat]? with
      | none => exact hallowed _ rfl
      | some u => exact helems u (Array.mem_of_getElem? hi)
  | yarn t =>
    dsimp only
    split
    · exact hallowed _ rfl
    · cases t.charAt? i.toNat with
      | none => exact hallowed _ rfl
      | some c => exact hyarn _
  | _ => exact hallowed _ rfl

theorem allows_pickEnd {P : Value → Prop} (hheap : ∀ elems ∈ heap, ∀ u ∈ elems, P u)
    (hyarn : ∀ t, P (.yarn t)) (hv : v.Whole heap.size) (last : Bool) :
    Allows allowed P (v.pickEnd heap last) := by
  cases v with
  | bukkit ref =>
    refine (allows_elements hheap hv).bind fun elems helems => ?_
    cases hi : (if last then elems.back? else elems[0]?) with
    | none => exact hallowed _ rfl
    | some u =>
      refine helems u ?_
      split at hi
      · exact Array.mem_of_back? hi
      · exact Array.mem_of_getElem? hi
  | yarn t =>
    unfold pickEnd
    dsimp only
    cases (if last then t.lastChar? else t.firstChar?) with
    | none => exact hallowed _ rfl
    | some c => exact hyarn _
  | _ => exact hallowed _ rfl

theorem allows_count (hheap : Heap.Valid l heap) (hv : v.Valid l heap.size) :
    Allows allowed (fun u => u.Valid l heap.size) (v.count heap) := by
  cases v with
  | bukkit ref => exact (allows_elements hheap hv).bind fun _ _ => trivial
  | yarn t => trivial
  | _ => exact hallowed _ rfl

/-- A heap that has grown, or has stayed as large, and is still valid. -/
theorem allows_store (hheap : Heap.Valid l heap) (hv : v.Valid l heap.size) (i : Value)
    (hw : w.Valid l heap.size) :
    Allows allowed (fun heap' => Heap.Valid l heap' ∧ heap'.size = heap.size)
      (v.store heap i w) := by
  cases v with
  | bukkit ref =>
    refine (allows_toIndex (Fault.allowed_of_isOfLanguage hallowed) i).bind fun i _ => ?_
    refine (allows_elements hheap hv).bind fun elems _ => ?_
    dsimp only
    split
    · exact hallowed _ rfl
    · refine ⟨hheap.modify ref fun elems helems u hu => ?_, Array.size_modify⟩
      rcases Array.mem_or_eq_of_mem_setIfInBounds hu with hu | rfl
      · exact hheap elems helems u hu
      · exact hw
  | _ => exact hallowed _ rfl

theorem allows_append (hheap : Heap.Valid l heap) (hv : v.Valid l heap.size)
    (hw : w.Valid l heap.size) :
    Allows allowed (fun heap' => Heap.Valid l heap' ∧ heap'.size = heap.size)
      (v.append heap w) := by
  cases v with
  | bukkit ref =>
    unfold append
    dsimp only
    split
    · rename_i hle
      exact absurd hv (Nat.not_lt_of_le hle)
    · refine ⟨hheap.modify ref fun elems helems u hu => ?_, Array.size_modify⟩
      rcases Array.mem_push.1 hu with hu | rfl
      · exact hheap elems helems u hu
      · exact hw
  | _ => exact hallowed _ rfl

theorem allows_cast (hheap : Heap.Valid l heap) (hv : v.Valid l heap.size) (t : TypeName) :
    Allows allowed
      (fun r => r.1.Valid l r.2.size ∧ Heap.Valid l r.2 ∧ heap.size ≤ r.2.size) (v.cast heap t) := by
  have hlanguage := Fault.allowed_of_isOfLanguage hallowed
  cases t with
  | noob => exact ⟨trivial, hheap, Nat.le_refl _⟩
  | troof => exact (allows_truthy hheap hv).bind fun _ _ => ⟨trivial, hheap, Nat.le_refl _⟩
  | yarn => exact (allows_text hallowed hheap hv).bind fun _ _ => ⟨trivial, hheap, Nat.le_refl _⟩
  | numbr =>
    exact (allows_number hlanguage v).bind fun x _ => (allows_toNumbr hlanguage x).bind fun _ _ =>
      ⟨trivial, hheap, Nat.le_refl _⟩
  | numbar =>
    exact (allows_number hlanguage v).bind fun _ _ => ⟨trivial, hheap, Nat.le_refl _⟩
  | bukkit =>
    cases v with
    | bukkit ref => exact ⟨hv, hheap, Nat.le_refl _⟩
    | noob =>
      refine ⟨?_, hheap.push nofun, ?_⟩
      · change heap.size < (heap.push #[]).size
        rw [Array.size_push]
        exact Nat.lt_succ_self _
      · change heap.size ≤ (heap.push #[]).size
        rw [Array.size_push]
        exact Nat.le_succ _
    | _ => exact hallowed _ rfl

theorem allows_joined (hheap : Heap.Valid l heap) (hv : v.Valid l heap.size)
    (hw : w.Valid l heap.size) : Allows allowed (fun u => u.Valid l heap.size) (v.joined heap w) :=
  (allows_text hallowed hheap hv).bind fun _ _ => (allows_text hallowed hheap hw).bind fun _ _ =>
    trivial

end Value

section

variable {allowed : Fault → Prop} (hallowed : ∀ f, f.isInternal = false → allowed f)
include hallowed

theorem BinaryOp.allows_apply (op : BinaryOp) (hheap : Heap.Valid l heap)
    (hv : v.Valid l heap.size) (hw : w.Valid l heap.size) :
    Allows allowed (fun u => u.Valid l heap.size) (op.apply heap v w) := by
  have hlanguage := Fault.allowed_of_isOfLanguage hallowed
  cases op with
  | add | sub | mul | div | mod | min | max =>
    exact (Value.allows_arithmetic hlanguage _ v w).mono fun _ h => Value.valid_of_isNumeric h
  | and =>
    refine (Value.allows_truthy hheap hv).bind fun b _ => ?_
    cases b with
    | true => exact (Value.allows_truthy hheap hw).bind fun _ _ => trivial
    | false => trivial
  | or =>
    refine (Value.allows_truthy hheap hv).bind fun b _ => ?_
    cases b with
    | true => trivial
    | false => exact (Value.allows_truthy hheap hw).bind fun _ _ => trivial
  | xor =>
    exact (Value.allows_truthy hheap hv).bind fun _ _ => (Value.allows_truthy hheap hw).bind
      fun _ _ => trivial
  | equal | notEqual => trivial
  | gt | lt | ge | le => exact (Value.allows_comparison hlanguage _ v w).map fun _ _ => trivial

theorem UnaryOp.allows_apply (op : UnaryOp) (hheap : Heap.Valid l heap)
    (hv : v.Valid l heap.size) : Allows allowed (fun u => u.Valid l heap.size) (op.apply heap v) := by
  cases op with
  | not => exact (Value.allows_truthy hheap hv).bind fun _ _ => trivial
  | length => exact Value.allows_count hallowed hheap hv

end

namespace Template

private theorem isSome_fillFrom {text : Text} : ∀ {offsets : List Int} {parts : List Text} {start : Int},
    0 ≤ start → start ≤ text.length → misplacedFrom text.length start offsets = none →
    (fillFrom text start offsets parts).isSome = true
  | [], _, start, h₀, hle, _ => by
    rw [fillFrom, if_pos ⟨h₀, hle⟩]
    rfl
  | off :: offs, parts, start, h₀, hle, h => by
    rw [misplacedFrom] at h
    split at h
    · cases h
    · rename_i hoff
      rw [fillFrom, if_pos (by omega), Option.isSome_map]
      exact isSome_fillFrom (by omega) (by omega) h

/-- A template whose places are in order can be filled. -/
theorem isSome_fill {t : Template} (h : t.misplaced? = none) (parts : List Text) :
    (t.fill parts).isSome = true :=
  isSome_fillFrom (Int.le_refl 0) (Int.natCast_nonneg _) h

end Template

/-- Only templates whose places are in order are written in a program, or else a fault of the code
is allowed. -/
def Value.Literal (allowed : Fault → Prop) : Value → Prop
  | .interp (some t) => allowed .malformed ∨ t.misplaced? = none
  | _ => True

theorem Value.literal_of_allowed (v : Value) {allowed : Fault → Prop} (h : allowed .malformed) :
    v.Literal allowed := by
  cases v with
  | interp t =>
    cases t with
    | none => trivial
    | some t => exact .inl h
  | _ => trivial

theorem Splice.allows_fill {allowed : Fault → Prop}
    (hallowed : ∀ f, f.isInternal = false → allowed f) {text : Text} {splices : List Splice}
    {vs : List Value} (hheap : Heap.Valid l heap) (hvs : ∀ v ∈ vs, v.Valid l heap.size)
    (hlit : (Value.interp (some (Splice.template text splices))).Literal allowed) :
    Allows allowed (fun u => u.Valid l heap.size) (Splice.fill text splices vs heap) := by
  refine (Allows.mapM fun v hv => Value.allows_text hallowed hheap (hvs v hv)).bind
    fun parts _ => ?_
  cases hfill : Template.fill ⟨text, splices.map fun x => x.offset, 0⟩ parts with
  | some t => trivial
  | none =>
    rcases hlit with hmalformed | hplaced
    · exact hmalformed
    · have hsome := Template.isSome_fill hplaced parts
      rw [Splice.template, hfill] at hsome
      cases hsome

end LolToolchain
