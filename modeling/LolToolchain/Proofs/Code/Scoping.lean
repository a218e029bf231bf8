import LolToolchain.Compile.Code
import Mathlib.Data.List.Forall2

/-!
Lexical scopes: every name leads to the newest variable of that name, and the variables stand in the
order of the blocks that they belong to. Each change that the compiler makes to a scope keeps it so.
-/
namespace LolToolchain

/-- The variable as it was, or no longer known to hold a function. -/
structure Local.Keeps (l l' : Local) : Prop where
  name : l'.name = l.name
  depth : l'.depth = l.depth
  function : l'.function = l.function ∨ l'.function = none

theorem Local.Keeps.refl (l : Local) : l.Keeps l :=
  ⟨rfl, rfl, .inl rfl⟩

theorem Local.Keeps.trans {l l₁ l₂ : Local} (h₁ : l.Keeps l₁) (h₂ : l₁.Keeps l₂) : l.Keeps l₂ where
  name := h₂.name.trans h₁.name
  depth := h₂.depth.trans h₁.depth
  function := by
    rcases h₂.function with h | h
    · rw [h]
      exact h₁.function
    · exact .inr h

namespace Scope

variable {name : Text} {n depth : Nat} {l : Local} {ls ls' : List Local} {s : Scope}

theorem slotIn_lt (h : slotIn name ls = some n) : n < ls.length := by
  induction ls with
  | nil => cases h
  | cons x ls ih =>
    rw [slotIn] at h
    split at h
    · cases h
      exact Nat.lt_succ_self _
    · exact Nat.lt_succ_of_lt (ih h)

theorem slotIn_eq_none_iff : slotIn name ls = none ↔ ∀ l ∈ ls, l.name ≠ name := by
  induction ls with
  | nil => exact iff_of_true rfl nofun
  | cons x ls ih =>
    rw [slotIn, List.forall_mem_cons]
    split
    · rename_i hx
      exact iff_of_false nofun fun h => h.1 hx
    · rename_i hx
      exact ih.trans ⟨fun h => ⟨hx, h⟩, fun h => h.2⟩

/-- The slot of the newest variable of a name: that variable is there, and the newer ones have other
names. -/
theorem slotIn_eq_some_iff : slotIn name ls = some n ↔
    ∃ newer l older, ls = newer ++ l :: older ∧ older.length = n ∧ l.name = name ∧
      ∀ m ∈ newer, m.name ≠ name := by
  induction ls with
  | nil =>
    refine iff_of_false nofun ?_
    rintro ⟨newer, l, older, h, -⟩
    exact List.append_ne_nil_of_right_ne_nil newer (List.cons_ne_nil l older) h.symm
  | cons x ls ih =>
    rw [slotIn]
    constructor
    · intro h
      split at h
      · rename_i hx
        cases h
        exact ⟨[], x, ls, rfl, rfl, hx, nofun⟩
      · rename_i hx
        obtain ⟨newer, l, older, rfl, hn, hl, hnewer⟩ := ih.1 h
        exact ⟨x :: newer, l, older, rfl, hn, hl, List.forall_mem_cons.2 ⟨hx, hnewer⟩⟩
    · rintro ⟨newer, l, older, heq, hn, hl, hnewer⟩
      cases newer with
      | nil =>
        cases heq
        rw [if_pos hl, hn]
      | cons y newer =>
        cases heq
        rw [if_neg (hnewer x List.mem_cons_self)]
        exact ih.2 ⟨newer, l, older, rfl, hn, hl, fun m hm => hnewer m (List.mem_cons_of_mem _ hm)⟩

theorem local?_append {newer older : List Local} (h : s.locals = newer ++ l :: older) :
    s.local? older.length = some l := by
  rw [local?, h, List.reverse_append, List.reverse_cons, List.append_assoc,
    List.getElem?_append_right (by simp)]
  simp

theorem lt_of_local? (h : s.local? n = some l) : n < s.locals.length := by
  have hlt := (List.getElem?_eq_some_iff.1 h).1
  rwa [List.length_reverse] at hlt

theorem mem_of_local? (h : s.local? n = some l) : l ∈ s.locals :=
  List.mem_reverse.1 (List.mem_of_getElem? h)

/-- What a name leads to is a variable of the scope. -/
theorem local?_of_find? (h : s.find? name = some (n, l)) :
    s.slots name = some n ∧ s.local? n = some l := by
  obtain ⟨i, hi, h⟩ := Option.bind_eq_some_iff.1 h
  obtain ⟨x, hx, h⟩ := Option.bind_eq_some_iff.1 h
  cases h
  exact ⟨hi, hx⟩

/-- No variable belongs to a block that has been left. -/
def Level (s : Scope) : Prop :=
  ∀ d ∈ s.locals.map Local.depth, d ≤ s.depth

/-- Names lead to the newest variables, and newer variables belong to inner blocks. -/
structure Lexical (s : Scope) : Prop where
  slots : ∀ name, s.slots name = slotIn name s.locals
  ordered : (s.locals.map Local.depth).Pairwise fun newer older => older ≤ newer
  level : s.Level

/-- The scope of a function before its parameters are declared. -/
theorem lexical_empty (depth : Nat) (bs : List Breakable) :
    Lexical { empty with depth := depth, breakables := bs } :=
  ⟨fun _ => rfl, .nil, nofun⟩

namespace Lexical

theorem find?_of_slotIn (h : s.Lexical) (hn : slotIn name s.locals = some n) :
    ∃ l, s.find? name = some (n, l) ∧ l.name = name := by
  obtain ⟨newer, l, older, heq, rfl, hl, -⟩ := slotIn_eq_some_iff.1 hn
  have hslot := (h.slots name).trans hn
  refine ⟨l, ?_, hl⟩
  rw [find?, hslot]
  change (s.local? older.length >>= fun l => some (older.length, l)) = _
  rw [local?_append heq]
  rfl

theorem slotIn_of_find? (h : s.Lexical) (hfind : s.find? name = some (n, l)) :
    slotIn name s.locals = some n :=
  (h.slots name).symm.trans (local?_of_find? hfind).1

theorem slotIn_of_find?_none (h : s.Lexical) (hfind : s.find? name = none) :
    slotIn name s.locals = none := by
  cases hn : slotIn name s.locals with
  | none => rfl
  | some n =>
    obtain ⟨l, hl, -⟩ := h.find?_of_slotIn hn
    rw [hfind] at hl
    cases hl

theorem deeper (h : s.Lexical) : Lexical { s with depth := s.depth + 1 } :=
  ⟨h.slots, h.ordered, fun d hd => Nat.le_succ_of_le (h.level d hd)⟩

theorem breakables (h : s.Lexical) (bs : List Breakable) : Lexical { s with breakables := bs } :=
  ⟨h.slots, h.ordered, h.level⟩

theorem declare (h : s.Lexical) (name : Text) (f : Option KnownFunction) :
    (s.declare name f).Lexical where
  slots other := by
    change (if other = name then some s.locals.length else s.slots other) =
      if name = other then some s.locals.length else slotIn other s.locals
    rw [h.slots]
    simp only [eq_comm]
  ordered := List.pairwise_cons.2 ⟨h.level, h.ordered⟩
  level := List.forall_mem_cons.2 ⟨Nat.le_refl _, h.level⟩

end Lexical

/-- Parameters are declared one after another. -/
def declareParams (s : Scope) (params : List Ident) : Scope :=
  params.foldl (fun s p => s.declare p.name none) s

theorem locals_declareParams (s : Scope) (params : List Ident) :
    (s.declareParams params).locals =
      (params.map fun p => ⟨p.name, s.depth, none⟩).reverse ++ s.locals := by
  induction params generalizing s with
  | nil => rfl
  | cons p ps ih =>
    rw [declareParams, List.foldl_cons, List.map_cons, List.reverse_cons, List.append_assoc]
    exact ih (s.declare p.name none)

theorem breakables_declareParams (s : Scope) (params : List Ident) :
    (s.declareParams params).breakables = s.breakables := by
  induction params generalizing s with
  | nil => rfl
  | cons p ps ih => exact ih (s.declare p.name none)

theorem Lexical.declareParams (h : s.Lexical) (params : List Ident) :
    (s.declareParams params).Lexical := by
  induction params generalizing s with
  | nil => exact h
  | cons p ps ih => exact ih (h.declare p.name none)

theorem map_depth_forgetIn (n : Nat) (ls : List Local) :
    (forgetIn n ls).map Local.depth = ls.map Local.depth := by
  induction ls with
  | nil => rfl
  | cons x ls ih =>
    rw [forgetIn]
    split
    · rfl
    · rw [List.map_cons, ih, List.map_cons]

theorem length_forgetIn (n : Nat) (ls : List Local) : (forgetIn n ls).length = ls.length := by
  rw [← List.length_map Local.depth, map_depth_forgetIn, List.length_map]

private theorem slotIn_forgetIn (name : Text) (n : Nat) (ls : List Local) :
    slotIn name (forgetIn n ls) = slotIn name ls := by
  induction ls with
  | nil => rfl
  | cons x ls ih =>
    rw [forgetIn]
    split
    · rfl
    · rw [slotIn, slotIn, ih, length_forgetIn]

theorem Lexical.forget (h : s.Lexical) (n : Nat) : (s.forget n).Lexical where
  slots other := (h.slots other).trans (slotIn_forgetIn other n s.locals).symm
  ordered := by
    rw [Scope.forget, map_depth_forgetIn]
    exact h.ordered
  level := by
    rw [Level, Scope.forget, map_depth_forgetIn]
    exact h.level

/-- Each name is uncovered as often as it goes out of use, so in the end it leads to the newest of
the variables that are left. -/
private theorem uncover_eq {slots : Text → Option Nat} (h : ∀ name, slots name = slotIn name ls)
    (name : Text) :
    uncover depth ls slots name = slotIn name (ls.dropWhile fun l => depth < l.depth) := by
  induction ls generalizing slots with
  | nil => exact h name
  | cons x ls ih =>
    rw [uncover]
    by_cases hx : depth < x.depth
    · rw [if_pos hx, List.dropWhile_cons_of_pos (by simpa using hx)]
      refine ih fun other => ?_
      split
      · rename_i heq
        rw [heq]
      · rename_i hne
        rw [h other, slotIn, if_neg (Ne.symm hne)]
    · rw [if_neg hx, List.dropWhile_cons_of_neg (by simpa using hx)]
      exact h name

/-- Behind the variables of blocks that are left there are none of such blocks. -/
private theorem forall_mem_dropWhile (h : (ls.map Local.depth).Pairwise fun newer older => older ≤ newer) :
    ∀ d ∈ (ls.dropWhile fun l => depth < l.depth).map Local.depth, d ≤ depth := by
  induction ls with
  | nil => nofun
  | cons x ls ih =>
    have hpairs := List.pairwise_cons.1 h
    by_cases hx : depth < x.depth
    · rw [List.dropWhile_cons_of_pos (by simpa using hx)]
      exact ih hpairs.2
    · rw [List.dropWhile_cons_of_neg (by simpa using hx)]
      have hle := Nat.le_of_not_lt hx
      exact List.forall_mem_cons.2 ⟨hle, fun d hd => Nat.le_trans (hpairs.1 d hd) hle⟩

theorem Lexical.close (h : s.Lexical) : s.close.2.Lexical where
  slots := uncover_eq h.slots
  ordered := h.ordered.sublist ((List.dropWhile_sublist _).map Local.depth)
  level := forall_mem_dropWhile h.ordered

theorem map_depth_of_keeps (h : List.Forall₂ Local.Keeps ls ls') :
    ls'.map Local.depth = ls.map Local.depth := by
  induction h with
  | nil => rfl
  | cons hl _ ih => rw [List.map_cons, List.map_cons, hl.depth, ih]

theorem slotIn_of_keeps (h : List.Forall₂ Local.Keeps ls ls') (name : Text) :
    slotIn name ls' = slotIn name ls := by
  induction h with
  | nil => rfl
  | cons hl hls ih => rw [slotIn, slotIn, hl.name, hls.length_eq, ih]

theorem exists_of_mem_keeps (h : List.Forall₂ Local.Keeps ls ls') {l' : Local} (hl' : l' ∈ ls') :
    ∃ l ∈ ls, l.Keeps l' := by
  induction h with
  | nil => cases hl'
  | cons hl _ ih =>
    rcases List.mem_cons.1 hl' with rfl | hl'
    · exact ⟨_, List.mem_cons_self, hl⟩
    · obtain ⟨l, hmem, hkeeps⟩ := ih hl'
      exact ⟨l, List.mem_cons_of_mem _ hmem, hkeeps⟩

theorem keeps_refl (ls : List Local) : List.Forall₂ Local.Keeps ls ls :=
  List.forall₂_same.2 fun l _ => .refl l

theorem keeps_trans {ls₁ ls₂ : List Local} (h₁ : List.Forall₂ Local.Keeps ls ls₁)
    (h₂ : List.Forall₂ Local.Keeps ls₁ ls₂) : List.Forall₂ Local.Keeps ls ls₂ := by
  induction h₁ generalizing ls₂ with
  | nil => exact h₂
  | cons h _ ih =>
    obtain _ | ⟨h', hrest⟩ := h₂
    exact .cons (h.trans h') (ih hrest)

theorem keeps_forgetIn (n : Nat) (ls : List Local) :
    List.Forall₂ Local.Keeps ls (forgetIn n ls) := by
  induction ls with
  | nil => exact .nil
  | cons x ls ih =>
    rw [forgetIn]
    split
    · exact .cons ⟨rfl, rfl, .inr rfl⟩ (keeps_refl ls)
    · exact .cons (.refl x) ih

/-- The variables of a scope are still there, below those that its innermost block has got. -/
def Grows (s s' : Scope) : Prop :=
  ∃ added kept, s'.locals = added ++ kept ∧ (∀ d ∈ added.map Local.depth, d = s.depth) ∧
    List.Forall₂ Local.Keeps s.locals kept

namespace Grows

variable {s₁ s' : Scope}

theorem of_keeps (h : List.Forall₂ Local.Keeps s.locals s'.locals) : s.Grows s' :=
  ⟨[], s'.locals, rfl, nofun, h⟩

theorem of_eq (h : s'.locals = s.locals) : s.Grows s' :=
  of_keeps (h ▸ keeps_refl _)

theorem declare (s : Scope) (name : Text) (f : Option KnownFunction) :
    s.Grows (s.declare name f) :=
  ⟨[⟨name, s.depth, f⟩], s.locals, rfl, List.forall_mem_singleton.2 rfl, keeps_refl _⟩

theorem forget (s : Scope) (n : Nat) : s.Grows (s.forget n) :=
  of_keeps (keeps_forgetIn n s.locals)

theorem trans (h₁ : s.Grows s₁) (h₂ : s₁.Grows s') (hdepth : s₁.depth = s.depth) :
    s.Grows s' := by
  obtain ⟨added₁, kept₁, hlocals₁, hadded₁, hkept₁⟩ := h₁
  obtain ⟨added₂, kept₂, hlocals₂, hadded₂, hkept₂⟩ := h₂
  rw [hlocals₁] at hkept₂
  have htake := List.forall₂_take added₁.length hkept₂
  have hdrop := List.forall₂_drop added₁.length hkept₂
  rw [List.take_left] at htake
  rw [List.drop_left] at hdrop
  refine ⟨added₂ ++ kept₂.take added₁.length, kept₂.drop added₁.length, ?_, ?_,
    keeps_trans hkept₁ hdrop⟩
  · rw [hlocals₂, List.append_assoc, List.take_append_drop]
  · rw [List.map_append, map_depth_of_keeps htake]
    exact List.forall_mem_append.2 ⟨fun d hd => (hadded₂ d hd).trans hdepth, hadded₁⟩

theorem length_le (h : s.Grows s') : s.locals.length ≤ s'.locals.length := by
  obtain ⟨added, kept, hlocals, -, hkept⟩ := h
  rw [hlocals, List.length_append, hkept.length_eq]
  exact Nat.le_add_left _ _

/-- At the end of a block the variables are left that were there at its start. -/
theorem close (h : Grows { s with depth := s.depth + 1 } s') (hl : s.Level)
    (hdepth : s'.depth = s.depth + 1) :
    List.Forall₂ Local.Keeps s.locals s'.close.2.locals ∧
      s'.close.2.locals = s'.locals.drop s'.close.1 ∧
      s'.close.1 = s'.locals.length - s.locals.length := by
  obtain ⟨added, kept, hlocals, hadded, hkept⟩ := h
  have hbelow : ∀ d ∈ kept.map Local.depth, d ≤ s.depth := by
    rw [map_depth_of_keeps hkept]
    exact hl
  have hdrop : s'.locals.dropWhile (fun l => s'.depth - 1 < l.depth) = kept := by
    rw [hlocals, hdepth, Nat.add_sub_cancel, List.dropWhile_append_of_pos]
    · cases kept with
      | nil => rfl
      | cons l kept =>
        exact List.dropWhile_cons_of_neg (by simpa using hbelow l.depth List.mem_cons_self)
    · intro l hl
      rw [hadded l.depth (List.mem_map_of_mem hl)]
      exact decide_eq_true (Nat.lt_succ_self _)
  have hcount : s'.close.1 = added.length := by
    rw [Scope.close, hdrop, hlocals, List.length_append]
    exact Nat.add_sub_cancel _ _
  have hlength : s.locals.length = kept.length := hkept.length_eq
  refine ⟨?_, ?_, ?_⟩
  · rw [Scope.close, hdrop]
    exact hkept
  · rw [hcount, hlocals, List.drop_left, Scope.close, hlocals, ← hlocals, hdrop]
  · rw [hcount, hlocals, List.length_append, hlength, Nat.add_sub_cancel]

end Grows

end Scope

/-- Names are resolved lexically in the current function and in those around it. -/
def Assembly.Lexical (a : Assembly) : Prop :=
  ∀ s ∈ a.scope :: a.outer, s.Lexical

namespace Assembly.Lexical

variable {a a' : Assembly}

theorem congr (h : a.Lexical) (hscope : a'.scope = a.scope) (houter : a'.outer = a.outer) :
    a'.Lexical := by
  rw [Assembly.Lexical, hscope, houter]
  exact h

theorem scope (h : a.Lexical) : a.scope.Lexical :=
  h a.scope List.mem_cons_self

theorem update (h : a.Lexical) {s : Scope} (hs : s.Lexical) :
    Assembly.Lexical { a with scope := s } :=
  List.forall_mem_cons.2 ⟨hs, (List.forall_mem_cons.1 h).2⟩

end Assembly.Lexical

end LolToolchain
