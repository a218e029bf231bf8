import LolToolchain.Bytecode.Stored
import LolToolchain.Proofs.Bytecode.Keys
import LolToolchain.Proofs.Bytecode.Storage
import Mathlib.Data.List.TakeWhile

/-!
Constants added to a pool one after another. A place that has been given keeps its constant; constants
that are alike share the first place that holds one of them, and each list gets a new place.
-/
namespace LolToolchain

/-- A value with a content: neither an interpolation without a template nor of a kind that does not
exist. -/
def Value.HasContent : Value → Prop
  | .interp none | .unknown _ => False
  | _ => True

theorem Value.Alike.symm {v w : Value} (h : v.Alike w) : w.Alike v :=
  Eq.symm h

theorem Value.Alike.trans {u v w : Value} (h : u.Alike v) (h' : v.Alike w) : u.Alike w :=
  Eq.trans h h'

theorem Value.alike_retag (tag : Nat) (v : Value) : (v.retag tag).Alike v :=
  Value.retag_retag tag 0 v

/-- Of the values with a content only lists have no key. -/
theorem Value.key?_eq_none_iff {v : Value} (h : v.HasContent) : v.key? = none ↔ ∃ r, v = .bukkit r := by
  cases v with
  | interp t => cases t <;> simp_all [key?, HasContent]
  | unknown k => cases h
  | _ => simp [key?]

namespace Pool

variable {p q : Pool} {v w : Value} {i j : Nat} {vs : List Value}

/-- Adds constants one after another and gives their places. -/
def addAll (p : Pool) : List Value → List (Option Nat) × Pool
  | [] => ([], p)
  | v :: vs =>
    let (place, p) := p.add? v
    let (places, p) := p.addAll vs
    (place :: places, p)

/-- A new pool, or that of a chunk that has been read. -/
def IsStart (p : Pool) : Prop :=
  p = .empty ∨ p = .unindexed ∨ ∃ data c, Chunk.decode data = .ok c ∧ p = c.pool

/-- Whether all constants of a pool are found again. -/
structure Searchable (p : Pool) : Prop where
  hidden : p.hidden = []
  built : p.indexed = false → ∀ c ∈ p.constants.toList, isBroken c.value = false

/-- Whether a place is the one of a value: it holds a constant like it, and if the value can be looked
up, no place before it does. -/
structure Houses (p : Pool) (v : Value) (i : Nat) : Prop where
  holds : ∃ u, p.get? i = some u ∧ u.Alike v
  first : v.key?.isSome → ∀ j < i, ∀ u, p.get? j = some u → ¬ u.Alike v

theorem get?_extended (h : p.constants.toList <+: q.constants.toList) (hi : i < p.size) :
    q.get? i = p.get? i := by
  obtain ⟨t, ht⟩ := h
  rw [get?, get?, ← Array.getElem?_toList, ← Array.getElem?_toList, ← ht,
    List.getElem?_append_left (by simpa [size] using hi)]

theorem lt_size_of_get? {u : Value} (h : p.get? i = some u) : i < p.size := by
  obtain ⟨c, hc, -⟩ := Option.map_eq_some_iff.1 h
  exact (Array.getElem?_eq_some_iff.1 hc).1

theorem Houses.lt_size (h : p.Houses v i) : i < p.size := by
  obtain ⟨u, hu, -⟩ := h.holds
  exact lt_size_of_get? hu

/-- What is added behind them changes no places. -/
theorem Houses.of_prefix (h : p.Houses v i) (hpq : p.constants.toList <+: q.constants.toList) :
    q.Houses v i := by
  have hi := h.lt_size
  constructor
  · rw [get?_extended hpq hi]
    exact h.holds
  · intro hkey j hj
    rw [get?_extended hpq (Nat.lt_trans hj hi)]
    exact h.first hkey j hj

/-- Values that can be looked up are housed together exactly when they are alike. -/
theorem Houses.eq_iff (hv : p.Houses v i) (hw : p.Houses w j) (hkey : v.key?.isSome) :
    i = j ↔ v.Alike w := by
  obtain ⟨u, hu, huv⟩ := hv.holds
  obtain ⟨u', hu', huw⟩ := hw.holds
  constructor
  · rintro rfl
    obtain rfl := Option.some.inj (hu.symm.trans hu')
    exact huv.symm.trans huw
  · intro halike
    have hkey' : w.key?.isSome := by rwa [← Value.key?_eq_of_alike halike]
    rcases Nat.lt_trichotomy i j with hlt | heq | hgt
    · exact absurd (huv.trans halike) (hw.first hkey' i hlt u hu)
    · exact heq
    · exact absurd (huw.trans halike.symm) (hv.first hkey j hgt u' hu')

private theorem exists_pool_of_decode {data : Text} {c : Chunk} (h : Chunk.decode data = .ok c) :
    ∃ ks, c.pool = ofList ks := by
  have hread {x : Cbor} {c' : Chunk} (hx : Chunk.ofCbor? x = some c') : ∃ ks, c'.pool = ofList ks := by
    simp only [Chunk.ofCbor?, Option.bind_eq_bind, Option.bind_eq_some_iff] at hx
    obtain ⟨fs, -, code, -, positions, -, constants, -, names, -, hc⟩ := hx
    cases hc
    exact ⟨_, rfl⟩
  rw [Chunk.decode] at h
  split at h
  · cases h
  · dsimp only [bind, Except.bind, pure, Except.pure] at h
    split at h
    · cases h
    · split at h
      · cases h
      · rename_i c' hc'
        split at h <;> cases h
        obtain ⟨x, -, hx⟩ := Option.bind_eq_some_iff.1 hc'
        exact hread hx

theorem searchable_of_isStart (h : p.IsStart) : p.Searchable := by
  obtain rfl | rfl | ⟨data, c, hdecode, rfl⟩ := h
  · exact ⟨rfl, nofun⟩
  · exact ⟨rfl, nofun⟩
  · obtain ⟨ks, hks⟩ := exists_pool_of_decode hdecode
    rw [hks, ofList_eq]
    exact ⟨rfl, nofun⟩

theorem index_eq (h : p.Searchable) : p.index = (true, { p with indexed := true }) := by
  obtain ⟨hhidden, hbuilt⟩ := h
  rw [index]
  split
  · rename_i hindexed
    cases p
    cases hindexed
    rfl
  · rename_i hindexed
    have hall := hbuilt (Bool.eq_false_iff.2 hindexed)
    have hknown : p.constants.toList.takeWhile (fun c => !isBroken c.value) = p.constants.toList :=
      List.takeWhile_eq_self_iff.2 fun c hc => by rw [hall c hc]; rfl
    simp only [hknown, hhidden, size, Array.length_toList, beq_self_eq_true]
    rw [List.drop_of_length_le (by simp)]

/-- The test of a search, in a pool in which all constants are found. -/
theorem any_shares_iff (h : p.hidden = []) :
    (!p.hidden.contains j && (p.get? j).any (·.shares v)) = true ↔
      v.key?.isSome ∧ ∃ u, p.get? j = some u ∧ u.Alike v := by
  simp only [h, List.contains_nil, Bool.not_false, Bool.true_and, Option.any_eq_true,
    Value.shares_iff]
  constructor
  · rintro ⟨u, hu, hkey, halike⟩
    exact ⟨by rwa [← Value.key?_eq_of_alike halike], u, hu, halike⟩
  · rintro ⟨hkey, u, hu, halike⟩
    exact ⟨u, hu, by rwa [Value.key?_eq_of_alike halike], halike⟩

/-- The search gives the first place of a constant that is alike. -/
private theorem houses_of_find? (h : p.hidden = []) (hfind : p.find? v = some i) :
    v.key?.isSome ∧ p.Houses v i := by
  rw [find?, List.find?_range_eq_some, any_shares_iff h] at hfind
  obtain ⟨⟨hkey, hholds⟩, -, hfirst⟩ := hfind
  refine ⟨hkey, hholds, fun _ j hj u hu halike => ?_⟩
  have hnot := hfirst j hj
  rw [Bool.not_eq_true', ← Bool.not_eq_true, any_shares_iff h] at hnot
  exact hnot ⟨hkey, u, hu, halike⟩

/-- A search without a result shows that nothing in the pool is alike. -/
private theorem not_alike_of_find? (h : p.hidden = []) (hfind : p.find? v = none) (hkey : v.key?.isSome)
    {u : Value} (hu : p.get? j = some u) : ¬ u.Alike v := by
  intro halike
  rw [find?, List.find?_range_eq_none] at hfind
  have hnot := hfind j (lt_size_of_get? hu)
  rw [Bool.not_eq_true', ← Bool.not_eq_true, any_shares_iff h] at hnot
  exact hnot ⟨hkey, u, hu, halike⟩

private theorem get?_push (c : Constant) :
    get? { p with constants := p.constants.push c } p.size = some c.value := by
  simp [get?, size]

/-- What looking a value up or adding it does, in a pool in which all constants are found. -/
private theorem houses_share (h : p.Searchable) (hv : v.HasContent) :
    (p.share v).2.Houses v (p.share v).1 ∧ (p.share v).2.Searchable ∧
      p.constants.toList <+: (p.share v).2.constants.toList ∧
      (v.key? = none → (p.share v).1 = p.size) := by
  rw [share]
  split
  · rename_i i hfind
    obtain ⟨hkey, hhouses⟩ := houses_of_find? h.hidden hfind
    refine ⟨hhouses, h, List.prefix_rfl, fun hnone => ?_⟩
    rw [hnone] at hkey
    cases hkey
  · rename_i hfind
    have hprefix : p.constants.toList <+: (p.constants.push { value := v.retag p.size }).toList := by
      rw [Array.toList_push]
      exact List.prefix_append _ _
    refine ⟨⟨⟨_, get?_push _, v.alike_retag _⟩, fun hkey j hj u hu halike => ?_⟩, ⟨h.hidden, ?_⟩,
      hprefix, fun _ => rfl⟩
    · rw [get?_extended hprefix hj] at hu
      exact not_alike_of_find? h.hidden hfind hkey hu halike
    · intro hindexed c hc
      rw [Array.toList_push] at hc
      obtain hc | hc := List.mem_append.1 hc
      · exact h.built hindexed c hc
      · rw [List.mem_singleton.1 hc]
        cases v with
        | interp t => cases t <;> [cases hv; rfl]
        | _ => rfl

/-- Adding a value gives it a place, and moves no other. -/
theorem exists_add? (h : p.Searchable) (hv : v.HasContent) :
    ∃ i q, p.add? v = (some i, q) ∧ q.Houses v i ∧ q.Searchable ∧
      p.constants.toList <+: q.constants.toList ∧ (v.key? = none → i = p.size) := by
  have hbroken : isBroken v = false := by
    cases v with
    | interp t => cases t <;> [cases hv; rfl]
    | _ => rfl
  have hindexed : Searchable { p with indexed := true } := ⟨h.hidden, nofun⟩
  rw [add?, if_neg (Bool.eq_false_iff.1 hbroken), index_eq h]
  split
  · exact ⟨_, _, rfl, houses_share hindexed hv⟩
  · exact ⟨_, _, rfl, houses_share h hv⟩

/-- What one place is to another in a run: they are the same exactly when the values are alike and are
no lists. -/
def Agree (a b : Value × Nat) : Prop :=
  a.2 = b.2 ↔ a.1.Alike b.1 ∧ ∀ r, a.1 ≠ .bukkit r

/-- Places of values that are added later, behind a place that has been given. -/
private theorem agree_of_houses (hv : q.Houses v i) (hw : q.Houses w j) (hcontent : v.HasContent)
    (hi : i < p.size) (hlist : w.key? = none → p.size ≤ j) : Agree (v, i) (w, j) := by
  by_cases hkey : v.key?.isSome
  · have hbukkit : ∀ r, v ≠ .bukkit r := by
      rintro r rfl
      cases hkey
    exact (hv.eq_iff hw hkey).trans (and_iff_left hbukkit).symm
  · have hnone : v.key? = none := Option.not_isSome_iff_eq_none.1 hkey
    obtain ⟨r, rfl⟩ := (Value.key?_eq_none_iff hcontent).1 hnone
    constructor
    · rintro rfl
      obtain ⟨u, hu, huv⟩ := hv.holds
      obtain ⟨u', hu', huw⟩ := hw.holds
      obtain rfl := Option.some.inj (hu.symm.trans hu')
      have hwkey : w.key? = none := (Value.key?_eq_of_alike (huv.symm.trans huw)).symm
      exact absurd (hlist hwkey) (Nat.not_le.2 hi)
    · rintro ⟨-, hbukkit⟩
      exact absurd rfl (hbukkit r)

/-- A run gives every value a place, which it keeps. -/
private theorem exists_addAll (h : p.Searchable) (hvs : ∀ v ∈ vs, v.HasContent) :
    ∃ places, (p.addAll vs).1 = places.map some ∧ places.length = vs.length ∧
      p.constants.toList <+: (p.addAll vs).2.constants.toList ∧
      (∀ a ∈ vs.zip places, (p.addAll vs).2.Houses a.1 a.2 ∧ (a.1.key? = none → p.size ≤ a.2)) ∧
      (vs.zip places).Pairwise Agree := by
  induction vs generalizing p with
  | nil => exact ⟨[], rfl, rfl, List.prefix_rfl, nofun, .nil⟩
  | cons v vs ih =>
    obtain ⟨hv, hvs⟩ := List.forall_mem_cons.1 hvs
    obtain ⟨i, q, hadd, hhouses, hq, hpq, hi⟩ := exists_add? h hv
    obtain ⟨places, hplaces, hlength, hprefix, hall, hpairwise⟩ := ih hq hvs
    have hsize : p.size ≤ q.size := by simpa [size] using hpq.length_le
    have hlast := hhouses.of_prefix hprefix
    refine ⟨i :: places, ?_, congrArg (· + 1) hlength, ?_, ?_, ?_⟩
    · rw [addAll, hadd]
      exact congrArg (some i :: ·) hplaces
    · rw [addAll, hadd]
      exact hpq.trans hprefix
    · rw [addAll, hadd]
      refine List.forall_mem_cons.2 ⟨⟨hlast, fun hnone => Nat.le_of_eq (hi hnone).symm⟩, fun a ha => ?_⟩
      obtain ⟨ha, hlist⟩ := hall a ha
      exact ⟨ha, fun hnone => Nat.le_trans hsize (hlist hnone)⟩
    · refine List.pairwise_cons.2 ⟨fun b hb => ?_, hpairwise⟩
      obtain ⟨hb, hlist⟩ := hall b hb
      exact agree_of_houses hlast hb hv hhouses.lt_size hlist

private theorem addAll_append (p : Pool) (us ws : List Value) :
    (p.addAll (us ++ ws)).2 = ((p.addAll us).2.addAll ws).2 := by
  induction us generalizing p with
  | nil => rfl
  | cons u us ih => exact ih _

private theorem searchable_addAll (h : p.Searchable) (hvs : ∀ v ∈ vs, v.HasContent) :
    (p.addAll vs).2.Searchable := by
  induction vs generalizing p with
  | nil => exact h
  | cons v vs ih =>
    obtain ⟨hv, hvs⟩ := List.forall_mem_cons.1 hvs
    obtain ⟨i, q, hadd, -, hq, -, -⟩ := exists_add? h hv
    rw [addAll, hadd]
    exact ih hq hvs

/-- Constants added to a new pool, or to that of a chunk that was read: every one gets a place; what is
in the pool after some of them stays where it is; a place holds a constant of the same kind and content
as the value that it was given for; and two values have the same place exactly when they are of the
same kind and content and are no lists. -/
theorem places_agree (h : p.IsStart) (hvs : ∀ v ∈ vs, v.HasContent) :
    ∃ places, (p.addAll vs).1 = places.map some ∧ places.length = vs.length ∧
      (∀ us ws, vs = us ++ ws →
        (p.addAll us).2.constants.toList <+: (p.addAll vs).2.constants.toList) ∧
      (∀ a ∈ vs.zip places, ∃ u, (p.addAll vs).2.get? a.2 = some u ∧ u.Alike a.1) ∧
      (vs.zip places).Pairwise fun a b => a.2 = b.2 ↔ a.1.Alike b.1 ∧ ∀ r, a.1 ≠ .bukkit r := by
  have hstart := searchable_of_isStart h
  obtain ⟨places, hplaces, hlength, -, hall, hpairwise⟩ := exists_addAll hstart hvs
  refine ⟨places, hplaces, hlength, fun us ws hsplit => ?_, fun a ha => (hall a ha).1.holds, hpairwise⟩
  subst hsplit
  obtain ⟨hus, hws⟩ := List.forall_mem_append.1 hvs
  obtain ⟨-, -, -, hprefix, -⟩ := exists_addAll (searchable_addAll hstart hus) hws
  rwa [addAll_append]

/-- A template whose text looks like another one flattened, the same template made apart, a list twice,
and both zeros. -/
def lookalikes : List Value :=
  [.interp (some ⟨[0x61, 0x00, 0x5B, 0x31, 0x5D], [], 0⟩), .interp (some ⟨[0x61], [1], 0⟩),
    .interp (some ⟨[0x61, 0x00, 0x5B, 0x31, 0x5D], [], 7⟩), .bukkit 0, .bukkit 0,
    .numbar .zero, .numbar (.ofMagnitude true 0)]

theorem places_agree_lookalikes : IsStart .empty ∧ (∀ v ∈ lookalikes, v.HasContent) ∧
    (empty.addAll lookalikes).1 = [some 0, some 1, some 0, some 2, some 3, some 4, some 5] ∧
    ∃ places, (empty.addAll lookalikes).1 = places.map some ∧ places.length = lookalikes.length ∧
      (∀ us ws, lookalikes = us ++ ws →
        (empty.addAll us).2.constants.toList <+: (empty.addAll lookalikes).2.constants.toList) ∧
      (∀ a ∈ lookalikes.zip places,
        ∃ u, (empty.addAll lookalikes).2.get? a.2 = some u ∧ u.Alike a.1) ∧
      (lookalikes.zip places).Pairwise
        fun a b => a.2 = b.2 ↔ a.1.Alike b.1 ∧ ∀ r, a.1 ≠ .bukkit r := by
  have hstart : IsStart .empty := .inl rfl
  have hcontent : ∀ v ∈ lookalikes, v.HasContent := by simp [lookalikes, Value.HasContent]
  exact ⟨hstart, hcontent, by decide +kernel, places_agree hstart hcontent⟩

end Pool
end LolToolchain
