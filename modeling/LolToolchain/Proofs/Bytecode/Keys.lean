import LolToolchain.Bytecode.Value
import LolToolchain.Proofs.Text.Numeral
import Mathlib.Data.List.Basic

/-!
The keys of constants tell them apart: two constants have the same key when they are of the same kind
and have the same content. For templates this says that text and offsets can be read back from the one
text they are flattened to, whatever the text itself contains.
-/
namespace LolToolchain.Value

variable {v w : Value}

/-- Whether two values are of the same kind and have the same content; templates are compared by text
and offsets. -/
def Alike (v w : Value) : Prop :=
  v.retag 0 = w.retag 0

instance (v w : Value) : Decidable (v.Alike w) :=
  inferInstanceAs (Decidable (_ = _))

private theorem renderOffsets_injective : Function.Injective renderOffsets := by
  intro ms ns h
  have hinside : [(0x20 : UInt8)].intercalate (ms.map Text.ofInt) =
      [(0x20 : UInt8)].intercalate (ns.map Text.ofInt) :=
    List.append_cancel_left (List.append_cancel_right h)
  have hblank (ks : List Int) : ∀ t ∈ ks.map Text.ofInt, (0x20 : UInt8) ∉ t := by
    intro t ht hmem
    obtain ⟨k, -, rfl⟩ := List.mem_map.1 ht
    obtain hminus | ⟨hlow, -⟩ := Text.mem_ofInt hmem
    · exact absurd hminus (by decide)
    · exact absurd hlow (by decide)
  have hnil {ks : List Int} (hks : [(0x20 : UInt8)].intercalate (ks.map Text.ofInt) = []) :
      ks = [] := by
    cases ks with
    | nil => rfl
    | cons k ks =>
      -- The only piece would be a number without a text.
      have hsplit := List.splitOn_intercalate _ (hblank (k :: ks)) (List.cons_ne_nil _ _)
      rw [hks] at hsplit
      obtain ⟨hk, -⟩ := List.cons.inj hsplit
      have hread := wholeOf?_ofNat k.natAbs
      rw [Text.ofInt_eq] at hk
      rw [(List.append_eq_nil_iff.1 hk.symm).2] at hread
      cases hread
  by_cases hms : ms = []
  · subst hms
    exact (hnil hinside.symm).symm
  · have hns : ns ≠ [] := fun hns => hms (hnil (hinside.trans (by rw [hns]; rfl)))
    have hmap : ms.map Text.ofInt = ns.map Text.ofInt := by
      rw [← List.splitOn_intercalate _ (hblank ms) (by simpa using hms), hinside,
        List.splitOn_intercalate _ (hblank ns) (by simpa using hns)]
    exact List.map_injective_iff.2 Text.ofInt_injective hmap

private theorem notMem_intercalate {b sep : UInt8} (hsep : b ≠ sep) :
    ∀ {ts : List Text}, (∀ t ∈ ts, b ∉ t) → b ∉ [sep].intercalate ts
  | [], _ => List.not_mem_nil
  | [t], h => by
    rw [List.intercalate_singleton]
    exact h t List.mem_cons_self
  | t :: u :: ts, h => by
    obtain ⟨ht, hts⟩ := List.forall_mem_cons.1 h
    rw [List.intercalate_cons_cons, List.mem_append, List.mem_append, List.mem_singleton]
    rintro ((hmem | heq) | hmem)
    · exact ht hmem
    · exact hsep heq
    · exact notMem_intercalate hsep hts hmem

private theorem notMem_renderOffsets (offs : List Int) : (0 : UInt8) ∉ renderOffsets offs := by
  have hends : (0 : UInt8) ∉ ("[" : Text) ∧ (0 : UInt8) ∉ ("]" : Text) := by decide
  have hjoined : (0 : UInt8) ∉ [(0x20 : UInt8)].intercalate (offs.map Text.ofInt) := by
    refine notMem_intercalate (by decide) fun t ht hzero => ?_
    obtain ⟨n, -, rfl⟩ := List.mem_map.1 ht
    obtain hminus | ⟨hlow, -⟩ := Text.mem_ofInt hzero
    · exact absurd hminus (by decide)
    · exact absurd hlow (by decide)
  rw [renderOffsets, List.mem_append, List.mem_append]
  rintro ((h | h) | h)
  · exact hends.1 h
  · exact hjoined h
  · exact hends.2 h

/-- The last zero byte is the one in front of the offsets, so the text before it may have any. -/
private theorem flat_injective {t u : Text} {ms ns : List Int}
    (h : t ++ 0 :: renderOffsets ms = u ++ 0 :: renderOffsets ns) : t = u ∧ ms = ns := by
  have hrev := congrArg List.reverse h
  simp only [List.reverse_append, List.reverse_cons, List.append_assoc, List.singleton_append] at hrev
  have hsplit (ks : List Int) (s : Text) :
      ((renderOffsets ks).reverse ++ 0 :: s.reverse).splitOn 0 =
        (renderOffsets ks).reverse :: s.reverse.splitOn 0 :=
    List.splitOn_append_cons_self_of_not_mem
      (fun hmem => notMem_renderOffsets ks (List.mem_reverse.1 hmem)) _
  have hpieces := congrArg (List.splitOn (0 : UInt8)) hrev
  rw [hsplit, hsplit] at hpieces
  have hoffsets := List.reverse_inj.1 (List.cons.inj hpieces).1
  rw [hoffsets] at h
  exact ⟨List.append_cancel_right h, renderOffsets_injective hoffsets⟩

private theorem key?_retag (tag : Nat) (v : Value) : (v.retag tag).key? = v.key? := by
  unfold retag
  split <;> rfl

private theorem kind_of_key? {k : Key} (h : v.key? = some k) : k.kind = v.kindCode := by
  unfold key? at h
  split at h <;> cases h <;> rfl

/-- Constants with the same key are of the same kind and have the same content. -/
private theorem alike_of_key? {k : Key} (hv : v.key? = some k) (hw : w.key? = some k) : v.Alike w := by
  have hkind : v.kindCode = w.kindCode := (kind_of_key? hv).symm.trans (kind_of_key? hw)
  have hkey := hv.trans hw.symm
  cases v with
  | interp t =>
    cases w with
    | interp u =>
      cases t with
      | none => cases hv
      | some t =>
        cases u with
        | none => cases hw
        | some u =>
          obtain ⟨htext, hoffsets⟩ := flat_injective (congrArg Key.text (Option.some.inj hkey))
          simp [Alike, retag, htext, hoffsets]
    | unknown n => cases hw
    | _ => cases hkind
  | unknown n => cases hv
  | bukkit r => cases hv
  | numbar x =>
    cases w with
    | numbar y =>
      have hbits : x.bits = y.bits := congrArg Key.bits (Option.some.inj hkey)
      cases x
      cases y
      exact congrArg (fun b => retag 0 (.numbar ⟨b⟩)) hbits
    | unknown n => cases hw
    | _ => cases hkind
  | troof a =>
    cases w with
    | troof b =>
      have hnumber : (if a = true then (1 : Int64) else 0) = if b = true then 1 else 0 :=
        congrArg Key.number (Option.some.inj hkey)
      cases a <;> cases b <;> first | rfl | exact absurd hnumber (by decide)
    | unknown n => cases hw
    | _ => cases hkind
  | _ =>
    clear hv hw
    cases w <;> simp_all [key?, kindCode, Alike]

theorem key?_eq_of_alike (h : v.Alike w) : v.key? = w.key? := by
  rw [← key?_retag 0 v, h, key?_retag]

/-- What may share a place: constants with a key that are alike. -/
theorem shares_iff : v.shares w = true ↔ v.key?.isSome ∧ v.Alike w := by
  rw [shares, Bool.and_eq_true, beq_iff_eq]
  constructor
  · rintro ⟨hsome, heq⟩
    obtain ⟨k, hk⟩ := Option.isSome_iff_exists.1 hsome
    exact ⟨hsome, alike_of_key? hk (heq.symm.trans hk)⟩
  · rintro ⟨hsome, halike⟩
    exact ⟨hsome, key?_eq_of_alike halike⟩

end LolToolchain.Value
