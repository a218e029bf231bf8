import Mathlib.Data.List.Forall2
import LolToolchain.Proofs.Code.Discipline
import LolToolchain.Proofs.Machine.Transfer

/-!
What can be known of the values of a call from the instruction that comes next. A table gives each
offset what is known there; each instruction carries what is known before it to those that can follow
it. If the instructions of some code do, what is known is true in every state of a run.
-/
namespace LolToolchain

/-- What is known of the values of a call, the newest first: for each of them which value it is, or
nothing. -/
abbrev Facts := List (Option Value)

namespace Facts

/-- What is known in the first is known in the second. -/
def Within : Facts → Facts → Prop :=
  List.Forall₂ fun a b => ∀ v, a = some v → b = some v

/-- The values are those that they are known to be. -/
def Describes (k : Facts) (vs : List Value) : Prop :=
  k.Within (vs.map some)

/-- What is known after a write to a slot. -/
def forget (slot : Nat) : Facts → Facts
  | [] => []
  | a :: k => if k.length = slot then none :: k else a :: forget slot k

variable {k k' k'' : Facts} {v : Value} {vs ws us : List Value} {n : Nat}

namespace Within

theorem refl : ∀ k : Facts, k.Within k
  | [] => .nil
  | _ :: k => .cons (fun _ h => h) (refl k)

theorem trans (h : k.Within k') (h' : k'.Within k'') : k.Within k'' := by
  induction h generalizing k'' with
  | nil => exact h'
  | cons hab _ ih =>
    cases h' with
    | cons hbc h' => exact .cons (fun v hv => hbc v (hab v hv)) (ih h')

theorem drop (h : k.Within k') (n : Nat) : Facts.Within (k.drop n) (k'.drop n) :=
  List.forall₂_drop n h

theorem cons_none (a : Option Value) (h : k.Within k') : Facts.Within (none :: k) (a :: k') :=
  .cons nofun h

theorem forget (slot : Nat) : ∀ k : Facts, (k.forget slot).Within k
  | [] => .nil
  | a :: k => by
    rw [Facts.forget]
    split
    · exact (refl k).cons_none a
    · exact .cons (fun _ h => h) (forget slot k)

theorem length (h : k.Within k') : k.length = k'.length :=
  List.Forall₂.length_eq h

end Within

namespace Describes

theorem mono (h : k'.Describes vs) (hk : k.Within k') : k.Describes vs :=
  hk.trans h

private theorem length (h : k.Describes vs) : k.length = vs.length :=
  (Within.length h).trans (List.length_map some)

theorem nothing : ∀ vs : List Value, Describes (List.replicate vs.length none) vs
  | [] => .nil
  | _ :: vs => .cons nofun (nothing vs)

private theorem append (h : k.Describes vs) (h' : k'.Describes ws) : Describes (k ++ k') (vs ++ ws) := by
  rw [Describes, List.map_append]
  exact List.rel_append h h'

private theorem drop (h : k.Describes (vs ++ ws)) : Describes (k.drop vs.length) ws := by
  have hdrop := Within.drop h vs.length
  rwa [← List.map_drop, List.drop_left] at hdrop

/-- A write to a slot of which nothing is known from then on. -/
theorem write (w : Value) (h : k.Describes (ws ++ v :: vs)) :
    (k.forget vs.length).Describes (ws ++ w :: vs) := by
  induction ws generalizing k with
  | nil =>
    cases h with
    | cons ha hk =>
      rw [forget, if_pos (length hk)]
      exact .cons nofun hk
  | cons u ws ih =>
    cases h with
    | @cons a _ k _ ha hk =>
      have hrest : Facts.Describes k (ws ++ v :: vs) := hk
      have hlen : k.length ≠ vs.length := by
        rw [hrest.length, List.length_append, List.length_cons]
        omega
      rw [forget, if_neg hlen]
      exact .cons ha (ih hk)

end Describes
end Facts

namespace Chunk

/-- What is known after an instruction. -/
def after (c : Chunk) (i : Instruction) (k : Facts) : Facts :=
  match i.op with
  | .loadConst | .loadConstLong => c.pool.get? i.arg :: k
  | .writeSt | .writeStLong => Facts.forget i.arg (k.drop 1)
  | op => List.replicate op.info.pushes none ++ k.drop (c.pops i)

/-- What is known behind an instruction, and where it jumps to, is known after it; where a function is
entered nothing is known of the arguments. -/
structure Carries (c : Chunk) (L : Nat → Facts) (o : Nat) (i : Instruction) : Prop where
  next : i.op.fallsThrough = true → (L (o + i.op.length)).Within (c.after i (L o))
  jump : i.op.isJump = true → ∃ t : Nat, c.readJump (o + 1) = t ∧ (L t).Within (c.after i (L o))
  entry : i.op = .fnDef → (L (o + i.op.length)).Within (List.replicate i.arg none)

variable {c : Chunk} {i : Instruction} {k : Facts} {us vs ws : List Value}

private theorem describes_after (hpops : us.length = c.pops i) (hgives : c.Gives i ws)
    (h : k.Describes (us ++ vs)) : (c.after i k).Describes (ws ++ vs) := by
  have hdrop := h.drop
  rw [hpops] at hdrop
  obtain ⟨op, arg⟩ := i
  cases op with
  | loadConst | loadConstLong =>
    obtain ⟨v, hget, rfl⟩ := hgives
    have hsame : k.Describes vs := hdrop
    refine .cons (fun u hu => ?_) hsame
    rw [← hu, ← hget]
  | writeSt | writeStLong =>
    obtain rfl : ws = [] := List.length_eq_zero_iff.1 hgives
    exact hdrop.mono (.forget arg _)
  | _ =>
    have hlen : ws.length = _ := hgives
    have hnothing := Facts.Describes.nothing ws
    rw [hlen] at hnothing
    exact hnothing.append hdrop

end Chunk

/-- With the next instruction at an offset, the values of the current call are what they are known to
be there; and those of its callers will be, when they go on. -/
def Frame.Informed (L : Nat → Facts) : Nat → List Frame → List Value → Prop
  | _, [], _ => True
  | o, f :: fs, xs => ∃ (us : List Value) (w : Value) (rest : List Value) (r : Nat),
      xs = us ++ w :: rest ∧ f.base = rest.length + 1 ∧ (L o).Describes us ∧ f.returnTo = r ∧
      ∀ v, Informed L r fs (v :: rest)

namespace Snapshot

variable {l : Linked} {H : Heights} {L : Nat → Facts} {x y : Snapshot} {c : Chunk} {s : Settings}
variable {m m' : Machine} {i : Instruction} {o : Nat}

/-- Where a step goes on within a call, what is known after its instruction is known there. -/
private theorem within_of_transfers (hm : m.Shows x) (hm' : m'.Shows y) (hfetch : c.fetch x.next = .ok i)
    (hcarries : c.Carries L x.next i) (htransfers : m.Transfers c s m')
    (hframes : y.frames = x.frames) : (L y.next).Within (c.after i (L x.next)) := by
  rw [← hm.frames, ← hm'.frames] at hframes
  cases htransfers with
  | on j hj _ hnext =>
    rw [hm.next] at hj hnext
    obtain rfl : i = j := Except.ok.inj (hfetch.symm.trans hj)
    rw [hm'.next] at hnext
    rcases hnext with ⟨hop, hnext⟩ | ⟨hop, hnext⟩
    · have hplace : y.next = x.next + i.op.length := by omega
      rw [hplace]
      exact hcarries.next hop
    · obtain ⟨t, hread, ht⟩ := hcarries.jump hop
      rw [Int.toNat_natCast, hread, Int.natCast_inj] at hnext
      rw [hnext]
      exact ht
  | enter f _ hpushed => exact absurd (hpushed.symm.trans hframes) (List.cons_ne_self f m.frames)
  | leave f g fs hpopped hcallers =>
    rw [hpopped, hcallers] at hframes
    exact absurd hframes.symm (List.cons_ne_self f (g :: fs))

/-- The lower values of the current call, when it is known which of its values are above them. -/
private theorem split_of_le {us us' vs rest : List Value} {w : Value}
    (h : us ++ vs = us' ++ w :: rest) (hle : rest.length + 1 ≤ vs.length) :
    ∃ ws, us' = us ++ ws ∧ vs = ws ++ w :: rest := by
  rcases List.append_eq_append_iff.1 h with ⟨ws, hus, hvs⟩ | ⟨ws, hus, hrest⟩
  · exact ⟨ws, hus, hvs⟩
  · cases ws with
    | nil => exact ⟨[], by rw [List.append_nil, hus, List.append_nil], hrest.symm⟩
    | cons v ws =>
      have hlen := congrArg List.length hrest
      simp only [List.length_cons, List.length_append] at hlen
      omega

/-- One step of code that carries what is known keeps it true. -/
private theorem Fits.informed_step (hc : c.Agrees l H)
    (hL : ∀ o i, H.marked o → c.fetch o = .ok i → c.Carries L o i) (hx : x.Fits l H)
    (hm : m.Shows x) (h : Frame.Informed L x.next x.frames x.stack)
    (hstep : m.step c s = (.ok (), m')) :
    ∃ y, m'.Shows y ∧ y.Fits l H ∧ Frame.Informed L y.next y.frames y.stack := by
  obtain ⟨y, hm', hy, i, hfetch, hmoves⟩ := hx.step hc hm hstep
  refine ⟨y, hm', hy, ?_⟩
  have hcarries := hL x.next i hx.height.1 hfetch
  have hon := within_of_transfers hm hm' hfetch hcarries (Machine.transfers_of_step hstep).2
  obtain ⟨f, fs, hf, hbase⟩ := hx.frame
  rw [hf] at h
  obtain ⟨us, w, rest, r, hstack, hrest, hknown, hreturn, hcallers⟩ := id h
  cases hmoves with
  | within vs us' ws hxs hys hle hpops hgives hframes =>
    obtain ⟨low, rfl, rfl⟩ := split_of_le (hxs.symm.trans hstack) (by omega)
    rw [hframes, hf, hys, ← List.append_assoc]
    exact ⟨ws ++ low, w, rest, r, rfl, hrest,
      (Chunk.describes_after hpops hgives hknown).mono (hon hframes), hreturn, hcallers⟩
  | write top old ws vs hop hxs hys hslot hframes =>
    have hsplit : (top :: (ws ++ [old])) ++ vs = us ++ w :: rest := by
      rw [← hstack, hxs, List.cons_append, List.append_assoc, List.singleton_append]
    obtain ⟨low, rfl, rfl⟩ := split_of_le hsplit (by omega)
    have harg : low.length = i.arg := by
      rw [List.length_append, List.length_cons] at hslot
      omega
    have hwritten : Facts.forget i.arg ((L x.next).drop 1) = c.after i (L x.next) := by
      obtain ⟨op, arg⟩ := i
      rcases hop with rfl | rfl <;> rfl
    have hbelow : Facts.Describes ((L x.next).drop 1) (ws ++ old :: low) := by
      rw [List.cons_append, List.append_assoc, List.singleton_append] at hknown
      exact Facts.Within.drop hknown 1
    have hnow := hbelow.write top
    rw [harg, hwritten] at hnow
    rw [hframes, hf, hys, ← List.cons_append, ← List.append_assoc]
    exact ⟨ws ++ top :: low, w, rest, r, rfl, hrest, hnow.mono (hon hframes), hreturn, hcallers⟩
  | enter args vs offset a hop hxs hle hys hframes himplicit hoffset hmarker hentry =>
    have hsplit : (args ++ [Value.funkshon offset]) ++ vs = us ++ w :: rest := by
      rw [← hstack, hxs, List.append_assoc, List.singleton_append]
    obtain ⟨low, rfl, rfl⟩ := split_of_le hsplit (by omega)
    have hcallee : (Value.funkshon offset).Valid l x.heap.size :=
      hx.stack _ (by rw [hxs]; exact List.mem_append_right _ List.mem_cons_self)
    obtain ⟨a', _, hoffset', hmarked, -⟩ := hc.exists_marker hcallee
    obtain rfl : a = a' := by omega
    have hargs : (L y.next).Within (List.replicate args.length none) := by
      rw [hentry]
      exact (hL a _ hmarked hmarker).entry rfl
    -- the caller goes on behind the call, with its values but for the callee and the arguments
    have hback : ∀ v, Facts.Describes (L (x.next + Opcode.call.length)) (v :: low) := by
      intro v
      have hpops : (args ++ [Value.funkshon offset]).length = c.pops i := by
        rw [hop, List.length_append]
        rfl
      have hgives : c.Gives i [v] := by
        rw [hop]
        rfl
      have hnext := hcarries.next (by rw [hop]; rfl)
      rw [hop] at hnext hpops hgives
      exact (Chunk.describes_after hpops hgives hknown).mono hnext
    rw [hframes, hys, hxs, hf]
    refine ⟨args, .funkshon offset, low ++ w :: rest, x.next + Opcode.call.length, rfl, rfl,
      (Facts.Describes.nothing args).mono hargs, rfl, fun v => ?_⟩
    exact ⟨v :: low, w, rest, r, rfl, hrest, hback v, hreturn, hcallers⟩
  | leave f' g fs' v us' vs hop hxs hb hys hframes hcaller hnext hsaved =>
    rw [hf] at hframes
    obtain ⟨rfl, rfl⟩ := List.cons.inj hframes
    have hsame : vs = rest := by
      have hsuffix : vs <:+ us ++ w :: rest := by
        rw [← hstack, hxs]
        exact (List.suffix_append us' vs).trans (List.suffix_cons v _)
      have hrest' : rest <:+ us ++ w :: rest :=
        (List.suffix_cons w rest).trans (List.suffix_append us _)
      exact (List.suffix_of_suffix_length_le hsuffix hrest' (by omega)).eq_of_length (by omega)
    subst hsame
    rw [hcaller, hys]
    have hr : y.next = r := by
      rw [hreturn] at hnext
      exact (Int.natCast_inj.1 hnext).symm
    rw [hr]
    exact hcallers v

/-- What is known is true in every state of a run. -/
theorem Fits.informed_run (hc : c.Agrees l H)
    (hL : ∀ o i, H.marked o → c.fetch o = .ok i → c.Carries L o i) :
    ∀ {n : Nat} {x : Snapshot} {m m' : Machine}, x.Fits l H → m.Shows x →
      Frame.Informed L x.next x.frames x.stack → m.runFor c s n = (none, m') →
      ∃ y, m'.Shows y ∧ y.Fits l H ∧ Frame.Informed L y.next y.frames y.stack
  | 0, x, m, m', hx, hm, h, hrun => by
    cases hrun
    exact ⟨x, hm, hx, h⟩
  | n + 1, x, m, m', hx, hm, h, hrun => by
    rw [Machine.runFor] at hrun
    cases hstep : m.step c s with
    | mk r m₁ =>
      rw [hstep] at hrun
      cases r with
      | error e => cases hrun
      | ok u =>
        obtain ⟨y, hm₁, hy, h₁⟩ := hx.informed_step hc hL hm h hstep
        exact Fits.informed_run hc hL hy hm₁ h₁ hrun

end Snapshot
end LolToolchain
