import LolToolchain.Proofs.Code.Records

/-!
The code of statements carries what is recorded of the names that it is compiled with, as long as
loops keep what they have recorded at their start.
-/
namespace LolToolchain

open Chunk

variable {c : Chunk} {address : Nat → Nat} {outer : List Names} {ns ms : Names} {span : Span}
variable {a b m m₁ m₂ m₃ : Nat} {k k' : Facts} {L : Nat → Facts} {P : (Nat → Facts) → Prop}
variable {outs : (Nat → Facts) → Prop} {ends : Facts → Prop}

/-- The write to a name, whose value is on top. -/
theorem Ident.WrittenAt.works {id : Ident} (h : id.WrittenAt c ns a b) (ha : c.Boundary a) :
    c.Works ns.records a b (none :: ns.records) (ns.written id.name).records := by
  have hbase := List.suffix_cons none ns.records
  unfold Ident.WrittenAt at h
  unfold Names.written
  split at h
  · rename_i hit
    rw [if_pos hit]
    exact h.works ha hbase rfl rfl
  · rename_i hit
    rw [if_neg hit]
    split at h
    · rename_i n hn
      rw [Names.records_forget hn]
      exact h.works ha hbase rfl rfl ⟨rfl, rfl⟩
    · exact h.elim

/-- Behind a stretch without jumps stands a jump that takes its value. -/
theorem Chunk.Works.test {t : Nat} (h₁ : c.Works k a m k (none :: k))
    (h₂ : c.HasJump .jumpIfFalse t span m b) :
    c.Flows a b k (·.Within k) (fun L => (L t).Within k)
      fun L => ∀ o, a ≤ o → o < b → k <:+ L o := by
  refine (h₁.flows.append (.test h₂ h₁.stop)).mono (fun _ h => h) (fun _ _ h => h) ?_
  rintro L - - - ⟨hL₁, hL₂⟩ o hao hob
  rcases Nat.lt_or_ge o m with hom | hmo
  · exact hL₁ o hao hom
  · rw [hL₂ o hmo hob]
    exact List.suffix_cons none k

namespace LoopUpdate

variable {update : Option LoopUpdate} {exit slot : Nat}

theorem works_start (h : StartAt c a b update) (ha : c.Boundary a) :
    c.Works ns.records a b ns.records (names update ns).records := by
  cases update with
  | none =>
    obtain rfl := h
    exact .refl ha
  | some u => exact HasConstant.works h ha (List.suffix_refl _)

theorem flows_test (h : TestAt c outer ns exit a b update) (ha : c.Boundary a) :
    c.Flows a b ns.records (·.Within ns.records) (fun L => (L exit).Within ns.records)
      fun L => ns.NotedAt L a b := by
  have hbase := List.suffix_refl ns.records
  have hempty : c.Flows a a ns.records (·.Within ns.records) (fun L => (L exit).Within ns.records)
      fun L => ns.NotedAt L a a :=
    .refl ha fun _ _ _ hao hoa => absurd hao (Nat.not_le_of_lt hoa)
  cases update with
  | none =>
    obtain rfl := h
    exact hempty
  | some u =>
    simp only [TestAt] at h
    cases ht : u.test with
    | forever =>
      rw [ht] at h
      obtain rfl := h
      exact hempty
    | untilTrue e =>
      rw [ht] at h
      obtain ⟨m₁, m₂, he, hnot, hjump⟩ := h
      have h₁ := e.works he ha hbase
      exact (h₁.trans (hnot.works h₁.stop (Facts.suffix_push hbase) rfl rfl)).test hjump
    | whileTrue e =>
      rw [ht] at h
      obtain ⟨m, he, hjump⟩ := h
      exact (e.works he ha hbase).test hjump

/-- The change of a loop's variable, of which nothing is known. -/
theorem works_change (h : ChangeAt c outer ms ns.length a b update) (ha : c.Boundary a) :
    c.Works (names update ns).records a b (names update ns).records (names update ns).records := by
  cases update with
  | none =>
    obtain rfl := h
    exact .refl ha
  | some u =>
    obtain ⟨m, hwrite, hchange⟩ := h
    have hbase := List.suffix_refl (names (some u) ns).records
    have hbase₁ := Facts.suffix_push hbase
    have hforget : Facts.forget ns.length (names (some u) ns).records = (names (some u) ns).records :=
      if_pos (Names.length_records ns)
    suffices h₁ : c.Works (names (some u) ns).records a m (names (some u) ns).records
        (none :: (names (some u) ns).records) from
      h₁.trans (hwrite.works h₁.stop hbase₁ rfl rfl ⟨hforget, hforget⟩)
    cases hu : u.change with
    | up | down =>
      rw [hu] at hchange
      obtain ⟨m₁, m₂, hread, hone, hop⟩ := hchange
      have h₁ : c.Works _ a m₁ _ (none :: (names (some u) ns).records) :=
        hread.works ha hbase rfl rfl ⟨rfl, rfl⟩
      have h₂ := h₁.trans (hone.works h₁.stop hbase₁)
      exact h₂.trans (hop.works h₂.stop (Facts.suffix_push hbase₁) rfl rfl)
    | apply f =>
      rw [hu] at hchange
      obtain ⟨m₁, m₂, hf, hread, hcall⟩ := hchange
      have h₁ := hf.works ha hbase
      have h₂ : c.Works _ a m₂ _ (none :: none :: (names (some u) ns).records) :=
        h₁.trans (hread.works h₁.stop hbase₁ rfl rfl ⟨rfl, rfl⟩)
      exact h₂.trans (hcall.works h₂.stop (Facts.suffix_push hbase₁) rfl rfl)

end LoopUpdate

namespace Exit

/-- `GTFO` leaves at most as many variables as there are. -/
def Below (n : Nat) : Exit → Prop
  | .none | .function => True
  | .to height _ => height ≤ n

/-- Where `GTFO` leads, no more is known than what is recorded of the names that are left. -/
def Receives (ns : Names) (L : Nat → Facts) : Exit → Prop
  | .none | .function => True
  | .to height target => (L target).Within (ns.keep height).records

variable {exit : Exit} {n : Nat}

theorem Below.mono (h : exit.Below n) {n' : Nat} (hn : n ≤ n') : exit.Below n' := by
  match exit, h with
  | .none, _ | .function, _ => trivial
  | .to height target, h => exact Nat.le_trans h hn

theorem Receives.of_fades (h : exit.Receives ms L) (hbelow : exit.Below ns.length)
    (hfades : ns.Fades ms) : exit.Receives ns L := by
  match exit, h, hbelow with
  | .none, _, _ | .function, _, _ => trivial
  | .to height target, h, hbelow => exact Facts.Within.trans h (hfades.of_le hbelow)

theorem Receives.of_keep (h : exit.Receives (ms.keep n) L) (hbelow : exit.Below n) :
    exit.Receives ms L := by
  match exit, h, hbelow with
  | .none, _, _ | .function, _, _ => trivial
  | .to height target, h, hbelow =>
    change (L target).Within ((ms.keep n).keep height).records at h
    rw [Names.keep_keep hbelow] at h
    exact h

/-- The code of `GTFO`. -/
theorem flows (h : exit.Placed c ns span a b) (ha : c.Boundary a) :
    c.Flows a b ns.records ends (exit.Receives ns) fun L => ns.NotedAt L a (a + 1) := by
  have hbase := List.suffix_refl ns.records
  have honly : ∀ {o}, a ≤ o → o < a + 1 → o = a := fun hao hoa => by omega
  match exit, h with
  | .none, h => exact h.elim
  | .function, ⟨m, hnoob, hret⟩ =>
    have h₁ := hnoob.works ha hbase
    refine (h₁.flows.append (.ret hret h₁.stop)).mono (fun _ h => h) (fun _ _ h => h) ?_
    rintro L - - - ⟨hL, -⟩ o hao hoa
    obtain rfl := honly hao hoa
    exact hL o (Nat.le_refl o) hnoob.lt
  | .to height target, ⟨m, hpops, hjump⟩ =>
    have h₁ := hpops.works ha hbase
    rw [← Names.records_keep] at h₁
    refine (h₁.flows.append (.jump hjump h₁.stop)).mono (fun _ h => h) (fun _ _ h => h) ?_
    rintro L - - - ⟨hL₁, hL₂⟩ o hao hoa
    obtain rfl := honly hao hoa
    unfold HasPops at hpops
    split at hpops
    · rename_i hzero
      subst hpops
      rw [hL₂ o (Nat.le_refl o) hjump.1.lt, Names.records_keep, hzero]
      exact List.suffix_refl _
    · exact hL₁ o (Nat.le_refl o) hpops.lt

end Exit

/-- The code behind a function's body. -/
theorem flows_return {body : List Stmt} (hbody : c.Flows m₁ m₂ k (·.Within k') outs P)
    (hends : endsInReturn body = true → c.Flows m₁ m₂ k (fun _ => True) outs P)
    (h : ReturnAt c span body m₂ m₃) : c.Flows m₁ m₃ k (fun _ => True) outs P := by
  unfold ReturnAt at h
  split at h
  · subst h
    exact hends ‹_›
  · obtain ⟨m, hread, hret⟩ := h
    have h₁ : c.Works k' m₂ m k' (none :: k') :=
      hread.works hbody.stop (List.suffix_refl k') rfl rfl
    exact ((hbody.append h₁.flows).append (.ret hret h₁.stop)).mono (fun _ h => h) (fun _ _ h => h)
      fun _ _ _ _ h => h.1.1

/-- A statement without jumps. -/
theorem Chunk.Works.noted (h : c.Works ns.records a b ns.records ms.records) {Q : Prop} (hQ : Q) :
    c.Flows a b ns.records (·.Within ms.records) outs fun L => Q ∧ ns.NotedAt L a b :=
  h.flows.mono (fun _ h => h) (fun _ _ h => h) fun _ _ _ _ hL => ⟨hQ, hL⟩

/-- The marker of a function: it is entered with its arguments, of which nothing is known. -/
theorem Chunk.Flows.marker {n : Nat} (h : c.Has .fnDef n span a b) (ha : c.Boundary a) :
    c.Flows a b (List.replicate n none) (·.Within (List.replicate n none)) outs fun _ => True := by
  have hflows : c.Flows a b (List.replicate n none) (·.Within (List.replicate n none)) outs
      fun L => ∀ o, a ≤ o → o < b → L o = List.replicate n none :=
    .single h ha fun L hk hend _ => by
      rw [h.2.2] at hend
      exact ⟨fun _ => by rw [hk]; exact hend, nofun, fun _ => hend⟩
  exact hflows.mono (fun _ h => h) (fun _ _ h => h) fun _ _ _ _ _ => trivial

/-- The end of a block: the names that were there before are left. -/
theorem Chunk.HasPops.works_keep {n : Nat} (h : c.HasPops (ms.length - n) span a b)
    (ha : c.Boundary a) : c.Works ms.records a b ms.records (ms.keep n).records := by
  rw [Names.records_keep]
  exact h.works ha (List.suffix_refl _)

theorem Block.length_namesOption (block : Option Block) (k : Nat) (ns : Names) :
    (Block.namesOption address k block ns).length = ns.length := by
  rw [← Names.length_texts, Block.texts_namesOption, Names.length_texts]

theorem Arm.length_namesAll (arms : List Arm) (k : Nat) (ns : Names) :
    (Arm.namesAll address k arms ns).length = ns.length := by
  rw [← Names.length_texts, Arm.texts_namesAll, Names.length_texts]

/-- Behind a return nothing needs to be known. -/
theorem Stmt.flows_ret {s : Span} {value : Expr} {exit : Exit} {k : Nat}
    (h : (Stmt.ret s value).Placed c address outer exit k ns a b) (ha : c.Boundary a) :
    c.Flows a b ns.records ends outs
      fun L => (Stmt.ret s value).Noted c address L outer exit k ns a b := by
  obtain ⟨m, hvalue, hret⟩ := id h
  have h₁ := value.works hvalue ha (List.suffix_refl ns.records)
  refine (h₁.flows.append (.ret hret h₁.stop)).mono (fun _ h => h) (fun _ _ h => h) ?_
  rintro L - - - ⟨hL₁, hL₂⟩
  refine ⟨h, fun o hao hob => ?_⟩
  rcases Nat.lt_or_ge o m with hom | hmo
  · exact hL₁ o hao hom
  · rw [hL₂ o hmo hob]
    exact List.suffix_cons none _

/-- What flows through a statement: what is recorded before it is known where its code starts, and
no more than what is recorded after it is known at its end. -/
abbrev Stmt.FlowsFrom (c : Chunk) (address : Nat → Nat) (s : Stmt) (outer : List Names)
    (exit : Exit) (k : Nat) (ns : Names) (a b : Nat) : Prop :=
  c.Flows a b ns.records (·.Within (s.names address k ns).records)
    (exit.Receives (s.names address k ns)) fun L => s.Noted c address L outer exit k ns a b

/-- What flows through a body; behind a return at its end nothing needs to be known. -/
abbrev Stmt.FlowsBody (c : Chunk) (address : Nat → Nat) (body : List Stmt) : Prop :=
  ∀ {outer : List Names} {exit : Exit} {k : Nat} {ns : Names} {a b : Nat},
    Stmt.PlacedAll c address outer exit k body ns a b → c.Boundary a →
    Stmt.LoopsKeepAll address k body ns → exit.Below ns.length →
    c.Flows a b ns.records (·.Within (Stmt.namesAll address k body ns).records)
        (exit.Receives (Stmt.namesAll address k body ns))
        (fun L => Stmt.NotedAll c address L outer exit k body ns a b) ∧
      (endsInReturn body = true → c.Flows a b ns.records (fun _ => True)
        (exit.Receives (Stmt.namesAll address k body ns))
        fun L => Stmt.NotedAll c address L outer exit k body ns a b)

abbrev Block.FlowsOption (c : Chunk) (address : Nat → Nat) (block : Option Block) : Prop :=
  ∀ {outer : List Names} {exit : Exit} {k : Nat} {span : Span} {ns : Names} {a b : Nat},
    Block.PlacedOption c address outer exit k span block ns a b → c.Boundary a →
    Block.LoopsKeepOption address k block ns → exit.Below ns.length →
    c.Flows a b ns.records (·.Within (Block.namesOption address k block ns).records)
      (exit.Receives (Block.namesOption address k block ns))
      fun L => Block.NotedOption c address L outer exit k span block ns a b

/-- What flows through the arms of a switch, whose first body is met from the arm before. -/
abbrev Arm.FlowsSwitch (c : Chunk) (address : Nat → Nat) (arms : List Arm) : Prop :=
  ∀ {outer : List Names} {exit : Exit} {k : Nat} {span : Span} {ns : Names} {a entry b : Nat},
    Arm.PlacedSwitch c address outer exit k span arms ns a entry b → c.Boundary a →
    Arm.LoopsKeepAll address k arms ns → exit.Below ns.length →
    c.Flows a b ns.records (·.Within (Arm.namesAll address k arms ns).records)
      (exit.Receives (Arm.namesAll address k arms ns))
      fun L => Arm.NotedSwitch c address L outer exit k span arms ns a entry b ∧
        (L entry).Within ns.records

abbrev Arm.FlowsBranch (c : Chunk) (address : Nat → Nat) (arms : List Arm) : Prop :=
  ∀ {outer : List Names} {exit : Exit} {k : Nat} {span : Span} {beyond : Nat} {ns : Names}
    {a b : Nat},
    Arm.PlacedBranch c address outer exit k span beyond arms ns a b → c.Boundary a →
    Arm.LoopsKeepAll address k arms ns → exit.Below ns.length →
    c.Flows a b ns.records (·.Within (Arm.namesAll address k arms ns).records)
      (fun L => exit.Receives (Arm.namesAll address k arms ns) L ∧
        (L beyond).Within (Arm.namesAll address k arms ns).records)
      fun L => Arm.NotedBranch c address L outer exit k span beyond arms ns a b

private theorem flows_definition {s sp : Span} {name : Ident} {params : List Ident}
    {body : List Stmt} {outer : List Names} {exit : Exit} {k : Nat}
    (hall : Stmt.FlowsBody c address body)
    (h : (Stmt.define s name params (.mk sp body)).Placed c address outer exit k ns a b)
    (ha : c.Boundary a)
    (hkeep : (Stmt.define s name params (.mk sp body)).LoopsKeep address k ns) :
    (Stmt.define s name params (.mk sp body)).FlowsFrom c address outer exit k ns a b := by
  obtain ⟨m₁, m₂, m₃, hskip, hmarker, hbody, hret, hconst⟩ := h
  have hstart := ha.next hskip.1.1
  rw [← hskip.1.2.2] at hstart
  have hinner := hstart.next hmarker.1
  rw [← hmarker.2.2] at hinner
  obtain ⟨hflows, hends⟩ := hall hbody hinner hkeep trivial
  have hfunction := flows_return hflows hends hret
  rw [Names.records_ofParams] at hfunction
  -- the jump over the function leads to where its value is pushed
  have hjump : c.Flows a (address k) ns.records
      (·.Within (List.replicate params.length none)) (fun L => (L m₃).Within ns.records)
      fun L => ∀ o, a ≤ o → o < address k → L o = ns.records := .jump hskip ha
  have h₁ := hjump.append ((Flows.marker hmarker hstart).append
    (hfunction.mono (fun _ h => h) (fun _ _ _ => trivial) fun _ _ _ _ hL => hL))
  have h₂ := hconst.works_known h₁.stop (List.suffix_refl ns.records)
  refine ((h₁.mono (fun _ _ => trivial) (fun _ _ h => h) fun _ _ _ _ hL => hL).trans h₂
    (fun _ _ _ _ => trivial) fun _ _ _ hm _ => hm).mono (fun _ h => h) (fun _ _ h => h) ?_
  rintro L - - - ⟨⟨hL₁, -, hL⟩, -, hL₂⟩
  have hbefore : ns.NotedAt L a (address k) := fun o hao hob => ⟨[], (hL₁ o hao hob).symm⟩
  exact ⟨m₁, m₂, m₃, hskip, hbefore, hmarker, hL, hret, hconst, hL₂⟩

private theorem flows_switch {s : Span} {arms : List Arm} {otherwise : Option Block}
    {outer : List Names} {exit : Exit} {k : Nat} (hall : Arm.FlowsSwitch c address arms)
    (hlast : Block.FlowsOption c address otherwise)
    (h : (Stmt.switch s arms otherwise).Placed c address outer exit k ns a b) (ha : c.Boundary a)
    (hkeep : (Stmt.switch s arms otherwise).LoopsKeep address k ns) :
    (Stmt.switch s arms otherwise).FlowsFrom c address outer exit k ns a b := by
  obtain ⟨entry, m, harms, hdefault⟩ := h
  let ns₁ := Arm.namesAll address k arms ns
  let ns₂ := Block.namesOption address (k + Arm.definitionsAll arms) otherwise ns₁
  have hlen₁ : ns₁.length = ns.length := Arm.length_namesAll arms k ns
  have hlen₂ : ns₂.length = ns.length := (Block.length_namesOption otherwise _ ns₁).trans hlen₁
  have hle : ns.length ≤ ns₁.length := Nat.le_of_eq hlen₁.symm
  have h₁ := hall harms ha hkeep.1 (Nat.le_refl ns.length)
  have h₂ := hlast hdefault h₁.stop hkeep.2 hle
  -- `GTFO` leads to the end
  have hland : ∀ L : Nat → Facts, (L b).Within ns₂.records →
      (Exit.to ns.length b).Receives ns₂ L := by
    intro L hb
    change (L b).Within (ns₂.keep ns.length).records
    rw [← hlen₂, Names.keep_self]
    exact hb
  refine (h₁.trans h₂ (fun L hb _ _ => hland L hb) fun L hb _ _ _ => (hland L hb).of_fades hle
    (Block.fades_namesOption otherwise _ ns₁)).mono (fun _ h => h) (fun _ _ h => h) ?_
  rintro L - - - ⟨⟨hL₁, -⟩, -, hL₂⟩
  exact ⟨entry, m, hL₁, hL₂⟩

private theorem flows_branch {s : Span} {yes no : Option Block} {arms : List Arm}
    {outer : List Names} {exit : Exit} {k : Nat} (hfirst : Block.FlowsOption c address yes)
    (hall : Arm.FlowsBranch c address arms) (hlast : Block.FlowsOption c address no)
    (h : (Stmt.branch s yes arms no).Placed c address outer exit k ns a b) (ha : c.Boundary a)
    (hkeep : (Stmt.branch s yes arms no).LoopsKeep address k ns) (hexit : exit.Below ns.length) :
    (Stmt.branch s yes arms no).FlowsFrom c address outer exit k ns a b := by
  obtain ⟨m₁, m₂, m₃, next, m₄, hread, htest, hyes, hdone, harms, hno⟩ := h
  have hbase := List.suffix_refl ns.records
  let k' := k + Block.definitionsOption yes
  let ns₁ := Block.namesOption address k yes ns
  let ns₂ := Arm.namesAll address k' arms ns₁
  let ns₃ := Block.namesOption address (k' + Arm.definitionsAll arms) no ns₂
  have hfades₁ : ns.Fades ns₁ := Block.fades_namesOption yes k ns
  have hfades₃ : ns₂.Fades ns₃ := Block.fades_namesOption no _ ns₂
  have hfades₂ : ns₁.Fades ns₃ := (Arm.fades_namesAll arms k' ns₁).trans hfades₃
  have hlen₁ : ns₁.length = ns.length := Block.length_namesOption yes k ns
  have hlen₂ : ns₂.length = ns₁.length := Arm.length_namesAll arms k' ns₁
  have hlen₃ : ns₃.length = ns₂.length := Block.length_namesOption no _ ns₂
  have hexit₁ := hexit.mono hfades₁.length_le
  have hexit₂ := hexit₁.mono (Nat.le_of_eq hlen₂.symm)
  let out : (Nat → Facts) → Prop := fun L => exit.Receives ns₃ L ∧ (L b).Within ns₃.records
  have h₀ := (hread.works ha hbase rfl rfl).test htest
  have h₁ := (hfirst hyes h₀.stop hkeep.1 hexit).under out
    fun L _ hout => hout.1.of_fades hexit₁ hfades₂
  have hjump : c.Flows m₃ next ns₁.records (·.Within ns₁.records) _ _ := .jump hdone h₁.stop
  have h₂ := h₁.append (hjump.under out fun L _ hout =>
    hout.2.trans (hfades₂.within (hlen₃.trans hlen₂)))
  have h₃ := h₀.trans h₂ (fun _ _ hout _ => hout) fun L hend _ _ _ =>
    Facts.Within.trans hend (hfades₁.within hlen₁)
  have h₄ := (hall harms hjump.stop hkeep.2.1 hexit₁).under out
    fun L _ hout => ⟨hout.1.of_fades hexit₂ hfades₃, hout.2.trans (hfades₃.within hlen₃)⟩
  have h₅ := (hlast hno h₄.stop hkeep.2.2 hexit₂).under out
    fun L _ hout => hout.1
  refine ((h₃.append h₄).append h₅).mono (fun _ h => h) (fun L hb hout => ⟨hout, hb⟩) ?_
  rintro L - - - ⟨⟨⟨hL₀, -, hL₁, -⟩, hL₂⟩, hL₃⟩
  exact ⟨m₁, m₂, m₃, next, m₄, hread, htest, hL₀, hL₁, hdone, hL₂, hL₃⟩

private theorem flows_loop {s sp : Span} {op label : Ident} {update : Option LoopUpdate}
    {body : List Stmt} {outer : List Names} {exit : Exit} {k : Nat}
    (hall : Stmt.FlowsBody c address body)
    (h : (Stmt.loop s op label update (.mk sp body)).Placed c address outer exit k ns a b)
    (ha : c.Boundary a)
    (hkeep : (Stmt.loop s op label update (.mk sp body)).LoopsKeep address k ns) :
    (Stmt.loop s op label update (.mk sp body)).FlowsFrom c address outer exit k ns a b := by
  obtain ⟨start, m₁, m₂, m₃, m₄, beyond, hstart, htest, hbody, hpops, hchange, hjump, hdrop⟩ := h
  let inner := LoopUpdate.names update ns
  let after := Stmt.namesAll address k body inner
  obtain ⟨hsame, hkeep⟩ := hkeep
  have hsame : after.keep inner.length = inner := hsame
  let out : (Nat → Facts) → Prop := fun L => (L beyond).Within inner.records
  have h₀ : c.Works ns.records a start ns.records inner.records := LoopUpdate.works_start hstart ha
  have h₁ : c.Flows start m₁ inner.records (·.Within inner.records) out
      fun L => inner.NotedAt L start m₁ := LoopUpdate.flows_test htest h₀.stop
  have h₂ := (hall hbody h₁.stop hkeep (Nat.le_refl inner.length)).1.under out fun L _ hout => by
      change (L beyond).Within (after.keep inner.length).records
      rw [hsame]
      exact hout
  have h₃ := hpops.works_keep h₂.stop
  rw [hsame] at h₃
  have h₄ := LoopUpdate.works_change hchange h₃.stop
  -- what is recorded at the end of the body is what the jump back needs at its start
  have hback : c.Flows m₄ beyond inner.records (·.Within inner.records) _ _ :=
    .jump hjump h₄.stop
  have h₅ := (((h₁.append h₂).append h₃.flows).append h₄.flows).trans hback
    (fun _ _ _ hs => hs) fun _ _ hout _ _ => hout
  have h₆ := hdrop.works_keep h₅.stop
  have hleft : (after.keep inner.length).keep ns.length = after.keep ns.length :=
    Names.keep_keep (Names.Fades.counter update ns).length_le after
  rw [hsame] at hleft
  rw [hleft] at h₆
  refine ((h₀.flows.append (h₅.under _ fun L hb _ => hb)).append h₆.flows).mono (fun _ h => h)
    (fun _ _ h => h) ?_
  rintro L - - - ⟨⟨hL₀, ⟨⟨⟨hL₁, hL₂⟩, -⟩, hL₃⟩, -⟩, -⟩
  exact ⟨start, m₁, m₂, m₃, m₄, beyond, hstart, hL₀, htest, hL₁, hL₂, hpops, hchange, hL₃, hjump,
    hdrop⟩

mutual

theorem Stmt.flows : ∀ (s : Stmt) {outer : List Names} {exit : Exit} {k : Nat} {ns : Names}
    {a b : Nat}, s.Placed c address outer exit k ns a b → c.Boundary a → s.LoopsKeep address k ns →
    exit.Below ns.length → s.FlowsFrom c address outer exit k ns a b
  | .assign _ _ value, _, _, _, ns, _, _, h, ha, _, _ => by
    obtain ⟨m, hvalue, hwrite⟩ := id h
    have h₁ := value.works hvalue ha (List.suffix_refl ns.records)
    exact (h₁.trans (hwrite.works h₁.stop)).noted h
  | .declare _ _ _, _, _, _, ns, _, _, h, ha, _, _ =>
    Works.noted (Initial.works h ha (List.suffix_refl ns.records)) h
  | .load _ _, _, _, _, ns, _, _, h, ha, _, _ => by
    obtain rfl := id h
    have h₁ : c.Works ns.records _ _ ns.records ns.records := .refl ha
    exact h₁.noted h
  | .define _ _ _ (.mk _ body), _, _, _, _, _, _, h, ha, hkeep, _ =>
    flows_definition (Stmt.flowsAll body) h ha hkeep
  | .expr _ value, _, _, _, ns, _, _, h, ha, _, _ => by
    obtain ⟨m, hvalue, hwrite⟩ := id h
    have hbase := List.suffix_refl ns.records
    have h₁ := value.works hvalue ha hbase
    exact (h₁.trans (hwrite.works h₁.stop (Facts.suffix_push hbase) rfl rfl)).noted h
  | .switch _ arms otherwise, _, _, _, _, _, _, h, ha, hkeep, _ =>
    flows_switch (Arm.flowsSwitch arms) (Block.flowsOption otherwise) h ha hkeep
  | .branch _ yes arms no, _, _, _, _, _, _, h, ha, hkeep, hexit =>
    flows_branch (Block.flowsOption yes) (Arm.flowsBranch arms) (Block.flowsOption no) h ha hkeep
      hexit
  | .cast _ name _, _, _, _, ns, _, _, h, ha, _, _ => by
    obtain ⟨m₁, m₂, hread, hcast, hwrite⟩ := id h
    have hbase := List.suffix_refl ns.records
    have h₁ := hread.works ha hbase
    have h₂ := h₁.trans (hcast.works h₁.stop (Facts.suffix_push hbase) rfl rfl)
    exact (h₂.trans (hwrite.works h₂.stop)).noted h
  | .leave _, _, _, _, _, _, _, h, ha, _, _ =>
    (Exit.flows h ha).mono (fun _ h => h) (fun _ _ h => h) fun _ _ _ _ hL => ⟨h, hL⟩
  | .loop _ _ _ _ (.mk _ body), _, _, _, _, _, _, h, ha, hkeep, _ =>
    flows_loop (Stmt.flowsAll body) h ha hkeep
  | .ret _ _, _, _, _, _, _, _, h, ha, _, _ => Stmt.flows_ret h ha
  | .print _ _ _, _, _, _, ns, _, _, h, ha, _, _ => by
    obtain ⟨m, hargs, hprint⟩ := id h
    have hbase := List.suffix_refl ns.records
    have h₁ := works_printed hargs ha hbase
    exact (h₁.trans (hprint.works h₁.stop (Facts.suffix_push hbase) rfl rfl)).noted h
  | .read _ _, _, _, _, ns, _, _, h, ha, _, _ => by
    obtain ⟨m, hread, hwrite⟩ := id h
    have h₁ : c.Works ns.records _ m ns.records (none :: ns.records) :=
      hread.works ha (List.suffix_refl ns.records) rfl rfl
    exact (h₁.trans (hwrite.works h₁.stop)).noted h
  | .append _ _ value, _, _, _, ns, _, _, h, ha, _, _ => by
    obtain ⟨m₁, m₂, hread, hvalue, happend⟩ := id h
    have hbase := List.suffix_refl ns.records
    have hbase₁ := Facts.suffix_push hbase
    have h₁ := hread.works ha hbase
    have h₂ := h₁.trans (value.works hvalue h₁.stop hbase₁)
    exact (h₂.trans (happend.works h₂.stop (Facts.suffix_push hbase₁) rfl rfl)).noted h
  | .store _ _ index value, _, _, _, ns, _, _, h, ha, _, _ => by
    obtain ⟨m₁, m₂, m₃, hread, hindex, hvalue, hset⟩ := id h
    have hbase := List.suffix_refl ns.records
    have hbase₁ := Facts.suffix_push hbase
    have hbase₂ := Facts.suffix_push hbase₁
    have h₁ := hread.works ha hbase
    have h₂ := h₁.trans (index.works hindex h₁.stop hbase₁)
    have h₃ := h₂.trans (value.works hvalue h₂.stop hbase₂)
    exact (h₃.trans (hset.works h₃.stop (Facts.suffix_push hbase₂) rfl rfl)).noted h

theorem Stmt.flowsAll : ∀ body : List Stmt, Stmt.FlowsBody c address body
  | [], _, _, _, _, _, _, h, ha, _, _ => by
    obtain rfl := h
    exact ⟨.refl ha fun _ _ => rfl, nofun⟩
  | s :: ss, _, exit, k, ns, _, _, h, ha, hkeep, hexit => by
    obtain ⟨m, hs, hss⟩ := h
    have hfades : ns.Fades (s.names address k ns) := Stmt.fades_names s k ns
    have hexit' := hexit.mono hfades.length_le
    have h₁ := (Stmt.flows s hs ha hkeep.1 hexit).under
      (exit.Receives (Stmt.namesAll address k (s :: ss) ns)) fun L _ hout =>
        hout.of_fades hexit' (Stmt.fades_namesAll ss _ _)
    obtain ⟨h₂, hends₂⟩ := Stmt.flowsAll ss hss h₁.stop hkeep.2 hexit'
    refine ⟨(h₁.append h₂).mono (fun _ h => h) (fun _ _ h => h) fun L _ _ _ hL => ⟨m, hL⟩,
      fun hends => ?_⟩
    rcases endsInReturn_cons hends with ⟨rfl, _, value, rfl⟩ | hends
    · obtain rfl := hss
      exact (Stmt.flows_ret hs ha).mono (fun _ h => h) (fun _ _ h => h)
        fun _ _ _ _ hL => ⟨m, hL, rfl⟩
    · exact (h₁.append (hends₂ hends)).mono (fun _ h => h) (fun _ _ h => h)
        fun L _ _ _ hL => ⟨m, hL⟩

theorem Block.flowsOption : ∀ block : Option Block, Block.FlowsOption c address block
  | none, _, _, _, _, _, _, _, h, ha, _, _ => by
    obtain rfl := h
    exact .refl ha fun _ _ => rfl
  | some (.mk _ body), _, _, _, _, _, _, _, h, ha, hkeep, hexit => by
    obtain ⟨m, hbody, hpops⟩ := h
    have h₁ := (Stmt.flowsAll body hbody ha hkeep hexit).1
    have h₂ := hpops.works_keep h₁.stop
    exact ((h₁.under _ fun _ _ hout => hout.of_keep hexit).append h₂.flows).mono (fun _ h => h)
      (fun _ _ h => h) fun _ _ _ _ hL => ⟨m, hL.1, hpops⟩

theorem Arm.flowsSwitch : ∀ arms : List Arm, Arm.FlowsSwitch c address arms
  | [], _, _, _, _, _, _, _, _, h, ha, _, _ => by
    obtain ⟨rfl, rfl⟩ := h
    exact .refl ha fun _ hend => ⟨⟨rfl, rfl⟩, hend⟩
  | .mk test (.mk _ body) :: arms, _, exit, k, _, ns, _, entry, _, h, ha, hkeep, hexit => by
    obtain ⟨m₁, m₂, m₃, m₄, m₅, next, entry', hread, htest, hequal, hskip, hbody, hpops, hfall,
      harms⟩ := h
    have hbase := List.suffix_refl ns.records
    have hbase₁ := Facts.suffix_push hbase
    let kept := (Stmt.namesAll address k body ns).keep ns.length
    have hfades : ns.Fades kept := (Stmt.fades_namesAll body k ns).keep
    have hlen : kept.length = ns.length := Names.length_keep (Stmt.suffix_namesAll address body k ns)
    let k' := k + Stmt.definitionsAll body
    let last := Arm.namesAll address k' arms kept
    have hexit' : exit.Below kept.length := hexit.mono (Nat.le_of_eq hlen.symm)
    let out : (Nat → Facts) → Prop := fun L => exit.Receives last L ∧ (L entry').Within kept.records
    have hw₁ := hread.works ha hbase rfl rfl
    have hw₂ := hw₁.trans (test.works htest hw₁.stop hbase₁)
    have h₁ := (hw₂.trans (hequal.works hw₂.stop (Facts.suffix_push hbase₁) rfl rfl)).test hskip
    have h₂ := (Stmt.flowsAll body hbody h₁.stop hkeep.1 hexit).1.under out
      fun L _ hout => (hout.1.of_fades hexit' (Arm.fades_namesAll arms k' kept)).of_keep hexit
    have h₃ := hpops.works_keep h₂.stop
    have hjump : c.Flows m₅ next kept.records (·.Within kept.records) _ _ := .jump hfall h₃.stop
    have h₄ := (h₂.append h₃.flows).append (hjump.under _ fun _ _ hout => hout.2)
    have h₅ := h₁.trans h₄ (fun _ _ hout _ => hout) fun L hend _ _ _ =>
      Facts.Within.trans hend (hfades.within hlen)
    have h₆ := Arm.flowsSwitch arms harms hjump.stop hkeep.2 hexit'
    refine (h₅.trans h₆ (fun _ _ hout _ => hout) fun L _ hout _ hL => ⟨hout, hL.2⟩).mono
      (fun _ h => h) (fun _ _ h => h) ?_
    rintro L - - - ⟨⟨hL₁, hentry, ⟨⟨hL₂, -⟩, -⟩⟩, -, hL₃, -⟩
    exact ⟨⟨m₁, m₂, m₃, m₄, m₅, next, entry', hread, htest, hequal, hskip, hL₁, hL₂, hpops, hfall,
      hL₃⟩, hentry⟩

theorem Arm.flowsBranch : ∀ arms : List Arm, Arm.FlowsBranch c address arms
  | [], _, _, _, _, _, _, _, _, h, ha, _, _ => by
    obtain rfl := h
    exact .refl ha fun _ _ => rfl
  | .mk test (.mk _ body) :: arms, _, exit, k, _, beyond, ns, _, _, h, ha, hkeep, hexit => by
    obtain ⟨m₁, m₂, m₃, m₄, next, htest, hskip, hbody, hpops, hdone, harms⟩ := h
    let kept := (Stmt.namesAll address k body ns).keep ns.length
    have hfades : ns.Fades kept := (Stmt.fades_namesAll body k ns).keep
    have hlen : kept.length = ns.length := Names.length_keep (Stmt.suffix_namesAll address body k ns)
    let k' := k + Stmt.definitionsAll body
    let last := Arm.namesAll address k' arms kept
    have hlast : kept.Fades last := Arm.fades_namesAll arms k' kept
    have hexit' : exit.Below kept.length := hexit.mono (Nat.le_of_eq hlen.symm)
    let out : (Nat → Facts) → Prop := fun L => exit.Receives last L ∧ (L beyond).Within last.records
    have h₁ := (test.works htest ha (List.suffix_refl ns.records)).test hskip
    have h₂ := (Stmt.flowsAll body hbody h₁.stop hkeep.1 hexit).1.under out
      fun L _ hout => (hout.1.of_fades hexit' hlast).of_keep hexit
    have h₃ := hpops.works_keep h₂.stop
    have hjump : c.Flows m₄ next kept.records (·.Within kept.records) _ _ := .jump hdone h₃.stop
    have h₄ := (h₂.append h₃.flows).append (hjump.under _ fun _ _ hout =>
      hout.2.trans (hlast.within (Arm.length_namesAll arms k' kept)))
    have h₅ := h₁.trans h₄ (fun _ _ hout _ => hout) fun L hend _ _ _ =>
      Facts.Within.trans hend (hfades.within hlen)
    have h₆ := Arm.flowsBranch arms harms hjump.stop hkeep.2 hexit'
    refine (h₅.append h₆).mono (fun _ h => h) (fun _ _ h => h) ?_
    rintro L - - - ⟨⟨hL₁, -, ⟨⟨hL₂, -⟩, -⟩⟩, hL₃⟩
    exact ⟨m₁, m₂, m₃, m₄, next, htest, hskip, hL₁, hL₂, hpops, hdone, hL₃⟩

end

end LolToolchain
