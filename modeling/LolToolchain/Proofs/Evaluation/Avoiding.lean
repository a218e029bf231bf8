import LolToolchain.Proofs.Evaluation.Folding

/-!
Names that hold nothing but `NUMBR`s are not known to hold functions anywhere in a program, so all
functions of the program leave them as they are.
-/
namespace LolToolchain

/-- A function whose parameters are not among `ns`, in which the names `ns` hold nothing but `NUMBR`s and
all comparisons that are folded are those of `NUMBR`s, and which sees no function under such a name. -/
structure Function.FoldsNumbrs (ns : List Text) (f : Function) : Prop where
  params : ∀ p ∈ f.params, p.name ∉ ns
  body : Stmt.foldsNumbrsAll ns f.body = true
  outer : ∀ names ∈ f.outer, names.Avoid ns

variable {ns : List Text} {address : Nat → Nat}

namespace Names.Avoid

variable {ms names : Names}

theorem nil : Names.Avoid ns [] := nofun

theorem weaken (h : names.Avoid ns) (hms : ms.Weaker names) : ms.Avoid ns :=
  fun name f hmem => h name f (hms name f hmem)

theorem cons_some (h : names.Avoid ns) {name : Text} {f : Nat} (hname : name ∉ ns) :
    Names.Avoid ns ((name, some f) :: names) := by
  intro n g hmem
  rcases List.mem_cons.1 hmem with heq | hmem
  · cases heq
    exact hname
  · exact h n g hmem

private theorem ofParams (params : List Ident) : (Names.ofParams params).Avoid ns := by
  intro n f hmem
  simp [Names.ofParams] at hmem

end Names.Avoid

mutual

theorem Stmt.avoid_names : ∀ (s : Stmt) {k : Nat} {names : Names}, s.foldsNumbrs ns = true →
    names.Avoid ns → (s.names address k names).Avoid ns
  | .assign _ target _, _, _, _, hnames => hnames.weaken (Names.weaker_written target.name _)
  | .cast _ name _, _, _, _, hnames => hnames.weaken (Names.weaker_written name.name _)
  | .read _ target, _, _, _, hnames => hnames.weaken (Names.weaker_written target.name _)
  | .declare _ name _, _, _, _, hnames => hnames.weaken (Names.weaker_cons_none name.name _)
  | .define _ name _ _, _, _, h, hnames => by
    simp only [Stmt.foldsNumbrs, Bool.and_eq_true, decide_eq_true_eq] at h
    exact hnames.cons_some h.1.1
  | .switch _ arms otherwise, _, _, h, hnames => by
    simp only [Stmt.foldsNumbrs, Bool.and_eq_true] at h
    exact Block.avoid_names otherwise h.2 (Arm.avoid_names arms h.1 hnames)
  | .branch _ yes arms no, _, _, h, hnames => by
    simp only [Stmt.foldsNumbrs, Bool.and_eq_true] at h
    exact Block.avoid_names no h.2 (Arm.avoid_names arms h.1.2 (Block.avoid_names yes h.1.1 hnames))
  | .loop _ _ _ update (.mk _ body), _, _, h, hnames => by
    simp only [Stmt.foldsNumbrs, Block.foldsNumbrs, Bool.and_eq_true] at h
    have hcounter := hnames.weaken (Names.weaker_counter update _)
    exact (Stmt.avoid_namesAll body h.2 hcounter).weaken (Names.weaker_keep _ _)
  | .load _ _, _, _, _, hnames | .expr _ _, _, _, _, hnames | .leave _, _, _, _, hnames
  | .ret _ _, _, _, _, hnames | .print _ _ _, _, _, _, hnames | .append _ _ _, _, _, _, hnames
  | .store _ _ _ _, _, _, _, hnames => hnames

theorem Stmt.avoid_namesAll : ∀ (ss : List Stmt) {k : Nat} {names : Names},
    Stmt.foldsNumbrsAll ns ss = true → names.Avoid ns → (Stmt.namesAll address k ss names).Avoid ns
  | [], _, _, _, hnames => hnames
  | s :: ss, _, _, h, hnames => by
    simp only [Stmt.foldsNumbrsAll, Bool.and_eq_true] at h
    exact Stmt.avoid_namesAll ss h.2 (Stmt.avoid_names s h.1 hnames)

theorem Block.avoid_names : ∀ (block : Option Block) {k : Nat} {names : Names},
    Block.foldsNumbrsOption ns block = true → names.Avoid ns →
    (Block.namesOption address k block names).Avoid ns
  | none, _, _, _, hnames => hnames
  | some (.mk _ body), _, _, h, hnames =>
    (Stmt.avoid_namesAll body h hnames).weaken (Names.weaker_keep _ _)

theorem Arm.avoid_names : ∀ (arms : List Arm) {k : Nat} {names : Names},
    Arm.foldsNumbrsAll ns arms = true → names.Avoid ns → (Arm.namesAll address k arms names).Avoid ns
  | [], _, _, _, hnames => hnames
  | .mk _ (.mk _ body) :: arms, _, _, h, hnames => by
    simp only [Arm.foldsNumbrsAll, Block.foldsNumbrs, Bool.and_eq_true] at h
    exact Arm.avoid_names arms h.2
      ((Stmt.avoid_namesAll body h.1.2 hnames).weaken (Names.weaker_keep _ _))

end

mutual

theorem Stmt.functions_foldNumbrs : ∀ (s : Stmt) {outer : List Names} {k : Nat} {names : Names},
    s.foldsNumbrs ns = true → names.Avoid ns → (∀ ms ∈ outer, ms.Avoid ns) →
    ∀ f ∈ s.functions address outer k names, f.FoldsNumbrs ns
  | .define _ name params (.mk _ body), outer, k, names, h, hnames, houter, f, hf => by
    simp only [Stmt.foldsNumbrs, Block.foldsNumbrs, Bool.and_eq_true, decide_eq_true_eq,
      List.all_eq_true] at h
    have haround : ∀ ms ∈ ((name.name, some (address k)) :: names) :: outer, Names.Avoid ns ms :=
      List.forall_mem_cons.2 ⟨hnames.cons_some h.1.1, houter⟩
    rw [Stmt.functions] at hf
    rcases List.mem_cons.1 hf with rfl | hf
    · exact ⟨h.1.2, h.2, haround⟩
    · exact Stmt.functionsAll_foldNumbrs body h.2 (.ofParams params) haround f hf
  | .switch _ arms otherwise, outer, k, names, h, hnames, houter, f, hf => by
    simp only [Stmt.foldsNumbrs, Bool.and_eq_true] at h
    rw [Stmt.functions] at hf
    rcases List.mem_append.1 hf with hf | hf
    · exact Arm.functions_foldNumbrs arms h.1 hnames houter f hf
    · exact Block.functions_foldNumbrs otherwise h.2 (Arm.avoid_names arms h.1 hnames) houter f hf
  | .branch _ yes arms no, outer, k, names, h, hnames, houter, f, hf => by
    simp only [Stmt.foldsNumbrs, Bool.and_eq_true] at h
    have hyes : (Block.namesOption address k yes names).Avoid ns := Block.avoid_names yes h.1.1 hnames
    rw [Stmt.functions] at hf
    rcases List.mem_append.1 hf with hf | hf
    · rcases List.mem_append.1 hf with hf | hf
      · exact Block.functions_foldNumbrs yes h.1.1 hnames houter f hf
      · exact Arm.functions_foldNumbrs arms h.1.2 hyes houter f hf
    · exact Block.functions_foldNumbrs no h.2 (Arm.avoid_names arms h.1.2 hyes) houter f hf
  | .loop _ _ _ update (.mk _ body), outer, k, names, h, hnames, houter, f, hf => by
    simp only [Stmt.foldsNumbrs, Block.foldsNumbrs, Bool.and_eq_true] at h
    rw [Stmt.functions] at hf
    exact Stmt.functionsAll_foldNumbrs body h.2 (hnames.weaken (Names.weaker_counter update _)) houter f
      hf
  | .assign _ _ _, _, _, _, _, _, _, _, hf | .declare _ _ _, _, _, _, _, _, _, _, hf
  | .load _ _, _, _, _, _, _, _, _, hf | .expr _ _, _, _, _, _, _, _, _, hf
  | .cast _ _ _, _, _, _, _, _, _, _, hf | .leave _, _, _, _, _, _, _, _, hf
  | .ret _ _, _, _, _, _, _, _, _, hf | .print _ _ _, _, _, _, _, _, _, _, hf
  | .read _ _, _, _, _, _, _, _, _, hf | .append _ _ _, _, _, _, _, _, _, _, hf
  | .store _ _ _ _, _, _, _, _, _, _, _, hf => by cases hf

theorem Stmt.functionsAll_foldNumbrs : ∀ (ss : List Stmt) {outer : List Names} {k : Nat}
    {names : Names}, Stmt.foldsNumbrsAll ns ss = true → names.Avoid ns →
    (∀ ms ∈ outer, ms.Avoid ns) → ∀ f ∈ Stmt.functionsAll address outer k ss names, f.FoldsNumbrs ns
  | [], _, _, _, _, _, _, _, hf => by cases hf
  | s :: ss, outer, k, names, h, hnames, houter, f, hf => by
    simp only [Stmt.foldsNumbrsAll, Bool.and_eq_true] at h
    rw [Stmt.functionsAll] at hf
    rcases List.mem_append.1 hf with hf | hf
    · exact Stmt.functions_foldNumbrs s h.1 hnames houter f hf
    · exact Stmt.functionsAll_foldNumbrs ss h.2 (Stmt.avoid_names s h.1 hnames) houter f hf

theorem Block.functions_foldNumbrs : ∀ (block : Option Block) {outer : List Names} {k : Nat}
    {names : Names}, Block.foldsNumbrsOption ns block = true → names.Avoid ns →
    (∀ ms ∈ outer, ms.Avoid ns) →
    ∀ f ∈ Block.functionsOption address outer k block names, f.FoldsNumbrs ns
  | none, _, _, _, _, _, _, _, hf => by cases hf
  | some (.mk _ body), _, _, _, h, hnames, houter, f, hf =>
    Stmt.functionsAll_foldNumbrs body h hnames houter f hf

theorem Arm.functions_foldNumbrs : ∀ (arms : List Arm) {outer : List Names} {k : Nat}
    {names : Names}, Arm.foldsNumbrsAll ns arms = true → names.Avoid ns →
    (∀ ms ∈ outer, ms.Avoid ns) → ∀ f ∈ Arm.functionsAll address outer k arms names, f.FoldsNumbrs ns
  | [], _, _, _, _, _, _, _, hf => by cases hf
  | .mk _ (.mk _ body) :: arms, outer, k, names, h, hnames, houter, f, hf => by
    simp only [Arm.foldsNumbrsAll, Block.foldsNumbrs, Bool.and_eq_true] at h
    rw [Arm.functionsAll] at hf
    rcases List.mem_append.1 hf with hf | hf
    · exact Stmt.functionsAll_foldNumbrs body h.1.2 hnames houter f hf
    · have hbody : (Stmt.namesAll address k body names).Avoid ns :=
        Stmt.avoid_namesAll body h.1.2 hnames
      exact Arm.functions_foldNumbrs arms h.2 (hbody.weaken (Names.weaker_keep _ _)) houter f hf

end

/-- All functions of a program fold only comparisons of `NUMBR`s if the program does. -/
theorem Program.functions_foldNumbrs {p : Program} (h : p.foldsNumbrs ns = true) :
    ∀ f ∈ p.functions address, f.FoldsNumbrs ns :=
  Stmt.functionsAll_foldNumbrs p.body.stmts (foldsNumbrs_parts h).2 .nil nofun

end LolToolchain
