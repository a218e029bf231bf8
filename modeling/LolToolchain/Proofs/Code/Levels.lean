import LolToolchain.Proofs.Code.Heights
import LolToolchain.Proofs.Evaluation.Definitions

/-!
The heights of pieces of a program. What is said about statements is stated here first: their code is
met with as many values on the stack as there are variables. A piece leaves jumps open; each has the
height that its target must have. Blocks, constructs that `GTFO` leaves and functions are put
together from the pieces in them.
-/
namespace LolToolchain

open Assemble

namespace Expr

def LeveledJoined (h : Nat → Nat) (xs : List Expr) (a : Assembly) : Prop :=
  match xs with
  | [] => True
  | x :: xs => x.Leveled h a ∧ After x.assemble a fun _ a => After (emit .concat x.span) a fun _ a =>
      LeveledJoined h xs a

def LeveledPrinted (h : Nat → Nat) (xs : List Expr) (a : Assembly) : Prop :=
  match xs with
  | [] => True
  | x :: xs => x.Leveled h a ∧ After x.assemble a fun _ a => LeveledJoined h xs a

end Expr

def Initial.Leveled (h : Nat → Nat) (a : Assembly) : Initial → Prop
  | .value e => e.Leveled h a
  | .absent | .typed _ => True

def LoopTest.Leveled (h : Nat → Nat) (a : Assembly) : LoopTest → Prop
  | .forever => True
  | .untilTrue e | .whileTrue e => e.Leveled h a

mutual

/-- Heights suit a statement that is compiled from a state: at the start of its code the height is
the number of variables in use, and so it is for each statement in it; and they suit each of its
expressions. -/
def Stmt.Leveled (h : Nat → Nat) (s : Stmt) (a : Assembly) : Prop :=
  h a.offset = a.live ∧
  match s with
  | .assign _ _ x | .expr _ x | .ret _ x => x.Leveled h a
  | .declare _ _ initial => initial.Leveled h a
  | .load _ _ | .cast _ _ _ | .leave _ | .read _ _ => True
  | .define s name params (.mk _ body) =>
    After (openFunction s name params) a fun _ a => Stmt.LeveledAll h body a
  | .switch s arms otherwise =>
    After (openBreakable .switch) a fun _ a => Arm.LeveledSwitch h s none arms a ∧
      After (Arm.assembleSwitch s none arms) a fun fall a => After (patchOption fall) a fun _ a =>
        Block.LeveledOption h otherwise a
  | .branch s yes arms no =>
    After (emit .readIt s) a fun _ a => After (emitJump .jumpIfFalse s) a fun next a =>
      Block.LeveledOption h yes a ∧
      After (Block.assembleOption s yes) a fun _ a => After (emitJump .jump s) a fun _ a =>
        Arm.LeveledBranch h s next arms a ∧
        After (Arm.assembleBranch s next arms) a fun r a => After (patch r.1) a fun _ a =>
          Block.LeveledOption h no a
  | .loop _ _ _ update (.mk _ body) =>
    After (openLoop update) a fun _ a => (∀ u ∈ update, u.test.Leveled h a) ∧
      After (LoopUpdate.assembleTest update) a fun _ a => After openScope a fun _ a =>
        Stmt.LeveledAll h body a
  | .print _ args _ => Expr.LeveledPrinted h args a
  | .append _ target x => After (readName target) a fun _ a => x.Leveled h a
  | .store _ target i x => After (readName target) a fun _ a => i.Leveled h a ∧
      After i.assemble a fun _ a => x.Leveled h a

def Stmt.LeveledAll (h : Nat → Nat) (ss : List Stmt) (a : Assembly) : Prop :=
  match ss with
  | [] => True
  | s :: ss => Stmt.Leveled h s a ∧ After s.assemble a fun _ a => Stmt.LeveledAll h ss a

def Block.LeveledOption (h : Nat → Nat) (block : Option Block) (a : Assembly) : Prop :=
  match block with
  | none => True
  | some (.mk _ body) => After openScope a fun _ a => Stmt.LeveledAll h body a

def Arm.LeveledSwitch (h : Nat → Nat) (span : Span) (fall : Option Nat) (arms : List Arm)
    (a : Assembly) : Prop :=
  match arms with
  | [] => True
  | .mk test (.mk _ body) :: arms =>
    After (emit .readIt test.span) a fun _ a => test.Leveled h a ∧
      After test.assemble a fun _ a => After (emit .equal test.span) a fun _ a =>
        After (emitJump .jumpIfFalse test.span) a fun next a => After (patchOption fall) a fun _ a =>
          After openScope a fun _ a => Stmt.LeveledAll h body a ∧
            After (Stmt.assembleAll body) a fun _ a => After (closeScope span) a fun _ a =>
              After (emitJump .jump span) a fun fall a => After (patch next) a fun _ a =>
                Arm.LeveledSwitch h span (some fall) arms a

def Arm.LeveledBranch (h : Nat → Nat) (span : Span) (next : Nat) (arms : List Arm) (a : Assembly) :
    Prop :=
  match arms with
  | [] => True
  | .mk test (.mk _ body) :: arms =>
    After (patch next) a fun _ a => test.Leveled h a ∧
      After test.assemble a fun _ a => After (emitJump .jumpIfFalse test.span) a fun next a =>
        After openScope a fun _ a => Stmt.LeveledAll h body a ∧
          After (Stmt.assembleAll body) a fun _ a => After (closeScope span) a fun _ a =>
            After (emitJump .jump span) a fun _ a => Arm.LeveledBranch h span next arms a

end

/-- A piece with `d` definitions adds names and changes none, and what its names are known to hold
are functions of the program. -/
structure NamesAfter.Sound (names : NamesAfter) (d : Nat) : Prop where
  adds : ∀ (address : Nat → Nat) (k : Nat) (ns : Names), ns.texts <:+ (names address k ns).texts
  known : ∀ (address : Nat → Nat) (total k : Nat) (ns : Names), k + d ≤ total →
    ns.Known address total → (names address k ns).Known address total

/-- Where `GTFO` leads has the height that is left there. -/
def Exit.Meets (H : Heights) : Exit → Prop
  | .none | .function => True
  | .to height target => H.At target height

/-- What the checks of a piece rest on: the functions of the program are known, and so is where the
construct around the piece ends. -/
structure Basis (l : Linked) (H : Heights) (address : Nat → Nat) (total : Nat) (outer : List Names)
    (exit : Exit) (ns : Names) : Prop where
  functions : ∀ j < total, (functionValue (address j)).Valid l 0
  names : ns.Known address total
  outer : ∀ ms ∈ outer, ms.Known address total
  exit : exit.Meets H

/-- A piece of a program agrees with a table: it has `d` definitions, leaves jumps open, is met with
the height `n` and left with the height `m`, and `Q` holds of the heights. -/
structure Tracked (T : List (Nat × Nat)) (a a' : Assembly) (d : Nat) (js : List (Nat × Nat))
    (names : NamesAfter) (n m : Nat) (Q : (Nat → Nat) → Prop) : Prop where
  covers : Covers T a.offset a'.offset
  enters : ∀ H : Heights, H.Includes T → H.At a'.offset m → H.At a.offset n
  sound : names.Sound d
  assembles : Assembles a a' d (js.map Prod.fst) names fun C address outer exit k ns x y =>
    x = a.offset ∧ y = a'.offset ∧ (names address k ns).length = a'.live ∧
    ∀ H : Heights, H.Includes T → H.At a'.offset m →
      (∀ j, k ≤ j → j < k + d → C.Defines H (address j)) ∧
      ∀ (l : Linked) (total : Nat), k + d ≤ total → Basis l H address total outer exit ns →
        (∀ p ∈ js, C.JumpsTo H p.1 p.2) → (∀ p ∈ T, C.Checks l H p.1 p.2) ∧ Q H.height

def Tracks (a a' : Assembly) (d : Nat) (js : List (Nat × Nat)) (names : NamesAfter) (n m : Nat)
    (Q : (Nat → Nat) → Prop) : Prop :=
  ∃ T, Tracked T a a' d js names n m Q

namespace NamesAfter.Sound

variable {names names₁ names₂ : NamesAfter} {d d₁ d₂ : Nat}

theorem same (d : Nat) : Sound (fun _ _ ns => ns) d :=
  ⟨fun _ _ _ => List.suffix_rfl, fun _ _ _ _ _ h => h⟩

theorem declare (name : Text) (d : Nat) : Sound (fun _ _ ns => (name, none) :: ns) d :=
  ⟨fun _ _ ns => List.suffix_cons name ns.texts, fun _ _ _ _ _ h => h.cons_none name⟩

theorem define (name : Text) (d : Nat) :
    Sound (fun address k ns => (name, some (address k)) :: ns) (d + 1) :=
  ⟨fun _ _ ns => List.suffix_cons name ns.texts, fun _ _ _ _ hk h => h.cons_some name (by omega)⟩

theorem written (name : Text) (d : Nat) : Sound (fun _ _ ns => ns.written name) d :=
  ⟨fun _ _ ns => by rewrite [Names.texts_written]; exact List.suffix_rfl,
    fun _ _ _ _ _ h => h.written name⟩

theorem trans (h₁ : Sound names₁ d₁) (h₂ : Sound names₂ d₂) :
    Sound (fun address k ns => names₂ address (k + d₁) (names₁ address k ns)) (d₁ + d₂) :=
  ⟨fun address k ns => (h₁.adds address k ns).trans (h₂.adds address _ _),
    fun address total k ns hk h =>
      h₂.known address total _ _ (by omega) (h₁.known address total k ns (by omega) h)⟩

/-- A block leaves the names that were there at its start. -/
theorem keep (h : Sound names d) :
    Sound (fun address k ns => (names address k ns).keep ns.length) d :=
  ⟨fun address k ns => by rewrite [Names.texts_keep (h.adds address k ns)]; exact List.suffix_rfl,
    fun address total k ns hk hns => (h.known address total k ns hk hns).keep _⟩

theorem counter (update : Option LoopUpdate) :
    Sound (fun _ _ ns => LoopUpdate.names update ns) 0 := by
  refine ⟨fun _ _ ns => ?_, fun _ _ _ _ _ h => h.counter update⟩
  rw [LoopUpdate.names, Names.texts, Names.texts, List.map_append]
  exact List.suffix_append _ _

end NamesAfter.Sound

theorem Stmt.sound_names (s : Stmt) :
    NamesAfter.Sound (fun address k ns => s.names address k ns) s.definitions :=
  ⟨fun address k ns => s.suffix_names address k ns, fun _ _ _ _ hk h => s.known_names hk h⟩

theorem Arm.sound_namesAll (arms : List Arm) :
    NamesAfter.Sound (fun address k ns => Arm.namesAll address k arms ns)
      (Arm.definitionsAll arms) :=
  ⟨fun address k ns => by rewrite [Arm.texts_namesAll]; exact List.suffix_rfl,
    fun _ _ _ _ hk h => Arm.known_names arms hk h⟩

namespace Tracks

variable {a a₁ a' : Assembly} {d d₁ d₂ n m o : Nat} {js js₁ js₂ : List (Nat × Nat)}
variable {names names₁ names₂ : NamesAfter} {P Q : (Nat → Nat) → Prop}

theorem size (h : Tracks a a' d js names n m Q) : a.offset ≤ a'.offset := by
  obtain ⟨T, hT⟩ := h
  exact hT.assembles.size

theorem lexical (h : Tracks a a' d js names n m Q) (ha : a.Lexical) : a'.Lexical := by
  obtain ⟨T, hT⟩ := h
  exact hT.assembles.lexical ha

theorem outer (h : Tracks a a' d js names n m Q) : a'.outer = a.outer := by
  obtain ⟨T, hT⟩ := h
  exact hT.assembles.outer

theorem of_raises (h : Raises a a' n m Q) : Tracks a a' 0 [] (fun _ _ ns => ns) n m Q := by
  obtain ⟨T, hT, henters, hemits⟩ := h
  refine ⟨T, hT, henters, .same 0, ?_⟩
  refine (Assembles.of_emits (fun C _ _ _ _ => ∀ (l : Linked) (H : Heights), H.Includes T →
    H.At a'.offset m → a.Knows l → (∀ p ∈ T, C.Checks l H p.1 p.2) ∧ Q H.height) hemits).congr rfl
    (fun _ _ => rfl) fun C address exit k hC => ⟨rfl, rfl, ?_, fun H hH hend => ⟨?_, ?_⟩⟩
  · rw [Scope.length_names, Assembly.live, hemits.scope]
  · intro j hkj hjk
    exact absurd hkj (Nat.not_le_of_lt hjk)
  · intro l total _ hbasis _
    refine hC l H hH hend fun s hs x hx f hf => ?_
    obtain ⟨j, hj, heq⟩ := hbasis.outer s.names (List.mem_map_of_mem hs) x.name f.offset
      (Scope.mem_names hx hf)
    rw [heq]
    exact hbasis.functions j hj

theorem trans (h₁ : Tracks a a₁ d₁ js₁ names₁ n m P) (h₂ : Tracks a₁ a' d₂ js₂ names₂ m o Q) :
    Tracks a a' (d₁ + d₂) (js₁ ++ js₂)
      (fun address k ns => names₂ address (k + d₁) (names₁ address k ns)) n o
      fun h => P h ∧ Q h := by
  obtain ⟨T, hT⟩ := h₁
  obtain ⟨U, hU⟩ := h₂
  refine ⟨T ++ U, hT.covers.append hU.covers hT.assembles.size hU.assembles.size, ?_, ?_, ?_⟩
  · intro H hH hend
    obtain ⟨hHT, hHU⟩ := Heights.includes_append.1 hH
    exact hT.enters H hHT (hU.enters H hHU hend)
  · exact hT.sound.trans hU.sound
  · rw [List.map_append]
    refine (hT.assembles.trans hU.assembles).congr rfl (fun _ _ => rfl) ?_
    rintro C address exit k ⟨y, ⟨-, -, hlive₁, hC₁⟩, -, -, hlive₂, hC₂⟩
    refine ⟨rfl, rfl, hlive₂, fun H hH hend => ?_⟩
    obtain ⟨hHT, hHU⟩ := Heights.includes_append.1 hH
    obtain ⟨hmarked₁, hchecks₁⟩ := hC₁ H hHT (hU.enters H hHU hend)
    obtain ⟨hmarked₂, hchecks₂⟩ := hC₂ H hHU hend
    refine ⟨fun j hkj hjk => ?_, fun l total hk hbasis hjs => ?_⟩
    · by_cases hj : j < k + d₁
      · exact hmarked₁ j hkj hj
      · exact hmarked₂ j (Nat.le_of_not_lt hj) (by omega)
    · obtain ⟨hjs₁, hjs₂⟩ := List.forall_mem_append.1 hjs
      have hbasis' := { hbasis with names := hT.sound.known address total k _ (by omega) hbasis.names }
      obtain ⟨hT', hP⟩ := hchecks₁ l total (by omega) hbasis hjs₁
      obtain ⟨hU', hQ⟩ := hchecks₂ l total (by omega) hbasis' hjs₂
      exact ⟨List.forall_mem_append.2 ⟨hT', hU'⟩, hP, hQ⟩

theorem congr (h : Tracks a a' d₁ js names₁ n m P) (hd : d₁ = d)
    (hnames : ∀ address k, names₁ address k a.scope.names = names address k a.scope.names)
    (hsound : names.Sound d)
    (hPQ : ∀ h : Nat → Nat, h a.offset = n → h a'.offset = m → P h → Q h) :
    Tracks a a' d js names n m Q := by
  obtain ⟨T, hT⟩ := h
  subst hd
  refine ⟨T, hT.covers, hT.enters, hsound, hT.assembles.congr rfl hnames ?_⟩
  rintro C address exit k ⟨-, -, hlive, hC⟩
  refine ⟨rfl, rfl, by rw [← hnames]; exact hlive, fun H hH hend => ⟨(hC H hH hend).1, ?_⟩⟩
  intro l total hk hbasis hjs
  obtain ⟨hchecks, hP⟩ := (hC H hH hend).2 l total hk hbasis hjs
  exact ⟨hchecks, hPQ _ (hT.enters H hH hend).2 hend.2 hP⟩

theorem mono (h : Tracks a a' d js names n m P)
    (hPQ : ∀ h : Nat → Nat, h a.offset = n → h a'.offset = m → P h → Q h) :
    Tracks a a' d js names n m Q := by
  obtain ⟨T, hT⟩ := h
  exact Tracks.congr ⟨T, hT⟩ rfl (fun _ _ => rfl) hT.sound hPQ

theorem perm (h : Tracks a a' d js names n m Q) (hperm : js.Perm js₁) :
    Tracks a a' d js₁ names n m Q := by
  obtain ⟨T, hT⟩ := h
  refine ⟨T, hT.covers, hT.enters, hT.sound, (hT.assembles.perm (hperm.map Prod.fst)).congr rfl
    (fun _ _ => rfl) ?_⟩
  rintro C address exit k ⟨-, -, hlive, hC⟩
  refine ⟨rfl, rfl, hlive, fun H hH hend => ⟨(hC H hH hend).1, fun l total hk hbasis hjs => ?_⟩⟩
  exact (hC H hH hend).2 l total hk hbasis fun p hp => hjs p (hperm.mem_iff.1 hp)

end Tracks

variable {a a₁ a' : Assembly} {span : Span} {n m : Nat}

theorem offset_emitJump {op : Opcode} {j : Nat} (h : emitJump op span a = .ok (j, a')) :
    a'.offset = a.offset + 5 := by
  cases h
  exact Chunk.size_code_emit

/-- A jump: where it leads, the height is that before it. What stands behind it is not met from
here, so its height is free. -/
theorem tracks_emitJump {j : Nat} (m : Nat) (h : emitJump .jump span a = .ok (j, a')) :
    Tracks a a' 0 [(j, n)] (fun _ _ ns => ns) n m fun _ => True := by
  have hlt : a.offset < a'.offset := by
    rw [offset_emitJump h]
    omega
  refine ⟨[(a.offset, n)], .singleton hlt, fun _ hH _ => hH.singleton, .same 0,
    (assembles_emitJump rfl h).congr rfl (fun _ _ => rfl) fun C address exit k hC => ?_⟩
  refine ⟨rfl, rfl, ?_, fun H _ _ => ⟨fun j hkj hjk => absurd hkj (Nat.not_le_of_lt hjk), ?_⟩⟩
  · cases h
    exact Scope.length_names _
  · intro l total _ _ hjs
    obtain ⟨target, hread, htarget⟩ := List.forall_mem_singleton.1 hjs
    exact ⟨List.forall_mem_singleton.2 ((hC target hread).checks_jump htarget), trivial⟩

/-- A jump that takes a value. -/
theorem tracks_emitTest {j : Nat} (h : emitJump .jumpIfFalse span a = .ok (j, a')) :
    Tracks a a' 0 [(j, n)] (fun _ _ ns => ns) (n + 1) n fun _ => True := by
  have hlt : a.offset < a'.offset := by
    rw [offset_emitJump h]
    omega
  refine ⟨[(a.offset, n + 1)], .singleton hlt, fun _ hH _ => hH.singleton, .same 0,
    (assembles_emitJump rfl h).congr rfl (fun _ _ => rfl) fun C address exit k hC => ?_⟩
  refine ⟨rfl, rfl, ?_, fun H _ hend => ⟨fun j hkj hjk => absurd hkj (Nat.not_le_of_lt hjk), ?_⟩⟩
  · cases h
    exact Scope.length_names _
  · intro l total _ _ hjs
    obtain ⟨target, hread, htarget⟩ := List.forall_mem_singleton.1 hjs
    exact ⟨List.forall_mem_singleton.2 ((hC target hread).checks_test hend htarget), trivial⟩

theorem patchAll_eq : ∀ (js : List Nat) {a a' : Assembly}, patchAll js a = .ok ((), a') →
    a'.offset = a.offset ∧ a'.scope = a.scope
  | [], _, _, h => by
    cases h
    exact ⟨rfl, rfl⟩
  | j :: js, a, a', h => by
    obtain ⟨_, a₁, hj, hjs⟩ := ok_of_bind h
    have heq : { a with chunk := a.chunk.patch j } = a₁ := (Prod.mk.inj (Except.ok.inj hj)).2
    obtain ⟨hoffset, hscope⟩ := patchAll_eq js hjs
    rw [hoffset, hscope, ← heq]
    exact ⟨Chunk.size_patchTo _ _, rfl⟩

namespace Tracks

variable {d j : Nat} {js : List (Nat × Nat)} {names : NamesAfter} {Q : (Nat → Nat) → Prop}

/-- Open jumps with the height of the end lead there. -/
theorem patchAll {ends : List Nat}
    (h : Tracks a a₁ d (ends.map (·, m) ++ js) names n m Q)
    (hpatch : Assemble.patchAll ends a₁ = .ok ((), a')) : Tracks a a' d js names n m Q := by
  obtain ⟨T, hT⟩ := h
  obtain ⟨hoffset, hscope⟩ := patchAll_eq _ hpatch
  have hopened : (ends.map (·, m) ++ js).map Prod.fst = ends ++ js.map Prod.fst := by
    simp [Function.comp_def]
  refine ⟨T, by rw [hoffset]; exact hT.covers, by rw [hoffset]; exact hT.enters, hT.sound, ?_⟩
  have hassembles := hT.assembles
  rw [hopened] at hassembles
  refine (hassembles.patchAll hpatch).congr rfl (fun _ _ => rfl) ?_
  rintro C address exit k ⟨⟨-, -, hlive, hC⟩, hends⟩
  rw [← hoffset] at hC
  rw [Assembly.live, hscope]
  refine ⟨rfl, rfl, hlive, fun H hH hend => ⟨(hC H hH hend).1, fun l total hk hbasis hjs => ?_⟩⟩
  refine (hC H hH hend).2 l total hk hbasis (List.forall_mem_append.2 ⟨fun p hp => ?_, hjs⟩)
  obtain ⟨j, hj, rfl⟩ := List.mem_map.1 hp
  exact ⟨_, hends j hj, hend⟩

theorem patch (h : Tracks a a₁ d ((j, m) :: js) names n m Q)
    (hpatch : Assemble.patch j a₁ = .ok ((), a')) : Tracks a a' d js names n m Q := by
  have hopened : Tracks a a₁ d ([j].map (·, m) ++ js) names n m Q := h
  have hall : Assemble.patchAll [j] a₁ = .ok ((), a') := hpatch
  exact hopened.patchAll hall

theorem patchOption {o : Option Nat} (h : Tracks a a₁ d (o.toList.map (·, m) ++ js) names n m Q)
    (hpatch : Assemble.patchOption o a₁ = .ok ((), a')) : Tracks a a' d js names n m Q := by
  cases o with
  | none =>
    cases hpatch
    exact h
  | some j => exact patch h hpatch

/-- A jump back to the start of a piece that leaves the height as it was. -/
theorem back (h : Tracks a a₁ d js names n n Q) (m : Nat)
    (hloop : emitLoop a.offset span a₁ = .ok ((), a')) : Tracks a a' d js names n m Q := by
  obtain ⟨T, hT⟩ := h
  have heq : { a₁ with chunk := a₁.chunk.emitLoop a.offset span } = a' :=
    (Prod.mk.inj (Except.ok.inj hloop)).2
  have hscope : a'.scope = a₁.scope := by rw [← heq]
  have hlt : a₁.offset < a'.offset := by
    rw [← heq]
    simp only [Assembly.offset, Chunk.emitLoop, Chunk.emitJump, Chunk.size_patchTo,
      Chunk.size_code_emit]
    omega
  refine ⟨T ++ [(a₁.offset, n)], hT.covers.append (.singleton hlt) hT.assembles.size
    (Nat.le_of_lt hlt), ?_, hT.sound, ?_⟩
  · intro H hH _
    obtain ⟨hHT, hHU⟩ := Heights.includes_append.1 hH
    exact hT.enters H hHT hHU.singleton
  · have hassembles := hT.assembles.trans (assembles_emitLoop hT.assembles.size hloop)
    rw [List.append_nil] at hassembles
    refine hassembles.congr rfl (fun _ _ => rfl) ?_
    rintro C address exit k ⟨y, ⟨-, rfl, hlive, hC⟩, hjump⟩
    rw [Assembly.live, hscope]
    refine ⟨rfl, rfl, hlive, fun H hH _ => ?_⟩
    obtain ⟨hHT, hHU⟩ := Heights.includes_append.1 hH
    obtain ⟨hmarked, hchecks⟩ := hC H hHT hHU.singleton
    refine ⟨hmarked, fun l total hk hbasis hjs => ?_⟩
    obtain ⟨hT', hQ⟩ := hchecks l total hk hbasis hjs
    have hstart := hT.enters H hHT hHU.singleton
    exact ⟨List.forall_mem_append.2 ⟨hT', List.forall_mem_singleton.2 (hjump.checks_jump hstart)⟩, hQ⟩

end Tracks

theorem tracks_declare {name : Text} {f : Option KnownFunction}
    (hf : f = none) (h : declare name f a = .ok ((), a')) :
    Tracks a a' 0 [] (fun _ _ ns => (name, none) :: ns) n n fun _ => True := by
  subst hf
  refine ⟨[], .nil _ _, fun H _ hend => ?_, .declare name 0,
    (assembles_declare h).congr rfl (fun _ _ => rfl) fun C address exit k hC => ⟨rfl, rfl, ?_,
      fun H _ _ => ⟨fun j hkj hjk => absurd hkj (Nat.not_le_of_lt hjk), fun _ _ _ _ _ =>
        ⟨nofun, trivial⟩⟩⟩⟩
  · cases h
    exact hend
  · cases h
    simp [Scope.names, Scope.declare, Assembly.live]

private theorem offset_lt_writeName {id : Ident} (h : writeName id a = .ok ((), a')) :
    a.offset < a'.offset := by
  unfold writeName at h
  split at h
  · cases h
    simp only [Assembly.offset, Chunk.size_code_emit]
    omega
  · obtain ⟨b, a₁, hb, hrest⟩ := ok_of_bind h
    obtain ⟨rfl, ⟨i, f, rfl, -⟩ | ⟨f, rfl, -⟩⟩ := resolve_cases hb
    · obtain ⟨_, a₂, hforget, hrest⟩ := ok_of_bind hrest
      cases hforget
      have hlt := offset_lt_emitIndexed hrest
      exact hlt
    · cases hrest

theorem live_writeName {id : Ident} (h : writeName id a = .ok ((), a')) : a'.live = a.live := by
  obtain ⟨-, hscope, -⟩ := extends_writeName h
  rw [Assembly.live, Assembly.live]
  rcases hscope with hs | ⟨i, hs⟩ <;> rw [hs]
  exact Scope.length_forgetIn i _

theorem Names.length_written (name : Text) (ns : Names) : (ns.written name).length = ns.length := by
  rw [← Names.length_texts, Names.texts_written, Names.length_texts]

theorem tracks_writeName {id : Ident} (hn : a.live ≤ n) (h : writeName id a = .ok ((), a')) :
    Tracks a a' 0 [] (fun _ _ ns => ns.written id.name) (n + 1) n fun _ => True := by
  refine ⟨[(a.offset, n + 1)], .singleton (offset_lt_writeName h), fun _ hH _ => hH.singleton,
    .written id.name 0,
    (assembles_writeName h).congr rfl (fun _ _ => rfl) fun C address exit k hC => ?_⟩
  refine ⟨rfl, rfl, ?_, fun H _ hend => ⟨fun j hkj hjk => absurd hkj (Nat.not_le_of_lt hjk), ?_⟩⟩
  · rw [Names.length_written, Scope.length_names, live_writeName h]
  · intro l total _ _ _
    refine ⟨List.forall_mem_singleton.2 ?_, trivial⟩
    unfold Ident.WrittenAt at hC
    split at hC
    · exact hC.checks rfl (Nat.le_add_left 1 n) trivial hend
    · split at hC
      · rename_i i hslot
        have hi := Names.slot?_lt hslot
        rw [Scope.length_names] at hi
        obtain ⟨op, hop, hhas⟩ := hC
        have harg : i + 1 < n + 1 := by
          have := Nat.lt_of_lt_of_le hi hn
          omega
        rcases hop with rfl | rfl <;> exact hhas.checks rfl (Nat.le_add_left 1 n) harg hend
      · exact hC.elim

variable {a₀ a₂ : Assembly} {d : Nat} {js : List (Nat × Nat)} {names : NamesAfter}
variable {Q : (Nat → Nat) → Prop}

/-- The table of an instruction that drops values, if there are any to drop. -/
def dropTable (offset n m : Nat) : List (Nat × Nat) :=
  if n = 0 then [] else [(offset, m + n)]

private theorem Chunk.HasPops.checks {c : Chunk} {l : Linked} {H : Heights} {start stop : Nat}
    (h : c.HasPops n span start stop) (hstop : H.At stop m) :
    ∀ p ∈ dropTable start n m, c.Checks l H p.1 p.2 := by
  unfold Chunk.HasPops at h
  unfold dropTable
  split
  · nofun
  · rename_i hn
    rw [if_neg hn] at h
    obtain ⟨op, hop, hhas⟩ := h
    refine List.forall_mem_singleton.2 ?_
    have hafter : m + n - n + 0 = m := by rw [Nat.add_sub_cancel, Nat.add_zero]
    rw [← hafter] at hstop
    rcases hop with rfl | rfl <;> exact hhas.checks rfl (Nat.le_add_left n m) trivial hstop

private theorem covers_dropTable (h : emitPops n span a = .ok ((), a')) :
    Covers (dropTable a.offset n m) a.offset a'.offset := by
  unfold emitPops at h
  unfold dropTable
  split at h
  · rename_i hn
    rw [if_pos hn]
    exact .nil _ _
  · rename_i hn
    rw [if_neg hn]
    exact .singleton (offset_lt_emitIndexed h)

private theorem at_of_dropTable {H : Heights} (h : emitPops n span a = .ok ((), a'))
    (hH : H.Includes (dropTable a.offset n m)) (hend : H.At a'.offset m) :
    H.At a.offset (m + n) := by
  unfold emitPops at h
  unfold dropTable at hH
  split at h
  · rename_i hn
    cases h
    rw [hn]
    exact hend
  · rename_i hn
    rw [if_neg hn] at hH
    exact hH.singleton

/-- How many variables a block drops. -/
private theorem closeScope_parts (h : closeScope span a = .ok ((), a')) :
    ∃ k, a.live = a'.live + k ∧ emitPops k span { a with scope := a.scope.close.2 } = .ok ((), a') := by
  obtain ⟨s, a₁, hs, hrest⟩ := ok_of_bind h
  cases hs
  obtain ⟨_, a₂, hupdate, hpops⟩ := ok_of_bind hrest
  cases hupdate
  refine ⟨_, ?_, hpops⟩
  have hle := (List.dropWhile_suffix (l := a.scope.locals)
    fun l => a.scope.depth - 1 < l.depth).length_le
  rw [Assembly.live, Assembly.live, (emits_emitPops hpops).scope]
  dsimp only [Scope.close]
  omega

/-- Some numbering of the definitions agrees with where they were placed. -/
theorem Assembles.exists_names {js : List Nat} {placed : PlacedAs}
    (h : Assembles a a' d js names placed) (ha : a.Lexical) :
    ∃ address k, a'.scope.names = names address k a.scope.names := by
  obtain ⟨fs, new, -, hp⟩ := h
  exact ⟨_, 0, hp.names ha _ 0 (addressed_getD fs rfl)⟩

/-- A block drops the variables that were declared in it. -/
theorem tracks_block (hopen : openScope a = .ok ((), a₀))
    (hbody : Tracks a₀ a₁ d js names n a₁.live Q) (hl : a.Lexical)
    (hclose : closeScope span a₁ = .ok ((), a₂)) :
    a₂.live = a.live ∧
    Tracks a a₂ d js (fun address k ns => (names address k ns).keep ns.length) n a.live Q := by
  obtain ⟨T, hT⟩ := hbody
  obtain ⟨k, hk, hpops⟩ := closeScope_parts hclose
  cases hopen
  have hblock := assembles_block rfl hT.assembles hl hclose
  have hlive : a₂.live = a.live := by
    obtain ⟨address, i, hnames⟩ := hblock.exists_names hl
    rw [Assembly.live, ← Scope.length_names, hnames, Names.length_keep (hT.sound.adds _ _ _),
      Scope.length_names]
  rw [hlive] at hk
  have hcovers := covers_dropTable (m := a.live) hpops
  have hsize : a₁.offset ≤ a₂.offset := (emits_emitPops hpops).chunk.size
  have henters : ∀ H : Heights, H.Includes (dropTable a₁.offset k a.live) → H.At a₂.offset a.live →
      H.At a₁.offset a₁.live := by
    intro H hH hend
    have hat := at_of_dropTable hpops hH hend
    rw [hk]
    exact hat
  refine ⟨hlive, T ++ dropTable a₁.offset k a.live, ?_, fun H hH hend => ?_, ?_, ?_⟩
  · exact hT.covers.append hcovers hT.assembles.size hsize
  · obtain ⟨hHT, hHU⟩ := Heights.includes_append.1 hH
    exact hT.enters H hHT (henters H hHU hend)
  · exact hT.sound.keep
  · refine hblock.congr rfl (fun _ _ => rfl) ?_
    rintro C address exit i ⟨y, ⟨-, rfl, hlen, hC⟩, hdrop⟩
    refine ⟨rfl, rfl, ?_, fun H hH hend => ?_⟩
    · rw [Names.length_keep (hT.sound.adds _ _ _), Scope.length_names, hlive]
    · obtain ⟨hHT, hHU⟩ := Heights.includes_append.1 hH
      obtain ⟨hmarked, hchecks⟩ := hC H hHT (henters H hHU hend)
      refine ⟨hmarked, fun l total htotal hbasis hjs => ?_⟩
      obtain ⟨hT', hQ⟩ := hchecks l total htotal { hbasis with } hjs
      rw [hlen, Scope.length_names, hk, Nat.add_sub_cancel_left] at hdrop
      exact ⟨List.forall_mem_append.2 ⟨hT', hdrop.checks hend⟩, hQ⟩

/-- A loop or a switch ends with the variables that were in use at its start. -/
theorem tracks_breakable {kind : BreakableKind} (hkind : kind ≠ .function)
    (hopen : openBreakable kind a = .ok ((), a₀)) (hbody : Tracks a₀ a₁ d [] names n a.live Q)
    (hclose : closeBreakable a₁ = .ok ((), a₂)) :
    Tracks a a₂ d [] names n a.live Q := by
  obtain ⟨T, hT⟩ := hbody
  have hbreak := assembles_breakable hkind hopen hT.assembles hclose
  have hend : a₂.offset = a₁.offset ∧ a₂.live = a₁.live := by
    obtain ⟨s, a₃, hs, hrest⟩ := ok_of_bind hclose
    cases hs
    cases hbs : a₁.scope.breakables with
    | nil =>
      rw [hbs] at hrest
      cases hrest
      exact ⟨rfl, rfl⟩
    | cons b bs =>
      rw [hbs] at hrest
      obtain ⟨_, a₄, hpatch, hupdate⟩ := ok_of_bind hrest
      obtain ⟨hoffset, hscope⟩ := patchAll_eq _ hpatch
      cases hupdate
      exact ⟨hoffset, congrArg (fun s => s.locals.length) hscope⟩
  cases hopen
  refine ⟨T, by rw [hend.1]; exact hT.covers, by rw [hend.1]; exact hT.enters, hT.sound,
    hbreak.congr rfl (fun _ _ => rfl) ?_⟩
  rintro C address exit k ⟨-, -, hlen, hC⟩
  rw [← hend.1] at hC
  refine ⟨rfl, rfl, by rw [hend.2]; exact hlen, fun H hH hat => ⟨(hC H hH hat).1, ?_⟩⟩
  intro l total htotal hbasis hjs
  have hexit : (Exit.to a.scope.names.length a₂.offset).Meets H := by
    rw [Scope.length_names]
    exact hat
  exact (hC H hH hat).2 l total htotal ⟨hbasis.functions, hbasis.names, hbasis.outer, hexit⟩ hjs

/-- The construct around the current statement has begun with no more variables than are in use. -/
structure Assembly.Ready (a : Assembly) : Prop where
  lexical : a.Lexical
  nested : ∀ b ∈ a.scope.breakables.head?, b.locals ≤ a.live

theorem Tracks.ready (h : Tracks a a' d js names n m Q) (ha : a.Ready) : a'.Ready := by
  refine ⟨h.lexical ha.lexical, fun b hb => ?_⟩
  obtain ⟨T, hT⟩ := h
  obtain ⟨fs, new, -, hp⟩ := hT.assembles
  have hle : a.live ≤ a'.live := hp.grows.length_le
  have hnested := ha.nested
  rw [hp.breakables] at hb
  cases hbs : a.scope.breakables with
  | nil =>
    rw [hbs] at hb
    cases hb
  | cons c cs =>
    rw [hbs] at hb hnested
    cases hb
    exact Nat.le_trans (hnested c rfl) hle

theorem ready_openScope (h : openScope a = .ok ((), a')) (ha : a.Ready) : a'.Ready := by
  refine ⟨lexical_openScope h ha.lexical, ?_⟩
  cases h
  exact ha.nested

theorem ready_openBreakable {kind : BreakableKind} (h : openBreakable kind a = .ok ((), a'))
    (ha : a.Ready) : a'.Ready := by
  refine ⟨lexical_openBreakable h ha.lexical, fun b hb => ?_⟩
  cases h
  cases hb
  exact Nat.le_refl _

theorem Assembly.Ready.enter (ha : a.Lexical) (params : List Ident) : (a.enter params).Ready := by
  refine ⟨ha.enter params, fun b hb => ?_⟩
  rw [Assembly.breakables_enter] at hb
  cases hb
  exact Nat.zero_le _

/-- An open jump becomes one that waits for the end of the construct around it. -/
private theorem Assembles.exit {j : Nat} {js : List Nat} {placed : PlacedAs} {b : Breakable}
    {rest : List Breakable} (h : Assembles a a₁ d (j :: js) names placed)
    (hbs : a₁.scope.breakables = b :: rest) (hb : b.kind ≠ .function) :
    Assembles a { a₁ with scope := { a₁.scope with
        breakables := { b with exits := b.exits ++ [j] } :: rest } } d js names
      fun C address outer exit k ns x y => placed C address outer exit k ns x y ∧
        ∃ target : Nat, exit = .to b.locals target ∧ C.readJump j = target := by
  obtain ⟨fs, new, hfs, hp⟩ := h
  have hnew := hp.breakables
  rw [hbs] at hnew
  cases hold : a.scope.breakables with
  | nil =>
    rw [hold] at hnew
    cases hnew
  | cons b₀ bs =>
    rw [hold] at hnew
    cases hnew
    have happend : new ++ j :: js = (new ++ [j]) ++ js := by simp
    have hchunk := hp.chunk
    rw [happend] at hchunk
    refine ⟨fs, new ++ [j], hfs, ?_⟩
    exact
      { outer := hp.outer
        depth := hp.depth
        grows := hp.grows
        lexical := fun ha => by
          have hend := hp.lexical ha
          exact hend.update (hend.scope.breakables _)
        breakables := by
          rw [hold]
          simp [Breakable.addExits]
        waits := by
          rw [hold]
          exact fun hfunction => absurd hfunction hb
        within := hp.within
        ordered := hp.ordered
        names := hp.names
        chunk := hchunk.mono fun C hC ha hshort address k exit hk hexit => by
          have hleads : exit.Leads C new _ := hexit.mono fun i hi => List.mem_append_left _ hi
          refine ⟨hC ha hshort address k exit hk hleads, ?_⟩
          rw [hold, Exit.Leads, if_neg hb] at hexit
          obtain ⟨target, rfl, htarget⟩ := hexit
          exact ⟨target, rfl, htarget j (List.mem_append_right _ List.mem_cons_self)⟩
        known := fun address total hfs h => by
          have hknown := hp.known address total hfs h
          exact ⟨hknown.constants, hknown.scope, hknown.outer⟩ }

/-- An instruction that ends a call or a run: what stands behind it is not met from here. -/
theorem raises_end {op : Opcode} (m : Nat) (hop : op = .ret ∨ op = .halt)
    (h : emit op span [] a = .ok ((), a')) (hn : op.info.pops.getD 0 ≤ n) :
    Raises a a' n m fun _ => True := by
  have hlen : op.operandLength = 0 := by rcases hop with rfl | rfl <;> rfl
  have hlt : a.offset < a'.offset := by
    cases h
    simp only [Assembly.offset, Chunk.size_code_emit]
    omega
  exact .single (emits_emit hlen h) hlt fun C hC l H _ _ => hC.checks_end hop hn

/-- `GTFO` in its two forms. -/
private theorem leave_parts (h : leave span a = .ok ((), a')) :
    (∃ a₁, emitConstant .noob span a = .ok ((), a₁) ∧ emit .ret span [] a₁ = .ok ((), a')) ∨
    ∃ b rest a₁ a₂ j, a.scope.breakables = b :: rest ∧ b.kind ≠ .function ∧
      emitPops (a.live - b.locals) span a = .ok ((), a₁) ∧ emitJump .jump span a₁ = .ok (j, a₂) ∧
      a' = { a₂ with scope := { a₂.scope with
        breakables := { b with exits := b.exits ++ [j] } :: rest } } := by
  obtain ⟨s, a₁, hs, hrest⟩ := ok_of_bind h
  cases hs
  cases hbs : a.scope.breakables with
  | nil =>
    rw [hbs] at hrest
    cases hrest
  | cons b rest =>
    rw [hbs] at hrest
    dsimp only at hrest
    cases hk : b.kind with
    | function =>
      rw [hk] at hrest
      obtain ⟨_, a₂, hnoob, hret⟩ := ok_of_bind hrest
      exact .inl ⟨a₂, hnoob, hret⟩
    | loop | switch =>
      rw [hk] at hrest
      obtain ⟨_, a₂, hpops, hrest⟩ := ok_of_bind hrest
      obtain ⟨j, a₃, hjump, hupdate⟩ := ok_of_bind hrest
      cases hupdate
      exact .inr ⟨b, rest, a₂, a₃, j, rfl, by rw [hk]; nofun, hpops, hjump, by rw [hk]⟩

theorem tracks_leave (ha : a.Ready) (h : leave span a = .ok ((), a')) :
    a'.live = a.live ∧ Tracks a a' 0 [] (fun _ _ ns => ns) a.live a.live fun _ => True := by
  rcases leave_parts h with ⟨a₁, hnoob, hret⟩ | ⟨b, rest, a₁, a₂, j, hbs, hb, hpops, hjump, rfl⟩
  · have h₁ : Raises a a₁ a.live (a.live + 1) _ :=
      raises_emitConstant hnoob rfl (fun _ _ => trivial) (by rintro _ _ - _ ⟨⟩)
    have h₂ := raises_end (n := a.live + 1) a.live (.inl rfl) hret (Nat.le_add_left 1 _)
    have hraises := h₁.trans h₂
    refine ⟨by rw [Assembly.live, hraises.scope], ?_⟩
    exact (Tracks.of_raises hraises).mono fun _ _ _ _ => trivial
  · have hle : b.locals ≤ a.live := ha.nested b (by rw [hbs]; rfl)
    have h₁ := raises_pops (n := b.locals) hpops
    rw [Nat.add_sub_cancel' hle] at h₁
    have hscope : a₂.scope = a.scope := by
      cases hjump
      exact h₁.scope
    obtain ⟨T, hT⟩ := (Tracks.of_raises h₁).trans (tracks_emitJump a.live hjump)
    have hassembles := hT.assembles.exit (by rw [hscope, hbs]) hb
    refine ⟨by rw [Assembly.live, hscope], T, hT.covers, hT.enters, .same 0,
      hassembles.congr rfl (fun _ _ => rfl) ?_⟩
    rintro C address exit k ⟨⟨-, -, hlen, hC⟩, target, rfl, htarget⟩
    refine ⟨rfl, rfl, hlen, fun H hH hend => ⟨(hC H hH hend).1, fun l total hk hbasis _ => ?_⟩⟩
    obtain ⟨hchecks, -⟩ := (hC H hH hend).2 l total hk hbasis
      (List.forall_mem_singleton.2 ⟨target, htarget, hbasis.exit⟩)
    exact ⟨hchecks, trivial⟩

/-- The marker of a function stands behind the jump over it. -/
private theorem offset_of_openFunction {name : Ident} {params : List Ident} {skip : Nat} {f : KnownFunction}
    (h : openFunction span name params a = .ok ((skip, f), a')) :
    f.offset = a.offset + 5 ∧ f.offset < a'.offset := by
  unfold openFunction at h
  split at h
  · cases h
  · obtain ⟨j, a₁, hjump, hrest⟩ := ok_of_bind h
    obtain ⟨offset, a₂, hhere, hrest⟩ := ok_of_bind hrest
    cases hhere
    obtain ⟨_, a₃, hmarker, hrest⟩ := ok_of_bind hrest
    obtain ⟨_, a₄, hdeclare, hrest⟩ := ok_of_bind hrest
    cases hdeclare
    obtain ⟨_, a₅, henter, hrest⟩ := ok_of_bind hrest
    cases henter
    obtain ⟨_, a₆, hps, hpure⟩ := ok_of_bind hrest
    cases hpure
    refine ⟨offset_emitJump hjump, ?_⟩
    rw [declareParams_eq params hps]
    cases hmarker
    simp only [Assembly.offset, Chunk.size_code_emit]
    omega

/-- The code behind a function's body is met with the height at its end. -/
def returnTable (body : List Stmt) (offset n : Nat) : List (Nat × Nat) :=
  if endsInReturn body then [] else [(offset, n), (offset + 1, n + 1)]

private theorem ReturnAt.checks {c : Chunk} {l : Linked} {H : Heights} {body : List Stmt} {start stop : Nat}
    (h : ReturnAt c span body start stop) (hH : H.Includes (returnTable body start n)) :
    ∀ p ∈ returnTable body start n, c.Checks l H p.1 p.2 := by
  unfold ReturnAt at h
  unfold returnTable at hH ⊢
  split
  · nofun
  · rename_i hends
    rw [if_neg hends] at h hH
    obtain ⟨m, hit, hret⟩ := h
    obtain rfl : m = start + 1 := hit.2.2
    obtain ⟨hfirst, hsecond⟩ := List.forall_mem_cons.1 hH
    refine List.forall_mem_cons.2 ⟨?_, List.forall_mem_singleton.2 ?_⟩
    · exact hit.checks rfl (Nat.zero_le _) trivial (hsecond _ List.mem_cons_self)
    · exact hret.checks_end (.inl rfl) (Nat.le_add_left 1 n)

private theorem covers_returnTable {body : List Stmt}
    (h : if endsInReturn body then a₁ = a else
      ∃ a₀, emit .readIt span [] a = .ok ((), a₀) ∧ emit .ret span [] a₀ = .ok ((), a₁)) :
    Covers (returnTable body a.offset n) a.offset a₁.offset := by
  unfold returnTable
  split at h
  · rename_i hends
    rw [if_pos hends]
    exact .nil _ _
  · rename_i hends
    obtain ⟨a₀, hit, hret⟩ := h
    have hsize : a₁.offset = a.offset + 1 + 1 := by
      cases hit
      cases hret
      simp only [Assembly.offset, Chunk.size_code_emit, List.length_nil]
    rw [if_neg hends, hsize]
    exact (Covers.singleton (Nat.lt_succ_self _)).append (.singleton (Nat.lt_succ_self _))
      (Nat.le_succ _) (Nat.le_succ _)

/-- The height at the end of a body, which is not met when the body ends with a return. -/
private theorem at_returnTable {body : List Stmt} {m : Nat} {H : Heights}
    (h : if endsInReturn body then a₁ = a else
      ∃ a₀, emit .readIt span [] a = .ok ((), a₀) ∧ emit .ret span [] a₀ = .ok ((), a₁))
    (hH : H.Includes (returnTable body a.offset n)) (hat : H.At a₁.offset m) :
    H.At a.offset (if endsInReturn body then m else n) := by
  unfold returnTable at hH
  split at h
  · rename_i hends
    rw [if_pos hends, ← h]
    exact hat
  · rename_i hends
    rw [if_neg hends] at hH ⊢
    exact hH _ List.mem_cons_self

/-- A function: its body has the height of its parameters at the start, and its value is pushed
behind it. -/
theorem tracks_define {name : Ident} {params : List Ident} {body : List Stmt} {skip : Nat}
    {f : KnownFunction} {a₃ : Assembly} (ha : a.Lexical)
    (hopen : openFunction span name params a = .ok ((skip, f), a₁))
    (hbody : Tracks a₁ a₂ d [] names params.length (if endsInReturn body then n else a₂.live) Q)
    (hclose : closeFunction span body skip f a₂ = .ok ((), a₃)) :
    a₃.live = a.live + 1 ∧
    Tracks a a₃ (d + 1) [] (fun address k ns => (name.name, some (address k)) :: ns) n (n + 1) Q := by
  obtain ⟨hmarker, hlt⟩ := offset_of_openFunction hopen
  obtain ⟨b, rfl, hnamed, hstart⟩ := assembles_openFunction hopen
  obtain ⟨T, hT⟩ := hbody
  obtain ⟨b₂, b₃, hsteps, hpatch, hconst⟩ := closeFunction_steps hT.assembles.outer hclose
  have hret : Emits a₂ b₂ fun C => ReturnAt C span body a₂.offset b₂.offset := emits_return hsteps
  have hoffset : b₃.offset = b₂.offset := (patchAll_eq [skip] hpatch).1
  have hbehind : Assembles b₃ a₃ 0 [] (fun _ _ ns => ns) fun C _ _ _ _ _ x y => x = b₃.offset ∧
      C.HasConstant (functionValue f.offset) span x y :=
    .of_emits (fun C _ _ x y => x = b₃.offset ∧ C.HasConstant (functionValue f.offset) span x y)
      ((emits_emitConstant rfl hconst (known_of_patch hpatch hnamed)).mono fun C hC => ⟨rfl, hC⟩)
  have hall := ((hstart.trans (assembles_body (fun C => ReturnAt C span body) hT.assembles hret)).patch
    hpatch).trans hbehind
  have hlive : a₃.live = a.live + 1 := by
    obtain ⟨address, k, hnames⟩ := hall.exists_names ha
    rw [Assembly.live, ← Scope.length_names, hnames, List.length_cons, Scope.length_names]
  refine ⟨hlive, [(a.offset, n)] ++ ([(f.offset, params.length)] ++
    (T ++ (returnTable body a₂.offset a₂.live ++ [(b₃.offset, n)]))), ?_, ?_, .define _ d,
    hall.congr (by omega) (fun _ _ => rfl) ?_⟩
  · have hcovers₁ : Covers [(a.offset, n)] a.offset f.offset := .singleton (by omega)
    have hcovers₂ : Covers [(f.offset, params.length)] f.offset (b.enter params).offset :=
      .singleton hlt
    have hcovers₃ := covers_returnTable (n := a₂.live) hsteps
    have hcovers₄ : Covers [(b₃.offset, n)] b₂.offset a₃.offset := by
      rw [← hoffset]
      exact .singleton (offset_lt_emitConstant hconst)
    have hle : b₂.offset ≤ a₃.offset := by
      rw [← hoffset]
      exact Nat.le_of_lt (offset_lt_emitConstant hconst)
    have hle₂ := Nat.le_trans hret.chunk.size hle
    have hle₁ := Nat.le_trans hT.assembles.size hle₂
    exact hcovers₁.append (hcovers₂.append (hT.covers.append (hcovers₃.append hcovers₄
      hret.chunk.size hle) hT.assembles.size hle₂) (Nat.le_of_lt hlt) hle₁) (by omega)
      (Nat.le_trans (Nat.le_of_lt hlt) hle₁)
  · intro H hH _
    exact hH _ List.mem_cons_self
  · rintro C address exit k ⟨m₃, ⟨⟨m₁, ⟨hf, hjump, hmark⟩, m₂, ⟨rfl, rfl, -, hC⟩, hreturn⟩, htarget⟩,
      rfl, hvalue⟩
    refine ⟨rfl, rfl, ?_, fun H hH hat => ?_⟩
    · rw [List.length_cons, Scope.length_names, hlive]
    · obtain ⟨hHjump, hH⟩ := Heights.includes_append.1 hH
      obtain ⟨hHmark, hH⟩ := Heights.includes_append.1 hH
      obtain ⟨hHT, hH⟩ := Heights.includes_append.1 hH
      obtain ⟨hHret, hHvalue⟩ := Heights.includes_append.1 hH
      have hvalueAt : H.At b₂.offset n := by
        rw [← hoffset]
        exact hHvalue.singleton
      have hbodyEnd := at_returnTable hsteps hHret hvalueAt
      obtain ⟨hmarked, hchecks⟩ := hC H hHT hbodyEnd
      refine ⟨fun j hkj hjk => ?_, fun l total hk hbasis _ => ?_⟩
      · by_cases hj : j = k
        · rw [hj, hf]
          rw [hf] at hmark
          exact ⟨hHmark.singleton.1, _, hmark.1⟩
        · exact hmarked j (by omega) (by omega)
      · have hknown := hbasis.names.cons_some name.name (k := k) (by omega)
        obtain ⟨hTchecks, hQ⟩ := hchecks l total (by omega)
          ⟨hbasis.functions, .ofParams params, List.forall_mem_cons.2 ⟨hknown, hbasis.outer⟩, trivial⟩
          nofun
        have hvalid : (functionValue f.offset).Valid l 0 := by
          rw [← hf]
          exact hbasis.functions k (by omega)
        rw [hf] at hmark
        refine ⟨List.forall_mem_append.2 ⟨List.forall_mem_singleton.2 ?_,
          List.forall_mem_append.2 ⟨List.forall_mem_singleton.2 ?_,
            List.forall_mem_append.2 ⟨hTchecks, List.forall_mem_append.2 ⟨hreturn.checks hHret,
              List.forall_mem_singleton.2 (hvalue.checks hvalid hat)⟩⟩⟩⟩, hQ⟩
        · exact (hjump _ htarget).checks_jump hHvalue.singleton
        · exact hmark.checks rfl (Nat.zero_le _) rfl (hT.enters H hHT hbodyEnd)

end LolToolchain
