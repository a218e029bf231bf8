import LolToolchain.CommandLine.Command
import LolToolchain.Proofs.Table
import LolToolchain.Text.CommonNames

/-!
What a command that fails leaves of the files. It changes the cache that it has opened; and a build
makes its output before it looks at the program, and takes it away when the program cannot be built.
-/
namespace LolToolchain

namespace FileTree

variable {t t' : FileTree} {place place' : List Text} {n : FileNode}

/-- What there is at a place, unless it is a directory. -/
def file? (t : FileTree) (place : List Text) : Option FileNode :=
  (t.lookup place).filter (· != .directory)

private theorem lookup_set_of_ne (h : place' ≠ place) (n : FileNode) :
    (t.set place n).lookup place' = t.lookup place' := by
  unfold lookup set
  rw [List.lookup_append, lookup_filter_of_ne h, lookup_cons_of_ne h, List.lookup_nil,
    Option.or_none]

private theorem lookup_erase_of_ne (h : place' ≠ place) :
    (t.erase place).lookup place' = t.lookup place' := by
  unfold lookup erase
  rw [lookup_filter_of_ne h]

theorem file?_set_of_ne (h : place' ≠ place) (n : FileNode) :
    (t.set place n).file? place' = t.file? place' := by
  rw [file?, lookup_set_of_ne h, file?]

theorem file?_erase_of_ne (h : place' ≠ place) : (t.erase place).file? place' = t.file? place' := by
  rw [file?, lookup_erase_of_ne h, file?]

theorem file?_erase_self : (t.erase place).file? place = none := by
  unfold file? lookup erase
  split
  · rfl
  · rw [lookup_filter_self]
    rfl

/-- A new directory takes no file away. -/
private theorem file?_set_directory (h : t.lookup place = none) (place' : List Text) :
    (t.set place .directory).file? place' = t.file? place' := by
  by_cases heq : place' = place
  · subst heq
    have hroot : place'.isEmpty = false := by
      unfold lookup at h
      split at h
      · cases h
      · rename_i hne
        exact eq_false_of_ne_true hne
    have hset : (t.set place' .directory).lookup place' = some .directory := by
      rw [lookup, hroot, set, List.lookup_append, lookup_filter_self, List.lookup_cons,
        beq_self_eq_true]
      rfl
    rw [file?, hset, file?, h]
    rfl
  · exact file?_set_of_ne heq _

private theorem file?_makeDirectories {start : List Text} {components : List Text}
    (h : makeDirectories start components t = some t') (place : List Text) :
    t'.file? place = t.file? place := by
  induction components generalizing start t with
  | nil =>
    cases h
    rfl
  | cons c cs ih =>
    rw [makeDirectories] at h
    split at h
    · exact ih h
    split at h
    · exact ih h
    dsimp only at h
    split at h
    · exact ih h
    · cases h
    · rename_i hnone
      split at h
      · cases h
      · exact (ih h).trans (file?_set_directory hnone place)

theorem file?_makeDirectory {path : Text} (h : t.makeDirectory path = some t') (place : List Text) :
    t'.file? place = t.file? place := by
  unfold makeDirectory at h
  split at h
  · cases h
  · exact file?_makeDirectories h place

/-- A store that is opened may be new; no other file changes. -/
theorem file?_openStore {path : Text} {store : Store}
    (h : t.openStore path = .ok (place, store, t'))
    (hne : place' ≠ place) : t'.file? place' = t.file? place' := by
  unfold openStore at h
  split at h
  · cases h
  · rename_i t₁ hdir
    have hkeep := file?_makeDirectory hdir place'
    split at h
    · cases h
    · split at h
      · cases h
      · cases h
        exact hkeep
      · cases h
      · cases h
        exact (file?_set_of_ne hne _).trans hkeep

/-- A file is made where its path leads. -/
theorem create_ok {path : Text} (h : t.create path = .ok (place, t')) :
    t.resolve path = .ok place ∧ t' = t.set place (.file []) := by
  unfold create at h
  split at h
  · cases h
  · rename_i hresolve
    split at h
    · cases h
    · cases h
      exact ⟨hresolve, rfl⟩

end FileTree

namespace Command

/-- The work that a command line asks for: its arguments, the manifest that holds for them, and the
path of the program. -/
structure Task where
  arguments : Arguments
  manifest : Manifest
  path : Text

/-- The work that a command line comes to. There is none if it is wrong or asks for the editor's
server, or if its manifest cannot be read. -/
def task? (args : List Text) (tree : FileTree) : Option Task :=
  match Arguments.parse args with
  | .error _ => none
  | .ok a =>
    let path := a.rest.headD []
    if path.isEmpty || a.serve then none
    else match Manifest.find tree (if path == "-" then "." else Path.parent path) with
      | .error _ => none
      | .ok m => some ⟨a, m.getD .default, path⟩

variable {fuel : Nat} {args : List Text} {input : Text} {tree : FileTree} {t : Task}

theorem run_of_task? [CharNames] (h : task? args tree = some t) :
    run fuel args input tree = perform fuel t.arguments t.manifest t.path input tree := by
  unfold task? at h
  unfold run
  cases hparse : Arguments.parse args with
  | error f =>
    rw [hparse] at h
    cases h
  | ok a =>
    rw [hparse] at h
    dsimp only at h ⊢
    split at h
    · cases h
    · rename_i hgo
      simp only [Bool.or_eq_true, not_or, Bool.not_eq_true] at hgo
      obtain ⟨hpath, hserve⟩ := hgo
      simp only [hpath, hserve, Bool.false_and, Bool.false_or, Bool.false_eq_true, if_false]
      cases hfind : Manifest.find tree
          (if a.rest.headD [] == "-" then "." else Path.parent (a.rest.headD [])) with
      | error f =>
        rw [hfind] at h
        cases h
      | ok m =>
        rw [hfind] at h
        cases h
        rfl

theorem run_of_no_task [CharNames] (h : task? args tree = none) :
    (run fuel args input tree).tree = tree := by
  unfold task? at h
  unfold run
  cases hparse : Arguments.parse args with
  | error f => cases f <;> rfl
  | ok a =>
    rw [hparse] at h
    dsimp only at h ⊢
    split
    · rfl
    rename_i hpath
    by_cases hserve : a.serve = true
    · split
      · rfl
      · rw [if_pos hserve]
    · simp only [Bool.not_eq_true] at hserve
      simp only [hserve, Bool.not_false, Bool.and_true, Bool.not_eq_true] at hpath
      simp only [hpath, hserve, Bool.false_or, Bool.or_false, Bool.false_eq_true, if_false] at h ⊢
      cases hfind : Manifest.find tree
          (if a.rest.headD [] == "-" then "." else Path.parent (a.rest.headD [])) with
      | error f => rfl
      | ok m =>
        rw [hfind] at h
        cases h

namespace Task

/-- The tree in which the program is looked for: the cache has been opened. -/
def opened (t : Task) (tree : FileTree) : FileTree :=
  (openCache t.arguments t.manifest tree).2

/-- The place of the cache, if the work uses one that can be opened. -/
def cachePlace? (t : Task) (tree : FileTree) : Option (List Text) :=
  (openCache t.arguments t.manifest tree).1.map (·.1)

/-- The place that the output's path leads to. -/
def outputPlace? (t : Task) (tree : FileTree) : Option (List Text) :=
  ((t.opened tree).resolve t.arguments.output).toOption

/-- The program can be read. -/
def Readable (t : Task) (tree : FileTree) : Prop :=
  t.path = "-" ∨ ∃ text, (t.opened tree).read t.path = .ok text

end Task

/-- Opening the cache changes no other file. -/
theorem file?_openCache (t : Task) {place : List Text} (h : t.cachePlace? tree ≠ some place) :
    (t.opened tree).file? place = tree.file? place := by
  unfold Task.opened Task.cachePlace? at *
  unfold openCache at *
  split at h
  · rename_i huse
    rw [if_pos huse]
    cases hstore : tree.openStore t.manifest.cachePath with
    | ok opened =>
      obtain ⟨at_, store, tree'⟩ := opened
      rw [hstore] at h
      refine FileTree.file?_openStore hstore fun heq => h ?_
      rw [heq]
      rfl
    | error f =>
      cases f with
      | directory => rfl
      | _ =>
        dsimp only
        cases hdir : tree.makeDirectory (Path.parent t.manifest.cachePath) with
        | none => rfl
        | some tree' => exact FileTree.file?_makeDirectory hdir place
  · rename_i huse
    rw [if_neg huse]

/-- A build that fails takes its output away, if it can make one; no other file changes. -/
private theorem file?_buildFile [CharNames] {o : Options} {s : Streams} {cache : Option Cache}
    {name text output : Text}
    (h : (buildFile o s cache name text output tree).outcome.failure.isSome = true)
    (place : List Text) :
    (buildFile o s cache name text output tree).tree.file? place = tree.file? place ∨
      (tree.resolve output).toOption = some place ∧
        (buildFile o s cache name text output tree).tree.file? place = none := by
  unfold buildFile at *
  cases hcreate : tree.create output with
  | error cause => exact .inl rfl
  | ok made =>
    obtain ⟨made, tree'⟩ := made
    obtain ⟨hresolve, rfl⟩ := FileTree.create_ok hcreate
    rw [hcreate] at h
    dsimp only at h ⊢
    rw [if_pos h]
    by_cases heq : place = made
    · exact .inr ⟨by rw [hresolve, heq]; rfl, heq ▸ FileTree.file?_erase_self⟩
    · exact .inl ((FileTree.file?_erase_of_ne heq).trans (FileTree.file?_set_of_ne heq _))

private theorem tree_runFile [CharNames] (o : Options) (s : Streams) (cache : Option Cache) (path : Text)
    (tree : FileTree) : (runFile fuel o s cache path tree).tree = tree := by
  unfold runFile
  split
  · rfl
  · split
    · split <;> rfl
    · rfl

/-- Work that fails changes at most the output, if the program can be read. -/
private theorem file?_work [CharNames] {o : Options} {s : Streams} {cache : Option Cache}
    {path output : Text}
    (h : (work fuel o s cache path output tree).outcome.failure.isSome = true) (place : List Text) :
    (work fuel o s cache path output tree).tree.file? place = tree.file? place ∨
      (path = "-" ∨ ∃ text, tree.read path = .ok text) ∧
        (tree.resolve output).toOption = some place ∧
        (work fuel o s cache path output tree).tree.file? place = none := by
  unfold work at *
  by_cases hinput : path = "-"
  · simp only [hinput, beq_self_eq_true, if_true] at h ⊢
    split
    · exact .inl rfl
    · rename_i houtput
      rw [if_neg houtput] at h
      exact (file?_buildFile h place).imp_right fun hgone => ⟨.inl trivial, hgone⟩
  · simp only [beq_eq_false_iff_ne.2 hinput, Bool.false_eq_true, if_false] at h ⊢
    by_cases houtput : output.isEmpty = true
    · rw [if_pos houtput]
      exact .inl (congrArg (·.file? place) (tree_runFile ..))
    · rw [if_neg houtput] at h ⊢
      cases hread : tree.read path with
      | error cause => exact .inl rfl
      | ok text =>
        rw [hread] at h
        exact (file?_buildFile h place).imp_right fun hgone => ⟨.inr ⟨text, rfl⟩, hgone⟩

/-- What the work of a command comes to, before the cache is closed. -/
def Task.done [CharNames] (fuel : Nat) (t : Task) (input : Text) (tree : FileTree) : Work :=
  work fuel (optionsOf t.arguments t.manifest) { input }
    ((openCache t.arguments t.manifest tree).1.map (·.2)) t.path t.arguments.output (t.opened tree)

/-- The tree in the end: the cache has been put back into its place. -/
def Task.closed [CharNames] (fuel : Nat) (t : Task) (input : Text) (tree : FileTree) : FileTree :=
  let w := t.done fuel input tree
  match (openCache t.arguments t.manifest tree).1, w.cache with
  | some (made, _), some cache => w.tree.set made (.database cache.store)
  | _, _ => w.tree

/-- A command ends with the cache closed, and fails if its work does. -/
private theorem perform_closes [CharNames] (fuel : Nat) (t : Task) (input : Text) (tree : FileTree) :
    (perform fuel t.arguments t.manifest t.path input tree).tree = t.closed fuel input tree ∧
    ((perform fuel t.arguments t.manifest t.path input tree).exitCode = 1 →
      (t.done fuel input tree).outcome.failure.isSome = true) := by
  unfold perform Task.closed Task.done Task.opened
  generalize openCache t.arguments t.manifest tree = o
  obtain ⟨opened, tree'⟩ := o
  dsimp only
  generalize work fuel _ _ _ _ _ tree' = w
  cases w.outcome.failure with
  | none =>
    refine ⟨rfl, fun h => ?_⟩
    cases h
  | some f => exact ⟨rfl, fun _ => rfl⟩

/-- Closing the cache changes no other file. -/
private theorem file?_closed [CharNames] {place : List Text} (hcache : t.cachePlace? tree ≠ some place) :
    (t.closed fuel input tree).file? place = (t.done fuel input tree).tree.file? place := by
  unfold Task.closed
  dsimp only
  split
  · rename_i made _ cache hopened _
    refine FileTree.file?_set_of_ne (fun heq => hcache ?_) _
    rw [Task.cachePlace?, hopened, heq]
    rfl
  · rfl

/-- Doing the work of a command that fails changes no file but the cache, the output taken aside: if
there was a file at its place, it may be gone, unless the program cannot be read. -/
private theorem file?_perform [CharNames]
    (h : (perform fuel t.arguments t.manifest t.path input tree).exitCode = 1)
    {place : List Text} (hcache : t.cachePlace? tree ≠ some place) :
    (perform fuel t.arguments t.manifest t.path input tree).tree.file? place = tree.file? place ∨
      t.Readable tree ∧ t.outputPlace? tree = some place ∧
        (perform fuel t.arguments t.manifest t.path input tree).tree.file? place = none := by
  obtain ⟨htree, hfails⟩ := perform_closes fuel t input tree
  rw [htree, ← file?_openCache t hcache, file?_closed hcache]
  exact file?_work (hfails h) place

/-- A command that fails leaves all files as they were, but for its cache. Only where the output was
to be made there may be nothing afterwards, if the program has been read. -/
theorem files_of_failed [CharNames] (h : (run fuel args input tree).exitCode = 1)
    (place : List Text) (hcache : (task? args tree).bind (·.cachePlace? tree) ≠ some place) :
    (run fuel args input tree).tree.file? place = tree.file? place ∨
      ∃ t, task? args tree = some t ∧ t.Readable tree ∧ t.outputPlace? tree = some place ∧
        (run fuel args input tree).tree.file? place = none := by
  cases htask : task? args tree with
  | none => exact .inl (by rw [run_of_no_task htask])
  | some t =>
    rw [run_of_task? htask] at h ⊢
    rw [htask] at hcache
    exact (file?_perform h hcache).imp_right fun hgone => ⟨t, rfl, hgone⟩

/-- A program that cannot be compiled, beside what an earlier version of it has been built into. -/
def stale : FileTree :=
  ⟨[(["a.lol"], .file "HAI"), (["a.lolc"], .file "old")], "/"⟩

attribute [local instance] CharNames.common

/-- A build of the program into a new file leaves all files as they were. -/
theorem files_of_failed_new :
    (run 0 ["--no-cache", "-o", "b.lolc", "a.lol"] [] stale).exitCode = 1 ∧
    ∀ place, (run 0 ["--no-cache", "-o", "b.lolc", "a.lol"] [] stale).tree.file? place =
      stale.file? place := by
  obtain ⟨hfails, hcache, houtput⟩ :
      (run 0 ["--no-cache", "-o", "b.lolc", "a.lol"] [] stale).exitCode = 1 ∧
      (task? ["--no-cache", "-o", "b.lolc", "a.lol"] stale).bind (·.cachePlace? stale) = none ∧
      (task? ["--no-cache", "-o", "b.lolc", "a.lol"] stale).bind (·.outputPlace? stale) =
        some [("b.lolc" : Text)] := by decide +kernel
  refine ⟨hfails, fun place => ?_⟩
  obtain hsame | ⟨t, htask, -, hplace, hgone⟩ :=
    files_of_failed hfails place (by rw [hcache]; nofun)
  · exact hsame
  · rw [htask, Option.bind_some, hplace] at houtput
    cases houtput
    rw [hgone]
    rfl

/-- A build of the program into the old file takes it away. -/
theorem failed_build_takes_output :
    (run 0 ["--no-cache", "-o", "a.lolc", "a.lol"] [] stale).exitCode = 1 ∧
    (task? ["--no-cache", "-o", "a.lolc", "a.lol"] stale).bind (·.cachePlace? stale) = none ∧
    stale.file? ["a.lolc"] = some (.file "old") ∧
    (run 0 ["--no-cache", "-o", "a.lolc", "a.lol"] [] stale).tree.file? ["a.lolc"] = none := by
  decide +kernel

end Command
end LolToolchain
