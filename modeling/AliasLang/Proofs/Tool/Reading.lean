/-
What a run reads. Nothing that is not among the input paths counts for the result, and three rounds of reading find all
of these: after the first the configuration is known, after the second the source, and after the third what it imports.
So a run over some files comes to the same as if all of them had been known from the start.
-/
import AliasLang.Proofs.Command.Imports
import AliasLang.Proofs.Program.Outcome
import AliasLang.Tool.Run

namespace AliasLang.Tool

open Program (bind_eq_ok)

/-- Reads texts by their paths. -/
abbrev Reader := String → Except FileError String

/-! ## What counts for the result -/

theorem configure_congr {read read' : Reader} {args : Arguments} (h : ∀ path ∈ args.config, read path = read' path) :
    configure read args = configure read' args := by
  unfold configure Config.load
  cases hconfig : args.config with
  | none => rfl
  | some path => simp only [h path hconfig]

theorem mem_inputPaths_config {read : Reader} {args : Arguments} {path : String} (h : path ∈ args.config) :
    path ∈ inputPaths read args := List.mem_append_left _ (Option.mem_toList.mpr h)

theorem mem_inputPaths_input {read : Reader} {args : Arguments} {config : Config}
    (h : configure read args = .ok config) : args.input ∈ inputPaths read args := by
  unfold inputPaths
  rw [h]
  exact List.mem_append_right _ List.mem_cons_self

theorem mem_inputPaths_import {read : Reader} {args : Arguments} {config : Config} {source : String} {p : Program}
    (h : configure read args = .ok config) (hread : read args.input = .ok source)
    (hparse : Program.parse source = .ok p) {i : Program.ImportRef} (hi : i ∈ p.imports) :
    Gist.joinPath config.gist.cacheDir i.id ∈ inputPaths read args := by
  unfold inputPaths
  rw [h, hread]
  simp only [Except.toOption, Option.bind_some, hparse]
  exact List.mem_append_right _ (List.mem_cons_of_mem _ (List.mem_map_of_mem hi))

/-- The input paths are known as soon as the configuration and the source are. -/
theorem inputPaths_congr {read read' : Reader} {args : Arguments}
    (hconfig : ∀ path ∈ args.config, read path = read' path)
    (hinput : ∀ config, configure read args = .ok config → read args.input = read' args.input) :
    inputPaths read args = inputPaths read' args := by
  unfold inputPaths
  rw [← configure_congr hconfig]
  cases h : configure read args with
  | error e => rfl
  | ok config => simp only [hinput config h]

/-- Compiling a source reads the gists that it imports. -/
theorem compileText_congr {s : Surroundings} {read' : Reader} {config : Config} {source : String} {p : Program}
    (args : Arguments) (hparse : Program.parse source = .ok p)
    (h : ∀ i ∈ p.imports, s.read (Gist.joinPath config.gist.cacheDir i.id) =
      read' (Gist.joinPath config.gist.cacheDir i.id)) :
    compileText s args config source = compileText { s with read := read' } args config source := by
  have hsame : Command.SameImports (collaborators s config).fetch (collaborators { s with read := read' } config).fetch
      (p.aliases.flatMap Program.Alias.scripts) := by
    intro a ha i hi id hid
    have hpath : Gist.cachePath config.gist.cacheDir id = Gist.joinPath config.gist.cacheDir i.id := by
      rw [Gist.cachePath, Command.text_ofText hid]
    have hread := h i (List.mem_filterMap.mpr ⟨a, ha, hi⟩)
    show Gist.fetch _ _ _ _ id = Gist.fetch _ _ _ _ id
    simp only [Gist.fetch, hpath, hread]
  have hall := Command.compileAll_congr config.settings hsame
  have hentry := Command.compileEntry_congr config.settings hsame
  unfold compileText
  rw [hparse, Program.ok_bind, Program.ok_bind]
  dsimp only
  rw [hall, hentry]
  rfl

/-- A run reads no other paths than the input paths. -/
theorem prepare_congr (s : Surroundings) (args : Arguments) {read' : Reader}
    (h : ∀ path ∈ inputPaths s.read args, s.read path = read' path) :
    prepare s args = prepare { s with read := read' } args := by
  have hconfigure : configure s.read args = configure read' args :=
    configure_congr fun path hpath => h path (mem_inputPaths_config hpath)
  unfold prepare
  dsimp only
  rw [← hconfigure]
  cases hconfig : configure s.read args with
  | error e => simp only [Program.error_bind]
  | ok config =>
    rw [Program.ok_bind, Program.ok_bind, ← h args.input (mem_inputPaths_input hconfig)]
    cases hread : s.read args.input with
    | error e => simp only [Except.mapError, Program.error_bind]
    | ok source =>
      have hemit : emit s args config source = emit { s with read := read' } args config source := by
        unfold emit
        cases args.emit with
        | ast | format => rfl
        | command =>
          cases hparse : Program.parse source with
          | error e => simp only [compileText, hparse, Program.error_bind]
          | ok p =>
            have himports := compileText_congr args hparse fun i hi =>
              h _ (mem_inputPaths_import hconfig hread hparse hi)
            simp only [himports]
      simp only [Except.mapError, Program.ok_bind, hemit]

/-! ## Rounds of reading -/

/-- What is known after one more round. -/
def readRound (read : Reader) (args : Arguments) (known : Known) : Known :=
  known ++ ((inputPaths (lookUp known) args).filter fun path => (known.lookup path).isNone).map
    fun path => (path, read path)

/-- What is known is what can be read. -/
def Faithful (read : Reader) (known : Known) : Prop :=
  ∀ path content, known.lookup path = some content → content = read path

theorem lookup_map_read (read : Reader) (paths : List String) (path : String) :
    (paths.map fun p => (p, read p)).lookup path = if path ∈ paths then some (read path) else none := by
  induction paths with
  | nil => rfl
  | cons p rest ih =>
    rw [List.map_cons, List.lookup_cons, ih]
    by_cases h : path = p
    · simp [h]
    · have hne : (path == p) = false := by simpa using h
      simp only [hne, List.mem_cons, h, false_or]

section
variable {read : Reader} {args : Arguments} {known : Known} (h : Faithful read known)

include h

theorem lookUp_eq_read {path : String} (hpath : (known.lookup path).isSome = true) : lookUp known path = read path := by
  obtain ⟨content, hcontent⟩ := Option.isSome_iff_exists.mp hpath
  rw [lookUp, hcontent, h path content hcontent]
  rfl

theorem Faithful.round : Faithful read (readRound read args known) := by
  intro path content hcontent
  rw [readRound, List.lookup_append, lookup_map_read, Option.or_eq_some_iff] at hcontent
  rcases hcontent with hold | ⟨-, hnew⟩
  · exact h path content hold
  · split at hnew
    · exact (Option.some.inj hnew).symm
    · cases hnew

/-- After a round, all paths are known that were input paths before it. -/
theorem lookUp_round {path : String} (hpath : path ∈ inputPaths (lookUp known) args) :
    lookUp (readRound read args known) path = read path := by
  apply lookUp_eq_read h.round
  rw [readRound, List.lookup_append, lookup_map_read, Option.isSome_or]
  cases hold : known.lookup path with
  | some content => rfl
  | none => simp [List.mem_filter, hpath, hold]

end

/-- Three rounds are enough: what is known then is as good as all there is to read. -/
theorem lookUp_rounds (read : Reader) (args : Arguments) {path : String} (hpath : path ∈ inputPaths read args) :
    read path = lookUp (readRound read args (readRound read args (readRound read args []))) path := by
  have hnone : Faithful read [] := fun path content h => by cases h
  -- the configuration is known after the first round, and stays so
  have hfirst : ∀ path ∈ args.config, lookUp (readRound read args []) path = read path :=
    fun path hpath => lookUp_round hnone (mem_inputPaths_config hpath)
  have hsecond : ∀ path ∈ args.config, lookUp (readRound read args (readRound read args [])) path = read path :=
    fun path hpath => lookUp_round hnone.round (mem_inputPaths_config hpath)
  -- so the source is known after the second
  have hinput : ∀ config, configure (lookUp (readRound read args (readRound read args []))) args = .ok config →
      lookUp (readRound read args (readRound read args [])) args.input = read args.input := by
    intro config hconfig
    rw [configure_congr hsecond, ← configure_congr hfirst] at hconfig
    exact lookUp_round hnone.round (mem_inputPaths_input hconfig)
  rw [← inputPaths_congr hsecond hinput] at hpath
  exact (lookUp_round hnone.round.round hpath).symm

/-! ## Runs over given files -/

section
variable {home : List String} (files : Files home) (args : Arguments)

/-- What a run over some files has from outside. -/
def surroundings (draw : Nat → String) : Surroundings := ⟨files.readText, noDownload, draw⟩

theorem mapM_read_run (paths : List String) :
    (paths.mapM fun path => do return (path, ← (filesSystem home).read path) : StateM (Files home) Known).run files =
      (paths.map fun path => (path, files.readText path), files) := by
  induction paths with
  | nil => rfl
  | cons path rest ih =>
    rw [List.mapM_cons, StateT.run_bind]
    show StateT.run (rest.mapM _ >>= fun more => pure ((path, files.readText path) :: more)) files = _
    rw [StateT.run_bind, ih]
    rfl

theorem readInputs_run (known : Known) :
    (readInputs (filesSystem home) args known).run files = (readRound files.readText args known, files) := by
  unfold readInputs
  rw [StateT.run_bind, mapM_read_run]
  rfl

/-- A run over some files ends as if they had all been read before. -/
theorem run_eq_deliver (draw : Nat → String) : (run (filesSystem home) draw args).run files =
    (deliver (filesSystem home) args (prepare (surroundings files draw) args)).run files := by
  have hprepare := prepare_congr (surroundings files draw) args fun path hpath =>
    lookUp_rounds files.readText args hpath
  unfold run
  simp only [StateT.run_bind, readInputs_run, hprepare]
  rfl

section
variable {args} (e : Emitted)

theorem deliver_shown (h : args.output = none) : (deliver (filesSystem home) args (.ok e)).run files =
    (⟨0, asLine e.text, warningLines args e⟩, files) := by
  simp only [deliver, h]
  rfl

variable {path : String} (h : args.output = some path)

include h

theorem deliver_written {after : Files home} (hwrite : files.write path (asLine e.text).toUTF8 = .ok after) :
    (deliver (filesSystem home) args (.ok e)).run files = (⟨0, "", warningLines args e⟩, after) := by
  have hsystem : ((filesSystem home).write path (asLine e.text)).run files = (.ok (), after) := by
    simp only [filesSystem, StateT.run_bind, StateT.run_get, pure_bind, hwrite]
    rfl
  simp only [deliver, h, StateT.run_bind, hsystem]
  rfl

theorem deliver_unwritten {error : FileError} (hwrite : files.write path (asLine e.text).toUTF8 = .error error) :
    (deliver (filesSystem home) args (.ok e)).run files =
      (⟨1, "", warningLines args e ++ asLine (Failure.unwritable error).message⟩, files) := by
  have hsystem : ((filesSystem home).write path (asLine e.text)).run files = (.error error, files) := by
    simp only [filesSystem, StateT.run_bind, StateT.run_get, pure_bind, hwrite]
    rfl
  simp only [deliver, h, StateT.run_bind, hsystem]
  rfl

end

end

end AliasLang.Tool
