/-
What a run of the tool leaves behind. Whether a run comes to a result can be told from the configuration, the source and
each alias by itself; if it does not, nothing is written anywhere, whatever was already compiled. If it does, the whole
result goes to the one place that the arguments name, and every other file stays as it was, also where the result
replaces the source it was made from.
-/
import AliasLang.Proofs.Command.Success
import AliasLang.Proofs.Files
import AliasLang.Proofs.Program.Outcome
import AliasLang.Proofs.Token.Lexeme
import AliasLang.Proofs.Tool.Reading

namespace AliasLang

/-! ## Aliases by themselves -/

namespace Command

variable (co : Collaborators) (settings : Settings)

/-- The alias compiles on its own. -/
def Compiles (a : Program.Alias) : Prop := (run (compileAlias co settings a)).1.isOk = true

/-- What was compiled before an alias does not matter for it. -/
theorem compileAlias_decides_alone (a : Program.Alias) :
    Decides (compileAlias co settings a) (Compiles co settings a) fun _ => True :=
  (compileAlias_decides co settings a).congr ((compileAlias_decides co settings a).isOk_iff {}).symm

theorem mapM_compileAlias_decides (aliases : List Program.Alias) :
    Decides (aliases.mapM (compileAlias co settings)) (∀ a ∈ aliases, Compiles co settings a) fun _ => True := by
  induction aliases with
  | nil => exact .pure (by simp) trivial
  | cons a rest ih =>
    rw [List.mapM_cons]
    refine ((compileAlias_decides_alone co settings a).bind fun out _ => ?_).congr List.forall_mem_cons.symm
    exact ih.bind_pure fun _ _ => trivial

theorem checked_decides {α : Type} (r : Except SemanticError α) :
    Decides (checked r) (r.isOk = true) fun a => r = .ok a := by
  cases r with
  | error e => exact .throw (by simp [Except.isOk, Except.toBool])
  | ok a => exact .pure rfl rfl

end Command

namespace Tool

open Program (bind_eq_ok)
open Command (Compiles)

/-- The aliases that a run compiles: all of them, or the entry. -/
def chosenAliases (args : Arguments) (p : Program) : Except SemanticError (List Program.Alias) :=
  if args.all then p.check.map fun _ => p.aliases else p.selectEntry.map fun a => [a]

theorem isOk_iff {ε α : Type} {r : Except ε α} : r.isOk = true ↔ ∃ a, r = .ok a := by
  cases r <;> simp [Except.isOk, Except.toBool]

theorem mapError_eq_ok {ε ε' α : Type} {r : Except ε α} {f : ε → ε'} {a : α} : r.mapError f = .ok a ↔ r = .ok a := by
  cases r <;> simp [Except.mapError]

section

variable (co : Command.Collaborators) (settings : Settings)

theorem compileAll_ok_iff {p : Program} : (∃ outs, (Command.run (Command.compileAll co settings p)).1 = .ok outs) ↔
    (∃ entry, p.check = .ok entry) ∧ ∀ a ∈ p.aliases, Compiles co settings a := by
  have hdecides := (Command.checked_decides p.check).bind fun _ _ =>
    Command.mapM_compileAlias_decides co settings p.aliases
  rw [← isOk_iff, ← isOk_iff]
  exact hdecides.isOk_iff {}

theorem compileEntry_ok_iff {p : Program} : (∃ out, (Command.run (Command.compileEntry co settings p)).1 = .ok out) ↔
    ∃ a, p.selectEntry = .ok a ∧ Compiles co settings a := by
  unfold Command.compileEntry
  cases p.selectEntry with
  | error e =>
    refine iff_of_false ?_ (by simp)
    rintro ⟨out, h⟩
    cases h
  | ok a =>
    rw [← isOk_iff]
    simp only [Except.ok.injEq, exists_eq_left']
    exact Iff.rfl

end

/-- A source compiles if and only if each chosen alias does. -/
theorem compileText_ok_iff {s : Surroundings} {args : Arguments} {config : Config} {source : String} {p : Program}
    (hp : Program.parse source = .ok p) : (∃ outs, compileText s args config source = .ok outs) ↔
      ∃ aliases, chosenAliases args p = .ok aliases ∧
        ∀ a ∈ aliases, Compiles (collaborators s config) config.settings a := by
  unfold compileText chosenAliases
  rw [hp]
  by_cases hall : args.all = true
  · simp only [hall, if_true, Program.ok_bind, compileAll_ok_iff]
    constructor
    · rintro ⟨⟨entry, hentry⟩, haliases⟩
      exact ⟨p.aliases, by rw [hentry]; rfl, haliases⟩
    · rintro ⟨aliases, hchosen, haliases⟩
      obtain ⟨entry, hentry, rfl⟩ := Token.map_eq_ok hchosen
      exact ⟨⟨entry, hentry⟩, haliases⟩
  · simp only [hall, Program.ok_bind]
    constructor
    · rintro ⟨outs, h⟩
      obtain ⟨out, hout, -⟩ := bind_eq_ok.mp h
      obtain ⟨a, ha, hcompiles⟩ := (compileEntry_ok_iff _ _).mp ⟨out, hout⟩
      exact ⟨[a], by rw [ha]; rfl, by simpa using hcompiles⟩
    · rintro ⟨aliases, hchosen, haliases⟩
      obtain ⟨a, ha, rfl⟩ := Token.map_eq_ok hchosen
      obtain ⟨out, hout⟩ := (compileEntry_ok_iff _ _).mpr ⟨a, ha, haliases a (List.mem_singleton_self a)⟩
      exact ⟨[out], bind_eq_ok.mpr ⟨out, hout, rfl⟩⟩

/-! ## Why there is no result -/

/-- The configuration before the arguments are put over it: the default one, or that of a file. -/
inductive Loads (read : String → Except FileError String) : Option String → Config → Prop where
  | default : Loads read none {}
  | file {path text : String} {config : Config} (hread : read path = .ok text) (h : Config.ofText? text = some config) :
    Loads read (some path) config

/-- What keeps a run from its result, from the configuration to the aliases. -/
inductive Fault (s : Surroundings) (args : Arguments) : Prop where
  | configUnreadable {path : String} {e : FileError} (hpath : args.config = some path) (h : s.read path = .error e)
  | configMalformed {path text : String} (hpath : args.config = some path) (hread : s.read path = .ok text)
    (h : Config.ofText? text = none)
  | configInvalid {config : Config} {e : ConfigError} (hconfig : Loads s.read args.config config)
    (h : config.validate = .error e)
  /-- The arguments have put an invalid value over the configuration. -/
  | argumentsInvalid {config : Config} {e : ConfigError} (hconfig : Loads s.read args.config config)
    (h : (args.apply config).validate = .error e)
  | inputUnreadable {e : FileError} (h : s.read args.input = .error e)
  | unparsed {source : String} {e : Error} (hread : s.read args.input = .ok source)
    (h : Program.parse source = .error e)
  /-- A name is defined twice, or there is no entry to compile. -/
  | unchosen {source : String} {p : Program} {e : SemanticError} (hemit : args.emit = .command)
    (hread : s.read args.input = .ok source) (hparse : Program.parse source = .ok p)
    (h : chosenAliases args p = .error e)
  /-- One of the aliases does not compile, wherever it stands among them. -/
  | uncompiled {config : Config} {source : String} {p : Program} {aliases : List Program.Alias} {a : Program.Alias}
    (hemit : args.emit = .command) (hconfig : Loads s.read args.config config) (hread : s.read args.input = .ok source)
    (hparse : Program.parse source = .ok p) (hchosen : chosenAliases args p = .ok aliases) (ha : a ∈ aliases)
    (h : ¬ Compiles (collaborators s (args.apply config)) (args.apply config).settings a)

theorem Loads.unique {read : String → Except FileError String} {path : Option String} {a b : Config}
    (ha : Loads read path a) (hb : Loads read path b) : a = b := by
  cases ha with
  | default =>
    cases hb
    rfl
  | file hread h =>
    cases hb with
    | file hread' h' =>
      cases hread.symm.trans hread'
      exact Option.some.inj (h.symm.trans h')

theorem validated_eq_ok {loaded config : Config} :
    (do loaded.validate; return loaded) = Except.ok config ↔ loaded = config ∧ loaded.validate = .ok () := by
  rw [bind_eq_ok]
  constructor
  · rintro ⟨u, hvalid, h⟩
    exact ⟨Except.ok.inj h, hvalid⟩
  · rintro ⟨rfl, hvalid⟩
    exact ⟨(), hvalid, rfl⟩

theorem load_eq_ok {read : String → Except FileError String} {path : Option String} {config : Config} :
    Config.load read path = .ok config ↔ Loads read path config ∧ config.validate = .ok () := by
  unfold Config.load
  constructor
  · intro h
    dsimp only at h
    split at h
    · rw [Program.ok_bind] at h
      obtain ⟨rfl, hvalid⟩ := validated_eq_ok.mp h
      exact ⟨.default, hvalid⟩
    · split at h
      · cases h
      · rename_i text hread
        obtain ⟨loaded, hloaded, h⟩ := bind_eq_ok.mp h
        obtain ⟨rfl, hvalid⟩ := validated_eq_ok.mp h
        refine ⟨.file hread ?_, hvalid⟩
        cases htext : Config.ofText? text with
        | none =>
          rw [htext] at hloaded
          cases hloaded
        | some c =>
          rw [htext] at hloaded
          cases hloaded
          rfl
  · rintro ⟨hloads, hvalid⟩
    cases hloads with
    | default => exact validated_eq_ok.mpr ⟨rfl, hvalid⟩
    | file hread h =>
      simp only [hread, h, Option.elim]
      exact validated_eq_ok.mpr ⟨rfl, hvalid⟩

theorem configure_eq_ok {read : String → Except FileError String} {args : Arguments} {c : Config} :
    configure read args = .ok c ↔ ∃ config, Loads read args.config config ∧ config.validate = .ok () ∧
      (args.apply config).validate = .ok () ∧ c = args.apply config := by
  unfold configure
  constructor
  · intro h
    obtain ⟨config, hload, h⟩ := bind_eq_ok.mp h
    obtain ⟨hconfig, hvalid⟩ := load_eq_ok.mp (mapError_eq_ok.mp hload)
    obtain ⟨u, happlied, h⟩ := bind_eq_ok.mp h
    cases h
    exact ⟨config, hconfig, hvalid, mapError_eq_ok.mp happlied, rfl⟩
  · rintro ⟨config, hconfig, hvalid, happlied, rfl⟩
    refine bind_eq_ok.mpr ⟨config, mapError_eq_ok.mpr (load_eq_ok.mpr ⟨hconfig, hvalid⟩), ?_⟩
    exact bind_eq_ok.mpr ⟨(), mapError_eq_ok.mpr happlied, rfl⟩

theorem prepare_eq_ok {s : Surroundings} {args : Arguments} {e : Emitted} :
    prepare s args = .ok e ↔ ∃ config source, configure s.read args = .ok config ∧ s.read args.input = .ok source ∧
      emit s args config source = .ok e := by
  unfold prepare
  simp only [bind_eq_ok, mapError_eq_ok, exists_and_left]

/-- Only for commands more is needed than that the source parses. -/
theorem emit_ok_iff {s : Surroundings} {args : Arguments} {config : Config} {source : String} {p : Program}
    (hp : Program.parse source = .ok p) : (∃ e, emit s args config source = .ok e) ↔
      (args.emit = .command → ∃ outs, compileText s args config source = .ok outs) := by
  unfold emit
  cases args.emit with
  | ast | format => simp [hp, Program.format, Except.map, pure, Except.pure, bind, Except.bind]
  | command =>
    constructor
    · rintro ⟨e, he⟩ -
      obtain ⟨outs, houts, -⟩ := bind_eq_ok.mp he
      exact ⟨outs, houts⟩
    · intro h
      obtain ⟨outs, houts⟩ := h rfl
      exact ⟨_, bind_eq_ok.mpr ⟨outs, houts, rfl⟩⟩

theorem parse_of_emit {s : Surroundings} {args : Arguments} {config : Config} {source : String} {e : Emitted}
    (h : emit s args config source = .ok e) : ∃ p, Program.parse source = .ok p := by
  cases hp : Program.parse source with
  | ok p => exact ⟨p, rfl⟩
  | error err =>
    unfold emit at h
    cases hemit : args.emit <;> simp [hemit, hp, Program.format, Except.map, compileText, bind, Except.bind] at h

/-- A run comes to a result unless something keeps it from that. -/
theorem prepare_ok_iff {s : Surroundings} {args : Arguments} : (∃ e, prepare s args = .ok e) ↔ ¬ Fault s args := by
  constructor
  · rintro ⟨e, he⟩ fault
    obtain ⟨c, source, hc, hread, hemit⟩ := prepare_eq_ok.mp he
    obtain ⟨config, hconfig, hvalid, happlied, rfl⟩ := configure_eq_ok.mp hc
    obtain ⟨p, hp⟩ := parse_of_emit hemit
    have hchosen : args.emit = .command → ∃ aliases, chosenAliases args p = .ok aliases ∧
        ∀ a ∈ aliases, Compiles (collaborators s (args.apply config)) (args.apply config).settings a :=
      fun hcommand => (compileText_ok_iff hp).mp ((emit_ok_iff hp).mp ⟨e, hemit⟩ hcommand)
    cases fault with
    | configUnreadable hpath h =>
      rw [hpath] at hconfig
      cases hconfig with
      | file hread htext => cases h.symm.trans hread
    | configMalformed hpath hread h =>
      rw [hpath] at hconfig
      cases hconfig with
      | file hread' htext =>
        cases hread.symm.trans hread'
        cases h.symm.trans htext
    | configInvalid hconfig' h =>
      cases hconfig.unique hconfig'
      cases h.symm.trans hvalid
    | argumentsInvalid hconfig' h =>
      cases hconfig.unique hconfig'
      cases h.symm.trans happlied
    | inputUnreadable h => cases h.symm.trans hread
    | unparsed hread' h =>
      cases hread.symm.trans hread'
      cases h.symm.trans hp
    | unchosen hcommand hread' hparse h =>
      cases hread.symm.trans hread'
      cases hp.symm.trans hparse
      obtain ⟨aliases, haliases, -⟩ := hchosen hcommand
      cases h.symm.trans haliases
    | uncompiled hcommand hconfig' hread' hparse hchosen' ha h =>
      cases hconfig.unique hconfig'
      cases hread.symm.trans hread'
      cases hp.symm.trans hparse
      obtain ⟨aliases, haliases, hcompiles⟩ := hchosen hcommand
      cases hchosen'.symm.trans haliases
      exact h (hcompiles _ ha)
  · intro hfault
    obtain ⟨config, hconfig⟩ : ∃ config, Loads s.read args.config config := by
      cases hpath : args.config with
      | none => exact ⟨{}, .default⟩
      | some path =>
        cases hread : s.read path with
        | error e => exact absurd (.configUnreadable hpath hread) hfault
        | ok text =>
          cases htext : Config.ofText? text with
          | none => exact absurd (.configMalformed hpath hread htext) hfault
          | some config => exact ⟨config, .file hread htext⟩
    have hvalid : config.validate = .ok () := by
      cases h : config.validate with
      | error e => exact absurd (.configInvalid hconfig h) hfault
      | ok u => rfl
    have happlied : (args.apply config).validate = .ok () := by
      cases h : (args.apply config).validate with
      | error e => exact absurd (.argumentsInvalid hconfig h) hfault
      | ok u => rfl
    obtain ⟨source, hread⟩ : ∃ source, s.read args.input = .ok source := by
      cases h : s.read args.input with
      | error e => exact absurd (.inputUnreadable h) hfault
      | ok source => exact ⟨source, rfl⟩
    obtain ⟨p, hp⟩ : ∃ p, Program.parse source = .ok p := by
      cases h : Program.parse source with
      | error e => exact absurd (.unparsed hread h) hfault
      | ok p => exact ⟨p, rfl⟩
    have hemit : ∃ e, emit s args (args.apply config) source = .ok e := by
      refine (emit_ok_iff hp).mpr fun hcommand => (compileText_ok_iff hp).mpr ?_
      cases hchosen : chosenAliases args p with
      | error e => exact absurd (.unchosen hcommand hread hp hchosen) hfault
      | ok aliases =>
        refine ⟨aliases, rfl, fun a ha => ?_⟩
        by_contra h
        exact hfault (.uncompiled hcommand hconfig hread hp hchosen ha h)
    obtain ⟨e, he⟩ := hemit
    exact ⟨e, prepare_eq_ok.mpr ⟨_, source, configure_eq_ok.mpr ⟨config, hconfig, hvalid, happlied, rfl⟩, hread, he⟩⟩

/-! ## What is left behind -/

section
variable {home : List String}

/-- Where the result goes: to standard output, or into the file at the path and nowhere else. -/
def Delivers (files : Files home) (text : String) : Option String → Outcome × Files home → Prop
  | none, (outcome, after) => outcome.stdout = text ∧ after = files
  | some path, (outcome, after) =>
    outcome.stdout = "" ∧ Files.Wrote files after path text.toUTF8 ∧ after.readText path = .ok text

/-- The output can be written, if there is one: its path leads to a place that is no directory, and does not end with a
slash. -/
def OutputFree (files : Files home) (args : Arguments) : Prop :=
  ∀ path, args.output = some path → (Files.namesOf path).getLast? ≠ some "" ∧
    ∃ names, files.locate path = .ok names ∧ files.isDirectory names = false

theorem write_ok_iff (files : Files home) (path : String) (content : ByteArray) :
    (∃ after, files.write path content = .ok after) ↔ (Files.namesOf path).getLast? ≠ some "" ∧
      ∃ names, files.locate path = .ok names ∧ files.isDirectory names = false := by
  simp only [← exists_and_left, ← Files.target_eq_ok_iff]
  constructor
  · rintro ⟨after, h⟩
    obtain ⟨names, hnames, -⟩ := bind_eq_ok.mp h
    exact ⟨names, hnames⟩
  · rintro ⟨names, hnames⟩
    exact ⟨files.put names content, bind_eq_ok.mpr ⟨names, hnames, rfl⟩⟩

/-- A run fails without a trace, or it delivers its whole result. -/
theorem run_cases (files : Files home) (draw : Nat → String) (args : Arguments) :
    (∃ stderr, (run (filesSystem home) draw args).run files = (⟨1, "", stderr⟩, files) ∧
      ¬ (¬ Fault (surroundings files draw) args ∧ OutputFree files args)) ∨
    ∃ e outcome after, (run (filesSystem home) draw args).run files = (outcome, after) ∧ outcome.exit = 0 ∧
      prepare (surroundings files draw) args = .ok e ∧ OutputFree files args ∧
        Delivers files (e.text ++ "\n") args.output (outcome, after) := by
  rw [run_eq_deliver]
  cases hresult : prepare (surroundings files draw) args with
  | error failure =>
    refine .inl ⟨_, rfl, fun h => ?_⟩
    obtain ⟨e, he⟩ := prepare_ok_iff.mpr h.1
    cases hresult.symm.trans he
  | ok e =>
    cases houtput : args.output with
    | none =>
      refine .inr ⟨e, _, _, deliver_shown files e houtput, rfl, rfl, fun path hpath => ?_, rfl, rfl⟩
      cases houtput.symm.trans hpath
    | some path =>
      have hfree := write_ok_iff files path (asLine e.text).toUTF8
      cases hwrite : files.write path (asLine e.text).toUTF8 with
      | error err =>
        refine .inl ⟨_, deliver_unwritten files e houtput hwrite, fun h => ?_⟩
        obtain ⟨after, hafter⟩ := hfree.mpr (h.2 path houtput)
        cases hwrite.symm.trans hafter
      | ok after =>
        have hwrote := Files.wrote_of_write hwrite
        refine .inr ⟨e, _, _, deliver_written files e houtput hwrite, rfl, rfl, fun path' hpath' => ?_, rfl, hwrote,
          Files.readText_of_read hwrote.readBack⟩
        cases houtput.symm.trans hpath'
        exact hfree.mp ⟨after, hwrite⟩

/-- **A run leaves its whole result in one place, or nothing at all.** A run that fails writes nothing to standard
output and changes no file. With arguments in order, it succeeds if and only if there is no fault in the configuration,
the source and any of the aliases, and the output can be written; then the result, and a line break, is what standard
output shows, or what the output file holds, and no other file differs. Without such arguments no file differs. -/
theorem run_delivers_everything_or_nothing (files : Files home) (draw : Nat → String) (environment : Option String)
    (words : List String) :
    let answer := invoke files draw environment words
    (answer.1.exit ≠ 0 → answer.1.stdout = "" ∧ answer.2 = files) ∧
    match Arguments.ofWords environment words with
    | .error _ => answer.2 = files
    | .ok args =>
      (answer.1.exit = 0 ↔ ¬ Fault (surroundings files draw) args ∧ OutputFree files args) ∧
      (answer.1.exit = 0 → ∃ e, prepare (surroundings files draw) args = .ok e ∧
        Delivers files (e.text ++ "\n") args.output answer) := by
  intro answer
  cases hwords : Arguments.ofWords environment words with
  | error halt =>
    have hanswer : answer = (halt.outcome, files) := by
      show invoke files draw environment words = _
      unfold invoke runWords
      rw [hwords]
      rfl
    rw [hanswer]
    refine ⟨fun hexit => ⟨?_, rfl⟩, rfl⟩
    cases halt with
    | usage e => rfl
    | version | help => exact absurd rfl hexit
  | ok args =>
    have hanswer : answer = (run (filesSystem home) draw args).run files := by
      show invoke files draw environment words = _
      unfold invoke runWords
      rw [hwords]
    rw [hanswer]
    rcases run_cases files draw args with ⟨stderr, hrun, hfails⟩ | ⟨e, outcome, after, hrun, hexit, he, hfree, hdelivers⟩
    · rw [hrun]
      exact ⟨fun _ => ⟨rfl, rfl⟩, iff_of_false Nat.one_ne_zero hfails, fun h => absurd h Nat.one_ne_zero⟩
    · rw [hrun]
      exact ⟨fun h => absurd hexit h, iff_of_true hexit ⟨prepare_ok_iff.mp ⟨e, he⟩, hfree⟩, fun _ => ⟨e, he, hdelivers⟩⟩

end

/-- A source in the working directory, and a directory outside it. -/
def sourceFiles : Files ["home"] := ⟨[(["home", "in.adl"], "entry  aa # main".toUTF8)], [["tmp"]]⟩

/-- The source is read through the directory above, and its layout is written to a path from the root. -/
theorem layout_written_outside :
    let answer := invoke sourceFiles (fun _ => "") none ["../home/in.adl", "--emit", "format", "-o", "/tmp/out.adl"]
    answer.1.exit = 0 ∧ answer.1.stdout = "" ∧ answer.2.readText "/tmp/out.adl" = .ok "entry aa\n\n" ∧
      ∀ names, names ≠ ["tmp", "out.adl"] → answer.2.file? names = sourceFiles.file? names := by
  intro answer
  have hread : sourceFiles.readText "../home/in.adl" = .ok "entry  aa # main" := Files.readText_of_read rfl
  have hformat : Program.format "entry  aa # main" = .ok "entry aa\n" := Files.eq_ok_of_toOption (by decide +kernel)
  have hplace : sourceFiles.locate "/tmp/out.adl" = .ok ["tmp", "out.adl"] := rfl
  have hwords : Arguments.ofWords none ["../home/in.adl", "--emit", "format", "-o", "/tmp/out.adl"] = .ok
      ⟨"../home/in.adl", none, some "/tmp/out.adl", false, .format, none, none, false, false, false, none⟩ := rfl
  have hrun := (run_delivers_everything_or_nothing sourceFiles (fun _ => "") none
    ["../home/in.adl", "--emit", "format", "-o", "/tmp/out.adl"]).2
  rw [hwords] at hrun
  obtain ⟨hsucceeds, hdelivers⟩ := hrun
  have hprepare : prepare (surroundings sourceFiles fun _ => "")
      ⟨"../home/in.adl", none, some "/tmp/out.adl", false, .format, none, none, false, false, false, none⟩ =
        .ok ⟨"entry aa\n", []⟩ :=
    prepare_eq_ok.mpr ⟨_, _, rfl, hread, by simp only [emit, hformat]; rfl⟩
  have hexit : answer.1.exit = 0 := by
    refine hsucceeds.mpr ⟨prepare_ok_iff.mp ⟨_, hprepare⟩, fun path hpath => ?_⟩
    cases hpath
    exact ⟨by decide, _, hplace, by decide⟩
  obtain ⟨e, he, hstdout, hwrote, hback⟩ := hdelivers hexit
  cases hprepare.symm.trans he
  obtain ⟨names, hnames, hfiles⟩ := hwrote.file
  cases hplace.symm.trans hnames
  exact ⟨hexit, hstdout, hback, fun other hother => (hfiles other).trans (if_neg hother)⟩

end Tool
end AliasLang
