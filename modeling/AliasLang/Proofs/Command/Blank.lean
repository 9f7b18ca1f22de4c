/-
Commands without text. A body that gives no command is refused, but what is looked at is the number of commands and not
their text. Whatever the compiler writes itself has text: script commands, what is said, calls, the barriers between
actions and the deletion of keys. Only a command that a program lists can be empty. So the commands of a body are all
empty if and only if it does nothing but list empty commands, in a single one of its actions.
-/
import AliasLang.Proofs.Command.Throughout
import AliasLang.Proofs.Command.Units

namespace AliasLang.Program

/-! ## Parts without text -/

/-- The commands that a simple action lists. -/
def Simple.listed : Simple → List String
  | .commands l => l.commands
  | .script _ | .say _ _ | .call _ => []

/-- Lists empty commands, or says nothing. -/
def Simple.isBlank : Simple → Bool
  | .commands l => l.commands.all (· = "")
  | .say none _ => true
  | .script _ | .say (some _) _ | .call _ => false

def Step.listed : Step → List String
  | .action a => a.listed
  | .store _ => []

def Step.isBlank : Step → Bool
  | .action a => a.isBlank
  | .store _ => false

def Action.listed : Action → List String
  | .execute e => e.action.listed ++ e.chain.flatMap (·.step.listed)
  | .compiled _ _ _ _ => []

def Action.isBlank : Action → Bool
  | .execute e => e.retrieve.isNone && (e.action.isBlank && e.chain.all (·.step.isBlank))
  | .compiled _ _ _ _ => false

/-- All actions of the body are blank, and a single one of them gives commands. -/
structure BlankBody (actions : List Action) : Prop where
  blank : ∀ a ∈ actions, a.isBlank = true
  single : actions.countP Action.contributes = 1

instance (actions : List Action) : Decidable (BlankBody actions) :=
  decidable_of_iff ((actions.all Action.isBlank && actions.countP Action.contributes == 1) = true) <| by
    rw [Bool.and_eq_true, List.all_eq_true, beq_iff_eq]
    exact ⟨fun h => ⟨h.1, h.2⟩, fun h => ⟨h.1, h.2⟩⟩

end AliasLang.Program

namespace AliasLang.Command

open Program

/-! ## Text of generated commands -/

theorem append_ne_empty {a : String} (h : a ≠ "") (b : String) : a ++ b ≠ "" := by
  intro he
  exact h (String.append_eq_empty_iff.mp he).1

theorem scriptCommand_ne_empty (scope : Scope) (code : String) : scriptCommand scope code ≠ "" := by
  simp only [scriptCommand, String.append_assoc]
  exact append_ne_empty (by decide) _

theorem blockCommand_ne_empty (scope : Scope) (literal : String) (chain : List Link) :
    blockCommand scope literal chain ≠ "" := by
  unfold blockCommand
  split
  · exact scriptCommand_ne_empty scope _
  · exact scriptCommand_ne_empty scope _

/-- All commands are empty if and only if `b` is true. -/
abbrev BlankAs (b : Bool) : Fragment → Prop := Throughout (· = "") (b = true)

theorem blankAs_text {f : Fragment} {c : String} (hf : f.commands = [c]) (h : c ≠ "") : BlankAs false f :=
  throughout_single hf (iff_of_false h Bool.false_ne_true)

/-! ## Actions -/

section
variable (co : Collaborators) (scope : Scope)

theorem compileScript_blank (a : ScriptAction) : Meets (compileScript co scope a) (BlankAs false) := by
  unfold compileScript
  refine .bind (importedText_meets co a) fun imported _ => ?_
  refine .bind (transform_meets co _ _) fun answer _ => ?_
  split
  · exact .throw rfl
  · split
    · exact .throw rfl
    · exact .pure (blankAs_text rfl (scriptCommand_ne_empty scope _))

theorem compileSimple_blank (a : Simple) : Meets (compileSimple co scope a) (BlankAs a.isBlank) := by
  cases a with
  | script s => exact compileScript_blank co scope s
  | commands l =>
    refine .pure (Iff.trans ?_ List.all_eq_true.symm)
    simp only [decide_eq_true_eq]
    rfl
  | say literal span =>
    cases literal with
    | none => exact .pure (throughout_nil rfl rfl)
    | some text => exact .pure (blankAs_text rfl (append_ne_empty (by decide) text))
  | call c =>
    obtain ⟨user, target, span⟩ := c
    cases user with
    | none => exact .pure (blankAs_text rfl (append_ne_empty (by decide) target))
    | some user =>
      refine .pure (blankAs_text rfl (append_ne_empty (append_ne_empty (append_ne_empty ?_ user) " ") target))
      decide

theorem compileStep_blank (s : Step) : Meets (compileStep co scope s) (BlankAs s.isBlank) := by
  cases s with
  | store s =>
    exact compileStore_throughout co scope (iff_of_false (scriptCommand_ne_empty scope _) Bool.false_ne_true)
  | action a => exact compileSimple_blank co scope a

theorem compileRetrieve_blank (r : Retrieve) : Meets (compileRetrieve scope r) (BlankAs false) := by
  cases r with
  | key key isLocal span => exact .pure (blankAs_text rfl (scriptCommand_ne_empty scope _))
  | argument literal span =>
    exact .ite (fun _ => .throw rfl) fun _ => .pure (blankAs_text rfl (append_ne_empty (by decide) literal.raw))

theorem compileExecute_blank (e : Execute) :
    Meets (compileExecute co scope e) (BlankAs (Action.execute e).isBlank) := by
  have hparts := compileExecute_throughout co scope (e := e) (fun r _ => compileRetrieve_blank scope r)
    (compileSimple_blank co scope e.action) (fun l _ => compileStep_blank co scope l.step)
  refine hparts.imp fun f hf => hf.congr ?_
  have hretrieve : (∀ r, e.retrieve = some r → false = true) ↔ e.retrieve.isNone = true := by
    cases e.retrieve <;> simp
  rw [hretrieve, Action.isBlank, Bool.and_eq_true, Bool.and_eq_true, List.all_eq_true]

/-- The command of a block has text, so a block is never blank. -/
theorem compileAction_blank {a : Action} {t t' : Trace} {f : Fragment}
    (h : runFrom (compileAction co scope a) t = (.ok f, t')) : BlankAs a.isBlank f := by
  cases a with
  | execute e =>
    rw [compileAction] at h
    exact (compileExecute_blank co scope e).ok h
  | compiled actions bodySpan chain span =>
    obtain ⟨inner, pipeline, -, hblock⟩ := compileAction_compiled_ok h
    obtain ⟨rest, -, -, -, hcommands, -⟩ := hblock.commands_eq
    have hmem : blockCommand scope (Quoting.embedded pipeline) chain ∈ f.commands := by
      rw [hcommands, ← blockCommand_eq]
      exact List.mem_cons_self
    exact iff_of_false (fun hall => blockCommand_ne_empty scope _ chain (hall _ hmem)) Bool.false_ne_true

theorem compileActions_blank : ∀ {actions : List Action} {t t' : Trace} {fragments : List Fragment},
    runFrom (compileActions co scope actions) t = (.ok fragments, t') →
      List.Forall₂ (fun a f => BlankAs a.isBlank f) actions fragments
  | [], t, t', fragments, h => by
    rw [compileActions] at h
    cases h
    exact .nil
  | a :: rest, t, t', fragments, h => by
    obtain ⟨f, more, t₁, hf, hmore, rfl⟩ := compileActions_cons_ok.mp h
    exact .cons (compileAction_blank co scope hf) (compileActions_blank hmore)

end

/-! ## Bodies -/

/-- A barrier has text, so several parts with commands are never all empty. -/
theorem intercalate_barrier_empty_iff (parts : List (List String)) :
    (∀ c ∈ ["abb say", "null"].intercalate parts, c = "") ↔ parts.length ≤ 1 ∧ ∀ p ∈ parts, ∀ c ∈ p, c = "" := by
  match parts with
  | [] => simp
  | [p] => simp
  | p :: q :: rest =>
    refine iff_of_false (fun h => ?_) fun h => ?_
    · have hbarrier : "abb say" ∈ ["abb say", "null"].intercalate (p :: q :: rest) := by
        rw [List.intercalate_cons_cons]
        simp
      exact absurd (h _ hbarrier) (by decide)
    · simp at h

theorem joinAll_empty_iff (fragments : List Fragment) :
    (∀ c ∈ (Fragment.joinAll fragments).commands, c = "") ↔
      fragments.countP (!·.isEmpty) ≤ 1 ∧ ∀ f ∈ fragments, ∀ c ∈ f.commands, c = "" := by
  rw [Fragment.joinAll_eq_spread]
  show (∀ c ∈ Fragment.separated fragments, c = "") ↔ _
  have hcount : ((fragments.map (·.commands)).filter (· ≠ [])).length = fragments.countP (!·.isEmpty) := by
    rw [← List.countP_eq_length_filter, List.countP_map]
    refine List.countP_congr fun f _ => ?_
    simp [Fragment.isEmpty]
  rw [Fragment.separated, intercalate_barrier_empty_iff, hcount]
  refine and_congr_right fun _ => ⟨fun h f hf c hc => ?_, fun h p hp => ?_⟩
  · exact h f.commands (by simpa using ⟨⟨f, hf, rfl⟩, List.ne_nil_of_mem hc⟩) c hc
  · obtain ⟨f, hf, rfl⟩ := List.mem_map.mp (List.mem_of_mem_filter hp)
    exact h f hf

theorem Matches.countP {actions : List Action} {fragments : List Fragment} (h : Matches actions fragments) :
    fragments.countP (!·.isEmpty) = actions.countP Action.contributes := by
  have hcount := congrArg (List.countP (!·)) h
  simpa only [List.countP_map, Function.comp_def, Bool.not_not] using hcount

theorem blank_of_empty {actions : List Action} {fragments : List Fragment}
    (h : List.Forall₂ (fun a f => BlankAs a.isBlank f) actions fragments)
    (hempty : ∀ f ∈ fragments, ∀ c ∈ f.commands, c = "") : ∀ a ∈ actions, a.isBlank = true := by
  induction h with
  | nil => simp
  | cons hhead _ ih =>
    rw [List.forall_mem_cons] at hempty ⊢
    exact ⟨hhead.mp hempty.1, ih hempty.2⟩

variable {co : Collaborators}

namespace BodyRun

theorem matches_fragments (r : BodyRun co) {fragments : List Fragment}
    (h : runFrom (compileActions co r.scope r.body.actions) r.before = (.ok fragments, r.after)) :
    Matches r.body.actions fragments := by
  have hdecides := compileActions_decides co r.scope r.body.actions r.before
  rw [h] at hdecides
  exact hdecides.2

theorem contributes (r : BodyRun co) : 0 < r.body.actions.countP Action.contributes := by
  have hactions := compileActions_decides co r.scope r.body.actions
  have hdecides := compileRoot_decides co r.scope r.body.span hactions r.before
  rw [r.runs] at hdecides
  exact List.countP_pos_iff.mpr hdecides.1.2.2

theorem blankBody_of_empty (r : BodyRun co) (h : ∀ c ∈ r.fragment.commands, c = "") : BlankBody r.body.actions := by
  obtain ⟨fragments, hfragments, hfragment⟩ := r.fragments_ok
  have hjoined : ∀ c ∈ (Fragment.joinAll fragments).commands, c = "" := by
    intro c hc
    apply h
    rw [hfragment]
    exact mem_discharge r.scope hc
  rw [joinAll_empty_iff, (r.matches_fragments hfragments).countP] at hjoined
  refine ⟨?_, Nat.le_antisymm hjoined.1 r.contributes⟩
  exact blank_of_empty (compileActions_blank co r.scope hfragments) hjoined.2

end BodyRun

/-! ## What blank bodies compile to -/

section
variable (co : Collaborators) (scope : Scope)

theorem compileSimple_listed {a : Simple} (h : a.isBlank = true) :
    compileSimple co scope a = pure (.ofCommands a.listed) := by
  cases a with
  | script | call => cases h
  | commands l => rfl
  | say literal span =>
    cases literal with
    | none => rfl
    | some text => cases h

theorem compileChain_listed : ∀ {links : List Link}, (∀ l ∈ links, l.step.isBlank = true) →
    compileChain co scope links = pure (.ofCommands (links.flatMap (·.step.listed)))
  | [], _ => rfl
  | ⟨.store s, span⟩ :: rest, h => nomatch (List.forall_mem_cons.mp h).1
  | ⟨.action a, span⟩ :: rest, h => by
    rw [List.forall_mem_cons] at h
    rw [compileChain, compileChain_listed h.2, compileStep, compileSimple_listed co scope h.1]
    rfl

/-- A blank action gives the commands it lists, and nothing else. -/
theorem compileAction_listed {a : Action} (h : a.isBlank = true) :
    compileAction co scope a = pure (.ofCommands a.listed) := by
  cases a with
  | compiled => cases h
  | execute e =>
    obtain ⟨retrieve, action, chain, span⟩ := e
    simp only [Action.isBlank, Bool.and_eq_true, List.all_eq_true, Option.isNone_iff_eq_none] at h
    obtain ⟨rfl, haction, hchain⟩ := h
    rw [compileAction, compileExecute, compileSimple_listed co scope haction, compileChain_listed co scope hchain]
    rfl

theorem compileActions_listed : ∀ {actions : List Action}, (∀ a ∈ actions, a.isBlank = true) →
    compileActions co scope actions = pure (actions.map fun a => .ofCommands a.listed)
  | [], _ => by
    rw [compileActions]
    rfl
  | a :: rest, h => by
    rw [List.forall_mem_cons] at h
    rw [compileActions, compileAction_listed co scope h.1, compileActions_listed h.2]
    rfl

end

theorem Simple.listed_of_blank {a : Simple} (h : a.isBlank = true) :
    (a.contributes = true ↔ a.listed ≠ []) ∧ ∀ c ∈ a.listed, c = "" := by
  cases a with
  | script | call => cases h
  | commands l =>
    refine ⟨by simp [Simple.contributes, Simple.listed], fun c hc => ?_⟩
    exact of_decide_eq_true (List.all_eq_true.mp h c hc)
  | say literal span =>
    cases literal with
    | none => simp [Simple.contributes, Simple.listed]
    | some text => cases h

/-- What a blank action lists is empty, and it gives a command if it lists one. -/
theorem Action.listed_of_blank {a : Action} (h : a.isBlank = true) :
    (a.contributes = true ↔ a.listed ≠ []) ∧ ∀ c ∈ a.listed, c = "" := by
  cases a with
  | compiled => cases h
  | execute e =>
    obtain ⟨retrieve, action, chain, span⟩ := e
    simp only [Action.isBlank, Bool.and_eq_true, List.all_eq_true, Option.isNone_iff_eq_none] at h
    obtain ⟨rfl, haction, hchain⟩ := h
    have hlinks : ∀ l ∈ chain, (l.step.contributes = true ↔ l.step.listed ≠ []) ∧ ∀ c ∈ l.step.listed, c = "" := by
      intro l hl
      have hl := hchain l hl
      cases hs : l.step with
      | store s =>
        rw [hs] at hl
        cases hl
      | action a =>
        rw [hs] at hl
        exact Simple.listed_of_blank hl
    have hsimple := Simple.listed_of_blank haction
    constructor
    · simp only [Action.contributes, Action.listed, Option.isSome_none, Bool.false_or, Bool.or_eq_true, hsimple.1,
        List.any_eq_true, ne_eq, List.append_eq_nil_iff, List.flatMap_eq_nil_iff, not_and_or, not_forall, exists_prop]
      exact or_congr_right (exists_congr fun l => and_congr_right fun hl => (hlinks l hl).1)
    · rw [Action.listed, List.forall_mem_append, List.forall_mem_flatMap]
      exact ⟨hsimple.2, fun l hl => (hlinks l hl).2⟩

/-- With a single part that has commands there is nothing to separate. -/
theorem intercalate_single {parts : List (List String)} (sep : List String) (h : (parts.filter (· ≠ [])).length = 1) :
    sep.intercalate (parts.filter (· ≠ [])) = parts.flatten := by
  have hflat : parts.flatten = (parts.filter (· ≠ [])).flatten := by
    clear h
    induction parts with
    | nil => rfl
    | cons p parts ih =>
      by_cases hp : p = []
      · simp [hp, ih]
      · simp [hp, ih]
  obtain ⟨p, hp⟩ := List.length_eq_one_iff.mp h
  rw [hflat, hp]
  simp

/-- A blank body compiles, whatever the collaborators do, and gives the commands it lists. -/
theorem compileRoot_listed (co : Collaborators) (scope : Scope) {body : Body} (h : BlankBody body.actions) (t : Trace) :
    runFrom (compileRoot co scope body) t = (.ok (.ofCommands (body.actions.flatMap Action.listed)), t) := by
  have hcount : ((body.actions.map Action.listed).filter (· ≠ [])).length = 1 := by
    rw [← h.single, ← List.countP_eq_length_filter, List.countP_map]
    refine List.countP_congr fun a ha => ?_
    simpa using (Action.listed_of_blank (h.blank a ha)).1.symm
  have hjoined : Fragment.joinAll (body.actions.map fun a => .ofCommands a.listed) =
      .ofCommands (body.actions.flatMap Action.listed) := by
    rw [Fragment.joinAll_eq_spread]
    refine Fragment.ext_toList ?_ ?_ ?_
    · show Fragment.separated _ = _
      have hparts : (body.actions.map fun a => Fragment.ofCommands a.listed).map (·.commands) =
          body.actions.map Action.listed := by simp [Fragment.ofCommands]
      rw [Fragment.separated, hparts, intercalate_single _ hcount]
      rfl
    · have hkeys : (body.actions.map fun a => Fragment.ofCommands a.listed).flatMap (·.tempKeys.toList) = [] := by
        simp [List.flatMap_eq_nil_iff, Fragment.ofCommands, Keys.empty]
      rw [Fragment.spread, hkeys]
      rfl
    · simp [Fragment.spread, Fragment.ofCommands]
  obtain ⟨a, ha, hcontributes⟩ : ∃ a ∈ body.actions, a.contributes = true := by
    rw [← List.countP_pos_iff, h.single]
    exact Nat.one_pos
  have hactions : ¬ body.actions.isEmpty = true := by
    rw [List.isEmpty_iff]
    exact List.ne_nil_of_mem ha
  have hlisted : ¬ (Fragment.ofCommands (body.actions.flatMap Action.listed)).isEmpty = true := by
    simp only [Fragment.isEmpty, Fragment.ofCommands, List.isEmpty_iff, List.flatMap_eq_nil_iff]
    exact fun hnone => (Action.listed_of_blank (h.blank a ha)).1.mp hcontributes (hnone a ha)
  rw [compileRoot, if_neg hactions, compileActions_listed co scope h.blank, pure_bind, compileBody, hjoined]
  dsimp only
  rw [if_neg hlisted]
  simp [discharge, Fragment.ofCommands, Keys.isEmpty, Keys.empty]

/-! ## Aliases without a command -/

theorem pipeline_ne_empty (marker : String) (commands : List String) : pipeline marker commands ≠ "" := by
  simp only [pipeline, String.append_assoc]
  exact append_ne_empty (by decide) _

/-- Only a single empty command is put together to nothing. -/
theorem assemble_eq_empty_iff {mode : DelimiterMode} {drawn : String} {commands : List String} :
    assemble mode drawn false commands = "" ↔ commands = [""] := by
  match commands with
  | [] => exact iff_of_false (pipeline_ne_empty _ _) (by simp)
  | [c] =>
    show c = "" ↔ _
    simp
  | c :: d :: rest => exact iff_of_false (pipeline_ne_empty _ _) (by simp)

namespace BodyRun

theorem commands_of_blankBody (r : BodyRun co) (h : BlankBody r.body.actions) :
    r.fragment.commands = r.body.actions.flatMap Action.listed := by
  have hruns := r.runs
  rw [compileRoot_listed co r.scope h] at hruns
  have hfragment : Fragment.ofCommands (r.body.actions.flatMap Action.listed) = r.fragment :=
    Except.ok.inj (Prod.mk.inj hruns).1
  rw [← hfragment]
  rfl

theorem commands_empty_iff (r : BodyRun co) : (∀ c ∈ r.fragment.commands, c = "") ↔ BlankBody r.body.actions := by
  refine ⟨r.blankBody_of_empty, fun h => ?_⟩
  rw [r.commands_of_blankBody h, List.forall_mem_flatMap]
  exact fun a ha => (Action.listed_of_blank (h.blank a ha)).2

theorem commands_eq_empty_iff (r : BodyRun co) :
    r.fragment.commands = [""] ↔ BlankBody r.body.actions ∧ r.body.actions.flatMap Action.listed = [""] := by
  constructor
  · intro h
    have hblank : BlankBody r.body.actions := r.blankBody_of_empty (by simp [h])
    exact ⟨hblank, (r.commands_of_blankBody hblank).symm.trans h⟩
  · rintro ⟨hblank, hlisted⟩
    exact (r.commands_of_blankBody hblank).trans hlisted

end BodyRun

/-- **Commands are all empty only in a blank body.** For every body that compiles, in whatever scope and with whatever
collaborators, one of its commands has text unless the body is blank. A blank body always compiles to the commands that
it lists. So an alias is given an empty command if and only if its body is blank and lists one command. -/
theorem command_has_text_iff_not_blank (co : Collaborators) :
    (∀ scope body t t' f, runFrom (compileRoot co scope body) t = (.ok f, t') →
      ((∃ c ∈ f.commands, c ≠ "") ↔ ¬ BlankBody body.actions)) ∧
    (∀ scope body t, BlankBody body.actions →
      runFrom (compileRoot co scope body) t = (.ok (.ofCommands (body.actions.flatMap Action.listed)), t)) ∧
    ∀ settings a t t' out, runFrom (compileAlias co settings a) t = (.ok out, t') →
      (out.command = s!"$alias {settings.verb.text} {a.name} " ↔
        BlankBody a.body.actions ∧ a.body.actions.flatMap Action.listed = [""]) := by
  refine ⟨fun scope body t t' f h => ?_, fun scope body t h => compileRoot_listed co scope h t,
    fun settings a t t' out h => ?_⟩
  · have hempty := BodyRun.commands_empty_iff ⟨scope, body, t, f, t', h⟩
    rw [← hempty]
    simp
  · obtain ⟨root, text, ⟨hscope, hbody, -⟩, hgives, hcommand⟩ := compileAlias_ok h
    obtain ⟨drawn, htext⟩ := hgives.eq_assemble
    have hforce : root.scope.forcePipe = false := by
      rw [hscope]
      rfl
    have hsplit : s!"$alias {settings.verb.text} {a.name} {text}" =
        s!"$alias {settings.verb.text} {a.name} " ++ text := rfl
    rw [hcommand, hsplit, String.append_eq_left_iff, htext, hforce, assemble_eq_empty_iff, root.commands_eq_empty_iff,
      hbody]

/-- Says nothing, and then lists an empty command and chains a bare say to it. -/
def blankActions : List Action :=
  [.execute ⟨none, .say none .origin, [], .origin⟩,
    .execute ⟨none, .commands ⟨.exec, [""], .origin⟩, [⟨.action (.say none .origin), .origin⟩], .origin⟩]

def aliasDoing (actions : List Action) : Alias :=
  ⟨"aa", none, ⟨actions, .origin⟩, .origin⟩

/-- Its alias is given an empty command. Doing the same twice is not blank: a barrier stands between the two empty
commands. -/
theorem blank_alias_is_defined :
    (∃ out t, run (compileAlias (standalone (Marker.series 0)) {} (aliasDoing blankActions)) = (.ok out, t) ∧
      out.command = "$alias addedit aa ") ∧
    ∃ out t, run (compileAlias (standalone (Marker.series 0)) {} (aliasDoing (blankActions ++ blankActions))) =
      (.ok out, t) ∧ out.command ≠ "$alias addedit aa " := by
  have hruns : ∀ actions ∈ [blankActions, blankActions ++ blankActions],
      (run (compileAlias (standalone (Marker.series 0)) {} (aliasDoing actions))).1.isOk = true := by
    decide +kernel
  have hempty : ∀ actions ∈ [blankActions, blankActions ++ blankActions],
      ∃ out t, run (compileAlias (standalone (Marker.series 0)) {} (aliasDoing actions)) = (.ok out, t) ∧
        (out.command = "$alias addedit aa " ↔ BlankBody actions ∧ actions.flatMap Action.listed = [""]) := by
    intro actions hactions
    have hok := hruns actions hactions
    rcases hrun : run (compileAlias (standalone (Marker.series 0)) {} (aliasDoing actions)) with ⟨e | out, t⟩
    · rw [hrun] at hok
      cases hok
    · exact ⟨out, t, rfl, (command_has_text_iff_not_blank _).2.2 {} (aliasDoing actions) {} t out hrun⟩
  rw [List.forall_mem_cons, List.forall_mem_singleton] at hempty
  obtain ⟨⟨out, t, hrun, hout⟩, twice, t', hrun', htwice⟩ := hempty
  exact ⟨⟨out, t, hrun, hout.mpr (by decide)⟩, twice, t', hrun', mt htwice.mp (by decide)⟩

/-- An empty command that is listed alone is all that the alias is given. -/
theorem empty_command_is_defined : compileSource "alias aa exec \"\" end" = .ok "$alias addedit aa " := by
  decide +kernel

end AliasLang.Command
