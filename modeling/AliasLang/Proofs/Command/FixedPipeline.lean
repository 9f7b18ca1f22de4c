/-
The pipeline of an alias in fixed mode, where the marker is the bare bar. The compiler writes bars of its own, and they
do no harm. The blocks inside of the alias have drawn markers, which are letters and digits. The command that deletes
temporary keys holds two bars in a row, and the marker stands between spaces. So if no text of the alias holds a bar,
splitting its pipeline at the marker gives its commands back, however deep its blocks are nested.

All but the last step is shown of any kind of characters that the compiler does not write itself: no command of an
action has such a character if no text in the action has, at any depth.
-/
import AliasLang.Proofs.Command.LineBreaks
import AliasLang.Proofs.Command.Success

namespace AliasLang.Text

/-- A text whose only bars are two in a row is clear of the bar. -/
theorem isClear_double_bar {before after : List Char} (hafter : '|' ∉ after) (hbefore : '|' ∉ before) :
    IsClear ['|'] (before ++ '|' :: '|' :: after) := by
  have hno : ¬ spaced ['|'] <:+: after ++ [' '] := by
    intro h
    have hbar : '|' ∈ after ++ [' '] := h.subset (by simp [spaced])
    simp [hafter] at hbar
  unfold IsClear
  induction before with
  | nil =>
    simp only [List.nil_append, List.cons_append, List.infix_cons_iff, not_or]
    exact ⟨by simp [spaced], by simp [spaced], hno⟩
  | cons c before ih =>
    rw [List.mem_cons, not_or] at hbefore
    rw [List.cons_append, List.cons_append, List.infix_cons_iff, not_or]
    refine ⟨?_, ih hbefore.2⟩
    cases before with
    | nil => simp [spaced]
    | cons d before =>
      have hd : '|' ≠ d := List.ne_of_not_mem_cons hbefore.2
      simp [spaced, hd]

end AliasLang.Text

namespace AliasLang.Command

open Program
open Text (Lacks lacks_append)

/-! ## Texts in a program -/

def stepLiterals : Step → List String
  | .store s => [s.key]
  | .action a => simpleTexts a

def chainLiterals (chain : List Link) : List String := chain.flatMap (stepLiterals ·.step)

def retrieveLiterals : Retrieve → List String
  | .key key _ _ => [key]
  | .argument _ _ => []

mutual

/-- The string literals of an action at any depth: commands, said texts and keys. Ids of imports are not among them. -/
def actionLiterals : Action → List String
  | .execute e => e.retrieve.toList.flatMap retrieveLiterals ++ (simpleTexts e.action ++ chainLiterals e.chain)
  | .compiled actions _ chain _ => actionsLiterals actions ++ chainLiterals chain

def actionsLiterals : List Action → List String
  | [] => []
  | a :: rest => actionLiterals a ++ actionsLiterals rest

end

/-- The string literals of an alias, and its prefix. -/
def aliasLiterals (a : Alias) : List String := a.keyPrefix.toList ++ actionsLiterals a.body.actions

/-- What the script becomes, after the preamble and its import. -/
def Transforms (co : Collaborators) (scope : Scope) (a : ScriptAction) (output : Script.Output) : Prop :=
  ∃ imported, Resolves co a.imported imported ∧
    co.transform (Script.Options.forEmbedding scope.minifyScript)
      (Script.preamble scope.keyPrefix ++ imported ++ a.script.unescaped) = .ok output

/-- No text of the parts that have these literals, names and scripts holds a character of the kind `p`. -/
structure Lacking (p : Char → Bool) (co : Collaborators) (scope : Scope) (literals names : List String)
    (scripts : List ScriptAction) : Prop where
  literals : ∀ s ∈ literals, Lacks p s
  names : ∀ s ∈ names, Lacks p s
  codes : ∀ s ∈ scripts, ∀ output, Transforms co scope s output → Lacks p output.code

variable {p : Char → Bool} {co : Collaborators} {scope : Scope}

theorem lacking_append {ls ls' ns ns' : List String} {ss ss' : List ScriptAction} :
    Lacking p co scope (ls ++ ls') (ns ++ ns') (ss ++ ss') ↔
      Lacking p co scope ls ns ss ∧ Lacking p co scope ls' ns' ss' := by
  constructor
  · rintro ⟨hl, hn, hs⟩
    rw [List.forall_mem_append] at hl hn hs
    exact ⟨⟨hl.1, hn.1, hs.1⟩, hl.2, hn.2, hs.2⟩
  · rintro ⟨⟨hl, hn, hs⟩, hl', hn', hs'⟩
    exact ⟨List.forall_mem_append.mpr ⟨hl, hl'⟩, List.forall_mem_append.mpr ⟨hn, hn'⟩,
      List.forall_mem_append.mpr ⟨hs, hs'⟩⟩

/-- Nested bodies transform scripts as the body around them does. -/
theorem Lacking.nested {ls ns : List String} {ss : List ScriptAction} (h : Lacking p co scope ls ns ss) :
    Lacking p co scope.nested ls ns ss := ⟨h.literals, h.names, h.codes⟩

theorem Lacking.of_chain {chain : List Link}
    (h : Lacking p co scope (chainLiterals chain) (chainNames chain) (chainScripts chain)) {l : Link} (hl : l ∈ chain) :
    Lacking p co scope (stepLiterals l.step) l.step.names l.step.scripts where
  literals s hs := h.literals s (List.mem_flatMap.mpr ⟨l, hl, hs⟩)
  names s hs := h.names s (List.mem_flatMap.mpr ⟨l, hl, hs⟩)
  codes s hs := h.codes s (List.mem_flatMap.mpr ⟨l, hl, hs⟩)

/-! ## Commands of an action -/

/-- No command holds a character of the kind `p`. -/
abbrev Clean (p : Char → Bool) : Fragment → Prop := Throughout (Lacks p) True

theorem Clean.lacks {f : Fragment} (h : Clean p f) : ∀ c ∈ f.commands, Lacks p c := h.mpr trivial

theorem clean_of_forall {f : Fragment} (h : ∀ c ∈ f.commands, Lacks p c) : Clean p f := iff_of_true h trivial

theorem clean_single {f : Fragment} {c : String} (hf : f.commands = [c]) (h : Lacks p c) : Clean p f :=
  throughout_single hf (iff_of_true h trivial)

theorem Clean.append {f g : Fragment} (hf : Clean p f) (hg : Clean p g) : Clean p (f ++ g) :=
  (Throughout.append hf hg).congr and_self_iff

theorem importedText_resolves (co : Collaborators) (a : ScriptAction) :
    Meets (importedText co a) (Resolves co a.imported) :=
  (importedText_decides co a).meets (importedText_meets co a)

theorem compileScript_clean (hp : Foreign p) {a : ScriptAction}
    (h : ∀ output, Transforms co scope a output → Lacks p output.code) :
    Meets (compileScript co scope a) (Clean p) := by
  unfold compileScript
  refine .bind (importedText_resolves co a) fun imported himported => ?_
  refine .bind (transform_meets co _ _) fun answer hanswer => ?_
  split
  · exact .throw rfl
  · rename_i output
    split
    · exact .throw rfl
    · refine .pure (clean_single rfl ?_)
      rw [lacks_scriptCommand scope hp]
      apply lacks_parameter hp
      rw [lacks_append, lacks_append]
      exact ⟨⟨hp.lacks (by decide), h output ⟨imported, himported, hanswer.symm⟩⟩, hp.lacks (by decide)⟩

theorem compileSimple_clean (hp : Foreign p) {a : Simple} (h : Lacking p co scope (simpleTexts a) a.names a.scripts) :
    Meets (compileSimple co scope a) (Clean p) := by
  have hsay : Lacks p "abb say " := hp.lacks (by decide)
  unfold compileSimple
  split
  · rename_i s
    exact compileScript_clean hp (h.codes s List.mem_cons_self)
  · exact .pure (clean_of_forall h.literals)
  · rename_i text span
    refine .pure (clean_single rfl ?_)
    rw [lacks_append]
    exact ⟨hsay, h.literals text (by simp [simpleTexts])⟩
  · exact .pure (throughout_nil rfl trivial)
  · rename_i c
    have htarget : Lacks p c.target := h.names _ (by simp [Simple.names])
    split
    · rename_i user huser
      have hname : Lacks p user := h.names _ (by simp [Simple.names, huser])
      refine .pure (clean_single rfl ?_)
      show Lacks p ("alias try @" ++ user ++ " " ++ c.target)
      rw [lacks_append, lacks_append, lacks_append]
      exact ⟨⟨⟨hp.lacks (by decide), hname⟩, hp.lacks (by decide)⟩, htarget⟩
    · refine .pure (clean_single rfl ?_)
      show Lacks p ("$ " ++ c.target)
      rw [lacks_append]
      exact ⟨hp.lacks (by decide), htarget⟩

theorem lacks_resolveKey (hlocal : Lacks p scope.keyPrefix) {key : String} (hkey : Lacks p key) (isLocal : Bool) :
    Lacks p (scope.resolveKey key isLocal) := by
  cases isLocal with
  | true => exact lacks_append.mpr ⟨hlocal, hkey⟩
  | false => exact hkey

theorem compileRetrieve_clean (hp : Foreign p) (hlocal : Lacks p scope.keyPrefix) {r : Retrieve}
    (hliterals : ∀ s ∈ retrieveLiterals r, Lacks p s) (hnames : ∀ s ∈ r.names, Lacks p s) :
    Meets (compileRetrieve scope r) (Clean p) := by
  cases r with
  | key key isLocal span =>
    refine .pure (clean_single rfl ?_)
    rw [lacks_retrieveCommand scope hp]
    exact lacks_resolveKey hlocal (hliterals key List.mem_cons_self) isLocal
  | argument literal span =>
    refine .ite (fun _ => .throw rfl) fun _ => .pure (clean_single rfl ?_)
    rw [lacks_append]
    exact ⟨hp.lacks (by decide), hnames _ List.mem_cons_self⟩

theorem compileStep_clean (hp : Foreign p) (hlocal : Lacks p scope.keyPrefix) {s : Step}
    (h : Lacking p co scope (stepLiterals s) s.names s.scripts) : Meets (compileStep co scope s) (Clean p) := by
  cases s with
  | store s =>
    refine compileStore_throughout co scope (iff_of_true ?_ trivial)
    rw [lacks_storeCommand scope hp]
    exact lacks_resolveKey hlocal (h.literals s.key List.mem_cons_self) s.isLocal
  | action a => exact compileSimple_clean hp h

theorem compileChain_clean (hp : Foreign p) (hlocal : Lacks p scope.keyPrefix) {chain : List Link}
    (h : ∀ l ∈ chain, Lacking p co scope (stepLiterals l.step) l.step.names l.step.scripts) :
    Meets (compileChain co scope chain) (Clean p) :=
  (compileChain_throughout co scope fun l hl => compileStep_clean hp hlocal (h l hl)).imp fun _ hf =>
    Throughout.congr hf (iff_true_intro fun _ _ => trivial)

theorem compileExecute_clean (hp : Foreign p) (hlocal : Lacks p scope.keyPrefix) {e : Execute}
    (h : Lacking p co scope (actionLiterals (.execute e)) (Action.execute e).names (Action.execute e).scripts) :
    Meets (compileExecute co scope e) (Clean p) := by
  rw [actionLiterals, Action.names, Action.scripts, ← List.nil_append (_ ++ chainScripts _), lacking_append,
    lacking_append] at h
  obtain ⟨hretrieve, haction, hchain⟩ := h
  have hread : ∀ r, e.retrieve = some r → Meets (compileRetrieve scope r) (Clean p) := by
    intro r hr
    have hmem : r ∈ e.retrieve.toList := by simp [hr]
    exact compileRetrieve_clean hp hlocal (fun s hs => hretrieve.literals s (List.mem_flatMap.mpr ⟨r, hmem, hs⟩))
      fun s hs => hretrieve.names s (List.mem_flatMap.mpr ⟨r, hmem, hs⟩)
  refine (compileExecute_throughout co scope hread (compileSimple_clean hp haction) fun l hl =>
    compileStep_clean hp hlocal (hchain.of_chain hl)).imp fun _ hf => Throughout.congr hf ?_
  exact iff_true_intro ⟨fun _ _ => trivial, trivial, fun _ _ => trivial⟩

/-! ## Blocks -/

/-- Below the fixed mode and the randomized one, markers are drawn. -/
theorem nested_delimiter (hmode : scope.delimiter ≠ .numbered) : scope.nested.delimiter = .randomized := by
  show (if scope.delimiter = .fixed then DelimiterMode.randomized else scope.delimiter) = .randomized
  cases hd : scope.delimiter with
  | fixed => rfl
  | numbered => exact absurd hd hmode
  | randomized => rfl

theorem pipelined?_lacks (hp : Foreign p) {force : Bool} {commands piped : List String} (h : ∀ c ∈ commands, Lacks p c)
    (hpiped : pipelined? force commands = some piped) : ∀ c ∈ piped, Lacks p c := by
  unfold pipelined? at hpiped
  split at hpiped
  · split at hpiped
    · cases hpiped
      exact List.forall_mem_cons.mpr ⟨hp.lacks (by decide), h⟩
    · cases hpiped
  · cases hpiped
    exact h

/-- A drawn marker is all that the text has besides the commands. -/
theorem assembled_lacks (hp : Foreign p) (hmode : scope.delimiter = .randomized) (hdraw : ∀ n, Lacks p (co.draw n))
    {commands : List String} (h : ∀ c ∈ commands, Lacks p c) : Meets (assembled co scope commands) (Lacks p) := by
  have hdrawn : Meets (draw co) (Lacks p) := fun t => hdraw t.drawn
  unfold assembled
  split
  · refine .pure ?_
    cases commands with
    | nil => exact hp.lacks (by decide)
    | cons c rest => exact h c List.mem_cons_self
  · rename_i piped hpiped
    rw [if_pos hmode, hmode]
    exact .bind hdrawn fun drawn hd => .pure ((lacks_pipeline hp hd).mpr (pipelined?_lacks hp h hpiped))

theorem embedPipeline_clean (hp : Foreign p) (hlocal : Lacks p scope.keyPrefix) (inner : Fragment) {embedded : String}
    (hembedded : Lacks p embedded) {chain : List Link}
    (h : Lacking p co scope (chainLiterals chain) (chainNames chain) (chainScripts chain)) :
    Clean p (embedPipeline scope inner embedded chain).1 := by
  refine clean_single (embedPipeline_commands scope inner embedded chain) ?_
  unfold blockCommand
  split
  · rename_i s span rest
    rw [lacks_storeLiteralCommand scope hp]
    have hkey : Lacks p s.key := h.literals s.key (by simp [chainLiterals, stepLiterals])
    exact ⟨lacks_resolveKey hlocal hkey s.isLocal, hembedded⟩
  · exact (lacks_literalCommand scope hp).mpr hembedded

theorem clean_joinAll (hp : Foreign p) {fragments : List Fragment} (h : ∀ f ∈ fragments, Clean p f) :
    Clean p (Fragment.joinAll fragments) := by
  have hbarrier : ∀ c ∈ Fragment.barrier, Lacks p c := by
    rw [Fragment.barrier, List.forall_mem_cons, List.forall_mem_singleton]
    exact ⟨hp.lacks (by decide), hp.lacks (by decide)⟩
  exact clean_of_forall ((forall_joinAll hbarrier).mpr fun f hf => (h f hf).lacks)

/-- Nothing is deleted at the end of a nested body. -/
theorem compileRoot_nested_clean (hp : Foreign p) {actions : List Action} (span : Source.Span)
    (h : Meets (compileActions co scope.nested actions) fun fragments => ∀ f ∈ fragments, Clean p f) :
    Meets (compileRoot co scope.nested ⟨actions, span⟩) (Clean p) := by
  unfold compileRoot
  refine .ite (fun _ => .throw rfl) fun _ => .bind h fun fragments hfragments => ?_
  unfold compileBody
  simp only [discharge_nested]
  exact .ite (fun _ => .throw rfl) fun _ => .pure (clean_joinAll hp hfragments)

mutual

theorem compileAction_clean (hp : Foreign p) (hdraw : ∀ n, Lacks p (co.draw n)) {scope : Scope}
    (hmode : scope.delimiter ≠ .numbered) (hlocal : Lacks p scope.keyPrefix) : ∀ {a : Action},
    Lacking p co scope (actionLiterals a) a.names a.scripts → Meets (compileAction co scope a) (Clean p)
  | .execute e, h => by
    rw [compileAction]
    exact compileExecute_clean hp hlocal h
  | .compiled actions bodySpan chain span, h => by
    rw [actionLiterals, Action.names, Action.scripts, lacking_append] at h
    have hnested := nested_delimiter hmode
    have hdrawing : scope.nested.delimiter ≠ .numbered := by simp [hnested]
    have hsame : Lacks p scope.nested.keyPrefix := hlocal
    rw [compileAction_compiled]
    refine .bind (compileRoot_nested_clean hp bodySpan (compileActions_clean hp hdraw hdrawing hsame h.1.nested))
      fun inner hinner => ?_
    refine .bind (assembled_lacks hp hnested hdraw hinner.lacks) fun pipeline hpipeline => ?_
    have hblock := embedPipeline_clean hp hlocal inner (lacks_embedded hp hpipeline) h.2
    refine .bind (compileChain_clean hp hlocal fun l hl => ?_) fun rest hrest => .pure (hblock.append hrest)
    exact h.2.of_chain (mem_embedPipeline_links hl)

theorem compileActions_clean (hp : Foreign p) (hdraw : ∀ n, Lacks p (co.draw n)) {scope : Scope}
    (hmode : scope.delimiter ≠ .numbered) (hlocal : Lacks p scope.keyPrefix) : ∀ {actions : List Action},
    Lacking p co scope (actionsLiterals actions) (actionsNames actions) (actionsScripts actions) →
      Meets (compileActions co scope actions) fun fragments => ∀ f ∈ fragments, Clean p f
  | [], _ => by
    rw [compileActions]
    exact .pure (by simp)
  | a :: rest, h => by
    rw [actionsLiterals, actionsNames, actionsScripts, lacking_append] at h
    rw [compileActions]
    refine .bind (compileAction_clean hp hdraw hmode hlocal h.1) fun f hf => ?_
    refine .bind (compileActions_clean hp hdraw hmode hlocal h.2) fun fragments hfragments => .pure ?_
    exact List.forall_mem_cons.mpr ⟨hf, hfragments⟩

end

/-! ## Bars -/

def isBar (c : Char) : Bool := c = '|'

theorem foreign_isBar : Foreign isBar := by
  intro c hc
  simp only [isOwnChar, Bool.and_eq_true, decide_eq_true_eq] at hc
  exact decide_eq_false hc.2

theorem lacks_isBar_iff {s : String} : Lacks isBar s ↔ '|' ∉ s.toList := by
  constructor
  · intro h hbar
    exact absurd (h _ hbar) (by decide)
  · intro h c hc
    exact decide_eq_false fun he => h (he ▸ hc)

/-- The bars of the command stand side by side. -/
theorem dischargeCommand_isClear (scope : Scope) {keys : List String} (h : ∀ key ∈ keys, Lacks isBar key) :
    Text.IsClear ['|'] (dischargeCommand scope keys).toList := by
  have hcode : Lacks isBar (String.join (keys.map fun key => "customData.set(" ++ keyLiteral key ++ ",undefined);") ++
      "(args") := lacks_append.mpr ⟨(lacks_deletions foreign_isBar).mpr h, foreign_isBar.lacks (by decide)⟩
  have hbefore := (lacks_append.mp ((lacks_scriptCommand scope foreign_isBar).mpr hcode)).1
  have hafter : '|' ∉ "[]).join(' ')\"".toList := by decide
  have hclear := Text.isClear_double_bar hafter (lacks_isBar_iff.mp hbefore)
  simpa [dischargeCommand, scriptCommand] using hclear

theorem mem_chainLiterals_of_tempStores {chain : List Link} {s : Store} (h : s ∈ tempStoresOfChain chain) :
    s.key ∈ chainLiterals chain := by
  induction chain with
  | nil => cases h
  | cons l rest ih =>
    obtain ⟨step, span⟩ := l
    rw [chainLiterals, List.flatMap_cons, List.mem_append]
    cases step with
    | store stored =>
      rw [tempStoresOfChain_store, List.mem_append] at h
      refine h.imp (fun h => ?_) ih
      split at h
      · rw [List.mem_singleton.mp h]
        exact List.mem_singleton_self _
      · cases h
    | action a => exact .inr (ih h)

mutual

/-- The keys of temporary stores are literals. -/
theorem mem_actionLiterals_of_tempStores {s : Store} : ∀ {a : Action}, s ∈ tempStoresOfAction a →
    s.key ∈ actionLiterals a
  | .execute e, h => by
    rw [tempStoresOfAction] at h
    rw [actionLiterals]
    exact List.mem_append_right _ (List.mem_append_right _ (mem_chainLiterals_of_tempStores h))
  | .compiled actions bodySpan chain span, h => by
    rw [tempStoresOfAction, List.mem_append] at h
    rw [actionLiterals, List.mem_append]
    exact h.imp mem_actionsLiterals_of_tempStores mem_chainLiterals_of_tempStores

theorem mem_actionsLiterals_of_tempStores {s : Store} : ∀ {actions : List Action}, s ∈ tempStores actions →
    s.key ∈ actionsLiterals actions
  | [], h => by
    rw [tempStores] at h
    cases h
  | a :: rest, h => by
    rw [tempStores, List.mem_append] at h
    rw [actionsLiterals, List.mem_append]
    exact h.imp mem_actionLiterals_of_tempStores mem_actionsLiterals_of_tempStores

end

/-! ## Pipelines -/

theorem BodyRun.isClear {r : BodyRun co} (hdraw : ∀ n, Lacks isBar (co.draw n)) (hmode : r.scope.delimiter ≠ .numbered)
    (hroot : r.scope.keepTempKeys = false) (hlocal : Lacks isBar r.scope.keyPrefix)
    (h : Lacking isBar co r.scope (actionsLiterals r.body.actions) (actionsNames r.body.actions)
      (actionsScripts r.body.actions)) : ∀ c ∈ r.fragment.commands, Text.IsClear ['|'] c.toList := by
  obtain ⟨fragments, hfragments, hfragment⟩ := r.fragments_ok
  have hclean : Clean isBar (Fragment.joinAll fragments) :=
    clean_joinAll foreign_isBar ((compileActions_clean foreign_isBar hdraw hmode hlocal h).ok hfragments)
  have hkeys : Holds r.scope (tempStores r.body.actions) (Fragment.joinAll fragments) :=
    (compileActions_meets co _ _).ok hfragments (holds_nil rfl : Holds _ [] .empty)
  rw [hfragment, discharge_commands hroot hkeys, List.forall_mem_append]
  constructor
  · intro c hc
    apply Text.isClear_of_not_infix
    rw [List.singleton_infix_iff]
    exact lacks_isBar_iff.mp (hclean.lacks c hc)
  · split
    · simp
    · rw [List.forall_mem_singleton]
      refine dischargeCommand_isClear r.scope fun key hkey => ?_
      obtain ⟨s, hs, rfl⟩ := List.mem_map.mp (List.mem_eraseDups.mp hkey)
      exact lacks_resolveKey hlocal (h.literals _ (mem_actionsLiterals_of_tempStores hs)) s.isLocal

/-- No string literal, key or prefix of the alias holds a bar, and no script of it after it was transformed. -/
structure BarFree (co : Collaborators) (settings : Settings) (a : Alias) : Prop where
  literals : ∀ s ∈ aliasLiterals a, '|' ∉ s.toList
  codes : ∀ s ∈ a.scripts, ∀ output, Transforms co (.ofAlias a settings) s output → '|' ∉ output.code.toList

/-- Whenever the alias compiles, the commands of its body can be read from its command: it shows the single one, or a
pipeline of all of them with the bar for its marker. -/
def ShowsCommands (co : Collaborators) (settings : Settings) (a : Alias) : Prop :=
  ∀ t t' out, runFrom (compileAlias co settings a) t = (.ok out, t') →
    ∃ (root : BodyRun co) (text : String), root.IsRoot settings a t ∧ root.Gives text ∧
      out.command = s!"$alias {settings.verb.text} {a.name} {text}" ∧
        if root.fragment.commands.length = 1 then root.fragment.commands = [text]
        else readPipeline? text = some ("|", root.fragment.commands)

theorem BodyRun.IsRoot.isClear {settings : Settings} {a : Alias} {t : Trace} {root : BodyRun co}
    (hroot : root.IsRoot settings a t) (hfixed : settings.delimiter = .fixed)
    (hdraw : ∀ n, ∃ number, co.draw n = Marker.drawn number) (hfree : BarFree co settings a)
    (hnames : ∀ name ∈ actionsNames a.body.actions, '|' ∉ name.toList) :
    ∀ c ∈ root.fragment.commands, Text.IsClear ['|'] c.toList := by
  obtain ⟨scope, body, before, fragment, after, hruns⟩ := root
  obtain ⟨rfl, rfl, rfl⟩ := hroot
  have hliterals := hfree.literals
  rw [aliasLiterals, List.forall_mem_append] at hliterals
  refine BodyRun.isClear (fun n => ?_) ?_ rfl ?_ ⟨fun s hs => ?_, fun s hs => ?_, fun s hs output houtput => ?_⟩
  · obtain ⟨number, hnumber⟩ := hdraw n
    rw [hnumber]
    exact lacks_drawn foreign_isBar number
  · show settings.delimiter ≠ .numbered
    simp [hfixed]
  · show Lacks isBar (a.keyPrefix.getD "")
    cases hprefixed : a.keyPrefix with
    | none => exact lacks_isBar_iff.mpr (by simp)
    | some text => exact lacks_isBar_iff.mpr (hliterals.1 text (by simp [hprefixed]))
  · exact lacks_isBar_iff.mpr (hliterals.2 s hs)
  · exact lacks_isBar_iff.mpr (hnames s hs)
  · exact lacks_isBar_iff.mpr (hfree.codes s hs output houtput)

theorem showsCommands {settings : Settings} (hfixed : settings.delimiter = .fixed)
    (hdraw : ∀ n, ∃ number, co.draw n = Marker.drawn number) {a : Alias} (hfree : BarFree co settings a)
    (hnames : ∀ name ∈ actionsNames a.body.actions, '|' ∉ name.toList) : ShowsCommands co settings a := by
  intro t t' out h
  obtain ⟨root, text, hroot, hgives, hcommand⟩ := compileAlias_ok h
  refine ⟨root, text, hroot, hgives, hcommand, ?_⟩
  have hclear := hroot.isClear hfixed hdraw hfree hnames
  obtain ⟨drawn, htext⟩ := hgives.eq_assemble
  have hmode : root.scope.delimiter = .fixed := by
    rw [hroot.scope_eq]
    exact hfixed
  have hforce : root.scope.forcePipe = false := by
    rw [hroot.scope_eq]
    rfl
  rw [hmode, hforce, assemble, pipelined?_false] at htext
  split
  · rename_i hone
    obtain ⟨c, hc⟩ := List.length_eq_one_iff.mp hone
    rw [if_pos hone] at htext
    rw [htext, hc]
    rfl
  · rename_i hmany
    rw [if_neg hmany] at htext
    have hpipeline : text = pipeline "|" root.fragment.commands := htext
    rw [hpipeline]
    exact readPipeline?_pipeline (by decide) root.commands_ne_nil hclear

/-- **In fixed mode a pipeline splits into its commands.** Let markers be drawn from all that there are. If neither a
string literal, a key or the prefix of an alias nor one of its transformed scripts holds a bar, then the command that it
compiles to shows its single command or a pipeline, and the pipeline read back at the bars between spaces has exactly
the commands of the body. Blocks may be nested to any depth, and keys may be temporary. The names that the alias calls
must hold no bar either; in a program that was read, they never do. -/
theorem fixed_pipeline_splits_into_commands {settings : Settings} (hfixed : settings.delimiter = .fixed)
    (hdraw : ∀ n, ∃ number, co.draw n = Marker.drawn number) :
    (∀ a, BarFree co settings a → (∀ name ∈ actionsNames a.body.actions, '|' ∉ name.toList) →
      ShowsCommands co settings a) ∧
    ∀ source p, parse source = .ok p → ∀ a ∈ p.aliases, BarFree co settings a → ShowsCommands co settings a := by
  refine ⟨fun a hfree hnames => showsCommands hfixed hdraw hfree hnames, fun source p hp a ha hfree => ?_⟩
  have hwords := alias_names_of_parse hp ha
  refine showsCommands hfixed hdraw hfree fun name hname hbar => ?_
  have hword := hwords name (List.mem_cons_of_mem _ hname) _ hbar
  exact absurd hword (by decide)

/-- Nothing is imported, every script becomes a call, and markers are drawn in order. -/
def callingCollaborators : Collaborators :=
  ⟨Gist.importsDisabled, fun _ _ => .ok ⟨"f()", []⟩, Marker.series 0⟩

/-- A block in a block, which stores its pipeline under a temporary key. -/
def nestedAlias : Alias :=
  ⟨"aa", some "p.",
    ⟨[.compiled
        [.execute ⟨none, .commands ⟨.exec, ["x", "y"], .origin⟩, [], .origin⟩,
          .compiled [.execute ⟨none, .script ⟨none, ⟨"f(1)", .origin⟩, .origin⟩, [], .origin⟩] .origin
            [⟨.store ⟨"k", true, true, .origin⟩, .origin⟩] .origin]
        .origin [] .origin],
      .origin⟩,
    .origin⟩

/-- Its pipeline has two commands, the outer block and the deletion of the key. -/
theorem nested_blocks_split_into_two :
    ∃ (out : CompiledAlias) (t : Trace) (text : String) (commands : List String),
      run (compileAlias callingCollaborators { delimiter := .fixed } nestedAlias) = (.ok out, t) ∧
        out.command = s!"$alias addedit aa {text}" ∧ readPipeline? text = some ("|", commands) ∧
          commands.length = 2 := by
  have hdraw : ∀ n, ∃ number, callingCollaborators.draw n = Marker.drawn number := fun n => ⟨_, rfl⟩
  have hfree : BarFree callingCollaborators { delimiter := .fixed } nestedAlias := by
    constructor
    · decide
    · rintro s - output ⟨imported, -, houtput⟩
      cases houtput
      decide
  have hcommands : (runFrom (compileRoot callingCollaborators (.ofAlias nestedAlias { delimiter := .fixed })
      nestedAlias.body) {}).1.map (·.commands.length) = .ok 2 := by
    decide
  obtain ⟨out, t, hrun⟩ : ∃ out t,
      runFrom (compileAlias callingCollaborators { delimiter := .fixed } nestedAlias) {} = (.ok out, t) :=
    exists_ok_of_isOk (by decide)
  have hshows := (fixed_pipeline_splits_into_commands rfl hdraw).1 nestedAlias hfree (by decide)
  obtain ⟨root, text, hroot, -, hcommand, hread⟩ := hshows {} t out hrun
  have hlength : root.fragment.commands.length = 2 := by
    have hruns := root.runs
    rw [hroot.scope_eq, hroot.body_eq, hroot.before_eq] at hruns
    rw [hruns] at hcommands
    exact Except.ok.inj hcommands
  rw [hlength, if_neg (by decide)] at hread
  exact ⟨out, t, text, _, hrun, hcommand, hread, hlength⟩

end AliasLang.Command
