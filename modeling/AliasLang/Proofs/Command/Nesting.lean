/-
Markers of nested pipelines. The text of an enclosed pipeline stands in a command of the one around it with its marker
right behind a colon, where no group that begins earlier can hide it from the scan. So the enclosing pipeline gets a
number between bars that occurs in none of its commands, and since embedding leaves bars and digits alone, the markers of
all pipelines further inside are among what this number was chosen to avoid.

A number is only found in a text if it is below 2^63. One that is greater would take a text with as many bars, and no
text in memory is that long.
-/
import AliasLang.Proofs.Command.Embedding
import Mathlib.Logic.Relation

namespace AliasLang.Command

open Program Quoting Text

variable {co : Collaborators}

/-! ## What embedding keeps -/

/-- A character that is embedded as it is. -/
def IsKept (c : Char) : Prop := embeddedChar c = [c] ∧ c ≠ ':'

theorem isKept_of_mem_text {m : Marker} {c : Char} (h : c ∈ m.text.toList) : IsKept c := by
  rcases bar_or_digit_of_mem_text h with rfl | h
  · exact ⟨rfl, by decide⟩
  · have hne : ∀ d : Char, d.isDigit = false → c ≠ d := by
      rintro d hd rfl
      rw [h] at hd
      cases hd
    simp [IsKept, embeddedChar, parameterChar, hne]

theorem neutralizeFrom_append (a b : List Char) : ∀ last : Option Char,
    ∃ last', neutralizeFrom last (a ++ b) = neutralizeFrom last a ++ neutralizeFrom last' b := by
  induction a with
  | nil => exact fun last => ⟨last, rfl⟩
  | cons c a ih =>
    intro last
    obtain ⟨last', h⟩ := ih (some c)
    refine ⟨last', ?_⟩
    simp only [List.cons_append, neutralizeFrom]
    rw [h, List.append_assoc]

/-- What stands before and after does not matter to a text of kept characters. -/
theorem neutralizeFrom_kept_append {m : List Char} (hm : ∀ c ∈ m, IsKept c) (b : List Char) : ∀ last : Option Char,
    ∃ last', neutralizeFrom last ((m ++ b).flatMap embeddedChar) = m ++ neutralizeFrom last' (b.flatMap embeddedChar) := by
  induction m with
  | nil => exact fun last => ⟨last, rfl⟩
  | cons c m ih =>
    intro last
    obtain ⟨hc, hcolon⟩ := hm c List.mem_cons_self
    obtain ⟨last', h⟩ := ih (fun d hd => hm d (List.mem_cons_of_mem c hd)) (some c)
    refine ⟨last', ?_⟩
    rw [List.cons_append, List.flatMap_cons, hc, List.singleton_append, neutralizeFrom_cons_of_ne hcolon, h]
    rfl

/-- A marker that occurs in a pipeline occurs in its literal. -/
theorem text_infix_embedded (m : Marker) {text : String} (h : m.text.toList <:+: text.toList) :
    m.text.toList <:+: (embedded ("pipe " ++ text)).toList := by
  obtain ⟨a, b, hab⟩ := h
  obtain ⟨last, hfirst⟩ := neutralizeFrom_append (a.flatMap embeddedChar) ((m.text.toList ++ b).flatMap embeddedChar) none
  obtain ⟨last', hmarker⟩ := neutralizeFrom_kept_append (fun c hc => isKept_of_mem_text hc) b last
  rw [embedded_pipe, ← hab, List.append_assoc, List.flatMap_append, hfirst, hmarker, ← List.append_assoc]
  exact List.infix_append _ _ _

theorem count_bar_neutralizeFrom (cs : List Char) : ∀ last : Option Char,
    (neutralizeFrom last cs).count '|' = cs.count '|' := by
  induction cs with
  | nil => exact fun _ => rfl
  | cons c cs ih =>
    intro last
    rw [neutralizeFrom, List.count_append, ih]
    split_ifs with hcolon
    · obtain rfl : c = ':' := by simp only [Bool.and_eq_true, decide_eq_true_eq] at hcolon; exact hcolon.1
      simp
    · rw [← List.count_append]
      rfl

theorem count_bar_embeddedChar (c : Char) : (embeddedChar c).count '|' = [c].count '|' := by
  unfold embeddedChar parameterChar
  split_ifs with hquote hslash hdouble hbreak
  · subst hquote
    decide
  · subst hslash
    decide
  · subst hdouble
    decide
  · simp only [Bool.or_eq_true, decide_eq_true_eq] at hbreak
    rcases hbreak with rfl | rfl <;> decide
  · rfl

/-- No bar is added or lost when a pipeline is embedded. -/
theorem count_bar_embedded (text : String) :
    (embedded ("pipe " ++ text)).toList.count '|' = text.toList.count '|' := by
  rw [embedded_pipe, count_bar_neutralizeFrom]
  induction text.toList with
  | nil => rfl
  | cons c cs ih =>
    rw [List.flatMap_cons, List.count_append, ih, count_bar_embeddedChar, ← List.count_append]
    rfl

/-! ## Markers in enclosing commands -/

theorem infix_scriptCommand (scope : Scope) (code : String) : code.toList <:+: (scriptCommand scope code).toList :=
  ⟨("js " ++ (if scope.errorInfo then "errorInfo:true " else "") ++ "function:\"").toList, ['"'], by simp [scriptCommand]⟩

/-- The literal of a block stands in its command. -/
theorem infix_blockCommand (scope : Scope) (literal : String) (chain : List Link) :
    literal.toList <:+: (blockCommand scope literal chain).toList := by
  unfold blockCommand
  split
  · rename_i s _ _
    refine List.IsInfix.trans ?_ (infix_scriptCommand scope _)
    exact ⟨(" customData.set(" ++ keyLiteral (scope.resolveKey s.key s.isLocal) ++ ",'").toList, "') ".toList, by simp⟩
  · refine List.IsInfix.trans ?_ (infix_scriptCommand scope _)
    exact ⟨" '".toList, "' ".toList, by simp⟩

theorem found_text {m : Marker} (h : ∀ n, m = .numbered n → n ≤ maxSigned) : Marker.found m.text.toList = [m] := by
  cases m with
  | bare => simp [Marker.text, Marker.found]
  | numbered n =>
    have hds : ∀ d ∈ Nat.toDigits 10 n, isDecimalDigit d = true := fun d hd =>
      Marker.isDecimalDigit_of_isDigit (Nat.isDigit_of_mem_toDigits (by decide) (by decide) hd)
    have hn : boundedDecimal? maxSigned (Nat.toDigits 10 n) = some n := by
      simp [boundedDecimal?, Marker.decimal?_toDigits, h n rfl]
    rw [Marker.toList_text_numbered, Marker.found_group Nat.toDigits_ne_nil hds, hn]
    simp [Marker.found]

/-- The marker of an embedded pipeline stands between a colon and a space. -/
theorem embedded_pipeline_shape (m : Marker) (commands : List String) :
    ∃ rest, (embedded (pipeline m.text commands)).toList =
      "_char'+'".toList ++ ':' :: (m.text.toList ++ ' ' :: rest) := by
  have hpipe : pipeline m.text commands = "pipe " ++
      ("_char:" ++ (m.text ++ " " ++ (" " ++ m.text ++ " ").intercalate commands)) := by
    apply String.toList_inj.mp
    simp [pipeline]
  have hhead : ∀ cs, neutralizeFrom none (("_char:".toList ++ cs).flatMap embeddedChar) =
      "_char'+':".toList ++ neutralizeFrom (some ':') (cs.flatMap embeddedChar) := fun cs => rfl
  have hkept : ∀ c ∈ m.text.toList ++ [' '], IsKept c := by
    intro c hc
    rcases List.mem_append.mp hc with hc | hc
    · exact isKept_of_mem_text hc
    · rw [List.mem_singleton.mp hc]
      exact ⟨rfl, by decide⟩
  obtain ⟨last, hmarker⟩ := neutralizeFrom_kept_append hkept
    ((" " ++ m.text ++ " ").intercalate commands).toList (some ':')
  refine ⟨neutralizeFrom last (((" " ++ m.text ++ " ").intercalate commands).toList.flatMap embeddedChar), ?_⟩
  rw [hpipe, embedded_pipe, String.toList_append, hhead, String.toList_append, String.toList_append,
    show " ".toList = [' '] from rfl, hmarker]
  simp

/-- The scan of a command finds the marker of the pipeline that is embedded in it. -/
theorem mem_found_blockCommand {m : Marker} (hm : ∀ n, m = .numbered n → n ≤ maxSigned) (scope : Scope)
    (commands : List String) (chain : List Link) :
    m ∈ Marker.found (blockCommand scope (embedded (pipeline m.text commands)) chain).toList := by
  obtain ⟨before, after, hblock⟩ := infix_blockCommand scope (embedded (pipeline m.text commands)) chain
  obtain ⟨rest, hshape⟩ := embedded_pipeline_shape m commands
  have hcolon : (blockCommand scope (embedded (pipeline m.text commands)) chain).toList =
      (before ++ "_char'+'".toList) ++ ':' :: (m.text.toList ++ ' ' :: (rest ++ after)) := by
    rw [← hblock, hshape]
    simp
  -- No group goes on over a colon or a space.
  rw [hcolon, Marker.found_append_cons (by decide) (by decide), Marker.found_append_space, found_text hm]
  simp

/-! ## Bars of enclosed texts -/

theorem mem_of_pipelined? {force : Bool} {commands piped : List String} (h : pipelined? force commands = some piped)
    {c : String} (hc : c ∈ commands) : c ∈ piped := by
  unfold pipelined? at h
  split at h
  · split at h
    · cases h
      exact List.mem_cons_of_mem nullCommand hc
    · cases h
  · cases h
    exact hc

theorem infix_pipeline (marker : String) {commands : List String} {c : String} (hc : c ∈ commands) :
    c.toList <:+: (pipeline marker commands).toList := by
  refine (infix_intercalate (spaced marker.toList) (List.mem_map_of_mem hc)).trans ?_
  rw [toList_pipeline]
  exact ⟨pipelineHead.toList ++ marker.toList ++ [' '], [], by simp⟩

theorem marker_infix_pipeline (marker : String) (commands : List String) :
    marker.toList <:+: (pipeline marker commands).toList := by
  rw [toList_pipeline, ← List.append_assoc]
  exact List.infix_append _ _ _

/-- The number of bars in a text. -/
def bars (text : String) : Nat := text.toList.count '|'

theorem bars_le_of_infix {a b : String} (h : a.toList <:+: b.toList) : bars a ≤ bars b := h.sublist.count_le '|'

theorem bars_le_length (text : String) : bars text ≤ text.length := by
  rw [← String.length_toList]
  exact List.count_le_length

theorem count_intercalate_le {c : Char} {sep : List Char} (hsep : sep.count c = 0) (sep' : List Char)
    (parts : List (List Char)) : (sep.intercalate parts).count c ≤ (sep'.intercalate parts).count c := by
  induction parts with
  | nil => simp
  | cons part parts ih =>
    cases parts with
    | nil => simp
    | cons next parts =>
      simp only [List.intercalate_cons_cons, List.count_append, hsep]
      omega

/-- A chosen number is smaller than the number of bars. -/
theorem lt_bars_of_choose {commands : List String} {n : Nat} (h : Marker.choose commands = .numbered n)
    (marker : String) : n < bars (pipeline marker commands) := by
  obtain ⟨hbar, rfl⟩ := choose_eq_numbered h
  refine Nat.lt_of_lt_of_le (Marker.leastFree_spec hbar).2.1 ?_
  have hspace : " ".toList.count '|' = 0 := by decide
  have hjoin := count_intercalate_le hspace (spaced marker.toList) (commands.map String.toList)
  rw [bars, toList_pipeline, List.count_append, List.count_append, List.count_cons, String.toList_intercalate]
  omega

namespace BodyRun

/-- The commands of a body stand in its text. -/
theorem Gives.command_in_text {r : BodyRun co} {text : String} (h : r.Gives text) {c : String}
    (hc : c ∈ r.fragment.commands) : c.toList <:+: text.toList := by
  obtain ⟨drawn, rfl⟩ := h.eq_assemble
  unfold assemble
  cases hpiped : pipelined? r.scope.forcePipe r.fragment.commands with
  | some piped => exact infix_pipeline _ (mem_of_pipelined? hpiped hc)
  | none =>
    unfold pipelined? at hpiped
    split at hpiped
    · rename_i command hcommands
      rw [hcommands] at hc ⊢
      rw [List.mem_singleton.mp hc]
      exact List.infix_refl _
    · cases hpiped

/-- All bars of an enclosed text are in the text around it. -/
theorem Encloses.bars_le {outer inner : BodyRun co} (h : Encloses outer inner) {text nested : String}
    (houter : outer.Gives text) (hinner : inner.Gives nested) : bars nested ≤ bars text := by
  obtain ⟨pipeline, chain, hgives, hmem⟩ := h.command
  obtain rfl := hinner.unique hgives
  obtain ⟨rest, rfl⟩ := hgives.eq_pipe (by rw [h.scope_eq]; rfl)
  calc bars ("pipe " ++ rest) = bars rest := by simp [bars]
    _ = bars (embedded ("pipe " ++ rest)) := (count_bar_embedded rest).symm
    _ ≤ bars (blockCommand outer.scope (embedded ("pipe " ++ rest)) chain) :=
      bars_le_of_infix (infix_blockCommand _ _ _)
    _ ≤ bars text := bars_le_of_infix (houter.command_in_text hmem)

/-! ## Markers -/

theorem Encloses.forcePipe {outer inner : BodyRun co} (h : Encloses outer inner) : inner.scope.forcePipe = true := by
  rw [h.scope_eq]
  rfl

theorem Encloses.numbered {outer inner : BodyRun co} (h : Encloses outer inner)
    (hmode : outer.scope.delimiter = .numbered) : inner.scope.delimiter = .numbered := by
  rw [h.scope_eq]
  simp [Scope.nested, hmode]

/-- A body with a block in it gets a number between bars: the scan finds the marker of the block. -/
theorem Encloses.choose_numbered {outer inner : BodyRun co} (h : Encloses outer inner)
    (hmode : outer.scope.delimiter = .numbered) {text : String} (hgives : outer.Gives text)
    (hsize : bars text ≤ maxSigned) {commands : List String}
    (hpiped : pipelined? outer.scope.forcePipe outer.fragment.commands = some commands) :
    ∃ n, Marker.choose commands = .numbered n := by
  obtain ⟨nested, chain, hnested, hmem⟩ := h.command
  have hbars := h.bars_le hgives hnested
  obtain rfl := hnested.eq_numbered (h.numbered hmode) (inner.pipelined?_forced h.forcePipe)
  -- The number of the nested marker is below the number of bars, so that the scan can read it.
  have hnumber : ∀ n, Marker.choose (pipedCommands inner.fragment.commands) = .numbered n → n ≤ maxSigned := by
    intro n hn
    have hlt := lt_bars_of_choose hn (Marker.choose (pipedCommands inner.fragment.commands)).text
    omega
  have hfound := mem_found_blockCommand hnumber outer.scope (pipedCommands inner.fragment.commands) chain
  cases hchoice : Marker.choose commands with
  | numbered n => exact ⟨n, rfl⟩
  | bare =>
    have hunreadable := choose_eq_bare_iff.mp hchoice _ (mem_of_pipelined? hpiped hmem)
    rw [Marker.found_eq_nil_iff.mpr hunreadable] at hfound
    cases hfound

theorem text_infix_of_pipe (m : Marker) {text : String} (h : m.text.toList <:+: ("pipe " ++ text).toList) :
    m.text.toList <:+: text.toList := by
  obtain ⟨tail, htail⟩ : ∃ tail, m.text.toList = '|' :: tail := by
    cases m with
    | bare => exact ⟨[], rfl⟩
    | numbered n => exact ⟨_, Marker.toList_text_numbered n⟩
  rw [htail] at h ⊢
  simpa [List.infix_cons_iff] using h

/-- A marker in the text of a block is in a command of the body around it. -/
theorem Encloses.marker_in_command {outer inner : BodyRun co} (h : Encloses outer inner) (m : Marker) {text : String}
    (hgives : inner.Gives text) (hin : m.text.toList <:+: text.toList) :
    ∃ c ∈ outer.fragment.commands, m.text.toList <:+: c.toList := by
  obtain ⟨nested, chain, hnested, hmem⟩ := h.command
  obtain rfl := hgives.unique hnested
  obtain ⟨rest, rfl⟩ := hgives.eq_pipe h.forcePipe
  refine ⟨_, hmem, (text_infix_embedded m (text_infix_of_pipe m hin)).trans (infix_blockCommand _ _ _)⟩

/-- The same for blocks at any depth: each level hands the marker on. -/
theorem marker_in_command_of_transGen {outer inner : BodyRun co} (h : Relation.TransGen Encloses outer inner)
    (m : Marker) {text : String} (hgives : inner.Gives text) (hin : m.text.toList <:+: text.toList) :
    ∃ c ∈ outer.fragment.commands, m.text.toList <:+: c.toList := by
  induction h using Relation.TransGen.head_induction_on with
  | single h => exact h.marker_in_command m hgives hin
  | head h _ ih =>
    obtain ⟨c, hc, hin⟩ := ih
    obtain ⟨nested, -, hnested, -⟩ := h.command
    exact h.marker_in_command m hnested (hin.trans (hnested.command_in_text hc))

theorem forcePipe_of_transGen {outer inner : BodyRun co} (h : Relation.TransGen Encloses outer inner) :
    inner.scope.forcePipe = true := by
  cases h with
  | single h => exact h.forcePipe
  | tail _ h => exact h.forcePipe

/-- What holds of the runs inside another one: they are numbered, and their texts are no longer than the outermost. -/
theorem reachable_numbered {root outer : BodyRun co} (h : Relation.ReflTransGen Encloses root outer)
    (hmode : root.scope.delimiter = .numbered) {text : String} (hgives : root.Gives text) :
    outer.scope.delimiter = .numbered ∧ ∃ nested, outer.Gives nested ∧ bars nested ≤ bars text := by
  induction h with
  | refl => exact ⟨hmode, text, hgives, le_rfl⟩
  | tail _ h ih =>
    obtain ⟨hmode, middle, hmiddle, hle⟩ := ih
    obtain ⟨nested, -, hnested, -⟩ := h.command
    exact ⟨h.numbered hmode, nested, hnested, (h.bars_le hmiddle hnested).trans hle⟩

end BodyRun

open Relation (ReflTransGen TransGen)

/-- Take the body itself or that of a block inside it, at any depth, with a block among its actions. If it becomes a
pipeline, its marker is a number between bars that occurs in none of its commands, and every pipeline inside it, at any
depth, has a different marker. -/
def MarkersDiffer (root : BodyRun co) : Prop :=
  ∀ outer, ReflTransGen BodyRun.Encloses root outer →
    ∀ actions bodySpan chain span, .compiled actions bodySpan chain span ∈ outer.body.actions →
      ∀ commands, pipelined? outer.scope.forcePipe outer.fragment.commands = some commands →
        ∃ n, outer.Gives (pipeline (Marker.numbered n).text commands) ∧
          (∀ c ∈ commands, ¬ (Marker.numbered n).text.toList <:+: c.toList) ∧
            ∀ inner, TransGen BodyRun.Encloses outer inner → ∃ marker : Marker,
              inner.Gives (pipeline marker.text (pipedCommands inner.fragment.commands)) ∧
                marker.text ≠ (Marker.numbered n).text

/-- **Enclosing pipelines have markers of their own.** In numbered mode this holds of the body of every alias that
compiles to a command of less than 2^63 characters. No text in memory has more. -/
theorem enclosing_markers_differ {settings : Settings} (hmode : settings.delimiter = .numbered) {a : Alias}
    {t t' : Trace} {out : CompiledAlias} (h : runFrom (compileAlias co settings a) t = (.ok out, t'))
    (hsize : out.command.length ≤ maxSigned) :
    ∃ (root : BodyRun co) (text : String), root.IsRoot settings a t ∧ root.Gives text ∧
      out.command = s!"$alias {settings.verb.text} {a.name} {text}" ∧ MarkersDiffer root := by
  obtain ⟨root, text, hroot, hgives, hcommand⟩ := compileAlias_ok h
  refine ⟨root, text, hroot, hgives, hcommand, fun outer hreach actions bodySpan chain span hblock commands hpiped => ?_⟩
  have hbars : bars text ≤ maxSigned := by
    have hin : text.toList <:+: out.command.toList :=
      ⟨("$alias " ++ settings.verb.text ++ " " ++ a.name ++ " ").toList, [], by simp [hcommand, toString]⟩
    have hlength := bars_le_length out.command
    have hle := bars_le_of_infix hin
    omega
  obtain ⟨hnumbered, nested, hnested, hle⟩ := BodyRun.reachable_numbered hreach (by rw [hroot.scope_eq]; exact hmode) hgives
  obtain ⟨earlier, later, hactions⟩ := List.append_of_mem hblock
  obtain ⟨first, hfirst, -⟩ := outer.exists_encloses hactions
  obtain ⟨n, hn⟩ := hfirst.choose_numbered hnumbered hnested (hle.trans hbars) hpiped
  have hfree : ∀ c ∈ commands, ¬ (Marker.numbered n).text.toList <:+: c.toList := fun c hc => not_infix_of_choose hn hc
  refine ⟨n, ?_, hfree, fun inner hinside => ?_⟩
  · rw [← hn, ← hnested.eq_numbered hnumbered hpiped]
    exact hnested
  · obtain ⟨hinner, inside, hinside', -⟩ := BodyRun.reachable_numbered
      (hreach.trans hinside.to_reflTransGen) (by rw [hroot.scope_eq]; exact hmode) hgives
    obtain rfl := hinside'.eq_numbered hinner (inner.pipelined?_forced (BodyRun.forcePipe_of_transGen hinside))
    -- The inner marker has come through to a command of `outer`, and there the number between bars does not occur.
    refine ⟨_, hinside', fun hsame => ?_⟩
    obtain ⟨c, hc, hin⟩ := BodyRun.marker_in_command_of_transGen hinside _ hinside' (marker_infix_pipeline _ _)
    rw [hsame] at hin
    exact hfree c (mem_of_pipelined? hpiped hc) hin

def nestingAlias : Alias :=
  ⟨"nest", none,
    ⟨[.compiled [.compiled [running "a"] .origin [] .origin] .origin [] .origin, running "b"], .origin⟩, .origin⟩

def tersely : Settings := { errorInfo := false }

/-- The length of the command that it compiles to. -/
def nestingLength : {n : Nat // (runFrom (compileAlias (standalone fun _ => "") tersely nestingAlias)
    {}).1.toOption.map (·.command.length) = some n} := ⟨148, by decide +kernel⟩

theorem nested_blocks_have_own_markers :
    tersely.delimiter = .numbered ∧ ∃ out t',
      runFrom (compileAlias (standalone fun _ => "") tersely nestingAlias) {} = (.ok out, t') ∧
        out.command.length ≤ maxSigned ∧ ∃ (root : BodyRun (standalone fun _ => "")) (text : String),
          root.IsRoot tersely nestingAlias {} ∧ root.Gives text ∧
            out.command = s!"$alias {tersely.verb.text} {nestingAlias.name} {text}" ∧ MarkersDiffer root := by
  obtain ⟨out, t', hrun, hlength⟩ := exists_ok_of_map nestingLength.2
  have hfits : out.command.length ≤ maxSigned := hlength.trans_le (by decide)
  exact ⟨rfl, out, t', hrun, hfits, enclosing_markers_differ rfl hrun hfits⟩

end AliasLang.Command
