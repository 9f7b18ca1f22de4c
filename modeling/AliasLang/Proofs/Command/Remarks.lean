/-
Remarks on scripts in a compiled program. The minifier reports nothing on the helper functions in front of a script, so
for a script that imports nothing, each error and each warning has a place in the source between the fences.
-/
import AliasLang.Command.Program
import AliasLang.Proofs.Command.Requests
import AliasLang.Proofs.Program.ScriptPlace
import AliasLang.Proofs.Script.Preamble

namespace AliasLang.Command

open Program
open Source (Span Position)

/-- The place where a character of the script starts, when the script stands behind `front` and a fence. -/
def InsideScript (front : List Char) (script : Fenced) (span : Span) : Prop :=
  ∃ k < script.unescaped.toList.length, span =
    .point (Position.start.after (front ++ (Token.fence ++ (script.unescaped.toList.take k).flatMap Script.written)))

/-- All remarks on a script have a property of their places: those that became warnings, and the one that stopped the
compilation. Nothing else stops it. -/
def RemarksAt (P : Span → Prop) : Except Error Fragment → Prop
  | .ok f => ∀ w ∈ f.warnings, P w.span
  | .error e => ∃ message span, e = .collaborator (.script message span) ∧ P span

/-- The remarks on a script that imports nothing are those of the minifier. -/
theorem compileScript_remarks {a : ScriptAction} (himported : a.imported = none) (co : Collaborators) (scope : Scope)
    (t : Trace) {P : Span → Prop}
    (hP : ∀ d ∈ (Script.minify (Script.Options.forEmbedding scope.minifyScript)
      (Script.preamble scope.keyPrefix ++ a.script.unescaped)).diagnostics, P (remarkSpan a Script.preambleLines d)) :
    RemarksAt P (runFrom (compileScript { co with transform := minifier } scope a) t).1 := by
  unfold compileScript importedText
  rw [himported, runFrom_bind, runFrom_pure]
  dsimp only
  rw [String.append_empty, runFrom_bind, runFrom_transform]
  dsimp only [minifier]
  split
  · rename_i d hfind
    exact ⟨d.message, _, rfl, hP d (List.mem_of_find?_eq_some hfind)⟩
  · intro w hw
    obtain ⟨d, hd, rfl⟩ := List.mem_map.mp hw
    exact hP d hd

/-- A remark on a script behind the preamble is mapped to where its character starts in the source. -/
theorem remarkSpan_inside {source : String} {p : Program} (h : parse source = .ok p) {a : ScriptAction}
    (ha : a ∈ p.aliases.flatMap Alias.scripts) :
    ∃ front back,
      source.toList = front ++ (Token.fence ++
        (a.script.unescaped.toList.flatMap Script.written ++ (Token.fence ++ back))) ∧
      a.script.span = .between (Position.start.after front) (Position.start.after (front ++ (Token.fence ++
        (a.script.unescaped.toList.flatMap Script.written ++ Token.fence)))) ∧
      ∀ options keyPrefix, ∀ d ∈ (Script.minify options (Script.preamble keyPrefix ++ a.script.unescaped)).diagnostics,
        InsideScript front a.script (remarkSpan a Script.preambleLines d) := by
  obtain ⟨front, back, hsource, hspan, hraw, hascii⟩ := script_stands h ha
  refine ⟨front, back, by rw [← hraw]; exact hsource, by rw [← hraw]; exact hspan, fun options keyPrefix d hd => ?_⟩
  obtain ⟨k, ⟨c, hc, -⟩, hd⟩ := Script.remark_behind_preamble hd
  have hplaced : (Script.placed a.script keyPrefix none).take (Script.frontLength keyPrefix none + k) =
      (Script.preamble keyPrefix).toList ++ a.script.unescaped.toList.take k := by
    rw [Script.placed_eq, Script.frontLength, List.take_length_add_append,
      show Script.importText none = "" from rfl, String.append_empty]
  have hremap := Script.remap_in_script a.script keyPrefix none hspan hraw hascii k
  rw [hplaced, show Script.frontLines none = Script.preambleLines from rfl, ← Position.after_append] at hremap
  refine ⟨k, (List.getElem?_eq_some_iff.mp hc).1, ?_⟩
  generalize d.severity = severity, d.message = message at hd
  subst hd
  rw [← hremap, remarkSpan, Script.remark]

/-- **Nothing is blamed on the preamble.** Whatever the key prefix is, the preamble has three lines, and its three
literals stand for the prefix. Whatever the script behind it is, each remark of the minifier is on a later line. So a
script action that imports nothing is compiled, or fails, with remarks only on characters of the script in the
source. -/
theorem remarks_stay_inside_script (keyPrefix : String) :
    (Text.lines (Script.preamble keyPrefix)).length = 3 ∧
    (∃ ts, Script.tokenize (Script.preamble keyPrefix) = .ok ts ∧
      (ts.filter (·.kind = .string)).map (fun t => Script.literalValue? t.text) =
        [some keyPrefix, some keyPrefix, some keyPrefix]) ∧
    (∀ options script, ∀ d ∈ (Script.minify options (Script.preamble keyPrefix ++ script)).diagnostics, 4 ≤ d.line) ∧
    ∀ source p a, parse source = .ok p → a ∈ p.aliases.flatMap Alias.scripts → a.imported = none →
      ∃ front back,
        source.toList = front ++ (Token.fence ++
          (a.script.unescaped.toList.flatMap Script.written ++ (Token.fence ++ back))) ∧
        a.script.span = .between (Position.start.after front) (Position.start.after (front ++ (Token.fence ++
          (a.script.unescaped.toList.flatMap Script.written ++ Token.fence)))) ∧
        ∀ (co : Collaborators) (scope : Scope) (t : Trace), scope.keyPrefix = keyPrefix →
          RemarksAt (InsideScript front a.script)
            (runFrom (compileScript { co with transform := minifier } scope a) t).1 := by
  refine ⟨Script.length_lines_preamble keyPrefix, ?_, fun _ _ _ => Script.line_behind_preamble, ?_⟩
  · obtain ⟨ts, hread, hmarks⟩ := Script.tokenize_preamble keyPrefix
    exact ⟨ts, hread, Script.literals_preamble hmarks⟩
  · intro source p a hparse ha himported
    obtain ⟨front, back, hsource, hspan, hinside⟩ := remarkSpan_inside hparse ha
    refine ⟨front, back, hsource, hspan, fun co scope t _ => ?_⟩
    exact compileScript_remarks himported co scope t (hinside _ scope.keyPrefix)

/-- A script of two lines with a bracket that nothing closes. -/
def unclosedSource : String := "alias aa js ```x\n\\`\\`(y``` end"

/-- The script of the source. -/
def unclosedScript : ScriptAction := ⟨none, ⟨"x\n\\`\\`(y", ⟨12, 26, 1, 13⟩⟩, ⟨9, 26, 1, 10⟩⟩

/-- A scope whose key prefix would end a literal, a function and a line. -/
def quotedScope : Scope := ⟨"aa", "\"\x7d\n`/*", .numbered, false, false, false, true, false⟩

/-- What is reported on the bracket is reported inside the script, whatever the prefix would end. -/
theorem unclosed_bracket_inside_script :
    ∃ p front, parse unclosedSource = .ok p ∧ unclosedScript ∈ p.aliases.flatMap Alias.scripts ∧
      RemarksAt (InsideScript front unclosedScript.script)
        (runFrom (compileScript (standalone fun _ => "") quotedScope unclosedScript) {}).1 := by
  have heval : (parse unclosedSource).map (·.aliases.flatMap Alias.scripts) = .ok [unclosedScript] := by decide +kernel
  obtain ⟨p, hp, hscripts⟩ := Token.map_eq_ok heval
  have hmem : unclosedScript ∈ p.aliases.flatMap Alias.scripts := by
    rw [hscripts]
    exact List.mem_cons_self
  obtain ⟨-, -, -, hinside⟩ := remarks_stay_inside_script quotedScope.keyPrefix
  obtain ⟨front, back, -, -, hremarks⟩ := hinside unclosedSource p unclosedScript hp hmem rfl
  exact ⟨p, front, hp, hmem, hremarks (standalone fun _ => "") quotedScope {} rfl⟩

end AliasLang.Command
