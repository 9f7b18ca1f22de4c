/-
Unused functions. A function declaration goes when no other piece of the script has its name as a word, so no word of
what remains is that name. The substitutions of a template are not looked at: a function that only they use goes all
the same, and then the emitted code uses what it does not declare.
-/
import AliasLang.Proofs.Script.Passes
import AliasLang.Proofs.Token.Lexeme
import Mathlib.Data.List.Flatten
import Mathlib.Tactic.Conv

namespace AliasLang.Script

/-! ## Uses of a name -/

/-- The characters of the substitutions of a template literal, from some part of it on, with a blank for each other
character. `outer` holds the brace depths of the substitutions around the current template. -/
def substituted (part : TemplatePart) (outer : List Nat) : List Char → List Char
  | [] => []
  | c :: cs =>
    match part with
    | .text _ =>
      if c = '\\' then
        match cs with
        | [] => [' ']
        | _ :: rest => ' ' :: ' ' :: substituted part outer rest
      else if c = '`' then
        match outer with
        | [] => [' ']
        | depth :: outer => ' ' :: substituted (.code 0 depth) outer cs
      else if c = '$' && cs.head? = some '\x7b' then
        match cs with
        | [] => [' ']
        | _ :: rest => ' ' :: ' ' :: substituted (.code 0 1) outer rest
      else ' ' :: substituted part outer cs
    | .code _ depth =>
      if c = '\x7b' then c :: substituted (.code 0 (depth + 1)) outer cs
      else if c = '\x7d' then ' ' :: substituted (if depth ≤ 1 then .text 0 else .code 0 (depth - 1)) outer cs
      else if c = '"' || c = '\x27' then ' ' :: substituted (.string c 0 0 depth) outer cs
      else if c = '`' then ' ' :: substituted (.text 0) (depth :: outer) cs
      else c :: substituted part outer cs
    | .string quote _ _ depth =>
      if c = '\\' then
        match cs with
        | [] => [' ']
        | _ :: rest => ' ' :: ' ' :: substituted part outer rest
      else if c = quote then ' ' :: substituted (.code 0 depth) outer cs
      else ' ' :: substituted part outer cs

/-- The words that code may look up when it comes to a token: a word itself, and those in the substitutions of a
template literal. -/
def Token.uses (t : Token) : List String :=
  match t.kind with
  | .word => [t.text]
  | .template => ((substituted (.text 0) [] (t.text.toList.drop 1)).splitOnP fun c => !isWordPart c).map String.ofList
  | _ => []

/-! ## Removed functions -/

/-- The name that a piece declares. -/
def Piece.name? : Piece → Option String
  | .token _ => none
  | .declaration name _ => some name

/-- The names of the functions that go in one round. -/
def droppedNames (ts : List Token) : List String :=
  (pieces ts).filterMap fun p => if p ∈ dropUnmentioned [] (pieces ts) then none else p.name?

/-- What one round keeps. -/
def keptTokens (ts : List Token) : List Token := (dropUnmentioned [] (pieces ts)).flatMap Piece.tokens

/-- The names of the functions that go in all rounds. -/
def removedNames (ts : List Token) : List String :=
  droppedNames ts ++ if (keptTokens ts).length < ts.length then removedNames (keptTokens ts) else []
termination_by ts.length
decreasing_by assumption

/-! ## One round -/

theorem dropUnmentioned_sublist (before ps : List Piece) : (dropUnmentioned before ps).Sublist ps := by
  fun_induction dropUnmentioned before ps with
  | case1 => exact .slnil
  | case2 before after t ih => exact ih.cons_cons _
  | case3 before after name tokens hmentioned ih => exact ih.cons_cons _
  | case4 before after name tokens hunmentioned ih => exact ih.cons _

theorem mentions_append (name : String) (a b : List Piece) :
    Piece.mentions name (a ++ b) = (Piece.mentions name a || Piece.mentions name b) := by
  simp [Piece.mentions]

theorem mentions_of_sublist {name : String} {a b : List Piece} (h : a.Sublist b)
    (hb : Piece.mentions name b = false) : Piece.mentions name a = false := by
  simp only [Piece.mentions, List.any_eq_false] at hb ⊢
  exact fun p hp => hb p (h.subset hp)

/-- A piece that stays behind others is mentioned with them. -/
theorem mentions_kept {name : String} {p : Piece} {before kept : List Piece}
    (h : Piece.mentions name (before ++ [p]) = false ∧ Piece.mentions name kept = false) :
    Piece.mentions name before = false ∧ Piece.mentions name (p :: kept) = false := by
  rw [mentions_append, Bool.or_eq_false_iff] at h
  rw [← List.singleton_append, mentions_append, h.1.2, h.2]
  exact ⟨h.1.1, rfl⟩

/-- A declaration that goes is mentioned neither before nor by what stays. -/
theorem dropUnmentioned_mentions {before ps : List Piece} {name : String} {tokens : List Token}
    (hin : .declaration name tokens ∈ ps) (hout : .declaration name tokens ∉ dropUnmentioned before ps) :
    Piece.mentions name before = false ∧ Piece.mentions name (dropUnmentioned before ps) = false := by
  fun_induction dropUnmentioned before ps with
  | case1 => cases hin
  | case2 before after t ih =>
    rw [List.mem_cons, not_or] at hout
    exact mentions_kept (ih (List.mem_of_ne_of_mem hout.1 hin) hout.2)
  | case3 before after name' tokens' hmentioned ih =>
    rw [List.mem_cons, not_or] at hout
    exact mentions_kept (ih (List.mem_of_ne_of_mem hout.1 hin) hout.2)
  | case4 before after name' tokens' hunmentioned ih =>
    rcases List.mem_cons.mp hin with hhere | hlater
    · obtain ⟨rfl, -⟩ := Piece.declaration.inj hhere
      rw [Bool.not_eq_true, Bool.or_eq_false_iff] at hunmentioned
      exact ⟨hunmentioned.1, mentions_of_sublist (dropUnmentioned_sublist _ _) hunmentioned.2⟩
    · have h := ih hlater hout
      rw [mentions_append, Bool.or_eq_false_iff] at h
      exact ⟨h.1.1, h.2⟩

theorem mem_droppedNames {ts : List Token} {name : String} :
    name ∈ droppedNames ts ↔
      ∃ tokens, .declaration name tokens ∈ pieces ts ∧ .declaration name tokens ∉ dropUnmentioned [] (pieces ts) := by
  rw [droppedNames, List.mem_filterMap]
  constructor
  · rintro ⟨p, hp, hname⟩
    cases p with
    | token t => simp [Piece.name?] at hname
    | declaration name' tokens =>
      by_cases hkept : .declaration name' tokens ∈ dropUnmentioned [] (pieces ts)
      · simp [hkept] at hname
      · obtain rfl : name' = name := by simpa [hkept, Piece.name?] using hname
        exact ⟨tokens, hp, hkept⟩
  · rintro ⟨tokens, hin, hout⟩
    exact ⟨.declaration name tokens, hin, by simp [hout, Piece.name?]⟩

/-- No word of what one round keeps is the name of a function that goes in it. -/
theorem isWord_keptTokens {ts : List Token} {name : String} (h : name ∈ droppedNames ts) :
    ∀ t ∈ keptTokens ts, t.isWord name = false := by
  obtain ⟨tokens, hin, hout⟩ := mem_droppedNames.mp h
  have hkept := (dropUnmentioned_mentions hin hout).2
  intro t ht
  obtain ⟨p, hp, htp⟩ := List.mem_flatMap.mp ht
  have hp := List.any_eq_false.mp hkept p hp
  rw [Bool.not_eq_true, List.any_eq_false] at hp
  simpa using hp t htp

/-! ## All rounds -/

theorem keptTokens_sublist (ts : List Token) : (keptTokens ts).Sublist ts := by
  have h := (dropUnmentioned_sublist [] (pieces ts)).flatMap Piece.tokens
  rwa [pieces, piecesFrom_tokens] at h

/-- A further round changes nothing at the end. -/
theorem dropUnused_keptTokens (ts : List Token) : dropUnused (keptTokens ts) = dropUnused ts := by
  by_cases hshorter : (keptTokens ts).length < ts.length
  · conv_rhs => rw [dropUnused]
    exact (if_pos hshorter).symm
  · rw [(keptTokens_sublist ts).eq_of_length_le (by omega)]

theorem dropUnused_of_keptTokens {ts : List Token} (h : keptTokens ts = ts) : dropUnused ts = ts := by
  have hsame : ¬(keptTokens ts).length < ts.length := by
    rw [h]
    exact Nat.lt_irrefl _
  rw [dropUnused]
  exact if_neg hsame

theorem isWord_semicolon (name : String) (t : Token) (h : t.isPunct ";" = true) : t.isWord name = false := by
  simp only [Token.isPunct, Bool.and_eq_true, decide_eq_true_eq] at h
  simp [Token.isWord, h.1]

theorem isWord_dropUnused {ts : List Token} {name : String} (h : name ∈ removedNames ts) :
    ∀ t ∈ dropUnused ts, t.isWord name = false := by
  fun_induction removedNames ts with
  | case1 ts ih =>
    rw [← dropUnused_keptTokens]
    rcases List.mem_append.mp h with hround | hlater
    · exact (dropUnused_edited _).forall_mem (isWord_semicolon name) (isWord_keptTokens hround)
    · split at hlater
      · rename_i hshorter
        exact ih hshorter hlater
      · cases hlater

/-- The tokens that the passes before the dropping of unused functions give. -/
def beforeShaking (options : Options) (ts : List Token) : List Token :=
  shorten { options with treeShake := false, minifySyntax := false } ts

theorem shorten_eq {options : Options} (h : options.treeShake = true) (ts : List Token) :
    shorten options ts = if options.minifySyntax then dropSemicolons (dropUnused (beforeShaking options ts))
      else dropUnused (beforeShaking options ts) := by
  simp [shorten, beforeShaking, h]

/-- **What uses a function that was removed.** Only a substitution of a template of the script can. -/
theorem removed_function_used_only_by_templates {options : Options} {script : String} {ts : List Token} {name : String}
    (hshake : options.treeShake = true) (h : tokenize script = .ok ts)
    (hremoved : name ∈ removedNames (beforeShaking options ts)) :
    (minify options script).code = render options.minifyWhitespace (shorten options ts) ∧
      ∀ t ∈ shorten options ts, name ∈ t.uses → t.kind = .template ∧ t ∈ ts := by
  have hword : ∀ t ∈ shorten options ts, t.isWord name = false := by
    rw [shorten_eq hshake]
    have hlast := Edited.ite options.minifySyntax
      (dropSemicolonsFrom_edited none 0 (dropUnused (beforeShaking options ts)))
    exact hlast.forall_mem (isWord_semicolon name) (isWord_dropUnused hremoved)
  refine ⟨by rw [minify, h], fun t ht huses => ?_⟩
  cases hkind : t.kind with
  | word =>
    obtain rfl : name = t.text := by simpa [Token.uses, hkind] using huses
    have hno := hword t ht
    simp [Token.isWord, hkind] at hno
  | template =>
    refine ⟨rfl, ?_⟩
    rcases (shorten_edited options ts).mem t ht with ht | hsemicolon
    · exact ht
    · simp [Token.isPunct, hkind] at hsemicolon
  | number | string | regex | punctuator => simp [Token.uses, hkind] at huses

/-- Two functions of which one is used by the other alone, and a template whose text holds both names. -/
def chainedScript : String :=
  "function g() \x7b return f() \x7d\nfunction f() \x7b return 1 \x7d\nreturn `f g $\x7bh\x7d`"

theorem chained_functions_removed :
    (Options.forEmbedding true).treeShake = true ∧ ∃ ts, tokenize chainedScript = .ok ts ∧
      "f" ∈ removedNames (beforeShaking (.forEmbedding true) ts) ∧
      ∀ t ∈ shorten (.forEmbedding true) ts, "f" ∈ t.uses → t.kind = .template ∧ t ∈ ts := by
  have heval : (tokenize chainedScript).map (fun ts => removedNames (beforeShaking (.forEmbedding true) ts)) =
      .ok ["g", "f"] := by decide +kernel
  obtain ⟨ts, hts, hnames⟩ := AliasLang.Token.map_eq_ok heval
  have hremoved : "f" ∈ removedNames (beforeShaking (.forEmbedding true) ts) := by simp [hnames]
  exact ⟨rfl, ts, hts, hremoved, (removed_function_used_only_by_templates rfl hts hremoved).2⟩

/-- A function that is called in a template only. -/
def templateScript : String := "function f()\x7breturn 1\x7d\nreturn `$\x7bf()\x7d`"

/-- The function goes, and the template that stays calls it. -/
theorem template_calls_removed_function :
    ∃ ts, tokenize templateScript = .ok ts ∧ "f" ∈ removedNames (beforeShaking (.forEmbedding true) ts) ∧
      (∃ t ∈ shorten (.forEmbedding true) ts, "f" ∈ t.uses) ∧
      (minify (.forEmbedding true) templateScript).code = "return`$\x7bf()\x7d`" := by
  have heval : (tokenize templateScript).map (fun ts =>
      (removedNames (beforeShaking (.forEmbedding true) ts), shorten (.forEmbedding true) ts)) =
      .ok (["f"], [⟨.word, "return", ⟨23, 1, 0⟩, true, false⟩,
        ⟨.template, "`$\x7bf()\x7d`", ⟨30, 1, 7⟩, false, false⟩]) := by decide +kernel
  obtain ⟨ts, hts, hvalues⟩ := AliasLang.Token.map_eq_ok heval
  obtain ⟨hremoved, hshort⟩ := Prod.mk.inj hvalues
  refine ⟨ts, hts, by simp [hremoved], ?_, ?_⟩
  · rw [hshort]
    decide +kernel
  · rw [minify, hts]
    dsimp only
    rw [hshort]
    decide +kernel

end AliasLang.Script
