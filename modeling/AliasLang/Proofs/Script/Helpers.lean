/-
The helper functions in front of a script. Where a script uses none of them, they leave no trace: all three go in the
first round, and so does a semicolon behind the last of them. Their words count as mentions in that round, so a
function of the script with one of those words as its name may go a round later than it does without them. That moves
no token but semicolons.
-/
import AliasLang.Proofs.Script.LineBreaks
import AliasLang.Proofs.Script.Preamble
import AliasLang.Proofs.Script.Shaking

namespace AliasLang.Script

/-! ## The tokens of the helpers -/

/-- The names of the helpers. -/
def helperName : Fin 3 → String
  | 0 => "getLocal"
  | 1 => "setLocal"
  | 2 => "getLocalPrefix"

/-- The tokens of a helper. -/
def helperTokens (keyPrefix : String) (i : Fin 3) : List Token := (helper keyPrefix i).map Lexeme.token

section
variable (keyPrefix : String) (i : Fin 3)

/-- The keyword of a helper. -/
def helperKeyword : Fin 3 → Token
  | 0 => Lexeme.token ⟨[], .word, "function".toList⟩
  | _ => Lexeme.token ⟨['\n'], .word, "function".toList⟩

/-- The brace that ends a helper. -/
def helperBrace : Token := (Lexeme.punct "\x7d").token

theorem helperTokens_eq : helperTokens keyPrefix i = helperKeyword i :: (helperTokens keyPrefix i).tail := by
  match i with
  | 0 | 1 | 2 => rfl

theorem getLast?_helperTokens : (helperTokens keyPrefix i).getLast? = some helperBrace := by
  match i with
  | 0 | 1 | 2 => rfl

theorem declarationLength?_helperTokens (after : List Token) :
    declarationLength? ((helperTokens keyPrefix i).tail ++ after) =
      some (helperName i,
        (helperTokens keyPrefix i).tail.length + if after.head?.any (·.isPunct ";") then 1 else 0) := by
  match i with
  | 0 | 1 | 2 => rfl

theorem any_isWord_helperTokens (j : Fin 3) :
    (helperTokens keyPrefix i).any (·.isWord (helperName j)) = decide (i = j) := by
  match i, j with
  | 0, 0 | 0, 1 | 0, 2 | 1, 0 | 1, 1 | 1, 2 | 2, 0 | 2, 1 | 2, 2 => rfl

theorem newlineBefore_helperTokens : (helperTokens keyPrefix i).tail.all (!·.newlineBefore) = true := by
  match i with
  | 0 | 1 | 2 => rfl

theorem isWord_console_helperTokens : (helperTokens keyPrefix i).all (!·.isWord "console") = true := by
  match i with
  | 0 | 1 | 2 => rfl

end

theorem map_token_helpers (keyPrefix : String) : (helpers keyPrefix).map Lexeme.token =
    helperTokens keyPrefix 0 ++ (helperTokens keyPrefix 1 ++ helperTokens keyPrefix 2) := by
  rw [helpers, List.map_append, List.map_append]
  rfl

/-! ## Reading -/

theorem isControlKeyword_helper {keyPrefix : String} {hs : List Token}
    (hmarks : hs.map Token.marks = (helpers keyPrefix).map fun x => x.token.marks) :
    ∀ t ∈ hs, t.isControlKeyword = false := by
  intro t ht
  rw [← Bool.not_eq_true, Token.isControlKeyword, Bool.and_eq_true, decide_eq_true_eq]
  rintro ⟨hword, hkeyword⟩
  have hmem := mem_helperWords_of_marks hmarks ht hword
  have hnot : ∀ text ∈ helperWords, controlKeywords.contains text = false := by decide
  rw [hnot _ hmem] at hkeyword
  cases hkeyword

/-- No head of a statement is closed in the helpers. -/
theorem controlClose_helper {keyPrefix script : String} {hs us : List Token}
    (hmarks : hs.map Token.marks = (helpers keyPrefix).map fun x => x.token.marks)
    (hall : tokenize script = .ok (hs ++ us)) : ∀ t ∈ hs, t.controlClose = false := by
  intro t ht
  have hkeyword := isControlKeyword_helper hmarks
  obtain ⟨front, back, rfl⟩ := List.append_of_mem ht
  rw [← Bool.not_eq_true]
  intro hclose
  rw [List.append_assoc, List.cons_append] at hall
  obtain ⟨-, before, paren, inner, rfl, -, -, u, hlast, hu⟩ :=
    ((partitions_of_tokenize hall).control front t _ rfl).mp hclose
  have hnot := hkeyword u (by simp [List.mem_of_getLast? hlast])
  rw [isControlKeyword_iff.mpr hu] at hnot
  cases hnot

theorem unplaced_of_marks {xs : List Lexeme} {hs : List Token}
    (hmarks : hs.map Token.marks = xs.map fun x => x.token.marks) (hclose : ∀ t ∈ hs, t.controlClose = false) :
    hs.map Token.unplaced = xs.map Lexeme.token := by
  let token : Kind × String × Bool → Token := fun m => ⟨m.1, m.2.1, .start, m.2.2, false⟩
  have htoken : ∀ t ∈ hs, t.unplaced = token t.marks := by
    intro t ht
    have hclose := hclose t ht
    obtain ⟨kind, text, place, newlineBefore, controlClose⟩ := t
    cases hclose
    rfl
  calc hs.map Token.unplaced = (hs.map Token.marks).map token := by
        rw [List.map_map]
        exact List.map_congr_left htoken
    _ = xs.map Lexeme.token := by
      rw [hmarks, List.map_map]
      rfl

/-- Behind the preamble a script is read as it is alone, unless it starts with a regular expression. -/
theorem tokenize_with_helpers (keyPrefix : String) {script : String} {ts : List Token} (h : tokenize script = .ok ts)
    (hregex : ∀ t ∈ ts.head?, t.kind ≠ .regex) :
    ∃ all, tokenize (preamble keyPrefix ++ script) = .ok all ∧
      all.map Token.unplaced = (helpers keyPrefix).map Lexeme.token ++ broken (ts.map Token.unplaced) := by
  obtain ⟨hs, hmarks, hread⟩ := tokenize_behind_preamble keyPrefix script
  have hlast : hs.getLast?.any Token.isControlKeyword = false := by
    cases hlast : hs.getLast? with
    | none => rfl
    | some t => exact isControlKeyword_helper hmarks t (List.mem_of_getLast? hlast)
  obtain ⟨us, hus, hsame⟩ := tokensFrom_behind h hregex hlast
    (Source.Position.start.after (charsOf (helpers keyPrefix)))
  rw [hus] at hread
  have hall : tokenize (preamble keyPrefix ++ script) = .ok (hs ++ us) := hread
  refine ⟨hs ++ us, hall, ?_⟩
  rw [List.map_append, hsame, unplaced_of_marks hmarks (controlClose_helper hmarks hall)]

/-! ## Passes before the rounds -/

theorem insertSemicolons_helper (keyPrefix : String) (i : Fin 3) (b : List Token) :
    insertSemicolons (helperTokens keyPrefix i ++ b) =
      helperTokens keyPrefix i ++ (semicolonBetween helperBrace b ++ insertSemicolons b) := by
  rw [insertSemicolons_append (getLast?_helperTokens keyPrefix i),
    insertSemicolons_of_unbroken (newlineBefore_helperTokens keyPrefix i)]

/-- A statement has ended with a helper, and with a semicolon behind it. -/
theorem dropConsoleFrom_helper (keyPrefix : String) (i : Fin 3) {gap : List Token}
    (hgap : gap = [] ∨ gap = [helperBrace.semicolonAfter]) (last : Option Token) (b : List Token) :
    dropConsoleFrom last (helperTokens keyPrefix i ++ (gap ++ b)) =
      helperTokens keyPrefix i ++ (gap ++ dropConsole b) := by
  have hlast : ∀ {p : Token}, p = helperBrace ∨ p = helperBrace.semicolonAfter →
      dropConsoleFrom (some p) b = dropConsole b := by
    intro p hp
    refine dropConsoleFrom_congr (isBlockPosition_of_endsBlockPart ?_) ?_ b
    · intro q hq
      cases hq
      rcases hp with rfl | rfl
      · exact .inr (.inr (by decide))
      · exact .inl (by decide)
    · rcases hp with rfl | rfl <;> decide
  rw [dropConsoleFrom_append (isWord_console_helperTokens keyPrefix i), getLast?_helperTokens, Option.some_or]
  rcases hgap with rfl | rfl
  · rw [List.nil_append, List.nil_append, hlast (.inl rfl)]
  · have hsemicolon : [helperBrace.semicolonAfter].all (!·.isWord "console") = true := by decide
    rw [dropConsoleFrom_append hsemicolon, List.getLast?_singleton, Option.some_or, hlast (.inr rfl)]

/-- The helpers with semicolons between them, in front of a script from which `gap` parts them. -/
def behindHelpers (keyPrefix : String) (gap ts : List Token) : List Token :=
  [helperBrace.semicolonAfter].intercalate (List.ofFn (helperTokens keyPrefix)) ++ (gap ++ ts)

theorem behindHelpers_eq (keyPrefix : String) (gap ts : List Token) : behindHelpers keyPrefix gap ts =
    helperTokens keyPrefix 0 ++ helperBrace.semicolonAfter :: (helperTokens keyPrefix 1 ++
      helperBrace.semicolonAfter :: (helperTokens keyPrefix 2 ++ (gap ++ ts))) := by
  simp [behindHelpers, List.ofFn_succ, List.intercalate]

/-- The helpers and a script as they come into the first round: behind each helper stands a semicolon, behind the last
one only if the script starts with a statement. -/
theorem beforeShaking_with_helpers (keyPrefix : String) (us : List Token) :
    dropConsole (insertSemicolons ((helpers keyPrefix).map Lexeme.token ++ us)) =
      behindHelpers keyPrefix (semicolonBetween helperBrace us) (dropConsole (insertSemicolons us)) := by
  have hnext : ∀ {i : Fin 3} {b : List Token}, i ≠ 0 →
      semicolonBetween helperBrace (helperTokens keyPrefix i ++ b) = [helperBrace.semicolonAfter] := by
    intro i b hi
    match i with
    | 0 => exact absurd rfl hi
    | 1 | 2 => rfl
  rw [behindHelpers_eq, map_token_helpers, List.append_assoc, List.append_assoc, insertSemicolons_helper,
    hnext (by decide), insertSemicolons_helper, hnext (by decide), insertSemicolons_helper, dropConsole,
    dropConsoleFrom_helper keyPrefix 0 (.inr rfl), dropConsole, dropConsoleFrom_helper keyPrefix 1 (.inr rfl),
    dropConsole, dropConsoleFrom_helper keyPrefix 2 (semicolonBetween_cases helperBrace us)]
  rfl

/-! ## Parts -/

/-- A helper as a part. -/
def helperPart (keyPrefix : String) (i : Fin 3) : Part :=
  (Piece.declaration (helperName i) (helperTokens keyPrefix i)).part

/-- The helpers as parts. -/
def helperParts (keyPrefix : String) : List Part := List.ofFn (helperPart keyPrefix)

theorem helperParts_eq (keyPrefix : String) :
    helperParts keyPrefix = [helperPart keyPrefix 0, helperPart keyPrefix 1, helperPart keyPrefix 2] := by
  simp [helperParts, List.ofFn_succ]

theorem isWord_helperKeyword (i : Fin 3) : (helperKeyword i).isWord "function" = true := by
  match i with
  | 0 | 1 | 2 => rfl

theorem endsBlockPart_helper (keyPrefix : String) (i : Fin 3) : EndsBlockPart (helperTokens keyPrefix i).getLast? := by
  rw [getLast?_helperTokens]
  intro p hp
  cases hp
  exact .inr (.inr (by decide))

theorem isPunct_semicolonAfter_helper : helperBrace.semicolonAfter.isPunct ";" = true := by decide

/-- A helper is cut off with the semicolon that follows it. -/
theorem pieces_helper (keyPrefix : String) (i : Fin 3) (after : List Token) :
    ∃ p tail rest, p.part = helperPart keyPrefix i ∧ after = tail ++ rest ∧
      (tail = [] ∧ rest.head?.any (·.isPunct ";") = false ∨ ∃ s, tail = [s] ∧ s.isPunct ";" = true) ∧
      pieces (helperTokens keyPrefix i ++ after) = p :: pieces rest := by
  obtain ⟨tail, rest, hsplit, htail, hcut⟩ := piecesFrom_core (isWord_helperKeyword i) endsBlockPart_none
    (declarationLength?_helperTokens keyPrefix i after)
  simp only [← List.cons_append, ← helperTokens_eq] at hcut
  have hends : EndsBlockPart (helperTokens keyPrefix i ++ tail).getLast? := by
    rcases htail with ⟨rfl, -⟩ | ⟨s, rfl, hs⟩
    · rw [List.append_nil]
      exact endsBlockPart_helper keyPrefix i
    · rw [List.getLast?_concat]
      exact endsBlockPart_of_semicolon hs
  rw [piecesFrom_of_endsBlockPart hends] at hcut
  have hpart : (Piece.declaration (helperName i) (helperTokens keyPrefix i ++ tail)).part = helperPart keyPrefix i :=
    congrArg (Part.mk _) (bare_append_semicolon (htail.imp_left And.left) (helperTokens keyPrefix i))
  exact ⟨_, tail, rest, hpart, hsplit, htail, hcut⟩

/-- The tokens `rest` are the tokens `ts`, or all of them but a semicolon at the front. -/
def IsRest (ts rest : List Token) : Prop := rest = ts ∨ ∃ s, s.isPunct ";" = true ∧ ts = s :: rest

theorem pieces_helper_semicolon (keyPrefix : String) (i : Fin 3) (after : List Token) :
    ∃ p, p.part = helperPart keyPrefix i ∧
      pieces (helperTokens keyPrefix i ++ helperBrace.semicolonAfter :: after) = p :: pieces after := by
  obtain ⟨p, tail, rest, hpart, hsplit, htail, hcut⟩ :=
    pieces_helper keyPrefix i (helperBrace.semicolonAfter :: after)
  rcases htail with ⟨rfl, hnone⟩ | ⟨s, rfl, -⟩
  · rw [List.nil_append] at hsplit
    simp [← hsplit, isPunct_semicolonAfter_helper] at hnone
  · obtain ⟨rfl, rfl⟩ := List.cons.inj hsplit
    exact ⟨p, hpart, hcut⟩

/-- The helpers come first among the pieces, and the last of them takes a semicolon from the front of the script. -/
theorem pieces_with_helpers (keyPrefix : String) {gap : List Token}
    (hgap : gap = [] ∨ gap = [helperBrace.semicolonAfter]) (ts : List Token) :
    ∃ p q r rest, p.part = helperPart keyPrefix 0 ∧ q.part = helperPart keyPrefix 1 ∧ r.part = helperPart keyPrefix 2 ∧
      IsRest ts rest ∧ pieces (behindHelpers keyPrefix gap ts) = p :: q :: r :: pieces rest := by
  rw [behindHelpers_eq]
  obtain ⟨p, hp, hcut⟩ := pieces_helper_semicolon keyPrefix 0 (helperTokens keyPrefix 1 ++
    helperBrace.semicolonAfter :: (helperTokens keyPrefix 2 ++ (gap ++ ts)))
  obtain ⟨q, hq, hcut'⟩ := pieces_helper_semicolon keyPrefix 1 (helperTokens keyPrefix 2 ++ (gap ++ ts))
  rcases hgap with rfl | rfl
  · obtain ⟨r, tail, rest, hr, rfl, htail, hcut''⟩ := pieces_helper keyPrefix 2 ts
    refine ⟨p, q, r, rest, hp, hq, hr, ?_, by rw [hcut, hcut', List.nil_append, hcut'']⟩
    rcases htail with ⟨rfl, -⟩ | ⟨s, rfl, hs⟩
    · exact .inl rfl
    · exact .inr ⟨s, hs, rfl⟩
  · obtain ⟨r, hr, hcut''⟩ := pieces_helper_semicolon keyPrefix 2 ts
    exact ⟨p, q, r, ts, hp, hq, hr, .inl rfl, by rw [hcut, hcut', List.singleton_append, hcut'']⟩

theorem IsRest.parts_eq {ts rest : List Token} (h : IsRest ts rest) : parts (pieces rest) = parts (pieces ts) := by
  rcases h with rfl | ⟨s, hs, rfl⟩
  · rfl
  · rw [pieces_semicolon hs, parts_semicolon hs]

theorem parts_cons_helper {keyPrefix : String} {i : Fin 3} {p : Piece} (hp : p.part = helperPart keyPrefix i)
    (ps : List Piece) : parts (p :: ps) = helperPart keyPrefix i :: parts ps := by
  have hsome : bare (helperTokens keyPrefix i) ≠ [] := by
    rw [helperTokens_eq]
    simp [bare, not_semicolon_of_isWord (isWord_helperKeyword i)]
  rw [parts, List.map_cons, hp]
  exact List.filter_cons_of_pos (decide_eq_true hsome)

/-- The parts of the helpers and a script. -/
theorem parts_with_helpers (keyPrefix : String) {gap : List Token}
    (hgap : gap = [] ∨ gap = [helperBrace.semicolonAfter]) (ts : List Token) :
    parts (pieces (behindHelpers keyPrefix gap ts)) = helperParts keyPrefix ++ parts (pieces ts) := by
  obtain ⟨p, q, r, rest, hp, hq, hr, hrest, hcut⟩ := pieces_with_helpers keyPrefix hgap ts
  rw [hcut, parts_cons_helper hp, parts_cons_helper hq, parts_cons_helper hr, hrest.parts_eq, helperParts_eq]
  rfl

theorem mentions_helperPart (keyPrefix : String) (i j : Fin 3) :
    (helperPart keyPrefix i).mentions (helperName j) = decide (i = j) := by
  rw [← any_isWord_helperTokens keyPrefix i j]
  exact contains_bare (helperName j) (helperTokens keyPrefix i)

/-- No other part mentions a helper that the script does not. -/
theorem supported_helperPart (keyPrefix : String) {xs : List Part}
    (hxs : ∀ x ∈ xs, ∀ j, x.mentions (helperName j) = false) (i : Fin 3) :
    (helperPart keyPrefix i).supported (helperParts keyPrefix ++ xs) = false := by
  have hnone : xs.countP (Part.mentions (helperName i)) = 0 := by
    rw [List.countP_eq_zero]
    intro x hx
    rw [hxs x hx i]
    decide
  show decide (2 ≤ _) = false
  rw [List.countP_append, hnone]
  simp only [helperParts_eq, List.countP_cons, List.countP_nil, mentions_helperPart]
  match i with
  | 0 | 1 | 2 => decide

/-! ## What is left but for semicolons -/

/-- What comes into the rounds, with line breaks turned into semicolons and without console calls. -/
theorem dropConsole_aligned {ts : List Token} (hts : Nested ts) :
    Aligned False (MayFollow False) [] none ts (dropConsole (insertSemicolons ts)) := by
  have hinserted : Aligned False (fun _ => False) [] none ts (insertSemicolons ts) :=
    insertSemicolons_aligned fun t _ => ⟨.inl rfl, by simp [Settled]⟩
  have hnested : Nested (insertSemicolons ts) := by rw [Nested, ← hinserted.openAfter_eq, hts]
  exact dropConsoleFrom_aligned hnested (.refl [] none _) hinserted

theorem dropConsole_insertSemicolons_unbroken {a b : List Token} (h : unbroken a = unbroken b) :
    unbroken (dropConsole (insertSemicolons a)) = unbroken (dropConsole (insertSemicolons b)) := by
  rw [← dropConsole_unbroken, ← insertSemicolons_unbroken, h, insertSemicolons_unbroken, dropConsole_unbroken]

theorem dropConsole_insertSemicolons_unplaced (ts : List Token) :
    dropConsole (insertSemicolons (ts.map Token.unplaced)) =
      (dropConsole (insertSemicolons ts)).map Token.unplaced := by
  rw [insertSemicolons_unplaced]
  exact dropConsoleFrom_unplaced none (insertSemicolons ts)

/-- A script behind the helpers has the parts that it has alone. -/
theorem parts_script {us ts : List Token} (hsame : unbroken us = unbroken (ts.map Token.unplaced)) :
    parts (pieces (dropConsole (insertSemicolons us))) = parts (pieces (dropConsole (insertSemicolons ts))) := by
  rw [parts_unbroken (dropConsole_insertSemicolons_unbroken hsame), dropConsole_insertSemicolons_unplaced,
    parts_unplaced]

theorem mentions_script {ts : List Token} (hnames : ∀ t ∈ ts, ∀ i, t.isWord (helperName i) = false) :
    ∀ x ∈ parts (pieces (dropConsole (insertSemicolons ts))), ∀ i, x.mentions (helperName i) = false := by
  intro x hx i
  have hedited := (insertSemicolons_edited ts).trans (dropConsoleFrom_edited none (insertSemicolons ts))
  exact mentions_of_mem_parts (hedited.forall_mem (isWord_semicolon _) fun t ht => hnames t ht i) x hx

/-- The helpers go, and what is left of the script is what is left of it alone. -/
theorem bare_dropUnused_with_helpers {keyPrefix : String} {us ts : List Token}
    (hnested : Nested ((helpers keyPrefix).map Lexeme.token ++ us)) (hts : Nested ts)
    (hsame : unbroken us = unbroken (ts.map Token.unplaced))
    (hnames : ∀ t ∈ ts, ∀ i, t.isWord (helperName i) = false) :
    bare (dropUnused (dropConsole (insertSemicolons ((helpers keyPrefix).map Lexeme.token ++ us)))) =
      bare (dropUnused (dropConsole (insertSemicolons ts))) := by
  have hall := dropUnused_shaken hnested (dropConsole_aligned hnested)
  have halone := dropUnused_shaken hts (dropConsole_aligned hts)
  rw [beforeShaking_with_helpers, parts_with_helpers keyPrefix (semicolonBetween_cases helperBrace us),
    parts_script hsame] at hall
  have hrest := hall.of_append fun x hx => by
    obtain ⟨i, rfl⟩ := List.mem_ofFn.mp hx
    exact supported_helperPart keyPrefix (mentions_script hnames) i
  rw [bare_eq_flatMap_parts, bare_eq_flatMap_parts (dropUnused _), beforeShaking_with_helpers, hrest.unique halone]

/-! ## The first round -/

/-- A function whose name is no word of the helpers is mentioned by none of them. -/
theorem mentions_helperPart_of_notMem {name : String} (h : name ∉ helperWords) (keyPrefix : String) (i : Fin 3) :
    (helperPart keyPrefix i).mentions name = false := by
  rw [Part.mentions, helperPart, Piece.part, contains_bare, List.any_eq_false]
  intro t ht hword
  obtain ⟨x, hx, rfl⟩ := List.mem_map.mp ht
  obtain ⟨hkind, htext⟩ : x.kind = .word ∧ String.ofList x.text = name := by
    simpa [Token.isWord, Lexeme.token] using hword
  exact h (htext ▸ mem_helperWords (mem_helpers hx) hkind)

theorem supported_with_helpers (keyPrefix : String) {xs : List Part} {x : Part}
    (h : ∀ name, x.name? = some name → x.supported xs = false → name ∉ helperWords) :
    x.supported (helperParts keyPrefix ++ xs) = x.supported xs := by
  cases hsupported : x.supported xs with
  | true => exact supported_mono (List.sublist_append_right _ xs) hsupported
  | false =>
    cases hname : x.name? with
    | none => simp [Part.supported, hname] at hsupported
    | some name =>
      have hmentions := mentions_helperPart_of_notMem (h name hname hsupported) keyPrefix
      rw [← hsupported, Part.supported, Part.supported, hname]
      simp [helperParts_eq, hmentions]

/-- What the first round leaves of the script `ts` behind the helpers. -/
def firstRound (keyPrefix : String) (ts : List Token) : List Token :=
  ((pieces ts).filter fun p => p.part.supported (helperParts keyPrefix ++ parts (pieces ts))).flatMap Piece.tokens

/-- All helpers go in the first round. -/
theorem keptTokens_with_helpers (keyPrefix : String) {gap ts : List Token}
    (hgap : gap = [] ∨ gap = [helperBrace.semicolonAfter])
    (hfree : ∀ x ∈ parts (pieces ts), ∀ i, x.mentions (helperName i) = false) :
    ∃ rest, IsRest ts rest ∧ keptTokens (behindHelpers keyPrefix gap ts) = firstRound keyPrefix rest := by
  obtain ⟨p, q, r, rest, hp, hq, hr, hrest, hcut⟩ := pieces_with_helpers keyPrefix hgap ts
  have hparts := parts_with_helpers keyPrefix hgap ts
  rw [← hrest.parts_eq] at hparts hfree
  have hhelper : ∀ {p : Piece} {i : Fin 3} (ps : List Piece), p.part = helperPart keyPrefix i →
      ((p :: ps).filter fun p => p.part.supported (helperParts keyPrefix ++ parts (pieces rest))) =
        ps.filter fun p => p.part.supported (helperParts keyPrefix ++ parts (pieces rest)) := by
    intro p i ps hp
    rw [List.filter_cons_of_neg]
    rw [hp, supported_helperPart keyPrefix hfree i]
    decide
  refine ⟨rest, hrest, congrArg (List.flatMap Piece.tokens) ?_⟩
  rw [dropUnmentioned_eq_filter named_of_mem_pieces, List.nil_append, hparts, hcut, hhelper _ hp, hhelper _ hq,
    hhelper _ hr]

/-- Where no function that goes in the first round has a word of the helpers as its name, that round leaves of the
script what it leaves of it alone. -/
theorem firstRound_eq_keptTokens (keyPrefix : String) {ts : List Token}
    (hdropped : ∀ name ∈ droppedNames ts, name ∉ helperWords) : firstRound keyPrefix ts = keptTokens ts := by
  rw [firstRound, keptTokens, dropUnmentioned_eq_filter named_of_mem_pieces, List.nil_append]
  refine congrArg (List.flatMap Piece.tokens) (List.filter_congr fun p hp => ?_)
  refine supported_with_helpers keyPrefix fun name hname hunsupported => hdropped name ?_
  exact mem_droppedNames_iff_parts.mpr ⟨p.part, part_mem_parts hp hname, hname, hunsupported⟩

/-! ## Code -/

/-- A semicolon at the front is dropped in the end. -/
theorem IsRest.dropSemicolons_eq {ts rest : List Token} (h : IsRest ts rest) :
    dropSemicolons (dropUnused rest) = dropSemicolons (dropUnused ts) := by
  rcases h with rfl | ⟨s, hs, rfl⟩
  · rfl
  · rw [dropUnused_semicolon hs, dropSemicolons_semicolon hs]

/-- The code of a script behind the helpers, from what the first round leaves. -/
theorem code_behind_helpers (keyPrefix : String) {script : String} {ts : List Token} (h : tokenize script = .ok ts)
    (hregex : ∀ t ∈ ts.head?, t.kind ≠ .regex) (hnames : ∀ t ∈ ts, ∀ i, t.isWord (helperName i) = false) :
    ∃ rest, IsRest (dropConsole (insertSemicolons (broken (ts.map Token.unplaced)))) rest ∧
      (minify (.forEmbedding true) (preamble keyPrefix ++ script)).code =
        render true (dropSemicolons (dropUnused (firstRound keyPrefix rest))) := by
  obtain ⟨all, hall, hmap⟩ := tokenize_with_helpers keyPrefix h hregex
  have hfree := mentions_script hnames
  rw [← parts_script (unbroken_broken _)] at hfree
  obtain ⟨rest, hrest, hkept⟩ := keptTokens_with_helpers keyPrefix (semicolonBetween_cases helperBrace _) hfree
  refine ⟨rest, hrest, ?_⟩
  calc (minify (.forEmbedding true) (preamble keyPrefix ++ script)).code
      = render true (shorten (.forEmbedding true) (all.map Token.unplaced)) := by
        rw [minify_code hall, shorten_unplaced, render_unplaced]
        rfl
    _ = render true (dropSemicolons (dropUnused (behindHelpers keyPrefix _ _))) := by
      rw [hmap, ← beforeShaking_with_helpers]
      rfl
    _ = render true (dropSemicolons (dropUnused (firstRound keyPrefix rest))) := by rw [← dropUnused_keptTokens, hkept]

theorem bare_shorten (ts : List Token) :
    bare (shorten (.forEmbedding true) ts) = bare (dropUnused (dropConsole (insertSemicolons ts))) :=
  bare_dropSemicolonsFrom none 0 _

/-- **Unused helpers leave no trace.** A script that is accepted, does not start with a regular expression and uses
none of the helpers is accepted behind them, and what is left is what is left of it alone, but for semicolons. The code
is the same to the letter if no word of the helpers is the name of a function that goes in the first round. -/
theorem unused_helpers_leave_no_trace (keyPrefix : String) {script : String} {ts : List Token}
    (h : tokenize script = .ok ts) (hregex : ∀ t ∈ ts.head?, t.kind ≠ .regex)
    (hnames : ∀ t ∈ ts, ∀ i, t.isWord (helperName i) = false) :
    ∃ all, tokenize (preamble keyPrefix ++ script) = .ok all ∧
      (∀ d ∈ (minify (.forEmbedding true) (preamble keyPrefix ++ script)).diagnostics, d.isError = false) ∧
      bare (shorten (.forEmbedding true) all) = bare (shorten (.forEmbedding true) ts) ∧
      ((∀ name ∈ droppedNames (beforeShaking (.forEmbedding true) ts), name ∉ helperWords) →
        (minify (.forEmbedding true) (preamble keyPrefix ++ script)).code =
          (minify (.forEmbedding true) script).code) := by
  obtain ⟨all, hall, hmap⟩ := tokenize_with_helpers keyPrefix h hregex
  have hnested := (partitions_of_tokenize hall).nested
  rw [Nested, ← openAfter_unplaced, hmap] at hnested
  refine ⟨all, hall, (tokenize_ok_iff _ _).mp ⟨all, hall⟩, ?_, fun hdropped => ?_⟩
  · rw [← bare_unplaced, ← shorten_unplaced, hmap, bare_shorten, bare_shorten]
    exact bare_dropUnused_with_helpers hnested (partitions_of_tokenize h).nested (unbroken_broken _) hnames
  · obtain ⟨rest, hrest, hcode⟩ := code_behind_helpers keyPrefix h hregex hnames
    have hdropped : ∀ name ∈ droppedNames rest, name ∉ helperWords := by
      intro name hname
      rw [mem_droppedNames_iff_parts, hrest.parts_eq, parts_script (unbroken_broken _),
        ← mem_droppedNames_iff_parts] at hname
      exact hdropped name hname
    rw [hcode, firstRound_eq_keptTokens keyPrefix hdropped, dropUnused_keptTokens, hrest.dropSemicolons_eq,
      minify_code h]
    calc render true (shorten (.forEmbedding true) (broken (ts.map Token.unplaced)))
        = render true (shorten (.forEmbedding true) (ts.map Token.unplaced)) :=
          render_unbroken (dropSemicolons_unbroken (dropUnused_unbroken
            (dropConsole_insertSemicolons_unbroken (unbroken_broken _))))
      _ = render true (shorten (.forEmbedding true) ts) := by rw [shorten_unplaced, render_unplaced]

theorem unhelped_of_lexed {ts : List Token} {ls : List (Kind × String)} (h : ts.map Token.lexed = ls)
    (hregex : ∀ l ∈ ls.head?, l.1 ≠ .regex) (hnames : ∀ i, (.word, helperName i) ∉ ls) :
    (∀ t ∈ ts.head?, t.kind ≠ .regex) ∧ ∀ t ∈ ts, ∀ i, t.isWord (helperName i) = false := by
  subst h
  constructor
  · intro t ht
    refine hregex t.lexed ?_
    rw [List.head?_map, ht]
    rfl
  · intro t ht i
    rw [← Bool.not_eq_true]
    intro hword
    obtain ⟨hkind, htext⟩ : t.kind = .word ∧ t.text = helperName i := by simpa [Token.isWord] using hword
    refine hnames i (List.mem_map.mpr ⟨t, ht, ?_⟩)
    rw [Token.lexed, hkind, htext]

/-- A script that starts with a semicolon and has a function that nothing uses. -/
def looseScript : String := ";[x]\nfunction f()\x7b\x7d"

theorem loose_script_behind_helpers :
    ∃ ts, tokenize looseScript = .ok ts ∧ (∀ t ∈ ts.head?, t.kind ≠ .regex) ∧
      (∀ t ∈ ts, ∀ i, t.isWord (helperName i) = false) ∧
      (∀ name ∈ droppedNames (beforeShaking (.forEmbedding true) ts), name ∉ helperWords) ∧
      (minify (.forEmbedding true) (preamble "p" ++ looseScript)).code = "[x]" := by
  have heval : (tokenize looseScript).map (fun ts => (ts.map Token.lexed,
      droppedNames (beforeShaking (.forEmbedding true) ts), (minify (.forEmbedding true) looseScript).code)) =
        .ok ([(.punctuator, ";"), (.punctuator, "["), (.word, "x"), (.punctuator, "]"), (.word, "function"),
          (.word, "f"), (.punctuator, "("), (.punctuator, ")"), (.punctuator, "\x7b"), (.punctuator, "\x7d")],
          ["f"], "[x]") := by decide +kernel
  obtain ⟨ts, hts, hvalues⟩ := AliasLang.Token.map_eq_ok heval
  simp only [Prod.mk.injEq] at hvalues
  obtain ⟨hlexed, hdropped, hcode⟩ := hvalues
  obtain ⟨hregex, hnames⟩ := unhelped_of_lexed hlexed (by simp) (by decide)
  have hwords : ∀ name ∈ droppedNames (beforeShaking (.forEmbedding true) ts), name ∉ helperWords := by
    rw [hdropped]
    decide
  obtain ⟨all, -, -, -, hsame⟩ := unused_helpers_leave_no_trace "p" hts hregex hnames
  exact ⟨ts, hts, hregex, hnames, hwords, (hsame hwords).trans hcode⟩

/-! ## Traces -/

/-- A script that starts with a regular expression. -/
def regexScript : String := "/\"/.test(x)"

/-- A function with the name of a parameter of the helpers, and one behind it with two semicolons. -/
def keyScript : String := "\x7b\x7dfunction key()\x7b\x7dfunction b()\x7b\x7d;;z"

theorem getLast?_of_marks {keyPrefix : String} {hs : List Token}
    (hmarks : hs.map Token.marks = (helpers keyPrefix).map fun x => x.token.marks) :
    hs.getLast?.map Token.lexed = (some helperBrace).map Token.lexed := by
  have hlast : (hs.map Token.marks).getLast? = some helperBrace.marks := by
    rw [hmarks]
    rfl
  rw [List.getLast?_map] at hlast
  obtain ⟨t, ht, hmark⟩ := Option.map_eq_some_iff.mp hlast
  obtain ⟨hkind, htext, -⟩ : t.kind = helperBrace.kind ∧ t.text = helperBrace.text ∧ _ := by
    simpa [Token.marks] using hmark
  rw [ht, Option.map_some, Option.map_some, Token.lexed, Token.lexed, hkind, htext]

/-- Behind the preamble the slash in front of a script is a division, and the quote in the regular expression opens a
string literal. A function that the helpers mention goes a round later, and then takes a semicolon with it that it did
not stand before until the function in between was gone. -/
theorem helpers_leave_traces :
    (∃ ts, tokenize regexScript = .ok ts) ∧ (∀ i, ¬(helperName i).toList <:+: regexScript.toList) ∧
      (∃ d ∈ (minify (.forEmbedding true) (preamble "" ++ regexScript)).diagnostics, d.isError = true) ∧
      (∃ ts, tokenize keyScript = .ok ts) ∧ (∀ i, ¬(helperName i).toList <:+: keyScript.toList) ∧
      (minify (.forEmbedding true) keyScript).code = "\x7b\x7d;z" ∧
      (minify (.forEmbedding true) (preamble "" ++ keyScript)).code = "\x7b\x7dz" := by
  have halone : (tokenize regexScript).map List.length = .ok 6 := by decide +kernel
  obtain ⟨rs, hrs, -⟩ := AliasLang.Token.map_eq_ok halone
  have hrefused : ∃ d ∈ (minify (.forEmbedding true) (preamble "" ++ regexScript)).diagnostics, d.isError = true := by
    have hbehind : tokensFrom (some helperBrace) [] .start ('\n' :: regexScript.toList) =
        .error ⟨.unterminatedString, ⟨2, 1, 1⟩⟩ := by decide +kernel
    obtain ⟨hs, hmarks, hread⟩ := tokenize_behind_preamble "" regexScript
    by_contra hnone
    obtain ⟨all, hall⟩ := (tokenize_ok_iff (.forEmbedding true) (preamble "" ++ regexScript)).mpr (by simpa using hnone)
    rw [hall] at hread
    obtain ⟨us, hus, -⟩ := AliasLang.Token.map_eq_ok hread.symm
    obtain ⟨us', hus', -⟩ := tokensFrom_unplaced hus (getLast?_of_marks hmarks) rfl .start
    rw [hbehind] at hus'
    cases hus'
  have hkey : (tokenize keyScript).map (fun ts => (ts.map Token.lexed, render true (shorten (.forEmbedding true) ts),
      (dropConsole (insertSemicolons (broken (ts.map Token.unplaced)))).head?.any (·.isPunct ";"),
      render true (dropSemicolons (dropUnused (firstRound ""
        (dropConsole (insertSemicolons (broken (ts.map Token.unplaced))))))))) =
      .ok ([(.punctuator, "\x7b"), (.punctuator, "\x7d"), (.word, "function"), (.word, "key"), (.punctuator, "("),
        (.punctuator, ")"), (.punctuator, "\x7b"), (.punctuator, "\x7d"), (.word, "function"), (.word, "b"),
        (.punctuator, "("), (.punctuator, ")"), (.punctuator, "\x7b"), (.punctuator, "\x7d"), (.punctuator, ";"),
        (.punctuator, ";"), (.word, "z")], "\x7b\x7d;z", false, "\x7b\x7dz") := by decide +kernel
  obtain ⟨ks, hks, hvalues⟩ := AliasLang.Token.map_eq_ok hkey
  simp only [Prod.mk.injEq] at hvalues
  obtain ⟨hlexed, hcode, hfront, hcode'⟩ := hvalues
  obtain ⟨hregex, hnames⟩ := unhelped_of_lexed hlexed (by simp) (by decide)
  obtain ⟨rest, hrest, hbehind⟩ := code_behind_helpers "" hks hregex hnames
  refine ⟨⟨rs, hrs⟩, by decide, hrefused, ⟨ks, hks⟩, by decide, (minify_code hks).trans hcode, ?_⟩
  rcases hrest with rfl | ⟨s, hs, hcons⟩
  · exact hbehind.trans hcode'
  · rw [hcons, List.head?_cons, Option.any_some, hs] at hfront
    cases hfront

end AliasLang.Script
