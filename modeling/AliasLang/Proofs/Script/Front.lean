/-
The front of a script. No pass looks at whether a line break comes before the first token, nor at what comes before it,
as long as a statement ended there. Nor does the scanner, but for a slash: behind other code it may be a division where
a script of its own starts with a regular expression.
-/
import AliasLang.Proofs.Script.Places
import AliasLang.Proofs.Script.Removal

namespace AliasLang.Script

open Source (Position)

/-! ## Line breaks before the first token -/

/-- A token with no line break before it. -/
def Token.unbroken (t : Token) : Token := { t with newlineBefore := false }

/-- Tokens with no line break before the first of them. -/
def unbroken : List Token → List Token
  | [] => []
  | t :: ts => t.unbroken :: ts

/-- Tokens with a line break before the first of them. -/
def broken : List Token → List Token
  | [] => []
  | t :: ts => { t with newlineBefore := true } :: ts

theorem unbroken_broken (ts : List Token) : unbroken (broken ts) = unbroken ts := by
  cases ts <;> rfl

theorem isBlockPosition_of_endsBlockPart {last : Option Token} (h : EndsBlockPart last) (t : Token) :
    isBlockPosition last t = true := by
  cases last with
  | none => rfl
  | some p => rcases h p rfl with h | h | h <;> simp [isBlockPosition, h]

theorem insertSemicolons_unbroken (ts : List Token) :
    insertSemicolons (unbroken ts) = unbroken (insertSemicolons ts) := by
  match ts with
  | [] | [_] => rfl
  | t :: u :: rest =>
    rw [unbroken, insertSemicolons, insertSemicolons]
    split <;> rename_i h
    · exact (if_pos h).symm ▸ rfl
    · exact (if_neg h).symm ▸ rfl

theorem consoleCallLength?_congr {last last' : Option Token}
    (hblock : ∀ t, isBlockPosition last t = isBlockPosition last' t)
    (hcontrol : last.any Token.isControlPosition = last'.any Token.isControlPosition) (ts : List Token) :
    consoleCallLength? last ts = consoleCallLength? last' ts := by
  match ts with
  | [] | [_] | [_, _] | [_, _, _] => rfl
  | t :: dot :: method :: paren :: rest => rw [consoleCallLength?, consoleCallLength?, hblock, hcontrol]

/-- Only two things are asked of the token before. -/
theorem dropConsoleFrom_congr {last last' : Option Token}
    (hblock : ∀ t, isBlockPosition last t = isBlockPosition last' t)
    (hcontrol : last.any Token.isControlPosition = last'.any Token.isControlPosition) (ts : List Token) :
    dropConsoleFrom last ts = dropConsoleFrom last' ts := by
  fun_induction dropConsoleFrom last ts with
  | case1 => rw [dropConsoleFrom]
  | case2 last t rest hcall =>
    rw [consoleCallLength?_congr hblock hcontrol] at hcall
    rw [dropConsoleFrom_of_none hcall]
  | case3 last t rest n hcall after hsemicolon hlast hsome ih =>
    rw [consoleCallLength?_congr hblock hcontrol] at hcall
    rw [dropConsoleFrom_of_some hcall, ← hcontrol, if_pos hlast, if_pos hsome, ih hblock hcontrol]
  | case4 last t rest n hcall after hsemicolon hlast hnone semicolon =>
    rw [consoleCallLength?_congr hblock hcontrol] at hcall
    rw [dropConsoleFrom_of_some hcall, ← hcontrol, if_pos hlast, if_neg hnone]
  | case5 last t rest n hcall after hsemicolon hlast hsome ih =>
    rw [consoleCallLength?_congr hblock hcontrol] at hcall
    rw [dropConsoleFrom_of_some hcall, ← hcontrol, if_neg hlast, if_pos hsome, ih hblock hcontrol]
  | case6 last t rest n hcall after hsemicolon hlast hnone ih =>
    rw [consoleCallLength?_congr hblock hcontrol] at hcall
    rw [dropConsoleFrom_of_some hcall, ← hcontrol, if_neg hlast, if_neg hnone, ih hblock hcontrol]

theorem dropConsole_unbroken (ts : List Token) :
    unbroken (dropConsole (unbroken ts)) = unbroken (dropConsole ts) := by
  cases ts with
  | nil => rfl
  | cons t rest =>
    have hcall : consoleCallLength? none (t.unbroken :: rest) =
        consoleCallLength? none (t :: rest) := by
      match rest with
      | [] | [_] | [_, _] => rfl
      | _ :: _ :: _ :: _ => rfl
    have hlast : dropConsoleFrom (some t.unbroken) rest = dropConsoleFrom (some t) rest := by
      refine dropConsoleFrom_congr (fun u => ?_) ?_ rest
      · rfl
      · rfl
    rw [unbroken, dropConsole, dropConsole]
    cases hlength : consoleCallLength? none (t :: rest) with
    | none =>
      rw [dropConsoleFrom_of_none hlength, dropConsoleFrom_of_none (hcall.trans hlength), hlast]
      rfl
    | some n =>
      rw [dropConsoleFrom_of_some hlength, dropConsoleFrom_of_some (hcall.trans hlength)]
      rfl

theorem piecesFrom_congr {last last' : Option Token} (h : ∀ t, isBlockPosition last t = isBlockPosition last' t)
    (depth : Nat) (ts : List Token) : piecesFrom depth last ts = piecesFrom depth last' ts := by
  cases ts with
  | nil => rw [piecesFrom, piecesFrom]
  | cons t rest => rw [piecesFrom, piecesFrom, h]

/-- Before a piece there may be anything that ends a statement. -/
theorem piecesFrom_of_endsBlockPart {last : Option Token} (h : EndsBlockPart last) (ts : List Token) :
    piecesFrom 0 last ts = pieces ts :=
  piecesFrom_congr (isBlockPosition_of_endsBlockPart h) 0 ts

/-- A piece with no line break before it. -/
def Piece.unbroken : Piece → Piece
  | .token t => .token t.unbroken
  | .declaration name ts => .declaration name (Script.unbroken ts)

theorem pieces_unbroken (t : Token) (rest : List Token) :
    ∃ p ps, pieces (t :: rest) = p :: ps ∧ pieces (unbroken (t :: rest)) = p.unbroken :: ps := by
  cases hdeclared : declared? 0 none t rest with
  | none =>
    have hdeclared' : declared? 0 none t.unbroken rest = none := hdeclared
    refine ⟨_, _, piecesFrom_of_none hdeclared, ?_⟩
    rw [unbroken, pieces, piecesFrom_of_none hdeclared']
    refine congrArg _ (piecesFrom_congr (fun u => ?_) _ rest)
    rfl
  | some found =>
    have hdeclared' : declared? 0 none t.unbroken rest = some found := hdeclared
    refine ⟨_, _, piecesFrom_of_some hdeclared, ?_⟩
    rw [unbroken, pieces, piecesFrom_of_some hdeclared']
    refine congrArg _ (piecesFrom_congr (fun u => ?_) _ _)
    rw [List.getLast?_cons, List.getLast?_cons]
    cases (rest.take found.2).getLast? <;> rfl

theorem tokens_unbroken (p : Piece) : p.unbroken.tokens = unbroken p.tokens := by
  cases p <;> rfl

theorem any_isWord_unbroken (name : String) (ts : List Token) :
    (unbroken ts).any (·.isWord name) = ts.any (·.isWord name) := by
  cases ts <;> rfl

theorem dropUnmentioned_congr {before before' : List Piece}
    (h : ∀ name, Piece.mentions name before = Piece.mentions name before') (ps : List Piece) :
    dropUnmentioned before ps = dropUnmentioned before' ps := by
  have hsnoc : ∀ {before before' : List Piece} (p : Piece),
      (∀ name, Piece.mentions name before = Piece.mentions name before') →
        ∀ name, Piece.mentions name (before ++ [p]) = Piece.mentions name (before' ++ [p]) := by
    intro before before' p h name
    rw [mentions_append, mentions_append, h]
  induction ps generalizing before before' with
  | nil => rfl
  | cons p ps ih =>
    have hps := ih (hsnoc p h)
    cases p with
    | token t => rw [dropUnmentioned, dropUnmentioned, hps]
    | declaration name ts => rw [dropUnmentioned, dropUnmentioned, hps, h]

theorem dropUnmentioned_unbroken (p : Piece) (ps : List Piece) :
    dropUnmentioned [] (p :: ps) = dropUnmentioned [p] ps ∧
        dropUnmentioned [] (p.unbroken :: ps) = dropUnmentioned [p] ps ∨
      dropUnmentioned [] (p :: ps) = p :: dropUnmentioned [p] ps ∧
        dropUnmentioned [] (p.unbroken :: ps) = p.unbroken :: dropUnmentioned [p] ps := by
  have hps : dropUnmentioned [p.unbroken] ps = dropUnmentioned [p] ps := by
    refine dropUnmentioned_congr (fun name => ?_) ps
    simp only [Piece.mentions, List.any_cons, List.any_nil, tokens_unbroken, any_isWord_unbroken]
  cases p with
  | token t => exact .inr ⟨rfl, congrArg _ hps⟩
  | declaration name ts =>
    rw [dropUnmentioned]
    split <;> rename_i h
    · refine .inr ⟨rfl, ?_⟩
      rw [Piece.unbroken, dropUnmentioned, if_pos h]
      exact congrArg _ hps
    · refine .inl ⟨rfl, ?_⟩
      rw [Piece.unbroken, dropUnmentioned, if_neg h]
      exact hps

theorem unbroken_append (a b : List Token) : unbroken (unbroken a ++ b) = unbroken (a ++ b) := by
  cases a <;> rfl

theorem length_unbroken (ts : List Token) : (unbroken ts).length = ts.length := by
  cases ts <;> rfl

theorem keptTokens_unbroken (ts : List Token) : unbroken (keptTokens (unbroken ts)) = unbroken (keptTokens ts) := by
  cases ts with
  | nil => rfl
  | cons t rest =>
    obtain ⟨p, ps, hps, hps'⟩ := pieces_unbroken t rest
    rw [keptTokens, keptTokens, hps, hps']
    rcases dropUnmentioned_unbroken p ps with ⟨h, h'⟩ | ⟨h, h'⟩
    · rw [h, h']
    · rw [h, h', List.flatMap_cons, List.flatMap_cons, tokens_unbroken, unbroken_append]

theorem dropUnused_unbroken {a b : List Token} (h : unbroken a = unbroken b) :
    unbroken (dropUnused a) = unbroken (dropUnused b) := by
  have hlength : ∀ {a b : List Token}, unbroken a = unbroken b → a.length = b.length := by
    intro a b h
    rw [← length_unbroken, h, length_unbroken]
  have hkept : ∀ {a b : List Token}, unbroken a = unbroken b → unbroken (keptTokens a) = unbroken (keptTokens b) := by
    intro a b h
    rw [← keptTokens_unbroken, h, keptTokens_unbroken]
  fun_induction dropUnused a generalizing b with
  | case1 a kept hshorter =>
    rename_i ih
    rw [← dropUnused_keptTokens b]
    exact ih (hkept h)
  | case2 a kept =>
    rename_i hsame
    have hsame' : b.length ≤ (keptTokens b).length := by
      rw [← hlength h, ← hlength (hkept h)]
      exact Nat.le_of_not_lt hsame
    rw [h, dropUnused_of_keptTokens ((keptTokens_sublist b).eq_of_length_le hsame')]

theorem dropSemicolonsFrom_congr {last last' : Option Token}
    (h : ∀ next, isRedundant last next = isRedundant last' next) (depth : Nat) (ts : List Token) :
    dropSemicolonsFrom last depth ts = dropSemicolonsFrom last' depth ts := by
  induction ts generalizing depth with
  | nil => rfl
  | cons t ts ih => rw [dropSemicolonsFrom, dropSemicolonsFrom, h, ih]

theorem dropSemicolons_unbroken {a b : List Token} (h : unbroken a = unbroken b) :
    unbroken (dropSemicolons a) = unbroken (dropSemicolons b) := by
  have hhead : ∀ ts, unbroken (dropSemicolons (unbroken ts)) = unbroken (dropSemicolons ts) := by
    intro ts
    cases ts with
    | nil => rfl
    | cons t ts =>
      have hlast : ∀ depth, dropSemicolonsFrom (some t.unbroken) depth ts = dropSemicolonsFrom (some t) depth ts :=
        fun depth => dropSemicolonsFrom_congr (fun next => by cases next <;> rfl) depth ts
      rw [unbroken, dropSemicolons, dropSemicolons, dropSemicolonsFrom, dropSemicolonsFrom, hlast]
      split <;> rename_i hdrop
      · exact congrArg unbroken (if_pos hdrop).symm
      · have hkeep : ¬(t.isPunct ";" && decide (parenDepthAfter 0 t = 0) && isRedundant none ts.head?) = true := hdrop
        rw [if_neg hkeep]
        rfl
  rw [← hhead, h, hhead]

theorem render_unbroken {a b : List Token} (h : unbroken a = unbroken b) : render true a = render true b := by
  have hhead : ∀ ts, render true (unbroken ts) = render true ts := by
    intro ts
    cases ts with
    | nil => rfl
    | cons t ts =>
      rw [unbroken, render, render]
      cases ts <;> rfl
  rw [← hhead, h, hhead]

/-! ## Passes behind other tokens -/

theorem endsBlockPart_none : EndsBlockPart none := by
  intro p hp
  cases hp

theorem insertSemicolons_of_unbroken {ts : List Token} (h : ts.tail.all (!·.newlineBefore) = true) :
    insertSemicolons ts = ts := by
  fun_induction insertSemicolons ts with
  | case1 | case2 => rfl
  | case3 t u rest hbreak ih =>
    simp only [Bool.and_eq_true] at hbreak
    simp [hbreak.1.1] at h
  | case4 t u rest hbreak ih =>
    simp only [List.tail_cons, List.all_cons, Bool.and_eq_true] at h
    rw [ih h.2]

/-- The semicolon that is put in between the token `p` and the tokens behind it, if any. -/
def semicolonBetween (p : Token) : List Token → List Token
  | [] => []
  | u :: _ => if u.newlineBefore && p.endsStatement && Token.startsStatement p u then [p.semicolonAfter] else []

theorem semicolonBetween_cases (p : Token) (b : List Token) :
    semicolonBetween p b = [] ∨ semicolonBetween p b = [p.semicolonAfter] := by
  unfold semicolonBetween
  split
  · exact .inl rfl
  · split
    · exact .inr rfl
    · exact .inl rfl

theorem insertSemicolons_append {a b : List Token} {p : Token} (ha : a.getLast? = some p) :
    insertSemicolons (a ++ b) = insertSemicolons a ++ (semicolonBetween p b ++ insertSemicolons b) := by
  induction a with
  | nil => cases ha
  | cons t a ih =>
    cases a with
    | nil =>
      obtain rfl : t = p := by simpa using ha
      cases b with
      | nil => rfl
      | cons u rest =>
        rw [List.singleton_append, insertSemicolons, insertSemicolons, semicolonBetween]
        split <;> rfl
    | cons u a =>
      have hrest := ih (by rwa [List.getLast?_cons_cons] at ha)
      rw [List.cons_append] at hrest
      rw [List.cons_append, List.cons_append, insertSemicolons, insertSemicolons, hrest]
      split <;> rfl

theorem consoleCallLength?_eq_none {t : Token} (h : t.isWord "console" = false) (last : Option Token)
    (ts : List Token) : consoleCallLength? last (t :: ts) = none := by
  match ts with
  | [] | [_] | [_, _] => rfl
  | dot :: method :: paren :: rest => simp [consoleCallLength?, h]

theorem dropConsoleFrom_append {a : List Token} (h : a.all (!·.isWord "console") = true) (last : Option Token)
    (b : List Token) : dropConsoleFrom last (a ++ b) = a ++ dropConsoleFrom (a.getLast?.or last) b := by
  induction a generalizing last with
  | nil => rfl
  | cons t a ih =>
    simp only [List.all_cons, Bool.and_eq_true, Bool.not_eq_true'] at h
    rw [List.cons_append, dropConsoleFrom_of_none (consoleCallLength?_eq_none h.1 last (a ++ b)), ih h.2,
      or_getLast?_cons]
    rfl

/-! ## Scanning behind other tokens -/

/-- Parts of gaps that go on in the same way. -/
def GapPart.Like : GapPart → GapPart → Prop
  | .blank, .blank | .lineComment, .lineComment | .blockComment _, .blockComment _ => True
  | _, _ => False

theorem GapPart.like_refl (part : GapPart) : part.Like part := by
  cases part <;> trivial

/-- The length of a gap does not depend on what came before it. -/
theorem gapLength_congr {read read' : Nat} {part part' : GapPart} {cs : List Char} {n : Nat}
    (h : gapLength read part cs = .ok n) (hpart : part.Like part') : gapLength read' part' cs = .ok n := by
  have hmap : ∀ {x x' : Except Fault Nat} {k n : Nat}, x.map (· + k) = .ok n → (∀ m, x = .ok m → x' = .ok m) →
      x'.map (· + k) = .ok n := by
    intro x x' k n h hx
    obtain ⟨m, hm, rfl⟩ := AliasLang.Token.map_eq_ok h
    rw [hx m hm]
    rfl
  fun_induction gapLength read part cs generalizing read' part' n with
  | case1 | case10 => cases h
  | case2 part hpart' => cases part' <;> simp_all [gapLength, GapPart.Like]
  | case3 read c cs hblank =>
    rename_i ih
    cases part' <;> try cases hpart
    rw [gapLength.eq_def]
    simp only [hblank, if_true]
    exact hmap h fun m hm => ih hm trivial
  | case4 read hblank =>
    cases part' <;> try cases hpart
    cases h
    rfl
  | case5 read rest hblank =>
    rename_i ih
    cases part' <;> try cases hpart
    exact hmap h fun m hm => ih hm trivial
  | case6 read rest hblank hstar =>
    rename_i ih
    cases part' <;> try cases hpart
    exact hmap h fun m hm => ih hm trivial
  | case7 read d rest hslash hstar hblank =>
    cases part' <;> try cases hpart
    rw [gapLength.eq_def]
    simp only [hblank, hslash, hstar, if_false, if_true]
    exact h
  | case8 read c cs hblank hslash =>
    cases part' <;> try cases hpart
    rw [gapLength.eq_def]
    simp only [hblank, hslash, if_false]
    exact h
  | case9 read c cs part'' =>
    rename_i ih
    cases part' <;> try cases hpart
    exact hmap h fun m hm => ih hm part''.like_refl
  | case11 read c opened d rest hends =>
    rename_i ih
    cases part' <;> try cases hpart
    rw [gapLength.eq_def]
    simp only [hends, if_true]
    exact hmap h fun m hm => ih hm trivial
  | case12 read c cs opened hends =>
    rename_i ih
    cases part' <;> try cases hpart
    rw [gapLength.eq_def]
    simp only [hends]
    exact hmap h fun m hm => ih hm trivial

theorem lexeme_after {c : Char} {cs : List Char} {kind : Kind} {n : Nat} (h : lexeme none c cs = .ok (kind, n))
    (hkind : kind ≠ .regex) (last : Option Token) : lexeme last c cs = .ok (kind, n) := by
  by_cases hc : c = '/'
  · subst hc
    have hslash : isWordStart '/' = false := by decide
    have hdigit : ('/' : Char).isDigit = false := by decide
    simp only [lexeme, hslash, hdigit, regexAllowed] at h
    simp at h
    obtain ⟨m, -, hm⟩ := AliasLang.Token.map_eq_ok h
    cases hm
    exact absurd rfl hkind
  · simp only [lexeme, hc, decide_false, Bool.false_and] at h ⊢
    exact h

/-- Behind a token that no script goes on from, a script is read as it is alone, with a line break before it. -/
theorem tokensFrom_behind {last : Option Token} {p : Position} {cs : List Char} {ts : List Token}
    (h : tokensFrom none [] p cs = .ok ts) (hregex : ∀ t ∈ ts.head?, t.kind ≠ .regex)
    (hlast : last.any Token.isControlKeyword = false) (p' : Position) :
    ∃ ts', tokensFrom last [] p' ('\n' :: cs) = .ok ts' ∧
      ts'.map Token.unplaced = broken (ts.map Token.unplaced) := by
  have hfeed : ∀ {gap}, gapLength 0 .blank cs = .ok gap → gapLength 0 .blank ('\n' :: cs) = .ok (gap + 1) := by
    intro gap hgap
    have hblank : Text.isBlank '\n' = true := by decide
    rw [gapLength.eq_def]
    simp only [hblank, if_true]
    rw [gapLength_congr hgap (GapPart.like_refl .blank)]
    rfl
  rcases tokensFrom_cases h with ⟨gap, hgap, hdrop, rfl⟩ |
    ⟨gap, c, rest, n, t, opened, ts, hgap, hdrop, hlexeme, htext, htrack, hts, rfl⟩
  · exact ⟨[], tokensFrom_done (hfeed hgap) hdrop last p', rfl⟩
  · let t' : Token := { t with place := p'.after (('\n' :: cs).take (gap + 1)), newlineBefore := true }
    have hnone : ([] : List Opened).map Opened.shape = ([] : List Opened).map Opened.shape := rfl
    obtain ⟨after, htrack', hafter⟩ := tracked_unplaced htrack hnone hlast.symm t'.place
    have htoken : (some t).map Token.lexed = (some t').map Token.lexed := rfl
    obtain ⟨ts', hts', hmap⟩ := tokensFrom_unplaced hts htoken hafter (t'.place.after t'.text.toList)
    refine ⟨t' :: ts', tokensFrom_token (hfeed hgap) hdrop (lexeme_after hlexeme (hregex t rfl) last) htext rfl ?_
      htrack' hts', ?_⟩
    · simp [t']
    · rw [List.map_cons, List.map_cons, ← hmap]
      rfl

end AliasLang.Script
