/-
Places of tokens. Where a script starts does not matter to what is read, and no pass looks at the places of tokens; so
the code that comes out is the same wherever a script stands.
-/
import AliasLang.Proofs.Script.Partition
import AliasLang.Proofs.Script.Unused
import Mathlib.Data.List.Basic

namespace AliasLang.Script

open Source (Position)

/-- A token without its place. -/
def Token.unplaced (t : Token) : Token := { t with place := .start }

section
variable (t : Token)

@[simp] theorem unplaced_isPunct (text : String) : t.unplaced.isPunct text = t.isPunct text := rfl

@[simp] theorem unplaced_isWord (text : String) : t.unplaced.isWord text = t.isWord text := rfl

@[simp] theorem unplaced_isOpening : t.unplaced.isOpening = t.isOpening := rfl

@[simp] theorem unplaced_isClosing : t.unplaced.isClosing = t.isClosing := rfl

@[simp] theorem unplaced_endsStatement : t.unplaced.endsStatement = t.endsStatement := rfl

@[simp] theorem unplaced_isControlPosition : t.unplaced.isControlPosition = t.isControlPosition := rfl

@[simp] theorem unplaced_semicolonAfter : t.unplaced.semicolonAfter = t.semicolonAfter.unplaced := rfl

end

/-! ## Scanning -/

/-- What counts of an open bracket. -/
def Opened.shape (o : Opened) : Char × Bool := (o.bracket, o.control)

theorem track_unplaced {opened opened' after : List Opened} {last last' : Option Token} {p : Position} {text : String}
    {control : Bool} (h : track opened last p text = .ok (control, after))
    (hopened : opened.map Opened.shape = opened'.map Opened.shape)
    (hlast : last.any Token.isControlKeyword = last'.any Token.isControlKeyword) (p' : Position) :
    ∃ after', track opened' last' p' text = .ok (control, after') ∧
      after.map Opened.shape = after'.map Opened.shape := by
  unfold track at h ⊢
  split at h
  · rename_i c htext
    split at h
    · rename_i hopening
      cases h
      refine ⟨_, if_pos hopening, ?_⟩
      have hcontrol : (decide (c = '(') && last.any Token.isControlKeyword) =
          (decide (c = '(') && last'.any Token.isControlKeyword) := by rw [hlast]
      rw [List.map_cons, List.map_cons, hopened]
      exact congrArg (fun b => (c, b) :: _) hcontrol
    · rename_i hopening
      rw [if_neg hopening]
      split at h
      · rename_i hclosing
        rw [if_pos hclosing]
        cases opened with
        | nil => cases h
        | cons o opened =>
          obtain ⟨o', opened', rfl, ho, hopened⟩ := List.map_eq_cons_iff.mp hopened.symm
          obtain ⟨hbracket, hcontrol⟩ := Prod.mk.inj ho
          dsimp only at h ⊢
          rw [hbracket, hcontrol]
          split at h
          · rename_i hcloses
            cases h
            exact ⟨opened', if_pos hcloses, hopened.symm⟩
          · cases h
      · rename_i hplain
        cases h
        exact ⟨opened', if_neg hplain, hopened⟩
  · cases h
    exact ⟨opened', rfl, hopened⟩

theorem tracked_unplaced {kind : Kind} {opened opened' after : List Opened} {last last' : Option Token} {p : Position}
    {text : String} {control : Bool}
    (h : (if kind = .punctuator then track opened last p text else .ok (false, opened)) = .ok (control, after))
    (hopened : opened.map Opened.shape = opened'.map Opened.shape)
    (hlast : last.any Token.isControlKeyword = last'.any Token.isControlKeyword) (p' : Position) :
    ∃ after',
      (if kind = .punctuator then track opened' last' p' text else .ok (false, opened')) = .ok (control, after') ∧
        after.map Opened.shape = after'.map Opened.shape := by
  by_cases hkind : kind = .punctuator
  · rw [if_pos hkind] at h ⊢
    exact track_unplaced h hopened hlast p'
  · rw [if_neg hkind] at h ⊢
    cases h
    exact ⟨opened', rfl, hopened⟩

theorem any_isControlKeyword_congr {last last' : Option Token} (h : last.map Token.lexed = last'.map Token.lexed) :
    last.any Token.isControlKeyword = last'.any Token.isControlKeyword := by
  have hany : ∀ last : Option Token, last.any Token.isControlKeyword =
      (last.map Token.lexed).any fun x => x.1 = .word && controlKeywords.contains x.2 := by
    intro last
    cases last <;> rfl
  rw [hany, h, hany]

/-- Where a script starts does not matter to what is read. -/
theorem tokensFrom_unplaced {last last' : Option Token} {opened opened' : List Opened} {p : Position} {cs : List Char}
    {ts : List Token} (h : tokensFrom last opened p cs = .ok ts) (hlast : last.map Token.lexed = last'.map Token.lexed)
    (hopened : opened.map Opened.shape = opened'.map Opened.shape) (p' : Position) :
    ∃ ts', tokensFrom last' opened' p' cs = .ok ts' ∧ ts.map Token.unplaced = ts'.map Token.unplaced := by
  fun_induction tokensFrom last opened p cs generalizing last' opened' p' ts with
  | case1 | case3 | case4 | case5 | case6 => cases h
  | case2 last p cs gap hgap hdrop =>
    cases h
    obtain rfl : opened' = [] := by simpa using hopened.symm
    exact ⟨[], tokensFrom_done hgap hdrop last' p', rfl⟩
  | case7 last opened p cs gap hgap q c rest =>
    rename_i hdrop kind n hlexeme text control opened₁ htrack token tokens htokens ih
    cases h
    rw [dite_eq_ite] at htrack
    let q' := p'.after (cs.take gap)
    obtain ⟨after, htrack', hafter⟩ := tracked_unplaced htrack hopened (any_isControlKeyword_congr hlast) q'
    let token' : Token := { token with place := q' }
    have htoken : (some token).map Token.lexed = (some token').map Token.lexed := rfl
    obtain ⟨ts', hts', hmap⟩ := ih htokens htoken hafter (q'.after token'.text.toList)
    rw [lexeme_congr hlast] at hlexeme
    refine ⟨token' :: ts', tokensFrom_token hgap hdrop hlexeme rfl rfl rfl htrack' hts', ?_⟩
    rw [List.map_cons, List.map_cons, hmap]
    rfl

/-- What a scan that succeeds has read first. -/
theorem tokensFrom_cases {last : Option Token} {opened : List Opened} {p : Position} {cs : List Char} {ts : List Token}
    (h : tokensFrom last opened p cs = .ok ts) :
    (∃ gap, gapLength 0 .blank cs = .ok gap ∧ cs.drop gap = [] ∧ ts = []) ∨
      ∃ gap c rest n t opened' ts', gapLength 0 .blank cs = .ok gap ∧ cs.drop gap = c :: rest ∧
        lexeme last c rest = .ok (t.kind, n) ∧ t.text = String.ofList (c :: rest.take n) ∧
        (if t.kind = .punctuator then track opened last t.place t.text else .ok (false, opened)) =
          .ok (t.controlClose, opened') ∧
        tokensFrom (some t) opened' (t.place.after t.text.toList) (rest.drop n) = .ok ts' ∧ ts = t :: ts' := by
  fun_induction tokensFrom last opened p cs with
  | case1 | case3 | case4 | case5 | case6 => cases h
  | case2 last p cs gap hgap hdrop =>
    cases h
    exact .inl ⟨gap, hgap, hdrop, rfl⟩
  | case7 last opened p cs gap hgap q c rest =>
    rename_i hdrop kind n hlexeme text control opened₁ htrack token tokens htokens _
    cases h
    rw [dite_eq_ite] at htrack
    have hafter : token.place.after token.text.toList = q.after (c :: rest.take n) := by
      rw [String.toList_ofList]
    refine .inr ⟨gap, c, rest, n, token, opened₁, tokens, hgap, hdrop, hlexeme, rfl, htrack, ?_, rfl⟩
    rw [hafter]
    exact htokens

/-! ## Passes -/

theorem insertSemicolons_unplaced (ts : List Token) :
    insertSemicolons (ts.map Token.unplaced) = (insertSemicolons ts).map Token.unplaced := by
  fun_induction insertSemicolons ts with
  | case1 | case2 => rfl
  | case3 t u rest hbreak ih =>
    rw [List.map_cons, List.map_cons, insertSemicolons, ← List.map_cons, ih]
    exact if_pos hbreak
  | case4 t u rest hbreak ih =>
    rw [List.map_cons, List.map_cons, insertSemicolons, ← List.map_cons, ih]
    exact if_neg hbreak

theorem isBlockPosition_unplaced (last : Option Token) (t : Token) :
    isBlockPosition (last.map Token.unplaced) t.unplaced = isBlockPosition last t := by
  cases last <;> rfl

theorem any_unplaced (last : Option Token) :
    (last.map Token.unplaced).any Token.isControlPosition = last.any Token.isControlPosition := by
  cases last <;> rfl

theorem closingLength?_unplaced (depth : Nat) (ts : List Token) :
    closingLength? depth (ts.map Token.unplaced) = closingLength? depth ts := by
  induction ts generalizing depth with
  | nil => rfl
  | cons t ts ih => simp only [List.map_cons, closingLength?, unplaced_isOpening, unplaced_isClosing, ih]

theorem consoleCallLength?_unplaced (last : Option Token) (ts : List Token) :
    consoleCallLength? (last.map Token.unplaced) (ts.map Token.unplaced) = consoleCallLength? last ts := by
  match ts with
  | [] | [_] | [_, _] | [_, _, _] => rfl
  | t :: dot :: method :: paren :: rest =>
    simp only [List.map_cons, consoleCallLength?, closingLength?_unplaced, isBlockPosition_unplaced, any_unplaced,
      ← List.map_drop, List.head?_map, unplaced_isPunct, unplaced_isWord]
    rw [show method.unplaced.kind = method.kind from rfl]
    split
    · cases closingLength? 1 rest with
      | none => rfl
      | some n =>
        dsimp only
        cases (rest.drop n).head? <;> rfl
    · rfl

theorem dropConsoleFrom_unplaced (last : Option Token) (ts : List Token) :
    dropConsoleFrom (last.map Token.unplaced) (ts.map Token.unplaced) =
      (dropConsoleFrom last ts).map Token.unplaced := by
  have hhas : ∀ after : List Token, (after.map Token.unplaced).head?.any (·.isPunct ";") =
      after.head?.any (·.isPunct ";") := by
    intro after
    cases after <;> rfl
  fun_induction dropConsoleFrom last ts with
  | case1 => simp [dropConsoleFrom]
  | case2 last t rest hcall ih =>
    rw [← consoleCallLength?_unplaced, List.map_cons] at hcall
    rw [List.map_cons, dropConsoleFrom_of_none hcall]
    exact congrArg _ ih
  | case3 last t rest n hcall after hsemicolon hcontrol hsome ih =>
    rw [← consoleCallLength?_unplaced, List.map_cons] at hcall
    rw [List.map_cons, dropConsoleFrom_of_some hcall, any_unplaced, if_pos hcontrol, ← List.map_drop, hhas,
      if_pos hsome]
    exact ih
  | case4 last t rest n hcall after hsemicolon hcontrol hnone semicolon ih =>
    have hlast : ((rest.take (n - 1)).map Token.unplaced).getLast?.getD t.unplaced =
        ((rest.take (n - 1)).getLast?.getD t).unplaced := by
      rw [List.getLast?_map]
      cases (rest.take (n - 1)).getLast? <;> rfl
    rw [← consoleCallLength?_unplaced, List.map_cons] at hcall
    rw [List.map_cons, dropConsoleFrom_of_some hcall, any_unplaced, if_pos hcontrol, ← List.map_drop, hhas,
      if_neg hnone, ← List.map_take, hlast]
    exact congrArg _ ih
  | case5 last t rest n hcall after hsemicolon hcontrol hsome ih =>
    rw [← consoleCallLength?_unplaced, List.map_cons] at hcall
    rw [List.map_cons, dropConsoleFrom_of_some hcall, any_unplaced, if_neg hcontrol, ← List.map_drop, hhas,
      if_pos hsome, ← List.map_drop]
    exact ih
  | case6 last t rest n hcall after hsemicolon hcontrol hnone ih =>
    rw [← consoleCallLength?_unplaced, List.map_cons] at hcall
    rw [List.map_cons, dropConsoleFrom_of_some hcall, any_unplaced, if_neg hcontrol, ← List.map_drop, hhas,
      if_neg hnone]
    exact ih

theorem declarationLength?_unplaced (ts : List Token) :
    declarationLength? (ts.map Token.unplaced) = declarationLength? ts := by
  match ts with
  | [] | [_] => rfl
  | name :: paren :: rest =>
    simp only [List.map_cons, declarationLength?, closingLength?_unplaced, ← List.map_drop, unplaced_isPunct]
    rw [show name.unplaced.kind = name.kind from rfl]
    split
    · cases closingLength? 1 rest with
      | none => rfl
      | some n =>
        dsimp only
        cases rest.drop n with
        | nil => rfl
        | cons brace body =>
          rw [List.map_cons]
          dsimp only
          rw [closingLength?_unplaced, unplaced_isPunct]
          split
          · cases closingLength? 1 body with
            | none => rfl
            | some m =>
              dsimp only
              rw [← List.map_drop]
              cases body.drop m <;> rfl
          · rfl
    · rfl

theorem declared?_unplaced (depth : Nat) (last : Option Token) (t : Token) (rest : List Token) :
    declared? depth (last.map Token.unplaced) t.unplaced (rest.map Token.unplaced) = declared? depth last t rest := by
  simp only [declared?, unplaced_isWord, isBlockPosition_unplaced, declarationLength?_unplaced]

/-- A piece without the places of its tokens. -/
def Piece.unplaced : Piece → Piece
  | .token t => .token t.unplaced
  | .declaration name ts => .declaration name (ts.map Token.unplaced)

theorem piecesFrom_unplaced (depth : Nat) (last : Option Token) (ts : List Token) :
    piecesFrom depth (last.map Token.unplaced) (ts.map Token.unplaced) =
      (piecesFrom depth last ts).map Piece.unplaced := by
  fun_induction piecesFrom depth last ts with
  | case1 => simp [piecesFrom]
  | case2 depth last t rest declared name n hdeclared declaration ih =>
    have hdeclared : declared? depth last t rest = some (name, n) := hdeclared
    rw [← declared?_unplaced] at hdeclared
    rw [List.map_cons, piecesFrom_of_some hdeclared, ← List.map_take, ← List.map_drop, ← List.map_cons,
      List.getLast?_map, ih]
    rfl
  | case3 depth last t rest declared hdeclared ih =>
    have hdeclared : declared? depth last t rest = none := hdeclared
    rw [← declared?_unplaced] at hdeclared
    rw [List.map_cons, piecesFrom_of_none hdeclared]
    exact congrArg _ ih

theorem tokens_unplaced (p : Piece) : p.unplaced.tokens = p.tokens.map Token.unplaced := by
  cases p <;> rfl

theorem mentions_unplaced (name : String) (ps : List Piece) :
    Piece.mentions name (ps.map Piece.unplaced) = Piece.mentions name ps := by
  simp only [Piece.mentions, List.any_map, Function.comp_def, tokens_unplaced, unplaced_isWord]

theorem dropUnmentioned_unplaced (before ps : List Piece) :
    dropUnmentioned (before.map Piece.unplaced) (ps.map Piece.unplaced) =
      (dropUnmentioned before ps).map Piece.unplaced := by
  fun_induction dropUnmentioned before ps with
  | case1 => rfl
  | case2 before after t ih =>
    rw [List.map_append] at ih
    exact congrArg _ ih
  | case3 before after name tokens hmentioned ih =>
    rw [List.map_append] at ih
    rw [List.map_cons, Piece.unplaced, dropUnmentioned, mentions_unplaced, mentions_unplaced, if_pos hmentioned]
    exact congrArg _ ih
  | case4 before after name tokens hunmentioned ih =>
    rw [List.map_append] at ih
    rw [List.map_cons, Piece.unplaced, dropUnmentioned, mentions_unplaced, mentions_unplaced, if_neg hunmentioned]
    exact ih

theorem keptTokens_unplaced (ts : List Token) :
    keptTokens (ts.map Token.unplaced) = (keptTokens ts).map Token.unplaced := by
  have hpieces := piecesFrom_unplaced 0 none ts
  have hkept := dropUnmentioned_unplaced [] (pieces ts)
  rw [keptTokens, pieces, ← Option.map_none, hpieces, ← pieces, ← List.map_nil, hkept, keptTokens, List.map_flatMap,
    List.flatMap_map]
  exact List.flatMap_congr fun p _ => tokens_unplaced p

theorem dropUnused_unplaced (ts : List Token) :
    dropUnused (ts.map Token.unplaced) = (dropUnused ts).map Token.unplaced := by
  fun_induction dropUnused ts with
  | case1 ts kept hshorter ih =>
    rw [← dropUnused_keptTokens, keptTokens_unplaced]
    exact ih
  | case2 ts kept hsame =>
    have hkept : keptTokens ts = ts := (keptTokens_sublist ts).eq_of_length_le (Nat.le_of_not_lt hsame)
    rw [dropUnused]
    refine if_neg ?_
    change ¬(keptTokens (ts.map Token.unplaced)).length < _
    rw [keptTokens_unplaced, hkept]
    exact Nat.lt_irrefl _

theorem isRedundant_unplaced (last next : Option Token) :
    isRedundant (last.map Token.unplaced) (next.map Token.unplaced) = isRedundant last next := by
  cases last <;> cases next <;> rfl

theorem dropSemicolonsFrom_unplaced (last : Option Token) (depth : Nat) (ts : List Token) :
    dropSemicolonsFrom (last.map Token.unplaced) depth (ts.map Token.unplaced) =
      (dropSemicolonsFrom last depth ts).map Token.unplaced := by
  fun_induction dropSemicolonsFrom last depth ts with
  | case1 => rfl
  | case2 last depth t ts depth' hdrop ih =>
    rw [List.map_cons, dropSemicolonsFrom, List.head?_map, isRedundant_unplaced]
    exact (if_pos hdrop).trans ih
  | case3 last depth t ts depth' hkeep ih =>
    rw [List.map_cons, dropSemicolonsFrom, List.head?_map, isRedundant_unplaced]
    exact (if_neg hkeep).trans (congrArg _ ih)

/-- The passes do not look at places. -/
theorem shorten_unplaced (options : Options) (ts : List Token) :
    shorten options (ts.map Token.unplaced) = (shorten options ts).map Token.unplaced := by
  have hconsole : ∀ ts, dropConsole (ts.map Token.unplaced) = (dropConsole ts).map Token.unplaced :=
    dropConsoleFrom_unplaced none
  have hsemicolons : ∀ ts, dropSemicolons (ts.map Token.unplaced) = (dropSemicolons ts).map Token.unplaced :=
    dropSemicolonsFrom_unplaced none 0
  obtain ⟨_ | _, _ | _, _, _ | _, _ | _⟩ := options <;>
    simp only [shorten, insertSemicolons_unplaced, hconsole, dropUnused_unplaced, hsemicolons, if_true,
      Bool.false_eq_true, if_false]

/-- Nor is a place written. -/
theorem renderFrom_unplaced (minifyWhitespace : Bool) (last : Option Token) (ts : List Token) :
    renderFrom minifyWhitespace (last.map Token.unplaced) (ts.map Token.unplaced) =
      renderFrom minifyWhitespace last ts := by
  induction ts generalizing last with
  | nil => rfl
  | cons t ts ih =>
    have hrest := ih (some t)
    cases last with
    | none => exact congrArg (_ ++ ·) hrest
    | some p => exact congrArg (_ ++ ·) hrest

theorem openAfter_unplaced (opened : List Char) (ts : List Token) :
    openAfter opened (ts.map Token.unplaced) = openAfter opened ts := by
  induction ts generalizing opened with
  | nil => rfl
  | cons t ts ih =>
    rw [List.map_cons, openAfter, openAfter, funext ih]
    rfl

theorem render_unplaced (ts : List Token) : render true (ts.map Token.unplaced) = render true ts :=
  renderFrom_unplaced true none ts

end AliasLang.Script
