/-
What the passes over the tokens of a script can do. A pass keeps a token, puts in a semicolon, or drops a stretch that
closes each bracket that it opens: a semicolon, a console call, a function declaration. So the brackets stay properly
nested, and each token that is left is one of the script or a semicolon.
-/
import AliasLang.Proofs.Script.Brackets

namespace AliasLang.Script

/-- The second list comes from the first by putting semicolons in and dropping closed stretches. -/
inductive Edited : List Token → List Token → Prop
  | nil : Edited [] []
  | keep {t : Token} {ts ts' : List Token} : Edited ts ts' → Edited (t :: ts) (t :: ts')
  | insert {t : Token} {ts ts' : List Token} : t.isPunct ";" = true → Edited ts ts' → Edited ts (t :: ts')
  | drop {stretch ts ts' : List Token} : Closed stretch → Edited ts ts' → Edited (stretch ++ ts) ts'
  | trans {ts ts' ts'' : List Token} : Edited ts ts' → Edited ts' ts'' → Edited ts ts''

theorem Edited.refl (ts : List Token) : Edited ts ts := by
  induction ts with
  | nil => exact .nil
  | cons t ts ih => exact .keep ih

theorem Edited.append {a a' b b' : List Token} (ha : Edited a a') (hb : Edited b b') : Edited (a ++ b) (a' ++ b') := by
  induction ha generalizing b b' with
  | nil => exact hb
  | keep _ ih => exact .keep (ih hb)
  | insert ht _ ih => exact .insert ht (ih hb)
  | drop hstretch _ ih =>
    rw [List.append_assoc]
    exact .drop hstretch (ih hb)
  | trans _ _ ih ih' => exact .trans (ih hb) (ih' (.refl _))

/-! ## What stays -/

theorem isPlain_semicolon {t : Token} (h : t.isPunct ";" = true) : t.isPlain = true :=
  isPlain_of_isPunct h (by decide)

theorem Edited.openAfter {ts ts' : List Token} (h : Edited ts ts') :
    ∀ opened after, openAfter opened ts = some after → openAfter opened ts' = some after := by
  induction h with
  | nil => exact fun _ _ hopen => hopen
  | keep _ ih =>
    intro opened after hopen
    rw [Script.openAfter, Option.bind_eq_some_iff] at hopen ⊢
    obtain ⟨middle, hmiddle, hafter⟩ := hopen
    exact ⟨middle, hmiddle, ih _ _ hafter⟩
  | insert ht _ ih =>
    intro opened after hopen
    rw [Script.openAfter, openBy_plain (isPlain_semicolon ht)]
    exact ih _ _ hopen
  | drop hstretch _ ih => exact fun opened after hopen => ih _ _ (hstretch.leave hopen)
  | trans _ _ ih ih' => exact fun opened after hopen => ih' _ _ (ih _ _ hopen)

theorem Edited.nested {ts ts' : List Token} (h : Edited ts ts') (hts : Nested ts) : Nested ts' :=
  h.openAfter [] [] hts

theorem Edited.mem {ts ts' : List Token} (h : Edited ts ts') : ∀ t ∈ ts', t ∈ ts ∨ t.isPunct ";" = true := by
  induction h with
  | nil => simp
  | keep _ ih =>
    intro t ht
    rcases List.mem_cons.mp ht with rfl | ht
    · exact .inl List.mem_cons_self
    · exact (ih t ht).imp_left (List.mem_cons_of_mem _)
  | insert hsemicolon _ ih =>
    intro t ht
    rcases List.mem_cons.mp ht with rfl | ht
    · exact .inr hsemicolon
    · exact ih t ht
  | drop _ _ ih => exact fun t ht => (ih t ht).imp_left (List.mem_append_right _)
  | trans _ _ ih ih' =>
    intro t ht
    rcases ih' t ht with ht | hsemicolon
    · exact ih t ht
    · exact .inr hsemicolon

/-- A property of tokens that semicolons have holds after the edit when it holds before. -/
theorem Edited.forall_mem {P : Token → Prop} {ts ts' : List Token} (h : Edited ts ts')
    (hsemicolon : ∀ t, t.isPunct ";" = true → P t) (hts : ∀ t ∈ ts, P t) : ∀ t ∈ ts', P t := by
  intro t ht
  rcases h.mem t ht with ht | ht
  · exact hts t ht
  · exact hsemicolon t ht

/-! ## Semicolons -/

theorem isPunct_semicolonAfter (t : Token) : t.semicolonAfter.isPunct ";" = true := by
  simp [Token.semicolonAfter, Token.isPunct]

theorem Edited.dropSemicolon {t : Token} (ht : t.isPunct ";" = true) {ts ts' : List Token} (h : Edited ts ts') :
    Edited (t :: ts) ts' :=
  .drop (.plain (isPlain_semicolon ht)) h

theorem insertSemicolons_edited (ts : List Token) : Edited ts (insertSemicolons ts) := by
  fun_induction insertSemicolons ts with
  | case1 => exact .nil
  | case2 t => exact .refl [t]
  | case3 t u rest hbreak ih => exact .keep (.insert (isPunct_semicolonAfter t) ih)
  | case4 t u rest hbreak ih => exact .keep ih

theorem dropSemicolonsFrom_edited (last : Option Token) (depth : Nat) (ts : List Token) :
    Edited ts (dropSemicolonsFrom last depth ts) := by
  fun_induction dropSemicolonsFrom last depth ts with
  | case1 => exact .nil
  | case2 last depth t ts depth' hdrop ih =>
    simp only [Bool.and_eq_true] at hdrop
    exact .dropSemicolon hdrop.1.1 ih
  | case3 last depth t ts depth' hkeep ih => exact .keep ih

/-! ## Console calls -/

theorem isPlain_of_isWord {t : Token} {text : String} (h : t.isWord text = true) : t.isPlain = true := by
  apply isPlain_of_kind
  simp only [Token.isWord, Bool.and_eq_true, decide_eq_true_eq] at h
  simp [h.1]

/-- A console call is the object, a point, the method, and its arguments in parentheses. -/
theorem consoleCallLength?_closed {last : Option Token} {t : Token} {rest : List Token} {n : Nat}
    (h : consoleCallLength? last (t :: rest) = some n) : Closed (t :: rest.take (n - 1)) := by
  unfold consoleCallLength? at h
  split at h
  · rename_i t dot method paren rest hts
    split at h
    · rename_i hshape
      simp only [Bool.and_eq_true, decide_eq_true_eq] at hshape
      obtain ⟨⟨⟨⟨ht, hdot⟩, hmethod⟩, hparen⟩, -⟩ := hshape
      obtain ⟨m, hm, rfl⟩ : ∃ m, closingLength? 1 rest = some m ∧ n = m + 4 := by
        split at h
        · cases h
        · rename_i m hm
          refine ⟨m, hm, ?_⟩
          repeat' split at h
          all_goals cases h
          all_goals rfl
      cases hts
      have hmethod : method.isPlain = true := isPlain_of_kind (by simp [hmethod])
      have hopening : paren.isOpening = true := by simp [Token.isOpening, hparen]
      have hargs : Closed (paren :: rest.take m) := .bracketed hopening hm
      exact .cons (isPlain_of_isWord ht) (.cons (isPlain_of_isPunct hdot (by decide)) (.cons hmethod hargs))
    · cases h
  · cases h

theorem dropConsoleFrom_of_none {last : Option Token} {t : Token} {rest : List Token}
    (h : consoleCallLength? last (t :: rest) = none) :
    dropConsoleFrom last (t :: rest) = t :: dropConsoleFrom (some t) rest := by
  rw [dropConsoleFrom, h]

theorem dropConsoleFrom_of_some {last : Option Token} {t : Token} {rest : List Token} {n : Nat}
    (h : consoleCallLength? last (t :: rest) = some n) :
    dropConsoleFrom last (t :: rest) =
      if last.any Token.isControlPosition then
        if (rest.drop (n - 1)).head?.any (·.isPunct ";") then dropConsoleFrom last (rest.drop (n - 1))
        else
          let semicolon := ((rest.take (n - 1)).getLast?.getD t).semicolonAfter
          semicolon :: dropConsoleFrom (some semicolon) (rest.drop (n - 1))
      else if (rest.drop (n - 1)).head?.any (·.isPunct ";") then dropConsoleFrom last ((rest.drop (n - 1)).drop 1)
      else dropConsoleFrom last (rest.drop (n - 1)) := by
  rw [dropConsoleFrom, h]

/-- A closed stretch at the front is dropped. -/
theorem Edited.dropFront {t : Token} {rest ts' : List Token} {n : Nat} (hstretch : Closed (t :: rest.take n))
    (h : Edited (rest.drop n) ts') : Edited (t :: rest) ts' := by
  rw [← List.take_append_drop n rest, ← List.cons_append]
  exact .drop hstretch h

theorem dropConsoleFrom_edited (last : Option Token) (ts : List Token) : Edited ts (dropConsoleFrom last ts) := by
  fun_induction dropConsoleFrom last ts with
  | case1 => exact .nil
  | case2 last t rest hcall ih => exact .keep ih
  | case3 last t rest n hcall after hsemicolon hcontrol hhas ih =>
    exact .dropFront (consoleCallLength?_closed hcall) ih
  | case4 last t rest n hcall after hsemicolon hcontrol hhas semicolon ih =>
    exact .dropFront (consoleCallLength?_closed hcall) (.insert (isPunct_semicolonAfter _) ih)
  | case5 last t rest n hcall after hsemicolon hcontrol hhas ih =>
    refine .dropFront (consoleCallLength?_closed hcall) ?_
    change Edited after _
    cases hafter : after with
    | nil => simp [hsemicolon, hafter] at hhas
    | cons u us =>
      have hu : u.isPunct ";" = true := by simpa [hsemicolon, hafter] using hhas
      rw [hafter] at ih
      exact .dropSemicolon hu ih
  | case6 last t rest n hcall after hsemicolon hcontrol hhas ih =>
    exact .dropFront (consoleCallLength?_closed hcall) ih

/-! ## Function declarations -/

/-- What follows the keyword in a declaration: a name, the parameters in parentheses and the body in braces. -/
theorem declarationLength?_cases {ts : List Token} {name : String} {n : Nat}
    (h : declarationLength? ts = some (name, n)) :
    ∃ word paren rest brace body k m, ts = word :: paren :: rest ∧ word.isWord name = true ∧ paren.isPunct "(" = true ∧
      closingLength? 1 rest = some k ∧ rest.drop k = brace :: body ∧ brace.isPunct "\x7b" = true ∧
      closingLength? 1 body = some m ∧ n = k + m + 3 + if (body.drop m).head?.any (·.isPunct ";") then 1 else 0 := by
  unfold declarationLength? at h
  split at h
  · rename_i word paren rest
    split at h
    · rename_i hshape
      simp only [Bool.and_eq_true, decide_eq_true_eq] at hshape
      split at h
      · cases h
      · rename_i k hk
        split at h
        · cases h
        · rename_i brace body hbody
          split at h
          · rename_i hbrace
            split at h
            · cases h
            · rename_i m hm
              cases h
              exact ⟨word, paren, rest, brace, body, k, m, rfl, by simp [Token.isWord, hshape.1], hshape.2, hk, hbody,
                hbrace, hm, rfl⟩
          · cases h
    · cases h
  · cases h

theorem take_declaration {rest body : List Token} {brace : Token} {k : Nat} (word paren : Token)
    (hbody : rest.drop k = brace :: body) (m semicolon : Nat) :
    (word :: paren :: rest).take (k + m + 3 + semicolon) =
      word :: ((paren :: rest.take k) ++ ((brace :: body.take m) ++ (body.drop m).take semicolon)) := by
  have hlength : k < rest.length := by
    have := congrArg List.length hbody
    simp only [List.length_drop, List.length_cons] at this
    omega
  rw [show k + m + 3 + semicolon = (k + (m + semicolon + 1)) + 2 by omega, List.take_succ_cons, List.take_succ_cons,
    List.take_add, hbody, List.take_succ_cons, List.take_add]
  simp

theorem declarationLength?_closed {ts : List Token} {name : String} {n : Nat}
    (h : declarationLength? ts = some (name, n)) : Closed (ts.take n) := by
  obtain ⟨word, paren, rest, brace, body, k, m, rfl, hword, hparen, hk, hbody, hbrace, hm, rfl⟩ :=
    declarationLength?_cases h
  have hparen : paren.isOpening = true := by simp [Token.isOpening, hparen]
  have hbrace : brace.isOpening = true := by simp [Token.isOpening, hbrace]
  -- the semicolon that may follow is a closed stretch of its own
  have hsemicolon : Closed ((body.drop m).take (if (body.drop m).head?.any (·.isPunct ";") then 1 else 0)) := by
    split
    · rename_i hhead
      cases hdrop : body.drop m with
      | nil => exact .nil
      | cons t after =>
        rw [hdrop] at hhead
        exact .plain (isPlain_semicolon hhead)
    · exact .nil
  generalize (if (body.drop m).head?.any (·.isPunct ";") then 1 else 0) = semicolon at hsemicolon ⊢
  rw [take_declaration word paren hbody]
  exact .cons (isPlain_of_isWord hword) ((Closed.bracketed hparen hk).append
    ((Closed.bracketed hbrace hm).append hsemicolon))

/-- The name and the length of the declaration that is cut off as a piece where `t` comes before `rest`. -/
def declared? (depth : Nat) (last : Option Token) (t : Token) (rest : List Token) : Option (String × Nat) :=
  if depth = 0 && t.isWord "function" && isBlockPosition last t then declarationLength? rest else none

theorem piecesFrom_of_some {depth : Nat} {last : Option Token} {t : Token} {rest : List Token} {name : String} {n : Nat}
    (h : declared? depth last t rest = some (name, n)) : piecesFrom depth last (t :: rest) =
      .declaration name (t :: rest.take n) :: piecesFrom depth (t :: rest.take n).getLast? (rest.drop n) := by
  rw [declared?] at h
  rw [piecesFrom, h]

theorem piecesFrom_of_none {depth : Nat} {last : Option Token} {t : Token} {rest : List Token}
    (h : declared? depth last t rest = none) :
    piecesFrom depth last (t :: rest) = .token t :: piecesFrom (depthAfter depth t) (some t) rest := by
  rw [declared?] at h
  rw [piecesFrom, h]

theorem piecesFrom_tokens (depth : Nat) (last : Option Token) (ts : List Token) :
    (piecesFrom depth last ts).flatMap Piece.tokens = ts := by
  fun_induction piecesFrom depth last ts with
  | case1 => rfl
  | case2 depth last t rest declared name n hdeclared declaration ih =>
    rw [List.flatMap_cons, ih]
    simp [Piece.tokens, declaration]
  | case3 depth last t rest declared hdeclared ih =>
    rw [List.flatMap_cons, ih]
    rfl

/-- A declaration among the pieces is closed. -/
theorem piecesFrom_declaration (depth : Nat) (last : Option Token) (ts : List Token) {name : String}
    {tokens : List Token} (h : .declaration name tokens ∈ piecesFrom depth last ts) : Closed tokens := by
  fun_induction piecesFrom depth last ts with
  | case1 => cases h
  | case2 depth last t rest declared name' n hdeclared declaration ih =>
    rcases List.mem_cons.mp h with h | h
    · rw [(Piece.declaration.inj h).2]
      simp only [declared] at hdeclared
      split at hdeclared
      · rename_i hfunction
        simp only [Bool.and_eq_true] at hfunction
        exact .cons (isPlain_of_isWord hfunction.1.2) (declarationLength?_closed hdeclared)
      · cases hdeclared
    · exact ih h
  | case3 depth last t rest declared hdeclared ih =>
    rcases List.mem_cons.mp h with h | h
    · cases h
    · exact ih h

theorem dropUnmentioned_edited (before ps : List Piece)
    (hclosed : ∀ name tokens, .declaration name tokens ∈ ps → Closed tokens) :
    Edited (ps.flatMap Piece.tokens) ((dropUnmentioned before ps).flatMap Piece.tokens) := by
  fun_induction dropUnmentioned before ps with
  | case1 => exact .nil
  | case2 before after t ih =>
    rw [List.flatMap_cons, List.flatMap_cons]
    exact .append (.refl _) (ih fun name tokens h => hclosed name tokens (List.mem_cons_of_mem _ h))
  | case3 before after name tokens hmentioned ih =>
    rw [List.flatMap_cons, List.flatMap_cons]
    exact .append (.refl _) (ih fun name tokens h => hclosed name tokens (List.mem_cons_of_mem _ h))
  | case4 before after name tokens hunmentioned ih =>
    rw [List.flatMap_cons]
    exact .drop (hclosed name tokens List.mem_cons_self)
      (ih fun name tokens h => hclosed name tokens (List.mem_cons_of_mem _ h))

theorem dropUnused_edited (ts : List Token) : Edited ts (dropUnused ts) := by
  fun_induction dropUnused ts with
  | case1 ts kept hshorter ih =>
    have hround : Edited ts kept := by
      have h := dropUnmentioned_edited [] (pieces ts) fun _ _ => piecesFrom_declaration 0 none ts
      rwa [pieces, piecesFrom_tokens] at h
    exact hround.trans ih
  | case2 ts kept hshorter => exact .refl ts

/-! ## All passes -/

theorem Edited.ite {ts ts' : List Token} (asked : Bool) (h : Edited ts ts') :
    Edited ts (if asked = true then ts' else ts) := by
  split
  · exact h
  · exact .refl ts

theorem shorten_edited (options : Options) (ts : List Token) : Edited ts (shorten options ts) :=
  (Edited.ite options.minifyWhitespace (insertSemicolons_edited ts)).trans <|
    (Edited.ite options.dropConsole (dropConsoleFrom_edited none _)).trans <|
      (Edited.ite options.treeShake (dropUnused_edited _)).trans <|
        .ite options.minifySyntax (dropSemicolonsFrom_edited none 0 _)

end AliasLang.Script
