/-
The canonical layout keeps a program. The tokens of the layout are of the same kinds, in the same order, as the tokens
the program was read from: names, users, argument literals and scripts are written as they were read, and string
literals in their canonical form. So the layout parses, and up to places it parses to the same program.
-/
import AliasLang.Proofs.Program.Literal
import AliasLang.Proofs.Program.ParserGrammar
import AliasLang.Proofs.Token.Scan

namespace AliasLang.Program

open Source (Span)
open Token (Kind Keyword Lexes Phrase Block)
open Grammar

/-! ## Places are not written -/

theorem Simple.layout_erase (a : Simple) : a.erase.layout = a.layout := by
  cases a with
  | script a =>
    obtain ⟨_ | i, script, span⟩ := a <;> rfl
  | commands l => rfl
  | say literal span => cases literal <;> rfl
  | call c => rfl

theorem Step.layout_erase (s : Step) : s.erase.layout = s.layout := by
  cases s with
  | store s => rfl
  | action a => exact a.layout_erase

theorem chainLayout_eraseChain (chain : List Link) : chainLayout (eraseChain chain) = chainLayout chain := by
  simp only [chainLayout, eraseChain, List.map_map, Function.comp_def, Step.layout_erase]

theorem Execute.layout_erase (e : Execute) : e.erase.layout = e.layout := by
  obtain ⟨retrieve, action, chain, span⟩ := e
  simp only [Execute.layout, Execute.erase, Simple.layout_erase, chainLayout_eraseChain]
  rcases retrieve with _ | (_ | _) <;> rfl

mutual

theorem Action.layout_erase (level : Nat) : ∀ a : Action, a.erase.layout level = a.layout level
  | .execute e => by rw [Action.erase, Action.layout, Action.layout, e.layout_erase]
  | .compiled actions _ chain _ => by
    rw [Action.erase, Action.layout, Action.layout, actionsLayout_eraseActions _ actions, chainLayout_eraseChain]

theorem actionsLayout_eraseActions (level : Nat) : ∀ actions : List Action,
    actionsLayout level (eraseActions actions) = actionsLayout level actions
  | [] => rfl
  | a :: rest => by
    rw [eraseActions, actionsLayout, actionsLayout, Action.layout_erase level a, actionsLayout_eraseActions level rest]

end

theorem Declaration.layout_erase (d : Declaration) : d.erase.layout = d.layout := by
  cases d with
  | entry e => rfl
  | define a => simp only [Declaration.erase, Declaration.layout, actionsLayout_eraseActions]

theorem layout_erase (p : Program) : p.erase.layout = p.layout := by
  simp only [layout, erase, List.map_map, Function.comp_def, Declaration.layout_erase]

/-! ## Tokens that can be written -/

/-- How the layout writes a token. -/
def spelling : Kind → List Char
  | .string value => (literal value).toList
  | k => k.spelling?.getD []

/-- A token that is read back from how the layout writes it. -/
def Printable (k : Kind) : Prop := Phrase (spelling k) [k]

theorem Printable.keyword {k : Keyword} (h : Printable (.keyword k)) : Phrase k.text.toList [.keyword k] := h

theorem Printable.arrow (h : Printable .arrow) : Phrase ['-', '>'] [.arrow] := h

/-- Every string can be written. -/
theorem string_phrase (value : String) : Phrase (literal value).toList [.string value] := by
  have hsource := literal_isSourceChar value
  rw [literal_toList] at hsource ⊢
  exact Token.phrase_of_lexeme hsource fun rest _ => lexeme_literal value rest

/-- Every token that was read can be written. -/
theorem printable_of_lexeme {c : Char} {cs : List Char} {k : Kind} {n : Nat} (h : Token.lexeme c cs = .ok (k, n))
    (hsource : ∀ e ∈ c :: cs, Token.isSourceChar e = true) : Printable k := by
  have hstands := Token.lexeme_stands h
  have hphrase : Phrase (c :: cs.take n) [k] := by
    refine Token.phrase_of_lexeme ?_ fun rest hsep => ?_
    · intro e he
      rcases List.mem_cons.mp he with rfl | he
      · exact hsource e (by simp)
      · exact hsource e (List.mem_cons_of_mem c (List.mem_of_mem_take he))
    · rw [List.length_take_of_le hstands.length_le]
      exact hstands.again rest hsep
  cases k with
  | string value => exact string_phrase value
  | endOfInput => exact absurd rfl hstands.notEnd
  | keyword | arrow | bar | identifier | user | argument | script =>
    rw [hstands.spelling _ rfl] at hphrase
    exact hphrase

/-! ## Actions -/

theorem Grammar.Ident.phrase {name : String} {k : Kind} (h : Ident name k) (hk : Printable k) :
    Phrase name.toList [k] := by
  cases h with
  | identifier => exact hk
  | keyword => exact hk

/-- An optional keyword, with a blank after it. -/
theorem flag_block {k : Keyword} {isThere : Bool} (h : ∀ j ∈ flag k isThere, Printable j) :
    Block (if isThere then k.text ++ " " else "").toList (flag k isThere) := by
  cases isThere with
  | false => exact Block.nil
  | true =>
    have hk : Printable (.keyword k) := h _ (by simp [flag])
    rw [if_pos rfl, String.toList_append]
    exact hk.keyword.spaced

theorem commands_phrase (further : List String) (hbar : further ≠ [] → Printable .bar) : ∀ first : String,
    Phrase (" | ".intercalate ((first :: further).map literal)).toList
      (.string first :: Grammar.furtherCommands further) := by
  induction further with
  | nil =>
    intro first
    exact string_phrase first
  | cons next further ih =>
    intro first
    have hmark : Phrase ['|'] [.bar] := hbar (by simp)
    have hrest := ih (fun _ => hmark) next
    have h := ((string_phrase first).spaced.append hmark.spaced).phrase hrest
    simpa [String.intercalate_cons_cons, Grammar.furtherCommands] using h

theorem CommandWord.text_commandKeyword (w : CommandWord) : (commandKeyword w).text = w.text := by
  cases w <;> rfl

theorem simple_phrase {a : Simple} {ks : List Kind} (h : SimpleForm a ks) (hk : ∀ k ∈ ks, Printable k) :
    Phrase a.layout.toList ks := by
  cases h with
  | script raw hi =>
    cases hi with
    | absent =>
      simp only [List.nil_append, List.forall_mem_cons] at hk
      obtain ⟨hjs, hscript, -⟩ := hk
      have h := hjs.keyword.spaced.phrase hscript
      simpa [Simple.layout, Keyword.text, spelling, Kind.spelling?, Token.fence] using h
    | present id =>
      simp only [List.cons_append, List.nil_append, List.forall_mem_cons] at hk
      obtain ⟨hjs, himport, -, hscript, -⟩ := hk
      have h := ((hjs.keyword.spaced.append himport.keyword.spaced).append (string_phrase id).spaced).phrase hscript
      simpa [Simple.layout, Keyword.text, spelling, Kind.spelling?, Token.fence] using h
  | commands word first further =>
    simp only [List.forall_mem_cons] at hk
    obtain ⟨hword, -, hfurther⟩ := hk
    have hbar : further ≠ [] → Printable .bar := by
      intro hne
      obtain ⟨c, rest, rfl⟩ := List.exists_cons_of_ne_nil hne
      exact hfurther .bar (by simp [Grammar.furtherCommands])
    have h := hword.keyword.spaced.phrase (commands_phrase further hbar first)
    rw [CommandWord.text_commandKeyword] at h
    simpa [Simple.layout] using h
  | sayNothing => exact hk _ (List.mem_singleton_self _)
  | say text =>
    have hsay : Printable (.keyword .say) := hk _ (by simp)
    have h := hsay.keyword.spaced.phrase (string_phrase text)
    simpa [Simple.layout, Keyword.text] using h
  | call ht =>
    simp only [List.forall_mem_cons] at hk
    obtain ⟨hcall, htarget, -⟩ := hk
    have h := hcall.keyword.spaced.phrase (ht.phrase htarget)
    simpa [Simple.layout, Keyword.text, toString] using h
  | callOf user ht =>
    simp only [List.forall_mem_cons] at hk
    obtain ⟨hcall, huser, htarget, -⟩ := hk
    have huser : Phrase ('@' :: user.toList) [.user user] := huser
    have h := (hcall.keyword.spaced.append huser.spaced).phrase (ht.phrase htarget)
    simpa [Simple.layout, Keyword.text, toString] using h

theorem retrieve_phrase {r : Retrieve} {ks : List Kind} (h : RetrieveForm r ks) (hk : ∀ k ∈ ks, Printable k) :
    Phrase r.layout.toList ks := by
  cases h with
  | key key isLocal =>
    simp only [List.forall_mem_cons, List.forall_mem_append] at hk
    obtain ⟨hget, hlocal, -⟩ := hk
    have h := (hget.keyword.spaced.append (flag_block hlocal)).phrase (string_phrase key)
    simpa [Retrieve.layout, Keyword.text] using h
  | argument literal => exact hk _ (List.mem_singleton_self _)

/-- What has a chain after it is still a phrase, for every chain starts with a blank or is empty. -/
theorem chain_phrase {links : List Link} {js : List Kind} (h : ChainForm links js) :
    (∀ k ∈ js, Printable k) → ∀ {a : List Char} {ks : List Kind}, Phrase a ks →
      Phrase (a ++ (chainLayout links).toList) (ks ++ js) := by
  induction h with
  | nothing =>
    intro _ a ks ha
    simpa [chainLayout] using ha
  | store key isTemp isLocal =>
    intro hk a ks ha
    simp only [List.forall_mem_cons, List.forall_mem_append] at hk
    obtain ⟨harrow, hset, htemp, hlocal, -⟩ := hk
    have h := ((((ha.spaced.append harrow.arrow.spaced).append hset.keyword.spaced).append (flag_block htemp)).append
      (flag_block hlocal)).phrase (string_phrase key)
    simpa [chainLayout, Step.layout, Keyword.text] using h
  | action hform hchain ih =>
    intro hk a ks ha
    simp only [List.forall_mem_cons, List.forall_mem_append] at hk
    obtain ⟨harrow, hks, hjs⟩ := hk
    have h := ih hjs ((ha.spaced.append harrow.arrow.spaced).phrase (simple_phrase hform hks))
    simpa [chainLayout, Step.layout, String.join_cons] using h

mutual

theorem action_block {a : Action} {ks : List Kind} : ActionForm a ks → (∀ k ∈ ks, Printable k) → ∀ level : Nat,
    Block (a.layout level).toList ks
  | .execute ha hc, hk, level => by
    simp only [List.forall_mem_append] at hk
    have h := (Block.spaces (2 * level)).append (chain_phrase hc hk.2 (simple_phrase ha hk.1)).line
    simpa [Action.layout, Execute.layout, indentation] using h
  | .retrieved hr ha hc, hk, level => by
    simp only [List.forall_mem_cons, List.forall_mem_append] at hk
    obtain ⟨hrs, harrow, hks, hjs⟩ := hk
    have hline := ((retrieve_phrase hr hrs).spaced.append harrow.arrow.spaced).phrase (simple_phrase ha hks)
    have h := (Block.spaces (2 * level)).append (chain_phrase hc hjs hline).line
    simpa [Action.layout, Execute.layout, indentation] using h
  | .compiled hb hc, hk, level => by
    simp only [List.forall_mem_cons, List.forall_mem_append] at hk
    obtain ⟨hget, hcompiled, hks, hend, hjs⟩ := hk
    have hopen := (Block.spaces (2 * level)).append (hget.keyword.spaced.append hcompiled.keyword.line)
    have hclose := (Block.spaces (2 * level)).append (chain_phrase hc hjs hend.keyword).line
    have h := (hopen.append (actions_block hb hks (level + 1))).append hclose
    simpa [Action.layout, indentation, Keyword.text] using h

theorem actions_block {actions : List Action} {ks : List Kind} : BodyForm actions ks → (∀ k ∈ ks, Printable k) →
    ∀ level : Nat, Block (actionsLayout level actions).toList ks
  | .nil, _, _ => Block.nil
  | .cons ha hr, hk, level => by
    simp only [List.forall_mem_append] at hk
    rw [actionsLayout, String.toList_append]
    exact (action_block ha hk.1 level).append (actions_block hr hk.2 level)

end

/-! ## Declarations and programs -/

theorem declaration_block {d : Declaration} {ks : List Kind} (h : DeclarationForm d ks) (hk : ∀ k ∈ ks, Printable k) :
    Block d.layout.toList ks := by
  cases h with
  | entry hn =>
    simp only [List.forall_mem_cons] at hk
    obtain ⟨hentry, hname, -⟩ := hk
    have h := hentry.keyword.spaced.append (hn.phrase hname).line
    simpa [Declaration.layout, Keyword.text, toString] using h
  | define hn hp hb =>
    simp only [List.forall_mem_cons, List.forall_mem_append] at hk
    obtain ⟨halias, hname, hps, hks, hend, -⟩ := hk
    have hnamed := halias.keyword.spaced.phrase (hn.phrase hname)
    have hbody := (actions_block hb hks 1).append hend.keyword.line
    cases hp with
    | absent =>
      have h := hnamed.line.append hbody
      simpa [Declaration.layout, Keyword.text] using h
    | present value =>
      have hprefixed : Printable (.keyword .prefixed) := hps _ List.mem_cons_self
      have h := ((hnamed.spaced.append hprefixed.keyword.spaced).phrase (string_phrase value)).line.append hbody
      simpa [Declaration.layout, Keyword.text] using h

theorem declarations_block {ds : List Declaration} {ks : List Kind} (h : DeclarationsForm ds ks) :
    (∀ k ∈ ks, Printable k) → Block ("\n".intercalate (ds.map Declaration.layout)).toList ks := by
  induction h with
  | nil => exact fun _ => Block.nil
  | @cons d rest ks js hd hr ih =>
    intro hk
    simp only [List.forall_mem_append] at hk
    have hfirst := declaration_block hd hk.1
    have hrest := ih hk.2
    cases rest with
    | nil =>
      cases hr
      simpa using hfirst
    | cons e rest =>
      have h := (hfirst.append Block.newline).append hrest
      simpa [String.intercalate_cons_cons] using h

/-- The layout of a derivable program has the tokens that the program is derived from. -/
theorem layout_lexes {p : Program} {ks : List Kind} (h : Derives p ks) (hk : ∀ k ∈ ks, Printable k) :
    Lexes p.layout.toList ks :=
  (declarations_block h hk).lexes

/-! ## Reading the layout back -/

/-- The tokens of a source text before its end: all can be written, and none is the end of input. -/
theorem tokenize_front {source : String} {tokens : List Token} (h : Token.tokenize source = .ok tokens) :
    ∃ front span, tokens = front ++ [⟨.endOfInput, span⟩] ∧ (∀ t ∈ front, t.kind ≠ .endOfInput) ∧
      ∀ t ∈ front, Printable t.kind := by
  obtain ⟨hsource, htokens⟩ := Token.tokenize_eq_ok.mp h
  obtain ⟨front, span, rfl, hfront⟩ := Token.tokensFrom_ok htokens
  refine ⟨front, span, rfl, fun t ht => ?_, fun t ht => ?_⟩
  · obtain ⟨before, c, rest, n, -, hlex, -⟩ := hfront t ht
    exact (Token.lexeme_stands hlex).notEnd
  · obtain ⟨before, c, rest, n, hcs, hlex, -⟩ := hfront t ht
    exact printable_of_lexeme hlex fun e he => hsource e (hcs ▸ List.mem_append_right before he)

/-- A source text whose tokens are of the kinds `ks` has those tokens. -/
theorem tokenize_of_lexes {source : String} {ks : List Kind} (h : Lexes source.toList ks) :
    ∃ front span, Token.tokenize source = .ok (front ++ [⟨.endOfInput, span⟩]) ∧ front.map Token.kind = ks ∧
      ∀ t ∈ front, t.kind ≠ .endOfInput := by
  obtain ⟨tokens, htokens, hkinds⟩ := h.2 .start
  have hok := Token.tokenize_eq_ok.mpr ⟨h.1, htokens⟩
  obtain ⟨front, span, rfl, hend, -⟩ := tokenize_front hok
  rw [List.map_append] at hkinds
  exact ⟨front, span, hok, (List.append_inj' hkinds rfl).1, hend⟩

/-- **The layout of a program that was read is read as that program.** For every source text that parses, the
canonical layout of the program parses too, and without places the two programs are equal. -/
theorem layout_parses_back {source : String} {p : Program} (h : parse source = .ok p) :
    ∃ q, parse p.layout = .ok q ∧ q.erase = p.erase := by
  obtain ⟨tokens, htokens, hp⟩ := parse_eq_ok.mp h
  obtain ⟨front, span, rfl, hend, hprintable⟩ := tokenize_front htokens
  obtain ⟨hderives, hnests⟩ := ofTokens_sound hend hp
  -- the layout has the same kinds of tokens as the source
  have hlexes := layout_lexes hderives (List.forall_mem_map.mpr hprintable)
  rw [layout_erase] at hlexes
  obtain ⟨front', span', htokens', hkinds, hend'⟩ := tokenize_of_lexes hlexes
  rw [← hkinds] at hderives
  obtain ⟨q, hq, herase⟩ := ofTokens_complete hend' span' hderives (nestsWithin_erase.mpr hnests)
  exact ⟨q, parse_eq_ok.mpr ⟨_, htokens', hq⟩, herase⟩

/-- A source text with a comment, names that are keywords, a nested block and a character beyond the basic plane. -/
def crampedSource : String := "# two\nalias end get compiled call\tend end->say\"\\ud83d\\ude00\"end"

/-- Its program. -/
def crampedProgram : Program :=
  ⟨[.define ⟨"end", none, ⟨[.compiled [.execute ⟨none, .call ⟨none, "end", .origin⟩, [], .origin⟩] .origin
    [⟨.action (.say (some "😀") .origin), .origin⟩] .origin], .origin⟩, .origin⟩]⟩

/-- The text parses as that program, without places. -/
def crampedParse : {p // (parse crampedSource).map erase = .ok p} := ⟨crampedProgram, by decide +kernel⟩

/-- The layout of what the text parses to parses as that program again. -/
theorem cramped_source_laid_out :
    ∃ p q, parse crampedSource = .ok p ∧ p.erase = crampedProgram ∧ parse p.layout = .ok q ∧
      q.erase = crampedProgram := by
  obtain ⟨p, hp, herase⟩ := Token.map_eq_ok crampedParse.2
  obtain ⟨q, hq, hqp⟩ := layout_parses_back hp
  exact ⟨p, q, hp, herase, hq, hqp.trans herase⟩

end AliasLang.Program
