/-
Names in programs. Apart from the values of string literals, what a program takes over from its source text is names of
aliases and users and argument literals, each of them written as one token. So their characters are those that such
tokens are written with, whatever the string literals and scripts of the program hold.
-/
import AliasLang.Proofs.Program.ParserGrammar
import AliasLang.Proofs.Token.Scan

namespace AliasLang.Token

/-! ## Tokens that are written in word characters -/

/-- A character of a name or of an argument literal. -/
def isWordChar (c : Char) : Bool :=
  isNameChar c || isArgumentChar c || c = '$' || c = '\x7b' || c = '\x7d'

def IsWord (s : String) : Prop := ∀ c ∈ s.toList, isWordChar c = true

/-- The name that a token stands for, or the argument literal that it is. -/
def Kind.name? : Kind → Option String
  | .keyword k => some k.text
  | .identifier name => some name
  | .user name => some name
  | .argument literal => some literal.raw
  | .arrow | .bar | .string _ | .script _ | .endOfInput => none

theorem isWordChar_of_isNameChar {c : Char} (h : isNameChar c = true) : isWordChar c = true := by
  simp [isWordChar, h]

theorem isNameChar_of_mem_take (cs : List Char) : ∀ c ∈ cs.take (nameLength cs), isNameChar c = true := by
  induction cs with
  | nil => simp
  | cons d cs ih =>
    rw [nameLength]
    split
    · rename_i hd
      rw [List.take_succ_cons, List.forall_mem_cons]
      rw [Bool.and_eq_true] at hd
      exact ⟨hd.1, ih⟩
    · simp

theorem userLexeme_isWord {cs : List Char} {k : Kind} {n : Nat} (h : userLexeme cs = .ok (k, n)) {name : String}
    (hname : k.name? = some name) : IsWord name := by
  simp only [userLexeme] at h
  split at h
  · cases h
  · cases h
    cases hname
    intro c hc
    rw [String.toList_ofList] at hc
    exact isWordChar_of_isNameChar (isNameChar_of_mem_take cs c hc)

theorem argumentLexeme_isWord {cs : List Char} {k : Kind} {n : Nat} (h : argumentLexeme cs = .ok (k, n))
    {name : String} (hname : k.name? = some name) : IsWord name := by
  simp only [argumentLexeme] at h
  split at h
  · cases h
  split at h
  · cases h
  split at h
  · cases h
    cases hname
    intro c hc
    simp only [String.toList_append, String.toList_ofList, List.mem_append] at hc
    rcases hc with (hc | hc) | hc
    · obtain rfl | rfl : c = '$' ∨ c = '\x7b' := by simpa using hc
      · rfl
      · rfl
    · have hall := List.all_eq_true.mp List.all_takeWhile c hc
      simp [isWordChar, hall]
    · obtain rfl : c = '\x7d' := by simpa using hc
      rfl
  · cases h

theorem word_isWord {name : String} (hname : IsWord name) {k : Kind} (h : word name = .ok k) {text : String}
    (htext : k.name? = some text) : IsWord text := by
  unfold word at h
  split at h
  · rename_i kw hkw
    cases h
    cases htext
    have hsame : kw.text = name := by simpa using List.find?_some hkw
    rwa [hsame]
  · split at h
    · cases h
    · cases h
      cases htext
      exact hname

/-- Names and argument literals are written in word characters. -/
theorem lexeme_isWord {c : Char} {cs : List Char} {k : Kind} {n : Nat} (h : lexeme c cs = .ok (k, n)) {name : String}
    (hname : k.name? = some name) : IsWord name := by
  unfold lexeme at h
  split at h
  · cases h
    cases hname
  split at h
  · cases h
    cases hname
  split at h
  · unfold stringLexeme at h
    split at h
    · cases h
    split at h <;> cases h
    cases hname
  split at h
  · exact userLexeme_isWord h hname
  split at h
  · exact argumentLexeme_isWord h hname
  split at h
  · unfold scriptLexeme at h
    split at h
    · split at h <;> cases h
      cases hname
    · cases h
  split at h
  · rename_i hc
    dsimp only at h
    split at h
    · rename_i kind hword
      cases h
      refine word_isWord (fun d hd => isWordChar_of_isNameChar ?_) hword hname
      rw [String.toList_ofList] at hd
      rcases List.mem_cons.mp hd with rfl | hd
      · exact hc
      · exact isNameChar_of_mem_take cs d hd
    · cases h
  · cases h

end AliasLang.Token

namespace AliasLang.Program

open Token (Kind IsWord)
open Grammar

/-! ## Names of programs -/

def Simple.names : Simple → List String
  | .call c => c.user.toList ++ [c.target]
  | .script _ | .commands _ | .say _ _ => []

def Step.names : Step → List String
  | .store _ => []
  | .action a => a.names

def chainNames (chain : List Link) : List String := chain.flatMap (·.step.names)

/-- An argument literal stands for itself. -/
def Retrieve.names : Retrieve → List String
  | .key _ _ _ => []
  | .argument literal _ => [literal.raw]

mutual

/-- The names of aliases and users that an action calls, and its argument literals. -/
def Action.names : Action → List String
  | .execute e => e.retrieve.toList.flatMap Retrieve.names ++ (e.action.names ++ chainNames e.chain)
  | .compiled actions _ chain _ => actionsNames actions ++ chainNames chain

def actionsNames : List Action → List String
  | [] => []
  | a :: rest => a.names ++ actionsNames rest

end

def Alias.names (a : Alias) : List String := a.name :: actionsNames a.body.actions

def Declaration.names : Declaration → List String
  | .entry e => [e.name]
  | .define a => a.names

/-! ## Places are not names -/

theorem Simple.names_erase (a : Simple) : a.erase.names = a.names := by
  cases a <;> rfl

theorem chainNames_eraseChain (chain : List Link) : chainNames (eraseChain chain) = chainNames chain := by
  have hstep : ∀ s : Step, s.erase.names = s.names := by
    intro s
    cases s with
    | store s => rfl
    | action a => exact a.names_erase
  simp only [chainNames, eraseChain, List.flatMap_map, hstep]

mutual

theorem Action.names_erase : ∀ a : Action, a.erase.names = a.names
  | .execute e => by
    obtain ⟨retrieve, action, chain, span⟩ := e
    simp only [Action.erase, Execute.erase, Action.names, Simple.names_erase, chainNames_eraseChain]
    rcases retrieve with _ | (_ | _) <;> rfl
  | .compiled actions _ chain _ => by
    rw [Action.erase, Action.names, Action.names, actionsNames_eraseActions actions, chainNames_eraseChain]

theorem actionsNames_eraseActions : ∀ actions : List Action, actionsNames (eraseActions actions) = actionsNames actions
  | [] => rfl
  | a :: rest => by
    rw [eraseActions, actionsNames, actionsNames, Action.names_erase a, actionsNames_eraseActions rest]

end

theorem Declaration.names_erase (d : Declaration) : d.erase.names = d.names := by
  cases d with
  | entry e => rfl
  | define a => simp only [Declaration.erase, Declaration.names, Alias.names, actionsNames_eraseActions]

/-! ## Names are tokens -/

/-- Each of the names is that of a token. -/
def Named (names : List String) (ks : List Kind) : Prop := ∀ name ∈ names, ∃ k ∈ ks, k.name? = some name

theorem Named.append {a b : List String} {ks js : List Kind} (ha : Named a ks) (hb : Named b js) :
    Named (a ++ b) (ks ++ js) := by
  intro name hname
  rcases List.mem_append.mp hname with hname | hname
  · obtain ⟨k, hk, hkn⟩ := ha name hname
    exact ⟨k, List.mem_append_left js hk, hkn⟩
  · obtain ⟨k, hk, hkn⟩ := hb name hname
    exact ⟨k, List.mem_append_right ks hk, hkn⟩

theorem Named.of_subset {names : List String} {ks js : List Kind} (h : Named names ks) (hsub : ks ⊆ js) :
    Named names js := fun name hname => (h name hname).imp fun _ hk => ⟨hsub hk.1, hk.2⟩

theorem named_nil (ks : List Kind) : Named [] ks := by simp [Named]

theorem Grammar.Ident.named {name : String} {k : Kind} (h : Ident name k) : Named [name] [k] := by
  cases h <;> simp [Named, Kind.name?]

theorem simple_named {a : Simple} {ks : List Kind} (h : SimpleForm a ks) : Named a.names ks := by
  cases h with
  | script | commands | sayNothing | say => exact named_nil _
  | call ht => exact ht.named.of_subset (by simp)
  | callOf user ht =>
    have huser : Named [user] [.user user] := by simp [Named, Kind.name?]
    exact (huser.append ht.named).of_subset (List.subset_cons_self _ _)

theorem chain_named {links : List Link} {ks : List Kind} (h : ChainForm links ks) : Named (chainNames links) ks := by
  induction h with
  | nothing => exact named_nil _
  | store => exact named_nil _
  | action ha _ ih =>
    have hstep := ((simple_named ha).append ih).of_subset (List.subset_cons_self .arrow _)
    simpa [chainNames, Step.names] using hstep

theorem retrieve_named {r : Retrieve} {ks : List Kind} (h : RetrieveForm r ks) : Named r.names ks := by
  cases h with
  | key => exact named_nil _
  | argument literal => simp [Named, Retrieve.names, Kind.name?]

mutual

theorem action_named {a : Action} {ks : List Kind} : ActionForm a ks → Named a.names ks
  | .execute ha hc => by
    rw [Action.names]
    exact (simple_named ha).append (chain_named hc)
  | .retrieved hr ha hc => by
    rw [Action.names]
    have hrest := ((simple_named ha).append (chain_named hc)).of_subset (List.subset_cons_self .arrow _)
    simpa using (retrieve_named hr).append hrest
  | .compiled hb hc => by
    rw [Action.names]
    have hrest := (chain_named hc).of_subset (List.subset_cons_self (.keyword .end_) _)
    refine ((actions_named hb).append hrest).of_subset ?_
    exact List.Subset.trans (List.subset_cons_self _ _) (List.subset_cons_self _ _)

theorem actions_named {actions : List Action} {ks : List Kind} : BodyForm actions ks → Named (actionsNames actions) ks
  | .nil => by
    rw [actionsNames]
    exact named_nil _
  | .cons ha hr => by
    rw [actionsNames]
    exact (action_named ha).append (actions_named hr)

end

theorem declaration_named {d : Declaration} {ks : List Kind} (h : DeclarationForm d ks) : Named d.names ks := by
  cases h with
  | entry hn => exact hn.named.of_subset (List.subset_cons_self _ _)
  | define hn hp hb =>
    refine (hn.named.append (actions_named hb)).of_subset ?_
    intro k hk
    simp only [List.singleton_append, List.mem_cons, List.mem_append] at hk ⊢
    exact hk.elim (fun hk => .inr (.inl hk)) fun hk => .inr (.inr (.inr (.inl hk)))

theorem declarations_named {ds : List Declaration} {ks : List Kind} (h : DeclarationsForm ds ks) :
    ∀ d ∈ ds, Named d.names ks := by
  induction h with
  | nil => simp
  | cons hd _ ih =>
    rw [List.forall_mem_cons]
    refine ⟨(declaration_named hd).of_subset (List.subset_append_left _ _), fun d hmem => ?_⟩
    exact (ih d hmem).of_subset (List.subset_append_right _ _)

/-- **Names hold word characters only**, in every program that was read. -/
theorem names_of_parse {source : String} {p : Program} (h : parse source = .ok p) :
    ∀ d ∈ p.declarations, ∀ name ∈ d.names, IsWord name := by
  obtain ⟨tokens, htokens, hp⟩ := parse_eq_ok.mp h
  obtain ⟨front, span, rfl, hfront⟩ := Token.tokensFrom_ok (Token.tokenize_eq_ok.mp htokens).2
  have hend : ∀ t ∈ front, t.kind ≠ .endOfInput := by
    intro t ht
    obtain ⟨before, c, rest, n, -, hlex, -⟩ := hfront t ht
    exact (Token.lexeme_stands hlex).notEnd
  intro d hd name hname
  -- The name is that of a token, and that token is a lexeme of the source.
  have hnamed := declarations_named (ofTokens_sound hend hp).1 d.erase (List.mem_map_of_mem hd)
  rw [d.names_erase] at hnamed
  obtain ⟨k, hk, hkname⟩ := hnamed name hname
  obtain ⟨t, ht, rfl⟩ := List.mem_map.mp hk
  obtain ⟨before, c, rest, n, -, hlex, -⟩ := hfront t ht
  exact Token.lexeme_isWord hlex hkname

theorem alias_names_of_parse {source : String} {p : Program} (h : parse source = .ok p) {a : Alias}
    (ha : a ∈ p.aliases) : ∀ name ∈ a.names, IsWord name := by
  obtain ⟨d, hd, hda⟩ := List.mem_filterMap.mp ha
  cases d with
  | entry e => cases hda
  | define b =>
    cases hda
    exact names_of_parse h _ hd

end AliasLang.Program
