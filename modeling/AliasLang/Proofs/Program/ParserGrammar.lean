/-
The parser and the grammar agree: a list of tokens that ends where its end of input stands is read as a program exactly
when the grammar derives that program from the kinds of the tokens and its blocks of `get compiled` nest no deeper than
the parser has room for.
-/
import AliasLang.Program.Source
import AliasLang.Proofs.Program.ParseComplete

namespace AliasLang.Program

open Source (Span)
open Token (Kind Keyword)
open Grammar

/-! ## Places and nesting -/

mutual

theorem Action.nesting_erase : ∀ a : Action, a.erase.nesting = a.nesting
  | .execute _ => rfl
  | .compiled actions _ _ _ => by
    rw [Action.erase, Action.nesting, Action.nesting, nestingOf_eraseActions actions]

theorem nestingOf_eraseActions : ∀ actions : List Action, nestingOf (eraseActions actions) = nestingOf actions
  | [] => rfl
  | a :: rest => by
    rw [eraseActions, nestingOf, nestingOf, Action.nesting_erase a, nestingOf_eraseActions rest]

end

theorem Declaration.nesting_erase (d : Declaration) : d.erase.nesting = d.nesting := by
  cases d with
  | entry e => rfl
  | define a => exact nestingOf_eraseActions a.body.actions

/-- Places do not count for nesting. -/
theorem nestsWithin_erase {depth : Nat} {p : Program} : NestsWithin depth p.erase ↔ NestsWithin depth p := by
  simp only [NestsWithin, erase, List.forall_mem_map, Declaration.nesting_erase]

/-! ## Whole lists of tokens -/

/-- What stands before the end of input is what the parser reads. -/
theorem kinds_ofTokens {front : List Token} (h : ∀ t ∈ front, t.kind ≠ .endOfInput) (endSpan : Span) :
    (Stream.ofTokens (front ++ [⟨.endOfInput, endSpan⟩])).kinds = front.map Token.kind := by
  rw [Stream.kinds, Stream.ofTokens, List.takeWhile_append_of_pos fun t ht => decide_eq_true (h t ht)]
  simp

theorem ofTokens_eq_ok {tokens : List Token} {p : Program} :
    ofTokens tokens = .ok p ↔ allDeclarations (Stream.ofTokens tokens) = .ok p.declarations := by
  obtain ⟨declarations⟩ := p
  unfold ofTokens
  cases allDeclarations (Stream.ofTokens tokens) <;> simp [Except.map]

theorem parse_eq_ok {source : String} {p : Program} :
    parse source = .ok p ↔ ∃ tokens, Token.tokenize source = .ok tokens ∧ ofTokens tokens = .ok p := by
  unfold parse
  cases Token.tokenize source with
  | error e => simp
  | ok tokens => cases h : ofTokens tokens <;> simp [h]

/-- A program that is read is derivable and nests within the room. -/
theorem ofTokens_sound {front : List Token} (h : ∀ t ∈ front, t.kind ≠ .endOfInput) {endSpan : Span} {p : Program}
    (hp : ofTokens (front ++ [⟨.endOfInput, endSpan⟩]) = .ok p) :
    Derives p.erase (front.map Token.kind) ∧ NestsWithin maxNesting p := by
  obtain ⟨hderives, hnests⟩ := allDeclarations_sound (ofTokens_eq_ok.mp hp)
  rw [kinds_ofTokens h] at hderives
  exact ⟨hderives, hnests⟩

/-- A derivable program that nests within the room is read, up to its places. -/
theorem ofTokens_complete {front : List Token} (h : ∀ t ∈ front, t.kind ≠ .endOfInput) (endSpan : Span) {p : Program}
    (hd : Derives p (front.map Token.kind)) (hn : NestsWithin maxNesting p) :
    ∃ q, ofTokens (front ++ [⟨.endOfInput, endSpan⟩]) = .ok q ∧ q.erase = p := by
  obtain ⟨ds, hds, herase⟩ := allDeclarations_complete hd hn (kinds_ofTokens h endSpan)
  exact ⟨⟨ds⟩, ofTokens_eq_ok.mpr hds, by rw [erase, herase]⟩

/-- **The parser accepts exactly the grammar.** A list of tokens whose only end of input is its last token is read as a
program that is `p` without its places if and only if the grammar derives `p` from the kinds of the tokens before the
end and blocks of `get compiled` nest at most 64 deep in `p`; and there is at most one such `p`. -/
theorem parser_accepts_grammar {front : List Token} (h : ∀ t ∈ front, t.kind ≠ .endOfInput) (endSpan : Span) :
    (∀ p : Program, (∃ q, ofTokens (front ++ [⟨.endOfInput, endSpan⟩]) = .ok q ∧ q.erase = p) ↔
      Derives p (front.map Token.kind) ∧ NestsWithin 64 p) ∧
    ∀ p p' : Program, Derives p (front.map Token.kind) → NestsWithin 64 p → Derives p' (front.map Token.kind) →
      NestsWithin 64 p' → p = p' := by
  refine ⟨fun p => ⟨?_, fun ⟨hd, hn⟩ => ofTokens_complete h endSpan hd hn⟩, ?_⟩
  · rintro ⟨q, hq, rfl⟩
    obtain ⟨hd, hn⟩ := ofTokens_sound h hq
    exact ⟨hd, nestsWithin_erase.mpr hn⟩
  · -- both are what the parser, a function, reads
    intro p p' hd hn hd' hn'
    obtain ⟨q, hq, rfl⟩ := ofTokens_complete h endSpan hd hn
    obtain ⟨q', hq', rfl⟩ := ofTokens_complete h endSpan hd' hn'
    rw [hq] at hq'
    rw [Except.ok.inj hq']

/-- `alias get get compiled call end end`, where `get` and `end` are also names. -/
def shadowingTokens : List Token :=
  [.keyword .alias_, .keyword .get, .keyword .get, .keyword .compiled, .keyword .call, .keyword .end_, .keyword .end_,
    .keyword .end_].map (⟨·, .origin⟩)

/-- The alias it declares. -/
def shadowingProgram : Program :=
  ⟨[.define ⟨"get", none, ⟨[.compiled [.execute ⟨none, .call ⟨none, "end", .origin⟩, [], .origin⟩] .origin [] .origin],
    .origin⟩, .origin⟩]⟩

/-- The tokens are read as that program, and as no other. -/
theorem shadowing_names_parse :
    (∀ t ∈ shadowingTokens, t.kind ≠ .endOfInput) ∧
    (∃ q, ofTokens (shadowingTokens ++ [⟨.endOfInput, .origin⟩]) = .ok q ∧ q.erase = shadowingProgram) ∧
    ∀ p, Derives p (shadowingTokens.map Token.kind) → NestsWithin 64 p → p = shadowingProgram := by
  have hfront : ∀ t ∈ shadowingTokens, t.kind ≠ .endOfInput := by decide
  obtain ⟨hiff, hunique⟩ := parser_accepts_grammar hfront .origin
  have hd : Derives shadowingProgram (shadowingTokens.map Token.kind) :=
    .cons (.define (.keyword .get) .absent
      (.cons (.compiled (.cons (.execute (.call (.keyword .end_)) .nothing) .nil) .nothing) .nil)) .nil
  have hn : NestsWithin 64 shadowingProgram := by
    intro d hd
    obtain rfl := List.mem_singleton.mp hd
    decide
  exact ⟨hfront, (hiff _).mpr ⟨hd, hn⟩, fun p hp hpn => hunique p _ hp hpn hd hn⟩

end AliasLang.Program
