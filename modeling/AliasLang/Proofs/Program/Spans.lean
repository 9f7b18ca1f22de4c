/-
How the places in a program lie. Whatever the grammar with places derives from tokens in order covers some text in each
of its parts, has each part inside the part it belongs to, and has the parts of one part one after another. With the
places that the parser gives, this holds of every program that is read.
-/
import AliasLang.Proofs.Program.ParsePlaces
import AliasLang.Proofs.Token.Partition

namespace AliasLang

namespace Token

open Source (Span)

/-- The tokens before the end of input are in order. -/
theorem inOrder_of_tokenize {source : String} {front : List Token} {endSpan : Span}
    (h : tokenize source = .ok (front ++ [⟨.endOfInput, endSpan⟩])) (hfront : ∀ t ∈ front, t.kind ≠ .endOfInput) :
    InOrder front := by
  have hcovers : Covers [] source.toList _ := tokensFrom_covers (tokenize_eq_ok.mp h).2 rfl
  refine ⟨fun t ht => ?_, ?_⟩
  · obtain ⟨before, text, after, -, htext, hspan⟩ := hcovers.stretch t (List.mem_append_left _ ht)
    obtain ⟨hend, -⟩ | ⟨c, cs, rfl, -⟩ := htext
    · exact absurd hend (hfront t ht)
    · have hpos : 0 < c.utf8Size := c.utf8Size_pos
      rw [hspan]
      show (Source.Position.start.after before).offset < (Source.Position.start.after (before ++ c :: cs)).offset
      rw [Source.Position.offset_start_after, Source.Position.offset_start_after, Script.byteLength_append,
        Script.byteLength]
      omega
  · have hordered := (List.pairwise_append.mp hcovers.ordered).1
    exact hordered.imp fun hspans => hspans.2

end Token

namespace Program

open Source (Span)
open Token (Kind Keyword InOrder spanOf)

/-! ## Parts of parts -/

/-- The parts of a program as a tree of places. -/
inductive Outline where
  | node (span : Span) (parts : List Outline)

namespace Outline

def span : Outline → Span
  | .node span _ => span

/-- A part without parts of its own. -/
def leaf (span : Span) : Outline := .node span []

/-- Each part covers some text and lies inside the part around it, and the parts of one part come one after another. -/
inductive Nested : Outline → Prop where
  | node {span : Span} {parts : List Outline} (hcovers : span.start < span.stop)
      (hinside : ∀ o ∈ parts, o.span.Within span) (hordered : parts.Pairwise fun o o' => o.span.Before o'.span)
      (hparts : ∀ o ∈ parts, o.Nested) : Nested (.node span parts)

end Outline

/-- The place of a step. -/
def Step.span : Step → Span
  | .store s => s.span
  | .action a => a.span

/-- The import and the script of a script action. -/
def Simple.inner : Simple → List Outline
  | .script a => (a.imported.map fun i => .leaf i.span).toList ++ [.leaf a.script.span]
  | _ => []

def Simple.outline (a : Simple) : Outline := .node a.span a.inner

def Step.outline : Step → Outline
  | .store s => .leaf s.span
  | .action a => a.outline

/-- A link has its step as a part, and the link after it. -/
def chainOutline : List Link → List Outline
  | [] => []
  | l :: rest => [.node l.span (l.step.outline :: chainOutline rest)]

mutual

def Action.outline : Action → Outline
  | .execute e =>
    .node e.span ((e.retrieve.map fun r => .leaf r.span).toList ++ e.action.outline :: chainOutline e.chain)
  | .compiled actions bodySpan chain span => .node span (.node bodySpan (actionsOutline actions) :: chainOutline chain)

def actionsOutline : List Action → List Outline
  | [] => []
  | a :: rest => a.outline :: actionsOutline rest

end

def Declaration.outline : Declaration → Outline
  | .entry e => .leaf e.span
  | .define a => .node a.span [.node a.body.span (actionsOutline a.body.actions)]

/-! ## Chains -/

mutual

/-- The chains of an action and of the actions in its body. -/
def Action.chains : Action → List (List Link)
  | .execute e => [e.chain]
  | .compiled actions _ chain _ => chain :: actionsChains actions

def actionsChains : List Action → List (List Link)
  | [] => []
  | a :: rest => a.chains ++ actionsChains rest

end

/-- The steps of a chain come one after another. -/
def StepsInOrder (chain : List Link) : Prop := chain.Pairwise fun l m => l.step.span.Before m.step.span

/-! ## Parts on tokens -/

/-- Parts that lie one after another on some of the tokens `ts`. -/
structure Laid (parts : List Outline) (ts : List Token) : Prop where
  nested : ∀ o ∈ parts, o.Nested
  inside : ∀ o ∈ parts, ∃ us, us ≠ [] ∧ us <:+: ts ∧ o.span = spanOf us
  ordered : parts.Pairwise fun o o' => o.span.Before o'.span

theorem Laid.nil (ts : List Token) : Laid [] ts := ⟨by simp, by simp, .nil⟩

theorem Laid.widen {parts : List Outline} {ts us : List Token} (h : Laid parts ts) (hs : ts <:+: us) :
    Laid parts us := by
  refine ⟨h.nested, fun o ho => ?_, h.ordered⟩
  obtain ⟨vs, hne, hvs, hspan⟩ := h.inside o ho
  exact ⟨vs, hne, hvs.trans hs, hspan⟩

theorem Laid.within {parts : List Outline} {ts : List Token} (h : Laid parts ts) (hord : InOrder ts) :
    ∀ o ∈ parts, ts ≠ [] ∧ o.span.Within (spanOf ts) := by
  intro o ho
  obtain ⟨us, hne, hus, hspan⟩ := h.inside o ho
  exact ⟨hus.ne_nil hne, hspan ▸ hord.spanOf_within hus hne⟩

theorem Laid.append {os ps : List Outline} {ts us : List Token} (hord : InOrder (ts ++ us)) (ho : Laid os ts)
    (hp : Laid ps us) : Laid (os ++ ps) (ts ++ us) := by
  have hleft := ho.widen (List.prefix_append ts us).isInfix
  have hright := hp.widen (List.suffix_append ts us).isInfix
  refine ⟨?_, ?_, List.pairwise_append.mpr ⟨ho.ordered, hp.ordered, fun o hmem o' hmem' => ?_⟩⟩
  · exact fun o h => (List.mem_append.mp h).elim (ho.nested o) (hp.nested o)
  · exact fun o h => (List.mem_append.mp h).elim (hleft.inside o) (hright.inside o)
  · obtain ⟨hts, hwithin⟩ := ho.within (hord.sublist (List.sublist_append_left ts us)) o hmem
    obtain ⟨hus, hwithin'⟩ := hp.within (hord.sublist (List.sublist_append_right ts us)) o' hmem'
    exact (hord.spanOf_before hts hus).shrink hwithin hwithin'

/-- A part with the stretch of all the tokens. -/
theorem Laid.node {parts : List Outline} {ts : List Token} (hord : InOrder ts) (hne : ts ≠ []) (h : Laid parts ts) :
    Laid [.node (spanOf ts) parts] ts := by
  have hnested : (Outline.node (spanOf ts) parts).Nested :=
    .node (hord.spanOf_covers hne) (fun o ho => (h.within hord o ho).2) h.ordered h.nested
  refine ⟨by simpa using hnested, ?_, List.pairwise_singleton _ _⟩
  intro o ho
  rw [List.mem_singleton.mp ho]
  exact ⟨ts, hne, List.infix_refl ts, rfl⟩

theorem Laid.leaf {ts : List Token} (hord : InOrder ts) (hne : ts ≠ []) : Laid [.leaf (spanOf ts)] ts :=
  (Laid.nil ts).node hord hne

/-- Every token is a part. -/
theorem Laid.leaves : ∀ {ts : List Token}, InOrder ts → Laid (ts.map fun t => .leaf t.span) ts
  | [], _ => .nil []
  | t :: ts, hord => by
    have hfirst : Laid [.leaf t.span] [t] := .leaf (hord.sublist (by simp)) (List.cons_ne_nil t [])
    exact hfirst.append hord (Laid.leaves hord.tail)

/-! ## Parts of programs -/

theorem SimpleAt.laid {a : Simple} {ts : List Token} (h : SimpleAt a ts) (hord : InOrder ts) : Laid [a.outline] ts := by
  have hinner : Laid a.inner ts := by
    cases a with
    | script script =>
      have hsuffix := h.script script rfl
      have htokens : (Simple.script script).inner = script.tokens.map fun t => .leaf t.span := by
        cases hi : script.imported <;> simp [Simple.inner, ScriptAction.tokens, hi]
      rw [htokens]
      exact (Laid.leaves (hord.sublist hsuffix.sublist)).widen hsuffix.isInfix
    | commands list => exact .nil ts
    | say literal span => exact .nil ts
    | call c => exact .nil ts
  rw [Simple.outline, h.span]
  exact hinner.node hord h.ne_nil

theorem RetrieveAt.laid {r : Retrieve} {ts : List Token} (h : RetrieveAt r ts) (hord : InOrder ts) :
    Laid [.leaf r.span] ts := by
  rw [h.span]
  exact .leaf hord h.ne_nil

/-- The links of a chain lie in one another, and its steps one after another. -/
theorem ChainAt.laid {chain : List Link} {ts : List Token} (h : ChainAt chain ts) (hord : InOrder ts) :
    Laid (chainOutline chain) ts ∧ Laid (chain.map fun l => l.step.outline) ts := by
  induction h with
  | nothing => exact ⟨.nil [], .nil []⟩
  | @store arrow ts key isTemp isLocal harrow hts =>
    have hne : ts ≠ [] := by
      rintro rfl
      cases hts
    have hwiden := (List.suffix_cons arrow ts).isInfix
    have hstep := Laid.leaf hord.tail hne
    exact ⟨(hstep.node hord.tail hne).widen hwiden, hstep.widen hwiden⟩
  | @action arrow a chain ts us harrow ha hc ih =>
    have hwiden := (List.suffix_cons arrow (ts ++ us)).isInfix
    have hstep := ha.laid hord.tail.left
    obtain ⟨hlinks, hsteps⟩ := ih hord.tail.right
    have hlink := (hstep.append hord.tail hlinks).node hord.tail (by simp [ha.ne_nil])
    exact ⟨hlink.widen hwiden, (hstep.append hord.tail hsteps).widen hwiden⟩

theorem Step.span_outline (s : Step) : s.outline.span = s.span := by
  cases s <;> rfl

theorem ChainAt.stepsInOrder {chain : List Link} {ts : List Token} (h : ChainAt chain ts) (hord : InOrder ts) :
    StepsInOrder chain := by
  have hordered := List.pairwise_map.mp (h.laid hord).2.ordered
  exact hordered.imp fun hbefore => by simpa only [Step.span_outline] using hbefore

/-- A body lies on its tokens and the `end` after them. -/
theorem BodyAt.laid_node {actions : List Action} {ts : List Token} {stop : Token} (hb : BodyAt actions ts)
    (hparts : Laid (actionsOutline actions) ts) (hord : InOrder (ts ++ [stop])) :
    Laid [.node (bodySpan ts stop) (actionsOutline actions)] (ts ++ [stop]) := by
  cases hb with
  | nil => exact .leaf hord (by simp)
  | @cons a rest us vs ha hr =>
    have hne : us ++ vs ≠ [] := by simp [ha.ne_nil]
    have hspan : bodySpan (us ++ vs) stop = spanOf (us ++ vs) := by
      obtain ⟨first, later, hfirst⟩ := List.exists_cons_of_ne_nil hne
      rw [hfirst]
      rfl
    rw [hspan]
    have hnode := hparts.node hord.left hne
    exact hnode.widen (List.prefix_append _ [stop]).isInfix

mutual

theorem ActionAt.laid : ∀ {a : Action} {ts : List Token}, ActionAt a ts → InOrder ts →
    Laid [a.outline] ts ∧ ∀ chain ∈ a.chains, StepsInOrder chain
  | _, _, @ActionAt.execute a chain ts us ha hc, hord => by
    have hparts := (ha.laid hord.left).append hord (hc.laid hord.right).1
    exact ⟨hparts.node hord (by simp [ha.ne_nil]), by simpa [Action.chains] using hc.stepsInOrder hord.right⟩
  | _, _, @ActionAt.retrieved r arrow a chain rs ts us hr harrow ha hc, hord => by
    have hwork : InOrder (ts ++ us) := hord.right.tail
    have hlater := (ha.laid hwork.left).append hwork (hc.laid hwork.right).1
    have hparts := (hr.laid hord.left).append hord (hlater.widen (List.suffix_cons arrow _).isInfix)
    exact ⟨hparts.node hord (by simp), by simpa [Action.chains] using hc.stepsInOrder hwork.right⟩
  | _, _, @ActionAt.compiled get word stop actions chain ts us hget hword hstop hb hc, hord => by
    -- the body with its `end`, then the chain
    have hsame : ts ++ stop :: us = ts ++ [stop] ++ us := by simp
    have hinner : InOrder (ts ++ [stop] ++ us) := hsame ▸ hord.tail.tail
    obtain ⟨hactions, hchains⟩ := hb.laid hinner.left.left
    have hparts := (hb.laid_node hactions hinner.left).append hinner (hc.laid hinner.right).1
    have hwiden : ts ++ [stop] ++ us <:+: get :: word :: (ts ++ stop :: us) := ⟨[get, word], [], by simp⟩
    refine ⟨(hparts.widen hwiden).node hord (by simp), fun c hmem => ?_⟩
    obtain rfl | hmem := List.mem_cons.mp hmem
    · exact hc.stepsInOrder hinner.right
    · exact hchains c hmem

theorem BodyAt.laid : ∀ {actions : List Action} {ts : List Token}, BodyAt actions ts → InOrder ts →
    Laid (actionsOutline actions) ts ∧ ∀ chain ∈ actionsChains actions, StepsInOrder chain
  | _, _, .nil, _ => ⟨.nil [], by simp [actionsChains]⟩
  | _, _, @BodyAt.cons a rest ts us ha hr, hord => by
    obtain ⟨hfirst, hchains⟩ := ha.laid hord.left
    obtain ⟨hrest, hchains'⟩ := hr.laid hord.right
    refine ⟨hfirst.append hord hrest, fun chain hc => ?_⟩
    exact (List.mem_append.mp hc).elim (hchains chain) (hchains' chain)

end

/-- The chains of a declaration. -/
def Declaration.chains : Declaration → List (List Link)
  | .entry _ => []
  | .define a => actionsChains a.body.actions

theorem DeclarationAt.laid {d : Declaration} {ts : List Token} (h : DeclarationAt d ts) (hord : InOrder ts) :
    Laid [d.outline] ts ∧ ∀ chain ∈ d.chains, StepsInOrder chain := by
  cases h with
  | entry hword hn => exact ⟨.leaf hord (by simp), by simp [Declaration.chains]⟩
  | @define word token stop name keyPrefix actions ps ts hword hn hp hb hstop =>
    have hinner : InOrder (ts ++ [stop]) := hord.tail.tail.right
    obtain ⟨hactions, hchains⟩ := hb.laid hinner.left
    have hwiden : ts ++ [stop] <:+: word :: token :: (ps ++ (ts ++ [stop])) := ⟨word :: token :: ps, [], by simp⟩
    exact ⟨((hb.laid_node hactions hinner).widen hwiden).node hord (by simp), hchains⟩

theorem DeclarationsAt.laid {ds : List Declaration} {ts : List Token} (h : DeclarationsAt ds ts) (hord : InOrder ts) :
    Laid (ds.map Declaration.outline) ts ∧ ∀ d ∈ ds, ∀ chain ∈ d.chains, StepsInOrder chain := by
  induction h with
  | nil => exact ⟨.nil [], by simp⟩
  | @cons d rest ts us hd hr ih =>
    obtain ⟨hfirst, hchains⟩ := hd.laid hord.left
    obtain ⟨hrest, hchains'⟩ := ih hord.right
    exact ⟨hfirst.append hord hrest, List.forall_mem_cons.mpr ⟨hchains, hchains'⟩⟩

theorem Declaration.span_outline (d : Declaration) : d.outline.span = d.span := by
  cases d <;> rfl

/-! ## Programs that are read -/

/-- **The places in a program that is read.** Every part starts at the start of the first token it was read from, with
the line and column of that token, and stops at the end of the last one; an empty body has the place of the `end` after
it. So every part lies inside the part it belongs to, and declarations, the actions of a body and the steps of a chain
come one after another. -/
theorem parts_span_their_tokens {source : String} {p : Program} (h : parse source = .ok p) :
    ∃ tokens endSpan, Token.tokenize source = .ok (tokens ++ [⟨.endOfInput, endSpan⟩]) ∧
      DeclarationsAt p.declarations tokens ∧ (∀ d ∈ p.declarations, d.outline.Nested) ∧
      (p.declarations.Pairwise fun d e => d.span.Before e.span) ∧
      ∀ d ∈ p.declarations, ∀ chain ∈ d.chains, StepsInOrder chain := by
  obtain ⟨tokens, htokens, hp⟩ := parse_eq_ok.mp h
  obtain ⟨front, endSpan, rfl, hfront, -⟩ := (Token.partitions_of_tokenize htokens).ended
  have hord := Token.inOrder_of_tokenize htokens hfront
  rw [ofTokens_eq_ok, stream_ofTokens_end hfront endSpan []] at hp
  have hplaced : DeclarationsAt p.declarations front := allDeclarations_at hord hp
  obtain ⟨hlaid, hchains⟩ := hplaced.laid hord
  refine ⟨front, endSpan, htokens, hplaced, fun d hd => hlaid.nested _ (List.mem_map_of_mem hd), ?_, hchains⟩
  have hordered := List.pairwise_map.mp hlaid.ordered
  exact hordered.imp fun hbefore => by simpa only [Declaration.span_outline] using hbefore

/-- A source text with an import, a chain that ends in a store, an empty body and a chain of two links. -/
def chainedSource : String :=
  "entry aa\nalias aa\n get \"k\"->js import \"ab\" ```x```->set temp \"t\"\n get compiled end->say->call bb\nend"

/-- Its program. -/
def chainedProgram : Program :=
  ⟨[.entry ⟨"aa", ⟨0, 8, 1, 1⟩⟩,
    .define ⟨"aa", none,
      ⟨[.execute ⟨some (.key "k" false ⟨19, 26, 3, 2⟩),
          .script ⟨some ⟨"ab", ⟨38, 42, 3, 21⟩⟩, ⟨"x", ⟨43, 50, 3, 26⟩⟩, ⟨28, 50, 3, 11⟩⟩,
          [⟨.store ⟨"t", true, false, ⟨52, 64, 3, 35⟩⟩, ⟨52, 64, 3, 35⟩⟩], ⟨19, 64, 3, 2⟩⟩,
        .compiled [] ⟨79, 82, 4, 15⟩
          [⟨.action (.say none ⟨84, 87, 4, 20⟩), ⟨84, 96, 4, 20⟩⟩,
            ⟨.action (.call ⟨none, "bb", ⟨89, 96, 4, 25⟩⟩), ⟨89, 96, 4, 25⟩⟩] ⟨66, 96, 4, 2⟩], ⟨19, 96, 3, 2⟩⟩,
      ⟨9, 100, 2, 1⟩⟩]⟩

/-- The text parses as that program, with all its places. -/
def chainedParse : {p // parse chainedSource = .ok p} := ⟨chainedProgram, by decide +kernel⟩

/-- The empty body has the place of the `end` after it, and the first link goes on to the end of the second. -/
theorem chained_source_spans :
    parse chainedSource = .ok chainedProgram ∧
      ∃ tokens endSpan, Token.tokenize chainedSource = .ok (tokens ++ [⟨.endOfInput, endSpan⟩]) ∧
        DeclarationsAt chainedProgram.declarations tokens ∧ (∀ d ∈ chainedProgram.declarations, d.outline.Nested) ∧
        (chainedProgram.declarations.Pairwise fun d e => d.span.Before e.span) ∧
        ∀ d ∈ chainedProgram.declarations, ∀ chain ∈ d.chains, StepsInOrder chain := by
  have hparse : parse chainedSource = .ok chainedProgram := chainedParse.2
  exact ⟨hparse, parts_span_their_tokens hparse⟩

end Program

end AliasLang
