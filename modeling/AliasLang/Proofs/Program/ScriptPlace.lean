/-
Where the scripts of a program stand in its source. Each script that the parser answers is the text of a token that it
took, with the place of that token; and that place is where the lexeme stands in the source. With the places inside a
script this gives the place in the source of every remark.
-/
import AliasLang.Program.Scripts
import AliasLang.Program.Source
import AliasLang.Proofs.Program.ErrorPlace
import AliasLang.Proofs.Script.Remap
import AliasLang.Proofs.Token.Scan

namespace AliasLang.Program

open Source (Span Position)
open Token (Kind Keyword)

/-- The token that a script is read from. -/
def Fenced.token (f : Fenced) : Token := ⟨.script f.raw, f.span⟩

/-- All scripts are read from tokens that are left in `s`. -/
def ReadFrom (s : Stream) (scripts : List ScriptAction) : Prop := ∀ a ∈ scripts, a.script.token ∈ s.pending

section
variable {α : Type} {s t : Stream}

theorem readFrom_nil : ReadFrom s [] := fun _ h => by cases h

theorem ReadFrom.append {xs ys : List ScriptAction} (hx : ReadFrom s xs) (hy : ReadFrom s ys) : ReadFrom s (xs ++ ys) :=
  fun a ha => (List.mem_append.mp ha).elim (hx a) (hy a)

/-- What is left after a parser was left before it. -/
theorem ReadFrom.before {P : Parser α} {a : α} {xs : List ScriptAction} (h : ReadFrom t xs) (hP : Steady P s)
    (hok : P s = .ok (a, t)) : ReadFrom s xs := by
  obtain ⟨front, hfollows, -⟩ := hP a t hok
  intro x hx
  rw [hfollows.pending]
  exact List.mem_append_right front (h x hx)

/-! ## Scripts in the answers of the parser -/

theorem take_token {f : Kind → Option α} {production : Production} {expected : Expected} {a : α} {span : Span}
    (h : Taking.outcome (take f production expected s) = .ok ((a, span), t)) :
    ∃ k, f k = some a ∧ ⟨k, span⟩ ∈ s.pending := by
  obtain ⟨token, hf, rfl, hfollows⟩ := take_follows h
  refine ⟨token.kind, hf, ?_⟩
  rw [hfollows.pending]
  exact List.mem_cons_self

theorem importRef_steady {b : Bool} : Steady (fun s => Reading.outcome (scriptAction.importRef b s)) s := by
  suffices h : Diagnoses (fun s => Reading.outcome (scriptAction.importRef b s)) (fun _ => True) s from h.steady
  cases b with
  | false => exact .pure none
  | true =>
    simp only [scriptAction.importRef, if_true, outcome_toReading, outcome_taking_andThen, outcome_done]
    refine .take (fun _ => trivial) fun _ _ _ _ _ _ => ?_
    dsimp only
    exact .pure _

theorem takeFlag_steady {keyword : Keyword} : Steady (fun s => Reading.outcome (takeFlag keyword s)) s := by
  suffices h : Diagnoses (fun s => Reading.outcome (takeFlag keyword s)) (fun _ => True) s from h.steady
  simp only [takeFlag, outcome_reading_andThen, outcome_done]
  refine .takeOptional (fun _ => ?_) fun _ _ _ _ _ _ => ?_
  · dsimp only
    exact .pure _
  · dsimp only
    exact .pure _

theorem retrieval_steady : Steady (fun s => Reading.outcome (retrieval s)) s := by
  suffices h : Diagnoses (fun s => Reading.outcome (retrieval s)) (fun _ => True) s from h.steady
  have harrow : ∀ (r : Retrieve) (t : Stream) (K : List Kind → Prop), (∀ ks, K ks) →
      Diagnoses (fun s => Reading.outcome (retrieval.arrowAfter r s)) K t := by
    intro r t K hK
    simp only [retrieval.arrowAfter, outcome_toReading, outcome_taking_andThen, outcome_done]
    refine .take (fun _ => hK []) fun _ _ _ _ _ _ => ?_
    dsimp only
    exact .pure _
  simp only [retrieval, outcome_reading_andThen]
  refine .takeOptional (fun _ => ?_) fun k literal span t _ _ => harrow _ t _ fun _ => trivial
  simp only [outcome_reading_andThen]
  refine .takeOptional (fun _ => ?_) fun k a span t _ _ => ?_
  · dsimp only
    exact .pure _
  · simp only [outcome_reading_andThen, outcome_toReading, outcome_taking_andThen]
    refine .takeFlag fun isLocal u => ?_
    dsimp only
    refine .take (fun _ => trivial) fun k key keySpan v _ _ => ?_
    dsimp only
    exact harrow _ v _ fun _ => trivial

theorem scriptAction_readFrom {span : Span} {a : Simple} (h : Reading.outcome (scriptAction span s) = .ok (a, t)) :
    ReadFrom s a.scripts := by
  simp only [scriptAction, outcome_reading_andThen, outcome_toReading, outcome_taking_andThen, outcome_done,
    bind_eq_ok] at h
  obtain ⟨⟨b, s₁⟩, h₁, ⟨i, s₂⟩, h₂, ⟨⟨raw, rawSpan⟩, s₃⟩, h₃, he⟩ := h
  cases he
  obtain ⟨k, hk, hmem⟩ := take_token h₃
  rw [scriptText?_eq_some hk] at hmem
  have hhere : ReadFrom s₂ [⟨i, ⟨raw, rawSpan⟩, span.join rawSpan⟩] := List.forall_mem_singleton.mpr hmem
  exact (hhere.before importRef_steady h₂).before takeFlag_steady h₁

theorem simpleAction_readFrom {production : Production} {a : Simple}
    (h : Taking.outcome (simpleAction production s) = .ok (a, t)) : ReadFrom s a.scripts := by
  simp only [simpleAction, outcome_taking_andThen, bind_eq_ok] at h
  obtain ⟨⟨⟨word, span⟩, s₁⟩, h₁, h₂⟩ := h
  have hrest : ReadFrom s₁ a.scripts := by
    cases word with
    | script => exact scriptAction_readFrom h₂
    | commands word =>
      simp only [commandList, outcome_reading_andThen, outcome_toReading, outcome_taking_andThen, outcome_done,
        bind_eq_ok] at h₂
      obtain ⟨_, _, _, _, he⟩ := h₂
      cases he
      exact readFrom_nil
    | say =>
      simp only [sayAction, outcome_reading_andThen, outcome_done, bind_eq_ok] at h₂
      obtain ⟨_, _, he⟩ := h₂
      cases he
      exact readFrom_nil
    | call =>
      simp only [callAction, outcome_reading_andThen, outcome_toReading, outcome_taking_andThen, outcome_done,
        bind_eq_ok] at h₂
      obtain ⟨_, _, _, _, he⟩ := h₂
      cases he
      exact readFrom_nil
  exact hrest.before (take_diagnoses (K := fun _ => True) fun _ => trivial).steady h₁

theorem storeLink_readFrom {span : Span} {l : Link} (h : Reading.outcome (storeLink span s) = .ok (l, t)) :
    l.step.scripts = [] := by
  simp only [storeLink, outcome_reading_andThen, outcome_toReading, outcome_taking_andThen, bind_eq_ok] at h
  obtain ⟨_, _, _, _, _, _, h⟩ := h
  split at h
  · cases h
  · cases h
    rfl

theorem chain_readFrom {links : List Link} (h : Reading.outcome (chain s) = .ok (links, t)) :
    ReadFrom s (chainScripts links) := by
  induction hn : s.size using Nat.strongRecOn generalizing s links with
  | _ n ih =>
    subst hn
    rw [outcome_chain, bind_eq_ok] at h
    obtain ⟨⟨arrow, s₁⟩, h₁, h⟩ := h
    have hlonger := Reading.notLonger h₁
    refine ReadFrom.before ?_ (takeOptional_diagnoses (K := fun _ => True)).steady h₁
    cases arrow with
    | none =>
      cases h
      exact readFrom_nil
    | some arrow =>
      dsimp only at h
      split at h
      · simp only [bind_eq_ok] at h
        obtain ⟨⟨word, s₂⟩, h₂, ⟨link, s₃⟩, h₃, he⟩ := h
        cases he
        rw [show chainScripts [link] = link.step.scripts ++ [] from rfl, storeLink_readFrom h₃]
        exact readFrom_nil
      · simp only [bind_eq_ok] at h
        obtain ⟨⟨a, s₂⟩, h₂, ⟨rest, s₃⟩, h₃, he⟩ := h
        cases he
        have hshorter := Taking.shorter h₂
        have hrest := ih s₂.size (by omega) h₃ rfl
        exact (simpleAction_readFrom h₂).append (hrest.before simpleAction_diagnoses.steady h₂)

theorem executeAction_readFrom {a : Action} (h : Taking.outcome (executeAction s) = .ok (a, t)) :
    ReadFrom s a.scripts := by
  simp only [outcome_executeAction, bind_eq_ok] at h
  obtain ⟨⟨retrieve, s₁⟩, h₁, ⟨action, s₂⟩, h₂, ⟨links, s₃⟩, h₃, he⟩ := h
  cases he
  have hlinks := (chain_readFrom h₃).before simpleAction_diagnoses.steady h₂
  exact ((simpleAction_readFrom h₂).append hlinks).before retrieval_steady h₁

theorem actionsUntilEnd_readFrom {action : (s : Stream) → Taking Action s} {production : Production}
    (hsteady : ∀ s, Steady (fun s => Taking.outcome (action s)) s)
    (hact : ∀ {s t a}, Taking.outcome (action s) = .ok (a, t) → ReadFrom s a.scripts) {actions : List Action}
    (h : Reading.outcome (actionsUntilEnd action production s) = .ok (actions, t)) :
    ReadFrom s (actionsScripts actions) := by
  induction hn : s.size using Nat.strongRecOn generalizing s actions with
  | _ n ih =>
    subst hn
    rw [outcome_actionsUntilEnd] at h
    split at h
    · cases h
      exact readFrom_nil
    split at h
    · cases h
    simp only [bind_eq_ok] at h
    obtain ⟨⟨a, s₁⟩, h₁, ⟨rest, s₂⟩, h₂, he⟩ := h
    cases he
    have hrest := ih s₁.size (Taking.shorter h₁) h₂ rfl
    exact (hact h₁).append (hrest.before (hsteady s) h₁)

theorem bodyOf_readFrom {action : (s : Stream) → Taking Action s} {production : Production}
    (hsteady : ∀ s, Steady (fun s => Taking.outcome (action s)) s)
    (hact : ∀ {s t a}, Taking.outcome (action s) = .ok (a, t) → ReadFrom s a.scripts) {body : Body}
    (h : Reading.outcome (bodyOf action production s) = .ok (body, t)) : ReadFrom s (actionsScripts body.actions) := by
  simp only [bodyOf, outcome_reading_andThen, outcome_done, bind_eq_ok] at h
  obtain ⟨⟨actions, s₁⟩, h₁, he⟩ := h
  cases he
  exact actionsUntilEnd_readFrom hsteady hact h₁

theorem takeKind_steady {k : Kind} {production : Production} :
    Steady (fun s => Taking.outcome (takeKind k production s)) s :=
  (take_diagnoses (K := fun _ => True) fun _ => trivial).steady

theorem action_readFrom : ∀ {room : Nat} {s t : Stream} {a : Action}, Taking.outcome (action room s) = .ok (a, t) →
    ReadFrom s a.scripts
  | 0, s, t, a, h => by
    rw [action] at h
    split at h
    · cases h
    · exact executeAction_readFrom h
  | room + 1, s, t, a, h => by
    rw [action] at h
    split at h
    · simp only [outcome_taking_andThen, outcome_toReading, outcome_reading_andThen, outcome_done, bind_eq_ok] at h
      obtain ⟨⟨get, s₁⟩, h₁, ⟨word, s₂⟩, h₂, ⟨body, s₃⟩, h₃, ⟨stop, s₄⟩, h₄, ⟨links, s₅⟩, h₅, he⟩ := h
      cases he
      have hsteady := fun s => (action_diagnoses room s).steady
      have hbody := bodyOf_readFrom hsteady action_readFrom h₃
      have hlinks := ((chain_readFrom h₅).before takeKind_steady h₄).before
        (bodyOf_diagnoses (action_diagnoses room) action_sound).steady h₃
      exact ((hbody.append hlinks).before takeKind_steady h₂).before takeKind_steady h₁
    · exact executeAction_readFrom h

/-! ## Scripts of whole programs -/

/-- The scripts of a declaration. -/
def Declaration.scripts : Declaration → List ScriptAction
  | .entry _ => []
  | .define a => a.scripts

theorem prefixValue_steady {b : Bool} : Steady (fun s => Reading.outcome (definition.prefixValue b s)) s := by
  suffices h : Diagnoses (fun s => Reading.outcome (definition.prefixValue b s)) (fun _ => True) s from h.steady
  cases b with
  | false => exact .pure none
  | true =>
    simp only [definition.prefixValue, if_true, outcome_toReading, outcome_taking_andThen, outcome_done]
    refine .take (fun _ => trivial) fun _ _ _ _ _ _ => ?_
    dsimp only
    exact .pure _

theorem declaration_readFrom {d : Declaration} (h : Taking.outcome (declaration s) = .ok (d, t)) :
    ReadFrom s d.scripts := by
  simp only [declaration, outcome_taking_andThen, bind_eq_ok] at h
  obtain ⟨⟨⟨isEntry, span⟩, s₁⟩, h₁, h₂⟩ := h
  refine ReadFrom.before ?_ (take_diagnoses (K := fun _ => True) fun _ => trivial).steady h₁
  cases isEntry with
  | true =>
    simp only [if_true, outcome_toReading, outcome_taking_andThen, outcome_done, bind_eq_ok] at h₂
    obtain ⟨_, _, he⟩ := h₂
    cases he
    exact readFrom_nil
  | false =>
    simp only [Bool.false_eq_true, if_false, definition, outcome_taking_andThen, outcome_toReading,
      outcome_reading_andThen, outcome_done, bind_eq_ok] at h₂
    obtain ⟨⟨name, s₂⟩, h₂, ⟨isPrefixed, s₃⟩, h₃, ⟨keyPrefix, s₄⟩, h₄, ⟨body, s₅⟩, h₅, ⟨stop, s₆⟩, h₆, he⟩ := h₂
    cases he
    have hbody := bodyOf_readFrom (fun s => (action_diagnoses maxNesting s).steady) action_readFrom h₅
    have hname := (hbody.before prefixValue_steady h₄).before takeFlag_steady h₃
    exact hname.before (take_diagnoses (K := fun _ => True) fun _ => trivial).steady h₂

theorem allDeclarations_readFrom {ds : List Declaration} (h : allDeclarations s = .ok ds) :
    ReadFrom s (ds.flatMap Declaration.scripts) := by
  induction hn : s.size using Nat.strongRecOn generalizing s ds with
  | _ n ih =>
    subst hn
    rw [allDeclarations_eq] at h
    split at h
    · cases h
      exact readFrom_nil
    simp only [bind_eq_ok] at h
    obtain ⟨⟨d, s₁⟩, h₁, rest, h₂, he⟩ := h
    cases he
    have hrest := ih s₁.size (Taking.shorter h₁) h₂ rfl
    exact (declaration_readFrom h₁).append (hrest.before declaration_diagnoses.steady h₁)

end

theorem aliases_scripts (p : Program) :
    p.aliases.flatMap Alias.scripts = p.declarations.flatMap Declaration.scripts := by
  obtain ⟨ds⟩ := p
  unfold aliases
  induction ds with
  | nil => rfl
  | cons d ds ih =>
    cases d with
    | entry e => simpa [Declaration.scripts] using ih
    | define a => simpa [Declaration.scripts] using ih

/-- Every script of a program that is read stands in a token of the list. -/
theorem token_mem_of_ofTokens {tokens : List Token} {p : Program} (h : ofTokens tokens = .ok p) {a : ScriptAction}
    (ha : a ∈ p.aliases.flatMap Alias.scripts) : a.script.token ∈ tokens := by
  rw [aliases_scripts] at ha
  have hmem := allDeclarations_readFrom (ofTokens_eq_ok.mp h) a ha
  exact (List.takeWhile_subset _) hmem

theorem utf8Size_of_isSourceChar {c : Char} (h : Token.isSourceChar c = true) : c.utf8Size = 1 := by
  have hle : c.val ≤ 0x7f := by
    simp only [Token.isSourceChar, Bool.or_eq_true, Bool.and_eq_true, decide_eq_true_eq] at h
    obtain ((rfl | rfl) | rfl) | ⟨-, hle⟩ := h
    · decide
    · decide
    · decide
    · exact Nat.le_trans hle (by decide)
  unfold Char.utf8Size
  exact if_pos hle

theorem utf8Size_of_parse {source : String} {p : Program} (h : parse source = .ok p) :
    ∀ c ∈ source.toList, c.utf8Size = 1 := by
  obtain ⟨tokens, htokens, -⟩ := parse_eq_ok.mp h
  obtain ⟨hsource, -⟩ := Token.tokenize_eq_ok.mp htokens
  exact fun c hc => utf8Size_of_isSourceChar (hsource c hc)

/-- A script of a program stands in its source between fences, as it is written, at its place. -/
theorem script_stands {source : String} {p : Program} (h : parse source = .ok p) {a : ScriptAction}
    (ha : a ∈ p.aliases.flatMap Alias.scripts) :
    ∃ front back, source.toList = front ++ (Token.fence ++ (a.script.raw.toList ++ (Token.fence ++ back))) ∧
      a.script.span = .between (Position.start.after front)
        (Position.start.after (front ++ (Token.fence ++ (a.script.raw.toList ++ Token.fence)))) ∧
      a.script.raw.toList = a.script.unescaped.toList.flatMap Script.written ∧
      ∀ c ∈ a.script.raw.toList, c.utf8Size = 1 := by
  obtain ⟨tokens, htokens, hp⟩ := parse_eq_ok.mp h
  obtain ⟨-, hfrom⟩ := Token.tokenize_eq_ok.mp htokens
  obtain ⟨tokensFront, endSpan, rfl, hplaces⟩ := Token.tokensFrom_ok hfrom
  have hmem : a.script.token ∈ tokensFront := by
    rcases List.mem_append.mp (token_mem_of_ofTokens hp ha) with hmem | hmem
    · exact hmem
    · cases List.mem_singleton.mp hmem
  obtain ⟨front, c, rest, n, hcs, hlex, hspan⟩ := hplaces _ hmem
  obtain ⟨hspelling, hwritten⟩ := Script.lexeme_script hlex
  have hrest : c :: rest = Token.fence ++ (a.script.raw.toList ++ (Token.fence ++ rest.drop n)) := by
    rw [← List.append_assoc a.script.raw.toList, ← List.append_assoc, ← hspelling, List.cons_append,
      List.take_append_drop]
  rw [hrest] at hcs
  rw [hspelling] at hspan
  refine ⟨front, rest.drop n, hcs, hspan, ?_, fun d hd => utf8Size_of_parse h d ?_⟩
  · rw [Fenced.unescaped, String.toList_ofList, hwritten]
  · rw [hcs]
    exact List.mem_append_right _ (List.mem_append_right _ (List.mem_append_left _ hd))

/-- **Remarks on a script are mapped to their places in the source.** Take a script of a source text that parses, any
key prefix and any imported content. The script stands in the source between fences, each of its characters as it is
written there. A remark on the place before character `k`, or at the end, is mapped to the place in the source where
the writing of that character starts. A remark on a place in front of the script is mapped to the script as a whole. -/
theorem remarks_map_to_their_source {source : String} {p : Program} (h : parse source = .ok p) {a : ScriptAction}
    (ha : a ∈ p.aliases.flatMap Alias.scripts) (keyPrefix : String) (content : Option String) :
    ∃ front back,
      source.toList = front ++ (Token.fence ++
        (a.script.unescaped.toList.flatMap Script.written ++ (Token.fence ++ back))) ∧
      (∀ k ≤ a.script.unescaped.toList.length,
        let q := Position.start.after
          ((Script.placed a.script keyPrefix content).take (Script.frontLength keyPrefix content + k))
        Script.remap a.script (Script.frontLines content) (q.line + 1) q.column =
          .point (Position.start.after
            (front ++ (Token.fence ++ (a.script.unescaped.toList.take k).flatMap Script.written)))) ∧
      a.script.span = .between (Position.start.after front)
        (Position.start.after (front ++ (Token.fence ++
          (a.script.unescaped.toList.flatMap Script.written ++ Token.fence)))) ∧
      ∀ k < Script.frontLength keyPrefix content, ∀ column,
        let q := Position.start.after ((Script.placed a.script keyPrefix content).take k)
        Script.remap a.script (Script.frontLines content) (q.line + 1) column = a.script.span := by
  obtain ⟨front, back, hsource, hspan, hraw, hascii⟩ := script_stands h ha
  refine ⟨front, back, by rw [← hraw]; exact hsource, fun k _ => ?_, by rw [← hraw]; exact hspan, fun k hk column => ?_⟩
  · rw [Position.after_append]
    exact Script.remap_in_script a.script keyPrefix content hspan hraw hascii k
  · exact Script.remap_in_front a.script keyPrefix content hk column

/-- A script on two lines, the first ended by a carriage return and a line feed, the second with two backticks. -/
def tickedSource : String := "# c\nalias aa js ```x\r\n\\`y\\`z``` end"

/-- The script of the source. -/
def tickedScript : ScriptAction := ⟨none, ⟨"x\r\n\\`y\\`z", ⟨16, 31, 2, 13⟩⟩, ⟨13, 31, 2, 10⟩⟩

/-- All the scripts that the source parses to. -/
def tickedScripts : {scripts // (parse tickedSource).map (·.aliases.flatMap Alias.scripts) = .ok scripts} :=
  ⟨[tickedScript], by decide +kernel⟩

/-- After an import of one line, the `z` of the script is at column 3 of line 6; in the source it is at offset 27, which
is column 6 of line 3. -/
theorem ticked_remark_maps_back :
    ∃ p, parse tickedSource = .ok p ∧ tickedScript ∈ p.aliases.flatMap Alias.scripts ∧
      Script.remap tickedScript.script (Script.frontLines (some "q")) 6 3 = ⟨27, 27, 3, 6⟩ := by
  obtain ⟨p, hp, hscripts⟩ := Token.map_eq_ok tickedScripts.2
  have hmem : tickedScript ∈ p.aliases.flatMap Alias.scripts := by
    rw [hscripts]
    exact List.mem_cons_self
  obtain ⟨front, back, hsource, hremap, hspan, -⟩ := remarks_map_to_their_source hp hmem "p" (some "q")
  -- the place of the script tells how long the text in front of it is
  have hascii : ∀ c ∈ front, c.utf8Size = 1 := by
    intro c hc
    refine utf8Size_of_parse hp c ?_
    rw [hsource]
    exact List.mem_append_left _ hc
  have hlength : front.length = 16 := by
    have hstart : (16 : Nat) = (Position.start.after front).offset := congrArg Span.start hspan
    rw [Position.after_offset, Script.byteLength_of_ascii hascii] at hstart
    exact ((Nat.zero_add _).symm.trans hstart.symm)
  have hfront : front = tickedSource.toList.take 16 := by rw [hsource, ← hlength, List.take_left]
  refine ⟨p, hp, hmem, ?_⟩
  have htake : tickedScript.script.unescaped.toList.take 6 = Text.ended [['x', '\r']] ++ ['`', 'y', '`'] := by
    decide +kernel
  obtain ⟨hline, hcolumn⟩ :=
    Script.place_in_script tickedScript.script "p" (some "q") htake (by decide) (by decide)
  have hz := hremap 6 (by decide +kernel)
  dsimp only at hz
  rw [hline, hcolumn, hfront, htake] at hz
  rw [show (6 : Nat) = Script.frontLines (some "q") + [['x', '\r']].length + 1 by decide +kernel]
  exact hz.trans (by decide +kernel)

end AliasLang.Program
