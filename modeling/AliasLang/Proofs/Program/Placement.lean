/-
The grammar of programs over tokens with their places. Each production gives its part the stretch from the start of its
first token to the end of its last one; a body without tokens has the place of the `end` after it. The productions are
those of the grammar over kinds of tokens, here with programs whose places are left in.
-/
import AliasLang.Proofs.Program.Grammar

namespace AliasLang

namespace Source.Span

/-- `a` lies inside `b`. -/
def Within (a b : Span) : Prop := b.start ≤ a.start ∧ a.stop ≤ b.stop

/-- `a` ends before `b` starts. -/
def Before (a b : Span) : Prop := a.stop ≤ b.start

theorem Before.shrink {a b c d : Span} (h : a.Before b) (hc : c.Within a) (hd : d.Within b) : c.Before d :=
  Nat.le_trans hc.2 (Nat.le_trans h hd.1)

theorem ext {a b : Span} (hstart : a.start = b.start) (hstop : a.stop = b.stop) (hline : a.line = b.line)
    (hcolumn : a.column = b.column) : a = b := by
  cases a
  cases b
  simp_all

theorem join_self (a : Span) : a.join a = a := ext (Nat.min_self _) (Nat.max_self _) rfl rfl

end Source.Span

open Source (Span)

/-! ## Stretches of tokens -/

namespace Token

/-- Tokens as they stand in a source: each covers some text, and ends before the next ones start. -/
structure InOrder (ts : List Token) : Prop where
  covers : ∀ t ∈ ts, t.span.start < t.span.stop
  apart : ts.Pairwise fun t u => t.span.Before u.span

/-- The stretch from the start of the first token, with its line and column, to the end of the last one. -/
def spanOf : List Token → Span
  | [] => .origin
  | t :: ts => { t.span with stop := ((t :: ts).getLast (List.cons_ne_nil t ts)).span.stop }

theorem InOrder.sublist {ts us : List Token} (h : InOrder us) (hs : ts.Sublist us) : InOrder ts :=
  ⟨fun t ht => h.covers t (hs.subset ht), h.apart.sublist hs⟩

theorem InOrder.left {ts us : List Token} (h : InOrder (ts ++ us)) : InOrder ts :=
  h.sublist (List.sublist_append_left ts us)

theorem InOrder.right {ts us : List Token} (h : InOrder (ts ++ us)) : InOrder us :=
  h.sublist (List.sublist_append_right ts us)

theorem InOrder.tail {t : Token} {ts : List Token} (h : InOrder (t :: ts)) : InOrder ts :=
  h.sublist (List.sublist_cons_self t ts)

@[simp] theorem spanOf_singleton (t : Token) : spanOf [t] = t.span := rfl

theorem start_spanOf {ts : List Token} (hne : ts ≠ []) : (spanOf ts).start = (ts.head hne).span.start := by
  cases ts with
  | nil => exact absurd rfl hne
  | cons t ts => rfl

theorem stop_spanOf {ts : List Token} (hne : ts ≠ []) : (spanOf ts).stop = (ts.getLast hne).span.stop := by
  cases ts with
  | nil => exact absurd rfl hne
  | cons t ts => rfl

/-- Tokens at the end of others end with them. -/
theorem stop_spanOf_suffix {ts us : List Token} (hs : ts <:+ us) (hne : ts ≠ []) :
    (spanOf ts).stop = (spanOf us).stop := by
  rw [stop_spanOf hne, stop_spanOf (hs.ne_nil hne), hs.getLast hne]

/-- A token lies inside the stretch of the tokens around it. -/
theorem InOrder.within {ts : List Token} (h : InOrder ts) {t : Token} (ht : t ∈ ts) : t.span.Within (spanOf ts) := by
  obtain ⟨front, back, rfl⟩ := List.append_of_mem ht
  obtain ⟨-, hback, hfront⟩ := List.pairwise_append.mp h.apart
  have hhere := h.covers t ht
  constructor
  · rw [start_spanOf (List.ne_nil_of_mem ht)]
    cases front with
    | nil => exact Nat.le_refl _
    | cons first front =>
      have hfirst := h.covers first List.mem_cons_self
      have hbefore : first.span.Before t.span := hfront first List.mem_cons_self t List.mem_cons_self
      exact Nat.le_of_lt (Nat.lt_of_lt_of_le hfirst hbefore)
  · rw [← stop_spanOf_suffix (List.suffix_append front (t :: back)) (List.cons_ne_nil t back)]
    cases back with
    | nil => exact Nat.le_refl _
    | cons next back =>
      rw [stop_spanOf (List.cons_ne_nil t _), List.getLast_cons_cons]
      have hmem : (next :: back).getLast (List.cons_ne_nil next back) ∈ next :: back := List.getLast_mem _
      have hlast := h.covers _ (List.mem_append_right front (List.mem_cons_of_mem t hmem))
      have hbefore : t.span.Before _ := (List.pairwise_cons.mp hback).1 _ hmem
      exact Nat.le_of_lt (Nat.lt_of_le_of_lt hbefore hlast)

/-- Some of the tokens in a row lie inside the stretch of all of them. -/
theorem InOrder.spanOf_within {ts us : List Token} (h : InOrder us) (hs : ts <:+: us) (hne : ts ≠ []) :
    (spanOf ts).Within (spanOf us) := by
  constructor
  · rw [start_spanOf hne]
    exact (h.within (hs.subset (List.head_mem hne))).1
  · rw [stop_spanOf hne]
    exact (h.within (hs.subset (List.getLast_mem hne))).2

theorem InOrder.spanOf_covers {ts : List Token} (h : InOrder ts) (hne : ts ≠ []) :
    (spanOf ts).start < (spanOf ts).stop := by
  have hhead := h.covers _ (List.head_mem hne)
  have hwithin := h.within (List.head_mem hne)
  exact Nat.lt_of_le_of_lt hwithin.1 (Nat.lt_of_lt_of_le hhead hwithin.2)

/-- Tokens that come first end before the others start. -/
theorem InOrder.spanOf_before {ts us : List Token} (h : InOrder (ts ++ us)) (hts : ts ≠ []) (hus : us ≠ []) :
    (spanOf ts).Before (spanOf us) := by
  have hapart := (List.pairwise_append.mp h.apart).2.2 _ (List.getLast_mem hts) _ (List.head_mem hus)
  rw [Span.Before, stop_spanOf hts, start_spanOf hus]
  exact hapart

/-- Joining the first token with tokens at the end gives the stretch of all. -/
theorem InOrder.join_spanOf {t : Token} {ts us : List Token} (h : InOrder (t :: ts)) (hs : us <:+ t :: ts)
    (hne : us ≠ []) : t.span.join (spanOf us) = spanOf (t :: ts) := by
  have hfirst := h.within List.mem_cons_self
  have hlast := h.spanOf_within hs.isInfix hne
  refine Span.ext ?_ ?_ rfl rfl
  · exact Nat.min_eq_left hlast.1
  · show max t.span.stop (spanOf us).stop = _
    rw [stop_spanOf_suffix hs hne]
    exact Nat.max_eq_right hfirst.2

end Token

/-! ## The grammar with places -/

namespace Program

open Token (Kind Keyword spanOf)
open Grammar

/-- The tokens of the id, if one is imported, and of the script. -/
def ScriptAction.tokens (a : ScriptAction) : List Token :=
  (a.imported.map fun i => ⟨.string i.id, i.span⟩).toList ++ [⟨.script a.script.raw, a.script.span⟩]

/-- The place of a retrieval. -/
def Retrieve.span : Retrieve → Span
  | .key _ _ span => span
  | .argument _ span => span

/-- `ExecuteActionSimple`: the id and the script of a script action have the places of their tokens, which come last. -/
structure SimpleAt (a : Simple) (ts : List Token) : Prop where
  form : SimpleForm a.erase (ts.map Token.kind)
  span : a.span = spanOf ts
  script : ∀ s, a = .script s → s.tokens <:+ ts

/-- `RetrieveAction` -/
structure RetrieveAt (r : Retrieve) (ts : List Token) : Prop where
  form : RetrieveForm r.erase (ts.map Token.kind)
  span : r.span = spanOf ts

/-- `["->" ContinuedAction]`: a link has the tokens from its step to the end of the chain. -/
inductive ChainAt : List Link → List Token → Prop where
  | nothing : ChainAt [] []
  | store {arrow : Token} {ts : List Token} {key : String} {isTemp isLocal : Bool} (harrow : arrow.kind = .arrow)
      (hts : ts.map Token.kind = .keyword .set :: (flag .temp isTemp ++ (flag .local_ isLocal ++ [.string key]))) :
      ChainAt [⟨.store ⟨key, isTemp, isLocal, spanOf ts⟩, spanOf ts⟩] (arrow :: ts)
  | action {arrow : Token} {a : Simple} {chain : List Link} {ts us : List Token} (harrow : arrow.kind = .arrow)
      (ha : SimpleAt a ts) (hc : ChainAt chain us) :
      ChainAt (⟨.action a, spanOf (ts ++ us)⟩ :: chain) (arrow :: (ts ++ us))

/-- The place of a body with the tokens `ts` before the `end`. -/
def bodySpan : (ts : List Token) → (stop : Token) → Span
  | [], stop => stop.span
  | t :: ts, _ => spanOf (t :: ts)

mutual

/-- `AliasAction` -/
inductive ActionAt : Action → List Token → Prop where
  | execute {a : Simple} {chain : List Link} {ts us : List Token} (ha : SimpleAt a ts) (hc : ChainAt chain us) :
      ActionAt (.execute ⟨none, a, chain, spanOf (ts ++ us)⟩) (ts ++ us)
  | retrieved {r : Retrieve} {arrow : Token} {a : Simple} {chain : List Link} {rs ts us : List Token}
      (hr : RetrieveAt r rs) (harrow : arrow.kind = .arrow) (ha : SimpleAt a ts) (hc : ChainAt chain us) :
      ActionAt (.execute ⟨some r, a, chain, spanOf (rs ++ arrow :: (ts ++ us))⟩) (rs ++ arrow :: (ts ++ us))
  | compiled {get word stop : Token} {actions : List Action} {chain : List Link} {ts us : List Token}
      (hget : get.kind = .keyword .get) (hword : word.kind = .keyword .compiled) (hstop : stop.kind = .keyword .end_)
      (hb : BodyAt actions ts) (hc : ChainAt chain us) :
      ActionAt (.compiled actions (bodySpan ts stop) chain (spanOf (get :: word :: (ts ++ stop :: us))))
        (get :: word :: (ts ++ stop :: us))

/-- `AliasBody` -/
inductive BodyAt : List Action → List Token → Prop where
  | nil : BodyAt [] []
  | cons {a : Action} {rest : List Action} {ts us : List Token} (ha : ActionAt a ts) (hr : BodyAt rest us) :
      BodyAt (a :: rest) (ts ++ us)

end

/-- `Declaration` -/
inductive DeclarationAt : Declaration → List Token → Prop where
  | entry {word token : Token} {name : String} (hword : word.kind = .keyword .entry) (hn : Ident name token.kind) :
      DeclarationAt (.entry ⟨name, spanOf [word, token]⟩) [word, token]
  | define {word token stop : Token} {name : String} {keyPrefix : Option String} {actions : List Action}
      {ps ts : List Token} (hword : word.kind = .keyword .alias_) (hn : Ident name token.kind)
      (hp : Prefixed keyPrefix (ps.map Token.kind)) (hb : BodyAt actions ts) (hstop : stop.kind = .keyword .end_) :
      DeclarationAt
        (.define ⟨name, keyPrefix, ⟨actions, bodySpan ts stop⟩, spanOf (word :: token :: (ps ++ (ts ++ [stop])))⟩)
        (word :: token :: (ps ++ (ts ++ [stop])))

/-- `Program` -/
inductive DeclarationsAt : List Declaration → List Token → Prop where
  | nil : DeclarationsAt [] []
  | cons {d : Declaration} {rest : List Declaration} {ts us : List Token} (hd : DeclarationAt d ts)
      (hr : DeclarationsAt rest us) : DeclarationsAt (d :: rest) (ts ++ us)

/-! ## Parts have tokens -/

theorem Grammar.SimpleForm.ne_nil {a : Simple} {ks : List Kind} (h : SimpleForm a ks) : ks ≠ [] := by
  cases h <;> simp

theorem Grammar.RetrieveForm.ne_nil {r : Retrieve} {ks : List Kind} (h : RetrieveForm r ks) : ks ≠ [] := by
  cases h <;> simp

theorem SimpleAt.ne_nil {a : Simple} {ts : List Token} (h : SimpleAt a ts) : ts ≠ [] := by
  rintro rfl
  exact h.form.ne_nil rfl

theorem RetrieveAt.ne_nil {r : Retrieve} {ts : List Token} (h : RetrieveAt r ts) : ts ≠ [] := by
  rintro rfl
  exact h.form.ne_nil rfl

theorem ActionAt.ne_nil {a : Action} {ts : List Token} (h : ActionAt a ts) : ts ≠ [] := by
  cases h with
  | execute ha hc => simp [ha.ne_nil]
  | retrieved hr harrow ha hc => simp
  | compiled => simp

end Program

end AliasLang
