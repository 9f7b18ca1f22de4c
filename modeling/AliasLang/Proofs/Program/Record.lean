/-
Programs read back from their records. Every part of a program reads back as it was written, as long as its numbers are
those of 64 bits, except for a link of a chain that runs an action: its two tags hide each other, and the whole record
is refused. So a program is read back unchanged or not at all, from the record with all its members as well as from the
value in which only the last member of a name is left.
-/
import AliasLang.Program.Record

namespace AliasLang

/-! ## Values with one member for a name -/

namespace Json

mutual

/-- The value that a record stands for: among members with one name only the last counts. -/
def merged : Json → Json
  | .null => .null
  | .bool b => .bool b
  | .num n => .num n
  | .str s => .str s
  | .arr items => .arr (mergedItems items)
  | .obj members => .obj (mergedMembers members)

def mergedItems : List Json → List Json
  | [] => []
  | j :: rest => j.merged :: mergedItems rest

def mergedMembers : List (String × Json) → List (String × Json)
  | [] => []
  | (name, j) :: rest =>
    if name ∈ rest.map Prod.fst then mergedMembers rest else (name, j.merged) :: mergedMembers rest

end

theorem mergedItems_eq (items : List Json) : mergedItems items = items.map merged := by
  induction items with
  | nil => rw [mergedItems, List.map_nil]
  | cons j rest ih => rw [mergedItems, ih, List.map_cons]

theorem mergedMembers_eq {members : List (String × Json)} (h : (members.map Prod.fst).Nodup) :
    mergedMembers members = members.map fun m => (m.1, m.2.merged) := by
  induction members with
  | nil => rw [mergedMembers, List.map_nil]
  | cons m rest ih =>
    rw [List.map_cons, List.nodup_cons] at h
    rw [mergedMembers, if_neg h.1, ih h.2, List.map_cons]

/-- A record as it is read: as it is, or merged. -/
def form (merge : Bool) (j : Json) : Json := if merge then j.merged else j

variable (merge : Bool)

@[simp] theorem form_null : form merge .null = .null := by cases merge <;> simp [form, merged]

@[simp] theorem form_bool (b : Bool) : form merge (.bool b) = .bool b := by cases merge <;> simp [form, merged]

@[simp] theorem form_num (n : Int) : form merge (.num n) = .num n := by cases merge <;> simp [form, merged]

@[simp] theorem form_str (s : String) : form merge (.str s) = .str s := by cases merge <;> simp [form, merged]

@[simp] theorem form_ofText? (s : Option String) : form merge (.ofText? s) = .ofText? s := by cases s <;> simp [ofText?]

theorem form_false : form false = id := rfl

theorem form_true : form true = merged := rfl

@[simp] theorem form_getD (j : Option Json) : form merge (j.getD .null) = (j.map (form merge)).getD .null := by
  cases j <;> simp

@[simp] theorem form_arr (items : List Json) : form merge (.arr items) = .arr (items.map (form merge)) := by
  cases merge
  · simp [form_false]
  · simp [form_true, merged, mergedItems_eq]

/-- Nothing is dropped where no name comes twice. -/
theorem form_obj {members : List (String × Json)} (h : (members.map Prod.fst).Nodup) :
    form merge (.obj members) = .obj (members.map fun m => (m.1, form merge m.2)) := by
  cases merge
  · simp [form_false]
  · simp [form_true, merged, mergedMembers_eq h]

end Json

namespace Program

open Source (Span)
open Token (Selector ArgLiteral)
open Json (form)

/-! ## Forms of records -/

section

variable (merge : Bool)

@[simp] theorem form_spanRecord (s : Span) : form merge (spanRecord s) = spanRecord s := by
  rw [spanRecord, Json.form_obj merge (by simp)]
  simp [Json.ofNat]

@[simp] theorem form_selectorRecord (s : Selector) : form merge (selectorRecord s) = selectorRecord s := by
  cases s <;> rw [selectorRecord, Json.form_obj merge (by simp)] <;> simp [Json.ofNat, Function.comp_def]

@[simp] theorem form_argumentRecord (a : ArgLiteral) : form merge (argumentRecord a) = argumentRecord a := by
  rw [argumentRecord, Json.form_obj merge (by simp)]
  simp

@[simp] theorem form_importRecord (i : ImportRef) : form merge (importRecord i) = importRecord i := by
  rw [importRecord, Json.form_obj merge (by simp)]
  simp

/-- The names of a simple action are its own. -/
theorem Simple.members_nodup (a : Simple) : (a.members.map Prod.fst).Nodup := by
  cases a <;> simp [Simple.members]

@[simp] theorem form_members (a : Simple) : form merge (.obj a.members) = .obj a.members := by
  rw [Json.form_obj merge a.members_nodup]
  cases a with
  | script a =>
    have hscript : form merge (.obj [("raw", .str a.script.raw), ("span", spanRecord a.script.span)]) =
        .obj [("raw", .str a.script.raw), ("span", spanRecord a.script.span)] := by
      rw [Json.form_obj merge (by simp)]
      simp
    simp [Simple.members, Function.comp_def, hscript]
  | commands | say | call => simp [Simple.members, Function.comp_def]

@[simp] theorem form_bodyRecord (actions : List Json) (span : Span) :
    form merge (bodyRecord actions span) = bodyRecord (actions.map (form merge)) span := by
  rw [bodyRecord, Json.form_obj merge (by simp)]
  simp [bodyRecord]

@[simp] theorem form_retrieveRecord (r : Retrieve) : form merge (retrieveRecord r) = retrieveRecord r := by
  cases r <;> rw [retrieveRecord, Json.form_obj merge (by simp)] <;> simp

theorem form_storeRecord (s : Store) : form merge (stepRecord (.store s)) = stepRecord (.store s) := by
  rw [stepRecord, Json.form_obj merge (by simp)]
  simp

/-- Merged, the link of an action has the tag of the action. -/
theorem form_actionStep (a : Simple) : form merge (stepRecord (.action a)) =
    if merge then .obj a.members else .obj (("type", .str "action") :: a.members) := by
  cases merge
  · rfl
  · have htag : "type" ∈ a.members.map Prod.fst := by cases a <;> simp [Simple.members]
    rw [if_pos rfl, ← form_members true a, stepRecord, Json.form_true, Json.merged, Json.merged, Json.mergedMembers,
      if_pos htag]

end

/-! ## Readings that give one value or none -/

section

variable {α β : Type}

/-- The value, on a condition. -/
def given (c : Bool) (a : α) : Option α := if c then some a else none

@[simp] theorem given_true (a : α) : given true a = some a := rfl

@[simp] theorem given_map (c : Bool) (a : α) (f : α → β) : (given c a).map f = given c (f a) := by
  cases c <;> rfl

@[simp] theorem given_bind_some (c : Bool) (a : α) (f : α → β) :
    (given c a).bind (fun x => some (f x)) = given c (f a) := by
  cases c <;> rfl

@[simp] theorem given_bind_given (c : Bool) (a : α) (d : α → Bool) (f : α → β) :
    (given c a).bind (fun x => given (d x) (f x)) = given (c && d a) (f a) := by
  cases c <;> rfl

/-- A part that may be missing. -/
theorem optional?_getD {c : α → Bool} {read : Json → Option α} {write : α → Json}
    (h : ∀ a, read (write a) = given (c a) a) (hnull : ∀ a, write a ≠ .null) (a : Option α) :
    Json.optional? read (some ((a.map write).getD .null)) = given (a.toList.all c) a := by
  cases a with
  | none => rfl
  | some a =>
    rw [Option.map_some, Option.getD_some, Json.optional?, h, given_map]
    · simp
    · exact hnull a

theorem mapM_given {c : α → Bool} {read : β → Option α} {write : α → β} (h : ∀ a, read (write a) = given (c a) a)
    (as : List α) : (as.map write).mapM read = given (as.all c) as := by
  induction as with
  | nil => rfl
  | cons a as ih => simp [List.mapM_cons, h, ih]

end

/-! ## Members of objects -/

section

variable (names : List String) (name : String) (members : List (String × Json))

@[simp] theorem member?_obj : (Json.obj members).member? names name = members.lookup name := rfl

@[simp] theorem tagged?_obj (name? : Json → Option String) :
    (Json.obj members).tagged? name? name = ((members.lookup name).bind name?).map (·, .obj members) := rfl

@[simp] theorem caseName?_str (cases : List String) : Json.caseName? cases (.str name) = some name := rfl

@[simp] theorem text?_str : (Json.str name).text? = some name := rfl

@[simp] theorem spanMember?_obj : spanMember? names (.obj members) = (members.lookup "span").bind readSpan? := rfl

@[simp] theorem textMember?_obj :
    textMember? names name (.obj members) = (members.lookup name).bind Json.text? := rfl

@[simp] theorem flagMember?_obj :
    flagMember? names name (.obj members) = (members.lookup name).bind Json.flag? := rfl

@[simp] theorem flag?_bool (b : Bool) : (Json.bool b).flag? = some b := rfl

@[simp] theorem items?_arr (items : List Json) : (Json.arr items).items? = some items := rfl

@[simp] theorem chainMember?_obj : chainMember? names (.obj members) =
    (Json.optional? readChain? (members.lookup "then")).map (·.getD []) := rfl

end

/-! ## Numbers of 64 bits -/

def fitsUnsigned (n : Nat) : Bool := n ≤ Text.maxUnsigned

def fitsSigned (n : Int) : Bool := -Text.maxSigned - 1 ≤ n && n ≤ Text.maxSigned

def fitsSpan (s : Span) : Bool :=
  fitsUnsigned s.start && (fitsUnsigned s.stop && (fitsUnsigned s.line && fitsUnsigned s.column))

def fitsSelector : Selector → Bool
  | .index n => fitsSigned n
  | .onward start => fitsUnsigned start
  | .range start stop => fitsUnsigned start && fitsUnsigned stop
  | .slice start stop => fitsSigned start && stop.toList.all fitsSigned
  | .executor | .channel => true

@[simp] theorem unsigned?_ofNat (n : Nat) : unsigned? (.ofNat n) = given (fitsUnsigned n) n := by
  simp [unsigned?, Json.ofNat, Json.number?, given, fitsUnsigned]

@[simp] theorem signed?_num (n : Int) : signed? (.num n) = given (fitsSigned n) n := by
  simp [signed?, Json.number?, given, fitsSigned]

@[simp] theorem readSpan?_spanRecord (s : Span) : readSpan? (spanRecord s) = given (fitsSpan s) s := by
  simp [readSpan?, spanRecord, List.lookup_cons, fitsSpan]

@[simp] theorem optional?_num (n : Option Int) :
    Json.optional? signed? (some ((n.map Json.num).getD .null)) = given (n.toList.all fitsSigned) n :=
  optional?_getD signed?_num (by simp) n

@[simp] theorem readSelector?_selectorRecord (s : Selector) :
    readSelector? (selectorRecord s) = given (fitsSelector s) s := by
  cases s <;> simp [readSelector?, selectorRecord, List.lookup_cons, fitsSelector, isUnit]

@[simp] theorem readArgument?_argumentRecord (a : ArgLiteral) :
    readArgument? (argumentRecord a) = given (fitsSelector a.selector) a := by
  simp [readArgument?, argumentRecord, List.lookup_cons]

@[simp] theorem readImport?_importRecord (i : ImportRef) :
    readImport? (importRecord i) = given (fitsSpan i.span) i := by
  simp [readImport?, importRecord, List.lookup_cons]

@[simp] theorem optional?_importRecord (i : Option ImportRef) :
    Json.optional? readImport? (some ((i.map importRecord).getD .null)) =
      given ((i.toList.map ImportRef.span).all fitsSpan) i := by
  rw [List.all_map]
  exact optional?_getD readImport?_importRecord (by simp [importRecord]) i

/-! ## What reading back depends on -/

def Step.isStore : Step → Bool
  | .store _ => true
  | .action _ => false

/-- The spans, selectors and links of a part of a program. -/
structure Parts where
  spans : List Span := []
  selectors : List Selector := []
  links : List Link := []

namespace Parts

def append (a b : Parts) : Parts := ⟨a.spans ++ b.spans, a.selectors ++ b.selectors, a.links ++ b.links⟩

instance : Append Parts := ⟨append⟩

/-- All numbers are those of 64 bits. -/
def fits (a : Parts) : Bool := a.spans.all fitsSpan && a.selectors.all fitsSelector

/-- No link runs an action. -/
def storesOnly (a : Parts) : Bool := a.links.all (·.step.isStore)

def readable (a : Parts) : Bool := a.fits && a.storesOnly

@[simp] theorem readable_mk (spans : List Span) (selectors : List Selector) (links : List Link) :
    readable ⟨spans, selectors, links⟩ =
      (spans.all fitsSpan && selectors.all fitsSelector && links.all (·.step.isStore)) := rfl

@[simp] theorem readable_append (a b : Parts) : (a ++ b).readable = (a.readable && b.readable) := by
  show ((a.spans ++ b.spans).all fitsSpan && (a.selectors ++ b.selectors).all fitsSelector &&
    (a.links ++ b.links).all (·.step.isStore)) = _
  simp only [List.all_append, readable, fits, storesOnly]
  ac_rfl

end Parts

/-! ## Simple actions and retrievals -/

def Simple.parts : Simple → Parts
  | .script a => { spans := a.imported.toList.map ImportRef.span ++ [a.script.span, a.span] }
  | .commands l => { spans := [l.span] }
  | .say _ span => { spans := [span] }
  | .call c => { spans := [c.span] }

theorem readCommandWord?_text (w : CommandWord) : readCommandWord? (.str w.text) = some w := by
  cases w <;> rfl

@[simp] theorem optional?_ofText? (s : Option String) : Json.optional? Json.text? (some (.ofText? s)) = some s := by
  cases s <;> rfl

@[simp] theorem mapM_text? (texts : List String) : texts.mapM (Json.text? ∘ Json.str) = some texts := by
  induction texts with
  | nil => rfl
  | cons s texts ih => simp [List.mapM_cons, ih]

@[simp] theorem readSimple?_members (a : Simple) : readSimple? (.obj a.members) = given a.parts.readable a := by
  cases a <;> simp [readSimple?, Simple.members, List.lookup_cons, readFenced?, readCommandWord?_text, Simple.parts]

def Retrieve.parts : Retrieve → Parts
  | .key _ _ span => { spans := [span] }
  | .argument literal span => { spans := [span], selectors := [literal.selector] }

theorem readRetrieve?_retrieveRecord (r : Retrieve) :
    readRetrieve? (retrieveRecord r) = given r.parts.readable r := by
  cases r <;> simp [readRetrieve?, retrieveRecord, List.lookup_cons, Retrieve.parts, Bool.and_comm]

def retrieveParts : Option Retrieve → Parts
  | none => {}
  | some r => r.parts

@[simp] theorem optional?_retrieveRecord (r : Option Retrieve) :
    Json.optional? readRetrieve? (some ((r.map retrieveRecord).getD .null)) = given (retrieveParts r).readable r := by
  have hnull : ∀ r, retrieveRecord r ≠ .null := by
    intro r
    cases r <;> simp [retrieveRecord]
  rw [optional?_getD readRetrieve?_retrieveRecord hnull]
  cases r <;> simp [retrieveParts]

/-! ## Chains -/

def Step.parts : Step → Parts
  | .store s => { spans := [s.span] }
  | .action a => a.parts

def Link.parts (l : Link) : Parts := l.step.parts ++ { spans := [l.span], links := [l] }

def chainParts : List Link → Parts
  | [] => {}
  | l :: rest => l.parts ++ chainParts rest

/-- A store is read back. An action is not, by its own tag or by that of the link. -/
theorem readStep?_stepRecord (merge : Bool) (s : Step) :
    readStep? (form merge (stepRecord s)) = given (s.isStore && s.parts.readable) s := by
  cases s with
  | store s =>
    rw [form_storeRecord]
    simp [readStep?, stepRecord, List.lookup_cons, Step.isStore, Step.parts]
  | action a =>
    rw [form_actionStep]
    cases merge
    · simp [readStep?, Step.isStore, given]
    · cases a <;> simp [readStep?, Simple.members, Step.isStore, given]

/-- The members of a link, with its chain. -/
def linkRecord (step rest : Json) (span : Span) : Json :=
  .obj [("step", step), ("then", rest), ("span", spanRecord span)]

theorem form_chainRecord_cons (merge : Bool) (l : Link) (rest : List Link) :
    form merge (chainRecord (l :: rest)) =
      linkRecord (form merge (stepRecord l.step)) (form merge (chainRecord rest)) l.span := by
  rw [chainRecord, Json.form_obj merge (by simp)]
  simp [linkRecord]

theorem readLink?_linkRecord (merge : Bool) (l : Link) (rest : Json) :
    readLink? (linkRecord (form merge (stepRecord l.step)) rest l.span) = given l.parts.readable l := by
  have hown : Parts.readable { spans := [l.span], links := [l] } = (fitsSpan l.span && l.step.isStore) := by
    simp
  have hparts : l.parts.readable = (l.step.isStore && l.step.parts.readable && fitsSpan l.span) := by
    rw [Link.parts, Parts.readable_append, hown]
    ac_rfl
  simp [readLink?, linkRecord, List.lookup_cons, readStep?_stepRecord, hparts]

/-- A chain is its first link and the chain after it. -/
theorem readChain?_eq (j : Json) : readChain? j = (do
    let link ← readLink? j
    return link :: (← chainMember? linkNames j)) := by
  rw [readChain?]
  cases readLink? j with
  | none => rfl
  | some link =>
    simp only [chainMember?]
    split
    · rename_i hmember
      rw [hmember]
      rfl
    · rename_i hmember
      rw [hmember]
      rfl
    · rename_i rest hnull hmember
      rw [hmember]
      cases hrest : readChain? rest <;> simp [Json.optional?, hrest]

@[simp] theorem optional?_chainRecord (merge : Bool) (chain : List Link) :
    (Json.optional? readChain? (some (form merge (chainRecord chain)))).map (·.getD []) =
      given (chainParts chain).readable chain := by
  induction chain with
  | nil => simp [chainRecord, Json.optional?, chainParts]
  | cons l rest ih =>
    have hrest : chainMember? linkNames
        (linkRecord (form merge (stepRecord l.step)) (form merge (chainRecord rest)) l.span) =
          given (chainParts rest).readable rest := by
      simpa [linkRecord, List.lookup_cons] using ih
    have hread := readChain?_eq (linkRecord (form merge (stepRecord l.step)) (form merge (chainRecord rest)) l.span)
    rw [readLink?_linkRecord, hrest] at hread
    rw [form_chainRecord_cons]
    show ((readChain? _).map some).map _ = _
    rw [hread, chainParts, Parts.readable_append]
    simp

/-! ## Actions -/

mutual

def Action.parts : Action → Parts
  | .execute e => retrieveParts e.retrieve ++ (e.action.parts ++ (chainParts e.chain ++ { spans := [e.span] }))
  | .compiled actions bodySpan chain span =>
    actionsParts actions ++ ({ spans := [bodySpan] } ++ (chainParts chain ++ { spans := [span] }))

def actionsParts : List Action → Parts
  | [] => {}
  | a :: rest => a.parts ++ actionsParts rest

end

/-- The body of a block is read like that of an alias. -/
theorem readAction?_eq (j : Json) : readAction? j = (do
    let (tag, k) ← j.tagged? (Json.caseName? actionCases) "type"
    if tag = "execute" then (readExecute? k).map .execute
    else if tag = "get_compiled" then do
      let body ← readBody? (← k.member? compiledNames "root")
      return .compiled body.actions body.span (← chainMember? compiledNames k) (← spanMember? compiledNames k)
    else none) := by
  rw [readAction?]
  split
  · rename_i htagged
    rw [htagged]
    rfl
  · rename_i tag k htagged
    rw [htagged]
    simp only [Option.bind_eq_bind, Option.bind_some]
    split
    · rfl
    · split
      · split
        · rename_i hroot
          rw [hroot]
          rfl
        · rename_i root hroot
          rw [hroot]
          simp only [readBody?, Option.bind_some]
          split
          · rename_i hlisted
            rw [hlisted]
            rfl
          · rename_i listed hlisted
            rw [hlisted]
            split
            · rename_i hitems
              simp [hitems]
            · rename_i items hitems
              simp [hitems, Option.bind_assoc]
      · rfl

theorem form_executeRecord (merge : Bool) (e : Execute) :
    form merge (actionRecord (.execute e)) =
      .obj [("type", .str "execute"), ("retrieve", (e.retrieve.map retrieveRecord).getD .null),
        ("action", .obj e.action.members), ("then", form merge (chainRecord e.chain)),
        ("span", spanRecord e.span)] := by
  rw [actionRecord, Json.form_obj merge (by simp)]
  simp [Function.comp_def]

theorem readExecute?_executeRecord (merge : Bool) (e : Execute) :
    readExecute? (form merge (actionRecord (.execute e))) = given (Action.execute e).parts.readable e := by
  rw [form_executeRecord]
  simp [readExecute?, List.lookup_cons, Action.parts]

theorem form_compiledRecord (merge : Bool) (actions : List Action) (bodySpan : Span) (chain : List Link) (span : Span) :
    form merge (actionRecord (.compiled actions bodySpan chain span)) =
      .obj [("type", .str "get_compiled"), ("root", bodyRecord ((actionRecords actions).map (form merge)) bodySpan),
        ("then", form merge (chainRecord chain)), ("span", spanRecord span)] := by
  rw [actionRecord, Json.form_obj merge (by simp)]
  simp

theorem readBody?_bodyRecord {c : Bool} {actions : List Action} {items : List Json}
    (h : items.mapM readAction? = given c actions) (span : Span) :
    readBody? (bodyRecord items span) = given (c && fitsSpan span) ⟨actions, span⟩ := by
  simp [readBody?, bodyRecord, List.lookup_cons, h]

mutual

theorem readAction?_actionRecord (merge : Bool) : ∀ a : Action,
    readAction? (form merge (actionRecord a)) = given a.parts.readable a
  | .execute e => by
    have hexecute := readExecute?_executeRecord merge e
    rw [form_executeRecord] at hexecute ⊢
    rw [readAction?_eq]
    simp [hexecute]
  | .compiled actions bodySpan chain span => by
    have hbody := readBody?_bodyRecord (readActions?_actionRecords merge actions) bodySpan
    rw [form_compiledRecord, readAction?_eq]
    simp [List.lookup_cons, hbody, Action.parts, Bool.and_assoc]

theorem readActions?_actionRecords (merge : Bool) : ∀ actions : List Action,
    ((actionRecords actions).map (form merge)).mapM readAction? = given (actionsParts actions).readable actions
  | [] => by
    simp [actionRecords, actionsParts]
  | a :: rest => by
    rw [actionRecords, List.map_cons, List.mapM_cons, readAction?_actionRecord merge a,
      readActions?_actionRecords merge rest]
    simp [actionsParts]

end

/-! ## Programs -/

def Declaration.parts : Declaration → Parts
  | .entry e => { spans := [e.span] }
  | .define a => actionsParts a.body.actions ++ ({ spans := [a.body.span] } ++ { spans := [a.span] })

theorem readDeclaration?_declarationRecord (merge : Bool) (d : Declaration) :
    readDeclaration? (form merge (declarationRecord d)) = given d.parts.readable d := by
  cases d with
  | entry e =>
    rw [declarationRecord, Json.form_obj merge (by simp)]
    simp [readDeclaration?, List.lookup_cons, Declaration.parts]
  | define a =>
    have hbody := readBody?_bodyRecord (readActions?_actionRecords merge a.body.actions) a.body.span
    rw [declarationRecord, Json.form_obj merge (by simp)]
    simp [readDeclaration?, List.lookup_cons, hbody, Declaration.parts, Bool.and_assoc]

/-- All spans, selectors and links of a program, those of nested blocks included. -/
def parts (p : Program) : Parts := p.declarations.foldr (fun d rest => d.parts ++ rest) {}

theorem readable_parts (p : Program) : p.parts.readable = p.declarations.all (·.parts.readable) := by
  unfold parts
  induction p.declarations with
  | nil => rfl
  | cons d ds ih => simp [ih]

theorem ofRecord?_form (merge : Bool) (p : Program) : ofRecord? (form merge p.toRecord) = given p.parts.readable p := by
  have hitems : ((p.declarations.map declarationRecord).map (form merge)).mapM readDeclaration? =
      given p.parts.readable p.declarations := by
    rw [List.map_map, readable_parts]
    exact mapM_given (readDeclaration?_declarationRecord merge) p.declarations
  have hrecord : form merge p.toRecord =
      .obj [("declarations", .arr ((p.declarations.map declarationRecord).map (form merge)))] := by
    rw [toRecord, Json.form_obj merge (by simp), List.map_singleton, Json.form_arr]
  have hread : ∀ items : List Json, ofRecord? (.obj [("declarations", .arr items)]) =
      (items.mapM readDeclaration?).bind fun declarations => some ⟨declarations⟩ := fun _ => rfl
  rw [hrecord, hread, hitems, given_bind_some]

/-- **A record is read back as the program it was written from, or not at all.** Where all numbers have 64 bits, the one
reason to refuse it is a link that runs an action, in any chain of the program. This holds of the record with all its
members and of the value that it stands for. -/
theorem record_reads_back_unless_action_chained (p : Program) :
    ofRecord? p.toRecord = (if p.parts.fits && p.parts.storesOnly then some p else none) ∧
      ofRecord? p.toRecord.merged = if p.parts.fits && p.parts.storesOnly then some p else none :=
  ⟨ofRecord?_form false p, ofRecord?_form true p⟩

/-- A program whose only chain has this step and comes after a block. -/
def chaining (step : Step) : Program :=
  ⟨[.define ⟨"aa", none, ⟨[.compiled [] .origin [⟨step, .origin⟩] .origin], .origin⟩, .origin⟩]⟩

example : (chaining (.store ⟨"k", true, false, .origin⟩)).parts.readable = true ∧
    (chaining (.action (.say none .origin))).parts.readable = false := by
  decide

end Program
end AliasLang
