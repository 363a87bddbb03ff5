import CommodoreBasic.Proofs.Grammar.Simulation

/-!
# The parser accepts the grammar

The parser reads what the automaton does (`parse_eq_run`), and the automaton takes one lexeme after
the other and keeps a stack of open parentheses. `Consumed` is its invariant: in every state, the
lexemes of the line so far have the derivation that the state stands for. A step keeps it
(`Consumed.step`), so what a run returns is derived (`derives_of_run`).

In the other direction a derivation drives the automaton: `Leads` says that lexemes take one state
to another, and each nonterminal of the grammar leads from where it may begin to where it ends. The
main statement is `parse_eq_ok_iff_derives`.
-/

namespace CommodoreBasic

namespace Parse

/-! ## What has been read -/

/-- The lexemes of a line up to where a statement has to begin: its label, the statements before a
colon, and the items before each parenthesis that is open. -/
inductive Awaits : Pending → List Lexeme → Prop
  | label {l : Lexeme} {n : Nat} (label : IsLabel l.token n) : Awaits ⟨n, l.position, [], []⟩ [l]
  | colon {n : Nat} {p : Position} {ss : List Statement} {ls ms : List Lexeme} {s : Statement}
      {l : Lexeme} (before : Awaits ⟨n, p, ss, []⟩ ls) (statement : DerivesStatement ms s)
      (isColon : l.token = .colon) : Awaits ⟨n, p, s :: ss, []⟩ (ls ++ ms ++ [l])
  | parenthesis {n : Nat} {p : Position} {ss : List Statement} {frames : List Frame}
      {ls ms : List Lexeme} {items : List Item} {start : Position} {l : Lexeme}
      (before : Awaits ⟨n, p, ss, frames⟩ ls) (read : DerivesItems ms items.reverse)
      (first : (ms ++ [l]).head?.map Lexeme.position = some start)
      (opens : l.token = .punctuation '(') :
      Awaits ⟨n, p, ss, ⟨start, items, l.position⟩ :: frames⟩ (ls ++ (ms ++ [l]))

/-- The lexemes of the line that a state has read. -/
inductive Consumed : State → List Lexeme → Prop
  | between : Consumed .between []
  | labelled {l : Lexeme} {n : Nat} (label : IsLabel l.token n) :
      Consumed (.labelled n l.position) [l]
  | remarked {l m : Lexeme} {n : Nat} {text : Text} (label : IsLabel l.token n)
      (remark : m.token = .comment text) : Consumed (.remarked n l.position text) [l, m]
  | opening {line : Pending} {ls : List Lexeme} (before : Awaits line ls) :
      Consumed (.opening line) ls
  | within {line : Pending} {ls ms ks : List Lexeme} {start : Position} {last : Item}
      {items : List Item} (before : Awaits line ls) (read : DerivesItems ms items.reverse)
      (latest : DerivesItems ks [last])
      (first : (ms ++ ks).head?.map Lexeme.position = some start) :
      Consumed (.within line start last items) (ls ++ (ms ++ ks))

theorem DerivesItems.snoc {ms ks : List Lexeme} {items : List Item} {last : Item}
    (read : DerivesItems ms items.reverse) (latest : DerivesItems ks [last]) :
    DerivesItems (ms ++ ks) (last :: items).reverse := by
  rw [List.reverse_cons]
  exact read.append latest

/-- The lexemes of a statement that has at least one item, as a statement. -/
theorem DerivesStatement.of_first {ls : List Lexeme} {start : Position} {items : List Item}
    (read : DerivesItems ls items) (first : ls.head?.map Lexeme.position = some start) :
    DerivesStatement ls ⟨start, items⟩ := by
  cases ls with
  | nil => simp at first
  | cons l ls =>
    obtain rfl : l.position = start := by simpa using first
    exact .items read

/-- Reading the beginning of an item keeps the invariant. -/
theorem Consumed.item {line : Pending} {ls ms : List Lexeme} {start : Position}
    {items : List Item} {l : Lexeme} {next : State} (before : Awaits line ls)
    (read : DerivesItems ms items.reverse)
    (first : (ms ++ [l]).head?.map Lexeme.position = some start)
    (h : item? line start items l = some (.ok next)) : Consumed next (ls ++ (ms ++ [l])) := by
  have alone : ∀ a, IsAtom l.token a →
      Consumed (.within line start (.atom l.position a none) items) (ls ++ (ms ++ [l])) := by
    intro a isAtom
    refine .within before read ?_ first
    exact .atom isAtom .none .nil
  unfold item? at h
  split at h
  · next k token =>
    cases h
    exact alone _ (token ▸ .keyword k)
  · next digits token =>
    split at h
    · next value reads =>
      cases h
      exact alone _ (token ▸ .number reads)
    · simp at h
  · next name token =>
    cases h
    exact alone _ (token ▸ .name name)
  · next body token =>
    cases h
    exact alone _ (token ▸ .string body)
  · next token =>
    cases h
    exact .opening (.parenthesis before read first token)
  · simp at h

/-- So does reading what comes after an item. -/
theorem Consumed.afterItem {line : Pending} {ls ms ks : List Lexeme} {start : Position}
    {last : Item} {items : List Item} {l : Lexeme} {next : State} (before : Awaits line ls)
    (read : DerivesItems ms items.reverse) (latest : DerivesItems ks [last])
    (first : (ms ++ ks).head?.map Lexeme.position = some start)
    (h : Parse.afterItem line start last items l.token = .ok next) :
    Consumed next (ls ++ (ms ++ ks) ++ [l]) := by
  obtain ⟨f, inside, split⟩ : ∃ f inside, ms ++ ks = f :: inside := by
    apply List.exists_cons_of_ne_nil
    intro none
    simp [none] at first
  have same : (ms ++ (ks ++ [l])).head? = (ms ++ ks).head? := by
    rw [← List.append_assoc, split]
    rfl
  unfold Parse.afterItem at h
  split at h
  · -- a mark goes to the last item
    next c token free =>
    cases h
    have marked := Consumed.within before read (latest.trail free token) (same ▸ first)
    simpa only [List.append_assoc] using marked
  · -- the statement in parentheses becomes an item of the one around it
    next frame frames token stack =>
    cases h
    obtain ⟨n, p, ss, _⟩ := line
    obtain rfl : _ = frame :: frames := stack
    cases before with
    | @parenthesis _ _ _ _ ls' ms' outer start' opening before' read' first' opens =>
      have statement := DerivesItems.snoc read latest
      rw [split] at statement first
      obtain rfl : f.position = start := by simpa using first
      have group := DerivesItems.group opens statement token .none .nil
      have closed := Consumed.within before' read' group (by
        cases ms' with
        | nil => simpa using first'
        | cons m ms' => simpa using first')
      rw [split]
      simpa only [List.append_assoc, List.cons_append, List.nil_append, List.append_nil]
        using closed
  · contradiction
  · -- a colon completes a statement
    next token stack =>
    cases h
    obtain ⟨n, p, ss, _⟩ := line
    obtain rfl : _ = [] := stack
    have statement := DerivesStatement.of_first (DerivesItems.snoc read latest) first
    exact .opening (.colon before statement token)
  · contradiction

theorem Consumed.beginStatement {line : Pending} {ls : List Lexeme} {l : Lexeme} {next : State}
    (before : Awaits line ls) (h : Parse.beginStatement line l = .ok next) :
    Consumed next (ls ++ [l]) := by
  unfold Parse.beginStatement at h
  cases begun : item? line l.position [] l with
  | none => simp [begun] at h
  | some answer =>
    rw [begun, Option.getD_some] at h
    have none : DerivesItems [] ([] : List Item).reverse := .nil
    exact Consumed.item before none rfl (begun.trans (congrArg some h))

/-- A step keeps the invariant. -/
theorem Consumed.step {state next : State} {ls : List Lexeme} {l : Lexeme}
    (read : Consumed state ls) (h : state.step l = .ok next) : Consumed next (ls ++ [l]) := by
  cases read with
  | between =>
    simp only [State.step] at h
    split at h
    · next digits token =>
      split at h
      · next n found =>
        cases h
        exact .labelled (token ▸ (label?_eq_some_iff digits n).mp found)
      · contradiction
    · contradiction
  | labelled label =>
    simp only [State.step] at h
    split at h
    · next text token =>
      cases h
      exact .remarked label token
    · exact Consumed.beginStatement (.label label) h
  | remarked label remark => contradiction
  | opening before => exact Consumed.beginStatement before h
  | @within line ls ms ks start last items before read latest first =>
    simp only [State.step] at h
    cases begun : item? line start (last :: items) l with
    | none =>
      simp only [begun, Option.getD_none] at h
      exact Consumed.afterItem before read latest first h
    | some answer =>
      simp only [begun, Option.getD_some] at h
      have first' : ((ms ++ ks) ++ [l]).head?.map Lexeme.position = some start := by
        cases split : ms ++ ks with
        | nil => simp [split] at first
        | cons f inside => simpa [split] using first
      rw [List.append_assoc]
      exact Consumed.item before (DerivesItems.snoc read latest) first'
        (begun.trans (congrArg some h))

theorem DerivesStatements.snoc {ls ms : List Lexeme} {ss : List Statement} {s : Statement}
    {l : Lexeme} (before : DerivesStatements ls ss) (isColon : l.token = .colon)
    (statement : DerivesStatement ms s) : DerivesStatements (ls ++ l :: ms) (ss ++ [s]) := by
  induction before with
  | one first => exact .cons first isColon (.one statement)
  | cons first isColon' _ ih =>
    have joined := DerivesStatements.cons first isColon' ih
    simpa only [List.append_assoc, List.cons_append] using joined

/-- A line that waits for a statement, and for no parenthesis, is complete with one. -/
theorem Awaits.line {n : Nat} {p : Position} {ss : List Statement} {ls : List Lexeme}
    (before : Awaits ⟨n, p, ss, []⟩ ls) {ms : List Lexeme} {s : Statement}
    (statement : DerivesStatement ms s) :
    DerivesLine (ls ++ ms) ⟨n, p, .statements (s :: ss).reverse⟩ := by
  -- the label comes first in what has been read, the latest statement last
  suffices labelled : ∃ l ks, ls = l :: ks ∧ IsLabel l.token n ∧ p = l.position ∧
      ∀ ms s, DerivesStatement ms s → DerivesStatements (ks ++ ms) (s :: ss).reverse by
    obtain ⟨l, ks, rfl, label, rfl, statements⟩ := labelled
    exact .statements label (statements ms s statement)
  clear statement
  generalize pending : Pending.mk n p ss [] = line at before
  induction before generalizing ss with
  | @label l n label =>
    cases pending
    exact ⟨l, [], rfl, label, rfl, fun ms s statement => .one statement⟩
  | @colon _ _ _ _ js _ colon _ earlier isColon ih =>
    cases pending
    obtain ⟨l, ks, rfl, label, rfl, statements⟩ := ih rfl
    refine ⟨l, ks ++ js ++ [colon], by simp, label, rfl, ?_⟩
    intro ms s statement
    rw [List.reverse_cons]
    have joined := (statements js _ earlier).snoc isColon statement
    simpa only [List.append_assoc, List.cons_append, List.nil_append] using joined
  | parenthesis => cases pending

/-- What a line leaves when it ends has been derived from all of it. -/
theorem Consumed.finish {state : State} {ls : List Lexeme} {lines : List Line}
    (read : Consumed state ls) (h : state.finish = .ok lines) :
    ls = [] ∧ lines = [] ∨ ∃ line, lines = [line] ∧ DerivesLine ls line := by
  cases read with
  | between =>
    cases h
    exact Or.inl ⟨rfl, rfl⟩
  | labelled => contradiction
  | remarked label remark =>
    cases h
    exact Or.inr ⟨_, rfl, .comment label remark⟩
  | opening => contradiction
  | @within line ls ms ks start last items before read latest first =>
    simp only [State.finish] at h
    split at h
    · next stack =>
      cases h
      obtain ⟨n, p, ss, _⟩ := line
      obtain rfl : _ = [] := stack
      have statement := DerivesStatement.of_first (DerivesItems.snoc read latest) first
      exact Or.inr ⟨_, rfl, before.line statement⟩
    · contradiction

theorem beforeEnd_cons_of_ne {l : Lexeme} (other : l.token ≠ .endOfInput) (ls : List Lexeme) :
    beforeEnd (l :: ls) = l :: beforeEnd ls := by
  simp [beforeEnd, other]

theorem beforeEnd_cons_of_eq {l : Lexeme} (eof : l.token = .endOfInput) (ls : List Lexeme) :
    beforeEnd (l :: ls) = [] := by
  simp [beforeEnd, eof]

/-- An end of input that comes after other lexemes ends them. -/
theorem beforeEnd_append_cons {ls : List Lexeme} (plain : ∀ l ∈ ls, l.token ≠ .endOfInput)
    {z : Lexeme} (eof : z.token = .endOfInput) (more : List Lexeme) :
    beforeEnd (ls ++ z :: more) = ls := by
  induction ls with
  | nil => exact beforeEnd_cons_of_eq eof more
  | cons l ls ih =>
    rw [List.cons_append, beforeEnd_cons_of_ne (plain l List.mem_cons_self),
      ih fun m member => plain m (List.mem_cons_of_mem l member)]

theorem eq_ok_of_blame {α : Type} {position : Position} {found : Token}
    {result : Except Expectation α} {a : α} (h : blame position found result = .ok a) :
    result = .ok a := by
  cases result with
  | error e => contradiction
  | ok b =>
    cases h
    rfl

theorem Consumed.derives {state : State} {ls : List Lexeme} {lines : List Line}
    (read : Consumed state ls) (h : state.finish = .ok lines) : DerivesProgram ls lines := by
  rcases read.finish h with ⟨rfl, rfl⟩ | ⟨line, rfl, derived⟩
  · exact .nil
  · exact .last derived

/-- What a run returns is derived from what has been read before it and what it reads. -/
theorem derives_of_run {stop : Position} {state : State} {read ls : List Lexeme}
    {lines : List Line} (before : Consumed state read) (h : run stop state ls = .ok lines) :
    DerivesProgram (read ++ beforeEnd ls) lines := by
  induction ls generalizing state read lines with
  | nil =>
    rw [show beforeEnd [] = [] from rfl, List.append_nil]
    exact before.derives (eq_ok_of_blame h)
  | cons l ls ih =>
    rw [run] at h
    split at h
    · next eof =>
      rw [beforeEnd_cons_of_eq eof, List.append_nil]
      exact before.derives (eq_ok_of_blame h)
    · next ends =>
      rw [beforeEnd_cons_of_ne (by simp [ends])]
      split at h
      · next first finished =>
        cases rest : run stop .between ls with
        | error e => simp [rest, Except.map] at h
        | ok later =>
          obtain rfl : first ++ later = lines := by simpa [rest, Except.map] using h
          have derived : DerivesProgram (beforeEnd ls) later := ih .between rest
          rcases before.finish (eq_ok_of_blame finished) with ⟨rfl, rfl⟩ | ⟨line, rfl, content⟩
          · exact .endOfLine ends derived
          · exact .line content ends derived
      · contradiction
    · next eof _ =>
      rw [beforeEnd_cons_of_ne eof]
      split at h
      · next next stepped =>
        have later := ih (before.step (eq_ok_of_blame stepped)) h
        rwa [List.append_assoc] at later
      · contradiction

/-! ## What a derivation makes the automaton do -/

/-- The lexemes take one state to the other, whatever comes after them. -/
def Leads (state : State) (ls : List Lexeme) (next : State) : Prop :=
  ∀ stop rest, run stop state (ls ++ rest) = run stop next rest

theorem Leads.refl (state : State) : Leads state [] state := fun _ _ => rfl

theorem Leads.trans {a b c : State} {ls ms : List Lexeme} (first : Leads a ls b)
    (second : Leads b ms c) : Leads a (ls ++ ms) c := by
  intro stop rest
  rw [List.append_assoc, first, second]

theorem Leads.cons {a b c : State} {l : Lexeme} {ls : List Lexeme} (first : Leads a [l] b)
    (second : Leads b ls c) : Leads a (l :: ls) c := first.trans second

theorem Leads.step {state next : State} {l : Lexeme} (h : state.step l = .ok next)
    (eof : l.token ≠ .endOfInput) (ends : l.token ≠ .endOfLine) : Leads state [l] next := by
  intro stop rest
  rw [List.singleton_append, run]
  split
  · contradiction
  · contradiction
  · rw [h]
    rfl

/-- In the state, the lexeme is read as the beginning of an item if it can be one: of the item
after `items` in a statement that began at `start`. -/
def Ready (state : State) (line : Pending) (start : Position) (items : List Item) (l : Lexeme) :
    Prop :=
  ∀ next, item? line start items l = some (.ok next) → state.step l = .ok next

theorem ready_opening (line : Pending) (l : Lexeme) :
    Ready (.opening line) line l.position [] l := by
  intro next begun
  show beginStatement line l = _
  rw [beginStatement, begun]
  rfl

theorem ready_labelled (n : Nat) (p : Position) (l : Lexeme) :
    Ready (.labelled n p) ⟨n, p, [], []⟩ l.position [] l := by
  intro next begun
  have statement : beginStatement ⟨n, p, [], []⟩ l = .ok next := by
    rw [beginStatement, begun]
    rfl
  simp only [State.step]
  split
  · next token => simp [item?, token] at begun
  · exact statement

theorem ready_within (line : Pending) (start : Position) (last : Item) (items : List Item)
    (l : Lexeme) : Ready (.within line start last items) line start (last :: items) l := by
  intro next begun
  show (item? line start (last :: items) l).getD _ = _
  rw [begun]
  rfl

/-- An item takes the mark after it. -/
theorem leads_mark (line : Pending) (start : Position) {i : Item} (items : List Item)
    {marks : List Lexeme} {mark : Option Char} (h : DerivesMark marks mark)
    (free : i.trailing = none) :
    Leads (.within line start i items) marks
      (.within line start (mark.elim i fun c => i.trail c) items) := by
  cases h with
  | none => exact .refl _
  | @some l c token =>
    refine Leads.step ?_ (by simp [token]) (by simp [token])
    show (item? line start (i :: items) l).getD (afterItem line start i items l.token) = _
    simp [item?, token, afterItem, free]

/-- From where an item may begin, the lexemes lead to after the last of the new items. -/
def LeadsThrough (ls : List Lexeme) (new : List Item) : Prop :=
  ∀ l ks state line start items, ls = l :: ks → Ready state line start items l →
    ∃ last before, Leads state ls (.within line start last before) ∧
      (last :: before).reverse = items.reverse ++ new

/-- Once an item has been read, the later ones go on from there. -/
theorem LeadsThrough.after {ls : List Lexeme} {new : List Item} (h : LeadsThrough ls new)
    (derived : DerivesItems ls new) (line : Pending) (start : Position) (i : Item)
    (items : List Item) :
    ∃ last before, Leads (.within line start i items) ls (.within line start last before) ∧
      (last :: before).reverse = items.reverse ++ i :: new := by
  cases ls with
  | nil =>
    obtain rfl := derived.nil_iff.mp rfl
    exact ⟨i, items, .refl _, by simp⟩
  | cons l ks =>
    have ready := ready_within line start i items l
    obtain ⟨last, before, leads, same⟩ := h l ks _ line start _ rfl ready
    exact ⟨last, before, leads, by simpa using same⟩

theorem DerivesItems.leads {ls : List Lexeme} {new : List Item} (h : DerivesItems ls new) :
    LeadsThrough ls new := by
  induction h with
  | nil =>
    intro l ks state line start items split
    contradiction
  | @atom l a marks ls mark new head trail later ih =>
    intro l' ks state line start items split ready
    obtain ⟨rfl, -⟩ := List.cons.inj split
    have first : Leads state [l] (.within line start (.atom l.position a none) items) :=
      .step (ready _ (item?_of_isAtom head line start items)) head.ne.1 head.ne.2
    have marked := first.cons (leads_mark line start items trail rfl)
    have item : mark.elim (.atom l.position a none) (fun c => (Item.atom l.position a none).trail c)
        = Item.atom l.position a mark := by
      cases mark <;> rfl
    rw [item] at marked
    obtain ⟨last, before, leads, same⟩ := ih.after later line start (.atom l.position a mark) items
    exact ⟨last, before, marked.trans leads, same⟩
  | @group opening f closing inside marks ls inner mark new opens statement closes trail later
      inner_ih ih =>
    intro l' ks state line start items split ready
    obtain ⟨rfl, -⟩ := List.cons.inj split
    -- the automaton puts the statement aside until the parenthesis is closed
    let frame : Frame := ⟨start, items, opening.position⟩
    let deeper : Pending := { line with frames := frame :: line.frames }
    have first : Leads state [opening] (.opening deeper) := by
      refine .step (ready _ ?_) (by simp [opens]) (by simp [opens])
      simp [item?, opens, deeper, frame]
    obtain ⟨last, before, through, content⟩ :=
      inner_ih f inside _ deeper _ _ rfl (ready_opening deeper f)
    have close : Leads (.within deeper f.position last before) [closing]
        (.within line start (.group opening.position f.position inner none) items) := by
      refine .step ?_ (by simp [closes]) (by simp [closes])
      show (item? deeper f.position (last :: before) closing).getD
        (afterItem deeper f.position last before closing.token) = _
      rw [show inner = (last :: before).reverse by simpa using content.symm]
      simp [item?, closes, afterItem, deeper, frame]
    have marked := (first.cons through).trans
      (close.cons (leads_mark line start items trail rfl))
    have item : mark.elim (.group opening.position f.position inner none)
        (fun c => (Item.group opening.position f.position inner none).trail c)
        = Item.group opening.position f.position inner mark := by
      cases mark <;> rfl
    rw [item] at marked
    obtain ⟨last', before', leads, same⟩ :=
      ih.after later line start (.group opening.position f.position inner mark) items
    refine ⟨last', before', ?_, same⟩
    have joined := marked.trans leads
    simpa only [List.cons_append, List.append_assoc] using joined

/-- A statement leads from where it may begin to after its last item. -/
theorem DerivesStatement.leads {ls : List Lexeme} {s : Statement} (h : DerivesStatement ls s) :
    ∃ l ks, ls = l :: ks ∧ ∀ state line, Ready state line l.position [] l →
      ∃ last before, Leads state ls (.within line s.position last before) ∧
        (last :: before).reverse = s.items := by
  cases h with
  | @items l ks items content =>
    refine ⟨l, ks, rfl, ?_⟩
    intro state line ready
    obtain ⟨last, before, leads, same⟩ := content.leads l ks state line _ [] rfl ready
    exact ⟨last, before, leads, by simpa using same⟩

/-- Statements lead from where the first may begin to where the line may end. -/
theorem DerivesStatements.leads {ls : List Lexeme} {ss : List Statement}
    (h : DerivesStatements ls ss) (n : Nat) (p : Position) :
    ∃ l ks, ls = l :: ks ∧ ∀ state done, Ready state ⟨n, p, done, []⟩ l.position [] l →
      ∃ final, Leads state ls final ∧
        final.finish = .ok [⟨n, p, .statements (done.reverse ++ ss)⟩] := by
  induction h with
  | one statement =>
    obtain ⟨l, ks, rfl, leads⟩ := statement.leads
    refine ⟨l, ks, rfl, ?_⟩
    intro state done ready
    obtain ⟨last, before, through, same⟩ := leads state _ ready
    exact ⟨_, through, by simp [State.finish, same]⟩
  | @cons _ ms colon s ss statement isColon _ ih =>
    obtain ⟨l, ks, rfl, leads⟩ := statement.leads
    obtain ⟨l', ks', rfl, later⟩ := ih
    refine ⟨l, ks ++ colon :: l' :: ks', rfl, ?_⟩
    intro state done ready
    obtain ⟨last, before, through, same⟩ := leads state _ ready
    have colonStep : Leads (.within ⟨n, p, done, []⟩ s.position last before) [colon]
        (.opening ⟨n, p, s :: done, []⟩) := by
      refine .step ?_ (by simp [isColon]) (by simp [isColon])
      show (item? _ s.position (last :: before) colon).getD
        (afterItem _ s.position last before colon.token) = _
      simp only [item?, isColon, afterItem, Option.getD_none, same]
    obtain ⟨final, rest, finished⟩ := later _ (s :: done) (ready_opening _ l')
    refine ⟨final, through.trans (colonStep.cons rest), ?_⟩
    simpa using finished

theorem IsLabel.leads {l : Lexeme} {n : Nat} (h : IsLabel l.token n) :
    Leads .between [l] (.labelled n l.position) := by
  generalize token : l.token = t at h
  cases h with
  | @digits digits nonempty plain word =>
    have label := (label?_eq_some_iff digits _).mpr (.digits nonempty plain word)
    refine .step ?_ (by simp [token]) (by simp [token])
    simp [State.step, token, label]

/-- A line leads from its beginning to where it has been read. -/
theorem DerivesLine.leads {ls : List Lexeme} {line : Line} (h : DerivesLine ls line) :
    ∃ final, Leads .between ls final ∧ final.finish = .ok [line] := by
  cases h with
  | @comment l m n text label remark =>
    refine ⟨.remarked n l.position text, label.leads.cons ?_, rfl⟩
    refine .step ?_ (by simp [remark]) (by simp [remark])
    simp [State.step, remark]
  | @statements l n ks ss label statements =>
    obtain ⟨l', ks', rfl, leads⟩ := statements.leads n l.position
    obtain ⟨final, through, finished⟩ := leads _ [] (ready_labelled n l.position l')
    exact ⟨final, label.leads.cons through, by simpa using finished⟩

/-- What ends the input: nothing, or an end of input with anything after it. -/
def EndsInput (rest : List Lexeme) : Prop := ∀ l, rest.head? = some l → l.token = .endOfInput

theorem run_of_endsInput {rest : List Lexeme} (ends : EndsInput rest) {state : State}
    {lines : List Line} (finished : state.finish = .ok lines) (stop : Position) :
    run stop state rest = .ok lines := by
  cases rest with
  | nil =>
    rw [run, finished]
    rfl
  | cons l rest =>
    rw [run_cons_of_endOfInput (ends l rfl), finished]
    rfl

theorem run_of_endOfLine {l : Lexeme} (isEnd : l.token = .endOfLine) {state : State}
    {lines later : List Line} {ls : List Lexeme} {stop : Position}
    (finished : state.finish = .ok lines) (read : run stop .between ls = .ok later) :
    run stop state (l :: ls) = .ok (lines ++ later) := by
  rw [run_cons_of_endOfLine isEnd, finished]
  show (run stop .between ls).map _ = _
  rw [read]
  rfl

/-- The lexemes of a program are read to its lines. -/
theorem DerivesProgram.run {ls : List Lexeme} {lines : List Line} (h : DerivesProgram ls lines)
    {rest : List Lexeme} (ends : EndsInput rest) (stop : Position) :
    run stop .between (ls ++ rest) = .ok lines := by
  induction h with
  | nil => exact run_of_endsInput ends rfl stop
  | endOfLine isEnd _ ih =>
    have finished : State.between.finish = .ok [] := rfl
    exact run_of_endOfLine isEnd finished ih
  | @line ls ms l line lines content isEnd _ ih =>
    obtain ⟨final, leads, finished⟩ := content.leads
    rw [List.append_assoc, leads]
    exact run_of_endOfLine isEnd finished ih
  | last content =>
    obtain ⟨final, leads, finished⟩ := content.leads
    rw [leads]
    exact run_of_endsInput ends finished stop

theorem beforeEnd_append (ls : List Lexeme) :
    ∃ rest, ls = beforeEnd ls ++ rest ∧ EndsInput rest := by
  refine ⟨ls.dropWhile fun l => l.token ≠ .endOfInput, List.takeWhile_append_dropWhile.symm, ?_⟩
  intro l first
  have stopped := List.head?_dropWhile_not (fun l : Lexeme => decide (l.token ≠ .endOfInput)) ls
  rw [first] at stopped
  simpa using stopped

/-- What is parsed is derived from the lexemes before the first end of input. -/
theorem derives_of_parse {ls : List Lexeme} {lines : List Line} (h : parse ls = .ok lines) :
    DerivesProgram (beforeEnd ls) lines := by
  rw [parse_eq_run] at h
  exact derives_of_run .between h

/-- What is derived from lexemes is parsed, whatever comes after their end. -/
theorem DerivesProgram.parse {ls : List Lexeme} {lines : List Line} (h : DerivesProgram ls lines)
    {rest : List Lexeme} (ends : EndsInput rest) : parse (ls ++ rest) = .ok lines := by
  rw [parse_eq_run]
  exact h.run ends _

/-- Reading succeeds on exactly the lexemes that the grammar derives, and with the lines that they
derive. Only those before the first end of input count. -/
theorem parse_eq_ok_iff_derives (ls : List Lexeme) (lines : List Line) :
    parse ls = .ok lines ↔ DerivesProgram (beforeEnd ls) lines := by
  constructor
  · exact derives_of_parse
  · intro derived
    obtain ⟨rest, whole, ends⟩ := beforeEnd_append ls
    have read := derived.parse ends
    rwa [← whole] at read

end Parse

end CommodoreBasic
