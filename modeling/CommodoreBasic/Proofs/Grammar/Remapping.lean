import CommodoreBasic.Proofs.Grammar.Simulation

/-!
# Reading does not depend on places and texts

The parser copies positions, and the texts of names, strings and remarks, into the tree and into
its errors. It never looks at them. `remap` moves every position by one map and changes every such
text by another, and what is changed in the lexemes is changed in what they are read to:
`State.step_remap` for one lexeme, `run_remap` for all of them and `parse_remap` for a program.
-/

namespace CommodoreBasic

/-- The token with another text, if it is a remark, a string or a name. A number stays, for its
digits say what it is. -/
def Token.mapText (g : Text → Text) : Token → Token
  | comment s => comment (g s)
  | string s => string (g s)
  | identifier s => identifier (g s)
  | token => token

theorem Token.mapText_id (token : Token) : token.mapText id = token := by
  cases token <;> rfl

/-- The item of one token with another text, if it is a string or a name. -/
def Atom.mapText (g : Text → Text) : Atom → Atom
  | name s => name (g s)
  | string s => string (g s)
  | a => a

theorem Atom.mapText_id (a : Atom) : a.mapText id = a := by
  cases a <;> rfl

mutual

/-- An item with its positions moved and its texts changed. -/
def Item.remap (f : Position → Position) (g : Text → Text) : Item → Item
  | .atom p a trailing => .atom (f p) (a.mapText g) trailing
  | .group p start inner trailing => .group (f p) (f start) (Item.listRemap f g inner) trailing

/-- Items with their positions moved and their texts changed. -/
def Item.listRemap (f : Position → Position) (g : Text → Text) : List Item → List Item
  | [] => []
  | i :: is => i.remap f g :: Item.listRemap f g is

end

section

variable (f : Position → Position) (g : Text → Text)

namespace Item

theorem listRemap_eq_map (is : List Item) : listRemap f g is = is.map (remap f g) := by
  induction is with
  | nil => rfl
  | cons i is ih => rw [listRemap, ih, List.map_cons]

@[simp] theorem remap_atom (p : Position) (a : Atom) (trailing : Option Char) :
    (atom p a trailing).remap f g = atom (f p) (a.mapText g) trailing := by
  rw [remap]

@[simp] theorem remap_group (p start : Position) (inner : List Item) (trailing : Option Char) :
    (group p start inner trailing).remap f g =
      group (f p) (f start) (inner.map (remap f g)) trailing := by
  rw [remap, listRemap_eq_map]

@[simp] theorem trailing_remap (i : Item) : (i.remap f g).trailing = i.trailing := by
  cases i <;> simp [trailing]

@[simp] theorem trail_remap (c : Char) (i : Item) :
    (i.remap f g).trail c = (i.trail c).remap f g := by
  cases i <;> simp [trail]

end Item

def Statement.remap (s : Statement) : Statement := ⟨f s.position, s.items.map (Item.remap f g)⟩

def Body.remap : Body → Body
  | .comment text => .comment (g text)
  | .statements ss => .statements (ss.map (Statement.remap f g))

/-- A line with its positions moved and its texts changed. -/
def Line.remap (line : Line) : Line := ⟨line.label, f line.position, line.body.remap f g⟩

def Lexeme.remap (l : Lexeme) : Lexeme := ⟨l.token.mapText g, f l.position, l.width⟩

/-- An error about the changed lexeme. -/
def GrammarError.remap (e : GrammarError) : GrammarError :=
  ⟨f e.position, e.expected, e.found.mapText g⟩

theorem Token.mapText_eq_endOfInput {token : Token} :
    token.mapText g = .endOfInput ↔ token = .endOfInput := by
  cases token <;> simp [mapText]

theorem Token.mapText_eq_endOfLine {token : Token} :
    token.mapText g = .endOfLine ↔ token = .endOfLine := by
  cases token <;> simp [mapText]

end

namespace Parse

section

variable (f : Position → Position) (g : Text → Text)

def Frame.remap (frame : Frame) : Frame :=
  ⟨f frame.start, frame.items.map (Item.remap f g), f frame.parenthesis⟩

def Pending.remap (line : Pending) : Pending :=
  ⟨line.label, f line.position, line.statements.map (Statement.remap f g),
    line.frames.map (Frame.remap f g)⟩

/-- A state of the automaton with the positions in it moved and the texts in it changed. -/
def State.remap : State → State
  | between => between
  | labelled label position => labelled label (f position)
  | remarked label position text => remarked label (f position) (g text)
  | opening line => opening (line.remap f g)
  | within line start last before =>
    within (line.remap f g) (f start) (last.remap f g) (before.map (Item.remap f g))

/-! ## Steps -/

theorem item?_remap (line : Pending) (start : Position) (before : List Item) (l : Lexeme) :
    item? (line.remap f g) (f start) (before.map (Item.remap f g)) (l.remap f g) =
      (item? line start before l).map (Except.map (State.remap f g)) := by
  obtain ⟨token, position, width⟩ := l
  cases token with
  | number digits =>
    simp only [item?, Lexeme.remap, Token.mapText]
    cases Binary64.ofText digits <;> simp [Except.map, State.remap, Atom.mapText]
  | punctuation mark =>
    -- only the parenthesis that opens begins an item
    by_cases opens : mark = '('
    · subst opens
      simp [item?, Lexeme.remap, Token.mapText, Except.map, State.remap, Pending.remap, Frame.remap]
    · simp [item?, Lexeme.remap, Token.mapText, opens]
  | _ => simp [item?, Lexeme.remap, Token.mapText, Except.map, State.remap, Atom.mapText]

/-- What comes after an item is told from the kind of a token, not from its text. -/
theorem afterItem_mapText (line : Pending) (start : Position) (last : Item) (before : List Item)
    (token : Token) :
    afterItem line start last before (token.mapText g) =
      afterItem line start last before token := by
  unfold afterItem
  cases token with
  | comment | string | identifier =>
    simp only [Token.mapText]
    cases line.frames <;> rfl
  | _ => rfl

theorem afterItem_remap (line : Pending) (start : Position) (last : Item) (before : List Item)
    (token : Token) :
    afterItem (line.remap f g) (f start) (last.remap f g) (before.map (Item.remap f g))
        (token.mapText g) =
      (afterItem line start last before token).map (State.remap f g) := by
  rw [afterItem_mapText]
  obtain ⟨label, position, statements, frames⟩ := line
  unfold afterItem
  simp only [Pending.remap, Item.trailing_remap]
  cases frames with
  | nil => split <;> simp_all [Except.map, State.remap, Pending.remap, Statement.remap]
  | cons frame frames =>
    split
    · simp_all [Except.map, State.remap, Pending.remap]
    · next same =>
      -- the statement in parentheses becomes an item of the one around it
      obtain ⟨rfl, rfl⟩ := List.cons.inj same
      simp_all [Except.map, State.remap, Pending.remap, Frame.remap]
    · simp_all [Except.map]
    · simp_all
    · simp_all

theorem beginStatement_remap (line : Pending) (l : Lexeme) :
    beginStatement (line.remap f g) (l.remap f g) =
      (beginStatement line l).map (State.remap f g) := by
  have begun := item?_remap f g line l.position [] l
  unfold beginStatement
  rw [List.map_nil] at begun
  show (item? (line.remap f g) (f l.position) [] (l.remap f g)).getD _ = _
  rw [begun]
  cases item? line l.position [] l <;> rfl

/-- A step commutes with changing what it reads. -/
theorem State.step_remap (state : State) (l : Lexeme) :
    (state.remap f g).step (l.remap f g) = (state.step l).map (State.remap f g) := by
  cases state with
  | between =>
    obtain ⟨token, position, width⟩ := l
    cases token with
    | number digits =>
      show (State.between.step ⟨.number digits, f position, width⟩) = _
      simp only [State.step]
      cases label? digits <;> rfl
    | _ => rfl
  | labelled label position =>
    have begun := beginStatement_remap f g ⟨label, position, [], []⟩ l
    obtain ⟨token, place, width⟩ := l
    cases token with
    | comment text => rfl
    | _ => exact begun
  | remarked label position text => rfl
  | opening line => exact beginStatement_remap f g line l
  | within line start last before =>
    have begun := item?_remap f g line start (last :: before) l
    show (item? (line.remap f g) (f start) ((last :: before).map (Item.remap f g))
      (l.remap f g)).getD (afterItem (line.remap f g) (f start) (last.remap f g)
        (before.map (Item.remap f g)) (l.token.mapText g)) = _
    rw [begun, afterItem_remap]
    show _ = ((item? line start (last :: before) l).getD _).map _
    cases item? line start (last :: before) l <;> rfl

theorem State.finish_remap (state : State) :
    (state.remap f g).finish = state.finish.map (List.map (Line.remap f g)) := by
  cases state with
  | within line start last before =>
    obtain ⟨label, position, statements, frames⟩ := line
    cases frames with
    | nil =>
      simp [State.finish, State.remap, Pending.remap, Except.map, Line.remap, Body.remap,
        Statement.remap]
    | cons frame frames => rfl
  | _ => rfl

theorem blame_finish_remap (p : Position) (found : Token) (state : State) :
    blame (f p) (found.mapText g) (state.remap f g).finish =
      ((blame p found state.finish).map (List.map (Line.remap f g))).mapError
        (GrammarError.remap f g) := by
  rw [State.finish_remap]
  cases state.finish <;> rfl

/-! ## Runs -/

/-- The changed lexemes are read to the changed lines, or to the changed error. -/
theorem run_remap (stop : Position) (state : State) (ls : List Lexeme) :
    run (f stop) (state.remap f g) (ls.map (Lexeme.remap f g)) =
      ((run stop state ls).map (List.map (Line.remap f g))).mapError (GrammarError.remap f g) := by
  induction ls generalizing state with
  | nil => exact blame_finish_remap f g stop .endOfInput state
  | cons l ls ih =>
    have token : (l.remap f g).token = l.token.mapText g := rfl
    have position : (l.remap f g).position = f l.position := rfl
    rw [List.map_cons]
    by_cases eof : l.token = .endOfInput
    · have eof' : (l.remap f g).token = .endOfInput := (Token.mapText_eq_endOfInput g).mpr eof
      rw [run_cons_of_endOfInput eof', run_cons_of_endOfInput eof, token, position,
        blame_finish_remap]
    have other : (l.remap f g).token ≠ .endOfInput := mt (Token.mapText_eq_endOfInput g).mp eof
    by_cases ends : l.token = .endOfLine
    · have ends' : (l.remap f g).token = .endOfLine := (Token.mapText_eq_endOfLine g).mpr ends
      have later := ih .between
      rw [show State.between.remap f g = .between from rfl] at later
      rw [run_cons_of_endOfLine ends', run_cons_of_endOfLine ends, token, position,
        blame_finish_remap, later]
      cases blame l.position l.token state.finish with
      | error e => rfl
      | ok lines =>
        cases run stop .between ls with
        | error e => rfl
        | ok more => exact congrArg Except.ok List.map_append.symm
    · have inner : (l.remap f g).token ≠ .endOfLine := mt (Token.mapText_eq_endOfLine g).mp ends
      rw [run_cons_of_ne other inner, run_cons_of_ne eof ends, token, position,
        State.step_remap]
      cases state.step l with
      | error expected => rfl
      | ok next => exact ih next

end

/-- The lexemes run out where they did if only their texts are changed. -/
theorem stopOf_remap (g : Text → Text) (ls : List Lexeme) :
    stopOf (ls.map (Lexeme.remap id g)) = stopOf ls := by
  unfold stopOf
  rw [List.getLast?_map]
  cases ls.getLast? <;> rfl

end Parse

/-- Lexemes with other texts are read to the same tree with these texts, or to the same error with
the text that was found. -/
theorem parse_remap (g : Text → Text) (ls : List Lexeme) :
    parse (ls.map (Lexeme.remap id g)) =
      ((parse ls).map (List.map (Line.remap id g))).mapError (GrammarError.remap id g) := by
  rw [parse_eq_run, parse_eq_run, Parse.stopOf_remap]
  exact Parse.run_remap id g (Parse.stopOf ls) .between ls

end CommodoreBasic
