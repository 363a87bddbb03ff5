import CommodoreBasic.Proofs.Grammar.Remapping

/-!
# Reading does not depend on places

`relocate` moves every position of a tree by one map and keeps all texts, so it is a `remap`. The
same lexemes at other places are read to the same tree at other places: `State.step_relocate` for
one lexeme, `run_relocate` for all, `State.advance_relocate` for those of a line. The widths of
lexemes do not count either (`run_unmeasured`).

`State.advance` reads lexemes that end neither a line nor the input. `run_advance` puts it before
whatever comes next.
-/

namespace CommodoreBasic

/-- The place that many columns to the right. -/
def Position.right (n : Nat) (p : Position) : Position := ⟨p.line, p.column + n⟩

theorem Position.right_right (m n : Nat) (p : Position) :
    (p.right m).right n = p.right (m + n) := by
  rw [right, right, right, Nat.add_assoc]

section

variable (f : Position → Position)

/-- An item with its positions moved. -/
def Item.relocate : Item → Item := Item.remap f id

def Statement.relocate : Statement → Statement := Statement.remap f id

def Body.relocate : Body → Body := Body.remap f id

/-- A line with all of its positions moved. -/
def Line.relocate : Line → Line := Line.remap f id

def Lexeme.relocate : Lexeme → Lexeme := Lexeme.remap f id

/-- An error at the place that its lexeme is moved to. -/
def GrammarError.relocate : GrammarError → GrammarError := GrammarError.remap f id

/-- A state of the automaton with the positions in it moved. -/
def Parse.State.relocate : State → State := State.remap f id

@[simp] theorem Item.relocate_atom (p : Position) (a : Atom) (trailing : Option Char) :
    (atom p a trailing).relocate f = atom (f p) a trailing := by
  rw [relocate, remap_atom, Atom.mapText_id]

@[simp] theorem Item.relocate_group (p start : Position) (inner : List Item)
    (trailing : Option Char) :
    (group p start inner trailing).relocate f =
      group (f p) (f start) (inner.map (relocate f)) trailing := by
  rw [relocate, remap_group]

@[simp] theorem Statement.relocate_mk (p : Position) (is : List Item) :
    (Statement.mk p is).relocate f = ⟨f p, is.map (Item.relocate f)⟩ := rfl

@[simp] theorem Body.relocate_comment (text : Text) :
    (Body.comment text).relocate f = .comment text := rfl

@[simp] theorem Body.relocate_statements (ss : List Statement) :
    (Body.statements ss).relocate f = .statements (ss.map (Statement.relocate f)) := rfl

@[simp] theorem Line.relocate_mk (label : Nat) (p : Position) (body : Body) :
    (Line.mk label p body).relocate f = ⟨label, f p, body.relocate f⟩ := rfl

theorem Lexeme.relocate_eq (l : Lexeme) :
    l.relocate f = { l with position := f l.position } := by
  rw [relocate, remap, Token.mapText_id]

@[simp] theorem Lexeme.token_relocate (l : Lexeme) : (l.relocate f).token = l.token :=
  l.token.mapText_id

theorem GrammarError.relocate_eq (e : GrammarError) :
    e.relocate f = { e with position := f e.position } := by
  rw [relocate, remap, Token.mapText_id]

end

/-- The lexeme without its width. -/
def Lexeme.unmeasured (l : Lexeme) : Lexeme := { l with width := 0 }

namespace Parse

variable (f : Position → Position)

/-- A step commutes with moving what it reads. -/
theorem State.step_relocate (state : State) (l : Lexeme) :
    (state.relocate f).step (l.relocate f) = (state.step l).map (State.relocate f) :=
  State.step_remap f id state l

theorem State.finish_relocate (state : State) :
    (state.relocate f).finish = state.finish.map (List.map (Line.relocate f)) :=
  State.finish_remap f id state

/-! ## Runs -/

/-- The same lexemes at other places are read to the same lines at other places. -/
theorem run_relocate (stop : Position) (state : State) (ls : List Lexeme) :
    run (f stop) (state.relocate f) (ls.map (Lexeme.relocate f)) =
      ((run stop state ls).map (List.map (Line.relocate f))).mapError
        (GrammarError.relocate f) :=
  run_remap f id stop state ls

/-- A run does not look at how wide lexemes are. -/
theorem run_unmeasured (stop : Position) (state : State) (ls : List Lexeme) :
    run stop state (ls.map Lexeme.unmeasured) = run stop state ls := by
  induction ls generalizing state with
  | nil => rfl
  | cons l ls ih =>
    have same : state.step l.unmeasured = state.step l := by cases state <;> rfl
    rw [List.map_cons, run, run, same]
    simp only [Lexeme.unmeasured, ih]

/-! ## Lexemes that end nothing -/

/-- Reads lexemes, none of which ends a line or the input. -/
def State.advance : State → List Lexeme → Except GrammarError State
  | state, [] => .ok state
  | state, l :: ls =>
    match blame l.position l.token (state.step l) with
    | .ok next => next.advance ls
    | .error e => .error e

/-- A run begins with the lexemes that end nothing. -/
theorem run_advance {ls : List Lexeme}
    (plain : ∀ l ∈ ls, l.token ≠ .endOfInput ∧ l.token ≠ .endOfLine) (stop : Position)
    (state : State) (rest : List Lexeme) :
    run stop state (ls ++ rest) = (state.advance ls).bind fun next => run stop next rest := by
  induction ls generalizing state with
  | nil => rfl
  | cons l ls ih =>
    obtain ⟨eof, ends⟩ := plain l List.mem_cons_self
    rw [List.cons_append, run_cons_of_ne eof ends, State.advance]
    cases blame l.position l.token (state.step l) with
    | error e => rfl
    | ok next => exact ih (fun m hm => plain m (List.mem_cons_of_mem l hm)) next

/-- The same lexemes at other places are read to the same at other places. -/
theorem State.advance_relocate (state : State) (ls : List Lexeme) :
    (state.relocate f).advance (ls.map (Lexeme.relocate f)) =
      ((state.advance ls).map (State.relocate f)).mapError (GrammarError.relocate f) := by
  induction ls generalizing state with
  | nil => rfl
  | cons l ls ih =>
    rw [List.map_cons, State.advance, State.advance, State.step_relocate]
    cases state.step l with
    | error expected => rfl
    | ok next => exact ih next

/-- What does not fit is one of the lexemes. -/
theorem State.found_of_advance {state : State} {ls : List Lexeme} {e : GrammarError}
    (h : state.advance ls = .error e) : ∃ l ∈ ls, e.found = l.token := by
  induction ls generalizing state with
  | nil => contradiction
  | cons l ls ih =>
    rw [State.advance] at h
    cases stepped : state.step l with
    | error expected =>
      rw [stepped] at h
      cases h
      exact ⟨l, List.mem_cons_self, rfl⟩
    | ok next =>
      rw [stepped] at h
      obtain ⟨m, member, same⟩ := ih h
      exact ⟨m, List.mem_cons_of_mem l member, same⟩

end Parse

end CommodoreBasic
