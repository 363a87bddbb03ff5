import CommodoreBasic.Program.Basic
import CommodoreBasic.Proofs.Grammar.Acceptance
import CommodoreBasic.Proofs.Lexical.Placement

/-!
# Reading line by line

A text is read as its physical lines are, each on its own: neither the lexer nor the parser carries
anything over a line end, not even from a line that ends inside a string or inside parentheses. What
a line gives has the number of the line put into every position, and so has the error of the one
that is reported.

`readFrom` reads a text whose first line has a given number. `readFrom_last` and `readFrom_cons`
say how it reads the last line and any line before it, which `readFrom_eq_ok` and
`readFrom_eq_error` take to all lines by induction on the division into lines (`Text.Lined`). The
main statement is `Program.parse_line_by_line`.
-/

namespace CommodoreBasic

/-! ## Places on a line -/

/-- The place in the same column of another line. -/
def Position.onLine (line : Nat) (p : Position) : Position := ⟨line, p.column⟩

/-- On a line only the line number of a place depends on that of the start. -/
theorem place_onLine (e : Encoding) {pieces : List Piece}
    (other : ∀ piece ∈ pieces, piece.token ≠ .endOfLine) (k : Nat) (p : Position) :
    place e (p.onLine k) pieces = (place e p pieces).map (Lexeme.relocate (Position.onLine k)) ∧
      endOf e (p.onLine k) pieces = (endOf e p pieces).onLine k :=
  place_relocate e (fun _ _ => rfl) other p

/-! ## One line after the other -/

/-- The place where a line begins. -/
def lineStart (k : Nat) : Position := ⟨k, 1⟩

/-- Reads a text whose first line is line `k`. -/
def readFrom (e : Encoding) (k : Nat) (s : Text) : Except SourceError (List Line) :=
  let stop := endOf e (lineStart k) (cut s).pieces
  match (cut s).fault with
  | some fault => .error (.lexical ⟨stop, fault⟩)
  | none =>
    (Parse.run stop .between
      (place e (lineStart k) (cut s).pieces ++ [⟨.endOfInput, stop, 0⟩])).mapError .grammatical

theorem readFrom_of_fault {e : Encoding} {k : Nat} {s : Text} {fault : LexicalFault}
    (faulty : (cut s).fault = some fault) :
    readFrom e k s = .error (.lexical ⟨endOf e (lineStart k) (cut s).pieces, fault⟩) := by
  simp only [readFrom, faulty]

theorem readFrom_of_clean {e : Encoding} {k : Nat} {s : Text} (clean : (cut s).fault = none) :
    readFrom e k s =
      (Parse.run (endOf e (lineStart k) (cut s).pieces) .between
        (place e (lineStart k) (cut s).pieces ++
          [⟨.endOfInput, endOf e (lineStart k) (cut s).pieces, 0⟩])).mapError .grammatical := by
  simp only [readFrom, clean]

theorem readLines_eq_readFrom (e : Encoding) (s : Text) : readLines e s = readFrom e 1 s := by
  have start : lineStart 1 = .start := rfl
  simp only [readLines, lex, readFrom, parse_eq_run, start]
  cases (cut s).fault with
  | some fault => rfl
  | none =>
    show Except.mapError _ (Parse.run _ _ (_ ++ [_])) = _
    rw [Parse.run_append_endOfInput rfl]

/-- The lexemes of a line end neither a line nor the input. -/
theorem mem_place_of_line {e : Encoding} {p : Position} {t : Text} (line : Text.IsLine t)
    {l : Lexeme} (h : l ∈ place e p (cut t).pieces) :
    l.token ≠ .endOfInput ∧ l.token ≠ .endOfLine := by
  obtain ⟨segment, later, reads⟩ := reads_of_mem_place h
  obtain ⟨piece, inside, token⟩ := mem_place h
  exact ⟨reads.ne_endOfInput, token ▸ pieces_of_line line piece inside⟩

/-- The lines of one physical line, `ending` being the token that ends it. -/
def readLine (e : Encoding) (k : Nat) (ending : Token) (t : Text) :
    Except GrammarError (List Line) :=
  (Parse.State.between.advance (place e (lineStart k) (cut t).pieces)).bind fun state =>
    Parse.blame (endOf e (lineStart k) (cut t).pieces) ending state.finish

/-- A line and its errors are the same everywhere but for the number of the line and the token
that ends it. -/
theorem readLine_eq (e : Encoding) (k : Nat) (ending : Token) {t : Text} (line : Text.IsLine t) :
    readLine e k ending t =
      ((readLine e 1 .endOfInput t).map (List.map (Line.relocate (Position.onLine k)))).mapError
        fun error => ⟨error.position.onLine k, error.expected,
          if error.found = .endOfInput then ending else error.found⟩ := by
  obtain ⟨places, stop⟩ := place_onLine e (pieces_of_line line) k (lineStart 1)
  have advanced := Parse.State.advance_relocate (Position.onLine k) .between
    (place e (lineStart 1) (cut t).pieces)
  unfold readLine
  rw [show lineStart k = (lineStart 1).onLine k from rfl, places, stop]
  rw [show Parse.State.between.relocate _ = .between from rfl] at advanced
  rw [advanced]
  cases read : Parse.State.between.advance (place e (lineStart 1) (cut t).pieces) with
  | error error =>
    -- what does not fit stands on the line, so it is not the end of it
    obtain ⟨l, member, found⟩ := Parse.State.found_of_advance read
    have eof : error.found ≠ .endOfInput := found ▸ (mem_place_of_line line member).1
    show Except.error (error.relocate _) =
      Except.error (GrammarError.mk _ _ (if error.found = .endOfInput then ending else error.found))
    rw [if_neg eof, GrammarError.relocate_eq]
  | ok state =>
    show Parse.blame _ ending (state.relocate _).finish = _
    rw [Parse.State.finish_relocate]
    show _ = ((Parse.blame _ .endOfInput state.finish).map _).mapError _
    cases state.finish <;> rfl

theorem run_place (e : Encoding) (k : Nat) {t : Text} (line : Text.IsLine t) (stop : Position)
    (rest : List Lexeme) :
    Parse.run stop .between (place e (lineStart k) (cut t).pieces ++ rest) =
      (Parse.State.between.advance (place e (lineStart k) (cut t).pieces)).bind fun state =>
        Parse.run stop state rest :=
  Parse.run_advance (fun _ member => mem_place_of_line line member) stop .between rest

/-- A run takes a line and its end, then goes on as from the start. -/
theorem run_line (e : Encoding) (k : Nat) {t : Text} (line : Text.IsLine t) (stop : Position)
    (width : Nat) (ls : List Lexeme) :
    Parse.run stop .between (place e (lineStart k) (cut t).pieces ++
        ⟨.endOfLine, endOf e (lineStart k) (cut t).pieces, width⟩ :: ls) =
      (readLine e k .endOfLine t).bind fun lines =>
        (Parse.run stop .between ls).map (lines ++ ·) := by
  rw [run_place e k line, readLine]
  cases Parse.State.between.advance (place e (lineStart k) (cut t).pieces) with
  | error error => rfl
  | ok state => exact @Parse.run_cons_of_endOfLine ⟨.endOfLine, _, width⟩ rfl stop state ls

/-- How the last line is read. -/
theorem readFrom_last (e : Encoding) (k : Nat) {t : Text} (line : Text.IsLine t)
    (clean : (cut t).fault = none) :
    readFrom e k t = (readLine e k .endOfInput t).mapError .grammatical := by
  rw [readFrom_of_clean clean, run_place e k line]
  rfl

/-- Line ends before a line are counted and give nothing. -/
theorem readFrom_append (e : Encoding) (k : Nat) {run rest : Text}
    (breaks : ∀ c ∈ run, isLineBreak c = true) (stop : Text.Stops isLineBreak rest) :
    readFrom e k (run ++ rest) = readFrom e (k + run.lineBreaks) rest := by
  by_cases empty : run = []
  · subst empty
    rfl
  · have cutting := cut_of_reads (.endOfLine empty breaks stop)
    cases result : (cut rest).fault with
    | some fault =>
      have faulty : (cut (run ++ rest)).fault = some fault := by rw [cutting]; exact result
      rw [readFrom_of_fault faulty, readFrom_of_fault result, cutting]
      rfl
    | none =>
      have clean : (cut (run ++ rest)).fault = none := by rw [cutting]; exact result
      rw [readFrom_of_clean clean, readFrom_of_clean result, cutting]
      show (Parse.run _ .between (Lexeme.mk .endOfLine _ _ :: _)).mapError _ = _
      rw [@Parse.run_cons_of_endOfLine ⟨.endOfLine, _, _⟩ rfl]
      show ((Parse.run _ .between _).map ([] ++ ·)).mapError _ = _
      exact congrArg (Except.mapError _) (congrFun Except.map_id _)

/-- How a line that is not the last one is read. A fault later in the text comes before anything
else that is wrong with the line. -/
theorem readFrom_cons (e : Encoding) (k : Nat) {t ending s : Text} (line : Text.IsLine t)
    (ends : Text.LineEnd ending s) (clean : (cut t).fault = none) :
    readFrom e k (t ++ (ending ++ s)) =
      match readFrom e (k + 1) s, readLine e k .endOfLine t with
      | .error (.lexical error), _ => .error (.lexical error)
      | _, .error error => .error (.grammatical error)
      | later, .ok lines => later.map (lines ++ ·) := by
  -- the line end is read with all that come after it, as one token
  obtain ⟨run, rest, rfl, -, breaks, stop⟩ := Rule.takeWhile_split isLineBreak s
  have reads : Token.Reads .endOfLine (ending ++ run) rest := by
    refine .endOfLine ?_ ?_ stop
    · cases ends <;> simp
    · intro c hc
      rcases List.mem_append.mp hc with hc | hc
      · exact ends.isLineBreak c hc
      · exact breaks c hc
  have cutting : cut (t ++ (ending ++ (run ++ rest))) =
      ⟨(cut t).pieces ++ ⟨.endOfLine, ending ++ run⟩ :: (cut rest).pieces, (cut rest).fault⟩ := by
    rw [cut_append line ends.endsLine clean, ← List.append_assoc ending, cut_of_reads reads]
    rfl
  have next : Piece.next e (endOf e (lineStart k) (cut t).pieces) ⟨.endOfLine, ending ++ run⟩ =
      lineStart (k + 1 + run.lineBreaks) := by
    have stays := (place_onLine e (pieces_of_line line) k (lineStart k)).2
    rw [show (lineStart k).onLine k = lineStart k from rfl] at stays
    rw [stays]
    show lineStart (k + (ending ++ run).lineBreaks) = _
    rw [ends.lineBreaks_append, Nat.add_assoc]
  rw [readFrom_append e (k + 1) breaks stop]
  cases result : (cut rest).fault with
  | some fault =>
    have faulty : (cut (t ++ (ending ++ (run ++ rest)))).fault = some fault := by
      rw [cutting]
      exact result
    rw [readFrom_of_fault faulty, readFrom_of_fault result, cutting]
    simp only
    rw [endOf_append, endOf_cons, next]
  | none =>
    have clean' : (cut (t ++ (ending ++ (run ++ rest)))).fault = none := by
      rw [cutting]
      exact result
    rw [readFrom_of_clean clean', readFrom_of_clean result, cutting]
    simp only
    rw [place_append, endOf_append, endOf_cons, next, List.append_assoc]
    show (Parse.run _ .between (_ ++ Lexeme.mk .endOfLine _ _ ::
      (place e (Piece.next e _ _) _ ++ _))).mapError _ = _
    rw [run_line e k line, next]
    generalize Parse.run _ .between (place e (lineStart (k + 1 + run.lineBreaks)) _ ++ _) = later
    cases readLine e k .endOfLine t <;> cases later <;> rfl

/-! ## What each line says by itself -/

/-- A line has a fault, or the parser decides. -/
theorem readLines_cases (e : Encoding) {t : Text} (line : Text.IsLine t) :
    (∃ fault, (cut t).fault = some fault ∧
      readLines e t = .error (.lexical ⟨endOf e (lineStart 1) (cut t).pieces, fault⟩)) ∨
    ((cut t).fault = none ∧
      readLines e t = (readLine e 1 .endOfInput t).mapError .grammatical) := by
  rw [readLines_eq_readFrom]
  cases result : (cut t).fault with
  | some fault => exact Or.inl ⟨fault, rfl, readFrom_of_fault result⟩
  | none => exact Or.inr ⟨rfl, readFrom_last e 1 line result⟩

/-- A fault of a line is found wherever the line stands and whatever comes after it. -/
theorem readFrom_of_lexical {e : Encoding} {t rest : Text} {error : LexicalError}
    (line : Text.IsLine t) (ends : Text.EndsLine rest)
    (h : readLines e t = .error (.lexical error)) (k : Nat) :
    readFrom e k (t ++ rest) = .error (.lexical ⟨error.position.onLine k, error.fault⟩) := by
  rcases readLines_cases e line with ⟨fault, faulty, read⟩ | ⟨-, read⟩
  · rw [h] at read
    cases read
    have whole := cut_append_of_fault line ends faulty
    obtain ⟨-, stop⟩ := place_onLine e (pieces_of_line line) k (lineStart 1)
    rw [readFrom_of_fault (whole ▸ faulty), whole]
    rw [show (lineStart 1).onLine k = lineStart k from rfl] at stop
    rw [stop]
  · rw [h] at read
    cases result : readLine e 1 .endOfInput t <;> rw [result] at read <;> cases read

theorem readLine_of_ok {e : Encoding} {t : Text} {part : List Line} (line : Text.IsLine t)
    (h : readLines e t = .ok part) (k : Nat) (ending : Token) :
    (cut t).fault = none ∧
      readLine e k ending t = .ok (part.map (Line.relocate (Position.onLine k))) := by
  rcases readLines_cases e line with ⟨fault, -, read⟩ | ⟨clean, read⟩
  · rw [h] at read
    contradiction
  · refine ⟨clean, ?_⟩
    rw [readLine_eq e k ending line]
    cases result : readLine e 1 .endOfInput t <;> rw [h, result] at read <;> cases read
    rfl

theorem readLine_of_grammatical {e : Encoding} {t : Text} {error : GrammarError}
    (line : Text.IsLine t) (h : readLines e t = .error (.grammatical error)) (k : Nat)
    (ending : Token) :
    (cut t).fault = none ∧
      readLine e k ending t = .error ⟨error.position.onLine k, error.expected,
        if error.found = .endOfInput then ending else error.found⟩ := by
  rcases readLines_cases e line with ⟨fault, -, read⟩ | ⟨clean, read⟩
  · rw [h] at read
    cases read
  · refine ⟨clean, ?_⟩
    rw [readLine_eq e k ending line]
    cases result : readLine e 1 .endOfInput t <;> rw [h, result] at read <;> cases read
    rfl

/-! ## All lines -/

/-- The error that is reported for lines of which the first is line `k`: that of the first line
with a fault, if there is one, else that of the first line that is not read. Its line number is
that of the line, and where the line by itself would end the input, a line end is found instead
if one comes after it. -/
inductive Reports {α : Type} (read : Text → Except SourceError α) (k : Nat) (lines : List Text) :
    SourceError → Prop
  | lexical {before after : List Text} {t : Text} {error : LexicalError}
      (split : lines = before ++ t :: after)
      (lexes : ∀ u ∈ before, ∀ fault, read u ≠ .error (.lexical fault))
      (fails : read t = .error (.lexical error)) :
      Reports read k lines (.lexical ⟨error.position.onLine (k + before.length), error.fault⟩)
  | grammatical {before after : List Text} {t : Text} {error : GrammarError}
      (split : lines = before ++ t :: after)
      (lexes : ∀ u ∈ lines, ∀ fault, read u ≠ .error (.lexical fault))
      (reads : ∀ u ∈ before, ∀ g, read u ≠ .error (.grammatical g))
      (fails : read t = .error (.grammatical error)) :
      Reports read k lines (.grammatical ⟨error.position.onLine (k + before.length), error.expected,
        if error.found = .endOfInput ∧ after ≠ [] then .endOfLine else error.found⟩)

/-- A line is to blame, one with a fault for a fault. -/
theorem Reports.blames {α : Type} {read : Text → Except SourceError α} {k : Nat}
    {lines : List Text} {error : SourceError} (h : Reports read k lines error) :
    ∃ t ∈ lines, ∃ cause, read t = .error cause ∧
      ∀ fault, error = .lexical fault → ∃ fault', cause = .lexical fault' := by
  cases h with
  | @lexical before after t error split _ fails =>
    exact ⟨t, by rw [split]; simp, _, fails, fun _ _ => ⟨error, rfl⟩⟩
  | @grammatical before after t error split _ _ fails =>
    refine ⟨t, by rw [split]; simp, _, fails, ?_⟩
    intro fault same
    cases same

/-- Only the errors of the lines matter. -/
theorem Reports.congr {α β : Type} {read : Text → Except SourceError α}
    {read' : Text → Except SourceError β} {k : Nat} {lines : List Text} {error : SourceError}
    (same : ∀ t cause, read t = .error cause ↔ read' t = .error cause)
    (h : Reports read k lines error) : Reports read' k lines error := by
  cases h with
  | lexical split lexes fails =>
    simp only [ne_eq, same] at lexes fails
    exact .lexical split lexes fails
  | grammatical split lexes reads fails =>
    simp only [ne_eq, same] at lexes reads fails
    exact .grammatical split lexes reads fails

theorem Reports.cons_lexical {α : Type} {read : Text → Except SourceError α} {k : Nat}
    {t : Text} {ts : List Text} {error : LexicalError}
    (lexes : ∀ fault, read t ≠ .error (.lexical fault))
    (later : Reports read (k + 1) ts (.lexical error)) :
    Reports read k (t :: ts) (.lexical error) := by
  cases later with
  | @lexical before after u error split before_lexes fails =>
    have reported : Reports read k (t :: ts)
        (.lexical ⟨error.position.onLine (k + (t :: before).length), error.fault⟩) := by
      refine .lexical (by rw [split, List.cons_append]) ?_ fails
      intro v hv
      rcases List.mem_cons.mp hv with rfl | hv
      · exact lexes
      · exact before_lexes v hv
    rwa [List.length_cons, ← Nat.add_assoc, Nat.add_right_comm] at reported

theorem Reports.cons_grammatical {α : Type} {read : Text → Except SourceError α} {k : Nat}
    {t : Text} {ts : List Text} {error : GrammarError} {a : α} (reads : read t = .ok a)
    (later : Reports read (k + 1) ts (.grammatical error)) :
    Reports read k (t :: ts) (.grammatical error) := by
  cases later with
  | @grammatical before after u error split lexes before_reads fails =>
    have reported : Reports read k (t :: ts) (.grammatical
        ⟨error.position.onLine (k + (t :: before).length), error.expected,
          if error.found = .endOfInput ∧ after ≠ [] then .endOfLine else error.found⟩) := by
      refine .grammatical (by rw [split, List.cons_append]) ?_ ?_ fails
      · intro v hv
        rcases List.mem_cons.mp hv with rfl | hv
        · simp [reads]
        · exact lexes v hv
      · intro v hv
        rcases List.mem_cons.mp hv with rfl | hv
        · simp [reads]
        · exact before_reads v hv
    rwa [List.length_cons, ← Nat.add_assoc, Nat.add_right_comm] at reported

/-- The error is that of the first line, or one that is reported for the later lines. -/
theorem Reports.of_cons {α : Type} {read : Text → Except SourceError α} {k : Nat} {t : Text}
    {ts : List Text} {error : SourceError} (h : Reports read k (t :: ts) error) :
    (∃ fault : LexicalError, read t = .error (.lexical fault) ∧
      error = .lexical ⟨fault.position.onLine k, fault.fault⟩) ∨
    (∃ g : GrammarError, read t = .error (.grammatical g) ∧
      (∀ u ∈ ts, ∀ fault, read u ≠ .error (.lexical fault)) ∧
      error = .grammatical ⟨g.position.onLine k, g.expected,
        if g.found = .endOfInput ∧ ts ≠ [] then .endOfLine else g.found⟩) ∨
    Reports read (k + 1) ts error ∧ (∀ fault, read t ≠ .error (.lexical fault)) ∧
      ((∃ fault, error = .lexical fault) ∨ ∃ a, read t = .ok a) := by
  cases h with
  | @lexical before after u error split lexes fails =>
    cases before with
    | nil =>
      obtain ⟨rfl, rfl⟩ := List.cons.inj split
      exact Or.inl ⟨error, fails, rfl⟩
    | cons b before =>
      obtain ⟨rfl, rfl⟩ := List.cons.inj split
      have later : Reports read (k + 1) (before ++ u :: after)
          (.lexical ⟨error.position.onLine (k + 1 + before.length), error.fault⟩) :=
        .lexical rfl (fun v hv => lexes v (List.mem_cons_of_mem t hv)) fails
      rw [Nat.add_right_comm, Nat.add_assoc] at later
      exact Or.inr (Or.inr ⟨later, lexes t List.mem_cons_self, Or.inl ⟨_, rfl⟩⟩)
  | @grammatical before after u error split lexes reads fails =>
    cases before with
    | nil =>
      obtain ⟨rfl, rfl⟩ := List.cons.inj split
      exact Or.inr (Or.inl ⟨error, fails, fun v hv => lexes v (List.mem_cons_of_mem t hv), rfl⟩)
    | cons b before =>
      obtain ⟨rfl, rfl⟩ := List.cons.inj split
      have later : Reports read (k + 1) (before ++ u :: after)
          (.grammatical ⟨error.position.onLine (k + 1 + before.length), error.expected,
            if error.found = .endOfInput ∧ after ≠ [] then .endOfLine else error.found⟩) :=
        .grammatical rfl (fun v hv => lexes v (List.mem_cons_of_mem t hv))
          (fun v hv => reads v (List.mem_cons_of_mem t hv)) fails
      rw [Nat.add_right_comm, Nat.add_assoc] at later
      refine Or.inr (Or.inr ⟨later, lexes t List.mem_cons_self, Or.inr ?_⟩)
      cases result : read t with
      | ok a => exact ⟨a, rfl⟩
      | error cause =>
        cases cause with
        | lexical fault => exact absurd result (lexes t List.mem_cons_self fault)
        | grammatical g => exact absurd result (reads t List.mem_cons_self g)

/-- Lines are all read, or an error is reported. -/
theorem reads_or_reports {α : Type} (read : Text → Except SourceError α) (k : Nat)
    (lines : List Text) :
    (∃ parts : List α, lines.map read = parts.map .ok) ∨ ∃ error, Reports read k lines error := by
  induction lines generalizing k with
  | nil => exact Or.inl ⟨[], rfl⟩
  | cons t ts ih =>
    cases first : read t with
    | ok a =>
      rcases ih (k + 1) with ⟨parts, later⟩ | ⟨error | error, later⟩
      · exact Or.inl ⟨a :: parts, by rw [List.map_cons, first, later, List.map_cons]⟩
      · exact Or.inr ⟨_, later.cons_lexical (by simp [first])⟩
      · exact Or.inr ⟨_, later.cons_grammatical first⟩
    | error error =>
      cases error with
      | lexical error => exact Or.inr ⟨_, .lexical (List.nil_append _).symm (by simp) first⟩
      | grammatical error =>
        -- this error is reported unless a later line has a fault
        have here : (∀ u ∈ ts, ∀ fault, read u ≠ .error (.lexical fault)) →
            ∃ error, Reports read k (t :: ts) error := by
          intro lexes
          refine ⟨_, .grammatical (List.nil_append _).symm ?_ (by simp) first⟩
          intro u hu
          rcases List.mem_cons.mp hu with rfl | hu
          · simp [first]
          · exact lexes u hu
        rcases ih (k + 1) with ⟨parts, later⟩ | ⟨error | error, later⟩
        · refine Or.inr (here ?_)
          intro u hu fault fails
          have member : read u ∈ ts.map read := List.mem_map_of_mem hu
          rw [later, fails] at member
          simp at member
        · exact Or.inr ⟨_, later.cons_lexical (by simp [first])⟩
        · cases later with
          | grammatical _ lexes => exact Or.inr (here lexes)

/-- The lines that parts consist of, the first part being that of line `k`. -/
def joinParts (k : Nat) (parts : List (List Line)) : List Line :=
  (parts.zipIdx k).flatMap fun (part, k) => part.map (Line.relocate (Position.onLine k))

/-- Lines that are all read are read together. -/
theorem readFrom_eq_ok (e : Encoding) {s : Text} {ts : List Text} (lined : Text.Lined s ts)
    {parts : List (List Line)} (h : ts.map (readLines e) = parts.map .ok) (k : Nat) :
    readFrom e k s = .ok (joinParts k parts) := by
  induction lined generalizing k parts with
  | @last t line =>
    obtain ⟨part, rest, rfl, read, none⟩ := List.map_eq_cons_iff.mp h.symm
    obtain rfl := List.map_eq_nil_iff.mp none
    obtain ⟨clean, read⟩ := readLine_of_ok line read.symm k .endOfInput
    rw [readFrom_last e k line clean, read]
    show Except.ok _ = Except.ok (part.map (Line.relocate (Position.onLine k)) ++ [])
    rw [List.append_nil]
  | @cons t ending s ts line ends _ ih =>
    obtain ⟨part, parts, rfl, read, later⟩ := List.map_eq_cons_iff.mp h.symm
    obtain ⟨clean, read⟩ := readLine_of_ok line read.symm k .endOfLine
    rw [readFrom_cons e k line ends clean, read, ih later.symm]
    rfl

/-- The error that is reported for the lines is that of the text. -/
theorem readFrom_eq_error (e : Encoding) {s : Text} {ts : List Text} (lined : Text.Lined s ts)
    {error : SourceError} {k : Nat} (h : Reports (readLines e) k ts error) :
    readFrom e k s = .error error := by
  induction lined generalizing k error with
  | @last t line =>
    rcases h.of_cons with ⟨fault, fails, rfl⟩ | ⟨g, fails, -, rfl⟩ | ⟨later, -⟩
    · have read := readFrom_of_lexical line (Text.stops_nil _) fails k
      rwa [List.append_nil] at read
    · obtain ⟨clean, read⟩ := readLine_of_grammatical line fails k .endOfInput
      rw [readFrom_last e k line clean, read]
      have alone : (if g.found = .endOfInput then Token.endOfInput else g.found) =
          if g.found = .endOfInput ∧ ([] : List Text) ≠ [] then .endOfLine else g.found := by
        by_cases eof : g.found = .endOfInput
        · simp [eof]
        · simp [eof]
      rw [alone]
      rfl
    · obtain ⟨t, member, -⟩ := later.blames
      contradiction
  | @cons t ending s ts line ends lined ih =>
    rcases h.of_cons with ⟨fault, fails, rfl⟩ | ⟨g, fails, lexes, rfl⟩ | ⟨later, lexes, stop⟩
    · exact readFrom_of_lexical line ends.endsLine fails k
    · obtain ⟨clean, read⟩ := readLine_of_grammatical line fails k .endOfLine
      rw [readFrom_cons e k line ends clean, read]
      simp only [ne_eq, lined.ne_nil, not_false_eq_true, and_true]
      -- the later lines may be read or not, but none of them has a fault
      rcases reads_or_reports (readLines e) (k + 1) ts with ⟨parts, all⟩ | ⟨error | error, reported⟩
      · rw [readFrom_eq_ok e lined all]
      · obtain ⟨t, member, cause, fails, lexical⟩ := reported.blames
        obtain ⟨fault, rfl⟩ := lexical error rfl
        exact absurd fails (lexes t member fault)
      · rw [ih reported]
    · have clean : (cut t).fault = none := by
        rcases readLines_cases e line with ⟨fault, -, read⟩ | ⟨clean, -⟩
        · exact absurd read (lexes _)
        · exact clean
      rw [readFrom_cons e k line ends clean, ih later]
      rcases stop with ⟨fault, rfl⟩ | ⟨part, ok⟩
      · rfl
      · rw [(readLine_of_ok line ok k .endOfLine).2]
        cases error <;> rfl

/-! ## Lines of nothing -/

/-- The pieces of a text of spaces and tabs are all dropped, and only those. -/
theorem place_eq_nil_iff (e : Encoding) (p : Position) {pieces : List Piece} {rest : Text}
    (chain : Chained rest pieces) :
    place e p pieces = [] ↔ (Piece.textOf pieces).all isSpacing = true := by
  induction chain generalizing p with
  | nil => simp [place, Piece.textOf]
  | @cons piece pieces reads _ ih =>
    rw [Piece.textOf_cons, List.all_append, ← reads.isSpace_eq, Bool.and_eq_true,
      ← ih (piece.next e p)]
    simp only [place]
    split
    · next space => simp [space]
    · next kept => simp [kept]

/-- Lexemes that end nothing are those of one line, if there are any. -/
theorem length_of_run {ls : List Lexeme} {lines : List Line} {stop p : Position}
    (plain : ∀ l ∈ ls, l.token ≠ .endOfInput ∧ l.token ≠ .endOfLine)
    (h : Parse.run stop .between (ls ++ [⟨.endOfInput, p, 0⟩]) = .ok lines) :
    lines.length = if ls = [] then 0 else 1 := by
  have derived := Parse.derives_of_run .between h
  rw [List.nil_append, Parse.beforeEnd_append_cons (fun l member => (plain l member).1) rfl]
    at derived
  cases derived with
  | nil => rfl
  | endOfLine ends later => exact absurd ends (plain _ List.mem_cons_self).2
  | line content ends later => exact absurd ends (plain _ (by simp)).2
  | last content => cases content <;> rfl

/-- A physical line gives one line, or none if it consists of spaces and tabs. -/
theorem length_of_readLines {e : Encoding} {t : Text} (line : Text.IsLine t) {part : List Line}
    (h : readLines e t = .ok part) : part.length = if t.all isSpacing then 0 else 1 := by
  obtain ⟨clean, -⟩ := readLine_of_ok line h 1 .endOfInput
  obtain ⟨whole, chain⟩ := chained_of_fault_eq_none clean
  have blank := place_eq_nil_iff e (lineStart 1) chain
  rw [← whole] at blank
  rw [readLines_eq_readFrom, readFrom_of_clean clean] at h
  cases read : Parse.run (endOf e (lineStart 1) (cut t).pieces) .between
      (place e (lineStart 1) (cut t).pieces ++
        [⟨.endOfInput, endOf e (lineStart 1) (cut t).pieces, 0⟩]) with
  | error error =>
    rw [read] at h
    cases h
  | ok lines =>
    rw [read] at h
    cases h
    rw [length_of_run (fun _ member => mem_place_of_line line member) read]
    simp only [blank]

/-! ## Programs -/

namespace Program

theorem map_lines_ofLines (source : Text) (parts : List (List Line)) :
    (parts.map (ofLines source)).map lines = parts := by
  rw [List.map_map]
  exact List.map_id _

/-- Texts that are read as programs are read as the lines of these. -/
theorem map_parse_eq_iff {e : Encoding} {source : Text} {ts : List Text} {parts : List Program} :
    ts.map (parse e source) = parts.map .ok ↔
      ∃ read : List (List Line), ts.map (readLines e) = read.map .ok ∧
        read.map (ofLines source) = parts := by
  induction ts generalizing parts with
  | nil => simp
  | cons t ts ih =>
    cases parts with
    | nil => simp
    | cons part parts =>
      simp only [List.map_cons, List.cons.injEq, ih, parse_eq_ok_iff]
      constructor
      · rintro ⟨⟨lines, read, rfl⟩, rest, all, rfl⟩
        exact ⟨lines :: rest, by simp [read, all], rfl⟩
      · rintro ⟨lines, all, same⟩
        obtain ⟨first, rest, rfl, rfl, rfl⟩ := List.map_eq_cons_iff.mp same
        simp only [List.map_cons, List.cons.injEq] at all
        exact ⟨⟨first, all.1, rfl⟩, rest, all.2, rfl⟩

/-- A text is read to what its lines are read to. -/
theorem parse_eq_ok_iff_parts (e : Encoding) (source s : Text) (program : Program) :
    parse e source s = .ok program ↔
      ∃ parts : List Program, s.physicalLines.map (parse e source) = parts.map .ok ∧
        program = ofLines source (joinParts 1 (parts.map lines)) := by
  have lined := Text.lined_physicalLines s
  constructor
  · intro h
    obtain ⟨lines, read, rfl⟩ := parse_eq_ok_iff.mp h
    rw [readLines_eq_readFrom] at read
    rcases reads_or_reports (readLines e) 1 s.physicalLines with ⟨parts, all⟩ | ⟨error, reported⟩
    · rw [readFrom_eq_ok e lined all] at read
      cases read
      exact ⟨parts.map (ofLines source), map_parse_eq_iff.mpr ⟨parts, all, rfl⟩,
        congrArg (ofLines source ∘ joinParts 1) (map_lines_ofLines source parts).symm⟩
    · rw [readFrom_eq_error e lined reported] at read
      contradiction
  · rintro ⟨programs, all, rfl⟩
    obtain ⟨parts, reads, rfl⟩ := map_parse_eq_iff.mp all
    have read := readFrom_eq_ok e lined reads 1
    rw [map_lines_ofLines, parse_eq_ok_iff, readLines_eq_readFrom]
    exact ⟨_, read, rfl⟩

/-- The error of a text is the one that its lines report. -/
theorem parse_eq_error_iff_reports (e : Encoding) (source s : Text) (error : SourceError) :
    parse e source s = .error error ↔ Reports (parse e source) 1 s.physicalLines error := by
  have lined := Text.lined_physicalLines s
  have errors : ∀ t cause, readLines e t = .error cause ↔ parse e source t = .error cause :=
    fun _ _ => parse_eq_error_iff.symm
  rw [parse_eq_error_iff, readLines_eq_readFrom]
  constructor
  · intro h
    rcases reads_or_reports (readLines e) 1 s.physicalLines with ⟨parts, all⟩ | ⟨error', reported⟩
    · rw [readFrom_eq_ok e lined all] at h
      contradiction
    · rw [readFrom_eq_error e lined reported] at h
      cases h
      exact reported.congr errors
  · intro h
    exact readFrom_eq_error e lined (h.congr fun t cause => (errors t cause).symm)

/-- A text is read if each of its lines is read by itself, and what is read is what the lines
give, one after the other with their line numbers. A line that is read gives one line, or none if
it is blank. If some line is not read, the error is the one that the lines report. -/
theorem parse_line_by_line (e : Encoding) (source s : Text) :
    (∀ program, parse e source s = .ok program ↔
      ∃ parts : List Program, s.physicalLines.map (parse e source) = parts.map .ok ∧
        program = ofLines source (joinParts 1 (parts.map lines))) ∧
    (∀ t ∈ s.physicalLines, ∀ part, parse e source t = .ok part →
      part.lines.length = if t.all isSpacing then 0 else 1) ∧
    (∀ error, parse e source s = .error error ↔
      Reports (parse e source) 1 s.physicalLines error) := by
  refine ⟨parse_eq_ok_iff_parts e source s, ?_, parse_eq_error_iff_reports e source s⟩
  intro t member part h
  obtain ⟨lines, read, rfl⟩ := parse_eq_ok_iff.mp h
  exact length_of_readLines ((Text.lined_physicalLines s).isLine t member) read

/-- A fault of the third line is reported before the parenthesis that the first one leaves open. -/
example : parse .utf8 [] "1 print(\r\n\r2 \"".toList =
    .error (.lexical ⟨⟨3, 3⟩, .unterminatedString⟩) := by
  rfl

end Program

end CommodoreBasic
