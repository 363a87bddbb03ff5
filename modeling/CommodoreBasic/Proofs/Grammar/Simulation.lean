import CommodoreBasic.Proofs.Grammar.Automaton
import CommodoreBasic.Proofs.Grammar.Derivation
import CommodoreBasic.Proofs.Grammar.Recursion

/-!
# The parser and the automaton

The parser returns to where a parenthesis was opened, the automaton takes what it has put aside from
its stack. `Parser.run` lets the automaton go on where a parser stands, and each function of the
parser is compared with it: if the function fails, the automaton fails with the same error, and
otherwise it comes to where the function ends, in the state that belongs to what has been read.

The states in which an item may come next, at the beginning of a statement or in the middle of one,
are described by `Parser.Stands`. The main statement is `parse_eq_run`.
-/

namespace CommodoreBasic

/-- The automaton reads a token that is an item. -/
theorem Parse.item?_of_isAtom {l : Lexeme} {a : Atom} (h : IsAtom l.token a) (line : Pending)
    (start : Position) (items : List Item) :
    item? line start items l = some (.ok (.within line start (.atom l.position a none) items)) := by
  generalize token : l.token = t at h
  cases h with
  | number reads => simp [item?, token, reads]
  | _ => simp [item?, token]

namespace Parser

open Parse

variable {p : Parser}

/-! ## What is left -/

/-- The lexemes that are left. -/
def ahead (p : Parser) : List Lexeme := p.lexemes.toList.drop p.index

/-- The lexeme where the parser stands, but for its width. -/
def here (p : Parser) : Lexeme := ⟨p.token 0, p.position 0, 0⟩

theorem exists_ahead (h : p.token 0 ≠ .endOfInput) :
    ∃ width, p.ahead = ⟨p.token 0, p.position 0, width⟩ :: p.next.ahead := by
  have inside := index_lt_of_token h
  refine ⟨p.lexemes[p.index].width, ?_⟩
  rw [ahead, List.drop_eq_getElem_cons (by simpa using inside)]
  simp [token, position, next, ahead, inside]

/-- The end of the input is a lexeme, or it is where the lexemes run out. -/
theorem ahead_of_endOfInput (h : p.token 0 = .endOfInput) :
    (p.ahead = [] ∧ p.position 0 = p.stop) ∨
      ∃ width ls, p.ahead = ⟨.endOfInput, p.position 0, width⟩ :: ls := by
  by_cases inside : p.index < p.lexemes.size
  · have here : p.lexemes[p.index].token = .endOfInput := by simpa [token, inside] using h
    refine Or.inr ⟨p.lexemes[p.index].width, p.next.ahead, ?_⟩
    rw [ahead, List.drop_eq_getElem_cons (by simpa using inside)]
    simp [position, next, ahead, inside, ← here]
  · refine Or.inl ⟨List.drop_eq_nil_of_le (by simpa using inside), ?_⟩
    simp [position, Array.getElem?_eq_none (Nat.le_of_not_lt inside)]

/-! ## The automaton from where a parser stands -/

/-- What the automaton makes of the lexemes that are left. -/
def run (p : Parser) (state : State) : Except GrammarError (List Line) :=
  Parse.run p.stop state p.ahead

theorem run_of_endOfInput (h : p.token 0 = .endOfInput) (state : State) :
    p.run state = blame (p.position 0) (p.token 0) state.finish := by
  rcases ahead_of_endOfInput h with ⟨nothing, stop⟩ | ⟨width, ls, whole⟩
  · rw [run, nothing, h, stop]
    rfl
  · rw [run, whole, run_cons_of_endOfInput rfl, h]

theorem run_of_endOfLine (h : p.token 0 = .endOfLine) (state : State) :
    p.run state = (blame (p.position 0) (p.token 0) state.finish).bind fun lines =>
      (p.next.run .between).map (lines ++ ·) := by
  obtain ⟨width, whole⟩ := exists_ahead (p := p) (by simp [h])
  rw [run, whole, run_cons_of_endOfLine h]
  rfl

theorem run_of_ne (eof : p.token 0 ≠ .endOfInput) (ends : p.token 0 ≠ .endOfLine) (state : State) :
    p.run state = (blame (p.position 0) (p.token 0) (state.step p.here)).bind p.next.run := by
  obtain ⟨width, whole⟩ := exists_ahead eof
  have unmeasured : state.step ⟨p.token 0, p.position 0, width⟩ = state.step p.here := by
    cases state <;> rfl
  rw [run, whole, run_cons_of_ne eof ends, unmeasured]
  rfl

/-- A lexeme is refused if the line may not end with it, or the step on it fails. -/
theorem run_error {state : State} {expected : Expectation}
    (finish : p.token 0 = .endOfInput ∨ p.token 0 = .endOfLine → state.finish = .error expected)
    (step : p.token 0 ≠ .endOfInput → p.token 0 ≠ .endOfLine →
      state.step p.here = .error expected) :
    p.run state = .error (p.error expected) := by
  by_cases eof : p.token 0 = .endOfInput
  · rw [run_of_endOfInput eof, finish (Or.inl eof)]
    rfl
  by_cases ends : p.token 0 = .endOfLine
  · rw [run_of_endOfLine ends, finish (Or.inr ends)]
    rfl
  · rw [run_of_ne eof ends, step eof ends]
    rfl

/-- A lexeme is read. -/
theorem run_step {state next : State} (eof : p.token 0 ≠ .endOfInput)
    (ends : p.token 0 ≠ .endOfLine) (step : state.step p.here = .ok next) :
    p.run state = p.next.run next := by
  rw [run_of_ne eof ends, step]
  rfl

/-! ## Where an item may come next -/

/-- The automaton has read the items `before` of a statement that began at `start`, the last one
first, and no mark comes next that belongs to them. -/
inductive Stands (p : Parser) : State → Pending → Position → List Item → Prop
  | opening (line : Pending) : Stands p (.opening line) line (p.position 0) []
  | labelled (n : Nat) (q : Position) (other : ∀ text, p.token 0 ≠ .comment text) :
      Stands p (.labelled n q) ⟨n, q, [], []⟩ (p.position 0) []
  | within (line : Pending) (start : Position) (last : Item) (before : List Item)
      (settled : last.trailing = none → ∀ c, p.token 0 ≠ .trailing c) :
      Stands p (.within line start last before) line start (last :: before)

theorem item?_eq_none (other : p.startsStatement 0 = false) (line : Pending) (start : Position)
    (before : List Item) : item? line start before p.here = none := by
  unfold item?
  split <;> simp_all [startsStatement, here]

namespace Stands

variable {state : State} {line : Pending} {start : Position} {before : List Item}

/-- The automaton reads an item if there is one. -/
theorem step (h : p.Stands state line start before) {result : Except Expectation State}
    (begun : item? line start before p.here = some result) : state.step p.here = result := by
  cases h with
  | opening =>
    show (item? line _ [] p.here).getD _ = _
    rw [show p.here.position = p.position 0 from rfl, begun]
    rfl
  | labelled n q other =>
    have statement : beginStatement ⟨n, q, [], []⟩ p.here = result := by
      show (item? _ _ [] p.here).getD _ = _
      rw [show p.here.position = p.position 0 from rfl, begun]
      rfl
    simp only [State.step]
    split
    · next text token => exact absurd token (other text)
    · exact statement
  | within _ _ last before =>
    show (item? line start (last :: before) p.here).getD _ = _
    rw [begun]
    rfl

/-- After an item the automaton is in the middle of a statement. -/
theorem eq_within {last : Item} (h : p.Stands state line start (last :: before)) :
    state = .within line start last before := by
  cases h
  rfl

/-- Without an item there is no statement. -/
theorem run_eq_error (h : p.Stands state line start []) (other : p.startsStatement 0 = false) :
    p.run state = .error (p.error .statement) := by
  cases h with
  | opening =>
    refine run_error (fun _ => rfl) fun _ _ => ?_
    show (item? _ _ _ p.here).getD _ = _
    rw [item?_eq_none other]
    rfl
  | labelled n q noComment =>
    refine run_error (fun _ => rfl) fun _ _ => ?_
    simp only [State.step]
    split
    · next text token => exact absurd token (noComment text)
    · show (item? _ _ _ p.here).getD _ = _
      rw [item?_eq_none other]
      rfl

end Stands

/-- After the items of a statement, the automaton takes what comes next for what follows an item. -/
theorem step_within (other : p.startsStatement 0 = false) (line : Pending) (start : Position)
    (last : Item) (before : List Item) :
    (State.within line start last before).step p.here =
      afterItem line start last before (p.token 0) := by
  show (item? _ _ _ p.here).getD _ = _
  rw [item?_eq_none other]
  rfl

/-! ## Items -/

/-- An item without its mark is read like the automaton reads it. -/
def FollowsValue (p : Parser) : Prop :=
  ∀ state line start before, p.Stands state line start before → p.startsStatement 0 = true →
    (∀ k, p.token 0 ≠ .keyword k) →
    Settled (fun e => p.run state = .error e)
      (fun i => i.value.trailing = none ∧
        p.run state = i.rest.run (.within line start i.value before)) p.value

/-- So is one with its mark, and no mark comes next that belongs to it. -/
def FollowsItem (p : Parser) : Prop :=
  ∀ state line start before, p.Stands state line start before → p.startsStatement 0 = true →
    Settled (fun e => p.run state = .error e)
      (fun i => i.rest.Stands (.within line start i.value before) line start (i.value :: before) ∧
        p.run state = i.rest.run (.within line start i.value before)) p.item

/-- So are all items that come next, and no other item comes after them. -/
def FollowsItems (p : Parser) : Prop :=
  ∀ state line start before, p.Stands state line start before →
    Settled (fun e => p.run state = .error e)
      (fun is => is.rest.startsStatement 0 = false ∧ ∃ next,
        is.rest.Stands next line start (is.value.reverse ++ before) ∧
          p.run state = is.rest.run next) p.items

/-- So is a statement. -/
def FollowsStatement (p : Parser) : Prop :=
  ∀ state line, p.Stands state line (p.position 0) [] →
    Settled (fun e => p.run state = .error e)
      (fun s => s.rest.startsStatement 0 = false ∧ ∃ last before,
        (last :: before).reverse = s.value.items ∧
          s.rest.Stands (.within line s.value.position last before) line s.value.position
            (last :: before) ∧
          p.run state = s.rest.run (.within line s.value.position last before)) p.statement

/-- A token that is an item is read. -/
theorem run_atom {state : State} {line : Pending} {start : Position} {before : List Item}
    (h : p.Stands state line start before) {a : Atom} (isAtom : IsAtom (p.token 0) a) :
    p.run state = p.next.run (.within line start (.atom (p.position 0) a none) before) := by
  have begun := item?_of_isAtom (l := p.here) isAtom line start before
  exact run_step isAtom.ne.1 isAtom.ne.2 (h.step begun)

/-- A parenthesis that opens is put on the stack. -/
theorem run_opening {state : State} {line : Pending} {start : Position} {before : List Item}
    (h : p.Stands state line start before) (opens : p.token 0 = .punctuation '(') :
    p.run state = p.next.run (.opening
      { line with frames := ⟨start, before, p.position 0⟩ :: line.frames }) := by
  refine run_step (by simp [opens]) (by simp [opens]) (h.step ?_)
  simp [item?, here, opens]

/-- The parenthesis that closes a statement takes it from the stack, any other lexeme after its
items is refused. -/
theorem run_closing {line : Pending} {start : Position} {last : Item} {before : List Item}
    {frame : Frame} {frames : List Frame} (stack : line.frames = frame :: frames)
    (h : p.Stands (.within line start last before) line start (last :: before))
    (other : p.startsStatement 0 = false) :
    p.run (.within line start last before) =
      if p.token 0 = .punctuation ')' then
        p.next.run (.within { line with frames := frames } frame.start
          (.group frame.parenthesis start (last :: before).reverse none) frame.items)
      else .error (p.error .closingParenthesis) := by
  have settled : last.trailing = none → ∀ c, p.token 0 ≠ .trailing c := by
    cases h
    assumption
  have taken := step_within other line start last before
  split
  · next closes =>
    refine run_step (by simp [closes]) (by simp [closes]) ?_
    rw [taken, closes]
    simp [afterItem, stack]
  · next closes =>
    refine run_error (fun _ => by simp [State.finish, stack]) fun _ _ => ?_
    rw [taken]
    unfold afterItem
    split <;> simp_all

theorem followsValue (p : Parser) (inner : p.token 0 = .punctuation '(' → p.next.FollowsStatement) :
    p.FollowsValue := by
  intro state line start before stands starts noKeyword
  rw [value]
  split
  · next digits token =>
    split
    · next x reads =>
      have isAtom : IsAtom (p.token 0) (.number x) := token ▸ .number reads
      exact .ok ⟨rfl, run_atom stands isAtom⟩
    · next unread =>
      refine .error (run_error (by simp [token]) fun _ _ => stands.step ?_)
      simp [item?, here, token, unread]
  · next name token => exact .ok ⟨rfl, run_atom stands (token ▸ .name name)⟩
  · next body token => exact .ok ⟨rfl, run_atom stands (token ▸ .string body)⟩
  · next opens =>
    rw [run_opening stands opens]
    split
    · refine (inner opens _ _ (.opening _)).bind ?_
      rintro s ⟨other, last, items, content, within, goes⟩
      rw [goes, run_closing rfl within other]
      split
      · next closes => exact .ok ⟨rfl, by rw [content]; rfl⟩
      · exact .error rfl
    · next empty =>
      have other : p.next.startsStatement 0 = false := by
        rw [startsStatement_next (by simp [opens])]
        exact eq_false_of_ne_true empty
      exact .error ((Stands.opening _).run_eq_error other)
  · next noNumber noName noString noOpening =>
    rcases startsStatement_iff.mp starts with
      ⟨k, token⟩ | ⟨s, token⟩ | ⟨s, token⟩ | ⟨s, token⟩ | token
    · exact absurd token (noKeyword k)
    · exact absurd token (noNumber s)
    · exact absurd token (noName s)
    · exact absurd token (noString s)
    · exact absurd token noOpening

/-- An item takes the mark that comes next. -/
theorem run_trailed {line : Pending} {start : Position} {before : List Item} (i : p.Read 1 Item)
    (free : i.value.trailing = none) :
    i.trailed.rest.Stands (.within line start i.trailed.value before) line start
        (i.trailed.value :: before) ∧
      i.rest.run (.within line start i.value before) =
        i.trailed.rest.run (.within line start i.trailed.value before) := by
  unfold Read.trailed
  split
  · next c mark =>
    refine ⟨.within line start _ before fun marked => ?_, ?_⟩
    · have marks : (i.value.trail c).trailing = none := marked
      rw [Item.trailing_trail] at marks
      contradiction
    · have other : i.rest.startsStatement 0 = false := by simp [startsStatement, mark]
      refine run_step (by simp [mark]) (by simp [mark]) ?_
      rw [step_within other, mark]
      unfold afterItem
      simp [free]
  · next noMark => exact ⟨.within line start _ before fun _ => noMark, rfl⟩

theorem followsItem (p : Parser) (inner : p.FollowsValue) : p.FollowsItem := by
  intro state line start before stands starts
  by_cases keyword : ∃ k, p.token 0 = .keyword k
  · obtain ⟨k, token⟩ := keyword
    have isAtom : IsAtom (p.token 0) (.keyword k) := token ▸ .keyword k
    obtain ⟨settled, goes⟩ := @run_trailed p line start before
      (p.take (by simp [token]) (.atom (p.position 0) (.keyword k) none)) rfl
    rw [item_of_keyword token]
    exact .ok ⟨settled, (run_atom stands isAtom).trans goes⟩
  · have noKeyword : ∀ k, p.token 0 ≠ .keyword k := fun k token => keyword ⟨k, token⟩
    rw [item_of_other noKeyword]
    refine (inner state line start before stands starts noKeyword).bind ?_
    rintro i ⟨free, goes⟩
    obtain ⟨settled, onward⟩ := run_trailed i free
    exact .ok ⟨settled, goes.trans onward⟩

theorem followsItems (p : Parser) (first : p.FollowsItem)
    (later : ∀ i : p.Read 1 Item, i.rest.FollowsItems) : p.FollowsItems := by
  intro state line start before stands
  rw [items]
  split
  · next starts =>
    refine (first state line start before stands starts).bind ?_
    rintro i ⟨stands', goes⟩
    rw [goes]
    refine (later i _ _ _ _ stands').bind ?_
    rintro is ⟨other, next, stands'', goes'⟩
    refine .ok ⟨other, next, ?_, goes'⟩
    rw [List.reverse_cons, List.append_assoc]
    exact stands''
  · next other => exact .ok ⟨eq_false_of_ne_true other, state, stands, rfl⟩

theorem followsStatement (p : Parser) (inner : p.FollowsItems) : p.FollowsStatement := by
  intro state line stands
  rw [statement]
  refine (inner state line _ [] stands).bind ?_
  rintro is ⟨other, next, stands', goes⟩
  rw [goes]
  rw [List.append_nil] at stands'
  split
  · next nothing =>
    rw [nothing] at stands'
    exact .error (stands'.run_eq_error other)
  · next some =>
    obtain ⟨last, before, split⟩ := List.exists_cons_of_ne_nil (mt List.reverse_eq_nil_iff.mp some)
    rw [split] at stands'
    obtain rfl := stands'.eq_within
    refine .ok ⟨other, last, before, ?_, stands', rfl⟩
    rw [← split, List.reverse_reverse]

/-! ## Lines -/

/-- The automaton has read all of the line where the parser stands: it may end there, and no other
lexeme is accepted. -/
structure Completes (p : Parser) (final : State) (line : Line) : Prop where
  finish : final.finish = .ok [line]
  refuses : p.token 0 ≠ .endOfInput → p.token 0 ≠ .endOfLine →
    p.run final = .error (p.error .colonOrEndOfLine)

theorem completes_within {n : Nat} {q start : Position} {done : List Statement} {last : Item}
    {before : List Item} (h : p.Stands (.within ⟨n, q, done, []⟩ start last before)
      ⟨n, q, done, []⟩ start (last :: before)) (other : p.startsStatement 0 = false)
    (noColon : p.token 0 ≠ .colon) :
    p.Completes (.within ⟨n, q, done, []⟩ start last before)
      ⟨n, q, .statements (⟨start, (last :: before).reverse⟩ :: done).reverse⟩ := by
  refine ⟨rfl, fun eof ends => ?_⟩
  have settled : last.trailing = none → ∀ c, p.token 0 ≠ .trailing c := by
    cases h
    assumption
  refine run_error (fun end' => ?_) fun _ _ => ?_
  · rcases end' with same | same <;> contradiction
  · rw [step_within other]
    unfold afterItem
    split <;> simp_all

/-- Statements are read like the automaton reads them. -/
theorem follows_statements (p : Parser) : ∀ state n q done,
    p.Stands state ⟨n, q, done, []⟩ (p.position 0) [] →
    Settled (fun e => p.run state = .error e)
      (fun ss => ∃ final,
        ss.rest.Completes final ⟨n, q, .statements (done.reverse ++ ss.value)⟩ ∧
          p.run state = ss.rest.run final) p.statements := by
  induction p using Parser.statements.induct with
  | case1 p ih =>
    intro state n q done stands
    rw [statements]
    refine (statement_induction followsValue followsItem followsItems followsStatement p state _
      stands).bind ?_
    rintro s ⟨other, last, before, content, stands', goes⟩
    rw [goes]
    have same : (⟨s.value.position, (last :: before).reverse⟩ : Statement) = s.value := by
      rw [content]
    split
    · next colon =>
      have onward : s.rest.run (.within ⟨n, q, done, []⟩ s.value.position last before) =
          s.rest.next.run (.opening ⟨n, q, s.value :: done, []⟩) := by
        refine run_step (by simp [colon]) (by simp [colon]) ?_
        rw [step_within other, colon]
        simp [afterItem, content]
      rw [onward]
      refine (ih s colon _ n q (s.value :: done) (.opening _)).bind ?_
      rintro ss ⟨final, completes, goes'⟩
      refine .ok ⟨final, ?_, goes'⟩
      rw [List.reverse_cons, List.append_assoc] at completes
      exact completes
    · next noColon =>
      have completes := completes_within stands' other noColon
      rw [same, List.reverse_cons] at completes
      exact .ok ⟨_, completes, rfl⟩

/-- So is what follows a label. -/
theorem follows_body (p : Parser) (n : Nat) (q : Position) :
    Settled (fun e => p.run (.labelled n q) = .error e)
      (fun b => ∃ final, b.rest.Completes final ⟨n, q, b.value⟩ ∧
        p.run (.labelled n q) = b.rest.run final) p.body := by
  unfold body
  split
  · next text remark =>
    refine .ok ⟨.remarked n q text, ⟨rfl, fun eof ends => ?_⟩, ?_⟩
    · refine run_error (fun end' => ?_) fun _ _ => rfl
      rcases end' with same | same <;> contradiction
    · refine run_step (by simp [remark]) (by simp [remark]) ?_
      simp [State.step, here, remark]
  · next noComment =>
    refine (follows_statements p (.labelled n q) n q [] (.labelled n q noComment)).bind ?_
    rintro ss ⟨final, completes, goes⟩
    exact .ok ⟨final, completes, goes⟩

/-- So is a label. -/
theorem follows_label (p : Parser) (eof : p.token 0 ≠ .endOfInput)
    (ends : p.token 0 ≠ .endOfLine) :
    Settled (fun e => p.run .between = .error e)
      (fun n => p.run .between = n.rest.run (.labelled n.value (p.position 0))) p.label := by
  have refused : State.step p.here .between = .error .lineLabel →
      p.run .between = .error (p.error .lineLabel) := by
    intro fails
    refine run_error (fun end' => ?_) fun _ _ => fails
    rcases end' with same | same <;> contradiction
  by_cases number : ∃ digits, p.token 0 = .number digits
  · obtain ⟨digits, token⟩ := number
    rw [label_of_number token]
    cases label : label? digits with
    | some n =>
      refine .ok (run_step eof ends ?_)
      simp [State.step, here, take, token, label]
    | none =>
      refine .error (refused ?_)
      simp [State.step, here, token, label]
  · have noNumber : ∀ digits, p.token 0 ≠ .number digits := fun s token => number ⟨s, token⟩
    rw [label_of_other noNumber]
    refine .error (refused ?_)
    simp only [State.step]
    split
    · next digits token => exact absurd token (noNumber digits)
    · rfl

/-- So is a line with its end. -/
theorem follows_line (p : Parser) (eof : p.token 0 ≠ .endOfInput) (ends : p.token 0 ≠ .endOfLine) :
    Settled (fun e => p.run .between = .error e)
      (fun l => p.run .between = (l.rest.run .between).map (l.value :: ·)) p.line := by
  unfold line
  refine (follows_label p eof ends).bind fun n goes => ?_
  rw [goes]
  refine (follows_body n.rest n.value (p.position 0)).bind ?_
  rintro b ⟨final, completes, goes'⟩
  rw [goes']
  dsimp only
  split
  · next isEnd =>
    refine .ok ?_
    rw [run_of_endOfLine isEnd, completes.finish]
    rfl
  · next isEnd =>
    refine .ok ?_
    show _ = (b.rest.run .between).map _
    rw [run_of_endOfInput isEnd, run_of_endOfInput isEnd, completes.finish]
    rfl
  · next noEnd noInput => exact .error (completes.refuses noInput noEnd)

/-- So are all lines. -/
theorem lines_eq_run (p : Parser) : p.lines = p.run .between := by
  induction p using Parser.lines.induct with
  | case1 p eof =>
    rw [lines_of_endOfInput eof, run_of_endOfInput eof]
    rfl
  | case2 p ends ih =>
    rw [lines_of_endOfLine ends, run_of_endOfLine ends, ih]
    exact (congrFun Except.map_id _).symm
  | case3 p eof ends ih =>
    rw [lines_of_other eof ends]
    have follows := follows_line p eof ends
    generalize p.line = result at follows ⊢
    cases follows with
    | error fails =>
      rw [fails]
      rfl
    | @ok l goes =>
      rw [goes, ← ih l]
      show (l.rest.lines >>= fun ls => .ok (l.value :: ls)) = _
      cases l.rest.lines <;> rfl

end Parser

/-- What is parsed is what the automaton reads from the start of a line on. -/
theorem parse_eq_run (ls : List Lexeme) : parse ls = Parse.run (Parse.stopOf ls) .between ls :=
  (Parser.ofLexemes ls).lines_eq_run

end CommodoreBasic
