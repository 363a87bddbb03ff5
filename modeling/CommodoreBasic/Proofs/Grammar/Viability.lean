import CommodoreBasic.Proofs.Grammar.Acceptance

/-!
# The parser stops at the first lexeme that no program can have

Lexemes are `Viable` if some program begins with them. The parser neither goes on after lexemes
that are not, nor gives up on lexemes that are: what it blames is the first lexeme that takes the
ones before it out of all programs.

`Passes` is what the automaton does with lexemes that it accepts. From every state it can be led to
the end of a program (`State.completes`), so what has been accepted is viable; a state that refuses
a lexeme refuses it whatever comes next (`Refuses`). The main statement is `viable_up_to_error`.
-/

namespace CommodoreBasic

namespace Parse

/-- Some program begins with the lexemes. -/
def Viable (ls : List Lexeme) : Prop := ∃ more lines, parse (ls ++ more) = .ok lines

/-! ## What is accepted and what is refused -/

/-- The lexemes take one state to the other. The lines that end among them are `lines`. -/
inductive Passes : State → List Lexeme → List Line → State → Prop
  | refl {state : State} : Passes state [] [] state
  | step {state next final : State} {l : Lexeme} {ls : List Lexeme} {lines : List Line}
      (eof : l.token ≠ .endOfInput) (ends : l.token ≠ .endOfLine) (read : state.step l = .ok next)
      (later : Passes next ls lines final) : Passes state (l :: ls) lines final
  | endOfLine {state final : State} {l : Lexeme} {ls : List Lexeme} {first lines : List Line}
      (ends : l.token = .endOfLine) (finished : state.finish = .ok first)
      (later : Passes .between ls lines final) : Passes state (l :: ls) (first ++ lines) final

theorem Passes.trans {a b c : State} {ls ms : List Lexeme} {first second : List Line}
    (h : Passes a ls first b) (later : Passes b ms second c) :
    Passes a (ls ++ ms) (first ++ second) c := by
  induction h with
  | refl => exact later
  | step eof ends read _ ih => exact .step eof ends read (ih later)
  | endOfLine ends finished _ ih =>
    rw [List.append_assoc]
    exact .endOfLine ends finished (ih later)

/-- A run begins with what is accepted and goes on from the state that it leads to. -/
theorem Passes.run_append {state next : State} {ls : List Lexeme} {lines : List Line}
    (h : Passes state ls lines next) (stop : Position) (rest : List Lexeme) :
    run stop state (ls ++ rest) = (run stop next rest).map (lines ++ ·) := by
  induction h with
  | refl => exact (congrFun Except.map_id _).symm
  | step eof ends read _ ih =>
    rw [List.cons_append, run_cons_of_ne eof ends, read]
    exact ih
  | @endOfLine _ final _ _ first lines ends finished _ ih =>
    rw [List.cons_append, run_cons_of_endOfLine ends, finished]
    show (run stop .between _).map _ = _
    rw [ih]
    cases run stop final rest with
    | error e => rfl
    | ok later => exact congrArg Except.ok (List.append_assoc first lines later).symm

/-- No end of input is accepted. -/
theorem Passes.ne_endOfInput {state next : State} {ls : List Lexeme} {lines : List Line}
    (h : Passes state ls lines next) : ∀ l ∈ ls, l.token ≠ .endOfInput := by
  induction h with
  | refl => simp
  | step eof _ _ _ ih =>
    intro m hm
    rcases List.mem_cons.mp hm with rfl | hm
    · exact eof
    · exact ih m hm
  | endOfLine ends _ _ ih =>
    intro m hm
    rcases List.mem_cons.mp hm with rfl | hm
    · simp [ends]
    · exact ih m hm

/-- After an end of line nothing has been read of the next line. -/
theorem Passes.eq_between {state next : State} {ls : List Lexeme} {lines : List Line}
    (h : Passes state ls lines next) {l : Lexeme} (last : ls.getLast? = some l)
    (isEnd : l.token = .endOfLine) : next = .between := by
  induction h with
  | refl => contradiction
  | @step _ _ _ m ls _ eof ends read later ih =>
    cases ls with
    | nil =>
      obtain rfl : m = l := by simpa using last
      contradiction
    | cons m' ls => exact ih (by simpa [List.getLast?_cons_cons] using last)
  | @endOfLine _ _ m ls _ _ ends finished later ih =>
    cases ls with
    | nil =>
      cases later
      rfl
    | cons m' ls => exact ih (by simpa [List.getLast?_cons_cons] using last)

/-- The state has no place for the lexeme, whatever comes after it, and blames it. -/
structure Refuses (state : State) (l : Lexeme) (e : GrammarError) : Prop where
  position : e.position = l.position
  found : e.found = l.token
  fails : ∀ stop rest, run stop state (l :: rest) = .error e

/-- Whoever blames, blames the lexeme that is there. -/
theorem eq_error_of_blame {α : Type} {position : Position} {found : Token}
    {result : Except Expectation α} {e : GrammarError}
    (h : blame position found result = .error e) :
    e.position = position ∧ e.found = found := by
  cases result with
  | ok a => contradiction
  | error expected =>
    cases h
    exact ⟨rfl, rfl⟩

/-- A run fails at its first lexeme, or accepts it and fails later. -/
theorem run_cons_error {stop : Position} {state : State} {l : Lexeme} {ls : List Lexeme}
    {e : GrammarError} (h : run stop state (l :: ls) = .error e) :
    Refuses state l e ∨
      ∃ lines next, Passes state [l] lines next ∧ run stop next ls = .error e := by
  by_cases eof : l.token = .endOfInput
  · have fails : ∀ stop' rest, run stop' state (l :: rest) = .error e := by
      intro stop' rest
      rw [run_cons_of_endOfInput eof] at h ⊢
      exact h
    rw [run_cons_of_endOfInput eof] at h
    obtain ⟨position, found⟩ := eq_error_of_blame h
    exact Or.inl ⟨position, found, fails⟩
  by_cases ends : l.token = .endOfLine
  · rw [run_cons_of_endOfLine ends] at h
    cases finished : state.finish with
    | error expected =>
      rw [finished] at h
      cases h
      refine Or.inl ⟨rfl, rfl, fun stop' rest => ?_⟩
      rw [run_cons_of_endOfLine ends, finished]
      rfl
    | ok first =>
      rw [finished] at h
      have later : Except.map (first ++ ·) (run stop .between ls) = .error e := h
      cases rest : run stop .between ls with
      | ok lines =>
        rw [rest] at later
        contradiction
      | error e' =>
        rw [rest] at later
        cases later
        exact Or.inr ⟨_, .between, .endOfLine ends finished .refl, rest⟩
  · rw [run_cons_of_ne eof ends] at h
    cases read : state.step l with
    | error expected =>
      rw [read] at h
      cases h
      refine Or.inl ⟨rfl, rfl, fun stop' rest => ?_⟩
      rw [run_cons_of_ne eof ends, read]
      rfl
    | ok next =>
      rw [read] at h
      exact Or.inr ⟨[], next, .step eof ends read .refl, h⟩

/-- If a run fails before the lexemes have run out, it has accepted lexemes and refused the one
after them. -/
theorem exists_refused {stop : Position} {state : State} {ls : List Lexeme} {e : GrammarError}
    (eof : ∃ z ∈ ls, z.token = .endOfInput) (h : run stop state ls = .error e) :
    ∃ before l after lines next, ls = before ++ l :: after ∧ Passes state before lines next ∧
      Refuses next l e := by
  induction ls generalizing state with
  | nil =>
    obtain ⟨z, member, -⟩ := eof
    contradiction
  | cons l ls ih =>
    rcases run_cons_error h with refuses | ⟨first, next, accepted, fails⟩
    · exact ⟨[], l, ls, [], state, rfl, .refl, refuses⟩
    · have later : ∃ z ∈ ls, z.token = .endOfInput := by
        obtain ⟨z, member, isEof⟩ := eof
        rcases List.mem_cons.mp member with rfl | member
        · exact absurd isEof (accepted.ne_endOfInput z List.mem_cons_self)
        · exact ⟨z, member, isEof⟩
      obtain ⟨before, m, after, lines, final, rfl, passes, refuses⟩ := ih later fails
      exact ⟨l :: before, m, after, first ++ lines, final, rfl, accepted.trans passes, refuses⟩

/-- If parsing fails before the lexemes have run out, lexemes from the first one on have been
accepted, and the one after them is refused. -/
theorem exists_refused_of_parse {ls : List Lexeme} {e : GrammarError}
    (eof : ∃ z ∈ ls, z.token = .endOfInput) (h : parse ls = .error e) :
    ∃ before l after lines next, ls = before ++ l :: after ∧ Passes .between before lines next ∧
      Refuses next l e := by
  rw [parse_eq_run] at h
  exact exists_refused eof h

/-! ## Every state can be completed -/

/-- Parentheses that are open can be closed, and then the line may end. -/
theorem completes_within (line : Pending) (start : Position) (last : Item) (before : List Item) :
    ∃ ls final lines, Leads (.within line start last before) ls final ∧
      final.finish = .ok lines := by
  obtain ⟨n, p, ss, frames⟩ := line
  induction frames generalizing start last before with
  | nil => exact ⟨[], _, _, .refl _, rfl⟩
  | cons frame frames ih =>
    let group : Item := .group frame.parenthesis start (last :: before).reverse none
    obtain ⟨ls, final, lines, leads, finished⟩ := ih frame.start group frame.items
    have close : Leads (.within ⟨n, p, ss, frame :: frames⟩ start last before)
        [⟨.punctuation ')', .start, 1⟩]
        (.within ⟨n, p, ss, frames⟩ frame.start group frame.items) :=
      .step rfl (by simp) (by simp)
    exact ⟨_ :: ls, final, lines, close.cons leads, finished⟩

/-- Where an item may begin, a name is one. -/
theorem Ready.completes {state : State} {line : Pending} {start : Position} {items : List Item}
    (ready : Ready state line start items ⟨.identifier ['A'], .start, 1⟩) :
    ∃ ls final lines, Leads state ls final ∧ final.finish = .ok lines := by
  have name : Leads state [⟨.identifier ['A'], .start, 1⟩]
      (.within line start (.atom .start (.name ['A']) none) items) :=
    .step (ready _ (item?_of_isAtom (.name ['A']) line start items)) (by simp) (by simp)
  obtain ⟨ls, final, lines, leads, finished⟩ :=
    completes_within line start (.atom .start (.name ['A']) none) items
  exact ⟨_ :: ls, final, lines, name.cons leads, finished⟩

/-- From every state some lexemes lead to where a line may end. -/
theorem State.completes (state : State) :
    ∃ ls final lines, Leads state ls final ∧ final.finish = .ok lines := by
  cases state with
  | between => exact ⟨[], _, _, .refl _, rfl⟩
  | labelled n p => exact (ready_labelled n p _).completes
  | remarked n p text => exact ⟨[], _, _, .refl _, rfl⟩
  | opening line => exact (ready_opening line _).completes
  | within line start last before => exact completes_within line start last before

/-! ## Programs -/

/-- What has been accepted from the start is viable. -/
theorem Passes.viable {ls : List Lexeme} {lines : List Line} {next : State}
    (h : Passes .between ls lines next) : Viable ls := by
  obtain ⟨more, final, last, leads, finished⟩ := next.completes
  refine ⟨more, lines ++ last, ?_⟩
  have ended : run (stopOf (ls ++ more)) next more = .ok last := by
    have led := leads (stopOf (ls ++ more)) []
    have nothing : EndsInput [] := by simp [EndsInput]
    rw [List.append_nil] at led
    rw [led]
    exact run_of_endsInput nothing finished _
  rw [parse_eq_run, h.run_append, ended]
  rfl

/-- What has been accepted, with a lexeme that is refused, is not. -/
theorem Passes.not_viable {ls : List Lexeme} {lines : List Line} {next : State} {l : Lexeme}
    {e : GrammarError} (h : Passes .between ls lines next) (refuses : Refuses next l e) :
    ¬ Viable (ls ++ [l]) := by
  rintro ⟨more, read, parsed⟩
  have failed : run (stopOf (ls ++ [l] ++ more)) .between (ls ++ l :: more) = .error e := by
    rw [h.run_append, refuses.fails]
    rfl
  rw [parse_eq_run, List.append_assoc, List.singleton_append] at parsed
  rw [List.append_assoc, List.singleton_append, parsed] at failed
  contradiction

/-- If lexemes with an end of input among them are not read, the error is about one of them, the
end of input at the latest: some program begins with the lexemes before it, and none begins with
these and it. -/
theorem viable_up_to_error {ls : List Lexeme} {e : GrammarError}
    (eof : ∃ z ∈ ls, z.token = .endOfInput) (h : parse ls = .error e) :
    ∃ before l after, ls = before ++ l :: after ∧ (∀ m ∈ before, m.token ≠ .endOfInput) ∧
      e.position = l.position ∧ e.found = l.token ∧ Viable before ∧ ¬ Viable (before ++ [l]) := by
  obtain ⟨before, l, after, lines, next, split, passes, refuses⟩ :=
    exists_refused_of_parse eof h
  exact ⟨before, l, after, split, passes.ne_endOfInput, refuses.position, refuses.found,
    passes.viable, passes.not_viable refuses⟩

/-- Parentheses with nothing in them are given up at the one that closes. -/
theorem viable_up_to_error_parentheses :
    ∃ e, parse [⟨.number "10".toList, ⟨1, 1⟩, 2⟩, ⟨.punctuation '(', ⟨1, 4⟩, 1⟩,
        ⟨.punctuation ')', ⟨1, 5⟩, 1⟩, ⟨.endOfInput, ⟨1, 6⟩, 0⟩] = .error e ∧
      ∃ before l after, [⟨.number "10".toList, ⟨1, 1⟩, 2⟩, ⟨.punctuation '(', ⟨1, 4⟩, 1⟩,
          ⟨.punctuation ')', ⟨1, 5⟩, 1⟩, ⟨.endOfInput, ⟨1, 6⟩, 0⟩] = before ++ l :: after ∧
        (∀ m ∈ before, m.token ≠ .endOfInput) ∧ e.position = l.position ∧ e.found = l.token ∧
        Viable before ∧ ¬ Viable (before ++ [l]) := by
  have failed : parse [⟨.number "10".toList, ⟨1, 1⟩, 2⟩, ⟨.punctuation '(', ⟨1, 4⟩, 1⟩,
      ⟨.punctuation ')', ⟨1, 5⟩, 1⟩, ⟨.endOfInput, ⟨1, 6⟩, 0⟩] =
      .error ⟨⟨1, 5⟩, .statement, .punctuation ')'⟩ := by
    decide +kernel
  exact ⟨_, failed, viable_up_to_error ⟨⟨.endOfInput, ⟨1, 6⟩, 0⟩, by simp, rfl⟩ failed⟩

end Parse

end CommodoreBasic
