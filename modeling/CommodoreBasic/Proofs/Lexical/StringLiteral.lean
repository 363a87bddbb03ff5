import CommodoreBasic.Lexical.Rule

/-!
# String literals

A string stands in quotes, and a quote inside it gets a backslash. Nothing is done to a backslash,
so one at the end of a body would take the closing quote for its own. `Quotable` says which bodies
can stand in quotes; `Rule.stringBody_escape` and `Rule.stringBody_eq_some` say that these are the
bodies that are read, `Rule.string_eq_ok_iff` that a string is read from what is written for it and
from nothing else, and `Rule.string_eq_error_iff` when a quote opens a string and none closes it.
-/

namespace CommodoreBasic

/-- The text between the quotes of a string: a quote inside it has a backslash before it. -/
def escape (body : Text) : Text := body.flatMap fun c => if c = '"' then ['\\', '"'] else [c]

theorem quote_eq (body : Text) : quote body = '"' :: (escape body ++ ['"']) := rfl

theorem escape_cons (c : Char) (body : Text) :
    escape (c :: body) = (if c = '"' then ['\\', '"'] else [c]) ++ escape body := rfl

/-- What can stand in quotes on a line: no line ends in it, and the quote that closes it is not
taken for one inside it. -/
structure Quotable (body : Text) : Prop where
  line : ∀ c ∈ body, isLineBreak c = false
  last : body.getLast? ≠ some '\\'

theorem quotable_nil : Quotable [] := ⟨by simp, by simp⟩

theorem Quotable.tail {c : Char} {body : Text} (h : Quotable (c :: body)) : Quotable body := by
  refine ⟨fun d hd => h.line d (List.mem_cons_of_mem c hd), fun last => h.last ?_⟩
  rw [List.getLast?_cons, last]
  rfl

/-- A string is read up to the quote that closes it. -/
theorem Rule.stringBody_escape {body : Text} (h : Quotable body) (rest : Text) :
    Rule.stringBody (escape body ++ '"' :: rest) = some (body, (escape body).length + 1) := by
  induction body with
  | nil => rfl
  | cons c body ih =>
    have read := ih h.tail
    have line := h.line c List.mem_cons_self
    by_cases isQuote : c = '"'
    · subst isQuote
      show Rule.stringBody ('\\' :: '"' :: (escape body ++ '"' :: rest)) = _
      rw [Rule.stringBody, read]
      rfl
    · -- a backslash is followed by more of the body, which never begins with a bare quote
      have plain : c = '\\' → ∀ t, escape body ++ '"' :: rest ≠ '"' :: t := by
        rintro rfl t begins
        cases body with
        | nil => exact h.last rfl
        | cons d body =>
          rw [escape_cons] at begins
          by_cases next : d = '"'
          · simp [next] at begins
          · simp [next] at begins
      rw [escape_cons, if_neg isQuote]
      show Rule.stringBody (c :: (escape body ++ '"' :: rest)) = _
      rw [Rule.stringBody.eq_4 _ _ isQuote (fun t hc ht => plain hc t ht), line, read]
      rfl

/-- A string that is read is the escaped form of its body, and the body can stand in quotes. -/
theorem Rule.stringBody_eq_some {s body : Text} {n : Nat}
    (h : Rule.stringBody s = some (body, n)) :
    Quotable body ∧ n = (escape body).length + 1 ∧ ∃ rest, s = escape body ++ '"' :: rest := by
  fun_induction Rule.stringBody s generalizing body n with
  | case1 => simp at h
  | case2 rest =>
    simp only [Option.some.injEq, Prod.mk.injEq] at h
    obtain ⟨rfl, rfl⟩ := h
    exact ⟨quotable_nil, rfl, rest, rfl⟩
  | case3 s ih =>
    simp only [Option.map_eq_some_iff, Prod.exists, Prod.mk.injEq] at h
    obtain ⟨b, m, read, rfl, rfl⟩ := h
    obtain ⟨quotable, rfl, rest, rfl⟩ := ih read
    refine ⟨⟨?_, ?_⟩, rfl, rest, rfl⟩
    · intro d hd
      rcases List.mem_cons.mp hd with rfl | hd
      · rfl
      · exact quotable.line d hd
    · rw [List.getLast?_cons]
      cases last : b.getLast? with
      | none => simp
      | some d => simpa [last] using quotable.last
  | case4 => simp at h
  | case5 c s isQuote escaped line ih =>
    simp only [Option.map_eq_some_iff, Prod.exists, Prod.mk.injEq] at h
    obtain ⟨b, m, read, rfl, rfl⟩ := h
    obtain ⟨quotable, rfl, rest, rfl⟩ := ih read
    have notQuote : c ≠ '"' := isQuote
    refine ⟨⟨?_, ?_⟩, by simp [escape_cons, notQuote], rest, by simp [escape_cons, notQuote]⟩
    · intro d hd
      rcases List.mem_cons.mp hd with rfl | hd
      · simpa using line
      · exact quotable.line d hd
    · rw [List.getLast?_cons]
      cases last : b.getLast? with
      | none =>
        rw [List.getLast?_eq_none_iff] at last
        subst last
        intro backslash
        exact escaped rest (by simpa using backslash) rfl
      | some d => simpa [last] using quotable.last

/-- The characters of a body that can stand in quotes. -/
theorem quotable_iff (body : Text) :
    Quotable body ↔ '\n' ∉ body ∧ '\r' ∉ body ∧ body.getLast? ≠ some '\\' := by
  constructor
  · intro h
    refine ⟨fun feed => ?_, fun ret => ?_, h.last⟩
    · exact absurd (h.line '\n' feed) (by decide)
    · exact absurd (h.line '\r' ret) (by decide)
  · rintro ⟨feed, ret, last⟩
    refine ⟨fun c member => ?_, last⟩
    rw [isLineBreak, Bool.or_eq_false_iff, decide_eq_false_iff_not, decide_eq_false_iff_not]
    exact ⟨fun same => feed (same ▸ member), fun same => ret (same ▸ member)⟩

/-- No quote closes a string that goes on with this text: each one that is left on the line has a
backslash before it, which makes it part of the string. -/
def Unclosed (s : Text) : Prop :=
  ∀ line rest, s = line ++ '"' :: rest → (∀ c ∈ line, isLineBreak c = false) →
    line.getLast? = some '\\'

theorem unclosed_nil : Unclosed [] := by
  intro line rest split
  simp at split

theorem not_unclosed_quote (s : Text) : ¬ Unclosed ('"' :: s) := by
  intro unclosed
  have last := unclosed [] s rfl (by simp)
  contradiction

theorem unclosed_of_isLineBreak {c : Char} (isBreak : isLineBreak c = true) (s : Text) :
    Unclosed (c :: s) := by
  intro line rest split plain
  cases line with
  | nil =>
    cases split
    exact absurd isBreak (by decide)
  | cons d line =>
    cases split
    rw [plain c List.mem_cons_self] at isBreak
    contradiction

/-- An escaped quote closes nothing. -/
theorem unclosed_escaped_iff (s : Text) : Unclosed ('\\' :: '"' :: s) ↔ Unclosed s := by
  constructor
  · rintro unclosed line rest rfl plain
    have last := unclosed ('\\' :: '"' :: line) rest rfl (by simpa [isLineBreak] using plain)
    cases line with
    | nil => exact absurd last (by decide)
    | cons d line => simpa [List.getLast?_cons_cons] using last
  · intro unclosed line rest split plain
    cases line with
    | nil => exact absurd (List.cons.inj split).1 (by decide)
    | cons c line =>
      cases line with
      | nil =>
        cases split
        rfl
      | cons d line =>
        cases split
        have last := unclosed line rest rfl fun e he => plain e (by simp [he])
        rw [List.getLast?_cons, List.getLast?_cons, last]
        rfl

/-- Nor does any other character but a quote. -/
theorem unclosed_cons_iff {c : Char} {s : Text} (other : c ≠ '"')
    (bare : ∀ t, c = '\\' → s ≠ '"' :: t) (plain : isLineBreak c = false) :
    Unclosed (c :: s) ↔ Unclosed s := by
  constructor
  · rintro unclosed line rest rfl inside
    have last := unclosed (c :: line) rest rfl (List.forall_mem_cons.mpr ⟨plain, inside⟩)
    cases line with
    | nil => exact absurd rfl (bare rest (Option.some.inj last))
    | cons d line => rwa [List.getLast?_cons_cons] at last
  · intro unclosed line rest split inside
    cases line with
    | nil => exact absurd (List.cons.inj split).1 other
    | cons d line =>
      obtain ⟨rfl, rfl⟩ := List.cons.inj split
      have last := unclosed line rest rfl (List.forall_mem_cons.mp inside).2
      rw [List.getLast?_cons, last]
      rfl

namespace Rule

/-- The rest of a string is not read exactly if no quote closes it. -/
theorem stringBody_eq_none_iff (s : Text) : stringBody s = none ↔ Unclosed s := by
  fun_induction stringBody s with
  | case1 => exact iff_of_true rfl unclosed_nil
  | case2 s => exact iff_of_false (by simp) (not_unclosed_quote s)
  | case3 s ih => rw [Option.map_eq_none_iff, ih, unclosed_escaped_iff]
  | case4 c s isQuote escaped isBreak => exact iff_of_true rfl (unclosed_of_isLineBreak isBreak s)
  | case5 c s isQuote escaped plain ih =>
    rw [Option.map_eq_none_iff, ih, unclosed_cons_iff isQuote (fun t h same => escaped t h same)
      (by simpa using plain)]

/-- A string is read from what is written for it, and its body can stand in quotes. -/
theorem string_eq_ok_iff {s : Text} {token : Token} {n : Nat} :
    string s = some (.ok (token, n)) ↔
      ∃ body rest, Quotable body ∧ s = quote body ++ rest ∧ token = .string body ∧
        n = (quote body).length := by
  constructor
  · intro h
    unfold string at h
    split at h
    · split at h
      · next read =>
        obtain ⟨quotable, rfl, rest, rfl⟩ := stringBody_eq_some read
        simp only [Option.some.injEq, Except.ok.injEq, Prod.mk.injEq] at h
        obtain ⟨rfl, rfl⟩ := h
        exact ⟨_, rest, quotable, by simp [quote_eq], rfl, by simp [quote_eq]⟩
      · simp at h
    · simp at h
  · rintro ⟨body, rest, quotable, rfl, rfl, rfl⟩
    have whole : quote body ++ rest = '"' :: (escape body ++ '"' :: rest) := by simp [quote_eq]
    rw [whole, string, stringBody_escape quotable]
    simp [quote_eq]

/-- A string is begun and not read exactly if no quote closes it. -/
theorem string_eq_error_iff {s : Text} {fault : LexicalFault} :
    string s = some (.error fault) ↔
      fault = .unterminatedString ∧ ∃ rest, s = '"' :: rest ∧ Unclosed rest := by
  unfold string
  split
  · next s =>
    cases read : stringBody s with
    | none =>
      have unclosed := (stringBody_eq_none_iff s).mp read
      simp [unclosed, eq_comm]
    | some found =>
      have closed : ¬ Unclosed s := by
        rw [← stringBody_eq_none_iff, read]
        simp
      simp [closed]
  · next other =>
    refine iff_of_false (by simp) ?_
    rintro ⟨-, rest, rfl, -⟩
    exact other rest rfl

/-- At the start of what is written for a string, the rule reads this string up to the end of what
is written exactly if no line ends in its body and no backslash ends it. And all that the rule reads
as a string is what is written for such a one. -/
theorem string_spelling_iff :
    (∀ body rest, string ((Token.string body).spelling ++ rest) =
        some (.ok (.string body, (Token.string body).spelling.length)) ↔
      '\n' ∉ body ∧ '\r' ∉ body ∧ body.getLast? ≠ some '\\') ∧
    ∀ s token n, string s = some (.ok (token, n)) ↔
      ∃ body, token = .string body ∧
        ('\n' ∉ body ∧ '\r' ∉ body ∧ body.getLast? ≠ some '\\') ∧
        n = token.spelling.length ∧ s.take n = token.spelling := by
  refine ⟨fun body rest => ?_, fun s token n => ?_⟩
  · rw [← quotable_iff, string_eq_ok_iff]
    constructor
    · rintro ⟨body', rest', quotable, -, same, -⟩
      cases same
      exact quotable
    · intro quotable
      exact ⟨body, rest, quotable, rfl, rfl, rfl⟩
  · rw [string_eq_ok_iff]
    constructor
    · rintro ⟨body, rest, quotable, rfl, rfl, rfl⟩
      exact ⟨body, rfl, (quotable_iff body).mp quotable, rfl, List.take_left⟩
    · rintro ⟨body, rfl, plain, rfl, taken⟩
      have split := (List.take_append_drop (Token.string body).spelling.length s).symm
      rw [taken] at split
      exact ⟨body, _, (quotable_iff body).mpr plain, split, rfl, rfl⟩

end Rule

end CommodoreBasic
