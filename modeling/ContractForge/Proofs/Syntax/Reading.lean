import ContractForge.Proofs.Syntax.ProgramCoverage

/-!
# Reading a text

Reading a text as a program ends in a tree of the grammar of nodes or in an error
of the language, or it stops at a numeral that spells no number. Which numerals
these are is said about the text: a base mark without digits, an exponent mark
without digits and, where the digits of a number are limited, a numeral with more
of them.
-/

namespace ContractForge

open Lexeme

variable {limit : Option Nat} {source : String} {error : ReadError}

/-- How reading a text ends: with a tree that fits the grammar of nodes, or with an error that
the text accounts for. -/
def ReadsAs (limit : Option Nat) (source : String) : Except ReadError Node → Prop
  | .ok program => program.Fits .program
  | .error (.invalid _) => True
  | .error (.missingDigits _) => HasPlace source.toList BareBase
  | .error (.missingExponent _) => HasPlace source.toList BareExponent
  | .error (.tooManyDigits _) => HasPlace source.toList (LongNumeral limit)
  | .error .depthExceeded => False

/-- An error of the words is one of the text. -/
theorem readsAs_of_comesFrom
    (comesFrom : error.ComesFrom limit source.toList) : ReadsAs limit source (.error error) := by
  cases error with
  | invalid => trivial
  | missingDigits => exact ReadsAt.accounted comesFrom (by simp [Plain])
  | missingExponent | depthExceeded => exact comesFrom.elim
  | tooManyDigits => exact ReadsAt.accounted comesFrom (by simp [Plain])

/-- An error that the tokens account for is one of the text. -/
theorem readsAs_of_allows (comeFrom : ∀ token ∈ tokens, token.ComesFrom limit source.toList)
    (allowed : Parse.Input.Allows ⟨tokens, limit⟩ error) : ReadsAs limit source (.error error) := by
  cases error with
  | invalid => trivial
  | missingDigits | depthExceeded => exact allowed.elim
  | missingExponent =>
    obtain ⟨token, mem, isFloat, rfl, unread⟩ := allowed
    obtain isNewline | ⟨_, reads⟩ := comeFrom token mem
    · simp [isFloat] at isNewline
    · exact reads.bareExponent isFloat unread
  | tooManyDigits =>
    obtain ⟨token, mem, isInteger, long⟩ := allowed
    obtain isNewline | ⟨_, reads⟩ := comeFrom token mem
    · simp [isInteger] at isNewline
    · exact reads.longInteger isInteger long

theorem accepts_program {state : ParseState} {depth : Nat} (isEnd : state.last.kind = .endOfInput)
    (isDeep : state.pending.length ≤ depth) :
    let input := Parse.Input.ofState state
    input.Accepts (fun tokens program => (input.IsWritten → program.Fits .program) ∧
      Parse.Covers tokens [program] ∧ input.Ends tokens)
        ((Parse.program (Parse.rulesAt depth)).run state) :=
  (Parse.reads_program (Parse.read_rulesAt _ _) isDeep).run (Parse.leads_ofState isEnd)

section

variable {limit : Option Nat} {source : String} {stream : TokenStream}
  (isEnd : stream.last.kind = .endOfInput)

include isEnd

/-- What is read of tokens is what is read from the state that they start with. -/
theorem accepts_parseTokensWithin (limit : Option Nat) :
    let input : Parse.Input := ⟨stream.pending, limit⟩
    match parseTokensWithin limit stream with
    | .ok program => ∃ taken after, input.Leads taken after ∧
        (input.IsWritten → program.Fits .program) ∧ Parse.Covers taken [program] ∧ input.Ends taken
    | .error error => input.Allows error := by
  have accepted := @accepts_program
    { pending := stream.pending, last := stream.last, digitLimit := limit }
    (stream.pending.length + 1) isEnd (Nat.le_succ _)
  dsimp only [parseTokensWithin]
  cases ran : (Parse.program (Parse.rulesAt (stream.pending.length + 1))).run
      { pending := stream.pending, last := stream.last, digitLimit := limit } with
  | error =>
    rw [ran] at accepted
    exact accepted
  | ok found =>
    rw [ran] at accepted
    obtain ⟨taken, leads, holds⟩ := accepted
    exact ⟨taken, found.2, leads, holds⟩


theorem readsAs_parseTokensWithin
    (comeFrom : ∀ token ∈ stream.pending, token.ComesFrom limit source.toList) :
    ReadsAs limit source (parseTokensWithin limit stream) := by
  have accepted := accepts_parseTokensWithin isEnd limit
  cases parsed : parseTokensWithin limit stream with
  | error =>
    rw [parsed] at accepted
    exact readsAs_of_allows comeFrom accepted
  | ok =>
    rw [parsed] at accepted
    obtain ⟨_, _, -, fits, -⟩ := accepted
    refine fits fun token mem => ?_
    obtain isNewline | ⟨_, reads⟩ := comeFrom token mem
    · simp [Token.IsWritten, TokenKind.Spells, isNewline]
    · exact reads.spells

/-- The tree of a program holds the definitions that its tokens open, and takes its names from
them. -/
theorem covers_of_parseTokensWithin (inner : ∀ token ∈ stream.pending, token.kind ≠ .endOfInput)
    (parsed : parseTokensWithin limit stream = .ok tree) : Parse.Covers stream.pending [tree] := by
  have accepted := accepts_parseTokensWithin isEnd limit
  rw [parsed] at accepted
  obtain ⟨_, _, leads, -, covers, atEnd⟩ := accepted
  obtain ⟨rfl, -⟩ := leads.taken_eq (List.append_nil _).symm nofun inner atEnd
  exact covers

end

/-! ### Consumption -/

namespace Parse

/-- The outcome is an error of the language, or tokens were consumed, at least as many as given, and
the ends behind them were not. -/
def Consumes (tokens ends : List Token) (least : Nat) :
    Except ReadError (Node × ParseState) → Prop
  | .ok (_, after) =>
    ∃ taken rest, tokens = taken ++ rest ∧ least ≤ taken.length ∧ after.pending = rest ++ ends
  | .error error => error ≠ .depthExceeded

section

variable {state : ParseState} {tokens ends : List Token} {depth least : Nat}

theorem ne_depthExceeded {input : Input} (allowed : input.Allows error) :
    error ≠ .depthExceeded := by
  rintro rfl
  exact allowed

theorem consumes_of_accepts (accepted : (Input.ofState state).Accepts property result)
    (isPending : state.pending = tokens ++ ends)
    (areEnds : ∀ token ∈ ends, token.kind = .endOfInput)
    (atLeast : ∀ taken after node, (Input.ofState state).Leads taken after → property taken node →
      least ≤ taken.length) : Consumes tokens ends least result := by
  cases result with
  | error => exact ne_depthExceeded accepted
  | ok found =>
    obtain ⟨taken, leads, holds⟩ := accepted
    obtain ⟨rest, isTokens, isRest⟩ := leads.exists_rest isPending areEnds
    exact ⟨taken, rest, isTokens, atLeast taken _ _ leads holds, isRest⟩

/-- With an end behind the tokens and more depth than tokens, reading always ends, and never behind
the end: a production that others start over with consumes a token, a body may consume none, and a
program consumes all. -/
theorem consumes_program (isPending : state.pending = tokens ++ ends)
    (inner : ∀ token ∈ tokens, token.kind ≠ .endOfInput)
    (areEnds : ∀ token ∈ ends, token.kind = .endOfInput) (isEnd : state.last.kind = .endOfInput)
    (isDeep : state.pending.length < depth) :
    let rules := rulesAt depth
    (∀ production ∈ [rules.expression, rules.expressionStatement, rules.keywordNot, rules.ternary,
        rules.negation, rules.unary], Consumes tokens ends 1 (production.run state)) ∧
      (∀ closers, Consumes tokens ends 0 ((rules.body closers).run state)) ∧
      Consumes tokens ends tokens.length ((program rules).run state) ∧
      parseTokensWithin state.digitLimit ⟨state.pending, state.last⟩ ≠ .error .depthExceeded := by
  have read := read_rulesAt (Input.ofState state) depth
  have consumes {gain : Nat} {role : Role} {parser : Parse Node}
      (reads : ReadsNode (Input.ofState state) depth gain role parser) :
      Consumes tokens ends gain (parser.run state) :=
    consumes_of_accepts ((reads (by simpa [Input.ofState] using isDeep) ⟨.nil, Nat.zero_le _⟩).run
      (leads_ofState isEnd)) isPending areEnds fun _ _ _ _ gets => by simpa using gets.2.atLeast
  refine ⟨?_, fun closers => consumes (read.body closers), ?_, fun failed => ?_⟩
  · simp only [List.forall_mem_cons]
    exact ⟨consumes read.expression, consumes read.expressionStatement, consumes read.keywordNot,
      consumes read.ternary, consumes read.negation, consumes read.unary, nofun⟩
  · refine consumes_of_accepts (accepts_program isEnd (Nat.le_of_lt isDeep)) isPending areEnds
      fun _ _ _ leads holds => ?_
    obtain ⟨rfl, -⟩ := leads.taken_eq isPending areEnds inner holds.2.2
    exact Nat.le_refl _
  · have accepted := @accepts_parseTokensWithin ⟨state.pending, state.last⟩ isEnd state.digitLimit
    rw [failed] at accepted
    exact accepted

end

/-- The tokens of `x = 1 + y`, with the end among those that are pending. -/
theorem consumes_program_name :
    let last : Token := ⟨.endOfInput, "", 1, 10, false⟩
    let tokens : List Token := [⟨.identifier, "x", 1, 1, false⟩, ⟨.mark .eq, "=", 1, 3, true⟩,
      ⟨.integer, "1", 1, 5, true⟩, ⟨.mark .plus, "+", 1, 7, true⟩, ⟨.identifier, "y", 1, 9, true⟩]
    Consumes tokens [last] tokens.length
      ((program (rulesAt 7)).run { pending := tokens ++ [last], last }) :=
  (consumes_program rfl (by decide) (by decide) rfl (by decide)).2.2.1

end Parse

theorem readsAs_parseWithin (limit : Option Nat) (source : String) :
    ReadsAs limit source (parseWithin limit source) := by
  have scanned := scanWithin_comeFrom limit source
  unfold parseWithin
  cases result : scanWithin limit source with
  | error =>
    rw [result] at scanned
    exact readsAs_of_comesFrom scanned
  | ok =>
    rw [result] at scanned
    exact readsAs_parseTokensWithin scanned.1 scanned.2

/-- A numeral is too long for a limit only. -/
theorem limit_of_longNumeral (long : LongNumeral limit text) : ∃ bound, limit = some bound := by
  obtain ⟨_, -, -, long⟩ := long
  cases limit with
  | none => simp [Text.exceeds] at long
  | some bound => exact ⟨bound, rfl⟩

/-- A tree that was read fits the grammar of nodes: the children of every node are those of its
kind, and imports stand directly under the program. A text that is not read breaks a rule of the
language, or it has a numeral that spells no number: a base mark or an exponent mark without
digits or, only where there is a limit, an integer with more digits. -/
theorem parseWithin_wellShaped (limit : Option Nat) (source : String) :
    match parseWithin limit source with
    | .ok program =>
      program.Fits .program ∧ (∀ node ∈ program.walk, ∃ role, node.Fits role) ∧
        ∀ node ∈ program.walk, ∀ child ∈ node.children, child.kind = .importFile →
          node.kind = .program
    | .error (.invalid _) => True
    | .error (.missingDigits _) => HasPlace source.toList BareBase
    | .error (.missingExponent _) => HasPlace source.toList BareExponent
    | .error (.tooManyDigits _) =>
      (∃ bound, limit = some bound) ∧ HasPlace source.toList (LongNumeral limit)
    | .error .depthExceeded => False := by
  have reads := readsAs_parseWithin limit source
  split
  · rename_i program isRead
    have fits : program.Fits .program := by
      rwa [isRead] at reads
    refine ⟨fits, fits.walk, fun node member child isChild isImport => ?_⟩
    obtain ⟨role, nodeFits⟩ := fits.walk node member
    exact nodeFits.program_of_import isChild isImport
  · trivial
  · rename_i isRead
    rwa [isRead] at reads
  · rename_i isRead
    rwa [isRead] at reads
  · rename_i isRead
    rw [isRead] at reads
    obtain ⟨here, isHere, long⟩ := reads
    exact ⟨limit_of_longNumeral long, here, isHere, long⟩
  · rename_i isRead
    rwa [isRead] at reads

end ContractForge
