import ContractForge.Proofs.Source.Origin
import ContractForge.Syntax.Parser.Program

/-!
# What parsers do with their tokens

A parser ends in a value or in an error. `Reads` says of a parser what it does from
every state in which given tokens were taken from the input: it ends in a value that
has a property together with all tokens that are then taken, or in an error that the
tokens account for. The bound on the depth of the grammar is no such error, so
what is proved of the productions includes that the bound is never used up.

The rules below follow the ways in which productions are put together. A repetition
ends because every round that goes on takes more tokens.
-/

namespace ContractForge

open List

/-- The token has a text that its class can have. -/
def Token.IsWritten (token : Token) : Prop :=
  token.kind.Spells token.value

namespace Token.IsWritten

variable {token : Token}

theorem keyword {word : Keyword} (written : token.IsWritten) (isWord : token.kind = .keyword word) :
    token.value = word.spelling := by
  rwa [IsWritten, isWord] at written

theorem mark {sign : Mark} (written : token.IsWritten) (isMark : token.kind = .mark sign) :
    token.value = sign.spelling := by
  rwa [IsWritten, isMark] at written

theorem identifier (written : token.IsWritten) (isName : token.kind = .identifier) :
    token.value ≠ "" := by
  rwa [IsWritten, isName] at written

theorem constant (written : token.IsWritten) (isName : token.kind = .constant) :
    token.value ≠ "" := by
  rwa [IsWritten, isName] at written

end Token.IsWritten

/-- The next token, which is the token of the end when no other is left. -/
def ParseState.front (state : ParseState) : Token :=
  state.pending.getD 0 state.last

namespace Parse

variable {α β σ : Type} {state : ParseState}

/-- What a parser is given: tokens, and the limit on digits. -/
structure Input where
  tokens : List Token
  limit : Option Nat

namespace Input

variable (input : Input)

/-- The tokens have texts that their classes can have. -/
def IsWritten : Prop :=
  ∀ token ∈ input.tokens, token.IsWritten

/-- The token is one of the input or stands for its end. -/
def Shows (token : Token) : Prop :=
  token ∈ input.tokens ∨ token.kind = .endOfInput

/-- The errors that the input accounts for. -/
def Allows : ReadError → Prop
  | .invalid _ => True
  | .missingExponent numeral =>
    ∃ token ∈ input.tokens, token.kind = .float ∧ token.value = numeral ∧
      Decimal.parse? numeral.toList = none
  | .tooManyDigits _ =>
    ∃ token ∈ input.tokens, token.kind = .integer ∧ Text.exceeds input.limit token.value.toList
  | .missingDigits _ | .depthExceeded => False

/-- The tokens are those of the input up to its end. -/
def Ends (tokens : List Token) : Prop :=
  ∀ next rest, input.tokens = tokens ++ next :: rest → next.kind = .endOfInput

/-- The state is one of a parser that has taken tokens from the front of the input, but no end. -/
structure Leads (taken : List Token) (state : ParseState) : Prop where
  split : input.tokens = taken ++ state.pending
  inner : ∀ token ∈ taken, token.kind ≠ .endOfInput
  last : state.last.kind = .endOfInput
  limit : state.digitLimit = input.limit

/-- The outcome is an allowed error, or a value with a property of it and of the tokens that are
taken. -/
def Accepts (property : List Token → α → Prop) : Except ReadError (α × ParseState) → Prop
  | .ok (value, after) => ∃ taken, input.Leads taken after ∧ property taken value
  | .error error => input.Allows error

end Input

section

variable {input : Input} {token : Token}

theorem Input.Shows.written (shown : input.Shows token)
    (written : input.IsWritten) : token.IsWritten := by
  obtain mem | isEnd := shown
  · exact written token mem
  · simp [Token.IsWritten, TokenKind.Spells, isEnd]

theorem Input.Shows.mem (shown : input.Shows token)
    (notEnd : token.kind ≠ .endOfInput) : token ∈ input.tokens :=
  shown.resolve_right notEnd

namespace Input.Leads

variable {taken : List Token} {state : ParseState}

section

variable (leads : input.Leads taken state)
include leads

theorem shows_front : input.Shows state.front := by
  obtain ⟨pending, last, _, _, _⟩ := state
  cases pending with
  | nil => exact .inr leads.last
  | cons => exact .inl (by simp [leads.split, ParseState.front])

theorem length_le : taken.length ≤ input.tokens.length := by
  simp [leads.split]

/-- More tokens are taken from the front. -/
theorem take (isPending : state.pending = more ++ rest)
    (inner : ∀ token ∈ more, token.kind ≠ .endOfInput) :
    input.Leads (taken ++ more) { state with pending := rest } :=
  ⟨by rw [leads.split, isPending, append_assoc], forall_mem_append.mpr ⟨leads.inner, inner⟩,
    leads.last, leads.limit⟩

/-- The front is a pending token unless it is the end. -/
theorem takeFront (notEnd : state.front.kind ≠ .endOfInput) :
    input.Leads (taken ++ [state.front]) { state with pending := state.pending.drop 1 } := by
  refine leads.take ?_ (forall_mem_singleton.mpr notEnd)
  obtain ⟨pending, last, _, _, _⟩ := state
  cases pending with
  | nil => exact absurd leads.last notEnd
  | cons => rfl

section

variable {tokens ends : List Token} (isInput : input.tokens = tokens ++ ends)
  (areEnds : ∀ token ∈ ends, token.kind = .endOfInput)
include isInput areEnds

theorem exists_rest : ∃ rest, tokens = taken ++ rest ∧ state.pending = rest ++ ends := by
  obtain ⟨rest, isTokens, isPending⟩ | ⟨more, isTaken, isEnds⟩ :=
    append_eq_append_iff.mp (leads.split.symm.trans isInput)
  · exact ⟨rest, isTokens, isPending⟩
  · cases more with
    | nil => exact ⟨[], by simpa using isTaken.symm, isEnds.symm⟩
    | cons next =>
      exact absurd (areEnds next (by simp [isEnds])) (leads.inner next (by simp [isTaken]))

theorem taken_eq (inner : ∀ token ∈ tokens, token.kind ≠ .endOfInput) (atEnd : input.Ends taken) :
    taken = tokens ∧ state.pending = ends := by
  obtain ⟨rest, isTokens, isPending⟩ := leads.exists_rest isInput areEnds
  cases rest with
  | nil => exact ⟨by simpa using isTokens.symm, isPending⟩
  | cons next rest =>
    have isEnd := atEnd next (rest ++ ends) (by simp [isInput, isTokens])
    exact absurd isEnd (inner next (by simp [isTokens]))

end

end

end Input.Leads

def Input.ofState (state : ParseState) : Input :=
  ⟨state.pending, state.digitLimit⟩

theorem leads_ofState (isEnd : state.last.kind = .endOfInput) :
    (Input.ofState state).Leads [] state :=
  ⟨rfl, nofun, isEnd, rfl⟩

/-- From every state of the input with the token at its front and the tokens taken, the parser ends
in an allowed error or in a value with the property. -/
def ReadsFrom (input : Input) (token : Token) (taken : List Token)
    (property : List Token → α → Prop) (parser : Parse α) : Prop :=
  ∀ state : ParseState, input.Leads taken state → state.front = token →
    input.Accepts property (parser.run state)

/-- The same whatever token is at the front. -/
def Reads (input : Input) (taken : List Token) (property : List Token → α → Prop)
    (parser : Parse α) : Prop :=
  ∀ token, input.Shows token → ReadsFrom input token taken property parser

/-! ### Steps that consume nothing -/

/-- The step gives a value and changes nothing of the input that is left. -/
def Silent (step : Parse α) : Prop :=
  ∀ state : ParseState, ∃ value after, step.run state = .ok (value, after) ∧
    after.pending = state.pending ∧ after.last = state.last ∧ after.digitLimit = state.digitLimit

/-- The test changes nothing, and its answer says something about the next token. -/
def Tells (test : Parse Bool) (yes no : Token → Prop) : Prop :=
  ∀ state : ParseState, ∃ answer, test.run state = .ok (answer, state) ∧
    if answer then yes state.front else no state.front

theorem silent_peek : Silent (peek offset) :=
  fun state => ⟨_, state, rfl, rfl, rfl, rfl⟩

theorem silent_declare : Silent (declare name) :=
  fun _ => ⟨_, _, rfl, rfl, rfl, rfl⟩

theorem tells_at? (kind : TokenKind) :
    Tells (at? kind) (fun token => token.kind = kind) (fun token => token.kind ≠ kind) := by
  intro state
  refine ⟨state.front.kind == kind, rfl, ?_⟩
  split <;> simp_all

theorem tells_atAny :
    Tells (atAny kinds) (fun token => token.kind ∈ kinds) (fun token => token.kind ∉ kinds) := by
  intro state
  refine ⟨kinds.contains state.front.kind, rfl, ?_⟩
  split <;> simp_all

theorem tells_atAttached (mark : Mark) :
    Tells (atAttached mark) (fun token => token.kind = .mark mark) (fun _ => True) := by
  intro state
  refine ⟨state.front.kind == .mark mark && !state.front.spaced, rfl, ?_⟩
  split <;> simp_all

theorem tells_atBlockDo :
    Tells atBlockDo (fun token => token.kind = .keyword .doKw) (fun _ => True) := by
  intro state
  refine ⟨state.front.kind == .keyword .doKw && state.loopHeads == 0, ?_, ?_⟩
  · rfl
  · split <;> simp_all

theorem tells_isLocal : Tells (isLocal name) (fun _ => True) (fun _ => True) :=
  fun state => ⟨state.scopes.any fun scope => scope.contains name, rfl, by split <;> trivial⟩

/-! ### Rules -/

section

variable {token place : Token} {taken : List Token} {property : List Token → β → Prop}

theorem Reads.run (reads : Reads input taken property parser) (leads : input.Leads taken state) :
    input.Accepts property (parser.run state) :=
  reads state.front leads.shows_front state leads rfl

theorem Reads.from (reads : Reads input taken property parser) :
    ReadsFrom input token taken property parser :=
  fun _ leads _ => reads.run leads

theorem readsFrom_pure {value : β} (holds : property taken value) :
    ReadsFrom input token taken property (pure value) :=
  fun _ leads _ => ⟨taken, leads, holds⟩

theorem reads_pure {value : β} (holds : property taken value) :
    Reads input taken property (pure value) :=
  fun _ _ => readsFrom_pure holds

theorem ReadsFrom.bind {next : α → Parse β} (first : ReadsFrom input token taken intermediate step)
    (second : ∀ tokens value, intermediate tokens value →
      Reads input tokens property (next value)) :
    ReadsFrom input token taken property (step >>= next) := by
  intro state leads isFront
  have accepted := first state leads isFront
  rw [StateT.run_bind]
  cases result : step.run state with
  | error =>
    rw [result] at accepted
    exact accepted
  | ok found =>
    rw [result] at accepted
    obtain ⟨tokens, leads, holds⟩ := accepted
    exact (second tokens found.1 holds).run leads

theorem Reads.bind {next : α → Parse β} (first : Reads input taken intermediate step)
    (second : ∀ tokens value, intermediate tokens value →
      Reads input tokens property (next value)) :
    Reads input taken property (step >>= next) :=
  fun token shown => (first token shown).bind second

theorem ReadsFrom.mono (reads : ReadsFrom input token taken stronger parser)
    (implies : ∀ tokens value, stronger tokens value → property tokens value) :
    ReadsFrom input token taken property parser := by
  rw [← bind_pure parser]
  exact reads.bind fun tokens value holds => reads_pure (implies tokens value holds)

theorem Reads.mono (reads : Reads input taken stronger parser)
    (implies : ∀ tokens value, stronger tokens value → property tokens value) :
    Reads input taken property parser :=
  fun token shown => (reads token shown).mono implies

/-- A failure at a token is allowed, and nothing comes after it. -/
theorem readsFrom_failAt (place : Token) :
    ReadsFrom input token taken property (failAt place summary) :=
  fun _ _ _ => trivial

theorem readsFrom_failAt_bind (place : Token) {next : α → Parse β} :
    ReadsFrom input token taken property (failAt place summary >>= next) :=
  fun _ _ _ => trivial

theorem readsFrom_fail_bind {next : α → Parse β} :
    ReadsFrom input token taken property (fail summary >>= next) :=
  fun _ _ _ => trivial

/-- A check that fails at a token, and what follows it. -/
theorem ReadsFrom.guard [Decidable condition]
    {next : Unit → Parse β} (second : ¬condition → ReadsFrom input token taken property (next ())) :
    ReadsFrom input token taken property
      (if condition then failAt place summary >>= next else next ()) := by
  split
  · exact readsFrom_failAt_bind _
  · rename_i fails
    exact second fails

/-- A value at the end of the input, where all tokens up to it are taken. -/
theorem readsFrom_end {value : β} (isEnd : token.kind = .endOfInput)
    (holds : input.Ends taken → property taken value) :
    ReadsFrom input token taken property (pure value) := by
  rintro state leads rfl
  refine ⟨taken, leads, holds fun next rest isSplit => ?_⟩
  have isPending := append_cancel_left (leads.split.symm.trans isSplit)
  rwa [ParseState.front, isPending] at isEnd

theorem ReadsFrom.after {next : α → Parse β} (silent : Silent step)
    (second : ∀ value, ReadsFrom input token taken property (next value)) :
    ReadsFrom input token taken property (step >>= next) := by
  intro state leads isFront
  obtain ⟨value, after, runs, samePending, sameLast, sameLimit⟩ := silent state
  rw [StateT.run_bind, runs]
  refine second value after ⟨?_, leads.inner, ?_, ?_⟩ ?_
  · exact samePending ▸ leads.split
  · exact sameLast ▸ leads.last
  · exact sameLimit ▸ leads.limit
  · rw [ParseState.front, samePending, sameLast]
    exact isFront

theorem Reads.after {next : α → Parse β} (silent : Silent step)
    (second : ∀ value, Reads input taken property (next value)) :
    Reads input taken property (step >>= next) :=
  fun token shown => .after silent fun value => second value token shown

/-- A test whose answer is used. -/
theorem ReadsFrom.ask {next : Bool → Parse β}
    (tells : Tells test yes no)
    (ofYes : yes token → ReadsFrom input token taken property (next true))
    (ofNo : no token → ReadsFrom input token taken property (next false)) :
    ReadsFrom input token taken property (test >>= next) := by
  rintro state leads rfl
  obtain ⟨answer, runs, told⟩ := tells state
  rw [StateT.run_bind, runs]
  cases answer with
  | false => exact ofNo told state leads rfl
  | true => exact ofYes told state leads rfl

/-- A test that decides what comes next. -/
theorem Reads.test {test : Parse Bool} (tells : Tells test yes no)
    (ofYes : ∀ token, input.Shows token → yes token → ReadsFrom input token taken property whenYes)
    (ofNo : Reads input taken property whenNo) :
    Reads input taken property (test >>= fun answer => if answer then whenYes else whenNo) :=
  fun token shown => .ask tells (ofYes token shown) fun _ => ofNo.from

theorem run_current_bind (next : Token → Parse β) (state : ParseState) :
    (Parse.current >>= next).run state = (next state.front).run state :=
  rfl

theorem Reads.current {next : Token → Parse β}
    (second : ∀ token, input.Shows token → ReadsFrom input token taken property (next token)) :
    Reads input taken property (current >>= next) := by
  rintro token shown state leads rfl
  exact second state.front shown state leads rfl

theorem ReadsFrom.advance {next : Token → Parse β} (notEnd : token.kind ≠ .endOfInput)
    (second : Reads input (taken ++ [token]) property (next token)) :
    ReadsFrom input token taken property (advance >>= next) := by
  rintro state leads rfl
  exact second.run (leads.takeFront notEnd)

/-- A token of the expected class is consumed; any other is an error at its place. -/
theorem run_expect (kind : TokenKind) (state : ParseState) :
    (Parse.expect kind detail).run state =
      if state.front.kind = kind then
        .ok (state.front, { state with pending := state.pending.drop 1 })
      else
        let suffix := if detail == "" then "" else ": " ++ detail
        .error (.at s!"Expected {kind.name} but got {described state.front}{suffix}"
          state.front.line state.front.column) := by
  by_cases isKind : state.front.kind = kind
  · have isTrue : (state.front.kind == kind) := by simpa using isKind
    show (if (state.front.kind == kind) = true then Parse.advance else _ :
      Parse Token).run state = _
    rw [if_pos isTrue, if_pos isKind]
    rfl
  · have isFalse : ¬(state.front.kind == kind) := by simpa using isKind
    show (if (state.front.kind == kind) = true then Parse.advance else _ :
      Parse Token).run state = _
    rw [if_neg isFalse, if_neg isKind]
    rfl

/-- A token of a class before the end is consumed. -/
theorem Reads.expect {next : Token → Parse β}
    (notEnd : kind ≠ .endOfInput) (second : ∀ token, input.Shows token → token.kind = kind →
      Reads input (taken ++ [token]) property (next token)) :
    Reads input taken property (expect kind detail >>= next) := by
  rintro token shown state leads rfl
  rw [StateT.run_bind, run_expect]
  by_cases isKind : state.front.kind = kind
  · rw [if_pos isKind]
    exact (second _ shown isKind).run (leads.takeFront (isKind ▸ notEnd))
  · rw [if_neg isKind]
    trivial

/-- Line ends and the like are passed over. -/
theorem Reads.skip {next : Unit → Parse β}
    (inner : .endOfInput ∉ kinds) (second : ∀ skipped, (∀ token ∈ skipped, token.kind ∈ kinds) →
      Reads input (taken ++ skipped) property (next ())) :
    Reads input taken property (skipAll kinds >>= next) := by
  rintro token shown state leads rfl
  let isSkipped (token : Token) : Bool := kinds.contains token.kind
  have isPending : state.pending =
      state.pending.takeWhile isSkipped ++ state.pending.dropWhile isSkipped :=
    takeWhile_append_dropWhile.symm
  have areSkipped : ∀ token ∈ state.pending.takeWhile isSkipped, token.kind ∈ kinds := by
    intro other mem
    simpa [isSkipped] using all_eq_true.mp all_takeWhile other mem
  exact (second _ areSkipped).run (leads.take isPending fun other mem isEnd =>
    inner (isEnd ▸ areSkipped other mem))

/-! ### Repetition and scopes -/

/-- A round goes on with more tokens taken, or ends with a value. -/
def Round.Grows (invariant : List Token → σ → Prop) (property : List Token → β → Prop)
    (count : Nat) (tokens : List Token) : Round σ β → Prop
  | .again state => invariant tokens state ∧ count < tokens.length
  | .done value => property tokens value

theorem Reads.loop (invariant : List Token → σ → Prop) {round : σ → Parse (Round σ β)}
    (ofRound : ∀ tokens state, invariant tokens state →
      Reads input tokens (Round.Grows invariant property tokens.length) (round state))
    (atStart : invariant taken start) :
    Reads input taken property (loop round start) := by
  -- Every round that goes on takes more tokens, so more rounds than pending tokens are never
  -- needed.
  have bounded : ∀ rounds tokens state, input.tokens.length < tokens.length + rounds →
      invariant tokens state → Reads input tokens property (repeatAtMost round rounds state) := by
    intro rounds
    induction rounds with
    | zero =>
      intro _ _ _ _ _ _ _ leads
      have atMost := leads.length_le
      omega
    | succ _ ih =>
      intro tokens state _ holds
      refine (ofRound tokens state holds).bind fun later decided grows => ?_
      cases decided with
      | again next =>
        obtain ⟨kept, _⟩ := grows
        exact ih later next (by omega) kept
      | done => exact reads_pure grows
  rintro token shown state leads isFront
  refine bounded _ taken start ?_ atStart token shown state leads isFront
  simp [leads.split]

section

variable {parser : Parse β} (reads : Reads input taken property parser)

include reads

theorem Reads.inFreshScope : Reads input taken property (inFreshScope parser) := by
  refine .after (fun _ => ⟨_, _, rfl, rfl, rfl, rfl⟩) fun state => ?_
  refine .after (fun _ => ⟨_, _, rfl, rfl, rfl, rfl⟩) fun _ =>
    reads.bind fun tokens value holds => ?_
  exact .after (fun _ => ⟨_, _, rfl, rfl, rfl, rfl⟩) fun _ => reads_pure holds

theorem Reads.inInnerScope : Reads input taken property (inInnerScope parser) := by
  refine .after (fun _ => ⟨_, _, rfl, rfl, rfl, rfl⟩) fun _ =>
    reads.bind fun tokens value holds => ?_
  exact .after (fun _ => ⟨_, _, rfl, rfl, rfl, rfl⟩) fun _ => reads_pure holds

theorem Reads.inLoopHead : Reads input taken property (inLoopHead parser) := by
  refine .after (fun _ => ⟨_, _, rfl, rfl, rfl, rfl⟩) fun _ =>
    reads.bind fun tokens value holds => ?_
  exact .after (fun _ => ⟨_, _, rfl, rfl, rfl, rfl⟩) fun _ => reads_pure holds

theorem Reads.outsideLoopHeads : Reads input taken property (outsideLoopHeads parser) := by
  refine .after (fun _ => ⟨_, _, rfl, rfl, rfl, rfl⟩) fun state => ?_
  refine .after (fun _ => ⟨_, _, rfl, rfl, rfl, rfl⟩) fun _ =>
    reads.bind fun tokens value holds => ?_
  exact .after (fun _ => ⟨_, _, rfl, rfl, rfl, rfl⟩) fun _ => reads_pure holds

end

end

end

end Parse

end ContractForge
