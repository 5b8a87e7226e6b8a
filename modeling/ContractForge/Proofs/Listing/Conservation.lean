import ContractForge.Proofs.Listing.Idempotence

/-!
# No line is lost

The lines of an improved text are accounted for one by one: each is a line of the text, as it was
or with its arithmetic checked, or a line of the library that was put in (`Accounts`). Every line
of the text is there once. Two lines change sides only if both are in one run of declarations or
both in function bodies, and then in the same one unless functions overlap in part.
-/

namespace ContractForge.Listing

open Text List

variable {span : FunctionSpan} {order : List Nat} {place second : Nat} {lines : List String}
  {check : String → String} {texts : List String}

/-- A line after the passes: one that was there before, by its place, or a new one. -/
inductive Entry where
  | kept (place : Nat)
  | added (text : String)

variable {entries : List Entry}

namespace Entry

/-- Where a line was before. -/
def place? : Entry → Option Nat
  | kept place => some place
  | added _ => none

/-- The text of a line, given how the lines that were there before are written. -/
def text (written : Nat → String) : Entry → String
  | kept place => written place
  | added text => text

end Entry

/-- The lines that were there before, in their order. -/
def placesOf (entries : List Entry) : List Nat :=
  entries.filterMap Entry.place?

@[simp]
theorem placesOf_nil : placesOf [] = [] := rfl

@[simp]
theorem placesOf_kept (place : Nat) (entries : List Entry) :
    placesOf (.kept place :: entries) = place :: placesOf entries := rfl

@[simp]
theorem placesOf_added (text : String) (entries : List Entry) :
    placesOf (.added text :: entries) = placesOf entries := rfl

theorem placesOf_append : placesOf (front ++ back) = placesOf front ++ placesOf back :=
  filterMap_append

theorem placesOf_map_added : placesOf (texts.map .added) = [] := by
  rw [placesOf, filterMap_map, filterMap_eq_nil_iff]
  exact fun _ _ => rfl

/-! ### Counting the lines that were there -/

/-- How many of the lines ahead of a place were there before. -/
def rank (entries : List Entry) (place : Nat) : Nat :=
  (placesOf (entries.take place)).length

section

variable {entries : List Entry} {place : Nat}

@[simp]
theorem rank_zero (entries : List Entry) : rank entries 0 = 0 := rfl

@[simp]
theorem rank_kept (place : Nat) (entries : List Entry) :
    rank (.kept original :: entries) (place + 1) = rank entries place + 1 := rfl

@[simp]
theorem rank_added (place : Nat) (text : String) (entries : List Entry) :
    rank (.added text :: entries) (place + 1) = rank entries place := rfl

theorem rank_le (behind : place ≤ later) : rank entries place ≤ rank entries later := by
  have front : (entries.take place).Sublist (entries.take later) :=
    (take_prefix_take_left behind).sublist
  exact (front.filterMap _).length_le

theorem rank_lt (isThere : entries[place]? = some (.kept original))
    (behind : place < later) : rank entries place < rank entries later := by
  have next : rank entries (place + 1) = rank entries place + 1 := by
    rw [rank, take_add_one, isThere, placesOf, filterMap_append, length_append]
    rfl
  have rest : rank entries (place + 1) ≤ rank entries later := rank_le behind
  rwa [next] at rest

theorem placesOf_rank (isThere : entries[place]? = some (.kept original)) :
    (placesOf entries)[rank entries place]? = some original := by
  obtain ⟨_, isEntry⟩ := List.getElem?_eq_some_iff.mp isThere
  have split : entries = entries.take place ++ .kept original :: entries.drop (place + 1) := by
    rw [← isEntry, List.getElem_cons_drop, List.take_append_drop]
  have places : placesOf entries =
      placesOf (entries.take place) ++ original :: placesOf (entries.drop (place + 1)) := by
    conv_lhs => rw [split]
    rw [placesOf, List.filterMap_append]
    rfl
  rw [places, rank, List.getElem?_append_right (Nat.le_refl _), Nat.sub_self]
  rfl

end

/-! ### Functions -/

/-- Two lines that are alike where functions start and end. -/
structure ReadsAlike (first second : String) : Prop where
  header : functionHeader? first = functionHeader? second
  closing : ∀ header : FunctionHeader, first = header.closing ↔ second = header.closing

theorem functionSpansFrom_of_header (found : functionHeader? line = some header) :
    functionSpansFrom start (line :: rest) =
      ⟨header.name, start, start + 1 + (rest.takeWhile (· != header.closing)).length⟩ ::
        functionSpansFrom (start + 1) rest := by
  rw [functionSpansFrom, found]
  rfl

theorem functionSpansFrom_of_none (found : functionHeader? line = none) :
    functionSpansFrom start (line :: rest) = functionSpansFrom (start + 1) rest := by
  rw [functionSpansFrom, found]

theorem functionSpansFrom_congr {lines others : List String}
    (alike : Forall₂ ReadsAlike lines others) :
    functionSpansFrom start lines = functionSpansFrom start others := by
  have sameBody : ∀ {lines others : List String} (header : FunctionHeader),
      Forall₂ ReadsAlike lines others →
      (lines.takeWhile (· != header.closing)).length =
        (others.takeWhile (· != header.closing)).length := by
    intro lines others header alike
    induction alike with
    | nil => rfl
    | @cons line other lines others same _ ih =>
      have ends : (line != header.closing) = (other != header.closing) := by
        rw [Bool.eq_iff_iff, bne_iff_ne, bne_iff_ne, ne_eq, ne_eq, same.closing]
      simp only [takeWhile_cons, ends]
      split
      · rw [length_cons, length_cons, ih]
      · rfl
  induction alike generalizing start with
  | nil => rfl
  | @cons line other lines others same later ih =>
    cases found : functionHeader? other with
    | none =>
      rw [functionSpansFrom_of_none found, functionSpansFrom_of_none (same.header.trans found), ih]
    | some header =>
      rw [functionSpansFrom_of_header found,
        functionSpansFrom_of_header (same.header.trans found), ih,
        sameBody header later]

theorem getElem?_length_takeWhile
    (inside : (lines.takeWhile (· != closing)).length < lines.length) :
    lines[(lines.takeWhile (· != closing)).length]? = some closing := by
  induction lines with
  | nil => contradiction
  | cons line _ ih =>
    by_cases ends : line = closing
    · simp [ends]
    · rw [takeWhile_cons_of_pos (by simpa using ends)] at inside ⊢
      exact ih (Nat.lt_of_succ_lt_succ inside)

/-- A function starts at a header and ends at its closing brace, or with the listing. -/
theorem frames_of_mem_functionSpans (isSpan : span ∈ functionSpans lines) :
    ∃ header line, lines[span.header]? = some line ∧ functionHeader? line = some header ∧
      (span.closing < lines.length → lines[span.closing]? = some header.closing) := by
  obtain ⟨front, line, rest, header, rfl, isHeader, rfl⟩ := exists_of_mem_functionSpansFrom isSpan
  refine ⟨header, line, by simp, isHeader, fun inside => ?_⟩
  simp only [length_append, length_cons, Nat.zero_add, Nat.add_assoc] at inside ⊢
  rw [getElem?_append_right (Nat.le_add_right _ _), Nat.add_sub_cancel_left, Nat.add_comm 1,
    getElem?_cons_succ]
  exact getElem?_length_takeWhile (by omega)

/-- A function among lines of the library, as it is without them. -/
def FunctionSpan.without (entries : List Entry) (start first : Nat) (span : FunctionSpan) :
    FunctionSpan :=
  ⟨span.name, first + rank entries (span.header - start),
    first + rank entries (span.closing - start)⟩

/-- Every new line is one of the library. -/
def AddsLibrary (entries : List Entry) : Prop :=
  ∀ text, Entry.added text ∈ entries → text ∈ libraryTexts

section

variable {written : Nat → String} {entries : List Entry}

theorem takeWhile_places (library : AddsLibrary entries) (header : FunctionHeader) :
    rank entries ((entries.map (Entry.text written)).takeWhile (· != header.closing)).length =
      (((placesOf entries).map written).takeWhile (· != header.closing)).length := by
  induction entries with
  | nil => rfl
  | cons entry _ ih =>
    have later := ih fun text mem =>
      library text (mem_cons_of_mem _ mem)
    cases entry with
    | kept place =>
      by_cases ends : written place = header.closing
      · simp [Entry.text, ends]
      · simp [Entry.text, ends, later]
    | added text =>
      have differs : text ≠ header.closing := by
        rintro rfl
        exact ne_closing_of_library header (library _ mem_cons_self)
      simp [Entry.text, differs, later]

/-- Lines of the library neither start nor end a function. -/
theorem functionSpansFrom_places (library : AddsLibrary entries) (start first : Nat) :
    functionSpansFrom first ((placesOf entries).map written) =
      (functionSpansFrom start (entries.map (Entry.text written))).map
        (FunctionSpan.without entries start first) := by
  induction entries generalizing start first with
  | nil => rfl
  | cons entry rest ih =>
    have restLibrary : AddsLibrary rest :=
      fun text mem => library text (mem_cons_of_mem _ mem)
    have shifted : ∀ span ∈ functionSpansFrom (start + 1) (rest.map (Entry.text written)),
        span.without rest (start + 1) (first + (placesOf [entry]).length) =
          span.without (entry :: rest) start first := by
      intro span isSpan
      obtain ⟨_, _, -⟩ := functionSpansFrom_bounds isSpan
      have counts : ∀ place, start < place → first + (placesOf [entry]).length +
          rank rest (place - (start + 1)) = first + rank (entry :: rest) (place - start) := by
        intro place later
        have next : place - start = place - (start + 1) + 1 := by omega
        cases entry with
        | kept _ =>
          rw [next, rank_kept]
          simp only [placesOf_kept, placesOf_nil, length_cons, length_nil]
          omega
        | added _ =>
          rw [next, rank_added]
          rfl
      rw [FunctionSpan.without, FunctionSpan.without, counts _ (by omega), counts _ (by omega)]
    have later := ih restLibrary (start + 1) (first + (placesOf [entry]).length)
    rw [map_congr_left shifted] at later
    cases entry with
    | added text =>
      have plain : functionHeader? text = none :=
        (isStatement_of_library text (library text mem_cons_self)).noFunction
      rw [map_cons, Entry.text, functionSpansFrom_of_none plain]
      exact later
    | kept place =>
      rw [placesOf_kept, map_cons, map_cons, Entry.text]
      cases found : functionHeader? (written place) with
      | none =>
        rw [functionSpansFrom_of_none found, functionSpansFrom_of_none found]
        exact later
      | some header =>
        rw [functionSpansFrom_of_header found, functionSpansFrom_of_header found,
          ← takeWhile_places restLibrary header, map_cons]
        generalize ((rest.map (Entry.text written)).takeWhile (· != header.closing)).length = inside
        have next : start + 1 + inside - start = inside + 1 := by omega
        have isHead : FunctionSpan.without (.kept place :: rest) start first
            ⟨header.name, start, start + 1 + inside⟩ =
            ⟨header.name, first, first + 1 + rank rest inside⟩ := by
          simp only [FunctionSpan.without, next, Nat.sub_self, rank_kept]
          congr 1
          omega
        rw [isHead]
        exact congrArg _ later

end

/-! ### From the lines with the library to the lines before -/

/-- How lines are rewritten: not at all, or with their arithmetic checked. -/
def IsRewriting (check : String → String) : Prop :=
  check = id ∨ ∃ unsigned, check = checkLine unsigned

/-- How a listing is rewritten: if it is to be secured and needs it, its arithmetic is checked for
the variables that the listing declares as unsigned. -/
def rewritten (secured : Bool) (lines : List String) : String → String :=
  if secured && needsChecks lines then checkLine (variablesWith holdsUnsigned lines) else id

theorem isRewriting_rewritten : IsRewriting (rewritten secured lines) := by
  unfold rewritten
  split
  · exact .inr ⟨_, rfl⟩
  · exact .inl rfl

theorem IsRewriting.readsAlike (rewriting : IsRewriting check) : ReadsAlike (check line) line := by
  obtain rfl | ⟨unsigned, rfl⟩ := rewriting
  · exact ⟨rfl, fun _ => .rfl⟩
  · refine ⟨functionHeader?_checkLine line, fun header => ?_⟩
    obtain same | ⟨before, after⟩ := checkLine_cases line
    · rw [same]
    · exact iff_of_false (after.ne_closing header) (before.ne_closing header)

theorem declaration?_closing (header : FunctionHeader) : declaration? header.closing = none :=
  declaration?_eq_none_of_last (getLast?_closing header) (by decide)

theorem ReadsAlike.trans {first second third : String} (front : ReadsAlike first second)
    (back : ReadsAlike second third) : ReadsAlike first third :=
  ⟨front.header.trans back.header, fun header => (front.closing header).trans (back.closing header)⟩

/-- Declarations neither start nor end a function. -/
theorem readsAlike_of_isSome {first second : String} (declared : (declaration? first).isSome)
    (other : (declaration? second).isSome) : ReadsAlike first second := by
  obtain ⟨_, isFound⟩ := Option.isSome_iff_exists.mp declared
  obtain ⟨_, isNext⟩ := Option.isSome_iff_exists.mp other
  refine ⟨?_, fun header => iff_of_false ?_ ?_⟩
  · rw [functionHeader?_of_declaration? isFound, functionHeader?_of_declaration? isNext]
  · rintro rfl
    rw [declaration?_closing] at isFound
    contradiction
  · rintro rfl
    rw [declaration?_closing] at isNext
    contradiction

theorem readsAlike_of_near (near : Near text place original) :
    ReadsAlike (text original) (text place) := by
  obtain rfl | run := near
  · exact ⟨rfl, fun _ => .rfl⟩
  · exact readsAlike_of_isSome (run original (by omega) (by omega))
      (run place (by omega) (by omega))

/-- A function does not start or end inside a run of declarations. -/
theorem holds_of_near (isSpan : span ∈ functionSpans lines)
    (near : Near (lineAt lines) place original) (inside : original < lines.length)
    (held : span.Holds place) : span.Holds original := by
  obtain rfl | run := near
  · exact held
  obtain ⟨header, line, isLine, isHeader, ends⟩ := frames_of_mem_functionSpans isSpan
  have noRun : ∀ bound : Nat, declaration? (lineAt lines bound) = none →
      (place ≤ bound ↔ original ≤ bound) ∧ (bound ≤ place ↔ bound ≤ original) := by
    intro bound other
    by_contra crossed
    have declared := run bound (by omega) (by omega)
    rw [other] at declared
    contradiction
  have beforeHeader := noRun span.header (by
    rw [lineAt, List.getD, isLine]
    exact declaration?_of_functionHeader? isHeader)
  unfold FunctionSpan.Holds at *
  by_cases closed : span.closing < lines.length
  · have beforeClosing := noRun span.closing (by
      rw [lineAt, List.getD, ends closed]
      exact declaration?_closing header)
    omega
  · omega

section

variable {lines : List String} {check : String → String} {entries : List Entry}
  (rewriting : IsRewriting check) (library : AddsLibrary entries)
  (runOrder : RunOrder (lineAt lines) 0 lines.length (placesOf entries))

/-- How a line of the listing is written after its arithmetic is checked. -/
abbrev written (check : String → String) (lines : List String) (place : Nat) : String :=
  check (lineAt lines place)

abbrev textsOf (check : String → String) (lines : List String) (entries : List Entry) :
    List String :=
  entries.map (Entry.text (written check lines))

include rewriting library runOrder in
/-- The functions of a listing are those of the listing with the library in it. -/
theorem functionSpans_eq : functionSpans lines =
    (functionSpans (textsOf check lines entries)).map (FunctionSpan.without entries 0 0) := by
  have alike : Forall₂ ReadsAlike ((placesOf entries).map (written check lines))
      ((List.range' 0 lines.length).map (lineAt lines)) := by
    rw [forall₂_map_left_iff, forall₂_map_right_iff]
    exact runOrder.near.flip.imp fun original place near =>
      rewriting.readsAlike.trans (readsAlike_of_near near)
  rw [← range_eq_range', map_lineAt_range] at alike
  rw [functionSpans, functionSpans, ← functionSpansFrom_places library 0 0]
  exact (functionSpansFrom_congr alike).symm

include library in
/-- The header of a function was there before, and so was its closing brace. -/
theorem kept_of_span (isSpan : span ∈ functionSpans (textsOf check lines entries)) :
    (∃ original, entries[span.header]? = some (.kept original)) ∧
      (span.closing < entries.length →
        ∃ original, entries[span.closing]? = some (.kept original)) := by
  obtain ⟨header, _, isLine, isHeader, ends⟩ := frames_of_mem_functionSpans isSpan
  rw [length_map] at ends
  have kept {place : Nat} {line : String} (other : line ∉ libraryTexts)
      (isLine : (textsOf check lines entries)[place]? = some line) :
      ∃ original, entries[place]? = some (.kept original) := by
    rw [getElem?_map] at isLine
    obtain ⟨entry, isEntry, rfl⟩ := Option.map_eq_some_iff.mp isLine
    cases entry with
    | kept original => exact ⟨original, isEntry⟩
    | added text => exact absurd (library text (mem_of_getElem? isEntry)) other
  refine ⟨kept (fun isNew => ?_) isLine, fun inside =>
    kept (ne_closing_of_library header) (ends inside)⟩
  rw [(isStatement_of_library _ isNew).noFunction] at isHeader
  contradiction

include rewriting library runOrder in
/-- What is in a body with the library in it was in the body before. -/
theorem holds_without {span : FunctionSpan}
    (isSpan : span ∈ functionSpans (textsOf check lines entries)) {place original : Nat}
    (isThere : entries[place]? = some (.kept original)) (held : span.Holds place) :
    span.without entries 0 0 ∈ functionSpans lines ∧ (span.without entries 0 0).Holds original := by
  have isBefore : span.without entries 0 0 ∈ functionSpans lines := by
    rw [functionSpans_eq rewriting library runOrder]
    exact List.mem_map_of_mem isSpan
  obtain ⟨⟨_, isHeader⟩, -⟩ := kept_of_span library isSpan
  have isPlace := placesOf_rank isThere
  obtain ⟨inside, isOriginal⟩ := List.getElem?_eq_some_iff.mp isPlace
  have ofRank : (span.without entries 0 0).Holds (rank entries place) := by
    simp only [FunctionSpan.Holds, FunctionSpan.without, Nat.zero_add, Nat.sub_zero]
    exact ⟨rank_lt isHeader held.1, rank_lt isThere held.2⟩
  have isNear := runOrder.near.get (runOrder.perm.length_eq ▸ inside) inside
  simp only [List.get_eq_getElem, List.getElem_range', Nat.one_mul, Nat.zero_add, isOriginal]
    at isNear
  have isLine := runOrder.perm.mem_iff.mp (List.mem_of_getElem? isPlace)
  exact ⟨isBefore, holds_of_near isBefore isNear (by simpa using isLine) ofRank⟩

include rewriting library runOrder in
/-- The library does not make functions overlap. -/
theorem nest_of_nest (nest : Nest (functionSpans lines)) :
    Nest (functionSpans (textsOf check lines entries)) := by
  rw [functionSpans_eq rewriting library runOrder] at nest
  rintro earlier isEarlier later isLater ⟨headers, starts, ends⟩
  obtain ⟨⟨_, isFirst⟩, isClosed⟩ := kept_of_span library isEarlier
  obtain ⟨⟨_, isSecond⟩, -⟩ := kept_of_span library isLater
  have within := (functionSpans_within isLater).2
  rw [length_map] at within
  obtain ⟨_, isThird⟩ := isClosed (by omega)
  refine nest _ (mem_map_of_mem isEarlier) _ (mem_map_of_mem isLater) ?_
  simp only [FunctionSpan.Overlaps, FunctionSpan.without, Nat.zero_add, Nat.sub_zero]
  exact ⟨rank_lt isFirst headers, rank_lt isSecond starts, rank_lt isThird ends⟩

include rewriting library runOrder in
/-- Lines of a chain of bodies were in bodies before, and in one if functions nest. -/
theorem exists_bodies_of_chained (differ : place ≠ other)
    (isThere : entries[place]? = some (.kept original))
    (isOther : entries[other]? = some (.kept second))
    (chained : Chained (functionSpans (textsOf check lines entries)) place other) :
    (∃ span ∈ functionSpans lines, span.Holds original) ∧
      (∃ span ∈ functionSpans lines, span.Holds second) ∧
      (Nest (functionSpans lines) → InOneBody (functionSpans lines) original second) := by
  have before := @holds_without _ _ _ rewriting library runOrder
  refine ⟨?_, ?_, fun nest => ?_⟩
  · obtain same | ⟨_, isSpan, held⟩ := chained.eq_or_holds
    · contradiction
    · exact ⟨_, before isSpan isThere held⟩
  · obtain same | ⟨_, isSpan, held⟩ := chained.symm.eq_or_holds
    · exact absurd same.symm differ
    · exact ⟨_, before isSpan isOther held⟩
  · obtain same | ⟨_, isSpan, held, otherHeld⟩ :=
      inOneBody_of_chained (nest_of_nest rewriting library runOrder nest) chained
    · contradiction
    · obtain ⟨isBefore, ofFirst⟩ := before isSpan isThere held
      exact ⟨_, isBefore, ofFirst, (before isSpan isOther otherHeld).2⟩

end

/-! ### The account of a listing -/

/-- Two lines of a listing may change sides: in a run of declarations, or in function bodies, and
then in the same one if functions follow one another or lie within one another. -/
def MayCross (lines : List String) (first second : Nat) : Prop :=
  InOneRun (lineAt lines) first second ∨
    (∃ span ∈ functionSpans lines, span.Holds first) ∧
      (∃ span ∈ functionSpans lines, span.Holds second) ∧
      (Nest (functionSpans lines) → InOneBody (functionSpans lines) first second)

/-- A contract needs the library: a line before the next header is rewritten, and the line below
the header does not attach it. -/
def NeedsLibrary (check : String → String) (header : String) (rest : List String) : Prop :=
  isContractHeader header = true ∧
    (∃ line ∈ rest.takeWhile fun line => !isContractHeader line, check line ≠ line) ∧
    ∀ next ∈ rest.head?, trimmedLine (check next) ≠ libraryUse

/-- The lines of a listing, with the library attached below the headers of the contracts that
need it. -/
inductive Attached (check : String → String) (text : Nat → String) :
    List Nat → List Entry → Prop where
  | nil : Attached check text [] []
  | keep {place : Nat} {rest : List Nat} {entries : List Entry}
      (unneeded : ¬ NeedsLibrary check (text place) (rest.map text))
      (attached : Attached check text rest entries) :
      Attached check text (place :: rest) (.kept place :: entries)
  | attach {place : Nat} {rest : List Nat} {entries : List Entry} {blank : List String}
      (needed : NeedsLibrary check (text place) (rest.map text)) (isBlank : blank ⊆ [""])
      (atMostOne : blank.length ≤ 1) (attached : Attached check text rest entries) :
      Attached check text (place :: rest)
        (.kept place :: .added ("    " ++ libraryUse) :: (blank.map .added ++ entries))

/-- Lines with at most one import of the library put in. -/
inductive Imported (text : Nat → String) : List Entry → List Entry → Prop where
  | keep (entries : List Entry) : Imported text entries entries
  | add {front back : List Entry} {blank : List String}
      (missing : ∀ entry ∈ front ++ back, entry.text text ≠ libraryImport)
      (isBlank : blank ⊆ [""]) (atMostOne : blank.length ≤ 1) :
      Imported text (front ++ back) (front ++ (blank.map .added ++ .added libraryImport :: back))

/-- The lines in the order that moving updates gives them. -/
def inOrder (entries : List Entry) (order : List Nat) : List Entry :=
  order.map fun place => entries.getD place (.added "")

/-- How the lines after the passes come from those before: how they are rewritten, where lines of
the library are put in, and in which order they are in the end. After the library is put in, all
lines, those of the library among them, move only inside function bodies, and not at all in a
listing that is not secured. -/
structure Accounts (secured : Bool) (lines : List String) (check : String → String)
    (inserted result : List Entry) : Prop where
  rewriting : check = rewritten secured ((placesOf inserted).map (lineAt lines))
  library : ∃ attached, Attached check (lineAt lines) (placesOf inserted) attached ∧
    Imported (written check lines) attached inserted
  unchecked : (secured && needsChecks ((placesOf inserted).map (lineAt lines))) = false →
    inserted = (placesOf inserted).map .kept
  moved : ∃ order, BodyOrder (functionSpans (textsOf check lines inserted)) inserted.length order ∧
    result = inOrder inserted order
  unmoved : secured = false → result = inserted
  complete : (placesOf result).Perm (List.range lines.length)
  sides : (placesOf result).Pairwise fun first second =>
    second < first → MayCross lines second first

/-! ### Putting the library in -/

theorem exists_change_iff : changesBeforeHeader (lines.map fun line => (line, check line)) ↔
      ∃ line ∈ lines.takeWhile fun line => !isContractHeader line, check line ≠ line := by
  induction lines with
  | nil => simp [changesBeforeHeader]
  | cons line _ ih =>
    rw [map_cons, changesBeforeHeader]
    cases isHeader : isContractHeader line with
    | true => simp [isHeader]
    | false =>
      rw [takeWhile_cons_of_pos (by simp [isHeader]), exists_mem_cons_iff, ← ih, ne_comm]
      simp

theorem exists_attached (text : Nat → String) (order : List Nat) :
    ∃ entries, Attached (checkLine unsigned) text order entries ∧
      entries.map (Entry.text fun place => checkLine unsigned (text place)) =
        attachLibrary ((order.map text).map fun line => (line, checkLine unsigned line)) := by
  induction order with
  | nil => exact ⟨[], .nil, rfl⟩
  | cons place rest ih =>
    obtain ⟨_, attached, areTexts⟩ := ih
    rw [map_cons, map_cons, attachLibrary]
    split
    · rename_i changed
      obtain ⟨isHeader, changes⟩ := Bool.and_eq_true_iff.mp changed
      have inContract := exists_change_iff.mp changes
      obtain ⟨next, others, isRest⟩ : ∃ next others, rest.map text = next :: others := by
        cases texts : rest.map text with
        | nil => simp [texts] at inContract
        | cons next others => exact ⟨next, others, rfl⟩
      rw [libraryLines_eq ((isContractHeader_checkLine _).trans isHeader)]
      have isNext : (((rest.map text).map fun line =>
          (line, checkLine unsigned line)).head?.map Prod.snd).getD "" =
          checkLine unsigned next := by
        rw [isRest]
        rfl
      rw [isNext, ← areTexts]
      by_cases isThere : trimmedLine (checkLine unsigned next) = libraryUse
      · refine ⟨_, .keep (fun needed => ?_) attached, by simp [isThere, Entry.text]⟩
        exact needed.2.2 next (by rw [isRest]; rfl) isThere
      · have needed : NeedsLibrary (checkLine unsigned) (text place) (rest.map text) := by
          refine ⟨isHeader, inContract, fun other isOther => ?_⟩
          rw [isRest] at isOther
          cases isOther
          exact isThere
        rw [if_neg isThere]
        by_cases isLast : trimmedLine (checkLine unsigned next) = "\x7d"
        · exact ⟨_, .attach needed (nil_subset _) (by simp) attached, by simp [isLast, Entry.text]⟩
        · exact ⟨_, .attach needed (Subset.refl [""]) (by simp) attached,
            by simp [isLast, Entry.text]⟩
    · rename_i unchanged
      refine ⟨_, .keep (fun needed => unchanged ?_) attached, by simp [Entry.text, areTexts]⟩
      exact Bool.and_eq_true_iff.mpr ⟨needed.1, exists_change_iff.mpr needed.2.1⟩

/-- The import stands in front of everything or behind a pragma. -/
theorem exists_import (lines : List String) :
    ∃ front back blank, lines = front ++ back ∧ blank ⊆ [""] ∧ blank.length ≤ 1 ∧
      (importLibrary lines).getD (libraryImport :: lines) =
        front ++ (blank ++ libraryImport :: back) := by
  induction lines with
  | nil => exact ⟨[], [], [], rfl, nil_subset _, by simp, rfl⟩
  | cons line rest ih =>
    unfold importLibrary
    split
    · have below : ∃ front back blank, line :: rest = front ++ back ∧ blank ⊆ [""] ∧
          blank.length ≤ 1 ∧ line :: "" :: libraryImport :: rest =
            front ++ (blank ++ libraryImport :: back) :=
        ⟨[line], rest, [""], rfl, Subset.refl _, by simp, rfl⟩
      split
      · rename_i first second others
        split
        · exact ⟨[line, first], second :: others, [], rfl, nil_subset _, by simp, rfl⟩
        · exact below
      · exact below
    · obtain ⟨front, back, blank, isRest, isBlank, atMostOne, isImport⟩ := ih
      cases found : importLibrary rest with
      | none => exact ⟨[], line :: rest, [], rfl, nil_subset _, by simp, rfl⟩
      | some =>
        rw [found, Option.getD_some] at isImport
        refine ⟨line :: front, back, blank, by rw [isRest]; rfl, isBlank, atMostOne, ?_⟩
        rw [Option.map_some, Option.getD_some, isImport]
        rfl

theorem exists_imported (text : Nat → String) (entries : List Entry) :
    ∃ complete, Imported text entries complete ∧
      complete.map (Entry.text text) =
        if (entries.map (Entry.text text)).contains libraryImport then entries.map (Entry.text text)
        else (importLibrary (entries.map (Entry.text text))).getD
          (libraryImport :: entries.map (Entry.text text)) := by
  split
  · exact ⟨entries, .keep entries, rfl⟩
  · rename_i missing
    obtain ⟨_, _, _, isTexts, isBlank, atMostOne, isImport⟩ :=
      exists_import (entries.map (Entry.text text))
    obtain ⟨_, _, rfl, rfl, rfl⟩ := map_eq_append_iff.mp isTexts
    refine ⟨_, .add (fun entry mem same => missing ?_) isBlank atMostOne, ?_⟩
    · rw [contains_iff_mem]
      exact same ▸ mem_map_of_mem mem
    · rw [isImport]
      simp [Entry.text, Function.comp_def]

theorem Attached.placesOf_eq (attached : Attached check text order entries) :
    placesOf entries = order := by
  induction attached with
  | nil => rfl
  | keep _ _ ih => rw [placesOf_kept, ih]
  | attach _ _ _ _ ih =>
    rw [placesOf_kept, placesOf_added, placesOf_append, placesOf_map_added, nil_append, ih]

theorem Imported.placesOf_eq
    (imported : Imported text entries complete) : placesOf complete = placesOf entries := by
  cases imported with
  | keep => rfl
  | add =>
    rw [placesOf_append, placesOf_append, placesOf_map_added, placesOf_added, placesOf_append,
      nil_append]

theorem Attached.addsLibrary (attached : Attached check text order entries) :
    AddsLibrary entries := by
  induction attached with
  | nil => exact fun _ mem => absurd mem not_mem_nil
  | keep _ _ ih =>
    intro new mem
    exact ih new (by simpa using mem)
  | @attach place rest entries blank needed isBlank atMostOne attached ih =>
    intro new mem
    simp only [mem_cons, mem_append, mem_map, reduceCtorEq, false_or, Entry.added.injEq] at mem
    obtain rfl | ⟨_, isText, rfl⟩ | later := mem
    · decide
    · exact mem_cons.mpr (.inl (mem_singleton.mp (isBlank isText)))
    · exact ih new later

theorem Imported.addsLibrary
    (imported : Imported text entries complete) (library : AddsLibrary entries) :
    AddsLibrary complete := by
  cases imported with
  | keep => exact library
  | @add front back blank missing isBlank atMostOne =>
    intro new mem
    simp only [mem_append, mem_cons, mem_map, Entry.added.injEq] at mem
    obtain inFront | ⟨_, isText, rfl⟩ | rfl | inBack := mem
    · exact library new (mem_append_left _ inFront)
    · exact mem_cons.mpr (.inl (mem_singleton.mp (isBlank isText)))
    · decide
    · exact library new (mem_append_right _ inBack)

theorem attached_id (text : Nat → String) (order : List Nat) :
    Attached id text order (order.map .kept) := by
  induction order with
  | nil => exact .nil
  | cons _ _ ih =>
    refine .keep ?_ ih
    rintro ⟨-, ⟨_, -, changed⟩, -⟩
    exact changed rfl

/-- The listing with its arithmetic checked: every line is there, and the library was put in. -/
theorem exists_inserted (lines : List String) (order : List Nat) :
    let packed := order.map (lineAt lines)
    let check := rewritten true packed
    ∃ inserted, placesOf inserted = order ∧ AddsLibrary inserted ∧
      (∃ attached, Attached check (lineAt lines) order attached ∧
        Imported (written check lines) attached inserted) ∧
      (needsChecks packed = false → inserted = order.map .kept) ∧
      (checkArithmetic packed).1 = textsOf check lines inserted := by
  intro packed check
  cases needed : needsChecks packed with
  | false =>
    have isId : check = id := by simp [check, rewritten, needed]
    have attached := attached_id (lineAt lines) order
    rw [isId]
    refine ⟨order.map .kept, attached.placesOf_eq, attached.addsLibrary, ⟨_, attached, .keep _⟩,
      fun _ => rfl, ?_⟩
    rw [checkArithmetic_unneeded needed, textsOf, map_map]
    rfl
  | true =>
    have isCheck : check = checkLine (variablesWith holdsUnsigned packed) := by
      simp [check, rewritten, needed]
    obtain ⟨unchecked, changes⟩ := Bool.and_eq_true_iff.mp needed
    rw [Bool.not_eq_true'] at unchecked
    rw [changesBehind, ← changesContract_eq] at changes
    rw [isCheck]
    obtain ⟨entries, attached, areTexts⟩ := exists_attached (lineAt lines) order
    obtain ⟨complete, imported, areComplete⟩ := exists_imported
      (written (checkLine (variablesWith holdsUnsigned packed)) lines) entries
    refine ⟨complete, imported.placesOf_eq.trans attached.placesOf_eq,
      imported.addsLibrary attached.addsLibrary, ⟨entries, attached, imported⟩,
      fun unneeded => Bool.noConfusion unneeded, ?_⟩
    refine Eq.trans ?_ areComplete.symm
    rw [areTexts, checkArithmetic]
    simp only [unchecked, changes, packed, Bool.false_eq_true, if_false, Bool.not_true]

/-! ### All passes -/

section

variable {lines : List String} {check : String → String} {inserted : List Entry} {order : List Nat}

theorem textsOf_inOrder (below : ∀ place ∈ order, place < inserted.length) :
    textsOf check lines (inOrder inserted order) =
      order.map (lineAt (textsOf check lines inserted)) := by
  rw [textsOf, inOrder, map_map]
  refine map_congr_left fun place mem => ?_
  have inside := below place mem
  simp [lineAt, inside]

section

variable (rewriting : IsRewriting check) (library : AddsLibrary inserted)
  (runOrder : RunOrder (lineAt lines) 0 lines.length (placesOf inserted))
  (bodyOrder : BodyOrder (functionSpans (textsOf check lines inserted)) inserted.length order)
include rewriting library runOrder bodyOrder

/-- Lines that moving updates exchanges were in function bodies, and lines that packing exchanges
were in a run of declarations. -/
theorem pairwise_inOrder :
    (placesOf (inOrder inserted order)).Pairwise
      fun first second => second < first → MayCross lines second first := by
  have distinct : order.Pairwise (· ≠ ·) := bodyOrder.perm.nodup_iff.mpr nodup_range
  rw [placesOf, inOrder, pairwise_filterMap, pairwise_map]
  refine (bodyOrder.pairwise.and distinct).imp_of_mem ?_
  rintro place other isPlace isOther ⟨chained, differ⟩ first isFirst second isSecond crossed
  have isThere : ∀ {place original : Nat}, place ∈ order →
      (inserted.getD place (.added "")).place? = some original →
      inserted[place]? = some (.kept original) := by
    intro place original mem isKept
    have inside : place < inserted.length := by simpa using bodyOrder.perm.mem_iff.mp mem
    rw [List.getD, getElem?_eq_getElem inside, Option.getD_some] at isKept
    rw [getElem?_eq_getElem inside]
    cases entry : inserted[place] with
    | kept _ =>
      rw [entry] at isKept
      cases isKept
      rfl
    | added _ =>
      rw [entry] at isKept
      contradiction
  have atPlace := isThere isPlace isFirst
  have atOther := isThere isOther isSecond
  obtain before | before := Nat.lt_or_gt_of_ne differ
  · obtain ⟨inside, isRank⟩ := List.getElem?_eq_some_iff.mp (placesOf_rank atPlace)
    obtain ⟨otherInside, otherRank⟩ := List.getElem?_eq_some_iff.mp (placesOf_rank atOther)
    have run := pairwise_iff_getElem.mp runOrder.pairwise _ _ inside otherInside
      (rank_lt atPlace before)
    rw [isRank, otherRank] at run
    exact .inl (run crossed)
  · exact .inr (exists_bodies_of_chained rewriting library runOrder differ.symm atOther atPlace
      (chained before))

/-- The account of a listing whose lines are in a packed order, with its updates moved. -/
theorem accounts_of_orders
    (isCheck : check = rewritten secured ((placesOf inserted).map (lineAt lines)))
    (isAttached : ∃ attached, Attached check (lineAt lines) (placesOf inserted) attached ∧
      Imported (written check lines) attached inserted)
    (unchecked : (secured && needsChecks ((placesOf inserted).map (lineAt lines))) = false →
      inserted = (placesOf inserted).map .kept)
    (unmoved : secured = false → inOrder inserted order = inserted) :
    Accounts secured lines check inserted (inOrder inserted order) where
  rewriting := isCheck
  library := isAttached
  unchecked := unchecked
  moved := ⟨order, bodyOrder, rfl⟩
  unmoved := unmoved
  complete := by
    have perm := bodyOrder.perm.map fun place => inserted.getD place (.added "")
    rw [map_getD_range] at perm
    have runs := runOrder.perm
    rw [← range_eq_range'] at runs
    exact (perm.filterMap Entry.place?).trans runs
  sides := pairwise_inOrder rewriting library runOrder bodyOrder

end

end

/-- A listing is accounted for by the lines of another. -/
def Conserves (secured : Bool) (lines others : List String) : Prop :=
  ∃ check inserted result, Accounts secured lines check inserted result ∧
    others = textsOf check lines result

theorem conserves_runOrder (runOrder : RunOrder (lineAt lines) 0 lines.length order) :
    Conserves false lines (order.map (lineAt lines)) := by
  have attached := attached_id (lineAt lines) order
  rw [← attached.placesOf_eq] at runOrder
  have accounts : Accounts false lines id _ _ :=
    accounts_of_orders (.inl rfl) attached.addsLibrary runOrder (.refl _ _) rfl
      ⟨_, attached.placesOf_eq.symm ▸ attached, .keep _⟩ (fun _ => by rw [attached.placesOf_eq])
      fun _ => map_getD_range _ _
  refine ⟨id, _, _, accounts, ?_⟩
  rw [inOrder, map_getD_range, textsOf, map_map]
  rfl

theorem conserves_settle (runOrder : RunOrder (lineAt lines) 0 lines.length order) :
    Conserves true lines (settle (order.map (lineAt lines))) := by
  obtain ⟨inserted, rfl, library, isAttached, unchecked, areTexts⟩ := exists_inserted lines order
  obtain ⟨_, bodyOrder, isOrder⟩ := exists_bodyOrder (textsOf _ lines inserted)
  rw [length_map] at bodyOrder
  refine ⟨_, inserted, _, accounts_of_orders isRewriting_rewritten library runOrder bodyOrder rfl
    isAttached unchecked nofun, ?_⟩
  rw [settle, areTexts, isOrder, textsOf_inOrder]
  exact fun place mem => by simpa using bodyOrder.perm.mem_iff.mp mem

/-! ### Texts -/

theorem areLines_textsOf (areLines : AreLines lines) (rewriting : IsRewriting check)
    (library : AddsLibrary entries) (complete : (placesOf entries).Perm (List.range lines.length)) :
    AreLines (textsOf check lines entries) where
  some := by
    intro none
    rw [map_eq_nil_iff.mp none, placesOf_nil] at complete
    exact areLines.some (length_eq_zero_iff.mp (by simpa using complete.length_eq.symm))
  free := by
    intro text mem
    obtain ⟨entry, isEntry, rfl⟩ := mem_map.mp mem
    cases entry with
    | added text =>
      have ofLibrary : ∀ line ∈ libraryTexts, '\n' ∉ line.toList := by decide
      exact ofLibrary text (library text isEntry)
    | kept place =>
      have inPlaces : place ∈ placesOf entries := mem_filterMap.mpr ⟨_, isEntry, rfl⟩
      have inside : place < lines.length := by simpa using complete.mem_iff.mp inPlaces
      have free : '\n' ∉ (lineAt lines place).toList := by
        apply areLines.free
        simp [lineAt, inside]
      obtain rfl | ⟨unsigned, rfl⟩ := rewriting
      · exact free
      · exact free_checkLine free

/-- Checking arithmetic leaves lines that a text can be cut into. -/
theorem areLines_checked (areLines : AreLines lines) : AreLines (checkArithmetic lines).1 := by
  obtain ⟨_, places, library, -, -, areTexts⟩ := exists_inserted lines (List.range lines.length)
  rw [map_lineAt_range] at areTexts
  rw [areTexts]
  exact areLines_textsOf areLines isRewriting_rewritten library (Perm.of_eq places)

/-- The lines of a text after the passes that a configuration asks for. -/
theorem lines_optimize :
    Text.lines (optimize configuration code).1 =
      if configuration.optimizes then
        if configuration.checksSecurity then settle (packedLines configuration code)
        else packedLines configuration code
      else Text.lines code := by
  have secured : ∀ {lines : List String}, AreLines lines →
      Text.lines (unlines (checkArithmetic lines).1) = (checkArithmetic lines).1 ∧
        Text.lines (unlines (settle lines)) = settle lines := by
    intro _ areLines
    have checked := areLines_checked areLines
    exact ⟨checked.lines_unlines, (checked.perm (reorderCalls_perm _)).lines_unlines⟩
  have packed : AreLines (packLines (Text.lines code)) :=
    (areLines_lines code).perm (packWith_perm _ _)
  obtain ⟨checkedText, settledText⟩ := secured (areLines_lines code)
  obtain ⟨checkedPacked, settledPacked⟩ := secured packed
  rw [settle] at settledText settledPacked
  cases optimizes : configuration.optimizes <;> cases packs : configuration.packsStorage <;>
    cases secures : configuration.checksSecurity <;>
    simp [optimize, passes, Pass.apply, Pass.run, packedLines, settle, optimizes, packs, secures,
      packed.lines_unlines, checkedText, settledText, checkedPacked, settledPacked]

/-- Every line of a text is there once after the passes, and no line is there that was not in the
text or the library. -/
theorem optimize_conserves_lines (configuration : Configuration) (code : String) :
    Conserves (configuration.optimizes && configuration.checksSecurity) (Text.lines code)
      (Text.lines (optimize configuration code).1) := by
  have unmoved : RunOrder (lineAt (Text.lines code)) 0 (Text.lines code).length
      (List.range (Text.lines code).length) := by
    rw [range_eq_range']
    exact .refl _ _
  have packed : ∃ order, RunOrder (lineAt (Text.lines code)) 0 (Text.lines code).length order ∧
      packedLines configuration code = order.map (lineAt (Text.lines code)) := by
    unfold packedLines
    split
    · exact exists_runOrder _
    · exact ⟨_, unmoved, (map_lineAt_range _).symm⟩
  obtain ⟨order, runOrder, isPacked⟩ := packed
  rw [lines_optimize]
  cases configuration.optimizes with
  | true =>
    rw [if_pos rfl, isPacked]
    cases configuration.checksSecurity with
    | true => exact conserves_settle runOrder
    | false => exact conserves_runOrder runOrder
  | false =>
    have conserves := conserves_runOrder unmoved
    rwa [map_lineAt_range] at conserves

/-- Two functions, of which the second starts inside the first and ends behind it. -/
def overlapping : List String :=
  ["pragma solidity ^0.8.30;", "", "contract C \x7b", "    mapping(address => uint256) public a;",
    "    function f() public \x7b", "        x.transfer(1);", "      function g() public \x7b",
    "        y.transfer(1);", "    \x7d", "        a[m] = 1;", "      \x7d", "\x7d"]

theorem not_inOneRun (ordered : first ≤ last)
    (other : declaration? (text first) = none) : ¬ InOneRun text first last := by
  intro run
  have declared := run first (Nat.le_refl _) ordered
  rw [other] at declared
  exact Bool.false_ne_true declared

theorem lines_overlapping : Text.lines (unlines overlapping) = overlapping :=
  lines_unlines (by decide) (by decide)

/-- The update at the end of the second function goes in front of a call in the first, and no
function holds both. -/
theorem overlapping_crosses :
    overlapping.Nodup ∧ Text.lines (unlines overlapping) = overlapping ∧
      Text.lines (optimize { packsStorage := false } (unlines overlapping)).1 =
        [0, 1, 2, 3, 4, 9, 5, 6, 7, 8, 10, 11].map (lineAt overlapping) ∧
      ¬ InOneRun (lineAt overlapping) 5 9 ∧ ¬ InOneBody (functionSpans overlapping) 5 9 := by
  have spans : functionSpans overlapping = [⟨"f", 4, 8⟩, ⟨"g", 6, 10⟩] := by decide +kernel
  refine ⟨by decide, lines_overlapping, ?_, ?_, ?_⟩
  · rw [lines_optimize, packedLines, lines_overlapping]
    decide +kernel
  · exact not_inOneRun (by decide) (by decide +kernel)
  · rw [spans]
    decide

end ContractForge.Listing
