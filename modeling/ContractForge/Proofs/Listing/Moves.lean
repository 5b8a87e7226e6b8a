import ContractForge.Proofs.Listing.Library
import Mathlib.Data.List.Perm.Basic
import Mathlib.Logic.Relation

/-!
# Where the passes move lines

Two passes change the order of lines. Packing keeps every line in its run of declarations, so the
line at a place comes from a place in the same run (`exists_runOrder`), and two lines change sides
only inside a run (`RunOrder.pairwise`). Moving updates keeps every line in the body of a function,
function after function; a line can go from one body to another only where bodies overlap
(`exists_bodyOrder`), and stays in one if none overlap in part (`inOneBody_of_chained`).
-/

namespace ContractForge.Listing

open Text List

variable {order : List Nat} {start count run : Nat} {lines : List String}

/-- The line at a place of a listing. -/
def lineAt (lines : List String) (place : Nat) : String :=
  lines.getD place ""

theorem map_getD_range {α : Type} (items : List α) (other : α) :
    (List.range items.length).map (items.getD · other) = items := by
  apply ext_getElem?
  intro place
  by_cases inside : place < items.length
  all_goals simp [inside]

theorem map_lineAt_range (lines : List String) :
    (List.range lines.length).map (lineAt lines) = lines :=
  map_getD_range lines ""

/-- A rearrangement of texts comes from one of the things that have them. -/
theorem exists_perm_of_map {α : Type} {text : α → String} {items : List α}
    (perm : (items.map text).Perm texts) :
    ∃ others : List α, others.Perm items ∧ others.map text = texts := by
  have related : Forall₂ (fun line item => line = text item) (items.map text) items := by
    rw [forall₂_map_left_iff, forall₂_same]
    exact fun _ _ => rfl
  obtain ⟨others, areTexts, isPerm⟩ := perm_comp_forall₂ perm.symm related
  rw [← forall₂_map_right_iff, forall₂_eq_eq_eq] at areTexts
  exact ⟨others, isPerm, areTexts.symm⟩

/-! ### Runs of declarations -/

section

variable {text : Nat → String}

/-- All lines from one place to another are declarations. -/
def InOneRun (text : Nat → String) (first last : Nat) : Prop :=
  ∀ place, first ≤ place → place ≤ last → (declaration? (text place)).isSome = true

/-- Two places that are the same or in one run of declarations. -/
def Near (text : Nat → String) (first second : Nat) : Prop :=
  first = second ∨ InOneRun text (min first second) (max first second)

/-- The lines from a place on in another order, each at a place near its own. -/
structure RunOrder (text : Nat → String) (start count : Nat) (order : List Nat) : Prop where
  perm : order.Perm (List.range' start count)
  near : List.Forall₂ (Near text) (List.range' start count) order

namespace RunOrder

theorem nil (start : Nat) : RunOrder text start 0 [] :=
  ⟨.refl _, .nil⟩

theorem cons {start count : Nat} {order : List Nat}
    (runOrder : RunOrder text (start + 1) count order) :
    RunOrder text start (count + 1) (start :: order) where
  perm := runOrder.perm.cons start
  near := .cons (.inl rfl) runOrder.near

theorem refl (start count : Nat) : RunOrder text start count (List.range' start count) where
  perm := .refl _
  near := by
    rw [forall₂_same]
    exact fun _ _ => .inl rfl

/-- The lines of a run in any order, in front of others. -/
theorem append (perm : front.Perm (List.range' start run))
    (declared : ∀ place, start ≤ place → place < start + run →
      (declaration? (text place)).isSome) (runOrder : RunOrder text (start + run) count order) :
    RunOrder text start (run + count) (front ++ order) where
  perm := by
    rw [← range'_append_1]
    exact perm.append runOrder.perm
  near := by
    rw [← range'_append_1]
    refine rel_append ?_ runOrder.near
    refine forall₂_iff_zip.mpr ⟨perm.length_eq.symm, fun isPair => .inr ?_⟩
    have ofLeft := mem_range'_1.mp (of_mem_zip isPair).1
    have ofRight := mem_range'_1.mp (perm.mem_iff.mp (of_mem_zip isPair).2)
    intro place _ _
    apply declared place <;> omega

/-- Lines change sides only inside a run. -/
theorem pairwise (runOrder : RunOrder text start count order) :
    order.Pairwise fun first second => second < first → InOneRun text second first := by
  rw [pairwise_iff_getElem]
  intro left right isLeft isRight _ _ place _ _
  have sameLength := runOrder.perm.length_eq
  rw [length_range'] at sameLength
  have nearLeft := runOrder.near.get (by simpa using sameLength ▸ isLeft) isLeft
  have nearRight := runOrder.near.get (by simpa using sameLength ▸ isRight) isRight
  simp only [get_eq_getElem, getElem_range', Nat.one_mul] at nearLeft nearRight
  generalize order[left] = first at *
  generalize order[right] = second at *
  -- The two runs overlap, or one of the lines is at its own place and inside the run of the other.
  obtain rfl | leftRun := nearLeft
  · obtain rfl | rightRun := nearRight
    · omega
    · apply rightRun <;> omega
  · obtain rfl | rightRun := nearRight
    · apply leftRun <;> omega
    · by_cases inLeft : min (start + left) first ≤ place ∧ place ≤ max (start + left) first
      · exact leftRun place inLeft.1 inLeft.2
      · apply rightRun <;> omega

end RunOrder

theorem exists_arranged (isBlock : block.map Prod.fst = places.map text) :
    ∃ front : List Nat, front.Perm places ∧ front.map text = arrange enumNames block := by
  apply exists_perm_of_map
  rw [← isBlock, arrange_eq_map]
  exact ((arranged_perm _).map Prod.fst).symm

/-- The run of declarations at the beginning keeps its places, and all that follows is packed. -/
theorem exists_runOrder_of_parts (text : Nat → String) (start count : Nat) :
    ∃ run behind order, run + behind = count ∧
      (layoutParts enumNames ((List.range' start count).map text)).1.map Prod.fst =
        (List.range' start run).map text ∧
      (∀ place, start ≤ place → place < start + run → (declaration? (text place)).isSome) ∧
      (layoutParts enumNames ((List.range' start count).map text)).2 = order.map text ∧
      RunOrder text (start + run) behind order := by
  induction count generalizing start with
  | zero => exact ⟨0, 0, [], rfl, rfl, by omega, rfl, .nil _⟩
  | succ count ih =>
    obtain ⟨run, behind, order, isCount, isRun, declared, isOrder, runOrder⟩ :=
      ih (start + 1)
    rw [range'_succ, map_cons]
    cases declares : declaration? (text start) with
    | some =>
      refine ⟨run + 1, behind, order, by omega, ?_, ?_, ?_, ?_⟩
      · rw [layoutParts_entry declares, map_cons, isRun, range'_succ]
        rfl
      · intro place behind _
        obtain rfl | later := Nat.eq_or_lt_of_le behind
        · rw [declares]
          rfl
        · exact declared place later (by omega)
      · rw [layoutParts_entry declares, isOrder]
      · rwa [Nat.add_assoc, Nat.add_comm 1] at runOrder
    | none =>
      obtain ⟨front, isFront, isArranged⟩ := exists_arranged isRun
      refine ⟨0, count + 1, start :: (front ++ order), by omega, ?_, by omega, ?_, ?_⟩
      · rw [layoutParts_other declares]
        rfl
      · rw [layoutParts_other declares, packWith, isOrder, ← isArranged, map_cons, map_append]
      · rw [Nat.add_zero, ← isCount]
        exact (RunOrder.append isFront declared runOrder).cons

/-- Packing puts every line at a place in its run. -/
theorem exists_runOrder (lines : List String) :
    ∃ order, RunOrder (lineAt lines) 0 lines.length order ∧
      packLines lines = order.map (lineAt lines) := by
  obtain ⟨_, _, order, isCount, isRun, declared, isOrder, runOrder⟩ :=
    exists_runOrder_of_parts (lineAt lines) 0 lines.length
  rw [← range_eq_range', map_lineAt_range] at isRun isOrder
  obtain ⟨front, isFront, isArranged⟩ := exists_arranged isRun
  refine ⟨front ++ order, isCount ▸ RunOrder.append isFront declared runOrder, ?_⟩
  rw [packLines_eq, packWith, isOrder, ← isArranged, map_append]

end

/-! ### Function bodies -/

/-- A place is in the body of a function. -/
def FunctionSpan.Holds (span : FunctionSpan) (place : Nat) : Prop :=
  span.header < place ∧ place < span.closing

instance (span : FunctionSpan) (place : Nat) : Decidable (span.Holds place) :=
  inferInstanceAs (Decidable (_ ∧ _))

/-- Two places are in the body of one of the functions. -/
def InOneBody (spans : List FunctionSpan) (first second : Nat) : Prop :=
  ∃ span ∈ spans, span.Holds first ∧ span.Holds second

instance (spans : List FunctionSpan) (first second : Nat) :
    Decidable (InOneBody spans first second) :=
  inferInstanceAs (Decidable (∃ span ∈ spans, _))

/-- One can go from a place to another through bodies that overlap. -/
abbrev Chained (spans : List FunctionSpan) : Nat → Nat → Prop :=
  Relation.ReflTransGen (InOneBody spans)

/-- A function starts inside another one and ends behind it. -/
def FunctionSpan.Overlaps (earlier later : FunctionSpan) : Prop :=
  earlier.header < later.header ∧ later.header < earlier.closing ∧ earlier.closing < later.closing

instance (earlier later : FunctionSpan) : Decidable (earlier.Overlaps later) :=
  inferInstanceAs (Decidable (_ ∧ _ ∧ _))

/-- Functions follow one another or lie within one another. -/
def Nest (spans : List FunctionSpan) : Prop :=
  ∀ earlier ∈ spans, ∀ later ∈ spans, ¬ earlier.Overlaps later

instance (spans : List FunctionSpan) : Decidable (Nest spans) :=
  inferInstanceAs (Decidable (∀ earlier ∈ spans, _))

section

variable {spans : List FunctionSpan} {first second : Nat} {span : FunctionSpan}

theorem InOneBody.symm (linked : InOneBody spans first second) : InOneBody spans second first := by
  obtain ⟨span, isSpan, ofFirst, ofSecond⟩ := linked
  exact ⟨span, isSpan, ofSecond, ofFirst⟩

theorem Chained.symm (chained : Chained spans first second) : Chained spans second first :=
  Relation.ReflTransGen.mono (fun _ _ => InOneBody.symm) _ _
    (Relation.ReflTransGen.swap _ _ chained)

/-- A chain of bodies starts in one of them. -/
theorem Chained.eq_or_holds (chained : Chained spans first second) :
    first = second ∨ ∃ span ∈ spans, span.Holds first := by
  obtain rfl | ⟨_, ⟨span, isSpan, ofFirst, -⟩, -⟩ := Relation.ReflTransGen.cases_head chained
  · exact .inl rfl
  · exact .inr ⟨span, isSpan, ofFirst⟩

/-- Of two functions that share a place one holds the other, so no chain leaves the largest. -/
theorem inOneBody_of_chained (nest : Nest spans) (chained : Chained spans first second) :
    first = second ∨ InOneBody spans first second := by
  induction chained with
  | refl => exact .inl rfl
  | @tail between last chained linked ih =>
    obtain rfl | ⟨span, isSpan, ofFirst, _⟩ := ih
    · exact .inr linked
    · obtain ⟨other, isOther, _, otherLast⟩ := linked
      have ahead := nest span isSpan other isOther
      have behind := nest other isOther span isSpan
      unfold FunctionSpan.Overlaps FunctionSpan.Holds at *
      by_cases larger : other.closing ≤ span.closing ∧ span.header ≤ other.header
      · exact .inr ⟨span, isSpan, ofFirst, by unfold FunctionSpan.Holds; omega⟩
      · exact .inr ⟨other, isOther, by unfold FunctionSpan.Holds; omega, otherLast⟩

/-- The lines of a listing in another order, each chained to its place. -/
structure BodyOrder (spans : List FunctionSpan) (count : Nat) (order : List Nat) : Prop where
  perm : order.Perm (List.range count)
  near : ∀ place original, order[place]? = some original → Chained spans place original
  pairwise : order.Pairwise fun first second => second < first → Chained spans second first

theorem BodyOrder.refl (spans : List FunctionSpan) (count : Nat) :
    BodyOrder spans count (List.range count) where
  perm := .refl _
  near := by
    intro _ _ found
    obtain ⟨-, rfl⟩ := List.getElem?_eq_some_iff.mp found
    simpa using Relation.ReflTransGen.refl
  pairwise := pairwise_lt_range.imp fun before after => absurd before (by omega)

/-- The body of one more function is shuffled. -/
theorem BodyOrder.step
    (bodyOrder : BodyOrder spans count (front ++ body ++ back)) (isSpan : span ∈ spans)
    (isFront : front.length = span.header + 1) (isBody : front.length + body.length = span.closing)
    (perm : shuffled.Perm body) : BodyOrder spans count (front ++ shuffled ++ back) := by
  -- The original place of a line in the body is chained to every place in it.
  have inBody : ∀ original ∈ body, ∀ place, span.Holds place → Chained spans place original := by
    intro _ mem _ held
    obtain ⟨offset, inside, rfl⟩ := getElem_of_mem mem
    have isThere : (front ++ body ++ back)[front.length + offset]? = some body[offset] := by
      rw [append_assoc, getElem?_append_right (by omega), getElem?_append_left (by omega)]
      simp [inside]
    have there : span.Holds (front.length + offset) := by
      unfold FunctionSpan.Holds
      omega
    exact .head ⟨span, isSpan, held, there⟩ (bodyOrder.near _ _ isThere)
  refine ⟨?_, ?_, ?_⟩
  · exact ((perm.append_left front).append_right back).trans bodyOrder.perm
  · intro place original found
    have sameLength := perm.length_eq
    by_cases inFront : place < front.length
    · apply bodyOrder.near
      rwa [append_assoc, getElem?_append_left inFront] at found ⊢
    · by_cases beforeBack : place < front.length + body.length
      · have held : span.Holds place := by
          unfold FunctionSpan.Holds
          omega
        rw [append_assoc, getElem?_append_right (by omega),
          getElem?_append_left (by omega)] at found
        exact inBody original (perm.mem_iff.mp (mem_of_getElem? found)) place held
      · apply bodyOrder.near
        rw [getElem?_append_right (by rw [length_append]; omega)] at found ⊢
        rwa [length_append, sameLength, ← length_append] at found
  · have pairwise := bodyOrder.pairwise
    simp only [pairwise_append, mem_append] at pairwise ⊢
    obtain ⟨⟨ofFront, -, frontBody⟩, ofBack, others⟩ := pairwise
    refine ⟨⟨ofFront, ?_, ?_⟩, ofBack, ?_⟩
    · refine pairwise_of_forall_mem_list fun first isFirst second isSecond _ => ?_
      have isFirst := perm.mem_iff.mp isFirst
      have isSecond := perm.mem_iff.mp isSecond
      have held : span.Holds (span.header + 1) := by
        have some := length_pos_of_mem isFirst
        unfold FunctionSpan.Holds
        omega
      exact (inBody second isSecond _ held).symm.trans (inBody first isFirst _ held)
    · exact fun first isFirst second isSecond => frontBody first isFirst second
        (perm.mem_iff.mp isSecond)
    · exact fun first isFirst second isSecond => others first
        (isFirst.imp_right perm.mem_iff.mp) second isSecond

/-- Moving the updates of a function shuffles its body. -/
theorem BodyOrder.reorderFunction
    (bodyOrder : BodyOrder spans lines.length order) (isSpan : span ∈ spans)
    (within : span.Within lines.length) :
    ∃ others, BodyOrder spans lines.length others ∧
      (reorderFunction tables (order.map (lineAt lines)) span).1 = others.map (lineAt lines) := by
  have count : order.length = lines.length := by simpa using bodyOrder.perm.length_eq
  obtain ⟨ordered, inside⟩ := within
  have shuffles := (reorderGroups_perm span.name tables
    (statementsOf (bodyOf (order.map (lineAt lines)) span))).flatten
  rw [statementsOf_flatten] at shuffles
  have isBody : bodyOf (order.map (lineAt lines)) span =
      ((order.take span.closing).drop (span.header + 1)).map (lineAt lines) := by
    rw [bodyOf, ← map_take, ← map_drop]
  rw [isBody] at shuffles
  obtain ⟨_, perm, isShuffled⟩ := exists_perm_of_map shuffles.symm
  have split : order = order.take (span.header + 1) ++
      (order.take span.closing).drop (span.header + 1) ++ order.drop span.closing := by
    have front := take_append_drop (span.header + 1) (order.take span.closing)
    rw [take_take, Nat.min_eq_left ordered] at front
    rw [front, take_append_drop]
  refine ⟨_, .step (split ▸ bodyOrder) isSpan ?_ ?_ perm, ?_⟩
  · rw [length_take]
    omega
  · simp only [length_take, length_drop]
    omega
  · rw [reorderFunction_eq ⟨ordered, by simpa [count] using inside⟩, map_append,
      map_append, isShuffled, reorderBody, isBody, ← map_take, ← map_drop]

/-- Moving updates keeps every line in the bodies it can reach. -/
theorem exists_bodyOrder (lines : List String) :
    ∃ order, BodyOrder (functionSpans lines) lines.length order ∧
      (reorderCalls lines).1 = order.map (lineAt lines) := by
  have all : ∀ later : List FunctionSpan, later ⊆ functionSpans lines →
      ∃ order, BodyOrder (functionSpans lines) lines.length order ∧
        (later.foldr (reorderNext (tableVariables lines)) (lines, [])).1 =
          order.map (lineAt lines) := by
    intro later known
    induction later with
    | nil => exact ⟨_, .refl _ _, (map_lineAt_range lines).symm⟩
    | cons _ _ ih =>
      obtain ⟨isSpan, known⟩ := cons_subset.mp known
      obtain ⟨_, bodyOrder, isOrder⟩ := ih known
      rw [foldr_cons, reorderNext, isOrder]
      exact bodyOrder.reorderFunction isSpan (functionSpans_within isSpan)
  by_cases none : tableVariables lines = []
  · refine ⟨_, .refl _ _, ?_⟩
    rw [map_lineAt_range, reorderCalls, none]
    rfl
  · rw [reorderCalls_eq_foldr none]
    exact all _ (Subset.refl _)

end

end ContractForge.Listing
