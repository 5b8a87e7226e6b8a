import ContractForge.Listing.Layout

/-!
# Packing settles at once

Declarations that were packed into storage slots are not moved when they are packed
again (`packLines_packLines`). The widest items come first, and an item goes into a later
slot only if it has no room in an earlier one. So of two items of one width, the first stays
the first, and packing the result meets the items in the same order as before.
-/

namespace ContractForge.Listing

open List

variable {enumNames lines : List String} {α : Type} {width : α → Nat} {slots : List (Slot α)}

/-! ### Slots -/

def room (width : α → Nat) (item : α) : Nat :=
  min (width item) slotWidth

/-- No item of a later slot has room in an earlier one. -/
def Filled (width : α → Nat) (slots : List (Slot α)) : Prop :=
  slots.Pairwise fun earlier later => ∀ item ∈ later.items, earlier.free < room width item

theorem flatMap_placeItem_perm (item : α) (width : Nat) (slots : List (Slot α)) :
    ((placeItem item width slots).flatMap Slot.items).Perm
      (slots.flatMap Slot.items ++ [item]) := by
  induction slots with
  | nil => exact .refl _
  | cons _ _ ih =>
    unfold placeItem
    split
    · simp only [flatMap_cons, append_assoc]
      exact Perm.append_left _ perm_append_comm
    · simp only [flatMap_cons, append_assoc]
      exact Perm.append_left _ ih

theorem mem_placeItem {width : Nat}
    (isSlot : slot ∈ placeItem item width slots) (isItem : other ∈ slot.items) :
    other = item ∨ ∃ earlier ∈ slots, other ∈ earlier.items := by
  have mem := (flatMap_placeItem_perm item width slots).mem_iff.mp
    (mem_flatMap_of_mem isSlot isItem)
  obtain before | isNew := mem_append.mp mem
  · exact .inr (mem_flatMap.mp before)
  · exact .inl (mem_singleton.mp isNew)

theorem Filled.placeItem (filled : Filled width slots)
    (item : α) : Filled width (placeItem item (room width item) slots) := by
  induction slots with
  | nil => exact pairwise_singleton _ _
  | cons _ _ ih =>
    obtain ⟨ofFirst, ofRest⟩ := pairwise_cons.mp filled
    unfold Listing.placeItem
    split
    · refine pairwise_cons.mpr ⟨fun later isLater other isItem => ?_, ofRest⟩
      exact Nat.lt_of_le_of_lt (Nat.sub_le _ _) (ofFirst later isLater other isItem)
    · rename_i tooWide
      refine pairwise_cons.mpr ⟨fun later isLater other isItem => ?_, ih ofRest⟩
      obtain rfl | ⟨earlier, isEarlier, before⟩ := mem_placeItem isLater isItem
      · exact Nat.lt_of_not_le tooWide
      · exact ofFirst earlier isEarlier other before

/-- Among the items of its width, an item is put last. -/
theorem filter_flatMap_placeItem (filled : Filled width slots) (item : α) :
    ((placeItem item (room width item) slots).flatMap Slot.items).filter (width · == size) =
      (slots.flatMap Slot.items ++ [item]).filter (width · == size) := by
  induction slots with
  | nil => rfl
  | cons _ rest ih =>
    obtain ⟨ofFirst, ofRest⟩ := pairwise_cons.mp filled
    unfold placeItem
    split
    · -- If the item has the size, no later slot holds one of that size.
      have noLater : width item = size →
          (rest.flatMap Slot.items).filter (width · == size) = [] := by
        rintro rfl
        refine filter_eq_nil_iff.mpr fun other isOther => ?_
        obtain ⟨later, isLater, isItem⟩ := mem_flatMap.mp isOther
        have narrow := ofFirst later isLater other isItem
        intro same
        rw [room, beq_iff_eq.mp same, ← room] at narrow
        omega
      simp only [flatMap_cons, append_assoc, filter_append]
      by_cases isSize : width item = size
      · rw [noLater isSize, append_nil, nil_append]
      · simp [isSize]
    · simp only [flatMap_cons, append_assoc, filter_append] at ih ⊢
      rw [ih ofRest]

theorem filter_foldl_placeItem (filled : Filled width slots) :
    ((items.foldl (fun slots item => placeItem item (room width item) slots) slots).flatMap
        Slot.items).filter (width · == size) =
      (slots.flatMap Slot.items ++ items).filter (width · == size) := by
  induction items generalizing slots with
  | nil => rw [foldl_nil, append_nil]
  | cons item _ ih =>
    rw [foldl_cons, ih (filled.placeItem item), filter_append,
      filter_flatMap_placeItem filled, ← filter_append, append_assoc,
      singleton_append]

theorem foldl_placeItem_perm (width : α → Nat) (slots : List (Slot α)) (items : List α) :
    ((items.foldl (fun slots item => placeItem item (room width item) slots) slots).flatMap
      Slot.items).Perm (slots.flatMap Slot.items ++ items) := by
  induction items generalizing slots with
  | nil => rw [foldl_nil, append_nil]
  | cons item rest ih =>
    refine (ih _).trans ?_
    refine ((flatMap_placeItem_perm item _ slots).append_right rest).trans ?_
    rw [append_assoc, singleton_append]

/-! ### Falling widths -/

theorem byWidth_sorted (width : α → Nat) (items : List α) :
    (byWidth width items).Pairwise fun earlier later => width later ≤ width earlier := by
  have sorted := @pairwise_mergeSort _ (fun left right => decide (width right ≤ width left))
    (by simp; omega) (by simp; omega) items
  simpa [byWidth] using sorted

/-- Items that come by falling width already stay in their order. -/
theorem byWidth_of_sorted (sorted : items.Pairwise fun left right => width right ≤ width left) :
    byWidth width items = items :=
  mergeSort_of_pairwise (by simpa using sorted)

/-- Items of equal width keep their order. -/
theorem filter_byWidth (width : α → Nat) :
    (byWidth width items).filter (width · == size) = items.filter (width · == size) := by
  have equal : (items.filter (width · == size)).Pairwise fun left right =>
      decide (width right ≤ width left) := by
    refine pairwise_of_forall_mem_list fun left isLeft right isRight => ?_
    simp only [mem_filter, beq_iff_eq] at isLeft isRight
    simp [isLeft.2, isRight.2]
  have kept := sublist_mergeSort (by simp; omega) (by simp; omega) equal filter_sublist
  have inFilter := kept.filter (width · == size)
  rw [filter_filter] at inFilter
  simp only [Bool.and_self] at inFilter
  refine (inFilter.eq_of_length ?_).symm
  exact ((mergeSort_perm items _).filter _).length_eq.symm

theorem mem_iff_of_filter_eq {first second : List α}
    (same : ∀ size, first.filter (width · == size) = second.filter (width · == size)) (item : α) :
    item ∈ first ↔ item ∈ second := by
  have inBoth : item ∈ first.filter (width · == width item) ↔
      item ∈ second.filter (width · == width item) := by rw [same]
  simpa using inBoth

/-- A list of falling width is told by the items of each width. -/
theorem eq_of_filter_eq {first second : List α}
    (firstFalls : first.Pairwise fun earlier later => width later ≤ width earlier)
    (secondFalls : second.Pairwise fun earlier later => width later ≤ width earlier)
    (same : ∀ size, first.filter (width · == size) = second.filter (width · == size)) :
    first = second := by
  have ofMem := mem_iff_of_filter_eq same
  induction first generalizing second with
  | nil =>
    refine (eq_nil_iff_forall_not_mem.mpr fun item mem => ?_).symm
    exact not_mem_nil ((ofMem item).mpr mem)
  | cons item rest ih =>
    cases second with
    | nil => exact absurd ((ofMem item).mp mem_cons_self) not_mem_nil
    | cons other others =>
      obtain ⟨atMostItem, restFalls⟩ := pairwise_cons.mp firstFalls
      obtain ⟨atMostOther, othersFall⟩ := pairwise_cons.mp secondFalls
      have below : ∀ found ∈ item :: rest, width found ≤ width item :=
        forall_mem_cons.mpr ⟨Nat.le_refl _, atMostItem⟩
      have above : ∀ found ∈ other :: others, width found ≤ width other :=
        forall_mem_cons.mpr ⟨Nat.le_refl _, atMostOther⟩
      have equal : width other = width item := Nat.le_antisymm
        (below other ((ofMem other).mpr mem_cons_self)) (above item ((ofMem item).mp mem_cons_self))
      have heads := same (width item)
      rw [filter_cons_of_pos (by simp), filter_cons_of_pos (by simp [equal])] at heads
      obtain ⟨rfl, -⟩ := List.cons.inj heads
      have tails : ∀ size, rest.filter (width · == size) = others.filter (width · == size) := by
        intro size
        have whole := same size
        rw [filter_cons, filter_cons] at whole
        split at whole
        · exact (List.cons.inj whole).2
        · exact whole
      exact congrArg _ (ih restFalls othersFall tails (mem_iff_of_filter_eq tails))

/-! ### Packing -/

theorem pack_perm (width : α → Nat) : (pack width items).Perm items :=
  (foldl_placeItem_perm width [] (byWidth width items)).trans (mergeSort_perm items _)

/-- Packing what was packed meets the items in the order in which they were first met. -/
theorem byWidth_pack (width : α → Nat) :
    byWidth width (pack width items) = byWidth width items := by
  refine eq_of_filter_eq (byWidth_sorted _ _) (byWidth_sorted _ _) fun size => ?_
  rw [filter_byWidth]
  exact filter_foldl_placeItem List.Pairwise.nil

theorem pack_pack (width : α → Nat) : pack width (pack width items) = pack width items := by
  rw [pack, fillSlots, byWidth_pack]
  rfl

/-! ### Runs of declarations -/

/-- A run of declarations in its new order. -/
def arranged (enumNames : List String) (block : List (String × Declaration)) :
    List (String × Declaration) :=
  block.filter (fun (_, found) => found.isConstant) ++
    pack (fun (_, found) => storageWidth found.type enumNames)
      (block.filter fun (_, found) => !found.isConstant)

theorem arrange_eq_map (enumNames : List String) :
    arrange enumNames block = (arranged enumNames block).map Prod.fst :=
  rfl

theorem arranged_perm (enumNames : List String) : (arranged enumNames block).Perm block := by
  refine ((pack_perm _).append_left _).trans ?_
  exact filter_append_perm _ block

theorem arranged_arranged (enumNames : List String) :
    arranged enumNames (arranged enumNames block) = arranged enumNames block := by
  have areStored : ∀ entry ∈ pack (fun (_, found) => storageWidth found.type enumNames)
      (block.filter fun (_, found) => !found.isConstant), entry.2.isConstant = false := by
    intro _ mem
    have inStored := (pack_perm _).mem_iff.mp mem
    simpa using (mem_filter.mp inStored).2
  have noConstants := filter_eq_nil_iff.mpr fun entry mem => by
    simpa using areStored entry mem
  have allStored := filter_eq_self.mpr fun entry mem => congrArg (!·) (areStored entry mem)
  have noneLeft : block.filter (fun _ => false) = [] := filter_eq_nil_iff.mpr (by simp)
  simp [arranged, filter_filter, noConstants, allStored, noneLeft, pack_pack]

@[simp]
theorem arrange_nil (enumNames : List String) : arrange enumNames [] = [] := by
  simp [arrange, pack, fillSlots, byWidth]

/-- The lines with every run of declarations packed, given the enumerations. -/
def packWith (enumNames : List String) (lines : List String) : List String :=
  arrange enumNames (layoutParts enumNames lines).1 ++ (layoutParts enumNames lines).2

theorem packLines_eq (lines : List String) :
    packLines lines = packWith (lines.filterMap enumeration?) lines :=
  rfl

theorem layoutParts_entry (declares : declaration? line = some found) :
    layoutParts enumNames (line :: rest) =
      ((line, found) :: (layoutParts enumNames rest).1, (layoutParts enumNames rest).2) := by
  rw [layoutParts, declares]

theorem layoutParts_other (declares : declaration? line = none) :
    layoutParts enumNames (line :: rest) = ([], line :: packWith enumNames rest) := by
  rw [layoutParts, declares]
  rfl

/-- The declarations of a run are those that its lines are read as. -/
theorem declaration?_of_mem_layoutParts
    (mem : entry ∈ (layoutParts enumNames lines).1) : declaration? entry.1 = some entry.2 := by
  induction lines with
  | nil => cases mem
  | cons line _ ih =>
    cases declares : declaration? line with
    | none =>
      rw [layoutParts_other declares] at mem
      cases mem
    | some =>
      rw [layoutParts_entry declares] at mem
      obtain rfl | later := mem_cons.mp mem
      · exact declares
      · exact ih later

/-- Declarations in front of a listing belong to the run at its beginning. -/
theorem layoutParts_append (declared : ∀ entry ∈ block, declaration? entry.1 = some entry.2) :
    layoutParts enumNames (block.map Prod.fst ++ rest) =
      (block ++ (layoutParts enumNames rest).1, (layoutParts enumNames rest).2) := by
  induction block with
  | nil => rfl
  | cons _ _ ih =>
    obtain ⟨ofEntry, ofOthers⟩ := forall_mem_cons.mp declared
    rw [map_cons, cons_append, layoutParts_entry ofEntry, ih ofOthers]
    rfl

/-- If everything behind the first run is packed already, a second packing changes nothing. -/
theorem packWith_packWith_of (settled : layoutParts enumNames (layoutParts enumNames lines).2 =
      ([], (layoutParts enumNames lines).2)) :
    packWith enumNames (packWith enumNames lines) = packWith enumNames lines := by
  have declared : ∀ entry ∈ arranged enumNames (layoutParts enumNames lines).1,
      declaration? entry.1 = some entry.2 := fun entry mem =>
    declaration?_of_mem_layoutParts ((arranged_perm _).mem_iff.mp mem)
  have parts : layoutParts enumNames (packWith enumNames lines) =
      (arranged enumNames (layoutParts enumNames lines).1, (layoutParts enumNames lines).2) := by
    rw [packWith, arrange_eq_map, layoutParts_append declared, settled, append_nil]
  rw [packWith, parts, arrange_eq_map, arranged_arranged]
  rfl

theorem layoutParts_snd (enumNames lines : List String) :
    layoutParts enumNames (layoutParts enumNames lines).2 =
      ([], (layoutParts enumNames lines).2) := by
  induction lines with
  | nil => rfl
  | cons line _ ih =>
    cases declares : declaration? line with
    | some =>
      rw [layoutParts_entry declares]
      exact ih
    | none =>
      rw [layoutParts_other declares, layoutParts_other declares, packWith_packWith_of ih]

theorem layoutParts_perm (enumNames lines : List String) :
    ((layoutParts enumNames lines).1.map Prod.fst ++
      (layoutParts enumNames lines).2).Perm lines := by
  induction lines with
  | nil => exact .refl _
  | cons line _ ih =>
    cases declares : declaration? line with
    | some =>
      rw [layoutParts_entry declares]
      exact ih.cons line
    | none =>
      rw [layoutParts_other declares]
      refine Perm.cons line ?_
      exact (((arranged_perm _).map _).append_right _).trans ih

theorem packWith_perm (enumNames lines : List String) : (packWith enumNames lines).Perm lines :=
  (((arranged_perm _).map _).append_right _).trans (layoutParts_perm enumNames lines)

theorem storageWidth_congr (same : ∀ name, name ∈ first ↔ name ∈ second) :
    storageWidth type first = storageWidth type second := by
  have sameTest : ∀ name, first.contains name = second.contains name := by
    intro _
    rw [Bool.eq_iff_iff, contains_iff_mem, contains_iff_mem, same]
  unfold storageWidth readWidth widthOf
  simp only [sameTest]

/-- Of the enumerations, only their names matter. -/
theorem packWith_congr (same : ∀ name, name ∈ first ↔ name ∈ second)
    (lines : List String) : packWith first lines = packWith second lines := by
  have sameArrange : ∀ block, arrange first block = arrange second block := by
    intro _
    unfold arrange
    simp only [storageWidth_congr same]
  have sameParts : layoutParts first lines = layoutParts second lines := by
    induction lines with
    | nil => rfl
    | cons _ _ ih =>
      rw [layoutParts, layoutParts, ih]
      simp only [sameArrange]
  rw [packWith, packWith, sameArrange, sameParts]

/-- A listing whose declarations were packed stays as it is when they are packed again. -/
theorem packLines_packLines (lines : List String) :
    packLines (packLines lines) = packLines lines := by
  have sameNames : ∀ name, name ∈ (packLines lines).filterMap enumeration? ↔
      name ∈ lines.filterMap enumeration? :=
    fun name => ((packWith_perm _ lines).filterMap _).mem_iff
  rw [packLines_eq, packWith_congr sameNames]
  exact packWith_packWith_of (layoutParts_snd _ lines)

end ContractForge.Listing
