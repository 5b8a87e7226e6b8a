import ContractForge.Proofs.Listing.Packing
import Mathlib.Algebra.BigOperators.Group.List.Basic
import Mathlib.Algebra.GroupWithZero.Nat
import Mathlib.Data.List.TakeWhile

/-!
# Slots of declarations in order

Variables take storage in the order of their declarations: a slot takes items as
long as they fit, and the first that does not opens the next one (`layOut`). Laid
out like this, packed declarations take exactly the slots that packing filled,
since an item of a later slot never fits what is left of an earlier one. Nothing is
packed if the digits of a width cannot be read. For the
widths that generated contracts have, no order of the declarations takes fewer
slots: either every slot holds a wide item, or all slots but the last are full.
-/

namespace ContractForge

open List Text

/-! ### Widths that cannot be read -/

/-- Signs for digits that spell no number that can be read: one of them is no decimal digit, or
they are too many. -/
def Text.Unreadable (signs : List Char) : Prop :=
  signs ≠ [] ∧ signs.all isDigitSign ∧ (signs.all isDecimal = false ∨ isTooLong signs)

theorem Text.isSome_mapM_decimal? (chars : List Char) :
    (chars.mapM decimal?).isSome = chars.all isDecimal := by
  induction chars with
  | nil => rfl
  | cons c _ ih =>
    rw [mapM_cons, all_cons, ← ih, isDecimal]
    cases decimal? c with
    | none => rfl
    | some => simp [Option.isSome_bind]

theorem Text.exists_error_readDigits_iff {chars : List Char} :
    (∃ error, readDigits chars = .error error) ↔ Unreadable chars := by
  unfold readDigits Unreadable
  by_cases isOther : chars.isEmpty || !chars.all isDigitSign
  · rw [if_pos isOther]
    rw [Bool.or_eq_true, List.isEmpty_iff, Bool.not_eq_true'] at isOther
    grind
  rw [if_neg isOther]
  simp only [Bool.or_eq_true, List.isEmpty_iff, Bool.not_eq_true', not_or,
    Bool.not_eq_false] at isOther
  have leading := (takeWhile_sublist isDecimal (l := chars)).length_le
  have decimals := isSome_mapM_decimal? chars
  by_cases isLong : isTooLong (chars.takeWhile isDecimal)
  · rw [if_pos isLong]
    have allLong : isTooLong chars := by
      simp only [isTooLong, decide_eq_true_eq] at isLong ⊢
      omega
    exact ⟨fun _ => ⟨isOther.1, isOther.2, .inr allLong⟩, fun _ => ⟨_, rfl⟩⟩
  rw [if_neg isLong]
  cases read : chars.mapM decimal? with
  | none =>
    rw [read] at decimals
    exact ⟨fun _ => ⟨isOther.1, isOther.2, .inl decimals.symm⟩, fun _ => ⟨_, rfl⟩⟩
  | some =>
    rw [read, Option.isSome_some, eq_comm, all_eq_true] at decimals
    rw [takeWhile_eq_self_iff.2 decimals] at isLong
    rw [← all_eq_true] at decimals
    simp [decimals, isLong]

/-- Behind the name of an integer or byte type stand signs for digits that cannot be read. -/
def HasUnreadableWidth (type : String) : Prop :=
  Unreadable (behindTypeName (trimmed type.toList))

theorem exists_error_readWidth_iff {type : String} {enumNames : List String} :
    (∃ error, readWidth type enumNames = .error error) ↔ HasUnreadableWidth type := by
  rw [HasUnreadableWidth, ← exists_error_readDigits_iff, readWidth]
  cases readDigits (behindTypeName (trimmed type.toList)) <;> simp [Except.map]

theorem widthError?_eq_none_iff {type : String} {enumNames : List String} :
    widthError? type enumNames = none ↔ ¬ HasUnreadableWidth type := by
  rw [← @exists_error_readWidth_iff type enumNames, widthError?]
  cases readWidth type enumNames <;> simp

/-- A width that can be read is the one that packing goes by. -/
theorem readWidth_eq_storageWidth {type : String} (readable : ¬ HasUnreadableWidth type)
    (enumNames : List String) : readWidth type enumNames = .ok (storageWidth type enumNames) := by
  rw [← @exists_error_readWidth_iff type enumNames] at readable
  rw [storageWidth]
  cases read : readWidth type enumNames with
  | ok => rfl
  | error error => exact absurd ⟨error, read⟩ readable

end ContractForge

namespace ContractForge.Listing

open List

variable {α : Type} {width size : α → Nat} {slots : List (Slot α)} {free : Nat}

/-! ### Laying out -/

/-- The items that go into what is left of a slot, and the slots after it. -/
def layOn (size : α → Nat) (free : Nat) : List α → List α × List (List α)
  | [] => ([], [])
  | item :: rest =>
    if size item ≤ free then
      let (here, later) := layOn size (free - size item) rest
      (item :: here, later)
    else
      let (here, later) := layOn size (slotWidth - size item) rest
      ([], (item :: here) :: later)

/-- The slots that items take in their order. -/
def layOut (size : α → Nat) : List α → List (List α)
  | [] => []
  | item :: rest =>
    let (here, later) := layOn size (slotWidth - size item) rest
    (item :: here) :: later

/-- Items that fit together go into the same slot. -/
theorem layOn_append (fits : (front.map size).sum ≤ free) :
    layOn size free (front ++ rest) =
      (front ++ (layOn size (free - (front.map size).sum) rest).1,
        (layOn size (free - (front.map size).sum) rest).2) := by
  induction front generalizing free with
  | nil => rfl
  | cons _ _ ih =>
    rw [map_cons, sum_cons] at fits ⊢
    rw [cons_append, layOn, if_pos (by omega), ih (by omega), Nat.sub_sub]
    rfl

/-- Nothing more goes into a slot without room for the next item. -/
theorem layOn_of_lt (tooWide : ∀ item ∈ items.head?, free < size item) :
    layOn size free items = ([], layOut size items) := by
  cases items with
  | nil => rfl
  | cons item =>
    rw [layOn, if_neg (Nat.not_le.mpr (tooWide item rfl))]
    rfl

/-! ### Slots that were filled -/

/-- The slot has items, and they take what is not free of it. -/
def Slot.Accounts (size : α → Nat) (slot : Slot α) : Prop :=
  slot.items ≠ [] ∧ (slot.items.map size).sum + slot.free = slotWidth

theorem accounts_placeItem (accounts : ∀ slot ∈ slots, slot.Accounts (room width)) (item : α) :
    ∀ slot ∈ placeItem item (room width item) slots, slot.Accounts (room width) := by
  induction slots with
  | nil =>
    have atMost : room width item ≤ slotWidth := Nat.min_le_right _ _
    simpa [placeItem, Slot.Accounts] using by omega
  | cons _ _ ih =>
    obtain ⟨⟨nonempty, sums⟩, ofRest⟩ := forall_mem_cons.mp accounts
    unfold placeItem
    split
    · refine forall_mem_cons.mpr ⟨⟨by simp, ?_⟩, ofRest⟩
      simp only [map_append, sum_append, map_cons, map_nil, sum_cons, sum_nil]
      omega
    · exact forall_mem_cons.mpr ⟨⟨nonempty, sums⟩, ih ofRest⟩

theorem accounts_fillSlots (width : α → Nat) :
    ∀ slot ∈ fillSlots width items, slot.Accounts (room width) :=
  List.foldlRecOn (motive := fun slots => ∀ slot ∈ slots, Slot.Accounts (room width) slot)
    _ _ (by simp)
    fun _ accounts item _ => accounts_placeItem accounts item

theorem filled_fillSlots (width : α → Nat) : Filled width (fillSlots width items) :=
  List.foldlRecOn (motive := Filled width) _ _ .nil fun _ filled item _ => filled.placeItem item

/-- The items of filled slots take these slots in their order. -/
theorem layOut_flatMap_items (filled : Filled width slots)
    (accounts : ∀ slot ∈ slots, slot.Accounts (room width)) :
    layOut (room width) (slots.flatMap Slot.items) = slots.map Slot.items := by
  induction slots with
  | nil => rfl
  | cons first rest ih =>
    obtain ⟨ofFirst, ofRest⟩ := pairwise_cons.mp filled
    obtain ⟨⟨nonempty, sums⟩, restAccounts⟩ := forall_mem_cons.mp accounts
    have tooWide : ∀ item ∈ (rest.flatMap Slot.items).head?, first.free < room width item := by
      intro item isHead
      obtain ⟨slot, isLater, isItem⟩ := mem_flatMap.mp (mem_of_mem_head? isHead)
      exact ofFirst slot isLater item isItem
    obtain ⟨item, others, isCons⟩ := exists_cons_of_ne_nil nonempty
    rw [isCons, map_cons, sum_cons] at sums
    have left : slotWidth - room width item - (others.map (room width)).sum = first.free := by omega
    rw [flatMap_cons, isCons, cons_append, layOut, layOn_append (by omega), left,
      layOn_of_lt tooWide, ih ofRest restAccounts, map_cons, isCons, append_nil]

theorem packDeclarations_eq_pack {enumNames : List String} {declarations : List Declaration}
    (readable : ∀ found ∈ declarations, ¬ HasUnreadableWidth found.type) :
    packDeclarations enumNames declarations =
      .ok (pack (fun found => storageWidth found.type enumNames) declarations) := by
  have noError : (declarations.findSome? fun found => widthError? found.type enumNames) = none :=
    findSome?_eq_none_iff.mpr fun found member =>
      widthError?_eq_none_iff.mpr (readable found member)
  rw [packDeclarations, noError]

/-- Packing fails exactly if a width cannot be read. Otherwise it keeps the declarations, and the
order of those of one width; packing again changes nothing. In the packed order, the declarations
take the slots that packing filled, and none of these holds more than it has room for. -/
theorem packDeclarations_eq_fillSlots (enumNames : List String) (declarations : List Declaration) :
    let width := fun found : Declaration => storageWidth found.type enumNames
    (∃ found ∈ declarations, HasUnreadableWidth found.type) ∧
        (∃ error, packDeclarations enumNames declarations = .error error) ∨
      (∀ found ∈ declarations, ¬ HasUnreadableWidth found.type ∧
        readWidth found.type enumNames = .ok (width found)) ∧
      ∃ packed, packDeclarations enumNames declarations = .ok packed ∧
        packed.Perm declarations ∧
        (∀ size, packed.filter (width · == size) = declarations.filter (width · == size)) ∧
        packDeclarations enumNames packed = .ok packed ∧
        layOut (room width) packed = (fillSlots width declarations).map Slot.items ∧
        ∀ slot ∈ fillSlots width declarations,
          (slot.items.map (room width)).sum ≤ slotWidth := by
  intro width
  by_cases fails : ∃ found ∈ declarations, HasUnreadableWidth found.type
  · refine .inl ⟨fails, ?_⟩
    rw [packDeclarations]
    split
    · exact ⟨_, rfl⟩
    · rename_i noError
      obtain ⟨found, member, unreadable⟩ := fails
      have none := findSome?_eq_none_iff.mp noError found member
      exact absurd unreadable (widthError?_eq_none_iff.mp none)
  have readable : ∀ found ∈ declarations, ¬ HasUnreadableWidth found.type :=
    fun found member unreadable => fails ⟨found, member, unreadable⟩
  have isPerm : (pack width declarations).Perm declarations := pack_perm width
  have again : packDeclarations enumNames (pack width declarations) =
      .ok (pack width declarations) := by
    rw [packDeclarations_eq_pack fun found member => readable found (isPerm.mem_iff.mp member)]
    exact congrArg _ (pack_pack width)
  refine .inr ⟨fun found member => ⟨readable found member,
    readWidth_eq_storageWidth (readable found member) enumNames⟩, _,
    packDeclarations_eq_pack readable, isPerm, fun size => ?_, again, ?_, fun slot isSlot => ?_⟩
  · rw [← filter_byWidth width, byWidth_pack, filter_byWidth]
  · exact layOut_flatMap_items (filled_fillSlots width) (accounts_fillSlots width)
  · have sums := (accounts_fillSlots width slot isSlot).2
    omega

/-- A width in superscript is no width of a known type, and yet it does not take a full slot. -/
theorem superscript_not_packed :
    packDeclarations [] [⟨"total", "uint²", false⟩] = .error (.notDecimal ['²']) := by
  decide +kernel

/-! ### How few slots are enough -/

/-- An item that two of do not fit into one slot. -/
def IsWide (size : α → Nat) (item : α) : Bool :=
  20 ≤ size item

/-- What a slot has left and the slots after it hold the items, and each of them at most one wide
item. -/
theorem layOn_bounds {free : Nat} {items : List α}
    (within : ∀ item ∈ items, size item ≤ slotWidth) :
    (items.map size).sum ≤ free + slotWidth * (layOn size free items).2.length ∧
      items.countP (IsWide size) ≤ free / 20 + (layOn size free items).2.length := by
  induction items generalizing free with
  | nil => exact ⟨Nat.zero_le _, Nat.zero_le _⟩
  | cons item _ ih =>
    obtain ⟨ofItem, ofRest⟩ := forall_mem_cons.mp within
    have known : IsWide size item ↔ 20 ≤ size item := by simp [IsWide]
    rw [map_cons, sum_cons, countP_cons, layOn]
    simp only [slotWidth, known] at ofItem ih ⊢
    split
    · obtain ⟨_, _⟩ := @ih (free - size item) ofRest
      dsimp only
      split <;> omega
    · obtain ⟨_, _⟩ := @ih (32 - size item) ofRest
      simp only [length_cons]
      split <;> omega

theorem layOut_bounds {items : List α} (within : ∀ item ∈ items, size item ≤ slotWidth) :
    (items.map size).sum ≤ slotWidth * (layOut size items).length ∧
      items.countP (IsWide size) ≤ (layOut size items).length := by
  cases items with
  | nil => exact ⟨Nat.zero_le _, Nat.zero_le _⟩
  | cons item rest =>
    obtain ⟨ofItem, ofRest⟩ := forall_mem_cons.mp within
    obtain ⟨sums, wide⟩ := @layOn_bounds _ size (slotWidth - size item) rest ofRest
    have known : IsWide size item ↔ 20 ≤ size item := by simp [IsWide]
    rw [map_cons, sum_cons, countP_cons, layOut, length_cons]
    simp only [slotWidth, known] at ofItem sums wide ⊢
    split <;> omega

def freeRoom (slots : List (Slot α)) : Nat :=
  (slots.map Slot.free).sum

/-- An item takes free room of a slot, or opens a new one if it fits none. -/
theorem placeItem_cases (item : α) (width : Nat) (slots : List (Slot α)) :
    (placeItem item width slots).length = slots.length ∧
        freeRoom (placeItem item width slots) + width = freeRoom slots ∨
      (∀ slot ∈ slots, slot.free < width) ∧
        placeItem item width slots = slots ++ [⟨[item], slotWidth - width⟩] := by
  induction slots with
  | nil => exact .inr ⟨by simp, rfl⟩
  | cons _ _ ih =>
    unfold placeItem
    split
    · refine .inl ⟨rfl, ?_⟩
      simp only [freeRoom, map_cons, sum_cons]
      omega
    · obtain ⟨sameLength, taken⟩ | ⟨noneFits, opened⟩ := ih
      · refine .inl ⟨congrArg Nat.succ sameLength, ?_⟩
        simp only [freeRoom, map_cons, sum_cons] at taken ⊢
        omega
      · exact .inr ⟨forall_mem_cons.mpr ⟨by omega, noneFits⟩, by rw [opened, cons_append]⟩

/-- The slots hold the items, and there are no more of them than the items need: at most one for
each wide item, or all but one of them full. -/
structure Needed (size : α → Nat) (items : List α) (slots : List (Slot α)) : Prop where
  sums : (items.map size).sum + freeRoom slots = slotWidth * slots.length
  occupied : slots.length ≤ items.length
  few : slots.length ≤ items.countP (IsWide size) ∨
    slotWidth * slots.length < (items.map size).sum + slotWidth

theorem Needed.placeItem (needed : Needed size items slots)
    (known : size item ∈ [1, 20, 32]) (widest : ∀ other ∈ items, size item ≤ size other) :
    Needed size (items ++ [item]) (placeItem item (size item) slots) := by
  obtain ⟨sums, _, few⟩ := needed
  have isWide : IsWide size item ↔ 20 ≤ size item := by simp [IsWide]
  simp only [slotWidth] at sums few
  obtain ⟨_, _⟩ | ⟨noneFits, opened⟩ := placeItem_cases item (size item) slots
  · constructor <;> simp only [map_append, sum_append, map_singleton, sum_singleton,
        countP_append, length_append, slotWidth] <;> omega
  · simp only [mem_cons, not_mem_nil, or_false] at known
    -- The items before a wide one are wide, and the slots before one of width 1 are full.
    have before : 20 ≤ size item ∧ items.countP (IsWide size) = items.length ∨
        size item = 1 ∧ freeRoom slots = 0 := by
      obtain isOne | isWide : size item = 1 ∨ 20 ≤ size item := by omega
      · refine .inr ⟨isOne, sum_eq_zero fun free mem => ?_⟩
        obtain ⟨slot, isSlot, rfl⟩ := mem_map.mp mem
        exact Nat.lt_one_iff.mp (isOne ▸ noneFits slot isSlot)
      · refine .inl ⟨isWide, countP_eq_length.mpr fun other isOther => ?_⟩
        simpa [IsWide] using Nat.le_trans isWide (widest other isOther)
    rw [opened]
    constructor <;> simp only [freeRoom, map_append, sum_append, map_singleton,
        sum_singleton, countP_append, countP_singleton, length_append,
        length_singleton, slotWidth, isWide] at sums before ⊢
    · omega
    · omega
    · split <;> omega

theorem needed_foldl_placeItem {before items : List α} (needed : Needed size before slots)
    (known : ∀ item ∈ items, size item ∈ [1, 20, 32])
    (falls : (before ++ items).Pairwise fun earlier later => size later ≤ size earlier) :
    Needed size (before ++ items)
      (items.foldl (fun slots item => placeItem item (size item) slots) slots) := by
  induction items generalizing before slots with
  | nil => rwa [append_nil]
  | cons item _ ih =>
    obtain ⟨ofItem, ofRest⟩ := forall_mem_cons.mp known
    have widest : ∀ other ∈ before, size item ≤ size other := fun other isOther =>
      (pairwise_append.mp falls).2.2 other isOther item mem_cons_self
    rw [append_cons] at falls ⊢
    exact ih (needed.placeItem ofItem widest) ofRest falls

/-- If every declaration takes 1, 20 or 32 bytes, no order of them takes fewer slots than the
packed one. -/
theorem pack_layOut_length_le (enumNames : List String) (declarations other : List Declaration)
    (known : ∀ found ∈ declarations, storageWidth found.type enumNames ∈ [1, 20, 32])
    (isOrder : other.Perm declarations) :
    let size := room fun found : Declaration => storageWidth found.type enumNames
    (layOut size (pack (fun found => storageWidth found.type enumNames) declarations)).length ≤
      (layOut size other).length := by
  intro size
  set width := fun found : Declaration => storageWidth found.type enumNames
  have sorted := byWidth_sorted width declarations
  have isSorted : (byWidth width declarations).Perm declarations := mergeSort_perm _ _
  have sizes : ∀ found ∈ byWidth width declarations, size found ∈ [1, 20, 32] := by
    intro found member
    have isKnown := known found (isSorted.mem_iff.mp member)
    simp only [mem_cons, not_mem_nil, or_false] at isKnown ⊢
    simp only [size, room, slotWidth]
    omega
  have falls : (byWidth width declarations).Pairwise fun earlier later =>
      size later ≤ size earlier :=
    sorted.imp fun below => by simp only [size, room, width] at below ⊢; omega
  have needed : Needed size (byWidth width declarations) (fillSlots width declarations) :=
    @needed_foldl_placeItem _ size [] [] _ ⟨rfl, Nat.le_refl _, .inl (Nat.le_refl _)⟩ sizes falls
  have same := isOrder.trans isSorted.symm
  have bounds := @layOut_bounds _ size other fun found _ => Nat.min_le_right _ _
  rw [(same.map size).sum_eq, same.countP_eq] at bounds
  have few := needed.few
  have isLaid : layOut size (pack width declarations) =
      (fillSlots width declarations).map Slot.items :=
    layOut_flatMap_items (filled_fillSlots width) (accounts_fillSlots width)
  rw [isLaid, length_map]
  simp only [slotWidth] at few bounds
  omega

/-- A flag, an account and a counter, in an order that takes one more slot. -/
def ledgerFields : List Declaration :=
  [⟨"open", "bool", false⟩, ⟨"total", "uint256", false⟩, ⟨"owner", "address", false⟩]

theorem ledgerFields_layOut_length_le :
    let size := room fun found : Declaration => storageWidth found.type []
    (∀ found ∈ ledgerFields, storageWidth found.type [] ∈ [1, 20, 32]) ∧
      (layOut size (pack (fun found => storageWidth found.type []) ledgerFields)).length ≤
        (layOut size ledgerFields).length :=
  have known : ∀ found ∈ ledgerFields, storageWidth found.type [] ∈ [1, 20, 32] := by decide +kernel
  ⟨known, pack_layOut_length_le [] ledgerFields ledgerFields known (.refl _)⟩

end ContractForge.Listing
