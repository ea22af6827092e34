import DarwinNotes.Objc.Property.Model

/-!
# Property attributes survive their string

The attributes with a value are what the string holds. Reading a string of
well-formed attributes calls back once for each of them, in order (`feed`); the
list and the value lookup are two callbacks. The writer leaves its block without a
terminator when it is given attributes but none of them has a value.
-/

namespace DarwinNotes.Objc.Property
open List

open Lib

/-- A name with its value. -/
abbrev Pair := List Byte × List Byte

/-- The attributes that have a value. -/
def withValue (attrs : List Attribute) : List Pair := attrs.filterMap fun attr => attr.value.map (attr.name, ·)

structure Ok (pair : Pair) : Prop where
  nonempty : pair.1 ≠ []
  noComma : comma ∉ pair.1
  noQuote : quote ∉ pair.1
  nameString : 0 ∉ pair.1
  valueNoComma : comma ∉ pair.2
  valueString : 0 ∉ pair.2

variable {attrs : List Attribute}

theorem ok_withValue (wellFormed : ∀ attr ∈ attrs, attr.WellFormed) : ∀ pair ∈ withValue attrs, Ok pair := by
  intro pair mem
  obtain ⟨attr, member, found⟩ := mem_filterMap.mp mem
  obtain ⟨value, valued, rfl⟩ := Option.map_eq_some_iff.mp found
  have fine := wellFormed attr member
  exact { fine with nameString := attr.nameString, valueNoComma := fine.valueNoComma value valued, valueString := attr.valueString value valued }

theorem withValue_eq_nil : withValue attrs = [] ↔ ¬ ∃ attr ∈ attrs, attr.value ≠ none := by simp [withValue]

/-! ## The text -/

/-- An attribute as it stands between two commas. -/
def piece (pair : Pair) : List Byte :=
  if 1 < pair.1.length then quote :: pair.1 ++ quote :: pair.2 else pair.1 ++ pair.2

/-- The attribute string. -/
def joined : List Pair → List Byte
  | [] => []
  | pair :: pairs => piece pair ++ if pairs = [] then [] else comma :: joined pairs

/-- What the loop prints, with a comma after each attribute. -/
def printed (pairs : List Pair) : List Byte := pairs.flatMap fun pair => formatAttribute pair.1 pair.2

theorem formatAttribute_eq (pair : Pair) : formatAttribute pair.1 pair.2 = piece pair ++ [comma] := by
  unfold formatAttribute piece
  split <;> simp

theorem printed_eq : ∀ {pairs : List Pair}, pairs ≠ [] → printed pairs = joined pairs ++ [comma]
  | [], nonempty => absurd rfl nonempty
  | [pair], _ => by simp [printed, joined, formatAttribute_eq]
  | pair :: next :: pairs, _ => by
    have rest := printed_eq (cons_ne_nil next pairs)
    have head : joined (pair :: next :: pairs) = piece pair ++ comma :: joined (next :: pairs) := rfl
    rw [printed, flatMap_cons, ← printed, rest, formatAttribute_eq, head]
    simp

variable {pair : Pair}

theorem notMem_piece {c : Byte} (notQuote : c ≠ quote) (notName : c ∉ pair.1) (notValue : c ∉ pair.2) : c ∉ piece pair := by
  unfold piece
  split <;> simp [notQuote, notName, notValue]

theorem zero_notMem_joined : ∀ {pairs : List Pair}, (∀ pair ∈ pairs, Ok pair) → 0 ∉ joined pairs
  | [], _ => by simp [joined]
  | pair :: pairs, ok => by
    obtain ⟨first, rest⟩ := forall_mem_cons.mp ok
    rw [joined, mem_append, not_or]
    refine ⟨notMem_piece (by decide) first.nameString first.valueString, ?_⟩
    split
    · exact not_mem_nil
    · exact not_mem_cons_of_ne_of_not_mem (by decide) (zero_notMem_joined rest)

/-! ## Writing -/

theorem length_printed (attrs : List Attribute) : (printed (withValue attrs)).length = (attrs.map attributeLength).sum := by
  induction attrs with
  | nil => rfl
  | cons attr _ ih =>
    rw [map_cons, sum_cons, ← ih]
    cases valued : attr.value with
    | none => simp [withValue, attributeLength, valued]
    | some =>
      simp only [withValue, printed, attributeLength, formatAttribute, valued, filterMap_cons, Option.map_some, flatMap_cons, length_append]
      split <;> simp <;> omega

/-- The loop fills the block up to its last byte, which is a terminator once something was printed. -/
theorem printAttributes_eq (attrs : List Attribute) (front room : List Byte)
    (size : room.length = (printed (withValue attrs)).length + 1) : ∃ last, printAttributes (front ++ room) front.length attrs =
        .ok (front ++ printed (withValue attrs) ++ [last], front.length + (printed (withValue attrs)).length) ∧
      if withValue attrs = [] then room = [last] else last = 0 := by
  induction attrs generalizing front room with
  | nil =>
    obtain ⟨last, rfl⟩ := length_eq_one_iff.mp (by simpa [withValue, printed] using size)
    exact ⟨last, by simp [printAttributes, withValue, printed], by simp [withValue]⟩
  | cons attr attrs ih =>
    rw [printAttributes]
    cases valued : attr.value with
    | none =>
      have same : withValue (attr :: attrs) = withValue attrs := by simp [withValue, valued]
      rw [same] at size ⊢
      exact ih front room size
    | some value =>
      have more : withValue (attr :: attrs) = (attr.name, value) :: withValue attrs := by simp [withValue, valued]
      have text : printed (withValue (attr :: attrs)) = formatAttribute attr.name value ++ printed (withValue attrs) := by rw [more]; rfl
      rw [text, length_append] at size
      -- the terminator this call writes is the first byte of the room of the next one
      obtain ⟨old, next, rest, rfl, oldSize⟩ :
          ∃ old next rest, room = old ++ [next] ++ rest ∧ old.length = (formatAttribute attr.name value).length := by
        refine ⟨room.take (formatAttribute attr.name value).length, room[(formatAttribute attr.name value).length],
          room.drop ((formatAttribute attr.name value).length + 1), ?_, ?_⟩
        · rw [append_assoc, singleton_append, ← drop_eq_getElem_cons, take_append_drop]
        · rw [length_take]
          omega
      have roomLeft : (0 :: rest).length = (printed (withValue attrs)).length + 1 := by
        simp only [length_append, length_cons, length_nil] at size ⊢
        omega
      obtain ⟨last, done, ends⟩ := ih (front ++ formatAttribute attr.name value) (0 :: rest) roomLeft
      refine ⟨last, ?_, ?_⟩
      · simp only [sprintf, writeAt_append front (old ++ [next]) (formatAttribute attr.name value ++ [0]) rest
          (by simp [oldSize]), bind, Except.bind, pure, Except.pure]
        simpa [text, Nat.add_assoc] using done
      · rw [more, if_neg (cons_ne_nil _ _)]
        split at ends
        · exact (cons.inj ends).1.symm
        · exact ends

/-- The writer's result, once there is something to write. -/
theorem copyPropertyAttributeString_eq (allocator : Allocator) (some : withValue attrs ≠ []) :
    copyPropertyAttributeString allocator attrs = .ok (joined (withValue attrs) ++ [0, 0]) := by
  have nonempty : attrs.length ≠ 0 := fun empty => some (by rw [length_eq_zero_iff.mp empty]; rfl)
  obtain ⟨_, done, ends⟩ := printAttributes_eq attrs [] (allocator.malloc ((attrs.map attributeLength).sum + 1))
    (by rw [allocator.length_malloc, length_printed])
  rw [if_neg some] at ends
  subst ends
  simp only [nil_append, length_nil, Nat.zero_add] at done
  simp only [copyPropertyAttributeString, if_neg nonempty, done, bind, Except.bind]
  rw [printed_eq some, length_append, length_singleton, if_pos (Nat.succ_pos _), Nat.add_sub_cancel,
    append_assoc, writeAt_append _ [comma] [0] [0] rfl]
  rfl

/-- Attributes, none of them with a value: the block is what the allocator returned. -/
theorem copyPropertyAttributeString_untouched (allocator : Allocator) (given : attrs ≠ []) (none : withValue attrs = [])
    : copyPropertyAttributeString allocator attrs = .ok (allocator.malloc 1) := by
  obtain ⟨_, done, ends⟩ := printAttributes_eq attrs [] (allocator.malloc ((attrs.map attributeLength).sum + 1))
    (by rw [allocator.length_malloc, length_printed])
  rw [if_pos none] at ends
  simp only [nil_append, length_nil, Nat.zero_add, none, printed, flatMap_nil] at done
  have zero : (attrs.map attributeLength).sum = 0 := by rw [← length_printed, none]; rfl
  rw [zero] at ends
  simp only [copyPropertyAttributeString, length_eq_zero_iff, if_neg given, done, bind, Except.bind]
  rw [if_neg (Nat.lt_irrefl 0), ends]
  rfl

/-! ## Reading -/

/-- Call back for each of `pairs`, from attribute `attrcount` on, until told to stop. -/
def feed {σ : Type} (fn : Nat → σ → List Byte → List Byte → Except Fault (σ × Bool)) (attrcount : Nat) (context : σ) :
    List Pair → Except Fault (Nat × σ)
  | [] => .ok (attrcount, context)
  | pair :: pairs => do
    let (context, more) ← fn attrcount context pair.1 pair.2
    if more then feed fn (attrcount + 1) context pairs else return (attrcount + 1, context)

theorem piece_ne_nil (ok : Ok pair) : piece pair ≠ [] := by
  have := ok.nonempty
  unfold piece
  split <;> simp [this]

theorem splitAttribute_piece (ok : Ok pair) : splitAttribute (piece pair) = pair := by
  obtain ⟨name, value⟩ := pair
  unfold piece
  split
  next long =>
    have stop : strcspn (name ++ quote :: value) [quote, comma] = name.length := by
      apply strcspn_append
      · intro c mem bad
        rcases mem_cons.mp bad with rfl | bad
        · exact ok.noQuote mem
        · exact ok.noComma (mem_singleton.mp bad ▸ mem)
      · simp
    simp [splitAttribute, stop]
  next short =>
    obtain ⟨c, rfl⟩ : ∃ c, name = [c] := length_eq_one_iff.mp (by have := length_pos_iff.mpr ok.nonempty; simp only at this short; omega)
    have bare : c ≠ quote := fun same => ok.noQuote (by simp [same])
    simp [splitAttribute, bare]

variable {σ : Type} (fn : Nat → σ → List Byte → List Byte → Except Fault (σ × Bool)) (attrcount : Nat)

/-- One turn of the iteration over an attribute and what follows it. -/
theorem iterate_piece (context : σ)
    (ok : Ok pair) {rest : List Byte} (stops : ∀ c ∈ rest.head?, c = comma) :
    iteratePropertyAttributes fn attrcount context (piece pair ++ rest) = (do
      let (context, more) ← fn attrcount context pair.1 pair.2
      if more then iteratePropertyAttributes fn (attrcount + 1) context rest.tail
      else return (attrcount + 1, context)) := by
  obtain ⟨c, cs, shape⟩ := exists_cons_of_ne_nil (piece_ne_nil ok)
  have length : strcspn (piece pair ++ rest) [comma] = (piece pair).length := by
    apply strcspn_append
    · intro c mem bad
      exact notMem_piece (by decide) ok.noComma ok.valueNoComma (mem_singleton.mp bad ▸ mem)
    · simpa using stops
  have parts := splitAttribute_piece ok
  rw [shape] at length parts ⊢
  rw [cons_append] at length ⊢
  have slice : (c :: (cs ++ rest)).take (cs.length + 1) = c :: cs := by simp
  have past : (cs ++ rest).drop (cs.length + 1) = rest.tail := by simp [drop_append]
  rw [iteratePropertyAttributes]
  simp only [length, length_cons, slice, past, parts]
  rw [if_neg (Nat.succ_ne_zero _)]

/-- **The iteration visits the attributes of a string, once and in order.** -/
theorem iterate_joined
    (context : σ) {pairs : List Pair} (ok : ∀ pair ∈ pairs, Ok pair) :
    iteratePropertyAttributes fn attrcount context (joined pairs) = feed fn attrcount context pairs := by
  induction pairs generalizing attrcount context with
  | nil => rw [joined, iteratePropertyAttributes, feed]
  | cons _ pairs ih =>
    obtain ⟨first, rest⟩ := forall_mem_cons.mp ok
    have tail : (if pairs = [] then [] else comma :: joined pairs).tail = joined pairs := by
      split
      next none => rw [none]; rfl
      next => rfl
    rw [joined, iterate_piece fn attrcount context first (by split <;> simp), tail, feed]
    simp [ih _ _ rest]

/-- The bytes `copyOneAttribute` lays down for an attribute. -/
def strings (pairs : List Pair) : List Byte := pairs.flatMap fun pair => pair.1 ++ [0] ++ (pair.2 ++ [0])

/-- The attributes were laid down in front of zeros, and can be read back whatever comes to stand there. -/
structure Laid (block : AttributeBlock) (front : List Byte) (pairs : List Pair) (room : Nat) : Prop where
  count : block.attributes.length = pairs.length
  zeros : block.strings = front ++ replicate room 0
  cursor : block.rs = front.length
  read (rest : List Byte) : AttributeBlock.read { block with strings := front ++ rest } = .ok pairs

theorem Laid.copyOneAttribute {block : AttributeBlock} {front : List Byte} {pairs : List Pair} {room : Nat}
    (laid : Laid block front pairs (pair.1.length + 1 + (pair.2.length + 1 + room))) (ok : Ok pair) (index : Nat)
    (space : pairs.length < block.capacity) : ∃ block', copyOneAttribute index block pair.1 pair.2 = .ok (block', true) ∧
      Laid block' (front ++ (pair.1 ++ [0]) ++ (pair.2 ++ [0])) (pairs ++ [pair]) room ∧ block'.capacity = block.capacity := by
  have behind : front.length + pair.1.length + 1 = (front ++ (pair.1 ++ [0])).length := by simp [Nat.add_assoc]
  have nameWrite := writeAt_append front (replicate (pair.1.length + 1) 0) (pair.1 ++ [0]) (replicate (pair.2.length + 1) 0 ++ replicate room 0) (by simp)
  have valueWrite := writeAt_append (front ++ (pair.1 ++ [0])) (replicate (pair.2.length + 1) 0) (pair.2 ++ [0]) (replicate room 0) (by simp)
  rw [append_assoc] at valueWrite
  rw [Property.copyOneAttribute, if_pos (laid.count ▸ space), laid.zeros, laid.cursor, replicate_add, replicate_add (pair.2.length + 1)]
  simp only [nameWrite, behind, bind, Except.bind, valueWrite]
  refine ⟨_, rfl, ⟨by simp [laid.count], (append_assoc _ _ _).symm, by simp only [length_append, length_singleton]; omega, fun rest => ?_⟩, rfl⟩
  have text : front ++ (pair.1 ++ [0]) ++ (pair.2 ++ [0]) ++ rest = front ++ (pair.1 ++ [0]) ++ (pair.2 ++ 0 :: rest) := by simp
  have nameAt : cstring ((front ++ (pair.1 ++ [0]) ++ (pair.2 ++ 0 :: rest)).drop front.length) = .ok pair.1 := by
    rw [append_assoc, append_assoc, drop_left]
    exact cstring_append ok.nameString
  have valueAt : cstring ((front ++ (pair.1 ++ [0]) ++ (pair.2 ++ 0 :: rest)).drop (front ++ (pair.1 ++ [0])).length) = .ok pair.2 := by
    rw [drop_left]
    exact cstring_append ok.valueString
  have before := laid.read (pair.1 ++ [0] ++ (pair.2 ++ 0 :: rest))
  rw [← append_assoc, AttributeBlock.read] at before
  rw [AttributeBlock.read, text, mapM_append, before, mapM_cons, nameAt, valueAt]
  rfl

/-- The list callback lays the attributes down one after the other. -/
theorem Laid.feed {pairs : List Pair} (ok : ∀ pair ∈ pairs, Ok pair) {block : AttributeBlock} {front : List Byte} {earlier : List Pair}
    {room : Nat} (laid : Laid block front earlier ((strings pairs).length + room)) (space : earlier.length + pairs.length ≤ block.capacity) :
    ∃ block' front', feed Property.copyOneAttribute attrcount block pairs = .ok (attrcount + pairs.length, block') ∧
      Laid block' front' (earlier ++ pairs) room := by
  induction pairs generalizing attrcount block front earlier with
  | nil => exact ⟨block, front, rfl, by simpa [strings] using laid⟩
  | cons pair pairs ih =>
    obtain ⟨okFirst, okLater⟩ := forall_mem_cons.mp ok
    have size : (strings (pair :: pairs)).length + room = pair.1.length + 1 + (pair.2.length + 1 + ((strings pairs).length + room)) := by
      simp only [strings, flatMap_cons, length_append, length_singleton]
      omega
    rw [size] at laid
    rw [length_cons] at space
    obtain ⟨block', isCopied, laid', same⟩ := laid.copyOneAttribute okFirst attrcount (by omega)
    obtain ⟨last, front', isFed, laidLast⟩ := ih (attrcount + 1) okLater laid' (by rw [same, length_append, length_singleton]; omega)
    refine ⟨last, front', ?_, by simpa using laidLast⟩
    rw [Property.feed, isCopied, length_cons, ← Nat.add_assoc, Nat.add_right_comm]
    exact isFed

theorem feed_findOneAttribute (query : List Byte) (pairs : List Pair) :
    ∃ visited, feed (findOneAttribute query) attrcount none pairs =
      .ok (visited, (pairs.find? fun pair => pair.1 = query).map Prod.snd) := by
  induction pairs generalizing attrcount with
  | nil => exact ⟨attrcount, rfl⟩
  | cons pair _ ih =>
    have compared : (query.length = pair.1.length ∧ pair.1 = query.take pair.1.length) ↔ pair.1 = query := by
      constructor
      · rintro ⟨size, same⟩
        rwa [← size, take_length] at same
      · rintro rfl
        exact ⟨rfl, take_length.symm⟩
    rw [feed, findOneAttribute]
    simp only [compared]
    by_cases named : pair.1 = query
    · exact ⟨attrcount + 1, by simp [named, bind, Except.bind, pure, Except.pure]⟩
    · obtain ⟨visited, done⟩ := ih (attrcount + 1)
      exact ⟨visited, by simpa [named, bind, Except.bind] using done⟩

/-- The string holds a comma between any two attributes. -/
theorem count_comma_joined : ∀ {pairs : List Pair}, (∀ pair ∈ pairs, Ok pair) → pairs.length ≤ 1 + (joined pairs).count comma
  | [], _ => Nat.zero_le _
  | [_], _ => Nat.le_add_right 1 _
  | pair :: next :: pairs, ok => by
    have rest := count_comma_joined (forall_mem_cons.mp ok).2
    have head : joined (pair :: next :: pairs) = piece pair ++ comma :: joined (next :: pairs) := rfl
    rw [head, count_append, count_cons_self]
    simp only [length_cons] at rest ⊢
    omega

/-- The string area of the list is large enough. -/
theorem length_strings_le : ∀ (pairs : List Pair), (strings pairs).length ≤ (joined pairs).length + pairs.length * 2
  | [] => Nat.zero_le _
  | pair :: pairs => by
    have rest := length_strings_le pairs
    have data : strings (pair :: pairs) = pair.1 ++ [0] ++ (pair.2 ++ [0]) ++ strings pairs := by simp [strings]
    have name : pair.1.length + pair.2.length ≤ (piece pair).length := by
      unfold piece
      split
      · simp only [length_append, length_cons]
        omega
      · simp
    have tail : (joined pairs).length ≤ (if pairs = [] then [] else comma :: joined pairs).length := by
      split
      next none => rw [none]; exact Nat.le_refl 0
      next => exact Nat.le_succ _
    rw [data, joined]
    simp only [length_append, length_cons, length_nil]
    omega

/-! ## The round trip -/

theorem copyPropertyAttributeList_joined {pairs : List Pair} (ok : ∀ pair ∈ pairs, Ok pair) :
    ∃ list, copyPropertyAttributeList (some (joined pairs)) = .ok (list, pairs.length) ∧
      list.elim (.ok []) AttributeBlock.read = .ok pairs := by
  have commas := count_comma_joined ok
  have area := length_strings_le pairs
  obtain ⟨room, size⟩ : ∃ room, (joined pairs).length + (1 + (joined pairs).count comma) * 2 =
      (strings pairs).length + room := Nat.exists_eq_add_of_le (by omega)
  let empty : AttributeBlock := ⟨1 + (joined pairs).count comma, [], replicate ((joined pairs).length + (1 + (joined pairs).count comma) * 2) 0, 0⟩
  have laid : Laid empty [] [] ((strings pairs).length + room) := ⟨rfl, congrArg (replicate · 0) size, rfl, fun _ => rfl⟩
  obtain ⟨block, front, done, laid⟩ := Laid.feed 0 ok laid (by simpa using commas)
  rw [copyPropertyAttributeList, iterate_joined _ _ _ ok, done, Nat.zero_add]
  refine ⟨_, rfl, ?_⟩
  split
  next none => rw [length_eq_zero_iff.mp none]; rfl
  next =>
    have back := laid.read (replicate room 0)
    rwa [← laid.zeros] at back

/-- The string of `attrs` is terminated and reads back as the attributes with a value: as the
list with its count, and name by name. -/
def RoundTrips (allocator : Allocator) (attrs : List Attribute) : Prop :=
  ∃ block text, copyPropertyAttributeString allocator attrs = .ok block ∧ cstring block = .ok text ∧
    (∃ list, copyPropertyAttributeList (some text) = .ok (list, (withValue attrs).length) ∧
      list.elim (.ok []) AttributeBlock.read = .ok (withValue attrs)) ∧ ∀ query, copyPropertyAttributeValue (some text) query =
      .ok (((withValue attrs).find? fun pair => pair.1 = query).map Prod.snd)

/-- The round trip of any text the writer leaves. -/
theorem roundTrips_of_text {allocator : Allocator} (wellFormed : ∀ attr ∈ attrs, attr.WellFormed) (rest : List Byte)
    (written : copyPropertyAttributeString allocator attrs = .ok (joined (withValue attrs) ++ 0 :: rest)) : RoundTrips allocator attrs := by
  have ok := ok_withValue wellFormed
  refine ⟨_, joined (withValue attrs), written, cstring_append (zero_notMem_joined ok),
    copyPropertyAttributeList_joined ok, fun query => ?_⟩
  obtain ⟨_, done⟩ := feed_findOneAttribute 0 query (withValue attrs)
  simp only [copyPropertyAttributeValue, iterate_joined _ _ _ ok, done, bind, Except.bind, pure, Except.pure]

/-- A block full of `A`s. -/
def dirty : Allocator := ⟨fun size => replicate size 0x41, fun _ => length_replicate⟩

/-- **Attributes survive their string, whatever the allocator returns, exactly when there are
none or one of them has a value.** -/
theorem property_attributes_round_trip (attrs : List Attribute) (wellFormed : ∀ attr ∈ attrs, attr.WellFormed) :
    (∀ allocator, RoundTrips allocator attrs) ↔ attrs = [] ∨ ∃ attr ∈ attrs, attr.value ≠ none := by
  constructor
  · intro always
    by_contra neither
    obtain ⟨given, valueless⟩ := not_or.mp neither
    obtain ⟨_, _, written, terminated, _⟩ := always dirty
    rw [copyPropertyAttributeString_untouched dirty given (withValue_eq_nil.mpr valueless)] at written
    cases written
    cases terminated
  · rintro (rfl | valued) allocator
    · exact roundTrips_of_text wellFormed [] rfl
    · have some : withValue attrs ≠ [] := fun none => withValue_eq_nil.mp none valued
      exact roundTrips_of_text wellFormed [0] (copyPropertyAttributeString_eq allocator some)

/-- `T` with the value `i`, and the long name `ab` with an empty value. -/
theorem property_attributes_round_trip_two : RoundTrips dirty
    [⟨[0x54], some [0x69], by decide, by decide⟩, ⟨[0x61, 0x62], some [], by decide, by decide⟩] := (property_attributes_round_trip _ (by
    intro attr mem
    rcases mem_cons.mp mem with rfl | mem
    · exact ⟨by decide, by decide, by decide, by decide⟩
    · rw [mem_singleton.mp mem]
      exact ⟨by decide, by decide, by decide, by decide⟩)).mpr (.inr ⟨_, mem_cons_self, by simp⟩) dirty

/-- One attribute `T` without a value: the result has no terminator. -/
theorem attribute_string_unterminated : ∃ block, copyPropertyAttributeString dirty [⟨[0x54], none, by decide, by decide⟩] = .ok block ∧
      cstring block = .error .outOfBounds := ⟨[0x41], by decide, by decide⟩

end DarwinNotes.Objc.Property
