import DarwinNotes.Lib.CString

/-!
# Property attribute strings (`objc-class.mm`)

The attributes of a property are an array of names and values; their string is a
comma-separated list in which a name of one character stands bare and a longer one
in double quotes. `copyPropertyAttributeString` writes the string,
`iteratePropertyAttributes` reads it for `copyPropertyAttributeList` and
`copyPropertyAttributeValue`.
-/

namespace DarwinNotes.Objc.Property

open Lib

def comma : Byte := 0x2c
def quote : Byte := 0x22

/-- `objc_property_attribute_t`; a value may be `NULL`. Names and values are C strings. -/
structure Attribute where
  name : List Byte
  value : Option (List Byte)
  nameString : 0 ∉ name
  valueString : ∀ value' ∈ value, 0 ∉ value'

/-- What debug builds assert of an attribute. -/
structure Attribute.WellFormed (attr : Attribute) : Prop where
  nonempty : attr.name ≠ []
  noComma : comma ∉ attr.name
  noQuote : quote ∉ attr.name
  valueNoComma : ∀ value ∈ attr.value, comma ∉ value

/-! ## Writing the string -/

/-- The room one attribute takes, with its comma. -/
def attributeLength (attr : Attribute) : Nat :=
  match attr.value with
  | none => 0
  | some value =>
    let namelen := attr.name.length
    let namelen := if 1 < namelen then namelen + 2 else namelen
    namelen + value.length + 1

/-- What `sprintf` prints for an attribute: `"%s"%s,` with the quotes for a long name. -/
def formatAttribute (name value : List Byte) : List Byte :=
  if 1 < name.length then quote :: name ++ quote :: value ++ [comma] else name ++ value ++ [comma]

/-- `s += sprintf(s, …)`: the text and a terminator are written, the cursor passes the text. -/
def sprintf (block : List Byte) (s : Nat) (text : List Byte) : Except Fault (List Byte × Nat) := do
  let block ← writeAt block s (text ++ [0])
  return (block, s + text.length)

/-- The second loop of `copyPropertyAttributeString`. -/
def printAttributes (block : List Byte) (s : Nat) : List Attribute → Except Fault (List Byte × Nat)
  | [] => .ok (block, s)
  | attr :: attrs =>
    match attr.value with
    | none => printAttributes block s attrs
    | some value => do
      let (block, s) ← sprintf block s (formatAttribute attr.name value)
      printAttributes block s attrs

/-- `copyPropertyAttributeString`; the result is the allocated block. -/
def copyPropertyAttributeString (allocator : Allocator) (attrs : List Attribute) : Except Fault (List Byte) :=
  if attrs.length = 0 then .ok [0]
  else do
    let len := (attrs.map attributeLength).sum
    let (block, s) ← printAttributes (allocator.malloc (len + 1)) 0 attrs
    -- remove trailing ',' if any
    if 0 < s then writeAt block (s - 1) [0] else return block

/-! ## Reading the string -/

/-- The name and the value of a non-empty attribute without a comma, `[start, end)`. -/
def splitAttribute (attr : List Byte) : List Byte × List Byte :=
  match attr with
  | [] => ([], [])
  | first :: rest =>
    if first ≠ quote then ([first], rest)
    else
      let nlen := strcspn rest [quote, comma]
      let start := rest.drop nlen
      (rest.take nlen, if start.head? = some quote then start.tail else start)

/-- `iteratePropertyAttributes` from attribute `attrcount` on. The callback gets the index,
its context, the name and the value, and says whether to go on. -/
def iteratePropertyAttributes {σ : Type} (fn : Nat → σ → List Byte → List Byte → Except Fault (σ × Bool))
    (attrcount : Nat) (context : σ) (attrs : List Byte) : Except Fault (Nat × σ) :=
  match attrs with
  | [] => .ok (attrcount, context)
  | c :: cs =>
    let length := strcspn (c :: cs) [comma]
    -- past the attribute and the comma, if any
    let rest := cs.drop length
    if length = 0 then iteratePropertyAttributes fn attrcount context rest
    else do
      let (name, value) := splitAttribute ((c :: cs).take length)
      let (context, more) ← fn attrcount context name value
      if more then iteratePropertyAttributes fn (attrcount + 1) context rest
      else return (attrcount + 1, context)
termination_by attrs.length
decreasing_by all_goals grind

/-- The block of `copyPropertyAttributeList`: an array with room for `capacity` attributes
and a null one, each a pair of pointers into the `strings` behind it, which are written up to `rs`. -/
structure AttributeBlock where
  capacity : Nat
  attributes : List (Nat × Nat)
  strings : List Byte
  rs : Nat
deriving DecidableEq

/-- `copyOneAttribute` -/
def copyOneAttribute (_index : Nat) (block : AttributeBlock) (name value : List Byte) : Except Fault (AttributeBlock × Bool) :=
  if block.attributes.length < block.capacity then do
    let nameAt := block.rs
    let strings ← writeAt block.strings nameAt (name ++ [0])
    let valueAt := nameAt + name.length + 1
    let strings ← writeAt strings valueAt (value ++ [0])
    return ({ block with
      attributes := block.attributes ++ [(nameAt, valueAt)]
      strings
      rs := valueAt + value.length + 1 }, true)
  else .error .outOfBounds

variable (attrs : Option (List Byte))

/-- `copyPropertyAttributeList`, with `outCount`. -/
def copyPropertyAttributeList : Except Fault (Option AttributeBlock × Nat) :=
  match attrs with
  | none => .ok (none, 0)
  | some attrs => do
    let attrcount := 1 + attrs.count comma
    let empty := { capacity := attrcount, attributes := [], rs := 0, strings := List.replicate (attrs.length + attrcount * 2) 0 }
    let (attrcount, block) ← iteratePropertyAttributes copyOneAttribute 0 empty attrs
    return (if attrcount = 0 then none else some block, attrcount)

/-- `findOneAttribute`: stop at the name that is looked for, with a copy of the value. -/
def findOneAttribute (query : List Byte) (_index : Nat) (result : Option (List Byte)) (name value : List Byte) :
    Except Fault (Option (List Byte) × Bool) :=
  if query.length = name.length ∧ name = query.take name.length then .ok (some value, false) else .ok (result, true)

/-- `copyPropertyAttributeValue` -/
def copyPropertyAttributeValue (name : List Byte) : Except Fault (Option (List Byte)) :=
  match attrs with
  | none => .ok none
  | some attrs => do
    let (_, result) ← iteratePropertyAttributes (findOneAttribute name) 0 none attrs
    return result

/-- The name and value strings of attribute `i` of a block. -/
def AttributeBlock.read (block : AttributeBlock) : Except Fault (List (List Byte × List Byte)) :=
  block.attributes.mapM fun pointers => do
    let name ← cstring (block.strings.drop pointers.1)
    let value ← cstring (block.strings.drop pointers.2)
    return (name, value)

end DarwinNotes.Objc.Property
