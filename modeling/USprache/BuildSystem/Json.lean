import USprache.BuildSystem.BuildGraph
import USprache.Library.FiniteMap
import USprache.Ustlib.FloatRoundTrip
import USprache.Ustlib.Utf

/-!
# JSON values

The state of the build system is saved as a JSON text.  An object is the list of the pairs
of its hash map in the order of the iteration; the comparison and the search in an object
do not depend on this order.
-/

namespace USprache.BuildSystem

open LexSynt (Text ascii asciiText)
open Ustlib (SizeType floatPropertiesF64)
open Ustlib.FloatParsing (Fault parseAndExtractFloat)
open Ustlib.FloatPrinting (IsNaN unsignedBits printerF64)

inductive JsonValue where
  | null
  | bool (value : Bool)
  /-- The bits of a number of type `f64`. -/
  | number (bits : Nat)
  | string (value : Text)
  | array (values : List JsonValue)
  | object (pairs : List (Text × JsonValue))

namespace JsonValue

abbrev Object := List (Text × JsonValue)

def asString : JsonValue → Option Text
  | .string value => some value
  | _ => none

def asArray : JsonValue → Option (List JsonValue)
  | .array values => some values
  | _ => none

def asObject : JsonValue → Option Object
  | .object pairs => some pairs
  | _ => none

def insertOrUpdate : Object → Text → JsonValue → Object
  | [], key, value => [(key, value)]
  | (key', value') :: pairs, key, value =>
    if key' = key then (key, value) :: pairs else (key', value') :: insertOrUpdate pairs key value

def find (object : Object) (key : Text) : Option JsonValue := FiniteMap.lookupIn object key

/-- `==` for numbers of type `f64`: zero is equal to negative zero, a NaN to nothing. -/
def equalNumbers (l r : Nat) : Bool := ¬IsNaN floatPropertiesF64 l ∧ ¬IsNaN floatPropertiesF64 r ∧
    (l = r ∨ unsignedBits floatPropertiesF64 l = 0 ∧ unsignedBits floatPropertiesF64 r = 0)

mutual

def equal : JsonValue → JsonValue → Bool
  | .null, .null => true
  | .bool l, .bool r => l = r
  | .number l, .number r => equalNumbers l r
  | .string l, .string r => l = r
  | .array l, .array r => equalArrays l r
  | .object l, .object r => l.length = r.length && containedIn r l
  | _, _ => false

def equalArrays : List JsonValue → List JsonValue → Bool
  | [], [] => true
  | l :: ls, r :: rs => equal l r && equalArrays ls rs
  | _, _ => false

def containedIn (r : Object) : Object → Bool
  | [] => true
  | (key, value) :: l =>
    (match find r key with
      | none => false
      | some value' => equal value value') && containedIn r l

end

end JsonValue

/-- The bytes that `SerializeJsonString` writes for one byte. -/
def escapedChar (c : UInt8) : Text :=
  if c = ascii '"' then asciiText "\\\""
  else if c = ascii '\\' then asciiText "\\\\"
  else if c = 8 then asciiText "\\b"
  else if c = 12 then asciiText "\\f"
  else if c = ascii '\n' then asciiText "\\n"
  else if c = ascii '\r' then asciiText "\\r"
  else if c = ascii '\t' then asciiText "\\t"
  else [c]

def serializeJsonString (out : Text) (stringValue : Text) : Text :=
  stringValue.foldl (fun out c => out ++ escapedChar c) (out ++ [ascii '"']) ++ [ascii '"']

def serializeJsonNull (out : Text) : Text := out ++ asciiText "null"

def serializeJsonBool (out : Text) (boolValue : Bool) : Text :=
  out ++ (if boolValue then asciiText "true" else asciiText "false")

def serializeJsonNumber (out : Text) (numberValue : Nat) : Text :=
  out ++ printerF64.toString8 numberValue

mutual

/-- `SerializeJsonValue` appends the text of the value to `out`. -/
def serializeJsonValueTo (out : Text) : JsonValue → Text
  | .null => serializeJsonNull out
  | .bool boolValue => serializeJsonBool out boolValue
  | .number numberValue => serializeJsonNumber out numberValue
  | .string stringValue => serializeJsonString out stringValue
  | .array arrayValue =>
    let out := serializeElements (out ++ [ascii '[']) arrayValue
    -- Remove trailing comma.
    (if arrayValue.isEmpty then out else out.dropLast) ++ [ascii ']']
  | .object objectValue =>
    let out := serializePairs (out ++ [123]) objectValue
    (if objectValue.isEmpty then out else out.dropLast) ++ [125]

/-- The loop over an array: a comma after each value. -/
def serializeElements (out : Text) : List JsonValue → Text
  | [] => out
  | subValue :: arrayValue =>
    serializeElements (serializeJsonValueTo out subValue ++ [ascii ',']) arrayValue

def serializePairs (out : Text) : JsonValue.Object → Text
  | [] => out
  | (key, value) :: objectValue =>
    serializePairs
      (serializeJsonValueTo (serializeJsonString out key ++ [ascii ':']) value ++ [ascii ',']) objectValue

end

def serializeJsonValue (value : JsonValue) : Text := serializeJsonValueTo [] value

def indent (out : Text) (indentation : UInt32) : Text :=
  out ++ List.replicate indentation.toNat (ascii '\t')

/-- The end of a line in an array or in an object: all lines but the last have a comma. -/
def endLine (out : Text) (isLast : Bool) : Text :=
  (if isLast then out else out ++ [ascii ',']) ++ [ascii '\n']

mutual

def serializeJsonValuePrettyImpl (out : Text) (indentation : UInt32) : JsonValue → Text
  | .null => serializeJsonNull out
  | .bool boolValue => serializeJsonBool out boolValue
  | .number numberValue => serializeJsonNumber out numberValue
  | .string stringValue => serializeJsonString out stringValue
  | .array arrayValue =>
    if arrayValue.isEmpty then out ++ asciiText "[]"
    else
      indent (serializeElementsPretty (out ++ asciiText "[\n") indentation arrayValue) indentation ++
        [ascii ']']
  | .object objectValue =>
    if objectValue.isEmpty then out ++ [123, 125]
    else
      indent (serializePairsPretty (out ++ [123, ascii '\n']) indentation objectValue) indentation ++ [125]

def serializeElementsPretty (out : Text) (indentation : UInt32) : List JsonValue → Text
  | [] => out
  | subValue :: arrayValue =>
    let out := serializeJsonValuePrettyImpl (indent out (indentation + 1)) (indentation + 1) subValue
    serializeElementsPretty (endLine out arrayValue.isEmpty) indentation arrayValue

def serializePairsPretty (out : Text) (indentation : UInt32) : JsonValue.Object → Text
  | [] => out
  | (key, value) :: objectValue =>
    let out := serializeJsonString (indent out (indentation + 1)) key ++ asciiText " : "
    let out := serializeJsonValuePrettyImpl out (indentation + 1) value
    serializePairsPretty (endLine out objectValue.isEmpty) indentation objectValue

end

def serializeJsonValuePretty (value : JsonValue) : Text := serializeJsonValuePrettyImpl [] 0 value

def skipJsonWhitespaces : Text → Text
  | [] => []
  | c :: text =>
    if c = ascii ' ' ∨ c = ascii '\t' ∨ c = ascii '\r' ∨ c = ascii '\n' then skipJsonWhitespaces text
    else c :: text

/-- `subrange_end`: the range up to the end index. -/
def subrangeEnd (text : Text) (endIndex : Nat) : Text :=
  if endIndex ≥ text.length then text else text.take endIndex

/-- `null`, `false` and `true`. -/
def parseJsonLiteral (expected : Text) (value : JsonValue) (text : Text) : Option (JsonValue × Text) :=
  if expected.isPrefixOf text then some (value, subrangeEnd text expected.length) else none

def hexDigit (c : UInt8) : Option UInt32 :=
  if ascii '0' ≤ c ∧ c ≤ ascii '9' then some (c.toUInt32 - (ascii '0').toUInt32)
  else if ascii 'a' ≤ c ∧ c ≤ ascii 'f' then some (c.toUInt32 + 10 - (ascii 'a').toUInt32)
  else if ascii 'A' ≤ c ∧ c ≤ ascii 'F' then some (c.toUInt32 + 10 - (ascii 'A').toUInt32)
  else none

def hexCodePoint (c0 c1 c2 c3 : UInt8) : Option UInt32 := do
  let d0 ← hexDigit c0
  let d1 ← hexDigit c1
  let d2 ← hexDigit c2
  let d3 ← hexDigit c3
  some (d0 <<< 12 ||| d1 <<< 8 ||| d2 <<< 4 ||| d3)

def unescapedChar (c : UInt8) : Option UInt8 :=
  if c = ascii '"' ∨ c = ascii '\\' ∨ c = ascii '/' then some c
  else if c = ascii 'b' then some 8
  else if c = ascii 'f' then some 12
  else if c = ascii 'n' then some (ascii '\n')
  else if c = ascii 'r' then some (ascii '\r')
  else if c = ascii 't' then some (ascii '\t')
  else none

/-- The loop of `ParseJsonString`. -/
def parseStringContents (res : Text) : Text → Option (Text × Text)
  | [] => none
  | c :: text =>
    if c = ascii '"' then some (res, text)
    else if c = ascii '\\' then
      match text with
      | [] => none
      | escaped :: text =>
        if escaped = ascii 'u' then
          match text with
          | c0 :: c1 :: c2 :: c3 :: text =>
            match hexCodePoint c0 c1 c2 c3 with
            | none => none
            | some cc => parseStringContents (Ustlib.Utf.pushCodePointToString8 res cc) text
          | _ => none
        else
          match unescapedChar escaped with
          -- Unknown escape sequence.
          | none => none
          | some c => parseStringContents (res ++ [c]) text
    else parseStringContents (res ++ [c]) text

def parseJsonString : Text → Option (Text × Text)
  | [] => none
  | c :: text => if c = ascii '"' then parseStringContents [] text else none

inductive JsonStop where
  | outOfFuel
  | number (fault : Fault)
deriving DecidableEq

def parseJsonNumber (size : SizeType) (text : Text) : Except JsonStop (Option (Nat × Text)) :=
  match parseAndExtractFloat floatPropertiesF64 size text with
  | .error fault => .error (.number fault)
  | .ok (none, _) => .ok none
  | .ok (some number, text) => .ok (some (number, text))

/-- What follows a value in an array or in an object. -/
inductive Separator where
  | comma
  | close
deriving DecidableEq

def parseSeparator (close : UInt8) (text : Text) : Option (Separator × Text) :=
  match skipJsonWhitespaces text with
  | [] => none
  | c :: text =>
    if c = ascii ',' then some (.comma, text)
    else if c = close then some (.close, text)
    else none

def parseKey (text : Text) : Option (Text × Text) :=
  match parseJsonString (skipJsonWhitespaces text) with
  | none => none
  | some (key, text) =>
    match skipJsonWhitespaces text with
    | [] => none
    | c :: text => if c = ascii ':' then some (key, text) else none

section

variable (size : SizeType)

mutual

/-- `ParseJsonImpl`: the value at the front of the text, and the text that is left. -/
def parseJsonImpl : Nat → Text → Except JsonStop (Option (JsonValue × Text))
  | 0, _ => .error .outOfFuel
  | fuel + 1, text =>
    match skipJsonWhitespaces text with
    | [] => .ok none
    | c :: rest =>
      if c = ascii 'n' then .ok (parseJsonLiteral (asciiText "null") .null (c :: rest))
      else if c = ascii 'f' then .ok (parseJsonLiteral (asciiText "false") (.bool false) (c :: rest))
      else if c = ascii 't' then .ok (parseJsonLiteral (asciiText "true") (.bool true) (c :: rest))
      else if ascii '0' ≤ c ∧ c ≤ ascii '9' ∨ c = ascii '-' then
        match parseJsonNumber size (c :: rest) with
        | .error stop => .error stop
        | .ok none => .ok none
        | .ok (some (number, text)) => .ok (some (.number number, text))
      else if c = ascii '"' then
        .ok ((parseJsonString (c :: rest)).map fun (str, text) => (.string str, text))
      else if c = ascii '[' then
        match skipJsonWhitespaces rest with
        | [] => .ok none
        | c :: rest =>
          if c = ascii ']' then .ok (some (.array [], rest))
          else parseElements fuel [] (c :: rest)
      else if c = 123 then
        match skipJsonWhitespaces rest with
        | [] => .ok none
        | c :: rest =>
          if c = 125 then .ok (some (.object [], rest))
          else parsePairs fuel [] (c :: rest)
      else .ok none

def parseElements : Nat → List JsonValue → Text → Except JsonStop (Option (JsonValue × Text))
  | 0, _, _ => .error .outOfFuel
  | fuel + 1, array, text =>
    match parseJsonImpl fuel text with
    | .error stop => .error stop
    | .ok none => .ok none
    | .ok (some (subValue, text)) =>
      match parseSeparator (ascii ']') text with
      | none => .ok none
      | some (.comma, text) => parseElements fuel (array ++ [subValue]) text
      | some (.close, text) => .ok (some (.array (array ++ [subValue]), text))

def parsePairs : Nat → JsonValue.Object → Text → Except JsonStop (Option (JsonValue × Text))
  | 0, _, _ => .error .outOfFuel
  | fuel + 1, object, text =>
    match parseKey text with
    | none => .ok none
    | some (key, text) =>
      match parseJsonImpl fuel text with
      | .error stop => .error stop
      | .ok none => .ok none
      | .ok (some (value, text)) =>
        match parseSeparator 125 text with
        | none => .ok none
        | some (.comma, text) => parsePairs fuel (JsonValue.insertOrUpdate object key value) text
        | some (.close, text) =>
          .ok (some (.object (JsonValue.insertOrUpdate object key value), text))

end

/-- What is behind the value is not looked at. -/
def parseJson (jsonText : Text) : Except JsonStop (Option JsonValue) :=
  match parseJsonImpl size (2 * jsonText.length + 1) jsonText with
  | .error stop => .error stop
  | .ok result => .ok (result.map (·.1))

end

end USprache.BuildSystem
