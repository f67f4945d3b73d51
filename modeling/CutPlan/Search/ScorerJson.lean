import CutPlan.Lib.JsonDatum
import CutPlan.Lib.JsonValue
import CutPlan.Lib.Rounding
import CutPlan.Search.ResponseTransport

/-! # The JSON parser of the scorer

`JsonParser`.  The position is the text from there on, and the depth is the number of containers that may
still be opened.
-/

namespace CutPlan.Search

open CutPlan.Lib CutPlan.Lib.Json

abbrev JsonValue := Datum ℚ

namespace JsonParser

/-- A message and the text behind the position where it arose. -/
structure Failure where
  message : Text
  rest : Text
  deriving DecidableEq, Repr

def fail {α : Type} (message : String) (rest : Text) : Except Failure α := .error ⟨asciiText message, rest⟩

def isWhitespace (byte : UInt8) : Bool := byte = 0x20 || byte = 0x09 || byte = 0x0D || byte = 0x0A

def skipWhitespace (text : Text) : Text := text.dropWhile isWhitespace

/-! ## Strings -/

def hexValue (ch : UInt8) : Option ℕ :=
  if ascii '0' ≤ ch ∧ ch ≤ ascii '9' then some (ch.toNat - (ascii '0').toNat)
  else if ascii 'a' ≤ ch ∧ ch ≤ ascii 'f' then some (ch.toNat - (ascii 'a').toNat + 10)
  else if ascii 'A' ≤ ch ∧ ch ≤ ascii 'F' then some (ch.toNat - (ascii 'A').toNat + 10)
  else none

def parseHexQuad : Text → Except Failure (ℕ × Text)
  | first :: second :: third :: fourth :: text =>
    match hexValue first, hexValue second, hexValue third, hexValue fourth with
    | none, _, _, _ => fail "invalid unicode escape" (second :: third :: fourth :: text)
    | some _, none, _, _ => fail "invalid unicode escape" (third :: fourth :: text)
    | some _, some _, none, _ => fail "invalid unicode escape" (fourth :: text)
    | some _, some _, some _, none => fail "invalid unicode escape" text
    | some first, some second, some third, some fourth =>
      .ok (((first * 16 + second) * 16 + third) * 16 + fourth, text)
  | text => fail "truncated unicode escape" text

/-- What `append_utf8` appends. -/
def appendUtf8 (codepoint : ℕ) : Text :=
  if codepoint ≤ 0x7F then [codepoint.toUInt8]
  else if codepoint ≤ 0x7FF then [(0xC0 ||| codepoint >>> 6).toUInt8, (0x80 ||| codepoint &&& 0x3F).toUInt8]
  else if codepoint ≤ 0xFFFF then
    [(0xE0 ||| codepoint >>> 12).toUInt8, (0x80 ||| codepoint >>> 6 &&& 0x3F).toUInt8,
      (0x80 ||| codepoint &&& 0x3F).toUInt8]
  else
    [(0xF0 ||| codepoint >>> 18).toUInt8, (0x80 ||| codepoint >>> 12 &&& 0x3F).toUInt8,
      (0x80 ||| codepoint >>> 6 &&& 0x3F).toUInt8, (0x80 ||| codepoint &&& 0x3F).toUInt8]

/-- The escape `\u` and, after a high surrogate, the one that follows it. -/
def parseUnicodeEscape (text : Text) : Except Failure (Text × Text) := do
  let (codepoint, text) ← parseHexQuad text
  if 0xD800 ≤ codepoint ∧ codepoint ≤ 0xDBFF then
    match text with
    | backslash :: letter :: rest =>
      if backslash ≠ ascii '\\' ∨ letter ≠ ascii 'u' then fail "missing low unicode surrogate" text
      else do
        let (low, rest) ← parseHexQuad rest
        if low < 0xDC00 ∨ 0xDFFF < low then fail "invalid low unicode surrogate" rest
        else return (appendUtf8 (0x10000 + (codepoint - 0xD800) <<< 10 + (low - 0xDC00)), rest)
    | _ => fail "missing low unicode surrogate" text
  else if 0xDC00 ≤ codepoint ∧ codepoint ≤ 0xDFFF then fail "unexpected low unicode surrogate" text
  else return (appendUtf8 codepoint, text)

/-- What follows a backslash. -/
def parseEscape : Text → Except Failure (Text × Text)
  | [] => fail "truncated string escape" []
  | escape :: text =>
    match unescape escape with
    | some value => .ok ([value], text)
    | none => if escape = ascii 'u' then parseUnicodeEscape text else fail "invalid string escape" text

/-- The loop of `parse_string`. -/
def parseStringBytes : ℕ → Text → Text → Except Failure (Text × Text)
  | 0, _, text => fail "out of fuel" text
  | _ + 1, _, [] => fail "unterminated string" []
  | fuel + 1, output, ch :: text =>
    if ch = ascii '"' then .ok (output, text)
    else if ch < 0x20 then fail "unescaped control character in string" text
    else if ch ≠ ascii '\\' then parseStringBytes fuel (output ++ [ch]) text
    else do
      let (bytes, text) ← parseEscape text
      parseStringBytes fuel (output ++ bytes) text

def parseString : Text → Except Failure (Text × Text)
  | [] => fail "expected string" []
  | ch :: text =>
    if ch = ascii '"' then parseStringBytes (text.length + 1) [] text else fail "expected string" (ch :: text)

/-! ## Numbers -/

/-- The digits of an integer, without a zero in front of others. -/
def parseInteger : Text → Except Failure Text
  | [] => fail "truncated number" []
  | ch :: text =>
    if ch = ascii '0' then
      match text with
      | next :: rest => if isDigitByte next then fail "leading zero in number" (next :: rest) else .ok (next :: rest)
      | [] => .ok []
    else if isDigitByte ch then .ok (text.dropWhile isDigitByte)
    else fail "invalid number" (ch :: text)

def parseDigits (error : String) : Text → Except Failure Text
  | [] => fail error []
  | ch :: text => if isDigitByte ch then .ok (text.dropWhile isDigitByte) else fail error (ch :: text)

def parseFraction : Text → Except Failure Text
  | [] => .ok []
  | ch :: text => if ch = ascii '.' then parseDigits "invalid fraction" text else .ok (ch :: text)

def skipSign : Text → Text
  | [] => []
  | ch :: text => if ch = ascii '+' ∨ ch = ascii '-' then text else ch :: text

def parseExponent : Text → Except Failure Text
  | [] => .ok []
  | ch :: text =>
    if ch = ascii 'e' ∨ ch = ascii 'E' then parseDigits "invalid exponent" (skipSign text) else .ok (ch :: text)

def skipMinus : Text → Text
  | [] => []
  | ch :: text => if ch = ascii '-' then text else ch :: text

def signed (negative : Bool) (magnitude : ℚ) : ℚ := if negative then -magnitude else magnitude

/-- The exponent after the fraction of a number. -/
def strtodExponent : Text → ℤ
  | [] => 0
  | _ :: text =>
    if text.head? = some (ascii '-') then -(decimalValue (skipSign text) : ℤ) else decimalValue (skipSign text)

/-- `strtod` of the standard library, on the numbers of JSON.  None where it reports a range error. -/
def strtod (token : Text) : Option ℚ :=
  let unsigned := skipMinus token
  let integer := unsigned.takeWhile isDigitByte
  let rest := unsigned.dropWhile isDigitByte
  let fraction := if rest.head? = some (ascii '.') then rest.tail.takeWhile isDigitByte else []
  let exponent := if rest.head? = some (ascii '.') then rest.tail.dropWhile isDigitByte else rest
  (toDouble (decimalValue (integer ++ fraction) * 10 ^ (strtodExponent exponent - fraction.length))).map
    (signed (token.head? = some (ascii '-')))

def parseNumber (text : Text) : Except Failure (JsonValue × Text) := do
  let rest ← parseInteger (skipMinus text)
  let rest ← parseFraction rest
  let rest ← parseExponent rest
  match strtod (text.take (text.length - rest.length)) with
  | some value => return (.number value, rest)
  | none => fail "number is out of range" rest

/-! ## Arrays and objects -/

section Containers

variable (parseNested : Text → Except Failure (JsonValue × Text))

/-- The loop of `parse_array`. -/
def parseElements : ℕ → List JsonValue → Text → Except Failure (List JsonValue × Text)
  | 0, _, text => fail "out of fuel" text
  | fuel + 1, values, text => do
    let (value, text) ← parseNested text
    match skipWhitespace text with
    | [] => fail "unterminated array" []
    | delimiter :: text =>
      if delimiter = ascii ']' then return (values ++ [value], text)
      else if delimiter ≠ ascii ',' then fail "expected ',' or ']' in array" text
      else parseElements fuel (values ++ [value]) (skipWhitespace text)

def parseArray (text : Text) : Except Failure (JsonValue × Text) :=
  if (skipWhitespace text).head? = some (ascii ']') then .ok (.array [], (skipWhitespace text).tail)
  else do
    let (values, text) ← parseElements parseNested (text.length + 1) [] (skipWhitespace text)
    return (.array values, text)

def parseColon (text : Text) : Except Failure Text :=
  match skipWhitespace text with
  | [] => fail "expected ':' in object" []
  | ch :: text => if ch = ascii ':' then .ok text else fail "expected ':' in object" (ch :: text)

/-- The loop of `parse_object`. -/
def parseMembers : ℕ → List (Text × JsonValue) → Text → Except Failure (List (Text × JsonValue) × Text)
  | 0, _, text => fail "out of fuel" text
  | fuel + 1, values, text => do
    let (key, text) ← parseString (skipWhitespace text)
    let text ← parseColon text
    let (value, text) ← parseNested (skipWhitespace text)
    if key ∈ values.map Prod.fst then .error ⟨asciiText "duplicate object key '" ++ key ++ asciiText "'", text⟩
    else
      match skipWhitespace text with
      | [] => fail "unterminated object" []
      | delimiter :: text =>
        if delimiter = ascii '}' then return (values ++ [(key, value)], text)
        else if delimiter ≠ ascii ',' then fail "expected ',' or '\x7d' in object" text
        else parseMembers fuel (values ++ [(key, value)]) (skipWhitespace text)

def parseObject (text : Text) : Except Failure (JsonValue × Text) :=
  if (skipWhitespace text).head? = some (ascii '}') then .ok (.object [], (skipWhitespace text).tail)
  else do
    let (values, text) ← parseMembers parseNested (text.length + 1) [] (skipWhitespace text)
    return (.object values, text)

end Containers

/-! ## Values -/

/-- A container is opened, unless too many are open. -/
def parseContainer (parse : (Text → Except Failure (JsonValue × Text)) → Text → Except Failure (JsonValue × Text))
    (parseNested : Option (Text → Except Failure (JsonValue × Text))) (text : Text) : Except Failure (JsonValue × Text) :=
  match parseNested with
  | none => fail "JSON nesting limit exceeded" text
  | some parseNested => parse parseNested text

/-- `parse_value`, given what parses the values inside of a container. -/
def parseValueWith (parseNested : Option (Text → Except Failure (JsonValue × Text))) (text : Text) : Except Failure (JsonValue × Text) :=
  match skipWhitespace text with
  | [] => fail "expected JSON value" []
  | ch :: text =>
    if ch = ascii '"' then do
      let (value, text) ← parseString (ch :: text)
      return (.string value, text)
    else if ch = ascii '{' then parseContainer parseObject parseNested text
    else if ch = ascii '[' then parseContainer parseArray parseNested text
    else if ch = ascii '-' ∨ isDigitByte ch then parseNumber (ch :: text)
    else if (ch :: text).take 4 = asciiText "true" then .ok (.bool true, (ch :: text).drop 4)
    else if (ch :: text).take 5 = asciiText "false" then .ok (.bool false, (ch :: text).drop 5)
    else if (ch :: text).take 4 = asciiText "null" then .ok (.null, (ch :: text).drop 4)
    else fail "invalid JSON value" (ch :: text)

def parseValue : ℕ → Text → Except Failure (JsonValue × Text)
  | 0 => parseValueWith none
  | levels + 1 => parseValueWith (some (parseValue levels))

def nestingLimit : ℕ := 64

/-- The text of an error. -/
def Failure.describe (text : Text) (failure : Failure) : Text :=
  failure.message ++ asciiText " at byte " ++ decimal (text.length - failure.rest.length)

def parse (text : Text) : Except Text JsonValue :=
  match parseValue nestingLimit text with
  | .error failure => .error (failure.describe text)
  | .ok (result, rest) =>
    if skipWhitespace rest = [] then .ok result
    else .error (Failure.describe text ⟨asciiText "trailing content after JSON value", skipWhitespace rest⟩)

end JsonParser

end CutPlan.Search
