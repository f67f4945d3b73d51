import CutPlan.Search.ResponseTruncation
import Mathlib.Data.List.Infix

/-! # Responses on the wire

What the bridge makes of the bytes that it has received when the peer closes the connection.  The length of
the body is not compared with the headers.
-/

namespace CutPlan.Search

open CutPlan.Lib.Json

def blankLine : Text := [0x0D, 0x0A, 0x0D, 0x0A]

/-- What follows the first blank line. -/
def afterBlankLine : Text → Option Text
  | [] => none
  | byte :: text => if blankLine <+: byte :: text then some ((byte :: text).drop 4) else afterBlankLine text

def parseHttpBody (response : Text) : Text := (afterBlankLine response).getD []

def isDigitByte (byte : UInt8) : Bool := ascii '0' ≤ byte && byte ≤ ascii '9'

def digitsValue (text : Text) : ℕ :=
  (text.takeWhile isDigitByte).foldl (fun value byte => 10 * value + (byte - ascii '0').toNat) 0

/-- `atoi` of the standard library. -/
def atoi (text : Text) : ℤ :=
  match text.dropWhile isSpaceByte with
  | [] => 0
  | sign :: digits =>
    if sign = ascii '-' then -(digitsValue digits : ℤ)
    else if sign = ascii '+' then digitsValue digits
    else digitsValue (sign :: digits)

def parseHttpStatus (response : Text) : ℤ :=
  if response.length < 12 || response.take 5 ≠ asciiText "HTTP/" then 0
  else
    match response.dropWhile fun byte => byte ≠ ascii ' ' with
    | [] => 0
    | _ :: text => atoi text

def transportOk (response : Text) : Bool := 200 ≤ parseHttpStatus response && parseHttpStatus response < 300

theorem length_of_afterBlankLine {text body : Text} (isBody : afterBlankLine text = some body) : 4 ≤ text.length := by
  induction text with
  | nil => cases isBody
  | cons byte text inductionHypothesis =>
    rw [afterBlankLine] at isBody
    split at isBody
    case isTrue found => exact found.length_le
    case isFalse =>
      have longer := inductionHypothesis isBody
      rw [List.length_cons]
      omega

/-- The blank line that ends the headers stays the first one. -/
theorem afterBlankLine_more {text body : Text} (isBody : afterBlankLine text = some body) (more : Text) :
    afterBlankLine (text ++ more) = some (body ++ more) := by
  induction text with
  | nil => cases isBody
  | cons byte text inductionHypothesis =>
    rw [afterBlankLine] at isBody
    rw [List.cons_append, afterBlankLine, ← List.cons_append]
    split at isBody
    case isTrue found =>
      have longEnough : 4 ≤ (byte :: text).length := found.length_le
      rw [if_pos (found.trans (List.prefix_append _ more)), List.drop_append_of_le_length longEnough]
      cases isBody
      rfl
    case isFalse notFound =>
      -- The text is longer than the blank line, so nothing that follows can complete one here.
      have longer := length_of_afterBlankLine isBody
      have notFoundMore : ¬ blankLine <+: byte :: text ++ more := by
        intro found
        apply notFound
        apply List.prefix_of_prefix_length_le found (List.prefix_append _ more)
        rw [List.length_cons]
        exact longer.trans (Nat.le_succ _)
      rw [if_neg notFoundMore]
      exact inductionHypothesis isBody

/-- A cut in the headers leaves no body, and one behind them leaves a part of it. -/
theorem parseHttpBody_more (response more : Text) :
    parseHttpBody response = [] ∨ parseHttpBody (response ++ more) = parseHttpBody response ++ more := by
  cases isBody : afterBlankLine response with
  | none =>
    left
    rw [parseHttpBody, isBody]
    rfl
  | some body =>
    right
    rw [parseHttpBody, parseHttpBody, afterBlankLine_more isBody more, isBody]
    rfl

/-- No part of the response that leaves out more than whitespace has a body that is accepted. -/
theorem parseResponseBody_cut {response : Text} {body : ResponseBody}
    (accepted : parseResponseBody (parseHttpBody response) = .ok body) {cut : Text} (isPrefix : cut <+: trimmed response)
    (proper : cut ≠ trimmed response) (body' : ResponseBody) : parseResponseBody (parseHttpBody cut) ≠ .ok body' := by
  intro acceptedCut
  obtain ⟨more, isResponse, notSpace⟩ := exists_missing isPrefix proper
  rw [← isResponse] at accepted
  obtain noBody | isMore := parseHttpBody_more cut more
  · rw [noBody] at acceptedCut
    cases acceptedCut
  · rw [isMore] at accepted
    exact notSpace (parseResponseBody_more acceptedCut accepted)

end CutPlan.Search
