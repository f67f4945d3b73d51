import CutPlan.Pipeline.ResponseAgreement
import CutPlan.Search.ResponseTransport

/-! # Truncated responses inject nothing

The connection that is closed early, from the bytes that were received to the chains that are injected.
-/

namespace CutPlan.Pipeline

open CutPlan.Lib.Json CutPlan.Search

variable {S : Type}

/-- The response that the bridge hands over when the connection is closed. -/
def receivedResponse (stateId : S) (received : Text) : LlmResponse S :=
  ⟨stateId, transportOk received, byteString (parseHttpBody received)⟩

/-- Whether `poll_llm_responses` reports a parse error. -/
def reportsParseError (response : LlmResponse S) : Bool :=
  response.transportOk && !response.body.isEmpty && !(parseLlmResponseBody response.body).valid

theorem valid_iff (body : Text) :
    (parseLlmResponseBody (byteString body)).valid = true ↔ ∃ response, parseResponseBody body = .ok response := by
  rw [parseLlmResponseBody, stringBytes_byteString]
  cases parseResponseBody body with
  | error error => simp
  | ok response => simp

theorem byteString_isEmpty (body : Text) : (byteString body).isEmpty = true ↔ body = [] := by
  constructor
  · intro isEmpty
    rw [String.isEmpty_iff] at isEmpty
    have noBytes := congrArg stringBytes isEmpty
    rw [stringBytes_byteString] at noBytes
    exact noBytes
  · rintro rfl
    rfl

/-- A proper part of an accepted body, or of a response with such a body, is never accepted.  Nothing of it is
injected, and a parse error is reported as soon as a part of the body was received. -/
theorem truncated_refused (stateId : S) (body : Text) (accepted : (parseLlmResponseBody (byteString body)).valid = true) :
    (∀ cut, cut <+: trimmed body → cut ≠ trimmed body → (parseLlmResponseBody (byteString cut)).valid = false) ∧
      ∀ received, parseHttpBody received = body → ∀ cut, cut <+: trimmed received → cut ≠ trimmed received →
        (receivedResponse stateId cut).chainsToInject parseLlmResponseBody = [] ∧
          (transportOk cut = true → parseHttpBody cut ≠ [] → reportsParseError (receivedResponse stateId cut) = true) := by
  obtain ⟨response, parses⟩ := (valid_iff body).mp accepted
  constructor
  · intro cut isPrefix proper
    rw [Bool.eq_false_iff, ne_eq, valid_iff]
    rintro ⟨other, parsesCut⟩
    exact parseResponseBody_prefix parses isPrefix proper other parsesCut
  · rintro received rfl cut isPrefix proper
    have refused : (parseLlmResponseBody (byteString (parseHttpBody cut))).valid = false := by
      rw [Bool.eq_false_iff, ne_eq, valid_iff]
      rintro ⟨other, parsesCut⟩
      exact parseResponseBody_cut parses isPrefix proper other parsesCut
    constructor
    · simp [LlmResponse.chainsToInject, receivedResponse, refused]
    · intro isOk hasBody
      have nonempty : (byteString (parseHttpBody cut)).isEmpty = false := by
        rw [Bool.eq_false_iff, ne_eq, byteString_isEmpty]
        exact hasBody
      simp [reportsParseError, receivedResponse, isOk, nonempty, refused]

/-- The headers of a response, and a body with one chain. -/
def okHeaders : Text := asciiText "HTTP/1.1 200 OK" ++ blankLine

def oneChain : Text := asciiText "\x7b\"status\":\"ok\",\"action_chains\":[[\"(lift)\"]]\x7d"

theorem oneChain_refused :
    (receivedResponse 0 (okHeaders ++ oneChain.take 20)).chainsToInject parseLlmResponseBody = [] :=
  ((truncated_refused 0 oneChain (by decide +kernel)).2 (okHeaders ++ oneChain) (by decide +kernel)
    (okHeaders ++ oneChain.take 20) (by decide +kernel) (by decide +kernel)).1

/-- When the connection is closed behind the headers, no parse error is reported. -/
theorem headers_not_reported :
    ¬ ∀ (body : Text), (parseLlmResponseBody (byteString body)).valid = true →
      ∀ received, parseHttpBody received = body → ∀ cut, cut <+: trimmed received → cut ≠ trimmed received →
        reportsParseError (receivedResponse 0 cut) = true := by
  intro reports
  have reported := reports oneChain (by decide +kernel) (okHeaders ++ oneChain) (by decide +kernel) okHeaders
    (by decide +kernel) (by decide +kernel)
  revert reported
  decide +kernel

end CutPlan.Pipeline
