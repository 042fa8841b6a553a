import MLDSA.Signing
import MLDSA.Verification

/-! # The journal

What an operation reports beside its result. Signing reports each rejected attempt and how the run
ended, verification the check that failed and nothing else. -/

namespace MLDSA

inductive Level where
  | error
  | debug
  | trace
deriving DecidableEq

def Level.name : Level → String
  | error => "ERROR"
  | debug => "DEBUG"
  | trace => "TRACE"

/-- One line of the journal. -/
structure Entry where
  level : Level
  text : String
deriving DecidableEq

def Entry.line (e : Entry) : String := e.level.name ++ " " ++ e.text

/-! ## Signing -/

def Rejection.name : Rejection → String
  | zNorm => "ZNorm"
  | lowBitsNorm => "LowBitsNorm"
  | ct0Norm => "Ct0Norm"
  | tooManyHints => "TooManyHints"

/-- A line for each rejected attempt, and one for the end. -/
def SigningRun.journal {α : Type} (r : SigningRun α) : List Entry :=
  let rejected := r.rejections.mapIdx fun kappa e =>
    ⟨.trace, s!"signing attempt {kappa} rejected: {e.name}"⟩
  let count := r.rejections.length
  match r.output with
  | some _ => rejected ++ [⟨.debug, s!"signature produced after {count + 1} attempt(s)"⟩]
  | none => rejected ++ [⟨.error, s!"signing gave up after {count} attempts"⟩]

/-! ## Verification -/

def Refusal.entry : Refusal → Entry
  | contextLength n => ⟨.debug, s!"verify: context of {n} bytes"⟩
  | signatureLength n => ⟨.debug, s!"verify: signature length {n} (expected {signatureBytes})"⟩
  | malformedHints => ⟨.debug, "verify: malformed hint encoding"⟩
  | zNorm => ⟨.debug, "verify: z outside the norm bound"⟩
  | publicKeyLength n => ⟨.debug, s!"verify: public key length {n} (expected {publicKeyBytes})"⟩
  | challengeMismatch => ⟨.debug, "verify: challenge mismatch"⟩
  | tooShort n => ⟨.debug, s!"open: {n} bytes cannot hold a signature"⟩

end MLDSA
