/-!
# Why a bitmap or a region is refused

* `Failure` — every reason for which a bitmap is not built or a region is not decoded.
  Callers branch on the constructors; the wording is in one place, `Failure.message`.
* `Fault` — an access outside an array.  A fault is a defect of the caller or of the decoder,
  never a property of the coded data; it is kept apart so that its absence can be stated.
-/

set_option autoImplicit false

namespace Bilevel

/-- An access outside an array, by the array that was missed. -/
inductive Fault where
  | adaptivePixel
  | context
  | storage
  deriving DecidableEq, Repr

/-- The reasons for which a bitmap is not built or a region is not decoded. -/
inductive Failure where
  | unexpectedEnd
  | invalidDimension
  | dataLengthMismatch
  | allocationFailed
  | invalidTemplate
  | adaptivePixelCount
  | insufficientContexts
  | fault (array : Fault)
  deriving DecidableEq, Repr

/-- The sentence shown for a failure. -/
def Failure.message : Failure → String
  | .unexpectedEnd => "unexpected end of input"
  | .invalidDimension => "invalid dimension value"
  | .dataLengthMismatch => "pixel data does not match dimensions"
  | .allocationFailed => "failed to allocate bitmap"
  | .invalidTemplate => "invalid template value"
  | .adaptivePixelCount => "wrong number of adaptive template pixels"
  | .insufficientContexts => "context array is too small for template"
  | .fault .adaptivePixel => "missing adaptive template pixel"
  | .fault .context => "context number out of range"
  | .fault .storage => "access outside the stored pixels"

end Bilevel
