import Mathlib.Data.List.Basic

/-! `cancelation_token`: a flag and a stack of anonymous callbacks.

Each operation is one section under `_mutex`; the callback it selects is called
after unlocking, so an operation returns the token and the calls its caller
makes next. -/
namespace Tconcurrent

/-- `cancelation_token`. -/
structure CancelationToken (C : Type) where
  isCancelRequested : Bool := false
  /-- `_do_cancels`, with the back of the deque first. -/
  doCancels : List C := []
  deriving DecidableEq

namespace CancelationToken

variable {C : Type}

/-- `cancelation_token::push_cancelation_callback`. -/
def pushCancelationCallback (token : CancelationToken C) (cb : C) : CancelationToken C × List C :=
  ({ token with doCancels := cb :: token.doCancels },
    if token.isCancelRequested then [cb] else [])

/-- `cancelation_token::pop_cancelation_callback`.  `pop_back` of an empty
deque is undefined; here it leaves the deque empty. -/
def popCancelationCallback (token : CancelationToken C) : CancelationToken C × List C :=
  ({ token with doCancels := token.doCancels.tail },
    if token.isCancelRequested then token.doCancels.tail.head?.toList else [])

/-- `cancelation_token::request_cancel`. -/
def requestCancel (token : CancelationToken C) : CancelationToken C × List C :=
  ({ token with isCancelRequested := true }, token.doCancels.head?.toList)

end CancelationToken

end Tconcurrent
