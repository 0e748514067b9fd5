import Tconcurrent.JobPromises
import Tconcurrent.SemaphoreOrder
import Tconcurrent.UnwrapTreeCancel
import Tconcurrent.PeriodicTaskAlive
import Tconcurrent.PromisePtrResolve
import Tconcurrent.ConcurrentQueueFifo
import Tconcurrent.PackagedTaskOutcome
import Tconcurrent.SubmitToFutureResolve
import Tconcurrent.FutureGroupTerminate
import Tconcurrent.ScopeLockDeadlock
import Tconcurrent.StackfulCoroutineOutcome
import Tconcurrent.CoroutineEnginesAgree
import Tconcurrent.SenderCompositionSignals
import Tconcurrent.CatchBlocksCancel
import Tconcurrent.TaskCancelerRegistry
import Tconcurrent.FutureGroupNesting
import Tconcurrent.PrimitivesCancelers
import Tconcurrent.ScopeCancelerUnset
import Tconcurrent.BreakCancelationChainIsolates
import Tconcurrent.FutureTokensCarried
import Tconcurrent.WhenAllCollects
import Tconcurrent.WhenAnyReports
import Tconcurrent.SenderAwaitOutcome
import Tconcurrent.StacklessCoroutine
import Tconcurrent.StacklessCoroutineDestroyed
import Tconcurrent.FutureLawsHold
import Tconcurrent.TokenCallbacksSelected
import Tconcurrent.AsyncWaitEmscriptenApart
import Tconcurrent.ThreadPoolFork
import Tconcurrent.ThreadPoolServes
import Tconcurrent.CurrentCoroutine
import Tconcurrent.CurrentCoroutineFollows
import Tconcurrent.SynchronousCancelReady
import Tconcurrent.SynchronousCancelResult
import Tconcurrent.BarrierStepper
import Tconcurrent.SharedBaseThreadsContinuations
import Tconcurrent.SenderValuesLaws
import Tconcurrent.ThreadPoolStops
import Tconcurrent.SynchronousCancelDetermined
import Tconcurrent.SyncWaitReturns
