import TinyServe.Admission
import TinyServe.Instruments

set_option autoImplicit false

/-! The instruments of `observability/metrics.py`. Names, help texts and buckets are left out. -/
namespace TinyServe.Observability
open Admission Instruments

/-- The `outcome` label of `prefix_cache_lookups_total`. -/
inductive Lookup where
  | hit
  | staleDonor
  | miss
  deriving DecidableEq

/-- The `reason` label of `cancellations_total`. -/
inductive Cancellation where
  | queueTimeout
  | decodeError
  | clientDisconnect
  | generationTimeout
  deriving DecidableEq

/-- `Metrics`, with the one `outcome` that policy decisions are counted under left out. -/
structure Metrics where
  admissionAcceptedTotal : ℕ
  admissionRejectedTotal : Counter Rejection
  queueDepth : ℕ
  queueWaitSeconds : Histogram
  batchSizeTokens : Histogram
  batchSizeRequests : Histogram
  batchUtilization : Histogram
  kvBlocksFree : ℕ
  kvBlocksUsed : ℤ
  ttftSeconds : Histogram
  interTokenLatencySeconds : Histogram
  tokensPerSecond : Histogram
  decodeStepDurationSeconds : Histogram
  prefixCacheLookupsTotal : Counter Lookup
  prefillTokensTotal : ℕ
  prefillTokensReusedTotal : ℕ
  prefixCacheNodes : ℤ
  schedulerPolicyDecisionTotal : Counter String
  cancellationsTotal : Counter Cancellation

/-- `Metrics()`. -/
def Metrics.init : Metrics where
  admissionAcceptedTotal := 0
  admissionRejectedTotal := .zero
  queueDepth := 0
  queueWaitSeconds := .zero
  batchSizeTokens := .zero
  batchSizeRequests := .zero
  batchUtilization := .zero
  kvBlocksFree := 0
  kvBlocksUsed := 0
  ttftSeconds := .zero
  interTokenLatencySeconds := .zero
  tokensPerSecond := .zero
  decodeStepDurationSeconds := .zero
  prefixCacheLookupsTotal := .zero
  prefillTokensTotal := 0
  prefillTokensReusedTotal := 0
  prefixCacheNodes := 0
  schedulerPolicyDecisionTotal := .zero
  cancellationsTotal := .zero

end TinyServe.Observability
