import TinyServe.OrderedDict
import TinyServe.Vocabulary

set_option autoImplicit false

/-! `RequestTracer`: which root and child spans are open. Attributes are left out. -/
namespace TinyServe.Tracing
open OrderedDict

inductive SpanName where
  | admission
  | queueWait
  | generation
  deriving DecidableEq

/-- `_roots`, and `_open_children` with the root each child was started under. -/
structure RequestTracer where
  roots : Dict RequestId Unit
  openChildren : Dict (RequestId × SpanName) (Option RequestId)

namespace RequestTracer

def init : RequestTracer := ⟨.empty, .empty⟩

def startRequest (t : RequestTracer) (id : RequestId) : RequestTracer :=
  { t with roots := t.roots.set id () }

def startSpan (t : RequestTracer) (id : RequestId) (name : SpanName) : RequestTracer :=
  { t with openChildren := t.openChildren.set (id, name) ((t.roots.get? id).map fun _ => id) }

/-- `end_span`, and whether a span ended. -/
def endSpan (t : RequestTracer) (id : RequestId) (name : SpanName) : Bool × RequestTracer :=
  (t.openChildren.contains (id, name), { t with openChildren := t.openChildren.erase (id, name) })

/-- `end_request`, and whether a root ended. -/
def endRequest (t : RequestTracer) (id : RequestId) : Bool × RequestTracer :=
  (t.roots.contains id, { t with roots := t.roots.erase id })

end RequestTracer

end TinyServe.Tracing
