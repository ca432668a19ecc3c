import Hypertext.Serializer
import Hypertext.Numeral
import Hypertext.Log

/-! # Rendering

Whole renders: to a text, and into a sink that may lose output. A render into a sink fails exactly if
the sink has failed in the end, and it is reported once to a log that is given.
-/

namespace Hypertext

inductive RenderError | outputFailed deriving DecidableEq

def RenderError.message : RenderError → Bytes
  | outputFailed => Bytes.ascii "render_to_stream: output stream failed"

structure Rendering where
  sink : Sink
  outcome : Except RenderError Unit
  log : Option Log

namespace Render

def source : Bytes := Bytes.ascii "render"

/-- A failure tells how many bytes there were to write, a success also the numbers of nodes and
elements. -/
def report (w : Serializer) : Event :=
  if w.sink.failed then
    ⟨.error, source, Bytes.ascii "flush",
      Bytes.ascii "output stream failed after " ++ Numeral.natural w.totals.bytes ++
        Bytes.ascii " bytes"⟩
  else
    ⟨.info, source, Bytes.ascii "write",
      Bytes.ascii "wrote " ++ Numeral.natural w.totals.nodes ++ Bytes.ascii " nodes (" ++
        Numeral.natural w.totals.elements ++ Bytes.ascii " elements, " ++
        Numeral.natural w.totals.bytes ++ Bytes.ascii " bytes)"⟩

def toSink (layout : Layout) (sink : Sink) (log : Option Log) (nodes : List Node) : Rendering :=
  let w := ({ layout, sink } : Serializer).writeAll nodes
  { sink := w.sink
    outcome := if w.sink.failed then .error .outputFailed else .ok ()
    log := log.map (·.emit (report w)) }

end Render

def render (layout : Layout) (nodes : List Node) : Bytes :=
  (({ layout } : Serializer).writeAll nodes).sink.contents

end Hypertext
