import Hypertext.Form.Fault
import Hypertext.Render
import Hypertext.Sentinels

/-! # Failures

Everything that can go wrong in the library, with what is said about it.
-/

namespace Hypertext

inductive Failure
  | missingScalar
  | unbound (name : Bytes)
  | noSink
  | node (error : Node.AccessError)
  | form (error : Form.AccessError)
  | sentinels (error : Sentinels.AddError)
  | malformed (error : Form.Malformed)
  | render (error : RenderError)

def Failure.message : Failure → Bytes
  | missingScalar => Bytes.ascii "opaque node needs a renderable value"
  | unbound name => Bytes.ascii "nothing is named " ++ name
  | noSink => Bytes.ascii "no sink is open"
  | node e => e.message
  | form e => e.message
  | sentinels e => e.message
  | malformed e => e.message
  | render e => e.message

end Hypertext
