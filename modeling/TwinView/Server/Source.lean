import TwinView.Java.Source
import TwinView.Server.Builder

/-!
The server's source text of views.
-/

namespace TwinView.Server

/-- Classes of views one after the other; the first brings the package and the imports. -/
def writeViews (s : Settings) : Bool → List View → Except Error String
  | _, [] => return ""
  | isFirst, v :: rest =>
    if v.clientOnly then writeViews s isFirst rest
    else do
      let c ← buildView s v
      let head := if isFirst then Java.fileHead s c.package else Java.line s 0
      return head ++ Java.classBody s 0 c ++ Java.line s 0 ++ (← writeViews s false rest)

def compile (s : Settings) (views : List View) : Except Error String := writeViews s true views

end TwinView.Server
