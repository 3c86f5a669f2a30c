import ComponentCompiler.Json

/-!
This module contains what the leading comments of a file say about the page it holds.
-/

namespace ComponentCompiler
namespace Page

structure Metadata where
  isPage : Bool := false
  routePath : Option String := none
  title : Option String := none
  description : Option String := none
  guard : Option String := none
  deriving DecidableEq, Repr

def Metadata.toJson (m : Metadata) : Json :=
  .obj
    [("is_page", .bool m.isPage), ("route_path", .text? m.routePath), ("title", .text? m.title),
      ("description", .text? m.description), ("guard", .text? m.guard)]

end Page
end ComponentCompiler
