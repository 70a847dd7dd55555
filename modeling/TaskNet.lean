import TaskNet.Main
import TaskNet.Proofs.Binding.Scoping
import TaskNet.Proofs.Clause.Absorption
import TaskNet.Proofs.Clause.Limit
import TaskNet.Proofs.Clause.PushDown
import TaskNet.Proofs.Compile.AssignmentCycles
import TaskNet.Proofs.Compile.Convergence
import TaskNet.Proofs.Compile.Handover
import TaskNet.Proofs.Compile.JoinedTypes
import TaskNet.Proofs.Compile.TaskLists
import TaskNet.Proofs.Compile.TaskOrder
import TaskNet.Proofs.Compile.Totality
import TaskNet.Proofs.Diagnostic.Sorted
import TaskNet.Proofs.Grammar.ErrorPrefix
import TaskNet.Proofs.Macro.Hygiene
import TaskNet.Proofs.Macro.Reports
import TaskNet.Proofs.Macro.Stable
import TaskNet.Proofs.Token.Respacing
import TaskNet.Proofs.Tree.DeepCopy
import TaskNet.Proofs.Tree.Indentation
import TaskNet.Proofs.Tree.Preorder
import TaskNet.Report
