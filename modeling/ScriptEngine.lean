import ScriptEngine.Token
import ScriptEngine.Number.Text
import ScriptEngine.Number.Reader
import ScriptEngine.Text.Blank
import ScriptEngine.Text.Quoted
import ScriptEngine.Fault
import ScriptEngine.Syntax.Builder
import ScriptEngine.Syntax.Listing
import ScriptEngine.Json.Reader
import ScriptEngine.Json.Text
import ScriptEngine.Json.View
import ScriptEngine.Document.Reader
import ScriptEngine.Document.Build
import ScriptEngine.Config.Toml
import ScriptEngine.Lowering.Lower
import ScriptEngine.Code.Compile
import ScriptEngine.Object.Scope
import ScriptEngine.Object.Text
import ScriptEngine.Call.Invoke
import ScriptEngine.Main
import ScriptEngine.Proofs.DocumentBuilt
import ScriptEngine.Proofs.WalkNames
import ScriptEngine.Proofs.CallRecords
import ScriptEngine.Proofs.SlotRefinement
import ScriptEngine.Proofs.ArgumentsAliasing
import ScriptEngine.Proofs.LoweringTotal
import ScriptEngine.Proofs.BodyForests
import ScriptEngine.Proofs.KeptNodes
import ScriptEngine.Proofs.CodeFlow
import ScriptEngine.Proofs.CodedTrees
import ScriptEngine.Proofs.Compilation
import ScriptEngine.Proofs.WithBalance
import ScriptEngine.Proofs.ChildEdits
import ScriptEngine.Proofs.Receivers
import ScriptEngine.Proofs.IntegralTexts
import ScriptEngine.Proofs.ReportedErrors
import ScriptEngine.Proofs.JumpResolution
import ScriptEngine.Proofs.LocalSlots
import ScriptEngine.Proofs.ScopeLookup
import ScriptEngine.Proofs.WithScopes
import ScriptEngine.Proofs.CallDiscipline
import ScriptEngine.Proofs.LateActivation
import ScriptEngine.Proofs.NormalForm
import ScriptEngine.Proofs.ActivationFlags
import ScriptEngine.Proofs.FinallyReturns
import ScriptEngine.Proofs.SwitchFlattening
import ScriptEngine.Proofs.StackNeeds
import ScriptEngine.Proofs.OperandIndices
import ScriptEngine.Proofs.UnitTrees
import ScriptEngine.Proofs.FunctionEnds
import ScriptEngine.Proofs.PrototypeSlots
import ScriptEngine.Proofs.AssignedNames
import ScriptEngine.Proofs.VariableTables
import ScriptEngine.Proofs.LineTables
