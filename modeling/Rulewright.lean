import Rulewright.Flag.Session
import Rulewright.Query.Narrow
import Rulewright.Chat.Examples
import Rulewright.Main
import Rulewright.Service.Log
import Rulewright.Service.Page.Route
import Rulewright.Demo.Scripts
import Rulewright.Proofs.Flag.Untouched
import Rulewright.Proofs.Flag.Leftover
import Rulewright.Proofs.Agent.ReadBack
import Rulewright.Proofs.Agent.Decisions
import Rulewright.Proofs.Agent.Conservation
import Rulewright.Proofs.Chat.Log
import Rulewright.Proofs.Service.Improving
import Rulewright.Proofs.Service.Sessions
import Rulewright.Proofs.Service.Answers
import Rulewright.Proofs.Rule.Handover
import Rulewright.Proofs.Service.Tidying
import Rulewright.Proofs.Flag.Completion
import Rulewright.Proofs.Query.Literals
import Rulewright.Proofs.Query.Outline
import Rulewright.Proofs.Inference.Closure
import Rulewright.Proofs.Inference.Traversal
import Rulewright.Proofs.Source.Ancestor
import Rulewright.Proofs.Source.Unified
import Rulewright.Proofs.Query.Forgetting
import Rulewright.Proofs.Flag.Pruning
import Rulewright.Proofs.Flag.Reduction
import Rulewright.Proofs.Flag.Sharing
