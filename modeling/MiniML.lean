import MiniML.Main
import MiniML.Proofs.Ty.MostGeneral
import MiniML.Proofs.Ty.SolverCalls
import MiniML.Proofs.Typing.Derivation
import MiniML.Proofs.Typing.Run
import MiniML.Proofs.Typing.Slots
import MiniML.Proofs.Typing.Supply
import MiniML.Proofs.Typing.Reach
import MiniML.Proofs.Typing.Resolve
import MiniML.Proofs.Typing.Frame
import MiniML.Proofs.Typing.Tracked
import MiniML.Proofs.Typing.Sound
import MiniML.Proofs.Typing.Shape
import MiniML.Proofs.Typing.Soundness
import MiniML.Proofs.Typing.Cover
import MiniML.Proofs.Typing.Follow
import MiniML.Proofs.Typing.Complete
import MiniML.Proofs.Typing.Principal
import MiniML.Proofs.Ty.Recursion
import MiniML.Proofs.Ty.Descent
import MiniML.Proofs.Ty.Rename
import MiniML.Proofs.Typing.Renamed
import MiniML.Proofs.Typing.Shift
import MiniML.Proofs.Typing.History
import MiniML.Proofs.Session.Batch
import MiniML.Proofs.Session.Life
import MiniML.Proofs.Tree.Replace
import MiniML.Proofs.Typing.Damage
import MiniML.Proofs.Tree.FreeNames
import MiniML.Proofs.Typing.Locality
import MiniML.Proofs.Grammar.Onward
import MiniML.Proofs.Grammar.Recovery
import MiniML.Proofs.Grammar.Accept
import MiniML.Proofs.Grammar.Print
import MiniML.Proofs.Grammar.RoundTrip
import MiniML.Proofs.Tree.Inline
import MiniML.Proofs.Typing.HasType
import MiniML.Proofs.Typing.Weaken
import MiniML.Proofs.Typing.Inline
import MiniML.Proofs.Grammar.Yields
import MiniML.Proofs.Grammar.LockstepRules
import MiniML.Proofs.Grammar.Isolation
import MiniML.Proofs.Token.Blanked
import MiniML.Proofs.Typing.Rendered
import MiniML.Proofs.Typing.Scope
import MiniML.Proofs.Typing.Unhint
import MiniML.Proofs.Typing.Config
import MiniML.Proofs.Typing.Pasted
import MiniML.Proofs.Ty.Symmetric
import MiniML.Proofs.Typing.Assigned
import MiniML.Proofs.Grammar.Precedence
import MiniML.Proofs.Session.Complete
import MiniML.Proofs.Grammar.Nesting
import MiniML.Proofs.Grammar.Bounds
import MiniML.Proofs.Grammar.Progress
import MiniML.Proofs.Tree.Nodes
import MiniML.Proofs.Grammar.Written
import MiniML.Proofs.Grammar.Makes
import MiniML.Proofs.Grammar.Shape
import MiniML.Proofs.Grammar.OpenBinding
import MiniML.Proofs.Typing.Curried
import MiniML.Proofs.Ty.Legible
import MiniML.Proofs.Token.Reread
import MiniML.Proofs.Grammar.Bookkeeping
import MiniML.Proofs.Typing.Uncaptured
