import RightLinear.Main
import RightLinear.Proofs.Generation
import RightLinear.Proofs.WrittenGrammar
import RightLinear.Proofs.Interchange
import RightLinear.Proofs.Alignment
import RightLinear.Storage.Folder
import RightLinear.Proofs.Admission
import RightLinear.Proofs.Listing
import RightLinear.Proofs.Fairness
import RightLinear.Proofs.Declarations
import RightLinear.Proofs.ShortWords
import RightLinear.Proofs.Turns
import RightLinear.Proofs.RaisedLimits
import RightLinear.Proofs.StepKinds
import RightLinear.Proofs.LineFaults
import RightLinear.Proofs.RuleSpacing
import RightLinear.Proofs.Components
import RightLinear.Proofs.TransitionLists
import RightLinear.Proofs.Interleaving
import RightLinear.Proofs.Inference
import RightLinear.Proofs.Determinism
import RightLinear.Proofs.TableReading
