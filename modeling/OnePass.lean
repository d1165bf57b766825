import OnePass.Main
import OnePass.Proofs.SinglePass
import OnePass.Proofs.Meaning
import OnePass.Proofs.Brackets
import OnePass.Proofs.LabelUse
import OnePass.Proofs.StackHeights
import OnePass.Proofs.Buffering
import OnePass.Proofs.NumberText
import OnePass.Proofs.InstructionText
import OnePass.Proofs.Unambiguous
import OnePass.Proofs.NameFaults
import OnePass.Proofs.SessionLabels
import OnePass.Proofs.Layout
import OnePass.Proofs.Renaming
import OnePass.Proofs.Coherence
import OnePass.Proofs.ControlFlow
import OnePass.Proofs.Unwinding
import OnePass.Proofs.RealLiterals
import OnePass.Proofs.Batch
import OnePass.Proofs.Exhaustion
import OnePass.Proofs.FirstDeclarations
import OnePass.Proofs.Termination
import OnePass.Proofs.Rendering
