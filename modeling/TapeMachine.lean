import TapeMachine.Catalogue
import TapeMachine.Main
import TapeMachine.Proofs.Safety
import TapeMachine.Proofs.Structured.Interpretation
import TapeMachine.Proofs.TapeRange
import TapeMachine.Proofs.Verdict
import TapeMachine.Proofs.WiderTape
import TapeMachine.Proofs.Machine.Demands
import TapeMachine.Proofs.InputStream
import TapeMachine.Proofs.InputBytes
import TapeMachine.Proofs.Retranslation
import TapeMachine.Proofs.Optimization
import TapeMachine.Proofs.CommandLine
import TapeMachine.Proofs.CommandBytes
import TapeMachine.Proofs.LoopIdioms
import TapeMachine.Proofs.Barriers
import TapeMachine.Proofs.Overlooked
import TapeMachine.Proofs.Linking
import TapeMachine.Proofs.Listings
import TapeMachine.Proofs.LoopTables
import TapeMachine.Proofs.Seeking
import TapeMachine.Proofs.TapeAccess
