import ContractIR.Datum
import ContractIR.Proofs.Builder.Freshness
import ContractIR.Proofs.Builder.Frozen
import ContractIR.Proofs.Builder.Refusal
import ContractIR.Proofs.Flow.DepthFirst
import ContractIR.Proofs.Flow.Verdict
import ContractIR.Proofs.Flow.Warnings
import ContractIR.Proofs.Fold.Diagnostics
import ContractIR.Proofs.Fold.Preimage
import ContractIR.Proofs.Fold.Sound
import ContractIR.Proofs.Fold.Width
import ContractIR.Proofs.Lowering.Equality
import ContractIR.Proofs.Lowering.Lossless
import ContractIR.Proofs.Printer.Composition
import ContractIR.Proofs.Reuse
import ContractIR.Proofs.Text.Instr
import ContractIR.Proofs.Word.Squaring
