import ConvexProgram.Matrix.Lemmas
import ConvexProgram.Elimination.Recovery
import ConvexProgram.Spectrum
import ConvexProgram.Proofs.Elimination.Feasibility
import ConvexProgram.Proofs.Elimination.Signs
import ConvexProgram.Proofs.Elimination.CarriedBack
import ConvexProgram.Proofs.Elimination.Storage
import ConvexProgram.Proofs.Elimination.Idempotence
import ConvexProgram.Proofs.Elimination.Account
import ConvexProgram.Proofs.Replacement
import ConvexProgram.Expr.WellShaped
import ConvexProgram.Proofs.WellShaped
import ConvexProgram.Proofs.Coincidence
import ConvexProgram.Proofs.Tolerance
import ConvexProgram.Proofs.Breakdown
import ConvexProgram.Proofs.Broadcasting
import ConvexProgram.Proofs.Accumulation
import ConvexProgram.Proofs.Indexing
import ConvexProgram.Proofs.SatisfiedSigns
import ConvexProgram.Proofs.SubstitutionLaws
import ConvexProgram.Proofs.Duality
import ConvexProgram.Proofs.Stacking
import ConvexProgram.Proofs.Product
import ConvexProgram.Proofs.Algebra
import ConvexProgram.Proofs.SameQuantity
import ConvexProgram.Proofs.Elimination.Uniform
import ConvexProgram.Proofs.CompactOrder
