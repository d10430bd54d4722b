import TypeSchema.Generator
import TypeSchema.Storage.Annotation
import TypeSchema.TypeExpr
import TypeSchema.Proofs.Fuel
import TypeSchema.Proofs.Derivation
import TypeSchema.Proofs.Parts
import TypeSchema.Proofs.Reach
import TypeSchema.Proofs.Position
import TypeSchema.Proofs.Definitions
import TypeSchema.Proofs.JsonPointer
import TypeSchema.Proofs.Termination
import TypeSchema.Proofs.Resolution
import TypeSchema.Proofs.Acceptance
import TypeSchema.Proofs.Validation
import TypeSchema.Proofs.Variants
import TypeSchema.Proofs.Description
import TypeSchema.Proofs.Inline
import TypeSchema.Proofs.Nullify
import TypeSchema.Proofs.UseSite
import TypeSchema.Proofs.Narrowing
import TypeSchema.Proofs.Sharing
import TypeSchema.Proofs.Expansion
import TypeSchema.Proofs.Transparency
import TypeSchema.Proofs.Refinement
import TypeSchema.Proofs.Agreement
import TypeSchema.Proofs.Growth
import TypeSchema.Proofs.Script
import TypeSchema.Proofs.Registration
import TypeSchema.Proofs.Abandonment
import TypeSchema.Proofs.Ownership
import TypeSchema.Proofs.Similarity
import TypeSchema.Proofs.Reordering
import TypeSchema.Proofs.OrderIndependence
import TypeSchema.Proofs.Grammar
import TypeSchema.Proofs.Unwrapping
import TypeSchema.Proofs.TwoUses
import TypeSchema.Proofs.Defects
import TypeSchema.Proofs.Blame
import TypeSchema.Proofs.PrimitiveFragment
import TypeSchema.Proofs.DefaultBounds
import TypeSchema.Proofs.Replacement
import TypeSchema.Proofs.ChildSite
import TypeSchema.Proofs.Record
import TypeSchema.Proofs.FailedWrite
import TypeSchema.Proofs.StoredAnnotation
import TypeSchema.Proofs.WrapperCycle
import TypeSchema.Proofs.NameAgreement
