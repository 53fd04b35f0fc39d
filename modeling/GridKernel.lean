import GridKernel.Halo.Exchange
import GridKernel.Machine.Run
import GridKernel.March.Nest
import GridKernel.Proofs.Agreement
import GridKernel.Proofs.ArrayLists
import GridKernel.Proofs.Binary64Closeness
import GridKernel.Proofs.Binary64Exact
import GridKernel.Proofs.Binary64Integers
import GridKernel.Proofs.CallOrder
import GridKernel.Proofs.Captures
import GridKernel.Proofs.Cells
import GridKernel.Proofs.Completion
import GridKernel.Proofs.Configurations
import GridKernel.Proofs.Coverage
import GridKernel.Proofs.Dependence
import GridKernel.Proofs.EntryPoints
import GridKernel.Proofs.Evaluation
import GridKernel.Proofs.Extents
import GridKernel.Proofs.Folding
import GridKernel.Proofs.Footprints
import GridKernel.Proofs.Frames
import GridKernel.Proofs.FreeAxes
import GridKernel.Proofs.FreshNames
import GridKernel.Proofs.Gather
import GridKernel.Proofs.GatherLayout
import GridKernel.Proofs.GatherSignature
import GridKernel.Proofs.GridWords
import GridKernel.Proofs.HaloBuild
import GridKernel.Proofs.HaloDelivery
import GridKernel.Proofs.HaloExchange
import GridKernel.Proofs.HaloFaces
import GridKernel.Proofs.HaloFootprints
import GridKernel.Proofs.HaloKernel
import GridKernel.Proofs.HaloLayout
import GridKernel.Proofs.HaloMoves
import GridKernel.Proofs.HaloNames
import GridKernel.Proofs.HaloOrder
import GridKernel.Proofs.HaloOwner
import GridKernel.Proofs.HaloParts
import GridKernel.Proofs.HaloPlans
import GridKernel.Proofs.HaloRun
import GridKernel.Proofs.HaloSlots
import GridKernel.Proofs.HaloTilings
import GridKernel.Proofs.HaloWidths
import GridKernel.Proofs.Integers
import GridKernel.Proofs.JsonGrammar
import GridKernel.Proofs.JsonTexts
import GridKernel.Proofs.KernelScopes
import GridKernel.Proofs.LeafReplacement
import GridKernel.Proofs.Levels
import GridKernel.Proofs.ListAccess
import GridKernel.Proofs.ListingLines
import GridKernel.Proofs.ListingTexts
import GridKernel.Proofs.Listings
import GridKernel.Proofs.LoopLimits
import GridKernel.Proofs.Loops
import GridKernel.Proofs.MarchDependence
import GridKernel.Proofs.MarchRuns
import GridKernel.Proofs.Marches
import GridKernel.Proofs.Moves
import GridKernel.Proofs.NamedEntities
import GridKernel.Proofs.Names
import GridKernel.Proofs.Nests
import GridKernel.Proofs.Numerals
import GridKernel.Proofs.Occurrences
import GridKernel.Proofs.Overflows
import GridKernel.Proofs.ParallelSweeps
import GridKernel.Proofs.Places
import GridKernel.Proofs.PointStatements
import GridKernel.Proofs.Refinement
import GridKernel.Proofs.Registrations
import GridKernel.Proofs.Reorder
import GridKernel.Proofs.Results
import GridKernel.Proofs.Retiming
import GridKernel.Proofs.RingBodies
import GridKernel.Proofs.RingOpening
import GridKernel.Proofs.Rings
import GridKernel.Proofs.RowMajor
import GridKernel.Proofs.Sameness
import GridKernel.Proofs.Scopes
import GridKernel.Proofs.SlotNames
import GridKernel.Proofs.SlotOffsets
import GridKernel.Proofs.SlotTimes
import GridKernel.Proofs.SlotUpdates
import GridKernel.Proofs.Stencils
import GridKernel.Proofs.Stepping
import GridKernel.Proofs.Sweeps
import GridKernel.Proofs.Templates
import GridKernel.Proofs.TextValues
import GridKernel.Proofs.TimeOffsets
import GridKernel.Proofs.Uses
import GridKernel.Proofs.Windows
import GridKernel.Proofs.WireForms
import GridKernel.Proofs.WireStatements
import GridKernel.Proofs.Words
import GridKernel.Region
import GridKernel.Stmt.Listing
import GridKernel.Wire.Decode
