import VueSetup.Report
import VueSetup.Transform.File
import VueSetup.Command
import VueSetup.Main
import VueSetup.Proofs.Draft.Render
import VueSetup.Proofs.Transform.Rendered
import VueSetup.Proofs.Sfc.Descriptor
import VueSetup.Proofs.Sfc.Written
import VueSetup.Proofs.Transform.File
import VueSetup.Proofs.Transform.Independence
import VueSetup.Proofs.Transform.Literals
import VueSetup.Proofs.Batch.Schedule
import VueSetup.Proofs.Transform.Outcome
import VueSetup.Proofs.Transform.Language
import VueSetup.Proofs.Transform.Closing
import VueSetup.Proofs.Batch.Distinct
import VueSetup.Proofs.Batch.Named
import VueSetup.Proofs.Batch.Glob
import VueSetup.Proofs.Transform.Dropped
import VueSetup.Proofs.Draft.Cut
import VueSetup.Proofs.Sfc.Entries
import VueSetup.Proofs.Sfc.Parts
import VueSetup.Proofs.Sfc.Placement
import VueSetup.Proofs.Sfc.Position
import VueSetup.Proofs.Transform.Redirected
import VueSetup.Proofs.Sfc.Nested
import VueSetup.Proofs.Transform.Hoisted
import VueSetup.Proofs.Prop.Table
import VueSetup.Proofs.Prop.Alias
import VueSetup.Proofs.Prop.Default
import VueSetup.Proofs.Transform.Shadowed
import VueSetup.Proofs.Tidy.Script
import VueSetup.Proofs.Transform.Typed
import VueSetup.Proofs.Import.Declaration
