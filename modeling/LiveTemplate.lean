import LiveTemplate.Markup.Normal
import LiveTemplate.Proofs.Dom.Places
import LiveTemplate.Session.Basic
import LiveTemplate.Proofs.Dom.Planting
import LiveTemplate.Proofs.Dom.Building
import LiveTemplate.Proofs.Program.Skeleton
import LiveTemplate.Proofs.Program.Occurrence
import LiveTemplate.Proofs.Program.Resolution
import LiveTemplate.Proofs.Dom.Filling
import LiveTemplate.Proofs.Morph.Showing
import LiveTemplate.Proofs.Morph.Regions
import LiveTemplate.Proofs.Render.Informing
import LiveTemplate.Proofs.Template.Literals
import LiveTemplate.Proofs.Render.Literals
import LiveTemplate.Proofs.Render.Evaluation
import LiveTemplate.Proofs.Render.Stage
import LiveTemplate.Proofs.Render.Assembling
import LiveTemplate.Proofs.Render.Agreement
import LiveTemplate.Proofs.Dom.Linking
import LiveTemplate.Proofs.Render.Growth
import LiveTemplate.Proofs.Render.Placing
import LiveTemplate.Proofs.Render.Soundness
import LiveTemplate.Proofs.Value.Sameness
import LiveTemplate.Proofs.Dom.Moving
import LiveTemplate.Proofs.Render.Steps
import LiveTemplate.Proofs.Render.Regions
import LiveTemplate.Proofs.Template.Nesting
import LiveTemplate.Proofs.Template.Keeping
import LiveTemplate.Proofs.Markup.Positions
import LiveTemplate.Proofs.Markup.Tiling
import LiveTemplate.Proofs.Template.Walk
import LiveTemplate.Proofs.Dom.Inheriting
import LiveTemplate.Proofs.Dom.Outline
import LiveTemplate.Proofs.Program.Namespaces
import LiveTemplate.Proofs.Program.Static
import LiveTemplate.Proofs.Markup.Plain
import LiveTemplate.Proofs.Dom.Reordering
import LiveTemplate.Proofs.Dom.RoundTrip
import LiveTemplate.Proofs.Dom.Merging
import LiveTemplate.Proofs.Dom.Comparing
import LiveTemplate.Proofs.Dom.Acyclicity
import LiveTemplate.Proofs.Dom.Inserting
import LiveTemplate.Proofs.Morph.Updating
import LiveTemplate.Proofs.Morph.Following
import LiveTemplate.Proofs.Morph.Enclosing
import LiveTemplate.Proofs.Morph.Sharing
import LiveTemplate.Proofs.Morph.Supplying
import LiveTemplate.Proofs.Dom.Nested
import LiveTemplate.Proofs.Render.Readers
import LiveTemplate.Proofs.Render.Erasure
import LiveTemplate.Proofs.Library.Meaning
import LiveTemplate.Proofs.Library.Chains
import LiveTemplate.Proofs.Library.Evaluating
import LiveTemplate.Proofs.Library.Sites
import LiveTemplate.Proofs.Library.Rendering
import LiveTemplate.Proofs.Library.Interchanging
import LiveTemplate.Proofs.Template.Fallback
import LiveTemplate.Proofs.Render.Fallback
import LiveTemplate.Proofs.Lexical.Levels
import LiveTemplate.Proofs.Lexical.Blocks
import LiveTemplate.Proofs.Lexical.Gaining
import LiveTemplate.Proofs.Template.Binding
import LiveTemplate.Proofs.Lexical.Rendering
import LiveTemplate.Proofs.Repeating.Twins
import LiveTemplate.Proofs.Repeating.Showing
import LiveTemplate.Proofs.Repeating.Computing
import LiveTemplate.Proofs.Repeating.Rendering
import LiveTemplate.Proofs.Expr.Written
import LiveTemplate.Proofs.Expr.Words
import LiveTemplate.Proofs.Expr.Reading
import LiveTemplate.Proofs.Expr.RoundTrip
import LiveTemplate.Proofs.Template.Ranges
import LiveTemplate.Proofs.Template.Faults
import LiveTemplate.Proofs.Spacing.Templates
import LiveTemplate.Proofs.Text.References
import LiveTemplate.Proofs.Program.Linking
import LiveTemplate.Proofs.Template.Comments
import LiveTemplate.Proofs.Dom.Births
import LiveTemplate.Proofs.Dom.Lineage
