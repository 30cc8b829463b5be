import GamePatch.LogLevel
import GamePatch.Main
import GamePatch.Proofs.Change.HexAgreement
import GamePatch.Proofs.Change.HexInvariants
import GamePatch.Proofs.Change.Reassembly
import GamePatch.Proofs.Change.Sharing
import GamePatch.Proofs.GameMod.Overlaps
import GamePatch.Proofs.Gecko.Return
import GamePatch.Proofs.Gecko.RoundTrip
import GamePatch.Proofs.Library.Order
import GamePatch.Proofs.ModText.Canonical
import GamePatch.Proofs.ModText.Rewrite
import GamePatch.Proofs.SymbolTable.Closure
import GamePatch.Proofs.Change.Passes
import GamePatch.Proofs.ModFolder.FileNames
import GamePatch.Proofs.ModText.Blocks
import GamePatch.Proofs.Json.Strings
import GamePatch.Proofs.Text.Utf8
import GamePatch.Proofs.Json.Documents
import GamePatch.Proofs.Json.Records
import GamePatch.Proofs.ModFolder.Codes
import GamePatch.Proofs.FileSystem.Folder
import GamePatch.Proofs.FileSystem.Writes
import GamePatch.Proofs.ModFolder.Saving
import GamePatch.Proofs.ModFolder.Caches
import GamePatch.Proofs.ModFolder.RoundTrip
import GamePatch.Proofs.Change.Fitting
import GamePatch.Proofs.Change.UnknownOptions
import GamePatch.Proofs.Change.GroupOrder
import GamePatch.Proofs.Gecko.Independence
import GamePatch.Proofs.Gecko.Verbatim
import GamePatch.Proofs.Gecko.Fillers
import GamePatch.Proofs.Gecko.Effect
import GamePatch.Proofs.Change.AssemblyForm
import GamePatch.Proofs.GameMod.SourceText
import GamePatch.Proofs.ModFolder.Options
import GamePatch.Proofs.ModText.DeclaredOptions
import GamePatch.Proofs.ModFolder.OptionRecords
import GamePatch.Proofs.Cli.Convert
import GamePatch.Proofs.Change.WordLines
import GamePatch.Proofs.Change.ErrorLines
import GamePatch.Proofs.Change.RefusedLines
import GamePatch.Proofs.GameMod.ReachableMods
import GamePatch.Proofs.Branch.Words
import GamePatch.Proofs.Configuration.RoundTrip
import GamePatch.Proofs.ModText.Splitting
import GamePatch.Proofs.Listing.Placement
import GamePatch.Proofs.SymbolTable.Calls
import GamePatch.Proofs.Change.BranchNumbers
import GamePatch.Proofs.Configuration.Packing
import GamePatch.Proofs.Change.WordFilling
import GamePatch.Proofs.Line.Exactness
