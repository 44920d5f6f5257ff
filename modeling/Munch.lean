import Munch.Automaton
import Munch.BitSet
import Munch.Command.Basic
import Munch.Command.Failure
import Munch.Declaration
import Munch.Description.Basic
import Munch.Description.Read
import Munch.Feed
import Munch.Frame
import Munch.Graph.Basic
import Munch.Graph.Drawing
import Munch.Listing
import Munch.Log
import Munch.Main
import Munch.Match
import Munch.Options
import Munch.Position
import Munch.Proofs.Calls
import Munch.Proofs.Jumps
import Munch.Proofs.Matches
import Munch.Proofs.MaximalMunch
import Munch.Proofs.Positions
import Munch.Proofs.Races
import Munch.Proofs.Windows
import Munch.Race
import Munch.Rule
import Munch.Scan
import Munch.Stream
import Munch.Text.Properties
import Munch.Text.Quoted
import Munch.Toml.Conventions
import Munch.Toml.Document
import Munch.Toml.Node
import Munch.Toml.Numbers
import Munch.Toml.Strings
import Munch.Utf8
import Munch.Window
import Munch.Proofs.Reconstruction
import Munch.Proofs.Current
import Munch.Proofs.Levels
import Munch.Proofs.Openings
import Munch.Proofs.Progress
import Munch.Proofs.Isolation
import Munch.Proofs.Admission
import Munch.Proofs.Strictness
import Munch.Proofs.BitSets
import Munch.Proofs.Declarations
import Munch.Proofs.Demand
import Munch.Proofs.WholeScans
import Munch.Proofs.Outlines
import Munch.Proofs.Listings
import Munch.Proofs.Encodings
import Munch.Proofs.Devices
import Munch.Proofs.Feeds
import Munch.Proofs.QuotedStrings
import Munch.Proofs.Places
import Munch.Proofs.Tokens
import Munch.Proofs.GraphNames
import Munch.Proofs.LineEnds
import Munch.Proofs.Defects
import Munch.Proofs.Rearrangements
import Munch.Proofs.Descriptions
import Munch.Proofs.Faults
import Munch.Proofs.Numerals
import Munch.Proofs.EdgeLabels
import Munch.Proofs.GraphNodes
import Munch.Proofs.Scalars
import Munch.Proofs.OptionTables
import Munch.Proofs.FrameLines
import Munch.Proofs.Logs
import Munch.Proofs.Literals
