import CssLex.Buffer.Cursor
import CssLex.Buffer.Scanner
import CssLex.Stream.Lookahead
import CssLex.Stream.Motion
import CssLex.Stream.Offset
import CssLex.Stream.Report
import CssLex.Value.Production
import CssLex.Value.Texts
import CssLex.Proofs.Byte.Classes
import CssLex.Proofs.Text.Characters
import CssLex.Proofs.Text.Utf8
import CssLex.Proofs.Bracket.Balance
import CssLex.Proofs.Bracket.Joined
import CssLex.Proofs.Region.Boundary
import CssLex.Proofs.Scan.Dispatch
import CssLex.Proofs.Scan.Ends
import CssLex.Proofs.Scan.Lossless
import CssLex.Proofs.Scan.Settled
import CssLex.Proofs.Scan.Truncation
import CssLex.Proofs.Scan.Extension
import CssLex.Proofs.Scan.Kinds
import CssLex.Proofs.Scan.Neighbours
import CssLex.Proofs.Buffer.Ahead
import CssLex.Proofs.Buffer.Scanning
import CssLex.Proofs.Buffer.Lossless
import CssLex.Proofs.Buffer.Boundaries
import CssLex.Proofs.Buffer.Cursor
import CssLex.Proofs.Stream.Reachable
import CssLex.Proofs.Stream.RegionEnd
import CssLex.Proofs.Stream.Records
import CssLex.Proofs.Stream.Piece
import CssLex.Proofs.Stream.Joined
import CssLex.Proofs.Number.Literal
import CssLex.Proofs.Number.Inert
import CssLex.Proofs.Number.Rounding
import CssLex.Proofs.Number.Grammar
import CssLex.Proofs.Number.Exact
import CssLex.Proofs.Number.Scanned
import CssLex.Proofs.Scan.Escapes
import CssLex.Proofs.Scan.Names
import CssLex.Proofs.Scan.Readings
import CssLex.Proofs.Scan.Strings
import CssLex.Proofs.Scan.Urls
import CssLex.Proofs.Value.Components
import CssLex.Proofs.Value.Ahead
import CssLex.Proofs.Value.Recognition
import CssLex.Proofs.Value.Consumption
import CssLex.Proofs.Value.Quantities
import CssLex.Proofs.Value.Simulation
import CssLex.Proofs.Value.Ranges
import CssLex.Proofs.Value.Numbers
import CssLex.Proofs.Value.WholeTokens
import CssLex.Proofs.Value.CustomIdents
import CssLex.Proofs.Stream.Cursor
import CssLex.Proofs.Stream.Regions
import CssLex.Proofs.Stream.GroupEdge
import CssLex.Proofs.Stream.Lookahead
import CssLex.Proofs.Stream.Moves
import CssLex.Proofs.Stream.Bytes
import CssLex.Proofs.Stream.Growth
import CssLex.Proofs.Value.Texts
