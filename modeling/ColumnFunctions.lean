import ColumnFunctions.Message
import ColumnFunctions.Secret.Lookup
import ColumnFunctions.Service
import ColumnFunctions.Settings
import ColumnFunctions.Http.Server
import ColumnFunctions.Secret.Manager
import ColumnFunctions.Proofs.Compression
import ColumnFunctions.Proofs.Zlib
import ColumnFunctions.Proofs.Compression.Framing
import ColumnFunctions.Proofs.Encryption
import ColumnFunctions.Proofs.Session
import ColumnFunctions.Proofs.Batch
import ColumnFunctions.Proofs.Gzip
import ColumnFunctions.Proofs.Secret.Cache
import ColumnFunctions.Proofs.Secret.SingleFlight
import ColumnFunctions.Proofs.Clickstream.Inflation
import ColumnFunctions.Proofs.Json.Numeral
import ColumnFunctions.Proofs.Json.Quoted
import ColumnFunctions.Proofs.Json.Tree
import ColumnFunctions.Proofs.Json.Grammar
import ColumnFunctions.Proofs.Record
import ColumnFunctions.Proofs.Clickstream.Payload
import ColumnFunctions.Proofs.Clickstream.LineBreaks
import ColumnFunctions.Proofs.Json.Written
import ColumnFunctions.Proofs.Json.Entries
import ColumnFunctions.Proofs.Record.Written
import ColumnFunctions.Proofs.Clickstream.NormalForm
import ColumnFunctions.Proofs.Json.Depth
import ColumnFunctions.Proofs.Clickstream.Attributes
import ColumnFunctions.Proofs.Compression.Ending
import ColumnFunctions.Proofs.Clickstream.Elements
import ColumnFunctions.Proofs.Message
import ColumnFunctions.Proofs.Http.Transport
import ColumnFunctions.Proofs.Lookups
import ColumnFunctions.Proofs.Http.Traffic
import ColumnFunctions.Proofs.Clickstream.Members
import ColumnFunctions.Proofs.Text.Integer
import ColumnFunctions.Proofs.Record.Coercion
import ColumnFunctions.Proofs.Clickstream.Shapes
import ColumnFunctions.Proofs.Clickstream.RepeatedKeys
import ColumnFunctions.Proofs.KeySecrecy
import ColumnFunctions.Proofs.Aead.Tampering
import ColumnFunctions.Proofs.Record.Sources
import ColumnFunctions.Proofs.Message.Restated
import ColumnFunctions.Proofs.Settings
