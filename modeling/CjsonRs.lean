import CjsonRs.Core.Checked
import CjsonRs.Core.Parser
import CjsonRs.Ffi.Api
import CjsonRs.Ffi.Atomicity
import CjsonRs.Ffi.Detach
import CjsonRs.Ffi.ErrorPointer
import CjsonRs.Ffi.Keys
import CjsonRs.Ffi.Whitespace
import CjsonRs.Ffi.Printers
import CjsonRs.Ffi.Overwritten
import CjsonRs.Ffi.LostTexts
import CjsonRs.Ffi.Exchange
import CjsonRs.Ffi.Cycles
import CjsonRs.Ffi.Clamped
import CjsonRs.Ffi.Locality
import CjsonRs.Ffi.Sessions
import CjsonRs.Ffi.Navigate
import CjsonRs.Ffi.TypedArrays
import CjsonRs.Ffi.Canonical
import CjsonRs.Ffi.Alike
import CjsonRs.Ffi.Custody
import CjsonRs.Ffi.Symmetry
import CjsonRs.Library.Forest
import CjsonRs.Library.Links
import CjsonRs.Rfc.CutStrings
import CjsonRs.Rfc.Errors
import CjsonRs.Rfc.Grammar
import CjsonRs.Rfc.LongestNumber
import CjsonRs.Rfc.NoPanic
import CjsonRs.Rfc.Positions
import CjsonRs.Rfc.Serialised
import CjsonRs.Rfc.Spans
import CjsonRs.Rfc.Spellings
import CjsonRs.Rfc.Syntax
import CjsonRs.Ffi.DocumentSessions
