import Vely.Lib.Memory
import Vely.Lib.OrderedMap
import Vely.Lib.Avl
import Vely.Lib.Linked
import Vely.Lib.Chain
import Vely.Lib.CString
import Vely.Lib.Ctype
import Vely.Lib.Decimal
import Vely.Lib.Radix
import Vely.Lib.Buckets
import Vely.Lib.Run
import Vely.Lib.JsonGrammar
import Vely.Rtc
import Vely.Num2str
import Vely.Tree.Model
import Vely.Tree.Layout
import Vely.Tree.Balance
import Vely.Tree.Insert
import Vely.Tree.Delete
import Vely.Tree.Search
import Vely.Tree.State
import Vely.Tree.Calls
import Vely.Tree.Load
import Vely.Tree.Run
import Vely.Tree.Cursor
import Vely.Tree.Range
import Vely.Tree.Compare
import Vely.Hash.Model
import Vely.Hash.Layout
import Vely.Hash.Calls
import Vely.Hash.Traverse
import Vely.Hash.Resize
import Vely.Hash.Run
import Vely.Hash.Walk
import Vely.Hash.Keylist
import Vely.Dispatch.Model
import Vely.Dispatch.Emit
import Vely.Dispatch.Read
import Vely.Dispatch.Refine
import Vely.Utf8.Model
import Vely.Json.Strings
import Vely.Json.Model
import Vely.Json.Reader
import Vely.Json.StringFrame
import Vely.Json.Mirror
import Vely.Json.Number
import Vely.Json.Follow
import Vely.Lib.Block
import Vely.Input.Query
import Vely.Input.Tokens
import Vely.Input.Fields
import Vely.Input.Segments
import Vely.Input.Confined
import Vely.Input.Multipart
import Vely.Input.Build
import Vely.Input.Bounds
import Vely.Input.RoundTrip
import Vely.Input.Path
import Vely.Input.PathParams
import Vely.Input.PathAgree
import Vely.Input.PathNames
import Vely.Utf8.Chars
import Vely.Json.Codec
import Vely.Json.Loop
import Vely.Json.Simulation
import Vely.Json.Sound
import Vely.Json.Decode
import Vely.Json.Valid
import Vely.Json.Escapes
import Vely.Json.Legal
import Vely.Json.Longest
import Vely.Json.Stack
import Vely.Json.Document
import Vely.Json.Reject
import Vely.Json.Accept
import Vely.Json.Contract
import Vely.Json.Names
import Vely.Json.Distinct
import Vely.Json.Leftover
import Vely.Json.Settle
import Vely.Json.Repeat
import Vely.Encode.Model
import Vely.Encode.RoundTrip
import Vely.Encode.Url
import Vely.Encode.Web
import Vely.Input.Decorate
import Vely.Input.RequestName
import Vely.Input.PathLength
import Vely.Db.Lite
import Vely.Lib.Triple
import Vely.Db.Model
import Vely.Db.Execute
import Vely.Db.ErrorVars
import Vely.Db.Calls
import Vely.Db.OneConnection
import Vely.Db.Flag
import Vely.Db.Prepared
import Vely.Lib.FreeList
import Vely.Velymem.Table
import Vely.Velymem.Layout
import Vely.Velymem.Release
import Vely.Velymem.Done
import Vely.Velymem.Run
import Vely.Velymem.Scope
import Vely.Velymem.Files
import Vely.Lib.PrefixCode
import Vely.Lib.FastCgi
import Vely.Fcgi.Calls
import Vely.Fcgi.Agree
import Vely.Fcgi.Request
import Vely.Fcgi.Params
import Vely.Fcgi.Send
import Vely.Fcgi.Response
import Vely.Fcgi.Reassembly
import Vely.Fcgi.ReadSocket
import Vely.Lib.SqlText
import Vely.Lib.Substring
import Vely.Lib.Substitute
import Vely.Db.Text
import Vely.Db.Buffer
import Vely.ReplaceString
import Vely.BreakDown.Model
import Vely.BreakDown.Cut
import Vely.BreakDown.Trim
import Vely.BreakDown.Quotes
import Vely.Db.Consistent
import Vely.Db.Literals
import Vely.Db.Prepare
import Vely.Db.SameValues
import Vely.Regex.Model
import Vely.Regex.Replace
import Vely.Regex.Matching
import Vely.Regex.InContext
import Vely.Cookie.Model
import Vely.Cookie.Jar
import Vely.Cookie.Run
import Vely.Output.Model
import Vely.Output.Nesting
import Vely.Output.Writers
import Vely.Output.Room
import Vely.Output.Capture
import Vely.Output.Ending
import Vely.Output.Run
import Vely.Fcgi.Payload
import Vely.Input.Lookup
import Vely.Lib.Framed
import Vely.Http.Model
import Vely.Http.Framing
import Vely.Vf.Model
import Vely.Vf.Adaptive
import Vely.V1.Blocks
import Vely.V1.Keyword
import Vely.V1.Scan
import Vely.V1.Clauses
import Vely.V1.Places
import Vely.V1.Carve
import Vely.V1.Orders
import Vely.V1.Lexical
import Vely.V1.Envsub
import Vely.Sec.Hex
import Vely.Sec.Crypt
import Vely.Lib.Base64
import Vely.Sec.Base64
import Vely.V1.LineBuffer
import Vely.V1.ConvertPuts
import Vely.V1.Comments
import Vely.V1.CommentLines
