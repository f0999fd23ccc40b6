import PythonUltra.Lib.CMem
import PythonUltra.Lib.Machine
import PythonUltra.Lib.Ring
import PythonUltra.Lib.Prog
import PythonUltra.Lib.Fs
import PythonUltra.Lib.Struct
import PythonUltra.Os.Paths
import PythonUltra.Os.Calls
import PythonUltra.Os.Sound
import PythonUltra.Zipfile.Model
import PythonUltra.Zipfile.Effects
import PythonUltra.Zipfile.Names
import PythonUltra.Zipfile.Rollback
import PythonUltra.Zipfile.Contain
import PythonUltra.Terminal.Stredit
import PythonUltra.Terminal.Linebuf
import PythonUltra.Terminal.Console
import PythonUltra.Terminal.Rep
import PythonUltra.Terminal.Steps
import PythonUltra.Terminal.Invariant
import PythonUltra.Terminal.Writes
import PythonUltra.Terminal.Views
import PythonUltra.Terminal.Prompt
import PythonUltra.Terminal.Backlog
import PythonUltra.Lib.FsRename
import PythonUltra.Lib.Lines
import PythonUltra.Os.Files
import PythonUltra.Pyeditor.Keys
import PythonUltra.Pyeditor.Refine
import PythonUltra.Pyeditor.Runs
import PythonUltra.Pyeditor.Selection
import PythonUltra.Pyeditor.Find
import PythonUltra.Pyeditor.KeyReader
import PythonUltra.Lib.Probe
import PythonUltra.Os.Pathutil
import PythonUltra.Os.PathutilSpec
import PythonUltra.Py.Binding
import PythonUltra.Py.CallArgs
import PythonUltra.Py.CallArgsSpec
import PythonUltra.Py.Map
import PythonUltra.Py.MapRefine
import PythonUltra.Py.MapRuns
import PythonUltra.Py.Set
import PythonUltra.Py.SetRefine
import PythonUltra.Py.Import
import PythonUltra.Py.ImportChoice
import PythonUltra.Lib.Digits
import PythonUltra.Lib.TwosComplement
import PythonUltra.Py.EmitBc
import PythonUltra.Py.EmitLayout
import PythonUltra.Py.EmitPasses
import PythonUltra.Py.Growth
import PythonUltra.Py.Mpn
import PythonUltra.Py.MpzBits
import PythonUltra.Pyeditor.Opened
import PythonUltra.Lib.Links
import PythonUltra.Lib.Mark
import PythonUltra.Lib.Raster
import PythonUltra.Lib.RunScan
import PythonUltra.Py.Gc
import PythonUltra.Py.GcHeap
import PythonUltra.Py.GcInv
import PythonUltra.Py.GcRuns
import PythonUltra.Py.MpzDiv
import PythonUltra.Py.MpzPow
import PythonUltra.Py.Objint
import PythonUltra.Py.ObjintExact
import PythonUltra.Pygame.Blit
import PythonUltra.Pygame.Membership
import PythonUltra.Pyperm.Moves
import PythonUltra.Pyperm.Reload
import PythonUltra.Sh.Kandinsky
import PythonUltra.Sh.Objgintimage
import PythonUltra.Sh.Resources
import PythonUltra.Sh.TriangleCover
import PythonUltra.Lib.Bytes
import PythonUltra.Lib.Slots
import PythonUltra.Py.Binary
import PythonUltra.Py.BinarySpec
import PythonUltra.Py.Modstruct
import PythonUltra.Py.ModstructCells
import PythonUltra.Py.ModstructRound
import PythonUltra.Lib.Blocks
import PythonUltra.Lib.Elimination
import PythonUltra.Lib.Outcome
import PythonUltra.Numpy.Array
import PythonUltra.Numpy.Index
import PythonUltra.Numpy.Operations
import PythonUltra.Numpy.Calls
import PythonUltra.Numpy.Rational
import PythonUltra.Numpy.Product
import PythonUltra.Numpy.Inverse
import PythonUltra.Numpy.Shapes
import PythonUltra.Pygame.Color
import PythonUltra.Pygame.Memory
import PythonUltra.Pygame.Imageio
import PythonUltra.Pygame.Ppm
import PythonUltra.Pyterm.Split
import PythonUltra.Pyterm.History
import PythonUltra.Pyterm.Mkdir
import PythonUltra.Lib.Ledger
import PythonUltra.Lib.Exchange
import PythonUltra.Lib.Progression
import PythonUltra.Lib.Splice
import PythonUltra.Pygame.Line
import PythonUltra.Pygame.Draw
import PythonUltra.Pygame.Events
import PythonUltra.Py3d.Transform
import PythonUltra.Py3d.Triangles
import PythonUltra.Py.Quicksort
import PythonUltra.Py.Slice
import PythonUltra.Py.Sequence
import PythonUltra.Py.Objlist
import PythonUltra.Py.ObjlistSpec
import PythonUltra.Py.ObjlistRuns
import PythonUltra.Py.Range
import PythonUltra.Lib.Nearest
import PythonUltra.Py.MpzPow3
import PythonUltra.Py.ObjintHash
import PythonUltra.Py.ObjintBytes
import PythonUltra.Py.MpzFloat
import PythonUltra.Py.HalfFloat
import PythonUltra.Lib.Numeral
import PythonUltra.Py.Parsenum
import PythonUltra.Py.ParsenumSpec
import PythonUltra.Py.ObjintFormat
import PythonUltra.Py.ObjintFormatSpec
import PythonUltra.Py.Bc
import PythonUltra.Py.BcSpec
import PythonUltra.Py.EmitLines
import PythonUltra.Py.Lexer
import PythonUltra.Py.LexerQueue
import PythonUltra.Py.LexerLiteral
import PythonUltra.Py.Qstr
import PythonUltra.Py.Quoted
import PythonUltra.Py.QuotedSpec
import PythonUltra.Py.ParseFold
import PythonUltra.Py.ParseFoldSpec
import PythonUltra.Zipfile.Eocd
import PythonUltra.Sh.Stredit
import PythonUltra.Py.Vstr
import PythonUltra.Py.Repl
import PythonUltra.Py.Objdeque
import PythonUltra.Extmod.Modrandom
import PythonUltra.Extmod.Modbinascii
import PythonUltra.Lib.Calendar
import PythonUltra.Shared.Timeutils
import PythonUltra.Py.Scheduler
import PythonUltra.Extmod.Crc32
