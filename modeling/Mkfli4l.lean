import Mkfli4l.Lib.Exec
import Mkfli4l.Lib.Lockstep
import Mkfli4l.Lib.CNumber
import Mkfli4l.Lib.Listing
import Mkfli4l.Lib.Words
import Mkfli4l.Lib.Spread
import Mkfli4l.Lib.Traversal
import Mkfli4l.Lib.Loops
import Mkfli4l.Lib.LongestMatch
import Mkfli4l.Lib.CharRegex
import Mkfli4l.Lib.Runs
import Mkfli4l.Lib.Numerals
import Mkfli4l.Lib.LeadingBits
import Mkfli4l.Lib.TreeWalk
import Mkfli4l.Lib.Layout
import Mkfli4l.Lib.Calendar
import Mkfli4l.Lib.Octets
import Mkfli4l.Lib.HexNumerals
import Mkfli4l.Lib.LineReading
import Mkfli4l.Lib.Scanf
import Mkfli4l.Expression.Syntax
import Mkfli4l.Var.Model
import Mkfli4l.Var.SlotArray
import Mkfli4l.Var.SlotRead
import Mkfli4l.Var.SlotWrite
import Mkfli4l.Expression.Evaluate
import Mkfli4l.Expression.Congruence
import Mkfli4l.Var.Effects
import Mkfli4l.Var.Runs
import Mkfli4l.Var.Coverage
import Mkfli4l.Var.Priorities
import Mkfli4l.Var.Graph
import Mkfli4l.Var.GraphMoves
import Mkfli4l.Var.GraphRuns
import Mkfli4l.Var.Names
import Mkfli4l.Var.NestedScopes
import Mkfli4l.Var.BoundDiscipline
import Mkfli4l.Var.BoundNumbers
import Mkfli4l.Var.ReadEffects
import Mkfli4l.Grammar.Normalisation
import Mkfli4l.Grammar.VarNames
import Mkfli4l.Var.IndexSafety
import Mkfli4l.Var.Atomicity
import Mkfli4l.Var.HighWater
import Mkfli4l.Var.Meaning
import Mkfli4l.Var.Iterator
import Mkfli4l.Var.IterationOrder
import Mkfli4l.Var.Check
import Mkfli4l.Var.LateArrays
import Mkfli4l.Var.Clearing
import Mkfli4l.Grammar.Assignments
import Mkfli4l.Grammar.Notation
import Mkfli4l.Grammar.InstanceNames
import Mkfli4l.Grammar.Blocks
import Mkfli4l.Grammar.Quoting
import Mkfli4l.Grammar.Expressions
import Mkfli4l.Grammar.FreeIndices
import Mkfli4l.Var.FailedDefinitions
import Mkfli4l.Var.NamedEntries
import Mkfli4l.Var.DefinitionOrder
import Mkfli4l.Var.TemplateOrder
import Mkfli4l.Expression.Typecheck
import Mkfli4l.Vartype.Expansion
import Mkfli4l.Vartype.Definitions
import Mkfli4l.Var.Settled
import Mkfli4l.Var.Condition
import Mkfli4l.Container.HashMap
import Mkfli4l.Container.Reentrant
import Mkfli4l.Var.ScopeMembers
import Mkfli4l.Var.ScopeDestruction
import Mkfli4l.Var.Shapes
import Mkfli4l.Var.EqualShapes
import Mkfli4l.Archive.Items
import Mkfli4l.Archive.Cpio
import Mkfli4l.Archive.Tar
import Mkfli4l.Archive.LineEnds
import Mkfli4l.Var.Bystanders
import Mkfli4l.Script.Services
import Mkfli4l.Script.Relations
import Mkfli4l.Script.Rewriting
import Mkfli4l.Script.Arithmetic
import Mkfli4l.Script.Precedence
import Mkfli4l.Script.Versions
import Mkfli4l.Script.Networks
import Mkfli4l.Script.ScriptOrder
import Mkfli4l.Var.TransientArray
import Mkfli4l.Script.ArrayStatements
import Mkfli4l.Script.Environment
import Mkfli4l.Script.Split
import Mkfli4l.Script.Submatches
import Mkfli4l.Var.SlotPointers
import Mkfli4l.Script.Foreach
import Mkfli4l.Imond.Accounting
import Mkfli4l.Imond.Config
import Mkfli4l.Imond.ConfigFile
import Mkfli4l.Imond.DayArithmetic
import Mkfli4l.Imond.Holidays
import Mkfli4l.Imond.Channels
import Mkfli4l.Imond.Commands
import Mkfli4l.Imond.Transfer
import Mkfli4l.Imond.Upload
import Mkfli4l.Imond.AccessControl
import Mkfli4l.Httpd.DecodeChunked
import Mkfli4l.Netcalc.Addresses
import Mkfli4l.Netcalc.ReverseZones
import Mkfli4l.Fli4ld.CommandProcessor
import Mkfli4l.Ziplist.Opt
import Mkfli4l.Ziplist.OrderIndependence
import Mkfli4l.Ziplist.Directories
import Mkfli4l.Ziplist.KernMod
import Mkfli4l.Ziplist.ModulesDep
import Mkfli4l.Ziplist.GeneratedModulesDep
import Mkfli4l.Ziplist.OptLibs
import Mkfli4l.Ziplist.LibTermination
import Mkfli4l.Ziplist.LibSoundness
import Mkfli4l.Lib.OnesComplement
import Mkfli4l.Base.UtcOffset
import Mkfli4l.Fli4ld.Semaphore
import Mkfli4l.Petools.Checksum
import Mkfli4l.Hwsuppd.Devices
import Mkfli4l.Lib.Buffers
import Mkfli4l.Telmond.Tables
import Mkfli4l.Telmond.RecordCall
import Mkfli4l.Ovpnctrl.ReadLine
import Mkfli4l.Netsrv.Read
import Mkfli4l.Lib.Substrings
import Mkfli4l.Syslinux.Generation
import Mkfli4l.Lib.Records
import Mkfli4l.Netlink.Datagrams
import Mkfli4l.Archive.PaxRecords
import Mkfli4l.Base.DynamicStrings
import Mkfli4l.Var.Parts
import Mkfli4l.Vartype.RegexText
import Mkfli4l.Lib.Templates
import Mkfli4l.Script.IndexedNames
