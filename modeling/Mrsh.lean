import Mrsh.Parser.ArithmText
import Mrsh.Parser.HereDocuments
import Mrsh.Parser.DescriptorInput
import Mrsh.Parser.Aliases
import Mrsh.Builtin.Escaping
import Mrsh.Shell.Hashtable
import Mrsh.Shell.TrapPrograms
import Mrsh.Shell.PendingSignals
import Mrsh.Shell.ForegroundJob
import Mrsh.Shell.FieldSplitting
import Mrsh.Shell.FieldCharacters
import Mrsh.Shell.AndOr
import Mrsh.Shell.Readonly
import Mrsh.Shell.AtSign
import Mrsh.Shell.Quoting
import Mrsh.Shell.Redirections
import Mrsh.Shell.ArithmMeaning
import Mrsh.Shell.ChildSetup
import Mrsh.Shell.ChildStatus
import Mrsh.Shell.ExitingTasks
import Mrsh.Shell.Environment
import Mrsh.Shell.TrimPattern
import Mrsh.Shell.ArgumentVectors
import Mrsh.Shell.PipelineDescriptors
import Mrsh.Parser.Termination
import Mrsh.Parser.ProgramTrees
import Mrsh.Shell.ArithmStorage
import Mrsh.Parser.ArithmAssignments
import Mrsh.Parser.ArithmChains
import Mrsh.Parser.CompoundDocuments
import Mrsh.Parser.DelimiterWords
import Mrsh.Data.Placement
import Mrsh.Shell.AndOrFailures
import Mrsh.Shell.EmptyCommands
import Mrsh.Shell.ExportedVariables
import Mrsh.Shell.FailedRedirections
import Mrsh.Shell.FileRedirections
import Mrsh.Shell.ForClauses
import Mrsh.Shell.DispatchPaths
import Mrsh.Shell.LoopLevels
import Mrsh.Data.InsertedValues
import Mrsh.Parser.NestedAliases
import Mrsh.Builtin.CommandOperands
import Mrsh.Builtin.PosixOptions
import Mrsh.Builtin.RepeatedGetopts
import Mrsh.Parser.CommandNames
import Mrsh.Parser.ParserReset
import Mrsh.AstCopy
import Mrsh.Builtin.ReadLine
import Mrsh.Data.RelatedRuns
import Mrsh.Shell.CopiedExpansions
import Mrsh.Data.SegmentPrefixes
import Mrsh.Data.Stops
import Mrsh.Shell.JobControlTraps
import Mrsh.Shell.JobEntries
import Mrsh.Shell.JobNumbers
import Mrsh.Shell.JobSpecifications
import Mrsh.Shell.LastProcess
import Mrsh.Shell.ProcessReuse
import Mrsh.Shell.TildePrefixes
import Mrsh.Shell.TrapReentry
import Mrsh.Shell.TrapRequests
import Mrsh.Parser.ArithmeticBodies
import Mrsh.Parser.ArithmeticNesting
import Mrsh.Builtin.SymbolicModes
import Mrsh.Builtin.WaitStatuses
import Mrsh.Data.ArraySearch
import Mrsh.Shell.NameLookups
import Mrsh.Shell.SeparatorBuffer
import Mrsh.Shell.SubshellInput
import Mrsh.Builtin.MonitorOption
import Mrsh.Builtin.Cdpath
import Mrsh.Data.Tokens
