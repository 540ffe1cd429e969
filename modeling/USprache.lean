import USprache.LanguageServer.Document
import USprache.CodeBuilder.NameCompression
import USprache.Ustlib.HashMapRefinement
import USprache.Ustlib.IntegerRoundTrip
import USprache.LexSynt.SourceGraphCorrect
import USprache.CodeBuilder.TypeNameInjectivity
import USprache.BuildSystem.MakeDepFile
import USprache.Ustlib.VectorRuns
import USprache.Ustlib.SharedPtrMt
import USprache.BuildSystem.BuildGraphSerialization
import USprache.BuildSystem.Unification
import USprache.CodeBuilder.CoroutineReferences
import USprache.CodeBuilder.ClassHierarchy
import USprache.CodeBuilder.ClassOrderIndependence
import USprache.CodeBuilder.MsvcTypeInjectivity
import USprache.CodeBuilder.SwitchExactness
import USprache.CodeBuilder.ArrayIndexing
import USprache.CodeBuilder.ConstantComparison
import USprache.Ustlib.SharedPtrRuns
import USprache.Ustlib.StringRuns
import USprache.Ustlib.Polymorph
import USprache.CodeBuilder.EnumUnderlyingType
import USprache.CodeBuilder.NonSync
import USprache.CodeBuilder.AliasTemplates
import USprache.CodeBuilder.AsyncCallsInlining
import USprache.CodeBuilder.SystemVRegisters
import USprache.CodeBuilder.CallBorrows
import USprache.CodeBuilder.LoopStates
import USprache.CodeBuilder.ReferenceDeduction
import USprache.CodeBuilder.ConstexprValueNames
import USprache.CodeBuilder.SpecializedMatching
import USprache.CodeBuilder.OverloadAdmission
import USprache.LexSynt.MacroTermination
import USprache.LexSynt.PositionConversion
import USprache.LanguageServer.Uri
import USprache.CodeBuilder.InterpreterCalls
import USprache.Ustlib.BinaryHeap
import USprache.Ustlib.BinarySearch
import USprache.BuildSystem.Linking
import USprache.BuildSystem.RebuildMarking
import USprache.BuildSystem.SourceDirectories
import USprache.LexSynt.OperatorSequences
import USprache.LexSynt.IntegerLiterals
import USprache.Ustlib.VectorGrowth
import USprache.Ustlib.ArenaAllocator
import USprache.Ustlib.ByteRange
import USprache.CodeBuilder.InterpreterValues
import USprache.Ustlib.FloatGrammar
