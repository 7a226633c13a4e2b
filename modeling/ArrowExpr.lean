import ArrowExpr.Host.Describe
import ArrowExpr.Json.Node
import ArrowExpr.Syntax.Dump
import ArrowExpr.Proofs.ArrowCalls
import ArrowExpr.Proofs.ScopeSoundness
import ArrowExpr.Proofs.Sessions
import ArrowExpr.Proofs.Readability
import ArrowExpr.Proofs.TokenBoundaries
import ArrowExpr.Proofs.StringLiterals
import ArrowExpr.Proofs.DumpReadability
import ArrowExpr.Proofs.RegistryExtension
import ArrowExpr.Proofs.JsonRoundTrip
import ArrowExpr.Proofs.Effects
import ArrowExpr.Proofs.Noninterference
import ArrowExpr.Proofs.Conduct
import ArrowExpr.Proofs.Chronicle
import ArrowExpr.Proofs.Registration
import ArrowExpr.Proofs.Identity
import ArrowExpr.Proofs.Pairing
import ArrowExpr.Proofs.Parametricity
import ArrowExpr.Proofs.WriterSequences
import ArrowExpr.Proofs.Depth
import ArrowExpr.Proofs.Substitution
import ArrowExpr.Proofs.BuiltinRuns
import ArrowExpr.Proofs.Termination
import ArrowExpr.Proofs.Strictness
import ArrowExpr.Proofs.Extremes
import ArrowExpr.Proofs.IntegerArithmetic
import ArrowExpr.Proofs.FloatRendering
import ArrowExpr.Proofs.Traces
import ArrowExpr.Proofs.FunctionCalls
import ArrowExpr.Proofs.BooleanRewriting
import ArrowExpr.Proofs.MapCalls
import ArrowExpr.Proofs.MapFusion
import ArrowExpr.Proofs.PlainFunctions
import ArrowExpr.Proofs.BuilderPrecedence
import ArrowExpr.Proofs.ListEquality
import ArrowExpr.Proofs.Remainders
