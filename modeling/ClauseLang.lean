import ClauseLang.Source.Position
import ClauseLang.Source.Comment
import ClauseLang.Source.Quoted
import ClauseLang.Source.Word
import ClauseLang.Source.Mark
import ClauseLang.Source.Unassigned
import ClauseLang.Source.Visible
import ClauseLang.Token.Basic
import ClauseLang.Token.Scan
import ClauseLang.Expr.Basic
import ClauseLang.Expr.Print
import ClauseLang.Expr.Equal
import ClauseLang.Expr.Names
import ClauseLang.Scope.Basic
import ClauseLang.Reader.Error
import ClauseLang.Reader.State
import ClauseLang.Reader.Combinator
import ClauseLang.Reader.Grammar
import ClauseLang.Machine.Fault
import ClauseLang.Machine.Native
import ClauseLang.Machine.State
import ClauseLang.Machine.Match
import ClauseLang.Machine.Run
import ClauseLang.Lift.Free
import ClauseLang.Lift.Basic
import ClauseLang.CommandLine
import ClauseLang.Main
import ClauseLang.Proofs.Token.Spelling
import ClauseLang.Proofs.Expr.Spelling
import ClauseLang.Proofs.Reader.Derivation
import ClauseLang.Proofs.Reader.Sound
import ClauseLang.Proofs.Reader.Complete
import ClauseLang.Proofs.Reader.RoundTrip
import ClauseLang.Proofs.Expr.Guards
import ClauseLang.Proofs.Expr.Code
import ClauseLang.Proofs.Machine.Data
import ClauseLang.Proofs.Machine.Dispatch
import ClauseLang.Proofs.Machine.Later
import ClauseLang.Proofs.Machine.Until
import ClauseLang.Proofs.Machine.Value
import ClauseLang.Proofs.Lift.Alike
import ClauseLang.Proofs.Lift.Call
import ClauseLang.Proofs.Lift.Closure
import ClauseLang.Proofs.Lift.Code
import ClauseLang.Proofs.Lift.Flat
import ClauseLang.Proofs.Lift.Hygiene
import ClauseLang.Proofs.Machine.Safe
import ClauseLang.Proofs.Machine.Guard
import ClauseLang.Proofs.Lift.Dump
import ClauseLang.Proofs.Lift.Scoped
import ClauseLang.Proofs.Lift.Meaning
import ClauseLang.Proofs.Lift.Guards
import ClauseLang.Proofs.Machine.Halting
import ClauseLang.Proofs.Machine.History
import ClauseLang.Proofs.Lift.Analysis
import ClauseLang.Proofs.Lift.Refusal
import ClauseLang.Proofs.Machine.Regroup
import ClauseLang.Proofs.Machine.Rebuild
import ClauseLang.Proofs.Reader.Surface
import ClauseLang.Proofs.Machine.Interchange
import ClauseLang.Proofs.Machine.Arithmetic
import ClauseLang.Proofs.Source.Line
import ClauseLang.Proofs.Source.Comment
import ClauseLang.Proofs.Token.Layout
import ClauseLang.Proofs.Reader.Located
import ClauseLang.Proofs.Scope.Merges
import ClauseLang.Proofs.Machine.Mirror
import ClauseLang.Proofs.Reader.Bindings
import ClauseLang.Proofs.Machine.Merged
import ClauseLang.Proofs.Machine.Nesting
import ClauseLang.Proofs.Machine.Binders
import ClauseLang.Proofs.Reader.Furthest
import ClauseLang.Proofs.Reader.Progress
