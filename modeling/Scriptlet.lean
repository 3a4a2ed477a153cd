import Scriptlet.Position
import Scriptlet.Excerpt
import Scriptlet.Binary64.Exact
import Scriptlet.Binary64.Text
import Scriptlet.Binary64.Places
import Scriptlet.Fault
import Scriptlet.Repetition
import Scriptlet.Text.Classes
import Scriptlet.Text.Integer
import Scriptlet.Text.Printable
import Scriptlet.Text.Quoted
import Scriptlet.Scalar.Complex
import Scriptlet.Scalar.Basic
import Scriptlet.Scalar.Template
import Scriptlet.Scalar.Arithmetic
import Scriptlet.Token.Basic
import Scriptlet.Problem
import Scriptlet.Token.Scan
import Scriptlet.Node.Basic
import Scriptlet.Grammar.Reply
import Scriptlet.Grammar.Production
import Scriptlet.Scopes
import Scriptlet.Value.Basic
import Scriptlet.Value.Error
import Scriptlet.World.Basic
import Scriptlet.World.Text
import Scriptlet.Eval.Operator
import Scriptlet.Eval.Basic
import Scriptlet.Session
import Scriptlet.Shell
import Scriptlet.Workload
import Scriptlet.Main
import Scriptlet.Proofs.Relocation
import Scriptlet.Proofs.Reading.Follows
import Scriptlet.Proofs.Grammar.Derivation
import Scriptlet.Proofs.Grammar.Soundness
import Scriptlet.Proofs.Spelling.Lexemes
import Scriptlet.Proofs.Scan.Partition
import Scriptlet.Proofs.Scan.Lines
import Scriptlet.Proofs.Spelling.Trees
import Scriptlet.Proofs.Grammar.Acceptance
import Scriptlet.Proofs.Spelling.ReadBack
import Scriptlet.Proofs.Running.Linked
import Scriptlet.Proofs.Running.Tracks
import Scriptlet.Proofs.Running.Evaluation
import Scriptlet.Proofs.Running.Layout
import Scriptlet.Proofs.Joining.Fate
import Scriptlet.Proofs.Joining.Onward
import Scriptlet.Proofs.Joining.Stuck
import Scriptlet.Proofs.Joining.Forms
import Scriptlet.Proofs.Joining.Statements
import Scriptlet.Proofs.Joining.Blocks
import Scriptlet.Proofs.Joining.Programs
import Scriptlet.Proofs.Conduct.Standing
import Scriptlet.Proofs.Conduct.Ensures
import Scriptlet.Proofs.Conduct.Scalars
import Scriptlet.Proofs.Conduct.Evaluation
import Scriptlet.Proofs.Conduct.Trees
import Scriptlet.Proofs.Conduct.Sessions
import Scriptlet.Proofs.Joining.Runs
import Scriptlet.Proofs.Conduct.Faults
import Scriptlet.Proofs.Scoping.Underway
import Scriptlet.Proofs.Scoping.Calls
import Scriptlet.Proofs.Scoping.Callers
import Scriptlet.Proofs.Arithmetic.Integers
import Scriptlet.Proofs.History.Trees
import Scriptlet.Proofs.History.Past
import Scriptlet.Proofs.History.Agree
import Scriptlet.Proofs.History.Evaluation
import Scriptlet.Proofs.History.Sessions
import Scriptlet.Proofs.History.Shown
import Scriptlet.Proofs.History.Moved
import Scriptlet.Proofs.History.Tables
import Scriptlet.Proofs.Joining.Refusals
import Scriptlet.Proofs.Sharing.Contents
import Scriptlet.Proofs.Grammar.Endings
import Scriptlet.Proofs.Display.Pieces
import Scriptlet.Proofs.Display.Reading
import Scriptlet.Proofs.Grammar.Backtracking
import Scriptlet.Proofs.Loops.Counting
import Scriptlet.Proofs.Spelling.Literals
import Scriptlet.Proofs.Grammar.Precedence
import Scriptlet.Proofs.Display.TextLines
import Scriptlet.Proofs.Display.Excerpts
import Scriptlet.Proofs.Arithmetic.Doubles
import Scriptlet.Proofs.Arithmetic.Conditions
import Scriptlet.Proofs.Scan.Order
import Scriptlet.Proofs.Grammar.Spans
import Scriptlet.Proofs.Scoping.Forests
import Scriptlet.Proofs.Grammar.Halting
import Scriptlet.Proofs.Loops.Returns
import Scriptlet.Proofs.Loops.Countdown
import Scriptlet.Proofs.Spelling.Phrases
import Scriptlet.Proofs.Spelling.Programs
import Scriptlet.Proofs.Sharing.CollectingPrograms
import Scriptlet.Proofs.Sharing.Collecting
