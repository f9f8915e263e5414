import RowStore.Layout
import RowStore.PageId
import RowStore.Bytes
import RowStore.Text.Utf8
import RowStore.Text.Blank
import RowStore.Text.Cluster.Ranges
import RowStore.Text.Cluster.Basic
import RowStore.Text.Backspace
import RowStore.Text.Visible
import RowStore.Decimal.Fixed
import RowStore.Failure
import RowStore.Edit
import RowStore.Bisect
import RowStore.Node.Header
import RowStore.Node.Leaf
import RowStore.Node.Branch
import RowStore.Image
import RowStore.Pager.Counters
import RowStore.Pager.Basic
import RowStore.Row
import RowStore.Tree.Access
import RowStore.Tree.Search
import RowStore.Tree.Insert
import RowStore.Tree.Cursor
import RowStore.Tree.Outline
import RowStore.Tree.Check
import RowStore.Command.Statement
import RowStore.Command.Dot
import RowStore.Shell.Basic
import RowStore.Shell
import RowStore.Main
import RowStore.Proofs.Run
import RowStore.Proofs.Firm
import RowStore.Proofs.Node.Reading
import RowStore.Proofs.Node.Writing
import RowStore.Proofs.Node.Fields
import RowStore.Proofs.Node.Halving
import RowStore.Proofs.Node.Insertion
import RowStore.Proofs.Pager.View
import RowStore.Proofs.Pager.Save
import RowStore.Proofs.Pager.Memory
import RowStore.Proofs.Pager.Flat
import RowStore.Proofs.Tree.Access
import RowStore.Proofs.Tree.Branches
import RowStore.Proofs.Tree.Capacity
import RowStore.Proofs.Tree.Contract
import RowStore.Proofs.Tree.Invariant
import RowStore.Proofs.Tree.Occupancy
import RowStore.Proofs.Tree.Slots
import RowStore.Proofs.Tree.Accounting
import RowStore.Proofs.Tree.Guarantee
import RowStore.Proofs.Tree.Verdict
import RowStore.Proofs.Tree.Lookups
import RowStore.Proofs.Tree.Endings
import RowStore.Proofs.Tree.Damage
import RowStore.Proofs.Tree.DamagedSplit
import RowStore.Proofs.Tree.Recovery
import RowStore.Proofs.Tree.Height
import RowStore.Proofs.Pager.Steady
import RowStore.Proofs.Pager.Tidy
import RowStore.Proofs.Pager.Calls
import RowStore.Proofs.Pager.Length
import RowStore.Proofs.Pager.Tally
import RowStore.Proofs.Tree.Tidy
import RowStore.Proofs.Tree.Operations
import RowStore.Proofs.Tree.Replay
import RowStore.Proofs.Tree.Bears
import RowStore.Proofs.Tree.Alike
import RowStore.Proofs.Tree.Robust
import RowStore.Proofs.Tree.Looking
import RowStore.Proofs.Tree.Circle
import RowStore.Proofs.Tree.Halves
import RowStore.Proofs.Tree.Effort
import RowStore.Proofs.Tree.Crash
import RowStore.Proofs.Tree.OneLeaf
import RowStore.Proofs.Tree.Milestones
import RowStore.Proofs.Tree.Separators
import RowStore.Proofs.Tree.Range
import RowStore.Proofs.Tree.EndFlag
import RowStore.Proofs.Tree.SplitShape
import RowStore.Proofs.Tree.Spares
import RowStore.Proofs.Tree.Locality
import RowStore.Proofs.Tree.OutlineText
import RowStore.Proofs.Tree.OutlineScan
import RowStore.Proofs.Text.Utf8
import RowStore.Proofs.Text.Valid
import RowStore.Proofs.Text.Words
import RowStore.Proofs.Row
import RowStore.Proofs.Columns
import RowStore.Proofs.Command.Grammar
import RowStore.Proofs.Command.Table
import RowStore.Proofs.Shell
import RowStore.Proofs.Unsaved
