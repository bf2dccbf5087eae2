import SetCover.Session
import SetCover.Proofs.Checkpoint
import SetCover.Proofs.Linkage
import SetCover.Proofs.Plain.Refinement
import SetCover.Proofs.Search.Accounts
import SetCover.Proofs.Search.Gain
import SetCover.Proofs.Search.Incumbent
import SetCover.Proofs.Search.LivePart
import SetCover.Proofs.Search.NegativeZeros
import SetCover.Proofs.Search.Pruning
import SetCover.Proofs.Search.RowDominance
import SetCover.Proofs.Search.Ties
import SetCover.Proofs.Search.ColumnDominance
import SetCover.Proofs.Search.EssentialColumns
import SetCover.Proofs.Search.FixedPoint
import SetCover.Proofs.Search.Components
import SetCover.Proofs.Search.Tally
import SetCover.Proofs.Refusals
import SetCover.Proofs.Confluence
import SetCover.Proofs.Renewal
import SetCover.Proofs.Graph.Greedy
import SetCover.Proofs.Partition.Ranks
import SetCover.Proofs.Arena.Contents
import SetCover.Proofs.Snapshot
